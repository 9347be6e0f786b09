import FlatAggregate.Decimal.Places
import FlatAggregate.Generator.Basic

/-!
# The query cache

A query depends on the schema and the settings only, so it is generated once per aggregate and
shared. Entries go by the name of the aggregate alone: a schema that was changed under its name
keeps getting the old query until that name is invalidated or the cache is cleared.

Each entry has a number, that of the miss which made it, so that one can tell whether two answers
are the same entry.

`fetch`, `invalidate` and `clear` are what one asks of a cache. `hitRate` is the share of hits among
all lookups, a double, and `hitRateText` writes it with six decimal places.
-/

namespace FlatAggregate

structure CacheEntry where
  number : Nat
  query : GeneratedQuery

/-- The queries generated so far by the names of their aggregates, and how often they were found.
The counters are whole numbers without a bound. Counters of 64 bits would start again at zero only
after `2 ^ 64` lookups, which no run comes to, so nothing is said of that. -/
structure QueryCache where
  generator : Generator := {}
  enabled : Bool := true
  entries : List (String × CacheEntry) := []
  hits : Nat := 0
  misses : Nat := 0

namespace QueryCache

def find? (cache : QueryCache) (name : String) : Option CacheEntry :=
  cache.entries.lookup name

def size (cache : QueryCache) : Nat := cache.entries.length

/-- The query of a schema: the entry of its name, or a new one. A disabled cache makes a new entry
each time and keeps none. A failure counts as a miss and changes nothing else. -/
def fetch (cache : QueryCache) (schema : Schema) :
    Except GeneratorError CacheEntry × QueryCache :=
  match if cache.enabled then cache.find? schema.name else none with
  | some entry => (.ok entry, { cache with hits := cache.hits + 1 })
  | none =>
    let missed := { cache with misses := cache.misses + 1 }
    match cache.generator.query schema with
    | .error error => (.error error, missed)
    | .ok query =>
      let entry : CacheEntry := ⟨missed.misses, query⟩
      if cache.enabled then
        (.ok entry, { missed with entries := (schema.name, entry) :: missed.entries })
      else (.ok entry, missed)

def invalidate (cache : QueryCache) (name : String) : Bool × QueryCache :=
  ((cache.find? name).isSome,
    { cache with entries := cache.entries.filter (·.1 ≠ name) })

def clear (cache : QueryCache) : QueryCache := { cache with entries := [] }

def hitRate (cache : QueryCache) : Float :=
  let total := cache.hits + cache.misses
  if total = 0 then 0.0 else cache.hits.toFloat / total.toFloat

def hitRateText (cache : QueryCache) : String :=
  ((Decimal.Binary.ofFloat? cache.hitRate).map (Decimal.fixed 6)).getD ""

end QueryCache

end FlatAggregate
