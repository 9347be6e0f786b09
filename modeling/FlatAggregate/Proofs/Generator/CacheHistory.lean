import FlatAggregate.Generator.Cache
import Mathlib.Data.List.DropRight

/-!
# The history of a cache

All that a cache does can be told from the requests that were made and their answers. Under a name
it holds what the first fetch under that name was given since the name was last dropped
(`QueryCache.held?`), and the counters are numbers of requests.

A `Request` is served with an `Answer`, and a `History` lists the requests with their answers. `run`
serves requests in turn, the first with a new cache. `missedAt` and `missed` count the fetches that
found nothing, and `answer` says what a request is answered after a history; no cache occurs in it.
-/

namespace FlatAggregate

namespace QueryCache

inductive Request where
  | fetch (schema : Schema)
  | find (name : String)
  | invalidate (name : String)
  | clear

namespace Request

def isFetch : Request → Bool
  | fetch _ => true
  | _ => false

def drops (name : String) : Request → Bool
  | invalidate other => other = name
  | clear => true
  | _ => false

end Request

inductive Answer where
  | fetched (result : Except GeneratorError CacheEntry)
  | found (entry : Option CacheEntry)
  | invalidated (present : Bool)
  | cleared

def serve (cache : QueryCache) : Request → Answer × QueryCache
  | .fetch schema => (.fetched (cache.fetch schema).1, (cache.fetch schema).2)
  | .find name => (.found (cache.find? name), cache)
  | .invalidate name => (.invalidated (cache.invalidate name).1, (cache.invalidate name).2)
  | .clear => (.cleared, cache.clear)

abbrev History := List (Request × Answer)

def run (generator : Generator) (enabled : Bool) (requests : List Request) : History × QueryCache :=
  requests.foldl (fun (history, cache) request =>
    (history ++ [(request, (cache.serve request).1)], (cache.serve request).2))
    ([], { generator, enabled })

/-- What a fetch under a name was given, with its schema; nothing if it failed. -/
def given? (name : String) : Request × Answer → Option (Schema × CacheEntry)
  | (.fetch schema, .fetched (.ok entry)) =>
    if schema.name = name then some (schema, entry) else none
  | _ => none

/-- What the first fetch under a name was given since the name was last dropped, failed fetches not
counted. A disabled cache holds nothing. -/
def held? (enabled : Bool) (history : History) (name : String) : Option (Schema × CacheEntry) :=
  if enabled then
    (history.rtakeWhile fun event => !event.1.drops name).findSome? (given? name)
  else none

/-- Whether a request is a fetch at a time when nothing is held under its name. -/
def missedAt (enabled : Bool) (history : History) (i : Nat) : Bool :=
  match history[i]? with
  | some (.fetch schema, _) => (held? enabled (history.take i) schema.name).isNone
  | _ => false

def missed (enabled : Bool) (history : History) : Nat :=
  (List.range history.length).countP (missedAt enabled history)

/-- The answer after a history: what is held, or, to a fetch, a query of its own schema with the
next number. -/
def answer (generator : Generator) (enabled : Bool) (history : History) : Request → Answer
  | .fetch schema =>
    match held? enabled history schema.name with
    | some (_, entry) => .fetched (.ok entry)
    | none =>
      .fetched ((generator.query schema).map fun query => ⟨missed enabled history + 1, query⟩)
  | .find name => .found ((held? enabled history name).map Prod.snd)
  | .invalidate name => .invalidated (held? enabled history name).isSome
  | .clear => .cleared

section Histories

variable {generator : Generator} {enabled : Bool} {history : History} {name : String}

theorem run_append_singleton (requests : List Request) (request : Request) :
    run generator enabled (requests ++ [request]) =
      ((run generator enabled requests).1 ++
          [(request, ((run generator enabled requests).2.serve request).1)],
        ((run generator enabled requests).2.serve request).2) :=
  List.foldl_concat _ _ _ _

theorem held?_disabled (history : History) (name : String) : held? false history name = none := rfl

theorem held?_append_singleton (event : Request × Answer) :
    held? true (history ++ [event]) name =
      if event.1.drops name then none
      else (held? true history name).or (given? name event) := by
  simp only [held?, if_true, List.rtakeWhile_concat]
  cases event.1.drops name with
  | true => rfl
  | false =>
      rw [Bool.not_false, if_pos rfl, List.findSome?_append]
      cases h : given? name event <;> simp [h]

theorem missed_append_singleton (event : Request × Answer) :
    missed enabled (history ++ [event]) = missed enabled history +
      if missedAt enabled (history ++ [event]) history.length then 1 else 0 := by
  rw [missed, List.length_append, List.length_singleton, List.range_succ, List.countP_append,
    List.countP_singleton, missed]
  congr 1
  refine List.countP_congr fun i hi => ?_
  have hlt : i < history.length := List.mem_range.mp hi
  rw [missedAt, missedAt, List.getElem?_append_left hlt, List.take_append_of_le_length hlt.le]

theorem missedAt_append_singleton (event : Request × Answer) :
    missedAt enabled (history ++ [event]) history.length =
      match event with
      | (.fetch schema, _) => (held? enabled history schema.name).isNone
      | _ => false := by
  rw [missedAt, List.getElem?_append_right (Nat.le_refl _), Nat.sub_self]
  obtain ⟨request, answer⟩ := event
  cases request <;> simp

theorem missed_disabled (history : History) :
    missed false history = history.countP (·.1.isFetch) := by
  induction history using List.reverseRecOn with
  | nil => rfl
  | append_singleton history event ih =>
      rw [missed_append_singleton, missedAt_append_singleton, ih, List.countP_append,
        List.countP_singleton]
      obtain ⟨request, answer⟩ := event
      cases request <;> rfl

/-- An event neither drops the entry of a name nor gives one where there is one. -/
theorem held?_append_of_not_drops {event : Request × Answer} (hdrops : event.1.drops name = false)
    (hgiven : held? enabled history name = none → given? name event = none) :
    held? enabled (history ++ [event]) name = held? enabled history name := by
  cases enabled with
  | false => rfl
  | true =>
      rw [held?_append_singleton, hdrops, if_neg Bool.false_ne_true]
      cases hheld : held? true history name with
      | none => rw [hgiven hheld, Option.or_none]
      | some kept => rw [Option.some_or]

/-- What is held after an event was held before or is given by the event. -/
theorem held?_append_given {event : Request × Answer} {kept : Schema × CacheEntry}
    (h : held? enabled (history ++ [event]) name = some kept) :
    held? enabled history name = some kept ∨ given? name event = some kept := by
  cases enabled with
  | false => cases h
  | true =>
      rw [held?_append_singleton] at h
      split at h
      · cases h
      · exact (Option.or_eq_some_iff.mp h).imp id And.right

end Histories

section Runs

variable {generator : Generator} {enabled : Bool} {requests : List Request} {request : Request}
  {i : Nat}

theorem map_fst_run (generator : Generator) (enabled : Bool) (requests : List Request) :
    (run generator enabled requests).1.map Prod.fst = requests := by
  induction requests using List.reverseRecOn with
  | nil => rfl
  | append_singleton requests request ih =>
      rw [run_append_singleton, List.map_append, ih, List.map_singleton]

theorem countP_run (generator : Generator) (enabled : Bool) (requests : List Request) :
    (run generator enabled requests).1.countP (·.1.isFetch) =
      requests.countP Request.isFetch := by
  conv_rhs => rw [← map_fst_run generator enabled requests]
  rw [List.countP_map]
  rfl

theorem length_run (requests : List Request) :
    (run generator enabled requests).1.length = requests.length := by
  rw [← List.length_map Prod.fst, map_fst_run]

theorem run_take (generator : Generator) (enabled : Bool) (requests : List Request) (i : Nat) :
    (run generator enabled (requests.take i)).1 = (run generator enabled requests).1.take i := by
  induction requests using List.reverseRecOn with
  | nil => simp [run]
  | append_singleton requests request ih =>
      obtain hlt | hle := Nat.lt_or_ge requests.length i
      · have hwhole : (requests ++ [request]).length ≤ i := by
          rw [List.length_append]
          exact hlt
        rw [List.take_of_length_le hwhole,
          List.take_of_length_le ((length_run _).trans_le hwhole)]
      · rw [run_append_singleton, List.take_append_of_le_length hle,
          List.take_append_of_le_length (by rwa [length_run]), ih]

theorem run_take_succ (h : requests[i]? = some request) :
    run generator enabled (requests.take (i + 1)) =
      ((run generator enabled (requests.take i)).1 ++
          [(request, ((run generator enabled (requests.take i)).2.serve request).1)],
        ((run generator enabled (requests.take i)).2.serve request).2) := by
  rw [List.take_add_one, h, Option.toList_some, run_append_singleton]

end Runs

end QueryCache

end FlatAggregate
