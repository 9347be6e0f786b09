import FlatAggregate.Proofs.Generator.CacheHistory
import FlatAggregate.Proofs.Generator.OutputNames
import Mathlib.Data.Set.Card

/-!
# The cache as a map

Request by request, a cache goes along with its history (`QueryCache.Reflects`): a fetch finds what
is held, or fails, or makes an entry (`Reflects.fetch_cases`), and every other request leaves the
counters alone. So a cache serves like a map from names to what was first generated under them
(`QueryCache.serves_like_map`).
-/

namespace FlatAggregate

namespace Generator

variable {generator : Generator} {schema : Schema} {query : GeneratedQuery}

theorem aggregate_of_query (h : generator.query schema = .ok query) :
    query.aggregate = schema.name := by
  rw [Generator.query] at h
  cases hstatement : generator.statement schema with
  | error error =>
      rw [hstatement] at h
      cases h
  | ok statement =>
      rw [hstatement] at h
      rw [← Except.ok.inj h]

end Generator

namespace QueryCache

section Lookups

variable {β : Type} {entries : List (String × β)} {name : String}

theorem lookup_filter_ne (entries : List (String × β)) (name other : String) :
    (entries.filter (·.1 ≠ name)).lookup other =
      if other = name then none else entries.lookup other := by
  induction entries with
  | nil => simp
  | cons entry rest ih =>
      obtain ⟨key, value⟩ := entry
      by_cases hkey : key = name
      · subst hkey
        rw [List.filter_cons_of_neg (by simp), ih]
        by_cases hother : other = key
        · rw [if_pos hother, if_pos hother]
        · rw [if_neg hother, if_neg hother, lookup_cons_of_ne hother]
      · rw [List.filter_cons_of_pos (by simpa using hkey), List.lookup_cons, List.lookup_cons, ih]
        by_cases hother : other = name
        · rw [beq_false_of_ne (hother ▸ Ne.symm hkey), if_pos hother]
        · rw [if_neg hother, if_neg hother]

theorem lookup_isSome_iff_mem_keys :
    (entries.lookup name).isSome ↔ name ∈ entries.map Prod.fst := by
  rw [List.lookup_isSome_iff, List.mem_map]
  exact exists_congr fun entry => and_congr_right fun _ => beq_iff_eq.trans eq_comm

end Lookups

section Fetching

variable {cache : QueryCache} {schema : Schema} {entry : CacheEntry} {query : GeneratedQuery}

/-- What a cache looks up for a fetch: nothing if it is disabled. -/
def served? (cache : QueryCache) (name : String) : Option CacheEntry :=
  if cache.enabled then cache.find? name else none

theorem fetch_of_served (h : cache.served? schema.name = some entry) :
    cache.fetch schema = (.ok entry, { cache with hits := cache.hits + 1 }) := by
  rw [served?] at h
  rw [fetch, h]

theorem fetch_of_error {error : GeneratorError} (h : cache.served? schema.name = none)
    (hquery : cache.generator.query schema = .error error) :
    cache.fetch schema = (.error error, { cache with misses := cache.misses + 1 }) := by
  rw [served?] at h
  rw [fetch, h]
  simp only [hquery]

theorem fetch_of_ok (h : cache.served? schema.name = none)
    (hquery : cache.generator.query schema = .ok query) :
    cache.fetch schema = (.ok ⟨cache.misses + 1, query⟩,
      { cache with
        misses := cache.misses + 1
        entries := if cache.enabled then (schema.name, ⟨cache.misses + 1, query⟩) :: cache.entries
          else cache.entries }) := by
  rw [served?] at h
  rw [fetch, h]
  simp only [hquery]
  cases cache.enabled <;> rfl

end Fetching

/-- A cache has come about by a history. -/
structure Reflects (generator : Generator) (enabled : Bool) (history : History)
    (cache : QueryCache) : Prop where
  generator_eq : cache.generator = generator
  enabled_eq : cache.enabled = enabled
  find?_eq : ∀ name, cache.find? name = (held? enabled history name).map Prod.snd
  nodup_keys : (cache.entries.map Prod.fst).Nodup
  query_eq : ∀ name schema entry, held? enabled history name = some (schema, entry) →
    schema.name = name ∧ generator.query schema = .ok entry.query
  misses_eq : cache.misses = missed enabled history
  lookups_eq : cache.hits + cache.misses = history.countP (·.1.isFetch)

namespace Reflects

variable {generator : Generator} {enabled : Bool} {history : History} {cache : QueryCache}
  {schema : Schema}

theorem empty (generator : Generator) (enabled : Bool) :
    Reflects generator enabled [] { generator, enabled } where
  generator_eq := rfl
  enabled_eq := rfl
  find?_eq name := by cases enabled <;> rfl
  nodup_keys := List.nodup_nil
  query_eq name schema entry h := by cases enabled <;> cases h
  misses_eq := rfl
  lookups_eq := rfl

variable (h : Reflects generator enabled history cache)

include h

theorem served?_eq (name : String) :
    cache.served? name = (held? enabled history name).map Prod.snd := by
  rw [served?, h.enabled_eq, h.find?_eq]
  cases enabled <;> rfl

theorem step {request : Request} {answer : Answer} {later : QueryCache}
    (hgenerator : later.generator = cache.generator) (henabled : later.enabled = cache.enabled)
    (hfind : ∀ name, later.find? name =
      (held? enabled (history ++ [(request, answer)]) name).map Prod.snd)
    (hnodup : (later.entries.map Prod.fst).Nodup)
    (hquery : ∀ name schema entry,
      held? enabled (history ++ [(request, answer)]) name = some (schema, entry) →
        held? enabled history name = some (schema, entry) ∨
          schema.name = name ∧ generator.query schema = .ok entry.query)
    (hmisses : later.misses = cache.misses +
      if missedAt enabled (history ++ [(request, answer)]) history.length then 1 else 0)
    (hlookups : later.hits + later.misses =
      cache.hits + cache.misses + if request.isFetch then 1 else 0) :
    Reflects generator enabled (history ++ [(request, answer)]) later where
  generator_eq := hgenerator.trans h.generator_eq
  enabled_eq := henabled.trans h.enabled_eq
  find?_eq := hfind
  nodup_keys := hnodup
  query_eq name schema entry hheld :=
    (hquery name schema entry hheld).elim (h.query_eq name schema entry) id
  misses_eq := by rw [hmisses, h.misses_eq, missed_append_singleton]
  lookups_eq := by
    rw [hlookups, h.lookups_eq, List.countP_append, List.countP_singleton]

theorem of_not_fetch {request : Request} {answer : Answer} {later : QueryCache}
    (hrequest : request.isFetch = false) (hhits : later.hits = cache.hits)
    (hmisses : later.misses = cache.misses) (hgenerator : later.generator = cache.generator)
    (henabled : later.enabled = cache.enabled)
    (hfind : ∀ name, later.find? name = if request.drops name then none else cache.find? name)
    (hnodup : (later.entries.map Prod.fst).Nodup) :
    Reflects generator enabled (history ++ [(request, answer)]) later := by
  have hgiven : ∀ name, given? name (request, answer) = none := by
    intro name
    cases request with
    | fetch schema => cases hrequest
    | _ => rfl
  have hmissed : missedAt enabled (history ++ [(request, answer)]) history.length = false := by
    rw [missedAt_append_singleton]
    cases request with
    | fetch schema => cases hrequest
    | _ => rfl
  refine h.step hgenerator henabled (fun name => ?_) hnodup (fun name made entry hmade => ?_) ?_ ?_
  · rw [hfind, h.find?_eq]
    cases hdrops : request.drops name with
    | false => rw [held?_append_of_not_drops hdrops fun _ => hgiven name, if_neg Bool.false_ne_true]
    | true =>
        cases enabled with
        | false => rfl
        | true => rw [held?_append_singleton, hdrops, if_pos rfl, if_pos rfl, Option.map_none]
  · refine (held?_append_given hmade).imp id fun hsome => ?_
    rw [hgiven] at hsome
    cases hsome
  · rw [hmisses, hmissed, if_neg Bool.false_ne_true]
    rfl
  · rw [hhits, hmisses, hrequest, if_neg Bool.false_ne_true]
    rfl

theorem of_hit {entry : CacheEntry} {held : Schema}
    (hheld : held? enabled history schema.name = some (held, entry)) :
    Reflects generator enabled (history ++ [(.fetch schema, .fetched (.ok entry))])
      { cache with hits := cache.hits + 1 } := by
  have hsame : ∀ name, held? enabled (history ++ [(.fetch schema, .fetched (.ok entry))]) name =
      held? enabled history name := fun name =>
    held?_append_of_not_drops rfl fun hnone => if_neg fun heq => by
      rw [← heq, hheld] at hnone
      cases hnone
  refine h.step rfl rfl (fun name => ?_) h.nodup_keys (fun name made entry' hmade => ?_) ?_ ?_
  · rw [hsame]
    exact h.find?_eq name
  · rw [hsame] at hmade
    exact .inl hmade
  · rw [missedAt_append_singleton]
    simp [hheld]
  · exact Nat.add_right_comm _ _ _

theorem of_failure {error : GeneratorError} (hheld : held? enabled history schema.name = none) :
    Reflects generator enabled (history ++ [(.fetch schema, .fetched (.error error))])
      { cache with misses := cache.misses + 1 } := by
  refine h.step rfl rfl (fun name => ?_) h.nodup_keys (fun name made entry hmade => ?_) ?_ rfl
  · rw [held?_append_of_not_drops rfl fun _ => rfl]
    exact h.find?_eq name
  · rw [held?_append_of_not_drops rfl fun _ => rfl] at hmade
    exact .inl hmade
  · rw [missedAt_append_singleton]
    simp [hheld]

theorem of_miss {entry : CacheEntry} (hheld : held? enabled history schema.name = none)
    (hquery : generator.query schema = .ok entry.query) :
    Reflects generator enabled (history ++ [(.fetch schema, .fetched (.ok entry))])
      { cache with
        misses := cache.misses + 1
        entries := if cache.enabled then (schema.name, entry) :: cache.entries
          else cache.entries } := by
  refine h.step rfl rfl (fun name => ?_) ?_ (fun name made entry' hmade => ?_) ?_ rfl
  · cases enabled with
    | false =>
        rw [h.enabled_eq]
        exact h.find?_eq name
    | true =>
        rw [h.enabled_eq, held?_append_singleton, if_pos rfl, if_neg (by simp [Request.drops]),
          find?, given?]
        by_cases hname : name = schema.name
        · rw [hname, List.lookup_cons_self, if_pos rfl, hheld]
          rfl
        · rw [lookup_cons_of_ne hname, if_neg (Ne.symm hname), Option.or_none]
          exact h.find?_eq name
  · cases enabled with
    | false =>
        rw [h.enabled_eq]
        exact h.nodup_keys
    | true =>
        have hfind := h.find?_eq schema.name
        rw [hheld] at hfind
        rw [h.enabled_eq]
        refine List.nodup_cons.mpr ⟨fun hmem => ?_, h.nodup_keys⟩
        have hsome := lookup_isSome_iff_mem_keys.mpr hmem
        rw [← find?, hfind] at hsome
        cases hsome
  · refine (held?_append_given hmade).imp id fun hgiven => ?_
    rw [given?] at hgiven
    split at hgiven
    · rename_i hname
      obtain ⟨rfl, rfl⟩ := Prod.mk.inj (Option.some.inj hgiven)
      exact ⟨hname, hquery⟩
    · cases hgiven
  · rw [missedAt_append_singleton]
    simp [hheld]

/-- A fetch finds what is held, or fails, or makes an entry. -/
theorem fetch_cases (schema : Schema) :
    (∃ held entry, held? enabled history schema.name = some (held, entry) ∧
      cache.fetch schema = (.ok entry, { cache with hits := cache.hits + 1 })) ∨
    (∃ error, held? enabled history schema.name = none ∧
      generator.query schema = .error error ∧
      cache.fetch schema = (.error error, { cache with misses := cache.misses + 1 })) ∨
    ∃ entry : CacheEntry, held? enabled history schema.name = none ∧
      generator.query schema = .ok entry.query ∧ entry.number = missed enabled history + 1 ∧
      cache.fetch schema = (.ok entry,
        { cache with
          misses := cache.misses + 1
          entries := if cache.enabled then (schema.name, entry) :: cache.entries
            else cache.entries }) := by
  have hserved := h.served?_eq schema.name
  cases hheld : held? enabled history schema.name with
  | some kept =>
      rw [hheld] at hserved
      exact .inl ⟨kept.1, kept.2, rfl, fetch_of_served hserved⟩
  | none =>
      rw [hheld] at hserved
      cases hquery : generator.query schema with
      | error error =>
          exact .inr (.inl ⟨error, rfl, rfl, fetch_of_error hserved (h.generator_eq ▸ hquery)⟩)
      | ok query =>
          exact .inr (.inr ⟨⟨cache.misses + 1, query⟩, rfl, rfl, congrArg (· + 1) h.misses_eq,
            fetch_of_ok hserved (h.generator_eq ▸ hquery)⟩)

theorem serve_eq (request : Request) :
    (cache.serve request).1 = answer generator enabled history request := by
  cases request with
  | fetch schema =>
      rw [serve, answer]
      obtain ⟨held, entry, hheld, hfetch⟩ | ⟨error, hheld, hquery, hfetch⟩ |
        ⟨entry, hheld, hquery, hnumber, hfetch⟩ := h.fetch_cases schema
      · rw [hfetch, hheld]
      · rw [hfetch, hheld, hquery]
        rfl
      · rw [hfetch, hheld, hquery, ← hnumber]
        rfl
  | find name => rw [serve, answer, h.find?_eq]
  | invalidate name => rw [serve, answer, invalidate, h.find?_eq, Option.isSome_map]
  | clear => rfl

theorem serve (request : Request) :
    Reflects generator enabled (history ++ [(request, (cache.serve request).1)])
      (cache.serve request).2 := by
  cases request with
  | fetch schema =>
      rw [QueryCache.serve]
      obtain ⟨held, entry, hheld, hfetch⟩ | ⟨error, hheld, hquery, hfetch⟩ |
        ⟨entry, hheld, hquery, hnumber, hfetch⟩ := h.fetch_cases schema
      · exact hfetch ▸ h.of_hit hheld
      · exact hfetch ▸ h.of_failure hheld
      · exact hfetch ▸ h.of_miss hheld hquery
  | find name => exact h.of_not_fetch rfl rfl rfl rfl rfl (fun _ => rfl) h.nodup_keys
  | invalidate name =>
      refine h.of_not_fetch rfl rfl rfl rfl rfl (fun other => ?_) ?_
      · rw [QueryCache.serve, invalidate, find?, lookup_filter_ne, Request.drops]
        simp [find?, eq_comm]
      · exact h.nodup_keys.sublist (List.filter_sublist.map _)
  | clear => exact h.of_not_fetch rfl rfl rfl rfl rfl (fun _ => rfl) List.nodup_nil

theorem size_eq : cache.size = {name | (held? enabled history name).isSome}.ncard := by
  have hnames : {name | (held? enabled history name).isSome} =
      ((cache.entries.map Prod.fst).toFinset : Set String) := by
    ext name
    rw [List.coe_toFinset, Set.mem_ofPred_eq, Set.mem_ofPred_eq, ← lookup_isSome_iff_mem_keys,
      ← find?, h.find?_eq, Option.isSome_map]
  rw [hnames, Set.ncard_coe_finset, List.toFinset_card_of_nodup h.nodup_keys, List.length_map, size]

theorem aggregate_eq {name : String} {entry : CacheEntry} (hfind : cache.find? name = some entry) :
    entry.query.aggregate = name := by
  rw [h.find?_eq, Option.map_eq_some_iff] at hfind
  obtain ⟨⟨schema, made⟩, hheld, rfl⟩ := hfind
  obtain ⟨hname, hquery⟩ := h.query_eq name schema made hheld
  exact (Generator.aggregate_of_query hquery).trans hname

theorem serve_of_failure {error : GeneratorError}
    (hanswer : (cache.serve (.fetch schema)).1 = .fetched (.error error)) :
    (cache.serve (.fetch schema)).2 = { cache with misses := cache.misses + 1 } := by
  rw [QueryCache.serve] at hanswer ⊢
  obtain ⟨held, entry, -, hfetch⟩ | ⟨error', -, -, hfetch⟩ | ⟨entry, -, -, -, hfetch⟩ :=
    h.fetch_cases schema
  · rw [hfetch] at hanswer
    cases hanswer
  · rw [hfetch]
  · rw [hfetch] at hanswer
    cases hanswer

omit h in
theorem of_disabled (h : Reflects generator false history cache) :
    cache.entries = [] ∧ cache.hits = 0 ∧ cache.misses = history.countP (·.1.isFetch) := by
  have hmisses : cache.misses = history.countP (·.1.isFetch) :=
    h.misses_eq.trans (missed_disabled history)
  have hlookups := h.lookups_eq
  have hnames : ∀ name, name ∉ cache.entries.map Prod.fst := by
    intro name hmem
    have hsome := lookup_isSome_iff_mem_keys.mpr hmem
    rw [← find?, h.find?_eq] at hsome
    cases hsome
  exact ⟨List.map_eq_nil_iff.mp (List.eq_nil_iff_forall_not_mem.mpr hnames), by omega, hmisses⟩

end Reflects

section Runs

variable {generator : Generator} {enabled : Bool} {requests : List Request} {request : Request}
  {i : Nat}

theorem reflects_run (generator : Generator) (enabled : Bool) (requests : List Request) :
    Reflects generator enabled (run generator enabled requests).1
      (run generator enabled requests).2 := by
  induction requests using List.reverseRecOn with
  | nil => exact .empty generator enabled
  | append_singleton requests request ih =>
      rw [run_append_singleton]
      exact ih.serve request

theorem getElem?_run (h : requests[i]? = some request) :
    (run generator enabled requests).1[i]? = some
      (request, answer generator enabled ((run generator enabled requests).1.take i) request) := by
  have hle : i ≤ requests.length := (List.getElem?_eq_some_iff.mp h).1.le
  have hlength : ((run generator enabled requests).1.take i).length = i := by
    rw [List.length_take, length_run, Nat.min_eq_left hle]
  have hserve := (reflects_run generator enabled (requests.take i)).serve_eq request
  rw [run_take] at hserve
  rw [← List.getElem?_take_of_lt (Nat.lt_succ_self i), ← run_take, run_take_succ h, hserve,
    run_take, List.getElem?_append_right hlength.le, hlength, Nat.sub_self]
  rfl

end Runs

/-- The requests to a new cache are answered like those to a map; `cache n` is the cache after the
first `n` requests. -/
structure ServesLikeMap (generator : Generator) (enabled : Bool) (requests : List Request)
    (history : History) (cache : Nat → QueryCache) : Prop where
  /-- A fetch gives what is held or else a new entry, `find` and `invalidate` see what is held. -/
  answer_eq : ∀ i request, requests[i]? = some request →
    history[i]? = some (request, answer generator enabled (history.take i) request)
  /-- What is held is the query of its schema, also for other schemas of that name. -/
  query_eq : ∀ n name schema entry, held? enabled (history.take n) name = some (schema, entry) →
    schema.name = name ∧ generator.query schema = .ok entry.query
  /-- The entries are what is held. -/
  find?_eq : ∀ n name, (cache n).find? name = (held? enabled (history.take n) name).map Prod.snd
  /-- An entry goes by the name of its aggregate. -/
  aggregate_eq : ∀ n name entry, (cache n).find? name = some entry → entry.query.aggregate = name
  size_eq : ∀ n, (cache n).size = {name | (held? enabled (history.take n) name).isSome}.ncard
  lookups_eq : ∀ n, (cache n).hits + (cache n).misses = (requests.take n).countP Request.isFetch
  misses_eq : ∀ n, (cache n).misses = missed enabled (history.take n)
  /-- Only a fetch touches the counters. -/
  counters_eq : ∀ i request, requests[i]? = some request → request.isFetch = false →
    (cache (i + 1)).hits = (cache i).hits ∧ (cache (i + 1)).misses = (cache i).misses
  /-- A failure counts as a miss and changes nothing else. -/
  failure : ∀ i schema error,
    history[i]? = some (Request.fetch schema, Answer.fetched (.error error)) →
      cache (i + 1) = { cache i with misses := (cache i).misses + 1 }
  /-- No fetch of an accepted aggregate fails. -/
  accepted : ∀ (i : Nat) aggregate schema, Schema.ofAggregate aggregate = .ok schema →
    requests[i]? = some (Request.fetch schema) →
    ∃ entry : CacheEntry, history[i]? = some (Request.fetch schema, Answer.fetched (.ok entry))
  /-- A disabled cache keeps nothing and generates each time. -/
  disabled : enabled = false →
    (∀ n, (cache n).entries = [] ∧ (cache n).hits = 0 ∧
      (cache n).misses = (requests.take n).countP Request.isFetch) ∧
    ∀ i schema, requests[i]? = some (Request.fetch schema) → history[i]? =
      some (Request.fetch schema, Answer.fetched ((generator.query schema).map fun query =>
        ⟨(cache i).misses + 1, query⟩))

/-- Whatever is asked of a cache and in whatever order, also of schemas that share their names, it
serves like a map. -/
theorem serves_like_map (generator : Generator) (enabled : Bool) (requests : List Request) :
    ServesLikeMap generator enabled requests (run generator enabled requests).1
      fun n => (run generator enabled (requests.take n)).2 := by
  have hreflects : ∀ n, Reflects generator enabled ((run generator enabled requests).1.take n)
      (run generator enabled (requests.take n)).2 := fun n =>
    run_take generator enabled requests n ▸ reflects_run generator enabled (requests.take n)
  have hserved : ∀ {i : Nat} {request : Request}, requests[i]? = some request →
      (run generator enabled (requests.take (i + 1))).2 =
        ((run generator enabled (requests.take i)).2.serve request).2 := fun h =>
    congrArg Prod.snd (run_take_succ h)
  refine
    { answer_eq := fun i request h => getElem?_run h
      query_eq := fun n => (hreflects n).query_eq
      find?_eq := fun n => (hreflects n).find?_eq
      aggregate_eq := fun n name entry => (hreflects n).aggregate_eq
      size_eq := fun n => (hreflects n).size_eq
      lookups_eq := fun n => ?_
      misses_eq := fun n => (hreflects n).misses_eq
      counters_eq := fun i request h hrequest => ?_
      failure := fun i schema error h => ?_
      accepted := fun i aggregate schema haggregate h => ?_
      disabled := fun henabled => ⟨fun n => ?_, fun i schema h => ?_⟩ }
  · rw [← countP_run generator enabled, run_take]
    exact (hreflects n).lookups_eq
  · rw [hserved h]
    cases request with
    | fetch schema => cases hrequest
    | _ => exact ⟨rfl, rfl⟩
  · have hrequest : requests[i]? = some (.fetch schema) := by
      rw [← map_fst_run generator enabled requests, List.getElem?_map, h]
      rfl
    rw [getElem?_run hrequest, ← (hreflects i).serve_eq] at h
    rw [hserved hrequest]
    exact (hreflects i).serve_of_failure (Prod.mk.inj (Option.some.inj h)).2
  · rw [getElem?_run h, answer]
    cases held? enabled ((run generator enabled requests).1.take i) schema.name with
    | some kept => exact ⟨kept.2, rfl⟩
    | none =>
        obtain ⟨query, hquery⟩ := Generator.exists_query haggregate generator
        rw [hquery]
        exact ⟨_, rfl⟩
  · subst henabled
    rw [← countP_run generator false, run_take]
    exact (hreflects n).of_disabled
  · subst henabled
    rw [getElem?_run h, answer, held?_disabled, (hreflects i).misses_eq]

end QueryCache

end FlatAggregate
