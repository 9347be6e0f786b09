import FlatAggregate.Proofs.Plan.Assembled

/-!
# Calls on a draft

A draft is made by calls, each of which asks for a root or for a table below another. A call that is
refused leaves the draft as it was. So a draft is empty for as long as no root is accepted, and from
then on it is assembled from that root and from the tables that were accepted after it
(`run_eq_empty_or_assembled`, `exists_assemble_foldl_call`).

An assembled draft has a plan. Only the root is asked for an identity of its own: every table below
it receives at least one foreign key, which identifies its rows if nothing else does.

`Call` is what is asked, `answer` the draft that is made or the error, and `call` the draft after
it. `run` makes calls in turn, from the empty draft on, so it covers every order of calls and every
refusal in between.
-/

namespace FlatAggregate.Draft

variable {T C : Type} [DecidableEq T] [ToString T]

inductive Call (T C : Type) where
  | root (spec : TableSpec T C)
  | child (addition : Addition T C)

def answer (draft : Draft T C) : Call T C → Except JoinTreeError (Draft T C)
  | .root spec => draft.addRoot spec
  | .child addition => draft.add addition

/-- The draft after a call. One that is refused leaves it as it was. -/
def call (draft : Draft T C) (request : Call T C) : Draft T C :=
  match draft.answer request with
  | .ok next => next
  | .error _ => draft

/-- The draft after some calls, accepted or refused. -/
def run (calls : List (Call T C)) : Draft T C :=
  calls.foldl call empty

variable {draft : Draft T C} {root : TableSpec T C} {additions : List (Addition T C)}

theorem call_of_ok {next : Draft T C} {request : Call T C} (h : draft.answer request = .ok next) :
    draft.call request = next := by
  rw [call, h]

theorem call_of_error {error : JoinTreeError} {request : Call T C}
    (h : draft.answer request = .error error) : draft.call request = draft := by
  rw [call, h]

theorem run_append (first second : List (Call T C)) :
    run (first ++ second) = second.foldl call (run first) :=
  List.foldl_append

theorem assemble_nil (root : TableSpec T C) : assemble root [] = empty.addRoot root := by
  simp only [assemble, List.foldlM_nil, bind_pure]

/-- To assemble a draft is to call for its root and then for the tables below. -/
theorem foldlM_answer (root : TableSpec T C) (additions : List (Addition T C)) :
    (.root root :: additions.map .child).foldlM answer empty = assemble root additions := by
  rw [List.foldlM_cons, assemble]
  simp only [List.foldlM_map]
  rfl

theorem answer_root_of_assemble (h : assemble root additions = .ok draft) (spec : TableSpec T C) :
    ∃ error, draft.answer (.root spec) = .error error := by
  obtain ⟨tree, hholds, -⟩ := assemble_holds h
  exact ⟨_, addRoot_of_holds hholds spec⟩

theorem exists_assemble_call (h : assemble root additions = .ok draft) (request : Call T C) :
    ∃ more, assemble root (additions ++ more) = .ok (draft.call request) := by
  cases hanswer : draft.answer request with
  | error error =>
      refine ⟨[], ?_⟩
      rw [call_of_error hanswer, List.append_nil, h]
  | ok next =>
      cases request with
      | root spec =>
          obtain ⟨error, hrefused⟩ := answer_root_of_assemble h spec
          rw [hrefused] at hanswer
          contradiction
      | child addition =>
          refine ⟨[addition], ?_⟩
          rw [call_of_ok hanswer, assemble_append_singleton_eq, h]
          exact hanswer

theorem exists_assemble_foldl_call (h : assemble root additions = .ok draft)
    (calls : List (Call T C)) :
    ∃ more, assemble root (additions ++ more) = .ok (calls.foldl call draft) := by
  induction calls generalizing additions draft with
  | nil => exact ⟨[], by rw [List.append_nil, h, List.foldl_nil]⟩
  | cons request rest ih =>
      obtain ⟨added, hadded⟩ := exists_assemble_call h request
      obtain ⟨more, hmore⟩ := ih hadded
      exact ⟨added ++ more, by rw [← List.append_assoc, hmore, List.foldl_cons]⟩

theorem call_empty (request : Call T C) :
    (empty : Draft T C).call request = empty ∨
      ∃ root, request = .root root ∧ assemble root [] = .ok ((empty : Draft T C).call request) := by
  cases request with
  | child addition => exact .inl rfl
  | root spec =>
      obtain ⟨start, hstart, -⟩ := empty_addRoot (T := T) (C := C) spec
      have hanswer : (empty : Draft T C).answer (.root spec) = .ok start := hstart
      exact .inr ⟨spec, rfl, by rw [assemble_nil, call_of_ok hanswer, hstart]⟩

theorem run_eq_empty_or_assembled (calls : List (Call T C)) :
    run calls = empty ∨ ∃ root additions, assemble root additions = .ok (run calls) := by
  induction calls using List.reverseRecOn with
  | nil => exact .inl rfl
  | append_singleton calls request ih =>
      rw [run_append, List.foldl_cons, List.foldl_nil]
      rcases ih with hempty | ⟨root, additions, h⟩
      · rw [hempty]
        exact (call_empty request).imp_right fun ⟨root, _, h⟩ => ⟨root, [], h⟩
      · obtain ⟨more, hmore⟩ := exists_assemble_call h request
        exact .inr ⟨root, _, hmore⟩

theorem exists_additions_of_foldlM {start : Draft T C}
    (hstart : assemble root additions = .ok start) {calls : List (Call T C)}
    (h : calls.foldlM answer start = .ok draft) :
    ∃ more, calls = more.map .child ∧ assemble root (additions ++ more) = .ok draft := by
  induction calls generalizing additions start with
  | nil =>
      obtain rfl : start = draft := Except.ok.inj h
      exact ⟨[], rfl, by rw [List.append_nil, hstart]⟩
  | cons request rest ih =>
      rw [List.foldlM_cons] at h
      obtain ⟨next, hnext, hrest⟩ := exists_of_bind_eq_ok h
      cases request with
      | root spec =>
          obtain ⟨error, hrefused⟩ := answer_root_of_assemble hstart spec
          rw [hrefused] at hnext
          contradiction
      | child addition =>
          have hadded : assemble root (additions ++ [addition]) = .ok next := by
            rw [assemble_append_singleton_eq, hstart]
            exact hnext
          obtain ⟨more, rfl, hmore⟩ := ih hadded hrest
          exact ⟨addition :: more, rfl, by rw [← hmore, List.append_assoc]; rfl⟩

/-- Calls that are all accepted, with a root among them, ask for that root first and then for tables
below it. -/
theorem exists_additions_of_calls {calls : List (Call T C)}
    (h : calls.foldlM answer empty = .ok draft) (hroot : .root root ∈ calls) :
    ∃ additions, calls = .root root :: additions.map .child ∧
      assemble root additions = .ok draft := by
  cases calls with
  | nil => simp at hroot
  | cons first rest =>
      rw [List.foldlM_cons] at h
      obtain ⟨start, hstart, hrest⟩ := exists_of_bind_eq_ok h
      cases first with
      | child addition => contradiction
      | root spec =>
          obtain ⟨additions, rfl, hdraft⟩ := exists_additions_of_foldlM
            ((assemble_nil spec).trans hstart) hrest
          obtain rfl : root = spec := by simpa using hroot
          exact ⟨additions, rfl, hdraft⟩

/-- A root that is accepted is the first table of the draft, and the calls after it only add
tables below. -/
theorem exists_assemble_run {before : List (Call T C)} {start : Draft T C}
    (h : (run before).answer (.root root) = .ok start) (after : List (Call T C)) :
    ∃ additions, assemble root additions = .ok (run (before ++ .root root :: after)) := by
  have hstart : assemble root [] = .ok start := by
    rcases run_eq_empty_or_assembled before with hempty | ⟨first, additions, hfirst⟩
    · rw [assemble_nil, ← h, hempty]
      rfl
    · obtain ⟨error, hrefused⟩ := answer_root_of_assemble hfirst root
      rw [hrefused] at h
      contradiction
  rw [run_append, List.foldl_cons, call_of_ok h]
  exact exists_assemble_foldl_call hstart after

/-- What a join has on its parent side is identified by at least one column. -/
theorem idOf_parent_ne_nil {plan : Plan T C} (h : assemble root additions = .ok draft)
    (hplan : draft.plan = .ok plan) {select : SelectId} {join : PlanJoin}
    (hselect : plan.selects[select]? = some (.join join)) : plan.idOf join.parent ≠ [] := by
  obtain ⟨top, hlaid, -⟩ := laid_of_assemble h hplan
  obtain ⟨_, _, _, _, _, _, _, _, _, parent, _, _, -, hparent, hid, -, hjoin, -⟩ :=
    hlaid.exists_hasJoin_of_select hselect
  rw [hjoin.parent_eq, hparent.offers.2.1]
  exact hid

/-- Once a root is accepted there is a plan, whatever was refused before and whatever is accepted or
refused afterwards. No join is refused in it for lack of identity, for its parent side always has
id columns. -/
theorem exists_plan_of_run {before : List (Call T C)} {start : Draft T C}
    (h : (run before).answer (.root root) = .ok start) (after : List (Call T C)) :
    ∃ plan : Plan T C, (run (before ++ .root root :: after)).plan = .ok plan ∧
      ∀ (select : SelectId) (join : PlanJoin), plan.selects[select]? = some (.join join) →
        plan.idOf join.parent ≠ [] := by
  obtain ⟨additions, hassemble⟩ := exists_assemble_run h after
  obtain ⟨-, plan, hplan⟩ := plan_of_assemble hassemble
  exact ⟨plan, hplan, fun select join hselect => idOf_parent_ne_nil hassemble hplan hselect⟩

/-- A child before there is a root, tables without id and key down to the third level, a second
root, and a child of an unknown table. -/
theorem exists_plan_of_run_refusals :
    let before : List (Call Nat Nat) := [.child ⟨0, .multiple, { table := 1 }⟩]
    let root : TableSpec Nat Nat := { table := 0, id := some 10 }
    let after : List (Call Nat Nat) :=
      [.child ⟨0, .multiple, { table := 1 }⟩, .child ⟨1, .single, { table := 2, columns := [20] }⟩,
        .root { table := 7 }, .child ⟨2, .multiple, { table := 3 }⟩,
        .child ⟨9, .multiple, { table := 4 }⟩, .child ⟨1, .multiple, { table := 4 }⟩]
    ∃ start, (run before).answer (.root root) = .ok start ∧
      ∃ plan : Plan Nat Nat, (run (before ++ .root root :: after)).plan = .ok plan ∧
        ∀ (select : SelectId) (join : PlanJoin), plan.selects[select]? = some (.join join) →
          plan.idOf join.parent ≠ [] := by
  intro before root after
  obtain ⟨start, h⟩ : ∃ start, (run before).answer (.root root) = .ok start := ⟨_, rfl⟩
  exact ⟨start, h, exists_plan_of_run h after⟩

end FlatAggregate.Draft
