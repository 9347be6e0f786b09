import FlatAggregate.Proofs.Alias.Spelling
import Mathlib.Data.List.Infix

/-!
# Texts that can be read back

A value is legible if it can be read back from its text whatever text follows, as long as that ends
it (`Text.Legible`). What ends a text opens with one of a few marks and with none of a few keywords
(`Text.Stops`), so a text that is put together from legible ones with fixed words between them is
legible when these words end the parts before them, which is decided by the words alone.

A word without marks is legible up to the next mark, and names are words that do not look like
numbers. Parts with a separator between them, chains of parts that each begin with a word, and parts
that may be missing are legible under conditions on these words.
-/

namespace FlatAggregate.Text

variable {α : Type} {marks marks' : List Char} {keywords keywords' : List String}
  {rest : List Char}

def wordMarks : List Char := [' ', ',', '.', '(', ')']

def Unmarked (word : String) : Prop := ∀ letter ∈ word.toList, letter ∉ wordMarks

/-- A name is a word that does not look like a number. -/
structure IsName (name : String) : Prop where
  unmarked : Unmarked name
  head : ∃ letter ∈ name.toList.head?, ¬ letter.isDigit ∧ letter ≠ '-'

/-- Whether a word is an identifier: letters, digits and underscores, with no digit in front. -/
def isIdentifier (word : String) : Bool :=
  word.toList.head?.any (!·.isDigit) &&
    word.toList.all fun letter => letter.isAlphanum || letter == '_'

theorem isName_of_isIdentifier {word : String} (h : isIdentifier word) : IsName word := by
  rw [isIdentifier, Bool.and_eq_true, List.all_eq_true] at h
  obtain ⟨hhead, hletters⟩ := h
  have happart : ∀ letter ∈ word.toList, letter ∉ '-' :: wordMarks := by
    intro letter hletter hmark
    have hother := hletters letter hletter
    simp only [wordMarks, List.mem_cons, List.not_mem_nil, or_false] at hmark
    rcases hmark with rfl | rfl | rfl | rfl | rfl | rfl <;> exact absurd hother (by decide)
  cases hword : word.toList.head? with
  | none => simp [hword] at hhead
  | some first =>
      have hmem : first ∈ word.toList := List.mem_of_mem_head? hword
      refine ⟨fun letter hletter hmark => happart letter hletter (.tail _ hmark), first, hword, ?_,
        fun hminus => happart first hmem (hminus ▸ List.mem_cons_self)⟩
      simpa [hword] using hhead

/-- What may follow a text: nothing, or what opens with one of the marks and with none of the
keywords. -/
structure Stops (marks : List Char) (keywords : List String) (rest : List Char) : Prop where
  mark : ∀ letter ∈ rest.head?, letter ∈ marks
  keyword : ∀ keyword ∈ keywords, ¬ keyword.toList <+: rest

def opens (marks : List Char) (keywords : List String) (word : String) : Bool :=
  word.toList.head?.any (· ∈ marks) && keywords.all fun keyword =>
    !keyword.toList.isPrefixOf word.toList && !word.toList.isPrefixOf keyword.toList

theorem stops_of_opens {word : String} (h : opens marks keywords word) (text : List Char) :
    Stops marks keywords (word.toList ++ text) := by
  rw [opens, Bool.and_eq_true, List.all_eq_true] at h
  obtain ⟨hmark, hkeywords⟩ := h
  constructor
  · intro letter hletter
    cases hword : word.toList with
    | nil => simp [hword] at hmark
    | cons first letters =>
        rw [hword] at hmark hletter
        obtain rfl := Option.some.inj hletter
        simpa using hmark
  · intro keyword hkeyword hprefix
    have happart := hkeywords keyword hkeyword
    rw [Bool.and_eq_true, Bool.not_eq_true', Bool.not_eq_true', ← Bool.not_eq_true,
      ← Bool.not_eq_true, List.isPrefixOf_iff_prefix, List.isPrefixOf_iff_prefix] at happart
    rcases List.prefix_or_prefix_of_prefix hprefix (List.prefix_append _ _) with hshorter | hlonger
    · exact happart.1 hshorter
    · exact happart.2 hlonger

theorem stops_nil (h : "" ∉ keywords) : Stops marks keywords [] := by
  refine ⟨nofun, fun keyword hkeyword hprefix => h ?_⟩
  have hempty : keyword = "" := String.toList_eq_nil_iff.mp (List.prefix_nil.mp hprefix)
  exact hempty ▸ hkeyword

theorem Stops.tail {word : String} (h : Stops marks (word :: keywords) rest) :
    Stops marks keywords rest :=
  ⟨h.mark, fun keyword hkeyword => h.keyword keyword (.tail _ hkeyword)⟩

/-- A text that opens with one of the marks does not begin with a word that opens otherwise. -/
theorem Stops.of (h : Stops marks keywords rest) (hmarks : marks ⊆ marks')
    (hkeywords : ∀ keyword ∈ keywords',
      keyword ∈ keywords ∨ keyword.toList.head?.any (· ∉ marks)) : Stops marks' keywords' rest := by
  refine ⟨fun letter hletter => hmarks (h.mark letter hletter), fun keyword hkeyword hprefix => ?_⟩
  rcases hkeywords keyword hkeyword with hmem | hhead
  · exact h.keyword keyword hmem hprefix
  · obtain ⟨text, rfl⟩ := hprefix
    cases hword : keyword.toList with
    | nil => simp [hword] at hhead
    | cons first letters =>
        rw [hword] at hhead
        have hmem : first ∈ marks := h.mark first (by simp [hword])
        simp [hmem] at hhead

/-- A value can be read back from its text in front of any text that ends it, if other values are
valid. -/
def Legible (write : α → List Char) (Valid : α → Prop) (Ends : List Char → Prop) (a : α) : Prop :=
  ∀ b, Valid b → ∀ rest rest', Ends rest → Ends rest' →
    write a ++ rest = write b ++ rest' → a = b ∧ rest = rest'

theorem Legible.mono {write : α → List Char} {Valid : α → Prop} {Ends Ends' : List Char → Prop}
    {a : α} (h : Legible write Valid Ends a) (hends : ∀ rest, Ends' rest → Ends rest) :
    Legible write Valid Ends' a := fun b hb rest rest' hrest hrest' =>
  h b hb rest rest' (hends rest hrest) (hends rest' hrest')

theorem Unmarked.legible {word : String} (h : Unmarked word) :
    Legible String.toList Unmarked (Stops wordMarks []) word := by
  intro word' h' rest rest' hrest hrest' heq
  obtain ⟨hword, hrests⟩ := Alias.append_inj_of_head
    (p := fun letter => letter ∉ wordMarks) (by simpa [Unmarked] using h)
    (by simpa [Unmarked] using h') (by simpa using hrest.mark) (by simpa using hrest'.mark) heq
  exact ⟨String.toList_inj.mp hword, hrests⟩

theorem IsName.legible {name : String} (h : IsName name) :
    Legible String.toList IsName (Stops wordMarks []) name :=
  fun name' h' => h.unmarked.legible name' h'.unmarked

theorem IsName.append_ne {name : String} (h : IsName name) {mark : Char} (hmark : mark ∈ wordMarks)
    (rest text : List Char) : name.toList ++ rest ≠ mark :: text := by
  intro heq
  obtain ⟨letter, hhead, -⟩ := h.head
  obtain ⟨letters, hname⟩ := List.head?_eq_some_iff.mp hhead
  rw [hname] at heq
  exact h.unmarked letter (hname ▸ List.mem_cons_self) ((List.cons.inj heq).1 ▸ hmark)

theorem IsName.toList_ne_nil {name : String} (h : IsName name) : name.toList ≠ [] := by
  obtain ⟨letter, hhead, -⟩ := h.head
  exact List.ne_nil_of_mem (List.mem_of_mem_head? hhead)

/-- A part that may be missing is legible if the word that it begins with does not follow. -/
theorem Legible.optional {write body : α → List Char} {Valid : α → Prop} {word : String}
    {missing a : α} (hmissing : write missing = [])
    (hwrite : ∀ b, b ≠ missing → write b = word.toList ++ body b)
    (h : a ≠ missing → Legible body (fun b => b ≠ missing ∧ Valid b) (Stops marks keywords) a) :
    Legible write Valid (Stops marks (word :: keywords)) a := by
  intro b hb rest rest' hrest hrest' heq
  by_cases ha : a = missing
  · rw [ha, hmissing, List.nil_append] at heq
    by_cases hother : b = missing
    · rw [hother, hmissing, List.nil_append] at heq
      exact ⟨ha.trans hother.symm, heq⟩
    · rw [hwrite b hother, List.append_assoc] at heq
      exact absurd ⟨_, heq.symm⟩ (hrest.keyword word List.mem_cons_self)
  · rw [hwrite a ha, List.append_assoc] at heq
    by_cases hother : b = missing
    · rw [hother, hmissing, List.nil_append] at heq
      exact absurd ⟨_, heq⟩ (hrest'.keyword word List.mem_cons_self)
    · rw [hwrite b hother, List.append_assoc] at heq
      exact h ha b ⟨hother, hb⟩ rest rest' hrest.tail hrest'.tail
        (List.append_cancel_left heq)

section Lists

variable {write : α → List Char} {Valid : α → Prop} {word : String}

def chain (word : String) (write : α → List Char) (items : List α) : List Char :=
  items.flatMap fun a => word.toList ++ write a

theorem chain_cons_append (a : α) (items : List α) (rest : List Char) :
    chain word write (a :: items) ++ rest =
      word.toList ++ (write a ++ (chain word write items ++ rest)) := by
  rw [chain, List.flatMap_cons, List.append_assoc, List.append_assoc]
  rfl

theorem stops_chain (hword : opens marks keywords word) (items : List α)
    (hrest : Stops marks (word :: keywords) rest) :
    Stops marks keywords (chain word write items ++ rest) := by
  cases items with
  | nil => exact hrest.tail
  | cons a items =>
      rw [chain_cons_append]
      exact stops_of_opens hword _

/-- A chain is legible if its word ends the part before it, up to where the word does not
follow. -/
theorem Legible.chain {items : List α}
    (h : ∀ a ∈ items, Legible write Valid (Stops marks keywords) a)
    (hword : opens marks keywords word) :
    Legible (chain word write) (∀ b ∈ ·, Valid b) (Stops marks (word :: keywords)) items := by
  induction items with
  | nil =>
      intro others _ rest rest' hrest _ heq
      cases others with
      | nil => exact ⟨rfl, heq⟩
      | cons b others =>
          rw [chain_cons_append] at heq
          exact absurd ⟨_, heq.symm⟩ (hrest.keyword word List.mem_cons_self)
  | cons a items ih =>
      intro others hvalid rest rest' hrest hrest' heq
      rw [chain_cons_append] at heq
      cases others with
      | nil => exact absurd ⟨_, heq⟩ (hrest'.keyword word List.mem_cons_self)
      | cons b others =>
          rw [chain_cons_append] at heq
          rw [List.forall_mem_cons] at h hvalid
          obtain ⟨rfl, hmore⟩ := h.1 b hvalid.1 _ _ (stops_chain hword items hrest)
            (stops_chain hword others hrest') (List.append_cancel_left heq)
          obtain ⟨rfl, hrests⟩ := ih h.2 others hvalid.2 rest rest' hrest hrest' hmore
          exact ⟨rfl, hrests⟩

end Lists

section Separated

variable {write : α → String} {Valid : α → Prop} {separator : String}

theorem toList_intercalate_cons (separator : String) (write : α → String) (a : α) (items : List α) :
    (separator.intercalate ((a :: items).map write)).toList =
      (write a).toList ++ chain separator (fun b => (write b).toList) items := by
  rw [String.toList_intercalate]
  induction items generalizing a with
  | nil => simp [List.intercalate, chain]
  | cons b items ih =>
      simp only [List.map_cons, List.intercalate_cons_cons] at ih ⊢
      rw [ih, chain, chain, List.flatMap_cons, List.append_assoc, List.append_assoc]

/-- Parts with a separator between them are legible if it ends the part before it, up to where it
does not follow. -/
theorem Legible.intercalate {items : List α} (hne : items ≠ [])
    (h : ∀ a ∈ items, Legible (fun a => (write a).toList) Valid (Stops marks keywords) a)
    (hseparator : opens marks keywords separator) :
    Legible (fun items => (separator.intercalate (items.map write)).toList)
      (fun items => items ≠ [] ∧ ∀ b ∈ items, Valid b) (Stops marks (separator :: keywords))
      items := by
  rintro others ⟨hne', hvalid⟩ rest rest' hrest hrest' heq
  obtain ⟨a, items, rfl⟩ := List.exists_cons_of_ne_nil hne
  obtain ⟨b, others, rfl⟩ := List.exists_cons_of_ne_nil hne'
  rw [List.forall_mem_cons] at h hvalid
  dsimp only at heq
  rw [toList_intercalate_cons, toList_intercalate_cons, List.append_assoc, List.append_assoc] at heq
  obtain ⟨rfl, hmore⟩ := h.1 b hvalid.1 _ _ (stops_chain hseparator items hrest)
    (stops_chain hseparator others hrest') heq
  obtain ⟨rfl, hrests⟩ := Legible.chain h.2 hseparator others hvalid.2 _ _ hrest hrest' hmore
  exact ⟨rfl, hrests⟩

end Separated

end FlatAggregate.Text
