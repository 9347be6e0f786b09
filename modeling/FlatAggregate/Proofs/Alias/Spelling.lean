import FlatAggregate.Alias.Text
import Mathlib.Data.List.Basic
import Mathlib.Data.List.TakeDrop

/-!
# The spelling of aliases

An alias text opens with the letters of its kind, goes on with the digits of its number and may end
in an underscore and a hint. The letters end where the first digit stands and the digits where the
underscore does, so all three parts can be read back (`Alias.Parts.ofText?_text`).

`Alias.Parts` are what an alias tells, its kind, its number and its hint; `Parts.ofText?` reads them
off without knowing the settings that spelled it.
-/

namespace FlatAggregate.Alias

/-- A list is cut where a part with a property ends and a rest begins without it. -/
theorem span_append_of_head {α : Type} {p : α → Bool} {first rest : List α}
    (hfirst : ∀ a ∈ first, p a) (hrest : ∀ a ∈ rest.head?, ¬p a) :
    (first ++ rest).span p = (first, rest) := by
  rw [List.span_eq_takeWhile_dropWhile, List.takeWhile_append_of_pos hfirst,
    List.dropWhile_append_of_pos hfirst]
  cases rest with
  | nil => simp
  | cons a rest =>
      have hhead : ¬p a := hrest a rfl
      rw [List.takeWhile_cons_of_neg hhead, List.dropWhile_cons_of_neg hhead, List.append_nil]

/-- A list is split in one way only into a part with a property and a rest that does not begin with
it. -/
theorem append_inj_of_head {α : Type} {p : α → Bool} {first first' rest rest' : List α}
    (hfirst : ∀ a ∈ first, p a) (hfirst' : ∀ a ∈ first', p a)
    (hrest : ∀ a ∈ rest.head?, ¬p a) (hrest' : ∀ a ∈ rest'.head?, ¬p a)
    (h : first ++ rest = first' ++ rest') : first = first' ∧ rest = rest' := by
  have hspan := span_append_of_head hfirst hrest
  rw [h, span_append_of_head hfirst' hrest'] at hspan
  obtain ⟨rfl, rfl⟩ := Prod.mk.inj hspan
  exact ⟨rfl, rfl⟩

theorem Kind.not_isDigit_letters (kind : Kind) : ∀ c ∈ kind.letters.toList, !c.isDigit := by
  have hall : kind.letters.toList.all (!·.isDigit) := by cases kind <;> decide
  exact List.all_eq_true.mp hall

theorem isDigit_padded (width n : Nat) : ∀ c ∈ (padded width n).toList, c.isDigit := by
  intro c hc
  rw [padded, String.toList_ofList, List.mem_append] at hc
  rcases hc with hc | hc
  · rw [List.eq_of_mem_replicate hc]
    rfl
  · exact Nat.isDigit_of_mem_toDigits (by decide) (by decide) hc

theorem padded_ne_nil (width n : Nat) : (padded width n).toList ≠ [] := by
  rw [padded, String.toList_ofList]
  exact List.append_ne_nil_of_right_ne_nil _ Nat.toDigits_ne_nil

theorem ofDigitChars_padded (width n : Nat) :
    Nat.ofDigitChars 10 (padded width n).toList 0 = n := by
  rw [padded, String.toList_ofList, Nat.ofDigitChars_append, Nat.ofDigitChars_replicate_zero,
    Nat.mul_zero, Nat.ofDigitChars_toDigits (by decide) (by decide)]

def hintTail (hint : String) : List Char :=
  if hint.isEmpty then [] else '_' :: hint.toList

theorem toList_text (letters : String) (counter width : Nat) (hint : String) :
    (text letters counter width hint).toList =
      letters.toList ++ ((padded width counter).toList ++ hintTail hint) := by
  rw [text, hintTail]
  split <;> simp

theorem tail_hintTail (hint : String) : (hintTail hint).tail = hint.toList := by
  rw [hintTail]
  split
  · next h => rw [String.isEmpty_iff.mp h]; rfl
  · rfl

theorem hintTail_cases (hint : String) :
    hintTail hint = [] ∨ ∃ letters, hintTail hint = '_' :: letters := by
  rw [hintTail]
  split
  · exact .inl rfl
  · exact .inr ⟨_, rfl⟩

structure Parts where
  kind : Kind
  number : Nat
  hint : String
  deriving DecidableEq, Repr

def Kind.ofLetters? (letters : List Char) : Option Kind :=
  [table, column, foreignKey, view, join, rowNumber, greatest, maxOver].find?
    (·.letters.toList = letters)

theorem Kind.ofLetters?_letters (kind : Kind) : ofLetters? kind.letters.toList = some kind := by
  cases kind <;> decide

/-- Reads an alias: the letters up to the first digit, the digits, and the hint behind the one
character that ends them. -/
def Parts.ofText? (text : String) : Option Parts :=
  let (letters, rest) := text.toList.span (!·.isDigit)
  let (digits, tail) := rest.span Char.isDigit
  (Kind.ofLetters? letters).map
    ({ kind := ·, number := Nat.ofDigitChars 10 digits 0, hint := String.ofList tail.tail })

/-- The letters of a kind, some digits and what may stand behind an underscore are told apart. -/
theorem Parts.ofText?_of_toList_eq {text : String} {kind : Kind} {digits tail : List Char}
    (hdigits : ∀ c ∈ digits, c.isDigit) (hne : digits ≠ [])
    (htail : tail = [] ∨ ∃ letters, tail = '_' :: letters)
    (h : text.toList = kind.letters.toList ++ (digits ++ tail)) :
    ofText? text = some ⟨kind, Nat.ofDigitChars 10 digits 0, String.ofList tail.tail⟩ := by
  have hdigit : ∀ c ∈ (digits ++ tail).head?, ¬!c.isDigit := by
    intro c hc
    rw [List.head?_append_of_ne_nil _ hne] at hc
    simp [hdigits c (List.mem_of_mem_head? hc)]
  have hunderscore : ∀ c ∈ tail.head?, ¬c.isDigit := by
    intro c hc
    rcases htail with rfl | ⟨letters, rfl⟩
    · cases hc
    · rw [← Option.some.inj hc]
      decide
  rw [ofText?, h, span_append_of_head kind.not_isDigit_letters hdigit]
  dsimp only
  rw [span_append_of_head hdigits hunderscore, Kind.ofLetters?_letters]
  rfl

/-- The kind, the number and the hint of an alias can be read back. -/
theorem Parts.ofText?_text (kind : Kind) (n width : Nat) (hint : String) :
    ofText? (text kind.letters n width hint) = some ⟨kind, n, hint⟩ := by
  rw [ofText?_of_toList_eq (isDigit_padded width n) (padded_ne_nil width n)
    (hintTail_cases hint) (toList_text ..), ofDigitChars_padded, tail_hintTail,
    String.ofList_toList]

theorem kind_and_number_of_text {kind kind' : Kind} {n n' width : Nat} {hint hint' : String}
    (h : text kind.letters n width hint = text kind'.letters n' width hint') :
    kind = kind' ∧ n = n' := by
  have hparts := congrArg Parts.ofText? h
  rw [Parts.ofText?_text, Parts.ofText?_text] at hparts
  obtain ⟨hkind, hnumber, -⟩ := Parts.mk.inj (Option.some.inj hparts)
  exact ⟨hkind, hnumber⟩

end FlatAggregate.Alias
