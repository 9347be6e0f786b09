import FlatAggregate.Generator.Basic
import FlatAggregate.Proofs.Alias.Numbering
import FlatAggregate.Proofs.Text.Legibility

/-!
# Aliases that can be read back

With settings in range, an alias is an identifier of capital letters, digits and at most one
underscore, however odd the name behind it (`Alias.Spelled`): the letters of its kind, its number
with zeros in front, and the first ASCII letters of the name if hints are on and there are any. All
that is said of its characters, its length and its parts follows from this order of the parts alone
(`Alias.spelled_of_toList_eq`).
-/

namespace FlatAggregate

/-- What settings put behind the digits of an alias: if hints are on and the name has an ASCII
letter, an underscore and the first of these letters in upper case. -/
def Settings.suffix (settings : Settings) (name : String) : List Char :=
  if settings.hints && name.toList.any Char.isAlpha then
    '_' :: ((name.toList.filter Char.isAlpha).take settings.maxHintLength).map Char.toUpper
  else []

namespace Alias

variable {settings : Settings} {kind : Kind} {number : Nat} {name text : String}
  {digits : List Char}

/-- The decimal digits of a number, behind as many zeros as a width asks for. -/
structure IsPadded (width number : Nat) (digits : List Char) : Prop where
  isDigit : ∀ c ∈ digits, c.isDigit
  value_eq : Nat.ofDigitChars 10 digits 0 = number
  length_eq : digits.length = max width (Nat.toDigits 10 number).length

/-- A text spells the alias with a number of its kind, with a hint of `name` as the settings have
it. -/
structure Spelled (settings : Settings) (kind : Kind) (number : Nat) (name text : String) :
    Prop where
  /-- The parts of the text. -/
  toList_eq : ∃ digits, IsPadded settings.counterWidth number digits ∧
    text.toList = kind.letters.toList ++ (digits ++ settings.suffix name)
  isIdentifier : Text.isIdentifier text
  characters : ∀ c ∈ text.toList, c.isUpper ∨ c.isDigit ∨ c = '_'
  count_underscore_le : text.toList.count '_' ≤ 1
  length_le : text.length ≤ kind.letters.length +
    max settings.counterWidth (Nat.toDigits 10 number).length + 1 + settings.maxHintLength
  /-- The text tells its parts to a reader that knows nothing of the settings. -/
  ofText?_eq : Parts.ofText? text =
    some ⟨kind, number, String.ofList (settings.suffix name).tail⟩

section Parts

theorem isPadded_padded (width number : Nat) :
    IsPadded width number (padded width number).toList where
  isDigit := isDigit_padded width number
  value_eq := ofDigitChars_padded width number
  length_eq := by
    rw [padded, String.toList_ofList, List.length_append, List.length_replicate]
    omega

theorem IsPadded.ne_nil {width : Nat} (h : IsPadded width number digits) : digits ≠ [] := by
  have hpos : 0 < (Nat.toDigits 10 number).length := List.length_pos_iff.mpr Nat.toDigits_ne_nil
  have hlength := h.length_eq
  exact List.length_pos_iff.mp (by omega)

theorem Kind.isUpper_letters (kind : Kind) : ∀ c ∈ kind.letters.toList, c.isUpper := by
  have hall : kind.letters.toList.all Char.isUpper := by cases kind <;> decide
  exact List.all_eq_true.mp hall

theorem Kind.letters_ne_nil (kind : Kind) : kind.letters.toList ≠ [] := by
  cases kind <;> decide

/-- A suffix is either missing or an underscore with some capital letters behind it. -/
theorem suffix_cases (settings : Settings) (name : String) :
    settings.suffix name = [] ∨ ∃ hint, settings.suffix name = '_' :: hint ∧
      hint.length ≤ settings.maxHintLength ∧ ∀ c ∈ hint, c.isUpper := by
  rw [Settings.suffix]
  split
  · refine .inr ⟨_, rfl, ?_, fun c hc => ?_⟩
    · rw [List.length_map]
      exact List.length_take_le _ _
    · obtain ⟨letter, hletter, rfl⟩ := List.mem_map.mp hc
      rw [Char.isUpper_toUpper_eq_isAlpha]
      exact (List.mem_filter.mp (List.mem_of_mem_take hletter)).2
  · exact .inl rfl

theorem length_suffix_le (settings : Settings) (name : String) :
    (settings.suffix name).length ≤ 1 + settings.maxHintLength := by
  rcases suffix_cases settings name with h | ⟨hint, h, hlength, -⟩ <;> rw [h]
  · exact Nat.zero_le _
  · rw [List.length_cons, Nat.add_comm]
    exact Nat.add_le_add_left hlength 1

theorem characters_suffix (settings : Settings) (name : String) :
    ∀ c ∈ settings.suffix name, c.isUpper ∨ c = '_' := by
  intro c hc
  rcases suffix_cases settings name with h | ⟨hint, h, -, hupper⟩ <;> rw [h] at hc
  · cases hc
  · rcases List.mem_cons.mp hc with rfl | hc
    · exact .inr rfl
    · exact .inl (hupper c hc)

theorem count_underscore_suffix_le (settings : Settings) (name : String) :
    (settings.suffix name).count '_' ≤ 1 := by
  rcases suffix_cases settings name with h | ⟨hint, h, -, hupper⟩ <;> rw [h]
  · exact Nat.zero_le _
  · have hnone : '_' ∉ hint := fun hmem => absurd (hupper _ hmem) (by decide)
    rw [List.count_cons_self, List.count_eq_zero_of_not_mem hnone]

end Parts

/-- Capital letters, digits and underscores behind the letters of a kind make an identifier. -/
theorem isIdentifier_of_characters {rest : List Char}
    (h : text.toList = kind.letters.toList ++ rest)
    (hcharacters : ∀ c ∈ text.toList, c.isUpper ∨ c.isDigit ∨ c = '_') :
    Text.isIdentifier text := by
  rw [Text.isIdentifier, Bool.and_eq_true, List.all_eq_true]
  constructor
  · obtain ⟨first, letters, hletters⟩ := List.exists_cons_of_ne_nil kind.letters_ne_nil
    have hfirst : !first.isDigit := kind.not_isDigit_letters first (hletters ▸ List.mem_cons_self)
    rw [h, hletters]
    exact hfirst
  · intro c hc
    rcases hcharacters c hc with hupper | hdigit | rfl
    · simp [Char.isAlphanum, Char.isAlpha, hupper]
    · simp [Char.isAlphanum, hdigit]
    · decide

theorem spelled_of_toList_eq (hdigits : IsPadded settings.counterWidth number digits)
    (h : text.toList = kind.letters.toList ++ (digits ++ settings.suffix name)) :
    Spelled settings kind number name text := by
  have hcharacters : ∀ c ∈ text.toList, c.isUpper ∨ c.isDigit ∨ c = '_' := by
    intro c hc
    rw [h, List.mem_append, List.mem_append] at hc
    rcases hc with hc | hc | hc
    · exact .inl (kind.isUpper_letters c hc)
    · exact .inr (.inl (hdigits.isDigit c hc))
    · exact (characters_suffix settings name c hc).imp_right .inr
  constructor
  case toList_eq => exact ⟨digits, hdigits, h⟩
  case isIdentifier => exact isIdentifier_of_characters h hcharacters
  case characters => exact hcharacters
  case count_underscore_le =>
    have hletters : '_' ∉ kind.letters.toList := fun hmem =>
      absurd (kind.isUpper_letters _ hmem) (by decide)
    have hnone : '_' ∉ digits := fun hmem => absurd (hdigits.isDigit _ hmem) (by decide)
    rw [h, List.count_append, List.count_append, List.count_eq_zero_of_not_mem hletters,
      List.count_eq_zero_of_not_mem hnone, Nat.zero_add, Nat.zero_add]
    exact count_underscore_suffix_le settings name
  case length_le =>
    have hsuffix := length_suffix_le settings name
    rw [← String.length_toList, h, List.length_append, List.length_append, hdigits.length_eq,
      String.length_toList]
    omega
  case ofText?_eq =>
    have htail : settings.suffix name = [] ∨ ∃ hint, settings.suffix name = '_' :: hint :=
      (suffix_cases settings name).imp_right fun ⟨hint, hsuffix, _⟩ => ⟨hint, hsuffix⟩
    rw [Parts.ofText?_of_toList_eq hdigits.isDigit hdigits.ne_nil htail h, hdigits.value_eq]

/-- The hint is made of the first letters of the name: it does not matter whether the letters are
cut off before or after they are put in upper case. -/
theorem toList_hint_eq (name : String) (limit : Nat) :
    (hint name limit).toList =
      ((name.toList.filter Char.isAlpha).take limit).map Char.toUpper := by
  rw [hint_toList, List.map_take]

/-- There is a hint as soon as the name has a letter, if hints have room for one. -/
theorem isEmpty_hint {limit : Nat} (hlimit : 1 ≤ limit) (name : String) :
    (hint name limit).isEmpty = !name.toList.any Char.isAlpha := by
  rw [Bool.eq_iff_iff, String.isEmpty_iff, ← String.toList_eq_nil_iff, toList_hint_eq,
    List.map_eq_nil_iff, List.take_eq_nil_iff, List.filter_eq_nil_iff]
  simp [Nat.one_le_iff_ne_zero.mp hlimit]

end Alias

/-- What the settings put behind the digits is the hint of the name behind an underscore, if
hints have room for a letter. -/
theorem Settings.hintTail_eq_suffix {settings : Settings} (h : 1 ≤ settings.maxHintLength)
    (name : String) :
    Alias.hintTail (if settings.hints then Alias.hint name settings.maxHintLength else "") =
      settings.suffix name := by
  rw [suffix, Alias.hintTail]
  cases settings.hints with
  | false => rfl
  | true =>
      rw [if_pos rfl, Alias.isEmpty_hint h, Bool.true_and, Alias.toList_hint_eq]
      cases name.toList.any Char.isAlpha <;> rfl

/-- The alias texts of settings in range are spelled as the settings have it. -/
theorem Settings.Valid.spelled {settings : Settings} (h : settings.Valid) (kind : Alias.Kind)
    (number : Nat) (name : String) :
    Alias.Spelled settings kind number name (settings.aliasText kind number name) := by
  apply Alias.spelled_of_toList_eq (Alias.isPadded_padded settings.counterWidth number)
  rw [aliasText, Alias.toList_text, hintTail_eq_suffix h.1]

namespace Generator

theorem settings_of_checked {settings : Settings} {generator : Generator}
    (h : checked settings = .ok generator) : generator.settings = settings ∧ settings.Valid := by
  rw [checked] at h
  split at h
  · next hrange =>
      obtain rfl := Except.ok.inj h
      exact ⟨rfl, settings.outOfRange_eq_nil_iff.mp hrange⟩
  · cases h

/-- With settings that a generator accepts, the alias for any number and any name is an identifier
of capital letters, digits and at most one underscore, of bounded length, that consists of the
letters of its kind, the padded number and the hint that the settings allow, and tells all three.
A book of the generator gives such aliases, with the number that it has counted to. -/
theorem spelled_aliasText {T C : Type} {settings : Settings} {generator : Generator}
    (h : checked settings = .ok generator) :
    (∀ kind number name,
      Alias.Spelled settings kind number name (settings.aliasText kind number name)) ∧
    ∀ book : AliasBook T C, book.settings = generator.settings → ∀ kind name,
      Alias.Spelled settings kind ((book.issue kind name).2.counters.get kind) name
        (book.issue kind name).1 := by
  obtain ⟨hsettings, hvalid⟩ := settings_of_checked h
  refine ⟨hvalid.spelled, fun book hbook kind name => ?_⟩
  have hcount : (book.issue kind name).2.counters.get kind = book.counters.get kind + 1 := by
    rw [AliasBook.issue_eq, Alias.Counters.get_next, if_pos rfl]
  rw [hcount, AliasBook.issue_eq, hbook, hsettings]
  exact hvalid.spelled kind _ name

/-- A name with letters of other scripts, a digit and a blank, cut to four letters: a number longer
than its width, and one shorter than it. -/
theorem spelled_aliasText_foreignLetters :
    let settings : Settings := { maxHintLength := 4, counterWidth := 2 }
    let book : AliasBook String String := { settings, counters := { foreignKey := 8 } }
    checked settings = .ok ⟨settings⟩ ∧
      settings.aliasText .foreignKey 12345 "größe_2 Straße" = "FK12345_GRES" ∧
      Alias.Spelled settings .foreignKey 12345 "größe_2 Straße" "FK12345_GRES" ∧
      (book.issue .foreignKey "größe_2 Straße").1 = "FK09_GRES" ∧
      Alias.Spelled settings .foreignKey 9 "größe_2 Straße" "FK09_GRES" := by
  intro settings book
  have haccepted : checked settings = .ok ⟨settings⟩ := (checked_eq_ok_iff settings).mpr (by decide)
  have htext : settings.aliasText .foreignKey 12345 "größe_2 Straße" = "FK12345_GRES" := by decide
  have hissue : (book.issue .foreignKey "größe_2 Straße").1 = "FK09_GRES" := by decide
  obtain ⟨hall, hbooks⟩ := spelled_aliasText (T := String) (C := String) haccepted
  exact ⟨haccepted, htext, htext ▸ hall .foreignKey 12345 _, hissue,
    hissue ▸ hbooks book rfl .foreignKey _⟩

end Generator

end FlatAggregate
