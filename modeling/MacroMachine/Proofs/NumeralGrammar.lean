import Mathlib.Computability.RegularExpressions
import Mathlib.Data.List.TakeWhile
import MacroMachine.Proofs.ByteOrder
import MacroMachine.Text.Numeral

/-!
# The grammar of numerals

Which texts read as numbers is a matter of a small grammar, and what they read as is a matter of
their digits.  Reading is written as a scan over bytes that knows neither.  This module shows that
the scan accepts the words of the grammar and nothing else, and that it finds their exact values as
far as 32 bits can hold them.

*Two alphabets.*  The grammar is about characters and the scan about bytes.  A numeral has the same
parts in both (`Alphabet.Spells`): its characters are single bytes, and a character of several
bytes has a byte that no numeral has.

*Two bounds.*  The magnitude of the digits stops growing at the end of the 64-bit range, and the
number is moved into the 32-bit range in the end.  A magnitude that has stopped growing lies beyond
the 32-bit range already, so the first bound is never seen.
-/

namespace MacroMachine.Numeral

/-! ## The parts of a numeral -/

/-- The letters that numerals are made of. -/
structure Alphabet (α : Type) where
  Blank : α → Prop
  Digit : α → Prop
  plus : α
  minus : α

namespace Alphabet

variable {α β : Type} {A : Alphabet α} {B : Alphabet β} {text lead sign digits trail : List α}

/-- Blanks, at most one sign, digits and blanks. -/
structure Spells (A : Alphabet α) (text lead sign digits trail : List α) : Prop where
  parts : text = lead ++ sign ++ digits ++ trail
  lead : ∀ a ∈ lead, A.Blank a
  sign : sign = [] ∨ sign = [A.plus] ∨ sign = [A.minus]
  digits : ∀ a ∈ digits, A.Digit a
  trail : ∀ a ∈ trail, A.Blank a

/-- One alphabet stands for another, letter by letter. -/
structure Renders (A : Alphabet α) (B : Alphabet β) (f : α → β) : Prop where
  blank : ∀ a, A.Blank a → B.Blank (f a)
  digit : ∀ a, A.Digit a → B.Digit (f a)
  plus : f A.plus = B.plus
  minus : f A.minus = B.minus

theorem Spells.map {f : α → β} (hf : A.Renders B f) (h : A.Spells text lead sign digits trail) :
    B.Spells (text.map f) (lead.map f) (sign.map f) (digits.map f) (trail.map f) where
  parts := by simp [h.parts]
  lead := by simpa using fun a ha => hf.blank a (h.lead a ha)
  sign := by
    rcases h.sign with rfl | rfl | rfl
    · exact .inl rfl
    · exact .inr (.inl (congrArg ([·]) hf.plus))
    · exact .inr (.inr (congrArg ([·]) hf.minus))
  digits := by simpa using fun a ha => hf.digit a (h.digits a ha)
  trail := by simpa using fun a ha => hf.blank a (h.trail a ha)

/-- What all letters of an alphabet have, all letters of a numeral have. -/
theorem Spells.all {p : α → Prop} (h : A.Spells text lead sign digits trail)
    (hblank : ∀ a, A.Blank a → p a) (hdigit : ∀ a, A.Digit a → p a) (hplus : p A.plus)
    (hminus : p A.minus) : ∀ a ∈ text, p a := by
  intro a ha
  simp only [h.parts, List.mem_append] at ha
  rcases ha with ((ha | ha) | ha) | ha
  · exact hblank a (h.lead a ha)
  · rcases h.sign with rfl | rfl | rfl
    · cases ha
    · exact List.mem_singleton.1 ha ▸ hplus
    · exact List.mem_singleton.1 ha ▸ hminus
  · exact hdigit a (h.digits a ha)
  · exact hblank a (h.trail a ha)

end Alphabet

/-! ## The grammar -/

/-- The characters that are blanks. -/
def blankChars : List Char :=
  [' ', '\t']

/-- The decimal digits. -/
def decimalDigits : List Char :=
  ['0', '1', '2', '3', '4', '5', '6', '7', '8', '9']

theorem forall_mem_blankChars {p : Char → Prop} :
    (∀ c ∈ blankChars, p c) ↔ p ' ' ∧ p '\t' := by
  simp [blankChars]

theorem forall_mem_decimalDigits {p : Char → Prop} :
    (∀ c ∈ decimalDigits, p c) ↔
      p '0' ∧ p '1' ∧ p '2' ∧ p '3' ∧ p '4' ∧ p '5' ∧ p '6' ∧ p '7' ∧ p '8' ∧ p '9' := by
  simp [decimalDigits]

/-- The characters of numerals. -/
def chars : Alphabet Char :=
  ⟨(· ∈ blankChars), (· ∈ decimalDigits), '+', '-'⟩

/-- One of several characters. -/
def oneOf (letters : List Char) : RegularExpression Char :=
  (letters.map .char).sum

/-- Any number of blanks. -/
def blanks : RegularExpression Char :=
  (oneOf blankChars).star

/-- Blanks, at most one sign, digits and blanks. -/
def grammar : RegularExpression Char :=
  blanks * (1 + oneOf ['+', '-']) * (oneOf decimalDigits).star * blanks

theorem mem_oneOf {letters word : List Char} :
    word ∈ (oneOf letters).matches' ↔ ∃ c ∈ letters, word = [c] := by
  induction letters with
  | nil => simp [oneOf]
  | cons c rest ih =>
    have hcons : oneOf (c :: rest) = .char c + oneOf rest := by simp [oneOf]
    have hchar : word ∈ (RegularExpression.char c).matches' ↔ word = [c] := Iff.rfl
    rw [hcons, RegularExpression.matches'_add, Language.mem_add, ih, hchar]
    simp

theorem mem_star_oneOf {letters word : List Char} :
    word ∈ (oneOf letters).star.matches' ↔ ∀ c ∈ word, c ∈ letters := by
  rw [RegularExpression.matches'_star, Language.mem_kstar]
  constructor
  · rintro ⟨words, rfl, hwords⟩ c hc
    obtain ⟨one, hone, hc⟩ := List.mem_flatten.1 hc
    obtain ⟨d, hd, rfl⟩ := mem_oneOf.1 (hwords one hone)
    rwa [List.mem_singleton.1 hc]
  · intro hword
    refine ⟨word.map fun c => [c], (List.flatMap_singleton' word).symm, ?_⟩
    simpa [mem_oneOf] using hword

/-- The words of the grammar are the numerals. -/
theorem mem_grammar_iff {text : List Char} :
    text ∈ grammar.matches' ↔
      ∃ lead sign digits trail, chars.Spells text lead sign digits trail := by
  simp only [grammar, blanks, RegularExpression.matches'_mul, Language.mem_mul, mem_star_oneOf,
    RegularExpression.matches'_add, RegularExpression.matches'_epsilon, Language.mem_add,
    Language.mem_one, mem_oneOf]
  constructor
  · rintro ⟨_, ⟨_, ⟨lead, hlead, sign, hsign, rfl⟩, digits, hdigits, rfl⟩, trail, htrail, rfl⟩
    have hsign : sign = [] ∨ sign = ['+'] ∨ sign = ['-'] := by simpa using hsign
    exact ⟨lead, sign, digits, trail, rfl, hlead, hsign, hdigits, htrail⟩
  · rintro ⟨lead, sign, digits, trail, rfl, hlead, hsign, hdigits, htrail⟩
    have hsign : sign = [] ∨ sign = ['+'] ∨ sign = ['-'] := hsign
    exact ⟨_, ⟨_, ⟨lead, hlead, sign, by simpa using hsign, rfl⟩, digits, hdigits, rfl⟩, trail,
      htrail, rfl⟩

/-! ## Scanning -/

/-- The bytes of numerals. -/
def bytes : Alphabet UInt8 :=
  ⟨(isBlank ·), (isDigit ·), 43, 45⟩

theorem isBlank_iff {b : UInt8} : isBlank b ↔ b = 32 ∨ b = 9 := by
  simp [isBlank]

theorem isDigit_iff {b : UInt8} : isDigit b ↔ 48 ≤ b.toNat ∧ b.toNat ≤ 57 := by
  simp [isDigit, UInt8.le_iff_toNat_le]

theorem isDigit_of_isBlank {b : UInt8} (h : isBlank b) : isDigit b = false := by
  rcases isBlank_iff.1 h with rfl | rfl
  · rfl
  · rfl

theorem isBlank_of_isDigit {b : UInt8} (h : isDigit b) : isBlank b = false := by
  cases hb : isBlank b with
  | false => rfl
  | true => exact h.symm.trans (isDigit_of_isBlank hb)

theorem splitSign_of_isDigit {b : UInt8} (h : isDigit b) (rest : List UInt8) :
    splitSign (b :: rest) = (false, b :: rest) := by
  have hplus : b ≠ 43 := by rintro rfl; cases h
  have hminus : b ≠ 45 := by rintro rfl; cases h
  simp [splitSign, hplus, hminus]

section Scan

variable {text lead sign digits trail : List UInt8}

/-- Behind the sign, digits and blanks are told apart. -/
theorem split_digits (hdigits : ∀ b ∈ digits, isDigit b) (htrail : ∀ b ∈ trail, isBlank b) :
    (digits ++ trail).takeWhile isDigit = digits ∧
      (digits ++ trail).dropWhile isDigit = trail := by
  rw [List.takeWhile_append_of_pos hdigits, List.dropWhile_append_of_pos hdigits]
  cases trail with
  | nil => simp
  | cons b rest =>
    have hb := isDigit_of_isBlank (htrail b List.mem_cons_self)
    simp [hb]

/-- The sign is found where it is.  Without a sign and digits all blanks are taken for leading
ones. -/
theorem splitSign_of_spells (h : bytes.Spells text lead sign digits trail) :
    splitSign (text.dropWhile isBlank) = (decide (sign = [45]), digits ++ trail) ∨
      splitSign (text.dropWhile isBlank) = (false, []) ∧ sign = [] ∧ digits = [] := by
  rw [h.parts, List.append_assoc, List.append_assoc, List.dropWhile_append_of_pos h.lead]
  rcases h.sign with rfl | rfl | rfl
  · cases digits with
    | nil =>
      right
      rw [List.nil_append, List.nil_append, List.dropWhile_eq_nil_iff.2 h.trail]
      exact ⟨rfl, rfl, rfl⟩
    | cons d rest =>
      left
      have hd : isDigit d := h.digits d List.mem_cons_self
      rw [List.nil_append, List.cons_append,
        List.dropWhile_cons_of_neg (by simp [isBlank_of_isDigit hd]), splitSign_of_isDigit hd]
      rfl
  · exact .inl rfl
  · exact .inl rfl

/-- A numeral is read as the magnitude of its digits, with its sign. -/
theorem readBytes?_of_spells (h : bytes.Spells text lead sign digits trail) :
    readBytes? text = some (.ofIntClamp
      (if sign = [45] then -digits.foldl extend 0 else digits.foldl extend 0).toInt) := by
  have hblank : trail.dropWhile isBlank = [] := List.dropWhile_eq_nil_iff.2 h.trail
  obtain ⟨htake, hdrop⟩ := split_digits h.digits h.trail
  rcases splitSign_of_spells h with hsplit | ⟨hsplit, rfl, rfl⟩
  · simp [readBytes?, hsplit, htake, hdrop, hblank]
  · simp [readBytes?, hsplit]

theorem splitSign_cases (text : List UInt8) :
    ∃ sign, (sign = [] ∨ sign = [43] ∨ sign = [45]) ∧ text = sign ++ (splitSign text).2 := by
  cases text with
  | nil => exact ⟨[], .inl rfl, rfl⟩
  | cons b rest =>
    by_cases hplus : b = 43
    · exact ⟨[43], .inr (.inl rfl), by simp [splitSign, hplus]⟩
    · by_cases hminus : b = 45
      · exact ⟨[45], .inr (.inr rfl), by simp [splitSign, hminus]⟩
      · exact ⟨[], .inl rfl, by simp [splitSign, hplus, hminus]⟩

/-- What is read as a number is a numeral. -/
theorem spells_of_readBytes? (h : (readBytes? text).isSome) :
    ∃ lead sign digits trail, bytes.Spells text lead sign digits trail := by
  obtain ⟨sign, hsign, hsplit⟩ := splitSign_cases (text.dropWhile isBlank)
  set body := (splitSign (text.dropWhile isBlank)).2 with hbody
  have hrest : (body.dropWhile isDigit).dropWhile isBlank = [] := by
    by_contra hne
    simp [readBytes?, ← hbody, hne] at h
  refine ⟨text.takeWhile isBlank, sign, body.takeWhile isDigit, body.dropWhile isDigit, ?_,
    fun b hb => List.mem_takeWhile_imp hb, hsign, fun b hb => List.mem_takeWhile_imp hb,
    List.dropWhile_eq_nil_iff.1 hrest⟩
  rw [List.append_assoc, List.takeWhile_append_dropWhile, List.append_assoc, ← hsplit,
    List.takeWhile_append_dropWhile]

end Scan

/-! ## Characters as bytes -/

theorem encode_of_ascii {c : Char} (h : c.toNat < 128) :
    String.utf8EncodeChar c = [c.toUInt8] := by
  have hle : c.val.toNat ≤ 127 := Nat.le_of_lt_succ h
  simp only [String.utf8EncodeChar, if_pos hle]
  rfl

/-- A character of several bytes begins with a large one. -/
theorem encode_of_not_ascii {c : Char} (h : 128 ≤ c.toNat) :
    ∃ b ∈ String.utf8EncodeChar c, 128 ≤ b.toNat := by
  have hlarge : ¬ c.val.toNat ≤ 127 := Nat.not_le_of_lt h
  simp only [String.utf8EncodeChar, if_neg hlarge]
  split
  · exact ⟨_, List.mem_cons_self, by simp only [UInt8.toNat_ofNat']; omega⟩
  · split
    · exact ⟨_, List.mem_cons_self, by simp only [UInt8.toNat_ofNat']; omega⟩
    · exact ⟨_, List.mem_cons_self, by simp only [UInt8.toNat_ofNat']; omega⟩

theorem utf8Bytes_of_ascii {text : String} (h : ∀ c ∈ text.toList, c.toNat < 128) :
    utf8Bytes text = text.toList.map Char.toUInt8 := by
  rw [ByteOrder.utf8Bytes_eq]
  generalize text.toList = letters at h
  induction letters with
  | nil => rfl
  | cons c rest ih =>
    obtain ⟨hc, hrest⟩ := List.forall_mem_cons.1 h
    rw [List.flatMap_cons, encode_of_ascii hc, ih hrest]
    rfl

theorem ofUInt8_toUInt8 {c : Char} (h : c.toNat < 128) : Char.ofUInt8 c.toUInt8 = c := by
  apply Char.ext
  apply UInt32.toNat_inj.1
  show c.val.toNat % 256 = c.val.toNat
  have hlt : c.val.toNat < 128 := h
  omega

/-- A text of small bytes has one character for each of them. -/
theorem toList_of_ascii {text : String} (h : ∀ b ∈ utf8Bytes text, b.toNat < 128) :
    text.toList = (utf8Bytes text).map Char.ofUInt8 := by
  have hascii : ∀ c ∈ text.toList, c.toNat < 128 := by
    intro c hc
    refine Nat.lt_of_not_le fun hlarge => ?_
    obtain ⟨b, hb, hle⟩ := encode_of_not_ascii hlarge
    have hmem : b ∈ utf8Bytes text := by
      rw [ByteOrder.utf8Bytes_eq]
      exact List.mem_flatMap.2 ⟨c, hc, hb⟩
    exact Nat.not_lt_of_le hle (h b hmem)
  rw [utf8Bytes_of_ascii hascii, List.map_map]
  calc text.toList
      = text.toList.map id := (List.map_id _).symm
    _ = text.toList.map (Char.ofUInt8 ∘ Char.toUInt8) :=
      List.map_congr_left fun c hc => (ofUInt8_toUInt8 (hascii c hc)).symm

theorem mem_decimalDigits {c : Char} (hlow : 48 ≤ c.toNat) (hhigh : c.toNat ≤ 57) :
    c ∈ decimalDigits := by
  have hall : ∀ n < 10, Char.ofNat (48 + n) ∈ decimalDigits := by decide
  have hc := hall (c.toNat - 48) (by omega)
  rwa [Nat.add_sub_cancel' hlow, Char.ofNat_toNat] at hc

theorem isBlank_toUInt8 : ∀ c ∈ blankChars, isBlank c.toUInt8 :=
  forall_mem_blankChars.2 (by decide)

theorem isDigit_toUInt8 : ∀ c ∈ decimalDigits, isDigit c.toUInt8 :=
  forall_mem_decimalDigits.2 (by decide)

theorem chars_render_bytes : chars.Renders bytes Char.toUInt8 where
  blank := isBlank_toUInt8
  digit := isDigit_toUInt8
  plus := rfl
  minus := rfl

theorem bytes_render_chars : bytes.Renders chars Char.ofUInt8 where
  blank b hb := by
    show Char.ofUInt8 b ∈ blankChars
    rcases isBlank_iff.1 hb with rfl | rfl <;> decide
  digit b hb := mem_decimalDigits (isDigit_iff.1 hb).1 (isDigit_iff.1 hb).2
  plus := rfl
  minus := rfl

/-- The bytes of a numeral have its parts. -/
theorem spells_utf8Bytes {text : String} {lead sign digits trail : List Char}
    (h : chars.Spells text.toList lead sign digits trail) :
    bytes.Spells (utf8Bytes text) (lead.map Char.toUInt8) (sign.map Char.toUInt8)
      (digits.map Char.toUInt8) (trail.map Char.toUInt8) := by
  have hblank : ∀ c ∈ blankChars, c.toNat < 128 := forall_mem_blankChars.2 (by decide)
  have hdigit : ∀ c ∈ decimalDigits, c.toNat < 128 := forall_mem_decimalDigits.2 (by decide)
  rw [utf8Bytes_of_ascii (h.all hblank hdigit (by decide) (by decide))]
  exact h.map chars_render_bytes

/-- A text whose bytes have the parts of a numeral is one. -/
theorem spells_toList {text : String} {lead sign digits trail : List UInt8}
    (h : bytes.Spells (utf8Bytes text) lead sign digits trail) :
    chars.Spells text.toList (lead.map Char.ofUInt8) (sign.map Char.ofUInt8)
      (digits.map Char.ofUInt8) (trail.map Char.ofUInt8) := by
  have hsmall : ∀ b ∈ utf8Bytes text, b.toNat < 128 := by
    refine h.all (fun b hb => ?_) (fun b hb => ?_) (by decide) (by decide)
    · rcases isBlank_iff.1 hb with rfl | rfl <;> decide
    · exact Nat.lt_of_le_of_lt (isDigit_iff.1 hb).2 (by decide)
  rw [toList_of_ascii hsmall]
  exact h.map bytes_render_chars

/-! ## Magnitudes -/

theorem toInt_ofIntClamp64 (n : Int) : (Int64.ofIntClamp n).toInt =
    max (-9223372036854775808) (min n 9223372036854775807) := by
  unfold Int64.ofIntClamp
  have hmin : Int64.minValue.toInt = -9223372036854775808 := rfl
  have hmax : Int64.maxValue.toInt = 9223372036854775807 := rfl
  split
  · split
    · rw [Int64.toInt_ofIntLE]
      omega
    · rw [hmax]
      omega
  · rw [hmin]
    omega

theorem toInt_ofIntClamp32 (n : Int) : (Int32.ofIntClamp n).toInt =
    max (-2147483648) (min n 2147483647) := by
  unfold Int32.ofIntClamp
  have hmin : Int32.minValue.toInt = -2147483648 := rfl
  have hmax : Int32.maxValue.toInt = 2147483647 := rfl
  split
  · split
    · rw [Int32.toInt_ofIntLE]
      omega
    · rw [hmax]
      omega
  · rw [hmin]
    omega

theorem toNat_digit : ∀ c ∈ decimalDigits, (c.toUInt8 - 48).toNat = c.toNat - '0'.toNat :=
  forall_mem_decimalDigits.2 (by decide)

/-- A magnitude that is exact up to its bound stays so with one more digit. -/
theorem toInt_extend {magnitude : Int64} {n : Nat} {c : Char} (hc : c ∈ decimalDigits)
    (h : magnitude.toInt = min (n : Int) 9223372036854775807) :
    (extend magnitude c.toUInt8).toInt =
      min ((10 * n + (c.toNat - '0'.toNat) : Nat) : Int) 9223372036854775807 := by
  rw [extend, toInt_ofIntClamp64, toInt_ofIntClamp64, toNat_digit c hc, h]
  omega

theorem toInt_foldl_extend {digits : List Char} (hdigits : ∀ c ∈ digits, c ∈ decimalDigits)
    (magnitude : Int64) (n : Nat) (h : magnitude.toInt = min (n : Int) 9223372036854775807) :
    ((digits.map Char.toUInt8).foldl extend magnitude).toInt =
      min (Nat.ofDigitChars 10 digits n : Int) 9223372036854775807 := by
  induction digits generalizing magnitude n with
  | nil => simpa using h
  | cons c rest ih =>
    obtain ⟨hc, hrest⟩ := List.forall_mem_cons.1 hdigits
    rw [List.map_cons, List.foldl_cons, Nat.ofDigitChars_cons]
    exact ih hrest _ _ (toInt_extend hc h)

theorem toInt_neg_of_nonneg {magnitude : Int64} (h : 0 ≤ magnitude.toInt) :
    (-magnitude).toInt = -magnitude.toInt := by
  have hlt : magnitude.toInt < 9223372036854775808 := magnitude.toInt_lt
  rw [Int64.toInt_neg]
  apply Int.bmod_eq_of_le
  · simp
    omega
  · simp
    omega

/-! ## Numerals and their values -/

/-- The exact number that a sign and digits stand for. -/
def exactValue (sign digits : List Char) : Int :=
  if sign = ['-'] then -(Nat.ofDigitChars 10 digits 0 : Int) else Nat.ofDigitChars 10 digits 0

/-- A numeral is read as its exact value, moved to the nearest 32-bit integer. -/
theorem read?_of_spells {text : String} {lead sign digits trail : List Char}
    (h : chars.Spells text.toList lead sign digits trail) :
    ∃ n, read? text = some n ∧
      n.toInt = max (-2147483648) (min (exactValue sign digits) 2147483647) := by
  refine ⟨_, readBytes?_of_spells (spells_utf8Bytes h), ?_⟩
  have hmagnitude := toInt_foldl_extend h.digits 0 0 rfl
  have hminus : sign.map Char.toUInt8 = [45] ↔ sign = ['-'] := by
    rcases h.sign with rfl | rfl | rfl <;> decide
  rw [toInt_ofIntClamp32, exactValue]
  simp only [hminus]
  split
  · rw [toInt_neg_of_nonneg (by omega), hmagnitude]
    omega
  · rw [hmagnitude]
    omega

theorem mem_grammar_of_read? {text : String} (h : (read? text).isSome) :
    text.toList ∈ grammar.matches' := by
  obtain ⟨lead, sign, digits, trail, hspells⟩ := spells_of_readBytes? h
  exact mem_grammar_iff.2 ⟨_, _, _, _, spells_toList hspells⟩

theorem mem_toDigits {c : Char} {n : Nat} (h : c ∈ Nat.toDigits 10 n) : c ∈ decimalDigits := by
  have hdigit := Nat.isDigit_of_mem_toDigits (by decide) (by decide) h
  obtain ⟨hlow, hhigh⟩ : 48 ≤ c.toNat ∧ c.toNat ≤ 57 := by
    simpa [Char.isDigit, UInt32.le_iff_toNat_le] using hdigit
  exact mem_decimalDigits hlow hhigh

/-- The decimal text of a number has a sign if it is negative, and its digits. -/
theorem spells_render (n : Int32) :
    ∃ sign digits, chars.Spells (render n).toList [] sign digits [] ∧
      exactValue sign digits = n.toInt := by
  have hrender : render n = n.toInt.repr := rfl
  rw [hrender, Int.repr_eq_if]
  split
  · next hpos =>
    refine ⟨[], Nat.toDigits 10 n.toInt.toNat, ⟨?_, nofun, .inl rfl, fun _ => mem_toDigits, nofun⟩,
      ?_⟩
    · simp
    · rw [exactValue, if_neg (by simp), Nat.ofDigitChars_ten_toDigits, Int.toNat_of_nonneg hpos]
  · next hneg =>
    refine ⟨['-'], Nat.toDigits 10 (-n.toInt).toNat,
      ⟨?_, nofun, .inr (.inr rfl), fun _ => mem_toDigits, nofun⟩, ?_⟩
    · simp
    · rw [exactValue, if_pos rfl, Nat.ofDigitChars_ten_toDigits]
      omega

/-- The decimal text of a number reads as the number, also between blanks. -/
theorem read?_render (n : Int32) (before after : String)
    (hbefore : ∀ c ∈ before.toList, c ∈ blankChars) (hafter : ∀ c ∈ after.toList, c ∈ blankChars) :
    read? (before ++ render n ++ after) = some n := by
  obtain ⟨sign, digits, h, hvalue⟩ := spells_render n
  have hspells : chars.Spells (before ++ render n ++ after).toList before.toList sign digits
      after.toList :=
    ⟨by simp [h.parts], hbefore, h.sign, h.digits, hafter⟩
  obtain ⟨m, hm, hclamped⟩ := read?_of_spells hspells
  have hlow : -2147483648 ≤ n.toInt := n.minValue_le_toInt
  have hhigh : n.toInt ≤ 2147483647 := n.toInt_le
  rw [hm, Option.some_inj, ← Int32.toInt_inj, hclamped, hvalue]
  omega

/-- Different numbers have different decimal texts. -/
theorem render_injective : Function.Injective render := by
  intro m n h
  have hm := read?_render m "" "" nofun nofun
  rw [h, read?_render n "" "" nofun nofun] at hm
  exact (Option.some_inj.1 hm).symm

/-- A text reads as a number exactly if it is a word of the grammar.  It then reads as the exact
value of its digits, moved to the nearest 32-bit integer, and the decimal text of a number between
blanks reads as that number. -/
theorem read?_iff_grammar :
    (∀ text, (read? text).isSome ↔ text.toList ∈ grammar.matches') ∧
    (∀ text lead sign digits trail, chars.Spells text.toList lead sign digits trail →
      ∃ n, read? text = some n ∧
        n.toInt = max (-2147483648) (min (exactValue sign digits) 2147483647)) ∧
    ∀ (n : Int32) (before after : String), before.toList ∈ blanks.matches' →
      after.toList ∈ blanks.matches' → read? (before ++ render n ++ after) = some n := by
  refine ⟨fun text => ⟨mem_grammar_of_read?, fun h => ?_⟩, fun _ _ _ _ _ => read?_of_spells, ?_⟩
  · obtain ⟨lead, sign, digits, trail, hspells⟩ := mem_grammar_iff.1 h
    obtain ⟨n, hn, -⟩ := read?_of_spells hspells
    simp [hn]
  · intro n before after hbefore hafter
    exact read?_render n before after (mem_star_oneOf.1 hbefore) (mem_star_oneOf.1 hafter)

/-- A numeral below the range is read as the least number, and blanks around a numeral do not
matter. -/
theorem read?_iff_grammar_beyond_range :
    chars.Spells "\t-99999999999999999999 ".toList ['\t'] ['-'] (List.replicate 20 '9') [' '] ∧
    (∃ n, read? "\t-99999999999999999999 " = some n ∧ n.toInt = -2147483648) ∧
    " ".toList ∈ blanks.matches' ∧ "\t\t".toList ∈ blanks.matches' ∧
    read? (" " ++ render (-7) ++ "\t\t") = some (-7) := by
  have hspells : chars.Spells "\t-99999999999999999999 ".toList ['\t'] ['-']
      (List.replicate 20 '9') [' '] := by
    refine ⟨by decide +kernel, ?_, .inr (.inr rfl), ?_, ?_⟩
    · simp [chars, blankChars]
    · simp [chars, decimalDigits]
    · simp [chars, blankChars]
  have hbefore : " ".toList ∈ blanks.matches' := mem_star_oneOf.2 (by simp [blankChars])
  have hafter : "\t\t".toList ∈ blanks.matches' := mem_star_oneOf.2 (by simp [blankChars])
  obtain ⟨-, hvalue, hrender⟩ := read?_iff_grammar
  obtain ⟨n, hn, hclamped⟩ := hvalue _ _ _ _ _ hspells
  exact ⟨hspells, ⟨n, hn, hclamped.trans (by decide +kernel)⟩, hbefore, hafter,
    hrender (-7) _ _ hbefore hafter⟩

end MacroMachine.Numeral
