/-!
# The byte order of texts

Texts compare by their code points.  This module shows that it is the same to compare them byte by
byte in UTF-8, which is the order that keys of arrays are documented to have.

*Why.*  The first byte of a character tells how many bytes it has, and longer encodings begin with
larger bytes.  Encodings of one length are the digits of the code point, most significant first.
So where two texts first differ in a character, they first differ in a byte of that character, and
in the same direction.
-/

namespace MacroMachine

/-- The bytes of a text. -/
def utf8Bytes (s : String) : List UInt8 :=
  s.toUTF8.data.toList

namespace ByteOrder

/-- The bytes of a text are those of its characters, one after the other. -/
theorem utf8Bytes_eq (s : String) : utf8Bytes s = s.toList.flatMap String.utf8EncodeChar := by
  rw [utf8Bytes, String.toUTF8, ← String.utf8Encode_toList, List.utf8Encode]
  simp

/-- Bytes compare like the digits that they are made of. -/
theorem cons_lt_cons {m n : Nat} {xs ys : List UInt8} (hm : m < 256) (hn : n < 256) (hle : m ≤ n)
    (hrest : m = n → xs < ys) : UInt8.ofNat m :: xs < UInt8.ofNat n :: ys := by
  rw [List.cons_lt_cons_iff]
  rcases Nat.lt_or_eq_of_le hle with hlt | rfl
  · left
    rw [UInt8.lt_iff_toNat_lt, UInt8.toNat_ofNat_of_lt' hm, UInt8.toNat_ofNat_of_lt' hn]
    exact hlt
  · exact .inr ⟨rfl, hrest rfl⟩

theorem cons_lt_cons_of_lt {m n : Nat} {xs ys : List UInt8} (hn : n < 256) (hlt : m < n) :
    UInt8.ofNat m :: xs < UInt8.ofNat n :: ys :=
  cons_lt_cons (Nat.lt_trans hlt hn) hn (Nat.le_of_lt hlt) fun heq => absurd heq (Nat.ne_of_lt hlt)

/-- The bytes of a smaller character come first, whatever follows. -/
theorem encodeChar_lt {c d : Char} (h : c < d) (xs ys : List UInt8) :
    String.utf8EncodeChar c ++ xs < String.utf8EncodeChar d ++ ys := by
  have hlt : c.val.toNat < d.val.toNat := h
  have hd : d.val.toNat < 1114112 := by
    have hvalid := d.valid
    simp only [UInt32.isValidChar, Nat.isValidChar] at hvalid
    omega
  simp only [String.utf8EncodeChar]
  generalize c.val.toNat = v at *
  generalize d.val.toNat = w at *
  -- more bytes begin with a larger one; the digits of equally many are compared one by one
  by_cases hone : v ≤ 127
  · rw [if_pos hone]
    repeat' split
    all_goals exact cons_lt_cons_of_lt (by omega) (by omega)
  by_cases htwo : v ≤ 2047
  · rw [if_neg hone, if_pos htwo, if_neg (show ¬ w ≤ 127 by omega)]
    repeat' split
    · refine cons_lt_cons (by omega) (by omega) (by omega) fun _ => ?_
      exact cons_lt_cons_of_lt (by omega) (by omega)
    all_goals exact cons_lt_cons_of_lt (by omega) (by omega)
  rw [if_neg hone, if_neg htwo, if_neg (show ¬ w ≤ 127 by omega),
    if_neg (show ¬ w ≤ 2047 by omega)]
  by_cases hthree : v ≤ 65535
  · rw [if_pos hthree]
    split
    · refine cons_lt_cons (by omega) (by omega) (by omega) fun _ => ?_
      refine cons_lt_cons (by omega) (by omega) (by omega) fun _ => ?_
      exact cons_lt_cons_of_lt (by omega) (by omega)
    · exact cons_lt_cons_of_lt (by omega) (by omega)
  · rw [if_neg hthree, if_neg (show ¬ w ≤ 65535 by omega)]
    refine cons_lt_cons (by omega) (by omega) (by omega) fun _ => ?_
    refine cons_lt_cons (by omega) (by omega) (by omega) fun _ => ?_
    refine cons_lt_cons (by omega) (by omega) (by omega) fun _ => ?_
    exact cons_lt_cons_of_lt (by omega) (by omega)

/-- A smaller row of characters has smaller bytes. -/
theorem flatMap_encodeChar_lt {cs ds : List Char} (h : cs < ds) :
    cs.flatMap String.utf8EncodeChar < ds.flatMap String.utf8EncodeChar := by
  induction cs generalizing ds with
  | nil =>
    cases ds with
    | nil => exact absurd h (List.lt_irrefl _)
    | cons d ds =>
      obtain ⟨b, bs, hbytes⟩ := List.exists_cons_of_ne_nil (String.utf8EncodeChar_ne_nil (c := d))
      rw [List.flatMap_nil, List.flatMap_cons, hbytes]
      exact List.nil_lt_cons _ _
  | cons c cs ih =>
    cases ds with
    | nil => exact absurd h (List.not_lt_nil _)
    | cons d ds =>
      rw [List.flatMap_cons, List.flatMap_cons]
      rcases List.cons_lt_cons_iff.1 h with hlt | ⟨rfl, hrest⟩
      · exact encodeChar_lt hlt _ _
      · exact List.append_left_lt (ih hrest)

end ByteOrder

/-- Texts are in order if their bytes are. -/
theorem lt_iff_utf8Bytes_lt (s t : String) : s < t ↔ utf8Bytes s < utf8Bytes t := by
  rw [String.lt_iff, ByteOrder.utf8Bytes_eq, ByteOrder.utf8Bytes_eq]
  refine ⟨ByteOrder.flatMap_encodeChar_lt, fun hbytes => ?_⟩
  rcases Std.lt_trichotomy s.toList t.toList with h | h | h
  · exact h
  · rw [h] at hbytes
    exact absurd hbytes (List.lt_irrefl _)
  · exact absurd hbytes (List.lt_asymm (ByteOrder.flatMap_encodeChar_lt h))

end MacroMachine
