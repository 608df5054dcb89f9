import MacroMachine.Program.Image

/-!
# Images determine programs

Reading the image of a program gives the program back, whatever bytes come after the image; and
reading an image that is cut short fails, wherever the cut falls.  So an image is no beginning of
another one, and images can be told apart.

*Spelling.*  Bytes spell a value to a reader if the reader takes exactly them for it, and if it runs
out of bytes on every proper beginning of them (`Spells`).  One reading after the other spells one
value after the other, so the statement for programs is put together from those for numbers.
-/

namespace MacroMachine.Image

variable {α β : Type}

/-! ## Spelling -/

/-- The bytes are what a reader takes for a value; with fewer of them it runs out of bytes. -/
structure Spells (read : Reader α) (bytes : Bytes) (x : α) : Prop where
  whole : ∀ rest, read (bytes ++ rest) = .ok (x, rest)
  cut : ∀ {front back}, front ++ back = bytes → back ≠ [] → read front = .error .endOfBytes

/-- One reader after another. -/
def Reader.andThen (read : Reader α) (next : α → Reader β) : Reader β := fun bytes =>
  match read bytes with
  | .ok (a, rest) => next a rest
  | .error e => .error e

theorem Reader.andThen_of_ok {read : Reader α} {next : α → Reader β} {bytes rest : Bytes} {a : α}
    (h : read bytes = .ok (a, rest)) : read.andThen next bytes = next a rest := by
  simp only [andThen, h]

theorem Reader.andThen_of_error {read : Reader α} {next : α → Reader β} {bytes : Bytes}
    {e : ImageError} (h : read bytes = .error e) : read.andThen next bytes = .error e := by
  simp only [andThen, h]

namespace Spells

variable {read : Reader α} {bytes : Bytes} {x : α}

/-- Nothing is read from no bytes. -/
theorem pure (x : α) : Spells (fun bytes => .ok (x, bytes)) [] x where
  whole rest := rfl
  cut := by
    intro front back happend hback
    exact absurd (List.append_eq_nil_iff.1 happend).2 hback

/-- What is read in two parts is spelled in two parts. -/
theorem andThen {next : α → Reader β} {bytes' : Bytes} {y : β} (h : Spells read bytes x)
    (h' : Spells (next x) bytes' y) : Spells (read.andThen next) (bytes ++ bytes') y where
  whole rest := by
    rw [List.append_assoc, Reader.andThen_of_ok (h.whole _), h'.whole]
  cut := by
    intro front back happend hback
    rcases List.append_eq_append_iff.1 happend with ⟨middle, rfl, rfl⟩ | ⟨middle, rfl, hmiddle⟩
    · -- the cut falls into the first part, or between the two
      cases middle with
      | nil =>
        rw [List.append_nil] at h
        rw [← List.append_nil front, Reader.andThen_of_ok (h.whole _)]
        exact h'.cut (List.nil_append _) hback
      | cons b middle => exact Reader.andThen_of_error (h.cut rfl (List.cons_ne_nil _ _))
    · rw [Reader.andThen_of_ok (h.whole _)]
      exact h'.cut hmiddle.symm hback

/-- What is made of a value is spelled like the value. -/
theorem map {f : α → β} {y : β} (h : Spells read bytes x) (hy : f x = y) :
    Spells (Reader.map f read) bytes y where
  whole rest := by
    simp only [Reader.map, h.whole, hy]
  cut := by
    intro front back happend hback
    simp only [Reader.map, h.cut happend hback]

end Spells

/-! ## Numbers -/

/-- How many numbers have no more than `digits + 1` digits with the last possible one at most
`lastDigit`. -/
def capacity (lastDigit : Nat) : (digits : Nat) → Nat
  | 0 => lastDigit + 1
  | digits + 1 => 128 * capacity lastDigit digits

theorem varint_of_lt {n : Nat} (h : n < 128) : varint n = [UInt8.ofNat n] := by
  rw [varint, if_pos h]

theorem varint_of_ge {n : Nat} (h : ¬ n < 128) :
    varint n = UInt8.ofNat (n % 128 + 128) :: varint (n / 128) := by
  rw [varint, if_neg h]

/-- One more digit in front. -/
theorem Spells.digit {lastDigit digits n : Nat} {bytes : Bytes} (digit : Nat) (hdigit : digit < 128)
    (h : Spells (readDigits lastDigit digits) bytes n) :
    Spells (readDigits lastDigit (digits + 1)) (UInt8.ofNat (digit + 128) :: bytes)
      (digit + 128 * n) := by
  have hbyte : (UInt8.ofNat (digit + 128)).toNat = digit + 128 :=
    UInt8.toNat_ofNat_of_lt' (by show digit + 128 < 256; omega)
  have hge : ¬ digit + 128 < 128 := by omega
  constructor
  · intro rest
    simp only [List.cons_append, readDigits, hbyte, if_neg hge, h.whole, Nat.add_sub_cancel]
  · intro front back happend hback
    cases front with
    | nil => rfl
    | cons b front =>
      obtain ⟨rfl, hrest⟩ := List.cons.inj happend
      simp only [readDigits, hbyte, if_neg hge, h.cut hrest hback]

/-- The last digit. -/
theorem Spells.lastDigit {lastDigit digits n : Nat} (hn : n < 128)
    (hlast : digits = 0 → n ≤ lastDigit) :
    Spells (readDigits lastDigit (digits + 1)) [UInt8.ofNat n] n := by
  have hbyte : (UInt8.ofNat n).toNat = n := UInt8.toNat_ofNat_of_lt' (by show n < 256; omega)
  have hfits : ¬ (digits = 0 ∧ lastDigit < n) := fun h => by
    have := hlast h.1
    omega
  constructor
  · intro rest
    simp only [List.cons_append, readDigits, hbyte, if_pos hn, if_neg hfits, List.nil_append]
  · intro front back happend hback
    cases front with
    | nil => rfl
    | cons b front =>
      have hnil := (List.cons.inj happend).2
      exact absurd (List.append_eq_nil_iff.1 hnil).2 hback

theorem spells_digits {lastDigit digits n : Nat} (hlast : lastDigit < 128)
    (h : n < capacity lastDigit digits) :
    Spells (readDigits lastDigit (digits + 1)) (varint n) n := by
  induction digits generalizing n with
  | zero =>
    have hle : n < lastDigit + 1 := h
    rw [varint_of_lt (by omega)]
    exact .lastDigit (by omega) fun _ => by omega
  | succ digits ih =>
    have hcapacity : n < 128 * capacity lastDigit digits := h
    by_cases hn : n < 128
    · rw [varint_of_lt hn]
      exact .lastDigit hn fun hzero => by omega
    · rw [varint_of_ge hn]
      have hdigit := (ih (n := n / 128) (by omega)).digit (n % 128) (by omega)
      rwa [Nat.mod_add_div] at hdigit

theorem spells_varint32 {n : Nat} (h : n < 4294967296) :
    Spells (readVarint width32) (varint n) n :=
  spells_digits (by decide) h

theorem spells_varint64 {n : Nat} (h : n < 18446744073709551616) :
    Spells (readVarint width64) (varint n) n :=
  spells_digits (by decide) h

/-! ## Slots -/

theorem zigzag_lt (n : Int64) : zigzag n < 18446744073709551616 := by
  have hlow := Int64.le_toInt n
  have hhigh := Int64.toInt_lt n
  unfold zigzag
  split <;> omega

theorem unzigzag_zigzag (n : Int64) : unzigzag (zigzag n) = n := by
  have hfold : ∀ i : Int, i = n.toInt → Int64.ofInt i = n := by
    rintro i rfl
    exact Int64.ofInt_toInt n
  unfold zigzag
  split
  · rw [unzigzag, if_pos (by omega)]
    exact hfold _ (by omega)
  · rw [unzigzag, if_neg (by omega)]
    exact hfold _ (by omega)

theorem spells_immediate (n : Int64) : Spells readImmediate (varint (zigzag n)) n := by
  have hread := spells_varint64 (zigzag_lt n)
  constructor
  · intro rest
    simp only [readImmediate, hread.whole, unzigzag_zigzag]
  · intro front back happend hback
    simp only [readImmediate, hread.cut happend hback]

theorem spells_symbol (id : SymbolId) : Spells readSymbol (varint id.index.toNat) id := by
  have hread := spells_varint32 id.index.toNat_lt
  constructor
  · intro rest
    simp only [readSymbol, hread.whole, UInt32.ofNat_toNat]
  · intro front back happend hback
    simp only [readSymbol, hread.cut happend hback]

theorem spells_opcode (op : Opcode) : Spells readOpcode (varint op.number) op := by
  have hnumber : op.number < 43 := by
    cases op <;> decide
  have hread := spells_varint32 (n := op.number) (by omega)
  constructor
  · intro rest
    simp only [readOpcode, hread.whole, Opcode.ofNumber?_number]
  · intro front back happend hback
    simp only [readOpcode, hread.cut happend hback]

/-- What is read after the number for the sort of a slot. -/
def readSort : Nat → Reader Instruction
  | 0 => Reader.map .op readOpcode
  | 1 => Reader.map .immediate readImmediate
  | 2 => Reader.map .symbol readSymbol
  | _ => fun _ => .error .unknownVariant

theorem readSlot_eq : readSlot = (readVarint width32).andThen readSort := by
  funext bytes
  rw [readSlot, Reader.andThen]
  cases readVarint width32 bytes with
  | error e => rfl
  | ok answer =>
    obtain ⟨n, rest⟩ := answer
    match n with
    | 0 | 1 | 2 | _ + 3 => rfl

theorem spells_slot (i : Instruction) : Spells readSlot (slot i) i := by
  rw [readSlot_eq]
  cases i with
  | op op => exact (spells_varint32 (by decide)).andThen ((spells_opcode op).map rfl)
  | immediate n => exact (spells_varint32 (by decide)).andThen ((spells_immediate n).map rfl)
  | symbol id => exact (spells_varint32 (by decide)).andThen ((spells_symbol id).map rfl)

/-! ## Lists and programs -/

theorem readMany_succ (read : Reader α) (n : Nat) : readMany read (n + 1) =
    read.andThen fun x => Reader.map (x :: ·) (readMany read n) := by
  funext bytes
  cases hread : read bytes with
  | error e => simp only [readMany, Reader.andThen, hread]
  | ok answer =>
    obtain ⟨x, rest⟩ := answer
    simp only [readMany, Reader.andThen, hread]

theorem readList_eq (read : Reader α) :
    readList read = (readVarint width64).andThen (readMany read) := by
  funext bytes
  rw [readList, Reader.andThen]
  cases readVarint width64 bytes with
  | error e => rfl
  | ok answer => rfl

theorem spells_many {read : Reader α} {write : α → Bytes} (h : ∀ x, Spells read (write x) x)
    (xs : List α) : Spells (readMany read xs.length) (xs.flatMap write) xs := by
  induction xs with
  | nil => exact .pure []
  | cons x xs ih =>
    rw [List.length_cons, readMany_succ, List.flatMap_cons]
    exact (h x).andThen (ih.map rfl)

theorem spells_list {read : Reader α} {write : α → Bytes} (h : ∀ x, Spells read (write x) x)
    {xs : List α} (hlength : xs.length < 18446744073709551616) :
    Spells (readList read) (list write xs) xs := by
  rw [readList_eq]
  exact (spells_varint64 hlength).andThen (spells_many h xs)

/-- Reads a program and leaves the rest. -/
def readProgram : Reader Program :=
  (readList readSlot).andThen fun code =>
    Reader.map (fun locals => { code := code.toArray, locals }) (readList readSymbol)

theorem decode_eq (bytes : Bytes) : decode bytes = (readProgram bytes).map Prod.fst := by
  rw [decode, readProgram, Reader.andThen]
  cases readList readSlot bytes with
  | error e => rfl
  | ok answer =>
    obtain ⟨code, rest⟩ := answer
    simp only [Reader.map]
    cases readList readSymbol rest with
    | error e => rfl
    | ok answer => rfl

end MacroMachine.Image

namespace MacroMachine

/-- A program whose slots and local variables can be counted in 64 bits, as all that fit into memory
can. -/
structure Program.Storable (p : Program) : Prop where
  code : p.code.size < 18446744073709551616
  locals : p.locals.length < 18446744073709551616

namespace Image

variable {p : Program}

theorem spells_program (h : p.Storable) : Spells readProgram (encode p) p := by
  have hcode := spells_list spells_slot h.code
  exact hcode.andThen ((spells_list spells_symbol h.locals).map rfl)

theorem decode_append (h : p.Storable) (rest : Bytes) : decode (encode p ++ rest) = .ok p := by
  rw [decode_eq, (spells_program h).whole]
  rfl

/-- An image that is a beginning of another one is an image of the same program. -/
theorem eq_of_beginning {q : Program} (hp : p.Storable) (hq : q.Storable)
    (h : encode p <+: encode q) : p = q := by
  obtain ⟨rest, hrest⟩ := h
  have hread := decode_append hp rest
  rw [hrest, ← List.append_nil (encode q), decode_append hq] at hread
  exact (Except.ok.inj hread).symm

/-- Images determine programs.  The image of a program reads as the program, whatever comes after
it; every proper beginning of it ends too early.  Hence different programs have different images,
and no image is a proper beginning of another one. -/
theorem decode_encode {p q : Program} (hp : p.Storable) (hq : q.Storable) :
    (∀ rest, decode (encode p ++ rest) = .ok p) ∧
    (∀ front, front <+: encode p → front ≠ encode p → decode front = .error .endOfBytes) ∧
    (encode p = encode q → p = q) ∧
    (encode p <+: encode q → encode p = encode q) := by
  refine ⟨decode_append hp, ?_, ?_, ?_⟩
  · rintro front ⟨back, happend⟩ hne
    have hback : back ≠ [] := by
      rintro rfl
      exact hne (List.append_nil front ▸ happend)
    rw [decode_eq, (spells_program hp).cut happend hback]
    rfl
  · intro heq
    exact eq_of_beginning hp hq (heq ▸ List.prefix_rfl)
  · intro hbegins
    rw [eq_of_beginning hp hq hbegins]

/-- A program with the largest numbers of each sort. -/
def extremes : Program :=
  { code := #[.op .pushSymbol, .symbol ⟨4294967295⟩, .immediate Int64.minValue,
      .immediate Int64.maxValue]
    locals := [⟨4294967295⟩, ⟨128⟩] }

/-- Numbers of as many digits as possible are read in full, and a cut inside one of them is seen. -/
theorem decode_encode_at_extremes :
    encode extremes = [4, 0, 2, 2, 255, 255, 255, 255, 15,
      1, 255, 255, 255, 255, 255, 255, 255, 255, 255, 1,
      1, 254, 255, 255, 255, 255, 255, 255, 255, 255, 1,
      2, 255, 255, 255, 255, 15, 128, 1] ∧
    decode (encode extremes ++ [0, 255]) = .ok extremes ∧
    decode ((encode extremes).take 12) = .error .endOfBytes ∧
    encode extremes ≠ encode { extremes with locals := [] } := by
  have hextremes : extremes.Storable := ⟨by decide, by decide⟩
  have hbare : Program.Storable { extremes with locals := [] } := ⟨by decide, by decide⟩
  have hlength : (encode extremes).length = 39 := by decide +kernel
  obtain ⟨hwhole, hcut, hinj, -⟩ := decode_encode hextremes hbare
  refine ⟨by decide +kernel, hwhole _, hcut _ ( List.take_prefix 12 _) fun heq => ?_, fun heq => ?_⟩
  · have := congrArg List.length heq
    rw [List.length_take, hlength] at this
    contradiction
  · exact absurd (hinj heq) (by decide)

end Image

end MacroMachine
