import MacroMachine.Proofs.Images

/-!
# Reading normalises images

Many rows of bytes are read as one program, since numbers may be written with more digits than they
need and since bytes after the image are ignored.  This module says exactly which bytes are read as
a program.  Among them the image of the program is a shortest one, and bytes with a number that is
out of range at its place are not among them.

*Grammar.*  A numeral is any row of digits in base 128 (`Numeral`), and a number of some width is a
numeral with not too many digits and not too large a value (`Number`).  Slots, lists and programs
are put together from numbers (`SlotBytes`, `Listed`, `ProgramBytes`).  Every reader takes what the
grammar describes and nothing else (`Reader.Takes`).

*Places.*  After some bytes the format may expect the length of a list, the sort of a slot, an
opcode, an immediate or a symbol (`Expects`).  If what is read there fails, then reading the whole
program fails, however many slots or symbols come before the place.
-/

namespace MacroMachine.Image

variable {α β : Type}

/-! ## Grammar -/

/-- A number in base 128, least significant digit first, with 128 added to every digit but the last.
Zeros may stand behind the digits that are needed. -/
inductive Numeral : Bytes → Nat → Prop where
  | last {byte : UInt8} : byte.toNat < 128 → Numeral [byte] byte.toNat
  | more {byte : UInt8} {bytes : Bytes} {n : Nat} : 128 ≤ byte.toNat → Numeral bytes n →
      Numeral (byte :: bytes) (byte.toNat - 128 + 128 * n)

/-- Numbers of a width lie below this one. -/
def Width.bound (w : Width) : Nat :=
  capacity w.lastDigit (w.digits - 1)

/-- A numeral that a width has room for. -/
structure Number (w : Width) (bytes : Bytes) (n : Nat) : Prop where
  numeral : Numeral bytes n
  short : bytes.length ≤ w.digits
  small : n < w.bound

/-- A symbol number. -/
def SymbolBytes (bytes : Bytes) (id : SymbolId) : Prop :=
  Number width32 bytes id.index.toNat

/-- What comes after the number for the sort of a slot: the opcode's number, the immediate or the
symbol. -/
inductive PayloadBytes : Nat → Bytes → Instruction → Prop where
  | op {bytes : Bytes} {opcode : Opcode} : Number width32 bytes opcode.number →
      PayloadBytes 0 bytes (.op opcode)
  | immediate {bytes : Bytes} {n : Int64} : Number width64 bytes (zigzag n) →
      PayloadBytes 1 bytes (.immediate n)
  | symbol {bytes : Bytes} {id : SymbolId} : SymbolBytes bytes id →
      PayloadBytes 2 bytes (.symbol id)

/-- The number for the sort of a slot, then what belongs to a slot of this sort. -/
def SlotBytes (bytes : Bytes) (i : Instruction) : Prop :=
  ∃ tag payload sort, tag ++ payload = bytes ∧ Number width32 tag sort ∧ PayloadBytes sort payload i

/-- Items one after the other. -/
inductive Row (item : Bytes → α → Prop) : Bytes → List α → Prop where
  | nil : Row item [] []
  | cons {front bytes : Bytes} {x : α} {xs : List α} : item front x → Row item bytes xs →
      Row item (front ++ bytes) (x :: xs)

/-- A list with its length in front. -/
def Listed (item : Bytes → α → Prop) (bytes : Bytes) (xs : List α) : Prop :=
  ∃ count items, count ++ items = bytes ∧ Number width64 count xs.length ∧ Row item items xs

/-- The code of a program, then its local variables. -/
def ProgramBytes (bytes : Bytes) (p : Program) : Prop :=
  ∃ code locals, code ++ locals = bytes ∧ Listed SlotBytes code p.code.toList ∧
    Listed SymbolBytes locals p.locals

/-! ## Numerals -/

theorem Numeral.ne_nil {bytes : Bytes} {n : Nat} (h : Numeral bytes n) : bytes ≠ [] := by
  cases h <;> exact List.cons_ne_nil _ _

/-- No numeral is shorter than the one that numbers are written with. -/
theorem Numeral.length_varint_le {bytes : Bytes} {n : Nat} (h : Numeral bytes n) :
    (varint n).length ≤ bytes.length := by
  induction h with
  | last hbyte =>
    rw [varint_of_lt hbyte]
    exact Nat.le_refl _
  | @more byte bytes n hbyte _ ih =>
    have hdigit : byte.toNat - 128 < 128 := by
      have := byte.toNat_lt
      omega
    by_cases hsmall : byte.toNat - 128 + 128 * n < 128
    · rw [varint_of_lt hsmall]
      exact Nat.succ_le_succ (Nat.zero_le _)
    · have hrest : (byte.toNat - 128 + 128 * n) / 128 = n := by omega
      rw [varint_of_ge hsmall, hrest]
      exact Nat.succ_le_succ ih

theorem capacity_pos (lastDigit digits : Nat) : 0 < capacity lastDigit digits := by
  induction digits with
  | zero => exact Nat.succ_pos _
  | succ digits ih => exact Nat.mul_pos (by decide) ih

theorem lt_capacity_iff {lastDigit digits n : Nat} (hn : n < 128) :
    n < capacity lastDigit digits ↔ ¬ (digits = 0 ∧ lastDigit < n) := by
  cases digits with
  | zero =>
    have hcapacity : capacity lastDigit 0 = lastDigit + 1 := rfl
    omega
  | succ digits =>
    have hcapacity : capacity lastDigit (digits + 1) = 128 * capacity lastDigit digits := rfl
    have hpos := capacity_pos lastDigit digits
    omega

/-- A numeral is read in full if there is room for it, and refused if not. -/
theorem Numeral.readDigits {bytes : Bytes} {n : Nat} (h : Numeral bytes n) (lastDigit digits : Nat)
    (rest : Bytes) : Image.readDigits lastDigit (digits + 1) (bytes ++ rest) =
      if bytes.length ≤ digits + 1 ∧ n < capacity lastDigit digits then .ok (n, rest)
      else .error .unterminated := by
  induction h generalizing digits with
  | @last byte hbyte =>
    rw [List.singleton_append, Image.readDigits, if_pos hbyte]
    by_cases hfits : byte.toNat < capacity lastDigit digits
    · rw [if_neg ((lt_capacity_iff hbyte).1 hfits), if_pos ⟨Nat.le_add_left 1 digits, hfits⟩]
    · rw [if_pos (Decidable.not_not.1 fun hnot => hfits ((lt_capacity_iff hbyte).2 hnot)),
        if_neg fun h => hfits h.2]
  | @more byte bytes n hbyte hbytes ih =>
    rw [List.cons_append, Image.readDigits, if_neg (Nat.not_lt.2 hbyte), List.length_cons]
    cases digits with
    | zero =>
      have hlength := List.length_pos_iff.2 hbytes.ne_nil
      rw [if_neg (by omega)]
      rfl
    | succ digits =>
      have hdigit := byte.toNat_lt
      have hcapacity : capacity lastDigit (digits + 1) = 128 * capacity lastDigit digits := rfl
      rw [ih digits]
      by_cases hfits : bytes.length ≤ digits + 1 ∧ n < capacity lastDigit digits
      · rw [if_pos hfits, if_pos (by omega)]
      · rw [if_neg hfits, if_neg (by omega)]

/-- What is read as a number is a numeral. -/
theorem exists_numeral {lastDigit digits : Nat} {bytes rest : Bytes} {n : Nat}
    (h : readDigits lastDigit digits bytes = .ok (n, rest)) :
    ∃ front, front ++ rest = bytes ∧ Numeral front n := by
  induction digits generalizing bytes n with
  | zero => cases h
  | succ digits ih =>
    cases bytes with
    | nil => cases h
    | cons byte bytes =>
      rw [readDigits] at h
      by_cases hbyte : byte.toNat < 128
      · rw [if_pos hbyte] at h
        split at h
        · cases h
        · cases h
          exact ⟨[byte], rfl, .last hbyte⟩
      · rw [if_neg hbyte] at h
        cases hread : readDigits lastDigit digits bytes with
        | error e =>
          rw [hread] at h
          cases h
        | ok answer =>
          obtain ⟨m, rest'⟩ := answer
          rw [hread] at h
          cases h
          obtain ⟨front, happend, hnumeral⟩ := ih hread
          exact ⟨byte :: front, congrArg (byte :: ·) happend, .more (Nat.not_lt.1 hbyte) hnumeral⟩

theorem Numeral.readVarint {w : Width} (hw : 0 < w.digits) {bytes : Bytes} {n : Nat}
    (h : Numeral bytes n) (rest : Bytes) : Image.readVarint w (bytes ++ rest) =
      if bytes.length ≤ w.digits ∧ n < w.bound then .ok (n, rest) else .error .unterminated := by
  obtain ⟨digits, hdigits⟩ := Nat.exists_eq_succ_of_ne_zero (Nat.ne_of_gt hw)
  rw [Image.readVarint, Width.bound, hdigits, Nat.succ_sub_one]
  exact h.readDigits w.lastDigit digits rest

/-! ## What readers take -/

/-- A reader takes an item of the grammar from the front of the bytes, and takes nothing else. -/
def Reader.Takes (read : Reader α) (item : Bytes → α → Prop) : Prop :=
  ∀ bytes x rest, read bytes = .ok (x, rest) ↔ ∃ front, front ++ rest = bytes ∧ item front x

namespace Reader.Takes

variable {read : Reader α} {item item' : Bytes → α → Prop}

theorem append (h : read.Takes item) {front : Bytes} {x : α} (hitem : item front x)
    (rest : Bytes) : read (front ++ rest) = .ok (x, rest) :=
  (h _ _ _).2 ⟨front, rfl, hitem⟩

theorem congr (h : read.Takes item) (hitem : ∀ bytes x, item bytes x ↔ item' bytes x) :
    read.Takes item' := by
  intro bytes x rest
  rw [h]
  exact exists_congr fun front => and_congr_right fun _ => hitem front x

theorem pure (x : α) : Takes (fun bytes => .ok (x, bytes)) fun bytes y => bytes = [] ∧ y = x := by
  intro bytes y rest
  constructor
  · intro h
    cases h
    exact ⟨[], rfl, rfl, rfl⟩
  · rintro ⟨front, rfl, rfl, rfl⟩
    rfl

theorem fail (e : ImageError) : Takes (fun _ => .error e : Reader α) fun _ _ => False := by
  intro bytes x rest
  constructor
  · intro h
    cases h
  · rintro ⟨front, -, h⟩
    cases h

theorem map (h : read.Takes item) (f : α → β) :
    (Reader.map f read).Takes fun bytes y => ∃ x, item bytes x ∧ f x = y := by
  intro bytes y rest
  constructor
  · intro hread
    rw [Reader.map] at hread
    cases hx : read bytes with
    | error e =>
      rw [hx] at hread
      cases hread
    | ok answer =>
      rw [hx] at hread
      cases hread
      obtain ⟨front, happend, hitem⟩ := (h _ _ _).1 hx
      exact ⟨front, happend, _, hitem, rfl⟩
  · rintro ⟨front, rfl, x, hitem, rfl⟩
    simp only [Reader.map, h.append hitem]

theorem andThen (h : read.Takes item) {next : α → Reader β} {follow : α → Bytes → β → Prop}
    (hnext : ∀ x, (next x).Takes (follow x)) :
    (read.andThen next).Takes fun bytes y =>
      ∃ front back x, front ++ back = bytes ∧ item front x ∧ follow x back y := by
  intro bytes y rest
  constructor
  · intro hread
    cases hx : read bytes with
    | error e =>
      rw [andThen_of_error hx] at hread
      cases hread
    | ok answer =>
      obtain ⟨x, middle⟩ := answer
      rw [andThen_of_ok hx] at hread
      obtain ⟨front, rfl, hitem⟩ := (h _ _ _).1 hx
      obtain ⟨back, rfl, hfollow⟩ := (hnext _ _ _ _).1 hread
      exact ⟨front ++ back, List.append_assoc _ _ _, front, back, x, rfl, hitem, hfollow⟩
  · rintro ⟨_, rfl, front, back, x, rfl, hitem, hfollow⟩
    rw [List.append_assoc, andThen_of_ok (h.append hitem _)]
    exact (hnext x).append hfollow rest

end Reader.Takes

theorem takes_varint {w : Width} (hw : 0 < w.digits) : (readVarint w).Takes (Number w) := by
  intro bytes n rest
  constructor
  · intro h
    obtain ⟨front, rfl, hnumeral⟩ := exists_numeral h
    rw [hnumeral.readVarint hw] at h
    split at h
    · next hfits => exact ⟨front, rfl, hnumeral, hfits.1, hfits.2⟩
    · cases h
  · rintro ⟨front, rfl, hnumber⟩
    rw [hnumber.numeral.readVarint hw, if_pos ⟨hnumber.short, hnumber.small⟩]

theorem readSymbol_eq :
    readSymbol = Reader.map (fun n => ⟨UInt32.ofNat n⟩) (readVarint width32) := by
  funext bytes
  rw [readSymbol, Reader.map]
  cases readVarint width32 bytes with
  | error e => rfl
  | ok answer => rfl

theorem readImmediate_eq : readImmediate = Reader.map unzigzag (readVarint width64) := by
  funext bytes
  rw [readImmediate, Reader.map]
  cases readVarint width64 bytes with
  | error e => rfl
  | ok answer => rfl

/-- Reads nothing and gives the opcode with a number. -/
def opcodeOf (n : Nat) : Reader Opcode := fun bytes =>
  match Opcode.ofNumber? n with
  | some opcode => .ok (opcode, bytes)
  | none => .error .unknownVariant

theorem readOpcode_eq : readOpcode = (readVarint width32).andThen opcodeOf := by
  funext bytes
  rw [readOpcode, Reader.andThen]
  cases readVarint width32 bytes with
  | error e => rfl
  | ok answer => rfl

theorem takes_symbol : readSymbol.Takes SymbolBytes := by
  rw [readSymbol_eq]
  refine ((takes_varint (by decide)).map _).congr fun bytes id => ?_
  constructor
  · rintro ⟨n, hnumber, rfl⟩
    have hn : n < 4294967296 := hnumber.small
    rwa [SymbolBytes, UInt32.toNat_ofNat_of_lt' hn]
  · intro hnumber
    exact ⟨_, hnumber, by rw [UInt32.ofNat_toNat]⟩

theorem zigzag_unzigzag {n : Nat} (h : n < 18446744073709551616) : zigzag (unzigzag n) = n := by
  have hfold : ∀ i : Int, -9223372036854775808 ≤ i → i < 9223372036854775808 →
      (Int64.ofInt i).toInt = i := fun i hlow hhigh =>
    Int64.toInt_ofInt_of_le hlow hhigh
  rw [unzigzag]
  split
  · rw [zigzag, hfold _ (by omega) (by omega)]
    split <;> omega
  · rw [zigzag, hfold _ (by omega) (by omega)]
    split <;> omega

theorem takes_immediate : readImmediate.Takes fun bytes n => Number width64 bytes (zigzag n) := by
  rw [readImmediate_eq]
  refine ((takes_varint (by decide)).map _).congr fun bytes n => ?_
  constructor
  · rintro ⟨m, hnumber, rfl⟩
    rwa [zigzag_unzigzag hnumber.small]
  · intro hnumber
    exact ⟨_, hnumber, unzigzag_zigzag n⟩

theorem number_of_ofNumber? {n : Nat} {op : Opcode} (h : Opcode.ofNumber? n = some op) :
    op.number = n := by
  have hn := (List.getElem?_eq_some_iff.1 h).1
  have hsame : Opcode.byNumber[n]? = Opcode.byNumber[op.number]? :=
    h.trans (Opcode.ofNumber?_number op).symm
  exact ((List.getElem?_inj hn (by decide)).1 hsame).symm

theorem takes_opcode : readOpcode.Takes fun bytes op => Number width32 bytes op.number := by
  have hopcode : ∀ n, (opcodeOf n).Takes fun bytes op => bytes = [] ∧ op.number = n := by
    intro n
    unfold opcodeOf
    cases hop : Opcode.ofNumber? n with
    | none =>
      refine (Reader.Takes.fail _).congr fun bytes op => ⟨False.elim, ?_⟩
      rintro ⟨-, rfl⟩
      rw [Opcode.ofNumber?_number] at hop
      cases hop
    | some found =>
      refine (Reader.Takes.pure found).congr fun bytes op => and_congr_right fun _ => ?_
      constructor
      · rintro rfl
        exact number_of_ofNumber? hop
      · rintro rfl
        rw [Opcode.ofNumber?_number] at hop
        exact Option.some.inj hop
  rw [readOpcode_eq]
  refine ((takes_varint (by decide)).andThen hopcode).congr fun bytes op => ?_
  constructor
  · rintro ⟨front, _, _, rfl, hnumber, rfl, rfl⟩
    rwa [List.append_nil]
  · intro hnumber
    exact ⟨bytes, [], _, List.append_nil _, hnumber, rfl, rfl⟩

theorem takes_sort (sort : Nat) : (readSort sort).Takes (PayloadBytes sort) := by
  match sort with
  | 0 =>
    refine (takes_opcode.map _).congr fun bytes i => ⟨?_, ?_⟩
    · rintro ⟨op, hnumber, rfl⟩
      exact .op hnumber
    · intro h
      cases h with
      | op hnumber => exact ⟨_, hnumber, rfl⟩
  | 1 =>
    refine (takes_immediate.map _).congr fun bytes i => ⟨?_, ?_⟩
    · rintro ⟨n, hnumber, rfl⟩
      exact .immediate hnumber
    · intro h
      cases h with
      | immediate hnumber => exact ⟨_, hnumber, rfl⟩
  | 2 =>
    refine (takes_symbol.map _).congr fun bytes i => ⟨?_, ?_⟩
    · rintro ⟨id, hnumber, rfl⟩
      exact .symbol hnumber
    · intro h
      cases h with
      | symbol hnumber => exact ⟨_, hnumber, rfl⟩
  | _ + 3 => exact (Reader.Takes.fail _).congr fun bytes i => ⟨False.elim, fun h => by cases h⟩

theorem takes_slot : readSlot.Takes SlotBytes := by
  rw [readSlot_eq]
  exact (takes_varint (by decide)).andThen takes_sort

section Lists

variable {read : Reader α} {item : Bytes → α → Prop}

theorem takes_many (h : read.Takes item) (n : Nat) :
    (readMany read n).Takes fun bytes xs => xs.length = n ∧ Row item bytes xs := by
  induction n with
  | zero =>
    refine (Reader.Takes.pure []).congr fun bytes xs => ⟨?_, ?_⟩
    · rintro ⟨rfl, rfl⟩
      exact ⟨rfl, .nil⟩
    · rintro ⟨hlength, hrow⟩
      cases hrow with
      | nil => exact ⟨rfl, rfl⟩
      | cons => cases hlength
  | succ n ih =>
    rw [readMany_succ]
    refine (h.andThen fun x => ih.map (x :: ·)).congr fun bytes xs => ⟨?_, ?_⟩
    · rintro ⟨front, back, x, rfl, hitem, xs, ⟨hlength, hrow⟩, rfl⟩
      exact ⟨congrArg Nat.succ hlength, .cons hitem hrow⟩
    · rintro ⟨hlength, hrow⟩
      cases hrow with
      | nil => cases hlength
      | cons hitem hrow => exact ⟨_, _, _, rfl, hitem, _, ⟨Nat.succ.inj hlength, hrow⟩, rfl⟩

theorem takes_list (h : read.Takes item) : (readList read).Takes (Listed item) := by
  rw [readList_eq]
  refine ((takes_varint (by decide)).andThen (takes_many h)).congr fun bytes xs => ⟨?_, ?_⟩
  · rintro ⟨count, items, _, happend, hcount, rfl, hrow⟩
    exact ⟨count, items, happend, hcount, hrow⟩
  · rintro ⟨count, items, happend, hcount, hrow⟩
    exact ⟨count, items, _, happend, hcount, rfl, hrow⟩

end Lists

theorem takes_program : readProgram.Takes ProgramBytes := by
  refine ((takes_list takes_slot).andThen fun code => (takes_list takes_symbol).map _).congr
    fun bytes p => ⟨?_, ?_⟩
  · rintro ⟨front, back, code, happend, hcode, locals, hlocals, rfl⟩
    exact ⟨front, back, happend, hcode, hlocals⟩
  · rintro ⟨front, back, happend, hcode, hlocals⟩
    exact ⟨front, back, p.code.toList, happend, hcode, p.locals, hlocals, rfl⟩

/-- What can be read as a program is a program of the grammar, with anything behind it. -/
theorem decode_eq_ok_iff {bytes : Bytes} {p : Program} :
    decode bytes = .ok p ↔ ∃ front rest, front ++ rest = bytes ∧ ProgramBytes front p := by
  rw [decode_eq]
  constructor
  · intro h
    cases hread : readProgram bytes with
    | error e =>
      rw [hread] at h
      cases h
    | ok answer =>
      rw [hread] at h
      cases h
      obtain ⟨front, happend, hprogram⟩ := (takes_program _ _ _).1 hread
      exact ⟨front, _, happend, hprogram⟩
  · rintro ⟨front, rest, rfl, hprogram⟩
    rw [takes_program.append hprogram]
    rfl

/-! ## Lengths -/

theorem SlotBytes.length_le {bytes : Bytes} {i : Instruction} (h : SlotBytes bytes i) :
    (slot i).length ≤ bytes.length := by
  obtain ⟨tag, payload, sort, rfl, htag, hpayload⟩ := h
  have hsort := htag.numeral.length_varint_le
  rw [List.length_append]
  cases hpayload with
  | op hnumber | immediate hnumber | symbol hnumber =>
    rw [slot, List.length_append]
    exact Nat.add_le_add hsort hnumber.numeral.length_varint_le

theorem Row.length_le {item : Bytes → α → Prop} {write : α → Bytes}
    (hitem : ∀ bytes x, item bytes x → (write x).length ≤ bytes.length) {bytes : Bytes}
    {xs : List α} (h : Row item bytes xs) : (xs.flatMap write).length ≤ bytes.length := by
  induction h with
  | nil => exact Nat.le_refl _
  | cons hfront _ ih =>
    rw [List.flatMap_cons, List.length_append, List.length_append]
    exact Nat.add_le_add (hitem _ _ hfront) ih

theorem Listed.length_le {item : Bytes → α → Prop} {write : α → Bytes}
    (hitem : ∀ bytes x, item bytes x → (write x).length ≤ bytes.length) {bytes : Bytes}
    {xs : List α} (h : Listed item bytes xs) : (list write xs).length ≤ bytes.length := by
  obtain ⟨count, items, rfl, hcount, hrow⟩ := h
  rw [list, List.length_append, List.length_append]
  exact Nat.add_le_add hcount.numeral.length_varint_le (hrow.length_le hitem)

theorem Listed.length_lt {item : Bytes → α → Prop} {bytes : Bytes} {xs : List α}
    (h : Listed item bytes xs) : xs.length < 18446744073709551616 := by
  obtain ⟨count, items, -, hcount, -⟩ := h
  exact hcount.small

theorem ProgramBytes.storable {bytes : Bytes} {p : Program} (h : ProgramBytes bytes p) :
    p.Storable := by
  obtain ⟨code, locals, -, hcode, hlocals⟩ := h
  exact ⟨hcode.length_lt, hlocals.length_lt⟩

theorem ProgramBytes.length_le {bytes : Bytes} {p : Program} (h : ProgramBytes bytes p) :
    (encode p).length ≤ bytes.length := by
  obtain ⟨code, locals, rfl, hcode, hlocals⟩ := h
  have hslots : (list slot p.code.toList).length ≤ code.length :=
    hcode.length_le fun bytes i (h : SlotBytes bytes i) => h.length_le
  have hsymbols : (list (fun id => varint id.index.toNat) p.locals).length ≤ locals.length :=
    hlocals.length_le fun _ _ hnumber => hnumber.numeral.length_varint_le
  rw [encode, List.length_append, List.length_append]
  exact Nat.add_le_add hslots hsymbols

/-! ## Failures -/

/-- Reading fails. -/
def Reader.Fails (read : Reader α) (bytes : Bytes) : Prop :=
  ∃ e, read bytes = .error e

namespace Reader

variable {read : Reader α} {bytes rest : Bytes}

theorem Fails.andThen (h : read.Fails bytes) (next : α → Reader β) :
    (read.andThen next).Fails bytes :=
  h.imp fun _ => andThen_of_error

theorem Fails.of_next {next : α → Reader β} {x : α} (hread : read bytes = .ok (x, rest))
    (h : (next x).Fails rest) : (read.andThen next).Fails bytes := by
  rw [Fails, andThen_of_ok hread]
  exact h

theorem Fails.map (h : read.Fails bytes) (f : α → β) : (Reader.map f read).Fails bytes := by
  obtain ⟨e, he⟩ := h
  exact ⟨e, by simp only [Reader.map, he]⟩

end Reader

section

variable {bytes : Bytes} {n : Nat}

/-- A numeral is read as its number or not at all. -/
theorem Numeral.fails_or_reads {w : Width} (hw : 0 < w.digits) (h : Numeral bytes n)
    (rest : Bytes) : (Image.readVarint w).Fails (bytes ++ rest) ∨
      Image.readVarint w (bytes ++ rest) = .ok (n, rest) := by
  rw [Reader.Fails, h.readVarint hw]
  split
  · exact .inr rfl
  · exact .inl ⟨_, rfl⟩

theorem Numeral.fails {w : Width} (hw : 0 < w.digits) (h : Numeral bytes n)
    (hroom : w.digits < bytes.length ∨ w.bound ≤ n) (rest : Bytes) :
    (Image.readVarint w).Fails (bytes ++ rest) := by
  rw [Reader.Fails, h.readVarint hw, if_neg (by omega)]
  exact ⟨_, rfl⟩

/-- If reading fails at an item that a list announces, then reading the list fails. -/
theorem Row.fails {read : Reader α} {item : Bytes → α → Prop} (htakes : read.Takes item)
    {items more : Bytes} {xs : List α} (h : Row item items xs) (hn : xs.length < n)
    (hfails : read.Fails more) : (readMany read n).Fails (items ++ more) := by
  induction h generalizing n with
  | nil =>
    obtain ⟨m, rfl⟩ := Nat.exists_eq_add_one_of_ne_zero (Nat.ne_of_gt hn)
    rw [readMany_succ]
    exact hfails.andThen _
  | cons hitem _ ih =>
    obtain ⟨m, rfl⟩ := Nat.exists_eq_add_one_of_ne_zero (Nat.ne_of_gt (Nat.zero_lt_of_lt hn))
    rw [readMany_succ, List.append_assoc]
    exact .of_next (htakes.append hitem _) ((ih (Nat.lt_of_succ_lt_succ hn)).map _)

end

/-! ## Places -/

/-- What the format may expect after some bytes. -/
inductive Place where
  | codeLength
  | sort
  | opcode
  | immediate
  | symbol
  | localsLength
deriving DecidableEq, Repr

/-- After the given bytes the format expects what belongs to the place. -/
inductive Expects : Bytes → Place → Prop where
  | codeLength : Expects [] .codeLength
  /-- Fewer slots have been given than were announced. -/
  | sort {count items : Bytes} {n : Nat} {code : List Instruction} : Number width64 count n →
      Row SlotBytes items code → code.length < n → Expects (count ++ items) .sort
  | opcode {front tag : Bytes} : Expects front .sort → Number width32 tag 0 →
      Expects (front ++ tag) .opcode
  | immediate {front tag : Bytes} : Expects front .sort → Number width32 tag 1 →
      Expects (front ++ tag) .immediate
  | symbol {front tag : Bytes} : Expects front .sort → Number width32 tag 2 →
      Expects (front ++ tag) .symbol
  | localsLength {front : Bytes} {code : List Instruction} : Listed SlotBytes front code →
      Expects front .localsLength
  /-- Fewer local variables have been given than were announced. -/
  | localSymbol {front count items : Bytes} {n : Nat} {code : List Instruction}
      {locals : List SymbolId} : Listed SlotBytes front code → Number width64 count n →
      Row SymbolBytes items locals → locals.length < n → Expects (front ++ (count ++ items)) .symbol

namespace Place

/-- The width of the number that stands at a place. -/
def width : Place → Width
  | .codeLength | .immediate | .localsLength => width64
  | .sort | .opcode | .symbol => width32

/-- The number is out of range at a place.  A length is so if the bytes after it do not begin with
that many items. -/
def Excludes : Place → Nat → Bytes → Prop
  | .codeLength, n, rest =>
    ∀ items code, items <+: rest → Row SlotBytes items code → code.length < n
  | .sort, n, _ => 3 ≤ n
  | .opcode, n, _ => 43 ≤ n
  | .immediate, n, _ => 18446744073709551616 ≤ n
  | .symbol, n, _ => 4294967296 ≤ n
  | .localsLength, n, rest =>
    ∀ items locals, items <+: rest → Row SymbolBytes items locals → locals.length < n

/-- Reading what belongs to a place fails. -/
def Fails : Place → Bytes → Prop
  | .codeLength => (readList readSlot).Fails
  | .sort => readSlot.Fails
  | .opcode => readOpcode.Fails
  | .immediate => readImmediate.Fails
  | .symbol => readSymbol.Fails
  | .localsLength => (readList readSymbol).Fails

theorem fails_of_varint {place : Place} {bytes : Bytes}
    (h : (readVarint place.width).Fails bytes) : place.Fails bytes := by
  cases place with
  | codeLength | localsLength =>
    rw [Fails, readList_eq]
    exact h.andThen _
  | sort =>
    rw [Fails, readSlot_eq]
    exact h.andThen _
  | opcode =>
    rw [Fails, readOpcode_eq]
    exact h.andThen _
  | immediate =>
    rw [Fails, readImmediate_eq]
    exact h.map _
  | symbol =>
    rw [Fails, readSymbol_eq]
    exact h.map _

theorem width_digits_pos (place : Place) : 0 < place.width.digits := by
  cases place <;> decide

end Place

/-- If the bytes do not begin with as many items as are announced, reading a list fails. -/
theorem fails_list {read : Reader α} {item : Bytes → α → Prop} (htakes : read.Takes item)
    {bytes rest : Bytes} {n : Nat} (hread : readVarint width64 bytes = .ok (n, rest))
    (hfew : ∀ items xs, items <+: rest → Row item items xs → xs.length < n) :
    (readList read).Fails bytes := by
  rw [readList_eq]
  refine .of_next hread ?_
  cases hmany : readMany read n rest with
  | error e => exact ⟨e, hmany⟩
  | ok answer =>
    obtain ⟨front, happend, hlength, hrow⟩ := (takes_many htakes n _ _ _).1 hmany
    exact absurd hlength (Nat.ne_of_lt (hfew front _ ⟨_, happend⟩ hrow))

namespace Place

/-- A number with too many digits, or out of range at its place, is not read there. -/
theorem fails_of_excludes {place : Place} {bytes rest : Bytes} {n : Nat}
    (hnumeral : Numeral bytes n) (h : place.width.digits < bytes.length ∨ place.Excludes n rest) :
    place.Fails (bytes ++ rest) := by
  rcases hnumeral.fails_or_reads place.width_digits_pos rest with hfails | hreads
  · exact fails_of_varint hfails
  · rcases h with hlong | hexcludes
    · exact fails_of_varint (hnumeral.fails place.width_digits_pos (.inl hlong) rest)
    · cases place with
      | codeLength => exact fails_list takes_slot hreads hexcludes
      | localsLength => exact fails_list takes_symbol hreads hexcludes
      | sort =>
        rw [Fails, readSlot_eq]
        refine .of_next hreads ?_
        obtain ⟨m, rfl⟩ := Nat.exists_eq_add_of_le' hexcludes
        exact ⟨_, rfl⟩
      | opcode =>
        rw [Fails, readOpcode_eq]
        refine .of_next hreads ⟨.unknownVariant, ?_⟩
        rw [opcodeOf, (Opcode.ofNumber?_eq_none_iff n).2 hexcludes]
      | immediate =>
        exact fails_of_varint (hnumeral.fails (w := width64) (by decide) (.inr hexcludes) rest)
      | symbol =>
        exact fails_of_varint (hnumeral.fails (w := width32) (by decide) (.inr hexcludes) rest)

end Place

/-- If reading fails at a place, then reading the program fails. -/
theorem Expects.fails {front more : Bytes} {place : Place} (h : Expects front place)
    (hfails : place.Fails more) : readProgram.Fails (front ++ more) := by
  induction h generalizing more with
  | codeLength => exact hfails.andThen _
  | sort hcount hrow hlength =>
    refine Reader.Fails.andThen ?_ _
    rw [readList_eq, List.append_assoc]
    exact .of_next ((takes_varint (by decide)).append hcount _)
      (hrow.fails takes_slot hlength hfails)
  | opcode _ htag ih | immediate _ htag ih | symbol _ htag ih =>
    rw [List.append_assoc]
    refine ih ?_
    rw [Place.Fails, readSlot_eq]
    exact .of_next ((takes_varint (by decide)).append htag _) (Reader.Fails.map hfails _)
  | localsLength hcode =>
    exact .of_next ((takes_list takes_slot).append hcode _) (Reader.Fails.map hfails _)
  | localSymbol hcode hcount hrow hlength =>
    rw [List.append_assoc]
    refine .of_next ((takes_list takes_slot).append hcode _) (Reader.Fails.map ?_ _)
    rw [readList_eq, List.append_assoc]
    exact .of_next ((takes_varint (by decide)).append hcount _)
      (hrow.fails takes_symbol hlength hfails)

/-- Reading normalises images.  Whatever bytes are read as a program, its own image is read as it
too and is no longer than they are.  Bytes are not read as a program if a number in them has too
many digits for its place or is out of range there: 43 or more for an opcode, 3 or more for the sort
of a slot, 4294967296 or more for a symbol, or a length of more items than come after it. -/
theorem decode_normalises :
    (∀ bytes p, decode bytes = .ok p →
      decode (encode p) = .ok p ∧ (encode p).length ≤ bytes.length) ∧
    ∀ front place bytes n rest, Expects front place → Numeral bytes n →
      place.width.digits < bytes.length ∨ place.Excludes n rest →
      ∃ e, decode (front ++ (bytes ++ rest)) = .error e := by
  constructor
  · intro bytes p h
    obtain ⟨front, rest, rfl, hprogram⟩ := decode_eq_ok_iff.1 h
    have hread := decode_append hprogram.storable []
    rw [List.append_nil] at hread
    refine ⟨hread, Nat.le_trans hprogram.length_le ?_⟩
    rw [List.length_append]
    exact Nat.le_add_right _ _
  · intro front place bytes n rest hexpects hnumeral hexcludes
    obtain ⟨e, he⟩ := hexpects.fails (Place.fails_of_excludes hnumeral hexcludes)
    refine ⟨e, ?_⟩
    rw [decode_eq, he]
    rfl

/-- Two slots after numbers of two digits each, with a byte behind the image, are read.  With an
opcode of number 43 in the second slot they are not. -/
theorem decode_normalises_padded :
    decode [130, 0, 128, 0, 131, 0, 0, 4, 128, 0, 255] =
      .ok { code := #[.op .duplicate, .op .assign], locals := [] } ∧
    (encode { code := #[.op .duplicate, .op .assign], locals := [] }).length ≤ 11 ∧
    ∃ e, decode [130, 0, 128, 0, 131, 0, 0, 43, 128, 0, 255] = .error e := by
  have hread : decode [130, 0, 128, 0, 131, 0, 0, 4, 128, 0, 255] =
      .ok { code := #[.op .duplicate, .op .assign], locals := [] } := rfl
  have hzero : Numeral [0] 0 := .last (by decide)
  have hpadded : ∀ byte : UInt8, 128 ≤ byte.toNat → Numeral [byte, 0] (byte.toNat - 128) :=
    fun _ hbyte => by simpa using Numeral.more hbyte hzero
  have hslot : SlotBytes [128, 0, 131, 0] (.op .duplicate) :=
    ⟨[128, 0], [131, 0], 0, rfl, ⟨hpadded 128 (by decide), by decide, by decide⟩,
      .op ⟨hpadded 131 (by decide), by decide, by decide⟩⟩
  have hexpects : Expects [130, 0, 128, 0, 131, 0, 0] .opcode :=
    .opcode (.sort ⟨hpadded 130 (by decide), by decide, by decide⟩ (.cons hslot .nil) (by decide))
      ⟨hzero, by decide, by decide⟩
  refine ⟨hread, (decode_normalises.1 _ _ hread).2, ?_⟩
  exact decode_normalises.2 _ _ [43] 43 [128, 0, 255] hexpects (.last (by decide))
    (.inr (Nat.le_refl 43))

end MacroMachine.Image
