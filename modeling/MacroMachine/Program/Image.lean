import MacroMachine.Program

/-!
# Program images

A program image is a program as a row of bytes: the code, then the local variables, each with its
length in front.  Numbers are written in base 128, least significant digit first, with 128 added
to every digit but the last (`varint`); signed numbers are first folded into the naturals
(`zigzag`).  A slot is a number for its sort followed by the opcode's number, the immediate or the
symbol.

*Reading.*  A reader takes what it needs from the front of the bytes and leaves the rest.  Numbers
may be written with more digits than they need, up to the digits that their width allows; bytes
after the image are ignored.
-/

namespace MacroMachine

/-- Why bytes are no program image. -/
inductive ImageError where
  /-- The bytes end too early. -/
  | endOfBytes
  /-- A number does not end in time or is too large. -/
  | unterminated
  /-- A number stands for no opcode or for no sort of slot. -/
  | unknownVariant
deriving DecidableEq, Repr

/-- The text of an image error. -/
def ImageError.message (e : ImageError) : String :=
  "program image decoding failed: " ++ match e with
    | .endOfBytes => "Hit the end of buffer, expected more data"
    | .unterminated =>
      "Found a varint that didn't terminate. Is the usize too big for this platform?"
    | .unknownVariant => "Serde Deserialization Error"

namespace Image

/-- A row of bytes. -/
abbrev Bytes := List UInt8

/-! ## Writing -/

/-- A natural number in base 128. -/
def varint (n : Nat) : Bytes :=
  if n < 128 then [UInt8.ofNat n]
  else UInt8.ofNat (n % 128 + 128) :: varint (n / 128)
termination_by n
decreasing_by omega

/-- Folds the integers into the naturals: 0, -1, 1, -2, 2, … -/
def zigzag (n : Int64) : Nat :=
  if 0 ≤ n.toInt then (2 * n.toInt).toNat else (-2 * n.toInt - 1).toNat

/-- One slot. -/
def slot : Instruction → Bytes
  | .op opcode => varint 0 ++ varint opcode.number
  | .immediate n => varint 1 ++ varint (zigzag n)
  | .symbol id => varint 2 ++ varint id.index.toNat

/-- A list, with its length in front. -/
def list {α : Type} (write : α → Bytes) (xs : List α) : Bytes :=
  varint xs.length ++ xs.flatMap write

/-- The image of a program. -/
def encode (p : Program) : Bytes :=
  list slot p.code.toList ++ list (fun id => varint id.index.toNat) p.locals

/-! ## Reading -/

/-- Takes a value from the front of some bytes. -/
abbrev Reader (α : Type) := Bytes → Except ImageError (α × Bytes)

/-- How many digits a number may have, and how large the last of them may be. -/
structure Width where
  digits : Nat
  lastDigit : Nat

/-- Numbers below 2 ^ 32. -/
def width32 : Width := { digits := 5, lastDigit := 15 }

/-- Numbers below 2 ^ 64. -/
def width64 : Width := { digits := 10, lastDigit := 1 }

/-- Reads a number of at most `digits` digits, the last possible one at most `lastDigit`. -/
def readDigits (lastDigit : Nat) : (digits : Nat) → Reader Nat
  | 0, _ => .error .unterminated
  | _ + 1, [] => .error .endOfBytes
  | digits + 1, byte :: rest =>
    if byte.toNat < 128 then
      if digits = 0 ∧ lastDigit < byte.toNat then .error .unterminated
      else .ok (byte.toNat, rest)
    else
      match readDigits lastDigit digits rest with
      | .ok (n, rest) => .ok (byte.toNat - 128 + 128 * n, rest)
      | .error e => .error e

/-- Reads a number of some width. -/
def readVarint (w : Width) : Reader Nat :=
  readDigits w.lastDigit w.digits

/-- The integer that a natural number was folded from. -/
def unzigzag (n : Nat) : Int64 :=
  if n % 2 = 0 then Int64.ofInt (n / 2 : Nat) else Int64.ofInt (-(n / 2 : Nat) - 1)

/-- Reads an opcode. -/
def readOpcode : Reader Opcode := fun bytes =>
  match readVarint width32 bytes with
  | .ok (n, rest) =>
    match Opcode.ofNumber? n with
    | some opcode => .ok (opcode, rest)
    | none => .error .unknownVariant
  | .error e => .error e

/-- Reads a symbol number. -/
def readSymbol : Reader SymbolId := fun bytes =>
  match readVarint width32 bytes with
  | .ok (n, rest) => .ok (⟨UInt32.ofNat n⟩, rest)
  | .error e => .error e

/-- Reads an immediate. -/
def readImmediate : Reader Int64 := fun bytes =>
  match readVarint width64 bytes with
  | .ok (n, rest) => .ok (unzigzag n, rest)
  | .error e => .error e

/-- Reads a value and applies `f` to it. -/
def Reader.map {α β : Type} (f : α → β) (read : Reader α) : Reader β := fun bytes =>
  match read bytes with
  | .ok (a, rest) => .ok (f a, rest)
  | .error e => .error e

/-- Reads one slot. -/
def readSlot : Reader Instruction := fun bytes =>
  match readVarint width32 bytes with
  | .ok (0, rest) => Reader.map .op readOpcode rest
  | .ok (1, rest) => Reader.map .immediate readImmediate rest
  | .ok (2, rest) => Reader.map .symbol readSymbol rest
  | .ok (_, _) => .error .unknownVariant
  | .error e => .error e

/-- Reads `n` values. -/
def readMany {α : Type} (read : Reader α) : (n : Nat) → Reader (List α)
  | 0, bytes => .ok ([], bytes)
  | n + 1, bytes =>
    match read bytes with
    | .ok (x, rest) => Reader.map (x :: ·) (readMany read n) rest
    | .error e => .error e

/-- Reads a list with its length in front. -/
def readList {α : Type} (read : Reader α) : Reader (List α) := fun bytes =>
  match readVarint width64 bytes with
  | .ok (n, rest) => readMany read n rest
  | .error e => .error e

/-- The program that some bytes are an image of. -/
def decode (bytes : Bytes) : Except ImageError Program :=
  match readList readSlot bytes with
  | .ok (code, rest) =>
    match readList readSymbol rest with
    | .ok (locals, _) => .ok { code := code.toArray, locals := locals }
    | .error e => .error e
  | .error e => .error e

end Image

end MacroMachine
