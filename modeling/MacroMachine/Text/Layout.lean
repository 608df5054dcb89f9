import MacroMachine.Text.CharClass

/-!
# Columns

Listings align their text: slot numbers are padded with zeros on the left, mnemonics with spaces on
the right, and a line never ends in white space.
-/

namespace MacroMachine.Layout

/-- A number with at least `width` digits, padded with zeros. -/
def zeroPadded (width n : Nat) : String :=
  let digits := toString n
  String.ofList (List.replicate (width - digits.length) '0') ++ digits

/-- A text of at least `width` characters, padded with spaces. -/
def padRight (width : Nat) (text : String) : String :=
  text ++ String.ofList (List.replicate (width - text.length) ' ')

/-- A text without the white space at its end. -/
def trimEnd (text : String) : String :=
  String.ofList (text.toList.reverse.dropWhile CharClass.whitespace.contains).reverse

end MacroMachine.Layout
