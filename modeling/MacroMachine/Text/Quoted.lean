import MacroMachine.Text.CharClass

/-!
# Quoted text

Messages and listings show a text between double quotes.  A quote, a backslash and the usual control
characters get a backslash escape; any other character that cannot be shown by itself is written as
its code point in braces.  The apostrophe needs no escape.
-/

namespace MacroMachine.Quoted

/-- Whether a character is written as its code point. -/
def isHidden (c : Char) : Bool :=
  CharClass.unprintable.contains c || CharClass.extendingMarks.contains c ||
    CharClass.ignorable.contains c

/-- A character as its code point in hexadecimal. -/
def codePoint (c : Char) : String :=
  "\\u\x7b" ++ String.ofList (Nat.toDigits 16 c.toNat) ++ "\x7d"

/-- How one character of a quoted text is written. -/
def escape : Char → String
  | '\x00' => "\\0"
  | '\t' => "\\t"
  | '\r' => "\\r"
  | '\n' => "\\n"
  | '"' => "\\\""
  | '\\' => "\\\\"
  | c =>
    if ' ' ≤ c ∧ c ≤ '~' then c.toString
    else if isHidden c then codePoint c
    else c.toString

/-- A text between double quotes. -/
def quote (text : String) : String :=
  "\"" ++ String.join (text.toList.map escape) ++ "\""

/-- An optional text, quoted when it is there. -/
def quote? : Option String → String
  | none => "None"
  | some text => "Some(" ++ quote text ++ ")"

end MacroMachine.Quoted
