import BoundaryTag.Word

/-! The written forms that messages are put together from: decimal and hexadecimal words,
optional values and records with named fields.
-/

namespace BoundaryTag.Text

/-- A word in decimal digits, without leading zeros. -/
def decimal (w : Word) : String :=
  String.ofList (Nat.toDigits 10 w.toNat)

/-- A word in lower-case hexadecimal digits after the mark 0x, without leading zeros. -/
def hex (w : Word) : String :=
  "0x" ++ String.ofList (Nat.toDigits 16 w.toNat)

/-- A value that may be absent: None, or Some with the value in parentheses. -/
def optional : Option String → String
  | none => "None"
  | some text => "Some(" ++ text ++ ")"

/-- A record: its name, then its fields in their order between braces, each with its own
name before a colon.
-/
def record (name : String) (fields : List (String × String)) : String :=
  name ++ " \x7b " ++ ", ".intercalate (fields.map fun field => field.1 ++ ": " ++ field.2)
    ++ " \x7d"

/-- The word for a truth value. -/
def truth (b : Bool) : String :=
  if b then "true" else "false"

end BoundaryTag.Text
