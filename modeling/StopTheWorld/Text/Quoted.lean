import StopTheWorld.Text.Printable

namespace StopTheWorld.Text

private def hexDigits (code : Nat) : List Char := Nat.toDigits 16 code

/-- A character inside double quotes: the quote, the backslash and the usual control characters
behind a backslash, any other that would not be seen or would join its neighbour by its code. -/
def escape (c : Char) : List Char :=
  if c = '"' then ['\\', '"']
  else if c = '\\' then ['\\', '\\']
  else if c = '\t' then ['\\', 't']
  else if c = '\n' then ['\\', 'n']
  else if c = '\r' then ['\\', 'r']
  else if c = '\x00' then ['\\', '0']
  else if isExtender c || isUnprintable c then ['\\', 'u', '\x7b'] ++ hexDigits c.toNat ++ ['\x7d']
  else [c]

def quote (text : String) : String :=
  String.ofList ('"' :: text.toList.flatMap escape ++ ['"'])

/-- A value that may be absent. -/
def optional (text : Option String) : String :=
  match text with
  | none => "None"
  | some text => "Some(" ++ text ++ ")"

def bool (value : Bool) : String := if value then "true" else "false"

def list (items : List String) : String := "[" ++ ", ".intercalate items ++ "]"

/-- A named value with its fields in order. -/
def fields (name : String) (entries : List (String × String)) : String :=
  name ++ " \x7b " ++ ", ".intercalate (entries.map fun (field, value) => field ++ ": " ++ value) ++
    " \x7d"

end StopTheWorld.Text
