/-
Writing JSON values, on one line or one item a line.

Strings escape the quotation mark, the backslash and the control characters, those
with a letter of their own by it and the rest by their code unit; every other
character stands for itself.
-/
import EditHistory.Json.Number

namespace EditHistory.Json

/-- The digit of a number below sixteen. -/
def hexDigit (n : Nat) : Char := Nat.digitChar n

/-- A character as written in a string. -/
def escape (c : Char) : List Char :=
  if c = '"' then ['\\', '"']
  else if c = '\\' then ['\\', '\\']
  else if c = '\x08' then ['\\', 'b']
  else if c = '\t' then ['\\', 't']
  else if c = '\n' then ['\\', 'n']
  else if c = '\x0c' then ['\\', 'f']
  else if c = '\r' then ['\\', 'r']
  else if c < ' ' then
    ['\\', 'u', '0', '0', hexDigit (c.toNat / 16), hexDigit (c.toNat % 16)]
  else [c]

/-- A string in quotation marks. -/
def quoted (s : String) : List Char := '"' :: (s.toList.flatMap escape ++ ['"'])

/-- A value that is no array and no object. -/
def writeLeaf : Json → List Char
  | .null => "null".toList
  | .bool true => "true".toList
  | .bool false => "false".toList
  | .int i => writeInt i
  | .float bits => writeFloat bits
  | .str s => quoted s
  | .arr _ => "[]".toList
  | .obj _ => ['\x7b', '\x7d']

/-! ### On one line -/

mutual

/-- Writes a value without blanks. -/
def compact : Json → List Char
  | .arr items => '[' :: compactItems true items
  | .obj fields => '\x7b' :: compactFields true fields
  | leaf => writeLeaf leaf

/-- Writes the rest of an array. -/
def compactItems (first : Bool) : List Json → List Char
  | [] => [']']
  | v :: vs => (if first then [] else [',']) ++ compact v ++ compactItems false vs

/-- Writes the rest of an object. -/
def compactFields (first : Bool) : List (String × Json) → List Char
  | [] => ['\x7d']
  | (k, v) :: rest =>
    (if first then [] else [',']) ++ quoted k ++ ':' :: compact v ++ compactFields false rest

end

/-! ### One item a line -/

/-- Begins a line at the given depth. -/
def newLine (depth : Nat) : List Char := '\n' :: List.replicate (2 * depth) ' '

mutual

/-- Writes a value that stands at the given depth; arrays and objects that are not empty take a
line for each item. -/
def indented (depth : Nat) : Json → List Char
  | .arr (v :: vs) => '[' :: indentedItems depth true (v :: vs)
  | .obj (f :: fs) => '\x7b' :: indentedFields depth true (f :: fs)
  | leaf => writeLeaf leaf

/-- Writes the rest of an array. -/
def indentedItems (depth : Nat) (first : Bool) : List Json → List Char
  | [] => newLine depth ++ [']']
  | v :: vs =>
    (if first then [] else [',']) ++ newLine (depth + 1) ++ indented (depth + 1) v ++
      indentedItems depth false vs

/-- Writes the rest of an object. -/
def indentedFields (depth : Nat) (first : Bool) : List (String × Json) → List Char
  | [] => newLine depth ++ ['\x7d']
  | (k, v) :: rest =>
    (if first then [] else [',']) ++ newLine (depth + 1) ++ quoted k ++ [':', ' '] ++
      indented (depth + 1) v ++ indentedFields depth false rest

end

/-- The text of a value, one item a line and two blanks a level. -/
def pretty (v : Json) : String := .ofList (indented 0 v)

end EditHistory.Json
