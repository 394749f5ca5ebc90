/-
Reading JSON values.

A written string stands for characters, where an escaped surrogate pair is one of
them and half a pair is nothing; so a tree that holds such a half, or a number too
large for a float, is valid JSON and yet no value.
-/
import EditHistory.Json.Number
import EditHistory.Json.Tree

namespace EditHistory.Json

namespace Piece

/-- The first half of a surrogate pair. -/
def IsHigh (code : Nat) : Prop := 0xD800 ≤ code ∧ code < 0xDC00

/-- The second half of a surrogate pair. -/
def IsLow (code : Nat) : Prop := 0xDC00 ≤ code ∧ code < 0xE000

instance (code : Nat) : Decidable (IsHigh code) := inferInstanceAs (Decidable (_ ∧ _))

instance (code : Nat) : Decidable (IsLow code) := inferInstanceAs (Decidable (_ ∧ _))

/-- The character that a surrogate pair stands for. -/
def paired (high low : Nat) : Char := .ofNat (0x10000 + (high - 0xD800) * 0x400 + (low - 0xDC00))

/-- The characters of a written string, unless it holds half a surrogate pair. -/
def chars? : List Piece → Option (List Char)
  | [] => some []
  | .char c :: rest => (chars? rest).map (c :: ·)
  | .unit high :: .unit low :: rest =>
    if IsHigh high then
      if IsLow low then (chars? rest).map (paired high low :: ·) else none
    else if IsLow high then none
    else (chars? (.unit low :: rest)).map (.ofNat high :: ·)
  | .unit code :: rest =>
    if IsHigh code ∨ IsLow code then none else (chars? rest).map (.ofNat code :: ·)

/-- The text of a written string, unless it holds half a surrogate pair. -/
def text? (pieces : List Piece) : Option String := (chars? pieces).map String.ofList

end Piece

namespace Tree

mutual

/-- The value of a tree; fields are sorted by key, and of equal keys the last one counts. -/
def toJson? : Tree → Option Json
  | .null => some .null
  | .bool b => some (.bool b)
  | .number n => n.toJson?
  | .str s => (Piece.text? s).map .str
  | .arr items => (toItems? items).map .arr
  | .obj fields => (toFields? [] fields).map .obj

/-- The values of a list of trees. -/
def toItems? : List Tree → Option (List Json)
  | [] => some []
  | t :: ts => do return (← t.toJson?) :: (← toItems? ts)

/-- Adds the values of the fields, in order, to fields that are sorted already. -/
def toFields? (sorted : List (String × Json)) :
    List (List Piece × Tree) → Option (List (String × Json))
  | [] => some sorted
  | (k, t) :: rest => do toFields? (insertField (← Piece.text? k) (← t.toJson?) sorted) rest

end

end Tree

/-- Reads a value. -/
def ofChars? (cs : List Char) : Option Json := (Tree.ofChars? cs).bind Tree.toJson?

/-- Reads a value. -/
def ofText? (text : String) : Option Json := ofChars? text.toList

end EditHistory.Json
