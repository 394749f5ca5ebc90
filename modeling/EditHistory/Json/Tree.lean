/-
Written JSON as a tree of its tokens.

A tree keeps every string and number as it was written, so it says what is valid
JSON without saying what it means: text that is not going to be used has to be
written properly, and nothing more.

The tree is built token by token on a stack of what is open, so nesting has no
bound, and the whole is one recursion on the tokens.
-/
import EditHistory.Json.Token

namespace EditHistory.Json

/-- A JSON value as written. -/
inductive Tree where
  | null
  | bool (value : Bool)
  | number (numeral : Numeral)
  | str (pieces : List Piece)
  | arr (items : List Tree)
  | obj (fields : List (List Piece × Tree))
deriving Inhabited, Repr

/-- An array or object that is open, with what is complete in it, newest first. -/
inductive Open where
  | array (items : List Tree)
  /-- An object in which a field of the given key is being read. -/
  | field (fields : List (List Piece × Tree)) (key : List Piece)

/-- What may come next. -/
inductive Due where
  | value
  /-- An array was just opened. -/
  | valueOrEnd
  /-- An object was just opened. -/
  | keyOrEnd
  /-- A key, after the given fields. -/
  | key (fields : List (List Piece × Tree))
  | colon
  /-- A value was just read. -/
  | commaOrEnd (last : Tree)

/-- What is open, innermost first, and what may come next. -/
structure Growing where
  opened : List Open := []
  due : Due := .value

namespace Growing

/-- Reads a value that is a single token. -/
def leaf? : Token → Option Tree
  | .null => some .null
  | .bool b => some (.bool b)
  | .number n => some (.number n)
  | .str s => some (.str s)
  | _ => none

/-- Begins a value. -/
def begin (outer : List Open) : Token → Option Growing
  | .openArray => some { opened := .array [] :: outer, due := .valueOrEnd }
  | .openObject => some { opened := outer, due := .keyOrEnd }
  | token => (leaf? token).map fun tree => { opened := outer, due := .commaOrEnd tree }

/-- Goes on after the value `last` in what is open. -/
def continue? (last : Tree) : List Open → Token → Option Growing
  | .array items :: outer, .comma => some { opened := .array (last :: items) :: outer }
  | .array items :: outer, .closeArray =>
    some { opened := outer, due := .commaOrEnd (.arr (last :: items).reverse) }
  | .field fields key :: outer, .comma =>
    some { opened := outer, due := .key ((key, last) :: fields) }
  | .field fields key :: outer, .closeObject =>
    some { opened := outer, due := .commaOrEnd (.obj ((key, last) :: fields).reverse) }
  | _, _ => none

/-- Reads a token. -/
def next (g : Growing) (token : Token) : Option Growing :=
  match g.due, token with
  | .value, token => begin g.opened token
  | .valueOrEnd, .closeArray =>
    some { opened := g.opened.drop 1, due := .commaOrEnd (.arr []) }
  | .valueOrEnd, token => begin g.opened token
  | .keyOrEnd, .closeObject => some { g with due := .commaOrEnd (.obj []) }
  | .keyOrEnd, .str key => some { opened := .field [] key :: g.opened, due := .colon }
  | .key fields, .str key => some { opened := .field fields key :: g.opened, due := .colon }
  | .colon, .colon => some { g with due := .value }
  | .commaOrEnd last, token => continue? last g.opened token
  | _, _ => none

/-- Reads tokens, in order. -/
def readAll (g : Growing) : List Token → Option Growing
  | [] => some g
  | t :: ts => (g.next t).bind (·.readAll ts)

/-- The tree, if it is complete. -/
def finish (g : Growing) : Option Tree :=
  match g.opened, g.due with
  | [], .commaOrEnd tree => some tree
  | _, _ => none

end Growing

namespace Tree

/-- The tree of a text. -/
def ofChars? (cs : List Char) : Option Tree := do
  (← Growing.readAll {} (← Token.ofChars? cs)).finish

end Tree

end EditHistory.Json
