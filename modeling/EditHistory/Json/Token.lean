/-
The tokens of JSON text.

Text is read one character at a time by a machine whose state is what has been
begun: nothing, a bare word, a string, an escape in a string.  So the tokens of
`as ++ bs` are found by reading `bs` in the state in which `as` ends, and a
statement about written text needs no account of what follows.

A string is kept as pieces.  A character written `\uXXXX` stays a code unit until
the string is wanted: text that nobody reads may hold half a surrogate pair, text
that somebody reads may not.
-/

namespace EditHistory.Json

/-- A piece of a written string. -/
inductive Piece where
  | char (c : Char)
  /-- A character or half a surrogate pair, written by its UTF-16 code unit. -/
  | unit (code : Nat)
deriving DecidableEq, Repr

/-- A written number, by the digits of its parts. -/
structure Numeral where
  negative : Bool := false
  whole : List Char
  /-- The digits after the point; none if there is no point. -/
  fraction : List Char := []
  /-- Whether the exponent is negative, and its digits. -/
  exponent : Option (Bool × List Char) := none
deriving DecidableEq, Repr

inductive Token where
  | openArray
  | closeArray
  | openObject
  | closeObject
  | comma
  | colon
  | null
  | bool (value : Bool)
  | number (numeral : Numeral)
  | str (pieces : List Piece)
deriving DecidableEq, Repr

/-! ### Numbers -/

namespace Numeral

/-- Reads an exponent, or nothing at the end. -/
def exponent? : List Char → Option (Option (Bool × List Char))
  | [] => some none
  | e :: cs =>
    if e = 'e' ∨ e = 'E' then
      let (negative, digits) := match cs with
        | '-' :: ds => (true, ds)
        | '+' :: ds => (false, ds)
        | ds => (false, ds)
      if digits ≠ [] ∧ digits.all Char.isDigit then some (some (negative, digits)) else none
    else none

/-- Reads what follows the digits before the point. -/
def afterWhole? (negative : Bool) (whole : List Char) : List Char → Option Numeral
  | '.' :: cs =>
    let fraction := cs.takeWhile Char.isDigit
    if fraction = [] then none
    else (exponent? (cs.dropWhile Char.isDigit)).map ({ negative, whole, fraction, exponent := · })
  | cs => (exponent? cs).map ({ negative, whole, exponent := · })

/-- Reads a number without its sign; a leading zero stands alone. -/
def unsigned? (negative : Bool) (cs : List Char) : Option Numeral :=
  let whole := cs.takeWhile Char.isDigit
  if whole = [] ∨ (whole.head? = some '0' ∧ whole ≠ ['0']) then none
  else afterWhole? negative whole (cs.dropWhile Char.isDigit)

/-- Reads a number. -/
def ofChars? : List Char → Option Numeral
  | '-' :: cs => unsigned? true cs
  | cs => unsigned? false cs

end Numeral

/-! ### The machine -/

/-- A token that is a single character. -/
def punctuation? : Char → Option Token
  | '[' => some .openArray
  | ']' => some .closeArray
  | '\x7b' => some .openObject
  | '\x7d' => some .closeObject
  | ',' => some .comma
  | ':' => some .colon
  | _ => none

/-- Blanks between tokens. -/
def isBlank (c : Char) : Bool := c = ' ' || c = '\t' || c = '\n' || c = '\r'

/-- The token written by a word that is neither punctuation nor a string. -/
def bareToken? (word : List Char) : Option Token :=
  if word = ['n', 'u', 'l', 'l'] then some .null
  else if word = ['t', 'r', 'u', 'e'] then some (.bool true)
  else if word = ['f', 'a', 'l', 's', 'e'] then some (.bool false)
  else (Numeral.ofChars? word).map .number

/-- The character that an escape of one letter stands for. -/
def escaped? : Char → Option Char
  | '"' => some '"'
  | '\\' => some '\\'
  | '/' => some '/'
  | 'b' => some '\x08'
  | 'f' => some '\x0c'
  | 'n' => some '\n'
  | 'r' => some '\r'
  | 't' => some '\t'
  | _ => none

/-- The value of a hexadecimal digit. -/
def hexValue? (c : Char) : Option Nat :=
  if '0' ≤ c ∧ c ≤ '9' then some (c.toNat - '0'.toNat)
  else if 'a' ≤ c ∧ c ≤ 'f' then some (c.toNat - 'a'.toNat + 10)
  else if 'A' ≤ c ∧ c ≤ 'F' then some (c.toNat - 'A'.toNat + 10)
  else none

/-- What has been begun and not ended.  Lists of what was read stand newest first. -/
inductive Begun where
  | nothing
  | word (chars : List Char)
  | string (pieces : List Piece)
  /-- A backslash in a string. -/
  | escape (pieces : List Piece)
  /-- A code unit in a string of which `missing + 1` digits are to come. -/
  | unit (pieces : List Piece) (missing : Nat) (code : Nat)
deriving DecidableEq, Repr

/-- The tokens read so far, newest first, and what has been begun since. -/
structure Reading where
  tokens : List Token := []
  begun : Begun := .nothing
deriving DecidableEq, Repr

namespace Reading

/-- Ends a word. -/
def endWord (r : Reading) : Option Reading :=
  match r.begun with
  | .word chars => do
    let token ← bareToken? chars.reverse
    return { tokens := token :: r.tokens }
  | _ => some r

/-- Reads a character outside strings, where no word is begun. -/
def between (r : Reading) (c : Char) : Reading :=
  if isBlank c then { r with begun := .nothing }
  else if c = '"' then { r with begun := .string [] }
  else
    match punctuation? c with
    | some token => { tokens := token :: r.tokens }
    | none => { r with begun := .word [c] }

/-- Whether a character ends the word before it. -/
def endsWord (c : Char) : Bool := isBlank c || c = '"' || (punctuation? c).isSome

/-- Reads a character. -/
def next (r : Reading) (c : Char) : Option Reading :=
  match r.begun with
  | .nothing => some (r.between c)
  | .word chars =>
    if endsWord c then r.endWord.map (·.between c)
    else some { r with begun := .word (c :: chars) }
  | .string pieces =>
    if c = '"' then some { tokens := .str pieces.reverse :: r.tokens }
    else if c = '\\' then some { r with begun := .escape pieces }
    else if c < ' ' then none
    else some { r with begun := .string (.char c :: pieces) }
  | .escape pieces =>
    if c = 'u' then some { r with begun := .unit pieces 3 0 }
    else (escaped? c).map fun d => { r with begun := .string (.char d :: pieces) }
  | .unit pieces missing code => do
    let digit ← hexValue? c
    let code := 16 * code + digit
    match missing with
    | 0 => return { r with begun := .string (.unit code :: pieces) }
    | missing + 1 => return { r with begun := .unit pieces missing code }

/-- Reads characters, in order. -/
def readAll (r : Reading) : List Char → Option Reading
  | [] => some r
  | c :: cs => (r.next c).bind (·.readAll cs)

/-- Reading goes on where it stopped. -/
theorem readAll_append (r : Reading) (as bs : List Char) :
    r.readAll (as ++ bs) = (r.readAll as).bind (·.readAll bs) := by
  induction as generalizing r with
  | nil => rfl
  | cons c cs ih =>
    simp only [List.cons_append, readAll]
    cases r.next c with
    | none => rfl
    | some s => exact ih s

/-- The tokens of text that ends here; a string must have been ended. -/
def finish (r : Reading) : Option (List Token) := do
  let r ← r.endWord
  if r.begun = .nothing then return r.tokens.reverse else none

end Reading

namespace Token

/-- The tokens of a text. -/
def ofChars? (cs : List Char) : Option (List Token) := do
  (← Reading.readAll {} cs).finish

end Token

end EditHistory.Json
