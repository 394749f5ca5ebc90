/-
The arguments of the program.

There is one file, and four options, each at most once.  The value of an option
follows it, or is joined to it by `=`.  A value that follows may not begin with a
dash, except for a dash that stands alone; after `--` everything is a file.
-/
import EditHistory.Offset

namespace EditHistory

/-- What the program is asked to do. -/
structure Options where
  /-- The text to type. -/
  file : String
  /-- How many characters are typed a unit. -/
  chunk : Nat := 16
  /-- The file of the settings, if not the usual one. -/
  settingsFile : Option String := none
  /-- Empty the log instead of keeping a newest unit above the outer limit. -/
  discardOversized : Bool := false
  /-- How many of the newest units are measured apart. -/
  units : Int := 1
deriving DecidableEq, Repr

namespace Options

/-! ### Values -/

/-- Reads the digits of a number, at least one. -/
def digits? (cs : List Char) : Option Nat :=
  if cs ≠ [] ∧ cs.all Char.isDigit then some (Nat.ofDigitChars 10 cs 0) else none

/-- Reads a count that a word can hold, with or without a plus. -/
def count? (text : String) : Option Nat :=
  let digits := match text.toList with
    | '+' :: cs => cs
    | cs => cs
  (digits? digits).filter (Offset.Fits ·)

/-- Reads a number that a signed word can hold, with or without a sign. -/
def signed? (text : String) : Option Int :=
  let value : Option Int := match text.toList with
    | '-' :: cs => (digits? cs).map fun n => -n
    | '+' :: cs => (digits? cs).map fun n => n
    | cs => (digits? cs).map fun n => n
  value.filter (Offset.FitsSigned ·)

/-- A path is any text but the empty one. -/
def path? (text : String) : Option String := if text.isEmpty then none else some text

/-! ### Arguments -/

/-- Arguments of which some have been read. -/
structure Given where
  file : Option String := none
  chunk : Option Nat := none
  settingsFile : Option String := none
  discardOversized : Bool := false
  units : Option Int := none

/-- An option that takes a value. -/
inductive Key where
  | chunk
  | settingsFile
  | units
deriving DecidableEq, Repr

/-- An argument, by its form. -/
inductive Argument where
  /-- The end of the options. -/
  | stop
  | discardOversized
  /-- An option and the value joined to it. -/
  | option (key : Key) (joined : Option String)
  | file (path : String)
  /-- None of these. -/
  | unknown
deriving DecidableEq, Repr

/-- Whether a word begins with a dash and is more than that. -/
def looksLikeOption (word : String) : Bool := word.startsWith "-" && word ≠ "-"

/-- The option of a name. -/
def Key.ofName? (name : List Char) : Option Key :=
  if name = "--chunk".toList then some .chunk
  else if name = "--config".toList then some .settingsFile
  else if name = "--units".toList then some .units
  else none

namespace Argument

/-- The argument that a word is. -/
def ofWord (word : String) : Argument :=
  if word = "--" then .stop
  else if word = "--discard-oversized" then .discardOversized
  else if looksLikeOption word then
    match Key.ofName? (word.toList.takeWhile (· ≠ '=')) with
    | none => .unknown
    | some key =>
      match word.toList.dropWhile (· ≠ '=') with
      | [] => .option key none
      | _ :: value => .option key (some (.ofList value))
  else .file word

end Argument

namespace Given

/-- Takes the file; there is only one. -/
def takeFile (g : Given) (word : String) : Option Given :=
  if g.file.isSome then none else (path? word).map ({ g with file := some · })

/-- Takes the value of an option that has none yet. -/
def takeValue (g : Given) (value : String) : Key → Option Given
  | .chunk => if g.chunk.isSome then none else (count? value).map ({ g with chunk := some · })
  | .settingsFile =>
    if g.settingsFile.isSome then none else (path? value).map ({ g with settingsFile := some · })
  | .units => if g.units.isSome then none else (signed? value).map ({ g with units := some · })

/-- Takes all words, in order. -/
def takeAll (g : Given) : List String → Option Given
  | [] => some g
  | word :: rest =>
    match Argument.ofWord word, rest with
    | .stop, rest => rest.foldlM takeFile g
    | .discardOversized, rest =>
      if g.discardOversized then none else takeAll { g with discardOversized := true } rest
    | .option key (some value), rest => (g.takeValue value key).bind (takeAll · rest)
    | .option key none, value :: rest =>
      if looksLikeOption value then none else (g.takeValue value key).bind (takeAll · rest)
    | .option _ none, [] => none
    | .file path, rest => (g.takeFile path).bind (takeAll · rest)
    | .unknown, _ => none

end Given

/-- The options that the words of a command line give, if they are in order. -/
def ofWords? (words : List String) : Option Options := do
  let given ← Given.takeAll {} words
  let file ← given.file
  let standard : Options := { file }
  return { standard with
    chunk := given.chunk.getD standard.chunk
    settingsFile := given.settingsFile
    discardOversized := given.discardOversized
    units := given.units.getD standard.units }

end Options

end EditHistory
