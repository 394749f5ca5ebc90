/-
What is written one field a line is read back.

Two machines read a text, one that finds its tokens and one that builds a tree of them, and
both can go on where they stopped.  So written text is followed piece by piece, and what is
said of a piece is said of it whatever comes before.

Only words make this less than plain.  A word ends where something else begins, so after the
last character of a number its token is still to come.  `Holds` says of a reading which tokens
it amounts to, with the word it may be in the middle of; the next character of the text, a
comma or the end of a line, then finds that word ended.

Numbers are words too, and their digits tell the number: there is no zero ahead of them, and
they are digits all along.
-/
import Mathlib.Data.List.Basic
import Mathlib.Data.List.TakeWhile
import EditHistory.Json.Printer
import EditHistory.Json.Reader

namespace EditHistory.Json

/-! ### Words -/

namespace Reading

variable {r : Reading} {tokens : List Token} {token : Token} {word : List Char} {c : Char}

/-- Characters none of which ends a word. -/
def IsWord (word : List Char) : Prop := word ≠ [] ∧ ∀ c ∈ word, endsWord c = false

instance (word : List Char) : Decidable (IsWord word) :=
  @instDecidableAnd _ _ inferInstance (List.decidableBAll _ _)

/-- A character that ends no word begins one. -/
theorem between_of_not_endsWord (h : endsWord c = false) :
    between { tokens } c = { tokens, begun := .word [c] } := by
  unfold endsWord at h
  rw [Bool.or_eq_false_iff, Bool.or_eq_false_iff] at h
  obtain ⟨⟨hblank, hquote⟩, hpunctuation⟩ := h
  unfold between
  rw [if_neg (by simp [hblank]), if_neg (of_decide_eq_false hquote),
    Option.isSome_eq_false_iff.mp hpunctuation |> Option.isNone_iff_eq_none.mp]

/-- A word that was begun goes on. -/
theorem readAll_begun (h : ∀ c ∈ word, endsWord c = false) (begun : List Char) :
    readAll { tokens, begun := .word begun } word
      = some { tokens, begun := .word (word.reverse ++ begun) } := by
  induction word generalizing begun with
  | nil => rfl
  | cons c rest ih =>
      obtain ⟨hc, hrest⟩ := List.forall_mem_cons.mp h
      have hnext : next { tokens, begun := .word begun } c
          = some { tokens, begun := .word (c :: begun) } := by
        unfold next
        simp only [hc, Bool.false_eq_true, if_false]
      rw [readAll, hnext, Option.bind_some, ih hrest, List.reverse_cons, List.append_assoc]
      rfl

theorem readAll_word (h : IsWord word) :
    readAll { tokens } word = some { tokens, begun := .word word.reverse } := by
  obtain ⟨hne, hword⟩ := h
  cases word with
  | nil => exact absurd rfl hne
  | cons c rest =>
      obtain ⟨hc, hrest⟩ := List.forall_mem_cons.mp hword
      have hnext : next { tokens } c = some { tokens, begun := .word [c] } :=
        congrArg some (between_of_not_endsWord hc)
      rw [readAll, hnext, Option.bind_some, readAll_begun hrest, List.reverse_cons]

/-- The tokens of a reading, newest first; the newest may be of a word that is not ended. -/
inductive Holds : Reading → List Token → Prop
  | ended (tokens : List Token) : Holds { tokens } tokens
  | word {word : List Char} {token : Token} (h : bareToken? word = some token)
      (older : List Token) : Holds { tokens := older, begun := .word word.reverse } (token :: older)

/-- What ends a word finds it ended. -/
theorem Holds.next (h : r.Holds tokens) (hc : endsWord c = true) :
    r.next c = some (between { tokens } c) := by
  cases h with
  | ended => rfl
  | word hword older =>
      unfold Reading.next
      simp only [hc, if_true, endWord, List.reverse_reverse, hword]
      rfl

end Reading

/-! ### Strings and blanks -/

/-- The characters of the string stand for themselves where it is written. -/
def IsPlain (s : String) : Prop := ∀ c ∈ s.toList, c ≠ '"' ∧ c ≠ '\\' ∧ ¬c < ' '

instance (s : String) : Decidable (IsPlain s) := List.decidableBAll _ s.toList

/-- The pieces of a string whose characters stand for themselves. -/
def piecesOf (s : String) : List Piece := s.toList.map .char

theorem text?_piecesOf (s : String) : Piece.text? (piecesOf s) = some s := by
  have hchars (cs : List Char) : Piece.chars? (cs.map .char) = some cs := by
    induction cs with
    | nil => rfl
    | cons c cs ih => rw [List.map_cons, Piece.chars?, ih, Option.map_some]
  rw [Piece.text?, piecesOf, hchars, Option.map_some, String.ofList_toList]

theorem flatMap_escape {cs : List Char} (h : ∀ c ∈ cs, c ≠ '"' ∧ c ≠ '\\' ∧ ¬c < ' ') :
    cs.flatMap escape = cs := by
  induction cs with
  | nil => rfl
  | cons c cs ih =>
      obtain ⟨⟨hquote, hslash, hcontrol⟩, hrest⟩ := List.forall_mem_cons.mp h
      have hne {d : Char} (hd : d < ' ') : c ≠ d := by
        rintro rfl
        exact hcontrol hd
      have hescape : escape c = [c] := by
        unfold escape
        rw [if_neg hquote, if_neg hslash, if_neg (hne (by decide)), if_neg (hne (by decide)),
          if_neg (hne (by decide)), if_neg (hne (by decide)), if_neg (hne (by decide)),
          if_neg hcontrol]
      rw [List.flatMap_cons, hescape, ih hrest]
      rfl

namespace Reading

variable {r : Reading} {tokens : List Token} {s : String} {depth : Nat}

/-- A string that was begun goes on. -/
theorem readAll_string {cs : List Char} (h : ∀ c ∈ cs, c ≠ '"' ∧ c ≠ '\\' ∧ ¬c < ' ')
    (pieces : List Piece) :
    readAll { tokens, begun := .string pieces } cs
      = some { tokens, begun := .string ((cs.map .char).reverse ++ pieces) } := by
  induction cs generalizing pieces with
  | nil => rfl
  | cons c cs ih =>
      obtain ⟨⟨hquote, hslash, hcontrol⟩, hrest⟩ := List.forall_mem_cons.mp h
      have hnext : next { tokens, begun := .string pieces } c
          = some { tokens, begun := .string (.char c :: pieces) } := by
        unfold next
        simp only [hquote, hslash, hcontrol, if_false]
      rw [readAll, hnext, Option.bind_some, ih hrest, List.map_cons, List.reverse_cons,
        List.append_assoc]
      rfl

theorem readAll_quoted (h : IsPlain s) :
    readAll { tokens } (quoted s) = some { tokens := .str (piecesOf s) :: tokens } := by
  have hopen : next { tokens } '"' = some { tokens, begun := .string [] } := rfl
  rw [quoted, flatMap_escape h, readAll, hopen, Option.bind_some, readAll_append, readAll_string h,
    Option.bind_some, List.append_nil]
  show some { tokens := .str ((s.toList.map Piece.char).reverse.reverse) :: tokens : Reading } = _
  rw [List.reverse_reverse]
  rfl

/-- A new line ends what was begun, and is nothing itself. -/
theorem Holds.newLine (h : r.Holds tokens) (depth : Nat) :
    r.readAll (newLine depth) = some { tokens } := by
  have hblanks (n : Nat) : readAll { tokens } (List.replicate n ' ') = some { tokens } := by
    induction n with
    | zero => rfl
    | succ n ih => exact ih
  have hend : r.next '\n' = some { tokens } := h.next rfl
  rw [Json.newLine, readAll, hend, Option.bind_some, hblanks]

end Reading

/-! ### Numbers -/

theorem isDigit_of_mem_digits {n : Nat} {c : Char} (h : c ∈ Nat.toDigits 10 n) :
    c.isDigit = true :=
  Nat.isDigit_of_mem_toDigits (by decide) (by decide) h

/-- Only zero is written with a zero ahead. -/
theorem eq_zero_of_head?_toDigits {n : Nat} (h : (Nat.toDigits 10 n).head? = some '0') : n = 0 := by
  induction n using Nat.strongRecOn with
  | ind n ih =>
      by_cases hn : n < 10
      · rw [Nat.toDigits_of_lt_base hn, List.head?_cons] at h
        have hdigits : ∀ n < 10, n.digitChar = '0' → n = 0 := by decide
        exact hdigits n hn (Option.some.inj h)
      · -- The digits ahead are those of the tenth part, which is not zero.
        rw [Nat.toDigits_of_base_le (by decide) (Nat.not_lt.mp hn),
          List.head?_append_of_ne_nil _ Nat.toDigits_ne_nil] at h
        have hzero := ih (n / 10) (Nat.div_lt_self (by omega) (by decide)) h
        omega

theorem ofChars?_toDigits (n : Nat) :
    Numeral.ofChars? (Nat.toDigits 10 n) = some { whole := Nat.toDigits 10 n } := by
  have hdigits : ∀ c ∈ Nat.toDigits 10 n, c.isDigit = true := fun _ => isDigit_of_mem_digits
  have hsign : Numeral.ofChars? (Nat.toDigits 10 n)
      = Numeral.unsigned? false (Nat.toDigits 10 n) := by
    unfold Numeral.ofChars?
    split
    · rename_i cs hcs
      have hminus := hdigits '-' (by rw [hcs]; exact List.mem_cons_self)
      exact absurd hminus (by decide)
    · rfl
  have hzero : ¬(Nat.toDigits 10 n = [] ∨
      ((Nat.toDigits 10 n).head? = some '0' ∧ Nat.toDigits 10 n ≠ ['0'])) := by
    rintro (hnil | ⟨hhead, hmore⟩)
    · exact Nat.toDigits_ne_nil hnil
    · exact hmore (by rw [eq_zero_of_head?_toDigits hhead]; rfl)
  rw [hsign, Numeral.unsigned?, List.takeWhile_eq_self_iff.mpr hdigits,
    List.dropWhile_eq_nil_iff.mpr hdigits, if_neg hzero]
  rfl

/-- A number that a word can hold is read from its digits. -/
theorem int?_toDigits {n : Nat} (h : Offset.Fits n) :
    Numeral.int? { whole := Nat.toDigits 10 n } = some n := by
  unfold Numeral.int?
  rw [if_pos ⟨rfl, rfl⟩]
  dsimp only
  rw [Nat.ofDigitChars_ten_toDigits, if_neg Bool.false_ne_true, if_pos h]
  rfl

/-! ### Values that are words -/

/-- The value is written as a word, at any depth, and the word is read as the token. -/
structure IsBare (value : Json) (token : Token) : Prop where
  leaf : ∀ depth, indented depth value = writeLeaf value
  word : Reading.IsWord (writeLeaf value)
  token : bareToken? (writeLeaf value) = some token

theorem isBare_null : IsBare .null .null where
  leaf _ := rfl
  word := by decide
  token := rfl

theorem isBare_bool (b : Bool) : IsBare (.bool b) (.bool b) where
  leaf _ := by cases b <;> rfl
  word := by cases b <;> decide
  token := by cases b <;> rfl

/-- No digit ends a word. -/
theorem endsWord_of_isDigit {c : Char} (h : c.isDigit = true) : Reading.endsWord c = false := by
  have hne {d : Char} (hd : d.isDigit = false) : c ≠ d := by
    rintro rfl
    cases h.symm.trans hd
  have hpunctuation : punctuation? c = none := by
    unfold punctuation?
    split
    all_goals first | rfl | exact absurd rfl (hne (by decide))
  have hblank : isBlank c = false := by
    unfold isBlank
    simp only [hne (d := ' ') rfl, hne (d := '\t') rfl, hne (d := '\n') rfl, hne (d := '\r') rfl,
      decide_false, Bool.or_self]
  unfold Reading.endsWord
  rw [hblank, hpunctuation, decide_eq_false (hne (d := '"') rfl)]
  rfl

theorem isBare_nat (n : Nat) : IsBare (.int n) (.number { whole := Nat.toDigits 10 n }) := by
  have hne {word : List Char} (hword : ∃ c ∈ word, c.isDigit = false) : Nat.toDigits 10 n ≠ word := by
    obtain ⟨c, hc, hno⟩ := hword
    rintro rfl
    cases (isDigit_of_mem_digits hc).symm.trans hno
  have hwrite : writeLeaf (.int n) = Nat.toDigits 10 n := by
    show writeInt n = _
    rw [writeInt, if_neg (Int.not_lt.mpr (Int.natCast_nonneg n)), Int.natAbs_natCast]
  constructor
  · exact fun _ => rfl
  · rw [hwrite]
    exact ⟨Nat.toDigits_ne_nil, fun c hc => endsWord_of_isDigit (isDigit_of_mem_digits hc)⟩
  · rw [hwrite, bareToken?, if_neg (hne ⟨'n', by decide, rfl⟩), if_neg (hne ⟨'t', by decide, rfl⟩),
      if_neg (hne ⟨'f', by decide, rfl⟩), ofChars?_toDigits]
    rfl

/-! ### Objects of such values -/

section Fields

variable {α : Type} {key : α → String} {value : α → Json} {token : α → Token} {tree : α → Tree}
  {l : List α}

/-- The tokens of fields that are written after an object was opened. -/
def fieldTokens (key : α → String) (token : α → Token) (first : Bool) : List α → List Token
  | [] => [.closeObject]
  | a :: rest =>
    (if first then [] else [.comma]) ++ .str (piecesOf (key a)) :: .colon :: token a ::
      fieldTokens key token false rest

/-- Fields whose values are words are read as their tokens. -/
theorem Reading.Holds.fields {r : Reading} {tokens : List Token} (h : r.Holds tokens)
    (hkey : ∀ a, IsPlain (key a)) (hvalue : ∀ a, IsBare (value a) (token a)) (depth : Nat)
    (first : Bool) (l : List α) :
    r.readAll (indentedFields depth first (l.map fun a => (key a, value a)))
      = some { tokens := (fieldTokens key token first l).reverse ++ tokens } := by
  induction l generalizing r tokens first with
  | nil =>
      rw [List.map_nil, indentedFields, readAll_append, h.newLine]
      rfl
  | cons a rest ih =>
      have hcomma : ∃ r₁, r.readAll (if first then [] else [',']) = some r₁ ∧
          r₁.Holds ((if first then [] else [.comma]) ++ tokens) := by
        cases first with
        | true => exact ⟨r, rfl, h⟩
        | false =>
            refine ⟨{ tokens := .comma :: tokens }, ?_, .ended _⟩
            have hnext : r.next ',' = some { tokens := .comma :: tokens } := h.next rfl
            exact congrArg (Option.bind · _) hnext
      obtain ⟨r₁, hr₁, hholds⟩ := hcomma
      have hcolon (tokens : List Token) :
          readAll { tokens } [':', ' '] = some { tokens := .colon :: tokens } := rfl
      have hword (older : List Token) : Holds
          { tokens := older, begun := .word (writeLeaf (value a)).reverse } (token a :: older) :=
        .word (hvalue a).token older
      rw [List.map_cons, indentedFields, (hvalue a).leaf]
      simp only [readAll_append, hr₁, Option.bind_some, hholds.newLine, readAll_quoted (hkey a),
        hcolon, readAll_word (hvalue a).word, ih (hword _)]
      cases first <;> simp [fieldTokens]

/-- The token is a whole value. -/
theorem Growing.begin_leaf {t : Token} {last : Tree} (h : leaf? t = some last) (outer : List Open) :
    begin outer t = some { opened := outer, due := .commaOrEnd last } := by
  cases t with
  | openArray | closeArray | openObject | closeObject | comma | colon => cases h
  | null | bool | number | str =>
      cases h
      rfl

/-- After a first field the rest of an object is built from its fields. -/
theorem Growing.readAll_fieldTokens (htree : ∀ a, leaf? (token a) = some (tree a))
    (fields : List (List Piece × Tree)) (last : List Piece) (lastTree : Tree) (outer : List Open)
    (l : List α) :
    readAll { opened := .field fields last :: outer, due := .commaOrEnd lastTree }
        (fieldTokens key token false l)
      = some { opened := outer
               due := .commaOrEnd (.obj (((last, lastTree) :: fields).reverse ++
                 l.map fun a => (piecesOf (key a), tree a))) } := by
  induction l generalizing fields last lastTree with
  | nil =>
      rw [List.map_nil, List.append_nil]
      rfl
  | cons a rest ih =>
      have hfield : readAll { opened := .field fields last :: outer, due := .commaOrEnd lastTree }
          (fieldTokens key token false (a :: rest))
            = (begin (.field ((last, lastTree) :: fields) (piecesOf (key a)) :: outer) (token a)).bind
                (·.readAll (fieldTokens key token false rest)) := rfl
      rw [hfield, begin_leaf (htree a), Option.bind_some, ih, List.map_cons]
      simp

/-- An object whose values are words is read back, field by field. -/
theorem Tree.ofChars?_indented (hkey : ∀ a, IsPlain (key a))
    (hvalue : ∀ a, IsBare (value a) (token a))
    (htree : ∀ a, Growing.leaf? (token a) = some (tree a)) (hl : l ≠ []) :
    Tree.ofChars? (indented 0 (.obj (l.map fun a => (key a, value a))))
      = some (.obj (l.map fun a => (piecesOf (key a), tree a))) := by
  cases l with
  | nil => exact absurd rfl hl
  | cons a rest =>
      have hwritten : indented 0 (.obj ((a :: rest).map fun a => (key a, value a)))
          = '\x7b' :: indentedFields 0 true ((a :: rest).map fun a => (key a, value a)) := rfl
      have hopen : Reading.next {} '\x7b' = some { tokens := [.openObject] } := rfl
      have htokens : Token.ofChars? (indented 0 (.obj ((a :: rest).map fun a => (key a, value a))))
          = some (.openObject :: fieldTokens key token true (a :: rest)) := by
        rw [hwritten, Token.ofChars?, Reading.readAll, hopen, Option.bind_some,
          (Reading.Holds.ended [.openObject]).fields hkey hvalue]
        show some ((fieldTokens key token true (a :: rest)).reverse ++ [Token.openObject]).reverse = _
        rw [List.reverse_append, List.reverse_reverse]
        rfl
      have hgrown : Growing.readAll {} (.openObject :: fieldTokens key token true (a :: rest))
          = (Growing.begin [.field [] (piecesOf (key a))] (token a)).bind
              (·.readAll (fieldTokens key token false rest)) := rfl
      rw [Growing.begin_leaf (htree a), Option.bind_some,
        Growing.readAll_fieldTokens htree] at hgrown
      rw [Tree.ofChars?, htokens]
      show (Growing.readAll {} (.openObject :: fieldTokens key token true (a :: rest))).bind
        Growing.finish = _
      rw [hgrown]
      rfl

end Fields

end EditHistory.Json
