/-
The text of a document, as a list of characters.

Every offset counts characters, so a span that was read from a text can be
inserted again verbatim.  Operations check their offsets before they touch the
text: a span outside the text is an error, never a shorter span.
-/
import EditHistory.Failure
import EditHistory.Offset

namespace EditHistory

/-- A text. -/
abbrev Text := List Char

namespace Text

/-- The characters from `start` up to `stop`. -/
def between (text : Text) (start stop : Nat) : Text := (text.take stop).drop start

/-- The text with `added` put in at `offset`. -/
def spliced (text : Text) (offset : Nat) (added : Text) : Text :=
  text.take offset ++ added ++ text.drop offset

/-- The text without the characters from `start` up to `stop`. -/
def without (text : Text) (start stop : Nat) : Text := text.take start ++ text.drop stop

/-- Refuses a span that is reversed or reaches beyond the end. -/
def checkSpan (text : Text) (start stop : Nat) : Except TextError Unit :=
  if start ≤ stop ∧ stop ≤ text.length then .ok ()
  else .error (.spanOutside start stop text.length)

/-- Inserts at `offset`. -/
def insert (text : Text) (offset : Nat) (added : Text) : Except TextError Text :=
  if offset ≤ text.length then .ok (text.spliced offset added)
  else .error (.insertPastEnd offset text.length)

/-- Removes the characters from `start` up to `stop`. -/
def remove (text : Text) (start stop : Nat) : Except TextError Text := do
  text.checkSpan start stop
  return text.without start stop

/-- Reads the characters from `start` up to `stop`. -/
def slice (text : Text) (start stop : Nat) : Except TextError Text := do
  text.checkSpan start stop
  return text.between start stop

/-- Writes `new` over as many characters from `offset` on. -/
def overwrite (text : Text) (offset : Nat) (new : Text) : Except Failure Text :=
  let stop := offset + new.length
  if Offset.Fits stop then
    match text.checkSpan offset stop with
    | .ok () => .ok ((text.without offset stop).spliced offset new)
    | .error e => .error (.error (.text e))
  else .error (.fault .overflow)

/-! ### What the edits keep -/

theorem length_spliced {text added : Text} {offset : Nat} (h : offset ≤ text.length) :
    (text.spliced offset added).length = text.length + added.length := by
  simp [spliced]
  omega

theorem length_without {text : Text} {start stop : Nat} (hspan : start ≤ stop)
    (h : stop ≤ text.length) : (text.without start stop).length = text.length - (stop - start) := by
  simp [without]
  omega

/-- What was removed can be put back. -/
theorem spliced_without {text : Text} {start stop : Nat} (hspan : start ≤ stop)
    (h : stop ≤ text.length) :
    (text.without start stop).spliced start (text.between start stop) = text := by
  have hlen : (text.take start).length = start := by simp; omega
  unfold spliced without between
  rw [List.take_left' hlen, List.drop_left' hlen]
  have hmid : text.take start ++ (text.take stop).drop start = text.take stop := by
    have : text.take start = (text.take stop).take start := by
      rw [List.take_take, Nat.min_eq_left hspan]
    rw [this, List.take_append_drop]
  rw [hmid, List.take_append_drop]

/-- What was put in can be removed. -/
theorem without_spliced {text added : Text} {offset : Nat} (h : offset ≤ text.length) :
    (text.spliced offset added).without offset (offset + added.length) = text := by
  have hlen : (text.take offset).length = offset := by simp; omega
  unfold spliced without
  rw [List.append_assoc, List.take_left' hlen, List.drop_append, hlen,
    List.drop_of_length_le (by rw [hlen]; omega), List.nil_append,
    List.drop_left' (by omega), List.take_append_drop]

end Text

end EditHistory
