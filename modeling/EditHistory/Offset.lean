/-
Offsets and ticks are machine words.

Positions in a text, sizes and modification ticks are natural numbers below
`2 ^ 64`; signed offsets lie between `-2 ^ 63` and `2 ^ 63 - 1`.  The library
computes with `Nat` and `Int` and says at each sum or difference that leaves the
range that it does, so that proofs see plain arithmetic and one side condition.
Reading a word as a signed offset never fails: the upper half of the range
becomes negative.
-/

namespace EditHistory.Offset

/-- A natural number that a word can hold. -/
def Fits (n : Nat) : Prop := n < 0x10000000000000000

instance (n : Nat) : Decidable (Fits n) := inferInstanceAs (Decidable (_ < _))

/-- An integer that a signed word can hold. -/
def FitsSigned (i : Int) : Prop := -0x8000000000000000 ≤ i ∧ i < 0x8000000000000000

instance (i : Int) : Decidable (FitsSigned i) := inferInstanceAs (Decidable (_ ∧ _))

/-- The signed reading of a word: words from `2 ^ 63` on are negative. -/
def toSigned (n : Nat) : Int := (n : Int).bmod 0x10000000000000000

/-! ### Offsets under an edit

An insertion pushes every later offset; the offset at the insertion itself moves
only if it advances.  A deletion collapses the deleted stretch to its start.
-/

/-- Where an offset stands after `length` characters were inserted at `start`. -/
def afterInsert (start length : Nat) (advances : Bool) (pos : Nat) : Nat :=
  if start < pos ∨ (pos = start ∧ advances) then pos + length else pos

/-- Where an offset stands after the characters from `start` up to `stop` were deleted. -/
def afterDelete (start stop pos : Nat) : Nat :=
  if pos ≤ start then pos else if pos ≤ stop then start else pos - (stop - start)

/-! ### Small facts -/

theorem toSigned_of_lt {n : Nat} (h : n < 0x8000000000000000) : toSigned n = n := by
  unfold toSigned
  rw [Int.bmod_eq_of_le] <;> omega

theorem afterDelete_of_le {start stop pos : Nat} (h : pos ≤ start) :
    afterDelete start stop pos = pos := by
  simp [afterDelete, h]

theorem afterDelete_of_inside {start stop pos : Nat} (hstart : start < pos) (hstop : pos ≤ stop) :
    afterDelete start stop pos = start := by
  unfold afterDelete
  rw [if_neg (by omega), if_pos hstop]

theorem afterDelete_of_gt {start stop pos : Nat} (hspan : start ≤ stop) (h : stop < pos) :
    afterDelete start stop pos = pos - (stop - start) := by
  unfold afterDelete
  rw [if_neg (by omega), if_neg (by omega)]

/-- A deletion takes everything in the deleted text to one place. -/
theorem afterDelete_within {start stop pos : Nat} (hstart : start ≤ pos) (hstop : pos ≤ stop) :
    afterDelete start stop pos = start := by
  by_cases hlt : start < pos
  · exact afterDelete_of_inside hlt hstop
  · rw [afterDelete_of_le (by omega)]
    omega

theorem afterDelete_self {start pos : Nat} : afterDelete start start pos = pos := by
  by_cases hle : pos ≤ start
  · exact afterDelete_of_le hle
  · rw [afterDelete_of_gt (Nat.le_refl _) (by omega), Nat.sub_self, Nat.sub_zero]

theorem afterDelete_add {start length pos : Nat} (h : start ≤ pos) :
    afterDelete start (start + length) (pos + length) = pos := by
  by_cases hlt : start < pos
  · rw [afterDelete_of_gt (Nat.le_add_right _ _) (by omega)]
    omega
  · rw [afterDelete_within (by omega) (by omega)]
    omega

theorem afterInsert_of_lt {start length pos : Nat} {advances : Bool} (h : pos < start) :
    afterInsert start length advances pos = pos := by
  unfold afterInsert
  rw [if_neg (by omega)]

theorem afterInsert_of_gt {start length pos : Nat} {advances : Bool} (h : start < pos) :
    afterInsert start length advances pos = pos + length := by
  unfold afterInsert
  rw [if_pos (Or.inl h)]

/-- An offset that does not advance stays in front of what is inserted at it. -/
theorem afterInsert_staying {start length pos : Nat} (h : pos ≤ start) :
    afterInsert start length false pos = pos := by
  unfold afterInsert
  rw [if_neg]
  rintro (hlt | ⟨-, hfalse⟩)
  · omega
  · cases hfalse

theorem afterInsert_advancing {start length pos : Nat} (h : start ≤ pos) :
    afterInsert start length true pos = pos + length := by
  unfold afterInsert
  rw [if_pos]
  rcases Nat.lt_or_eq_of_le h with hlt | heq
  · exact Or.inl hlt
  · exact Or.inr ⟨heq.symm, rfl⟩

/-- An insertion of nothing moves nothing. -/
theorem afterInsert_zero {start pos : Nat} {advances : Bool} :
    afterInsert start 0 advances pos = pos := by
  unfold afterInsert
  split <;> rfl

end EditHistory.Offset
