/-
Raising limits puts them in order, and raises none of them further than that.

Settings are compared limit by limit, and only if they agree on the switch; no outer limit is
above every outer limit.  Under that order `ordered` is the least way to put the limits in
order without lowering one.  It goes upward once, because what the strong limit is raised to
is what the outer limit is then held against.
-/
import Mathlib.Order.Bounds.Defs
import Mathlib.Order.Defs.PartialOrder
import EditHistory.Settings.Basic

namespace EditHistory.Settings

variable {s t u : Settings}

/-- No limit of `s` is above that of `t`, and the switch is the same. -/
structure AtMost (s t : Settings) : Prop where
  soft : s.softLimit ≤ t.softLimit
  strong : s.strongLimit ≤ t.strongLimit
  /-- Nothing is above having no outer limit. -/
  outer : ∀ limit ∈ t.outerLimit, ∃ own ∈ s.outerLimit, own ≤ limit
  switch : s.inhibitPoint = t.inhibitPoint

namespace AtMost

theorem refl (s : Settings) : s.AtMost s where
  soft := Nat.le_refl _
  strong := Nat.le_refl _
  outer limit h := ⟨limit, h, Nat.le_refl limit⟩
  switch := rfl

theorem trans (h : s.AtMost t) (h' : t.AtMost u) : s.AtMost u where
  soft := Nat.le_trans h.soft h'.soft
  strong := Nat.le_trans h.strong h'.strong
  outer limit hlimit := by
    obtain ⟨middle, hmiddle, hle⟩ := h'.outer limit hlimit
    obtain ⟨own, hown, hle'⟩ := h.outer middle hmiddle
    exact ⟨own, hown, Nat.le_trans hle' hle⟩
  switch := h.switch.trans h'.switch

theorem antisymm (h : s.AtMost t) (h' : t.AtMost s) : s = t := by
  have houter : s.outerLimit = t.outerLimit := by
    cases hs : s.outerLimit with
    | none =>
        cases ht : t.outerLimit with
        | none => rfl
        | some limit =>
            obtain ⟨own, hown, -⟩ := h.outer limit ht
            cases hs.symm.trans hown
    | some own =>
        obtain ⟨limit, hlimit, hle⟩ := h'.outer own hs
        obtain ⟨own', hown, hle'⟩ := h.outer limit hlimit
        obtain rfl := Option.some.inj (hs.symm.trans hown)
        rw [hlimit, Nat.le_antisymm hle hle']
  obtain ⟨soft, strong, outer, inhibitPoint⟩ := s
  obtain ⟨soft', strong', outer', inhibitPoint'⟩ := t
  obtain rfl : soft = soft' := Nat.le_antisymm h.soft h'.soft
  obtain rfl : strong = strong' := Nat.le_antisymm h.strong h'.strong
  obtain rfl : outer = outer' := houter
  obtain rfl : inhibitPoint = inhibitPoint' := h.switch
  rfl

end AtMost

instance : PartialOrder Settings where
  le := AtMost
  le_refl := AtMost.refl
  le_trans _ _ _ := AtMost.trans
  le_antisymm _ _ := AtMost.antisymm

/-- Raising the limits is the least way to put them in order. -/
theorem isLeast_ordered (s : Settings) : IsLeast {t | s ≤ t ∧ t.Ordered} s.ordered := by
  refine ⟨⟨⟨Nat.le_refl _, Nat.le_max_left _ _, ?_, rfl⟩, s.ordered_ordered⟩, ?_⟩
  · intro limit hlimit
    obtain ⟨own, hown, rfl⟩ := Option.map_eq_some_iff.mp hlimit
    exact ⟨own, hown, Nat.le_max_left _ _⟩
  · rintro t ⟨habove, hordered⟩
    have hstrong : s.ordered.strongLimit ≤ t.strongLimit :=
      Nat.max_le.mpr ⟨habove.strong, Nat.le_trans habove.soft hordered.soft_le_strong⟩
    refine ⟨habove.soft, hstrong, fun limit hlimit => ?_, habove.switch⟩
    obtain ⟨own, hown, hle⟩ := habove.outer limit hlimit
    exact ⟨_, Option.map_eq_some_iff.mpr ⟨own, hown, rfl⟩,
      Nat.max_le.mpr ⟨hle, Nat.le_trans hstrong (hordered.strong_le_outer limit hlimit)⟩⟩

/-- Settings whose limits are in order are left alone, and no others. -/
theorem ordered_eq_self_iff : s.ordered = s ↔ s.Ordered := by
  constructor
  · intro h
    rw [← h]
    exact s.ordered_ordered
  · intro h
    exact le_antisymm (s.isLeast_ordered.2 ⟨le_refl s, h⟩) s.isLeast_ordered.1.1

end EditHistory.Settings
