/-
Settings are read back as they were written.

Each field is written as a word under its key: a limit by its digits, a missing limit by
`null`, the switch by its name.  So the text is an object whose values are words, and comes
back as the fields it was written from, each under its own key and once.  That leaves the two
readings of `null` apart, because what is read under a key that is there is never a default.
-/
import EditHistory.Proofs.Json.Written
import EditHistory.Settings.Text

namespace EditHistory

open Json (piecesOf)

namespace Settings

variable {s : Settings}

/-- Every limit is a machine word. -/
structure InRange (s : Settings) : Prop where
  soft : Offset.Fits s.softLimit
  strong : Offset.Fits s.strongLimit
  outer : ∀ outer ∈ s.outerLimit, Offset.Fits outer

/-- The token that a field is read as. -/
def fieldToken (s : Settings) : Field → Json.Token
  | .softLimit => limitToken s.softLimit
  | .strongLimit => limitToken s.strongLimit
  | .outerLimit => (s.outerLimit.map limitToken).getD .null
  | .inhibitPoint => .bool s.inhibitPoint
where
  /-- The token of a limit. -/
  limitToken (limit : Nat) : Json.Token := .number { whole := Nat.toDigits 10 limit }

/-- What stands under the key of a field. -/
def fieldTree (s : Settings) (f : Field) : Json.Tree :=
  (Json.Growing.leaf? (s.fieldToken f)).getD .null

theorem leaf?_fieldToken (s : Settings) (f : Field) :
    Json.Growing.leaf? (s.fieldToken f) = some (s.fieldTree f) := by
  cases f with
  | outerLimit => cases houter : s.outerLimit <;> simp [fieldTree, fieldToken, houter] <;> rfl
  | softLimit | strongLimit | inhibitPoint => rfl

theorem isBare_fieldJson (s : Settings) (f : Field) :
    Json.IsBare (s.fieldJson f) (s.fieldToken f) := by
  cases f with
  | softLimit => exact Json.isBare_nat s.softLimit
  | strongLimit => exact Json.isBare_nat s.strongLimit
  | outerLimit =>
      unfold fieldJson fieldToken
      cases s.outerLimit with
      | none => exact Json.isBare_null
      | some outer => exact Json.isBare_nat outer
  | inhibitPoint => exact Json.isBare_bool s.inhibitPoint

theorem isPlain_key (f : Field) : Json.IsPlain f.key := by
  cases f <;> decide +kernel

theorem ofKey?_key (f : Field) : Field.ofKey? f.key = some f := by
  cases f <;> decide +kernel

theorem limit?_toDigits {limit : Nat} (h : Offset.Fits limit) :
    limit? (.number { whole := Nat.toDigits 10 limit }) = some limit := by
  rw [limit?, Json.int?_toDigits h]
  rfl

theorem readKeyed_key (d : Gathered) (s : Settings) (f : Field) :
    d.readKeyed (piecesOf f.key, s.fieldTree f) = d.read (s.fieldTree f) f := by
  unfold Gathered.readKeyed
  rw [Json.text?_piecesOf, Option.bind_eq_bind, Option.bind_some, ofKey?_key]

/-- The fields give back the settings, whatever the defaults are. -/
theorem ofTree?_fields (h : s.InRange) :
    ofTree? (.obj (Field.all.map fun f => (piecesOf f.key, s.fieldTree f))) = some s := by
  have hsoft : limit? (s.fieldTree .softLimit) = some s.softLimit := limit?_toDigits h.soft
  have hstrong : limit? (s.fieldTree .strongLimit) = some s.strongLimit := limit?_toDigits h.strong
  have houter : optionalLimit? (s.fieldTree .outerLimit) = some s.outerLimit := by
    unfold fieldTree fieldToken
    cases hlimit : s.outerLimit with
    | none => rfl
    | some outer => exact congrArg (Option.map some) (limit?_toDigits (h.outer outer hlimit))
  have hswitch : switch? (s.fieldTree .inhibitPoint) = some s.inhibitPoint := rfl
  have hread : (Field.all.map fun f => (piecesOf f.key, s.fieldTree f)).foldlM Gathered.readKeyed {}
      = some { softLimit := some s.softLimit, strongLimit := some s.strongLimit,
               outerLimit := some s.outerLimit, inhibitPoint := some s.inhibitPoint } := by
    simp [Field.all, readKeyed_key, Gathered.read, hsoft, hstrong, houter, hswitch]
  rw [ofTree?, hread]
  rfl

/-- **Settings are read back as they were written.** -/
theorem ofText?_toText (h : s.InRange) : ofText? s.toText = some s := by
  have htree := Json.Tree.ofChars?_indented (l := Field.all) isPlain_key s.isBare_fieldJson
    s.leaf?_fieldToken (by decide)
  rw [ofText?, toText, Json.pretty, String.toList_ofList, toJson, htree, Option.bind_some,
    ofTree?_fields h]

end Settings

end EditHistory
