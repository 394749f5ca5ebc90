/-
JSON values, the values of text properties.

Integers and floating-point numbers are different values even where they are
numerically equal: `1` is not `1.0`.  A float is kept as its sixty-four bits, so
that equality of values is decidable and proofs never meet machine arithmetic.

Objects are compared without regard to the order of their fields, and the two
zeros are one value.  Both are settled once, by a canonical form: `Same` is
equality of canonical forms, hence an equivalence for nothing.
-/

namespace EditHistory

/-- A JSON value. -/
inductive Json where
  | null
  | bool (value : Bool)
  /-- A number written without fraction and exponent. -/
  | int (value : Int)
  /-- A number written with a fraction or an exponent, as the bits of a binary64 float. -/
  | float (bits : UInt64)
  | str (value : String)
  | arr (items : List Json)
  /-- Fields in the order in which they were written. -/
  | obj (fields : List (String × Json))
deriving Inhabited, Repr

namespace Json

/-! ### Equality

`deriving` does not reach through the lists, so the test is written out by
recursion on the value and shown to decide equality.
-/

mutual

/-- Whether two values are written alike. -/
def beq : Json → Json → Bool
  | .null, .null => true
  | .bool a, .bool b => a == b
  | .int a, .int b => a == b
  | .float a, .float b => a == b
  | .str a, .str b => a == b
  | .arr as, .arr bs => beqItems as bs
  | .obj as, .obj bs => beqFields as bs
  | _, _ => false

/-- Whether two lists of values are written alike. -/
def beqItems : List Json → List Json → Bool
  | [], [] => true
  | a :: as, b :: bs => beq a b && beqItems as bs
  | _, _ => false

/-- Whether two lists of fields are written alike. -/
def beqFields : List (String × Json) → List (String × Json) → Bool
  | [], [] => true
  | (k, a) :: as, (l, b) :: bs => k == l && beq a b && beqFields as bs
  | _, _ => false

end

mutual

theorem eq_of_beq : ∀ {a b : Json}, beq a b = true → a = b
  | .null, .null, _ => rfl
  | .bool a, .bool b, h => by simp [beq] at h; rw [h]
  | .int a, .int b, h => by simp [beq] at h; rw [h]
  | .float a, .float b, h => by simp [beq] at h; rw [h]
  | .str a, .str b, h => by simp [beq] at h; rw [h]
  | .arr as, .arr bs, h => by
    simp only [beq] at h
    rw [eq_of_beqItems h]
  | .obj as, .obj bs, h => by
    simp only [beq] at h
    rw [eq_of_beqFields h]

theorem eq_of_beqItems : ∀ {as bs : List Json}, beqItems as bs = true → as = bs
  | [], [], _ => rfl
  | a :: as, b :: bs, h => by
    simp only [beqItems, Bool.and_eq_true] at h
    rw [eq_of_beq h.1, eq_of_beqItems h.2]

theorem eq_of_beqFields : ∀ {as bs : List (String × Json)}, beqFields as bs = true → as = bs
  | [], [], _ => rfl
  | (k, a) :: as, (l, b) :: bs, h => by
    simp only [beqFields, Bool.and_eq_true, beq_iff_eq] at h
    rw [h.1.1, eq_of_beq h.1.2, eq_of_beqFields h.2]

end

mutual

theorem beq_self : ∀ a : Json, beq a a = true
  | .null => rfl
  | .bool _ => by simp [beq]
  | .int _ => by simp [beq]
  | .float _ => by simp [beq]
  | .str _ => by simp [beq]
  | .arr as => by simp [beq, beqItems_self as]
  | .obj as => by simp [beq, beqFields_self as]

theorem beqItems_self : ∀ as : List Json, beqItems as as = true
  | [] => rfl
  | a :: as => by simp [beqItems, beq_self a, beqItems_self as]

theorem beqFields_self : ∀ as : List (String × Json), beqFields as as = true
  | [] => rfl
  | (k, a) :: as => by simp [beqFields, beq_self a, beqFields_self as]

end

instance : DecidableEq Json := fun a b =>
  if h : beq a b = true then isTrue (eq_of_beq h)
  else isFalse fun e => h (e ▸ beq_self a)

/-! ### Canonical form -/

/-- The bits of the float `-0.0`. -/
def negativeZero : UInt64 := 0x8000000000000000

/-- Puts a field in its place by key; a field of the same key is replaced. -/
def insertField (key : String) (value : Json) : List (String × Json) → List (String × Json)
  | [] => [(key, value)]
  | (k, v) :: rest =>
    if key < k then (key, value) :: (k, v) :: rest
    else if key = k then (key, value) :: rest
    else (k, v) :: insertField key value rest

mutual

/-- The value with its objects sorted by key, of equal keys the last one kept, and one zero. -/
def canonical : Json → Json
  | .null => .null
  | .bool b => .bool b
  | .int i => .int i
  | .float bits => .float (if bits = negativeZero then 0 else bits)
  | .str s => .str s
  | .arr items => .arr (canonicalItems items)
  | .obj fields => .obj (canonicalFields [] fields)

/-- The canonical forms of a list of values. -/
def canonicalItems : List Json → List Json
  | [] => []
  | a :: as => a.canonical :: canonicalItems as

/-- Adds the canonical forms of the fields, in order, to fields that are sorted already. -/
def canonicalFields (sorted : List (String × Json)) : List (String × Json) → List (String × Json)
  | [] => sorted
  | (k, v) :: rest => canonicalFields (insertField k v.canonical sorted) rest

end

/-- Equality of values: fields in any order, one zero, integers apart from floats. -/
def Same (a b : Json) : Prop := a.canonical = b.canonical

instance (a b : Json) : Decidable (Same a b) := inferInstanceAs (Decidable (_ = _))

theorem Same.refl (a : Json) : Same a a := rfl

theorem Same.symm {a b : Json} (h : Same a b) : Same b a := Eq.symm h

theorem Same.trans {a b c : Json} (h : Same a b) (h' : Same b c) : Same a c := Eq.trans h h'

end Json

end EditHistory
