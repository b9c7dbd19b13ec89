import Mathlib.Algebra.Group.Int.Defs
import Mathlib.Data.Int.Cast.Basic
import Mathlib.Data.List.Basic

/-!
# Expressions of 32-bit integers

Integer expressions as C evaluates them, one operation after another in a signed 32-bit type, and the places
where a program uses their values as a count or as an index into a buffer.

* `IntExp.Fits` — no operation of the expression leaves the range of the type.
* `IntUse.Ok`, `AllOk` — the expressions fit, and those that index a buffer stay in it.
-/

namespace AG2PC.Library.IntRange

/-- An integer that an `int` holds. -/
def InRange (k : ℤ) : Prop := -2 ^ 31 ≤ k ∧ k < 2 ^ 31

instance (k : ℤ) : Decidable (InRange k) := inferInstanceAs (Decidable (_ ∧ _))

/-- An expression over `int`s. -/
inductive IntExp where
  /-- The value of a constant or a variable. -/
  | val (k : ℤ)
  /-- A sum. -/
  | add (a b : IntExp)
  /-- A difference. -/
  | sub (a b : IntExp)
  /-- A product. -/
  | mul (a b : IntExp)

namespace IntExp

instance : Coe ℕ IntExp := ⟨fun n => .val n⟩

instance (n : ℕ) : OfNat IntExp n := ⟨.val n⟩

instance : Add IntExp := ⟨.add⟩

instance : Sub IntExp := ⟨.sub⟩

instance : Mul IntExp := ⟨.mul⟩

/-- The value of an expression, over the integers. -/
def value : IntExp → ℤ
  | .val k => k
  | .add a b => a.value + b.value
  | .sub a b => a.value - b.value
  | .mul a b => a.value * b.value

/-- No value on the way leaves the range. -/
def Fits : IntExp → Prop
  | .val k => InRange k
  | .add a b => a.Fits ∧ b.Fits ∧ InRange (a.value + b.value)
  | .sub a b => a.Fits ∧ b.Fits ∧ InRange (a.value - b.value)
  | .mul a b => a.Fits ∧ b.Fits ∧ InRange (a.value * b.value)

variable (a b : IntExp) (n : ℕ)

@[simp] theorem value_val (k : ℤ) : (val k).value = k := rfl

@[simp] theorem value_ofNat : (no_index (OfNat.ofNat n : IntExp)).value = (OfNat.ofNat n : ℕ) := rfl

@[simp] theorem value_add : (a + b).value = a.value + b.value := rfl

@[simp] theorem value_sub : (a - b).value = a.value - b.value := rfl

@[simp] theorem value_mul : (a * b).value = a.value * b.value := rfl

@[simp] theorem fits_val (k : ℤ) : (val k).Fits ↔ InRange k := Iff.rfl

@[simp] theorem fits_ofNat : (no_index (OfNat.ofNat n : IntExp)).Fits ↔ InRange (OfNat.ofNat n : ℕ) := Iff.rfl

@[simp] theorem fits_add : (a + b).Fits ↔ a.Fits ∧ b.Fits ∧ InRange (a.value + b.value) := Iff.rfl

@[simp] theorem fits_sub : (a - b).Fits ↔ a.Fits ∧ b.Fits ∧ InRange (a.value - b.value) := Iff.rfl

@[simp] theorem fits_mul : (a * b).Fits ↔ a.Fits ∧ b.Fits ∧ InRange (a.value * b.value) := Iff.rfl

end IntExp

/-! ### Uses -/

/-- A place that evaluates an expression. -/
structure IntUse where
  /-- The expression. -/
  exp : IntExp
  /-- The size of the buffer it indexes, if it does. -/
  size : Option ℕ

/-- The expression is a count, a bound or a loop variable. -/
def count (e : IntExp) : IntUse := ⟨e, none⟩

/-- The expression indexes a buffer. -/
def index (e : IntExp) (size : ℕ) : IntUse := ⟨e, some size⟩

/-- The expression fits and stays in its buffer. -/
def IntUse.Ok (u : IntUse) : Prop := u.exp.Fits ∧ ∀ size ∈ u.size, 0 ≤ u.exp.value ∧ u.exp.value < size

@[simp] theorem count_ok (e : IntExp) : (count e).Ok ↔ e.Fits := by simp [count, IntUse.Ok]

@[simp] theorem index_ok (e : IntExp) (size : ℕ) :
    (index e size).Ok ↔ e.Fits ∧ 0 ≤ e.value ∧ e.value < size := by simp [index, IntUse.Ok]

/-- Every use is in order. -/
def AllOk (us : List IntUse) : Prop := ∀ u ∈ us, u.Ok

@[simp] theorem allOk_nil : AllOk [] := nofun

@[simp] theorem allOk_cons {u : IntUse} {us : List IntUse} : AllOk (u :: us) ↔ u.Ok ∧ AllOk us :=
  List.forall_mem_cons

@[simp] theorem allOk_append {us vs : List IntUse} : AllOk (us ++ vs) ↔ AllOk us ∧ AllOk vs :=
  List.forall_mem_append

@[simp] theorem allOk_flatMap {α : Type*} {l : List α} {f : α → List IntUse} :
    AllOk (l.flatMap f) ↔ ∀ a ∈ l, AllOk (f a) := List.forall_mem_flatMap

end AG2PC.Library.IntRange
