import Mathlib.Data.Nat.Notation

/-!
# Exclusive-or on words

Words of a fixed width under exclusive-or form a vector space over the two-element
field: adding a word twice cancels it, and a bit scales a word to itself or to zero.
Authenticated shares and garbled labels are sums of words scaled by secret bits, so
every identity about them is an identity of this space. It is proved in two moves:
distribute the scaling over the sums (`scale_xor`, `scale_word_xor`, `scale_scale`),
then sort the terms and let equal ones cancel (`BitVec.xor_assoc`, `BitVec.xor_comm`,
`word_xor_left_comm`, `word_xor_cancel`).
-/

namespace AG2PC.Library.XorAlgebra

variable {w : ℕ}

/-! ### Sums -/

theorem word_xor_left_comm (x y z : BitVec w) : x ^^^ (y ^^^ z) = y ^^^ (x ^^^ z) := by
  rw [← BitVec.xor_assoc, BitVec.xor_comm x y, BitVec.xor_assoc]

/-- A word added twice cancels. -/
theorem word_xor_cancel (x y : BitVec w) : x ^^^ (x ^^^ y) = y := by
  rw [← BitVec.xor_assoc, BitVec.xor_self, BitVec.zero_xor]

/-- A word moved across an equation. -/
theorem word_xor_eq_iff (x y z : BitVec w) : x ^^^ y = z ↔ x = z ^^^ y := by
  constructor
  · rintro rfl
    rw [BitVec.xor_assoc, BitVec.xor_self, BitVec.xor_zero]
  · rintro rfl
    rw [BitVec.xor_assoc, BitVec.xor_self, BitVec.xor_zero]

/-! ### Scaling -/

/-- The word `x` scaled by the bit `b`: `x` or zero. -/
def scale (b : Bool) (x : BitVec w) : BitVec w := if b then x else 0#w

@[simp] theorem scale_true (x : BitVec w) : scale true x = x := rfl

@[simp] theorem scale_false (x : BitVec w) : scale false x = 0#w := rfl

@[simp] theorem scale_zero (b : Bool) : scale b 0#w = 0#w := by cases b <;> rfl

/-- Scaling distributes over a sum of bits. -/
theorem scale_xor (a b : Bool) (x : BitVec w) : scale (a ^^ b) x = scale a x ^^^ scale b x := by
  cases a <;> cases b <;> simp [scale]

/-- Scaling distributes over a sum of words. -/
theorem scale_word_xor (a : Bool) (x y : BitVec w) :
    scale a (x ^^^ y) = scale a x ^^^ scale a y := by
  cases a <;> simp [scale]

/-- Scaling twice scales by the product of the bits. -/
theorem scale_scale (a b : Bool) (x : BitVec w) : scale a (scale b x) = scale (a && b) x := by
  cases a <;> cases b <;> simp [scale]

/-- Which bit a word was scaled by shows unless the word is zero. -/
theorem scale_eq_scale_iff (a b : Bool) (x : BitVec w) : scale a x = scale b x ↔ (x ≠ 0#w → a = b) := by
  have hzero : 0#w = x ↔ x = 0#w := eq_comm
  cases a <;> cases b <;> simp [hzero]

/-- A bit of a scaled word. -/
@[simp] theorem getLsbD_scale (b : Bool) (x : BitVec w) (i : ℕ) :
    (scale b x).getLsbD i = (b && x.getLsbD i) := by
  cases b <;> simp [scale]

end AG2PC.Library.XorAlgebra
