import AG2PC.Backend.SecureWires
import AG2PC.Library.ByIndex

/-!
# Encodings

What a pair of bundles, the garbler's and the evaluator's, means. A wire carries the bit `v` when
its two shares authenticate each other's half of a mask `λ`, its opened mask is `Λ = v ⊕ λ`, and the
evaluator's label is the garbler's zero label shifted by `Λ·Δ₁`.

* `WireEncodes` — one wire, with the opened mask the evaluator holds.
* `EvaluatorEncodes` — all wires of two bundles, by the opened masks of the evaluator.
* `Encodes` — the same when both parties hold the opened masks.
-/

namespace AG2PC

open Library.XorAlgebra Library.ByIndex

namespace SecureWires

/-- `Lambda[i]`. -/
def lambdaAt (w : SecureWires) (i : ℕ) : UInt8 := w.Lambda.getD i 0

/-- `wire_bundle[i]`. -/
def bundleAt (w : SecureWires) (i : ℕ) : AShareBundle := w.wireBundle.getD i .zero

/-- `label0[i]`. -/
def label0At (w : SecureWires) (i : ℕ) : Block := w.label0.getD i zeroBlock

/-- `eval_label[i]`. -/
def evalLabelAt (w : SecureWires) (i : ℕ) : Block := w.evalLabel.getD i zeroBlock

/-- The arrays the party reads have one entry a wire. -/
structure WellFormed (w : SecureWires) (party : Party) (n : ℕ) : Prop where
  size : w.size = n
  bundle : w.wireBundle.length = n
  labels : (w.labels party).length = n

/-- What `check_secure_wires` checks. -/
theorem check_eq_ok {w : SecureWires} {party : Party} {n : ℕ} (h : w.WellFormed party n)
    (place : String) : w.check party place = .ok () := by
  unfold check
  rw [if_neg (by rw [h.bundle, h.size]; simp), if_neg (by rw [h.labels, h.size]; simp)]

end SecureWires

/-- The wire's two shares, the evaluator's opened mask `Λ` and the two labels carry the bit `v`. -/
structure WireEncodes (Δ : Deltas) (b₁ b₂ : AShareBundle) (Lambda : UInt8) (label0 evalLabel : Block)
    (v : Bool) : Prop where
  rel : MacRel Δ b₁ b₂
  mask : Lambda = byteOf (v ^^ shareBit b₁ b₂)
  label : evalLabel = label0 ^^^ scale (v ^^ shareBit b₁ b₂) Δ.d1

namespace WireEncodes

variable {Δ : Deltas} {a₁ a₂ b₁ b₂ : AShareBundle} {ma mb : UInt8} {la lb ea eb : Block} {x y : Bool}

/-- The opened mask as a condition. -/
theorem truthy_mask (h : WireEncodes Δ a₁ a₂ ma la ea x) : truthy ma = (x ^^ shareBit a₁ a₂) := by
  rw [h.mask, truthy_byteOf]

/-- Adding two wires adds their bits. -/
theorem xor (ha : WireEncodes Δ a₁ a₂ ma la ea x) (hb : WireEncodes Δ b₁ b₂ mb lb eb y) :
    WireEncodes Δ (a₁ ^^^ b₁) (a₂ ^^^ b₂) (ma ^^^ mb) (la ^^^ lb) (ea ^^^ eb) (x ^^ y) := by
  have hbit : ((x ^^ y) ^^ shareBit (a₁ ^^^ b₁) (a₂ ^^^ b₂)) =
      ((x ^^ shareBit a₁ a₂) ^^ (y ^^ shareBit b₁ b₂)) := by
    rw [shareBit_xor]
    cases x <;> cases y <;> simp
  obtain ⟨hrel, hmask, hlabel⟩ := ha
  obtain ⟨hrel', hmask', hlabel'⟩ := hb
  refine ⟨hrel.xor hrel', ?_, ?_⟩
  · rw [hbit, hmask, hmask']
    exact (byteOf_xor _ _).symm
  · rw [hbit, hlabel, hlabel']
    generalize (x ^^ shareBit a₁ a₂) = p
    generalize (y ^^ shareBit b₁ b₂) = q
    rw [scale_xor]
    simp only [BitVec.xor_assoc, word_xor_left_comm]

/-- Flipping the opened mask and the zero label flips the bit. -/
theorem not (ha : WireEncodes Δ a₁ a₂ ma la ea x) :
    WireEncodes Δ a₁ a₂ (ma ^^^ 1) (la ^^^ Δ.d1) ea (!x) := by
  have hbit : ((!x) ^^ shareBit a₁ a₂) = ((x ^^ shareBit a₁ a₂) ^^ true) := by
    cases x <;> simp
  obtain ⟨hrel, hmask, hlabel⟩ := ha
  refine ⟨hrel, ?_, ?_⟩
  · rw [hbit, hmask]
    exact (byteOf_xor _ true).symm
  · rw [hbit, hlabel]
    generalize (x ^^ shareBit a₁ a₂) = p
    rw [scale_xor, scale_true, BitVec.xor_assoc, BitVec.xor_comm (scale p Δ.d1), word_xor_cancel]

/-- The constants. -/
theorem const (v : Bool) :
    WireEncodes Δ .zero .zero (byteOf v) (scale v Δ.d1) zeroBlock v := by
  refine ⟨.zero, ?_, ?_⟩
  · rw [shareBit_zero, Bool.xor_false]
  · rw [shareBit_zero, Bool.xor_false, BitVec.xor_self]
    rfl

end WireEncodes

/-- The bundles of the garbler and of the evaluator share the same masks, and both hold the same
opened masks. -/
structure SharesAgree (Δ : Deltas) (w₁ w₂ : SecureWires) (n : ℕ) : Prop where
  wf₁ : w₁.WellFormed .alice n
  wf₂ : w₂.WellFormed .bob n
  lambda : ∀ i < n, w₁.lambdaAt i = w₂.lambdaAt i
  rel : ∀ i < n, MacRel Δ (w₁.bundleAt i) (w₂.bundleAt i)

/-- The bit a wire of two bundles carries: `Λ ⊕ λ`. -/
def carriedBit (w₁ w₂ : SecureWires) (i : ℕ) : Bool :=
  lowBit (w₂.lambdaAt i) ^^ shareBit (w₁.bundleAt i) (w₂.bundleAt i)

/-- The two bundles carry the bits `v`. -/
structure Encodes (Δ : Deltas) (w₁ w₂ : SecureWires) (v : List Bool) : Prop extends
    SharesAgree Δ w₁ w₂ v.length where
  wire : ∀ i < v.length, WireEncodes Δ (w₁.bundleAt i) (w₂.bundleAt i) (w₂.lambdaAt i) (w₁.label0At i)
    (w₂.evalLabelAt i) (v.getD i false)

/-- The two bundles carry the bits `v` by the opened masks the evaluator holds. -/
structure EvaluatorEncodes (Δ : Deltas) (w₁ w₂ : SecureWires) (v : List Bool) : Prop where
  wf₁ : w₁.WellFormed .alice v.length
  wf₂ : w₂.WellFormed .bob v.length
  wire : ∀ i < v.length, WireEncodes Δ (w₁.bundleAt i) (w₂.bundleAt i) (w₂.lambdaAt i) (w₁.label0At i)
    (w₂.evalLabelAt i) (v.getD i false)

/-- When the garbler's masks are the evaluator's, both hold an encoding. -/
theorem EvaluatorEncodes.encodes {Δ : Deltas} {w₁ w₂ : SecureWires} {v : List Bool}
    (h : EvaluatorEncodes Δ w₁ w₂ v) (hL : ∀ i < v.length, w₁.lambdaAt i = w₂.lambdaAt i) :
    Encodes Δ w₁ w₂ v :=
  { wf₁ := h.wf₁, wf₂ := h.wf₂, lambda := hL, rel := fun i hi => (h.wire i hi).rel, wire := h.wire }

/-- An encoding carries the bits it encodes. -/
theorem Encodes.carriedBit {Δ : Deltas} {w₁ w₂ : SecureWires} {v : List Bool} (h : Encodes Δ w₁ w₂ v)
    {i : ℕ} (hi : i < v.length) : carriedBit w₁ w₂ i = v.getD i false := by
  rw [AG2PC.carriedBit, (h.wire i hi).mask, lowBit_byteOf]
  simp

end AG2PC
