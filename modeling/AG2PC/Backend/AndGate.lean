import AG2PC.Backend.PassCtx

/-!
# One AND gate

The algebra of a garbled AND. The operands have masks `λ_a` and `λ_b`, the output has the fresh mask
`λ_γ`, `σ` shares a bit that is to be `λ_a ∧ λ_b`, and `La`, `Lb` are the opened masks of the operands.

* `andMask` — the opened mask the gate calls for, `La·Lb ⊕ La·λ_b ⊕ Lb·λ_a ⊕ σ ⊕ λ_γ`.
* `evalAndLabel_eq` — the evaluator's label is the garbler's zero label shifted by `andMask·Δ₁`.
* `evalAndWitness_eq` — the evaluator's `c_γ` witness is the garbler's shifted by the error of the mask
  times `Δ₂`, whatever mask the evaluator works with.
-/

namespace AG2PC

open Library.XorAlgebra

/-! ### Shares in terms of their bits -/

namespace MacRel

variable {Δ : Deltas} {s₁ s₂ : AShareBundle}

/-- The evaluator's MAC and the garbler's local label offset make up the mask times `Δ₁`. -/
theorem mac₂_eq (h : MacRel Δ s₁ s₂) :
    s₂.mac = s₁.key ^^^ scale (LSB s₁.mac) Δ.d1 ^^^ scale (shareBit s₁ s₂) Δ.d1 := by
  rw [shareBit, scale_xor, BitVec.xor_assoc, word_xor_cancel]
  exact h.mac₂

/-- The garbler's MAC and the evaluator's local offset make up the mask times `Δ₂`. -/
theorem mac₁_eq (h : MacRel Δ s₁ s₂) :
    s₁.mac = s₂.key ^^^ scale (LSB s₂.mac) Δ.d2 ^^^ scale (shareBit s₁ s₂) Δ.d2 := by
  rw [shareBit, Bool.xor_comm, scale_xor, BitVec.xor_assoc, word_xor_cancel]
  exact h.mac₁

end MacRel

/-! ### The gate equation -/

/-- The opened output mask an AND calls for. -/
def andMask (La Lb lambdaA lambdaB sigma lambdaGamma : Bool) : Bool :=
  (La && Lb) ^^ (La && lambdaB) ^^ (Lb && lambdaA) ^^ sigma ^^ lambdaGamma

/-- With the right `σ` it is the product of the operands' values, masked. -/
theorem andMask_product (va vb lambdaA lambdaB lambdaGamma : Bool) :
    andMask (va ^^ lambdaA) (vb ^^ lambdaB) lambdaA lambdaB (lambdaA && lambdaB) lambdaGamma =
      ((va && vb) ^^ lambdaGamma) := by
  cases va <;> cases vb <;> cases lambdaA <;> cases lambdaB <;> cases lambdaGamma <;> rfl

/-! ### Labels -/

/-- The sum the evaluator forms for a label, `Xa`, …, `Xs` being the garbler's offsets of the shares. -/
theorem halfGates_sum (Ha0 Ha1 Hb0 Hb1 A Xa Xb Xg Xs Δ : Block) (La Lb la lb sigma lg : Bool) :
    (Ha0 ^^^ scale La (Ha0 ^^^ Ha1)) ^^^ (Hb0 ^^^ scale Lb (Hb0 ^^^ Hb1)) ^^^
        scale La (Ha0 ^^^ Ha1 ^^^ Xb) ^^^ scale Lb (Hb0 ^^^ Hb1 ^^^ A ^^^ Xa ^^^ (A ^^^ scale La Δ)) ^^^
        (Xs ^^^ scale sigma Δ ^^^ (Xg ^^^ scale lg Δ) ^^^ scale La (Xb ^^^ scale lb Δ) ^^^
          scale Lb (Xa ^^^ scale la Δ)) =
      Ha0 ^^^ Hb0 ^^^ Xs ^^^ Xg ^^^ scale (andMask La Lb la lb sigma lg) Δ := by
  -- what is scaled by `La` or `Lb` cancels once those two bits are known
  cases La <;> cases Lb <;>
    simp only [andMask, scale_true, scale_false, scale_xor, Bool.true_and, Bool.false_and, Bool.false_xor,
      BitVec.xor_zero] <;>
    simp only [BitVec.xor_assoc, BitVec.xor_comm, word_xor_left_comm, word_xor_cancel]

section

variable {D : Type} (E : EmpTool D) {Δ : Deltas} {sa₁ sa₂ sb₁ sb₂ sg₁ sg₂ ss₁ ss₂ : AShareBundle}

/-- A label offset by a bit hashes to the garbler's hash for that bit. -/
theorem hashCir_offset (m : MITCCRH) (label Δ : Block) (b : Bool) :
    m.hashCir E (label ^^^ scale b Δ) =
      m.hashCir E label ^^^ scale b (m.hashCir E label ^^^ m.hashCir E (label ^^^ Δ)) := by
  cases b with
  | false => simp
  | true => rw [scale_true, scale_true, word_xor_cancel]

/-- **Half gates**: from the entry the garbler made, the evaluator gets the zero label shifted by
`andMask·Δ₁`. -/
theorem evalAndLabel_eq (m : MITCCRH) (la lb : Block) (ma mb : UInt8) (ha : MacRel Δ sa₁ sa₂)
    (hb : MacRel Δ sb₁ sb₂) (hg : MacRel Δ sg₁ sg₂) (hs : MacRel Δ ss₁ ss₂) :
    evalAndLabel E m (garbleAnd E Δ.d1 m ⟨sa₁, la⟩ ⟨sb₁, lb⟩ sg₁ ss₁).1
        ⟨sa₂, la ^^^ scale (truthy ma) Δ.d1, ma⟩ ⟨sb₂, lb ^^^ scale (truthy mb) Δ.d1, mb⟩ sg₂ ss₂ =
      (garbleAnd E Δ.d1 m ⟨sa₁, la⟩ ⟨sb₁, lb⟩ sg₁ ss₁).2 ^^^
        scale (andMask (truthy ma) (truthy mb) (shareBit sa₁ sa₂) (shareBit sb₁ sb₂) (shareBit ss₁ ss₂)
          (shareBit sg₁ sg₂)) Δ.d1 := by
  have hsum := halfGates_sum (m.hashCir E la) (m.hashCir E (la ^^^ Δ.d1)) (m.hashCir E lb)
    (m.hashCir E (lb ^^^ Δ.d1)) la (sa₁.key ^^^ scale (LSB sa₁.mac) Δ.d1)
    (sb₁.key ^^^ scale (LSB sb₁.mac) Δ.d1) (sg₁.key ^^^ scale (LSB sg₁.mac) Δ.d1)
    (ss₁.key ^^^ scale (LSB ss₁.mac) Δ.d1) Δ.d1 (truthy ma) (truthy mb) (shareBit sa₁ sa₂)
    (shareBit sb₁ sb₂) (shareBit ss₁ ss₂) (shareBit sg₁ sg₂)
  simp only [evalAndLabel, garbleAnd, hashCir_offset, selectMask_and]
  rw [ha.mac₂_eq, hb.mac₂_eq, hg.mac₂_eq, hs.mac₂_eq]
  simpa only [BitVec.xor_assoc] using hsum

/-- The mask bit the evaluator reads off an honest entry is the offset of its label. -/
theorem garbleAnd_bit {Δ : Deltas} (m : MITCCRH) (a b : GarbleSlot) (sg ss : AShareBundle) (Lg : Bool)
    {label : Block} (h : label = (garbleAnd E Δ.d1 m a b sg ss).2 ^^^ scale Lg Δ.d1) :
    truthy ((garbleAnd E Δ.d1 m a b sg ss).1.b ^^^ byteOf (LSB1 label)) = Lg := by
  have hb : (garbleAnd E Δ.d1 m a b sg ss).1.b = byteOf (LSB1 (garbleAnd E Δ.d1 m a b sg ss).2) := rfl
  rw [hb, h, ← byteOf_xor, truthy_byteOf, LSB1_xor, LSB1_scale, Δ.lsb1_d1, Bool.and_true]
  simp

end

/-! ### Witnesses -/

/-- The difference of the two witnesses, `Ka`, …, `Ks` being the evaluator's keys. -/
theorem witness_sum (Ka Kb Kg Ks Δ : Block) (La Lb Lg la lb sigma lg la₂ lb₂ s₂ g₂ : Bool) :
    scale ((La && Lb) ^^ Lg ^^ (La && lb₂) ^^ (Lb && la₂) ^^ s₂ ^^ g₂) Δ ^^^ scale La Kb ^^^
        scale Lb Ka ^^^ Ks ^^^ Kg =
      Ks ^^^ scale s₂ Δ ^^^ scale sigma Δ ^^^ (Kg ^^^ scale g₂ Δ ^^^ scale lg Δ) ^^^
          scale La (Kb ^^^ scale lb₂ Δ ^^^ scale lb Δ) ^^^ scale Lb (Ka ^^^ scale la₂ Δ ^^^ scale la Δ) ^^^
        scale (Lg ^^ andMask La Lb la lb sigma lg) Δ := by
  cases La <;> cases Lb <;>
    simp only [andMask, scale_true, scale_false, scale_xor, Bool.true_and, Bool.false_and, Bool.xor_false,
      Bool.false_xor, BitVec.xor_zero] <;>
    simp only [BitVec.xor_assoc, BitVec.xor_comm, word_xor_left_comm, word_xor_cancel]

section

variable {Δ : Deltas} {sa₁ sa₂ sb₁ sb₂ sg₁ sg₂ ss₁ ss₂ : AShareBundle}

/-- **The `c_γ` witnesses**: for an opened mask `Lg`, the evaluator's witness is the garbler's shifted by
`Δ₂` exactly when `Lg` is not the mask the gate calls for. -/
theorem evalAndWitness_eq (l₁ l₂ : Block) (ma mb : UInt8) (Lg : Bool) (ha : MacRel Δ sa₁ sa₂)
    (hb : MacRel Δ sb₁ sb₂) (hg : MacRel Δ sg₁ sg₂) (hs : MacRel Δ ss₁ ss₂) :
    evalAndWitness Δ.d2 Lg ⟨sa₂, l₁, ma⟩ ⟨sb₂, l₂, mb⟩ sg₂ ss₂ =
      gammaAnd ⟨sa₁, ma⟩ ⟨sb₁, mb⟩ sg₁ ss₁ ^^^
        scale (Lg ^^ andMask (truthy ma) (truthy mb) (shareBit sa₁ sa₂) (shareBit sb₁ sb₂)
          (shareBit ss₁ ss₂) (shareBit sg₁ sg₂)) Δ.d2 := by
  simp only [evalAndWitness, gammaAnd, selectMask_and]
  rw [ha.mac₁_eq, hb.mac₁_eq, hg.mac₁_eq, hs.mac₁_eq]
  exact witness_sum sa₂.key sb₂.key sg₂.key ss₂.key Δ.d2 _ _ _ _ _ _ _ _ _ _ _

end

end AG2PC
