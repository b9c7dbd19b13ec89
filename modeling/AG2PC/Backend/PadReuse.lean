import AG2PC.Backend.HashPads
import AG2PC.Backend.EngineCorrect

/-!
# What a repeated pad gives away

Every run of the engine numbers the keys of its leaky ANDs from zero again, and the pad of a representative is
the key of its first operand, which may be a wire carried from an earlier run. Where AND `k` of two runs has the
same first operand, the two ciphertexts for it hide under one pad. Their sum is the sum of the two `C`, and the
peer knows its own half of each.

* `repCiphertexts_getD` — the ciphertext of an AND, as its pad and `C`.
* `carriedOperand_leak` — from the two ciphertexts and its own data the peer computes `Δ₁ ⊕ Δ₂` or zero, by
  whether the masks of the two second operands differ.
-/

namespace AG2PC

open Library.XorAlgebra Library.ByIndex

/-- A party's layer 0 in the leaky ANDs of a run. -/
def repLayer (cot : ℕ → AShareBundle) (P : Prepared) : Layer :=
  (tripleStart cot P.numAnds P.repA P.repB P.pool).acc

/-- What a party with global key `δ` sends for it: one ciphertext an AND. -/
def repCiphertexts {D : Type} (E : EmpTool D) (δ : Block) (cot : ℕ → AShareBundle) (P : Prepared) : List Block :=
  (leakyGarble E δ (repLayer cot P) P.numAnds (tripleStart cot P.numAnds P.repA P.repB P.pool).gmitc
    (batchStarts P.numAnds)).2.flatten

/-- A party's `C` of AND `k`. -/
def repC (δ : Block) (cot : ℕ → AShareBundle) (P : Prepared) (k : ℕ) : Block :=
  leakyC δ (repLayer cot P) P.numAnds k

theorem repLayer_a (cot : ℕ → AShareBundle) {P : Prepared} {k : ℕ} (hk : k < P.numAnds) :
    repLayer cot P k = P.repA k := if_pos hk

theorem repLayer_b (cot : ℕ → AShareBundle) {P : Prepared} {k : ℕ} (hk : k < P.numAnds) :
    repLayer cot P (P.numAnds + k) = P.repB k := by
  have h₁ : ¬ P.numAnds + k < P.numAnds := by omega
  have h₂ : P.numAnds + k < 2 * P.numAnds := by omega
  simp only [repLayer, tripleStart, layerZero, if_neg h₁, if_pos h₂, Nat.add_sub_cancel_left]

/-- The ciphertext of AND `k`: `C` under the pad of its first operand's key. -/
theorem repCiphertexts_getD {D : Type} (E : EmpTool D) (δ : Block) (cot : ℕ → AShareBundle) {P : Prepared} {k : ℕ}
    (hk : k < P.numAnds) : (repCiphertexts E δ cot P).getD k zeroBlock =
      Pad.mask E δ ⟨pairSeed, k, (P.repA k).key⟩ ^^^ repC δ cot P k := by
  rw [repCiphertexts, leakyGarble_batchStarts, getD_map_range _ _ hk, leakyCt, repLayer_a cot hk, repC, Pad.mask]
  simp only [tripleStart, MITCCRH.setS, Nat.zero_add]

/-- **Two ciphertexts under one pad** add up to the sum of the two `C`. -/
theorem repCiphertexts_xor {D : Type} (E : EmpTool D) (δ : Block) (cot : ℕ → AShareBundle) {P P' : Prepared} {k : ℕ}
    (hk : k < P.numAnds) (hk' : k < P'.numAnds) (hrep : P.repA k = P'.repA k) :
    (repCiphertexts E δ cot P).getD k zeroBlock ^^^ (repCiphertexts E δ cot P').getD k zeroBlock =
      repC δ cot P k ^^^ repC δ cot P' k := by
  rw [repCiphertexts_getD E δ cot hk, repCiphertexts_getD E δ cot hk', hrep]
  simp only [BitVec.xor_assoc, word_xor_left_comm _ (Pad.mask _ _ _), word_xor_cancel]

/-- Two honest parties that have run passes 0 and 1 on a source of `n` inputs. -/
structure Preparation {D : Type} (S : Setup D) (w₁ w₂ : SecureWires) (st : ProtoState) (source : Body (List ℕ))
    (n : ℕ) (P : Prepared × Prepared) : Prop where
  agree : SharesAgree S.Δ w₁ w₂ n
  can : CanonicalStream n (source.stream n)
  pools : st.pool₁ = st.pool₂
  prep₁ : prepare S.cot₁ w₁ st.pool₁ source = P.1
  prep₂ : prepare S.cot₂ w₂ st.pool₂ source = P.2

section

variable {D : Type} {S : Setup D} {C : CotStream S.Δ} {source source' : Body (List ℕ)}
  {w₁ w₂ w₁' w₂' : SecureWires} {st st' : ProtoState} {n n' k : ℕ} {P P' : Prepared × Prepared}

/-- Both parties count the same ANDs, and share the second operands. -/
theorem Preparation.repB (h : Preparation S w₁ w₂ st source n P) (h₁ : S.cot₁ = C.s₁) (h₂ : S.cot₂ = C.s₂) :
    P.1.numAnds = P.2.numAnds ∧ ∀ k < P.1.numAnds, MacRel S.Δ (P.1.repB k) (P.2.repB k) := by
  obtain ⟨P₁, P₂, sh₁, sh₂, H⟩ := preparedPair h₁ h₂ h.agree h.can h.pools
  have heq₁ : P.1 = P₁ := h.prep₁.symm.trans H.prep₁
  have heq₂ : P.2 = P₂ := h.prep₂.symm.trans H.prep₂
  have hops := macRel_operands h.can H.eqs₁ H.eqs₂ H.rel
  rw [heq₁, heq₂, H.numAnds₁, H.numAnds₂]
  exact ⟨rfl, fun k hk => (hops k hk).2⟩

/-- The two parties' `C` of an AND add up to its second operand's mask bit times `Δ₁ ⊕ Δ₂`. -/
theorem Preparation.repC_xor (h : Preparation S w₁ w₂ st source n P) (h₁ : S.cot₁ = C.s₁) (h₂ : S.cot₂ = C.s₂)
    (hk : k < P.1.numAnds) : repC S.Δ.d1 S.cot₁ P.1 k ^^^ repC S.Δ.d2 S.cot₂ P.2 k =
      scale (shareBit (P.1.repB k) (P.2.repB k)) (S.Δ.d1 ^^^ S.Δ.d2) := by
  obtain ⟨hnum, hrel⟩ := h.repB h₁ h₂
  have hb₁ := repLayer_b S.cot₁ hk
  have hb₂ := repLayer_b S.cot₂ (hnum ▸ hk)
  rw [← hnum] at hb₂
  have hoperand : MacRel S.Δ (repLayer S.cot₁ P.1 (P.1.numAnds + k)) (repLayer S.cot₂ P.2 (P.1.numAnds + k)) := by
    rw [hb₁, hb₂]
    exact hrel k hk
  have hsum := leakyC_xor hoperand
  rw [hb₁, hb₂] at hsum
  rw [repC, repC, ← hnum]
  exact hsum

/-- The two parties' global keys differ. -/
theorem Deltas.xor_ne_zero (Δ : Deltas) : Δ.d1 ^^^ Δ.d2 ≠ zeroBlock := by
  intro h
  have hbit : LSB1 (Δ.d1 ^^^ Δ.d2) = true := by simp
  rw [h] at hbit
  exact absurd hbit (by decide)

/-- **A carried first operand gives the global keys away.** Take any two runs of a session, on any sources and any
inputs whose shares agree, and either party `p` as the garbler of the leaky ANDs. If AND `k` has the same share for
its first operand in both, then the two ciphertexts `p` sends for it and the peer's own data add up to `Δ₁ ⊕ Δ₂`
when the masks of the two second operands differ, and to zero when they are the same. -/
theorem carriedOperand_leak (h₁ : S.cot₁ = C.s₁) (h₂ : S.cot₂ = C.s₂) (h : Preparation S w₁ w₂ st source n P)
    (h' : Preparation S w₁' w₂' st' source' n' P') (hk : k < P.1.numAnds) (hk' : k < P'.1.numAnds) (p : Party)
    (hrep : (p.pick P).repA k = (p.pick P').repA k) :
    let cot := (S.cot₁, S.cot₂)
    let sent := fun P : Prepared × Prepared =>
      (repCiphertexts S.tool (S.Δ.of p) (p.pick cot) (p.pick P)).getD k zeroBlock
    let own := fun P : Prepared × Prepared => repC (S.Δ.of p.peer) (p.peer.pick cot) (p.peer.pick P) k
    let lam := fun P : Prepared × Prepared => shareBit (P.1.repB k) (P.2.repB k)
    sent P ^^^ sent P' ^^^ (own P ^^^ own P') = scale (lam P ^^ lam P') (S.Δ.d1 ^^^ S.Δ.d2) ∧
      (sent P ^^^ sent P' ^^^ (own P ^^^ own P') = zeroBlock ↔ lam P = lam P') := by
  intro cot sent own lam
  obtain ⟨hnum, -⟩ := h.repB h₁ h₂
  obtain ⟨hnum', -⟩ := h'.repB h₁ h₂
  have hsum : sent P ^^^ sent P' ^^^ (own P ^^^ own P') = scale (lam P ^^ lam P') (S.Δ.d1 ^^^ S.Δ.d2) := by
    rw [scale_xor, ← h.repC_xor h₁ h₂ hk, ← h'.repC_xor h₁ h₂ hk']
    cases p with
    | alice =>
      have hpair : sent P ^^^ sent P' = repC S.Δ.d1 S.cot₁ P.1 k ^^^ repC S.Δ.d1 S.cot₁ P'.1 k :=
        repCiphertexts_xor S.tool S.Δ.d1 S.cot₁ hk hk' hrep
      have hown : own P ^^^ own P' = repC S.Δ.d2 S.cot₂ P.2 k ^^^ repC S.Δ.d2 S.cot₂ P'.2 k := rfl
      rw [hpair, hown]
      simp only [BitVec.xor_assoc, word_xor_left_comm]
    | bob =>
      have hpair : sent P ^^^ sent P' = repC S.Δ.d2 S.cot₂ P.2 k ^^^ repC S.Δ.d2 S.cot₂ P'.2 k :=
        repCiphertexts_xor S.tool S.Δ.d2 S.cot₂ (hnum ▸ hk) (hnum' ▸ hk') hrep
      have hown : own P ^^^ own P' = repC S.Δ.d1 S.cot₁ P.1 k ^^^ repC S.Δ.d1 S.cot₁ P'.1 k := rfl
      rw [hpair, hown, BitVec.xor_comm]
      simp only [BitVec.xor_assoc, word_xor_left_comm]
  refine ⟨hsum, ?_⟩
  rw [hsum]
  constructor
  · intro h0
    cases hlam : (lam P ^^ lam P') with
    | false => exact bne_eq_false_iff_eq.mp hlam
    | true =>
      rw [hlam] at h0
      exact absurd h0 S.Δ.xor_ne_zero
  · intro heq
    rw [heq, Bool.xor_self]
    rfl

end

/-! ### Two conjunctions of one wire -/

/-- Two wires, the first with a mask of zero and the second with the mask `b`. -/
def maskedPair (party : Party) (b : Bool) : SecureWires where
  Lambda := [0, 0]
  wireBundle := [.zero, if b then party.pick (sharesOfOne (.init 0 0)) else .zero]
  label0 := [zeroBlock, zeroBlock]
  evalLabel := [zeroBlock, zeroBlock]

/-- Passes 0 and 1 on their conjunction. -/
def maskedPrepared (b : Bool) : Prepared × Prepared :=
  (prepare (fun _ => .zero) (maskedPair .alice b) {} (executeProgram andProgram),
    prepare (fun _ => .zero) (maskedPair .bob b) {} (executeProgram andProgram))

theorem maskedPrepared_preparation (b : Bool) :
    Preparation .zeros (maskedPair .alice b) (maskedPair .bob b) {} (executeProgram andProgram) 2
      (maskedPrepared b) where
  agree :=
    { wf₁ := ⟨rfl, rfl, rfl⟩
      wf₂ := ⟨rfl, rfl, rfl⟩
      lambda := fun _ _ => rfl
      rel := by
        intro i hi
        obtain rfl | rfl : i = 0 ∨ i = 1 := by omega
        · exact .zero
        · cases b with
          | false => exact .zero
          | true => exact macRel_sharesOfOne _ }
  can := (executeProgram_stream (recordCanonical_of_check (p := andProgram) (by decide)) rfl).2.2.1
  pools := rfl
  prep₁ := rfl
  prep₂ := rfl

/-- The first operand is the same wire and the masks of the second differ: the evaluator obtains `Δ₁ ⊕ Δ₂`. -/
theorem carriedOperand_leak_masked :
    (repCiphertexts EmpTool.transparent (initAbit .alice 0) (fun _ => .zero) (maskedPrepared true).1).getD 0 zeroBlock
        ^^^ (repCiphertexts EmpTool.transparent (initAbit .alice 0) (fun _ => .zero)
          (maskedPrepared false).1).getD 0 zeroBlock ^^^
        (repC (initAbit .bob 0) (fun _ => .zero) (maskedPrepared true).2 0 ^^^
          repC (initAbit .bob 0) (fun _ => .zero) (maskedPrepared false).2 0) =
      initAbit .alice 0 ^^^ initAbit .bob 0 := by
  have hleak := (carriedOperand_leak (S := .zeros) (C := .zeros _) rfl rfl (maskedPrepared_preparation true)
    (maskedPrepared_preparation false) (k := 0) (by decide) (by decide) .alice (by decide)).1
  refine hleak.trans ?_
  decide

end AG2PC
