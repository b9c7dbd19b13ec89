import AG2PC.Backend.LeakyAnd

/-!
# Authenticated AND generation

`compute_inplace` folds `B - 1` sacrifice layers into the representative of each gate and
opens `xb` and `yb` to return to the gate's own masks. Neither opening is authenticated:
the batched `F_eq` covers the leaky-AND vectors only. This module computes what the two
parties end with when one of them xors errors into the bits it opens.

* `bucketOneLayer_ok` — a bucket step adds the layer's `a` to the accumulator's, and an
  error on its `d` adds the layer's `a` to the product.
* `computeInplaceWith_ok` — the check always passes, `out_sigma` is always authenticated,
  and its bit is `λ_α ∧ λ_β` plus `sigmaError`, a sum of the errors weighted by secret bits.
* `computeInplace_sound_iff` — so the result is the product at every gate exactly when
  every such sum vanishes.
* `computeInplace_ok` — with no errors it is the product.
-/

namespace AG2PC

open Library.XorAlgebra

/-- The outputs of the COT sessions, in order: the garbler's bundles and the evaluator's, each
pair in the MAC relation. -/
structure CotStream (Δ : Deltas) where
  /-- The garbler's shares. -/
  s₁ : ℕ → AShareBundle
  /-- The evaluator's shares. -/
  s₂ : ℕ → AShareBundle
  rel : ∀ i, MacRel Δ (s₁ i) (s₂ i)

/-- The mask bit of the `i`-th COT output. -/
def CotStream.bit {Δ : Deltas} (C : CotStream Δ) (i : ℕ) : Bool := shareBit (C.s₁ i) (C.s₂ i)

/-! ### Linear operations on shares -/

section

variable {Δ : Deltas} {a₁ a₂ b₁ b₂ : AShareBundle}

/-- `a ^= b & select_mask[d]` with a public `d`. -/
theorem macRel_xor_scale (ha : MacRel Δ a₁ a₂) (hb : MacRel Δ b₁ b₂) (d : Bool) :
    MacRel Δ ⟨a₁.mac ^^^ scale d b₁.mac, a₁.key ^^^ scale d b₁.key⟩
        ⟨a₂.mac ^^^ scale d b₂.mac, a₂.key ^^^ scale d b₂.key⟩ ∧
      shareBit ⟨a₁.mac ^^^ scale d b₁.mac, a₁.key ^^^ scale d b₁.key⟩
          ⟨a₂.mac ^^^ scale d b₂.mac, a₂.key ^^^ scale d b₂.key⟩ =
        (shareBit a₁ a₂ ^^ (d && shareBit b₁ b₂)) := by
  cases d with
  | false => simpa using ha
  | true =>
    refine ⟨?_, ?_⟩
    · exact ha.xor hb
    · simp only [scale_true, Bool.true_and]
      exact shareBit_xor a₁ b₁ a₂ b₂

end

/-! ### Bucketing -/

theorem bucketSrc_lt {L r i : ℕ} (hr : r < L) (hi : i < L) : bucketSrc L r i < L := by
  unfold bucketSrc
  split <;> omega

/-- The bit a bucket step opens, and what it opens with an error. -/
theorem bucketOpen_xor {L r : ℕ} {acc₁ acc₂ lay₁ lay₂ : Layer} (i : ℕ) :
    (bucketOpen L r acc₁ lay₁ i ^^ bucketOpen L r acc₂ lay₂ i) =
      (shareBit (acc₁ (L + i)) (acc₂ (L + i)) ^^
        shareBit (lay₁ (L + bucketSrc L r i)) (lay₂ (L + bucketSrc L r i))) := by
  simp only [bucketOpen, shareBit]
  cases LSB (acc₁ (L + i)).mac <;> cases LSB (acc₂ (L + i)).mac <;>
    cases LSB (lay₁ (L + bucketSrc L r i)).mac <;> cases LSB (lay₂ (L + bucketSrc L r i)).mac <;> rfl

section

variable {Δ : Deltas} {L r : ℕ} {acc₁ acc₂ lay₁ lay₂ : Layer} {a b c la lb lc : ℕ → Bool}

/-- The first loop of a bucket step. -/
theorem bucketAdd_ok (hr : r < L) (hacc : TripleOk Δ L acc₁ acc₂ a b c)
    (hlay : TripleOk Δ L lay₁ lay₂ la lb lc) :
    TripleOk Δ L (bucketAdd L r acc₁ lay₁) (bucketAdd L r acc₂ lay₂)
      (fun i => a i ^^ la (bucketSrc L r i)) b (fun i => c i ^^ lc (bucketSrc L r i)) := by
  have at₀ : ∀ {acc lay : Layer} {i : ℕ}, i < L →
      bucketAdd L r acc lay i = acc i ^^^ lay (bucketSrc L r i) := by
    intro acc lay i hi
    rw [bucketAdd, forRegion_of_lt (by omega), forRegion_zero hi]
  have at₁ : ∀ {acc lay : Layer} {i : ℕ}, i < L → bucketAdd L r acc lay (L + i) = acc (L + i) := by
    intro acc lay i hi
    rw [bucketAdd, forRegion_of_lt (by omega), forRegion_of_ge (by omega)]
  have at₂ : ∀ {acc lay : Layer} {i : ℕ}, i < L →
      bucketAdd L r acc lay (2 * L + i) = acc (2 * L + i) ^^^ lay (2 * L + bucketSrc L r i) := by
    intro acc lay i hi
    rw [bucketAdd, forRegion_mem hi, forRegion_of_ge (by omega)]
  refine ⟨fun i hi => ?_, fun i hi => ?_, fun i hi => ?_, fun i hi => ?_⟩
  · by_cases h₀ : i < L
    · have := bucketSrc_lt hr h₀
      rw [at₀ h₀, at₀ h₀]
      exact (hacc.rel i hi).xor (hlay.rel _ (by omega))
    · by_cases h₁ : i < 2 * L
      · obtain ⟨k, rfl⟩ : ∃ k, i = L + k := ⟨i - L, by omega⟩
        rw [at₁ (by omega), at₁ (by omega)]
        exact hacc.rel _ hi
      · obtain ⟨k, rfl⟩ : ∃ k, i = 2 * L + k := ⟨i - 2 * L, by omega⟩
        have := bucketSrc_lt hr (show k < L by omega)
        rw [at₂ (by omega), at₂ (by omega)]
        exact (hacc.rel _ hi).xor (hlay.rel _ (by omega))
  · rw [at₀ hi, at₀ hi, shareBit_xor, hacc.bitA i hi, hlay.bitA _ (bucketSrc_lt hr hi)]
  · rw [at₁ hi, at₁ hi, hacc.bitB i hi]
  · rw [at₂ hi, at₂ hi, shareBit_xor, hacc.bitC i hi, hlay.bitC _ (bucketSrc_lt hr hi)]

/-- The last loop of a bucket step, with the opened bit `d`. -/
theorem bucketFold_ok (hr : r < L) (d : ℕ → Bool) (hacc : TripleOk Δ L acc₁ acc₂ a b c)
    (hlay : TripleOk Δ L lay₁ lay₂ la lb lc) :
    TripleOk Δ L (bucketFold L r acc₁ lay₁ d) (bucketFold L r acc₂ lay₂ d) a b
      (fun i => c i ^^ (d i && la (bucketSrc L r i))) := by
  have fold : ∀ i < L, MacRel Δ (bucketFold L r acc₁ lay₁ d (2 * L + i))
        (bucketFold L r acc₂ lay₂ d (2 * L + i)) ∧
      shareBit (bucketFold L r acc₁ lay₁ d (2 * L + i)) (bucketFold L r acc₂ lay₂ d (2 * L + i)) =
        (c i ^^ (d i && la (bucketSrc L r i))) := by
    intro i hi
    have hsrc := bucketSrc_lt hr hi
    have h := macRel_xor_scale (hacc.rel (2 * L + i) (by omega)) (hlay.rel (bucketSrc L r i) (by omega)) (d i)
    rw [hacc.bitC i hi, hlay.bitA _ hsrc] at h
    simpa only [bucketFold, forRegion_mem hi, and_selectMask] using h
  refine ⟨fun i hi => ?_, fun i hi => ?_, fun i hi => ?_, fun i hi => (fold i hi).2⟩
  · by_cases hlt : i < 2 * L
    · rw [bucketFold, bucketFold, forRegion_of_lt hlt, forRegion_of_lt hlt]
      exact hacc.rel i hi
    · obtain ⟨k, rfl⟩ : ∃ k, i = 2 * L + k := ⟨i - 2 * L, by omega⟩
      exact (fold k (by omega)).1
  · rw [bucketFold, bucketFold, forRegion_of_lt (by omega), forRegion_of_lt (by omega)]
    exact hacc.bitA i hi
  · rw [bucketFold, bucketFold, forRegion_of_lt (by omega), forRegion_of_lt (by omega)]
    exact hacc.bitB i hi

/-- **A bucket step**: where the accumulator's product is off by `z` and the layer's is right,
an error `err` on the opened bit leaves the new product off by `z ⊕ err·layer.a`. -/
theorem bucketOneLayer_ok (τ : Tamper) (err z : ℕ → Bool) (hr : r < L)
    (hacc : TripleOk Δ L acc₁ acc₂ a b (fun i => (a i && b i) ^^ z i))
    (hlay : TripleOk Δ L lay₁ lay₂ la lb (fun i => la i && lb i)) :
    TripleOk Δ L (bucketOneLayer τ err L r acc₁ lay₁ acc₂ lay₂).1
      (bucketOneLayer τ err L r acc₁ lay₁ acc₂ lay₂).2
      (fun i => a i ^^ la (bucketSrc L r i)) b
      (fun i => ((a i ^^ la (bucketSrc L r i)) && b i) ^^ (z i ^^ (err i && la (bucketSrc L r i)))) := by
  have h := bucketFold_ok hr (fun i => τ.apply .alice (err i) (bucketOpen L r acc₁ lay₁ i) ^^
    τ.apply .bob (err i) (bucketOpen L r acc₂ lay₂ i)) (bucketAdd_ok hr hacc hlay) hlay
  refine ⟨h.rel, h.bitA, h.bitB, fun i hi => ?_⟩
  rw [bucketOneLayer, h.bitC i hi, Tamper.apply_xor, bucketOpen_xor, hacc.bitB i hi,
    hlay.bitB _ (bucketSrc_lt hr hi)]
  cases a i <;> cases b i <;> cases z i <;> cases err i <;> cases la (bucketSrc L r i) <;>
    cases lb (bucketSrc L r i) <;> rfl

end

/-! ### The sacrifice layers -/

/-- The `a`-bit of candidate `i` of sacrifice layer `k`, the layers being minted from position
`start` of the COT stream on. -/
def CotStream.sacrificeBit {Δ : Deltas} (C : CotStream Δ) (start L k i : ℕ) : Bool :=
  C.bit (start + 3 * L * k + i)

/-- What the first `n` sacrifice layers add to the `a`-bit of gate `i`. -/
def bucketShift {Δ : Deltas} (C : CotStream Δ) (start L : ℕ) (raw : ℕ → ℕ) (n i : ℕ) : Bool :=
  (List.range n).foldl (fun z k => z ^^ C.sacrificeBit start L k (bucketSrc L (raw k % L) i)) false

/-- What the errors on the first `n` bucket openings add to the product of gate `i`: each error
times the `a`-bit of the candidate folded in. -/
def bucketError {Δ : Deltas} (C : CotStream Δ) (start L : ℕ) (raw : ℕ → ℕ) (τ : Tamper) (n i : ℕ) :
    Bool :=
  (List.range n).foldl
    (fun z k => z ^^ (τ.bucket k i && C.sacrificeBit start L k (bucketSrc L (raw k % L) i))) false

/-- What all the errors add to the bit of `out_sigma[i]`. -/
def sigmaError {Δ : Deltas} (C : CotStream Δ) (start L : ℕ) (raw : ℕ → ℕ) (τ : Tamper) (B : ℕ)
    (la lb : ℕ → Bool) (i : ℕ) : Bool :=
  bucketError C start L raw τ (B - 1) i ^^ (τ.xb i && lb i) ^^ (τ.yb i && la i) ^^ (τ.xb i && τ.yb i)

section

variable {D : Type} (E : EmpTool D) {Δ : Deltas} (C : CotStream Δ)

/-- The layer minted from position `u` of the stream. -/
theorem tripleOk_cot (L u : ℕ) :
    TripleOk Δ L (fun i => C.s₁ (u + i)) (fun i => C.s₂ (u + i)) (fun i => C.bit (u + i))
      (fun i => C.bit (u + (L + i))) (fun i => C.bit (u + (2 * L + i))) :=
  ⟨fun _ _ => C.rel _, fun _ _ => rfl, fun _ _ => rfl, fun _ _ => rfl⟩

/-- The state of the loop of `layered_bucket_into_acc` after `n` iterations. -/
structure LayersOk (start L : ℕ) (raw : ℕ → ℕ) (τ : Tamper) (la lb : ℕ → Bool) (n : ℕ)
    (h : TripleHalf × TripleHalf) : Prop where
  agree : HalvesAgree h.1 h.2
  used : h.1.pool.used = start + 3 * L * n
  acc : TripleOk Δ L h.1.acc h.2.acc (fun i => la i ^^ bucketShift C start L raw n i) lb
    (fun i => ((la i ^^ bucketShift C start L raw n i) && lb i) ^^ bucketError C start L raw τ n i)

variable {C} {start L : ℕ} {raw : ℕ → ℕ} {τ : Tamper} {la lb : ℕ → Bool}

/-- One more sacrifice layer. -/
theorem LayersOk.step {n : ℕ} {h : TripleHalf × TripleHalf} (hL : 0 < L)
    (hn : LayersOk C start L raw τ la lb n h) :
    LayersOk C start L raw τ la lb (n + 1) (sacrificeLayer E Δ C.s₁ C.s₂ τ raw L h n) := by
  have hagree : HalvesAgree { h.1 with pool := (h.1.pool.genCotShares C.s₁ (3 * L)).2 }
      { h.2 with pool := (h.2.pool.genCotShares C.s₂ (3 * L)).2 } :=
    ⟨hn.agree.emitc₁, hn.agree.gmitc₂, hn.agree.emitc₂, hn.agree.feq,
      by simp [TriplePool.genCotShares, hn.agree.used]⟩
  have hsac := tripleOk_cot C L (start + 3 * L * n)
  have hm₁ : (h.1.pool.genCotShares C.s₁ (3 * L)).1 = fun i => C.s₁ (start + 3 * L * n + i) := by
    simp only [TriplePool.genCotShares, hn.used]
  have hm₂ : (h.2.pool.genCotShares C.s₂ (3 * L)).1 = fun i => C.s₂ (start + 3 * L * n + i) := by
    simp only [TriplePool.genCotShares, ← hn.agree.used, hn.used]
  obtain ⟨hl, hlay, hacc₁, hacc₂, hpool₁, hpool₂⟩ := leakyAndHalfgate_ok E hagree hsac
  have hacc := hn.acc
  have hb := bucketOneLayer_ok (r := raw n % L) τ (τ.bucket n) _ (Nat.mod_lt _ hL) hacc hlay
  simp only [sacrificeLayer, hm₁, hm₂, hacc₁, hacc₂]
  refine ⟨⟨hl.emitc₁, hl.gmitc₂, hl.emitc₂, hl.feq, hl.used⟩, ?_, ?_⟩
  · rw [hpool₁]
    simp only [TriplePool.genCotShares, hn.used]
    rw [Nat.mul_add, Nat.mul_one, Nat.add_assoc]
  · have hshift : ∀ i, bucketShift C start L raw (n + 1) i =
        (bucketShift C start L raw n i ^^ C.sacrificeBit start L n (bucketSrc L (raw n % L) i)) := by
      intro i
      simp only [bucketShift, List.range_succ, List.foldl_append, List.foldl_cons, List.foldl_nil]
    have herr : ∀ i, bucketError C start L raw τ (n + 1) i = (bucketError C start L raw τ n i ^^
        (τ.bucket n i && C.sacrificeBit start L n (bucketSrc L (raw n % L) i))) := by
      intro i
      simp only [bucketError, List.range_succ, List.foldl_append, List.foldl_cons, List.foldl_nil]
    refine ⟨hb.rel, fun i hi => ?_, hb.bitB, fun i hi => ?_⟩
    · rw [hb.bitA i hi, hshift, ← Bool.xor_assoc]
      rfl
    · rw [hb.bitC i hi, hshift, herr, ← Bool.xor_assoc (la i)]
      rfl

/-- **The sacrifice layers**, by induction on their number. -/
theorem layeredBucketIntoAcc_ok {h : TripleHalf × TripleHalf} (hL : 0 < L) (B : ℕ)
    (h₀ : LayersOk C start L raw τ la lb 0 h) :
    LayersOk C start L raw τ la lb (B - 1) (layeredBucketIntoAcc E Δ C.s₁ C.s₂ τ raw B L h) := by
  unfold layeredBucketIntoAcc
  generalize B - 1 = n
  induction n with
  | zero => exact h₀
  | succ n ih =>
    rw [List.range_succ, List.foldl_append, List.foldl_cons, List.foldl_nil]
    exact ih.step E hL

variable (C raw τ) in
/-- Layer 0 when `F_eq` has absorbed it: the representative's product is right. -/
theorem layersOk_zero {repA₁ repB₁ repA₂ repB₂ : ℕ → AShareBundle} {t₁ t₂ : TriplePool}
    (hA : ∀ i < L, MacRel Δ (repA₁ i) (repA₂ i)) (hB : ∀ i < L, MacRel Δ (repB₁ i) (repB₂ i))
    (hu : t₁.used = t₂.used) :
    let h₁ := tripleStart C.s₁ L repA₁ repB₁ t₁
    let h₂ := tripleStart C.s₂ L repA₂ repB₂ t₂
    let l := leakyAndHalfgate E Δ L h₁ h₂ h₁.acc h₂.acc
    LayersOk C (t₁.used + L) L raw τ (fun i => shareBit (repA₁ i) (repA₂ i))
      (fun i => shareBit (repB₁ i) (repB₂ i)) 0
      ({ l.1.1 with acc := l.1.2 }, { l.2.1 with acc := l.2.2 }) := by
  intro h₁ h₂ l
  have at₀ : ∀ {A B r : ℕ → AShareBundle} {i : ℕ}, i < L → layerZero L A B r i = A i := by
    intro A B r i hi
    rw [layerZero, if_pos hi]
  have at₁ : ∀ {A B r : ℕ → AShareBundle} {i : ℕ}, i < L → layerZero L A B r (L + i) = B i := by
    intro A B r i hi
    rw [layerZero, if_neg (by omega), if_pos (by omega), Nat.add_sub_cancel_left]
  have at₂ : ∀ {A B r : ℕ → AShareBundle} {i : ℕ}, i < L → layerZero L A B r (2 * L + i) = r i := by
    intro A B r i hi
    rw [layerZero, if_neg (by omega), if_neg (by omega), Nat.add_sub_cancel_left]
  have hagree : HalvesAgree h₁ h₂ := ⟨rfl, rfl, rfl, rfl, by simp [h₁, h₂, tripleStart, TriplePool.genCotShares, hu]⟩
  have hs : TripleOk Δ L h₁.acc h₂.acc (fun i => shareBit (repA₁ i) (repA₂ i))
      (fun i => shareBit (repB₁ i) (repB₂ i)) (fun i => C.bit (t₁.used + i)) := by
    refine ⟨fun i hi => ?_, fun i hi => ?_, fun i hi => ?_, fun i hi => ?_⟩
    · simp only [h₁, h₂, tripleStart, TriplePool.genCotShares, ← hu]
      by_cases h₀ : i < L
      · rw [at₀ h₀, at₀ h₀]
        exact hA i h₀
      · by_cases h₁ : i < 2 * L
        · obtain ⟨k, rfl⟩ : ∃ k, i = L + k := ⟨i - L, by omega⟩
          rw [at₁ (by omega), at₁ (by omega)]
          exact hB k (by omega)
        · obtain ⟨k, rfl⟩ : ∃ k, i = 2 * L + k := ⟨i - 2 * L, by omega⟩
          rw [at₂ (by omega), at₂ (by omega)]
          exact C.rel _
    · simp only [h₁, h₂, tripleStart, at₀ hi]
    · simp only [h₁, h₂, tripleStart, at₁ hi]
    · simp only [h₁, h₂, tripleStart, at₂ hi, TriplePool.genCotShares, ← hu]
      rfl
  obtain ⟨hl, hlay, -, -, hpool, -⟩ := leakyAndHalfgate_ok E hagree hs
  refine ⟨⟨hl.emitc₁, hl.gmitc₂, hl.emitc₂, hl.feq, hl.used⟩, ?_, ?_⟩
  · change l.1.1.pool.used = _
    rw [hpool]
    rfl
  · simpa [bucketShift, bucketError] using hlay

/-! ### Reconciliation -/

/-- `out_sigma[i]` from a triple `(X, Y, Z)` and public `xb`, `yb`: an authenticated share of
`Z ⊕ xb·Y ⊕ yb·X ⊕ xb·yb`. -/
theorem reconcileSigma_ok {acc₁ acc₂ : Layer} {a b c : ℕ → Bool} (hacc : TripleOk Δ L acc₁ acc₂ a b c)
    (xb yb : ℕ → Bool) {i : ℕ} (hi : i < L) :
    MacRel Δ (reconcileSigma .alice Δ.d1 L acc₁ xb yb i) (reconcileSigma .bob Δ.d2 L acc₂ xb yb i) ∧
      shareBit (reconcileSigma .alice Δ.d1 L acc₁ xb yb i) (reconcileSigma .bob Δ.d2 L acc₂ xb yb i) =
        (c i ^^ (xb i && b i) ^^ (yb i && a i) ^^ (xb i && yb i)) := by
  have hZY := macRel_xor_scale (hacc.rel (2 * L + i) (by omega)) (hacc.rel (L + i) (by omega)) (xb i)
  have hZYX := macRel_xor_scale hZY.1 (hacc.rel i (by omega)) (yb i)
  have hfold := macRel_fold hZYX.1 (xb i && yb i)
  rw [hZYX.2, hZY.2, hacc.bitC i hi, hacc.bitB i hi, hacc.bitA i hi] at hfold
  simpa only [reconcileSigma, selectMask_and] using hfold

/-- The bits the two parties open in the reconcile step. -/
theorem reconcileOpen_xor {repA₁ repB₁ repA₂ repB₂ acc₁ acc₂ : ℕ → AShareBundle} (i : ℕ) :
    ((reconcileOpen L repA₁ repB₁ acc₁ i).1 ^^ (reconcileOpen L repA₂ repB₂ acc₂ i).1) =
        (shareBit (repA₁ i) (repA₂ i) ^^ shareBit (acc₁ i) (acc₂ i)) ∧
      ((reconcileOpen L repA₁ repB₁ acc₁ i).2 ^^ (reconcileOpen L repA₂ repB₂ acc₂ i).2) =
        (shareBit (repB₁ i) (repB₂ i) ^^ shareBit (acc₁ (L + i)) (acc₂ (L + i))) := by
  simp only [reconcileOpen, shareBit]
  constructor
  · cases LSB (repA₁ i).mac <;> cases LSB (repA₂ i).mac <;> cases LSB (acc₁ i).mac <;>
      cases LSB (acc₂ i).mac <;> rfl
  · cases LSB (repB₁ i).mac <;> cases LSB (repB₂ i).mac <;> cases LSB (acc₁ (L + i)).mac <;>
      cases LSB (acc₂ (L + i)).mac <;> rfl

end

/-! ### The whole computation -/

section

variable {D : Type} [DecidableEq D] (E : EmpTool D) {Δ : Deltas} (C : CotStream Δ)

/-- The check of two equal digests passes. -/
theorem feqCheck_self (d : D) (r : Block) (msg : String) : feqCheck E d d r msg = .ok () := by
  simp [feqCheck, feqCheck₁, feqCheck₂]
  rfl

/-- **What `compute_inplace` produces** when one party xors `τ` into the bits it opens: both
parties pass `F_eq`, and `out_sigma[i]` is an authenticated share of `λ_α ∧ λ_β` plus
`sigmaError`. -/
theorem computeInplaceWith_ok (τ : Tamper) (raw : ℕ → ℕ) (nonce : Block) (B L : ℕ)
    {repA₁ repB₁ repA₂ repB₂ : ℕ → AShareBundle} {t₁ t₂ : TriplePool}
    (hA : ∀ i < L, MacRel Δ (repA₁ i) (repA₂ i)) (hB : ∀ i < L, MacRel Δ (repB₁ i) (repB₂ i))
    (hu : t₁.used = t₂.used) :
    ∃ σ t, computeInplaceWith E Δ C.s₁ C.s₂ τ raw nonce B L repA₁ repB₁ repA₂ repB₂ t₁ t₂ = .ok (σ, t) ∧
      t.1.used = t.2.used ∧
      ∀ i < L, MacRel Δ (σ.1 i) (σ.2 i) ∧ shareBit (σ.1 i) (σ.2 i) =
        ((shareBit (repA₁ i) (repA₂ i) && shareBit (repB₁ i) (repB₂ i)) ^^
          sigmaError C (t₁.used + L) L raw τ B (fun i => shareBit (repA₁ i) (repA₂ i))
            (fun i => shareBit (repB₁ i) (repB₂ i)) i) := by
  unfold computeInplaceWith
  by_cases hL : L = 0
  · subst hL
    exact ⟨_, _, if_pos rfl, hu, fun i hi => absurd hi (Nat.not_lt_zero i)⟩
  have hlayers : LayersOk C (t₁.used + L) L raw τ (fun i => shareBit (repA₁ i) (repA₂ i))
      (fun i => shareBit (repB₁ i) (repB₂ i)) (B - 1)
      (computeLayers E Δ C.s₁ C.s₂ τ raw B L repA₁ repB₁ repA₂ repB₂ t₁ t₂) :=
    layeredBucketIntoAcc_ok E (Nat.pos_of_ne_zero hL) B (layersOk_zero E C raw τ hA hB hu)
  rw [if_neg hL]
  generalize computeLayers E Δ C.s₁ C.s₂ τ raw B L repA₁ repB₁ repA₂ repB₂ t₁ t₂ = h at hlayers ⊢
  dsimp only
  rw [hlayers.agree.feq, feqCheck_self]
  refine ⟨_, _, rfl, hlayers.agree.used, fun i hi => ?_⟩
  have hσ := reconcileSigma_ok hlayers.acc
    (fun i => τ.apply .alice (τ.xb i) (reconcileOpen L repA₁ repB₁ h.1.acc i).1 ^^
      τ.apply .bob (τ.xb i) (reconcileOpen L repA₂ repB₂ h.2.acc i).1)
    (fun i => τ.apply .alice (τ.yb i) (reconcileOpen L repA₁ repB₁ h.1.acc i).2 ^^
      τ.apply .bob (τ.yb i) (reconcileOpen L repA₂ repB₂ h.2.acc i).2) hi
  refine ⟨hσ.1, hσ.2.trans ?_⟩
  -- `X = λ_α ⊕ shift`, `Y = λ_β`, so the opened bits are `shift ⊕ err` and `err`
  simp only [Tamper.apply_xor, (reconcileOpen_xor i).1, (reconcileOpen_xor i).2,
    hlayers.acc.bitA i hi, hlayers.acc.bitB i hi, sigmaError]
  cases shareBit (repA₁ i) (repA₂ i) <;> cases shareBit (repB₁ i) (repB₂ i) <;>
    cases bucketShift C (t₁.used + L) L raw (B - 1) i <;>
    cases bucketError C (t₁.used + L) L raw τ (B - 1) i <;> cases τ.xb i <;> cases τ.yb i <;> rfl

variable {repA₁ repB₁ repA₂ repB₂ : ℕ → AShareBundle} {t₁ t₂ : TriplePool}

/-- The bit of an AND gate's `σ` is the product of the two operand masks. -/
def SigmaSound (L : ℕ) (repA₁ repB₁ repA₂ repB₂ : ℕ → AShareBundle)
    (σ : (ℕ → AShareBundle) × (ℕ → AShareBundle)) (Δ : Deltas) : Prop :=
  ∀ i < L, MacRel Δ (σ.1 i) (σ.2 i) ∧ shareBit (σ.1 i) (σ.2 i) =
    (shareBit (repA₁ i) (repA₂ i) && shareBit (repB₁ i) (repB₂ i))

/-- **When tampered openings do no harm**: every run that does not abort ends with authenticated
shares of the products exactly when the errors cancel at every gate. -/
theorem computeInplace_sound_iff (τ : Tamper) (raw : ℕ → ℕ) (nonce : Block) (B L : ℕ)
    (hA : ∀ i < L, MacRel Δ (repA₁ i) (repA₂ i)) (hB : ∀ i < L, MacRel Δ (repB₁ i) (repB₂ i))
    (hu : t₁.used = t₂.used) :
    (∀ σ t, computeInplaceWith E Δ C.s₁ C.s₂ τ raw nonce B L repA₁ repB₁ repA₂ repB₂ t₁ t₂ = .ok (σ, t) →
        SigmaSound L repA₁ repB₁ repA₂ repB₂ σ Δ) ↔
      ∀ i < L, sigmaError C (t₁.used + L) L raw τ B (fun i => shareBit (repA₁ i) (repA₂ i))
        (fun i => shareBit (repB₁ i) (repB₂ i)) i = false := by
  obtain ⟨σ, t, hrun, -, hσ⟩ := computeInplaceWith_ok E C τ raw nonce B L hA hB hu
  constructor
  · intro h i hi
    have hsound := (h σ t hrun i hi).2
    rw [(hσ i hi).2] at hsound
    exact Bool.xor_right_inj.mp (hsound.trans (Bool.xor_false _).symm)
  · intro hzero σ' t' hrun' i hi
    rw [hrun] at hrun'
    obtain ⟨rfl, rfl⟩ : σ = σ' ∧ t = t' := by simpa using hrun'
    refine ⟨(hσ i hi).1, (hσ i hi).2.trans ?_⟩
    rw [hzero i hi, Bool.xor_false]

/-- Without errors on the bucket openings only those on `xb` and `yb` count. -/
theorem bucketError_eq_false {τ : Tamper} (hτ : ∀ k i, τ.bucket k i = false) (start L : ℕ)
    (raw : ℕ → ℕ) (n i : ℕ) : bucketError C start L raw τ n i = false := by
  unfold bucketError
  induction n with
  | zero => rfl
  | succ n ih =>
    rw [List.range_succ, List.foldl_append, ih, List.foldl_cons, List.foldl_nil, hτ, Bool.false_and,
      Bool.xor_false]

/-- With no errors, at any bucket size. -/
theorem computeInplaceWith_none (raw : ℕ → ℕ) (nonce : Block) (B L : ℕ)
    (hA : ∀ i < L, MacRel Δ (repA₁ i) (repA₂ i)) (hB : ∀ i < L, MacRel Δ (repB₁ i) (repB₂ i))
    (hu : t₁.used = t₂.used) :
    ∃ σ t, computeInplaceWith E Δ C.s₁ C.s₂ .none raw nonce B L repA₁ repB₁ repA₂ repB₂ t₁ t₂ = .ok (σ, t) ∧
      t.1.used = t.2.used ∧ SigmaSound L repA₁ repB₁ repA₂ repB₂ σ Δ := by
  obtain ⟨σ, t, hrun, hused, hσ⟩ := computeInplaceWith_ok E C .none raw nonce B L hA hB hu
  have hzero : ∀ i < L, sigmaError C (t₁.used + L) L raw .none B
      (fun i => shareBit (repA₁ i) (repA₂ i)) (fun i => shareBit (repB₁ i) (repB₂ i)) i = false := by
    intro i _
    rw [sigmaError, bucketError_eq_false C (fun _ _ => rfl)]
    rfl
  refine ⟨σ, t, hrun, hused, fun i hi => ⟨(hσ i hi).1, (hσ i hi).2.trans ?_⟩⟩
  rw [hzero i hi, Bool.xor_false]

/-- **`compute_inplace` is correct**: two honest parties pass the check and end with
authenticated shares of `λ_α ∧ λ_β` at every gate. -/
theorem computeInplace_ok (ssp : ℕ) (raw : ℕ → ℕ) (nonce : Block) (L : ℕ)
    (hA : ∀ i < L, MacRel Δ (repA₁ i) (repA₂ i)) (hB : ∀ i < L, MacRel Δ (repB₁ i) (repB₂ i))
    (hu : t₁.used = t₂.used) :
    ∃ σ t, computeInplace E Δ C.s₁ C.s₂ ssp raw nonce L repA₁ repB₁ repA₂ repB₂ t₁ t₂ = .ok (σ, t) ∧
      t.1.used = t.2.used ∧ SigmaSound L repA₁ repB₁ repA₂ repB₂ σ Δ :=
  computeInplaceWith_none E C raw nonce (getBucketSize ssp L) L hA hB hu

end

/-! ### One flipped bit of `xb` -/

/-- A COT stream all of whose shares are of zero. -/
def CotStream.zeros (Δ : Deltas) : CotStream Δ := ⟨fun _ => .zero, fun _ => .zero, fun _ => .zero⟩

/-- The evaluator flips the bit of `xb` it opens at gate 0. -/
def flipXb : Tamper := ⟨.bob, fun _ _ => false, fun i => decide (i = 0), fun _ => false⟩

/-- Authenticated shares of the bit one. -/
def sharesOfOne (Δ : Deltas) : AShareBundle × AShareBundle := (⟨Δ.d2, zeroBlock⟩, .zero)

theorem macRel_sharesOfOne (Δ : Deltas) : MacRel Δ (sharesOfOne Δ).1 (sharesOfOne Δ).2 :=
  .of_bits true false (by simp [sharesOfOne, zeroBlock]) (by simp [sharesOfOne, zeroBlock])
    (by simp [sharesOfOne]) (by simp [sharesOfOne])

/-- With one gate, `λ_α = 0` and `λ_β = 1`, one flipped bit of `xb` passes every check and
turns `σ = 0` into `σ = 1`. -/
theorem computeInplace_flipXb :
    ∃ σ t, computeInplaceWith .transparent (.init 0 0) (CotStream.zeros (.init 0 0)).s₁
        (CotStream.zeros (.init 0 0)).s₂ flipXb (fun _ => 0) zeroBlock (getBucketSize 40 1) 1
        (fun _ => .zero) (fun _ => (sharesOfOne (.init 0 0)).1) (fun _ => .zero)
        (fun _ => (sharesOfOne (.init 0 0)).2) {} {} = .ok (σ, t) ∧
      ¬ SigmaSound 1 (fun _ => .zero) (fun _ => (sharesOfOne (.init 0 0)).1) (fun _ => .zero)
        (fun _ => (sharesOfOne (.init 0 0)).2) σ (.init 0 0) := by
  obtain ⟨σ, t, hrun, -, hσ⟩ := computeInplaceWith_ok EmpTool.transparent
    (CotStream.zeros (.init 0 0)) flipXb (fun _ => 0) zeroBlock (getBucketSize 40 1) 1
    (fun _ _ => MacRel.zero) (fun _ _ => macRel_sharesOfOne _) (rfl : ({} : TriplePool).used = _)
  refine ⟨σ, t, hrun, fun hsound => ?_⟩
  have h := (hσ 0 Nat.one_pos).2.symm.trans (hsound 0 Nat.one_pos).2
  rw [sigmaError, bucketError_eq_false _ (fun _ _ => rfl)] at h
  revert h
  decide

/-- The evaluator flips every bit it opens. -/
def flipAll : Tamper := ⟨.bob, fun _ _ => true, fun _ => true, fun _ => true⟩

/-- On the same gate these errors cancel: the run goes through, and every run that does ends with the product. -/
theorem computeInplace_sound_iff_flipAll :
    (∃ out, computeInplaceWith .transparent (.init 0 0) (CotStream.zeros (.init 0 0)).s₁
        (CotStream.zeros (.init 0 0)).s₂ flipAll (fun _ => 0) zeroBlock (getBucketSize 40 1) 1
        (fun _ => .zero) (fun _ => (sharesOfOne (.init 0 0)).1) (fun _ => .zero)
        (fun _ => (sharesOfOne (.init 0 0)).2) {} {} = .ok out) ∧
      ∀ σ t, computeInplaceWith .transparent (.init 0 0) (CotStream.zeros (.init 0 0)).s₁
          (CotStream.zeros (.init 0 0)).s₂ flipAll (fun _ => 0) zeroBlock (getBucketSize 40 1) 1
          (fun _ => .zero) (fun _ => (sharesOfOne (.init 0 0)).1) (fun _ => .zero)
          (fun _ => (sharesOfOne (.init 0 0)).2) {} {} = .ok (σ, t) →
        SigmaSound 1 (fun _ => .zero) (fun _ => (sharesOfOne (.init 0 0)).1) (fun _ => .zero)
          (fun _ => (sharesOfOne (.init 0 0)).2) σ (.init 0 0) := by
  obtain ⟨σ, t, hrun, -⟩ := computeInplaceWith_ok EmpTool.transparent
    (CotStream.zeros (.init 0 0)) flipAll (fun _ => 0) zeroBlock (getBucketSize 40 1) 1
    (fun _ _ => MacRel.zero) (fun _ _ => macRel_sharesOfOne _) (rfl : ({} : TriplePool).used = _)
  refine ⟨⟨_, hrun⟩, ?_⟩
  exact (computeInplace_sound_iff .transparent (CotStream.zeros (.init 0 0)) flipAll (fun _ => 0) zeroBlock
    (getBucketSize 40 1) 1 (fun _ _ => MacRel.zero) (fun _ _ => macRel_sharesOfOne _) rfl).mpr
    fun i hi => by
      obtain rfl : i = 0 := Nat.lt_one_iff.mp hi
      decide

end AG2PC
