import AG2PC.Backend.AuthenticatedAnd
import AG2PC.Library.ByIndex

/-!
# Honest AND generation

`compute_inplace` at two honest parties, layer by layer and with the coin each of them
draws for itself: the shift of a sacrifice layer comes from the digests of the two
channels, `RO(…).absorb(io).absorb(sib)`, at the party that draws it.

* `bucketSrc_existsUnique` — a shift visits every candidate of a layer once.
* `honestLayer_eq_sacrificeLayer` — with one shift at both parties the layer is the one of
  `layered_bucket_into_acc`.
* `computeInplaceCoins_honest` — with equal digests both parties draw the same shifts, put
  the same `L`-vector of every layer into `F_eq`, fold every candidate once, pass the check
  and end with authenticated shares of `λ_α ∧ λ_β`.
-/

namespace AG2PC

open Library.XorAlgebra Library.ByIndex

/-! ### The public coin -/

/-- The digests of the two channels at a party when it draws a shift. -/
structure Transcript (T : Type) where
  /-- `io->get_digest()`. -/
  io : T
  /-- `sib->get_digest()`. -/
  sib : T

/-- What the code calls to draw a shift. -/
structure PublicCoin (T : Type) where
  /-- `RO("AG2PC RO", zero_block).absorb(io).absorb(sib).squeeze_block()`. -/
  squeeze : T → T → Block
  /-- The 32 bits `random_data_unaligned` takes from a generator with this seed. -/
  random32 : Block → UInt32

/-- `raw`. -/
def PublicCoin.raw {T : Type} (c : PublicCoin T) (tr : Transcript T) : ℕ :=
  (c.random32 (c.squeeze tr.io tr.sib)).toNat

/-- `r_k = raw % L`. -/
def PublicCoin.shift {T : Type} (c : PublicCoin T) (tr : Transcript T) (L : ℕ) : ℕ := c.raw tr % L

/-- A shift visits every index once. -/
theorem bucketSrc_existsUnique {L r : ℕ} (hr : r < L) {j : ℕ} (hj : j < L) :
    ∃! i, i < L ∧ bucketSrc L r i = j := by
  refine ⟨if r ≤ j then j - r else j + L - r, ⟨?_, ?_⟩, ?_⟩
  · split <;> omega
  · unfold bucketSrc
    split <;> split <;> omega
  · rintro i ⟨hi, rfl⟩
    unfold bucketSrc
    split <;> split <;> omega

/-! ### The layers -/

section

variable {D T : Type} (E : EmpTool D) (Δ : Deltas) (cot₁ cot₂ : ℕ → AShareBundle)

/-- One sacrifice layer at two honest parties that have drawn the shifts `r₁` and `r₂`. -/
def honestLayer (L : ℕ) (h : TripleHalf × TripleHalf) (r₁ r₂ : ℕ) : TripleHalf × TripleHalf :=
  let m₁ := h.1.pool.genCotShares cot₁ (3 * L)
  let m₂ := h.2.pool.genCotShares cot₂ (3 * L)
  let l := leakyAndHalfgate E Δ L { h.1 with pool := m₁.2 } { h.2 with pool := m₂.2 } m₁.1 m₂.1
  let d := fun i => bucketOpen L r₁ l.1.1.acc l.1.2 i ^^ bucketOpen L r₂ l.2.1.acc l.2.2 i
  ({ l.1.1 with acc := bucketFold L r₁ (bucketAdd L r₁ l.1.1.acc l.1.2) l.1.2 d },
    { l.2.1 with acc := bucketFold L r₂ (bucketAdd L r₂ l.2.1.acc l.2.2) l.2.2 d })

/-- The two parties after layer 0. -/
def honestStart (L : ℕ) (repA₁ repB₁ repA₂ repB₂ : ℕ → AShareBundle) (t₁ t₂ : TriplePool) :
    TripleHalf × TripleHalf :=
  let h₁ := tripleStart cot₁ L repA₁ repB₁ t₁
  let h₂ := tripleStart cot₂ L repA₂ repB₂ t₂
  let l := leakyAndHalfgate E Δ L h₁ h₂ h₁.acc h₂.acc
  ({ l.1.1 with acc := l.1.2 }, { l.2.1 with acc := l.2.2 })

/-- The two parties after layer 0 and `n` sacrifice layers. -/
def honestLayers (coin : PublicCoin T) (tr₁ tr₂ : ℕ → Transcript T) (L : ℕ)
    (repA₁ repB₁ repA₂ repB₂ : ℕ → AShareBundle) (t₁ t₂ : TriplePool) (n : ℕ) : TripleHalf × TripleHalf :=
  (List.range n).foldl (fun h k => honestLayer E Δ cot₁ cot₂ L h (coin.shift (tr₁ k) L) (coin.shift (tr₂ k) L))
    (honestStart E Δ cot₁ cot₂ L repA₁ repB₁ repA₂ repB₂ t₁ t₂)

/-- `compute_inplace` at two honest parties with bucket size `B`. -/
def computeInplaceCoins [DecidableEq D] (coin : PublicCoin T) (tr₁ tr₂ : ℕ → Transcript T) (nonce : Block)
    (B L : ℕ) (repA₁ repB₁ repA₂ repB₂ : ℕ → AShareBundle) (t₁ t₂ : TriplePool) :
    Except String (((ℕ → AShareBundle) × (ℕ → AShareBundle)) × TriplePool × TriplePool) :=
  if L = 0 then .ok ((fun _ => default, fun _ => default), t₁, t₂)
  else do
    let h := honestLayers E Δ cot₁ cot₂ coin tr₁ tr₂ L repA₁ repB₁ repA₂ repB₂ t₁ t₂ (B - 1)
    feqCheck E (E.hash h.1.feq) (E.hash h.2.feq) nonce "LaAND F_eq: leaky-AND check failed"
    return (reconcile Δ .none L repA₁ repB₁ repA₂ repB₂ h.1.acc h.2.acc, h.1.pool, h.2.pool)

variable {E Δ cot₁ cot₂} {coin : PublicCoin T} {tr₁ tr₂ : ℕ → Transcript T} {L : ℕ}
variable {repA₁ repB₁ repA₂ repB₂ : ℕ → AShareBundle} {t₁ t₂ : TriplePool}

/-- With one shift at both parties it is the layer of `layered_bucket_into_acc`. -/
theorem honestLayer_eq_sacrificeLayer (raw : ℕ → ℕ) (h : TripleHalf × TripleHalf) (k : ℕ) :
    honestLayer E Δ cot₁ cot₂ L h (raw k % L) (raw k % L) = sacrificeLayer E Δ cot₁ cot₂ .none raw L h k := by
  have hnone : ∀ (p : Party) (b : Bool), Tamper.none.apply p false b = b := by
    intro p b
    cases p <;> cases b <;> rfl
  simp only [honestLayer, sacrificeLayer, bucketOneLayer, Tamper.none] at hnone ⊢
  simp only [hnone]

/-- With equal digests the layers are those of `layered_bucket_into_acc`. -/
theorem honestLayers_eq (htr : ∀ k, tr₁ k = tr₂ k) (n : ℕ) :
    honestLayers E Δ cot₁ cot₂ coin tr₁ tr₂ L repA₁ repB₁ repA₂ repB₂ t₁ t₂ n =
      layeredBucketIntoAcc E Δ cot₁ cot₂ .none (fun k => coin.raw (tr₁ k)) (n + 1) L
        (honestStart E Δ cot₁ cot₂ L repA₁ repB₁ repA₂ repB₂ t₁ t₂) := by
  unfold honestLayers layeredBucketIntoAcc
  refine congrArg (fun f => List.foldl f _ _) (funext fun h => funext fun k => ?_)
  rw [← htr k]
  exact honestLayer_eq_sacrificeLayer (fun k => coin.raw (tr₁ k)) h k

/-- With equal digests it is the computation with no tampered opening. -/
theorem computeInplaceCoins_eq [DecidableEq D] (htr : ∀ k, tr₁ k = tr₂ k) (nonce : Block) (B : ℕ) :
    computeInplaceCoins E Δ cot₁ cot₂ coin tr₁ tr₂ nonce B L repA₁ repB₁ repA₂ repB₂ t₁ t₂ =
      computeInplaceWith E Δ cot₁ cot₂ .none (fun k => coin.raw (tr₁ k)) nonce B L
        repA₁ repB₁ repA₂ repB₂ t₁ t₂ := by
  unfold computeInplaceCoins computeInplaceWith
  rw [honestLayers_eq htr]
  rfl

/-- A sacrifice layer puts one `L`-vector into `F_eq`. -/
theorem honestLayer_feq (h : TripleHalf × TripleHalf) (r₁ r₂ : ℕ) :
    ∃ w : List Block, w.length = L ∧ (honestLayer E Δ cot₁ cot₂ L h r₁ r₂).1.feq = h.1.feq ++ w :=
  ⟨_, (List.length_map _).trans List.length_range, rfl⟩

/-- A sacrifice layer adds to each triple's `a` the `a` of the candidate its shift gives. -/
theorem honestLayer_acc (h : TripleHalf × TripleHalf) {r₁ r₂ i : ℕ} (hr₁ : r₁ < L) (hr₂ : r₂ < L) (hi : i < L) :
    (honestLayer E Δ cot₁ cot₂ L h r₁ r₂).1.acc i = h.1.acc i ^^^ cot₁ (h.1.pool.used + bucketSrc L r₁ i) ∧
      (honestLayer E Δ cot₁ cot₂ L h r₁ r₂).2.acc i = h.2.acc i ^^^ cot₂ (h.2.pool.used + bucketSrc L r₂ i) := by
  -- the `a`-region is touched by the first loop only, and the leaky AND leaves that of the layer
  have hadd : ∀ {acc lay : Layer} {r : ℕ} {d : ℕ → Bool},
      bucketFold L r (bucketAdd L r acc lay) lay d i = acc i ^^^ lay (bucketSrc L r i) := by
    intro acc lay r d
    rw [bucketFold, forRegion_of_lt (by omega), bucketAdd, forRegion_of_lt (by omega), forRegion_zero hi]
  have hsrc₁ := bucketSrc_lt hr₁ hi
  have hsrc₂ := bucketSrc_lt hr₂ hi
  simp only [honestLayer, hadd]
  refine ⟨congrArg (h.1.acc i ^^^ ·) ?_, congrArg (h.2.acc i ^^^ ·) ?_⟩
  · simp only [leakyAndHalfgate, leakyFold]
    rw [forRegion_of_lt (by omega)]
    rfl
  · simp only [leakyAndHalfgate, leakyFold]
    rw [forRegion_of_lt (by omega)]
    rfl

/-- One more layer. -/
theorem honestLayers_succ (n : ℕ) :
    honestLayers E Δ cot₁ cot₂ coin tr₁ tr₂ L repA₁ repB₁ repA₂ repB₂ t₁ t₂ (n + 1) =
      honestLayer E Δ cot₁ cot₂ L (honestLayers E Δ cot₁ cot₂ coin tr₁ tr₂ L repA₁ repB₁ repA₂ repB₂ t₁ t₂ n)
        (coin.shift (tr₁ n) L) (coin.shift (tr₂ n) L) := by
  rw [honestLayers, List.range_succ, List.foldl_append, List.foldl_cons, List.foldl_nil]
  rfl

variable (E Δ cot₁ cot₂ coin tr₁ tr₂ L repA₁ repB₁ repA₂ repB₂ t₁ t₂) in
/-- What the garbler puts into `F_eq`: one `L`-vector a layer. -/
theorem honestLayers_feq :
    ∃ v : ℕ → List Block, (∀ k, (v k).length = L) ∧
      ∀ n, (honestLayers E Δ cot₁ cot₂ coin tr₁ tr₂ L repA₁ repB₁ repA₂ repB₂ t₁ t₂ n).1.feq =
        (List.range (n + 1)).flatMap v := by
  refine exists_pieces ?_ fun n => ?_
  · change (honestStart E Δ cot₁ cot₂ L repA₁ repB₁ repA₂ repB₂ t₁ t₂).1.feq.length = L
    simp only [honestStart, leakyAndHalfgate, leakyFold, tripleStart, List.nil_append, List.length_map,
      List.length_range]
  · rw [honestLayers_succ]
    exact honestLayer_feq _ _ _

end

/-! ### The honest run -/

section

variable {D T : Type} [DecidableEq D] (E : EmpTool D) {Δ : Deltas} (C : CotStream Δ)
variable (coin : PublicCoin T) (tr₁ tr₂ : ℕ → Transcript T) (L : ℕ)
variable (repA₁ repB₁ repA₂ repB₂ : ℕ → AShareBundle) (t₁ t₂ : TriplePool)

/-- The layers of an honest run. -/
structure LayersHonest : Prop where
  /-- Both parties draw the same shift. -/
  shifts : ∀ k, coin.shift (tr₁ k) L = coin.shift (tr₂ k) L ∧ coin.shift (tr₁ k) L < L
  /-- They put the same vector of every layer into `F_eq`. -/
  vectors : ∃ v : ℕ → List Block, (∀ k, (v k).length = L) ∧ ∀ n,
    (honestLayers E Δ C.s₁ C.s₂ coin tr₁ tr₂ L repA₁ repB₁ repA₂ repB₂ t₁ t₂ n).1.feq =
        (List.range (n + 1)).flatMap v ∧
      (honestLayers E Δ C.s₁ C.s₂ coin tr₁ tr₂ L repA₁ repB₁ repA₂ repB₂ t₁ t₂ n).2.feq =
        (List.range (n + 1)).flatMap v
  /-- Sacrifice layer `n` adds to the `a` of gate `i` the `a` of the candidate at `src`. -/
  folds : ∀ n, ∀ i < L,
    let h := honestLayers E Δ C.s₁ C.s₂ coin tr₁ tr₂ L repA₁ repB₁ repA₂ repB₂ t₁ t₂ n
    let h' := honestLayers E Δ C.s₁ C.s₂ coin tr₁ tr₂ L repA₁ repB₁ repA₂ repB₂ t₁ t₂ (n + 1)
    h'.1.acc i = h.1.acc i ^^^ C.s₁ (h.1.pool.used + bucketSrc L (coin.shift (tr₁ n) L) i) ∧
      h'.2.acc i = h.2.acc i ^^^ C.s₂ (h.2.pool.used + bucketSrc L (coin.shift (tr₂ n) L) i)
  /-- Every candidate of a layer is folded into one gate. -/
  once : ∀ k, ∀ j < L, ∃! i, i < L ∧ bucketSrc L (coin.shift (tr₁ k) L) i = j

variable {coin tr₁ tr₂ L repA₁ repB₁ repA₂ repB₂ t₁ t₂}

/-- **Honest AND generation**: from authenticated operand masks and equal digests the layers are
honest, `F_eq` passes at every bucket size, and `out_sigma` is an authenticated share of the product
at every gate. -/
theorem computeInplaceCoins_honest (nonce : Block) (B : ℕ) (hL : 1 ≤ L)
    (hA : ∀ i < L, MacRel Δ (repA₁ i) (repA₂ i)) (hB : ∀ i < L, MacRel Δ (repB₁ i) (repB₂ i))
    (hu : t₁.used = t₂.used) (htr : ∀ k, tr₁ k = tr₂ k) :
    LayersHonest E C coin tr₁ tr₂ L repA₁ repB₁ repA₂ repB₂ t₁ t₂ ∧
      ∃ σ t, computeInplaceCoins E Δ C.s₁ C.s₂ coin tr₁ tr₂ nonce B L repA₁ repB₁ repA₂ repB₂ t₁ t₂ = .ok (σ, t) ∧
        t.1.used = t.2.used ∧ SigmaSound L repA₁ repB₁ repA₂ repB₂ σ Δ := by
  have hshift : ∀ tr : Transcript T, coin.shift tr L < L := fun tr => Nat.mod_lt _ hL
  have hok : ∀ n, LayersOk C (t₁.used + L) L (fun k => coin.raw (tr₁ k)) .none (fun i => shareBit (repA₁ i) (repA₂ i))
      (fun i => shareBit (repB₁ i) (repB₂ i)) n
      (honestLayers E Δ C.s₁ C.s₂ coin tr₁ tr₂ L repA₁ repB₁ repA₂ repB₂ t₁ t₂ n) := by
    intro n
    rw [honestLayers_eq htr]
    exact layeredBucketIntoAcc_ok E hL (n + 1) (layersOk_zero E C _ .none hA hB hu)
  refine ⟨⟨fun k => ⟨by rw [htr k], hshift _⟩, ?_, fun n i hi => ?_, fun k j hj => bucketSrc_existsUnique (hshift _) hj⟩, ?_⟩
  · obtain ⟨v, hlen, hv⟩ := honestLayers_feq E Δ C.s₁ C.s₂ coin tr₁ tr₂ L repA₁ repB₁ repA₂ repB₂ t₁ t₂
    exact ⟨v, hlen, fun n => ⟨hv n, (hok n).agree.feq ▸ hv n⟩⟩
  · rw [honestLayers_succ]
    exact honestLayer_acc _ (hshift _) (hshift _) hi
  · rw [computeInplaceCoins_eq htr]
    exact computeInplaceWith_none E C _ nonce B L hA hB hu

end

/-- A coin that is the sum of the two digests. -/
def PublicCoin.transparent : PublicCoin Block := ⟨fun io sib => io ^^^ sib, fun S => .ofNat S.toNat⟩

/-- Two gates, both masks one, the shifts `0, 1, 0, 1, …`. -/
theorem computeInplaceCoins_honest_ones :
    LayersHonest .transparent (CotStream.zeros (.init 0 0)) .transparent (fun k => ⟨BitVec.ofNat 128 k, 0⟩)
        (fun k => ⟨BitVec.ofNat 128 k, 0⟩) 2 (fun _ => (sharesOfOne (.init 0 0)).1)
        (fun _ => (sharesOfOne (.init 0 0)).1) (fun _ => (sharesOfOne (.init 0 0)).2)
        (fun _ => (sharesOfOne (.init 0 0)).2) {} {} ∧
      ∃ σ t, computeInplaceCoins .transparent (.init 0 0) (CotStream.zeros (.init 0 0)).s₁
          (CotStream.zeros (.init 0 0)).s₂ .transparent (fun k => ⟨BitVec.ofNat 128 k, 0⟩)
          (fun k => ⟨BitVec.ofNat 128 k, 0⟩) zeroBlock 3 2 (fun _ => (sharesOfOne (.init 0 0)).1)
          (fun _ => (sharesOfOne (.init 0 0)).1) (fun _ => (sharesOfOne (.init 0 0)).2)
          (fun _ => (sharesOfOne (.init 0 0)).2) {} {} = .ok (σ, t) ∧
        t.1.used = t.2.used ∧
        SigmaSound 2 (fun _ => (sharesOfOne (.init 0 0)).1) (fun _ => (sharesOfOne (.init 0 0)).1)
          (fun _ => (sharesOfOne (.init 0 0)).2) (fun _ => (sharesOfOne (.init 0 0)).2) σ (.init 0 0) :=
  computeInplaceCoins_honest .transparent (CotStream.zeros (.init 0 0)) zeroBlock 3 (by decide)
    (fun _ _ => macRel_sharesOfOne _) (fun _ _ => macRel_sharesOfOne _) rfl fun _ => rfl

end AG2PC
