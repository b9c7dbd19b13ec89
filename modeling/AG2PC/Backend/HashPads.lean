import AG2PC.Backend.AuthenticatedAnd
import Mathlib.Data.List.Nodup
import Mathlib.Data.List.Flatten

/-!
# The pads of a session

In a leaky AND the garbler's half hides `C = y·Δ ⊕ K[y] ⊕ M[y]` of a candidate under the hashes of
`K[x]` and `K[x] ⊕ Δ`. The hash is tweaked by the number of a key, which runs on through the
batches and layers of one call of `compute_inplace`; but every call starts again from `pair_seed`,
and layer 0 hashes the key of a wire that may already have been an operand in an earlier call.
This module lists the pads of a session and decides when all are different.

* `computeLayers_pads` — the pads of one call, in closed form: candidate `i` of layer `ℓ` is hashed
  under key number `8⌈L/8⌉·ℓ + i`.
* `callPads_nodup` — one call never repeats a pad.
* `sessionPads_nodup_iff` — a session repeats none exactly when no two candidates of different
  calls have the same position and the same key block.
* `leakyGarble_pads` — a ciphertext is the hash of its candidate's pad plus `C`, so that two
  ciphertexts under one pad add up to the sum of the two `C`.
-/

namespace AG2PC

open Library.XorAlgebra

/-- The party's component of a pair. -/
def Party.pick {α : Type} (p : Party) (x : α × α) : α :=
  match p with
  | .alice => x.1
  | .bob => x.2

/-! ### One call -/

/-- The key numbers a layer uses up: a multiple of eight. -/
def layerStride (L : ℕ) : ℕ := 8 * ((L + 7) / 8)

theorem le_layerStride (L : ℕ) : L ≤ layerStride L := by
  unfold layerStride
  omega

/-- The key block of the first operand of candidate `i` of layer `ℓ`, in a call that mints from
position `used` on: the representative's in layer 0, a minted share's in the others. -/
def firstKey (cot : ℕ → AShareBundle) (L used : ℕ) (repA : ℕ → AShareBundle) : ℕ → ℕ → Block
  | 0, i => (repA i).key
  | ℓ + 1, i => (cot (used + L + 3 * L * ℓ + i)).key

/-- The pads of layer `ℓ`. -/
def layerPads (cot : ℕ → AShareBundle) (L used : ℕ) (repA : ℕ → AShareBundle) (ℓ : ℕ) : List Pad :=
  (List.range L).map fun i => ⟨pairSeed, layerStride L * ℓ + i, firstKey cot L used repA ℓ i⟩

/-- The pads of the first `n` layers. -/
def callPads (cot : ℕ → AShareBundle) (L used : ℕ) (repA : ℕ → AShareBundle) (n : ℕ) : List Pad :=
  (List.range n).flatMap (layerPads cot L used repA)

section

variable {D : Type} (E : EmpTool D) {Δ : Deltas} {cot₁ cot₂ : ℕ → AShareBundle} {L : ℕ}

variable (cot₁ cot₂) in
/-- What a party's garbler half has done when it has hashed layer 0 and `n` sacrifice layers of a
call that minted from position `u` on. -/
structure PadsOk (p : Party) (L u : ℕ) (repA : ℕ → AShareBundle) (n : ℕ) (h : TripleHalf) : Prop where
  seed : h.gmitc = ⟨pairSeed, layerStride L * (n + 1)⟩
  used : h.pool.used = u + L + 3 * L * n
  pads : h.pads = callPads (p.pick (cot₁, cot₂)) L u repA (n + 1)

/-- A leaky AND appends one layer of pads and moves the key number on by a whole layer. -/
theorem leakyAndHalfgate_pads (p : Party) (h₁ h₂ : TripleHalf) (s₁ s₂ : Layer) :
    let h := p.pick (h₁, h₂)
    let l := p.pick (leakyAndHalfgate E Δ L h₁ h₂ s₁ s₂)
    l.1.gmitc = h.gmitc.advance (layerStride L) ∧ l.1.pool = h.pool ∧
      l.1.pads = h.pads ++ (List.range L).map fun k =>
        ⟨h.gmitc.startPoint, h.gmitc.gid + k, ((p.pick (s₁, s₂)) k).key⟩ := by
  have hlen : (batchStarts L).length = (L + 7) / 8 := by
    rw [batchStarts, List.length_map, List.length_range]
  cases p with
  | alice =>
    refine ⟨?_, rfl, ?_⟩
    · change (leakyGarble E Δ.d1 s₁ L h₁.gmitc (batchStarts L)).1 = _
      rw [leakyGarble_fst, hlen]
      rfl
    · change h₁.pads ++ leakyPads s₁ L h₁.gmitc (batchStarts L) = _
      rw [leakyPads_batchStarts]
      rfl
  | bob =>
    refine ⟨?_, rfl, ?_⟩
    · change (leakyGarble E Δ.d2 s₂ L h₂.gmitc (batchStarts L)).1 = _
      rw [leakyGarble_fst, hlen]
      rfl
    · change h₂.pads ++ leakyPads s₂ L h₂.gmitc (batchStarts L) = _
      rw [leakyPads_batchStarts]
      rfl

/-- One more sacrifice layer hashes one more layer of pads. -/
theorem PadsOk.step {p : Party} {u n : ℕ} {repA : ℕ → AShareBundle} (τ : Tamper) (raw : ℕ → ℕ)
    {h : TripleHalf × TripleHalf} (k : ℕ) (hn : PadsOk cot₁ cot₂ p L u repA n (p.pick h)) :
    PadsOk cot₁ cot₂ p L u repA (n + 1) (p.pick (sacrificeLayer E Δ cot₁ cot₂ τ raw L h k)) := by
  -- the step, as seen by the party's garbler half
  obtain ⟨hseed, hpool, hpads⟩ :
      (p.pick (sacrificeLayer E Δ cot₁ cot₂ τ raw L h k)).gmitc =
          (p.pick h).gmitc.advance (layerStride L) ∧
        (p.pick (sacrificeLayer E Δ cot₁ cot₂ τ raw L h k)).pool.used = (p.pick h).pool.used + 3 * L ∧
        (p.pick (sacrificeLayer E Δ cot₁ cot₂ τ raw L h k)).pads = (p.pick h).pads ++
          (List.range L).map fun i => ⟨(p.pick h).gmitc.startPoint, (p.pick h).gmitc.gid + i,
            (p.pick (cot₁, cot₂) ((p.pick h).pool.used + i)).key⟩ := by
    have hl := leakyAndHalfgate_pads E (Δ := Δ) (L := L) p
      { h.1 with pool := (h.1.pool.genCotShares cot₁ (3 * L)).2 }
      { h.2 with pool := (h.2.pool.genCotShares cot₂ (3 * L)).2 }
      (h.1.pool.genCotShares cot₁ (3 * L)).1 (h.2.pool.genCotShares cot₂ (3 * L)).1
    cases p with
    | alice => exact ⟨hl.1, rfl, hl.2.2⟩
    | bob => exact ⟨hl.1, rfl, hl.2.2⟩
  refine ⟨?_, ?_, ?_⟩
  · rw [hseed, hn.seed]
    rfl
  · rw [hpool, hn.used, Nat.mul_add (3 * L) n 1]
    omega
  · rw [hpads, hn.pads, hn.seed, hn.used, callPads, callPads, List.range_succ (n := n + 1),
      List.flatMap_append, List.flatMap_singleton]
    rfl

/-- **The pads of a call** of `compute_inplace` with bucket size `B`: those of its `B` layers. -/
theorem computeLayers_pads (p : Party) (τ : Tamper) (raw : ℕ → ℕ) (B : ℕ)
    (repA₁ repB₁ repA₂ repB₂ : ℕ → AShareBundle) (t₁ t₂ : TriplePool)
    (cot₁ cot₂ : ℕ → AShareBundle) :
    PadsOk cot₁ cot₂ p L (p.pick (t₁, t₂)).used (p.pick (repA₁, repA₂)) (B - 1)
      (p.pick (computeLayers E Δ cot₁ cot₂ τ raw B L repA₁ repB₁ repA₂ repB₂ t₁ t₂)) := by
  unfold computeLayers layeredBucketIntoAcc
  dsimp only
  generalize B - 1 = n
  induction n with
  | zero =>
    -- layer 0 hashes the keys of `rep_a`
    have hpads₀ : ∀ (t : TriplePool) (cot repA repB : ℕ → AShareBundle),
        ((List.range L).map fun k => (⟨pairSeed, 0 + k,
          ((tripleStart cot L repA repB t).acc k).key⟩ : Pad)) = callPads cot L t.used repA 1 := by
      intro t cot repA repB
      rw [callPads, List.range_one, List.flatMap_singleton, layerPads]
      refine List.map_congr_left fun k hk => ?_
      simp only [tripleStart, layerZero, if_pos (List.mem_range.mp hk), Nat.mul_zero, firstKey]
    obtain ⟨hseed, hpool, hpads⟩ := leakyAndHalfgate_pads E (Δ := Δ) (L := L) p
      (tripleStart cot₁ L repA₁ repB₁ t₁) (tripleStart cot₂ L repA₂ repB₂ t₂)
      (tripleStart cot₁ L repA₁ repB₁ t₁).acc (tripleStart cot₂ L repA₂ repB₂ t₂).acc
    cases p with
    | alice =>
      refine ⟨hseed.trans ?_, congrArg TriplePool.used hpool, hpads.trans (hpads₀ t₁ cot₁ repA₁ repB₁)⟩
      simp [tripleStart, MITCCRH.setS, MITCCRH.advance, Party.pick]
    | bob =>
      refine ⟨hseed.trans ?_, congrArg TriplePool.used hpool, hpads.trans (hpads₀ t₂ cot₂ repA₂ repB₂)⟩
      simp [tripleStart, MITCCRH.setS, MITCCRH.advance, Party.pick]
  | succ n ih =>
    rw [List.range_succ, List.foldl_append, List.foldl_cons, List.foldl_nil]
    exact ih.step E τ raw n

end

/-! ### Ciphertexts -/

/-- The sum of the two hashes of a pad. -/
def Pad.mask {D : Type} (E : EmpTool D) (Δ : Block) (q : Pad) : Block :=
  E.crh q.startPoint q.gid q.block ^^^ E.crh q.startPoint q.gid (q.block ^^^ Δ)

/-- **What the garbler's half sends** for a layer: `C` of every candidate under the mask of its
pad. -/
theorem leakyGarble_pads {D : Type} (E : EmpTool D) (Δ : Block) (s : Layer) (L : ℕ) (g : MITCCRH) :
    (leakyGarble E Δ s L g (batchStarts L)).2.flatten =
      List.zipWith (fun q k => q.mask E Δ ^^^ leakyC Δ s L k) (leakyPads s L g (batchStarts L))
        (List.range L) := by
  rw [leakyGarble_batchStarts, leakyPads_batchStarts, List.zipWith_map_left, List.zipWith_self]
  exact List.map_congr_left fun k _ => rfl

/-! ### Repeated pads -/

section

variable {cot : ℕ → AShareBundle} {L u n : ℕ} {repA : ℕ → AShareBundle}

theorem mem_callPads {q : Pad} :
    q ∈ callPads cot L u repA n ↔ ∃ ℓ < n, ∃ i < L,
      q = ⟨pairSeed, layerStride L * ℓ + i, firstKey cot L u repA ℓ i⟩ := by
  simp only [callPads, layerPads, List.mem_flatMap, List.mem_map, List.mem_range]
  constructor
  · rintro ⟨ℓ, hℓ, i, hi, rfl⟩
    exact ⟨ℓ, hℓ, i, hi, rfl⟩
  · rintro ⟨ℓ, hℓ, i, hi, rfl⟩
    exact ⟨ℓ, hℓ, i, hi, rfl⟩

/-- Within a call the key number alone tells layer and index apart. -/
theorem callPads_nodup : (callPads cot L u repA n).Nodup := by
  rw [callPads, List.nodup_flatMap]
  constructor
  · intro ℓ _
    refine List.Nodup.map ?_ List.nodup_range
    intro i j hij
    have := congrArg Pad.gid hij
    exact Nat.add_left_cancel this
  · refine List.Pairwise.imp ?_ List.pairwise_lt_range
    intro ℓ ℓ' hlt q hq hq'
    obtain ⟨i, hi, rfl⟩ := List.mem_map.mp hq
    obtain ⟨j, -, hj⟩ := List.mem_map.mp hq'
    have hgid : layerStride L * ℓ' + j = layerStride L * ℓ + i := congrArg Pad.gid hj
    have hi : i < layerStride L := (List.mem_range.mp hi).trans_le (le_layerStride L)
    have hstride : layerStride L * ℓ + layerStride L ≤ layerStride L * ℓ' := by
      rw [← Nat.mul_succ]
      exact Nat.mul_le_mul_left _ hlt
    omega

end

/-! ### A session -/

/-- One call of `compute_inplace`, the shifts it draws, and how many shares the session minted
since the previous call. -/
structure InplaceCall where
  /-- The shares minted since the previous call. -/
  minted : ℕ
  /-- `num_ands`. -/
  numAnds : ℕ
  /-- The raw shifts. -/
  raw : ℕ → ℕ
  /-- `rep_a` at the garbler and at the evaluator. -/
  repA : (ℕ → AShareBundle) × (ℕ → AShareBundle)
  /-- `rep_b` at the garbler and at the evaluator. -/
  repB : (ℕ → AShareBundle) × (ℕ → AShareBundle)

/-- The two parties' data at the end of a call, from the positions where it starts to mint. -/
def InplaceCall.layers {D : Type} (E : EmpTool D) (Δ : Deltas) (cot₁ cot₂ : ℕ → AShareBundle) (ssp : ℕ)
    (c : InplaceCall) (t : TriplePool × TriplePool) : TripleHalf × TripleHalf :=
  computeLayers E Δ cot₁ cot₂ .none c.raw (getBucketSize ssp c.numAnds) c.numAnds c.repA.1 c.repB.1
    c.repA.2 c.repB.2 (t.1.genCotShares cot₁ c.minted).2 (t.2.genCotShares cot₂ c.minted).2

/-- The pads a party's garbler half hashes in a sequence of calls, one list a call. -/
def sessionPads {D : Type} (E : EmpTool D) (Δ : Deltas) (cot₁ cot₂ : ℕ → AShareBundle) (ssp : ℕ)
    (p : Party) : List InplaceCall → TriplePool × TriplePool → List (List Pad)
  | [], _ => []
  | c :: rest, t =>
    if c.numAnds = 0 then
      sessionPads E Δ cot₁ cot₂ ssp p rest
        ((t.1.genCotShares cot₁ c.minted).2, (t.2.genCotShares cot₂ c.minted).2)
    else
      let h := c.layers E Δ cot₁ cot₂ ssp t
      (p.pick h).pads :: sessionPads E Δ cot₁ cot₂ ssp p rest (h.1.pool, h.2.pool)

/-- The calls that generate triples, each with the position it mints from when the session stands
at position `u`. -/
def placedCalls (ssp : ℕ) : List InplaceCall → ℕ → List (InplaceCall × ℕ)
  | [], _ => []
  | c :: rest, u =>
    if c.numAnds = 0 then placedCalls ssp rest (u + c.minted)
    else (c, u + c.minted) :: placedCalls ssp rest
      (u + c.minted + c.numAnds + 3 * c.numAnds * (getBucketSize ssp c.numAnds - 1))

/-- Candidates of two calls that stand at the same position have different key blocks. -/
def KeysApart (cot : ℕ → AShareBundle) (ssp : ℕ) (p : Party) (x y : InplaceCall × ℕ) : Prop :=
  ∀ ℓ < getBucketSize ssp x.1.numAnds, ∀ i < x.1.numAnds,
    ∀ ℓ' < getBucketSize ssp y.1.numAnds, ∀ i' < y.1.numAnds,
      layerStride x.1.numAnds * ℓ + i = layerStride y.1.numAnds * ℓ' + i' →
        firstKey cot x.1.numAnds x.2 (p.pick x.1.repA) ℓ i ≠
          firstKey cot y.1.numAnds y.2 (p.pick y.1.repA) ℓ' i'

theorem le_bucketSearch (ssp size : ℕ) : ∀ fuel B, B ≤ bucketSearch ssp size fuel B := by
  intro fuel
  induction fuel with
  | zero =>
    intro B
    exact Nat.le_refl B
  | succ fuel ih =>
    intro B
    rw [bucketSearch]
    split
    · exact (Nat.le_succ B).trans (ih (B + 1))
    · exact Nat.le_refl B

/-- Every bucket has at least one sacrifice. -/
theorem two_le_getBucketSize (ssp size : ℕ) : 2 ≤ getBucketSize ssp size :=
  le_bucketSearch ssp _ ssp 2

section

variable {D : Type} (E : EmpTool D) (Δ : Deltas) (cot₁ cot₂ : ℕ → AShareBundle) (ssp : ℕ) (p : Party)

/-- The pads of one call of a session. -/
theorem InplaceCall.layers_pads (c : InplaceCall) (t : TriplePool × TriplePool) :
    PadsOk cot₁ cot₂ p c.numAnds ((p.pick t).used + c.minted) (p.pick c.repA)
      (getBucketSize ssp c.numAnds - 1) (p.pick (c.layers E Δ cot₁ cot₂ ssp t)) := by
  have h := computeLayers_pads E (Δ := Δ) (L := c.numAnds) p .none c.raw (getBucketSize ssp c.numAnds)
    c.repA.1 c.repB.1 c.repA.2 c.repB.2 (t.1.genCotShares cot₁ c.minted).2
    (t.2.genCotShares cot₂ c.minted).2 cot₁ cot₂
  cases p with
  | alice => exact h
  | bob => exact h

/-- The pads of a session, in closed form. -/
theorem sessionPads_eq (calls : List InplaceCall) :
    ∀ t : TriplePool × TriplePool, sessionPads E Δ cot₁ cot₂ ssp p calls t =
      (placedCalls ssp calls (p.pick t).used).map fun x => callPads (p.pick (cot₁, cot₂)) x.1.numAnds
        x.2 (p.pick x.1.repA) (getBucketSize ssp x.1.numAnds) := by
  induction calls with
  | nil =>
    intro t
    rfl
  | cons c rest ih =>
    intro t
    have hused : ∀ m, (p.pick ((t.1.genCotShares cot₁ m).2, (t.2.genCotShares cot₂ m).2)).used =
        (p.pick t).used + m := by
      intro m
      cases p <;> rfl
    rw [sessionPads, placedCalls]
    by_cases h0 : c.numAnds = 0
    · rw [if_pos h0, if_pos h0, ih, hused]
    · rw [if_neg h0, if_neg h0, List.map_cons]
      have hB := two_le_getBucketSize ssp c.numAnds
      obtain ⟨-, hpool, hpads⟩ := InplaceCall.layers_pads E Δ cot₁ cot₂ ssp p c t
      have hnext : (p.pick ((c.layers E Δ cot₁ cot₂ ssp t).1.pool,
          (c.layers E Δ cot₁ cot₂ ssp t).2.pool)).used = (p.pick t).used + c.minted + c.numAnds +
            3 * c.numAnds * (getBucketSize ssp c.numAnds - 1) := by
        rw [← hpool]
        cases p <;> rfl
      dsimp only
      rw [hpads, ih, hnext, Nat.sub_add_cancel (by omega)]

/-- **When a session repeats no pad**: exactly when candidates of different calls at the same
position have different key blocks. -/
theorem sessionPads_nodup_iff (calls : List InplaceCall) (t : TriplePool × TriplePool) :
    (sessionPads E Δ cot₁ cot₂ ssp p calls t).flatten.Nodup ↔
      (placedCalls ssp calls (p.pick t).used).Pairwise (KeysApart (p.pick (cot₁, cot₂)) ssp p) := by
  rw [sessionPads_eq, List.nodup_flatten, List.pairwise_map]
  have hcalls : ∀ l ∈ (placedCalls ssp calls (p.pick t).used).map fun x => callPads
      (p.pick (cot₁, cot₂)) x.1.numAnds x.2 (p.pick x.1.repA) (getBucketSize ssp x.1.numAnds),
      l.Nodup := by
    intro l hl
    obtain ⟨x, -, rfl⟩ := List.mem_map.mp hl
    exact callPads_nodup
  rw [and_iff_right hcalls]
  refine List.Pairwise.iff fun x y => ?_
  constructor
  · intro hdisj ℓ hℓ i hi ℓ' hℓ' i' hi' hpos hkey
    refine hdisj (mem_callPads.mpr ⟨ℓ, hℓ, i, hi, rfl⟩) (mem_callPads.mpr ⟨ℓ', hℓ', i', hi', ?_⟩)
    rw [hpos, hkey]
  · intro hapart q hq hq'
    obtain ⟨ℓ, hℓ, i, hi, rfl⟩ := mem_callPads.mp hq
    obtain ⟨ℓ', hℓ', i', hi', heq⟩ := mem_callPads.mp hq'
    obtain ⟨-, hpos, hkey⟩ := Pad.mk.inj heq
    exact hapart ℓ hℓ i hi ℓ' hℓ' i' hi' hpos hkey

end

/-! ### A wire carried into two chunks -/

/-- A COT stream of shares of zero with different keys. -/
def CotStream.counting (Δ : Deltas) : CotStream Δ where
  s₁ i := ⟨BitVec.ofNat 128 (2 * i), BitVec.ofNat 128 (2 * i)⟩
  s₂ i := ⟨BitVec.ofNat 128 (2 * i), BitVec.ofNat 128 (2 * i)⟩
  rel i := by
    have h : LSB (BitVec.ofNat 128 (2 * i)) = false := by
      rw [LSB, BitVec.getLsbD_ofNat, Nat.testBit_zero]
      simp
    exact .of_bits false false (by simp) (by simp) h h

/-- One AND gate whose operands are the wire that got the first share of the stream. -/
def carriedAnd (C : CotStream (.init 0 0)) (minted : ℕ) : InplaceCall where
  minted := minted
  numAnds := 1
  raw _ := 0
  repA := (fun _ => C.s₁ 0, fun _ => C.s₂ 0)
  repB := (fun _ => C.s₁ 0, fun _ => C.s₂ 0)

/-- Two chunks that start with an AND of one carried wire hash its key under the same key
number. -/
theorem sessionPads_carried :
    ¬ (sessionPads .transparent (.init 0 0) (CotStream.counting (.init 0 0)).s₁
      (CotStream.counting (.init 0 0)).s₂ 40 .alice
      [carriedAnd (.counting _) 1, carriedAnd (.counting _) 0] ({}, {})).flatten.Nodup := by
  rw [sessionPads_eq]
  intro h
  have hdisj := (List.nodup_flatten.mp h).2
  rw [List.pairwise_map] at hdisj
  have hB := two_le_getBucketSize 40 1
  have hmem : ∀ u, (⟨pairSeed, 0, 0⟩ : Pad) ∈ callPads (CotStream.counting (.init 0 0)).s₁ 1 u
      (fun _ => (CotStream.counting (.init 0 0)).s₁ 0) (getBucketSize 40 1) := by
    intro u
    exact mem_callPads.mpr ⟨0, Nat.lt_of_lt_of_le Nat.two_pos hB, 0, Nat.one_pos, rfl⟩
  exact List.rel_of_pairwise_cons hdisj (List.mem_singleton_self _) (hmem _) (hmem _)

end AG2PC
