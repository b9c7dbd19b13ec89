import AG2PC.Backend.HonestTriples

/-!
# What a wrong leaky AND gives away

One party runs the layers of `compute_inplace` honestly against a peer that xors errors into
its ciphertexts, opens any bits and enters `F_eq` with the digest of any vector of blocks.
If the check passes and some folded bit `d` is wrong, the peer's own data determine the
honest party's `Δ` up to two bits.

* `leakySide`, `sideLayer`, `sideLayers` — the layers at one party, on what it receives;
  `leakyAndHalfgate_eq_sides` and `honestLayers_eq_sides` say that the two-party functions are
  two of these, each on the other's messages.
* `sideLayers_feq` — the vector the party puts into `F_eq`, layer by layer.
* `wrongFold_determines_delta` — the guess.
-/

namespace AG2PC

open Library.XorAlgebra Library.ByIndex

/-! ### One party's layers -/

section

variable {D : Type} (E : EmpTool D)

/-- The ciphertexts a party sends for the layer `s`. -/
def leakySent (δ : Block) (L : ℕ) (h : TripleHalf) (s : Layer) : List (List Block) :=
  (leakyGarble E δ s L h.gmitc (batchStarts L)).2

/-- `Sout` at a party that receives `cts`. -/
def leakyOut (δ : Block) (L : ℕ) (h : TripleHalf) (s : Layer) (cts : List (List Block)) : List Block :=
  (leakyEvaluate E δ s L h.emitc (batchStarts L) cts).2

/-- The bit `LSB1(Sout[k])` a party opens. -/
def leakyOpened (Sout : List Block) (k : ℕ) : Bool := LSB1 (Sout.getD k zeroBlock)

/-- `leaky_and_halfgate` at one party, which receives the ciphertexts `cts` and the bits `sPeer`. -/
def leakySide (p : Party) (δ : Block) (L : ℕ) (h : TripleHalf) (s : Layer) (cts : List (List Block))
    (sPeer : ℕ → Bool) : TripleHalf × Layer :=
  let S := leakyOut E δ L h s cts
  let F := leakyFold p δ L s S fun k => leakyOpened S k != sPeer k
  ({ h with
      gmitc := (leakyGarble E δ s L h.gmitc (batchStarts L)).1
      emitc := (leakyEvaluate E δ s L h.emitc (batchStarts L) cts).1
      feq := h.feq ++ F.2
      pads := h.pads ++ leakyPads s L h.gmitc (batchStarts L) }, F.1)

/-- The leaky AND is that of each party on the messages of the other. -/
theorem leakyAndHalfgate_eq_sides (Δ : Deltas) (L : ℕ) (h₁ h₂ : TripleHalf) (s₁ s₂ : Layer) :
    leakyAndHalfgate E Δ L h₁ h₂ s₁ s₂ =
      let cts₁ := leakySent E Δ.d1 L h₁ s₁
      let cts₂ := leakySent E Δ.d2 L h₂ s₂
      (leakySide E .alice Δ.d1 L h₁ s₁ cts₂ (leakyOpened (leakyOut E Δ.d2 L h₂ s₂ cts₁)),
        leakySide E .bob Δ.d2 L h₂ s₂ cts₁ (leakyOpened (leakyOut E Δ.d1 L h₁ s₁ cts₂))) := by
  refine Prod.ext rfl ?_
  have hd : ∀ S₁ S₂ : List Block, (fun k => leakyOpened S₂ k != leakyOpened S₁ k) =
      fun k => leakyOpened S₁ k != leakyOpened S₂ k := fun S₁ S₂ => funext fun k => bne_comm
  dsimp only [leakySide]
  rw [hd]
  rfl

/-- What a party receives in a layer. -/
structure PeerLayer where
  /-- The ciphertexts, one message a batch. -/
  cts : List (List Block)
  /-- The opened bits of `Sout`. -/
  s : ℕ → Bool
  /-- The opened bits of the bucket step. -/
  d : ℕ → Bool

/-- `bucket_one_layer` at one party, which has run the leaky AND and receives the bits `dPeer`. -/
def bucketSide (L r : ℕ) (l : TripleHalf × Layer) (dPeer : ℕ → Bool) : TripleHalf :=
  { l.1 with
    acc := bucketFold L r (bucketAdd L r l.1.acc l.2) l.2 fun i => bucketOpen L r l.1.acc l.2 i ^^ dPeer i }

/-- A sacrifice layer at one party with the shift `r`. -/
def sideLayer (p : Party) (δ : Block) (cot : ℕ → AShareBundle) (L : ℕ) (h : TripleHalf) (msg : PeerLayer)
    (r : ℕ) : TripleHalf :=
  let m := h.pool.genCotShares cot (3 * L)
  bucketSide L r (leakySide E p δ L { h with pool := m.2 } m.1 msg.cts msg.s) msg.d

/-- Layer 0 at one party. -/
def sideStart (p : Party) (δ : Block) (cot : ℕ → AShareBundle) (L : ℕ) (repA repB : ℕ → AShareBundle)
    (t : TriplePool) (msg : PeerLayer) : TripleHalf :=
  let h := tripleStart cot L repA repB t
  let l := leakySide E p δ L h h.acc msg.cts msg.s
  { l.1 with acc := l.2 }

/-- Layer 0 and `n` sacrifice layers at one party. -/
def sideLayers (p : Party) (δ : Block) (cot : ℕ → AShareBundle) (L : ℕ) (repA repB : ℕ → AShareBundle)
    (t : TriplePool) (msgs : ℕ → PeerLayer) (r : ℕ → ℕ) (n : ℕ) : TripleHalf :=
  (List.range n).foldl (fun h k => sideLayer E p δ cot L h (msgs (k + 1)) (r k))
    (sideStart E p δ cot L repA repB t (msgs 0))

/-- `feq_check` at one party: party 2 has received the commitment `com` and its opening. -/
def feqSide [DecidableEq D] (p : Party) (Dme com Dpeer : D) (r : Block) (failMsg : String) : Except String Unit :=
  match p with
  | .alice => feqCheck₁ Dme Dpeer failMsg
  | .bob => feqCheck₂ E Dme com Dpeer r failMsg

end

/-- A sacrifice layer at two honest parties is that of each party on messages of the other. -/
theorem honestLayer_eq_sides {D : Type} (E : EmpTool D) (Δ : Deltas) (cot₁ cot₂ : ℕ → AShareBundle) (L : ℕ)
    (h : TripleHalf × TripleHalf) (r₁ r₂ : ℕ) :
    ∃ msg₁ msg₂ : PeerLayer, honestLayer E Δ cot₁ cot₂ L h r₁ r₂ =
      (sideLayer E .alice Δ.d1 cot₁ L h.1 msg₂ r₁, sideLayer E .bob Δ.d2 cot₂ L h.2 msg₁ r₂) := by
  let h₁ : TripleHalf := { h.1 with pool := (h.1.pool.genCotShares cot₁ (3 * L)).2 }
  let h₂ : TripleHalf := { h.2 with pool := (h.2.pool.genCotShares cot₂ (3 * L)).2 }
  let s₁ := (h.1.pool.genCotShares cot₁ (3 * L)).1
  let s₂ := (h.2.pool.genCotShares cot₂ (3 * L)).1
  let cts₁ := leakySent E Δ.d1 L h₁ s₁
  let cts₂ := leakySent E Δ.d2 L h₂ s₂
  let l := leakyAndHalfgate E Δ L h₁ h₂ s₁ s₂
  refine ⟨⟨cts₁, leakyOpened (leakyOut E Δ.d1 L h₁ s₁ cts₂), bucketOpen L r₁ l.1.1.acc l.1.2⟩,
    ⟨cts₂, leakyOpened (leakyOut E Δ.d2 L h₂ s₂ cts₁), bucketOpen L r₂ l.2.1.acc l.2.2⟩, ?_⟩
  have hl : l = _ := leakyAndHalfgate_eq_sides E Δ L h₁ h₂ s₁ s₂
  have hcomm : (fun i => bucketOpen L r₁ l.1.1.acc l.1.2 i ^^ bucketOpen L r₂ l.2.1.acc l.2.2 i) =
      fun i => bucketOpen L r₂ l.2.1.acc l.2.2 i ^^ bucketOpen L r₁ l.1.1.acc l.1.2 i :=
    funext fun i => Bool.xor_comm _ _
  refine Prod.ext ?_ ?_
  · exact congrArg (bucketSide L r₁ · (bucketOpen L r₂ l.2.1.acc l.2.2)) (congrArg Prod.fst hl)
  · have hbob : (honestLayer E Δ cot₁ cot₂ L h r₁ r₂).2 = bucketSide L r₂ l.2 (bucketOpen L r₁ l.1.1.acc l.1.2) := by
      unfold bucketSide
      rw [← hcomm]
      rfl
    rw [hbob]
    exact congrArg (bucketSide L r₂ · (bucketOpen L r₁ l.1.1.acc l.1.2)) (congrArg Prod.snd hl)

/-- A run of layers at two honest parties is that of each party on messages of the other. -/
theorem honestLayers_eq_sides {D T : Type} (E : EmpTool D) (Δ : Deltas) (cot₁ cot₂ : ℕ → AShareBundle)
    (coin : PublicCoin T) (tr₁ tr₂ : ℕ → Transcript T) (L : ℕ) (repA₁ repB₁ repA₂ repB₂ : ℕ → AShareBundle)
    (t₁ t₂ : TriplePool) :
    ∃ msgs₁ msgs₂ : ℕ → PeerLayer, ∀ n, honestLayers E Δ cot₁ cot₂ coin tr₁ tr₂ L repA₁ repB₁ repA₂ repB₂ t₁ t₂ n =
      (sideLayers E .alice Δ.d1 cot₁ L repA₁ repB₁ t₁ msgs₂ (fun k => coin.shift (tr₁ k) L) n,
        sideLayers E .bob Δ.d2 cot₂ L repA₂ repB₂ t₂ msgs₁ (fun k => coin.shift (tr₂ k) L) n) := by
  choose m₁ m₂ hm using fun n => honestLayer_eq_sides E Δ cot₁ cot₂ L
    (honestLayers E Δ cot₁ cot₂ coin tr₁ tr₂ L repA₁ repB₁ repA₂ repB₂ t₁ t₂ n) (coin.shift (tr₁ n) L)
    (coin.shift (tr₂ n) L)
  let h₁ := tripleStart cot₁ L repA₁ repB₁ t₁
  let h₂ := tripleStart cot₂ L repA₂ repB₂ t₂
  let cts₁ := leakySent E Δ.d1 L h₁ h₁.acc
  let cts₂ := leakySent E Δ.d2 L h₂ h₂.acc
  let start₁ : PeerLayer := ⟨cts₁, leakyOpened (leakyOut E Δ.d1 L h₁ h₁.acc cts₂), fun _ => false⟩
  let start₂ : PeerLayer := ⟨cts₂, leakyOpened (leakyOut E Δ.d2 L h₂ h₂.acc cts₁), fun _ => false⟩
  refine ⟨fun k => Nat.casesOn k start₁ m₁, fun k => Nat.casesOn k start₂ m₂, fun n => ?_⟩
  induction n with
  | zero =>
    have hl := leakyAndHalfgate_eq_sides E Δ L h₁ h₂ h₁.acc h₂.acc
    exact congrArg (fun l : (TripleHalf × Layer) × TripleHalf × Layer =>
      (({ l.1.1 with acc := l.1.2 }, { l.2.1 with acc := l.2.2 }) : TripleHalf × TripleHalf)) hl
  | succ n ih =>
    rw [honestLayers_succ, hm, ih]
    simp only [sideLayers, List.range_succ, List.foldl_append, List.foldl_cons, List.foldl_nil]

/-! ### The layers of a run -/

/-- A party's COT outputs. -/
def CotStream.of {Δ : Deltas} (C : CotStream Δ) : Party → ℕ → AShareBundle
  | .alice => C.s₁
  | .bob => C.s₂

/-- The hash state of both halves when layer `m` begins. -/
def layerKeys (L m : ℕ) : MITCCRH := (MITCCRH.setS pairSeed).advance (8 * ((L + 7) / 8) * m)

section

variable {D : Type} (E : EmpTool D) {Δ : Deltas} (C : CotStream Δ) (L : ℕ)
variable (repA repB : Party → ℕ → AShareBundle) (t : Party → TriplePool)

/-- A party's shares in layer `m`. -/
def layerShares (p : Party) : ℕ → Layer
  | 0 => layerZero L (repA p) (repB p) fun i => C.of p ((t p).used + i)
  | m + 1 => fun i => C.of p ((t p).used + L + 3 * L * m + i)

/-- The ciphertexts an honest party sends in layer `m`. -/
def layerSent (p : Party) (m : ℕ) : List (List Block) :=
  (leakyGarble E (Δ.of p) (layerShares C L repA repB t p m) L (layerKeys L m) (batchStarts L)).2

/-- `Sout` of layer `m` as a party computes it from the ciphertexts `cts`. -/
def layerOut (p : Party) (m : ℕ) (cts : List (List Block)) : List Block :=
  (leakyEvaluate E (Δ.of p) (layerShares C L repA repB t p m) L (layerKeys L m) (batchStarts L) cts).2

/-- The bit a party folds at candidate `k` of layer `m`. -/
def foldedBit (p : Party) (msgs : ℕ → PeerLayer) (m k : ℕ) : Bool :=
  leakyOpened (layerOut E C L repA repB t p m (msgs m).cts) k != (msgs m).s k

/-- The vector `L^me` of layer `m`. -/
def layerVector (p : Party) (msgs : ℕ → PeerLayer) (m : ℕ) : List Block :=
  (List.range L).map fun k => (layerOut E C L repA repB t p m (msgs m).cts).getD k zeroBlock ^^^
    scale (foldedBit E C L repA repB t p msgs m k) (Δ.of p)

/-- One party's state after layer 0 and `n` sacrifice layers. -/
structure SideAt (p : Party) (msgs : ℕ → PeerLayer) (n : ℕ) (h : TripleHalf) : Prop where
  used : h.pool.used = (t p).used + L + 3 * L * n
  gmitc : h.gmitc = layerKeys L (n + 1)
  emitc : h.emitc = layerKeys L (n + 1)
  feq : h.feq = (List.range (n + 1)).flatMap (layerVector E C L repA repB t p msgs)

variable {E C L repA repB t} {p : Party} {msgs : ℕ → PeerLayer}

/-- The keys of the next layer. -/
theorem layerKeys_succ (m : ℕ) : (layerKeys L m).advance (8 * (batchStarts L).length) = layerKeys L (m + 1) := by
  simp only [layerKeys, MITCCRH.advance, batchStarts, List.length_map, List.length_range, Nat.mul_succ,
    Nat.add_assoc]

variable (E msgs) in
/-- The vector a layer puts into `F_eq`. -/
theorem leakySide_feq {h : TripleHalf} {s : Layer} {m : ℕ} (hs : s = layerShares C L repA repB t p m)
    (hg : h.gmitc = layerKeys L m) (he : h.emitc = layerKeys L m) :
    let l := leakySide E p (Δ.of p) L h s (msgs m).cts (msgs m).s
    l.1.gmitc = layerKeys L (m + 1) ∧ l.1.emitc = layerKeys L (m + 1) ∧ l.1.pool = h.pool ∧
      l.1.feq = h.feq ++ layerVector E C L repA repB t p msgs m := by
  subst hs
  refine ⟨?_, ?_, rfl, ?_⟩
  · simp only [leakySide]
    rw [leakyGarble_fst, hg, layerKeys_succ]
  · simp only [leakySide]
    rw [leakyEvaluate_fst, he, layerKeys_succ]
  · simp only [leakySide, leakyFold, leakyOut, he, and_selectMask]
    rfl

/-- **The state after the layers**, by induction on their number. -/
theorem sideLayers_at (r : ℕ → ℕ) (n : ℕ) : SideAt E C L repA repB t p msgs n
    (sideLayers E p (Δ.of p) (C.of p) L (repA p) (repB p) (t p) msgs r n) := by
  induction n with
  | zero =>
    obtain ⟨hg, he, hpool, hfeq⟩ := leakySide_feq E msgs (m := 0)
      (h := tripleStart (C.of p) L (repA p) (repB p) (t p)) (rfl : _ = layerShares C L repA repB t p 0) rfl rfl
    refine ⟨(congrArg TriplePool.used hpool).trans ?_, hg, he, hfeq.trans ?_⟩
    · simp [tripleStart, TriplePool.genCotShares]
    · simp [tripleStart]
  | succ n ih =>
    rw [sideLayers, List.range_succ, List.foldl_append, List.foldl_cons, List.foldl_nil]
    change SideAt _ _ _ _ _ _ _ _ _ (sideLayer E p (Δ.of p) (C.of p) L
      (sideLayers E p (Δ.of p) (C.of p) L (repA p) (repB p) (t p) msgs r n) (msgs (n + 1)) (r n))
    generalize sideLayers E p (Δ.of p) (C.of p) L (repA p) (repB p) (t p) msgs r n = h at ih ⊢
    have hs : (h.pool.genCotShares (C.of p) (3 * L)).1 = layerShares C L repA repB t p (n + 1) := by
      simp only [TriplePool.genCotShares, ih.used, layerShares]
    obtain ⟨hg, he, hpool, hfeq⟩ := leakySide_feq E msgs
      (h := { h with pool := (h.pool.genCotShares (C.of p) (3 * L)).2 }) hs ih.gmitc ih.emitc
    refine ⟨(congrArg TriplePool.used hpool).trans ?_, hg, he, hfeq.trans ?_⟩
    · simp only [TriplePool.genCotShares, ih.used, Nat.mul_succ, Nat.add_assoc]
    · rw [List.range_succ (n := n + 1), List.flatMap_append, List.flatMap_singleton, ← ih.feq]

end

/-! ### A deviating peer -/

/-- Errors `e k` added to the ciphertexts of a layer. -/
def xorBatches (e : ℕ → Block) (cts : List (List Block)) : List (List Block) :=
  cts.mapIdx fun b w => w.mapIdx fun j g => g ^^^ e (8 * b + j)

theorem xorBatches_batched (e f : ℕ → Block) (L m : ℕ) :
    xorBatches e (batched f L 0 m) = batched (fun k => f k ^^^ e k) L 0 m := by
  refine List.ext_getElem (by simp [xorBatches, batched]) fun b hb _ => ?_
  simp only [xorBatches, batched, List.getElem_mapIdx, List.getElem_map]
  refine List.ext_getElem (by simp) fun j hj _ => ?_
  simp

/-- What a deviating peer does in the layers. -/
structure Deviation where
  /-- The errors on the ciphertexts of layer `m`. -/
  e : ℕ → ℕ → Block
  /-- The bits it opens for layer `m` in place of `LSB1(Sout[k])`. -/
  s : ℕ → ℕ → Bool
  /-- The bits it opens in the bucket step of layer `m`. -/
  d : ℕ → ℕ → Bool

section

variable {D : Type} (E : EmpTool D) {Δ : Deltas} (C : CotStream Δ) (L : ℕ)
variable (repA repB : Party → ℕ → AShareBundle) (t : Party → TriplePool)

/-- What the deviating peer of `p` sends. -/
def Deviation.msgs (x : Deviation) (p : Party) (m : ℕ) : PeerLayer where
  cts := xorBatches (x.e m) (layerSent E C L repA repB t p.peer m)
  s := x.s m
  d := x.d m

/-- The bit `d` has to be: `x·y ⊕ r`. -/
def trueBit (m k : ℕ) : Bool :=
  let s := layerShares C L repA repB t
  (shareBit (s .alice m k) (s .bob m k) && shareBit (s .alice m (L + k)) (s .bob m (L + k))) ^^
    shareBit (s .alice m (2 * L + k)) (s .bob m (2 * L + k))

variable {E C L repA repB t}

/-- An error on the ciphertext reaches `Sout` when the receiver's bit is one. -/
theorem leakyS_xor_error (δ : Block) (s : Layer) (start : Block) (n k : ℕ) (w e : Block) :
    leakyS E δ s L start n k (w ^^^ e) = leakyS E δ s L start n k w ^^^ scale (LSB (s k).mac) e := by
  simp only [leakyS, and_selectMask, scale_word_xor]
  simp only [BitVec.xor_assoc, BitVec.xor_comm, word_xor_left_comm]

variable (E C repA repB t) in
/-- `Sout` of a layer at a party whose peer adds errors to its ciphertexts. -/
theorem layerOut_errors (p : Party) (m : ℕ) (e : ℕ → Block) {k : ℕ} (hk : k < L) :
    (layerOut E C L repA repB t p m (xorBatches e (layerSent E C L repA repB t p.peer m))).getD k zeroBlock =
      (layerOut E C L repA repB t p m (layerSent E C L repA repB t p.peer m)).getD k zeroBlock ^^^
        scale (LSB (layerShares C L repA repB t p m k).mac) (e k) := by
  simp only [layerOut, layerSent, leakyGarble_layer, xorBatches_batched, leakyEvaluate_layer]
  rw [getD_map_range _ _ hk, getD_map_range _ _ hk, leakyS_xor_error]

/-- The shares of a layer are authenticated. -/
theorem layerShares_rel (hA : ∀ i < L, MacRel Δ (repA .alice i) (repA .bob i))
    (hB : ∀ i < L, MacRel Δ (repB .alice i) (repB .bob i)) (hu : (t .alice).used = (t .bob).used) (m : ℕ) :
    ∀ i < 3 * L, MacRel Δ (layerShares C L repA repB t .alice m i) (layerShares C L repA repB t .bob m i) := by
  intro i hi
  cases m with
  | zero =>
    simp only [layerShares, layerZero, ← hu]
    split
    · exact hA i ‹_›
    · split
      · exact hB _ (by omega)
      · exact C.rel _
  | succ m =>
    simp only [layerShares, ← hu]
    exact C.rel _

/-- The leaky-AND identity of a layer, at either party. -/
theorem layerOut_xor (hA : ∀ i < L, MacRel Δ (repA .alice i) (repA .bob i))
    (hB : ∀ i < L, MacRel Δ (repB .alice i) (repB .bob i)) (hu : (t .alice).used = (t .bob).used)
    (p : Party) (m : ℕ) {k : ℕ} (hk : k < L) :
    (layerOut E C L repA repB t p m (layerSent E C L repA repB t p.peer m)).getD k zeroBlock ^^^
        (layerOut E C L repA repB t p.peer m (layerSent E C L repA repB t p m)).getD k zeroBlock =
      scale (trueBit C L repA repB t m k) (Δ.of p ^^^ Δ.of p.peer) := by
  have hrel := layerShares_rel (C := C) hA hB hu m
  have h := leakyS_xor (E := E) (layerKeys L m).startPoint ((layerKeys L m).gid + k) (hrel k (by omega))
    (hrel (L + k) (by omega)) (hrel (2 * L + k) (by omega))
  simp only [layerOut, layerSent, leakyGarble_layer, leakyEvaluate_layer]
  rw [getD_map_range _ _ hk, getD_map_range _ _ hk]
  cases p with
  | alice => exact h
  | bob =>
    rw [BitVec.xor_comm, BitVec.xor_comm (Δ.of .bob)]
    exact h

/-- Acceptance of the equality check, at either party, means equal digests. -/
theorem feqSide_ok [DecidableEq D] {p : Party} {Dme com Dpeer : D} {r : Block} {failMsg : String}
    (h : feqSide E p Dme com Dpeer r failMsg = .ok ()) : Dme = Dpeer := by
  by_contra hne
  cases p with
  | alice => simp [feqSide, feqCheck₁, hne] at h
  | bob =>
    simp only [feqSide, feqCheck₂, hne, ne_eq, not_false_eq_true, if_true] at h
    split at h <;> cases h

/-- **A wrong fold gives `Δ` away**: if the honest party `p` accepts the digest of `V` and folded a
wrong bit at candidate `k` of layer `m`, then `V`, the peer's `Sout` and its error determine `Δ_p`
up to the two bits `u` and `v`. -/
theorem wrongFold_determines_delta [DecidableEq D] (hinj : Function.Injective E.hash)
    (hA : ∀ i < L, MacRel Δ (repA .alice i) (repA .bob i)) (hB : ∀ i < L, MacRel Δ (repB .alice i) (repB .bob i))
    (hu : (t .alice).used = (t .bob).used) (p : Party) (x : Deviation) (r : ℕ → ℕ) (n : ℕ) (V : List Block)
    (com : D) (nonce : Block) (failMsg : String)
    (haccept : feqSide E p (E.hash (sideLayers E p (Δ.of p) (C.of p) L (repA p) (repB p) (t p)
      (x.msgs E C L repA repB t p) r n).feq) com (E.hash V) nonce failMsg = .ok ())
    {m k : ℕ} (hm : m ≤ n) (hk : k < L)
    (hwrong : foldedBit E C L repA repB t p (x.msgs E C L repA repB t p) m k ≠ trueBit C L repA repB t m k) :
    ∃ u v : Bool, Δ.of p = V.getD (m * L + k) zeroBlock ^^^
      (layerOut E C L repA repB t p.peer m (layerSent E C L repA repB t p m)).getD k zeroBlock ^^^
        scale u (Δ.of p.peer) ^^^ scale v (x.e m k) := by
  have hV : (sideLayers E p (Δ.of p) (C.of p) L (repA p) (repB p) (t p) (x.msgs E C L repA repB t p) r n).feq = V :=
    hinj (feqSide_ok haccept)
  rw [(sideLayers_at r n).feq] at hV
  have hlen : ∀ i, (layerVector E C L repA repB t p (x.msgs E C L repA repB t p) i).length = L := fun i =>
    (List.length_map _).trans List.length_range
  have hVk : V.getD (m * L + k) zeroBlock =
      (layerOut E C L repA repB t p m (x.msgs E C L repA repB t p m).cts).getD k zeroBlock ^^^
        scale (foldedBit E C L repA repB t p (x.msgs E C L repA repB t p) m k) (Δ.of p) := by
    rw [← hV, getD_flatMap_range hlen (Nat.lt_succ_of_le hm) hk, layerVector, getD_map_range _ _ hk]
  generalize hd : foldedBit E C L repA repB t p (x.msgs E C L repA repB t p) m k = d at hwrong hVk
  have herr := layerOut_errors E C repA repB t p m (x.e m) hk
  have hsum := layerOut_xor (E := E) (C := C) hA hB hu p m hk
  refine ⟨trueBit C L repA repB t m k, LSB (layerShares C L repA repB t p m k).mac, ?_⟩
  -- the wrong bit leaves one `Δ_p` in the vector
  have hflip : d = !trueBit C L repA repB t m k := Bool.eq_not.mpr hwrong
  rw [word_xor_eq_iff] at hsum
  rw [hVk, Deviation.msgs, herr, hsum, hflip]
  cases trueBit C L repA repB t m k <;> simp [BitVec.xor_assoc, BitVec.xor_comm, word_xor_left_comm]

end

/-! ### One flipped bit -/

/-- The peer flips the bit it opens for candidate 0 of layer 0, whose `Sout` is zero. -/
def flipS : Deviation := ⟨fun _ _ => zeroBlock, fun m k => decide (m = 0 ∧ k = 0), fun _ _ => false⟩

/-- It passes the check only with the garbler's own vector, and that vector is the garbler's `Δ`. -/
theorem wrongFold_determines_delta_flipS :
    foldedBit .transparent (CotStream.zeros (.init 0 0)) 1 (fun _ _ => .zero) (fun _ _ => .zero) (fun _ => {}) .alice
        (flipS.msgs .transparent (CotStream.zeros (.init 0 0)) 1 (fun _ _ => .zero) (fun _ _ => .zero)
          (fun _ => {}) .alice) 0 0 = true ∧
      ∃ u v : Bool, (Deltas.init 0 0).of .alice =
        (sideLayers .transparent .alice ((Deltas.init 0 0).of .alice) ((CotStream.zeros (.init 0 0)).of .alice) 1
          (fun _ => .zero) (fun _ => .zero) {}
          (flipS.msgs .transparent (CotStream.zeros (.init 0 0)) 1 (fun _ _ => .zero) (fun _ _ => .zero)
            (fun _ => {}) .alice) (fun _ => 0) 1).feq.getD (0 * 1 + 0) zeroBlock ^^^
          (layerOut .transparent (CotStream.zeros (.init 0 0)) 1 (fun _ _ => .zero) (fun _ _ => .zero) (fun _ => {})
            .bob 0 (layerSent .transparent (CotStream.zeros (.init 0 0)) 1 (fun _ _ => .zero) (fun _ _ => .zero)
              (fun _ => {}) .alice 0)).getD 0 zeroBlock ^^^
          scale u ((Deltas.init 0 0).of .bob) ^^^ scale v (flipS.e 0 0) :=
  ⟨by decide +kernel, wrongFold_determines_delta (fun _ _ h => h) (fun _ _ => .zero) (fun _ _ => .zero) rfl .alice
    flipS (fun _ => 0) 1 _ [] zeroBlock "" (by simp [feqSide, feqCheck₁]) (Nat.zero_le 1) Nat.one_pos
    (by decide +kernel)⟩

end AG2PC
