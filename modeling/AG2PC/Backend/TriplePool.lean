import AG2PC.Backend.SecureWires
import Mathlib.Data.List.Range

/-!
# Authenticated AND shares

`triple_pool.h`: shares minted from the open COT session, and the leaky-AND with
bucketing that turns them into authenticated shares of `σ = λ_α ∧ λ_β`.

Each function of the source is one party's code. Here a function that only computes
locally is a function of that party's data; where the two parties exchange messages the
function is cut at the exchange, and a two-party function hands each side's message to
the other. A share array is a `Layer`, the bundle at each index, region-major with stride
`L`: `a` at `[0, L)`, `b` at `[L, 2L)`, `r`, and later `c`, at `[2L, 3L)`.

The correlated OTs come from emp-ot, as a sequence of bundles at each party. `Tamper`
says what a deviating party adds to the bits it opens; an honest run has `Tamper.none`.
-/

namespace AG2PC

open Library.XorAlgebra

/-! ### Minting shares -/

/-- The part of a `TriplePool` that changes: how many shares have been minted, and whether any
was minted since the last consistency check. -/
structure TriplePool where
  /-- How many COTs `next_n` has handed out. -/
  used : ℕ := 0
  /-- `cots_minted_since_check_`. -/
  cotsMintedSinceCheck : Bool := false
  deriving DecidableEq

namespace TriplePool

/-- `gen_cot_shares`: the next `count` of this party's COT outputs. -/
def genCotShares (cot : ℕ → AShareBundle) (t : TriplePool) (count : ℕ) :
    (ℕ → AShareBundle) × TriplePool :=
  (fun i => cot (t.used + i), { used := t.used + count, cotsMintedSinceCheck := true })

/-- `flush_cot_check`. -/
def flushCotCheck (t : TriplePool) : TriplePool := { t with cotsMintedSinceCheck := false }

/-- `maybe_flush_cot_check`. -/
def maybeFlushCotCheck (t : TriplePool) : TriplePool :=
  if t.cotsMintedSinceCheck then t.flushCotCheck else t

/-- `draw`: `n` shares as bundles. -/
def draw (cot : ℕ → AShareBundle) (t : TriplePool) (n : ℕ) : (ℕ → AShareBundle) × TriplePool :=
  t.genCotShares cot n

@[simp] theorem flushCotCheck_minted (t : TriplePool) : t.flushCotCheck.cotsMintedSinceCheck = false := rfl

/-- Whether there was anything to check or not, no share is unchecked afterwards. -/
theorem maybeFlushCotCheck_eq (t : TriplePool) : t.maybeFlushCotCheck = ⟨t.used, false⟩ := by
  obtain ⟨used, minted⟩ := t
  cases minted <;> rfl

@[simp] theorem maybeFlushCotCheck_minted (t : TriplePool) :
    t.maybeFlushCotCheck.cotsMintedSinceCheck = false := by rw [maybeFlushCotCheck_eq]

@[simp] theorem maybeFlushCotCheck_used (t : TriplePool) : t.maybeFlushCotCheck.used = t.used := by
  rw [maybeFlushCotCheck_eq]

end TriplePool

/-- The search loop of `get_bucket_size`, `log2_L * (B - 1) <= ssp` written without the
logarithm. The source compares doubles; taking `log2_L` exactly is an idealization, and the two part
only for an `ssp` in the ten thousands. -/
def bucketSearch (ssp size : ℕ) : ℕ → ℕ → ℕ
  | 0, B => B
  | fuel + 1, B => if Nat.pow size (B - 1) ≤ Nat.pow 2 ssp then bucketSearch ssp size fuel (B + 1) else B

/-- `get_bucket_size`: the least `B ≥ 2` with `size^(B-1) > 2^ssp`, the size floored at 1024. -/
def getBucketSize (ssp size : ℕ) : ℕ := bucketSearch ssp (max size 1024) ssp 2

/-! ### Leaky AND -/

/-- A layer of candidates: the bundle at each index of the party's `mac` and `key` arrays. -/
abbrev Layer := ℕ → AShareBundle

/-- `for k < L: s[base + k] = f(k, s[base + k])`. -/
def forRegion {α : Type} (s : ℕ → α) (base L : ℕ) (f : ℕ → α → α) : ℕ → α :=
  fun i => if base ≤ i ∧ i < base + L then f (i - base) (s i) else s i

theorem forRegion_mem {α : Type} {s : ℕ → α} {base L k : ℕ} {f : ℕ → α → α} (hk : k < L) :
    forRegion s base L f (base + k) = f k (s (base + k)) := by
  unfold forRegion
  rw [if_pos ⟨Nat.le_add_right _ _, by omega⟩, Nat.add_sub_cancel_left]

/-- The first region, whose base is zero. -/
theorem forRegion_zero {α : Type} {s : ℕ → α} {L k : ℕ} {f : ℕ → α → α} (hk : k < L) :
    forRegion s 0 L f k = f k (s k) := by
  unfold forRegion
  rw [if_pos ⟨Nat.zero_le _, by omega⟩, Nat.sub_zero]

theorem forRegion_of_lt {α : Type} {s : ℕ → α} {base L i : ℕ} {f : ℕ → α → α} (h : i < base) :
    forRegion s base L f i = s i := if_neg fun hi => absurd hi.1 (Nat.not_le_of_lt h)

theorem forRegion_of_ge {α : Type} {s : ℕ → α} {base L i : ℕ} {f : ℕ → α → α} (h : base + L ≤ i) :
    forRegion s base L f i = s i := if_neg fun hi => absurd hi.2 (Nat.not_lt_of_le h)

/-- The values of `k0` in `for (k0 = 0; k0 < L; k0 += 8)`. -/
def batchStarts (L : ℕ) : List ℕ := (List.range ((L + 7) / 8)).map (8 * ·)

/-- `C = y·Δ ⊕ K[y] ⊕ M[y]` of candidate `k`. -/
def leakyC (Δ : Block) (s : Layer) (L k : ℕ) : Block :=
  (selectMask (LSB (s (L + k)).mac) &&& Δ) ^^^ (s (L + k)).key ^^^ (s (L + k)).mac

/-- What the garbler's half hashes for one candidate: `block` and `block ⊕ Δ`, under the key
numbered `gid` from `startPoint`. -/
structure Pad where
  /-- The start point. -/
  startPoint : Block
  /-- The key number. -/
  gid : ℕ
  /-- The first of the two blocks. -/
  block : Block
  deriving DecidableEq

/-- The pads of the candidates of a layer, batch by batch. -/
def leakyPads (s : Layer) (L : ℕ) : MITCCRH → List ℕ → List Pad
  | _, [] => []
  | g, k0 :: rest =>
    ((List.range (min 8 (L - k0))).map fun j => ⟨g.startPoint, g.gid + j, (s (k0 + j)).key⟩) ++
      leakyPads s L (g.advance 8) rest

section

variable {D : Type} (E : EmpTool D)

/-- The garbler's half of `leaky_and_halfgate`, batch by batch: the ciphertexts it sends, one
message a batch, and where it leaves `gmitc`. -/
def leakyGarble (Δ : Block) (s : Layer) (L : ℕ) : MITCCRH → List ℕ → MITCCRH × List (List Block)
  | g, [] => (g, [])
  | g, k0 :: rest =>
    let batch := min 8 (L - k0)
    let g8 := (List.range batch).map fun j =>
      g.hashAt E j (s (k0 + j)).key ^^^ g.hashAt E j ((s (k0 + j)).key ^^^ Δ) ^^^
        leakyC Δ s L (k0 + j)
    let r := leakyGarble Δ s L (g.advance 8) rest
    (r.1, g8 :: r.2)

/-- The evaluator's half of `leaky_and_halfgate`, on the batches it receives: the vector
`Sout`, and where it leaves `emitc`. -/
def leakyEvaluate (Δ : Block) (s : Layer) (L : ℕ) :
    MITCCRH → List ℕ → List (List Block) → MITCCRH × List Block
  | e, [], _ => (e, [])
  | e, k0 :: rest, w =>
    let batch := min 8 (L - k0)
    let w8 := w.headD []
    let S := (List.range batch).map fun j =>
      let k := k0 + j
      let HM := e.hashAt E j (s k).mac
      let HK := e.hashAt E j (s k).key
      let x := LSB (s k).mac
      HK ^^^ (HM ^^^ (w8.getD j zeroBlock &&& selectMask x)) ^^^ (s (2 * L + k)).key ^^^
        (s (2 * L + k)).mac ^^^ (leakyC Δ s L k &&& selectMask x) ^^^
        (Δ &&& selectMask (LSB (s (2 * L + k)).mac))
    let r := leakyEvaluate Δ s L (e.advance 8) rest w.tail
    (r.1, S ++ r.2)

end

/-- The combine step of `leaky_and_halfgate`: the opened `d` is folded into region 2, at party 1
into the MACs and at party 2 into the keys, and `Sout` becomes the vector `L^me`. -/
def leakyFold (party : Party) (Δ : Block) (L : ℕ) (s : Layer) (Sout : List Block) (d : ℕ → Bool) :
    Layer × List Block :=
  (forRegion s (2 * L) L fun k b =>
      match party with
      | .alice => { b with mac := b.mac ^^^ (bit0Mask &&& selectMask (d k)) }
      | .bob => { b with key := b.key ^^^ ((Δ ^^^ bit0Mask) &&& selectMask (d k)) },
    (List.range L).map fun k => Sout.getD k zeroBlock ^^^ (Δ &&& selectMask (d k)))

/-- What a party holds while `compute_inplace` runs. -/
structure TripleHalf where
  /-- The party's pool. -/
  pool : TriplePool
  /-- The hash state of its garbler half. -/
  gmitc : MITCCRH
  /-- The hash state of its evaluator half. -/
  emitc : MITCCRH
  /-- The blocks put into the running `F_eq` hash. -/
  feq : List Block
  /-- The pads of its garbler half so far. The code keeps no such list; this one records what
  it hashes. -/
  pads : List Pad
  /-- The accumulator `acc`. -/
  acc : Layer

section

variable {D : Type} (E : EmpTool D) (Δ : Deltas)

/-- `leaky_and_halfgate` at both parties, on the layers `s₁` and `s₂`: the layers after the
fold. The two halves exchange the ciphertexts, then the bits `LSB1(Sout[k])`. -/
def leakyAndHalfgate (L : ℕ) (h₁ h₂ : TripleHalf) (s₁ s₂ : Layer) :
    (TripleHalf × Layer) × (TripleHalf × Layer) :=
  let G₁ := leakyGarble E Δ.d1 s₁ L h₁.gmitc (batchStarts L)
  let G₂ := leakyGarble E Δ.d2 s₂ L h₂.gmitc (batchStarts L)
  let S₁ := leakyEvaluate E Δ.d1 s₁ L h₁.emitc (batchStarts L) G₂.2
  let S₂ := leakyEvaluate E Δ.d2 s₂ L h₂.emitc (batchStarts L) G₁.2
  let d := fun k => LSB1 (S₁.2.getD k zeroBlock) != LSB1 (S₂.2.getD k zeroBlock)
  let F₁ := leakyFold .alice Δ.d1 L s₁ S₁.2 d
  let F₂ := leakyFold .bob Δ.d2 L s₂ S₂.2 d
  let p₁ := leakyPads s₁ L h₁.gmitc (batchStarts L)
  let p₂ := leakyPads s₂ L h₂.gmitc (batchStarts L)
  (({ h₁ with gmitc := G₁.1, emitc := S₁.1, feq := h₁.feq ++ F₁.2, pads := h₁.pads ++ p₁ }, F₁.1),
    ({ h₂ with gmitc := G₂.1, emitc := S₂.1, feq := h₂.feq ++ F₂.2, pads := h₂.pads ++ p₂ }, F₂.1))

end

/-! ### Bucketing -/

/-- What the deviating party `who` xors into the bits it sends in the unauthenticated openings,
and uses itself: into the `d` of bucket layer `k`, and into `xb` and `yb`. -/
structure Tamper where
  /-- The party that deviates. -/
  who : Party
  /-- The error on `d` of layer `k` at index `i`. -/
  bucket : ℕ → ℕ → Bool
  /-- The error on `xb`. -/
  xb : ℕ → Bool
  /-- The error on `yb`. -/
  yb : ℕ → Bool

/-- Nobody deviates. -/
def Tamper.none : Tamper := ⟨.bob, fun _ _ => false, fun _ => false, fun _ => false⟩

/-- The bit party `p` sends and uses in place of `b`. -/
def Tamper.apply (τ : Tamper) (p : Party) (err b : Bool) : Bool :=
  if p = τ.who then b ^^ err else b

/-- Exactly one party adds the error. -/
theorem Tamper.apply_xor (τ : Tamper) (err b₁ b₂ : Bool) :
    (τ.apply .alice err b₁ ^^ τ.apply .bob err b₂) = (b₁ ^^ b₂ ^^ err) := by
  cases h : τ.who <;> simp [Tamper.apply, h]
  · cases b₁ <;> cases b₂ <;> cases err <;> rfl

/-- `src = (i + r) mod L`, split at the one wraparound. -/
def bucketSrc (L r i : ℕ) : ℕ := if i < L - r then i + r else i + r - L

/-- The first loop of `bucket_one_layer`: add the layer's `a` and `c` regions. -/
def bucketAdd (L r : ℕ) (acc lay : Layer) : Layer :=
  forRegion (forRegion acc 0 L fun i b => b ^^^ lay (bucketSrc L r i)) (2 * L) L
    fun i b => b ^^^ lay (2 * L + bucketSrc L r i)

/-- The bits `d_me` that `bucket_one_layer` opens. -/
def bucketOpen (L r : ℕ) (acc lay : Layer) (i : ℕ) : Bool :=
  LSB (acc (L + i)).mac ^^ LSB (lay (L + bucketSrc L r i)).mac

/-- The last loop of `bucket_one_layer`: `c ^= layer.a · d`. -/
def bucketFold (L r : ℕ) (acc lay : Layer) (d : ℕ → Bool) : Layer :=
  forRegion acc (2 * L) L fun i b =>
    ⟨b.mac ^^^ ((lay (bucketSrc L r i)).mac &&& selectMask (d i)),
      b.key ^^^ ((lay (bucketSrc L r i)).key &&& selectMask (d i))⟩

/-- `bucket_one_layer` at both parties, with errors `err` on the bits `τ.who` opens. -/
def bucketOneLayer (τ : Tamper) (err : ℕ → Bool) (L r : ℕ) (acc₁ lay₁ acc₂ lay₂ : Layer) :
    Layer × Layer :=
  let d := fun i => τ.apply .alice (err i) (bucketOpen L r acc₁ lay₁ i) ^^
    τ.apply .bob (err i) (bucketOpen L r acc₂ lay₂ i)
  (bucketFold L r (bucketAdd L r acc₁ lay₁) lay₁ d, bucketFold L r (bucketAdd L r acc₂ lay₂) lay₂ d)

section

variable {D : Type} (E : EmpTool D) (Δ : Deltas) (cot₁ cot₂ : ℕ → AShareBundle)

/-- One iteration of the loop of `layered_bucket_into_acc`: mint a sacrifice layer, run the
leaky AND on it, draw the shift `raw % L` and fold the layer into the accumulator. -/
def sacrificeLayer (τ : Tamper) (raw : ℕ → ℕ) (L : ℕ) (h : TripleHalf × TripleHalf) (k : ℕ) :
    TripleHalf × TripleHalf :=
  let m₁ := h.1.pool.genCotShares cot₁ (3 * L)
  let m₂ := h.2.pool.genCotShares cot₂ (3 * L)
  let l := leakyAndHalfgate E Δ L { h.1 with pool := m₁.2 } { h.2 with pool := m₂.2 } m₁.1 m₂.1
  let b := bucketOneLayer τ (τ.bucket k) L (raw k % L) l.1.1.acc l.1.2 l.2.1.acc l.2.2
  ({ l.1.1 with acc := b.1 }, { l.2.1 with acc := b.2 })

/-- `layered_bucket_into_acc`: the `B - 1` sacrifice layers. -/
def layeredBucketIntoAcc (τ : Tamper) (raw : ℕ → ℕ) (B L : ℕ) (h : TripleHalf × TripleHalf) :
    TripleHalf × TripleHalf :=
  (List.range (B - 1)).foldl (sacrificeLayer E Δ cot₁ cot₂ τ raw L) h

end

/-! ### The equality check -/

section

variable {D : Type} [DecidableEq D]

/-- `feq_check` at party 1, which sees the peer's digest. -/
def feqCheck₁ (Dme Dpeer : D) (failMsg : String) : Except String Unit :=
  if Dme ≠ Dpeer then .error failMsg else .ok ()

/-- `feq_check` at party 2, which sees the commitment and its opening. -/
def feqCheck₂ (E : EmpTool D) (Dme com Dpeer : D) (r : Block) (failMsg : String) :
    Except String Unit :=
  if E.commit Dpeer r ≠ com then .error "F_eq: commit-open mismatch"
  else if Dme ≠ Dpeer then .error failMsg
  else .ok ()

/-- `feq_check` at two honest parties. -/
def feqCheck (E : EmpTool D) (D₁ D₂ : D) (r : Block) (failMsg : String) : Except String Unit := do
  let com := E.commit D₁ r
  feqCheck₁ D₁ D₂ failMsg
  feqCheck₂ E D₂ com D₁ r failMsg

/-! ### In-place AND shares -/

/-- The seed both parties set `gmitc` and `emitc` to. -/
def pairSeed : Block := makeBlock 1 2

/-- Layer 0: region `a` is `λ_α`, region `b` is `λ_β`, region `r` is fresh. -/
def layerZero (L : ℕ) (repA repB r : ℕ → AShareBundle) : Layer := fun i =>
  if i < L then repA i else if i < 2 * L then repB (i - L) else r (i - 2 * L)

/-- A party's data when `compute_inplace` has minted the representative's region `r`. -/
def tripleStart (cot : ℕ → AShareBundle) (L : ℕ) (repA repB : ℕ → AShareBundle) (t : TriplePool) :
    TripleHalf :=
  let m := t.genCotShares cot L
  { pool := m.2, gmitc := .setS pairSeed, emitc := .setS pairSeed, feq := [], pads := []
    acc := layerZero L repA repB m.1 }

/-- The bits `xb_me` and `yb_me` a party opens in the reconcile step. -/
def reconcileOpen (L : ℕ) (repA repB acc : ℕ → AShareBundle) (i : ℕ) : Bool × Bool :=
  (LSB (repA i).mac ^^ LSB (acc i).mac, LSB (repB i).mac ^^ LSB (acc (L + i)).mac)

/-- `σ = Z ⊕ xb·Y ⊕ yb·X ⊕ xb·yb` at one party, the constant folded in at one side. -/
def reconcileSigma (party : Party) (Δ : Block) (L : ℕ) (acc : Layer) (xb yb : ℕ → Bool) (i : ℕ) :
    AShareBundle :=
  let mac := (acc (2 * L + i)).mac ^^^ (selectMask (xb i) &&& (acc (L + i)).mac) ^^^
    (selectMask (yb i) &&& (acc i).mac)
  let key := (acc (2 * L + i)).key ^^^ (selectMask (xb i) &&& (acc (L + i)).key) ^^^
    (selectMask (yb i) &&& (acc i).key)
  match party with
  | .alice => ⟨mac ^^^ (selectMask (xb i && yb i) &&& bit0Mask), key⟩
  | .bob => ⟨mac, key ^^^ (selectMask (xb i && yb i) &&& (Δ ^^^ bit0Mask))⟩

variable (E : EmpTool D) (Δ : Deltas) (cot₁ cot₂ : ℕ → AShareBundle)

/-- The two parties' layers up to the equality check: the representative's leaky AND, then the
sacrifice layers folded in. -/
def computeLayers (τ : Tamper) (raw : ℕ → ℕ) (B L : ℕ)
    (repA₁ repB₁ repA₂ repB₂ : ℕ → AShareBundle) (t₁ t₂ : TriplePool) : TripleHalf × TripleHalf :=
  let h₁ := tripleStart cot₁ L repA₁ repB₁ t₁
  let h₂ := tripleStart cot₂ L repA₂ repB₂ t₂
  let l := leakyAndHalfgate E Δ L h₁ h₂ h₁.acc h₂.acc
  layeredBucketIntoAcc E Δ cot₁ cot₂ τ raw B L ({ l.1.1 with acc := l.1.2 }, { l.2.1 with acc := l.2.2 })

/-- `out_sigma` at the two parties: open `xb` and `yb`, then combine. -/
def reconcile (τ : Tamper) (L : ℕ) (repA₁ repB₁ repA₂ repB₂ : ℕ → AShareBundle)
    (acc₁ acc₂ : Layer) : (ℕ → AShareBundle) × (ℕ → AShareBundle) :=
  let xb := fun i => τ.apply .alice (τ.xb i) (reconcileOpen L repA₁ repB₁ acc₁ i).1 ^^
    τ.apply .bob (τ.xb i) (reconcileOpen L repA₂ repB₂ acc₂ i).1
  let yb := fun i => τ.apply .alice (τ.yb i) (reconcileOpen L repA₁ repB₁ acc₁ i).2 ^^
    τ.apply .bob (τ.yb i) (reconcileOpen L repA₂ repB₂ acc₂ i).2
  (reconcileSigma .alice Δ.d1 L acc₁ xb yb, reconcileSigma .bob Δ.d2 L acc₂ xb yb)

/-- `compute_inplace` at both parties with bucket size `B`: the shares of `σ`, or the abort of
the batched `F_eq`. -/
def computeInplaceWith (τ : Tamper) (raw : ℕ → ℕ) (nonce : Block) (B L : ℕ)
    (repA₁ repB₁ repA₂ repB₂ : ℕ → AShareBundle) (t₁ t₂ : TriplePool) :
    Except String (((ℕ → AShareBundle) × (ℕ → AShareBundle)) × TriplePool × TriplePool) :=
  if L = 0 then .ok ((fun _ => default, fun _ => default), t₁, t₂)
  else do
    let h := computeLayers E Δ cot₁ cot₂ τ raw B L repA₁ repB₁ repA₂ repB₂ t₁ t₂
    feqCheck E (E.hash h.1.feq) (E.hash h.2.feq) nonce "LaAND F_eq: leaky-AND check failed"
    return (reconcile Δ τ L repA₁ repB₁ repA₂ repB₂ h.1.acc h.2.acc, h.1.pool, h.2.pool)

/-- `compute_inplace` at two honest parties. -/
def computeInplace (ssp : ℕ) (raw : ℕ → ℕ) (nonce : Block) (numAnds : ℕ)
    (repA₁ repB₁ repA₂ repB₂ : ℕ → AShareBundle) (t₁ t₂ : TriplePool) :
    Except String (((ℕ → AShareBundle) × (ℕ → AShareBundle)) × TriplePool × TriplePool) :=
  computeInplaceWith E Δ cot₁ cot₂ .none raw nonce (getBucketSize ssp numAnds) numAnds
    repA₁ repB₁ repA₂ repB₂ t₁ t₂

end

end AG2PC
