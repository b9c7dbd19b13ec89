import AG2PC.Backend.Bucketing
import AG2PC.Backend.LiveWidth
import AG2PC.Library.IntRange

/-!
# The `int`s of a run

Wire ids are `uint32_t`, counters are `int`, buffers are sized in `size_t`, and indices are products and sums of
`int`s. This module lists the `int` expressions that the triple pool and the passes evaluate, each with the size
of the buffer it indexes, and says for which circuits they are in order.

* `computeInplaceInts_ok` — the triple pool's, for `num_ands` candidates.
* `allocInts_ok`, `gateSlotsInts_ok` — those of the slot map.
* `intsInOrder_iff` — those of a run: they are in order exactly when the run is rejected or `3 * num_ands` and the
  number of wires are `int`s.
-/

namespace AG2PC

open Library.IntRange

/-! ### The triple pool -/

/-- `leaky_and_halfgate`, on buffers of three regions of `L` blocks. -/
def leakyAndHalfgateInts (L : ℕ) : List IntUse :=
  (batchStarts L).flatMap (fun k0 : ℕ =>
    count (k0 + 8) :: count (L - k0) ::
      (List.range 8).flatMap (fun j : ℕ => [index (2 * j) 16, index (2 * j + 1) 16]) ++
      (List.range (min 8 (L - k0))).flatMap fun j : ℕ =>
        let k : ℕ := k0 + j
        [index (k0 + j) (3 * L), index j 8, index k (3 * L), index (L + k) (3 * L), index (2 * L + k) (3 * L),
          index k L]) ++
  (List.range L).flatMap fun k : ℕ => [index k L, index (2 * L + k) (3 * L)]

/-- `bucket_one_layer`. -/
def bucketOneLayerInts (L r : ℕ) : List IntUse :=
  count (L - r) :: (List.range L).flatMap fun i : ℕ =>
    let src : ℕ := bucketSrc L r i
    [count (if i < L - r then i + r else i + r - L), index i (3 * L), index src (3 * L), index (2 * L + i) (3 * L),
      index (2 * L + src) (3 * L), index (L + i) (3 * L), index (L + src) (3 * L), index i L]

/-- `layered_bucket_into_acc`; `raw` are the coins the shifts are drawn from. -/
def layeredBucketIntoAccInts (raw : ℕ → ℕ) (B L : ℕ) : List IntUse :=
  count (B - 1) :: (List.range (B - 1)).flatMap fun k : ℕ =>
    let r : ℕ := raw k % L
    count (k + 1) :: count (3 * L) :: leakyAndHalfgateInts L ++ count r :: bucketOneLayerInts L r

/-- `compute_inplace`. -/
def computeInplaceInts (ssp : ℕ) (raw : ℕ → ℕ) (numAnds : ℕ) : List IntUse :=
  if numAnds = 0 then []
  else
    let B := getBucketSize ssp numAnds
    let L := numAnds
    count B :: (List.range L).flatMap (fun i : ℕ => [index i (3 * L), index i numAnds, index (L + i) (3 * L)]) ++
      index (2 * L) (3 * L) :: leakyAndHalfgateInts L ++ layeredBucketIntoAccInts raw B L ++
      (List.range L).flatMap fun i : ℕ => [index i L, index i (3 * L), index (L + i) (3 * L), index (2 * L + i) (3 * L)]

section

variable {L : ℕ} (hL : InRange (3 * L))

include hL

theorem leakyAndHalfgateInts_ok : AllOk (leakyAndHalfgateInts L) := by
  obtain ⟨-, hL⟩ := hL
  simp only [leakyAndHalfgateInts, allOk_append, allOk_flatMap, allOk_cons, allOk_nil]
  refine ⟨fun k0 hk0 => ?_, fun k hk => ?_⟩
  · obtain ⟨b, hb, rfl⟩ := List.mem_map.mp hk0
    have hb' := List.mem_range.mp hb
    refine ⟨⟨?_, ?_, fun j hj => ?_⟩, fun j hj => ?_⟩
    · simp [InRange]
      omega
    · simp [InRange]
      omega
    · have hj' := List.mem_range.mp hj
      simp [InRange]
      omega
    · have hj' := List.mem_range.mp hj
      simp [InRange]
      omega
  · have hk' := List.mem_range.mp hk
    simp [InRange]
    omega

theorem bucketOneLayerInts_ok {r : ℕ} (hr : r < L) : AllOk (bucketOneLayerInts L r) := by
  obtain ⟨-, hL⟩ := hL
  simp only [bucketOneLayerInts, allOk_flatMap, allOk_cons, allOk_nil]
  refine ⟨?_, fun i hi => ?_⟩
  · simp [InRange]
    omega
  · have hi' := List.mem_range.mp hi
    have hsrc := bucketSrc_lt hr hi'
    refine ⟨?_, ?_⟩
    · split
      · simp [InRange]
        omega
      · simp [InRange]
        omega
    · simp [InRange]
      omega

theorem layeredBucketIntoAccInts_ok (raw : ℕ → ℕ) {B : ℕ} (hpos : 0 < L) (hB : 0 < B) (hB' : B < 2 ^ 31) :
    AllOk (layeredBucketIntoAccInts raw B L) := by
  simp only [layeredBucketIntoAccInts, allOk_flatMap, allOk_append, allOk_cons]
  refine ⟨?_, fun k hk => ⟨⟨?_, ?_, leakyAndHalfgateInts_ok hL⟩, ?_, ?_⟩⟩
  · simp [InRange]
    omega
  · have hk' := List.mem_range.mp hk
    simp [InRange]
    omega
  · obtain ⟨-, hL⟩ := hL
    simp [InRange]
    omega
  · have hr : raw k % L < L := Nat.mod_lt _ hpos
    obtain ⟨-, hL⟩ := hL
    simp [InRange]
    omega
  · exact bucketOneLayerInts_ok hL (Nat.mod_lt _ hpos)

end

/-- The bucket size is an `int` if `ssp` is. -/
theorem getBucketSize_lt {ssp : ℕ} (hssp : InRange ssp) (size : ℕ) : getBucketSize ssp size < 2 ^ 31 := by
  have hle := getBucketSize_le ssp size
  have hlt := hssp.2
  omega

/-- **The triple pool**: every expression is in order if the three regions of a layer are counted by an `int`. -/
theorem computeInplaceInts_ok {ssp L : ℕ} (raw : ℕ → ℕ) (hssp : InRange ssp) (hL : InRange (3 * L)) :
    AllOk (computeInplaceInts ssp raw L) := by
  rw [computeInplaceInts]
  split
  · exact allOk_nil
  · next hne =>
    have hpos : 0 < L := Nat.pos_of_ne_zero hne
    have hB := two_le_getBucketSize ssp L
    have hB' := getBucketSize_lt hssp L
    simp only [allOk_flatMap, allOk_append, allOk_cons, allOk_nil, and_true]
    refine ⟨⟨⟨⟨?_, fun i hi => ?_⟩, ?_, leakyAndHalfgateInts_ok hL⟩,
      layeredBucketIntoAccInts_ok hL raw hpos (by omega) hB'⟩, fun i hi => ?_⟩
    · simp [InRange]
      omega
    · have hi' := List.mem_range.mp hi
      obtain ⟨-, hL⟩ := hL
      simp [InRange]
      omega
    · obtain ⟨-, hL⟩ := hL
      simp [InRange]
      omega
    · have hi' := List.mem_range.mp hi
      obtain ⟨-, hL⟩ := hL
      simp [InRange]
      omega

/-! ### The passes -/

/-- An accessor of `AG2PCRunState`: the wire id indexes `phys`, and its slot an array of `size` slots. -/
def slotInts (phys : ℕ → ℕ) (numWires size w : ℕ) : List IntUse := [index w numWires, index (phys w) size]

/-- The liveness pass: `++gi` and `++ai`. -/
def livenessInts : Liveness → List Gate → List IntUse
  | _, [] => []
  | s, g :: gs =>
    let s' := livenessPass.step s g
    count s'.gi :: count s'.ai :: livenessInts s' gs

/-- The slot/mask pass on the slot map: the operands are read, the output gets a slot, and the gate is
counted. -/
def allocInts (lastUse : ℕ → Option ℕ) (persist : ℕ → Bool) (numWires : ℕ) : Alloc → List Gate → List IntUse
  | _, [] => []
  | a, g :: gs =>
    let a' := a.gate lastUse persist g
    g.srcs.flatMap (slotInts a.phys numWires a.numSlots) ++
      count a'.numSlots :: index (a'.phys g.out) a'.numSlots :: count a'.gi ::
        allocInts lastUse persist numWires a' gs

/-- `lg_off` and `lg_buf.size()` after the masks of `k` ANDs. -/
def lgPosition : ℕ → ℕ × ℕ
  | 0 => (0, 0)
  | k + 1 =>
    let (off, size) := lgPosition k
    if size ≤ off then (1, kLgBatch) else (off + 1, size)

/-- They are those of the slot/mask pass. -/
theorem slotMaskGate_lgPosition (cot : ℕ → AShareBundle) (g : Gate) {s : MaskGlobals} (r : ℕ → MaskSlot)
    (h : (s.lgOff, s.lgSize) = lgPosition s.ai) :
    ((slotMaskGate cot g s r).1.lgOff, (slotMaskGate cot g s r).1.lgSize) = lgPosition (slotMaskGate cot g s r).1.ai := by
  cases hop : g.op with
  | And =>
    simp only [slotMaskGate, hop, MaskGlobals.nextLambdaGamma, TriplePool.draw]
    split <;> simp_all [lgPosition, ← h]
  | _ => simpa only [slotMaskGate, hop] using h

/-- `next_lambda_gamma` of AND `k`, and `++ai`. -/
def nextLambdaGammaInts (k : ℕ) : List IntUse :=
  let (off, size) := lgPosition k
  let (off', size') := if size ≤ off then (0, kLgBatch) else (off, size)
  [count off, count size, index off' size', count (off' + 1), count (k + 1)]

/-- The slots a gate of a later pass touches. -/
def gateSlotsInts (phys : ℕ → ℕ) (numWires numSlots : ℕ) (g : Gate) : List IntUse :=
  (g.srcs ++ [g.out]).flatMap (slotInts phys numWires numSlots)

/-- The capacity of a chunk. -/
def chunkCap (numAnds : ℕ) : ℕ := min kBatch (max 1 numAnds)

/-- `cur->n` of the garble pass after `k` ANDs. -/
def fillPosition : ℕ → ℕ
  | 0 => 0
  | k + 1 => if fillPosition k + 1 = kBatch then 0 else fillPosition k + 1

/-- It is that of the garble pass. -/
theorem garbleGate_fillPosition {D : Type} (E : EmpTool D) (Δ : Block) (sigma : ℕ → AShareBundle) (g : Gate)
    {s : GarbleGlobals} (r : ℕ → GarbleSlot) (old : GarbleSlot) (h : s.cur.length = fillPosition s.ai) :
    (garbleGate E Δ sigma g s r old).1.cur.length = fillPosition (garbleGate E Δ sigma g s r old).1.ai := by
  cases hop : g.op with
  | And =>
    simp only [garbleGate, hop, List.length_append, List.length_singleton, h]
    split
    · next hfull => simp [fillPosition, hfull]
    · next hfull => simp [fillPosition, hfull, h]
  | _ => simpa only [garbleGate, hop] using h

/-- `and_gate` of the garble pass at AND `k`, beside the slots. -/
def garbleAndInts (numAnds k : ℕ) : List IntUse :=
  let n := fillPosition k
  let cap := chunkCap numAnds
  [count (k + 1), index k numAnds, index (2 * n) (2 * cap), index (2 * n + 1) (2 * cap), index n cap, count (n + 1)]

/-- `loc` and `cur->n` of the evaluate pass after `k` ANDs; before the first, it has no chunk. -/
def readPosition (numAnds : ℕ) : ℕ → ℕ × ℕ
  | 0 => (0, 0)
  | k + 1 =>
    let (loc, n) := readPosition numAnds k
    if loc = n then (1, min kBatch (numAnds - k)) else (loc + 1, n)

/-- `and_gate` of the evaluate pass at AND `k`, beside the slots. -/
def evaluateAndInts (numAnds k : ℕ) : List IntUse :=
  let (loc, n) := readPosition numAnds k
  let l := if loc = n then 0 else loc
  let cap := chunkCap numAnds
  [count (k + 1), index k numAnds, index (2 * l) (2 * cap), index (2 * l + 1) (2 * cap), index l cap,
    index k (max 1 numAnds), count (l + 1)]

/-- The receiver of the evaluate pass. -/
def receiverInts (numAnds : ℕ) : List IntUse :=
  (List.range ((numAnds + kBatch - 1) / kBatch)).flatMap fun c : ℕ =>
    let base : ℕ := c * kBatch
    let n : ℕ := min kBatch (numAnds - base)
    [count (numAnds - base), count (base + n)]

/-- `and_gate` of the gamma check at AND `k`, beside the slots. -/
def gammaAndInts (numAnds k : ℕ) : List IntUse :=
  [count (k + 1), index k (max 1 numAnds), index k numAnds]

/-- `garbler_path_`. -/
def garblerPathInts (phys : ℕ → ℕ) (numWires numSlots : ℕ) (gs : List Gate) : List IntUse :=
  let numAnds := countAnds gs
  count (2 * chunkCap numAnds) :: gs.flatMap (gateSlotsInts phys numWires numSlots) ++
    (List.range numAnds).flatMap (garbleAndInts numAnds) ++
      if 0 < numAnds then
        gs.flatMap (gateSlotsInts phys numWires numSlots) ++ (List.range numAnds).flatMap (gammaAndInts numAnds)
      else []

/-- `evaluator_path_`. -/
def evaluatorPathInts (phys : ℕ → ℕ) (numWires numSlots : ℕ) (gs : List Gate) : List IntUse :=
  let numAnds := countAnds gs
  count (2 * chunkCap numAnds) :: receiverInts numAnds ++ gs.flatMap (gateSlotsInts phys numWires numSlots) ++
    (List.range numAnds).flatMap (evaluateAndInts numAnds)

/-- The path of a party. -/
def pathInts : Party → (ℕ → ℕ) → ℕ → ℕ → List Gate → List IntUse
  | .alice => garblerPathInts
  | .bob => evaluatorPathInts

/-! ### They are in order -/

/-- A gate makes at most one slot. -/
theorem gate_numSlots_le (lastUse : ℕ → Option ℕ) (persist : ℕ → Bool) (a : Alloc) (g : Gate) :
    (a.gate lastUse persist g).numSlots ≤ a.numSlots + 1 := by
  rw [(gate_freelist lastUse persist a g).2.1]
  rcases allocSlot_cases persist a g.out with ⟨-, slot, rest, -, heq⟩ | heq <;> simp [heq]

theorem allocGates_numSlots_le (lastUse : ℕ → Option ℕ) (persist : ℕ → Bool) (gs : List Gate) : ∀ a : Alloc,
    (allocGates lastUse persist a gs).numSlots ≤ a.numSlots + gs.length := by
  induction gs with
  | nil => exact fun a => Nat.le_refl _
  | cons g gs ih =>
    intro a
    have hgate := gate_numSlots_le lastUse persist a g
    have hrest := ih (a.gate lastUse persist g)
    rw [List.length_cons]
    change (allocGates lastUse persist (a.gate lastUse persist g) gs).numSlots ≤ _
    omega

section

variable {N : ℕ} (hN : InRange N)

include hN

theorem slotInts_ok {phys : ℕ → ℕ} {size w : ℕ} (hw : w < N) (hphys : phys w < size) (hsize : size ≤ N) :
    AllOk (slotInts phys N size w) := by
  obtain ⟨-, hN⟩ := hN
  simp [slotInts, InRange]
  omega

theorem livenessInts_ok (gs : List Gate) : ∀ s : Liveness, s.gi + gs.length ≤ N → s.ai + gs.length ≤ N →
    AllOk (livenessInts s gs) := by
  induction gs with
  | nil =>
    intro s _ _
    exact allOk_nil
  | cons g gs ih =>
    intro s hgi hai
    rw [List.length_cons] at hgi hai
    have hstep : (livenessPass.step s g).gi ≤ s.gi + 1 ∧ (livenessPass.step s g).ai ≤ s.ai + 1 := by
      cases hg : g.op <;> simp [Pass.step, livenessPass, Liveness.emit, Liveness.read, hg]
    have hrest := ih (livenessPass.step s g) (by omega) (by omega)
    obtain ⟨-, hN⟩ := hN
    rw [livenessInts, allOk_cons, allOk_cons]
    refine ⟨?_, ?_, hrest⟩
    · simp [InRange]
      omega
    · simp [InRange]
      omega

theorem allocInts_ok {lastUse : ℕ → Option ℕ} {persist : ℕ → Bool} (gs : List Gate) : ∀ {d : ℕ} {a : Alloc},
    CanonicalStream d gs → AllocOk a d (InUse lastUse persist a.gi) → ReadsCovered lastUse persist a.gi gs →
      d + gs.length ≤ N → a.numSlots ≤ d → a.gi ≤ d → AllOk (allocInts lastUse persist N a gs) := by
  induction gs with
  | nil =>
    intro d a _ _ _ _ _ _
    exact allOk_nil
  | cons g gs ih =>
    intro d a hcan hok hcov hlen hslots hgi
    obtain ⟨rfl, hsrcs, hrest⟩ := canonicalStream_cons.mp hcan
    obtain ⟨hreads, -, hcov'⟩ := hcov
    obtain ⟨hgi', hok', -⟩ := hok.gate hsrcs hreads
    rw [List.length_cons] at hlen
    have hnum := gate_numSlots_le lastUse persist a g
    have hnext : (a.gate lastUse persist g).gi ≤ a.gi + 1 := by
      rw [hgi', nextIndex]
      split <;> omega
    have hlt := hok'.phys_lt _ (Nat.lt_succ_self _)
    rw [allocInts, allOk_append, allOk_cons, allOk_cons, allOk_cons, allOk_flatMap]
    refine ⟨fun w hw => ?_, ?_, ?_, ?_, ih hrest hok' (hgi' ▸ hcov') (by omega) (by omega) (by omega)⟩
    · have hwlt := hsrcs w hw
      exact slotInts_ok hN (by omega) (hok.phys_lt w hwlt) (by omega)
    all_goals
      obtain ⟨-, hN⟩ := hN
      simp [InRange]
      omega

theorem gateSlotsInts_ok {phys : ℕ → ℕ} {size : ℕ} {g : Gate} (hout : g.out < N) (hsrcs : ∀ w ∈ g.srcs, w < N)
    (hphys : ∀ w < N, phys w < size) (hsize : size ≤ N) : AllOk (gateSlotsInts phys N size g) := by
  rw [gateSlotsInts, allOk_flatMap]
  intro w hw
  have hlt : w < N := by
    rcases List.mem_append.mp hw with hw | hw
    · exact hsrcs w hw
    · exact List.mem_singleton.mp hw ▸ hout
  exact slotInts_ok hN hlt (hphys w hlt) hsize

end

theorem kBatch_eq : kBatch = 65536 := rfl

theorem lgPosition_le (k : ℕ) : (lgPosition k).1 ≤ (lgPosition k).2 ∧ (lgPosition k).2 ≤ kLgBatch := by
  induction k with
  | zero => exact ⟨Nat.le_refl _, Nat.zero_le _⟩
  | succ k ih =>
    obtain ⟨hoff, hsize⟩ := ih
    simp only [lgPosition]
    split
    · exact ⟨(by decide : 1 ≤ kLgBatch), Nat.le_refl _⟩
    · simp only
      omega

theorem fillPosition_lt (k : ℕ) : fillPosition k < kBatch ∧ fillPosition k ≤ k := by
  induction k with
  | zero => exact ⟨by decide, Nat.le_refl _⟩
  | succ k ih =>
    rw [fillPosition]
    have hK := kBatch_eq
    split <;> omega

theorem readPosition_le {numAnds k : ℕ} (hk : k ≤ numAnds) :
    (readPosition numAnds k).1 ≤ (readPosition numAnds k).2 ∧ (readPosition numAnds k).2 ≤ chunkCap numAnds := by
  induction k with
  | zero => exact ⟨Nat.le_refl _, Nat.zero_le _⟩
  | succ k ih =>
    obtain ⟨hloc, hn⟩ := ih (by omega)
    have hK := kBatch_eq
    unfold chunkCap at hn ⊢
    simp only [readPosition]
    split
    · simp only
      omega
    · simp only
      omega

section

variable {numAnds k : ℕ} (hands : InRange numAnds) (hk : k < numAnds)

include hands hk

theorem nextLambdaGammaInts_ok : AllOk (nextLambdaGammaInts k) := by
  obtain ⟨-, hands⟩ := hands
  obtain ⟨hoff, hsize⟩ := lgPosition_le k
  have hK : kLgBatch = 16384 := rfl
  simp only [nextLambdaGammaInts]
  split
  · simp [InRange]
    omega
  · simp [InRange]
    omega

theorem garbleAndInts_ok : AllOk (garbleAndInts numAnds k) := by
  obtain ⟨-, hands⟩ := hands
  obtain ⟨hlt, hle⟩ := fillPosition_lt k
  have hK := kBatch_eq
  have hcap : fillPosition k < chunkCap numAnds := by
    unfold chunkCap
    omega
  simp only [garbleAndInts]
  simp [InRange]
  omega

theorem evaluateAndInts_ok : AllOk (evaluateAndInts numAnds k) := by
  obtain ⟨-, hands⟩ := hands
  obtain ⟨hloc, hn⟩ := readPosition_le (Nat.le_of_lt hk)
  have hK := kBatch_eq
  have hcap : 0 < chunkCap numAnds ∧ chunkCap numAnds ≤ kBatch := by
    unfold chunkCap
    omega
  simp only [evaluateAndInts]
  split
  · simp [InRange]
    omega
  · simp [InRange]
    omega

theorem gammaAndInts_ok : AllOk (gammaAndInts numAnds k) := by
  obtain ⟨-, hands⟩ := hands
  simp [gammaAndInts, InRange]
  omega

end

theorem receiverInts_ok {numAnds : ℕ} (hands : InRange numAnds) : AllOk (receiverInts numAnds) := by
  obtain ⟨-, hands⟩ := hands
  have hK := kBatch_eq
  rw [receiverInts, allOk_flatMap]
  intro c hc
  have hc' := List.mem_range.mp hc
  have hbase : c * kBatch < numAnds := by
    rw [hK] at hc' ⊢
    omega
  simp [InRange]
  omega

section

variable {party : Party} {phys : ℕ → ℕ} {numWires numSlots : ℕ} {gs : List Gate}

theorem pathInts_ok (hands : InRange (countAnds gs))
    (hgates : ∀ g ∈ gs, AllOk (gateSlotsInts phys numWires numSlots g)) :
    AllOk (pathInts party phys numWires numSlots gs) := by
  have hcap : AllOk [count (2 * chunkCap (countAnds gs))] := by
    have hK := kBatch_eq
    simp [chunkCap, InRange]
    omega
  have hgates' : AllOk (gs.flatMap (gateSlotsInts phys numWires numSlots)) := allOk_flatMap.mpr hgates
  have hall : ∀ f : ℕ → List IntUse, (∀ k < countAnds gs, AllOk (f k)) → AllOk ((List.range (countAnds gs)).flatMap f) :=
    fun f hf => allOk_flatMap.mpr fun k hk => hf k (List.mem_range.mp hk)
  cases party with
  | alice =>
    have hgarble := hall _ fun k hk => garbleAndInts_ok hands hk
    have hgamma := hall _ fun k hk => gammaAndInts_ok hands hk
    change AllOk ([count (2 * chunkCap (countAnds gs))] ++ _ ++ _ ++ if _ then _ ++ _ else [])
    split
    · exact allOk_append.mpr ⟨allOk_append.mpr ⟨allOk_append.mpr ⟨hcap, hgates'⟩, hgarble⟩,
        allOk_append.mpr ⟨hgates', hgamma⟩⟩
    · exact allOk_append.mpr ⟨allOk_append.mpr ⟨allOk_append.mpr ⟨hcap, hgates'⟩, hgarble⟩, allOk_nil⟩
  | bob =>
    have heval := hall _ fun k hk => evaluateAndInts_ok hands hk
    change AllOk ([count (2 * chunkCap (countAnds gs))] ++ _ ++ _ ++ _)
    exact allOk_append.mpr ⟨allOk_append.mpr ⟨allOk_append.mpr ⟨hcap, receiverInts_ok hands⟩, hgates'⟩, heval⟩

/-- Both paths touch the slots of every gate. -/
theorem gateSlotsInts_of_path (h : AllOk (pathInts party phys numWires numSlots gs)) :
    ∀ g ∈ gs, AllOk (gateSlotsInts phys numWires numSlots g) := by
  cases party <;> simp only [pathInts, garblerPathInts, evaluatorPathInts, allOk_append, allOk_cons, allOk_flatMap] at h
  · exact h.1.1.2
  · exact h.1.2

end

/-! ### A run -/

/-- `run_source` of a party over the gates of a source. The wire counter `wid` is a `uint32_t`. -/
def runSourceInts (party : Party) (ssp : ℕ) (raw : ℕ → ℕ) (n : ℕ) (gs : List Gate) (outIds : List ℕ) :
    List IntUse :=
  let numWires := n + gs.length
  let wid : ℕ := numWires % 2 ^ 32
  let lv := streamLiveness n gs outIds
  let A := streamAlloc n gs outIds
  let numAnds := countAnds gs
  count n :: livenessInts (.start n) gs ++ count wid :: (List.range n).flatMap (fun i : ℕ => [index i numWires, index i n]) ++
    allocInts lv.lastUse lv.persist numWires (.start n) gs ++ (List.range numAnds).flatMap nextLambdaGammaInts ++
    count A.numSlots :: count (max 1 numAnds : ℕ) :: computeInplaceInts ssp raw numAnds ++
    pathInts party A.phys numWires A.numSlots gs ++ outIds.flatMap (slotInts A.phys numWires A.numSlots)

section

variable {party : Party} {ssp : ℕ} {raw : ℕ → ℕ} {n : ℕ} {gs : List Gate} {outIds : List ℕ}

theorem runSourceInts_ok (hcan : CanonicalStream n gs) (houts : ∀ w ∈ outIds, w < n + gs.length)
    (hssp : InRange ssp) (hands : InRange (3 * countAnds gs)) (hwires : InRange (n + gs.length : ℕ)) :
    AllOk (runSourceInts party ssp raw n gs outIds) := by
  obtain ⟨-, -, hphys⟩ := safe_streamAlloc outIds hcan
  have hslots : (streamAlloc n gs outIds).numSlots ≤ n + gs.length := allocGates_numSlots_le _ _ gs (.start n)
  have hone : InRange (countAnds gs) := ⟨by omega, by have := hands.2; omega⟩
  have hgates : ∀ g ∈ gs, AllOk (gateSlotsInts (streamAlloc n gs outIds).phys (n + gs.length)
      (streamAlloc n gs outIds).numSlots g) := fun g hg =>
    gateSlotsInts_ok hwires (canonicalStream_lt hcan hg).1 (canonicalStream_lt hcan hg).2 hphys hslots
  have hlv := livenessInts_ok hwires gs (.start n) (by simp [Liveness.start]) (by simp [Liveness.start])
  have hcov : ReadsCovered (streamLiveness n gs outIds).lastUse (streamLiveness n gs outIds).persist 0 gs :=
    readsCovered_stream hcan
  have halloc := allocInts_ok hwires gs hcan (allocOk_start _) hcov (Nat.le_refl _) (Nat.le_refl _) (Nat.zero_le _)
  have hcount : ∀ m ≤ n + gs.length, (count m).Ok := by
    intro m hm
    obtain ⟨-, hN⟩ := hwires
    simp [InRange]
    omega
  simp only [runSourceInts, allOk_append, allOk_cons, allOk_flatMap]
  refine ⟨⟨⟨⟨⟨⟨⟨hcount n (Nat.le_add_right _ _), hlv⟩, hcount _ (Nat.mod_le _ _), fun i hi => ?_⟩, halloc⟩,
    fun k hk => nextLambdaGammaInts_ok hone (List.mem_range.mp hk)⟩, hcount _ hslots, ?_,
    computeInplaceInts_ok raw hssp hands⟩, pathInts_ok hone hgates⟩, fun w hw => ?_⟩
  · have hi' := List.mem_range.mp hi
    obtain ⟨-, hN⟩ := hwires
    simp [InRange]
    omega
  · obtain ⟨-, hone⟩ := hone
    simp [InRange]
    omega
  · exact slotInts_ok hwires (houts w hw) (hphys w (houts w hw)) hslots

theorem inRange_of_runSourceInts (hcan : CanonicalStream n gs) (hids : n + gs.length ≤ 2 ^ 32)
    (h : AllOk (runSourceInts party ssp raw n gs outIds)) :
    InRange (3 * countAnds gs) ∧ InRange (n + gs.length : ℕ) := by
  simp only [runSourceInts, allOk_append, allOk_cons, count_ok, IntExp.fits_val] at h
  obtain ⟨⟨⟨⟨⟨⟨⟨hn, -⟩, hwid, -⟩, -⟩, -⟩, -, -, htriples⟩, hpath⟩, -⟩ := h
  constructor
  · -- the first sacrifice layer counts its shares
    rcases Nat.eq_zero_or_pos (countAnds gs) with hzero | hpos
    · rw [hzero]
      decide
    · rw [computeInplaceInts, if_neg (Nat.ne_of_gt hpos)] at htriples
      have hB := two_le_getBucketSize ssp (countAnds gs)
      simp only [allOk_append, allOk_cons, layeredBucketIntoAccInts, allOk_flatMap] at htriples
      obtain ⟨⟨-, -, hlayers⟩, -⟩ := htriples
      obtain ⟨⟨-, hcot, -⟩, -⟩ := hlayers 0 (List.mem_range.mpr (by omega))
      exact ((count_ok _).mp hcot).2.2
  · -- the wire counter is converted, and if it has wrapped around, the last wire id
    rcases Nat.lt_or_eq_of_le hids with hlt | heq
    · rwa [Nat.mod_eq_of_lt hlt] at hwid
    · rcases Nat.eq_zero_or_pos gs.length with hzero | hpos
      · rwa [hzero]
      · have hlt : gs.length - 1 < gs.length := Nat.sub_one_lt_of_lt hpos
        have hlast := gateSlotsInts_of_path hpath _ (List.getElem_mem hlt)
        rw [gateSlotsInts, allOk_flatMap] at hlast
        have hid := hlast _ (List.mem_append_right _ (List.mem_singleton_self _))
        rw [exists_gate_of_lt hcan hlt, slotInts, allOk_cons, index_ok] at hid
        obtain ⟨⟨⟨-, hid⟩, -⟩, -⟩ := hid
        omega

end

/-- What a run is asked to do: a stored program, or a body over some input wires. -/
inductive RunRequest where
  /-- `run_program`. -/
  | program (p : BooleanProgram)
  /-- A body that is replayed live. -/
  | body (numInputs : ℕ) (b : Body (List ℕ))

namespace RunRequest

/-- The checks before a run: those of a stored program, whose inputs have the width it declares. -/
def check : RunRequest → Except String Unit
  | .program p => ag2pcRequireRecordCanonical p
  | .body _ _ => .ok ()

/-- The number of input wires. -/
def numInputs : RunRequest → ℕ
  | .program p => p.numInputs
  | .body n _ => n

/-- What drives the passes. -/
def source : RunRequest → Body (List ℕ)
  | .program p => executeProgram p
  | .body _ b => b

variable (q : RunRequest)

/-- The gates the passes see. -/
def gates : List Gate := q.source.stream q.numInputs

/-- The wires the source returns. -/
def outIds : List ℕ := q.source.outs q.numInputs

/-- `num_wires`. -/
def numWires : ℕ := q.numInputs + q.gates.length

/-- `num_ands`. -/
def numAnds : ℕ := countAnds q.gates

/-- The expressions of the run, if the checks let it start. -/
def ints (party : Party) (ssp : ℕ) (raw : ℕ → ℕ) : Except String (List IntUse) := do
  q.check
  return runSourceInts party ssp raw q.numInputs q.gates q.outIds

/-- The wire ids are `uint32_t`s and the AND count is an `int`; a body uses the wires it was given. -/
structure Admitted : Prop where
  ids : q.numWires ≤ 2 ^ 32
  ands : InRange q.numAnds
  wires : ∀ n b, q = .body n b → b.WellScoped n none none ∧ ∀ w ∈ q.outIds, w < q.numWires

/-- No expression of the run leaves the `int`s or its buffer, or the run does not start. -/
def IntsInOrder (party : Party) (ssp : ℕ) (raw : ℕ → ℕ) : Prop :=
  ∀ us, q.ints party ssp raw = .ok us → AllOk us

end RunRequest

section

variable {q : RunRequest}

/-- A request that passes the checks has a canonical stream, and returns wires of it. -/
theorem RunRequest.Admitted.stream (h : q.Admitted) (hcheck : q.check = .ok ()) :
    CanonicalStream q.numInputs q.gates ∧ ∀ w ∈ q.outIds, w < q.numInputs + q.gates.length := by
  cases q with
  | program p =>
    have hp := recordCanonical_of_check hcheck
    have hrec := record_executeProgram hp
    have hgates : (RunRequest.program p).gates = p.gates.map Gate.normalize := congrArg Prod.fst hrec
    have houts : (RunRequest.program p).outIds = p.outputs := congrArg Prod.snd hrec
    rw [hgates, houts, List.length_map]
    exact ⟨canonicalStream_normalize hp.stream, hp.outputs⟩
  | body n b =>
    obtain ⟨hscoped, houts⟩ := h.wires n b rfl
    exact ⟨Body.record_canonical b n none none hscoped, houts⟩

/-- **The `int`s of a run**: none of its expressions leaves the range or its buffer, exactly when the run is rejected
or three times the ANDs and the wires are `int`s. -/
theorem intsInOrder_iff (h : q.Admitted) (party : Party) {ssp : ℕ} (hssp : InRange ssp) (raw : ℕ → ℕ) :
    q.IntsInOrder party ssp raw ↔
      (∃ e, q.check = .error e) ∨ InRange (3 * q.numAnds) ∧ InRange q.numWires := by
  cases hcheck : q.check with
  | error e =>
    refine iff_of_true (fun us hus => ?_) (.inl ⟨e, rfl⟩)
    rw [RunRequest.ints, hcheck] at hus
    cases hus
  | ok u =>
    obtain ⟨hcan, houts⟩ := h.stream hcheck
    have hints : q.ints party ssp raw = .ok (runSourceInts party ssp raw q.numInputs q.gates q.outIds) := by
      rw [RunRequest.ints, hcheck]
      rfl
    rw [or_iff_right (by rintro ⟨e, he⟩; cases he)]
    constructor
    · intro hall
      exact inRange_of_runSourceInts hcan h.ids (hall _ hints)
    · rintro ⟨hands, hwires⟩ us hus
      rw [hints] at hus
      exact Except.ok.inj hus ▸ runSourceInts_ok hcan houts hssp hands hwires

end

/-- A body of `k` ANDs of an input with itself. -/
def squareBody : ℕ → Body (List ℕ)
  | 0 => .done [0]
  | k + 1 => .andGate 0 0 fun _ => squareBody k

theorem squareBody_record (k : ℕ) : ∀ {n : ℕ}, 0 < n → (squareBody k).WellScoped n none none ∧
    countAnds ((squareBody k).stream n) = k ∧ ((squareBody k).stream n).length = k ∧ (squareBody k).outs n = [0] := by
  induction k with
  | zero => exact fun _ => ⟨trivial, rfl, rfl, rfl⟩
  | succ k ih =>
    intro n hn
    obtain ⟨hscoped, hands, hlen, houts⟩ := ih (Nat.succ_pos n)
    refine ⟨⟨hn, hn, hscoped⟩, ?_, congrArg (· + 1) hlen, houts⟩
    change countAnds (_ :: (squareBody k).stream (n + 1)) = k + 1
    rw [countAnds, List.countP_cons_of_pos rfl]
    exact congrArg (· + 1) hands

/-- It is admitted as long as its ANDs are counted by an `int`. -/
theorem squareBody_admitted {k : ℕ} (hk : InRange k) : (RunRequest.body 1 (squareBody k)).Admitted := by
  obtain ⟨hscoped, hands, hlen, houts⟩ := squareBody_record k Nat.one_pos
  have hids : (RunRequest.body 1 (squareBody k)).numWires = 1 + k := congrArg (1 + ·) hlen
  refine ⟨?_, ?_, ?_⟩
  · have hlt := hk.2
    omega
  · change InRange (countAnds ((squareBody k).stream 1) : ℕ)
    rwa [hands]
  · rintro n b hq
    cases hq
    refine ⟨hscoped, fun w hw => ?_⟩
    obtain rfl := List.mem_singleton.mp (houts ▸ hw : w ∈ [0])
    omega

/-- One AND is in order. -/
theorem intsInOrder_one_and : (RunRequest.body 1 (squareBody 1)).IntsInOrder .alice 40 fun _ => 0 :=
  (intsInOrder_iff (squareBody_admitted (by decide)) .alice (by decide) _).mpr (.inr (by decide))

/-- Where the three regions of a layer are too many for an `int`, it is not in order. -/
theorem squareBody_overflow {k : ℕ} (hk : InRange k) (hlarge : ¬ InRange (3 * k)) (party : Party) (ssp : ℕ) (raw : ℕ → ℕ) :
    ¬ (RunRequest.body 1 (squareBody k)).IntsInOrder party ssp raw := by
  obtain ⟨hscoped, hands, hlen, -⟩ := squareBody_record k Nat.one_pos
  have hids : 1 + ((squareBody k).stream 1).length ≤ 2 ^ 32 := by
    have hlt := hk.2
    omega
  intro h
  have hfits := inRange_of_runSourceInts (Body.record_canonical _ 1 none none hscoped) hids (h _ rfl)
  exact hlarge (hands ▸ hfits.1)

/-- Of `2^30` ANDs, which an `int` counts, the three regions of a layer are not: `3 * L` overflows. -/
theorem not_intsInOrder_two_pow_ands : (RunRequest.body 1 (squareBody (2 ^ 30))).Admitted ∧
    ¬ (RunRequest.body 1 (squareBody (2 ^ 30))).IntsInOrder .alice 40 fun _ => 0 := by
  have hk : InRange (2 ^ 30 : ℕ) := by decide
  have hlarge : ¬ InRange (3 * (2 ^ 30 : ℕ)) := by decide
  exact ⟨squareBody_admitted hk, squareBody_overflow hk hlarge .alice 40 _⟩

end AG2PC
