import AG2PC.Backend.EqualityCheck

/-!
# A probe of the operand masks

A leaky AND is called leaky because its sender can test a guess of the receiver's share of the first operand: an error
on the ciphertext reaches the receiver's vector exactly when that bit is one, and the guess goes into the sender's own.
`F_eq` then accepts exactly when the guess is right. In a bucket of random candidates this is harmless as long as one of
them is not tested. `compute_inplace` has no random candidate in layer 0: its first operands are the wires' own masks.

* `Probe` — errors on the ciphertexts of any layers, each with a guess; everything else the peer does as it should.
* `probe_folded` — no error reaches the bits that are opened.
* `probe_accepted_iff` — the check passes exactly when every guess is right.
* `probe_acc` — right or wrong, the probed party's triples are those of a run without errors.
* `operandMask_probed` — together, with what the tested bits are: in layer 0 the party's shares of the masks of the
  gates' first operands.
-/

namespace AG2PC

open Library.XorAlgebra Library.ByIndex

/-- What a probing peer does in the layers: errors that keep bit 1 of the ciphertexts, a guess for each, and any bits in
the bucket steps. -/
structure Probe where
  /-- The errors on the ciphertexts of layer `m`. -/
  e : ℕ → ℕ → Block
  /-- The guesses. -/
  guess : ℕ → ℕ → Bool
  /-- The bits it opens in the bucket step of layer `m`. -/
  d : ℕ → ℕ → Bool
  lsb1 : ∀ m k, LSB1 (e m k) = false

/-- The same without errors. -/
def Probe.quiet (x : Probe) : Probe where
  e _ _ := zeroBlock
  guess := x.guess
  d := x.d
  lsb1 _ _ := by decide

section

variable {D : Type} (E : EmpTool D) {Δ : Deltas} (C : CotStream Δ) (L : ℕ)
variable (repA repB : Party → ℕ → AShareBundle) (t : Party → TriplePool)

/-- What the peer of `p` sends: it opens the bits of its own `Sout`. -/
def Probe.msgs (x : Probe) (p : Party) : ℕ → PeerLayer :=
  (⟨x.e, fun m => leakyOpened (layerOut E C L repA repB t p.peer m (layerSent E C L repA repB t p m)), x.d⟩ :
    Deviation).msgs E C L repA repB t p

/-- What `p` sends to it. -/
def Probe.answers (x : Probe) (p : Party) (m : ℕ) : PeerLayer where
  cts := layerSent E C L repA repB t p m
  s := leakyOpened (layerOut E C L repA repB t p m (x.msgs E C L repA repB t p m).cts)
  d _ := false

/-- What the peer enters `F_eq` with: the vectors it has computed, with each error added that it guesses to have
arrived. -/
def Probe.vector (x : Probe) (p : Party) (n : ℕ) : List Block :=
  (List.range (n + 1)).flatMap fun m => (List.range L).map fun k =>
    (layerVector E C L repA repB t p.peer (x.answers E C L repA repB t p) m).getD k zeroBlock ^^^
      scale (x.guess m k) (x.e m k)

/-- Layer 0 and `n` sacrifice layers at the probed party. -/
def Probe.layers (x : Probe) (p : Party) (r : ℕ → ℕ) (n : ℕ) : TripleHalf :=
  sideLayers E p (Δ.of p) (C.of p) L (repA p) (repB p) (t p) (x.msgs E C L repA repB t p) r n

end

section

variable {D : Type} {E : EmpTool D} {Δ : Deltas} {C : CotStream Δ} {L : ℕ} {repA repB : Party → ℕ → AShareBundle}
  {t : Party → TriplePool} {x : Probe} {p : Party}

/-- The probed party's `Sout`. -/
theorem probe_out (x : Probe) (p : Party) (m : ℕ) {k : ℕ} (hk : k < L) :
    (layerOut E C L repA repB t p m (x.msgs E C L repA repB t p m).cts).getD k zeroBlock =
      (layerOut E C L repA repB t p m (layerSent E C L repA repB t p.peer m)).getD k zeroBlock ^^^
        scale (LSB (layerShares C L repA repB t p m k).mac) (x.e m k) :=
  layerOut_errors E C repA repB t p m (x.e m) hk

/-- **No error reaches the bits that are opened**: the folded bit is the one an honest peer leads to. -/
theorem probe_folded (hA : ∀ i < L, MacRel Δ (repA .alice i) (repA .bob i))
    (hB : ∀ i < L, MacRel Δ (repB .alice i) (repB .bob i)) (hu : (t .alice).used = (t .bob).used) (x : Probe)
    (p : Party) (m : ℕ) {k : ℕ} (hk : k < L) :
    foldedBit E C L repA repB t p (x.msgs E C L repA repB t p) m k = trueBit C L repA repB t m k := by
  have hsum := congrArg LSB1 (layerOut_xor (E := E) (C := C) hA hB hu p m hk)
  have hΔ : LSB1 (Δ.of p ^^^ Δ.of p.peer) = true := by
    cases p <;> simp [Deltas.of, Party.peer]
  rw [LSB1_xor, LSB1_scale, hΔ, Bool.and_true] at hsum
  have hopened : leakyOpened (layerOut E C L repA repB t p m (x.msgs E C L repA repB t p m).cts) k =
      LSB1 ((layerOut E C L repA repB t p m (layerSent E C L repA repB t p.peer m)).getD k zeroBlock) := by
    rw [leakyOpened, probe_out x p m hk, LSB1_xor, LSB1_scale, x.lsb1, Bool.and_false, Bool.xor_false]
  rw [← hsum, foldedBit, hopened]
  rfl

/-- The two vectors, entry by entry. -/
theorem probe_entry (hA : ∀ i < L, MacRel Δ (repA .alice i) (repA .bob i))
    (hB : ∀ i < L, MacRel Δ (repB .alice i) (repB .bob i)) (hu : (t .alice).used = (t .bob).used) (x : Probe)
    (p : Party) (m : ℕ) {k : ℕ} (hk : k < L) :
    (layerVector E C L repA repB t p (x.msgs E C L repA repB t p) m).getD k zeroBlock =
      (layerVector E C L repA repB t p.peer (x.answers E C L repA repB t p) m).getD k zeroBlock ^^^
        scale (LSB (layerShares C L repA repB t p m k).mac) (x.e m k) := by
  have hfold := probe_folded (E := E) (C := C) hA hB hu x p m hk
  have hpeer : foldedBit E C L repA repB t p.peer (x.answers E C L repA repB t p) m k =
      trueBit C L repA repB t m k := by
    rw [← hfold, foldedBit, foldedBit]
    exact bne_comm
  have hsum := layerOut_xor (E := E) (C := C) hA hB hu p m hk
  rw [word_xor_eq_iff] at hsum
  have hout : (layerOut E C L repA repB t p.peer m (x.answers E C L repA repB t p m).cts).getD k zeroBlock =
      (layerOut E C L repA repB t p.peer m (layerSent E C L repA repB t p m)).getD k zeroBlock := rfl
  rw [layerVector, layerVector, getD_map_range _ _ hk, getD_map_range _ _ hk, hfold, hpeer, hout, probe_out x p m hk,
    hsum, scale_word_xor]
  simp only [BitVec.xor_assoc, BitVec.xor_comm, word_xor_left_comm, word_xor_cancel]

/-- **The check passes exactly when every guess is right.** -/
theorem probe_accepted_iff [DecidableEq D] (hhash : Function.Injective E.hash)
    (hA : ∀ i < L, MacRel Δ (repA .alice i) (repA .bob i)) (hB : ∀ i < L, MacRel Δ (repB .alice i) (repB .bob i))
    (hu : (t .alice).used = (t .bob).used) (x : Probe) (p : Party) (r : ℕ → ℕ) (n : ℕ) (nonce : Block)
    (failMsg : String) :
    feqSide E p (E.hash (x.layers E C L repA repB t p r n).feq)
        (E.commit (E.hash (x.vector E C L repA repB t p n)) nonce) (E.hash (x.vector E C L repA repB t p n)) nonce
        failMsg = .ok () ↔
      ∀ m ≤ n, ∀ k < L, x.e m k ≠ zeroBlock → LSB (layerShares C L repA repB t p m k).mac = x.guess m k := by
  have hok : ∀ Dme Dpeer : D, feqSide E p Dme (E.commit Dpeer nonce) Dpeer nonce failMsg = .ok () ↔ Dme = Dpeer := by
    intro Dme Dpeer
    cases p with
    | alice => exact feqCheck₁_ok_iff
    | bob => exact feqCheck₂_ok_iff.trans ((and_iff_left rfl).trans eq_comm)
  have hlen : ∀ m, (layerVector E C L repA repB t p (x.msgs E C L repA repB t p) m).length = L := fun m =>
    (List.length_map _).trans List.length_range
  rw [hok, hhash.eq_iff, Probe.layers, (sideLayers_at _ _).feq, Probe.vector, flatMap_range_inj hlen fun m => by simp]
  simp only [Nat.lt_succ_iff]
  refine forall₄_congr fun m _ k hk => ?_
  rw [getD_map_range _ _ hk, probe_entry hA hB hu x p m hk, BitVec.xor_right_inj]
  exact scale_eq_scale_iff _ _ _

/-! ### The probed party's triples -/

/-- The fold uses only the bits of the candidates. -/
theorem leakyFold_fst_congr (p : Party) (δ : Block) (s : Layer) (S S' : List Block) {d d' : ℕ → Bool}
    (h : ∀ k < L, d k = d' k) : (leakyFold p δ L s S d).1 = (leakyFold p δ L s S' d').1 := by
  funext i
  simp only [leakyFold, forRegion]
  split
  · rw [h (i - 2 * L) (by omega)]
  · rfl

/-- A leaky AND, as its layer comes out of it, on equal shares and folding equal bits. -/
theorem leakySide_snd_congr {δ : Block} {h h' : TripleHalf} {s s' : Layer} {msg msg' : PeerLayer} (hs : s = s')
    (hd : ∀ k < L, (leakyOpened (leakyOut E δ L h s msg.cts) k != msg.s k) =
      (leakyOpened (leakyOut E δ L h' s' msg'.cts) k != msg'.s k)) :
    (leakySide E p δ L h s msg.cts msg.s).2 = (leakySide E p δ L h' s' msg'.cts msg'.s).2 := by
  subst hs
  simp only [leakySide]
  exact leakyFold_fst_congr p δ s _ _ hd

/-- A sacrifice layer's accumulator depends on the state only through the accumulator and the layer's shares after the
leaky AND. -/
theorem sideLayer_acc_congr {δ : Block} {cot : ℕ → AShareBundle} {h h' : TripleHalf} {msg msg' : PeerLayer} {r : ℕ}
    (hacc : h.acc = h'.acc) (hd : msg.d = msg'.d)
    (hlayer : (leakySide E p δ L { h with pool := (h.pool.genCotShares cot (3 * L)).2 }
        (h.pool.genCotShares cot (3 * L)).1 msg.cts msg.s).2 =
      (leakySide E p δ L { h' with pool := (h'.pool.genCotShares cot (3 * L)).2 }
        (h'.pool.genCotShares cot (3 * L)).1 msg'.cts msg'.s).2) :
    (sideLayer E p δ cot L h msg r).acc = (sideLayer E p δ cot L h' msg' r).acc := by
  have hkept : ∀ (h₀ : TripleHalf) (s : Layer) (m : PeerLayer), (leakySide E p δ L h₀ s m.cts m.s).1.acc = h₀.acc :=
    fun _ _ _ => rfl
  simp only [sideLayer, bucketSide]
  rw [hlayer, hkept, hkept, hd]
  dsimp only
  rw [hacc]

/-- **A party's triples depend on what it receives only through the bits it folds** and those opened in the bucket
steps, by induction on the layers. -/
theorem sideLayers_acc_congr {msgs msgs' : ℕ → PeerLayer} (r : ℕ → ℕ) {n : ℕ}
    (hfold : ∀ m ≤ n, ∀ k < L, foldedBit E C L repA repB t p msgs m k = foldedBit E C L repA repB t p msgs' m k)
    (hd : ∀ m ≤ n, (msgs m).d = (msgs' m).d) :
    (sideLayers E p (Δ.of p) (C.of p) L (repA p) (repB p) (t p) msgs r n).acc =
      (sideLayers E p (Δ.of p) (C.of p) L (repA p) (repB p) (t p) msgs' r n).acc := by
  induction n with
  | zero => exact leakySide_snd_congr rfl (hfold 0 le_rfl)
  | succ n ih =>
    have hacc := ih (fun m hm => hfold m (hm.trans n.le_succ)) fun m hm => hd m (hm.trans n.le_succ)
    have hat : ∀ ms : ℕ → PeerLayer, SideAt E C L repA repB t p ms n
        (sideLayers E p (Δ.of p) (C.of p) L (repA p) (repB p) (t p) ms r n) := fun _ => sideLayers_at r n
    have hat' := hat msgs'
    replace hat := hat msgs
    rw [sideLayers, sideLayers, List.range_succ, List.foldl_append, List.foldl_append, List.foldl_cons, List.foldl_nil,
      List.foldl_cons, List.foldl_nil]
    change (sideLayer E p (Δ.of p) (C.of p) L
        (sideLayers E p (Δ.of p) (C.of p) L (repA p) (repB p) (t p) msgs r n) (msgs (n + 1)) (r n)).acc =
      (sideLayer E p (Δ.of p) (C.of p) L
        (sideLayers E p (Δ.of p) (C.of p) L (repA p) (repB p) (t p) msgs' r n) (msgs' (n + 1)) (r n)).acc
    generalize sideLayers E p (Δ.of p) (C.of p) L (repA p) (repB p) (t p) msgs r n = h at hacc hat ⊢
    generalize sideLayers E p (Δ.of p) (C.of p) L (repA p) (repB p) (t p) msgs' r n = h' at hacc hat' ⊢
    -- the two layers have the same shares and fold the same bits
    have hs : ∀ h₀ : TripleHalf, h₀.pool.used = (t p).used + L + 3 * L * n →
        (h₀.pool.genCotShares (C.of p) (3 * L)).1 = layerShares C L repA repB t p (n + 1) := by
      intro h₀ hused
      simp only [TriplePool.genCotShares, hused, layerShares]
    refine sideLayer_acc_congr hacc (hd (n + 1) le_rfl) (leakySide_snd_congr ?_ fun k hk => ?_)
    · rw [hs h hat.used, hs h' hat'.used]
    · rw [hs h hat.used, hs h' hat'.used]
      simp only [leakyOut, hat.emitc, hat'.emitc]
      exact hfold (n + 1) le_rfl k hk

/-- Without errors the bits folded are the same. -/
theorem probe_acc (hA : ∀ i < L, MacRel Δ (repA .alice i) (repA .bob i))
    (hB : ∀ i < L, MacRel Δ (repB .alice i) (repB .bob i)) (hu : (t .alice).used = (t .bob).used) (x : Probe)
    (p : Party) (r : ℕ → ℕ) (n : ℕ) :
    (x.layers E C L repA repB t p r n).acc = (x.quiet.layers E C L repA repB t p r n).acc :=
  sideLayers_acc_congr r
    (fun m _ _ hk => (probe_folded hA hB hu x p m hk).trans (probe_folded hA hB hu x.quiet p m hk).symm)
    fun _ _ => rfl

/-- **The operand masks can be probed.** Whatever errors a peer adds to the ciphertexts of the layers (keeping bit 1),
the check it enters with its guesses passes exactly when each guess is right, and the other party's triples are those of
a run without errors at the same shifts. In layer 0 the bits it tests are the other party's shares of the operand masks
themselves; in the others they are its shares of fresh candidates. -/
theorem operandMask_probed [DecidableEq D] (hhash : Function.Injective E.hash)
    (hA : ∀ i < L, MacRel Δ (repA .alice i) (repA .bob i)) (hB : ∀ i < L, MacRel Δ (repB .alice i) (repB .bob i))
    (hu : (t .alice).used = (t .bob).used) (x : Probe) (p : Party) (r : ℕ → ℕ) (n : ℕ) (nonce : Block)
    (failMsg : String) :
    (feqSide E p (E.hash (x.layers E C L repA repB t p r n).feq)
          (E.commit (E.hash (x.vector E C L repA repB t p n)) nonce) (E.hash (x.vector E C L repA repB t p n)) nonce
          failMsg = .ok () ↔
        (∀ k < L, x.e 0 k ≠ zeroBlock → LSB (repA p k).mac = x.guess 0 k) ∧
          ∀ m < n, ∀ k < L, x.e (m + 1) k ≠ zeroBlock →
            LSB (C.of p ((t p).used + L + 3 * L * m + k)).mac = x.guess (m + 1) k) ∧
      (x.layers E C L repA repB t p r n).acc = (x.quiet.layers E C L repA repB t p r n).acc := by
  refine ⟨(probe_accepted_iff hhash hA hB hu x p r n nonce failMsg).trans ?_, probe_acc hA hB hu x p r n⟩
  have hzero : ∀ k < L, layerShares C L repA repB t p 0 k = repA p k := fun k hk => by
    simp only [layerShares, layerZero, if_pos hk]
  constructor
  · intro h
    refine ⟨fun k hk he => ?_, fun m hm k hk he => h (m + 1) hm k hk he⟩
    rw [← h 0 (Nat.zero_le n) k hk he, hzero k hk]
  · rintro ⟨hfirst, hrest⟩ m hm k hk he
    cases m with
    | zero =>
      rw [hzero k hk]
      exact hfirst k hk he
    | succ m => exact hrest m hm k hk he

end

/-! ### One probed bit -/

/-- The evaluator flips bit 7 of the ciphertext of candidate 0 in layer 0, and guesses that it does not arrive. -/
def probeZero : Probe where
  e m k := if m = 0 ∧ k = 0 then 128#128 else zeroBlock
  guess _ _ := false
  d _ _ := false
  lsb1 m k := by split <;> decide

/-- The garbler's share of the operand mask is zero, so it passes. -/
theorem operandMask_probed_zero :
    feqSide .transparent .alice
        (EmpTool.transparent.hash (probeZero.layers .transparent (CotStream.zeros (.init 0 0)) 1 (fun _ _ => .zero)
          (fun _ _ => .zero) (fun _ => {}) .alice (fun _ => 0) 1).feq)
        (EmpTool.transparent.commit (EmpTool.transparent.hash (probeZero.vector .transparent
          (CotStream.zeros (.init 0 0)) 1 (fun _ _ => .zero) (fun _ _ => .zero) (fun _ => {}) .alice 1)) zeroBlock)
        (EmpTool.transparent.hash (probeZero.vector .transparent (CotStream.zeros (.init 0 0)) 1 (fun _ _ => .zero)
          (fun _ _ => .zero) (fun _ => {}) .alice 1)) zeroBlock "" = .ok () := by
  refine (operandMask_probed (E := .transparent) (fun _ _ h => h) (fun _ _ => .zero) (fun _ _ => .zero) rfl probeZero
    .alice (fun _ => 0) 1 zeroBlock "").1.mpr ⟨fun k hk _ => ?_, fun m hm k hk he => ?_⟩
  · rfl
  · exact absurd rfl he

end AG2PC
