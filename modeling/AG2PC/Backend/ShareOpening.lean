import AG2PC.Backend.Reveal

/-!
# Authenticated opening of share bits

In `process_inputs`, and in `decode` to one recipient, a party opens its share bits with the digest of
the matching MACs. The receiver computes the MACs it expects from the bits, its keys and its `Δ`, and
compares digests. The peer may send any bits and the digest of any vector `V` of blocks.

* `hash_expMacs_iff` — the digest is accepted exactly when `V` has the true MAC at every wire whose bit
  is right, and the true MAC plus `Δ` at every wire whose bit is flipped.
* `shareOpening_authentic` — so it is at both call sites, and a peer that does not hit `Δ` opens the
  true masks and outputs.
-/

namespace AG2PC

open Library.XorAlgebra Library.ByIndex

/-- The shares `peer` under the keys of `own` and the receiver's `Δ`. -/
structure SharesUnder (δ : Block) (own peer : List AShareBundle) (n : ℕ) : Prop where
  own_length : own.length = n
  peer_length : peer.length = n
  mac : ∀ i < n, (peer.getD i .zero).mac =
    (own.getD i .zero).key ^^^ scale (LSB (peer.getD i .zero).mac) δ

/-- `V` holds the true MAC where the bit sent is the true one, and the true MAC plus `Δ` where it is
flipped. -/
def MacsMatch (δ : Block) (peer : List AShareBundle) (bits : List Bool) (V : List Block) (n : ℕ) : Prop :=
  ∀ i < n, (bits.getD i false = LSB (peer.getD i .zero).mac → V.getD i zeroBlock = (peer.getD i .zero).mac) ∧
    (bits.getD i false ≠ LSB (peer.getD i .zero).mac →
      V.getD i zeroBlock = (peer.getD i .zero).mac ^^^ δ)

/-- No entry of `V` is off the true MAC by exactly `Δ`. -/
def MissesDelta (δ : Block) (peer : List AShareBundle) (V : List Block) (n : ℕ) : Prop :=
  ∀ i < n, V.getD i zeroBlock ^^^ (peer.getD i .zero).mac ≠ δ

/-- `decode(wires, party)` at that party, on the peer's message. -/
def decodeAt {D : Type} [DecidableEq D] (E : EmpTool D) (party : Party) (Δ : Block) (w : SecureWires)
    (m : OpenMsg D) : Except String (List UInt8) := do
  w.check party "decode"
  decodeReceive E Δ w m

/-- The mask bits the two parties share, as bytes. -/
def maskBytes (own peer : List AShareBundle) (n : ℕ) : List UInt8 :=
  (List.range n).map fun i => byteOf (shareBit (own.getD i .zero) (peer.getD i .zero))

/-- The opened masks `process_inputs` should give: the shared mask bits, the party's own input bits, and
the bits the peer claims for its wires. -/
def InputSide.trueMask (s : InputSide) (peer : List AShareBundle) (x : List UInt8) (n : ℕ) : List UInt8 :=
  List.zipWith (· ^^^ ·)
    (List.zipWith (· ^^^ ·) (maskBytes s.bundle peer n) (ownXBits s.party s.owners s.bits))
    (peerXBits s.party (ownerOfWire s.owners s.bits) x)

/-- The bits `decode` should return: `Λ ⊕ λ`, from the `Λ` the recipient holds. -/
def trueBits (w : SecureWires) (peer : List AShareBundle) (n : ℕ) : List UInt8 :=
  (List.range n).map fun i => byteOf (lowBit (w.lambdaAt i) ^^ shareBit (w.bundleAt i) (peer.getD i .zero))

section

variable {D : Type} {E : EmpTool D} {δ : Block} {own peer : List AShareBundle} {bits : List Bool}
  {V : List Block} {n : ℕ}

/-- The MACs expected for share bits. -/
theorem expMacs_bits (hown : own.length = n) (hbits : bits.length = n) :
    expMacs E δ own (bits.map byteOf) =
      (List.range n).map fun i => (own.getD i .zero).key ^^^ scale (bits.getD i false) δ := by
  rw [expMacs, List.zipWith_map_right, zipWith_eq_range _ .zero false hown hbits]
  simp only [selectMaskAt_byteOf, selectMask_and]

/-- At one wire: what the receiver expects is the true MAC, or off by `Δ`. -/
theorem SharesUnder.expected (h : SharesUnder δ own peer n) (b : Bool) {i : ℕ} (hi : i < n) :
    (own.getD i .zero).key ^^^ scale b δ =
      if b = LSB (peer.getD i .zero).mac then (peer.getD i .zero).mac else (peer.getD i .zero).mac ^^^ δ := by
  have hmac := h.mac i hi
  split_ifs with hb
  · rw [hb]
    exact hmac.symm
  · have hnot : b = !LSB (peer.getD i .zero).mac := Bool.eq_not.mpr hb
    rw [hnot]
    conv_rhs => rw [hmac]
    cases LSB (peer.getD i .zero).mac
    · simp
    · rw [Bool.not_true, scale_false, scale_true, BitVec.xor_assoc, BitVec.xor_self]

/-- **What the digest check binds**, with an injective hash: the whole vector, wire by wire. -/
theorem hash_expMacs_iff (hinj : Function.Injective E.hash) (h : SharesUnder δ own peer n)
    (hbits : bits.length = n) (hV : V.length = n) :
    E.hash (expMacs E δ own (bits.map byteOf)) = E.hash V ↔ MacsMatch δ peer bits V n := by
  have hVrange : V = (List.range n).map fun i => V.getD i zeroBlock := by
    have := map_eq_range id zeroBlock hV
    rwa [List.map_id] at this
  rw [hinj.eq_iff, expMacs_bits h.own_length hbits]
  conv_lhs => rw [hVrange]
  rw [map_range_inj]
  refine forall₂_congr fun i hi => ?_
  rw [h.expected _ hi]
  split_ifs with hb
  · exact ⟨fun heq => ⟨fun _ => heq.symm, fun hne => absurd hb hne⟩, fun hw => (hw.1 hb).symm⟩
  · exact ⟨fun heq => ⟨fun he => absurd he hb, fun _ => heq.symm⟩, fun hw => (hw.2 hb).symm⟩

/-- A vector that matches and misses `Δ` goes with the true bits. -/
theorem MacsMatch.bits_eq (h : MacsMatch δ peer bits V n) (hmiss : MissesDelta δ peer V n)
    (hpeer : peer.length = n) (hbits : bits.length = n) : bits.map byteOf = shareMsg peer := by
  rw [shareMsg, map_eq_range byteOf false hbits, map_eq_range _ .zero hpeer, map_range_inj]
  intro i hi
  by_contra hne
  refine hmiss i hi ?_
  rw [(h i hi).2 fun heq => hne (congrArg byteOf heq), BitVec.xor_comm, ← BitVec.xor_assoc, BitVec.xor_self,
    BitVec.zero_xor]

/-- The masks opened with the true bits. -/
theorem openedMask_true {s : InputSide} {m : InputMsg D} (hown : s.bundle.length = n)
    (hpeer : peer.length = n) (hm : m.share = shareMsg peer) :
    s.openedMask m = s.trueMask peer m.x n := by
  have hmask : List.zipWith (· ^^^ ·) (shareMsg s.bundle) (shareMsg peer) = maskBytes s.bundle peer n := by
    rw [shareMsg, shareMsg, List.zipWith_map, zipWith_eq_range _ .zero .zero hown hpeer]
    refine List.map_congr_left fun i _ => ?_
    rw [shareBit, byteOf_xor]
  rw [InputSide.openedMask, InputSide.trueMask, hm, hmask]

variable [DecidableEq D]

/-- A party of `process_inputs` goes on exactly when the digests are equal, and then with the masks it
opens. -/
theorem receive_ok_iff {s : InputSide} {m : InputMsg D} {Lambda : List UInt8} :
    s.receive E m = .ok Lambda ↔
      E.hash (expMacs E s.Δ s.bundle m.share) = m.digest ∧ Lambda = s.openedMask m := by
  unfold InputSide.receive
  split_ifs with h
  · simp [h]
  · simp [not_not.mp h, eq_comm]

/-- So does the recipient of `decode`, on a bundle that passes the length check. -/
theorem decodeAt_ok_iff {p : Party} {w : SecureWires} {m : OpenMsg D} {v : List UInt8}
    (hw : w.WellFormed p n) :
    decodeAt E p δ w m = .ok v ↔ E.hash (expMacs E δ w.wireBundle m.share) = m.digest ∧
      v = (List.zipWith (· ^^^ ·) (List.zipWith (· ^^^ ·) (shareMsg w.wireBundle) w.Lambda) m.share).map
        (· &&& 1) := by
  have hrun : decodeAt E p δ w m = decodeReceive E δ w m := by
    rw [decodeAt, SecureWires.check_eq_ok hw]
    rfl
  rw [hrun]
  exact decodeReceive_ok_iff E

/-- **Authenticated share opening**: both call sites accept exactly the matching vectors, and a peer
whose vector misses `Δ` opens the true masks of `process_inputs`, up to the input bits it claims, and the
true bits of `decode`. -/
theorem shareOpening_authentic (hinj : Function.Injective E.hash) (Δ : Deltas) (p : Party)
    (h : SharesUnder (Δ.of p) own peer n) (hbits : bits.length = n) (hV : V.length = n) :
    (∀ (s : InputSide) (x : List UInt8), s.party = p → s.Δ = Δ.of p → s.bundle = own →
      ((∃ Lambda, s.receive E ⟨bits.map byteOf, E.hash V, x⟩ = .ok Lambda) ↔
          MacsMatch (Δ.of p) peer bits V n) ∧
        (MissesDelta (Δ.of p) peer V n → ∀ Lambda,
          s.receive E ⟨bits.map byteOf, E.hash V, x⟩ = .ok Lambda → Lambda = s.trueMask peer x n)) ∧
      ∀ w : SecureWires, w.WellFormed p n → w.wireBundle = own →
        ((∃ v, decodeAt E p (Δ.of p) w ⟨bits.map byteOf, E.hash V⟩ = .ok v) ↔
            MacsMatch (Δ.of p) peer bits V n) ∧
          (MissesDelta (Δ.of p) peer V n → ∀ v,
            decodeAt E p (Δ.of p) w ⟨bits.map byteOf, E.hash V⟩ = .ok v → v = trueBits w peer n) := by
  have hcheck := hash_expMacs_iff hinj h hbits hV
  constructor
  · rintro s x - hΔ rfl
    simp only [receive_ok_iff, hΔ, exists_and_left, exists_eq, and_true]
    refine ⟨hcheck, ?_⟩
    rintro hmiss Lambda ⟨hdigest, rfl⟩
    exact openedMask_true h.own_length h.peer_length
      ((hcheck.mp hdigest).bits_eq hmiss h.peer_length hbits)
  · rintro w hw rfl
    simp only [decodeAt_ok_iff hw, exists_and_left, exists_eq, and_true]
    refine ⟨hcheck, ?_⟩
    rintro hmiss v ⟨hdigest, rfl⟩
    have hshare := (hcheck.mp hdigest).bits_eq hmiss h.peer_length hbits
    have hlen : (shareMsg peer).length = n := (List.length_map _).trans h.peer_length
    rw [hshare, openedBytes_eq hw.size hw.bundle hlen, trueBits, map_range_inj]
    intro i hi
    have hbit : (shareMsg peer).getD i 0 = byteOf (LSB (peer.getD i .zero).mac) :=
      getD_map_of_lt _ _ _ (h.peer_length ▸ hi)
    rw [hbit, lowBit_byteOf, shareBit]
    cases LSB (w.bundleAt i).mac <;> cases lowBit (w.lambdaAt i) <;> cases LSB (peer.getD i .zero).mac <;> rfl

end

/-- One wire of zero shares: the garbler accepts the flipped bit under the digest of its own `Δ`, and for
the true bit decodes the true bit. -/
theorem shareOpening_authentic_zeroWire :
    (∃ Lambda, InputSide.receive .transparent ⟨.alice, (Deltas.init 0 0).d1, [.ALICE], [[1]], [.zero], []⟩
        ⟨[1], [(Deltas.init 0 0).d1], []⟩ = .ok Lambda) ∧
      ∀ v, decodeAt .transparent .alice (Deltas.init 0 0).d1 (zeroWire .alice) ⟨[0], [zeroBlock]⟩ = .ok v →
        v = [0] := by
  have hshares : SharesUnder ((Deltas.init 0 0).of .alice) [.zero] [.zero] 1 :=
    ⟨rfl, rfl, fun i hi => by obtain rfl : i = 0 := by omega
                              decide⟩
  have hflip := (shareOpening_authentic (E := .transparent) (V := [(Deltas.init 0 0).d1])
    (fun _ _ heq => heq) (.init 0 0) .alice hshares (show [true].length = 1 from rfl) rfl).1
    ⟨.alice, (Deltas.init 0 0).d1, [.ALICE], [[1]], [.zero], []⟩ [] rfl rfl rfl
  have htrue := (shareOpening_authentic (E := .transparent) (V := [zeroBlock])
    (fun _ _ heq => heq) (.init 0 0) .alice hshares (show [false].length = 1 from rfl) rfl).2
    (zeroWire .alice) ⟨rfl, rfl, rfl⟩ rfl
  constructor
  · refine hflip.1.mpr fun i hi => ?_
    obtain rfl : i = 0 := by omega
    decide
  · refine htrue.2 fun i hi => ?_
    obtain rfl : i = 0 := by omega
    decide

end AG2PC
