import AG2PC.Backend.Protocol
import AG2PC.Backend.Encoding

/-!
# What a decode returns

`decode` opens a bundle to one party by an authenticated opening, and to both by an authenticated
opening to the evaluator followed by a message in which the evaluator tells the garbler the result.

* `decodeReceive_ok` — an honest opening is accepted and gives `Λ ⊕ λ` of every wire.
* `decode_ok` — so two honest parties obtain the carried bits, whoever the recipient.
* `decodePublic_authentic_iff` — against a deviating peer the evaluator's result is authentic as
  long as the bytes that index `select_mask` stay in it; the garbler's, on any wires at all, is not.
-/

namespace AG2PC

open Library.XorAlgebra Library.ByIndex

/-- The bytes a decode should return: the carried bit of every wire. -/
def carriedBytes (w₁ w₂ : SecureWires) (n : ℕ) : List UInt8 :=
  (List.range n).map fun i => byteOf (carriedBit w₁ w₂ i)

section

variable {D : Type} (E : EmpTool D) {Δ : Deltas} {w₁ w₂ : SecureWires} {n : ℕ}

/-- The share bits a party sends, by index. -/
theorem shareMsg_eq {w : SecureWires} (h : w.wireBundle.length = n) :
    shareMsg w.wireBundle = (List.range n).map fun i => byteOf (LSB (w.bundleAt i).mac) :=
  map_eq_range _ _ h

/-- The expected MACs, by index. -/
theorem expMacs_eq {w : SecureWires} {δ : Block} {share : List UInt8} (h : w.wireBundle.length = n)
    (hs : share.length = n) :
    expMacs E δ w.wireBundle share =
      (List.range n).map fun i => (w.bundleAt i).key ^^^ (selectMaskAt E (share.getD i 0) &&& δ) :=
  zipWith_eq_range _ _ _ h hs

/-- The reconstructed bytes, by index. -/
theorem openedBytes_eq {w : SecureWires} {share : List UInt8} (hw : w.size = n)
    (h : w.wireBundle.length = n) (hs : share.length = n) :
    (List.zipWith (· ^^^ ·) (List.zipWith (· ^^^ ·) (shareMsg w.wireBundle) w.Lambda) share).map
        (· &&& 1) =
      (List.range n).map fun i =>
        byteOf (LSB (w.bundleAt i).mac ^^ lowBit (w.lambdaAt i) ^^ lowBit (share.getD i 0)) := by
  rw [shareMsg_eq h, zipWith_eq_range _ 0 0 (by simp) hw, zipWith_eq_range _ 0 0 (by simp) hs,
    List.map_map]
  refine List.map_congr_left fun i hi => ?_
  have hi' := List.mem_range.mp hi
  simp only [Function.comp_apply, and_one_eq, getD_map_range _ _ hi', lowBit_xor, lowBit_byteOf]
  rfl

/-! ### Honest openings -/

/-- The sender's shares, under the receiver's keys and `Δ`. -/
def SentUnder (δ : Block) (recv sent : SecureWires) (n : ℕ) : Prop :=
  ∀ i < n, (sent.bundleAt i).mac = (recv.bundleAt i).key ^^^ scale (LSB (sent.bundleAt i).mac) δ

/-- The bits the receiver should obtain. -/
def openedBytes (recv sent : SecureWires) (n : ℕ) : List UInt8 :=
  (List.range n).map fun i =>
    byteOf (LSB (recv.bundleAt i).mac ^^ lowBit (recv.lambdaAt i) ^^ LSB (sent.bundleAt i).mac)

theorem SharesAgree.sentTo₂ (h : SharesAgree Δ w₁ w₂ n) : SentUnder Δ.d2 w₂ w₁ n :=
  fun i hi => (h.rel i hi).mac₁

theorem SharesAgree.sentTo₁ (h : SharesAgree Δ w₁ w₂ n) : SentUnder Δ.d1 w₁ w₂ n :=
  fun i hi => (h.rel i hi).mac₂

/-- The evaluator obtains the carried bits. -/
theorem SharesAgree.openedBytes₂ (_ : SharesAgree Δ w₁ w₂ n) :
    openedBytes w₂ w₁ n = carriedBytes w₁ w₂ n := by
  refine List.map_congr_left fun i _ => congrArg byteOf ?_
  simp only [carriedBit, shareBit]
  cases LSB (w₂.bundleAt i).mac <;> cases lowBit (w₂.lambdaAt i) <;> cases LSB (w₁.bundleAt i).mac <;> rfl

/-- The garbler obtains them from its own opened masks. -/
theorem SharesAgree.openedBytes₁ (h : SharesAgree Δ w₁ w₂ n) :
    openedBytes w₁ w₂ n = carriedBytes w₁ w₂ n := by
  refine List.map_congr_left fun i hi => congrArg byteOf ?_
  simp only [carriedBit, shareBit, h.lambda i (List.mem_range.mp hi)]
  cases LSB (w₂.bundleAt i).mac <;> cases lowBit (w₂.lambdaAt i) <;> cases LSB (w₁.bundleAt i).mac <;> rfl

variable {recv sent : SecureWires} {δ : Block}

section

/-- For honest share bits the receiver expects the sender's MACs. -/
theorem expMacs_shareMsg (hr : recv.wireBundle.length = n) (hs : sent.wireBundle.length = n)
    (h : SentUnder δ recv sent n) :
    expMacs E δ recv.wireBundle (shareMsg sent.wireBundle) = sent.wireBundle.map AShareBundle.mac := by
  have hlen : (shareMsg sent.wireBundle).length = n := by simp [shareMsg, hs]
  rw [expMacs_eq E hr hlen, map_eq_range AShareBundle.mac .zero hs, map_range_inj]
  intro i hi
  rw [shareMsg_eq hs, getD_map_range _ _ hi, selectMaskAt_byteOf, selectMask_and]
  exact (h i hi).symm

variable [DecidableEq D]

/-- An honest opening is accepted. -/
theorem decodeReceive_ok (hsize : recv.size = n) (hr : recv.wireBundle.length = n)
    (hs : sent.wireBundle.length = n) (h : SentUnder δ recv sent n) :
    decodeReceive E δ recv (decodeSend E sent) = .ok (openedBytes recv sent n) := by
  have hlen : (shareMsg sent.wireBundle).length = n := by simp [shareMsg, hs]
  have hbit : ∀ i < n, (shareMsg sent.wireBundle).getD i 0 = byteOf (LSB (sent.bundleAt i).mac) := by
    intro i hi
    rw [shareMsg_eq hs, getD_map_range _ _ hi]
  have hmacs := expMacs_shareMsg E hr hs h
  unfold decodeReceive decodeSend
  rw [if_neg (by rw [hmacs]; simp), openedBytes_eq hsize hr hlen]
  refine congrArg Except.ok (List.map_congr_left fun i hi => ?_)
  rw [hbit i (List.mem_range.mp hi), lowBit_byteOf]

/-- What a recipient returns and the other party does not. -/
def decodeResult (recipient : Owner) (bits : List UInt8) : List UInt8 × List UInt8 :=
  match recipient with
  | .PUBLIC => (bits, bits)
  | .ALICE => (bits, [])
  | .BOB => ([], bits)
  | .other _ => ([], [])

/-- **Decoding between honest parties**: nobody aborts, and each recipient obtains the carried
bits. -/
theorem decode_ok (h : SharesAgree Δ w₁ w₂ n) (recipient : Owner) :
    decode E Δ w₁ w₂ recipient = .ok (decodeResult recipient (carriedBytes w₁ w₂ n)) := by
  have hto₂ := decodeReceive_ok E h.wf₂.size h.wf₂.bundle h.wf₁.bundle h.sentTo₂
  have hto₁ := decodeReceive_ok E h.wf₁.size h.wf₁.bundle h.wf₂.bundle h.sentTo₁
  rw [h.openedBytes₂] at hto₂
  rw [h.openedBytes₁] at hto₁
  have hpub : decodePublic (carriedBytes w₁ w₂ n) = carriedBytes w₁ w₂ n := by
    unfold decodePublic carriedBytes
    rw [List.map_map]
    refine List.map_congr_left fun i _ => ?_
    rw [Function.comp_apply, and_one_eq, lowBit_byteOf]
  unfold decode
  rw [SecureWires.check_eq_ok h.wf₁, SecureWires.check_eq_ok h.wf₂]
  cases recipient with
  | PUBLIC =>
    simp only [decodePublic₂, decodePublic₁, SecureWires.check_eq_ok h.wf₁, SecureWires.check_eq_ok h.wf₂,
      bind, Except.bind, hto₂]
    change Except.ok (decodePublic _, _) = _
    rw [hpub]
    rfl
  | ALICE =>
    simp only [bind, Except.bind, hto₁]
    rfl
  | BOB =>
    simp only [bind, Except.bind, hto₂]
    rfl
  | other k => rfl

end

/-! ### A deviating peer -/

/-- The receiver's result is right, or the digest it accepted is that of MACs one of which is off
by exactly the receiver's `Δ`. -/
def OpenAuthentic [DecidableEq D] (δ : Block) (recv sent : SecureWires) (n : ℕ) (m : OpenMsg D) : Prop :=
  ∀ v, decodeReceive E δ recv m = .ok v → v = openedBytes recv sent n ∨
    ∃ V, m.digest = E.hash V ∧ ∃ i < n, V.getD i zeroBlock = (sent.bundleAt i).mac ^^^ δ

/-- What a share byte selects from `select_mask` is, on the bits of `Δ`, the entry of its low bit. -/
def SelectsLowBit (δ : Block) (c : UInt8) : Prop := selectMaskAt E c &&& δ = scale (lowBit c) δ

theorem selectsLowBit_byteOf (b : Bool) : SelectsLowBit E δ (byteOf b) := by
  rw [SelectsLowBit, selectMaskAt_byteOf, selectMask_and, lowBit_byteOf]

/-- The table has two entries; past them it is the memory that counts. -/
theorem selectsLowBit_iff (c : UInt8) :
    SelectsLowBit E δ c ↔ (c ≠ 0 → c ≠ 1 → E.beyond c &&& δ = scale (lowBit c) δ) := by
  by_cases h0 : c = 0
  · subst h0
    exact ⟨fun _ hc => absurd rfl hc, fun _ => selectsLowBit_byteOf E false⟩
  by_cases h1 : c = 1
  · subst h1
    exact ⟨fun _ _ hc => absurd rfl hc, fun _ => selectsLowBit_byteOf E true⟩
  rw [SelectsLowBit, selectMaskAt, if_neg h0, if_neg h1]
  exact ⟨fun h _ _ => h, fun h => h h0 h1⟩

/-- The MAC the receiver expects under the byte `c`, when its low bit is wrong: the true MAC plus `Δ`
exactly when the byte selects as its low bit does. -/
theorem expected_shift_iff (h : SentUnder δ recv sent n) {i : ℕ} (hi : i < n) {c : UInt8}
    (hc : lowBit c ≠ LSB (sent.bundleAt i).mac) :
    (recv.bundleAt i).key ^^^ (selectMaskAt E c &&& δ) = (sent.bundleAt i).mac ^^^ δ ↔ SelectsLowBit E δ c := by
  have hnot : lowBit c = !LSB (sent.bundleAt i).mac := Bool.eq_not.mpr hc
  have hshift : (sent.bundleAt i).mac ^^^ δ = (recv.bundleAt i).key ^^^ scale (lowBit c) δ := by
    rw [hnot]
    conv_lhs => rw [h i hi]
    cases LSB (sent.bundleAt i).mac
    · rw [scale_false, BitVec.xor_zero, Bool.not_false, scale_true]
    · rw [scale_true, BitVec.xor_assoc, BitVec.xor_self, Bool.not_true, scale_false]
  rw [hshift, BitVec.xor_right_inj, SelectsLowBit]

/-- A byte that is the true bit makes the receiver expect the true MAC. -/
theorem expected_true (h : SentUnder δ recv sent n) {i : ℕ} (hi : i < n) :
    (recv.bundleAt i).key ^^^ (selectMaskAt E (byteOf (LSB (sent.bundleAt i).mac)) &&& δ) =
      (sent.bundleAt i).mac := by
  rw [selectMaskAt_byteOf, selectMask_and]
  exact (h i hi).symm

section

variable [DecidableEq D]

/-- What the receiver accepts. -/
theorem decodeReceive_ok_iff {m : OpenMsg D} {v : List UInt8} :
    decodeReceive E δ recv m = .ok v ↔ E.hash (expMacs E δ recv.wireBundle m.share) = m.digest ∧
      v = (List.zipWith (· ^^^ ·) (List.zipWith (· ^^^ ·) (shareMsg recv.wireBundle) recv.Lambda) m.share).map
        (· &&& 1) := by
  unfold decodeReceive
  split_ifs with hd
  · refine iff_of_false (fun herr => ?_) fun hok => hd hok.1
    cases herr
  · exact ⟨fun hok => ⟨not_not.mp hd, (Except.ok.inj hok).symm⟩, fun hok => congrArg Except.ok hok.2.symm⟩

/-- By index. -/
theorem decodeReceive_ok_iff_range (hsize : recv.size = n) (hr : recv.wireBundle.length = n) {m : OpenMsg D}
    (hm : m.share.length = n) {v : List UInt8} :
    decodeReceive E δ recv m = .ok v ↔
      E.hash ((List.range n).map fun i =>
        (recv.bundleAt i).key ^^^ (selectMaskAt E (m.share.getD i 0) &&& δ)) = m.digest ∧
      v = (List.range n).map fun i =>
        byteOf (LSB (recv.bundleAt i).mac ^^ lowBit (recv.lambdaAt i) ^^ lowBit (m.share.getD i 0)) := by
  rw [decodeReceive_ok_iff, expMacs_eq E hr hm, openedBytes_eq hsize hr hm]

/-- The result is right exactly when every low bit is. -/
theorem opened_eq_iff {share : List UInt8} :
    ((List.range n).map fun i =>
        byteOf (LSB (recv.bundleAt i).mac ^^ lowBit (recv.lambdaAt i) ^^ lowBit (share.getD i 0))) =
      openedBytes recv sent n ↔ ∀ i < n, lowBit (share.getD i 0) = LSB (sent.bundleAt i).mac := by
  rw [openedBytes, map_range_inj]
  refine forall₂_congr fun i _ => ⟨fun heq => Bool.xor_right_inj.mp (byteOf_inj heq), fun heq => ?_⟩
  rw [heq]

/-- **An opening in which every wrong byte selects as its low bit does** is authentic. -/
theorem openAuthentic_of_selects (hsize : recv.size = n) (hr : recv.wireBundle.length = n)
    (h : SentUnder δ recv sent n) {m : OpenMsg D} (hm : m.share.length = n)
    (hsel : ∀ i < n, lowBit (m.share.getD i 0) ≠ LSB (sent.bundleAt i).mac → SelectsLowBit E δ (m.share.getD i 0)) :
    OpenAuthentic E δ recv sent n m := by
  intro v hv
  obtain ⟨hdigest, hvalue⟩ := (decodeReceive_ok_iff_range E hsize hr hm).mp hv
  by_cases hall : ∀ i < n, lowBit (m.share.getD i 0) = LSB (sent.bundleAt i).mac
  · exact .inl (hvalue.trans (opened_eq_iff.mpr hall))
  · push Not at hall
    obtain ⟨i, hi, hwrong⟩ := hall
    refine .inr ⟨_, hdigest.symm, i, hi, ?_⟩
    rw [getD_map_range _ _ hi]
    exact (expected_shift_iff E h hi hwrong).mpr (hsel i hi hwrong)

/-- **Openings with any bytes and any digest** are all authentic exactly when every byte with a wrong low bit
selects as its low bit does. -/
theorem openAuthentic_forall_iff (hinj : Function.Injective E.hash) (hδ : δ ≠ 0#128) (hsize : recv.size = n)
    (hr : recv.wireBundle.length = n) (h : SentUnder δ recv sent n) :
    (∀ m : OpenMsg D, m.share.length = n → OpenAuthentic E δ recv sent n m) ↔
      ∀ i < n, ∀ c : UInt8, lowBit c ≠ LSB (sent.bundleAt i).mac → SelectsLowBit E δ c := by
  refine ⟨fun hall i hi c hc => ?_, fun hsel m hm => ?_⟩
  · -- the byte `c` at wire `i` and the true bits elsewhere, under the digest that is expected
    let share : List UInt8 := (List.range n).map fun j => if j = i then c else byteOf (LSB (sent.bundleAt j).mac)
    have hshare : ∀ j < n, share.getD j 0 = if j = i then c else byteOf (LSB (sent.bundleAt j).mac) :=
      fun j hj => getD_map_range _ _ hj
    let macs : List Block := (List.range n).map fun j =>
      (recv.bundleAt j).key ^^^ (selectMaskAt E (share.getD j 0) &&& δ)
    let m : OpenMsg D := ⟨share, E.hash macs⟩
    have hm : m.share.length = n := by simp [m, share]
    obtain hv | ⟨V, hV, j, hj, hshift⟩ := hall m hm _ ((decodeReceive_ok_iff_range E hsize hr hm).mpr ⟨rfl, rfl⟩)
    · have hright : lowBit (share.getD i 0) = LSB (sent.bundleAt i).mac := opened_eq_iff.mp hv i hi
      rw [hshare i hi, if_pos rfl] at hright
      exact absurd hright hc
    · have hV' : macs = V := hinj hV
      rw [← hV', getD_map_range _ _ hj, hshare j hj] at hshift
      split_ifs at hshift with hji
      · subst hji
        exact (expected_shift_iff E h hj hc).mp hshift
      · rw [expected_true E h hj] at hshift
        exact absurd ((BitVec.xor_right_inj _).mp (hshift.symm.trans (BitVec.xor_zero).symm)) hδ
  · exact openAuthentic_of_selects E hsize hr h hm fun i hi hwrong => hsel i hi _ hwrong

end

/-- The evaluator's result of `decode(wires, PUBLIC)` is right, or the digest it accepted is that of MACs one of
which is off by exactly its `Δ`. -/
def PublicAuthentic [DecidableEq D] (Δ : Deltas) (w₁ w₂ : SecureWires) (n : ℕ) (m : OpenMsg D) : Prop :=
  ∀ v, decodePublic₂ E Δ.d2 w₂ m = .ok v → v = carriedBytes w₁ w₂ n ∨
    ∃ V, m.digest = E.hash V ∧ ∃ i < n, V.getD i zeroBlock = (w₁.bundleAt i).mac ^^^ Δ.d2

theorem publicAuthentic_iff [DecidableEq D] (h : SharesAgree Δ w₁ w₂ n) (m : OpenMsg D) :
    PublicAuthentic E Δ w₁ w₂ n m ↔ OpenAuthentic E Δ.d2 w₂ w₁ n m := by
  rw [PublicAuthentic, OpenAuthentic, h.openedBytes₂, decodePublic₂, SecureWires.check_eq_ok h.wf₂]
  exact Iff.rfl

/-- The garbler takes the low bits it is sent. -/
theorem decodePublic₁_eq (h : SharesAgree Δ w₁ w₂ n) {buf : List UInt8} (hbuf : buf.length = n) :
    decodePublic₁ w₁ buf = .ok ((List.range n).map fun i => byteOf (lowBit (buf.getD i 0))) := by
  rw [decodePublic₁, SecureWires.check_eq_ok h.wf₁]
  refine congrArg Except.ok ?_
  rw [decodePublic, map_eq_range _ 0 hbuf]
  exact List.map_congr_left fun i _ => and_one_eq _

/-- **`decode(wires, PUBLIC)` against a deviating peer.** The garbler's result is right for every broadcast only on a
bundle without wires. The evaluator's is authentic for every message exactly when the memory past `select_mask`
continues it: read at a byte whose low bit is not the garbler's share bit, it holds on the bits of `Δ₂` the entry of
that low bit. For messages whose share bytes are bits it always is. -/
theorem decodePublic_authentic_iff [DecidableEq D] (hinj : Function.Injective E.hash)
    (h : SharesAgree Δ w₁ w₂ n) :
    ((∀ buf : List UInt8, buf.length = n → ∀ v, decodePublic₁ w₁ buf = .ok v → v = carriedBytes w₁ w₂ n) ↔ n = 0) ∧
      ((∀ m : OpenMsg D, m.share.length = n → PublicAuthentic E Δ w₁ w₂ n m) ↔
        ∀ i < n, ∀ c : UInt8, lowBit c ≠ LSB (w₁.bundleAt i).mac → c ≠ 0 → c ≠ 1 →
          E.beyond c &&& Δ.d2 = scale (lowBit c) Δ.d2) ∧
      ∀ m : OpenMsg D, m.share.length = n → (∀ c ∈ m.share, c = 0 ∨ c = 1) → PublicAuthentic E Δ w₁ w₂ n m := by
  refine ⟨⟨fun hall => ?_, ?_⟩, ?_, fun m hm hbits => ?_⟩
  · -- the complements of the carried bits
    by_contra hn
    have hlen : ((List.range n).map fun i => byteOf !carriedBit w₁ w₂ i).length = n := by simp
    have hv := hall _ hlen _ (decodePublic₁_eq h hlen)
    rw [carriedBytes, map_range_inj] at hv
    have h0 := byteOf_inj (hv 0 (Nat.pos_of_ne_zero hn))
    rw [getD_map_range _ _ (Nat.pos_of_ne_zero hn), lowBit_byteOf] at h0
    exact absurd h0 (by simp)
  · rintro rfl buf hbuf v hv
    rw [decodePublic₁_eq h hbuf] at hv
    exact (Except.ok.inj hv).symm
  · have hiff := openAuthentic_forall_iff E hinj (Δ.of_ne_zero .bob) h.wf₂.size h.wf₂.bundle h.sentTo₂
    simp only [selectsLowBit_iff] at hiff
    simp only [publicAuthentic_iff E h]
    exact hiff
  · rw [publicAuthentic_iff E h]
    refine openAuthentic_of_selects E h.wf₂.size h.wf₂.bundle h.sentTo₂ hm fun i hi _ => ?_
    rcases hbits _ (getD_mem 0 (hm.symm ▸ hi)) with hc | hc
    · rw [hc]
      exact selectsLowBit_byteOf E false
    · rw [hc]
      exact selectsLowBit_byteOf E true

end

/-! ### One wire -/

/-- One wire of zero shares carrying the bit 0, at either party. -/
def zeroWire (party : Party) : SecureWires := publicWires party zeroBlock [0]

theorem sharesAgree_zeroWire (Δ : Deltas) : SharesAgree Δ (zeroWire .alice) (zeroWire .bob) 1 where
  wf₁ := ⟨rfl, rfl, rfl⟩
  wf₂ := ⟨rfl, rfl, rfl⟩
  lambda _ _ := rfl
  rel i hi := by
    obtain rfl : i = 0 := by omega
    exact MacRel.zero

/-- The garbler takes the evaluator's word: the byte 1 makes it return 1 for a wire carrying 0. -/
theorem decodePublic_garbler_misled :
    SharesAgree (.init 0 0) (zeroWire .alice) (zeroWire .bob) 1 ∧
      decodePublic₁ (zeroWire .alice) [1] = .ok [1] ∧
      carriedBytes (zeroWire .alice) (zeroWire .bob) 1 = [0] := by
  exact ⟨sharesAgree_zeroWire _, by decide⟩

/-- On this wire, over a memory of zeros: the garbler can be misled, the evaluator by the byte 3, but not by bits. -/
theorem decodePublic_authentic_zeroWire :
    ¬ (∀ buf : List UInt8, buf.length = 1 → ∀ v, decodePublic₁ (zeroWire .alice) buf = .ok v →
        v = carriedBytes (zeroWire .alice) (zeroWire .bob) 1) ∧
      ¬ (∀ m : OpenMsg (List Block), m.share.length = 1 →
        PublicAuthentic .transparent (.init 0 0) (zeroWire .alice) (zeroWire .bob) 1 m) ∧
      PublicAuthentic .transparent (.init 0 0) (zeroWire .alice) (zeroWire .bob) 1 ⟨[1], [initAbit .bob 0]⟩ := by
  have h := decodePublic_authentic_iff .transparent Function.injective_id (sharesAgree_zeroWire (.init 0 0))
  refine ⟨fun hall => absurd (h.1.mp hall) (by decide), fun hall => ?_,
    h.2.2 _ rfl fun c hc => .inr (List.mem_singleton.mp hc)⟩
  have h3 := h.2.1.mp hall 0 Nat.one_pos 3 (by decide) (by decide) (by decide)
  revert h3
  decide

end AG2PC
