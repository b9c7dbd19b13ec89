import AG2PC.Backend.Bucketing
import AG2PC.Backend.LeakySoundness
import AG2PC.Library.Conversation

/-!
# The equality check

`feq_check` of `helper.h`. Party 1 commits to its digest with a nonce, party 2 replies with its own digest,
and party 1 opens. Each party's code is a conversation with a peer that may answer anything.

* `feqBob_ok_iff`, `feqAlice_ok_iff` — what each party accepts, against any peer.
* `join_feq`, `feqCheck_ok_iff_join` — the two parties' code together.
* `sideDigests_eq_iff` — the digests of a run of layers are equal exactly when the layers' vectors are.
* `feqCheck_rushSafe` — the check is an equality test in which no one gains by moving second.
-/

namespace AG2PC

open Library.Conversation Library.ByIndex

/-! ### The conversation -/

/-- What is sent in `feq_check`: a digest or a block. -/
inductive FeqKind where
  /-- `DIGEST_SIZE` bytes. -/
  | digest
  /-- The nonce. -/
  | block
  deriving DecidableEq

/-- The values of each kind. -/
abbrev FeqVal (D : Type) : FeqKind → Type
  | .digest => D
  | .block => Block

section

variable {D : Type} [DecidableEq D] (E : EmpTool D)

/-- `feq_check` at party 1, with the nonce `r`. -/
def feqAlice (Dme : D) (r : Block) (failMsg : String) : Prog (FeqVal D) (Except String Unit) :=
  .send .digest (E.commit Dme r) <|
  .recv .digest fun Dpeer =>
  .send .digest Dme <|
  .send .block r <|
  .done (feqCheck₁ Dme Dpeer failMsg)

/-- `feq_check` at party 2. -/
def feqBob (Dme : D) (failMsg : String) : Prog (FeqVal D) (Except String Unit) :=
  .recv .digest fun com =>
  .send .digest Dme <|
  .recv .digest fun Dpeer =>
  .recv .block fun r =>
  .done (feqCheck₂ E Dme com Dpeer r failMsg)

end

/-! ### Peers -/

section

variable {D : Type}

/-- The commitment of a party 1: it has heard nothing. -/
def commitment (peer : Peer (FeqVal D)) : D := peer 0 [] .digest

/-- The digest a party 1 opens with, after it has heard party 2's digest. -/
def opening (peer : Peer (FeqVal D)) (D₂ : D) : D := peer 1 [⟨.digest, D₂⟩] .digest

/-- The nonce a party 1 opens with. -/
def openingNonce (peer : Peer (FeqVal D)) (D₂ : D) : Block := peer 2 [⟨.digest, D₂⟩] .block

/-- The reply of a party 2, which has heard the commitment. -/
def reply (peer : Peer (FeqVal D)) (com : D) : D := peer 0 [⟨.digest, com⟩] .digest

variable [DecidableEq D] {E : EmpTool D}

theorem feqCheck₁_ok_iff {Dme Dpeer : D} {failMsg : String} :
    feqCheck₁ Dme Dpeer failMsg = .ok () ↔ Dme = Dpeer := by
  unfold feqCheck₁
  split_ifs with h
  · simp [h]
  · simp [not_not.mp h]

theorem feqCheck₂_ok_iff {Dme com Dpeer : D} {r : Block} {failMsg : String} :
    feqCheck₂ E Dme com Dpeer r failMsg = .ok () ↔ Dpeer = Dme ∧ com = E.commit Dpeer r := by
  unfold feqCheck₂
  split_ifs with hcom hD
  · simp [Ne.symm hcom]
  · simp [Ne.symm hD]
  · simp [not_not.mp hcom, not_not.mp hD]

/-- **Party 1 against any peer**: it accepts exactly when the reply is its own digest. -/
theorem feqAlice_ok_iff (peer : Peer (FeqVal D)) (D₁ : D) (r : Block) (failMsg : String) :
    (feqAlice E D₁ r failMsg).run peer = .ok () ↔ reply peer (E.commit D₁ r) = D₁ := by
  have hrun : (feqAlice E D₁ r failMsg).run peer = feqCheck₁ D₁ (reply peer (E.commit D₁ r)) failMsg := rfl
  rw [hrun, feqCheck₁_ok_iff, eq_comm]

/-- **Party 2 against any peer**: it accepts exactly when the peer opens its commitment, with party 2's
digest. -/
theorem feqBob_ok_iff (peer : Peer (FeqVal D)) (D₂ : D) (failMsg : String) :
    (feqBob E D₂ failMsg).run peer = .ok () ↔
      opening peer D₂ = D₂ ∧ commitment peer = E.commit (opening peer D₂) (openingNonce peer D₂) := by
  have hrun : (feqBob E D₂ failMsg).run peer =
      feqCheck₂ E D₂ (commitment peer) (opening peer D₂) (openingNonce peer D₂) failMsg := rfl
  rw [hrun, feqCheck₂_ok_iff]

/-- A commitment binds party 1 to one digest, however it opens. -/
theorem feqBob_unique (hcommit : Function.Injective2 E.commit) {peer peer' : Peer (FeqVal D)} {D₂ D₂' : D}
    {failMsg failMsg' : String} (hcom : commitment peer = commitment peer')
    (h : (feqBob E D₂ failMsg).run peer = .ok ()) (h' : (feqBob E D₂' failMsg').run peer' = .ok ()) :
    D₂ = D₂' := by
  obtain ⟨hopen, hdigest⟩ := (feqBob_ok_iff peer D₂ failMsg).mp h
  obtain ⟨hopen', hdigest'⟩ := (feqBob_ok_iff peer' D₂' failMsg').mp h'
  rw [hdigest, hdigest'] at hcom
  rw [← hopen, ← hopen', (hcommit hcom).1]

/-! ### Two honest parties -/

/-- The two parties' code together. -/
theorem join_feq (D₁ D₂ : D) (r : Block) (failMsg : String) :
    (feqAlice E D₁ r failMsg).join (feqBob E D₂ failMsg) =
      some (feqCheck₁ D₁ D₂ failMsg, feqCheck₂ E D₂ (E.commit D₁ r) D₁ r failMsg) := by
  simp only [feqAlice, feqBob, Prog.join_send_recv, Prog.join_recv_send, Prog.join_done]

/-- `feqCheck`, of which `compute_inplace` makes its check, is the two parties' code together. -/
theorem feqCheck_ok_iff_join (D₁ D₂ : D) (r : Block) (failMsg : String) :
    feqCheck E D₁ D₂ r failMsg = .ok () ↔
      (feqAlice E D₁ r failMsg).join (feqBob E D₂ failMsg) = some (.ok (), .ok ()) := by
  rw [join_feq, Option.some.injEq, Prod.mk.injEq, feqCheck₁_ok_iff, feqCheck₂_ok_iff]
  unfold feqCheck
  by_cases h : D₁ = D₂
  · simp [h, feqCheck₁, feqCheck₂, bind, Except.bind]
  · simp [h, feqCheck₁, bind, Except.bind]

/-- Two honest parties come to the same verdict: whether their digests are equal. -/
theorem join_feq_ok_iff (D₁ D₂ : D) (r : Block) (failMsg : String) :
    ∃ v₁ v₂, (feqAlice E D₁ r failMsg).join (feqBob E D₂ failMsg) = some (v₁, v₂) ∧
      (v₁ = .ok () ↔ D₁ = D₂) ∧ (v₂ = .ok () ↔ D₁ = D₂) :=
  ⟨_, _, join_feq D₁ D₂ r failMsg, feqCheck₁_ok_iff, feqCheck₂_ok_iff.trans (and_iff_left rfl)⟩

/-! ### The layers of `compute_inplace` -/

variable {Δ : Deltas} {C : CotStream Δ} {L : ℕ} {repA repB : Party → ℕ → AShareBundle}
  {t : Party → TriplePool}

variable (E C L repA repB t) in
/-- The digest a party takes into `feq_check` after layer 0 and the `B - 1` sacrifice layers, having
received `msgs`. -/
def sideDigest (p : Party) (msgs : ℕ → PeerLayer) (r : ℕ → ℕ) (B : ℕ) : D :=
  E.hash (sideLayers E p (Δ.of p) (C.of p) L (repA p) (repB p) (t p) msgs r (B - 1)).feq

omit [DecidableEq D] in
/-- **All layers under one digest**: equal digests are equal vectors, layer by layer and position by
position. -/
theorem sideDigests_eq_iff (hhash : Function.Injective E.hash) (msgs : Party → ℕ → PeerLayer)
    (r : Party → ℕ → ℕ) {B : ℕ} (hB : 1 ≤ B) :
    sideDigest E C L repA repB t .alice (msgs .alice) (r .alice) B =
        sideDigest E C L repA repB t .bob (msgs .bob) (r .bob) B ↔
      ∀ m < B, ∀ k < L,
        (layerVector E C L repA repB t .alice (msgs .alice) m).getD k zeroBlock =
          (layerVector E C L repA repB t .bob (msgs .bob) m).getD k zeroBlock := by
  have hlen : ∀ p i, (layerVector E C L repA repB t p (msgs p) i).length = L := fun p i =>
    (List.length_map _).trans List.length_range
  rw [sideDigest, sideDigest, hhash.eq_iff, (sideLayers_at _ _).feq, (sideLayers_at _ _).feq,
    Nat.sub_add_cancel hB, flatMap_range_inj (hlen .alice) (hlen .bob)]

/-- **The equality check is rush-safe.** Two honest parties accept exactly when their digests are equal. An
honest party 2 accepts exactly when the peer opens its commitment with party 2's digest, so a commitment is
good for one digest only; an honest party 1 accepts exactly when the reply is its digest. After the layers of
`compute_inplace`, whatever was received in them, both accept exactly when all layers' vectors agree. -/
theorem feqCheck_rushSafe (hhash : Function.Injective E.hash) (hcommit : Function.Injective2 E.commit) :
    (∀ D₁ D₂ r failMsg, ∃ v₁ v₂, (feqAlice E D₁ r failMsg).join (feqBob E D₂ failMsg) = some (v₁, v₂) ∧
      (v₁ = .ok () ↔ D₁ = D₂) ∧ (v₂ = .ok () ↔ D₁ = D₂)) ∧
    (∀ peer D₂ failMsg, (feqBob E D₂ failMsg).run peer = .ok () ↔
      opening peer D₂ = D₂ ∧ commitment peer = E.commit (opening peer D₂) (openingNonce peer D₂)) ∧
    (∀ peer peer' D₂ D₂' failMsg failMsg', commitment peer = commitment peer' →
      (feqBob E D₂ failMsg).run peer = .ok () → (feqBob E D₂' failMsg').run peer' = .ok () → D₂ = D₂') ∧
    (∀ peer D₁ r failMsg, (feqAlice E D₁ r failMsg).run peer = .ok () ↔ reply peer (E.commit D₁ r) = D₁) ∧
    ∀ (Δ : Deltas) (C : CotStream Δ) (ssp numAnds : ℕ) (repA repB : Party → ℕ → AShareBundle)
      (t : Party → TriplePool) (msgs : Party → ℕ → PeerLayer) (raw : Party → ℕ → ℕ) (nonce : Block)
      (failMsg : String),
      let B := getBucketSize ssp numAnds
      let Dme := fun p => sideDigest E C numAnds repA repB t p (msgs p) (raw p) B
      ∃ v₁ v₂, (feqAlice E (Dme .alice) nonce failMsg).join (feqBob E (Dme .bob) failMsg) = some (v₁, v₂) ∧
        (v₁ = .ok () ∧ v₂ = .ok () ↔ ∀ m < B, ∀ k < numAnds,
          (layerVector E C numAnds repA repB t .alice (msgs .alice) m).getD k zeroBlock =
            (layerVector E C numAnds repA repB t .bob (msgs .bob) m).getD k zeroBlock) := by
  refine ⟨join_feq_ok_iff, feqBob_ok_iff, fun _ _ _ _ _ _ => feqBob_unique hcommit, feqAlice_ok_iff, ?_⟩
  intro Δ C ssp numAnds repA repB t msgs raw nonce failMsg B Dme
  obtain ⟨v₁, v₂, hjoin, hv₁, hv₂⟩ := join_feq_ok_iff (E := E) (Dme .alice) (Dme .bob) nonce failMsg
  have hB : 1 ≤ B := Nat.le_of_succ_le (getBucketSize_least ssp numAnds).two_le
  refine ⟨v₁, v₂, hjoin, ?_⟩
  rw [hv₁, hv₂, and_self]
  exact sideDigests_eq_iff hhash msgs raw hB

end

/-- What a peer that sends only zeros says. -/
def silentPeer : Peer (FeqVal (List Block))
  | _, _, .digest => []
  | _, _, .block => zeroBlock

/-- Equal digests are accepted; the peer that sends only zeros is refused by the party 2 whose digest is not
empty. -/
theorem feqCheck_rushSafe_transparent :
    (∃ v₁ v₂, (feqAlice .transparent [bit0Mask] zeroBlock "").join (feqBob .transparent [bit0Mask] "") =
        some (v₁, v₂) ∧ v₁ = .ok () ∧ v₂ = .ok ()) ∧
      (feqBob .transparent [bit0Mask] "").run silentPeer ≠ .ok () := by
  have hsafe := feqCheck_rushSafe (E := .transparent) (fun _ _ h => h) fun _ _ _ _ h =>
    let h' := List.append_inj' h rfl
    ⟨h'.1, List.head_eq_of_cons_eq h'.2⟩
  obtain ⟨v₁, v₂, hjoin, hv₁, hv₂⟩ := hsafe.1 [bit0Mask] [bit0Mask] zeroBlock ""
  refine ⟨⟨v₁, v₂, hjoin, hv₁.mpr rfl, hv₂.mpr rfl⟩, fun h => ?_⟩
  exact absurd ((hsafe.2.1 silentPeer [bit0Mask] "").mp h).1 (by decide)

end AG2PC
