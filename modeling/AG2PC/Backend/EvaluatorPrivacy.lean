import AG2PC.Backend.AlikeRuns
import AG2PC.Library.Coupling
import Mathlib.Data.Fintype.EquivFin
import Mathlib.Data.Fintype.Pi

/-!
# What an evaluator shows to any garbler

`process_inputs` sends the input bits themselves. This module is about everything after it: on wires whose bits the
garbler does not know, what does the rest of the protocol tell it, whatever it sends? Nothing, unless it bets on `Δ₂`.
But for two things that are assumed: the triples are sound and show nothing while they are made, which `compute_inplace`
does not give against a garbler that deviates in it, and the bytes that the garbler sends in openings and requests are
bits.

* `GarblerMove`, `evaluatorCall` — a call of the evaluator's protocol object on what the garbler puts into it. The coins
  of a call are the bits of the shares that it draws.
* `evaluatorEngine_of_call` — its runs of the engine are those of `EvaluatorEngine`.
* `PartyWorld.Alike` — two worlds of the evaluator between which the garbler sees no difference.
* `exists_pads` — in a run of the engine the masks the ANDs call for are the coins under a one-time pad.
* `engineCall_alike`, `inputsCall_alike`, `decodeCall_alike` — one call, in two alike worlds.
* `evaluator_private` — any calls: a permutation of the evaluator's coins carries all that the garbler is shown in one
  world to what it is shown in the other, if the same bits are decoded to it in both.
-/

namespace AG2PC

open Library.XorAlgebra Library.SlotReuse Library.ByIndex Library.Coupling

/-! ### The calls of an evaluator -/

/-- A call of the evaluator's protocol object with all that the garbler puts into it: the share bits it opens under the
digest of the blocks `V`, the labels it sends, and for the engine its shares `sigma` of the triples, the tweak seed, the
ciphertext stream and the blocks its digest is of. Share and input bytes are bits, as in `PartyStep`. A request stands
with the bits of both parties: it opens them. -/
inductive GarblerMove where
  /-- `public_wires`. -/
  | publicWires (bits : List UInt8)
  /-- `process_inputs`. -/
  | processInputs (groups : List InputGroup) (share : List Bool) (V labels : List Block)
  /-- `run_source` or `run_program` on the wires `ids`. -/
  | engine (source : Body (List ℕ)) (ids : List ℕ) (sigma : ℕ → AShareBundle) (seed : Block) (wire : List StreamEntry)
      (V : List Block)
  /-- `decode` of the wires `ids`. -/
  | decode (recipient : Owner) (ids : List ℕ) (share : List Bool) (V : List Block)

namespace GarblerMove

/-- The evaluator's coins in a call: a bit for each share it draws, but for those that the triples use up. -/
def coins : GarblerMove → Type
  | .processInputs groups _ _ _ => Fin (inputTotal (groupBits groups .bob)) → Bool
  | .engine source ids _ _ _ _ => Fin (countAnds (source.stream ids.length)) → Bool
  | _ => Unit

/-- How many wires a call makes. -/
def newWires : GarblerMove → ℕ
  | .publicWires bits => bits.length
  | .processInputs groups _ _ _ => inputTotal (groupBits groups .bob)
  | .engine source ids _ _ _ _ => (source.outs ids.length).length
  | .decode _ _ _ _ => 0

/-- Their bits, those of the wires made before being `x`. -/
def values (x : List Bool) : GarblerMove → List Bool
  | .publicWires bits => bits.map truthy
  | .processInputs groups _ _ _ => (groups.map InputGroup.value).flatten
  | .engine source ids _ _ _ _ =>
    (source.outs ids.length).map (evalGates (inputWires (ids.map (x.getD · false))) (source.stream ids.length))
  | .decode _ _ _ _ => []

/-- The bits a call decodes to the garbler. -/
def revealed (x : List Bool) : GarblerMove → List Bool
  | .decode recipient ids _ _ => if recipient = .BOB then [] else ids.map (x.getD · false)
  | _ => []

/-- The call is on `N` wires made before and its messages have the lengths the code reads. The key of a share has
bit 0 clear. -/
def Fits (N : ℕ) : GarblerMove → Prop
  | .publicWires _ => True
  | .processInputs groups share V labels =>
    let n := inputTotal (groupBits groups .bob)
    share.length = n ∧ V.length = n ∧ labels.length = n
  | .engine source ids sigma _ wire _ =>
    let gs := source.stream ids.length
    (∀ i ∈ ids, i < N) ∧ CanonicalStream ids.length gs ∧
      (∀ o ∈ source.outs ids.length, o < ids.length + gs.length) ∧ (∀ k, LSB (sigma k).key = false) ∧
      wire.length = countAnds gs
  | .decode _ ids share V => (∀ i ∈ ids, i < N) ∧ share.length = ids.length ∧ V.length = ids.length

end GarblerMove

/-- So do all calls of a list. -/
def AllFit : ℕ → List GarblerMove → Prop
  | _, [] => True
  | N, m :: ms => m.Fits N ∧ AllFit (N + m.newWires) ms

/-- The bits that the calls of a list decode to the garbler, call by call. -/
def revealedBits : List Bool → List GarblerMove → List (List Bool)
  | _, [] => []
  | x, m :: ms => m.revealed x :: revealedBits (x ++ m.values x) ms

/-- What a call shows to the garbler, beside whether it fails. -/
inductive Shown (D : Type) where
  /-- Nothing. -/
  | nothing
  /-- The message of `process_inputs`. -/
  | inputs (msg : InputMsg D)
  /-- The vector `Λ_AND`. -/
  | lambdaAnd (bits : List Bool)
  /-- An opening. -/
  | opening (msg : OpenMsg D)
  /-- The bytes broadcast in a `PUBLIC` decode. -/
  | bytes (v : List UInt8)

section

variable {D : Type} (S : Setup D) (w : PartyWorld)

/-- The evaluator's COT outputs from position `u` on: they answer the garbler's with the bits `r`. -/
def drawnCot (u : ℕ) {m : ℕ} (r : Fin m → Bool) (j : ℕ) : AShareBundle :=
  answer S.Δ (S.cot₁ j) (if h : j - u < m then r ⟨j - u, h⟩ else false)

/-- The garbler's side of the wires `ids`; nothing depends on its labels. -/
def garblerArgs (ids : List ℕ) : SecureWires :=
  garblerWires (ids.map (w.peer.getD · .zero)) (w.wires.gather ids).Lambda (ids.map fun _ => zeroBlock)

/-- The evaluator's shares of sound triples, the garbler's being `sigma`. -/
def answerProducts (sigma : ℕ → AShareBundle) (P₁ P₂ : Prepared) (k : ℕ) : AShareBundle :=
  answer S.Δ (sigma k)
    (LSB (sigma k).mac ^^ (shareBit (P₁.repA k) (P₂.repA k) && shareBit (P₁.repB k) (P₂.repB k)))

section

variable (source : Body (List ℕ)) (ids : List ℕ) (sigma : ℕ → AShareBundle) (seed : Block) (wire : List StreamEntry)
  (V : List Block) (r : Fin (countAnds (source.stream ids.length)) → Bool)

/-- The garbler's shares of the wires of a run. -/
def engineShares₁ : ℕ → AShareBundle := shareOf S.cot₁ (garblerArgs w ids) w.pool source

/-- The evaluator's. -/
def engineShares₂ : ℕ → AShareBundle := shareOf (drawnCot S w.pool.used r) (w.wires.gather ids) w.pool source

/-- Passes 0 and 1 of the evaluator. -/
def enginePrepared : Prepared := prepare (drawnCot S w.pool.used r) (w.wires.gather ids) w.pool source

/-- Its shares of the triples. They stand in the place of `compute_inplace`: sound, and made without a message. -/
def engineSigma : ℕ → AShareBundle :=
  answerProducts S sigma (prepare S.cot₁ (garblerArgs w ids) w.pool source) (enginePrepared S w source ids r)

/-- Its evaluate pass. -/
def engineReceived : EvalGlobals × (ℕ → EvalSlot) :=
  evaluatorReceive S.tool S.Δ.d2 seed (engineSigma S w source ids sigma r) (enginePrepared S w source ids r)
    (w.wires.gather ids) source wire

/-- The cleartext evaluation. -/
def engineValues : ℕ → Bool :=
  evalGates (inputWires (ids.map (w.value.getD · false))) (source.stream ids.length)

/-- The evaluator's world after the run. -/
def engineWorld : PartyWorld :=
  let P := enginePrepared S w source ids r
  let outs := source.outs ids.length
  w.add (P.pool.afterTriples S.ssp P.numAnds).maybeFlushCotCheck (outs.map (engineShares₁ S w source ids))
    (gatherEvaluator P (engineReceived S w source ids sigma seed wire r).2) (outs.map (engineValues w source ids))

/-- The blocks that the garbler bets on in it. -/
def engineBets : List Block :=
  gammaGuesses (engineShares₁ S w source ids) sigma
    (fun i => byteOf (engineValues w source ids i ^^
      shareBit (engineShares₁ S w source ids i) (engineShares₂ S w source ids r i))) V 0 (source.stream ids.length)

/-- `run_source` at the evaluator: the vector it sends, and its world when it does not abort. -/
def engineCall [DecidableEq D] : List Bool × Except String PartyWorld :=
  let P := enginePrepared S w source ids r
  (sendLambda P.numAnds (engineReceived S w source ids sigma seed wire r).1,
    (evaluatorPath S.tool S.Δ.d2 seed (engineSigma S w source ids sigma r) P (w.wires.gather ids) source wire
      (S.tool.hash V)).map fun _ => engineWorld S w source ids sigma seed wire r)

end

/-- The blocks that the garbler bets on in a call. -/
def callBets : (m : GarblerMove) → m.coins → List Block
  | .processInputs groups _ V _, _ =>
    let n := inputTotal (groupBits groups .bob)
    openingGuesses ((List.range n).map (w.pool.draw S.cot₁ n).1) V
  | .engine source ids sigma _ _ V, r => engineBets S w source ids sigma V r
  | _, _ => []

end

section

variable {D : Type} [DecidableEq D] (S : Setup D) (w : PartyWorld)

/-- `process_inputs` at the evaluator. -/
def inputsCall (groups : List InputGroup) (share : List Bool) (V labels : List Block)
    (r : Fin (inputTotal (groupBits groups .bob)) → Bool) : Shown D × Except String PartyWorld :=
  let n := inputTotal (groupBits groups .bob)
  if n = 0 then (.nothing, .ok w)
  else
    let own := w.pool.draw (drawnCot S w.pool.used r) n
    let side := requestSide S.Δ groups .bob ((List.range n).map own.1) labels
    (.inputs (side.send S.tool), do
      let Lambda ← side.receive S.tool ⟨share.map byteOf, S.tool.hash V, claimedBits groups .alice⟩
      return w.add own.2 ((List.range n).map (w.pool.draw S.cot₁ n).1) (side.wires Lambda labels)
        (groups.map InputGroup.value).flatten)

/-- `decode` at the evaluator. -/
def decodeCall (recipient : Owner) (ids : List ℕ) (share : List Bool) (V : List Block) :
    Shown D × Except String PartyWorld :=
  let args := w.wires.gather ids
  let msg : OpenMsg D := ⟨share.map byteOf, S.tool.hash V⟩
  match recipient with
  | .PUBLIC =>
    match decodePublic₂ S.tool S.Δ.d2 args msg with
    | .error e => (.nothing, .error e)
    | .ok v => (.bytes v, .ok w)
  | .BOB => (.nothing, (decodeAt S.tool .bob S.Δ.d2 args msg).map fun _ => w)
  | .ALICE => (.opening (decodeSend S.tool args), .ok w)
  | .other _ => (.opening (decodeSend S.tool args), .ok w)

/-- A call: what it shows to the garbler, and the evaluator's world afterwards. -/
def evaluatorCall : (m : GarblerMove) → m.coins → Shown D × Except String PartyWorld
  | .publicWires bits, _ =>
    (.nothing, .ok (w.add w.pool (bits.map fun _ => .zero) (publicWires .bob S.Δ.d2 bits) (bits.map truthy)))
  | .processInputs groups share V labels, r => inputsCall S w groups share V labels r
  | .engine source ids sigma seed wire V, r =>
    let c := engineCall S w source ids sigma seed wire V r
    (.lambdaAnd c.1, c.2)
  | .decode recipient ids share V, _ => decodeCall S w recipient ids share V

end

/-! ### Alike worlds -/

/-- The garbler sees no difference between the two worlds: their shares answer the same shares of the garbler. -/
structure PartyWorld.Alike (w w' : PartyWorld) : Prop where
  pool : w.pool = w'.pool
  peer : w.peer = w'.peer
  lambda : w.wires.Lambda = w'.wires.Lambda
  label0 : w.wires.label0 = w'.wires.label0
  evalLabel : w.wires.evalLabel = w'.wires.evalLabel

section

variable {D : Type} {S : Setup D} {w w' : PartyWorld}

theorem PartyWorld.Alike.lambdaAt (h : w.Alike w') (i : ℕ) : w.wires.lambdaAt i = w'.wires.lambdaAt i := by
  rw [SecureWires.lambdaAt, SecureWires.lambdaAt, h.lambda]

theorem PartyWorld.Alike.evalLabelAt (h : w.Alike w') (i : ℕ) : w.wires.evalLabelAt i = w'.wires.evalLabelAt i := by
  rw [SecureWires.evalLabelAt, SecureWires.evalLabelAt, h.evalLabel]

theorem PartyWorld.Alike.label0At (h : w.Alike w') (i : ℕ) : w.wires.label0At i = w'.wires.label0At i := by
  rw [SecureWires.label0At, SecureWires.label0At, h.label0]

theorem PartyWorld.Alike.garblerArgs (h : w.Alike w') (ids : List ℕ) : garblerArgs w ids = garblerArgs w' ids := by
  have hlambda : (w.wires.gather ids).Lambda = (w'.wires.gather ids).Lambda :=
    List.map_congr_left fun i _ => h.lambdaAt i
  rw [AG2PC.garblerArgs, AG2PC.garblerArgs, h.peer, hlambda]

/-- Alike worlds hold as many wires. -/
theorem PartyWorld.Alike.length_value (h : w.Alike w') (hw : w.Opens S.Δ .bob) (hw' : w'.Opens S.Δ .bob) :
    w.value.length = w'.value.length := by
  rw [← hw.peer_length, ← hw'.peer_length, h.peer]

/-- **Equal bits, equal shares**: where two alike worlds carry the same bit they hold the same share. -/
theorem PartyWorld.Alike.bundleAt (h : w.Alike w') (hw : w.Opens S.Δ .bob) (hw' : w'.Opens S.Δ .bob) {i : ℕ}
    (hi : i < w.value.length) (hbit : w.value.getD i false = w'.value.getD i false) :
    w.wires.bundleAt i = w'.wires.bundleAt i := by
  have hi' : i < w'.value.length := h.length_value hw hw' ▸ hi
  have hrel : MacRel S.Δ (w.peer.getD i .zero) (w.wires.bundleAt i) := hw.rel i hi
  have hrel' : MacRel S.Δ (w.peer.getD i .zero) (w'.wires.bundleAt i) := by
    rw [h.peer]
    exact hw'.rel i hi'
  refine hrel.eq_of_bit hrel' ?_
  have hmask := byteOf_inj ((hw.mask i hi).symm.trans ((h.lambdaAt i).trans (hw'.mask i hi')))
  rw [hbit, ← h.peer] at hmask
  simpa [shareBit] using hmask

/-- The two parties' wires of a run. -/
theorem engine_sharesAgree (hw : w.Opens S.Δ .bob) {ids : List ℕ} (hids : ∀ i ∈ ids, i < w.value.length) :
    SharesAgree S.Δ (garblerArgs w ids) (w.wires.gather ids) ids.length := by
  have hlen : (ids.map (w.value.getD · false)).length = ids.length := List.length_map _
  have hagree : SharesAgree S.Δ (garblerArgs w ids) (w.wires.gather ids) (ids.map (w.value.getD · false)).length :=
    (hw.gather hids).sharesAgree₂ ((List.length_map _).trans hlen.symm)
  rwa [hlen] at hagree

end

/-! ### The engine in two worlds -/

section

variable {D : Type} {S : Setup D} {w w' : PartyWorld} {source : Body (List ℕ)} {ids : List ℕ}
  {sigma : ℕ → AShareBundle} {seed : Block} {wire : List StreamEntry} {V : List Block}

/-- The COT outputs of an evaluator with the coins `r`. -/
def drawnStream (S : Setup D) (hkey : ∀ k, LSB (S.cot₁ k).key = false) (u : ℕ) {m : ℕ} (r : Fin m → Bool) :
    CotStream S.Δ := ⟨S.cot₁, drawnCot S u r, fun j => macRel_answer (hkey j)⟩

/-- AND by AND, the share of the output is the COT output drawn for it. -/
theorem shareOf_and {cot : ℕ → AShareBundle} {w : SecureWires} {pool : TriplePool} {source : Body (List ℕ)} {n : ℕ}
    (hn : w.size = n) (hcan : CanonicalStream n (source.stream n)) :
    ForGates (fun k g => g.isAnd = true → shareOf cot w pool source g.out = cot (pool.used + k)) 0
      (source.stream n) := by
  subst hn
  obtain ⟨sh, hspec, hshare⟩ := @prepare_spec cot w pool source hcan
  refine hspec.eqs.congr_wires hcan fun k g hout _ heq hand => ?_
  have hop : g.op = .And := Gate.op_of_isAnd hand
  rw [hshare _ hout, heq.1]
  simp [shareRule, hop]

/-- The evaluator's shares of the triples are those of the products. -/
theorem engineSigma_products (hkey : ∀ k, LSB (S.cot₁ k).key = false) (hw : w.Opens S.Δ .bob)
    (hfit : (GarblerMove.engine source ids sigma seed wire V).Fits w.value.length)
    (r : Fin (countAnds (source.stream ids.length)) → Bool) :
    ForGates (ProductEqs S.Δ sigma (engineSigma S w source ids sigma r) (engineShares₁ S w source ids)
      (engineShares₂ S w source ids r)) 0 (source.stream ids.length) := by
  obtain ⟨hids, hcan, -, hsigma, -⟩ := hfit
  obtain ⟨P₁, P₂, sh₁, sh₂, H⟩ := preparedPair (S := { S with cot₂ := drawnCot S w.pool.used r })
    (C := drawnStream S hkey w.pool.used r) rfl rfl (engine_sharesAgree hw hids) hcan
    (rfl : (⟨w.pool, w.pool, 0, 0⟩ : ProtoState).pool₁ = ProtoState.pool₂ _)
  have hσ : engineSigma S w source ids sigma r = answerProducts S sigma P₁ P₂ := by
    rw [← H.prep₁, ← H.prep₂]
    rfl
  have hproducts : ForGates (ProductEqs S.Δ sigma (answerProducts S sigma P₁ P₂) sh₁ sh₂) 0
      (source.stream ids.length) := by
    refine ForGates.imp (fun k g hR hand => ?_) (H.eqs₁.and H.eqs₂)
    obtain ⟨⟨-, hrep₁⟩, -, hrep₂⟩ := hR
    refine ⟨macRel_answer (hsigma k), ?_⟩
    rw [answerProducts, shareBit, LSB_answer (hsigma k), (hrep₁ hand).1, (hrep₁ hand).2, (hrep₂ hand).1, (hrep₂ hand).2,
      ← Bool.xor_assoc, Bool.xor_self, Bool.false_xor]
  rw [hσ]
  exact productEqs_congr (σ := (sigma, answerProducts S sigma P₁ P₂)) hcan
    (fun i hi => ⟨(H.share₁ i hi).symm, (H.share₂ i hi).symm⟩) hproducts

/-- A run of the engine in one world: `ev` are the labels and `mk` the masks of its wires. -/
structure EngineRun (S : Setup D) (w : PartyWorld) (source : Body (List ℕ)) (ids : List ℕ) (sigma : ℕ → AShareBundle)
    (seed : Block) (wire : List StreamEntry) (r : Fin (countAnds (source.stream ids.length)) → Bool) (ev : ℕ → Block)
    (mk : ℕ → UInt8) : Prop where
  run : EvaluatedRun S.tool S.Δ (sigma, engineSigma S w source ids sigma r) seed wire ids.length
    (source.stream ids.length) (garblerArgs w ids) (w.wires.gather ids) (engineShares₁ S w source ids)
    (engineShares₂ S w source ids r) ev mk (engineReceived S w source ids sigma seed wire r).1.LambdaAND
    (engineReceived S w source ids sigma seed wire r).1.M1t
  slot : ∀ o ∈ source.outs ids.length, (engineReceived S w source ids sigma seed wire r).2
    ((enginePrepared S w source ids r).phys o) = ⟨engineShares₂ S w source ids r o, ev o, mk o⟩

/-- The masks its ANDs call for. -/
def engineMasks (S : Setup D) (w : PartyWorld) (source : Body (List ℕ)) (ids : List ℕ) (sigma : ℕ → AShareBundle)
    (r : Fin (countAnds (source.stream ids.length)) → Bool) (mk : ℕ → UInt8)
    (k : Fin (countAnds (source.stream ids.length))) : Bool :=
  EvaluatedRun.called sigma (engineSigma S w source ids sigma r) (engineShares₁ S w source ids)
    (engineShares₂ S w source ids r) mk (source.stream ids.length) k

theorem exists_engineRun (hkey : ∀ k, LSB (S.cot₁ k).key = false) (hw : w.Opens S.Δ .bob)
    (hfit : (GarblerMove.engine source ids sigma seed wire V).Fits w.value.length)
    (r : Fin (countAnds (source.stream ids.length)) → Bool) :
    ∃ ev mk, EngineRun S w source ids sigma seed wire r ev mk := by
  have hproducts := engineSigma_products hkey hw hfit r
  obtain ⟨hids, hcan, houts, -, hwire⟩ := hfit
  have hagree := engine_sharesAgree hw hids
  have hsize : (w.wires.gather ids).size = ids.length := hagree.wf₂.size
  obtain ⟨_, hspec, -⟩ := @prepare_spec (drawnCot S w.pool.used r) (w.wires.gather ids) w.pool source (hsize ▸ hcan)
  rw [hsize] at hspec
  obtain ⟨ev, mk, hrun, hslot⟩ := evaluatedRun (S := { S with cot₂ := drawnCot S w.pool.used r })
    (C := drawnStream S hkey w.pool.used r) (σ := (sigma, engineSigma S w source ids sigma r)) rfl rfl hagree hcan houts
    rfl rfl hproducts rfl (hwire.trans hspec.numAnds.symm) rfl
  exact ⟨ev, mk, hrun, hslot⟩

/-- What passes 0 and 1 have counted. -/
theorem enginePrepared_spec (hw : w.Opens S.Δ .bob)
    (hfit : (GarblerMove.engine source ids sigma seed wire V).Fits w.value.length)
    (r : Fin (countAnds (source.stream ids.length)) → Bool) :
    (enginePrepared S w source ids r).numAnds = countAnds (source.stream ids.length) ∧
      (enginePrepared S w source ids r).outIds = source.outs ids.length := by
  have hsize : (w.wires.gather ids).size = ids.length := (engine_sharesAgree hw hfit.1).wf₂.size
  obtain ⟨_, hspec, -⟩ :=
    @prepare_spec (drawnCot S w.pool.used r) (w.wires.gather ids) w.pool source (hsize ▸ hfit.2.1)
  rw [hsize] at hspec
  exact ⟨hspec.numAnds, hspec.outIds⟩

/-- **The masks the ANDs call for are the coins under a one-time pad**: of each vector of masks one vector of coins
makes the ANDs call for it. -/
theorem exists_pads (hkey : ∀ k, LSB (S.cot₁ k).key = false) (hw : w.Opens S.Δ .bob)
    (hfit : (GarblerMove.engine source ids sigma seed wire V).Fits w.value.length) :
    ∃ (ev : (Fin (countAnds (source.stream ids.length)) → Bool) → ℕ → Block)
      (mk : (Fin (countAnds (source.stream ids.length)) → Bool) → ℕ → UInt8),
      (∀ r, EngineRun S w source ids sigma seed wire r (ev r) (mk r)) ∧
        Function.Bijective fun r => engineMasks S w source ids sigma r (mk r) := by
  choose ev mk hrun using exists_engineRun (S := S) (w := w) hkey hw hfit
  refine ⟨ev, mk, hrun, Finite.injective_iff_bijective.mp fun r r' heq => ?_⟩
  obtain ⟨hids, hcan, -⟩ := hfit
  have hsize : (w.wires.gather ids).size = ids.length := (engine_sharesAgree hw hids).wf₂.size
  have hbits := (hrun r).run.shareBit_alike (hrun r').run hcan (fun _ _ => ⟨rfl, rfl⟩)
    (fun k hk => congrFun heq ⟨k, hk⟩) fun i hi => ((hrun r).run.share i hi).2.trans ((hrun r').run.share i hi).2.symm
  funext k
  -- AND `k` writes the share drawn with the coin `k`
  have hdrawn : ∀ q : Fin (countAnds (source.stream ids.length)) → Bool, ForGates (fun k g => g.isAnd = true →
      engineShares₂ S w source ids q g.out = drawnCot S w.pool.used q (w.pool.used + k)) 0
        (source.stream ids.length) := fun q => shareOf_and hsize hcan
  obtain ⟨g, hg, hand, hr, hr'⟩ :=
    ForGates.exists_and ((hdrawn r).and (hdrawn r')) (Nat.zero_le k) ((Nat.zero_add _).symm ▸ k.isLt)
  have hout := hbits g.out (canonicalStream_lt hcan hg).1
  rw [hr hand, hr' hand, shareBit, shareBit, drawnCot, drawnCot, LSB_answer (hkey _), LSB_answer (hkey _)] at hout
  simpa using hout

/-- An evaluator that goes on has accepted the digest, and one that does not has refused it. -/
theorem evaluatorPath_cases [DecidableEq D] (E : EmpTool D) (Δ seed : Block) (sigma : ℕ → AShareBundle) (P : Prepared)
    (w : SecureWires) (source : Body (List ℕ)) (wire : List StreamEntry) (digest : D) :
    (0 < P.numAnds ∧ gammaDigest E P.numAnds (evaluatorReceive E Δ seed sigma P w source wire).1.M1t ≠ digest ∧
        evaluatorPath E Δ seed sigma P w source wire digest = .error "lambda c_gamma check failed") ∨
      (0 < P.numAnds → gammaDigest E P.numAnds (evaluatorReceive E Δ seed sigma P w source wire).1.M1t = digest) ∧
        evaluatorPath E Δ seed sigma P w source wire digest =
          .ok (evaluatorReceive E Δ seed sigma P w source wire) := by
  unfold evaluatorPath evaluatorCheck
  by_cases hpos : 0 < P.numAnds
  · by_cases hdigest : gammaDigest E P.numAnds (evaluatorReceive E Δ seed sigma P w source wire).1.M1t = digest
    · refine .inr ⟨fun _ => hdigest, ?_⟩
      simp only [if_pos hpos, hdigest, ne_eq, not_true_eq_false, if_false]
      rfl
    · refine .inl ⟨hpos, hdigest, ?_⟩
      simp only [if_pos hpos, ne_eq, hdigest, not_false_eq_true, if_true]
      rfl
  · refine .inr ⟨fun h => absurd h hpos, ?_⟩
    simp only [if_neg hpos]
    rfl

/-- A call of the engine that does not fail is a run of the engine, with the same bets. -/
theorem evaluatorEngine_of_call [DecidableEq D] (hkey : ∀ k, LSB (S.cot₁ k).key = false) (hw : w.Opens S.Δ .bob)
    (hfit : (GarblerMove.engine source ids sigma seed wire V).Fits w.value.length)
    {r : Fin (countAnds (source.stream ids.length)) → Bool} {t : PartyWorld}
    (hcall : (engineCall S w source ids sigma seed wire V r).2 = .ok t) :
    ∃ shown, EvaluatorEngine { S with cot₂ := drawnCot S w.pool.used r } w shown t ∧
      shown.guesses = engineBets S w source ids sigma V r := by
  have hnum := (enginePrepared_spec (S := S) hw hfit r).1
  have hproducts := engineSigma_products hkey hw hfit r
  obtain ⟨hids, hcan, houts, -, hwire⟩ := hfit
  have hlen : (ids.map (w.value.getD · false)).length = ids.length := List.length_map _
  have hlabels : (ids.map fun _ => zeroBlock).length = (ids.map (w.value.getD · false)).length := by simp
  rcases evaluatorPath_cases S.tool S.Δ.d2 seed (engineSigma S w source ids sigma r)
    (enginePrepared S w source ids r) (w.wires.gather ids) source wire (S.tool.hash V) with ⟨-, -, herr⟩ | ⟨-, hok⟩
  · rw [engineCall, herr] at hcall
    cases hcall
  rw [engineCall, hok] at hcall
  cases hcall
  have hrun := EvaluatorEngine.run (S := { S with cot₂ := drawnCot S w.pool.used r }) w source hids rfl rfl
    (by rw [hlen]; exact hcan) (by rw [hlen]; exact houts) rfl (hwire.trans hnum.symm) hlabels rfl rfl
    (σ := (sigma, engineSigma S w source ids sigma r)) (by rw [hlen]; exact hproducts) hok
  rw [hlen] at hrun
  exact ⟨_, hrun, rfl⟩

/-- What a call leaves of two alike worlds. -/
structure StillAlike (S : Setup D) (w w' : PartyWorld) (m : GarblerMove) (t t' : PartyWorld) : Prop where
  alike : t.Alike t'
  opens : t.Opens S.Δ .bob
  opens' : t'.Opens S.Δ .bob
  value : t.value = w.value ++ m.values w.value
  value' : t'.value = w'.value ++ m.values w'.value

theorem engineShares₁_alike (h : w.Alike w') : engineShares₁ S w source ids = engineShares₁ S w' source ids := by
  rw [engineShares₁, engineShares₁, h.garblerArgs, h.pool]

/-- Runs with the same labels and masks at every wire leave alike worlds. -/
theorem engineWorld_alike (h : w.Alike w') (hw : w.Opens S.Δ .bob) (hw' : w'.Opens S.Δ .bob)
    (hfit : (GarblerMove.engine source ids sigma seed wire V).Fits w.value.length)
    {r q : Fin (countAnds (source.stream ids.length)) → Bool} {ev ev' : ℕ → Block} {mk mk' : ℕ → UInt8}
    (hrun : EngineRun S w source ids sigma seed wire r ev mk)
    (hrun' : EngineRun S w' source ids sigma seed wire q ev' mk')
    (hsame : ∀ o ∈ source.outs ids.length, ev o = ev' o ∧ mk o = mk' o) :
    (engineWorld S w source ids sigma seed wire r).Alike (engineWorld S w' source ids sigma seed wire q) := by
  have hfit' : (GarblerMove.engine source ids sigma seed wire V).Fits w'.value.length := h.length_value hw hw' ▸ hfit
  obtain ⟨hnum, hout⟩ := enginePrepared_spec (S := S) hw hfit r
  obtain ⟨hnum', hout'⟩ := enginePrepared_spec (S := S) hw' hfit' q
  have hsize : (w.wires.gather ids).size = ids.length := (engine_sharesAgree hw hfit.1).wf₂.size
  have hsize' : (w'.wires.gather ids).size = ids.length := (engine_sharesAgree hw' hfit'.1).wf₂.size
  have hpool : (enginePrepared S w source ids r).pool = (enginePrepared S w' source ids q).pool := by
    rw [enginePrepared, enginePrepared, h.pool]
    exact prepare_pool (hsize'.trans hsize.symm) (hsize ▸ hfit.2.1)
  refine ⟨?_, ?_, ?_, ?_, ?_⟩
  · simp only [engineWorld, PartyWorld.add, hpool, hnum, hnum']
  · simp only [engineWorld, PartyWorld.add, h.peer, engineShares₁_alike h]
  · simp only [engineWorld, PartyWorld.add, SecureWires.append, gatherEvaluator, hout, hout', h.lambda]
    refine congrArg _ (List.map_congr_left fun o ho => ?_)
    rw [hrun.slot o ho, hrun'.slot o ho]
    exact (hsame o ho).2
  · simp only [engineWorld, PartyWorld.add, SecureWires.append, gatherEvaluator, h.label0]
  · simp only [engineWorld, PartyWorld.add, SecureWires.append, gatherEvaluator, hout, hout', h.evalLabel]
    refine congrArg _ (List.map_congr_left fun o ho => ?_)
    rw [hrun.slot o ho, hrun'.slot o ho]
    exact (hsame o ho).1

/-- The masks of the wires of a run open their bits. -/
theorem EngineRun.input (hw : w.Opens S.Δ .bob) (hids : ∀ i ∈ ids, i < w.value.length)
    {r : Fin (countAnds (source.stream ids.length)) → Bool} {ev : ℕ → Block} {mk : ℕ → UInt8}
    (hrun : EngineRun S w source ids sigma seed wire r ev mk) : ∀ i < ids.length, mk i =
      byteOf (inputWires (ids.map (w.value.getD · false)) i ^^
        shareBit (engineShares₁ S w source ids i) (engineShares₂ S w source ids r i)) := by
  intro i hi
  have hlen : (ids.map (w.value.getD · false)).length = ids.length := List.length_map _
  rw [(hrun.run.input i hi).2, (hw.gather hids).mask i (hlen.symm ▸ hi), (hrun.run.share i hi).1,
    (hrun.run.share i hi).2, shareBit_comm]
  rfl

/-- **Two runs that call for the same masks**, in alike worlds: the evaluator sends the same vector, and it fails alike
or keeps the worlds alike, unless the garbler bets on `Δ₂` in the first. -/
theorem engineCall_of_masks [DecidableEq D] (hE : Function.Injective S.tool.hash) (h : w.Alike w')
    (hw : w.Opens S.Δ .bob) (hw' : w'.Opens S.Δ .bob)
    (hfit : (GarblerMove.engine source ids sigma seed wire V).Fits w.value.length)
    {r q : Fin (countAnds (source.stream ids.length)) → Bool} {ev ev' : ℕ → Block} {mk mk' : ℕ → UInt8}
    (hrun : EngineRun S w source ids sigma seed wire r ev mk)
    (hrun' : EngineRun S w' source ids sigma seed wire q ev' mk')
    (hmasks : engineMasks S w source ids sigma r mk = engineMasks S w' source ids sigma q mk')
    (hbet : S.Δ.d2 ∉ engineBets S w source ids sigma V r) :
    (engineCall S w source ids sigma seed wire V r).1 = (engineCall S w' source ids sigma seed wire V q).1 ∧
      Alike (StillAlike S w w' (.engine source ids sigma seed wire V))
        (engineCall S w source ids sigma seed wire V r).2 (engineCall S w' source ids sigma seed wire V q).2 := by
  have hfit' : (GarblerMove.engine source ids sigma seed wire V).Fits w'.value.length := h.length_value hw hw' ▸ hfit
  obtain ⟨hnum, hout⟩ := enginePrepared_spec (S := S) hw hfit r
  obtain ⟨hnum', hout'⟩ := enginePrepared_spec (S := S) hw' hfit' q
  have hcan := hfit.2.1
  have houts := hfit.2.2.1
  have hshares : engineShares₁ S w source ids = engineShares₁ S w' source ids := engineShares₁_alike h
  have hrun₂ := hrun'.run
  rw [← hshares, ← h.garblerArgs] at hrun₂
  have hinput : ∀ i < ids.length, (w.wires.gather ids).evalLabelAt i = (w'.wires.gather ids).evalLabelAt i ∧
      (w.wires.gather ids).lambdaAt i = (w'.wires.gather ids).lambdaAt i := by
    intro i _
    have hlambda : ids.map w.wires.lambdaAt = ids.map w'.wires.lambdaAt := List.map_congr_left fun i _ => h.lambdaAt i
    have hlabel : ids.map w.wires.evalLabelAt = ids.map w'.wires.evalLabelAt :=
      List.map_congr_left fun i _ => h.evalLabelAt i
    simp only [SecureWires.lambdaAt, SecureWires.evalLabelAt, SecureWires.gather] at hlambda hlabel ⊢
    rw [hlambda, hlabel]
    exact ⟨rfl, rfl⟩
  have hcalled : ∀ k < countAnds (source.stream ids.length),
      EvaluatedRun.called sigma (engineSigma S w source ids sigma r) (engineShares₁ S w source ids)
          (engineShares₂ S w source ids r) mk (source.stream ids.length) k =
        EvaluatedRun.called sigma (engineSigma S w' source ids sigma q) (engineShares₁ S w source ids)
          (engineShares₂ S w' source ids q) mk' (source.stream ids.length) k := by
    intro k hk
    have hk' := congrFun hmasks ⟨k, hk⟩
    rwa [engineMasks, engineMasks, ← hshares] at hk'
  obtain ⟨hall, hands⟩ := hrun.run.alike hrun₂ hcan hinput hcalled
  have hdigest : gammaDigest S.tool (enginePrepared S w source ids r).numAnds
      (engineReceived S w source ids sigma seed wire r).1.M1t =
        gammaDigest S.tool (enginePrepared S w' source ids q).numAnds
          (engineReceived S w' source ids sigma seed wire q).1.M1t := by
    rw [gammaDigest, gammaDigest, hnum, hnum']
    exact congrArg _ (List.map_congr_left fun k hk => (hands k (List.mem_range.mp hk)).2)
  constructor
  · rw [engineCall, engineCall, sendLambda, sendLambda, hnum, hnum']
    exact List.map_congr_left fun k hk => by rw [(hands k (List.mem_range.mp hk)).1]
  simp only [engineCall]
  have hcases := evaluatorPath_cases S.tool S.Δ.d2 seed (engineSigma S w source ids sigma r)
    (enginePrepared S w source ids r) (w.wires.gather ids) source wire (S.tool.hash V)
  have hcases' := evaluatorPath_cases S.tool S.Δ.d2 seed (engineSigma S w' source ids sigma q)
    (enginePrepared S w' source ids q) (w'.wires.gather ids) source wire (S.tool.hash V)
  rcases hcases with ⟨hpos, hne, herr⟩ | ⟨heq, hok⟩
  · rcases hcases' with ⟨-, -, herr'⟩ | ⟨heq', -⟩
    · rw [herr, herr']
      rfl
    · exact absurd (hdigest.trans (heq' (hnum'.symm ▸ hnum ▸ hpos))) hne
  · rcases hcases' with ⟨hpos', hne', -⟩ | ⟨-, hok'⟩
    · exact absurd (hdigest.symm.trans (heq (hnum.symm ▸ hnum' ▸ hpos'))) hne'
    rw [hok, hok']
    have hM := evaluatorPath_ok hE hok
    rw [hnum] at hM
    have hopen := (hrun.run.opens_or_bet hcan hM rfl (hrun.input hw hfit.1)).resolve_left hbet
    have hopen' := hrun.run.opens_alike hrun₂ hcan hinput hcalled hopen fun i hi => by
      rw [hrun'.input hw' hfit'.1 i hi, hshares]
    refine ⟨engineWorld_alike h hw hw' hfit hrun hrun' fun o ho => hall o (houts o ho), ?_, ?_, rfl, rfl⟩
    · exact hw.append (.of_slots hout hrun.run.rel houts hrun.slot hopen)
    · rw [hshares] at hopen'
      exact hw'.append (.of_slots hout' hrun'.run.rel houts hrun'.slot hopen')

/-- **A run of the engine in two alike worlds**: a permutation of the coins makes the evaluator send the same vector and
fail alike or keep the worlds alike, unless the garbler bets on `Δ₂`. -/
theorem engineCall_alike [DecidableEq D] (hE : Function.Injective S.tool.hash)
    (hkey : ∀ k, LSB (S.cot₁ k).key = false) (h : w.Alike w') (hw : w.Opens S.Δ .bob) (hw' : w'.Opens S.Δ .bob)
    (hfit : (GarblerMove.engine source ids sigma seed wire V).Fits w.value.length) :
    ∃ φ : Equiv.Perm (Fin (countAnds (source.stream ids.length)) → Bool), ∀ r,
      S.Δ.d2 ∉ engineBets S w source ids sigma V r →
        (engineCall S w source ids sigma seed wire V r).1 = (engineCall S w' source ids sigma seed wire V (φ r)).1 ∧
        Alike (StillAlike S w w' (.engine source ids sigma seed wire V))
          (engineCall S w source ids sigma seed wire V r).2
          (engineCall S w' source ids sigma seed wire V (φ r)).2 := by
  have hfit' : (GarblerMove.engine source ids sigma seed wire V).Fits w'.value.length := h.length_value hw hw' ▸ hfit
  obtain ⟨ev, mk, hrun, hbij⟩ := exists_pads hkey hw hfit
  obtain ⟨ev', mk', hrun', hbij'⟩ := exists_pads hkey hw' hfit'
  refine ⟨(Equiv.ofBijective _ hbij).trans (Equiv.ofBijective _ hbij').symm, fun r hbet => ?_⟩
  generalize hq : ((Equiv.ofBijective _ hbij).trans (Equiv.ofBijective _ hbij').symm) r = q
  -- the coins `q` make the ANDs call for the same masks
  have hmasks := congrArg (Equiv.ofBijective _ hbij') hq
  rw [Equiv.trans_apply, Equiv.apply_symm_apply] at hmasks
  exact engineCall_of_masks hE h hw hw' hfit (hrun r) (hrun' q) hmasks hbet

end

/-! ### The other calls in two worlds -/

section

variable {D : Type} {S : Setup D} {w w' : PartyWorld}

/-- **A request in two alike worlds**, with the same coins and the same inputs. -/
theorem inputsCall_alike [DecidableEq D] (hE : Function.Injective S.tool.hash) (hkey : ∀ k, LSB (S.cot₁ k).key = false)
    (h : w.Alike w') (hw : w.Opens S.Δ .bob) (hw' : w'.Opens S.Δ .bob) {groups : List InputGroup} {share : List Bool}
    {V labels : List Block} {N : ℕ} (hfit : (GarblerMove.processInputs groups share V labels).Fits N)
    (r : Fin (inputTotal (groupBits groups .bob)) → Bool)
    (hbet : S.Δ.d2 ∉ callBets S w (.processInputs groups share V labels) r) :
    (inputsCall S w groups share V labels r).1 = (inputsCall S w' groups share V labels r).1 ∧
      Alike (StillAlike S w w' (.processInputs groups share V labels)) (inputsCall S w groups share V labels r).2
        (inputsCall S w' groups share V labels r).2 := by
  obtain ⟨hshare, hV, hlabels⟩ := hfit
  have hlen : ∀ f : ℕ → AShareBundle, ((List.range (inputTotal (groupBits groups .bob))).map f).length =
      inputTotal (groupBits groups .bob) := fun f => by simp
  unfold inputsCall
  rw [← h.pool]
  by_cases hn : inputTotal (groupBits groups .bob) = 0
  · have hvalue : (groups.map InputGroup.value).flatten = [] := by
      rw [← List.length_eq_zero_iff, ← flatMap_wireValue, List.length_map, length_flatMap_wires groups .bob, hn]
    simp only [if_pos hn]
    refine ⟨trivial, h, hw, hw', ?_, ?_⟩
    · rw [GarblerMove.values, hvalue, List.append_nil]
    · rw [GarblerMove.values, hvalue, List.append_nil]
  simp only [if_neg hn]
  refine ⟨trivial, ?_⟩
  generalize hside : requestSide S.Δ groups .bob _ labels = side
  cases hreceive : side.receive S.tool ⟨share.map byteOf, S.tool.hash V, claimedBits groups .alice⟩ with
  | error e => exact rfl
  | ok Lambda =>
    rw [← hside] at hreceive
    have hopen := (MasksOpen.inputs hE (length_flatMap_wires groups .bob) (hlen _) (hlen _) (fun i hi => by
      rw [getD_map_range _ _ hi, getD_map_range _ _ hi]
      exact macRel_answer (hkey _)) hshare hV hlabels hreceive).resolve_left hbet
    rw [hside] at hopen
    refine ⟨⟨rfl, ?_, ?_, ?_, ?_⟩, hw.append hopen, hw'.append hopen, rfl, rfl⟩
    · simp only [PartyWorld.add, h.peer]
    · simp only [PartyWorld.add, SecureWires.append, h.lambda]
    · simp only [PartyWorld.add, SecureWires.append, h.label0]
    · simp only [PartyWorld.add, SecureWires.append, h.evalLabel]

/-- The MACs a party expects depend on its keys. -/
theorem expMacs_congr {E : EmpTool D} {δ : Block} {b b' : List AShareBundle} {share : List UInt8}
    (h : b.map AShareBundle.key = b'.map AShareBundle.key) : expMacs E δ b share = expMacs E δ b' share := by
  have hexp : ∀ b : List AShareBundle, expMacs E δ b share =
      List.zipWith (fun k s => k ^^^ (selectMaskAt E s &&& δ)) (b.map AShareBundle.key) share := fun b => by
    rw [expMacs, List.zipWith_map_left]
  rw [hexp, hexp, h]

/-- Alike worlds expect the same MACs. -/
theorem expMacs_alike (h : w.Alike w') (hw : w.Opens S.Δ .bob) (hw' : w'.Opens S.Δ .bob) {ids : List ℕ}
    (hids : ∀ i ∈ ids, i < w.value.length) (share : List UInt8) :
    expMacs S.tool S.Δ.d2 (w.wires.gather ids).wireBundle share =
      expMacs S.tool S.Δ.d2 (w'.wires.gather ids).wireBundle share := by
  refine expMacs_congr ?_
  simp only [SecureWires.gather, List.map_map]
  refine List.map_congr_left fun i hi => ?_
  have hrel : MacRel S.Δ (w.peer.getD i .zero) (w.wires.bundleAt i) := hw.rel i (hids i hi)
  have hrel' : MacRel S.Δ (w'.peer.getD i .zero) (w'.wires.bundleAt i) :=
    hw'.rel i (h.length_value hw hw' ▸ hids i hi)
  rw [Function.comp_apply, Function.comp_apply, hrel.key_eq, hrel'.key_eq, h.peer]

/-- Where they carry the same bits they hold the same wires. -/
theorem gather_alike (h : w.Alike w') (hw : w.Opens S.Δ .bob) (hw' : w'.Opens S.Δ .bob) {ids : List ℕ}
    (hids : ∀ i ∈ ids, i < w.value.length)
    (hbits : ids.map (w.value.getD · false) = ids.map (w'.value.getD · false)) :
    w.wires.gather ids = w'.wires.gather ids := by
  have hbundle : ids.map w.wires.bundleAt = ids.map w'.wires.bundleAt := List.map_congr_left fun i hi =>
    h.bundleAt hw hw' (hids i hi) (List.map_inj_left.mp hbits i hi)
  have hlambda : ids.map w.wires.lambdaAt = ids.map w'.wires.lambdaAt := List.map_congr_left fun i _ => h.lambdaAt i
  have hlabel : ids.map w.wires.evalLabelAt = ids.map w'.wires.evalLabelAt :=
    List.map_congr_left fun i _ => h.evalLabelAt i
  have hlabel0 : ids.map w.wires.label0At = ids.map w'.wires.label0At := List.map_congr_left fun i _ => h.label0At i
  simp only [SecureWires.gather, hbundle, hlambda, hlabel, hlabel0]

/-- **A decode in two alike worlds**: it shows the same when the bits it decodes to the garbler are the same. -/
theorem decodeCall_alike [DecidableEq D] (h : w.Alike w') (hw : w.Opens S.Δ .bob) (hw' : w'.Opens S.Δ .bob)
    {recipient : Owner} {ids : List ℕ} {share : List Bool} {V : List Block}
    (hfit : (GarblerMove.decode recipient ids share V).Fits w.value.length)
    (hsame : (GarblerMove.decode recipient ids share V).revealed w.value =
      (GarblerMove.decode recipient ids share V).revealed w'.value) :
    (decodeCall S w recipient ids share V).1 = (decodeCall S w' recipient ids share V).1 ∧
      Alike (StillAlike S w w' (.decode recipient ids share V)) (decodeCall S w recipient ids share V).2
        (decodeCall S w' recipient ids share V).2 := by
  have hids := hfit.1
  have hstill : StillAlike S w w' (.decode recipient ids share V) w w' :=
    ⟨h, hw, hw', (List.append_nil _).symm, (List.append_nil _).symm⟩
  have hgather : recipient ≠ .BOB → w.wires.gather ids = w'.wires.gather ids := fun hne => by
    rw [GarblerMove.revealed, GarblerMove.revealed, if_neg hne, if_neg hne] at hsame
    exact gather_alike h hw hw' hids hsame
  unfold decodeCall
  cases recipient with
  | ALICE =>
    simp only
    rw [hgather (by decide)]
    exact ⟨rfl, hstill⟩
  | other n =>
    simp only
    rw [hgather (by simp)]
    exact ⟨rfl, hstill⟩
  | PUBLIC =>
    simp only
    rw [hgather (by decide)]
    cases decodePublic₂ S.tool S.Δ.d2 (w'.wires.gather ids) ⟨share.map byteOf, S.tool.hash V⟩ with
    | error e => exact ⟨rfl, rfl⟩
    | ok v => exact ⟨rfl, hstill⟩
  | BOB =>
    have hwf := (hw.gather hids).wf
    have hwf' := (hw'.gather (h.length_value hw hw' ▸ hids)).wf
    refine ⟨rfl, ?_⟩
    simp only [decodeAt, SecureWires.check_eq_ok hwf, SecureWires.check_eq_ok hwf', decodeReceive,
      expMacs_alike h hw hw' hids]
    split
    · exact rfl
    · exact hstill

end

/-! ### Whole runs -/

/-- A call makes as many bits as wires. -/
theorem GarblerMove.length_values (m : GarblerMove) (x : List Bool) : (m.values x).length = m.newWires := by
  cases m with
  | publicWires bits => exact List.length_map _
  | processInputs groups _ _ _ =>
    rw [values, newWires, ← flatMap_wireValue, List.length_map, length_flatMap_wires groups .bob]
  | engine source ids _ _ _ _ => exact List.length_map _
  | decode _ _ _ _ => rfl

/-- Two alike worlds, before calls that decode the same bits to the garbler in both. -/
structure Untold {D : Type} (S : Setup D) (ms : List GarblerMove) (w w' : PartyWorld) : Prop where
  alike : w.Alike w'
  opens : w.Opens S.Δ .bob
  opens' : w'.Opens S.Δ .bob
  fit : AllFit w.value.length ms
  revealed : revealedBits w.value ms = revealedBits w'.value ms

section

variable {D : Type} {S : Setup D} {m : GarblerMove} {ms : List GarblerMove} {w w' t t' : PartyWorld}

/-- What a call leaves is as before it, for the calls that follow. -/
theorem Untold.next (h : Untold S (m :: ms) w w') (hstill : StillAlike S w w' m t t') : Untold S ms t t' where
  alike := hstill.alike
  opens := hstill.opens
  opens' := hstill.opens'
  fit := by
    rw [hstill.value, List.length_append, m.length_values]
    exact h.fit.2
  revealed := by
    rw [hstill.value, hstill.value']
    exact (List.cons.inj h.revealed).2

/-- **One call**: a permutation of its coins makes it show the same in both worlds. -/
theorem evaluatorCall_alike [DecidableEq D] (hE : Function.Injective S.tool.hash)
    (hkey : ∀ k, LSB (S.cot₁ k).key = false) (h : Untold S (m :: ms) w w') :
    ∃ φ : Equiv.Perm m.coins, ∀ r, S.Δ.d2 ∉ callBets S w m r →
      (evaluatorCall S w m r).1 = (evaluatorCall S w' m (φ r)).1 ∧
        Alike (Untold S ms) (evaluatorCall S w m r).2 (evaluatorCall S w' m (φ r)).2 := by
  have hnext : ∀ t t', StillAlike S w w' m t t' → Untold S ms t t' := fun _ _ hstill => h.next hstill
  obtain ⟨hfit, -⟩ := h.fit
  obtain ⟨hsame, -⟩ := List.cons.inj h.revealed
  cases m with
  | publicWires bits =>
    refine ⟨Equiv.refl _, fun r _ => ⟨rfl, h.next ⟨⟨?_, ?_, ?_, ?_, ?_⟩, ?_, ?_, rfl, rfl⟩⟩⟩
    · exact h.alike.pool
    · simp only [PartyWorld.add, h.alike.peer]
    · simp only [PartyWorld.add, SecureWires.append, h.alike.lambda]
    · simp only [PartyWorld.add, SecureWires.append, h.alike.label0]
    · simp only [PartyWorld.add, SecureWires.append, h.alike.evalLabel]
    · exact h.opens.append (masksOpen_publicWires S.Δ .bob bits)
    · exact h.opens'.append (masksOpen_publicWires S.Δ .bob bits)
  | processInputs groups share V labels =>
    refine ⟨Equiv.refl _, fun r hbet => ?_⟩
    exact (inputsCall_alike hE hkey h.alike h.opens h.opens' hfit r hbet).imp_right (.imp hnext)
  | engine source ids sigma seed wire V =>
    obtain ⟨φ, hφ⟩ := engineCall_alike hE hkey h.alike h.opens h.opens' hfit
    exact ⟨φ, fun r hbet => ⟨congrArg Shown.lambdaAnd (hφ r hbet).1, .imp hnext (hφ r hbet).2⟩⟩
  | decode recipient ids share V =>
    refine ⟨Equiv.refl _, fun r _ => ?_⟩
    exact (decodeCall_alike h.alike h.opens h.opens' hfit hsame).imp_right (.imp hnext)

/-- **An honest evaluator tells a garbler nothing** but the bits it puts into `process_inputs` and those it decodes to
it, when the triples are sound and show nothing while they are made and the garbler's share and input bytes are bits.
Take two worlds of the evaluator that differ only in what the garbler does not know, and any calls, on any such messages
of the garbler, that decode the same bits to it in both. A permutation of the evaluator's coins carries all that the
garbler is shown in the one world, aborts included, to what it is shown in the other, but for coins with which it bets
on `Δ₂`. -/
theorem evaluator_private [DecidableEq D] (hE : Function.Injective S.tool.hash) (hkey : ∀ k, LSB (S.cot₁ k).key = false)
    (halike : w.Alike w') (hw : w.Opens S.Δ .bob) (hw' : w'.Opens S.Δ .bob) (hfit : AllFit w.value.length ms)
    (hsame : revealedBits w.value ms = revealedBits w'.value ms) :
    ∃ φ : Equiv.Perm (Coins GarblerMove.coins ms), ∀ r,
      ¬ SomeCall (evaluatorCall S) (fun w m r => S.Δ.d2 ∈ callBets S w m r) w ms r →
        view (evaluatorCall S) w ms r = view (evaluatorCall S) w' ms (φ r) :=
  exists_coupling (I := Untold S) (fun _ _ _ _ h => evaluatorCall_alike hE hkey h) ⟨halike, hw, hw', hfit, hsame⟩

end

/-! ### A hidden bit -/

/-- An evaluator with a bit that the garbler does not know, and a zero. -/
def hiddenBit (b : Bool) : PartyWorld where
  wires := evaluatorWires [answer (.init 0 0) .zero b, .zero] [0, 0] [zeroBlock, zeroBlock]
  peer := [.zero, .zero]
  value := [b, false]

theorem hiddenBit_opens (b : Bool) : (hiddenBit b).Opens (.init 0 0) .bob where
  wf := ⟨rfl, rfl, rfl⟩
  peer_length := rfl
  rel i hi := by
    match i, hi with
    | 0, _ => exact macRel_answer LSB_zeroBlock
    | 1, _ => exact (⟨by decide, by decide, by decide, by decide⟩ : MacRel (.init 0 0) .zero .zero)
  mask i hi := by
    match i, hi with
    | 0, _ => cases b <;> decide
    | 1, _ => cases b <;> decide

/-- The conjunction of the two, decoded to the garbler. -/
def hiddenCalls : List GarblerMove :=
  [.engine (executeProgram andProgram) [0, 1] (fun _ => .zero) zeroBlock [default] [zeroBlock],
    .decode .ALICE [2] [false] [zeroBlock]]

/-- The garbler is not told the bit. -/
theorem evaluator_private_hiddenBit : ∃ φ : Equiv.Perm (Coins GarblerMove.coins hiddenCalls), ∀ r,
    ¬ SomeCall (evaluatorCall .zeros) (fun w m r => initAbit .bob 0 ∈ callBets .zeros w m r) (hiddenBit false)
      hiddenCalls r →
    view (evaluatorCall .zeros) (hiddenBit false) hiddenCalls r =
      view (evaluatorCall .zeros) (hiddenBit true) hiddenCalls (φ r) := by
  have hprogram := (executeProgram_stream
    (recordCanonical_of_check (by decide : ag2pcRequireRecordCanonical andProgram = .ok ())) (rfl : 2 = _)).2.2
  refine evaluator_private (S := .zeros) Function.injective_id (fun _ => LSB_zeroBlock) ⟨rfl, rfl, rfl, rfl, rfl⟩
    (hiddenBit_opens false) (hiddenBit_opens true)
    ⟨⟨by decide, hprogram.1, hprogram.2, fun _ => LSB_zeroBlock, ?_⟩, ?_⟩ ?_
  · decide
  · exact ⟨⟨by decide, rfl, rfl⟩, trivial⟩
  · decide

end AG2PC
