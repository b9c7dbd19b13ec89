import AG2PC.Backend.AlikeGarbles
import AG2PC.Backend.EvaluatorPrivacy
import Mathlib.Data.Finite.Prod

/-!
# What a garbler shows to any evaluator

On wires whose bits the evaluator does not know, what do the garbled streams, the digests and the openings of an honest
garbler tell it? The bits decoded to it, and of each AND the cross term of its values with the masks that the evaluator
has changed in `Λ_AND`; no more, unless it bets on `Δ₁` or the labels of an AND's operands meet. Assumed are three
things: the triples are sound and show nothing while they are made, the bytes that the evaluator sends in openings and
requests are bits, and each run of the engine has an AND.

* `GarblerWorld` — what an honest garbler holds, and the bits that the labels of its wires encode.
* `EvaluatorMove`, `garblerCall` — a call of the garbler's protocol object on what the evaluator puts into it. The coins
  of a call are the bits of the shares and the labels that it draws; those of a run of the engine are also the functions
  that hash the labels of its ANDs.
* `garblerEngine_of_call` — its runs of the engine are those of `GarblerEngine`.
* `GarblerWorld.Alike` — two worlds of the garbler between which the evaluator sees no difference.
* `movedCoins_injective` — in a run of the engine one permutation of the coins moves the shares and the hidden hashes.
* `engineCall₁_alike`, `inputsCall₁_alike`, `decodeCall₁_alike` — one call, in two alike worlds.
* `garbler_private` — any calls: a permutation of the garbler's coins carries all that the evaluator is shown in one
  world to what it is shown in the other, if it is told the same in both.
-/

namespace AG2PC

open Library.XorAlgebra Library.SlotReuse Library.ByIndex Library.Coupling

/-! ### The calls of a garbler -/

/-- A garbler between two calls. The bits `value` are those its masks open; the labels of the wires encode the bits
`truth`, which are the same but where the evaluator has changed masks. -/
structure GarblerWorld extends PartyWorld where
  /-- The bits that the labels encode. -/
  truth : List Bool := []

/-- More wires. -/
def GarblerWorld.add (w : GarblerWorld) (pool : TriplePool) (peer : List AShareBundle) (wires : SecureWires)
    (x truth : List Bool) : GarblerWorld := ⟨w.toPartyWorld.add pool peer wires x, w.truth ++ truth⟩

/-- The masks open bits, and there are as many bits that the labels encode. -/
structure GarblerWorld.Opens (Δ : Deltas) (w : GarblerWorld) : Prop where
  masks : w.toPartyWorld.Opens Δ .alice
  length : w.truth.length = w.value.length

/-- The coins of a run with `m` ANDs: a bit for each share it draws, and for each AND the function that hashes under its
key. -/
def RunCoins (m : ℕ) : Type := (Fin m → Bool) × (Fin m → Block → Block)

section

variable (x c : List Bool) (source : Body (List ℕ)) (ids : List ℕ) (flips : ℕ → Bool)

/-- The values of the wires of a run whose inputs encode the bits `x`. -/
def runTruth : ℕ → Bool := evalGates (inputWires (ids.map (x.getD · false))) (source.stream ids.length)

/-- What the garbler's mask of AND `k` opens when the evaluator changes it by `flips k`. -/
def claimedAnd (k : ℕ) : Bool :=
  (atAnds (fun k g => runTruth x source ids g.out ^^ flips k) 0 (source.stream ids.length)).getD k false

/-- What its masks of the wires of the run open, those of the inputs opening `c`. -/
def runValue : ℕ → Bool :=
  forceAnds (claimedAnd x source ids flips) 0 (source.stream ids.length) (inputWires (ids.map (c.getD · false)))

/-- Where the garbler's masks are changed. -/
def runFlips (i : ℕ) : Bool := runValue x c source ids flips i ^^ runTruth x source ids i

end

/-- A call of the garbler's protocol object with all that the evaluator puts into it: the share bits it opens under the
digest of the blocks `V`, and for the engine its shares `sigma` of the triples, the tweak seed and the masks it changes
in `Λ_AND`. Share and input bytes are bits, as in `PartyStep`. A request stands with the bits of both parties: it opens
them. -/
inductive EvaluatorMove where
  /-- `public_wires`. -/
  | publicWires (bits : List UInt8)
  /-- `process_inputs`. -/
  | processInputs (groups : List InputGroup) (share : List Bool) (V : List Block)
  /-- `run_source` or `run_program` on the wires `ids`. -/
  | engine (source : Body (List ℕ)) (ids : List ℕ) (sigma : ℕ → AShareBundle) (seed : Block) (flips : ℕ → Bool)
  /-- `decode` of the wires `ids`. -/
  | decode (recipient : Owner) (ids : List ℕ) (share : List Bool) (V : List Block)

namespace EvaluatorMove

/-- The garbler's coins in a call: a bit for each share it draws, but for those that the triples use up, and a label for
each input. -/
def coins : EvaluatorMove → Type
  | .processInputs groups _ _ => Fin (inputTotal (groupBits groups .alice)) → Bool × Block
  | .engine source ids _ _ _ => RunCoins (countAnds (source.stream ids.length))
  | _ => Unit

/-- How many wires a call makes. -/
def newWires : EvaluatorMove → ℕ
  | .publicWires bits => bits.length
  | .processInputs groups _ _ => inputTotal (groupBits groups .alice)
  | .engine source ids _ _ _ => (source.outs ids.length).length
  | .decode _ _ _ _ => 0

/-- The bits that their labels encode, those of the wires made before encoding `x`. -/
def truths (x : List Bool) : EvaluatorMove → List Bool
  | .publicWires bits => bits.map truthy
  | .processInputs groups _ _ => (groups.map InputGroup.value).flatten
  | .engine source ids _ _ _ => (source.outs ids.length).map (runTruth x source ids)
  | .decode _ _ _ _ => []

/-- The bits that the garbler's masks of them open, those of the wires made before opening `c`. -/
def values (x c : List Bool) : EvaluatorMove → List Bool
  | .publicWires bits => bits.map truthy
  | .processInputs groups _ _ => (groups.map InputGroup.value).flatten
  | .engine source ids _ _ flips => (source.outs ids.length).map (runValue x c source ids flips)
  | .decode _ _ _ _ => []

/-- What a call tells the evaluator: the bits decoded to it, and of each AND the cross term of its values with the masks
that are changed. -/
def told (x c : List Bool) : EvaluatorMove → List Bool
  | .engine source ids _ _ flips =>
    atAnds (fun _ => crossTerm (runFlips x c source ids flips) (runTruth x source ids)) 0 (source.stream ids.length)
  | .decode recipient ids _ _ => if recipient = .ALICE then [] else ids.map (x.getD · false)
  | _ => []

/-- The call is on `N` wires made before, its messages have the lengths the code reads, and a run has an AND: without
one the garbler's masks are not those that the evaluator sends. The key of a share has bit 0 clear. -/
def Fits (N : ℕ) : EvaluatorMove → Prop
  | .publicWires _ => True
  | .processInputs groups share V =>
    let n := inputTotal (groupBits groups .alice)
    share.length = n ∧ V.length = n
  | .engine source ids sigma _ _ =>
    let gs := source.stream ids.length
    (∀ i ∈ ids, i < N) ∧ CanonicalStream ids.length gs ∧
      (∀ o ∈ source.outs ids.length, o < ids.length + gs.length) ∧ (∀ k, LSB (sigma k).key = false) ∧
      0 < countAnds gs
  | .decode _ ids _ _ => ∀ i ∈ ids, i < N

/-- So do all calls of a list. -/
def AllFit : ℕ → List EvaluatorMove → Prop
  | _, [] => True
  | N, m :: ms => m.Fits N ∧ AllFit (N + m.newWires) ms

/-- What the calls of a list tell the evaluator, call by call. -/
def allTold : List Bool → List Bool → List EvaluatorMove → List (List Bool)
  | _, _, [] => []
  | x, c, m :: ms => m.told x c :: allTold (x ++ m.truths x) (c ++ m.values x c) ms

end EvaluatorMove

/-- What a call shows to the evaluator, beside whether it fails. -/
inductive ShownBob (D : Type) where
  /-- Nothing. -/
  | nothing
  /-- The message of `process_inputs`, and the labels when the opening is accepted. -/
  | inputs (msg : InputMsg D) (labels : List Block)
  /-- The stream and the digest of a run, and the functions that hash the labels of its ANDs, but for the labels that
  the evaluator does not get. -/
  | circuit (stream : List StreamEntry) (digest : D) (hashes : ℕ → Block → Block)
  /-- An opening. -/
  | opening (msg : OpenMsg D)

section

variable {D : Type} (S : Setup D) (w : GarblerWorld)

/-- The garbler's COT outputs from position `u` on: they answer the evaluator's with the bits `r`. -/
def drawnCot₁ (u : ℕ) {m : ℕ} (r : Fin m → Bool) (j : ℕ) : AShareBundle :=
  garblerAnswer S.Δ (S.cot₂ j) (if h : j - u < m then r ⟨j - u, h⟩ else false)

/-- The evaluator's side of the wires `ids`; nothing depends on its labels. -/
def evaluatorArgs (ids : List ℕ) : SecureWires :=
  evaluatorWires (ids.map (w.peer.getD · .zero)) (w.wires.gather ids).Lambda (ids.map fun _ => zeroBlock)

/-- The functions from emp-tool, those that hash the labels of a run's ANDs being `H`. -/
def drawnTool (seed : Block) {m : ℕ} (H : Fin m → Block → Block) : EmpTool D :=
  { S.tool with crh := fun s k x => if h : s = seed ∧ k < m then H ⟨k, h.2⟩ x else S.tool.crh s k x }

section

variable (source : Body (List ℕ)) (ids : List ℕ) (sigma : ℕ → AShareBundle) (seed : Block) (flips : ℕ → Bool)
  (c : RunCoins (countAnds (source.stream ids.length)))

/-- The garbler's shares of the wires of a run. -/
def runShares₁ : ℕ → AShareBundle := shareOf (drawnCot₁ S w.pool.used c.1) (w.wires.gather ids) w.pool source

/-- The evaluator's. -/
def runShares₂ : ℕ → AShareBundle := shareOf S.cot₂ (evaluatorArgs w ids) w.pool source

/-- The masks with which its labels encode the values of the wires. -/
def runMask : ℕ → Bool :=
  trueMask (runShares₁ S w source ids c) (runShares₂ S w source ids) (runTruth w.truth source ids)

/-- Passes 0 and 1 of the garbler. -/
def runPrepared : Prepared := prepare (drawnCot₁ S w.pool.used c.1) (w.wires.gather ids) w.pool source

/-- Its shares of the triples, the evaluator's being `sigma`. They stand in the place of `compute_inplace`: sound, and
made without a message. -/
def runSigma (k : ℕ) : AShareBundle :=
  let P₁ := runPrepared S w source ids c
  let P₂ := prepare S.cot₂ (evaluatorArgs w ids) w.pool source
  garblerAnswer S.Δ (sigma k)
    (LSB (sigma k).mac ^^ (shareBit (P₁.repA k) (P₂.repA k) && shareBit (P₁.repB k) (P₂.repB k)))

/-- Its garble pass. -/
def runGarbled : GarbleGlobals × (ℕ → GarbleSlot) :=
  garblerSend (drawnTool S seed c.2) S.Δ.d1 seed (runSigma S w source ids sigma c) (runPrepared S w source ids c)
    (w.wires.gather ids) source

/-- The zero labels of the wires. -/
def runLabel : ℕ → Block :=
  writtenLabel (drawnTool S seed c.2) S.Δ.d1 (runSigma S w source ids sigma c) seed (runPrepared S w source ids c)
    (w.wires.gather ids) source

/-- The vector that the evaluator sends. -/
def runVector : List Bool := atAnds (fun k g => runMask S w source ids c g.out ^^ flips k) 0 (source.stream ids.length)

/-- The gamma check pass. -/
def runChecked : GammaGlobals × (ℕ → MaskSlot) :=
  let P := runPrepared S w source ids c
  garblerCheck (runSigma S w source ids sigma c) P (w.wires.gather ids) source
    (garblerSlots P (runGarbled S w source ids sigma seed c).2) (runVector S w source ids flips c)

/-- The garbler's world after the run. -/
def runWorld : GarblerWorld :=
  let P := runPrepared S w source ids c
  let outs := source.outs ids.length
  w.add (P.pool.afterTriples S.ssp P.numAnds).maybeFlushCotCheck (outs.map (runShares₂ S w source ids))
    (gatherGarbler P (runGarbled S w source ids sigma seed c).2 (runChecked S w source ids sigma seed flips c).2)
    (outs.map (runValue w.truth w.value source ids flips)) (outs.map (runTruth w.truth source ids))

/-- The label that the evaluator does not get of wire `i`, as it is hashed. -/
def hiddenPoint (i : ℕ) : Block :=
  S.tool.sigma (hiddenLabel S.Δ.d1 (runLabel S w source ids sigma seed c i) (runMask S w source ids c i))

/-- For each AND those of its operands. -/
def hiddenPoints : List (List Block) :=
  let hidden := hiddenPoint S w source ids sigma seed c
  atAnds (fun _ g => [hidden g.in0, hidden g.in1]) 0 (source.stream ids.length)

/-- What the evaluator may hash. -/
def shownHashes (k : ℕ) (x : Block) : Block :=
  if x ∈ (hiddenPoints S w source ids sigma seed c).getD k [] then zeroBlock
  else (drawnTool S seed c.2).crh seed k x

/-- The labels of the operands of an AND meet. -/
def RunMeets : Prop :=
  ∃ g ∈ source.stream ids.length, g.isAnd = true ∧ LabelsMeet S.Δ.d1 (runLabel S w source ids sigma seed c g.in0)
    (runLabel S w source ids sigma seed c g.in1)

/-- `run_source` at the garbler: what it shows, and the garbler's world afterwards. It does not abort. -/
def engineCall₁ : ShownBob D × GarblerWorld :=
  (.circuit (runGarbled S w source ids sigma seed c).1.finish.flatten
      (gammaDigest S.tool (runPrepared S w source ids c).numAnds (runChecked S w source ids sigma seed flips c).1.M1t)
      (shownHashes S w source ids sigma seed c),
    runWorld S w source ids sigma seed flips c)

end

/-- In a call the evaluator bets on `Δ₁`, or the labels of an AND's operands meet. -/
def Lucky : (m : EvaluatorMove) → m.coins → Prop
  | .processInputs groups _ V, _ =>
    let n := inputTotal (groupBits groups .alice)
    S.Δ.d1 ∈ openingGuesses ((List.range n).map (w.pool.draw S.cot₂ n).1) V
  | .engine source ids sigma seed _, c => RunMeets S w source ids sigma seed c
  | _, _ => False

end

section

variable {D : Type} [DecidableEq D] (S : Setup D) (w : GarblerWorld)

/-- `process_inputs` at the garbler. -/
def inputsCall₁ (groups : List InputGroup) (share : List Bool) (V : List Block)
    (r : Fin (inputTotal (groupBits groups .alice)) → Bool × Block) : ShownBob D × Except String GarblerWorld :=
  let n := inputTotal (groupBits groups .alice)
  if n = 0 then (.nothing, .ok w)
  else
    let own := w.pool.draw (drawnCot₁ S w.pool.used fun i => (r i).1) n
    let side := requestSide S.Δ groups .alice ((List.range n).map own.1) (List.ofFn fun i => (r i).2)
    let x := (groups.map InputGroup.value).flatten
    match side.receive S.tool ⟨share.map byteOf, S.tool.hash V, claimedBits groups .bob⟩ with
    | .error e => (.inputs (side.send S.tool) [], .error e)
    | .ok Lambda => (.inputs (side.send S.tool) (side.sendLabels S.tool Lambda),
        .ok (w.add own.2 ((List.range n).map (w.pool.draw S.cot₂ n).1) (side.wires Lambda []) x x))

/-- `decode` at the garbler. In a `PUBLIC` one it also reads the bytes the evaluator broadcasts, and shows no more. -/
def decodeCall₁ (recipient : Owner) (ids : List ℕ) (share : List Bool) (V : List Block) :
    ShownBob D × Except String GarblerWorld :=
  let args := w.wires.gather ids
  match recipient with
  | .ALICE => (.nothing, (decodeAt S.tool .alice S.Δ.d1 args ⟨share.map byteOf, S.tool.hash V⟩).map fun _ => w)
  | .PUBLIC => (.opening (decodeSend S.tool args), .ok w)
  | .BOB => (.opening (decodeSend S.tool args), .ok w)
  | .other _ => (.opening (decodeSend S.tool args), .ok w)

/-- A call: what it shows to the evaluator, and the garbler's world afterwards. -/
def garblerCall : (m : EvaluatorMove) → m.coins → ShownBob D × Except String GarblerWorld
  | .publicWires bits, _ => (.nothing, .ok (w.add w.pool (bits.map fun _ => .zero) (publicWires .alice S.Δ.d1 bits)
      (bits.map truthy) (bits.map truthy)))
  | .processInputs groups share V, r => inputsCall₁ S w groups share V r
  | .engine source ids sigma seed flips, c =>
    ((engineCall₁ S w source ids sigma seed flips c).1, .ok (engineCall₁ S w source ids sigma seed flips c).2)
  | .decode recipient ids share V, _ => decodeCall₁ S w recipient ids share V

end

/-! ### A run in one world -/

section

variable {D : Type} {S : Setup D} {w w' : GarblerWorld} {source : Body (List ℕ)} {ids : List ℕ}
  {sigma : ℕ → AShareBundle} {seed : Block} {flips : ℕ → Bool}

/-- The COT outputs of a garbler with the coins `r`. -/
def drawnStream₁ (S : Setup D) (hkey : ∀ k, LSB (S.cot₂ k).key = false) (u : ℕ) {m : ℕ} (r : Fin m → Bool) :
    CotStream S.Δ := ⟨drawnCot₁ S u r, S.cot₂, fun j => macRel_garblerAnswer (hkey j)⟩

/-- The function of AND `k` hashes under key `k`. -/
theorem drawnTool_crh {m : ℕ} (H : Fin m → Block → Block) {k : ℕ} (hk : k < m) (x : Block) :
    (drawnTool S seed H).crh seed k x = H ⟨k, hk⟩ x := dif_pos ⟨rfl, hk⟩

/-- Other keys hash as they do. -/
theorem drawnTool_crh_of_le {m : ℕ} (H : Fin m → Block → Block) {k : ℕ} (hk : m ≤ k) (x : Block) :
    (drawnTool S seed H).crh seed k x = S.tool.crh seed k x := dif_neg fun h => Nat.not_lt_of_le hk h.2

theorem drawnTool_hash {m : ℕ} (H : Fin m → Block → Block) {k : ℕ} (hk : k < m) (x : Block) :
    ((MITCCRH.setS seed).advance k).hashAt (drawnTool S seed H) 0 x = H ⟨k, hk⟩ x := by
  have hgid : (MITCCRH.setS seed).gid + k + 0 = k := by simp [MITCCRH.setS]
  rw [MITCCRH.hashAt, MITCCRH.advance_gid, hgid]
  exact drawnTool_crh H hk x

/-- The two parties' wires of a run. -/
theorem run_sharesAgree (hw : w.Opens S.Δ) {ids : List ℕ} (hids : ∀ i ∈ ids, i < w.value.length) :
    SharesAgree S.Δ (w.wires.gather ids) (evaluatorArgs w ids) ids.length := by
  have hlen : (ids.map (w.value.getD · false)).length = ids.length := List.length_map _
  have hagree : SharesAgree S.Δ (w.wires.gather ids) (evaluatorArgs w ids) (ids.map (w.value.getD · false)).length :=
    (hw.masks.gather hids).sharesAgree₁ ((List.length_map _).trans hlen.symm)
  rwa [hlen] at hagree

/-- The garble pass and the gamma check pass of a run: `mk` are the masks of the wires at the garbler. -/
structure GarblerRun (S : Setup D) (w : GarblerWorld) (source : Body (List ℕ)) (ids : List ℕ)
    (sigma : ℕ → AShareBundle) (seed : Block) (flips : ℕ → Bool) (c : RunCoins (countAnds (source.stream ids.length)))
    (mk : ℕ → UInt8) : Prop where
  run : GarbledRun (drawnTool S seed c.2) S.Δ (runSigma S w source ids sigma c) sigma (.setS seed) ids.length
    (source.stream ids.length) (runShares₁ S w source ids c) (runShares₂ S w source ids) (runTruth w.truth source ids)
    (fun k => (runGarbled S w source ids sigma seed c).1.finish.flatten.getD k default)
    (runLabel S w source ids sigma seed c)
  input : ∀ i < ids.length, runLabel S w source ids sigma seed c i = (w.wires.gather ids).label0At i ∧
    mk i = (w.wires.gather ids).lambdaAt i
  share : ∀ i < ids.length, runShares₁ S w source ids c i = (w.wires.gather ids).bundleAt i ∧
    runShares₂ S w source ids i = (evaluatorArgs w ids).bundleAt i
  gamma : ForGates (GammaEqs (runSigma S w source ids sigma c) (runShares₁ S w source ids c)
    (fun k => byteOf ((runVector S w source ids flips c).getD k false)) mk
    (runChecked S w source ids sigma seed flips c).1.M1t) 0 (source.stream ids.length)
  length : (runGarbled S w source ids sigma seed c).1.finish.flatten.length = countAnds (source.stream ids.length)
  numAnds : (runPrepared S w source ids c).numAnds = countAnds (source.stream ids.length)
  outIds : (runPrepared S w source ids c).outIds = source.outs ids.length
  labels : ∀ o ∈ source.outs ids.length,
    (runGarbled S w source ids sigma seed c).2 ((runPrepared S w source ids c).phys o) =
      ⟨runShares₁ S w source ids c o, runLabel S w source ids sigma seed c o⟩
  masks : ∀ o ∈ source.outs ids.length,
    (runChecked S w source ids sigma seed flips c).2 ((runPrepared S w source ids c).phys o) =
      ⟨runShares₁ S w source ids c o, mk o⟩

/-- Every run of the engine is one. -/
theorem exists_garblerRun (hkey : ∀ k, LSB (S.cot₂ k).key = false) (hw : w.Opens S.Δ)
    (hfit : (EvaluatorMove.engine source ids sigma seed flips).Fits w.value.length)
    (c : RunCoins (countAnds (source.stream ids.length))) : ∃ mk, GarblerRun S w source ids sigma seed flips c mk := by
  obtain ⟨hids, hcan, houts, hsigma, -⟩ := hfit
  have hagree := run_sharesAgree hw hids
  have hn : (w.wires.gather ids).size = ids.length := hagree.wf₁.size
  obtain ⟨P₁, P₂, sh₁, sh₂, H⟩ := preparedPair (S := { S with cot₁ := drawnCot₁ S w.pool.used c.1 })
    (C := drawnStream₁ S hkey w.pool.used c.1) rfl rfl hagree hcan
    (rfl : (⟨w.pool, w.pool, 0, 0⟩ : ProtoState).pool₁ = ProtoState.pool₂ _)
  obtain rfl : runPrepared S w source ids c = P₁ := H.prep₁
  obtain rfl : prepare S.cot₂ (evaluatorArgs w ids) w.pool source = P₂ := H.prep₂
  have hsh₁ : ∀ i < ids.length + (source.stream ids.length).length, sh₁ i = runShares₁ S w source ids c i :=
    fun i hi => (H.share₁ i hi).symm
  have hsh₂ : ∀ i < ids.length + (source.stream ids.length).length, sh₂ i = runShares₂ S w source ids i :=
    fun i hi => (H.share₂ i hi).symm
  have hproducts : ForGates (ProductEqs S.Δ (runSigma S w source ids sigma c) sigma sh₁ sh₂) 0
      (source.stream ids.length) := by
    refine ForGates.imp (fun k g hR hand => ?_) (H.eqs₁.and H.eqs₂)
    obtain ⟨⟨-, hrep₁⟩, -, hrep₂⟩ := hR
    refine ⟨macRel_garblerAnswer (hsigma k), ?_⟩
    rw [runSigma, shareBit, LSB_garblerAnswer (hsigma k), (hrep₁ hand).1, (hrep₁ hand).2, (hrep₂ hand).1,
      (hrep₂ hand).2, Bool.xor_comm, ← Bool.xor_assoc, Bool.xor_self, Bool.false_xor]
  obtain ⟨hlabels, hlabelin, hgarble⟩ := garblerSend_written (drawnTool S seed c.2) S.Δ.d1
    (runSigma S w source ids sigma c) seed H.can₁ H.spec₁
  obtain ⟨_, hkept, -, hlength, -⟩ := garblerSend_spec (drawnTool S seed c.2) S.Δ.d1 (runSigma S w source ids sigma c)
    seed H.can₁ H.spec₁
  obtain ⟨mk, hmasks, -, hmaskin, hgamma⟩ := garblerCheck_spec (runSigma S w source ids sigma c)
    (garblerSlots (runPrepared S w source ids c) (runGarbled S w source ids sigma seed c).2)
    (runVector S w source ids flips c) H.can₁ H.spec₁ (fun i hi => congrArg GarbleSlot.share (hkept i hi))
    fun i hi => H.spec₁.mask i hi
  have hids : (runPrepared S w source ids c).outIds = source.outs ids.length :=
    H.spec₁.outIds.trans (congrArg source.outs hn)
  rw [hn] at hlabels hlabelin hgarble hmasks hmaskin hgamma
  have hin : ∀ i < ids.length, i < ids.length + (source.stream ids.length).length := fun i hi =>
    Nat.lt_of_lt_of_le hi (Nat.le_add_right _ _)
  have hrun : GarbledRun (drawnTool S seed c.2) S.Δ (runSigma S w source ids sigma c) sigma (.setS seed) ids.length
      (source.stream ids.length) (runShares₁ S w source ids c) (runShares₂ S w source ids)
      (runTruth w.truth source ids) (fun k => (runGarbled S w source ids sigma seed c).1.finish.flatten.getD k default)
      (runLabel S w source ids sigma seed c) := by
    refine ⟨fun i hi => ?_, ?_, ?_, forGates_evalGates _ hcan, ?_⟩
    · rw [← hsh₁ i hi, ← hsh₂ i hi]
      exact H.rel i hi
    · exact productEqs_congr (σ := (runSigma S w source ids sigma c, sigma)) hcan
        (fun i hi => ⟨hsh₁ i hi, hsh₂ i hi⟩) hproducts
    · refine lambdaEqs_congr hcan (fun i hi => ?_) (lambdaEqs_of_shares H.eqs₁ H.eqs₂ hproducts)
      rw [hsh₁ i hi, hsh₂ i hi]
    · exact garbleEqs_congr hcan hsh₁ (fun _ _ => rfl) hgarble
  refine ⟨mk, hrun, fun i hi => ⟨hlabelin i hi, hmaskin i hi⟩, fun i hi => ?_, gammaEqs_congr hcan hsh₁ hgamma,
    hlength.trans H.numAnds₁, H.numAnds₁, hids, fun o ho => ?_, fun o ho => ?_⟩
  · rw [← hsh₁ i (hin i hi), ← hsh₂ i (hin i hi), H.spec₁.input i (hn ▸ hi), H.spec₂.input i (hagree.wf₂.size ▸ hi)]
    exact ⟨rfl, rfl⟩
  · rw [← hsh₁ o (houts o ho)]
    exact hlabels o ho (houts o ho)
  · rw [← hsh₁ o (houts o ho)]
    exact hmasks o (persistent_output ho (houts o ho))

variable (flips) in
/-- The vector that the evaluator sends says the values that the garbler's masks are to open. -/
theorem vectorSays_runVector (c : RunCoins (countAnds (source.stream ids.length))) :
    ForGates (VectorSays (runVector S w source ids flips c)
      (fun i => shareBit (runShares₁ S w source ids c i) (runShares₂ S w source ids i))
      (claimedAnd w.truth source ids flips)) 0 (source.stream ids.length) := by
  refine ForGates.imp (fun k g h hand => ?_)
    ((forGates_atAnds (fun k g => runMask S w source ids c g.out ^^ flips k) _ false).and
      (forGates_atAnds (fun k g => runTruth w.truth source ids g.out ^^ flips k) _ false))
  rw [claimedAnd, runVector, h.1 hand, h.2 hand, runMask, trueMask, Bool.xor_right_comm,
    Bool.xor_assoc (runTruth w.truth source ids g.out), Bool.xor_self, Bool.xor_false]

/-- A run of the engine is one of `GarblerEngine`. -/
theorem garblerEngine_of_call (hkey : ∀ k, LSB (S.cot₂ k).key = false) (hw : w.Opens S.Δ)
    (hfit : (EvaluatorMove.engine source ids sigma seed flips).Fits w.value.length)
    (c : RunCoins (countAnds (source.stream ids.length))) :
    GarblerEngine { S with cot₁ := drawnCot₁ S w.pool.used c.1, tool := drawnTool S seed c.2 }
      ⟨source, ids, runSigma S w source ids sigma c, seed, runVector S w source ids flips c⟩ w.toPartyWorld
      (runWorld S w source ids sigma seed flips c).toPartyWorld := by
  obtain ⟨_, hrun⟩ := exists_garblerRun hkey hw hfit c
  obtain ⟨hids, hcan, houts, -, hpos⟩ := hfit
  have hnum : 0 < (runPrepared S w source ids c).numAnds := Nat.lt_of_lt_of_eq hpos hrun.numAnds.symm
  have hlen : (ids.map (w.value.getD · false)).length = ids.length := List.length_map _
  have hlabels : (ids.map fun _ => zeroBlock).length = (ids.map (w.value.getD · false)).length := by simp
  have hengine := GarblerEngine.run (S := { S with cot₁ := drawnCot₁ S w.pool.used c.1, tool := drawnTool S seed c.2 })
    (w := w.toPartyWorld)
    (c := ⟨source, ids, runSigma S w source ids sigma c, seed, runVector S w source ids flips c⟩) hids rfl rfl
    (by rw [hlen]; exact hcan) (by rw [hlen]; exact houts) (rfl : _ = runPrepared S w source ids c)
    (length_atAnds.trans hrun.numAnds.symm) hlabels rfl rfl rfl (by rw [hlen]; exact vectorSays_runVector flips c) rfl
  rw [hlen] at hengine
  rw [openedValue, if_pos hpos, garblerPath, if_pos hnum] at hengine
  exact hengine

end

/-! ### Moving the coins of a run -/

section

variable {D : Type} (S : Setup D) (w w' : GarblerWorld) (source : Body (List ℕ)) (ids : List ℕ)

/-- Whether the value of a wire changes from one world to the other. -/
def runChange (i : ℕ) : Bool := runTruth w.truth source ids i ^^ runTruth w'.truth source ids i

variable (sigma : ℕ → AShareBundle) (seed : Block) (c : RunCoins (countAnds (source.stream ids.length)))

/-- For each AND, what its hash function moves by. -/
def hashMoves : List (Block → Block) :=
  let lb := runLabel S w source ids sigma seed c
  let mask := runMask S w source ids c
  let change := runChange w w' source ids
  atAnds (fun _ g => hashShift S.tool S.Δ.d1 (lb g.in0) (lb g.in1) (mask g.in0) (mask g.in1) (change g.in0)
    (change g.in1)) 0 (source.stream ids.length)

/-- The coins in the other world: the bits move as the values of the ANDs do, and so do the hidden hashes. -/
def movedCoins : RunCoins (countAnds (source.stream ids.length)) :=
  (fun k => c.1 k ^^ (atAnds (fun _ g => runChange w w' source ids g.out) 0 (source.stream ids.length)).getD k false,
    fun k x => c.2 k x ^^^ (hashMoves S w w' source ids sigma seed c).getD k (fun _ => zeroBlock) x)

end

section

variable {D : Type} {S : Setup D} {w w' : GarblerWorld} {source : Body (List ℕ)} {ids : List ℕ}
  {sigma : ℕ → AShareBundle} {seed : Block} {flips : ℕ → Bool}

variable (S w w' sigma seed) in
/-- What the hash function of an AND moves by. -/
theorem forGates_hashMoves (c : RunCoins (countAnds (source.stream ids.length))) :
    ForGates (fun k g => g.isAnd = true → (hashMoves S w w' source ids sigma seed c).getD k (fun _ => zeroBlock) =
      hashShift S.tool S.Δ.d1 (runLabel S w source ids sigma seed c g.in0) (runLabel S w source ids sigma seed c g.in1)
        (runMask S w source ids c g.in0) (runMask S w source ids c g.in1) (runChange w w' source ids g.in0)
        (runChange w w' source ids g.in1)) 0 (source.stream ids.length) := forGates_atAnds _ _ _

/-- An AND depends on the tool by its hash function only. -/
theorem garbleAnd_congr {E E' : EmpTool D} {m : MITCCRH} (δ : Block) (h : ∀ x, m.hashCir E x = m.hashCir E' x) :
    garbleAnd E δ m = garbleAnd E' δ m := by
  funext a b wbOut sb
  simp only [garbleAnd, h]

/-- **The coins move by a permutation**: what the hash function of an AND moves by depends on those of earlier ANDs
only. -/
theorem movedCoins_injective (hkey : ∀ k, LSB (S.cot₂ k).key = false) (hw : w.Opens S.Δ)
    (hfit : (EvaluatorMove.engine source ids sigma seed flips).Fits w.value.length) :
    Function.Injective (movedCoins S w w' source ids sigma seed) := by
  rintro ⟨r, H⟩ ⟨q, K⟩ heq
  obtain ⟨hbits, hhash⟩ := Prod.mk.inj heq
  obtain rfl : r = q := by
    funext k
    exact Bool.xor_left_inj.mp (congrFun hbits k)
  obtain ⟨_, hrun⟩ := exists_garblerRun hkey hw hfit (r, H)
  obtain ⟨_, hrun'⟩ := exists_garblerRun hkey hw hfit (r, K)
  have hcan := hfit.2.1
  have hstep : ∀ k (hk : k < countAnds (source.stream ids.length)),
      (hashMoves S w w' source ids sigma seed (r, H)).getD k (fun _ => zeroBlock) =
        (hashMoves S w w' source ids sigma seed (r, K)).getD k (fun _ => zeroBlock) → H ⟨k, hk⟩ = K ⟨k, hk⟩ := by
    intro k hk hmoves
    funext x
    have hx := congrFun (congrFun hhash ⟨k, hk⟩) x
    dsimp only at hx
    rwa [hmoves, BitVec.xor_left_inj] at hx
  -- gate by gate the labels are the same, hence the hash functions
  have hlabels : ∀ i < ids.length + (source.stream ids.length).length,
      runLabel S w source ids sigma seed (r, H) i = runLabel S w source ids sigma seed (r, K) i := by
    refine ForGates.run (fun k g hR hread => ?_) hcan (((hrun.run.garble.and hrun'.run.garble).and
      (forGates_lt _ (Nat.le_of_eq (Nat.zero_add _)))).and ((forGates_hashMoves S w w' sigma seed (r, H)).and
        (forGates_hashMoves S w w' sigma seed (r, K))))
      fun i hi => (hrun.input i hi).1.trans (hrun'.input i hi).1.symm
    obtain ⟨⟨⟨he, he'⟩, hk⟩, hm, hm'⟩ := hR
    refine (garbleEqs_alike he he' hread fun hand => ?_).1
    have hop : g.op = .And := Gate.op_of_isAnd hand
    have hsame : H ⟨k, hk hand⟩ = K ⟨k, hk hand⟩ := by
      refine hstep k (hk hand) ?_
      rw [hm hand, hm' hand, hread g.in0 (by simp [Gate.srcs, hop]), hread g.in1 (by simp [Gate.srcs, hop])]
      rfl
    refine congrFun (congrFun (congrFun (congrFun (garbleAnd_congr _ fun x => ?_) _) _) _) _
    rw [MITCCRH.hashCir, MITCCRH.hashCir, drawnTool_hash _ (hk hand), drawnTool_hash _ (hk hand)]
    exact congrFun hsame.symm _
  have hmoves : hashMoves S w w' source ids sigma seed (r, H) = hashMoves S w w' source ids sigma seed (r, K) := by
    refine atAnds_congr (forGates_of_mem fun k g hg hand => ?_)
    have hop : g.op = .And := Gate.op_of_isAnd hand
    obtain ⟨-, hsrcs⟩ := canonicalStream_lt hcan hg
    exact congrArg₂ (fun la lb => hashShift S.tool S.Δ.d1 la lb (runMask S w source ids (r, H) g.in0)
        (runMask S w source ids (r, H) g.in1) (runChange w w' source ids g.in0) (runChange w w' source ids g.in1))
      (hlabels g.in0 (hsrcs _ (by simp [Gate.srcs, hop]))) (hlabels g.in1 (hsrcs _ (by simp [Gate.srcs, hop])))
  obtain rfl : H = K := funext fun k => hstep k k.isLt (by rw [hmoves])
  rfl

end

/-! ### The engine in two worlds -/

/-- The evaluator sees no difference between the two worlds: their shares answer the same shares of the evaluator, and
it has changed the same masks. -/
structure GarblerWorld.Alike (w w' : GarblerWorld) : Prop where
  party : w.toPartyWorld.Alike w'.toPartyWorld
  flip : ∀ i, (w.value.getD i false ^^ w.truth.getD i false) = (w'.value.getD i false ^^ w'.truth.getD i false)

section

variable {D : Type} {S : Setup D} {w w' : GarblerWorld} {source : Body (List ℕ)} {ids : List ℕ}
  {sigma : ℕ → AShareBundle} {seed : Block} {flips : ℕ → Bool}

/-- Alike worlds hold as many wires. -/
theorem GarblerWorld.Alike.length_value (h : w.Alike w') (hw : w.Opens S.Δ) (hw' : w'.Opens S.Δ) :
    w.value.length = w'.value.length := by
  rw [← hw.masks.peer_length, ← hw'.masks.peer_length, h.party.peer]

/-- More wires whose masks open bits. -/
theorem GarblerWorld.Opens.add (hw : w.Opens S.Δ) {peer : List AShareBundle} {wires : SecureWires} {x y : List Bool}
    (pool : TriplePool) (h : MasksOpen S.Δ .alice peer wires x) (hlen : y.length = x.length) :
    (w.add pool peer wires x y).Opens S.Δ where
  masks := hw.masks.append h
  length := by simp [GarblerWorld.add, PartyWorld.add, hw.length, hlen]

/-- More wires in alike worlds, alike themselves. -/
theorem GarblerWorld.Alike.add (h : w.Alike w') (hw : w.Opens S.Δ) (hw' : w'.Opens S.Δ) {pool pool' : TriplePool}
    {peer peer' : List AShareBundle} {wires wires' : SecureWires} {x x' y y' : List Bool} (hpool : pool = pool')
    (hpeer : peer = peer') (hlambda : wires.Lambda = wires'.Lambda) (hlabel0 : wires.label0 = wires'.label0)
    (hlabel : wires.evalLabel = wires'.evalLabel)
    (hflip : ∀ i, (x.getD i false ^^ y.getD i false) = (x'.getD i false ^^ y'.getD i false)) :
    (w.add pool peer wires x y).Alike (w'.add pool' peer' wires' x' y') where
  party := by
    refine ⟨hpool, ?_, ?_, ?_, ?_⟩
    · simp only [GarblerWorld.add, PartyWorld.add, h.party.peer, hpeer]
    · simp only [GarblerWorld.add, PartyWorld.add, SecureWires.append, h.party.lambda, hlambda]
    · simp only [GarblerWorld.add, PartyWorld.add, SecureWires.append, h.party.label0, hlabel0]
    · simp only [GarblerWorld.add, PartyWorld.add, SecureWires.append, h.party.evalLabel, hlabel]
  flip i := by
    have hlen := h.length_value hw hw'
    simp only [GarblerWorld.add, PartyWorld.add]
    rw [MasksOpen.getD_append_of_length false rfl, MasksOpen.getD_append_of_length false hw.length,
      MasksOpen.getD_append_of_length false hlen.symm,
      MasksOpen.getD_append_of_length false (hw'.length.trans hlen.symm)]
    split_ifs with hlt
    · exact h.flip i
    · exact hflip _

theorem GarblerWorld.Alike.evaluatorArgs (h : w.Alike w') (ids : List ℕ) :
    evaluatorArgs w ids = evaluatorArgs w' ids := by
  have hlambda : (w.wires.gather ids).Lambda = (w'.wires.gather ids).Lambda :=
    List.map_congr_left fun i _ => h.party.lambdaAt i
  rw [AG2PC.evaluatorArgs, AG2PC.evaluatorArgs, h.party.peer, hlambda]

theorem runShares₂_alike (h : w.Alike w') : runShares₂ S w source ids = runShares₂ S w' source ids := by
  rw [runShares₂, runShares₂, h.evaluatorArgs, h.party.pool]

/-- The mask of an input is the garbler's, but for the change. -/
theorem GarblerRun.input_mask {c : RunCoins (countAnds (source.stream ids.length))} {mk : ℕ → UInt8}
    (hrun : GarblerRun S w source ids sigma seed flips c mk) (hw : w.Opens S.Δ) (hids : ∀ i ∈ ids, i < w.value.length)
    (hcan : CanonicalStream ids.length (source.stream ids.length)) {i : ℕ} (hi : i < ids.length) :
    runMask S w source ids c i = (truthy (w.wires.lambdaAt (ids.getD i 0)) ^^
      (w.value.getD (ids.getD i 0) false ^^ w.truth.getD (ids.getD i 0) false)) := by
  have hlt := hids _ (getD_mem 0 hi)
  obtain ⟨hsh₁, hsh₂⟩ := hrun.share i hi
  have hvalue : runTruth w.truth source ids i = w.truth.getD (ids.getD i 0) false := by
    rw [runTruth, evalGates_of_lt hcan _ hi, inputWires, getD_map_of_lt _ 0 _ hi]
  have hbundle₁ : (w.wires.gather ids).bundleAt i = w.wires.bundleAt (ids.getD i 0) := getD_map_of_lt _ 0 _ hi
  have hbundle₂ : (evaluatorArgs w ids).bundleAt i = w.peer.getD (ids.getD i 0) .zero := getD_map_of_lt _ 0 _ hi
  rw [runMask, trueMask, hsh₁, hsh₂, hbundle₁, hbundle₂, hvalue, hw.masks.mask _ hlt, truthy_byteOf]
  generalize shareBit _ _ = lam
  cases lam <;> cases w.value.getD (ids.getD i 0) false <;> cases w.truth.getD (ids.getD i 0) false <;> rfl

/-- The bit of the output of AND `k` is the coin drawn for it. -/
theorem runShares₁_bit (hkey : ∀ k, LSB (S.cot₂ k).key = false) (hw : w.Opens S.Δ)
    (hids : ∀ i ∈ ids, i < w.value.length) (hcan : CanonicalStream ids.length (source.stream ids.length))
    (c : RunCoins (countAnds (source.stream ids.length))) : ForGates (fun k g => g.isAnd = true →
      ∀ hk : k < countAnds (source.stream ids.length), LSB (runShares₁ S w source ids c g.out).mac = c.1 ⟨k, hk⟩) 0
      (source.stream ids.length) := by
  have hdrawn : ForGates (fun k g => g.isAnd = true → runShares₁ S w source ids c g.out = _) 0
      (source.stream ids.length) := shareOf_and (run_sharesAgree hw hids).wf₁.size hcan
  refine ForGates.imp (fun k g h hand hk => ?_) hdrawn
  rw [h hand, drawnCot₁, LSB_garblerAnswer (hkey _)]
  simp [hk]

/-- **The masks in two alike worlds** are the same when the coins move. -/
theorem runMask_alike (hkey : ∀ k, LSB (S.cot₂ k).key = false) (h : w.Alike w') (hw : w.Opens S.Δ)
    (hw' : w'.Opens S.Δ) (hfit : (EvaluatorMove.engine source ids sigma seed flips).Fits w.value.length)
    (c : RunCoins (countAnds (source.stream ids.length))) : ∀ i < ids.length + (source.stream ids.length).length,
      runMask S w source ids c i = runMask S w' source ids (movedCoins S w w' source ids sigma seed c) i := by
  have hfit' : (EvaluatorMove.engine source ids sigma seed flips).Fits w'.value.length :=
    h.length_value hw hw' ▸ hfit
  obtain ⟨_, hrun⟩ := exists_garblerRun hkey hw hfit c
  obtain ⟨_, hrun'⟩ := exists_garblerRun hkey hw' hfit' (movedCoins S w w' source ids sigma seed c)
  have hcan := hfit.2.1
  have hr := hrun'.run
  rw [← runShares₂_alike h] at hr
  have hmasks := hrun.run.masks_alike hr hcan (fun i hi => ?_) ?_
  · intro i hi
    rw [runMask, runMask, ← runShares₂_alike h]
    exact hmasks i hi
  · have hm := hrun.input_mask hw hfit.1 hcan hi
    have hm' := hrun'.input_mask hw' hfit'.1 hcan hi
    rw [runMask] at hm hm'
    rw [← runShares₂_alike h] at hm'
    rw [hm, hm', h.party.lambdaAt, h.flip]
  · have hbits := runShares₁_bit hkey hw hfit.1 hcan c
    have hbits' := runShares₁_bit hkey hw' hfit'.1 hcan (movedCoins S w w' source ids sigma seed c)
    refine ForGates.imp (fun k g hR hand => ?_) ((hbits.and hbits').and
      ((forGates_atAnds (fun _ g => runChange w w' source ids g.out) _ false).and
        (forGates_lt _ (Nat.le_of_eq (Nat.zero_add _)))))
    obtain ⟨⟨hb, hb'⟩, hchange, hk⟩ := hR
    simp only [trueMask, shareBit]
    rw [hb hand (hk hand), hb' hand (hk hand), movedCoins]
    dsimp only
    rw [hchange hand, runChange]
    cases runTruth w.truth source ids g.out <;> cases runTruth w'.truth source ids g.out <;>
      cases c.1 ⟨k, hk hand⟩ <;> cases LSB (runShares₂ S w source ids g.out).mac <;> rfl

/-- **The labels and the stream in two alike worlds** are the same when the coins move, unless labels meet. -/
theorem runLabel_alike (hσ : Function.Injective S.tool.sigma) (hkey : ∀ k, LSB (S.cot₂ k).key = false)
    (h : w.Alike w') (hw : w.Opens S.Δ) (hw' : w'.Opens S.Δ)
    (hfit : (EvaluatorMove.engine source ids sigma seed flips).Fits w.value.length)
    (c : RunCoins (countAnds (source.stream ids.length))) (hmeet : ¬ RunMeets S w source ids sigma seed c) :
    let c' := movedCoins S w w' source ids sigma seed c
    (∀ i < ids.length + (source.stream ids.length).length,
      runLabel S w source ids sigma seed c i = runLabel S w' source ids sigma seed c' i) ∧
      (runGarbled S w source ids sigma seed c).1.finish.flatten =
        (runGarbled S w' source ids sigma seed c').1.finish.flatten := by
  intro c'
  have hfit' : (EvaluatorMove.engine source ids sigma seed flips).Fits w'.value.length :=
    h.length_value hw hw' ▸ hfit
  obtain ⟨_, hrun⟩ := exists_garblerRun hkey hw hfit c
  obtain ⟨_, hrun'⟩ := exists_garblerRun hkey hw' hfit' c'
  have hcan := hfit.2.1
  have hr := hrun'.run
  rw [← runShares₂_alike h] at hr
  have hmasks := runMask_alike hkey h hw hw' hfit c
  simp only [runMask] at hmasks
  rw [← runShares₂_alike h] at hmasks
  have hhash : ForGates (fun k g => g.isAnd = true → ∀ x,
      ((MITCCRH.setS seed).advance k).hashAt (drawnTool S seed c'.2) 0 x =
        ((MITCCRH.setS seed).advance k).hashAt (drawnTool S seed c.2) 0 x ^^^
          hashShift (drawnTool S seed c.2) S.Δ.d1 (runLabel S w source ids sigma seed c g.in0)
            (runLabel S w source ids sigma seed c g.in1) (runMask S w source ids c g.in0)
            (runMask S w source ids c g.in1) (runChange w w' source ids g.in0) (runChange w w' source ids g.in1) x) 0
      (source.stream ids.length) := by
    refine ForGates.imp (fun k g hR hand x => ?_) ((forGates_hashMoves S w w' sigma seed c).and
      (forGates_lt _ (Nat.le_of_eq (Nat.zero_add _))))
    obtain ⟨hmoves, hk⟩ := hR
    rw [drawnTool_hash _ (hk hand), drawnTool_hash _ (hk hand)]
    exact congrArg (c.2 ⟨k, hk hand⟩ x ^^^ ·) (congrFun (hmoves hand) x)
  have hinput : ∀ i < ids.length,
      runLabel S w source ids sigma seed c i = runLabel S w' source ids sigma seed c' i := by
    intro i hi
    have hlabel0 : ids.map w.wires.label0At = ids.map w'.wires.label0At :=
      List.map_congr_left fun i _ => h.party.label0At i
    rw [(hrun.input i hi).1, (hrun'.input i hi).1]
    exact congrArg (fun l : List Block => l.getD i zeroBlock) hlabel0
  obtain ⟨hlabels, hentries⟩ := hrun.run.labels_alike hr hcan hσ rfl hmasks hinput hhash
    (forGates_of_mem fun _ g hg hand hm => hmeet ⟨g, hg, hand, hm⟩)
  refine ⟨hlabels, ?_⟩
  rw [← List.map_id (runGarbled S w source ids sigma seed c).1.finish.flatten,
    ← List.map_id (runGarbled S w' source ids sigma seed c').1.finish.flatten,
    map_eq_range id default hrun.length, map_eq_range id default hrun'.length, map_range_inj]
  intro k hk
  obtain ⟨g, -, hand, hentry⟩ := ForGates.exists_and hentries (Nat.zero_le k) (by omega)
  exact hentry hand

/-- The masks of a run open the values that the evaluator makes of them. -/
theorem GarblerRun.mask_eq {c : RunCoins (countAnds (source.stream ids.length))} {mk : ℕ → UInt8}
    (hrun : GarblerRun S w source ids sigma seed flips c mk) (hw : w.Opens S.Δ)
    (hfit : (EvaluatorMove.engine source ids sigma seed flips).Fits w.value.length) :
    ∀ i < ids.length + (source.stream ids.length).length,
      mk i = byteOf (runValue w.truth w.value source ids flips i ^^
        shareBit (runShares₁ S w source ids c i) (runShares₂ S w source ids i)) := by
  have hlam : ForGates (fun k g => g.isAnd = false → LambdaEqs
      (fun i => shareBit (runShares₁ S w source ids c i) (runShares₂ S w source ids i)) (fun _ => false) k g) 0
      (source.stream ids.length) := by
    refine ForGates.imp (fun k g h hand => ?_) hrun.run.lam
    cases hop : g.op <;> simp_all [LambdaEqs, Gate.isAnd]
  refine gammaEqs_forced hfit.2.1 hrun.gamma hlam (vectorSays_runVector flips c) fun i hi => ?_
  have hmask := (hw.masks.gather hfit.1).mask i (Nat.lt_of_lt_of_eq hi (List.length_map _).symm)
  rw [(hrun.input i hi).2, hmask, (hrun.share i hi).1, (hrun.share i hi).2]
  rfl

/-- Where the garbler's masks are not those of its labels, the evaluator has changed them. -/
theorem GarblerRun.flips_eq {c : RunCoins (countAnds (source.stream ids.length))} {mk : ℕ → UInt8}
    (hrun : GarblerRun S w source ids sigma seed flips c mk) (hw : w.Opens S.Δ)
    (hfit : (EvaluatorMove.engine source ids sigma seed flips).Fits w.value.length) :
    ∀ i < ids.length + (source.stream ids.length).length,
      (truthy (mk i) ^^ runMask S w source ids c i) = runFlips w.truth w.value source ids flips i := by
  intro i hi
  rw [hrun.mask_eq hw hfit i hi, truthy_byteOf, runMask, trueMask, runFlips]
  generalize shareBit _ _ = lam
  cases lam <;> cases runValue w.truth w.value source ids flips i <;> cases runTruth w.truth source ids i <;> rfl

/-- **What the garbler makes of the vector in two alike worlds**: the same masks, and of the ANDs the same witnesses,
when the evaluator is told the same cross terms. -/
theorem runChecked_alike (hkey : ∀ k, LSB (S.cot₂ k).key = false) (h : w.Alike w') (hw : w.Opens S.Δ)
    (hw' : w'.Opens S.Δ) (hfit : (EvaluatorMove.engine source ids sigma seed flips).Fits w.value.length)
    (htold : (EvaluatorMove.engine source ids sigma seed flips).told w.truth w.value =
      (EvaluatorMove.engine source ids sigma seed flips).told w'.truth w'.value)
    {c : RunCoins (countAnds (source.stream ids.length))} {mk mk' : ℕ → UInt8}
    (hrun : GarblerRun S w source ids sigma seed flips c mk)
    (hrun' : GarblerRun S w' source ids sigma seed flips (movedCoins S w w' source ids sigma seed c) mk') :
    (∀ i < ids.length + (source.stream ids.length).length, mk i = mk' i) ∧
      ∀ k < countAnds (source.stream ids.length), (runChecked S w source ids sigma seed flips c).1.M1t k =
        (runChecked S w' source ids sigma seed flips (movedCoins S w w' source ids sigma seed c)).1.M1t k := by
  have hfit' : (EvaluatorMove.engine source ids sigma seed flips).Fits w'.value.length :=
    h.length_value hw hw' ▸ hfit
  have hcan := hfit.2.1
  have hmasks := runMask_alike hkey h hw hw' hfit c
  have hvector : runVector S w source ids flips c =
      runVector S w' source ids flips (movedCoins S w w' source ids sigma seed c) :=
    atAnds_congr (forGates_of_mem fun k g hg _ => by rw [hmasks _ (canonicalStream_lt hcan hg).1])
  -- the same vector and the same inputs give the same masks
  have hmk : ∀ i < ids.length + (source.stream ids.length).length, mk i = mk' i := by
    have hinput : ∀ i < ids.length, mk i = mk' i := by
      intro i hi
      have hlambda : ids.map w.wires.lambdaAt = ids.map w'.wires.lambdaAt :=
        List.map_congr_left fun i _ => h.party.lambdaAt i
      rw [(hrun.input i hi).2, (hrun'.input i hi).2]
      exact congrArg (fun l : List UInt8 => l.getD i 0) hlambda
    have hbyte : ∀ i < ids.length, mk i = byteOf (truthy (mk i)) := fun i hi => by
      rw [hrun.mask_eq hw hfit i (Nat.lt_of_lt_of_le hi (Nat.le_add_right _ _)), truthy_byteOf]
    intro i hi
    rw [gammaEqs_said hcan hrun.gamma hbyte i hi, gammaEqs_said hcan hrun'.gamma
      (fun i hi => (hinput i hi).symm.trans (hbyte i hi)) i hi, hvector]
  refine ⟨hmk, fun k hk => ?_⟩
  have hflips : ∀ i < ids.length + (source.stream ids.length).length,
      runFlips w.truth w.value source ids flips i = runFlips w'.truth w'.value source ids flips i := fun i hi => by
    rw [← hrun.flips_eq hw hfit i hi, ← hrun'.flips_eq hw' hfit' i hi, hmk i hi, hmasks i hi]
  have hr := hrun'.run
  rw [← runShares₂_alike h] at hr
  simp only [runMask] at hmasks
  rw [← runShares₂_alike h] at hmasks
  have hcross : ForGates (fun _ g => g.isAnd = true →
      crossTerm (fun i => truthy (mk i) ^^ trueMask (runShares₁ S w source ids c) (runShares₂ S w source ids)
          (runTruth w.truth source ids) i) (runTruth w.truth source ids) g =
        crossTerm (fun i => truthy (mk i) ^^ trueMask (runShares₁ S w source ids c) (runShares₂ S w source ids)
          (runTruth w.truth source ids) i) (runTruth w'.truth source ids) g) 0 (source.stream ids.length) := by
    have hentry := forGates_atAnds (fun _ => crossTerm (runFlips w.truth w.value source ids flips)
      (runTruth w.truth source ids)) (source.stream ids.length) false
    have hentry' := forGates_atAnds (fun _ => crossTerm (runFlips w'.truth w'.value source ids flips)
      (runTruth w'.truth source ids)) (source.stream ids.length) false
    simp only [EvaluatorMove.told] at htold
    rw [← htold] at hentry'
    refine ForGates.imp (fun k g hR hand => ?_)
      ((hentry.and hentry').and (forGates_of_mem fun _ g hg => canonicalStream_lt hcan hg))
    obtain ⟨⟨he, he'⟩, -, hsrcs⟩ := hR
    have hop : g.op = .And := Gate.op_of_isAnd hand
    have h0 := hsrcs g.in0 (by simp [Gate.srcs, hop])
    have h1 := hsrcs g.in1 (by simp [Gate.srcs, hop])
    have hsame := (he hand).symm.trans (he' hand)
    have hf0 := hrun.flips_eq hw hfit _ h0
    have hf1 := hrun.flips_eq hw hfit _ h1
    rw [runMask] at hf0 hf1
    simp only [crossTerm] at hsame ⊢
    rw [← hflips _ h0, ← hflips _ h1] at hsame
    rw [hf0, hf1]
    exact hsame
  obtain ⟨g, hg, hand, ⟨hgam, hgam'⟩, hwitness⟩ := ForGates.exists_and
    ((hrun.gamma.and hrun'.gamma).and (hrun.run.witness_alike hr hcan hmasks mk hcross)) (Nat.zero_le k) (by omega)
  have hop : g.op = .And := Gate.op_of_isAnd hand
  obtain ⟨-, hsrcs⟩ := canonicalStream_lt hcan hg
  simp only [GammaEqs, hop] at hgam hgam'
  rw [hgam.2, hgam'.2, ← hmk _ (hsrcs g.in0 (by simp [Gate.srcs, hop])),
    ← hmk _ (hsrcs g.in1 (by simp [Gate.srcs, hop]))]
  exact (hwitness hand).symm

/-- **What the evaluator may hash in two alike worlds** is the same when the coins move. -/
theorem shownHashes_alike (hkey : ∀ k, LSB (S.cot₂ k).key = false) (h : w.Alike w') (hw : w.Opens S.Δ)
    (hw' : w'.Opens S.Δ) (hfit : (EvaluatorMove.engine source ids sigma seed flips).Fits w.value.length)
    (c : RunCoins (countAnds (source.stream ids.length)))
    (hlabels : ∀ i < ids.length + (source.stream ids.length).length, runLabel S w source ids sigma seed c i =
      runLabel S w' source ids sigma seed (movedCoins S w w' source ids sigma seed c) i) :
    shownHashes S w source ids sigma seed c =
      shownHashes S w' source ids sigma seed (movedCoins S w w' source ids sigma seed c) := by
  have hcan := hfit.2.1
  have hmasks := runMask_alike hkey h hw hw' hfit c
  have hpoints : hiddenPoints S w source ids sigma seed c =
      hiddenPoints S w' source ids sigma seed (movedCoins S w w' source ids sigma seed c) := by
    refine atAnds_congr (forGates_of_mem fun k g hg hand => ?_)
    have hop : g.op = .And := Gate.op_of_isAnd hand
    obtain ⟨-, hsrcs⟩ := canonicalStream_lt hcan hg
    have h0 := hsrcs g.in0 (by simp [Gate.srcs, hop])
    have h1 := hsrcs g.in1 (by simp [Gate.srcs, hop])
    simp only [hiddenPoint, hlabels _ h0, hlabels _ h1, hmasks _ h0, hmasks _ h1]
  funext k x
  rw [shownHashes, shownHashes, ← hpoints]
  split_ifs with hmem
  · rfl
  by_cases hk : k < countAnds (source.stream ids.length)
  · rw [drawnTool_crh _ hk, drawnTool_crh _ hk]
    obtain ⟨g, -, hand, hmoves, hhidden⟩ := ForGates.exists_and ((forGates_hashMoves S w w' sigma seed c).and
      (forGates_atAnds (fun _ g => [hiddenPoint S w source ids sigma seed c g.in0,
        hiddenPoint S w source ids sigma seed c g.in1]) _ [])) (Nat.zero_le k) ((Nat.zero_add _).symm ▸ hk)
    rw [hiddenPoints, hhidden hand] at hmem
    -- away from the hidden labels nothing moves
    obtain ⟨hne0, hne1⟩ : x ≠ hiddenPoint S w source ids sigma seed c g.in0 ∧
        x ≠ hiddenPoint S w source ids sigma seed c g.in1 := by simpa using hmem
    rw [movedCoins]
    dsimp only
    rw [hmoves hand, hashShift, ← hiddenPoint, ← hiddenPoint, if_neg hne0, if_neg hne1]
    simp [zeroBlock]
  · rw [drawnTool_crh_of_le _ (Nat.le_of_not_lt hk), drawnTool_crh_of_le _ (Nat.le_of_not_lt hk)]

/-- What a call leaves of two alike worlds. -/
structure GarblerStillAlike (S : Setup D) (w w' : GarblerWorld) (m : EvaluatorMove) (t t' : GarblerWorld) : Prop where
  alike : t.Alike t'
  opens : t.Opens S.Δ
  opens' : t'.Opens S.Δ
  value : t.value = w.value ++ m.values w.truth w.value
  value' : t'.value = w'.value ++ m.values w'.truth w'.value
  truth : t.truth = w.truth ++ m.truths w.truth
  truth' : t'.truth = w'.truth ++ m.truths w'.truth

/-- The masks of the outputs of a run open bits. -/
theorem runWorld_opens (hkey : ∀ k, LSB (S.cot₂ k).key = false) (hw : w.Opens S.Δ)
    (hfit : (EvaluatorMove.engine source ids sigma seed flips).Fits w.value.length)
    (c : RunCoins (countAnds (source.stream ids.length))) :
    (runWorld S w source ids sigma seed flips c).Opens S.Δ where
  masks := GarblerEngine.opens (S := { S with cot₁ := drawnCot₁ S w.pool.used c.1, tool := drawnTool S seed c.2 })
    (C := drawnStream₁ S hkey w.pool.used c.1) rfl rfl hw.masks (garblerEngine_of_call hkey hw hfit c)
  length := by simp [runWorld, GarblerWorld.add, PartyWorld.add, hw.length]

/-- **A run of the engine in two alike worlds**: when the coins move the evaluator is shown the same, and the worlds
stay alike, unless labels meet, if it is told the same cross terms. -/
theorem engineCall₁_alike (hσ : Function.Injective S.tool.sigma) (hkey : ∀ k, LSB (S.cot₂ k).key = false)
    (h : w.Alike w') (hw : w.Opens S.Δ) (hw' : w'.Opens S.Δ)
    (hfit : (EvaluatorMove.engine source ids sigma seed flips).Fits w.value.length)
    (htold : (EvaluatorMove.engine source ids sigma seed flips).told w.truth w.value =
      (EvaluatorMove.engine source ids sigma seed flips).told w'.truth w'.value)
    (c : RunCoins (countAnds (source.stream ids.length))) (hmeet : ¬ RunMeets S w source ids sigma seed c) :
    let c' := movedCoins S w w' source ids sigma seed c
    (engineCall₁ S w source ids sigma seed flips c).1 = (engineCall₁ S w' source ids sigma seed flips c').1 ∧
      GarblerStillAlike S w w' (.engine source ids sigma seed flips) (engineCall₁ S w source ids sigma seed flips c).2
        (engineCall₁ S w' source ids sigma seed flips c').2 := by
  intro c'
  have hfit' : (EvaluatorMove.engine source ids sigma seed flips).Fits w'.value.length :=
    h.length_value hw hw' ▸ hfit
  obtain ⟨mk, hrun⟩ := exists_garblerRun hkey hw hfit c
  obtain ⟨mk', hrun'⟩ := exists_garblerRun hkey hw' hfit' c'
  obtain ⟨hlabels, hstream⟩ := runLabel_alike hσ hkey h hw hw' hfit c hmeet
  obtain ⟨hmk, hwitness⟩ := runChecked_alike hkey h hw hw' hfit htold hrun hrun'
  have hhashes := shownHashes_alike hkey h hw hw' hfit c hlabels
  have hmasks := runMask_alike hkey h hw hw' hfit c
  have houts := hfit.2.2.1
  constructor
  · have hdigest : gammaDigest S.tool (runPrepared S w source ids c).numAnds
        (runChecked S w source ids sigma seed flips c).1.M1t =
        gammaDigest S.tool (runPrepared S w' source ids c').numAnds
          (runChecked S w' source ids sigma seed flips c').1.M1t := by
      rw [gammaDigest, gammaDigest, hrun.numAnds, hrun'.numAnds]
      exact congrArg _ (List.map_congr_left fun k hk => hwitness k (List.mem_range.mp hk))
    rw [engineCall₁, engineCall₁]
    dsimp only
    rw [hstream, hdigest, hhashes]
  refine ⟨?_, runWorld_opens hkey hw hfit c, runWorld_opens hkey hw' hfit' c', rfl, rfl, rfl, rfl⟩
  have hsize : (w.wires.gather ids).size = ids.length := (run_sharesAgree hw hfit.1).wf₁.size
  have hsize' : (w'.wires.gather ids).size = ids.length := (run_sharesAgree hw' hfit'.1).wf₁.size
  have hpool : (runPrepared S w source ids c).pool = (runPrepared S w' source ids c').pool := by
    rw [runPrepared, runPrepared, h.party.pool]
    exact prepare_pool (hsize'.trans hsize.symm) (hsize ▸ hfit.2.1)
  refine h.add hw hw' ?_ ?_ ?_ ?_ ?_ fun i => ?_
  · rw [hpool, hrun.numAnds, hrun'.numAnds]
  · rw [runShares₂_alike h]
  · simp only [gatherGarbler, hrun.outIds, hrun'.outIds]
    refine List.map_congr_left fun o ho => ?_
    rw [hrun.masks o ho, hrun'.masks o ho]
    exact hmk o (houts o ho)
  · simp only [gatherGarbler, hrun.outIds, hrun'.outIds]
    refine List.map_congr_left fun o ho => ?_
    rw [hrun.labels o ho, hrun'.labels o ho]
    exact hlabels o (houts o ho)
  · rw [gatherGarbler, gatherGarbler]
  -- an output has the same change of its mask
  · by_cases hi : i < (source.outs ids.length).length
    · have hlt := houts _ (getD_mem 0 hi)
      have hf := hrun.flips_eq hw hfit _ hlt
      have hf' := hrun'.flips_eq hw' hfit' _ hlt
      rw [← hmk _ hlt, ← hmasks _ hlt, hf] at hf'
      rw [getD_map_of_lt _ 0 _ hi, getD_map_of_lt _ 0 _ hi, getD_map_of_lt _ 0 _ hi, getD_map_of_lt _ 0 _ hi]
      exact hf'
    · simp [hi]

end

/-! ### The other calls in two worlds -/

section

variable {D : Type} [DecidableEq D] {S : Setup D} {w w' : GarblerWorld}

/-- **A request in two alike worlds**, with the same coins and the same inputs. -/
theorem inputsCall₁_alike (hE : Function.Injective S.tool.hash) (hkey : ∀ k, LSB (S.cot₂ k).key = false)
    (h : w.Alike w') (hw : w.Opens S.Δ) (hw' : w'.Opens S.Δ) {groups : List InputGroup} {share : List Bool}
    {V : List Block} {N : ℕ} (hfit : (EvaluatorMove.processInputs groups share V).Fits N)
    (r : Fin (inputTotal (groupBits groups .alice)) → Bool × Block)
    (hbet : ¬ Lucky S w (.processInputs groups share V) r) :
    (inputsCall₁ S w groups share V r).1 = (inputsCall₁ S w' groups share V r).1 ∧
      Alike (GarblerStillAlike S w w' (.processInputs groups share V)) (inputsCall₁ S w groups share V r).2
        (inputsCall₁ S w' groups share V r).2 := by
  obtain ⟨hshare, hV⟩ := hfit
  have hlen : ∀ f : ℕ → AShareBundle, ((List.range (inputTotal (groupBits groups .alice))).map f).length =
      inputTotal (groupBits groups .alice) := fun f => by simp
  unfold inputsCall₁
  rw [← h.party.pool]
  by_cases hn : inputTotal (groupBits groups .alice) = 0
  · have hvalue : (groups.map InputGroup.value).flatten = [] := by
      rw [← List.length_eq_zero_iff, ← flatMap_wireValue, List.length_map, length_flatMap_wires groups .alice, hn]
    simp only [if_pos hn]
    refine ⟨trivial, h, hw, hw', ?_, ?_, ?_, ?_⟩ <;>
      simp [EvaluatorMove.values, EvaluatorMove.truths, hvalue]
  simp only [if_neg hn]
  generalize hside : requestSide S.Δ groups .alice _ _ = side
  cases hreceive : side.receive S.tool ⟨share.map byteOf, S.tool.hash V, claimedBits groups .bob⟩ with
  | error e => exact ⟨rfl, rfl⟩
  | ok Lambda =>
    rw [← hside] at hreceive
    have hopen := (MasksOpen.inputs hE (length_flatMap_wires groups .alice) (hlen _) (hlen _) (fun i hi => by
      rw [getD_map_range _ _ hi, getD_map_range _ _ hi]
      exact macRel_garblerAnswer (hkey _)) hshare hV List.length_ofFn hreceive).resolve_left hbet
    have hwires : side.wires Lambda [] = side.wires Lambda (List.ofFn fun i => (r i).2) := by
      rw [← hside]
      rfl
    rw [hside, ← hwires] at hopen
    exact ⟨rfl, h.add hw hw' rfl rfl rfl rfl rfl fun _ => rfl, hw.add _ hopen rfl, hw'.add _ hopen rfl, rfl, rfl, rfl,
      rfl⟩

omit [DecidableEq D] in
/-- Alike worlds expect the same MACs. -/
theorem expMacs₁_alike (h : w.Alike w') (hw : w.Opens S.Δ) (hw' : w'.Opens S.Δ) {ids : List ℕ}
    (hids : ∀ i ∈ ids, i < w.value.length) (share : List UInt8) :
    expMacs S.tool S.Δ.d1 (w.wires.gather ids).wireBundle share =
      expMacs S.tool S.Δ.d1 (w'.wires.gather ids).wireBundle share := by
  refine expMacs_congr ?_
  simp only [SecureWires.gather, List.map_map]
  refine List.map_congr_left fun i hi => ?_
  have hrel : MacRel S.Δ (w.wires.bundleAt i) (w.peer.getD i .zero) := hw.masks.rel i (hids i hi)
  have hrel' : MacRel S.Δ (w'.wires.bundleAt i) (w'.peer.getD i .zero) :=
    hw'.masks.rel i (h.length_value hw hw' ▸ hids i hi)
  rw [← h.party.peer] at hrel'
  exact (hrel.same_key hrel').symm

omit [DecidableEq D] in
/-- Where their labels encode the same bits they hold the same shares. -/
theorem bundles_alike (h : w.Alike w') (hw : w.Opens S.Δ) (hw' : w'.Opens S.Δ) {ids : List ℕ}
    (hids : ∀ i ∈ ids, i < w.value.length)
    (hbits : ids.map (w.truth.getD · false) = ids.map (w'.truth.getD · false)) :
    (w.wires.gather ids).wireBundle = (w'.wires.gather ids).wireBundle := by
  refine List.map_congr_left fun i hi => ?_
  have hi' : i < w'.value.length := h.length_value hw hw' ▸ hids i hi
  have hrel : MacRel S.Δ (w.wires.bundleAt i) (w.peer.getD i .zero) := hw.masks.rel i (hids i hi)
  have hrel' : MacRel S.Δ (w'.wires.bundleAt i) (w'.peer.getD i .zero) := hw'.masks.rel i hi'
  have hmask := byteOf_inj
    ((hw.masks.mask i (hids i hi)).symm.trans ((h.party.lambdaAt i).trans (hw'.masks.mask i hi')))
  have hbit := List.map_inj_left.mp hbits i hi
  have hflip := h.flip i
  rw [← h.party.peer] at hrel' hmask
  refine hrel.eq_of_bit₁ hrel' ?_
  rw [hbit] at hflip
  rw [Bool.xor_left_inj.mp hflip, Bool.xor_right_inj, shareBit, shareBit, Bool.xor_left_inj] at hmask
  exact hmask

/-- **A decode in two alike worlds**: it shows the same when the bits it decodes to the evaluator are the same. -/
theorem decodeCall₁_alike (h : w.Alike w') (hw : w.Opens S.Δ) (hw' : w'.Opens S.Δ) {recipient : Owner} {ids : List ℕ}
    {share : List Bool} {V : List Block} (hids : ∀ i ∈ ids, i < w.value.length)
    (htold : (EvaluatorMove.decode recipient ids share V).told w.truth w.value =
      (EvaluatorMove.decode recipient ids share V).told w'.truth w'.value) :
    (decodeCall₁ S w recipient ids share V).1 = (decodeCall₁ S w' recipient ids share V).1 ∧
      Alike (GarblerStillAlike S w w' (.decode recipient ids share V)) (decodeCall₁ S w recipient ids share V).2
        (decodeCall₁ S w' recipient ids share V).2 := by
  have hstill : GarblerStillAlike S w w' (.decode recipient ids share V) w w' :=
    ⟨h, hw, hw', (List.append_nil _).symm, (List.append_nil _).symm, (List.append_nil _).symm, (List.append_nil _).symm⟩
  have hopening : recipient ≠ .ALICE →
      decodeSend S.tool (w.wires.gather ids) = decodeSend S.tool (w'.wires.gather ids) := fun hne => by
    rw [EvaluatorMove.told, EvaluatorMove.told, if_neg hne, if_neg hne] at htold
    rw [decodeSend, decodeSend, bundles_alike h hw hw' hids htold]
  unfold decodeCall₁
  cases recipient with
  | ALICE =>
    have hwf := (hw.masks.gather hids).wf
    have hwf' := (hw'.masks.gather (h.length_value hw hw' ▸ hids)).wf
    refine ⟨rfl, ?_⟩
    simp only [decodeAt, SecureWires.check_eq_ok hwf, SecureWires.check_eq_ok hwf', decodeReceive,
      expMacs₁_alike h hw hw' hids]
    split
    · exact rfl
    · exact hstill
  | PUBLIC => exact ⟨congrArg ShownBob.opening (hopening (by decide)), hstill⟩
  | BOB => exact ⟨congrArg ShownBob.opening (hopening (by decide)), hstill⟩
  | other n => exact ⟨congrArg ShownBob.opening (hopening (by simp)), hstill⟩

end

/-! ### Whole runs -/

/-- A call makes as many bits as wires. -/
theorem EvaluatorMove.length_values (m : EvaluatorMove) (x c : List Bool) : (m.values x c).length = m.newWires := by
  cases m with
  | publicWires bits => exact List.length_map _
  | processInputs groups _ _ =>
    rw [values, newWires, ← flatMap_wireValue, List.length_map, length_flatMap_wires groups .alice]
  | engine source ids _ _ _ => exact List.length_map _
  | decode _ _ _ _ => rfl

/-- Two alike worlds, before calls that tell the evaluator the same in both. -/
structure GarblerUntold {D : Type} (S : Setup D) (ms : List EvaluatorMove) (w w' : GarblerWorld) : Prop where
  alike : w.Alike w'
  opens : w.Opens S.Δ
  opens' : w'.Opens S.Δ
  fit : EvaluatorMove.AllFit w.value.length ms
  told : EvaluatorMove.allTold w.truth w.value ms = EvaluatorMove.allTold w'.truth w'.value ms

section

variable {D : Type} {S : Setup D} {m : EvaluatorMove} {ms : List EvaluatorMove} {w w' t t' : GarblerWorld}

/-- What a call leaves is as before it, for the calls that follow. -/
theorem GarblerUntold.next (h : GarblerUntold S (m :: ms) w w') (hstill : GarblerStillAlike S w w' m t t') :
    GarblerUntold S ms t t' where
  alike := hstill.alike
  opens := hstill.opens
  opens' := hstill.opens'
  fit := by
    rw [hstill.value, List.length_append, m.length_values]
    exact h.fit.2
  told := by
    rw [hstill.value, hstill.value', hstill.truth, hstill.truth']
    exact (List.cons.inj h.told).2

/-- There are finitely many coins of a run. -/
theorem finite_runCoins (m : ℕ) : Finite (RunCoins m) := by
  have hblock : Finite Block := Finite.of_injective BitVec.toFin fun _ _ => BitVec.toFin_inj.mp
  unfold RunCoins
  infer_instance

/-- **One call**: a permutation of its coins makes it show the same in both worlds. -/
theorem garblerCall_alike [DecidableEq D] (hσ : Function.Injective S.tool.sigma) (hE : Function.Injective S.tool.hash)
    (hkey : ∀ k, LSB (S.cot₂ k).key = false) (h : GarblerUntold S (m :: ms) w w') :
    ∃ φ : Equiv.Perm m.coins, ∀ r, ¬ Lucky S w m r →
      (garblerCall S w m r).1 = (garblerCall S w' m (φ r)).1 ∧
        Alike (GarblerUntold S ms) (garblerCall S w m r).2 (garblerCall S w' m (φ r)).2 := by
  have hnext : ∀ t t', GarblerStillAlike S w w' m t t' → GarblerUntold S ms t t' := fun _ _ hstill => h.next hstill
  obtain ⟨hfit, -⟩ := h.fit
  obtain ⟨htold, -⟩ := List.cons.inj h.told
  cases m with
  | publicWires bits =>
    refine ⟨Equiv.refl _, fun r _ => ⟨rfl, h.next ⟨?_, ?_, ?_, rfl, rfl, rfl, rfl⟩⟩⟩
    · exact h.alike.add h.opens h.opens' h.alike.party.pool rfl rfl rfl rfl fun _ => rfl
    · exact h.opens.add _ (masksOpen_publicWires S.Δ .alice bits) rfl
    · exact h.opens'.add _ (masksOpen_publicWires S.Δ .alice bits) rfl
  | processInputs groups share V =>
    refine ⟨Equiv.refl _, fun r hbet => ?_⟩
    exact (inputsCall₁_alike hE hkey h.alike h.opens h.opens' hfit r hbet).imp_right (.imp hnext)
  | engine source ids sigma seed flips =>
    have hfinite := finite_runCoins (countAnds (source.stream ids.length))
    have hinj : Function.Injective (movedCoins S w w' source ids sigma seed) := movedCoins_injective hkey h.opens hfit
    have hbij := Finite.injective_iff_bijective.mp hinj
    refine ⟨Equiv.ofBijective _ hbij, fun c hmeet => ?_⟩
    obtain ⟨hshown, hstill⟩ := engineCall₁_alike hσ hkey h.alike h.opens h.opens' hfit htold c hmeet
    exact ⟨hshown, hnext _ _ hstill⟩
  | decode recipient ids share V =>
    refine ⟨Equiv.refl _, fun r _ => ?_⟩
    exact (decodeCall₁_alike h.alike h.opens h.opens' hfit htold).imp_right (.imp hnext)

/-- **An honest garbler tells an evaluator nothing** but the bits it puts into `process_inputs`, those it decodes to it,
and of each AND the cross term of its values with the masks that the evaluator has changed, when the triples are sound
and show nothing while they are made, the evaluator's share and input bytes are bits and each run has an AND. Take two
worlds of the garbler that differ only in what the evaluator does not know, and any calls, whatever the evaluator opens
and whichever masks it changes, that tell it the same in both. A permutation of the garbler's coins carries all that the
evaluator is shown in the one world, aborts included, to what it is shown in the other, but for coins with which it bets
on `Δ₁` or the labels of an AND's operands meet. -/
theorem garbler_private [DecidableEq D] (hσ : Function.Injective S.tool.sigma) (hE : Function.Injective S.tool.hash)
    (hkey : ∀ k, LSB (S.cot₂ k).key = false) (halike : w.Alike w') (hw : w.Opens S.Δ) (hw' : w'.Opens S.Δ)
    (hfit : EvaluatorMove.AllFit w.value.length ms)
    (htold : EvaluatorMove.allTold w.truth w.value ms = EvaluatorMove.allTold w'.truth w'.value ms) :
    ∃ φ : Equiv.Perm (Coins EvaluatorMove.coins ms), ∀ r, ¬ SomeCall (garblerCall S) (Lucky S) w ms r →
      view (garblerCall S) w ms r = view (garblerCall S) w' ms (φ r) :=
  exists_coupling (I := GarblerUntold S) (fun _ _ _ _ h => garblerCall_alike hσ hE hkey h)
    ⟨halike, hw, hw', hfit, htold⟩

end

/-! ### A hidden bit -/

/-- A garbler with a bit that the evaluator does not know, and a zero; their labels do not meet. -/
def hiddenWires (b : Bool) : GarblerWorld where
  wires := garblerWires [garblerAnswer (.init 0 0) .zero b, .zero] [0, 0] [zeroBlock, 4]
  peer := [.zero, .zero]
  value := [b, false]
  truth := [b, false]

theorem hiddenWires_opens (b : Bool) : (hiddenWires b).Opens (.init 0 0) where
  masks := {
    wf := ⟨rfl, rfl, rfl⟩
    peer_length := rfl
    rel := fun i hi => by
      match i, hi with
      | 0, _ => exact macRel_garblerAnswer LSB_zeroBlock
      | 1, _ => exact (⟨by decide, by decide, by decide, by decide⟩ : MacRel (.init 0 0) .zero .zero)
    mask := fun i hi => by
      match i, hi with
      | 0, _ => cases b <;> decide
      | 1, _ => cases b <;> decide }
  length := rfl

/-- The conjunction of the two, decoded to the evaluator. -/
def hiddenMoves : List EvaluatorMove :=
  [.engine (executeProgram andProgram) [0, 1] (fun _ => .zero) zeroBlock fun _ => false, .decode .BOB [2] [] []]

theorem hiddenMoves_fit : EvaluatorMove.AllFit 2 hiddenMoves :=
  ⟨⟨by decide, andProgram_stream.1, andProgram_stream.2, fun _ => LSB_zeroBlock, by decide⟩,
    (by decide : ∀ i ∈ [2], i < 2 + 1), trivial⟩

/-- No coins of these calls are left out. -/
theorem hiddenMoves_not_lucky (r : Coins EvaluatorMove.coins hiddenMoves) :
    ¬ SomeCall (garblerCall .zeros) (Lucky .zeros) (hiddenWires false) hiddenMoves r := by
  rintro (⟨g, hg, -, c, hmeet⟩ | ⟨_, -, hdecode | ⟨_, -, hend⟩⟩)
  · obtain rfl : g = ⟨0, 1, 2, .And⟩ := List.mem_singleton.mp hg
    obtain ⟨_, hrun⟩ := exists_garblerRun (S := .zeros) (fun _ => LSB_zeroBlock) (hiddenWires_opens false)
      hiddenMoves_fit.1 r.1
    rw [(hrun.input 0 (by decide)).1, (hrun.input 1 (by decide)).1] at hmeet
    revert hmeet
    cases c <;> decide
  · exact hdecode
  · exact hend

/-- The evaluator is not told the bit. -/
theorem garbler_private_hiddenWires : ∃ φ : Equiv.Perm (Coins EvaluatorMove.coins hiddenMoves), ∀ r,
    view (garblerCall .zeros) (hiddenWires false) hiddenMoves r =
      view (garblerCall .zeros) (hiddenWires true) hiddenMoves (φ r) := by
  have halike : (hiddenWires false).Alike (hiddenWires true) :=
    ⟨⟨rfl, rfl, rfl, rfl, rfl⟩, fun i => by simp [hiddenWires]⟩
  obtain ⟨φ, hφ⟩ := garbler_private (S := .zeros) Function.injective_id Function.injective_id (fun _ => LSB_zeroBlock)
    halike (hiddenWires_opens false) (hiddenWires_opens true) hiddenMoves_fit (by decide)
  exact ⟨φ, fun r => hφ r (hiddenMoves_not_lucky r)⟩

end AG2PC
