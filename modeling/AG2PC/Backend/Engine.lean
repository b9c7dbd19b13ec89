import AG2PC.Backend.PassCtx
import AG2PC.Backend.Protocol
import AG2PC.Backend.Encoding

/-!
# The engine

`engine.h`: `run_source` drives the passes over one source at each party and exchanges, between
them, the AND triples, the ciphertext stream, the opened masks `Λ_AND` and the `c_γ` digest. The
per-party parts come first (`prepare`, `garblerSend`, `evaluatorReceive`, `garblerCheck`,
`evaluatorCheck`, the output gathers); `runSource` is a run of two honest parties, and `runProgram`
its use on a stored program.
-/

namespace AG2PC

open Library.SlotReuse

/-! ### Liveness, input load and masks -/

/-- What a party's `AG2PCRunState` holds after passes 0 and 1. -/
structure Prepared where
  /-- The output wires the source returned. -/
  outIds : List ℕ
  /-- The slot map. -/
  phys : ℕ → ℕ
  /-- `num_slots`. -/
  numSlots : ℕ
  /-- `num_ands`. -/
  numAnds : ℕ
  /-- `wire_slot` and `mask_input`. -/
  mem : ℕ → MaskSlot
  /-- `rep_a`. -/
  repA : ℕ → AShareBundle
  /-- `rep_b`. -/
  repB : ℕ → AShareBundle
  /-- The party's pool. -/
  pool : TriplePool

/-- The inputs in their slots. -/
def loadInputs (w : SecureWires) : ℕ → MaskSlot := fun a => ⟨w.bundleAt a, w.lambdaAt a⟩

/-- Passes 0 and 1 of a party. -/
def prepare (cot : ℕ → AShareBundle) (w : SecureWires) (pool : TriplePool) (source : Body (List ℕ)) :
    Prepared :=
  let n := w.size
  let lp := livenessPass.runSource n source (.start n)
  let lv := lp.2.s.commit lp.2.wid lp.1
  let sp := (slotMaskPass cot lv.lastUse lv.persist).runSource n source
    { alloc := .start n, globals := { pool := pool }, mem := loadInputs w }
  { outIds := lp.1, phys := sp.2.s.alloc.phys, numSlots := sp.2.s.alloc.numSlots
    numAnds := sp.2.s.globals.ai, mem := sp.2.s.mem, repA := sp.2.s.globals.repA
    repB := sp.2.s.globals.repB, pool := sp.2.s.globals.pool }

/-! ### Garble, evaluate and `c_γ` -/

section

variable {D : Type} (E : EmpTool D)

/-- The garble pass of the garbler. -/
def garblerSend (Δ seed : Block) (sigma : ℕ → AShareBundle) (P : Prepared) (w : SecureWires)
    (source : Body (List ℕ)) : GarbleGlobals × (ℕ → GarbleSlot) :=
  ((machinePass (garbleMachine E Δ sigma) P.phys).runSource w.size source
    ({ mitc := .setS seed }, fun a => ⟨(P.mem a).share, w.label0At a⟩)).2.s

/-- The evaluate pass of the evaluator, on the stream it receives. -/
def evaluatorReceive (Δ seed : Block) (sigma : ℕ → AShareBundle) (P : Prepared) (w : SecureWires)
    (source : Body (List ℕ)) (wire : List StreamEntry) : EvalGlobals × (ℕ → EvalSlot) :=
  ((machinePass (evaluateMachine E Δ sigma) P.phys).runSource w.size source
    ({ mitc := .setS seed, inbox := recvChunks P.numAnds wire },
      fun a => ⟨(P.mem a).share, w.evalLabelAt a, (P.mem a).mask⟩)).2.s

/-- The `Λ_AND` the evaluator sends. -/
def sendLambda (numAnds : ℕ) (e : EvalGlobals) : List Bool :=
  (List.range numAnds).map fun k => truthy (e.LambdaAND k)

/-- The gamma check pass of the garbler, on the `Λ_AND` it receives. -/
def garblerCheck (sigma : ℕ → AShareBundle) (P : Prepared) (w : SecureWires) (source : Body (List ℕ))
    (mem : ℕ → MaskSlot) (LambdaAND : List Bool) : GammaGlobals × (ℕ → MaskSlot) :=
  ((machinePass (gammaMachine sigma fun k => byteOf (LambdaAND.getD k false)) P.phys).runSource w.size
    source ({}, mem)).2.s

/-- The digest of the first `num_ands` entries of `M1_t`. -/
def gammaDigest (numAnds : ℕ) (M1t : ℕ → Block) : D := E.hash ((List.range numAnds).map M1t)

/-- The evaluator's comparison of the two `c_γ` digests. -/
def evaluatorCheck [DecidableEq D] (numAnds : ℕ) (e : EvalGlobals) (digest : D) : Except String Unit :=
  if gammaDigest E numAnds e.M1t ≠ digest then .error "lambda c_gamma check failed" else .ok ()

/-- `evaluator_path_`, on the stream and the digest it receives. -/
def evaluatorPath [DecidableEq D] (Δ seed : Block) (sigma : ℕ → AShareBundle) (P : Prepared)
    (w : SecureWires) (source : Body (List ℕ)) (wire : List StreamEntry) (digest : D) :
    Except String (EvalGlobals × (ℕ → EvalSlot)) := do
  let e := evaluatorReceive E Δ seed sigma P w source wire
  if 0 < P.numAnds then evaluatorCheck E P.numAnds e.1 digest
  return e

end

/-- The garbler's shares and masks when the garble pass is done. -/
def garblerSlots (P : Prepared) (mem : ℕ → GarbleSlot) : ℕ → MaskSlot :=
  fun a => ⟨(mem a).share, (P.mem a).mask⟩

/-- The garbler's outputs. -/
def gatherGarbler (P : Prepared) (labels : ℕ → GarbleSlot) (mem : ℕ → MaskSlot) : SecureWires where
  Lambda := P.outIds.map fun id => (mem (P.phys id)).mask
  wireBundle := P.outIds.map fun id => (mem (P.phys id)).share
  label0 := P.outIds.map fun id => (labels (P.phys id)).label

/-- The evaluator's outputs. -/
def gatherEvaluator (P : Prepared) (mem : ℕ → EvalSlot) : SecureWires where
  Lambda := P.outIds.map fun id => (mem (P.phys id)).mask
  wireBundle := P.outIds.map fun id => (mem (P.phys id)).share
  evalLabel := P.outIds.map fun id => (mem (P.phys id)).label

/-! ### A run of two honest parties -/

/-- What an execution fixes: emp-tool's functions, the two `Δ`, the COT outputs at the two parties,
the random values and the statistical parameter. -/
structure Setup (D : Type) where
  /-- The functions from emp-tool. -/
  tool : EmpTool D
  /-- The two `Δ`. -/
  Δ : Deltas
  /-- The garbler's COT outputs. -/
  cot₁ : ℕ → AShareBundle
  /-- The evaluator's COT outputs. -/
  cot₂ : ℕ → AShareBundle
  /-- The values drawn at run time. -/
  tape : Tape
  /-- `ssp`. -/
  ssp : ℕ

section

variable {D : Type} [DecidableEq D] (S : Setup D)

/-- `garbler_path_` and `evaluator_path_` after the ciphertext stream: the exchange of `Λ_AND` and
the digest when there are ANDs. The result is the garbler's final shares and masks. -/
def gammaExchange (σ₁ : ℕ → AShareBundle) (P₁ P₂ : Prepared) (w₁ : SecureWires) (source : Body (List ℕ))
    (mem : ℕ → MaskSlot) (e : EvalGlobals) : Except String (ℕ → MaskSlot) :=
  if 0 < P₁.numAnds then do
    let c := garblerCheck σ₁ P₁ w₁ source mem (sendLambda P₂.numAnds e)
    evaluatorCheck S.tool P₂.numAnds e (gammaDigest S.tool P₁.numAnds c.1.M1t)
    return c.2
  else return mem

/-- `run_source` at both parties. -/
def runSource (source : Body (List ℕ)) (w₁ w₂ : SecureWires) (st : ProtoState) :
    Except String ((SecureWires × SecureWires) × ProtoState) := do
  let P₁ := prepare S.cot₁ w₁ st.pool₁ source
  let P₂ := prepare S.cot₂ w₂ st.pool₂ source
  let (σ, t) ← computeInplace S.tool S.Δ S.cot₁ S.cot₂ S.ssp (S.tape.shift st.runs)
    (S.tape.nonce st.runs) P₁.numAnds P₁.repA P₁.repB P₂.repA P₂.repB P₁.pool P₂.pool
  let g := garblerSend S.tool S.Δ.d1 (S.tape.seed st.runs) σ.1 P₁ w₁ source
  let e := evaluatorReceive S.tool S.Δ.d2 (S.tape.seed st.runs) σ.2 P₂ w₂ source g.1.finish.flatten
  let mem ← gammaExchange S σ.1 P₁ P₂ w₁ source (garblerSlots P₁ g.2) e.1
  return ((gatherGarbler P₁ g.2 mem, gatherEvaluator P₂ e.2),
    { st with pool₁ := t.1.maybeFlushCotCheck, pool₂ := t.2.maybeFlushCotCheck, runs := st.runs + 1 })

/-- `run_program` at both parties. -/
def runProgram (prog : BooleanProgram) (w₁ w₂ : SecureWires) (st : ProtoState) :
    Except String ((SecureWires × SecureWires) × ProtoState) := do
  ag2pcRequireRecordCanonical prog
  w₁.check .alice "run_program inputs"
  w₂.check .bob "run_program inputs"
  if w₁.size ≠ prog.numInputs ∨ w₂.size ≠ prog.numInputs then
    .error "run_program: input bundle width != program num_inputs"
  else runSource S (executeProgram prog) w₁ w₂ st

end

end AG2PC
