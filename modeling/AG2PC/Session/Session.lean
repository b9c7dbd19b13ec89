import AG2PC.Backend.Engine
import AG2PC.Backend.FlushPlan
import AG2PC.Session.Ctx

/-!
# The session

`ag2pc_session.h` at the two parties. They make the same calls in the same order, so what depends on the
calls only is kept once: the recorder, the batches, and which ids are materialized. What is secret is kept
once a party: the carried state of a materialized id, and the bits of an input. The typed values are lists of
recorder ids, and a clear value the list of its bits.

The engine and the input phase come as a `Backend`, of which `Backend.real` is the one of this repository; the
output decode and the public constants are the real ones throughout.

* `Session.step` — one operation of the interface.
* `SessionOp` — the operations: inputs and batches, direct gates, the three ways to run, checkpoint, reveal.
-/

namespace AG2PC

open Library.Runs

/-! ### The protocol below -/

/-- What the session calls: emp-tool's functions, the two `Δ`, the input phase and the engine, over a state
`σ` of their own. -/
structure Backend (D σ : Type) where
  /-- The functions from emp-tool. -/
  tool : EmpTool D
  /-- The two `Δ`. -/
  Δ : Deltas
  /-- `process_inputs` at both parties. -/
  processInputs : List Owner → List (List UInt8) → List (List UInt8) → σ →
    Except String ((List SecureWires × List SecureWires) × σ)
  /-- `run_program` at both parties. -/
  runProgram : BooleanProgram → SecureWires → SecureWires → σ → Except String ((SecureWires × SecureWires) × σ)
  /-- `run_source` at both parties. -/
  runSource : Body (List ℕ) → SecureWires → SecureWires → σ → Except String ((SecureWires × SecureWires) × σ)

/-- The protocol and the engine of this repository. -/
def Backend.real {D : Type} [DecidableEq D] (S : Setup D) : Backend D ProtoState where
  tool := S.tool
  Δ := S.Δ
  processInputs := AG2PC.processInputs S.tool S.Δ S.cot₁ S.cot₂ S.tape
  runProgram := AG2PC.runProgram S
  runSource := AG2PC.runSource S

/-! ### Carried state -/

/-- `CarriedState`. -/
structure CarriedState where
  /-- The share. -/
  bundle : AShareBundle := .zero
  /-- The opened mask. -/
  Lambda : UInt8 := 0
  /-- `m_{w,0}`, at the garbler. -/
  label0 : Block := zeroBlock
  /-- `m_{w,Λ}`, at the evaluator. -/
  evlbl : Block := zeroBlock
  deriving DecidableEq

/-- `carry_load_` of wire `i`. -/
def CarriedState.load (c : CarriedState) (party : Party) (s : SecureWires) (i : ℕ) : CarriedState :=
  match party with
  | .alice => { c with Lambda := s.lambdaAt i, bundle := s.bundleAt i, label0 := s.label0At i }
  | .bob => { c with Lambda := s.lambdaAt i, bundle := s.bundleAt i, evlbl := s.evalLabelAt i }

/-- The carried state of an id at the garbler and at the evaluator. -/
structure Carried where
  /-- At the garbler. -/
  alice : CarriedState := {}
  /-- At the evaluator. -/
  bob : CarriedState := {}
  deriving DecidableEq

/-- `carry_load_` at both parties. -/
def Carried.load (c : Carried) (w₁ w₂ : SecureWires) (i : ℕ) : Carried :=
  ⟨c.alice.load .alice w₁ i, c.bob.load .bob w₂ i⟩

/-- The loop over `carry_load_(carried_[ids[i]], bundle, i)`. -/
def carryLoad (ids : List ℕ) (w₁ w₂ : SecureWires) (carried : ℕ → Option Carried) : ℕ → Option Carried :=
  (List.range ids.length).foldl (fun m i =>
    Function.update m (ids.getD i 0) (some (((m (ids.getD i 0)).getD {}).load w₁ w₂ i))) carried

/-- The bundle `gather_carried_` fills with `carry_store_`. -/
def carryStore (party : Party) (cs : List CarriedState) : SecureWires where
  Lambda := cs.map CarriedState.Lambda
  wireBundle := cs.map CarriedState.bundle
  label0 := match party with
    | .alice => cs.map CarriedState.label0
    | .bob => []
  evalLabel := match party with
    | .alice => []
    | .bob => cs.map CarriedState.evlbl

/-! ### Inputs -/

/-- An input as both parties pass it: the type, hence the width, is the same, and so is a public value. -/
structure ClearInput where
  /-- Whose input it is. -/
  owner : Owner
  /-- The bits the garbler passes. -/
  alice : List Bool
  /-- The bits the evaluator passes. -/
  bob : List Bool
  width_eq : alice.length = bob.length
  public_eq : owner = .PUBLIC → alice = bob

/-- A private input of one party, wire by wire the bits the garbler and the evaluator pass. -/
def ClearInput.secret (p : Party) (bits : List (Bool × Bool)) : ClearInput where
  owner := .ofParty p
  alice := bits.map Prod.fst
  bob := bits.map Prod.snd
  width_eq := by rw [List.length_map, List.length_map]
  public_eq := by cases p <;> exact nofun

/-- A public input. -/
def ClearInput.shared (bits : List Bool) : ClearInput where
  owner := .PUBLIC
  alice := bits
  bob := bits
  width_eq := rfl
  public_eq := fun _ => rfl

/-- The number of wires. -/
def ClearInput.width (x : ClearInput) : ℕ := x.alice.length

/-- The bits that count: the owner's. -/
def ClearInput.value (x : ClearInput) : List Bool :=
  match x.owner with
  | .BOB => x.bob
  | _ => x.alice

/-- The encoded bits as the protocol takes them. -/
def encodeBits (bits : List Bool) : List UInt8 := bits.map byteOf

/-- One `add` of a batch: an entry of `owners_`, `bits_` and `ids_`. -/
structure BatchAdd where
  /-- The input added. -/
  input : ClearInput
  /-- The ids reserved for it. -/
  ids : List ℕ

/-- `InputBatch`. -/
structure InputBatch where
  /-- The additions. -/
  adds : List BatchAdd := []
  /-- `finished_`. -/
  finished : Bool := false

/-- A pure body over `n` input wires: it reads and returns wires it was given. -/
structure PureBody (n : ℕ) where
  /-- The gate calls. -/
  body : Body (List ℕ)
  wellScoped : body.WellScoped n none none
  outs_lt : ∀ o ∈ (body.record n none none).2, o < n + (body.record n none none).1.length

/-! ### The state -/

/-- `AG2PCSession` at the two parties. -/
structure Session (σ : Type) where
  /-- The gate context. -/
  ctx : AG2PCCtx := {}
  /-- `carried_`. -/
  carried : ℕ → Option Carried := fun _ => none
  /-- The batches the program has made. -/
  batches : List InputBatch := []
  /-- The state below the session. -/
  proto : σ

/-- What an operation returns. -/
inductive Output where
  /-- Nothing. -/
  | none
  /-- A value, as its ids. -/
  | value (ids : List ℕ)
  /-- What `reveal` returns at the garbler and at the evaluator. -/
  | revealed (alice bob : Option (List Bool))
  deriving DecidableEq

namespace Session

variable {D σ : Type} (s : Session σ)

/-- `carried_.count(id)`. -/
def isCarried (id : ℕ) : Bool := (s.carried id).isSome

/-- `gather_carried_`. -/
def gatherCarried (ids : List ℕ) : Except String (SecureWires × SecureWires) :=
  if ids.all s.isCarried then
    let cs := ids.map fun id => (s.carried id).getD {}
    .ok (carryStore .alice (cs.map Carried.alice), carryStore .bob (cs.map Carried.bob))
  else .error "AG2PCSession: wire has no carried state (stale, or unflushed pending wire)"

/-- `materialize_into_`. -/
def materializeInto (ids : List ℕ) (w : SecureWires × SecureWires) : Except String (Session σ) :=
  if w.1.size ≠ ids.length ∨ w.2.size ≠ ids.length then .error "AG2PCSession: materialize width mismatch"
  else .ok { s with carried := carryLoad ids w.1 w.2 s.carried }

/-- `materialize_`. -/
def materialize (w : SecureWires × SecureWires) : Except String (List ℕ × Session σ) := do
  let (ids, ctx) ← s.ctx.reserveIds w.1.size
  let s ← { s with ctx := ctx }.materializeInto ids w
  return (ids, s)

/-- `append_arg_`, on the bundle so far. -/
def appendArg (bundle : SecureWires × SecureWires) (ids : List ℕ) : Except String (SecureWires × SecureWires) :=
  if !ids.all s.isCarried then
    .error "AG2PCSession::run: argument is unflushed — checkpoint it first; cross-mode mixing not yet supported"
  else do
    let w ← s.gatherCarried ids
    return (bundle.1.append w.1, bundle.2.append w.2)

/-- The arguments of a run, one after another. -/
def appendArgs : SecureWires × SecureWires → List (List ℕ) → Except String (SecureWires × SecureWires)
  | bundle, [] => .ok bundle
  | bundle, ids :: args => do
    let bundle ← s.appendArg bundle ids
    appendArgs bundle args

/-- The part of `flush_` before any crypto runs: the plan, or none when no keep id is pending. -/
def flushCheck (keepIds : List ℕ) : Except String (Option FlushPlan) :=
  if keepIds.any fun id => !s.ctx.isPending id && !s.isCarried id then
    .error "AG2PCSession: keep/reveal wire is stale"
  else if !keepIds.any s.ctx.isPending then .ok none
  else
    let plan := planFlush s.ctx.chunkGates keepIds s.isCarried
    if !plan.ok then .error "AG2PCSession::flush: gate operand has no carried state (stale wire)"
    else .ok (some plan)

variable (B : Backend D σ)

/-- `flush_`. -/
def flush (keepIds : List ℕ) : Except String (Session σ) := do
  match ← s.flushCheck keepIds with
  | none => return { s with ctx := s.ctx.dropChunk }
  | some plan =>
    let w ← s.gatherCarried plan.inputIds
    let (out, proto) ← B.runProgram plan.prog w.1 w.2 s.proto
    return { s with ctx := s.ctx.dropChunk, carried := carryLoad plan.outputIds out.1 out.2 s.carried, proto := proto }

/-- `authenticate_`. -/
def authenticate (x : ClearInput) : Except String ((SecureWires × SecureWires) × Session σ) :=
  match x.owner with
  | .PUBLIC => .ok ((publicWires .alice B.Δ.d1 (encodeBits x.alice), publicWires .bob B.Δ.d2 (encodeBits x.bob)), s)
  | .ALICE | .BOB => do
    let (subs, proto) ← B.processInputs [x.owner] [encodeBits x.alice] [encodeBits x.bob] s.proto
    return ((subs.1.getD 0 {}, subs.2.getD 0 {}), { s with proto := proto })
  | .other _ => .error "AG2PCSession::input: owner must be ALICE, BOB, or PUBLIC"

/-- `input`. -/
def input (x : ClearInput) : Except String (List ℕ × Session σ) := do
  let (bundle, s) ← s.authenticate B x
  s.materialize bundle

/-- `InputBatch::add` on batch number `b`. -/
def batchAdd (b : ℕ) (x : ClearInput) : Except String (List ℕ × Session σ) :=
  match s.batches[b]? with
  | none => .error "no such batch"
  | some batch =>
    if batch.finished then .error "AG2PCSession::input_batch: add() after finish()"
    else do
      let (ids, ctx) ← s.ctx.reserveIds x.width
      return (ids, { s with ctx := ctx, batches := s.batches.set b { batch with adds := batch.adds ++ [⟨x, ids⟩] } })

/-- The loop of `batch_finish_` over the additions: the public ones are materialized, the others collected. -/
def finishPublic : Session σ → List BatchAdd → Except String (List BatchAdd × Session σ)
  | s, [] => .ok ([], s)
  | s, a :: adds =>
    match a.input.owner with
    | .PUBLIC => do
      let s ← s.materializeInto a.ids
        (publicWires .alice B.Δ.d1 (encodeBits a.input.alice), publicWires .bob B.Δ.d2 (encodeBits a.input.bob))
      finishPublic s adds
    | .ALICE | .BOB => do
      let (sec, s) ← finishPublic s adds
      return (a :: sec, s)
    | .other _ => .error "AG2PCSession::input_batch: owner must be ALICE, BOB, or PUBLIC"

/-- The loop of `batch_finish_` over the groups of `process_inputs`, from group `j` on. -/
def finishSecret (subs : List SecureWires × List SecureWires) : ℕ → Session σ → List BatchAdd → Except String (Session σ)
  | _, s, [] => .ok s
  | j, s, a :: adds => do
    let s ← s.materializeInto a.ids (subs.1.getD j {}, subs.2.getD j {})
    finishSecret subs (j + 1) s adds

/-- `batch_finish_`. -/
def batchFinish_ (adds : List BatchAdd) : Except String (Session σ) := do
  let (sec, s) ← s.finishPublic B adds
  if sec.isEmpty then return s
  else do
    let (subs, proto) ← B.processInputs (sec.map fun a => a.input.owner)
      (sec.map fun a => encodeBits a.input.alice) (sec.map fun a => encodeBits a.input.bob) s.proto
    finishSecret subs 0 { s with proto := proto } sec

/-- `InputBatch::finish` on batch number `b`. -/
def batchFinish (b : ℕ) : Except String (Session σ) :=
  match s.batches[b]? with
  | none => .error "no such batch"
  | some batch =>
    if batch.finished then .error "AG2PCSession::input_batch: finish() called twice"
    else { s with batches := s.batches.set b { batch with finished := true } }.batchFinish_ B batch.adds

/-- `run(circuit, args...)`. -/
def runCircuit (prog : BooleanProgram) (args : List (List ℕ)) : Except String (List ℕ × Session σ) := do
  let bundle ← s.appendArgs ({}, {}) args
  if bundle.1.size ≠ prog.numInputs then .error "AG2PCSession::run: total argument width != circuit input count"
  else do
    let (out, proto) ← B.runProgram prog bundle.1 bundle.2 s.proto
    { s with proto := proto }.materialize out

/-- `run(body, args...)`. -/
def runBody (args : List (List ℕ)) (body : Body (List ℕ)) : Except String (List ℕ × Session σ) := do
  let bundle ← s.appendArgs ({}, {}) args
  let (out, proto) ← B.runSource body bundle.1 bundle.2 s.proto
  { s with proto := proto }.materialize out

/-- `run_artifact<RetV>(prog, args...)`, `retWidth` being `RetV::width()`. -/
def runArtifact (retWidth : ℕ) (prog : BooleanProgram) (args : List (List ℕ)) :
    Except String (List ℕ × Session σ) := do
  let bundle ← s.appendArgs ({}, {}) args
  if bundle.1.size ≠ prog.numInputs then
    .error "AG2PCSession::run_artifact: total argument width != program num_inputs"
  else if retWidth ≠ prog.outputs.length then
    .error "AG2PCSession::run_artifact: RetV width != program output count"
  else do
    let (out, proto) ← B.runProgram prog bundle.1 bundle.2 s.proto
    { s with proto := proto }.materialize out

/-- `checkpoint(keep...)`. -/
def checkpoint (keep : List (List ℕ)) : Except String (Session σ) := do
  let s ← s.flush B keep.flatten
  return { s with carried := fun id => if id ∈ keep.flatten then s.carried id else none }

/-- What `reveal` makes of the decoded bytes: `nullopt` when their number is not the width. -/
def revealResult (width : ℕ) (bits : List UInt8) : Option (List Bool) :=
  if bits.length ≠ width then none else some (bits.map truthy)

/-- The part of `reveal` before `decode`: the state `decode` is called in, and the bundles it is called on. -/
def revealFlush (v : List ℕ) (recipient : Owner) (keep : List (List ℕ)) :
    Except String ((SecureWires × SecureWires) × Session σ) :=
  match recipient with
  | .other _ =>
    .error "AG2PCSession::reveal: recipient must be PUBLIC, ALICE, or BOB (XOR-share reveal is not supported)"
  | .PUBLIC | .ALICE | .BOB => do
    let s ← s.flush B (v ++ keep.flatten)
    let bundle ← s.gatherCarried v
    return (bundle, s)

/-- `reveal(v, recipient, keep...)`. -/
def reveal [DecidableEq D] (v : List ℕ) (recipient : Owner) (keep : List (List ℕ)) :
    Except String ((Option (List Bool) × Option (List Bool)) × Session σ) := do
  let (bundle, s) ← s.revealFlush B v recipient keep
  let bits ← decode B.tool B.Δ bundle.1 bundle.2 recipient
  return ((revealResult v.length bits.1, revealResult v.length bits.2), s)

end Session

/-! ### Operations -/

/-- The operations of the interface. -/
inductive SessionOp where
  /-- `input`. -/
  | input (x : ClearInput)
  /-- `input_batch`. -/
  | inputBatch
  /-- `add` on a batch. -/
  | batchAdd (b : ℕ) (x : ClearInput)
  /-- `finish` on a batch. -/
  | batchFinish (b : ℕ)
  /-- `public_bit` on the gate context. -/
  | publicBit (v : Bool)
  /-- `and_gate`. -/
  | andGate (a b : ℕ)
  /-- `xor_gate`. -/
  | xorGate (a b : ℕ)
  /-- `not_gate`. -/
  | notGate (a : ℕ)
  /-- `run` of a stored circuit. -/
  | runCircuit (prog : BooleanProgram) (args : List (List ℕ))
  /-- `run` of a live body, which takes the arguments' wires. -/
  | runBody (args : List (List ℕ)) (body : PureBody args.flatten.length)
  /-- `run_artifact`. -/
  | runArtifact (retWidth : ℕ) (prog : BooleanProgram) (args : List (List ℕ))
  /-- `checkpoint`. -/
  | checkpoint (keep : List (List ℕ))
  /-- `reveal`. -/
  | reveal (v : List ℕ) (recipient : Owner) (keep : List (List ℕ))

/-- One operation: what it returns, and the session after it. -/
def Session.step {D σ : Type} [DecidableEq D] (B : Backend D σ) (s : Session σ) :
    SessionOp → Except String (Output × Session σ)
  | .input x => (s.input B x).map fun r => (.value r.1, r.2)
  | .inputBatch => .ok (.none, { s with batches := s.batches ++ [{}] })
  | .batchAdd b x => (s.batchAdd b x).map fun r => (.value r.1, r.2)
  | .batchFinish b => (s.batchFinish B b).map fun s => (.none, s)
  | .publicBit v => (s.ctx.publicBit v).map fun r => (.value [r.1], { s with ctx := r.2 })
  | .andGate a b => (s.ctx.andGate a b).map fun r => (.value [r.1], { s with ctx := r.2 })
  | .xorGate a b => (s.ctx.xorGate a b).map fun r => (.value [r.1], { s with ctx := r.2 })
  | .notGate a => (s.ctx.notGate a).map fun r => (.value [r.1], { s with ctx := r.2 })
  | .runCircuit prog args => (s.runCircuit B prog args).map fun r => (.value r.1, r.2)
  | .runBody args body => (s.runBody B args body.body).map fun r => (.value r.1, r.2)
  | .runArtifact retWidth prog args => (s.runArtifact B retWidth prog args).map fun r => (.value r.1, r.2)
  | .checkpoint keep => (s.checkpoint B keep).map fun s => (.none, s)
  | .reveal v recipient keep => (s.reveal B v recipient keep).map fun r => (.revealed r.1.1 r.1.2, r.2)

/-- A session at its start. -/
def Session.start {σ : Type} (proto : σ) : Session σ := { proto := proto }

end AG2PC
