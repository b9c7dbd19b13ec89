import AG2PC.Library.SlotReuse

/-!
# Programs, bodies and the record-canonical check

The gates of emp-tool's circuit representation, as far as this repository uses them: the stored
`BooleanProgram`, its cleartext evaluation, `validate_program`, the replay `execute_program`, and
`canonical.h`'s check that wire numbers are those a recorder hands out. A live body is any program
that calls the four gate operations of a context; a recording is the list of gates it makes a fresh
context emit, constants once each. Wire ids, `uint32_t` in the code,
are natural numbers.
-/

namespace AG2PC

open Library.SlotReuse

/-- `circuit::Op`. -/
inductive Op where
  /-- Conjunction. -/
  | And
  /-- Exclusive-or. -/
  | Xor
  /-- Negation of the first operand. -/
  | Not
  /-- The constant 0. -/
  | Const0
  /-- The constant 1. -/
  | Const1
  deriving DecidableEq, Repr

/-- `circuit::Gate`. -/
structure Gate where
  /-- The first operand. -/
  in0 : ℕ
  /-- The second operand. -/
  in1 : ℕ
  /-- The wire written. -/
  out : ℕ
  /-- The operation. -/
  op : Op
  deriving DecidableEq, Repr

namespace Gate

/-- `is_const`. -/
def isConst (g : Gate) : Bool :=
  match g.op with
  | .Const0 | .Const1 => true
  | .And | .Xor | .Not => false

/-- `is_not`. -/
def isNot (g : Gate) : Bool :=
  match g.op with
  | .Not => true
  | .And | .Xor | .Const0 | .Const1 => false

/-- Whether the gate is an AND. -/
def isAnd (g : Gate) : Bool :=
  match g.op with
  | .And => true
  | .Xor | .Not | .Const0 | .Const1 => false

theorem op_of_isAnd {g : Gate} (h : g.isAnd = true) : g.op = .And := by
  cases hop : g.op <;> simp_all [isAnd]

/-- The wires a gate reads. -/
def srcs (g : Gate) : List ℕ :=
  match g.op with
  | .And | .Xor => [g.in0, g.in1]
  | .Not => [g.in0]
  | .Const0 | .Const1 => []

/-- The bit a gate computes from the bits of its operands. -/
def value (g : Gate) (v : ℕ → Bool) : Bool :=
  match g.op with
  | .And => v g.in0 && v g.in1
  | .Xor => v g.in0 ^^ v g.in1
  | .Not => !v g.in0
  | .Const0 => false
  | .Const1 => true

/-- The gate with the operand fields it does not use cleared, as a recorder writes them. -/
def normalize (g : Gate) : Gate :=
  match g.op with
  | .And | .Xor => g
  | .Not => { g with in1 := 0 }
  | .Const0 | .Const1 => { g with in0 := 0, in1 := 0 }

@[simp] theorem normalize_out (g : Gate) : g.normalize.out = g.out := by
  cases hg : g.op <;> simp [normalize, hg]

@[simp] theorem normalize_op (g : Gate) : g.normalize.op = g.op := by
  cases hg : g.op <;> simp [normalize, hg]

@[simp] theorem normalize_srcs (g : Gate) : g.normalize.srcs = g.srcs := by
  cases hg : g.op <;> simp [normalize, srcs, hg]

@[simp] theorem normalize_value (g : Gate) (v : ℕ → Bool) : g.normalize.value v = g.value v := by
  cases hg : g.op <;> simp [normalize, value, hg]

/-- A gate's value depends on its operands only. -/
theorem value_congr {g : Gate} {v v' : ℕ → Bool} (h : ∀ w ∈ g.srcs, v w = v' w) :
    g.value v = g.value v' := by
  cases hg : g.op <;> simp_all [value, srcs]

end Gate

/-- The gates as instructions: an AND's output share is already in its register when the gate is
garbled or evaluated. -/
def gateLayout : Layout Gate := ⟨Gate.out, Gate.srcs, Gate.isAnd⟩

/-- The number of ANDs of a list of gates. -/
def countAnds (gs : List Gate) : ℕ := gs.countP Gate.isAnd

/-! ### Stored programs -/

/-- `circuit::BooleanProgram`. -/
structure BooleanProgram where
  /-- The number of input wires, which are `0`, …, `num_inputs - 1`. -/
  numInputs : ℕ
  /-- The number of wires. -/
  numWires : ℕ
  /-- The gates, in order. -/
  gates : List Gate
  /-- The output wires. -/
  outputs : List ℕ
  deriving DecidableEq, Repr

/-- The wires after evaluating gates one by one. -/
def evalGates (v : ℕ → Bool) (gs : List Gate) : ℕ → Bool :=
  gs.foldl (fun v g => Function.update v g.out (g.value v)) v

@[simp] theorem evalGates_nil (v : ℕ → Bool) : evalGates v [] = v := rfl

@[simp] theorem evalGates_cons (v : ℕ → Bool) (g : Gate) (gs : List Gate) :
    evalGates v (g :: gs) = evalGates (Function.update v g.out (g.value v)) gs := rfl

/-- The input wires carrying the bits `x`. -/
def inputWires (x : List Bool) : ℕ → Bool := fun w => x.getD w false

/-- The cleartext evaluation of a program. -/
def BooleanProgram.eval (p : BooleanProgram) (x : List Bool) : List Bool :=
  p.outputs.map (evalGates (inputWires x) p.gates)

/-- The gates define wires of `defined` or earlier ones before reading them, and each wire once,
within `[lo, hi)`. -/
def definesBeforeUse (lo hi : ℕ) : List ℕ → List Gate → Bool
  | _, [] => true
  | defined, g :: gs =>
    (g.srcs.all fun w => w < lo || w ∈ defined) && (lo ≤ g.out && g.out < hi) &&
      !(g.out ∈ defined) && definesBeforeUse lo hi (g.out :: defined) gs

/-- `validate_program`: bounds, single definition, read before define, dense. -/
def validateProgram (p : BooleanProgram) : Except String Unit :=
  if p.numWires = p.numInputs + p.gates.length ∧
      definesBeforeUse p.numInputs p.numWires [] p.gates ∧ ∀ w ∈ p.outputs, w < p.numWires then .ok ()
  else .error "validate_program"

/-- `ag2pc_require_record_canonical`. -/
def ag2pcRequireRecordCanonical (p : BooleanProgram) : Except String Unit := do
  validateProgram p
  if (List.range p.gates.length).any fun i =>
      (p.gates.map Gate.out).getD i 0 != p.numInputs + i then
    .error "ag2pc: program is not RecordContext-canonical (gate out != num_inputs + i)"
  else if 1 < p.gates.countP (fun g => g.op == .Const0) ∨ 1 < p.gates.countP (fun g => g.op == .Const1) then
    .error "ag2pc: program has duplicate constant gates (pass contexts dedup public_bit)"
  else .ok ()

/-! ### Bodies -/

/-- A live body: a finite program that calls the gate operations of a context and continues with
the wire each call returns. -/
inductive Body (α : Type) where
  /-- The body returns. -/
  | done (a : α)
  /-- `public_bit`. -/
  | publicBit (v : Bool) (k : ℕ → Body α)
  /-- `and_gate`. -/
  | andGate (a b : ℕ) (k : ℕ → Body α)
  /-- `xor_gate`. -/
  | xorGate (a b : ℕ) (k : ℕ → Body α)
  /-- `not_gate`. -/
  | notGate (a : ℕ) (k : ℕ → Body α)

/-- The replay of a gate list over the scratch `ws`: program wire to context wire. -/
def replayGates {α : Type} : List Gate → (ℕ → ℕ) → ((ℕ → ℕ) → Body α) → Body α
  | [], ws, k => k ws
  | g :: gs, ws, k =>
    let next := fun o => replayGates gs (Function.update ws g.out o) k
    match g.op with
    | .And => .andGate (ws g.in0) (ws g.in1) next
    | .Xor => .xorGate (ws g.in0) (ws g.in1) next
    | .Not => .notGate (ws g.in0) next
    | .Const0 => .publicBit false next
    | .Const1 => .publicBit true next

/-- `execute_program` with input `i` bound to wire `i`. -/
def executeProgram (p : BooleanProgram) : Body (List ℕ) :=
  replayGates p.gates id fun ws => .done (p.outputs.map ws)

/-- The gates a body makes a fresh context emit, from wire id `wid` on, and what it returns. `c0` and
`c1` are the constant wires already emitted. -/
def Body.record {α : Type} : Body α → ℕ → Option ℕ → Option ℕ → List Gate × α
  | .done a, _, _, _ => ([], a)
  | .publicBit false k, wid, c0, c1 =>
    match c0 with
    | some c => (k c).record wid c0 c1
    | none =>
      let r := (k wid).record (wid + 1) (some wid) c1
      (⟨0, 0, wid, .Const0⟩ :: r.1, r.2)
  | .publicBit true k, wid, c0, c1 =>
    match c1 with
    | some c => (k c).record wid c0 c1
    | none =>
      let r := (k wid).record (wid + 1) c0 (some wid)
      (⟨0, 0, wid, .Const1⟩ :: r.1, r.2)
  | .andGate a b k, wid, c0, c1 =>
    let r := (k wid).record (wid + 1) c0 c1
    (⟨a, b, wid, .And⟩ :: r.1, r.2)
  | .xorGate a b k, wid, c0, c1 =>
    let r := (k wid).record (wid + 1) c0 c1
    (⟨a, b, wid, .Xor⟩ :: r.1, r.2)
  | .notGate a k, wid, c0, c1 =>
    let r := (k wid).record (wid + 1) c0 c1
    (⟨a, 0, wid, .Not⟩ :: r.1, r.2)

/-- Every operand of the body is an input or a wire returned before. -/
def Body.WellScoped {α : Type} : Body α → ℕ → Option ℕ → Option ℕ → Prop
  | .done _, _, _, _ => True
  | .publicBit false k, wid, c0, c1 =>
    match c0 with
    | some c => (k c).WellScoped wid c0 c1
    | none => (k wid).WellScoped (wid + 1) (some wid) c1
  | .publicBit true k, wid, c0, c1 =>
    match c1 with
    | some c => (k c).WellScoped wid c0 c1
    | none => (k wid).WellScoped (wid + 1) c0 (some wid)
  | .andGate a b k, wid, c0, c1 => a < wid ∧ b < wid ∧ (k wid).WellScoped (wid + 1) c0 c1
  | .xorGate a b k, wid, c0, c1 => a < wid ∧ b < wid ∧ (k wid).WellScoped (wid + 1) c0 c1
  | .notGate a k, wid, c0, c1 => a < wid ∧ (k wid).WellScoped (wid + 1) c0 c1

/-! ### Canonical gate streams -/

/-- A stream over `n` inputs: gate `i` writes wire `n + i` and reads smaller wires. -/
abbrev CanonicalStream (n : ℕ) (gs : List Gate) : Prop := SingleAssignment gateLayout n gs

theorem canonicalStream_cons {n : ℕ} {g : Gate} {gs : List Gate} :
    CanonicalStream n (g :: gs) ↔
      g.out = n ∧ (∀ w ∈ g.srcs, w < n) ∧ CanonicalStream (n + 1) gs := Iff.rfl

/-- What `ag2pc_require_record_canonical` accepts. -/
structure RecordCanonical (p : BooleanProgram) : Prop where
  stream : CanonicalStream p.numInputs p.gates
  outputs : ∀ w ∈ p.outputs, w < p.numInputs + p.gates.length
  wires : p.numWires = p.numInputs + p.gates.length
  const0 : p.gates.countP (fun g => g.op == .Const0) ≤ 1
  const1 : p.gates.countP (fun g => g.op == .Const1) ≤ 1

end AG2PC
