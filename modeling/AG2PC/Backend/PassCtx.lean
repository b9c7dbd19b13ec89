import AG2PC.Backend.Canonical
import AG2PC.Backend.TriplePool

/-!
# The passes

`pass_ctx.h`: the protocol as five passes over one source of gates. Every pass hands out wire ids the
same way and emits each constant once; it differs in what it does at a gate. A `Pass` is that
difference, and a `PassState` adds the wire counter and the constant wires. Four of the passes work
on slots: a gate reads the slots of its operands and writes the slot of its output, so each is a
`Machine` over gates and runs with the slot map `phys` (`machinePass`).

The garbler runs liveness, slot/mask, garble and gamma check, the evaluator liveness, slot/mask and
evaluate. Where the code keeps one array a field (`wire_slot`, `mask_input`, `label_slot`,
`eval_slot`), a pass here has one memory of the fields it works on. A C++ vector that a pass fills by
index is a function.
-/

namespace AG2PC

open Library.XorAlgebra Library.SlotReuse

/-! ### What all passes share -/

/-- What a pass does at the gates it is shown: the constant `v`, an AND, a XOR, a NOT, each with the
wire id it gets. -/
structure Pass (σ : Type) where
  /-- A constant that was not emitted before. -/
  onConst : Bool → ℕ → σ → σ
  /-- An AND of two wires. -/
  onAnd : ℕ → ℕ → ℕ → σ → σ
  /-- A XOR of two wires. -/
  onXor : ℕ → ℕ → ℕ → σ → σ
  /-- A NOT of a wire. -/
  onNot : ℕ → ℕ → σ → σ

/-- The state of a pass: the next wire id, the constant wires, and its own data. -/
structure PassState (σ : Type) where
  /-- `wid`. -/
  wid : ℕ
  /-- `c0_`. -/
  c0 : Option ℕ
  /-- `c1_`. -/
  c1 : Option ℕ
  /-- The pass's data. -/
  s : σ

namespace Pass

variable {σ α : Type} (P : Pass σ)

/-- `public_bit`. -/
def publicBit (v : Bool) (t : PassState σ) : ℕ × PassState σ :=
  match v, t.c0, t.c1 with
  | false, some c, _ => (c, t)
  | false, none, _ => (t.wid, { t with wid := t.wid + 1, c0 := some t.wid, s := P.onConst false t.wid t.s })
  | true, _, some c => (c, t)
  | true, _, none => (t.wid, { t with wid := t.wid + 1, c1 := some t.wid, s := P.onConst true t.wid t.s })

/-- `and_gate`. -/
def andGate (i0 i1 : ℕ) (t : PassState σ) : ℕ × PassState σ :=
  (t.wid, { t with wid := t.wid + 1, s := P.onAnd i0 i1 t.wid t.s })

/-- `xor_gate`. -/
def xorGate (i0 i1 : ℕ) (t : PassState σ) : ℕ × PassState σ :=
  (t.wid, { t with wid := t.wid + 1, s := P.onXor i0 i1 t.wid t.s })

/-- `not_gate`. -/
def notGate (i : ℕ) (t : PassState σ) : ℕ × PassState σ :=
  (t.wid, { t with wid := t.wid + 1, s := P.onNot i t.wid t.s })

/-- `run_pass`: the source drives the pass. -/
def run : Body α → PassState σ → α × PassState σ
  | .done a, t => (a, t)
  | .publicBit v k, t => let r := P.publicBit v t; run (k r.1) r.2
  | .andGate a b k, t => let r := P.andGate a b t; run (k r.1) r.2
  | .xorGate a b k, t => let r := P.xorGate a b t; run (k r.1) r.2
  | .notGate a k, t => let r := P.notGate a t; run (k r.1) r.2

/-- A pass over a source, from fresh counters above `n` inputs. -/
def runSource (n : ℕ) (b : Body α) (s : σ) : α × PassState σ := P.run b ⟨n, none, none, s⟩

/-- What the pass does at one recorded gate. -/
def step (s : σ) (g : Gate) : σ :=
  match g.op with
  | .And => P.onAnd g.in0 g.in1 g.out s
  | .Xor => P.onXor g.in0 g.in1 g.out s
  | .Not => P.onNot g.in0 g.out s
  | .Const0 => P.onConst false g.out s
  | .Const1 => P.onConst true g.out s

/-- The pass after the recorded gates `gs`. -/
def after (gs : List Gate) (s : σ) : σ := gs.foldl P.step s

/-- **Every pass sees the same gates**: driven by a body, a pass returns what the recording returns
and does its step at each recorded gate. -/
theorem run_eq (b : Body α) : ∀ t : PassState σ,
    (P.run b t).1 = (b.record t.wid t.c0 t.c1).2 ∧
      (P.run b t).2.s = (b.record t.wid t.c0 t.c1).1.foldl P.step t.s ∧
      (P.run b t).2.wid = t.wid + (b.record t.wid t.c0 t.c1).1.length := by
  induction b with
  | done a =>
    intro t
    exact ⟨rfl, rfl, rfl⟩
  | publicBit v k ih =>
    rintro ⟨wid, c0, c1, s⟩
    cases v with
    | false =>
      cases c0 with
      | some c => exact ih c _
      | none =>
        obtain ⟨h₁, h₂, h₃⟩ := ih wid ⟨wid + 1, some wid, c1, P.onConst false wid s⟩
        exact ⟨h₁, h₂, h₃.trans (Nat.add_right_comm _ _ _)⟩
    | true =>
      cases c1 with
      | some c => cases c0 <;> exact ih c _
      | none =>
        obtain ⟨h₁, h₂, h₃⟩ := ih wid ⟨wid + 1, c0, some wid, P.onConst true wid s⟩
        cases c0 <;> exact ⟨h₁, h₂, h₃.trans (Nat.add_right_comm _ _ _)⟩
  | andGate x y k ih =>
    rintro ⟨wid, c0, c1, s⟩
    obtain ⟨h₁, h₂, h₃⟩ := ih wid ⟨wid + 1, c0, c1, P.onAnd x y wid s⟩
    exact ⟨h₁, h₂, h₃.trans (Nat.add_right_comm _ _ _)⟩
  | xorGate x y k ih =>
    rintro ⟨wid, c0, c1, s⟩
    obtain ⟨h₁, h₂, h₃⟩ := ih wid ⟨wid + 1, c0, c1, P.onXor x y wid s⟩
    exact ⟨h₁, h₂, h₃.trans (Nat.add_right_comm _ _ _)⟩
  | notGate x k ih =>
    rintro ⟨wid, c0, c1, s⟩
    obtain ⟨h₁, h₂, h₃⟩ := ih wid ⟨wid + 1, c0, c1, P.onNot x wid s⟩
    exact ⟨h₁, h₂, h₃.trans (Nat.add_right_comm _ _ _)⟩

end Pass

/-! ### Pass 0: liveness -/

/-- The data of the liveness pass. -/
structure Liveness where
  /-- The gate index over AND, XOR and NOT. -/
  gi : ℕ := 0
  /-- The number of ANDs. -/
  ai : ℕ := 0
  /-- The last gate index that reads a wire; `none` is the code's `-1`. -/
  lastUse : ℕ → Option ℕ := fun _ => none
  /-- Whether a wire keeps its slot to the end. -/
  persist : ℕ → Bool

namespace Liveness

/-- The start of the pass: the inputs persist. -/
def start (numInputs : ℕ) : Liveness := { persist := fun w => w < numInputs }

/-- `emit_`. -/
def emit (s : Liveness) (id : ℕ) (isPersist : Bool) : Liveness :=
  { s with
    lastUse := Function.update s.lastUse id none
    persist := Function.update s.persist id isPersist }

/-- `last_use[w] = gi` for the operands, then the next gate index. -/
def read (s : Liveness) (ws : List ℕ) : Liveness :=
  { s with lastUse := ws.foldl (fun f w => Function.update f w (some s.gi)) s.lastUse, gi := s.gi + 1 }

end Liveness

/-- `AG2PCLivenessPass`. -/
def livenessPass : Pass Liveness where
  onConst _ id s := s.emit id false
  onAnd i0 i1 id s :=
    let s := (s.emit id true).read [i0, i1]
    { s with ai := s.ai + 1 }
  onXor i0 i1 id s := (s.emit id false).read [i0, i1]
  onNot i id s := (s.emit id false).read [i]

/-- `commit`: the outputs persist too. -/
def Liveness.commit (s : Liveness) (wid : ℕ) (outIds : List ℕ) : Liveness :=
  { s with persist := fun w => s.persist w || (decide (w ∈ outIds) && decide (w < wid)) }

/-! ### Pass 1: slots and masks -/

/-- The slot map under construction. -/
structure Alloc where
  /-- `phys`: the slot of a wire. A wire without a slot has `-1` in the code and `0` here. -/
  phys : ℕ → ℕ
  /-- `num_slots`. -/
  numSlots : ℕ
  /-- `freelist`, its back first. -/
  freelist : List ℕ := []
  /-- The gate index over AND, XOR and NOT. -/
  gi : ℕ := 0

namespace Alloc

/-- The inputs occupy the slots `[0, num_in)`. -/
def start (numIn : ℕ) : Alloc := { phys := fun w => if w < numIn then w else 0, numSlots := numIn }

/-- `alloc_slot`. -/
def allocSlot (persist : ℕ → Bool) (a : Alloc) (id : ℕ) : Alloc :=
  match persist id, a.freelist with
  | false, slot :: rest => { a with phys := Function.update a.phys id slot, freelist := rest }
  | _, _ => { a with phys := Function.update a.phys id a.numSlots, numSlots := a.numSlots + 1 }

/-- `free_if_dead`. -/
def freeIfDead (lastUse : ℕ → Option ℕ) (persist : ℕ → Bool) (a : Alloc) (w : ℕ) : Alloc :=
  if persist w = false ∧ lastUse w = some a.gi then { a with freelist := a.phys w :: a.freelist } else a

/-- What a gate does to the slot map: a slot for its output, then the slots of its operands if this
was their last use, an operand read twice being freed once. -/
def gate (lastUse : ℕ → Option ℕ) (persist : ℕ → Bool) (a : Alloc) (g : Gate) : Alloc :=
  let a := a.allocSlot persist g.out
  match g.op with
  | .And | .Xor =>
    let a := a.freeIfDead lastUse persist g.in0
    let a := if g.in1 ≠ g.in0 then a.freeIfDead lastUse persist g.in1 else a
    { a with gi := a.gi + 1 }
  | .Not =>
    let a := a.freeIfDead lastUse persist g.in0
    { a with gi := a.gi + 1 }
  | .Const0 | .Const1 => a

end Alloc

/-- A slot as the slot/mask and gamma check passes see it. -/
structure MaskSlot where
  /-- `wire_slot`. -/
  share : AShareBundle
  /-- `mask_input`. -/
  mask : UInt8

/-- `kLgBatch`. -/
def kLgBatch : ℕ := 1 <<< 14

/-- The data of the slot/mask pass beside the slots. -/
structure MaskGlobals where
  /-- The pool the output masks are drawn from. -/
  pool : TriplePool
  /-- `lg_buf`. -/
  lgBuf : ℕ → AShareBundle := fun _ => .zero
  /-- The length of `lg_buf`. -/
  lgSize : ℕ := 0
  /-- `lg_off`. -/
  lgOff : ℕ := 0
  /-- The AND index. -/
  ai : ℕ := 0
  /-- `rep_a`. -/
  repA : ℕ → AShareBundle := fun _ => .zero
  /-- `rep_b`. -/
  repB : ℕ → AShareBundle := fun _ => .zero

/-- `next_lambda_gamma`. -/
def MaskGlobals.nextLambdaGamma (cot : ℕ → AShareBundle) (s : MaskGlobals) :
    AShareBundle × MaskGlobals :=
  let s := if s.lgSize ≤ s.lgOff then
      let m := s.pool.draw cot kLgBatch
      { s with pool := m.2, lgBuf := m.1, lgSize := kLgBatch, lgOff := 0 }
    else s
  (s.lgBuf s.lgOff, { s with lgOff := s.lgOff + 1 })

/-- A gate of `AG2PCSlotMaskPass`, without the slot map: `r` reads an operand's slot. -/
def slotMaskGate (cot : ℕ → AShareBundle) (g : Gate) (s : MaskGlobals) (r : ℕ → MaskSlot) :
    MaskGlobals × MaskSlot :=
  match g.op with
  | .Const0 => (s, ⟨.zero, 0⟩)
  | .Const1 => (s, ⟨.zero, 1⟩)
  | .And =>
    let s := { s with
      repA := Function.update s.repA s.ai (r g.in0).share
      repB := Function.update s.repB s.ai (r g.in1).share }
    let lg := s.nextLambdaGamma cot
    ({ lg.2 with ai := lg.2.ai + 1 }, ⟨lg.1, 0⟩)
  | .Xor => (s, ⟨(r g.in0).share ^^^ (r g.in1).share, 0⟩)
  | .Not => (s, ⟨(r g.in0).share, 0⟩)

/-- The slot/mask pass as a machine. -/
def slotMaskMachine (cot : ℕ → AShareBundle) : Machine gateLayout MaskGlobals MaskSlot where
  step g s r _ := slotMaskGate cot g s r
  step_congr g s r r' _ _ hr _ := by
    have hr' : ∀ w ∈ g.srcs, r w = r' w := hr
    cases hg : g.op <;> simp_all [slotMaskGate, Gate.srcs]

/-- The state of the slot/mask pass. -/
structure SlotMask where
  /-- The slot map. -/
  alloc : Alloc
  /-- The other data. -/
  globals : MaskGlobals
  /-- The slots. -/
  mem : ℕ → MaskSlot

/-- A gate of `AG2PCSlotMaskPass`: the operands are read before the output gets its slot. -/
def SlotMask.gate (cot : ℕ → AShareBundle) (lastUse : ℕ → Option ℕ) (persist : ℕ → Bool)
    (s : SlotMask) (g : Gate) : SlotMask :=
  let r := slotMaskGate cot g s.globals fun w => s.mem (s.alloc.phys w)
  let a := s.alloc.gate lastUse persist g
  { alloc := a, globals := r.1, mem := Function.update s.mem (a.phys g.out) r.2 }

/-- `AG2PCSlotMaskPass`. -/
def slotMaskPass (cot : ℕ → AShareBundle) (lastUse : ℕ → Option ℕ) (persist : ℕ → Bool) :
    Pass SlotMask where
  onConst v id s := s.gate cot lastUse persist ⟨0, 0, id, if v then .Const1 else .Const0⟩
  onAnd i0 i1 id s := s.gate cot lastUse persist ⟨i0, i1, id, .And⟩
  onXor i0 i1 id s := s.gate cot lastUse persist ⟨i0, i1, id, .Xor⟩
  onNot i id s := s.gate cot lastUse persist ⟨i, 0, id, .Not⟩

/-! ### The passes on a fixed slot map -/

/-- A pass that works on slots, with the slot map `phys`. -/
def machinePass {G V : Type} (M : Machine gateLayout G V) (phys : ℕ → ℕ) : Pass (G × (ℕ → V)) where
  onConst v id s := M.stepAt phys s ⟨0, 0, id, if v then .Const1 else .Const0⟩
  onAnd i0 i1 id s := M.stepAt phys s ⟨i0, i1, id, .And⟩
  onXor i0 i1 id s := M.stepAt phys s ⟨i0, i1, id, .Xor⟩
  onNot i id s := M.stepAt phys s ⟨i, 0, id, .Not⟩

/-- What one AND adds to the garbler's stream. -/
structure StreamEntry where
  /-- `G[2k]`. -/
  G0 : Block
  /-- `G[2k + 1]`. -/
  G1 : Block
  /-- `b[k]`. -/
  b : UInt8
  deriving DecidableEq

instance : Inhabited StreamEntry := ⟨⟨zeroBlock, zeroBlock, 0⟩⟩

/-- `kBatch`. -/
def kBatch : ℕ := 1 <<< 16

theorem kBatch_pos : 0 < kBatch := by
  rw [kBatch, Nat.one_shiftLeft]
  exact Nat.two_pow_pos 16

/-- A slot as the garble pass sees it. -/
structure GarbleSlot where
  /-- `wire_slot`. -/
  share : AShareBundle
  /-- `label_slot`. -/
  label : Block

/-- The data of the garble pass beside the slots. -/
structure GarbleGlobals where
  /-- The half-gate hash. -/
  mitc : MITCCRH
  /-- The AND index. -/
  ai : ℕ := 0
  /-- The chunk being filled. -/
  cur : List StreamEntry := []
  /-- The chunks published. -/
  sent : List (List StreamEntry) := []

section

variable {D : Type} (E : EmpTool D) (Δ : Block) (sigma : ℕ → AShareBundle)

/-- The stream entry and the output label of an AND, from the operand slots `a` and `b`, the share
`wb_out` of the output and the share `sb` of `σ`. -/
def garbleAnd (mitc : MITCCRH) (a b : GarbleSlot) (wbOut sb : AShareBundle) : StreamEntry × Block :=
  let Ha0 := mitc.hashCir E a.label
  let Ha1 := mitc.hashCir E (a.label ^^^ Δ)
  let Hb0 := mitc.hashCir E b.label
  let Hb1 := mitc.hashCir E (b.label ^^^ Δ)
  let laDot := selectMask (LSB a.share.mac) &&& Δ
  let lbDot := selectMask (LSB b.share.mac) &&& Δ
  let labDot := selectMask (LSB sb.mac) &&& Δ
  let lgDot := selectMask (LSB wbOut.mac) &&& Δ
  let G0 := Ha0 ^^^ Ha1 ^^^ b.share.key ^^^ lbDot
  let G1 := Hb0 ^^^ Hb1 ^^^ a.label ^^^ a.share.key ^^^ laDot
  let mlG0 := Ha0 ^^^ Hb0 ^^^ sb.key ^^^ labDot ^^^ wbOut.key ^^^ lgDot
  (⟨G0, G1, byteOf (LSB1 mlG0)⟩, mlG0)

/-- A gate of `AG2PCGarblePass`. -/
def garbleGate (g : Gate) (s : GarbleGlobals) (r : ℕ → GarbleSlot) (old : GarbleSlot) :
    GarbleGlobals × GarbleSlot :=
  match g.op with
  | .Const0 => (s, ⟨.zero, zeroBlock⟩)
  | .Const1 => (s, ⟨.zero, Δ⟩)
  | .Xor => (s, ⟨(r g.in0).share ^^^ (r g.in1).share, (r g.in0).label ^^^ (r g.in1).label⟩)
  | .Not => (s, ⟨(r g.in0).share, (r g.in0).label ^^^ Δ⟩)
  | .And =>
    let e := garbleAnd E Δ s.mitc (r g.in0) (r g.in1) old.share (sigma s.ai)
    let cur := s.cur ++ [e.1]
    let s := { s with mitc := s.mitc.advance 1, ai := s.ai + 1 }
    (if cur.length = kBatch then { s with cur := [], sent := s.sent ++ [cur] } else { s with cur := cur },
      ⟨old.share, e.2⟩)

/-- `AG2PCGarblePass`. -/
def garbleMachine : Machine gateLayout GarbleGlobals GarbleSlot where
  step g s r old := garbleGate E Δ sigma g s r old
  step_congr g s r r' v v' hr hv := by
    have hr' : ∀ w ∈ g.srcs, r w = r' w := hr
    have hv' : g.isAnd = true → v = v' := hv
    cases hg : g.op <;> simp_all [garbleGate, Gate.srcs, Gate.isAnd]

end

/-- `end` of the garble pass: the chunks sent. -/
def GarbleGlobals.finish (s : GarbleGlobals) : List (List StreamEntry) :=
  if s.cur.length = 0 then s.sent else s.sent ++ [s.cur]

/-- The receiver of the evaluate pass: the stream cut into chunks of at most `kBatch` entries until
`num_ands` have come. -/
def recvChunks (numAnds : ℕ) (wire : List StreamEntry) : List (List StreamEntry) :=
  (List.range ((numAnds + kBatch - 1) / kBatch)).map fun c =>
    (wire.drop (c * kBatch)).take (min kBatch (numAnds - c * kBatch))

/-- A slot as the evaluate pass sees it. -/
structure EvalSlot where
  /-- `wire_slot`. -/
  share : AShareBundle
  /-- `eval_slot`. -/
  label : Block
  /-- `mask_input`. -/
  mask : UInt8

/-- The data of the evaluate pass beside the slots. -/
structure EvalGlobals where
  /-- The half-gate hash. -/
  mitc : MITCCRH
  /-- The AND index. -/
  ai : ℕ := 0
  /-- The chunks received and not yet taken. -/
  inbox : List (List StreamEntry)
  /-- The chunk being read. -/
  cur : Option (List StreamEntry) := none
  /-- The position in it. -/
  loc : ℕ := 0
  /-- `Lambda_AND`. -/
  LambdaAND : ℕ → UInt8 := fun _ => 0
  /-- `M1_t`. -/
  M1t : ℕ → Block := fun _ => zeroBlock

/-- The next stream entry. -/
def EvalGlobals.next (s : EvalGlobals) : StreamEntry × EvalGlobals :=
  let s := if s.cur = none ∨ s.loc = (s.cur.getD []).length then
      { s with cur := s.inbox.head?, inbox := s.inbox.tail, loc := 0 }
    else s
  ((s.cur.getD []).getD s.loc default, { s with loc := s.loc + 1 })

section

variable {D : Type} (E : EmpTool D) (Δ : Block) (sigma : ℕ → AShareBundle)

/-- The output label of an AND, from the stream entry. -/
def evalAndLabel (mitc : MITCCRH) (e : StreamEntry) (a b : EvalSlot) (wbOut sb : AShareBundle) : Block :=
  let La := truthy a.mask
  let Lb := truthy b.mask
  let Mr := sb.mac ^^^ wbOut.mac ^^^ (selectMask La &&& b.share.mac) ^^^ (selectMask Lb &&& a.share.mac)
  mitc.hashCir E a.label ^^^ mitc.hashCir E b.label ^^^ (selectMask La &&& e.G0) ^^^
    (selectMask Lb &&& (e.G1 ^^^ a.label)) ^^^ Mr

/-- The `c_γ` witness of an AND with opened output mask `Lg`. -/
def evalAndWitness (Lg : Bool) (a b : EvalSlot) (wbOut sb : AShareBundle) : Block :=
  let La := truthy a.mask
  let Lb := truthy b.mask
  let t1 := (La && Lb) ^^ Lg ^^ (La && LSB b.share.mac) ^^ (Lb && LSB a.share.mac) ^^ LSB sb.mac ^^
    LSB wbOut.mac
  (selectMask t1 &&& Δ) ^^^ (selectMask La &&& b.share.key) ^^^ (selectMask Lb &&& a.share.key) ^^^
    sb.key ^^^ wbOut.key

/-- A gate of `AG2PCEvaluatePass`. -/
def evaluateGate (g : Gate) (s : EvalGlobals) (r : ℕ → EvalSlot) (old : EvalSlot) :
    EvalGlobals × EvalSlot :=
  match g.op with
  | .Const0 => (s, ⟨.zero, zeroBlock, 0⟩)
  | .Const1 => (s, ⟨.zero, zeroBlock, 1⟩)
  | .Xor => (s, ⟨(r g.in0).share ^^^ (r g.in1).share, (r g.in0).label ^^^ (r g.in1).label,
      (r g.in0).mask ^^^ (r g.in1).mask⟩)
  | .Not => (s, ⟨(r g.in0).share, (r g.in0).label, (r g.in0).mask ^^^ 1⟩)
  | .And =>
    let n := s.next
    let a := r g.in0
    let b := r g.in1
    let t := evalAndLabel E s.mitc n.1 a b old.share (sigma s.ai)
    let Lg := truthy (n.1.b ^^^ byteOf (LSB1 t))
    ({ n.2 with
        mitc := s.mitc.advance 1
        ai := s.ai + 1
        LambdaAND := Function.update n.2.LambdaAND s.ai (byteOf Lg)
        M1t := Function.update n.2.M1t s.ai (evalAndWitness Δ Lg a b old.share (sigma s.ai)) },
      ⟨old.share, t, byteOf Lg⟩)

/-- `AG2PCEvaluatePass`. -/
def evaluateMachine : Machine gateLayout EvalGlobals EvalSlot where
  step g s r old := evaluateGate E Δ sigma g s r old
  step_congr g s r r' v v' hr hv := by
    have hr' : ∀ w ∈ g.srcs, r w = r' w := hr
    have hv' : g.isAnd = true → v = v' := hv
    cases hg : g.op <;> simp_all [evaluateGate, Gate.srcs, Gate.isAnd]

end

/-- The data of the gamma check beside the slots. -/
structure GammaGlobals where
  /-- The AND index. -/
  ai : ℕ := 0
  /-- `M1_t`. -/
  M1t : ℕ → Block := fun _ => zeroBlock

section

variable (sigma : ℕ → AShareBundle) (LambdaAND : ℕ → UInt8)

/-- The garbler's `c_γ` witness of an AND. -/
def gammaAnd (a b : MaskSlot) (wbOut sb : AShareBundle) : Block :=
  sb.mac ^^^ wbOut.mac ^^^ (selectMask (truthy a.mask) &&& b.share.mac) ^^^
    (selectMask (truthy b.mask) &&& a.share.mac)

/-- A gate of `AG2PCGammaCheckPass`. -/
def gammaGate (g : Gate) (s : GammaGlobals) (r : ℕ → MaskSlot) (old : MaskSlot) :
    GammaGlobals × MaskSlot :=
  match g.op with
  | .Const0 => (s, ⟨.zero, 0⟩)
  | .Const1 => (s, ⟨.zero, 1⟩)
  | .Xor => (s, ⟨(r g.in0).share ^^^ (r g.in1).share, (r g.in0).mask ^^^ (r g.in1).mask⟩)
  | .Not => (s, ⟨(r g.in0).share, (r g.in0).mask ^^^ 1⟩)
  | .And =>
    ({ ai := s.ai + 1
       M1t := Function.update s.M1t s.ai (gammaAnd (r g.in0) (r g.in1) old.share (sigma s.ai)) },
      ⟨old.share, LambdaAND s.ai⟩)

/-- `AG2PCGammaCheckPass`. -/
def gammaMachine : Machine gateLayout GammaGlobals MaskSlot where
  step g s r old := gammaGate sigma LambdaAND g s r old
  step_congr g s r r' v v' hr hv := by
    have hr' : ∀ w ∈ g.srcs, r w = r' w := hr
    have hv' : g.isAnd = true → v = v' := hv
    cases hg : g.op <;> simp_all [gammaGate, Gate.srcs, Gate.isAnd]

end

end AG2PC
