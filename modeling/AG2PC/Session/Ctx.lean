import AG2PC.Backend.Canonical
import AG2PC.Library.Runs

/-!
# The gate recorder

`ag2pc_ctx.h`: gate operations record into the current chunk under fresh ids, `uint32_t` in the code,
and a constant is recorded once a chunk. `ChunkOk` is what the recorder keeps true of its chunk, whatever
is called in whatever order: outputs are recorded under increasing ids, operands are older than the gate
that reads them, and the pending ids are the outputs.
-/

namespace AG2PC

open Library.Runs

/-- `AG2PCCtx`. -/
structure AG2PCCtx where
  /-- `next_id_`, never reset. -/
  nextId : ℕ := 0
  /-- `chunk_gates_`. -/
  chunkGates : List Gate := []
  /-- `pending_`: the ids produced in the current chunk. -/
  pending : List ℕ := []
  /-- `const_wire_`: the constants recorded in the current chunk. -/
  constWire : Bool → Option ℕ := fun _ => none

/-- `UINT32_MAX`. -/
def uint32Max : ℕ := 4294967295

/-- `v ? Op::Const1 : Op::Const0`. -/
def constOp : Bool → Op
  | false => .Const0
  | true => .Const1

namespace AG2PCCtx

variable (c : AG2PCCtx)

/-- `alloc_id_`. -/
def allocId : Except String (ℕ × AG2PCCtx) :=
  if c.nextId = uint32Max then .error "AG2PCCtx: recorder wire id overflow"
  else .ok (c.nextId, { c with nextId := c.nextId + 1 })

/-- `require_allocated_`. -/
def requireAllocated (a : ℕ) : Except String Unit :=
  if c.nextId ≤ a then .error "AG2PCCtx: operand id was never allocated (corrupt wire)" else .ok ()

/-- `record_`. -/
def record (a b : ℕ) (op : Op) : Except String (ℕ × AG2PCCtx) := do
  let (o, c) ← c.allocId
  return (o, { c with chunkGates := c.chunkGates ++ [⟨a, b, o, op⟩], pending := o :: c.pending })

/-- `public_bit`. -/
def publicBit (v : Bool) : Except String (ℕ × AG2PCCtx) :=
  match c.constWire v with
  | some o => .ok (o, c)
  | none => do
    let (o, c) ← c.record 0 0 (constOp v)
    return (o, { c with constWire := Function.update c.constWire v (some o) })

/-- `and_gate`. -/
def andGate (a b : ℕ) : Except String (ℕ × AG2PCCtx) := do
  c.requireAllocated a
  c.requireAllocated b
  c.record a b .And

/-- `xor_gate`. -/
def xorGate (a b : ℕ) : Except String (ℕ × AG2PCCtx) := do
  c.requireAllocated a
  c.requireAllocated b
  c.record a b .Xor

/-- `not_gate`. -/
def notGate (a : ℕ) : Except String (ℕ × AG2PCCtx) := do
  c.requireAllocated a
  c.record a 0 .Not

/-- `reserve_ids`. -/
def reserveIds (c : AG2PCCtx) : ℕ → Except String (List ℕ × AG2PCCtx)
  | 0 => .ok ([], c)
  | n + 1 => do
    let (o, c) ← c.allocId
    let (ids, c) ← c.reserveIds n
    return (o :: ids, c)

/-- `is_pending`. -/
def isPending (id : ℕ) : Bool := id ∈ c.pending

/-- `drop_chunk`. -/
def dropChunk : AG2PCCtx := { nextId := c.nextId }

end AG2PCCtx

/-! ### The chunk -/

/-- The ids of the chunk are in order, and the pending ones are its outputs. -/
structure ChunkIds (c : AG2PCCtx) : Prop where
  ordered : ChunkOrdered c.chunkGates
  lt : ∀ g ∈ c.chunkGates, g.out < c.nextId
  pending : ∀ id, id ∈ c.pending ↔ id ∈ c.chunkGates.map Gate.out

/-- What the recorder keeps true: besides, it knows the constants of the chunk, one gate each. -/
structure ChunkOk (c : AG2PCCtx) : Prop extends ChunkIds c where
  const : ∀ v o, c.constWire v = some o → ∃ g ∈ c.chunkGates, g.out = o ∧ g.op = constOp v
  once : ∀ v, c.chunkGates.countP (fun g => g.op == constOp v) ≤ (c.constWire v).isSome.toNat

theorem ChunkOk.empty (n : ℕ) : ChunkOk { nextId := n } :=
  ⟨⟨⟨.nil, by simp⟩, by simp, by simp⟩, by simp, by simp⟩

theorem ChunkOk.dropChunk (c : AG2PCCtx) : ChunkOk c.dropChunk := .empty _

namespace AG2PCCtx

variable {c c' : AG2PCCtx} {o : ℕ}

/-- A fresh id is the next one. -/
theorem allocId_ok (h : c.allocId = .ok (o, c')) : o = c.nextId ∧ c' = { c with nextId := c.nextId + 1 } := by
  unfold allocId at h
  split at h
  · cases h
  · cases h
    exact ⟨rfl, rfl⟩

theorem requireAllocated_ok {a : ℕ} {u : Unit} (h : c.requireAllocated a = .ok u) : a < c.nextId := by
  unfold requireAllocated at h
  split at h
  · cases h
  · omega

/-- What recording a gate does. -/
theorem record_ok {a b : ℕ} {op : Op} (h : c.record a b op = .ok (o, c')) :
    o = c.nextId ∧ c' = { c with nextId := o + 1, chunkGates := c.chunkGates ++ [⟨a, b, o, op⟩], pending := o :: c.pending } := by
  obtain ⟨⟨o₁, c₁⟩, halloc, hret⟩ := bind_eq_ok h
  obtain ⟨rfl, rfl⟩ := allocId_ok halloc
  cases hret
  exact ⟨rfl, rfl⟩

/-- Reserved ids are the next ones. -/
theorem reserveIds_ok {n : ℕ} {ids : List ℕ} (h : c.reserveIds n = .ok (ids, c')) :
    ids = List.range' c.nextId n ∧ c' = { c with nextId := c.nextId + n } := by
  induction n generalizing c c' ids with
  | zero =>
    cases h
    exact ⟨rfl, rfl⟩
  | succ n ih =>
    obtain ⟨⟨o, c₁⟩, halloc, h⟩ := bind_eq_ok h
    obtain ⟨⟨ids', c₂⟩, hrest, hret⟩ := bind_eq_ok h
    obtain ⟨rfl, rfl⟩ := allocId_ok halloc
    obtain ⟨rfl, rfl⟩ := ih hrest
    cases hret
    refine ⟨by rw [List.range'_succ], ?_⟩
    rw [Nat.add_assoc, Nat.add_comm 1 n]

/-- A gate operation other than a constant records one gate under the next id. -/
structure Records (c c' : AG2PCCtx) (g : Gate) : Prop where
  out : g.out = c.nextId
  srcs : ∀ w ∈ g.srcs, w < c.nextId
  eq : c' = { c with nextId := c.nextId + 1, chunkGates := c.chunkGates ++ [g], pending := g.out :: c.pending }

theorem andGate_ok {a b : ℕ} (h : c.andGate a b = .ok (o, c')) : Records c c' ⟨a, b, o, .And⟩ := by
  obtain ⟨_, ha, h⟩ := bind_eq_ok h
  obtain ⟨_, hb, h⟩ := bind_eq_ok h
  obtain ⟨rfl, rfl⟩ := record_ok h
  refine ⟨rfl, fun w hw => ?_, rfl⟩
  rcases List.mem_cons.mp hw with rfl | hw
  · exact requireAllocated_ok ha
  · rw [List.mem_singleton.mp hw]
    exact requireAllocated_ok hb

theorem xorGate_ok {a b : ℕ} (h : c.xorGate a b = .ok (o, c')) : Records c c' ⟨a, b, o, .Xor⟩ := by
  obtain ⟨_, ha, h⟩ := bind_eq_ok h
  obtain ⟨_, hb, h⟩ := bind_eq_ok h
  obtain ⟨rfl, rfl⟩ := record_ok h
  refine ⟨rfl, fun w hw => ?_, rfl⟩
  rcases List.mem_cons.mp hw with rfl | hw
  · exact requireAllocated_ok ha
  · rw [List.mem_singleton.mp hw]
    exact requireAllocated_ok hb

theorem notGate_ok {a : ℕ} (h : c.notGate a = .ok (o, c')) : Records c c' ⟨a, 0, o, .Not⟩ := by
  obtain ⟨_, ha, h⟩ := bind_eq_ok h
  obtain ⟨rfl, rfl⟩ := record_ok h
  refine ⟨rfl, fun w hw => ?_, rfl⟩
  rw [List.mem_singleton.mp hw]
  exact requireAllocated_ok ha

/-- A constant is the one recorded in this chunk already, or a new gate. -/
theorem publicBit_ok {v : Bool} (h : c.publicBit v = .ok (o, c')) :
    (c.constWire v = some o ∧ c' = c) ∨
      (c.constWire v = none ∧ ∃ c₁, Records c c₁ ⟨0, 0, o, constOp v⟩ ∧
        c' = { c₁ with constWire := Function.update c.constWire v (some o) }) := by
  unfold publicBit at h
  cases hc : c.constWire v with
  | some o₁ =>
    rw [hc] at h
    cases h
    exact .inl ⟨rfl, rfl⟩
  | none =>
    rw [hc] at h
    obtain ⟨⟨o₁, c₁⟩, hrec, hret⟩ := bind_eq_ok h
    obtain ⟨rfl, rfl⟩ := record_ok hrec
    cases hret
    refine .inr ⟨rfl, _, ⟨rfl, ?_, rfl⟩, rfl⟩
    cases v <;> simp [constOp, Gate.srcs]

end AG2PCCtx

/-- Recording a gate keeps the ids in order. -/
theorem ChunkIds.records {c c' : AG2PCCtx} {g : Gate} (h : ChunkIds c) (hrec : AG2PCCtx.Records c c' g) :
    ChunkIds c' := by
  obtain ⟨hout, hsrcs, rfl⟩ := hrec
  refine ⟨h.ordered.snoc (fun g' hg' => hout ▸ h.lt g' hg') (hout ▸ hsrcs), ?_, ?_⟩
  · intro g' hg'
    rcases List.mem_append.mp hg' with hg' | hg'
    · exact Nat.lt_succ_of_lt (h.lt g' hg')
    · rw [List.mem_singleton.mp hg', hout]
      exact Nat.lt_succ_self _
  · intro id
    rw [List.mem_cons, List.map_append, List.mem_append, h.pending id, List.map_cons, List.map_nil,
      List.mem_singleton]
    exact or_comm

namespace ChunkOk

variable {c c' : AG2PCCtx} {g : Gate}

/-- Recording a gate that is not a constant. -/
theorem records (h : ChunkOk c) (hrec : AG2PCCtx.Records c c' g) (hop : ∀ v, g.op ≠ constOp v) : ChunkOk c' := by
  have hids := h.toChunkIds.records hrec
  obtain ⟨-, -, rfl⟩ := hrec
  refine { hids with const := fun v o hv => ?_, once := fun v => ?_ }
  · obtain ⟨g', hg', hgo⟩ := h.const v o hv
    exact ⟨g', List.mem_append_left _ hg', hgo⟩
  · have hnot : (g.op == constOp v) = false := by simpa using hop v
    rw [List.countP_append, List.countP_singleton, hnot]
    exact h.once v

/-- Recording a constant. -/
theorem recordsConst (h : ChunkOk c) {v : Bool} {o : ℕ} (hnone : c.constWire v = none)
    (hrec : AG2PCCtx.Records c c' ⟨0, 0, o, constOp v⟩) :
    ChunkOk { c' with constWire := Function.update c.constWire v (some o) } := by
  have hids := h.toChunkIds.records hrec
  obtain ⟨-, -, rfl⟩ := hrec
  refine ⟨⟨hids.ordered, hids.lt, hids.pending⟩, fun v' o' hv' => ?_, fun v' => ?_⟩
  · dsimp only at hv' ⊢
    by_cases hvv : v' = v
    · rw [hvv, Function.update_self] at hv'
      cases hv'
      exact ⟨_, List.mem_append_right _ (List.mem_singleton_self _), rfl, by rw [hvv]⟩
    · rw [Function.update_of_ne hvv] at hv'
      obtain ⟨g', hg', hgo⟩ := h.const v' o' hv'
      exact ⟨g', List.mem_append_left _ hg', hgo⟩
  · have hold := h.once v'
    dsimp only
    rw [List.countP_append, List.countP_singleton]
    by_cases hvv : v' = v
    · rw [hvv, hnone] at hold
      rw [hvv, Function.update_self, if_pos (beq_self_eq_true _)]
      exact Nat.succ_le_succ hold
    · have hnot : (constOp v == constOp v') = false := by
        revert hvv
        cases v <;> cases v' <;> simp [constOp]
      rw [Function.update_of_ne hvv, hnot]
      exact hold

/-- Reserving ids leaves the chunk alone. -/
theorem reserve (h : ChunkOk c) (n : ℕ) : ChunkOk { c with nextId := c.nextId + n } :=
  ⟨⟨h.ordered, fun g hg => Nat.lt_of_lt_of_le (h.lt g hg) (Nat.le_add_right _ _), h.pending⟩, h.const, h.once⟩

end ChunkOk

/-! ### Whatever is called -/

/-- A call on the recorder, by the user or by the session. -/
inductive CtxCall where
  /-- `public_bit`. -/
  | publicBit (v : Bool)
  /-- `and_gate`. -/
  | andGate (a b : ℕ)
  /-- `xor_gate`. -/
  | xorGate (a b : ℕ)
  /-- `not_gate`. -/
  | notGate (a : ℕ)
  /-- `reserve_ids`. -/
  | reserveIds (n : ℕ)
  /-- `drop_chunk`. -/
  | dropChunk

/-- A call: the ids it returns, and the recorder after it. -/
def AG2PCCtx.call (c : AG2PCCtx) : CtxCall → Except String (List ℕ × AG2PCCtx)
  | .publicBit v => (c.publicBit v).map fun r => ([r.1], r.2)
  | .andGate a b => (c.andGate a b).map fun r => ([r.1], r.2)
  | .xorGate a b => (c.xorGate a b).map fun r => ([r.1], r.2)
  | .notGate a => (c.notGate a).map fun r => ([r.1], r.2)
  | .reserveIds n => c.reserveIds n
  | .dropChunk => .ok ([], c.dropChunk)

/-- A mapped result. -/
theorem map_eq_ok {ε α β : Type} {x : Except ε α} {f : α → β} {b : β} (h : x.map f = .ok b) :
    ∃ a, x = .ok a ∧ f a = b := by
  cases x with
  | error e => cases h
  | ok a => exact ⟨a, rfl, Except.ok.inj h⟩

namespace ChunkOk

variable {c c' : AG2PCCtx}

theorem andGate {a b o : ℕ} (h : ChunkOk c) (hc : c.andGate a b = .ok (o, c')) : ChunkOk c' :=
  h.records (AG2PCCtx.andGate_ok hc) fun v => by cases v <;> exact nofun

theorem xorGate {a b o : ℕ} (h : ChunkOk c) (hc : c.xorGate a b = .ok (o, c')) : ChunkOk c' :=
  h.records (AG2PCCtx.xorGate_ok hc) fun v => by cases v <;> exact nofun

theorem notGate {a o : ℕ} (h : ChunkOk c) (hc : c.notGate a = .ok (o, c')) : ChunkOk c' :=
  h.records (AG2PCCtx.notGate_ok hc) fun v => by cases v <;> exact nofun

theorem publicBit {v : Bool} {o : ℕ} (h : ChunkOk c) (hc : c.publicBit v = .ok (o, c')) : ChunkOk c' := by
  rcases AG2PCCtx.publicBit_ok hc with ⟨-, rfl⟩ | ⟨hnone, c₁, hrec, rfl⟩
  · exact h
  · exact h.recordsConst hnone hrec

theorem reserveIds {n : ℕ} {ids : List ℕ} (h : ChunkOk c) (hc : c.reserveIds n = .ok (ids, c')) :
    ChunkOk c' := by
  obtain ⟨-, rfl⟩ := AG2PCCtx.reserveIds_ok hc
  exact h.reserve n

/-- **Every call keeps the chunk in order.** -/
theorem call {k : CtxCall} {ids : List ℕ} (h : ChunkOk c) (hc : c.call k = .ok (ids, c')) : ChunkOk c' := by
  cases k with
  | publicBit v =>
    obtain ⟨⟨o, c₁⟩, hcall, heq⟩ := map_eq_ok hc
    cases heq
    exact h.publicBit hcall
  | andGate a b =>
    obtain ⟨⟨o, c₁⟩, hcall, heq⟩ := map_eq_ok hc
    cases heq
    exact h.andGate hcall
  | xorGate a b =>
    obtain ⟨⟨o, c₁⟩, hcall, heq⟩ := map_eq_ok hc
    cases heq
    exact h.xorGate hcall
  | notGate a =>
    obtain ⟨⟨o, c₁⟩, hcall, heq⟩ := map_eq_ok hc
    cases heq
    exact h.notGate hcall
  | reserveIds n => exact h.reserveIds hc
  | dropChunk =>
    cases hc
    exact .dropChunk c

/-- So it is in every recorder there can be. -/
theorem of_reaches {calls : List CtxCall} (h : Reaches AG2PCCtx.call {} calls c) : ChunkOk c :=
  run_invariant (fun _ _ _ _ h hc => ChunkOk.call h hc) (ChunkOk.empty 0) h

end ChunkOk

end AG2PC
