import AG2PC.Library.Channels
import AG2PC.Library.CircularWindow
import AG2PC.Library.Reachability

/-!
# The chunk pipe

`chunk_pipe` of `helper.h`: a ring of slots between one producer and one consumer. Each method is one step,
taken when its wait condition holds; between its methods the producer writes into the slot it was given and
the consumer reads the slot it holds.

* `contents_write`, `contents_producerPublish`, `contents_consumerRelease` — the ring as a queue.
* `PipeInv.step` — what holds of the two loops, step by step.
* `PipeInv.contents_step` — what a step does to what the pipe holds.
* `toPipe_pipeStep` — the pipe of the message model is this one, with the chunks' sizes.
* `chunkPipe_fifo` — the pipe is a lossless bounded queue, and never blocks both sides.
-/

namespace AG2PC

open Library.CircularWindow Library.Reachability

/-! ### The ring -/

/-- `chunk_pipe`. -/
structure ChunkPipe (T : Type) where
  /-- `slots_`. -/
  slots : List T
  /-- `consumer_head_`. -/
  consumerHead : ℕ := 0
  /-- `count_`. -/
  count : ℕ := 0
  /-- `closed_`. -/
  closed : Bool := false

namespace ChunkPipe

variable {T : Type} (p : ChunkPipe T)

/-- `producer_slot`: the index of the slot it returns, once one is free. -/
def producerSlot : Option ℕ :=
  if p.count < p.slots.length then some ((p.consumerHead + p.count) % p.slots.length) else none

/-- `producer_publish`. -/
def producerPublish : ChunkPipe T := { p with count := p.count + 1 }

/-- `producer_close`. -/
def producerClose : ChunkPipe T := { p with closed := true }

/-- `consumer_slot`, once there is a chunk or the pipe is closed: the index of the slot it returns, or
`nullptr`. -/
def consumerSlot : Option (Option ℕ) :=
  if 0 < p.count ∨ p.closed then some (if p.count = 0 then none else some p.consumerHead) else none

/-- `consumer_release`. -/
def consumerRelease : ChunkPipe T :=
  { p with consumerHead := (p.consumerHead + 1) % p.slots.length, count := p.count - 1 }

/-- A write into a slot. -/
def write (i : ℕ) (v : T) : ChunkPipe T := { p with slots := p.slots.set i v }

/-- What the pipe holds, the oldest chunk first. -/
def contents : List T := window p.slots p.consumerHead p.count

variable {p}

/-- A write into the slot the producer was given does not touch what the pipe holds. -/
theorem contents_write (h : p.count < p.slots.length) (v : T) :
    (p.write ((p.consumerHead + p.count) % p.slots.length) v).contents = p.contents :=
  window_set h v

theorem contents_producerPublish : p.producerPublish.contents =
    p.contents ++ p.slots[(p.consumerHead + p.count) % p.slots.length]?.toList :=
  window_succ

theorem contents_consumerRelease (hhead : p.consumerHead < p.slots.length) (hcount : 0 < p.count) :
    p.contents = p.slots[p.consumerHead]?.toList ++ p.consumerRelease.contents := by
  obtain ⟨c, hc⟩ := Nat.exists_eq_add_one.mpr hcount
  unfold contents consumerRelease
  simp only [hc, Nat.add_sub_cancel]
  rw [window_cons, Nat.mod_eq_of_lt hhead]

theorem contents_eq_nil (hlen : 0 < p.slots.length) : p.contents = [] ↔ p.count = 0 := by
  rw [← List.length_eq_zero_iff, contents, length_window hlen]

/-- `consumer_slot` hands out the slot at `consumer_head_`, or `nullptr` once the pipe is closed and empty. -/
theorem consumerSlot_cases {r : Option ℕ} (hr : p.consumerSlot = some r) :
    r = none ∧ p.count = 0 ∧ p.closed = true ∨ r = some p.consumerHead ∧ 0 < p.count := by
  unfold consumerSlot at hr
  split_ifs at hr with hready hzero
  · cases hr
    exact .inl ⟨rfl, hzero, hready.resolve_left (by omega)⟩
  · cases hr
    exact .inr ⟨rfl, Nat.pos_of_ne_zero hzero⟩

variable (p) in
/-- The pipe of the message model, which keeps the sizes of the chunks. -/
def toPipe (size : T → ℕ) : Library.Channels.Pipe := ⟨p.contents.map size, p.closed⟩

end ChunkPipe

/-! ### The two loops -/

/-- Where the producer is. -/
inductive Producer where
  /-- Before `producer_slot`. -/
  | idle
  /-- It fills the slot at an index. -/
  | filling (i : ℕ)
  /-- It has closed the pipe. -/
  | closed
  deriving DecidableEq

/-- Where the consumer is. -/
inductive Consumer (T : Type) where
  /-- Before `consumer_slot`. -/
  | idle
  /-- It holds the slot at an index. -/
  | holding (i : ℕ)
  /-- It has read the slot it holds. -/
  | hasRead (i : ℕ) (v : T)
  /-- `consumer_slot` has returned `nullptr`. -/
  | done
  deriving DecidableEq

/-- The pipe, its two users, and what they have passed on. -/
structure PipeRun (T : Type) where
  /-- The pipe. -/
  pipe : ChunkPipe T
  /-- The producer. -/
  producer : Producer := .idle
  /-- The consumer. -/
  consumer : Consumer T := .idle
  /-- What was in the slots that were published, in order. -/
  published : List T := []
  /-- What was read from the slots that were released, in order. -/
  released : List T := []

/-- A step of one of the two. -/
inductive PipeAction (T : Type) where
  /-- The producer gets a slot. -/
  | producerSlot
  /-- The producer writes a chunk into its slot; it may do so more than once. -/
  | fill (v : T)
  /-- The producer publishes its slot. -/
  | publish
  /-- The producer closes the pipe; a slot it was given is left unpublished. -/
  | close
  /-- The consumer gets a slot or `nullptr`. -/
  | consumerSlot
  /-- The consumer reads its slot. -/
  | read
  /-- The consumer releases its slot. -/
  | release

namespace PipeRun

variable {T : Type}

/-- The start, with slots as `Init` has made them. -/
def init (slots : List T) : PipeRun T := { pipe := { slots } }

/-- Everything the consumer has read, in order. -/
def contentsRead (s : PipeRun T) : List T :=
  s.released ++ match s.consumer with
    | .hasRead _ v => [v]
    | _ => []

/-- What the pipe holds and the consumer has not read. -/
def unread (s : PipeRun T) : List T :=
  match s.consumer with
  | .hasRead _ _ => s.pipe.contents.tail
  | _ => s.pipe.contents

/-- A step, if it is enabled. -/
def step (s : PipeRun T) : PipeAction T → Option (PipeRun T)
  | .producerSlot =>
    match s.producer with
    | .idle => s.pipe.producerSlot.map fun i => { s with producer := .filling i }
    | _ => none
  | .fill v =>
    match s.producer with
    | .filling i => some { s with pipe := s.pipe.write i v }
    | _ => none
  | .publish =>
    match s.producer with
    | .filling i =>
      some { s with
        pipe := s.pipe.producerPublish
        producer := .idle
        published := s.published ++ s.pipe.slots[i]?.toList }
    | _ => none
  | .close =>
    match s.producer with
    | .closed => none
    | _ => some { s with pipe := s.pipe.producerClose, producer := .closed }
  | .consumerSlot =>
    match s.consumer with
    | .idle => s.pipe.consumerSlot.map fun
        | some i => { s with consumer := .holding i }
        | none => { s with consumer := .done }
    | _ => none
  | .read =>
    match s.consumer with
    | .holding i => s.pipe.slots[i]?.map fun v => { s with consumer := .hasRead i v }
    | _ => none
  | .release =>
    match s.consumer with
    | .hasRead _ v =>
      some { s with pipe := s.pipe.consumerRelease, consumer := .idle, released := s.released ++ [v] }
    | _ => none

/-- A step is enabled. -/
def Enabled (s : PipeRun T) (a : PipeAction T) : Prop := ∃ t, s.step a = some t

/-- What a step does. -/
inductive Does (s : PipeRun T) : PipeAction T → PipeRun T → Prop
  /-- `producer_slot` returns. -/
  | producerSlot {i : ℕ} : s.producer = .idle → s.pipe.producerSlot = some i →
      Does s .producerSlot { s with producer := .filling i }
  /-- The producer writes. -/
  | fill {i : ℕ} {v : T} : s.producer = .filling i → Does s (.fill v) { s with pipe := s.pipe.write i v }
  /-- `producer_publish`. -/
  | publish {i : ℕ} : s.producer = .filling i →
      Does s .publish
        { s with
          pipe := s.pipe.producerPublish
          producer := .idle
          published := s.published ++ s.pipe.slots[i]?.toList }
  /-- `producer_close`. -/
  | close : Does s .close { s with pipe := s.pipe.producerClose, producer := .closed }
  /-- `consumer_slot` returns a slot. -/
  | consumerSlot {i : ℕ} : s.consumer = .idle → s.pipe.consumerSlot = some (some i) →
      Does s .consumerSlot { s with consumer := .holding i }
  /-- `consumer_slot` returns `nullptr`. -/
  | nullptr : s.consumer = .idle → s.pipe.consumerSlot = some none → Does s .consumerSlot { s with consumer := .done }
  /-- The consumer reads. -/
  | read {i : ℕ} {v : T} : s.consumer = .holding i → s.pipe.slots[i]? = some v →
      Does s .read { s with consumer := .hasRead i v }
  /-- `consumer_release`. -/
  | release {i : ℕ} {v : T} : s.consumer = .hasRead i v →
      Does s .release
        { s with
          pipe := s.pipe.consumerRelease
          consumer := .idle
          released := s.released ++ [v] }

theorem Does.of_step {s t : PipeRun T} {a : PipeAction T} (ha : s.step a = some t) : s.Does a t := by
  cases a with
  | producerSlot =>
    simp only [step] at ha
    split at ha
    · next hprod =>
      obtain ⟨i, hi, rfl⟩ := Option.map_eq_some_iff.mp ha
      exact .producerSlot hprod hi
    · cases ha
  | fill v =>
    simp only [step] at ha
    split at ha
    · next i hprod =>
      cases ha
      exact .fill hprod
    · cases ha
  | publish =>
    simp only [step] at ha
    split at ha
    · next i hprod =>
      cases ha
      exact .publish hprod
    · cases ha
  | close =>
    simp only [step] at ha
    split at ha
    · cases ha
    · cases ha
      exact .close
  | consumerSlot =>
    simp only [step] at ha
    split at ha
    · next hcons =>
      obtain ⟨r, hr, rfl⟩ := Option.map_eq_some_iff.mp ha
      cases r with
      | none => exact .nullptr hcons hr
      | some i => exact .consumerSlot hcons hr
    · cases ha
  | read =>
    simp only [step] at ha
    split at ha
    · next i hcons =>
      obtain ⟨v, hv, rfl⟩ := Option.map_eq_some_iff.mp ha
      exact .read hcons hv
    · cases ha
  | release =>
    simp only [step] at ha
    split at ha
    · next i v hcons =>
      cases ha
      exact .release hcons
    · cases ha

end PipeRun

/-! ### What holds throughout -/

/-- The state of the two loops on a pipe of `depth` slots. -/
structure PipeInv {T : Type} (depth : ℕ) (s : PipeRun T) : Prop where
  size : s.pipe.slots.length = depth
  head : s.pipe.consumerHead < depth
  count : s.pipe.count ≤ depth
  filling : ∀ i, s.producer = .filling i → s.pipe.count < depth ∧ i = (s.pipe.consumerHead + s.pipe.count) % depth
  closed : s.producer = .closed ↔ s.pipe.closed = true
  holding : ∀ i, s.consumer = .holding i → 0 < s.pipe.count ∧ i = s.pipe.consumerHead
  hasRead : ∀ i v, s.consumer = .hasRead i v →
    0 < s.pipe.count ∧ i = s.pipe.consumerHead ∧ s.pipe.slots[i]? = some v
  done : s.consumer = .done → s.pipe.closed = true ∧ s.pipe.count = 0
  published : s.published = s.released ++ s.pipe.contents

section

variable {T : Type} {depth : ℕ} {s t : PipeRun T}

theorem PipeInv.init {slots : List T} (h : 1 ≤ slots.length) : PipeInv slots.length (PipeRun.init slots) where
  size := rfl
  head := h
  count := Nat.zero_le _
  filling := nofun
  closed := ⟨nofun, nofun⟩
  holding := nofun
  hasRead := nofun
  done := nofun
  published := rfl

namespace PipeInv

/-- `producer_slot` hands out the slot behind the contents. -/
theorem producerSlot_eq (h : PipeInv depth s) {i : ℕ} :
    s.pipe.producerSlot = some i ↔ s.pipe.count < depth ∧ i = (s.pipe.consumerHead + s.pipe.count) % depth := by
  unfold ChunkPipe.producerSlot
  rw [h.size]
  split_ifs with hlt
  · simp [hlt, eq_comm]
  · simp [hlt]

/-- The producer's slot has an entry. -/
theorem filling_slot (h : PipeInv depth s) {i : ℕ} (hi : s.producer = .filling i) :
    ∃ v, s.pipe.slots[i]? = some v := by
  obtain ⟨hlt, rfl⟩ := h.filling i hi
  have hlen : 0 < s.pipe.slots.length := h.size ▸ Nat.zero_lt_of_lt hlt
  rw [← h.size]
  exact exists_slot hlen _

/-- The first chunk of the contents is in the slot at `consumer_head_`. -/
theorem contents_eq_cons (h : PipeInv depth s) (hcount : 0 < s.pipe.count) :
    ∃ v, s.pipe.slots[s.pipe.consumerHead]? = some v ∧ s.pipe.contents = v :: s.pipe.consumerRelease.contents := by
  have hhead : s.pipe.consumerHead < s.pipe.slots.length := h.size ▸ h.head
  refine ⟨_, List.getElem?_eq_getElem hhead, ?_⟩
  rw [ChunkPipe.contents_consumerRelease hhead hcount, List.getElem?_eq_getElem hhead]
  rfl

/-- **The slot being filled is not the slot that is held**, nor any other that holds a chunk. -/
theorem filling_ne (h : PipeInv depth s) {i k : ℕ} (hi : s.producer = .filling i) (hk : k < s.pipe.count) :
    i ≠ (s.pipe.consumerHead + k) % depth := by
  obtain ⟨hlt, rfl⟩ := h.filling i hi
  intro heq
  exact absurd (place_inj hlt (Nat.lt_trans hk hlt) heq) (Nat.ne_of_gt hk)

theorem filling_ne_head (h : PipeInv depth s) {i : ℕ} (hi : s.producer = .filling i) (hcount : 0 < s.pipe.count) :
    i ≠ s.pipe.consumerHead := by
  have hne := h.filling_ne hi hcount
  rwa [Nat.add_zero, Nat.mod_eq_of_lt h.head] at hne

/-- **What a step does to what the pipe holds.** -/
theorem contents_step (h : PipeInv depth s) {a : PipeAction T} (ha : s.step a = some t) :
    match a with
    | .producerSlot => s.pipe.contents.length < depth ∧ t.pipe = s.pipe
    | .fill _ => t.pipe.contents = s.pipe.contents ∧ t.pipe.closed = s.pipe.closed
    | .publish => ∃ i v, s.producer = .filling i ∧ s.pipe.slots[i]? = some v ∧ s.pipe.closed = false ∧
        t.pipe.contents = s.pipe.contents ++ [v] ∧ t.pipe.closed = s.pipe.closed
    | .close => t.pipe = s.pipe.producerClose
    | .consumerSlot => t.pipe = s.pipe ∧
        (t.consumer = .done ∧ s.pipe.contents = [] ∧ s.pipe.closed = true ∨ t.consumer ≠ .done ∧ s.pipe.contents ≠ [])
    | .read => t.pipe = s.pipe ∧ ∃ i v, t.consumer = .hasRead i v ∧ ∃ vs, s.pipe.contents = v :: vs
    | .release => (∃ v, t.released = s.released ++ [v] ∧ s.pipe.contents = v :: t.pipe.contents) ∧
        t.pipe.closed = s.pipe.closed := by
  have hpos : 0 < s.pipe.slots.length := h.size ▸ Nat.zero_lt_of_lt h.head
  cases PipeRun.Does.of_step ha with
  | producerSlot hprod hi =>
    refine ⟨?_, rfl⟩
    rw [ChunkPipe.contents, length_window hpos]
    exact (h.producerSlot_eq.mp hi).1
  | fill hprod =>
    rename_i i v
    obtain ⟨hlt, hi⟩ := h.filling i hprod
    have hlt' : s.pipe.count < s.pipe.slots.length := h.size ▸ hlt
    have hwrite := ChunkPipe.contents_write hlt' v
    rw [h.size, ← hi] at hwrite
    exact ⟨hwrite, rfl⟩
  | publish hprod =>
    rename_i i
    obtain ⟨v, hv⟩ := h.filling_slot hprod
    obtain ⟨-, hi⟩ := h.filling i hprod
    have hopen : s.pipe.closed = false := Bool.eq_false_iff.mpr fun hc => by simp [h.closed.mpr hc] at hprod
    refine ⟨i, v, hprod, hv, hopen, ?_, rfl⟩
    rw [ChunkPipe.contents_producerPublish, h.size, ← hi, hv]
    rfl
  | close => rfl
  | consumerSlot hcons hr =>
    obtain ⟨hnone, -⟩ | ⟨-, hcount⟩ := ChunkPipe.consumerSlot_cases hr
    · cases hnone
    · exact ⟨rfl, .inr ⟨by simp, mt (ChunkPipe.contents_eq_nil hpos).mp (Nat.ne_of_gt hcount)⟩⟩
  | nullptr hcons hr =>
    obtain ⟨-, hzero, hclosed⟩ | ⟨hsome, -⟩ := ChunkPipe.consumerSlot_cases hr
    · exact ⟨rfl, .inl ⟨rfl, (ChunkPipe.contents_eq_nil hpos).mpr hzero, hclosed⟩⟩
    · cases hsome
  | read hcons hv =>
    rename_i i v
    obtain ⟨hcount, rfl⟩ := h.holding i hcons
    obtain ⟨w, hw, hcontents⟩ := h.contents_eq_cons hcount
    obtain rfl : v = w := Option.some.inj (hv.symm.trans hw)
    exact ⟨rfl, _, v, rfl, _, hcontents⟩
  | release hcons =>
    rename_i i v
    obtain ⟨hcount, rfl, hv⟩ := h.hasRead i v hcons
    obtain ⟨w, hw, hcontents⟩ := h.contents_eq_cons hcount
    obtain rfl : v = w := Option.some.inj (hv.symm.trans hw)
    exact ⟨⟨v, rfl, hcontents⟩, rfl⟩

/-- **Every step keeps it.** -/
theorem step (h : PipeInv depth s) {a : PipeAction T} (ha : s.step a = some t) : PipeInv depth t := by
  have hcontents := h.contents_step ha
  cases PipeRun.Does.of_step ha with
  | producerSlot hprod hi =>
    have hclosed : s.pipe.closed ≠ true := fun hc => by simp [h.closed.mpr hc] at hprod
    refine { h with filling := fun j hj => ?_, closed := ?_ }
    · cases hj
      exact h.producerSlot_eq.mp hi
    · simp [hclosed]
  | fill hprod =>
    rename_i i v
    refine { h with size := ?_, hasRead := fun j w hj => ?_, published := ?_ }
    · exact (List.length_set ..).trans h.size
    · obtain ⟨hcount, hjhead, hjw⟩ := h.hasRead j w hj
      refine ⟨hcount, hjhead, ?_⟩
      rw [← hjw, hjhead]
      exact List.getElem?_set_ne (h.filling_ne_head hprod hcount)
    · exact h.published.trans (congrArg (s.released ++ ·) hcontents.1.symm)
  | publish hprod =>
    rename_i i
    obtain ⟨k, v, hprod', hv, hopen, hnew, -⟩ := hcontents
    obtain rfl : i = k := Producer.filling.inj (hprod.symm.trans hprod')
    have hclosed : s.pipe.closed ≠ true := Bool.eq_false_iff.mp hopen
    refine { size := h.size, head := h.head, count := (h.filling i hprod).1, filling := nofun, closed := ?_,
             holding := fun j hj => ?_, hasRead := fun j w hj => ?_, done := fun hd => absurd (h.done hd).1 hclosed,
             published := ?_ }
    · exact ⟨nofun, fun hc => absurd hc hclosed⟩
    · exact ⟨Nat.succ_pos _, (h.holding j hj).2⟩
    · exact ⟨Nat.succ_pos _, (h.hasRead j w hj).2⟩
    · change s.published ++ s.pipe.slots[i]?.toList = s.released ++ s.pipe.producerPublish.contents
      rw [h.published, hnew, hv, List.append_assoc]
      rfl
  | close =>
    exact { h with filling := nofun, closed := ⟨fun _ => rfl, fun _ => rfl⟩, done := fun hd => ⟨rfl, (h.done hd).2⟩ }
  | consumerSlot hcons hr =>
    refine { h with holding := fun j hj => ?_, hasRead := nofun, done := nofun }
    cases hj
    obtain ⟨hnone, -⟩ | ⟨hsome, hcount⟩ := ChunkPipe.consumerSlot_cases hr
    · cases hnone
    · exact ⟨hcount, Option.some.inj hsome⟩
  | nullptr hcons hr =>
    refine { h with holding := nofun, hasRead := nofun, done := fun _ => ?_ }
    obtain ⟨-, hzero, hclosed⟩ | ⟨hsome, -⟩ := ChunkPipe.consumerSlot_cases hr
    · exact ⟨hclosed, hzero⟩
    · cases hsome
  | read hcons hv =>
    rename_i i v
    refine { h with holding := nofun, hasRead := fun j w hj => ?_, done := nofun }
    cases hj
    exact ⟨(h.holding i hcons).1, (h.holding i hcons).2, hv⟩
  | release hcons =>
    rename_i i v
    obtain ⟨⟨w, hreleased, hrest⟩, -⟩ := hcontents
    refine { size := h.size, head := ?_, count := Nat.le_trans (Nat.sub_le _ _) h.count, filling := fun j hj => ?_,
             closed := h.closed, holding := nofun, hasRead := nofun, done := nofun, published := ?_ }
    · change (s.pipe.consumerHead + 1) % s.pipe.slots.length < depth
      rw [h.size]
      exact Nat.mod_lt _ (Nat.zero_lt_of_lt h.head)
    · -- the producer's place is the same, counted from the new head
      have hcount := (h.hasRead i v hcons).1
      obtain ⟨hlt, hj⟩ := h.filling j hj
      refine ⟨Nat.lt_of_le_of_lt (Nat.sub_le _ _) hlt, ?_⟩
      change j = ((s.pipe.consumerHead + 1) % s.pipe.slots.length + (s.pipe.count - 1)) % depth
      rw [h.size, Nat.mod_add_mod, hj]
      congr 1
      omega
    · rw [hreleased, List.append_assoc, List.singleton_append, ← hrest]
      exact h.published

/-- What the consumer has read, and what it has not, is what was published. -/
theorem contentsRead_append (h : PipeInv depth s) : s.contentsRead ++ s.unread = s.published := by
  rw [h.published]
  unfold PipeRun.contentsRead PipeRun.unread
  cases hcons : s.consumer with
  | hasRead i v =>
    obtain ⟨hcount, rfl, hv⟩ := h.hasRead i v hcons
    obtain ⟨w, hw, hcontents⟩ := h.contents_eq_cons hcount
    obtain rfl : v = w := Option.some.inj (hv.symm.trans hw)
    simp [hcontents]
  | idle => simp
  | holding i => simp
  | done => simp

end PipeInv

/-! ### The queue of the message model -/

/-- The step at the queue of the message model that a step of the two loops is; the others leave the queue as
it is. -/
def PipeRun.pipeOp {Λ : Type*} (size : T → ℕ) (s : PipeRun T) : PipeAction T → Option (Library.Channels.PipeOp Λ)
  | .producerSlot => some .producerSlot
  | .publish =>
    match s.producer with
    | .filling i => s.pipe.slots[i]?.map fun v => .publish (size v)
    | _ => none
  | .close => some .close
  | .release => some .release
  | _ => none

/-- **The ring is that queue**: each step of the loops is the step of the queue, or no step of it. -/
theorem toPipe_pipeStep {P Sock M Λ : Type*} (𝓜 : Library.Channels.Machine P Sock M Λ) (size : T → ℕ)
    (h : PipeInv 𝓜.depth s) {a : PipeAction T} (ha : s.step a = some t) :
    match s.pipeOp size a with
    | some o => 𝓜.pipeStep (s.pipe.toPipe size) o = some ([], t.pipe.toPipe size)
    | none => t.pipe.toPipe size = s.pipe.toPipe size := by
  have hstep := h.contents_step ha
  cases a with
  | producerSlot =>
    obtain ⟨hlt, hpipe⟩ := hstep
    rw [hpipe]
    refine if_pos ?_
    rwa [ChunkPipe.toPipe, List.length_map]
  | fill v =>
    obtain ⟨hcontents, hclosed⟩ := hstep
    simp only [PipeRun.pipeOp, ChunkPipe.toPipe, hcontents, hclosed]
  | publish =>
    obtain ⟨i, v, hprod, hv, hopen, hcontents, hclosed⟩ := hstep
    simp only [PipeRun.pipeOp, hprod, hv, Option.map_some]
    rw [Library.Channels.publish_iff]
    refine ⟨hopen, rfl, ?_⟩
    simp only [ChunkPipe.toPipe, hcontents, hclosed, List.map_append, List.map_singleton]
  | close =>
    rw [hstep]
    rfl
  | consumerSlot | read => exact congrArg (ChunkPipe.toPipe · size) hstep.1
  | release =>
    obtain ⟨⟨v, -, hcontents⟩, hclosed⟩ := hstep
    simp only [PipeRun.pipeOp, Library.Channels.Machine.pipeStep, ChunkPipe.toPipe, hcontents, hclosed, List.map_cons,
      reduceCtorEq, if_false, List.tail_cons]

/-! ### No loss, no overlap, no deadlock -/

namespace PipeInv

/-- When the consumer has been told that there is nothing more, it has read everything. -/
theorem contentsRead_of_done (h : PipeInv depth s) (hd : s.consumer = .done) : s.contentsRead = s.published := by
  have hzero : s.pipe.contents = [] := by
    rw [ChunkPipe.contents, (h.done hd).2, window_zero]
  rw [h.published, hzero, PipeRun.contentsRead, hd]

/-- **Unless both have ended, one of the two can go on** without the pipe being closed. -/
theorem progress (h : PipeInv depth s) : s.producer = .closed ∧ s.consumer = .done ∨
    ∃ a ∈ [PipeAction.producerSlot, .publish, .consumerSlot, .read, .release], s.Enabled a := by
  cases hcons : s.consumer with
  | holding i =>
    have hi := (h.holding i hcons).2
    obtain ⟨v, hv, -⟩ := h.contents_eq_cons (h.holding i hcons).1
    refine .inr ⟨.read, by simp, Option.isSome_iff_exists.mp ?_⟩
    simp only [PipeRun.step, hcons, hi, hv, Option.map_some, Option.isSome_some]
  | hasRead i v =>
    refine .inr ⟨.release, by simp, Option.isSome_iff_exists.mp ?_⟩
    simp only [PipeRun.step, hcons, Option.isSome_some]
  | done => exact .inl ⟨h.closed.mpr (h.done hcons).1, rfl⟩
  | idle =>
    right
    by_cases hready : 0 < s.pipe.count ∨ s.pipe.closed
    · refine ⟨.consumerSlot, by simp, Option.isSome_iff_exists.mp ?_⟩
      simp only [PipeRun.step, hcons, ChunkPipe.consumerSlot, if_pos hready, Option.map_some, Option.isSome_some]
    · -- the pipe is empty and open: the producer is not held up
      obtain ⟨hzero, hopen⟩ := not_or.mp hready
      cases hprod : s.producer with
      | idle =>
        have hfree : s.pipe.count < s.pipe.slots.length := by
          have hpos := Nat.zero_lt_of_lt h.head
          rw [h.size]
          omega
        refine ⟨.producerSlot, by simp, Option.isSome_iff_exists.mp ?_⟩
        simp only [PipeRun.step, hprod, ChunkPipe.producerSlot, if_pos hfree, Option.map_some, Option.isSome_some]
      | filling i =>
        refine ⟨.publish, by simp, Option.isSome_iff_exists.mp ?_⟩
        simp only [PipeRun.step, hprod, Option.isSome_some]
      | closed => exact absurd (h.closed.mp hprod) hopen

end PipeInv

/-- The consumer holds the slot at index `i`. -/
def Consumer.Holds (c : Consumer T) (i : ℕ) : Prop := c = .holding i ∨ ∃ v, c = .hasRead i v

/-- **`chunk_pipe` is a lossless bounded queue**, for every depth and every interleaving: what has been read is
an initial piece of what has been published; the slot being filled is never the slot held; the count stays
between zero and the depth; `nullptr` comes after the close and the last chunk; and unless both loops have ended
one of them can go on. -/
theorem chunkPipe_fifo (slots : List T) (hdepth : 1 ≤ slots.length)
    (h : Reachable PipeRun.step (PipeRun.init slots) s) :
    s.contentsRead ++ s.unread = s.published ∧
      (∀ i j, s.producer = .filling i → s.consumer.Holds j → i ≠ j) ∧
      s.pipe.count ≤ slots.length ∧
      (s.Enabled .release → 0 < s.pipe.count) ∧
      (s.consumer = .done → s.pipe.closed = true ∧ s.contentsRead = s.published) ∧
      (s.producer = .closed ∧ s.consumer = .done ∨
        ∃ a ∈ [PipeAction.producerSlot, .publish, .consumerSlot, .read, .release], s.Enabled a) := by
  have hinv : PipeInv slots.length s := h.invariant (fun _ _ _ hs ha => hs.step ha) (.init hdepth)
  refine ⟨hinv.contentsRead_append, ?_, hinv.count, ?_, fun hd => ⟨(hinv.done hd).1, hinv.contentsRead_of_done hd⟩,
    hinv.progress⟩
  · rintro i j hi (hj | ⟨v, hj⟩)
    · rw [(hinv.holding j hj).2]
      exact hinv.filling_ne_head hi (hinv.holding j hj).1
    · rw [(hinv.hasRead j v hj).2.1]
      exact hinv.filling_ne_head hi (hinv.hasRead j v hj).1
  · rintro ⟨t, ht⟩
    cases PipeRun.Does.of_step ht with
    | release hcons => exact (hinv.hasRead _ _ hcons).1

/-- Two slots, the first published and held while the second is filled. -/
theorem chunkPipe_fifo_twoSlots : ∃ s : PipeRun ℕ, s.producer = .filling 1 ∧ s.consumer = .hasRead 0 7 ∧
    s.contentsRead ++ s.unread = s.published ∧ s.published = [7] := by
  have hrun : Reachable PipeRun.step (PipeRun.init [0, 0]) _ :=
    ((((((Reachable.refl.tail (a := .producerSlot) rfl).tail (a := .fill 7) rfl).tail (a := .publish) rfl).tail
      (a := .producerSlot) rfl).tail (a := .consumerSlot) rfl).tail (a := .read) rfl).tail (a := .fill 8) rfl
  exact ⟨_, rfl, rfl, (chunkPipe_fifo [0, 0] (by decide) hrun).1, rfl⟩

end

end AG2PC
