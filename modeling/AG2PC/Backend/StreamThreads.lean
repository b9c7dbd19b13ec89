import AG2PC.Backend.ChunkPipe
import AG2PC.Backend.PassCtx

/-!
# The threads of the ciphertext stream

The garble pass and the evaluate pass are two threads each. The garbler's main thread fills chunks and publishes
them into its pipe, and its sender ships them; the evaluator's receiver cuts the bytes it gets into chunks of the
sizes it expects and publishes them, and its main thread takes one entry an AND. Each thread is a step function,
for any batch size.

* `StreamRun.step` — the four threads and the socket, in any order.
* `toQueue_step` — the pipe as a queue is the ring of slots.
-/

namespace AG2PC

/-! ### Chunks and the pipe -/

/-- `AG2PCStreamChunk`: the entries below its `n`. -/
abbrev StreamChunk := List StreamEntry

/-- The capacity of a chunk's buffers. -/
def slotCapacity (K numAnds : ℕ) : ℕ := min K (max 1 numAnds)

/-- The depth of the pipe of both passes. -/
def pipeDepth : ℕ := 2

/-- `chunk_pipe` as a queue: the chunks published and not yet released, the oldest first. -/
structure ChunkQueue where
  /-- The chunks; the consumer holds the first, if it holds one. -/
  chunks : List StreamChunk := []
  /-- `closed_`. -/
  closed : Bool := false

namespace ChunkQueue

variable (q : ChunkQueue)

/-- The wait condition of `producer_slot`. -/
def HasFree : Prop := q.chunks.length < pipeDepth

instance : Decidable q.HasFree := inferInstanceAs (Decidable (_ < _))

/-- `producer_publish`. -/
def publish (c : StreamChunk) : ChunkQueue := { q with chunks := q.chunks ++ [c] }

/-- `producer_close`. -/
def close : ChunkQueue := { q with closed := true }

/-- `consumer_slot`, once there is a chunk or the pipe is closed: the oldest chunk, or `nullptr`. -/
def consumerSlot : Option (Option StreamChunk) :=
  match q.chunks with
  | c :: _ => some (some c)
  | [] => if q.closed then some none else none

/-- `consumer_release`. -/
def release : ChunkQueue := { q with chunks := q.chunks.tail }

end ChunkQueue

/-- The ring of slots as a queue. -/
def ChunkPipe.toQueue (p : ChunkPipe StreamChunk) : ChunkQueue := ⟨p.contents, p.closed⟩

/-- **The queue is the ring**: what a step of the two loops does to the ring is what it does to the queue. -/
theorem toQueue_step {s t : PipeRun StreamChunk} (h : PipeInv pipeDepth s) {a : PipeAction StreamChunk}
    (ha : s.step a = some t) :
    match a with
    | .producerSlot => s.pipe.toQueue.HasFree ∧ t.pipe.toQueue = s.pipe.toQueue
    | .publish => ∃ i c, s.producer = .filling i ∧ s.pipe.slots[i]? = some c ∧
        t.pipe.toQueue = s.pipe.toQueue.publish c
    | .close => t.pipe.toQueue = s.pipe.toQueue.close
    | .consumerSlot => t.pipe.toQueue = s.pipe.toQueue ∧
        (t.consumer = .done ↔ s.pipe.toQueue.consumerSlot = some none)
    | .read => t.pipe.toQueue = s.pipe.toQueue ∧
        ∃ i c, t.consumer = .hasRead i c ∧ s.pipe.toQueue.consumerSlot = some (some c)
    | .fill _ => t.pipe.toQueue = s.pipe.toQueue
    | .release => t.pipe.toQueue = s.pipe.toQueue.release := by
  have hstep := h.contents_step ha
  cases a with
  | producerSlot => exact ⟨hstep.1, congrArg ChunkPipe.toQueue hstep.2⟩
  | fill v => exact congrArg₂ ChunkQueue.mk hstep.1 hstep.2
  | publish =>
    obtain ⟨i, c, hprod, hc, -, hcontents, hclosed⟩ := hstep
    exact ⟨i, c, hprod, hc, congrArg₂ ChunkQueue.mk hcontents hclosed⟩
  | close => exact congrArg ChunkPipe.toQueue hstep
  | consumerSlot =>
    obtain ⟨hpipe, hcase⟩ := hstep
    refine ⟨congrArg ChunkPipe.toQueue hpipe, ?_⟩
    rcases hcase with ⟨hdone, hnil, hclosed⟩ | ⟨hgot, hne⟩
    · refine iff_of_true hdone ?_
      simp only [ChunkQueue.consumerSlot, ChunkPipe.toQueue, hnil, hclosed, if_true]
    · obtain ⟨c, cs, hcontents⟩ := List.exists_cons_of_ne_nil hne
      refine iff_of_false hgot ?_
      simp [ChunkQueue.consumerSlot, ChunkPipe.toQueue, hcontents]
  | read =>
    obtain ⟨hpipe, i, c, hread, cs, hcontents⟩ := hstep
    refine ⟨congrArg ChunkPipe.toQueue hpipe, i, c, hread, ?_⟩
    simp only [ChunkQueue.consumerSlot, ChunkPipe.toQueue, hcontents]
  | release =>
    obtain ⟨⟨c, -, hcontents⟩, hclosed⟩ := hstep
    simp only [ChunkQueue.release, ChunkPipe.toQueue, hcontents, hclosed, List.tail_cons]

/-! ### The socket -/

/-- What goes over the socket. -/
inductive Cell where
  /-- A `block`. -/
  | block (b : Block)
  /-- A byte. -/
  | byte (b : UInt8)

/-- The block of a cell. -/
def Cell.toBlock : Cell → Block
  | .block b => b
  | .byte _ => zeroBlock

/-- The byte of a cell. -/
def Cell.toByte : Cell → UInt8
  | .block _ => 0
  | .byte b => b

/-- `send_data(slot->G)`: two ciphertexts an AND. -/
def gCells (c : StreamChunk) : List Cell := c.flatMap fun e => [.block e.G0, .block e.G1]

/-- `send_data(slot->b)`: a byte an AND. -/
def bCells (c : StreamChunk) : List Cell := c.map fun e => .byte e.b

/-- What a chunk is on the socket. -/
def chunkCells (c : StreamChunk) : List Cell := gCells c ++ bCells c

/-- The chunk whose buffers have received `G` and `b`. -/
def readChunk : List Cell → List Cell → StreamChunk
  | g0 :: g1 :: G, b :: bs => ⟨g0.toBlock, g1.toBlock, b.toByte⟩ :: readChunk G bs
  | _, _ => []

@[simp] theorem length_gCells (c : StreamChunk) : (gCells c).length = 2 * c.length := by
  rw [gCells, List.length_flatMap]
  simp [Nat.mul_comm]

@[simp] theorem length_bCells (c : StreamChunk) : (bCells c).length = c.length := List.length_map _

/-- Three cells an entry. -/
theorem length_flatMap_chunkCells (cs : List StreamChunk) : (cs.flatMap chunkCells).length = 3 * cs.flatten.length := by
  induction cs with
  | nil => rfl
  | cons c cs ih =>
    rw [List.flatMap_cons, List.flatten_cons, List.length_append, List.length_append, ih, chunkCells,
      List.length_append, length_gCells, length_bCells]
    omega

/-- A chunk is read back as it was sent. -/
theorem readChunk_cells (c : StreamChunk) : readChunk (gCells c) (bCells c) = c := by
  induction c with
  | nil => rfl
  | cons e c ih => exact congrArg (e :: ·) ih

/-! ### The garbler's threads -/

/-- Where the main thread of the garble pass is; `todo` are the entries its coming ANDs make. -/
inductive GarblePhase where
  /-- It waits for a slot. -/
  | wantSlot (todo : List StreamEntry)
  /-- It fills a slot, which holds `cur`. -/
  | fill (cur todo : List StreamEntry)
  /-- In `end`, before `producer_close`. -/
  | closing
  /-- In `end`, at `sender_fut.get()`. -/
  | joining
  /-- `end` has returned. -/
  | done

/-- Where the sender is. -/
inductive SenderPhase where
  /-- At `consumer_slot`. -/
  | waiting
  /-- It has a chunk. -/
  | sendG (c : StreamChunk)
  /-- It has sent the ciphertexts. -/
  | sendB (c : StreamChunk)
  /-- It has sent the bytes too. -/
  | releasing (c : StreamChunk)
  /-- The loop has ended. -/
  | exited

/-- The two threads of the garble pass. -/
structure GarbleThreads where
  /-- The main thread. -/
  main : GarblePhase
  /-- The sender. -/
  sender : SenderPhase := .waiting
  /-- The pipe. -/
  pipe : ChunkQueue := {}
  /-- The half-gate hash. -/
  mitc : MITCCRH
  /-- The entries made, each with the hash it was made under. -/
  made : List (MITCCRH × StreamEntry) := []
  /-- The chunks sent and released. -/
  sent : List StreamChunk := []

namespace GarbleThreads

variable (K : ℕ) (s : GarbleThreads)

/-- An entry is made. -/
def make (e : StreamEntry) : GarbleThreads :=
  { s with mitc := s.mitc.advance 1, made := s.made ++ [(s.mitc, e)] }

/-- A step of the main thread: `begin`, `and_gate` and `end` of `AG2PCGarblePass`, with batches of `K`. -/
def mainStep : Option GarbleThreads :=
  match s.main with
  | .wantSlot todo => if s.pipe.HasFree then some { s with main := .fill [] todo } else none
  | .fill cur (e :: todo) =>
    let cur := cur ++ [e]
    if cur.length = K then some { s.make e with pipe := s.pipe.publish cur, main := .wantSlot todo }
    else some { s.make e with main := .fill cur todo }
  | .fill cur [] => some { s with pipe := if 0 < cur.length then s.pipe.publish cur else s.pipe, main := .closing }
  | .closing => some { s with pipe := s.pipe.close, main := .joining }
  | .joining =>
    match s.sender with
    | .exited => some { s with main := .done }
    | _ => none
  | .done => none

/-- A step of the sender, and what it puts on the socket. -/
def senderStep : Option (GarbleThreads × List Cell) :=
  match s.sender with
  | .waiting => s.pipe.consumerSlot.map fun
      | some c => ({ s with sender := .sendG c }, [])
      | none => ({ s with sender := .exited }, [])
  | .sendG c => some ({ s with sender := .sendB c }, gCells c)
  | .sendB c => some ({ s with sender := .releasing c }, bCells c)
  | .releasing c => some ({ s with sender := .waiting, pipe := s.pipe.release, sent := s.sent ++ [c] }, [])
  | .exited => none

/-- The start of the pass, with the entries its ANDs will make. -/
def init (start : MITCCRH) (es : List StreamEntry) : GarbleThreads := { main := .wantSlot es, mitc := start }

/-- The chunks published. -/
def published : List StreamChunk := s.sent ++ s.pipe.chunks

end GarbleThreads

/-! ### The evaluator's threads -/

/-- Where the main thread of the evaluate pass is; `todo` ANDs are to come. -/
inductive EvaluatePhase where
  /-- Between the gates, at entry `loc` of the chunk `cur`, if it has one. -/
  | gates (cur : Option StreamChunk) (loc todo : ℕ)
  /-- In an AND, at `consumer_slot`. -/
  | taking (todo : ℕ)
  /-- `consumer_slot` has returned `nullptr`, which the AND reads through. -/
  | nullptr
  /-- In `end`, at `recv_fut.get()`. -/
  | joining
  /-- `end` has returned. -/
  | done

/-- Where the receiver is; `base` is `recv_base`. -/
inductive ReceiverPhase where
  /-- At the loop condition or `producer_slot`. -/
  | loop (base : ℕ)
  /-- It has a slot and waits for the ciphertexts of `n` ANDs. -/
  | recvG (base n : ℕ)
  /-- It has the ciphertexts and waits for `n` bytes. -/
  | recvB (base n : ℕ) (G : List Cell)
  /-- Its slot holds a chunk. -/
  | full (base n : ℕ) (c : StreamChunk)
  /-- The loop has ended. -/
  | exited

/-- `slot.n`: the size of the chunk the receiver expects. -/
def ReceiverPhase.expects : ReceiverPhase → Option ℕ
  | .recvG _ n | .recvB _ n _ | .full _ n _ => some n
  | _ => none

/-- The two threads of the evaluate pass. -/
structure EvaluateThreads where
  /-- The main thread. -/
  main : EvaluatePhase
  /-- The receiver. -/
  receiver : ReceiverPhase := .loop 0
  /-- The pipe. -/
  pipe : ChunkQueue := {}
  /-- What has come over the socket and was not received. -/
  wire : List Cell := []
  /-- The half-gate hash. -/
  mitc : MITCCRH
  /-- The entries read, each with the hash it was read under. -/
  reads : List (MITCCRH × StreamEntry) := []
  /-- The chunks released. -/
  released : List StreamChunk := []

namespace EvaluateThreads

variable (K numAnds : ℕ) (s : EvaluateThreads)

/-- `consumer_release` of the chunk held, if there is one. -/
def releaseCur (cur : Option StreamChunk) : EvaluateThreads :=
  match cur with
  | some c => { s with pipe := s.pipe.release, released := s.released ++ [c] }
  | none => s

/-- Entry `loc` of the chunk is read. -/
def read (c : StreamChunk) (loc todo : ℕ) : EvaluateThreads :=
  { s with
    main := .gates (some c) (loc + 1) todo
    mitc := s.mitc.advance 1
    reads := s.reads ++ [(s.mitc, c.getD loc default)] }

/-- A step of the main thread: `and_gate` and `end` of `AG2PCEvaluatePass`. -/
def mainStep : Option EvaluateThreads :=
  match s.main with
  | .gates (some c) loc (todo + 1) =>
    if loc = c.length then some { s.releaseCur (some c) with main := .taking todo } else some (s.read c loc todo)
  | .gates none _ (todo + 1) => some { s with main := .taking todo }
  | .gates cur _ 0 => some { s.releaseCur cur with main := .joining }
  | .taking todo => s.pipe.consumerSlot.map fun
      | some c => s.read c 0 todo
      | none => { s with main := .nullptr }
  | .joining =>
    match s.receiver with
    | .exited => some { s with main := .done }
    | _ => none
  | .nullptr | .done => none

/-- A step of the receiver. -/
def receiverStep : Option EvaluateThreads :=
  match s.receiver with
  | .loop base =>
    if base < numAnds then
      if s.pipe.HasFree then some { s with receiver := .recvG base (min K (numAnds - base)) } else none
    else some { s with pipe := s.pipe.close, receiver := .exited }
  | .recvG base n =>
    if 2 * n ≤ s.wire.length then
      some { s with receiver := .recvB base n (s.wire.take (2 * n)), wire := s.wire.drop (2 * n) }
    else none
  | .recvB base n G =>
    if n ≤ s.wire.length then
      some { s with receiver := .full base n (readChunk G (s.wire.take n)), wire := s.wire.drop n }
    else none
  | .full base n c => some { s with pipe := s.pipe.publish c, receiver := .loop (base + n) }
  | .exited => none

/-- The start of the pass, whose source makes `calls` ANDs before it returns or throws. -/
def init (start : MITCCRH) (calls : ℕ) (wire : List Cell) : EvaluateThreads :=
  { main := .gates none 0 calls, mitc := start, wire }

/-- The chunks received. -/
def received : List StreamChunk := s.released ++ s.pipe.chunks

end EvaluateThreads

/-! ### The threads together -/

/-- The threads of a pass: its main thread, and the sender or the receiver. -/
inductive PassThread where
  /-- The thread that runs the source. -/
  | main
  /-- The thread on the socket. -/
  | worker

/-- A step of the garble pass. -/
def GarbleThreads.step (K : ℕ) (s : GarbleThreads) : PassThread → Option GarbleThreads
  | .main => s.mainStep K
  | .worker => s.senderStep.map Prod.fst

/-- A step of the evaluate pass. -/
def EvaluateThreads.step (K numAnds : ℕ) (s : EvaluateThreads) : PassThread → Option EvaluateThreads
  | .main => s.mainStep
  | .worker => s.receiverStep K numAnds

/-- The threads of both passes. -/
inductive StreamThread where
  /-- The garbler's main thread. -/
  | garbler
  /-- Its sender. -/
  | sender
  /-- The evaluator's receiver. -/
  | receiver
  /-- Its main thread. -/
  | evaluator

/-- The threads of both parties, with the socket between them. -/
structure StreamRun where
  /-- The garbler's. -/
  garble : GarbleThreads
  /-- The evaluator's. -/
  evaluate : EvaluateThreads

/-- A step of one thread. -/
def StreamRun.step (K numAnds : ℕ) (s : StreamRun) : StreamThread → Option StreamRun
  | .garbler => (s.garble.mainStep K).map fun g => { s with garble := g }
  | .sender => s.garble.senderStep.map fun r =>
    ⟨r.1, { s.evaluate with wire := s.evaluate.wire ++ r.2 }⟩
  | .receiver => (s.evaluate.receiverStep K numAnds).map fun e => { s with evaluate := e }
  | .evaluator => s.evaluate.mainStep.map fun e => { s with evaluate := e }

/-- The start: the garbler's ANDs make the entries `es`, and the evaluator makes as many. -/
def StreamRun.init (start : MITCCRH) (es : List StreamEntry) : StreamRun :=
  ⟨.init start es, .init start es.length []⟩

/-! ### Entries and hashes -/

/-- Entries with the hashes that successive ANDs use. -/
def tagged (start : MITCCRH) (es : List StreamEntry) : List (MITCCRH × StreamEntry) :=
  es.mapIdx fun k e => (start.advance k, e)

theorem length_tagged (start : MITCCRH) (es : List StreamEntry) : (tagged start es).length = es.length :=
  List.length_mapIdx

theorem tagged_snoc (start : MITCCRH) (es : List StreamEntry) (e : StreamEntry) :
    tagged start (es ++ [e]) = tagged start es ++ [(start.advance es.length, e)] := List.mapIdx_concat

theorem tagged_isPrefix (start : MITCCRH) {xs ys : List StreamEntry} (h : xs <+: ys) :
    tagged start xs <+: tagged start ys := by
  obtain ⟨zs, rfl⟩ := h
  rw [tagged, tagged, List.mapIdx_append]
  exact List.prefix_append _ _

end AG2PC
