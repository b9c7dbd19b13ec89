import AG2PC.Backend.StreamThreads
import AG2PC.Library.Chunking
import Mathlib.Data.List.Infix

/-!
# The evaluator's side of the stream

What holds of the main thread of the evaluate pass and its receiver, which get the cells of given chunks over the
socket.

* `EvaluateInv.receiverStep`, `EvaluateInv.mainStep` — the invariant, step by step.
* `EvaluateInv.done_or_blocked` — the pass comes to its end, or the receiver waits for a free slot.
-/

namespace AG2PC

open Library.Chunking

/-! ### What holds of the evaluator's threads -/

/-- What the receiver has received of the chunk it fills. -/
def ReceiverPhase.partRead : ReceiverPhase → List Cell
  | .recvB _ _ G => G
  | .full _ _ c => chunkCells c
  | _ => []

/-- What the receiver has received. -/
def EvaluateThreads.input (s : EvaluateThreads) : List Cell :=
  s.received.flatMap chunkCells ++ s.receiver.partRead

/-- The receiver has a slot. -/
def ReceiverPhase.Filling : ReceiverPhase → Prop
  | .recvG _ _ | .recvB _ _ _ | .full _ _ _ => True
  | _ => False

/-- The receiver has received the chunks `received`, the first of `all`, and what it fills is the next, of the size
it expects. It leaves when it has all `N` entries. -/
def ReceiverPhase.Holds (N : ℕ) (all received : List StreamChunk) : ReceiverPhase → Prop
  | .loop base => base = received.flatten.length
  | .recvG base n => base = received.flatten.length ∧ ∃ c, received ++ [c] <+: all ∧ c.length = n
  | .recvB base n G => base = received.flatten.length ∧ ∃ c, received ++ [c] <+: all ∧ c.length = n ∧ G = gCells c
  | .full base n c => base = received.flatten.length ∧ received ++ [c] <+: all ∧ c.length = n
  | .exited => received.flatten.length = N

/-- The ANDs to come. -/
def EvaluatePhase.calls : EvaluatePhase → ℕ
  | .gates _ _ todo => todo
  | .taking todo => todo + 1
  | _ => 0

/-- The main thread has done `k` ANDs in batches of `K`, and has released the chunks it is through with. -/
def EvaluatePhase.Holds (K k : ℕ) (q : ChunkQueue) (released : List StreamChunk) : EvaluatePhase → Prop
  | .gates none _ _ => k = 0 ∧ released = []
  | .gates (some c) loc _ =>
    (∃ cs, q.chunks = c :: cs) ∧ 0 < loc ∧ loc ≤ c.length ∧ k = released.flatten.length + loc
  | .taking _ => k = released.flatten.length
  | .nullptr => False
  | .joining | .done => released.length = (k + K - 1) / K

/-- The state of the evaluator's threads, which do `m` ANDs and expect the chunks `all`, of `N` entries in batches
of `K`. -/
structure EvaluateInv (K N : ℕ) (start : MITCCRH) (m : ℕ) (all : List StreamChunk) (s : EvaluateThreads) : Prop where
  stream : s.input ++ s.wire <+: all.flatMap chunkCells
  received : s.received <+: all
  receiver : s.receiver.Holds N all s.received
  slot : s.receiver.Filling → s.pipe.HasFree
  count : s.pipe.chunks.length ≤ pipeDepth
  closed : s.pipe.closed = true ↔ s.receiver = .exited
  main : s.main.Holds K s.reads.length s.pipe s.released
  calls : s.reads.length + s.main.calls = m
  reads : s.reads = tagged start (all.flatten.take s.reads.length)
  mitc : s.mitc = start.advance s.reads.length
  joined : s.main = .done → s.receiver = .exited

/-- What a step of the main thread of the evaluate pass does. -/
inductive EvaluateThreads.MainStep (s : EvaluateThreads) : EvaluateThreads → Prop
  /-- An AND reads the next entry of the chunk. -/
  | read {c : StreamChunk} {loc todo : ℕ} : s.main = .gates (some c) loc (todo + 1) → loc ≠ c.length →
      MainStep s (s.read c loc todo)
  /-- An AND finds the chunk used up. -/
  | release {c : StreamChunk} {todo : ℕ} : s.main = .gates (some c) c.length (todo + 1) →
      MainStep s { s.releaseCur (some c) with main := .taking todo }
  /-- The first AND has no chunk. -/
  | first {loc todo : ℕ} : s.main = .gates none loc (todo + 1) → MainStep s { s with main := .taking todo }
  /-- `end` begins. -/
  | ending {cur : Option StreamChunk} {loc : ℕ} : s.main = .gates cur loc 0 →
      MainStep s { s.releaseCur cur with main := .joining }
  /-- `consumer_slot` returns a chunk, whose first entry is read. -/
  | take {c : StreamChunk} {cs : List StreamChunk} {todo : ℕ} : s.main = .taking todo → s.pipe.chunks = c :: cs →
      MainStep s (s.read c 0 todo)
  /-- `consumer_slot` returns `nullptr`. -/
  | null {todo : ℕ} : s.main = .taking todo → s.pipe.chunks = [] → s.pipe.closed = true →
      MainStep s { s with main := .nullptr }
  /-- `recv_fut.get()` returns. -/
  | join : s.main = .joining → s.receiver = .exited → MainStep s { s with main := .done }

/-- What a step of the receiver does. -/
inductive EvaluateThreads.ReceiverStep (K numAnds : ℕ) (s : EvaluateThreads) : EvaluateThreads → Prop
  /-- `producer_slot` returns. -/
  | slot {base : ℕ} : s.receiver = .loop base → base < numAnds → s.pipe.HasFree →
      ReceiverStep K numAnds s { s with receiver := .recvG base (min K (numAnds - base)) }
  /-- The loop ends, and `producer_close`. -/
  | exit {base : ℕ} : s.receiver = .loop base → numAnds ≤ base →
      ReceiverStep K numAnds s { s with pipe := s.pipe.close, receiver := .exited }
  /-- The ciphertexts come. -/
  | recvG {base n : ℕ} : s.receiver = .recvG base n → 2 * n ≤ s.wire.length →
      ReceiverStep K numAnds s
        { s with receiver := .recvB base n (s.wire.take (2 * n)), wire := s.wire.drop (2 * n) }
  /-- The bytes come. -/
  | recvB {base n : ℕ} {G : List Cell} : s.receiver = .recvB base n G → n ≤ s.wire.length →
      ReceiverStep K numAnds s
        { s with receiver := .full base n (readChunk G (s.wire.take n)), wire := s.wire.drop n }
  /-- `producer_publish`. -/
  | publish {base n : ℕ} {c : StreamChunk} : s.receiver = .full base n c →
      ReceiverStep K numAnds s { s with pipe := s.pipe.publish c, receiver := .loop (base + n) }

section

variable {K N m : ℕ} {start : MITCCRH} {all : List StreamChunk} {s t : EvaluateThreads}

theorem EvaluateThreads.MainStep.of_mainStep (hs : s.mainStep = some t) : s.MainStep t := by
  unfold EvaluateThreads.mainStep at hs
  split at hs
  · next c loc todo hmain =>
    split at hs
    · next hloc =>
      subst hloc
      cases hs
      exact .release hmain
    · next hloc =>
      cases hs
      exact .read hmain hloc
  · next loc todo hmain =>
    cases hs
    exact .first hmain
  · next cur loc hmain =>
    cases hs
    exact .ending hmain
  · next todo hmain =>
    obtain ⟨r, hr, heq⟩ := Option.map_eq_some_iff.mp hs
    unfold ChunkQueue.consumerSlot at hr
    split at hr
    · next c cs hchunks =>
      cases hr
      cases heq
      exact .take hmain hchunks
    · next hchunks =>
      split at hr
      · next hclosed =>
        cases hr
        cases heq
        exact .null hmain hchunks hclosed
      · cases hr
  · next hmain =>
    split at hs
    · next hexit =>
      cases hs
      exact .join hmain hexit
    · cases hs
  · cases hs
  · cases hs

theorem EvaluateThreads.ReceiverStep.of_receiverStep (hs : s.receiverStep K N = some t) :
    s.ReceiverStep K N t := by
  unfold EvaluateThreads.receiverStep at hs
  cases hreceiver : s.receiver with
  | loop base =>
    simp only [hreceiver] at hs
    split at hs
    · next hlt =>
      split at hs
      · next hfree =>
        cases hs
        exact .slot hreceiver hlt hfree
      · cases hs
    · next hle =>
      cases hs
      exact .exit hreceiver (Nat.le_of_not_lt hle)
  | recvG base n =>
    simp only [hreceiver] at hs
    split at hs
    · next hlen =>
      cases hs
      exact .recvG hreceiver hlen
    · cases hs
  | recvB base n G =>
    simp only [hreceiver] at hs
    split at hs
    · next hlen =>
      cases hs
      exact .recvB hreceiver hlen
    · cases hs
  | full base n c =>
    simp only [hreceiver] at hs
    cases hs
    exact .publish hreceiver
  | exited =>
    simp only [hreceiver] at hs
    cases hs

/-! ### The receiver -/

/-- What comes over the wire next, when it is there. -/
theorem take_of_isPrefix {β : Type} {before wire next total : List β} (h : before ++ wire <+: total)
    (h' : before ++ next <+: total) (hlen : next.length ≤ wire.length) : wire.take next.length = next := by
  have hpre : before ++ next <+: before ++ wire := by
    refine List.prefix_of_prefix_length_le h' h ?_
    rw [List.length_append, List.length_append]
    exact Nat.add_le_add_left hlen _
  exact (List.prefix_iff_eq_take.mp ((List.prefix_append_right_inj before).mp hpre)).symm

/-- The chunks to come are those the receiver expects. -/
theorem exists_next (hchunked : Chunked K N all) (hall : all.flatten.length = N) {received : List StreamChunk}
    (h : received <+: all) (hlt : received.flatten.length < N) :
    ∃ c, received ++ [c] <+: all ∧ c.length = min K (N - received.flatten.length) := by
  obtain ⟨rest, rfl⟩ := h
  cases rest with
  | nil =>
    rw [List.append_nil] at hall
    omega
  | cons c rest =>
    refine ⟨c, ⟨rest, ?_⟩, hchunked.split.2⟩
    rw [List.append_assoc, List.singleton_append]

theorem cells_isPrefix {received : List StreamChunk} {c : StreamChunk} (h : received ++ [c] <+: all) :
    received.flatMap chunkCells ++ chunkCells c <+: all.flatMap chunkCells := by
  have hcells := h.flatMap chunkCells
  rwa [List.flatMap_append, List.flatMap_singleton] at hcells

/-- A chunk published by the receiver does not disturb the main thread. -/
theorem EvaluatePhase.Holds.publish {k : ℕ} {q : ChunkQueue} {released : List StreamChunk} {p : EvaluatePhase}
    (h : p.Holds K k q released) (c : StreamChunk) : p.Holds K k (q.publish c) released := by
  cases p with
  | gates cur loc todo =>
    cases cur with
    | none => exact h
    | some d =>
      obtain ⟨⟨cs, hcs⟩, hrest⟩ := h
      exact ⟨⟨cs ++ [c], congrArg (· ++ [c]) hcs⟩, hrest⟩
  | taking todo | nullptr | joining | done => exact h

/-- The bytes that come after the ciphertexts of a chunk are its own. -/
theorem EvaluateInv.take_bytes (h : EvaluateInv K N start m all s) {base n : ℕ} {c : StreamChunk}
    (hreceiver : s.receiver = .recvB base n (gCells c)) (hpre : s.received ++ [c] <+: all)
    (hlen : c.length ≤ s.wire.length) : s.wire.take c.length = bCells c := by
  have hstream := h.stream
  unfold EvaluateThreads.input at hstream
  rw [hreceiver] at hstream
  rw [← length_bCells] at hlen ⊢
  refine take_of_isPrefix hstream ?_ hlen
  rw [List.append_assoc]
  exact cells_isPrefix hpre

/-- **The receiver** loses nothing of the stream. -/
theorem EvaluateInv.stream_receiverStep (h : EvaluateInv K N start m all s) (hs : s.receiverStep K N = some t) :
    t.input ++ t.wire = s.input ++ s.wire := by
  have hholds := h.receiver
  unfold EvaluateThreads.input
  cases EvaluateThreads.ReceiverStep.of_receiverStep hs with
  | slot hreceiver _ _ | exit hreceiver _ =>
    rw [hreceiver]
    rfl
  | recvG hreceiver hlen =>
    rw [hreceiver]
    simp only [ReceiverPhase.partRead, List.append_nil, List.append_assoc, List.take_append_drop]
    rfl
  | recvB hreceiver hlen =>
    rename_i base n G
    rw [hreceiver] at hholds ⊢
    obtain ⟨-, c, hpre, rfl, rfl⟩ := hholds
    have hnext := h.take_bytes hreceiver hpre hlen
    have hcells : bCells c ++ s.wire.drop c.length = s.wire := by rw [← hnext, List.take_append_drop]
    change _ ++ chunkCells (readChunk (gCells c) (s.wire.take c.length)) ++ s.wire.drop c.length =
      _ ++ gCells c ++ s.wire
    rw [hnext, readChunk_cells, chunkCells, List.append_assoc, List.append_assoc, hcells, List.append_assoc]
    rfl
  | publish hreceiver =>
    rename_i base n c
    rw [hreceiver]
    simp only [EvaluateThreads.received, ChunkQueue.publish, ReceiverPhase.partRead, List.append_nil,
      List.flatMap_append, List.flatMap_singleton, List.append_assoc]

/-- **The receiver.** -/
theorem EvaluateInv.receiverStep (hchunked : Chunked K N all) (hall : all.flatten.length = N)
    (h : EvaluateInv K N start m all s) (hs : s.receiverStep K N = some t) : EvaluateInv K N start m all t := by
  have hstream := h.stream_receiverStep hs
  have hholds := h.receiver
  have hslot := h.slot
  have hopen : s.receiver ≠ .exited → ¬ s.pipe.closed = true := mt h.closed.mp
  have hjoined := h.joined
  cases EvaluateThreads.ReceiverStep.of_receiverStep hs with
  | slot hreceiver hlt hfree =>
    rw [hreceiver] at hholds hopen hjoined
    obtain rfl := hholds
    obtain ⟨c, hpre, hlen⟩ := exists_next hchunked hall h.received hlt
    exact ⟨hstream ▸ h.stream, h.received, ⟨rfl, c, hpre, hlen⟩, fun _ => hfree, h.count,
      iff_of_false (hopen (by simp)) (by simp), h.main, h.calls, h.reads, h.mitc, fun hm => (by cases hjoined hm)⟩
  | exit hreceiver hle =>
    rw [hreceiver] at hholds
    obtain rfl := hholds
    have hlast : s.received.flatten.length = N := by
      refine Nat.le_antisymm ?_ hle
      rw [← hall]
      exact h.received.flatten.length_le
    exact ⟨hstream ▸ h.stream, h.received, hlast, fun hf => hf.elim, h.count, iff_of_true rfl rfl, h.main, h.calls,
      h.reads, h.mitc, fun _ => rfl⟩
  | recvG hreceiver hlen =>
    rename_i base n
    have hfree := hslot (hreceiver ▸ trivial)
    have hcells := h.stream
    unfold EvaluateThreads.input at hcells
    rw [hreceiver] at hholds hopen hjoined hcells
    obtain ⟨hbase, c, hpre, rfl⟩ := hholds
    have hG : s.wire.take (2 * c.length) = gCells c := by
      change _ ++ [] ++ _ <+: _ at hcells
      rw [List.append_nil] at hcells
      rw [← length_gCells] at hlen ⊢
      refine take_of_isPrefix hcells ?_ hlen
      refine List.IsPrefix.trans ?_ (cells_isPrefix hpre)
      exact (List.prefix_append_right_inj _).mpr (List.prefix_append _ _)
    exact ⟨hstream ▸ h.stream, h.received, ⟨hbase, c, hpre, rfl, hG⟩, fun _ => hfree, h.count,
      iff_of_false (hopen (by simp)) (by simp), h.main, h.calls, h.reads, h.mitc, fun hm => (by cases hjoined hm)⟩
  | recvB hreceiver hlen =>
    rename_i base n G
    have hfree := hslot (hreceiver ▸ trivial)
    rw [hreceiver] at hholds hopen hjoined
    obtain ⟨hbase, c, hpre, rfl, rfl⟩ := hholds
    have hc : readChunk (gCells c) (s.wire.take c.length) = c := by
      rw [h.take_bytes hreceiver hpre hlen, readChunk_cells]
    refine ⟨hstream ▸ h.stream, h.received, ⟨hbase, ?_⟩, fun _ => hfree, h.count,
      iff_of_false (hopen (by simp)) (by simp), h.main, h.calls, h.reads, h.mitc, fun hm => (by cases hjoined hm)⟩
    rw [hc]
    exact ⟨hpre, rfl⟩
  | publish hreceiver =>
    rename_i base n c
    have hfree := hslot (hreceiver ▸ trivial)
    rw [hreceiver] at hholds hopen hjoined
    obtain ⟨rfl, hpre, rfl⟩ := hholds
    have hrec : s.released ++ (s.pipe.chunks ++ [c]) = s.received ++ [c] := (List.append_assoc _ _ _).symm
    refine ⟨hstream ▸ h.stream, ?_, ?_, fun hf => hf.elim, ?_, iff_of_false (hopen (by simp)) (by simp),
      h.main.publish c, h.calls, h.reads, h.mitc, fun hm => (by cases hjoined hm)⟩
    · change s.released ++ (s.pipe.chunks ++ [c]) <+: all
      rwa [hrec]
    · change s.received.flatten.length + c.length = (s.released ++ (s.pipe.chunks ++ [c])).flatten.length
      rw [hrec, List.flatten_append, List.length_append, List.flatten_singleton]
    · change (s.pipe.chunks ++ [c]).length ≤ pipeDepth
      rw [List.length_append, List.length_singleton]
      exact hfree

/-! ### The evaluator's main thread -/

theorem EvaluateInv.init {wire : List Cell} (hwire : wire <+: all.flatMap chunkCells) :
    EvaluateInv K N start m all (.init start m wire) where
  stream := hwire
  received := List.nil_prefix
  receiver := rfl
  slot h := h.elim
  count := Nat.zero_le _
  closed := ⟨fun h => (by cases h), fun h => (by cases h)⟩
  main := ⟨rfl, rfl⟩
  calls := Nat.zero_add _
  reads := rfl
  mitc := rfl
  joined h := by cases h

/-- An entry of the oldest chunk is the entry of the stream at its place. -/
theorem EvaluateInv.getElem?_flatten (h : EvaluateInv K N start m all s) {c : StreamChunk} {cs : List StreamChunk}
    {loc : ℕ} (hchunks : s.pipe.chunks = c :: cs) (hloc : loc < c.length) :
    all.flatten[s.released.flatten.length + loc]? = some (c.getD loc default) := by
  obtain ⟨rest, hrest⟩ := h.received
  have hall : all.flatten = s.released.flatten ++ (c ++ (cs ++ rest).flatten) := by
    rw [← hrest, EvaluateThreads.received, hchunks]
    simp
  rw [hall, List.getElem?_append_right (Nat.le_add_right _ _), Nat.add_sub_cancel_left,
    List.getElem?_append_left hloc, List.getD_eq_getElem?_getD, List.getElem?_eq_getElem hloc]
  rfl

/-- **An AND reads the next entry.** -/
theorem EvaluateInv.read (h : EvaluateInv K N start m all s) {c : StreamChunk} {cs : List StreamChunk} {loc todo : ℕ}
    (hchunks : s.pipe.chunks = c :: cs) (hloc : loc < c.length)
    (hreads : s.reads.length = s.released.flatten.length + loc) (hcalls : s.main.calls = todo + 1) :
    EvaluateInv K N start m all (s.read c loc todo) := by
  have hlen : (s.read c loc todo).reads.length = s.reads.length + 1 := List.length_append
  have hentry := h.getElem?_flatten hchunks hloc
  have htake : all.flatten.take (s.reads.length + 1) =
      all.flatten.take s.reads.length ++ [c.getD loc default] := by
    rw [List.take_add_one, hreads, hentry]
    rfl
  have hbound : s.reads.length ≤ all.flatten.length := by
    rw [hreads]
    exact Nat.le_of_lt (List.getElem?_eq_some_iff.mp hentry).1
  refine ⟨h.stream, h.received, h.receiver, h.slot, h.count, h.closed, ?_, ?_, ?_, ?_, fun hm => (by cases hm)⟩
  · exact ⟨⟨cs, hchunks⟩, Nat.succ_pos _, hloc, hlen.trans (congrArg (· + 1) hreads)⟩
  · have hm := h.calls
    rw [hcalls] at hm
    rw [hlen]
    change _ + todo = m
    omega
  · rw [hlen, htake, tagged_snoc, ← h.reads, List.length_take, Nat.min_eq_left hbound, ← h.mitc]
    rfl
  · change s.mitc.advance 1 = _
    rw [hlen, h.mitc]
    rfl

/-- A chunk the main thread is through with leaves the pipe. -/
theorem received_releaseCur {c : StreamChunk} {cs : List StreamChunk} (hchunks : s.pipe.chunks = c :: cs) :
    (s.releaseCur (some c)).received = s.received := by
  simp only [EvaluateThreads.received, EvaluateThreads.releaseCur, ChunkQueue.release, hchunks, List.tail_cons]
  exact List.append_assoc _ _ _

/-- What the other thread sees does not change when the main thread moves on. -/
theorem EvaluateInv.of_main (h : EvaluateInv K N start m all s) (hreceived : t.received = s.received)
    (hreceiver : t.receiver = s.receiver) (hwire : t.wire = s.wire) (hclosed : t.pipe.closed = s.pipe.closed)
    (hchunks : t.pipe.chunks.length ≤ s.pipe.chunks.length) (hreads : t.reads = s.reads) (hmitc : t.mitc = s.mitc)
    (hjoined : t.main = .done → s.receiver = .exited)
    (hmain : t.main.Holds K s.reads.length t.pipe t.released) (hcalls : t.main.calls = s.main.calls) :
    EvaluateInv K N start m all t := by
  refine ⟨?_, ?_, ?_, fun hf => ?_, Nat.le_trans hchunks h.count, ?_, ?_, ?_, ?_, ?_, fun hm => ?_⟩
  · rw [EvaluateThreads.input, hreceived, hreceiver, hwire]
    exact h.stream
  · rw [hreceived]
    exact h.received
  · rw [hreceived, hreceiver]
    exact h.receiver
  · exact Nat.lt_of_le_of_lt hchunks (h.slot (hreceiver ▸ hf))
  · rw [hclosed, hreceiver]
    exact h.closed
  · rw [hreads]
    exact hmain
  · rw [hreads, hcalls]
    exact h.calls
  · rw [hreads]
    exact h.reads
  · rw [hmitc, hreads]
    exact h.mitc
  · rw [hreceiver]
    exact hjoined hm

/-- The chunks before the one that is read are full. -/
theorem EvaluateInv.length_released (hchunked : Chunked K N all) (h : EvaluateInv K N start m all s)
    {c : StreamChunk} {cs : List StreamChunk} (hchunks : s.pipe.chunks = c :: cs) :
    s.released.flatten.length = K * s.released.length ∧ c ≠ [] ∧ c.length ≤ K := by
  have hrec : Chunked K N (s.released ++ c :: cs) := by
    rw [← hchunks]
    exact hchunked.of_isPrefix h.received
  have hfirst : Chunked K N (s.released ++ [c]) := by
    refine hrec.of_isPrefix ?_
    exact (List.prefix_append_right_inj _).mpr (List.prefix_append [c] cs)
  have hlen := (chunked_append.mp hrec).1.length_flatten
  have hlt := hfirst.length_lt
  obtain ⟨hne, hc⟩ := hrec.split
  exact ⟨by omega, hne, by omega⟩

/-- **The evaluator's main thread** never reads through a null pointer. -/
theorem EvaluateInv.mainStep (hK : 0 < K) (hchunked : Chunked K N all) (hm : m ≤ N)
    (h : EvaluateInv K N start m all s) (hs : s.mainStep = some t) : EvaluateInv K N start m all t := by
  have hmain := h.main
  have hcalls := h.calls
  cases EvaluateThreads.MainStep.of_mainStep hs with
  | read heq hne =>
    rename_i c loc todo
    rw [heq] at hmain
    obtain ⟨⟨cs, hchunks⟩, -, hle, hreads⟩ := hmain
    exact h.read hchunks (Nat.lt_of_le_of_ne hle hne) hreads (by rw [heq]; rfl)
  | release heq =>
    rename_i c todo
    rw [heq] at hmain
    obtain ⟨⟨cs, hchunks⟩, -, -, hreads⟩ := hmain
    refine h.of_main (received_releaseCur hchunks) rfl rfl rfl ?_ rfl rfl (by simp) ?_ (by rw [heq]; rfl)
    · simp [EvaluateThreads.releaseCur, ChunkQueue.release]
    · change s.reads.length = (s.released ++ [c]).flatten.length
      rw [hreads, List.flatten_append, List.length_append, List.flatten_singleton]
  | first heq =>
    rw [heq] at hmain
    obtain ⟨hzero, hnil⟩ := hmain
    refine h.of_main rfl rfl rfl rfl (Nat.le_refl _) rfl rfl (by simp) ?_ (by rw [heq]; rfl)
    change s.reads.length = s.released.flatten.length
    rw [hzero, hnil]
    rfl
  | ending heq =>
    rename_i cur loc
    rw [heq] at hmain
    cases cur with
    | none =>
      obtain ⟨hzero, hnil⟩ := hmain
      refine h.of_main rfl rfl rfl rfl (Nat.le_refl _) rfl rfl (by simp) ?_ (by rw [heq]; rfl)
      change s.released.length = (s.reads.length + K - 1) / K
      rw [hzero, hnil, Nat.div_eq_of_lt (by omega)]
      rfl
    | some c =>
      obtain ⟨⟨cs, hchunks⟩, hpos, hle, hreads⟩ := hmain
      obtain ⟨hfull, -, hc⟩ := h.length_released hchunked hchunks
      refine h.of_main (received_releaseCur hchunks) rfl rfl rfl ?_ rfl rfl (by simp) ?_ (by rw [heq]; rfl)
      · simp [EvaluateThreads.releaseCur, ChunkQueue.release]
      · change (s.released ++ [c]).length = (s.reads.length + K - 1) / K
        rw [hreads, hfull, List.length_append, List.length_singleton]
        refine (Nat.div_eq_of_lt_le ?_ ?_).symm
        · rw [Nat.succ_mul, Nat.mul_comm]
          omega
        · rw [Nat.succ_mul, Nat.succ_mul, Nat.mul_comm]
          omega
  | take heq hchunks =>
    rename_i c cs todo
    rw [heq] at hmain
    obtain ⟨-, hne, -⟩ := h.length_released hchunked hchunks
    exact h.read hchunks (List.length_pos_iff_ne_nil.mpr hne) hmain (by rw [heq]; rfl)
  | null heq hchunks hclosed =>
    -- the receiver has left, so every entry was released, but this AND has read none of them
    rename_i todo
    have hreceiver := h.receiver
    rw [heq] at hmain hcalls
    rw [h.closed.mp hclosed] at hreceiver
    have hall : s.released.flatten.length = N := by
      have hlast : (s.released ++ s.pipe.chunks).flatten.length = N := hreceiver
      rwa [hchunks, List.append_nil] at hlast
    have hreads : s.reads.length = s.released.flatten.length := hmain
    have hleft : s.reads.length + (todo + 1) = m := hcalls
    omega
  | join heq hexit =>
    rw [heq] at hmain
    exact h.of_main rfl rfl rfl rfl (Nat.le_refl _) rfl rfl (fun _ => hexit) hmain (by rw [heq]; rfl)

/-- The main thread receives nothing. -/
theorem EvaluateInv.stream_mainStep (h : EvaluateInv K N start m all s) (hs : s.mainStep = some t) :
    t.input ++ t.wire = s.input ++ s.wire := by
  have hmain := h.main
  unfold EvaluateThreads.input
  cases EvaluateThreads.MainStep.of_mainStep hs with
  | read | first | take | null | join => rfl
  | release heq =>
    rw [heq] at hmain
    obtain ⟨⟨cs, hchunks⟩, -⟩ := hmain
    exact congrArg (fun r : List StreamChunk => r.flatMap chunkCells ++ s.receiver.partRead ++ s.wire)
      (received_releaseCur hchunks)
  | ending heq =>
    rename_i cur loc
    rw [heq] at hmain
    cases cur with
    | none => rfl
    | some c =>
      obtain ⟨⟨cs, hchunks⟩, -⟩ := hmain
      exact congrArg (fun r : List StreamChunk => r.flatMap chunkCells ++ s.receiver.partRead ++ s.wire)
        (received_releaseCur hchunks)

/-- The entries read have been received. -/
theorem EvaluateInv.reads_le (hK : 0 < K) (hchunked : Chunked K N all) (hm : m ≤ N)
    (h : EvaluateInv K N start m all s) : s.reads.length ≤ s.received.flatten.length := by
  have hmain := h.main
  have hcalls := h.calls
  have hrec : s.received.flatten.length = s.released.flatten.length + s.pipe.chunks.flatten.length := by
    rw [EvaluateThreads.received, List.flatten_append, List.length_append]
  have hended : s.released.length = (s.reads.length + K - 1) / K → s.reads.length ≤ s.released.flatten.length := by
    intro hlen
    have hreleased : Chunked K N s.released := hchunked.of_isPrefix ((List.prefix_append _ _).trans h.received)
    have hdiv := Nat.div_add_mod (s.reads.length + K - 1) K
    have hmod := Nat.mod_lt (s.reads.length + K - 1) hK
    rw [hreleased.length_flatten, hlen]
    omega
  cases heq : s.main with
  | gates cur loc todo =>
    rw [heq] at hmain
    cases cur with
    | none =>
      obtain ⟨hzero, -⟩ := hmain
      omega
    | some c =>
      obtain ⟨⟨cs, hchunks⟩, -, hle, hreads⟩ := hmain
      rw [hchunks, List.flatten_cons, List.length_append] at hrec
      omega
  | taking todo =>
    rw [heq] at hmain
    have hreads : s.reads.length = s.released.flatten.length := hmain
    omega
  | nullptr =>
    rw [heq] at hmain
    exact hmain.elim
  | joining | done =>
    rw [heq] at hmain
    have hreads := hended hmain
    omega

/-! ### Where the evaluate pass can stop -/

/-- **When everything has been sent, the receiver is held up by a full pipe alone.** -/
theorem EvaluateInv.receiver_stopped (h : EvaluateInv K N start m all s)
    (hsent : s.input ++ s.wire = all.flatMap chunkCells) (hs : s.receiverStep K N = none) :
    s.receiver = .exited ∨ ∃ base, s.receiver = .loop base ∧ base < N ∧ ¬ s.pipe.HasFree := by
  have hholds := h.receiver
  unfold EvaluateThreads.input at hsent
  unfold EvaluateThreads.receiverStep at hs
  cases hreceiver : s.receiver with
  | loop base =>
    simp only [hreceiver] at hs
    split at hs
    · next hlt =>
      split at hs
      · cases hs
      · next hfull => exact .inr ⟨base, rfl, hlt, hfull⟩
    · cases hs
  | recvG base n =>
    -- the chunk it waits for is on the wire
    rw [hreceiver] at hholds hsent
    obtain ⟨-, c, hpre, rfl⟩ := hholds
    have hlen := (cells_isPrefix hpre).length_le
    rw [← hsent] at hlen
    simp only [ReceiverPhase.partRead, chunkCells, List.length_append, length_gCells, length_bCells,
      List.length_nil] at hlen
    simp only [hreceiver] at hs
    rw [if_pos (by omega)] at hs
    cases hs
  | recvB base n G =>
    rw [hreceiver] at hholds hsent
    obtain ⟨-, c, hpre, rfl, rfl⟩ := hholds
    have hlen := (cells_isPrefix hpre).length_le
    rw [← hsent] at hlen
    simp only [ReceiverPhase.partRead, chunkCells, List.length_append, length_gCells, length_bCells] at hlen
    simp only [hreceiver] at hs
    rw [if_pos (by omega)] at hs
    cases hs
  | full base n c =>
    simp only [hreceiver] at hs
    cases hs
  | exited => exact .inl rfl

/-- **When no thread of the evaluate pass can go on, `end` has returned**, or waits for a receiver that waits for a
free slot. -/
theorem EvaluateInv.done_or_blocked (h : EvaluateInv K N start m all s)
    (hsent : s.input ++ s.wire = all.flatMap chunkCells) (hmain : s.mainStep = none)
    (hreceiver : s.receiverStep K N = none) : s.main = .done ∨
      s.main = .joining ∧ ∃ base, s.receiver = .loop base ∧ base < N ∧ ¬ s.pipe.HasFree := by
  have hholds := h.main
  cases heq : s.main with
  | gates cur loc todo =>
    unfold EvaluateThreads.mainStep at hmain
    rw [heq] at hmain
    cases todo with
    | zero => cases cur <;> cases hmain
    | succ todo =>
      cases cur with
      | none => cases hmain
      | some c =>
        simp only at hmain
        split at hmain <;> cases hmain
  | taking todo =>
    -- the pipe is empty and open, so the receiver is not held up
    unfold EvaluateThreads.mainStep ChunkQueue.consumerSlot at hmain
    rw [heq] at hmain
    cases hchunks : s.pipe.chunks with
    | cons c cs => simp [hchunks] at hmain
    | nil =>
      rcases h.receiver_stopped hsent hreceiver with hexit | ⟨base, -, -, hfull⟩
      · simp [hchunks, h.closed.mpr hexit] at hmain
      · exact absurd (by simp [ChunkQueue.HasFree, hchunks, pipeDepth]) hfull
  | nullptr =>
    rw [heq] at hholds
    exact hholds.elim
  | joining =>
    rcases h.receiver_stopped hsent hreceiver with hexit | hblocked
    · simp [EvaluateThreads.mainStep, heq, hexit] at hmain
    · exact .inr ⟨rfl, hblocked⟩
  | done => exact .inl rfl

/-- A receiver that is held up at the join expects more chunks than the pipe has slots. -/
theorem EvaluateInv.lt_of_blocked (hchunked : Chunked K N all) (hall : all.flatten.length = N)
    (h : EvaluateInv K N start m all s) (hjoin : s.main = .joining) {base : ℕ} (hloop : s.receiver = .loop base)
    (hlt : base < N) (hfull : ¬ s.pipe.HasFree) : (m + K - 1) / K + pipeDepth < (N + K - 1) / K := by
  have hmain := h.main
  have hcalls := h.calls
  have hreceiver := h.receiver
  rw [hjoin] at hmain hcalls
  rw [hloop] at hreceiver
  obtain rfl : s.reads.length = m := hcalls
  obtain rfl := hreceiver
  have hreleased : s.released.length = (s.reads.length + K - 1) / K := hmain
  obtain ⟨c, hpre, -⟩ := exists_next hchunked hall h.received hlt
  have hlen := hpre.length_le
  have hpipe : pipeDepth ≤ s.pipe.chunks.length := Nat.le_of_not_lt hfull
  rw [← hreleased, ← hchunked.length_eq hall]
  simp only [EvaluateThreads.received, List.length_append, List.length_singleton] at hlen
  omega

/-- A receiver that is joined has found room for every chunk it expects. -/
theorem EvaluateInv.le_of_done (hchunked : Chunked K N all) (h : EvaluateInv K N start m all s)
    (hdone : s.main = .done) : (N + K - 1) / K ≤ (m + K - 1) / K + pipeDepth := by
  have hmain := h.main
  have hcalls := h.calls
  have hreceiver := h.receiver
  have hexit := h.joined hdone
  rw [hdone] at hmain hcalls
  rw [hexit] at hreceiver
  obtain rfl : s.reads.length = m := hcalls
  have hreleased : s.released.length = (s.reads.length + K - 1) / K := hmain
  have hreceived : s.received.flatten.length = N := hreceiver
  have hpipe := h.count
  rw [← hreleased, ← (hchunked.of_isPrefix h.received).length_eq hreceived, EvaluateThreads.received,
    List.length_append]
  omega

/-- What is left for the receiver, four steps an entry at most. -/
def ReceiverPhase.rank (N : ℕ) : ReceiverPhase → ℕ
  | .loop base => 4 * (N - base) + 1
  | .recvG base _ => 4 * (N - base)
  | .recvB base _ _ => 4 * (N - base) - 1
  | .full base _ _ => 4 * (N - base) - 2
  | .exited => 0

/-- What is left for the main thread. -/
def EvaluatePhase.rank : EvaluatePhase → ℕ
  | .gates _ _ todo => 3 * todo + 3
  | .taking todo => 3 * todo + 5
  | .joining => 1
  | .nullptr | .done => 0

/-- What is left of the evaluate pass. -/
def EvaluateThreads.rank (N : ℕ) (s : EvaluateThreads) : ℕ := s.main.rank + s.receiver.rank N

/-- **Every step of the evaluate pass uses some of it up.** -/
theorem EvaluateThreads.rank_lt_mainStep (hs : s.mainStep = some t) : t.rank N < s.rank N := by
  unfold EvaluateThreads.rank
  cases EvaluateThreads.MainStep.of_mainStep hs with
  | read heq _ | release heq | first heq | take heq _ | null heq _ _ | join heq _ =>
    rw [heq]
    simp only [EvaluatePhase.rank, EvaluateThreads.read, EvaluateThreads.releaseCur]
    omega
  | ending heq =>
    rename_i cur loc
    rw [heq]
    cases cur <;> simp [EvaluatePhase.rank, EvaluateThreads.releaseCur]

theorem EvaluateInv.rank_lt_receiverStep (hchunked : Chunked K N all) (hall : all.flatten.length = N)
    (h : EvaluateInv K N start m all s) (hs : s.receiverStep K N = some t) : t.rank N < s.rank N := by
  have hholds := h.receiver
  -- there is an entry to come as long as the receiver has a slot
  have hnext : ∀ c, s.received ++ [c] <+: all → 0 < c.length ∧ s.received.flatten.length + c.length ≤ N := by
    intro c hpre
    have hlen := hpre.flatten.length_le
    rw [List.flatten_append, List.flatten_singleton, List.length_append, hall] at hlen
    exact ⟨List.length_pos_iff_ne_nil.mpr (hchunked.of_isPrefix hpre).split.1, hlen⟩
  unfold EvaluateThreads.rank
  cases EvaluateThreads.ReceiverStep.of_receiverStep hs with
  | slot hreceiver _ _ | exit hreceiver _ =>
    rw [hreceiver]
    simp [ReceiverPhase.rank]
  | recvG hreceiver _ =>
    rw [hreceiver] at hholds ⊢
    obtain ⟨rfl, c, hpre, -⟩ := hholds
    obtain ⟨hpos, hle⟩ := hnext c hpre
    simp only [ReceiverPhase.rank]
    omega
  | recvB hreceiver _ =>
    rw [hreceiver] at hholds ⊢
    obtain ⟨rfl, c, hpre, -⟩ := hholds
    obtain ⟨hpos, hle⟩ := hnext c hpre
    simp only [ReceiverPhase.rank]
    omega
  | publish hreceiver =>
    rw [hreceiver] at hholds ⊢
    obtain ⟨rfl, hpre, rfl⟩ := hholds
    obtain ⟨hpos, hle⟩ := hnext _ hpre
    simp only [ReceiverPhase.rank]
    omega

end

end AG2PC
