import AG2PC.Backend.EvaluateThreads
import AG2PC.Backend.GarbleThreads

/-!
# The ciphertext stream

The garbler's two threads, the socket and the evaluator's two threads, in any order, for any batch size and any
number of ANDs; and the threads of one pass when its source throws.

* `StreamInv.step` — what holds of all four threads, step by step.
* `streaming_exact` — the evaluator's AND `k` reads the garbler's entry `k`, and all four threads end.
* `tornDown_iff` — when `end` returns after a throw.
-/

namespace AG2PC

open Library.Chunking Library.Reachability

/-! ### What holds of the four threads -/

/-- The state of the four threads, when the entries `es` are cut into the chunks `all`. -/
structure StreamInv (K : ℕ) (start : MITCCRH) (es : List StreamEntry) (all : List StreamChunk) (s : StreamRun) :
    Prop where
  garble : GarbleInv K start es s.garble
  evaluate : EvaluateInv K es.length start es.length all s.evaluate
  socket : s.evaluate.input ++ s.evaluate.wire = s.garble.output

/-- What is left of both passes. -/
def StreamRun.rank (numAnds : ℕ) (s : StreamRun) : ℕ := s.garble.rank + s.evaluate.rank numAnds

section

variable {K : ℕ} {start : MITCCRH} {es : List StreamEntry} {all : List StreamChunk} {s t : StreamRun}

/-- What the garbler has published are the first chunks of its entries. -/
theorem GarbleInv.published_isPrefix {s : GarbleThreads} (h : GarbleInv K start es s)
    (hchunked : Chunked K es.length all) (hall : all.flatten = es) : s.published <+: all := by
  refine h.chunked.isPrefix hchunked ?_ hall rfl
  refine ⟨s.main.cur ++ s.main.todo, ?_⟩
  rw [← List.append_assoc]
  exact h.entries

/-- More cells on the wire. -/
theorem EvaluateInv.wire_append {N m : ℕ} {s : EvaluateThreads} (h : EvaluateInv K N start m all s) {cells : List Cell}
    (hstream : s.input ++ (s.wire ++ cells) <+: all.flatMap chunkCells) :
    EvaluateInv K N start m all { s with wire := s.wire ++ cells } :=
  ⟨hstream, h.received, h.receiver, h.slot, h.count, h.closed, h.main, h.calls, h.reads, h.mitc, h.joined⟩

theorem StreamInv.init (hK : 0 < K) : StreamInv K start es all (.init start es) where
  garble := .init hK
  evaluate := .init List.nil_prefix
  socket := rfl

/-- **Every step of every thread keeps it.** -/
theorem StreamInv.step (hK : 0 < K) (hchunked : Chunked K es.length all) (hall : all.flatten = es)
    (h : StreamInv K start es all s) {a : StreamThread} (hs : s.step K es.length a = some t) :
    StreamInv K start es all t := by
  have hlen : all.flatten.length = es.length := congrArg List.length hall
  cases a with
  | garbler =>
    obtain ⟨g, hg, rfl⟩ := Option.map_eq_some_iff.mp hs
    exact ⟨h.garble.mainStep hg, h.evaluate, h.socket.trans (output_mainStep hg).1.symm⟩
  | sender =>
    obtain ⟨⟨g, cells⟩, hg, rfl⟩ := Option.map_eq_some_iff.mp hs
    have hgarble := h.garble.senderStep hg
    have hsocket : s.evaluate.input ++ (s.evaluate.wire ++ cells) = g.output := by
      rw [← List.append_assoc, h.socket, output_senderStep hg]
    refine ⟨hgarble, h.evaluate.wire_append ?_, hsocket⟩
    rw [hsocket]
    exact hgarble.output_isPrefix.trans ((hgarble.published_isPrefix hchunked hall).flatMap chunkCells)
  | receiver =>
    obtain ⟨e, he, rfl⟩ := Option.map_eq_some_iff.mp hs
    exact ⟨h.garble, h.evaluate.receiverStep hchunked hlen he, (h.evaluate.stream_receiverStep he).trans h.socket⟩
  | evaluator =>
    obtain ⟨e, he, rfl⟩ := Option.map_eq_some_iff.mp hs
    exact ⟨h.garble, h.evaluate.mainStep hK hchunked (Nat.le_refl _) he,
      (h.evaluate.stream_mainStep he).trans h.socket⟩

/-- **Every step uses up some of what is left.** -/
theorem StreamInv.rank_lt (hchunked : Chunked K es.length all) (hall : all.flatten = es)
    (h : StreamInv K start es all s) {a : StreamThread} (hs : s.step K es.length a = some t) :
    t.rank es.length < s.rank es.length := by
  have hlen : all.flatten.length = es.length := congrArg List.length hall
  unfold StreamRun.rank
  cases a with
  | garbler =>
    obtain ⟨g, hg, rfl⟩ := Option.map_eq_some_iff.mp hs
    exact Nat.add_lt_add_right (GarbleThreads.rank_lt_mainStep hg) _
  | sender =>
    obtain ⟨⟨g, cells⟩, hg, rfl⟩ := Option.map_eq_some_iff.mp hs
    exact Nat.add_lt_add_right (h.garble.rank_lt_senderStep hg) _
  | receiver =>
    obtain ⟨e, he, rfl⟩ := Option.map_eq_some_iff.mp hs
    exact Nat.add_lt_add_left (h.evaluate.rank_lt_receiverStep hchunked hlen he) _
  | evaluator =>
    obtain ⟨e, he, rfl⟩ := Option.map_eq_some_iff.mp hs
    exact Nat.add_lt_add_left (EvaluateThreads.rank_lt_mainStep he) _

/-- The chunks received are those published. -/
theorem StreamInv.received_isPrefix (hchunked : Chunked K es.length all) (hall : all.flatten = es)
    (h : StreamInv K start es all s) : s.evaluate.received <+: s.garble.published := by
  have hpub := h.garble.published_isPrefix hchunked hall
  have hcells : s.evaluate.received.flatMap chunkCells <+: s.garble.published.flatMap chunkCells := by
    refine List.IsPrefix.trans ?_ h.garble.output_isPrefix
    rw [← h.socket, EvaluateThreads.input, List.append_assoc]
    exact List.prefix_append _ _
  have hlen := hcells.length_le
  rw [length_flatMap_chunkCells, length_flatMap_chunkCells] at hlen
  refine List.prefix_of_prefix_length_le h.evaluate.received hpub ?_
  exact (hchunked.of_isPrefix h.evaluate.received).length_le (hchunked.of_isPrefix hpub) (by omega)

/-- The entries made are the first ones. -/
theorem GarbleInv.made_eq {s : GarbleThreads} (h : GarbleInv K start es s) :
    s.made = tagged start (es.take s.made.length) ∧ s.published.flatten.length ≤ s.made.length := by
  have hlen : s.made.length = (s.published.flatten ++ s.main.cur).length := by rw [h.made, length_tagged]
  have htake : es.take s.made.length = s.published.flatten ++ s.main.cur := by
    rw [hlen, ← h.entries, List.take_left]
  refine ⟨?_, ?_⟩
  · rw [htake]
    exact h.made
  · rw [hlen, List.length_append]
    exact Nat.le_add_right _ _

/-- The entries read are the first of those made. -/
theorem StreamInv.reads_isPrefix (hK : 0 < K) (hchunked : Chunked K es.length all) (hall : all.flatten = es)
    (h : StreamInv K start es all s) : s.evaluate.reads <+: s.garble.made := by
  obtain ⟨hmade, hle⟩ := h.garble.made_eq
  have hreads := h.evaluate.reads_le hK hchunked (Nat.le_refl _)
  have hreceived := (h.received_isPrefix hchunked hall).flatten.length_le
  rw [h.evaluate.reads, hmade, hall]
  refine tagged_isPrefix start (List.take_prefix_take_left ?_)
  omega

/-- **When `end` of the garble pass has returned**, everything has been sent. -/
theorem GarbleInv.of_done {s : GarbleThreads} (h : GarbleInv K start es s) (hdone : s.main = .done) :
    s.sender = .exited ∧ s.pipe.chunks = [] ∧ s.sent = s.published ∧ s.published.flatten = es ∧
      s.output = s.published.flatMap chunkCells := by
  have hexit := h.joined hdone
  have hholds := h.sender
  have hentries := h.entries
  rw [hexit] at hholds
  rw [hdone] at hentries
  have hsent : s.sent = s.published := by rw [GarbleThreads.published, hholds.1, List.append_nil]
  refine ⟨hexit, hholds.1, hsent, ?_, ?_⟩
  · rw [← hentries]
    exact ((List.append_nil _).trans (List.append_nil _)).symm
  · rw [GarbleThreads.output, hexit, hsent]
    exact List.append_nil _

/-- **When `end` of the evaluate pass has returned**, everything has been read. -/
theorem EvaluateInv.of_done {N : ℕ} {s : EvaluateThreads} (hchunked : Chunked K N all)
    (hall : all.flatten.length = N) (h : EvaluateInv K N start N all s) (hdone : s.main = .done) :
    s.receiver = .exited ∧ s.pipe.chunks = [] ∧ s.released = all ∧ s.reads = tagged start all.flatten ∧
      s.wire = [] := by
  have hexit := h.joined hdone
  have hmain := h.main
  have hcalls := h.calls
  rw [hdone] at hmain hcalls
  have hreads : s.reads.length = N := hcalls
  have hreleased : s.released.length = (s.reads.length + K - 1) / K := hmain
  have hlen : s.released.length = all.length := by rw [hreleased, hreads, hchunked.length_eq hall]
  obtain ⟨rest, hrest⟩ := h.received
  have hparts := congrArg List.length hrest
  rw [EvaluateThreads.received, List.length_append, List.length_append, hlen] at hparts
  have hchunks : s.pipe.chunks = [] := List.eq_nil_of_length_eq_zero (by omega)
  have hnil : rest = [] := List.eq_nil_of_length_eq_zero (by omega)
  have hsame : s.released = all := by
    rw [← hrest, EvaluateThreads.received, hchunks, hnil, List.append_nil, List.append_nil]
  refine ⟨hexit, hchunks, hsame, ?_, ?_⟩
  · rw [h.reads, hreads, ← hall, List.take_length]
  · have hstream := h.stream.length_le
    rw [EvaluateThreads.input, hexit, EvaluateThreads.received, hchunks, hsame, List.append_nil] at hstream
    simp only [ReceiverPhase.partRead, List.append_nil, List.length_append] at hstream
    exact List.eq_nil_of_length_eq_zero (by omega)

end

/-! ### Chunked streaming is exact -/

/-- No thread writes or reads past the end of a chunk's buffers. -/
structure StreamRun.InBounds (K numAnds : ℕ) (s : StreamRun) : Prop where
  /-- The garbler writes the entry `cur->n`. -/
  fill : ∀ cur e todo, s.garble.main = .fill cur (e :: todo) → cur.length < slotCapacity K numAnds
  /-- The sender reads `slot->n` entries. -/
  send : ∀ c, s.garble.sender = .sendG c ∨ s.garble.sender = .sendB c → c.length ≤ slotCapacity K numAnds
  /-- The receiver writes `slot.n` entries. -/
  receive : ∀ n, s.evaluate.receiver.expects = some n → n ≤ slotCapacity K numAnds
  /-- The evaluator reads the entry `loc`, which the chunk has unless it is used up. -/
  read : ∀ c loc todo, s.evaluate.main = .gates (some c) loc todo → loc ≤ c.length ∧ c.length ≤ slotCapacity K numAnds
  /-- The evaluator reads the first entry of a chunk it takes. -/
  take : ∀ c todo, s.evaluate.main = .taking todo → s.evaluate.pipe.consumerSlot = some (some c) →
    0 < c.length ∧ c.length ≤ slotCapacity K numAnds
  /-- The evaluator has a chunk to read. -/
  null : s.evaluate.main ≠ .nullptr

/-- The stream of the entries `es`, one an AND, as the four threads have it. -/
structure StreamRun.Exact (K : ℕ) (start : MITCCRH) (es : List StreamEntry) (s : StreamRun) : Prop where
  /-- The entries published, in the slot and to come are one an AND, in gate order. -/
  entries : s.garble.published.flatten ++ s.garble.main.cur ++ s.garble.main.todo = es
  /-- Each is made under the hash of its AND. -/
  made : s.garble.made = tagged start (es.take s.garble.made.length)
  /-- The chunks received are those published. -/
  received : s.evaluate.received <+: s.garble.published
  /-- The receiver expects the size the garbler publishes. -/
  sizes : ∀ n c, s.evaluate.receiver.expects = some n →
    s.garble.published[s.evaluate.received.length]? = some c → c.length = n
  /-- The evaluator's AND `k` reads the garbler's entry `k`, under the same hash. -/
  reads : s.evaluate.reads <+: s.garble.made
  /-- Within the buffers. -/
  inBounds : s.InBounds K es.length
  /-- After the garbler's `end` the sender has left and everything is sent. -/
  garbleEnd : s.garble.main = .done →
    s.garble.sender = .exited ∧ s.garble.pipe.chunks = [] ∧ s.garble.sent.flatten = es
  /-- After the evaluator's `end` the receiver has left and everything is read. -/
  evaluateEnd : s.evaluate.main = .done →
    s.evaluate.receiver = .exited ∧ s.evaluate.pipe.chunks = [] ∧ s.evaluate.wire = [] ∧
      s.evaluate.released = s.garble.published ∧ s.evaluate.reads = tagged start es

section

variable {K n : ℕ} {start : MITCCRH} {es : List StreamEntry} {all : List StreamChunk} {s : StreamRun}

/-- A chunk fits into its buffers. -/
theorem length_le_slotCapacity {N : ℕ} (hchunked : Chunked K N all) {c : StreamChunk} (hc : c ∈ all) :
    c.length ≤ slotCapacity K N := by
  obtain ⟨before, after, rfl⟩ := List.append_of_mem hc
  have hlen := hchunked.split.2
  rw [slotCapacity]
  omega

/-- The chunk the receiver fills is the next one. -/
theorem ReceiverPhase.Holds.expects {N : ℕ} {received : List StreamChunk} {p : ReceiverPhase}
    (h : p.Holds N all received) (hn : p.expects = some n) : ∃ c, received ++ [c] <+: all ∧ c.length = n := by
  cases p with
  | loop base | exited => cases hn
  | recvG base k =>
    cases hn
    exact h.2
  | recvB base k G =>
    cases hn
    obtain ⟨-, c, hpre, hlen, -⟩ := h
    exact ⟨c, hpre, hlen⟩
  | full base k c =>
    cases hn
    exact ⟨c, h.2⟩

/-- **No thread is ever out of bounds.** -/
theorem StreamInv.inBounds (hchunked : Chunked K es.length all) (hall : all.flatten = es)
    (h : StreamInv K start es all s) : s.InBounds K es.length := by
  have hpub := h.garble.published_isPrefix hchunked hall
  have hfit : ∀ c ∈ all, c.length ≤ slotCapacity K es.length := fun c => length_le_slotCapacity hchunked
  have hmain := h.evaluate.main
  have hpipe : ∀ c ∈ s.evaluate.pipe.chunks, c ∈ all := fun c hc =>
    h.evaluate.received.subset (List.mem_append_right _ hc)
  refine ⟨fun cur e todo heq => ?_, fun c hsend => ?_, fun n hn => ?_, fun c loc todo heq => ?_,
    fun c todo heq hslot => ?_, fun heq => ?_⟩
  · have hcur := h.garble.cur
    have hlen := congrArg List.length h.garble.entries
    rw [heq] at hcur hlen
    simp only [GarblePhase.cur, GarblePhase.todo, List.length_append, List.length_cons] at hcur hlen
    rw [slotCapacity]
    omega
  · have hholds := h.garble.sender
    refine hfit c (hpub.subset (List.mem_append_right _ ?_))
    rcases hsend with heq | heq
    all_goals
      rw [heq] at hholds
      obtain ⟨cs, hcs⟩ := hholds
      exact hcs ▸ List.mem_cons_self
  · obtain ⟨c, hpre, rfl⟩ := h.evaluate.receiver.expects hn
    exact hfit c (hpre.subset (List.mem_append_right _ (List.mem_singleton_self c)))
  · rw [heq] at hmain
    obtain ⟨⟨cs, hcs⟩, -, hle, -⟩ := hmain
    exact ⟨hle, hfit c (hpipe c (hcs ▸ List.mem_cons_self))⟩
  · unfold ChunkQueue.consumerSlot at hslot
    split at hslot
    · next d cs hcs =>
      cases hslot
      have hne := (h.evaluate.length_released hchunked hcs).2.1
      exact ⟨List.length_pos_iff_ne_nil.mpr hne, hfit _ (hpipe _ (hcs ▸ List.mem_cons_self))⟩
    · split at hslot <;> cases hslot
  · rw [heq] at hmain
    exact hmain

/-- What has been published at the end is everything. -/
theorem GarbleInv.published_eq {s : GarbleThreads} (h : GarbleInv K start es s) (hchunked : Chunked K es.length all)
    (hall : all.flatten = es) (hdone : s.main = .done) : s.published = all := by
  obtain ⟨-, -, -, hflat, -⟩ := h.of_done hdone
  refine (h.published_isPrefix hchunked hall).eq_of_length ?_
  rw [h.chunked.length_eq (congrArg List.length hflat), hchunked.length_eq (congrArg List.length hall)]

theorem StreamInv.exact (hK : 0 < K) (hchunked : Chunked K es.length all) (hall : all.flatten = es)
    (h : StreamInv K start es all s) : s.Exact K start es := by
  have hpub := h.garble.published_isPrefix hchunked hall
  have hrec := h.received_isPrefix hchunked hall
  refine ⟨h.garble.entries, h.garble.made_eq.1, hrec, fun n c hn hc => ?_, h.reads_isPrefix hK hchunked hall,
    h.inBounds hchunked hall, fun hdone => ?_, fun hdone => ?_⟩
  · obtain ⟨d, hpre, rfl⟩ := h.evaluate.receiver.expects hn
    obtain ⟨rest, hrest⟩ := hpre
    have hd : all[s.evaluate.received.length]? = some d := by
      rw [← hrest, List.append_assoc, List.getElem?_append_right (Nat.le_refl _), Nat.sub_self]
      rfl
    obtain ⟨more, hmore⟩ := hpub
    rw [← hmore, List.getElem?_append_left (List.getElem?_eq_some_iff.mp hc).1, hc] at hd
    cases hd
    rfl
  · obtain ⟨hexit, hchunks, hsent, hflat, -⟩ := h.garble.of_done hdone
    exact ⟨hexit, hchunks, by rw [hsent, hflat]⟩
  · obtain ⟨hexit, hchunks, hreleased, hreads, hwire⟩ :=
      h.evaluate.of_done hchunked (congrArg List.length hall) hdone
    rw [EvaluateThreads.received, hchunks, List.append_nil, hreleased] at hrec
    have hsame : s.garble.published = all := hpub.eq_of_length_le hrec.length_le
    exact ⟨hexit, hchunks, hwire, by rw [hreleased, hsame], by rw [hreads, hall]⟩

/-- **When no thread can go on, both passes have ended.** -/
theorem StreamInv.done_of_stopped (hchunked : Chunked K es.length all) (hall : all.flatten = es)
    (h : StreamInv K start es all s) (hstop : Stopped (StreamRun.step K es.length) s) :
    s.garble.main = .done ∧ s.evaluate.main = .done := by
  have hdone := h.garble.done_of_stopped (Option.map_eq_none_iff.mp (hstop .garbler))
    (Option.map_eq_none_iff.mp (hstop .sender))
  refine ⟨hdone, ?_⟩
  obtain ⟨-, -, -, -, hout⟩ := h.garble.of_done hdone
  have hsent : s.evaluate.input ++ s.evaluate.wire = all.flatMap chunkCells := by
    rw [h.socket, hout, h.garble.published_eq hchunked hall hdone]
  rcases h.evaluate.done_or_blocked hsent (Option.map_eq_none_iff.mp (hstop .evaluator))
    (Option.map_eq_none_iff.mp (hstop .receiver)) with heq | ⟨heq, base, hloop, hlt, hfull⟩
  · exact heq
  · have hmany := h.evaluate.lt_of_blocked hchunked (congrArg List.length hall) heq hloop hlt hfull
    omega

/-- **Chunked streaming is exact**, for every batch size and every number of ANDs: however the four threads run, in
every state reached the stream is exact, the run is bounded, and where it cannot go on both passes have ended. -/
theorem streaming_exact (hK : 0 < K) (h : Steps (StreamRun.step K es.length) (.init start es) n s) :
    n ≤ 13 * es.length + 14 ∧ s.Exact K start es ∧
      (Stopped (StreamRun.step K es.length) s → s.garble.main = .done ∧ s.evaluate.main = .done) := by
  obtain ⟨all, hchunked, hall⟩ := exists_chunked hK es
  have hkeep : ∀ s a t, StreamInv K start es all s → s.step K es.length a = some t → StreamInv K start es all t :=
    fun _ _ _ hs ha => hs.step hK hchunked hall ha
  have hinv := h.invariant hkeep (.init hK)
  have hbound := h.length_le hkeep (fun _ _ _ hs ha => hs.rank_lt hchunked hall ha) (.init hK)
  have hrank : (StreamRun.init start es).rank es.length =
      6 * es.length + 9 + 1 + (3 * es.length + 3 + (4 * es.length + 1)) := rfl
  exact ⟨by omega, hinv.exact hK hchunked hall, hinv.done_of_stopped hchunked hall⟩

/-- One AND, to the end of both passes. -/
theorem streaming_exact_one : ∃ s : StreamRun, s.garble.main = .done ∧ s.evaluate.main = .done ∧
    s.Exact 1 (.setS zeroBlock) [default] := by
  have hrun : Steps (StreamRun.step 1 1) (.init (.setS zeroBlock) [default]) _ _ :=
    ((((((((((((((((((((Steps.refl.tail .garbler rfl).tail .garbler rfl).tail .sender rfl).tail .sender rfl).tail
      .sender rfl).tail .sender rfl).tail .garbler rfl).tail .garbler rfl).tail .garbler rfl).tail .sender rfl).tail
      .garbler rfl).tail .receiver rfl).tail .receiver rfl).tail .receiver rfl).tail .receiver rfl).tail
      .receiver rfl).tail .evaluator rfl).tail .evaluator rfl).tail .evaluator rfl).tail .evaluator rfl)
  exact ⟨_, rfl, rfl, (streaming_exact (by decide) hrun).2.1⟩

end

/-! ### The chunks of the passes -/

/-- The chunks the evaluate pass works on are cut as the receiver cuts them. -/
theorem chunked_recvChunks {n : ℕ} {wire : List StreamEntry} (h : wire.length = n) :
    Chunked kBatch n (recvChunks n wire) :=
  chunked_range kBatch_pos h (Nat.le_refl _)

/-- **The receiver's chunks are those the evaluate pass works on**, and those the garbler publishes. -/
theorem released_eq_recvChunks {start : MITCCRH} {es : List StreamEntry} {s : StreamRun} {n : ℕ}
    (h : Steps (StreamRun.step kBatch es.length) (.init start es) n s) (hdone : s.evaluate.main = .done) :
    s.evaluate.released = recvChunks es.length es ∧ s.garble.published = recvChunks es.length es := by
  have hall : (recvChunks es.length es).flatten = es := (recvChunks_flatten rfl).1
  have hchunked : Chunked kBatch es.length (recvChunks es.length es) := chunked_recvChunks rfl
  have hinv : StreamInv kBatch start es (recvChunks es.length es) s :=
    h.invariant (fun _ _ _ hs ha => hs.step kBatch_pos hchunked hall ha) (.init kBatch_pos)
  obtain ⟨-, -, hreleased, -⟩ := hinv.evaluate.of_done hchunked (congrArg List.length hall) hdone
  refine ⟨hreleased, ?_⟩
  rw [← hreleased]
  exact ((hinv.exact kBatch_pos hchunked hall).evaluateEnd hdone).2.2.2.1.symm

/-! ### A source that throws -/

/-- The passes with a thread on the socket. -/
inductive ThreadedPass where
  /-- `AG2PCGarblePass`. -/
  | garble
  /-- `AG2PCEvaluatePass`. -/
  | evaluate

/-- The garbler sends `wire` for the entries `es`. -/
def PeerSends (K : ℕ) (start : MITCCRH) (es : List StreamEntry) (wire : List Cell) : Prop :=
  ∃ g, Reachable (GarbleThreads.step K) (.init start es) g ∧ g.main = .done ∧ g.output = wire

/-- A pass of `num_ands` ANDs, those that make the entries `es`, is torn down when its source throws after `m` of
them and the peer has sent all its bytes: whenever `end` waits for the thread on the socket, that thread goes on or
has left, and where nothing can go on, `end` has returned. -/
def TornDown (K : ℕ) (start : MITCCRH) (es : List StreamEntry) (m : ℕ) : ThreadedPass → Prop
  | .garble => ∀ t, Reachable (GarbleThreads.step K) (.init start (es.take m)) t →
      (t.main = .joining → t.senderStep ≠ none ∨ t.sender = .exited) ∧
        (Stopped (GarbleThreads.step K) t → t.main = .done)
  | .evaluate => ∀ wire, PeerSends K start es wire →
      ∀ t, Reachable (EvaluateThreads.step K es.length) (.init start m wire) t →
        (t.main = .joining → t.receiverStep K es.length ≠ none ∨ t.receiver = .exited) ∧
          (Stopped (EvaluateThreads.step K es.length) t → t.main = .done)

section

variable {K m : ℕ} {start : MITCCRH} {es : List StreamEntry} {all : List StreamChunk}

theorem GarbleInv.step {s t : GarbleThreads} (h : GarbleInv K start es s) {a : PassThread}
    (hs : s.step K a = some t) : GarbleInv K start es t ∧ t.rank < s.rank := by
  cases a with
  | main => exact ⟨h.mainStep hs, GarbleThreads.rank_lt_mainStep hs⟩
  | worker =>
    obtain ⟨⟨g, cells⟩, hg, rfl⟩ := Option.map_eq_some_iff.mp hs
    exact ⟨h.senderStep hg, h.rank_lt_senderStep hg⟩

theorem GarbleInv.of_reachable (hK : 0 < K) {s : GarbleThreads}
    (h : Reachable (GarbleThreads.step K) (.init start es) s) : GarbleInv K start es s :=
  h.invariant (fun _ _ _ hs ha => (hs.step ha).1) (.init hK)

theorem GarbleInv.done_of_pass_stopped {s : GarbleThreads} (h : GarbleInv K start es s)
    (hstop : Stopped (GarbleThreads.step K) s) : s.main = .done :=
  h.done_of_stopped (hstop .main) (Option.map_eq_none_iff.mp (hstop .worker))

/-- What the peer sends are the cells of the chunks of its entries. -/
theorem PeerSends.eq (hK : 0 < K) {wire : List Cell} (h : PeerSends K start es wire)
    (hchunked : Chunked K es.length all) (hall : all.flatten = es) : wire = all.flatMap chunkCells := by
  obtain ⟨g, hreach, hdone, rfl⟩ := h
  have hinv := GarbleInv.of_reachable hK hreach
  obtain ⟨-, -, -, -, hout⟩ := hinv.of_done hdone
  rw [hout, hinv.published_eq hchunked hall hdone]

/-- The peer does send it. -/
theorem exists_peerSends (hK : 0 < K) (start : MITCCRH) (es : List StreamEntry) :
    ∃ wire, PeerSends K start es wire := by
  obtain ⟨g, hreach, hstop⟩ := exists_stopped (I := GarbleInv K start es) (m := GarbleThreads.rank)
    (fun _ _ _ hs ha => (hs.step ha).1) (fun _ _ _ hs ha => (hs.step ha).2) (GarbleInv.init hK)
  exact ⟨_, g, hreach, (GarbleInv.of_reachable hK hreach).done_of_pass_stopped hstop, rfl⟩

/-- **The garble pass is always torn down.** -/
theorem tornDown_garble (hK : 0 < K) : TornDown K start es m .garble := by
  intro t hreach
  have hinv := GarbleInv.of_reachable hK hreach
  refine ⟨fun hjoin => ?_, hinv.done_of_pass_stopped⟩
  exact GarbleThreads.sender_goes_on (hinv.closed.mpr (hjoin ▸ trivial))

/-- The evaluate pass alone, with everything on the wire. -/
theorem EvaluateInv.step {N : ℕ} (hK : 0 < K) (hchunked : Chunked K N all) (hall : all.flatten.length = N)
    (hm : m ≤ N) {s t : EvaluateThreads} (h : EvaluateInv K N start m all s) {a : PassThread}
    (hs : s.step K N a = some t) :
    EvaluateInv K N start m all t ∧ t.input ++ t.wire = s.input ++ s.wire ∧ t.rank N < s.rank N := by
  cases a with
  | main =>
    exact ⟨h.mainStep hK hchunked hm hs, h.stream_mainStep hs, EvaluateThreads.rank_lt_mainStep hs⟩
  | worker =>
    exact ⟨h.receiverStep hchunked hall hs, h.stream_receiverStep hs, h.rank_lt_receiverStep hchunked hall hs⟩

/-- **The evaluate pass is torn down** exactly when the chunks it has not touched fit into the pipe. -/
theorem tornDown_evaluate (hK : 0 < K) (hm : m ≤ es.length) : TornDown K start es m .evaluate ↔
    (es.length + K - 1) / K ≤ (m + K - 1) / K + pipeDepth := by
  obtain ⟨all, hchunked, hall⟩ := exists_chunked hK es
  have hlen : all.flatten.length = es.length := congrArg List.length hall
  let I : EvaluateThreads → Prop := fun s =>
    EvaluateInv K es.length start m all s ∧ s.input ++ s.wire = all.flatMap chunkCells
  have hkeep : ∀ s a t, I s → s.step K es.length a = some t → I t := by
    rintro s a t ⟨hinv, hsent⟩ ha
    obtain ⟨hinv', hstream, -⟩ := hinv.step hK hchunked hlen hm ha
    exact ⟨hinv', hstream.trans hsent⟩
  have hdec : ∀ s a t, I s → s.step K es.length a = some t → t.rank es.length < s.rank es.length :=
    fun s a t hs ha => (hs.1.step hK hchunked hlen hm ha).2.2
  have hinit : I (.init start m (all.flatMap chunkCells)) := ⟨.init List.prefix_rfl, rfl⟩
  constructor
  · intro htorn
    obtain ⟨wire, hwire⟩ := exists_peerSends hK start es
    obtain rfl := hwire.eq hK hchunked hall
    obtain ⟨t, hreach, hstop⟩ := exists_stopped hkeep hdec hinit
    exact (hreach.invariant hkeep hinit).1.le_of_done hchunked ((htorn _ hwire t hreach).2 hstop)
  · intro hfit wire hwire t hreach
    obtain rfl := hwire.eq hK hchunked hall
    obtain ⟨hinv, hsent⟩ := hreach.invariant hkeep hinit
    have hfree : t.main = .joining → ∀ base, t.receiver = .loop base → base < es.length → t.pipe.HasFree := by
      intro hjoin base hloop hlt
      by_contra hfull
      have hmany := hinv.lt_of_blocked hchunked hlen hjoin hloop hlt hfull
      omega
    refine ⟨fun hjoin => ?_, fun hstop => ?_⟩
    · by_contra hno
      obtain ⟨hstep, hon⟩ := not_or.mp hno
      rcases hinv.receiver_stopped hsent (not_not.mp hstep) with hexit | ⟨base, hloop, hlt, hfull⟩
      · exact hon hexit
      · exact hfull (hfree hjoin base hloop hlt)
    · rcases hinv.done_or_blocked hsent (hstop .main) (hstop .worker) with hdone | ⟨hjoin, base, hloop, hlt, hfull⟩
      · exact hdone
      · exact absurd (hfree hjoin base hloop hlt) hfull

/-- **A pass that stops early is torn down** exactly when it is the garble pass, or the receiver has room for the
chunks it still expects: at most two of the chunks of `num_ands` ANDs lie beyond those that `m` ANDs touch. -/
theorem tornDown_iff (hm : m ≤ es.length) (p : ThreadedPass) : TornDown kBatch start es m p ↔
    p = .garble ∨ (es.length + kBatch - 1) / kBatch ≤ (m + kBatch - 1) / kBatch + 2 := by
  cases p with
  | garble => exact iff_of_true (tornDown_garble kBatch_pos) (.inl rfl)
  | evaluate =>
    rw [tornDown_evaluate kBatch_pos hm, pipeDepth]
    simp

/-- A source of one AND that throws at once. -/
theorem tornDown_iff_one : TornDown kBatch (.setS zeroBlock) [default] 0 .evaluate :=
  (tornDown_iff (by decide) .evaluate).mpr (.inr (by decide))

/-- **A source of three chunks that throws before its first AND**: the receiver waits for a free slot, and `end` for
the receiver. -/
theorem not_tornDown_three_chunks :
    ¬ TornDown kBatch (.setS zeroBlock) (List.replicate (2 * kBatch + 1) default) 0 .evaluate := by
  rw [tornDown_evaluate kBatch_pos (Nat.zero_le _), List.length_replicate]
  decide

end

end AG2PC
