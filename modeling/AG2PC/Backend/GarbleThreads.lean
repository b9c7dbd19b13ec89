import AG2PC.Backend.PassEquations
import AG2PC.Backend.StreamThreads
import AG2PC.Library.Chunking

/-!
# The garbler's side of the stream

What holds of the main thread of the garble pass and its sender, whichever of them goes first.

* `GarbleInv.mainStep`, `GarbleInv.senderStep` — the invariant, step by step.
* `garbleGate_mainStep`, `finish_mainStep` — the gates of the pass are steps of its main thread.
* `output_mainStep`, `output_senderStep` — what has gone over the socket.
* `GarbleInv.done_of_stopped` — the pass comes to its end.
-/

namespace AG2PC

open Library.Chunking

/-! ### What holds of the garbler's threads -/

/-- The entries in the slot being filled. -/
def GarblePhase.cur : GarblePhase → List StreamEntry
  | .fill cur _ => cur
  | _ => []

/-- The entries to come. -/
def GarblePhase.todo : GarblePhase → List StreamEntry
  | .wantSlot todo | .fill _ todo => todo
  | _ => []

/-- Before `end` has begun. -/
def GarblePhase.Working : GarblePhase → Prop
  | .wantSlot _ | .fill _ _ => True
  | _ => False

/-- `producer_close` has been called. -/
def GarblePhase.Closed : GarblePhase → Prop
  | .joining | .done => True
  | _ => False

/-- The chunk the sender holds is the oldest of the pipe; it leaves when there is none. -/
def SenderPhase.Holds (q : ChunkQueue) : SenderPhase → Prop
  | .waiting => True
  | .sendG c | .sendB c | .releasing c => ∃ cs, q.chunks = c :: cs
  | .exited => q.chunks = [] ∧ q.closed = true

/-- The state of the garbler's threads, whose ANDs make the entries `es` in batches of `K`. -/
structure GarbleInv (K : ℕ) (start : MITCCRH) (es : List StreamEntry) (s : GarbleThreads) : Prop where
  chunked : Chunked K es.length s.published
  entries : s.published.flatten ++ s.main.cur ++ s.main.todo = es
  full : s.main.Working → ∀ c ∈ s.published, c.length = K
  cur : s.main.cur.length < K
  slot : ∀ cur todo, s.main = .fill cur todo → s.pipe.HasFree
  count : s.pipe.chunks.length ≤ pipeDepth
  made : s.made = tagged start (s.published.flatten ++ s.main.cur)
  mitc : s.mitc = start.advance s.made.length
  closed : s.pipe.closed = true ↔ s.main.Closed
  sender : s.sender.Holds s.pipe
  joined : s.main = .done → s.sender = .exited

/-- What a step of the main thread of the garble pass does. -/
inductive GarbleThreads.MainStep (K : ℕ) (s : GarbleThreads) : GarbleThreads → Prop
  /-- `producer_slot` returns. -/
  | slot {todo : List StreamEntry} : s.main = .wantSlot todo → s.pipe.HasFree →
      MainStep K s { s with main := .fill [] todo }
  /-- An AND fills the slot up. -/
  | publish {cur todo : List StreamEntry} {e : StreamEntry} : s.main = .fill cur (e :: todo) → cur.length + 1 = K →
      MainStep K s { s.make e with pipe := s.pipe.publish (cur ++ [e]), main := .wantSlot todo }
  /-- An AND does not. -/
  | fill {cur todo : List StreamEntry} {e : StreamEntry} : s.main = .fill cur (e :: todo) → cur.length + 1 ≠ K →
      MainStep K s { s.make e with main := .fill (cur ++ [e]) todo }
  /-- `end` publishes what the slot holds. -/
  | last {cur : List StreamEntry} : s.main = .fill cur [] → 0 < cur.length →
      MainStep K s { s with pipe := s.pipe.publish cur, main := .closing }
  /-- There is nothing to publish. -/
  | unused : s.main = .fill [] [] → MainStep K s { s with main := .closing }
  /-- `producer_close`. -/
  | close : s.main = .closing → MainStep K s { s with pipe := s.pipe.close, main := .joining }
  /-- `sender_fut.get()` returns. -/
  | join : s.main = .joining → s.sender = .exited → MainStep K s { s with main := .done }

/-- What a step of the sender does. -/
inductive GarbleThreads.SenderStep (s : GarbleThreads) : GarbleThreads → List Cell → Prop
  /-- `consumer_slot` returns a chunk. -/
  | take {c : StreamChunk} {cs : List StreamChunk} : s.sender = .waiting → s.pipe.chunks = c :: cs →
      SenderStep s { s with sender := .sendG c } []
  /-- `consumer_slot` returns `nullptr`. -/
  | exit : s.sender = .waiting → s.pipe.chunks = [] → s.pipe.closed = true →
      SenderStep s { s with sender := .exited } []
  /-- The ciphertexts go out. -/
  | sendG {c : StreamChunk} : s.sender = .sendG c → SenderStep s { s with sender := .sendB c } (gCells c)
  /-- The bytes go out. -/
  | sendB {c : StreamChunk} : s.sender = .sendB c → SenderStep s { s with sender := .releasing c } (bCells c)
  /-- `consumer_release`. -/
  | release {c : StreamChunk} : s.sender = .releasing c →
      SenderStep s { s with sender := .waiting, pipe := s.pipe.release, sent := s.sent ++ [c] } []

section

variable {K : ℕ} {start : MITCCRH} {es : List StreamEntry} {s t : GarbleThreads} {cells : List Cell}

theorem GarbleThreads.MainStep.of_mainStep (hs : s.mainStep K = some t) : s.MainStep K t := by
  unfold GarbleThreads.mainStep at hs
  cases hmain : s.main with
  | wantSlot todo =>
    simp only [hmain] at hs
    split at hs
    · next hfree =>
      cases hs
      exact .slot hmain hfree
    · cases hs
  | fill cur todo =>
    cases todo with
    | cons e todo =>
      simp only [hmain, List.length_append, List.length_singleton] at hs
      split at hs
      · next hK =>
        cases hs
        exact .publish hmain hK
      · next hK =>
        cases hs
        exact .fill hmain hK
    | nil =>
      simp only [hmain] at hs
      cases hs
      split
      · next hpos => exact .last hmain hpos
      · next hzero =>
        obtain rfl := List.eq_nil_of_length_eq_zero (Nat.eq_zero_of_not_pos hzero)
        exact .unused hmain
  | closing =>
    simp only [hmain] at hs
    cases hs
    exact .close hmain
  | joining =>
    simp only [hmain] at hs
    split at hs
    · next hexit =>
      cases hs
      exact .join hmain hexit
    · cases hs
  | done =>
    simp only [hmain] at hs
    cases hs

theorem GarbleThreads.SenderStep.of_senderStep (hs : s.senderStep = some (t, cells)) : s.SenderStep t cells := by
  unfold GarbleThreads.senderStep at hs
  cases hsender : s.sender with
  | waiting =>
    simp only [hsender] at hs
    obtain ⟨r, hr, heq⟩ := Option.map_eq_some_iff.mp hs
    unfold ChunkQueue.consumerSlot at hr
    split at hr
    · next c cs hchunks =>
      cases hr
      cases heq
      exact .take hsender hchunks
    · next hchunks =>
      split at hr
      · next hclosed =>
        cases hr
        cases heq
        exact .exit hsender hchunks hclosed
      · cases hr
  | sendG c | sendB c | releasing c =>
    simp only [hsender] at hs
    cases hs
    constructor
    assumption
  | exited =>
    simp only [hsender] at hs
    cases hs

theorem GarbleInv.init (hK : 0 < K) : GarbleInv K start es (.init start es) where
  chunked := trivial
  entries := rfl
  full _ c hc := by cases hc
  cur := hK
  slot _ _ h := by cases h
  count := Nat.zero_le _
  made := rfl
  mitc := rfl
  closed := ⟨fun h => (by cases h), fun h => h.elim⟩
  sender := trivial
  joined h := by cases h

/-- A chunk published by the main thread does not disturb the sender. -/
theorem SenderPhase.Holds.publish {q : ChunkQueue} {p : SenderPhase} (h : p.Holds q) (hopen : ¬ q.closed = true)
    (c : StreamChunk) : p.Holds (q.publish c) := by
  cases p with
  | waiting => trivial
  | exited => exact absurd h.2 hopen
  | sendG d | sendB d | releasing d =>
    obtain ⟨cs, hcs⟩ := h
    exact ⟨cs ++ [c], congrArg (· ++ [c]) hcs⟩

theorem SenderPhase.Holds.close {q : ChunkQueue} {p : SenderPhase} (h : p.Holds q) : p.Holds q.close := by
  cases p with
  | exited => exact ⟨h.1, rfl⟩
  | waiting | sendG d | sendB d | releasing d => exact h

/-- The hash has moved on by one an AND. -/
theorem GarbleInv.mitc_make (h : GarbleInv K start es s) (e : StreamEntry) :
    (s.make e).mitc = start.advance (s.make e).made.length := by
  change s.mitc.advance 1 = start.advance (s.made ++ [_]).length
  rw [h.mitc, List.length_append, List.length_singleton]
  rfl

/-- The entry made is the next one. -/
theorem GarbleInv.made_make (h : GarbleInv K start es s) (e : StreamEntry) :
    (s.make e).made = tagged start (s.published.flatten ++ (s.main.cur ++ [e])) := by
  rw [← List.append_assoc, tagged_snoc, ← length_tagged start, ← h.made, ← h.mitc]
  rfl

/-- The main thread publishes a chunk behind the others. -/
theorem GarbleInv.publish (h : GarbleInv K start es s) {c : StreamChunk} (hsent : t.sent = s.sent)
    (hpipe : t.pipe = s.pipe.publish c) (hsender : t.sender = s.sender) (hfree : s.pipe.HasFree)
    (hopen : ¬ s.pipe.closed = true) (hne : c ≠ []) (hlen : c.length = min K (es.length - s.published.flatten.length))
    (hcur : t.main.cur = []) (hentries : s.published.flatten ++ c ++ t.main.todo = es)
    (hfull : t.main.Working → s.main.Working ∧ c.length = K) (hphase : ¬ t.main.Closed)
    (hslot : ∀ cur todo, t.main ≠ .fill cur todo) (hmade : t.made = tagged start (s.published.flatten ++ c))
    (hmitc : t.mitc = start.advance t.made.length) : GarbleInv K start es t := by
  have hpub : t.published = s.published ++ [c] := by
    rw [GarbleThreads.published, hsent, hpipe]
    exact (List.append_assoc _ _ _).symm
  have hflat : t.published.flatten = s.published.flatten ++ c := by
    rw [hpub, List.flatten_append, List.flatten_singleton]
  refine ⟨?_, ?_, fun hw d hd => ?_, ?_, fun cur todo hm => absurd hm (hslot cur todo), ?_, ?_, hmitc, ?_, ?_,
    fun hm => ?_⟩
  · rw [hpub]
    exact h.chunked.snoc hne hlen
  · rw [hflat, hcur, List.append_nil]
    exact hentries
  · rw [hpub, List.mem_append, List.mem_singleton] at hd
    obtain ⟨hworking, hsize⟩ := hfull hw
    rcases hd with hd | rfl
    · exact h.full hworking d hd
    · exact hsize
  · rw [hcur]
    exact Nat.zero_lt_of_lt h.cur
  · rw [hpipe]
    change (s.pipe.chunks ++ [c]).length ≤ pipeDepth
    rw [List.length_append, List.length_singleton]
    exact hfree
  · rw [hflat, hcur, List.append_nil]
    exact hmade
  · rw [hpipe]
    exact iff_of_false hopen hphase
  · rw [hsender, hpipe]
    exact h.sender.publish hopen c
  · rw [hm] at hphase
    exact (hphase trivial).elim

/-- A thread moves on and publishes nothing. -/
theorem GarbleInv.of_phase (h : GarbleInv K start es s) (hpub : t.published = s.published)
    (hcur : t.main.cur = s.main.cur) (htodo : t.main.todo = s.main.todo)
    (hchunks : t.pipe.chunks.length ≤ s.pipe.chunks.length) (hmade : t.made = s.made) (hmitc : t.mitc = s.mitc)
    (hfull : t.main.Working → s.main.Working) (hslot : ∀ cur todo, t.main = .fill cur todo → s.pipe.HasFree)
    (hclosed : t.pipe.closed = true ↔ t.main.Closed) (hsender : t.sender.Holds t.pipe)
    (hjoined : t.main = .done → t.sender = .exited) : GarbleInv K start es t := by
  refine ⟨?_, ?_, fun hw => ?_, ?_, fun cur todo hm => ?_, ?_, ?_, ?_, hclosed, hsender, hjoined⟩
  · rw [hpub]
    exact h.chunked
  · rw [hpub, hcur, htodo]
    exact h.entries
  · rw [hpub]
    exact h.full (hfull hw)
  · rw [hcur]
    exact h.cur
  · exact Nat.lt_of_le_of_lt hchunks (hslot cur todo hm)
  · exact Nat.le_trans hchunks h.count
  · rw [hmade, hpub, hcur]
    exact h.made
  · rw [hmitc, hmade]
    exact h.mitc

/-- **The garbler's main thread.** -/
theorem GarbleInv.mainStep (h : GarbleInv K start es s) (hs : s.mainStep K = some t) : GarbleInv K start es t := by
  have hentries := h.entries
  have hcur := h.cur
  have hmade := h.made
  have hclosed := h.closed
  cases GarbleThreads.MainStep.of_mainStep hs with
  | slot heq hfree =>
    rw [heq] at hclosed
    exact h.of_phase rfl (by rw [heq]; rfl) (by rw [heq]; rfl) (Nat.le_refl _) rfl rfl (fun _ => heq ▸ trivial)
      (fun _ _ _ => hfree) hclosed h.sender (by simp)
  | publish heq hlen =>
    rename_i cur todo e
    have hmade := h.made_make e
    rw [heq] at hentries hmade hclosed
    have hsize : (cur ++ [e]).length = K := by rw [List.length_append, List.length_singleton, hlen]
    have hall : s.published.flatten ++ (cur ++ [e]) ++ todo = es := by
      rw [← hentries]
      simp [GarblePhase.cur, GarblePhase.todo]
    refine h.publish rfl rfl rfl (h.slot _ _ heq) hclosed.mp ?_ ?_ rfl hall (fun _ => ⟨heq ▸ trivial, hsize⟩) id
      (by simp) hmade (h.mitc_make e)
    · exact List.append_ne_nil_of_right_ne_nil _ (List.cons_ne_nil _ _)
    · have hes := congrArg List.length hall
      simp only [List.length_append] at hes hsize ⊢
      omega
  | fill heq hlen =>
    rename_i cur todo e
    have hmade := h.made_make e
    have hfull := h.full
    rw [heq] at hentries hcur hclosed hmade hfull
    have hlt : cur.length < K := hcur
    refine ⟨h.chunked, ?_, hfull, ?_, fun _ _ _ => h.slot _ _ heq, h.count, hmade, h.mitc_make e, hclosed, h.sender,
      by simp⟩
    · rw [← hentries]
      simp [GarbleThreads.published, GarbleThreads.make, GarblePhase.cur, GarblePhase.todo]
    · change (cur ++ [e]).length < K
      rw [List.length_append, List.length_singleton]
      omega
  | last heq hpos =>
    rename_i cur
    rw [heq] at hentries hcur hclosed hmade
    have hlt : cur.length < K := hcur
    have hall : s.published.flatten ++ cur ++ [] = es := hentries
    refine h.publish rfl rfl rfl (h.slot _ _ heq) hclosed.mp (List.length_pos_iff_ne_nil.mp hpos) ?_ rfl hall
      (fun hw => hw.elim) id (by simp) hmade h.mitc
    have hes := congrArg List.length hall
    simp only [List.length_append, List.length_nil] at hes
    omega
  | unused heq =>
    rw [heq] at hclosed
    exact h.of_phase rfl (by rw [heq]; rfl) (by rw [heq]; rfl) (Nat.le_refl _) rfl rfl (fun hw => hw.elim) (by simp)
      hclosed h.sender (by simp)
  | close heq =>
    exact h.of_phase rfl (by rw [heq]; rfl) (by rw [heq]; rfl) (Nat.le_refl _) rfl rfl (fun hw => hw.elim) (by simp)
      (iff_of_true rfl trivial) h.sender.close (by simp)
  | join heq hexit =>
    rw [heq] at hclosed
    exact h.of_phase rfl (by rw [heq]; rfl) (by rw [heq]; rfl) (Nat.le_refl _) rfl rfl (fun hw => hw.elim) (by simp)
      hclosed h.sender fun _ => hexit

/-- The sender moves no chunk but the oldest, from the pipe to those sent. -/
theorem GarbleInv.published_senderStep (h : GarbleInv K start es s) (hs : s.senderStep = some (t, cells)) :
    t.published = s.published := by
  cases GarbleThreads.SenderStep.of_senderStep hs with
  | release hsender =>
    rename_i c
    have hholds := h.sender
    rw [hsender] at hholds
    obtain ⟨cs, hcs⟩ := hholds
    simp only [GarbleThreads.published, ChunkQueue.release, hcs, List.tail_cons]
    exact List.append_assoc _ _ _
  | take | exit | sendG | sendB => rfl

/-- **The sender.** -/
theorem GarbleInv.senderStep (h : GarbleInv K start es s) (hs : s.senderStep = some (t, cells)) :
    GarbleInv K start es t := by
  have hpub := h.published_senderStep hs
  have hholds := h.sender
  have hjoined := h.joined
  cases GarbleThreads.SenderStep.of_senderStep hs with
  | take heq hchunks =>
    rw [heq] at hjoined
    exact h.of_phase hpub rfl rfl (Nat.le_refl _) rfl rfl id h.slot h.closed ⟨_, hchunks⟩ fun hm =>
      (by cases hjoined hm)
  | exit heq hchunks hclosed =>
    exact h.of_phase hpub rfl rfl (Nat.le_refl _) rfl rfl id h.slot h.closed ⟨hchunks, hclosed⟩ fun _ => rfl
  | sendG heq | sendB heq =>
    rw [heq] at hholds hjoined
    exact h.of_phase hpub rfl rfl (Nat.le_refl _) rfl rfl id h.slot h.closed hholds fun hm => (by cases hjoined hm)
  | release heq =>
    rw [heq] at hjoined
    refine h.of_phase hpub rfl rfl ?_ rfl rfl id h.slot h.closed trivial fun hm => (by cases hjoined hm)
    simp [ChunkQueue.release]

end

/-! ### The gates of the pass -/

/-- The data of the garble pass are those of its main thread. -/
structure GarbleThreads.Runs (s : GarbleThreads) (g : GarbleGlobals) : Prop where
  mitc : s.mitc = g.mitc
  cur : s.main.cur = g.cur
  sent : s.published = g.sent

section

variable {s : GarbleThreads} {g : GarbleGlobals} {cur todo : List StreamEntry} {e : StreamEntry}

/-- **An AND of the pass is a step of its main thread.** -/
theorem garbleGate_mainStep {D : Type} {E : EmpTool D} {Δ : Block} {sigma : ℕ → AShareBundle} {gate : Gate}
    {r : ℕ → GarbleSlot} {old : GarbleSlot} (h : s.Runs g) (hmain : s.main = .fill cur (e :: todo))
    (hand : gate.isAnd = true)
    (he : (garbleAnd E Δ g.mitc (r gate.in0) (r gate.in1) old.share (sigma g.ai)).1 = e) :
    ∃ t, s.mainStep kBatch = some t ∧ t.Runs (garbleGate E Δ sigma gate g r old).1 := by
  have hcur : cur = g.cur := by
    have hcur := h.cur
    rwa [hmain] at hcur
  have hop : gate.op = .And := Gate.op_of_isAnd hand
  have hmitc : (s.make e).mitc = g.mitc.advance 1 := congrArg (MITCCRH.advance · 1) h.mitc
  simp only [GarbleThreads.mainStep, hmain, garbleGate, hop, he, ← hcur]
  split
  · refine ⟨_, rfl, hmitc, rfl, ?_⟩
    change s.sent ++ (s.pipe.chunks ++ [cur ++ [e]]) = g.sent ++ [cur ++ [e]]
    rw [← h.sent, ← List.append_assoc]
    rfl
  · exact ⟨_, rfl, hmitc, rfl, h.sent⟩

/-- `end` of the pass publishes what is left. -/
theorem finish_mainStep {K : ℕ} (h : s.Runs g) (hmain : s.main = .fill cur []) :
    ∃ t, s.mainStep K = some t ∧ t.published = g.finish := by
  have hcur : cur = g.cur := by
    have hcur := h.cur
    rwa [hmain] at hcur
  simp only [GarbleThreads.mainStep, hmain, GarbleGlobals.finish, ← hcur]
  refine ⟨_, rfl, ?_⟩
  rcases Nat.eq_zero_or_pos cur.length with hzero | hpos
  · simp only [hzero, Nat.lt_irrefl, if_false, if_true]
    exact h.sent
  · simp only [hpos, if_true, if_neg (Nat.ne_of_gt hpos)]
    change s.sent ++ (s.pipe.chunks ++ [cur]) = g.sent ++ [cur]
    rw [← h.sent, ← List.append_assoc]
    rfl

end

/-! ### What the garbler has put on the socket -/

/-- What the sender has sent of the chunk it holds. -/
def SenderPhase.partSent : SenderPhase → List Cell
  | .sendB c => gCells c
  | .releasing c => chunkCells c
  | _ => []

/-- What the sender has sent. -/
def GarbleThreads.output (s : GarbleThreads) : List Cell := s.sent.flatMap chunkCells ++ s.sender.partSent

section

variable {K : ℕ} {start : MITCCRH} {es : List StreamEntry} {s t : GarbleThreads} {cells : List Cell}

/-- The main thread sends nothing, and publishes behind what it has published. -/
theorem output_mainStep (hs : s.mainStep K = some t) : t.output = s.output ∧ s.published <+: t.published := by
  cases GarbleThreads.MainStep.of_mainStep hs with
  | publish | last => exact ⟨rfl, (List.prefix_append_right_inj _).mpr (List.prefix_append _ _)⟩
  | slot | fill | unused | close | join => exact ⟨rfl, List.prefix_rfl⟩

/-- The sender sends what it says. -/
theorem output_senderStep (hs : s.senderStep = some (t, cells)) : t.output = s.output ++ cells := by
  unfold GarbleThreads.output
  cases GarbleThreads.SenderStep.of_senderStep hs with
  | take hsender _ | exit hsender _ _ | sendG hsender | sendB hsender =>
    simp only [hsender, SenderPhase.partSent, chunkCells, List.append_nil, List.append_assoc]
  | release hsender =>
    simp only [hsender, SenderPhase.partSent, List.flatMap_append, List.flatMap_singleton, List.append_nil]

/-- What has been sent is the beginning of what has been published. -/
theorem GarbleInv.output_isPrefix (h : GarbleInv K start es s) : s.output <+: s.published.flatMap chunkCells := by
  rw [GarbleThreads.published, List.flatMap_append, GarbleThreads.output]
  refine (List.prefix_append_right_inj _).mpr ?_
  have hholds := h.sender
  cases hsender : s.sender with
  | waiting | sendG c | exited => exact List.nil_prefix
  | sendB c =>
    rw [hsender] at hholds
    obtain ⟨cs, hcs⟩ := hholds
    rw [hcs, List.flatMap_cons]
    exact (List.prefix_append _ (bCells c)).trans (List.prefix_append _ _)
  | releasing c =>
    rw [hsender] at hholds
    obtain ⟨cs, hcs⟩ := hholds
    rw [hcs, List.flatMap_cons]
    exact List.prefix_append _ _

/-! ### The garble pass comes to its end -/

/-- At `sender_fut.get()` the sender goes on or has left. -/
theorem GarbleThreads.sender_goes_on (hclosed : s.pipe.closed = true) :
    s.senderStep ≠ none ∨ s.sender = .exited := by
  cases hsender : s.sender with
  | waiting =>
    left
    simp only [GarbleThreads.senderStep, hsender, ChunkQueue.consumerSlot, hclosed, if_true]
    cases s.pipe.chunks <;> simp
  | sendG c | sendB c | releasing c =>
    left
    simp [GarbleThreads.senderStep, hsender]
  | exited => exact .inr rfl

/-- **When no thread of the garble pass can go on, `end` has returned.** -/
theorem GarbleInv.done_of_stopped (h : GarbleInv K start es s) (hmain : s.mainStep K = none)
    (hsender : s.senderStep = none) : s.main = .done := by
  have hexit : s.pipe.closed = true → s.sender = .exited := fun hc =>
    (GarbleThreads.sender_goes_on hc).resolve_left (not_not.mpr hsender)
  cases heq : s.main with
  | wantSlot todo =>
    -- the pipe is full, and the sender would take from it
    have hfull : ¬ s.pipe.HasFree := fun hfree => by simp [GarbleThreads.mainStep, heq, hfree] at hmain
    have hopen : ¬ s.pipe.closed = true := fun hc => by
      have hclosed := h.closed.mp hc
      rw [heq] at hclosed
      exact hclosed
    have hholds := h.sender
    cases hs : s.sender with
    | waiting =>
      cases hchunks : s.pipe.chunks with
      | nil => exact absurd (by simp [ChunkQueue.HasFree, hchunks, pipeDepth]) hfull
      | cons c cs => simp [GarbleThreads.senderStep, hs, ChunkQueue.consumerSlot, hchunks] at hsender
    | sendG c | sendB c | releasing c => simp [GarbleThreads.senderStep, hs] at hsender
    | exited =>
      rw [hs] at hholds
      exact absurd hholds.2 hopen
  | fill cur todo =>
    cases todo with
    | nil => simp [GarbleThreads.mainStep, heq] at hmain
    | cons e todo =>
      simp only [GarbleThreads.mainStep, heq] at hmain
      split at hmain <;> cases hmain
  | closing => simp [GarbleThreads.mainStep, heq] at hmain
  | joining =>
    have hclosed : s.pipe.closed = true := h.closed.mpr (heq ▸ trivial)
    simp [GarbleThreads.mainStep, heq, hexit hclosed] at hmain
  | done => rfl

/-- What is left for the main thread. -/
def GarblePhase.rank : GarblePhase → ℕ
  | .wantSlot todo => 6 * todo.length + 9
  | .fill _ todo => 6 * todo.length + 8
  | .closing => 2
  | .joining => 1
  | .done => 0

/-- What is left for the sender, four steps a chunk. -/
def SenderPhase.rank (q : ChunkQueue) : SenderPhase → ℕ
  | .waiting => 4 * q.chunks.length + 1
  | .sendG _ => 4 * q.chunks.length
  | .sendB _ => 4 * q.chunks.length - 1
  | .releasing _ => 4 * q.chunks.length - 2
  | .exited => 0

/-- What is left of the garble pass. -/
def GarbleThreads.rank (s : GarbleThreads) : ℕ := s.main.rank + s.sender.rank s.pipe

theorem SenderPhase.rank_publish (p : SenderPhase) (q : ChunkQueue) (c : StreamChunk) :
    p.rank (q.publish c) ≤ p.rank q + 4 := by
  have hlen : (q.publish c).chunks.length = q.chunks.length + 1 := List.length_append
  cases p <;> simp only [SenderPhase.rank, hlen] <;> omega

/-- **Every step of the garble pass uses some of it up.** -/
theorem GarbleThreads.rank_lt_mainStep (hs : s.mainStep K = some t) : t.rank < s.rank := by
  unfold GarbleThreads.rank
  cases GarbleThreads.MainStep.of_mainStep hs with
  | slot hmain _ | unused hmain =>
    rw [hmain]
    simp [GarblePhase.rank]
  | publish hmain _ =>
    rename_i cur todo e _
    have hpub := s.sender.rank_publish s.pipe (cur ++ [e])
    rw [hmain]
    simp only [GarblePhase.rank, List.length_cons, GarbleThreads.make]
    omega
  | fill hmain _ =>
    rw [hmain]
    simp only [GarblePhase.rank, List.length_cons, GarbleThreads.make]
    omega
  | last hmain _ =>
    rename_i cur _
    have hpub := s.sender.rank_publish s.pipe cur
    rw [hmain]
    simp only [GarblePhase.rank]
    omega
  | close hmain =>
    rw [hmain]
    cases s.sender <;> simp [GarblePhase.rank, SenderPhase.rank, ChunkQueue.close]
  | join hmain _ =>
    rw [hmain]
    simp [GarblePhase.rank]

theorem GarbleInv.rank_lt_senderStep (h : GarbleInv K start es s) (hs : s.senderStep = some (t, cells)) :
    t.rank < s.rank := by
  unfold GarbleThreads.rank
  have hholds := h.sender
  cases GarbleThreads.SenderStep.of_senderStep hs with
  | take hsender _ | exit hsender _ _ =>
    rw [hsender]
    simp [SenderPhase.rank]
  | sendG hsender | sendB hsender | release hsender =>
    rw [hsender] at hholds ⊢
    obtain ⟨cs, hcs⟩ := hholds
    simp only [SenderPhase.rank, ChunkQueue.release, hcs, List.length_cons, List.tail_cons]
    omega

end

end AG2PC
