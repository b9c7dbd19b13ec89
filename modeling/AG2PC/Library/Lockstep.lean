import AG2PC.Library.Channels

/-!
# Two parties in lockstep

When two parties follow programs made of phases that fit together, no order of their threads' steps
makes them lose step.

* `Balanced` — two scripts of sends and receives on one socket can be run against each other.
* `Goes` — from queues with nothing on the way, one schedule leads from some threads and pipes to others.
* `Phase` — a phase of the left party fits a phase of the right party.
* `inStep_of_phase` — programs that are one phase never lose step: every receive reads the message it
  was meant for, no state is stuck before both parties have finished, and nothing is left on the way.
-/

namespace AG2PC.Library.Channels

open Interleaving

variable {P Sock M Λ : Type*}

/-! ### Messages on the way -/

/-- The bytes of messages in a row, the first with number `k`. -/
def frames (len : M → ℕ) : ℕ → List M → List (ℕ × M)
  | _, [] => []
  | k, m :: u => List.replicate (len m) (k, m) ++ frames len (k + 1) u

theorem frames_append (len : M → ℕ) (k : ℕ) (u v : List M) :
    frames len k (u ++ v) = frames len k u ++ frames len (k + u.length) v := by
  induction u generalizing k with
  | nil => simp [frames]
  | cons m u ih =>
    rw [List.cons_append, frames, ih, frames, List.append_assoc, List.length_cons]
    congr 3
    omega

/-- The messages `u` are on the way: sent, whole and in order, and not received. -/
structure Fifo.Holds (len : M → ℕ) (f : Fifo M) (u : List M) : Prop where
  /-- They are what was sent and not received. -/
  sent : f.sent = f.rcvd ++ u
  /-- Their bytes are what is in the queue. -/
  bytes : f.bytes = frames len f.rcvd.length u

namespace Fifo.Holds

variable {len : M → ℕ} {f : Fifo M} {u : List M} {m : M}

theorem send (h : f.Holds len u) : (f.send len m).Holds len (u ++ [m]) where
  sent := by simp [Fifo.send, h.sent]
  bytes := by
    simp only [Fifo.send]
    rw [h.bytes, h.sent, frames_append, List.length_append]
    simp [frames]

/-- A receive of the first message on the way reads that message. -/
theorem recv (h : f.Holds len (m :: u)) :
    ∃ r f', f.recv len m = some (r, f') ∧ r.Matches len ∧ f'.Holds len u := by
  have hlen : (List.replicate (len m) (f.rcvd.length, m)).length = len m := List.length_replicate
  refine ⟨_, _, if_pos ?_, ?_, ?_, ?_⟩
  · rw [h.bytes, frames, List.length_append, hlen]
    omega
  · simp only [Read.Matches]
    rw [h.bytes, frames, List.take_left' hlen]
  · simp only
    rw [h.sent, List.append_assoc]
    rfl
  · simp only
    rw [h.bytes, frames, List.drop_left' hlen]
    simp

end Fifo.Holds

/-- An exchange takes back no send and no receive. -/
theorem fifoStep_logs {len : M → ℕ} {f f' : Fifo M} {x : Io M} {e : Option (Read M)}
    (h : f.step len x = some (e, f')) : f.sent <+: f'.sent ∧ f.rcvd <+: f'.rcvd := by
  cases x with
  | send m =>
    cases h
    exact ⟨List.prefix_append _ _, List.prefix_refl _⟩
  | recv m =>
    obtain ⟨⟨r, g⟩, hr, heq⟩ := Option.map_eq_some_iff.mp h
    cases heq
    unfold Fifo.recv at hr
    split_ifs at hr
    cases hr
    exact ⟨List.prefix_refl _, List.prefix_append _ _⟩

/-! ### Scripts that fit together -/

/-- The scripts `x` of the left party and `y` of the right party on one socket, with the messages `u`
on the way to the right and `v` on the way to the left, can be run to their ends, every receive of the
message that is first on its way, and leave nothing on the way. -/
inductive Balanced : List M → List M → List (Io M) → List (Io M) → Prop
  /-- Both have ended. -/
  | done : Balanced [] [] [] []
  /-- The left party sends. -/
  | sendL {u v : List M} {x y : List (Io M)} {m : M} :
      Balanced (u ++ [m]) v x y → Balanced u v (.send m :: x) y
  /-- The left party receives. -/
  | recvL {u v : List M} {x y : List (Io M)} {m : M} :
      Balanced u v x y → Balanced u (m :: v) (.recv m :: x) y
  /-- The right party sends. -/
  | sendR {u v : List M} {x y : List (Io M)} {m : M} :
      Balanced u (v ++ [m]) x y → Balanced u v x (.send m :: y)
  /-- The right party receives. -/
  | recvR {u v : List M} {x y : List (Io M)} {m : M} :
      Balanced u v x y → Balanced (m :: u) v x (.recv m :: y)

namespace Balanced

variable {u v : List M} {x y x' y' : List (Io M)}

theorem symm (h : Balanced u v x y) : Balanced v u y x := by
  induction h with
  | done => exact .done
  | sendL _ ih => exact .sendR ih
  | recvL _ ih => exact .recvR ih
  | sendR _ ih => exact .sendL ih
  | recvR _ ih => exact .recvL ih

/-- One pair of scripts after another. -/
theorem append (h : Balanced u v x y) (h' : Balanced [] [] x' y') :
    Balanced u v (x ++ x') (y ++ y') := by
  induction h with
  | done => exact h'
  | sendL _ ih => exact .sendL ih
  | recvL _ ih => exact .recvL ih
  | sendR _ ih => exact .sendR ih
  | recvR _ ih => exact .recvR ih

/-- The messages can be renamed. -/
theorem map {N : Type*} (f : M → N) (h : Balanced u v x y) :
    Balanced (u.map f) (v.map f) (x.map (Io.map f)) (y.map (Io.map f)) := by
  induction h with
  | done => exact .done
  | sendL _ ih => exact .sendL (by simpa using ih)
  | recvL _ ih => exact .recvL ih
  | sendR _ ih => exact .sendR (by simpa using ih)
  | recvR _ ih => exact .recvR ih

/-- A message to the right first. -/
theorem toRight {m : M} (h : Balanced [] [] x y) : Balanced [] [] (.send m :: x) (.recv m :: y) :=
  .sendL (.recvR h)

/-- A message to the left first. -/
theorem toLeft {m : M} (h : Balanced [] [] x y) : Balanced [] [] (.recv m :: x) (.send m :: y) :=
  .sendR (.recvL h)

/-- Any messages to the right. -/
theorem sends (ms : List M) : Balanced [] [] (ms.map .send) (ms.map .recv) := by
  induction ms with
  | nil => exact .done
  | cons m ms ih => exact ih.toRight

end Balanced

/-! ### One schedule -/

/-- A script on a socket. -/
def exchange (s : Sock) (x : List (Io M)) : List (Act Sock M Λ) := x.map (.io s)

section Schedule

variable (𝓜 : Machine P Sock M Λ) {p q : P}

/-- The receive of a step, if it is one, has read the message it was meant for. -/
def Seen (e : Option (Read M)) : Prop := ∀ r, e = some r → r.Matches 𝓜.len

theorem seen_none : Seen 𝓜 none := by
  intro r h
  cases h

variable [DecidableEq P] [DecidableEq Sock]

/-- A run whose receives have read what they were meant to. -/
def Leads (σ τ : State P Sock M Λ) : Prop :=
  ∃ w, Run 𝓜.step σ w τ ∧ ∀ x ∈ w, Seen 𝓜 x.2

variable {𝓜}

theorem Leads.refl (σ : State P Sock M Λ) : Leads 𝓜 σ σ := ⟨[], .nil, by simp⟩

theorem Leads.trans {σ τ υ : State P Sock M Λ} (h : Leads 𝓜 σ τ) (h' : Leads 𝓜 τ υ) :
    Leads 𝓜 σ υ := by
  obtain ⟨w, hw, hs⟩ := h
  obtain ⟨w', hw', hs'⟩ := h'
  refine ⟨w ++ w', hw.append hw', fun x hx => ?_⟩
  rcases List.mem_append.mp hx with hx | hx
  · exact hs x hx
  · exact hs' x hx

theorem Leads.single {σ τ : State P Sock M Λ} {x : Actor P} {e : Option (Read M)}
    (h : 𝓜.step σ x = some (e, τ)) (he : Seen 𝓜 e) : Leads 𝓜 σ τ :=
  ⟨[(x, e)], .single h, by simpa using he⟩

/-- The state after thread `i` of party `p` has made an exchange: what its end of the queue has become,
and what the thread goes on with. -/
def afterIo (p : P) (i : ℕ) (d : Sock × P) (f : Fifo M) (rest : List (Cmd Sock M Λ))
    (σ : State P Sock M Λ) : State P Sock M Λ :=
  ⟨σ.mem.setChan d f, Function.update σ.threads p ((σ.threads p).set i rest)⟩

/-- A thread at an exchange makes it when its end of the queue lets it. -/
theorem step_io {σ : State P Sock M Λ} {i : ℕ} {s : Sock} {x : Io M} {rest : List (Cmd Sock M Λ)}
    {e : Option (Read M)} {f : Fifo M} (hT : (σ.threads p)[i]? = some (.act (.io s x) :: rest))
    (hf : (σ.mem.chan (𝓜.dir p s x)).step 𝓜.len x = some (e, f)) :
    𝓜.step σ (p, i) = some (e, afterIo p i (𝓜.dir p s x) f rest σ) :=
  step_iff.mpr ⟨_, _, [], _, offer_act hT, actStep_io_iff.mpr ⟨f, hf, rfl, rfl⟩, rfl⟩

/-- A thread at a send sends. -/
theorem leads_send {σ : State P Sock M Λ} {i : ℕ} {s : Sock} {m : M} {rest : List (Cmd Sock M Λ)}
    (hT : (σ.threads p)[i]? = some (.act (.io s (.send m)) :: rest)) :
    Leads 𝓜 σ (afterIo p i (s, p) ((σ.mem.chan (s, p)).send 𝓜.len m) rest σ) :=
  .single (step_io hT rfl) (seen_none 𝓜)

/-- A thread at a receive of the message that is first on its way receives it. -/
theorem leads_recv {σ : State P Sock M Λ} {i : ℕ} {s : Sock} {m : M} {u : List M}
    {rest : List (Cmd Sock M Λ)} (hT : (σ.threads p)[i]? = some (.act (.io s (.recv m)) :: rest))
    (hu : (σ.mem.chan (s, 𝓜.peer p)).Holds 𝓜.len (m :: u)) :
    ∃ f, f.Holds 𝓜.len u ∧ Leads 𝓜 σ (afterIo p i (s, 𝓜.peer p) f rest σ) := by
  obtain ⟨r, f, hf, hr, hu'⟩ := hu.recv
  have hstep : (σ.mem.chan (s, 𝓜.peer p)).step 𝓜.len (.recv m) = some (some r, f) := by
    simp [Fifo.step, hf]
  refine ⟨f, hu', .single (step_io hT hstep) ?_⟩
  rintro r' h
  cases h
  exact hr

/-- Two threads, one of each party, have exchanged messages on a socket: what they go on with, and
nothing on the way. -/
structure Exchanged (𝓜 : Machine P Sock M Λ) (s : Sock) (p : P) (i : ℕ) (rp : List (Cmd Sock M Λ))
    (q : P) (j : ℕ) (rq : List (Cmd Sock M Λ)) (σ τ : State P Sock M Λ) : Prop where
  left : τ.threads p = (σ.threads p).set i rp
  right : τ.threads q = (σ.threads q).set j rq
  pipe : τ.mem.pipe = σ.mem.pipe
  toRight : (τ.mem.chan (s, p)).Holds 𝓜.len []
  toLeft : (τ.mem.chan (s, q)).Holds 𝓜.len []
  others : ∀ t, t ≠ s → ∀ r, τ.mem.chan (t, r) = σ.mem.chan (t, r)

/-- An exchange of the left party before. -/
theorem Exchanged.of_left {s : Sock} {i j : ℕ} {rp rq c : List (Cmd Sock M Λ)} {r : P} {f : Fifo M}
    {σ τ : State P Sock M Λ} (hpq : p ≠ q)
    (h : Exchanged 𝓜 s p i rp q j rq (afterIo p i (s, r) f c σ) τ) :
    Exchanged 𝓜 s p i rp q j rq σ τ where
  left := by simpa [afterIo] using h.left
  right := by simpa [afterIo, Function.update_of_ne hpq.symm] using h.right
  pipe := by simpa [afterIo] using h.pipe
  toRight := h.toRight
  toLeft := h.toLeft
  others t ht r' := by
    rw [h.others t ht r']
    exact Mem.setChan_chan_of_ne _ _ (by simp [ht])

/-- An exchange of the right party before. -/
theorem Exchanged.of_right {s : Sock} {i j : ℕ} {rp rq c : List (Cmd Sock M Λ)} {r : P} {f : Fifo M}
    {σ τ : State P Sock M Λ} (hpq : p ≠ q)
    (h : Exchanged 𝓜 s p i rp q j rq (afterIo q j (s, r) f c σ) τ) :
    Exchanged 𝓜 s p i rp q j rq σ τ where
  left := by simpa [afterIo, Function.update_of_ne hpq] using h.left
  right := by simpa [afterIo] using h.right
  pipe := by simpa [afterIo] using h.pipe
  toRight := h.toRight
  toLeft := h.toLeft
  others t ht r' := by
    rw [h.others t ht r']
    exact Mem.setChan_chan_of_ne _ _ (by simp [ht])

/-- What a thread that has made an exchange is at. -/
theorem afterIo_self {σ : State P Sock M Λ} {i : ℕ} {d : Sock × P} {f : Fifo M}
    {c rest : List (Cmd Sock M Λ)} (hT : (σ.threads p)[i]? = some c) :
    ((afterIo p i d f rest σ).threads p)[i]? = some rest := by
  have hi := (List.getElem?_eq_some_iff.mp hT).1
  simp [afterIo, hi]

/-- Scripts that fit together, at the front of two threads, run to their ends. -/
theorem Balanced.leads (hpq : p ≠ q) (hp : 𝓜.peer p = q) {u v : List M} {x y : List (Io M)}
    (h : Balanced u v x y) {s : Sock} {i j : ℕ} {rp rq : List (Cmd Sock M Λ)} (σ : State P Sock M Λ)
    (hi : (σ.threads p)[i]? = some ((exchange s x).map .act ++ rp))
    (hj : (σ.threads q)[j]? = some ((exchange s y).map .act ++ rq))
    (hu : (σ.mem.chan (s, p)).Holds 𝓜.len u) (hv : (σ.mem.chan (s, q)).Holds 𝓜.len v) :
    ∃ τ, Leads 𝓜 σ τ ∧ Exchanged 𝓜 s p i rp q j rq σ τ := by
  have hq : 𝓜.peer q = p := by rw [← hp, 𝓜.peer_peer]
  have hd : (s, p) ≠ (s, q) := by simpa using hpq
  induction h generalizing σ with
  | done =>
    refine ⟨σ, .refl σ, ?_, ?_, rfl, hu, hv, fun _ _ _ => rfl⟩
    · obtain ⟨hi, h⟩ := List.getElem?_eq_some_iff.mp hi
      exact (h ▸ List.set_getElem_self hi).symm
    · obtain ⟨hj, h⟩ := List.getElem?_eq_some_iff.mp hj
      exact (h ▸ List.set_getElem_self hj).symm
  | sendL _ ih =>
    obtain ⟨τ, hτ, hex⟩ := ih (afterIo p i (s, p) _ _ σ) (afterIo_self hi)
      (by simpa [afterIo, Function.update_of_ne hpq.symm] using hj)
      (by simpa [afterIo] using hu.send) (by simpa [afterIo, hd.symm] using hv)
    exact ⟨τ, (leads_send hi).trans hτ, hex.of_left hpq⟩
  | recvL _ ih =>
    obtain ⟨f, hf, hrecv⟩ := leads_recv hi (by rwa [hp])
    rw [hp] at hrecv
    obtain ⟨τ, hτ, hex⟩ := ih (afterIo p i (s, q) f _ σ) (afterIo_self hi)
      (by simpa [afterIo, Function.update_of_ne hpq.symm] using hj)
      (by simpa [afterIo, hd] using hu) (by simpa [afterIo] using hf)
    exact ⟨τ, hrecv.trans hτ, hex.of_left hpq⟩
  | sendR _ ih =>
    obtain ⟨τ, hτ, hex⟩ := ih (afterIo q j (s, q) _ _ σ)
      (by simpa [afterIo, Function.update_of_ne hpq] using hi) (afterIo_self hj)
      (by simpa [afterIo, hd] using hu) (by simpa [afterIo] using hv.send)
    exact ⟨τ, (leads_send hj).trans hτ, hex.of_right hpq⟩
  | recvR _ ih =>
    obtain ⟨f, hf, hrecv⟩ := leads_recv hj (by rwa [hq])
    rw [hq] at hrecv
    obtain ⟨τ, hτ, hex⟩ := ih (afterIo q j (s, p) f _ σ)
      (by simpa [afterIo, Function.update_of_ne hpq] using hi) (afterIo_self hj)
      (by simpa [afterIo] using hf) (by simpa [afterIo, hd.symm] using hv)
    exact ⟨τ, hrecv.trans hτ, hex.of_right hpq⟩

end Schedule

/-! ### From threads to threads -/

/-- The threads and the pipes of two parties. -/
@[ext]
structure Config (Sock M Λ : Type*) where
  /-- The left party's threads. -/
  left : List (List (Cmd Sock M Λ))
  /-- The right party's threads. -/
  right : List (List (Cmd Sock M Λ))
  /-- The left party's pipe. -/
  leftPipe : Pipe
  /-- The right party's pipe. -/
  rightPipe : Pipe

/-- The parties the other way round. -/
def Config.swap (κ : Config Sock M Λ) : Config Sock M Λ :=
  ⟨κ.right, κ.left, κ.rightPipe, κ.leftPipe⟩

/-- The two parties are at `κ`, and nothing is on the way. -/
structure At (𝓜 : Machine P Sock M Λ) (p q : P) (κ : Config Sock M Λ) (σ : State P Sock M Λ) :
    Prop where
  left : σ.threads p = κ.left
  right : σ.threads q = κ.right
  leftPipe : σ.mem.pipe p = κ.leftPipe
  rightPipe : σ.mem.pipe q = κ.rightPipe
  toRight : ∀ s, (σ.mem.chan (s, p)).Holds 𝓜.len []
  toLeft : ∀ s, (σ.mem.chan (s, q)).Holds 𝓜.len []

theorem At.swap {𝓜 : Machine P Sock M Λ} {p q : P} {κ : Config Sock M Λ} {σ : State P Sock M Λ}
    (h : At 𝓜 p q κ σ) : At 𝓜 q p κ.swap σ :=
  ⟨h.right, h.left, h.rightPipe, h.leftPipe, h.toLeft, h.toRight⟩

section Goes

variable [DecidableEq P] [DecidableEq Sock] (𝓜 : Machine P Sock M Λ) (p q : P)

/-- Some schedule leads the two parties from `κ` to `κ'`. -/
def Goes (κ κ' : Config Sock M Λ) : Prop :=
  ∀ σ, At 𝓜 p q κ σ → ∃ τ, Leads 𝓜 σ τ ∧ At 𝓜 p q κ' τ

variable {𝓜 p q} {κ κ' κ'' : Config Sock M Λ}

theorem Goes.refl (κ : Config Sock M Λ) : Goes 𝓜 p q κ κ := fun σ h => ⟨σ, .refl σ, h⟩

theorem Goes.trans (h : Goes 𝓜 p q κ κ') (h' : Goes 𝓜 p q κ' κ'') : Goes 𝓜 p q κ κ'' := by
  intro σ hσ
  obtain ⟨τ, hτ, hat⟩ := h σ hσ
  obtain ⟨υ, hυ, hat'⟩ := h' τ hat
  exact ⟨υ, hτ.trans hυ, hat'⟩

theorem Goes.swap (h : Goes 𝓜 p q κ κ') : Goes 𝓜 q p κ.swap κ'.swap := by
  intro σ hσ
  obtain ⟨τ, hτ, hat⟩ := h σ hσ.swap
  exact ⟨τ, hτ, hat.swap⟩

/-- A step of the left party that changes no channel. -/
theorem Goes.leftStep (hpq : p ≠ q) {A B : List (List (Cmd Sock M Λ))} {π ρ π' : Pipe} {i : ℕ}
    {o : Work Sock M Λ} {k : List (Act Sock M Λ) → List (List (Cmd Sock M Λ))}
    {c : List (Act Sock M Λ)} (ho : offer 𝓜.workers A i = some (o, k))
    (hw : ∀ μ : Mem P Sock M, μ.pipe p = π → 𝓜.workStep p μ o = some (none, c, μ.setPipe p π')) :
    Goes 𝓜 p q ⟨A, B, π, ρ⟩ ⟨k c, B, π', ρ⟩ := by
  intro σ hσ
  have hstep : 𝓜.step σ (p, i) = some (none, ⟨σ.mem.setPipe p π', Function.update σ.threads p (k c)⟩) :=
    step_iff.mpr ⟨o, k, c, _, by rw [hσ.left]; exact ho, hw _ hσ.leftPipe, rfl⟩
  refine ⟨_, .single hstep (seen_none 𝓜), ?_, ?_, ?_, ?_, hσ.toRight, hσ.toLeft⟩
  · simp
  · simpa [Function.update_of_ne hpq.symm] using hσ.right
  · simp
  · simpa [Mem.setPipe_pipe_of_ne _ _ hpq.symm] using hσ.rightPipe

/-- A step of a left thread at the pipe. -/
theorem Goes.leftPipe (hpq : p ≠ q) {A B : List (List (Cmd Sock M Λ))} {π ρ π' : Pipe} (i : ℕ)
    {o : PipeOp Λ} {rest : List (Cmd Sock M Λ)} {c : List (Act Sock M Λ)}
    (hA : A[i]? = some (.act (.pipe o) :: rest)) (ho : 𝓜.pipeStep π o = some (c, π')) :
    Goes 𝓜 p q ⟨A, B, π, ρ⟩ ⟨A.set i (c.map .act ++ rest), B, π', ρ⟩ := by
  refine Goes.leftStep hpq (offer_act hA) ?_
  rintro μ rfl
  exact actStep_pipe_iff.mpr ⟨π', ho, rfl, rfl⟩

/-- A step of the left party that changes no queue. -/
theorem Goes.leftSkip (hpq : p ≠ q) {A B : List (List (Cmd Sock M Λ))} {π ρ : Pipe} {i : ℕ}
    {k : List (Act Sock M Λ) → List (List (Cmd Sock M Λ))}
    (ho : offer 𝓜.workers A i = some (.skip, k)) :
    Goes 𝓜 p q ⟨A, B, π, ρ⟩ ⟨k [], B, π, ρ⟩ := by
  refine Goes.leftStep hpq ho ?_
  rintro μ rfl
  simp [Machine.workStep, Mem.setPipe]

/-- The left main thread hands out a job. -/
theorem Goes.leftEnqueue (hpq : p ≠ q) (jobs : List (List (Cmd Sock M Λ)))
    {B : List (List (Cmd Sock M Λ))} {π ρ : Pipe} {job : List (Act Sock M Λ)} {rest : List (Cmd Sock M Λ)} (hw : jobs.length < 𝓜.workers) :
    Goes 𝓜 p q ⟨(.enqueue job :: rest) :: jobs, B, π, ρ⟩ ⟨rest :: (jobs ++ [job.map .act]), B, π, ρ⟩ := by
  have hlen : jobs.length + 1 ≤ 𝓜.workers := hw
  refine Goes.leftSkip (i := 0) (k := fun _ => rest :: (jobs ++ [job.map .act])) hpq ?_
  simp [offer, hlen]

/-- The left main thread has waited for its jobs. -/
theorem Goes.leftJoin (hpq : p ≠ q) {jobs B : List (List (Cmd Sock M Λ))} {π ρ : Pipe}
    {rest : List (Cmd Sock M Λ)} (hjobs : jobs.all List.isEmpty) :
    Goes 𝓜 p q ⟨(.join :: rest) :: jobs, B, π, ρ⟩ ⟨[rest], B, π, ρ⟩ := by
  refine Goes.leftSkip (i := 0) (k := fun _ => [rest]) hpq ?_
  simp only [offer, List.getElem?_cons_zero, List.tail_cons, true_and]
  rw [if_pos hjobs]

/-- The left main thread makes a pipe. -/
theorem Goes.leftNewPipe (hpq : p ≠ q) {B : List (List (Cmd Sock M Λ))} {π ρ : Pipe}
    {rest : List (Cmd Sock M Λ)} :
    Goes 𝓜 p q ⟨[.newPipe :: rest], B, π, ρ⟩ ⟨[rest], B, {}, ρ⟩ :=
  Goes.leftStep (i := 0) (o := .newPipe) (k := fun _ => [rest]) (c := []) hpq rfl fun _ _ => rfl

/-- A step of a right thread at the pipe. -/
theorem Goes.rightPipe (hpq : p ≠ q) {A B : List (List (Cmd Sock M Λ))} {π ρ ρ' : Pipe} (j : ℕ)
    {o : PipeOp Λ} {rest : List (Cmd Sock M Λ)} {c : List (Act Sock M Λ)}
    (hB : B[j]? = some (.act (.pipe o) :: rest)) (ho : 𝓜.pipeStep ρ o = some (c, ρ')) :
    Goes 𝓜 p q ⟨A, B, π, ρ⟩ ⟨A, B.set j (c.map .act ++ rest), π, ρ'⟩ :=
  (Goes.leftPipe hpq.symm j hB ho).swap

/-- The right main thread hands out a job. -/
theorem Goes.rightEnqueue (hpq : p ≠ q) (jobs : List (List (Cmd Sock M Λ)))
    {A : List (List (Cmd Sock M Λ))} {π ρ : Pipe} {job : List (Act Sock M Λ)} {rest : List (Cmd Sock M Λ)} (hw : jobs.length < 𝓜.workers) :
    Goes 𝓜 p q ⟨A, (.enqueue job :: rest) :: jobs, π, ρ⟩ ⟨A, rest :: (jobs ++ [job.map .act]), π, ρ⟩ :=
  (Goes.leftEnqueue hpq.symm jobs hw).swap

/-- The right main thread has waited for its jobs. -/
theorem Goes.rightJoin (hpq : p ≠ q) {A jobs : List (List (Cmd Sock M Λ))} {π ρ : Pipe}
    {rest : List (Cmd Sock M Λ)} (hjobs : jobs.all List.isEmpty) :
    Goes 𝓜 p q ⟨A, (.join :: rest) :: jobs, π, ρ⟩ ⟨A, [rest], π, ρ⟩ :=
  (Goes.leftJoin hpq.symm hjobs).swap

/-- The right main thread makes a pipe. -/
theorem Goes.rightNewPipe (hpq : p ≠ q) {A : List (List (Cmd Sock M Λ))} {π ρ : Pipe}
    {rest : List (Cmd Sock M Λ)} :
    Goes 𝓜 p q ⟨A, [.newPipe :: rest], π, ρ⟩ ⟨A, [rest], π, {}⟩ :=
  (Goes.leftNewPipe hpq.symm).swap

/-- A thread of each party exchange messages on a socket. -/
theorem Goes.exchange (hpq : p ≠ q) (hp : 𝓜.peer p = q) {A B : List (List (Cmd Sock M Λ))} {π ρ : Pipe}
    (s : Sock) (i j : ℕ) (rp rq : List (Cmd Sock M Λ)) {x y : List (Io M)} (h : Balanced [] [] x y)
    (hA : A[i]? = some ((Channels.exchange s x).map .act ++ rp))
    (hB : B[j]? = some ((Channels.exchange s y).map .act ++ rq)) :
    Goes 𝓜 p q ⟨A, B, π, ρ⟩ ⟨A.set i rp, B.set j rq, π, ρ⟩ := by
  intro σ hσ
  obtain ⟨τ, hτ, hex⟩ := h.leads hpq hp σ (by rw [hσ.left]; exact hA) (by rw [hσ.right]; exact hB)
    (hσ.toRight s) (hσ.toLeft s)
  refine ⟨τ, hτ, ?_, ?_, ?_, ?_, fun t => ?_, fun t => ?_⟩
  · rw [hex.left, hσ.left]
  · rw [hex.right, hσ.right]
  · rw [hex.pipe, hσ.leftPipe]
  · rw [hex.pipe, hσ.rightPipe]
  · by_cases ht : t = s
    · exact ht ▸ hex.toRight
    · exact hex.others t ht p ▸ hσ.toRight t
  · by_cases ht : t = s
    · exact ht ▸ hex.toLeft
    · exact hex.others t ht q ▸ hσ.toLeft t

end Goes

/-! ### Phases -/

section Phases

variable [DecidableEq P] [DecidableEq Sock] (𝓜 : Machine P Sock M Λ) (p q : P)

/-- The commands `X` of the left main thread and `Y` of the right one fit together: started with no
jobs out and nothing on the way, some schedule leads past both, to the same. -/
def Phase (X Y : List (Cmd Sock M Λ)) : Prop :=
  ∀ rp rq π ρ, ∃ π' ρ', Goes 𝓜 p q ⟨[X ++ rp], [Y ++ rq], π, ρ⟩ ⟨[rp], [rq], π', ρ'⟩

variable {𝓜 p q} {X Y X' Y' : List (Cmd Sock M Λ)}

theorem Phase.nil : Phase 𝓜 p q ([] : List (Cmd Sock M Λ)) [] := fun _ _ π ρ => ⟨π, ρ, .refl _⟩

/-- One phase after another. -/
theorem Phase.append (h : Phase 𝓜 p q X Y) (h' : Phase 𝓜 p q X' Y') :
    Phase 𝓜 p q (X ++ X') (Y ++ Y') := by
  intro rp rq π ρ
  rw [List.append_assoc, List.append_assoc]
  obtain ⟨π', ρ', hgo⟩ := h (X' ++ rp) (Y' ++ rq) π ρ
  obtain ⟨π'', ρ'', hgo'⟩ := h' rp rq π' ρ'
  exact ⟨π'', ρ'', hgo.trans hgo'⟩

/-- The main threads exchange messages on a socket. -/
theorem Phase.talk (hpq : p ≠ q) (hp : 𝓜.peer p = q) (s : Sock) {x y : List (Io M)}
    (h : Balanced [] [] x y) :
    Phase 𝓜 p q ((exchange s x).map .act) ((exchange s y).map .act) := fun rp rq π ρ =>
  ⟨π, ρ, Goes.exchange hpq hp s 0 0 rp rq h (by rfl) (by rfl)⟩

/-- A main thread hands out two jobs and waits for both. -/
def fork (a b : List (Act Sock M Λ)) : List (Cmd Sock M Λ) := [.enqueue a, .enqueue b, .join]

/-- A main thread that can hand out two jobs and has done so. -/
theorem Goes.leftFork (hpq : p ≠ q) (hw : 2 ≤ 𝓜.workers) {a b : List (Act Sock M Λ)}
    {rest : List (Cmd Sock M Λ)} {B : List (List (Cmd Sock M Λ))} {π ρ : Pipe} :
    Goes 𝓜 p q ⟨[fork a b ++ rest], B, π, ρ⟩ ⟨[.join :: rest, a.map .act, b.map .act], B, π, ρ⟩ :=
  (Goes.leftEnqueue hpq [] (by simp only [List.length_nil]; omega)).trans
    (Goes.leftEnqueue hpq [a.map .act] (by simp only [List.length_singleton]; omega))

/-- Each party hands out two jobs, which exchange messages on two sockets: the first job of one party
with the second of the other. -/
theorem Phase.cross (hpq : p ≠ q) (hp : 𝓜.peer p = q) (hw : 2 ≤ 𝓜.workers) (s t : Sock)
    {x x' y y' : List (Io M)} (h : Balanced [] [] x y) (h' : Balanced [] [] x' y') :
    Phase 𝓜 p q (fork (exchange s x) (exchange t x')) (fork (exchange t y') (exchange s y)) := by
  intro rp rq π ρ
  refine ⟨π, ρ, ?_⟩
  refine (Goes.leftFork hpq hw).trans ?_
  refine Goes.trans (Goes.leftFork hpq.symm hw).swap ?_
  refine Goes.trans (Goes.exchange hpq hp s 1 2 [] [] h (by simp) (by simp)) ?_
  refine Goes.trans (Goes.exchange hpq hp t 2 1 [] [] h' (by simp) (by simp)) ?_
  refine Goes.trans (Goes.leftJoin hpq (by simp)) ?_
  exact Goes.rightJoin hpq (by simp)

end Phases

/-! ### Phases that keep threads apart -/

section Tidy

variable {loopPorts : Λ → Set (Port Sock)} {X Y : List (Cmd Sock M Λ)}

/-- Commands that start and end with no jobs out, and keep the jobs they hand out apart. -/
def Tidy (loopPorts : Λ → Set (Port Sock)) (X : List (Cmd Sock M Λ)) : Prop :=
  ∀ rest, Apart loopPorts rest [] → Apart loopPorts (X ++ rest) []

theorem Tidy.nil : Tidy loopPorts ([] : List (Cmd Sock M Λ)) := fun _ h => h

theorem Tidy.append (h : Tidy loopPorts X) (h' : Tidy loopPorts Y) : Tidy loopPorts (X ++ Y) := by
  intro rest hrest
  rw [List.append_assoc]
  exact h _ (h' rest hrest)

/-- A main thread with no jobs out may use every end. -/
theorem Tidy.acts (c : List (Act Sock M Λ)) : Tidy loopPorts (c.map .act) :=
  fun _ h => h.append_acts fun _ _ _ hf => by cases hf

/-- The ends an exchange on a socket uses are those of the socket. -/
theorem jobPorts_exchange (s : Sock) (x : List (Io M)) :
    jobPorts loopPorts (((exchange s x : List (Act Sock M Λ))).map .act) ⊆ {.out s, .inn s} := by
  rintro port ⟨a, ha, hport⟩
  rw [List.mem_map] at ha
  obtain ⟨a', ha', heq⟩ := ha
  cases heq
  obtain ⟨io, -, rfl⟩ := List.mem_map.mp ha'
  cases io with
  | send m => exact .inl hport
  | recv m => exact .inr hport

/-- Two jobs on different sockets keep apart. -/
theorem Tidy.fork {s t : Sock} (hst : s ≠ t) (x y : List (Io M)) :
    Tidy loopPorts (fork (exchange s x) (exchange t y) : List (Cmd Sock M Λ)) := by
  intro rest hrest
  refine ⟨?_, hrest⟩
  simp only [List.nil_append, List.cons_append, List.pairwise_cons, List.mem_singleton, forall_eq,
    List.not_mem_nil, false_implies, implies_true, List.Pairwise.nil, and_true]
  refine Disjoint.mono (jobPorts_exchange s x) (jobPorts_exchange t y) ?_
  simp [Set.disjoint_left, hst]

end Tidy

/-! ### Never out of step -/

section InStep

variable [DecidableEq P] [DecidableEq Sock] (𝓜 : Machine P Sock M Λ)

/-- Every main thread has ended, and waited for every job. -/
def Finished (σ : State P Sock M Λ) : Prop := ∀ r, σ.threads r = [[]]

/-- No run from `σ₀` loses step. -/
structure InStep (σ₀ : State P Sock M Λ) : Prop where
  /-- Every receive reads, whole, the message it was meant for, which has its own number. -/
  matched : ∀ w σ, Run 𝓜.step σ₀ w σ → ∀ x ∈ w, ∀ r, x.2 = some r → r.Matches 𝓜.len
  /-- The messages of each direction are the same in every run: the receives want them in the order in
  which they are sent. -/
  transcript : ∃ T : Sock × P → List M, ∀ w σ, Run 𝓜.step σ₀ w σ →
    ∀ d, (σ.mem.chan d).sent <+: T d ∧ (σ.mem.chan d).rcvd <+: T d
  /-- As long as the parties have not finished, some thread can step. -/
  not_stuck : ∀ w σ, Run 𝓜.step σ₀ w σ → Finished σ ∨ ∃ x e τ, 𝓜.step σ x = some (e, τ)
  /-- When they have finished, every queue is empty, and what was received is what was sent. -/
  drained : ∀ w σ, Run 𝓜.step σ₀ w σ → Finished σ →
    ∀ d, (σ.mem.chan d).bytes = [] ∧ (σ.mem.chan d).rcvd = (σ.mem.chan d).sent
  /-- They finish: no run is longer than some bound. -/
  bounded : ∃ N, ∀ w σ, Run 𝓜.step σ₀ w σ → w.length ≤ N

/-- The start of a program for each party: nothing on the way, no pipe, no job out. -/
def start (program : P → List (Cmd Sock M Λ)) : State P Sock M Λ := ⟨{}, fun r => [program r]⟩

variable {𝓜} {p q : P}

/-- Parties that have finished do nothing more. -/
theorem Finished.stopped {σ : State P Sock M Λ} (h : Finished σ) : Stopped 𝓜.step σ := by
  rintro ⟨r, i⟩
  cases i with
  | zero => simp [Machine.step, offer, h r]
  | succ i => simp [Machine.step, offer, h r]

/-- A step takes back no send and no receive. -/
theorem step_logs {σ τ : State P Sock M Λ} {x : Actor P} {e : Option (Read M)}
    (h : 𝓜.step σ x = some (e, τ)) (d : Sock × P) :
    (σ.mem.chan d).sent <+: (τ.mem.chan d).sent ∧ (σ.mem.chan d).rcvd <+: (τ.mem.chan d).rcvd := by
  obtain ⟨o, k, c, μ, -, hw, rfl⟩ := step_iff.mp h
  cases o with
  | skip =>
    cases hw
    exact ⟨List.prefix_refl _, List.prefix_refl _⟩
  | newPipe =>
    cases hw
    exact ⟨List.prefix_refl _, List.prefix_refl _⟩
  | act a =>
    cases a with
    | pipe o =>
      obtain ⟨π, -, -, rfl⟩ := actStep_pipe_iff.mp hw
      exact ⟨List.prefix_refl _, List.prefix_refl _⟩
    | io s y =>
      obtain ⟨f, hf, -, rfl⟩ := actStep_io_iff.mp hw
      by_cases hd : d = 𝓜.dir x.1 s y
      · subst hd
        rw [Mem.setChan_chan_self]
        exact fifoStep_logs hf
      · rw [Mem.setChan_chan_of_ne _ _ hd]
        exact ⟨List.prefix_refl _, List.prefix_refl _⟩

/-- A run takes back no send and no receive. -/
theorem run_logs {σ τ : State P Sock M Λ} {w : List (Actor P × Option (Read M))}
    (h : Run 𝓜.step σ w τ) (d : Sock × P) :
    (σ.mem.chan d).sent <+: (τ.mem.chan d).sent ∧ (σ.mem.chan d).rcvd <+: (τ.mem.chan d).rcvd := by
  induction h with
  | nil => exact ⟨List.prefix_refl _, List.prefix_refl _⟩
  | cons hs _ ih => exact ⟨(step_logs hs d).1.trans ih.1, (step_logs hs d).2.trans ih.2⟩

/-- **Programs that are one phase never lose step.** -/
theorem inStep_of_phase (hpq : p ≠ q) (hall : ∀ r, r = p ∨ r = q) {program : P → List (Cmd Sock M Λ)}
    (htidy : ∀ r, Tidy 𝓜.loopPorts (program r)) (h : Phase 𝓜 p q (program p) (program q)) :
    InStep 𝓜 (start program) := by
  have hfree : RaceFree 𝓜 (start program) := by
    intro r
    refine ⟨program r, [], rfl, ?_⟩
    simpa using htidy r [] .nil
  have hat : At 𝓜 p q ⟨[program p ++ []], [program q ++ []], {}, {}⟩ (start program) := by
    refine ⟨by simp [start], by simp [start], rfl, rfl, fun _ => ⟨rfl, rfl⟩, fun _ => ⟨rfl, rfl⟩⟩
  obtain ⟨π', ρ', hgo⟩ := h [] [] {} {}
  obtain ⟨τ, ⟨w, hw, hseen⟩, hτ⟩ := hgo _ hat
  have hfin : Finished τ := by
    intro r
    rcases hall r with rfl | rfl
    · exact hτ.left
    · exact hτ.right
  have hstop := hfin.stopped (𝓜 := 𝓜)
  have hc := commuting 𝓜
  have hholds : ∀ d, (τ.mem.chan d).Holds 𝓜.len [] := by
    rintro ⟨s, r⟩
    rcases hall r with rfl | rfl
    · exact hτ.toRight s
    · exact hτ.toLeft s
  have hlog : ∀ d, (τ.mem.chan d).rcvd = (τ.mem.chan d).sent := fun d => by
    simpa using (hholds d).sent.symm
  refine ⟨fun v σ hv => ?_, ⟨fun d => (τ.mem.chan d).sent, fun v σ hv d => ?_⟩, fun v σ hv => ?_,
    fun v σ hv hσ d => ?_, w.length, fun v σ hv => ?_⟩
  · exact hc.events hfree hw hstop hv hseen
  · obtain ⟨v', hv', -⟩ := hc.completes hfree hw hstop hv
    obtain ⟨hsent, hrcvd⟩ := run_logs hv' d
    rw [hlog d] at hrcvd
    exact ⟨hsent, hrcvd⟩
  · rcases hc.not_stuck hfree hw hstop hv with rfl | hstep
    · exact .inl hfin
    · exact .inr hstep
  · obtain rfl := hc.stop_unique hfree hw hstop hv hσ.stopped
    exact ⟨(hholds d).bytes, hlog d⟩
  · exact hc.length_le hfree hw hstop hv

end InStep

end AG2PC.Library.Channels
