import AG2PC.Library.Interleaving
import Mathlib.Data.Set.Insert
import Mathlib.Data.Set.Lattice
import Mathlib.Order.CompletePartialOrder

/-!
# Parties with worker threads on FIFO channels

Parties talk over sockets, each direction of a socket a FIFO queue of bytes. A party runs a main
thread, which may hand jobs to worker threads and wait for them, and a bounded pipe of chunks between
two of its threads. Bytes carry the number of the message they belong to and the message itself, so
that what a receive has read can be compared with what it was meant to read.

* `Machine.step` — the step of one thread of one party.
* `RaceFree` — no two threads that run at one time use the same end of a queue; every step keeps it
  (`RaceFree.step`).
* `commuting` — under `RaceFree` the steps of two threads commute, so one schedule speaks for all.
-/

namespace AG2PC.Library.Channels

open Interleaving

variable {P Sock M Λ : Type*}

/-! ### Queues -/

/-- A send or a receive of a message. -/
inductive Io (M : Type*) where
  /-- Send the message. -/
  | send (m : M)
  /-- Receive as many bytes as the message has. -/
  | recv (m : M)

/-- The same exchange of a renamed message. -/
def Io.map {N : Type*} (f : M → N) : Io M → Io N
  | .send m => .send (f m)
  | .recv m => .recv (f m)

/-- One direction of a socket. -/
@[ext]
structure Fifo (M : Type*) where
  /-- The messages sent so far. -/
  sent : List M := []
  /-- The messages received so far, as the receiver wanted them. -/
  rcvd : List M := []
  /-- The bytes on the way: each with the number of its message, and the message. -/
  bytes : List (ℕ × M) := []

/-- A receive: its number, the message it was meant for, and the bytes it read. -/
structure Read (M : Type*) where
  /-- How many receives came before it. -/
  num : ℕ
  /-- What it was meant to read. -/
  want : M
  /-- The bytes it read. -/
  got : List (ℕ × M)

/-- The receive has read the message with its own number, whole, and that message is the one it was
meant for. -/
def Read.Matches (len : M → ℕ) (r : Read M) : Prop :=
  r.got = List.replicate (len r.want) (r.num, r.want)

namespace Fifo

variable (len : M → ℕ)

/-- The bytes of a message are appended. -/
def send (m : M) (f : Fifo M) : Fifo M :=
  { f with
    sent := f.sent ++ [m]
    bytes := f.bytes ++ List.replicate (len m) (f.sent.length, m) }

/-- A receive waits for as many bytes as it wants, and takes them. -/
def recv (m : M) (f : Fifo M) : Option (Read M × Fifo M) :=
  if len m ≤ f.bytes.length then
    some (⟨f.rcvd.length, m, f.bytes.take (len m)⟩,
      { f with rcvd := f.rcvd ++ [m], bytes := f.bytes.drop (len m) })
  else none

/-- An exchange at its end of the queue: what it has read, and the queue after it. -/
def step (f : Fifo M) : Io M → Option (Option (Read M) × Fifo M)
  | .send m => some (none, f.send len m)
  | .recv m => (f.recv len m).map fun (r, f') => (some r, f')

/-- A send does not disturb a receive. -/
theorem recv_send {m m' : M} {f f' : Fifo M} {r : Read M} (h : f.recv len m = some (r, f')) :
    (f.send len m').recv len m = some (r, f'.send len m') := by
  unfold recv at h ⊢
  split_ifs at h with hle
  cases h
  rw [if_pos (by simp only [send, List.length_append]; omega)]
  simp only [send, List.take_append_of_le_length hle, List.drop_append_of_le_length hle]

end Fifo

/-- A pipe of chunks, of which only the sizes are kept. -/
@[ext]
structure Pipe where
  /-- The sizes of the chunks in the pipe. -/
  chunks : List ℕ := []
  /-- No more chunks will come. -/
  closed : Bool := false

/-- What a thread does at a pipe. The producer waits for a free slot, publishes the chunk it has put
there and closes the pipe; the consumer waits for a chunk, in a loop that goes on by what it finds,
and frees the slot. -/
inductive PipeOp (Λ : Type*) where
  /-- Wait for a free slot. -/
  | producerSlot
  /-- Publish a chunk of `n` entries. -/
  | publish (n : ℕ)
  /-- No more chunks. -/
  | close
  /-- Wait for a chunk or for the end, and go on with the loop `l`. -/
  | consumerSlot (l : Λ)
  /-- Free the slot of the first chunk. -/
  | release

/-- An end of a queue, of the party at hand. -/
inductive Port (Sock : Type*) where
  /-- The outgoing direction of a socket. -/
  | out (s : Sock)
  /-- The incoming direction of a socket. -/
  | inn (s : Sock)
  /-- The producer's end of the pipe. -/
  | producer
  /-- The consumer's end of the pipe. -/
  | consumer

/-- What a thread does: an exchange on a socket or a step at the pipe. -/
inductive Act (Sock M Λ : Type*) where
  /-- A send or a receive on a socket. -/
  | io (s : Sock) (x : Io M)
  /-- A step at the pipe. -/
  | pipe (o : PipeOp Λ)

/-- The ends an action uses, and those the loop it may enter will use. -/
def Act.ports (loopPorts : Λ → Set (Port Sock)) : Act Sock M Λ → Set (Port Sock)
  | .io s (.send _) => {.out s}
  | .io s (.recv _) => {.inn s}
  | .pipe .producerSlot => {.producer}
  | .pipe (.publish _) => {.producer}
  | .pipe .close => {.producer}
  | .pipe (.consumerSlot l) => insert .consumer (loopPorts l)
  | .pipe .release => {.consumer}

/-- What a main thread does. -/
inductive Cmd (Sock M Λ : Type*) where
  /-- An action of its own. -/
  | act (a : Act Sock M Λ)
  /-- Hand a job to a worker. -/
  | enqueue (job : List (Act Sock M Λ))
  /-- Wait until every job has finished. -/
  | join
  /-- Make a fresh pipe. -/
  | newPipe

/-! ### The machine -/

/-- What a machine is made of: who talks to whom, how long a message is, how many chunks a pipe
holds and how many workers a party has, and the loops on the pipe. -/
structure Machine (P Sock M Λ : Type*) where
  /-- The other party. -/
  peer : P → P
  /-- The other party's other party. -/
  peer_peer : ∀ p, peer (peer p) = p
  /-- The bytes of a message. -/
  len : M → ℕ
  /-- The slots of a pipe. -/
  depth : ℕ
  /-- The workers of a party. -/
  workers : ℕ
  /-- How a loop goes on: with a chunk of some size, or at the end of the pipe. -/
  body : Λ → Option ℕ → Option (List (Act Sock M Λ))
  /-- The ends a loop uses, besides the consumer's. -/
  loopPorts : Λ → Set (Port Sock)
  /-- A loop uses no others. -/
  body_ports : ∀ {l : Λ} {r : Option ℕ} {c : List (Act Sock M Λ)}, body l r = some c →
    ∀ a ∈ c, a.ports loopPorts ⊆ insert .consumer (loopPorts l)

/-- The queues. -/
@[ext]
structure Mem (P Sock M : Type*) where
  /-- The channels: a socket and the party that sends on it. -/
  chan : Sock × P → Fifo M := fun _ => {}
  /-- The pipe of each party. -/
  pipe : P → Pipe := fun _ => {}

namespace Mem

variable [DecidableEq P] (μ : Mem P Sock M) {p q : P} (π ρ : Pipe)

/-- One pipe changes. -/
def setPipe (p : P) (π : Pipe) : Mem P Sock M := { μ with pipe := Function.update μ.pipe p π }

@[simp] theorem setPipe_pipe_self : (μ.setPipe p π).pipe p = π := Function.update_self ..

@[simp] theorem setPipe_pipe_of_ne (h : q ≠ p) : (μ.setPipe p π).pipe q = μ.pipe q :=
  Function.update_of_ne h ..

@[simp] theorem setPipe_chan : (μ.setPipe p π).chan = μ.chan := rfl

@[simp] theorem setPipe_setPipe_self : (μ.setPipe p π).setPipe p ρ = μ.setPipe p ρ := by
  simp [setPipe]

theorem setPipe_comm (h : p ≠ q) : (μ.setPipe p π).setPipe q ρ = (μ.setPipe q ρ).setPipe p π := by
  simp [setPipe, Function.update_comm h]

variable [DecidableEq Sock] {d d' : Sock × P} (f g : Fifo M)

/-- One channel changes. -/
def setChan (d : Sock × P) (f : Fifo M) : Mem P Sock M := { μ with chan := Function.update μ.chan d f }

@[simp] theorem setChan_chan_self : (μ.setChan d f).chan d = f := Function.update_self ..

@[simp] theorem setChan_chan_of_ne (h : d' ≠ d) : (μ.setChan d f).chan d' = μ.chan d' :=
  Function.update_of_ne h ..

@[simp] theorem setChan_pipe : (μ.setChan d f).pipe = μ.pipe := rfl

@[simp] theorem setChan_setChan_self : (μ.setChan d f).setChan d g = μ.setChan d g := by
  simp [setChan]

theorem setChan_comm (h : d ≠ d') : (μ.setChan d f).setChan d' g = (μ.setChan d' g).setChan d f := by
  simp [setChan, Function.update_comm h]

end Mem

/-- A state: the queues, and the threads of each party, the main thread first, with what each has
left to do. A job that has finished stays until it is waited for. -/
@[ext]
structure State (P Sock M Λ : Type*) where
  /-- The queues. -/
  mem : Mem P Sock M
  /-- The threads. -/
  threads : P → List (List (Cmd Sock M Λ))

/-- A thread of a party. -/
abbrev Actor (P : Type*) := P × ℕ

/-- What a thread wants done to the queues. -/
inductive Work (Sock M Λ : Type*) where
  /-- An action. -/
  | act (a : Act Sock M Λ)
  /-- Nothing. -/
  | skip
  /-- A fresh pipe. -/
  | newPipe

/-- The step thread `i` of a party with threads `T` is at: what it wants done to the queues, and the
threads after it, given how the action goes on. A job starts when a worker is free; a pipe is made
when no job is running. -/
def offer (workers : ℕ) (T : List (List (Cmd Sock M Λ))) (i : ℕ) :
    Option (Work Sock M Λ × (List (Act Sock M Λ) → List (List (Cmd Sock M Λ)))) :=
  match T[i]? with
  | some (.act a :: rest) => some (.act a, fun c => T.set i (c.map .act ++ rest))
  | some (.enqueue job :: rest) =>
    if i = 0 ∧ T.length ≤ workers then some (.skip, fun _ => T.set 0 rest ++ [job.map .act]) else none
  | some (.join :: rest) =>
    if i = 0 ∧ T.tail.all List.isEmpty then some (.skip, fun _ => [rest]) else none
  | some (.newPipe :: rest) =>
    if i = 0 ∧ T.length = 1 then some (.newPipe, fun _ => [rest]) else none
  | _ => none

namespace Machine

variable (𝓜 : Machine P Sock M Λ)

/-- A step at a pipe, with how it goes on. Nothing is published after the end, and no slot is freed
that holds no chunk. -/
def pipeStep (π : Pipe) : PipeOp Λ → Option (List (Act Sock M Λ) × Pipe)
  | .producerSlot => if π.chunks.length < 𝓜.depth then some ([], π) else none
  | .publish n => if π.closed then none else some ([], { π with chunks := π.chunks ++ [n] })
  | .close => some ([], { π with closed := true })
  | .consumerSlot l =>
    if π.chunks ≠ [] ∨ π.closed then (𝓜.body l π.chunks.head?).map fun c => (c, π) else none
  | .release => if π.chunks = [] then none else some ([], { π with chunks := π.chunks.tail })

/-- The direction of a socket an exchange of a party is on. -/
def dir (p : P) (s : Sock) : Io M → Sock × P
  | .send _ => (s, p)
  | .recv _ => (s, 𝓜.peer p)

variable [DecidableEq P] [DecidableEq Sock]

/-- An action of a party on the queues: what it has read, how it goes on, and the queues after it. -/
def actStep (p : P) (μ : Mem P Sock M) :
    Act Sock M Λ → Option (Option (Read M) × List (Act Sock M Λ) × Mem P Sock M)
  | .io s x =>
    ((μ.chan (𝓜.dir p s x)).step 𝓜.len x).map fun (r, f) =>
      (r, [], μ.setChan (𝓜.dir p s x) f)
  | .pipe o =>
    (𝓜.pipeStep (μ.pipe p) o).map fun (c, π) => (none, c, μ.setPipe p π)

/-- What a thread wants done to the queues, done. -/
def workStep (p : P) (μ : Mem P Sock M) :
    Work Sock M Λ → Option (Option (Read M) × List (Act Sock M Λ) × Mem P Sock M)
  | .act a => 𝓜.actStep p μ a
  | .skip => some (none, [], μ)
  | .newPipe => some (none, [], μ.setPipe p {})

/-- The step of one thread of one party. -/
def step (σ : State P Sock M Λ) (x : Actor P) : Option (Option (Read M) × State P Sock M Λ) :=
  match offer 𝓜.workers (σ.threads x.1) x.2 with
  | some (o, k) =>
    (𝓜.workStep x.1 σ.mem o).map fun (r, c, μ) => (r, ⟨μ, Function.update σ.threads x.1 (k c)⟩)
  | none => none

end Machine

/-! ### Steps that commute -/

section Commute

variable {𝓜 : Machine P Sock M Λ} {π π' π₁ π₂ : Pipe} {c d : List (Act Sock M Λ)}

theorem producerSlot_iff :
    𝓜.pipeStep π .producerSlot = some (c, π') ↔ π.chunks.length < 𝓜.depth ∧ c = [] ∧ π' = π := by
  simp only [Machine.pipeStep]
  split_ifs with h
  · simp [h, eq_comm]
  · simp [h]

theorem publish_iff {n : ℕ} :
    𝓜.pipeStep π (.publish n) = some (c, π') ↔
      π.closed = false ∧ c = [] ∧ π' = { π with chunks := π.chunks ++ [n] } := by
  simp only [Machine.pipeStep]
  split_ifs with h
  · simp [h]
  · simp [h, eq_comm]

theorem close_iff :
    𝓜.pipeStep π .close = some (c, π') ↔ c = [] ∧ π' = { π with closed := true } := by
  simp [Machine.pipeStep, eq_comm]

theorem consumerSlot_iff {l : Λ} :
    𝓜.pipeStep π (.consumerSlot l) = some (c, π') ↔
      (π.chunks ≠ [] ∨ π.closed) ∧ 𝓜.body l π.chunks.head? = some c ∧ π' = π := by
  simp only [Machine.pipeStep]
  split_ifs with h
  · simp only [Option.map_eq_some_iff, Prod.mk.injEq, h, true_and]
    constructor
    · rintro ⟨c', hc, rfl, rfl⟩
      exact ⟨hc, rfl⟩
    · rintro ⟨hc, rfl⟩
      exact ⟨c, hc, rfl, rfl⟩
  · simp [h]

theorem release_iff :
    𝓜.pipeStep π .release = some (c, π') ↔
      π.chunks ≠ [] ∧ c = [] ∧ π' = { π with chunks := π.chunks.tail } := by
  simp only [Machine.pipeStep]
  split_ifs with h
  · simp [h]
  · simp [h, eq_comm]

/-- Whether a step at the pipe is the producer's. -/
def PipeOp.isProducer : PipeOp Λ → Bool
  | .producerSlot | .publish _ | .close => true
  | .consumerSlot _ | .release => false

/-- The producer and the consumer of a pipe do not disturb each other. -/
theorem pipeStep_comm {a b : PipeOp Λ} (ha : a.isProducer = true) (hb : b.isProducer = false)
    (h₁ : 𝓜.pipeStep π a = some (c, π₁)) (h₂ : 𝓜.pipeStep π b = some (d, π₂)) :
    ∃ π', 𝓜.pipeStep π₁ b = some (d, π') ∧ 𝓜.pipeStep π₂ a = some (c, π') := by
  cases b with
  | consumerSlot l =>
    obtain ⟨hready, hbody, rfl⟩ := consumerSlot_iff.mp h₂
    refine ⟨π₁, consumerSlot_iff.mpr ?_, h₁⟩
    cases a with
    | producerSlot =>
      obtain ⟨-, -, rfl⟩ := producerSlot_iff.mp h₁
      exact ⟨hready, hbody, rfl⟩
    | publish n =>
      obtain ⟨hopen, -, rfl⟩ := publish_iff.mp h₁
      have hne : π₂.chunks ≠ [] := by simpa [hopen] using hready
      refine ⟨by simp, ?_, rfl⟩
      rwa [List.head?_append_of_ne_nil _ hne]
    | close =>
      obtain ⟨-, rfl⟩ := close_iff.mp h₁
      exact ⟨by simp, hbody, rfl⟩
    | _ => cases ha
  | release =>
    obtain ⟨hne, rfl, rfl⟩ := release_iff.mp h₂
    cases a with
    | producerSlot =>
      obtain ⟨hfree, rfl, rfl⟩ := producerSlot_iff.mp h₁
      refine ⟨_, h₂, producerSlot_iff.mpr ⟨?_, rfl, rfl⟩⟩
      simp only [List.length_tail]
      omega
    | publish n =>
      obtain ⟨hopen, rfl, rfl⟩ := publish_iff.mp h₁
      refine ⟨_, release_iff.mpr ⟨by simp, rfl, rfl⟩, publish_iff.mpr ⟨hopen, rfl, ?_⟩⟩
      simp only [List.tail_append_of_ne_nil hne]
    | close =>
      obtain ⟨rfl, rfl⟩ := close_iff.mp h₁
      exact ⟨_, release_iff.mpr ⟨hne, rfl, rfl⟩, close_iff.mpr ⟨rfl, rfl⟩⟩
    | _ => cases ha
  | _ => cases hb

/-- Exchanges at the two ends of one queue do not disturb each other. -/
theorem fifoStep_comm {f f₁ f₂ : Fifo M} {len : M → ℕ} {m m' : M} {r r' : Option (Read M)}
    (h₁ : f.step len (.send m) = some (r, f₁)) (h₂ : f.step len (.recv m') = some (r', f₂)) :
    ∃ f', f₁.step len (.recv m') = some (r', f') ∧ f₂.step len (.send m) = some (r, f') := by
  cases h₁
  obtain ⟨⟨rd, f'⟩, hr, h⟩ := Option.map_eq_some_iff.mp h₂
  cases h
  refine ⟨f₂.send len m, ?_, rfl⟩
  simp [Fifo.step, Fifo.recv_send len hr]

/-- Exchanges of two threads at the ends of one queue do not disturb each other. -/
theorem ioStep_comm {p q : P} {s t : Sock} {x y : Io M} {f f₁ f₂ : Fifo M} {r r' : Option (Read M)}
    (hd : 𝓜.dir p s x = 𝓜.dir q t y)
    (hab : p ≠ q ∨ Disjoint ((Act.io s x : Act Sock M Λ).ports 𝓜.loopPorts)
      ((Act.io t y : Act Sock M Λ).ports 𝓜.loopPorts))
    (h₁ : f.step 𝓜.len x = some (r, f₁)) (h₂ : f.step 𝓜.len y = some (r', f₂)) :
    ∃ f', f₁.step 𝓜.len y = some (r', f') ∧ f₂.step 𝓜.len x = some (r, f') := by
  cases x with
  | send m =>
    cases y with
    | send m' =>
      -- two senders on one direction are one thread
      simp only [Machine.dir, Prod.mk.injEq] at hd
      obtain ⟨rfl, rfl⟩ := hd
      simp [Act.ports] at hab
    | recv m' => exact fifoStep_comm h₁ h₂
  | recv m =>
    cases y with
    | send m' =>
      obtain ⟨f', h, h'⟩ := fifoStep_comm h₂ h₁
      exact ⟨f', h', h⟩
    | recv m' =>
      -- two receivers on one direction are one thread
      simp only [Machine.dir, Prod.mk.injEq] at hd
      obtain ⟨rfl, hpeer⟩ := hd
      have hpq : p = q := by rw [← 𝓜.peer_peer p, hpeer, 𝓜.peer_peer]
      subst hpq
      simp [Act.ports] at hab

/-- Two steps of one party at its pipe that use different ends are of the producer and the consumer. -/
theorem isProducer_ne {lp : Λ → Set (Port Sock)} {a b : PipeOp Λ}
    (h : Disjoint ((Act.pipe a : Act Sock M Λ).ports lp) ((Act.pipe b : Act Sock M Λ).ports lp)) :
    a.isProducer ≠ b.isProducer := by
  intro heq
  rw [Set.disjoint_left] at h
  cases a <;> cases b <;> simp_all [Act.ports, PipeOp.isProducer]

variable [DecidableEq P] [DecidableEq Sock]

theorem actStep_io_iff {p : P} {μ μ' : Mem P Sock M} {s : Sock} {x : Io M} {r : Option (Read M)} :
    𝓜.actStep p μ (.io s x) = some (r, c, μ') ↔ ∃ f, (μ.chan (𝓜.dir p s x)).step 𝓜.len x = some (r, f) ∧
      c = [] ∧ μ' = μ.setChan (𝓜.dir p s x) f := by
  simp only [Machine.actStep, Option.map_eq_some_iff, Prod.exists, Prod.mk.injEq]
  constructor
  · rintro ⟨r', f, h, rfl, rfl, rfl⟩
    exact ⟨f, h, rfl, rfl⟩
  · rintro ⟨f, h, rfl, rfl⟩
    exact ⟨r, f, h, rfl, rfl, rfl⟩

theorem actStep_pipe_iff {p : P} {μ μ' : Mem P Sock M} {o : PipeOp Λ} {r : Option (Read M)} :
    𝓜.actStep p μ (.pipe o) = some (r, c, μ') ↔ ∃ π, 𝓜.pipeStep (μ.pipe p) o = some (c, π) ∧
      r = none ∧ μ' = μ.setPipe p π := by
  simp only [Machine.actStep, Option.map_eq_some_iff, Prod.exists, Prod.mk.injEq]
  constructor
  · rintro ⟨c', π, h, rfl, rfl, rfl⟩
    exact ⟨π, h, rfl, rfl⟩
  · rintro ⟨π, h, rfl, rfl⟩
    exact ⟨c, π, h, rfl, rfl, rfl⟩

/-- Actions of two threads do not disturb each other when they are of two parties, or use different
ends. -/
theorem actStep_comm {p q : P} {a b : Act Sock M Λ} {μ μ₁ μ₂ : Mem P Sock M} {r r' : Option (Read M)}
    (hab : p ≠ q ∨ Disjoint (a.ports 𝓜.loopPorts) (b.ports 𝓜.loopPorts))
    (h₁ : 𝓜.actStep p μ a = some (r, c, μ₁)) (h₂ : 𝓜.actStep q μ b = some (r', d, μ₂)) :
    ∃ μ', 𝓜.actStep q μ₁ b = some (r', d, μ') ∧ 𝓜.actStep p μ₂ a = some (r, c, μ') := by
  cases a with
  | io s x =>
    obtain ⟨f₁, hf₁, rfl, rfl⟩ := actStep_io_iff.mp h₁
    cases b with
    | io t y =>
      obtain ⟨f₂, hf₂, rfl, rfl⟩ := actStep_io_iff.mp h₂
      by_cases hd : 𝓜.dir p s x = 𝓜.dir q t y
      · rw [← hd] at hf₂ ⊢
        obtain ⟨f', hy, hx⟩ := ioStep_comm hd hab hf₁ hf₂
        refine ⟨μ.setChan (𝓜.dir p s x) f', ?_, ?_⟩
        · exact actStep_io_iff.mpr ⟨f', by simpa [← hd] using hy, rfl, by simp [← hd]⟩
        · exact actStep_io_iff.mpr ⟨f', by simpa using hx, rfl, by simp⟩
      · refine ⟨_, actStep_io_iff.mpr ⟨f₂, ?_, rfl, rfl⟩, actStep_io_iff.mpr ⟨f₁, ?_, rfl, ?_⟩⟩
        · rwa [Mem.setChan_chan_of_ne _ _ (Ne.symm hd)]
        · rwa [Mem.setChan_chan_of_ne _ _ hd]
        · exact Mem.setChan_comm _ _ _ hd
    | pipe o =>
      obtain ⟨π, hπ, rfl, rfl⟩ := actStep_pipe_iff.mp h₂
      exact ⟨_, actStep_pipe_iff.mpr ⟨π, hπ, rfl, rfl⟩, actStep_io_iff.mpr ⟨f₁, hf₁, rfl, rfl⟩⟩
  | pipe o =>
    obtain ⟨π₁, hπ₁, rfl, rfl⟩ := actStep_pipe_iff.mp h₁
    cases b with
    | io t y =>
      obtain ⟨f₂, hf₂, rfl, rfl⟩ := actStep_io_iff.mp h₂
      exact ⟨_, actStep_io_iff.mpr ⟨f₂, hf₂, rfl, rfl⟩, actStep_pipe_iff.mpr ⟨π₁, hπ₁, rfl, rfl⟩⟩
    | pipe o' =>
      obtain ⟨π₂, hπ₂, rfl, rfl⟩ := actStep_pipe_iff.mp h₂
      by_cases hpq : p = q
      · subst hpq
        have hne := isProducer_ne (hab.resolve_left (by simp))
        have hcomm : ∃ π', 𝓜.pipeStep π₁ o' = some (d, π') ∧ 𝓜.pipeStep π₂ o = some (c, π') := by
          cases ho : o.isProducer with
          | true => exact pipeStep_comm ho (by simpa [ho] using hne.symm) hπ₁ hπ₂
          | false =>
            obtain ⟨π', h, h'⟩ := pipeStep_comm (by simpa [ho] using hne.symm) ho hπ₂ hπ₁
            exact ⟨π', h', h⟩
        obtain ⟨π', h, h'⟩ := hcomm
        refine ⟨μ.setPipe p π', ?_, ?_⟩
        · exact actStep_pipe_iff.mpr ⟨π', by simpa using h, rfl, by simp⟩
        · exact actStep_pipe_iff.mpr ⟨π', by simpa using h', rfl, by simp⟩
      · refine ⟨_, actStep_pipe_iff.mpr ⟨π₂, ?_, rfl, rfl⟩, actStep_pipe_iff.mpr ⟨π₁, ?_, rfl, ?_⟩⟩
        · rwa [Mem.setPipe_pipe_of_ne _ _ (Ne.symm hpq)]
        · rwa [Mem.setPipe_pipe_of_ne _ _ hpq]
        · exact Mem.setPipe_comm _ _ _ hpq

/-- The ends a thread's work uses. -/
def Work.ports (loopPorts : Λ → Set (Port Sock)) : Work Sock M Λ → Set (Port Sock)
  | .act a => a.ports loopPorts
  | .skip => ∅
  | .newPipe => {.producer, .consumer}

/-- A fresh pipe does not disturb an action of another party, or one that uses no end of the pipe. -/
theorem newPipe_comm {p q : P} {b : Act Sock M Λ} {μ μ₂ : Mem P Sock M} {r' : Option (Read M)}
    (hab : p ≠ q ∨ Disjoint {Port.producer, Port.consumer} (b.ports 𝓜.loopPorts))
    (h₂ : 𝓜.actStep q μ b = some (r', d, μ₂)) :
    𝓜.actStep q (μ.setPipe p {}) b = some (r', d, μ₂.setPipe p {}) := by
  cases b with
  | io t y =>
    obtain ⟨f₂, hf₂, rfl, rfl⟩ := actStep_io_iff.mp h₂
    exact actStep_io_iff.mpr ⟨f₂, hf₂, rfl, rfl⟩
  | pipe o =>
    obtain ⟨π₂, hπ₂, rfl, rfl⟩ := actStep_pipe_iff.mp h₂
    have hpq : p ≠ q := by
      apply hab.resolve_right
      cases o <;> simp [Act.ports]
    refine actStep_pipe_iff.mpr ⟨π₂, ?_, rfl, Mem.setPipe_comm _ _ _ hpq.symm⟩
    rwa [Mem.setPipe_pipe_of_ne _ _ hpq.symm]

/-- What two threads want done can be done in either order when they are of two parties, or use
different ends. -/
theorem workStep_comm {p q : P} {a b : Work Sock M Λ} {μ μ₁ μ₂ : Mem P Sock M}
    {r r' : Option (Read M)} (hab : p ≠ q ∨ Disjoint (a.ports 𝓜.loopPorts) (b.ports 𝓜.loopPorts))
    (h₁ : 𝓜.workStep p μ a = some (r, c, μ₁)) (h₂ : 𝓜.workStep q μ b = some (r', d, μ₂)) :
    ∃ μ', 𝓜.workStep q μ₁ b = some (r', d, μ') ∧ 𝓜.workStep p μ₂ a = some (r, c, μ') := by
  cases a with
  | skip =>
    cases h₁
    exact ⟨μ₂, h₂, rfl⟩
  | newPipe =>
    cases h₁
    cases b with
    | skip =>
      cases h₂
      exact ⟨_, rfl, rfl⟩
    | newPipe =>
      cases h₂
      have hpq : p ≠ q := by
        apply hab.resolve_right
        intro h
        exact Set.disjoint_left.mp h (.inl rfl) (.inl rfl)
      exact ⟨_, rfl, by rw [Machine.workStep, Mem.setPipe_comm _ _ _ hpq.symm]⟩
    | act b => exact ⟨_, newPipe_comm hab h₂, rfl⟩
  | act a =>
    cases b with
    | skip =>
      cases h₂
      exact ⟨μ₁, rfl, h₁⟩
    | newPipe =>
      cases h₂
      exact ⟨_, rfl, newPipe_comm (hab.imp Ne.symm fun h => h.symm) h₁⟩
    | act b => exact actStep_comm hab h₁ h₂

end Commute

/-! ### Threads -/

section Threads

variable {workers : ℕ} {T : List (List (Cmd Sock M Λ))} {i j : ℕ} {o o' : Work Sock M Λ}
  {k k' : List (Act Sock M Λ) → List (List (Cmd Sock M Λ))}

/-- What thread `i` can be at. -/
theorem offer_cases (h : offer workers T i = some (o, k)) :
    (∃ a rest, T[i]? = some (.act a :: rest) ∧ o = .act a ∧
      k = fun c => T.set i (c.map .act ++ rest)) ∨
    (∃ job rest, i = 0 ∧ T[0]? = some (.enqueue job :: rest) ∧ T.length ≤ workers ∧ o = .skip ∧
      k = fun _ => T.set 0 rest ++ [job.map .act]) ∨
    (∃ rest, i = 0 ∧ T[0]? = some (.join :: rest) ∧ T.tail.all List.isEmpty ∧ o = .skip ∧
      k = fun _ => [rest]) ∨
    (∃ rest, i = 0 ∧ T[0]? = some (.newPipe :: rest) ∧ T.length = 1 ∧ o = .newPipe ∧
      k = fun _ => [rest]) := by
  unfold offer at h
  split at h
  · rename_i a rest hT
    cases h
    exact .inl ⟨a, rest, hT, rfl, rfl⟩
  · rename_i job rest hT
    split_ifs at h with hc
    obtain ⟨rfl, hw⟩ := hc
    cases h
    exact .inr (.inl ⟨job, rest, rfl, hT, hw, rfl, rfl⟩)
  · rename_i rest hT
    split_ifs at h with hc
    obtain ⟨rfl, hw⟩ := hc
    cases h
    exact .inr (.inr (.inl ⟨rest, rfl, hT, hw, rfl, rfl⟩))
  · rename_i rest hT
    split_ifs at h with hc
    obtain ⟨rfl, hw⟩ := hc
    cases h
    exact .inr (.inr (.inr ⟨rest, rfl, hT, hw, rfl, rfl⟩))
  · cases h

theorem offer_act {a : Act Sock M Λ} {c : List (Cmd Sock M Λ)} (h : T[i]? = some (.act a :: c)) :
    offer workers T i = some (.act a, fun b => T.set i (b.map .act ++ c)) := by
  simp [offer, h]

/-- A job is at an action; the main thread is not waiting for it, nor making a pipe. -/
theorem offer_job (hj : j ≠ 0) (h : offer workers T j = some (o, k)) :
    (∃ a rest, T[j]? = some (.act a :: rest) ∧ o = .act a ∧
      k = fun c => T.set j (c.map .act ++ rest)) ∧ T.tail.all List.isEmpty = false ∧ T.length ≠ 1 := by
  obtain ⟨a, rest, hT, rfl, rfl⟩ | ⟨_, _, h0, -⟩ | ⟨_, h0, -⟩ | ⟨_, h0, -⟩ := offer_cases h
  · refine ⟨⟨a, rest, hT, rfl, rfl⟩, ?_, ?_⟩
    · rw [List.all_eq_false]
      have hmem : T.tail[j - 1]? = some (.act a :: rest) := by
        rw [List.getElem?_tail, Nat.sub_add_cancel (by omega)]
        exact hT
      exact ⟨.act a :: rest, List.mem_of_getElem? hmem, by simp⟩
    · have := (List.getElem?_eq_some_iff.mp hT).1
      omega
  · exact absurd h0 hj
  · exact absurd h0 hj
  · exact absurd h0 hj

/-- What a thread of a party is at, a job of the party does not change, and the other way round. -/
theorem offer_comm_job (hj : j ≠ 0) (hij : i ≠ j) (h₁ : offer workers T i = some (o, k))
    (h₂ : offer workers T j = some (o', k')) (c d : List (Act Sock M Λ)) :
    ∃ l l', offer workers (k c) j = some (o', l) ∧ offer workers (k' d) i = some (o, l') ∧
      l d = l' c := by
  obtain ⟨⟨b, rest', hTj, rfl, rfl⟩, hall, hlen⟩ := offer_job hj h₂
  have hjlt : j < T.length := (List.getElem?_eq_some_iff.mp hTj).1
  obtain ⟨a, rest, hTi, rfl, rfl⟩ | ⟨job, rest, rfl, hTi, hw, rfl, rfl⟩ | ⟨_, -, -, hall', -⟩ |
    ⟨_, -, -, hlen', -⟩ := offer_cases h₁
  · refine ⟨_, _, offer_act (a := b) (c := rest') ?_, offer_act (a := a) (c := rest) ?_, ?_⟩
    · rwa [List.getElem?_set_ne hij]
    · rwa [List.getElem?_set_ne hij.symm]
    · exact List.set_comm _ _ hij
  · refine ⟨_, fun _ => (T.set j (d.map .act ++ rest')).set 0 rest ++ [job.map .act],
      offer_act (a := b) (c := rest') ?_, ?_, ?_⟩
    · rwa [List.getElem?_append_left (by simpa using hjlt), List.getElem?_set_ne hij]
    · simp [offer, List.getElem?_set_ne hj, hTi, hw]
    · simp only
      rw [List.set_append_left _ _ (by simpa using hjlt), List.set_comm _ _ hij]
  · rw [hall] at hall'
    cases hall'
  · exact absurd hlen' hlen

/-- Threads of one party do not change what each other is at. -/
theorem offer_comm (hij : i ≠ j) (h₁ : offer workers T i = some (o, k))
    (h₂ : offer workers T j = some (o', k')) (c d : List (Act Sock M Λ)) :
    ∃ l l', offer workers (k c) j = some (o', l) ∧ offer workers (k' d) i = some (o, l') ∧
      l d = l' c := by
  by_cases hj : j = 0
  · obtain ⟨l, l', h, h', heq⟩ := offer_comm_job (by omega) hij.symm h₂ h₁ d c
    exact ⟨l', l, h', h, heq.symm⟩
  · exact offer_comm_job hj hij h₁ h₂ c d

/-! ### Threads apart -/

variable {loopPorts : Λ → Set (Port Sock)}

/-- The ends a job uses. -/
def jobPorts (loopPorts : Λ → Set (Port Sock)) (job : List (Cmd Sock M Λ)) : Set (Port Sock) :=
  {x | ∃ a, .act a ∈ job ∧ x ∈ Act.ports loopPorts a}

/-- A main thread whose jobs out use the ends `F` keeps apart from them until it waits for them, and
hands out no job that would use an end of another. -/
def Apart (loopPorts : Λ → Set (Port Sock)) :
    List (Cmd Sock M Λ) → List (Set (Port Sock)) → Prop
  | [], F => F.Pairwise Disjoint
  | .act a :: rest, F => (∀ f ∈ F, Disjoint (a.ports loopPorts) f) ∧ Apart loopPorts rest F
  | .enqueue job :: rest, F => Apart loopPorts rest (F ++ [jobPorts loopPorts (job.map .act)])
  | .join :: rest, F => F.Pairwise Disjoint ∧ Apart loopPorts rest []
  | .newPipe :: rest, F => Apart loopPorts rest F

theorem Apart.pairwise {main : List (Cmd Sock M Λ)} {F : List (Set (Port Sock))}
    (h : Apart loopPorts main F) : F.Pairwise Disjoint := by
  induction main generalizing F with
  | nil => exact h
  | cons c rest ih =>
    cases c with
    | act a => exact ih h.2
    | enqueue job => exact (List.pairwise_append.mp (ih h)).1
    | join => exact h.1
    | newPipe => exact ih h

/-- Of smaller sets, each is part of one of the larger. -/
theorem exists_superset {F G : List (Set (Port Sock))} (hGF : List.Forall₂ (· ⊆ ·) G F)
    {g : Set (Port Sock)} (hg : g ∈ G) : ∃ f ∈ F, g ⊆ f := by
  induction hGF with
  | nil => cases hg
  | cons hgf _ ih =>
    cases hg with
    | head => exact ⟨_, List.mem_cons_self, hgf⟩
    | tail _ hg =>
      obtain ⟨f, hf, hsub⟩ := ih hg
      exact ⟨f, List.mem_cons_of_mem _ hf, hsub⟩

theorem pairwise_mono {F G : List (Set (Port Sock))} (hGF : List.Forall₂ (· ⊆ ·) G F)
    (hF : F.Pairwise Disjoint) : G.Pairwise Disjoint := by
  induction hGF with
  | nil => exact .nil
  | cons hgf hGF ih =>
    rw [List.pairwise_cons] at hF ⊢
    refine ⟨fun x hx => ?_, ih hF.2⟩
    obtain ⟨y, hy, hxy⟩ := exists_superset hGF hx
    exact (hF.1 y hy).mono hgf hxy

/-- Jobs that use less are still apart. -/
theorem Apart.mono {main : List (Cmd Sock M Λ)} {F G : List (Set (Port Sock))}
    (h : Apart loopPorts main F) (hGF : List.Forall₂ (· ⊆ ·) G F) : Apart loopPorts main G := by
  induction main generalizing F G with
  | nil => exact pairwise_mono hGF h
  | cons c rest ih =>
    cases c with
    | act a =>
      refine ⟨fun g hg => ?_, ih h.2 hGF⟩
      obtain ⟨f, hf, hsub⟩ := exists_superset hGF hg
      exact (h.1 f hf).mono_right hsub
    | enqueue job =>
      apply ih h
      exact List.rel_append hGF (.cons (subset_refl _) .nil)
    | join => exact ⟨pairwise_mono hGF h.1, h.2⟩
    | newPipe => exact ih h hGF

/-- Actions on ends no job uses keep a main thread apart. -/
theorem Apart.append_acts {main : List (Cmd Sock M Λ)} {F : List (Set (Port Sock))}
    {c : List (Act Sock M Λ)} (h : Apart loopPorts main F)
    (hc : ∀ a ∈ c, ∀ f ∈ F, Disjoint (a.ports loopPorts) f) :
    Apart loopPorts (c.map .act ++ main) F := by
  induction c with
  | nil => exact h
  | cons a c ih =>
    refine ⟨hc a List.mem_cons_self, ih fun b hb => hc b (List.mem_cons_of_mem _ hb)⟩

/-- The threads of a party keep apart. -/
def PartyApart (loopPorts : Λ → Set (Port Sock)) (T : List (List (Cmd Sock M Λ))) : Prop :=
  ∃ main jobs, T = main :: jobs ∧ Apart loopPorts main (jobs.map (jobPorts loopPorts))

theorem ports_subset_jobPorts {a : Act Sock M Λ} (rest : List (Cmd Sock M Λ)) :
    a.ports loopPorts ⊆ jobPorts loopPorts (.act a :: rest) :=
  fun _ hx => ⟨a, List.mem_cons_self, hx⟩

/-- A job that goes on with actions on the ends of the one it was at uses no further end. -/
theorem jobPorts_step {a : Act Sock M Λ} {c : List (Act Sock M Λ)} {rest : List (Cmd Sock M Λ)}
    (hc : ∀ b ∈ c, b.ports loopPorts ⊆ a.ports loopPorts) :
    jobPorts loopPorts (c.map .act ++ rest) ⊆ jobPorts loopPorts (.act a :: rest) := by
  rintro x ⟨b, hb, hx⟩
  rw [List.mem_append, List.mem_map] at hb
  obtain ⟨b', hb', heq⟩ | hb := hb
  · cases heq
    exact ⟨a, List.mem_cons_self, hc b hb' hx⟩
  · exact ⟨b, List.mem_cons_of_mem _ hb, hx⟩

theorem forall₂_map_set {jobs : List (List (Cmd Sock M Λ))} {n : ℕ} {x y : List (Cmd Sock M Λ)}
    (hn : jobs[n]? = some y) (hxy : jobPorts loopPorts x ⊆ jobPorts loopPorts y) :
    List.Forall₂ (· ⊆ ·) ((jobs.set n x).map (jobPorts loopPorts)) (jobs.map (jobPorts loopPorts)) := by
  induction jobs generalizing n with
  | nil => cases hn
  | cons job jobs ih =>
    cases n with
    | zero =>
      cases hn
      exact .cons hxy (List.forall₂_refl _)
    | succ n => exact .cons (subset_refl _) (ih hn)

/-- A thread and a job of a party that keeps its threads apart want things done at different ends. -/
theorem PartyApart.disjoint_job (hT : PartyApart loopPorts T) (hj : j ≠ 0) (hij : i ≠ j)
    (h₁ : offer workers T i = some (o, k)) (h₂ : offer workers T j = some (o', k')) :
    Disjoint (o.ports loopPorts) (o'.ports loopPorts) := by
  obtain ⟨⟨b, rest', hTj, rfl, rfl⟩, hall, hlen⟩ := offer_job hj h₂
  obtain ⟨main, jobs, rfl, hmain⟩ := hT
  obtain ⟨n, rfl⟩ := Nat.exists_eq_succ_of_ne_zero hj
  rw [List.getElem?_cons_succ] at hTj
  have hjob : (jobs.map (jobPorts loopPorts))[n]? = some (jobPorts loopPorts (.act b :: rest')) := by
    rw [List.getElem?_map, hTj]
    rfl
  obtain ⟨a, rest, hTi, rfl, rfl⟩ | ⟨_, _, -, -, -, rfl, -⟩ | ⟨_, -, -, hall', -⟩ |
    ⟨_, -, -, hlen', -⟩ := offer_cases h₁
  · cases i with
    | zero =>
      -- the main thread keeps apart from the jobs
      cases hTi
      exact (hmain.1 _ (List.mem_of_getElem? hjob)).mono_right (ports_subset_jobPorts _)
    | succ m =>
      rw [List.getElem?_cons_succ] at hTi
      have hjob' : (jobs.map (jobPorts loopPorts))[m]? = some (jobPorts loopPorts (.act a :: rest)) := by
        rw [List.getElem?_map, hTi]
        rfl
      obtain ⟨hn, hjob⟩ := List.getElem?_eq_some_iff.mp hjob
      obtain ⟨hm, hjob'⟩ := List.getElem?_eq_some_iff.mp hjob'
      have hpair := List.pairwise_iff_getElem.mp hmain.pairwise
      apply Disjoint.mono (ports_subset_jobPorts rest) (ports_subset_jobPorts rest')
      rw [← hjob, ← hjob']
      rcases Nat.lt_or_gt_of_ne (show m ≠ n by omega) with hlt | hgt
      · exact hpair _ _ _ _ hlt
      · exact (hpair _ _ _ _ hgt).symm
  · exact Set.empty_disjoint _
  · rw [hall] at hall'
    cases hall'
  · exact absurd hlen' hlen

/-- Two threads of a party that keeps its threads apart want things done at different ends. -/
theorem PartyApart.disjoint (hT : PartyApart loopPorts T) (hij : i ≠ j)
    (h₁ : offer workers T i = some (o, k)) (h₂ : offer workers T j = some (o', k')) :
    Disjoint (o.ports loopPorts) (o'.ports loopPorts) := by
  by_cases hj : j = 0
  · exact (hT.disjoint_job (by omega) hij.symm h₂ h₁).symm
  · exact hT.disjoint_job hj hij h₁ h₂

/-- A step keeps the threads of a party apart. -/
theorem PartyApart.offered (hT : PartyApart loopPorts T) (h : offer workers T i = some (o, k))
    {c : List (Act Sock M Λ)} (hc : ∀ b ∈ c, b.ports loopPorts ⊆ o.ports loopPorts) :
    PartyApart loopPorts (k c) := by
  obtain ⟨main, jobs, rfl, hmain⟩ := hT
  obtain ⟨a, rest, hTi, rfl, rfl⟩ | ⟨job, rest, rfl, hT0, -, -, rfl⟩ | ⟨rest, rfl, hT0, -, -, rfl⟩ |
    ⟨rest, rfl, hT0, hlen, -, rfl⟩ := offer_cases h
  · cases i with
    | zero =>
      cases hTi
      refine ⟨_, jobs, rfl, hmain.2.append_acts fun b hb f hf => ?_⟩
      exact (hmain.1 f hf).mono_left (hc b hb)
    | succ n =>
      rw [List.getElem?_cons_succ] at hTi
      exact ⟨main, _, rfl, hmain.mono (forall₂_map_set hTi (jobPorts_step hc))⟩
  · cases hT0
    refine ⟨rest, jobs ++ [job.map .act], rfl, ?_⟩
    rw [List.map_append]
    exact hmain
  · cases hT0
    exact ⟨rest, [], rfl, hmain.2⟩
  · cases hT0
    cases List.length_eq_zero_iff.mp (show jobs.length = 0 by simpa using hlen)
    exact ⟨rest, [], rfl, hmain⟩

end Threads

/-! ### One schedule speaks for all -/

section Commuting

variable [DecidableEq P] [DecidableEq Sock] {𝓜 : Machine P Sock M Λ}

/-- The threads of every party keep apart. -/
def RaceFree (𝓜 : Machine P Sock M Λ) (σ : State P Sock M Λ) : Prop :=
  ∀ p, PartyApart 𝓜.loopPorts (σ.threads p)

theorem step_iff {σ τ : State P Sock M Λ} {x : Actor P} {r : Option (Read M)} :
    𝓜.step σ x = some (r, τ) ↔ ∃ o k c μ, offer 𝓜.workers (σ.threads x.1) x.2 = some (o, k) ∧
      𝓜.workStep x.1 σ.mem o = some (r, c, μ) ∧ τ = ⟨μ, Function.update σ.threads x.1 (k c)⟩ := by
  unfold Machine.step
  split
  · rename_i o k ho
    simp only [Option.map_eq_some_iff, Prod.exists, Prod.mk.injEq, ho, Option.some.injEq]
    constructor
    · rintro ⟨r', c, μ, h, rfl, rfl⟩
      exact ⟨o, k, c, μ, ⟨rfl, rfl⟩, h, rfl⟩
    · rintro ⟨_, _, c, μ, ⟨rfl, rfl⟩, h, rfl⟩
      exact ⟨r, c, μ, h, rfl, rfl⟩
  · rename_i ho
    simp [ho]

/-- An action goes on with actions on its own ends. -/
theorem workStep_ports {p : P} {μ μ' : Mem P Sock M} {o : Work Sock M Λ} {c : List (Act Sock M Λ)}
    {r : Option (Read M)} (h : 𝓜.workStep p μ o = some (r, c, μ')) :
    ∀ b ∈ c, b.ports 𝓜.loopPorts ⊆ o.ports 𝓜.loopPorts := by
  have hnil : c = [] → ∀ b ∈ c, b.ports 𝓜.loopPorts ⊆ o.ports 𝓜.loopPorts := by
    rintro rfl b hb
    cases hb
  cases o with
  | skip =>
    cases h
    exact hnil rfl
  | newPipe =>
    cases h
    exact hnil rfl
  | act a =>
    cases a with
    | io s x =>
      obtain ⟨_, -, rfl, -⟩ := actStep_io_iff.mp h
      exact hnil rfl
    | pipe o =>
      obtain ⟨π, hπ, -, -⟩ := actStep_pipe_iff.mp h
      cases o with
      | producerSlot => exact hnil (producerSlot_iff.mp hπ).2.1
      | publish n => exact hnil (publish_iff.mp hπ).2.1
      | close => exact hnil (close_iff.mp hπ).1
      | release => exact hnil (release_iff.mp hπ).2.1
      | consumerSlot l => exact 𝓜.body_ports (consumerSlot_iff.mp hπ).2.1

/-- Every step keeps the threads apart. -/
theorem RaceFree.step {σ τ : State P Sock M Λ} {x : Actor P} {r : Option (Read M)}
    (hσ : RaceFree 𝓜 σ) (h : 𝓜.step σ x = some (r, τ)) : RaceFree 𝓜 τ := by
  obtain ⟨o, k, c, μ, ho, hw, rfl⟩ := step_iff.mp h
  intro p
  by_cases hp : p = x.1
  · subst hp
    simp only [Function.update_self]
    exact (hσ x.1).offered ho (workStep_ports hw)
  · simp only [Function.update_of_ne hp]
    exact hσ p

/-- **Threads that keep apart commute**: a thread that can step still can after another has stepped,
and the order of the two does not matter. -/
theorem commuting (𝓜 : Machine P Sock M Λ) : Commuting 𝓜.step (RaceFree 𝓜) where
  kept := RaceFree.step
  swap := by
    rintro σ τ υ ⟨p, i⟩ ⟨q, j⟩ r r' hσ hne h₁ h₂
    obtain ⟨o, k, c, μ₁, ho, hw₁, rfl⟩ := step_iff.mp h₁
    obtain ⟨o', k', d, μ₂, ho', hw₂, rfl⟩ := step_iff.mp h₂
    dsimp only at ho ho' hw₁ hw₂
    by_cases hpq : p = q
    · subst hpq
      have hij : i ≠ j := fun h => hne (by rw [h])
      obtain ⟨μ', hb, ha⟩ := workStep_comm (.inr ((hσ p).disjoint hij ho ho')) hw₁ hw₂
      obtain ⟨l, l', hl, hl', heq⟩ := offer_comm hij ho ho' c d
      refine ⟨_, step_iff.mpr ⟨o', l, d, μ', by simpa using hl, hb, rfl⟩,
        step_iff.mpr ⟨o, l', c, μ', by simpa using hl', ha, ?_⟩⟩
      simp [heq]
    · obtain ⟨μ', hb, ha⟩ := workStep_comm (.inl hpq) hw₁ hw₂
      refine ⟨_, step_iff.mpr ⟨o', k', d, μ', ?_, hb, rfl⟩, step_iff.mpr ⟨o, k, c, μ', ?_, ha, ?_⟩⟩
      · simpa [Function.update_of_ne (Ne.symm hpq)] using ho'
      · simpa [Function.update_of_ne hpq] using ho
      · simp [Function.update_comm hpq]

end Commuting

end AG2PC.Library.Channels
