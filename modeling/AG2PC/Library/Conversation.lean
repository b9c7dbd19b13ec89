import Mathlib.Data.Nat.Notation
import Mathlib.Logic.Basic

/-!
# Two parties that talk in turns

The code of one party of a conversation: it sends a value, waits for a value of a kind it knows, or ends
with a result. Opposite it stands either any peer, whose next value is a function of what it has heard, or
another party's code.

* `Prog.run` — the code against any peer.
* `Prog.join` — two parties' code, each hearing the other.
-/

namespace AG2PC.Library.Conversation

variable {κ : Type*} {Val : κ → Type*} {α β : Type*}

/-- One party's code: what it sends, what it waits for, and what it ends with. -/
inductive Prog (Val : κ → Type*) (α : Type*) where
  /-- Send the value `v` of kind `k`. -/
  | send (k : κ) (v : Val k) (rest : Prog Val α)
  /-- Wait for a value of kind `k`. -/
  | recv (k : κ) (rest : Val k → Prog Val α)
  /-- The end. -/
  | done (result : α)

/-- A peer that may do anything: its `n`-th value, of the kind the party waits for, after all it has heard. -/
def Peer (Val : κ → Type*) := ℕ → List (Σ k, Val k) → (k : κ) → Val k

namespace Prog

/-- The code against a peer that has sent `n` values and has heard `heard`. -/
def runFrom (peer : Peer Val) (n : ℕ) (heard : List (Σ k, Val k)) : Prog Val α → α
  | send k v rest => runFrom peer n (heard ++ [⟨k, v⟩]) rest
  | recv k rest => runFrom peer (n + 1) heard (rest (peer n heard k))
  | done result => result

/-- The code against a peer. -/
def run (peer : Peer Val) (p : Prog Val α) : α := p.runFrom peer 0 []

/-- Two parties' code: what one sends the other must be waiting for. -/
def join [DecidableEq κ] : Prog Val α → Prog Val β → Option (α × β)
  | send k v rest, recv k' rest' => if h : k = k' then join rest (rest' (h ▸ v)) else none
  | recv k rest, send k' v rest' => if h : k' = k then join (rest (h ▸ v)) rest' else none
  | done a, done b => some (a, b)
  | _, _ => none

section

variable (peer : Peer Val) (n : ℕ) (heard : List (Σ k, Val k))

@[simp] theorem runFrom_send (k : κ) (v : Val k) (rest : Prog Val α) :
    (send k v rest).runFrom peer n heard = rest.runFrom peer n (heard ++ [⟨k, v⟩]) := rfl

@[simp] theorem runFrom_recv (k : κ) (rest : Val k → Prog Val α) :
    (recv k rest).runFrom peer n heard = (rest (peer n heard k)).runFrom peer (n + 1) heard := rfl

@[simp] theorem runFrom_done (result : α) : (done result : Prog Val α).runFrom peer n heard = result := rfl

end

section

variable [DecidableEq κ]

@[simp] theorem join_send_recv (k : κ) (v : Val k) (rest : Prog Val α) (rest' : Val k → Prog Val β) :
    (send k v rest).join (recv k rest') = rest.join (rest' v) := by
  rw [join, dif_pos rfl]

@[simp] theorem join_recv_send (k : κ) (v : Val k) (rest : Val k → Prog Val α) (rest' : Prog Val β) :
    (recv k rest).join (send k v rest') = (rest v).join rest' := by
  rw [join, dif_pos rfl]

@[simp] theorem join_done (a : α) (b : β) : (done a : Prog Val α).join (done b) = some (a, b) := by
  rw [join]

end

end Prog

end AG2PC.Library.Conversation
