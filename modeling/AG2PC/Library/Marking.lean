import Mathlib.Data.List.Range
import Mathlib.Logic.Function.Basic

/-!
# Marking with a stack

Depth-first marking of what is needed. Items on a stack name nodes; taking an item off marks its node and
puts the items the node needs on the stack, unless the node is marked already. Every item pushed pays for
one turn, so a bounded number of turns empties the stack.

* `Needed` — the nodes the roots need, directly or through other nodes.
* `mark_iff` — with enough turns exactly the needed nodes are marked.
-/

namespace AG2PC.Library.Marking

variable (node : ℕ → Option ℕ) (needs : ℕ → List ℕ)

/-- The marking loop: at most `fuel` turns, the top of the stack first. -/
def mark : ℕ → List ℕ → (ℕ → Bool) → ℕ → Bool
  | 0, _, m => m
  | _ + 1, [], m => m
  | fuel + 1, w :: stack, m =>
    match node w with
    | none => mark fuel stack m
    | some i =>
      if m i then mark fuel stack m
      else mark fuel ((needs i).reverse ++ stack) (Function.update m i true)

/-- The nodes that `roots` need. -/
inductive Needed (roots : List ℕ) : ℕ → Prop where
  /-- The node of a root. -/
  | root {w i : ℕ} (hw : w ∈ roots) (hi : node w = some i) : Needed roots i
  /-- What a needed node needs. -/
  | step {i w j : ℕ} (hi : Needed roots i) (hw : w ∈ needs i) (hj : node w = some j) : Needed roots j

/-- How many of the first `n` nodes are not marked. -/
def unmarked (n : ℕ) (m : ℕ → Bool) : ℕ := (List.range n).countP fun i => !m i

theorem unmarked_none (n : ℕ) : unmarked n (fun _ => false) = n := by
  simp [unmarked]

/-- Marking one more node. -/
theorem unmarked_update {n i : ℕ} {m : ℕ → Bool} (hi : i < n) (hm : m i = false) :
    unmarked n (Function.update m i true) + 1 = unmarked n m := by
  induction n with
  | zero => omega
  | succ n ih =>
    simp only [unmarked, List.range_succ, List.countP_append, List.countP_singleton] at ih ⊢
    rcases Nat.lt_succ_iff_lt_or_eq.mp hi with hlt | rfl
    · rw [Function.update_of_ne (by omega : n ≠ i)]
      have := ih hlt
      omega
    · have hsame : (List.range i).countP (fun j => !Function.update m i true j) =
          (List.range i).countP fun j => !m j := by
        refine List.countP_congr fun j hj => ?_
        rw [Function.update_of_ne (Nat.ne_of_lt (List.mem_range.mp hj))]
      rw [hsame, Function.update_self, hm]
      rfl

section

variable {node needs} {roots : List ℕ}

/-- Only needed nodes are marked. -/
theorem needed_of_mark (fuel : ℕ) : ∀ (stack : List ℕ) (m : ℕ → Bool),
    (∀ w ∈ stack, ∀ i, node w = some i → Needed node needs roots i) →
      (∀ i, m i = true → Needed node needs roots i) →
        ∀ i, mark node needs fuel stack m i = true → Needed node needs roots i := by
  induction fuel with
  | zero =>
    intro stack m _ hm i hi
    exact hm i hi
  | succ fuel ih =>
    intro stack m hstack hm i hi
    cases stack with
    | nil => exact hm i hi
    | cons w stack =>
      have hrest : ∀ w ∈ stack, ∀ i, node w = some i → Needed node needs roots i :=
        fun w' hw' => hstack w' (List.mem_cons_of_mem _ hw')
      rw [mark] at hi
      cases hw : node w with
      | none =>
        rw [hw] at hi
        exact ih stack m hrest hm i hi
      | some j =>
        rw [hw] at hi
        have hj : Needed node needs roots j := hstack w List.mem_cons_self j hw
        cases hmj : m j with
        | true =>
          simp only [hmj, if_true] at hi
          exact ih stack m hrest hm i hi
        | false =>
          simp only [hmj, Bool.false_eq_true, if_false] at hi
          refine ih _ _ (fun w' hw' k hk => ?_) (fun k hk => ?_) i hi
          · rcases List.mem_append.mp hw' with hw' | hw'
            · exact .step hj (List.mem_reverse.mp hw') hk
            · exact hrest w' hw' k hk
          · by_cases hkj : k = j
            · exact hkj ▸ hj
            · rw [Function.update_of_ne hkj] at hk
              exact hm k hk

/-- With enough turns the marks are closed: marks stay, what was on the stack is marked, and so is what a
marked node needs. The invariant is that what a marked node needs is marked or on the stack. -/
theorem mark_closed {n d : ℕ} (hn : ∀ w i, node w = some i → i < n) (hd : ∀ i, (needs i).length ≤ d)
    (fuel : ℕ) : ∀ (stack : List ℕ) (m : ℕ → Bool), stack.length + d * unmarked n m ≤ fuel →
      (∀ i, m i = true → ∀ w ∈ needs i, ∀ j, node w = some j → m j = true ∨ w ∈ stack) →
        (∀ i, m i = true → mark node needs fuel stack m i = true) ∧
        (∀ w ∈ stack, ∀ i, node w = some i → mark node needs fuel stack m i = true) ∧
        ∀ i, mark node needs fuel stack m i = true → ∀ w ∈ needs i, ∀ j, node w = some j →
          mark node needs fuel stack m j = true := by
  induction fuel with
  | zero =>
    intro stack m hfuel hinv
    obtain rfl : stack = [] := List.eq_nil_of_length_eq_zero (by omega)
    exact ⟨fun i hi => hi, by simp, fun i hi w hw j hj => (hinv i hi w hw j hj).resolve_right (by simp)⟩
  | succ fuel ih =>
    intro stack m hfuel hinv
    cases stack with
    | nil => exact ⟨fun i hi => hi, by simp, fun i hi w hw j hj => (hinv i hi w hw j hj).resolve_right (by simp)⟩
    | cons w stack =>
      rw [List.length_cons] at hfuel
      rw [mark]
      cases hw : node w with
      | none =>
        obtain ⟨hkeep, hstack, hclosed⟩ := ih stack m (by omega) fun i hi w' hw' j hj => by
          rcases hinv i hi w' hw' j hj with h | h
          · exact .inl h
          · rcases List.mem_cons.mp h with rfl | h
            · rw [hw] at hj
              cases hj
            · exact .inr h
        refine ⟨hkeep, fun w' hw' i hi => ?_, hclosed⟩
        rcases List.mem_cons.mp hw' with rfl | hw'
        · rw [hw] at hi
          cases hi
        · exact hstack w' hw' i hi
      | some k =>
        cases hmk : m k with
        | true =>
          simp only [hmk, if_true]
          obtain ⟨hkeep, hstack, hclosed⟩ := ih stack m (by omega) fun i hi w' hw' j hj => by
            rcases hinv i hi w' hw' j hj with h | h
            · exact .inl h
            · rcases List.mem_cons.mp h with rfl | h
              · rw [hw] at hj
                cases hj
                exact .inl hmk
              · exact .inr h
          refine ⟨hkeep, fun w' hw' i hi => ?_, hclosed⟩
          rcases List.mem_cons.mp hw' with rfl | hw'
          · rw [hw] at hi
            cases hi
            exact hkeep k hmk
          · exact hstack w' hw' i hi
        | false =>
          simp only [hmk, Bool.false_eq_true, if_false]
          have hcount := unmarked_update (hn w k hw) hmk
          have hlen : ((needs k).reverse ++ stack).length + d * unmarked n (Function.update m k true) ≤ fuel := by
            rw [List.length_append, List.length_reverse]
            rw [← hcount, Nat.mul_succ] at hfuel
            have := hd k
            omega
          obtain ⟨hkeep, hstack, hclosed⟩ := ih _ _ hlen fun i hi w' hw' j hj => by
            by_cases hjk : j = k
            · exact .inl (by rw [hjk, Function.update_self])
            rw [Function.update_of_ne hjk]
            by_cases hik : i = k
            · exact .inr (List.mem_append_left _ (List.mem_reverse.mpr (hik ▸ hw')))
            · rw [Function.update_of_ne hik] at hi
              rcases hinv i hi w' hw' j hj with h | h
              · exact .inl h
              · rcases List.mem_cons.mp h with rfl | h
                · rw [hw] at hj
                  exact absurd (Option.some.inj hj).symm hjk
                · exact .inr (List.mem_append_right _ h)
          refine ⟨fun i hi => hkeep i ?_, fun w' hw' i hi => ?_, hclosed⟩
          · by_cases hik : i = k
            · rw [hik, Function.update_self]
            · rwa [Function.update_of_ne hik]
          · rcases List.mem_cons.mp hw' with rfl | hw'
            · rw [hw] at hi
              cases hi
              exact hkeep k (Function.update_self k true m)
            · exact hstack w' (List.mem_append_right _ hw') i hi

/-- **Exactly the needed nodes are marked**, with as many turns as there are roots and pushes. -/
theorem mark_iff {n d fuel : ℕ} (hn : ∀ w i, node w = some i → i < n) (hd : ∀ i, (needs i).length ≤ d)
    (hfuel : roots.length + d * n ≤ fuel) (i : ℕ) :
    mark node needs fuel roots (fun _ => false) i = true ↔ Needed node needs roots i := by
  obtain ⟨-, hroots, hclosed⟩ := mark_closed hn hd fuel roots (fun _ => false)
    (by rw [unmarked_none]; exact hfuel) (fun i hi => by cases hi)
  constructor
  · intro h
    exact needed_of_mark fuel roots _ (fun w hw i hi => .root hw hi) (fun i hi => by cases hi) i h
  · intro h
    induction h with
    | root hw hi => exact hroots _ hw _ hi
    | step _ hw hj ih => exact hclosed _ ih _ hw _ hj

end

end AG2PC.Library.Marking
