import Mathlib.Data.Nat.Notation
import Mathlib.Logic.Basic

/-!
# Reachable states

A machine whose actions may be enabled or not, taken in any order.

* `Steps.invariant` — what holds at the start and is kept by every action holds in every state reached.
* `Steps.length_le`, `exists_stopped` — where every action lowers a measure, runs are bounded, and every
  state leads to one in which no action is enabled.
-/

namespace AG2PC.Library.Reachability

variable {S A : Type*}

/-- `n` actions lead from one state to another. -/
inductive Steps (step : S → A → Option S) (s : S) : ℕ → S → Prop
  /-- No action. -/
  | refl : Steps step s 0 s
  /-- Some actions, and one more. -/
  | tail {n : ℕ} {t u : S} (a : A) : Steps step s n t → step t a = some u → Steps step s (n + 1) u

/-- A state that can be reached. -/
def Reachable (step : S → A → Option S) (s t : S) : Prop := ∃ n, Steps step s n t

/-- No action is enabled. -/
def Stopped (step : S → A → Option S) (s : S) : Prop := ∀ a, step s a = none

variable {step : S → A → Option S} {s t u : S} {n : ℕ}

theorem Reachable.refl : Reachable step s s := ⟨0, .refl⟩

theorem Reachable.tail {a : A} (h : Reachable step s t) (ha : step t a = some u) : Reachable step s u := by
  obtain ⟨n, h⟩ := h
  exact ⟨n + 1, h.tail a ha⟩

theorem Reachable.trans (h : Reachable step s t) (h' : Reachable step t u) : Reachable step s u := by
  obtain ⟨n, h'⟩ := h'
  induction h' with
  | refl => exact h
  | tail a _ ha ih => exact ih.tail ha

section

variable {I : S → Prop} (hkeep : ∀ s a t, I s → step s a = some t → I t)

include hkeep

/-- **What every action keeps** holds in every state reached. -/
theorem Steps.invariant (h : Steps step s n t) (hs : I s) : I t := by
  induction h with
  | refl => exact hs
  | tail a _ ha ih => exact hkeep _ a _ ih ha

theorem Reachable.invariant (h : Reachable step s t) (hs : I s) : I t := by
  obtain ⟨n, h⟩ := h
  exact h.invariant hkeep hs

variable {m : S → ℕ} (hdec : ∀ s a t, I s → step s a = some t → m t < m s)

include hdec

/-- A run is no longer than the measure of its first state. -/
theorem Steps.length_le (h : Steps step s n t) (hs : I s) : n + m t ≤ m s := by
  induction h with
  | refl => exact Nat.le_of_eq (Nat.zero_add _)
  | tail a hrun ha ih =>
    have hlt := hdec _ a _ (hrun.invariant hkeep hs) ha
    omega

/-- Every state leads to a stopped one. -/
theorem exists_stopped (hs : I s) : ∃ t, Reachable step s t ∧ Stopped step t := by
  induction hm : m s using Nat.strongRecOn generalizing s with
  | _ k ih =>
    by_cases hstop : Stopped step s
    · exact ⟨s, .refl, hstop⟩
    · obtain ⟨a, ha⟩ := not_forall.mp hstop
      obtain ⟨t, ht⟩ := Option.ne_none_iff_exists'.mp ha
      have hlt := hdec s a t hs ht
      obtain ⟨u, hu, hend⟩ := ih (m t) (hm ▸ hlt) (hkeep s a t hs ht) rfl
      exact ⟨u, (Reachable.refl.tail ht).trans hu, hend⟩

end

end AG2PC.Library.Reachability
