import Mathlib.Data.List.Perm.Basic

/-!
# Interleavings

A machine of actors that step in any order. An actor's step is determined by the state, and shows an
event. Where the steps of two actors commute, the order of the steps does not matter, and one
schedule speaks for all:

* `Commuting.completes` — if one run stops, every run can be continued to the same stop, and the two
  take the same steps and show the same events, up to their order.
* `Commuting.not_stuck`, `Commuting.events` — so no run is stuck short of the stop, and what holds of
  every event of the one run holds of every event of every run.
-/

namespace AG2PC.Library.Interleaving

variable {S A E : Type*}

/-- A run: the actors that step, in turn, each with the event its step shows. -/
inductive Run (step : S → A → Option (E × S)) : S → List (A × E) → S → Prop
  /-- No step. -/
  | nil {s : S} : Run step s [] s
  /-- A step, then a run. -/
  | cons {s s₁ t : S} {a : A} {e : E} {w : List (A × E)} :
      step s a = some (e, s₁) → Run step s₁ w t → Run step s ((a, e) :: w) t

/-- No actor can step. -/
def Stopped (step : S → A → Option (E × S)) (s : S) : Prop := ∀ a, step s a = none

variable {step : S → A → Option (E × S)} {s t u : S} {v w : List (A × E)}

theorem Run.single {a : A} {e : E} (h : step s a = some (e, t)) : Run step s [(a, e)] t :=
  .cons h .nil

/-- Runs one after the other. -/
theorem Run.append (hv : Run step s v t) (hw : Run step t w u) : Run step s (v ++ w) u := by
  induction hv with
  | nil => exact hw
  | cons hs _ ih => exact .cons hs (ih hw)

/-- A stopped machine goes nowhere. -/
theorem Run.eq_of_stopped (hs : Stopped step s) (h : Run step s w t) : w = [] ∧ t = s := by
  cases h with
  | nil => exact ⟨rfl, rfl⟩
  | cons ha _ =>
    rw [hs] at ha
    cases ha

/-- Under `I`, which every step keeps, the steps of two actors can be swapped. -/
structure Commuting (step : S → A → Option (E × S)) (I : S → Prop) : Prop where
  /-- A step keeps `I`. -/
  kept : ∀ {s t : S} {a : A} {e : E}, I s → step s a = some (e, t) → I t
  /-- Two actors that can step can step one after the other, in both orders. -/
  swap : ∀ {s t u : S} {a b : A} {e f : E}, I s → a ≠ b → step s a = some (e, t) →
    step s b = some (f, u) → ∃ v, step t b = some (f, v) ∧ step u a = some (e, v)

namespace Commuting

variable {I : S → Prop} (hc : Commuting step I)

include hc

/-- A step that is possible at the start of a run that stops can be taken first. -/
theorem step_first {a : A} {e : E} (hs : I s) (hw : Run step s w t) (ht : Stopped step t)
    (ha : step s a = some (e, u)) : ∃ w', Run step u w' t ∧ w.Perm ((a, e) :: w') := by
  induction hw generalizing u with
  | nil =>
    rw [ht] at ha
    cases ha
  | @cons s s₁ t b f w hb hw ih =>
    by_cases hab : a = b
    · subst hab
      rw [ha] at hb
      cases hb
      exact ⟨w, hw, .refl _⟩
    · obtain ⟨x, hxb, hxa⟩ := hc.swap hs hab ha hb
      obtain ⟨w', hw', hperm⟩ := ih (hc.kept hs hb) ht hxa
      refine ⟨(b, f) :: w', .cons hxb hw', ?_⟩
      exact (hperm.cons (b, f)).trans (.swap _ _ _)

/-- **One schedule speaks for all**: if one run from `s` stops, every run from `s` can be continued
to the same stop, with the same steps and events up to their order. -/
theorem completes (hs : I s) (hw : Run step s w t) (ht : Stopped step t) (hv : Run step s v u) :
    ∃ v', Run step u v' t ∧ (v ++ v').Perm w := by
  induction hv generalizing w with
  | nil => exact ⟨w, hw, .refl _⟩
  | cons ha _ ih =>
    obtain ⟨w', hw', hperm⟩ := hc.step_first hs hw ht ha
    obtain ⟨v', hv', hperm'⟩ := ih (hc.kept hs ha) hw'
    exact ⟨v', hv', (hperm'.cons _).trans hperm.symm⟩

/-- No run is stuck short of the stop. -/
theorem not_stuck (hs : I s) (hw : Run step s w t) (ht : Stopped step t) (hv : Run step s v u) :
    u = t ∨ ∃ a e u', step u a = some (e, u') := by
  obtain ⟨v', hv', -⟩ := hc.completes hs hw ht hv
  cases hv' with
  | nil => exact .inl rfl
  | cons ha _ => exact .inr ⟨_, _, _, ha⟩

/-- Every run that ends where no actor can step ends at the stop. -/
theorem stop_unique (hs : I s) (hw : Run step s w t) (ht : Stopped step t) (hv : Run step s v u)
    (hu : Stopped step u) : u = t := by
  obtain ⟨v', hv', -⟩ := hc.completes hs hw ht hv
  exact (hv'.eq_of_stopped hu).2.symm

/-- What holds of every step and event of the one run holds of those of every run. -/
theorem events (hs : I s) (hw : Run step s w t) (ht : Stopped step t) (hv : Run step s v u)
    {P : A × E → Prop} (hP : ∀ x ∈ w, P x) : ∀ x ∈ v, P x := by
  obtain ⟨v', -, hperm⟩ := hc.completes hs hw ht hv
  intro x hx
  apply hP x
  exact hperm.subset (List.mem_append_left _ hx)

/-- No run is longer than the one. -/
theorem length_le (hs : I s) (hw : Run step s w t) (ht : Stopped step t) (hv : Run step s v u) :
    v.length ≤ w.length := by
  obtain ⟨v', -, hperm⟩ := hc.completes hs hw ht hv
  have hlen := hperm.length_eq
  rw [List.length_append] at hlen
  omega

end Commuting

end AG2PC.Library.Interleaving
