import Mathlib.Data.List.Induction
import Mathlib.Logic.Equiv.Prod

/-!
# Couplings of runs

A machine that draws coins at every operation, shows something and goes on or fails. Two states are told apart only by
what the runs from them show. When one operation from either of two related states shows the same under a permutation
of its coins, so does a whole run, and then what is shown has the same law from both.

* `Coins` — the coins of a run: for each operation its own.
* `view` — what a run shows, up to its first failure.
* `SomeCall` — a call of the run has a property; such calls are what a coupling may leave out.
* `exists_coupling` — one operation at a time, the permutation of the coins of a whole run.
-/

namespace AG2PC.Library.Coupling

variable {S M O ε : Type*} {coins : M → Type}

/-- The coins of a run: for each operation its own. -/
def Coins (coins : M → Type) : List M → Type
  | [] => Unit
  | m :: ms => coins m × Coins coins ms

/-- What a run shows: what each operation shows and whether it fails, up to the first that does. -/
def view (call : S → (m : M) → coins m → O × Except ε S) : S → (ms : List M) → Coins coins ms → List (O × Except ε Unit)
  | _, [], _ => []
  | s, m :: ms, r =>
    match call s m r.1 with
    | (o, .error e) => [(o, .error e)]
    | (o, .ok t) => (o, .ok ()) :: view call t ms r.2

/-- Some operation of the run, made in the state it is reached in, has the property. -/
def SomeCall (call : S → (m : M) → coins m → O × Except ε S) (Bad : S → (m : M) → coins m → Prop) :
    S → (ms : List M) → Coins coins ms → Prop
  | _, [], _ => False
  | s, m :: ms, r => Bad s m r.1 ∨ ∃ t, (call s m r.1).2 = .ok t ∧ SomeCall call Bad t ms r.2

/-- Two outcomes fail alike or lead to related states. -/
def Alike (I : S → S → Prop) : Except ε S → Except ε S → Prop
  | .error e, .error e' => e = e'
  | .ok t, .ok t' => I t t'
  | _, _ => False

theorem Alike.imp {I J : S → S → Prop} (h : ∀ t t', I t t' → J t t') {res res' : Except ε S} (halike : Alike I res res') :
    Alike J res res' :=
  match res, res', halike with
  | .error _, .error _, heq => heq
  | .ok t, .ok t', hI => h t t' hI

/-- **Runs are coupled as their operations are**: when `I` relates two states before the operations `m :: ms`, a
permutation of the coins of `m` makes `m` show the same, and fail alike or leave the states related for `ms`. Then a
permutation of all coins makes the runs show the same, but for the coins with a bad call in the first run. -/
theorem exists_coupling {call : S → (m : M) → coins m → O × Except ε S} {Bad : S → (m : M) → coins m → Prop}
    {I : List M → S → S → Prop}
    (hstep : ∀ m ms s s', I (m :: ms) s s' → ∃ φ : Equiv.Perm (coins m), ∀ r, ¬ Bad s m r →
      (call s m r).1 = (call s' m (φ r)).1 ∧ Alike (I ms) (call s m r).2 (call s' m (φ r)).2) :
    ∀ {ms : List M} {s s' : S}, I ms s s' →
      ∃ φ : Equiv.Perm (Coins coins ms), ∀ r, ¬ SomeCall call Bad s ms r → view call s ms r = view call s' ms (φ r) := by
  intro ms
  induction ms with
  | nil => exact fun _ => ⟨Equiv.refl _, fun _ _ => rfl⟩
  | cons m ms ih =>
    intro s s' hI
    obtain ⟨φ, hφ⟩ := hstep m ms s s' hI
    -- for each outcome of the first operation a permutation of the other coins
    have hrest : ∀ r : coins m, ∃ ψ : Equiv.Perm (Coins coins ms), ∀ rs, ¬ SomeCall call Bad s (m :: ms) (r, rs) →
        view call s (m :: ms) (r, rs) = view call s' (m :: ms) (φ r, ψ rs) := by
      intro r
      by_cases hbad : Bad s m r
      · exact ⟨Equiv.refl _, fun rs hrs => absurd (.inl hbad) hrs⟩
      obtain ⟨hshown, halike⟩ := hφ r hbad
      simp only [view]
      generalize hs : call s m r = c at hshown halike ⊢
      generalize call s' m (φ r) = c' at hshown halike ⊢
      obtain ⟨o, res⟩ := c
      obtain ⟨o', res'⟩ := c'
      subst hshown
      match res, res', halike with
      | .error e, .error _, rfl => exact ⟨Equiv.refl _, fun _ _ => rfl⟩
      | .ok t, .ok t', hI' =>
        obtain ⟨ψ, hψ⟩ := ih hI'
        refine ⟨ψ, fun rs hrs => congrArg _ (hψ rs fun hsome => hrs (.inr ⟨t, ?_, hsome⟩))⟩
        rw [hs]
    choose ψ hψ using hrest
    exact ⟨Equiv.prodShear φ ψ, fun r hr => hψ r.1 r.2 hr⟩

end AG2PC.Library.Coupling
