import Mathlib.Data.List.Induction

/-!
# Runs of a fallible machine

A machine takes operations one after another. An operation returns a result and a new state, or
fails and ends the run. What holds of whole runs comes from what one operation does:

* `run_invariant` — a property every operation keeps holds in every state reached.
* `forall_reached_iff` — when one operation keeps a property exactly under a condition, a run keeps
  it throughout exactly when each of its operations meets the condition.
* `run_simulates` — a machine followed by an abstract one, which is told the results: the states stay
  related, and an agreement of each result with the abstract state holds exactly when every operation
  meets its condition.
* `Chain.upTo` — steps that need not be determined: what every step keeps unless it is a bad one holds
  to the end of a chain, or the chain has a bad step.
-/

namespace AG2PC.Library.Runs

variable {S O R A ε : Type*}

/-- The operations in order: the results and the last state, or the first failure. -/
def run (step : S → O → Except ε (R × S)) : S → List O → Except ε (List R × S)
  | s, [] => .ok ([], s)
  | s, o :: os =>
    match step s o with
    | .error e => .error e
    | .ok (r, s') =>
      match run step s' os with
      | .error e => .error e
      | .ok (rs, t) => .ok (r :: rs, t)

/-- The operations `os` lead from `s` to `t` without a failure. -/
def Reaches (step : S → O → Except ε (R × S)) (s : S) (os : List O) (t : S) : Prop :=
  ∃ rs, run step s os = .ok (rs, t)

section

variable {step : S → O → Except ε (R × S)} {s t : S} {o : O} {os : List O} {rs : List R}

/-- A run that succeeds has made its first operation. -/
theorem run_cons_ok :
    run step s (o :: os) = .ok (rs, t) ↔
      ∃ r s' rs', step s o = .ok (r, s') ∧ run step s' os = .ok (rs', t) ∧ rs = r :: rs' := by
  cases hs : step s o with
  | error e => simp [run, hs]
  | ok p =>
    obtain ⟨r, s'⟩ := p
    cases hr : run step s' os with
    | error e =>
      simp only [run, hs, hr, reduceCtorEq, Except.ok.injEq, Prod.mk.injEq, false_iff]
      rintro ⟨r₁, s₁, rs', ⟨rfl, rfl⟩, h, -⟩
      rw [hr] at h
      cases h
    | ok q =>
      simp only [run, hs, hr, Except.ok.injEq, Prod.mk.injEq]
      constructor
      · rintro ⟨rfl, rfl⟩
        exact ⟨r, s', q.1, ⟨rfl, rfl⟩, hr, rfl⟩
      · rintro ⟨r₁, s₁, rs', ⟨rfl, rfl⟩, h, rfl⟩
        rw [hr] at h
        cases h
        exact ⟨rfl, rfl⟩

theorem reaches_nil : Reaches step s [] t ↔ s = t := by
  constructor
  · rintro ⟨rs, h⟩
    cases h
    rfl
  · rintro rfl
    exact ⟨[], rfl⟩

theorem reaches_cons :
    Reaches step s (o :: os) t ↔ ∃ r s', step s o = .ok (r, s') ∧ Reaches step s' os t := by
  constructor
  · rintro ⟨rs, h⟩
    obtain ⟨r, s', rs', hs, hr, -⟩ := run_cons_ok.mp h
    exact ⟨r, s', hs, rs', hr⟩
  · rintro ⟨r, s', hs, rs', hr⟩
    exact ⟨r :: rs', run_cons_ok.mpr ⟨r, s', rs', hs, hr, rfl⟩⟩

/-- Runs one after the other. -/
theorem reaches_append {os' : List O} :
    Reaches step s (os ++ os') t ↔ ∃ m, Reaches step s os m ∧ Reaches step m os' t := by
  induction os generalizing s with
  | nil => simp [reaches_nil]
  | cons o os ih =>
    rw [List.cons_append, reaches_cons]
    simp only [ih, reaches_cons]
    constructor
    · rintro ⟨r, s', hs, m, hm, ht⟩
      exact ⟨m, ⟨r, s', hs, hm⟩, ht⟩
    · rintro ⟨m, ⟨r, s', hs, hm⟩, ht⟩
      exact ⟨r, s', hs, m, hm, ht⟩

/-- One operation more. -/
theorem reaches_snoc :
    Reaches step s (os ++ [o]) t ↔ ∃ m r, Reaches step s os m ∧ step m o = .ok (r, t) := by
  simp only [reaches_append, reaches_cons, reaches_nil]
  constructor
  · rintro ⟨m, hm, r, s', hs, rfl⟩
    exact ⟨m, r, hm, hs⟩
  · rintro ⟨m, r, hm, hs⟩
    exact ⟨m, hm, r, t, hs, rfl⟩

/-- A run leads to one state. -/
theorem Reaches.unique {t' : S} (h : Reaches step s os t) (h' : Reaches step s os t') : t = t' := by
  obtain ⟨rs, h⟩ := h
  obtain ⟨rs', h'⟩ := h'
  rw [h] at h'
  cases h'
  rfl

/-- **What every operation keeps** holds in every state reached. -/
theorem run_invariant {P : S → Prop} (hstep : ∀ s o r s', P s → step s o = .ok (r, s') → P s')
    (hs : P s) (h : Reaches step s os t) : P t := by
  induction os generalizing s with
  | nil =>
    obtain rfl := reaches_nil.mp h
    exact hs
  | cons o os ih =>
    obtain ⟨r, s', ho, hrest⟩ := reaches_cons.mp h
    exact ih (hstep s o r s' hs ho) hrest

/-- **A property kept under a condition**: let `I` be what a run needs to go on, `P` a part of it, and
let one operation from `I` lead into `P`, and then into `I` again, exactly when it meets `C`. Then `P`
holds throughout a run exactly when every operation of the run meets `C`. -/
theorem forall_reached_iff {I P : S → Prop} {C : S → O → Prop} (hP : ∀ s, I s → P s)
    (hstep : ∀ s o r s', I s → step s o = .ok (r, s') → (P s' ↔ C s o) ∧ (C s o → I s')) (hs : I s) :
    (∀ pre, pre <+: os → ∀ t, Reaches step s pre t → P t) ↔
      ∀ pre o, pre ++ [o] <+: os → ∀ t t', Reaches step s pre t → Reaches step s (pre ++ [o]) t' →
        C t o := by
  have hlast : ∀ {pre : List O} {o : O} {t t' : S}, Reaches step s pre t →
      Reaches step s (pre ++ [o]) t' → ∃ r, step t o = .ok (r, t') := by
    intro pre o t t' ht ht'
    obtain ⟨m, r, hm, ho⟩ := reaches_snoc.mp ht'
    rw [ht.unique hm]
    exact ⟨r, ho⟩
  constructor
  · intro hall
    -- the prefixes one by one: what leads into `P` meets `C`, hence leads into `I`
    have hI : ∀ pre, pre <+: os → ∀ t, Reaches step s pre t → I t := by
      intro pre
      induction pre using List.reverseRecOn with
      | nil =>
        intro _ t ht
        obtain rfl := reaches_nil.mp ht
        exact hs
      | append_singleton pre o ih =>
        intro hpre t ht
        obtain ⟨m, r, hm, ho⟩ := reaches_snoc.mp ht
        have hm' := ih ((List.prefix_append pre [o]).trans hpre) m hm
        obtain ⟨hiff, hnext⟩ := hstep m o r t hm' ho
        exact hnext (hiff.mp (hall _ hpre t ht))
    intro pre o hpre t t' ht ht'
    obtain ⟨r, ho⟩ := hlast ht ht'
    have hIt := hI pre ((List.prefix_append pre [o]).trans hpre) t ht
    exact (hstep t o r t' hIt ho).1.mp (hall _ hpre t' ht')
  · intro hall pre
    suffices h : pre <+: os → ∀ t, Reaches step s pre t → I t from fun hpre t ht => hP t (h hpre t ht)
    induction pre using List.reverseRecOn with
    | nil =>
      intro _ t ht
      obtain rfl := reaches_nil.mp ht
      exact hs
    | append_singleton pre o ih =>
      intro hpre t ht
      obtain ⟨m, r, hm, ho⟩ := reaches_snoc.mp ht
      have hm' := ih ((List.prefix_append pre [o]).trans hpre) m hm
      exact (hstep m o r t hm' ho).2 (hall pre o hpre m t hm ht)

end

/-! ### Following a run in an abstract machine -/

/-- The abstract machine, told the results. -/
def follow (next : A → O → R → A) : A → List O → List R → A
  | a, o :: os, r :: rs => follow next (next a o r) os rs
  | a, _, _ => a

/-- Each result agrees with the abstract state it was obtained in. -/
def Agrees (next : A → O → R → A) (Q : A → O → R → Prop) : A → List O → List R → Prop
  | a, o :: os, r :: rs => Q a o r ∧ Agrees next Q (next a o r) os rs
  | _, _, _ => True

/-- **Simulation**: when one operation keeps the states related, and its result agrees with the abstract
state exactly under the condition `C`, so it is for runs. -/
theorem run_simulates {step : S → O → Except ε (R × S)} {next : A → O → R → A} {Rel : S → A → Prop}
    {Q : A → O → R → Prop} {C : O → Prop}
    (hstep : ∀ s a o r s', Rel s a → step s o = .ok (r, s') → Rel s' (next a o r) ∧ (Q a o r ↔ C o))
    {s t : S} {a : A} {os : List O} {rs : List R} (hrel : Rel s a) (h : run step s os = .ok (rs, t)) :
    Rel t (follow next a os rs) ∧ (Agrees next Q a os rs ↔ ∀ o ∈ os, C o) := by
  induction os generalizing s a rs with
  | nil =>
    cases h
    exact ⟨hrel, by simp [Agrees]⟩
  | cons o os ih =>
    obtain ⟨r, s', rs', ho, hrest, rfl⟩ := run_cons_ok.mp h
    obtain ⟨hrel', hQ⟩ := hstep s a o r s' hrel ho
    obtain ⟨hend, hagree⟩ := ih hrel' hrest
    refine ⟨hend, ?_⟩
    rw [Agrees, hQ, hagree, List.forall_mem_cons]

/-! ### Chains of steps -/

/-- Steps one after another, with what each of them shows. -/
inductive Chain (step : S → R → S → Prop) : S → List R → S → Prop
  /-- No step. -/
  | nil {s : S} : Chain step s [] s
  /-- A step, and the others. -/
  | cons {s t u : S} {r : R} {rs : List R} : step s r t → Chain step t rs u → Chain step s (r :: rs) u

namespace Chain

variable {step : S → R → S → Prop} {s t : S} {rs : List R}

/-- What every step shows. -/
theorem forall_mem {P : R → Prop} (hstep : ∀ s r t, step s r t → P r) (h : Chain step s rs t) : ∀ r ∈ rs, P r := by
  induction h with
  | nil => exact fun r hr => absurd hr List.not_mem_nil
  | cons hr _ ih => exact List.forall_mem_cons.mpr ⟨hstep _ _ _ hr, ih⟩

/-- **Up to a bad step**: when a step from `I` is bad, or leads into `I` again and is good, then a chain from `I`
has a bad step, or it leads into `I` and all its steps are good. -/
theorem upTo {I : S → Prop} {Bad Good : R → Prop} (hstep : ∀ s r t, I s → step s r t → Bad r ∨ I t ∧ Good r)
    (hs : I s) (h : Chain step s rs t) : (∃ r ∈ rs, Bad r) ∨ I t ∧ ∀ r ∈ rs, Good r := by
  induction h with
  | nil => exact .inr ⟨hs, fun r hr => absurd hr List.not_mem_nil⟩
  | cons hr _ ih =>
    rcases hstep _ _ _ hs hr with hbad | ⟨ht, hgood⟩
    · exact .inl ⟨_, List.mem_cons_self, hbad⟩
    · rcases ih ht with ⟨r, hmem, hbad⟩ | ⟨hend, hall⟩
      · exact .inl ⟨r, List.mem_cons_of_mem _ hmem, hbad⟩
      · exact .inr ⟨hend, List.forall_mem_cons.mpr ⟨hgood, hall⟩⟩

end Chain

end AG2PC.Library.Runs
