import Mathlib.Logic.Function.Basic
import Mathlib.Data.List.Basic
import Mathlib.Data.Nat.Notation

/-!
# Straight-line code on reused slots

A straight-line program works on registers; each instruction reads some registers, perhaps the old
contents of its own, and writes its own. An implementation keeps the registers in slots, `addr w`
being the slot of register `w`, and gives two registers the same slot when they are not needed at the
same time. The program then runs as if every register had a slot of its own, provided no instruction
writes the slot of another register that is still needed.

* `Layout` — which registers an instruction reads and writes.
* `Live`, `Safe` — which registers are still needed, and when an assignment of slots respects them.
* `Machine` — what the instructions compute, over a global state and a memory.
* `Machine.run_agree`, `Machine.reads_agree` — a safe run computes, and reads before every instruction,
  what the run on private registers does.
* `Machine.run_solves` — in a run on private registers where each register is written before it is
  read and only once, the final memory satisfies the equation of every instruction.
* `Machine.written_eq` — in a safe run each register, when it is written, gets its contents in that
  final memory.
-/

namespace AG2PC.Library.SlotReuse

/-! ### Which registers are needed -/

/-- What an instruction reads and writes. -/
structure Layout (I : Type) where
  /-- The register it writes. -/
  dst : I → ℕ
  /-- The registers it reads. -/
  srcs : I → List ℕ
  /-- Whether it reads the old contents of the register it writes. -/
  own : I → Bool

variable {I : Type} (l : Layout I)

/-- The registers whose contents matter before the instructions `is` run, when those of `keep` matter
after them. -/
def Live (keep : ℕ → Prop) : List I → ℕ → Prop
  | [], w => keep w
  | i :: is, w => w ∈ l.srcs i ∨ (l.own i = true ∧ w = l.dst i) ∨ (w ≠ l.dst i ∧ Live keep is w)

/-- No instruction writes the slot of another register that is still needed. -/
def Safe (keep : ℕ → Prop) (addr : ℕ → ℕ) : List I → Prop
  | [] => True
  | i :: is =>
    (∀ w, w ≠ l.dst i → Live l keep is w → addr w ≠ addr (l.dst i)) ∧ Safe keep addr is

variable {l}

/-- What is needed before a run is what is needed before its first part, for the second. -/
theorem live_append {keep : ℕ → Prop} {pre post : List I} {w : ℕ} :
    Live l keep (pre ++ post) w ↔ Live l (Live l keep post) pre w := by
  induction pre with
  | nil => exact Iff.rfl
  | cons i is ih =>
    rw [List.cons_append, Live, Live, ih]

/-- A run is safe when both its parts are. -/
theorem safe_append {keep : ℕ → Prop} {addr : ℕ → ℕ} {pre post : List I} :
    Safe l keep addr (pre ++ post) ↔ Safe l (Live l keep post) addr pre ∧ Safe l keep addr post := by
  induction pre with
  | nil => exact (and_iff_right trivial).symm
  | cons i is ih =>
    rw [List.cons_append, Safe, Safe, ih, and_assoc]
    simp only [live_append]

/-! ### Runs -/

/-- What the instructions compute: from the global state, the registers read and the old contents of
the register written, a new global state and the new contents. -/
structure Machine (l : Layout I) (G V : Type) where
  /-- One instruction. -/
  step : I → G → (ℕ → V) → V → G × V
  /-- It depends on nothing but what the layout says it reads. -/
  step_congr : ∀ i g r r' v v', (∀ w ∈ l.srcs i, r w = r' w) → (l.own i = true → v = v') →
    step i g r v = step i g r' v'

namespace Machine

variable {G V : Type} (M : Machine l G V)

/-- One instruction on a memory of slots. -/
def stepAt (addr : ℕ → ℕ) (s : G × (ℕ → V)) (i : I) : G × (ℕ → V) :=
  let r := M.step i s.1 (fun w => s.2 (addr w)) (s.2 (addr (l.dst i)))
  (r.1, Function.update s.2 (addr (l.dst i)) r.2)

/-- A run with slots, and a run where every register is its own slot. -/
def run (addr : ℕ → ℕ) (is : List I) (s : G × (ℕ → V)) : G × (ℕ → V) := is.foldl (M.stepAt addr) s

@[simp] theorem run_nil (addr : ℕ → ℕ) (s : G × (ℕ → V)) : M.run addr [] s = s := rfl

@[simp] theorem run_cons (addr : ℕ → ℕ) (i : I) (is : List I) (s : G × (ℕ → V)) :
    M.run addr (i :: is) s = M.run addr is (M.stepAt addr s i) := rfl

theorem run_append (addr : ℕ → ℕ) (pre post : List I) (s : G × (ℕ → V)) :
    M.run addr (pre ++ post) s = M.run addr post (M.run addr pre s) := List.foldl_append

/-- What every instruction keeps of the contents of a slot holds in every slot after a run. -/
theorem forall_run {Q : V → Prop} (hstep : ∀ i g r v, (∀ w, Q (r w)) → Q v → Q (M.step i g r v).2)
    (addr : ℕ → ℕ) (is : List I) : ∀ s : G × (ℕ → V), (∀ a, Q (s.2 a)) → ∀ a, Q ((M.run addr is s).2 a) := by
  induction is with
  | nil => exact fun s h => h
  | cons i is ih =>
    intro s h
    refine ih _ fun a => ?_
    change Q (Function.update s.2 (addr (l.dst i)) _ a)
    rcases eq_or_ne a (addr (l.dst i)) with rfl | hne
    · rw [Function.update_self]
      exact hstep i s.1 _ _ (fun w => h (addr w)) (h (addr (l.dst i)))
    · rw [Function.update_of_ne hne]
      exact h a

/-- **Slot reuse is invisible.** Where a run starts with every needed register in its slot and never
overwrites a needed one, it ends in the global state of the run on private registers, and with the
same contents in every register to keep. -/
theorem run_agree {keep : ℕ → Prop} {addr : ℕ → ℕ} (is : List I) :
    ∀ (g : G) (m p : ℕ → V), Safe l keep addr is → (∀ w, Live l keep is w → m (addr w) = p w) →
      (M.run addr is (g, m)).1 = (M.run id is (g, p)).1 ∧
        ∀ w, keep w → (M.run addr is (g, m)).2 (addr w) = (M.run id is (g, p)).2 w := by
  induction is with
  | nil =>
    intro g m p _ hlive
    exact ⟨rfl, hlive⟩
  | cons i is ih =>
    intro g m p hsafe hlive
    obtain ⟨hfree, hrest⟩ := hsafe
    -- both runs read the same values, so they compute the same
    have hstep : M.step i g (fun w => m (addr w)) (m (addr (l.dst i))) =
        M.step i g (fun w => p w) (p (l.dst i)) := by
      refine M.step_congr i g _ _ _ _ (fun w hw => hlive w (.inl hw)) fun hown => ?_
      exact hlive _ (.inr (.inl ⟨hown, rfl⟩))
    rw [run_cons, run_cons]
    simp only [stepAt, id, hstep]
    refine ih _ _ _ hrest fun w hw => ?_
    by_cases hwd : w = l.dst i
    · subst hwd
      rw [Function.update_self, Function.update_self]
    · rw [Function.update_of_ne (hfree w hwd hw), Function.update_of_ne hwd]
      exact hlive w (.inr (.inr ⟨hwd, hw⟩))

/-- **What a safe run reads**: before any of its instructions the global state and the registers the
instruction reads are those of the run on private registers. -/
theorem reads_agree {keep : ℕ → Prop} {addr : ℕ → ℕ} {pre post : List I} {i : I} (g : G) (m p : ℕ → V)
    (hsafe : Safe l keep addr (pre ++ i :: post))
    (hlive : ∀ w, Live l keep (pre ++ i :: post) w → m (addr w) = p w) :
    (M.run addr pre (g, m)).1 = (M.run id pre (g, p)).1 ∧
      (∀ w ∈ l.srcs i, (M.run addr pre (g, m)).2 (addr w) = (M.run id pre (g, p)).2 w) ∧
      (l.own i = true → (M.run addr pre (g, m)).2 (addr (l.dst i)) = (M.run id pre (g, p)).2 (l.dst i)) := by
  obtain ⟨hpre, -⟩ := safe_append.mp hsafe
  obtain ⟨hglobal, hmem⟩ := M.run_agree pre g m p hpre fun w hw => hlive w (live_append.mpr hw)
  exact ⟨hglobal, fun w hw => hmem w (.inl hw), fun hown => hmem _ (.inr (.inl ⟨hown, rfl⟩))⟩

/-! ### Single assignment -/

end Machine

variable (l) in
/-- Each instruction writes a register that no instruction from it on reads before, or writes again:
the instructions write `n`, `n + 1`, … and read smaller ones. -/
def SingleAssignment : ℕ → List I → Prop
  | _, [] => True
  | n, i :: is => l.dst i = n ∧ (∀ w ∈ l.srcs i, w < n) ∧ SingleAssignment (n + 1) is

theorem singleAssignment_append {n : ℕ} {pre post : List I} :
    SingleAssignment l n (pre ++ post) ↔
      SingleAssignment l n pre ∧ SingleAssignment l (n + pre.length) post := by
  induction pre generalizing n with
  | nil => exact (and_iff_right trivial).symm
  | cons i is ih =>
    rw [List.cons_append, SingleAssignment, SingleAssignment, ih, List.length_cons,
      show n + (is.length + 1) = n + 1 + is.length by omega, and_assoc, and_assoc]

namespace Machine

variable {G V : Type} (M : Machine l G V)

/-- The memory `f` solves the equations of the instructions `is` started in global state `g`, with
`p` for the old contents of the registers written. -/
def Solves (f p : ℕ → V) : G → List I → Prop
  | _, [] => True
  | g, i :: is =>
    f (l.dst i) = (M.step i g f (p (l.dst i))).2 ∧ Solves f p (M.step i g f (p (l.dst i))).1 is

/-- The global state after the instructions, in terms of the final memory. -/
def globals (f p : ℕ → V) : G → List I → G
  | g, [] => g
  | g, i :: is => globals f p (M.step i g f (p (l.dst i))).1 is

/-- A run leaves alone the registers below those it writes. -/
theorem run_of_lt (is : List I) :
    ∀ (s : G × (ℕ → V)) {n : ℕ}, SingleAssignment l n is → ∀ w < n, (M.run id is s).2 w = s.2 w := by
  induction is with
  | nil =>
    intro s n _ w _
    rfl
  | cons i is ih =>
    intro s n hsa w hw
    obtain ⟨hdst, -, hrest⟩ := hsa
    rw [run_cons, ih _ hrest w (by omega)]
    exact Function.update_of_ne (by simp only [id]; omega) _ _

/-- **Single assignment**: the final memory of a run on private registers solves the equations of
all instructions, and gives the final global state. -/
theorem run_solves (is : List I) :
    ∀ (g : G) (m p : ℕ → V) {n : ℕ}, SingleAssignment l n is → (∀ w, n ≤ w → m w = p w) →
      M.Solves (M.run id is (g, m)).2 p g is ∧
        (M.run id is (g, m)).1 = M.globals (M.run id is (g, m)).2 p g is := by
  induction is with
  | nil =>
    intro g m p n _ _
    exact ⟨trivial, rfl⟩
  | cons i is ih =>
    intro g m p n hsa hp
    obtain ⟨hdst, hsrcs, hrest⟩ := hsa
    -- the state after the first instruction
    let r := M.step i g m (m (l.dst i))
    have hs : M.stepAt id (g, m) i = (r.1, Function.update m (l.dst i) r.2) := rfl
    rw [run_cons, hs]
    have hfin := M.run_of_lt (n := n + 1) is (r.1, Function.update m (l.dst i) r.2) hrest
    -- the final memory has the same operands, so the equation is that of the run
    have hstep : M.step i g (M.run id is (r.1, Function.update m (l.dst i) r.2)).2 (p (l.dst i)) = r := by
      refine M.step_congr i g _ _ _ _ (fun w hw => ?_) fun _ => ?_
      · have hwn := hsrcs w hw
        rw [hfin w (by omega)]
        exact Function.update_of_ne (by omega) _ _
      · exact (hp _ (by omega)).symm
    have hnext := ih r.1 (Function.update m (l.dst i) r.2) p hrest fun w hw => by
      rw [Function.update_of_ne (by omega)]
      exact hp w (by omega)
    refine ⟨⟨?_, ?_⟩, ?_⟩
    · rw [hstep, hfin _ (by omega)]
      exact Function.update_self _ _ _
    · rw [hstep]
      exact hnext.1
    · rw [globals, hstep]
      exact hnext.2

/-! ### Registers as they are written -/

/-- The contents of register `w` right after its instruction, in a run with slots that writes the
registers from `n` on; before the run when `w` is smaller. -/
def written (addr : ℕ → ℕ) (n : ℕ) (is : List I) (s : G × (ℕ → V)) (w : ℕ) : V :=
  (M.run addr (is.take (w + 1 - n)) s).2 (addr w)

/-- A safe run writes what the run on private registers writes. -/
theorem run_snoc_agree {keep : ℕ → Prop} {addr : ℕ → ℕ} {n : ℕ} (pre post : List I) (i : I) (g : G)
    (m p : ℕ → V) (hsa : SingleAssignment l n (pre ++ i :: post))
    (hsafe : Safe l keep addr (pre ++ i :: post))
    (hlive : ∀ w, Live l keep (pre ++ i :: post) w → m (addr w) = p w) :
    (M.run addr (pre ++ [i]) (g, m)).2 (addr (l.dst i)) =
      (M.run id (pre ++ i :: post) (g, p)).2 (l.dst i) := by
  obtain ⟨-, hdst, -, hpost⟩ := singleAssignment_append.mp hsa
  obtain ⟨hglobal, hsrcs, hown⟩ := M.reads_agree g m p hsafe hlive
  rw [run_append, run_append, run_cons, run_cons, run_nil, M.run_of_lt post _ hpost _ (by omega)]
  -- before the instruction the two runs agree on what it reads
  have hstep : M.step i (M.run addr pre (g, m)).1 (fun w => (M.run addr pre (g, m)).2 (addr w))
      ((M.run addr pre (g, m)).2 (addr (l.dst i))) =
        M.step i (M.run id pre (g, p)).1 (fun w => (M.run id pre (g, p)).2 w)
          ((M.run id pre (g, p)).2 (l.dst i)) := by
    rw [hglobal]
    exact M.step_congr i _ _ _ _ _ hsrcs hown
  simp only [stepAt, id, hstep, Function.update_self]

/-- **What a safe run writes**: each register, right after its instruction, holds its final contents in
the run on private registers. -/
theorem written_eq {keep : ℕ → Prop} {addr : ℕ → ℕ} {n : ℕ} {is : List I} (g : G) (m p : ℕ → V)
    (hsa : SingleAssignment l n is) (hsafe : Safe l keep addr is)
    (hlive : ∀ w, Live l keep is w → m (addr w) = p w) (hin : ∀ w < n, m (addr w) = p w) {w : ℕ}
    (hw : w < n + is.length) : M.written addr n is (g, m) w = (M.run id is (g, p)).2 w := by
  unfold written
  by_cases hwn : w < n
  · rw [show w + 1 - n = 0 by omega, List.take_zero, run_nil, M.run_of_lt is (g, p) hsa w hwn]
    exact hin w hwn
  · obtain ⟨k, rfl⟩ : ∃ k, w = n + k := ⟨w - n, by omega⟩
    have hk : k < is.length := by omega
    have hsplit : is = is.take k ++ is[k] :: is.drop (k + 1) := by
      rw [← List.drop_eq_getElem_cons hk, List.take_append_drop]
    have hdst : l.dst is[k] = n + k := by
      rw [hsplit] at hsa
      rw [(singleAssignment_append.mp hsa).2.1, List.length_take, Nat.min_eq_left (Nat.le_of_lt hk)]
    have h := M.run_snoc_agree (is.take k) (is.drop (k + 1)) is[k] g m p (hsplit ▸ hsa) (hsplit ▸ hsafe)
      fun w hw => hlive w (hsplit ▸ hw)
    rw [← hsplit, hdst] at h
    rw [show n + k + 1 - n = k + 1 by omega, List.take_succ_eq_append_getElem hk]
    exact h

end Machine

end AG2PC.Library.SlotReuse
