import AG2PC.Backend.Slots
import AG2PC.Backend.Engine

/-!
# The passes on a gate stream

Driven by a source, a pass does its step at each recorded gate; on the slot map of the run it
computes what it would with a private register a wire, and there each gate's wire satisfies the gate's
equation at the end of the pass. This module takes the passes that work on slots from the code's
form to those equations, which speak of the final contents of the wires and of the AND index `k` only.

* `ForGates` — a relation at every gate of a stream, with the AND index.
* `ShareEqs` — the equations of the shares, which every pass re-propagates.
* `machine_spec` — a pass on the slot map, in terms of final contents that solve its equations.
* `prepare_spec` — what the liveness and slot/mask passes leave.
-/

namespace AG2PC

open Library.XorAlgebra Library.SlotReuse

/-! ### Sources and streams -/

/-- A recording writes no operand field a gate does not use. -/
theorem Body.record_normalize {α : Type} (b : Body α) : ∀ (wid : ℕ) (c0 c1 : Option ℕ),
    (b.record wid c0 c1).1.map Gate.normalize = (b.record wid c0 c1).1 := by
  induction b with
  | done a =>
    intro wid c0 c1
    rfl
  | publicBit v k ih =>
    intro wid c0 c1
    cases v with
    | false =>
      cases c0 with
      | some c => exact ih c wid _ _
      | none => exact congrArg (List.cons _) (ih wid _ _ _)
    | true =>
      cases c1 with
      | some c => exact ih c wid _ _
      | none => exact congrArg (List.cons _) (ih wid _ _ _)
  | andGate x y k ih =>
    intro wid c0 c1
    exact congrArg (List.cons _) (ih wid _ _ _)
  | xorGate x y k ih =>
    intro wid c0 c1
    exact congrArg (List.cons _) (ih wid _ _ _)
  | notGate x k ih =>
    intro wid c0 c1
    exact congrArg (List.cons _) (ih wid _ _ _)

/-- A pass over slots, at one gate. -/
theorem machinePass_step {G V : Type} (M : Machine gateLayout G V) (phys : ℕ → ℕ) (s : G × (ℕ → V))
    (g : Gate) : (machinePass M phys).step s g = M.stepAt phys s g.normalize := by
  obtain ⟨i0, i1, o, op⟩ := g
  cases op <;> rfl

/-- A pass over slots is a run of its machine. -/
theorem machinePass_after_normalize {G V : Type} (M : Machine gateLayout G V) (phys : ℕ → ℕ) (gs : List Gate)
    (s : G × (ℕ → V)) : (machinePass M phys).after gs s = M.run phys (gs.map Gate.normalize) s := by
  rw [Pass.after, Machine.run, List.foldl_map]
  exact congrArg (fun F => List.foldl F s gs) (funext fun s => funext fun g => machinePass_step M phys s g)

/-- The slot/mask pass, at one gate. -/
theorem slotMaskPass_step (cot : ℕ → AShareBundle) (lastUse : ℕ → Option ℕ) (persist : ℕ → Bool)
    (s : SlotMask) (g : Gate) :
    (slotMaskPass cot lastUse persist).step s g = s.gate cot lastUse persist g.normalize := by
  obtain ⟨i0, i1, o, op⟩ := g
  cases op <;> rfl

/-- A pass over a source is the pass over the gates it records. -/
theorem Pass.runSource_eq_after {σ α : Type} (P : Pass σ) (n : ℕ) (b : Body α) (s : σ) :
    (P.runSource n b s).2.s = P.after (b.record n none none).1 s :=
  (P.run_eq b ⟨n, none, none, s⟩).2.1

/-- A pass over a source does its step at each gate of the recorded stream. -/
theorem Pass.runSource_eq {σ α : Type} (P : Pass σ) (f : σ → Gate → σ) (b : Body α) (n : ℕ) (s : σ)
    (hf : ∀ s g, P.step s g = f s g.normalize) :
    (P.runSource n b s).2.s = (b.record n none none).1.foldl f s := by
  rw [P.runSource_eq_after, Pass.after]
  conv_rhs => rw [← b.record_normalize n none none, List.foldl_map]
  exact congrArg (fun F => List.foldl F s _) (funext fun s => funext fun g => hf s g)

/-- The liveness pass makes no use of the operand fields a gate does not use. -/
theorem livenessPass_normalize (s : Liveness) (g : Gate) :
    livenessPass.step s g = livenessPass.step s g.normalize := by
  obtain ⟨i0, i1, o, op⟩ := g
  cases op <;> rfl

section

variable {lastUse : ℕ → Option ℕ} {persist : ℕ → Bool}

/-- **The slot/mask pass as a machine**: the slot map evolves by itself, and the rest is the run of
the machine on the map `F` that the whole stream ends with. -/
theorem slotMask_run_append (cot : ℕ → AShareBundle) {F : Alloc} {post : List Gate} (pre : List Gate) :
    ∀ {d : ℕ} (s : SlotMask), CanonicalStream d (pre ++ post) →
      AllocOk s.alloc d (InUse lastUse persist s.alloc.gi) →
      ReadsCovered lastUse persist s.alloc.gi (pre ++ post) → allocGates lastUse persist s.alloc (pre ++ post) = F →
      pre.foldl (SlotMask.gate cot lastUse persist) s =
        { alloc := allocGates lastUse persist s.alloc pre
          globals := ((slotMaskMachine cot).run F.phys pre (s.globals, s.mem)).1
          mem := ((slotMaskMachine cot).run F.phys pre (s.globals, s.mem)).2 } := by
  induction pre with
  | nil =>
    intro d s _ _ _ _
    rfl
  | cons g gs ih =>
    intro d s hcan hok hcov hF
    obtain ⟨rfl, hsrcs, hrest⟩ := canonicalStream_cons.mp hcan
    obtain ⟨hreads, -, hcov'⟩ := hcov
    obtain ⟨hgi, hok', hphys, -, -, -⟩ := hok.gate hsrcs hreads
    have hF' : allocGates lastUse persist (s.alloc.gate lastUse persist g) (gs ++ post) = F := hF
    -- the final map agrees with the current ones on the wires of this gate
    obtain ⟨-, hstay, -⟩ := AllocOk.run (gs ++ post) hrest hok' (hgi ▸ hcov') fun w (hw : False) => hw.elim
    rw [hF'] at hstay
    have hread : ∀ w ∈ g.srcs, s.mem (s.alloc.phys w) = s.mem (F.phys w) := by
      intro w hw
      have hwlt := hsrcs w hw
      rw [hstay w (by omega), hphys w (by omega)]
    have hgate : slotMaskGate cot g s.globals (fun w => s.mem (s.alloc.phys w)) =
        slotMaskGate cot g s.globals fun w => s.mem (F.phys w) :=
      (slotMaskMachine cot).step_congr g s.globals _ _ ⟨.zero, 0⟩ ⟨.zero, 0⟩ hread fun _ => rfl
    rw [List.foldl_cons, ih (s.gate cot lastUse persist g) hrest hok' (hgi ▸ hcov') hF', Machine.run_cons]
    have hstep : ((s.gate cot lastUse persist g).globals, (s.gate cot lastUse persist g).mem) =
        (slotMaskMachine cot).stepAt F.phys (s.globals, s.mem) g := by
      simp only [SlotMask.gate, Machine.stepAt, slotMaskMachine, hgate, ← hstay g.out (Nat.lt_succ_self _)]
      rfl
    rw [hstep]
    rfl

/-- A whole run of the slot/mask pass. -/
theorem slotMask_run (cot : ℕ → AShareBundle) {F : Alloc} (gs : List Gate) {d : ℕ} (s : SlotMask)
    (hcan : CanonicalStream d gs) (hok : AllocOk s.alloc d (InUse lastUse persist s.alloc.gi))
    (hcov : ReadsCovered lastUse persist s.alloc.gi gs) (hF : allocGates lastUse persist s.alloc gs = F) :
    gs.foldl (SlotMask.gate cot lastUse persist) s =
      { alloc := F
        globals := ((slotMaskMachine cot).run F.phys gs (s.globals, s.mem)).1
        mem := ((slotMaskMachine cot).run F.phys gs (s.globals, s.mem)).2 } := by
  rw [← List.append_nil gs] at hcan hcov hF
  rw [slotMask_run_append cot gs s hcan hok hcov hF, ← hF, List.append_nil]

end

/-! ### Runs on the slot map -/

/-- **A pass on the slot map**: there are final contents of the wires that solve the pass's
equations, agree with the slots of the wires that persist and with every slot when its wire is written,
and give the final global state. -/
theorem machine_spec {G V : Type} (M : Machine gateLayout G V) {n : ℕ} {gs : List Gate}
    (outIds : List ℕ) (h : CanonicalStream n gs) (s : G × (ℕ → V)) :
    let phys := (streamAlloc n gs outIds).phys
    ∃ f : ℕ → V, M.Solves f (fun w => s.2 (phys w)) s.1 gs ∧
      (M.run phys gs s).1 = M.globals f (fun w => s.2 (phys w)) s.1 gs ∧
      (∀ w, Persistent n gs outIds w → (M.run phys gs s).2 (phys w) = f w) ∧ (∀ w < n, f w = s.2 w) ∧
      ∀ w < n + gs.length, M.written phys n gs s w = f w := by
  intro phys
  obtain ⟨hsafe, hinput, -⟩ := safe_streamAlloc outIds h
  obtain ⟨hglobals, hmem⟩ := M.run_agree gs s.1 s.2 (fun w => s.2 (phys w)) hsafe fun w _ => rfl
  obtain ⟨hsolves, hfinal⟩ := M.run_solves gs s.1 (fun w => s.2 (phys w)) (fun w => s.2 (phys w)) h
    fun w _ => rfl
  refine ⟨(M.run id gs (s.1, fun w => s.2 (phys w))).2, hsolves, hglobals.trans hfinal, hmem, ?_, ?_⟩
  · intro w hw
    rw [M.run_of_lt gs _ h w hw]
    exact congrArg s.2 (hinput w hw)
  · intro w hw
    exact M.written_eq s.1 s.2 (fun w => s.2 (phys w)) h hsafe (fun _ _ => rfl) (fun _ _ => rfl) hw

/-! ### Equations -/

/-- The AND index after a gate. -/
def nextAnd (k : ℕ) (g : Gate) : ℕ := if g.isAnd then k + 1 else k

theorem nextAnd_normalize (k : ℕ) (g : Gate) : nextAnd k g.normalize = nextAnd k g := by
  obtain ⟨i0, i1, o, op⟩ := g
  cases op <;> rfl

/-- The relation `R` at every gate, with the AND index. -/
def ForGates (R : ℕ → Gate → Prop) : ℕ → List Gate → Prop
  | _, [] => True
  | k, g :: gs => R k g ∧ ForGates R (nextAnd k g) gs

theorem nextAnd_add_countAnds (k : ℕ) (g : Gate) (gs : List Gate) :
    nextAnd k g + countAnds gs = k + countAnds (g :: gs) := by
  unfold nextAnd countAnds
  rw [List.countP_cons]
  split <;> omega

section

variable {R T : ℕ → Gate → Prop}

theorem ForGates.and {gs : List Gate} : ∀ {k : ℕ}, ForGates R k gs → ForGates T k gs →
    ForGates (fun k g => R k g ∧ T k g) k gs := by
  induction gs with
  | nil => exact fun _ _ => trivial
  | cons g gs ih =>
    intro k hR hT
    exact ⟨⟨hR.1, hT.1⟩, ih hR.2 hT.2⟩

theorem ForGates.imp (h : ∀ k g, R k g → T k g) {gs : List Gate} : ∀ {k : ℕ}, ForGates R k gs →
    ForGates T k gs := by
  induction gs with
  | nil => exact fun _ => trivial
  | cons g gs ih =>
    intro k hR
    exact ⟨h k g hR.1, ih hR.2⟩

theorem ForGates.congr {gs : List Gate} : ∀ {k : ℕ}, ForGates (fun k g => R k g ↔ T k g) k gs →
    (ForGates R k gs ↔ ForGates T k gs) := by
  induction gs with
  | nil => exact fun _ => Iff.rfl
  | cons g gs ih =>
    intro k h
    exact and_congr h.1 (ih h.2)

theorem forGates_of_mem {gs : List Gate} : ∀ {k : ℕ}, (∀ k, ∀ g ∈ gs, R k g) → ForGates R k gs := by
  induction gs with
  | nil => exact fun _ => trivial
  | cons g gs ih =>
    intro k h
    exact ⟨h k g List.mem_cons_self, ih fun k g' hg' => h k g' (List.mem_cons_of_mem _ hg')⟩

/-- A relation at every gate, at one of them. -/
theorem ForGates.of_mem {g : Gate} {gs : List Gate} : ∀ {k : ℕ}, ForGates R k gs → g ∈ gs →
    ∃ k', R k' g := by
  induction gs with
  | nil => exact fun _ h => absurd h List.not_mem_nil
  | cons g' gs ih =>
    intro k h hg
    rcases List.mem_cons.mp hg with rfl | hg
    · exact ⟨k, h.1⟩
    · exact ih h.2 hg

/-- The gate of an AND index. -/
theorem ForGates.exists_and {gs : List Gate} : ∀ {k i : ℕ}, ForGates R k gs → k ≤ i →
    i < k + countAnds gs → ∃ g ∈ gs, g.isAnd = true ∧ R i g := by
  induction gs with
  | nil =>
    intro k i _ hki hik
    exact absurd hik (Nat.not_lt_of_le hki)
  | cons g gs ih =>
    intro k i hR hki hik
    obtain ⟨hg, hrest⟩ := hR
    rw [← nextAnd_add_countAnds] at hik
    by_cases hnext : nextAnd k g ≤ i
    · obtain ⟨g', hg', hand, hR'⟩ := ih hrest hnext hik
      exact ⟨g', List.mem_cons_of_mem _ hg', hand, hR'⟩
    · cases hand : g.isAnd with
      | false =>
        rw [nextAnd, hand] at hnext
        exact absurd hki hnext
      | true =>
        rw [nextAnd, if_pos hand] at hnext
        obtain rfl : i = k := by omega
        exact ⟨g, List.mem_cons_self, hand, hg⟩

/-- The AND indices are below the number of ANDs. -/
theorem forGates_lt (gs : List Gate) : ∀ {k K : ℕ}, k + countAnds gs ≤ K →
    ForGates (fun k g => g.isAnd = true → k < K) k gs := by
  induction gs with
  | nil => exact fun _ => trivial
  | cons g gs ih =>
    intro k K hK
    rw [← nextAnd_add_countAnds] at hK
    refine ⟨fun hand => ?_, ih hK⟩
    rw [nextAnd, if_pos hand] at hK
    omega

/-- The operand fields a gate does not use do not matter to a relation that ignores them. -/
theorem forGates_normalize (h : ∀ k g, R k g.normalize ↔ R k g) {gs : List Gate} : ∀ {k : ℕ},
    ForGates R k (gs.map Gate.normalize) ↔ ForGates R k gs := by
  induction gs with
  | nil => exact Iff.rfl
  | cons g gs ih =>
    intro k
    rw [List.map_cons, ForGates, ForGates, h, ih, nextAnd_normalize]

/-- **Induction along a stream**: what holds of the inputs and, at every gate, of the output when it
holds of the operands, holds of every wire. -/
theorem ForGates.run {P : ℕ → Prop} (hstep : ∀ k g, R k g → (∀ w ∈ g.srcs, P w) → P g.out)
    {gs : List Gate} : ∀ {n k : ℕ}, CanonicalStream n gs → ForGates R k gs → (∀ w < n, P w) →
      ∀ w < n + gs.length, P w := by
  induction gs with
  | nil =>
    intro n k _ _ hlt w hw
    exact hlt w (by simpa using hw)
  | cons g gs ih =>
    intro n k hcan hR hlt w hw
    obtain ⟨hout, hsrcs, hrest⟩ := canonicalStream_cons.mp hcan
    have hgout : P g.out := hstep k g hR.1 fun w hw => hlt w (hsrcs w hw)
    rw [List.length_cons] at hw
    refine ih hrest hR.2 (fun w hw => ?_) w (by omega)
    by_cases hwn : w = g.out
    · exact hwn ▸ hgout
    · exact hlt w (by omega)

/-- The cleartext values solve the gates' equations. -/
theorem forGates_evalGates {gs : List Gate} : ∀ {n k : ℕ} (v : ℕ → Bool), CanonicalStream n gs →
    ForGates (fun _ g => evalGates v gs g.out = g.value (evalGates v gs)) k gs := by
  induction gs with
  | nil => exact fun _ _ => trivial
  | cons g gs ih =>
    intro n k v h
    exact ⟨evalGates_out h v, ih _ (canonicalStream_cons.mp h).2.2⟩

/-- **The equations of a pass**: `ai` is the AND index in the data of the pass, `C` what is known of every gate, and
`Inv` what holds of the data and the gates that are left. -/
theorem forGates_of_solves {G V : Type} (M : Machine gateLayout G V) (ai : G → ℕ) (C : Gate → Prop)
    (Inv : G → List Gate → Prop) {f p : ℕ → V}
    (hstep : ∀ g gs s, C g → Inv s (g :: gs) → f g.out = (M.step g s f (p g.out)).2 →
      R (ai s) g ∧ ai (M.step g s f (p g.out)).1 = nextAnd (ai s) g ∧ Inv (M.step g s f (p g.out)).1 gs)
    {gs : List Gate} : ∀ {s : G}, (∀ g ∈ gs, C g) → Inv s gs → M.Solves f p s gs → ForGates R (ai s) gs := by
  induction gs with
  | nil => exact fun _ _ _ => trivial
  | cons g gs ih =>
    rintro s hC hinv ⟨hg, hsolves⟩
    obtain ⟨hR, hai, hinv⟩ := hstep g gs s (hC g List.mem_cons_self) hinv hg
    refine ⟨hR, ?_⟩
    rw [← hai]
    exact ih (fun g' hg' => hC g' (List.mem_cons_of_mem _ hg')) hinv hsolves

end

/-- The shares a pass that re-propagates them computes: those of the ANDs are in place. -/
def shareRule (g : Gate) (r : ℕ → AShareBundle) (old : AShareBundle) : AShareBundle :=
  match g.op with
  | .Const0 | .Const1 => .zero
  | .Xor => r g.in0 ^^^ r g.in1
  | .Not => r g.in0
  | .And => old

/-- The equations of the slot/mask pass: `lg k` is the fresh mask of AND `k`. -/
def ShareEqs (sh lg repA repB : ℕ → AShareBundle) (k : ℕ) (g : Gate) : Prop :=
  sh g.out = shareRule g sh (lg k) ∧ (g.isAnd = true → repA k = sh g.in0 ∧ repB k = sh g.in1)

/-- The rule reads the operands' shares, and the share in place at an AND. -/
theorem shareRule_congr {g : Gate} {r r' : ℕ → AShareBundle} {old old' : AShareBundle}
    (hr : ∀ w ∈ g.srcs, r w = r' w) (hold : g.isAnd = true → old = old') :
    shareRule g r old = shareRule g r' old' := by
  cases hop : g.op <;> simp_all [shareRule, Gate.srcs, Gate.isAnd]

/-- A machine whose slots hold shares, re-propagated by `shareRule`, computes `sh`. -/
theorem solves_shares {G V : Type} {M : Machine gateLayout G V} (share : V → AShareBundle)
    (hM : ∀ g s r v, share (M.step g s r v).2 = shareRule g (fun w => share (r w)) (share v))
    {f p : ℕ → V} {sh lg repA repB : ℕ → AShareBundle} {gs : List Gate} {n : ℕ} {s : G}
    (hcan : CanonicalStream n gs) (hsolves : M.Solves f p s gs)
    (hsh : ForGates (ShareEqs sh lg repA repB) 0 gs) (hlt : ∀ w < n, share (f w) = sh w)
    (hand : ∀ g ∈ gs, g.isAnd = true → share (p g.out) = sh g.out) :
    ∀ w < n + gs.length, share (f w) = sh w := by
  have hfs : ∀ (gs : List Gate) (k : ℕ) (s : G), M.Solves f p s gs →
      (∀ g ∈ gs, g.isAnd = true → share (p g.out) = sh g.out) →
      ForGates (fun _ g => share (f g.out) = shareRule g (fun w => share (f w)) (sh g.out)) k gs := by
    intro gs
    induction gs with
    | nil =>
      intro k s _ _
      exact trivial
    | cons g gs ih =>
      intro k s hs hand
      obtain ⟨hg, hrest⟩ := hs
      refine ⟨?_, ih _ _ hrest fun g' hg' => hand g' (List.mem_cons_of_mem _ hg')⟩
      change share (f (gateLayout.dst g)) = _
      rw [hg, hM]
      exact shareRule_congr (fun _ _ => rfl) (hand g List.mem_cons_self)
  refine ForGates.run (fun k g hR hread => ?_) hcan ((hfs gs 0 s hsolves hand).and hsh) hlt
  obtain ⟨hf, hs, -⟩ := hR
  rw [hf, shareRule_congr hread fun _ => rfl]
  cases hop : g.isAnd with
  | true => cases hg : g.op <;> simp_all [shareRule, Gate.isAnd]
  | false =>
    conv_rhs => rw [hs]
    exact shareRule_congr (fun _ _ => rfl) fun h => absurd (hop.symm.trans h) (by decide)

/-! ### The slot/mask pass -/

/-- The buffer of fresh masks holds the next COT outputs: AND `k` of the run gets output `u + k`. -/
structure LgOk (cot : ℕ → AShareBundle) (u base : ℕ) (s : MaskGlobals) : Prop where
  buf : ∀ i < s.lgSize, s.lgBuf i = cot (base + i)
  off : base + s.lgOff = u + s.ai
  size : base + s.lgSize = s.pool.used
  le : s.lgOff ≤ s.lgSize

/-- `next_lambda_gamma` returns the COT output of the AND. -/
theorem LgOk.next {cot : ℕ → AShareBundle} {u base : ℕ} {s : MaskGlobals} (h : LgOk cot u base s) :
    (s.nextLambdaGamma cot).1 = cot (u + s.ai) ∧
      ∃ base', LgOk cot u base' { (s.nextLambdaGamma cot).2 with ai := s.ai + 1 } := by
  have hoff := h.off
  have hsize := h.size
  have hle := h.le
  unfold MaskGlobals.nextLambdaGamma
  by_cases hempty : s.lgSize ≤ s.lgOff
  · -- the buffer is used up: the next COT output is the first of a new one
    simp only [if_pos hempty, TriplePool.draw, TriplePool.genCotShares]
    refine ⟨?_, s.pool.used, ⟨fun i _ => rfl, ?_, rfl, ?_⟩⟩
    · rw [show s.pool.used + 0 = u + s.ai by omega]
    · simp only
      omega
    · exact (show 0 + 1 ≤ kLgBatch by decide)
  · simp only [if_neg hempty]
    refine ⟨?_, base, ⟨h.buf, ?_, h.size, ?_⟩⟩
    · rw [h.buf _ (by omega), hoff]
    · simp only
      omega
    · simp only
      omega

/-- `next_lambda_gamma` touches neither the operand shares nor the AND index. -/
theorem nextLambdaGamma_rest (cot : ℕ → AShareBundle) (s : MaskGlobals) :
    (s.nextLambdaGamma cot).2.repA = s.repA ∧ (s.nextLambdaGamma cot).2.repB = s.repB ∧
      (s.nextLambdaGamma cot).2.ai = s.ai := by
  unfold MaskGlobals.nextLambdaGamma
  split <;> exact ⟨rfl, rfl, rfl⟩

section

variable (cot : ℕ → AShareBundle) {g : Gate} (s : MaskGlobals) (r : ℕ → MaskSlot)

/-- A gate that is not an AND leaves the other data alone. -/
theorem slotMaskGate_of_not_and (h : g.isAnd = false) : (slotMaskGate cot g s r).1 = s := by
  cases hg : g.op <;> simp_all [slotMaskGate, Gate.isAnd]

/-- An AND records its operands' shares. -/
theorem slotMaskGate_and (h : g.isAnd = true) :
    (slotMaskGate cot g s r).1.ai = s.ai + 1 ∧
      (slotMaskGate cot g s r).1.repA = Function.update s.repA s.ai (r g.in0).share ∧
      (slotMaskGate cot g s r).1.repB = Function.update s.repB s.ai (r g.in1).share := by
  have hop : g.op = .And := Gate.op_of_isAnd h
  obtain ⟨hA, hB, hai⟩ := nextLambdaGamma_rest cot { s with
    repA := Function.update s.repA s.ai (r g.in0).share
    repB := Function.update s.repB s.ai (r g.in1).share }
  simp only [slotMaskGate, hop]
  exact ⟨congrArg (· + 1) hai, hA, hB⟩

/-- An AND's output gets the next COT output. -/
theorem slotMaskGate_and_lg {u base : ℕ} (hlg : LgOk cot u base s) (h : g.isAnd = true) :
    (slotMaskGate cot g s r).2 = ⟨cot (u + s.ai), 0⟩ ∧
      ∃ base', LgOk cot u base' (slotMaskGate cot g s r).1 := by
  have hop : g.op = .And := Gate.op_of_isAnd h
  have hlg' : LgOk cot u base { s with
      repA := Function.update s.repA s.ai (r g.in0).share
      repB := Function.update s.repB s.ai (r g.in1).share } := ⟨hlg.buf, hlg.off, hlg.size, hlg.le⟩
  obtain ⟨hval, base', hnext⟩ := hlg'.next
  obtain ⟨-, -, hai⟩ := nextLambdaGamma_rest cot { s with
    repA := Function.update s.repA s.ai (r g.in0).share
    repB := Function.update s.repB s.ai (r g.in1).share }
  simp only [slotMaskGate, hop, hval, hai]
  exact ⟨trivial, base', hnext⟩

end

section

variable {cot : ℕ → AShareBundle} {f p : ℕ → MaskSlot}

/-- The AND index counts the ANDs, and the operand shares of earlier ANDs stay. -/
theorem slotMask_globals (gs : List Gate) : ∀ s : MaskGlobals,
    ((slotMaskMachine cot).globals f p s gs).ai = s.ai + countAnds gs ∧
      ∀ j < s.ai, ((slotMaskMachine cot).globals f p s gs).repA j = s.repA j ∧
        ((slotMaskMachine cot).globals f p s gs).repB j = s.repB j := by
  induction gs with
  | nil =>
    intro s
    exact ⟨rfl, fun _ _ => ⟨rfl, rfl⟩⟩
  | cons g gs ih =>
    intro s
    have hcount := nextAnd_add_countAnds s.ai g gs
    obtain ⟨hai, hrep⟩ := ih (slotMaskGate cot g s f).1
    rw [Machine.globals]
    change ((slotMaskMachine cot).globals f p (slotMaskGate cot g s f).1 gs).ai = _ ∧ ∀ j < s.ai,
      ((slotMaskMachine cot).globals f p (slotMaskGate cot g s f).1 gs).repA j = _ ∧
        ((slotMaskMachine cot).globals f p (slotMaskGate cot g s f).1 gs).repB j = _
    cases hand : g.isAnd with
    | false =>
      have heq := slotMaskGate_of_not_and cot s f hand
      rw [heq] at hai hrep ⊢
      rw [nextAnd, hand] at hcount
      exact ⟨hai.trans hcount, hrep⟩
    | true =>
      obtain ⟨hai', hA, hB⟩ := slotMaskGate_and cot s f hand
      rw [nextAnd, hand, if_pos rfl] at hcount
      refine ⟨by rw [hai, hai', hcount], fun j hj => ?_⟩
      obtain ⟨h₁, h₂⟩ := hrep j (by omega)
      rw [h₁, h₂, hA, hB, Function.update_of_ne (by omega), Function.update_of_ne (by omega)]
      exact ⟨rfl, rfl⟩

/-- **The slot/mask pass**: its final shares solve the share equations, with the COT outputs from the
pool's position on as the fresh masks. -/
theorem slotMask_eqs {u base : ℕ} {s : MaskGlobals} {gs : List Gate} (hlg : LgOk cot u base s)
    (hsolves : (slotMaskMachine cot).Solves f p s gs) :
    ForGates (ShareEqs (fun w => (f w).share) (fun k => cot (u + k))
      ((slotMaskMachine cot).globals f p s gs).repA ((slotMaskMachine cot).globals f p s gs).repB) s.ai gs := by
  generalize hfinal : (slotMaskMachine cot).globals f p s gs = final
  refine forGates_of_solves (slotMaskMachine cot) MaskGlobals.ai (fun _ => True)
    (fun s gs => (∃ base, LgOk cot u base s) ∧ (slotMaskMachine cot).globals f p s gs = final) ?_
    (fun _ _ => trivial) ⟨⟨base, hlg⟩, hfinal⟩ hsolves
  rintro g gs s - ⟨⟨base, hlg⟩, hfinal⟩ hg
  rw [Machine.globals] at hfinal
  change (slotMaskMachine cot).globals f p (slotMaskGate cot g s f).1 gs = final at hfinal
  change f g.out = (slotMaskGate cot g s f).2 at hg
  change _ ∧ (slotMaskGate cot g s f).1.ai = _ ∧ (∃ base, LgOk cot u base (slotMaskGate cot g s f).1) ∧
    (slotMaskMachine cot).globals f p (slotMaskGate cot g s f).1 gs = final
  cases hand : g.isAnd with
  | false =>
    have heq := slotMaskGate_of_not_and cot s f hand
    refine ⟨⟨?_, fun h => by rw [hand] at h; cases h⟩, by rw [heq, nextAnd, hand]; rfl,
      ⟨base, by rwa [heq]⟩, hfinal⟩
    change (f g.out).share = _
    rw [hg]
    cases hop : g.op <;> simp_all [slotMaskGate, shareRule, Gate.isAnd]
  | true =>
    obtain ⟨hai, hA, hB⟩ := slotMaskGate_and cot s f hand
    obtain ⟨hslot, base', hlg'⟩ := slotMaskGate_and_lg cot s f hlg hand
    obtain ⟨h₁, h₂⟩ := (slotMask_globals (f := f) (p := p) gs (slotMaskGate cot g s f).1).2 s.ai
      (by omega)
    rw [hfinal, hA, Function.update_self] at h₁
    rw [hfinal, hB, Function.update_self] at h₂
    refine ⟨⟨?_, fun _ => ⟨h₁, h₂⟩⟩, by rw [hai, nextAnd, hand, if_pos rfl], ⟨base', hlg'⟩, hfinal⟩
    change (f g.out).share = _
    rw [hg, hslot]
    cases hop : g.op <;> simp_all [shareRule, Gate.isAnd]

end

/-- The parts of the data that decide how many COTs are drawn. -/
def SameDraws (s s' : MaskGlobals) : Prop :=
  s.pool = s'.pool ∧ s.lgSize = s'.lgSize ∧ s.lgOff = s'.lgOff

/-- How many COTs a gate draws does not depend on the shares. -/
theorem SameDraws.gate {cot cot' : ℕ → AShareBundle} {s s' : MaskGlobals} (h : SameDraws s s') (g : Gate)
    (r r' : ℕ → MaskSlot) : SameDraws (slotMaskGate cot g s r).1 (slotMaskGate cot' g s' r').1 := by
  obtain ⟨hpool, hsize, hoff⟩ := h
  cases hg : g.op with
  | And =>
    simp only [slotMaskGate, hg, MaskGlobals.nextLambdaGamma, hsize, hoff, hpool]
    split
    · exact ⟨rfl, rfl, rfl⟩
    · exact ⟨rfl, rfl, rfl⟩
  | Xor => simpa [slotMaskGate, hg] using ⟨hpool, hsize, hoff⟩
  | Not => simpa [slotMaskGate, hg] using ⟨hpool, hsize, hoff⟩
  | Const0 => simpa [slotMaskGate, hg] using ⟨hpool, hsize, hoff⟩
  | Const1 => simpa [slotMaskGate, hg] using ⟨hpool, hsize, hoff⟩

/-- Nor does the number of COTs drawn in a run. -/
theorem SameDraws.run {cot cot' : ℕ → AShareBundle} {phys phys' : ℕ → ℕ} (gs : List Gate) :
    ∀ {s s' : MaskGlobals} (m m' : ℕ → MaskSlot), SameDraws s s' →
      SameDraws ((slotMaskMachine cot).run phys gs (s, m)).1 ((slotMaskMachine cot').run phys' gs (s', m')).1 := by
  induction gs with
  | nil =>
    intro s s' m m' h
    exact h
  | cons g gs ih =>
    intro s s' m m' h
    exact ih _ _ (h.gate g _ _)

/-- A gate stream as a source records it. -/
abbrev Body.stream {α : Type} (b : Body α) (n : ℕ) : List Gate := (b.record n none none).1

/-- The output wires as a source returns them. -/
abbrev Body.outs {α : Type} (b : Body α) (n : ℕ) : α := (b.record n none none).2

/-- What passes 0 and 1 leave: `sh` are the shares of all wires, those of the wires that persist being
in their slots. -/
structure PreparedSpec (cot : ℕ → AShareBundle) (w : SecureWires) (u : ℕ) (gs : List Gate)
    (outs : List ℕ) (P : Prepared) (sh : ℕ → AShareBundle) : Prop where
  outIds : P.outIds = outs
  phys : P.phys = (streamAlloc w.size gs outs).phys
  physInput : ∀ i < w.size, P.phys i = i
  numAnds : P.numAnds = countAnds gs
  shares : ∀ i, Persistent w.size gs outs i → (P.mem (P.phys i)).share = sh i
  input : ∀ i < w.size, sh i = w.bundleAt i
  mask : ∀ i < w.size, (P.mem (P.phys i)).mask = w.lambdaAt i
  eqs : ForGates (ShareEqs sh (fun k => cot (u + k)) P.repA P.repB) 0 gs

section

variable {cot : ℕ → AShareBundle} {w : SecureWires} {pool : TriplePool} {source : Body (List ℕ)}

/-- Passes 0 and 1 in terms of the recorded stream. -/
theorem prepare_eq (h : CanonicalStream w.size (source.stream w.size)) :
    let gs := source.stream w.size
    let A := streamAlloc w.size gs (source.outs w.size)
    let r := (slotMaskMachine cot).run A.phys gs ({ pool := pool }, loadInputs w)
    prepare cot w pool source =
      { outIds := source.outs w.size, phys := A.phys, numSlots := A.numSlots, numAnds := r.1.ai
        mem := r.2, repA := r.1.repA, repB := r.1.repB, pool := r.1.pool } := by
  intro gs A r
  have hlive : (livenessPass.runSource w.size source (.start w.size)).2.s =
      gs.foldl livenessPass.step (.start w.size) := by
    rw [Pass.runSource_eq livenessPass livenessPass.step source w.size _ livenessPass_normalize]
  obtain ⟨houts, -, hwid⟩ := livenessPass.run_eq source ⟨w.size, none, none, .start w.size⟩
  have hlv : (livenessPass.runSource w.size source (.start w.size)).2.s.commit
      (livenessPass.runSource w.size source (.start w.size)).2.wid
      (livenessPass.runSource w.size source (.start w.size)).1 =
        streamLiveness w.size gs (source.outs w.size) := by
    rw [hlive, streamLiveness]
    unfold Pass.runSource
    rw [houts, hwid]
  unfold prepare
  dsimp only
  rw [hlv, Pass.runSource_eq (slotMaskPass cot _ _) (SlotMask.gate cot _ _) source w.size _
    (slotMaskPass_step cot _ _), slotMask_run cot gs _ h (allocOk_start _) (readsCovered_stream h) rfl]
  congr 1

variable (cot w pool source) in
/-- The share of a wire as pass 1 writes it. -/
def shareOf (i : ℕ) : AShareBundle :=
  ((slotMaskMachine cot).written (prepare cot w pool source).phys w.size (source.stream w.size)
    ({ pool := pool }, loadInputs w) i).share

/-- **Passes 0 and 1 of a party.** -/
theorem prepare_spec (h : CanonicalStream w.size (source.stream w.size)) :
    ∃ sh, PreparedSpec cot w pool.used (source.stream w.size) (source.outs w.size)
        (prepare cot w pool source) sh ∧
      ∀ i < w.size + (source.stream w.size).length, shareOf cot w pool source i = sh i := by
  have hsafe := safe_streamAlloc (source.outs w.size) h
  obtain ⟨f, hsolves, hglobals, hmem, hlt, hwritten⟩ := machine_spec (slotMaskMachine cot)
    (source.outs w.size) h ({ pool := pool }, loadInputs w)
  unfold shareOf
  rw [prepare_eq h]
  have hlg : LgOk cot pool.used pool.used { pool := pool } :=
    ⟨fun i hi => absurd hi (Nat.not_lt_zero i), rfl, rfl, Nat.le_refl _⟩
  refine ⟨fun i => (f i).share, ⟨rfl, rfl, hsafe.2.1, ?_, ?_, ?_, ?_, ?_⟩,
    fun i hi => congrArg MaskSlot.share (hwritten i hi)⟩
  · rw [hglobals, (slotMask_globals _ _).1]
    exact Nat.zero_add _
  · intro i hi
    exact congrArg MaskSlot.share (hmem i hi)
  · intro i hi
    exact congrArg MaskSlot.share (hlt i hi)
  · intro i hi
    exact congrArg MaskSlot.mask ((hmem i (persistent_input h hi)).trans (hlt i hi))
  · have heqs := slotMask_eqs hlg hsolves
    rw [← hglobals] at heqs
    exact heqs

/-- The mask the slot/mask pass leaves at a gate's output. -/
def freshMask (g : Gate) : UInt8 :=
  match g.op with
  | .Const1 => 1
  | _ => 0

theorem slotMaskGate_mask (g : Gate) (s : MaskGlobals) (r : ℕ → MaskSlot) :
    (slotMaskGate cot g s r).2.mask = freshMask g := by
  cases hop : g.op <;> simp [slotMaskGate, freshMask, hop]

/-- **The masks after passes 0 and 1**: those of the inputs are the opened ones, those of the gates are reset. -/
theorem prepare_masks (h : CanonicalStream w.size (source.stream w.size)) :
    ∃ mk : ℕ → UInt8,
      (∀ i, Persistent w.size (source.stream w.size) (source.outs w.size) i →
        ((prepare cot w pool source).mem ((prepare cot w pool source).phys i)).mask = mk i) ∧
      (∀ i < w.size, mk i = w.lambdaAt i) ∧
      ForGates (fun _ g => mk g.out = freshMask g) 0 (source.stream w.size) := by
  obtain ⟨f, hsolves, -, hmem, hlt, -⟩ := machine_spec (slotMaskMachine cot) (source.outs w.size) h
    ({ pool := pool }, loadInputs w)
  rw [prepare_eq h]
  refine ⟨fun i => (f i).mask, fun i hi => congrArg MaskSlot.mask (hmem i hi),
    fun i hi => congrArg MaskSlot.mask (hlt i hi), ?_⟩
  have hfresh : ∀ (gs : List Gate) (p : ℕ → MaskSlot) (s : MaskGlobals) (k : ℕ),
      (slotMaskMachine cot).Solves f p s gs → ForGates (fun _ g => (f g.out).mask = freshMask g) k gs := by
    intro gs p
    induction gs with
    | nil =>
      intro s k _
      exact trivial
    | cons g gs ih =>
      intro s k hs
      obtain ⟨hg, hrest⟩ := hs
      exact ⟨(congrArg MaskSlot.mask hg).trans (slotMaskGate_mask g _ _), ih _ _ hrest⟩
  exact hfresh _ _ _ _ hsolves

/-- Two parties that start with equal pools end passes 0 and 1 with equal pools. -/
theorem prepare_pool {cot' : ℕ → AShareBundle} {w' : SecureWires} (hsize : w'.size = w.size)
    (h : CanonicalStream w.size (source.stream w.size)) :
    (prepare cot w pool source).pool = (prepare cot' w' pool source).pool := by
  rw [prepare_eq h, prepare_eq (hsize ▸ h)]
  dsimp only
  rw [hsize]
  exact (SameDraws.run _ _ _ ⟨rfl, rfl, rfl⟩).1

end

end AG2PC
