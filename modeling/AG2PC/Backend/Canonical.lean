import AG2PC.Backend.Circuit

/-!
# Record-canonical programs

`canonical.h` accepts a stored program when its wire numbers are those a recorder hands out. Then
the replay of the program makes a fresh context emit the program's own gates under the program's own
wire ids.

* `recordCanonical_of_check` — what the check accepts is a canonical stream with outputs in range.
* `record_executeProgram` — replaying such a program records it.
* `Body.record_canonical` — what a live body records is a canonical stream.
-/

namespace AG2PC

open Library.SlotReuse

/-! ### Streams -/

/-- Clearing unused operand fields keeps a stream canonical. -/
theorem canonicalStream_normalize {n : ℕ} {gs : List Gate} (h : CanonicalStream n gs) :
    CanonicalStream n (gs.map Gate.normalize) := by
  induction gs generalizing n with
  | nil => exact trivial
  | cons g gs ih =>
    obtain ⟨hout, hsrcs, hrest⟩ := canonicalStream_cons.mp h
    refine canonicalStream_cons.mpr ⟨(Gate.normalize_out g).trans hout, ?_, ih hrest⟩
    rwa [Gate.normalize_srcs]

/-- A gate of a canonical stream writes and reads wires of the stream. -/
theorem canonicalStream_lt {n : ℕ} {gs : List Gate} (h : CanonicalStream n gs) {g : Gate} (hg : g ∈ gs) :
    g.out < n + gs.length ∧ ∀ w ∈ g.srcs, w < n + gs.length := by
  induction gs generalizing n with
  | nil => cases hg
  | cons g' gs ih =>
    obtain ⟨hout, hsrcs, hrest⟩ := canonicalStream_cons.mp h
    rw [List.length_cons]
    rcases List.mem_cons.mp hg with rfl | hg
    · refine ⟨by omega, fun w hw => ?_⟩
      have := hsrcs w hw
      omega
    · obtain ⟨hlt, hreads⟩ := ih hrest hg
      refine ⟨by omega, fun w hw => ?_⟩
      have := hreads w hw
      omega

/-- A gate of a canonical stream writes no input. -/
theorem canonicalStream_le {n : ℕ} {gs : List Gate} (h : CanonicalStream n gs) {g : Gate} (hg : g ∈ gs) :
    n ≤ g.out := by
  induction gs generalizing n with
  | nil => cases hg
  | cons g' gs ih =>
    obtain ⟨hout, -, hrest⟩ := canonicalStream_cons.mp h
    rcases List.mem_cons.mp hg with rfl | hg
    · exact Nat.le_of_eq hout.symm
    · exact Nat.le_of_succ_le (ih hrest hg)

/-- A stream is canonical when gate `i` writes `n + i` and reads smaller wires. -/
theorem canonicalStream_of_getD {gs : List Gate} {d : Gate} : ∀ {n : ℕ},
    (∀ i < gs.length, (gs.getD i d).out = n + i ∧ ∀ w ∈ (gs.getD i d).srcs, w < n + i) →
      CanonicalStream n gs := by
  induction gs with
  | nil =>
    intro n _
    exact trivial
  | cons g gs ih =>
    intro n h
    obtain ⟨hout, hsrcs⟩ := h 0 (Nat.succ_pos _)
    refine canonicalStream_cons.mpr ⟨hout, hsrcs, ih fun i hi => ?_⟩
    have hi' := h (i + 1) (Nat.succ_lt_succ hi)
    rw [List.getD_cons_succ, ← Nat.add_assoc, Nat.add_right_comm] at hi'
    exact hi'

/-- Clearing unused operand fields changes no value. -/
theorem evalGates_normalize (v : ℕ → Bool) (gs : List Gate) :
    evalGates v (gs.map Gate.normalize) = evalGates v gs := by
  induction gs generalizing v with
  | nil => rfl
  | cons g gs ih =>
    rw [List.map_cons, evalGates_cons, evalGates_cons, ih, Gate.normalize_out, Gate.normalize_value]

/-- Nor the number of ANDs. -/
theorem countAnds_normalize (gs : List Gate) : countAnds (gs.map Gate.normalize) = countAnds gs := by
  unfold countAnds
  rw [List.countP_map]
  refine List.countP_congr fun g _ => ?_
  obtain ⟨i0, i1, o, op⟩ := g
  cases op <;> rfl

/-- Gates of a canonical stream leave the earlier wires alone. -/
theorem evalGates_of_lt {n : ℕ} {gs : List Gate} (h : CanonicalStream n gs) (v : ℕ → Bool) {w : ℕ}
    (hw : w < n) : evalGates v gs w = v w := by
  induction gs generalizing n v with
  | nil => rfl
  | cons g gs ih =>
    obtain ⟨hout, -, hrest⟩ := canonicalStream_cons.mp h
    have hne : w ≠ g.out := by omega
    rw [evalGates_cons, ih hrest _ (by omega), Function.update_of_ne hne]

/-- In a canonical stream the final value of a gate's wire is the gate's value at the end. -/
theorem evalGates_out {n : ℕ} {g : Gate} {gs : List Gate} (h : CanonicalStream n (g :: gs))
    (v : ℕ → Bool) : evalGates v (g :: gs) g.out = g.value (evalGates v (g :: gs)) := by
  obtain ⟨hout, hsrcs, hrest⟩ := canonicalStream_cons.mp h
  rw [evalGates_cons, evalGates_of_lt hrest _ (by omega), Function.update_self]
  refine Gate.value_congr fun w hw => ?_
  have hwn : w < n := hsrcs w hw
  rw [evalGates_of_lt hrest _ (by omega), Function.update_of_ne (by omega)]

/-! ### The check -/

/-- Where gate `i` writes `n + i`, reading only defined wires is reading smaller ones. -/
theorem canonicalStream_of_defines {lo hi : ℕ} (gs : List Gate) :
    ∀ (n : ℕ) (defined : List ℕ), (∀ w ∈ defined, w < n) → lo ≤ n →
      (∀ i < gs.length, (gs.map Gate.out).getD i 0 = n + i) → definesBeforeUse lo hi defined gs = true →
      CanonicalStream n gs := by
  induction gs with
  | nil =>
    intro n defined _ _ _ _
    exact trivial
  | cons g gs ih =>
    intro n defined hdef hlo hout huse
    have hg : g.out = n := hout 0 (Nat.succ_pos _)
    rw [definesBeforeUse, Bool.and_eq_true, Bool.and_eq_true, Bool.and_eq_true, List.all_eq_true] at huse
    obtain ⟨⟨⟨hsrcs, -⟩, -⟩, hrest⟩ := huse
    refine ⟨hg, fun w hw => ?_, ih (n + 1) (g.out :: defined) ?_ (by omega) ?_ hrest⟩
    · have hw' := hsrcs w hw
      simp only [Bool.or_eq_true, decide_eq_true_eq] at hw'
      rcases hw' with hlt | hmem
      · exact Nat.lt_of_lt_of_le hlt hlo
      · exact hdef w hmem
    · intro w hw
      rcases List.mem_cons.mp hw with rfl | hmem
      · exact hg ▸ Nat.lt_succ_self _
      · exact Nat.lt_succ_of_lt (hdef w hmem)
    · intro i hi
      have h := hout (i + 1) (Nat.succ_lt_succ hi)
      rw [List.map_cons, List.getD_cons_succ] at h
      omega

/-- A run of checks that succeeds has passed the first. -/
theorem bind_eq_ok {ε α β : Type} {x : Except ε α} {f : α → Except ε β} {b : β}
    (h : (x >>= f) = .ok b) : ∃ a, x = .ok a ∧ f a = .ok b := by
  cases x with
  | error e => cases h
  | ok a => exact ⟨a, rfl, h⟩

/-- One that fails has failed in its first part or after it. -/
theorem bind_eq_error {ε α β : Type} {x : Except ε α} {f : α → Except ε β} {e : ε} (h : (x >>= f) = .error e) :
    x = .error e ∨ ∃ a, x = .ok a ∧ f a = .error e := by
  cases x with
  | error e' =>
    cases h
    exact .inl rfl
  | ok a => exact .inr ⟨a, rfl, h⟩

/-- **What the engine accepts.** -/
theorem recordCanonical_of_check {p : BooleanProgram} (h : ag2pcRequireRecordCanonical p = .ok ()) :
    RecordCanonical p := by
  obtain ⟨_, hvalid, hcheck⟩ := bind_eq_ok h
  obtain ⟨hwires, huse, houts⟩ : p.numWires = p.numInputs + p.gates.length ∧
      definesBeforeUse p.numInputs p.numWires [] p.gates ∧ ∀ w ∈ p.outputs, w < p.numWires := by
    unfold validateProgram at hvalid
    by_contra hno
    rw [if_neg hno] at hvalid
    cases hvalid
  by_cases hany : ((List.range p.gates.length).any fun i =>
      (p.gates.map Gate.out).getD i 0 != p.numInputs + i) = true
  · rw [if_pos hany] at hcheck
    cases hcheck
  rw [if_neg hany] at hcheck
  by_cases hdup : 1 < p.gates.countP (fun g => g.op == .Const0) ∨
      1 < p.gates.countP (fun g => g.op == .Const1)
  · rw [if_pos hdup] at hcheck
    cases hcheck
  have hout : ∀ i < p.gates.length, (p.gates.map Gate.out).getD i 0 = p.numInputs + i := by
    intro i hi
    by_contra hne
    exact hany (List.any_eq_true.mpr ⟨i, List.mem_range.mpr hi, by simpa using hne⟩)
  refine ⟨canonicalStream_of_defines p.gates p.numInputs [] (by simp) (Nat.le_refl _) hout huse, ?_,
    hwires, by omega, by omega⟩
  intro w hw
  exact hwires ▸ houts w hw

/-- A canonical stream reads only what is defined. -/
theorem definesBeforeUse_of_canonical {lo hi : ℕ} (gs : List Gate) :
    ∀ (n : ℕ) (defined : List ℕ), CanonicalStream n gs → lo ≤ n → n + gs.length ≤ hi →
      (∀ w, lo ≤ w → w < n → w ∈ defined) → (∀ w ∈ defined, w < n) →
      definesBeforeUse lo hi defined gs = true := by
  induction gs with
  | nil =>
    intro n defined _ _ _ _ _
    rfl
  | cons g gs ih =>
    intro n defined hcan hlo hhi hall hlt
    obtain ⟨hout, hsrcs, hrest⟩ := canonicalStream_cons.mp hcan
    rw [List.length_cons] at hhi
    rw [definesBeforeUse, Bool.and_eq_true, Bool.and_eq_true, Bool.and_eq_true, List.all_eq_true]
    refine ⟨⟨⟨fun w hw => ?_, ?_⟩, ?_⟩, ih (n + 1) _ hrest (by omega) (by omega) ?_ ?_⟩
    · simp only [Bool.or_eq_true, decide_eq_true_eq]
      by_cases hwlo : w < lo
      · exact .inl hwlo
      · exact .inr (hall w (by omega) (hsrcs w hw))
    · simp only [Bool.and_eq_true, decide_eq_true_eq]
      omega
    · simp only [Bool.not_eq_true', decide_eq_false_iff_not]
      intro hmem
      have := hlt _ hmem
      omega
    · intro w hw hwn
      rcases Nat.lt_succ_iff_lt_or_eq.mp hwn with h | rfl
      · exact List.mem_cons_of_mem _ (hall w hw h)
      · exact hout ▸ List.mem_cons_self
    · intro w hw
      rcases List.mem_cons.mp hw with rfl | hmem
      · omega
      · exact Nat.lt_succ_of_lt (hlt w hmem)

/-- Gate `i` of a canonical stream writes wire `n + i`. -/
theorem canonicalStream_out {gs : List Gate} : ∀ {n : ℕ}, CanonicalStream n gs → ∀ i < gs.length,
    (gs.map Gate.out).getD i 0 = n + i := by
  induction gs with
  | nil =>
    intro n _ i hi
    exact absurd hi (Nat.not_lt_zero i)
  | cons g gs ih =>
    intro n h i hi
    obtain ⟨hout, -, hrest⟩ := canonicalStream_cons.mp h
    cases i with
    | zero => exact hout
    | succ i =>
      have h := ih hrest i (Nat.lt_of_succ_lt_succ hi)
      rw [List.map_cons, List.getD_cons_succ, h]
      omega

/-- A canonical program with outputs in range is valid. -/
theorem validateProgram_of_recordCanonical {p : BooleanProgram} (h : RecordCanonical p) :
    validateProgram p = .ok () := by
  unfold validateProgram
  refine if_pos ⟨h.wires, ?_, fun w hw => h.wires ▸ h.outputs w hw⟩
  exact definesBeforeUse_of_canonical p.gates _ [] h.stream (Nat.le_refl _) (Nat.le_of_eq h.wires.symm)
    (fun w h₁ h₂ => absurd h₂ (Nat.not_lt_of_le h₁)) (by simp)

/-- **The check accepts every record-canonical program.** -/
theorem check_of_recordCanonical {p : BooleanProgram} (h : RecordCanonical p) :
    ag2pcRequireRecordCanonical p = .ok () := by
  unfold ag2pcRequireRecordCanonical
  rw [validateProgram_of_recordCanonical h]
  have hout : ¬ ((List.range p.gates.length).any fun i =>
      (p.gates.map Gate.out).getD i 0 != p.numInputs + i) = true := by
    intro hany
    obtain ⟨i, hi, hne⟩ := List.any_eq_true.mp hany
    rw [canonicalStream_out h.stream i (List.mem_range.mp hi)] at hne
    simp at hne
  have hdup : ¬ (1 < p.gates.countP (fun g => g.op == .Const0) ∨
      1 < p.gates.countP (fun g => g.op == .Const1)) := by
    have h0 := h.const0
    have h1 := h.const1
    omega
  change (if _ then _ else if _ then _ else _) = _
  rw [if_neg hout, if_neg hdup]

/-! ### Recording -/

/-- The gates a body records form a canonical stream. -/
theorem Body.record_canonical {α : Type} (b : Body α) :
    ∀ (wid : ℕ) (c0 c1 : Option ℕ), b.WellScoped wid c0 c1 →
      CanonicalStream wid (b.record wid c0 c1).1 := by
  induction b with
  | done a =>
    intro wid c0 c1 _
    exact trivial
  | publicBit v k ih =>
    intro wid c0 c1 h
    cases v with
    | false =>
      cases c0 with
      | some c => exact ih c wid _ _ h
      | none => exact ⟨rfl, by simp [gateLayout, Gate.srcs], ih wid _ _ _ h⟩
    | true =>
      cases c1 with
      | some c => exact ih c wid _ _ h
      | none => exact ⟨rfl, by simp [gateLayout, Gate.srcs], ih wid _ _ _ h⟩
  | andGate x y k ih =>
    intro wid c0 c1 h
    obtain ⟨hx, hy, hk⟩ := h
    exact ⟨rfl, by simp [gateLayout, Gate.srcs, hx, hy], ih wid _ _ _ hk⟩
  | xorGate x y k ih =>
    intro wid c0 c1 h
    obtain ⟨hx, hy, hk⟩ := h
    exact ⟨rfl, by simp [gateLayout, Gate.srcs, hx, hy], ih wid _ _ _ hk⟩
  | notGate x k ih =>
    intro wid c0 c1 h
    obtain ⟨hx, hk⟩ := h
    exact ⟨rfl, by simp [gateLayout, Gate.srcs, hx], ih wid _ _ _ hk⟩

/-- A constant of the stream is emitted at its first request. -/
theorem countP_const {op : Op} {g : Gate} {gs : List Gate} {c : Option ℕ}
    (h : (g :: gs).countP (fun g => g.op == op) ≤ if c = none then 1 else 0) (hg : g.op = op) :
    c = none ∧ gs.countP (fun g => g.op == op) = 0 := by
  rw [List.countP_cons_of_pos (by simp [hg])] at h
  split at h
  · next hc => exact ⟨hc, by omega⟩
  · omega

/-- Replaying a canonical stream over an identity scratch records the stream. -/
theorem record_replayGates (gs : List Gate) (outs : List ℕ) :
    ∀ (n : ℕ) (ws : ℕ → ℕ) (c0 c1 : Option ℕ), CanonicalStream n gs → (∀ w < n, ws w = w) →
      gs.countP (fun g => g.op == .Const0) ≤ (if c0 = none then 1 else 0) →
      gs.countP (fun g => g.op == .Const1) ≤ (if c1 = none then 1 else 0) →
      ∃ ws' : ℕ → ℕ, (∀ w < n + gs.length, ws' w = w) ∧
        (replayGates gs ws fun ws => Body.done (outs.map ws)).record n c0 c1 =
          (gs.map Gate.normalize, outs.map ws') := by
  induction gs with
  | nil =>
    intro n ws c0 c1 _ hws _ _
    exact ⟨ws, hws, rfl⟩
  | cons g gs ih =>
    intro n ws c0 c1 hcan hws h0 h1
    obtain ⟨hout, hsrcs, hrest⟩ := canonicalStream_cons.mp hcan
    have hws' : ∀ w < n + 1, Function.update ws g.out n w = w := by
      intro w hw
      by_cases hwn : w = g.out
      · rw [hwn, Function.update_self, hout]
      · rw [Function.update_of_ne hwn]
        exact hws w (by omega)
    have hlen : n + 1 + gs.length = n + (g :: gs).length := by
      rw [List.length_cons]
      omega
    have hsub : ∀ op, gs.countP (fun g => g.op == op) ≤ (g :: gs).countP (fun g => g.op == op) := by
      intro op
      rw [List.countP_cons]
      omega
    have hread : ∀ w ∈ g.srcs, ws w = w := fun w hw => hws w (hsrcs w hw)
    obtain ⟨i0, i1, o, op⟩ := g
    simp only at hout
    subst hout
    cases op with
    | And =>
      obtain ⟨ws', hfin, hrec⟩ := ih (o + 1) _ c0 c1 hrest hws' (Nat.le_trans (hsub _) h0) (Nat.le_trans (hsub _) h1)
      refine ⟨ws', hlen ▸ hfin, ?_⟩
      have e0 : ws i0 = i0 := hread i0 (by simp [Gate.srcs])
      have e1 : ws i1 = i1 := hread i1 (by simp [Gate.srcs])
      simp only [replayGates, Body.record, hrec, e0, e1, List.map_cons]
      rfl
    | Xor =>
      obtain ⟨ws', hfin, hrec⟩ := ih (o + 1) _ c0 c1 hrest hws' (Nat.le_trans (hsub _) h0) (Nat.le_trans (hsub _) h1)
      refine ⟨ws', hlen ▸ hfin, ?_⟩
      have e0 : ws i0 = i0 := hread i0 (by simp [Gate.srcs])
      have e1 : ws i1 = i1 := hread i1 (by simp [Gate.srcs])
      simp only [replayGates, Body.record, hrec, e0, e1, List.map_cons]
      rfl
    | Not =>
      obtain ⟨ws', hfin, hrec⟩ := ih (o + 1) _ c0 c1 hrest hws' (Nat.le_trans (hsub _) h0) (Nat.le_trans (hsub _) h1)
      refine ⟨ws', hlen ▸ hfin, ?_⟩
      have e0 : ws i0 = i0 := hread i0 (by simp [Gate.srcs])
      simp only [replayGates, Body.record, hrec, e0, List.map_cons]
      rfl
    | Const0 =>
      obtain ⟨rfl, hzero⟩ := countP_const h0 rfl
      obtain ⟨ws', hfin, hrec⟩ := ih (o + 1) _ (some o) c1 hrest hws' (by simp [hzero]) (Nat.le_trans (hsub _) h1)
      refine ⟨ws', hlen ▸ hfin, ?_⟩
      simp only [replayGates, Body.record, hrec, List.map_cons]
      rfl
    | Const1 =>
      obtain ⟨rfl, hzero⟩ := countP_const h1 rfl
      obtain ⟨ws', hfin, hrec⟩ := ih (o + 1) _ c0 (some o) hrest hws' (Nat.le_trans (hsub _) h0) (by simp [hzero])
      refine ⟨ws', hlen ▸ hfin, ?_⟩
      simp only [replayGates, Body.record, hrec, List.map_cons]
      rfl

/-- **Replaying a record-canonical program records it**: the contexts see its own gates under its
own wire ids. -/
theorem record_executeProgram {p : BooleanProgram} (h : RecordCanonical p) :
    (executeProgram p).record p.numInputs none none = (p.gates.map Gate.normalize, p.outputs) := by
  obtain ⟨ws', hfin, hrec⟩ := record_replayGates p.gates p.outputs p.numInputs id none none h.stream
    (fun _ _ => rfl) h.const0 h.const1
  rw [executeProgram, hrec]
  refine congrArg _ (List.map_congr_left (fun w hw => hfin w (h.outputs w hw)) |>.trans ?_)
  exact List.map_id _

/-! ### Chunks -/

/-- Gates recorded one after another: outputs increase, operands are smaller than the output. -/
structure ChunkOrdered (gs : List Gate) : Prop where
  outs : (gs.map Gate.out).Pairwise (· < ·)
  srcs : ∀ g ∈ gs, ∀ w ∈ g.srcs, w < g.out

/-- A gate on top of the chunk. -/
theorem ChunkOrdered.snoc {gs : List Gate} {g : Gate} (h : ChunkOrdered gs) (hout : ∀ g' ∈ gs, g'.out < g.out)
    (hsrcs : ∀ w ∈ g.srcs, w < g.out) : ChunkOrdered (gs ++ [g]) := by
  refine ⟨?_, ?_⟩
  · rw [List.map_append, List.pairwise_append]
    refine ⟨h.outs, by simp, fun a ha b hb => ?_⟩
    obtain ⟨g', hg', rfl⟩ := List.mem_map.mp ha
    rw [List.map_cons, List.map_nil, List.mem_singleton] at hb
    exact hb ▸ hout g' hg'
  · intro g' hg'
    rcases List.mem_append.mp hg' with hg' | hg'
    · exact h.srcs g' hg'
    · obtain rfl := List.mem_singleton.mp hg'
      exact hsrcs

/-- The outputs of a chunk increase from gate to gate. -/
theorem ChunkOrdered.out_lt {gs : List Gate} (h : ChunkOrdered gs) {i j : ℕ} (hij : i < j) (hj : j < gs.length)
    {g : Gate} : (gs.getD i g).out < (gs.getD j g).out := by
  have hlen : (gs.map Gate.out).length = gs.length := List.length_map _
  have hlt := List.pairwise_iff_getElem.mp h.outs i j (by omega) (by omega) hij
  rw [List.getElem_map, List.getElem_map] at hlt
  rwa [List.getD_eq_getElem?_getD, List.getD_eq_getElem?_getD, List.getElem?_eq_getElem (by omega),
    List.getElem?_eq_getElem hj]

theorem chunkOrdered_cons {g : Gate} {gs : List Gate} :
    ChunkOrdered (g :: gs) ↔
      (∀ g' ∈ gs, g.out < g'.out) ∧ (∀ w ∈ g.srcs, w < g.out) ∧ ChunkOrdered gs := by
  constructor
  · rintro ⟨houts, hsrcs⟩
    rw [List.map_cons, List.pairwise_cons] at houts
    exact ⟨fun g' hg' => houts.1 _ (List.mem_map_of_mem hg'), hsrcs g List.mem_cons_self,
      houts.2, fun g' hg' => hsrcs g' (List.mem_cons_of_mem _ hg')⟩
  · rintro ⟨hlt, hsrcs, houts, hrest⟩
    refine ⟨?_, List.forall_mem_cons.mpr ⟨hsrcs, hrest⟩⟩
    rw [List.map_cons, List.pairwise_cons]
    refine ⟨fun o ho => ?_, houts⟩
    obtain ⟨g', hg', rfl⟩ := List.mem_map.mp ho
    exact hlt g' hg'

/-- Leaving out gates keeps the order. -/
theorem ChunkOrdered.sublist {gs gs' : List Gate} (h : ChunkOrdered gs) (hsub : gs'.Sublist gs) :
    ChunkOrdered gs' :=
  ⟨h.outs.sublist (hsub.map _), fun g hg => h.srcs g (hsub.subset hg)⟩

/-- A canonical stream is in order. -/
theorem canonicalStream_ordered {n : ℕ} {gs : List Gate} (h : CanonicalStream n gs) : ChunkOrdered gs := by
  induction gs generalizing n with
  | nil => exact ⟨.nil, by simp⟩
  | cons g gs ih =>
    obtain ⟨hout, hsrcs, hrest⟩ := canonicalStream_cons.mp h
    refine chunkOrdered_cons.mpr ⟨fun g' hg' => ?_, fun w hw => hout ▸ hsrcs w hw, ih hrest⟩
    have hge := canonicalStream_le hrest hg'
    omega

/-- The later gates of an ordered chunk write neither the output nor an operand of the first. -/
theorem ChunkOrdered.not_mem_tail {g : Gate} {gs : List Gate} (h : ChunkOrdered (g :: gs)) {w : ℕ} (hw : w ≤ g.out) :
    w ∉ gs.map Gate.out := by
  intro hmem
  obtain ⟨g', hg', rfl⟩ := List.mem_map.mp hmem
  exact absurd ((chunkOrdered_cons.mp h).1 g' hg') (Nat.not_lt_of_le hw)

/-- Gates leave the wires they do not write alone. -/
theorem evalGates_of_not_mem {gs : List Gate} (v : ℕ → Bool) {w : ℕ} (hw : w ∉ gs.map Gate.out) :
    evalGates v gs w = v w := by
  induction gs generalizing v with
  | nil => rfl
  | cons g gs ih =>
    rw [List.map_cons, List.mem_cons, not_or] at hw
    rw [evalGates_cons, ih _ hw.2, Function.update_of_ne hw.1]

/-- **The evaluation of an ordered chunk solves its gates**: at the end every output has the value its gate
computes from the final values. -/
theorem ChunkOrdered.evalGates_solves {gs : List Gate} (h : ChunkOrdered gs) (v : ℕ → Bool) :
    ∀ g ∈ gs, evalGates v gs g.out = g.value (evalGates v gs) := by
  induction gs generalizing v with
  | nil => simp
  | cons g gs ih =>
    obtain ⟨-, hsrcs, hrest⟩ := chunkOrdered_cons.mp h
    rw [evalGates_cons, List.forall_mem_cons]
    refine ⟨?_, ih hrest _⟩
    rw [evalGates_of_not_mem _ (h.not_mem_tail (Nat.le_refl _)), Function.update_self]
    refine Gate.value_congr fun w hw => ?_
    have hwlt := hsrcs w hw
    rw [evalGates_of_not_mem _ (h.not_mem_tail (Nat.le_of_lt hwlt)), Function.update_of_ne (Nat.ne_of_lt hwlt)]

end AG2PC
