import AG2PC.Backend.EngineCorrect
import AG2PC.Session.Cleartext

/-!
# Engine runs without the gamma check

The garbler opens the masks of a run's outputs in the gamma check pass, which runs when there is an AND. Without
an AND it returns the masks the slot/mask pass left: those of inputs and constants are right, those of XOR and NOT
gates are zero. So the two parties hold the same masks exactly when the masks the evaluator computes are zero there.

* `MasksKept` — the condition.
* `runProgram_masks`, `runSource_masks_iff` — the outputs are encodings exactly then.
* `Backend.guarded` — an engine that fails where the condition does; it is a sound one.
-/

namespace AG2PC

open Library.XorAlgebra Library.ByIndex Library.Runs

/-! ### The masks of a run without ANDs -/

/-- Without ANDs the evaluator's masks are the gates' values on the masks of the inputs. -/
theorem masks_eval {gs : List Gate} {n : ℕ} {mk : ℕ → UInt8} {m : ℕ → Bool} (hcan : CanonicalStream n gs)
    (h0 : countAnds gs = 0) (heqs : ForGates (MaskEqs mk) 0 gs) (hin : ∀ w < n, mk w = byteOf (m w)) :
    ∀ w < n + gs.length, mk w = byteOf (evalGates m gs w) := by
  have hnone : ForGates (fun _ g => g.isAnd = false) 0 gs := by
    refine forGates_of_mem fun _ g hg => ?_
    have hno := List.countP_eq_zero.mp h0 g hg
    simpa using hno
  refine ForGates.run (fun k g hR hread => ?_) hcan ((heqs.and hnone).and (forGates_evalGates m hcan)) fun w hw => ?_
  · obtain ⟨⟨hmask, hand⟩, hval⟩ := hR
    rw [hval]
    cases hop : g.op with
    | And => simp [Gate.isAnd, hop] at hand
    | Xor =>
      simp only [MaskEqs, hop] at hmask
      rw [hmask, hread g.in0 (by simp [Gate.srcs, hop]), hread g.in1 (by simp [Gate.srcs, hop])]
      simp only [Gate.value, hop]
      exact (byteOf_xor _ _).symm
    | Not =>
      simp only [MaskEqs, hop] at hmask
      rw [hmask, hread g.in0 (by simp [Gate.srcs, hop])]
      simp only [Gate.value, hop]
      rw [← Bool.xor_true]
      exact (byteOf_xor _ true).symm
    | Const0 =>
      simp only [MaskEqs, hop] at hmask
      rw [hmask]
      simp [Gate.value, hop, byteOf]
    | Const1 =>
      simp only [MaskEqs, hop] at hmask
      rw [hmask]
      simp [Gate.value, hop, byteOf]
  · rw [hin w hw, evalGates_of_lt hcan m hw]

/-- **When both parties open the same masks**, of a program with gates `gs` and outputs `outs` on inputs with masks
`m`: there is an AND, or the masks come out zero at every XOR and NOT among the outputs. -/
def MasksKept (gs : List Gate) (outs : List ℕ) (m : ℕ → Bool) : Prop :=
  0 < countAnds gs ∨ ∀ g ∈ gs, (g.op = .Xor ∨ g.op = .Not) → g.out ∈ outs → evalGates m gs g.out = false

instance (gs : List Gate) (outs : List ℕ) (m : ℕ → Bool) : Decidable (MasksKept gs outs m) :=
  inferInstanceAs (Decidable (_ ∨ _))

/-- The operand fields a gate does not use do not matter. -/
theorem masksKept_normalize {gs : List Gate} {outs : List ℕ} {m : ℕ → Bool} :
    MasksKept (gs.map Gate.normalize) outs m ↔ MasksKept gs outs m := by
  unfold MasksKept
  rw [countAnds_normalize, evalGates_normalize, List.forall_mem_map]
  simp only [Gate.normalize_out, Gate.normalize_op]

/-- The opened masks of the inputs of a bundle. -/
def maskBits (w : SecureWires) : ℕ → Bool := fun i => truthy (w.lambdaAt i)

/-- A wire of a canonical stream is an input or the output of a gate. -/
theorem canonicalStream_gate {gs : List Gate} : ∀ {n : ℕ}, CanonicalStream n gs → ∀ {w : ℕ}, n ≤ w →
    w < n + gs.length → ∃ g ∈ gs, g.out = w := by
  intro n h w hn hw
  refine ⟨gateAt gs (w - n), gateAt_mem (by omega), ?_⟩
  have hout := canonicalStream_out h (w - n) (by omega)
  rw [getD_map_of_lt Gate.out default 0 (by omega)] at hout
  exact hout.trans (by omega)

/-- **The two parties' masks of the outputs** agree exactly when the condition holds. -/
theorem OpenedMasks.agree_iff {n : ℕ} {gs : List Gate} {outs : List ℕ} {w₂ out₁ out₂ : SecureWires}
    {mk₁ mk : ℕ → UInt8} (h : OpenedMasks n gs outs w₂ out₁ out₂ mk₁ mk) (hcan : CanonicalStream n gs)
    (houts : ∀ o ∈ outs, o < n + gs.length) (hbits : ∀ w < n, w₂.lambdaAt w = byteOf (maskBits w₂ w)) :
    (∀ i < outs.length, out₁.lambdaAt i = out₂.lambdaAt i) ↔ MasksKept gs outs (maskBits w₂) := by
  have hiff : (∀ i < outs.length, out₁.lambdaAt i = out₂.lambdaAt i) ↔ ∀ o ∈ outs, mk₁ o = mk o := by
    constructor
    · intro hall o ho
      obtain ⟨i, hi, rfl⟩ := List.mem_iff_getElem.mp ho
      have hget : outs.getD i 0 = outs[i] := by
        rw [List.getD_eq_getElem?_getD, List.getElem?_eq_getElem hi, Option.getD_some]
      rw [← hget, ← h.out₁ i hi, ← h.out₂ i hi]
      exact hall i hi
    · intro hall i hi
      rw [h.out₁ i hi, h.out₂ i hi]
      exact hall _ (getD_mem 0 hi)
  rw [hiff]
  rcases Nat.eq_zero_or_pos (countAnds gs) with h0 | hpos
  · have hmk := masks_eval hcan h0 h.evaluated fun w hw => ((h.input w hw).2).trans (hbits w hw)
    -- the masks of a gate at the two parties
    have hgate : ∀ g ∈ gs, (mk₁ g.out = mk g.out ↔
        ((g.op = .Xor ∨ g.op = .Not) → evalGates (maskBits w₂) gs g.out = false)) := by
      intro g hg
      obtain ⟨_, hfresh⟩ := (h.unchecked h0).of_mem hg
      obtain ⟨_, hval⟩ := (forGates_evalGates (k := 0) (maskBits w₂) hcan).of_mem hg
      have hand : g.isAnd = false := by simpa using List.countP_eq_zero.mp h0 g hg
      rw [hfresh, hmk _ (canonicalStream_lt hcan hg).1]
      cases hop : g.op with
      | And => simp [Gate.isAnd, hop] at hand
      | Xor => cases evalGates (maskBits w₂) gs g.out <;> simp [freshMask, hop, byteOf]
      | Not => cases evalGates (maskBits w₂) gs g.out <;> simp [freshMask, hop, byteOf]
      | Const0 => rw [hval]; simp [freshMask, Gate.value, hop, byteOf]
      | Const1 => rw [hval]; simp [freshMask, Gate.value, hop, byteOf]
    constructor
    · intro hall
      exact .inr fun g hg hop ho => (hgate g hg).mp (hall _ ho) hop
    · rintro (hpos | hall) o ho
      · omega
      · rcases Nat.lt_or_ge o n with hlt | hge
        · exact (h.input o hlt).1
        · obtain ⟨g, hg, rfl⟩ := canonicalStream_gate hcan hge (houts o ho)
          exact (hgate g hg).mpr fun hop => hall g hg hop ho
  · exact ⟨fun _ => .inl hpos, fun _ o ho => h.checked hpos o (houts o ho)⟩

/-! ### The engine's outputs -/

/-- The opened masks of an encoding are bits. -/
theorem Encodes.lambda_bits {Δ : Deltas} {w₁ w₂ : SecureWires} {x : List Bool} (h : Encodes Δ w₁ w₂ x) :
    ∀ w < x.length, w₂.lambdaAt w = byteOf (maskBits w₂ w) := by
  intro w hw
  rw [maskBits, (h.wire w hw).mask, truthy_byteOf]

section

variable {D : Type} [DecidableEq D] {S : Setup D} {C : CotStream S.Δ} {w₁ w₂ : SecureWires} {x : List Bool}
  {st : ProtoState}

/-- **A run on a source** makes encodings exactly when the masks are kept. -/
theorem runSource_masks_iff (h₁ : S.cot₁ = C.s₁) (h₂ : S.cot₂ = C.s₂) {source : Body (List ℕ)}
    (hin : Encodes S.Δ w₁ w₂ x) (hcan : CanonicalStream x.length (source.stream x.length))
    (houts : ∀ o ∈ source.outs x.length, o < x.length + (source.stream x.length).length)
    (hst : st.pool₁ = st.pool₂) :
    ∃ out st', runSource S source w₁ w₂ st = .ok (out, st') ∧ st'.pool₁ = st'.pool₂ ∧
      EvaluatorEncodes S.Δ out.1 out.2 ((source.outs x.length).map (evalGates (inputWires x) (source.stream x.length))) ∧
      ((∀ i < (source.outs x.length).length, out.1.lambdaAt i = out.2.lambdaAt i) ↔
        MasksKept (source.stream x.length) (source.outs x.length) (maskBits w₂)) := by
  obtain ⟨out₁, out₂, st', hrun, hpool, henc, mk₁, mk, hmasks⟩ := runSource_masks h₁ h₂ hin hcan houts hst
  exact ⟨(out₁, out₂), st', hrun, hpool, henc, hmasks.agree_iff hcan houts hin.lambda_bits⟩

/-- **A run of a program** makes encodings exactly when the masks are kept. -/
theorem runProgram_masks_iff (h₁ : S.cot₁ = C.s₁) (h₂ : S.cot₂ = C.s₂) {p : BooleanProgram}
    {out : SecureWires × SecureWires} {st' : ProtoState} (hin : Encodes S.Δ w₁ w₂ x) (hx : x.length = p.numInputs)
    (hst : st.pool₁ = st.pool₂) (hrun : runProgram S p w₁ w₂ st = .ok (out, st')) :
    st'.pool₁ = st'.pool₂ ∧ EvaluatorEncodes S.Δ out.1 out.2 (p.eval x) ∧
      ((∀ i < p.outputs.length, out.1.lambdaAt i = out.2.lambdaAt i) ↔ MasksKept p.gates p.outputs (maskBits w₂)) := by
  have hp : ag2pcRequireRecordCanonical p = .ok () := by
    obtain ⟨u, hu, -⟩ := bind_eq_ok hrun
    exact hu
  obtain ⟨hstream, houts, hcan, hlt⟩ := executeProgram_stream (recordCanonical_of_check hp) hx
  obtain ⟨out', st'', hsource, hpool, henc, hiff⟩ := runSource_masks_iff h₁ h₂ hin hcan hlt hst
  rw [runProgram_eq hp (hx ▸ hin.toSharesAgree), hsource] at hrun
  cases hrun
  rw [hstream, houts, evalGates_normalize] at henc
  rw [hstream, houts, masksKept_normalize] at hiff
  exact ⟨hpool, henc, hiff⟩

end

/-! ### The engine with a guard -/

/-- A backend whose engine fails, before it runs, where the parties would not hold the same masks of the outputs. -/
def Backend.guarded {D σ : Type} (B : Backend D σ) : Backend D σ :=
  { B with
    runProgram := fun p w₁ w₂ st =>
      if MasksKept p.gates p.outputs (maskBits w₂) then B.runProgram p w₁ w₂ st else .error "masks of the outputs differ"
    runSource := fun body w₁ w₂ st =>
      if MasksKept (body.stream w₁.size) (body.outs w₁.size) (maskBits w₂) then B.runSource body w₁ w₂ st
      else .error "masks of the outputs differ" }

/-- Two honest pools in step. -/
def PoolsInStep (st : ProtoState) : Prop := st.pool₁ = st.pool₂

/-- What the input phase of the real backend makes. -/
theorem processInputs_sound {D : Type} [DecidableEq D] {S : Setup D} {C : CotStream S.Δ} (h₁ : S.cot₁ = C.s₁)
    (h₂ : S.cot₂ = C.s₂) {groups : List InputGroup} {st st' : ProtoState} {subs : List SecureWires × List SecureWires}
    (hst : PoolsInStep st)
    (hrun : (Backend.real S).processInputs (groupOwners groups) (groupBits groups .alice) (groupBits groups .bob) st =
      .ok (subs, st')) :
    PoolsInStep st' ∧ GroupsEncode S.Δ subs (groups.map InputGroup.value) := by
  obtain ⟨subs', st'', hok, hpool, hgroups⟩ := @processInputs_ok D _ S.tool S.Δ C S.tape st groups hst
  have heq : (Backend.real S).processInputs (groupOwners groups) (groupBits groups .alice) (groupBits groups .bob) st =
      .ok (subs', st'') := by
    rw [← hok, ← h₁, ← h₂]
    rfl
  rw [heq] at hrun
  cases hrun
  exact ⟨hpool, hgroups⟩

/-- **The guarded engine is sound.** -/
theorem guarded_sound {D : Type} [DecidableEq D] {S : Setup D} {C : CotStream S.Δ} (h₁ : S.cot₁ = C.s₁)
    (h₂ : S.cot₂ = C.s₂) : (Backend.real S).guarded.Sound PoolsInStep where
  processInputs groups st subs st' hst hrun := processInputs_sound h₁ h₂ hst hrun
  runProgram prog w₁ w₂ x st out st' hst hin hx hrun := by
    change (if _ then runProgram S prog w₁ w₂ st else _) = _ at hrun
    split at hrun
    · next hkept =>
      obtain ⟨hpool, henc, hiff⟩ := runProgram_masks_iff h₁ h₂ hin hx hst hrun
      refine ⟨hpool, henc.encodes fun i hi => hiff.mpr hkept i ?_⟩
      rwa [BooleanProgram.eval, List.length_map] at hi
    · cases hrun
  runSource n body w₁ w₂ x st out st' hst hin hx hrun := by
    change (if _ then runSource S body.body w₁ w₂ st else _) = _ at hrun
    split at hrun
    · next hkept =>
      subst hx
      have hcan := Body.record_canonical body.body _ _ _ body.wellScoped
      obtain ⟨out', st'', hok, hpool, henc, hiff⟩ := runSource_masks_iff h₁ h₂ hin hcan body.outs_lt hst
      rw [hok] at hrun
      cases hrun
      rw [hin.wf₁.size] at hkept
      refine ⟨hpool, henc.encodes fun i hi => hiff.mpr hkept i ?_⟩
      rwa [List.length_map] at hi
    · cases hrun

end AG2PC
