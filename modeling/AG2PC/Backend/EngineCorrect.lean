import AG2PC.Backend.AndGate
import AG2PC.Backend.InputPhase
import AG2PC.Backend.PassEquations

/-!
# Correctness of the engine

A run of two honest parties on one source. The equations of the passes are taken together, gate by
gate: the shares stay in the MAC relation, every wire the evaluator holds encodes the cleartext value,
and at each AND the two `c_γ` witnesses agree.

* `wireEncodes_gate` — one gate, by its kind.
* `runSource_masks`, `runSource_ok` — the run on a source, neither check failing.
* `runProgram_correct` — the run on a record-canonical program computes the program.
-/

namespace AG2PC

open Library.XorAlgebra Library.ByIndex

/-! ### Shares -/

section

variable {Δ : Deltas} {r₁ r₂ : ℕ → AShareBundle} {old₁ old₂ : AShareBundle} {g : Gate}

/-- Shares re-propagated at both parties stay in the MAC relation. -/
theorem shareRule_macRel (hr : ∀ w ∈ g.srcs, MacRel Δ (r₁ w) (r₂ w))
    (hold : g.isAnd = true → MacRel Δ old₁ old₂) :
    MacRel Δ (shareRule g r₁ old₁) (shareRule g r₂ old₂) := by
  cases hop : g.op with
  | And =>
    simp only [shareRule, hop]
    exact hold (by simp [Gate.isAnd, hop])
  | Xor =>
    simp only [shareRule, hop]
    exact (hr g.in0 (by simp [Gate.srcs, hop])).xor (hr g.in1 (by simp [Gate.srcs, hop]))
  | Not =>
    simp only [shareRule, hop]
    exact hr g.in0 (by simp [Gate.srcs, hop])
  | Const0 =>
    simp only [shareRule, hop]
    exact .zero
  | Const1 =>
    simp only [shareRule, hop]
    exact .zero

end

/-- All shares of a run are in the MAC relation when those of the inputs and the fresh masks are. -/
theorem macRel_shares {Δ : Deltas} {sh₁ sh₂ lg₁ lg₂ a₁ a₂ b₁ b₂ : ℕ → AShareBundle} {gs : List Gate}
    {n : ℕ} (hcan : CanonicalStream n gs) (h₁ : ForGates (ShareEqs sh₁ lg₁ a₁ b₁) 0 gs)
    (h₂ : ForGates (ShareEqs sh₂ lg₂ a₂ b₂) 0 gs) (hlg : ∀ k, MacRel Δ (lg₁ k) (lg₂ k))
    (hin : ∀ w < n, MacRel Δ (sh₁ w) (sh₂ w)) : ∀ w < n + gs.length, MacRel Δ (sh₁ w) (sh₂ w) := by
  refine ForGates.run (fun k g hR hread => ?_) hcan (h₁.and h₂) hin
  obtain ⟨⟨e₁, -⟩, ⟨e₂, -⟩⟩ := hR
  rw [e₁, e₂]
  exact shareRule_macRel hread fun _ => hlg k

/-- The operand shares the two parties record are in the MAC relation too. -/
theorem macRel_operands {Δ : Deltas} {sh₁ sh₂ lg₁ lg₂ a₁ a₂ b₁ b₂ : ℕ → AShareBundle} {gs : List Gate}
    {n : ℕ} (hcan : CanonicalStream n gs) (h₁ : ForGates (ShareEqs sh₁ lg₁ a₁ b₁) 0 gs)
    (h₂ : ForGates (ShareEqs sh₂ lg₂ a₂ b₂) 0 gs)
    (hsh : ∀ w < n + gs.length, MacRel Δ (sh₁ w) (sh₂ w)) :
    ∀ i < countAnds gs, MacRel Δ (a₁ i) (a₂ i) ∧ MacRel Δ (b₁ i) (b₂ i) := by
  intro i hi
  obtain ⟨g, hg, hand, ⟨-, e₁⟩, ⟨-, e₂⟩⟩ := (h₁.and h₂).exists_and (Nat.zero_le i) (by omega)
  obtain ⟨-, hsrcs⟩ := canonicalStream_lt hcan hg
  obtain ⟨ha₁, hb₁⟩ := e₁ hand
  obtain ⟨ha₂, hb₂⟩ := e₂ hand
  have hop : g.op = .And := Gate.op_of_isAnd hand
  rw [ha₁, ha₂, hb₁, hb₂]
  exact ⟨hsh _ (hsrcs _ (by simp [Gate.srcs, hop])), hsh _ (hsrcs _ (by simp [Gate.srcs, hop]))⟩

/-! ### One gate -/

section

variable {D : Type} {E : EmpTool D} {Δ : Deltas} {σ₁ σ₂ sh₁ sh₂ : ℕ → AShareBundle} {start : MITCCRH}
  {ent : ℕ → StreamEntry} {lb ev : ℕ → Block} {mk Lam : ℕ → UInt8} {M : ℕ → Block} {v : ℕ → Bool}

/-- An AND of an honest run, garbled and evaluated. -/
theorem wireEncodes_and (m : MITCCRH) {sa₁ sa₂ sb₁ sb₂ sg₁ sg₂ ss₁ ss₂ : AShareBundle} {ma mb mg : UInt8}
    {la lb lg ea eb eg : Block} {e : StreamEntry} {va vb : Bool} (ha : WireEncodes Δ sa₁ sa₂ ma la ea va)
    (hb : WireEncodes Δ sb₁ sb₂ mb lb eb vb) (hg : MacRel Δ sg₁ sg₂) (hs : MacRel Δ ss₁ ss₂)
    (hσ : shareBit ss₁ ss₂ = (shareBit sa₁ sa₂ && shareBit sb₁ sb₂))
    (hgarble : garbleAnd E Δ.d1 m ⟨sa₁, la⟩ ⟨sb₁, lb⟩ sg₁ ss₁ = (e, lg))
    (heval : eg = evalAndLabel E m e ⟨sa₂, ea, ma⟩ ⟨sb₂, eb, mb⟩ sg₂ ss₂)
    (hmask : mg = byteOf (truthy (e.b ^^^ byteOf (LSB1 eg)))) :
    WireEncodes Δ sg₁ sg₂ mg lg eg (va && vb) := by
  have hlabel := evalAndLabel_eq E m la lb ma mb ha.rel hb.rel hg hs
  rw [hσ] at hlabel
  simp only [ha.truthy_mask, hb.truthy_mask] at hlabel
  rw [andMask_product, ← ha.label, ← hb.label] at hlabel
  have hbit := garbleAnd_bit E m ⟨sa₁, la⟩ ⟨sb₁, lb⟩ sg₁ ss₁ _ hlabel
  rw [hgarble] at hlabel hbit
  simp only at hlabel hbit
  rw [← heval] at hlabel hbit
  exact ⟨hg, by rw [hmask, hbit], hlabel⟩

/-- **One gate of an honest run**: when its operands encode their values, so does its output. -/
theorem wireEncodes_gate {k : ℕ} {g : Gate} {lg₁ lg₂ : AShareBundle}
    (hs₁ : sh₁ g.out = shareRule g sh₁ lg₁) (hs₂ : sh₂ g.out = shareRule g sh₂ lg₂)
    (hgarble : GarbleEqs E Δ.d1 σ₁ sh₁ start ent lb k g)
    (heval : EvalEqs E Δ.d2 σ₂ sh₂ start ent ev mk Lam M k g) (hv : v g.out = g.value v)
    (hrel : MacRel Δ (sh₁ g.out) (sh₂ g.out))
    (hσ : g.isAnd = true → MacRel Δ (σ₁ k) (σ₂ k) ∧
      shareBit (σ₁ k) (σ₂ k) = (shareBit (sh₁ g.in0) (sh₂ g.in0) && shareBit (sh₁ g.in1) (sh₂ g.in1)))
    (hread : ∀ w ∈ g.srcs, WireEncodes Δ (sh₁ w) (sh₂ w) (mk w) (lb w) (ev w) (v w)) :
    WireEncodes Δ (sh₁ g.out) (sh₂ g.out) (mk g.out) (lb g.out) (ev g.out) (v g.out) := by
  cases hop : g.op with
  | And =>
    have ha := hread g.in0 (by simp [Gate.srcs, hop])
    have hb := hread g.in1 (by simp [Gate.srcs, hop])
    obtain ⟨hs, hprod⟩ := hσ (by simp [Gate.isAnd, hop])
    simp only [GarbleEqs, EvalEqs, Gate.value, hop] at hgarble heval hv
    obtain ⟨hev, hmk, -, -⟩ := heval
    rw [hv]
    exact wireEncodes_and _ ha hb hrel hs hprod hgarble hev hmk
  | Xor =>
    have ha := hread g.in0 (by simp [Gate.srcs, hop])
    have hb := hread g.in1 (by simp [Gate.srcs, hop])
    simp only [GarbleEqs, EvalEqs, shareRule, Gate.value, hop] at hs₁ hs₂ hgarble heval hv
    rw [hs₁, hs₂, hgarble, heval.1, heval.2, hv]
    exact ha.xor hb
  | Not =>
    have ha := hread g.in0 (by simp [Gate.srcs, hop])
    simp only [GarbleEqs, EvalEqs, shareRule, Gate.value, hop] at hs₁ hs₂ hgarble heval hv
    rw [hs₁, hs₂, hgarble, heval.1, heval.2, hv]
    exact ha.not
  | Const0 =>
    simp only [GarbleEqs, EvalEqs, shareRule, Gate.value, hop] at hs₁ hs₂ hgarble heval hv
    rw [hs₁, hs₂, hgarble, heval.1, heval.2, hv]
    exact .const false
  | Const1 =>
    simp only [GarbleEqs, EvalEqs, shareRule, Gate.value, hop] at hs₁ hs₂ hgarble heval hv
    rw [hs₁, hs₂, hgarble, heval.1, heval.2, hv]
    exact .const true

/-- What the gates' `σ` are to be: shares of the products of the operand masks. -/
def ProductEqs (Δ : Deltas) (σ₁ σ₂ sh₁ sh₂ : ℕ → AShareBundle) (k : ℕ) (g : Gate) : Prop :=
  g.isAnd = true → MacRel Δ (σ₁ k) (σ₂ k) ∧
    shareBit (σ₁ k) (σ₂ k) = (shareBit (sh₁ g.in0) (sh₂ g.in0) && shareBit (sh₁ g.in1) (sh₂ g.in1))

/-- **All gates of an honest run**: every wire encodes its cleartext value. -/
theorem wireEncodes_run {gs : List Gate} {n : ℕ} {lg₁ lg₂ a₁ a₂ b₁ b₂ : ℕ → AShareBundle}
    {x : ℕ → Bool} (hcan : CanonicalStream n gs) (h₁ : ForGates (ShareEqs sh₁ lg₁ a₁ b₁) 0 gs)
    (h₂ : ForGates (ShareEqs sh₂ lg₂ a₂ b₂) 0 gs) (hlg : ∀ k, MacRel Δ (lg₁ k) (lg₂ k))
    (hσ : ForGates (ProductEqs Δ σ₁ σ₂ sh₁ sh₂) 0 gs)
    (hgarble : ForGates (GarbleEqs E Δ.d1 σ₁ sh₁ start ent lb) 0 gs)
    (heval : ForGates (EvalEqs E Δ.d2 σ₂ sh₂ start ent ev mk Lam M) 0 gs)
    (hin : ∀ w < n, WireEncodes Δ (sh₁ w) (sh₂ w) (mk w) (lb w) (ev w) (x w)) :
    ∀ w < n + gs.length,
      WireEncodes Δ (sh₁ w) (sh₂ w) (mk w) (lb w) (ev w) (evalGates x gs w) := by
  have hin' : ∀ w < n, WireEncodes Δ (sh₁ w) (sh₂ w) (mk w) (lb w) (ev w) (evalGates x gs w) := by
    intro w hw
    rw [evalGates_of_lt hcan x hw]
    exact hin w hw
  have hval : ForGates (fun _ g => evalGates x gs g.out = g.value (evalGates x gs)) 0 gs :=
    forGates_evalGates x hcan
  refine ForGates.run (fun k g hR hread => ?_) hcan
    ((h₁.and h₂).and (hσ.and ((hgarble.and heval).and hval))) hin'
  obtain ⟨⟨⟨e₁, -⟩, ⟨e₂, -⟩⟩, hprod, ⟨hg, he⟩, hv⟩ := hR
  have hrel : MacRel Δ (sh₁ g.out) (sh₂ g.out) := by
    rw [e₁, e₂]
    exact shareRule_macRel (fun w hw => (hread w hw).rel) fun _ => hlg k
  exact wireEncodes_gate e₁ e₂ hg he hv hrel hprod hread

/-! ### The gamma check -/

/-- With the evaluator's vector the garbler gets the evaluator's masks. -/
theorem masks_agree {gs : List Gate} {n : ℕ} {mk₁ Lam₁ : ℕ → UInt8} {M₁ : ℕ → Block}
    (hcan : CanonicalStream n gs) (heval : ForGates (EvalEqs E Δ.d2 σ₂ sh₂ start ent ev mk Lam M) 0 gs)
    (hgamma : ForGates (GammaEqs σ₁ sh₁ Lam₁ mk₁ M₁) 0 gs)
    (hLam : ∀ k < countAnds gs, Lam₁ k = byteOf (truthy (Lam k))) (hin : ∀ w < n, mk₁ w = mk w) :
    ∀ w < n + gs.length, mk₁ w = mk w := by
  refine ForGates.run (fun k g hR hread => ?_) hcan
    ((heval.and hgamma).and (forGates_lt gs (Nat.le_of_eq (Nat.zero_add _)))) hin
  obtain ⟨⟨he, hg⟩, hk⟩ := hR
  cases hop : g.op with
  | And =>
    simp only [EvalEqs, GammaEqs, hop] at he hg
    obtain ⟨-, hmk, hL, -⟩ := he
    rw [hg.1, hLam k (hk (by simp [Gate.isAnd, hop])), hL, hmk, truthy_byteOf]
  | Xor =>
    simp only [EvalEqs, GammaEqs, hop] at he hg
    rw [hg, he.2, hread g.in0 (by simp [Gate.srcs, hop]), hread g.in1 (by simp [Gate.srcs, hop])]
  | Not =>
    simp only [EvalEqs, GammaEqs, hop] at he hg
    rw [hg, he.2, hread g.in0 (by simp [Gate.srcs, hop])]
  | Const0 =>
    simp only [EvalEqs, GammaEqs, hop] at he hg
    rw [hg, he.2]
  | Const1 =>
    simp only [EvalEqs, GammaEqs, hop] at he hg
    rw [hg, he.2]

/-- **The evaluator's witness at an AND**: the garbler's true value, formed with the evaluator's masks,
shifted by `Δ₂` when the mask the evaluator holds for the output is not the one the gate calls for. -/
theorem witness_gate {k : ℕ} {g : Gate} (hop : g.op = .And)
    (he : EvalEqs E Δ.d2 σ₂ sh₂ start ent ev mk Lam M k g) (ha : MacRel Δ (sh₁ g.in0) (sh₂ g.in0))
    (hb : MacRel Δ (sh₁ g.in1) (sh₂ g.in1)) (hout : MacRel Δ (sh₁ g.out) (sh₂ g.out))
    (hs : MacRel Δ (σ₁ k) (σ₂ k)) :
    M k = gammaAnd ⟨sh₁ g.in0, mk g.in0⟩ ⟨sh₁ g.in1, mk g.in1⟩ (sh₁ g.out) (σ₁ k) ^^^
      scale (truthy (mk g.out) ^^ andMask (truthy (mk g.in0)) (truthy (mk g.in1))
        (shareBit (sh₁ g.in0) (sh₂ g.in0)) (shareBit (sh₁ g.in1) (sh₂ g.in1)) (shareBit (σ₁ k) (σ₂ k))
        (shareBit (sh₁ g.out) (sh₂ g.out))) Δ.d2 := by
  simp only [EvalEqs, hop] at he
  rw [he.2.2.2]
  exact evalAndWitness_eq _ _ _ _ _ ha hb hout hs

/-- In an honest run the two witnesses of an AND agree. -/
theorem witness_honest {k : ℕ} {g : Gate} {v : ℕ → Bool} (hop : g.op = .And)
    (he : EvalEqs E Δ.d2 σ₂ sh₂ start ent ev mk Lam M k g)
    (hprod : ProductEqs Δ σ₁ σ₂ sh₁ sh₂ k g) (hv : v g.out = g.value v)
    (ha : WireEncodes Δ (sh₁ g.in0) (sh₂ g.in0) (mk g.in0) (lb g.in0) (ev g.in0) (v g.in0))
    (hb : WireEncodes Δ (sh₁ g.in1) (sh₂ g.in1) (mk g.in1) (lb g.in1) (ev g.in1) (v g.in1))
    (hout : WireEncodes Δ (sh₁ g.out) (sh₂ g.out) (mk g.out) (lb g.out) (ev g.out) (v g.out)) :
    M k = gammaAnd ⟨sh₁ g.in0, mk g.in0⟩ ⟨sh₁ g.in1, mk g.in1⟩ (sh₁ g.out) (σ₁ k) := by
  obtain ⟨hs, hσ⟩ := hprod (by simp [Gate.isAnd, hop])
  simp only [Gate.value, hop] at hv
  rw [witness_gate hop he ha.rel hb.rel hout.rel hs, hσ, hout.truthy_mask, ha.truthy_mask, hb.truthy_mask,
    andMask_product, hv, Bool.xor_self, scale_false, BitVec.xor_zero]

/-- So the two parties compute the same witnesses. -/
theorem witnesses_agree {gs : List Gate} {n : ℕ} {v : ℕ → Bool} {mk₁ Lam₁ : ℕ → UInt8} {M₁ : ℕ → Block}
    (hcan : CanonicalStream n gs) (hgamma : ForGates (GammaEqs σ₁ sh₁ Lam₁ mk₁ M₁) 0 gs)
    (heval : ForGates (EvalEqs E Δ.d2 σ₂ sh₂ start ent ev mk Lam M) 0 gs)
    (hprod : ForGates (ProductEqs Δ σ₁ σ₂ sh₁ sh₂) 0 gs)
    (hval : ForGates (fun _ g => v g.out = g.value v) 0 gs)
    (hwire : ∀ w < n + gs.length, WireEncodes Δ (sh₁ w) (sh₂ w) (mk w) (lb w) (ev w) (v w))
    (hmasks : ∀ w < n + gs.length, mk₁ w = mk w) {i : ℕ} (hi : i < countAnds gs) : M₁ i = M i := by
  obtain ⟨g, hg, hand, ⟨hgam, he⟩, hpr, hv⟩ :=
    ((hgamma.and heval).and (hprod.and hval)).exists_and (Nat.zero_le i) (by rwa [Nat.zero_add])
  obtain ⟨hout, hsrcs⟩ := canonicalStream_lt hcan hg
  have hop : g.op = .And := Gate.op_of_isAnd hand
  have h0 := hsrcs g.in0 (by simp [Gate.srcs, hop])
  have h1 := hsrcs g.in1 (by simp [Gate.srcs, hop])
  rw [witness_honest hop he hpr hv (hwire _ h0) (hwire _ h1) (hwire _ hout)]
  simp only [GammaEqs, hop] at hgam
  rw [hgam.2, hmasks _ h0, hmasks _ h1]

end

/-! ### The run on a source -/

/-- Sound `σ` shares are shares of the products of the operand masks. -/
theorem productEqs_of_sound {Δ : Deltas} {sh₁ sh₂ lg₁ lg₂ a₁ a₂ b₁ b₂ : ℕ → AShareBundle}
    {σ : (ℕ → AShareBundle) × (ℕ → AShareBundle)} {gs : List Gate}
    (h₁ : ForGates (ShareEqs sh₁ lg₁ a₁ b₁) 0 gs) (h₂ : ForGates (ShareEqs sh₂ lg₂ a₂ b₂) 0 gs)
    (hσ : SigmaSound (countAnds gs) a₁ b₁ a₂ b₂ σ Δ) :
    ForGates (ProductEqs Δ σ.1 σ.2 sh₁ sh₂) 0 gs := by
  refine ForGates.imp (fun k g hR hand => ?_)
    ((h₁.and h₂).and (forGates_lt gs (Nat.le_of_eq (Nat.zero_add _))))
  obtain ⟨⟨⟨-, e₁⟩, ⟨-, e₂⟩⟩, hk⟩ := hR
  obtain ⟨ha₁, hb₁⟩ := e₁ hand
  obtain ⟨ha₂, hb₂⟩ := e₂ hand
  obtain ⟨hrel, hbit⟩ := hσ k (hk hand)
  exact ⟨hrel, by rw [hbit, ha₁, ha₂, hb₁, hb₂]⟩

/-- The vector the garbler receives. -/
theorem sendLambda_getD (e : EvalGlobals) {n k : ℕ} (hk : k < n) :
    byteOf ((sendLambda n e).getD k false) = byteOf (truthy (e.LambdaAND k)) := by
  rw [sendLambda, getD_map_range _ _ hk]

/-- The wires gathered at the two parties encode what the wires of the run encode. -/
theorem evaluatorEncodes_gather {Δ : Deltas} {P₁ P₂ : Prepared} {labels : ℕ → GarbleSlot}
    {mem : ℕ → MaskSlot} {slots : ℕ → EvalSlot} {outs : List ℕ} {v : ℕ → Bool}
    (h₁ : P₁.outIds = outs) (h₂ : P₂.outIds = outs)
    (h : ∀ o ∈ outs, WireEncodes Δ (mem (P₁.phys o)).share (slots (P₂.phys o)).share
      (slots (P₂.phys o)).mask (labels (P₁.phys o)).label (slots (P₂.phys o)).label (v o)) :
    EvaluatorEncodes Δ (gatherGarbler P₁ labels mem) (gatherEvaluator P₂ slots) (outs.map v) := by
  refine ⟨⟨?_, ?_, ?_⟩, ⟨?_, ?_, ?_⟩, fun i hi => ?_⟩
  · simp [SecureWires.size, gatherGarbler, h₁]
  · simp [gatherGarbler, h₁]
  · simp [SecureWires.labels, gatherGarbler, h₁]
  · simp [SecureWires.size, gatherEvaluator, h₂]
  · simp [gatherEvaluator, h₂]
  · simp [SecureWires.labels, gatherEvaluator, h₂]
  · rw [List.length_map] at hi
    have ho := h (outs.getD i 0) (getD_mem 0 hi)
    simp only [SecureWires.bundleAt, SecureWires.lambdaAt, SecureWires.label0At, SecureWires.evalLabelAt,
      gatherGarbler, gatherEvaluator, h₁, h₂]
    rwa [getD_map_of_lt _ 0 _ hi, getD_map_of_lt _ 0 _ hi, getD_map_of_lt _ 0 _ hi,
      getD_map_of_lt _ 0 _ hi, getD_map_of_lt _ 0 _ hi, getD_map_of_lt _ 0 _ hi]

/-- What the contexts see of an accepted program. -/
theorem executeProgram_stream {p : BooleanProgram} (h : RecordCanonical p) {n : ℕ} (hn : n = p.numInputs) :
    (executeProgram p).stream n = p.gates.map Gate.normalize ∧ (executeProgram p).outs n = p.outputs ∧
      CanonicalStream n ((executeProgram p).stream n) ∧
      ∀ o ∈ (executeProgram p).outs n, o < n + ((executeProgram p).stream n).length := by
  have hrec := record_executeProgram h
  rw [← hn] at hrec
  have hstream : (executeProgram p).stream n = p.gates.map Gate.normalize := congrArg Prod.fst hrec
  have houts : (executeProgram p).outs n = p.outputs := congrArg Prod.snd hrec
  refine ⟨hstream, houts, ?_, fun o ho => ?_⟩
  · rw [hstream, hn]
    exact canonicalStream_normalize h.stream
  · rw [hstream, List.length_map, hn]
    exact h.outputs o (houts ▸ ho)

section

variable {D : Type} {S : Setup D} {C : CotStream S.Δ} {source : Body (List ℕ)} {w₁ w₂ : SecureWires}
  {st : ProtoState}

/-- What passes 0 and 1 leave at the two parties, on a source of `n` inputs: `sh₁` and `sh₂` are the shares
of all wires. -/
structure PreparedPair (S : Setup D) (C : CotStream S.Δ) (w₁ w₂ : SecureWires) (st : ProtoState)
    (source : Body (List ℕ)) (n : ℕ) (P₁ P₂ : Prepared) (sh₁ sh₂ : ℕ → AShareBundle) : Prop where
  prep₁ : prepare S.cot₁ w₁ st.pool₁ source = P₁
  prep₂ : prepare S.cot₂ w₂ st.pool₂ source = P₂
  can₁ : CanonicalStream w₁.size (source.stream w₁.size)
  can₂ : CanonicalStream w₂.size (source.stream w₂.size)
  spec₁ : PreparedSpec S.cot₁ w₁ st.pool₁.used (source.stream w₁.size) (source.outs w₁.size) P₁ sh₁
  spec₂ : PreparedSpec S.cot₂ w₂ st.pool₂.used (source.stream w₂.size) (source.outs w₂.size) P₂ sh₂
  eqs₁ : ForGates (ShareEqs sh₁ (fun k => C.s₁ (st.pool₁.used + k)) P₁.repA P₁.repB) 0 (source.stream n)
  eqs₂ : ForGates (ShareEqs sh₂ (fun k => C.s₂ (st.pool₁.used + k)) P₂.repA P₂.repB) 0 (source.stream n)
  rel : ∀ w < n + (source.stream n).length, MacRel S.Δ (sh₁ w) (sh₂ w)
  numAnds₁ : P₁.numAnds = countAnds (source.stream n)
  numAnds₂ : P₂.numAnds = countAnds (source.stream n)
  pool : P₁.pool = P₂.pool
  share₁ : ∀ w < n + (source.stream n).length, shareOf S.cot₁ w₁ st.pool₁ source w = sh₁ w
  share₂ : ∀ w < n + (source.stream n).length, shareOf S.cot₂ w₂ st.pool₂ source w = sh₂ w

/-- **Passes 0 and 1 at the two parties**, from inputs whose shares agree. -/
theorem preparedPair (h₁ : S.cot₁ = C.s₁) (h₂ : S.cot₂ = C.s₂) {n : ℕ} (hin : SharesAgree S.Δ w₁ w₂ n)
    (hcan : CanonicalStream n (source.stream n)) (hst : st.pool₁ = st.pool₂) :
    ∃ P₁ P₂ sh₁ sh₂, PreparedPair S C w₁ w₂ st source n P₁ P₂ sh₁ sh₂ := by
  have hn₁ := hin.wf₁.size
  have hn₂ := hin.wf₂.size
  have hcan₁ : CanonicalStream w₁.size (source.stream w₁.size) := by
    rw [hn₁]
    exact hcan
  have hcan₂ : CanonicalStream w₂.size (source.stream w₂.size) := by
    rw [hn₂]
    exact hcan
  obtain ⟨sh₁, hP₁, hshare₁⟩ := @prepare_spec S.cot₁ w₁ st.pool₁ source hcan₁
  obtain ⟨sh₂, hP₂, hshare₂⟩ := @prepare_spec S.cot₂ w₂ st.pool₂ source hcan₂
  have hpool : (prepare S.cot₁ w₁ st.pool₁ source).pool = (prepare S.cot₂ w₂ st.pool₂ source).pool := by
    rw [← hst]
    exact prepare_pool (by rw [hn₁, hn₂]) hcan₁
  have hs₁ := hP₁.eqs
  have hs₂ := hP₂.eqs
  rw [hn₁, h₁] at hs₁
  rw [hn₂, h₂, ← hst] at hs₂
  rw [hn₁] at hshare₁
  rw [hn₂] at hshare₂
  refine ⟨_, _, sh₁, sh₂, rfl, rfl, hcan₁, hcan₂, hP₁, hP₂, by rw [h₁]; exact hs₁, by rw [h₂, ← hst]; exact hs₂,
    ?_, by rw [hP₁.numAnds, hn₁], by rw [hP₂.numAnds, hn₂], hpool, hshare₁, hshare₂⟩
  refine macRel_shares hcan hs₁ hs₂ (fun k => C.rel _) fun w hw => ?_
  rw [hP₁.input w (hn₁ ▸ hw), hP₂.input w (hn₂ ▸ hw)]
  exact hin.rel w hw

end

section

variable {D : Type} [DecidableEq D] {S : Setup D} {C : CotStream S.Δ} {source : Body (List ℕ)}
  {w₁ w₂ : SecureWires} {x : List Bool} {st : ProtoState}

/-- A run on a source whose two fallible steps succeed. -/
theorem runSource_eq {P₁ P₂ : Prepared} {σ : (ℕ → AShareBundle) × (ℕ → AShareBundle)}
    {t : TriplePool × TriplePool} {mem : ℕ → MaskSlot} {g : GarbleGlobals × (ℕ → GarbleSlot)}
    {e : EvalGlobals × (ℕ → EvalSlot)} (hP₁ : prepare S.cot₁ w₁ st.pool₁ source = P₁)
    (hP₂ : prepare S.cot₂ w₂ st.pool₂ source = P₂)
    (hcompute : computeInplace S.tool S.Δ S.cot₁ S.cot₂ S.ssp (S.tape.shift st.runs) (S.tape.nonce st.runs)
      P₁.numAnds P₁.repA P₁.repB P₂.repA P₂.repB P₁.pool P₂.pool = .ok (σ, t))
    (hg : garblerSend S.tool S.Δ.d1 (S.tape.seed st.runs) σ.1 P₁ w₁ source = g)
    (he : evaluatorReceive S.tool S.Δ.d2 (S.tape.seed st.runs) σ.2 P₂ w₂ source g.1.finish.flatten = e)
    (hgamma : gammaExchange S σ.1 P₁ P₂ w₁ source (garblerSlots P₁ g.2) e.1 = .ok mem) :
    runSource S source w₁ w₂ st = .ok ((gatherGarbler P₁ g.2 mem, gatherEvaluator P₂ e.2),
      { st with pool₁ := t.1.maybeFlushCotCheck, pool₂ := t.2.maybeFlushCotCheck, runs := st.runs + 1 }) := by
  subst hP₁ hP₂ hg he
  unfold runSource
  dsimp only
  rw [hcompute]
  change (gammaExchange S σ.1 _ _ w₁ source _ _ >>= _) = _
  rw [hgamma]
  rfl

/-- The exchange succeeds when the two witness vectors agree. -/
theorem gammaExchange_ok {σ₁ : ℕ → AShareBundle} {P₁ P₂ : Prepared} {mem : ℕ → MaskSlot} {e : EvalGlobals}
    (hnum : P₁.numAnds = P₂.numAnds)
    (hM : ∀ i < P₁.numAnds,
      (garblerCheck σ₁ P₁ w₁ source mem (sendLambda P₂.numAnds e)).1.M1t i = e.M1t i) :
    gammaExchange S σ₁ P₁ P₂ w₁ source mem e =
      .ok (if 0 < P₁.numAnds then (garblerCheck σ₁ P₁ w₁ source mem (sendLambda P₂.numAnds e)).2 else mem) := by
  unfold gammaExchange
  split
  · have hdigest : gammaDigest S.tool P₂.numAnds e.M1t =
        gammaDigest S.tool P₁.numAnds (garblerCheck σ₁ P₁ w₁ source mem (sendLambda P₂.numAnds e)).1.M1t := by
      rw [← hnum] at hM ⊢
      rw [gammaDigest, gammaDigest, map_range_inj.mpr hM]
    dsimp only
    rw [evaluatorCheck, if_neg (not_not_intro hdigest)]
    rfl
  · rfl

/-- How the evaluator gets the mask of a gate that is not an AND. -/
def MaskEqs (mk : ℕ → UInt8) (_ : ℕ) (g : Gate) : Prop :=
  match g.op with
  | .Const0 => mk g.out = 0
  | .Const1 => mk g.out = 1
  | .Xor => mk g.out = mk g.in0 ^^^ mk g.in1
  | .Not => mk g.out = mk g.in0 ^^^ 1
  | .And => True

/-- What the opened masks of the outputs are at the two parties: `mk₁` and `mk` are the masks of the wires. With
an AND the garbler's masks are the evaluator's; without, they are those of the slot/mask pass. -/
structure OpenedMasks (n : ℕ) (gs : List Gate) (outs : List ℕ) (w₂ out₁ out₂ : SecureWires)
    (mk₁ mk : ℕ → UInt8) : Prop where
  out₁ : ∀ i < outs.length, out₁.lambdaAt i = mk₁ (outs.getD i 0)
  out₂ : ∀ i < outs.length, out₂.lambdaAt i = mk (outs.getD i 0)
  input : ∀ w < n, mk₁ w = mk w ∧ mk w = w₂.lambdaAt w
  checked : 0 < countAnds gs → ∀ w < n + gs.length, mk₁ w = mk w
  unchecked : countAnds gs = 0 → ForGates (fun _ g => mk₁ g.out = freshMask g) 0 gs
  evaluated : ForGates (MaskEqs mk) 0 gs

/-- **The run on a source**: from inputs that encode `x` neither check fails, and the outputs carry the
values the gates compute by the evaluator's masks. -/
theorem runSource_masks (h₁ : S.cot₁ = C.s₁) (h₂ : S.cot₂ = C.s₂) (hin : Encodes S.Δ w₁ w₂ x)
    (hcan : CanonicalStream x.length (source.stream x.length))
    (houts : ∀ o ∈ source.outs x.length, o < x.length + (source.stream x.length).length)
    (hst : st.pool₁ = st.pool₂) :
    let gs := source.stream x.length
    let y := (source.outs x.length).map (evalGates (inputWires x) gs)
    ∃ out₁ out₂ st', runSource S source w₁ w₂ st = .ok ((out₁, out₂), st') ∧ st'.pool₁ = st'.pool₂ ∧
      EvaluatorEncodes S.Δ out₁ out₂ y ∧
      ∃ mk₁ mk, OpenedMasks x.length gs (source.outs x.length) w₂ out₁ out₂ mk₁ mk := by
  intro gs y
  have hn₁ := hin.wf₁.size
  have hn₂ := hin.wf₂.size
  obtain ⟨P₁, P₂, sh₁, sh₂, H⟩ := preparedPair h₁ h₂ hin.toSharesAgree hcan hst
  have hP₁ := H.spec₁
  have hP₂ := H.spec₂
  have hops := macRel_operands hcan H.eqs₁ H.eqs₂ H.rel
  -- the triples
  obtain ⟨σ, t, hcompute, hused, hsound⟩ := computeInplace_ok S.tool C S.ssp (S.tape.shift st.runs)
    (S.tape.nonce st.runs) P₁.numAnds (fun i hi => (hops i (H.numAnds₁ ▸ hi)).1)
    (fun i hi => (hops i (H.numAnds₁ ▸ hi)).2) (congrArg TriplePool.used H.pool)
  rw [← h₁, ← h₂] at hcompute
  rw [H.numAnds₁] at hsound
  have hprod := productEqs_of_sound H.eqs₁ H.eqs₂ hsound
  -- the passes over the ciphertexts
  obtain ⟨lb, hlabels, hlbin, hlen, hgarble⟩ :=
    garblerSend_spec S.tool S.Δ.d1 σ.1 (S.tape.seed st.runs) H.can₁ hP₁
  generalize hg : garblerSend S.tool S.Δ.d1 (S.tape.seed st.runs) σ.1 P₁ w₁ source = g at *
  rw [H.numAnds₁, ← H.numAnds₂] at hlen
  obtain ⟨ev, mk, hslots, -, hevin, heval⟩ :=
    evaluatorReceive_spec S.tool S.Δ.d2 σ.2 (S.tape.seed st.runs) H.can₂ hP₂ hlen
  generalize he : evaluatorReceive S.tool S.Δ.d2 (S.tape.seed st.runs) σ.2 P₂ w₂ source
    g.1.finish.flatten = e at *
  obtain ⟨mk₁, hmem, -, hmkin, hgamma⟩ := garblerCheck_spec σ.1 (garblerSlots P₁ g.2)
    (sendLambda P₂.numAnds e.1) H.can₁ hP₁ (fun i hi => congrArg GarbleSlot.share (hlabels i hi))
    fun i hi => hP₁.mask i hi
  rw [hn₁] at hlabels hlbin hgarble hmem hmkin hgamma
  rw [hn₂] at hslots hevin heval
  -- the wires
  have hwire : ∀ w < x.length + gs.length,
      WireEncodes S.Δ (sh₁ w) (sh₂ w) (mk w) (lb w) (ev w) (evalGates (inputWires x) gs w) := by
    refine wireEncodes_run hcan H.eqs₁ H.eqs₂ (fun k => C.rel _) hprod hgarble heval fun w hw => ?_
    have hw' := hin.wire w hw
    rw [hP₁.input w (hn₁ ▸ hw), hP₂.input w (hn₂ ▸ hw), (hevin w hw).1, (hevin w hw).2, hlbin w hw]
    exact hw'
  have hmasks : ∀ w < x.length + gs.length, mk₁ w = mk w := by
    refine masks_agree hcan heval hgamma (fun k hk => sendLambda_getD e.1 (H.numAnds₂ ▸ hk)) fun w hw => ?_
    rw [hmkin w hw, (hevin w hw).2]
    exact hin.lambda w hw
  have hM : ∀ i < P₁.numAnds, (garblerCheck σ.1 P₁ w₁ source (garblerSlots P₁ g.2)
      (sendLambda P₂.numAnds e.1)).1.M1t i = e.1.M1t i :=
    fun i hi => witnesses_agree hcan hgamma heval hprod (forGates_evalGates (inputWires x) hcan) hwire hmasks
      (H.numAnds₁ ▸ hi)
  have hexchange := gammaExchange_ok (S := S) (H.numAnds₁.trans H.numAnds₂.symm) hM
  refine ⟨_, _, _, runSource_eq H.prep₁ H.prep₂ hcompute hg he hexchange, ?_, ?_⟩
  · simp only [TriplePool.maybeFlushCotCheck_eq, hused]
  have hpersist : ∀ o ∈ source.outs x.length,
      Persistent x.length (source.stream x.length) (source.outs x.length) o :=
    fun o ho => persistent_output ho (houts o ho)
  have henc : EvaluatorEncodes S.Δ (gatherGarbler P₁ g.2 (if 0 < P₁.numAnds then (garblerCheck σ.1 P₁ w₁
      source (garblerSlots P₁ g.2) (sendLambda P₂.numAnds e.1)).2 else garblerSlots P₁ g.2))
      (gatherEvaluator P₂ e.2) y := by
    refine evaluatorEncodes_gather (hP₁.outIds.trans (by rw [hn₁])) (hP₂.outIds.trans (by rw [hn₂])) fun o ho => ?_
    rw [hslots o (hpersist o ho), hlabels o (hpersist o ho)]
    split
    · rw [hmem o (hpersist o ho)]
      exact hwire o (houts o ho)
    · rw [garblerSlots, hlabels o (hpersist o ho)]
      exact hwire o (houts o ho)
  -- the garbler's masks: those of the gamma check pass, or those of the slot/mask pass
  obtain ⟨fresh, hfresh, hfreshin, hfreshgate⟩ := @prepare_masks S.cot₁ w₁ st.pool₁ source H.can₁
  rw [H.prep₁] at hfresh
  rw [hn₁] at hfresh hfreshin hfreshgate
  refine ⟨henc, fun w => if 0 < countAnds gs then mk₁ w else fresh w, mk, ?_, ?_, ?_, ?_, ?_, ?_⟩
  · intro i hi
    have ho := getD_mem 0 hi
    simp only [SecureWires.lambdaAt, gatherGarbler, hP₁.outIds, hn₁]
    rw [getD_map_of_lt _ 0 _ hi, H.numAnds₁]
    split
    · rw [hmem _ (hpersist _ ho)]
    · exact hfresh _ (hpersist _ ho)
  · intro i hi
    have ho := getD_mem 0 hi
    simp only [SecureWires.lambdaAt, gatherEvaluator, hP₂.outIds, hn₂]
    rw [getD_map_of_lt _ 0 _ hi, hslots _ (hpersist _ ho)]
  · intro w hw
    refine ⟨?_, (hevin w hw).2⟩
    split
    · exact hmasks w (Nat.lt_of_lt_of_le hw (Nat.le_add_right _ _))
    · rw [hfreshin w hw, (hevin w hw).2]
      exact hin.lambda w hw
  · intro hands w hw
    rw [if_pos hands]
    exact hmasks w hw
  · intro h0
    refine ForGates.imp (fun _ g hg => ?_) hfreshgate
    rw [if_neg (by omega)]
    exact hg
  · refine ForGates.imp (fun _ g hg => ?_) heval
    cases hop : g.op <;> simp_all [EvalEqs, MaskEqs]

/-- The outputs encode the values the gates compute, when there is an AND. -/
theorem runSource_ok (h₁ : S.cot₁ = C.s₁) (h₂ : S.cot₂ = C.s₂) (hin : Encodes S.Δ w₁ w₂ x)
    (hcan : CanonicalStream x.length (source.stream x.length))
    (houts : ∀ o ∈ source.outs x.length, o < x.length + (source.stream x.length).length)
    (hst : st.pool₁ = st.pool₂) :
    let gs := source.stream x.length
    let y := (source.outs x.length).map (evalGates (inputWires x) gs)
    ∃ out₁ out₂ st', runSource S source w₁ w₂ st = .ok ((out₁, out₂), st') ∧ st'.pool₁ = st'.pool₂ ∧
      EvaluatorEncodes S.Δ out₁ out₂ y ∧ (0 < countAnds gs → Encodes S.Δ out₁ out₂ y) := by
  intro gs y
  obtain ⟨out₁, out₂, st', hrun, hpool, henc, mk₁, mk, hmasks⟩ := runSource_masks h₁ h₂ hin hcan houts hst
  refine ⟨out₁, out₂, st', hrun, hpool, henc, fun hands => henc.encodes fun i hi => ?_⟩
  rw [List.length_map] at hi
  rw [hmasks.out₁ i hi, hmasks.out₂ i hi]
  exact hmasks.checked hands _ (houts _ (getD_mem 0 hi))

/-- Nothing of an accepted program is rejected, the inputs fitting it: the run is that on its replay. -/
theorem runProgram_of_check {p : BooleanProgram} (hp : ag2pcRequireRecordCanonical p = .ok ())
    (hwf₁ : w₁.WellFormed .alice p.numInputs) (hwf₂ : w₂.WellFormed .bob p.numInputs) (st : ProtoState) :
    runProgram S p w₁ w₂ st = runSource S (executeProgram p) w₁ w₂ st := by
  unfold runProgram
  rw [hp, SecureWires.check_eq_ok hwf₁, SecureWires.check_eq_ok hwf₂]
  change (if w₁.size ≠ p.numInputs ∨ w₂.size ≠ p.numInputs then _ else _) = _
  rw [if_neg (by rw [hwf₁.size, hwf₂.size]; simp)]

/-- So it is for inputs whose shares agree. -/
theorem runProgram_eq {p : BooleanProgram} (hp : ag2pcRequireRecordCanonical p = .ok ())
    (hin : SharesAgree S.Δ w₁ w₂ p.numInputs) (st : ProtoState) :
    runProgram S p w₁ w₂ st = runSource S (executeProgram p) w₁ w₂ st :=
  runProgram_of_check hp hin.wf₁ hin.wf₂ st

/-- **The engine is correct**: on a record-canonical program and inputs that encode `x`, neither party
aborts, and the outputs encode the cleartext evaluation of the program on `x`, by the evaluator's opened
masks and, when the program has an AND, by the garbler's too. -/
theorem runProgram_correct (h₁ : S.cot₁ = C.s₁) (h₂ : S.cot₂ = C.s₂) {p : BooleanProgram}
    (hp : ag2pcRequireRecordCanonical p = .ok ()) (hx : x.length = p.numInputs)
    (hin : Encodes S.Δ w₁ w₂ x) (hst : st.pool₁ = st.pool₂) :
    ∃ out₁ out₂ st', runProgram S p w₁ w₂ st = .ok ((out₁, out₂), st') ∧
      EvaluatorEncodes S.Δ out₁ out₂ (p.eval x) ∧
      (0 < countAnds p.gates → Encodes S.Δ out₁ out₂ (p.eval x)) := by
  obtain ⟨hstream, houts, hcan, hlt⟩ := executeProgram_stream (recordCanonical_of_check hp) hx
  obtain ⟨out₁, out₂, st', hrun, -, heval, hands⟩ := runSource_ok h₁ h₂ hin hcan hlt hst
  rw [hstream, houts, evalGates_normalize] at heval
  rw [hstream, houts, evalGates_normalize, countAnds_normalize] at hands
  rw [← runProgram_eq hp (hx ▸ hin.toSharesAgree)] at hrun
  exact ⟨out₁, out₂, st', hrun, heval, hands⟩

end

/-! ### One AND of two public ones -/

/-- An execution in which every share and every random value is zero. -/
def Setup.zeros : Setup (List Block) where
  tool := .transparent
  Δ := .init 0 0
  cot₁ := (CotStream.zeros (.init 0 0)).s₁
  cot₂ := (CotStream.zeros (.init 0 0)).s₂
  tape := ⟨fun _ => zeroBlock, fun _ => zeroBlock, fun _ _ => 0, fun _ => zeroBlock⟩
  ssp := 40

/-- The conjunction of two inputs. -/
def andProgram : BooleanProgram := ⟨2, 3, [⟨0, 1, 2, .And⟩], [2]⟩

/-- On two public ones it runs through, and its output encodes one. -/
theorem runProgram_correct_ones :
    ∃ out₁ out₂ st', runProgram Setup.zeros andProgram (publicWires .alice (initAbit .alice 0) [1, 1])
        (publicWires .bob (initAbit .bob 0) [1, 1]) {} = .ok ((out₁, out₂), st') ∧
      EvaluatorEncodes (.init 0 0) out₁ out₂ (andProgram.eval [true, true]) ∧
      (0 < countAnds andProgram.gates → Encodes (.init 0 0) out₁ out₂ (andProgram.eval [true, true])) :=
  runProgram_correct (S := Setup.zeros) (C := CotStream.zeros (.init 0 0)) rfl rfl (by decide) rfl
    (encodes_publicWires _ [1, 1]) rfl

end AG2PC
