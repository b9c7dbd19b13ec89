import AG2PC.Backend.EvaluatorRuns

/-!
# The evaluate pass in two worlds

Given the garbler's shares, an evaluator's share is one bit. The garbler does not know these bits. This module compares
two runs of the evaluate pass that differ in nothing else, on the same ciphertext stream.

* `MacRel.eq_of_bit` — the garbler knows all of a share but its bit; `answer` is the share with a given bit.
* `evalAndLabel_alike` — whatever the entry, the labels of an AND differ by `Δ₁` exactly when the AND calls for another
  mask.
* `evalEqs_alike` — one gate: when an AND calls for the same mask, the evaluator finds the same label and mask there and
  forms the same witness.
* `EvaluatedRun.alike` — so does a whole run; `opens_alike` and `shareBit_alike` are what follows for the bits that the
  masks open, and for two runs from the same wires.
-/

namespace AG2PC

open Library.XorAlgebra Library.SlotReuse Library.ByIndex

/-! ### The evaluator's coins -/

/-- The evaluator's share with the bit `b` that answers the garbler's share `s`. -/
def answer (Δ : Deltas) (s : AShareBundle) (b : Bool) : AShareBundle :=
  ⟨s.key ^^^ scale b Δ.d1, s.mac ^^^ scale (LSB s.mac) Δ.d2⟩

section

variable {Δ : Deltas} {s t t' : AShareBundle} {b : Bool}

theorem LSB_answer (h : LSB s.key = false) : LSB (answer Δ s b).mac = b := by
  simp [answer, h]

theorem macRel_answer (h : LSB s.key = false) : MacRel Δ s (answer Δ s b) where
  mac₁ := by
    rw [answer, BitVec.xor_assoc, BitVec.xor_self, BitVec.xor_zero]
  mac₂ := by
    rw [LSB_answer h]
    rfl
  key₁ := h
  key₂ := by simp [answer]

/-- The garbler knows the evaluator's keys. -/
theorem MacRel.key_eq (h : MacRel Δ s t) : t.key = s.mac ^^^ scale (LSB s.mac) Δ.d2 := by
  have hmac := (word_xor_eq_iff _ _ _).mp h.mac₁.symm
  exact hmac

/-- It does not know their bits, and nothing else is unknown to it. -/
theorem MacRel.eq_of_bit (h : MacRel Δ s t) (h' : MacRel Δ s t') (hbit : LSB t.mac = LSB t'.mac) : t = t' := by
  have hmac : t.mac = t'.mac := by rw [h.mac₂, h'.mac₂, hbit]
  have hkey : t.key = t'.key := by rw [h.key_eq, h'.key_eq]
  cases t
  cases t'
  exact congrArg₂ _ hmac hkey

end

/-! ### One AND in two worlds -/

/-- The sums for two labels, `Xa`, …, `Xs` being the garbler's offsets of the shares. -/
theorem alike_sum (R Xa Xb Xg Xs Δ : Block) (La Lb la lb sg lg la' lb' sg' lg' : Bool) :
    R ^^^ (Xs ^^^ scale sg Δ ^^^ (Xg ^^^ scale lg Δ) ^^^ scale La (Xb ^^^ scale lb Δ) ^^^
          scale Lb (Xa ^^^ scale la Δ)) =
      R ^^^ (Xs ^^^ scale sg' Δ ^^^ (Xg ^^^ scale lg' Δ) ^^^ scale La (Xb ^^^ scale lb' Δ) ^^^
          scale Lb (Xa ^^^ scale la' Δ)) ^^^
        scale (andMask La Lb la lb sg lg ^^ andMask La Lb la' lb' sg' lg') Δ := by
  cases La <;> cases Lb <;>
    simp only [andMask, scale_true, scale_false, scale_xor, Bool.true_and, Bool.false_and, Bool.false_xor,
      BitVec.xor_zero] <;>
    simp only [BitVec.xor_assoc, BitVec.xor_comm, word_xor_left_comm, word_xor_cancel, BitVec.xor_self, BitVec.xor_zero]

section

variable {D : Type} {E : EmpTool D} {Δ : Deltas} {sa₁ sb₁ sg₁ ss₁ sa₂ sb₂ sg₂ ss₂ sa₂' sb₂' sg₂' ss₂' : AShareBundle}

/-- **The labels of an AND in two worlds**, from the same labels and masks of its operands and any entry, differ by `Δ₁`
exactly when the masks it calls for differ. -/
theorem evalAndLabel_alike (m : MITCCRH) (e : StreamEntry) (la lb : Block) (ma mb : UInt8)
    (ha : MacRel Δ sa₁ sa₂) (hb : MacRel Δ sb₁ sb₂) (hg : MacRel Δ sg₁ sg₂) (hs : MacRel Δ ss₁ ss₂)
    (ha' : MacRel Δ sa₁ sa₂') (hb' : MacRel Δ sb₁ sb₂') (hg' : MacRel Δ sg₁ sg₂') (hs' : MacRel Δ ss₁ ss₂') :
    evalAndLabel E m e ⟨sa₂, la, ma⟩ ⟨sb₂, lb, mb⟩ sg₂ ss₂ =
      evalAndLabel E m e ⟨sa₂', la, ma⟩ ⟨sb₂', lb, mb⟩ sg₂' ss₂' ^^^
        scale (andMask (truthy ma) (truthy mb) (shareBit sa₁ sa₂) (shareBit sb₁ sb₂) (shareBit ss₁ ss₂)
            (shareBit sg₁ sg₂) ^^
          andMask (truthy ma) (truthy mb) (shareBit sa₁ sa₂') (shareBit sb₁ sb₂') (shareBit ss₁ ss₂')
            (shareBit sg₁ sg₂')) Δ.d1 := by
  simp only [evalAndLabel, selectMask_and]
  rw [ha.mac₂_eq, hb.mac₂_eq, hg.mac₂_eq, hs.mac₂_eq, ha'.mac₂_eq, hb'.mac₂_eq, hg'.mac₂_eq, hs'.mac₂_eq]
  exact alike_sum _ _ _ _ _ _ _ _ _ _ _ _ _ _ _ _

end

/-! ### A run in two worlds -/

/-- The mask an AND calls for. -/
def gateMask (mk : ℕ → UInt8) (lam sig : ℕ → Bool) (k : ℕ) (g : Gate) : Bool :=
  andMask (truthy (mk g.in0)) (truthy (mk g.in1)) (lam g.in0) (lam g.in1) (sig k) (lam g.out)

/-- The masks the ANDs of a stream call for, by the index of the AND. -/
def calledMasks (mk : ℕ → UInt8) (lam sig : ℕ → Bool) (gs : List Gate) (k : ℕ) : Bool :=
  gateMask mk lam sig k ((gs.filter Gate.isAnd).getD k ⟨0, 0, 0, .And⟩)

/-- AND `k` of a stream is the `k`-th of its ANDs. -/
theorem forGates_filter : ∀ {pre gs : List Gate}, ForGates (fun k g => g.isAnd = true →
    (pre ++ gs.filter Gate.isAnd)[k]? = some g) pre.length gs := by
  intro pre gs
  induction gs generalizing pre with
  | nil => exact trivial
  | cons g gs ih =>
    by_cases hand : g.isAnd = true
    · refine ⟨fun _ => by simp [hand], ?_⟩
      have hrest := @ih (pre ++ [g])
      rw [nextAnd, if_pos hand]
      simpa [List.filter_cons, hand] using hrest
    · refine ⟨fun h => absurd h hand, ?_⟩
      rw [nextAnd, if_neg hand]
      simpa [List.filter_cons, hand] using @ih pre

theorem forGates_calledMasks (mk : ℕ → UInt8) (lam sig : ℕ → Bool) (gs : List Gate) :
    ForGates (fun k g => g.isAnd = true → calledMasks mk lam sig gs k = gateMask mk lam sig k g) 0 gs := by
  refine ForGates.imp (fun k g h hand => ?_) (@forGates_filter [] gs)
  rw [calledMasks, List.getD_eq_getElem?_getD]
  rw [List.nil_append] at h
  rw [h hand, Option.getD_some]

section

variable {D : Type} {E : EmpTool D} {Δ : Deltas} {σ₁ σ₂ σ₂' sh₁ sh₂ sh₂' : ℕ → AShareBundle} {start : MITCCRH}
  {ent : ℕ → StreamEntry} {ev ev' : ℕ → Block} {mk mk' Lam Lam' : ℕ → UInt8} {M M' : ℕ → Block} {k : ℕ} {g : Gate}

/-- **One gate in two worlds**: from the same labels and masks of its operands come the same label and mask, at an AND
when it calls for the same mask in both; there the evaluator also sends the same mask and forms the same witness. -/
theorem evalEqs_alike (he : EvalEqs E Δ.d2 σ₂ sh₂ start ent ev mk Lam M k g)
    (he' : EvalEqs E Δ.d2 σ₂' sh₂' start ent ev' mk' Lam' M' k g)
    (hσ : g.isAnd = true → MacRel Δ (σ₁ k) (σ₂ k) ∧ MacRel Δ (σ₁ k) (σ₂' k))
    (hout : MacRel Δ (sh₁ g.out) (sh₂ g.out) ∧ MacRel Δ (sh₁ g.out) (sh₂' g.out))
    (hsrcs : ∀ i ∈ g.srcs, MacRel Δ (sh₁ i) (sh₂ i) ∧ MacRel Δ (sh₁ i) (sh₂' i))
    (hcalled : g.isAnd = true → gateMask mk (fun i => shareBit (sh₁ i) (sh₂ i)) (fun k => shareBit (σ₁ k) (σ₂ k)) k g =
      gateMask mk' (fun i => shareBit (sh₁ i) (sh₂' i)) (fun k => shareBit (σ₁ k) (σ₂' k)) k g)
    (hread : ∀ i ∈ g.srcs, ev i = ev' i ∧ mk i = mk' i) :
    (ev g.out = ev' g.out ∧ mk g.out = mk' g.out) ∧ (g.isAnd = true → Lam k = Lam' k ∧ M k = M' k) := by
  cases hop : g.op with
  | And =>
    have hand : g.isAnd = true := by simp [Gate.isAnd, hop]
    have hmem0 : g.in0 ∈ g.srcs := by simp [Gate.srcs, hop]
    have hmem1 : g.in1 ∈ g.srcs := by simp [Gate.srcs, hop]
    obtain ⟨ha, ha'⟩ := hsrcs _ hmem0
    obtain ⟨hb, hb'⟩ := hsrcs _ hmem1
    obtain ⟨hs, hs'⟩ := hσ hand
    simp only [EvalEqs, hop] at he he'
    rw [(hread _ hmem0).1, (hread _ hmem0).2, (hread _ hmem1).1, (hread _ hmem1).2] at he
    have hmask := hcalled hand
    unfold gateMask at hmask
    rw [(hread _ hmem0).2, (hread _ hmem1).2] at hmask
    have hlabel : ev g.out = ev' g.out := by
      rw [he.1, he'.1, evalAndLabel_alike _ _ _ _ _ _ ha hb hout.1 hs ha' hb' hout.2 hs', hmask, Bool.xor_self,
        scale_false]
      exact BitVec.xor_zero
    have hopen : mk g.out = mk' g.out := by rw [he.2.1, he'.2.1, hlabel]
    refine ⟨⟨hlabel, hopen⟩, fun _ => ⟨by rw [he.2.2.1, he'.2.2.1, hopen], ?_⟩⟩
    rw [he.2.2.2, he'.2.2.2, hopen, evalAndWitness_eq _ _ _ _ _ ha hb hout.1 hs,
      evalAndWitness_eq _ _ _ _ _ ha' hb' hout.2 hs', hmask]
  | Xor =>
    have h0 := hread g.in0 (by simp [Gate.srcs, hop])
    have h1 := hread g.in1 (by simp [Gate.srcs, hop])
    simp only [EvalEqs, hop] at he he'
    rw [he.1, he.2, he'.1, he'.2, h0.1, h0.2, h1.1, h1.2]
    exact ⟨⟨rfl, rfl⟩, fun hand => by simp [Gate.isAnd, hop] at hand⟩
  | Not =>
    have h0 := hread g.in0 (by simp [Gate.srcs, hop])
    simp only [EvalEqs, hop] at he he'
    rw [he.1, he.2, he'.1, he'.2, h0.1, h0.2]
    exact ⟨⟨rfl, rfl⟩, fun hand => by simp [Gate.isAnd, hop] at hand⟩
  | Const0 =>
    simp only [EvalEqs, hop] at he he'
    rw [he.1, he.2, he'.1, he'.2]
    exact ⟨⟨rfl, rfl⟩, fun hand => by simp [Gate.isAnd, hop] at hand⟩
  | Const1 =>
    simp only [EvalEqs, hop] at he he'
    rw [he.1, he.2, he'.1, he'.2]
    exact ⟨⟨rfl, rfl⟩, fun hand => by simp [Gate.isAnd, hop] at hand⟩

/-- The mask an AND calls for, its operands being known, is the fresh mask of its output up to what they fix. -/
theorem gateMask_inj {lam lam' sig sig' : ℕ → Bool} (hlam : LambdaEqs lam sig k g) (hlam' : LambdaEqs lam' sig' k g)
    (hcalled : g.isAnd = true → gateMask mk lam sig k g = gateMask mk' lam' sig' k g)
    (hmk : ∀ i ∈ g.srcs, mk i = mk' i) (hread : ∀ i ∈ g.srcs, lam i = lam' i) : lam g.out = lam' g.out := by
  cases hop : g.op with
  | And =>
    have hmask := hcalled (by simp [Gate.isAnd, hop])
    have hmem0 : g.in0 ∈ g.srcs := by simp [Gate.srcs, hop]
    have hmem1 : g.in1 ∈ g.srcs := by simp [Gate.srcs, hop]
    simp only [LambdaEqs, hop] at hlam hlam'
    simp only [gateMask, andMask, hlam, hlam', hread _ hmem0, hread _ hmem1, hmk _ hmem0, hmk _ hmem1] at hmask
    simpa using hmask
  | Xor =>
    simp only [LambdaEqs, hop] at hlam hlam'
    rw [hlam, hlam', hread g.in0 (by simp [Gate.srcs, hop]), hread g.in1 (by simp [Gate.srcs, hop])]
  | Not =>
    simp only [LambdaEqs, hop] at hlam hlam'
    rw [hlam, hlam', hread g.in0 (by simp [Gate.srcs, hop])]
  | Const0 =>
    simp only [LambdaEqs, hop] at hlam hlam'
    rw [hlam, hlam']
  | Const1 =>
    simp only [LambdaEqs, hop] at hlam hlam'
    rw [hlam, hlam']

end

namespace EvaluatedRun

variable {D : Type} {E : EmpTool D} {Δ : Deltas} {σ₁ σ₂ σ₂' sh₁ sh₂ sh₂' : ℕ → AShareBundle} {seed : Block}
  {wire : List StreamEntry} {n : ℕ} {gs : List Gate} {w₁ w w' : SecureWires} {ev ev' : ℕ → Block}
  {mk mk' Lam Lam' : ℕ → UInt8} {M M' : ℕ → Block}

/-- The masks that the ANDs of a run call for. -/
def called (σ₁ σ₂ sh₁ sh₂ : ℕ → AShareBundle) (mk : ℕ → UInt8) (gs : List Gate) : ℕ → Bool :=
  calledMasks mk (fun i => shareBit (sh₁ i) (sh₂ i)) (fun k => shareBit (σ₁ k) (σ₂ k)) gs

/-- Runs that call for the same masks do so gate by gate. -/
theorem gateMask_eq (hcalled : ∀ k < countAnds gs, called σ₁ σ₂ sh₁ sh₂ mk gs k = called σ₁ σ₂' sh₁ sh₂' mk' gs k) :
    ForGates (fun k g => g.isAnd = true →
      gateMask mk (fun i => shareBit (sh₁ i) (sh₂ i)) (fun k => shareBit (σ₁ k) (σ₂ k)) k g =
        gateMask mk' (fun i => shareBit (sh₁ i) (sh₂' i)) (fun k => shareBit (σ₁ k) (σ₂' k)) k g) 0 gs := by
  refine ForGates.imp (fun k g h hand => ?_) (((forGates_calledMasks mk (fun i => shareBit (sh₁ i) (sh₂ i))
    (fun k => shareBit (σ₁ k) (σ₂ k)) gs).and (forGates_calledMasks mk' (fun i => shareBit (sh₁ i) (sh₂' i))
      (fun k => shareBit (σ₁ k) (σ₂' k)) gs)).and (forGates_lt gs (Nat.le_of_eq (Nat.zero_add _))))
  obtain ⟨⟨hc, hc'⟩, hk⟩ := h
  exact (hc hand).symm.trans ((hcalled k (hk hand)).trans (hc' hand))

section

variable (h : EvaluatedRun E Δ (σ₁, σ₂) seed wire n gs w₁ w sh₁ sh₂ ev mk Lam M)
  (h' : EvaluatedRun E Δ (σ₁, σ₂') seed wire n gs w₁ w' sh₁ sh₂' ev' mk' Lam' M') (hcan : CanonicalStream n gs)
  (hinput : ∀ i < n, w.evalLabelAt i = w'.evalLabelAt i ∧ w.lambdaAt i = w'.lambdaAt i)
  (hcalled : ∀ k < countAnds gs, called σ₁ σ₂ sh₁ sh₂ mk gs k = called σ₁ σ₂' sh₁ sh₂' mk' gs k)

include h h' hcan hinput hcalled

/-- **Two runs that call for the same masks**, from the same labels and masks: all labels and all masks are the same,
and so is all the evaluator sends and forms at the ANDs. -/
theorem alike : (∀ i < n + gs.length, ev i = ev' i ∧ mk i = mk' i) ∧
    ∀ k < countAnds gs, Lam k = Lam' k ∧ M k = M' k := by
  have hstep : ForGates (fun k g => (∀ i ∈ g.srcs, ev i = ev' i ∧ mk i = mk' i) →
      (ev g.out = ev' g.out ∧ mk g.out = mk' g.out) ∧ (g.isAnd = true → Lam k = Lam' k ∧ M k = M' k)) 0 gs := by
    refine ForGates.imp (fun k g hR hread => ?_) (((h.eval.and h'.eval).and (h.prod.and h'.prod)).and
      (((h.gates hcan).and (h'.gates hcan)).and (gateMask_eq hcalled)))
    obtain ⟨⟨⟨he, he'⟩, hp, hp'⟩, ⟨⟨⟨hout, hsrcs⟩, -⟩, ⟨hout', hsrcs'⟩, -⟩, hmask⟩ := hR
    exact evalEqs_alike he he' (fun hand => ⟨(hp hand).1, (hp' hand).1⟩) ⟨hout, hout'⟩
      (fun i hi => ⟨hsrcs i hi, hsrcs' i hi⟩) hmask hread
  have hall : ∀ i < n + gs.length, ev i = ev' i ∧ mk i = mk' i := by
    refine ForGates.run (fun k g hR hread => (hR hread).1) hcan hstep fun i hi => ?_
    rw [(h.input i hi).1, (h.input i hi).2, (h'.input i hi).1, (h'.input i hi).2]
    exact hinput i hi
  refine ⟨hall, fun k hk => ?_⟩
  obtain ⟨g, hg, hand, hR⟩ := ForGates.exists_and hstep (Nat.zero_le k) (by omega)
  exact (hR fun i hi => hall i ((canonicalStream_lt hcan hg).2 i hi)).2 hand

/-- The masks of the second run open its values when those of the first open theirs. -/
theorem opens_alike {x x' : ℕ → Bool}
    (hopen : ∀ i < n + gs.length, mk i = byteOf (evalGates x gs i ^^ shareBit (sh₁ i) (sh₂ i)))
    (hin' : ∀ i < n, mk' i = byteOf (x' i ^^ shareBit (sh₁ i) (sh₂' i))) :
    ∀ i < n + gs.length, mk' i = byteOf (evalGates x' gs i ^^ shareBit (sh₁ i) (sh₂' i)) := by
  obtain ⟨hall, -⟩ := alike h h' hcan hinput hcalled
  have hin : ∀ i < n, mk i = byteOf (x i ^^ shareBit (sh₁ i) (sh₂ i)) := by
    intro i hi
    rw [hopen i (by omega), evalGates_of_lt hcan x hi]
  -- the first run meets the gate equations, hence the second
  have hgate := (gateEqs_iff hcan (maskRules_evaluate h.eval) h.lam hin).mpr
    (forGates_of_mem fun _ g hg _ => hopen _ (canonicalStream_lt hcan hg).1)
  refine masks_carried hcan (maskRules_evaluate h'.eval) h'.lam ?_ hin'
  refine ForGates.imp (fun k g hR hand => ?_)
    ((hgate.and (gateMask_eq hcalled)).and (forGates_of_mem fun _ g hg => canonicalStream_lt hcan hg))
  obtain ⟨⟨heq, hmask⟩, hout, -⟩ := hR
  rw [← (hall _ hout).2, heq hand]
  exact congrArg byteOf (hmask hand)

/-- From the same wires they are the same run. -/
theorem shareBit_alike (hshare : ∀ i < n, sh₂ i = sh₂' i) :
    ∀ i < n + gs.length, shareBit (sh₁ i) (sh₂ i) = shareBit (sh₁ i) (sh₂' i) := by
  obtain ⟨hall, -⟩ := alike h h' hcan hinput hcalled
  refine ForGates.run (fun k g hR hread => ?_) hcan
    (((h.lam.and h'.lam).and (gateMask_eq hcalled)).and (forGates_of_mem fun _ g hg => canonicalStream_lt hcan hg))
    fun i hi => by rw [hshare i hi]
  obtain ⟨⟨⟨hl, hl'⟩, hmask⟩, -, hlt⟩ := hR
  exact gateMask_inj hl hl' hmask (fun i hi => (hall i (hlt i hi)).2) hread

end

end EvaluatedRun

end AG2PC
