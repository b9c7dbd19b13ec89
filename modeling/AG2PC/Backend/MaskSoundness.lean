import AG2PC.Backend.EngineCorrect

/-!
# What the opened masks are bound by

The evaluator opens a mask at every AND: it reads it off what the garbler sent, and sends it to the
garbler as `Λ_AND`. Either party may lie about it.

* `masks_carried` — masks that meet the gate equation at every AND open the cleartext values.
* `evaluatorPath_sound` — an honest evaluator that does not abort holds such masks, or the garbler
  guessed `Δ₂`: the `c_γ` check binds the evaluator's masks.
* `garblerCheck_sound_iff` — nothing binds the vector the garbler receives: its masks are right exactly
  when every entry of the vector is.
-/

namespace AG2PC

open Library.XorAlgebra Library.SlotReuse Library.ByIndex

/-! ### Masks along a stream -/

/-- The mask a pass computes, given that of an AND. -/
def maskRule (g : Gate) (mk : ℕ → UInt8) (L : UInt8) : UInt8 :=
  match g.op with
  | .Const0 => 0
  | .Const1 => 1
  | .Xor => mk g.in0 ^^^ mk g.in1
  | .Not => mk g.in0 ^^^ 1
  | .And => L

/-- The masks of a pass, `lam` being the masks the wires' shares carry and `sig k` the bit of `σ` at AND
`k`: all follow the rule. -/
def MaskRules (mk : ℕ → UInt8) (_ : ℕ) (g : Gate) : Prop := mk g.out = maskRule g mk (mk g.out)

/-- The opened mask of an AND is the one its gate calls for. -/
def GateEq (mk : ℕ → UInt8) (lam sig : ℕ → Bool) (k : ℕ) (g : Gate) : Prop :=
  g.isAnd = true → mk g.out = byteOf (andMask (truthy (mk g.in0)) (truthy (mk g.in1)) (lam g.in0)
    (lam g.in1) (sig k) (lam g.out))

/-- How the masks of the shares and of `σ` are related. -/
def LambdaEqs (lam sig : ℕ → Bool) (k : ℕ) (g : Gate) : Prop :=
  match g.op with
  | .Const0 | .Const1 => lam g.out = false
  | .Xor => lam g.out = (lam g.in0 ^^ lam g.in1)
  | .Not => lam g.out = lam g.in0
  | .And => sig k = (lam g.in0 && lam g.in1)

section

variable {mk : ℕ → UInt8} {lam sig v : ℕ → Bool} {k : ℕ} {g : Gate}

/-- One gate: masks that open the operands' values open the output's, at an AND when the gate equation
holds. -/
theorem mask_carried (hrule : MaskRules mk k g) (hlam : LambdaEqs lam sig k g) (hv : v g.out = g.value v)
    (hgate : GateEq mk lam sig k g) (hread : ∀ w ∈ g.srcs, mk w = byteOf (v w ^^ lam w)) :
    mk g.out = byteOf (v g.out ^^ lam g.out) := by
  cases hop : g.op with
  | And =>
    have h0 := hread g.in0 (by simp [Gate.srcs, hop])
    have h1 := hread g.in1 (by simp [Gate.srcs, hop])
    simp only [LambdaEqs, Gate.value, hop] at hlam hv
    rw [hgate (by simp [Gate.isAnd, hop]), h0, h1, truthy_byteOf, truthy_byteOf, hlam, andMask_product, hv]
  | Xor =>
    have h0 := hread g.in0 (by simp [Gate.srcs, hop])
    have h1 := hread g.in1 (by simp [Gate.srcs, hop])
    simp only [MaskRules, maskRule, LambdaEqs, Gate.value, hop] at hrule hlam hv
    rw [hrule, h0, h1, hlam, hv, ← byteOf_xor]
    congr 1
    cases v g.in0 <;> cases v g.in1 <;> simp
  | Not =>
    have h0 := hread g.in0 (by simp [Gate.srcs, hop])
    simp only [MaskRules, maskRule, LambdaEqs, Gate.value, hop] at hrule hlam hv
    rw [hrule, h0, hlam, hv]
    cases v g.in0 <;> cases lam g.in0 <;> rfl
  | Const0 =>
    simp only [MaskRules, maskRule, LambdaEqs, Gate.value, hop] at hrule hlam hv
    rw [hrule, hlam, hv]
    rfl
  | Const1 =>
    simp only [MaskRules, maskRule, LambdaEqs, Gate.value, hop] at hrule hlam hv
    rw [hrule, hlam, hv]
    rfl

/-- Where the operands' masks open their values, the gate calls for the mask that opens the product. -/
theorem gateEq_iff (hlam : LambdaEqs lam sig k g) (hv : v g.out = g.value v)
    (hread : ∀ w ∈ g.srcs, mk w = byteOf (v w ^^ lam w)) :
    GateEq mk lam sig k g ↔ (g.isAnd = true → mk g.out = byteOf (v g.out ^^ lam g.out)) := by
  refine imp_congr_right fun hand => ?_
  have hop : g.op = .And := Gate.op_of_isAnd hand
  have h0 := hread g.in0 (by simp [Gate.srcs, hop])
  have h1 := hread g.in1 (by simp [Gate.srcs, hop])
  simp only [LambdaEqs, Gate.value, hop] at hlam hv
  rw [h0, h1, truthy_byteOf, truthy_byteOf, hlam, andMask_product, hv]

end

section

variable {mk : ℕ → UInt8} {lam sig x : ℕ → Bool} {gs : List Gate} {n : ℕ}

/-- **Masks that meet the gate equation at every AND open the cleartext values.** -/
theorem masks_carried (hcan : CanonicalStream n gs) (hrule : ForGates (MaskRules mk) 0 gs)
    (hlam : ForGates (LambdaEqs lam sig) 0 gs) (hgate : ForGates (GateEq mk lam sig) 0 gs)
    (hin : ∀ w < n, mk w = byteOf (x w ^^ lam w)) :
    ∀ w < n + gs.length, mk w = byteOf (evalGates x gs w ^^ lam w) := by
  have hin' : ∀ w < n, mk w = byteOf (evalGates x gs w ^^ lam w) := by
    intro w hw
    rw [evalGates_of_lt hcan x hw]
    exact hin w hw
  refine ForGates.run (fun k g hR hread => ?_) hcan
    ((hrule.and hlam).and (hgate.and (forGates_evalGates x hcan))) hin'
  obtain ⟨⟨hr, hl⟩, hg, hv⟩ := hR
  exact mask_carried hr hl hv hg hread

/-- **The gate equation holds at every AND exactly when every AND's mask opens the cleartext value.** -/
theorem gateEqs_iff (hcan : CanonicalStream n gs) (hrule : ForGates (MaskRules mk) 0 gs)
    (hlam : ForGates (LambdaEqs lam sig) 0 gs) (hin : ∀ w < n, mk w = byteOf (x w ^^ lam w)) :
    ForGates (GateEq mk lam sig) 0 gs ↔
      ForGates (fun _ g => g.isAnd = true → mk g.out = byteOf (evalGates x gs g.out ^^ lam g.out)) 0 gs := by
  constructor
  · intro hgate
    have hall := masks_carried hcan hrule hlam hgate hin
    exact forGates_of_mem fun _ g hg _ => hall _ (canonicalStream_lt hcan hg).1
  · intro hopen
    have hval : ForGates (fun _ g => evalGates x gs g.out = g.value (evalGates x gs)) 0 gs :=
      forGates_evalGates x hcan
    have hin' : ∀ w < n, mk w = byteOf (evalGates x gs w ^^ lam w) := by
      intro w hw
      rw [evalGates_of_lt hcan x hw]
      exact hin w hw
    have hall : ∀ w < n + gs.length, mk w = byteOf (evalGates x gs w ^^ lam w) := by
      refine ForGates.run (fun k g hR hread => ?_) hcan ((hrule.and hlam).and (hopen.and hval)) hin'
      obtain ⟨⟨hr, hl⟩, ho, hv⟩ := hR
      exact mask_carried hr hl hv ((gateEq_iff hl hv hread).mpr ho) hread
    have hread : ForGates (fun _ g => ∀ w ∈ g.srcs, mk w = byteOf (evalGates x gs w ^^ lam w)) 0 gs :=
      forGates_of_mem fun _ g hg w hw => hall w ((canonicalStream_lt hcan hg).2 w hw)
    refine ForGates.imp (fun k g hR => ?_) ((hlam.and hval).and (hopen.and hread))
    obtain ⟨⟨hl, hv⟩, ho, hr⟩ := hR
    exact (gateEq_iff hl hv hr).mpr ho

end

/-! ### The masks of the passes -/

/-- The relation `R` at some gate, with the AND index. -/
def SomeGate (R : ℕ → Gate → Prop) : ℕ → List Gate → Prop
  | _, [] => False
  | k, g :: gs => R k g ∨ SomeGate R (nextAnd k g) gs

/-- Where each gate is one way or the other, some is the first or all are the other. -/
theorem ForGates.some_or {R T : ℕ → Gate → Prop} {gs : List Gate} : ∀ {k : ℕ},
    ForGates (fun k g => R k g ∨ T k g) k gs → SomeGate R k gs ∨ ForGates T k gs := by
  induction gs with
  | nil => exact fun _ => .inr trivial
  | cons g gs ih =>
    intro k h
    obtain ⟨hg, hrest⟩ := h
    rcases hg with hR | hT
    · exact .inl (.inl hR)
    · rcases ih hrest with hsome | hall
      · exact .inl (.inr hsome)
      · exact .inr ⟨hT, hall⟩

theorem someGate_normalize {R : ℕ → Gate → Prop} (h : ∀ k g, R k g.normalize ↔ R k g) {gs : List Gate} :
    ∀ {k : ℕ}, SomeGate R k (gs.map Gate.normalize) ↔ SomeGate R k gs := by
  induction gs with
  | nil => exact Iff.rfl
  | cons g gs ih =>
    intro k
    rw [List.map_cons, SomeGate, SomeGate, h, ih, nextAnd_normalize]

theorem SomeGate.imp_mem {R T : ℕ → Gate → Prop} {gs : List Gate} : ∀ {k : ℕ},
    (∀ k, ∀ g ∈ gs, R k g → T k g) → SomeGate R k gs → SomeGate T k gs := by
  induction gs with
  | nil => exact fun _ h => h
  | cons g gs ih =>
    intro k himp h
    rcases h with hg | hrest
    · exact .inl (himp k g List.mem_cons_self hg)
    · exact .inr (ih (fun k g' hg' => himp k g' (List.mem_cons_of_mem _ hg')) hrest)

section

variable {D : Type} {E : EmpTool D} {Δ : Block} {sigma sh : ℕ → AShareBundle} {start : MITCCRH}
  {ent : ℕ → StreamEntry} {ev : ℕ → Block} {mk Lam : ℕ → UInt8} {M : ℕ → Block} {gs : List Gate}

theorem maskRules_evaluate (h : ForGates (EvalEqs E Δ sigma sh start ent ev mk Lam M) 0 gs) :
    ForGates (MaskRules mk) 0 gs := by
  refine ForGates.imp (fun k g he => ?_) h
  cases hop : g.op <;> simp_all [EvalEqs, MaskRules, maskRule]

theorem maskRules_gamma (h : ForGates (GammaEqs sigma sh Lam mk M) 0 gs) :
    ForGates (MaskRules mk) 0 gs := by
  refine ForGates.imp (fun k g he => ?_) h
  cases hop : g.op <;> simp_all [GammaEqs, MaskRules, maskRule]

end

/-- The masks the two parties' shares carry are related as the gates are. -/
theorem lambdaEqs_of_shares {Δ : Deltas} {σ₁ σ₂ sh₁ sh₂ lg₁ lg₂ a₁ a₂ b₁ b₂ : ℕ → AShareBundle}
    {gs : List Gate} (h₁ : ForGates (ShareEqs sh₁ lg₁ a₁ b₁) 0 gs)
    (h₂ : ForGates (ShareEqs sh₂ lg₂ a₂ b₂) 0 gs) (hprod : ForGates (ProductEqs Δ σ₁ σ₂ sh₁ sh₂) 0 gs) :
    ForGates (LambdaEqs (fun w => shareBit (sh₁ w) (sh₂ w)) fun k => shareBit (σ₁ k) (σ₂ k)) 0 gs := by
  refine ForGates.imp (fun k g hR => ?_) ((h₁.and h₂).and hprod)
  obtain ⟨⟨⟨e₁, -⟩, ⟨e₂, -⟩⟩, hp⟩ := hR
  cases hop : g.op with
  | And =>
    simp only [LambdaEqs, hop]
    exact (hp (by simp [Gate.isAnd, hop])).2
  | Xor =>
    simp only [LambdaEqs, shareRule, hop] at e₁ e₂ ⊢
    rw [e₁, e₂, shareBit_xor]
  | Not =>
    simp only [LambdaEqs, shareRule, hop] at e₁ e₂ ⊢
    rw [e₁, e₂]
  | Const0 =>
    simp only [LambdaEqs, shareRule, hop] at e₁ e₂ ⊢
    rw [e₁, e₂, shareBit_zero]
  | Const1 =>
    simp only [LambdaEqs, shareRule, hop] at e₁ e₂ ⊢
    rw [e₁, e₂, shareBit_zero]

/-! ### The evaluator's masks -/

/-- The garbler's block for AND `k` is `Δ₂` off its true witness, formed from its own MACs and the
evaluator's masks. -/
def GuessesDelta (Δ : Deltas) (share₁ σ₁ : ℕ → AShareBundle) (mask : ℕ → UInt8) (V : List Block) (k : ℕ)
    (g : Gate) : Prop :=
  g.isAnd = true ∧ V.getD k zeroBlock =
    gammaAnd ⟨share₁ g.in0, mask g.in0⟩ ⟨share₁ g.in1, mask g.in1⟩ (share₁ g.out) (σ₁ k) ^^^ Δ.d2

theorem guessesDelta_normalize {Δ : Deltas} {share₁ σ₁ : ℕ → AShareBundle} {mask : ℕ → UInt8} {V : List Block}
    {k : ℕ} {g : Gate} :
    GuessesDelta Δ share₁ σ₁ mask V k g.normalize ↔ GuessesDelta Δ share₁ σ₁ mask V k g := by
  obtain ⟨i0, i1, o, op⟩ := g
  cases op <;> simp [GuessesDelta, Gate.normalize, Gate.isAnd]

section

variable {D : Type} {S : Setup D} {C : CotStream S.Δ} {source : Body (List ℕ)} {w₁ w₂ : SecureWires}
  {st : ProtoState} {x : List Bool} {P₁ P₂ : Prepared} {sh₁ sh₂ : ℕ → AShareBundle}
  {σ : (ℕ → AShareBundle) × (ℕ → AShareBundle)}

/-- What an evaluator that does not abort has checked. -/
theorem evaluatorPath_ok [DecidableEq D] {E : EmpTool D} (hE : Function.Injective E.hash)
    {Δ seed : Block} {sigma : ℕ → AShareBundle} {P : Prepared} {w : SecureWires} {wire : List StreamEntry}
    {V : List Block} {e : EvalGlobals × (ℕ → EvalSlot)}
    (hok : evaluatorPath E Δ seed sigma P w source wire (E.hash V) = .ok e) :
    ∀ i < P.numAnds, (evaluatorReceive E Δ seed sigma P w source wire).1.M1t i = V.getD i zeroBlock := by
  intro i hi
  unfold evaluatorPath at hok
  rw [if_pos (Nat.zero_lt_of_lt hi)] at hok
  obtain ⟨_, hcheck, -⟩ := bind_eq_ok hok
  by_cases hdigest : gammaDigest E P.numAnds (evaluatorReceive E Δ seed sigma P w source wire).1.M1t = E.hash V
  · rw [← hE hdigest, getD_map_range _ _ hi]
  · rw [evaluatorCheck, if_pos hdigest] at hcheck
    cases hcheck

/-- The evaluator accepts the digest of its own witnesses. -/
theorem evaluatorPath_self [DecidableEq D] (E : EmpTool D) (Δ seed : Block) (sigma : ℕ → AShareBundle)
    (P : Prepared) (w : SecureWires) (source : Body (List ℕ)) (wire : List StreamEntry) :
    evaluatorPath E Δ seed sigma P w source wire (E.hash ((List.range P.numAnds).map
        (evaluatorReceive E Δ seed sigma P w source wire).1.M1t)) =
      .ok (evaluatorReceive E Δ seed sigma P w source wire) := by
  unfold evaluatorPath
  have hcheck : evaluatorCheck E P.numAnds (evaluatorReceive E Δ seed sigma P w source wire).1
      (E.hash ((List.range P.numAnds).map (evaluatorReceive E Δ seed sigma P w source wire).1.M1t)) = .ok () :=
    if_neg (not_not_intro rfl)
  dsimp only
  rw [hcheck]
  split <;> rfl

/-- **The `c_γ` check binds the evaluator's masks**, on any source. -/
theorem evaluatorPath_bound [DecidableEq D] (H : PreparedPair S C w₁ w₂ st source x.length P₁ P₂ sh₁ sh₂)
    (hE : Function.Injective S.tool.hash) (hin : Encodes S.Δ w₁ w₂ x)
    (hcan : CanonicalStream x.length (source.stream x.length))
    (hσ : SigmaSound P₁.numAnds P₁.repA P₁.repB P₂.repA P₂.repB σ S.Δ) (seed : Block)
    {wire : List StreamEntry} (hwire : wire.length = P₂.numAnds) {V : List Block}
    {e : EvalGlobals × (ℕ → EvalSlot)}
    (hok : evaluatorPath S.tool S.Δ.d2 seed σ.2 P₂ w₂ source wire (S.tool.hash V) = .ok e) :
    let gs := source.stream x.length
    let mask := fun i => (evaluatorSlot S.tool S.Δ.d2 σ.2 seed P₂ w₂ source wire i).mask
    SomeGate (GuessesDelta S.Δ (shareOf S.cot₁ w₁ st.pool₁ source) σ.1 mask V) 0 gs ∨
      ∀ i < x.length + gs.length, mask i = byteOf (evalGates (inputWires x) gs i ^^
        shareBit (shareOf S.cot₁ w₁ st.pool₁ source i) (shareOf S.cot₂ w₂ st.pool₂ source i)) := by
  intro gs mask
  have hn₂ := hin.wf₂.size
  have hM := evaluatorPath_ok hE hok
  obtain ⟨ev, mk, -, hslot, hevin, heval⟩ :=
    evaluatorReceive_spec S.tool S.Δ.d2 σ.2 seed H.can₂ H.spec₂ hwire
  rw [hn₂] at hslot hevin heval
  have hmask : ∀ i < x.length + gs.length, mask i = mk i := fun i hi => congrArg EvalSlot.mask (hslot i hi)
  rw [H.numAnds₁] at hσ
  have hprod := productEqs_of_sound H.eqs₁ H.eqs₂ hσ
  -- at each AND the block is off by `Δ₂`, or the gate equation holds
  have hgates : ForGates (fun k g => GuessesDelta S.Δ sh₁ σ.1 mk V k g ∨
      GateEq mk (fun w => shareBit (sh₁ w) (sh₂ w)) (fun k => shareBit (σ.1 k) (σ.2 k)) k g) 0 gs := by
    have hrel : ForGates (fun _ g => MacRel S.Δ (sh₁ g.out) (sh₂ g.out) ∧
        ∀ w ∈ g.srcs, MacRel S.Δ (sh₁ w) (sh₂ w)) 0 gs := forGates_of_mem fun _ g hg =>
      ⟨H.rel _ (canonicalStream_lt hcan hg).1, fun w hw => H.rel w ((canonicalStream_lt hcan hg).2 w hw)⟩
    refine ForGates.imp (fun k g hR => ?_) (((heval.and hprod).and hrel).and
      (forGates_lt gs (Nat.le_of_eq (Nat.zero_add _))))
    obtain ⟨⟨⟨he, hp⟩, hout, hsrcs⟩, hk⟩ := hR
    cases hop : g.op with
    | And =>
      have hand : g.isAnd = true := by simp [Gate.isAnd, hop]
      have hw := witness_gate hop he (hsrcs g.in0 (by simp [Gate.srcs, hop]))
        (hsrcs g.in1 (by simp [Gate.srcs, hop])) hout (hp hand).1
      rw [hM k (H.numAnds₂ ▸ hk hand)] at hw
      simp only [EvalEqs, hop] at he
      generalize herr : (truthy (mk g.out) ^^ _) = err at hw
      cases err with
      | true => exact .inl ⟨hand, hw⟩
      | false =>
        refine .inr fun _ => ?_
        rw [← bne_eq_false_iff_eq.mp herr, he.2.1, truthy_byteOf]
    | Xor => exact .inr fun hand => by simp [Gate.isAnd, hop] at hand
    | Not => exact .inr fun hand => by simp [Gate.isAnd, hop] at hand
    | Const0 => exact .inr fun hand => by simp [Gate.isAnd, hop] at hand
    | Const1 => exact .inr fun hand => by simp [Gate.isAnd, hop] at hand
  rcases hgates.some_or with hsome | hall
  · refine .inl (hsome.imp_mem fun k g hg hguess => ?_)
    obtain ⟨hand, hV⟩ := hguess
    obtain ⟨hout, hsrcs⟩ := canonicalStream_lt hcan hg
    have hop : g.op = .And := Gate.op_of_isAnd hand
    have h0 := hsrcs g.in0 (by simp [Gate.srcs, hop])
    have h1 := hsrcs g.in1 (by simp [Gate.srcs, hop])
    refine ⟨hand, ?_⟩
    rw [hV, H.share₁ _ h0, H.share₁ _ h1, H.share₁ _ hout, hmask _ h0, hmask _ h1]
  · refine .inr fun i hi => ?_
    rw [hmask i hi, H.share₁ i hi, H.share₂ i hi]
    refine masks_carried hcan (maskRules_evaluate heval) (lambdaEqs_of_shares H.eqs₁ H.eqs₂ hprod) hall
      (fun w hw => ?_) i hi
    rw [(hevin w hw).2, (hin.wire w hw).mask, H.spec₁.input w (hin.wf₁.size ▸ hw), H.spec₂.input w (hn₂ ▸ hw)]
    rfl

/-- **An evaluator that does not abort holds the right masks**, or some block the garbler hashed is `Δ₂`
off its true witness: on a record-canonical program, for any stream and any blocks `V` of the garbler,
every wire's opened mask is its cleartext value masked. -/
theorem evaluatorPath_sound [DecidableEq D] (h₁ : S.cot₁ = C.s₁) (h₂ : S.cot₂ = C.s₂)
    (hE : Function.Injective S.tool.hash) {p : BooleanProgram} (hp : ag2pcRequireRecordCanonical p = .ok ())
    (hx : x.length = p.numInputs) (hin : Encodes S.Δ w₁ w₂ x) (hst : st.pool₁ = st.pool₂)
    (hP₁ : prepare S.cot₁ w₁ st.pool₁ (executeProgram p) = P₁)
    (hP₂ : prepare S.cot₂ w₂ st.pool₂ (executeProgram p) = P₂)
    (hσ : SigmaSound P₁.numAnds P₁.repA P₁.repB P₂.repA P₂.repB σ S.Δ) (seed : Block)
    {wire : List StreamEntry} (hwire : wire.length = P₂.numAnds) {V : List Block}
    {e : EvalGlobals × (ℕ → EvalSlot)}
    (hok : evaluatorPath S.tool S.Δ.d2 seed σ.2 P₂ w₂ (executeProgram p) wire (S.tool.hash V) = .ok e) :
    let mask := fun i => (evaluatorSlot S.tool S.Δ.d2 σ.2 seed P₂ w₂ (executeProgram p) wire i).mask
    let share₁ := shareOf S.cot₁ w₁ st.pool₁ (executeProgram p)
    let share₂ := shareOf S.cot₂ w₂ st.pool₂ (executeProgram p)
    SomeGate (GuessesDelta S.Δ share₁ σ.1 mask V) 0 p.gates ∨
      ∀ i < p.numWires, mask i =
        byteOf (evalGates (inputWires x) p.gates i ^^ shareBit (share₁ i) (share₂ i)) := by
  intro mask share₁ share₂
  have hcanon := recordCanonical_of_check hp
  obtain ⟨hstream, -, hcan, -⟩ := executeProgram_stream hcanon hx
  obtain ⟨P₁', P₂', sh₁, sh₂, H⟩ := preparedPair h₁ h₂ hin.toSharesAgree hcan hst
  obtain rfl : P₁' = P₁ := H.prep₁.symm.trans hP₁
  obtain rfl : P₂' = P₂ := H.prep₂.symm.trans hP₂
  rcases evaluatorPath_bound H hE hin hcan hσ seed hwire hok with hsome | hall
  · rw [hstream] at hsome
    exact .inl ((someGate_normalize fun k g => guessesDelta_normalize).mp hsome)
  · rw [hstream, evalGates_normalize, List.length_map] at hall
    refine .inr fun i hi => hall i ?_
    rwa [hx, ← hcanon.wires]

end

/-! ### The garbler's masks -/

/-- Entry `k` of the vector the garbler receives is the mask the gate calls for, from the masks the gamma
check holds for its operands. -/
def VectorMeets (LambdaAND : List Bool) (mask : ℕ → UInt8) (lam sig : ℕ → Bool) (k : ℕ) (g : Gate) : Prop :=
  g.isAnd = true → LambdaAND.getD k false = andMask (truthy (mask g.in0)) (truthy (mask g.in1)) (lam g.in0)
    (lam g.in1) (sig k) (lam g.out)

/-- Entry `k` opens the cleartext value of the gate. -/
def VectorOpens (LambdaAND : List Bool) (v lam : ℕ → Bool) (k : ℕ) (g : Gate) : Prop :=
  g.isAnd = true → LambdaAND.getD k false = (v g.out ^^ lam g.out)

section

variable {D : Type} {S : Setup D} {C : CotStream S.Δ} {source : Body (List ℕ)} {w₁ w₂ : SecureWires}
  {st : ProtoState} {x : List Bool} {P₁ P₂ : Prepared} {sh₁ sh₂ : ℕ → AShareBundle}
  {σ : (ℕ → AShareBundle) × (ℕ → AShareBundle)}

/-- **What the gamma check makes of a vector**, on any source: the gate equation holds at every AND exactly
when every entry opens the cleartext value, and then every mask does. -/
theorem garblerCheck_bound (H : PreparedPair S C w₁ w₂ st source x.length P₁ P₂ sh₁ sh₂)
    (hin : Encodes S.Δ w₁ w₂ x) (hcan : CanonicalStream x.length (source.stream x.length))
    (hσ : SigmaSound P₁.numAnds P₁.repA P₁.repB P₂.repA P₂.repB σ S.Δ) (seed : Block)
    (LambdaAND : List Bool) :
    let gs := source.stream x.length
    let mem := garblerSlots P₁ (garblerSend S.tool S.Δ.d1 seed σ.1 P₁ w₁ source).2
    let mask := fun i => (garblerSlot σ.1 P₁ w₁ source mem LambdaAND i).mask
    let lam := fun i => shareBit (shareOf S.cot₁ w₁ st.pool₁ source i) (shareOf S.cot₂ w₂ st.pool₂ source i)
    let v := evalGates (inputWires x) gs
    (ForGates (VectorMeets LambdaAND mask lam fun k => shareBit (σ.1 k) (σ.2 k)) 0 gs ↔
        ForGates (VectorOpens LambdaAND v lam) 0 gs) ∧
      (ForGates (VectorOpens LambdaAND v lam) 0 gs → ∀ o ∈ source.outs x.length,
        o < x.length + gs.length →
          ((garblerCheck σ.1 P₁ w₁ source mem LambdaAND).2 (P₁.phys o)).mask = byteOf (v o ^^ lam o)) := by
  intro gs mem mask lam v
  have hn₁ := hin.wf₁.size
  obtain ⟨lb, hlabels, -, -, -⟩ := garblerSend_spec S.tool S.Δ.d1 σ.1 seed H.can₁ H.spec₁
  obtain ⟨mk, hkeep, hslot, hmkin, hgamma⟩ := garblerCheck_spec σ.1 mem LambdaAND H.can₁ H.spec₁
    (fun i hi => congrArg GarbleSlot.share (hlabels i hi)) fun i hi => H.spec₁.mask i hi
  rw [hn₁] at hkeep hslot hmkin hgamma
  rw [H.numAnds₁] at hσ
  have hrule := maskRules_gamma hgamma
  have hlam := lambdaEqs_of_shares H.eqs₁ H.eqs₂ (productEqs_of_sound H.eqs₁ H.eqs₂ hσ)
  have hinput : ∀ w < x.length, mk w = byteOf (inputWires x w ^^ shareBit (sh₁ w) (sh₂ w)) := by
    intro w hw
    rw [hmkin w hw, hin.lambda w hw, (hin.wire w hw).mask, H.spec₁.input w (hn₁ ▸ hw),
      H.spec₂.input w (hin.wf₂.size ▸ hw)]
    rfl
  have hmask : ∀ i < x.length + gs.length, mask i = mk i := fun i hi => congrArg MaskSlot.mask (hslot i hi)
  have hlamEq : ∀ i < x.length + gs.length, lam i = shareBit (sh₁ i) (sh₂ i) := by
    intro i hi
    simp only [lam, H.share₁ i hi, H.share₂ i hi]
  -- at an AND the mask is the entry of the vector
  have hentry : ForGates (fun k g => g.isAnd = true → mk g.out = byteOf (LambdaAND.getD k false)) 0 gs := by
    refine ForGates.imp (fun k g hg hand => ?_) hgamma
    cases hop : g.op <;> simp_all [GammaEqs, Gate.isAnd]
  have hmem : ForGates (fun _ g => g ∈ gs) 0 gs := forGates_of_mem fun _ g hg => hg
  have hmeets : ForGates (VectorMeets LambdaAND mask lam fun k => shareBit (σ.1 k) (σ.2 k)) 0 gs ↔
      ForGates (GateEq mk (fun w => shareBit (sh₁ w) (sh₂ w)) fun k => shareBit (σ.1 k) (σ.2 k)) 0 gs := by
    refine ForGates.congr (ForGates.imp (fun k g hR => ?_) (hentry.and hmem))
    obtain ⟨he, hg⟩ := hR
    refine imp_congr_right fun hand => ?_
    obtain ⟨hout, hsrcs⟩ := canonicalStream_lt hcan hg
    have hop : g.op = .And := Gate.op_of_isAnd hand
    have h0 := hsrcs g.in0 (by simp [Gate.srcs, hop])
    have h1 := hsrcs g.in1 (by simp [Gate.srcs, hop])
    rw [he hand, hmask _ h0, hmask _ h1, hlamEq _ h0, hlamEq _ h1, hlamEq _ hout]
    exact ⟨congrArg byteOf, byteOf_inj⟩
  have hopens : ForGates (VectorOpens LambdaAND v lam) 0 gs ↔ ForGates (fun _ g => g.isAnd = true →
      mk g.out = byteOf (v g.out ^^ shareBit (sh₁ g.out) (sh₂ g.out))) 0 gs := by
    refine ForGates.congr (ForGates.imp (fun k g hR => ?_) (hentry.and hmem))
    obtain ⟨he, hg⟩ := hR
    refine imp_congr_right fun hand => ?_
    rw [he hand, hlamEq _ (canonicalStream_lt hcan hg).1]
    exact ⟨congrArg byteOf, byteOf_inj⟩
  have hiff := gateEqs_iff hcan hrule hlam hinput
  refine ⟨hmeets.trans (hiff.trans hopens.symm), fun hvec o ho hlt => ?_⟩
  rw [hkeep o (persistent_output ho hlt), hlamEq o hlt]
  exact masks_carried hcan hrule hlam (hiff.mpr (hopens.mp hvec)) hinput o hlt

theorem vectorMeets_normalize {LambdaAND : List Bool} {mask : ℕ → UInt8} {lam sig : ℕ → Bool} (k : ℕ)
    (g : Gate) : VectorMeets LambdaAND mask lam sig k g.normalize ↔ VectorMeets LambdaAND mask lam sig k g := by
  obtain ⟨i0, i1, o, op⟩ := g
  cases op <;> simp [VectorMeets, Gate.normalize, Gate.isAnd]

theorem vectorOpens_normalize {LambdaAND : List Bool} {v lam : ℕ → Bool} (k : ℕ) (g : Gate) :
    VectorOpens LambdaAND v lam k g.normalize ↔ VectorOpens LambdaAND v lam k g := by
  obtain ⟨i0, i1, o, op⟩ := g
  cases op <;> simp [VectorOpens, Gate.normalize, Gate.isAnd]

/-- **Nothing binds the vector the garbler receives.** The garbler accepts any `Λ_AND`; the gate equation
holds at every AND, and the masks of its outputs open the cleartext outputs, exactly when every entry opens
the cleartext value of its gate. -/
theorem garblerCheck_sound_iff (h₁ : S.cot₁ = C.s₁) (h₂ : S.cot₂ = C.s₂) {p : BooleanProgram}
    (hp : ag2pcRequireRecordCanonical p = .ok ()) (hx : x.length = p.numInputs)
    (hin : Encodes S.Δ w₁ w₂ x) (hst : st.pool₁ = st.pool₂)
    (hP₁ : prepare S.cot₁ w₁ st.pool₁ (executeProgram p) = P₁)
    (hP₂ : prepare S.cot₂ w₂ st.pool₂ (executeProgram p) = P₂)
    (hσ : SigmaSound P₁.numAnds P₁.repA P₁.repB P₂.repA P₂.repB σ S.Δ) (seed : Block)
    (LambdaAND : List Bool) :
    let g := garblerSend S.tool S.Δ.d1 seed σ.1 P₁ w₁ (executeProgram p)
    let mem := garblerSlots P₁ g.2
    let mask := fun i => (garblerSlot σ.1 P₁ w₁ (executeProgram p) mem LambdaAND i).mask
    let out := gatherGarbler P₁ g.2 (garblerCheck σ.1 P₁ w₁ (executeProgram p) mem LambdaAND).2
    let lam := fun i => shareBit (shareOf S.cot₁ w₁ st.pool₁ (executeProgram p) i)
      (shareOf S.cot₂ w₂ st.pool₂ (executeProgram p) i)
    (ForGates (VectorMeets LambdaAND mask lam fun k => shareBit (σ.1 k) (σ.2 k)) 0 p.gates ∧
        ∀ i < p.outputs.length,
          (lowBit (out.lambdaAt i) ^^ lam (p.outputs.getD i 0)) = (p.eval x).getD i false) ↔
      ForGates (VectorOpens LambdaAND (evalGates (inputWires x) p.gates) lam) 0 p.gates := by
  intro g mem mask out lam
  have hcanon := recordCanonical_of_check hp
  obtain ⟨hstream, houts, hcan, hlt⟩ := executeProgram_stream hcanon hx
  obtain ⟨P₁', P₂', sh₁, sh₂, H⟩ := preparedPair h₁ h₂ hin.toSharesAgree hcan hst
  obtain rfl : P₁' = P₁ := H.prep₁.symm.trans hP₁
  obtain rfl : P₂' = P₂ := H.prep₂.symm.trans hP₂
  obtain ⟨hiff, hgather⟩ := garblerCheck_bound H hin hcan hσ seed LambdaAND
  rw [hstream, evalGates_normalize, forGates_normalize vectorMeets_normalize,
    forGates_normalize vectorOpens_normalize] at hiff
  rw [hstream, evalGates_normalize, forGates_normalize vectorOpens_normalize, ← hstream] at hgather
  refine ⟨fun h => hiff.mp h.1, fun h => ⟨hiff.mpr h, fun i hi => ?_⟩⟩
  have ho : p.outputs.getD i 0 ∈ (executeProgram p).outs x.length := by
    rw [houts]
    exact getD_mem 0 hi
  have hids : P₁'.outIds = p.outputs := by rw [H.spec₁.outIds, hin.wf₁.size, houts]
  have hlambda : out.lambdaAt i = byteOf (evalGates (inputWires x) p.gates (p.outputs.getD i 0) ^^
      lam (p.outputs.getD i 0)) := by
    simp only [out, SecureWires.lambdaAt, gatherGarbler, hids]
    rw [getD_map_of_lt _ 0 _ hi]
    exact hgather h _ ho (hlt _ ho)
  rw [hlambda, lowBit_byteOf, BooleanProgram.eval, getD_map_of_lt _ 0 _ hi]
  simp

end

/-! ### One AND of two public ones -/

/-- The wires of two public ones. -/
def onesWires (party : Party) : SecureWires := publicWires party (initAbit party 0) [1, 1]

/-- Passes 0 and 1 of a party on their conjunction. -/
def onesPrepared (party : Party) : Prepared :=
  prepare (fun _ => .zero) (onesWires party) {} (executeProgram andProgram)

/-- The gate's `σ` is zero, as both operand masks are. -/
theorem sigmaSound_ones : SigmaSound (onesPrepared .alice).numAnds (onesPrepared .alice).repA
    (onesPrepared .alice).repB (onesPrepared .bob).repA (onesPrepared .bob).repB
    (fun _ => .zero, fun _ => .zero) (.init 0 0) := by
  intro i hi
  have hnum : (onesPrepared .alice).numAnds = 1 := by decide
  obtain rfl : i = 0 := by omega
  exact ⟨.zero, by decide⟩

/-- The garble pass on that one gate. -/
def onesGarble : GarbleGlobals × (ℕ → GarbleSlot) :=
  garblerSend .transparent (initAbit .alice 0) zeroBlock (fun _ => .zero) (onesPrepared .alice)
    (onesWires .alice) (executeProgram andProgram)

/-- The masks of the gamma check on it. -/
def onesMask (LambdaAND : List Bool) (i : ℕ) : UInt8 :=
  (garblerSlot (fun _ => .zero) (onesPrepared .alice) (onesWires .alice) (executeProgram andProgram)
    (garblerSlots (onesPrepared .alice) onesGarble.2) LambdaAND i).mask

/-- The garbler's output wire. -/
def onesOut (LambdaAND : List Bool) : SecureWires :=
  gatherGarbler (onesPrepared .alice) onesGarble.2 (garblerCheck (fun _ => .zero) (onesPrepared .alice)
    (onesWires .alice) (executeProgram andProgram) (garblerSlots (onesPrepared .alice) onesGarble.2)
    LambdaAND).2

/-- The masks of the wires' shares. -/
def onesLambda (i : ℕ) : Bool :=
  shareBit (shareOf (fun _ => .zero) (onesWires .alice) {} (executeProgram andProgram) i)
    (shareOf (fun _ => .zero) (onesWires .bob) {} (executeProgram andProgram) i)

/-- The garbler accepts the vector 0, which does not meet the gate equation; its output then opens 0 in
place of 1. -/
theorem garblerCheck_zero :
    ¬ (ForGates (VectorMeets [false] (onesMask [false]) onesLambda fun _ => false) 0 andProgram.gates ∧
        ∀ i < andProgram.outputs.length, (lowBit ((onesOut [false]).lambdaAt i) ^^
          onesLambda (andProgram.outputs.getD i 0)) = (andProgram.eval [true, true]).getD i false) ∧
      (lowBit ((onesOut [false]).lambdaAt 0) ^^ onesLambda 2) = false ∧
      andProgram.eval [true, true] = [true] := by
  refine ⟨fun h => ?_, by decide⟩
  have hgate := h.1.1 rfl
  revert hgate
  decide

/-- The vector 1 is right, and the condition says so. -/
theorem garblerCheck_one :
    ForGates (VectorMeets [true] (onesMask [true]) onesLambda fun _ => false) 0 andProgram.gates ∧
      ∀ i < andProgram.outputs.length, (lowBit ((onesOut [true]).lambdaAt i) ^^
        onesLambda (andProgram.outputs.getD i 0)) = (andProgram.eval [true, true]).getD i false :=
  (garblerCheck_sound_iff (S := Setup.zeros) (C := CotStream.zeros (.init 0 0)) rfl rfl (by decide) rfl
    (encodes_publicWires _ [1, 1])
    (rfl : ({} : ProtoState).pool₁ = ({} : ProtoState).pool₂) rfl rfl sigmaSound_ones zeroBlock [true]).mpr
    ⟨fun _ => by decide, trivial⟩

/-- The masks of the evaluate pass on the honest stream. -/
def onesEvaluatorMask (i : ℕ) : UInt8 :=
  (evaluatorSlot .transparent (initAbit .bob 0) (fun _ => .zero) zeroBlock (onesPrepared .bob)
    (onesWires .bob) (executeProgram andProgram) onesGarble.1.finish.flatten i).mask

/-- The witnesses of that pass, which are those of the garbler. -/
def onesWitnesses : List Block :=
  (List.range (onesPrepared .bob).numAnds).map (evaluatorReceive .transparent (initAbit .bob 0) zeroBlock
    (fun _ => .zero) (onesPrepared .bob) (onesWires .bob) (executeProgram andProgram)
    onesGarble.1.finish.flatten).1.M1t

/-- They pass the evaluator's check, and its masks are right. -/
theorem evaluatorPath_sound_ones :
    SomeGate (GuessesDelta (.init 0 0) (shareOf (fun _ => .zero) (onesWires .alice) {}
        (executeProgram andProgram)) (fun _ => .zero) onesEvaluatorMask onesWitnesses) 0 andProgram.gates ∨
      ∀ i < andProgram.numWires, onesEvaluatorMask i =
        byteOf (evalGates (inputWires [true, true]) andProgram.gates i ^^ onesLambda i) :=
  evaluatorPath_sound (S := Setup.zeros) (C := CotStream.zeros (.init 0 0)) rfl rfl Function.injective_id
    (by decide) rfl (encodes_publicWires _ [1, 1])
    (rfl : ({} : ProtoState).pool₁ = ({} : ProtoState).pool₂) rfl rfl sigmaSound_ones zeroBlock
    (by decide) (evaluatorPath_self ..)

end AG2PC
