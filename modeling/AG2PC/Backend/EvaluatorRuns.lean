import AG2PC.Backend.HonestParty
import AG2PC.Backend.MaskSoundness

/-!
# An honest evaluator against any garbler

The calls of an evaluator's protocol object, in any order and on any wires made before, while the garbler sends
whatever it likes: share bits under the digest of any blocks, input bits, labels, ciphertext streams, digests for
`c_γ`. Two things are assumed: the triples are sound, and the bytes of shares and inputs are bits (`PartyStep`).

* `gammaGuesses` — a block for each AND the garbler garbles: the value of `Δ₂` it bets on when it deviates there.
* `MasksOpen.run` — an evaluator that does not abort opens the right masks, or the garbler bet on `Δ₂`.
* `EvaluatorEngine` — a run of the engine that does not abort; `evaluatorEngine_of_runSource` — two honest parties make
  one.
* `evaluator_sound` — over any such calls, every value the evaluator returns is that of the cleartext evaluation on
  its inputs and those the garbler claimed, or `Δ₂` is among the blocks the garbler bet on.
-/

namespace AG2PC

open Library.XorAlgebra Library.SlotReuse Library.ByIndex Library.Runs

/-! ### What a garbler bets on -/

/-- Garbling under the digest of `V`: AND by AND, what `V` holds off the true witness, formed with the masks `mask`. -/
def gammaGuesses (share₁ σ₁ : ℕ → AShareBundle) (mask : ℕ → UInt8) (V : List Block) : ℕ → List Gate → List Block
  | _, [] => []
  | k, g :: gs =>
    if g.isAnd then
      (V.getD k zeroBlock ^^^
          gammaAnd ⟨share₁ g.in0, mask g.in0⟩ ⟨share₁ g.in1, mask g.in1⟩ (share₁ g.out) (σ₁ k)) ::
        gammaGuesses share₁ σ₁ mask V (k + 1) gs
    else gammaGuesses share₁ σ₁ mask V k gs

section

variable {share₁ σ₁ : ℕ → AShareBundle} {mask : ℕ → UInt8} {V : List Block} {gs : List Gate}

theorem length_gammaGuesses : ∀ {k : ℕ}, (gammaGuesses share₁ σ₁ mask V k gs).length = countAnds gs := by
  induction gs with
  | nil => exact rfl
  | cons g gs ih =>
    intro k
    rw [gammaGuesses, countAnds, List.countP_cons]
    split_ifs with hand
    · rw [List.length_cons, ih, countAnds]
    · rw [ih, countAnds, Nat.add_zero]

/-- A gate at which the garbler's block is `Δ₂` off, the masks being those of a bet on the right operands. -/
theorem mem_gammaGuesses {Δ : Deltas} : ∀ {k : ℕ}, SomeGate (GuessesDelta Δ share₁ σ₁ mask V) k gs →
    Δ.d2 ∈ gammaGuesses share₁ σ₁ mask V k gs := by
  induction gs with
  | nil => exact fun h => h.elim
  | cons g gs ih =>
    intro k h
    rw [gammaGuesses]
    rcases h with ⟨hand, hV⟩ | hrest
    · rw [if_pos hand, hV]
      refine List.mem_cons.mpr (.inl ?_)
      rw [BitVec.xor_comm, word_xor_cancel]
    · have hmem := ih hrest
      rw [nextAnd] at hmem
      split_ifs with hand
      · rw [if_pos hand] at hmem
        exact List.mem_cons_of_mem _ hmem
      · rwa [if_neg hand] at hmem

end

/-! ### The engine -/

/-- **Up to a bad gate**: when at a gate whose operands are good the output is good or the gate is bad, all wires are
good or some gate with good operands is bad. -/
theorem ForGates.run_or {P : ℕ → Prop} {R T : ℕ → Gate → Prop}
    (hstep : ∀ k g, R k g → (∀ w ∈ g.srcs, P w) → T k g ∨ P g.out) {gs : List Gate} : ∀ {n k : ℕ},
      CanonicalStream n gs → ForGates R k gs → (∀ w < n, P w) →
        SomeGate (fun k g => T k g ∧ ∀ w ∈ g.srcs, P w) k gs ∨ ∀ w < n + gs.length, P w := by
  induction gs with
  | nil =>
    intro n k _ _ hlt
    exact .inr fun w hw => hlt w (by simpa using hw)
  | cons g gs ih =>
    intro n k hcan hR hlt
    obtain ⟨hout, hsrcs, hrest⟩ := canonicalStream_cons.mp hcan
    have hread : ∀ w ∈ g.srcs, P w := fun w hw => hlt w (hsrcs w hw)
    rcases hstep k g hR.1 hread with hbad | hgood
    · exact .inl (.inl ⟨hbad, hread⟩)
    · have hnext : ∀ w < n + 1, P w := by
        intro w hw
        by_cases hwn : w = g.out
        · exact hwn ▸ hgood
        · exact hlt w (by omega)
      rcases ih hrest hR.2 hnext with hsome | hall
      · exact .inl (.inr hsome)
      · refine .inr fun w hw => hall w ?_
        rw [List.length_cons] at hw
        omega

section

variable {D : Type} {S : Setup D} {C : CotStream S.Δ} {source : Body (List ℕ)} {w : SecureWires}
  {peer : List AShareBundle} {x : List Bool} {pool : TriplePool} {σ : (ℕ → AShareBundle) × (ℕ → AShareBundle)}

/-- What the gates of a stream read and write. -/
theorem ForGates.congr_wires {R T : ℕ → Gate → Prop} {gs : List Gate} {n : ℕ} (hcan : CanonicalStream n gs)
    (h : ForGates R 0 gs) (himp : ∀ k g, g.out < n + gs.length → (∀ w ∈ g.srcs, w < n + gs.length) → R k g → T k g) :
    ForGates T 0 gs := by
  refine ForGates.imp (fun k g hR => ?_) (h.and (forGates_of_mem fun _ g hg => canonicalStream_lt hcan hg))
  exact himp k g hR.2.1 hR.2.2 hR.1

/-- Shares of the products, by the shares of the wires of a stream. -/
theorem productEqs_congr {Δ : Deltas} {sh₁ sh₂ sh₁' sh₂' : ℕ → AShareBundle} {gs : List Gate} {n : ℕ}
    (hcan : CanonicalStream n gs) (hsh : ∀ i < n + gs.length, sh₁ i = sh₁' i ∧ sh₂ i = sh₂' i)
    (h : ForGates (ProductEqs Δ σ.1 σ.2 sh₁ sh₂) 0 gs) : ForGates (ProductEqs Δ σ.1 σ.2 sh₁' sh₂') 0 gs := by
  refine h.congr_wires hcan fun k g _ hlt hp hand => ?_
  have hop : g.op = .And := Gate.op_of_isAnd hand
  have hin0 := hsh g.in0 (hlt _ (by simp [Gate.srcs, hop]))
  have hin1 := hsh g.in1 (hlt _ (by simp [Gate.srcs, hop]))
  rw [← hin0.1, ← hin0.2, ← hin1.1, ← hin1.2]
  exact hp hand

/-- Masks of shares, by their values at the wires of a stream. -/
theorem lambdaEqs_congr {lam lam' sig : ℕ → Bool} {gs : List Gate} {n : ℕ} (hcan : CanonicalStream n gs)
    (hlam : ∀ i < n + gs.length, lam i = lam' i) (h : ForGates (LambdaEqs lam sig) 0 gs) :
    ForGates (LambdaEqs lam' sig) 0 gs := by
  refine h.congr_wires hcan fun k g hout hlt hl => ?_
  have hread : ∀ w ∈ g.srcs, lam w = lam' w := fun w hw => hlam w (hlt w hw)
  have hwrite := hlam _ hout
  cases hop : g.op <;> simp_all [LambdaEqs, Gate.srcs]

/-- The evaluate pass, by the shares of the wires of a stream. -/
theorem evalEqs_congr {E : EmpTool D} {Δ : Block} {sigma sh sh' : ℕ → AShareBundle} {start : MITCCRH}
    {ent : ℕ → StreamEntry} {ev : ℕ → Block} {mk Lam : ℕ → UInt8} {M : ℕ → Block} {gs : List Gate} {n : ℕ}
    (hcan : CanonicalStream n gs) (hsh : ∀ i < n + gs.length, sh i = sh' i)
    (h : ForGates (EvalEqs E Δ sigma sh start ent ev mk Lam M) 0 gs) :
    ForGates (EvalEqs E Δ sigma sh' start ent ev mk Lam M) 0 gs := by
  refine h.congr_wires hcan fun k g hout hlt he => ?_
  have hread : ∀ w ∈ g.srcs, sh w = sh' w := fun w hw => hsh w (hlt w hw)
  have hwrite := hsh _ hout
  cases hop : g.op <;> simp_all [EvalEqs, Gate.srcs]

/-- An evaluator that goes on has run the evaluate pass. -/
theorem evaluatorPath_eq [DecidableEq D] {E : EmpTool D} {Δ seed : Block} {sigma : ℕ → AShareBundle} {P : Prepared}
    {wire : List StreamEntry} {digest : D} {e : EvalGlobals × (ℕ → EvalSlot)}
    (hok : evaluatorPath E Δ seed sigma P w source wire digest = .ok e) :
    e = evaluatorReceive E Δ seed sigma P w source wire := by
  unfold evaluatorPath at hok
  dsimp only at hok
  split at hok
  · obtain ⟨_, -, hpure⟩ := bind_eq_ok hok
    cases hpure
    rfl
  · cases hok
    rfl

/-- One gate: its mask is the one it calls for, or it is an AND at which the garbler's block is `Δ₂` off. -/
theorem gateEq_or_guess {E : EmpTool D} {Δ : Deltas} {sh₁ sh₂ : ℕ → AShareBundle} {start : MITCCRH}
    {ent : ℕ → StreamEntry} {ev : ℕ → Block} {mk Lam : ℕ → UInt8} {M : ℕ → Block} {V : List Block} {k : ℕ} {g : Gate}
    (he : EvalEqs E Δ.d2 σ.2 sh₂ start ent ev mk Lam M k g) (hprod : ProductEqs Δ σ.1 σ.2 sh₁ sh₂ k g)
    (hout : MacRel Δ (sh₁ g.out) (sh₂ g.out)) (hsrcs : ∀ w ∈ g.srcs, MacRel Δ (sh₁ w) (sh₂ w))
    (hV : g.isAnd = true → M k = V.getD k zeroBlock) :
    GuessesDelta Δ sh₁ σ.1 mk V k g ∨
      GateEq mk (fun i => shareBit (sh₁ i) (sh₂ i)) (fun k => shareBit (σ.1 k) (σ.2 k)) k g := by
  by_cases hand : g.isAnd = true
  · have hop : g.op = .And := Gate.op_of_isAnd hand
    have hw := witness_gate hop he (hsrcs g.in0 (by simp [Gate.srcs, hop])) (hsrcs g.in1 (by simp [Gate.srcs, hop]))
      hout (hprod hand).1
    rw [hV hand] at hw
    simp only [EvalEqs, hop] at he
    generalize herr : (truthy (mk g.out) ^^ _) = err at hw
    cases err with
    | true => exact .inl ⟨hand, hw⟩
    | false =>
      refine .inr fun _ => ?_
      rw [← bne_eq_false_iff_eq.mp herr, he.2.1, truthy_byteOf]
  · exact .inr fun h => absurd h hand

/-- What the evaluate pass of a run has computed: `sh₁` and `sh₂` are the shares of the wires at the two parties, `ev`
the labels, `mk` the masks and `M` the witnesses. -/
structure EvaluatedRun (E : EmpTool D) (Δ : Deltas) (σ : (ℕ → AShareBundle) × (ℕ → AShareBundle)) (seed : Block)
    (wire : List StreamEntry) (n : ℕ) (gs : List Gate) (w₁ w : SecureWires) (sh₁ sh₂ : ℕ → AShareBundle)
    (ev : ℕ → Block) (mk Lam : ℕ → UInt8) (M : ℕ → Block) : Prop where
  rel : ∀ i < n + gs.length, MacRel Δ (sh₁ i) (sh₂ i)
  prod : ForGates (ProductEqs Δ σ.1 σ.2 sh₁ sh₂) 0 gs
  lam : ForGates (LambdaEqs (fun i => shareBit (sh₁ i) (sh₂ i)) fun k => shareBit (σ.1 k) (σ.2 k)) 0 gs
  eval : ForGates (EvalEqs E Δ.d2 σ.2 sh₂ (.setS seed) (fun k => wire.getD k default) ev mk Lam M) 0 gs
  share : ∀ i < n, sh₁ i = w₁.bundleAt i ∧ sh₂ i = w.bundleAt i
  input : ∀ i < n, ev i = w.evalLabelAt i ∧ mk i = w.lambdaAt i

/-- **The evaluate pass** on wires whose shares agree with the garbler's, whatever the stream. -/
theorem evaluatedRun (h₁ : S.cot₁ = C.s₁) (h₂ : S.cot₂ = C.s₂) {w₁ : SecureWires} {n : ℕ}
    (hin : SharesAgree S.Δ w₁ w n) (hcan : CanonicalStream n (source.stream n))
    (houts : ∀ o ∈ source.outs n, o < n + (source.stream n).length) {share₁ share₂ : ℕ → AShareBundle}
    (hs₁ : shareOf S.cot₁ w₁ pool source = share₁) (hs₂ : shareOf S.cot₂ w pool source = share₂)
    (hσ : ForGates (ProductEqs S.Δ σ.1 σ.2 share₁ share₂) 0 (source.stream n)) {P : Prepared}
    (hP : prepare S.cot₂ w pool source = P) {wire : List StreamEntry} (hwire : wire.length = P.numAnds) {seed : Block}
    {e : EvalGlobals × (ℕ → EvalSlot)} (he : evaluatorReceive S.tool S.Δ.d2 seed σ.2 P w source wire = e) :
    ∃ ev mk, EvaluatedRun S.tool S.Δ σ seed wire n (source.stream n) w₁ w share₁ share₂ ev mk e.1.LambdaAND e.1.M1t ∧
      ∀ o ∈ source.outs n, e.2 (P.phys o) = ⟨share₂ o, ev o, mk o⟩ := by
  obtain ⟨P₁, P₂, sh₁, sh₂, H⟩ :=
    preparedPair h₁ h₂ hin hcan (rfl : (⟨pool, pool, 0, 0⟩ : ProtoState).pool₁ = ProtoState.pool₂ _)
  obtain rfl : P₂ = P := H.prep₂.symm.trans hP
  have hn : w.size = n := hin.wf₂.size
  obtain ⟨ev, mk, hslots, -, hevin, heval⟩ := evaluatorReceive_spec S.tool S.Δ.d2 σ.2 seed H.can₂ H.spec₂ hwire
  rw [he, hn] at hslots heval
  rw [hn] at hevin
  have hshare : ∀ i < n + (source.stream n).length, sh₁ i = share₁ i ∧ sh₂ i = share₂ i :=
    fun i hi => ⟨(H.share₁ i hi).symm.trans (congrFun hs₁ i), (H.share₂ i hi).symm.trans (congrFun hs₂ i)⟩
  have hprod := productEqs_congr hcan (fun i hi => ⟨(hshare i hi).1.symm, (hshare i hi).2.symm⟩) hσ
  refine ⟨ev, mk, ⟨fun i hi => ?_, hσ, ?_, ?_, fun i hi => ?_, hevin⟩, fun o ho => ?_⟩
  · rw [← (hshare i hi).1, ← (hshare i hi).2]
    exact H.rel i hi
  · refine lambdaEqs_congr hcan (fun i hi => ?_) (lambdaEqs_of_shares H.eqs₁ H.eqs₂ hprod)
    rw [(hshare i hi).1, (hshare i hi).2]
  · exact evalEqs_congr hcan (fun i hi => (hshare i hi).2) heval
  · rw [← (hshare i (by omega)).1, ← (hshare i (by omega)).2, H.spec₁.input i (hin.wf₁.size ▸ hi),
      H.spec₂.input i (hn ▸ hi)]
    exact ⟨rfl, rfl⟩
  · rw [hslots o (persistent_output ho (houts o ho)), (hshare o (houts o ho)).2]

namespace EvaluatedRun

variable {E : EmpTool D} {Δ : Deltas} {seed : Block} {wire : List StreamEntry} {n : ℕ} {gs : List Gate}
  {w₁ : SecureWires} {sh₁ sh₂ : ℕ → AShareBundle} {ev : ℕ → Block} {mk Lam : ℕ → UInt8} {M : ℕ → Block}

/-- The two parties' shares of the operands and of the output of each gate agree. -/
theorem gates (h : EvaluatedRun E Δ σ seed wire n gs w₁ w sh₁ sh₂ ev mk Lam M) (hcan : CanonicalStream n gs) :
    ForGates (fun k g => (MacRel Δ (sh₁ g.out) (sh₂ g.out) ∧ ∀ i ∈ g.srcs, MacRel Δ (sh₁ i) (sh₂ i)) ∧
      (g.isAnd = true → k < countAnds gs)) 0 gs := by
  refine ForGates.and (forGates_of_mem fun _ g hg => ?_) (forGates_lt gs (Nat.le_of_eq (Nat.zero_add _)))
  obtain ⟨hout, hsrcs⟩ := canonicalStream_lt hcan hg
  exact ⟨h.rel _ hout, fun i hi => h.rel i (hsrcs i hi)⟩

/-- **Up to the first AND that goes wrong the masks open the values.** When the witnesses are the blocks `V`, all do, or
the garbler has bet on `Δ₂`: at that AND the operands' masks are still right, so its block is `Δ₂` off the witness
formed with the right masks. -/
theorem opens_or_bet (h : EvaluatedRun E Δ σ seed wire n gs w₁ w sh₁ sh₂ ev mk Lam M) (hcan : CanonicalStream n gs)
    {V : List Block} (hM : ∀ k < countAnds gs, M k = V.getD k zeroBlock) {x v : ℕ → Bool} (hv : evalGates x gs = v)
    (hin : ∀ i < n, mk i = byteOf (x i ^^ shareBit (sh₁ i) (sh₂ i))) :
    Δ.d2 ∈ gammaGuesses sh₁ σ.1 (fun i => byteOf (v i ^^ shareBit (sh₁ i) (sh₂ i))) V 0 gs ∨
      ∀ i < n + gs.length, mk i = byteOf (v i ^^ shareBit (sh₁ i) (sh₂ i)) := by
  have hvalue : ForGates (fun _ g => v g.out = g.value v) 0 gs := hv ▸ forGates_evalGates x hcan
  refine (ForGates.run_or (P := fun i => mk i = byteOf (v i ^^ shareBit (sh₁ i) (sh₂ i)))
    (T := GuessesDelta Δ sh₁ σ.1 mk V) (fun k g hR hread => ?_) hcan
    (((h.eval.and h.prod).and (h.gates hcan)).and ((maskRules_evaluate h.eval).and (h.lam.and hvalue)))
    fun i hi => ?_).imp_left fun hsome => mem_gammaGuesses (hsome.imp_mem fun k g hg hguess => ?_)
  · obtain ⟨⟨⟨he, hp⟩, ⟨hout, hsrcs⟩, hk⟩, hr, hl, hval⟩ := hR
    exact (gateEq_or_guess he hp hout hsrcs fun hand => hM k (hk hand)).imp_right
      fun heq => mask_carried hr hl hval heq hread
  · rw [hin i hi, ← hv, evalGates_of_lt hcan x hi]
  · obtain ⟨⟨hand, hV⟩, hread⟩ := hguess
    have hop : g.op = .And := Gate.op_of_isAnd hand
    refine ⟨hand, ?_⟩
    rw [hV, hread g.in0 (by simp [Gate.srcs, hop]), hread g.in1 (by simp [Gate.srcs, hop])]

end EvaluatedRun

/-- The wires of a run, gathered. -/
theorem MasksOpen.of_slots {P : Prepared} {outs : List ℕ} {e : EvalGlobals × (ℕ → EvalSlot)} {Δ : Deltas} {N : ℕ}
    {share₁ share₂ : ℕ → AShareBundle} {ev : ℕ → Block} {mk : ℕ → UInt8} {v : ℕ → Bool} (hids : P.outIds = outs)
    (hrel : ∀ i < N, MacRel Δ (share₁ i) (share₂ i)) (houts : ∀ o ∈ outs, o < N)
    (hslot : ∀ o ∈ outs, e.2 (P.phys o) = ⟨share₂ o, ev o, mk o⟩)
    (hall : ∀ i < N, mk i = byteOf (v i ^^ shareBit (share₁ i) (share₂ i))) :
    MasksOpen Δ .bob (outs.map share₁) (gatherEvaluator P e.2) (outs.map v) := by
  refine ⟨⟨?_, ?_, ?_⟩, ?_, fun i hi => ?_, fun i hi => ?_⟩
  · simp [SecureWires.size, gatherEvaluator, hids]
  · simp [gatherEvaluator, hids]
  · simp [SecureWires.labels, gatherEvaluator, hids]
  · simp
  all_goals
    rw [List.length_map] at hi
    have ho := getD_mem 0 hi
    have hlt := houts _ ho
    simp only [SecureWires.bundleAt, SecureWires.lambdaAt, gatherEvaluator, hids]
  · rw [getD_map_of_lt _ 0 _ hi, getD_map_of_lt _ 0 _ hi, hslot _ ho]
    exact hrel _ hlt
  · rw [getD_map_of_lt _ 0 _ hi, getD_map_of_lt _ 0 _ hi, getD_map_of_lt _ 0 _ hi, getD_map_of_lt _ 0 _ hi,
      hslot _ ho, shareBit_comm]
    exact hall _ hlt

/-- **An evaluator that does not abort opens the right masks**, from wires that do, or the garbler bet on `Δ₂`. -/
theorem MasksOpen.run [DecidableEq D] (h₁ : S.cot₁ = C.s₁) (h₂ : S.cot₂ = C.s₂) (hE : Function.Injective S.tool.hash)
    (h : MasksOpen S.Δ .bob peer w x) (hcan : CanonicalStream x.length (source.stream x.length))
    (houts : ∀ o ∈ source.outs x.length, o < x.length + (source.stream x.length).length)
    {label0 : List Block} (hlabel0 : label0.length = x.length) {share₁ share₂ : ℕ → AShareBundle}
    (hs₁ : shareOf S.cot₁ (garblerWires peer w.Lambda label0) pool source = share₁)
    (hs₂ : shareOf S.cot₂ w pool source = share₂)
    (hσ : ForGates (ProductEqs S.Δ σ.1 σ.2 share₁ share₂) 0 (source.stream x.length)) {seed : Block}
    {P : Prepared} (hP : prepare S.cot₂ w pool source = P) {wire : List StreamEntry} (hwire : wire.length = P.numAnds)
    {V : List Block} {e : EvalGlobals × (ℕ → EvalSlot)}
    (hok : evaluatorPath S.tool S.Δ.d2 seed σ.2 P w source wire (S.tool.hash V) = .ok e) :
    let gs := source.stream x.length
    let outs := source.outs x.length
    let v := evalGates (inputWires x) gs
    S.Δ.d2 ∈ gammaGuesses share₁ σ.1 (fun i => byteOf (v i ^^ shareBit (share₁ i) (share₂ i))) V 0 gs ∨
      MasksOpen S.Δ .bob (outs.map share₁) (gatherEvaluator P e.2) (outs.map v) := by
  intro gs outs v
  have hn : w.size = x.length := h.wf.size
  obtain ⟨sh, hspec, -⟩ := @prepare_spec S.cot₂ w pool source (hn ▸ hcan)
  rw [hP, hn] at hspec
  have he := evaluatorPath_eq hok
  obtain ⟨ev, mk, hrun, hslot⟩ :=
    evaluatedRun h₁ h₂ (h.sharesAgree₂ hlabel0) hcan houts hs₁ hs₂ hσ hP hwire he.symm
  have hM := evaluatorPath_ok hE hok
  rw [← he, hspec.numAnds] at hM
  refine (hrun.opens_or_bet hcan hM rfl fun i hi => ?_).imp_right
    fun hall => .of_slots hspec.outIds hrun.rel houts hslot hall
  rw [(hrun.input i hi).2, h.mask i hi, (hrun.share i hi).1, (hrun.share i hi).2, shareBit_comm]
  rfl

end

/-! ### Runs of the engine -/

/-- `run_source` at the evaluator on the wires `ids`, when it does not abort, whatever the garbler sends: a ciphertext
stream `wire`, the digest of the blocks `V` and a tweak seed. The shares `σ` of the triples are taken to be sound. -/
inductive EvaluatorEngine {D : Type} [DecidableEq D] (S : Setup D) : PartyWorld → CallRecord → PartyWorld → Prop
  | run (w : PartyWorld) (source : Body (List ℕ)) {ids : List ℕ} {args : SecureWires} {x : List Bool} {P : Prepared}
      {share₁ share₂ : ℕ → AShareBundle} {σ : (ℕ → AShareBundle) × (ℕ → AShareBundle)} {seed : Block}
      {label0 : List Block} {wire : List StreamEntry} {V : List Block} {e : EvalGlobals × (ℕ → EvalSlot)}
      (hids : ∀ i ∈ ids, i < w.value.length) (hargs : w.wires.gather ids = args)
      (hx : ids.map (w.value.getD · false) = x) (hcan : CanonicalStream x.length (source.stream x.length))
      (houts : ∀ o ∈ source.outs x.length, o < x.length + (source.stream x.length).length)
      (hP : prepare S.cot₂ args w.pool source = P) (hwire : wire.length = P.numAnds)
      (hlabel0 : label0.length = x.length)
      (hs₁ : shareOf S.cot₁ (garblerWires (ids.map (w.peer.getD · .zero)) args.Lambda label0) w.pool source = share₁)
      (hs₂ : shareOf S.cot₂ args w.pool source = share₂)
      (hσ : ForGates (ProductEqs S.Δ σ.1 σ.2 share₁ share₂) 0 (source.stream x.length))
      (hpath : evaluatorPath S.tool S.Δ.d2 seed σ.2 P args source wire (S.tool.hash V) = .ok e) :
      EvaluatorEngine S w
        { guesses := gammaGuesses share₁ σ.1 (fun i => byteOf (evalGates (inputWires x) (source.stream x.length) i ^^
            shareBit (share₁ i) (share₂ i))) V 0 (source.stream x.length)
          checked := P.numAnds }
        (w.add (P.pool.afterTriples S.ssp P.numAnds).maybeFlushCotCheck ((source.outs x.length).map share₁)
          (gatherEvaluator P e.2)
          ((source.outs x.length).map (evalGates (inputWires x) (source.stream x.length))))

section

variable {D : Type} [DecidableEq D] {S : Setup D} {C : CotStream S.Δ} {w w' : PartyWorld} {r : CallRecord}

/-- The garbler bets on one block for each AND. -/
theorem EvaluatorEngine.length_guesses (h : EvaluatorEngine S w r w') : r.guesses.length = r.checked := by
  cases h with
  | @run source ids args x _ _ _ _ _ _ _ _ _ hids hargs hx hcan houts hP =>
    have hsize : args.size = x.length := by
      rw [← hargs, ← hx]
      simp [SecureWires.size, SecureWires.gather]
    obtain ⟨_, hspec, -⟩ := @prepare_spec S.cot₂ args w.pool source (by rw [hsize]; exact hcan)
    dsimp only
    rw [length_gammaGuesses, ← hP, hspec.numAnds, hsize]

/-- The masks still open the bits, or the garbler bet on `Δ₂`. -/
theorem EvaluatorEngine.sound (h₁ : S.cot₁ = C.s₁) (h₂ : S.cot₂ = C.s₂) (hE : Function.Injective S.tool.hash)
    (hw : w.Opens S.Δ .bob) (h : EvaluatorEngine S w r w') :
    S.Δ.d2 ∈ r.guesses ∨ w'.Opens S.Δ .bob ∧ r.out = r.clear.map byteOf := by
  cases h with
  | run source hids hargs hx hcan houts hP hwire hlabel0 hs₁ hs₂ hσ hpath =>
    subst hargs hx
    exact ((hw.gather hids).run h₁ h₂ hE hcan houts hlabel0 hs₁ hs₂ hσ hP hwire hpath).imp_right
      fun hopen => ⟨hw.append hopen, rfl⟩

/-! ### Runs of two honest parties -/

/-- The evaluator's pool when `compute_inplace` is done. -/
theorem computeInplace_pool {E : EmpTool D} {Δ : Deltas} {cot₁ cot₂ : ℕ → AShareBundle} {ssp L : ℕ} {raw : ℕ → ℕ}
    {nonce : Block} {repA₁ repB₁ repA₂ repB₂ : ℕ → AShareBundle} {t₁ t₂ : TriplePool}
    {σ : (ℕ → AShareBundle) × (ℕ → AShareBundle)} {t : TriplePool × TriplePool}
    (h : computeInplace E Δ cot₁ cot₂ ssp raw nonce L repA₁ repB₁ repA₂ repB₂ t₁ t₂ = .ok (σ, t)) :
    t.2.maybeFlushCotCheck = (t₂.afterTriples ssp L).maybeFlushCotCheck := by
  unfold computeInplace computeInplaceWith at h
  unfold TriplePool.afterTriples
  split_ifs at h ⊢ with h0
  · cases h
    rfl
  · obtain ⟨_, -, hpure⟩ := bind_eq_ok h
    cases hpure
    have hpads := computeLayers_pads E (Δ := Δ) (L := L) .bob .none raw (getBucketSize ssp L) repA₁ repB₁ repA₂ repB₂
      t₁ t₂ cot₁ cot₂
    rw [TriplePool.maybeFlushCotCheck_eq, TriplePool.maybeFlushCotCheck_eq]
    exact congrArg (TriplePool.mk · false) hpads.used

/-- An evaluator that goes on after the exchange with an honest garbler has accepted the digest of its witnesses. -/
theorem evaluatorPath_of_exchange {σ : (ℕ → AShareBundle) × (ℕ → AShareBundle)} {P₁ P₂ : Prepared} {w₁ w₂ : SecureWires}
    {source : Body (List ℕ)} {seed : Block} {slots mem : ℕ → MaskSlot} {wire : List StreamEntry}
    (hnum : P₁.numAnds = P₂.numAnds) (h : gammaExchange S σ.1 P₁ P₂ w₁ source slots
      (evaluatorReceive S.tool S.Δ.d2 seed σ.2 P₂ w₂ source wire).1 = .ok mem) :
    ∃ V, evaluatorPath S.tool S.Δ.d2 seed σ.2 P₂ w₂ source wire (S.tool.hash V) =
      .ok (evaluatorReceive S.tool S.Δ.d2 seed σ.2 P₂ w₂ source wire) := by
  refine ⟨(List.range P₁.numAnds).map (garblerCheck σ.1 P₁ w₁ source slots (sendLambda P₂.numAnds
    (evaluatorReceive S.tool S.Δ.d2 seed σ.2 P₂ w₂ source wire).1)).1.M1t, ?_⟩
  unfold gammaExchange at h
  unfold evaluatorPath
  dsimp only
  rw [← hnum]
  split_ifs at h ⊢
  · obtain ⟨_, hcheck, -⟩ := bind_eq_ok h
    rw [← hnum, gammaDigest] at hcheck
    rw [hcheck]
    rfl
  · rfl

/-- **A run of two honest parties is a call**, on wires that open bits. -/
theorem evaluatorEngine_of_runSource (h₁ : S.cot₁ = C.s₁) (h₂ : S.cot₂ = C.s₂)
    (hw : w.Opens S.Δ .bob) {ids : List ℕ} {own : List AShareBundle} {args : SecureWires}
    {x : List Bool} (hids : ∀ i ∈ ids, i < w.value.length) (hown : ids.map (w.peer.getD · .zero) = own)
    (hargs : w.wires.gather ids = args) (hx : ids.map (w.value.getD · false) = x) {source : Body (List ℕ)}
    (hcan : CanonicalStream x.length (source.stream x.length))
    (houts : ∀ o ∈ source.outs x.length, o < x.length + (source.stream x.length).length) {label0 : List Block}
    (hlabel0 : label0.length = x.length) {st st' : ProtoState} (hst : st.pool₁ = w.pool ∧ st.pool₂ = w.pool)
    {out : SecureWires × SecureWires}
    (hrun : runSource S source (garblerWires own args.Lambda label0) args st = .ok (out, st')) :
    ∃ r peer, r.out = [] ∧ EvaluatorEngine S w r (w.add st'.pool₂ peer out.2
      ((source.outs x.length).map (evalGates (inputWires x) (source.stream x.length)))) := by
  have hopen : MasksOpen S.Δ .bob own args x := by
    rw [← hown, ← hargs, ← hx]
    exact hw.gather hids
  obtain ⟨P₁, P₂, sh₁, sh₂, H⟩ := preparedPair h₁ h₂ (hopen.sharesAgree₂ hlabel0) hcan (hst.1.trans hst.2.symm)
  have hops := macRel_operands hcan H.eqs₁ H.eqs₂ H.rel
  -- the triples of an honest run are sound
  obtain ⟨σ, t, hcompute, -, hsound⟩ := computeInplace_ok S.tool C S.ssp (S.tape.shift st.runs)
    (S.tape.nonce st.runs) P₁.numAnds (fun i hi => (hops i (H.numAnds₁ ▸ hi)).1)
    (fun i hi => (hops i (H.numAnds₁ ▸ hi)).2) (congrArg TriplePool.used H.pool)
  rw [← h₁, ← h₂] at hcompute
  rw [H.numAnds₁] at hsound
  have hprod : ForGates (ProductEqs S.Δ σ.1 σ.2 (shareOf S.cot₁ (garblerWires own args.Lambda label0) w.pool source)
      (shareOf S.cot₂ args w.pool source)) 0 (source.stream x.length) := by
    refine productEqs_congr hcan (fun i hi => ?_) (productEqs_of_sound H.eqs₁ H.eqs₂ hsound)
    rw [← H.share₁ i hi, ← H.share₂ i hi, hst.1, hst.2]
    exact ⟨rfl, rfl⟩
  obtain ⟨-, -, -, hlen, -⟩ := garblerSend_spec S.tool S.Δ.d1 σ.1 (S.tape.seed st.runs) H.can₁ H.spec₁
  have hpool := computeInplace_pool hcompute
  rw [H.numAnds₁, ← H.numAnds₂] at hlen hpool
  unfold runSource at hrun
  dsimp only at hrun
  rw [H.prep₁, H.prep₂, hcompute] at hrun
  obtain ⟨_, hσ, hrest⟩ := bind_eq_ok hrun
  cases hσ
  obtain ⟨mem, hexchange, hpure⟩ := bind_eq_ok hrest
  cases hpure
  -- what the evaluator checked is the digest of the garbler's witnesses
  obtain ⟨V, hpath⟩ := evaluatorPath_of_exchange (H.numAnds₁.trans H.numAnds₂.symm) hexchange
  have hstep := EvaluatorEngine.run w source hids hargs hx hcan houts (hst.2 ▸ H.prep₂) hlen hlabel0 (by rw [hown]) rfl
    hprod hpath
  rw [← hpool] at hstep
  exact ⟨_, _, rfl, hstep⟩

/-- **An honest evaluator is sound against any garbler**, given sound triples. Whatever calls it makes, in any order,
and whatever the garbler sends in them, its share and input bytes being bits: if none aborts, every value the evaluator
returns is that of the cleartext evaluation, on its own inputs and on those the garbler claimed, or `Δ₂` is one of the
blocks the garbler bet on, of which there is one for each bit it opened and each AND it garbled. -/
theorem evaluator_sound (h₁ : S.cot₁ = C.s₁) (h₂ : S.cot₂ = C.s₂) (hE : Function.Injective S.tool.hash)
    {recs : List CallRecord} (hrun : Chain (PartyStep S .bob (EvaluatorEngine S)) {} recs w) :
    (recs.flatMap CallRecord.guesses).length = (recs.map CallRecord.checked).sum ∧
      (S.Δ.d2 ∈ recs.flatMap CallRecord.guesses ∨ w.Opens S.Δ .bob ∧ ∀ r ∈ recs, r.out = r.clear.map byteOf) :=
  partyChain_sound h₁ h₂ hE (fun _ _ _ h => h.length_guesses) (fun _ _ _ hw h => h.sound h₁ h₂ hE hw) hrun

end

/-! ### A conjunction of two public ones, decoded -/

/-- The run of the conjunction, on the honest stream and the digest of the witnesses. -/
theorem publicOnes_run : ∃ r w, EvaluatorEngine .zeros (publicOnes .bob) r w ∧ r.out = [] ∧
    w.value = [true, true, true] ∧ w.peer = [.zero, .zero, .zero] ∧
    w.wires.gather [2] = ⟨[1], [.zero], [zeroBlock], [initAbit .alice 0]⟩ := by
  obtain ⟨-, -, hcan, houts⟩ := executeProgram_stream
    (recordCanonical_of_check (by decide : ag2pcRequireRecordCanonical andProgram = .ok ())) (rfl : 2 = _)
  have hrun := EvaluatorEngine.run (S := .zeros) (publicOnes .bob) (executeProgram andProgram)
    (by decide : ∀ i ∈ [0, 1], i < (publicOnes .bob).value.length) rfl rfl hcan houts rfl (by decide)
    (rfl : [zeroBlock, zeroBlock].length = _) rfl rfl (σ := (fun _ => .zero, fun _ => .zero))
    ⟨fun _ => ⟨.zero, by decide⟩, trivial⟩
    (evaluatorPath_self .transparent (initAbit .bob 0) zeroBlock (fun _ => .zero) (onesPrepared .bob) (onesWires .bob)
      (executeProgram andProgram) onesGarble.1.finish.flatten)
  exact ⟨_, _, hrun, rfl, by decide, by decide, by decide⟩

/-- It is decoded: the evaluator returns one, and the garbler has bet on a block for the AND and one for the bit. -/
theorem evaluator_sound_conjunction : ∃ recs w, Chain (PartyStep .zeros .bob (EvaluatorEngine .zeros)) {} recs w ∧
    recs.map CallRecord.out = [[], [], [1]] ∧
      (recs.flatMap CallRecord.guesses).length = (recs.map CallRecord.checked).sum ∧
      (initAbit .bob 0 ∈ recs.flatMap CallRecord.guesses ∨
        w.Opens (.init 0 0) .bob ∧ ∀ r ∈ recs, r.out = r.clear.map byteOf) := by
  obtain ⟨r, w, hrun, hout, hvalue, -, hwires⟩ := publicOnes_run
  have hdecode : PartyStep .zeros .bob (EvaluatorEngine .zeros) w _ w := PartyStep.decode w .PUBLIC rfl
    (by rw [hvalue]; decide : ∀ i ∈ [2], i < w.value.length) (rfl : [false].length = _) (rfl : [zeroBlock].length = _)
    (by rw [hwires]; decide : decodeAt EmpTool.transparent .bob (initAbit .bob 0) (w.wires.gather [2])
      ⟨[false].map byteOf, [zeroBlock]⟩ = .ok [1])
  have hchain : Chain (PartyStep .zeros .bob (EvaluatorEngine .zeros)) {} [{}, r, _] w :=
    .cons (.publicWires {} [1, 1]) (.cons (.engine hrun) (.cons hdecode .nil))
  exact ⟨_, _, hchain, by simp [hout],
    evaluator_sound (S := .zeros) (C := .zeros _) rfl rfl Function.injective_id hchain⟩

end AG2PC
