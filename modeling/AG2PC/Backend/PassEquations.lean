import AG2PC.Backend.PassRuns

/-!
# The equations of garble, evaluate and gamma check

What the three passes over ciphertexts leave, gate by gate: in terms of the shares `sh` of the wires,
the labels `lb` and `ev`, the opened masks `mk`, the stream entries `ent` and the witnesses `M`, all
as functions of wires or of the AND index.

* `garblerSend_spec` — the garble pass solves `GarbleEqs`, and its chunks hold one entry an AND.
* `evaluatorReceive_spec` — the evaluate pass solves `EvalEqs` on any stream of the right length; its
  receiver's chunks, joined, are the stream (`recvChunks_flatten`).
* `garblerCheck_spec` — the gamma check pass solves `GammaEqs` for any vector `Λ_AND`.
-/

namespace AG2PC

open Library.XorAlgebra Library.SlotReuse Library.ByIndex

/-- The outputs of ANDs persist. -/
theorem persistent_and {n : ℕ} {gs : List Gate} {outs : List ℕ} (h : CanonicalStream n gs) {g : Gate}
    (hg : g ∈ gs) (hand : g.isAnd = true) : Persistent n gs outs g.out := by
  have hper : ∀ {lastUse : ℕ → Option ℕ} {persist : ℕ → Bool} {k : ℕ} {gs : List Gate},
      ReadsCovered lastUse persist k gs → g ∈ gs → persist g.out = true := by
    intro lastUse persist k gs
    induction gs generalizing k with
    | nil =>
      intro _ hg
      cases hg
    | cons g' gs ih =>
      intro hcov hg
      obtain ⟨-, hand', hrest⟩ := hcov
      rcases List.mem_cons.mp hg with rfl | hg
      · exact hand' hand
      · exact ih hrest hg
  exact ⟨hper (readsCovered_stream h) hg, (canonicalStream_lt h hg).1⟩

/-- A pass over a source, as a run on the slot map. -/
theorem machinePass_runSource {G V : Type} (M : Machine gateLayout G V) (phys : ℕ → ℕ)
    (source : Body (List ℕ)) (n : ℕ) (s : G × (ℕ → V)) :
    ((machinePass M phys).runSource n source s).2.s = M.run phys (source.stream n) s :=
  Pass.runSource_eq (machinePass M phys) (M.stepAt phys) source n s (machinePass_step M phys)

/-! ### Garble -/

/-- The equations of the garble pass. -/
def GarbleEqs {D : Type} (E : EmpTool D) (Δ : Block) (sigma sh : ℕ → AShareBundle) (start : MITCCRH)
    (ent : ℕ → StreamEntry) (lb : ℕ → Block) (k : ℕ) (g : Gate) : Prop :=
  match g.op with
  | .Const0 => lb g.out = zeroBlock
  | .Const1 => lb g.out = Δ
  | .Xor => lb g.out = lb g.in0 ^^^ lb g.in1
  | .Not => lb g.out = lb g.in0 ^^^ Δ
  | .And => garbleAnd E Δ (start.advance k) ⟨sh g.in0, lb g.in0⟩ ⟨sh g.in1, lb g.in1⟩ (sh g.out) (sigma k) =
      (ent k, lb g.out)

/-- The stream entries garbled so far. -/
def GarbleGlobals.entries (s : GarbleGlobals) : List StreamEntry := s.sent.flatten ++ s.cur

/-- The chunks sent hold the entries garbled. -/
theorem GarbleGlobals.finish_flatten (s : GarbleGlobals) : s.finish.flatten = s.entries := by
  unfold finish entries
  split
  · next h => rw [List.eq_nil_of_length_eq_zero h, List.append_nil]
  · rw [List.flatten_append, List.flatten_singleton]

section

variable {D : Type} (E : EmpTool D) (Δ : Block) (sigma : ℕ → AShareBundle) {g : Gate} (s : GarbleGlobals)
  (r : ℕ → GarbleSlot) (old : GarbleSlot)

theorem garbleGate_of_not_and (h : g.isAnd = false) : (garbleGate E Δ sigma g s r old).1 = s := by
  cases hg : g.op <;> simp_all [garbleGate, Gate.isAnd]

/-- An AND adds its entry to the stream and uses up one key. -/
theorem garbleGate_and (h : g.isAnd = true) :
    (garbleGate E Δ sigma g s r old).1.entries =
        s.entries ++ [(garbleAnd E Δ s.mitc (r g.in0) (r g.in1) old.share (sigma s.ai)).1] ∧
      (garbleGate E Δ sigma g s r old).1.ai = s.ai + 1 ∧
      (garbleGate E Δ sigma g s r old).1.mitc = s.mitc.advance 1 ∧
      (garbleGate E Δ sigma g s r old).2 =
        ⟨old.share, (garbleAnd E Δ s.mitc (r g.in0) (r g.in1) old.share (sigma s.ai)).2⟩ := by
  have hop : g.op = .And := Gate.op_of_isAnd h
  simp only [garbleGate, hop]
  split
  · refine ⟨?_, rfl, rfl, trivial⟩
    simp [GarbleGlobals.entries, List.append_assoc]
  · refine ⟨?_, rfl, rfl, trivial⟩
    simp [GarbleGlobals.entries, List.append_assoc]

end

section

variable {D : Type} {E : EmpTool D} {Δ : Block} {sigma : ℕ → AShareBundle} {f p : ℕ → GarbleSlot}

/-- The stream only grows, by one entry an AND. -/
theorem garble_globals (gs : List Gate) : ∀ s : GarbleGlobals,
    s.entries <+: ((garbleMachine E Δ sigma).globals f p s gs).entries ∧
      ((garbleMachine E Δ sigma).globals f p s gs).entries.length = s.entries.length + countAnds gs := by
  induction gs with
  | nil =>
    intro s
    exact ⟨List.prefix_refl _, rfl⟩
  | cons g gs ih =>
    intro s
    have hcount := nextAnd_add_countAnds s.entries.length g gs
    obtain ⟨hpre, hlen⟩ := ih (garbleGate E Δ sigma g s f (p g.out)).1
    rw [Machine.globals]
    change _ <+: ((garbleMachine E Δ sigma).globals f p (garbleGate E Δ sigma g s f (p g.out)).1 gs).entries ∧
      ((garbleMachine E Δ sigma).globals f p (garbleGate E Δ sigma g s f (p g.out)).1 gs).entries.length = _
    rw [nextAnd] at hcount
    cases hand : g.isAnd with
    | false =>
      rw [garbleGate_of_not_and E Δ sigma s f _ hand] at hpre hlen ⊢
      rw [hand] at hcount
      exact ⟨hpre, hlen.trans hcount⟩
    | true =>
      obtain ⟨hent, -⟩ := garbleGate_and E Δ sigma s f (p g.out) hand
      rw [hent] at hpre hlen
      rw [hand, if_pos rfl] at hcount
      refine ⟨(List.prefix_append _ _).trans hpre, ?_⟩
      rw [hlen, List.length_append, List.length_singleton, hcount]

/-- The final labels and entries solve the garble equations. -/
theorem garble_eqs {sh : ℕ → AShareBundle} {start : MITCCRH} {N : ℕ} (hsh : ∀ w < N, (f w).share = sh w)
    {gs : List Gate} (hlt : ∀ g ∈ gs, g.out < N ∧ ∀ w ∈ g.srcs, w < N) {s : GarbleGlobals}
    (hmitc : s.mitc = start.advance s.ai) (hlen : s.entries.length = s.ai)
    (hsolves : (garbleMachine E Δ sigma).Solves f p s gs) :
    ForGates (GarbleEqs E Δ sigma sh start
      (fun k => ((garbleMachine E Δ sigma).globals f p s gs).entries.getD k default)
      fun w => (f w).label) s.ai gs := by
  generalize hfinal : (garbleMachine E Δ sigma).globals f p s gs = final
  refine forGates_of_solves (garbleMachine E Δ sigma) GarbleGlobals.ai _
    (fun s gs => s.mitc = start.advance s.ai ∧ s.entries.length = s.ai ∧
      (garbleMachine E Δ sigma).globals f p s gs = final) ?_ hlt ⟨hmitc, hlen, hfinal⟩ hsolves
  rintro g gs s ⟨hout, hsrcs⟩ ⟨hmitc, hlen, hfinal⟩ hg
  change (garbleMachine E Δ sigma).globals f p (garbleGate E Δ sigma g s f (p g.out)).1 gs = final at hfinal
  change f g.out = (garbleGate E Δ sigma g s f (p g.out)).2 at hg
  change _ ∧ (garbleGate E Δ sigma g s f (p g.out)).1.ai = _ ∧
    (garbleGate E Δ sigma g s f (p g.out)).1.mitc = start.advance (garbleGate E Δ sigma g s f (p g.out)).1.ai ∧
      (garbleGate E Δ sigma g s f (p g.out)).1.entries.length = (garbleGate E Δ sigma g s f (p g.out)).1.ai ∧
        (garbleMachine E Δ sigma).globals f p (garbleGate E Δ sigma g s f (p g.out)).1 gs = final
  refine ⟨?_, ?_⟩
  · cases hand : g.isAnd with
    | false => cases hop : g.op <;> simp_all [garbleGate, GarbleEqs, Gate.isAnd]
    | true =>
      obtain ⟨hent, -, -, hslot⟩ := garbleGate_and E Δ sigma s f (p g.out) hand
      have hop : g.op = .And := Gate.op_of_isAnd hand
      have hslot' := hg.trans hslot
      -- the entry garbled here stays at its place in the stream
      obtain ⟨⟨rest, hrest⟩, -⟩ := garble_globals (E := E) (Δ := Δ) (f := f) (p := p) gs
        (garbleGate E Δ sigma g s f (p g.out)).1
      have hread : ∀ w ∈ g.srcs, f w = ⟨sh w, (f w).label⟩ := by
        intro w hw
        rw [← hsh w (hsrcs w hw)]
      have hown : (p g.out).share = sh g.out := by
        rw [← hsh g.out hout, hslot']
      have hentk : final.entries.getD s.ai default =
          (garbleAnd E Δ s.mitc (f g.in0) (f g.in1) (p g.out).share (sigma s.ai)).1 := by
        rw [← hfinal, ← hrest, hent, ← hlen]
        simp [List.getD_eq_getElem?_getD]
      simp only [GarbleEqs, hop]
      rw [hentk, hslot', ← hmitc, ← hread g.in0 (by simp [Gate.srcs, hop]),
        ← hread g.in1 (by simp [Gate.srcs, hop]), ← hown]
  · rw [nextAnd]
    cases hand : g.isAnd with
    | false =>
      rw [garbleGate_of_not_and E Δ sigma s f _ hand] at hfinal ⊢
      exact ⟨rfl, hmitc, hlen, hfinal⟩
    | true =>
      obtain ⟨hent, hai, hmitc', -⟩ := garbleGate_and E Δ sigma s f (p g.out) hand
      refine ⟨hai, by rw [hmitc', hai, hmitc]; rfl, ?_, hfinal⟩
      rw [hent, List.length_append, hlen, hai]
      rfl

variable (E Δ sigma) in
/-- **The garble pass of a party.** -/
theorem garblerSend_spec {cot : ℕ → AShareBundle} {w : SecureWires} {u : ℕ} {source : Body (List ℕ)}
    {P : Prepared} {sh : ℕ → AShareBundle} (seed : Block)
    (h : CanonicalStream w.size (source.stream w.size))
    (hP : PreparedSpec cot w u (source.stream w.size) (source.outs w.size) P sh) :
    ∃ lb : ℕ → Block,
      (∀ i, Persistent w.size (source.stream w.size) (source.outs w.size) i →
        (garblerSend E Δ seed sigma P w source).2 (P.phys i) = ⟨sh i, lb i⟩) ∧
      (∀ i < w.size, lb i = w.label0At i) ∧
      (garblerSend E Δ seed sigma P w source).1.finish.flatten.length = P.numAnds ∧
      ForGates (GarbleEqs E Δ sigma sh (.setS seed) (fun k =>
        (garblerSend E Δ seed sigma P w source).1.finish.flatten.getD k default) lb) 0
        (source.stream w.size) := by
  unfold garblerSend
  rw [machinePass_runSource, hP.phys]
  set s₀ : GarbleGlobals × (ℕ → GarbleSlot) :=
    ({ mitc := .setS seed }, fun a => ⟨(P.mem a).share, w.label0At a⟩) with hs₀
  obtain ⟨f, hsolves, hglobals, hmem, hlt, -⟩ := machine_spec (garbleMachine E Δ sigma)
    (source.outs w.size) h s₀
  rw [GarbleGlobals.finish_flatten, hglobals]
  have hinput : ∀ i < w.size, f i = ⟨sh i, w.label0At i⟩ := by
    intro i hi
    rw [hlt i hi, hs₀]
    simp only
    rw [← hP.shares i (persistent_input h hi), hP.physInput i hi]
  have hshares : ∀ i < w.size + (source.stream w.size).length, (f i).share = sh i := by
    refine solves_shares GarbleSlot.share (fun g s r v => ?_) h hsolves hP.eqs
      (fun i hi => by rw [hinput i hi]) fun g hg hand => ?_
    · change (garbleGate E Δ sigma g s r v).2.share = _
      cases hop : g.op <;> simp [garbleGate, shareRule, hop]
    · have := hP.shares g.out (persistent_and h hg hand)
      rwa [hP.phys] at this
  refine ⟨fun i => (f i).label, fun i hi => ?_, fun i hi => congrArg GarbleSlot.label (hinput i hi), ?_, ?_⟩
  · rw [hmem i hi, ← hshares i hi.2]
  · rw [(garble_globals _ _).2, hP.numAnds]
    exact Nat.zero_add _
  · exact garble_eqs hshares (fun _ hg => canonicalStream_lt h hg) rfl rfl hsolves

end

/-! ### The evaluator's inbox -/

/-- What the evaluate pass has not read yet: `rest`, in chunks none of which is empty. -/
structure InboxOk (s : EvalGlobals) (rest : List StreamEntry) : Prop where
  chunks : ∀ c ∈ s.inbox, c ≠ []
  loc : s.loc ≤ (s.cur.getD []).length
  pending : (s.cur.getD []).drop s.loc ++ s.inbox.flatten = rest

/-- Taking an entry takes the first one not read yet. -/
theorem InboxOk.next {s : EvalGlobals} {e : StreamEntry} {rest : List StreamEntry}
    (h : InboxOk s (e :: rest)) : s.next.1 = e ∧ InboxOk s.next.2 rest := by
  obtain ⟨hchunks, hloc, hpending⟩ := h
  unfold EvalGlobals.next
  by_cases hfetch : s.cur = none ∨ s.loc = (s.cur.getD []).length
  · -- the chunk is used up: the entry is the first of the next one
    have hdrop : (s.cur.getD []).drop s.loc = [] := by
      rcases hfetch with hnone | hend
      · simp [hnone]
      · rw [hend, List.drop_length]
    rw [hdrop, List.nil_append] at hpending
    cases hin : s.inbox with
    | nil =>
      rw [hin] at hpending
      cases hpending
    | cons c cs =>
      have hc : c ≠ [] := hchunks c (hin ▸ List.mem_cons_self)
      obtain ⟨x, xs, rfl⟩ := List.exists_cons_of_ne_nil hc
      rw [hin, List.flatten_cons, List.cons_append] at hpending
      obtain ⟨rfl, hrest⟩ := List.cons.inj hpending
      simp only [if_pos hfetch]
      refine ⟨rfl, ⟨fun c hc => hchunks c (hin ▸ List.mem_cons_of_mem _ hc), ?_, ?_⟩⟩
      · simp
      · simpa using hrest
  · obtain ⟨hsome, hlt⟩ := not_or.mp hfetch
    obtain ⟨c, hcur⟩ := Option.ne_none_iff_exists'.mp hsome
    rw [hcur, Option.getD_some] at hloc hpending hlt
    have hlt' : s.loc < c.length := Nat.lt_of_le_of_ne hloc hlt
    rw [List.drop_eq_getElem_cons hlt', List.cons_append] at hpending
    obtain ⟨rfl, hrest⟩ := List.cons.inj hpending
    rw [if_neg hfetch]
    refine ⟨?_, ⟨hchunks, ?_, ?_⟩⟩
    · simp only [hcur, Option.getD_some]
      rw [List.getD_eq_getElem?_getD, List.getElem?_eq_getElem hlt']
      rfl
    · simpa [hcur] using Nat.succ_le_of_lt hlt'
    · simpa [hcur] using hrest

/-- Taking an entry changes nothing but the position. -/
theorem EvalGlobals.next_rest (s : EvalGlobals) :
    s.next.2.mitc = s.mitc ∧ s.next.2.ai = s.ai ∧ s.next.2.LambdaAND = s.LambdaAND ∧
      s.next.2.M1t = s.M1t := by
  unfold EvalGlobals.next
  split <;> exact ⟨rfl, rfl, rfl, rfl⟩

/-- **The receiver loses nothing**: its chunks, joined, are the stream, and none is empty. -/
theorem recvChunks_flatten {n : ℕ} {wire : List StreamEntry} (h : wire.length = n) :
    (recvChunks n wire).flatten = wire ∧ ∀ c ∈ recvChunks n wire, c ≠ [] := by
  unfold recvChunks
  exact ⟨chunks_flatten kBatch_pos h, chunks_ne_nil kBatch_pos h⟩

/-- At the start of the evaluate pass the whole stream is unread. -/
theorem inboxOk_start (mitc : MITCCRH) {n : ℕ} {wire : List StreamEntry} (h : wire.length = n) :
    InboxOk { mitc := mitc, inbox := recvChunks n wire } wire := by
  obtain ⟨hflat, hne⟩ := recvChunks_flatten h
  refine ⟨hne, Nat.le_refl _, ?_⟩
  rw [Option.getD_none, List.drop_nil, List.nil_append]
  exact hflat

/-! ### Evaluate -/

/-- The equations of the evaluate pass. -/
def EvalEqs {D : Type} (E : EmpTool D) (Δ : Block) (sigma sh : ℕ → AShareBundle) (start : MITCCRH)
    (ent : ℕ → StreamEntry) (ev : ℕ → Block) (mk Lam : ℕ → UInt8) (M : ℕ → Block) (k : ℕ) (g : Gate) :
    Prop :=
  match g.op with
  | .Const0 => ev g.out = zeroBlock ∧ mk g.out = 0
  | .Const1 => ev g.out = zeroBlock ∧ mk g.out = 1
  | .Xor => ev g.out = ev g.in0 ^^^ ev g.in1 ∧ mk g.out = mk g.in0 ^^^ mk g.in1
  | .Not => ev g.out = ev g.in0 ∧ mk g.out = mk g.in0 ^^^ 1
  | .And =>
    ev g.out = evalAndLabel E (start.advance k) (ent k) ⟨sh g.in0, ev g.in0, mk g.in0⟩
        ⟨sh g.in1, ev g.in1, mk g.in1⟩ (sh g.out) (sigma k) ∧
      mk g.out = byteOf (truthy ((ent k).b ^^^ byteOf (LSB1 (ev g.out)))) ∧ Lam k = mk g.out ∧
      M k = evalAndWitness Δ (truthy (mk g.out)) ⟨sh g.in0, ev g.in0, mk g.in0⟩
        ⟨sh g.in1, ev g.in1, mk g.in1⟩ (sh g.out) (sigma k)

section

variable {D : Type} (E : EmpTool D) (Δ : Block) (sigma : ℕ → AShareBundle) {g : Gate} (s : EvalGlobals)
  (r : ℕ → EvalSlot) (old : EvalSlot)

theorem evaluateGate_of_not_and (h : g.isAnd = false) : (evaluateGate E Δ sigma g s r old).1 = s := by
  cases hg : g.op <;> simp_all [evaluateGate, Gate.isAnd]

/-- An AND takes an entry of the stream, uses up one key, and records its mask and witness. -/
theorem evaluateGate_and {e : StreamEntry} {rest : List StreamEntry} (hin : InboxOk s (e :: rest))
    (h : g.isAnd = true) :
    let t := evalAndLabel E s.mitc e (r g.in0) (r g.in1) old.share (sigma s.ai)
    let Lg := truthy (e.b ^^^ byteOf (LSB1 t))
    let s' := (evaluateGate E Δ sigma g s r old).1
    InboxOk s' rest ∧ s'.ai = s.ai + 1 ∧ s'.mitc = s.mitc.advance 1 ∧
      s'.LambdaAND = Function.update s.LambdaAND s.ai (byteOf Lg) ∧
      s'.M1t = Function.update s.M1t s.ai
        (evalAndWitness Δ Lg (r g.in0) (r g.in1) old.share (sigma s.ai)) ∧
      (evaluateGate E Δ sigma g s r old).2 = ⟨old.share, t, byteOf Lg⟩ := by
  have hop : g.op = .And := Gate.op_of_isAnd h
  obtain ⟨hval, hrest⟩ := hin.next
  obtain ⟨-, -, hL, hM⟩ := s.next_rest
  simp only [evaluateGate, hop, hval, hL, hM]
  exact ⟨⟨hrest.chunks, hrest.loc, hrest.pending⟩, trivial, trivial, trivial, trivial, trivial⟩

end

section

variable {D : Type} {E : EmpTool D} {Δ : Block} {sigma : ℕ → AShareBundle} {f p : ℕ → EvalSlot}

/-- The masks and witnesses of earlier ANDs stay. -/
theorem evaluate_globals (gs : List Gate) : ∀ (s : EvalGlobals) (rest : List StreamEntry), InboxOk s rest →
    countAnds gs ≤ rest.length → ∀ j < s.ai,
      ((evaluateMachine E Δ sigma).globals f p s gs).LambdaAND j = s.LambdaAND j ∧
        ((evaluateMachine E Δ sigma).globals f p s gs).M1t j = s.M1t j := by
  induction gs with
  | nil =>
    intro s rest _ _ j _
    exact ⟨rfl, rfl⟩
  | cons g gs ih =>
    intro s rest hin hlen j hj
    have hcount := nextAnd_add_countAnds 0 g gs
    rw [nextAnd] at hcount
    rw [Machine.globals]
    change ((evaluateMachine E Δ sigma).globals f p (evaluateGate E Δ sigma g s f (p g.out)).1 gs).LambdaAND j
      = _ ∧ ((evaluateMachine E Δ sigma).globals f p (evaluateGate E Δ sigma g s f (p g.out)).1 gs).M1t j = _
    cases hand : g.isAnd with
    | false =>
      rw [hand] at hcount
      rw [evaluateGate_of_not_and E Δ sigma s f _ hand]
      exact ih s rest hin (by simp at hcount; omega) j hj
    | true =>
      rw [hand, if_pos rfl] at hcount
      cases rest with
      | nil =>
        rw [List.length_nil] at hlen
        omega
      | cons e rest =>
        rw [List.length_cons] at hlen
        obtain ⟨hin', hai, -, hL, hM, -⟩ := evaluateGate_and E Δ sigma s f (p g.out) hin hand
        obtain ⟨h₁, h₂⟩ := ih _ rest hin' (by omega) j (by rw [hai]; omega)
        rw [h₁, h₂, hL, hM, Function.update_of_ne (by omega), Function.update_of_ne (by omega)]
        exact ⟨rfl, rfl⟩

/-- The final labels, masks and witnesses solve the evaluate equations. -/
theorem evaluate_eqs {sh : ℕ → AShareBundle} {start : MITCCRH} {N : ℕ} {wire : List StreamEntry}
    (hsh : ∀ w < N, (f w).share = sh w) {gs : List Gate} (hlt : ∀ g ∈ gs, g.out < N ∧ ∀ w ∈ g.srcs, w < N)
    {s : EvalGlobals} (hmitc : s.mitc = start.advance s.ai) (hin : InboxOk s (wire.drop s.ai))
    (hlen : s.ai + countAnds gs ≤ wire.length) (hsolves : (evaluateMachine E Δ sigma).Solves f p s gs) :
    ForGates (EvalEqs E Δ sigma sh start (fun k => wire.getD k default) (fun w => (f w).label)
      (fun w => (f w).mask) ((evaluateMachine E Δ sigma).globals f p s gs).LambdaAND
      ((evaluateMachine E Δ sigma).globals f p s gs).M1t) s.ai gs := by
  generalize hfinal : (evaluateMachine E Δ sigma).globals f p s gs = final
  refine forGates_of_solves (evaluateMachine E Δ sigma) EvalGlobals.ai _
    (fun s gs => s.mitc = start.advance s.ai ∧ InboxOk s (wire.drop s.ai) ∧ s.ai + countAnds gs ≤ wire.length ∧
      (evaluateMachine E Δ sigma).globals f p s gs = final) ?_ hlt ⟨hmitc, hin, hlen, hfinal⟩ hsolves
  rintro g gs s ⟨hout, hsrcs⟩ ⟨hmitc, hin, hlen, hfinal⟩ hg
  have hcount := nextAnd_add_countAnds s.ai g gs
  rw [nextAnd] at hcount
  change (evaluateMachine E Δ sigma).globals f p (evaluateGate E Δ sigma g s f (p g.out)).1 gs = final at hfinal
  change f g.out = (evaluateGate E Δ sigma g s f (p g.out)).2 at hg
  change _ ∧ (evaluateGate E Δ sigma g s f (p g.out)).1.ai = nextAnd s.ai g ∧
    (evaluateGate E Δ sigma g s f (p g.out)).1.mitc = start.advance (evaluateGate E Δ sigma g s f (p g.out)).1.ai ∧
      InboxOk (evaluateGate E Δ sigma g s f (p g.out)).1
          (wire.drop (evaluateGate E Δ sigma g s f (p g.out)).1.ai) ∧
        (evaluateGate E Δ sigma g s f (p g.out)).1.ai + countAnds gs ≤ wire.length ∧
          (evaluateMachine E Δ sigma).globals f p (evaluateGate E Δ sigma g s f (p g.out)).1 gs = final
  rw [nextAnd]
  cases hand : g.isAnd with
  | false =>
    rw [hand] at hcount
    rw [evaluateGate_of_not_and E Δ sigma s f _ hand] at hfinal ⊢
    refine ⟨?_, rfl, hmitc, hin, by simp at hcount; omega, hfinal⟩
    cases hop : g.op <;> simp_all [evaluateGate, EvalEqs, Gate.isAnd]
  | true =>
    rw [hand, if_pos rfl] at hcount
    have hop : g.op = .And := Gate.op_of_isAnd hand
    have hk : s.ai < wire.length := by omega
    have hin' : InboxOk s (wire.getD s.ai default :: wire.drop (s.ai + 1)) := by
      rw [List.drop_eq_getElem_cons hk] at hin
      rw [List.getD_eq_getElem?_getD, List.getElem?_eq_getElem hk]
      exact hin
    obtain ⟨hnext, hai, hmitc', hL, hM, hslot⟩ := evaluateGate_and E Δ sigma s f (p g.out) hin' hand
    have hslot' := hg.trans hslot
    have hread : ∀ w ∈ g.srcs, f w = ⟨sh w, (f w).label, (f w).mask⟩ := by
      intro w hw
      rw [← hsh w (hsrcs w hw)]
    have hown : (p g.out).share = sh g.out := by
      rw [← hsh g.out hout, hslot']
    have hrem : countAnds gs ≤ (wire.drop (s.ai + 1)).length := by
      rw [List.length_drop]
      omega
    obtain ⟨hkeepL, hkeepM⟩ := evaluate_globals (E := E) (Δ := Δ) (f := f) (p := p) gs _ _ hnext hrem
      s.ai (by rw [hai]; exact Nat.lt_succ_self _)
    rw [hfinal, hL, Function.update_self] at hkeepL
    rw [hfinal, hM, Function.update_self] at hkeepM
    rw [hread g.in0 (by simp [Gate.srcs, hop]), hread g.in1 (by simp [Gate.srcs, hop]), hown, hmitc]
      at hslot' hkeepL hkeepM
    refine ⟨?_, hai, by rw [hmitc', hai, hmitc]; rfl, by rw [hai]; exact hnext,
      by rw [hai, hcount]; exact hlen, hfinal⟩
    simp only [EvalEqs, hop]
    rw [hkeepL, hkeepM, hslot']
    exact ⟨rfl, rfl, rfl, by rw [truthy_byteOf]⟩

variable (E Δ sigma) in
/-- The slot of wire `i` as the evaluate pass writes it. -/
def evaluatorSlot (seed : Block) (P : Prepared) (w : SecureWires) (source : Body (List ℕ))
    (wire : List StreamEntry) (i : ℕ) : EvalSlot :=
  (evaluateMachine E Δ sigma).written P.phys w.size (source.stream w.size)
    ({ mitc := .setS seed, inbox := recvChunks P.numAnds wire },
      fun a => ⟨(P.mem a).share, w.evalLabelAt a, (P.mem a).mask⟩) i

variable (E Δ sigma) in
/-- **The evaluate pass of a party**, on any stream with one entry an AND. -/
theorem evaluatorReceive_spec {cot : ℕ → AShareBundle} {w : SecureWires} {u : ℕ} {source : Body (List ℕ)}
    {P : Prepared} {sh : ℕ → AShareBundle} (seed : Block) {wire : List StreamEntry}
    (h : CanonicalStream w.size (source.stream w.size))
    (hP : PreparedSpec cot w u (source.stream w.size) (source.outs w.size) P sh)
    (hwire : wire.length = P.numAnds) :
    ∃ (ev : ℕ → Block) (mk : ℕ → UInt8),
      (∀ i, Persistent w.size (source.stream w.size) (source.outs w.size) i →
        (evaluatorReceive E Δ seed sigma P w source wire).2 (P.phys i) = ⟨sh i, ev i, mk i⟩) ∧
      (∀ i < w.size + (source.stream w.size).length,
        evaluatorSlot E Δ sigma seed P w source wire i = ⟨sh i, ev i, mk i⟩) ∧
      (∀ i < w.size, ev i = w.evalLabelAt i ∧ mk i = w.lambdaAt i) ∧
      ForGates (EvalEqs E Δ sigma sh (.setS seed) (fun k => wire.getD k default) ev mk
        (evaluatorReceive E Δ seed sigma P w source wire).1.LambdaAND
        (evaluatorReceive E Δ seed sigma P w source wire).1.M1t) 0 (source.stream w.size) := by
  unfold evaluatorReceive evaluatorSlot
  rw [machinePass_runSource, hP.phys]
  set s₀ : EvalGlobals × (ℕ → EvalSlot) :=
    ({ mitc := .setS seed, inbox := recvChunks P.numAnds wire },
      fun a => ⟨(P.mem a).share, w.evalLabelAt a, (P.mem a).mask⟩) with hs₀
  obtain ⟨f, hsolves, hglobals, hmem, hlt, hwritten⟩ := machine_spec (evaluateMachine E Δ sigma)
    (source.outs w.size) h s₀
  rw [hglobals]
  have hinput : ∀ i < w.size, f i = ⟨sh i, w.evalLabelAt i, w.lambdaAt i⟩ := by
    intro i hi
    rw [hlt i hi, hs₀]
    simp only
    rw [← hP.shares i (persistent_input h hi), ← hP.mask i hi, hP.physInput i hi]
  have hshares : ∀ i < w.size + (source.stream w.size).length, (f i).share = sh i := by
    refine solves_shares EvalSlot.share (fun g s r v => ?_) h hsolves hP.eqs
      (fun i hi => by rw [hinput i hi]) fun g hg hand => ?_
    · change (evaluateGate E Δ sigma g s r v).2.share = _
      cases hop : g.op <;> simp [evaluateGate, shareRule, hop]
    · have := hP.shares g.out (persistent_and h hg hand)
      rwa [hP.phys] at this
  have hands : s₀.1.ai + countAnds (source.stream w.size) ≤ wire.length := by
    rw [hwire, hP.numAnds, hs₀]
    exact Nat.le_of_eq (Nat.zero_add _)
  refine ⟨fun i => (f i).label, fun i => (f i).mask, fun i hi => ?_, fun i hi => ?_,
    fun i hi => ⟨?_, ?_⟩, ?_⟩
  · rw [hmem i hi, ← hshares i hi.2]
  · rw [hwritten i hi, ← hshares i hi]
  · exact congrArg EvalSlot.label (hinput i hi)
  · exact congrArg EvalSlot.mask (hinput i hi)
  · exact evaluate_eqs hshares (fun _ hg => canonicalStream_lt h hg) rfl (inboxOk_start _ hwire) hands hsolves

end

/-! ### Gamma check -/

/-- The equations of the gamma check pass. -/
def GammaEqs (sigma sh : ℕ → AShareBundle) (Lam mk : ℕ → UInt8) (M : ℕ → Block) (k : ℕ) (g : Gate) : Prop :=
  match g.op with
  | .Const0 => mk g.out = 0
  | .Const1 => mk g.out = 1
  | .Xor => mk g.out = mk g.in0 ^^^ mk g.in1
  | .Not => mk g.out = mk g.in0 ^^^ 1
  | .And => mk g.out = Lam k ∧
      M k = gammaAnd ⟨sh g.in0, mk g.in0⟩ ⟨sh g.in1, mk g.in1⟩ (sh g.out) (sigma k)

section

variable {sigma : ℕ → AShareBundle} {Lam : ℕ → UInt8} {f p : ℕ → MaskSlot}

theorem gammaGate_of_not_and {g : Gate} (s : GammaGlobals) (r : ℕ → MaskSlot) (old : MaskSlot)
    (h : g.isAnd = false) : (gammaGate sigma Lam g s r old).1 = s := by
  cases hg : g.op <;> simp_all [gammaGate, Gate.isAnd]

/-- An AND takes its mask from the vector and records its witness. -/
theorem gammaGate_and {g : Gate} (s : GammaGlobals) (r : ℕ → MaskSlot) (old : MaskSlot)
    (h : g.isAnd = true) :
    gammaGate sigma Lam g s r old =
      (⟨s.ai + 1, Function.update s.M1t s.ai (gammaAnd (r g.in0) (r g.in1) old.share (sigma s.ai))⟩,
        ⟨old.share, Lam s.ai⟩) := by
  have hop : g.op = .And := Gate.op_of_isAnd h
  simp only [gammaGate, hop]

/-- The witnesses of earlier ANDs stay. -/
theorem gamma_globals (gs : List Gate) : ∀ s : GammaGlobals, ∀ j < s.ai,
    ((gammaMachine sigma Lam).globals f p s gs).M1t j = s.M1t j := by
  induction gs with
  | nil =>
    intro s j _
    rfl
  | cons g gs ih =>
    intro s j hj
    rw [Machine.globals]
    change ((gammaMachine sigma Lam).globals f p (gammaGate sigma Lam g s f (p g.out)).1 gs).M1t j = _
    cases hand : g.isAnd with
    | false =>
      rw [gammaGate_of_not_and s f _ hand]
      exact ih s j hj
    | true =>
      rw [gammaGate_and s f _ hand, ih _ j (Nat.lt_succ_of_lt hj)]
      exact Function.update_of_ne (by omega) _ _

/-- The final masks and witnesses solve the gamma check equations. -/
theorem gamma_eqs {sh : ℕ → AShareBundle} {N : ℕ} (hsh : ∀ w < N, (f w).share = sh w) {gs : List Gate}
    (hlt : ∀ g ∈ gs, g.out < N ∧ ∀ w ∈ g.srcs, w < N) {s : GammaGlobals}
    (hsolves : (gammaMachine sigma Lam).Solves f p s gs) :
    ForGates (GammaEqs sigma sh Lam (fun w => (f w).mask)
      ((gammaMachine sigma Lam).globals f p s gs).M1t) s.ai gs := by
  generalize hfinal : (gammaMachine sigma Lam).globals f p s gs = final
  refine forGates_of_solves (gammaMachine sigma Lam) GammaGlobals.ai _
    (fun s gs => (gammaMachine sigma Lam).globals f p s gs = final) ?_ hlt hfinal hsolves
  rintro g gs s ⟨hout, hsrcs⟩ hfinal hg
  change (gammaMachine sigma Lam).globals f p (gammaGate sigma Lam g s f (p g.out)).1 gs = final at hfinal
  change f g.out = (gammaGate sigma Lam g s f (p g.out)).2 at hg
  change _ ∧ (gammaGate sigma Lam g s f (p g.out)).1.ai = nextAnd s.ai g ∧
    (gammaMachine sigma Lam).globals f p (gammaGate sigma Lam g s f (p g.out)).1 gs = final
  rw [nextAnd]
  cases hand : g.isAnd with
  | false =>
    rw [gammaGate_of_not_and s f _ hand] at hfinal ⊢
    refine ⟨?_, rfl, hfinal⟩
    cases hop : g.op <;> simp_all [gammaGate, GammaEqs, Gate.isAnd]
  | true =>
    have hop : g.op = .And := Gate.op_of_isAnd hand
    rw [gammaGate_and s f _ hand] at hg hfinal ⊢
    have hread : ∀ w ∈ g.srcs, f w = ⟨sh w, (f w).mask⟩ := by
      intro w hw
      rw [← hsh w (hsrcs w hw)]
    have hown : (p g.out).share = sh g.out := by
      rw [← hsh g.out hout, hg]
    have hkeep := @gamma_globals sigma Lam f p gs
      ⟨s.ai + 1, Function.update s.M1t s.ai (gammaAnd (f g.in0) (f g.in1) (p g.out).share (sigma s.ai))⟩
      s.ai (Nat.lt_succ_self _)
    rw [hfinal] at hkeep
    simp only [Function.update_self] at hkeep
    refine ⟨?_, rfl, hfinal⟩
    simp only [GammaEqs, hop]
    refine ⟨by rw [hg], hkeep.trans ?_⟩
    rw [← hread g.in0 (by simp [Gate.srcs, hop]), ← hread g.in1 (by simp [Gate.srcs, hop]), hown]

variable (sigma) in
/-- The slot of wire `i` as the gamma check pass writes it. -/
def garblerSlot (P : Prepared) (w : SecureWires) (source : Body (List ℕ)) (mem : ℕ → MaskSlot)
    (LambdaAND : List Bool) (i : ℕ) : MaskSlot :=
  (gammaMachine sigma fun k => byteOf (LambdaAND.getD k false)).written P.phys w.size
    (source.stream w.size) ({}, mem) i

variable (sigma) in
/-- **The gamma check pass of a party**, on any vector of opened masks and any memory whose persistent
slots hold the shares. -/
theorem garblerCheck_spec {cot : ℕ → AShareBundle} {w : SecureWires} {u : ℕ} {source : Body (List ℕ)}
    {P : Prepared} {sh : ℕ → AShareBundle} (mem : ℕ → MaskSlot) (LambdaAND : List Bool)
    (h : CanonicalStream w.size (source.stream w.size))
    (hP : PreparedSpec cot w u (source.stream w.size) (source.outs w.size) P sh)
    (hmem : ∀ i, Persistent w.size (source.stream w.size) (source.outs w.size) i →
      (mem (P.phys i)).share = sh i)
    (hmask : ∀ i < w.size, (mem (P.phys i)).mask = w.lambdaAt i) :
    ∃ mk : ℕ → UInt8,
      (∀ i, Persistent w.size (source.stream w.size) (source.outs w.size) i →
        (garblerCheck sigma P w source mem LambdaAND).2 (P.phys i) = ⟨sh i, mk i⟩) ∧
      (∀ i < w.size + (source.stream w.size).length,
        garblerSlot sigma P w source mem LambdaAND i = ⟨sh i, mk i⟩) ∧
      (∀ i < w.size, mk i = w.lambdaAt i) ∧
      ForGates (GammaEqs sigma sh (fun k => byteOf (LambdaAND.getD k false)) mk
        (garblerCheck sigma P w source mem LambdaAND).1.M1t) 0 (source.stream w.size) := by
  unfold garblerCheck garblerSlot
  rw [machinePass_runSource]
  obtain ⟨f, hsolves, hglobals, hkeep, hlt, hwritten⟩ := machine_spec
    (gammaMachine sigma fun k => byteOf (LambdaAND.getD k false)) (source.outs w.size) h ({}, mem)
  rw [← hP.phys] at hsolves hglobals hkeep hwritten
  rw [hglobals]
  have hinput : ∀ i < w.size, f i = ⟨sh i, w.lambdaAt i⟩ := by
    intro i hi
    have h₁ := hmem i (persistent_input h hi)
    have h₂ := hmask i hi
    rw [hP.physInput i hi] at h₁ h₂
    rw [hlt i hi]
    simp only
    rw [← h₁, ← h₂]
  have hshares : ∀ i < w.size + (source.stream w.size).length, (f i).share = sh i := by
    refine solves_shares MaskSlot.share (fun g s r v => ?_) h hsolves hP.eqs
      (fun i hi => by rw [hinput i hi]) fun g hg hand => hmem g.out (persistent_and h hg hand)
    change (gammaGate sigma _ g s r v).2.share = _
    cases hop : g.op <;> simp [gammaGate, shareRule, hop]
  refine ⟨fun i => (f i).mask, fun i hi => ?_, fun i hi => ?_,
    fun i hi => congrArg MaskSlot.mask (hinput i hi), ?_⟩
  · rw [hkeep i hi, ← hshares i hi.2]
  · rw [hwritten i hi, ← hshares i hi]
  · exact gamma_eqs hshares (fun _ hg => canonicalStream_lt h hg) hsolves

end

end AG2PC
