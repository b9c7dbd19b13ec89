import AG2PC.Backend.HonestParty
import AG2PC.Backend.MaskSoundness

/-!
# An honest garbler against any evaluator

The calls of a garbler's protocol object, in any order and on any wires made before, while the evaluator sends whatever
it likes. The openings bind it as they bind a garbler. The vector `Λ_AND` does not: the garbler takes the masks of its
ANDs from it and checks nothing, whether the triples are sound or not.

* `forceAnds` — an evaluation in which the outputs of the ANDs are given.
* `gammaEqs_forced` — the masks of the gamma check pass open the values that the vector forces.
* `leftValue` — without an AND that pass does not run; what the masks then open.
* `GarblerEngine` — a run of the engine; `MasksOpen.garble` — the values that the garbler's masks open after it.
* `garbler_sound` — over any calls, every value the garbler opens is that of the evaluation with the AND outputs the
  evaluator chose, or `Δ₁` is among the blocks the evaluator bet on.
* `garbler_forced` — every choice can be made, whatever the garbler draws, and without a bet.
-/

namespace AG2PC

open Library.XorAlgebra Library.SlotReuse Library.ByIndex Library.Runs

/-! ### Evaluation with given ANDs -/

/-- The wires after evaluating gates one by one, the output of AND `k` being `f k`. -/
def forceAnds (f : ℕ → Bool) : ℕ → List Gate → (ℕ → Bool) → ℕ → Bool
  | _, [], v => v
  | k, g :: gs, v => forceAnds f (nextAnd k g) gs (Function.update v g.out (if g.isAnd then f k else g.value v))

section

variable {f : ℕ → Bool} {gs : List Gate}

theorem forceAnds_of_lt : ∀ {n k : ℕ}, CanonicalStream n gs → ∀ (v : ℕ → Bool) {w : ℕ}, w < n →
    forceAnds f k gs v w = v w := by
  induction gs with
  | nil => exact fun _ _ _ _ => rfl
  | cons g gs ih =>
    intro n k h v w hw
    obtain ⟨hout, -, hrest⟩ := canonicalStream_cons.mp h
    have hne : w ≠ g.out := by omega
    rw [forceAnds, ih hrest _ (by omega), Function.update_of_ne hne]

/-- The values at the end: AND `k` has the output `f k`, the other gates compute theirs. -/
theorem forGates_forceAnds : ∀ {n k : ℕ} {v V : ℕ → Bool}, CanonicalStream n gs → forceAnds f k gs v = V →
    ForGates (fun k g => V g.out = if g.isAnd then f k else g.value V) k gs := by
  induction gs with
  | nil => exact fun _ _ => trivial
  | cons g gs ih =>
    intro n k v V h hV
    obtain ⟨hout, hsrcs, hrest⟩ := canonicalStream_cons.mp h
    refine ⟨?_, ih hrest hV⟩
    have hval : g.value v = g.value V := by
      refine Gate.value_congr fun w hw => ?_
      rw [← hV, forceAnds_of_lt h v (hsrcs w hw)]
    dsimp only
    rw [← hval, ← hV, forceAnds, forceAnds_of_lt hrest _ (by omega), Function.update_self]

end

/-! ### Lists with an entry for each AND -/

section

variable {α : Type}

/-- The entries `f k g` of the ANDs, of which the first is number `k`. -/
def atAnds (f : ℕ → Gate → α) : ℕ → List Gate → List α
  | _, [] => []
  | k, g :: gs => if g.isAnd then f k g :: atAnds f (k + 1) gs else atAnds f k gs

variable {f : ℕ → Gate → α} {gs : List Gate}

theorem length_atAnds : ∀ {k : ℕ}, (atAnds f k gs).length = countAnds gs := by
  induction gs with
  | nil => exact rfl
  | cons g gs ih =>
    intro k
    rw [atAnds, countAnds, List.countP_cons]
    split_ifs with hand
    · rw [List.length_cons, ih, countAnds]
    · rw [ih, countAnds, Nat.add_zero]

/-- The entry of an AND, whatever stands before the first. -/
theorem forGates_atAnds_from (d : α) : ∀ (pre : List α),
    ForGates (fun k g => g.isAnd = true → (pre ++ atAnds f pre.length gs).getD k d = f k g) pre.length gs := by
  induction gs with
  | nil => exact fun _ => trivial
  | cons g gs ih =>
    intro pre
    rw [atAnds]
    by_cases hand : g.isAnd = true
    · have hrest := ih (pre ++ [f pre.length g])
      have hnext : nextAnd pre.length g = pre.length + 1 := if_pos hand
      rw [List.length_append, List.length_singleton, List.append_assoc, List.singleton_append] at hrest
      rw [if_pos hand, ForGates, hnext]
      refine ⟨fun _ => ?_, hrest⟩
      rw [List.getD_append_right _ _ _ _ (Nat.le_refl _), Nat.sub_self, List.getD_cons_zero]
    · have hnext : nextAnd pre.length g = pre.length := if_neg hand
      rw [if_neg hand, ForGates, hnext]
      exact ⟨fun h => absurd h hand, ih pre⟩

/-- The entry of an AND. -/
theorem forGates_atAnds (f : ℕ → Gate → α) (gs : List Gate) (d : α) :
    ForGates (fun k g => g.isAnd = true → (atAnds f 0 gs).getD k d = f k g) 0 gs := forGates_atAnds_from d []

/-- Equal entries make equal lists. -/
theorem atAnds_congr {f' : ℕ → Gate → α} : ∀ {k : ℕ}, ForGates (fun k g => g.isAnd = true → f k g = f' k g) k gs →
    atAnds f k gs = atAnds f' k gs := by
  induction gs with
  | nil => exact fun _ => rfl
  | cons g gs ih =>
    intro k h
    obtain ⟨hg, hrest⟩ := h
    rw [atAnds, atAnds]
    by_cases hand : g.isAnd = true
    · rw [nextAnd, if_pos hand] at hrest
      rw [if_pos hand, if_pos hand, hg hand, ih hrest]
    · rw [nextAnd, if_neg hand] at hrest
      rw [if_neg hand, if_neg hand, ih hrest]

end

/-! ### Masks after the gamma check -/

/-- Away from the ANDs the masks of the shares are related as the gates are. -/
theorem lambdaEqs_of_not_and {sh₁ sh₂ lg₁ lg₂ a₁ a₂ b₁ b₂ : ℕ → AShareBundle} {sig : ℕ → Bool} {k : ℕ} {g : Gate}
    (h₁ : ShareEqs sh₁ lg₁ a₁ b₁ k g) (h₂ : ShareEqs sh₂ lg₂ a₂ b₂ k g) (hand : g.isAnd = false) :
    LambdaEqs (fun w => shareBit (sh₁ w) (sh₂ w)) sig k g := by
  obtain ⟨e₁, -⟩ := h₁
  obtain ⟨e₂, -⟩ := h₂
  cases hop : g.op with
  | And => simp [Gate.isAnd, hop] at hand
  | Xor =>
    simp only [LambdaEqs, shareRule, hop] at e₁ e₂ ⊢
    rw [e₁, e₂, shareBit_xor]
  | Not =>
    simp only [LambdaEqs, shareRule, hop] at e₁ e₂ ⊢
    rw [e₁, e₂]
  | Const0 =>
    simp only [LambdaEqs, shareRule, hop] at e₁ e₂ ⊢
    rw [e₁, e₂, shareBit_zero]
  | Const1 =>
    simp only [LambdaEqs, shareRule, hop] at e₁ e₂ ⊢
    rw [e₁, e₂, shareBit_zero]

/-- The vector `LambdaAND` says `f k` of AND `k`, the mask of its output being `lam`. -/
def VectorSays (LambdaAND : List Bool) (lam f : ℕ → Bool) (k : ℕ) (g : Gate) : Prop :=
  g.isAnd = true → f k = (LambdaAND.getD k false ^^ lam g.out)

/-- **The masks of the gamma check pass**: an AND has the mask the vector says and the other gates compute theirs, so
the masks open the values that the vector forces. -/
theorem gammaEqs_forced {σ₁ sh₁ : ℕ → AShareBundle} {LambdaAND : List Bool} {mk : ℕ → UInt8} {M : ℕ → Block}
    {gs : List Gate} {n : ℕ} {f x lam : ℕ → Bool} (hcan : CanonicalStream n gs)
    (hgamma : ForGates (GammaEqs σ₁ sh₁ (fun k => byteOf (LambdaAND.getD k false)) mk M) 0 gs)
    (hlam : ForGates (fun k g => g.isAnd = false → LambdaEqs lam (fun _ => false) k g) 0 gs)
    (hf : ForGates (VectorSays LambdaAND lam f) 0 gs) (hin : ∀ i < n, mk i = byteOf (x i ^^ lam i)) :
    ∀ i < n + gs.length, mk i = byteOf (forceAnds f 0 gs x i ^^ lam i) := by
  generalize hv : forceAnds f 0 gs x = v
  have hgates := ((hgamma.and (maskRules_gamma hgamma)).and hlam).and (hf.and (forGates_forceAnds hcan hv))
  refine ForGates.run (fun k g hR hread => ?_) hcan hgates fun i hi => ?_
  · obtain ⟨⟨⟨hgam, hrule⟩, hl⟩, hvec, hval⟩ := hR
    by_cases hand : g.isAnd = true
    · have hop : g.op = .And := Gate.op_of_isAnd hand
      simp only [GammaEqs, hop] at hgam
      rw [if_pos hand] at hval
      rw [hgam.1, hval, hvec hand, Bool.xor_assoc, Bool.xor_self, Bool.xor_false]
    · rw [if_neg hand] at hval
      have hgate : GateEq mk lam (fun _ => false) k g := fun h => absurd h hand
      exact mask_carried hrule (hl (by simpa using hand)) hval hgate hread
  · rw [hin i hi, ← hv, forceAnds_of_lt hcan _ hi]

/-! ### Masks without a gamma check -/

/-- What the mask that the slot/mask pass leaves at a wire opens: an input is right, and at a gate the bit `lam` of the
mask that the parties share stands in the place of the value, but for the constant one. -/
def leftValue (gs : List Gate) (x lam : ℕ → Bool) (i : ℕ) : Bool :=
  match gs.find? fun g => g.out == i with
  | none => x i
  | some g => truthy (freshMask g) ^^ lam i

/-- A wire of a canonical stream is an input or the output of a gate. -/
theorem canonicalStream_wire {gs : List Gate} : ∀ {n : ℕ}, CanonicalStream n gs → ∀ {i : ℕ}, i < n + gs.length →
    i < n ∨ ∃ g ∈ gs, g.out = i := by
  induction gs with
  | nil => exact fun _ _ hi => .inl hi
  | cons g gs ih =>
    intro n hcan i hi
    obtain ⟨hout, -, hrest⟩ := canonicalStream_cons.mp hcan
    rw [List.length_cons] at hi
    rcases ih hrest (i := i) (by omega) with hlt | ⟨g', hg', hi'⟩
    · rcases Nat.lt_succ_iff_lt_or_eq.mp hlt with hlt | rfl
      · exact .inl hlt
      · exact .inr ⟨g, List.mem_cons_self, hout⟩
    · exact .inr ⟨g', List.mem_cons_of_mem g hg', hi'⟩

/-- **The masks of the slot/mask pass** open these values. -/
theorem freshMask_left {gs : List Gate} {n : ℕ} {mk : ℕ → UInt8} {x lam : ℕ → Bool} (hcan : CanonicalStream n gs)
    (hfresh : ForGates (fun _ g => mk g.out = freshMask g) 0 gs) (hin : ∀ i < n, mk i = byteOf (x i ^^ lam i)) :
    ∀ i < n + gs.length, mk i = byteOf (leftValue gs x lam i ^^ lam i) := by
  intro i hi
  unfold leftValue
  cases hfind : gs.find? fun g => g.out == i with
  | none =>
    refine hin i ((canonicalStream_wire hcan hi).resolve_right ?_)
    rintro ⟨g, hg, rfl⟩
    exact absurd (List.find?_eq_none.mp hfind g hg) (by simp)
  | some g =>
    obtain rfl : g.out = i := by simpa using List.find?_some hfind
    obtain ⟨_, hmask⟩ := hfresh.of_mem (List.mem_of_find?_eq_some hfind)
    rw [hmask]
    dsimp only
    rw [Bool.xor_assoc, Bool.xor_self, Bool.xor_false]
    cases hop : g.op <;> simp [freshMask, hop, truthy, byteOf]

/-! ### Runs of the engine -/

/-- `garbler_path_` after the garble pass, on the vector it receives: the garbler's shares and masks. -/
def garblerPath (sigma : ℕ → AShareBundle) (P : Prepared) (w : SecureWires) (source : Body (List ℕ))
    (labels : ℕ → GarbleSlot) (LambdaAND : List Bool) : ℕ → MaskSlot :=
  if 0 < P.numAnds then (garblerCheck sigma P w source (garblerSlots P labels) LambdaAND).2 else garblerSlots P labels

/-- The values that the garbler's masks open after a run: with an AND those that the vector forces. -/
def openedValue (gs : List Gate) (f x lam : ℕ → Bool) : ℕ → Bool :=
  if 0 < countAnds gs then forceAnds f 0 gs x else leftValue gs x lam

section

variable {D : Type} {S : Setup D} {C : CotStream S.Δ} {source : Body (List ℕ)} {w : SecureWires}
  {peer : List AShareBundle} {x : List Bool} {pool : TriplePool}

/-- The wires of a run, gathered. -/
theorem MasksOpen.of_garbler_slots {P : Prepared} {outs : List ℕ} {labels : ℕ → GarbleSlot} {mem : ℕ → MaskSlot}
    {Δ : Deltas} {N : ℕ} {share₁ share₂ : ℕ → AShareBundle} {m : ℕ → UInt8} {v : ℕ → Bool} (hids : P.outIds = outs)
    (hrel : ∀ i < N, MacRel Δ (share₁ i) (share₂ i)) (houts : ∀ o ∈ outs, o < N)
    (hslot : ∀ o ∈ outs, mem (P.phys o) = ⟨share₁ o, m o⟩)
    (hall : ∀ i < N, m i = byteOf (v i ^^ shareBit (share₁ i) (share₂ i))) :
    MasksOpen Δ .alice (outs.map share₂) (gatherGarbler P labels mem) (outs.map v) := by
  refine ⟨⟨?_, ?_, ?_⟩, ?_, fun i hi => ?_, fun i hi => ?_⟩
  · simp [SecureWires.size, gatherGarbler, hids]
  · simp [gatherGarbler, hids]
  · simp [SecureWires.labels, gatherGarbler, hids]
  · simp
  all_goals
    rw [List.length_map] at hi
    have ho := getD_mem 0 hi
    have hlt := houts _ ho
    simp only [SecureWires.bundleAt, SecureWires.lambdaAt, gatherGarbler, hids]
  · rw [getD_map_of_lt _ 0 _ hi, getD_map_of_lt _ 0 _ hi, hslot _ ho]
    exact hrel _ hlt
  · rw [getD_map_of_lt _ 0 _ hi, getD_map_of_lt _ 0 _ hi, getD_map_of_lt _ 0 _ hi, getD_map_of_lt _ 0 _ hi,
      hslot _ ho]
    exact hall _ hlt

/-- **The garbler's masks after a run** open the values that the vector forces, or without an AND those that the
slot/mask pass leaves, whatever the vector and whatever the shares `σ₁` of the triples. -/
theorem MasksOpen.garble (h₁ : S.cot₁ = C.s₁) (h₂ : S.cot₂ = C.s₂) (h : MasksOpen S.Δ .alice peer w x)
    (hcan : CanonicalStream x.length (source.stream x.length))
    (houts : ∀ o ∈ source.outs x.length, o < x.length + (source.stream x.length).length)
    {evalLabel : List Block} (hlabel : evalLabel.length = x.length) {share₁ share₂ : ℕ → AShareBundle}
    (hs₁ : shareOf S.cot₁ w pool source = share₁)
    (hs₂ : shareOf S.cot₂ (evaluatorWires peer w.Lambda evalLabel) pool source = share₂)
    {P : Prepared} (hP : prepare S.cot₁ w pool source = P) (seed : Block) (σ₁ : ℕ → AShareBundle)
    {LambdaAND : List Bool} {f lam : ℕ → Bool} (hlam : (fun i => shareBit (share₁ i) (share₂ i)) = lam)
    (hf : ForGates (VectorSays LambdaAND lam f) 0 (source.stream x.length)) :
    let g := garblerSend S.tool S.Δ.d1 seed σ₁ P w source
    let outs := source.outs x.length
    MasksOpen S.Δ .alice (outs.map share₂) (gatherGarbler P g.2 (garblerPath σ₁ P w source g.2 LambdaAND))
      (outs.map (openedValue (source.stream x.length) f (inputWires x) lam)) := by
  intro g outs
  subst hlam
  have hagree := h.sharesAgree₁ hlabel
  obtain ⟨P₁, P₂, sh₁, sh₂, H⟩ :=
    preparedPair h₁ h₂ hagree hcan (rfl : (⟨pool, pool, 0, 0⟩ : ProtoState).pool₁ = ProtoState.pool₂ _)
  obtain rfl : P₁ = P := H.prep₁.symm.trans hP
  have hn : w.size = x.length := h.wf.size
  obtain ⟨lb, hlabels, -, -, -⟩ := garblerSend_spec S.tool S.Δ.d1 σ₁ seed H.can₁ H.spec₁
  have hshare : ∀ i < x.length + (source.stream x.length).length, share₁ i = sh₁ i ∧ share₂ i = sh₂ i :=
    fun i hi => ⟨hs₁ ▸ H.share₁ i hi, hs₂ ▸ H.share₂ i hi⟩
  have hrel : ∀ i < x.length + (source.stream x.length).length, MacRel S.Δ (share₁ i) (share₂ i) := fun i hi => by
    rw [(hshare i hi).1, (hshare i hi).2]
    exact H.rel i hi
  have hids : P₁.outIds = outs := H.spec₁.outIds.trans (by rw [hn])
  -- the masks of the inputs open the bits of the wires
  have hin : ∀ i < x.length, w.lambdaAt i = byteOf (inputWires x i ^^ shareBit (share₁ i) (share₂ i)) := by
    intro i hi
    obtain ⟨hi₁, hi₂⟩ := hshare i (Nat.lt_of_lt_of_le hi (Nat.le_add_right _ _))
    rw [h.mask i hi, hi₁, hi₂, H.spec₁.input i (hn ▸ hi), H.spec₂.input i (hagree.wf₂.size ▸ hi)]
    rfl
  have hnum : P₁.numAnds = countAnds (source.stream x.length) := H.numAnds₁
  rw [garblerPath, openedValue, hnum]
  by_cases hands : 0 < countAnds (source.stream x.length)
  · rw [if_pos hands, if_pos hands]
    obtain ⟨mk, hkeep, -, hmkin, hgamma⟩ := garblerCheck_spec σ₁ (garblerSlots P₁ g.2) LambdaAND H.can₁ H.spec₁
      (fun i hi => congrArg GarbleSlot.share (hlabels i hi)) fun i hi => H.spec₁.mask i hi
    rw [hn] at hkeep hmkin hgamma
    have hlam : ForGates (fun k g => g.isAnd = false →
        LambdaEqs (fun i => shareBit (sh₁ i) (sh₂ i)) (fun _ => false) k g) 0 (source.stream x.length) :=
      ForGates.imp (fun _ _ h => lambdaEqs_of_not_and h.1 h.2) (H.eqs₁.and H.eqs₂)
    have hvec : ForGates (VectorSays LambdaAND (fun i => shareBit (sh₁ i) (sh₂ i)) f) 0 (source.stream x.length) := by
      refine ForGates.imp (fun k g h hand => ?_) (hf.and (forGates_of_mem fun _ g hg => (canonicalStream_lt hcan hg).1))
      rw [h.1 hand]
      dsimp only
      rw [(hshare _ h.2).1, (hshare _ h.2).2]
    have hall := gammaEqs_forced (x := inputWires x) hcan hgamma hlam hvec fun i hi => by
      obtain ⟨hi₁, hi₂⟩ := hshare i (Nat.lt_of_lt_of_le hi (Nat.le_add_right _ _))
      rw [hmkin i hi, hin i hi, hi₁, hi₂]
    refine .of_garbler_slots (m := mk) hids hrel houts (fun o ho => ?_) fun i hi => ?_
    · rw [(hshare o (houts o ho)).1]
      exact hkeep o (persistent_output ho (houts o ho))
    · rw [(hshare i hi).1, (hshare i hi).2]
      exact hall i hi
  · rw [if_neg hands, if_neg hands]
    obtain ⟨mk, hmem, hmkin, hfresh⟩ := @prepare_masks S.cot₁ w pool source H.can₁
    rw [hP, hn] at hmem
    rw [hn] at hmkin hfresh
    refine .of_garbler_slots hids hrel houts (fun o ho => ?_)
      (freshMask_left hcan hfresh fun i hi => (hmkin i hi).trans (hin i hi))
    have hper := persistent_output ho (houts o ho)
    rw [garblerSlots, hmem o hper, hlabels o (hn.symm ▸ hper), (hshare o (houts o ho)).1]

end

/-- What a run of the engine at the garbler depends on beside its wires: its shares of the triples, the tweak seed and
the vector that the evaluator sends it. -/
structure GarblerInput where
  /-- The source. -/
  source : Body (List ℕ)
  /-- The wires it is run on. -/
  ids : List ℕ
  /-- The garbler's shares of the triples. -/
  sigma : ℕ → AShareBundle
  /-- The half-gate tweak seed. -/
  seed : Block
  /-- The vector received. -/
  LambdaAND : List Bool

/-- `run_source` at the garbler. The evaluator's vector has a bit for each AND, and says `f` of them. -/
inductive GarblerEngine {D : Type} (S : Setup D) (c : GarblerInput) (w : PartyWorld) : PartyWorld → Prop
  | run {args : SecureWires} {x : List Bool} {P : Prepared} {share₁ share₂ : ℕ → AShareBundle}
      {evalLabel : List Block} {f lam : ℕ → Bool} {g : GarbleGlobals × (ℕ → GarbleSlot)}
      (hids : ∀ i ∈ c.ids, i < w.value.length) (hargs : w.wires.gather c.ids = args)
      (hx : c.ids.map (w.value.getD · false) = x) (hcan : CanonicalStream x.length (c.source.stream x.length))
      (houts : ∀ o ∈ c.source.outs x.length, o < x.length + (c.source.stream x.length).length)
      (hP : prepare S.cot₁ args w.pool c.source = P) (hvector : c.LambdaAND.length = P.numAnds)
      (hlabel : evalLabel.length = x.length) (hs₁ : shareOf S.cot₁ args w.pool c.source = share₁)
      (hs₂ : shareOf S.cot₂ (evaluatorWires (c.ids.map (w.peer.getD · .zero)) args.Lambda evalLabel) w.pool c.source =
        share₂)
      (hlam : (fun i => shareBit (share₁ i) (share₂ i)) = lam)
      (hf : ForGates (VectorSays c.LambdaAND lam f) 0 (c.source.stream x.length))
      (hg : garblerSend S.tool S.Δ.d1 c.seed c.sigma P args c.source = g) :
      GarblerEngine S c w (w.add (P.pool.afterTriples S.ssp P.numAnds).maybeFlushCotCheck
        ((c.source.outs x.length).map share₂)
        (gatherGarbler P g.2 (garblerPath c.sigma P args c.source g.2 c.LambdaAND))
        ((c.source.outs x.length).map (openedValue (c.source.stream x.length) f (inputWires x) lam)))

/-- Any run of the engine. It shows nothing and checks nothing. -/
def SomeGarblerEngine {D : Type} (S : Setup D) (w : PartyWorld) (r : CallRecord) (w' : PartyWorld) : Prop :=
  r = {} ∧ ∃ c, GarblerEngine S c w w'

section

variable {D : Type} {S : Setup D} {C : CotStream S.Δ} {c : GarblerInput} {w w' : PartyWorld}

/-- The masks open the values. -/
theorem GarblerEngine.opens (h₁ : S.cot₁ = C.s₁) (h₂ : S.cot₂ = C.s₂) (hw : w.Opens S.Δ .alice)
    (h : GarblerEngine S c w w') : w'.Opens S.Δ .alice := by
  cases h with
  | run hids hargs hx hcan houts hP hvector hlabel hs₁ hs₂ hlam hf hg =>
    subst hargs hx hg
    exact hw.append ((hw.gather hids).garble h₁ h₂ hcan houts hlabel hs₁ hs₂ hP _ _ hlam hf)

/-- **What an honest garbler has against any evaluator.** Whatever calls it makes, in any order, and whatever the
evaluator sends, its share and input bytes being bits: if none aborts, every value the garbler opens is that of the
evaluation in which the evaluator chose the output of each AND, on the garbler's inputs and those the evaluator claimed,
or `Δ₁` is one of the blocks the evaluator bet on, of which there is one for each bit it opened. A run without an AND
leaves the garbler the shared mask bits of its XOR and NOT outputs for their values (`leftValue`). What a `PUBLIC`
decode returns is only `told`. -/
theorem garbler_sound [DecidableEq D] (h₁ : S.cot₁ = C.s₁) (h₂ : S.cot₂ = C.s₂)
    (hE : Function.Injective S.tool.hash) {recs : List CallRecord}
    (hrun : Chain (PartyStep S .alice (SomeGarblerEngine S)) {} recs w) :
    (recs.flatMap CallRecord.guesses).length = (recs.map CallRecord.checked).sum ∧
      (S.Δ.d1 ∈ recs.flatMap CallRecord.guesses ∨ w.Opens S.Δ .alice ∧ ∀ r ∈ recs, r.out = r.clear.map byteOf) :=
  partyChain_sound h₁ h₂ hE (fun _ _ _ h => by rw [h.1]; rfl)
    (fun _ _ _ hw ⟨hr, _, h⟩ => .inr ⟨h.opens h₁ h₂ hw, by rw [hr]; rfl⟩) hrun

/-- The vector whose entries are `f` under the masks `lam`. -/
theorem vectorSays_atAnds (lam f : ℕ → Bool) {gs : List Gate} :
    ForGates (VectorSays (atAnds (fun k g => f k ^^ lam g.out) 0 gs) lam f) 0 gs := by
  refine ForGates.imp (fun k g h hand => ?_) (forGates_atAnds (fun k g => f k ^^ lam g.out) gs false)
  rw [h hand, Bool.xor_assoc, Bool.xor_self, Bool.xor_false]

/-- An evaluator can send such a vector. -/
theorem GarblerEngine.exists_run {ids : List ℕ} {x : List Bool} {source : Body (List ℕ)}
    (hids : ∀ i ∈ ids, i < w.value.length) (hx : ids.map (w.value.getD · false) = x)
    (hcan : CanonicalStream x.length (source.stream x.length))
    (houts : ∀ o ∈ source.outs x.length, o < x.length + (source.stream x.length).length)
    (hands : 0 < countAnds (source.stream x.length)) (f : ℕ → Bool) (sigma : ℕ → AShareBundle) (seed : Block) :
    ∃ LambdaAND w', LambdaAND.length = countAnds (source.stream x.length) ∧
      GarblerEngine S ⟨source, ids, sigma, seed, LambdaAND⟩ w w' ∧
      w'.value = w.value ++ (source.outs x.length).map (forceAnds f 0 (source.stream x.length) (inputWires x)) := by
  have hsize : (w.wires.gather ids).size = x.length := by
    rw [← hx]
    simp [SecureWires.size, SecureWires.gather]
  obtain ⟨_, hspec, -⟩ := @prepare_spec S.cot₁ (w.wires.gather ids) w.pool source (by rw [hsize]; exact hcan)
  have hnum := hspec.numAnds
  rw [hsize] at hnum
  have hlabel : (List.replicate x.length zeroBlock).length = x.length := List.length_replicate
  generalize hs₁ : shareOf S.cot₁ (w.wires.gather ids) w.pool source = share₁
  generalize hs₂ : shareOf S.cot₂ (evaluatorWires (ids.map (w.peer.getD · .zero)) (w.wires.gather ids).Lambda
    (List.replicate x.length zeroBlock)) w.pool source = share₂
  refine ⟨_, _, length_atAnds, .run hids rfl hx hcan houts rfl (length_atAnds.trans hnum.symm) hlabel hs₁ hs₂ rfl
    (vectorSays_atAnds (fun i => shareBit (share₁ i) (share₂ i)) f) rfl, ?_⟩
  rw [openedValue, if_pos hands]
  rfl

/-- The evaluator's true opening of wires that the garbler holds. -/
def trueOpening (E : EmpTool D) (peer : List AShareBundle) : OpenMsg D :=
  ⟨(peer.map fun s => LSB s.mac).map byteOf, E.hash (peer.map AShareBundle.mac)⟩

/-- In it nothing is bet on `Δ₁`. -/
theorem not_mem_openingGuesses_self (Δ : Deltas) (peer : List AShareBundle) :
    Δ.d1 ∉ openingGuesses peer (peer.map AShareBundle.mac) := by
  intro hmem
  obtain ⟨i, hi, hguess⟩ := List.mem_map.mp hmem
  rw [getD_map_of_lt _ .zero _ (List.mem_range.mp hi), BitVec.xor_self] at hguess
  exact Δ.of_ne_zero .alice hguess.symm

/-- **Every choice can be made**, against an honest garbler whose masks open bits. On any source with an AND, for any
outputs `f` of the ANDs and whatever the garbler's shares of the triples and the tweak seed, there is a vector on which
its run of the engine ends with masks that open the evaluation with these outputs. From then on the evaluator's true
opening of any wires decodes at the garbler to these values, and bets on nothing. -/
theorem garbler_forced [DecidableEq D] (h₁ : S.cot₁ = C.s₁) (h₂ : S.cot₂ = C.s₂) (hw : w.Opens S.Δ .alice)
    {ids : List ℕ} {x : List Bool} {source : Body (List ℕ)} (hids : ∀ i ∈ ids, i < w.value.length)
    (hx : ids.map (w.value.getD · false) = x) (hcan : CanonicalStream x.length (source.stream x.length))
    (houts : ∀ o ∈ source.outs x.length, o < x.length + (source.stream x.length).length)
    (hands : 0 < countAnds (source.stream x.length)) (f : ℕ → Bool) (sigma : ℕ → AShareBundle) (seed : Block) :
    ∃ LambdaAND w', LambdaAND.length = countAnds (source.stream x.length) ∧
      GarblerEngine S ⟨source, ids, sigma, seed, LambdaAND⟩ w w' ∧
      w'.value = w.value ++ (source.outs x.length).map (forceAnds f 0 (source.stream x.length) (inputWires x)) ∧
      ∀ outs : List ℕ, (∀ i ∈ outs, i < w'.value.length) →
        decodeAt S.tool .alice S.Δ.d1 (w'.wires.gather outs) (trueOpening S.tool (outs.map (w'.peer.getD · .zero))) =
            .ok (outs.map fun i => byteOf (w'.value.getD i false)) ∧
          S.Δ.d1 ∉ openingGuesses (outs.map (w'.peer.getD · .zero))
            ((outs.map (w'.peer.getD · .zero)).map AShareBundle.mac) := by
  obtain ⟨LambdaAND, w', hlen, hrun, hvalue⟩ :=
    GarblerEngine.exists_run (S := S) hids hx hcan houts hands f sigma seed
  refine ⟨LambdaAND, w', hlen, hrun, hvalue, fun outs houts => ⟨?_, not_mem_openingGuesses_self _ _⟩⟩
  have hopen := (hrun.opens h₁ h₂ hw).gather houts
  exact hopen.decode_honest.trans (congrArg Except.ok List.map_map)

end

/-! ### A conjunction of two public ones, forced to zero -/

/-- What the passes see of the conjunction. -/
theorem andProgram_stream : CanonicalStream 2 ((executeProgram andProgram).stream 2) ∧
    ∀ o ∈ (executeProgram andProgram).outs 2, o < 2 + ((executeProgram andProgram).stream 2).length :=
  (executeProgram_stream (recordCanonical_of_check (by decide : ag2pcRequireRecordCanonical andProgram = .ok ()))
    (rfl : 2 = _)).2.2

/-- It decodes to zero at the garbler. -/
theorem garbler_forced_zero : ∃ LambdaAND w',
    GarblerEngine .zeros ⟨executeProgram andProgram, [0, 1], fun _ => .zero, zeroBlock, LambdaAND⟩ (publicOnes .alice)
      w' ∧ w'.value = [true, true, false] ∧
      decodeAt .transparent .alice (initAbit .alice 0) (w'.wires.gather [2])
        (trueOpening .transparent ([2].map (w'.peer.getD · .zero))) = .ok [0] := by
  obtain ⟨LambdaAND, w', -, hrun, hvalue, hdecode⟩ := garbler_forced (S := .zeros) (C := .zeros _) rfl rfl
    (publicOnes_opens .alice) (by decide : ∀ i ∈ [0, 1], i < (publicOnes .alice).value.length) rfl andProgram_stream.1
    andProgram_stream.2 (by decide) (fun _ => false) (fun _ => .zero) zeroBlock
  have hw' : w'.value = [true, true, false] := hvalue.trans (by decide)
  obtain ⟨hout, -⟩ := hdecode [2] (by rw [hw']; decide)
  refine ⟨LambdaAND, w', hrun, hw', hout.trans ?_⟩
  rw [hw']
  rfl

/-- The calls that led there are sound, for the output the evaluator chose. -/
theorem garbler_sound_zero : ∃ recs w, Chain (PartyStep .zeros .alice (SomeGarblerEngine .zeros)) {} recs w ∧
    recs.map CallRecord.out = [[], [], [0]] ∧
      (recs.flatMap CallRecord.guesses).length = (recs.map CallRecord.checked).sum ∧
      (initAbit .alice 0 ∈ recs.flatMap CallRecord.guesses ∨
        w.Opens (.init 0 0) .alice ∧ ∀ r ∈ recs, r.out = r.clear.map byteOf) := by
  obtain ⟨_, w, -, hrun, hvalue⟩ := GarblerEngine.exists_run (S := .zeros)
    (by decide : ∀ i ∈ [0, 1], i < (publicOnes .alice).value.length) rfl andProgram_stream.1 andProgram_stream.2
    (by decide) (fun _ => false) (fun _ => .zero) zeroBlock
  have hw : w.value = [true, true, false] := hvalue.trans (by decide)
  have hopens : w.Opens (.init 0 0) .alice := hrun.opens (C := .zeros _) rfl rfl (publicOnes_opens .alice)
  have hin : ∀ i ∈ [2], i < w.value.length := by rw [hw]; decide
  have hopen := hopens.gather hin
  have hout : ([2].map (w.value.getD · false)).map byteOf = [0] := by rw [hw]; rfl
  have hdecode : PartyStep .zeros .alice (SomeGarblerEngine .zeros) w _ w :=
    .decode w .ALICE rfl hin rfl rfl (hopen.decode_honest (E := .transparent))
  have hchain : Chain (PartyStep .zeros .alice (SomeGarblerEngine .zeros)) {} [{}, {}, _] w :=
    .cons (.publicWires {} [1, 1]) (.cons (.engine ⟨rfl, _, hrun⟩) (.cons hdecode .nil))
  exact ⟨_, w, hchain, congrArg ([[], [], ·]) hout,
    garbler_sound (S := .zeros) (C := .zeros _) rfl rfl Function.injective_id hchain⟩

end AG2PC
