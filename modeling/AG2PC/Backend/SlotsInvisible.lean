import AG2PC.Backend.PassEquations
import Mathlib.Data.List.GetD

/-!
# Slot reuse is invisible

The passes of both parties work on the slots that the liveness and slot/mask passes hand out. Beside
each of them stands the same pass with a slot of its own for every wire, and at every gate the two
read the same.

* `SlotMapOk` — no slot is overwritten while its wire is needed, no slot is free twice, and wires needed
  at the same time have different slots (`slotMapOk_of_canonical`).
* `SameRun` — two passes read the same shares, labels and masks at every gate, and the outputs gather
  the same values.
* `sameRun_of_agree` — a pass on the slot map and the pass on private slots, from agreeing starts.
* `slots_invisible` — the slot/mask passes, garble, gamma check and evaluate.
-/

namespace AG2PC

open Library.SlotReuse Library.ByIndex

/-! ### The slot map -/

section

variable {n : ℕ} {gs : List Gate} {outIds : List ℕ}

/-- The wire is needed after the gates before `post`: an input, the output of an AND, an output of the
circuit, or an operand of a later gate. -/
def NeededAfter (n : ℕ) (gs : List Gate) (outIds : List ℕ) (post : List Gate) (w : ℕ) : Prop :=
  w < n ∨ (∃ g ∈ gs, g.isAnd = true ∧ g.out = w) ∨ w ∈ outIds ∨ ∃ g ∈ post, w ∈ g.srcs

/-- A wire that is defined and needed is live. -/
theorem live_of_needed {keep : ℕ → Prop} {post : List Gate} : ∀ {m w : ℕ}, CanonicalStream m post → w < m →
    (keep w ∨ ∃ g ∈ post, w ∈ g.srcs) → Live gateLayout keep post w := by
  induction post with
  | nil =>
    rintro m w - - (hk | ⟨g, hg, -⟩)
    · exact hk
    · cases hg
  | cons g post ih =>
    rintro m w hcan hw hneed
    obtain ⟨hout, -, hrest⟩ := canonicalStream_cons.mp hcan
    have hne : w ≠ g.out := by omega
    rcases hneed with hk | ⟨g', hg', hsrc⟩
    · exact .inr (.inr ⟨hne, ih hrest (by omega) (.inl hk)⟩)
    · rcases List.mem_cons.mp hg' with rfl | hg'
      · exact .inl hsrc
      · exact .inr (.inr ⟨hne, ih hrest (by omega) (.inr ⟨g', hg', hsrc⟩)⟩)

/-- What is live before the first gate persists. -/
theorem persistent_of_live (h : CanonicalStream n gs) {w : ℕ}
    (hlive : Live gateLayout (Persistent n gs outIds) gs w) : Persistent n gs outIds w := by
  rcases Nat.lt_or_ge w n with hlt | hge
  · exact persistent_input h hlt
  · exact persist_of_live gs h (readsCovered_stream h) (fun _ hw => hw) hlive hge

/-- A defined wire that is needed after the first gates is live then. -/
theorem live_of_neededAfter {pre post : List Gate} (h : CanonicalStream n (pre ++ post)) {w : ℕ}
    (hw : w < n + pre.length) (hneed : NeededAfter n (pre ++ post) outIds post w) :
    Live gateLayout (Persistent n (pre ++ post) outIds) post w := by
  have hpost := (singleAssignment_append.mp h).2
  have hlen : w < n + (pre ++ post).length := by
    rw [List.length_append]
    omega
  refine live_of_needed hpost hw ?_
  rcases hneed with hlt | ⟨g, hg, hand, rfl⟩ | hout | hsrc
  · exact .inl (persistent_input h hlt)
  · exact .inl (persistent_and h hg hand)
  · exact .inl (persistent_output hout hlen)
  · exact .inr hsrc

/-- The slot map of the stream `gs` over `n` inputs, with the map and the freelist after the first
gates. -/
structure SlotMapOk (n : ℕ) (gs : List Gate) (outIds : List ℕ) (phys : ℕ → ℕ) (alloc : List Gate → Alloc) :
    Prop where
  /-- No gate writes the slot of a wire that is needed after it. -/
  kept : ∀ pre g post, gs = pre ++ g :: post → ∀ w < n + pre.length, NeededAfter n gs outIds post w →
    phys w ≠ phys g.out
  /-- No slot is on the freelist twice. -/
  nodup : ∀ pre post, gs = pre ++ post → (alloc pre).freelist.Nodup
  /-- The slot of a needed wire is not free. -/
  notFree : ∀ pre post, gs = pre ++ post → ∀ w < n + pre.length, NeededAfter n gs outIds post w →
    phys w ∉ (alloc pre).freelist
  /-- Two wires needed at the same time have different slots. -/
  distinct : ∀ pre post, gs = pre ++ post → ∀ w < n + pre.length, ∀ w' < n + pre.length, w ≠ w' →
    NeededAfter n gs outIds post w → NeededAfter n gs outIds post w' → phys w ≠ phys w'
  /-- A wire keeps the slot it got. -/
  stays : ∀ pre post, gs = pre ++ post → ∀ w < n + pre.length, (alloc pre).phys w = phys w

variable (outIds) in
/-- **The slot map of a canonical stream.** -/
theorem slotMapOk_of_canonical (h : CanonicalStream n gs) :
    SlotMapOk n gs outIds (streamAlloc n gs outIds).phys fun pre =>
      allocGates (streamLiveness n gs outIds).lastUse (streamLiveness n gs outIds).persist (.start n) pre := by
  -- the invariant after the first gates, for the wires needed later
  have hat : ∀ pre post, gs = pre ++ post →
      let a := allocGates (streamLiveness n gs outIds).lastUse (streamLiveness n gs outIds).persist (.start n) pre
      AllocOk a (n + pre.length) (Live gateLayout (Persistent n gs outIds) post) ∧
        ∀ w < n + pre.length, a.phys w = (streamAlloc n gs outIds).phys w := by
    rintro pre post hgs a
    obtain ⟨hok, hcov, hcan⟩ := AllocOk.run_append (streamLiveness n gs outIds).lastUse
      (streamLiveness n gs outIds).persist pre post (hgs ▸ h) (allocOk_start _)
      (hgs ▸ readsCovered_stream h)
    refine ⟨hok.mono fun w _ hlive => inUse_of_live (fun _ hw => hw.1) post hcov hlive, fun w hw => ?_⟩
    obtain ⟨-, hstay, -⟩ := AllocOk.run post hcan hok hcov fun w (hw : False) => hw.elim
    rw [← hstay w hw]
    conv_rhs => rw [streamAlloc, hgs]
    simp only [allocGates, List.foldl_append, hgs]
  have hlive : ∀ pre post, gs = pre ++ post → ∀ w < n + pre.length, NeededAfter n gs outIds post w →
      Live gateLayout (Persistent n gs outIds) post w := by
    rintro pre post rfl w hw hneed
    exact live_of_neededAfter h hw hneed
  refine ⟨fun pre g post hgs w hw hneed => ?_, fun pre post hgs => (hat pre post hgs).1.nodup,
    fun pre post hgs w hw hneed => ?_, fun pre post hgs w hw w' hw' hne hneed hneed' => ?_,
    fun pre post hgs => (hat pre post hgs).2⟩
  · obtain ⟨hsafe, -, -⟩ := safe_streamAlloc outIds h
    have hcan := h
    rw [hgs] at hcan hsafe
    obtain ⟨-, hdst, -, hpost⟩ := singleAssignment_append.mp hcan
    have hdst' : g.out = n + pre.length := hdst
    obtain ⟨-, hfree, -⟩ := safe_append.mp hsafe
    rw [hgs]
    refine hfree w (by change w ≠ g.out; omega) ?_
    rw [← hgs]
    have hw' : w < n + (pre ++ [g]).length := by
      rw [List.length_append]
      omega
    exact hlive (pre ++ [g]) post (by rw [hgs, List.append_assoc, List.singleton_append]) w hw' hneed
  · obtain ⟨hok, hphys⟩ := hat pre post hgs
    rw [← hphys w hw]
    exact hok.not_free w hw (hlive pre post hgs w hw hneed)
  · obtain ⟨hok, hphys⟩ := hat pre post hgs
    rw [← hphys w hw, ← hphys w' hw']
    exact hok.inj w hw w' hw' (hlive pre post hgs w hw hneed) (hlive pre post hgs w' hw' hneed') hne

end

/-! ### A pass on slots and a pass on private slots -/

/-- Two runs of a pass over the stream `gs`, given after each first part of it: one on slots, in which wire
`w` then has the slot `phys pre w`, one with a slot of its own for every wire. `reads g` are the wires
whose slots the pass reads at `g`. -/
structure SameRun {G V : Type} (n : ℕ) (gs : List Gate) (outIds : List ℕ) (reads : Gate → List ℕ)
    (phys : List Gate → ℕ → ℕ) (s s' : List Gate → G × (ℕ → V)) : Prop where
  /-- The data beside the slots are the same. -/
  globals : ∀ pre post, gs = pre ++ post → (s pre).1 = (s' pre).1
  /-- Every gate reads the same values. -/
  operands : ∀ pre g post, gs = pre ++ g :: post → ∀ w ∈ reads g, (s pre).2 (phys pre w) = (s' pre).2 w
  /-- The outputs are gathered alike. -/
  outputs : ∀ w ∈ outIds, w < n + gs.length → (s gs).2 (phys gs w) = (s' gs).2 w

/-- The wires whose slots garble, evaluate and gamma check read at a gate: the operands, and the output of an
AND, whose share is already there. -/
def Gate.slotReads (g : Gate) : List ℕ := g.srcs ++ if g.isAnd then [g.out] else []

section

variable {G V : Type} (M : Machine gateLayout G V) {n : ℕ} {gs : List Gate} {outIds : List ℕ}

/-- A pass over slots after recorded gates is a run of its machine. -/
theorem machinePass_after (phys : ℕ → ℕ) {gs : List Gate} (hnorm : ∀ g ∈ gs, g.normalize = g) (s : G × (ℕ → V)) :
    (machinePass M phys).after gs s = M.run phys gs s := by
  have hmap : gs.map Gate.normalize = gs := (List.map_congr_left hnorm).trans (List.map_id gs)
  rw [machinePass_after_normalize, hmap]

/-- The wires that persist hold the same values in the end. -/
theorem run_persistent (h : CanonicalStream n gs) (hnorm : ∀ g ∈ gs, g.normalize = g) (s s' : G × (ℕ → V))
    (hglobals : s.1 = s'.1)
    (hagree : ∀ w, Persistent n gs outIds w → s.2 ((streamAlloc n gs outIds).phys w) = s'.2 w) {w : ℕ}
    (hw : Persistent n gs outIds w) :
    ((machinePass M (streamAlloc n gs outIds).phys).after gs s).2 ((streamAlloc n gs outIds).phys w) =
      ((machinePass M id).after gs s').2 w := by
  obtain ⟨g₀, m⟩ := s
  obtain ⟨g₀', m'⟩ := s'
  obtain rfl : g₀ = g₀' := hglobals
  obtain ⟨hsafe, -, -⟩ := safe_streamAlloc outIds h
  rw [machinePass_after M _ hnorm, machinePass_after M _ hnorm]
  exact (M.run_agree gs g₀ m m' hsafe fun w hw => hagree w (persistent_of_live h hw)).2 w hw

/-- **A pass on the slot map reads what it reads on private slots**, when the two start with the same values in
the wires that persist. -/
theorem sameRun_of_agree (h : CanonicalStream n gs) (hnorm : ∀ g ∈ gs, g.normalize = g) (s s' : G × (ℕ → V))
    (hglobals : s.1 = s'.1)
    (hagree : ∀ w, Persistent n gs outIds w → s.2 ((streamAlloc n gs outIds).phys w) = s'.2 w) :
    SameRun n gs outIds Gate.slotReads (fun _ => (streamAlloc n gs outIds).phys)
      (fun pre => (machinePass M (streamAlloc n gs outIds).phys).after pre s)
      (fun pre => (machinePass M id).after pre s') := by
  have hend := fun {w : ℕ} => run_persistent M h hnorm s s' hglobals hagree (w := w)
  obtain ⟨g₀, m⟩ := s
  obtain ⟨g₀', m'⟩ := s'
  obtain rfl : g₀ = g₀' := hglobals
  obtain ⟨hsafe, -, -⟩ := safe_streamAlloc outIds h
  have hlive : ∀ w, Live gateLayout (Persistent n gs outIds) gs w →
      m ((streamAlloc n gs outIds).phys w) = m' w := fun w hw => hagree w (persistent_of_live h hw)
  refine ⟨fun pre post hgs => ?_, fun pre g post hgs w hw => ?_, fun w hw hlt =>
    hend (persistent_output hw hlt)⟩
  · subst hgs
    have hpre : ∀ g ∈ pre, g.normalize = g := fun g hg => hnorm g (List.mem_append_left _ hg)
    rw [machinePass_after M _ hpre, machinePass_after M _ hpre]
    exact (M.run_agree pre g₀ m m' (safe_append.mp hsafe).1 fun w hw => hlive w (live_append.mpr hw)).1
  · subst hgs
    have hpre : ∀ g ∈ pre, g.normalize = g := fun g hg => hnorm g (List.mem_append_left _ hg)
    rw [machinePass_after M _ hpre, machinePass_after M _ hpre]
    obtain ⟨-, hsrcs, hown⟩ := M.reads_agree g₀ m m' hsafe hlive
    rcases List.mem_append.mp hw with hsrc | hout
    · exact hsrcs w hsrc
    · cases hand : g.isAnd with
      | false =>
        rw [hand] at hout
        exact absurd hout List.not_mem_nil
      | true =>
        rw [hand, if_pos rfl] at hout
        obtain rfl := List.mem_singleton.mp hout
        exact hown hand

/-- A wire that persists and is no input has a slot above those of the inputs. -/
theorem le_phys_of_persistent (h : CanonicalStream n gs) {w : ℕ} (hw : Persistent n gs outIds w) (hn : n ≤ w) :
    n ≤ (streamAlloc n gs outIds).phys w := by
  obtain ⟨-, -, hnew, -⟩ := AllocOk.run gs h (allocOk_start _) (readsCovered_stream h)
    fun w (hw : Persistent n gs outIds w) => hw
  exact hnew w hn hw.2 hw.1

/-- Memories that start with the inputs and nothing else agree on the wires that persist. -/
theorem loaded_agree {f : ℕ → V} {d : V} (h : CanonicalStream n gs) (hd : ∀ a, n ≤ a → f a = d) {w : ℕ}
    (hw : Persistent n gs outIds w) : f ((streamAlloc n gs outIds).phys w) = f w := by
  obtain ⟨-, hinput, -⟩ := safe_streamAlloc outIds h
  rcases Nat.lt_or_ge w n with hlt | hge
  · rw [hinput w hlt]
  · rw [hd w hge, hd _ (le_phys_of_persistent h hw hge)]

end

/-! ### Slots and masks -/

/-- The slot/mask pass after the first gates `pre` of a source. -/
def slotMaskAfter (cot : ℕ → AShareBundle) (w : SecureWires) (pool : TriplePool) (source : Body (List ℕ))
    (pre : List Gate) : SlotMask :=
  let lv := streamLiveness w.size (source.stream w.size) (source.outs w.size)
  (slotMaskPass cot lv.lastUse lv.persist).after pre
    { alloc := .start w.size, globals := { pool := pool }, mem := loadInputs w }

/-- The slot/mask pass on private slots after the gates `pre`. -/
def privateMasks (cot : ℕ → AShareBundle) (w : SecureWires) (pool : TriplePool) (pre : List Gate) :
    MaskGlobals × (ℕ → MaskSlot) :=
  (machinePass (slotMaskMachine cot) id).after pre ({ pool := pool }, loadInputs w)

/-- Slot reuse is invisible in a party's slot/mask pass. -/
structure MasksInvisible (cot : ℕ → AShareBundle) (w : SecureWires) (pool : TriplePool)
    (source : Body (List ℕ)) : Prop where
  /-- The slot map is as it should be. -/
  map : SlotMapOk w.size (source.stream w.size) (source.outs w.size) (prepare cot w pool source).phys
    fun pre => (slotMaskAfter cot w pool source pre).alloc
  /-- The pass reads what it reads on private slots. -/
  run : SameRun w.size (source.stream w.size) (source.outs w.size) Gate.srcs
    (fun pre => (slotMaskAfter cot w pool source pre).alloc.phys)
    (fun pre => ((slotMaskAfter cot w pool source pre).globals, (slotMaskAfter cot w pool source pre).mem))
    (privateMasks cot w pool)

section

variable {cot : ℕ → AShareBundle} {w : SecureWires} {pool : TriplePool} {source : Body (List ℕ)}

/-- The gates of a recorded stream have no unused operand. -/
theorem stream_normalize (source : Body (List ℕ)) (n : ℕ) : ∀ g ∈ source.stream n, g.normalize = g := by
  have hmap : (source.stream n).map Gate.normalize = (source.stream n).map id := by
    rw [List.map_id]
    exact source.record_normalize n none none
  exact List.map_inj_left.mp hmap

/-- The inputs are all that is loaded. -/
theorem loadInputs_of_le {party : Party} {n : ℕ} (hw : w.WellFormed party n) {a : ℕ} (ha : n ≤ a) :
    loadInputs w a = ⟨.zero, 0⟩ := by
  have hbundle : w.bundleAt a = .zero := List.getD_eq_default _ _ (hw.bundle.le.trans ha)
  have hlambda : w.lambdaAt a = 0 := List.getD_eq_default _ _ (hw.size.le.trans ha)
  rw [loadInputs, hbundle, hlambda]

/-- So the inputs are where the wires that persist will be. -/
theorem loadInputs_agree {party : Party} {n : ℕ} (hw : w.WellFormed party n) (h : CanonicalStream n (source.stream n))
    {a : ℕ} (ha : Persistent n (source.stream n) (source.outs n) a) :
    loadInputs w ((streamAlloc n (source.stream n) (source.outs n)).phys a) = loadInputs w a :=
  loaded_agree h (fun _ => loadInputs_of_le hw) ha

/-- The slot/mask pass after the first gates, as a run on the final slot map. -/
theorem slotMaskAfter_eq (h : CanonicalStream w.size (source.stream w.size)) {pre post : List Gate}
    (hgs : source.stream w.size = pre ++ post) :
    slotMaskAfter cot w pool source pre =
      { alloc := allocGates (streamLiveness w.size (source.stream w.size) (source.outs w.size)).lastUse
          (streamLiveness w.size (source.stream w.size) (source.outs w.size)).persist (.start w.size) pre
        globals := ((slotMaskMachine cot).run (streamAlloc w.size (source.stream w.size) (source.outs w.size)).phys
          pre ({ pool := pool }, loadInputs w)).1
        mem := ((slotMaskMachine cot).run (streamAlloc w.size (source.stream w.size) (source.outs w.size)).phys
          pre ({ pool := pool }, loadInputs w)).2 } := by
  set lv := streamLiveness w.size (source.stream w.size) (source.outs w.size) with hlv
  have hstep : ∀ s : SlotMask, (slotMaskPass cot lv.lastUse lv.persist).after pre s =
      pre.foldl (SlotMask.gate cot lv.lastUse lv.persist) s := by
    intro s
    refine List.foldl_ext _ _ _ fun s g hg => ?_
    have hnorm := stream_normalize source w.size g (by rw [hgs]; exact List.mem_append_left _ hg)
    rw [slotMaskPass_step, hnorm]
  have hcov : ReadsCovered lv.lastUse lv.persist 0 (pre ++ post) := hgs ▸ readsCovered_stream h
  rw [slotMaskAfter, hstep]
  exact slotMask_run_append cot pre _ (hgs ▸ h) (allocOk_start _) hcov (hgs ▸ rfl)

/-- **Slot reuse is invisible in the slot/mask pass.** -/
theorem masksInvisible {party : Party} {n : ℕ} (hw : w.WellFormed party n)
    (h : CanonicalStream n (source.stream n)) : MasksInvisible cot w pool source := by
  obtain rfl := hw.size
  have hmap := slotMapOk_of_canonical (source.outs w.size) h
  have halloc : ∀ {pre post : List Gate}, source.stream w.size = pre ++ post →
      (slotMaskAfter cot w pool source pre).alloc =
        allocGates (streamLiveness w.size (source.stream w.size) (source.outs w.size)).lastUse
          (streamLiveness w.size (source.stream w.size) (source.outs w.size)).persist (.start w.size) pre := by
    intro pre post hgs
    rw [slotMaskAfter_eq h hgs]
  have hrun : ∀ {pre post : List Gate}, source.stream w.size = pre ++ post →
      ((slotMaskAfter cot w pool source pre).globals, (slotMaskAfter cot w pool source pre).mem) =
        (machinePass (slotMaskMachine cot)
          (streamAlloc w.size (source.stream w.size) (source.outs w.size)).phys).after pre
            ({ pool := pool }, loadInputs w) := by
    intro pre post hgs
    rw [slotMaskAfter_eq h hgs, machinePass_after _ _ fun g hg =>
      stream_normalize source w.size g (by rw [hgs]; exact List.mem_append_left _ hg)]
  have hsame := sameRun_of_agree (slotMaskMachine cot) h (stream_normalize source w.size)
    ({ pool := pool }, loadInputs w) ({ pool := pool }, loadInputs w) rfl fun _ => loadInputs_agree hw h
  refine ⟨?_, ?_⟩
  · rw [prepare_eq h]
    refine ⟨hmap.kept, fun pre post hgs => ?_, fun pre post hgs => ?_, hmap.distinct, fun pre post hgs => ?_⟩
    · rw [halloc hgs]
      exact hmap.nodup pre post hgs
    · rw [halloc hgs]
      exact hmap.notFree pre post hgs
    · rw [halloc hgs]
      exact hmap.stays pre post hgs
  · refine ⟨fun pre post hgs => ?_, fun pre g post hgs a ha => ?_, fun a ha hlt => ?_⟩
    · rw [hrun hgs]
      exact hsame.globals pre post hgs
    · have hcan := h
      rw [hgs] at hcan
      have hlt := (singleAssignment_append.mp hcan).2.2.1 a ha
      rw [hrun hgs, halloc hgs, hmap.stays pre (g :: post) hgs a hlt]
      exact hsame.operands pre g post hgs a (List.mem_append_left _ ha)
    · rw [hrun (List.append_nil _).symm, halloc (List.append_nil _).symm, hmap.stays _ [] (List.append_nil _).symm a hlt]
      exact hsame.outputs a ha hlt

end

/-! ### Garble, gamma check and evaluate -/

/-- Where the garble pass starts, on the shares that the slot/mask pass left. -/
def garbleStart (seed : Block) (mem : ℕ → MaskSlot) (w : SecureWires) : GarbleGlobals × (ℕ → GarbleSlot) :=
  ({ mitc := .setS seed }, fun a => ⟨(mem a).share, w.label0At a⟩)

/-- Where the evaluate pass starts. -/
def evaluateStart (seed : Block) (numAnds : ℕ) (wire : List StreamEntry) (mem : ℕ → MaskSlot) (w : SecureWires) :
    EvalGlobals × (ℕ → EvalSlot) :=
  ({ mitc := .setS seed, inbox := recvChunks numAnds wire },
    fun a => ⟨(mem a).share, w.evalLabelAt a, (mem a).mask⟩)

/-- Where the gamma check starts, on the shares that the garble pass left. -/
def gammaStart (labels : ℕ → GarbleSlot) (mem : ℕ → MaskSlot) : GammaGlobals × (ℕ → MaskSlot) :=
  ({}, fun a => ⟨(labels a).share, (mem a).mask⟩)

section

variable {cot : ℕ → AShareBundle} {w : SecureWires} {pool : TriplePool} {source : Body (List ℕ)}

variable (cot pool) in
/-- What passes 0 and 1 leave in the wires that persist is what they leave on private slots. -/
theorem prepare_persistent {party : Party} {n : ℕ} (hw : w.WellFormed party n)
    (h : CanonicalStream n (source.stream n)) :
    (prepare cot w pool source).phys = (streamAlloc n (source.stream n) (source.outs n)).phys ∧
      (prepare cot w pool source).numAnds = (privateMasks cot w pool (source.stream n)).1.ai ∧
      ∀ a, Persistent n (source.stream n) (source.outs n) a →
        (prepare cot w pool source).mem ((prepare cot w pool source).phys a) =
          (privateMasks cot w pool (source.stream n)).2 a := by
  obtain rfl := hw.size
  have hnorm := stream_normalize source w.size
  have hglobals := (sameRun_of_agree (slotMaskMachine cot) h hnorm ({ pool := pool }, loadInputs w)
    ({ pool := pool }, loadInputs w) rfl fun _ => loadInputs_agree hw h).globals _ [] (List.append_nil _).symm
  rw [machinePass_after _ _ hnorm] at hglobals
  rw [prepare_eq h]
  refine ⟨rfl, congrArg MaskGlobals.ai hglobals, fun a ha => ?_⟩
  have hpersist := run_persistent (slotMaskMachine cot) h hnorm ({ pool := pool }, loadInputs w)
    ({ pool := pool }, loadInputs w) rfl (fun _ => loadInputs_agree hw h) ha
  rw [machinePass_after _ _ hnorm] at hpersist
  exact hpersist

variable {D : Type} (E : EmpTool D) (Δ₁ Δ₂ seed : Block) (σ₁ σ₂ : ℕ → AShareBundle) (wire : List StreamEntry)
variable (LambdaAND : List Bool) {cot₁ cot₂ : ℕ → AShareBundle} {w₁ w₂ : SecureWires} {pool₁ pool₂ : TriplePool}

variable (source cot₁ cot₂ w₁ w₂ pool₁ pool₂) in
/-- Slot reuse is invisible in every pass of the two parties: each pass on the slot map, beside the pass on
private slots that starts where the private passes before it ended. -/
structure PassesInvisible (n : ℕ) : Prop where
  /-- The garbler's slot/mask pass. -/
  masks₁ : MasksInvisible cot₁ w₁ pool₁ source
  /-- The evaluator's slot/mask pass. -/
  masks₂ : MasksInvisible cot₂ w₂ pool₂ source
  /-- The garble pass. -/
  garble :
    let P₁ := prepare cot₁ w₁ pool₁ source
    let m₁ := privateMasks cot₁ w₁ pool₁ (source.stream n)
    SameRun n (source.stream n) (source.outs n) Gate.slotReads (fun _ => P₁.phys)
      (fun pre => (machinePass (garbleMachine E Δ₁ σ₁) P₁.phys).after pre (garbleStart seed P₁.mem w₁))
      (fun pre => (machinePass (garbleMachine E Δ₁ σ₁) id).after pre (garbleStart seed m₁.2 w₁))
  /-- The gamma check pass. -/
  gamma :
    let P₁ := prepare cot₁ w₁ pool₁ source
    let m₁ := privateMasks cot₁ w₁ pool₁ (source.stream n)
    let g := garblerSend E Δ₁ seed σ₁ P₁ w₁ source
    let g' := (machinePass (garbleMachine E Δ₁ σ₁) id).after (source.stream n) (garbleStart seed m₁.2 w₁)
    let M := gammaMachine σ₁ fun k => byteOf (LambdaAND.getD k false)
    SameRun n (source.stream n) (source.outs n) Gate.slotReads (fun _ => P₁.phys)
      (fun pre => (machinePass M P₁.phys).after pre (gammaStart g.2 P₁.mem))
      (fun pre => (machinePass M id).after pre (gammaStart g'.2 m₁.2))
  /-- The evaluate pass. -/
  evaluate :
    let P₂ := prepare cot₂ w₂ pool₂ source
    let m₂ := privateMasks cot₂ w₂ pool₂ (source.stream n)
    SameRun n (source.stream n) (source.outs n) Gate.slotReads (fun _ => P₂.phys)
      (fun pre => (machinePass (evaluateMachine E Δ₂ σ₂) P₂.phys).after pre
        (evaluateStart seed P₂.numAnds wire P₂.mem w₂))
      (fun pre => (machinePass (evaluateMachine E Δ₂ σ₂) id).after pre
        (evaluateStart seed m₂.1.ai wire m₂.2 w₂))

/-- **Slot reuse is invisible**: over any canonical stream and any outputs, the slot/mask pass of each
party, the garble and gamma check passes of the garbler and the evaluate pass of the evaluator read at
every gate what the same pass reads on private slots, and gather the same outputs. -/
theorem slots_invisible {n : ℕ} (h : CanonicalStream n (source.stream n)) (hw₁ : w₁.WellFormed .alice n)
    (hw₂ : w₂.WellFormed .bob n) :
    PassesInvisible source E Δ₁ Δ₂ seed σ₁ σ₂ wire LambdaAND cot₁ cot₂ w₁ w₂ pool₁ pool₂ n := by
  let gs := source.stream n
  let outs := source.outs n
  let P₁ := prepare cot₁ w₁ pool₁ source
  let P₂ := prepare cot₂ w₂ pool₂ source
  let m₁ := privateMasks cot₁ w₁ pool₁ gs
  let m₂ := privateMasks cot₂ w₂ pool₂ gs
  let garble := garbleMachine E Δ₁ σ₁
  let g := garblerSend E Δ₁ seed σ₁ P₁ w₁ source
  let g' := (machinePass garble id).after gs (garbleStart seed m₁.2 w₁)
  have hnorm := stream_normalize source n
  obtain ⟨hphys₁, -, hmem₁⟩ := prepare_persistent cot₁ pool₁ hw₁ h
  obtain ⟨hphys₂, hands₂, hmem₂⟩ := prepare_persistent cot₂ pool₂ hw₂ h
  have hlabel₁ : ∀ a, n ≤ a → w₁.label0At a = zeroBlock := fun a ha =>
    List.getD_eq_default _ _ ((show w₁.label0.length = n from hw₁.labels).le.trans ha)
  have hlabel₂ : ∀ a, n ≤ a → w₂.evalLabelAt a = zeroBlock := fun a ha =>
    List.getD_eq_default _ _ ((show w₂.evalLabel.length = n from hw₂.labels).le.trans ha)
  -- the garble pass starts with the same shares and labels in the wires that persist
  have hgarble : ∀ a, Persistent n gs outs a →
      (garbleStart seed P₁.mem w₁).2 ((streamAlloc n gs outs).phys a) = (garbleStart seed m₁.2 w₁).2 a := by
    intro a ha
    have hlab := loaded_agree h hlabel₁ ha
    have hm := hmem₁ a ha
    rw [hphys₁] at hm
    exact congrArg₂ (fun (x : MaskSlot) l => GarbleSlot.mk x.share l) hm hlab
  have hg : g = (machinePass garble (streamAlloc n gs outs).phys).after gs (garbleStart seed P₁.mem w₁) := by
    simp only [g, garblerSend, hw₁.size]
    rw [machinePass_runSource, machinePass_after _ _ hnorm, ← hphys₁]
    rfl
  have hgend : ∀ a, Persistent n gs outs a → g.2 ((streamAlloc n gs outs).phys a) = g'.2 a := by
    intro a ha
    rw [hg]
    exact run_persistent garble h hnorm (garbleStart seed P₁.mem w₁) (garbleStart seed m₁.2 w₁) rfl hgarble ha
  have hgamma : ∀ a, Persistent n gs outs a →
      (gammaStart g.2 P₁.mem).2 ((streamAlloc n gs outs).phys a) = (gammaStart g'.2 m₁.2).2 a := by
    intro a ha
    have hm := hmem₁ a ha
    rw [hphys₁] at hm
    simp only [gammaStart, hgend a ha]
    exact congrArg (fun x : MaskSlot => MaskSlot.mk (g'.2 a).share x.mask) hm
  have hevaluate : ∀ a, Persistent n gs outs a →
      (evaluateStart seed P₂.numAnds wire P₂.mem w₂).2 ((streamAlloc n gs outs).phys a) =
        (evaluateStart seed m₂.1.ai wire m₂.2 w₂).2 a := by
    intro a ha
    have hlab := loaded_agree h hlabel₂ ha
    have hm := hmem₂ a ha
    rw [hphys₂] at hm
    exact congrArg₂ (fun (x : MaskSlot) l => EvalSlot.mk x.share l x.mask) hm hlab
  refine ⟨masksInvisible hw₁ h, masksInvisible hw₂ h, ?_, ?_, ?_⟩
  · dsimp only
    rw [hphys₁]
    exact sameRun_of_agree garble h hnorm _ _ rfl hgarble
  · dsimp only
    rw [hphys₁]
    exact sameRun_of_agree _ h hnorm _ _ rfl hgamma
  · dsimp only
    rw [hphys₂]
    refine sameRun_of_agree _ h hnorm _ _ ?_ hevaluate
    simp only [evaluateStart, hands₂]

end

/-! ### A slot used twice -/

/-- A source whose first XOR and whose second XOR get the same slot. -/
def reuseSource : Body (List ℕ) :=
  .xorGate 0 1 fun a => .notGate a fun b => .andGate b b fun c => .xorGate c b fun d => .notGate d fun e => .done [e, 0]

/-- Its passes do not notice. -/
theorem slots_invisible_reuse :
    (prepare (fun _ => .zero) (publicWires .alice ((Deltas.init 0 0).of .alice) [1, 0]) {} reuseSource).phys 5 =
        (prepare (fun _ => .zero) (publicWires .alice ((Deltas.init 0 0).of .alice) [1, 0]) {} reuseSource).phys 2 ∧
      PassesInvisible reuseSource .transparent (Deltas.init 0 0).d1 (Deltas.init 0 0).d2 zeroBlock (fun _ => .zero)
        (fun _ => .zero) [] [] (fun _ => .zero) (fun _ => .zero)
        (publicWires .alice ((Deltas.init 0 0).of .alice) [1, 0])
        (publicWires .bob ((Deltas.init 0 0).of .bob) [1, 0]) {} {} 2 := by
  have hcan : CanonicalStream 2 (reuseSource.stream 2) := by
    refine ⟨rfl, ?_, rfl, ?_, rfl, ?_, rfl, ?_, rfl, ?_, trivial⟩ <;> decide
  exact ⟨by decide +kernel, slots_invisible _ _ _ _ _ _ _ _ hcan ⟨rfl, rfl, rfl⟩ ⟨rfl, rfl, rfl⟩⟩

end AG2PC
