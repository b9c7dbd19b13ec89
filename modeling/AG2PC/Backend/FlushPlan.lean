import AG2PC.Backend.Canonical
import AG2PC.Library.ByIndex
import AG2PC.Library.Marking

/-!
# Planning a flush

`flush_plan.h`: from the recorded chunk, the ids to keep and the set of materialized ids, `plan_flush`
makes the program a flush runs. It marks the gates the pending keep ids need, numbers their materialized
operands as program inputs in the order they are first seen, and numbers the needed gates after them.

* `needed_iff` — a gate is retained exactly when a pending keep id needs it.
* `planFlush_eval` — the program computes, from the bits of its input ids, the bits of its output ids.
* `planFlush_canonical` — it is a canonical stream with outputs in range.
-/

namespace AG2PC

open Library.Marking Library.ByIndex Library.SlotReuse

instance : Inhabited Gate := ⟨⟨0, 0, 0, .Const0⟩⟩

/-- `circuit::Gate` number `gi` of a chunk. -/
def gateAt (gates : List Gate) (gi : ℕ) : Gate := gates.getD gi default

/-- `wire_to_gate`, filled for the first `n` gates. -/
def wireToGate (gates : List Gate) : ℕ → ℕ → Option ℕ
  | 0 => fun _ => none
  | n + 1 => Function.update (wireToGate gates n) (gateAt gates n).out (some n)

/-- `wire_to_gate.count(id)`. -/
def isLocal (gates : List Gate) (id : ℕ) : Bool := (wireToGate gates gates.length id).isSome

/-- `needed`: marked depth first from the pending keep ids, every turn of the loop taking one id off the
stack. Each gate pushes its operands once, so there are at most that many turns. -/
def needed (gates : List Gate) (keepIds : List ℕ) : ℕ → Bool :=
  let roots := (keepIds.filter (isLocal gates)).reverse
  mark (wireToGate gates gates.length) (fun gi => (gateAt gates gi).srcs) (roots.length + 2 * gates.length)
    roots fun _ => false

/-- The gates the loops over `chunk_gates` do not skip. -/
def neededGates (gates : List Gate) (keepIds : List ℕ) : List Gate :=
  ((List.range gates.length).filter (needed gates keepIds)).map (gateAt gates)

/-- The data of `note_input`. -/
structure InputNotes where
  /-- `remap`. -/
  remap : ℕ → Option ℕ := fun _ => none
  /-- `plan.input_ids`. -/
  inputIds : List ℕ := []
  /-- `plan.ok`. -/
  ok : Bool := true

/-- `note_input`. -/
def noteInput (isLocal isMaterialized : ℕ → Bool) (st : InputNotes) (v : ℕ) : InputNotes :=
  if isLocal v then st
  else if (st.remap v).isSome then st
  else if !isMaterialized v then { st with ok := false }
  else { st with remap := Function.update st.remap v (some st.inputIds.length), inputIds := st.inputIds ++ [v] }

/-- The data of the compaction loop. -/
structure Compaction where
  /-- `cid`. -/
  cid : ℕ
  /-- `remap`. -/
  remap : ℕ → Option ℕ
  /-- `plan.prog.gates`. -/
  gates : List Gate := []

/-- `remap[id]`, which is 0 for an id that is not there. -/
def Compaction.at (st : Compaction) (id : ℕ) : ℕ := (st.remap id).getD 0

/-- One turn of the compaction loop. -/
def compactGate (st : Compaction) (g : Gate) : Compaction :=
  let st' := { st with cid := st.cid + 1, remap := Function.update st.remap g.out (some st.cid) }
  let ni0 := if g.isConst then 0 else st'.at g.in0
  let ni1 := if g.isConst || g.isNot then 0 else st'.at g.in1
  { st' with gates := st'.gates ++ [⟨ni0, ni1, st.cid, g.op⟩] }

/-- `plan.output_ids`: the pending keep ids, each once; `emitted` holds those already there. -/
def emitOutputs (isLocal : ℕ → Bool) : List ℕ → List ℕ → List ℕ
  | _, [] => []
  | emitted, id :: keepIds =>
    if !isLocal id then emitOutputs isLocal emitted keepIds
    else if id ∈ emitted then emitOutputs isLocal emitted keepIds
    else id :: emitOutputs isLocal (id :: emitted) keepIds

/-- `FlushPlan`. -/
structure FlushPlan where
  /-- The compacted program. -/
  prog : BooleanProgram
  /-- The recorder ids of its inputs, in order. -/
  inputIds : List ℕ
  /-- The recorder ids of its outputs, in order. -/
  outputIds : List ℕ
  /-- Whether every operand is chunk-local or materialized. -/
  ok : Bool

/-- The notes on the operands of the needed gates. -/
def planInputs (chunkGates : List Gate) (keepIds : List ℕ) (isMaterialized : ℕ → Bool) : InputNotes :=
  ((neededGates chunkGates keepIds).flatMap Gate.srcs).foldl (noteInput (isLocal chunkGates) isMaterialized) {}

/-- The needed gates, compacted. -/
def planGates (chunkGates : List Gate) (keepIds : List ℕ) (isMaterialized : ℕ → Bool) : Compaction :=
  let notes := planInputs chunkGates keepIds isMaterialized
  (neededGates chunkGates keepIds).foldl compactGate { cid := notes.inputIds.length, remap := notes.remap }

/-- `plan_flush`. -/
def planFlush (chunkGates : List Gate) (keepIds : List ℕ) (isMaterialized : ℕ → Bool) : FlushPlan :=
  let notes := planInputs chunkGates keepIds isMaterialized
  let st := planGates chunkGates keepIds isMaterialized
  let outputIds := emitOutputs (isLocal chunkGates) [] keepIds
  { prog :=
      { numInputs := notes.inputIds.length, numWires := st.cid, gates := st.gates
        outputs := outputIds.map st.at }
    inputIds := notes.inputIds
    outputIds := outputIds
    ok := notes.ok }

/-! ### The gate of an id -/

section

variable {gates : List Gate}

theorem gateAt_mem {gi : ℕ} (h : gi < gates.length) : gateAt gates gi ∈ gates := getD_mem _ h

theorem exists_gateAt {g : Gate} (hg : g ∈ gates) : ∃ gi < gates.length, gateAt gates gi = g := by
  obtain ⟨gi, hlt, rfl⟩ := List.mem_iff_getElem.mp hg
  refine ⟨gi, hlt, ?_⟩
  rw [gateAt, List.getD_eq_getElem?_getD, List.getElem?_eq_getElem hlt, Option.getD_some]

theorem wireToGate_lt {n w gi : ℕ} (h : wireToGate gates n w = some gi) :
    gi < n ∧ (gateAt gates gi).out = w := by
  induction n with
  | zero => cases h
  | succ n ih =>
    rw [wireToGate] at h
    by_cases hw : w = (gateAt gates n).out
    · rw [hw, Function.update_self] at h
      cases h
      exact ⟨Nat.lt_succ_self _, hw.symm⟩
    · rw [Function.update_of_ne hw] at h
      obtain ⟨hlt, hout⟩ := ih h
      exact ⟨Nat.lt_succ_of_lt hlt, hout⟩

/-- In an ordered chunk an output belongs to one gate. -/
theorem wireToGate_out (h : ChunkOrdered gates) {n gi : ℕ} (hn : n ≤ gates.length) (hgi : gi < n) :
    wireToGate gates n (gateAt gates gi).out = some gi := by
  induction n with
  | zero => omega
  | succ n ih =>
    rw [wireToGate]
    rcases Nat.lt_succ_iff_lt_or_eq.mp hgi with hlt | rfl
    · rw [Function.update_of_ne, ih (by omega) hlt]
      exact Nat.ne_of_lt (h.out_lt hlt (by omega))
    · exact Function.update_self _ _ _

theorem isLocal_iff (h : ChunkOrdered gates) {id : ℕ} : isLocal gates id = true ↔ id ∈ gates.map Gate.out := by
  unfold isLocal
  rw [Option.isSome_iff_exists]
  constructor
  · rintro ⟨gi, hgi⟩
    obtain ⟨hlt, rfl⟩ := wireToGate_lt hgi
    exact List.mem_map_of_mem (getD_mem _ hlt)
  · intro hid
    obtain ⟨g, hg, rfl⟩ := List.mem_map.mp hid
    obtain ⟨gi, hlt, rfl⟩ := exists_gateAt hg
    exact ⟨gi, wireToGate_out h (Nat.le_refl _) hlt⟩

end

/-! ### The needed gates -/

/-- The chunk-local ids that the keep ids need: the pending keep ids and the chunk-local operands of the
gates of needed ids. -/
inductive NeededId (gates : List Gate) (keepIds : List ℕ) : ℕ → Prop where
  /-- A pending keep id. -/
  | keep {id : ℕ} (hid : id ∈ keepIds) (hlocal : id ∈ gates.map Gate.out) : NeededId gates keepIds id
  /-- An operand. -/
  | operand {g : Gate} {w : ℕ} (hg : g ∈ gates) (hneeded : NeededId gates keepIds g.out) (hw : w ∈ g.srcs)
      (hlocal : w ∈ gates.map Gate.out) : NeededId gates keepIds w

section

variable {gates : List Gate} {keepIds : List ℕ}

theorem srcs_length_le (g : Gate) : g.srcs.length ≤ 2 := by
  cases hg : g.op <;> simp [Gate.srcs, hg]

/-- **A gate is retained exactly when the keep ids need its output.** -/
theorem needed_iff (h : ChunkOrdered gates) {gi : ℕ} (hgi : gi < gates.length) :
    needed gates keepIds gi = true ↔ NeededId gates keepIds (gateAt gates gi).out := by
  unfold needed
  rw [mark_iff (fun w i hi => (wireToGate_lt hi).1) (fun i => srcs_length_le _) (Nat.le_refl _)]
  have hroot : ∀ {w i : ℕ}, wireToGate gates gates.length w = some i →
      w = (gateAt gates i).out ∧ w ∈ gates.map Gate.out := by
    intro w i hi
    obtain ⟨hlt, rfl⟩ := wireToGate_lt hi
    exact ⟨rfl, List.mem_map_of_mem (gateAt_mem hlt)⟩
  constructor
  · intro hneeded
    clear hgi
    induction hneeded with
    | root hw hi =>
      obtain ⟨rfl, hlocal⟩ := hroot hi
      exact .keep (List.mem_filter.mp (List.mem_reverse.mp hw)).1 hlocal
    | step hmark hw hj ih =>
      obtain ⟨rfl, hlocal⟩ := hroot hj
      -- a marked node has operands, so it is a gate of the chunk
      refine .operand (gateAt_mem ?_) ih hw hlocal
      cases hmark with
      | root _ hi => exact (wireToGate_lt hi).1
      | step _ _ hi => exact (wireToGate_lt hi).1
  · suffices hall : ∀ id, NeededId gates keepIds id → ∀ gi, wireToGate gates gates.length id = some gi →
        Needed (wireToGate gates gates.length) (fun gi => (gateAt gates gi).srcs)
          (keepIds.filter (isLocal gates)).reverse gi from
      fun hid => hall _ hid gi (wireToGate_out h (Nat.le_refl _) hgi)
    intro id hid
    induction hid with
    | keep hid hlocal =>
      intro gi hgi
      exact .root (List.mem_reverse.mpr (List.mem_filter.mpr ⟨hid, (isLocal_iff h).mpr hlocal⟩)) hgi
    | operand hg _ hw _ ih =>
      intro gi hgi
      obtain ⟨gj, hlt, rfl⟩ := exists_gateAt hg
      exact .step (ih gj (wireToGate_out h (Nat.le_refl _) hlt)) hw hgi

theorem map_gateAt (gates : List Gate) : (List.range gates.length).map (gateAt gates) = gates := by
  have h := map_eq_range id default (l := gates) rfl
  rw [List.map_id] at h
  exact h.symm

/-- The retained gates are a part of the chunk, in order. -/
theorem neededGates_sublist : (neededGates gates keepIds).Sublist gates := by
  conv_rhs => rw [← map_gateAt gates]
  exact (List.filter_sublist ..).map _

theorem neededGates_ordered (h : ChunkOrdered gates) : ChunkOrdered (neededGates gates keepIds) :=
  h.sublist neededGates_sublist

theorem mem_neededGates (h : ChunkOrdered gates) {g : Gate} :
    g ∈ neededGates gates keepIds ↔ g ∈ gates ∧ NeededId gates keepIds g.out := by
  unfold neededGates
  rw [List.mem_map]
  constructor
  · rintro ⟨gi, hgi, rfl⟩
    obtain ⟨hlt, hneeded⟩ := List.mem_filter.mp hgi
    rw [List.mem_range] at hlt
    exact ⟨gateAt_mem hlt, (needed_iff h hlt).mp hneeded⟩
  · rintro ⟨hg, hneeded⟩
    obtain ⟨gi, hlt, rfl⟩ := exists_gateAt hg
    exact ⟨gi, List.mem_filter.mpr ⟨List.mem_range.mpr hlt, (needed_iff h hlt).mpr hneeded⟩, rfl⟩

/-- A chunk-local operand of a retained gate is the output of a retained gate. -/
theorem neededGates_operand (h : ChunkOrdered gates) {g : Gate} (hg : g ∈ neededGates gates keepIds) {w : ℕ}
    (hw : w ∈ g.srcs) (hlocal : isLocal gates w = true) : w ∈ (neededGates gates keepIds).map Gate.out := by
  obtain ⟨hmem, hneeded⟩ := (mem_neededGates h).mp hg
  have hwl := (isLocal_iff h).mp hlocal
  obtain ⟨g', hg', rfl⟩ := List.mem_map.mp hwl
  exact List.mem_map_of_mem ((mem_neededGates h).mpr ⟨hg', .operand hmem hneeded hw hwl⟩)

/-- So is a pending keep id. -/
theorem neededGates_keep (h : ChunkOrdered gates) {id : ℕ} (hid : id ∈ keepIds) (hlocal : isLocal gates id = true) :
    id ∈ (neededGates gates keepIds).map Gate.out := by
  have hl := (isLocal_iff h).mp hlocal
  obtain ⟨g, hg, rfl⟩ := List.mem_map.mp hl
  exact List.mem_map_of_mem ((mem_neededGates h).mpr ⟨hg, .keep hid hl⟩)

end

/-! ### The inputs -/

section

variable {isLocal isMaterialized : ℕ → Bool}

/-- What the notes hold when the operands `ws` have been seen. -/
structure NotesOk (isLocal isMaterialized : ℕ → Bool) (ws : List ℕ) (st : InputNotes) : Prop where
  mem : ∀ v, v ∈ st.inputIds ↔ v ∈ ws ∧ isLocal v = false ∧ isMaterialized v = true
  nodup : st.inputIds.Nodup
  remap : ∀ v i, st.remap v = some i ↔ st.inputIds[i]? = some v
  ok : st.ok = true ↔ ∀ v ∈ ws, isLocal v = true ∨ isMaterialized v = true

namespace NotesOk

variable {ws : List ℕ} {v : ℕ} {st : InputNotes}

/-- What is noted is what has a number. -/
theorem isSome_iff (h : NotesOk isLocal isMaterialized ws st) {u : ℕ} :
    (st.remap u).isSome = true ↔ u ∈ st.inputIds := by
  rw [Option.isSome_iff_exists, List.mem_iff_getElem?]
  simp only [h.remap]

/-- An operand that is chunk-local or noted changes nothing. -/
theorem skip (h : NotesOk isLocal isMaterialized ws st) (hv : isLocal v = true ∨ v ∈ st.inputIds) :
    NotesOk isLocal isMaterialized (ws ++ [v]) st := by
  have hv' : isLocal v = true ∨ (v ∈ ws ∧ isMaterialized v = true) :=
    hv.imp_right fun hin => ⟨((h.mem v).mp hin).1, ((h.mem v).mp hin).2.2⟩
  refine ⟨fun u => ?_, h.nodup, h.remap, ?_⟩
  · rw [h.mem, List.mem_append, List.mem_singleton]
    constructor
    · rintro ⟨hu, hrest⟩
      exact ⟨.inl hu, hrest⟩
    · rintro ⟨hu | rfl, hl, hm⟩
      · exact ⟨hu, hl, hm⟩
      · rcases hv' with hloc | ⟨hin, -⟩
        · rw [hl] at hloc
          cases hloc
        · exact ⟨hin, hl, hm⟩
  · rw [h.ok, List.forall_mem_append, List.forall_mem_singleton]
    exact ⟨fun hall => ⟨hall, hv'.imp_right And.right⟩, And.left⟩

/-- A stale operand clears `ok`. -/
theorem stale (h : NotesOk isLocal isMaterialized ws st) (hl : isLocal v = false) (hm : isMaterialized v = false) :
    NotesOk isLocal isMaterialized (ws ++ [v]) { st with ok := false } := by
  refine ⟨fun u => ?_, h.nodup, h.remap, ?_⟩
  · rw [List.mem_append, List.mem_singleton]
    constructor
    · intro hu
      obtain ⟨hin, hrest⟩ := (h.mem u).mp hu
      exact ⟨.inl hin, hrest⟩
    · rintro ⟨hu | rfl, hrest⟩
      · exact (h.mem u).mpr ⟨hu, hrest⟩
      · rw [hm] at hrest
        cases hrest.2
  · rw [List.forall_mem_append, List.forall_mem_singleton, hl, hm]
    simp

/-- A new materialized operand is the next input. -/
theorem add (h : NotesOk isLocal isMaterialized ws st) (hl : isLocal v = false) (hm : isMaterialized v = true)
    (hnew : v ∉ st.inputIds) :
    NotesOk isLocal isMaterialized (ws ++ [v])
      { st with remap := Function.update st.remap v (some st.inputIds.length), inputIds := st.inputIds ++ [v] } := by
  refine ⟨fun u => ?_, ?_, fun u i => ?_, ?_⟩
  · rw [List.mem_append, List.mem_singleton, h.mem, List.mem_append, List.mem_singleton]
    constructor
    · rintro (⟨hu, hrest⟩ | rfl)
      · exact ⟨.inl hu, hrest⟩
      · exact ⟨.inr rfl, hl, hm⟩
    · rintro ⟨hu | rfl, hrest⟩
      · exact .inl ⟨hu, hrest⟩
      · exact .inr rfl
  · refine List.nodup_append.mpr ⟨h.nodup, by simp, fun a ha b hb hab => hnew ?_⟩
    rwa [← List.mem_singleton.mp hb, ← hab]
  · dsimp only
    rw [List.getElem?_append]
    by_cases huv : u = v
    · subst huv
      rw [Function.update_self, Option.some.injEq]
      split
      · next hlt =>
        constructor
        · intro heq
          omega
        · intro hin
          exact absurd (List.mem_of_getElem? hin) hnew
      · next hge =>
        rw [List.getElem?_singleton]
        split
        · next hz => exact ⟨fun _ => rfl, fun _ => by omega⟩
        · next hz => exact ⟨fun heq => absurd heq (by omega), fun hno => by cases hno⟩
    · rw [Function.update_of_ne huv, h.remap]
      split
      · exact Iff.rfl
      · next hge =>
        rw [List.getElem?_eq_none (Nat.le_of_not_lt hge)]
        constructor
        · intro hno
          cases hno
        · intro hin
          exact absurd (List.mem_singleton.mp (List.mem_of_getElem? hin)) huv
  · rw [List.forall_mem_append, List.forall_mem_singleton, h.ok]
    exact ⟨fun hall => ⟨hall, .inr hm⟩, And.left⟩

end NotesOk

/-- **Noting the operands.** -/
theorem noteInputs_ok (ws : List ℕ) :
    NotesOk isLocal isMaterialized ws (ws.foldl (noteInput isLocal isMaterialized) {}) := by
  induction ws using List.reverseRecOn with
  | nil => exact ⟨by simp, by simp, by simp, by simp⟩
  | append_singleton ws v ih =>
    rw [List.foldl_append, List.foldl_cons, List.foldl_nil]
    generalize ws.foldl (noteInput isLocal isMaterialized) {} = st at ih
    unfold noteInput
    cases hl : isLocal v with
    | true => exact ih.skip (.inl hl)
    | false =>
      rw [if_neg Bool.false_ne_true]
      by_cases hs : (st.remap v).isSome = true
      · rw [if_pos hs]
        exact ih.skip (.inr (ih.isSome_iff.mp hs))
      · rw [if_neg hs]
        cases hm : isMaterialized v with
        | false => exact ih.stale hl hm
        | true => exact ih.add hl hm fun hin => hs (ih.isSome_iff.mpr hin)

end

/-! ### The compacted gates -/

/-- A gate under other wire numbers, its unused operand fields cleared. -/
def Gate.rename (ρ : ℕ → ℕ) (g : Gate) : Gate where
  in0 := if g.isConst then 0 else ρ g.in0
  in1 := if g.isConst || g.isNot then 0 else ρ g.in1
  out := ρ g.out
  op := g.op

theorem Gate.rename_srcs (ρ : ℕ → ℕ) (g : Gate) : (g.rename ρ).srcs = g.srcs.map ρ := by
  cases hg : g.op <;> simp [Gate.srcs, Gate.rename, Gate.isConst, Gate.isNot, hg]

theorem Gate.rename_value (ρ : ℕ → ℕ) (g : Gate) (v : ℕ → Bool) : (g.rename ρ).value v = g.value (v ∘ ρ) := by
  cases hg : g.op <;> simp [Gate.value, Gate.rename, Gate.isConst, Gate.isNot, hg]

/-- Only the wires a gate mentions matter. -/
theorem Gate.rename_congr {ρ ρ' : ℕ → ℕ} {g : Gate} (hout : ρ g.out = ρ' g.out)
    (hsrcs : ∀ w ∈ g.srcs, ρ w = ρ' w) : g.rename ρ = g.rename ρ' := by
  cases hg : g.op <;> simp_all [Gate.srcs, Gate.rename, Gate.isConst, Gate.isNot]

/-- One turn of the loop writes the gate under the new numbers. -/
theorem compactGate_eq (st : Compaction) (g : Gate) :
    compactGate st g =
      { cid := st.cid + 1, remap := Function.update st.remap g.out (some st.cid)
        gates := st.gates ++ [g.rename fun w => (Function.update st.remap g.out (some st.cid) w).getD 0] } := by
  simp only [compactGate, Gate.rename, Compaction.at, Function.update_self, Option.getD_some]

/-- **The compaction loop** numbers the outputs one after another and leaves the other numbers alone; every
gate is written under the final numbers. -/
theorem compact_ok (gs : List Gate) : ∀ (st : Compaction), ChunkOrdered gs →
    let st' := gs.foldl compactGate st
    st'.cid = st.cid + gs.length ∧ (∀ w, w ∉ gs.map Gate.out → st'.remap w = st.remap w) ∧
      (∀ i < gs.length, st'.remap (gateAt gs i).out = some (st.cid + i)) ∧
      st'.gates = st.gates ++ gs.map (Gate.rename st'.at) := by
  induction gs with
  | nil =>
    intro st _
    exact ⟨rfl, fun _ _ => rfl, fun i hi => absurd hi (Nat.not_lt_zero i), by simp⟩
  | cons g gs ih =>
    intro st h
    obtain ⟨-, hsrcs, hrest⟩ := chunkOrdered_cons.mp h
    rw [List.foldl_cons]
    obtain ⟨hcid, hother, hout, hgates⟩ := ih (compactGate st g) hrest
    generalize gs.foldl compactGate (compactGate st g) = st' at *
    rw [compactGate_eq] at hcid hother hout hgates
    dsimp only at hcid hother hout hgates
    refine ⟨?_, fun w hw => ?_, fun i hi => ?_, ?_⟩
    · rw [hcid, List.length_cons]
      omega
    · rw [List.map_cons, List.mem_cons, not_or] at hw
      rw [hother w hw.2, Function.update_of_ne hw.1]
    · cases i with
      | zero =>
        have h0 := hother g.out (h.not_mem_tail (Nat.le_refl _))
        rw [Function.update_self] at h0
        exact h0
      | succ i =>
        have hi' := hout i (Nat.lt_of_succ_lt_succ hi)
        rw [Nat.add_assoc, Nat.add_comm 1 i] at hi'
        exact hi'
    · rw [hgates, List.map_cons, List.append_assoc, List.singleton_append]
      congr 2
      have hsame : ∀ w ≤ g.out, (Function.update st.remap g.out (some st.cid) w).getD 0 = st'.at w :=
        fun w hw => congrArg (Option.getD · 0) (hother w (h.not_mem_tail hw)).symm
      exact Gate.rename_congr (hsame _ (Nat.le_refl _)) fun w hw => hsame w (Nat.le_of_lt (hsrcs w hw))

/-! ### The outputs -/

theorem mem_emitOutputs {isLocal : ℕ → Bool} {keepIds : List ℕ} : ∀ {emitted : List ℕ} {id : ℕ},
    id ∈ emitOutputs isLocal emitted keepIds ↔ id ∈ keepIds ∧ isLocal id = true ∧ id ∉ emitted := by
  induction keepIds with
  | nil => simp [emitOutputs]
  | cons k keepIds ih =>
    intro emitted id
    rw [emitOutputs, List.mem_cons]
    cases hk : isLocal k with
    | false =>
      rw [Bool.not_false, if_pos rfl, ih]
      constructor
      · rintro ⟨hin, hrest⟩
        exact ⟨.inr hin, hrest⟩
      · rintro ⟨rfl | hin, hl, hrest⟩
        · rw [hk] at hl
          cases hl
        · exact ⟨hin, hl, hrest⟩
    | true =>
      rw [Bool.not_true, if_neg Bool.false_ne_true]
      by_cases hmem : k ∈ emitted
      · rw [if_pos hmem, ih]
        constructor
        · rintro ⟨hin, hrest⟩
          exact ⟨.inr hin, hrest⟩
        · rintro ⟨rfl | hin, hl, hrest⟩
          · exact absurd hmem hrest
          · exact ⟨hin, hl, hrest⟩
      · rw [if_neg hmem, List.mem_cons, ih, List.mem_cons, not_or]
        by_cases hid : id = k
        · subst hid
          simp [hk, hmem]
        · simp [hid]

/-- The outputs are the pending keep ids, each at its first place. -/
theorem emitOutputs_eq (isLocal : ℕ → Bool) (keepIds : List ℕ) : ∀ emitted : List ℕ,
    emitOutputs isLocal emitted keepIds =
      ((keepIds.filter isLocal).filter fun id => id ∉ emitted).eraseDups := by
  induction keepIds with
  | nil =>
    intro emitted
    simp [emitOutputs]
  | cons k keepIds ih =>
    intro emitted
    rw [emitOutputs]
    cases hk : isLocal k with
    | false => rw [Bool.not_false, if_pos rfl, ih, List.filter_cons_of_neg (by simp [hk])]
    | true =>
      rw [Bool.not_true, if_neg Bool.false_ne_true, List.filter_cons_of_pos hk]
      by_cases hmem : k ∈ emitted
      · rw [if_pos hmem, ih, List.filter_cons_of_neg (by simp [hmem])]
      · rw [if_neg hmem, ih, List.filter_cons_of_pos (by simp [hmem]), List.eraseDups_cons]
        simp only [List.filter_filter]
        congr 2
        refine List.filter_congr fun id _ => ?_
        by_cases hid : id = k <;> simp [hid, List.mem_cons]

/-! ### The plan -/

section

variable {gates : List Gate} {keepIds : List ℕ} {isMaterialized : ℕ → Bool}

/-- **What a plan is**, `ρ` being the final numbers of the ids. -/
structure PlanSpec (gates : List Gate) (keepIds : List ℕ) (isMaterialized : ℕ → Bool) (plan : FlushPlan)
    (ρ : ℕ → ℕ) : Prop where
  prog : plan.prog.gates = (neededGates gates keepIds).map (Gate.rename ρ)
  numInputs : plan.prog.numInputs = plan.inputIds.length
  numWires : plan.prog.numWires = plan.inputIds.length + (neededGates gates keepIds).length
  outputs : plan.prog.outputs = plan.outputIds.map ρ
  outputIds : plan.outputIds = (keepIds.filter (isLocal gates)).eraseDups
  mem_output : ∀ id, id ∈ plan.outputIds ↔ id ∈ keepIds ∧ isLocal gates id = true
  mem_input : ∀ v, v ∈ plan.inputIds ↔
    (∃ g ∈ neededGates gates keepIds, v ∈ g.srcs) ∧ isLocal gates v = false ∧ isMaterialized v = true
  nodup : plan.inputIds.Nodup
  input : ∀ v i, plan.inputIds[i]? = some v → ρ v = i
  out : ∀ i < (neededGates gates keepIds).length,
    ρ (gateAt (neededGates gates keepIds) i).out = plan.inputIds.length + i
  ok : plan.ok = true ↔ ∀ g ∈ neededGates gates keepIds, ∀ v ∈ g.srcs,
    isLocal gates v = true ∨ isMaterialized v = true

theorem planFlush_spec (h : ChunkOrdered gates) (keepIds : List ℕ) (isMaterialized : ℕ → Bool) :
    ∃ ρ, PlanSpec gates keepIds isMaterialized (planFlush gates keepIds isMaterialized) ρ := by
  have hnotes : NotesOk (isLocal gates) isMaterialized ((neededGates gates keepIds).flatMap Gate.srcs)
      (planInputs gates keepIds isMaterialized) := noteInputs_ok _
  obtain ⟨hcid, hother, hout, hgates⟩ := compact_ok (neededGates gates keepIds)
    { cid := (planInputs gates keepIds isMaterialized).inputIds.length
      remap := (planInputs gates keepIds isMaterialized).remap } (neededGates_ordered h)
  refine ⟨(planGates gates keepIds isMaterialized).at, hgates, rfl, hcid, rfl, ?_, fun id => ?_, fun v => ?_,
    hnotes.nodup, fun v i hv => ?_, fun i hi => congrArg (Option.getD · 0) (hout i hi), ?_⟩
  · rw [show (planFlush gates keepIds isMaterialized).outputIds = emitOutputs (isLocal gates) [] keepIds from rfl,
      emitOutputs_eq]
    simp
  · rw [show (planFlush gates keepIds isMaterialized).outputIds = emitOutputs (isLocal gates) [] keepIds from rfl,
      mem_emitOutputs]
    simp
  · rw [show (planFlush gates keepIds isMaterialized).inputIds =
      (planInputs gates keepIds isMaterialized).inputIds from rfl, hnotes.mem, List.mem_flatMap]
  · -- an input is not the output of a gate of the chunk
    have hin := ((hnotes.mem v).mp (List.mem_of_getElem? hv)).2.1
    have hnot : v ∉ (neededGates gates keepIds).map Gate.out := by
      intro hmem
      have hl := (isLocal_iff h).mpr ((neededGates_sublist.map Gate.out).subset hmem)
      rw [hin] at hl
      cases hl
    exact congrArg (Option.getD · 0) ((hother v hnot).trans ((hnotes.remap v i).mpr hv))
  · rw [show (planFlush gates keepIds isMaterialized).ok = (planInputs gates keepIds isMaterialized).ok from rfl,
      hnotes.ok]
    simp only [List.mem_flatMap]
    exact ⟨fun hall g hg v hv => hall v ⟨g, hg, hv⟩, fun hall v ⟨g, hg, hv⟩ => hall g hg v hv⟩

namespace PlanSpec

variable {plan : FlushPlan} {ρ : ℕ → ℕ}

/-- The outputs are emitted once each. -/
theorem outputs_nodup (H : PlanSpec gates keepIds isMaterialized plan ρ) : plan.outputIds.Nodup := by
  have hdup : ∀ (n : ℕ) (l : List ℕ), l.length ≤ n → l.eraseDups.Nodup := by
    intro n
    induction n with
    | zero =>
      intro l hl
      rw [List.eq_nil_of_length_eq_zero (Nat.le_zero.mp hl)]
      exact List.nodup_nil
    | succ n ih =>
      intro l hl
      cases l with
      | nil => exact List.nodup_nil
      | cons a l =>
        rw [List.eraseDups_cons]
        refine List.nodup_cons.mpr ⟨fun hmem => ?_, ih _ (Nat.le_trans (List.length_filter_le _ _) (Nat.le_of_succ_le_succ hl))⟩
        have hne := (List.mem_filter.mp (List.mem_eraseDups.mp hmem)).2
        simp at hne
  rw [H.outputIds]
  exact hdup _ _ (Nat.le_refl _)

/-- When the plan is `ok`, an operand of a retained gate is an input or the output of an earlier one. -/
theorem operand (H : PlanSpec gates keepIds isMaterialized plan ρ) (h : ChunkOrdered gates)
    (hok : plan.ok = true) {i : ℕ} (hi : i < (neededGates gates keepIds).length) {w : ℕ}
    (hw : w ∈ (gateAt (neededGates gates keepIds) i).srcs) :
    (∃ j, j < plan.inputIds.length ∧ plan.inputIds[j]? = some w) ∨
      ∃ j < i, w = (gateAt (neededGates gates keepIds) j).out := by
  have hg := gateAt_mem hi
  cases hl : isLocal gates w with
  | false =>
    have hm := ((H.ok.mp hok) _ hg w hw).resolve_left (by simp [hl])
    obtain ⟨j, hj, hjw⟩ := List.mem_iff_getElem.mp ((H.mem_input w).mpr ⟨⟨_, hg, hw⟩, hl, hm⟩)
    exact .inl ⟨j, hj, List.getElem?_eq_some_iff.mpr ⟨hj, hjw⟩⟩
  | true =>
    obtain ⟨g', hg', hw'⟩ := List.mem_map.mp (neededGates_operand h hg hw hl)
    obtain ⟨j, hj, rfl⟩ := exists_gateAt hg'
    refine .inr ⟨j, ?_, hw'.symm⟩
    -- outputs increase, and an operand is smaller than the output of its gate
    have hord : ChunkOrdered (neededGates gates keepIds) := neededGates_ordered h
    have hlt : w < (gateAt (neededGates gates keepIds) i).out := hord.srcs _ hg w hw
    by_contra hge
    rcases Nat.eq_or_lt_of_le (Nat.le_of_not_lt hge) with rfl | hij
    · omega
    · have := hord.out_lt hij hj (g := default)
      unfold gateAt at hw' hlt
      omega

theorem getD_gates (H : PlanSpec gates keepIds isMaterialized plan ρ) {i : ℕ}
    (hi : i < (neededGates gates keepIds).length) :
    plan.prog.gates.getD i default = (gateAt (neededGates gates keepIds) i).rename ρ := by
  rw [H.prog, getD_map_of_lt _ default _ hi]
  rfl

/-- **A plan is a canonical stream** over its inputs. -/
theorem canonical (H : PlanSpec gates keepIds isMaterialized plan ρ) (h : ChunkOrdered gates)
    (hok : plan.ok = true) : CanonicalStream plan.prog.numInputs plan.prog.gates := by
  refine canonicalStream_of_getD (d := default) fun i hi => ?_
  rw [H.prog, List.length_map] at hi
  rw [H.getD_gates hi, Gate.rename_srcs, H.numInputs]
  refine ⟨H.out i hi, fun w hw => ?_⟩
  obtain ⟨u, hu, rfl⟩ := List.mem_map.mp hw
  rcases H.operand h hok hi hu with ⟨j, hj, hju⟩ | ⟨j, hj, rfl⟩
  · rw [H.input u j hju]
    omega
  · rw [H.out j (Nat.lt_trans hj hi)]
    omega

/-- An output is the wire of a retained gate. -/
theorem output_wire (H : PlanSpec gates keepIds isMaterialized plan ρ) (h : ChunkOrdered gates) {id : ℕ}
    (hid : id ∈ plan.outputIds) :
    ∃ i < (neededGates gates keepIds).length, id = (gateAt (neededGates gates keepIds) i).out := by
  obtain ⟨hkeep, hlocal⟩ := (H.mem_output id).mp hid
  obtain ⟨g, hg, rfl⟩ := List.mem_map.mp (neededGates_keep h hkeep hlocal)
  obtain ⟨i, hi, rfl⟩ := exists_gateAt hg
  exact ⟨i, hi, rfl⟩

/-- The outputs are wires of the stream. -/
theorem outputs_lt (H : PlanSpec gates keepIds isMaterialized plan ρ) (h : ChunkOrdered gates) :
    ∀ w ∈ plan.prog.outputs, w < plan.prog.numInputs + plan.prog.gates.length := by
  intro w hw
  rw [H.outputs] at hw
  obtain ⟨id, hid, rfl⟩ := List.mem_map.mp hw
  obtain ⟨i, hi, rfl⟩ := H.output_wire h hid
  rw [H.out i hi, H.numInputs, H.prog, List.length_map]
  omega

/-- **A plan computes what the chunk computes**: when `env` solves the gates of the chunk, the program takes
the bits of the input ids to the bits of the output ids. -/
theorem eval (H : PlanSpec gates keepIds isMaterialized plan ρ) (h : ChunkOrdered gates)
    (hok : plan.ok = true) {env : ℕ → Bool} (henv : ∀ g ∈ gates, env g.out = g.value env) :
    plan.prog.eval (plan.inputIds.map env) = plan.outputIds.map env := by
  have hcan := H.canonical h hok
  have hsolves := (canonicalStream_ordered hcan).evalGates_solves (inputWires (plan.inputIds.map env))
  -- the inputs
  have hin : ∀ w (j : ℕ), plan.inputIds[j]? = some w →
      evalGates (inputWires (plan.inputIds.map env)) plan.prog.gates (ρ w) = env w := by
    intro w j hj
    obtain ⟨hlt, hget⟩ := List.getElem?_eq_some_iff.mp hj
    rw [H.input w j hj, evalGates_of_lt hcan _ (by rw [H.numInputs]; exact hlt), inputWires,
      List.getD_eq_getElem?_getD, List.getElem?_map, hj]
    rfl
  -- the retained gates, by their index
  have hout : ∀ i < (neededGates gates keepIds).length,
      evalGates (inputWires (plan.inputIds.map env)) plan.prog.gates
        (ρ (gateAt (neededGates gates keepIds) i).out) = env (gateAt (neededGates gates keepIds) i).out := by
    intro i
    induction i using Nat.strong_induction_on with
    | h i ih =>
      intro hi
      have hg := gateAt_mem hi
      have hmem : (gateAt (neededGates gates keepIds) i).rename ρ ∈ plan.prog.gates := by
        rw [H.prog]
        exact List.mem_map_of_mem hg
      have hval := hsolves _ hmem
      rw [Gate.rename_value] at hval
      rw [henv _ ((mem_neededGates h).mp hg).1]
      refine hval.trans (Gate.value_congr fun w hw => ?_)
      rcases H.operand h hok hi hw with ⟨j, -, hj⟩ | ⟨j, hj, rfl⟩
      · exact hin w j hj
      · exact ih j hj (Nat.lt_trans hj hi)
  unfold BooleanProgram.eval
  rw [H.outputs, List.map_map]
  refine List.map_congr_left fun id hid => ?_
  obtain ⟨i, hi, rfl⟩ := H.output_wire h hid
  exact hout i hi

end PlanSpec

end

end AG2PC
