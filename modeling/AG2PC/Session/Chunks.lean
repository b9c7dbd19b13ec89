import AG2PC.Backend.EngineCorrect
import AG2PC.Backend.FlushPlan
import AG2PC.Session.Ctx

/-!
# Flushing a recorded chunk

What `plan_flush` makes of a chunk the recorder can hold, after whatever calls.

* `planFlush_preserves` — the plan's program computes what the chunk computes, and retains the gates the keep
  ids need.
* `planFlush_accepted` — the engine rejects no plan that is `ok`.
-/

namespace AG2PC

open Library.Runs Library.ByIndex

section

variable {calls : List CtxCall} {c : AG2PCCtx} {keepIds : List ℕ} {isMaterialized : ℕ → Bool}

/-- **`plan_flush` preserves meaning**: on the bits of the input ids the program yields the bits the chunk
gives to the output ids, which are the keep ids of the chunk, each once, in keep order; the input ids are
distinct materialized operands of retained gates; and the retained gates are those the keep ids need, in
recording order, under new numbers. -/
theorem planFlush_preserves (hc : Reaches AG2PCCtx.call {} calls c)
    (hok : (planFlush c.chunkGates keepIds isMaterialized).ok = true) :
    let plan := planFlush c.chunkGates keepIds isMaterialized
    (∀ v : ℕ → Bool, plan.prog.eval (plan.inputIds.map v) = plan.outputIds.map (evalGates v c.chunkGates)) ∧
      plan.outputIds = (keepIds.filter fun id => id ∈ c.chunkGates.map Gate.out).eraseDups ∧
      ∃ retained : List Gate, ∃ ρ : ℕ → ℕ, retained.Sublist c.chunkGates ∧ (retained.map Gate.out).Nodup ∧
        (∀ g ∈ c.chunkGates, g ∈ retained ↔ NeededId c.chunkGates keepIds g.out) ∧
        plan.prog.gates = retained.map (Gate.rename ρ) ∧
        plan.inputIds.Nodup ∧
        ∀ v, v ∈ plan.inputIds ↔
          (∃ g ∈ retained, v ∈ g.srcs) ∧ v ∉ c.chunkGates.map Gate.out ∧ isMaterialized v = true := by
  have h := (ChunkOk.of_reaches hc).ordered
  obtain ⟨ρ, H⟩ := planFlush_spec h keepIds isMaterialized
  have hlocal : ∀ id, isLocal c.chunkGates id = decide (id ∈ c.chunkGates.map Gate.out) := by
    intro id
    rw [Bool.eq_iff_iff, isLocal_iff h, decide_eq_true_eq]
  refine ⟨fun v => ?_, ?_, neededGates c.chunkGates keepIds, ρ, neededGates_sublist, ?_, fun g hg => ?_, H.prog,
    H.nodup, fun v => ?_⟩
  · -- an input is not written by the chunk, so the final values are solutions over the same inputs
    have heval := H.eval h hok (h.evalGates_solves v)
    rw [← heval]
    refine congrArg _ (List.map_congr_left fun id hid => (evalGates_of_not_mem v ?_).symm)
    have hnot := ((H.mem_input id).mp hid).2.1
    rwa [hlocal, decide_eq_false_iff_not] at hnot
  · rw [H.outputIds]
    exact congrArg List.eraseDups (List.filter_congr fun id _ => hlocal id)
  · exact (neededGates_ordered h).outs.imp Nat.ne_of_lt
  · exact (mem_neededGates h).trans (and_iff_right hg)
  · rw [H.mem_input v, hlocal, decide_eq_false_iff_not]

/-- What is retained of the constants of a chunk. -/
theorem countP_const_le (hc : ChunkOk c) {ρ : ℕ → ℕ} (v : Bool) :
    ((neededGates c.chunkGates keepIds).map (Gate.rename ρ)).countP (fun g => g.op == constOp v) ≤ 1 := by
  rw [List.countP_map]
  refine Nat.le_trans (neededGates_sublist.countP_le) (Nat.le_trans (hc.once v) ?_)
  exact Bool.toNat_le _

/-- **The engine accepts every plan that is `ok`**: the program is record-canonical, its width is the number
of input ids, and on bundles of that width `run_program` goes on to the run. -/
theorem planFlush_accepted {D : Type} [DecidableEq D] (S : Setup D) (hc : Reaches AG2PCCtx.call {} calls c)
    (hok : (planFlush c.chunkGates keepIds isMaterialized).ok = true) :
    let plan := planFlush c.chunkGates keepIds isMaterialized
    (∀ i < plan.prog.gates.length, (gateAt plan.prog.gates i).out = plan.prog.numInputs + i ∧
        ∀ w ∈ (gateAt plan.prog.gates i).srcs, w < (gateAt plan.prog.gates i).out) ∧
      (∀ w ∈ plan.prog.outputs, w < plan.prog.numWires) ∧
      plan.prog.numWires = plan.prog.numInputs + plan.prog.gates.length ∧
      plan.prog.gates.countP (fun g => g.op == .Const0) ≤ 1 ∧
      plan.prog.gates.countP (fun g => g.op == .Const1) ≤ 1 ∧
      plan.prog.numInputs = plan.inputIds.length ∧
      ag2pcRequireRecordCanonical plan.prog = .ok () ∧
      ∀ w₁ w₂ st, w₁.WellFormed .alice plan.inputIds.length → w₂.WellFormed .bob plan.inputIds.length →
        runProgram S plan.prog w₁ w₂ st = runSource S (executeProgram plan.prog) w₁ w₂ st := by
  intro plan
  have hchunk := ChunkOk.of_reaches hc
  have h := hchunk.ordered
  obtain ⟨ρ, H⟩ := planFlush_spec h keepIds isMaterialized
  have hcan := H.canonical h hok
  have hwires : plan.prog.numWires = plan.prog.numInputs + plan.prog.gates.length := by
    rw [H.numWires, H.numInputs, H.prog, List.length_map]
  have hrec : RecordCanonical plan.prog :=
    ⟨hcan, H.outputs_lt h, hwires, H.prog ▸ countP_const_le hchunk false, H.prog ▸ countP_const_le hchunk true⟩
  have hcheck := check_of_recordCanonical hrec
  refine ⟨fun i hi => ?_, fun w hw => hwires ▸ H.outputs_lt h w hw, hwires, hrec.const0, hrec.const1, H.numInputs,
    hcheck, fun w₁ w₂ st hwf₁ hwf₂ => runProgram_of_check hcheck (H.numInputs ▸ hwf₁) (H.numInputs ▸ hwf₂) st⟩
  have hout := canonicalStream_out hcan i hi
  rw [getD_map_of_lt Gate.out default 0 hi] at hout
  exact ⟨hout, (canonicalStream_ordered hcan).srcs _ (gateAt_mem hi)⟩

end

/-! ### A chunk of one conjunction -/

/-- Two materialized wires and their conjunction, recorded twice. -/
def twoAnds : List CtxCall := [.reserveIds 2, .andGate 0 1, .andGate 0 1]

/-- The recorder after that. -/
def twoAndsCtx : AG2PCCtx where
  nextId := 4
  chunkGates := [⟨0, 1, 2, .And⟩, ⟨0, 1, 3, .And⟩]
  pending := [3, 2]

theorem reaches_twoAnds : Reaches AG2PCCtx.call {} twoAnds twoAndsCtx := ⟨[[0, 1], [2], [3]], rfl⟩

/-- Its plan when the first conjunction is kept twice and an input once. -/
def twoAndsPlan : FlushPlan := planFlush twoAndsCtx.chunkGates [2, 0, 2] fun id => id < 2

/-- Keeping the first conjunction drops the second. -/
theorem planFlush_preserves_twoAnds :
    twoAndsPlan.ok = true ∧
      (∀ v : ℕ → Bool, twoAndsPlan.prog.eval (twoAndsPlan.inputIds.map v) =
        twoAndsPlan.outputIds.map (evalGates v twoAndsCtx.chunkGates)) ∧
      twoAndsPlan.outputIds = ([2, 0, 2].filter fun id => id ∈ twoAndsCtx.chunkGates.map Gate.out).eraseDups :=
  have hok : twoAndsPlan.ok = true := by decide
  have h := planFlush_preserves reaches_twoAnds hok
  ⟨hok, h.1, h.2.1⟩

/-- The engine accepts that plan. -/
theorem planFlush_accepted_twoAnds :
    twoAndsPlan.prog.numInputs = twoAndsPlan.inputIds.length ∧
      ag2pcRequireRecordCanonical twoAndsPlan.prog = .ok () :=
  have hok : twoAndsPlan.ok = true := by decide
  have h := planFlush_accepted Setup.zeros reaches_twoAnds hok
  ⟨h.2.2.2.2.2.1, h.2.2.2.2.2.2.1⟩

end AG2PC
