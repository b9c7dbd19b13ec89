import AG2PC.Backend.EngineCorrect

/-!
# Replays

The five passes count wires, gates and ANDs each for itself, and each caches the constants; the source drives them all.
What a source makes a pass do is its trace: the id each call returns, whether the call emits a wire, and the pass's
counters at the call.

* `Pass.emitted_eq` — what is emitted depends on the recording of the source only.
* `runProgram_recorded` — a live body and the program recorded from it are run alike, pass by pass.
* `Pass.returnsOuts_iff` — the check and a pass: whether each call of a replay returns its gate's wire.
* `check_iff_passes` — the check and the five passes.
-/

namespace AG2PC

open Library.SlotReuse

/-! ### Traces -/

/-- A gate call of a source on a pass. -/
structure CallEvent (ι : Type) where
  /-- The wire id returned. -/
  id : ℕ
  /-- Whether the wire is new. -/
  emits : Bool
  /-- The counters of the pass when it is called. -/
  idx : ι
  deriving DecidableEq

namespace Pass

variable {σ α ι : Type} (P : Pass σ) (idx : σ → ι)

/-- A call that takes the pass from `t` to `r`. -/
def event (t : PassState σ) (r : ℕ × PassState σ) : CallEvent ι := ⟨r.1, decide (t.wid < r.2.wid), idx t.s⟩

/-- The calls of a source, in order. -/
def trace : Body α → PassState σ → List (CallEvent ι)
  | .done _, _ => []
  | .publicBit v k, t => let r := P.publicBit v t; event idx t r :: trace (k r.1) r.2
  | .andGate a b k, t => let r := P.andGate a b t; event idx t r :: trace (k r.1) r.2
  | .xorGate a b k, t => let r := P.xorGate a b t; event idx t r :: trace (k r.1) r.2
  | .notGate a k, t => let r := P.notGate a t; event idx t r :: trace (k r.1) r.2

/-- The wires a source makes the pass emit, with the counters at each. -/
def emitted (b : Body α) (t : PassState σ) : List (ℕ × ι) :=
  ((P.trace idx b t).filter CallEvent.emits).map fun e => (e.id, e.idx)

/-- The same for recorded gates. -/
def scan : σ → List Gate → List (ℕ × ι)
  | _, [] => []
  | s, g :: gs => (g.out, idx s) :: scan (P.step s g) gs

/-- **What a source makes a pass emit** is its recording. -/
theorem emitted_eq (b : Body α) : ∀ t : PassState σ,
    P.emitted idx b t = P.scan idx t.s (b.record t.wid t.c0 t.c1).1 := by
  have hnew : ∀ (t : PassState σ) (r : ℕ × PassState σ) (rest : List (CallEvent ι)), t.wid < r.2.wid →
      ((event idx t r :: rest).filter CallEvent.emits).map (fun e => (e.id, e.idx)) =
        (r.1, idx t.s) :: (rest.filter CallEvent.emits).map fun e => (e.id, e.idx) := by
    intro t r rest hlt
    have hemits : (event idx t r).emits = true := decide_eq_true hlt
    rw [List.filter_cons_of_pos hemits]
    rfl
  have hold : ∀ (t : PassState σ) (o : ℕ) (rest : List (CallEvent ι)),
      ((event idx t (o, t) :: rest).filter CallEvent.emits).map (fun e => (e.id, e.idx)) =
        (rest.filter CallEvent.emits).map fun e => (e.id, e.idx) := by
    intro t o rest
    rw [List.filter_cons_of_neg (by simp [event])]
  induction b with
  | done a =>
    intro t
    rfl
  | publicBit v k ih =>
    rintro ⟨wid, c0, c1, s⟩
    cases v with
    | false =>
      cases c0 with
      | some c => exact (hold _ c _).trans (ih c _)
      | none => exact (hnew _ _ _ (Nat.lt_succ_self wid)).trans (congrArg (List.cons _) (ih wid _))
    | true =>
      cases c1 with
      | some c => cases c0 <;> exact (hold _ c _).trans (ih c _)
      | none => cases c0 <;> exact (hnew _ _ _ (Nat.lt_succ_self wid)).trans (congrArg (List.cons _) (ih wid _))
  | andGate x y k ih =>
    rintro ⟨wid, c0, c1, s⟩
    exact (hnew _ _ _ (Nat.lt_succ_self wid)).trans (congrArg (List.cons _) (ih wid _))
  | xorGate x y k ih =>
    rintro ⟨wid, c0, c1, s⟩
    exact (hnew _ _ _ (Nat.lt_succ_self wid)).trans (congrArg (List.cons _) (ih wid _))
  | notGate x k ih =>
    rintro ⟨wid, c0, c1, s⟩
    exact (hnew _ _ _ (Nat.lt_succ_self wid)).trans (congrArg (List.cons _) (ih wid _))

end Pass

/-! ### Sources with one recording -/

section

variable {σ : Type} {n : ℕ} {source source' : Body (List ℕ)}

/-- A pass returns the same, and ends in the same data with the same counter. -/
theorem Pass.runSource_congr (P : Pass σ) (h : source.record n none none = source'.record n none none) (s : σ) :
    (P.runSource n source s).1 = (P.runSource n source' s).1 ∧
      (P.runSource n source s).2.s = (P.runSource n source' s).2.s ∧
      (P.runSource n source s).2.wid = (P.runSource n source' s).2.wid := by
  obtain ⟨h₁, h₂, h₃⟩ := P.run_eq source ⟨n, none, none, s⟩
  obtain ⟨h₁', h₂', h₃'⟩ := P.run_eq source' ⟨n, none, none, s⟩
  rw [h] at h₁ h₂ h₃
  exact ⟨h₁.trans h₁'.symm, h₂.trans h₂'.symm, h₃.trans h₃'.symm⟩

/-- What two sources have in common when no pass can tell them apart: in each pass the emitted wires with the gate
index and the AND index, where the pass has them, and what each part of the engine makes of them. -/
structure Indistinguishable {D : Type} (E : EmpTool D) (n : ℕ) (source source' : Body (List ℕ)) : Prop where
  liveness : ∀ s, livenessPass.emitted (fun s => (s.gi, s.ai)) source ⟨n, none, none, s⟩ =
    livenessPass.emitted (fun s => (s.gi, s.ai)) source' ⟨n, none, none, s⟩
  slotMask : ∀ cot lastUse persist s,
    (slotMaskPass cot lastUse persist).emitted (fun s => (s.alloc.gi, s.globals.ai)) source ⟨n, none, none, s⟩ =
      (slotMaskPass cot lastUse persist).emitted (fun s => (s.alloc.gi, s.globals.ai)) source' ⟨n, none, none, s⟩
  garble : ∀ Δ sigma phys s,
    (machinePass (garbleMachine E Δ sigma) phys).emitted (fun s => s.1.ai) source ⟨n, none, none, s⟩ =
      (machinePass (garbleMachine E Δ sigma) phys).emitted (fun s => s.1.ai) source' ⟨n, none, none, s⟩
  evaluate : ∀ Δ sigma phys s,
    (machinePass (evaluateMachine E Δ sigma) phys).emitted (fun s => s.1.ai) source ⟨n, none, none, s⟩ =
      (machinePass (evaluateMachine E Δ sigma) phys).emitted (fun s => s.1.ai) source' ⟨n, none, none, s⟩
  gamma : ∀ sigma LambdaAND phys s,
    (machinePass (gammaMachine sigma LambdaAND) phys).emitted (fun s => s.1.ai) source ⟨n, none, none, s⟩ =
      (machinePass (gammaMachine sigma LambdaAND) phys).emitted (fun s => s.1.ai) source' ⟨n, none, none, s⟩
  /-- The outputs, the slot map, `rep_a` and `rep_b`, which are what the triples are made of, and the pool. -/
  prepare : ∀ cot w pool, w.size = n → prepare cot w pool source = prepare cot w pool source'
  /-- The ciphertexts. -/
  garblerSend : ∀ Δ seed sigma P w, w.size = n →
    garblerSend E Δ seed sigma P w source = garblerSend E Δ seed sigma P w source'
  /-- `Λ_AND`, `M1_t` and the labels at the evaluator. -/
  evaluatorReceive : ∀ Δ seed sigma P w wire, w.size = n →
    evaluatorReceive E Δ seed sigma P w source wire = evaluatorReceive E Δ seed sigma P w source' wire
  /-- `M1_t` and the masks at the garbler. -/
  garblerCheck : ∀ sigma P w mem LambdaAND, w.size = n →
    garblerCheck sigma P w source mem LambdaAND = garblerCheck sigma P w source' mem LambdaAND

/-- **No pass tells apart two sources with one recording.** -/
theorem indistinguishable_of_record {D : Type} (E : EmpTool D)
    (h : source.record n none none = source'.record n none none) : Indistinguishable E n source source' where
  liveness s := by rw [Pass.emitted_eq, Pass.emitted_eq, h]
  slotMask cot lastUse persist s := by rw [Pass.emitted_eq, Pass.emitted_eq, h]
  garble Δ sigma phys s := by rw [Pass.emitted_eq, Pass.emitted_eq, h]
  evaluate Δ sigma phys s := by rw [Pass.emitted_eq, Pass.emitted_eq, h]
  gamma sigma LambdaAND phys s := by rw [Pass.emitted_eq, Pass.emitted_eq, h]
  prepare cot w pool hw := by
    subst hw
    obtain ⟨h₁, h₂, h₃⟩ := livenessPass.runSource_congr h (.start w.size)
    unfold prepare
    dsimp only
    rw [h₁, h₂, h₃, ((slotMaskPass cot _ _).runSource_congr h _).2.1]
  garblerSend Δ seed sigma P w hw := by
    subst hw
    exact ((machinePass (garbleMachine E Δ sigma) P.phys).runSource_congr h _).2.1
  evaluatorReceive Δ seed sigma P w wire hw := by
    subst hw
    exact ((machinePass (evaluateMachine E Δ sigma) P.phys).runSource_congr h _).2.1
  garblerCheck sigma P w mem LambdaAND hw := by
    subst hw
    exact ((machinePass (gammaMachine sigma _) P.phys).runSource_congr h _).2.1

end

/-! ### A body and the program recorded from it -/

/-- The program a recorder makes of a body over `n` inputs. -/
def Body.recorded (b : Body (List ℕ)) (n : ℕ) : BooleanProgram where
  numInputs := n
  numWires := n + (b.record n none none).1.length
  gates := (b.record n none none).1
  outputs := (b.record n none none).2

/-- A recording has each constant once, unless it was there before. -/
theorem Body.record_const {α : Type} (b : Body α) : ∀ (wid : ℕ) (c0 c1 : Option ℕ),
    (b.record wid c0 c1).1.countP (fun g => g.op == .Const0) ≤ (if c0 = none then 1 else 0) ∧
      (b.record wid c0 c1).1.countP (fun g => g.op == .Const1) ≤ if c1 = none then 1 else 0 := by
  have hother : ∀ {gs : List Gate} {g : Gate} {op : Op} {m : ℕ}, g.op ≠ op →
      gs.countP (fun g => g.op == op) ≤ m → (g :: gs).countP (fun g => g.op == op) ≤ m := by
    intro gs g op m hne h
    rwa [List.countP_cons_of_neg (by simpa using hne)]
  have hfirst : ∀ {gs : List Gate} {g : Gate} {op : Op}, g.op = op →
      gs.countP (fun g => g.op == op) ≤ 0 → (g :: gs).countP (fun g => g.op == op) ≤ 1 := by
    intro gs g op heq h
    rw [List.countP_cons_of_pos (by simpa using heq)]
    exact Nat.succ_le_succ h
  induction b with
  | done a =>
    intro wid c0 c1
    exact ⟨Nat.zero_le _, Nat.zero_le _⟩
  | publicBit v k ih =>
    intro wid c0 c1
    cases v with
    | false =>
      cases c0 with
      | some c => exact ih c wid _ _
      | none =>
        obtain ⟨h0, h1⟩ := ih wid (wid + 1) (some wid) c1
        exact ⟨hfirst rfl h0, hother nofun h1⟩
    | true =>
      cases c1 with
      | some c => exact ih c wid _ _
      | none =>
        obtain ⟨h0, h1⟩ := ih wid (wid + 1) c0 (some wid)
        exact ⟨hother nofun h0, hfirst rfl h1⟩
  | andGate x y k ih =>
    intro wid c0 c1
    obtain ⟨h0, h1⟩ := ih wid (wid + 1) c0 c1
    exact ⟨hother nofun h0, hother nofun h1⟩
  | xorGate x y k ih =>
    intro wid c0 c1
    obtain ⟨h0, h1⟩ := ih wid (wid + 1) c0 c1
    exact ⟨hother nofun h0, hother nofun h1⟩
  | notGate x k ih =>
    intro wid c0 c1
    obtain ⟨h0, h1⟩ := ih wid (wid + 1) c0 c1
    exact ⟨hother nofun h0, hother nofun h1⟩

section

variable {n : ℕ} {b : Body (List ℕ)}

/-- A recorded program is record-canonical. -/
theorem recordCanonical_recorded (hscope : b.WellScoped n none none)
    (houts : ∀ o ∈ (b.record n none none).2, o < n + (b.record n none none).1.length) :
    RecordCanonical (b.recorded n) where
  stream := b.record_canonical n none none hscope
  outputs := houts
  wires := rfl
  const0 := (b.record_const n none none).1
  const1 := (b.record_const n none none).2

/-- Replaying it records it again. -/
theorem record_recorded (hscope : b.WellScoped n none none)
    (houts : ∀ o ∈ (b.record n none none).2, o < n + (b.record n none none).1.length) :
    b.record n none none = (executeProgram (b.recorded n)).record n none none := by
  have h := record_executeProgram (recordCanonical_recorded hscope houts)
  refine Eq.trans ?_ h.symm
  rw [show (b.recorded n).gates = (b.record n none none).1 from rfl, b.record_normalize]
  rfl

variable {D : Type} [DecidableEq D] {S : Setup D} {w₁ w₂ : SecureWires} {st : ProtoState}

/-- Two sources that no pass tells apart are run alike. -/
theorem Indistinguishable.runSource_eq {source source' : Body (List ℕ)} (h : Indistinguishable S.tool n source source')
    (hw₁ : w₁.size = n) (hw₂ : w₂.size = n) : runSource S source w₁ w₂ st = runSource S source' w₁ w₂ st := by
  unfold runSource gammaExchange
  simp only [h.prepare _ _ _ hw₁, h.prepare _ _ _ hw₂, h.garblerSend _ _ _ _ _ hw₁, h.evaluatorReceive _ _ _ _ _ _ hw₂,
    h.garblerCheck _ _ _ _ _ hw₁]

/-- **Live replay and compiled replay.** A body whose operands and outputs are inputs or wires it was given, on
bundles of its width: no pass can tell it from the replay of the program recorded from it, and `run_program` on that
program does what `run_source` does on the body. -/
theorem runProgram_recorded (hscope : b.WellScoped n none none)
    (houts : ∀ o ∈ (b.record n none none).2, o < n + (b.record n none none).1.length)
    (hw₁ : w₁.WellFormed .alice n) (hw₂ : w₂.WellFormed .bob n) :
    Indistinguishable S.tool n b (executeProgram (b.recorded n)) ∧
      runProgram S (b.recorded n) w₁ w₂ st = runSource S b w₁ w₂ st := by
  have hind := indistinguishable_of_record S.tool (record_recorded hscope houts)
  refine ⟨hind, ?_⟩
  unfold runProgram
  rw [check_of_recordCanonical (recordCanonical_recorded hscope houts), SecureWires.check_eq_ok hw₁,
    SecureWires.check_eq_ok hw₂]
  simp only [bind, Except.bind, hw₁.size, hw₂.size]
  rw [if_neg (by simp [Body.recorded])]
  exact (hind.runSource_eq hw₁.size hw₂.size).symm

end

/-- A body that asks for the constant 0 before and after the conjunction of its two inputs. -/
def constantsBody : Body (List ℕ) :=
  .publicBit false fun c => .andGate 0 1 fun g => .publicBit false fun c' => .xorGate g c' fun o => .done [o, c]

/-- Its run and the run of its program. -/
theorem runProgram_recorded_constants :
    Indistinguishable Setup.zeros.tool 2 constantsBody (executeProgram (constantsBody.recorded 2)) ∧
      runProgram Setup.zeros (constantsBody.recorded 2) (publicWires .alice 0 [0, 1]) (publicWires .bob 0 [0, 1]) {} =
        runSource Setup.zeros constantsBody (publicWires .alice 0 [0, 1]) (publicWires .bob 0 [0, 1]) {} := by
  refine runProgram_recorded ⟨by decide, by decide, by decide, by decide, trivial⟩ (by decide) ⟨rfl, rfl, rfl⟩ ⟨rfl, rfl, rfl⟩

/-! ### The check -/

/-- A valid program writes each wire once. -/
theorem definesBeforeUse_nodup {lo hi : ℕ} {gs : List Gate} : ∀ {defined : List ℕ},
    definesBeforeUse lo hi defined gs = true →
      (gs.map Gate.out).Nodup ∧ ∀ w ∈ defined, w ∉ gs.map Gate.out := by
  induction gs with
  | nil => exact fun _ => ⟨.nil, by simp⟩
  | cons g gs ih =>
    intro defined h
    rw [definesBeforeUse, Bool.and_eq_true, Bool.and_eq_true] at h
    obtain ⟨⟨-, hnew⟩, hrest⟩ := h
    obtain ⟨hnodup, hnot⟩ := ih hrest
    rw [List.map_cons]
    refine ⟨List.nodup_cons.mpr ⟨hnot _ List.mem_cons_self, hnodup⟩, fun w hw hmem => ?_⟩
    rcases List.mem_cons.mp hmem with rfl | hmem
    · simp only [Bool.not_eq_true', decide_eq_false_iff_not] at hnew
      exact hnew hw
    · exact hnot w (List.mem_cons_of_mem _ hw) hmem

/-- The wires of the gates are those a recorder hands out from `n` on, and each constant occurs once, unless it was
there before. -/
structure RecorderWires (n : ℕ) (c0 c1 : Option ℕ) (gs : List Gate) : Prop where
  out : gs.map Gate.out = List.range' n gs.length
  const0 : gs.countP (fun g => g.op == .Const0) ≤ if c0 = none then 1 else 0
  const1 : gs.countP (fun g => g.op == .Const1) ≤ if c1 = none then 1 else 0

/-- **What the check adds** to the validity of a program. -/
theorem check_iff_recorderWires {p : BooleanProgram} (hvalid : validateProgram p = .ok ()) :
    ag2pcRequireRecordCanonical p = .ok () ↔ RecorderWires p.numInputs none none p.gates := by
  have hrange : p.gates.map Gate.out = List.range' p.numInputs p.gates.length ↔
      ¬ ((List.range p.gates.length).any fun i => (p.gates.map Gate.out).getD i 0 != p.numInputs + i) = true := by
    have hlen : (p.gates.map Gate.out).length = p.gates.length := List.length_map _
    have hlist := Library.ByIndex.map_eq_range id 0 hlen
    rw [List.map_id] at hlist
    rw [List.range'_eq_map_range, hlist, Library.ByIndex.map_range_inj, List.any_eq_true]
    simp only [List.mem_range, bne_iff_ne, not_exists, not_and, not_not, id]
    refine forall₂_congr fun i hi => ?_
    rw [Library.ByIndex.getD_map_range _ _ hi]
  unfold ag2pcRequireRecordCanonical
  rw [hvalid]
  change (if _ then _ else if _ then _ else _) = _ ↔ _
  constructor
  · intro h
    split at h
    · cases h
    next hout =>
      split at h
      · cases h
      next hdup => exact ⟨hrange.mpr hout, by rw [if_pos rfl]; omega, by rw [if_pos rfl]; omega⟩
  · rintro ⟨hout, h0, h1⟩
    rw [if_pos rfl] at h0 h1
    rw [if_neg (hrange.mp hout), if_neg (by omega)]

/-- What gate `g` on wire `n` does to the cache of the constant `op`. -/
def CachesConst (op : Op) (n : ℕ) (g : Gate) (c d : Option ℕ) : Prop :=
  (g.op = op ∧ c = none ∧ d = some n) ∨ (g.op ≠ op ∧ d = c)

/-- Gate by gate. -/
theorem recorderWires_cons {n : ℕ} {c0 c1 d0 d1 : Option ℕ} {g : Gate} {gs : List Gate}
    (h0 : CachesConst .Const0 n g c0 d0) (h1 : CachesConst .Const1 n g c1 d1) :
    RecorderWires n c0 c1 (g :: gs) ↔ g.out = n ∧ RecorderWires (n + 1) d0 d1 gs := by
  have hcount : ∀ {op : Op} {c d : Option ℕ}, CachesConst op n g c d →
      ((g :: gs).countP (fun g => g.op == op) ≤ (if c = none then 1 else 0) ↔
        gs.countP (fun g => g.op == op) ≤ if d = none then 1 else 0) := by
    rintro op c d (⟨hop, rfl, rfl⟩ | ⟨hop, rfl⟩)
    · rw [List.countP_cons_of_pos (by simpa using hop), if_pos rfl, if_neg nofun]
      exact Nat.succ_le_succ_iff
    · rw [List.countP_cons_of_neg (by simpa using hop)]
  have hout : (g :: gs).map Gate.out = List.range' n (g :: gs).length ↔
      g.out = n ∧ gs.map Gate.out = List.range' (n + 1) gs.length := by
    rw [List.map_cons, List.length_cons, List.range'_succ, List.cons.injEq]
  constructor
  · rintro ⟨ho, hc0, hc1⟩
    obtain ⟨hg, hgs⟩ := hout.mp ho
    exact ⟨hg, hgs, (hcount h0).mp hc0, (hcount h1).mp hc1⟩
  · rintro ⟨hg, hgs, hc0, hc1⟩
    exact ⟨hout.mpr ⟨hg, hgs⟩, (hcount h0).mpr hc0, (hcount h1).mpr hc1⟩

namespace Pass

variable {σ ι : Type} (P : Pass σ) (idx : σ → ι)

/-- **The calls of a replay return the gates' wires** exactly where these are the recorder's, provided that the
program writes no wire twice. -/
theorem replay_ids_iff {outs : List ℕ} (gs : List Gate) : ∀ (ws : ℕ → ℕ) (t : PassState σ),
    (gs.map Gate.out).Nodup → (∀ w ∈ gs.map Gate.out, t.c0 ≠ some w ∧ t.c1 ≠ some w) →
      ((P.trace idx (replayGates gs ws fun ws => Body.done (outs.map ws)) t).map CallEvent.id = gs.map Gate.out ↔
        RecorderWires t.wid t.c0 t.c1 gs) := by
  induction gs with
  | nil => exact fun ws t _ _ => iff_of_true rfl ⟨rfl, Nat.zero_le _, Nat.zero_le _⟩
  | cons g gs ih =>
    rintro ws ⟨wid, c0, c1, s⟩ hnodup hcache
    rw [List.map_cons] at hnodup hcache
    obtain ⟨hnew, hrest⟩ := List.nodup_cons.mp hnodup
    obtain ⟨⟨hg0, hg1⟩, hlater⟩ := List.forall_mem_cons.mp hcache
    dsimp only at hg0 hg1 hlater
    -- a call that returns the next wire, and leaves the caches `d0` and `d1`
    have hcall : ∀ (e : CallEvent ι) (rest : List (CallEvent ι)) (d0 d1 : Option ℕ), e.id = wid →
        CachesConst .Const0 wid g c0 d0 → CachesConst .Const1 wid g c1 d1 →
        (g.out = wid → (rest.map CallEvent.id = gs.map Gate.out ↔ RecorderWires (wid + 1) d0 d1 gs)) →
        ((e :: rest).map CallEvent.id = (g :: gs).map Gate.out ↔ RecorderWires wid c0 c1 (g :: gs)) := by
      intro e rest d0 d1 he h0 h1 hiff
      rw [recorderWires_cons h0 h1, List.map_cons, List.map_cons, List.cons.injEq, he, eq_comm]
      exact and_congr_right hiff
    -- a call that returns a constant again: the constant's wire is not this gate's
    have hagain : ∀ (e : CallEvent ι) (rest : List (CallEvent ι)), e.id ≠ g.out →
        ¬ RecorderWires wid c0 c1 (g :: gs) →
        ((e :: rest).map CallEvent.id = (g :: gs).map Gate.out ↔ RecorderWires wid c0 c1 (g :: gs)) := by
      intro e rest he hno
      refine iff_of_false (fun heq => he ?_) hno
      rw [List.map_cons, List.map_cons, List.cons.injEq] at heq
      exact heq.1
    have hfilled : g.out = wid → ∀ w ∈ gs.map Gate.out, some wid ≠ some w := by
      rintro rfl w hw heq
      cases heq
      exact hnew hw
    obtain ⟨i0, i1, o, op⟩ := g
    cases op with
    | And => exact hcall _ _ c0 c1 rfl (.inr ⟨nofun, rfl⟩) (.inr ⟨nofun, rfl⟩) fun _ => ih _ _ hrest hlater
    | Xor => exact hcall _ _ c0 c1 rfl (.inr ⟨nofun, rfl⟩) (.inr ⟨nofun, rfl⟩) fun _ => ih _ _ hrest hlater
    | Not => exact hcall _ _ c0 c1 rfl (.inr ⟨nofun, rfl⟩) (.inr ⟨nofun, rfl⟩) fun _ => ih _ _ hrest hlater
    | Const0 =>
      cases c0 with
      | some c =>
        refine hagain _ _ (fun heq => hg0 (congrArg some heq)) fun h => ?_
        have h0 := h.const0
        rw [List.countP_cons_of_pos rfl, if_neg nofun] at h0
        exact absurd h0 (Nat.not_succ_le_zero _)
      | none =>
        exact hcall _ _ (some wid) c1 rfl (.inl ⟨rfl, rfl, rfl⟩) (.inr ⟨nofun, rfl⟩) fun ho =>
          ih _ _ hrest fun w hw => ⟨hfilled ho w hw, (hlater w hw).2⟩
    | Const1 =>
      cases c1 with
      | some c =>
        refine hagain _ _ (fun heq => hg1 (congrArg some ?_)) fun h => ?_
        · cases c0 <;> exact heq
        · have h1 := h.const1
          rw [List.countP_cons_of_pos rfl, if_neg nofun] at h1
          exact absurd h1 (Nat.not_succ_le_zero _)
      | none =>
        cases c0 with
        | some c =>
          exact hcall _ _ (some c) (some wid) rfl (.inr ⟨nofun, rfl⟩) (.inl ⟨rfl, rfl, rfl⟩) fun ho =>
            ih _ _ hrest fun w hw => ⟨(hlater w hw).1, hfilled ho w hw⟩
        | none =>
          exact hcall _ _ none (some wid) rfl (.inr ⟨nofun, rfl⟩) (.inl ⟨rfl, rfl, rfl⟩) fun ho =>
            ih _ _ hrest fun w hw => ⟨(hlater w hw).1, hfilled ho w hw⟩

/-- A replay makes one call a gate. -/
theorem length_trace_replay {outs : List ℕ} (gs : List Gate) : ∀ (ws : ℕ → ℕ) (t : PassState σ),
    (P.trace idx (replayGates gs ws fun ws => Body.done (outs.map ws)) t).length = gs.length := by
  induction gs with
  | nil => exact fun _ _ => rfl
  | cons g gs ih =>
    intro ws t
    obtain ⟨i0, i1, o, op⟩ := g
    cases op <;> exact congrArg (· + 1) (ih _ _)

/-- **The calls of the replay of a record-canonical program** each emit their gate's wire. -/
theorem trace_executeProgram {p : BooleanProgram} (h : RecordCanonical p) (s : σ) :
    P.trace idx (executeProgram p) ⟨p.numInputs, none, none, s⟩ =
      (P.scan idx s (p.gates.map Gate.normalize)).map fun e => ⟨e.1, true, e.2⟩ := by
  have hemitted := P.emitted_eq idx (executeProgram p) ⟨p.numInputs, none, none, s⟩
  rw [record_executeProgram h] at hemitted
  have hscan : ∀ (gs : List Gate) (s : σ), (P.scan idx s gs).length = gs.length := by
    intro gs
    induction gs with
    | nil => exact fun _ => rfl
    | cons g gs ih => exact fun s => congrArg (· + 1) (ih _)
  -- as many calls emit as there are calls
  have hall : ((P.trace idx (executeProgram p) ⟨p.numInputs, none, none, s⟩).filter CallEvent.emits) =
      P.trace idx (executeProgram p) ⟨p.numInputs, none, none, s⟩ := by
    refine List.filter_sublist.eq_of_length ?_
    have hlen := congrArg List.length hemitted
    rw [emitted, List.length_map, hscan, List.length_map] at hlen
    rw [hlen]
    exact (P.length_trace_replay idx p.gates id _).symm
  rw [emitted, hall] at hemitted
  rw [← hemitted, List.map_map]
  refine (List.map_id _).symm.trans (List.map_congr_left fun e he => ?_)
  have hemits := List.filter_eq_self.mp hall e he
  obtain ⟨eid, emits, eidx⟩ := e
  cases hemits
  rfl

end Pass

/-! ### The counters -/

/-- The wires of gates, with counters that advance by `adv`. -/
def counters {ι : Type} (adv : ι → Gate → ι) : ι → List Gate → List (ℕ × ι)
  | _, [] => []
  | i, g :: gs => (g.out, i) :: counters adv (adv i g) gs

/-- The gate index and the AND index after a gate. -/
def nextIndices (i : ℕ × ℕ) (g : Gate) : ℕ × ℕ := (nextIndex i.1 g, nextAnd i.2 g)

theorem nextIndex_normalize (k : ℕ) (g : Gate) : nextIndex k g.normalize = nextIndex k g := by
  rw [nextIndex, Gate.normalize_isConst, nextIndex]

theorem map_fst_counters {ι : Type} (adv : ι → Gate → ι) (gs : List Gate) : ∀ i,
    (counters adv i gs).map Prod.fst = gs.map Gate.out := by
  induction gs with
  | nil => exact fun _ => rfl
  | cons g gs ih => exact fun i => congrArg (List.cons _) (ih _)

section

variable {σ ι : Type} {P : Pass σ} {idx : σ → ι} {adv : ι → Gate → ι}

/-- A pass whose counters advance gate by gate. -/
theorem Pass.scan_eq (hstep : ∀ s g, idx (P.step s g) = adv (idx s) g) (gs : List Gate) : ∀ s,
    P.scan idx s gs = counters adv (idx s) gs := by
  induction gs with
  | nil => exact fun _ => rfl
  | cons g gs ih =>
    intro s
    rw [Pass.scan, counters, ih, hstep]

/-- Clearing unused operand fields leaves the counters alone. -/
theorem counters_normalize (hadv : ∀ i g, adv i g.normalize = adv i g) (gs : List Gate) : ∀ i,
    counters adv i (gs.map Gate.normalize) = counters adv i gs := by
  induction gs with
  | nil => exact fun _ => rfl
  | cons g gs ih =>
    intro i
    rw [List.map_cons, counters, counters, ih, hadv, Gate.normalize_out]

/-- The pass follows the program: every call emits its gate's wire, under the program's own counters. -/
def Pass.Follows (P : Pass σ) (idx : σ → ι) (adv : ι → Gate → ι) (p : BooleanProgram) (s : σ) : Prop :=
  P.trace idx (executeProgram p) ⟨p.numInputs, none, none, s⟩ =
    (counters adv (idx s) p.gates).map fun e => ⟨e.1, true, e.2⟩

/-- Every call returns its gate's wire. -/
def Pass.ReturnsOuts (P : Pass σ) (idx : σ → ι) (p : BooleanProgram) (s : σ) : Prop :=
  (P.trace idx (executeProgram p) ⟨p.numInputs, none, none, s⟩).map CallEvent.id = p.gates.map Gate.out

theorem Pass.Follows.returnsOuts {p : BooleanProgram} {s : σ} (h : P.Follows idx adv p s) : P.ReturnsOuts idx p s := by
  unfold Pass.ReturnsOuts
  rw [h, List.map_map]
  exact map_fst_counters adv p.gates _

/-- **The check and a pass**: a valid program is accepted exactly when the calls of its replay return its wires. -/
theorem Pass.returnsOuts_iff (P : Pass σ) (idx : σ → ι) {p : BooleanProgram} (hvalid : validateProgram p = .ok ())
    (s : σ) : P.ReturnsOuts idx p s ↔ ag2pcRequireRecordCanonical p = .ok () := by
  have hdefines : definesBeforeUse p.numInputs p.numWires [] p.gates = true := by
    unfold validateProgram at hvalid
    by_contra hno
    rw [if_neg fun h => hno h.2.1] at hvalid
    cases hvalid
  rw [check_iff_recorderWires hvalid]
  exact P.replay_ids_iff idx p.gates id ⟨p.numInputs, none, none, s⟩ (definesBeforeUse_nodup hdefines).1
    fun w _ => ⟨nofun, nofun⟩

/-- An accepted program is followed by every pass whose counters advance gate by gate. -/
theorem Pass.follows_of_check {p : BooleanProgram} (h : ag2pcRequireRecordCanonical p = .ok ())
    (hstep : ∀ s g, idx (P.step s g) = adv (idx s) g) (hadv : ∀ i g, adv i g.normalize = adv i g) (s : σ) :
    P.Follows idx adv p s := by
  unfold Pass.Follows
  rw [P.trace_executeProgram idx (recordCanonical_of_check h), P.scan_eq hstep, counters_normalize hadv]

end

/-! ### The five passes -/

section

variable {D : Type} (E : EmpTool D)

theorem livenessPass_indices (s : Liveness) (g : Gate) :
    ((livenessPass.step s g).gi, (livenessPass.step s g).ai) = nextIndices (s.gi, s.ai) g := by
  obtain ⟨i0, i1, o, op⟩ := g
  cases op <;> rfl

theorem Alloc.gate_gi (lastUse : ℕ → Option ℕ) (persist : ℕ → Bool) (a : Alloc) (g : Gate) :
    (a.gate lastUse persist g).gi = nextIndex a.gi g := by
  have halloc : ∀ (a : Alloc) id, (a.allocSlot persist id).gi = a.gi := by
    intro a id
    rcases allocSlot_cases persist a id with ⟨-, slot, rest, -, heq⟩ | heq <;> rw [heq]
  have hfree : ∀ (a : Alloc) w, (a.freeIfDead lastUse persist w).gi = a.gi := by
    intro a w
    unfold Alloc.freeIfDead
    split <;> rfl
  obtain ⟨i0, i1, o, op⟩ := g
  cases op with
  | And | Xor =>
    by_cases hne : i1 ≠ i0
    · simp [Alloc.gate, nextIndex, Gate.isConst, hne, hfree, halloc]
    · simp [Alloc.gate, nextIndex, Gate.isConst, hne, hfree, halloc]
  | Not => simp [Alloc.gate, nextIndex, Gate.isConst, hfree, halloc]
  | Const0 | Const1 => simp [Alloc.gate, nextIndex, Gate.isConst, halloc]

theorem slotMaskGate_ai (cot : ℕ → AShareBundle) (g : Gate) (s : MaskGlobals) (r : ℕ → MaskSlot) :
    (slotMaskGate cot g s r).1.ai = nextAnd s.ai g := by
  obtain ⟨i0, i1, o, op⟩ := g
  cases op with
  | And =>
    simp only [slotMaskGate, MaskGlobals.nextLambdaGamma, nextAnd, Gate.isAnd, if_true]
    split <;> rfl
  | Xor | Not | Const0 | Const1 => rfl

theorem slotMaskPass_indices (cot : ℕ → AShareBundle) (lastUse : ℕ → Option ℕ) (persist : ℕ → Bool) (s : SlotMask)
    (g : Gate) :
    (((slotMaskPass cot lastUse persist).step s g).alloc.gi, ((slotMaskPass cot lastUse persist).step s g).globals.ai) =
      nextIndices (s.alloc.gi, s.globals.ai) g := by
  rw [slotMaskPass_step, nextIndices, ← nextIndex_normalize, ← nextAnd_normalize]
  exact Prod.ext (Alloc.gate_gi lastUse persist s.alloc g.normalize) (slotMaskGate_ai cot g.normalize _ _)

/-- A pass on slots whose machine counts the ANDs. -/
theorem machinePass_index {G V : Type} {M : Machine gateLayout G V} {ai : G → ℕ}
    (hM : ∀ g s r v, ai (M.step g s r v).1 = nextAnd (ai s) g) (phys : ℕ → ℕ) (s : G × (ℕ → V)) (g : Gate) :
    ai ((machinePass M phys).step s g).1 = nextAnd (ai s.1) g := by
  rw [machinePass_step, ← nextAnd_normalize]
  exact hM _ _ _ _

theorem garbleMachine_ai (Δ : Block) (sigma : ℕ → AShareBundle) (g : Gate) (s : GarbleGlobals) (r : ℕ → GarbleSlot)
    (v : GarbleSlot) : ((garbleMachine E Δ sigma).step g s r v).1.ai = nextAnd s.ai g := by
  obtain ⟨i0, i1, o, op⟩ := g
  cases op with
  | And =>
    simp only [garbleMachine, garbleGate, nextAnd, Gate.isAnd, if_true]
    split <;> rfl
  | Xor | Not | Const0 | Const1 => rfl

theorem evaluateMachine_ai (Δ : Block) (sigma : ℕ → AShareBundle) (g : Gate) (s : EvalGlobals) (r : ℕ → EvalSlot)
    (v : EvalSlot) : ((evaluateMachine E Δ sigma).step g s r v).1.ai = nextAnd s.ai g := by
  obtain ⟨i0, i1, o, op⟩ := g
  cases op <;> rfl

theorem gammaMachine_ai (sigma : ℕ → AShareBundle) (LambdaAND : ℕ → UInt8) (g : Gate) (s : GammaGlobals)
    (r : ℕ → MaskSlot) (v : MaskSlot) : ((gammaMachine sigma LambdaAND).step g s r v).1.ai = nextAnd s.ai g := by
  obtain ⟨i0, i1, o, op⟩ := g
  cases op <;> rfl

/-- In each of the five passes, every call of the replay returns its gate's wire. -/
structure PassesReturnOuts (p : BooleanProgram) : Prop where
  liveness : ∀ s, livenessPass.ReturnsOuts (fun s => (s.gi, s.ai)) p s
  slotMask : ∀ cot lastUse persist s,
    (slotMaskPass cot lastUse persist).ReturnsOuts (fun s => (s.alloc.gi, s.globals.ai)) p s
  garble : ∀ Δ sigma phys s, (machinePass (garbleMachine E Δ sigma) phys).ReturnsOuts (fun s => s.1.ai) p s
  evaluate : ∀ Δ sigma phys s, (machinePass (evaluateMachine E Δ sigma) phys).ReturnsOuts (fun s => s.1.ai) p s
  gamma : ∀ sigma LambdaAND phys s,
    (machinePass (gammaMachine sigma LambdaAND) phys).ReturnsOuts (fun s => s.1.ai) p s

/-- In each of the five passes, every call of the replay emits its gate's wire, under the gate index and the AND index
that the gate has in the program. -/
structure PassesFollow (p : BooleanProgram) : Prop where
  liveness : ∀ s, livenessPass.Follows (fun s => (s.gi, s.ai)) nextIndices p s
  slotMask : ∀ cot lastUse persist s,
    (slotMaskPass cot lastUse persist).Follows (fun s => (s.alloc.gi, s.globals.ai)) nextIndices p s
  garble : ∀ Δ sigma phys s, (machinePass (garbleMachine E Δ sigma) phys).Follows (fun s => s.1.ai) nextAnd p s
  evaluate : ∀ Δ sigma phys s, (machinePass (evaluateMachine E Δ sigma) phys).Follows (fun s => s.1.ai) nextAnd p s
  gamma : ∀ sigma LambdaAND phys s,
    (machinePass (gammaMachine sigma LambdaAND) phys).Follows (fun s => s.1.ai) nextAnd p s

/-- **The check is what the passes need.** A valid program is accepted exactly when every call of its replay through
the five passes returns its gate's wire; then the passes agree with the program, and with each other, on all wires and
indices. -/
theorem check_iff_passes {p : BooleanProgram} (hvalid : validateProgram p = .ok ()) :
    (ag2pcRequireRecordCanonical p = .ok () ↔ PassesReturnOuts E p) ∧
      (ag2pcRequireRecordCanonical p = .ok () ↔ PassesFollow E p) := by
  have hnext : ∀ (i : ℕ × ℕ) g, nextIndices i g.normalize = nextIndices i g := by
    intro i g
    rw [nextIndices, nextIndex_normalize, nextAnd_normalize, nextIndices]
  have hfollow : ag2pcRequireRecordCanonical p = .ok () → PassesFollow E p := by
    intro h
    refine ⟨fun s => Pass.follows_of_check h livenessPass_indices hnext s,
      fun cot lastUse persist s => Pass.follows_of_check h (slotMaskPass_indices cot lastUse persist) hnext s,
      fun Δ sigma phys s => Pass.follows_of_check h ?_ nextAnd_normalize s,
      fun Δ sigma phys s => Pass.follows_of_check h ?_ nextAnd_normalize s,
      fun sigma LambdaAND phys s => Pass.follows_of_check h ?_ nextAnd_normalize s⟩
    · exact machinePass_index (garbleMachine_ai E Δ sigma) phys
    · exact machinePass_index (evaluateMachine_ai E Δ sigma) phys
    · exact machinePass_index (gammaMachine_ai sigma LambdaAND) phys
  have hreturns : PassesFollow E p → PassesReturnOuts E p := fun h =>
    ⟨fun s => (h.liveness s).returnsOuts, fun cot lastUse persist s => (h.slotMask cot lastUse persist s).returnsOuts,
      fun Δ sigma phys s => (h.garble Δ sigma phys s).returnsOuts,
      fun Δ sigma phys s => (h.evaluate Δ sigma phys s).returnsOuts,
      fun sigma LambdaAND phys s => (h.gamma sigma LambdaAND phys s).returnsOuts⟩
  have hcheck : PassesReturnOuts E p → ag2pcRequireRecordCanonical p = .ok () := fun h =>
    (livenessPass.returnsOuts_iff _ hvalid (.start p.numInputs)).mp (h.liveness _)
  exact ⟨⟨fun h => hreturns (hfollow h), hcheck⟩, ⟨hfollow, fun h => hcheck (hreturns h)⟩⟩

end

/-- A program whose two gates come in the order of their wires. -/
def twoGates : BooleanProgram := ⟨2, 4, [⟨0, 1, 2, .And⟩, ⟨2, 0, 3, .Xor⟩], [3]⟩

/-- The check and the passes on it. -/
theorem check_iff_passes_twoGates :
    (ag2pcRequireRecordCanonical twoGates = .ok () ↔ PassesReturnOuts EmpTool.transparent twoGates) ∧
      (ag2pcRequireRecordCanonical twoGates = .ok () ↔ PassesFollow EmpTool.transparent twoGates) :=
  check_iff_passes EmpTool.transparent (by decide)

end AG2PC
