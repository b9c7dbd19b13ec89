import AG2PC.Session.Session
import Mathlib.Data.List.Nodup

/-!
# What session functions do

The carried map after a load, and, for each function of the session, what it has done when it returns.
Everything proved of sessions goes through these lemmas.

* `carryLoad_mem`, `carryLoad_of_not_mem` — loading a bundle into ids.
* `flush_ok` — a flush drops the chunk, after one run of the plan if a keep id was pending.
* `Session.batchFinish_ok`, `Session.checkpoint_ok`, `Session.revealFlush_ok` — what single functions have done.
* `Session.step_ok` — what every operation has done (`Session.StepOk`).
-/

namespace AG2PC

open Library.ByIndex

/-! ### The carried map -/

section

variable {ids : List ℕ} {w₁ w₂ : SecureWires} {carried : ℕ → Option Carried} {id : ℕ}

/-- Loading the first `n` ids. -/
theorem carryLoad_range (n : ℕ) : ∀ id,
    let m := (List.range n).foldl (fun m i =>
      Function.update m (ids.getD i 0) (some (((m (ids.getD i 0)).getD {}).load w₁ w₂ i))) carried
    ((∀ i < n, ids.getD i 0 ≠ id) → m id = carried id) ∧
      (∀ i < n, ids.getD i 0 = id → ∃ j < n, ids.getD j 0 = id ∧ ∃ c : Carried, m id = some (c.load w₁ w₂ j)) := by
  intro id
  induction n with
  | zero => exact ⟨fun _ => rfl, fun i hi => absurd hi (Nat.not_lt_zero i)⟩
  | succ n ih =>
    rw [List.range_succ, List.foldl_append, List.foldl_cons, List.foldl_nil]
    obtain ⟨hother, hmem⟩ := ih
    constructor
    · intro hne
      rw [Function.update_of_ne (hne n (Nat.lt_succ_self n)).symm]
      exact hother fun i hi => hne i (Nat.lt_succ_of_lt hi)
    · intro i hi heq
      by_cases hn : id = ids.getD n 0
      · rw [← hn, Function.update_self]
        exact ⟨n, Nat.lt_succ_self n, hn.symm, _, rfl⟩
      · rcases Nat.lt_succ_iff_lt_or_eq.mp hi with hlt | rfl
        · obtain ⟨j, hj, hjd, c, hc⟩ := hmem i hlt heq
          exact ⟨j, Nat.lt_succ_of_lt hj, hjd, c, by rw [Function.update_of_ne hn, hc]⟩
        · exact absurd heq.symm hn

/-- Other ids keep their state. -/
theorem carryLoad_of_not_mem (h : id ∉ ids) : carryLoad ids w₁ w₂ carried id = carried id := by
  refine (carryLoad_range ids.length id).1 fun i hi heq => h ?_
  rw [← heq]
  exact getD_mem 0 hi

variable (w₁ w₂ carried) in
/-- A loaded id carries the state of a wire of the bundle. -/
theorem carryLoad_mem (h : id ∈ ids) :
    ∃ i < ids.length, ids.getD i 0 = id ∧ ∃ c : Carried, carryLoad ids w₁ w₂ carried id = some (c.load w₁ w₂ i) := by
  obtain ⟨i, hi, heq⟩ := List.mem_iff_getElem.mp h
  refine (carryLoad_range ids.length id).2 i hi ?_
  rw [List.getD_eq_getElem?_getD, List.getElem?_eq_getElem hi, Option.getD_some, heq]

variable (w₁ w₂ carried) in
/-- Loading distinct ids: each carries the state of its own wire. -/
theorem carryLoad_getD (hnodup : ids.Nodup) {i : ℕ} (hi : i < ids.length) :
    ∃ c : Carried, carryLoad ids w₁ w₂ carried (ids.getD i 0) = some (c.load w₁ w₂ i) := by
  obtain ⟨j, hj, heq, c, hc⟩ := carryLoad_mem w₁ w₂ carried (getD_mem 0 hi)
  rw [List.getD_eq_getElem?_getD, List.getD_eq_getElem?_getD, List.getElem?_eq_getElem hj,
    List.getElem?_eq_getElem hi, Option.getD_some, Option.getD_some] at heq
  obtain rfl := (List.Nodup.getElem_inj_iff hnodup).mp heq
  exact ⟨c, hc⟩

/-- The keys after a load. -/
theorem carryLoad_isSome :
    (carryLoad ids w₁ w₂ carried id).isSome = true ↔ (carried id).isSome = true ∨ id ∈ ids := by
  by_cases h : id ∈ ids
  · obtain ⟨_, _, _, c, hc⟩ := carryLoad_mem w₁ w₂ carried h
    simp [hc, h]
  · simp [carryLoad_of_not_mem h, h]

end

/-! ### Reading the carried map -/

namespace Session

variable {D σ : Type} {s s' : Session σ} {B : Backend D σ}

/-- The bundles of carried ids. -/
def carriedBundle (s : Session σ) (ids : List ℕ) : SecureWires × SecureWires :=
  (carryStore .alice (ids.map fun id => ((s.carried id).getD {}).alice),
    carryStore .bob (ids.map fun id => ((s.carried id).getD {}).bob))

@[simp] theorem carriedBundle_size (s : Session σ) (ids : List ℕ) : (s.carriedBundle ids).1.size = ids.length := by
  simp only [carriedBundle, carryStore, SecureWires.size, List.length_map]

theorem gatherCarried_eq {ids : List ℕ} (h : ∀ id ∈ ids, s.isCarried id = true) :
    s.gatherCarried ids = .ok (s.carriedBundle ids) := by
  unfold gatherCarried
  rw [if_pos (List.all_eq_true.mpr h)]
  simp only [carriedBundle, List.map_map]
  rfl

theorem gatherCarried_ok {ids : List ℕ} {w : SecureWires × SecureWires} (h : s.gatherCarried ids = .ok w) :
    (∀ id ∈ ids, s.isCarried id = true) ∧ w = s.carriedBundle ids := by
  have hall : ∀ id ∈ ids, s.isCarried id = true := by
    unfold gatherCarried at h
    split at h
    · next hall => exact List.all_eq_true.mp hall
    · cases h
  rw [gatherCarried_eq hall] at h
  exact ⟨hall, (Except.ok.inj h).symm⟩

theorem carryStore_append (party : Party) (cs cs' : List CarriedState) :
    (carryStore party cs).append (carryStore party cs') = carryStore party (cs ++ cs') := by
  cases party <;> simp [carryStore, SecureWires.append]

/-- The bundle of one list of ids after the bundle of another. -/
theorem carriedBundle_append (s : Session σ) (ids ids' : List ℕ) :
    ((s.carriedBundle ids).1.append (s.carriedBundle ids').1,
      (s.carriedBundle ids).2.append (s.carriedBundle ids').2) = s.carriedBundle (ids ++ ids') := by
  simp only [carriedBundle, carryStore_append, List.map_append]

theorem appendArg_ok {ids ids' : List ℕ} {w : SecureWires × SecureWires}
    (h : s.appendArg (s.carriedBundle ids) ids' = .ok w) :
    (∀ id ∈ ids', s.isCarried id = true) ∧ w = s.carriedBundle (ids ++ ids') := by
  unfold appendArg at h
  split at h
  · cases h
  · obtain ⟨w', hw', hret⟩ := bind_eq_ok h
    obtain ⟨hall, rfl⟩ := gatherCarried_ok hw'
    cases hret
    exact ⟨hall, carriedBundle_append s ids ids'⟩

theorem appendArgs_ok_from {args : List (List ℕ)} {w : SecureWires × SecureWires} : ∀ {ids : List ℕ},
    s.appendArgs (s.carriedBundle ids) args = .ok w →
      (∀ id ∈ args.flatten, s.isCarried id = true) ∧ w = s.carriedBundle (ids ++ args.flatten) := by
  induction args with
  | nil =>
    intro ids h
    cases h
    simp
  | cons arg args ih =>
    intro ids h
    obtain ⟨w', harg, hrest⟩ := bind_eq_ok h
    obtain ⟨hall, rfl⟩ := appendArg_ok harg
    obtain ⟨hall', rfl⟩ := ih hrest
    rw [List.flatten_cons, List.append_assoc]
    refine ⟨fun id hid => ?_, rfl⟩
    rcases List.mem_append.mp hid with hid | hid
    · exact hall id hid
    · exact hall' id hid

/-- **The arguments of a run** are all materialized, and its bundle is theirs. -/
theorem appendArgs_ok {args : List (List ℕ)} {w : SecureWires × SecureWires}
    (h : s.appendArgs ({}, {}) args = .ok w) :
    (∀ id ∈ args.flatten, s.isCarried id = true) ∧ w = s.carriedBundle args.flatten :=
  @appendArgs_ok_from _ _ _ _ [] h

/-! ### Materializing -/

theorem materializeInto_ok {ids : List ℕ} {w : SecureWires × SecureWires} (h : s.materializeInto ids w = .ok s') :
    w.1.size = ids.length ∧ w.2.size = ids.length ∧
      s' = { s with carried := carryLoad ids w.1 w.2 s.carried } := by
  unfold materializeInto at h
  split at h
  · cases h
  · next hsize =>
    rw [not_or, not_not, not_not] at hsize
    cases h
    exact ⟨hsize.1, hsize.2, rfl⟩

/-- **Materializing a bundle** reserves the next ids for it. -/
theorem materialize_ok {ids : List ℕ} {w : SecureWires × SecureWires} (h : s.materialize w = .ok (ids, s')) :
    ids = List.range' s.ctx.nextId w.1.size ∧ w.2.size = w.1.size ∧
      s' = { s with
        ctx := { s.ctx with nextId := s.ctx.nextId + w.1.size }
        carried := carryLoad ids w.1 w.2 s.carried } := by
  obtain ⟨⟨ids', ctx⟩, hres, h⟩ := bind_eq_ok h
  obtain ⟨rfl, rfl⟩ := AG2PCCtx.reserveIds_ok hres
  obtain ⟨s₁, hmat, hret⟩ := bind_eq_ok h
  obtain ⟨-, hsize, rfl⟩ := materializeInto_ok hmat
  cases hret
  rw [List.length_range'] at hsize
  exact ⟨rfl, hsize, rfl⟩

/-! ### Flushing -/

/-- The checks of a flush succeed on live ids. -/
theorem flushCheck_ok {keepIds : List ℕ} {plan : Option FlushPlan} (h : s.flushCheck keepIds = .ok plan) :
    (∀ id ∈ keepIds, id ∈ s.ctx.pending ∨ s.isCarried id = true) ∧
      ((plan = none ∧ ∀ id ∈ keepIds, id ∉ s.ctx.pending) ∨
        ((∃ id ∈ keepIds, id ∈ s.ctx.pending) ∧
          plan = some (planFlush s.ctx.chunkGates keepIds s.isCarried) ∧
          (planFlush s.ctx.chunkGates keepIds s.isCarried).ok = true)) := by
  unfold flushCheck at h
  split at h
  · cases h
  next hlive =>
    have hlive' : ∀ id ∈ keepIds, id ∈ s.ctx.pending ∨ s.isCarried id = true := by
      intro id hid
      by_contra hno
      rw [not_or] at hno
      refine hlive (List.any_eq_true.mpr ⟨id, hid, ?_⟩)
      simp [AG2PCCtx.isPending, hno.1, hno.2]
    refine ⟨hlive', ?_⟩
    split at h
    · next hnone =>
      cases h
      refine .inl ⟨rfl, fun id hid hpend => ?_⟩
      have hany : keepIds.any s.ctx.isPending = true := List.any_eq_true.mpr ⟨id, hid, by simpa [AG2PCCtx.isPending]⟩
      rw [hany] at hnone
      cases hnone
    · next hsome =>
      have hany : keepIds.any s.ctx.isPending = true := by simpa using hsome
      obtain ⟨id, hid, hpend⟩ := List.any_eq_true.mp hany
      dsimp only at h
      split at h
      · cases h
      · next hok =>
        cases h
        exact .inr ⟨⟨id, hid, by simpa [AG2PCCtx.isPending] using hpend⟩, rfl, by simpa using hok⟩

/-- **A flush** drops the chunk; when a keep id is pending, the plan is run on the carried bundle of its
inputs, and its outputs are carried from then on. -/
theorem flush_ok {keepIds : List ℕ} (h : s.flush B keepIds = .ok s') :
    (∀ id ∈ keepIds, id ∈ s.ctx.pending ∨ s.isCarried id = true) ∧
      (((∀ id ∈ keepIds, id ∉ s.ctx.pending) ∧ s' = { s with ctx := s.ctx.dropChunk }) ∨
        ((∃ id ∈ keepIds, id ∈ s.ctx.pending) ∧
          ∃ plan out proto, plan = planFlush s.ctx.chunkGates keepIds s.isCarried ∧ plan.ok = true ∧
            (∀ id ∈ plan.inputIds, s.isCarried id = true) ∧
            B.runProgram plan.prog (s.carriedBundle plan.inputIds).1 (s.carriedBundle plan.inputIds).2 s.proto =
              .ok (out, proto) ∧
            s' = { s with ctx := s.ctx.dropChunk, carried := carryLoad plan.outputIds out.1 out.2 s.carried, proto := proto })) := by
  obtain ⟨plan, hcheck, h⟩ := bind_eq_ok h
  obtain ⟨hlive, ⟨rfl, hnone⟩ | ⟨hsome, rfl, hok⟩⟩ := flushCheck_ok hcheck
  · cases h
    exact ⟨hlive, .inl ⟨hnone, rfl⟩⟩
  · obtain ⟨w, hgather, h⟩ := bind_eq_ok h
    obtain ⟨⟨out, proto⟩, hrun, hret⟩ := bind_eq_ok h
    obtain ⟨hall, rfl⟩ := gatherCarried_ok hgather
    cases hret
    exact ⟨hlive, .inr ⟨hsome, _, out, proto, rfl, hok, hall, hrun, rfl⟩⟩

/-! ### The operations -/

/-- An input is authenticated and materialized. -/
theorem input_ok {x : ClearInput} {ids : List ℕ} (h : s.input B x = .ok (ids, s')) :
    ∃ w s₁, s.authenticate B x = .ok (w, s₁) ∧ s₁.materialize w = .ok (ids, s') := by
  obtain ⟨⟨w, s₁⟩, hauth, hmat⟩ := bind_eq_ok h
  exact ⟨w, s₁, hauth, hmat⟩

/-- Authentication of a public value, or of a party's. -/
theorem authenticate_ok {x : ClearInput} {w : SecureWires × SecureWires}
    (h : s.authenticate B x = .ok (w, s')) :
    (x.owner = .PUBLIC ∧ s' = s ∧
        w = (publicWires .alice B.Δ.d1 (encodeBits x.alice), publicWires .bob B.Δ.d2 (encodeBits x.bob))) ∨
      ((x.owner = .ALICE ∨ x.owner = .BOB) ∧
        ∃ subs proto, B.processInputs [x.owner] [encodeBits x.alice] [encodeBits x.bob] s.proto = .ok (subs, proto) ∧
          w = (subs.1.getD 0 {}, subs.2.getD 0 {}) ∧ s' = { s with proto := proto }) := by
  unfold authenticate at h
  split at h
  · next howner =>
    cases h
    exact .inl ⟨howner, rfl, rfl⟩
  · next howner =>
    obtain ⟨⟨subs, proto⟩, hrun, hret⟩ := bind_eq_ok h
    cases hret
    exact .inr ⟨.inl howner, subs, proto, hrun, rfl, rfl⟩
  · next howner =>
    obtain ⟨⟨subs, proto⟩, hrun, hret⟩ := bind_eq_ok h
    cases hret
    exact .inr ⟨.inr howner, subs, proto, hrun, rfl, rfl⟩
  · cases h

theorem batchAdd_ok {b : ℕ} {x : ClearInput} {ids : List ℕ} (h : s.batchAdd b x = .ok (ids, s')) :
    ∃ batch, s.batches[b]? = some batch ∧ batch.finished = false ∧ ids = List.range' s.ctx.nextId x.width ∧
      s' = { s with
        ctx := { s.ctx with nextId := s.ctx.nextId + x.width }
        batches := s.batches.set b { batch with adds := batch.adds ++ [⟨x, ids⟩] } } := by
  unfold batchAdd at h
  split at h
  · cases h
  next batch hb =>
    split at h
    · cases h
    next hfin =>
      obtain ⟨⟨ids', ctx⟩, hres, hret⟩ := bind_eq_ok h
      obtain ⟨rfl, rfl⟩ := AG2PCCtx.reserveIds_ok hres
      cases hret
      exact ⟨batch, hb, by simpa using hfin, rfl, rfl⟩

theorem batchFinish_ok {b : ℕ} (h : s.batchFinish B b = .ok s') :
    ∃ batch, s.batches[b]? = some batch ∧ batch.finished = false ∧
      { s with batches := s.batches.set b { batch with finished := true } }.batchFinish_ B batch.adds = .ok s' := by
  unfold batchFinish at h
  split at h
  · cases h
  next batch hb =>
    split at h
    · cases h
    next hfin => exact ⟨batch, hb, by simpa using hfin, h⟩

/-- A run of any kind: the arguments are materialized, the engine runs on their bundle, the outputs are
materialized. -/
structure RunOk (s s' : Session σ) (args : List (List ℕ)) (ids : List ℕ)
    (engine : SecureWires → SecureWires → σ → Except String ((SecureWires × SecureWires) × σ)) : Prop where
  carried : ∀ id ∈ args.flatten, s.isCarried id = true
  ran : ∃ out proto, engine (s.carriedBundle args.flatten).1 (s.carriedBundle args.flatten).2 s.proto =
      .ok (out, proto) ∧ { s with proto := proto }.materialize out = .ok (ids, s')

theorem runCircuit_ok {prog : BooleanProgram} {args : List (List ℕ)} {ids : List ℕ}
    (h : s.runCircuit B prog args = .ok (ids, s')) :
    args.flatten.length = prog.numInputs ∧ RunOk s s' args ids (B.runProgram prog) := by
  obtain ⟨w, hargs, h⟩ := bind_eq_ok h
  obtain ⟨hall, rfl⟩ := appendArgs_ok hargs
  split at h
  · cases h
  next hsize =>
    obtain ⟨⟨out, proto⟩, hrun, hmat⟩ := bind_eq_ok h
    rw [carriedBundle_size, not_not] at hsize
    exact ⟨hsize, hall, out, proto, hrun, hmat⟩

theorem runBody_ok {body : Body (List ℕ)} {args : List (List ℕ)} {ids : List ℕ}
    (h : s.runBody B args body = .ok (ids, s')) : RunOk s s' args ids (B.runSource body) := by
  obtain ⟨w, hargs, h⟩ := bind_eq_ok h
  obtain ⟨hall, rfl⟩ := appendArgs_ok hargs
  obtain ⟨⟨out, proto⟩, hrun, hmat⟩ := bind_eq_ok h
  exact ⟨hall, out, proto, hrun, hmat⟩

theorem runArtifact_ok {retWidth : ℕ} {prog : BooleanProgram} {args : List (List ℕ)} {ids : List ℕ}
    (h : s.runArtifact B retWidth prog args = .ok (ids, s')) :
    args.flatten.length = prog.numInputs ∧ RunOk s s' args ids (B.runProgram prog) := by
  obtain ⟨w, hargs, h⟩ := bind_eq_ok h
  obtain ⟨hall, rfl⟩ := appendArgs_ok hargs
  split at h
  · cases h
  next hsize =>
    split at h
    · cases h
    · obtain ⟨⟨out, proto⟩, hrun, hmat⟩ := bind_eq_ok h
      rw [carriedBundle_size, not_not] at hsize
      exact ⟨hsize, hall, out, proto, hrun, hmat⟩

theorem checkpoint_ok {keep : List (List ℕ)} (h : s.checkpoint B keep = .ok s') :
    ∃ s₁, s.flush B keep.flatten = .ok s₁ ∧
      s' = { s₁ with carried := fun id => if id ∈ keep.flatten then s₁.carried id else none } := by
  obtain ⟨s₁, hflush, hret⟩ := bind_eq_ok h
  cases hret
  exact ⟨s₁, hflush, rfl⟩

/-- `decode` is called after a flush that keeps the value, on the value's carried bundle. -/
theorem revealFlush_ok {v : List ℕ} {recipient : Owner} {keep : List (List ℕ)} {w : SecureWires × SecureWires}
    (h : s.revealFlush B v recipient keep = .ok (w, s')) :
    (∀ n, recipient ≠ .other n) ∧ s.flush B (v ++ keep.flatten) = .ok s' ∧
      (∀ id ∈ v, s'.isCarried id = true) ∧ w = s'.carriedBundle v := by
  have hrec : (∀ n, recipient ≠ .other n) ∧
      (do
        let s ← s.flush B (v ++ keep.flatten)
        let bundle ← s.gatherCarried v
        return (bundle, s)) = Except.ok (w, s') := by
    cases recipient with
    | other n => cases h
    | PUBLIC => exact ⟨nofun, h⟩
    | ALICE => exact ⟨nofun, h⟩
    | BOB => exact ⟨nofun, h⟩
  obtain ⟨hne, h⟩ := hrec
  obtain ⟨s₁, hflush, h⟩ := bind_eq_ok h
  obtain ⟨w', hgather, hret⟩ := bind_eq_ok h
  obtain ⟨hall, rfl⟩ := gatherCarried_ok hgather
  cases hret
  exact ⟨hne, hflush, hall, rfl⟩

theorem reveal_ok [DecidableEq D] {v : List ℕ} {recipient : Owner} {keep : List (List ℕ)}
    {r : Option (List Bool) × Option (List Bool)} (h : s.reveal B v recipient keep = .ok (r, s')) :
    ∃ w bits, s.revealFlush B v recipient keep = .ok (w, s') ∧
      decode B.tool B.Δ w.1 w.2 recipient = .ok bits ∧
      r = (revealResult v.length bits.1, revealResult v.length bits.2) := by
  obtain ⟨⟨w, s₁⟩, hflush, h⟩ := bind_eq_ok h
  obtain ⟨bits, hdecode, hret⟩ := bind_eq_ok h
  cases hret
  exact ⟨w, bits, hflush, hdecode, rfl⟩

/-- What an operation that returns has done. -/
inductive StepOk [DecidableEq D] (B : Backend D σ) (s : Session σ) : SessionOp → Output → Session σ → Prop where
  | input {x : ClearInput} {w : SecureWires × SecureWires} {s₁ s' : Session σ} {ids : List ℕ}
      (hauth : s.authenticate B x = .ok (w, s₁)) (hmat : s₁.materialize w = .ok (ids, s')) :
      StepOk B s (.input x) (.value ids) s'
  | inputBatch : StepOk B s .inputBatch .none { s with batches := s.batches ++ [{}] }
  | batchAdd {b : ℕ} {x : ClearInput} {ids : List ℕ} {s' : Session σ} (hadd : s.batchAdd b x = .ok (ids, s')) :
      StepOk B s (.batchAdd b x) (.value ids) s'
  | batchFinish {b : ℕ} {s' : Session σ} (hfin : s.batchFinish B b = .ok s') : StepOk B s (.batchFinish b) .none s'
  | publicBit {v : Bool} {o : ℕ} {c' : AG2PCCtx} (hbit : s.ctx.publicBit v = .ok (o, c')) :
      StepOk B s (.publicBit v) (.value [o]) { s with ctx := c' }
  | andGate {a b o : ℕ} {c' : AG2PCCtx} (hgate : s.ctx.andGate a b = .ok (o, c')) :
      StepOk B s (.andGate a b) (.value [o]) { s with ctx := c' }
  | xorGate {a b o : ℕ} {c' : AG2PCCtx} (hgate : s.ctx.xorGate a b = .ok (o, c')) :
      StepOk B s (.xorGate a b) (.value [o]) { s with ctx := c' }
  | notGate {a o : ℕ} {c' : AG2PCCtx} (hgate : s.ctx.notGate a = .ok (o, c')) :
      StepOk B s (.notGate a) (.value [o]) { s with ctx := c' }
  | runCircuit {prog : BooleanProgram} {args : List (List ℕ)} {ids : List ℕ} {s' : Session σ}
      (hwidth : args.flatten.length = prog.numInputs) (hran : RunOk s s' args ids (B.runProgram prog)) :
      StepOk B s (.runCircuit prog args) (.value ids) s'
  | runBody {args : List (List ℕ)} {body : PureBody args.flatten.length} {ids : List ℕ} {s' : Session σ}
      (hran : RunOk s s' args ids (B.runSource body.body)) : StepOk B s (.runBody args body) (.value ids) s'
  | runArtifact {retWidth : ℕ} {prog : BooleanProgram} {args : List (List ℕ)} {ids : List ℕ} {s' : Session σ}
      (hwidth : args.flatten.length = prog.numInputs) (hran : RunOk s s' args ids (B.runProgram prog)) :
      StepOk B s (.runArtifact retWidth prog args) (.value ids) s'
  | checkpoint {keep : List (List ℕ)} {s₁ : Session σ} (hflush : s.flush B keep.flatten = .ok s₁) :
      StepOk B s (.checkpoint keep) .none
        { s₁ with carried := fun id => if id ∈ keep.flatten then s₁.carried id else none }
  | reveal {v : List ℕ} {recipient : Owner} {keep : List (List ℕ)} {bits : List UInt8 × List UInt8} {s' : Session σ}
      (hrec : ∀ n, recipient ≠ .other n) (hflush : s.flush B (v ++ keep.flatten) = .ok s')
      (hall : ∀ id ∈ v, s'.isCarried id = true)
      (hdecode : decode B.tool B.Δ (s'.carriedBundle v).1 (s'.carriedBundle v).2 recipient = .ok bits) :
      StepOk B s (.reveal v recipient keep)
        (.revealed (revealResult v.length bits.1) (revealResult v.length bits.2)) s'

/-- **Every operation**: what is proved of sessions is proved by cases on it. -/
theorem step_ok [DecidableEq D] {op : SessionOp} {out : Output} (h : step B s op = .ok (out, s')) :
    StepOk B s op out s' := by
  cases op with
  | input x =>
    obtain ⟨⟨ids, s₁⟩, hin, heq⟩ := map_eq_ok h
    cases heq
    obtain ⟨w, s₂, hauth, hmat⟩ := input_ok hin
    exact .input hauth hmat
  | inputBatch =>
    cases h
    exact .inputBatch
  | batchAdd b x =>
    obtain ⟨⟨ids, s₁⟩, hadd, heq⟩ := map_eq_ok h
    cases heq
    exact .batchAdd hadd
  | batchFinish b =>
    obtain ⟨s₁, hfin, heq⟩ := map_eq_ok h
    cases heq
    exact .batchFinish hfin
  | publicBit v =>
    obtain ⟨⟨o, c'⟩, hbit, heq⟩ := map_eq_ok h
    cases heq
    exact .publicBit hbit
  | andGate a b =>
    obtain ⟨⟨o, c'⟩, hgate, heq⟩ := map_eq_ok h
    cases heq
    exact .andGate hgate
  | xorGate a b =>
    obtain ⟨⟨o, c'⟩, hgate, heq⟩ := map_eq_ok h
    cases heq
    exact .xorGate hgate
  | notGate a =>
    obtain ⟨⟨o, c'⟩, hgate, heq⟩ := map_eq_ok h
    cases heq
    exact .notGate hgate
  | runCircuit prog args =>
    obtain ⟨⟨ids, s₁⟩, hrun, heq⟩ := map_eq_ok h
    cases heq
    obtain ⟨hwidth, hran⟩ := runCircuit_ok hrun
    exact .runCircuit hwidth hran
  | runBody args body =>
    obtain ⟨⟨ids, s₁⟩, hrun, heq⟩ := map_eq_ok h
    cases heq
    exact .runBody (runBody_ok hrun)
  | runArtifact retWidth prog args =>
    obtain ⟨⟨ids, s₁⟩, hrun, heq⟩ := map_eq_ok h
    cases heq
    obtain ⟨hwidth, hran⟩ := runArtifact_ok hrun
    exact .runArtifact hwidth hran
  | checkpoint keep =>
    obtain ⟨s₁, hcheck, heq⟩ := map_eq_ok h
    cases heq
    obtain ⟨s₂, hflush, rfl⟩ := checkpoint_ok hcheck
    exact .checkpoint hflush
  | reveal v recipient keep =>
    obtain ⟨⟨r, s₁⟩, hreveal, heq⟩ := map_eq_ok h
    cases heq
    obtain ⟨w, bits, hcall, hdecode, rfl⟩ := reveal_ok hreveal
    obtain ⟨hrec, hflush, hall, rfl⟩ := revealFlush_ok hcall
    exact .reveal hrec hflush hall hdecode

end Session

end AG2PC
