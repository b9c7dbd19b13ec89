import AG2PC.Session.Refinement

/-!
# Agreement of the opened masks over a session

The carried masks of the two parties agree after every operation exactly as long as every engine run keeps them:
a flush or a run whose program has no AND, and gives an XOR or NOT among its outputs the mask one, leaves the garbler
with the mask zero there.

* `Session.KeepsMasks` — the condition on an operation, read off the state before it.
* `masksAgree_step` — one operation.
* `masksAgree_iff` — whole sessions.
-/

namespace AG2PC

open Library.XorAlgebra Library.ByIndex Library.Runs

/-- The gates, the outputs and the input ids of an engine run. -/
structure EngineCall where
  /-- The gates. -/
  gates : List Gate
  /-- The output wires. -/
  outs : List ℕ
  /-- The carried ids of the inputs. -/
  inputs : List ℕ

namespace Session

variable {D σ : Type} (s : Session σ)

/-- The engine run of a flush: none when no keep id is pending. -/
def flushCall (keepIds : List ℕ) : Option EngineCall :=
  if keepIds.any s.ctx.isPending then
    let plan := planFlush s.ctx.chunkGates keepIds s.isCarried
    some ⟨plan.prog.gates, plan.prog.outputs, plan.inputIds⟩
  else none

/-- The engine run of an operation. -/
def engineCall : SessionOp → Option EngineCall
  | .runCircuit prog args => some ⟨prog.gates, prog.outputs, args.flatten⟩
  | .runBody args body =>
    some ⟨body.body.stream args.flatten.length, body.body.outs args.flatten.length, args.flatten⟩
  | .runArtifact _ prog args => some ⟨prog.gates, prog.outputs, args.flatten⟩
  | .checkpoint keep => s.flushCall keep.flatten
  | .reveal v _ keep => s.flushCall (v ++ keep.flatten)
  | .input _ | .inputBatch | .batchAdd _ _ | .batchFinish _ | .publicBit _ | .andGate _ _ | .xorGate _ _
  | .notGate _ => none

/-- **An engine run keeps the masks**, on the masks the evaluator carries for its inputs. -/
def CallKeepsMasks (call : EngineCall) : Prop :=
  MasksKept call.gates call.outs (maskBits (s.carriedBundle call.inputs).2)

/-- An operation keeps the masks when its engine run does, if it makes one. -/
def KeepsMasks (op : SessionOp) : Prop := ∀ call, s.engineCall op = some call → s.CallKeepsMasks call

instance (call : EngineCall) : Decidable (s.CallKeepsMasks call) := inferInstanceAs (Decidable (MasksKept _ _ _))

/-- Every materialized id carries the same opened mask at both parties. -/
def MasksAgree : Prop := ∀ id c, s.carried id = some c → c.alice.Lambda = c.bob.Lambda

end Session

/-! ### Under the condition -/

section

variable {D σ : Type} {B : Backend D σ} {s s' : Session σ}

theorem flushCall_pending {keepIds : List ℕ} (h : ∃ id ∈ keepIds, id ∈ s.ctx.pending) :
    s.flushCall keepIds = some ⟨(planFlush s.ctx.chunkGates keepIds s.isCarried).prog.gates,
      (planFlush s.ctx.chunkGates keepIds s.isCarried).prog.outputs,
      (planFlush s.ctx.chunkGates keepIds s.isCarried).inputIds⟩ := by
  obtain ⟨id, hid, hpend⟩ := h
  have hany : keepIds.any s.ctx.isPending = true :=
    List.any_eq_true.mpr ⟨id, hid, by simpa [AG2PCCtx.isPending] using hpend⟩
  unfold Session.flushCall
  rw [if_pos hany]

theorem guarded_runProgram (B : Backend D σ) {p : BooleanProgram} (w : SecureWires × SecureWires) (st : σ)
    (h : MasksKept p.gates p.outputs (maskBits w.2)) :
    B.guarded.runProgram p w.1 w.2 st = B.runProgram p w.1 w.2 st := if_pos h

theorem guarded_runSource (B : Backend D σ) {body : Body (List ℕ)} (w : SecureWires × SecureWires) (st : σ)
    (h : MasksKept (body.stream w.1.size) (body.outs w.1.size) (maskBits w.2)) :
    B.guarded.runSource body w.1 w.2 st = B.runSource body w.1 w.2 st := if_pos h

/-- A guarded flush whose run keeps the masks. -/
theorem flush_guarded {keepIds : List ℕ} (hf : s.flush B keepIds = .ok s')
    (hk : ∀ call, s.flushCall keepIds = some call → s.CallKeepsMasks call) : s.flush B.guarded keepIds = .ok s' := by
  obtain ⟨plan, hcheck, hf⟩ := bind_eq_ok hf
  obtain ⟨-, ⟨rfl, -⟩ | ⟨hsome, rfl, -⟩⟩ := Session.flushCheck_ok hcheck
  · unfold Session.flush
    rw [hcheck]
    exact hf
  · obtain ⟨w, hgather, hrun⟩ := bind_eq_ok hf
    obtain ⟨-, rfl⟩ := Session.gatherCarried_ok hgather
    have hguard := guarded_runProgram B (s.carriedBundle _) s.proto (hk _ (flushCall_pending hsome))
    simp only [Session.flush, hcheck, bind, Except.bind, hgather, hguard]
    exact hrun

/-- Guarded runs that keep the masks. -/
theorem runCircuit_guarded {prog : BooleanProgram} {args : List (List ℕ)} {ids : List ℕ}
    (hr : s.runCircuit B prog args = .ok (ids, s'))
    (hk : s.CallKeepsMasks ⟨prog.gates, prog.outputs, args.flatten⟩) :
    s.runCircuit B.guarded prog args = .ok (ids, s') := by
  obtain ⟨w, hargs, hr⟩ := bind_eq_ok hr
  obtain ⟨-, rfl⟩ := Session.appendArgs_ok hargs
  have hguard := guarded_runProgram B (s.carriedBundle args.flatten) s.proto hk
  simp only [Session.runCircuit, hargs, bind, Except.bind, hguard]
  exact hr

theorem runArtifact_guarded {retWidth : ℕ} {prog : BooleanProgram} {args : List (List ℕ)} {ids : List ℕ}
    (hr : s.runArtifact B retWidth prog args = .ok (ids, s'))
    (hk : s.CallKeepsMasks ⟨prog.gates, prog.outputs, args.flatten⟩) :
    s.runArtifact B.guarded retWidth prog args = .ok (ids, s') := by
  obtain ⟨w, hargs, hr⟩ := bind_eq_ok hr
  obtain ⟨-, rfl⟩ := Session.appendArgs_ok hargs
  have hguard := guarded_runProgram B (s.carriedBundle args.flatten) s.proto hk
  simp only [Session.runArtifact, hargs, bind, Except.bind, hguard]
  exact hr

theorem runBody_guarded {args : List (List ℕ)} {body : Body (List ℕ)} {ids : List ℕ}
    (hr : s.runBody B args body = .ok (ids, s'))
    (hk : s.CallKeepsMasks ⟨body.stream args.flatten.length, body.outs args.flatten.length, args.flatten⟩) :
    s.runBody B.guarded args body = .ok (ids, s') := by
  obtain ⟨w, hargs, hr⟩ := bind_eq_ok hr
  obtain ⟨-, rfl⟩ := Session.appendArgs_ok hargs
  have hkept : MasksKept (body.stream (s.carriedBundle args.flatten).1.size) (body.outs (s.carriedBundle args.flatten).1.size)
      (maskBits (s.carriedBundle args.flatten).2) := by
    rw [Session.carriedBundle_size]
    exact hk
  have hguard := guarded_runSource B (s.carriedBundle args.flatten) s.proto hkept
  simp only [Session.runBody, hargs, bind, Except.bind, hguard]
  exact hr

/-- The input phase is not guarded. -/
theorem finishPublic_guarded (adds : List BatchAdd) :
    ∀ s : Session σ, s.finishPublic B.guarded adds = s.finishPublic B adds := by
  induction adds with
  | nil => exact fun _ => rfl
  | cons a adds ih =>
    intro s
    simp only [Session.finishPublic, ih]
    rfl

/-- **An operation that keeps the masks** does the same over the guarded engine. -/
theorem step_guarded [DecidableEq D] {op : SessionOp} {out : Output} (hs : Session.step B s op = .ok (out, s')) (hk : s.KeepsMasks op) :
    Session.step B.guarded s op = .ok (out, s') := by
  cases op with
  | runCircuit prog args =>
    obtain ⟨⟨ids, s₁⟩, hr, heq⟩ := map_eq_ok hs
    cases heq
    simp only [Session.step, runCircuit_guarded hr (hk _ rfl)]
    rfl
  | runBody args body =>
    obtain ⟨⟨ids, s₁⟩, hr, heq⟩ := map_eq_ok hs
    cases heq
    simp only [Session.step, runBody_guarded hr (hk _ rfl)]
    rfl
  | runArtifact retWidth prog args =>
    obtain ⟨⟨ids, s₁⟩, hr, heq⟩ := map_eq_ok hs
    cases heq
    simp only [Session.step, runArtifact_guarded hr (hk _ rfl)]
    rfl
  | checkpoint keep =>
    obtain ⟨s₁, hc, heq⟩ := map_eq_ok hs
    cases heq
    obtain ⟨s₂, hf, rfl⟩ := Session.checkpoint_ok hc
    simp only [Session.step, Session.checkpoint, flush_guarded hf hk]
    rfl
  | reveal v recipient keep =>
    obtain ⟨⟨r, s₁⟩, hr, heq⟩ := map_eq_ok hs
    cases heq
    obtain ⟨w, bits, hcall, hdecode, rfl⟩ := Session.reveal_ok hr
    obtain ⟨hrec, hf, hall, rfl⟩ := Session.revealFlush_ok hcall
    have hcall' : s.revealFlush B.guarded v recipient keep = .ok (s₁.carriedBundle v, s₁) := by
      have hgather := Session.gatherCarried_eq hall
      have hf' := flush_guarded hf hk
      cases recipient with
      | other n => exact absurd rfl (hrec n)
      | PUBLIC => simp only [Session.revealFlush, hf', bind, Except.bind, hgather]; rfl
      | ALICE => simp only [Session.revealFlush, hf', bind, Except.bind, hgather]; rfl
      | BOB => simp only [Session.revealFlush, hf', bind, Except.bind, hgather]; rfl
    have hdecode' : decode B.guarded.tool B.guarded.Δ (s₁.carriedBundle v).1 (s₁.carriedBundle v).2 recipient =
        .ok bits := hdecode
    simp only [Session.step, Session.reveal, hcall', bind, Except.bind, hdecode']
    rfl
  | input x => exact hs
  | inputBatch => exact hs
  | batchAdd b x => exact hs
  | batchFinish b =>
    rw [← hs]
    simp only [Session.step, Session.batchFinish, Session.batchFinish_, finishPublic_guarded]
    rfl
  | publicBit v => exact hs
  | andGate a b => exact hs
  | xorGate a b => exact hs
  | notGate a => exact hs

/-- What is true over the guarded engine is true over the engine. -/
theorem Mirrors.of_guarded {Inv : σ → Prop} {env : ClearEnv} (h : Mirrors B.guarded Inv s env) : Mirrors B Inv s env :=
  ⟨h.proto, h.chunk, h.bound, h.gates, h.carried, h.batches⟩

theorem Mirrors.guarded {Inv : σ → Prop} {env : ClearEnv} (h : Mirrors B Inv s env) : Mirrors B.guarded Inv s env :=
  ⟨h.proto, h.chunk, h.bound, h.gates, h.carried, h.batches⟩

/-- Mirrored sessions carry the same masks at both parties. -/
theorem Mirrors.masksAgree {Inv : σ → Prop} {env : ClearEnv} (h : Mirrors B Inv s env) : s.MasksAgree :=
  fun id c hc => (h.carried id c hc).2.lambda

/-! ### Back from the masks -/

/-- The masks of a bundle just materialized. -/
theorem masks_of_materialize {ids : List ℕ} {w : SecureWires × SecureWires} (hm : s.materialize w = .ok (ids, s'))
    (hagree : s'.MasksAgree) : ∀ i < w.1.size, w.1.lambdaAt i = w.2.lambdaAt i := by
  obtain ⟨rfl, -, rfl⟩ := Session.materialize_ok hm
  intro i hi
  obtain ⟨c, hc⟩ := carryLoad_getD w.1 w.2 s.carried
    (List.nodup_range' (s := s.ctx.nextId) (n := w.1.size)) (i := i) (by rwa [List.length_range'])
  exact hagree _ _ hc

end

section

variable {D : Type} [DecidableEq D] {S : Setup D} {C : CotStream S.Δ} {s s' : Session ProtoState} {env : ClearEnv}

/-- **A flush** whose outputs carry the same masks has kept the masks. -/
theorem flush_keepsMasks (h₁ : S.cot₁ = C.s₁) (h₂ : S.cot₂ = C.s₂) (h : Mirrors (.real S) PoolsInStep s env)
    {keepIds : List ℕ} (hf : s.flush (.real S) keepIds = .ok s')
    (hagree : ∀ id ∈ keepIds, ∀ c, s'.carried id = some c → c.alice.Lambda = c.bob.Lambda) :
    ∀ call, s.flushCall keepIds = some call → s.CallKeepsMasks call := by
  intro call hcall
  obtain ⟨-, ⟨hnone, -⟩ | ⟨hsome, plan, out, proto, rfl, hok, hall, hrun, rfl⟩⟩ := Session.flush_ok hf
  · have hany : keepIds.any s.ctx.isPending = false := by
      rw [List.any_eq_false]
      intro id hid
      simpa [AG2PCCtx.isPending] using hnone id hid
    rw [Session.flushCall, hany] at hcall
    cases hcall
  · rw [flushCall_pending hsome] at hcall
    cases hcall
    obtain ⟨ρ, H⟩ := planFlush_spec h.chunk.ordered keepIds s.isCarried
    obtain ⟨-, -, hiff⟩ := runProgram_masks_iff h₁ h₂ (h.encodes_bundle hall)
      ((List.length_map _).trans H.numInputs.symm) h.proto hrun
    refine hiff.mp fun i hi => ?_
    rw [H.outputs, List.length_map] at hi
    obtain ⟨c, hc⟩ := carryLoad_getD out.1 out.2 s.carried H.outputs_nodup hi
    exact hagree _ ((H.mem_output _).mp (getD_mem 0 hi)).1 _ hc

/-- **A run of a program** whose outputs carry the same masks has kept the masks. -/
theorem runProgram_keepsMasks (h₁ : S.cot₁ = C.s₁) (h₂ : S.cot₂ = C.s₂) (h : Mirrors (.real S) PoolsInStep s env)
    {prog : BooleanProgram} {args : List (List ℕ)} {ids : List ℕ} (hwidth : args.flatten.length = prog.numInputs)
    (hran : Session.RunOk s s' args ids ((Backend.real S).runProgram prog)) (hagree : s'.MasksAgree) :
    s.CallKeepsMasks ⟨prog.gates, prog.outputs, args.flatten⟩ := by
  obtain ⟨hall, out, proto, hrun, hmat⟩ := hran
  obtain ⟨-, henc, hiff⟩ := runProgram_masks_iff h₁ h₂ (h.encodes_bundle hall) ((List.length_map _).trans hwidth)
    h.proto hrun
  refine hiff.mp fun i hi => masks_of_materialize hmat hagree i ?_
  rwa [henc.wf₁.size, BooleanProgram.eval, List.length_map]

/-- **A run of a body** whose outputs carry the same masks has kept the masks. -/
theorem runBody_keepsMasks (h₁ : S.cot₁ = C.s₁) (h₂ : S.cot₂ = C.s₂) (h : Mirrors (.real S) PoolsInStep s env)
    {args : List (List ℕ)} {ids : List ℕ} {body : PureBody args.flatten.length}
    (hran : Session.RunOk s s' args ids ((Backend.real S).runSource body.body)) (hagree : s'.MasksAgree) :
    s.CallKeepsMasks ⟨body.body.stream args.flatten.length, body.body.outs args.flatten.length, args.flatten⟩ := by
  obtain ⟨hall, out, proto, hrun, hmat⟩ := hran
  have hcan := Body.record_canonical body.body _ _ _ body.wellScoped
  have hlen : (args.flatten.map env.get).length = args.flatten.length := List.length_map _
  obtain ⟨out', st', hok, -, henc, hiff⟩ := @runSource_masks_iff D _ S C _ _ (args.flatten.map env.get) s.proto h₁ h₂
    body.body (h.encodes_bundle hall) (by rw [hlen]; exact hcan) (by rw [hlen]; exact body.outs_lt) h.proto
  rw [hlen] at henc hiff
  have heq : (Backend.real S).runSource body.body (s.carriedBundle args.flatten).1 (s.carriedBundle args.flatten).2
      s.proto = .ok (out', st') := hok
  rw [heq] at hrun
  cases hrun
  refine hiff.mp fun i hi => masks_of_materialize hmat hagree i ?_
  rwa [henc.wf₁.size, List.length_map]

/-! ### One operation and runs -/

/-- **One operation**: the masks agree after it exactly when its engine run kept them. -/
theorem masksAgree_step (h₁ : S.cot₁ = C.s₁) (h₂ : S.cot₂ = C.s₂) {op : SessionOp} {out : Output}
    (h : ∃ env, Mirrors (.real S) PoolsInStep s env) (hs : Session.step (.real S) s op = .ok (out, s')) :
    (s'.MasksAgree ↔ s.KeepsMasks op) ∧ (s.KeepsMasks op → ∃ env, Mirrors (.real S) PoolsInStep s' env) := by
  obtain ⟨env, h⟩ := h
  have hnext (hk : s.KeepsMasks op) : ∃ env, Mirrors (.real S) PoolsInStep s' env :=
    ⟨_, (h.guarded.step (guarded_sound h₁ h₂) (step_guarded hs hk)).1.of_guarded⟩
  refine ⟨⟨fun hagree call hcall => ?_, fun hk => ?_⟩, hnext⟩
  · cases Session.step_ok hs with
    | runCircuit hwidth hran =>
      cases hcall
      exact runProgram_keepsMasks h₁ h₂ h hwidth hran hagree
    | runBody hran =>
      cases hcall
      exact runBody_keepsMasks h₁ h₂ h hran hagree
    | runArtifact hwidth hran =>
      cases hcall
      exact runProgram_keepsMasks h₁ h₂ h hwidth hran hagree
    | checkpoint hflush =>
      refine flush_keepsMasks h₁ h₂ h hflush (fun id hid c hcar => hagree id c ?_) call hcall
      dsimp only
      rw [if_pos hid]
      exact hcar
    | reveal hrec hflush hall hdecode =>
      exact flush_keepsMasks h₁ h₂ h hflush (fun id _ c hcar => hagree id c hcar) call hcall
    | input | inputBatch | batchAdd | batchFinish | publicBit | andGate | xorGate | notGate => cases hcall
  · obtain ⟨env', h'⟩ := hnext hk
    exact h'.masksAgree

/-- **Agreement of the opened masks over sessions**: in every session between honest parties the masks of all
materialized ids agree after every operation exactly when every operation keeps the masks. -/
theorem masksAgree_iff (h₁ : S.cot₁ = C.s₁) (h₂ : S.cot₂ = C.s₂) {st : ProtoState} (hst : PoolsInStep st)
    (ops : List SessionOp) :
    (∀ pre, pre <+: ops → ∀ t, Reaches (Session.step (.real S)) (Session.start st) pre t → t.MasksAgree) ↔
      ∀ pre op, pre ++ [op] <+: ops → ∀ t t', Reaches (Session.step (.real S)) (Session.start st) pre t →
        Reaches (Session.step (.real S)) (Session.start st) (pre ++ [op]) t' → t.KeepsMasks op := by
  have hstep : ∀ s op out s', (∃ env, Mirrors (.real S) PoolsInStep s env) →
      Session.step (.real S) s op = .ok (out, s') →
        (s'.MasksAgree ↔ s.KeepsMasks op) ∧ (s.KeepsMasks op → ∃ env, Mirrors (.real S) PoolsInStep s' env) :=
    fun _ _ _ _ h hs => masksAgree_step h₁ h₂ h hs
  have hagree : ∀ s : Session ProtoState, (∃ env, Mirrors (.real S) PoolsInStep s env) → s.MasksAgree :=
    fun _ ⟨_, h⟩ => h.masksAgree
  exact forall_reached_iff hagree hstep ⟨_, Mirrors.start hst⟩

end

/-! ### The negation of a public zero -/

/-- The negation of a public zero, kept. -/
def negationSession : List SessionOp := [.publicBit false, .notGate 0, .checkpoint [[1]]]

/-- The masks of its only id, when it runs through. -/
def keptMasks (ops : List SessionOp) (id : ℕ) : Option (UInt8 × UInt8) :=
  match run (Session.step (.real Setup.zeros)) (Session.start {}) ops with
  | .ok (_, t) => (t.carried id).map fun c => (c.alice.Lambda, c.bob.Lambda)
  | .error _ => none

/-- **The masks differ** after the checkpoint, and revealed to the garbler the negation is zero. -/
theorem not_masksAgree_negation :
    (∃ t, Reaches (Session.step (.real Setup.zeros)) (Session.start {}) negationSession t ∧ ¬ t.MasksAgree) ∧
      (run (Session.step (.real Setup.zeros)) (Session.start {})
          [.publicBit false, .notGate 0, .reveal [1] .ALICE []]).toOption.map Prod.fst =
        some [.value [0], .value [1], .revealed (some [false]) none] := by
  refine ⟨?_, by decide +kernel⟩
  have hmasks : keptMasks negationSession 1 = some (0, 1) := by decide +kernel
  unfold keptMasks at hmasks
  split at hmasks
  · next outs t hrun =>
    obtain ⟨c, hc, hpair⟩ := Option.map_eq_some_iff.mp hmasks
    refine ⟨t, ⟨outs, hrun⟩, fun hagree => ?_⟩
    obtain ⟨h₁, h₂⟩ := Prod.mk.inj hpair
    have heq := hagree 1 c hc
    rw [h₁, h₂] at heq
    exact absurd heq (by decide)
  · cases hmasks

/-- The equivalence at that session. -/
theorem masksAgree_iff_negation :
    (∀ pre, pre <+: negationSession →
        ∀ t, Reaches (Session.step (.real Setup.zeros)) (Session.start {}) pre t → t.MasksAgree) ↔
      ∀ pre op, pre ++ [op] <+: negationSession → ∀ t t',
        Reaches (Session.step (.real Setup.zeros)) (Session.start {}) pre t →
          Reaches (Session.step (.real Setup.zeros)) (Session.start {}) (pre ++ [op]) t' → t.KeepsMasks op :=
  have hst : PoolsInStep {} := rfl
  @masksAgree_iff _ _ Setup.zeros (.zeros (.init 0 0)) rfl rfl {} hst negationSession

end AG2PC
