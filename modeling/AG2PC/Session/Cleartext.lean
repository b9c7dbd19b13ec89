import AG2PC.Backend.InputPhase
import AG2PC.Session.Steps

/-!
# The cleartext session

What a session is for: every value is a name for bits, bound once and never rebound. The cleartext session
evaluates an operation directly on the bits of the names it mentions; it knows no chunk and drops nothing. It
is told the names the session hands out, and `ClearResult` is what it asks of each result.

`Mirrors` relates a session to the cleartext bits: every carried id encodes the bit of its name, the gates of
the chunk hold of the bits, and so do the inputs of the batches. Each function of the session keeps it, when
the protocol below is sound (`Backend.Sound`).
-/

namespace AG2PC

open Library.XorAlgebra Library.ByIndex Library.Runs

/-! ### Names -/

/-- The bits bound to names. -/
abbrev ClearEnv := ℕ → Option Bool

namespace ClearEnv

/-- The bit of a name. -/
def get (env : ClearEnv) (id : ℕ) : Bool := (env id).getD false

/-- The names bound to the bits, one by one. -/
def bind : ClearEnv → List ℕ → List Bool → ClearEnv
  | env, id :: ids, b :: bits => bind (Function.update env id (some b)) ids bits
  | env, _, _ => env

variable {env : ClearEnv} {ids : List ℕ} {bits : List Bool}

theorem bind_of_not_mem {id : ℕ} (h : id ∉ ids) : env.bind ids bits id = env id := by
  induction ids generalizing env bits with
  | nil => rfl
  | cons i ids ih =>
    rw [List.mem_cons, not_or] at h
    cases bits with
    | nil => rfl
    | cons b bits => rw [bind, ih h.2, Function.update_of_ne h.1]

variable (env bits) in
/-- New names carry the bits they are bound to. -/
theorem map_bind (hnodup : ids.Nodup) (hlen : ids.length = bits.length) :
    ids.map (env.bind ids bits) = bits.map some := by
  induction ids generalizing env bits with
  | nil =>
    rw [List.eq_nil_of_length_eq_zero hlen.symm]
    rfl
  | cons i ids ih =>
    cases bits with
    | nil => cases hlen
    | cons b bits =>
      obtain ⟨hi, hrest⟩ := List.nodup_cons.mp hnodup
      rw [bind, List.map_cons, ih _ _ hrest (Nat.succ.inj hlen), bind_of_not_mem hi, Function.update_self]
      rfl

theorem map_get_bind (hnodup : ids.Nodup) (hlen : ids.length = bits.length) :
    ids.map (env.bind ids bits).get = bits := by
  have h := congrArg (List.map fun o : Option Bool => o.getD false) (map_bind env bits hnodup hlen)
  rw [List.map_map, List.map_map] at h
  exact h.trans (List.map_id' _)

end ClearEnv

/-! ### Operations in the clear -/

/-- The values a body computes from the bits of its arguments. -/
def PureBody.eval {n : ℕ} (b : PureBody n) (x : List Bool) : List Bool :=
  (b.body.record n none none).2.map (evalGates (inputWires x) (b.body.record n none none).1)

/-- The bits of the value an operation makes. -/
def SessionOp.clearValue (env : ClearEnv) : SessionOp → List Bool
  | .input x => x.value
  | .batchAdd _ x => x.value
  | .publicBit v => [v]
  | .andGate a b => [env.get a && env.get b]
  | .xorGate a b => [env.get a ^^ env.get b]
  | .notGate a => [!env.get a]
  | .runCircuit prog args => prog.eval (args.flatten.map env.get)
  | .runBody args body => body.eval (args.flatten.map env.get)
  | .runArtifact _ prog args => prog.eval (args.flatten.map env.get)
  | .inputBatch | .batchFinish _ | .checkpoint _ | .reveal _ _ _ => []

/-- The bits after an operation: those of before, and those of the value it makes under the names returned. -/
def clearNext (env : ClearEnv) (op : SessionOp) : Output → ClearEnv
  | .value ids => env.bind ids (op.clearValue env)
  | .none | .revealed _ _ => env

/-- What a reveal of `bits` is to return at the garbler and at the evaluator. -/
def clearReveal (recipient : Owner) (bits : List Bool) : Option (List Bool) × Option (List Bool) :=
  match recipient with
  | .PUBLIC => (some bits, some bits)
  | .ALICE => (some bits, none)
  | .BOB => (none, some bits)
  | .other _ => (none, none)

/-- The result of an operation is right: a value gets distinct names, one a bit, none of which stands for
another bit already; a reveal returns the bits at the recipients and nothing elsewhere. -/
def ClearResult (env : ClearEnv) (op : SessionOp) (out : Output) : Prop :=
  match op, out with
  | .reveal v recipient _, .revealed a b => (∀ id ∈ v, (env id).isSome) ∧ (a, b) = clearReveal recipient (v.map env.get)
  | op, .value ids =>
    ids.length = (op.clearValue env).length ∧ ids.Nodup ∧
      ∀ i < ids.length, env (ids.getD i 0) = none ∨ env (ids.getD i 0) = some ((op.clearValue env).getD i false)
  | _, _ => True

/-! ### A sound protocol -/

/-- The group a party's input is for `process_inputs`. -/
def ClearInput.group (x : ClearInput) : InputGroup where
  owner := match x.owner with
    | .BOB => .bob
    | _ => .alice
  alice := x.alice
  bob := x.bob
  width_eq := x.width_eq

/-- **The protocol below is sound**, from the states `Inv` on: the input phase makes encodings of the owners'
bits, and the engine takes encodings of the inputs of a program, or of a body, to encodings of its outputs. -/
structure Backend.Sound {D σ : Type} (B : Backend D σ) (Inv : σ → Prop) : Prop where
  processInputs : ∀ groups st subs st', Inv st →
    B.processInputs (groupOwners groups) (groupBits groups .alice) (groupBits groups .bob) st = .ok (subs, st') →
      Inv st' ∧ GroupsEncode B.Δ subs (groups.map InputGroup.value)
  runProgram : ∀ prog w₁ w₂ x st out st', Inv st → Encodes B.Δ w₁ w₂ x → x.length = prog.numInputs →
    B.runProgram prog w₁ w₂ st = .ok (out, st') → Inv st' ∧ Encodes B.Δ out.1 out.2 (prog.eval x)
  runSource : ∀ n (body : PureBody n) w₁ w₂ x st out st', Inv st → Encodes B.Δ w₁ w₂ x → x.length = n →
    B.runSource body.body w₁ w₂ st = .ok (out, st') → Inv st' ∧ Encodes B.Δ out.1 out.2 (body.eval x)

/-! ### Carried encodings -/

/-- The carried states of an id encode a bit, and the two parties hold the same opened mask. -/
structure CarriedEncodes (Δ : Deltas) (c : Carried) (v : Bool) : Prop where
  lambda : c.alice.Lambda = c.bob.Lambda
  wire : WireEncodes Δ c.alice.bundle c.bob.bundle c.bob.Lambda c.alice.label0 c.bob.evlbl v

section

variable {Δ : Deltas} {w₁ w₂ : SecureWires} {x : List Bool}

/-- A wire of an encoding, loaded. -/
theorem carriedEncodes_load (h : Encodes Δ w₁ w₂ x) {i : ℕ} (hi : i < x.length) (c : Carried) :
    CarriedEncodes Δ (c.load w₁ w₂ i) (x.getD i false) :=
  ⟨h.lambda i hi, h.wire i hi⟩

/-- The bundle of carried encodings is an encoding. -/
theorem encodes_carriedBundle {σ : Type} {s : Session σ} {ids : List ℕ} {f : ℕ → Bool}
    (h : ∀ id ∈ ids, ∃ c, s.carried id = some c ∧ CarriedEncodes Δ c (f id)) :
    Encodes Δ (s.carriedBundle ids).1 (s.carriedBundle ids).2 (ids.map f) := by
  have hlen : (ids.map f).length = ids.length := List.length_map _
  have hstate : ∀ i < ids.length, CarriedEncodes Δ ((s.carried (ids.getD i 0)).getD {}) ((ids.map f).getD i false) := by
    intro i hi
    obtain ⟨c, hc, henc⟩ := h _ (getD_mem 0 hi)
    rw [hc, getD_map_of_lt f 0 _ hi]
    exact henc
  refine EvaluatorEncodes.encodes ⟨?_, ?_, fun i hi => ?_⟩ fun i hi => ?_
  · rw [hlen]
    simp only [Session.carriedBundle, carryStore, List.map_map]
    exact ⟨List.length_map _, List.length_map _, List.length_map _⟩
  · rw [hlen]
    simp only [Session.carriedBundle, carryStore, List.map_map]
    exact ⟨List.length_map _, List.length_map _, List.length_map _⟩
  · rw [hlen] at hi
    simp only [SecureWires.bundleAt, SecureWires.lambdaAt, SecureWires.label0At, SecureWires.evalLabelAt,
      Session.carriedBundle, carryStore, List.map_map]
    rw [getD_map_of_lt _ 0 _ hi, getD_map_of_lt _ 0 _ hi, getD_map_of_lt _ 0 _ hi, getD_map_of_lt _ 0 _ hi,
      getD_map_of_lt _ 0 _ hi]
    exact (hstate i hi).wire
  · rw [hlen] at hi
    simp only [SecureWires.lambdaAt, Session.carriedBundle, carryStore, List.map_map]
    rw [getD_map_of_lt _ 0 _ hi, getD_map_of_lt _ 0 _ hi]
    exact (hstate i hi).lambda

/-- Ids loaded from an encoding of their bits carry them; the others are left alone. -/
theorem carriedEncodes_carryLoad {ids : List ℕ} {carried : ℕ → Option Carried} {f : ℕ → Bool}
    (h : Encodes Δ w₁ w₂ (ids.map f)) {id : ℕ} {c : Carried} (hc : carryLoad ids w₁ w₂ carried id = some c) :
    (id ∈ ids ∧ CarriedEncodes Δ c (f id)) ∨ carried id = some c := by
  by_cases hmem : id ∈ ids
  · obtain ⟨i, hi, rfl, c', hc'⟩ := carryLoad_mem w₁ w₂ carried hmem
    rw [hc] at hc'
    have henc := carriedEncodes_load h ((List.length_map f).symm ▸ hi) c'
    rw [getD_map_of_lt f 0 _ hi] at henc
    exact .inl ⟨hmem, (Option.some.inj hc') ▸ henc⟩
  · rw [carryLoad_of_not_mem hmem] at hc
    exact .inr hc

end

/-! ### A session and its bits -/

/-- A session mirrors the cleartext bits `env`. -/
structure Mirrors {D σ : Type} (B : Backend D σ) (Inv : σ → Prop) (s : Session σ) (env : ClearEnv) : Prop where
  proto : Inv s.proto
  chunk : ChunkOk s.ctx
  bound : ∀ id, (env id).isSome = true ↔ id < s.ctx.nextId
  gates : ∀ g ∈ s.ctx.chunkGates, env.get g.out = g.value env.get
  carried : ∀ id c, s.carried id = some c → id < s.ctx.nextId ∧ CarriedEncodes B.Δ c (env.get id)
  batches : ∀ batch ∈ s.batches, ∀ a ∈ batch.adds,
    (∀ id ∈ a.ids, id < s.ctx.nextId) ∧ a.ids.map env.get = a.input.value

namespace Mirrors

variable {D σ : Type} {B : Backend D σ} {Inv : σ → Prop} {s s' : Session σ} {env : ClearEnv}

/-- At the start nothing is bound. -/
theorem start {st : σ} (h : Inv st) : Mirrors B Inv (Session.start st) fun _ => none where
  proto := h
  chunk := .empty 0
  bound id := by simp [Session.start]
  gates := by simp [Session.start]
  carried id c hc := by cases hc
  batches := by simp [Session.start]

/-- A carried id and its bit. -/
theorem carried_of_isCarried (h : Mirrors B Inv s env) {id : ℕ} (hid : s.isCarried id = true) :
    ∃ c, s.carried id = some c ∧ CarriedEncodes B.Δ c (env.get id) := by
  obtain ⟨c, hc⟩ := Option.isSome_iff_exists.mp hid
  exact ⟨c, hc, (h.carried id c hc).2⟩

/-- The bundle of carried ids encodes their bits. -/
theorem encodes_bundle (h : Mirrors B Inv s env) {ids : List ℕ} (hids : ∀ id ∈ ids, s.isCarried id = true) :
    Encodes B.Δ (s.carriedBundle ids).1 (s.carriedBundle ids).2 (ids.map env.get) :=
  encodes_carriedBundle fun id hid => h.carried_of_isCarried (hids id hid)

/-- The bits do not depend on the state below. -/
theorem setProto (h : Mirrors B Inv s env) {proto : σ} (hp : Inv proto) : Mirrors B Inv { s with proto := proto } env :=
  { h with proto := hp }

/-- Loading an encoding of the bits of allocated ids. -/
theorem carryLoad (h : Mirrors B Inv s env) {ids : List ℕ} {w₁ w₂ : SecureWires}
    (hids : ∀ id ∈ ids, id < s.ctx.nextId) (henc : Encodes B.Δ w₁ w₂ (ids.map env.get)) :
    Mirrors B Inv { s with carried := AG2PC.carryLoad ids w₁ w₂ s.carried } env := by
  refine { h with carried := fun id c hc => ?_ }
  rcases carriedEncodes_carryLoad henc hc with ⟨hmem, hc'⟩ | hold
  · exact ⟨hids id hmem, hc'⟩
  · exact h.carried id c hold

theorem materializeInto (h : Mirrors B Inv s env) {ids : List ℕ} {w : SecureWires × SecureWires}
    (hids : ∀ id ∈ ids, id < s.ctx.nextId) (henc : Encodes B.Δ w.1 w.2 (ids.map env.get))
    (hm : s.materializeInto ids w = .ok s') : Mirrors B Inv s' env := by
  obtain ⟨-, -, rfl⟩ := Session.materializeInto_ok hm
  exact h.carryLoad hids henc

/-! #### New names -/

/-- The bits of the allocated ids do not change when the next ids are bound. -/
theorem bind_of_lt {n k id : ℕ} {bits : List Bool} (hid : id < n) :
    env.bind (List.range' n k) bits id = env id := by
  refine ClearEnv.bind_of_not_mem fun hmem => ?_
  obtain ⟨i, -, rfl⟩ := List.mem_range'.mp hmem
  omega

theorem get_bind_of_lt {n k id : ℕ} {bits : List Bool} (hid : id < n) :
    (env.bind (List.range' n k) bits).get id = env.get id := congrArg (Option.getD · false) (bind_of_lt hid)

/-- Which names are bound afterwards. -/
theorem isSome_bind {n k id : ℕ} {bits : List Bool} (hk : bits.length = k)
    (h : ∀ id, (env id).isSome = true ↔ id < n) :
    (env.bind (List.range' n k) bits id).isSome = true ↔ id < n + k := by
  by_cases hmem : id ∈ List.range' n k
  · obtain ⟨i, hi, rfl⟩ := List.mem_range'.mp hmem
    have hmap := ClearEnv.map_bind env bits (List.nodup_range' (s := n) (n := k))
      (by rw [List.length_range', hk])
    have hsome : ∀ o ∈ (List.range' n k).map (env.bind (List.range' n k) bits), o.isSome = true := by
      rw [hmap]
      intro o ho
      obtain ⟨b, -, rfl⟩ := List.mem_map.mp ho
      rfl
    exact ⟨fun _ => by omega, fun _ => hsome _ (List.mem_map_of_mem hmem)⟩
  · rw [ClearEnv.bind_of_not_mem hmem, h id]
    have hout : ¬ (n ≤ id ∧ id < n + k) := by
      rintro ⟨h₁, h₂⟩
      exact hmem (List.mem_range'.mpr ⟨id - n, by omega, by omega⟩)
    omega

/-- **Reserving ids** for new bits. -/
theorem reserve (h : Mirrors B Inv s env) {bits : List Bool} {k : ℕ} (hk : bits.length = k) :
    Mirrors B Inv { s with ctx := { s.ctx with nextId := s.ctx.nextId + k } }
      (env.bind (List.range' s.ctx.nextId k) bits) where
  proto := h.proto
  chunk := h.chunk.reserve k
  bound id := isSome_bind hk h.bound
  gates g hg := by
    have hlt := h.chunk.lt g hg
    rw [get_bind_of_lt hlt, h.gates g hg]
    exact Gate.value_congr fun w hw => (get_bind_of_lt (Nat.lt_trans (h.chunk.ordered.srcs g hg w hw) hlt)).symm
  carried id c hc := by
    obtain ⟨hlt, henc⟩ := h.carried id c hc
    rw [get_bind_of_lt hlt]
    exact ⟨Nat.lt_of_lt_of_le hlt (Nat.le_add_right _ _), henc⟩
  batches batch hb a ha := by
    obtain ⟨hlt, hval⟩ := h.batches batch hb a ha
    refine ⟨fun id hid => Nat.lt_of_lt_of_le (hlt id hid) (Nat.le_add_right _ _), ?_⟩
    rw [← hval]
    exact List.map_congr_left fun id hid => get_bind_of_lt (hlt id hid)

/-- The bits the reserved ids are bound to. -/
theorem map_reserved {bits : List Bool} {n k : ℕ} (hk : bits.length = k) :
    (List.range' n k).map (env.bind (List.range' n k) bits).get = bits :=
  ClearEnv.map_get_bind List.nodup_range' (by rw [List.length_range', hk])

/-- **Materializing** an encoding of new bits. -/
theorem materialize (h : Mirrors B Inv s env) {ids : List ℕ} {w : SecureWires × SecureWires} {bits : List Bool}
    (henc : Encodes B.Δ w.1 w.2 bits) (hm : s.materialize w = .ok (ids, s')) :
    ids = List.range' s.ctx.nextId bits.length ∧ Mirrors B Inv s' (env.bind ids bits) := by
  obtain ⟨rfl, -, rfl⟩ := Session.materialize_ok hm
  have hsize : w.1.size = bits.length := henc.wf₁.size
  rw [hsize]
  refine ⟨rfl, (h.reserve rfl).carryLoad (fun id hid => ?_) ?_⟩
  · obtain ⟨i, hi, rfl⟩ := List.mem_range'.mp hid
    dsimp only
    omega
  · rw [map_reserved rfl]
    exact henc

/-- The names of new bits are as the cleartext session wants them. -/
theorem names_fresh (h : Mirrors B Inv s env) (bits : List Bool) :
    let ids := List.range' s.ctx.nextId bits.length
    ids.length = bits.length ∧ ids.Nodup ∧
      ∀ i < ids.length, env (ids.getD i 0) = none ∨ env (ids.getD i 0) = some (bits.getD i false) := by
  intro ids
  refine ⟨List.length_range', List.nodup_range', fun i hi => .inl ?_⟩
  have hmem := getD_mem 0 hi
  obtain ⟨j, hj, heq⟩ := List.mem_range'.mp hmem
  have hnot : ¬ (env (ids.getD i 0)).isSome = true := by
    rw [h.bound]
    omega
  simpa using hnot

/-! #### Gates -/

/-- **Recording a gate.** The recorder may remember it as a constant besides. -/
theorem records (h : Mirrors B Inv s env) {g : Gate} {c₁ c' : AG2PCCtx} (hrec : AG2PCCtx.Records s.ctx c₁ g)
    (hnext : c'.nextId = c₁.nextId) (hgates : c'.chunkGates = c₁.chunkGates) (hchunk : ChunkOk c') :
    Mirrors B Inv { s with ctx := c' } (env.bind [g.out] [g.value env.get]) := by
  obtain ⟨hout, hsrcs, rfl⟩ := hrec
  have hres := h.reserve (k := 1) (rfl : [g.value env.get].length = 1)
  have hrange : List.range' s.ctx.nextId 1 = [g.out] := by rw [hout]; rfl
  rw [hrange] at hres
  refine ⟨hres.proto, hchunk, fun id => ?_, fun g' hg' => ?_, fun id c hc => ?_, fun batch hb a ha => ?_⟩
  · rw [hnext]
    exact hres.bound id
  · rw [hgates] at hg'
    rcases List.mem_append.mp hg' with hg' | hg'
    · exact hres.gates g' hg'
    · obtain rfl := List.mem_singleton.mp hg'
      have hval : [g'.out].map (env.bind [g'.out] [g'.value env.get]).get = [g'.value env.get] :=
        ClearEnv.map_get_bind (List.nodup_singleton _) rfl
      rw [List.map_singleton, List.singleton_inj] at hval
      rw [hval]
      refine Gate.value_congr fun w hw => ?_
      have hlt := hsrcs w hw
      rw [← hrange]
      exact (get_bind_of_lt hlt).symm
  · rw [hnext]
    exact hres.carried id c hc
  · rw [hnext]
    exact hres.batches batch hb a ha

/-- A constant of the chunk has its bit. -/
theorem get_const (h : Mirrors B Inv s env) {v : Bool} {o : ℕ} (hc : s.ctx.constWire v = some o) :
    env o = some v := by
  obtain ⟨g, hg, rfl, hop⟩ := h.chunk.const v o hc
  have hval := h.gates g hg
  have hbound := (h.bound g.out).mpr (h.chunk.lt g hg)
  obtain ⟨b, hb⟩ := Option.isSome_iff_exists.mp hbound
  rw [ClearEnv.get, hb, Option.getD_some] at hval
  rw [hb, hval]
  cases v <;> simp [Gate.value, hop, constOp]

/-! #### Flushes -/

/-- **A flush** changes no bit: what it materializes encodes the bits its gates had. -/
theorem flush (hsound : B.Sound Inv) (h : Mirrors B Inv s env) {keepIds : List ℕ}
    (hf : s.flush B keepIds = .ok s') : Mirrors B Inv s' env := by
  have hdrop : Mirrors B Inv { s with ctx := s.ctx.dropChunk } env :=
    ⟨h.proto, .dropChunk _, h.bound, by simp [AG2PCCtx.dropChunk], h.carried, h.batches⟩
  obtain ⟨-, ⟨-, rfl⟩ | ⟨-, plan, out, proto, rfl, hok, hall, hrun, rfl⟩⟩ := Session.flush_ok hf
  · exact hdrop
  · obtain ⟨ρ, H⟩ := planFlush_spec h.chunk.ordered keepIds s.isCarried
    obtain ⟨hinv, henc⟩ := hsound.runProgram _ _ _ _ _ _ _ h.proto (h.encodes_bundle hall)
      ((List.length_map _).trans H.numInputs.symm) hrun
    rw [H.eval h.chunk.ordered hok h.gates] at henc
    refine (hdrop.setProto hinv).carryLoad (fun id hid => ?_) henc
    -- an output is the output of a gate of the chunk
    have hlocal := (isLocal_iff h.chunk.ordered).mp ((H.mem_output id).mp hid).2
    obtain ⟨g, hg, rfl⟩ := List.mem_map.mp hlocal
    exact h.chunk.lt g hg

/-! #### Inputs -/

theorem groupOwners_group {xs : List ClearInput} (h : ∀ x ∈ xs, x.owner = .ALICE ∨ x.owner = .BOB) :
    groupOwners (xs.map ClearInput.group) = xs.map ClearInput.owner := by
  rw [groupOwners, List.map_map]
  refine List.map_congr_left fun x hx => ?_
  rcases h x hx with ho | ho <;> simp [ClearInput.group, ho, Owner.ofParty]

theorem value_group {x : ClearInput} (h : x.owner = .ALICE ∨ x.owner = .BOB) : x.group.value = x.value := by
  rcases h with ho | ho <;> simp [ClearInput.group, ClearInput.value, InputGroup.value, ho]

theorem length_value (x : ClearInput) : x.value.length = x.width := by
  unfold ClearInput.value ClearInput.width
  split
  · exact x.width_eq.symm
  · rfl

/-- The wires of a public input. -/
theorem encodes_public (Δ : Deltas) {x : ClearInput} (h : x.owner = .PUBLIC) :
    Encodes Δ (publicWires .alice Δ.d1 (encodeBits x.alice)) (publicWires .bob Δ.d2 (encodeBits x.bob)) x.value := by
  have henc := encodes_publicWires Δ (encodeBits x.alice)
  have hbits : (encodeBits x.alice).map truthy = x.value := by
    rw [encodeBits, List.map_map, ClearInput.value, h]
    exact (List.map_congr_left fun b _ => truthy_byteOf b).trans (List.map_id' _)
  rw [hbits] at henc
  rwa [x.public_eq h] at henc ⊢

/-- **Authenticating an input** makes an encoding of the owner's bits. -/
theorem authenticate (hsound : B.Sound Inv) (h : Mirrors B Inv s env) {x : ClearInput}
    {w : SecureWires × SecureWires} (ha : s.authenticate B x = .ok (w, s')) :
    Mirrors B Inv s' env ∧ Encodes B.Δ w.1 w.2 x.value ∧ s'.ctx = s.ctx := by
  rcases Session.authenticate_ok ha with ⟨hpub, rfl, rfl⟩ | ⟨howner, subs, proto, hrun, rfl, rfl⟩
  · exact ⟨h, encodes_public B.Δ hpub, rfl⟩
  · have howners := @groupOwners_group [x] (by simpa using howner)
    rw [List.map_singleton, List.map_singleton] at howners
    rw [← howners] at hrun
    obtain ⟨hinv, hgroups⟩ := hsound.processInputs [x.group] _ _ _ h.proto hrun
    refine ⟨h.setProto hinv, ?_, rfl⟩
    have hg := hgroups.group 0 (Nat.succ_pos _)
    rw [← value_group howner]
    exact hg

/-- The additions of a batch: reserved ids, with the bits their inputs have. -/
def AddsOk (env : ClearEnv) (n : ℕ) (adds : List BatchAdd) : Prop :=
  ∀ a ∈ adds, (∀ id ∈ a.ids, id < n) ∧ a.ids.map env.get = a.input.value

/-- The public additions are materialized, the others collected. -/
theorem finishPublic {adds sec : List BatchAdd} : ∀ {s s' : Session σ}, Mirrors B Inv s env →
    AddsOk env s.ctx.nextId adds → s.finishPublic B adds = .ok (sec, s') →
      Mirrors B Inv s' env ∧ s'.ctx = s.ctx ∧ AddsOk env s.ctx.nextId sec ∧
        ∀ a ∈ sec, a.input.owner = .ALICE ∨ a.input.owner = .BOB := by
  induction adds generalizing sec with
  | nil =>
    intro s s' h _ hf
    cases hf
    exact ⟨h, rfl, by simp [AddsOk], by simp⟩
  | cons a adds ih =>
    intro s s' h hadds hf
    obtain ⟨⟨hlt, hval⟩, hrest⟩ := List.forall_mem_cons.mp hadds
    unfold Session.finishPublic at hf
    have hsecret (howner : a.input.owner = .ALICE ∨ a.input.owner = .BOB)
        (hf : (s.finishPublic B adds >>= fun p => pure (a :: p.1, p.2)) = Except.ok (sec, s')) :
        Mirrors B Inv s' env ∧ s'.ctx = s.ctx ∧ AddsOk env s.ctx.nextId sec ∧
          ∀ a ∈ sec, a.input.owner = .ALICE ∨ a.input.owner = .BOB := by
      obtain ⟨⟨sec', s₁⟩, hloop, hret⟩ := bind_eq_ok hf
      cases hret
      obtain ⟨hm, hctx, hok, hown⟩ := ih h hrest hloop
      exact ⟨hm, hctx, List.forall_mem_cons.mpr ⟨⟨hlt, hval⟩, hok⟩, List.forall_mem_cons.mpr ⟨howner, hown⟩⟩
    split at hf
    · next howner =>
      obtain ⟨s₁, hmat, hloop⟩ := bind_eq_ok hf
      have henc := encodes_public B.Δ howner
      rw [← hval] at henc
      have hm₁ := h.materializeInto hlt henc hmat
      obtain ⟨-, -, rfl⟩ := Session.materializeInto_ok hmat
      have hend := ih hm₁ hrest hloop
      exact hend
    · next howner => exact hsecret (.inl howner) hf
    · next howner => exact hsecret (.inr howner) hf
    · cases hf

/-- The groups are materialized one by one. -/
theorem finishSecret {sec : List BatchAdd} {subs : List SecureWires × List SecureWires} {vals : List (List Bool)}
    (hgroups : GroupsEncode B.Δ subs vals) : ∀ {j : ℕ} {s s' : Session σ}, Mirrors B Inv s env →
      AddsOk env s.ctx.nextId sec → vals.drop j = sec.map (fun a => a.input.value) →
        s.finishSecret subs j sec = .ok s' → Mirrors B Inv s' env ∧ s'.ctx = s.ctx := by
  induction sec with
  | nil =>
    intro j s s' h _ _ hf
    cases hf
    exact ⟨h, rfl⟩
  | cons a sec ih =>
    intro j s s' h hadds hvals hf
    obtain ⟨⟨hlt, hval⟩, hrest⟩ := List.forall_mem_cons.mp hadds
    rw [List.map_cons] at hvals
    obtain ⟨hj, hget, hdrop⟩ := drop_eq_cons hvals []
    obtain ⟨s₁, hmat, hloop⟩ := bind_eq_ok hf
    have henc := hgroups.group j hj
    rw [hget, ← hval] at henc
    have hm₁ := h.materializeInto hlt henc hmat
    obtain ⟨-, -, rfl⟩ := Session.materializeInto_ok hmat
    have hend := ih hm₁ hrest hdrop hloop
    exact hend

/-- The additions collected for the input phase, as its groups. -/
theorem processInputs_section {st : σ} {sec : List BatchAdd}
    (h : ∀ a ∈ sec, a.input.owner = .ALICE ∨ a.input.owner = .BOB) :
    B.processInputs (sec.map fun a => a.input.owner) (sec.map fun a => encodeBits a.input.alice)
        (sec.map fun a => encodeBits a.input.bob) st =
      B.processInputs (groupOwners (sec.map fun a => a.input.group)) (groupBits (sec.map fun a => a.input.group) .alice)
        (groupBits (sec.map fun a => a.input.group) .bob) st := by
  have hg := @groupOwners_group (sec.map BatchAdd.input) (by
    intro x hx
    obtain ⟨a, ha, rfl⟩ := List.mem_map.mp hx
    exact h a ha)
  rw [List.map_map, List.map_map] at hg
  have howners : groupOwners (sec.map fun a => a.input.group) = sec.map fun a => a.input.owner := hg
  have halice : groupBits (sec.map fun a => a.input.group) .alice = sec.map fun a => encodeBits a.input.alice := by
    rw [groupBits, List.map_map]
    rfl
  have hbob : groupBits (sec.map fun a => a.input.group) .bob = sec.map fun a => encodeBits a.input.bob := by
    rw [groupBits, List.map_map]
    rfl
  rw [howners, halice, hbob]

/-- **Finishing a batch** makes encodings of the bits its ids are bound to. -/
theorem batchFinish_ (hsound : B.Sound Inv) (h : Mirrors B Inv s env) {adds : List BatchAdd}
    (hadds : AddsOk env s.ctx.nextId adds) (hf : s.batchFinish_ B adds = .ok s') : Mirrors B Inv s' env := by
  obtain ⟨⟨sec, s₁⟩, hpub, hf⟩ := bind_eq_ok hf
  obtain ⟨hm, hctx, hok, howners⟩ := h.finishPublic hadds hpub
  dsimp only at hf
  split at hf
  · cases hf
    exact hm
  · obtain ⟨⟨subs, proto⟩, hrun, hf⟩ := bind_eq_ok hf
    rw [processInputs_section howners] at hrun
    obtain ⟨hinv, hgroups⟩ := hsound.processInputs _ _ _ _ hm.proto hrun
    refine (finishSecret hgroups (j := 0) (hm.setProto hinv) (hctx ▸ hok) ?_ hf).1
    rw [List.drop_zero, List.map_map]
    exact List.map_congr_left fun a ha => value_group (howners a ha)

end Mirrors

end AG2PC
