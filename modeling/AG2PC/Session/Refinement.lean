import AG2PC.Backend.Reveal
import AG2PC.Session.MaskedOutputs

/-!
# The session refines the cleartext evaluation

Over a sound protocol every operation keeps the session and the cleartext bits together, and its result is what
the cleartext evaluation asks for, with one exception: `reveal` tells a non-recipient from a recipient by the number
of bytes `decode` returns, so at a value without wires both parties get the empty value.

* `Mirrors.step` — one operation.
* `session_refines` — whole runs: the results are right exactly when no empty value is revealed to one party.
-/

namespace AG2PC

open Library.XorAlgebra Library.ByIndex Library.Runs

/-! ### What a reveal returns -/

/-- The bytes carried by an encoding. -/
theorem carriedBytes_eq {Δ : Deltas} {w₁ w₂ : SecureWires} {x : List Bool} (h : Encodes Δ w₁ w₂ x) :
    carriedBytes w₁ w₂ x.length = encodeBits x := by
  unfold carriedBytes encodeBits
  refine List.ext_getElem (by simp) fun i hi _ => ?_
  rw [List.length_map, List.length_range] at hi
  rw [List.getElem_map, List.getElem_map, List.getElem_range, h.carriedBit hi, List.getD_eq_getElem?_getD,
    List.getElem?_eq_getElem hi, Option.getD_some]

/-- All bytes of a value are the value. -/
theorem revealResult_encodeBits (bits : List Bool) :
    Session.revealResult bits.length (encodeBits bits) = some bits := by
  unfold Session.revealResult encodeBits
  rw [if_neg (by rw [List.length_map]; simp), List.map_map]
  exact congrArg some ((List.map_congr_left fun b _ => truthy_byteOf b).trans (List.map_id' _))

/-- No bytes are no value, unless the value is empty. -/
theorem revealResult_nil (bits : List Bool) :
    Session.revealResult bits.length [] = none ↔ 0 < bits.length := by
  cases bits with
  | nil => simp [Session.revealResult]
  | cons b bits => simp [Session.revealResult]

/-- An operation that does not reveal a value without wires to one party only. -/
def SessionOp.RevealsWide : SessionOp → Prop
  | .reveal v recipient _ => 0 < v.length ∨ recipient = .PUBLIC
  | _ => True

/-- **The results of a decode** are those of the cleartext reveal exactly when the value has a wire, or is
revealed to both. -/
theorem revealResult_iff (recipient : Owner) (hrec : ∀ n, recipient ≠ .other n) (bits : List Bool) :
    (Session.revealResult bits.length (decodeResult recipient (encodeBits bits)).1,
        Session.revealResult bits.length (decodeResult recipient (encodeBits bits)).2) = clearReveal recipient bits ↔
      0 < bits.length ∨ recipient = .PUBLIC := by
  have hall := revealResult_encodeBits bits
  have hnil := revealResult_nil bits
  cases recipient with
  | PUBLIC => simp [decodeResult, clearReveal, hall]
  | ALICE => simp [decodeResult, clearReveal, hall, hnil]
  | BOB => simp [decodeResult, clearReveal, hall, hnil]
  | other n => exact absurd rfl (hrec n)

namespace Mirrors

variable {D σ : Type} {B : Backend D σ} {Inv : σ → Prop} {s s' : Session σ} {env : ClearEnv}

/-! ### The operations -/

/-- Names handed out for new bits are right. -/
theorem value_result (h : Mirrors B Inv s env) {op : SessionOp} {bits : List Bool}
    (hop : op.clearValue env = bits) : ClearResult env op (.value (List.range' s.ctx.nextId bits.length)) := by
  have hnames := h.names_fresh bits
  rw [← hop] at hnames ⊢
  cases op <;> exact hnames

/-- Materializing the bits an operation makes. -/
theorem materialized (h : Mirrors B Inv s env) {op : SessionOp} {ids : List ℕ} {w : SecureWires × SecureWires}
    (henc : Encodes B.Δ w.1 w.2 (op.clearValue env)) (hm : s.materialize w = .ok (ids, s')) :
    Mirrors B Inv s' (clearNext env op (.value ids)) ∧ ClearResult env op (.value ids) := by
  obtain ⟨rfl, hnext⟩ := h.materialize henc hm
  exact ⟨hnext, h.value_result rfl⟩

/-- A run of any kind, over an engine that is sound on its arguments. -/
theorem ran (h : Mirrors B Inv s env) {op : SessionOp} {args : List (List ℕ)} {ids : List ℕ}
    {engine : SecureWires → SecureWires → σ → Except String ((SecureWires × SecureWires) × σ)}
    (hrun : Session.RunOk s s' args ids engine)
    (hengine : ∀ w₁ w₂ out st', Encodes B.Δ w₁ w₂ (args.flatten.map env.get) → engine w₁ w₂ s.proto = .ok (out, st') →
      Inv st' ∧ Encodes B.Δ out.1 out.2 (op.clearValue env)) :
    Mirrors B Inv s' (clearNext env op (.value ids)) ∧ ClearResult env op (.value ids) := by
  obtain ⟨hall, out, proto, hran, hmat⟩ := hrun
  obtain ⟨hinv, henc⟩ := hengine _ _ _ _ (h.encodes_bundle hall) hran
  exact (h.setProto hinv).materialized henc hmat

/-- A recorded gate. -/
theorem recorded (h : Mirrors B Inv s env) {op : SessionOp} {g : Gate} {c₁ c' : AG2PCCtx}
    (hrec : AG2PCCtx.Records s.ctx c₁ g) (hnext : c'.nextId = c₁.nextId) (hgates : c'.chunkGates = c₁.chunkGates)
    (hchunk : ChunkOk c') (hval : op.clearValue env = [g.value env.get]) :
    Mirrors B Inv { s with ctx := c' } (clearNext env op (.value [g.out])) ∧
      ClearResult env op (.value [g.out]) := by
  have hnames := h.value_result hval
  have hrange : List.range' s.ctx.nextId [g.value env.get].length = [g.out] := by rw [hrec.out]; rfl
  rw [hrange] at hnames
  refine ⟨?_, hnames⟩
  rw [clearNext, hval]
  exact h.records hrec hnext hgates hchunk

/-- A constant, new or of this chunk. -/
theorem publicBit (h : Mirrors B Inv s env) {v : Bool} {o : ℕ} {c' : AG2PCCtx} (hc : s.ctx.publicBit v = .ok (o, c')) :
    Mirrors B Inv { s with ctx := c' } (clearNext env (.publicBit v) (.value [o])) ∧
      ClearResult env (.publicBit v) (.value [o]) := by
  have hchunk := h.chunk.publicBit hc
  rcases AG2PCCtx.publicBit_ok hc with ⟨hconst, rfl⟩ | ⟨hnone, c₁, hrec, rfl⟩
  · have hbit := h.get_const hconst
    refine ⟨?_, rfl, by simp, fun i hi => ?_⟩
    · have hsame : env.bind [o] [v] = env := Function.update_eq_self_iff.mpr hbit.symm
      rw [clearNext, SessionOp.clearValue, hsame]
      exact h
    · obtain rfl : i = 0 := Nat.lt_one_iff.mp hi
      exact .inr hbit
  · have hval : (SessionOp.publicBit v).clearValue env = [(⟨0, 0, o, constOp v⟩ : Gate).value env.get] := by
      cases v <;> rfl
    exact h.recorded hrec rfl rfl hchunk hval

/-- **A reveal** leaves the bits alone, and returns those of the value, at the right parties if it has a wire. -/
theorem reveal [DecidableEq D] (hsound : B.Sound Inv) (h : Mirrors B Inv s env) {v : List ℕ} {recipient : Owner}
    {keep : List (List ℕ)} {bits : List UInt8 × List UInt8} (hrec : ∀ n, recipient ≠ .other n)
    (hflush : s.flush B (v ++ keep.flatten) = .ok s') (hall : ∀ id ∈ v, s'.isCarried id = true)
    (hdecode : decode B.tool B.Δ (s'.carriedBundle v).1 (s'.carriedBundle v).2 recipient = .ok bits) :
    Mirrors B Inv s' env ∧
      (ClearResult env (.reveal v recipient keep)
        (.revealed (Session.revealResult v.length bits.1) (Session.revealResult v.length bits.2)) ↔
          0 < v.length ∨ recipient = .PUBLIC) := by
  have hm := h.flush hsound hflush
  have henc := hm.encodes_bundle hall
  have hopen := decode_ok B.tool henc.toSharesAgree recipient
  rw [carriedBytes_eq henc] at hopen
  rw [hopen] at hdecode
  cases hdecode
  have hiff := revealResult_iff recipient hrec (v.map env.get)
  rw [List.length_map] at hiff
  have hbound : ∀ id ∈ v, (env id).isSome := by
    intro id hid
    obtain ⟨c, hc, -⟩ := hm.carried_of_isCarried (hall id hid)
    exact (hm.bound id).mpr (hm.carried id c hc).1
  exact ⟨hm, (and_iff_right hbound).trans hiff⟩

/-- Other batches keep their additions, and a changed one has those given. -/
theorem setBatch (h : Mirrors B Inv s env) {b : ℕ} {batch : InputBatch} (hbatch : AddsOk env s.ctx.nextId batch.adds) :
    Mirrors B Inv { s with batches := s.batches.set b batch } env := by
  refine { h with batches := fun batch' hb' => ?_ }
  rcases List.mem_or_eq_of_mem_set hb' with hb' | rfl
  · exact h.batches batch' hb'
  · exact hbatch

/-- An addition to a batch reserves ids for the bits of the input. -/
theorem batchAdd (h : Mirrors B Inv s env) {b : ℕ} {x : ClearInput} {ids : List ℕ} (ha : s.batchAdd b x = .ok (ids, s')) :
    Mirrors B Inv s' (clearNext env (.batchAdd b x) (.value ids)) ∧
      ClearResult env (.batchAdd b x) (.value ids) := by
  obtain ⟨batch, hb, -, rfl, rfl⟩ := Session.batchAdd_ok ha
  have hlen := length_value x
  refine ⟨?_, ?_⟩
  · have hres := h.reserve hlen
    refine hres.setBatch (b := b) fun a hmem => ?_
    rcases List.mem_append.mp hmem with hmem | hmem
    · exact hres.batches batch (List.mem_of_getElem? hb) a hmem
    · obtain rfl := List.mem_singleton.mp hmem
      refine ⟨fun id hid => ?_, map_reserved hlen⟩
      obtain ⟨i, hi, rfl⟩ := List.mem_range'.mp hid
      dsimp only
      omega
  · rw [← hlen]
    exact h.value_result rfl

/-! ### One operation and runs -/

/-- **One operation** keeps the session and the bits together, and its result is right under the condition. -/
theorem step [DecidableEq D] (hsound : B.Sound Inv) (h : Mirrors B Inv s env) {op : SessionOp} {out : Output}
    (hs : Session.step B s op = .ok (out, s')) :
    Mirrors B Inv s' (clearNext env op out) ∧ (ClearResult env op out ↔ op.RevealsWide) := by
  have hvalue : ∀ {P Q : Prop}, P ∧ Q → P ∧ (Q ↔ True) := fun hpq => ⟨hpq.1, iff_true_intro hpq.2⟩
  cases Session.step_ok hs with
  | input hauth hmat =>
    obtain ⟨hm, henc, hctx⟩ := h.authenticate hsound hauth
    exact hvalue (hm.materialized henc hmat)
  | inputBatch =>
    refine ⟨{ h with batches := fun batch hb => ?_ }, Iff.rfl⟩
    rcases List.mem_append.mp hb with hb | hb
    · exact h.batches batch hb
    · rw [List.mem_singleton.mp hb]
      exact fun _ ha => absurd ha List.not_mem_nil
  | batchAdd hadd => exact hvalue (h.batchAdd hadd)
  | batchFinish hfin =>
    obtain ⟨batch, hb, -, hfin⟩ := Session.batchFinish_ok hfin
    have hadds : AddsOk env s.ctx.nextId batch.adds := h.batches batch (List.mem_of_getElem? hb)
    exact ⟨(@setBatch _ _ _ _ _ _ h _ { batch with finished := true } hadds).batchFinish_ hsound hadds hfin, Iff.rfl⟩
  | publicBit hbit => exact hvalue (h.publicBit hbit)
  | andGate hgate => exact hvalue (h.recorded (AG2PCCtx.andGate_ok hgate) rfl rfl (h.chunk.andGate hgate) rfl)
  | xorGate hgate => exact hvalue (h.recorded (AG2PCCtx.xorGate_ok hgate) rfl rfl (h.chunk.xorGate hgate) rfl)
  | notGate hgate => exact hvalue (h.recorded (AG2PCCtx.notGate_ok hgate) rfl rfl (h.chunk.notGate hgate) rfl)
  | runCircuit hwidth hran =>
    exact hvalue (h.ran hran fun w₁ w₂ out st' henc hr =>
      hsound.runProgram _ _ _ _ _ _ _ h.proto henc ((List.length_map _).trans hwidth) hr)
  | @runBody _ body _ _ hran =>
    exact hvalue (h.ran hran fun w₁ w₂ out st' henc hr =>
      hsound.runSource _ body _ _ _ _ _ _ h.proto henc (List.length_map _) hr)
  | runArtifact hwidth hran =>
    exact hvalue (h.ran hran fun w₁ w₂ out st' henc hr =>
      hsound.runProgram _ _ _ _ _ _ _ h.proto henc ((List.length_map _).trans hwidth) hr)
  | checkpoint hflush =>
    have hm := h.flush hsound hflush
    refine ⟨{ hm with carried := fun id c hc => ?_ }, Iff.rfl⟩
    dsimp only at hc
    split at hc
    · exact hm.carried id c hc
    · cases hc
  | reveal hrec hflush hall hdecode => exact h.reveal hsound hrec hflush hall hdecode

end Mirrors

/-- **The session refines the cleartext evaluation.** In every run over a sound protocol that raises no error, every
value gets the names and every reveal returns the bits that the cleartext evaluation of the same operations gives, at
the recipients, and nothing at the other party, exactly when no operation reveals a value without wires to one party
only. -/
theorem session_refines {D σ : Type} [DecidableEq D] {B : Backend D σ} {Inv : σ → Prop} {st : σ} {ops : List SessionOp}
    {outs : List Output} {s' : Session σ} (hsound : B.Sound Inv) (hst : Inv st)
    (hrun : run (Session.step B) (Session.start st) ops = .ok (outs, s')) :
    Agrees clearNext ClearResult (fun _ => none) ops outs ↔ ∀ op ∈ ops, op.RevealsWide :=
  have hstep : ∀ s env op out s', Mirrors B Inv s env → Session.step B s op = .ok (out, s') →
      Mirrors B Inv s' (clearNext env op out) ∧ (ClearResult env op out ↔ op.RevealsWide) :=
    fun _ _ _ _ _ h hs => h.step hsound hs
  (run_simulates hstep (Mirrors.start hst) hrun).2

/-! ### Two short sessions -/

/-- The guarded engine of an execution in which every share and every random value is zero. -/
def zerosBackend : Backend (List Block) ProtoState := (Backend.real Setup.zeros).guarded

/-- The conjunction of two inputs, kept at a reveal and then revealed to one party. -/
def conjunctionSession : List SessionOp :=
  [.input (.secret .alice [(true, false)]), .input (.secret .bob [(false, true)]), .andGate 0 1,
    .reveal [0] .ALICE [[2]], .reveal [2] .BOB []]

/-- It returns the garbler's input to the garbler, and the conjunction to the evaluator. -/
theorem session_refines_conjunction :
    ∃ outs s', run (Session.step zerosBackend) (Session.start {}) conjunctionSession = .ok (outs, s') ∧
      outs = [.value [0], .value [1], .value [2], .revealed (some [true]) none, .revealed none (some [true])] ∧
      (Agrees clearNext ClearResult (fun _ => none) conjunctionSession outs ↔
        ∀ op ∈ conjunctionSession, op.RevealsWide) := by
  have houts : (run (Session.step zerosBackend) (Session.start {}) conjunctionSession).toOption.map Prod.fst =
      some [.value [0], .value [1], .value [2], .revealed (some [true]) none, .revealed none (some [true])] := by
    decide +kernel
  cases hrun : run (Session.step zerosBackend) (Session.start {}) conjunctionSession with
  | error e =>
    rw [hrun] at houts
    cases houts
  | ok p =>
    rw [hrun] at houts
    have hsound : zerosBackend.Sound PoolsInStep := @guarded_sound _ _ Setup.zeros (.zeros (.init 0 0)) rfl rfl
    have hst : PoolsInStep {} := rfl
    exact ⟨p.1, p.2, rfl, Option.some.inj houts, session_refines hsound hst hrun⟩

/-- An input without wires, revealed to the garbler. -/
def emptySession : List SessionOp := [.input (.secret .alice []), .reveal [] .ALICE []]

/-- The evaluator gets the empty value too. -/
theorem reveal_empty_to_both :
    (run (Session.step (.real Setup.zeros)) (Session.start {}) emptySession).toOption.map Prod.fst =
        some [.value [], .revealed (some []) (some [])] ∧
      ¬ Agrees clearNext ClearResult (fun _ => none) emptySession [.value [], .revealed (some []) (some [])] := by
  refine ⟨by decide, ?_⟩
  rintro ⟨-, ⟨-, h⟩, -⟩
  cases h

end AG2PC
