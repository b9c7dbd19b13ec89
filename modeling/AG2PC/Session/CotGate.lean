import AG2PC.Session.MaskAgreement

/-!
# The COT check and the reveals

The engine checks the COTs when a run ends, and nothing else does: `reveal` decodes after its flush, which runs the
engine only when an id it keeps is pending. So the shares of an input are checked before a decode exactly when some
engine run comes between them.

* `uncheckedInput` — whether a session has authenticated an input since its last engine run.
* `minted_step` — one operation and the pools.
* `revealFlush_checked_iff` — the state in which `decode` is called, in every session.
-/

namespace AG2PC

open Library.Runs

/-! ### Operations that mint shares -/

/-- An input that takes part in `process_inputs` with a wire. -/
def ClearInput.drawsShares (x : ClearInput) : Bool := (x.owner == .ALICE || x.owner == .BOB) && decide (0 < x.width)

theorem ClearInput.drawsShares_of_owner {x : ClearInput} (h : x.owner = .ALICE ∨ x.owner = .BOB) :
    x.drawsShares = decide (0 < (encodeBits x.alice).length) := by
  have hlen : (encodeBits x.alice).length = x.width := List.length_map _
  rw [hlen]
  unfold drawsShares
  rcases h with h | h <;> rw [h] <;> rfl

/-- The operation authenticates an input of the garbler or of the evaluator. -/
def Session.mintsShares {σ : Type} (s : Session σ) : SessionOp → Bool
  | .input x => x.drawsShares
  | .batchFinish b =>
    match s.batches[b]? with
    | some batch => batch.adds.any fun a => a.input.drawsShares
    | none => false
  | _ => false

/-- Whether shares are unchecked after the operation, `d` saying so of the state before it. -/
def Session.uncheckedAfter {σ : Type} (s : Session σ) (d : Bool) (op : SessionOp) : Bool :=
  if (s.engineCall op).isSome then false else d || s.mintsShares op

/-- **Whether a session has authenticated an input since its last engine run**: its operations one by one, from
state `s` on, in which `d` says so already. -/
def uncheckedInput {D σ : Type} [DecidableEq D] (B : Backend D σ) : Session σ → Bool → List SessionOp → Bool
  | _, d, [] => d
  | s, d, op :: ops =>
    match Session.step B s op with
    | .error _ => d
    | .ok (_, s') => uncheckedInput B s' (s.uncheckedAfter d op) ops

/-! ### The pools -/

/-- Both pools have unchecked shares, or neither. -/
def Minted (st : ProtoState) (d : Bool) : Prop :=
  st.pool₁.cotsMintedSinceCheck = d ∧ st.pool₂.cotsMintedSinceCheck = d

section

variable {D : Type} [DecidableEq D] {S : Setup D} {st st' : ProtoState} {d : Bool}

/-- The input phase mints when there is a wire. -/
theorem processInputs_minted {owners : List Owner} {bits₁ bits₂ : List (List UInt8)}
    {subs : List SecureWires × List SecureWires} (h : Minted st d)
    (hrun : (Backend.real S).processInputs owners bits₁ bits₂ st = .ok (subs, st')) :
    Minted st' (d || decide (0 < bits₁.flatten.length)) := by
  obtain ⟨_, -, hrun⟩ := bind_eq_ok hrun
  obtain ⟨_, -, hrun⟩ := bind_eq_ok hrun
  rw [inputTotal_eq] at hrun
  dsimp only at hrun
  split at hrun
  · next h0 =>
    cases hrun
    simpa [h0] using h
  · next h0 =>
    obtain ⟨Lambda₁, -, hrun⟩ := bind_eq_ok hrun
    obtain ⟨Lambda₂, -, hrun⟩ := bind_eq_ok hrun
    cases hrun
    rw [decide_eq_true (Nat.pos_of_ne_zero h0), Bool.or_true]
    exact ⟨rfl, rfl⟩

/-- The engine checks. -/
theorem runSource_minted {source : Body (List ℕ)} {w₁ w₂ : SecureWires} {out : SecureWires × SecureWires}
    (hrun : runSource S source w₁ w₂ st = .ok (out, st')) : Minted st' false := by
  obtain ⟨⟨σ, t⟩, -, hrun⟩ := bind_eq_ok hrun
  obtain ⟨mem, -, hret⟩ := bind_eq_ok hrun
  cases hret
  exact ⟨TriplePool.maybeFlushCotCheck_minted _, TriplePool.maybeFlushCotCheck_minted _⟩

theorem runProgram_minted {prog : BooleanProgram} {w₁ w₂ : SecureWires} {out : SecureWires × SecureWires}
    (hrun : runProgram S prog w₁ w₂ st = .ok (out, st')) : Minted st' false := by
  obtain ⟨_, -, hrun⟩ := bind_eq_ok hrun
  obtain ⟨_, -, hrun⟩ := bind_eq_ok hrun
  obtain ⟨_, -, hrun⟩ := bind_eq_ok hrun
  split at hrun
  · cases hrun
  · exact runSource_minted hrun

end

/-! ### One operation -/

section

variable {D : Type} [DecidableEq D] {S : Setup D} {s s' : Session ProtoState} {d : Bool}

/-- Materializing leaves the pools alone. -/
theorem materialize_proto {σ : Type} {s s' : Session σ} {ids : List ℕ} {w : SecureWires × SecureWires}
    (h : s.materialize w = .ok (ids, s')) : s'.proto = s.proto := by
  obtain ⟨-, -, rfl⟩ := Session.materialize_ok h
  rfl

/-- The additions collected for the input phase are those with an owner. -/
theorem finishPublic_collects {adds sec : List BatchAdd} : ∀ {s s' : Session ProtoState},
    s.finishPublic (.real S) adds = .ok (sec, s') →
      s'.proto = s.proto ∧ (∀ a ∈ sec, a.input.owner = .ALICE ∨ a.input.owner = .BOB) ∧
        (sec.any fun a => a.input.drawsShares) = adds.any fun a => a.input.drawsShares := by
  induction adds generalizing sec with
  | nil =>
    intro s s' h
    cases h
    exact ⟨rfl, fun _ ha => absurd ha List.not_mem_nil, rfl⟩
  | cons a adds ih =>
    intro s s' h
    unfold Session.finishPublic at h
    have hsecret (howner : a.input.owner = .ALICE ∨ a.input.owner = .BOB)
        (h : (s.finishPublic (.real S) adds >>= fun p => pure (a :: p.1, p.2)) = Except.ok (sec, s')) :
        s'.proto = s.proto ∧ (∀ a ∈ sec, a.input.owner = .ALICE ∨ a.input.owner = .BOB) ∧
          (sec.any fun a => a.input.drawsShares) = (a :: adds).any fun a => a.input.drawsShares := by
      obtain ⟨⟨sec', s₁⟩, hloop, hret⟩ := bind_eq_ok h
      cases hret
      obtain ⟨hproto, howners, hany⟩ := ih hloop
      exact ⟨hproto, List.forall_mem_cons.mpr ⟨howner, howners⟩, by rw [List.any_cons, List.any_cons, hany]⟩
    split at h
    · next howner =>
      obtain ⟨s₁, hmat, hloop⟩ := bind_eq_ok h
      obtain ⟨-, -, rfl⟩ := Session.materializeInto_ok hmat
      obtain ⟨hproto, howners, hany⟩ := ih hloop
      have hno : a.input.drawsShares = false := by simp [ClearInput.drawsShares, howner]
      exact ⟨hproto, howners, by rw [List.any_cons, hno, Bool.false_or, hany]⟩
    · next howner => exact hsecret (.inl howner) h
    · next howner => exact hsecret (.inr howner) h
    · cases h

/-- Additions with an owner have a wire between them when one of them does. -/
theorem sectionWidth_pos {sec : List BatchAdd} (h : ∀ a ∈ sec, a.input.owner = .ALICE ∨ a.input.owner = .BOB) :
    decide (0 < (sec.map fun a => encodeBits a.input.alice).flatten.length) = sec.any fun a => a.input.drawsShares := by
  induction sec with
  | nil => rfl
  | cons a sec ih =>
    obtain ⟨ha, hrest⟩ := List.forall_mem_cons.mp h
    rw [List.any_cons, ← ih hrest, ClearInput.drawsShares_of_owner ha, List.map_cons, List.flatten_cons, List.length_append,
      ← Bool.decide_or, decide_eq_decide]
    omega

/-- The groups are materialized and nothing else happens. -/
theorem finishSecret_proto {sec : List BatchAdd} {subs : List SecureWires × List SecureWires} :
    ∀ {j : ℕ} {s s' : Session ProtoState}, s.finishSecret subs j sec = .ok s' → s'.proto = s.proto := by
  induction sec with
  | nil =>
    intro j s s' h
    cases h
    rfl
  | cons a sec ih =>
    intro j s s' h
    obtain ⟨s₁, hmat, hloop⟩ := bind_eq_ok h
    obtain ⟨-, -, rfl⟩ := Session.materializeInto_ok hmat
    have hend := ih hloop
    exact hend

/-- A finished batch has minted when one of its inputs has an owner and a wire. -/
theorem batchFinish_minted {b : ℕ} (h : Minted s.proto d) (hf : s.batchFinish (.real S) b = .ok s') :
    Minted s'.proto (d || s.mintsShares (.batchFinish b)) := by
  obtain ⟨batch, hb, -, hf⟩ := Session.batchFinish_ok hf
  obtain ⟨⟨sec, s₁⟩, hpub, hf⟩ := bind_eq_ok hf
  obtain ⟨hproto, howners, hany⟩ := finishPublic_collects hpub
  have hmints : s.mintsShares (.batchFinish b) = sec.any fun a => a.input.drawsShares := by
    rw [hany, Session.mintsShares, hb]
  rw [hmints]
  dsimp only at hf hproto
  split at hf
  · next hempty =>
    cases hf
    rw [List.isEmpty_iff.mp hempty, List.any_nil, Bool.or_false, hproto]
    exact h
  · obtain ⟨⟨subs, proto⟩, hrun, hf⟩ := bind_eq_ok hf
    rw [← hproto] at h
    have hm := processInputs_minted h hrun
    rw [sectionWidth_pos howners] at hm
    rw [finishSecret_proto hf]
    exact hm

/-- An input has minted when it has an owner and a wire. -/
theorem input_minted {x : ClearInput} {w : SecureWires × SecureWires} {s₁ : Session ProtoState} {ids : List ℕ}
    (h : Minted s.proto d) (hauth : s.authenticate (.real S) x = .ok (w, s₁))
    (hmat : s₁.materialize w = .ok (ids, s')) : Minted s'.proto (d || x.drawsShares) := by
  rw [materialize_proto hmat]
  rcases Session.authenticate_ok hauth with ⟨hpub, rfl, rfl⟩ | ⟨howner, subs, proto, hrun, rfl, rfl⟩
  · have hno : x.drawsShares = false := by simp [ClearInput.drawsShares, hpub]
    rw [hno, Bool.or_false]
    exact h
  · have hm := processInputs_minted h hrun
    rw [List.flatten_singleton] at hm
    rw [ClearInput.drawsShares_of_owner howner]
    exact hm

/-- A run of any kind checks. -/
theorem runOk_minted {args : List (List ℕ)} {ids : List ℕ}
    {engine : SecureWires → SecureWires → ProtoState → Except String ((SecureWires × SecureWires) × ProtoState)}
    (hengine : ∀ {w₁ w₂ : SecureWires} {st st' : ProtoState} {out : SecureWires × SecureWires},
      engine w₁ w₂ st = .ok (out, st') → Minted st' false)
    (hr : Session.RunOk s s' args ids engine) : Minted s'.proto false := by
  obtain ⟨-, out, proto, hrun, hmat⟩ := hr
  rw [materialize_proto hmat]
  exact hengine hrun

/-- A flush checks when it runs the engine. -/
theorem flush_minted {keepIds : List ℕ} (h : Minted s.proto d) (hf : s.flush (.real S) keepIds = .ok s') :
    Minted s'.proto (if (s.flushCall keepIds).isSome then false else d) := by
  obtain ⟨-, ⟨hnone, rfl⟩ | ⟨hsome, plan, out, proto, rfl, -, -, hrun, rfl⟩⟩ := Session.flush_ok hf
  · have hany : keepIds.any s.ctx.isPending = false := by
      rw [List.any_eq_false]
      intro id hid
      simpa [AG2PCCtx.isPending] using hnone id hid
    rw [Session.flushCall, hany]
    exact h
  · rw [flushCall_pending hsome]
    exact runProgram_minted hrun

/-- **One operation and the pools.** -/
theorem minted_step {op : SessionOp} {out : Output} (h : Minted s.proto d)
    (hs : Session.step (.real S) s op = .ok (out, s')) : Minted s'.proto (s.uncheckedAfter d op) := by
  unfold Session.uncheckedAfter
  cases Session.step_ok hs with
  | input hauth hmat => exact input_minted h hauth hmat
  | batchFinish hfin => exact batchFinish_minted h hfin
  | runCircuit hwidth hran => exact runOk_minted runProgram_minted hran
  | runBody hran => exact runOk_minted runSource_minted hran
  | runArtifact hwidth hran => exact runOk_minted runProgram_minted hran
  | checkpoint hflush => simpa [Session.mintsShares, Session.engineCall] using flush_minted h hflush
  | reveal hrec hflush hall hdecode => simpa [Session.mintsShares, Session.engineCall] using flush_minted h hflush
  | batchAdd hadd =>
    obtain ⟨batch, -, -, -, rfl⟩ := Session.batchAdd_ok hadd
    simpa [Session.mintsShares, Session.engineCall] using h
  | inputBatch | publicBit hbit | andGate hgate | xorGate hgate | notGate hgate =>
    simpa [Session.mintsShares, Session.engineCall] using h

/-- **Runs and the pools.** -/
theorem minted_run {ops : List SessionOp} : ∀ {s t : Session ProtoState} {d : Bool}, Minted s.proto d →
    Reaches (Session.step (.real S)) s ops t → Minted t.proto (uncheckedInput (.real S) s d ops) := by
  induction ops with
  | nil =>
    intro s t d h hr
    obtain rfl := reaches_nil.mp hr
    exact h
  | cons op ops ih =>
    intro s t d h hr
    obtain ⟨out, s₁, hs, hrest⟩ := reaches_cons.mp hr
    unfold uncheckedInput
    rw [hs]
    exact ih (minted_step h hs) hrest

/-- **The COT check at the reveals**: in every session, when a reveal calls `decode`, no party has minted a share
since its last check, exactly when the reveal itself has run the engine, an id it names being pending, or no input
with a wire has been authenticated since the last engine run. -/
theorem revealFlush_checked_iff {pre : List SessionOp} {t t' : Session ProtoState} {v : List ℕ} {recipient : Owner}
    {keep : List (List ℕ)} {w : SecureWires × SecureWires}
    (hpre : Reaches (Session.step (.real S)) (Session.start {}) pre t)
    (hreveal : t.revealFlush (.real S) v recipient keep = .ok (w, t')) :
    (t'.proto.pool₁.cotsMintedSinceCheck = false ∧ t'.proto.pool₂.cotsMintedSinceCheck = false) ↔
      (∃ id ∈ v ++ keep.flatten, id ∈ t.ctx.pending) ∨
        uncheckedInput (.real S) (Session.start {}) false pre = false := by
  have hstart : Minted (Session.start ({} : ProtoState)).proto false := ⟨rfl, rfl⟩
  obtain ⟨-, hf, -, -⟩ := Session.revealFlush_ok hreveal
  obtain ⟨h₁, h₂⟩ := flush_minted (minted_run hstart hpre) hf
  rw [h₁, h₂, and_self]
  by_cases hpend : ∃ id ∈ v ++ keep.flatten, id ∈ t.ctx.pending
  · rw [flushCall_pending hpend]
    exact iff_of_true rfl (.inl hpend)
  · have hnone : t.flushCall (v ++ keep.flatten) = none := by
      have hany : (v ++ keep.flatten).any t.ctx.isPending = false := by
        rw [List.any_eq_false]
        intro id hid hp
        exact hpend ⟨id, hid, by simpa [AG2PCCtx.isPending] using hp⟩
      rw [Session.flushCall, hany]
      rfl
    rw [hnone]
    exact (or_iff_right hpend).symm

end

/-! ### An input revealed at once -/

/-- The garbler's input of one bit. -/
def oneInput : List SessionOp := [.input (.secret .alice [(true, false)])]

/-- The pools' flags in the state in which a reveal after `ops` calls `decode`. -/
def flagsAtDecode (ops : List SessionOp) (v : List ℕ) (recipient : Owner) : Option (Bool × Bool) :=
  match run (Session.step (.real Setup.zeros)) (Session.start {}) ops with
  | .ok (_, t) =>
    match t.revealFlush (.real Setup.zeros) v recipient [] with
    | .ok (_, t') => some (t'.proto.pool₁.cotsMintedSinceCheck, t'.proto.pool₂.cotsMintedSinceCheck)
    | .error _ => none
  | .error _ => none

theorem flagsAtDecode_eq {ops : List SessionOp} {v : List ℕ} {recipient : Owner} {f : Bool × Bool}
    (h : flagsAtDecode ops v recipient = some f) :
    ∃ t w t', Reaches (Session.step (.real Setup.zeros)) (Session.start {}) ops t ∧
      t.revealFlush (.real Setup.zeros) v recipient [] = .ok (w, t') ∧
      t'.proto.pool₁.cotsMintedSinceCheck = f.1 ∧ t'.proto.pool₂.cotsMintedSinceCheck = f.2 := by
  unfold flagsAtDecode at h
  split at h
  · next outs t hrun =>
    split at h
    · next w t' hflush =>
      cases h
      exact ⟨t, w, t', ⟨outs, hrun⟩, hflush, rfl, rfl⟩
    · cases h
  · cases h

/-- **Its shares are unchecked** when the value is opened to both parties. -/
theorem revealFlush_unchecked_input :
    (∃ t w t', Reaches (Session.step (.real Setup.zeros)) (Session.start {}) oneInput t ∧
        t.revealFlush (.real Setup.zeros) [0] .PUBLIC [] = .ok (w, t') ∧
        t'.proto.pool₁.cotsMintedSinceCheck = true ∧ t'.proto.pool₂.cotsMintedSinceCheck = true) ∧
      (run (Session.step (.real Setup.zeros)) (Session.start {})
          (oneInput ++ [.reveal [0] .PUBLIC []])).toOption.map Prod.fst =
        some [.value [0], .revealed (some [true]) (some [true])] := by
  have hflags : flagsAtDecode oneInput [0] .PUBLIC = some (true, true) := by decide +kernel
  exact ⟨flagsAtDecode_eq hflags, by decide +kernel⟩

/-- The equivalence there. -/
theorem revealFlush_checked_iff_input :
    ∃ t w t', Reaches (Session.step (.real Setup.zeros)) (Session.start {}) oneInput t ∧
      t.revealFlush (.real Setup.zeros) [0] .PUBLIC [] = .ok (w, t') ∧
      ((t'.proto.pool₁.cotsMintedSinceCheck = false ∧ t'.proto.pool₂.cotsMintedSinceCheck = false) ↔
        (∃ id ∈ [0] ++ ([] : List (List ℕ)).flatten, id ∈ t.ctx.pending) ∨
          uncheckedInput (.real Setup.zeros) (Session.start {}) false oneInput = false) := by
  have hflags : flagsAtDecode oneInput [0] .PUBLIC = some (true, true) := by decide +kernel
  obtain ⟨t, w, t', hrun, hflush, -, -⟩ := flagsAtDecode_eq hflags
  exact ⟨t, w, t', hrun, hflush, revealFlush_checked_iff hrun hflush⟩

end AG2PC
