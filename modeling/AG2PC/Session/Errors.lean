import AG2PC.Session.Steps

/-!
# Stale and unflushed wires

When `flush_`, `reveal`, `checkpoint` and the runs raise the errors about wires without carried state. The session
checks every named id before any crypto runs, and the planner checks the operands of the gates it retains, so that
`gather_carried_` has nothing left to find.

* `flush_raises_iff` — the two stale errors of a flush.
* `reveal_raises_iff`, `checkpoint_raises_iff` — the operations that flush.
* `appendArgs_error_iff` — the error of the runs.
* `flush_isCarried`, `checkpoint_isCarried` — the keys of the carried map afterwards.
-/

namespace AG2PC

open Library.ByIndex

/-! ### The texts -/

/-- The errors of `flush_` about a stale wire. -/
def staleErrors : List String :=
  ["AG2PCSession: keep/reveal wire is stale", "AG2PCSession::flush: gate operand has no carried state (stale wire)"]

/-- The error of `gather_carried_`. -/
def gatherError : String := "AG2PCSession: wire has no carried state (stale, or unflushed pending wire)"

/-- The error of `append_arg_`. -/
def unflushedError : String :=
  "AG2PCSession::run: argument is unflushed — checkpoint it first; cross-mode mixing not yet supported"

/-- The errors of the engine and of `decode`. -/
def protocolErrors : List String :=
  ["validate_program", "ag2pc: program is not RecordContext-canonical (gate out != num_inputs + i)",
    "ag2pc: program has duplicate constant gates (pass contexts dedup public_bit)",
    "AG2PC run_program inputs: SecureWires wire_bundle length != Lambda length",
    "AG2PC run_program inputs: garbler SecureWires label0 length != Lambda length",
    "AG2PC run_program inputs: evaluator SecureWires eval_label length != Lambda length",
    "run_program: input bundle width != program num_inputs", "F_eq: commit-open mismatch",
    "LaAND F_eq: leaky-AND check failed", "lambda c_gamma check failed",
    "AG2PC decode: SecureWires wire_bundle length != Lambda length",
    "AG2PC decode: garbler SecureWires label0 length != Lambda length",
    "AG2PC decode: evaluator SecureWires eval_label length != Lambda length", "decode: peer share-MAC hash mismatch"]

/-- The other errors of the runs and of the materialization of their outputs. -/
def runErrors : List String :=
  ["AG2PCSession::run: total argument width != circuit input count",
    "AG2PCSession::run_artifact: total argument width != program num_inputs",
    "AG2PCSession::run_artifact: RetV width != program output count", "AG2PCSession: materialize width mismatch",
    "AG2PCCtx: recorder wire id overflow"]

/-- A call fails with one of the errors. -/
def Raises {α : Type} (r : Except String α) (errors : List String) : Prop := ∃ e ∈ errors, r = .error e

/-! ### What the protocol below raises -/

section

variable {D : Type} [DecidableEq D] {S : Setup D} {e : String}

theorem check_error {w : SecureWires} {party : Party} {place : String} (h : w.check party place = .error e) :
    e ∈ ["AG2PC " ++ place ++ ": SecureWires wire_bundle length != Lambda length",
      "AG2PC " ++ place ++ ": garbler SecureWires label0 length != Lambda length",
      "AG2PC " ++ place ++ ": evaluator SecureWires eval_label length != Lambda length"] := by
  unfold SecureWires.check at h
  split at h
  · cases h
    exact List.mem_cons_self
  · split at h
    · split at h
      · cases h
        exact List.mem_cons_of_mem _ List.mem_cons_self
      · cases h
        exact List.mem_cons_of_mem _ (List.mem_cons_of_mem _ List.mem_cons_self)
    · cases h

/-- A check of the inputs of a program. -/
theorem check_run_error {w : SecureWires} {party : Party} (h : w.check party "run_program inputs" = .error e) :
    e ∈ protocolErrors := by
  have hmem := check_error h
  have hsub : ∀ t ∈ ["AG2PC " ++ "run_program inputs" ++ ": SecureWires wire_bundle length != Lambda length",
      "AG2PC " ++ "run_program inputs" ++ ": garbler SecureWires label0 length != Lambda length",
      "AG2PC " ++ "run_program inputs" ++ ": evaluator SecureWires eval_label length != Lambda length"],
      t ∈ protocolErrors := by decide
  exact hsub e hmem

/-- A check of the wires to decode. -/
theorem check_decode_error {w : SecureWires} {party : Party} (h : w.check party "decode" = .error e) :
    e ∈ protocolErrors := by
  have hmem := check_error h
  have hsub : ∀ t ∈ ["AG2PC " ++ "decode" ++ ": SecureWires wire_bundle length != Lambda length",
      "AG2PC " ++ "decode" ++ ": garbler SecureWires label0 length != Lambda length",
      "AG2PC " ++ "decode" ++ ": evaluator SecureWires eval_label length != Lambda length"],
      t ∈ protocolErrors := by decide
  exact hsub e hmem

theorem requireRecordCanonical_error {p : BooleanProgram} (h : ag2pcRequireRecordCanonical p = .error e) :
    e ∈ protocolErrors := by
  rcases bind_eq_error h with h | ⟨_, -, h⟩
  · unfold validateProgram at h
    split at h
    · cases h
    · cases h
      decide
  · split at h
    · cases h
      decide
    · split at h
      · cases h
        decide
      · cases h

theorem computeInplace_error {E : EmpTool D} {Δ : Deltas} {cot₁ cot₂ : ℕ → AShareBundle} {ssp : ℕ} {raw : ℕ → ℕ}
    {nonce : Block} {n : ℕ} {repA₁ repB₁ repA₂ repB₂ : ℕ → AShareBundle} {t₁ t₂ : TriplePool}
    (h : computeInplace E Δ cot₁ cot₂ ssp raw nonce n repA₁ repB₁ repA₂ repB₂ t₁ t₂ = .error e) :
    e ∈ protocolErrors := by
  unfold computeInplace computeInplaceWith at h
  split at h
  · cases h
  · rcases bind_eq_error h with h | ⟨_, -, h⟩
    · rcases bind_eq_error h with h | ⟨_, -, h⟩
      · unfold feqCheck₁ at h
        split at h
        · cases h
          decide
        · cases h
      · unfold feqCheck₂ at h
        split at h
        · cases h
          decide
        · split at h
          · cases h
            decide
          · cases h
    · cases h

/-- **What a run on a source raises.** -/
theorem runSource_error {source : Body (List ℕ)} {w₁ w₂ : SecureWires} {st : ProtoState}
    (h : runSource S source w₁ w₂ st = .error e) : e ∈ protocolErrors := by
  rcases bind_eq_error h with h | ⟨_, -, h⟩
  · exact computeInplace_error h
  · rcases bind_eq_error h with h | ⟨_, -, h⟩
    · unfold gammaExchange at h
      split at h
      · rcases bind_eq_error h with h | ⟨_, -, h⟩
        · unfold evaluatorCheck at h
          split at h
          · cases h
            decide
          · cases h
        · cases h
      · cases h
    · cases h

/-- **What a run of a program raises.** -/
theorem runProgram_error {prog : BooleanProgram} {w₁ w₂ : SecureWires} {st : ProtoState}
    (h : runProgram S prog w₁ w₂ st = .error e) : e ∈ protocolErrors := by
  rcases bind_eq_error h with h | ⟨_, -, h⟩
  · exact requireRecordCanonical_error h
  rcases bind_eq_error h with h | ⟨_, -, h⟩
  · exact check_run_error h
  rcases bind_eq_error h with h | ⟨_, -, h⟩
  · exact check_run_error h
  split at h
  · cases h
    decide
  · exact runSource_error h

theorem decodeReceive_error {E : EmpTool D} {δ : Block} {w : SecureWires} {m : OpenMsg D}
    (h : decodeReceive E δ w m = .error e) : e ∈ protocolErrors := by
  unfold decodeReceive at h
  split at h
  · cases h
    decide
  · cases h

/-- **What a decode raises.** -/
theorem decode_error {E : EmpTool D} {Δ : Deltas} {w₁ w₂ : SecureWires} {recipient : Owner}
    (h : decode E Δ w₁ w₂ recipient = .error e) : e ∈ protocolErrors := by
  rcases bind_eq_error h with h | ⟨_, -, h⟩
  · exact check_decode_error h
  rcases bind_eq_error h with h | ⟨_, -, h⟩
  · exact check_decode_error h
  cases recipient with
  | PUBLIC =>
    rcases bind_eq_error h with h | ⟨_, -, h⟩
    · rcases bind_eq_error h with h | ⟨_, -, h⟩
      · exact check_decode_error h
      · exact decodeReceive_error h
    · rcases bind_eq_error h with h | ⟨_, -, h⟩
      · rcases bind_eq_error h with h | ⟨_, -, h⟩
        · exact check_decode_error h
        · cases h
      · cases h
  | ALICE =>
    rcases bind_eq_error h with h | ⟨_, -, h⟩
    · exact decodeReceive_error h
    · cases h
  | BOB =>
    rcases bind_eq_error h with h | ⟨_, -, h⟩
    · exact decodeReceive_error h
    · cases h
  | other n => cases h

/-- The errors of the protocol are not about stale or unflushed wires. -/
theorem protocolErrors_other (h : e ∈ protocolErrors) : e ∉ staleErrors ∧ e ≠ gatherError ∧ e ≠ unflushedError := by
  have hall : ∀ t ∈ protocolErrors, t ∉ staleErrors ∧ t ≠ gatherError ∧ t ≠ unflushedError := by decide
  exact hall e h

end

/-! ### Flushes -/

namespace Session

section

variable {σ : Type} (s : Session σ)

/-- A wire with a value to use: pending in the chunk, or materialized. -/
def IsLive (id : ℕ) : Prop := id ∈ s.ctx.pending ∨ s.isCarried id = true

/-- **A flush that keeps `ids` meets a stale wire**: a named id is not live, or an operand of a gate that a named
pending id needs. -/
def MeetsStale (ids : List ℕ) : Prop :=
  (∃ id ∈ ids, ¬ s.IsLive id) ∨
    ∃ g ∈ s.ctx.chunkGates, NeededId s.ctx.chunkGates ids g.out ∧ ∃ w ∈ g.srcs, ¬ s.IsLive w

end

/-- Nothing is needed unless a keep id is pending. -/
theorem exists_keep_of_needed {gates : List Gate} {ids : List ℕ} {id : ℕ} (h : NeededId gates ids id) :
    ∃ k ∈ ids, k ∈ gates.map Gate.out := by
  induction h with
  | keep hid hlocal => exact ⟨_, hid, hlocal⟩
  | operand _ _ _ _ ih => exact ih

section

variable {σ : Type} {s : Session σ} {ids : List ℕ} {e : String}

/-- The checks fail with a stale error. -/
theorem flushCheck_error (h : s.flushCheck ids = .error e) : e ∈ staleErrors := by
  unfold flushCheck at h
  split at h
  · cases h
    decide
  · split at h
    · cases h
    · dsimp only at h
      split at h
      · cases h
        decide
      · cases h

/-- **The checks of a flush fail exactly at a stale wire.** -/
theorem flushCheck_error_iff (h : ChunkOk s.ctx) : (∃ e, s.flushCheck ids = .error e) ↔ s.MeetsStale ids := by
  have hlocal : ∀ id, isLocal s.ctx.chunkGates id = true ↔ id ∈ s.ctx.pending :=
    fun id => (isLocal_iff h.ordered).trans (h.pending id).symm
  obtain ⟨ρ, H⟩ := planFlush_spec h.ordered ids s.isCarried
  constructor
  · rintro ⟨e, he⟩
    unfold flushCheck at he
    split at he
    · next hany =>
      obtain ⟨id, hid, hno⟩ := List.any_eq_true.mp hany
      simp [AG2PCCtx.isPending] at hno
      exact .inl ⟨id, hid, by simpa [IsLive] using hno⟩
    · split at he
      · cases he
      · dsimp only at he
        split at he
        · next hok =>
          rw [Bool.not_eq_true', ← Bool.not_eq_true, H.ok] at hok
          push Not at hok
          obtain ⟨g, hg, w, hw, hloc, hmat⟩ := hok
          obtain ⟨hg', hneed⟩ := (mem_neededGates h.ordered).mp hg
          refine .inr ⟨g, hg', hneed, w, hw, ?_⟩
          rintro (hpend | hcar)
          · exact hloc ((hlocal w).mpr hpend)
          · exact hmat hcar
        · cases he
  · intro hstale
    cases hcheck : s.flushCheck ids with
    | error e => exact ⟨e, rfl⟩
    | ok plan =>
      obtain ⟨hlive, hplan⟩ := flushCheck_ok hcheck
      exfalso
      rcases hstale with ⟨id, hid, hno⟩ | ⟨g, hg, hneed, w, hw, hno⟩
      · exact hno (hlive id hid)
      · rcases hplan with ⟨-, hnone⟩ | ⟨-, -, hok⟩
        · obtain ⟨k, hk, hout⟩ := exists_keep_of_needed hneed
          exact hnone k hk ((h.pending k).mpr hout)
        · rcases H.ok.mp hok g ((mem_neededGates h.ordered).mpr ⟨hg, hneed⟩) w hw with hloc | hmat
          · exact hno (.inl ((hlocal w).mp hloc))
          · exact hno (.inr hmat)

end

section

variable {D : Type} [DecidableEq D] {S : Setup D} {s s' : Session ProtoState} {ids : List ℕ} {e : String}

/-- A flush fails in its checks or in the protocol below: what the plan gathers is there. -/
theorem flush_error (h : ChunkOk s.ctx) (hf : s.flush (.real S) ids = .error e) :
    s.flushCheck ids = .error e ∨ e ∈ protocolErrors := by
  rcases bind_eq_error hf with hf | ⟨plan, hcheck, hf⟩
  · exact .inl hf
  obtain ⟨-, ⟨rfl, -⟩ | ⟨-, rfl, -⟩⟩ := flushCheck_ok hcheck
  · cases hf
  · obtain ⟨ρ, H⟩ := planFlush_spec h.ordered ids s.isCarried
    have hgather := gatherCarried_eq (s := s) fun id hid => ((H.mem_input id).mp hid).2.2
    rcases bind_eq_error hf with hf | ⟨w, -, hf⟩
    · rw [hgather] at hf
      cases hf
    · rcases bind_eq_error hf with hf | ⟨_, -, hf⟩
      · exact .inr (runProgram_error hf)
      · cases hf

/-- **The stale errors of a flush.** -/
theorem flush_raises_iff (h : ChunkOk s.ctx) : Raises (s.flush (.real S) ids) staleErrors ↔ s.MeetsStale ids := by
  rw [← flushCheck_error_iff h]
  constructor
  · rintro ⟨e, hmem, he⟩
    rcases flush_error h he with hcheck | hproto
    · exact ⟨e, hcheck⟩
    · exact absurd hmem (protocolErrors_other hproto).1
  · rintro ⟨e, hcheck⟩
    refine ⟨e, flushCheck_error hcheck, ?_⟩
    unfold flush
    rw [hcheck]
    rfl

/-- **The keys after a flush**: the named pending ids are carried besides. -/
theorem flush_isCarried (h : ChunkOk s.ctx) (hf : s.flush (.real S) ids = .ok s') (id : ℕ) :
    s'.isCarried id = true ↔ s.isCarried id = true ∨ (id ∈ ids ∧ id ∈ s.ctx.pending) := by
  obtain ⟨-, ⟨hnone, rfl⟩ | ⟨-, plan, out, proto, rfl, -, -, -, rfl⟩⟩ := flush_ok hf
  · constructor
    · exact .inl
    · rintro (hcar | ⟨hid, hpend⟩)
      · exact hcar
      · exact absurd hpend (hnone id hid)
  · obtain ⟨ρ, H⟩ := planFlush_spec h.ordered ids s.isCarried
    have hout : id ∈ (planFlush s.ctx.chunkGates ids s.isCarried).outputIds ↔ id ∈ ids ∧ id ∈ s.ctx.pending := by
      rw [H.mem_output, isLocal_iff h.ordered, h.pending]
    rw [← hout]
    exact carryLoad_isSome

/-- After a flush every named id is carried. -/
theorem flush_named (h : ChunkOk s.ctx) (hf : s.flush (.real S) ids = .ok s') :
    ∀ id ∈ ids, s'.isCarried id = true := by
  intro id hid
  rw [flush_isCarried h hf]
  rcases (flush_ok hf).1 id hid with hpend | hcar
  · exact .inr ⟨hid, hpend⟩
  · exact .inl hcar

/-! ### The operations that flush -/

/-- A reveal to one of the recipients there are. -/
theorem revealFlush_eq {v : List ℕ} {recipient : Owner} {keep : List (List ℕ)} (hrec : ∀ n, recipient ≠ .other n) :
    s.revealFlush (.real S) v recipient keep =
      (s.flush (.real S) (v ++ keep.flatten) >>= fun s => s.gatherCarried v >>= fun w => pure (w, s)) := by
  cases recipient with
  | other n => exact absurd rfl (hrec n)
  | PUBLIC => rfl
  | ALICE => rfl
  | BOB => rfl

/-- A reveal fails in its flush or in the protocol below: what it gathers is there. -/
theorem reveal_error (h : ChunkOk s.ctx) {v : List ℕ} {recipient : Owner} {keep : List (List ℕ)}
    (hrec : ∀ n, recipient ≠ .other n) (hr : s.reveal (.real S) v recipient keep = .error e) :
    s.flush (.real S) (v ++ keep.flatten) = .error e ∨ e ∈ protocolErrors := by
  rcases bind_eq_error hr with hr | ⟨_, -, hr⟩
  · rw [revealFlush_eq hrec] at hr
    rcases bind_eq_error hr with hr | ⟨s₁, hf, hr⟩
    · exact .inl hr
    · rw [gatherCarried_eq fun id hid => flush_named h hf id (List.mem_append_left _ hid)] at hr
      cases hr
  · rcases bind_eq_error hr with hr | ⟨_, -, hr⟩
    · exact .inr (decode_error hr)
    · cases hr

/-- **The stale errors of a reveal**: a recipient that is none is rejected before. -/
theorem reveal_raises_iff (h : ChunkOk s.ctx) {v : List ℕ} {recipient : Owner} {keep : List (List ℕ)} :
    Raises (s.reveal (.real S) v recipient keep) staleErrors ↔
      (∀ n, recipient ≠ .other n) ∧ s.MeetsStale (v ++ keep.flatten) := by
  constructor
  · rintro ⟨e, hmem, he⟩
    have hrec : ∀ n, recipient ≠ .other n := by
      rintro n rfl
      cases he
      exact absurd hmem (by decide)
    refine ⟨hrec, (flush_raises_iff (S := S) h).mp ⟨e, hmem, ?_⟩⟩
    rcases reveal_error h hrec he with hf | hproto
    · exact hf
    · exact absurd hmem (protocolErrors_other hproto).1
  · rintro ⟨hrec, hstale⟩
    obtain ⟨e, hmem, he⟩ := (flush_raises_iff (S := S) h).mpr hstale
    refine ⟨e, hmem, ?_⟩
    unfold reveal
    rw [revealFlush_eq hrec, he]
    rfl

/-- **`gather_carried_` inside `reveal` never fails**, nor does the one of its flush. -/
theorem reveal_not_gather (h : ChunkOk s.ctx) (v : List ℕ) (recipient : Owner) (keep : List (List ℕ)) :
    s.reveal (.real S) v recipient keep ≠ .error gatherError := by
  intro he
  have hrec : ∀ n, recipient ≠ .other n := by
    rintro n rfl
    exact absurd (Except.error.inj he) (by decide)
  rcases reveal_error h hrec he with hf | hproto
  · rcases flush_error h hf with hcheck | hproto
    · exact absurd (flushCheck_error hcheck) (by decide)
    · exact (protocolErrors_other hproto).2.1 rfl
  · exact (protocolErrors_other hproto).2.1 rfl

/-- **The stale errors of a checkpoint.** -/
theorem checkpoint_raises_iff (h : ChunkOk s.ctx) {keep : List (List ℕ)} :
    Raises (s.checkpoint (.real S) keep) staleErrors ↔ s.MeetsStale keep.flatten := by
  rw [← flush_raises_iff (S := S) h]
  constructor
  · rintro ⟨e, hmem, he⟩
    rcases bind_eq_error he with he | ⟨_, -, he⟩
    · exact ⟨e, hmem, he⟩
    · cases he
  · rintro ⟨e, hmem, he⟩
    refine ⟨e, hmem, ?_⟩
    unfold checkpoint
    rw [he]
    rfl

/-- **The keys after a checkpoint** are the named ids. -/
theorem checkpoint_isCarried (h : ChunkOk s.ctx) {keep : List (List ℕ)} {s₁ : Session ProtoState}
    (hf : s.flush (.real S) keep.flatten = .ok s₁) (id : ℕ) :
    isCarried { s₁ with carried := fun id => if id ∈ keep.flatten then s₁.carried id else none } id = true ↔
      id ∈ keep.flatten := by
  unfold isCarried
  dsimp only
  split
  · next hid => exact iff_of_true (flush_named h hf id hid) hid
  · next hid => exact iff_of_false (by simp) hid

end

/-! ### Runs -/

section

variable {σ : Type} {s : Session σ} {args : List (List ℕ)} {e : String}

theorem appendArgs_error_from {bundle : SecureWires × SecureWires} (h : s.appendArgs bundle args = .error e) :
    e = unflushedError := by
  induction args generalizing bundle with
  | nil => cases h
  | cons ids args ih =>
    rcases bind_eq_error h with h | ⟨_, -, h⟩
    · unfold appendArg at h
      split at h
      · cases h
        rfl
      · next hall =>
        have hcar : ∀ id ∈ ids, s.isCarried id = true := by simpa using hall
        rw [gatherCarried_eq hcar] at h
        cases h
    · exact ih h

/-- **The arguments of a run are rejected** exactly when one of their ids is not materialized. -/
theorem appendArgs_error_iff :
    s.appendArgs ({}, {}) args = .error unflushedError ↔ ∃ id ∈ args.flatten, s.isCarried id = false := by
  have hok : (∀ id ∈ args.flatten, s.isCarried id = true) → ∀ bundle, ∃ w, s.appendArgs bundle args = .ok w := by
    intro hall
    induction args with
    | nil => exact fun bundle => ⟨bundle, rfl⟩
    | cons ids args ih =>
      intro bundle
      have hids : ∀ id ∈ ids, s.isCarried id = true := fun id hid => hall id (List.mem_append_left _ hid)
      obtain ⟨w, hw⟩ := ih (fun id hid => hall id (List.mem_append_right _ hid))
        (bundle.1.append (s.carriedBundle ids).1, bundle.2.append (s.carriedBundle ids).2)
      refine ⟨w, ?_⟩
      unfold appendArgs appendArg
      have hb : (!ids.all s.isCarried) = false := by simpa using hids
      rw [hb, gatherCarried_eq hids]
      exact hw
  constructor
  · intro h
    by_contra hno
    push Not at hno
    obtain ⟨w, hw⟩ := hok (fun id hid => by simpa using hno id hid) ({}, {})
    rw [h] at hw
    cases hw
  · rintro ⟨id, hid, hno⟩
    cases hargs : s.appendArgs ({}, {}) args with
    | error e => rw [appendArgs_error_from hargs]
    | ok w =>
      have hcar := (appendArgs_ok hargs).1 id hid
      rw [hno] at hcar
      cases hcar

/-- What materializing raises. -/
theorem materialize_error {w : SecureWires × SecureWires} (h : s.materialize w = .error e) : e ∈ runErrors := by
  rcases bind_eq_error h with h | ⟨_, -, h⟩
  · have hreserve : ∀ (n : ℕ) (c : AG2PCCtx), c.reserveIds n = .error e → e ∈ runErrors := by
      intro n
      induction n with
      | zero =>
        intro c hc
        cases hc
      | succ n ih =>
        intro c hc
        rcases bind_eq_error hc with hc | ⟨_, -, hc⟩
        · unfold AG2PCCtx.allocId at hc
          split at hc
          · cases hc
            decide
          · cases hc
        · rcases bind_eq_error hc with hc | ⟨_, -, hc⟩
          · exact ih _ hc
          · cases hc
    exact hreserve _ _ h
  · rcases bind_eq_error h with h | ⟨_, -, h⟩
    · unfold materializeInto at h
      split at h
      · cases h
        decide
      · cases h
    · cases h

end

section

variable {D : Type} [DecidableEq D] {S : Setup D} {s : Session ProtoState} {args : List (List ℕ)}

/-- A call that first appends its arguments, and raises other errors from then on. -/
theorem unflushed_iff {α : Type} {f : SecureWires × SecureWires → Except String α}
    (hf : ∀ w e, f w = .error e → e ∈ protocolErrors ∨ e ∈ runErrors) :
    (s.appendArgs ({}, {}) args >>= f) = .error unflushedError ↔ ∃ id ∈ args.flatten, s.isCarried id = false := by
  rw [← appendArgs_error_iff]
  constructor
  · intro h
    rcases bind_eq_error h with h | ⟨w, -, h⟩
    · exact h
    · rcases hf w _ h with hproto | hrun
      · exact absurd rfl (protocolErrors_other hproto).2.2
      · exact absurd hrun (by decide)
  · intro h
    rw [h]
    rfl

/-- **The unflushed error of the runs.** -/
theorem runCircuit_unflushed_iff (prog : BooleanProgram) :
    s.runCircuit (.real S) prog args = .error unflushedError ↔ ∃ id ∈ args.flatten, s.isCarried id = false := by
  refine unflushed_iff fun w e h => ?_
  split at h
  · cases h
    exact .inr (by decide)
  · rcases bind_eq_error h with h | ⟨_, -, h⟩
    · exact .inl (runProgram_error h)
    · exact .inr (materialize_error h)

theorem runBody_unflushed_iff (body : Body (List ℕ)) :
    s.runBody (.real S) args body = .error unflushedError ↔ ∃ id ∈ args.flatten, s.isCarried id = false := by
  refine unflushed_iff fun w e h => ?_
  rcases bind_eq_error h with h | ⟨_, -, h⟩
  · exact .inl (runSource_error h)
  · exact .inr (materialize_error h)

theorem runArtifact_unflushed_iff (retWidth : ℕ) (prog : BooleanProgram) :
    s.runArtifact (.real S) retWidth prog args = .error unflushedError ↔
      ∃ id ∈ args.flatten, s.isCarried id = false := by
  refine unflushed_iff fun w e h => ?_
  split at h
  · cases h
    exact .inr (by decide)
  · split at h
    · cases h
      exact .inr (by decide)
    · rcases bind_eq_error h with h | ⟨_, -, h⟩
      · exact .inl (runProgram_error h)
      · exact .inr (materialize_error h)

end

end Session

end AG2PC
