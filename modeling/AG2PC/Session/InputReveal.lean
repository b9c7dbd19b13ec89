import AG2PC.Backend.HashPads
import AG2PC.Session.CotGate

/-!
# Inputs and their reveal

What the owners put in comes out of a reveal, whether the inputs were batched or made one by one. The two pools of
COT shares stay in step in every session, so that the input phase opens the masks under matching keys whatever the
session did before.

* `poolsInStep_of_reaches` — the pools in every session.
* `batchFinish_carries`, `inputs_carry` — what a batch and the inputs one by one materialize.
* `batch_undone` — the round trip.
-/

namespace AG2PC

open Library.Runs Library.ByIndex

/-! ### The pools of a session -/

section

variable {D : Type} [DecidableEq D] {S : Setup D} {st st' : ProtoState}

/-- The input phase draws as many shares at both parties. -/
theorem processInputs_pools {owners : List Owner} {bits₁ bits₂ : List (List UInt8)}
    {subs : List SecureWires × List SecureWires} (h : PoolsInStep st)
    (hrun : (Backend.real S).processInputs owners bits₁ bits₂ st = .ok (subs, st')) : PoolsInStep st' := by
  obtain ⟨_, -, hrun⟩ := bind_eq_ok hrun
  obtain ⟨_, -, hrun⟩ := bind_eq_ok hrun
  dsimp only at hrun
  split at hrun
  · cases hrun
    exact h
  · obtain ⟨Lambda₁, -, hrun⟩ := bind_eq_ok hrun
    obtain ⟨Lambda₂, -, hrun⟩ := bind_eq_ok hrun
    cases hrun
    unfold PoolsInStep at h ⊢
    simp only [TriplePool.draw, TriplePool.genCotShares, h]

/-- So does the generation of the triples. -/
theorem computeInplace_pools {raw : ℕ → ℕ} {nonce : Block} {n : ℕ} {repA₁ repB₁ repA₂ repB₂ : ℕ → AShareBundle}
    {t : TriplePool} {σ : (ℕ → AShareBundle) × (ℕ → AShareBundle)} {t' : TriplePool × TriplePool}
    (hrun : computeInplace S.tool S.Δ S.cot₁ S.cot₂ S.ssp raw nonce n repA₁ repB₁ repA₂ repB₂ t t = .ok (σ, t')) :
    t'.1.used = t'.2.used := by
  unfold computeInplace computeInplaceWith at hrun
  split at hrun
  · cases hrun
    rfl
  · obtain ⟨_, -, hret⟩ := bind_eq_ok hrun
    cases hret
    have h₁ := (computeLayers_pads S.tool (Δ := S.Δ) (L := n) .alice .none raw (getBucketSize S.ssp n) repA₁ repB₁
      repA₂ repB₂ t t S.cot₁ S.cot₂).used
    have h₂ := (computeLayers_pads S.tool (Δ := S.Δ) (L := n) .bob .none raw (getBucketSize S.ssp n) repA₁ repB₁
      repA₂ repB₂ t t S.cot₁ S.cot₂).used
    exact h₁.trans h₂.symm

/-- And so does a run on bundles of one width. -/
theorem runSource_pools {source : Body (List ℕ)} {w₁ w₂ : SecureWires} {out : SecureWires × SecureWires}
    (hsize : w₂.size = w₁.size) (hcan : CanonicalStream w₁.size (source.stream w₁.size)) (h : PoolsInStep st)
    (hrun : runSource S source w₁ w₂ st = .ok (out, st')) : PoolsInStep st' := by
  obtain ⟨⟨σ, t⟩, hand, hrun⟩ := bind_eq_ok hrun
  obtain ⟨mem, -, hret⟩ := bind_eq_ok hrun
  have hpool : (prepare S.cot₁ w₁ st.pool₁ source).pool = (prepare S.cot₂ w₂ st.pool₂ source).pool := by
    rw [← show st.pool₁ = st.pool₂ from h]
    exact prepare_pool hsize hcan
  rw [← hpool] at hand
  have hused := computeInplace_pools hand
  cases hret
  unfold PoolsInStep
  dsimp only at hused ⊢
  rw [TriplePool.maybeFlushCotCheck_eq, TriplePool.maybeFlushCotCheck_eq, hused]

theorem runProgram_pools {prog : BooleanProgram} {w₁ w₂ : SecureWires} {out : SecureWires × SecureWires}
    (hsize : w₂.size = w₁.size) (h : PoolsInStep st) (hrun : runProgram S prog w₁ w₂ st = .ok (out, st')) :
    PoolsInStep st' := by
  obtain ⟨_, hcheck, hrun⟩ := bind_eq_ok hrun
  obtain ⟨_, -, hrun⟩ := bind_eq_ok hrun
  obtain ⟨_, -, hrun⟩ := bind_eq_ok hrun
  split at hrun
  · cases hrun
  · next hwidth =>
    rw [not_or, not_not] at hwidth
    obtain ⟨hstream, -, hcan, -⟩ := executeProgram_stream (recordCanonical_of_check hcheck) hwidth.1
    exact runSource_pools hsize hcan h hrun

end

section

variable {D : Type} [DecidableEq D] {S : Setup D} {s s' : Session ProtoState}

/-- The bundles of carried ids have one width. -/
theorem carriedBundle_sizes (s : Session ProtoState) (ids : List ℕ) :
    (s.carriedBundle ids).2.size = (s.carriedBundle ids).1.size := by
  simp only [Session.carriedBundle, carryStore, SecureWires.size, List.length_map]

theorem flush_pools {keepIds : List ℕ} (h : PoolsInStep s.proto) (hf : s.flush (.real S) keepIds = .ok s') :
    PoolsInStep s'.proto := by
  obtain ⟨-, ⟨-, rfl⟩ | ⟨-, plan, out, proto, -, -, -, hrun, rfl⟩⟩ := Session.flush_ok hf
  · exact h
  · exact runProgram_pools (carriedBundle_sizes s _) h hrun

/-- A run of any kind. -/
theorem runOk_pools {args : List (List ℕ)} {ids : List ℕ}
    {engine : SecureWires → SecureWires → ProtoState → Except String ((SecureWires × SecureWires) × ProtoState)}
    (hengine : ∀ out proto, engine (s.carriedBundle args.flatten).1 (s.carriedBundle args.flatten).2 s.proto =
      .ok (out, proto) → PoolsInStep proto) (hr : Session.RunOk s s' args ids engine) : PoolsInStep s'.proto := by
  obtain ⟨-, out, proto, hrun, hmat⟩ := hr
  rw [materialize_proto hmat]
  exact hengine out proto hrun

/-- **One operation** keeps the pools in step. -/
theorem poolsInStep_step {op : SessionOp} {out : Output} (h : PoolsInStep s.proto)
    (hs : Session.step (.real S) s op = .ok (out, s')) : PoolsInStep s'.proto := by
  cases Session.step_ok hs with
  | input hauth hmat =>
    rw [materialize_proto hmat]
    rcases Session.authenticate_ok hauth with ⟨-, rfl, -⟩ | ⟨-, subs, proto, hrun, -, rfl⟩
    · exact h
    · exact processInputs_pools h hrun
  | batchFinish hfin =>
    obtain ⟨batch, -, -, hf⟩ := Session.batchFinish_ok hfin
    obtain ⟨⟨sec, s₂⟩, hpub, hf⟩ := bind_eq_ok hf
    have hproto := (finishPublic_collects hpub).1
    dsimp only at hf hproto
    split at hf
    · cases hf
      rw [hproto]
      exact h
    · obtain ⟨⟨subs, proto⟩, hrun, hf⟩ := bind_eq_ok hf
      rw [finishSecret_proto hf]
      rw [hproto] at hrun
      exact processInputs_pools h hrun
  | runCircuit hwidth hran =>
    exact runOk_pools (fun out proto hrun => runProgram_pools (carriedBundle_sizes s _) h hrun) hran
  | @runBody _ body _ _ hran =>
    refine runOk_pools (fun out proto hrun => ?_) hran
    refine runSource_pools (carriedBundle_sizes s _) ?_ h hrun
    rw [Session.carriedBundle_size]
    exact Body.record_canonical body.body _ _ _ body.wellScoped
  | runArtifact hwidth hran =>
    exact runOk_pools (fun out proto hrun => runProgram_pools (carriedBundle_sizes s _) h hrun) hran
  | checkpoint hflush =>
    have hend := flush_pools h hflush
    exact hend
  | reveal hrec hflush hall hdecode => exact flush_pools h hflush
  | batchAdd hadd =>
    obtain ⟨batch, -, -, -, rfl⟩ := Session.batchAdd_ok hadd
    exact h
  | inputBatch | publicBit hbit | andGate hgate | xorGate hgate | notGate hgate => exact h

/-- **The pools stay in step**, whatever a session does. -/
theorem poolsInStep_of_reaches {st : ProtoState} {ops : List SessionOp} (hst : PoolsInStep st)
    (h : Reaches (Session.step (.real S)) (Session.start st) ops s) : PoolsInStep s.proto :=
  run_invariant (P := fun s : Session ProtoState => PoolsInStep s.proto)
    (fun _ _ _ _ hpools hs => poolsInStep_step hpools hs) hst h

end

/-! ### Ids that carry bits -/

/-- Every id carries its bit. -/
def Carries {σ : Type} (Δ : Deltas) (s : Session σ) (f : ℕ → Bool) (ids : List ℕ) : Prop :=
  ∀ id ∈ ids, ∃ c, s.carried id = some c ∧ CarriedEncodes Δ c (f id)

/-- An input with an owner there is. -/
def ClearInput.Owned (x : ClearInput) : Prop := ∀ n, x.owner ≠ .other n

section

variable {σ : Type} {Δ : Deltas} {s s' : Session σ} {f : ℕ → Bool} {ids : List ℕ}

/-- Loading an encoding of their bits: the ids carry them, and the others what they carried. -/
theorem carries_carryLoad {w₁ w₂ : SecureWires} (henc : Encodes Δ w₁ w₂ (ids.map f))
    (hcar : s'.carried = carryLoad ids w₁ w₂ s.carried) :
    Carries Δ s' f ids ∧ ∀ ids', Carries Δ s f ids' → Carries Δ s' f ids' := by
  have hload : ∀ id ∈ ids, ∃ c, s'.carried id = some c ∧ CarriedEncodes Δ c (f id) := by
    intro id hid
    obtain ⟨i, hi, rfl, c, hc⟩ := carryLoad_mem w₁ w₂ s.carried hid
    have hwire := carriedEncodes_load henc ((List.length_map f).symm ▸ hi) c
    rw [getD_map_of_lt f 0 _ hi] at hwire
    exact ⟨_, hcar ▸ hc, hwire⟩
  refine ⟨hload, fun ids' h id hid => ?_⟩
  by_cases hmem : id ∈ ids
  · exact hload id hmem
  · rw [hcar, carryLoad_of_not_mem hmem]
    exact h id hid

/-- Materializing an encoding under given ids does not fail. -/
theorem materializeInto_carries {w₁ w₂ : SecureWires} (henc : Encodes Δ w₁ w₂ (ids.map f)) :
    ∃ s', s.materializeInto ids (w₁, w₂) = .ok s' ∧ s'.proto = s.proto ∧ s'.ctx = s.ctx ∧ Carries Δ s' f ids ∧
      ∀ ids', Carries Δ s f ids' → Carries Δ s' f ids' := by
  have h₁ : w₁.size = ids.length := henc.wf₁.size.trans (List.length_map f)
  have h₂ : w₂.size = ids.length := henc.wf₂.size.trans (List.length_map f)
  refine ⟨{ s with carried := carryLoad ids w₁ w₂ s.carried }, ?_, rfl, rfl, carries_carryLoad henc rfl⟩
  unfold Session.materializeInto
  rw [if_neg (by rw [h₁, h₂]; simp)]

end

/-! ### A batch -/

section

variable {D : Type} [DecidableEq D] {S : Setup D} {C : CotStream S.Δ} {f : ℕ → Bool}

/-- The public additions are materialized. -/
theorem finishPublic_carries {adds : List BatchAdd}
    (hadds : ∀ a ∈ adds, a.input.Owned ∧ a.ids.map f = a.input.value) : ∀ s : Session ProtoState,
    ∃ sec s', s.finishPublic (.real S) adds = .ok (sec, s') ∧ s'.proto = s.proto ∧
      (∀ a ∈ sec, a ∈ adds ∧ (a.input.owner = .ALICE ∨ a.input.owner = .BOB)) ∧
      (∀ a ∈ adds, a ∈ sec ∨ Carries S.Δ s' f a.ids) ∧ ∀ ids, Carries S.Δ s f ids → Carries S.Δ s' f ids := by
  induction adds with
  | nil => exact fun s => ⟨[], s, rfl, rfl, by simp, by simp, fun _ h => h⟩
  | cons a adds ih =>
    intro s
    obtain ⟨⟨howned, hval⟩, hrest⟩ := List.forall_mem_cons.mp hadds
    unfold Session.finishPublic
    have hsecret (howner : a.input.owner = .ALICE ∨ a.input.owner = .BOB) :
        ∃ sec s', (s.finishPublic (.real S) adds >>= fun p => pure (a :: p.1, p.2)) = Except.ok (sec, s') ∧
          s'.proto = s.proto ∧
          (∀ b ∈ sec, b ∈ a :: adds ∧ (b.input.owner = .ALICE ∨ b.input.owner = .BOB)) ∧
          (∀ b ∈ a :: adds, b ∈ sec ∨ Carries S.Δ s' f b.ids) ∧
          ∀ ids, Carries S.Δ s f ids → Carries S.Δ s' f ids := by
      obtain ⟨sec, s', hloop, hproto, hsec, hdone, hkeep⟩ := ih hrest s
      rw [hloop]
      refine ⟨a :: sec, s', rfl, hproto, fun b hb => ?_, fun b hb => ?_, hkeep⟩
      · rcases List.mem_cons.mp hb with rfl | hb
        · exact ⟨List.mem_cons_self, howner⟩
        · exact ⟨List.mem_cons_of_mem _ (hsec b hb).1, (hsec b hb).2⟩
      · rcases List.mem_cons.mp hb with rfl | hb
        · exact .inl List.mem_cons_self
        · exact (hdone b hb).imp_left (List.mem_cons_of_mem _)
    split
    · next howner =>
      have henc := Mirrors.encodes_public S.Δ howner
      rw [← hval] at henc
      obtain ⟨s₁, hmat, hproto₁, -, hcar₁, hkeep₁⟩ := materializeInto_carries (s := s) henc
      obtain ⟨sec, s', hloop, hproto, hsec, hdone, hkeep⟩ := ih hrest s₁
      refine ⟨sec, s', ?_, hproto.trans hproto₁, fun b hb => ?_, fun b hb => ?_, fun ids h => hkeep ids (hkeep₁ ids h)⟩
      · rw [← hloop]
        exact congrArg (· >>= fun s => s.finishPublic (.real S) adds) hmat
      · exact ⟨List.mem_cons_of_mem _ (hsec b hb).1, (hsec b hb).2⟩
      · rcases List.mem_cons.mp hb with rfl | hb
        · exact .inr (hkeep _ hcar₁)
        · exact hdone b hb
    · next howner => exact hsecret (.inl howner)
    · next howner => exact hsecret (.inr howner)
    · next n howner => exact absurd howner (howned n)

/-- The groups are materialized. -/
theorem finishSecret_carries {Δ : Deltas} {sec : List BatchAdd} {subs : List SecureWires × List SecureWires}
    {vals : List (List Bool)} (hgroups : GroupsEncode Δ subs vals)
    (hsec : ∀ a ∈ sec, a.ids.map f = a.input.value) : ∀ {j : ℕ} (s : Session ProtoState),
    vals.drop j = sec.map (fun a => a.input.value) →
      ∃ s', s.finishSecret subs j sec = .ok s' ∧ (∀ a ∈ sec, Carries Δ s' f a.ids) ∧
        ∀ ids, Carries Δ s f ids → Carries Δ s' f ids := by
  induction sec with
  | nil => exact fun s _ => ⟨s, rfl, by simp, fun _ h => h⟩
  | cons a sec ih =>
    intro j s hvals
    obtain ⟨hval, hrest⟩ := List.forall_mem_cons.mp hsec
    rw [List.map_cons] at hvals
    obtain ⟨hj, hget, hdrop⟩ := drop_eq_cons hvals []
    have henc := hgroups.group j hj
    rw [hget, ← hval] at henc
    obtain ⟨s₁, hmat, -, -, hcar₁, hkeep₁⟩ := materializeInto_carries (s := s) henc
    obtain ⟨s', hloop, hdone, hkeep⟩ := ih hrest s₁ hdrop
    refine ⟨s', ?_, List.forall_mem_cons.mpr ⟨hkeep _ hcar₁, hdone⟩, fun ids h => hkeep ids (hkeep₁ ids h)⟩
    rw [← hloop]
    exact congrArg (· >>= fun s => s.finishSecret subs (j + 1) sec) hmat

/-- **Finishing a batch** between honest parties does not fail, and every addition's ids carry its bits. -/
theorem batchFinish_carries (h₁ : S.cot₁ = C.s₁) (h₂ : S.cot₂ = C.s₂) {s : Session ProtoState}
    (hst : PoolsInStep s.proto) {adds : List BatchAdd}
    (hadds : ∀ a ∈ adds, a.input.Owned ∧ a.ids.map f = a.input.value) :
    ∃ s', s.batchFinish_ (.real S) adds = .ok s' ∧ ∀ a ∈ adds, Carries S.Δ s' f a.ids := by
  obtain ⟨sec, s₁, hpub, hproto, hsec, hdone, -⟩ := finishPublic_carries (S := S) hadds s
  unfold Session.batchFinish_
  rw [hpub]
  by_cases hempty : sec = []
  · subst hempty
    exact ⟨s₁, rfl, fun a ha => (hdone a ha).resolve_left List.not_mem_nil⟩
  · obtain ⟨subs, st', hrun, -, hgroups⟩ := @processInputs_ok D _ S.tool S.Δ C S.tape s₁.proto
      (sec.map fun a => a.input.group) (by rw [hproto]; exact hst)
    have hrun' : (Backend.real S).processInputs (sec.map fun a => a.input.owner)
        (sec.map fun a => encodeBits a.input.alice) (sec.map fun a => encodeBits a.input.bob) s₁.proto =
        .ok (subs, st') := by
      rw [Mirrors.processInputs_section fun a ha => (hsec a ha).2, ← hrun, ← h₁, ← h₂]
      rfl
    obtain ⟨s', hloop, hcar, hkeep⟩ := finishSecret_carries (j := 0) hgroups
      (fun a ha => (hadds a (hsec a ha).1).2) { s₁ with proto := st' } (by
        rw [List.drop_zero, List.map_map]
        exact List.map_congr_left fun a ha => Mirrors.value_group (hsec a ha).2)
    refine ⟨s', ?_, fun a ha => ?_⟩
    · have hne : sec.isEmpty = false := by simpa using hempty
      change (if sec.isEmpty then _ else _) = _
      rw [hne, ← hloop]
      simp only [hrun', bind, Except.bind, Bool.false_eq_true, if_false]
    · rcases hdone a ha with hin | hcarried
      · exact hcar a hin
      · exact hkeep _ hcarried

end

/-! ### The additions of a batch -/

/-- The additions that a list of inputs makes, from the next id on. -/
def reservedFrom : ℕ → List ClearInput → List BatchAdd
  | _, [] => []
  | n, x :: xs => ⟨x, List.range' n x.width⟩ :: reservedFrom (n + x.width) xs

theorem input_mem_of_reserved {n : ℕ} {xs : List ClearInput} {a : BatchAdd} (h : a ∈ reservedFrom n xs) :
    a.input ∈ xs ∧ ∀ id ∈ a.ids, n ≤ id := by
  induction xs generalizing n with
  | nil => exact absurd h List.not_mem_nil
  | cons x xs ih =>
    rcases List.mem_cons.mp h with rfl | h
    · exact ⟨List.mem_cons_self, fun id hid => (List.mem_range'_1.mp hid).1⟩
    · obtain ⟨hin, hge⟩ := ih h
      exact ⟨List.mem_cons_of_mem _ hin, fun id hid => (Nat.le_add_right _ _).trans (hge id hid)⟩

/-- The ids can be told their bits: they are distinct. -/
theorem exists_bits (xs : List ClearInput) : ∀ n,
    ∃ f : ℕ → Bool, ∀ a ∈ reservedFrom n xs, a.ids.map f = a.input.value := by
  induction xs with
  | nil => exact fun n => ⟨fun _ => false, by simp [reservedFrom]⟩
  | cons x xs ih =>
    intro n
    obtain ⟨f, hf⟩ := ih (n + x.width)
    refine ⟨fun id => if id < n + x.width then x.value.getD (id - n) false else f id, fun a ha => ?_⟩
    rcases List.mem_cons.mp ha with rfl | ha
    · dsimp only
      rw [List.range'_eq_map_range, List.map_map]
      refine (List.map_congr_left fun i hi => ?_).trans
        (map_eq_range id false (Mirrors.length_value x)).symm |>.trans (List.map_id _)
      have hlt : n + i < n + x.width := Nat.add_lt_add_left (List.mem_range.mp hi) n
      simp only [Function.comp_apply, if_pos hlt, Nat.add_sub_cancel_left, id]
    · rw [← hf a ha]
      refine List.map_congr_left fun id hid => ?_
      exact if_neg (Nat.not_lt_of_le ((input_mem_of_reserved ha).2 id hid))

section

variable {D : Type} [DecidableEq D] {S : Setup D} {C : CotStream S.Δ} {b : ℕ}

/-- **Adding inputs** to a batch, one after another. -/
theorem adds_run {xs : List ClearInput} : ∀ {s t : Session ProtoState} {batch : InputBatch} {outs : List Output},
    s.batches[b]? = some batch →
      run (Session.step (.real S)) s (xs.map (.batchAdd b)) = .ok (outs, t) →
        outs = (reservedFrom s.ctx.nextId xs).map (fun a => .value a.ids) ∧ t.proto = s.proto ∧
          (batch.finished = false →
            t.batches[b]? = some { batch with adds := batch.adds ++ reservedFrom s.ctx.nextId xs }) := by
  induction xs with
  | nil =>
    intro s t batch outs hb h
    cases h
    refine ⟨rfl, rfl, fun _ => ?_⟩
    rw [hb, reservedFrom, List.append_nil]
  | cons x xs ih =>
    intro s t batch outs hb h
    obtain ⟨out, s₁, outs', hs, hrest, rfl⟩ := run_cons_ok.mp h
    obtain ⟨⟨ids, s₂⟩, ha, heq⟩ := map_eq_ok hs
    cases heq
    obtain ⟨batch', hb', hfin, rfl, rfl⟩ := Session.batchAdd_ok ha
    rw [hb] at hb'
    cases hb'
    have hlt : b < s.batches.length := (List.getElem?_eq_some_iff.mp hb).1
    obtain ⟨houts, hproto, hbatch⟩ := ih (List.getElem?_set_self hlt) hrest
    rw [houts]
    refine ⟨rfl, hproto, fun _ => ?_⟩
    rw [hbatch hfin, reservedFrom, List.append_assoc]
    rfl

/-- Ids are reserved by their number. -/
theorem reserveIds_congr {n : ℕ} {ids : List ℕ} : ∀ {c c' d : AG2PCCtx}, d.nextId = c.nextId →
    c.reserveIds n = .ok (ids, c') → ∃ d', d.reserveIds n = .ok (ids, d') := by
  induction n generalizing ids with
  | zero =>
    intro c c' d _ h
    cases h
    exact ⟨d, rfl⟩
  | succ n ih =>
    intro c c' d hd h
    obtain ⟨⟨o, c₁⟩, halloc, h⟩ := bind_eq_ok h
    obtain ⟨⟨ids', c₂⟩, hrest, hret⟩ := bind_eq_ok h
    cases hret
    unfold AG2PCCtx.allocId at halloc
    split at halloc
    · cases halloc
    next hmax =>
      cases halloc
      obtain ⟨d', hd'⟩ := ih (d := { d with nextId := d.nextId + 1 }) (congrArg (· + 1) hd) hrest
      have halloc : d.allocId = .ok (c.nextId, { d with nextId := d.nextId + 1 }) := by
        unfold AG2PCCtx.allocId
        rw [if_neg (hd ▸ hmax), hd]
      refine ⟨d', ?_⟩
      unfold AG2PCCtx.reserveIds
      rw [halloc]
      exact congrArg (· >>= fun p => pure (c.nextId :: p.1, p.2)) hd'

/-! ### Inputs one by one -/

/-- **Authenticating an input** between honest parties does not fail. -/
theorem authenticate_encodes (h₁ : S.cot₁ = C.s₁) (h₂ : S.cot₂ = C.s₂) {s : Session ProtoState}
    (hst : PoolsInStep s.proto) {x : ClearInput} (hx : x.Owned) :
    ∃ w st', s.authenticate (.real S) x = .ok (w, { s with proto := st' }) ∧ PoolsInStep st' ∧
      Encodes S.Δ w.1 w.2 x.value := by
  have hgroup (howner : x.owner = .ALICE ∨ x.owner = .BOB) : ∃ w st',
      ((Backend.real S).processInputs [x.owner] [encodeBits x.alice] [encodeBits x.bob] s.proto >>=
          fun r => pure ((r.1.1.getD 0 {}, r.1.2.getD 0 {}), { s with proto := r.2 })) =
        Except.ok (w, { s with proto := st' }) ∧ PoolsInStep st' ∧ Encodes S.Δ w.1 w.2 x.value := by
    obtain ⟨subs, st', hrun, hpool, hgroups⟩ := @processInputs_ok D _ S.tool S.Δ C S.tape s.proto [x.group] hst
    have hrun' : (Backend.real S).processInputs [x.owner] [encodeBits x.alice] [encodeBits x.bob] s.proto =
        .ok (subs, st') := by
      have hsec := @Mirrors.processInputs_section D ProtoState (.real S) s.proto [⟨x, []⟩] (by simpa using howner)
      refine hsec.trans ?_
      rw [← hrun, ← h₁, ← h₂]
      rfl
    rw [hrun']
    refine ⟨_, st', rfl, hpool, ?_⟩
    rw [← Mirrors.value_group howner]
    exact hgroups.group 0 (Nat.succ_pos _)
  unfold Session.authenticate
  split
  · next howner => exact ⟨_, s.proto, rfl, hst, Mirrors.encodes_public S.Δ howner⟩
  · next howner => exact hgroup (.inl howner)
  · next howner => exact hgroup (.inr howner)
  · next n howner => exact absurd howner (hx n)

/-- **Inputs one by one** get the ids that a batch reserves for them, and these carry the inputs' bits. -/
theorem inputs_carry (h₁ : S.cot₁ = C.s₁) (h₂ : S.cot₂ = C.s₂) {f : ℕ → Bool} {xs : List ClearInput} :
    ∀ {s₁ t s : Session ProtoState} {outs : List Output},
      run (Session.step (.real S)) s₁ (xs.map (.batchAdd b)) = .ok (outs, t) → s.ctx.nextId = s₁.ctx.nextId →
        PoolsInStep s.proto → (∀ x ∈ xs, x.Owned) →
        (∀ a ∈ reservedFrom s.ctx.nextId xs, a.ids.map f = a.input.value) →
          ∃ t', run (Session.step (.real S)) s (xs.map .input) = .ok (outs, t') ∧
            (∀ a ∈ reservedFrom s.ctx.nextId xs, Carries S.Δ t' f a.ids) ∧
            ∀ ids, Carries S.Δ s f ids → Carries S.Δ t' f ids := by
  induction xs with
  | nil =>
    intro s₁ t s outs h _ _ _ _
    cases h
    exact ⟨s, rfl, by simp [reservedFrom], fun _ h => h⟩
  | cons x xs ih =>
    intro s₁ t s outs h hn hst hxs hf
    obtain ⟨hx, hxs⟩ := List.forall_mem_cons.mp hxs
    obtain ⟨hval, hf⟩ := List.forall_mem_cons.mp hf
    obtain ⟨out, s₂, outs', hs, hrest, rfl⟩ := run_cons_ok.mp h
    obtain ⟨⟨ids, s₃⟩, ha, heq⟩ := map_eq_ok hs
    cases heq
    obtain ⟨w, st', hauth, hpool, henc⟩ := authenticate_encodes h₁ h₂ hst hx
    -- the ids are those the batch has reserved
    obtain ⟨batch, hb, hfin, hids, heq⟩ := Session.batchAdd_ok ha
    have hreserve : ∃ c', s₁.ctx.reserveIds x.width = .ok (ids, c') := by
      unfold Session.batchAdd at ha
      rw [hb] at ha
      dsimp only at ha
      rw [hfin] at ha
      obtain ⟨⟨ids', c'⟩, hres, hret⟩ := bind_eq_ok ha
      cases hret
      exact ⟨c', hres⟩
    obtain ⟨c', hreserve⟩ := hreserve
    obtain ⟨d', hd'⟩ := reserveIds_congr (d := s.ctx) hn hreserve
    obtain ⟨-, rfl⟩ := AG2PCCtx.reserveIds_ok hd'
    have hsize : w.1.size = x.width := henc.wf₁.size.trans (Mirrors.length_value x)
    rw [← hn] at hids
    subst hids
    dsimp only at hval
    rw [← hval] at henc
    obtain ⟨s₄, hmat, hproto, hctx, hcar, hkeep⟩ := materializeInto_carries
      (s := { s with ctx := { s.ctx with nextId := s.ctx.nextId + x.width }, proto := st' }) henc
    have hin : s.input (.real S) x = .ok (List.range' s.ctx.nextId x.width, s₄) := by
      unfold Session.input Session.materialize
      rw [hauth]
      simp only [bind, Except.bind, hsize, hd', hmat]
      rfl
    have hstep : Session.step (.real S) s (.input x) = .ok (.value (List.range' s.ctx.nextId x.width), s₄) :=
      congrArg (Except.map fun r : List ℕ × Session ProtoState => (Output.value r.1, r.2)) hin
    have hnext : s₄.ctx.nextId = s₃.ctx.nextId := by
      rw [hctx, heq]
      dsimp only
      rw [hn]
    have hnext' : s₄.ctx.nextId = s.ctx.nextId + x.width := by rw [hctx]
    rw [← hnext'] at hf
    obtain ⟨t', hrun, hall, hkeep'⟩ := ih hrest hnext (by rw [hproto]; exact hpool) hxs hf
    rw [hnext'] at hall
    refine ⟨t', run_cons_ok.mpr ⟨_, s₄, outs', hstep, hrun, rfl⟩,
      List.forall_mem_cons.mpr ⟨hkeep' _ hcar, hall⟩, fun ids' h' => hkeep' _ (hkeep _ h')⟩

end

/-! ### The round trip -/

/-- An input under its ids: they carry an encoding of the owner's bits, and a decode of it, whoever the recipient,
returns these bits to the recipients and nothing to the other party. -/
structure InputUndone {D : Type} [DecidableEq D] (S : Setup D) (t : Session ProtoState) (x : ClearInput)
    (ids : List ℕ) : Prop where
  carried : ∀ id ∈ ids, t.isCarried id = true
  encodes : Encodes S.Δ (t.carriedBundle ids).1 (t.carriedBundle ids).2 x.value
  decodes : ∀ recipient, (∀ n, recipient ≠ .other n) →
    decode S.tool S.Δ (t.carriedBundle ids).1 (t.carriedBundle ids).2 recipient =
      .ok (decodeResult recipient (encodeBits x.value))

section

variable {D : Type} [DecidableEq D] {S : Setup D} {C : CotStream S.Δ}

/-- Ids that carry an input's bits undo it. -/
theorem Carries.undone {t : Session ProtoState} {f : ℕ → Bool} {x : ClearInput} {ids : List ℕ}
    (h : Carries S.Δ t f ids) (hval : ids.map f = x.value) : InputUndone S t x ids := by
  have henc := encodes_carriedBundle h
  rw [hval] at henc
  refine ⟨fun id hid => ?_, henc, fun recipient _ => ?_⟩
  · obtain ⟨c, hc, -⟩ := h id hid
    rw [Session.isCarried, hc, Option.isSome_some]
  · rw [decode_ok S.tool henc.toSharesAgree recipient, carriedBytes_eq henc]

/-- Addition by addition. -/
theorem forall₂_reserved {P : ClearInput → List ℕ → Prop} {xs : List ClearInput} : ∀ {n : ℕ},
    (∀ a ∈ reservedFrom n xs, P a.input a.ids) → List.Forall₂ P xs ((reservedFrom n xs).map BatchAdd.ids) := by
  induction xs with
  | nil => exact fun _ => .nil
  | cons x xs ih =>
    intro n h
    obtain ⟨hx, hrest⟩ := List.forall_mem_cons.mp h
    exact .cons hx (ih hrest)

/-- **Reveal undoes input, batched or not.** In every session between honest parties, a new batch is filled with any
list of inputs: it can be finished, and each addition's ids then carry its owner's bits, which a decode returns. The
same inputs made one by one get the same ids, and they carry the same bits. -/
theorem batch_undone (h₁ : S.cot₁ = C.s₁) (h₂ : S.cot₂ = C.s₂) {ops : List SessionOp} {s t : Session ProtoState}
    (hs : Reaches (Session.step (.real S)) (Session.start {}) ops s) {xs : List ClearInput} (hxs : ∀ x ∈ xs, x.Owned)
    {outs : List Output}
    (hadds : run (Session.step (.real S)) s (.inputBatch :: xs.map (.batchAdd s.batches.length)) = .ok (outs, t)) :
    ∃ idss t₁ t₂, outs = .none :: idss.map .value ∧
      Session.step (.real S) t (.batchFinish s.batches.length) = .ok (.none, t₁) ∧
      run (Session.step (.real S)) s (xs.map .input) = .ok (idss.map .value, t₂) ∧
      List.Forall₂ (InputUndone S t₁) xs idss ∧ List.Forall₂ (InputUndone S t₂) xs idss := by
  have hstart : PoolsInStep {} := rfl
  have hpool : PoolsInStep s.proto := poolsInStep_of_reaches hstart hs
  obtain ⟨out, s₁, outs', hbatch, hadds, rfl⟩ := run_cons_ok.mp hadds
  cases hbatch
  obtain ⟨houts, hproto, hfinish⟩ := adds_run List.getElem?_concat_length hadds
  obtain ⟨f, hf⟩ := exists_bits xs s.ctx.nextId
  have howned : ∀ a ∈ reservedFrom s.ctx.nextId xs, a.input.Owned ∧ a.ids.map f = a.input.value :=
    fun a ha => ⟨hxs _ (input_mem_of_reserved ha).1, hf a ha⟩
  have hb := hfinish rfl
  obtain ⟨t₁, hrun₁, hcar₁⟩ := batchFinish_carries h₁ h₂
    (s := { t with batches := (t.batches.set s.batches.length ⟨reservedFrom s.ctx.nextId xs, true⟩) })
    (by rw [hproto]; exact hpool) howned
  obtain ⟨t₂, hrun₂, hcar₂, -⟩ := inputs_carry (s := s) h₁ h₂ hadds rfl hpool hxs hf
  refine ⟨(reservedFrom s.ctx.nextId xs).map BatchAdd.ids, t₁, t₂, ?_, ?_, ?_,
    forall₂_reserved fun a ha => (hcar₁ a ha).undone (hf a ha),
    forall₂_reserved fun a ha => (hcar₂ a ha).undone (hf a ha)⟩
  · rw [houts, List.map_map]
    rfl
  · have hfin : t.batchFinish (.real S) s.batches.length = .ok t₁ := by
      unfold Session.batchFinish
      rw [hb]
      exact hrun₁
    exact congrArg (Except.map fun s : Session ProtoState => (Output.none, s)) hfin
  · rw [hrun₂, houts, List.map_map]
    rfl

end

/-- Inputs of all three owners, one of them without wires. -/
def mixedInputs : List ClearInput :=
  [.secret .bob [(false, true), (false, false)], .shared [true], .secret .alice [],
    .secret .alice [(true, false)]]

/-- A batch of them at the start of a session. -/
theorem batch_undone_mixed :
    ∃ outs t, run (Session.step (.real Setup.zeros)) (Session.start {}) (.inputBatch :: mixedInputs.map (.batchAdd 0)) =
        .ok (outs, t) ∧
      outs = [.none, .value [0, 1], .value [2], .value [], .value [3]] ∧
      ∃ idss t₁ t₂, outs = .none :: idss.map .value ∧
        Session.step (.real Setup.zeros) t (.batchFinish 0) = .ok (.none, t₁) ∧
        run (Session.step (.real Setup.zeros)) (Session.start {}) (mixedInputs.map .input) =
          .ok (idss.map .value, t₂) ∧
        List.Forall₂ (InputUndone Setup.zeros t₁) mixedInputs idss ∧
        List.Forall₂ (InputUndone Setup.zeros t₂) mixedInputs idss := by
  have houts : (run (Session.step (.real Setup.zeros)) (Session.start {})
      (.inputBatch :: mixedInputs.map (.batchAdd 0))).toOption.map Prod.fst =
      some [.none, .value [0, 1], .value [2], .value [], .value [3]] := by
    decide +kernel
  cases hrun : run (Session.step (.real Setup.zeros)) (Session.start {})
      (.inputBatch :: mixedInputs.map (.batchAdd 0)) with
  | error e =>
    rw [hrun] at houts
    cases houts
  | ok p =>
    rw [hrun] at houts
    have howned : ∀ x ∈ mixedInputs, x.Owned := by
      simp [mixedInputs, ClearInput.Owned, ClearInput.secret, ClearInput.shared, Owner.ofParty]
    have hstart : Reaches (Session.step (.real Setup.zeros)) (Session.start {}) [] (Session.start {}) :=
      reaches_nil.mpr rfl
    exact ⟨p.1, p.2, rfl, Option.some.inj houts,
      @batch_undone _ _ Setup.zeros (.zeros (.init 0 0)) rfl rfl [] _ _ hstart _ howned _ hrun⟩

end AG2PC
