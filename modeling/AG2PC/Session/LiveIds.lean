import AG2PC.Session.CotGate
import AG2PC.Session.Errors

/-!
# Live ids over a session

What a session is to know of its recorder ids, told the ids its operations return: an id is live when it was
materialized, by an input, a finished batch, a run or a flush that kept it, and not pruned since, or when it is pending
in the current chunk. `LiveIds.next` is one operation; the session's recorder and carried map follow it.

* `LiveIds.Stale` — what a reveal or a checkpoint is to reject.
* `LiveMirrors.step` — one operation of the session.
* `session_followsIds` — what every session rejects, carries afterwards, and never accepts again.
-/

namespace AG2PC

open Library.ByIndex Library.Runs

/-- The ids an operation returns. -/
def Output.ids : Output → List ℕ
  | .value ids => ids
  | .none | .revealed _ _ => []

/-- The recorder ids of a session. -/
structure LiveIds where
  /-- Materialized, and not pruned. -/
  materialized : ℕ → Prop := fun _ => False
  /-- The gates of the current chunk. -/
  chunk : List Gate := []
  /-- The ids reserved by each batch, and whether it is finished. -/
  batches : List (List ℕ × Bool) := []
  /-- Handed out at some time. -/
  allocated : ℕ → Prop := fun _ => False
  /-- Live at some time. -/
  seen : ℕ → Prop := fun _ => False

namespace LiveIds

variable (L : LiveIds)

/-- Recorded in the current chunk. -/
def Pending (id : ℕ) : Prop := id ∈ L.chunk.map Gate.out

/-- Materialized or pending. -/
def Live (id : ℕ) : Prop := L.Pending id ∨ L.materialized id

/-- Live once, and no longer. -/
def Dropped (id : ℕ) : Prop := L.seen id ∧ ¬ L.Live id

/-- A named id is not live, or an operand of a gate that a named pending id needs. -/
def Stale (named : List ℕ) : Prop :=
  (∃ id ∈ named, ¬ L.Live id) ∨ ∃ g ∈ L.chunk, NeededId L.chunk named g.out ∧ ∃ w ∈ g.srcs, ¬ L.Live w

/-- Reserved by batch `b`, which is finished or not. -/
def InBatch (b : ℕ) (fin : Bool) (id : ℕ) : Prop := ∃ ids, L.batches[b]? = some (ids, fin) ∧ id ∈ ids

/-- Materializing ids. -/
def materialize (ids : List ℕ) : LiveIds := { L with materialized := fun id => L.materialized id ∨ id ∈ ids }

/-- Recording a gate. -/
def record (g : Gate) : LiveIds := { L with chunk := L.chunk ++ [g] }

/-- A constant is recorded once a chunk: one that is pending already is returned again. -/
def recordConst (v : Bool) (o : ℕ) : LiveIds :=
  if o ∈ L.chunk.map Gate.out then L else L.record ⟨0, 0, o, constOp v⟩

/-- What an operation that returns `ids` materializes, records, reserves, prunes and drops. -/
def move (ids : List ℕ) : SessionOp → LiveIds
  | .input _ | .runCircuit _ _ | .runBody _ _ | .runArtifact _ _ _ => L.materialize ids
  | .inputBatch => { L with batches := L.batches ++ [([], false)] }
  | .batchAdd b _ => { L with batches := L.batches.modify b fun p => (p.1 ++ ids, p.2) }
  | .batchFinish b =>
    { L.materialize (L.batches.getD b ([], false)).1 with batches := L.batches.modify b fun p => (p.1, true) }
  | .publicBit v => L.recordConst v (ids.headD 0)
  | .andGate a b => L.record ⟨a, b, ids.headD 0, .And⟩
  | .xorGate a b => L.record ⟨a, b, ids.headD 0, .Xor⟩
  | .notGate a => L.record ⟨a, 0, ids.headD 0, .Not⟩
  | .checkpoint keep => { L with materialized := fun id => id ∈ keep.flatten, chunk := [] }
  | .reveal v _ keep =>
    { L with materialized := fun id => L.materialized id ∨ (id ∈ v ++ keep.flatten ∧ L.Pending id), chunk := [] }

/-- One operation. -/
def next (op : SessionOp) (out : Output) : LiveIds :=
  { L.move out.ids op with
    allocated := fun id => L.allocated id ∨ id ∈ out.ids
    seen := fun id => L.seen id ∨ (L.move out.ids op).Live id }

variable {L} in
/-- What is reserved after one batch has changed. -/
theorem inBatch_modify {L' : LiveIds} {f : List ℕ × Bool → List ℕ × Bool} {b b' : ℕ} {fin : Bool} {id : ℕ}
    (hL : L'.batches = L.batches.modify b f) (h : L'.InBatch b' fin id) :
    (b = b' ∧ ∃ p, L.batches[b]? = some p ∧ (f p).2 = fin ∧ id ∈ (f p).1) ∨ (b ≠ b' ∧ L.InBatch b' fin id) := by
  obtain ⟨ids, hb', hid⟩ := h
  rw [hL, List.getElem?_modify] at hb'
  obtain ⟨p, hp, heq⟩ := Option.map_eq_some_iff.mp hb'
  split at heq
  · next hbb =>
    subst hbb
    exact .inl ⟨rfl, p, hp, congrArg Prod.snd heq, heq ▸ hid⟩
  · next hbb =>
    cases heq
    exact .inr ⟨hbb, ids, hp, hid⟩

end LiveIds

/-! ### A session and its ids -/

/-- A session whose recorder and carried map are as `L` says. -/
structure LiveMirrors {σ : Type} (s : Session σ) (L : LiveIds) : Prop where
  ok : ChunkOk s.ctx
  chunk : s.ctx.chunkGates = L.chunk
  carried : ∀ id, s.isCarried id = true ↔ L.materialized id
  batches : s.batches.map (fun b => (b.adds.flatMap BatchAdd.ids, b.finished)) = L.batches
  allocated : ∀ id, L.allocated id ↔ id < s.ctx.nextId
  seen : ∀ id, L.Live id → L.seen id
  seenLt : ∀ id, L.seen id → id < s.ctx.nextId
  reserved : ∀ b fin id, L.InBatch b fin id → id < s.ctx.nextId ∧ (fin = false → ¬ L.seen id)
  disjoint : ∀ b b' fin fin' id, L.InBatch b fin id → L.InBatch b' fin' id → b = b'

namespace LiveMirrors

variable {σ : Type} {s s' : Session σ} {L : LiveIds}

theorem start (st : σ) : LiveMirrors (Session.start st) {} where
  ok := .empty 0
  chunk := rfl
  carried id := by simp [Session.isCarried, Session.start]
  batches := rfl
  allocated id := by simp [Session.start]
  seen id h := by simp [LiveIds.Live, LiveIds.Pending] at h
  seenLt id h := h.elim
  reserved b fin id h := by simp [LiveIds.InBatch] at h
  disjoint b b' fin fin' id h := by simp [LiveIds.InBatch] at h

theorem pending_iff (h : LiveMirrors s L) (id : ℕ) : id ∈ s.ctx.pending ↔ L.Pending id := by
  rw [h.ok.pending, h.chunk]
  exact Iff.rfl

theorem live_iff (h : LiveMirrors s L) (id : ℕ) : s.IsLive id ↔ L.Live id :=
  or_congr (h.pending_iff id) (h.carried id)

/-- The session meets a stale wire where the ids say so. -/
theorem stale_iff (h : LiveMirrors s L) (named : List ℕ) : s.MeetsStale named ↔ L.Stale named := by
  unfold Session.MeetsStale LiveIds.Stale
  rw [h.chunk]
  simp only [h.live_iff]

/-- What an operation has to show: its new state, and that it made nothing live that was dropped. -/
structure Moved (s : Session σ) (L : LiveIds) (s' : Session σ) (L' : LiveIds) (ids : List ℕ) : Prop where
  ok : ChunkOk s'.ctx
  chunk : s'.ctx.chunkGates = L'.chunk
  carried : ∀ id, s'.isCarried id = true ↔ L'.materialized id
  batches : s'.batches.map (fun b => (b.adds.flatMap BatchAdd.ids, b.finished)) = L'.batches
  nextId : ∀ id, id < s'.ctx.nextId ↔ id < s.ctx.nextId ∨ id ∈ ids
  revived : ∀ id, L'.Live id → L.Live id ∨ (¬ L.seen id ∧ id < s'.ctx.nextId)
  reserved : ∀ b fin id, L'.InBatch b fin id → id < s'.ctx.nextId ∧ (fin = false → ¬ L.seen id ∧ ¬ L'.Live id)
  disjoint : ∀ b b' fin fin' id, L'.InBatch b fin id → L'.InBatch b' fin' id → b = b'

/-- **One operation** keeps the session and its ids together, and what was dropped stays dropped. -/
theorem next (h : LiveMirrors s L) {op : SessionOp} {out : Output} (hm : Moved s L s' (L.move out.ids op) out.ids) :
    LiveMirrors s' (L.next op out) ∧ ∀ id, L.Dropped id → (L.next op out).Dropped id := by
  have hlive : ∀ id, (L.next op out).Live id ↔ (L.move out.ids op).Live id := fun id => Iff.rfl
  refine ⟨⟨hm.ok, hm.chunk, hm.carried, hm.batches, fun id => ?_, fun id hid => .inr hid, fun id hid => ?_,
    fun b fin id hb => ?_, hm.disjoint⟩, fun id hid => ⟨.inl hid.1, fun hnow => ?_⟩⟩
  · rw [hm.nextId, ← h.allocated]
    exact Iff.rfl
  · rcases hid with hid | hid
    · exact (hm.nextId id).mpr (.inl (h.seenLt id hid))
    · rcases hm.revived id hid with hold | ⟨-, hlt⟩
      · exact (hm.nextId id).mpr (.inl (h.seenLt id (h.seen id hold)))
      · exact hlt
  · obtain ⟨hlt, hwait⟩ := hm.reserved b fin id hb
    refine ⟨hlt, fun hp => ?_⟩
    obtain ⟨hunseen, hnot⟩ := hwait hp
    rintro (hseen | hnow)
    · exact hunseen hseen
    · exact hnot hnow
  · rcases hm.revived id hnow with hold | ⟨hunseen, -⟩
    · exact hid.2 hold
    · exact hunseen hid.1

/-! ### The operations -/

/-- Ids that are new to the session. -/
theorem not_seen_of_ge (h : LiveMirrors s L) {id : ℕ} (hid : s.ctx.nextId ≤ id) : ¬ L.seen id :=
  fun hs => absurd (h.seenLt id hs) (Nat.not_lt_of_le hid)

/-- The batches are untouched, and nothing they wait for becomes live. -/
theorem reserved_of_same (h : LiveMirrors s L) (L' : LiveIds) (n : ℕ) (hb : L'.batches = L.batches)
    (hle : s.ctx.nextId ≤ n) (hlive : ∀ id, L'.Live id → L.Live id ∨ s.ctx.nextId ≤ id) :
    (∀ b fin id, L'.InBatch b fin id → id < n ∧ (fin = false → ¬ L.seen id ∧ ¬ L'.Live id)) ∧
      ∀ b b' fin fin' id, L'.InBatch b fin id → L'.InBatch b' fin' id → b = b' := by
  unfold LiveIds.InBatch
  rw [hb]
  refine ⟨fun b fin id hin => ?_, h.disjoint⟩
  obtain ⟨hlt, hwait⟩ := h.reserved b fin id hin
  refine ⟨Nat.lt_of_lt_of_le hlt hle, fun hfin => ⟨hwait hfin, fun hnow => ?_⟩⟩
  rcases hlive id hnow with hold | hge
  · exact hwait hfin (h.seen id hold)
  · exact absurd hlt (Nat.not_lt_of_le hge)

/-- Materializing a bundle under new ids. -/
theorem moved_materialize (h : LiveMirrors s L) {s₁ : Session σ} {ids : List ℕ} {w : SecureWires × SecureWires}
    (hm : s₁.materialize w = .ok (ids, s')) (hctx : s₁.ctx = s.ctx) (hcar : s₁.carried = s.carried)
    (hb : s₁.batches = s.batches) : Moved s L s' (L.materialize ids) ids := by
  obtain ⟨rfl, -, rfl⟩ := Session.materialize_ok hm
  rw [hctx, hcar, hb]
  have hmem : ∀ id, id ∈ List.range' s.ctx.nextId w.1.size ↔ s.ctx.nextId ≤ id ∧ id < s.ctx.nextId + w.1.size := by
    intro id
    rw [List.mem_range'_1]
  have hlive : ∀ id, (L.materialize (List.range' s.ctx.nextId w.1.size)).Live id → L.Live id ∨ s.ctx.nextId ≤ id := by
    rintro id (hpend | hmat | hnew)
    · exact .inl (.inl hpend)
    · exact .inl (.inr hmat)
    · exact .inr ((hmem id).mp hnew).1
  obtain ⟨hres, hdis⟩ := h.reserved_of_same (L.materialize (List.range' s.ctx.nextId w.1.size))
    (s.ctx.nextId + w.1.size) rfl (Nat.le_add_right _ _) hlive
  refine ⟨h.ok.reserve _, h.chunk, fun id => ?_, h.batches, fun id => ?_, fun id hid => ?_, hres, hdis⟩
  · refine carryLoad_isSome.trans (or_congr (h.carried id) Iff.rfl)
  · rw [hmem]
    dsimp only
    omega
  · rcases hid with hpend | hmat | hnew
    · exact .inl (.inl hpend)
    · exact .inl (.inr hmat)
    · obtain ⟨hge, hlt⟩ := (hmem id).mp hnew
      exact .inr ⟨h.not_seen_of_ge hge, hlt⟩

/-- Recording a gate. -/
theorem moved_record (h : LiveMirrors s L) {g : Gate} {c₁ c' : AG2PCCtx} (hrec : AG2PCCtx.Records s.ctx c₁ g)
    (hnext : c'.nextId = c₁.nextId) (hgates : c'.chunkGates = c₁.chunkGates) (hok : ChunkOk c') :
    Moved s L { s with ctx := c' } (L.record g) [g.out] := by
  obtain ⟨hout, -, rfl⟩ := hrec
  have hpend : ∀ id, (L.record g).Pending id ↔ L.Pending id ∨ id = g.out := by
    intro id
    unfold LiveIds.Pending LiveIds.record
    rw [List.map_append, List.mem_append, List.map_singleton, List.mem_singleton]
  have hlive : ∀ id, (L.record g).Live id → L.Live id ∨ s.ctx.nextId ≤ id := by
    rintro id (hp | hmat)
    · rcases (hpend id).mp hp with hp | rfl
      · exact .inl (.inl hp)
      · exact .inr (Nat.le_of_eq hout.symm)
    · exact .inl (.inr hmat)
  have hnextId : c'.nextId = s.ctx.nextId + 1 := hnext
  obtain ⟨hres, hdis⟩ := h.reserved_of_same (L.record g) c'.nextId rfl
    (Nat.le_of_lt (Nat.lt_of_lt_of_eq (Nat.lt_succ_self _) hnextId.symm)) hlive
  refine ⟨hok, ?_, h.carried, h.batches, fun id => ?_, fun id hid => ?_, hres, hdis⟩
  · dsimp only
    rw [hgates, h.chunk]
    rfl
  · dsimp only
    rw [hnextId, List.mem_singleton, hout]
    omega
  · rcases hlive id hid with hold | hge
    · exact .inl hold
    · refine or_iff_not_imp_left.mpr fun hnot => ⟨h.not_seen_of_ge hge, ?_⟩
      rcases hid with hp | hmat
      · rcases (hpend id).mp hp with hp | rfl
        · exact absurd (.inl hp) hnot
        · dsimp only
          omega
      · exact absurd (.inr hmat) hnot

/-- A constant: returned again, or recorded. -/
theorem moved_publicBit (h : LiveMirrors s L) {v : Bool} {o : ℕ} {c' : AG2PCCtx}
    (hc : s.ctx.publicBit v = .ok (o, c')) : Moved s L { s with ctx := c' } (L.recordConst v o) [o] := by
  rcases AG2PCCtx.publicBit_ok hc with ⟨hold, rfl⟩ | ⟨hnone, c₁, hrec, rfl⟩
  · -- the constant is pending: nothing moves
    obtain ⟨g, hg, rfl, -⟩ := h.ok.const v o hold
    have hpend : g.out ∈ L.chunk.map Gate.out := by
      rw [← h.chunk]
      exact List.mem_map_of_mem hg
    unfold LiveIds.recordConst
    rw [if_pos hpend]
    obtain ⟨hres, hdis⟩ := h.reserved_of_same L s.ctx.nextId rfl le_rfl fun id hid => .inl hid
    refine ⟨h.ok, h.chunk, h.carried, h.batches, fun id => ?_, fun id hid => .inl hid, hres, hdis⟩
    rw [List.mem_singleton]
    refine ⟨.inl, ?_⟩
    rintro (hlt | rfl)
    · exact hlt
    · exact h.ok.lt g hg
  · have hnew : o ∉ L.chunk.map Gate.out := by
      rw [← h.chunk]
      intro hmem
      obtain ⟨g, hg, hgo⟩ := List.mem_map.mp hmem
      have hlt := h.ok.lt g hg
      rw [hgo, show o = s.ctx.nextId from hrec.out] at hlt
      exact Nat.lt_irrefl _ hlt
    unfold LiveIds.recordConst
    rw [if_neg hnew]
    exact h.moved_record hrec rfl rfl (h.ok.recordsConst hnone hrec)

/-- A new batch. -/
theorem moved_inputBatch (h : LiveMirrors s L) :
    Moved s L { s with batches := s.batches ++ [{}] } { L with batches := L.batches ++ [([], false)] } [] := by
  have hin : ∀ b fin id, LiveIds.InBatch { L with batches := L.batches ++ [([], false)] } b fin id →
      L.InBatch b fin id := by
    rintro b fin id ⟨ids, hb, hid⟩
    dsimp only at hb
    rw [List.getElem?_append] at hb
    split at hb
    · exact ⟨ids, hb, hid⟩
    · rw [List.getElem?_singleton] at hb
      split at hb
      · cases hb
        exact absurd hid List.not_mem_nil
      · cases hb
  refine ⟨h.ok, h.chunk, h.carried, ?_, fun id => ?_, fun id hid => .inl hid, fun b fin id hb => ?_,
    fun b b' fin fin' id hb hb' => h.disjoint b b' fin fin' id (hin _ _ _ hb) (hin _ _ _ hb')⟩
  · dsimp only
    rw [List.map_append, h.batches]
    rfl
  · simp only [List.not_mem_nil, or_false]
  · obtain ⟨hlt, hwait⟩ := h.reserved b fin id (hin b fin id hb)
    exact ⟨hlt, fun hfin => ⟨hwait hfin, fun hnow => hwait hfin (h.seen id hnow)⟩⟩

end LiveMirrors

/-- An entry replaced by one that looks like the entry changed. -/
theorem map_set_eq_modify {α β : Type} {f : α → β} {g : β → β} {l : List α} {b : ℕ} {a a' : α}
    (ha : l[b]? = some a) (heq : f a' = g (f a)) : (l.set b a').map f = (l.map f).modify b g := by
  refine List.ext_getElem? fun i => ?_
  rw [List.getElem?_map, List.getElem?_set, List.getElem?_modify, List.getElem?_map]
  by_cases hi : b = i
  · subst hi
    obtain ⟨hlt, rfl⟩ := List.getElem?_eq_some_iff.mp ha
    simp [hlt, heq]
  · simp [hi]

namespace LiveMirrors

variable {σ : Type} {s s' : Session σ} {L : LiveIds}

/-- An addition to a batch, under new ids. -/
theorem moved_batchAdd (h : LiveMirrors s L) {b : ℕ} {x : ClearInput} {ids : List ℕ}
    (ha : s.batchAdd b x = .ok (ids, s')) :
    Moved s L s' { L with batches := L.batches.modify b fun p => (p.1 ++ ids, p.2) } ids := by
  obtain ⟨batch, hb, -, rfl, rfl⟩ := Session.batchAdd_ok ha
  have hmem : ∀ id, id ∈ List.range' s.ctx.nextId x.width ↔ s.ctx.nextId ≤ id ∧ id < s.ctx.nextId + x.width := by
    intro id
    rw [List.mem_range'_1]
  have hin : ∀ b' fin id, LiveIds.InBatch
      { L with batches := L.batches.modify b fun p => (p.1 ++ List.range' s.ctx.nextId x.width, p.2) } b' fin id →
      L.InBatch b' fin id ∨ (b = b' ∧ id ∈ List.range' s.ctx.nextId x.width) := by
    intro b' fin id hb'
    rcases LiveIds.inBatch_modify rfl hb' with ⟨rfl, p, hp, rfl, hid⟩ | ⟨-, hold⟩
    · rcases List.mem_append.mp hid with hid | hid
      · exact .inl ⟨p.1, hp, hid⟩
      · exact .inr ⟨rfl, hid⟩
    · exact .inl hold
  refine ⟨h.ok.reserve _, h.chunk, h.carried, ?_, fun id => ?_, fun id hid => .inl hid, fun b' fin id hb' => ?_,
    fun b₁ b₂ fin₁ fin₂ id h₁ h₂ => ?_⟩
  · rw [← h.batches]
    refine map_set_eq_modify hb ?_
    dsimp only
    rw [List.flatMap_append, List.flatMap_cons, List.flatMap_nil, List.append_nil]
  · rw [hmem]
    dsimp only
    omega
  · rcases hin b' fin id hb' with hold | ⟨-, hnew⟩
    · obtain ⟨hlt, hwait⟩ := h.reserved b' fin id hold
      exact ⟨Nat.lt_of_lt_of_le hlt (Nat.le_add_right _ _),
        fun hfin => ⟨hwait hfin, fun hnow => hwait hfin (h.seen id hnow)⟩⟩
    · obtain ⟨hge, hlt⟩ := (hmem id).mp hnew
      exact ⟨hlt, fun _ => ⟨h.not_seen_of_ge hge, fun hnow => h.not_seen_of_ge hge (h.seen id hnow)⟩⟩
  · rcases hin b₁ fin₁ id h₁ with hold₁ | ⟨rfl, hnew₁⟩
    · rcases hin b₂ fin₂ id h₂ with hold₂ | ⟨-, hnew₂⟩
      · exact h.disjoint b₁ b₂ fin₁ fin₂ id hold₁ hold₂
      · exact absurd (h.reserved b₁ fin₁ id hold₁).1 (Nat.not_lt_of_le ((hmem id).mp hnew₂).1)
    · rcases hin b₂ fin₂ id h₂ with hold₂ | ⟨hbb, -⟩
      · exact absurd (h.reserved b₂ fin₂ id hold₂).1 (Nat.not_lt_of_le ((hmem id).mp hnew₁).1)
      · exact hbb

end LiveMirrors

/-! ### What a batch and a flush materialize -/

section

variable {D σ : Type} {B : Backend D σ} {s s' : Session σ}

theorem materializeInto_isCarried {ids : List ℕ} {w : SecureWires × SecureWires} (h : s.materializeInto ids w = .ok s') :
    s'.ctx = s.ctx ∧ s'.batches = s.batches ∧
      ∀ id, s'.isCarried id = true ↔ s.isCarried id = true ∨ id ∈ ids := by
  obtain ⟨-, -, rfl⟩ := Session.materializeInto_ok h
  exact ⟨rfl, rfl, fun id => carryLoad_isSome⟩

/-- The public additions are materialized, and the others left to do. -/
theorem finishPublic_isCarried {adds sec : List BatchAdd} : ∀ {s s' : Session σ},
    s.finishPublic B adds = .ok (sec, s') → s'.ctx = s.ctx ∧ s'.batches = s.batches ∧
      ∀ id, (s'.isCarried id = true ∨ id ∈ sec.flatMap BatchAdd.ids) ↔
        s.isCarried id = true ∨ id ∈ adds.flatMap BatchAdd.ids := by
  induction adds generalizing sec with
  | nil =>
    intro s s' h
    cases h
    exact ⟨rfl, rfl, fun id => Iff.rfl⟩
  | cons a adds ih =>
    intro s s' h
    unfold Session.finishPublic at h
    have hsecret (h : (s.finishPublic B adds >>= fun p => pure (a :: p.1, p.2)) = Except.ok (sec, s')) :
        s'.ctx = s.ctx ∧ s'.batches = s.batches ∧
          ∀ id, (s'.isCarried id = true ∨ id ∈ sec.flatMap BatchAdd.ids) ↔
            s.isCarried id = true ∨ id ∈ (a :: adds).flatMap BatchAdd.ids := by
      obtain ⟨⟨sec', s₁⟩, hloop, hret⟩ := bind_eq_ok h
      cases hret
      obtain ⟨hctx, hb, hkeys⟩ := ih hloop
      refine ⟨hctx, hb, fun id => ?_⟩
      rw [List.flatMap_cons, List.flatMap_cons, List.mem_append, List.mem_append, or_left_comm, hkeys id,
        or_left_comm]
    split at h
    · obtain ⟨s₁, hmat, hloop⟩ := bind_eq_ok h
      obtain ⟨hctx₁, hb₁, hkeys₁⟩ := materializeInto_isCarried hmat
      obtain ⟨hctx, hb, hkeys⟩ := ih hloop
      refine ⟨hctx.trans hctx₁, hb.trans hb₁, fun id => ?_⟩
      rw [hkeys id, hkeys₁ id, List.flatMap_cons, List.mem_append, or_assoc]
    · exact hsecret h
    · exact hsecret h
    · cases h

/-- The groups are materialized. -/
theorem finishSecret_isCarried {sec : List BatchAdd} {subs : List SecureWires × List SecureWires} :
    ∀ {j : ℕ} {s s' : Session σ}, s.finishSecret subs j sec = .ok s' → s'.ctx = s.ctx ∧ s'.batches = s.batches ∧
      ∀ id, s'.isCarried id = true ↔ s.isCarried id = true ∨ id ∈ sec.flatMap BatchAdd.ids := by
  induction sec with
  | nil =>
    intro j s s' h
    cases h
    exact ⟨rfl, rfl, fun id => by simp⟩
  | cons a sec ih =>
    intro j s s' h
    obtain ⟨s₁, hmat, hloop⟩ := bind_eq_ok h
    obtain ⟨hctx₁, hb₁, hkeys₁⟩ := materializeInto_isCarried hmat
    obtain ⟨hctx, hb, hkeys⟩ := ih hloop
    refine ⟨hctx.trans hctx₁, hb.trans hb₁, fun id => ?_⟩
    rw [hkeys id, hkeys₁ id, List.flatMap_cons, List.mem_append, or_assoc]

/-- **Finishing a batch** materializes the ids of all its additions. -/
theorem batchFinish_isCarried {adds : List BatchAdd} (h : s.batchFinish_ B adds = .ok s') :
    s'.ctx = s.ctx ∧ s'.batches = s.batches ∧
      ∀ id, s'.isCarried id = true ↔ s.isCarried id = true ∨ id ∈ adds.flatMap BatchAdd.ids := by
  obtain ⟨⟨sec, s₁⟩, hpub, h⟩ := bind_eq_ok h
  obtain ⟨hctx₁, hb₁, hkeys₁⟩ := finishPublic_isCarried hpub
  dsimp only at h
  split at h
  · next hempty =>
    cases h
    rw [List.isEmpty_iff] at hempty
    refine ⟨hctx₁, hb₁, fun id => ?_⟩
    rw [← hkeys₁ id, hempty, List.flatMap_nil]
    exact (or_iff_left List.not_mem_nil).symm
  · obtain ⟨⟨subs, proto⟩, -, h⟩ := bind_eq_ok h
    obtain ⟨hctx, hb, hkeys⟩ := finishSecret_isCarried h
    exact ⟨hctx.trans hctx₁, hb.trans hb₁, fun id => (hkeys id).trans (hkeys₁ id)⟩

/-- A flush drops the chunk, and leaves the batches alone. -/
theorem flush_frame {keepIds : List ℕ} (h : s.flush B keepIds = .ok s') :
    s'.ctx = s.ctx.dropChunk ∧ s'.batches = s.batches := by
  obtain ⟨-, ⟨-, rfl⟩ | ⟨-, plan, out, proto, -, -, -, -, rfl⟩⟩ := Session.flush_ok h
  · exact ⟨rfl, rfl⟩
  · exact ⟨rfl, rfl⟩

end

namespace LiveMirrors

section

variable {D σ : Type} {B : Backend D σ} {s s' : Session σ} {L : LiveIds}

/-- A finished batch. -/
theorem moved_batchFinish (h : LiveMirrors s L) {b : ℕ} (hf : s.batchFinish B b = .ok s') :
    Moved s L s' { L.materialize (L.batches.getD b ([], false)).1 with
      batches := L.batches.modify b fun p => (p.1, true) } [] := by
  obtain ⟨batch, hb, hfin, hf⟩ := Session.batchFinish_ok hf
  obtain ⟨hctx, hbatches, hkeys⟩ := batchFinish_isCarried hf
  have hL : L.batches[b]? = some (batch.adds.flatMap BatchAdd.ids, false) := by
    rw [← h.batches, List.getElem?_map, hb, Option.map_some, hfin]
  have hD : (L.batches.getD b ([], false)).1 = batch.adds.flatMap BatchAdd.ids := by
    rw [List.getD_eq_getElem?_getD, hL, Option.getD_some]
  rw [hD]
  -- what the batch reserved has not been live
  have hwait : ∀ id ∈ batch.adds.flatMap BatchAdd.ids, id < s.ctx.nextId ∧ ¬ L.seen id := by
    intro id hid
    obtain ⟨hlt, hw⟩ := h.reserved b false id ⟨_, hL, hid⟩
    exact ⟨hlt, hw rfl⟩
  have hin : ∀ b' fin id, LiveIds.InBatch { L.materialize (batch.adds.flatMap BatchAdd.ids) with
      batches := L.batches.modify b fun p => (p.1, true) } b' fin id →
      (b = b' ∧ fin = true ∧ L.InBatch b' false id) ∨ (b ≠ b' ∧ L.InBatch b' fin id) := by
    intro b' fin id hb'
    rcases LiveIds.inBatch_modify (L := L) rfl hb' with ⟨rfl, p, hp, rfl, hid⟩ | hold
    · rw [hL] at hp
      cases hp
      exact .inl ⟨rfl, rfl, _, hL, hid⟩
    · exact .inr hold
  refine ⟨hctx ▸ h.ok, hctx ▸ h.chunk, fun id => (hkeys id).trans (or_congr (h.carried id) Iff.rfl), ?_, fun id => ?_,
    fun id hid => ?_, fun b' fin id hb' => ?_, fun b₁ b₂ fin₁ fin₂ id h₁ h₂ => ?_⟩
  · rw [hbatches, ← h.batches]
    exact map_set_eq_modify hb rfl
  · rw [hctx]
    simp only [List.not_mem_nil, or_false]
  · rw [hctx]
    rcases hid with hpend | hmat | hnew
    · exact .inl (.inl hpend)
    · exact .inl (.inr hmat)
    · exact .inr ⟨(hwait id hnew).2, (hwait id hnew).1⟩
  · rw [hctx]
    rcases hin b' fin id hb' with ⟨-, rfl, hold⟩ | ⟨hne, hold⟩
    · exact ⟨(h.reserved b' false id hold).1, fun htrue => Bool.noConfusion htrue⟩
    · obtain ⟨hlt, hw⟩ := h.reserved b' fin id hold
      refine ⟨hlt, fun hfin => ⟨hw hfin, ?_⟩⟩
      rintro (hpend | hmat | hnew)
      · exact hw hfin (h.seen id (.inl hpend))
      · exact hw hfin (h.seen id (.inr hmat))
      · exact hne (h.disjoint b b' false fin id ⟨_, hL, hnew⟩ hold)
  · have hold : ∀ {b' : ℕ} {fin : Bool}, LiveIds.InBatch { L.materialize (batch.adds.flatMap BatchAdd.ids) with
        batches := L.batches.modify b fun p => (p.1, true) } b' fin id → ∃ fin', L.InBatch b' fin' id := by
      intro b' fin hb'
      rcases hin b' fin id hb' with ⟨-, -, hold⟩ | ⟨-, hold⟩
      · exact ⟨_, hold⟩
      · exact ⟨_, hold⟩
    obtain ⟨f₁, hold₁⟩ := hold h₁
    obtain ⟨f₂, hold₂⟩ := hold h₂
    exact h.disjoint b₁ b₂ f₁ f₂ id hold₁ hold₂

/-- After a flush the chunk is empty, and what is materialized was live. -/
theorem moved_flush (h : LiveMirrors s L) {s₁ : Session σ} {keepIds : List ℕ} (hf : s.flush B keepIds = .ok s₁)
    (hctx : s'.ctx = s₁.ctx) (hb : s'.batches = s₁.batches) {mat : ℕ → Prop}
    (hcar : ∀ id, s'.isCarried id = true ↔ mat id) (hmat : ∀ id, mat id → L.Live id) :
    Moved s L s' { L with materialized := mat, chunk := [] } [] := by
  obtain ⟨hctx₁, hb₁⟩ := flush_frame hf
  have hnextId : s'.ctx.nextId = s.ctx.nextId := by rw [hctx, hctx₁]; rfl
  have hlive : ∀ id, LiveIds.Live { L with materialized := mat, chunk := [] } id → L.Live id := by
    rintro id (hpend | hm)
    · exact absurd hpend List.not_mem_nil
    · exact hmat id hm
  obtain ⟨hres, hdis⟩ := h.reserved_of_same { L with materialized := mat, chunk := [] } s'.ctx.nextId rfl
    (Nat.le_of_eq hnextId.symm) fun id hid => .inl (hlive id hid)
  refine ⟨?_, ?_, hcar, ?_, fun id => ?_, fun id hid => .inl (hlive id hid), hres, hdis⟩
  · rw [hctx, hctx₁]
    exact .dropChunk _
  · rw [hctx, hctx₁]
    rfl
  · rw [hb, hb₁]
    exact h.batches
  · rw [hnextId]
    simp only [List.not_mem_nil, or_false]

end

section

variable {D : Type} [DecidableEq D] {S : Setup D} {s s' : Session ProtoState} {L : LiveIds}

/-- A checkpoint. -/
theorem moved_checkpoint (h : LiveMirrors s L) {keep : List (List ℕ)} {s₁ : Session ProtoState}
    (hf : s.flush (.real S) keep.flatten = .ok s₁) :
    Moved s L { s₁ with carried := fun id => if id ∈ keep.flatten then s₁.carried id else none }
      { L with materialized := fun id => id ∈ keep.flatten, chunk := [] } [] := by
  refine h.moved_flush hf ?_ ?_ (Session.checkpoint_isCarried h.ok hf) fun id hid => ?_
  · rfl
  · rfl
  · exact (h.live_iff id).mp ((Session.flush_ok hf).1 id hid)

/-- A reveal. -/
theorem moved_reveal (h : LiveMirrors s L) {v : List ℕ} {keep : List (List ℕ)}
    (hf : s.flush (.real S) (v ++ keep.flatten) = .ok s') :
    Moved s L s'
      { L with materialized := fun id => L.materialized id ∨ (id ∈ v ++ keep.flatten ∧ L.Pending id), chunk := [] }
      [] := by
  refine h.moved_flush hf rfl rfl (fun id => ?_) fun id hid => ?_
  · rw [Session.flush_isCarried h.ok hf id, h.carried id, h.pending_iff id]
  · rcases hid with hmat | ⟨-, hpend⟩
    · exact .inr hmat
    · exact .inl hpend

/-- A run of any kind. -/
theorem moved_run (h : LiveMirrors s L) {args : List (List ℕ)} {ids : List ℕ}
    {engine : SecureWires → SecureWires → ProtoState → Except String ((SecureWires × SecureWires) × ProtoState)}
    (hr : Session.RunOk s s' args ids engine) : Moved s L s' (L.materialize ids) ids := by
  obtain ⟨-, out, proto, -, hmat⟩ := hr
  exact h.moved_materialize hmat rfl rfl rfl

/-- **What every operation does** to the session it does to its ids. -/
theorem moved (h : LiveMirrors s L) {op : SessionOp} {out : Output}
    (hs : Session.step (.real S) s op = .ok (out, s')) : Moved s L s' (L.move out.ids op) out.ids := by
  cases Session.step_ok hs with
  | input hauth hmat =>
    rcases Session.authenticate_ok hauth with ⟨-, rfl, -⟩ | ⟨-, subs, proto, -, -, rfl⟩
    · exact h.moved_materialize hmat rfl rfl rfl
    · exact h.moved_materialize hmat rfl rfl rfl
  | inputBatch => exact h.moved_inputBatch
  | batchAdd hadd => exact h.moved_batchAdd hadd
  | batchFinish hfin => exact h.moved_batchFinish hfin
  | publicBit hbit => exact h.moved_publicBit hbit
  | andGate hgate => exact h.moved_record (AG2PCCtx.andGate_ok hgate) rfl rfl (h.ok.andGate hgate)
  | xorGate hgate => exact h.moved_record (AG2PCCtx.xorGate_ok hgate) rfl rfl (h.ok.xorGate hgate)
  | notGate hgate => exact h.moved_record (AG2PCCtx.notGate_ok hgate) rfl rfl (h.ok.notGate hgate)
  | runCircuit hwidth hran => exact h.moved_run hran
  | runBody hran => exact h.moved_run hran
  | runArtifact hwidth hran => exact h.moved_run hran
  | checkpoint hflush => exact h.moved_checkpoint hflush
  | reveal hrec hflush hall hdecode => exact h.moved_reveal hflush

/-- **One operation**: session and ids stay together, and what was dropped stays dropped. -/
theorem step (h : LiveMirrors s L) {op : SessionOp} {out : Output}
    (hs : Session.step (.real S) s op = .ok (out, s')) :
    LiveMirrors s' (L.next op out) ∧ ∀ id, L.Dropped id → (L.next op out).Dropped id :=
  h.next (h.moved hs)

/-- **A run**: what is dropped at its start is dropped at its end. -/
theorem run {ops : List SessionOp} : ∀ {s t : Session ProtoState} {L : LiveIds} {outs : List Output},
    LiveMirrors s L → Library.Runs.run (Session.step (.real S)) s ops = .ok (outs, t) →
      LiveMirrors t (follow LiveIds.next L ops outs) ∧
        ∀ id, L.Dropped id → (follow LiveIds.next L ops outs).Dropped id := by
  induction ops with
  | nil =>
    intro s t L outs h hr
    cases hr
    exact ⟨h, fun id hid => hid⟩
  | cons op ops ih =>
    intro s t L outs h hr
    obtain ⟨out, s₁, outs', hs, hrest, rfl⟩ := run_cons_ok.mp hr
    obtain ⟨h₁, hdrop₁⟩ := h.step hs
    obtain ⟨hend, hdrop⟩ := ih h₁ hrest
    exact ⟨hend, fun id hid => hdrop id (hdrop₁ id hid)⟩

end

end LiveMirrors

/-! ### New ids -/

/-- The ids an operation returns are new and distinct, but for a constant of the chunk that is returned again. -/
def LiveIds.Fresh (L : LiveIds) (op : SessionOp) (out : Output) : Prop :=
  (out.ids.Nodup ∧ ∀ id ∈ out.ids, ¬ L.allocated id) ∨
    ∃ v, op = .publicBit v ∧ ∃ g ∈ L.chunk, g.op = constOp v ∧ out = .value [g.out]

namespace LiveMirrors

section

variable {D : Type} [DecidableEq D] {S : Setup D} {s s' : Session ProtoState} {L : LiveIds}

theorem fresh_range (h : LiveMirrors s L) (n : ℕ) :
    (List.range' s.ctx.nextId n).Nodup ∧ ∀ id ∈ List.range' s.ctx.nextId n, ¬ L.allocated id := by
  refine ⟨List.nodup_range', fun id hid hal => ?_⟩
  have hlt := (h.allocated id).mp hal
  have hge := (List.mem_range'_1.mp hid).1
  omega

theorem fresh_materialize (h : LiveMirrors s L) {s₁ : Session ProtoState} {ids : List ℕ}
    {w : SecureWires × SecureWires} (hm : s₁.materialize w = .ok (ids, s')) (hctx : s₁.ctx = s.ctx) :
    ids.Nodup ∧ ∀ id ∈ ids, ¬ L.allocated id := by
  obtain ⟨rfl, -, -⟩ := Session.materialize_ok hm
  rw [hctx]
  exact h.fresh_range _

theorem fresh_record (h : LiveMirrors s L) {g : Gate} {c₁ : AG2PCCtx} (hrec : AG2PCCtx.Records s.ctx c₁ g) :
    [g.out].Nodup ∧ ∀ id ∈ [g.out], ¬ L.allocated id := by
  rw [hrec.out]
  exact h.fresh_range 1

/-- **No id is allocated twice.** -/
theorem fresh (h : LiveMirrors s L) {op : SessionOp} {out : Output}
    (hs : Session.step (.real S) s op = .ok (out, s')) : L.Fresh op out := by
  have hrun : ∀ {args : List (List ℕ)} {ids : List ℕ}
      {engine : SecureWires → SecureWires → ProtoState → Except String ((SecureWires × SecureWires) × ProtoState)},
      Session.RunOk s s' args ids engine → ids.Nodup ∧ ∀ id ∈ ids, ¬ L.allocated id := by
    rintro args ids engine ⟨-, out, proto, -, hmat⟩
    exact h.fresh_materialize hmat rfl
  have hnone : ∀ {o : Output}, o.ids = [] → o.ids.Nodup ∧ ∀ id ∈ o.ids, ¬ L.allocated id := by
    intro o ho
    rw [ho]
    exact ⟨.nil, by simp⟩
  cases Session.step_ok hs with
  | input hauth hmat =>
    rcases Session.authenticate_ok hauth with ⟨-, rfl, -⟩ | ⟨-, subs, proto, -, -, rfl⟩
    · exact .inl (h.fresh_materialize hmat rfl)
    · exact .inl (h.fresh_materialize hmat rfl)
  | batchAdd hadd =>
    obtain ⟨batch, -, -, rfl, -⟩ := Session.batchAdd_ok hadd
    exact .inl (h.fresh_range _)
  | publicBit hbit =>
    rcases AG2PCCtx.publicBit_ok hbit with ⟨hold, -⟩ | ⟨-, c₁, hrec, -⟩
    · obtain ⟨g, hg, rfl, hop⟩ := h.ok.const _ _ hold
      exact .inr ⟨_, rfl, g, h.chunk ▸ hg, hop, rfl⟩
    · exact .inl (h.fresh_record hrec)
  | andGate hgate => exact .inl (h.fresh_record (AG2PCCtx.andGate_ok hgate))
  | xorGate hgate => exact .inl (h.fresh_record (AG2PCCtx.xorGate_ok hgate))
  | notGate hgate => exact .inl (h.fresh_record (AG2PCCtx.notGate_ok hgate))
  | runCircuit hwidth hran => exact .inl (hrun hran)
  | runBody hran => exact .inl (hrun hran)
  | runArtifact hwidth hran => exact .inl (hrun hran)
  | inputBatch | batchFinish hfin | checkpoint hflush | reveal hrec hflush hall hdecode => exact .inl (hnone rfl)

end

end LiveMirrors

/-! ### Every session -/

/-- A mapped call fails as the call does. -/
theorem map_eq_error {ε α β : Type} {x : Except ε α} {f : α → β} {e : ε} : x.map f = .error e ↔ x = .error e := by
  cases x with
  | error e' =>
    constructor
    · intro h
      cases h
      rfl
    · intro h
      cases h
      rfl
  | ok a => exact iff_of_false nofun nofun

theorem raises_map {α β : Type} {x : Except String α} {f : α → β} {errors : List String} :
    Raises (x.map f) errors ↔ Raises x errors := by
  unfold Raises
  simp only [map_eq_error]

section

variable {D : Type} [DecidableEq D] (S : Setup D) (s : Session ProtoState)

/-- Naming the id is an error in every operation that uses a value. -/
structure Rejects (id : ℕ) : Prop where
  reveal : ∀ v recipient keep, (∀ n, recipient ≠ .other n) → id ∈ v ++ List.flatten keep →
    Raises (Session.step (.real S) s (.reveal v recipient keep)) staleErrors
  checkpoint : ∀ keep, id ∈ List.flatten keep → Raises (Session.step (.real S) s (.checkpoint keep)) staleErrors
  runCircuit : ∀ prog args, id ∈ List.flatten args →
    Session.step (.real S) s (.runCircuit prog args) = .error unflushedError
  runBody : ∀ args body, id ∈ List.flatten args →
    Session.step (.real S) s (.runBody args body) = .error unflushedError
  runArtifact : ∀ retWidth prog args, id ∈ List.flatten args →
    Session.step (.real S) s (.runArtifact retWidth prog args) = .error unflushedError

/-- What a session does, in terms of its ids. -/
structure FollowsIds (L : LiveIds) : Prop where
  /-- What it has carried state for. -/
  carried : ∀ id, s.isCarried id = true ↔ L.materialized id
  /-- What is pending. -/
  pending : ∀ id, s.ctx.isPending id = true ↔ L.Pending id
  /-- A reveal, to a recipient there is, raises a stale error exactly when it meets a stale wire. -/
  reveal_stale : ∀ v recipient keep, Raises (Session.step (.real S) s (.reveal v recipient keep)) staleErrors ↔
    (∀ n, recipient ≠ .other n) ∧ L.Stale (v ++ List.flatten keep)
  /-- So does a checkpoint. -/
  checkpoint_stale : ∀ keep,
    Raises (Session.step (.real S) s (.checkpoint keep)) staleErrors ↔ L.Stale (List.flatten keep)
  /-- A run raises the unflushed error exactly when an argument is not materialized. -/
  runCircuit_unflushed : ∀ prog args, Session.step (.real S) s (.runCircuit prog args) = .error unflushedError ↔
    ∃ id ∈ List.flatten args, ¬ L.materialized id
  runBody_unflushed : ∀ args body, Session.step (.real S) s (.runBody args body) = .error unflushedError ↔
    ∃ id ∈ List.flatten args, ¬ L.materialized id
  runArtifact_unflushed : ∀ retWidth prog args,
    Session.step (.real S) s (.runArtifact retWidth prog args) = .error unflushedError ↔
      ∃ id ∈ List.flatten args, ¬ L.materialized id
  /-- What a reveal gathers is there. -/
  reveal_gathers : ∀ v recipient keep, Session.step (.real S) s (.reveal v recipient keep) ≠ .error gatherError
  /-- The keys of the carried map after a reveal. -/
  reveal_keys : ∀ v recipient keep out s', Session.step (.real S) s (.reveal v recipient keep) = .ok (out, s') →
    ∀ id, s'.isCarried id = true ↔ s.isCarried id = true ∨ (id ∈ v ++ List.flatten keep ∧ L.Pending id)
  /-- The keys of the carried map after a checkpoint. -/
  checkpoint_keys : ∀ keep out s', Session.step (.real S) s (.checkpoint keep) = .ok (out, s') →
    ∀ id, s'.isCarried id = true ↔ id ∈ List.flatten keep
  /-- No id is allocated twice. -/
  fresh : ∀ op out s', Session.step (.real S) s op = .ok (out, s') → L.Fresh op out
  /-- What was live and is dropped is rejected, however the session goes on. -/
  dropped : ∀ id, L.Dropped id → ∀ ops t, Reaches (Session.step (.real S)) s ops t → Rejects S t id

end

namespace LiveMirrors

variable {D : Type} [DecidableEq D] {S : Setup D} {s : Session ProtoState} {L : LiveIds}

theorem notMaterialized_iff (h : LiveMirrors s L) {args : List (List ℕ)} :
    (∃ id ∈ args.flatten, s.isCarried id = false) ↔ ∃ id ∈ args.flatten, ¬ L.materialized id := by
  simp only [← h.carried, Bool.not_eq_true]

/-- An id that is not live is rejected. -/
theorem rejects (h : LiveMirrors s L) {id : ℕ} (hid : ¬ L.Live id) : Rejects S s id := by
  have hmat : ¬ L.materialized id := fun hm => hid (.inr hm)
  refine ⟨fun v recipient keep hrec hmem => ?_, fun keep hmem => ?_, fun prog args hmem => ?_,
    fun args body hmem => ?_, fun retWidth prog args hmem => ?_⟩
  · exact raises_map.mpr ((Session.reveal_raises_iff h.ok).mpr ⟨hrec, (h.stale_iff _).mpr (.inl ⟨id, hmem, hid⟩)⟩)
  · exact raises_map.mpr ((Session.checkpoint_raises_iff h.ok).mpr ((h.stale_iff _).mpr (.inl ⟨id, hmem, hid⟩)))
  · exact map_eq_error.mpr ((Session.runCircuit_unflushed_iff prog).mpr (h.notMaterialized_iff.mpr ⟨id, hmem, hmat⟩))
  · exact map_eq_error.mpr
      ((Session.runBody_unflushed_iff body.body).mpr (h.notMaterialized_iff.mpr ⟨id, hmem, hmat⟩))
  · exact map_eq_error.mpr
      ((Session.runArtifact_unflushed_iff retWidth prog).mpr (h.notMaterialized_iff.mpr ⟨id, hmem, hmat⟩))

/-- **A session with its ids** does as they say. -/
theorem follows (h : LiveMirrors s L) : FollowsIds S s L where
  carried := h.carried
  pending id := by rw [← h.pending_iff id, AG2PCCtx.isPending, decide_eq_true_iff]
  reveal_stale v recipient keep := by
    rw [← h.stale_iff, ← Session.reveal_raises_iff (S := S) h.ok]
    exact raises_map
  checkpoint_stale keep := by
    rw [← h.stale_iff, ← Session.checkpoint_raises_iff (S := S) h.ok]
    exact raises_map
  runCircuit_unflushed prog args :=
    map_eq_error.trans ((Session.runCircuit_unflushed_iff prog).trans h.notMaterialized_iff)
  runBody_unflushed args body :=
    map_eq_error.trans ((Session.runBody_unflushed_iff body.body).trans h.notMaterialized_iff)
  runArtifact_unflushed retWidth prog args :=
    map_eq_error.trans ((Session.runArtifact_unflushed_iff retWidth prog).trans h.notMaterialized_iff)
  reveal_gathers v recipient keep he := Session.reveal_not_gather h.ok v recipient keep (map_eq_error.mp he)
  reveal_keys v recipient keep out s' hs id := by
    cases Session.step_ok hs with
    | reveal hrec hflush hall hdecode => rw [Session.flush_isCarried h.ok hflush id, h.pending_iff id]
  checkpoint_keys keep out s' hs id := by
    cases Session.step_ok hs with
    | checkpoint hflush => exact Session.checkpoint_isCarried h.ok hflush id
  fresh op out s' hs := h.fresh hs
  dropped id hid ops t hr := by
    obtain ⟨outs, hrun⟩ := hr
    obtain ⟨hend, hdrop⟩ := h.run hrun
    exact hend.rejects (hdrop id hid).2

end LiveMirrors

/-- **Stale wires are detected exactly, over whole sessions.** After every run the session does as the ids say that
its operations have returned. -/
theorem session_followsIds {D : Type} [DecidableEq D] {S : Setup D} {st : ProtoState} {ops : List SessionOp}
    {outs : List Output} {s : Session ProtoState}
    (hrun : run (Session.step (.real S)) (Session.start st) ops = .ok (outs, s)) :
    FollowsIds S s (follow LiveIds.next {} ops outs) :=
  ((LiveMirrors.start st).run hrun).1.follows

/-- A conjunction that is all a checkpoint keeps. -/
def prunedSession : List SessionOp :=
  [.input (.secret .alice [(true, false)]), .input (.secret .bob [(false, true)]), .andGate 0 1,
    .checkpoint [[2]]]

/-- Its session does as its ids say. -/
theorem session_followsIds_pruned :
    ∃ outs s, run (Session.step (.real Setup.zeros)) (Session.start {}) prunedSession = .ok (outs, s) ∧
      outs = [.value [0], .value [1], .value [2], .none] ∧
      FollowsIds Setup.zeros s (follow LiveIds.next {} prunedSession outs) := by
  have houts : (run (Session.step (.real Setup.zeros)) (Session.start {}) prunedSession).toOption.map Prod.fst =
      some [.value [0], .value [1], .value [2], .none] := by
    decide +kernel
  cases hrun : run (Session.step (.real Setup.zeros)) (Session.start {}) prunedSession with
  | error e =>
    rw [hrun] at houts
    cases houts
  | ok p =>
    rw [hrun] at houts
    exact ⟨p.1, p.2, rfl, Option.some.inj houts, session_followsIds hrun⟩

end AG2PC
