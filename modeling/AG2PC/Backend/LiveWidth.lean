import AG2PC.Backend.PassRuns
import Mathlib.Data.Finset.Lattice.Fold
import Mathlib.Data.Finset.Card
import Mathlib.Order.Lattice.Nat

/-!
# Slots and live width

How many slots the slot/mask pass makes. A wire that persists has a slot of its own; the other wires share
slots, which are freed at the last gate that reads them. A wire that no gate reads is never freed.

* `fabricSlots_gate` — the shared slots, occupied or free, gate by gate.
* `fabricSlots_le_iff` — after a run they are the most that were wanted at one time.
* `numSlots_eq` — the slots are those of the wires that persist and the shared ones.
* `numSlots_le_liveWidth_iff` — the slots are bounded by the live width exactly when wires that are never read
  do not push the occupation above it.
-/

namespace AG2PC

open Library.ByIndex

/-! ### Wires that share slots -/

section

variable (n : ℕ) (gs : List Gate) (outIds : List ℕ)

/-- A XOR, NOT or constant wire. -/
def IsLinear (w : ℕ) : Prop := ∃ g ∈ gs, g.out = w ∧ g.isAnd = false

instance : DecidablePred (IsLinear gs) := fun _ => inferInstanceAs (Decidable (∃ g ∈ gs, _))

/-- A XOR, NOT or constant wire that is no output: it need not persist. -/
def IsFabric (w : ℕ) : Prop := IsLinear gs w ∧ w ∉ outIds

instance : DecidablePred (IsFabric gs outIds) := fun _ => inferInstanceAs (Decidable (_ ∧ _))

/-- The XOR, NOT and constant wires that are outputs. -/
def linearOutputs : Finset ℕ := {w ∈ outIds.toFinset | IsLinear gs w}

/-- The fabric wires defined before gate `t` that it or a later gate reads. -/
def liveAt (t : ℕ) : Finset ℕ := {w ∈ Finset.range (n + t) | IsFabric gs outIds w ∧ ∃ g ∈ gs.drop t, w ∈ g.srcs}

/-- The fabric wires defined before gate `t` that no gate reads. -/
def unreadAt (t : ℕ) : Finset ℕ := {w ∈ Finset.range (n + t) | IsFabric gs outIds w ∧ ∀ g ∈ gs, w ∉ g.srcs}

/-- The live width: the most fabric wires that are live at one gate. -/
def liveWidth : ℕ := (Finset.range gs.length).sup fun t => (liveAt n gs outIds t).card

end

/-! ### The shared slots, gate by gate -/

section

variable (lastUse : ℕ → Option ℕ) (persist : ℕ → Bool)

/-- The wire occupies a shared slot at gate index `k`: it has not had its last use. -/
def Occupies (k w : ℕ) : Prop := persist w = false ∧ ∀ m ∈ lastUse w, k ≤ m

instance (k : ℕ) : DecidablePred (Occupies lastUse persist k) := fun _ => inferInstanceAs (Decidable (_ ∧ _))

/-- The wire has its last use at gate index `k`. -/
def Dies (k w : ℕ) : Prop := persist w = false ∧ lastUse w = some k

instance (k : ℕ) : DecidablePred (Dies lastUse persist k) := fun _ => inferInstanceAs (Decidable (_ ∧ _))

/-- The wires below `d` that occupy a shared slot. -/
def occupying (d k : ℕ) : Finset ℕ := {w ∈ Finset.range d | Occupies lastUse persist k w}

/-- The shared slots made so far: the free ones and the occupied ones. -/
def fabricSlots (a : Alloc) (d : ℕ) : ℕ := a.freelist.length + (occupying lastUse persist d a.gi).card

variable {lastUse persist} {a : Alloc} {g : Gate}

variable (lastUse persist a) in
/-- `free_if_dead` frees one slot, or none. -/
theorem freeIfDead_length (w : ℕ) : (a.freeIfDead lastUse persist w).freelist.length =
      a.freelist.length + (if Dies lastUse persist a.gi w then 1 else 0) ∧
    (a.freeIfDead lastUse persist w).numSlots = a.numSlots ∧ (a.freeIfDead lastUse persist w).gi = a.gi := by
  by_cases h : Dies lastUse persist a.gi w
  · have hdead : persist w = false ∧ lastUse w = some a.gi := h
    rw [if_pos h, Alloc.freeIfDead, if_pos hdead]
    exact ⟨rfl, rfl, rfl⟩
  · have hdead : ¬(persist w = false ∧ lastUse w = some a.gi) := h
    rw [if_neg h, Alloc.freeIfDead, if_neg hdead]
    exact ⟨rfl, rfl, rfl⟩

variable (lastUse persist a g) in
/-- A gate frees the slots of the operands that have their last use. -/
theorem gate_freelist : (a.gate lastUse persist g).freelist.length =
      (a.allocSlot persist g.out).freelist.length +
        {w ∈ g.srcs.toFinset | Dies lastUse persist a.gi w}.card ∧
    (a.gate lastUse persist g).numSlots = (a.allocSlot persist g.out).numSlots ∧
    (a.gate lastUse persist g).gi = nextIndex a.gi g := by
  have hgi : (a.allocSlot persist g.out).gi = a.gi := by
    rcases allocSlot_cases persist a g.out with ⟨-, slot, rest, -, heq⟩ | heq <;> rw [heq]
  rcases g.srcs_cases with ⟨hconst, hs⟩ | ⟨hop, hconst, hs⟩ | ⟨hop, hconst, hs⟩
  · have hgate : a.gate lastUse persist g = a.allocSlot persist g.out := by
      cases hg : g.op <;> simp_all [Gate.isConst, Alloc.gate]
    rw [hgate, hs, nextIndex, if_pos hconst]
    exact ⟨by simp, rfl, hgi⟩
  · obtain ⟨hlen, hnum, hk⟩ := freeIfDead_length lastUse persist (a.allocSlot persist g.out) g.in0
    rw [hgi] at hlen hk
    simp only [Alloc.gate, hop, hs, nextIndex, hconst, hlen, hnum, hk, List.toFinset_cons, List.toFinset_nil,
      insert_empty_eq, Finset.filter_singleton, Bool.false_eq_true, if_false, and_self, and_true]
    split_ifs <;> simp
  · obtain ⟨hlen, hnum, hk⟩ := freeIfDead_length lastUse persist (a.allocSlot persist g.out) g.in0
    obtain ⟨hlen', hnum', hk'⟩ := freeIfDead_length lastUse persist
      ((a.allocSlot persist g.out).freeIfDead lastUse persist g.in0) g.in1
    rw [hgi] at hlen hk
    rw [hk] at hlen' hk'
    have hgate : a.gate lastUse persist g =
        let b := (a.allocSlot persist g.out).freeIfDead lastUse persist g.in0
        let c := if g.in1 ≠ g.in0 then b.freeIfDead lastUse persist g.in1 else b
        { c with gi := c.gi + 1 } := by
      rcases hop with hop | hop <;> simp only [Alloc.gate, hop]
    rw [hgate, hs, nextIndex, hconst, List.toFinset_cons, List.toFinset_cons, List.toFinset_nil,
      insert_empty_eq]
    by_cases hsame : g.in1 = g.in0
    · simp only [hsame, ne_eq, not_true_eq_false, if_false, Finset.pair_eq_singleton, Finset.filter_singleton, hlen,
        hnum, hk, Bool.false_eq_true, and_true]
      split_ifs <;> simp
    · simp only [hsame, ne_eq, not_false_eq_true, if_true, hlen', hnum', hk', hlen, hnum, Bool.false_eq_true,
        if_false, and_true, Finset.filter_insert, Finset.filter_singleton]
      split_ifs <;> simp [Ne.symm hsame]

variable (persist) in
/-- The wires that occupy a slot before a gate do so after it, or have their last use there. -/
theorem card_occupying_gate {d k : ℕ} (hsrcs : ∀ w ∈ g.srcs, w < d)
    (hlast : ∀ w, g.isConst = false → lastUse w = some k → w ∈ g.srcs) :
    (occupying lastUse persist d k).card = (occupying lastUse persist d (nextIndex k g)).card +
      {w ∈ g.srcs.toFinset | Dies lastUse persist k w}.card := by
  cases hconst : g.isConst with
  | true =>
    have hnone : g.srcs = [] := by
      rcases g.srcs_cases with ⟨-, hs⟩ | ⟨-, hc, -⟩ | ⟨-, hc, -⟩
      · exact hs
      · exact absurd hconst (by rw [hc]; exact Bool.false_ne_true)
      · exact absurd hconst (by rw [hc]; exact Bool.false_ne_true)
    rw [nextIndex, if_pos hconst, hnone]
    rfl
  | false =>
    rw [nextIndex, hconst, if_neg Bool.false_ne_true, ← Finset.card_union_of_disjoint]
    · congr 1
      ext w
      rw [Finset.mem_union, occupying, occupying, Finset.mem_filter, Finset.mem_filter, Finset.mem_filter,
        Finset.mem_range, List.mem_toFinset]
      constructor
      · rintro ⟨hw, hp, hm⟩
        by_cases hk : lastUse w = some k
        · exact .inr ⟨hlast w hconst hk, hp, hk⟩
        · refine .inl ⟨hw, hp, fun m hl => Nat.lt_of_le_of_ne (hm m hl) ?_⟩
          rintro rfl
          exact hk hl
      · rintro (⟨hw, hp, hm⟩ | ⟨hw, hp, hk⟩)
        · exact ⟨hw, hp, fun m hl => Nat.le_of_succ_le (hm m hl)⟩
        · refine ⟨hsrcs w hw, hp, fun m hl => ?_⟩
          rw [hk] at hl
          exact Nat.le_of_eq (Option.some.inj hl)
    · refine Finset.disjoint_left.mpr fun w hw hw' => ?_
      obtain ⟨-, -, hm⟩ := Finset.mem_filter.mp hw
      obtain ⟨-, -, hk⟩ := Finset.mem_filter.mp hw'
      exact absurd (hm k hk) (Nat.not_succ_le_self k)

variable (persist) in
/-- A wire that need not persist occupies a slot from its definition on. -/
theorem card_occupying_succ {d k : ℕ} (hout : ∀ m, lastUse d = some m → k ≤ m) :
    (occupying lastUse persist (d + 1) k).card =
      (occupying lastUse persist d k).card + if persist d then 0 else 1 := by
  unfold occupying
  rw [Finset.range_add_one, Finset.filter_insert]
  cases hp : persist d with
  | true =>
    have hno : ¬ Occupies lastUse persist k d := fun h => by simp [h.1] at hp
    rw [if_neg hno]
    simp
  | false =>
    have hocc : Occupies lastUse persist k d := ⟨hp, hout⟩
    rw [if_pos hocc, Finset.card_insert_of_notMem (by simp)]
    simp

variable (persist) in
/-- **A gate**: for a wire that persists there is a slot more; for another the shared slots are then at least one
more than were occupied. -/
theorem fabricSlots_gate (hsrcs : ∀ w ∈ g.srcs, w < g.out)
    (hlast : ∀ w, g.isConst = false → lastUse w = some a.gi → w ∈ g.srcs)
    (hout : ∀ m, lastUse g.out = some m → nextIndex a.gi g ≤ m) :
    let F := fabricSlots lastUse persist a g.out
    let F' := fabricSlots lastUse persist (a.gate lastUse persist g) (g.out + 1)
    F' = (if persist g.out then F else max F ((occupying lastUse persist g.out a.gi).card + 1)) ∧
      (a.gate lastUse persist g).numSlots + F = a.numSlots + (if persist g.out then 1 else 0) + F' := by
  intro F F'
  obtain ⟨hfree, hnum, hgi⟩ := gate_freelist lastUse persist a g
  have hocc := card_occupying_gate persist hsrcs hlast
  have hocc' := card_occupying_succ persist hout
  have hF : F = a.freelist.length + (occupying lastUse persist g.out a.gi).card := rfl
  have hF' : F' = (a.allocSlot persist g.out).freelist.length +
      (occupying lastUse persist g.out a.gi).card + if persist g.out then 0 else 1 := by
    change (a.gate lastUse persist g).freelist.length +
      (occupying lastUse persist (g.out + 1) (a.gate lastUse persist g).gi).card = _
    rw [hgi, hfree, hocc', hocc]
    omega
  rw [hnum, hF', hF]
  unfold Alloc.allocSlot
  cases hp : persist g.out with
  | true =>
    simp only [if_true]
    omega
  | false =>
    cases hl : a.freelist with
    | nil =>
      simp only [List.length_nil, Bool.false_eq_true, if_false]
      omega
    | cons slot rest =>
      simp only [List.length_cons, Bool.false_eq_true, if_false]
      omega

/-- Every gate index that is a last use is that of a gate that reads the wire, and a wire is used after its
definition only. -/
def LastUseExact (lastUse : ℕ → Option ℕ) : ℕ → List Gate → Prop
  | _, [] => True
  | k, g :: gs => (∀ w, g.isConst = false → lastUse w = some k → w ∈ g.srcs) ∧
      (∀ m, lastUse g.out = some m → nextIndex k g ≤ m) ∧ LastUseExact lastUse (nextIndex k g) gs

variable (persist) in
/-- **A run**: the shared slots in the end are at most `N` exactly when they were at the start and wherever a slot
was wanted at most `N` were occupied, that one included; and what was made is counted. -/
theorem fabricSlots_run (gs : List Gate) : ∀ {d : ℕ} {a : Alloc}, CanonicalStream d gs →
    LastUseExact lastUse a.gi gs →
    let b := allocGates lastUse persist a gs
    (∀ N, fabricSlots lastUse persist b (d + gs.length) ≤ N ↔ fabricSlots lastUse persist a d ≤ N ∧
      ∀ pre g post, gs = pre ++ g :: post → persist g.out = false →
        (occupying lastUse persist g.out (pre.foldl nextIndex a.gi)).card + 1 ≤ N) ∧
    b.numSlots + fabricSlots lastUse persist a d =
      a.numSlots + gs.countP (fun g => persist g.out) + fabricSlots lastUse persist b (d + gs.length) := by
  induction gs with
  | nil =>
    intro d a _ _
    refine ⟨fun N => (and_iff_left ?_).symm, rfl⟩
    rintro pre g post h
    cases pre <;> cases h
  | cons g gs ih =>
    intro d a hcan hexact
    obtain ⟨rfl, hsrcs, hrest⟩ := canonicalStream_cons.mp hcan
    obtain ⟨hlast, hout, hexact'⟩ := hexact
    obtain ⟨hF, hnum⟩ := fabricSlots_gate persist hsrcs hlast hout
    have hgi : (a.gate lastUse persist g).gi = nextIndex a.gi g := (gate_freelist lastUse persist a g).2.2
    obtain ⟨hle, hcount⟩ := ih hrest (hgi ▸ hexact')
    have hlen : g.out + (g :: gs).length = g.out + 1 + gs.length := by
      rw [List.length_cons]
      omega
    have hfold : allocGates lastUse persist a (g :: gs) = allocGates lastUse persist (a.gate lastUse persist g) gs := rfl
    rw [hlen, hfold]
    constructor
    · intro N
      rw [hle N, hF, forall_split_cons, hgi]
      cases hp : persist g.out with
      | true => simp
      | false =>
        simp only [Bool.false_eq_true, if_false, Nat.max_le, forall_const, List.foldl_nil, List.foldl_cons,
          and_assoc]
    · rw [List.countP_cons]
      cases hp : persist g.out <;> simp only [hp, if_true, Bool.false_eq_true, if_false] at hnum ⊢ <;> omega

end

/-! ### What the liveness pass finds, exactly -/

section

/-- A wire is not read when it is defined. -/
theorem liveness_lastUse_out {s : Liveness} {g : Gate} (h : g.out ∉ g.srcs) :
    (livenessPass.step s g).lastUse g.out = none := by
  cases hg : g.op <;>
    simp_all [Pass.step, livenessPass, Liveness.emit, Liveness.read, Gate.srcs]

/-- A gate moves the last use of a wire to its own index, or takes it away, or leaves it. -/
theorem liveness_lastUse_step (s : Liveness) (g : Gate) (w : ℕ) :
    (livenessPass.step s g).lastUse w = s.lastUse w ∨ (livenessPass.step s g).lastUse w = none ∨
      w ∈ g.srcs ∧ (livenessPass.step s g).lastUse w = some s.gi := by
  obtain ⟨-, -, hread, hother⟩ := liveness_step s g
  by_cases hsrc : w ∈ g.srcs
  · exact .inr (.inr ⟨hsrc, hread w hsrc⟩)
  · by_cases hout : w = g.out
    · subst hout
      exact .inr (.inl (liveness_lastUse_out hsrc))
    · exact .inl (hother w hout hsrc)

/-- A read is no constant's. -/
theorem isConst_of_mem_srcs {g : Gate} {w : ℕ} (h : w ∈ g.srcs) : g.isConst = false := by
  rcases g.srcs_cases with ⟨-, hs⟩ | ⟨-, hc, -⟩ | ⟨-, hc, -⟩
  · rw [hs] at h
    cases h
  · exact hc
  · exact hc

/-- No last use is ahead of the gate index. -/
def LastUseLt (s : Liveness) : Prop := ∀ w m, s.lastUse w = some m → m < s.gi

theorem LastUseLt.step {s : Liveness} (h : LastUseLt s) (g : Gate) : LastUseLt (livenessPass.step s g) := by
  intro w m hm
  rw [(liveness_step s g).1]
  rcases liveness_lastUse_step s g w with heq | hnone | ⟨hsrc, hsome⟩
  · exact Nat.lt_of_lt_of_le (h w m (heq ▸ hm)) (le_nextIndex s.gi g)
  · rw [hnone] at hm
    cases hm
  · rw [hsome] at hm
    obtain rfl := Option.some.inj hm
    rw [nextIndex, isConst_of_mem_srcs hsrc]
    exact Nat.lt_succ_self _

/-- The last use after some gates is the one before, or none, or at a later gate that reads the wire. -/
theorem liveness_lastUse_cases (gs : List Gate) : ∀ (s : Liveness) (w : ℕ),
    (gs.foldl livenessPass.step s).lastUse w = s.lastUse w ∨ (gs.foldl livenessPass.step s).lastUse w = none ∨
      ∃ m, s.gi ≤ m ∧ (gs.foldl livenessPass.step s).lastUse w = some m ∧ ∃ g ∈ gs, w ∈ g.srcs := by
  induction gs with
  | nil => exact fun s w => .inl rfl
  | cons g gs ih =>
    intro s w
    have hgi := (liveness_step s g).1
    have hle := le_nextIndex s.gi g
    rw [List.foldl_cons]
    rcases ih (livenessPass.step s g) w with heq | hnone | ⟨m, hm, hl, g', hg', hw⟩
    · rcases liveness_lastUse_step s g w with heq' | hnone | ⟨hsrc, hsome⟩
      · exact .inl (heq.trans heq')
      · exact .inr (.inl (heq.trans hnone))
      · exact .inr (.inr ⟨s.gi, Nat.le_refl _, heq.trans hsome, g, List.mem_cons_self, hsrc⟩)
    · exact .inr (.inl hnone)
    · exact .inr (.inr ⟨m, by omega, hl, g', List.mem_cons_of_mem _ hg', hw⟩)

/-- A last use that is not behind the gate index is that of a gate to come. -/
theorem exists_read_of_lastUse {gs : List Gate} {s : Liveness} (h : LastUseLt s) {w m : ℕ}
    (hm : (gs.foldl livenessPass.step s).lastUse w = some m) (hle : s.gi ≤ m) : ∃ g ∈ gs, w ∈ g.srcs := by
  rcases liveness_lastUse_cases gs s w with heq | hnone | ⟨-, -, -, hread⟩
  · exact absurd (h w m (heq ▸ hm)) (Nat.not_lt_of_le hle)
  · rw [hnone] at hm
    cases hm
  · exact hread

/-- **The liveness pass is exact.** -/
theorem lastUseExact_liveness (gs : List Gate) : ∀ {n : ℕ} (s : Liveness), CanonicalStream n gs → LastUseLt s →
    LastUseExact (gs.foldl livenessPass.step s).lastUse s.gi gs := by
  induction gs with
  | nil => exact fun _ _ _ => trivial
  | cons g gs ih =>
    intro n s hcan hlt
    obtain ⟨hout, hsrcs, hrest⟩ := canonicalStream_cons.mp hcan
    have hgi := (liveness_step s g).1
    rw [List.foldl_cons]
    refine ⟨fun w hconst hm => ?_, fun m hm => ?_, hgi ▸ ih _ hrest (hlt.step g)⟩
    · by_contra hsrc
      rcases liveness_lastUse_cases gs (livenessPass.step s g) w with heq | hnone | ⟨m, hm', hl, -⟩
      · rcases liveness_lastUse_step s g w with heq' | hnone | ⟨hsrc', -⟩
        · exact absurd (hlt w s.gi (heq' ▸ heq ▸ hm)) (Nat.lt_irrefl _)
        · rw [heq, hnone] at hm
          cases hm
        · exact hsrc hsrc'
      · rw [hnone] at hm
        cases hm
      · rw [hl] at hm
        obtain rfl := Option.some.inj hm
        rw [hgi, nextIndex, hconst] at hm'
        exact absurd hm' (Nat.not_succ_le_self _)
    · have hself : g.out ∉ g.srcs := fun h => by
        have := hsrcs _ h
        omega
      rw [← hgi]
      rcases liveness_lastUse_cases gs (livenessPass.step s g) g.out with heq | hnone | ⟨m', hm', hl, -⟩
      · rw [heq, liveness_lastUse_out hself] at hm
        cases hm
      · rw [hnone] at hm
        cases hm
      · rw [hl] at hm
        obtain rfl := Option.some.inj hm
        exact hm'

end

/-! ### The slots of a stream -/

section

variable {lastUse : ℕ → Option ℕ} {persist : ℕ → Bool}

/-- A read is before the last use. -/
theorem ReadsCovered.of_mem {gs : List Gate} : ∀ {k : ℕ}, ReadsCovered lastUse persist k gs → ∀ g ∈ gs,
    ∀ w ∈ g.srcs, ∃ m, k ≤ m ∧ lastUse w = some m := by
  induction gs with
  | nil => exact fun _ g hg => absurd hg List.not_mem_nil
  | cons g gs ih =>
    rintro k ⟨hreads, -, hrest⟩ g' hg' w hw
    rcases List.mem_cons.mp hg' with rfl | hg'
    · exact hreads w hw
    · obtain ⟨m, hm, hl⟩ := ih hrest g' hg' w hw
      exact ⟨m, (le_nextIndex k g).trans hm, hl⟩

theorem ReadsCovered.append_right {pre post : List Gate} : ∀ {k : ℕ}, ReadsCovered lastUse persist k (pre ++ post) →
    ReadsCovered lastUse persist (pre.foldl nextIndex k) post := by
  induction pre with
  | nil => exact id
  | cons g pre ih => exact fun h => ih h.2.2

end

section

variable {n : ℕ} {gs : List Gate} {outIds : List ℕ}

theorem liveness_gi (pre : List Gate) : ∀ s : Liveness,
    (pre.foldl livenessPass.step s).gi = pre.foldl nextIndex s.gi := by
  induction pre with
  | nil => exact fun s => rfl
  | cons g pre ih =>
    intro s
    rw [List.foldl_cons, List.foldl_cons, ih, (liveness_step s g).1]

theorem LastUseLt.run {s : Liveness} (h : LastUseLt s) (pre : List Gate) :
    LastUseLt (pre.foldl livenessPass.step s) := by
  induction pre generalizing s with
  | nil => exact h
  | cons g pre ih => exact ih (h.step g)

theorem lastUseLt_start : LastUseLt (.start n) := nofun

/-- A wire above the inputs is the output of a gate. -/
theorem exists_gate_of_lt (h : CanonicalStream n gs) {t : ℕ} (ht : t < gs.length) : gs[t].out = n + t := by
  have hout := canonicalStream_out h t ht
  rwa [List.getD_eq_getElem?_getD, List.getElem?_map, List.getElem?_eq_getElem ht] at hout

/-- What persists of the outputs of gates: those of ANDs, and the outputs of the stream. -/
theorem liveness_persist_mem : ∀ {n : ℕ} (s : Liveness), CanonicalStream n gs → ∀ g ∈ gs,
    (gs.foldl livenessPass.step s).persist g.out = g.isAnd := by
  induction gs with
  | nil => exact fun _ _ g hg => absurd hg List.not_mem_nil
  | cons g gs ih =>
    intro n s hcan g' hg'
    obtain ⟨hout, -, hrest⟩ := canonicalStream_cons.mp hcan
    rw [List.foldl_cons]
    rcases List.mem_cons.mp hg' with rfl | hg'
    · rw [liveness_persist_of_lt gs _ hrest _ (by omega), (liveness_step s g').2.1, Function.update_self]
    · exact ih _ hrest g' hg'

/-- The wires that need not persist are the fabric wires. -/
theorem persist_eq_false_iff (h : CanonicalStream n gs) {g : Gate} (hg : g ∈ gs) :
    (streamLiveness n gs outIds).persist g.out = false ↔ g.isAnd = false ∧ g.out ∉ outIds := by
  have hlt := (canonicalStream_lt h hg).1
  simp only [streamLiveness, Liveness.commit, liveness_persist_mem _ h g hg, Bool.or_eq_false_iff, hlt, decide_true,
    Bool.and_true, decide_eq_false_iff_not]

theorem isFabric_iff (h : CanonicalStream n gs) {g : Gate} (hg : g ∈ gs) :
    IsFabric gs outIds g.out ↔ (streamLiveness n gs outIds).persist g.out = false := by
  rw [persist_eq_false_iff h hg, IsFabric]
  refine and_congr_left fun _ => ⟨?_, fun hand => ⟨g, hg, rfl, hand⟩⟩
  rintro ⟨g', hg', hout, hand⟩
  -- one gate writes the wire
  obtain ⟨i, hi, rfl⟩ := List.getElem_of_mem hg
  obtain ⟨j, hj, rfl⟩ := List.getElem_of_mem hg'
  rw [exists_gate_of_lt h hi, exists_gate_of_lt h hj] at hout
  obtain rfl : j = i := Nat.add_left_cancel hout
  exact hand

/-- Below gate `t`, the wires that need not persist are the fabric wires. -/
theorem isFabric_iff_of_lt (h : CanonicalStream n gs) {w : ℕ} (hw : w < n + gs.length) :
    IsFabric gs outIds w ↔ (streamLiveness n gs outIds).persist w = false := by
  rcases Nat.lt_or_ge w n with hin | hge
  · refine iff_of_false ?_ (by simp [(show Persistent n gs outIds w from persistent_input h hin).1])
    rintro ⟨⟨g, hg, rfl, -⟩, -⟩
    exact absurd (canonicalStream_le h hg) (Nat.not_le_of_lt hin)
  · have ht : w - n < gs.length := by omega
    have hout := exists_gate_of_lt h ht
    rw [Nat.add_sub_cancel' hge] at hout
    rw [← hout]
    exact isFabric_iff h (List.getElem_mem ht)

/-- **What occupies a shared slot** before a gate: the fabric wires that are live, and those that are never read. -/
theorem occupying_eq {pre post : List Gate} (h : CanonicalStream n (pre ++ post)) :
    occupying (streamLiveness n (pre ++ post) outIds).lastUse (streamLiveness n (pre ++ post) outIds).persist
        (n + pre.length) (pre.foldl nextIndex 0) =
      liveAt n (pre ++ post) outIds pre.length ∪ unreadAt n (pre ++ post) outIds pre.length := by
  ext w
  simp only [occupying, liveAt, unreadAt, Occupies, Finset.mem_union, Finset.mem_filter, Finset.mem_range,
    List.drop_left, Option.mem_def, ← and_or_left]
  refine and_congr_right fun hw => ?_
  have hlt : w < n + (pre ++ post).length := by
    rw [List.length_append]
    omega
  rw [isFabric_iff_of_lt h hlt]
  refine and_congr_right fun _ => ?_
  have hcov : ReadsCovered (streamLiveness n (pre ++ post) outIds).lastUse
      (streamLiveness n (pre ++ post) outIds).persist 0 (pre ++ post) := readsCovered_stream h
  have hgi : (pre.foldl livenessPass.step (.start n)).gi = pre.foldl nextIndex 0 := liveness_gi pre _
  have hfold : (streamLiveness n (pre ++ post) outIds).lastUse =
      (post.foldl livenessPass.step (pre.foldl livenessPass.step (.start n))).lastUse := by
    rw [← List.foldl_append]
    rfl
  constructor
  · intro hlast
    cases hl : (streamLiveness n (pre ++ post) outIds).lastUse w with
    | none =>
      refine .inr fun g hg hread => ?_
      obtain ⟨m, -, hm⟩ := hcov.of_mem g hg w hread
      rw [hl] at hm
      cases hm
    | some m =>
      refine .inl (exists_read_of_lastUse (lastUseLt_start.run pre) (hfold ▸ hl) ?_)
      rw [hgi]
      exact hlast m hl
  · rintro (⟨g, hg, hread⟩ | hnone) m hl
    · obtain ⟨m', hm', hl'⟩ := hcov.append_right.of_mem g hg w hread
      rw [hl'] at hl
      exact Option.some.inj hl ▸ hm'
    · obtain ⟨g, hg, hread⟩ := exists_read_of_lastUse (s := .start n) lastUseLt_start hl (Nat.zero_le m)
      exact absurd hread (hnone g hg)

variable (outIds) in
/-- Their number. -/
theorem card_occupying {pre post : List Gate} (h : CanonicalStream n (pre ++ post)) :
    (occupying (streamLiveness n (pre ++ post) outIds).lastUse (streamLiveness n (pre ++ post) outIds).persist
        (n + pre.length) (pre.foldl nextIndex 0)).card =
      (liveAt n (pre ++ post) outIds pre.length).card + (unreadAt n (pre ++ post) outIds pre.length).card := by
  rw [occupying_eq h, Finset.card_union_of_disjoint]
  refine Finset.disjoint_left.mpr fun w hw hw' => ?_
  obtain ⟨-, -, g, hg, hread⟩ := Finset.mem_filter.mp hw
  obtain ⟨-, -, hnone⟩ := Finset.mem_filter.mp hw'
  exact hnone g (List.mem_of_mem_drop hg) hread

/-- The wires that persist and are no inputs: the outputs of ANDs and the linear outputs. -/
theorem countP_persist (h : CanonicalStream n gs) :
    gs.countP (fun g => (streamLiveness n gs outIds).persist g.out) =
      countAnds gs + (linearOutputs gs outIds).card := by
  have hlin : linearOutputs gs outIds = ((gs.filter fun g => !g.isAnd && decide (g.out ∈ outIds)).map Gate.out).toFinset := by
    ext w
    rw [linearOutputs, Finset.mem_filter, List.mem_toFinset, List.mem_toFinset, List.mem_map]
    simp only [List.mem_filter, Bool.and_eq_true, Bool.not_eq_true', decide_eq_true_eq]
    constructor
    · rintro ⟨hw, g, hg, rfl, hand⟩
      exact ⟨g, ⟨hg, hand, hw⟩, rfl⟩
    · rintro ⟨g, ⟨hg, hand, hw⟩, rfl⟩
      exact ⟨hw, g, hg, rfl, hand⟩
  have hnodup : ((gs.filter fun g => !g.isAnd && decide (g.out ∈ outIds)).map Gate.out).Nodup :=
    ((canonicalStream_ordered h).sublist List.filter_sublist).outs.imp Nat.ne_of_lt
  rw [hlin, List.toFinset_card_of_nodup hnodup, List.length_map, ← List.countP_eq_length_filter, countAnds]
  have hcount : gs.countP (fun g => (streamLiveness n gs outIds).persist g.out) =
      gs.countP fun g => g.isAnd || (!g.isAnd && decide (g.out ∈ outIds)) := by
    refine List.countP_congr fun g hg => ?_
    rw [← Bool.not_eq_false, persist_eq_false_iff h hg]
    cases g.isAnd <;> simp
  rw [hcount]
  clear hlin hnodup hcount h
  induction gs with
  | nil => rfl
  | cons g gs ih =>
    simp only [List.countP_cons, ih]
    cases g.isAnd <;> simp <;> omega

/-- **The slots of a stream**: one for each input, AND and linear output, and the shared slots, which are as many as
were wanted at one time. -/
theorem numSlots_eq (outIds : List ℕ) (h : CanonicalStream n gs) : ∃ F,
    (streamAlloc n gs outIds).numSlots = n + countAnds gs + (linearOutputs gs outIds).card + F ∧
      ∀ N, F ≤ N ↔ ∀ t < gs.length, IsFabric gs outIds (n + t) →
        (liveAt n gs outIds t).card + (unreadAt n gs outIds t).card + 1 ≤ N := by
  have hexact : LastUseExact (streamLiveness n gs outIds).lastUse 0 gs :=
    lastUseExact_liveness gs (.start n) h lastUseLt_start
  obtain ⟨hle, hnum⟩ := fabricSlots_run (streamLiveness n gs outIds).persist gs (show CanonicalStream n gs from h)
    (show LastUseExact _ (Alloc.start n).gi gs from hexact)
  have hempty : occupying (streamLiveness n gs outIds).lastUse (streamLiveness n gs outIds).persist n 0 = ∅ := by
    rw [occupying, Finset.filter_eq_empty_iff]
    intro w hw hocc
    have hp : (streamLiveness n gs outIds).persist w = true := (persistent_input h (Finset.mem_range.mp hw)).1
    rw [hocc.1] at hp
    cases hp
  have hstart : fabricSlots (streamLiveness n gs outIds).lastUse (streamLiveness n gs outIds).persist (.start n) n =
      0 := by
    change 0 + (occupying _ _ n 0).card = 0
    rw [hempty, Finset.card_empty]
  change (streamAlloc n gs outIds).numSlots + _ = n + _ + _ at hnum
  rw [hstart, Nat.add_zero, countP_persist h, ← Nat.add_assoc] at hnum
  refine ⟨_, hnum, fun N => ?_⟩
  rw [hle N, hstart, and_iff_right (Nat.zero_le N)]
  -- the gates by their place
  constructor
  · intro hall t ht hfab
    have hsplit : gs = gs.take t ++ gs[t] :: gs.drop (t + 1) := by
      rw [← List.drop_eq_getElem_cons ht, List.take_append_drop]
    have hlen : (gs.take t).length = t := List.length_take_of_le (Nat.le_of_lt ht)
    have hout := exists_gate_of_lt h ht
    rw [← hout, isFabric_iff h (List.getElem_mem ht)] at hfab
    have hcard := card_occupying outIds (hsplit ▸ h)
    rw [← hsplit, hlen] at hcard
    rw [← hcard, ← hout]
    exact hall _ _ _ hsplit hfab
  · rintro hall pre g post rfl hp
    have hmem : g ∈ pre ++ g :: post := List.mem_append_right _ List.mem_cons_self
    have hlt : pre.length < (pre ++ g :: post).length := by
      rw [List.length_append, List.length_cons]
      omega
    have hout := exists_gate_of_lt h hlt
    rw [List.getElem_append_right (Nat.le_refl _)] at hout
    simp only [Nat.sub_self, List.getElem_cons_zero] at hout
    have hocc := hall pre.length hlt (by rwa [← hout, isFabric_iff h hmem])
    rw [← card_occupying outIds h, ← hout] at hocc
    exact hocc

/-- **Storage and live width**: the slots the slot/mask pass makes are bounded by the inputs, the ANDs, the linear
outputs and the live width, and one more, exactly when at no gate that defines a fabric wire the live fabric wires
and those never read outnumber the live width. -/
theorem numSlots_le_liveWidth_iff {cot : ℕ → AShareBundle} {w : SecureWires} {pool : TriplePool}
    {source : Body (List ℕ)} (h : CanonicalStream w.size (source.stream w.size)) :
    let n := w.size
    let gs := source.stream n
    let outs := source.outs n
    (prepare cot w pool source).numSlots ≤
        n + countAnds gs + (linearOutputs gs outs).card + 1 + liveWidth n gs outs ↔
      ∀ t < gs.length, IsFabric gs outs (n + t) →
        (liveAt n gs outs t).card + (unreadAt n gs outs t).card ≤ liveWidth n gs outs := by
  intro n gs outs
  have hcan : CanonicalStream n gs := h
  obtain ⟨F, hslots, hF⟩ := numSlots_eq outs hcan
  have hprep : (prepare cot w pool source).numSlots = (streamAlloc n gs outs).numSlots := by
    rw [prepare_eq h]
  have hbound : (prepare cot w pool source).numSlots ≤
      n + countAnds gs + (linearOutputs gs outs).card + 1 + liveWidth n gs outs ↔ F ≤ liveWidth n gs outs + 1 := by
    rw [hprep, hslots]
    omega
  rw [hbound, hF]
  simp only [Nat.add_le_add_iff_right]

end

/-- Two NOTs, the second the output: the first is read, and the bound of four slots holds. -/
theorem numSlots_le_liveWidth_notNot :
    (prepare (fun _ => .zero) (publicWires .alice zeroBlock [0]) {}
      (.notGate 0 fun a => .notGate a fun b => .done [b])).numSlots ≤ 4 :=
  (@numSlots_le_liveWidth_iff (fun _ => .zero) (publicWires .alice zeroBlock [0]) {}
    (.notGate 0 fun a => .notGate a fun b => .done [b]) ⟨rfl, by decide, rfl, by decide, trivial⟩).mpr (by decide)

/-- A body of two XORs that nothing reads: three slots, where the inputs and the live width give two. -/
theorem numSlots_deadXors :
    let source : Body (List ℕ) := .xorGate 0 0 fun _ => .xorGate 0 0 fun _ => .done []
    CanonicalStream 1 (source.stream 1) ∧
      ¬ (prepare (fun _ => .zero) (publicWires .alice zeroBlock [0]) {} source).numSlots ≤
        1 + countAnds (source.stream 1) + (linearOutputs (source.stream 1) (source.outs 1)).card + 1 +
          liveWidth 1 (source.stream 1) (source.outs 1) :=
  ⟨⟨rfl, by decide, rfl, by decide, trivial⟩, by decide⟩

end AG2PC
