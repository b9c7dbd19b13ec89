import AG2PC.Backend.PassCtx

/-!
# The slot map is safe

The slot/mask pass gives a wire that need not persist a slot from the freelist, and returns a slot
to the freelist at the last gate that reads its wire. This module shows that the map it builds never
lets a gate write the slot of a wire that is still needed, which is what the passes that work on slots
need to run as if every wire had a slot of its own.

* `ReadsCovered` — the liveness pass knows of every later read (`readsCovered_liveness`).
* `AllocOk` — the invariant of the slot map: the slots of the wires in use are distinct and not free.
* `AllocOk.gate` — one gate keeps it.
* `safe_alloc` — a whole run yields a safe map.
-/

namespace AG2PC

open Library.SlotReuse

/-! ### Gates as the passes see them -/

theorem Gate.normalize_isConst (g : Gate) : g.normalize.isConst = g.isConst := by simp [Gate.isConst]

/-- A gate is a constant, a NOT, or reads two wires. -/
theorem Gate.srcs_cases (g : Gate) :
    (g.isConst = true ∧ g.srcs = []) ∨ (g.op = .Not ∧ g.isConst = false ∧ g.srcs = [g.in0]) ∨
      ((g.op = .And ∨ g.op = .Xor) ∧ g.isConst = false ∧ g.srcs = [g.in0, g.in1]) := by
  cases hg : g.op <;> simp [Gate.isConst, Gate.srcs, hg]

/-! ### What the liveness pass finds -/

/-- The wire is needed at gate index `k` or later, as far as the liveness pass knows. -/
def InUse (lastUse : ℕ → Option ℕ) (persist : ℕ → Bool) (k w : ℕ) : Prop :=
  persist w = true ∨ ∃ m, k ≤ m ∧ lastUse w = some m

theorem InUse.mono {lastUse : ℕ → Option ℕ} {persist : ℕ → Bool} {k k' w : ℕ} (hk : k ≤ k')
    (h : InUse lastUse persist k' w) : InUse lastUse persist k w := by
  rcases h with hp | ⟨m, hm, hl⟩
  · exact .inl hp
  · exact .inr ⟨m, hk.trans hm, hl⟩

/-- The gate index after a gate. -/
def nextIndex (k : ℕ) (g : Gate) : ℕ := if g.isConst then k else k + 1

theorem le_nextIndex (k : ℕ) (g : Gate) : k ≤ nextIndex k g := by
  unfold nextIndex
  split <;> omega

/-- Every read of the gates, the first of them at gate index `k`, is at or before the last use, and
the outputs of ANDs persist. -/
def ReadsCovered (lastUse : ℕ → Option ℕ) (persist : ℕ → Bool) : ℕ → List Gate → Prop
  | _, [] => True
  | k, g :: gs => (∀ w ∈ g.srcs, ∃ m, k ≤ m ∧ lastUse w = some m) ∧ (g.isAnd = true → persist g.out = true) ∧
      ReadsCovered lastUse persist (nextIndex k g) gs

/-- What is live is in use. -/
theorem inUse_of_live {lastUse : ℕ → Option ℕ} {persist : ℕ → Bool} {keep : ℕ → Prop}
    (hkeep : ∀ w, keep w → persist w = true) (gs : List Gate) :
    ∀ {k w : ℕ}, ReadsCovered lastUse persist k gs → Live gateLayout keep gs w →
      InUse lastUse persist k w := by
  induction gs with
  | nil =>
    intro k w _ hlive
    exact .inl (hkeep w hlive)
  | cons g gs ih =>
    intro k w hcov hlive
    obtain ⟨hreads, hand, hrest⟩ := hcov
    rcases hlive with hsrc | ⟨hown, rfl⟩ | ⟨-, hlater⟩
    · exact .inr (hreads w hsrc)
    · exact .inl (hand hown)
    · exact (ih hrest hlater).mono (le_nextIndex k g)

/-- The data of the liveness pass after some gates: `k` is the gate index. -/
theorem liveness_step (s : Liveness) (g : Gate) :
    (livenessPass.step s g).gi = nextIndex s.gi g ∧
      (livenessPass.step s g).persist = Function.update s.persist g.out g.isAnd ∧
      (∀ w ∈ g.srcs, (livenessPass.step s g).lastUse w = some s.gi) ∧
      ∀ w, w ≠ g.out → w ∉ g.srcs → (livenessPass.step s g).lastUse w = s.lastUse w := by
  cases hg : g.op <;>
    simp_all [Pass.step, livenessPass, Liveness.emit, Liveness.read, nextIndex, Gate.isConst, Gate.isAnd,
      Gate.srcs, Function.update_apply]

/-- The last use of a wire only moves forward, once it is defined. -/
theorem liveness_lastUse_le (gs : List Gate) :
    ∀ {n : ℕ} (s : Liveness), CanonicalStream n gs → ∀ w < n, ∀ m, s.lastUse w = some m → m ≤ s.gi →
      ∃ m', m ≤ m' ∧ (gs.foldl livenessPass.step s).lastUse w = some m' := by
  induction gs with
  | nil =>
    intro n s _ w _ m hm _
    exact ⟨m, Nat.le_refl m, hm⟩
  | cons g gs ih =>
    intro n s hcan w hw m hm hle
    obtain ⟨hout, -, hrest⟩ := canonicalStream_cons.mp hcan
    obtain ⟨hgi, -, hread, hother⟩ := liveness_step s g
    rw [List.foldl_cons]
    have hgi' := le_nextIndex s.gi g
    by_cases hsrc : w ∈ g.srcs
    · obtain ⟨m', hm', hl⟩ := ih (livenessPass.step s g) hrest w (by omega) s.gi (hread w hsrc) (by omega)
      exact ⟨m', hle.trans hm', hl⟩
    · have hsame := hother w (by omega) hsrc
      exact ih (livenessPass.step s g) hrest w (by omega) m (hsame.trans hm) (by omega)

/-- What persists after the gates: what did before, and the outputs of the ANDs. -/
theorem liveness_persist_of_lt (gs : List Gate) :
    ∀ {n : ℕ} (s : Liveness), CanonicalStream n gs → ∀ w < n,
      (gs.foldl livenessPass.step s).persist w = s.persist w := by
  induction gs with
  | nil =>
    intro n s _ w _
    rfl
  | cons g gs ih =>
    intro n s hcan w hw
    obtain ⟨hout, -, hrest⟩ := canonicalStream_cons.mp hcan
    rw [List.foldl_cons, ih _ hrest w (by omega), (liveness_step s g).2.1,
      Function.update_of_ne (by omega)]

/-- **The liveness pass covers every read** of the gates it is shown. -/
theorem readsCovered_liveness (gs : List Gate) {persist : ℕ → Bool} :
    ∀ {n : ℕ} (s : Liveness), CanonicalStream n gs →
      (∀ w, (gs.foldl livenessPass.step s).persist w = true → persist w = true) →
      ReadsCovered (gs.foldl livenessPass.step s).lastUse persist s.gi gs := by
  induction gs with
  | nil =>
    intro n s _ _
    exact trivial
  | cons g gs ih =>
    intro n s hcan hper
    obtain ⟨hout, hsrcs, hrest⟩ := canonicalStream_cons.mp hcan
    obtain ⟨hgi, hpersist, hread, -⟩ := liveness_step s g
    rw [List.foldl_cons] at hper ⊢
    refine ⟨fun w hw => ?_, fun hand => ?_, hgi ▸ ih _ hrest hper⟩
    · have hwn := hsrcs w hw
      exact liveness_lastUse_le gs _ hrest w (by omega) s.gi (hread w hw) (hgi ▸ le_nextIndex s.gi g)
    · refine hper g.out ?_
      rw [liveness_persist_of_lt gs _ hrest g.out (by omega), hpersist, Function.update_self, hand]

/-! ### The slot map -/

/-- The slots of the wires of `U` below `d` are distinct, none of them is free, and no slot is free
twice. -/
structure AllocOk (a : Alloc) (d : ℕ) (U : ℕ → Prop) : Prop where
  phys_lt : ∀ w < d, a.phys w < a.numSlots
  free_lt : ∀ s ∈ a.freelist, s < a.numSlots
  nodup : a.freelist.Nodup
  not_free : ∀ w < d, U w → a.phys w ∉ a.freelist
  inj : ∀ w < d, ∀ w' < d, U w → U w' → w ≠ w' → a.phys w ≠ a.phys w'

theorem AllocOk.mono {a : Alloc} {d : ℕ} {U U' : ℕ → Prop} (h : AllocOk a d U) (hU : ∀ w < d, U' w → U w) :
    AllocOk a d U' where
  phys_lt := h.phys_lt
  free_lt := h.free_lt
  nodup := h.nodup
  not_free w hw hw' := h.not_free w hw (hU w hw hw')
  inj w hw w' hw' hu hu' := h.inj w hw w' hw' (hU w hw hu) (hU w' hw' hu')

/-- What `alloc_slot` returns: a slot off the freelist, or a new one; a new one if the wire
persists. -/
theorem allocSlot_cases (persist : ℕ → Bool) (a : Alloc) (id : ℕ) :
    (persist id = false ∧ ∃ slot rest, a.freelist = slot :: rest ∧
        a.allocSlot persist id = { a with phys := Function.update a.phys id slot, freelist := rest }) ∨
      a.allocSlot persist id =
        { a with phys := Function.update a.phys id a.numSlots, numSlots := a.numSlots + 1 } := by
  unfold Alloc.allocSlot
  split
  · next slot rest hp hf => exact .inl ⟨hp, slot, rest, hf, rfl⟩
  · exact .inr rfl

/-- A fresh wire gets a slot that no wire in use has. -/
theorem AllocOk.allocSlot {a : Alloc} {d : ℕ} {U : ℕ → Prop} (h : AllocOk a d U) (persist : ℕ → Bool) :
    AllocOk (a.allocSlot persist d) (d + 1) U ∧
      (∀ w, w ≠ d → (a.allocSlot persist d).phys w = a.phys w) ∧
      (∀ w < d, U w → a.phys w ≠ (a.allocSlot persist d).phys d) ∧
      (persist d = true → (a.allocSlot persist d).phys d = a.numSlots) ∧
      a.numSlots ≤ (a.allocSlot persist d).numSlots ∧ (a.allocSlot persist d).gi = a.gi := by
  have hlt : ∀ {w}, w < d + 1 → w ≠ d → w < d := by
    intro w hw hne
    omega
  rcases allocSlot_cases persist a d with ⟨hp, slot, rest, hfree, heq⟩ | heq
  · -- a slot off the freelist
    have hmem : ∀ s ∈ rest, s ∈ a.freelist := fun s hs => hfree ▸ List.mem_cons_of_mem _ hs
    have hslot : slot ∈ a.freelist := hfree ▸ List.mem_cons_self
    have hnd : slot ∉ rest ∧ rest.Nodup := List.nodup_cons.mp (hfree ▸ h.nodup)
    have hne : ∀ w < d, U w → a.phys w ≠ slot := fun w hw hu hs => h.not_free w hw hu (hs ▸ hslot)
    rw [heq]
    refine ⟨⟨?_, fun s hs => h.free_lt s (hmem s hs), hnd.2, ?_, ?_⟩, ?_, ?_, ?_, Nat.le_refl _, rfl⟩
    · intro w hw
      by_cases hwd : w = d
      · subst hwd
        simpa using h.free_lt slot hslot
      · simpa [Function.update_of_ne hwd] using h.phys_lt w (hlt hw hwd)
    · intro w hw hu
      by_cases hwd : w = d
      · subst hwd
        simpa using hnd.1
      · simp only [Function.update_of_ne hwd]
        exact fun hs => h.not_free w (hlt hw hwd) hu (hmem _ hs)
    · intro w hw w' hw' hu hu' hww
      by_cases hwd : w = d
      · subst hwd
        simp only [Function.update_self, Function.update_of_ne (Ne.symm hww)]
        exact (hne w' (hlt hw' (Ne.symm hww)) hu').symm
      · by_cases hwd' : w' = d
        · subst hwd'
          simp only [Function.update_self, Function.update_of_ne hwd]
          exact hne w (hlt hw hwd) hu
        · simp only [Function.update_of_ne hwd, Function.update_of_ne hwd']
          exact h.inj w (hlt hw hwd) w' (hlt hw' hwd') hu hu' hww
    · intro w hw
      exact Function.update_of_ne hw _ _
    · intro w hw hu
      simpa using hne w hw hu
    · intro hp'
      rw [hp] at hp'
      cases hp'
  · -- a new slot
    rw [heq]
    refine ⟨⟨?_, fun s hs => Nat.lt_succ_of_lt (h.free_lt s hs), h.nodup, ?_, ?_⟩, ?_, ?_, ?_,
      Nat.le_succ _, rfl⟩
    · intro w hw
      by_cases hwd : w = d
      · subst hwd
        simp
      · simp only [Function.update_of_ne hwd]
        exact Nat.lt_succ_of_lt (h.phys_lt w (hlt hw hwd))
    · intro w hw hu
      by_cases hwd : w = d
      · subst hwd
        simp only [Function.update_self]
        exact fun hs => Nat.lt_irrefl _ (h.free_lt _ hs)
      · simp only [Function.update_of_ne hwd]
        exact h.not_free w (hlt hw hwd) hu
    · intro w hw w' hw' hu hu' hww
      by_cases hwd : w = d
      · subst hwd
        simp only [Function.update_self, Function.update_of_ne (Ne.symm hww)]
        exact (Nat.ne_of_lt (h.phys_lt w' (hlt hw' (Ne.symm hww)))).symm
      · by_cases hwd' : w' = d
        · subst hwd'
          simp only [Function.update_self, Function.update_of_ne hwd]
          exact Nat.ne_of_lt (h.phys_lt w (hlt hw hwd))
        · simp only [Function.update_of_ne hwd, Function.update_of_ne hwd']
          exact h.inj w (hlt hw hwd) w' (hlt hw' hwd') hu hu' hww
    · intro w hw
      exact Function.update_of_ne hw _ _
    · intro w hw _
      simpa using Nat.ne_of_lt (h.phys_lt w hw)
    · intro _
      simp

section

variable {lastUse : ℕ → Option ℕ} {persist : ℕ → Bool}

variable (lastUse persist) in
/-- Freeing a wire keeps the invariant for the others. -/
theorem AllocOk.freeIfDead {a : Alloc} {d w₀ : ℕ} {U : ℕ → Prop} (h : AllocOk a d U) (hw₀ : w₀ < d)
    (hu₀ : U w₀) :
    AllocOk (a.freeIfDead lastUse persist w₀) d
        (fun w => U w ∧ (w = w₀ → persist w₀ = true ∨ lastUse w₀ ≠ some a.gi)) ∧
      (a.freeIfDead lastUse persist w₀).phys = a.phys ∧
      (a.freeIfDead lastUse persist w₀).numSlots = a.numSlots ∧
      (a.freeIfDead lastUse persist w₀).gi = a.gi := by
  unfold Alloc.freeIfDead
  split
  · next hdead =>
    refine ⟨⟨h.phys_lt, ?_, ?_, ?_, ?_⟩, rfl, rfl, rfl⟩
    · intro s hs
      rcases List.mem_cons.mp hs with rfl | hs
      · exact h.phys_lt w₀ hw₀
      · exact h.free_lt s hs
    · exact List.nodup_cons.mpr ⟨h.not_free w₀ hw₀ hu₀, h.nodup⟩
    · rintro w hw ⟨hu, hdone⟩ hmem
      have hne : w ≠ w₀ := by
        intro heq
        rcases hdone heq with hp | hl
        · rw [hdead.1] at hp
          cases hp
        · exact hl hdead.2
      rcases List.mem_cons.mp hmem with heq | hmem
      · exact h.inj w hw w₀ hw₀ hu hu₀ hne heq
      · exact h.not_free w hw hu hmem
    · rintro w hw w' hw' ⟨hu, -⟩ ⟨hu', -⟩
      exact h.inj w hw w' hw' hu hu'
  · exact ⟨h.mono fun w _ hu => hu.1, rfl, rfl, rfl⟩

/-- A wire in use at the next gate index is not freed at this one. -/
theorem InUse.not_dead {k w : ℕ} (h : InUse lastUse persist (k + 1) w) :
    persist w = true ∨ lastUse w ≠ some k := by
  rcases h with hp | ⟨m, hm, hl⟩
  · exact .inl hp
  · refine .inr fun hk => ?_
    rw [hl] at hk
    obtain rfl := Option.some.inj hk
    omega

/-- **One gate**: the invariant is kept for the wires in use, the output gets a slot no wire in use
has, and the other wires keep their slots. -/
theorem AllocOk.gate {a : Alloc} {g : Gate} (h : AllocOk a g.out (InUse lastUse persist a.gi))
    (hsrcs : ∀ w ∈ g.srcs, w < g.out) (hreads : ∀ w ∈ g.srcs, ∃ m, a.gi ≤ m ∧ lastUse w = some m) :
    (a.gate lastUse persist g).gi = nextIndex a.gi g ∧
      AllocOk (a.gate lastUse persist g) (g.out + 1)
        (InUse lastUse persist (a.gate lastUse persist g).gi) ∧
      (∀ w, w ≠ g.out → (a.gate lastUse persist g).phys w = a.phys w) ∧
      (∀ w < g.out, InUse lastUse persist a.gi w → a.phys w ≠ (a.gate lastUse persist g).phys g.out) ∧
      (persist g.out = true → (a.gate lastUse persist g).phys g.out = a.numSlots) ∧
      a.numSlots ≤ (a.gate lastUse persist g).numSlots := by
  obtain ⟨hok, hphys, hfresh, hnew, hnum, hgi⟩ := h.allocSlot persist
  have huse : ∀ w ∈ g.srcs, InUse lastUse persist a.gi w := fun w hw => .inr (hreads w hw)
  set b := a.allocSlot persist g.out with hb
  -- the result in terms of the frees that follow
  suffices hfrees : ∃ c : Alloc, (a.gate lastUse persist g).phys = c.phys ∧
      (a.gate lastUse persist g).numSlots = c.numSlots ∧
      (a.gate lastUse persist g).freelist = c.freelist ∧
      (a.gate lastUse persist g).gi = nextIndex a.gi g ∧ c.phys = b.phys ∧ c.numSlots = b.numSlots ∧
      AllocOk c (g.out + 1) (InUse lastUse persist (nextIndex a.gi g)) by
    obtain ⟨c, hp, hn, hf, hg, hcp, hcn, hc⟩ := hfrees
    refine ⟨hg, ?_, ?_, ?_, ?_, ?_⟩
    · rw [hg]
      exact ⟨by rw [hp, hn]; exact hc.phys_lt, by rw [hf, hn]; exact hc.free_lt, by rw [hf]; exact hc.nodup,
        by rw [hp, hf]; exact hc.not_free, by rw [hp]; exact hc.inj⟩
    · intro w hw
      rw [hp, hcp, hphys w hw]
    · intro w hw hu
      rw [hp, hcp]
      exact hfresh w hw hu
    · intro hper
      rw [hp, hcp]
      exact hnew hper
    · rw [hn, hcn]
      exact hnum
  rcases g.srcs_cases with ⟨hconst, -⟩ | ⟨hop, hconst, hs⟩ | ⟨hop, hconst, hs⟩
  · -- a constant frees nothing
    have hgate : a.gate lastUse persist g = b := by
      cases hg : g.op <;> simp_all [Gate.isConst, Alloc.gate]
    refine ⟨b, by rw [hgate], by rw [hgate], by rw [hgate], ?_, rfl, rfl, ?_⟩
    · rw [hgate, hgi, nextIndex, if_pos hconst]
    · rw [nextIndex, if_pos hconst]
      exact hok
  · -- one operand
    have hi0 : g.in0 ∈ g.srcs := by simp [hs]
    have hlt := hsrcs _ hi0
    obtain ⟨hfree, hp, hn, hg⟩ := hok.freeIfDead lastUse persist
      (show g.in0 < g.out + 1 by omega) (huse _ hi0)
    refine ⟨b.freeIfDead lastUse persist g.in0, ?_, ?_, ?_, ?_, hp, hn, ?_⟩
    · simp [Alloc.gate, hop, ← hb]
    · simp [Alloc.gate, hop, ← hb]
    · simp [Alloc.gate, hop, ← hb]
    · simp [Alloc.gate, hop, ← hb, hg, hgi, nextIndex, hconst]
    · rw [nextIndex, hconst]
      refine hfree.mono fun w _ hu => ⟨InUse.mono (Nat.le_succ _) hu, ?_⟩
      rintro rfl
      rw [hgi]
      exact hu.not_dead
  · -- two operands, perhaps the same
    have hi0 : g.in0 ∈ g.srcs := by simp [hs]
    have hi1 : g.in1 ∈ g.srcs := by simp [hs]
    have hlt0 := hsrcs _ hi0
    have hlt1 := hsrcs _ hi1
    obtain ⟨hfree, hp, hn, hg⟩ := hok.freeIfDead lastUse persist
      (show g.in0 < g.out + 1 by omega) (huse _ hi0)
    by_cases hsame : g.in1 = g.in0
    · have hgate : a.gate lastUse persist g =
          { b.freeIfDead lastUse persist g.in0 with gi := (b.freeIfDead lastUse persist g.in0).gi + 1 } := by
        rcases hop with hop | hop <;> simp [Alloc.gate, hop, ← hb, hsame]
      refine ⟨b.freeIfDead lastUse persist g.in0, by rw [hgate], by rw [hgate], by rw [hgate], ?_, hp, hn, ?_⟩
      · simp [hgate, hg, hgi, nextIndex, hconst]
      · rw [nextIndex, hconst]
        refine hfree.mono fun w _ hu => ⟨InUse.mono (Nat.le_succ _) hu, ?_⟩
        rintro rfl
        rw [hgi]
        exact hu.not_dead
    · obtain ⟨hfree', hp', hn', hg'⟩ := hfree.freeIfDead lastUse persist
        (show g.in1 < g.out + 1 by omega) ⟨huse _ hi1, fun he => absurd he hsame⟩
      set c := (b.freeIfDead lastUse persist g.in0).freeIfDead lastUse persist g.in1 with hc
      have hgate : a.gate lastUse persist g = { c with gi := c.gi + 1 } := by
        rcases hop with hop | hop <;> simp [Alloc.gate, hop, ← hb, hsame, ← hc]
      refine ⟨c, by rw [hgate], by rw [hgate], by rw [hgate], ?_, hp'.trans hp, hn'.trans hn, ?_⟩
      · simp [hgate, hg', hg, hgi, nextIndex, hconst]
      · rw [nextIndex, hconst]
        refine hfree'.mono fun w _ hu => ⟨⟨InUse.mono (Nat.le_succ _) hu, ?_⟩, ?_⟩
        · rintro rfl
          rw [hgi]
          exact hu.not_dead
        · rintro rfl
          rw [hg, hgi]
          exact hu.not_dead

/-- The gates of a run on the slot map. -/
def allocGates (lastUse : ℕ → Option ℕ) (persist : ℕ → Bool) (a : Alloc) (gs : List Gate) : Alloc :=
  gs.foldl (Alloc.gate lastUse persist) a

/-- A wire needed in a run that has not defined it yet is the output of an AND to come. -/
theorem persist_of_live {keep : ℕ → Prop} (gs : List Gate) :
    ∀ {n k w : ℕ}, CanonicalStream n gs → ReadsCovered lastUse persist k gs →
      (∀ w, keep w → persist w = true ∧ w < n + gs.length) → Live gateLayout keep gs w → n ≤ w →
      persist w = true ∧ w < n + gs.length := by
  induction gs with
  | nil =>
    intro n k w _ _ hkeep hlive _
    exact hkeep w hlive
  | cons g gs ih =>
    intro n k w hcan hcov hkeep hlive hw
    obtain ⟨hout, hsrcs, hrest⟩ := canonicalStream_cons.mp hcan
    obtain ⟨-, hand, hcov'⟩ := hcov
    have hlen : n + (g :: gs).length = n + 1 + gs.length := by
      rw [List.length_cons]
      omega
    rw [hlen] at hkeep ⊢
    rcases hlive with hsrc | ⟨hown, rfl⟩ | ⟨hne, hlater⟩
    · have := hsrcs w hsrc
      omega
    · have hw' : gateLayout.dst g = n := hout
      exact ⟨hand hown, by omega⟩
    · have hne' : w ≠ g.out := hne
      exact ih hrest hcov' hkeep hlater (by omega)

/-- **A run of the slot map**: the invariant is kept, defined wires keep their slots, wires that
persist get new ones, and the final map is safe for the run. -/
theorem AllocOk.run {keep : ℕ → Prop} (gs : List Gate) :
    ∀ {d : ℕ} {a : Alloc}, CanonicalStream d gs → AllocOk a d (InUse lastUse persist a.gi) →
      ReadsCovered lastUse persist a.gi gs → (∀ w, keep w → persist w = true ∧ w < d + gs.length) →
      AllocOk (allocGates lastUse persist a gs) (d + gs.length)
          (InUse lastUse persist (allocGates lastUse persist a gs).gi) ∧
        (∀ w < d, (allocGates lastUse persist a gs).phys w = a.phys w) ∧
        (∀ w, d ≤ w → w < d + gs.length → persist w = true →
          a.numSlots ≤ (allocGates lastUse persist a gs).phys w) ∧
        a.numSlots ≤ (allocGates lastUse persist a gs).numSlots ∧
        Safe gateLayout keep (allocGates lastUse persist a gs).phys gs := by
  induction gs with
  | nil =>
    intro d a _ hok _ _
    exact ⟨hok, fun _ _ => rfl, fun w hw hw' _ => absurd hw (by simpa using hw'), Nat.le_refl _, trivial⟩
  | cons g gs ih =>
    intro d a hcan hok hcov hkeep
    obtain ⟨rfl, hsrcs, hrest⟩ := canonicalStream_cons.mp hcan
    obtain ⟨hreads, hand, hcov'⟩ := hcov
    have hlen : g.out + (g :: gs).length = g.out + 1 + gs.length := by
      rw [List.length_cons]
      omega
    rw [hlen] at hkeep ⊢
    obtain ⟨hgi, hok', hphys, hfresh, hnew, hnum⟩ := hok.gate hsrcs hreads
    obtain ⟨hfin, hstay, hpersist, hnum', hsafe⟩ := ih hrest hok' (hgi ▸ hcov') hkeep
    have hlt : (a.gate lastUse persist g).phys g.out < (a.gate lastUse persist g).numSlots :=
      hok'.phys_lt _ (Nat.lt_succ_self _)
    change AllocOk (allocGates lastUse persist (a.gate lastUse persist g) gs) _ _ ∧ _
    refine ⟨hfin, fun w hw => ?_, fun w hw hw' hp => ?_, hnum.trans hnum', fun w hne hlive => ?_, hsafe⟩
    · exact (hstay w (by omega)).trans (hphys w (by omega))
    · by_cases hwg : w = g.out
      · subst hwg
        exact Nat.le_of_eq ((hstay _ (by omega)).trans (hnew hp)).symm
      · exact hnum.trans (hpersist w (by omega) hw' hp)
    · have hne' : w ≠ g.out := hne
      change (allocGates lastUse persist (a.gate lastUse persist g) gs).phys w ≠
        (allocGates lastUse persist (a.gate lastUse persist g) gs).phys g.out
      rw [hstay g.out (by omega)]
      rcases Nat.lt_or_ge w g.out with hwlt | hwge
      · -- defined before: still in use, so its slot was not the one taken
        have huse := inUse_of_live (fun w hw => (hkeep w hw).1) gs hcov' hlive
        rw [hstay w (by omega), hphys w hne']
        exact hfresh w hwlt (huse.mono (le_nextIndex _ _))
      · -- defined later: an AND, which gets a new slot
        obtain ⟨hp, hwl⟩ := persist_of_live gs hrest hcov' hkeep hlive (by omega)
        have hge := hpersist w (by omega) hwl hp
        omega

variable (lastUse persist) in
/-- The invariant after the first gates of a run, and what is left for the others. -/
theorem AllocOk.run_append (pre post : List Gate) : ∀ {d : ℕ} {a : Alloc}, CanonicalStream d (pre ++ post) →
    AllocOk a d (InUse lastUse persist a.gi) → ReadsCovered lastUse persist a.gi (pre ++ post) →
      AllocOk (allocGates lastUse persist a pre) (d + pre.length)
          (InUse lastUse persist (allocGates lastUse persist a pre).gi) ∧
        ReadsCovered lastUse persist (allocGates lastUse persist a pre).gi post ∧
        CanonicalStream (d + pre.length) post := by
  induction pre with
  | nil =>
    intro d a hcan hok hcov
    exact ⟨hok, hcov, hcan⟩
  | cons g pre ih =>
    intro d a hcan hok hcov
    obtain ⟨rfl, hsrcs, hrest⟩ := canonicalStream_cons.mp hcan
    obtain ⟨hreads, -, hcov'⟩ := hcov
    obtain ⟨hgi, hok', -⟩ := hok.gate hsrcs hreads
    rw [List.length_cons, show g.out + (pre.length + 1) = g.out + 1 + pre.length by omega]
    exact ih hrest hok' (hgi ▸ hcov')

end

/-! ### The map of a run -/

/-- What the liveness pass commits for a gate stream over `n` inputs. -/
def streamLiveness (n : ℕ) (gs : List Gate) (outIds : List ℕ) : Liveness :=
  (gs.foldl livenessPass.step (.start n)).commit (n + gs.length) outIds

/-- The slot map of a gate stream. -/
def streamAlloc (n : ℕ) (gs : List Gate) (outIds : List ℕ) : Alloc :=
  allocGates (streamLiveness n gs outIds).lastUse (streamLiveness n gs outIds).persist (.start n) gs

/-- The wires that keep their slots to the end: inputs, AND outputs and circuit outputs. -/
def Persistent (n : ℕ) (gs : List Gate) (outIds : List ℕ) (w : ℕ) : Prop :=
  (streamLiveness n gs outIds).persist w = true ∧ w < n + gs.length

section

variable {n : ℕ} {gs : List Gate} {outIds : List ℕ}

theorem persistent_input (h : CanonicalStream n gs) {w : ℕ} (hw : w < n) : Persistent n gs outIds w := by
  refine ⟨?_, by omega⟩
  have hp : (gs.foldl livenessPass.step (.start n)).persist w = true := by
    rw [liveness_persist_of_lt gs _ h w hw]
    simp [Liveness.start, hw]
  simp [streamLiveness, Liveness.commit, hp]

theorem persistent_output {w : ℕ} (hw : w ∈ outIds) (hlt : w < n + gs.length) :
    Persistent n gs outIds w := by
  refine ⟨?_, hlt⟩
  simp [streamLiveness, Liveness.commit, hw, hlt]

theorem readsCovered_stream (h : CanonicalStream n gs) :
    ReadsCovered (streamLiveness n gs outIds).lastUse (streamLiveness n gs outIds).persist 0 gs := by
  refine readsCovered_liveness gs (.start n) h fun w hw => ?_
  simp [streamLiveness, Liveness.commit, hw]

theorem allocOk_start (U : ℕ → Prop) : AllocOk (.start n) n U where
  phys_lt w hw := by simp [Alloc.start, hw]
  free_lt s hs := by cases hs
  nodup := List.nodup_nil
  not_free w _ _ hs := by cases hs
  inj w hw w' hw' _ _ hne := by simpa [Alloc.start, hw, hw'] using hne

variable (outIds) in
/-- **The slot map of a canonical stream is safe**: no gate writes the slot of another wire that is
still needed. The inputs stay where they were loaded, and every slot is within `num_slots`. -/
theorem safe_streamAlloc (h : CanonicalStream n gs) :
    Safe gateLayout (Persistent n gs outIds) (streamAlloc n gs outIds).phys gs ∧
      (∀ w < n, (streamAlloc n gs outIds).phys w = w) ∧
      ∀ w < n + gs.length, (streamAlloc n gs outIds).phys w < (streamAlloc n gs outIds).numSlots := by
  obtain ⟨hok, hstay, -, -, hsafe⟩ := AllocOk.run gs h (allocOk_start _) (readsCovered_stream h) fun w (hw : Persistent n gs outIds w) => hw
  refine ⟨hsafe, fun w hw => (hstay w hw).trans ?_, hok.phys_lt⟩
  simp [Alloc.start, hw]

end

end AG2PC
