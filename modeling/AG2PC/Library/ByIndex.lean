import Mathlib.Data.List.Basic

/-!
# Lists read by index

Code over arrays reads entry `i` of each array in a loop over `i < n`; its model is a `zipWith` or a
`map`. These lemmas turn one into the other: a list of length `n` is the list of its entries, and an
entry of a list of computed entries is the computation at that index. A list cut into chunks of a fixed
length, the last one shorter, is its chunks joined (`chunks_flatten`). A buffer that grows by `L` entries a
step is its pieces joined (`exists_pieces`).
-/

namespace AG2PC.Library.ByIndex

variable {α β γ : Type}

/-- Entry `i` of a list computed index by index. -/
@[simp] theorem getD_map_range (f : ℕ → α) (d : α) {n i : ℕ} (hi : i < n) :
    ((List.range n).map f).getD i d = f i := by
  simp [List.getD_eq_getElem?_getD, hi]

/-- Entry `i` of a mapped list. -/
theorem getD_map_of_lt (f : α → β) (a : α) (b : β) {l : List α} {i : ℕ} (hi : i < l.length) :
    (l.map f).getD i b = f (l.getD i a) := by
  simp [List.getD_eq_getElem?_getD, hi]

/-- An entry of a list is a member. -/
theorem getD_mem (a : α) {l : List α} {i : ℕ} (hi : i < l.length) : l.getD i a ∈ l := by
  rw [List.getD_eq_getElem?_getD, List.getElem?_eq_getElem hi]
  exact List.getElem_mem hi

/-- A map over a list, index by index. -/
theorem map_eq_range (f : α → β) (d : α) {n : ℕ} {l : List α} (h : l.length = n) :
    l.map f = (List.range n).map fun i => f (l.getD i d) := by
  refine List.ext_getElem ?_ fun i hi hi' => ?_
  · simp [h]
  · have hin : i < n := by simpa using hi'
    simp [List.getD_eq_getElem?_getD, h, hin]

/-- Two lists combined, index by index. -/
theorem zipWith_eq_range (f : α → β → γ) (a : α) (b : β) {n : ℕ} {l₁ : List α} {l₂ : List β}
    (h₁ : l₁.length = n) (h₂ : l₂.length = n) :
    List.zipWith f l₁ l₂ = (List.range n).map fun i => f (l₁.getD i a) (l₂.getD i b) := by
  refine List.ext_getElem ?_ fun i hi hi' => ?_
  · simp [h₁, h₂]
  · have hin : i < n := by simpa using hi'
    simp [List.getD_eq_getElem?_getD, h₁, h₂, hin]

/-- Lists computed index by index are equal when all their entries are. -/
theorem map_range_inj {f g : ℕ → α} {n : ℕ} :
    (List.range n).map f = (List.range n).map g ↔ ∀ i < n, f i = g i := by
  rw [List.map_inj_left]
  simp only [List.mem_range]

/-- The first entry from a position on. -/
theorem drop_eq_cons {l rest : List α} {a : α} {j : ℕ} (h : l.drop j = a :: rest) (d : α) :
    j < l.length ∧ l.getD j d = a ∧ l.drop (j + 1) = rest := by
  have hj : j < l.length := by
    by_contra hge
    rw [List.drop_eq_nil_of_le (Nat.le_of_not_lt hge)] at h
    cases h
  rw [List.drop_eq_getElem_cons hj] at h
  obtain ⟨hget, hrest⟩ := List.cons.inj h
  refine ⟨hj, ?_, hrest⟩
  rw [List.getD_eq_getElem?_getD, List.getElem?_eq_getElem hj, Option.getD_some, hget]

/-- The places of a list are its first place and the places of its tail. -/
theorem forall_split_cons {p : List α → α → List α → Prop} {a : α} {l : List α} :
    (∀ pre x post, a :: l = pre ++ x :: post → p pre x post) ↔
      p [] a l ∧ ∀ pre x post, l = pre ++ x :: post → p (a :: pre) x post := by
  constructor
  · intro h
    exact ⟨h [] a l rfl, fun pre x post hl => h (a :: pre) x post (congrArg (List.cons a) hl)⟩
  · rintro ⟨hfirst, hrest⟩ pre x post hl
    cases pre with
    | nil =>
      obtain ⟨rfl, rfl⟩ := List.cons.inj hl
      exact hfirst
    | cons b pre =>
      obtain ⟨rfl, htail⟩ := List.cons.inj hl
      exact hrest pre x post htail

/-! ### Chunks of a fixed length -/

/-- The chunks of a list, joined, are the list. -/
theorem chunks_flatten {K n : ℕ} {l : List α} (hK : 0 < K) (h : l.length = n) :
    ((List.range ((n + K - 1) / K)).map fun c => (l.drop (c * K)).take (min K (n - c * K))).flatten = l := by
  have htake : ∀ m, ((List.range m).map fun c => (l.drop (c * K)).take (min K (n - c * K))).flatten =
      l.take (min (m * K) n) := by
    intro m
    induction m with
    | zero => simp
    | succ m ih =>
      rw [List.range_succ, List.map_append, List.flatten_append, ih, List.map_singleton,
        List.flatten_singleton]
      rcases Nat.le_total (m * K) n with hm | hm
      · rw [Nat.min_eq_left hm, ← List.take_add]
        congr 1
        rw [Nat.succ_mul]
        omega
      · rw [List.drop_eq_nil_of_le (by omega), List.take_nil, List.append_nil]
        congr 1
        rw [Nat.succ_mul]
        omega
  have hcover : n ≤ (n + K - 1) / K * K := by
    have hdiv := Nat.div_add_mod (n + K - 1) K
    have hmod := Nat.mod_lt (n + K - 1) hK
    rw [Nat.mul_comm] at hdiv
    omega
  rw [htake, Nat.min_eq_right hcover, ← h, List.take_length]

/-- No chunk is empty. -/
theorem chunks_ne_nil {K n : ℕ} {l : List α} (hK : 0 < K) (h : l.length = n) :
    ∀ c ∈ (List.range ((n + K - 1) / K)).map fun c => (l.drop (c * K)).take (min K (n - c * K)), c ≠ [] := by
  intro c hc
  obtain ⟨i, hi, rfl⟩ := List.mem_map.mp hc
  have hlt : i * K < n := by
    have hi' : i + 1 ≤ (n + K - 1) / K := List.mem_range.mp hi
    have hmul := (Nat.le_div_iff_mul_le hK).mp hi'
    rw [Nat.succ_mul] at hmul
    omega
  intro hnil
  have hlen := congrArg List.length hnil
  rw [List.length_take, List.length_drop, List.length_nil, h] at hlen
  omega

/-- A buffer that grows by `L` entries a step. -/
theorem exists_pieces {f : ℕ → List α} {L : ℕ} (h₀ : (f 0).length = L)
    (h : ∀ n, ∃ w : List α, w.length = L ∧ f (n + 1) = f n ++ w) :
    ∃ v : ℕ → List α, (∀ k, (v k).length = L) ∧ ∀ n, f n = (List.range (n + 1)).flatMap v := by
  choose w hlen hf using h
  refine ⟨fun k => Nat.casesOn k (f 0) w, fun k => ?_, fun n => ?_⟩
  · cases k with
    | zero => exact h₀
    | succ k => exact hlen k
  · induction n with
    | zero =>
      rw [List.range_one, List.flatMap_singleton]
      rfl
    | succ n ih => rw [hf, ih, List.range_succ (n := n + 1), List.flatMap_append, List.flatMap_singleton]

/-- Entry `m * L + k` of joined pieces of length `L` is entry `k` of piece `m`. -/
theorem getD_flatMap_range {v : ℕ → List α} {L n m k : ℕ} (hv : ∀ i, (v i).length = L) (hm : m < n) (hk : k < L)
    (d : α) : ((List.range n).flatMap v).getD (m * L + k) d = (v m).getD k d := by
  have hlen : ∀ n, ((List.range n).flatMap v).length = n * L := by
    intro n
    simp [List.length_flatMap, hv]
  induction n with
  | zero => exact absurd hm (Nat.not_lt_zero m)
  | succ n ih =>
    rw [List.range_succ, List.flatMap_append, List.flatMap_singleton, List.getD_eq_getElem?_getD]
    rcases Nat.lt_succ_iff_lt_or_eq.mp hm with hlt | rfl
    · have hin : m * L + k < n * L :=
        Nat.lt_of_lt_of_le (Nat.add_lt_add_left hk _) (by rw [← Nat.succ_mul]; exact Nat.mul_le_mul_right L hlt)
      rw [List.getElem?_append_left (by rwa [hlen]), ← List.getD_eq_getElem?_getD]
      exact ih hlt
    · rw [List.getElem?_append_right (by rw [hlen]; exact Nat.le_add_right _ _), hlen, Nat.add_sub_cancel_left,
        List.getD_eq_getElem?_getD]

/-- Joined pieces of length `L` are the same list exactly when they agree entry by entry. -/
theorem flatMap_range_inj {v w : ℕ → List α} {L n : ℕ} (hv : ∀ i, (v i).length = L) (hw : ∀ i, (w i).length = L)
    (d : α) : (List.range n).flatMap v = (List.range n).flatMap w ↔
      ∀ m < n, ∀ k < L, (v m).getD k d = (w m).getD k d := by
  constructor
  · intro h m hm k hk
    rw [← getD_flatMap_range hv hm hk d, h, getD_flatMap_range hw hm hk d]
  · intro h
    have hvw : ∀ m ∈ List.range n, v m = w m := by
      intro m hm
      rw [← List.map_id (v m), ← List.map_id (w m), map_eq_range id d (hv m), map_eq_range id d (hw m),
        map_range_inj]
      exact h m (List.mem_range.mp hm)
    rw [List.flatMap_def, List.flatMap_def, List.map_congr_left hvw]

end AG2PC.Library.ByIndex
