import AG2PC.Library.ByIndex

/-!
# Cutting a list into chunks

`Chunked K r cs` says that `cs` are the first chunks of a list of length `r` cut every `K` elements: each has `K`
elements, or what is left.

* `Chunked.snoc`, `Chunked.split` — chunks one by one.
* `Chunked.isPrefix` — there is one way to cut a list.
* `Chunked.length_eq` — the number of chunks.
* `chunked_range`, `exists_chunked` — every list can be cut.
-/

namespace AG2PC.Library.Chunking

variable {α : Type*} {K r : ℕ} {c : List α} {cs ds : List (List α)}

/-- The first chunks of a list of length `r`, none of them empty. -/
def Chunked (K : ℕ) : ℕ → List (List α) → Prop
  | _, [] => True
  | r, c :: cs => c ≠ [] ∧ c.length = min K r ∧ Chunked K (r - c.length) cs

theorem chunked_cons :
    Chunked K r (c :: cs) ↔ c ≠ [] ∧ c.length = min K r ∧ Chunked K (r - c.length) cs := Iff.rfl

theorem chunked_append : Chunked K r (cs ++ ds) ↔ Chunked K r cs ∧ Chunked K (r - cs.flatten.length) ds := by
  induction cs generalizing r with
  | nil => simp [Chunked]
  | cons c cs ih =>
    rw [List.cons_append, chunked_cons, chunked_cons, ih, List.flatten_cons, List.length_append, Nat.sub_sub]
    simp only [and_assoc]

/-- A chunk and those before it. -/
theorem Chunked.split (h : Chunked K r (cs ++ c :: ds)) : c ≠ [] ∧ c.length = min K (r - cs.flatten.length) :=
  ⟨(chunked_append.mp h).2.1, (chunked_append.mp h).2.2.1⟩

/-- One more chunk. -/
theorem Chunked.snoc (h : Chunked K r cs) (hne : c ≠ []) (hlen : c.length = min K (r - cs.flatten.length)) :
    Chunked K r (cs ++ [c]) :=
  chunked_append.mpr ⟨h, hne, hlen, trivial⟩

theorem Chunked.of_isPrefix (h : Chunked K r ds) (hpre : cs <+: ds) : Chunked K r cs := by
  obtain ⟨es, rfl⟩ := hpre
  exact (chunked_append.mp h).1

/-- The chunks hold as much of the list as they can. -/
theorem Chunked.length_flatten (h : Chunked K r cs) : cs.flatten.length = min r (K * cs.length) := by
  induction cs generalizing r with
  | nil => simp
  | cons c cs ih =>
    obtain ⟨-, hlen, hrest⟩ := h
    rw [List.flatten_cons, List.length_append, ih hrest, List.length_cons, Nat.mul_succ]
    omega

/-- No chunk is beyond the end of the list. -/
theorem Chunked.length_lt (h : Chunked K r (cs ++ [c])) : K * cs.length < r := by
  obtain ⟨hne, hlen⟩ := h.split
  have hpos := List.length_pos_of_ne_nil hne
  have hflat := (chunked_append.mp h).1.length_flatten
  omega

/-- **The number of chunks** of a whole list. -/
theorem Chunked.length_eq (h : Chunked K r cs) (hall : cs.flatten.length = r) : cs.length = (r + K - 1) / K := by
  have hflat := h.length_flatten
  rcases List.eq_nil_or_concat cs with rfl | ⟨ds, d, rfl⟩
  · have hr : r = 0 := hall.symm
    subst hr
    rcases Nat.eq_zero_or_pos K with rfl | hK
    · rfl
    · exact (Nat.div_eq_of_lt (by omega)).symm
  · rw [List.concat_eq_append] at h hall hflat ⊢
    have hlt := h.length_lt
    rw [hall, List.length_append, List.length_singleton, Nat.mul_succ] at hflat
    rw [List.length_append, List.length_singleton]
    refine (Nat.div_eq_of_lt_le ?_ ?_).symm
    · rw [Nat.mul_comm, Nat.mul_succ]
      omega
    · rw [Nat.mul_comm, Nat.mul_succ, Nat.mul_succ]
      omega

/-- More chunks hold more of the list. -/
theorem Chunked.length_le (hc : Chunked K r cs) (hd : Chunked K r ds) (h : cs.flatten.length ≤ ds.flatten.length) :
    cs.length ≤ ds.length := by
  rcases List.eq_nil_or_concat cs with rfl | ⟨init, c, rfl⟩
  · exact Nat.zero_le _
  · rw [List.concat_eq_append] at hc h ⊢
    obtain ⟨hne, hlen⟩ := hc.split
    have hpos := List.length_pos_of_ne_nil hne
    have hlt := hc.length_lt
    rw [hc.length_flatten, hd.length_flatten, List.length_append, List.length_singleton, Nat.mul_succ] at h
    rw [List.length_append, List.length_singleton]
    by_contra hge
    have hmul : K * ds.length ≤ K * init.length := Nat.mul_le_mul_left K (by omega)
    omega

/-- **There is one way to cut a list**: chunks of a prefix are the first chunks of the whole. -/
theorem Chunked.isPrefix {l : List α} (hc : Chunked K r cs) (hd : Chunked K r ds) (hpre : cs.flatten <+: l)
    (hall : ds.flatten = l) (hr : l.length = r) : cs <+: ds := by
  induction cs generalizing r ds l with
  | nil => exact List.nil_prefix
  | cons c cs ih =>
    obtain ⟨hne, hlen, hrest⟩ := hc
    have hpos := List.length_pos_of_ne_nil hne
    cases ds with
    | nil =>
      have hl : l = [] := hall.symm
      rw [hl, List.length_nil] at hr
      omega
    | cons d ds =>
      obtain ⟨-, hlen', hrest'⟩ := hd
      obtain ⟨t, rfl⟩ := hpre
      rw [List.flatten_cons, List.flatten_cons, List.append_assoc] at hall
      obtain ⟨rfl, htail⟩ := List.append_inj hall (hlen'.trans hlen.symm)
      rw [List.flatten_cons, List.append_assoc, List.length_append] at hr
      have hlt : (cs.flatten ++ t).length = r - d.length := by omega
      exact (List.prefix_cons_inj d).mpr (ih hrest hrest' (List.prefix_append _ _) htail hlt)

/-- The pieces of a list at multiples of `K` are its first chunks. -/
theorem chunked_range {β : Type} {l : List β} (hK : 0 < K) (hl : l.length = r) {j : ℕ} (hj : j ≤ (r + K - 1) / K) :
    Chunked K r ((List.range j).map fun c => (l.drop (c * K)).take (min K (r - c * K))) := by
  induction j with
  | zero => exact trivial
  | succ j ih =>
    have ih := ih (Nat.le_of_succ_le hj)
    have hlt : j * K < r := by
      have hmul := (Nat.le_div_iff_mul_le hK).mp hj
      rw [Nat.succ_mul] at hmul
      omega
    have hlen : ((l.drop (j * K)).take (min K (r - j * K))).length = min K (r - j * K) := by
      rw [List.length_take, List.length_drop, hl]
      omega
    rw [List.range_succ, List.map_append]
    refine ih.snoc ?_ ?_
    · rw [← List.length_pos_iff_ne_nil, hlen]
      omega
    · rw [hlen, ih.length_flatten, List.length_map, List.length_range, Nat.mul_comm]
      omega

/-- **Every list can be cut.** -/
theorem exists_chunked {β : Type} (hK : 0 < K) (l : List β) : ∃ cs, Chunked K l.length cs ∧ cs.flatten = l :=
  ⟨_, chunked_range hK rfl (Nat.le_refl _), ByIndex.chunks_flatten hK rfl⟩

end AG2PC.Library.Chunking
