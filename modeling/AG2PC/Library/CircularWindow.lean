import Mathlib.Data.List.Range
import Mathlib.Data.Nat.ModEq

/-!
# Windows of a circular list

The entries of a list at `count` places from `head` on, around its end: what a ring buffer holds.

* `window_succ`, `window_cons` — a window grows at its end and shrinks at its head.
* `window_set` — a write just behind a window leaves it as it is.
-/

namespace AG2PC.Library.CircularWindow

variable {α : Type*} {slots : List α} {head count : ℕ}

/-- The entries at the `count` places from `head` on. -/
def window (slots : List α) (head count : ℕ) : List α :=
  (List.range count).filterMap fun k => slots[(head + k) % slots.length]?

/-- Places less than a turn apart are different. -/
theorem place_inj {d j k : ℕ} (hj : j < d) (hk : k < d) (h : (head + j) % d = (head + k) % d) : j = k := by
  have hmod : j ≡ k [MOD d] := Nat.ModEq.add_left_cancel' head h
  exact hmod.eq_of_lt_of_lt hj hk

/-- A place that exists has an entry. -/
theorem exists_slot (hlen : 0 < slots.length) (i : ℕ) : ∃ v, slots[i % slots.length]? = some v :=
  ⟨_, List.getElem?_eq_getElem (Nat.mod_lt i hlen)⟩

@[simp] theorem window_zero : window slots head 0 = [] := rfl

/-- A window with the entry behind it. -/
theorem window_succ : window slots head (count + 1) =
    window slots head count ++ slots[(head + count) % slots.length]?.toList := by
  rw [window, window, List.range_succ, List.filterMap_append, List.filterMap_cons, List.filterMap_nil]
  cases h : slots[(head + count) % slots.length]? <;> rfl

/-- A window is its first entry and the window from the next place on. -/
theorem window_cons : window slots head (count + 1) =
    slots[head % slots.length]?.toList ++ window slots ((head + 1) % slots.length) count := by
  have hnext : ∀ k, (head + (k + 1)) % slots.length = ((head + 1) % slots.length + k) % slots.length := by
    intro k
    rw [Nat.mod_add_mod]
    congr 1
    omega
  have hrest : (List.range count).filterMap (fun k => slots[(head + (k + 1)) % slots.length]?) =
      window slots ((head + 1) % slots.length) count :=
    List.filterMap_congr fun k _ => by rw [hnext]
  rw [window, List.range_succ_eq_map, List.filterMap_cons, List.filterMap_map, Nat.add_zero]
  change (match slots[head % slots.length]? with
    | none => (List.range count).filterMap fun k => slots[(head + (k + 1)) % slots.length]?
    | some v => v :: (List.range count).filterMap fun k => slots[(head + (k + 1)) % slots.length]?) = _
  rw [hrest]
  cases slots[head % slots.length]? <;> rfl

/-- A window has an entry at each place. -/
theorem length_window (hlen : 0 < slots.length) : (window slots head count).length = count := by
  induction count with
  | zero => rfl
  | succ count ih =>
    obtain ⟨v, hv⟩ := exists_slot hlen (head + count)
    rw [window_succ, List.length_append, ih, hv]
    rfl

/-- A write behind a window that is not the whole list. -/
theorem window_set (h : count < slots.length) (v : α) :
    window (slots.set ((head + count) % slots.length) v) head count = window slots head count := by
  unfold window
  rw [List.length_set]
  refine List.filterMap_congr fun k hk => ?_
  have hk' : k < count := List.mem_range.mp hk
  have hne : (head + count) % slots.length ≠ (head + k) % slots.length := fun heq =>
    absurd (place_inj h (Nat.lt_trans hk' h) heq) (Nat.ne_of_gt hk')
  rw [List.getElem?_set_ne hne]

end AG2PC.Library.CircularWindow
