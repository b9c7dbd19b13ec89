import AG2PC.Backend.HashPads
import Mathlib.Algebra.Group.Nat.Defs

/-!
# Bucket sizes

`get_bucket_size` searches the least bucket size `B` whose leakage bound `L^(B-1)` passes `2^ssp`, for
a number of candidates floored at 1024. `compute_inplace` then shuffles layers of `num_ands` candidates,
which is not floored.

* `getBucketSize_least` — the search finds the least `B` for the size it searches with.
* `bucketing_meets_target_iff` — the bound holds for the candidates really shuffled exactly when there
  are enough of them.
-/

namespace AG2PC

/-- Buckets of size `B` over layers of `L` candidates leak less than `2^-ssp`. -/
def LeakageBelow (ssp L B : ℕ) : Prop := 2 ^ ssp < L ^ (B - 1)

/-- `B` is the least bucket size from 2 on that suffices for `size` candidates. -/
structure LeastBucketSize (ssp size B : ℕ) : Prop where
  two_le : 2 ≤ B
  below : LeakageBelow ssp size B
  least : ∀ B', 2 ≤ B' → LeakageBelow ssp size B' → B ≤ B'

/-- More candidates leak less. -/
theorem LeakageBelow.mono {ssp L L' B : ℕ} (hL : L ≤ L') (h : LeakageBelow ssp L B) :
    LeakageBelow ssp L' B :=
  Nat.lt_of_lt_of_le h (Nat.pow_le_pow_left hL _)

/-! ### The search -/

/-- The loop stops at the first bucket size that suffices, if its fuel reaches one. -/
theorem bucketSearch_least (ssp size : ℕ) : ∀ fuel B, LeakageBelow ssp size (B + fuel) →
    LeakageBelow ssp size (bucketSearch ssp size fuel B) ∧
      ∀ B', B ≤ B' → LeakageBelow ssp size B' → bucketSearch ssp size fuel B ≤ B' := by
  intro fuel
  induction fuel with
  | zero =>
    intro B h
    exact ⟨h, fun B' hB _ => hB⟩
  | succ fuel ih =>
    intro B h
    rw [bucketSearch]
    split
    · next hle =>
      -- `B` does not suffice, so the search goes on above it
      obtain ⟨hbelow, hleast⟩ := ih (B + 1) (by rwa [Nat.add_assoc, Nat.add_comm 1])
      refine ⟨hbelow, fun B' hB hB' => hleast B' ?_ hB'⟩
      rcases Nat.eq_or_lt_of_le hB with rfl | hlt
      · exact absurd hB' (Nat.not_lt_of_le hle)
      · exact hlt
    · next hlt => exact ⟨Nat.lt_of_not_le hlt, fun B' hB _ => hB⟩

/-- **The search is right for the size it uses**: it finds the least bucket size that suffices for
`max(num_ands, 1024)` candidates. -/
theorem getBucketSize_least (ssp numAnds : ℕ) :
    LeastBucketSize ssp (max numAnds 1024) (getBucketSize ssp numAnds) := by
  have hfuel : LeakageBelow ssp (max numAnds 1024) (2 + ssp) := by
    have hsize : 2 ≤ max numAnds 1024 := (by decide : 2 ≤ 1024).trans (Nat.le_max_right _ _)
    calc 2 ^ ssp < 2 ^ (2 + ssp - 1) := Nat.pow_lt_pow_right (by decide) (by omega)
      _ ≤ max numAnds 1024 ^ (2 + ssp - 1) := Nat.pow_le_pow_left hsize _
  obtain ⟨hbelow, hleast⟩ := bucketSearch_least ssp (max numAnds 1024) ssp 2 hfuel
  exact ⟨two_le_getBucketSize ssp numAnds, hbelow, hleast⟩

/-- Among 1024 candidates a bucket of `ssp / 10 + 2` suffices, and no smaller one. -/
theorem leakageBelow_1024 (ssp B : ℕ) : LeakageBelow ssp 1024 B ↔ ssp / 10 + 2 ≤ B := by
  have hpow : 1024 ^ (B - 1) = 2 ^ (10 * (B - 1)) := by rw [Nat.pow_mul]
  rw [LeakageBelow, hpow, Nat.pow_lt_pow_iff_right (by decide)]
  omega

/-- The floored size bounds the bucket. -/
theorem getBucketSize_le (ssp numAnds : ℕ) : getBucketSize ssp numAnds ≤ ssp / 10 + 2 := by
  have h1024 : LeakageBelow ssp 1024 (ssp / 10 + 2) := (leakageBelow_1024 ssp _).mpr (Nat.le_refl _)
  exact (getBucketSize_least ssp numAnds).least _ (Nat.le_add_left 2 _) (h1024.mono (Nat.le_max_right _ _))

/-- For a floored size the search has the result in closed form. -/
theorem getBucketSize_of_le {ssp numAnds : ℕ} (h : numAnds ≤ 1024) :
    getBucketSize ssp numAnds = ssp / 10 + 2 := by
  obtain ⟨-, hbelow, -⟩ := getBucketSize_least ssp numAnds
  rw [Nat.max_eq_right h] at hbelow
  exact Nat.le_antisymm (getBucketSize_le ssp numAnds) ((leakageBelow_1024 ssp _).mp hbelow)

/-! ### What is shuffled -/

/-- `const int B` and `const int L` of `compute_inplace`: the bucket size, and the number of candidates
of each layer. -/
def bucketParams (ssp numAnds : ℕ) : ℕ × ℕ := (getBucketSize ssp numAnds, numAnds)

/-- `compute_inplace` runs with these. -/
theorem computeInplace_bucketParams {D : Type} [DecidableEq D] (E : EmpTool D) (Δ : Deltas)
    (cot₁ cot₂ : ℕ → AShareBundle) (ssp : ℕ) (raw : ℕ → ℕ) (nonce : Block) (numAnds : ℕ)
    (repA₁ repB₁ repA₂ repB₂ : ℕ → AShareBundle) (t₁ t₂ : TriplePool) :
    computeInplace E Δ cot₁ cot₂ ssp raw nonce numAnds repA₁ repB₁ repA₂ repB₂ t₁ t₂ =
      computeInplaceWith E Δ cot₁ cot₂ .none raw nonce (bucketParams ssp numAnds).1
        (bucketParams ssp numAnds).2 repA₁ repB₁ repA₂ repB₂ t₁ t₂ := rfl

/-- The bucket size a run uses meets the target for the layers it shuffles, and is the least that does
for the size it was searched with. -/
def BucketingMeetsTarget (ssp numAnds : ℕ) : Prop :=
  LeakageBelow ssp (bucketParams ssp numAnds).2 (bucketParams ssp numAnds).1 ∧
    LeastBucketSize ssp (max numAnds 1024) (bucketParams ssp numAnds).1

/-- **The bucketing parameters**: they meet the target exactly when a bucket searched for 1024
candidates suffices for `num_ands`. -/
theorem bucketing_meets_target_iff (ssp numAnds : ℕ) :
    BucketingMeetsTarget ssp numAnds ↔ 2 ^ ssp < numAnds ^ (ssp / 10 + 1) := by
  have hleast := getBucketSize_least ssp numAnds
  unfold BucketingMeetsTarget bucketParams
  rw [and_iff_left hleast]
  change LeakageBelow ssp numAnds (getBucketSize ssp numAnds) ↔ LeakageBelow ssp numAnds (ssp / 10 + 2)
  rcases Nat.le_total numAnds 1024 with hsmall | hlarge
  · rw [getBucketSize_of_le hsmall]
  · -- from 1024 candidates on both hold
    have hbelow := hleast.below
    rw [Nat.max_eq_left hlarge] at hbelow
    have h1024 : LeakageBelow ssp 1024 (ssp / 10 + 2) := (leakageBelow_1024 ssp _).mpr (Nat.le_refl _)
    exact iff_of_true hbelow (h1024.mono hlarge)

/-- A checkpoint with one AND shuffles nothing: its one candidate can only be put in one bucket. -/
theorem bucketing_one_and : ¬ BucketingMeetsTarget 40 1 := by
  rintro ⟨hbelow, -⟩
  rw [bucketParams, getBucketSize_of_le (by decide)] at hbelow
  revert hbelow
  unfold LeakageBelow
  decide

end AG2PC
