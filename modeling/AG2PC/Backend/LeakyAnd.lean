import AG2PC.Backend.TriplePool

/-!
# The leaky AND is correct

Two honest parties run `leaky_and_halfgate` on `L` candidates whose `a`, `b` and `r`
regions are authenticated shares of `x`, `y` and `r`. The vectors they recover satisfy
`S₁ ⊕ S₂ = (x·y ⊕ r)(Δ₁ ⊕ Δ₂)` (`leakyS_xor`), so the opened bit is `d = x·y ⊕ r`; after
the fold region 2 is an authenticated share of `x·y`, and the two vectors `L^me` that feed
the equality check are equal (`leakyAndHalfgate_ok`). The batches of eight, the last one
partial, hash candidate `k` under key number `gid + k` (`leakyEvaluate_layer`).
-/

namespace AG2PC

open Library.XorAlgebra

section

variable {D : Type} (E : EmpTool D)

/-! ### One candidate -/

/-- The ciphertext of candidate `k` under key number `t`. -/
def leakyCt (Δ : Block) (s : Layer) (L : ℕ) (start : Block) (t k : ℕ) : Block :=
  E.crh start t (s k).key ^^^ E.crh start t ((s k).key ^^^ Δ) ^^^ leakyC Δ s L k

/-- `Sout[k]` computed from the ciphertext `w` under key number `t`. -/
def leakyS (Δ : Block) (s : Layer) (L : ℕ) (start : Block) (t k : ℕ) (w : Block) : Block :=
  E.crh start t (s k).key ^^^ (E.crh start t (s k).mac ^^^ (w &&& selectMask (LSB (s k).mac))) ^^^
    (s (2 * L + k)).key ^^^ (s (2 * L + k)).mac ^^^ (leakyC Δ s L k &&& selectMask (LSB (s k).mac)) ^^^
    (Δ &&& selectMask (LSB (s (2 * L + k)).mac))

/-- A hash of a key shifted by a bit times `Δ`, written with the bit outside. -/
theorem hash_scale (f : Block → Block) (k δ : Block) (b : Bool) :
    f (k ^^^ scale b δ) = f k ^^^ scale b (f k ^^^ f (k ^^^ δ)) := by
  cases b with
  | false => simp
  | true => rw [scale_true, scale_true, word_xor_cancel]

variable {E}

/-- `C₁ ⊕ C₂ = y·(Δ₁ ⊕ Δ₂)`. -/
theorem leakyC_xor {Δ : Deltas} {s₁ s₂ : Layer} {L k : ℕ} (h : MacRel Δ (s₁ (L + k)) (s₂ (L + k))) :
    leakyC Δ.d1 s₁ L k ^^^ leakyC Δ.d2 s₂ L k =
      scale (shareBit (s₁ (L + k)) (s₂ (L + k))) (Δ.d1 ^^^ Δ.d2) := by
  simp only [leakyC, selectMask_and, shareBit, scale_xor, scale_word_xor]
  generalize hy₁ : LSB (s₁ (L + k)).mac = y₁
  generalize hy₂ : LSB (s₂ (L + k)).mac = y₂
  rw [h.mac₁, h.mac₂, hy₁, hy₂]
  simp only [BitVec.xor_assoc, BitVec.xor_comm, word_xor_left_comm, word_xor_cancel]

/-- The sum of the two recovered values, with the hashes of the keys as `g₁`, `g₂` and of the
shifted keys as `g₁'`, `g₂'`: the hashes cancel and only the `C` and `r` terms stay. -/
theorem leaky_sum (g₁ g₁' g₂ g₂' c₁ c₂ k₁ k₂ δ₁ δ₂ : Block) (x₁ x₂ r₁ r₂ : Bool) :
    (g₁ ^^^ (g₂ ^^^ scale x₁ (g₂ ^^^ g₂') ^^^ scale x₁ (g₂ ^^^ g₂' ^^^ c₂)) ^^^ k₁ ^^^
          (k₂ ^^^ scale r₁ δ₂) ^^^ scale x₁ c₁ ^^^ scale r₁ δ₁) ^^^
        (g₂ ^^^ (g₁ ^^^ scale x₂ (g₁ ^^^ g₁') ^^^ scale x₂ (g₁ ^^^ g₁' ^^^ c₁)) ^^^ k₂ ^^^
          (k₁ ^^^ scale r₂ δ₁) ^^^ scale x₂ c₂ ^^^ scale r₂ δ₂) =
      scale (x₁ ^^ x₂) (c₁ ^^^ c₂) ^^^ scale (r₁ ^^ r₂) (δ₁ ^^^ δ₂) := by
  simp only [scale_xor, scale_word_xor]
  simp only [BitVec.xor_assoc, BitVec.xor_comm, word_xor_left_comm, word_xor_cancel]

/-- **The leaky-AND identity**: `S₁ ⊕ S₂ = (x·y ⊕ r)(Δ₁ ⊕ Δ₂)`. -/
theorem leakyS_xor {Δ : Deltas} {s₁ s₂ : Layer} {L k : ℕ} (start : Block) (t : ℕ)
    (ha : MacRel Δ (s₁ k) (s₂ k)) (hb : MacRel Δ (s₁ (L + k)) (s₂ (L + k)))
    (hr : MacRel Δ (s₁ (2 * L + k)) (s₂ (2 * L + k))) :
    leakyS E Δ.d1 s₁ L start t k (leakyCt E Δ.d2 s₂ L start t k) ^^^
        leakyS E Δ.d2 s₂ L start t k (leakyCt E Δ.d1 s₁ L start t k) =
      scale ((shareBit (s₁ k) (s₂ k) && shareBit (s₁ (L + k)) (s₂ (L + k))) ^^
        shareBit (s₁ (2 * L + k)) (s₂ (2 * L + k))) (Δ.d1 ^^^ Δ.d2) := by
  simp only [leakyS, leakyCt, and_selectMask]
  generalize hx₁ : LSB (s₁ k).mac = x₁
  generalize hx₂ : LSB (s₂ k).mac = x₂
  generalize hr₁ : LSB (s₁ (2 * L + k)).mac = r₁
  generalize hr₂ : LSB (s₂ (2 * L + k)).mac = r₂
  rw [ha.mac₁, ha.mac₂, hr.mac₁, hr.mac₂, hx₁, hx₂, hr₁, hr₂, hash_scale (E.crh start t) (s₂ k).key,
    hash_scale (E.crh start t) (s₁ k).key, leaky_sum, leakyC_xor hb, scale_scale, ← scale_xor]
  simp only [shareBit, hx₁, hx₂, hr₁, hr₂]

/-! ### Batches -/

/-- A map over the candidates of a run of batches is one over its first batch and one over the others. -/
theorem map_range'_batches {α : Type} (f : ℕ → α) (b m L : ℕ) :
    (List.range' (8 * b) (min (8 * (m + 1)) (L - 8 * b))).map f =
      ((List.range (min 8 (L - 8 * b))).map fun j => f (8 * b + j)) ++
        (List.range' (8 * (b + 1)) (min (8 * m) (L - 8 * (b + 1)))).map f := by
  have hrange : List.range' (8 * b) (min (8 * (m + 1)) (L - 8 * b)) =
      List.range' (8 * b) (min 8 (L - 8 * b)) ++
        List.range' (8 * (b + 1)) (min (8 * m) (L - 8 * (b + 1))) := by
    by_cases h8 : 8 ≤ L - 8 * b
    · rw [Nat.min_eq_left h8, show 8 * (b + 1) = 8 * b + 8 by omega, List.range'_append_1]
      congr 1
      omega
    · rw [show min (8 * m) (L - 8 * (b + 1)) = 0 by omega,
        show min (8 * (m + 1)) (L - 8 * b) = min 8 (L - 8 * b) by omega]
      simp
  rw [hrange, List.map_append, List.range'_eq_map_range, List.map_map]
  rfl

/-- A key number counted from the next batch is one counted from this batch. -/
theorem gid_next {gid b k : ℕ} (hk : 8 * (b + 1) ≤ k) : gid + 8 + (k - 8 * (b + 1)) = gid + (k - 8 * b) := by
  omega

/-- The values `f k` of the candidates of batches `b` to `b + m`, batch by batch. -/
def batched {α : Type} (f : ℕ → α) (L b m : ℕ) : List (List α) :=
  (List.range' b m).map fun c => (List.range (min 8 (L - 8 * c))).map fun j => f (8 * c + j)

/-- The batches joined. -/
theorem batched_flatten {α : Type} (f : ℕ → α) (L : ℕ) : ∀ m b,
    (batched f L b m).flatten = (List.range' (8 * b) (min (8 * m) (L - 8 * b))).map f := by
  intro m
  induction m with
  | zero => intro b; simp [batched]
  | succ m ih =>
    intro b
    have htail : (batched f L (b + 1) m).flatten =
        (List.range' (8 * (b + 1)) (min (8 * m) (L - 8 * (b + 1)))).map f := ih (b + 1)
    rw [batched, List.range'_succ, List.map_cons, List.flatten_cons, map_range'_batches]
    exact congrArg _ htail

/-- The batches of a whole layer, joined. -/
theorem batched_flatten_zero {α : Type} (f : ℕ → α) (L : ℕ) :
    (batched f L 0 ((L + 7) / 8)).flatten = (List.range L).map f := by
  rw [batched_flatten, show min (8 * ((L + 7) / 8)) (L - 8 * 0) = L by omega, List.range_eq_range']

/-- The ciphertexts of a run of batches: candidate `k` under the key of its index. -/
theorem leakyGarble_batched (Δ : Block) (s : Layer) (L : ℕ) :
    ∀ (m b : ℕ) (g : MITCCRH), (leakyGarble E Δ s L g ((List.range' b m).map (8 * ·))).2 =
      batched (fun k => leakyCt E Δ s L g.startPoint (g.gid + (k - 8 * b)) k) L b m := by
  intro m
  induction m with
  | zero => intro b g; simp [leakyGarble, batched]
  | succ m ih =>
    intro b g
    rw [List.range'_succ, List.map_cons, leakyGarble]
    dsimp only
    rw [ih (b + 1) (g.advance 8), batched, batched, List.range'_succ, List.map_cons]
    refine congrArg₂ List.cons ?_ (List.map_congr_left fun c hc => List.map_congr_left fun j _ => ?_)
    · refine List.map_congr_left fun j _ => ?_
      rw [Nat.add_sub_cancel_left]
      rfl
    · have hc' := List.mem_range'_1.mp hc
      rw [MITCCRH.advance_startPoint, MITCCRH.advance_gid, gid_next (by omega)]

/-- A run of batches at the evaluator's half, on received ciphertexts `w k`. -/
theorem leakyEvaluate_batched (Δ : Block) (s : Layer) (L : ℕ) (w : ℕ → Block) :
    ∀ (m b : ℕ) (e : MITCCRH),
      leakyEvaluate E Δ s L e ((List.range' b m).map (8 * ·)) (batched w L b m) =
        (e.advance (8 * m), (List.range' (8 * b) (min (8 * m) (L - 8 * b))).map fun k =>
          leakyS E Δ s L e.startPoint (e.gid + (k - 8 * b)) k (w k)) := by
  intro m
  induction m with
  | zero => intro b e; simp [leakyEvaluate, MITCCRH.advance]
  | succ m ih =>
    intro b e
    rw [batched, List.range'_succ, List.map_cons, List.map_cons, leakyEvaluate]
    simp only [List.headD_cons, List.tail_cons]
    rw [show (List.range' (b + 1) m).map (fun c => (List.range (min 8 (L - 8 * c))).map fun j => w (8 * c + j)) =
        batched w L (b + 1) m from rfl, ih (b + 1) (e.advance 8), map_range'_batches, Prod.mk.injEq]
    constructor
    · simp only [MITCCRH.advance, MITCCRH.mk.injEq, true_and]
      omega
    · refine congrArg₂ (· ++ ·) ?_ ?_
      · -- the batch starting at `8 * b`: its `j`-th candidate is `8 * b + j`
        refine List.map_congr_left fun j hj => ?_
        have hj' : j < min 8 (L - 8 * b) := List.mem_range.mp hj
        simp only [leakyS, MITCCRH.hashAt, Nat.add_sub_cancel_left]
        rw [List.getD_eq_getElem?_getD, List.getElem?_map, List.getElem?_range hj']
        rfl
      · -- the later batches, under keys eight further on
        refine List.map_congr_left fun k hk => ?_
        rw [MITCCRH.advance_startPoint, MITCCRH.advance_gid, gid_next (List.mem_range'_1.mp hk).1]

/-- `Sout` of a whole layer, from received ciphertexts `w k`. -/
theorem leakyEvaluate_layer (Δ : Block) (s : Layer) (L : ℕ) (w : ℕ → Block) (e : MITCCRH) :
    leakyEvaluate E Δ s L e (batchStarts L) (batched w L 0 ((L + 7) / 8)) =
      (e.advance (8 * ((L + 7) / 8)), (List.range L).map fun k =>
        leakyS E Δ s L e.startPoint (e.gid + k) k (w k)) := by
  have h := leakyEvaluate_batched (E := E) Δ s L w ((L + 7) / 8) 0 e
  rw [show min (8 * ((L + 7) / 8)) (L - 8 * 0) = L by omega] at h
  simpa [batchStarts, List.range_eq_range'] using h

/-- The ciphertexts of a whole layer, batch by batch. -/
theorem leakyGarble_layer (Δ : Block) (s : Layer) (L : ℕ) (g : MITCCRH) :
    (leakyGarble E Δ s L g (batchStarts L)).2 =
      batched (fun k => leakyCt E Δ s L g.startPoint (g.gid + k) k) L 0 ((L + 7) / 8) := by
  have h := leakyGarble_batched (E := E) Δ s L ((L + 7) / 8) 0 g
  simpa [batchStarts, List.range_eq_range'] using h

/-- The pads of a run of batches. -/
theorem leakyPads_range' (s : Layer) (L : ℕ) :
    ∀ (m b : ℕ) (g : MITCCRH), leakyPads s L g ((List.range' b m).map (8 * ·)) =
      (List.range' (8 * b) (min (8 * m) (L - 8 * b))).map fun k =>
        ⟨g.startPoint, g.gid + (k - 8 * b), (s k).key⟩ := by
  intro m
  induction m with
  | zero => intro b g; simp [leakyPads]
  | succ m ih =>
    intro b g
    rw [List.range'_succ, List.map_cons, leakyPads, ih (b + 1) (g.advance 8), map_range'_batches]
    refine congrArg₂ (· ++ ·) ?_ ?_
    · refine List.map_congr_left fun j _ => ?_
      rw [Nat.add_sub_cancel_left]
    · refine List.map_congr_left fun k hk => ?_
      rw [MITCCRH.advance_startPoint, MITCCRH.advance_gid, gid_next (List.mem_range'_1.mp hk).1]

/-- The pads of a whole layer: candidate `k` under the key `k` places ahead. -/
theorem leakyPads_batchStarts (s : Layer) (L : ℕ) (g : MITCCRH) :
    leakyPads s L g (batchStarts L) =
      (List.range L).map fun k => ⟨g.startPoint, g.gid + k, (s k).key⟩ := by
  have h := leakyPads_range' s L ((L + 7) / 8) 0 g
  rw [show min (8 * ((L + 7) / 8)) (L - 8 * 0) = L by omega] at h
  simpa [batchStarts, List.range_eq_range'] using h

/-- The ciphertexts of a whole layer. -/
theorem leakyGarble_batchStarts (Δ : Block) (s : Layer) (L : ℕ) (g : MITCCRH) :
    (leakyGarble E Δ s L g (batchStarts L)).2.flatten =
      (List.range L).map fun k => leakyCt E Δ s L g.startPoint (g.gid + k) k := by
  rw [leakyGarble_layer, batched_flatten_zero]

/-- Where the garbler's half leaves its hash state. -/
theorem leakyGarble_fst (Δ : Block) (s : Layer) (L : ℕ) :
    ∀ (starts : List ℕ) (g : MITCCRH), (leakyGarble E Δ s L g starts).1 = g.advance (8 * starts.length) := by
  intro starts
  induction starts with
  | nil => intro g; simp [leakyGarble, MITCCRH.advance]
  | cons k0 rest ih =>
    intro g
    rw [leakyGarble]
    simp only [ih, MITCCRH.advance, List.length_cons, MITCCRH.mk.injEq, true_and]
    omega

/-- Where the evaluator's half leaves its hash state, whatever it receives. -/
theorem leakyEvaluate_fst (Δ : Block) (s : Layer) (L : ℕ) : ∀ (starts : List ℕ) (e : MITCCRH) (w : List (List Block)),
    (leakyEvaluate E Δ s L e starts w).1 = e.advance (8 * starts.length) := by
  intro starts
  induction starts with
  | nil => intro e w; simp [leakyEvaluate, MITCCRH.advance]
  | cons k0 rest ih =>
    intro e w
    rw [leakyEvaluate]
    simp only [ih, MITCCRH.advance, List.length_cons, MITCCRH.mk.injEq, true_and]
    omega

/-- `Sout` of a whole layer, from the peer's ciphertexts. -/
theorem leakyEvaluate_batchStarts (Δ Δ' : Block) (s s' : Layer) (L : ℕ) (e g : MITCCRH) :
    leakyEvaluate E Δ s L e (batchStarts L) (leakyGarble E Δ' s' L g (batchStarts L)).2 =
      (e.advance (8 * ((L + 7) / 8)), (List.range L).map fun k =>
        leakyS E Δ s L e.startPoint (e.gid + k) k (leakyCt E Δ' s' L g.startPoint (g.gid + k) k)) := by
  rw [leakyGarble_layer, leakyEvaluate_layer]

end

/-! ### A layer -/

/-- The layers `s₁`, `s₂` share the bits `a`, `b` and `c` in their three regions. -/
structure TripleOk (Δ : Deltas) (L : ℕ) (s₁ s₂ : Layer) (a b c : ℕ → Bool) : Prop where
  rel : ∀ i < 3 * L, MacRel Δ (s₁ i) (s₂ i)
  bitA : ∀ i < L, shareBit (s₁ i) (s₂ i) = a i
  bitB : ∀ i < L, shareBit (s₁ (L + i)) (s₂ (L + i)) = b i
  bitC : ∀ i < L, shareBit (s₁ (2 * L + i)) (s₂ (2 * L + i)) = c i

/-- The two parties' hash states, `F_eq` vectors and pools have kept in step. -/
structure HalvesAgree (h₁ h₂ : TripleHalf) : Prop where
  emitc₁ : h₁.emitc = h₁.gmitc
  gmitc₂ : h₂.gmitc = h₁.gmitc
  emitc₂ : h₂.emitc = h₁.gmitc
  feq : h₁.feq = h₂.feq
  used : h₁.pool.used = h₂.pool.used

/-- Folding the opened `d` into region 2: party 1 flips its bit, party 2 moves its key by
`Δ ⊕ e₀`, so the shared bit flips and bit 0 of the key stays clear. -/
theorem macRel_fold {Δ : Deltas} {s₁ s₂ : AShareBundle} (h : MacRel Δ s₁ s₂) (d : Bool) :
    MacRel Δ { s₁ with mac := s₁.mac ^^^ scale d bit0Mask }
        { s₂ with key := s₂.key ^^^ scale d (Δ.d2 ^^^ bit0Mask) } ∧
      shareBit { s₁ with mac := s₁.mac ^^^ scale d bit0Mask }
        { s₂ with key := s₂.key ^^^ scale d (Δ.d2 ^^^ bit0Mask) } = (shareBit s₁ s₂ ^^ d) := by
  constructor
  · refine .of_bits (LSB s₁.mac ^^ d) (LSB s₂.mac) ?_ h.mac₂ h.key₁ ?_
    · simp only [scale_xor, scale_word_xor]
      conv_lhs => rw [h.mac₁]
      simp only [BitVec.xor_assoc, BitVec.xor_comm, word_xor_left_comm, word_xor_cancel]
    · simp [h.key₂]
  · simp only [shareBit, LSB_xor, LSB_scale, LSB_bit0Mask, Bool.and_true]
    cases LSB s₁.mac <;> cases LSB s₂.mac <;> cases d <;> rfl

/-- **A layer's leaky AND**: region 2 becomes an authenticated share of `x·y`, the other two
regions are untouched, and the two parties keep in step. -/
theorem leakyAndHalfgate_ok {D : Type} (E : EmpTool D) {Δ : Deltas} {L : ℕ} {h₁ h₂ : TripleHalf}
    {s₁ s₂ : Layer} {x y r : ℕ → Bool} (hh : HalvesAgree h₁ h₂) (hs : TripleOk Δ L s₁ s₂ x y r) :
    let l := leakyAndHalfgate E Δ L h₁ h₂ s₁ s₂
    HalvesAgree l.1.1 l.2.1 ∧ TripleOk Δ L l.1.2 l.2.2 x y (fun i => x i && y i) ∧
      l.1.1.acc = h₁.acc ∧ l.2.1.acc = h₂.acc ∧ l.1.1.pool = h₁.pool ∧ l.2.1.pool = h₂.pool := by
  intro l
  have rel₀ : ∀ k < L, MacRel Δ (s₁ k) (s₂ k) := fun k hk => hs.rel k (by omega)
  have rel₁ : ∀ k < L, MacRel Δ (s₁ (L + k)) (s₂ (L + k)) := fun k hk => hs.rel _ (by omega)
  have rel₂ : ∀ k < L, MacRel Δ (s₁ (2 * L + k)) (s₂ (2 * L + k)) := fun k hk => hs.rel _ (by omega)
  -- what each party recovers, and the sum of the two
  have hS₁ := leakyEvaluate_batchStarts (E := E) Δ.d1 Δ.d2 s₁ s₂ L h₁.emitc h₂.gmitc
  have hS₂ := leakyEvaluate_batchStarts (E := E) Δ.d2 Δ.d1 s₂ s₁ L h₂.emitc h₁.gmitc
  set S₁ := leakyEvaluate E Δ.d1 s₁ L h₁.emitc (batchStarts L)
    (leakyGarble E Δ.d2 s₂ L h₂.gmitc (batchStarts L)).2 with hS₁def
  set S₂ := leakyEvaluate E Δ.d2 s₂ L h₂.emitc (batchStarts L)
    (leakyGarble E Δ.d1 s₁ L h₁.gmitc (batchStarts L)).2 with hS₂def
  have hsum : ∀ k < L, S₁.2.getD k zeroBlock ^^^ S₂.2.getD k zeroBlock =
      scale ((x k && y k) ^^ r k) (Δ.d1 ^^^ Δ.d2) := by
    intro k hk
    have h := leakyS_xor (E := E) h₁.gmitc.startPoint (h₁.gmitc.gid + k) (rel₀ k hk) (rel₁ k hk) (rel₂ k hk)
    rw [hs.bitA k hk, hs.bitB k hk, hs.bitC k hk] at h
    rw [hS₁, hS₂, ← h]
    simp [List.getD_eq_getElem?_getD, hk, hh.emitc₁, hh.emitc₂, hh.gmitc₂]
  have hd : ∀ k < L, (LSB1 (S₁.2.getD k zeroBlock) != LSB1 (S₂.2.getD k zeroBlock)) =
      ((x k && y k) ^^ r k) := by
    intro k hk
    have h := congrArg LSB1 (hsum k hk)
    simpa using h
  set d : ℕ → Bool := fun k => LSB1 (S₁.2.getD k zeroBlock) != LSB1 (S₂.2.getD k zeroBlock) with hddef
  have hd' : ∀ k < L, d k = ((x k && y k) ^^ r k) := hd
  refine ⟨⟨?_, ?_, ?_, ?_, hh.used⟩, ⟨?_, ?_, ?_, ?_⟩, rfl, rfl, rfl, rfl⟩
  · change S₁.1 = (leakyGarble E Δ.d1 s₁ L h₁.gmitc (batchStarts L)).1
    rw [leakyGarble_fst, hS₁, hh.emitc₁, batchStarts, List.length_map, List.length_range]
  · change (leakyGarble E Δ.d2 s₂ L h₂.gmitc (batchStarts L)).1 =
      (leakyGarble E Δ.d1 s₁ L h₁.gmitc (batchStarts L)).1
    rw [leakyGarble_fst, leakyGarble_fst, hh.gmitc₂]
  · change S₂.1 = (leakyGarble E Δ.d1 s₁ L h₁.gmitc (batchStarts L)).1
    rw [leakyGarble_fst, hS₂, hh.emitc₂, batchStarts, List.length_map, List.length_range]
  · -- the two `L^me` vectors
    change h₁.feq ++ (leakyFold .alice Δ.d1 L s₁ S₁.2 d).2 = h₂.feq ++ (leakyFold .bob Δ.d2 L s₂ S₂.2 d).2
    rw [hh.feq]
    congr 1
    refine List.map_congr_left fun k hk => ?_
    have hk' : k < L := List.mem_range.mp hk
    have h := hsum k hk'
    rw [← hd' k hk', word_xor_eq_iff, scale_word_xor] at h
    simp only [and_selectMask]
    rw [h]
    simp only [BitVec.xor_comm, word_xor_left_comm, word_xor_cancel]
  · intro i hi
    change MacRel Δ ((leakyFold .alice Δ.d1 L s₁ S₁.2 d).1 i) ((leakyFold .bob Δ.d2 L s₂ S₂.2 d).1 i)
    by_cases hlt : i < 2 * L
    · simp only [leakyFold, forRegion_of_lt hlt]
      exact hs.rel i hi
    · obtain ⟨k, rfl⟩ : ∃ k, i = 2 * L + k := ⟨i - 2 * L, by omega⟩
      have hk : k < L := by omega
      simp only [leakyFold, forRegion_mem hk, and_selectMask]
      exact (macRel_fold (rel₂ k hk) (d k)).1
  · intro i hi
    change shareBit ((leakyFold .alice Δ.d1 L s₁ S₁.2 d).1 i) ((leakyFold .bob Δ.d2 L s₂ S₂.2 d).1 i) = _
    simp only [leakyFold, forRegion_of_lt (show i < 2 * L by omega)]
    exact hs.bitA i hi
  · intro i hi
    change shareBit ((leakyFold .alice Δ.d1 L s₁ S₁.2 d).1 (L + i))
      ((leakyFold .bob Δ.d2 L s₂ S₂.2 d).1 (L + i)) = _
    simp only [leakyFold, forRegion_of_lt (show L + i < 2 * L by omega)]
    exact hs.bitB i hi
  · intro i hi
    change shareBit ((leakyFold .alice Δ.d1 L s₁ S₁.2 d).1 (2 * L + i))
      ((leakyFold .bob Δ.d2 L s₂ S₂.2 d).1 (2 * L + i)) = _
    simp only [leakyFold, forRegion_mem hi, and_selectMask]
    rw [(macRel_fold (rel₂ i hi) (d i)).2, hs.bitC i hi, hd' i hi]
    cases x i <;> cases y i <;> cases r i <;> rfl

end AG2PC
