import AG2PC.Backend.DigestProbe
import AG2PC.Backend.EvaluatorRuns

/-!
# The garble pass in two worlds

Given the evaluator's shares, a garbler's share is one bit. An evaluator that gets one label of each wire does not know
these bits, as long as it cannot hash the other label. This module compares two runs of the garble pass that differ in
the garbler's bits, and in the hashes of the labels the evaluator does not get.

* `garblerAnswer` — the garbler's share with a given bit.
* `hashShift` — what moves the hash function of an AND from one world to the other: it moves the hash of the label that
  the evaluator does not get of each operand, when the value of the other operand changes.
* `garbleAnd_alike` — then the AND has the same entry and the same zero label, unless the labels of its operands meet.
* `gammaAnd_alike` — its witness is the same exactly when the cross term of its values is.
* `GarbledRun.labels_alike` — so is the whole stream.
-/

namespace AG2PC

open Library.XorAlgebra Library.SlotReuse Library.ByIndex

/-! ### The garbler's coins -/

/-- The garbler's share with the bit `b` that answers the evaluator's share `t`. -/
def garblerAnswer (Δ : Deltas) (t : AShareBundle) (b : Bool) : AShareBundle :=
  ⟨t.key ^^^ scale b Δ.d2, t.mac ^^^ scale (LSB t.mac) Δ.d1⟩

section

variable {Δ : Deltas} {s s' t : AShareBundle} {b : Bool}

theorem LSB_garblerAnswer (h : LSB t.key = false) : LSB (garblerAnswer Δ t b).mac = b := by
  simp [garblerAnswer, h]

theorem macRel_garblerAnswer (h : LSB t.key = false) : MacRel Δ (garblerAnswer Δ t b) t where
  mac₁ := by
    rw [LSB_garblerAnswer h]
    rfl
  mac₂ := by
    rw [garblerAnswer, BitVec.xor_assoc, BitVec.xor_self, BitVec.xor_zero]
  key₁ := by simp [garblerAnswer]
  key₂ := h

/-- The evaluator knows the garbler's keys. -/
theorem MacRel.key₁_eq (h : MacRel Δ s t) : s.key = t.mac ^^^ scale (LSB t.mac) Δ.d1 := by
  have hmac := (word_xor_eq_iff _ _ _).mp h.mac₂.symm
  exact hmac

/-- Two garbler's shares that answer the same share have the same key. -/
theorem MacRel.same_key (h : MacRel Δ s t) (h' : MacRel Δ s' t) : s'.key = s.key := by
  rw [h.key₁_eq, h'.key₁_eq]

/-- Where they have the same bit they are the same. -/
theorem MacRel.eq_of_bit₁ (h : MacRel Δ s t) (h' : MacRel Δ s' t) (hbit : LSB s.mac = LSB s'.mac) : s = s' := by
  have hmac : s.mac = s'.mac := by rw [h.mac₁, h'.mac₁, hbit]
  have hkey : s.key = s'.key := (h.same_key h').symm
  cases s
  cases s'
  exact congrArg₂ _ hmac hkey

end

/-- The share `s'` is the garbler's share `s` with its bit changed by `d`. -/
structure BitMoved (Δ : Deltas) (s s' : AShareBundle) (d : Bool) : Prop where
  key : s'.key = s.key
  mac : s'.mac = s.mac ^^^ scale d Δ.d2

theorem BitMoved.bit {Δ : Deltas} {s s' : AShareBundle} {d : Bool} (h : BitMoved Δ s s' d) :
    LSB s'.mac = (LSB s.mac ^^ d) := by
  rw [h.mac, LSB_xor, LSB_scale, Δ.lsb_d2, Bool.and_true]

/-- Two garbler's shares that answer the same share of the evaluator. -/
theorem MacRel.bitMoved {Δ : Deltas} {s s' t : AShareBundle} {d : Bool} (h : MacRel Δ s t) (h' : MacRel Δ s' t)
    (hd : (LSB s.mac ^^ LSB s'.mac) = d) : BitMoved Δ s s' d where
  key := h.same_key h'
  mac := by
    rw [← hd, scale_xor, ← BitVec.xor_assoc, ← (word_xor_eq_iff _ _ _).mp h.mac₁.symm]
    exact h'.mac₁

/-! ### Hashing the labels of an AND -/

/-- The label that the evaluator does not get of a wire with zero label `l` and opened mask `mask`. -/
def hiddenLabel (δ l : Block) (mask : Bool) : Block := l ^^^ scale (!mask) δ

/-- The labels of two wires meet: with the one the evaluator has both labels of the other. -/
def LabelsMeet (δ la lb : Block) : Prop := ∃ c, la = lb ^^^ scale c δ

/-- The hash function of an AND changes at the hidden label of an operand when the other operand changes: `ma` and `mb`
are the masks of the operands, `da` and `db` tell whether their values change. -/
def hashShift {D : Type} (E : EmpTool D) (δ la lb : Block) (ma mb da db : Bool) (x : Block) : Block :=
  (if x = E.sigma (hiddenLabel δ la ma) then scale db δ else zeroBlock) ^^^
    (if x = E.sigma (hiddenLabel δ lb mb) then scale da δ else zeroBlock)

section

variable {D : Type} {E : EmpTool D} {δ la lb : Block} {ma mb da db : Bool}

/-- The two labels of a wire are apart. -/
theorem label_eq_hiddenLabel_iff (hδ : δ ≠ 0#128) (c : Bool) : la ^^^ scale c δ = hiddenLabel δ la ma ↔ c = !ma := by
  rw [hiddenLabel, BitVec.xor_right_inj, scale_eq_scale_iff]
  exact ⟨fun h => h hδ, fun h _ => h⟩

theorem label_ne_hiddenLabel (hmeet : ¬ LabelsMeet δ la lb) (c : Bool) : la ^^^ scale c δ ≠ hiddenLabel δ lb mb := by
  intro h
  refine hmeet ⟨!mb ^^ c, ?_⟩
  rw [scale_xor, ← BitVec.xor_assoc]
  exact (word_xor_eq_iff _ _ _).mp h

theorem LabelsMeet.symm (h : LabelsMeet δ la lb) : LabelsMeet δ lb la := by
  obtain ⟨c, h⟩ := h
  exact ⟨c, (word_xor_eq_iff _ _ _).mp h.symm⟩

theorem hashShift_left (hσ : Function.Injective E.sigma) (hδ : δ ≠ 0#128) (hmeet : ¬ LabelsMeet δ la lb) (c : Bool) :
    hashShift E δ la lb ma mb da db (E.sigma (la ^^^ scale c δ)) = scale ((c ^^ ma) && db) δ := by
  simp only [hashShift, hσ.eq_iff, if_neg (label_ne_hiddenLabel hmeet c), label_eq_hiddenLabel_iff hδ]
  cases c <;> cases ma <;> cases db <;> simp [zeroBlock]

theorem hashShift_right (hσ : Function.Injective E.sigma) (hδ : δ ≠ 0#128) (hmeet : ¬ LabelsMeet δ la lb) (c : Bool) :
    hashShift E δ la lb ma mb da db (E.sigma (lb ^^^ scale c δ)) = scale ((c ^^ mb) && da) δ := by
  have hmeet' : ¬ LabelsMeet δ lb la := fun h => hmeet h.symm
  simp only [hashShift, hσ.eq_iff, if_neg (label_ne_hiddenLabel hmeet' c), label_eq_hiddenLabel_iff hδ]
  cases c <;> cases mb <;> cases da <;> simp [zeroBlock]

end

/-! ### One AND in two worlds -/

/-- The sums for a ciphertext: `H₀` and `H₁` are the hashes of the operand's labels, and `d` tells whether the share
bit `l` of the other operand changes. -/
theorem cipher_sum (H₀ H₁ R δ : Block) (m d l : Bool) :
    H₀ ^^^ scale (m && d) δ ^^^ (H₁ ^^^ scale (!m && d) δ) ^^^ R ^^^ scale (l ^^ d) δ =
      H₀ ^^^ H₁ ^^^ R ^^^ scale l δ := by
  have hbits : ((m && d) ^^ (!m && d) ^^ (l ^^ d)) = l := by cases m <;> cases d <;> cases l <;> rfl
  calc H₀ ^^^ scale (m && d) δ ^^^ (H₁ ^^^ scale (!m && d) δ) ^^^ R ^^^ scale (l ^^ d) δ
      = H₀ ^^^ H₁ ^^^ R ^^^ (scale (m && d) δ ^^^ scale (!m && d) δ ^^^ scale (l ^^ d) δ) := by ac_rfl
    _ = H₀ ^^^ H₁ ^^^ R ^^^ scale l δ := by rw [← scale_xor, ← scale_xor, hbits]

/-- The sums for the zero label: `Ha` and `Hb` are the hashes of the operands' zero labels, and `ds` and `dg` tell
whether the share bits of the product and of the output change. -/
theorem garble_sum (Ha Hb Ks Kg δ : Block) {p q ds dg : Bool} (ls lg : Bool) (h : (ds ^^ dg) = (p ^^ q)) :
    Ha ^^^ scale p δ ^^^ (Hb ^^^ scale q δ) ^^^ Ks ^^^ scale (ls ^^ ds) δ ^^^ Kg ^^^ scale (lg ^^ dg) δ =
      Ha ^^^ Hb ^^^ Ks ^^^ scale ls δ ^^^ Kg ^^^ scale lg δ := by
  have hbits : (p ^^ q ^^ (ls ^^ ds) ^^ (lg ^^ dg)) = (ls ^^ lg) := by
    rw [← h]
    cases ds <;> cases dg <;> cases ls <;> cases lg <;> rfl
  calc Ha ^^^ scale p δ ^^^ (Hb ^^^ scale q δ) ^^^ Ks ^^^ scale (ls ^^ ds) δ ^^^ Kg ^^^ scale (lg ^^ dg) δ
      = Ha ^^^ Hb ^^^ Ks ^^^ Kg ^^^ (scale p δ ^^^ scale q δ ^^^ scale (ls ^^ ds) δ ^^^ scale (lg ^^ dg) δ) := by
        ac_rfl
    _ = Ha ^^^ Hb ^^^ Ks ^^^ Kg ^^^ (scale ls δ ^^^ scale lg δ) := by
      rw [← scale_xor, ← scale_xor, ← scale_xor, hbits, scale_xor]
    _ = Ha ^^^ Hb ^^^ Ks ^^^ scale ls δ ^^^ Kg ^^^ scale lg δ := by ac_rfl

section

variable {D : Type} {E E' : EmpTool D} {Δ : Deltas} {sa sb sg ss sa' sb' sg' ss' : AShareBundle} {da db dg ds : Bool}
  (ha : BitMoved Δ sa sa' da) (hb : BitMoved Δ sb sb' db) (hg : BitMoved Δ sg sg' dg) (hs : BitMoved Δ ss ss' ds)

include ha hb hg hs

/-- **An AND in two worlds**: its hash function moves as the values of its operands do, and the garbler's share bits
change as the values do. Then it has the same entry and the same zero label, unless the labels of its operands meet. -/
theorem garbleAnd_alike (m : MITCCRH) (hσ : Function.Injective E.sigma) (la lb : Block) {ma mb : Bool}
    (hmeet : ¬ LabelsMeet Δ.d1 la lb) (hsigma : E'.sigma = E.sigma)
    (hhash : ∀ x, m.hashAt E' 0 x = m.hashAt E 0 x ^^^ hashShift E Δ.d1 la lb ma mb da db x)
    (hmask : (ds ^^ dg) = ((ma && db) ^^ (mb && da))) :
    garbleAnd E' Δ.d1 m ⟨sa', la⟩ ⟨sb', lb⟩ sg' ss' = garbleAnd E Δ.d1 m ⟨sa, la⟩ ⟨sb, lb⟩ sg ss := by
  have hδ : Δ.d1 ≠ 0#128 := Δ.of_ne_zero .alice
  -- the hashes of the two labels of an operand
  have hleft : ∀ c, m.hashCir E' (la ^^^ scale c Δ.d1) =
      m.hashCir E (la ^^^ scale c Δ.d1) ^^^ scale ((c ^^ ma) && db) Δ.d1 := by
    intro c
    rw [MITCCRH.hashCir, hsigma, hhash, hashShift_left hσ hδ hmeet]
    rfl
  have hright : ∀ c, m.hashCir E' (lb ^^^ scale c Δ.d1) =
      m.hashCir E (lb ^^^ scale c Δ.d1) ^^^ scale ((c ^^ mb) && da) Δ.d1 := by
    intro c
    rw [MITCCRH.hashCir, hsigma, hhash, hashShift_right hσ hδ hmeet]
    rfl
  have ha₀ := hleft false
  have ha₁ := hleft true
  have hb₀ := hright false
  have hb₁ := hright true
  rw [scale_false, BitVec.xor_zero, Bool.false_xor] at ha₀ hb₀
  rw [scale_true, Bool.true_xor] at ha₁ hb₁
  have hG0 := cipher_sum (m.hashCir E la) (m.hashCir E (la ^^^ Δ.d1)) sb.key Δ.d1 ma db (LSB sb.mac)
  have hG1 := cipher_sum (m.hashCir E lb) (m.hashCir E (lb ^^^ Δ.d1)) (la ^^^ sa.key) Δ.d1 mb da (LSB sa.mac)
  rw [← BitVec.xor_assoc _ la, ← BitVec.xor_assoc _ la] at hG1
  have hlabel := garble_sum (m.hashCir E la) (m.hashCir E lb) ss.key sg.key Δ.d1 (LSB ss.mac) (LSB sg.mac) hmask
  simp only [garbleAnd, selectMask_and, ha.key, ha.bit, hb.key, hb.bit, hg.key, hg.bit, hs.key, hs.bit, ha₀, ha₁, hb₀,
    hb₁]
  rw [hG0, hG1, hlabel]

/-- **The witness of an AND in two worlds**, with the same masks of its operands. -/
theorem gammaAnd_alike (ma mb : UInt8) : gammaAnd ⟨sa', ma⟩ ⟨sb', mb⟩ sg' ss' =
    gammaAnd ⟨sa, ma⟩ ⟨sb, mb⟩ sg ss ^^^ scale (ds ^^ dg ^^ ((truthy ma && db) ^^ (truthy mb && da))) Δ.d2 := by
  simp only [gammaAnd, selectMask_and, ha.mac, hb.mac, hg.mac, hs.mac, scale_xor, scale_word_xor, scale_scale]
  ac_rfl

end

/-! ### A run in two worlds -/

/-- The garble pass of an honest garbler in one world: `v` are the values that the labels `lb` of the wires encode. -/
structure GarbledRun {D : Type} (E : EmpTool D) (Δ : Deltas) (σ₁ σ₂ : ℕ → AShareBundle) (start : MITCCRH) (n : ℕ)
    (gs : List Gate) (sh₁ sh₂ : ℕ → AShareBundle) (v : ℕ → Bool) (ent : ℕ → StreamEntry) (lb : ℕ → Block) : Prop where
  rel : ∀ i < n + gs.length, MacRel Δ (sh₁ i) (sh₂ i)
  prod : ForGates (ProductEqs Δ σ₁ σ₂ sh₁ sh₂) 0 gs
  lam : ForGates (LambdaEqs (fun i => shareBit (sh₁ i) (sh₂ i)) fun k => shareBit (σ₁ k) (σ₂ k)) 0 gs
  value : ForGates (fun _ g => v g.out = g.value v) 0 gs
  garble : ForGates (GarbleEqs E Δ.d1 σ₁ sh₁ start ent lb) 0 gs

/-- The mask with which a label encodes the value of a wire. -/
def trueMask (sh₁ sh₂ : ℕ → AShareBundle) (v : ℕ → Bool) (i : ℕ) : Bool := v i ^^ shareBit (sh₁ i) (sh₂ i)

section

variable {D : Type} {E E' : EmpTool D} {Δ : Deltas} {σ₁ σ₁' σ₂ sh₁ sh₁' sh₂ : ℕ → AShareBundle} {start : MITCCRH}
  {n : ℕ} {gs : List Gate} {v v' : ℕ → Bool} {ent ent' : ℕ → StreamEntry} {lb lb' : ℕ → Block}

/-- One gate: from the same labels of its operands comes the same label, at an AND when it garbles the same. -/
theorem garbleEqs_alike {k : ℕ} {g : Gate} (he : GarbleEqs E Δ.d1 σ₁ sh₁ start ent lb k g)
    (he' : GarbleEqs E' Δ.d1 σ₁' sh₁' start ent' lb' k g) (hread : ∀ i ∈ g.srcs, lb i = lb' i)
    (hand : g.isAnd = true →
      garbleAnd E' Δ.d1 (start.advance k) ⟨sh₁' g.in0, lb g.in0⟩ ⟨sh₁' g.in1, lb g.in1⟩ (sh₁' g.out) (σ₁' k) =
        garbleAnd E Δ.d1 (start.advance k) ⟨sh₁ g.in0, lb g.in0⟩ ⟨sh₁ g.in1, lb g.in1⟩ (sh₁ g.out) (σ₁ k)) :
    lb g.out = lb' g.out ∧ (g.isAnd = true → ent k = ent' k) := by
  cases hop : g.op with
  | And =>
    have hsame := hand (by simp [Gate.isAnd, hop])
    simp only [GarbleEqs, hop] at he he'
    rw [hread g.in0 (by simp [Gate.srcs, hop]), hread g.in1 (by simp [Gate.srcs, hop])] at he hsame
    rw [he, he'] at hsame
    obtain ⟨hent, hlabel⟩ := Prod.mk.inj hsame
    exact ⟨hlabel.symm, fun _ => hent.symm⟩
  | Xor =>
    simp only [GarbleEqs, hop] at he he'
    rw [he, he', hread g.in0 (by simp [Gate.srcs, hop]), hread g.in1 (by simp [Gate.srcs, hop])]
    exact ⟨rfl, fun h => by simp [Gate.isAnd, hop] at h⟩
  | Not =>
    simp only [GarbleEqs, hop] at he he'
    rw [he, he', hread g.in0 (by simp [Gate.srcs, hop])]
    exact ⟨rfl, fun h => by simp [Gate.isAnd, hop] at h⟩
  | Const0 =>
    simp only [GarbleEqs, hop] at he he'
    rw [he, he']
    exact ⟨rfl, fun h => by simp [Gate.isAnd, hop] at h⟩
  | Const1 =>
    simp only [GarbleEqs, hop] at he he'
    rw [he, he']
    exact ⟨rfl, fun h => by simp [Gate.isAnd, hop] at h⟩

/-- The zero label of wire `i` as the garble pass writes it. -/
def writtenLabel {D : Type} (E : EmpTool D) (Δ : Block) (sigma : ℕ → AShareBundle) (seed : Block) (P : Prepared)
    (w : SecureWires) (source : Body (List ℕ)) (i : ℕ) : Block :=
  ((garbleMachine E Δ sigma).written P.phys w.size (source.stream w.size)
    ({ mitc := .setS seed }, fun a => ⟨(P.mem a).share, w.label0At a⟩) i).label

/-- The garble pass, by the shares and labels of the wires of a stream. -/
theorem garbleEqs_congr {E : EmpTool D} {Δ : Block} {sigma sh sh' : ℕ → AShareBundle} {start : MITCCRH}
    {ent : ℕ → StreamEntry} {lb lb' : ℕ → Block} {gs : List Gate} {n : ℕ} (hcan : CanonicalStream n gs)
    (hsh : ∀ i < n + gs.length, sh i = sh' i) (hlb : ∀ i < n + gs.length, lb i = lb' i)
    (h : ForGates (GarbleEqs E Δ sigma sh start ent lb) 0 gs) :
    ForGates (GarbleEqs E Δ sigma sh' start ent lb') 0 gs := by
  refine h.congr_wires hcan fun k g hout hlt he => ?_
  have hread : ∀ i ∈ g.srcs, sh i = sh' i ∧ lb i = lb' i := fun i hi => ⟨hsh i (hlt i hi), hlb i (hlt i hi)⟩
  have hwrite := hsh _ hout
  have hlabel := hlb _ hout
  cases hop : g.op <;> simp_all [GarbleEqs, Gate.srcs]

/-- The gamma check pass, by the shares of the wires of a stream. -/
theorem gammaEqs_congr {sigma sh sh' : ℕ → AShareBundle} {Lam mk : ℕ → UInt8} {M : ℕ → Block} {gs : List Gate} {n : ℕ}
    (hcan : CanonicalStream n gs) (hsh : ∀ i < n + gs.length, sh i = sh' i)
    (h : ForGates (GammaEqs sigma sh Lam mk M) 0 gs) : ForGates (GammaEqs sigma sh' Lam mk M) 0 gs := by
  refine h.congr_wires hcan fun k g hout hlt he => ?_
  have hread : ∀ i ∈ g.srcs, sh i = sh' i := fun i hi => hsh i (hlt i hi)
  have hwrite := hsh _ hout
  cases hop : g.op <;> simp_all [GammaEqs, Gate.srcs]

/-- **The garble pass by the labels it writes.** -/
theorem garblerSend_written (E : EmpTool D) (Δ : Block) (sigma : ℕ → AShareBundle) (seed : Block)
    {cot : ℕ → AShareBundle} {w : SecureWires} {u : ℕ} {source : Body (List ℕ)} {P : Prepared} {sh : ℕ → AShareBundle}
    (h : CanonicalStream w.size (source.stream w.size))
    (hP : PreparedSpec cot w u (source.stream w.size) (source.outs w.size) P sh) :
    let lb := writtenLabel E Δ sigma seed P w source
    (∀ o ∈ source.outs w.size, o < w.size + (source.stream w.size).length →
      (garblerSend E Δ seed sigma P w source).2 (P.phys o) = ⟨sh o, lb o⟩) ∧
      (∀ i < w.size, lb i = w.label0At i) ∧
      ForGates (GarbleEqs E Δ sigma sh (.setS seed) (fun k =>
        (garblerSend E Δ seed sigma P w source).1.finish.flatten.getD k default) lb) 0 (source.stream w.size) := by
  intro lb
  set s₀ : GarbleGlobals × (ℕ → GarbleSlot) := ({ mitc := .setS seed }, fun a => ⟨(P.mem a).share, w.label0At a⟩)
    with hs₀
  obtain ⟨f, hsolves, hglobals, hmem, hlt, hwritten⟩ := machine_spec (garbleMachine E Δ sigma) (source.outs w.size) h s₀
  rw [← hP.phys] at hsolves hglobals hmem hwritten
  have hinput : ∀ i < w.size, f i = ⟨sh i, w.label0At i⟩ := by
    intro i hi
    rw [hlt i hi, hs₀]
    simp only
    rw [← hP.shares i (persistent_input h hi), hP.physInput i hi]
  have hshares : ∀ i < w.size + (source.stream w.size).length, (f i).share = sh i := by
    refine solves_shares GarbleSlot.share (fun g s r v => ?_) h hsolves hP.eqs
      (fun i hi => by rw [hinput i hi]) fun g hg hand => hP.shares g.out (persistent_and h hg hand)
    change (garbleGate E Δ sigma g s r v).2.share = _
    cases hop : g.op <;> simp [garbleGate, shareRule, hop]
  have hlabel : ∀ i < w.size + (source.stream w.size).length, (f i).label = lb i := fun i hi =>
    congrArg GarbleSlot.label (hwritten i hi).symm
  have hsend : garblerSend E Δ seed sigma P w source = (garbleMachine E Δ sigma).run P.phys (source.stream w.size) s₀ :=
    machinePass_runSource _ _ _ _ _
  rw [hsend, GarbleGlobals.finish_flatten, hglobals]
  refine ⟨fun o ho hlt => ?_, fun i hi => ?_, ?_⟩
  · rw [hmem o (persistent_output ho hlt), ← hshares o hlt, ← hlabel o hlt]
  · rw [← hlabel i (Nat.lt_of_lt_of_le hi (Nat.le_add_right _ _)), hinput i hi]
  · have heqs : ForGates (GarbleEqs E Δ sigma sh (.setS seed) _ fun w => (f w).label) 0 (source.stream w.size) :=
      garble_eqs hshares (fun _ hg => canonicalStream_lt h hg) rfl rfl hsolves
    exact garbleEqs_congr h (fun _ _ => rfl) hlabel heqs

namespace GarbledRun

variable (h : GarbledRun E Δ σ₁ σ₂ start n gs sh₁ sh₂ v ent lb)
  (h' : GarbledRun E' Δ σ₁' σ₂ start n gs sh₁' sh₂ v' ent' lb') (hcan : CanonicalStream n gs)

include h h' hcan

/-- Two runs with the same masks at the inputs and at the ANDs have the same masks. -/
theorem masks_alike (hin : ∀ i < n, trueMask sh₁ sh₂ v i = trueMask sh₁' sh₂ v' i)
    (hands : ForGates (fun _ g => g.isAnd = true → trueMask sh₁ sh₂ v g.out = trueMask sh₁' sh₂ v' g.out) 0 gs) :
    ∀ i < n + gs.length, trueMask sh₁ sh₂ v i = trueMask sh₁' sh₂ v' i := by
  refine ForGates.run (fun k g hR hread => ?_) hcan (((h.lam.and h'.lam).and (h.value.and h'.value)).and hands) hin
  obtain ⟨⟨⟨hl, hl'⟩, hv, hv'⟩, hand⟩ := hR
  simp only [trueMask] at hread hand ⊢
  cases hop : g.op with
  | And => exact hand (by simp [Gate.isAnd, hop])
  | Xor =>
    have h0 := hread g.in0 (by simp [Gate.srcs, hop])
    have h1 := hread g.in1 (by simp [Gate.srcs, hop])
    simp only [LambdaEqs, Gate.value, hop] at hl hl' hv hv'
    rw [hl, hl', hv, hv', Bool.xor_assoc, Bool.xor_left_comm (v g.in1), ← Bool.xor_assoc, h0, h1]
    simp [Bool.xor_left_comm]
  | Not =>
    have h0 := hread g.in0 (by simp [Gate.srcs, hop])
    simp only [LambdaEqs, Gate.value, hop] at hl hl' hv hv'
    rw [hl, hl', hv, hv', Bool.not_xor, Bool.not_xor, h0]
  | Const0 =>
    simp only [LambdaEqs, Gate.value, hop] at hl hl' hv hv'
    rw [hl, hl', hv, hv']
  | Const1 =>
    simp only [LambdaEqs, Gate.value, hop] at hl hl' hv hv'
    rw [hl, hl', hv, hv']

omit hcan in
/-- The garbler's bit of a wire changes as its value does. -/
theorem bitMoved (hmask : ∀ i < n + gs.length, trueMask sh₁ sh₂ v i = trueMask sh₁' sh₂ v' i) :
    ∀ i < n + gs.length, BitMoved Δ (sh₁ i) (sh₁' i) (v i ^^ v' i) := by
  intro i hi
  refine (h.rel i hi).bitMoved (h'.rel i hi) ?_
  have hm := hmask i hi
  simp only [trueMask, shareBit] at hm
  revert hm
  cases v i <;> cases v' i <;> cases LSB (sh₁ i).mac <;> cases LSB (sh₁' i).mac <;> cases LSB (sh₂ i).mac <;> decide

/-- The bit of the product changes so that the AND still opens its mask. -/
theorem product_alike (hmask : ∀ i < n + gs.length, trueMask sh₁ sh₂ v i = trueMask sh₁' sh₂ v' i) :
    ForGates (fun k g => g.isAnd = true → ∃ ds, BitMoved Δ (σ₁ k) (σ₁' k) ds ∧
      (ds ^^ (v g.out ^^ v' g.out)) = ((trueMask sh₁ sh₂ v g.in0 && (v g.in1 ^^ v' g.in1)) ^^
        (trueMask sh₁ sh₂ v g.in1 && (v g.in0 ^^ v' g.in0)))) 0 gs := by
  refine ForGates.imp (fun k g hR hand => ?_) (((h.prod.and h'.prod).and (h.value.and h'.value)).and
    (forGates_of_mem fun _ g hg => canonicalStream_lt hcan hg))
  obtain ⟨⟨⟨hp, hp'⟩, hv, hv'⟩, -, hsrcs⟩ := hR
  have hop : g.op = .And := Gate.op_of_isAnd hand
  obtain ⟨hrel, hprod⟩ := hp hand
  obtain ⟨hrel', hprod'⟩ := hp' hand
  refine ⟨_, hrel.bitMoved hrel' rfl, ?_⟩
  have h0 := hmask g.in0 (hsrcs _ (by simp [Gate.srcs, hop]))
  have h1 := hmask g.in1 (hsrcs _ (by simp [Gate.srcs, hop]))
  simp only [Gate.value, hop] at hv hv'
  -- the masks of the operands in terms of their values and masks of the shares
  have hbit : (LSB (σ₁ k).mac ^^ LSB (σ₁' k).mac) = (shareBit (σ₁ k) (σ₂ k) ^^ shareBit (σ₁' k) (σ₂ k)) := by
    simp only [shareBit]
    cases LSB (σ₁ k).mac <;> cases LSB (σ₁' k).mac <;> cases LSB (σ₂ k).mac <;> rfl
  rw [hbit, hprod, hprod', hv, hv']
  simp only [trueMask] at h0 h1 ⊢
  generalize shareBit (sh₁ g.in0) (sh₂ g.in0) = a at h0 ⊢
  generalize shareBit (sh₁ g.in1) (sh₂ g.in1) = b at h1 ⊢
  generalize shareBit (sh₁' g.in0) (sh₂ g.in0) = a' at h0 ⊢
  generalize shareBit (sh₁' g.in1) (sh₂ g.in1) = b' at h1 ⊢
  generalize v g.in0 = va at h0 ⊢
  generalize v g.in1 = vb at h1 ⊢
  generalize v' g.in0 = va' at h0 ⊢
  generalize v' g.in1 = vb' at h1 ⊢
  revert h0 h1
  cases a <;> cases a' <;> cases va <;> cases va' <;> cases b <;> cases b' <;> cases vb <;> cases vb' <;> decide

/-- **Two runs with the same masks**, from the same labels: when at each AND the hash function moves as the values do
and the labels of the operands do not meet, all labels and all entries are the same. -/
theorem labels_alike (hσ : Function.Injective E.sigma) (hsigma : E'.sigma = E.sigma)
    (hmask : ∀ i < n + gs.length, trueMask sh₁ sh₂ v i = trueMask sh₁' sh₂ v' i) (hin : ∀ i < n, lb i = lb' i)
    (hhash : ForGates (fun k g => g.isAnd = true → ∀ x, (start.advance k).hashAt E' 0 x =
      (start.advance k).hashAt E 0 x ^^^ hashShift E Δ.d1 (lb g.in0) (lb g.in1) (trueMask sh₁ sh₂ v g.in0)
        (trueMask sh₁ sh₂ v g.in1) (v g.in0 ^^ v' g.in0) (v g.in1 ^^ v' g.in1) x) 0 gs)
    (hmeet : ForGates (fun _ g => g.isAnd = true → ¬ LabelsMeet Δ.d1 (lb g.in0) (lb g.in1)) 0 gs) :
    (∀ i < n + gs.length, lb i = lb' i) ∧ ForGates (fun k g => g.isAnd = true → ent k = ent' k) 0 gs := by
  have hmoved := h.bitMoved h' hmask
  have hstep : ForGates (fun k g => (∀ i ∈ g.srcs, lb i = lb' i) →
      lb g.out = lb' g.out ∧ (g.isAnd = true → ent k = ent' k)) 0 gs := by
    refine ForGates.imp (fun k g hR hread => ?_) (((h.garble.and h'.garble).and (hhash.and hmeet)).and
      ((h.product_alike h' hcan hmask).and (forGates_of_mem fun _ g hg => canonicalStream_lt hcan hg)))
    obtain ⟨⟨⟨he, he'⟩, hx, hm⟩, hprod, hout, hsrcs⟩ := hR
    refine garbleEqs_alike he he' hread fun hand => ?_
    have hop : g.op = .And := Gate.op_of_isAnd hand
    obtain ⟨ds, hs, hbits⟩ := hprod hand
    have h0 := hmoved _ (hsrcs g.in0 (by simp [Gate.srcs, hop]))
    have h1 := hmoved _ (hsrcs g.in1 (by simp [Gate.srcs, hop]))
    exact garbleAnd_alike h0 h1 (hmoved _ hout) hs _ hσ _ _ (hm hand) hsigma (hx hand) hbits
  have hall : ∀ i < n + gs.length, lb i = lb' i := ForGates.run (fun _ _ hR hread => (hR hread).1) hcan hstep hin
  refine ⟨hall, ForGates.imp (fun k g hR hand => ?_)
    (hstep.and (forGates_of_mem fun _ g hg => canonicalStream_lt hcan hg))⟩
  obtain ⟨hR, -, hsrcs⟩ := hR
  exact (hR fun i hi => hall i (hsrcs i hi)).2 hand

/-- **The witnesses of two such runs**, with the same masks `mk` at the garbler: they are the same where the cross terms
of the values are. -/
theorem witness_alike (hmask : ∀ i < n + gs.length, trueMask sh₁ sh₂ v i = trueMask sh₁' sh₂ v' i) (mk : ℕ → UInt8)
    (hcross : ForGates (fun _ g => g.isAnd = true →
      crossTerm (fun i => truthy (mk i) ^^ trueMask sh₁ sh₂ v i) v g =
        crossTerm (fun i => truthy (mk i) ^^ trueMask sh₁ sh₂ v i) v' g) 0 gs) :
    ForGates (fun k g => g.isAnd = true →
      gammaAnd ⟨sh₁' g.in0, mk g.in0⟩ ⟨sh₁' g.in1, mk g.in1⟩ (sh₁' g.out) (σ₁' k) =
        gammaAnd ⟨sh₁ g.in0, mk g.in0⟩ ⟨sh₁ g.in1, mk g.in1⟩ (sh₁ g.out) (σ₁ k)) 0 gs := by
  have hmoved := h.bitMoved h' hmask
  refine ForGates.imp (fun k g hR hand => ?_) (hcross.and
    ((h.product_alike h' hcan hmask).and (forGates_of_mem fun _ g hg => canonicalStream_lt hcan hg)))
  obtain ⟨hsame, hprod, hout, hsrcs⟩ := hR
  have hop : g.op = .And := Gate.op_of_isAnd hand
  obtain ⟨ds, hs, hbits⟩ := hprod hand
  have hcross := hsame hand
  rw [gammaAnd_alike (hmoved _ (hsrcs _ (by simp [Gate.srcs, hop]))) (hmoved _ (hsrcs _ (by simp [Gate.srcs, hop])))
    (hmoved _ hout) hs, hbits]
  have hzero : ((trueMask sh₁ sh₂ v g.in0 && (v g.in1 ^^ v' g.in1)) ^^
      (trueMask sh₁ sh₂ v g.in1 && (v g.in0 ^^ v' g.in0)) ^^
      ((truthy (mk g.in0) && (v g.in1 ^^ v' g.in1)) ^^ (truthy (mk g.in1) && (v g.in0 ^^ v' g.in0)))) = false := by
    simp only [crossTerm] at hcross
    revert hcross
    generalize trueMask sh₁ sh₂ v g.in0 = a
    generalize trueMask sh₁ sh₂ v g.in1 = b
    cases a <;> cases b <;> cases truthy (mk g.in0) <;> cases truthy (mk g.in1) <;> cases v g.in0 <;>
      cases v g.in1 <;> cases v' g.in0 <;> cases v' g.in1 <;> decide
  rw [hzero, scale_false]
  exact BitVec.xor_zero

end GarbledRun

end

end AG2PC
