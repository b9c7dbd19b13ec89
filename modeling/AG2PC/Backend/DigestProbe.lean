import AG2PC.Backend.GarblePads
import AG2PC.Backend.GarblerRuns

/-!
# What the `c_γ` digest tells an evaluator

The garbler takes `Λ_AND` from the evaluator, forms its witnesses with these masks and sends their digest. With the
true masks the digest is one the evaluator knows. A mask the evaluator has changed enters the witness of every AND that
reads the wire, times the garbler's share of the other operand, and the garbler sends the digest all the same. So the
evaluator learns whether a guess of that share, and with it of the value on the wire, is right.

* `andMask_flipped` — the mask an AND calls for when the masks of its operands have been changed.
* `gammaAnd_probed` — one AND: the garbler's witness is the expected one exactly when the guesses give the cross term.
* `gammaEqs_said` — the masks the garbler works with are those the vector says.
* `gammaDigest_probed` — in an honest run up to `Λ_AND`, the digest is the one the evaluator forms from a guess of the
  wires' values exactly when the guess is right where it was tested.
-/

namespace AG2PC

open Library.XorAlgebra Library.SlotReuse Library.ByIndex

/-! ### One AND -/

/-- What a change of the operands' masks picks of the operands' values. -/
def crossTerm (flip v : ℕ → Bool) (g : Gate) : Bool := (flip g.in0 && v g.in1) ^^ (flip g.in1 && v g.in0)

/-- The mask an evaluator expects of an AND whose operands' masks are changed, when the values are `guess`. -/
def expectedMask (mask flip guess : ℕ → Bool) (g : Gate) : Bool :=
  mask g.out ^^ crossTerm flip guess g ^^ (flip g.in0 && flip g.in1)

/-- **The mask an AND calls for**, the masks of its operands being changed by `fa` and `fb`. -/
theorem andMask_flipped (va vb fa fb lambdaA lambdaB lambdaGamma : Bool) :
    andMask (va ^^ lambdaA ^^ fa) (vb ^^ lambdaB ^^ fb) lambdaA lambdaB (lambdaA && lambdaB) lambdaGamma =
      ((va && vb) ^^ lambdaGamma ^^ ((fa && vb) ^^ (fb && va)) ^^ (fa && fb)) := by
  have h := andMask_product (va ^^ fa) (vb ^^ fb) lambdaA lambdaB lambdaGamma
  rw [show (va ^^ lambdaA ^^ fa) = (va ^^ fa ^^ lambdaA) by cases va <;> cases lambdaA <;> cases fa <;> rfl,
    show (vb ^^ lambdaB ^^ fb) = (vb ^^ fb ^^ lambdaB) by cases vb <;> cases lambdaB <;> cases fb <;> rfl, h]
  cases va <;> cases vb <;> cases fa <;> cases fb <;> simp

/-- A block moved by a bit times `Δ₂` stays where it is only for the bit zero. -/
theorem eq_xor_scale_d2_iff {Δ : Deltas} {a : Block} {b : Bool} : a = a ^^^ scale b Δ.d2 ↔ b = false := by
  constructor
  · intro h
    have hbit := congrArg LSB h
    rw [LSB_xor, LSB_scale, Δ.lsb_d2, Bool.and_true] at hbit
    cases b with
    | false => rfl
    | true => cases hlsb : LSB a <;> simp [hlsb] at hbit
  · rintro rfl
    rw [scale_false, BitVec.xor_zero]

/-- **One AND**: the garbler's witness with the masks `saidA` and `saidB` is the one the evaluator expects from the
guesses `ga` and `gb` exactly when these give the cross term of the values. -/
theorem gammaAnd_probed {Δ : Deltas} {sa₁ sa₂ sb₁ sb₂ so₁ so₂ ss₁ ss₂ : AShareBundle} {ma mb mo : UInt8}
    {la lb lo ea eb eo : Block} {va vb : Bool} (ha : WireEncodes Δ sa₁ sa₂ ma la ea va)
    (hb : WireEncodes Δ sb₁ sb₂ mb lb eb vb) (ho : WireEncodes Δ so₁ so₂ mo lo eo (va && vb)) (hs : MacRel Δ ss₁ ss₂)
    (hσ : shareBit ss₁ ss₂ = (shareBit sa₁ sa₂ && shareBit sb₁ sb₂)) (saidA saidB ga gb : Bool) :
    let fa := truthy ma ^^ saidA
    let fb := truthy mb ^^ saidB
    gammaAnd ⟨sa₁, byteOf saidA⟩ ⟨sb₁, byteOf saidB⟩ so₁ ss₁ =
        evalAndWitness Δ.d2 (truthy mo ^^ ((fa && gb) ^^ (fb && ga)) ^^ (fa && fb)) ⟨sa₂, ea, byteOf saidA⟩
          ⟨sb₂, eb, byteOf saidB⟩ so₂ ss₂ ↔
      ((fa && gb) ^^ (fb && ga)) = ((fa && vb) ^^ (fb && va)) := by
  intro fa fb
  have hA : saidA = (va ^^ shareBit sa₁ sa₂ ^^ fa) := by
    rw [← ha.truthy_mask, ← Bool.xor_assoc, Bool.xor_self, Bool.false_xor]
  have hB : saidB = (vb ^^ shareBit sb₁ sb₂ ^^ fb) := by
    rw [← hb.truthy_mask, ← Bool.xor_assoc, Bool.xor_self, Bool.false_xor]
  rw [evalAndWitness_eq ea eb (byteOf saidA) (byteOf saidB) _ ha.rel hb.rel ho.rel hs, eq_xor_scale_d2_iff,
    truthy_byteOf, truthy_byteOf, hσ]
  generalize fa = f₀ at hA ⊢
  generalize fb = f₁ at hB ⊢
  rw [hA, hB, andMask_flipped, ho.truthy_mask]
  generalize ((f₀ && gb) ^^ (f₁ && ga)) = expected
  generalize ((f₀ && vb) ^^ (f₁ && va)) = true'
  generalize ((va && vb) ^^ shareBit so₁ so₂) = opened
  cases expected <;> cases true' <;> cases opened <;> cases (f₀ && f₁) <;> decide

/-! ### The masks the garbler works with -/

section

variable {σ₁ sh₁ : ℕ → AShareBundle} {LambdaAND : List Bool} {mk : ℕ → UInt8} {M : ℕ → Block} {gs : List Gate} {n : ℕ}
  {m : ℕ → Bool}

/-- **The masks of the gamma check pass are those the vector says**: an AND has its entry, the other gates compute
theirs, as they do with values. -/
theorem gammaEqs_said (hcan : CanonicalStream n gs)
    (h : ForGates (GammaEqs σ₁ sh₁ (fun k => byteOf (LambdaAND.getD k false)) mk M) 0 gs)
    (hin : ∀ w < n, mk w = byteOf (m w)) :
    ∀ w < n + gs.length, mk w = byteOf (forceAnds (LambdaAND.getD · false) 0 gs m w) := by
  -- masks and values are the same where no share has a mask
  have hlam : ForGates (fun k g => g.isAnd = false → LambdaEqs (fun _ => false) (fun _ => false) k g) 0 gs :=
    forGates_of_mem fun k g _ hand => by cases hop : g.op <;> simp_all [LambdaEqs, Gate.isAnd]
  have hvec : ForGates (VectorSays LambdaAND (fun _ => false) (LambdaAND.getD · false)) 0 gs :=
    forGates_of_mem fun _ _ _ _ => (Bool.xor_false _).symm
  intro w hw
  rw [gammaEqs_forced hcan h hlam hvec (fun i hi => by rw [hin i hi, Bool.xor_false]) w hw, Bool.xor_false]

end

/-! ### The digest -/

/-- A list over the ANDs, entry by entry. -/
theorem map_eq_atAnds {α : Type} {M : ℕ → α} {f : ℕ → Gate → α} {gs : List Gate} : ∀ {k : ℕ},
    (List.range' k (countAnds gs)).map M = atAnds f k gs ↔
      ForGates (fun k g => g.isAnd = true → M k = f k g) k gs := by
  induction gs with
  | nil => simp [countAnds, atAnds, ForGates]
  | cons g gs ih =>
    intro k
    by_cases hand : g.isAnd = true
    · have hcount : countAnds (g :: gs) = countAnds gs + 1 := by simp [countAnds, hand]
      rw [hcount, List.range'_succ, List.map_cons, atAnds, if_pos hand, ForGates, nextAnd, if_pos hand, List.cons.injEq,
        ih]
      simp [hand]
    · have hcount : countAnds (g :: gs) = countAnds gs := by simp [countAnds, hand]
      rw [hcount, atAnds, if_neg hand, ForGates, nextAnd, if_neg hand, ih]
      simp [hand]

/-- The masks of the wires when the vector gives those of the ANDs; `mask` are the true ones. -/
def saidMasks (LambdaAND : List Bool) (gs : List Gate) (mask : ℕ → Bool) : ℕ → Bool :=
  forceAnds (LambdaAND.getD · false) 0 gs mask

/-- Where the vector changes the masks. -/
def changedMasks (LambdaAND : List Bool) (gs : List Gate) (mask : ℕ → Bool) (i : ℕ) : Bool :=
  mask i ^^ saidMasks LambdaAND gs mask i

/-- The digest an evaluator forms for the vector from a guess of the wires' values, its wires being in `slot`: its own
witnesses with the masks the vector gives, and the masks it then expects of the ANDs' outputs. -/
def probeDigest {D : Type} (E : EmpTool D) (δ : Block) (σ₂ : ℕ → AShareBundle) (slot : ℕ → EvalSlot) (gs : List Gate)
    (LambdaAND : List Bool) (guess : ℕ → Bool) : D :=
  let mask := fun i => truthy (slot i).mask
  let said := fun i => (⟨(slot i).share, (slot i).label, byteOf (saidMasks LambdaAND gs mask i)⟩ : EvalSlot)
  E.hash (atAnds (fun k g => evalAndWitness δ (expectedMask mask (changedMasks LambdaAND gs mask) guess g)
    (said g.in0) (said g.in1) (slot g.out).share (σ₂ k)) 0 gs)

/-- The digest an honest garbler sends when it receives the vector. -/
def sentDigest {D : Type} (S : Setup D) (st : ProtoState) (σ₁ : ℕ → AShareBundle) (P₁ : Prepared) (w₁ : SecureWires)
    (source : Body (List ℕ)) (LambdaAND : List Bool) : D :=
  gammaDigest S.tool P₁.numAnds (garblerCheck σ₁ P₁ w₁ source
    (garblerSlots P₁ (garblerSend S.tool S.Δ.d1 (S.tape.seed st.runs) σ₁ P₁ w₁ source).2) LambdaAND).1.M1t

section

variable {D : Type} [DecidableEq D] {S : Setup D} {C : CotStream S.Δ} {source : Body (List ℕ)}
  {w₁ w₂ : SecureWires} {x : List Bool} {st : ProtoState} {P₁ P₂ : Prepared}
  {σ : (ℕ → AShareBundle) × (ℕ → AShareBundle)}

/-- **The digest tests guesses.** Take a run that is honest up to `Λ_AND`, on any source, and any vector the evaluator
sends in its place. The garbler's digest is the one the evaluator forms, with its own shares and the masks the vector
says, from a guess of the wires' values, exactly when the guess gives every AND the cross term of its true values. An
AND with one changed operand thus tests the value of the other. -/
theorem gammaDigest_probed (h₁ : S.cot₁ = C.s₁) (h₂ : S.cot₂ = C.s₂) (hE : Function.Injective S.tool.hash)
    (hin : Encodes S.Δ w₁ w₂ x) (hcan : CanonicalStream x.length (source.stream x.length)) (hst : st.pool₁ = st.pool₂)
    (hrun : HonestPrefix S w₁ w₂ st source P₁ P₂ σ) (LambdaAND : List Bool) (guess : ℕ → Bool) :
    let gs := source.stream x.length
    let slot := honestSlot S st σ P₁ P₂ w₁ w₂ source
    let flip := changedMasks LambdaAND gs fun i => truthy (slot i).mask
    sentDigest S st σ.1 P₁ w₁ source LambdaAND = probeDigest S.tool S.Δ.d2 σ.2 slot gs LambdaAND guess ↔
      ForGates (fun _ g => g.isAnd = true →
        crossTerm flip guess g = crossTerm flip (evalGates (inputWires x) gs) g) 0 gs := by
  intro gs slot flip
  obtain ⟨sh₁, sh₂, lb, H, hprod, -, hwire⟩ := hrun.labels h₁ h₂ hin hcan hst
  have hn := hin.wf₁.size
  obtain ⟨_, hlabels, -, -, -⟩ := garblerSend_spec S.tool S.Δ.d1 σ.1 (S.tape.seed st.runs) H.can₁ H.spec₁
  obtain ⟨mk, -, -, hmkin, hgamma⟩ := garblerCheck_spec σ.1 (garblerSlots P₁
    (garblerSend S.tool S.Δ.d1 (S.tape.seed st.runs) σ.1 P₁ w₁ source).2) LambdaAND H.can₁ H.spec₁
    (fun i hi => congrArg GarbleSlot.share (hlabels i hi)) fun i hi => H.spec₁.mask i hi
  rw [hn] at hmkin hgamma
  -- an input has one mask at the two parties
  have hinput : ∀ i < x.length, mk i = byteOf (truthy (slot i).mask) := by
    intro i hi
    have hi' : i < x.length + gs.length := Nat.lt_of_lt_of_le hi (Nat.le_add_right _ _)
    have hw := (hwire i hi').2
    rw [hmkin i hi, hin.lambda i hi, (hin.wire i hi).mask]
    simp only [slot]
    rw [hw.truthy_mask, evalGates_of_lt hcan _ hi, H.spec₁.input i (hn ▸ hi), H.spec₂.input i (hin.wf₂.size ▸ hi)]
    rfl
  have hmk := gammaEqs_said hcan hgamma hinput
  rw [sentDigest, probeDigest, gammaDigest, hE.eq_iff, H.numAnds₁, List.range_eq_range', map_eq_atAnds]
  refine ForGates.congr (ForGates.imp (fun k g hR => ?_)
    ((hgamma.and hprod).and ((forGates_evalGates (inputWires x) hcan).and (forGates_of_mem fun _ g hg => hg))))
  obtain ⟨⟨hgam, hpr⟩, hv, hg⟩ := hR
  refine imp_congr_right fun hand => ?_
  have hop : g.op = .And := Gate.op_of_isAnd hand
  obtain ⟨hout, hsrcs⟩ := canonicalStream_lt hcan hg
  have h0 := hsrcs g.in0 (by simp [Gate.srcs, hop])
  have h1 := hsrcs g.in1 (by simp [Gate.srcs, hop])
  obtain ⟨hs0, henc0⟩ : (slot g.in0).share = sh₂ g.in0 ∧ _ := hwire _ h0
  obtain ⟨hs1, henc1⟩ : (slot g.in1).share = sh₂ g.in1 ∧ _ := hwire _ h1
  obtain ⟨hso, henco⟩ : (slot g.out).share = sh₂ g.out ∧ _ := hwire _ hout
  obtain ⟨hσrel, hσ⟩ := hpr hand
  simp only [GammaEqs, hop] at hgam
  simp only [Gate.value, hop] at hv
  rw [hv] at henco
  dsimp only
  rw [hgam.2, hmk _ h0, hmk _ h1, hs0, hs1, hso]
  exact gammaAnd_probed henc0 henc1 henco hσrel hσ _ _ (guess g.in0) (guess g.in1)

end

/-! ### A chain of two ANDs -/

/-- The conjunction of two inputs, and of it with the second. -/
def chainProgram : BooleanProgram := ⟨2, 4, [⟨0, 1, 2, .And⟩, ⟨2, 1, 3, .And⟩], [3]⟩

theorem canonicalStream_chain : CanonicalStream 2 ((executeProgram chainProgram).stream 2) :=
  (executeProgram_stream (recordCanonical_of_check (p := chainProgram) (by decide)) rfl).2.2.1

/-- The inputs are two public ones. The vector of zeros changes the mask of the first AND, and the digest then tells
whether the second input is one. -/
theorem gammaDigest_probed_chain : ∃ P₁ P₂ σ,
    HonestPrefix .zeros (onesWires .alice) (onesWires .bob) {} (executeProgram chainProgram) P₁ P₂ σ ∧
      ∀ b : Bool, sentDigest .zeros {} σ.1 P₁ (onesWires .alice) (executeProgram chainProgram) [false, false] =
          probeDigest .transparent (initAbit .bob 0) σ.2
            (honestSlot .zeros {} σ P₁ P₂ (onesWires .alice) (onesWires .bob) (executeProgram chainProgram))
            ((executeProgram chainProgram).stream 2) [false, false] (fun _ => b) ↔ b = true := by
  have hin : Encodes (.init 0 0) (onesWires .alice) (onesWires .bob) [true, true] := encodes_publicWires _ [1, 1]
  obtain ⟨P₁, P₂, σ, hrun⟩ := exists_honestPrefix (S := .zeros) (C := .zeros _) rfl rfl hin canonicalStream_chain
    (rfl : ({} : ProtoState).pool₁ = ({} : ProtoState).pool₂)
  refine ⟨P₁, P₂, σ, hrun, fun b => ?_⟩
  obtain ⟨sh₁, sh₂, _, H, -, -, hwire⟩ := hrun.labels (C := .zeros _) rfl rfl hin canonicalStream_chain rfl
  have hmask : truthy (honestSlot .zeros {} σ P₁ P₂ (onesWires .alice) (onesWires .bob) (executeProgram chainProgram)
      2).mask = true := by
    obtain ⟨-, henc⟩ := hwire 2 (by decide)
    refine henc.truthy_mask.trans ?_
    rw [← H.share₁ 2 (by decide), ← H.share₂ 2 (by decide)]
    decide
  have hprobe := gammaDigest_probed (S := .zeros) (C := .zeros _) rfl rfl (fun _ _ h => h) hin canonicalStream_chain rfl
    hrun [false, false] fun _ => b
  refine hprobe.trans ?_
  generalize honestSlot .zeros {} σ P₁ P₂ (onesWires .alice) (onesWires .bob) (executeProgram chainProgram) = slot
    at hmask ⊢
  have hgs : (executeProgram chainProgram).stream [true, true].length = [⟨0, 1, 2, .And⟩, ⟨2, 1, 3, .And⟩] := by decide
  simp only [hgs]
  -- only the mask of wire 2 is changed among those read
  have hone : inputWires [true, true] 1 = true := by decide
  simp [ForGates, Gate.isAnd, crossTerm, changedMasks, saidMasks, forceAnds, Function.update, hmask, evalGates,
    Gate.value, hone]

end AG2PC
