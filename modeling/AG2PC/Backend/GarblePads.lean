import AG2PC.Backend.MaskSoundness
import AG2PC.Backend.ShareOpening
import AG2PC.Library.AffineForm

/-!
# The pads of the garble pass

An AND hashes its four operand labels under one key number, so its two ciphertexts hide under the same pad
when the two operands have the same labels, up to `Δ₁`. Labels, keys and MACs of a XOR or NOT are sums of
those of its operands; so the operands have the same labels whenever they are the same sum of inputs and AND
outputs, up to a negation: a wire and itself, a wire and its negation, two sums of the same wires, two
constants. The sum of the two ciphertexts is then the zero label of the first operand.

* `gives_wireForms` — the affine form of a wire gives its label, its key and its MAC.
* `sameOperands_leak` — at such an AND of an honest run, on any source, the evaluator computes `Δ₁` scaled by
  its own opened mask of the operand.
* `sameOperands_forge` — with it the evaluator opens to the garbler any bits it likes, of any bundle.
-/

namespace AG2PC

open Library Library.XorAlgebra Library.SlotReuse Library.ByIndex

/-! ### What a wire is the sum of -/

/-- The form of what a gate computes, from the forms of its operands; an AND is an atom. -/
def Gate.form (g : Gate) (F : ℕ → AffineForm ℕ) : AffineForm ℕ :=
  match g.op with
  | .And => .atom g.out
  | .Xor => (F g.in0).xor (F g.in1)
  | .Not => (F g.in0).not
  | .Const0 => .const false
  | .Const1 => .const true

/-- The forms of the wires after the gates `gs`; the inputs are atoms. -/
def wireForms (gs : List Gate) (F : ℕ → AffineForm ℕ) : ℕ → AffineForm ℕ :=
  gs.foldl (fun F g => Function.update F g.out (g.form F)) F

theorem wireForms_cons (g : Gate) (gs : List Gate) (F : ℕ → AffineForm ℕ) :
    wireForms (g :: gs) F = wireForms gs (Function.update F g.out (g.form F)) := rfl

/-- Words of wires, each XOR and NOT the sum of its operands' words, with the word `one` for the constant 1. -/
def LinearEqs (one : Block) (x : ℕ → Block) (_ : ℕ) (g : Gate) : Prop :=
  match g.op with
  | .Const0 => x g.out = zeroBlock
  | .Const1 => x g.out = one
  | .Xor => x g.out = x g.in0 ^^^ x g.in1
  | .Not => x g.out = x g.in0 ^^^ one
  | .And => True

/-- The operands of an AND that are the same sum of inputs and AND outputs, up to a negation. -/
def SameOperands (gs : List Gate) (g : Gate) : Prop :=
  g.isAnd = true ∧ (wireForms gs .atom g.in0).atoms = (wireForms gs .atom g.in1).atoms

section

variable {one : Block} {x : ℕ → Block} {gs : List Gate} {n : ℕ}

/-- One gate: forms that give the operands' words give the output's. -/
theorem Gate.form_gives {k : ℕ} {g : Gate} {F : ℕ → AffineForm ℕ} (h : LinearEqs one x k g)
    (hread : ∀ w ∈ g.srcs, (F w).Gives one x (x w)) : (g.form F).Gives one x (x g.out) := by
  cases hop : g.op with
  | And =>
    simp only [Gate.form, hop]
    exact .atom _
  | Xor =>
    simp only [Gate.form, LinearEqs, hop] at h ⊢
    rw [h]
    exact (hread g.in0 (by simp [Gate.srcs, hop])).xor (hread g.in1 (by simp [Gate.srcs, hop]))
  | Not =>
    simp only [Gate.form, LinearEqs, hop] at h ⊢
    rw [h]
    exact (hread g.in0 (by simp [Gate.srcs, hop])).not
  | Const0 =>
    simp only [Gate.form, LinearEqs, hop] at h ⊢
    rw [h]
    exact .const false
  | Const1 =>
    simp only [Gate.form, LinearEqs, hop] at h ⊢
    rw [h]
    exact .const true

/-- **The forms of the wires give their words**, gate by gate. -/
theorem gives_wireForms_from {F : ℕ → AffineForm ℕ} : ∀ {n k : ℕ}, CanonicalStream n gs →
    ForGates (LinearEqs one x) k gs → (∀ w < n, (F w).Gives one x (x w)) →
      ∀ w < n + gs.length, (wireForms gs F w).Gives one x (x w) := by
  induction gs generalizing F with
  | nil =>
    intro n k _ _ hF w hw
    exact hF w hw
  | cons g gs ih =>
    intro n k hcan hlin hF w hw
    obtain ⟨hout, hsrcs, hrest⟩ := canonicalStream_cons.mp hcan
    rw [wireForms_cons]
    refine ih hrest hlin.2 (fun v hv => ?_) w (by rw [List.length_cons] at hw; omega)
    by_cases hv' : v = g.out
    · rw [hv', Function.update_self]
      exact Gate.form_gives hlin.1 fun u hu => hF u (hsrcs u hu)
    · rw [Function.update_of_ne hv']
      exact hF v (by omega)

theorem gives_wireForms (hcan : CanonicalStream n gs) (hlin : ForGates (LinearEqs one x) 0 gs) :
    ∀ w < n + gs.length, (wireForms gs .atom w).Gives one x (x w) :=
  gives_wireForms_from hcan hlin fun w _ => .atom w

/-- Operands with the same atoms have the same word, up to the constant. -/
theorem SameOperands.word_eq {g : Gate} (h : SameOperands gs g) (hcan : CanonicalStream n gs)
    (hlin : ForGates (LinearEqs one x) 0 gs) (hg : g ∈ gs) : ∃ c, x g.in0 = x g.in1 ^^^ scale c one := by
  have hop : g.op = .And := Gate.op_of_isAnd h.1
  obtain ⟨-, hsrcs⟩ := canonicalStream_lt hcan hg
  have h0 := gives_wireForms hcan hlin g.in0 (hsrcs _ (by simp [Gate.srcs, hop]))
  have h1 := gives_wireForms hcan hlin g.in1 (hsrcs _ (by simp [Gate.srcs, hop]))
  exact ⟨_, h0.eq_of_atoms h1 h.2⟩

end

/-! ### One AND -/

section

variable {D : Type} {E : EmpTool D} {Δ : Deltas} {sh σ lg a b : ℕ → AShareBundle} {start : MITCCRH}
  {ent : ℕ → StreamEntry} {lb : ℕ → Block} {gs : List Gate} {n : ℕ}

/-- The garbler's labels are linear. -/
theorem linearEqs_labels (h : ForGates (GarbleEqs E Δ.d1 σ sh start ent lb) 0 gs) :
    ForGates (LinearEqs Δ.d1 lb) 0 gs := by
  refine ForGates.imp (fun k g hg => ?_) h
  cases hop : g.op <;> simp_all [GarbleEqs, LinearEqs]

/-- The shares are linear, the constants being zero. -/
theorem linearEqs_shares (h : ForGates (ShareEqs sh lg a b) 0 gs) :
    ForGates (LinearEqs zeroBlock fun w => (sh w).mac) 0 gs ∧
      ForGates (LinearEqs zeroBlock fun w => (sh w).key) 0 gs := by
  constructor
  · refine ForGates.imp (fun k g hg => ?_) h
    obtain ⟨hsh, -⟩ := hg
    cases hop : g.op <;> simp [shareRule, LinearEqs, hop] at hsh ⊢ <;> simp [hsh, zeroBlock]
  · refine ForGates.imp (fun k g hg => ?_) h
    obtain ⟨hsh, -⟩ := hg
    cases hop : g.op <;> simp [shareRule, LinearEqs, hop] at hsh ⊢ <;> simp [hsh, zeroBlock]

/-- The two hashes of a label do not change when the label moves by `Δ`. -/
theorem hashCir_pair (m : MITCCRH) (l δ : Block) (c : Bool) :
    m.hashCir E (l ^^^ scale c δ) ^^^ m.hashCir E (l ^^^ scale c δ ^^^ δ) =
      m.hashCir E l ^^^ m.hashCir E (l ^^^ δ) := by
  cases c with
  | false => rw [scale_false, BitVec.xor_zero]
  | true => rw [scale_true, BitVec.xor_assoc l, BitVec.xor_self, BitVec.xor_zero, BitVec.xor_comm]

/-- **The two ciphertexts of an AND whose operands have the same label**, up to `Δ`, and the same share, add up
to the zero label of the first operand. -/
theorem garbleAnd_same (m : MITCCRH) (δ : Block) {s₀ s₁ : AShareBundle} (sg ss : AShareBundle) (l : Block) (c : Bool)
    (hkey : s₀.key = s₁.key) (hmac : s₀.mac = s₁.mac) :
    (garbleAnd E δ m ⟨s₀, l ^^^ scale c δ⟩ ⟨s₁, l⟩ sg ss).1.G0 ^^^
      (garbleAnd E δ m ⟨s₀, l ^^^ scale c δ⟩ ⟨s₁, l⟩ sg ss).1.G1 = l ^^^ scale c δ := by
  have hpair := hashCir_pair (E := E) m l δ c
  simp only [garbleAnd, hkey, hmac]
  rw [hpair]
  generalize m.hashCir E l ^^^ m.hashCir E (l ^^^ δ) = H
  generalize selectMask (LSB s₁.mac) &&& δ = d
  generalize l ^^^ scale c δ = la
  -- the pad `H`, the key and the product cancel
  have hcancel : H ^^^ s₁.key ^^^ d ^^^ (H ^^^ la ^^^ s₁.key ^^^ d) = la := by
    simp only [BitVec.xor_assoc, word_xor_left_comm _ la, BitVec.xor_self, BitVec.xor_zero]
  exact hcancel

end

/-! ### A run -/

/-- What the evaluator computes of an AND: its two ciphertexts and the evaluator's label of the first operand,
added. -/
def entryGuess (e : StreamEntry) (a : EvalSlot) : Block := e.G0 ^^^ e.G1 ^^^ a.label

/-- The stream an honest garbler sends. -/
def honestStream {D : Type} (S : Setup D) (st : ProtoState) (σ₁ : ℕ → AShareBundle) (P₁ : Prepared)
    (w₁ : SecureWires) (source : Body (List ℕ)) : List StreamEntry :=
  (garblerSend S.tool S.Δ.d1 (S.tape.seed st.runs) σ₁ P₁ w₁ source).1.finish.flatten

/-- The slot of wire `i` at the evaluator that receives it. -/
def honestSlot {D : Type} (S : Setup D) (st : ProtoState) (σ : (ℕ → AShareBundle) × (ℕ → AShareBundle))
    (P₁ P₂ : Prepared) (w₁ w₂ : SecureWires) (source : Body (List ℕ)) (i : ℕ) : EvalSlot :=
  evaluatorSlot S.tool S.Δ.d2 σ.2 (S.tape.seed st.runs) P₂ w₂ source (honestStream S st σ.1 P₁ w₁ source) i

/-- The two parties of an honest run up to the garble pass: passes 0 and 1, then the triples. -/
structure HonestPrefix {D : Type} [DecidableEq D] (S : Setup D) (w₁ w₂ : SecureWires) (st : ProtoState)
    (source : Body (List ℕ)) (P₁ P₂ : Prepared) (σ : (ℕ → AShareBundle) × (ℕ → AShareBundle)) : Prop where
  prep₁ : prepare S.cot₁ w₁ st.pool₁ source = P₁
  prep₂ : prepare S.cot₂ w₂ st.pool₂ source = P₂
  triples : ∃ t, computeInplace S.tool S.Δ S.cot₁ S.cot₂ S.ssp (S.tape.shift st.runs) (S.tape.nonce st.runs)
    P₁.numAnds P₁.repA P₁.repB P₂.repA P₂.repB P₁.pool P₂.pool = .ok (σ, t)

section

variable {D : Type} [DecidableEq D] {S : Setup D} {C : CotStream S.Δ} {source : Body (List ℕ)}
  {w₁ w₂ : SecureWires} {x : List Bool} {st : ProtoState} {P₁ P₂ : Prepared}
  {σ : (ℕ → AShareBundle) × (ℕ → AShareBundle)}

/-- The triples of an honest run are sound. -/
theorem HonestPrefix.sound (h : HonestPrefix S w₁ w₂ st source P₁ P₂ σ) (h₁ : S.cot₁ = C.s₁) (h₂ : S.cot₂ = C.s₂)
    {sh₁ sh₂ : ℕ → AShareBundle} {n : ℕ} (H : PreparedPair S C w₁ w₂ st source n P₁ P₂ sh₁ sh₂)
    (hcan : CanonicalStream n (source.stream n)) :
    SigmaSound P₁.numAnds P₁.repA P₁.repB P₂.repA P₂.repB σ S.Δ := by
  have hops := macRel_operands hcan H.eqs₁ H.eqs₂ H.rel
  obtain ⟨σ', t', hcompute, -, hsound⟩ := computeInplace_ok S.tool C S.ssp (S.tape.shift st.runs)
    (S.tape.nonce st.runs) P₁.numAnds (fun i hi => (hops i (H.numAnds₁ ▸ hi)).1)
    (fun i hi => (hops i (H.numAnds₁ ▸ hi)).2) (congrArg TriplePool.used H.pool)
  obtain ⟨t, ht⟩ := h.triples
  rw [h₁, h₂, hcompute] at ht
  cases ht
  exact hsound

/-- An honest run gets that far. -/
theorem exists_honestPrefix (h₁ : S.cot₁ = C.s₁) (h₂ : S.cot₂ = C.s₂) (hin : Encodes S.Δ w₁ w₂ x)
    (hcan : CanonicalStream x.length (source.stream x.length)) (hst : st.pool₁ = st.pool₂) :
    ∃ P₁ P₂ σ, HonestPrefix S w₁ w₂ st source P₁ P₂ σ := by
  obtain ⟨P₁, P₂, sh₁, sh₂, H⟩ := preparedPair h₁ h₂ hin.toSharesAgree hcan hst
  have hops := macRel_operands hcan H.eqs₁ H.eqs₂ H.rel
  obtain ⟨σ, t, hcompute, -, -⟩ := computeInplace_ok S.tool C S.ssp (S.tape.shift st.runs)
    (S.tape.nonce st.runs) P₁.numAnds (fun i hi => (hops i (H.numAnds₁ ▸ hi)).1)
    (fun i hi => (hops i (H.numAnds₁ ▸ hi)).2) (congrArg TriplePool.used H.pool)
  rw [← h₁, ← h₂] at hcompute
  exact ⟨P₁, P₂, σ, H.prep₁, H.prep₂, t, hcompute⟩

/-- The shares of an honest run, sound triples, and the garbler's zero labels, by which every slot of the evaluator
encodes a value. -/
theorem HonestPrefix.labels (h : HonestPrefix S w₁ w₂ st source P₁ P₂ σ) (h₁ : S.cot₁ = C.s₁) (h₂ : S.cot₂ = C.s₂)
    (hin : Encodes S.Δ w₁ w₂ x) (hcan : CanonicalStream x.length (source.stream x.length))
    (hst : st.pool₁ = st.pool₂) :
    let gs := source.stream x.length
    ∃ (sh₁ sh₂ : ℕ → AShareBundle) (lb : ℕ → Block),
      PreparedPair S C w₁ w₂ st source x.length P₁ P₂ sh₁ sh₂ ∧ ForGates (ProductEqs S.Δ σ.1 σ.2 sh₁ sh₂) 0 gs ∧
      ForGates (GarbleEqs S.tool S.Δ.d1 σ.1 sh₁ (.setS (S.tape.seed st.runs))
        (fun k => (honestStream S st σ.1 P₁ w₁ source).getD k default) lb) 0 gs ∧
      ∀ i < x.length + gs.length, (honestSlot S st σ P₁ P₂ w₁ w₂ source i).share = sh₂ i ∧
        WireEncodes S.Δ (sh₁ i) (sh₂ i) (honestSlot S st σ P₁ P₂ w₁ w₂ source i).mask (lb i)
          (honestSlot S st σ P₁ P₂ w₁ w₂ source i).label (evalGates (inputWires x) gs i) := by
  intro gs
  obtain ⟨P₁', P₂', sh₁, sh₂, H⟩ := preparedPair h₁ h₂ hin.toSharesAgree hcan hst
  obtain rfl : P₁' = P₁ := H.prep₁.symm.trans h.prep₁
  obtain rfl : P₂' = P₂ := H.prep₂.symm.trans h.prep₂
  have hsound := h.sound h₁ h₂ H hcan
  have hn₁ := hin.wf₁.size
  have hn₂ := hin.wf₂.size
  rw [H.numAnds₁] at hsound
  have hprod := productEqs_of_sound H.eqs₁ H.eqs₂ hsound
  obtain ⟨lb, -, hlbin, hlen, hgarble⟩ :=
    garblerSend_spec S.tool S.Δ.d1 σ.1 (S.tape.seed st.runs) H.can₁ H.spec₁
  rw [H.numAnds₁, ← H.numAnds₂] at hlen
  obtain ⟨ev, mk, -, hslot, hevin, heval⟩ :=
    evaluatorReceive_spec S.tool S.Δ.d2 σ.2 (S.tape.seed st.runs) H.can₂ H.spec₂ hlen
  rw [hn₁] at hlbin hgarble
  rw [hn₂] at hslot hevin heval
  refine ⟨sh₁, sh₂, lb, H, hprod, hgarble, fun i hi => ?_⟩
  have hslot' : honestSlot S st σ P₁' P₂' w₁ w₂ source i = ⟨sh₂ i, ev i, mk i⟩ := hslot i hi
  rw [hslot']
  refine ⟨rfl, wireEncodes_run hcan H.eqs₁ H.eqs₂ (fun k => C.rel _) hprod hgarble heval (fun w hw => ?_) i hi⟩
  have hw' := hin.wire w hw
  rw [H.spec₁.input w (hn₁ ▸ hw), H.spec₂.input w (hn₂ ▸ hw), (hevin w hw).1, (hevin w hw).2, hlbin w hw]
  exact hw'

/-- The guess at an AND with the same operands. -/
theorem HonestPrefix.guess_eq (h : HonestPrefix S w₁ w₂ st source P₁ P₂ σ) (h₁ : S.cot₁ = C.s₁)
    (h₂ : S.cot₂ = C.s₂) (hin : Encodes S.Δ w₁ w₂ x) (hcan : CanonicalStream x.length (source.stream x.length))
    (hst : st.pool₁ = st.pool₂) :
    let gs := source.stream x.length
    let slot := honestSlot S st σ P₁ P₂ w₁ w₂ source
    ForGates (fun k g => SameOperands gs g →
      entryGuess ((honestStream S st σ.1 P₁ w₁ source).getD k default) (slot g.in0) =
        scale (truthy (slot g.in0).mask) S.Δ.d1) 0 gs := by
  intro gs slot
  obtain ⟨sh₁, sh₂, lb, H, -, hgarble, hwire⟩ := h.labels h₁ h₂ hin hcan hst
  obtain ⟨hmacs, hkeys⟩ := linearEqs_shares H.eqs₁
  have hlabels := linearEqs_labels hgarble
  refine ForGates.imp (fun k g hR hsame => ?_) (hgarble.and (forGates_of_mem fun _ g hg => hg))
  obtain ⟨hg, hmem⟩ := hR
  have hop : g.op = .And := Gate.op_of_isAnd hsame.1
  have hin0 : g.in0 < x.length + gs.length := (canonicalStream_lt hcan hmem).2 _ (by simp [Gate.srcs, hop])
  obtain ⟨-, henc⟩ := hwire g.in0 hin0
  -- the operands have the same key, the same MAC and, up to `Δ₁`, the same label
  obtain ⟨c, hlabel⟩ := hsame.word_eq hcan hlabels hmem
  obtain ⟨_, hkey⟩ := hsame.word_eq hcan hkeys hmem
  obtain ⟨_, hmac⟩ := hsame.word_eq hcan hmacs hmem
  rw [show zeroBlock = 0#128 from rfl, scale_zero, BitVec.xor_zero] at hkey hmac
  simp only [GarbleEqs, hop] at hg
  have hsum := garbleAnd_same (E := S.tool) (MITCCRH.advance (.setS (S.tape.seed st.runs)) k) S.Δ.d1 (sh₁ g.out) (σ.1 k)
    (lb g.in1) c hkey hmac
  rw [← hlabel, hg] at hsum
  rw [entryGuess, hsum, henc.label, henc.truthy_mask, word_xor_cancel]

/-- **An AND of a wire with itself leaks `Δ₁`**: in an honest run on any source, at every AND whose operands are
the same sum of inputs and AND outputs up to a negation, what the evaluator computes of its entry is `Δ₁` or zero,
and it is `Δ₁` when the operand's value differs from its mask, which the evaluator reads off its opened mask. -/
theorem sameOperands_leak (h₁ : S.cot₁ = C.s₁) (h₂ : S.cot₂ = C.s₂) (hin : Encodes S.Δ w₁ w₂ x)
    (hcan : CanonicalStream x.length (source.stream x.length)) (hst : st.pool₁ = st.pool₂)
    (hrun : HonestPrefix S w₁ w₂ st source P₁ P₂ σ) :
    let gs := source.stream x.length
    let slot := honestSlot S st σ P₁ P₂ w₁ w₂ source
    let lam := fun i => shareBit (shareOf S.cot₁ w₁ st.pool₁ source i) (shareOf S.cot₂ w₂ st.pool₂ source i)
    ForGates (fun k g => SameOperands gs g →
      entryGuess ((honestStream S st σ.1 P₁ w₁ source).getD k default) (slot g.in0) =
          scale (truthy (slot g.in0).mask) S.Δ.d1 ∧
        truthy (slot g.in0).mask = (evalGates (inputWires x) gs g.in0 ^^ lam g.in0)) 0 gs := by
  intro gs slot lam
  obtain ⟨sh₁, sh₂, _, H, -, -, hwire⟩ := hrun.labels h₁ h₂ hin hcan hst
  refine ForGates.imp (fun k g hR hsame => ?_)
    ((hrun.guess_eq h₁ h₂ hin hcan hst).and (forGates_of_mem fun _ g hg => hg))
  obtain ⟨hguess, hmem⟩ := hR
  have hop : g.op = .And := Gate.op_of_isAnd hsame.1
  have hlt := (canonicalStream_lt hcan hmem).2 g.in0 (by simp [Gate.srcs, hop])
  refine ⟨hguess hsame, ?_⟩
  simp only [lam, slot]
  rw [(hwire g.in0 hlt).2.truthy_mask, H.share₁ _ hlt, H.share₂ _ hlt]

/-! ### Forged openings -/

/-- What an evaluator that holds `δ` sends to `decode` at the garbler: its share bits, flipped where `flip` says,
and the digest of its MACs, moved by `δ` there. -/
def forgedOpening {D : Type} (E : EmpTool D) (δ : Block) (w : SecureWires) (flip : ℕ → Bool) : OpenMsg D where
  share := (List.range w.size).map fun i => byteOf (LSB (w.bundleAt i).mac ^^ flip i)
  digest := E.hash ((List.range w.size).map fun i => (w.bundleAt i).mac ^^^ scale (flip i) δ)

/-- With `Δ₁` in place of `δ` the garbler accepts it, and decodes flipped bits. -/
theorem forgedOpening_accepted {D : Type} [DecidableEq D] (E : EmpTool D) {Δ : Deltas} {v₁ v₂ : SecureWires} {n : ℕ}
    (h : SharesAgree Δ v₁ v₂ n) (flip : ℕ → Bool) :
    decodeAt E .alice Δ.d1 v₁ (forgedOpening E Δ.d1 v₂ flip) = .ok ((List.range n).map fun i =>
      byteOf (lowBit (v₁.lambdaAt i) ^^ shareBit (v₁.bundleAt i) (v₂.bundleAt i) ^^ flip i)) := by
  rw [decodeAt_ok_iff h.wf₁, forgedOpening, h.wf₂.size]
  constructor
  · have hshare : (List.range n).map (fun i => byteOf (LSB (v₂.bundleAt i).mac ^^ flip i)) =
        ((List.range n).map fun i => LSB (v₂.bundleAt i).mac ^^ flip i).map byteOf := by
      rw [List.map_map]
      rfl
    rw [hshare, expMacs_bits h.wf₁.bundle (by simp)]
    refine congrArg E.hash (List.map_congr_left fun i hi => ?_)
    have hi' := List.mem_range.mp hi
    have hmac := (h.rel i hi').mac₂
    rw [getD_map_range _ _ hi', scale_xor, ← BitVec.xor_assoc]
    exact congrArg (· ^^^ scale (flip i) Δ.d1) hmac.symm
  · rw [openedBytes_eq h.wf₁.size h.wf₁.bundle (by simp), map_range_inj]
    intro i hi
    rw [getD_map_range _ _ hi, lowBit_byteOf, shareBit]
    cases LSB (v₁.bundleAt i).mac <;> cases lowBit (v₁.lambdaAt i) <;> simp

/-- **After such an AND nothing the evaluator opens is authentic.** In an honest run on any source, once an AND of
a wire with itself meets an opened mask that is set, the evaluator can flip any bits of any bundle it opens to the
garbler, with what it computed of the entry: the garbler accepts and decodes the flipped bits. -/
theorem sameOperands_forge (h₁ : S.cot₁ = C.s₁) (h₂ : S.cot₂ = C.s₂) (hin : Encodes S.Δ w₁ w₂ x)
    (hcan : CanonicalStream x.length (source.stream x.length)) (hst : st.pool₁ = st.pool₂)
    (hrun : HonestPrefix S w₁ w₂ st source P₁ P₂ σ) :
    let gs := source.stream x.length
    let slot := honestSlot S st σ P₁ P₂ w₁ w₂ source
    ForGates (fun k g => SameOperands gs g → truthy (slot g.in0).mask = true →
      ∀ (n : ℕ) (v₁ v₂ : SecureWires) (flip : ℕ → Bool), SharesAgree S.Δ v₁ v₂ n →
        decodeAt S.tool .alice S.Δ.d1 v₁ (forgedOpening S.tool
            (entryGuess ((honestStream S st σ.1 P₁ w₁ source).getD k default) (slot g.in0)) v₂ flip) =
          .ok ((List.range n).map fun i =>
            byteOf (lowBit (v₁.lambdaAt i) ^^ shareBit (v₁.bundleAt i) (v₂.bundleAt i) ^^ flip i))) 0 gs := by
  intro gs slot
  refine ForGates.imp (fun k g hguess hsame hmask n v₁ v₂ flip hagree => ?_) (hrun.guess_eq h₁ h₂ hin hcan hst)
  rw [hguess hsame, hmask, scale_true]
  exact forgedOpening_accepted S.tool hagree flip

end

/-! ### A public one and itself -/

/-- The conjunction of an input with itself. -/
def selfProgram : BooleanProgram := ⟨1, 2, [⟨0, 0, 1, .And⟩], [1]⟩

/-- Its wires, for a public one. -/
def selfWires (party : Party) : SecureWires := publicWires party (initAbit party 0) [1]

theorem canonicalStream_self : CanonicalStream 1 ((executeProgram selfProgram).stream 1) :=
  (executeProgram_stream (recordCanonical_of_check (p := selfProgram) (by decide)) rfl).2.2.1

/-- What the evaluator computes of its only entry. -/
def selfGuess (P₁ P₂ : Prepared) (σ : (ℕ → AShareBundle) × (ℕ → AShareBundle)) : Block :=
  entryGuess ((honestStream .zeros {} σ.1 P₁ (selfWires .alice) (executeProgram selfProgram)).getD 0 default)
    (honestSlot .zeros {} σ P₁ P₂ (selfWires .alice) (selfWires .bob) (executeProgram selfProgram) 0)

/-- The evaluator computes `Δ₁`. -/
theorem sameOperands_leak_self : ∃ P₁ P₂ σ,
    HonestPrefix .zeros (selfWires .alice) (selfWires .bob) {} (executeProgram selfProgram) P₁ P₂ σ ∧
      selfGuess P₁ P₂ σ = initAbit .alice 0 := by
  obtain ⟨P₁, P₂, σ, hrun⟩ := exists_honestPrefix (S := .zeros) (C := .zeros _) rfl rfl
    (encodes_publicWires _ [1]) canonicalStream_self (rfl : ({} : ProtoState).pool₁ = ({} : ProtoState).pool₂)
  have hleak := sameOperands_leak (S := .zeros) (C := .zeros _) rfl rfl (encodes_publicWires _ [1])
    canonicalStream_self rfl hrun
  obtain ⟨hguess, hmask⟩ := hleak.1 ⟨rfl, rfl⟩
  refine ⟨P₁, P₂, σ, hrun, hguess.trans ?_⟩
  rw [hmask]
  decide

/-- With it the evaluator has the garbler decode a public one as zero. -/
theorem sameOperands_forge_self : ∃ P₁ P₂ σ,
    HonestPrefix .zeros (selfWires .alice) (selfWires .bob) {} (executeProgram selfProgram) P₁ P₂ σ ∧
      decodeAt .transparent .alice (initAbit .alice 0) (selfWires .alice)
        (forgedOpening .transparent (selfGuess P₁ P₂ σ) (selfWires .bob) fun _ => true) = .ok [0] := by
  have hin : Encodes (.init 0 0) (selfWires .alice) (selfWires .bob) [true] := encodes_publicWires _ [1]
  obtain ⟨P₁, P₂, σ, hrun⟩ := exists_honestPrefix (S := .zeros) (C := .zeros _) rfl rfl hin
    canonicalStream_self (rfl : ({} : ProtoState).pool₁ = ({} : ProtoState).pool₂)
  obtain ⟨sh₁, sh₂, _, H, -, -, hwire⟩ := hrun.labels (C := .zeros _) rfl rfl hin canonicalStream_self rfl
  obtain ⟨-, henc⟩ := hwire 0 (by decide)
  have hforge := sameOperands_forge (S := .zeros) (C := .zeros _) rfl rfl hin canonicalStream_self rfl hrun
  refine ⟨P₁, P₂, σ, hrun, hforge.1 ⟨rfl, rfl⟩ (henc.truthy_mask.trans ?_) 1 _ _ (fun _ => true)
    hin.toSharesAgree⟩
  rw [← H.share₁ 0 (by decide), ← H.share₂ 0 (by decide)]
  decide

end AG2PC
