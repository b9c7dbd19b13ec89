import AG2PC.Backend.PassRuns
import AG2PC.Backend.ShareOpening
import AG2PC.Library.Runs
import AG2PC.Session.Session

/-!
# Bytes from the peer

An honest party keeps one byte for an opened mask, and reads it as an index into `select_mask`, as a
condition and by its low bit. The bytes it receives in `process_inputs` and `decode` go into such bytes.
Here the party makes any calls against a peer that sends any bytes.

* `PartyStore.step` — a call at the honest party, with a log of the indices into `select_mask`.
* `mask_isBit_iff` — when the masks `process_inputs` opens are bits.
* `engineMasks_isBit` — the passes keep masks that are bits.
* `bits_throughout_iff` — all bytes stay bits throughout a run exactly when every message meets the condition
  `PartyOp.PeerSendsBits`.
-/

namespace AG2PC

open Library.SlotReuse Library.Runs

/-! ### Bits -/

/-- A byte that is 0 or 1. -/
def IsBit (b : UInt8) : Prop := b = 0 ∨ b = 1

instance (b : UInt8) : Decidable (IsBit b) := inferInstanceAs (Decidable (_ ∨ _))

theorem isBit_byteOf (b : Bool) : IsBit (byteOf b) := by cases b <;> decide

theorem isBit_zero : IsBit 0 := .inl rfl

theorem isBit_one : IsBit 1 := .inr rfl

theorem IsBit.xor {a b : UInt8} (ha : IsBit a) (hb : IsBit b) : IsBit (a ^^^ b) := by
  rcases ha with rfl | rfl <;> rcases hb with rfl | rfl <;> decide

theorem isBit_xor_iff {a b : UInt8} (ha : IsBit a) : IsBit (a ^^^ b) ↔ IsBit b := by
  refine ⟨fun h => ?_, ha.xor⟩
  have hb := ha.xor h
  rwa [← UInt8.xor_assoc, UInt8.xor_self, UInt8.zero_xor] at hb

/-- The readings of a bit as a condition and by its low bit are the same. -/
theorem IsBit.truthy_eq_lowBit {b : UInt8} (h : IsBit b) : truthy b = lowBit b := by
  rcases h with rfl | rfl <;> decide

/-- Adding bits to bytes gives bits where the bytes are bits. -/
theorem forall_zipWith_xor {as bs : List UInt8} (ha : ∀ a ∈ as, IsBit a) (hb : ∀ b ∈ bs, IsBit b) :
    ∀ z ∈ List.zipWith (· ^^^ ·) as bs, IsBit z := by
  intro z hz
  rw [← List.map_uncurry_zip_eq_zipWith] at hz
  obtain ⟨p, hp, rfl⟩ := List.mem_map.mp hz
  exact (ha _ (List.of_mem_zip hp).1).xor (hb _ (List.of_mem_zip hp).2)

/-! ### The masks `process_inputs` opens -/

/-- A party's own bytes are zero at the wires it does not own. -/
theorem ownXBits_eq_zero (p : Party) (owners : List Owner) (bits : List (List UInt8)) :
    ∀ w ∈ (ownerOfWire owners bits).zip (ownXBits p owners bits), w.1.isParty p = false → w.2 = 0 := by
  unfold ownerOfWire ownXBits
  induction owners.zip bits with
  | nil => exact fun w hw => absurd hw List.not_mem_nil
  | cons g gs ih =>
    intro w hw hparty
    rw [List.flatMap_cons, List.flatMap_cons, List.zip_append (by split_ifs <;> simp)] at hw
    rcases List.mem_append.mp hw with hw | hw
    · obtain ⟨h₁, h₂⟩ := List.of_mem_zip hw
      obtain ⟨-, -, howner⟩ := List.mem_map.mp h₁
      rw [if_neg (by rw [howner, hparty]; exact Bool.false_ne_true)] at h₂
      obtain ⟨-, -, hzero⟩ := List.mem_map.mp h₂
      exact hzero.symm
    · exact ih w hw hparty

/-- Wire by wire: at a wire of its own the party adds its byte, at another the peer's. -/
theorem forall_isBit_mask_iff (p : Party) (os : List Owner) : ∀ ms own xs : List UInt8, ms.length = os.length →
    own.length = os.length → xs.length = os.countP (fun o => !o.isParty p) → (∀ b ∈ ms, IsBit b) →
    (∀ w ∈ os.zip own, w.1.isParty p = false → w.2 = 0) →
    ((∀ b ∈ List.zipWith (· ^^^ ·) (List.zipWith (· ^^^ ·) ms own) (peerXBits p os xs), IsBit b) ↔
      (∀ b ∈ own, IsBit b) ∧ ∀ b ∈ xs, IsBit b) := by
  induction os with
  | nil =>
    intro ms own xs _ hown hxs _ _
    rw [List.length_eq_zero_iff.mp hown, List.length_eq_zero_iff.mp hxs]
    simp [peerXBits]
  | cons o os ih =>
    intro ms own xs hms hown hxs hbits hzero
    obtain ⟨m, ms, rfl⟩ := List.exists_cons_of_length_eq_add_one hms
    obtain ⟨a, own, rfl⟩ := List.exists_cons_of_length_eq_add_one hown
    have hm : IsBit m := hbits m List.mem_cons_self
    have hrest := fun xs hxs => ih ms own xs (Nat.succ.inj hms) (Nat.succ.inj hown) hxs
      (fun b hb => hbits b (List.mem_cons_of_mem m hb)) fun w hw => hzero w (List.mem_cons_of_mem (o, a) hw)
    cases ho : o.isParty p with
    | true =>
      have hxs' : xs.length = os.countP fun o => !o.isParty p := by simpa [ho] using hxs
      simp only [peerXBits, ho, if_true, List.zipWith_cons_cons, List.forall_mem_cons, UInt8.xor_zero,
        isBit_xor_iff hm, hrest xs hxs', and_assoc]
    | false =>
      have ha : a = 0 := hzero (o, a) List.mem_cons_self ho
      have hlen : xs.length = (os.countP fun o => !o.isParty p) + 1 := by simpa [ho] using hxs
      obtain ⟨x, xs, rfl⟩ := List.exists_cons_of_length_eq_add_one hlen
      have hx : IsBit (m ^^^ a ^^^ x) ↔ IsBit x := isBit_xor_iff (hm.xor (ha ▸ isBit_zero))
      simp only [peerXBits, ho, Bool.false_eq_true, if_false, List.headD_cons, List.tail_cons,
        List.zipWith_cons_cons, List.forall_mem_cons, hx, hrest xs (Nat.succ.inj hlen)]
      rw [ha]
      simp only [isBit_zero, true_and]
      exact and_left_comm

/-- **The opened masks are bits** exactly when the party's own bytes and the peer's input bytes are, given that
the peer's share bytes are. -/
theorem mask_isBit_iff {D : Type} {s : InputSide} {m : InputMsg D} {n : ℕ} (howners : (ownerOfWire s.owners s.bits).length = n)
    (hbundle : s.bundle.length = n) (hshare : m.share.length = n)
    (hx : m.x.length = (ownerOfWire s.owners s.bits).countP fun o => !o.isParty s.party)
    (hbits : ∀ b ∈ m.share, IsBit b) :
    (∀ b ∈ s.openedMask m, IsBit b) ↔
      (∀ b ∈ ownXBits s.party s.owners s.bits, IsBit b) ∧ ∀ b ∈ m.x, IsBit b := by
  refine forall_isBit_mask_iff s.party _ _ _ m.x ?_ ?_ hx ?_ (ownXBits_eq_zero s.party s.owners s.bits)
  · rw [List.length_zipWith, shareMsg, List.length_map, hbundle, hshare, Nat.min_self, howners]
  · rw [length_ownXBits]
  · refine forall_zipWith_xor (fun b hb => ?_) hbits
    obtain ⟨-, -, rfl⟩ := List.mem_map.mp hb
    exact isBit_byteOf _

/-! ### A call of the engine -/

/-- What a party's run of the engine depends on besides its inputs, with what it receives: the garbler the
opened masks, through `recv_bool`, and the evaluator the ciphertext stream. -/
structure PartyCall where
  /-- The source. -/
  source : Body (List ℕ)
  /-- The party's COT outputs. -/
  cot : ℕ → AShareBundle
  /-- Its pool. -/
  pool : TriplePool
  /-- Its shares of `σ`. -/
  sigma : ℕ → AShareBundle
  /-- The half-gate tweak seed. -/
  seed : Block
  /-- The stream the evaluator receives. -/
  wire : List StreamEntry
  /-- The `Lambda_AND` the garbler receives. -/
  LambdaAND : List Bool

section

variable {D : Type} (E : EmpTool D) (party : Party) (Δ : Block) (w : SecureWires) (c : PartyCall)

/-- Passes 0 and 1. -/
def PartyCall.prepared : Prepared := prepare c.cot w c.pool c.source

/-- The outputs of `run_source` at one party. -/
def PartyCall.outputs : SecureWires :=
  let P := c.prepared w
  match party with
  | .alice =>
    let g := garblerSend E Δ c.seed c.sigma P w c.source
    let mem := if 0 < P.numAnds then
        (garblerCheck c.sigma P w c.source (garblerSlots P g.2) c.LambdaAND).2
      else garblerSlots P g.2
    gatherGarbler P g.2 mem
  | .bob => gatherEvaluator P (evaluatorReceive E Δ c.seed c.sigma P w c.source c.wire).2

/-- `mask_input` of slot `a` in the passes that have it, when each has been shown the gates `gs`. -/
def PartyCall.masks (gs : List Gate) (a : ℕ) : List UInt8 :=
  let P := c.prepared w
  let lp := livenessPass.runSource w.size c.source (.start w.size)
  let lv := lp.2.s.commit lp.2.wid lp.1
  let slotMask := (slotMaskPass c.cot lv.lastUse lv.persist).after gs
    { alloc := .start w.size, globals := { pool := c.pool }, mem := loadInputs w }
  match party with
  | .alice =>
    let g := garblerSend E Δ c.seed c.sigma P w c.source
    let gamma := (machinePass (gammaMachine c.sigma fun k => byteOf (c.LambdaAND.getD k false)) P.phys).after gs
      ({}, garblerSlots P g.2)
    [(slotMask.mem a).mask, (gamma.2 a).mask]
  | .bob =>
    let evaluate := (machinePass (evaluateMachine E Δ c.sigma) P.phys).after gs
      ({ mitc := .setS c.seed, inbox := recvChunks P.numAnds c.wire },
        fun a => ⟨(P.mem a).share, w.evalLabelAt a, (P.mem a).mask⟩)
    [(slotMask.mem a).mask, (evaluate.2 a).mask]

end

/-! ### The masks of the passes -/

section

variable {D : Type} {E : EmpTool D} {party : Party} {Δ : Block} {w : SecureWires} {c : PartyCall}

/-- The slot/mask pass writes no mask but 0 and 1. -/
theorem slotMask_isBit {cot : ℕ → AShareBundle} {lastUse : ℕ → Option ℕ} {persist : ℕ → Bool} (gs : List Gate) :
    ∀ s : SlotMask, (∀ a, IsBit (s.mem a).mask) →
      ∀ a, IsBit (((slotMaskPass cot lastUse persist).after gs s).mem a).mask := by
  induction gs with
  | nil => exact fun s h => h
  | cons g gs ih =>
    intro s h
    rw [Pass.after, List.foldl_cons, slotMaskPass_step]
    refine ih _ fun a => ?_
    rw [SlotMask.gate]
    dsimp only
    rw [Function.update_apply]
    split_ifs
    · cases hop : g.normalize.op <;> simp only [slotMaskGate, hop] <;> first | exact isBit_zero | exact isBit_one
    · exact h a

/-- The gamma check pass keeps masks that are bits. -/
theorem gamma_isBit {sigma : ℕ → AShareBundle} {LambdaAND : List Bool} {phys : ℕ → ℕ} (gs : List Gate)
    (s : GammaGlobals × (ℕ → MaskSlot)) (h : ∀ a, IsBit (s.2 a).mask) (a : ℕ) :
    IsBit (((machinePass (gammaMachine sigma fun k => byteOf (LambdaAND.getD k false)) phys).after gs s).2 a).mask := by
  rw [machinePass_after_normalize]
  refine Machine.forall_run (Q := fun v => IsBit v.mask) _ (fun g s r v hr _ => ?_) phys _ s h a
  cases hop : g.op <;> simp only [gammaMachine, gammaGate, hop]
  · exact isBit_byteOf _
  · exact (hr _).xor (hr _)
  · exact (hr _).xor isBit_one
  · exact isBit_zero
  · exact isBit_one

/-- So does the evaluate pass, whatever stream it receives. -/
theorem evaluate_isBit {sigma : ℕ → AShareBundle} {phys : ℕ → ℕ} (gs : List Gate)
    (s : EvalGlobals × (ℕ → EvalSlot)) (h : ∀ a, IsBit (s.2 a).mask) (a : ℕ) :
    IsBit (((machinePass (evaluateMachine E Δ sigma) phys).after gs s).2 a).mask := by
  rw [machinePass_after_normalize]
  refine Machine.forall_run (Q := fun v => IsBit v.mask) _ (fun g s r v hr _ => ?_) phys _ s h a
  cases hop : g.op <;> simp only [evaluateMachine, evaluateGate, hop]
  · exact isBit_byteOf _
  · exact (hr _).xor (hr _)
  · exact (hr _).xor isBit_one
  · exact isBit_zero
  · exact isBit_one

/-- The inputs in their slots. -/
theorem loadInputs_isBit (hw : ∀ b ∈ w.Lambda, IsBit b) (a : ℕ) : IsBit (loadInputs w a).mask := by
  change IsBit (w.Lambda.getD a 0)
  rcases Nat.lt_or_ge a w.Lambda.length with ha | ha
  · exact hw _ (Library.ByIndex.getD_mem 0 ha)
  · rw [List.getD_eq_getElem?_getD, List.getElem?_eq_none ha]
    exact isBit_zero

/-- The masks after passes 0 and 1. -/
theorem prepared_isBit (hw : ∀ b ∈ w.Lambda, IsBit b) (a : ℕ) : IsBit ((c.prepared w).mem a).mask := by
  change IsBit (((slotMaskPass c.cot _ _).runSource w.size c.source _).2.s.mem a).mask
  rw [Pass.runSource_eq_after]
  exact slotMask_isBit _ _ (loadInputs_isBit hw) a

/-- **The passes keep bits**: whatever gates they have been shown, and whatever was received. -/
theorem engineMasks_isBit (hw : ∀ b ∈ w.Lambda, IsBit b) (gs : List Gate) (a : ℕ) :
    ∀ b ∈ c.masks E party Δ w gs a, IsBit b := by
  have hslot := fun lastUse persist => @slotMask_isBit c.cot lastUse persist gs
    { alloc := .start w.size, globals := { pool := c.pool }, mem := loadInputs w } (loadInputs_isBit hw) a
  intro b hb
  cases party with
  | alice =>
    rcases List.mem_pair.mp hb with rfl | rfl
    · exact hslot _ _
    · exact gamma_isBit gs _ (prepared_isBit hw) a
  | bob =>
    rcases List.mem_pair.mp hb with rfl | rfl
    · exact hslot _ _
    · exact evaluate_isBit gs _ (prepared_isBit hw) a

/-- The outputs' masks are bits. -/
theorem outputs_isBit (hw : ∀ b ∈ w.Lambda, IsBit b) : ∀ b ∈ (c.outputs E party Δ w).Lambda, IsBit b := by
  intro b hb
  cases party with
  | alice =>
    obtain ⟨id, -, rfl⟩ := List.mem_map.mp hb
    split_ifs
    · rw [garblerCheck, Pass.runSource_eq_after]
      exact gamma_isBit _ _ (prepared_isBit hw) _
    · exact prepared_isBit hw _
  | bob =>
    obtain ⟨id, -, rfl⟩ := List.mem_map.mp hb
    rw [evaluatorReceive, Pass.runSource_eq_after]
    exact evaluate_isBit _ _ (prepared_isBit hw) _

end

/-! ### The calls of one party -/

/-- What the party holds, and what it has indexed `select_mask` with. -/
structure PartyStore where
  /-- `carried_`. -/
  carried : ℕ → Option CarriedState := fun _ => none
  /-- The bundle at hand. -/
  bundle : SecureWires := {}
  /-- The indices into `select_mask` made of received bytes. -/
  indices : List UInt8 := []
  /-- A check has failed. -/
  aborted : Bool := false

/-- A call, with what the peer sends: the receiver reads as many bytes as it has wires for. -/
inductive PartyOp (D : Type) where
  /-- `public_wires`. -/
  | publicWires (bits : List UInt8)
  /-- `process_inputs`, on the shares `bundle` and the labels `label0`; the garbler's labels are `labels`. -/
  | processInputs (owners : List Owner) (bits : List (List UInt8)) (bundle : ℕ → AShareBundle) (label0 : List Block)
      (share : ℕ → UInt8) (digest : D) (x : ℕ → UInt8) (labels : List Block)
  /-- `slice`. -/
  | slice (lo hi : ℕ)
  /-- `carry_load_` of wire `i`. -/
  | carryLoad (id i : ℕ)
  /-- `gather_carried_`, appended to the bundle or in its place. -/
  | gather (appended : Bool) (ids : List ℕ)
  /-- Carried state is dropped. -/
  | forget (keep : List ℕ)
  /-- `run_source`. -/
  | runSource (c : PartyCall)
  /-- `decode` at its recipient. -/
  | decode (share : ℕ → UInt8) (digest : D)
  /-- Any other check fails. -/
  | abort

section

variable {D : Type} [DecidableEq D] (E : EmpTool D) (party : Party) (Δ : Block)

/-- The party's side of `process_inputs`. -/
def partySide (owners : List Owner) (bits : List (List UInt8)) (bundle : ℕ → AShareBundle) (label0 : List Block) :
    InputSide :=
  ⟨party, Δ, owners, bits, (List.range (inputTotal bits)).map bundle, label0⟩

/-- `peer_idx_list`, of which only the length matters. -/
def peerOwned (owners : List Owner) (bits : List (List UInt8)) : ℕ :=
  (ownerOfWire owners bits).countP fun o => !o.isParty party

/-- The peer's message as `process_inputs` reads it. -/
def readInputMsg (owners : List Owner) (bits : List (List UInt8)) (share : ℕ → UInt8) (digest : D) (x : ℕ → UInt8) :
    InputMsg D :=
  ⟨(List.range (inputTotal bits)).map share, digest, (List.range (peerOwned party owners bits)).map x⟩

namespace PartyStore

/-- What a call leaves. A failed check leaves what the party holds, and ends the run. -/
def next (s : PartyStore) : PartyOp D → PartyStore
  | .publicWires bits => { s with bundle := AG2PC.publicWires party Δ bits }
  | .processInputs owners bits bundle label0 share digest x labels =>
    if checkInputRequest owners bits ≠ .ok () then { s with aborted := true }
    else if inputTotal bits = 0 then { s with bundle := {} }
    else
      let side := partySide party Δ owners bits bundle label0
      let m := readInputMsg party owners bits share digest x
      match side.receive E m with
      | .error _ => { s with indices := s.indices ++ m.share, aborted := true }
      | .ok Lambda =>
        { s with
          bundle := side.wires Lambda labels
          indices := s.indices ++ m.share ++ match party with
            | .alice => Lambda
            | .bob => [] }
  | .slice lo hi => { s with bundle := s.bundle.slice lo hi }
  | .carryLoad id i =>
    { s with carried := Function.update s.carried id (some (((s.carried id).getD {}).load party s.bundle i)) }
  | .gather appended ids =>
    let w := carryStore party (ids.map fun id => (s.carried id).getD {})
    { s with bundle := if appended then s.bundle.append w else w }
  | .forget keep => { s with carried := fun id => if id ∈ keep then s.carried id else none }
  | .runSource c => { s with bundle := c.outputs E party Δ s.bundle }
  | .decode share digest =>
    let m : OpenMsg D := ⟨(List.range s.bundle.size).map share, digest⟩
    match s.bundle.check party "decode" with
    | .error _ => { s with aborted := true }
    | .ok _ =>
      { s with
        indices := s.indices ++ m.share
        aborted := match decodeReceive E Δ s.bundle m with
          | .error _ => true
          | .ok _ => false }
  | .abort => { s with aborted := true }

/-- One call. -/
def step (s : PartyStore) (o : PartyOp D) : Except String (Unit × PartyStore) :=
  if s.aborted then .error "aborted" else .ok ((), s.next E party Δ o)

/-- **Every received byte stays a bit**: the indices into `select_mask`, the opened masks of the bundle and of
the carried wires, and the masks of every pass over the bundle. -/
structure OnlyBits (s : PartyStore) : Prop where
  indices : ∀ b ∈ s.indices, IsBit b
  bundle : ∀ b ∈ s.bundle.Lambda, IsBit b
  carried : ∀ id c, s.carried id = some c → IsBit c.Lambda
  masks : ∀ (c : PartyCall) gs a, ∀ b ∈ c.masks E party Δ s.bundle gs a, IsBit b

end PartyStore

/-- **The condition on a message**: in a call of `process_inputs` that gets as far, the share bytes are bits, and if
the digest is that of the expected MACs, so are the input bytes, the party's own among them; in a call of
`decode` that gets as far, the share bytes are bits. -/
def PartyOp.PeerSendsBits (s : PartyStore) : PartyOp D → Prop
  | .processInputs owners bits bundle _ share digest x _ =>
    checkInputRequest owners bits = .ok () → 0 < inputTotal bits →
      (∀ i < inputTotal bits, IsBit (share i)) ∧
        (E.hash (expMacs E Δ ((List.range (inputTotal bits)).map bundle)
            ((List.range (inputTotal bits)).map share)) = digest →
          (∀ b ∈ ownXBits party owners bits, IsBit b) ∧ ∀ i < peerOwned party owners bits, IsBit (x i))
  | .decode share _ =>
    s.bundle.check party "decode" = .ok () → ∀ i < s.bundle.size, IsBit (share i)
  | _ => True

/-! ### Throughout a run -/

namespace PartyStore

variable {E party Δ} {s t : PartyStore}

omit [DecidableEq D] in
/-- What a party holds is only bits when its bytes are: the passes follow. -/
theorem OnlyBits.of_bytes (hi : ∀ b ∈ s.indices, IsBit b) (hb : ∀ b ∈ s.bundle.Lambda, IsBit b)
    (hc : ∀ id c, s.carried id = some c → IsBit c.Lambda) : OnlyBits E party Δ s :=
  ⟨hi, hb, hc, fun _ gs a => engineMasks_isBit hb gs a⟩

omit [DecidableEq D] in
theorem OnlyBits.start : OnlyBits E party Δ {} := .of_bytes nofun nofun nofun

omit [DecidableEq D] in
/-- The mask of a carried wire, or of none. -/
theorem OnlyBits.carried_getD (h : OnlyBits E party Δ s) (id : ℕ) : IsBit ((s.carried id).getD {}).Lambda := by
  cases hc : s.carried id with
  | none => exact isBit_zero
  | some c => exact h.carried id c hc

omit [DecidableEq D] in
/-- A bundle made of carried wires. -/
theorem OnlyBits.carryStore (h : OnlyBits E party Δ s) (ids : List ℕ) :
    ∀ b ∈ (AG2PC.carryStore party (ids.map fun id => (s.carried id).getD {})).Lambda, IsBit b := by
  intro b hb
  obtain ⟨c, hc, rfl⟩ := List.mem_map.mp hb
  obtain ⟨id, -, rfl⟩ := List.mem_map.mp hc
  exact h.carried_getD id

/-- **The input phase** leaves only bits exactly when the message meets the condition. -/
theorem OnlyBits.processInputs_iff (h : OnlyBits E party Δ s) {owners : List Owner} {bits : List (List UInt8)}
    {bundle : ℕ → AShareBundle} {label0 : List Block} {share : ℕ → UInt8} {digest : D} {x : ℕ → UInt8}
    {labels : List Block} :
    OnlyBits E party Δ (s.next E party Δ (.processInputs owners bits bundle label0 share digest x labels)) ↔
      (PartyOp.processInputs owners bits bundle label0 share digest x labels).PeerSendsBits E party Δ s := by
  by_cases hcheck : checkInputRequest owners bits = .ok ()
  · rcases Nat.eq_zero_or_pos (inputTotal bits) with hzero | hpos
    · refine iff_of_true ?_ fun _ hpos => absurd hzero (Nat.ne_of_gt hpos)
      simp only [next, hcheck, ne_eq, not_true_eq_false, if_false, hzero, if_true]
      exact .of_bytes h.indices (fun b hb => by cases hb) h.carried
    · have hcond : (PartyOp.processInputs owners bits bundle label0 share digest x labels).PeerSendsBits E party Δ s ↔
          (∀ b ∈ (readInputMsg party owners bits share digest x).share, IsBit b) ∧
            (E.hash (expMacs E (partySide party Δ owners bits bundle label0).Δ
                (partySide party Δ owners bits bundle label0).bundle
                (readInputMsg party owners bits share digest x).share) = (readInputMsg party owners bits share digest x).digest →
              (∀ b ∈ ownXBits party owners bits, IsBit b) ∧
                ∀ b ∈ (readInputMsg party owners bits share digest x).x, IsBit b) := by
        simp only [PartyOp.PeerSendsBits, readInputMsg, partySide, List.forall_mem_map, List.mem_range, hcheck, hpos,
          forall_const]
      rw [hcond]
      generalize hside : partySide party Δ owners bits bundle label0 = side
      generalize hm : readInputMsg party owners bits share digest x = m
      have howners : owners.length = bits.length := by
        by_contra hne
        simp [checkInputRequest, hne] at hcheck
      have hmask : (∀ b ∈ m.share, IsBit b) → ((∀ b ∈ side.openedMask m, IsBit b) ↔
          (∀ b ∈ ownXBits party owners bits, IsBit b) ∧ ∀ b ∈ m.x, IsBit b) := by
        subst hside hm
        refine mask_isBit_iff (n := inputTotal bits) (length_ownerOfWire howners) ?_ ?_ ?_
        · simp [partySide]
        · simp [readInputMsg]
        · simp [readInputMsg, partySide, peerOwned]
      simp only [next, hcheck, ne_eq, not_true_eq_false, if_false, Nat.ne_of_gt hpos, hside, hm]
      cases hrec : side.receive E m with
      | error e =>
        -- the share bytes have been indices all the same
        have hreject : E.hash (expMacs E side.Δ side.bundle m.share) ≠ m.digest := by
          intro hd
          rw [receive_ok_iff.mpr ⟨hd, rfl⟩] at hrec
          cases hrec
        constructor
        · intro ht
          exact ⟨fun b hb => ht.indices b (List.mem_append_right _ hb), fun hd => absurd hd hreject⟩
        · rintro ⟨hshare, -⟩
          exact .of_bytes (List.forall_mem_append.mpr ⟨h.indices, hshare⟩) h.bundle h.carried
      | ok Lambda =>
        obtain ⟨hdigest, rfl⟩ := receive_ok_iff.mp hrec
        constructor
        · intro ht
          have hshare : ∀ b ∈ m.share, IsBit b := fun b hb =>
            ht.indices b (List.mem_append_left _ (List.mem_append_right _ hb))
          exact ⟨hshare, fun _ => (hmask hshare).mp ht.bundle⟩
        · rintro ⟨hshare, hx⟩
          have hLambda := (hmask hshare).mpr (hx hdigest)
          refine .of_bytes (List.forall_mem_append.mpr ⟨List.forall_mem_append.mpr ⟨h.indices, hshare⟩, ?_⟩) hLambda
            h.carried
          cases party with
          | alice => exact hLambda
          | bob => exact fun b hb => by cases hb
  · refine iff_of_true ?_ fun hok => absurd hok hcheck
    simp only [next, hcheck, ne_eq, not_false_eq_true, if_true]
    exact .of_bytes h.indices h.bundle h.carried

/-- **One call**: it leaves only bits exactly when its message meets the condition. -/
theorem OnlyBits.next_iff (h : OnlyBits E party Δ s) (o : PartyOp D) :
    OnlyBits E party Δ (s.next E party Δ o) ↔ o.PeerSendsBits E party Δ s := by
  cases o with
  | publicWires bits =>
    refine iff_of_true (.of_bytes h.indices (fun b hb => ?_) h.carried) trivial
    obtain ⟨v, -, rfl⟩ := List.mem_map.mp hb
    exact isBit_byteOf _
  | processInputs owners bits bundle label0 share digest x labels => exact h.processInputs_iff
  | slice lo hi =>
    exact iff_of_true (.of_bytes h.indices (fun b hb => h.bundle b (List.mem_of_mem_drop (List.mem_of_mem_take hb)))
      h.carried) trivial
  | carryLoad id i =>
    refine iff_of_true (.of_bytes h.indices h.bundle fun id' c hc => ?_) trivial
    simp only [next] at hc
    rw [Function.update_apply] at hc
    split_ifs at hc
    · cases hc
      have hl : IsBit (s.bundle.lambdaAt i) := loadInputs_isBit h.bundle i
      cases party <;> exact hl
    · exact h.carried id' c hc
  | gather appended ids =>
    refine iff_of_true (.of_bytes h.indices (fun b hb => ?_) h.carried) trivial
    cases appended with
    | true =>
      rcases List.mem_append.mp hb with hb | hb
      · exact h.bundle b hb
      · exact h.carryStore ids b hb
    | false => exact h.carryStore ids b hb
  | forget keep =>
    refine iff_of_true (.of_bytes h.indices h.bundle fun id c hc => ?_) trivial
    simp only [next] at hc
    split_ifs at hc
    exact h.carried id c hc
  | runSource c => exact iff_of_true (.of_bytes h.indices (outputs_isBit h.bundle) h.carried) trivial
  | decode share digest =>
    simp only [next, PartyOp.PeerSendsBits]
    cases hcheck : s.bundle.check party "decode" with
    | error e => exact iff_of_true (.of_bytes h.indices h.bundle h.carried) fun hok => by cases hok
    | ok u =>
      constructor
      · intro ht _ i hi
        exact ht.indices _ (List.mem_append_right _ (List.mem_map_of_mem (List.mem_range.mpr hi)))
      · intro hshare
        refine .of_bytes (List.forall_mem_append.mpr ⟨h.indices, ?_⟩) h.bundle h.carried
        simp only [List.forall_mem_map, List.mem_range]
        exact hshare rfl
  | abort => exact iff_of_true (.of_bytes h.indices h.bundle h.carried) trivial

/-- **Received bytes stay bits throughout a run exactly when every message meets the condition**; and a byte that is
a bit is the same bit for an AND as for a XOR. -/
theorem bits_throughout_iff {D : Type} [DecidableEq D] (E : EmpTool D) (party : Party) (Δ : Block)
    (ops : List (PartyOp D)) :
    ((∀ pre, pre <+: ops → ∀ t, Reaches (step E party Δ) {} pre t → OnlyBits E party Δ t) ↔
      ∀ pre o, pre ++ [o] <+: ops → ∀ t t', Reaches (step E party Δ) {} pre t →
        Reaches (step E party Δ) {} (pre ++ [o]) t' → o.PeerSendsBits E party Δ t) ∧
      ∀ t, OnlyBits E party Δ t → ∀ (c : PartyCall) gs a, ∀ b ∈ c.masks E party Δ t.bundle gs a,
        truthy b = lowBit b := by
  refine ⟨forall_reached_iff (I := OnlyBits E party Δ) (fun _ h => h) (fun s o u t h ho => ?_) .start,
    fun t h c gs a b hb => (h.masks c gs a b hb).truthy_eq_lowBit⟩
  have ht : t = s.next E party Δ o := by
    unfold step at ho
    split_ifs at ho
    exact (Prod.mk.inj (Except.ok.inj ho)).2.symm
  subst ht
  exact ⟨h.next_iff o, (h.next_iff o).mpr⟩

end PartyStore

end

/-- A garbler whose peer sends 2 as the input byte of its one wire goes on with the mask 2, by which it indexes
`select_mask` and which an AND reads as one and a XOR as zero. -/
theorem bits_throughout_two : ∃ t, Reaches (PartyStore.step .transparent .alice (Deltas.init 0 0).d1) {}
    [.processInputs [.BOB] [[0]] (fun _ => .zero) [zeroBlock] (fun _ => 0) [zeroBlock] (fun _ => 2) []] t ∧
      t.aborted = false ∧ t.bundle.Lambda = [2] ∧ t.indices = [0, 2] ∧ truthy 2 ≠ lowBit 2 ∧
      ¬ t.OnlyBits .transparent .alice (Deltas.init 0 0).d1 := by
  refine ⟨_, ⟨_, rfl⟩, by decide, by decide, by decide, by decide, fun h => ?_⟩
  have hbit := h.bundle 2 (by decide)
  exact absurd hbit (by decide)

end AG2PC
