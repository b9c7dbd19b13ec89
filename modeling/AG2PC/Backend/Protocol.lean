import AG2PC.Backend.TriplePool

/-!
# Input phase and output decode

`protocol.h`: the input phase `process_inputs`, the output decode `decode` and the public
constants `public_wires`. A party's code is cut at its exchanges: what it sends is one
function of its own data, what it does with the peer's message is another, and a two-party
function puts the halves together. Received bytes are arbitrary; a share byte that is neither
0 nor 1 indexes `select_mask` out of its bounds.
-/

namespace AG2PC

open Library.XorAlgebra

/-- Who an input belongs to or an output is opened to: an `int` of the interface. -/
inductive Owner where
  /-- Everyone. -/
  | PUBLIC
  /-- Party 1. -/
  | ALICE
  /-- Party 2. -/
  | BOB
  /-- Any other integer. -/
  | other (n : ℤ)
  deriving DecidableEq, Repr

/-- `o == party`. -/
def Owner.isParty : Owner → Party → Bool
  | .ALICE, .alice => true
  | .BOB, .bob => true
  | _, _ => false

/-- The owner a party is. -/
def Owner.ofParty : Party → Owner
  | .alice => .ALICE
  | .bob => .BOB

@[simp] theorem Owner.isParty_ofParty (p q : Party) : (Owner.ofParty p).isParty q = decide (p = q) := by
  cases p <;> cases q <;> rfl

/-! ### Public constants -/

/-- `public_wires`: the wires of public bits, built without communication. -/
def publicWires (party : Party) (Δ : Block) (bits : List UInt8) : SecureWires where
  Lambda := bits.map fun b => byteOf (truthy b)
  wireBundle := bits.map fun _ => .zero
  label0 := match party with
    | .alice => bits.map fun b => if truthy b then Δ else zeroBlock
    | .bob => []
  evalLabel := match party with
    | .alice => []
    | .bob => bits.map fun _ => zeroBlock

/-! ### Authenticated opening -/

/-- The share bits a party opens: bit 0 of every MAC. -/
def shareMsg (bundle : List AShareBundle) : List UInt8 := bundle.map fun b => byteOf (LSB b.mac)

/-- The MACs a receiver expects for the share bytes it got: `KEY ⊕ bit·Δ`. -/
def expMacs {D : Type} (E : EmpTool D) (Δ : Block) (bundle : List AShareBundle) (share : List UInt8) :
    List Block :=
  List.zipWith (fun b s => b.key ^^^ (selectMaskAt E s &&& Δ)) bundle share

/-! ### The input phase -/

/-- The first message of `process_inputs`. -/
structure InputMsg (D : Type) where
  /-- The sender's mask bits, of every wire. -/
  share : List UInt8
  /-- The digest of the matching MACs. -/
  digest : D
  /-- `own_x_packed`: the input bits of the wires the sender owns. -/
  x : List UInt8

/-- The checks `process_inputs` makes on its arguments before it communicates. -/
def checkInputRequest (owners : List Owner) (bits : List (List UInt8)) : Except String Unit :=
  if owners.length ≠ bits.length then
    .error "process_inputs: owners.size() != bits_per_owner.size()"
  else if owners.any fun o => o != .ALICE && o != .BOB then
    .error "process_inputs: owner must be ALICE or BOB (use public_wires for PUBLIC)"
  else .ok ()

/-- `owner_of_wire`. -/
def ownerOfWire (owners : List Owner) (bits : List (List UInt8)) : List Owner :=
  (owners.zip bits).flatMap fun p => p.2.map fun _ => p.1

/-- `own_x_bits`: a party's own bits at the wires it owns, zero at the others. -/
def ownXBits (party : Party) (owners : List Owner) (bits : List (List UInt8)) : List UInt8 :=
  (owners.zip bits).flatMap fun p => if p.1.isParty party then p.2 else p.2.map fun _ => 0

/-- `own_x_packed`: the entries of `own_x_bits` at the wires the party owns. -/
def ownXPacked (party : Party) (ownerOf : List Owner) (xs : List UInt8) : List UInt8 :=
  (ownerOf.zip xs).filterMap fun p => if p.1.isParty party then some p.2 else none

/-- `peer_x_packed` spread over the wires the peer owns, zero at the party's own. -/
def peerXBits (party : Party) : List Owner → List UInt8 → List UInt8
  | [], _ => []
  | o :: rest, xs =>
    if o.isParty party then 0 :: peerXBits party rest xs
    else xs.headD 0 :: peerXBits party rest xs.tail

/-- A party has a bit for each wire. -/
theorem length_ownXBits (p : Party) (owners : List Owner) (bits : List (List UInt8)) :
    (ownXBits p owners bits).length = (ownerOfWire owners bits).length := by
  unfold ownXBits ownerOfWire
  induction owners.zip bits with
  | nil => rfl
  | cons g gs ih =>
    rw [List.flatMap_cons, List.flatMap_cons, List.length_append, List.length_append, ih]
    split_ifs <;> simp

/-- What a party of `process_inputs` holds when it has drawn its shares; `label0` is empty at the
evaluator. -/
structure InputSide where
  /-- The party. -/
  party : Party
  /-- Its `Δ`. -/
  Δ : Block
  /-- The owner of each of the `K` groups. -/
  owners : List Owner
  /-- `bits_per_owner` at this party. -/
  bits : List (List UInt8)
  /-- Its shares, one a wire. -/
  bundle : List AShareBundle
  /-- The labels it sampled. -/
  label0 : List Block

namespace InputSide

variable {D : Type} (E : EmpTool D) (s : InputSide)

/-- The message the party sends. -/
def send : InputMsg D where
  share := shareMsg s.bundle
  digest := E.hash (s.bundle.map AShareBundle.mac)
  x := ownXPacked s.party (ownerOfWire s.owners s.bits) (ownXBits s.party s.owners s.bits)

/-- `Λ_w = λ_w ⊕ x_w` of every wire, from the peer's message. -/
def openedMask (m : InputMsg D) : List UInt8 :=
  List.zipWith (· ^^^ ·)
    (List.zipWith (· ^^^ ·) (List.zipWith (· ^^^ ·) (shareMsg s.bundle) m.share)
      (ownXBits s.party s.owners s.bits))
    (peerXBits s.party (ownerOfWire s.owners s.bits) m.x)

/-- What the party does with the peer's message: check the digest, then reconstruct `Λ`. -/
def receive [DecidableEq D] (m : InputMsg D) : Except String (List UInt8) :=
  if E.hash (expMacs E s.Δ s.bundle m.share) ≠ m.digest then
    .error "process_inputs: peer share-MAC hash mismatch"
  else .ok (s.openedMask m)

/-- The labels `m_{w,Λ_w}` the garbler sends. -/
def sendLabels (Lambda : List UInt8) : List Block :=
  List.zipWith (fun m l => m ^^^ (selectMaskAt E l &&& s.Δ)) s.label0 Lambda

/-- The wires of all groups, with the labels the evaluator received. -/
def wires (Lambda : List UInt8) (labels : List Block) : SecureWires where
  Lambda := Lambda
  wireBundle := s.bundle
  label0 := s.label0
  evalLabel := match s.party with
    | .alice => []
    | .bob => labels

end InputSide

/-- The combined bundle cut back into its groups, from offset `off` on. -/
def sliceGroups (sw : SecureWires) : ℕ → List (List UInt8) → List SecureWires
  | _, [] => []
  | off, b :: rest => sw.slice off (off + b.length) :: sliceGroups sw (off + b.length) rest

/-- `n_total`. -/
def inputTotal (bits : List (List UInt8)) : ℕ := bits.foldl (fun n b => n + b.length) 0

theorem inputTotal_eq (bits : List (List UInt8)) : inputTotal bits = bits.flatten.length := by
  have h : ∀ (bits : List (List UInt8)) (n : ℕ),
      bits.foldl (fun n b => n + b.length) n = n + bits.flatten.length := by
    intro bits
    induction bits with
    | nil =>
      intro n
      rfl
    | cons b rest ih =>
      intro n
      rw [List.foldl_cons, ih, List.flatten_cons, List.length_append]
      omega
  exact (h bits 0).trans (Nat.zero_add _)

/-- There is an owner for every wire. -/
theorem length_ownerOfWire {owners : List Owner} : ∀ {bits : List (List UInt8)},
    owners.length = bits.length → (ownerOfWire owners bits).length = inputTotal bits := by
  intro bits h
  rw [inputTotal_eq]
  unfold ownerOfWire
  induction owners generalizing bits with
  | nil =>
    cases List.length_eq_zero_iff.mp h.symm
    rfl
  | cons o owners ih =>
    cases bits with
    | nil => cases h
    | cons b bits =>
      have hrest : owners.length = bits.length := by simpa using h
      rw [List.zip_cons_cons, List.flatMap_cons, List.length_append, List.length_map, ih hrest,
        List.flatten_cons, List.length_append]

/-- The random values the code draws at run time: the garbler's input labels, one a wire, and for
each run of the engine the nonce of `F_eq`, the raw shifts of the sacrifice layers and the seed
of the half-gate tweaks. -/
structure Tape where
  /-- `prg.random_block` at the garbler. -/
  label0 : ℕ → Block
  /-- The nonce of the commitment of `F_eq`. -/
  nonce : ℕ → Block
  /-- The raw shift of each sacrifice layer. -/
  shift : ℕ → ℕ → ℕ
  /-- The half-gate tweak seed, squeezed from the transcript. -/
  seed : ℕ → Block

/-- What the two parties' `AG2PCProtocol` objects carry from call to call. -/
structure ProtoState where
  /-- The garbler's pool. -/
  pool₁ : TriplePool := {}
  /-- The evaluator's pool. -/
  pool₂ : TriplePool := {}
  /-- How many labels the garbler has sampled. -/
  labelsUsed : ℕ := 0
  /-- How many runs of the engine there were. -/
  runs : ℕ := 0
  deriving DecidableEq

/-- `process_inputs` at both parties. -/
def processInputs {D : Type} [DecidableEq D] (E : EmpTool D) (Δ : Deltas) (cot₁ cot₂ : ℕ → AShareBundle)
    (T : Tape) (owners : List Owner) (bits₁ bits₂ : List (List UInt8)) (st : ProtoState) :
    Except String ((List SecureWires × List SecureWires) × ProtoState) := do
  checkInputRequest owners bits₁
  checkInputRequest owners bits₂
  let n := inputTotal bits₁
  if n = 0 then
    return ((bits₁.map fun _ => {}, bits₂.map fun _ => {}), st)
  let m₁ := st.pool₁.draw cot₁ n
  let m₂ := st.pool₂.draw cot₂ n
  let label0 := (List.range n).map fun i => T.label0 (st.labelsUsed + i)
  let s₁ : InputSide := ⟨.alice, Δ.d1, owners, bits₁, (List.range n).map m₁.1, label0⟩
  let s₂ : InputSide := ⟨.bob, Δ.d2, owners, bits₂, (List.range n).map m₂.1, []⟩
  let Lambda₁ ← s₁.receive E (s₂.send E)
  let Lambda₂ ← s₂.receive E (s₁.send E)
  let labels := s₁.sendLabels E Lambda₁
  return ((sliceGroups (s₁.wires Lambda₁ []) 0 bits₁, sliceGroups (s₂.wires Lambda₂ labels) 0 bits₂),
    { st with pool₁ := m₁.2, pool₂ := m₂.2, labelsUsed := st.labelsUsed + n })

/-! ### Output decode -/

/-- The message of an opening to one recipient. -/
structure OpenMsg (D : Type) where
  /-- The sender's mask bits. -/
  share : List UInt8
  /-- The digest of the matching MACs. -/
  digest : D

/-- What the non-recipient of `decode` sends. -/
def decodeSend {D : Type} (E : EmpTool D) (w : SecureWires) : OpenMsg D where
  share := shareMsg w.wireBundle
  digest := E.hash (w.wireBundle.map AShareBundle.mac)

/-- What the recipient of `decode` makes of the peer's message: check the digest, then
`y_w = Λ_w ⊕ λ_w`, reduced to its low bit. -/
def decodeReceive {D : Type} [DecidableEq D] (E : EmpTool D) (Δ : Block) (w : SecureWires)
    (m : OpenMsg D) : Except String (List UInt8) :=
  if E.hash (expMacs E Δ w.wireBundle m.share) ≠ m.digest then
    .error "decode: peer share-MAC hash mismatch"
  else .ok ((List.zipWith (· ^^^ ·) (List.zipWith (· ^^^ ·) (shareMsg w.wireBundle) w.Lambda)
    m.share).map (· &&& 1))

/-- What the garbler makes of the bytes the evaluator broadcasts in a `PUBLIC` decode. -/
def decodePublic (buf : List UInt8) : List UInt8 := buf.map (· &&& 1)

/-- `decode(wires, PUBLIC)` at the evaluator, on the garbler's message. -/
def decodePublic₂ {D : Type} [DecidableEq D] (E : EmpTool D) (Δ : Block) (w : SecureWires)
    (m : OpenMsg D) : Except String (List UInt8) := do
  w.check .bob "decode"
  decodeReceive E Δ w m

/-- `decode(wires, PUBLIC)` at the garbler, on the bytes the evaluator broadcasts. -/
def decodePublic₁ (w : SecureWires) (buf : List UInt8) : Except String (List UInt8) := do
  w.check .alice "decode"
  return decodePublic buf

/-- `decode` at both parties. A recipient other than the two parties and `PUBLIC` receives
nothing and neither party waits for anything: both send. -/
def decode {D : Type} [DecidableEq D] (E : EmpTool D) (Δ : Deltas) (w₁ w₂ : SecureWires)
    (recipient : Owner) : Except String (List UInt8 × List UInt8) := do
  w₁.check .alice "decode"
  w₂.check .bob "decode"
  match recipient with
  | .PUBLIC =>
    let v₂ ← decodePublic₂ E Δ.d2 w₂ (decodeSend E w₁)
    let v₁ ← decodePublic₁ w₁ v₂
    return (v₁, v₂)
  | .ALICE =>
    let v ← decodeReceive E Δ.d1 w₁ (decodeSend E w₂)
    return (v, [])
  | .BOB =>
    let v ← decodeReceive E Δ.d2 w₂ (decodeSend E w₁)
    return ([], v)
  | .other _ => return ([], [])

end AG2PC
