import AG2PC.Backend.EngineCorrect
import AG2PC.Backend.HashPads
import AG2PC.Backend.ShareOpening
import AG2PC.Library.Runs
import Mathlib.Algebra.GroupWithZero.Nat
import Mathlib.Data.List.GetD

/-!
# One honest party

What an honest party knows of its wires when the peer may do anything: its opened masks are bits under masks that it
shares with the peer. Labels are left out; nothing a party checks depends on them.

* `MasksOpen` — the relation, for the wires of either party.
* `openingGuesses` — when the peer opens shares under the digest of some blocks, each of these is a value of the party's
  `Δ` that the peer bets on.
* `MasksOpen.inputs`, `MasksOpen.decode` — the openings of `process_inputs` and `decode`: what is accepted is right, or
  `Δ` is among the bets.
* `PartyStep` — the calls of the party's protocol object, on any wires made before; the engine is a parameter.
* `partyChain_sound` — over any calls that do not abort the party holds and returns the right bits, or the peer bet on
  its `Δ`, when so it is for a run of the engine.
-/

namespace AG2PC

open Library.XorAlgebra Library.ByIndex Library.Runs

/-- The shares of a party and of its peer authenticate each other's bits. -/
def SharesWith (Δ : Deltas) : Party → AShareBundle → AShareBundle → Prop
  | .alice, own, peer => MacRel Δ own peer
  | .bob, own, peer => MacRel Δ peer own

/-- The peer's MAC under the party's key. -/
theorem SharesWith.mac {Δ : Deltas} {p : Party} {own peer : AShareBundle} (h : SharesWith Δ p own peer) :
    peer.mac = own.key ^^^ scale (LSB peer.mac) (Δ.of p) := by
  cases p with
  | alice => exact h.mac₂
  | bob => exact h.mac₁

theorem shareBit_comm (s t : AShareBundle) : shareBit s t = shareBit t s := Bool.xor_comm _ _

/-- The opened masks of the wires `w` of party `p` are the bits `x` under the masks that it shares with `peer`, the
peer's shares. -/
structure MasksOpen (Δ : Deltas) (p : Party) (peer : List AShareBundle) (w : SecureWires) (x : List Bool) : Prop where
  wf : w.WellFormed p x.length
  peer_length : peer.length = x.length
  rel : ∀ i < x.length, SharesWith Δ p (w.bundleAt i) (peer.getD i .zero)
  mask : ∀ i < x.length, w.lambdaAt i = byteOf (x.getD i false ^^ shareBit (w.bundleAt i) (peer.getD i .zero))

/-- The wires `ids` of a bundle, one after another. -/
def SecureWires.gather (w : SecureWires) (ids : List ℕ) : SecureWires where
  Lambda := ids.map w.lambdaAt
  wireBundle := ids.map w.bundleAt
  label0 := ids.map w.label0At
  evalLabel := ids.map w.evalLabelAt

/-- A garbler's bundle with the shares `own`, the opened masks `Lambda` and some labels. -/
def garblerWires (own : List AShareBundle) (Lambda : List UInt8) (label0 : List Block) : SecureWires where
  Lambda := Lambda
  wireBundle := own
  label0 := label0

/-- An evaluator's. -/
def evaluatorWires (own : List AShareBundle) (Lambda : List UInt8) (evalLabel : List Block) : SecureWires where
  Lambda := Lambda
  wireBundle := own
  evalLabel := evalLabel

namespace MasksOpen

variable {Δ : Deltas} {p : Party} {peer peer' : List AShareBundle} {w w' : SecureWires} {x x' : List Bool}

/-- No wires. -/
theorem nil : MasksOpen Δ p [] {} [] where
  wf := ⟨rfl, rfl, by cases p <;> rfl⟩
  peer_length := rfl
  rel _ hi := absurd hi (Nat.not_lt_zero _)
  mask _ hi := absurd hi (Nat.not_lt_zero _)

/-- The masks of an encoding, at the evaluator. -/
theorem of_encodes₂ {w₁ : SecureWires} (h : Encodes Δ w₁ w x) : MasksOpen Δ .bob w₁.wireBundle w x where
  wf := h.wf₂
  peer_length := h.wf₁.bundle
  rel i hi := (h.wire i hi).rel
  mask i hi := by
    rw [(h.wire i hi).mask, shareBit_comm]
    rfl

/-- The masks of an encoding, at the garbler. -/
theorem of_encodes₁ {w₂ : SecureWires} (h : Encodes Δ w w₂ x) : MasksOpen Δ .alice w₂.wireBundle w x where
  wf := h.wf₁
  peer_length := h.wf₂.bundle
  rel i hi := (h.wire i hi).rel
  mask i hi := (h.lambda i hi).trans (h.wire i hi).mask

/-- An entry of two lists, the first of length `n`. -/
theorem getD_append_of_length {α : Type} {l l' : List α} {n i : ℕ} (d : α) (h : l.length = n) :
    (l ++ l').getD i d = if i < n then l.getD i d else l'.getD (i - n) d := by
  split_ifs with hi
  · exact List.getD_append _ _ _ _ (h ▸ hi)
  · rw [List.getD_append_right _ _ _ _ (by omega), h]

/-- Wires after wires. -/
theorem append (h : MasksOpen Δ p peer w x) (h' : MasksOpen Δ p peer' w' x') :
    MasksOpen Δ p (peer ++ peer') (w.append w') (x ++ x') := by
  have hsize : w.Lambda.length = x.length := h.wf.size
  have hsize' : w'.Lambda.length = x'.length := h'.wf.size
  refine ⟨⟨?_, ?_, ?_⟩, ?_, fun i hi => ?_, fun i hi => ?_⟩
  · simp [SecureWires.size, SecureWires.append, hsize, hsize']
  · simp [SecureWires.append, h.wf.bundle, h'.wf.bundle]
  · have hlabels := h.wf.labels
    have hlabels' := h'.wf.labels
    cases p <;> simp_all [SecureWires.labels, SecureWires.append]
  · simp [h.peer_length, h'.peer_length]
  · simp only [SecureWires.bundleAt, SecureWires.append, getD_append_of_length _ h.peer_length,
      getD_append_of_length _ h.wf.bundle]
    rw [List.length_append] at hi
    split_ifs with hlt
    · exact h.rel i hlt
    · exact h'.rel _ (by omega)
  · simp only [SecureWires.bundleAt, SecureWires.lambdaAt, SecureWires.append, getD_append_of_length _ h.peer_length,
      getD_append_of_length _ h.wf.bundle, getD_append_of_length _ hsize, getD_append_of_length false rfl]
    rw [List.length_append] at hi
    split_ifs with hlt
    · exact h.mask i hlt
    · exact h'.mask _ (by omega)

/-- Some of the wires. -/
theorem gather (h : MasksOpen Δ p peer w x) {ids : List ℕ} (hids : ∀ i ∈ ids, i < x.length) :
    MasksOpen Δ p (ids.map (peer.getD · .zero)) (w.gather ids) (ids.map (x.getD · false)) := by
  have hlen : (ids.map (x.getD · false)).length = ids.length := List.length_map _
  refine ⟨⟨?_, ?_, ?_⟩, ?_, fun i hi => ?_, fun i hi => ?_⟩
  · simp [SecureWires.size, SecureWires.gather]
  · simp [SecureWires.gather]
  · cases p <;> simp [SecureWires.labels, SecureWires.gather]
  · simp
  · rw [hlen] at hi
    simp only [SecureWires.bundleAt, SecureWires.gather]
    rw [getD_map_of_lt _ 0 _ hi, getD_map_of_lt _ 0 _ hi]
    exact h.rel _ (hids _ (getD_mem 0 hi))
  · rw [hlen] at hi
    simp only [SecureWires.bundleAt, SecureWires.lambdaAt, SecureWires.gather]
    rw [getD_map_of_lt _ 0 _ hi, getD_map_of_lt _ 0 _ hi, getD_map_of_lt _ 0 _ hi, getD_map_of_lt _ 0 _ hi]
    exact h.mask _ (hids _ (getD_mem 0 hi))

/-- The garbler's side of an evaluator's wires. -/
theorem sharesAgree₂ (h : MasksOpen Δ .bob peer w x) {label0 : List Block} (hlen : label0.length = x.length) :
    SharesAgree Δ (garblerWires peer w.Lambda label0) w x.length where
  wf₁ := ⟨h.wf.size, h.peer_length, hlen⟩
  wf₂ := h.wf
  lambda _ _ := rfl
  rel := h.rel

/-- The evaluator's side of a garbler's wires. -/
theorem sharesAgree₁ (h : MasksOpen Δ .alice peer w x) {evalLabel : List Block} (hlen : evalLabel.length = x.length) :
    SharesAgree Δ w (evaluatorWires peer w.Lambda evalLabel) x.length where
  wf₁ := h.wf
  wf₂ := ⟨h.wf.size, h.peer_length, hlen⟩
  lambda _ _ := rfl
  rel := h.rel

/-- The shares as an opening to the party sees them. -/
theorem sharesUnder (h : MasksOpen Δ p peer w x) : SharesUnder (Δ.of p) w.wireBundle peer x.length where
  own_length := h.wf.bundle
  peer_length := h.peer_length
  mac i hi := (h.rel i hi).mac

end MasksOpen

/-! ### Openings -/

/-- Opening shares under the digest of `V`: entry by entry, what `V` holds off the true MAC. -/
def openingGuesses (peer : List AShareBundle) (V : List Block) : List Block :=
  (List.range peer.length).map fun i => V.getD i zeroBlock ^^^ (peer.getD i .zero).mac

theorem length_openingGuesses (peer : List AShareBundle) (V : List Block) :
    (openingGuesses peer V).length = peer.length := by
  rw [openingGuesses, List.length_map, List.length_range]

/-- Blocks that miss `Δ` in the sense of an opening. -/
theorem missesDelta_of_not_mem {δ : Block} {peer : List AShareBundle} {V : List Block}
    (h : δ ∉ openingGuesses peer V) : MissesDelta δ peer V peer.length :=
  fun i hi heq => h (heq ▸ List.mem_map.mpr ⟨i, List.mem_range.mpr hi, rfl⟩)

/-- The input bits a party sends with a request: those it claims for its wires. -/
def claimedBits (groups : List InputGroup) (p : Party) : List UInt8 :=
  ownXPacked p (ownerOfWire (groupOwners groups) (groupBits groups p))
    (ownXBits p (groupOwners groups) (groupBits groups p))

/-- A party in a request, with the shares it has drawn and the labels the garbler has sampled. -/
def requestSide (Δ : Deltas) (groups : List InputGroup) (p : Party) (bundle : List AShareBundle) (labels : List Block) :
    InputSide :=
  ⟨p, Δ.of p, groupOwners groups, groupBits groups p, bundle, p.pick (labels, [])⟩

section

variable {D : Type} [DecidableEq D] {E : EmpTool D} {Δ : Deltas} {p : Party} {peer : List AShareBundle}
  {w : SecureWires} {x share : List Bool} {V : List Block}

/-- **A party that accepts the opening of a request** holds the bits of the request, the peer's as claimed, or the peer
bet on `Δ`. The labels are those it sampled or received. -/
theorem MasksOpen.inputs (hE : Function.Injective E.hash) {groups : List InputGroup} {n : ℕ} {own : List AShareBundle}
    (hn : (groups.flatMap InputGroup.wires).length = n) (hown : own.length = n) (hpeer : peer.length = n)
    (hrel : ∀ i < n, SharesWith Δ p (own.getD i .zero) (peer.getD i .zero)) (hshare : share.length = n)
    (hV : V.length = n) {labels : List Block} (hlabels : labels.length = n) {Lambda : List UInt8}
    (hreceive : (requestSide Δ groups p own labels).receive E
      ⟨share.map byteOf, E.hash V, claimedBits groups p.peer⟩ = .ok Lambda) :
    Δ.of p ∈ openingGuesses peer V ∨
      MasksOpen Δ p peer ((requestSide Δ groups p own labels).wires Lambda labels)
        (groups.map InputGroup.value).flatten := by
  by_cases hmem : Δ.of p ∈ openingGuesses peer V
  · exact .inl hmem
  have hmiss := missesDelta_of_not_mem hmem
  rw [hpeer] at hmiss
  have hunder : SharesUnder (Δ.of p) own peer n := ⟨hown, hpeer, fun i hi => (hrel i hi).mac⟩
  obtain ⟨hdigest, hLambda⟩ := receive_ok_iff.mp hreceive
  have htrue := ((hash_expMacs_iff hE hunder hshare hV).mp hdigest).bits_eq hmiss hpeer hshare
  -- the masks are those of an honest peer with these shares
  have hopened : Lambda = (List.range n).map fun i =>
      byteOf (wireValue (wireAt (groups.flatMap InputGroup.wires) i) ^^
        shareBit (own.getD i .zero) (peer.getD i .zero)) := by
    have hhonest : (requestSide Δ groups p own labels).openedMask
        ((requestSide Δ groups p.peer peer []).send E) = _ :=
      openedMask_eq hn rfl ⟨rfl, rfl⟩ ⟨rfl, rfl⟩ hown hpeer
    rw [hLambda, htrue]
    exact hhonest
  have hvalue : (groups.map InputGroup.value).flatten.length = n := by
    rw [← flatMap_wireValue, List.length_map, hn]
  refine .inr ⟨⟨?_, ?_, ?_⟩, ?_, fun i hi => ?_, fun i hi => ?_⟩
  · rw [hvalue, hopened]
    simp [SecureWires.size, InputSide.wires]
  · rw [hvalue]
    exact hown
  · rw [hvalue, ← hlabels]
    cases p <;> rfl
  · rw [hvalue, hpeer]
  · rw [hvalue] at hi
    exact hrel i hi
  · rw [hvalue] at hi
    simp only [SecureWires.lambdaAt, InputSide.wires, hopened]
    rw [getD_map_range _ _ hi, ← flatMap_wireValue, getD_map_of_lt _ (.alice, false, false) _ (hn ▸ hi)]
    rfl

/-- The bytes decoded from the peer's true bits. -/
theorem MasksOpen.openedBytes (h : MasksOpen Δ p peer w x) :
    (List.zipWith (· ^^^ ·) (List.zipWith (· ^^^ ·) (shareMsg w.wireBundle) w.Lambda) (shareMsg peer)).map (· &&& 1) =
      x.map byteOf := by
  have hlen : (shareMsg peer).length = x.length := (List.length_map _).trans h.peer_length
  rw [openedBytes_eq h.wf.size h.wf.bundle hlen, map_eq_range byteOf false rfl, map_range_inj]
  intro i hi
  have hbit : (shareMsg peer).getD i 0 = byteOf (LSB (peer.getD i .zero).mac) :=
    getD_map_of_lt _ _ _ (h.peer_length ▸ hi)
  rw [hbit, lowBit_byteOf, h.mask i hi, lowBit_byteOf, shareBit]
  cases LSB (w.bundleAt i).mac <;> cases x.getD i false <;> cases LSB (peer.getD i .zero).mac <;> rfl

/-- **A party that accepts the opening of its wires** returns their bits, or the peer bet on `Δ`. -/
theorem MasksOpen.decode (hE : Function.Injective E.hash) (h : MasksOpen Δ p peer w x)
    (hshare : share.length = x.length) (hV : V.length = x.length) {v : List UInt8}
    (hv : decodeAt E p (Δ.of p) w ⟨share.map byteOf, E.hash V⟩ = .ok v) :
    Δ.of p ∈ openingGuesses peer V ∨ v = x.map byteOf := by
  by_cases hmem : Δ.of p ∈ openingGuesses peer V
  · exact .inl hmem
  have hmiss := missesDelta_of_not_mem hmem
  rw [h.peer_length] at hmiss
  obtain ⟨hdigest, hbytes⟩ := (decodeAt_ok_iff h.wf).mp hv
  have htrue := ((hash_expMacs_iff hE h.sharesUnder hshare hV).mp hdigest).bits_eq hmiss h.peer_length hshare
  rw [htrue, h.openedBytes] at hbytes
  exact .inr hbytes

/-- It accepts an honest one. -/
theorem MasksOpen.decode_honest (h : MasksOpen Δ p peer w x) :
    decodeAt E p (Δ.of p) w ⟨(peer.map fun s => LSB s.mac).map byteOf, E.hash (peer.map AShareBundle.mac)⟩ =
      .ok (x.map byteOf) := by
  have hshare : (peer.map fun s => LSB s.mac).map byteOf = shareMsg peer := List.map_map
  refine (decodeAt_ok_iff h.wf).mpr ⟨congrArg E.hash ?_, ?_⟩
  · have hlen : (peer.map fun s => LSB s.mac).length = x.length := (List.length_map _).trans h.peer_length
    rw [expMacs_bits h.wf.bundle hlen, map_eq_range AShareBundle.mac .zero h.peer_length, map_range_inj]
    intro i hi
    rw [getD_map_of_lt _ .zero _ (h.peer_length ▸ hi)]
    exact (h.sharesUnder.mac i hi).symm
  · rw [hshare, h.openedBytes]

end

/-! ### Calls -/

/-- The pool when `compute_inplace` has made the triples of `L` gates. -/
def TriplePool.afterTriples (ssp L : ℕ) (t : TriplePool) : TriplePool :=
  if L = 0 then t else { used := t.used + L + 3 * L * (getBucketSize ssp L - 1), cotsMintedSinceCheck := true }

/-- A party between two calls: its pool and the wires it holds. Beside them stands what the code does not have, the
peer's shares of the wires and the bits the wires carry. -/
structure PartyWorld where
  /-- The pool. -/
  pool : TriplePool := {}
  /-- Every wire made so far. -/
  wires : SecureWires := {}
  /-- The peer's shares of them. -/
  peer : List AShareBundle := []
  /-- Their bits. -/
  value : List Bool := []

/-- More wires. -/
def PartyWorld.add (w : PartyWorld) (pool : TriplePool) (peer : List AShareBundle) (wires : SecureWires)
    (x : List Bool) : PartyWorld := ⟨pool, w.wires.append wires, w.peer ++ peer, w.value ++ x⟩

/-- What a call shows. -/
structure CallRecord where
  /-- The bytes it returns that it has opened. -/
  out : List UInt8 := []
  /-- The bits it is to return. -/
  clear : List Bool := []
  /-- The blocks the peer bets on. -/
  guesses : List Block := []
  /-- How many bits and ANDs the call checks. -/
  checked : ℕ := 0
  /-- The bytes it returns on the peer's word. -/
  told : List UInt8 := []

/-- The parties that open the wires of a `decode`. In a `PUBLIC` one it is the evaluator, which then broadcasts. -/
def Owner.opensAt : Owner → Party → Bool
  | .ALICE, .alice => true
  | .BOB, .bob => true
  | .PUBLIC, .bob => true
  | _, _ => false

/-- The world holds the bits it stands for. -/
def PartyWorld.Opens (Δ : Deltas) (p : Party) (w : PartyWorld) : Prop := MasksOpen Δ p w.peer w.wires w.value

/-- A call that party `p` makes and that does not abort, on what the peer sends: share bits `share` under the digest of
the blocks `V`, claimed input bits, the peer's column of `groups`, and any bytes in the broadcast of a `PUBLIC` decode.
Share and input bytes are bits. The code indexes a table of two with the share bytes, and the garbler with the masks in
which the input bytes end; at the evaluator another input byte leaves a mask that its ANDs and its openings read
differently. A request without wires is not a call: it draws and sends nothing. `Engine` is what a run of the engine may
do. -/
inductive PartyStep {D : Type} [DecidableEq D] (S : Setup D) (p : Party)
    (Engine : PartyWorld → CallRecord → PartyWorld → Prop) : PartyWorld → CallRecord → PartyWorld → Prop
  /-- `public_wires`. -/
  | publicWires (w : PartyWorld) (bits : List UInt8) :
      PartyStep S p Engine w {}
        (w.add w.pool (bits.map fun _ => .zero) (publicWires p (S.Δ.of p) bits) (bits.map truthy))
  /-- `process_inputs`, with the labels the garbler samples or the evaluator receives. -/
  | processInputs (w : PartyWorld) (groups : List InputGroup) {n : ℕ} {own peer : List AShareBundle} {share : List Bool}
      {V labels : List Block} {Lambda : List UInt8} (hn : inputTotal (groupBits groups p) = n) (hpos : n ≠ 0)
      (hown : (List.range n).map (w.pool.draw (p.pick (S.cot₁, S.cot₂)) n).1 = own)
      (hpeer : (List.range n).map (w.pool.draw (p.peer.pick (S.cot₁, S.cot₂)) n).1 = peer)
      (hshare : share.length = n) (hV : V.length = n) (hlabels : labels.length = n)
      (hreceive : (requestSide S.Δ groups p own labels).receive S.tool
        ⟨share.map byteOf, S.tool.hash V, claimedBits groups p.peer⟩ = .ok Lambda) :
      PartyStep S p Engine w { guesses := openingGuesses peer V, checked := n }
        (w.add (w.pool.draw (p.pick (S.cot₁, S.cot₂)) n).2 peer
          ((requestSide S.Δ groups p own labels).wires Lambda labels) (groups.map InputGroup.value).flatten)
  /-- `run_source` or `run_program`. -/
  | engine {w w' : PartyWorld} {r : CallRecord} (h : Engine w r w') : PartyStep S p Engine w r w'
  /-- `decode` of the wires `ids`, when the party opens them. -/
  | decode (w : PartyWorld) (recipient : Owner) {ids : List ℕ} {share : List Bool} {V : List Block} {v : List UInt8}
      (hopens : recipient.opensAt p = true) (hids : ∀ i ∈ ids, i < w.value.length) (hshare : share.length = ids.length)
      (hV : V.length = ids.length)
      (hdecode : decodeAt S.tool p (S.Δ.of p) (w.wires.gather ids) ⟨share.map byteOf, S.tool.hash V⟩ = .ok v) :
      PartyStep S p Engine w
        { out := v, clear := ids.map (w.value.getD · false)
          guesses := openingGuesses (ids.map (w.peer.getD · .zero)) V, checked := ids.length } w
  /-- `decode` to the peer, or to nobody: the party sends its opening and receives nothing. -/
  | decodeSend (w : PartyWorld) (recipient : Owner) {ids : List ℕ} (hopens : recipient.opensAt p = false)
      (hpublic : recipient ≠ .PUBLIC) (hids : ∀ i ∈ ids, i < w.value.length) : PartyStep S p Engine w {} w
  /-- A `PUBLIC` decode at the garbler, on the bytes the evaluator broadcasts. -/
  | decodePublic (w : PartyWorld) {ids : List ℕ} {buf v : List UInt8} (hparty : p = .alice)
      (hids : ∀ i ∈ ids, i < w.value.length) (hbuf : buf.length = ids.length)
      (hdecode : decodePublic₁ (w.wires.gather ids) buf = .ok v) : PartyStep S p Engine w { told := v } w

section

variable {D : Type} {S : Setup D} {C : CotStream S.Δ} {p : Party}
  {Engine : PartyWorld → CallRecord → PartyWorld → Prop} {w w' : PartyWorld} {r : CallRecord}

/-- The COT outputs at a party and its peer authenticate each other. -/
theorem sharesWith_cot (h₁ : S.cot₁ = C.s₁) (h₂ : S.cot₂ = C.s₂) (i : ℕ) :
    SharesWith S.Δ p (p.pick (S.cot₁, S.cot₂) i) (p.peer.pick (S.cot₁, S.cot₂) i) := by
  rw [h₁, h₂]
  cases p with
  | alice => exact C.rel i
  | bob => exact C.rel i

/-- The wires of public bits. -/
theorem masksOpen_publicWires (Δ : Deltas) (p : Party) (bits : List UInt8) :
    MasksOpen Δ p (bits.map fun _ => .zero) (publicWires p (Δ.of p) bits) (bits.map truthy) := by
  cases p with
  | alice => exact .of_encodes₁ (encodes_publicWires Δ bits)
  | bob => exact .of_encodes₂ (encodes_publicWires Δ bits)

/-- The peer bets on one block for each bit and each AND that is checked. -/
theorem PartyStep.length_guesses [DecidableEq D] (hengine : ∀ w r w', Engine w r w' → r.guesses.length = r.checked)
    (h : PartyStep S p Engine w r w') : r.guesses.length = r.checked := by
  cases h with
  | publicWires => rfl
  | processInputs groups hn hpos hown hpeer => simp [length_openingGuesses, ← hpeer]
  | engine h => exact hengine _ _ _ h
  | decode => simp [length_openingGuesses]
  | decodeSend => rfl
  | decodePublic => rfl

/-- **One call**: the party still holds the right bits and what it returns is right, or the peer bet on its `Δ`. -/
theorem PartyStep.sound [DecidableEq D] (h₁ : S.cot₁ = C.s₁) (h₂ : S.cot₂ = C.s₂) (hE : Function.Injective S.tool.hash)
    (hengine : ∀ w r w', w.Opens S.Δ p → Engine w r w' →
      S.Δ.of p ∈ r.guesses ∨ w'.Opens S.Δ p ∧ r.out = r.clear.map byteOf)
    (hw : w.Opens S.Δ p) (h : PartyStep S p Engine w r w') :
    S.Δ.of p ∈ r.guesses ∨ w'.Opens S.Δ p ∧ r.out = r.clear.map byteOf := by
  cases h with
  | publicWires bits => exact .inr ⟨hw.append (masksOpen_publicWires S.Δ p bits), rfl⟩
  | @processInputs groups n _ _ _ _ _ _ hn _ hown hpeer hshare hV hlabels hreceive =>
    subst hown hpeer
    have hlen : ∀ f : ℕ → AShareBundle, ((List.range n).map f).length = n := fun f => by simp
    refine (MasksOpen.inputs hE ((length_flatMap_wires groups p).trans hn) (hlen _) (hlen _) (fun i hi => ?_) hshare hV
      hlabels hreceive).imp_right fun hopen => ⟨hw.append hopen, rfl⟩
    rw [getD_map_range _ _ hi, getD_map_range _ _ hi]
    exact sharesWith_cot h₁ h₂ _
  | engine h => exact hengine _ _ _ hw h
  | @decode _ ids _ _ _ _ hids hshare hV hdecode =>
    have hlen : (ids.map (w.value.getD · false)).length = ids.length := List.length_map _
    exact ((hw.gather hids).decode hE (hshare.trans hlen.symm) (hV.trans hlen.symm) hdecode).imp_right
      fun hout => ⟨hw, hout⟩
  | decodeSend => exact .inr ⟨hw, rfl⟩
  | decodePublic => exact .inr ⟨hw, rfl⟩

/-- **Calls of a party**, in any order: over a sound engine the party holds and returns the right bits, or its `Δ` is
one of the blocks the peer bet on, one for each bit and each AND that was checked. -/
theorem partyChain_sound [DecidableEq D] (h₁ : S.cot₁ = C.s₁) (h₂ : S.cot₂ = C.s₂) (hE : Function.Injective S.tool.hash)
    (hlen : ∀ w r w', Engine w r w' → r.guesses.length = r.checked)
    (hengine : ∀ w r w', w.Opens S.Δ p → Engine w r w' →
      S.Δ.of p ∈ r.guesses ∨ w'.Opens S.Δ p ∧ r.out = r.clear.map byteOf)
    {recs : List CallRecord} (hrun : Chain (PartyStep S p Engine) {} recs w) :
    (recs.flatMap CallRecord.guesses).length = (recs.map CallRecord.checked).sum ∧
      (S.Δ.of p ∈ recs.flatMap CallRecord.guesses ∨ w.Opens S.Δ p ∧ ∀ r ∈ recs, r.out = r.clear.map byteOf) := by
  constructor
  · have hone := hrun.forall_mem fun _ _ _ h => h.length_guesses hlen
    rw [List.length_flatMap, List.map_congr_left hone]
  · have hstart : ({} : PartyWorld).Opens S.Δ p := .nil
    rcases hrun.upTo (I := fun w => w.Opens S.Δ p) (fun _ _ _ hw h => h.sound h₁ h₂ hE hengine hw) hstart with
      ⟨r, hr, hbet⟩ | hgood
    · exact .inl (List.mem_flatMap.mpr ⟨r, hr, hbet⟩)
    · exact .inr hgood

end

/-- A party with two public ones. -/
def publicOnes (p : Party) : PartyWorld :=
  PartyWorld.add {} {} [.zero, .zero] (publicWires p ((Deltas.init 0 0).of p) [1, 1]) [true, true]

theorem publicOnes_opens (p : Party) : (publicOnes p).Opens (.init 0 0) p :=
  MasksOpen.nil.append (masksOpen_publicWires (.init 0 0) p [1, 1])

end AG2PC
