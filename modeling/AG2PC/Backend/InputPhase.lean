import AG2PC.Backend.AuthenticatedAnd
import AG2PC.Backend.InputPrivacy
import AG2PC.Backend.Reveal

/-!
# What inputs encode

The wires two honest parties get for a value: the public constants of `public_wires`, and the groups of
`process_inputs`.

* `encodes_publicWires` — the two parties' wires of public bits encode the bits.
* `processInputs_ok` — the input phase does not abort, and each group encodes its owner's bits.
-/

namespace AG2PC

open Library.XorAlgebra Library.ByIndex

/-- **Public wires** encode their bits. -/
theorem encodes_publicWires (Δ : Deltas) (bits : List UInt8) :
    Encodes Δ (publicWires .alice Δ.d1 bits) (publicWires .bob Δ.d2 bits) (bits.map truthy) := by
  have hlen : (bits.map truthy).length = bits.length := List.length_map _
  refine EvaluatorEncodes.encodes ⟨⟨?_, ?_, ?_⟩, ⟨?_, ?_, ?_⟩, fun i hi => ?_⟩ fun _ _ => rfl
  all_goals simp only [hlen] at *
  · simp [SecureWires.size, publicWires]
  · simp [publicWires]
  · simp [SecureWires.labels, publicWires]
  · simp [SecureWires.size, publicWires]
  · simp [publicWires]
  · simp [SecureWires.labels, publicWires]
  · simp only [SecureWires.bundleAt, SecureWires.lambdaAt, SecureWires.label0At, SecureWires.evalLabelAt,
      publicWires]
    rw [getD_map_of_lt _ 0 _ hi, getD_map_of_lt _ 0 _ hi, getD_map_of_lt _ 0 _ hi, getD_map_of_lt _ 0 _ hi,
      getD_map_of_lt _ 0 _ hi]
    have h := WireEncodes.const (Δ := Δ) (truthy (bits.getD i 0))
    rwa [scale] at h

/-! ### Requests -/

/-- One group of an input request as the two parties pass it. -/
structure InputGroup where
  /-- The party whose input it is. -/
  owner : Party
  /-- The bits the garbler passes. -/
  alice : List Bool
  /-- The bits the evaluator passes. -/
  bob : List Bool
  width_eq : alice.length = bob.length

namespace InputGroup

/-- The owner's bits. -/
def value (g : InputGroup) : List Bool :=
  match g.owner with
  | .alice => g.alice
  | .bob => g.bob

theorem length_value (g : InputGroup) : g.value.length = g.alice.length := by
  unfold value
  split
  · rfl
  · exact g.width_eq.symm

/-- The wires of a group: the owner, and the bit each party passes. -/
def wires (g : InputGroup) : List (Party × Bool × Bool) := (g.alice.zip g.bob).map fun p => (g.owner, p)

end InputGroup

/-- The bit that counts at a wire. -/
def wireValue (w : Party × Bool × Bool) : Bool :=
  match w.1 with
  | .alice => w.2.1
  | .bob => w.2.2

/-- The bit a party passes at a wire. -/
def wireBit (w : Party × Bool × Bool) : Party → Bool
  | .alice => w.2.1
  | .bob => w.2.2

theorem map_wireValue (g : InputGroup) : g.wires.map wireValue = g.value := by
  obtain ⟨owner, a, b, hlen⟩ := g
  cases owner <;> simp only [InputGroup.wires, InputGroup.value, List.map_map]
  · exact List.map_fst_zip (Nat.le_of_eq hlen)
  · exact List.map_snd_zip (Nat.le_of_eq hlen.symm)

theorem flatMap_wireValue (groups : List InputGroup) :
    (groups.flatMap InputGroup.wires).map wireValue = (groups.map InputGroup.value).flatten := by
  rw [List.map_flatMap, ← List.flatMap_def]
  exact List.flatMap_congr fun g _ => map_wireValue g

/-! ### The bits of a request by wire -/

section

variable (groups : List InputGroup)

/-- The owners as the protocol takes them. -/
def groupOwners : List Owner := groups.map fun g => .ofParty g.owner

/-- The bits a party passes, as the protocol takes them. -/
def groupBits (p : Party) : List (List UInt8) :=
  groups.map fun g => match p with
    | .alice => g.alice.map byteOf
    | .bob => g.bob.map byteOf

/-- The group's bits at a party, wire by wire. -/
theorem group_bits (g : InputGroup) (p : Party) :
    (match p with
      | .alice => g.alice.map byteOf
      | .bob => g.bob.map byteOf) = g.wires.map fun w => byteOf (wireBit w p) := by
  obtain ⟨owner, a, b, hlen⟩ := g
  cases p <;> simp only [InputGroup.wires, List.map_map]
  · conv_lhs => rw [← List.map_fst_zip (Nat.le_of_eq hlen), List.map_map]
    rfl
  · conv_lhs => rw [← List.map_snd_zip (Nat.le_of_eq hlen.symm), List.map_map]
    rfl

theorem zip_groups (p : Party) :
    (groupOwners groups).zip (groupBits groups p) =
      groups.map fun g => (Owner.ofParty g.owner, g.wires.map fun w => byteOf (wireBit w p)) := by
  rw [groupOwners, groupBits, List.zip_map']
  exact List.map_congr_left fun g _ => congrArg _ (group_bits g p)

/-- `owner_of_wire`. -/
theorem ownerOfWire_groups (p : Party) :
    ownerOfWire (groupOwners groups) (groupBits groups p) =
      (groups.flatMap InputGroup.wires).map fun w => Owner.ofParty w.1 := by
  rw [ownerOfWire, zip_groups, List.flatMap_map, List.map_flatMap]
  refine List.flatMap_congr fun g _ => ?_
  simp only [InputGroup.wires, List.map_map]
  rfl

/-- `own_x_bits`. -/
theorem ownXBits_groups (p : Party) :
    ownXBits p (groupOwners groups) (groupBits groups p) =
      (groups.flatMap InputGroup.wires).map fun w => if w.1 = p then byteOf (wireBit w p) else 0 := by
  rw [ownXBits, zip_groups, List.flatMap_map, List.map_flatMap]
  refine List.flatMap_congr fun g _ => ?_
  dsimp only
  rw [Owner.isParty_ofParty]
  by_cases hp : g.owner = p
  · rw [if_pos (decide_eq_true hp)]
    refine List.map_congr_left fun w hw => ?_
    obtain ⟨q, -, rfl⟩ := List.mem_map.mp hw
    exact (if_pos hp).symm
  · rw [if_neg (by simpa using hp), List.map_map]
    refine List.map_congr_left fun w hw => ?_
    obtain ⟨q, -, rfl⟩ := List.mem_map.mp hw
    exact (if_neg hp).symm

/-- The peer's packed bits come out at the wires the peer owns. -/
theorem peerXBits_packed (p : Party) (ws : List (Party × Bool × Bool)) :
    peerXBits p (ws.map fun w => Owner.ofParty w.1)
        (ownXPacked p.peer (ws.map fun w => Owner.ofParty w.1)
          (ws.map fun w => if w.1 = p.peer then byteOf (wireBit w p.peer) else 0)) =
      ws.map fun w => if w.1 = p then 0 else byteOf (wireBit w p.peer) := by
  unfold ownXPacked
  induction ws with
  | nil => rfl
  | cons w ws ih =>
    rw [List.map_cons, List.map_cons, List.zip_cons_cons, peerXBits, Owner.isParty_ofParty]
    by_cases hp : w.1 = p
    · have hpeer : ¬ w.1 = p.peer := by
        rw [hp]
        cases p <;> decide
      rw [List.filterMap_cons_none (by simp [hpeer]), if_pos (decide_eq_true hp), ih, List.map_cons, if_pos hp]
    · have hpeer : w.1 = p.peer := by
        revert hp
        obtain ⟨q, -⟩ := w
        cases q <;> cases p <;> simp [Party.peer]
      rw [List.filterMap_cons_some (b := byteOf (wireBit w p.peer)) (by simp [hpeer]),
        if_neg (by simpa using hp), List.headD_cons, List.tail_cons, ih, List.map_cons, if_neg hp]

theorem length_groupBits (p : Party) :
    (groupBits groups p).map List.length = groups.map fun g => g.alice.length := by
  rw [groupBits, List.map_map]
  refine List.map_congr_left fun g _ => ?_
  cases p
  · exact List.length_map _
  · exact (List.length_map _).trans g.width_eq.symm

end

/-! ### Slices -/

section

variable {Δ : Deltas} {w₁ w₂ : SecureWires} {v : List Bool}

theorem getD_drop_take {α : Type} (l : List α) (d : α) {lo n i : ℕ} (hi : i < n) :
    ((l.drop lo).take n).getD i d = l.getD (lo + i) d := by
  rw [List.getD_eq_getElem?_getD, List.getD_eq_getElem?_getD, List.getElem?_take_of_lt hi, List.getElem?_drop]

theorem wellFormed_slice {w : SecureWires} {party : Party} {n lo hi : ℕ} (h : w.WellFormed party n)
    (hhi : hi ≤ n) (hlo : lo ≤ hi) : (w.slice lo hi).WellFormed party (hi - lo) := by
  have hlen : ∀ {α : Type} {l : List α}, l.length = n → ((l.drop lo).take (hi - lo)).length = hi - lo := by
    intro α l hl
    rw [List.length_take, List.length_drop, hl]
    omega
  refine ⟨hlen h.size, hlen h.bundle, ?_⟩
  have hl := h.labels
  cases party
  · exact hlen hl
  · exact hlen hl

/-- A slice of an encoding encodes the slice of the bits. -/
theorem Encodes.slice (h : Encodes Δ w₁ w₂ v) {lo hi : ℕ} (hhi : hi ≤ v.length) (hlo : lo ≤ hi) :
    Encodes Δ (w₁.slice lo hi) (w₂.slice lo hi) ((v.drop lo).take (hi - lo)) := by
  have hlen : ((v.drop lo).take (hi - lo)).length = hi - lo := by
    rw [List.length_take, List.length_drop]
    omega
  refine EvaluatorEncodes.encodes ⟨?_, ?_, fun i hi' => ?_⟩ fun i hi' => ?_
  · rw [hlen]
    exact wellFormed_slice h.wf₁ hhi hlo
  · rw [hlen]
    exact wellFormed_slice h.wf₂ hhi hlo
  · rw [hlen] at hi'
    have hw := h.wire (lo + i) (by omega)
    simp only [SecureWires.bundleAt, SecureWires.lambdaAt, SecureWires.label0At, SecureWires.evalLabelAt,
      SecureWires.slice, getD_drop_take _ _ hi'] at hw ⊢
    exact hw
  · rw [hlen] at hi'
    have hl := h.lambda (lo + i) (by omega)
    simp only [SecureWires.lambdaAt, SecureWires.slice, getD_drop_take _ _ hi'] at hl ⊢
    exact hl

/-- The groups of two bundles encode the values. -/
structure GroupsEncode (Δ : Deltas) (subs : List SecureWires × List SecureWires) (vals : List (List Bool)) :
    Prop where
  length₁ : subs.1.length = vals.length
  length₂ : subs.2.length = vals.length
  group : ∀ j < vals.length, Encodes Δ (subs.1.getD j {}) (subs.2.getD j {}) (vals.getD j [])

/-- Group by group. -/
theorem GroupsEncode.cons {x y : SecureWires} {xs ys : List SecureWires} {b : List Bool} {vals : List (List Bool)}
    (h : Encodes Δ x y b) (hs : GroupsEncode Δ (xs, ys) vals) : GroupsEncode Δ (x :: xs, y :: ys) (b :: vals) := by
  refine ⟨congrArg (· + 1) hs.length₁, congrArg (· + 1) hs.length₂, fun j hj => ?_⟩
  cases j with
  | zero => exact h
  | succ j => exact hs.group j (Nat.lt_of_succ_lt_succ hj)

/-- **Cutting an encoding into its groups.** -/
theorem groupsEncode_slice (vals : List (List Bool)) : ∀ {off : ℕ} {bits₁ bits₂ : List (List UInt8)},
    bits₁.map List.length = vals.map List.length → bits₂.map List.length = vals.map List.length →
      Encodes Δ w₁ w₂ v → v.drop off = vals.flatten →
        GroupsEncode Δ (sliceGroups w₁ off bits₁, sliceGroups w₂ off bits₂) vals := by
  induction vals with
  | nil =>
    intro off bits₁ bits₂ h₁ h₂ _ _
    rw [List.map_eq_nil_iff.mp h₁, List.map_eq_nil_iff.mp h₂]
    exact ⟨rfl, rfl, fun j hj => absurd hj (Nat.not_lt_zero j)⟩
  | cons b vals ih =>
    intro off bits₁ bits₂ h₁ h₂ henc hv
    obtain ⟨b₁, rest₁, rfl⟩ : ∃ b₁ rest₁, bits₁ = b₁ :: rest₁ := by
      cases bits₁ with
      | nil => cases h₁
      | cons b₁ rest₁ => exact ⟨b₁, rest₁, rfl⟩
    obtain ⟨b₂, rest₂, rfl⟩ : ∃ b₂ rest₂, bits₂ = b₂ :: rest₂ := by
      cases bits₂ with
      | nil => cases h₂
      | cons b₂ rest₂ => exact ⟨b₂, rest₂, rfl⟩
    obtain ⟨hb₁, hrest₁⟩ := List.cons.inj h₁
    obtain ⟨hb₂, hrest₂⟩ := List.cons.inj h₂
    rw [List.flatten_cons] at hv
    have hlen : v.length - off = b.length + vals.flatten.length := by
      rw [← List.length_drop, hv, List.length_append]
    have hdrop : v.drop (off + b.length) = vals.flatten := by
      rw [← List.drop_drop, hv, List.drop_left]
    rw [sliceGroups, sliceGroups, hb₁, hb₂]
    refine .cons ?_ (ih hrest₁ hrest₂ henc hdrop)
    by_cases hoff : off + b.length ≤ v.length
    · have hs := henc.slice hoff (Nat.le_add_right _ _)
      rw [hv, Nat.add_sub_cancel_left, List.take_left] at hs
      exact hs
    · -- only an empty group can lie past the end
      have hnil : b = [] := List.eq_nil_of_length_eq_zero (by omega)
      subst hnil
      have hz : off + ([] : List Bool).length - off = 0 := by simp
      refine ⟨⟨⟨?_, ?_, ?_⟩, ⟨?_, ?_, ?_⟩, nofun, nofun⟩, nofun⟩
      all_goals simp [SecureWires.slice, SecureWires.size, SecureWires.labels]

end

/-! ### The input phase -/

section

variable {D : Type} {E : EmpTool D} {Δ : Deltas}

/-- A wire of the request, by its index. -/
def wireAt (ws : List (Party × Bool × Bool)) (i : ℕ) : Party × Bool × Bool := ws.getD i (.alice, false, false)

theorem own_xor_peer (w : Party × Bool × Bool) (p : Party) :
    ((if w.1 = p then byteOf (wireBit w p) else 0) ^^^ (if w.1 = p then 0 else byteOf (wireBit w p.peer))) =
      byteOf (wireValue w) := by
  obtain ⟨q, a, b⟩ := w
  cases q <;> cases p <;> cases a <;> cases b <;> rfl

/-- **What an honest party opens**: the value of each wire under the two parties' mask bits. -/
theorem openedMask_eq {groups : List InputGroup} {s peer : InputSide} {n : ℕ}
    (hn : (groups.flatMap InputGroup.wires).length = n) (hp : peer.party = s.party.peer)
    (hs : s.owners = groupOwners groups ∧ s.bits = groupBits groups s.party)
    (hpeer : peer.owners = groupOwners groups ∧ peer.bits = groupBits groups peer.party)
    (hb : s.bundle.length = n) (hbp : peer.bundle.length = n) :
    s.openedMask (peer.send E) = (List.range n).map fun i =>
      byteOf (wireValue (wireAt (groups.flatMap InputGroup.wires) i) ^^
        (LSB (s.bundle.getD i .zero).mac ^^ LSB (peer.bundle.getD i .zero).mac)) := by
  unfold InputSide.openedMask InputSide.send
  dsimp only
  rw [hs.1, hs.2, hpeer.1, hpeer.2, hp, ownerOfWire_groups, ownerOfWire_groups, ownXBits_groups, ownXBits_groups,
    peerXBits_packed]
  have hshare : ∀ l : List AShareBundle, l.length = n →
      shareMsg l = (List.range n).map fun i => byteOf (LSB (l.getD i .zero).mac) := fun l hl => map_eq_range _ _ hl
  rw [hshare _ hb, hshare _ hbp, map_eq_range _ (Party.alice, false, false) hn,
    map_eq_range _ (Party.alice, false, false) hn]
  simp only [List.zipWith_map, List.zipWith_self]
  refine List.map_congr_left fun i _ => ?_
  have hx := own_xor_peer (wireAt (groups.flatMap InputGroup.wires) i) s.party
  unfold wireAt at hx ⊢
  rw [UInt8.xor_assoc, hx, byteOf_xor, byteOf_xor, UInt8.xor_comm]

/-- The digest of an honest message is accepted. -/
theorem receive_ok [DecidableEq D] {s peer : InputSide} {n : ℕ} (hb : s.bundle.length = n)
    (hbp : peer.bundle.length = n)
    (h : ∀ i < n, (peer.bundle.getD i .zero).mac =
      (s.bundle.getD i .zero).key ^^^ scale (LSB (peer.bundle.getD i .zero).mac) s.Δ) :
    s.receive E (peer.send E) = .ok (s.openedMask (peer.send E)) := by
  have hmacs : expMacs E s.Δ s.bundle (shareMsg peer.bundle) = peer.bundle.map AShareBundle.mac :=
    @expMacs_shareMsg D E n { wireBundle := s.bundle } { wireBundle := peer.bundle } s.Δ hb hbp h
  unfold InputSide.receive
  rw [if_neg]
  rw [not_not]
  exact congrArg E.hash hmacs

theorem length_flatMap_wires (groups : List InputGroup) (p : Party) :
    (groups.flatMap InputGroup.wires).length = inputTotal (groupBits groups p) := by
  have h := congrArg List.length (ownerOfWire_groups groups p)
  rw [List.length_map] at h
  rw [← h, ownerOfWire, zip_groups, inputTotal_eq, groupBits]
  clear h
  induction groups with
  | nil => rfl
  | cons g gs ih =>
    rw [List.map_cons, List.flatMap_cons, List.length_append, List.map_cons, List.flatten_cons, List.length_append, ih,
      group_bits]
    simp

theorem checkInputRequest_ok (groups : List InputGroup) (p : Party) :
    checkInputRequest (groupOwners groups) (groupBits groups p) = .ok () := by
  unfold checkInputRequest
  rw [if_neg (by simp [groupOwners, groupBits]), if_neg]
  rw [List.any_eq_true]
  rintro ⟨o, ho, hne⟩
  obtain ⟨g, -, rfl⟩ := List.mem_map.mp ho
  revert hne
  cases g.owner <;> simp [Owner.ofParty]

/-- Wires that carry values under shares in the MAC relation, as the input phase builds them. -/
theorem encodes_inputWires {ws : List (Party × Bool × Bool)} {b₁ b₂ : ℕ → AShareBundle} {m : ℕ → Block}
    {n : ℕ} {Lambda : List UInt8} {owners : List Owner} {bits₁ bits₂ : List (List UInt8)} (hn : ws.length = n)
    (hrel : ∀ i < n, MacRel Δ (b₁ i) (b₂ i))
    (hL : Lambda = (List.range n).map fun i => byteOf (wireValue (wireAt ws i) ^^ shareBit (b₁ i) (b₂ i))) :
    let s₁ : InputSide := ⟨.alice, Δ.d1, owners, bits₁, (List.range n).map b₁, (List.range n).map m⟩
    let s₂ : InputSide := ⟨.bob, Δ.d2, owners, bits₂, (List.range n).map b₂, []⟩
    Encodes Δ (s₁.wires Lambda []) (s₂.wires Lambda (s₁.sendLabels E Lambda)) (ws.map wireValue) := by
  intro s₁ s₂
  have hlen : (ws.map wireValue).length = n := (List.length_map _).trans hn
  have hlabels : s₁.sendLabels E Lambda = (List.range n).map fun i =>
      m i ^^^ scale (wireValue (wireAt ws i) ^^ shareBit (b₁ i) (b₂ i)) Δ.d1 := by
    rw [hL]
    simp only [s₁, InputSide.sendLabels, List.zipWith_map, List.zipWith_self, selectMaskAt_byteOf, selectMask_and]
  have hsize : Lambda.length = n := by rw [hL, List.length_map, List.length_range]
  refine EvaluatorEncodes.encodes ⟨?_, ?_, fun i hi => ?_⟩ fun i _ => rfl
  · rw [hlen]
    exact ⟨hsize, by simp [s₁, InputSide.wires], by simp [s₁, InputSide.wires, SecureWires.labels]⟩
  · rw [hlen]
    refine ⟨hsize, by simp [s₂, InputSide.wires], ?_⟩
    simp only [s₂, InputSide.wires, SecureWires.labels]
    rw [hlabels, List.length_map, List.length_range]
  · rw [hlen] at hi
    have hv : (ws.map wireValue).getD i false = wireValue (wireAt ws i) :=
      getD_map_of_lt _ _ _ (hn ▸ hi)
    simp only [s₁, s₂, InputSide.wires, SecureWires.bundleAt, SecureWires.lambdaAt, SecureWires.label0At,
      SecureWires.evalLabelAt] at hlabels ⊢
    rw [hlabels, hL, hv, getD_map_range _ _ hi, getD_map_range _ _ hi, getD_map_range _ _ hi, getD_map_range _ _ hi,
      getD_map_range _ _ hi]
    exact ⟨hrel i hi, rfl, rfl⟩

end

section

variable {D : Type} [DecidableEq D] {E : EmpTool D} {Δ : Deltas} {C : CotStream Δ} {T : Tape} {st : ProtoState}

/-- The groups of a request without wires. -/
theorem groupsEncode_nil {groups : List InputGroup} (h0 : (groups.flatMap InputGroup.wires).length = 0) :
    GroupsEncode Δ ((groupBits groups .alice).map fun _ => {}, (groupBits groups .bob).map fun _ => {})
      (groups.map InputGroup.value) := by
  have hempty : ∀ g ∈ groups, g.value = [] := by
    intro g hg
    have hnil := List.eq_nil_of_length_eq_zero h0
    rw [List.flatMap_eq_nil_iff] at hnil
    rw [← map_wireValue, hnil g hg]
    rfl
  refine ⟨by simp [groupBits], by simp [groupBits], fun j hj => ?_⟩
  have hval : (groups.map InputGroup.value).getD j [] = [] := by
    obtain ⟨g, hg, heq⟩ := List.mem_map.mp (getD_mem [] hj)
    rw [← heq]
    exact hempty g hg
  have hsub : ∀ l : List (List UInt8), (l.map fun _ => ({} : SecureWires)).getD j {} = {} := by
    intro l
    rw [List.getD_eq_getElem?_getD, List.getElem?_map]
    cases l[j]? <;> rfl
  rw [hval, hsub, hsub]
  exact ⟨⟨⟨rfl, rfl, rfl⟩, ⟨rfl, rfl, rfl⟩, nofun, nofun⟩, nofun⟩

/-- The two parties of a request, with the shares from position `u` of the COT stream on. -/
structure HonestSides (C : CotStream Δ) (groups : List InputGroup) (n u : ℕ) (m : ℕ → Block)
    (s₁ s₂ : InputSide) : Prop where
  alice : s₁ = ⟨.alice, Δ.d1, groupOwners groups, groupBits groups .alice,
    (List.range n).map fun i => C.s₁ (u + i), (List.range n).map m⟩
  bob : s₂ = ⟨.bob, Δ.d2, groupOwners groups, groupBits groups .bob, (List.range n).map fun i => C.s₂ (u + i), []⟩

/-- **Between honest parties** both digests are accepted, both parties open the same masks, and the wires
encode the values. -/
theorem HonestSides.exchange {groups : List InputGroup} {n u : ℕ} {m : ℕ → Block} {s₁ s₂ : InputSide}
    (h : HonestSides C groups n u m s₁ s₂) (hn : (groups.flatMap InputGroup.wires).length = n) :
    ∃ Lambda, s₁.receive E (s₂.send E) = .ok Lambda ∧ s₂.receive E (s₁.send E) = .ok Lambda ∧
      Encodes Δ (s₁.wires Lambda []) (s₂.wires Lambda (s₁.sendLabels E Lambda))
        (groups.map InputGroup.value).flatten := by
  obtain ⟨rfl, rfl⟩ := h
  have hrel : ∀ i < n, MacRel Δ (C.s₁ (u + i)) (C.s₂ (u + i)) := fun i _ => C.rel _
  have hlen : ∀ f : ℕ → AShareBundle, ((List.range n).map f).length = n := fun f => by simp
  refine ⟨_, receive_ok (hlen _) (hlen _) fun i hi => ?_, ?_, ?_⟩
  · dsimp only
    rw [getD_map_range _ _ hi, getD_map_range _ _ hi]
    exact (hrel i hi).mac₂
  · rw [receive_ok (hlen _) (hlen _) fun i hi => ?_]
    · refine congrArg Except.ok ?_
      rw [openedMask_eq hn rfl ⟨rfl, rfl⟩ ⟨rfl, rfl⟩ (hlen _) (hlen _),
        openedMask_eq hn rfl ⟨rfl, rfl⟩ ⟨rfl, rfl⟩ (hlen _) (hlen _)]
      exact List.map_congr_left fun i _ => by rw [Bool.xor_comm (LSB _) (LSB _)]
    · dsimp only
      rw [getD_map_range _ _ hi, getD_map_range _ _ hi]
      exact (hrel i hi).mac₁
  · rw [← flatMap_wireValue]
    refine encodes_inputWires hn hrel ?_
    rw [openedMask_eq hn rfl ⟨rfl, rfl⟩ ⟨rfl, rfl⟩ (hlen _) (hlen _)]
    refine List.map_congr_left fun i hi => ?_
    have hi' := List.mem_range.mp hi
    dsimp only
    rw [getD_map_range _ _ hi', getD_map_range _ _ hi', shareBit]

/-- **The input phase**: between honest parties it does not abort, and each group encodes its owner's bits. -/
theorem processInputs_ok (groups : List InputGroup) (hst : st.pool₁ = st.pool₂) :
    ∃ subs st', processInputs E Δ C.s₁ C.s₂ T (groupOwners groups) (groupBits groups .alice)
        (groupBits groups .bob) st = .ok (subs, st') ∧ st'.pool₁ = st'.pool₂ ∧
      GroupsEncode Δ subs (groups.map InputGroup.value) := by
  have hwidths : ∀ p, (groupBits groups p).map List.length = (groups.map InputGroup.value).map List.length := by
    intro p
    rw [length_groupBits, List.map_map]
    exact List.map_congr_left fun g _ => (InputGroup.length_value g).symm
  unfold processInputs
  rw [checkInputRequest_ok, checkInputRequest_ok, ← length_flatMap_wires groups .alice]
  generalize hn : (groups.flatMap InputGroup.wires).length = n
  by_cases h0 : n = 0
  · subst h0
    exact ⟨_, _, rfl, hst, groupsEncode_nil hn⟩
  · have hsides : HonestSides C groups n st.pool₁.used (fun i => T.label0 (st.labelsUsed + i)) _ _ := ⟨rfl, rfl⟩
    obtain ⟨Lambda, hr₁, hr₂, henc⟩ := hsides.exchange (E := E) hn
    have hdraw₁ : (st.pool₁.draw C.s₁ n).1 = fun i => C.s₁ (st.pool₁.used + i) := rfl
    have hdraw₂ : (st.pool₂.draw C.s₂ n).1 = fun i => C.s₂ (st.pool₁.used + i) := by rw [hst]; rfl
    simp only [bind, Except.bind, if_neg h0, hdraw₁, hdraw₂, hr₁, hr₂]
    refine ⟨_, _, rfl, ?_, groupsEncode_slice _ (hwidths .alice) (hwidths .bob) henc rfl⟩
    simp only [TriplePool.draw, TriplePool.genCotShares, hst]

end

end AG2PC
