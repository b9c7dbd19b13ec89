import AG2PC.Backend.Protocol
import Mathlib.Logic.Equiv.Defs

/-!
# What the input phase reveals

A wire's input bit `x` is meant to be hidden by its mask: `Λ = x ⊕ λ` is opened, and `λ` is the sum
of a bit of each party. `process_inputs` sends the sender's bit `λ^self` of every wire and, in the
same message, `own_x_packed`, the bits `x` of the wires the sender owns.

`peerView` is everything one party receives from the other in the input phase, for any strategy by
which it chooses its own message. The phase is private for a party when the views of any two of its
inputs are the same up to a bijection of its random choices. `own_x_packed` is a function of the
input alone (`ownXPacked_eq`), so no bijection helps: the phase is private for a party exactly when
the party owns no wire (`inputPrivate_iff`).
-/

namespace AG2PC

open Library.XorAlgebra

/-! ### A party's random choices -/

/-- The random choices of a party in the input phase: its mask bit and its label, of each wire. -/
structure InputCoins (n : ℕ) where
  /-- The bits `λ^self`. -/
  bit : Fin n → Bool
  /-- The labels `m_{w,0}`; the evaluator uses none. -/
  label : Fin n → Block

/-- What is fixed before the choices: the other party's `Δ` and keys, and the party's own. -/
structure InputKeys (n : ℕ) where
  /-- The party's own `Δ`. -/
  own : Block
  /-- The other party's `Δ`. -/
  peer : Block
  /-- The other party's keys on the party's bits. -/
  peerKey : Fin n → Block
  /-- The party's keys on the other party's bits. -/
  ownKey : Fin n → Block

/-- The shares: `MAC = KEY ⊕ bit·Δ` under the other party's key. -/
def InputKeys.bundle {n : ℕ} (k : InputKeys n) (r : InputCoins n) : List AShareBundle :=
  List.ofFn fun i => ⟨k.peerKey i ^^^ scale (r.bit i) k.peer, k.ownKey i⟩

/-- An input request: the owner of each group and the group's width. -/
abbrev InputGroups := List (Party × ℕ)

namespace InputGroups

/-- The owners as `process_inputs` takes them. -/
def owners (groups : InputGroups) : List Owner := groups.map fun g => .ofParty g.1

/-- The number of wires. -/
def total (groups : InputGroups) : ℕ := groups.foldl (fun n g => n + g.2) 0

/-- Bits of the widths requested. -/
def Fits (groups : InputGroups) (x : List (List Bool)) : Prop := x.map List.length = groups.map Prod.snd

/-- The two assignments agree on the wires the party does not own. -/
def AgreeElsewhere (p : Party) (groups : InputGroups) (x x' : List (List Bool)) : Prop :=
  ∀ (k : ℕ) (g : Party × ℕ), groups[k]? = some g → g.1 ≠ p → x[k]? = x'[k]?

end InputGroups

/-- Bits as `process_inputs` takes them. -/
def packBits (x : List (List Bool)) : List (List UInt8) := x.map (List.map byteOf)

section

variable {D : Type} [DecidableEq D] (E : EmpTool D)

/-- Everything the peer receives from party `p`: its message and, when `p` does not abort, the
labels `p` sends if it is the garbler. The peer picks its own message with `strategy`. -/
def peerView (s : InputSide) (strategy : InputMsg D → InputMsg D) :
    InputMsg D × Except String (List Block) :=
  (s.send E, do
    let Lambda ← s.receive E (strategy (s.send E))
    return match s.party with
      | .alice => s.sendLabels E Lambda
      | .bob => [])

/-- Party `p` of the input phase on input `x`, with random choices `r`. -/
def inputSide (p : Party) (groups : InputGroups) (k : InputKeys groups.total) (x : List (List Bool))
    (r : InputCoins groups.total) : InputSide where
  party := p
  Δ := k.own
  owners := groups.owners
  bits := packBits x
  bundle := k.bundle r
  label0 := match p with
    | .alice => List.ofFn r.label
    | .bob => []

/-- The input phase hides the inputs of party `p`: whichever two inputs it has, a bijection of its
random choices carries the peer's view of the one to that of the other. -/
def InputPrivate (p : Party) (groups : InputGroups) (k : InputKeys groups.total)
    (strategy : InputMsg D → InputMsg D) : Prop :=
  ∀ x x', groups.Fits x → groups.Fits x' → groups.AgreeElsewhere p x x' →
    ∃ π : Equiv.Perm (InputCoins groups.total), ∀ r,
      peerView E (inputSide p groups k x' (π r)) strategy = peerView E (inputSide p groups k x r) strategy

end

/-! ### The wires a party owns -/

section

variable {p : Party}

/-- `own_x_packed` is the input of the groups the party owns, one after the other. -/
theorem ownXPacked_eq (owners : List Owner) (bits : List (List UInt8)) :
    ownXPacked p (ownerOfWire owners bits) (ownXBits p owners bits) =
      (owners.zip bits).flatMap fun q => if q.1.isParty p then q.2 else [] := by
  have hgroup : ∀ q : Owner × List UInt8,
      ((q.2.map fun _ => q.1).zip (if q.1.isParty p then q.2 else q.2.map fun _ => 0)).filterMap
          (fun e => if e.1.isParty p then some e.2 else none) =
        if q.1.isParty p then q.2 else [] := by
    rintro ⟨o, bs⟩
    cases ho : o.isParty p <;> induction bs <;> simp_all
  unfold ownXPacked ownerOfWire ownXBits
  induction owners.zip bits with
  | nil => rfl
  | cons q rest ih =>
    rw [List.flatMap_cons, List.flatMap_cons, List.flatMap_cons, List.zip_append, List.filterMap_append,
      ih, hgroup]
    split <;> simp

/-- Which wires belong to whom does not depend on the bits. -/
theorem ownerOfWire_congr {owners : List Owner} {bits bits' : List (List UInt8)}
    (h : bits.map List.length = bits'.map List.length) :
    ownerOfWire owners bits = ownerOfWire owners bits' := by
  unfold ownerOfWire
  induction bits generalizing owners bits' with
  | nil =>
    cases bits' with
    | nil => rfl
    | cons b' rest' => cases h
  | cons b rest ih =>
    cases bits' with
    | nil => cases h
    | cons b' rest' =>
      obtain ⟨hb, hrest⟩ := List.cons.inj h
      cases owners with
      | nil => rfl
      | cons o os =>
        rw [List.zip_cons_cons, List.zip_cons_cons, List.flatMap_cons, List.flatMap_cons, ih hrest]
        simp only [List.map_const']
        rw [hb]

/-- Nor do the own bits, where the party owns nothing. -/
theorem ownXBits_congr {groups : InputGroups} {bits bits' : List (List UInt8)}
    (h : bits.map List.length = bits'.map List.length)
    (hw : bits.map List.length = groups.map Prod.snd) (hnone : ∀ g ∈ groups, g.1 = p → g.2 = 0) :
    ownXBits p groups.owners bits = ownXBits p groups.owners bits' := by
  unfold ownXBits InputGroups.owners
  induction groups generalizing bits bits' with
  | nil => rfl
  | cons g gs ih =>
    cases bits with
    | nil => cases hw
    | cons b rest =>
      cases bits' with
      | nil => cases h
      | cons b' rest' =>
        obtain ⟨hb, hrest⟩ := List.cons.inj h
        obtain ⟨hg, hgs⟩ := List.cons.inj hw
        have htail := ih hrest hgs fun g' hg' => hnone g' (List.mem_cons_of_mem _ hg')
        rw [List.map_cons, List.zip_cons_cons, List.zip_cons_cons, List.flatMap_cons, List.flatMap_cons]
        refine congrArg₂ (· ++ ·) ?_ htail
        simp only [List.map_const', hb, Owner.isParty_ofParty]
        by_cases hp : g.1 = p
        · -- an owned group is empty
          have h0 : b.length = 0 := hg.trans (hnone g List.mem_cons_self hp)
          have h0' : b'.length = 0 := hb ▸ h0
          rw [List.eq_nil_of_length_eq_zero h0, List.eq_nil_of_length_eq_zero h0']
        · rw [if_neg (by simpa using hp), if_neg (by simpa using hp)]

end

/-! ### Privacy -/

section

variable {D : Type} (E : EmpTool D)

/-- The bit `b` at every wire party `p` owns, zero elsewhere. -/
def constantInput (p : Party) (groups : InputGroups) (b : Bool) : List (List Bool) :=
  groups.map fun g => List.replicate g.2 (decide (g.1 = p) && b)

theorem fits_constantInput (p : Party) (groups : InputGroups) (b : Bool) :
    groups.Fits (constantInput p groups b) := by
  unfold InputGroups.Fits constantInput
  rw [List.map_map]
  exact List.map_congr_left fun g _ => List.length_replicate

theorem agreeElsewhere_constantInput (p : Party) (groups : InputGroups) :
    groups.AgreeElsewhere p (constantInput p groups false) (constantInput p groups true) := by
  intro k g hk hp
  have hp' : decide (g.1 = p) = false := by simpa using hp
  simp only [constantInput, List.getElem?_map, hk, Option.map_some, hp', Bool.false_and]

/-- A bit is sent in the clear for every wire the party owns. -/
theorem mem_send_constantInput {p : Party} {groups : InputGroups} (k : InputKeys groups.total)
    (b : Bool) (r : InputCoins groups.total) (v : UInt8) :
    v ∈ ((inputSide p groups k (constantInput p groups b) r).send E).x ↔
      v = byteOf b ∧ ∃ g ∈ groups, g.1 = p ∧ g.2 ≠ 0 := by
  change v ∈ ownXPacked p (ownerOfWire _ _) (ownXBits p _ _) ↔ _
  rw [ownXPacked_eq]
  simp only [inputSide, InputGroups.owners, packBits, constantInput, List.map_map, List.zip_map',
    List.mem_flatMap, List.mem_map]
  constructor
  · rintro ⟨q, ⟨g, hg, rfl⟩, hv⟩
    by_cases hp : g.1 = p
    · simp only [hp, Owner.isParty_ofParty, decide_true, if_true, Function.comp_apply,
        List.map_replicate, Bool.true_and] at hv
      obtain ⟨hne, rfl⟩ := List.mem_replicate.mp hv
      exact ⟨rfl, g, hg, hp, hne⟩
    · simp [hp] at hv
  · rintro ⟨rfl, g, hg, hp, hne⟩
    refine ⟨_, ⟨g, hg, rfl⟩, ?_⟩
    simp [hp, hne]

variable [DecidableEq D]

/-- **Input privacy**: the input phase hides a party's inputs exactly when the party has none. -/
theorem inputPrivate_iff (p : Party) (groups : InputGroups) (k : InputKeys groups.total)
    (strategy : InputMsg D → InputMsg D) :
    InputPrivate E p groups k strategy ↔ ∀ g ∈ groups, g.1 = p → g.2 = 0 := by
  constructor
  · intro hpriv g hg hp
    by_contra hne
    obtain ⟨π, hπ⟩ := hpriv _ _ (fits_constantInput p groups false) (fits_constantInput p groups true)
      (agreeElsewhere_constantInput p groups)
    -- compare the clear bits of the two views
    let r : InputCoins groups.total := ⟨fun _ => false, fun _ => zeroBlock⟩
    have hx := congrArg (fun v => v.1.x) (hπ r)
    have hone : byteOf true ∈
        ((inputSide p groups k (constantInput p groups true) (π r)).send E).x :=
      (mem_send_constantInput E k true (π r) _).mpr ⟨rfl, g, hg, hp, hne⟩
    have hzero : byteOf true ∈
        ((inputSide p groups k (constantInput p groups false) r).send E).x := hx ▸ hone
    exact absurd ((mem_send_constantInput E k false r _).mp hzero).1 (by decide)
  · intro hnone x x' hx hx' _
    refine ⟨Equiv.refl _, fun r => ?_⟩
    have hlen : ∀ y : List (List Bool), (packBits y).map List.length = y.map List.length := by
      intro y
      simp [packBits, Function.comp_def]
    have hsame : (packBits x').map List.length = (packBits x).map List.length := by
      rw [hlen, hlen, hx, hx']
    have howner : ownerOfWire groups.owners (packBits x') = ownerOfWire groups.owners (packBits x) :=
      ownerOfWire_congr hsame
    have hown : ownXBits p groups.owners (packBits x') = ownXBits p groups.owners (packBits x) :=
      ownXBits_congr hsame ((hlen x').trans hx') hnone
    simp only [peerView, InputSide.send, InputSide.receive, InputSide.openedMask, InputSide.sendLabels,
      inputSide, howner, hown, Equiv.refl_apply]
    rfl

/-- With one wire of the garbler's own, its input 0 and its input 1 are told apart. -/
theorem not_inputPrivate_one :
    ¬ InputPrivate EmpTool.transparent .alice [(.alice, 1)]
      ⟨(Deltas.init 0 0).d1, (Deltas.init 0 0).d2, fun _ => zeroBlock, fun _ => zeroBlock⟩ id := by
  intro hpriv
  obtain ⟨π, hπ⟩ := hpriv [[false]] [[true]] rfl rfl (by
    intro k g hk hp
    cases k with
    | zero =>
      obtain rfl : (.alice, 1) = g := by simpa using hk
      exact absurd rfl hp
    | succ k => simp at hk)
  have hx : ownXPacked .alice [.ALICE] [1] = ownXPacked .alice [.ALICE] [0] :=
    congrArg (fun v => v.1.x) (hπ ⟨fun _ => false, fun _ => zeroBlock⟩)
  exact absurd hx (by decide)

end

end AG2PC
