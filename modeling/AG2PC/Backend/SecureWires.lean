import AG2PC.Backend.Helper
import Mathlib.Data.List.Basic
import Mathlib.Logic.Function.Basic

/-!
# Authenticated shares

`secure_wires.h`. A wire's mask `λ` is the exclusive-or of one bit at each party. Each
bit is authenticated towards the other party: the holder has a MAC, the other party a
key and a global `Δ`, and `MAC = KEY ⊕ bit·Δ`. Bit 0 of every `Δ` is set and bit 0 of
every key is clear, so a share's bit is bit 0 of its MAC. `MacRel` is that relation on
the two parties' bundles; it is linear, which is what lets the protocol add masks locally.
-/

namespace AG2PC

open Library.XorAlgebra

/-- The two parties: `alice` is party 1, the garbler; `bob` is party 2, the evaluator. -/
inductive Party where
  /-- Party 1, the garbler. -/
  | alice
  /-- Party 2, the evaluator. -/
  | bob
  deriving DecidableEq, Repr

/-- `3 - party`. -/
def Party.peer : Party → Party
  | .alice => .bob
  | .bob => .alice

/-- A party's share of a wire: its MAC on its own bit, and its key for the peer's. -/
structure AShareBundle where
  /-- `M_peer[x]`, whose bit 0 is the share bit. -/
  mac : Block
  /-- `K_me[x_peer]`. -/
  key : Block
  deriving DecidableEq

namespace AShareBundle

/-- `AShareBundle{}`: the share of a public constant. -/
def zero : AShareBundle := ⟨zeroBlock, zeroBlock⟩

instance : Inhabited AShareBundle := ⟨zero⟩

instance : XorOp AShareBundle := ⟨fun a b => ⟨a.mac ^^^ b.mac, a.key ^^^ b.key⟩⟩

@[simp] theorem xor_mac (a b : AShareBundle) : (a ^^^ b).mac = a.mac ^^^ b.mac := rfl

@[simp] theorem xor_key (a b : AShareBundle) : (a ^^^ b).key = a.key ^^^ b.key := rfl

@[simp] theorem zero_mac : zero.mac = 0#128 := rfl

@[simp] theorem zero_key : zero.key = 0#128 := rfl

end AShareBundle

/-! ### The global keys -/

/-- `init_abit_`: a party's `Δ` from 128 random bits `tmp`, with `tmp[0] = true` and
`tmp[1] = (party == 1)`. -/
def initAbit (party : Party) (tmp : Block) : Block :=
  (tmp &&& ~~~(bit0Mask ||| bit1Mask)) ||| bit0Mask ||| (if party = .alice then bit1Mask else zeroBlock)

theorem LSB_initAbit (party : Party) (tmp : Block) : LSB (initAbit party tmp) = true := by
  have h₀ : bit0Mask.getLsbD 0 = true := by decide
  simp only [LSB, initAbit, BitVec.getLsbD_or, h₀, Bool.or_true, Bool.true_or]

theorem LSB1_initAbit (party : Party) (tmp : Block) :
    LSB1 (initAbit party tmp) = decide (party = .alice) := by
  have h₀ : bit0Mask.getLsbD 1 = false := by decide
  have h₁ : bit1Mask.getLsbD 1 = true := by decide
  have hm : (~~~(bit0Mask ||| bit1Mask)).getLsbD 1 = false := by decide
  simp only [LSB1, initAbit, BitVec.getLsbD_or, BitVec.getLsbD_and, h₀, hm, Bool.and_false,
    Bool.false_or]
  cases party with
  | alice => exact h₁
  | bob => decide

/-- The two parties' `Δ`, with the bits `init_abit_` pins. -/
structure Deltas where
  /-- The garbler's `Δ`. -/
  d1 : Block
  /-- The evaluator's `Δ`. -/
  d2 : Block
  lsb_d1 : LSB d1 = true
  lsb_d2 : LSB d2 = true
  lsb1_d1 : LSB1 d1 = true
  lsb1_d2 : LSB1 d2 = false

/-- What the two calls of `init_abit_` produce. -/
def Deltas.init (tmp1 tmp2 : Block) : Deltas where
  d1 := initAbit .alice tmp1
  d2 := initAbit .bob tmp2
  lsb_d1 := LSB_initAbit _ _
  lsb_d2 := LSB_initAbit _ _
  lsb1_d1 := by rw [LSB1_initAbit]; rfl
  lsb1_d2 := by rw [LSB1_initAbit]; rfl

attribute [simp] Deltas.lsb_d1 Deltas.lsb_d2 Deltas.lsb1_d1 Deltas.lsb1_d2

/-- A party's own `Δ`. -/
def Deltas.of (Δ : Deltas) : Party → Block
  | .alice => Δ.d1
  | .bob => Δ.d2

/-- It is not zero. -/
theorem Deltas.of_ne_zero (Δ : Deltas) (p : Party) : Δ.of p ≠ 0#128 := by
  intro h
  have hlsb : LSB (Δ.of p) = true := by cases p <;> simp [Deltas.of]
  rw [h] at hlsb
  exact absurd hlsb (by decide)

/-! ### The MAC relation -/

/-- Garbler's bundle `s₁` and evaluator's bundle `s₂` authenticate each other's bits. -/
structure MacRel (Δ : Deltas) (s₁ s₂ : AShareBundle) : Prop where
  mac₁ : s₁.mac = s₂.key ^^^ scale (LSB s₁.mac) Δ.d2
  mac₂ : s₂.mac = s₁.key ^^^ scale (LSB s₂.mac) Δ.d1
  key₁ : LSB s₁.key = false
  key₂ : LSB s₂.key = false

/-- The mask bit the two bundles share. -/
def shareBit (s₁ s₂ : AShareBundle) : Bool := LSB s₁.mac ^^ LSB s₂.mac

@[simp] theorem shareBit_zero : shareBit .zero .zero = false := by simp [shareBit]

@[simp] theorem shareBit_xor (a₁ b₁ a₂ b₂ : AShareBundle) :
    shareBit (a₁ ^^^ b₁) (a₂ ^^^ b₂) = (shareBit a₁ a₂ ^^ shareBit b₁ b₂) := by
  simp only [shareBit, AShareBundle.xor_mac, LSB_xor]
  cases LSB a₁.mac <;> cases LSB b₁.mac <;> simp

namespace MacRel

variable {Δ : Deltas}

/-- A MAC made from a key with bit 0 clear carries its bit in bit 0. -/
theorem of_bits {s₁ s₂ : AShareBundle} (x₁ x₂ : Bool) (h₁ : s₁.mac = s₂.key ^^^ scale x₁ Δ.d2)
    (h₂ : s₂.mac = s₁.key ^^^ scale x₂ Δ.d1) (k₁ : LSB s₁.key = false) (k₂ : LSB s₂.key = false) :
    MacRel Δ s₁ s₂ := by
  have e₁ : LSB s₁.mac = x₁ := by rw [h₁]; simp [k₂]
  have e₂ : LSB s₂.mac = x₂ := by rw [h₂]; simp [k₁]
  exact ⟨by rw [e₁]; exact h₁, by rw [e₂]; exact h₂, k₁, k₂⟩

/-- The shares of a public constant. -/
theorem zero : MacRel Δ .zero .zero := ⟨by simp, by simp, by simp, by simp⟩

/-- Shares add. -/
theorem xor {a₁ a₂ b₁ b₂ : AShareBundle} (ha : MacRel Δ a₁ a₂) (hb : MacRel Δ b₁ b₂) :
    MacRel Δ (a₁ ^^^ b₁) (a₂ ^^^ b₂) := by
  refine of_bits (LSB a₁.mac ^^ LSB b₁.mac) (LSB a₂.mac ^^ LSB b₂.mac) ?_ ?_ ?_ ?_
  · simp only [AShareBundle.xor_mac, AShareBundle.xor_key, scale_xor]
    conv_lhs => rw [ha.mac₁, hb.mac₁]
    simp only [BitVec.xor_assoc, word_xor_left_comm]
  · simp only [AShareBundle.xor_mac, AShareBundle.xor_key, scale_xor]
    conv_lhs => rw [ha.mac₂, hb.mac₂]
    simp only [BitVec.xor_assoc, word_xor_left_comm]
  · simp [ha.key₁, hb.key₁]
  · simp [ha.key₂, hb.key₂]

end MacRel

/-! ### Bundles of wires -/

/-- `SecureWires`: the authenticated state of `n` wires at one party. `Lambda` and
`wireBundle` have `n` entries; `label0` is filled at the garbler only and `evalLabel` at the
evaluator only. -/
structure SecureWires where
  /-- The opened masks, one byte a wire. -/
  Lambda : List UInt8 := []
  /-- The shares. -/
  wireBundle : List AShareBundle := []
  /-- `m_{w,0}` at the garbler. -/
  label0 : List Block := []
  /-- `m_{w,Λ_w}` at the evaluator. -/
  evalLabel : List Block := []
  deriving DecidableEq

namespace SecureWires

/-- `size()`: the number of wires. -/
def size (w : SecureWires) : ℕ := w.Lambda.length

/-- `slice(lo, hi)`: the wires `[lo, hi)`. -/
def slice (w : SecureWires) (lo hi : ℕ) : SecureWires where
  Lambda := (w.Lambda.drop lo).take (hi - lo)
  wireBundle := (w.wireBundle.drop lo).take (hi - lo)
  label0 := (w.label0.drop lo).take (hi - lo)
  evalLabel := (w.evalLabel.drop lo).take (hi - lo)

/-- `append_bundle`: the wires of `s` after those of `w`. -/
def append (w s : SecureWires) : SecureWires where
  Lambda := w.Lambda ++ s.Lambda
  wireBundle := w.wireBundle ++ s.wireBundle
  label0 := w.label0 ++ s.label0
  evalLabel := w.evalLabel ++ s.evalLabel

/-- The local party's labels: `label0` at the garbler, `eval_label` at the evaluator. -/
def labels (w : SecureWires) : Party → List Block
  | .alice => w.label0
  | .bob => w.evalLabel

/-- `check_secure_wires`: every array the party reads has one entry a wire. -/
def check (w : SecureWires) (party : Party) (place : String) : Except String Unit :=
  if w.wireBundle.length ≠ w.size then
    .error ("AG2PC " ++ place ++ ": SecureWires wire_bundle length != Lambda length")
  else if (w.labels party).length ≠ w.size then
    match party with
    | .alice => .error ("AG2PC " ++ place ++ ": garbler SecureWires label0 length != Lambda length")
    | .bob => .error ("AG2PC " ++ place ++ ": evaluator SecureWires eval_label length != Lambda length")
  else .ok ()

end SecureWires

end AG2PC
