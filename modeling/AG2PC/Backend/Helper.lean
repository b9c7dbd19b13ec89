import AG2PC.Library.XorAlgebra

/-!
# Blocks

`helper.h` and what it takes from emp-tool: 128-bit blocks, the two reserved bit
positions (bit 0 carries a share's value, bit 1 recovers a garbled output mask), and
the table `select_mask` by which the protocol multiplies a block by a bit. The hash
functions, which are not part of this repository, are the fields of `EmpTool`.
-/

namespace AG2PC

open Library.XorAlgebra

/-- A 128-bit block. -/
abbrev Block := BitVec 128

/-- `zero_block`. -/
def zeroBlock : Block := 0#128

/-- `makeBlock(high, low)`. -/
def makeBlock (high low : BitVec 64) : Block := high ++ low

/-- `bit0_mask`, the mask of the bit that carries a share's value. -/
def bit0Mask : Block := makeBlock 0 1

/-- `bit1_mask`, the mask of the bit that recovers a garbled output mask. -/
def bit1Mask : Block := makeBlock 0 2

/-- `LSB`: bit 0 of a block. -/
def LSB (b : Block) : Bool := b.getLsbD 0

/-- `LSB1`: bit 1 of a block. -/
def LSB1 (b : Block) : Bool := b.getLsbD 1

@[simp] theorem LSB_xor (x y : Block) : LSB (x ^^^ y) = (LSB x ^^ LSB y) := by simp [LSB]

@[simp] theorem LSB_scale (b : Bool) (x : Block) : LSB (scale b x) = (b && LSB x) :=
  getLsbD_scale b x 0

@[simp] theorem LSB_zero : LSB 0#128 = false := by simp [LSB]

@[simp] theorem LSB_zeroBlock : LSB zeroBlock = false := LSB_zero

@[simp] theorem LSB_bit0Mask : LSB bit0Mask = true := by decide

@[simp] theorem LSB1_xor (x y : Block) : LSB1 (x ^^^ y) = (LSB1 x ^^ LSB1 y) := by simp [LSB1]

@[simp] theorem LSB1_scale (b : Bool) (x : Block) : LSB1 (scale b x) = (b && LSB1 x) :=
  getLsbD_scale b x 1

@[simp] theorem LSB1_zero : LSB1 0#128 = false := by simp [LSB1]

/-- `select_mask[b]`: the all-zero or the all-one block. -/
def selectMask (b : Bool) : Block := if b then BitVec.allOnes 128 else zeroBlock

/-- `select_mask[b] & x` multiplies the block by the bit. -/
@[simp] theorem selectMask_and (b : Bool) (x : Block) : selectMask b &&& x = scale b x := by
  cases b with
  | false => exact BitVec.zero_and
  | true => exact BitVec.allOnes_and

/-- `x & select_mask[b]`, the other order the code writes. -/
@[simp] theorem and_selectMask (b : Bool) (x : Block) : x &&& selectMask b = scale b x := by
  rw [BitVec.and_comm, selectMask_and]

/-- A bit as the `unsigned char` the code stores it in. -/
def byteOf (b : Bool) : UInt8 := if b then 1 else 0

@[simp] theorem byteOf_xor (a b : Bool) : byteOf (a ^^ b) = byteOf a ^^^ byteOf b := by
  cases a <;> cases b <;> rfl

/-- `(bool)byte`: a byte used as a condition. -/
def truthy (v : UInt8) : Bool := v != 0

@[simp] theorem truthy_byteOf (b : Bool) : truthy (byteOf b) = b := by cases b <;> rfl

theorem byteOf_inj {a b : Bool} (h : byteOf a = byteOf b) : a = b := by
  rw [← truthy_byteOf a, h, truthy_byteOf]

/-- `v & 1` as a bit: what a decoded byte is reduced to. -/
def lowBit (v : UInt8) : Bool := v.toNat.testBit 0

@[simp] theorem lowBit_byteOf (b : Bool) : lowBit (byteOf b) = b := by cases b <;> rfl

@[simp] theorem lowBit_xor (a b : UInt8) : lowBit (a ^^^ b) = (lowBit a ^^ lowBit b) := by
  rw [lowBit, UInt8.toNat_xor, Nat.testBit_xor]
  rfl

/-- `v & 1` is the low bit as a byte. -/
theorem and_one_eq (v : UInt8) : v &&& 1 = byteOf (lowBit v) := by
  have h : (v &&& 1).toNat = (byteOf (lowBit v)).toNat := by
    rw [UInt8.toNat_and, lowBit, Nat.testBit_zero]
    change v.toNat &&& 1 = _
    rw [Nat.and_one_is_mod]
    rcases Nat.mod_two_eq_zero_or_one v.toNat with h | h <;> rw [h] <;> rfl
  exact UInt8.toNat_inj.mp h

/-- What the code calls from emp-tool and the process's memory, none of which this repository
defines: the tweakable hash `MITCCRH` of a start point, a running key number and a block; the
permutation `sigma` that `hash_cir` applies first; `Hash` over a vector of blocks; the
commitment `Hash(digest ‖ nonce)`; and the block found in memory at `select_mask[i]` for an
index `i` past the table's two entries. -/
structure EmpTool (D : Type) where
  /-- `MITCCRH::hash` of a block under the key numbered `gid` from a start point. -/
  crh : Block → ℕ → Block → Block
  /-- The permutation `hash_cir` applies before hashing. -/
  sigma : Block → Block
  /-- `Hash::hash_once` of a vector of blocks. -/
  hash : List Block → D
  /-- The digest of a digest followed by a block. -/
  commit : D → Block → D
  /-- What lies at `select_mask[i]` for `i ≥ 2`. -/
  beyond : UInt8 → Block

/-- A tool whose digests are the hashed blocks themselves, so that hashing is injective. -/
def EmpTool.transparent : EmpTool (List Block) where
  crh s t x := s ^^^ BitVec.ofNat 128 t ^^^ x
  sigma x := x
  hash xs := xs
  commit d r := d ++ [r]
  beyond _ := zeroBlock

/-- `select_mask[i]` for an index taken from a received byte. -/
def selectMaskAt {D : Type} (E : EmpTool D) (i : UInt8) : Block :=
  if i = 0 then selectMask false else if i = 1 then selectMask true else E.beyond i

@[simp] theorem selectMaskAt_byteOf {D : Type} (E : EmpTool D) (b : Bool) :
    selectMaskAt E (byteOf b) = selectMask b := by
  cases b <;> rfl

/-- `MITCCRH<8>`: a start point and the number of the next key. The keys are handed out in
order, one to each of the `K` groups of blocks a call hashes. -/
structure MITCCRH where
  /-- The start point the keys are derived from. -/
  startPoint : Block
  /-- The number of the next unused key. -/
  gid : ℕ := 0
  deriving DecidableEq

namespace MITCCRH

/-- `setS` on a fresh object. -/
def setS (s : Block) : MITCCRH := { startPoint := s }

/-- The hash of a block under the key `j` places ahead. -/
def hashAt {D : Type} (E : EmpTool D) (m : MITCCRH) (j : ℕ) (x : Block) : Block :=
  E.crh m.startPoint (m.gid + j) x

/-- `hash_cir` of a block under the next key. -/
def hashCir {D : Type} (E : EmpTool D) (m : MITCCRH) (x : Block) : Block :=
  m.hashAt E 0 (E.sigma x)

/-- `n` keys are used up. -/
def advance (m : MITCCRH) (n : ℕ) : MITCCRH := { m with gid := m.gid + n }

@[simp] theorem advance_startPoint (m : MITCCRH) (n : ℕ) : (m.advance n).startPoint = m.startPoint := rfl

@[simp] theorem advance_gid (m : MITCCRH) (n : ℕ) : (m.advance n).gid = m.gid + n := rfl

end MITCCRH

end AG2PC
