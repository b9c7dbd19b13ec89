import AG2PC.Library.XorAlgebra
import Mathlib.Data.Finset.SymmDiff
import Mathlib.Data.Finset.Card

/-!
# Affine forms

A word computed from others by exclusive-or, negation and constants is an affine form: a sum of distinct
atoms, plus a constant word if the form is flipped. The form says what the word depends on, whatever the
atoms' words are: two words whose forms have the same atoms differ by the constant word or not at all
(`Gives.eq_of_atoms`).
-/

namespace AG2PC.Library

open XorAlgebra

/-- A sum of distinct atoms, and a constant if `flip` is set. -/
structure AffineForm (ι : Type) where
  /-- The atoms. -/
  atoms : Finset ι
  /-- Whether the constant is added. -/
  flip : Bool

namespace AffineForm

variable {ι : Type} {w : ℕ}

/-! ### Parities -/

/-- The sum of the bits `v` over a set. -/
def parity (v : ι → Bool) (s : Finset ι) : Bool := (s.filter fun i => v i = true).card % 2 == 1

@[simp] theorem parity_empty (v : ι → Bool) : parity v ∅ = false := rfl

@[simp] theorem parity_singleton (v : ι → Bool) (i : ι) : parity v {i} = v i := by
  unfold parity
  rw [Finset.filter_singleton]
  cases v i <;> rfl

/-- The low bit of a sum. -/
theorem lowBit_add {n c a b : ℕ} (h : n + 2 * c = a + b) :
    (n % 2 == 1) = ((a % 2 == 1) ^^ (b % 2 == 1)) := by
  have hn : n % 2 = (a % 2 + b % 2) % 2 := by omega
  rw [hn]
  rcases Nat.mod_two_eq_zero_or_one a with ha | ha <;> rcases Nat.mod_two_eq_zero_or_one b with hb | hb <;>
    rw [ha, hb] <;> rfl

theorem card_symmDiff_add [DecidableEq ι] (a b : Finset ι) :
    (symmDiff a b).card + 2 * (a ∩ b).card = a.card + b.card := by
  have hsymm : (symmDiff a b).card = (a \ b).card + (b \ a).card :=
    Finset.card_union_of_disjoint disjoint_sdiff_sdiff
  have ha := Finset.card_sdiff_add_card_inter a b
  have hb := Finset.card_sdiff_add_card_inter b a
  rw [Finset.inter_comm] at hb
  omega

/-- What two sets share counts twice, so it cancels. -/
theorem parity_symmDiff [DecidableEq ι] (v : ι → Bool) (s t : Finset ι) :
    parity v (symmDiff s t) = (parity v s ^^ parity v t) := by
  have hfilter : (symmDiff s t).filter (fun i => v i = true) =
      symmDiff (s.filter fun i => v i = true) (t.filter fun i => v i = true) := by
    ext i
    simp only [Finset.mem_filter, Finset.mem_symmDiff]
    tauto
  unfold parity
  rw [hfilter]
  exact lowBit_add (card_symmDiff_add _ _)

/-! ### Forms -/

/-- An atom by itself. -/
def atom (i : ι) : AffineForm ι := ⟨{i}, false⟩

/-- The constant word if `b` is set, else zero. -/
def const (b : Bool) : AffineForm ι := ⟨∅, b⟩

/-- The sum of two forms. -/
def xor [DecidableEq ι] (f g : AffineForm ι) : AffineForm ι := ⟨symmDiff f.atoms g.atoms, f.flip ^^ g.flip⟩

/-- The form with the constant added. -/
def not (f : AffineForm ι) : AffineForm ι := ⟨f.atoms, !f.flip⟩

/-- The form gives the word `x`, bit by bit, when the atoms are the words `v` and the constant is `one`. -/
def Gives (one : BitVec w) (v : ι → BitVec w) (f : AffineForm ι) (x : BitVec w) : Prop :=
  ∀ i < w, x.getLsbD i = (parity (fun a => (v a).getLsbD i) f.atoms ^^ (f.flip && one.getLsbD i))

namespace Gives

variable {one x y : BitVec w} {v : ι → BitVec w} {f g : AffineForm ι}

theorem atom (i : ι) : Gives one v (.atom i) (v i) := by
  intro j _
  simp [AffineForm.atom]

theorem const (b : Bool) : Gives one v (.const b) (scale b one) := by
  intro j _
  simp [AffineForm.const]

/-- Forms add as the words do. -/
theorem xor [DecidableEq ι] (hf : Gives one v f x) (hg : Gives one v g y) : Gives one v (f.xor g) (x ^^^ y) := by
  intro j hj
  rw [BitVec.getLsbD_xor, hf j hj, hg j hj, AffineForm.xor, parity_symmDiff]
  generalize parity _ f.atoms = p
  generalize parity _ g.atoms = q
  generalize one.getLsbD j = c
  cases p <;> cases q <;> cases f.flip <;> cases g.flip <;> cases c <;> rfl

theorem not (hf : Gives one v f x) : Gives one v f.not (x ^^^ one) := by
  intro j hj
  rw [BitVec.getLsbD_xor, hf j hj, AffineForm.not]
  generalize parity _ f.atoms = p
  generalize one.getLsbD j = c
  cases p <;> cases f.flip <;> cases c <;> rfl

/-- **Forms with the same atoms** give words that differ by the constant at most. -/
theorem eq_of_atoms (hf : Gives one v f x) (hg : Gives one v g y) (h : f.atoms = g.atoms) :
    x = y ^^^ scale (f.flip ^^ g.flip) one := by
  refine BitVec.eq_of_getLsbD_eq fun j hj => ?_
  rw [BitVec.getLsbD_xor, getLsbD_scale, hf j hj, hg j hj, h]
  generalize parity _ g.atoms = p
  generalize one.getLsbD j = c
  cases p <;> cases f.flip <;> cases g.flip <;> cases c <;> rfl

end Gives

end AffineForm

end AG2PC.Library
