import Mathlib.Data.BitVec
import Mathlib.Data.FinEnum
import Mathlib.Tactic.Ring

/-!
# `Lib.BitMixing` — the stages of a bit mixer permute the words

A mixer alternates xor-shifts and multiplications by odd constants. Each of these is injective on the words of
one width, so it is a permutation of them, and so is any composition.
-/

namespace LockFreeStructures

namespace BitMixing

variable {w s e : ℕ} {x y c d : BitVec w}

/-- The word with its upper bits folded onto the lower ones. -/
def xorShift (s : ℕ) (x : BitVec w) : BitVec w := x ^^^ (x >>> s)

/-- The upper `s` bits are those of the word itself, and each bit below is found from the one `s` places above. -/
theorem xorShift_injective (hs : 0 < s) : Function.Injective (xorShift s : BitVec w → BitVec w) := by
  intro x y h
  have hbit : ∀ i, (x.getLsbD i ^^ x.getLsbD (s + i)) = (y.getLsbD i ^^ y.getLsbD (s + i)) := by
    intro i
    have hi := congrArg (BitVec.getLsbD · i) h
    simpa only [xorShift, BitVec.getLsbD_xor, BitVec.getLsbD_ushiftRight] using hi
  -- by induction on the distance from the top
  have hall : ∀ d i, w ≤ i + d → x.getLsbD i = y.getLsbD i := by
    intro d
    induction d with
    | zero =>
        intro i hi
        rw [BitVec.getLsbD_of_ge x i hi, BitVec.getLsbD_of_ge y i hi]
    | succ d ih =>
        intro i hi
        have habove : x.getLsbD (s + i) = y.getLsbD (s + i) := ih (s + i) (by omega)
        have hxor := hbit i
        rw [habove] at hxor
        exact Bool.xor_left_inj.mp hxor
  exact BitVec.eq_of_getLsbD_eq fun i _ => hall w i (Nat.le_add_left w i)

/-- A constant that has an inverse can be cancelled. -/
theorem mul_injective (h : c * d = 1) : Function.Injective (· * c : BitVec w → BitVec w) := by
  intro x y hxy
  calc x = x * c * d := by rw [mul_assoc, h, mul_one]
    _ = y * c * d := congrArg (· * d) hxy
    _ = y := by rw [mul_assoc, h, mul_one]

theorem bijective_of_injective {f : BitVec w → BitVec w} (h : Function.Injective f) : Function.Bijective f :=
  Finite.injective_iff_bijective.mp h

/-- A word is given by its low `e` bits and the rest. -/
theorem eq_of_low_of_high (hlow : x.toNat % 2 ^ e = y.toNat % 2 ^ e) (hhigh : x.toNat / 2 ^ e = y.toNat / 2 ^ e) :
    x = y := by
  refine BitVec.eq_of_toNat_eq ?_
  rw [← Nat.div_add_mod x.toNat (2 ^ e), ← Nat.div_add_mod y.toNat (2 ^ e), hlow, hhigh]

end BitMixing

end LockFreeStructures
