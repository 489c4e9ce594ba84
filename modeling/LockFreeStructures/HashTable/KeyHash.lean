import LockFreeStructures.Lib.BitMixing

/-!
# `HashTable.KeyHash` — the hashes of the keys

`core::Hash` is the finalizer of MurmurHash3 on 32 and on 64 bits. Every stage permutes the words, so distinct
keys have distinct hashes, and those that start in the same slot differ in the bits that the table masks away.
-/

namespace LockFreeStructures

namespace HashTable

open BitMixing

/-- `HashDispatch<4>::Hash` -/
def hashDispatch4 (key : BitVec 32) : BitVec 32 :=
  let key := key ^^^ (key >>> 16)
  let key := key * 0x85ebca6b
  let key := key ^^^ (key >>> 13)
  let key := key * 0xc2b2ae35
  key ^^^ (key >>> 16)

/-- `HashDispatch<8>::Hash` -/
def hashDispatch8 (key : BitVec 64) : BitVec 64 :=
  let key := key ^^^ (key >>> 33)
  let key := key * 0xff51afd7ed558ccd
  let key := key ^^^ (key >>> 33)
  let key := key * 0xc4ceb9fe1a85ec53
  key ^^^ (key >>> 33)

theorem hashDispatch4_injective : Function.Injective hashDispatch4 := by
  have h₁ : Function.Injective (xorShift 16 : BitVec 32 → BitVec 32) := xorShift_injective (by decide)
  have h₂ := mul_injective (c := (0x85ebca6b : BitVec 32)) (d := 0xa5cb9243) (by decide)
  have h₃ : Function.Injective (xorShift 13 : BitVec 32 → BitVec 32) := xorShift_injective (by decide)
  have h₄ := mul_injective (c := (0xc2b2ae35 : BitVec 32)) (d := 0x7ed1b41d) (by decide)
  exact h₁.comp (h₄.comp (h₃.comp (h₂.comp h₁)))

theorem hashDispatch8_injective : Function.Injective hashDispatch8 := by
  have h₁ : Function.Injective (xorShift 33 : BitVec 64 → BitVec 64) := xorShift_injective (by decide)
  have h₂ := mul_injective (c := (0xff51afd7ed558ccd : BitVec 64)) (d := 0x4f74430c22a54005) (by decide)
  have h₄ := mul_injective (c := (0xc4ceb9fe1a85ec53 : BitVec 64)) (d := 0x9cb4b2f8129337db) (by decide)
  exact h₁.comp (h₄.comp (h₁.comp (h₂.comp h₁)))

/-- Keys whose hashes lead to the same slot of a table of `2 ^ e` slots differ in the bits above the mask. -/
def CollidesByMask {w : ℕ} (hash : BitVec w → BitVec w) : Prop :=
  ∀ e key key', key ≠ key' → (hash key).toNat % 2 ^ e = (hash key').toNat % 2 ^ e →
    (hash key).toNat / 2 ^ e ≠ (hash key').toNat / 2 ^ e

theorem collidesByMask_of_injective {w : ℕ} {hash : BitVec w → BitVec w} (h : Function.Injective hash) :
    CollidesByMask hash := by
  intro e key key' hne hslot hhigh
  exact hne (h (eq_of_low_of_high hslot hhigh))

/-- **The key hashes lose no information.** -/
theorem hashes_bijective : (Function.Bijective hashDispatch4 ∧ CollidesByMask hashDispatch4) ∧
    Function.Bijective hashDispatch8 ∧ CollidesByMask hashDispatch8 :=
  ⟨⟨bijective_of_injective hashDispatch4_injective, collidesByMask_of_injective hashDispatch4_injective⟩,
    bijective_of_injective hashDispatch8_injective, collidesByMask_of_injective hashDispatch8_injective⟩

end HashTable

end LockFreeStructures
