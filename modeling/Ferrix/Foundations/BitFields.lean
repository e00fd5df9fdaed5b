import Mathlib.Tactic

/-!
A word with an address field keeps the address under a mask and its flags outside the mask.
-/

namespace Ferrix.Foundations.BitFields

variable {w : Nat}

def setIf (word : BitVec w) (condition : Bool) (bits : BitVec w) : BitVec w :=
  if condition then word ||| bits else word

lemma or_setIf (field word bits : BitVec w) (condition : Bool) :
    setIf (field ||| word) condition bits = field ||| setIf word condition bits := by
  cases condition
  · rfl
  · exact BitVec.or_assoc ..

lemma and_field {low high n : Nat} (haligned : 2 ^ low ∣ n) (hlt : n < 2 ^ high) :
    BitVec.ofNat w n &&& BitVec.ofNat w (2 ^ high - 2 ^ low) = BitVec.ofNat w n := by
  obtain ⟨k, rfl⟩ := haligned
  have hmask : 2 ^ high - 2 ^ low = (2 ^ (high - low) - 1) * 2 ^ low := by
    rcases lt_or_ge high low with hless | hle
    · have hpow : 2 ^ high ≤ 2 ^ low := Nat.pow_le_pow_right (by decide) hless.le
      rw [Nat.sub_eq_zero_of_le hpow, Nat.sub_eq_zero_of_le hless.le]
      simp
    · rw [Nat.sub_mul, ← pow_add, Nat.sub_add_cancel hle, one_mul]
  have hk : k < 2 ^ (high - low) := by
    rcases lt_or_ge high low with hless | hle
    · have hpow : 2 ^ high ≤ 2 ^ low := Nat.pow_le_pow_right (by decide) hless.le
      have hzero : k = 0 := by
        by_contra hne
        have hmul := Nat.le_mul_of_pos_right (2 ^ low) (Nat.pos_of_ne_zero hne)
        omega
      rw [hzero]
      exact Nat.two_pow_pos _
    · rw [← Nat.sub_add_cancel hle, pow_add, Nat.mul_comm (2 ^ low)] at hlt
      exact Nat.lt_of_mul_lt_mul_right hlt
  have hand : 2 ^ low * k &&& 2 ^ high - 2 ^ low = 2 ^ low * k := by
    rw [hmask, Nat.mul_comm (2 ^ low), ← Nat.shiftLeft_eq, ← Nat.shiftLeft_eq,
      ← Nat.shiftLeft_and_distrib, Nat.and_two_pow_sub_one_eq_mod, Nat.mod_eq_of_lt hk]
  rw [← BitVec.ofNat_and, hand]

variable {mask tag field attributes : BitVec w}

lemma field_and_mask (hfield : field &&& mask = field) (hattributes : attributes &&& mask = 0#w) :
    (field ||| attributes) &&& mask = field := by
  rw [BitVec.and_or_distrib_right, hfield, hattributes, BitVec.or_zero]

lemma tag_and (hfield : field &&& mask = field) (htag : mask &&& tag = 0#w) :
    (field ||| attributes) &&& tag = attributes &&& tag := by
  have hzero : field &&& tag = 0#w := by
    rw [← hfield, BitVec.and_assoc, htag, BitVec.and_zero]
  rw [BitVec.and_or_distrib_right, hzero, BitVec.zero_or]

end Ferrix.Foundations.BitFields
