import Mathlib.Data.BitVec
import Mathlib.Tactic

/-!
Instants of a clock of 64 bits that is allowed to wrap, compared by the sign of
their difference.
-/

namespace Ferrix.Foundations.WrappingClock

/-- How far one instant is ahead of another, the shorter way round. -/
def offset (a b : BitVec 64) : Int := (a - b).toInt

lemma le_offset (a b : BitVec 64) : -2 ^ 63 ≤ offset a b :=
  BitVec.le_toInt (a - b)

lemma offset_lt (a b : BitVec 64) : offset a b < 2 ^ 63 :=
  BitVec.toInt_lt

lemma offset_self (a : BitVec 64) : offset a a = 0 := by
  simp [offset]

variable {a b : BitVec 64}

lemma offset_eq_zero_iff : offset a b = 0 ↔ a = b := by
  constructor
  · intro h
    have hzero : a - b = 0#64 := BitVec.eq_of_toInt_eq (by simpa [offset] using h)
    exact sub_eq_zero.mp hzero
  · rintro rfl
    exact offset_self a

lemma exists_bmod_eq_add (x : Int) : ∃ turns : Int, x.bmod (2 ^ 64) = x + turns * 2 ^ 64 := by
  rw [Int.bmod_def]
  split
  · exact ⟨-(x / 2 ^ 64), by omega⟩
  · exact ⟨-(x / 2 ^ 64) - 1, by omega⟩

lemma exists_offset_eq_sub_add (a b c : BitVec 64) :
    ∃ turns : Int, offset a b = offset a c - offset b c + turns * 2 ^ 64 := by
  have hsub : a - b = a - c - (b - c) := by ring
  rw [offset, hsub, BitVec.toInt_sub]
  exact exists_bmod_eq_add _

lemma exists_offset_add_ofInt (a c : BitVec 64) (d : Int) :
    ∃ turns : Int, offset (a + BitVec.ofInt 64 d) c = offset a c + d + turns * 2 ^ 64 := by
  have hadd : a + BitVec.ofInt 64 d - c = a - c + BitVec.ofInt 64 d := by ring
  obtain ⟨first, hf⟩ := exists_bmod_eq_add d
  obtain ⟨second, hsecond⟩ := exists_bmod_eq_add ((a - c).toInt + d.bmod (2 ^ 64))
  refine ⟨first + second, ?_⟩
  rw [offset, hadd, BitVec.toInt_add, BitVec.toInt_ofInt, hsecond, hf, offset]
  ring

/-- Offsets from a common instant subtract, as long as the difference does not
go more than half way round. -/
theorem offset_eq_sub {c : BitVec 64} (hlow : -2 ^ 63 ≤ offset a c - offset b c)
    (hhigh : offset a c - offset b c < 2 ^ 63) : offset a b = offset a c - offset b c := by
  obtain ⟨turns, hturns⟩ := exists_offset_eq_sub_add a b c
  have := le_offset a b
  have := offset_lt a b
  omega

lemma offset_eq_toNat_sub (hlow : -2 ^ 63 ≤ (a.toNat : Int) - b.toNat)
    (hhigh : (a.toNat : Int) - b.toNat < 2 ^ 63) : offset a b = (a.toNat : Int) - b.toNat := by
  have hzero : ∀ c : BitVec 64, ∃ turns : Int, offset c 0#64 = c.toNat + turns * 2 ^ 64 := by
    intro c
    rw [offset, BitVec.sub_zero, BitVec.toInt_eq_toNat_bmod]
    exact exists_bmod_eq_add _
  obtain ⟨first, hf⟩ := hzero a
  obtain ⟨second, hsecond⟩ := hzero b
  obtain ⟨turns, hturns⟩ := exists_offset_eq_sub_add a b 0#64
  have := le_offset a b
  have := offset_lt a b
  omega

lemma offset_ofNat {a b : Nat} (hlow : -2 ^ 63 ≤ (a : Int) - b) (hhigh : (a : Int) - b < 2 ^ 63) :
    offset (BitVec.ofNat 64 a) (BitVec.ofNat 64 b) = (a : Int) - b := by
  have hzero : ∀ c : Nat, ∃ turns : Int, offset (BitVec.ofNat 64 c) 0#64 = c + turns * 2 ^ 64 := by
    intro c
    obtain ⟨turns, hturns⟩ := exists_offset_add_ofInt 0#64 0#64 c
    rw [BitVec.ofInt_natCast, BitVec.zero_add, offset_self, Int.zero_add] at hturns
    exact ⟨turns, hturns⟩
  obtain ⟨first, hf⟩ := hzero a
  obtain ⟨second, hsecond⟩ := hzero b
  obtain ⟨turns, hturns⟩ := exists_offset_eq_sub_add (BitVec.ofNat 64 a) (BitVec.ofNat 64 b) 0#64
  have := le_offset (BitVec.ofNat 64 a) (BitVec.ofNat 64 b)
  have := offset_lt (BitVec.ofNat 64 a) (BitVec.ofNat 64 b)
  omega

lemma offset_swap (h : -2 ^ 63 < offset a b) : offset b a = -offset a b := by
  have := offset_lt a b
  have := offset_eq_sub (a := b) (b := a) (c := b) (by rw [offset_self]; omega)
    (by rw [offset_self]; omega)
  rw [offset_self] at this
  omega

lemma offset_add_ofInt {c : BitVec 64} {d : Int} (hlow : -2 ^ 63 ≤ offset a c + d)
    (hhigh : offset a c + d < 2 ^ 63) : offset (a + BitVec.ofInt 64 d) c = offset a c + d := by
  obtain ⟨turns, hturns⟩ := exists_offset_add_ofInt a c d
  have := le_offset (a + BitVec.ofInt 64 d) c
  have := offset_lt (a + BitVec.ofInt 64 d) c
  omega

/-- Two instants at most a quarter of the clock apart. -/
def Near (a b : BitVec 64) : Prop := -2 ^ 62 ≤ offset a b ∧ offset a b ≤ 2 ^ 62

lemma Near.refl (a : BitVec 64) : Near a a := by
  rw [Near, offset_self]
  omega

/-- Offsets of near instants from a common third one subtract, unless they are
three quarters of the clock apart. -/
theorem offset_eq_sub_of_near {c : BitVec 64} (hnear : Near a b)
    (hlow : -(2 ^ 63 + 2 ^ 62) < offset a c - offset b c)
    (hhigh : offset a c - offset b c < 2 ^ 63 + 2 ^ 62) : offset a b = offset a c - offset b c := by
  obtain ⟨turns, hturns⟩ := exists_offset_eq_sub_add a b c
  have := hnear.1
  have := hnear.2
  omega

lemma offset_eq_sub_of_all_near {a b c : BitVec 64} (hab : Near a b) (hac : Near a c)
    (hbc : Near b c) : offset a b = offset a c - offset b c := by
  have := hac.1
  have := hac.2
  have := hbc.1
  have := hbc.2
  exact offset_eq_sub_of_near hab (by omega) (by omega)

end Ferrix.Foundations.WrappingClock
