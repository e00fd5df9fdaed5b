import Mathlib.Tactic
import Mathlib.Data.Nat.Bitwise
import Mathlib.Order.Interval.Set.Basic
import Mathlib.Order.CompletePartialOrder

/-!
A block is a run of a power of two of consecutive numbers that starts at a multiple of its own
length; it is the two halves it splits into.
-/

namespace Ferrix.Foundations.AlignedBlocks

@[ext]
structure Block where
  start : Nat
  order : Nat
  aligned : 2 ^ order ∣ start
deriving DecidableEq

namespace Block

def size (b : Block) : Nat := 2 ^ b.order

def span (b : Block) : Set Nat := Set.Ico b.start (b.start + 2 ^ b.order)

lemma mem_span {b : Block} {x : Nat} :
    x ∈ b.span ↔ b.start ≤ x ∧ x < b.start + 2 ^ b.order := Iff.rfl

lemma start_mem_span (b : Block) : b.start ∈ b.span :=
  ⟨le_rfl, Nat.lt_add_of_pos_right (Nat.two_pow_pos b.order)⟩

def single (x : Nat) : Block := ⟨x, 0, by simp⟩

lemma span_single (x : Nat) : (single x).span = {x} := by
  ext y
  simp [single, mem_span]
  omega

def around (x order : Nat) : Block := ⟨x - x % 2 ^ order, order, Nat.dvd_sub_mod x⟩

lemma mem_around (x order : Nat) : x ∈ (around x order).span := by
  have hmod := Nat.mod_lt x (Nat.two_pow_pos order)
  have hle := Nat.mod_le x (2 ^ order)
  simp only [around, mem_span]
  omega

def low (b : Block) (order : Nat) (horder : order ≤ b.order) : Block :=
  ⟨b.start, order, (Nat.pow_dvd_pow 2 horder).trans b.aligned⟩

section

variable (start order : Nat) (haligned : 2 ^ (order + 1) ∣ start)

def lower : Block := ⟨start, order, (Nat.pow_dvd_pow 2 order.le_succ).trans haligned⟩

def upper : Block := ⟨start + 2 ^ order, order,
  ((Nat.pow_dvd_pow 2 order.le_succ).trans haligned).add dvd_rfl⟩

lemma span_eq_union : (⟨start, order + 1, haligned⟩ : Block).span =
    (lower start order haligned).span ∪ (upper start order haligned).span := by
  ext x
  simp only [Set.mem_union, mem_span, lower, upper, pow_succ]
  omega

lemma disjoint_halves :
    Disjoint (lower start order haligned).span (upper start order haligned).span := by
  rw [Set.disjoint_left]
  intro x hlower hupper
  simp only [mem_span, lower, upper] at hlower hupper
  omega

end

lemma xor_two_pow {start order : Nat} (haligned : 2 ^ order ∣ start) :
    (2 ^ (order + 1) ∣ start ∧ start ^^^ 2 ^ order = start + 2 ^ order) ∨
      (2 ^ order ≤ start ∧ 2 ^ (order + 1) ∣ start - 2 ^ order ∧
        start ^^^ 2 ^ order = start - 2 ^ order) := by
  obtain ⟨q, rfl⟩ := haligned
  have hxor : (2 ^ order * q) ^^^ 2 ^ order = 2 ^ order * (q ^^^ 1) := by
    have hshift := Nat.shiftLeft_xor_distrib (a := q) (b := 1) (i := order)
    simp only [Nat.shiftLeft_eq, Nat.one_mul] at hshift
    rw [Nat.mul_comm, ← hshift, Nat.mul_comm]
  rw [hxor]
  rcases Nat.even_or_odd q with heven | hodd
  · refine .inl ⟨?_, ?_⟩
    · rw [pow_succ]
      exact Nat.mul_dvd_mul_left _ heven.two_dvd
    · rw [Nat.xor_one_of_even heven, Nat.mul_add, Nat.mul_one]
  · obtain ⟨half, rfl⟩ := hodd
    have hsub : 2 ^ order * (2 * half + 1) - 2 ^ order = 2 ^ order * (2 * half) := by
      rw [Nat.mul_add, Nat.mul_one, Nat.add_sub_cancel]
    refine .inr ⟨Nat.le_mul_of_pos_right _ (by omega), ?_, ?_⟩
    · rw [hsub, pow_succ]
      exact Nat.mul_dvd_mul_left _ (Nat.dvd_mul_right 2 half)
    · rw [hsub, Nat.xor_one_of_odd ⟨half, rfl⟩, Nat.add_sub_cancel]

def buddy (b : Block) : Block := ⟨b.start ^^^ 2 ^ b.order, b.order, by
  rcases xor_two_pow b.aligned with ⟨-, heq⟩ | ⟨-, -, heq⟩
  · exact heq ▸ b.aligned.add dvd_rfl
  · exact heq ▸ Nat.dvd_sub b.aligned dvd_rfl⟩

def parent (b : Block) : Block := ⟨min b.start b.buddy.start, b.order + 1, by
  rcases xor_two_pow b.aligned with ⟨hdvd, heq⟩ | ⟨-, hdvd, heq⟩
  · have hmin : min b.start b.buddy.start = b.start := by
      simp [buddy, heq]
    rw [hmin]
    exact hdvd
  · have hmin : min b.start b.buddy.start = b.start - 2 ^ b.order := by
      simp [buddy, heq]
    rw [hmin]
    exact hdvd⟩

lemma span_parent (b : Block) : b.parent.span = b.span ∪ b.buddy.span := by
  ext x
  simp only [Set.mem_union, mem_span, parent, buddy, pow_succ]
  rcases xor_two_pow b.aligned with ⟨-, heq⟩ | ⟨hle, -, heq⟩ <;> rw [heq] <;> omega

lemma disjoint_buddy (b : Block) : Disjoint b.span b.buddy.span := by
  rw [Set.disjoint_left]
  intro x hleft hright
  have hpos := Nat.two_pow_pos b.order
  simp only [mem_span, buddy] at hleft hright
  rcases xor_two_pow b.aligned with ⟨-, heq⟩ | ⟨hle, -, heq⟩ <;> rw [heq] at hright <;> omega

end Block

end Ferrix.Foundations.AlignedBlocks
