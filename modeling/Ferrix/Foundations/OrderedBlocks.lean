import Mathlib.Tactic

/-!
A row of blocks whose elements are numbered: every element of a block comes before every element
of a later block.
-/

namespace Ferrix.Foundations.OrderedBlocks

open List

variable {α : Type} (rank : α → Nat)

def Before (a b : List α) : Prop := ∀ x ∈ a, ∀ y ∈ b, rank x < rank y

def Ascend (blocks : List (List α)) : Prop := blocks.Pairwise (Before rank)

variable {rank} {a b c : List α} {l r : List (List α)}

@[simp] theorem before_nil_left : Before rank [] b := by
  intro x hx
  cases hx

@[simp] theorem before_nil_right : Before rank a [] := by
  intro x _ y hy
  cases hy

lemma before_append_left : Before rank (a ++ b) c ↔ Before rank a c ∧ Before rank b c := by
  simp only [Before, mem_append, or_imp, forall_and]

lemma before_append_right : Before rank a (b ++ c) ↔ Before rank a b ∧ Before rank a c := by
  simp only [Before, mem_append, or_imp, forall_and]

lemma Before.mono {a' b' : List α} (hbefore : Before rank a b) (ha : a' ⊆ a) (hb : b' ⊆ b) :
    Before rank a' b' :=
  fun x hx y hy => hbefore x (ha hx) y (hb hy)

@[simp] theorem ascend_nil : Ascend rank [] := List.Pairwise.nil

lemma ascend_append : Ascend rank (l ++ r) ↔
    Ascend rank l ∧ Ascend rank r ∧ Before rank l.flatten r.flatten := by
  rw [Ascend, pairwise_append]
  refine and_congr_right fun _ => and_congr_right fun _ => ?_
  constructor
  · intro h x hx y hy
    obtain ⟨block, hb, hx⟩ := mem_flatten.mp hx
    obtain ⟨block', hb', hy⟩ := mem_flatten.mp hy
    exact h block hb block' hb' x hx y hy
  · intro h block hb block' hb' x hx y hy
    exact h x (mem_flatten.mpr ⟨block, hb, hx⟩) y (mem_flatten.mpr ⟨block', hb', hy⟩)

lemma ascend_cons : Ascend rank (a :: r) ↔ Ascend rank r ∧ Before rank a r.flatten := by
  have h : Ascend rank ([a] ++ r) ↔ _ := ascend_append
  rw [singleton_append] at h
  rw [h]
  simp [Ascend]

lemma ascend_singles {β : Type} {f : α → β} {g : β → List α} (hsingle : ∀ x, g (f x) = [x])
    (hsorted : a.Pairwise fun x y => rank x < rank y) : Ascend rank ((a.map f).map g) := by
  rw [Ascend, map_map, pairwise_map]
  refine hsorted.imp fun {x y} hlt x' hx' y' hy' => ?_
  rw [Function.comp_apply, hsingle, mem_singleton] at hx' hy'
  rw [hx', hy']
  exact hlt

end Ferrix.Foundations.OrderedBlocks
