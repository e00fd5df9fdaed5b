import Mathlib.Data.List.TakeWhile
import Mathlib.Tactic

/-!
A vector kept sorted and free of duplicates serves as a set whose growth can be refused.
-/

namespace Ferrix.Foundations.SortedSearch

open List

variable {α : Type*} [LinearOrder α] {l : List α} {a : α} {i : Nat}

/-- How many elements of a sorted vector come before `a`. -/
def position (l : List α) (a : α) : Nat := (l.takeWhile (· < a)).length

/-- `binary_search`: the index of `a`, or the index it would be inserted at. -/
def binarySearch (l : List α) (a : α) : Except Nat Nat :=
  if l[position l a]? = some a then .ok (position l a) else .error (position l a)

lemma split_at_position (l : List α) (a : α) :
    ∃ before rest, l = before ++ rest ∧ position l a = before.length ∧
      (∀ b ∈ before, b < a) ∧ ∀ b ∈ rest.head?, a ≤ b := by
  refine ⟨l.takeWhile (· < a), l.dropWhile (· < a), takeWhile_append_dropWhile.symm, rfl, ?_, ?_⟩
  · intro b hb
    simpa using mem_takeWhile_imp hb
  · intro b hb
    have hhead := List.head?_dropWhile_not (fun b => decide (b < a)) l
    rw [Option.mem_def.mp hb] at hhead
    simpa using hhead

lemma mem_of_binarySearch_ok (hok : binarySearch l a = .ok i) : l[i]? = some a := by
  rw [binarySearch] at hok
  split_ifs at hok with hfound
  · obtain rfl := Except.ok.inj hok
    exact hfound

omit [LinearOrder α] in
lemma insertIdx_length_append (before rest : List α) (a : α) :
    (before ++ rest).insertIdx before.length a = before ++ a :: rest := by
  induction before with
  | nil => rfl
  | cons b before ih => exact congrArg (b :: ·) ih

lemma split_of_error (hsorted : l.Pairwise (· < ·))
    (herror : binarySearch l a = .error i) :
    ∃ before rest, l = before ++ rest ∧ i = before.length ∧ (∀ b ∈ before, b < a) ∧
      ∀ b ∈ rest, a < b := by
  obtain ⟨before, rest, rfl, hlen, hbefore, hafter⟩ := split_at_position l a
  rw [binarySearch] at herror
  split_ifs at herror with hfound
  obtain rfl := Except.error.inj herror
  refine ⟨before, rest, rfl, hlen, hbefore, ?_⟩
  have hhead : rest.head? ≠ some a := by
    rwa [hlen, getElem?_append_right le_rfl, Nat.sub_self, ← head?_eq_getElem?] at hfound
  cases rest with
  | nil => exact forall_mem_nil _
  | cons f rest =>
    have hf : a < f :=
      lt_of_le_of_ne (hafter f rfl) fun heq => hhead (by rw [heq]; rfl)
    have htail := (pairwise_append.mp hsorted).2.1
    exact forall_mem_cons.mpr ⟨hf, fun b hb => hf.trans (rel_of_pairwise_cons htail hb)⟩

lemma of_binarySearch_error (hsorted : l.Pairwise (· < ·))
    (herror : binarySearch l a = .error i) :
    a ∉ l ∧ (l.insertIdx i a).Perm (a :: l) ∧ (l.insertIdx i a).Pairwise (· < ·) := by
  obtain ⟨before, rest, rfl, rfl, hbefore, hafter⟩ := split_of_error hsorted herror
  rw [insertIdx_length_append]
  refine ⟨?_, perm_middle, ?_⟩
  · intro hm
    rcases mem_append.mp hm with hm | hm
    · exact lt_irrefl a (hbefore a hm)
    · exact lt_irrefl a (hafter a hm)
  · obtain ⟨hleft, hright, hacross⟩ := pairwise_append.mp hsorted
    refine pairwise_append.mpr ⟨hleft, pairwise_cons.mpr ⟨hafter, hright⟩, ?_⟩
    exact fun b hb => forall_mem_cons.mpr ⟨hbefore b hb, hacross b hb⟩

end Ferrix.Foundations.SortedSearch
