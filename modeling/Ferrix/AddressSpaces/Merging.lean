import Ferrix.AddressSpaces.Cutting

namespace Ferrix.AddressSpaces.Merging

open Foundations.Stretches Regions Space Cutting List

variable {low high : Nat} {l mid back : List Vma}

lemma tryMergeAt_append (l : List Vma) (left right : Vma) (back : List Vma) :
    tryMergeAt (l ++ left :: right :: back) l.length =
      if mergeable left right then some (l ++ merged left right :: back) else none := by
  have hleft : (l ++ left :: right :: back)[l.length]? = some left := by simp
  have hright : (l ++ left :: right :: back)[l.length + 1]? = some right := by simp
  have herase : (l ++ left :: right :: back).eraseIdx (l.length + 1) = l ++ left :: back := by
    rw [eraseIdx_append_of_length_le (Nat.le_add_right _ 1), Nat.add_sub_cancel_left]
    rfl
  rw [tryMergeAt, hleft, hright]
  dsimp only
  rw [herase, set_length_append]
  rfl

variable {rs : List Vma} {i : Nat}

lemma tryMergeAt_of_length_le (h : rs.length ≤ i + 1) :
    tryMergeAt rs i = none := by
  have hright : rs[i + 1]? = none := List.getElem?_eq_none h
  rw [tryMergeAt, hright]
  split <;> simp_all

lemma mergeFrom_of_length_le (n : Nat) (h : rs.length ≤ i + 1) : mergeFrom n rs i = rs := by
  induction n generalizing i with
  | zero => rfl
  | succ n ih =>
    rw [mergeFrom, tryMergeAt_of_length_le h]
    exact ih (by omega)

lemma mergeFrom_eq (low high n : Nat) (l rest : List Vma) :
    mergeFrom n (l ++ rest) l.length = l ++ (joining low high).settle n rest := by
  induction n generalizing l rest with
  | zero => rfl
  | succ n ih =>
    rcases rest with _ | ⟨left, _ | ⟨right, back⟩⟩
    · rw [mergeFrom_of_length_le _ (by simp)]
      rfl
    · rw [mergeFrom_of_length_le _ (by simp)]
      rfl
    · have hjoins : (joining low high).joins left right = mergeable left right := rfl
      rw [mergeFrom, tryMergeAt_append, Joining.settle, hjoins]
      rcases hmergeable : mergeable left right
      · rw [if_neg Bool.false_ne_true, if_neg Bool.false_ne_true]
        have hs := ih (l ++ [left]) (right :: back)
        rw [append_assoc, singleton_append, length_append, length_singleton] at hs
        dsimp only
        rw [hs, append_assoc]
        rfl
      · exact ih l (merged left right :: back)

lemma mergeSpan_joined (h : (joining low high).Sound (l ++ mid ++ back))
    (hfront : (joining low high).Settled l) (hback : (joining low high).Settled back)
    {last : Nat} (hl : last = l.length + mid.length) :
    (joining low high).Joined (l ++ mid ++ back) (mergeSpan (l ++ mid ++ back) l.length last) := by
  subst hl
  rw [mergeSpan]
  rcases eq_nil_or_concat l with rfl | ⟨l, r, rfl⟩
  · have hall := mergeFrom_eq low high mid.length [] (mid ++ back)
    rw [length_nil, nil_append, nil_append] at hall
    simp only [nil_append, length_nil, Nat.zero_sub, Nat.sub_zero, Nat.zero_add,
      length_append, Nat.min_eq_left (Nat.le_add_right _ _)]
    rw [hall]
    refine Joining.joined_settle h ?_
    rw [drop_left]
    exact hback
  · rw [concat_eq_append] at h hfront ⊢
    have hlist : l ++ [r] ++ mid ++ back = l ++ r :: (mid ++ back) := by simp
    have hn : min ((l ++ [r]).length + mid.length)
        (l ++ r :: (mid ++ back)).length - ((l ++ [r]).length - 1) =
        mid.length + 1 := by
      simp only [length_append, length_cons, length_nil]
      omega
    have hi : (l ++ [r]).length - 1 = l.length := by simp
    rw [hlist] at h ⊢
    rw [hn, hi, mergeFrom_eq low high]
    refine Joining.joined_append_settle l h ?_
    refine Joining.settled_append_settle (Joining.sound_append.mp h).2.1 hfront ?_
    rw [drop_succ_cons, drop_left]
    exact hback

lemma mergeAll_joined (h : (joining low high).Sound rs) :
    (joining low high).Joined rs (mergeAll rs) := by
  have hall := mergeFrom_eq low high (rs.length - 1) [] rs
  rw [length_nil, nil_append, nil_append] at hall
  rw [mergeAll, hall]
  refine Joining.joined_settle h ?_
  rcases eq_nil_or_concat rs with rfl | ⟨rs, r, rfl⟩
  · exact List.IsChain.nil
  · rw [concat_eq_append, length_append, length_singleton, Nat.add_sub_cancel, drop_left]
    exact List.IsChain.singleton r

end Ferrix.AddressSpaces.Merging
