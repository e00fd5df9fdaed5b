import Ferrix.Sched.DeadlineTree

namespace Ferrix.Sched.TreeOrder

open Foundations.WrappingClock DeadlineTree List Link

variable {T : Type} {link : Link T} {keys : List Key}

lemma order_self (k : Key) : k.order k = .eq := by
  simp [Key.order]

lemma eq_of_order_eq {a b : Key} (h : a.order b = .eq) : a = b := by
  rw [Key.order] at h
  split at h
  · obtain ⟨deadline, id⟩ := a
    obtain ⟨deadline', id'⟩ := b
    simp_all
  · split at h <;> simp at h

/-- On these keys `order` is a strict linear order. Wrapping times have one
only while they are close together. -/
structure Consistent (keys : List Key) : Prop where
  gt_iff : ∀ a ∈ keys, ∀ b ∈ keys, a.order b = .gt ↔ b.order a = .lt
  trans : ∀ a ∈ keys, ∀ b ∈ keys, ∀ c ∈ keys,
    a.order b = .lt → b.order c = .lt → a.order c = .lt

lemma Consistent.mono {more : List Key} (h : Consistent more) (hsub : keys ⊆ more) :
    Consistent keys :=
  ⟨fun a ha b hb => h.gt_iff a (hsub ha) b (hsub hb),
    fun a ha b hb c hc => h.trans a (hsub ha) b (hsub hb) c (hsub hc)⟩

lemma consistent_of_place (p : BitVec 64 → Int)
    (hp : ∀ a ∈ keys, ∀ b ∈ keys, a.deadline ≠ b.deadline → p a.deadline ≠ p b.deadline ∧
        (before a.deadline b.deadline = true ↔ p a.deadline < p b.deadline)) :
    Consistent keys := by
  have hlt : ∀ a ∈ keys, ∀ b ∈ keys, a.order b = .lt ↔ (a.deadline = b.deadline ∧ a.id < b.id) ∨
        (a.deadline ≠ b.deadline ∧ p a.deadline < p b.deadline) := by
    intro a ha b hb
    rw [Key.order]
    split
    · rename_i heq
      simp [heq, Nat.compare_eq_lt]
    · rename_i hne
      have := (hp a ha b hb hne).2
      split <;> simp_all
  have hgt : ∀ a ∈ keys, ∀ b ∈ keys, a.order b = .gt ↔ (a.deadline = b.deadline ∧ b.id < a.id) ∨
        (a.deadline ≠ b.deadline ∧ p b.deadline < p a.deadline) := by
    intro a ha b hb
    rw [Key.order]
    split
    · rename_i heq
      simp [heq, Nat.compare_eq_gt]
    · rename_i hne
      obtain ⟨hplaces, hbefore⟩ := hp a ha b hb hne
      split
      · rename_i h
        have := hbefore.mp h
        simp [hne]
        omega
      · rename_i h
        have := mt hbefore.mpr h
        simp [hne]
        omega
  constructor
  · intro a ha b hb
    rw [hgt a ha b hb, hlt b hb a ha]
    simp only [eq_comm, ne_eq]
  · intro a ha b hb c hc hab hbc
    rw [hlt a ha b hb] at hab
    rw [hlt b hb c hc] at hbc
    rw [hlt a ha c hc]
    rcases hab with ⟨hab, hid⟩ | ⟨hab, hless⟩ <;> rcases hbc with ⟨hbc, hid'⟩ | ⟨hbc, hless'⟩
    · exact .inl ⟨hab.trans hbc, by omega⟩
    · exact .inr ⟨hab ▸ hbc, hab ▸ hless'⟩
    · exact .inr ⟨hbc ▸ hab, hbc ▸ hless⟩
    · refine .inr ⟨?_, by omega⟩
      intro heq
      rw [heq] at hless
      omega

lemma before_iff_of_near {a b c : BitVec 64} (hab : Near a b) (hac : Near a c)
    (hbc : Near b c) : before a b = true ↔ offset a c < offset b c := by
  rw [before, decide_eq_true_eq, offset_eq_sub_of_all_near hab hac hbc]
  omega

lemma consistent_of_near
    (hnear : ∀ a ∈ keys, ∀ b ∈ keys, Near a.deadline b.deadline) : Consistent keys := by
  rcases keys with _ | ⟨key, keys⟩
  · exact ⟨by simp, by simp⟩
  · refine consistent_of_place (fun deadline => offset deadline key.deadline) ?_
    intro a ha b hb hne
    have hab := hnear a ha b hb
    have hac := hnear a ha key (by simp)
    have hbc := hnear b hb key (by simp)
    refine ⟨?_, before_iff_of_near hab hac hbc⟩
    intro heq
    have := offset_eq_sub_of_all_near hab hac hbc
    exact hne (offset_eq_zero_iff.mp (by omega))

@[simp]
lemma toList_empty : (Link.empty : Link T).toList = [] := by
  rw [toList]

@[simp]
lemma toList_node (entity : Entity T) (left right : Link T) (height : Nat)
    (minVruntime : BitVec 64) : (node entity left right height minVruntime).toList =
      left.toList ++ entity :: right.toList := by
  rw [toList]

@[simp]
lemma toList_update (entity : Entity T) (left right : Link T) :
    (update entity left right).toList = left.toList ++ entity :: right.toList := by
  rw [update, toList_node]

@[simp]
lemma toList_rotateRight (link : Link T) : link.rotateRight.toList = link.toList := by
  unfold Link.rotateRight
  split
  · simp
  · rfl

@[simp]
lemma toList_rotateLeft (link : Link T) : link.rotateLeft.toList = link.toList := by
  unfold Link.rotateLeft
  split
  · simp
  · rfl

@[simp]
lemma toList_rebalance (e : Entity T) (l r : Link T) :
    (rebalance e l r).toList = l.toList ++ e :: r.toList := by
  unfold rebalance
  dsimp only
  split
  · rw [toList_rotateRight, toList_node]
    split <;> simp
  · split
    · rw [toList_rotateLeft, toList_node]
      split <;> simp
    · rfl

lemma perm_insert (link : Link T) (new : Entity T) :
    (link.insert new).toList.Perm (new :: link.toList) := by
  induction link with
  | empty => simp [Link.insert]
  | node e left right height minVruntime ihleft ihright =>
    rw [Link.insert]
    split
    · rw [toList_rebalance, toList_node]
      exact ihleft.append_right _
    · rw [toList_rebalance, toList_node]
      have hright := (ihright.cons e).append_left left.toList
      refine hright.trans ?_
      refine (List.Perm.append_left _ (List.Perm.swap new e _)).trans ?_
      exact perm_middle

lemma toList_removeMin (e : Entity T) (left : Link T) :
    ∀ right : Link T, (left.toList ++ e :: right.toList) =
      (removeMin e left right).2 :: (removeMin e left right).1.toList := by
  induction left generalizing e with
  | empty =>
    intro right
    rfl
  | node leftmost left middle height minVruntime ihleft _ =>
    intro right
    rw [removeMin, toList_node, ihleft leftmost middle]
    simp

lemma toList_join (l r : Link T) : (join l r).toList = l.toList ++ r.toList := by
  rcases l with _ | ⟨e, f, second, height, min⟩
  · simp [join]
  · rcases r with _ | ⟨e', f', second', height', min'⟩
    · simp [join]
    · rw [join]
      · rw [toList_rebalance, toList_node e' f' second', toList_removeMin e']
      · simp

lemma first_eq_head? (link : Link T) : link.first = link.toList.head? := by
  induction link with
  | empty => rfl
  | node e left right height minVruntime ihleft _ =>
    rcases left with _ | ⟨e', first, second, height', min⟩
    · rfl
    · rw [Link.first, ihleft, toList_node e, List.head?_append_of_ne_nil]
      · simp
      · simp

lemma find_eq_none_iff (link : Link T) (id : Nat) :
    link.find id = none ↔ ∀ e ∈ link.toList, e.id ≠ id := by
  induction link with
  | empty => simp [find]
  | node e left right height minVruntime ihleft ihright =>
    rw [find]
    split
    · rename_i heq
      simp only [toList_node, reduceCtorEq, false_iff]
      intro h
      exact h e (by simp) heq
    · rename_i hne
      rw [Option.or_eq_none_iff, ihleft, ihright]
      simp only [toList_node, mem_append, mem_cons]
      constructor
      · rintro ⟨hleft, hright⟩ other (hmem | rfl | hmem)
        · exact hleft other hmem
        · exact hne
        · exact hright other hmem
      · intro h
        exact ⟨fun other hmem => h other (.inl hmem), fun other hmem => h other (.inr (.inr hmem))⟩

lemma exists_of_find {id : Nat} {key : Key} (h : link.find id = some key) :
    ∃ e ∈ link.toList, e.id = id ∧ e.key = key := by
  induction link with
  | empty => simp [find] at h
  | node e left right height minVruntime ihleft ihright =>
    rw [find] at h
    split at h
    · rename_i hid
      exact ⟨e, by simp, hid, by simpa using h⟩
    · rw [Option.or_eq_some_iff] at h
      rcases h with h | ⟨-, h⟩
      · obtain ⟨other, hmem, hother⟩ := ihleft h
        exact ⟨other, by simp [hmem], hother⟩
      · obtain ⟨other, hmem, hother⟩ := ihright h
        exact ⟨other, by simp [hmem], hother⟩

def InOrder (link : Link T) : Prop :=
  link.toList.Pairwise fun a b => a.key.order b.key = .lt

variable {e : Entity T}

lemma inOrder_node {l r : Link T} {height : Nat} {minVruntime : BitVec 64}
    (h : InOrder (.node e l r height minVruntime)) : InOrder l ∧ InOrder r ∧
      (∀ a ∈ l.toList, a.key.order e.key = .lt) ∧
      (∀ b ∈ r.toList, e.key.order b.key = .lt) ∧
      ∀ a ∈ l.toList, ∀ b ∈ r.toList, a.key.order b.key = .lt := by
  rw [InOrder, toList_node, pairwise_append, pairwise_cons] at h
  obtain ⟨hleft, ⟨he, hright⟩, hacross⟩ := h
  exact ⟨hleft, hright, fun a ha => hacross a ha e (by simp), he,
    fun a ha b hb => hacross a ha b (by simp [hb])⟩

lemma insert_spec {new : Entity T} (hkeys : Consistent (new.key :: link.toList.map Entity.key))
    (hnew : new.key ∉ link.toList.map Entity.key) (h : InOrder link) :
    ∃ front back, link.toList = front ++ back ∧ (link.insert new).toList = front ++ new :: back ∧
      (∀ a ∈ front, a.key.order new.key = .lt) ∧ ∀ b ∈ back, new.key.order b.key = .lt := by
  induction link with
  | empty => exact ⟨[], [], rfl, rfl, by simp, by simp⟩
  | node e left right height minVruntime ihleft ihright =>
    obtain ⟨hleft, hright, hbelow, habove, -⟩ := inOrder_node h
    simp only [toList_node, map_append, map_cons, mem_append, mem_cons, not_or] at hkeys hnew
    obtain ⟨hnewLeft, hne, hnewRight⟩ := hnew
    have he : e.key ∈ new.key :: (left.toList.map Entity.key ++
        e.key :: right.toList.map Entity.key) := by simp
    rw [Link.insert]
    split
    · rename_i hless
      obtain ⟨front, back, hsplit, hinsert, hfront, hback⟩ :=
        ihleft (hkeys.mono (cons_subset_cons _ (by simp))) hnewLeft hleft
      refine ⟨front, back ++ e :: right.toList, ?_, ?_, hfront, ?_⟩
      · simp [hsplit]
      · simp [hinsert]
      · refine forall_mem_append.mpr ⟨hback, forall_mem_cons.mpr ⟨hless, fun b hb => ?_⟩⟩
        refine hkeys.trans _ (.head _) _ he _ ?_ hless (habove b hb)
        simp [mem_map_of_mem hb]
    · rename_i hnotless
      have hmore : e.key.order new.key = .lt := by
        rw [← hkeys.gt_iff _ (.head _) _ he]
        rcases horder : new.key.order e.key with _ | _ | _
        · exact absurd horder hnotless
        · exact absurd (eq_of_order_eq horder) hne
        · rfl
      obtain ⟨front, back, hsplit, hinsert, hfront, hback⟩ :=
        ihright (hkeys.mono (cons_subset_cons _ (by simp))) hnewRight hright
      refine ⟨left.toList ++ e :: front, back, ?_, ?_, ?_, hback⟩
      · simp [hsplit]
      · simp [hinsert]
      · refine forall_mem_append.mpr ⟨fun a ha => ?_, forall_mem_cons.mpr ⟨hmore, hfront⟩⟩
        refine hkeys.trans _ ?_ _ he _ (.head _) (hbelow a ha) hmore
        simp [mem_map_of_mem ha]

lemma inOrder_insert {n : Entity T} (hkeys : Consistent (n.key :: link.toList.map Entity.key))
    (hnew : n.key ∉ link.toList.map Entity.key) (h : InOrder link) :
    InOrder (link.insert n) := by
  obtain ⟨front, back, hsplit, hinsert, hfront, hback⟩ := insert_spec hkeys hnew h
  rw [InOrder, hsplit, pairwise_append] at h
  obtain ⟨hf, hsecond, hacross⟩ := h
  rw [InOrder, hinsert, pairwise_append, pairwise_cons]
  exact ⟨hf, ⟨hback, hsecond⟩, fun a ha => forall_mem_cons.mpr ⟨hfront a ha, hacross a ha⟩⟩

lemma remove_spec (hkeys : Consistent (link.toList.map Entity.key))
    (h : InOrder link) (hmem : e ∈ link.toList) : (link.remove e.key).2 = some e ∧
      ∃ front back, link.toList = front ++ e :: back ∧
        (link.remove e.key).1.toList = front ++ back := by
  induction link with
  | empty => simp at hmem
  | node root left right height minVruntime ihleft ihright =>
    obtain ⟨hleft, hright, hbelow, habove, -⟩ := inOrder_node h
    rw [toList_node, mem_append, mem_cons] at hmem
    rw [remove]
    rcases hmem with hmem | rfl | hmem
    · rw [hbelow e hmem]
      obtain ⟨hfound, front, back, hsplit, hrest⟩ := ihleft (hkeys.mono (by simp)) hleft hmem
      refine ⟨hfound, front, back ++ root :: right.toList, ?_, ?_⟩
      · simp [hsplit]
      · simp [hrest]
    · rw [order_self]
      exact ⟨rfl, left.toList, right.toList, rfl, toList_join left right⟩
    · have hroot : root.key ∈ (node root left right height
          minVruntime).toList.map Entity.key := by simp
      have he : e.key ∈ (node root left right height minVruntime).toList.map Entity.key := by
        simp only [toList_node, map_append, map_cons, mem_append, mem_cons]
        exact .inr (.inr (mem_map_of_mem hmem))
      rw [(hkeys.gt_iff _ he _ hroot).mpr (habove e hmem)]
      obtain ⟨hfound, front, back, hsplit, hrest⟩ :=
        ihright (hkeys.mono (by simp)) hright hmem
      refine ⟨hfound, left.toList ++ root :: front, back, ?_, ?_⟩
      · simp [hsplit]
      · simp [hrest]

lemma filter_ne_of_split {α β : Type} [DecidableEq β] {f : α → β} {list front back : List α}
    {a : α} (hnodup : (list.map f).Nodup) (hsplit : list = front ++ a :: back) :
    list.filter (fun b => f b ≠ f a) = front ++ back := by
  subst hsplit
  rw [map_append, map_cons, nodup_middle, nodup_cons] at hnodup
  rw [filter_append, filter_cons_of_neg (by simp)]
  rw [← filter_append, filter_eq_self]
  rw [← map_append] at hnodup
  exact fun b hb => decide_eq_true fun heq => hnodup.1 (heq ▸ mem_map_of_mem hb)

lemma inOrder_remove (hkeys : Consistent (link.toList.map Entity.key))
    (h : InOrder link) (hm : e ∈ link.toList) : InOrder (link.remove e.key).1 := by
  obtain ⟨-, front, back, hsplit, hr⟩ := remove_spec hkeys h hm
  rw [InOrder, hr]
  rw [InOrder, hsplit] at h
  exact h.sublist (by simp)

end Ferrix.Sched.TreeOrder
