import Ferrix.Sched.TreeOrder

namespace Ferrix.Sched.TreeShape

open Foundations.WrappingClock DeadlineTree TreeOrder List Link

variable {T : Type} {link : Link T}

section

/-- Every node's height and minimum are those of its subtrees, which differ in
height by at most one. -/
def WellFormed : Link T → Prop
  | .empty => True
  | .node entity left right height minVruntime =>
    WellFormed left ∧ WellFormed right ∧ height = 1 + max left.height right.height ∧
      left.height ≤ right.height + 1 ∧ right.height ≤ left.height + 1 ∧
      minVruntime = Link.smallest entity.vruntime left.minVruntime right.minVruntime

@[simp]
lemma height_update (e : Entity T) (left right : Link T) :
    (update e left right).height = 1 + max left.height right.height := rfl

@[simp]
lemma height_node (e : Entity T) (left right : Link T) (height : Nat) (minVruntime : BitVec 64) :
    (node e left right height minVruntime).height = height := rfl

variable {left : Link T} {right : Link T}

lemma wellFormed_update {e : Entity T} (hleft : WellFormed left) (hright : WellFormed right)
    (hl : left.height ≤ right.height + 1) (hr : right.height ≤ left.height + 1) :
    WellFormed (update e left right) :=
  ⟨hleft, hright, rfl, hl, hr, rfl⟩

lemma exists_node_of_height_pos (link : Link T) (h : 0 < link.height) :
    ∃ e left right height minVruntime, link = .node e left right height minVruntime := by
  cases link with
  | empty => simp [height] at h
  | node e left right height minVruntime => exact ⟨_, _, _, _, _, rfl⟩

lemma rebalance_left (e : Entity T) (hleft : WellFormed left) (hright : WellFormed right)
    (htall : left.height = right.height + 2) : WellFormed (rebalance e left right) ∧
      left.height ≤ (rebalance e left right).height ∧
      (rebalance e left right).height ≤ left.height + 1 := by
  have hbalance : (update e left right).balance > 1 := by
    simp only [balance, update]
    omega
  rw [rebalance]
  rw [if_pos hbalance]
  obtain ⟨pivot, f, second, height, min, rfl⟩ :=
    exists_node_of_height_pos left (by omega)
  obtain ⟨hf, hsecond, hheight, hfirstHigh, hsecondHigh, -⟩ := hleft
  rw [height_node] at htall
  split
  · rename_i hskew
    simp only [balance] at hskew
    obtain ⟨inner, third, fourth, innerHeight, innerMin, rfl⟩ :=
      exists_node_of_height_pos second (by omega)
    obtain ⟨hthird, hfourth, hinner, hthirdHigh, hfourthHigh, -⟩ := hsecond
    simp only [height_node] at hskew hheight hfirstHigh hsecondHigh
    rw [Link.rotateLeft, Link.update, Link.rotateRight]
    refine ⟨wellFormed_update (wellFormed_update hf hthird ?_ ?_)
      (wellFormed_update hfourth hright ?_ ?_) ?_ ?_, ?_, ?_⟩
    all_goals
      try simp only [height_update, height_node]
      omega
  · rename_i hskew
    simp only [balance] at hskew
    rw [Link.rotateRight]
    refine ⟨wellFormed_update hf (wellFormed_update hsecond hright ?_ ?_) ?_ ?_, ?_, ?_⟩
    all_goals
      try simp only [height_update, height_node]
      omega

lemma rebalance_right (e : Entity T) (hleft : WellFormed left) (hright : WellFormed right)
    (htall : right.height = left.height + 2) : WellFormed (rebalance e left right) ∧
      right.height ≤ (rebalance e left right).height ∧
      (rebalance e left right).height ≤ right.height + 1 := by
  have hbalance : (update e left right).balance < -1 := by
    simp only [balance, update]
    omega
  rw [rebalance]
  rw [if_neg (by omega), if_pos hbalance]
  obtain ⟨pivot, f, second, height, min, rfl⟩ :=
    exists_node_of_height_pos right (by omega)
  obtain ⟨hf, hsecond, hheight, hfirstHigh, hsecondHigh, -⟩ := hright
  rw [height_node] at htall
  split
  · rename_i hskew
    simp only [balance] at hskew
    obtain ⟨inner, third, fourth, innerHeight, innerMin, rfl⟩ :=
      exists_node_of_height_pos f (by omega)
    obtain ⟨hthird, hfourth, hinner, hthirdHigh, hfourthHigh, -⟩ := hf
    simp only [height_node] at hskew hheight hfirstHigh hsecondHigh
    rw [Link.rotateRight, Link.update, Link.rotateLeft]
    refine ⟨wellFormed_update (wellFormed_update hleft hthird ?_ ?_)
      (wellFormed_update hfourth hsecond ?_ ?_) ?_ ?_, ?_, ?_⟩
    all_goals
      try simp only [height_update, height_node]
      omega
  · rename_i hskew
    simp only [balance] at hskew
    rw [Link.rotateLeft]
    refine ⟨wellFormed_update (wellFormed_update hleft hf ?_ ?_) hsecond ?_ ?_, ?_, ?_⟩
    all_goals
      try simp only [height_update, height_node]
      omega

lemma rebalance_spec (e : Entity T) (hleft : WellFormed left) (hright : WellFormed right)
    (hl : left.height ≤ right.height + 2) (hr : right.height ≤ left.height + 2) :
    WellFormed (rebalance e left right) ∧
      max left.height right.height ≤ (rebalance e left right).height ∧
      (rebalance e left right).height ≤ 1 + max left.height right.height ∧
      (left.height ≤ right.height + 1 → right.height ≤ left.height + 1 →
        (rebalance e left right).height = 1 + max left.height right.height) := by
  by_cases hleftTall : left.height = right.height + 2
  · obtain ⟨hwell, hlow, hhigh⟩ := rebalance_left e hleft hright hleftTall
    exact ⟨hwell, by omega, by omega, by omega⟩
  · by_cases hrightTall : right.height = left.height + 2
    · obtain ⟨hwell, hlow, hhigh⟩ := rebalance_right e hleft hright hrightTall
      exact ⟨hwell, by omega, by omega, by omega⟩
    · have hsame : rebalance e left right = update e left right := by
        rw [rebalance]
        dsimp only
        rw [if_neg, if_neg]
        · simp only [balance, update]
          omega
        · simp only [balance, update]
          omega
      rw [hsame, height_update]
      exact ⟨wellFormed_update hleft hright (by omega) (by omega), by omega, by omega,
        fun _ _ => rfl⟩

lemma insert_wellFormed (new : Entity T) (h : WellFormed link) :
    WellFormed (link.insert new) ∧ link.height ≤ (link.insert new).height ∧
      (link.insert new).height ≤ link.height + 1 := by
  induction link with
  | empty => simp [Link.insert, Link.update, WellFormed, Link.height]
  | node e left right height minVruntime ihleft ihright =>
    obtain ⟨hleft, hright, hheight, hl, hr, -⟩ := h
    rw [Link.insert, height_node]
    split
    · obtain ⟨hwell, hlow, hhigh⟩ := ihleft hleft
      obtain ⟨hnode, hnodeLow, hnodeHigh, hsame⟩ :=
        rebalance_spec e hwell hright (by omega) (by omega)
      exact ⟨hnode, by omega, by omega⟩
    · obtain ⟨hwell, hlow, hhigh⟩ := ihright hright
      obtain ⟨hnode, hnodeLow, hnodeHigh, hsame⟩ :=
        rebalance_spec e hleft hwell (by omega) (by omega)
      exact ⟨hnode, by omega, by omega⟩

lemma removeMin_wellFormed :
    ∀ (e : Entity T) {right : Link T}, WellFormed left → WellFormed right →
      left.height ≤ right.height + 1 → right.height ≤ left.height + 1 →
      WellFormed (removeMin e left right).1 ∧
        max left.height right.height ≤ (removeMin e left right).1.height ∧
        (removeMin e left right).1.height ≤ 1 + max left.height right.height := by
  induction left with
  | empty =>
    intro e right _ hright _ _
    refine ⟨hright, ?_, ?_⟩ <;> simp [removeMin, height]
  | node leftmost left middle height minVruntime ihleft _ =>
    intro e right h hright hl hr
    obtain ⟨hleft, hmiddle, hheight, hll, hlr, -⟩ := h
    rw [height_node] at hl hr ⊢
    rw [removeMin]
    obtain ⟨hwell, hlow, hhigh⟩ := ihleft leftmost hleft hmiddle hll hlr
    obtain ⟨hnode, hnodeLow, hnodeHigh, hsame⟩ :=
      rebalance_spec e hwell hright (by omega) (by omega)
    exact ⟨hnode, by dsimp only; omega, by dsimp only; omega⟩

lemma join_wellFormed (hleft : WellFormed left) (hright : WellFormed right)
    (hl : left.height ≤ right.height + 1) (hr : right.height ≤ left.height + 1) :
    WellFormed (join left right) ∧ max left.height right.height ≤ (join left right).height ∧
      (join left right).height ≤ 1 + max left.height right.height := by
  rcases left with _ | ⟨e, f, second, height, min⟩
  · refine ⟨by simpa [join] using hright, ?_, ?_⟩ <;> simp [join, height]
  · rcases right with _ | ⟨e', f', second', height', min'⟩
    · refine ⟨by simpa [Link.join] using hleft, ?_, ?_⟩ <;> simp [Link.join, Link.height]
    · rw [join]
      · obtain ⟨hf, hsecond, hheight, hfl, hfr, -⟩ := hright
        simp only [height_node] at hl hr ⊢
        obtain ⟨hwell, hlow, hhigh⟩ :=
          removeMin_wellFormed e' hf hsecond hfl hfr
        obtain ⟨hnode, hnodeLow, hnodeHigh, hsame⟩ := rebalance_spec
          (removeMin e' f' second').2 hleft hwell
          (by rw [height_node]; omega) (by rw [height_node]; omega)
        simp only [height_node] at hnodeLow hnodeHigh hsame
        exact ⟨hnode, by omega, by omega⟩
      · simp

lemma remove_wellFormed (key : Key) (h : WellFormed link) :
    WellFormed (link.remove key).1 ∧ link.height ≤ (link.remove key).1.height + 1 ∧
      (link.remove key).1.height ≤ link.height := by
  induction link with
  | empty => simp [remove, WellFormed, height]
  | node e left right height minVruntime ihleft ihright =>
    obtain ⟨hleft, hright, hheight, hl, hr, -⟩ := h
    rw [remove, height_node]
    split
    · obtain ⟨hwell, hlow, hhigh⟩ := ihleft hleft
      obtain ⟨hnode, hnodeLow, hnodeHigh, hsame⟩ :=
        rebalance_spec e hwell hright (by omega) (by omega)
      exact ⟨hnode, by dsimp only; omega, by dsimp only; omega⟩
    · obtain ⟨hwell, hlow, hhigh⟩ := ihright hright
      obtain ⟨hnode, hnodeLow, hnodeHigh, hsame⟩ :=
        rebalance_spec e hleft hwell (by omega) (by omega)
      exact ⟨hnode, by dsimp only; omega, by dsimp only; omega⟩
    · obtain ⟨hwell, hlow, hhigh⟩ := join_wellFormed hleft hright hl hr
      exact ⟨hwell, by dsimp only; omega, by dsimp only; omega⟩

/-- Every second level of a balanced tree at least doubles its nodes. -/
theorem two_pow_height_le (h : WellFormed link) :
    2 ^ (link.height / 2) ≤ link.toList.length + 1 := by
  induction link with
  | empty => simp [height]
  | node e left right height minVruntime ihl ihr =>
    obtain ⟨hleft, hright, rfl, hl, hr, -⟩ := h
    have hsum := Nat.add_le_add (ihl hleft) (ihr hright)
    have hpow : ∀ n, max left.height right.height ≤ n + 1 →
        2 ^ ((1 + max left.height right.height) / 2) ≤ 2 ^ (n / 2) * 2 := by
      intro n hn
      rw [← pow_succ]
      exact Nat.pow_le_pow_right (by decide) (by omega)
    have hpowl := hpow left.height (by omega)
    have hpowr := hpow right.height (by omega)
    rw [height_node, toList_node, length_append, length_cons]
    omega

end

variable {place : BitVec 64 → Int} {times : List (BitVec 64)}

/-- A line the virtual times lie on, in the order `before` compares them by. -/
def Placed (place : BitVec 64 → Int) (times : List (BitVec 64)) : Prop :=
  ∀ a ∈ times, ∀ b ∈ times, before a b = true ↔ place a < place b

lemma Placed.mono {more : List (BitVec 64)} (h : Placed place more) (hsub : times ⊆ more) :
    Placed place times :=
  fun a ha b hb => h a (hsub ha) b (hsub hb)

lemma placed_of_near (hnear : ∀ a ∈ times, ∀ b ∈ times, Near a b) {origin : BitVec 64}
    (horigin : origin ∈ times) : Placed (fun time => offset time origin) times :=
  fun a ha b hb => before_iff_of_near (hnear a ha b hb) (hnear a ha origin horigin)
    (hnear b hb origin horigin)

def vruntimes (link : Link T) : List (BitVec 64) := link.toList.map Entity.vruntime

lemma earlier_spec (hplaced : Placed place times) {a b : BitVec 64} (ha : a ∈ times)
    (hb : b ∈ times) : (earlier a b = a ∨ earlier a b = b) ∧ place (earlier a b) ≤ place a ∧
      place (earlier a b) ≤ place b := by
  have hbefore := hplaced b hb a ha
  rw [earlier]
  split
  · rename_i h
    have := hbefore.mp h
    exact ⟨.inr rfl, by omega, Int.le_refl _⟩
  · rename_i h
    have := mt hbefore.mpr h
    exact ⟨.inl rfl, Int.le_refl _, by omega⟩

lemma smallest_spec (hplaced : Placed place times) {vruntime : BitVec 64}
    {left right : Option (BitVec 64)} (hvruntime : vruntime ∈ times) (hleft : ∀ m ∈ left, m ∈ times)
    (hright : ∀ m ∈ right, m ∈ times) : (smallest vruntime left right = vruntime ∨
        smallest vruntime left right ∈ left ∨ smallest vruntime left right ∈ right) ∧
      place (smallest vruntime left right) ≤ place vruntime ∧
      (∀ m ∈ left, place (smallest vruntime left right) ≤ place m) ∧
      ∀ m ∈ right, place (smallest vruntime left right) ≤ place m := by
  have htwo : ∀ {a : BitVec 64} {o : Option (BitVec 64)}, a ∈ times → (∀ m ∈ o, m ∈ times) →
      (o.elim a (earlier a) = a ∨ o.elim a (earlier a) ∈ o) ∧
        place (o.elim a (earlier a)) ≤ place a ∧
        ∀ m ∈ o, place (o.elim a (earlier a)) ≤ place m := by
    intro a o ha ho
    rcases o with _ | m
    · simp
    · obtain ⟨hone, hf, hsecond⟩ := earlier_spec hplaced ha (ho m rfl)
      simp only [Option.elim_some, Option.mem_def, Option.some.injEq, forall_eq']
      exact ⟨hone.imp id Eq.symm, hf, hsecond⟩
  have hmin := htwo hvruntime hleft
  have hmem : left.elim vruntime (earlier vruntime) ∈ times := by
    rcases hmin.1 with h | h
    · rw [h]
      exact hvruntime
    · exact hleft _ h
  have hall := htwo hmem hright
  rw [smallest]
  refine ⟨?_, hall.2.1.trans hmin.2.1, ?_, hall.2.2⟩
  · rcases hall.1 with h | h
    · rw [h]
      exact hmin.1.imp id .inl
    · exact .inr (.inr h)
  · intro m hm
    exact hall.2.1.trans (hmin.2.2 m hm)

lemma exists_minVruntime {v : BitVec 64} (hv : v ∈ vruntimes link) :
    ∃ m, m ∈ link.minVruntime := by
  cases link with
  | empty => simp [vruntimes] at hv
  | node e left right height minVruntime => exact ⟨minVruntime, rfl⟩

/-- A subtree's recorded minimum is the virtual runtime of one of its entities,
and none of them is before it. -/
theorem minVruntime_spec (h : WellFormed link) (hplaced : Placed place (vruntimes link)) :
    ∀ m ∈ link.minVruntime, m ∈ vruntimes link ∧ ∀ v ∈ vruntimes link, place m ≤ place v := by
  induction link with
  | empty => simp [minVruntime]
  | node e left right height minVruntime ihleft ihright =>
    obtain ⟨hleft, hright, -, -, -, hmin⟩ := h
    have hsubLeft : vruntimes left ⊆ vruntimes (.node e left right height minVruntime) := by
      simp [vruntimes]
    have hsubRight : vruntimes right ⊆ vruntimes (.node e left right height minVruntime) := by
      simp [vruntimes]
    have he : e.vruntime ∈ vruntimes (.node e left right height minVruntime) := by
      simp [vruntimes]
    have hl := ihleft hleft (hplaced.mono hsubLeft)
    have hr := ihright hright (hplaced.mono hsubRight)
    obtain ⟨hone, hleEntity, hleLeft, hleRight⟩ := smallest_spec hplaced he
      (fun m hm => hsubLeft (hl m hm).1) (fun m hm => hsubRight (hr m hm).1)
    rw [← hmin] at hone hleEntity hleLeft hleRight
    simp only [Link.minVruntime, Option.mem_def, Option.some.injEq, forall_eq']
    constructor
    · rcases hone with h | h | h
      · rw [h]
        exact he
      · exact hsubLeft (hl _ h).1
      · exact hsubRight (hr _ h).1
    · intro v hv
      rw [vruntimes, toList_node, map_append, map_cons, mem_append, mem_cons] at hv
      rcases hv with hv | rfl | hv
      · obtain ⟨m, hm⟩ := exists_minVruntime hv
        exact (hleLeft m hm).trans ((hl m hm).2 v hv)
      · exact hleEntity
      · obtain ⟨m, hm⟩ := exists_minVruntime hv
        exact (hleRight m hm).trans ((hr m hm).2 v hv)

/-- The pick is the first entity in key order that is eligible, for a condition
that holds of everything before what it holds of. -/
theorem pick_eq_find? (h : WellFormed link)
    (hplaced : Placed place (vruntimes link)) {eligible : BitVec 64 → Bool}
    (hmono : ∀ a ∈ vruntimes link, ∀ b ∈ vruntimes link, place a ≤ place b → eligible b = true →
      eligible a = true) :
    link.pick eligible = link.toList.find? fun e => eligible e.vruntime := by
  induction link with
  | empty => rfl
  | node e left right height minVruntime ihleft ihright =>
    obtain ⟨hleft, hright, -⟩ := h
    have hsubLeft : vruntimes left ⊆ vruntimes (.node e left right height minVruntime) := by
      simp [vruntimes]
    have hsubRight : vruntimes right ⊆ vruntimes (.node e left right height minVruntime) := by
      simp [vruntimes]
    have hminLeft := minVruntime_spec hleft (hplaced.mono hsubLeft)
    rw [pick, toList_node, List.find?_append]
    rw [ihleft hleft (hplaced.mono hsubLeft)
        (fun a ha b hb => hmono a (hsubLeft ha) b (hsubLeft hb)),
      ihright hright (hplaced.mono hsubRight)
        (fun a ha b hb => hmono a (hsubRight ha) b (hsubRight hb))]
    split
    · rename_i hany
      rw [Option.any_eq_true] at hany
      obtain ⟨m, hm, heligible⟩ := hany
      obtain ⟨a, ha, rfl⟩ := mem_map.mp (hminLeft m hm).1
      have hfound : (left.toList.find? fun e => eligible e.vruntime).isSome := by
        rw [List.find?_isSome]
        exact ⟨a, ha, heligible⟩
      rw [Option.or_of_isSome hfound]
    · rename_i hany
      have hnone : (left.toList.find? fun e => eligible e.vruntime) = none := by
        rw [List.find?_eq_none]
        intro a ha heligible
        have hav : a.vruntime ∈ vruntimes left := mem_map_of_mem ha
        obtain ⟨m, hm⟩ := exists_minVruntime hav
        have hmv := hminLeft m hm
        refine hany ((Option.any_eq_true _ _).mpr ⟨m, hm, ?_⟩)
        exact hmono m (hsubLeft hmv.1) _ (hsubLeft hav) (hmv.2 _ hav) heligible
      rw [hnone, Option.none_or, List.find?_cons]
      split <;> simp_all

lemma checkNode_eq_ok (h : WellFormed link) (horder : InOrder link)
    (hkeys : Consistent (link.toList.map Entity.key)) : ∀ low high : Option Key,
      (∀ k ∈ low, ∀ a ∈ link.toList, a.key.order k = .gt) →
      (∀ k ∈ high, ∀ a ∈ link.toList, a.key.order k = .lt) →
      link.checkNode low high = .ok (link.height, link.minVruntime, link.toList.length) := by
  induction link with
  | empty =>
    intro low high _ _
    rfl
  | node e left right height minVruntime ihleft ihright =>
    intro low high hlow hhigh
    obtain ⟨hleft, hright, hheight, hl, hr, hmin⟩ := h
    obtain ⟨hinLeft, hinRight, hbelow, habove, -⟩ := inOrder_node horder
    have hbounds : ((low.any fun low => e.key.order low ≠ .gt) ||
        (high.any fun high => e.key.order high ≠ .lt)) = false := by
      rw [Bool.or_eq_false_iff]
      constructor
      · rcases low with _ | k
        · rfl
        · simp [hlow k rfl e (by simp)]
      · rcases high with _ | k
        · rfl
        · simp [hhigh k rfl e (by simp)]
    have hcheckLeft := ihleft hleft hinLeft (hkeys.mono (by simp)) low (some e.key)
      (fun k hk a ha => hlow k hk a (by simp [ha]))
      (by
        rintro k ⟨rfl⟩ a ha
        exact hbelow a ha)
    have hcheckRight := ihright hright hinRight (hkeys.mono (by simp)) (some e.key) high (by
        rintro k ⟨rfl⟩ b hb
        rw [hkeys.gt_iff _ (mem_map_of_mem (by simp [hb])) _ (mem_map_of_mem (by simp))]
        exact habove b hb)
      (fun k hk b hb => hhigh k hk b (by simp [hb]))
    rw [checkNode, hbounds, hcheckLeft, hcheckRight]
    simp only [Bool.false_eq_true, if_false]
    rw [if_neg (by omega), if_neg (by omega), if_neg (by simp [hmin])]
    simp [Link.height, Link.minVruntime, Nat.add_assoc]

lemma check_eq_ok {tree : DeadlineTree.Tree T} (h : WellFormed tree.root)
    (horder : InOrder tree.root) (hkeys : Consistent (tree.toList.map Entity.key)) :
    tree.check = .ok tree.toList.length := by
  rw [DeadlineTree.Tree.check, checkNode_eq_ok h horder hkeys none none (by simp) (by simp)]
  rfl

end Ferrix.Sched.TreeShape
