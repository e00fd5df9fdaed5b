import Mathlib.Tactic

/-!
Ordered lists of things that each occupy a stretch of numbers: cutting them at a
number, and joining neighbours that continue each other.
-/

namespace Ferrix.Foundations.Stretches

open List

/-- Things that occupy the numbers from `start` up to `stop`, and that can be cut
in two. -/
structure Stretch (R : Type*) where
  start : R → Nat
  stop : R → Nat
  head : R → Nat → R
  tail : R → Nat → R
  start_head : ∀ r a, start (head r a) = start r
  stop_head : ∀ r a, stop (head r a) = a
  start_tail : ∀ r a, start (tail r a) = a
  stop_tail : ∀ r a, stop (tail r a) = stop r

attribute [simp] Stretch.start_head Stretch.stop_head Stretch.start_tail Stretch.stop_tail

variable {R : Type*} (S : Stretch R) {s : R}

namespace Stretch

def below (a : Nat) (l : List R) : List R :=
  l.filterMap fun r =>
    if S.start r < a then some (if S.stop r ≤ a then r else S.head r a) else none

def above (a : Nat) (l : List R) : List R :=
  l.filterMap fun r =>
    if a < S.stop r then some (if a ≤ S.start r then r else S.tail r a) else none

/-- Nothing is empty, and everything lies wholly before what follows it. -/
structure Ordered (l : List R) : Prop where
  solid : ∀ r ∈ l, S.start r < S.stop r
  apart : l.Pairwise fun r s => S.stop r ≤ S.start s

/-- Something in the list covers `x`, and has the property `Q` there. -/
def Holds (Q : R → Nat → Prop) (l : List R) (x : Nat) : Prop :=
  ∃ r ∈ l, S.start r ≤ x ∧ x < S.stop r ∧ Q r x

variable {S} {l front back : List R} {r : R} {a x : Nat} {Q : R → Nat → Prop}

lemma Ordered.nil : S.Ordered [] :=
  ⟨forall_mem_nil _, List.Pairwise.nil⟩

lemma ordered_append : S.Ordered (front ++ back) ↔ S.Ordered front ∧ S.Ordered back ∧
      ∀ r ∈ front, ∀ s ∈ back, S.stop r ≤ S.start s := by
  constructor
  · intro h
    obtain ⟨hfront, hback, hbetween⟩ := pairwise_append.mp h.apart
    obtain ⟨hsolid, hsolid'⟩ := forall_mem_append.mp h.solid
    exact ⟨⟨hsolid, hfront⟩, ⟨hsolid', hback⟩, hbetween⟩
  · rintro ⟨hfront, hback, hbetween⟩
    exact ⟨forall_mem_append.mpr ⟨hfront.solid, hback.solid⟩,
      pairwise_append.mpr ⟨hfront.apart, hback.apart, hbetween⟩⟩

lemma ordered_cons :
    S.Ordered (r :: l) ↔ S.start r < S.stop r ∧ S.Ordered l ∧ ∀ s ∈ l, S.stop r ≤ S.start s := by
  constructor
  · intro h
    obtain ⟨hhead, hr⟩ := pairwise_cons.mp h.apart
    obtain ⟨hsolid, hsolid'⟩ := forall_mem_cons.mp h.solid
    exact ⟨hsolid, ⟨hsolid', hr⟩, hhead⟩
  · rintro ⟨hsolid, hr, hhead⟩
    exact ⟨forall_mem_cons.mpr ⟨hsolid, hr.solid⟩, pairwise_cons.mpr ⟨hhead, hr.apart⟩⟩

lemma ordered_iff_isChain : S.Ordered l ↔
    (∀ r ∈ l, S.start r < S.stop r) ∧ l.IsChain fun r s => S.stop r ≤ S.start s := by
  constructor
  · exact fun h => ⟨h.solid, h.apart.isChain⟩
  · rintro ⟨hsolid, hchain⟩
    induction l with
    | nil => exact .nil
    | cons r l ih =>
      have hr := ih (forall_mem_cons.mp hsolid).2 hchain.tail
      refine ordered_cons.mpr ⟨hsolid r (by simp), hr, ?_⟩
      rcases l with _ | ⟨s, l⟩
      · simp
      · have hf := (isChain_cons_cons.mp hchain).1
        obtain ⟨hs, -, hhead⟩ := ordered_cons.mp hr
        exact forall_mem_cons.mpr ⟨hf, fun t ht => hf.trans (hs.le.trans (hhead t ht))⟩

lemma below_append : S.below a (front ++ back) = S.below a front ++ S.below a back :=
  filterMap_append

lemma above_append : S.above a (front ++ back) = S.above a front ++ S.above a back :=
  filterMap_append

lemma below_of_stop_le (h : S.Ordered l) (hle : ∀ r ∈ l, S.stop r ≤ a) : S.below a l = l := by
  rw [below]
  conv_rhs => rw [← filterMap_some (l := l)]
  refine filterMap_congr fun r hr => ?_
  have hsolid := h.solid r hr
  have hstop := hle r hr
  rw [if_pos (by omega), if_pos hstop]

lemma below_of_le_start (hle : ∀ r ∈ l, a ≤ S.start r) : S.below a l = [] := by
  rw [below, filterMap_eq_nil_iff]
  intro r hr
  rw [if_neg (not_lt.mpr (hle r hr))]

lemma above_of_le_start (h : S.Ordered l) (hle : ∀ r ∈ l, a ≤ S.start r) : S.above a l = l := by
  rw [above]
  conv_rhs => rw [← filterMap_some (l := l)]
  refine filterMap_congr fun r hr => ?_
  have hsolid := h.solid r hr
  have hstart := hle r hr
  rw [if_pos (by omega), if_pos hstart]

lemma above_of_stop_le (hle : ∀ r ∈ l, S.stop r ≤ a) : S.above a l = [] := by
  rw [above, filterMap_eq_nil_iff]
  intro r hr
  rw [if_neg (not_lt.mpr (hle r hr))]

/-- How a list stands to a number: either it falls between two elements, or
inside one. -/
inductive Cut (S : Stretch R) (a : Nat) : List R → Prop where
  | clean (front back : List R) (hfront : ∀ r ∈ front, S.stop r ≤ a)
      (hback : ∀ r ∈ back, a ≤ S.start r) : Cut S a (front ++ back)
  | inside (front : List R) (r : R) (back : List R) (hfront : ∀ r ∈ front, S.stop r ≤ a)
      (hstart : S.start r < a) (hstop : a < S.stop r) (hback : ∀ r ∈ back, a ≤ S.start r) :
      Cut S a (front ++ r :: back)

lemma Ordered.cut (h : S.Ordered l) (a : Nat) : Cut S a l := by
  induction l with
  | nil => exact .clean [] [] (by simp) (by simp)
  | cons r l ih =>
    obtain ⟨hsolid, hr, hhead⟩ := ordered_cons.mp h
    rcases lt_or_ge a (S.stop r) with hstop | hstop
    · have hback : ∀ s ∈ l, a ≤ S.start s := fun s hs => hstop.le.trans (hhead s hs)
      rcases lt_or_ge (S.start r) a with hstart | hstart
      · exact .inside [] r l (by simp) hstart hstop hback
      · exact .clean [] (r :: l) (by simp) (forall_mem_cons.mpr ⟨hstart, hback⟩)
    · cases ih hr with
      | clean front back hfront hback =>
        exact .clean (r :: front) back (forall_mem_cons.mpr ⟨hstop, hfront⟩) hback
      | inside front s back hfront hstart hstop' hback =>
        exact .inside (r :: front) s back (forall_mem_cons.mpr ⟨hstop, hfront⟩) hstart hstop' hback

/-- A list falls into what ends by `a`, what reaches between `a` and `b`, and what
starts from `b` on. -/
theorem Ordered.exists_touched (h : S.Ordered l) (a b : Nat) :
    ∃ front mid back, l = front ++ mid ++ back ∧ (∀ r ∈ front, S.stop r ≤ a) ∧
      (∀ r ∈ mid, a < S.stop r ∧ S.start r < b) ∧ ∀ r ∈ back, b ≤ S.start r := by
  have hrest : ∀ rest, S.Ordered rest → (∀ r ∈ rest, a < S.stop r) →
      ∃ mid back, rest = mid ++ back ∧ (∀ r ∈ mid, a < S.stop r ∧ S.start r < b) ∧
        ∀ r ∈ back, b ≤ S.start r := by
    intro rest hordered hreach
    cases hordered.cut b with
    | clean mid back hmid hback =>
      refine ⟨mid, back, rfl, ?_, hback⟩
      intro r hr
      have hsolid := hordered.solid r (mem_append_left _ hr)
      exact ⟨hreach r (mem_append_left _ hr), Nat.lt_of_lt_of_le hsolid (hmid r hr)⟩
    | inside mid r back hmid hstart hstop hback =>
      refine ⟨mid ++ [r], back, by simp, ?_, hback⟩
      intro s hs
      refine ⟨hreach s (by simpa using mem_append_left back hs), ?_⟩
      rcases mem_append.mp hs with hs | hs
      · exact Nat.lt_of_lt_of_le (hordered.solid s (mem_append_left _ hs)) (hmid s hs)
      · rw [mem_singleton.mp hs]
        exact hstart
  cases h.cut a with
  | clean front rest hfront hback =>
    have hordered := (ordered_append.mp h).2.1
    obtain ⟨mid, back, rfl, hmid, hl⟩ := hrest rest hordered
      fun r hr => Nat.lt_of_le_of_lt (hback r hr) (hordered.solid r hr)
    exact ⟨front, mid, back, (append_assoc _ _ _).symm, hfront, hmid, hl⟩
  | inside front r rest hfront hstart hstop hback =>
    have hordered := (ordered_append.mp h).2.1
    obtain ⟨mid, back, heq, hmid, hl⟩ := hrest (r :: rest) hordered
      (forall_mem_cons.mpr ⟨hstop, fun s hs =>
        Nat.lt_of_le_of_lt (hback s hs) (hordered.solid s (by simp [hs]))⟩)
    exact ⟨front, mid, back, by rw [heq, append_assoc], hfront, hmid, hl⟩

section

variable (hfront : ∀ r ∈ front, S.stop r ≤ a) (hback : ∀ r ∈ back, a ≤ S.start r)
include hfront hback

lemma below_clean (h : S.Ordered (front ++ back)) : S.below a (front ++ back) = front := by
  rw [below_append, below_of_stop_le (ordered_append.mp h).1 hfront, below_of_le_start hback,
    append_nil]

lemma above_clean (h : S.Ordered (front ++ back)) : S.above a (front ++ back) = back := by
  rw [above_append, above_of_stop_le hfront, above_of_le_start (ordered_append.mp h).2.1 hback,
    nil_append]

variable (h : S.Ordered (front ++ r :: back)) (hstart : S.start r < a) (hstop : a < S.stop r)
include h hstart hstop

lemma below_inside : S.below a (front ++ r :: back) = front ++ [S.head r a] := by
  rw [below_append, below_of_stop_le (ordered_append.mp h).1 hfront]
  have hr : S.below a (r :: back) = S.head r a :: S.below a back := by
    rw [below, below, filterMap_cons, if_pos hstart, if_neg (not_le.mpr hstop)]
  rw [hr, below_of_le_start hback]

lemma above_inside : S.above a (front ++ r :: back) = S.tail r a :: back := by
  have hordered := (ordered_cons.mp (ordered_append.mp h).2.1).2.1
  have hr : S.above a (r :: back) = S.tail r a :: S.above a back := by
    rw [above, above, filterMap_cons, if_pos hstop, if_neg (not_le.mpr hstart)]
  rw [above_append, above_of_stop_le hfront, hr, above_of_le_start hordered hback, nil_append]

end

lemma below_singleton (hstart : S.start r < a) (hstop : a < S.stop r) :
    S.below a [r] = [S.head r a] := by
  simp [below, hstart, not_le.mpr hstop]

lemma above_singleton (hstart : S.start r < a) (hstop : a < S.stop r) :
    S.above a [r] = [S.tail r a] := by
  simp [above, hstop, not_le.mpr hstart]

lemma mem_below :
    s ∈ S.below a l ↔ ∃ r ∈ l, S.start r < a ∧ s = if S.stop r ≤ a then r else S.head r a := by
  rw [below, mem_filterMap]
  refine exists_congr fun r => and_congr_right fun _ => ?_
  split <;> simp_all [eq_comm]

lemma mem_above :
    s ∈ S.above a l ↔ ∃ r ∈ l, a < S.stop r ∧ s = if a ≤ S.start r then r else S.tail r a := by
  rw [above, mem_filterMap]
  refine exists_congr fun r => and_congr_right fun _ => ?_
  split <;> simp_all [eq_comm]

lemma stop_le_of_mem_below (hs : s ∈ S.below a l) : S.stop s ≤ a := by
  obtain ⟨r, -, -, rfl⟩ := mem_below.mp hs
  split
  · assumption
  · rw [S.stop_head]

lemma le_start_of_mem_above (hs : s ∈ S.above a l) : a ≤ S.start s := by
  obtain ⟨r, -, -, rfl⟩ := mem_above.mp hs
  split
  · assumption
  · rw [S.start_tail]

lemma exists_start_of_mem_below (hs : s ∈ S.below a l) : ∃ r ∈ l, S.start s = S.start r := by
  obtain ⟨r, hr, -, rfl⟩ := mem_below.mp hs
  refine ⟨r, hr, ?_⟩
  split
  · rfl
  · rw [S.start_head]

lemma Ordered.below (h : S.Ordered l) (a : Nat) : S.Ordered (S.below a l) := by
  cases h.cut a with
  | clean front back hfront hback =>
    rw [below_clean hfront hback h]
    exact (ordered_append.mp h).1
  | inside front r back hfront hstart hstop hback =>
    rw [below_inside hfront hback h hstart hstop]
    obtain ⟨hordered, -, hbetween⟩ := ordered_append.mp h
    refine ordered_append.mpr ⟨hordered, ordered_cons.mpr ⟨?_, .nil, by simp⟩, ?_⟩
    · rw [S.start_head, S.stop_head]
      exact hstart
    · intro q hq s hs
      rw [mem_singleton.mp hs, S.start_head]
      exact hbetween q hq r (by simp)

lemma Ordered.above (h : S.Ordered l) (a : Nat) : S.Ordered (S.above a l) := by
  cases h.cut a with
  | clean front back hfront hback =>
    rw [above_clean hfront hback h]
    exact (ordered_append.mp h).2.1
  | inside front r back hfront hstart hstop hback =>
    rw [above_inside hfront hback h hstart hstop]
    obtain ⟨-, hordered, hbetween⟩ := ordered_cons.mp (ordered_append.mp h).2.1
    refine ordered_cons.mpr ⟨?_, hordered, ?_⟩
    · rw [S.start_tail, S.stop_tail]
      exact hstop
    · intro s hs
      rw [S.stop_tail]
      exact hbetween s hs

lemma length_below_le (a : Nat) (l : List R) : (S.below a l).length ≤ l.length :=
  length_filterMap_le _ _

lemma length_above_le (a : Nat) (l : List R) : (S.above a l).length ≤ l.length :=
  length_filterMap_le _ _

lemma Ordered.length_below_above (h : S.Ordered l) {b : Nat} (hab : a ≤ b) :
    (S.below a l).length + (S.above b l).length ≤ l.length + 1 := by
  cases h.cut a with
  | clean front back hfront hback =>
    rw [below_clean hfront hback h, above_append,
      above_of_stop_le fun r hr => (hfront r hr).trans hab, nil_append, length_append]
    have := length_above_le (S := S) b back
    omega
  | inside front r back hfront hstart hstop hback =>
    rw [below_inside hfront hback h hstart hstop, above_append,
      above_of_stop_le fun r hr => (hfront r hr).trans hab, nil_append, length_append,
      length_append, length_singleton]
    have := length_above_le (S := S) b (r :: back)
    omega

lemma holds_append : S.Holds Q (front ++ back) x ↔ S.Holds Q front x ∨ S.Holds Q back x := by
  simp only [Holds, mem_append, or_and_right, exists_or]

lemma holds_singleton : S.Holds Q [r] x ↔ S.start r ≤ x ∧ x < S.stop r ∧ Q r x := by
  simp [Holds]

lemma Ordered.unique (h : S.Ordered l) (hr : r ∈ l) (hs : s ∈ l)
    (hrx : S.start r ≤ x ∧ x < S.stop r) (hsx : S.start s ≤ x ∧ x < S.stop s) : r = s := by
  induction l with
  | nil => exact absurd hr not_mem_nil
  | cons q l ih =>
    obtain ⟨-, hrest, hhead⟩ := ordered_cons.mp h
    rcases mem_cons.mp hr with rfl | hr' <;> rcases mem_cons.mp hs with rfl | hs'
    · rfl
    · have := hhead s hs'
      omega
    · have := hhead r hr'
      omega
    · exact ih hrest hr' hs'

/-- A property that cutting an element keeps on both sides. -/
structure Pointwise (S : Stretch R) (valid : R → Prop) (Q : R → Nat → Prop) : Prop where
  head : ∀ r a x, x < a → (Q (S.head r a) x ↔ Q r x)
  tail : ∀ r a x, valid r → S.start r < a → a ≤ x → x < S.stop r → (Q (S.tail r a) x ↔ Q r x)

variable {valid : R → Prop} {Q : R → Nat → Prop}

lemma Pointwise.below (hQ : Pointwise S valid Q) :
    S.Holds Q (S.below a l) x ↔ x < a ∧ S.Holds Q l x := by
  constructor
  · rintro ⟨s, hs, hstart, hstop, hq⟩
    have hle := stop_le_of_mem_below hs
    obtain ⟨r, hr, -, rfl⟩ := mem_below.mp hs
    refine ⟨by omega, r, hr, ?_⟩
    split at hstart <;> rename_i hin
    · rw [if_pos hin] at hstop hq
      exact ⟨hstart, hstop, hq⟩
    · rw [if_neg hin] at hstop hq
      rw [S.stop_head] at hstop
      rw [S.start_head] at hstart
      exact ⟨hstart, by omega, (hQ.head r a x hstop).mp hq⟩
  · rintro ⟨hx, r, hr, hstart, hstop, hq⟩
    refine ⟨_, mem_below.mpr ⟨r, hr, by omega, rfl⟩, ?_⟩
    split
    · exact ⟨hstart, hstop, hq⟩
    · rw [S.start_head, S.stop_head]
      exact ⟨hstart, hx, (hQ.head r a x hx).mpr hq⟩

lemma Pointwise.above (hQ : Pointwise S valid Q) (hvalid : ∀ r ∈ l, valid r) :
    S.Holds Q (S.above a l) x ↔ a ≤ x ∧ S.Holds Q l x := by
  constructor
  · rintro ⟨s, hs, hstart, hstop, hq⟩
    have hle := le_start_of_mem_above hs
    obtain ⟨r, hr, -, rfl⟩ := mem_above.mp hs
    refine ⟨by omega, r, hr, ?_⟩
    split at hstart <;> rename_i hin
    · rw [if_pos hin] at hstop hq
      exact ⟨hstart, hstop, hq⟩
    · rw [if_neg hin] at hstop hq
      rw [S.start_tail] at hstart
      rw [S.stop_tail] at hstop
      exact ⟨by omega, hstop, (hQ.tail r a x (hvalid r hr) (by omega) hstart hstop).mp hq⟩
  · rintro ⟨hx, r, hr, hstart, hstop, hq⟩
    refine ⟨_, mem_above.mpr ⟨r, hr, by omega, rfl⟩, ?_⟩
    split
    · exact ⟨hstart, hstop, hq⟩
    · rw [S.start_tail, S.stop_tail]
      exact ⟨hx, hstop, (hQ.tail r a x (hvalid r hr) (by omega) hx hstop).mpr hq⟩

end Stretch

open Stretch

/-- When two elements continue each other, and what they are then joined to. -/
structure Joining (S : Stretch R) where
  valid : R → Prop
  joins : R → R → Bool
  join : R → R → R
  start_join : ∀ r s, S.start (join r s) = S.start r
  stop_join : ∀ r s, S.stop (join r s) = S.stop s
  solid : ∀ r, valid r → S.start r < S.stop r
  meets : ∀ r s, joins r s = true → S.stop r = S.start s
  valid_join : ∀ r s, valid r → valid s → joins r s = true → valid (join r s)
  joins_join : ∀ q r s, joins q (join r s) = joins q r
  join_joins : ∀ r s t, valid r → valid s → joins r s = true → joins (join r s) t = joins s t
  joins_head : ∀ q r a, joins q (S.head r a) = joins q r
  tail_joins : ∀ r a t, valid r → S.start r < a → a < S.stop r → joins (S.tail r a) t = joins r t

namespace Joining

variable {S} (J : Joining S)

def Settled (l : List R) : Prop := l.IsChain fun r s => J.joins r s = false

/-- Join neighbours that continue each other, looking at `count` pairs from the
front. -/
def settle : Nat → List R → List R
  | 0, l => l
  | _ + 1, [] => []
  | _ + 1, [r] => [r]
  | count + 1, r :: s :: l =>
    if J.joins r s then settle count (J.join r s :: l) else r :: settle count (s :: l)

structure Sound (l : List R) : Prop where
  valid : ∀ r ∈ l, J.valid r
  ordered : S.Ordered l

variable {J} {l front back : List R} {a x count : Nat} {r : R}

lemma sound_append : J.Sound (front ++ back) ↔ J.Sound front ∧ J.Sound back ∧
    ∀ r ∈ front, ∀ s ∈ back, S.stop r ≤ S.start s := by
  constructor
  · rintro ⟨hvalid, hordered⟩
    obtain ⟨hfront, hback, hbetween⟩ := ordered_append.mp hordered
    obtain ⟨hvalid, hvalid'⟩ := forall_mem_append.mp hvalid
    exact ⟨⟨hvalid, hfront⟩, ⟨hvalid', hback⟩, hbetween⟩
  · rintro ⟨hfront, hback, hbetween⟩
    exact ⟨forall_mem_append.mpr ⟨hfront.valid, hback.valid⟩,
      ordered_append.mpr ⟨hfront.ordered, hback.ordered, hbetween⟩⟩

lemma sound_cons : J.Sound (r :: l) ↔ J.valid r ∧ J.Sound l ∧ ∀ s ∈ l, S.stop r ≤ S.start s := by
  constructor
  · rintro ⟨hvalid, hordered⟩
    obtain ⟨-, hrest, hhead⟩ := ordered_cons.mp hordered
    obtain ⟨hr, hvalid⟩ := forall_mem_cons.mp hvalid
    exact ⟨hr, ⟨hvalid, hrest⟩, hhead⟩
  · rintro ⟨hr, hrest, hhead⟩
    exact ⟨forall_mem_cons.mpr ⟨hr, hrest.valid⟩,
      ordered_cons.mpr ⟨J.solid r hr, hrest.ordered, hhead⟩⟩

lemma Sound.map {f : R → R} (h : J.Sound l) (hstart : ∀ r, S.start (f r) = S.start r)
    (hstop : ∀ r, S.stop (f r) = S.stop r) (hvalid : ∀ r, J.valid r → J.valid (f r)) :
    J.Sound (l.map f) := by
  induction l with
  | nil => exact h
  | cons r l ih =>
    obtain ⟨hr, hrest, hhead⟩ := sound_cons.mp h
    refine sound_cons.mpr ⟨hvalid r hr, ih hrest, ?_⟩
    intro s hs
    obtain ⟨t, ht, rfl⟩ := mem_map.mp hs
    rw [hstop, hstart]
    exact hhead t ht

lemma sound_join (h : J.Sound (r :: s :: l)) (hjoins : J.joins r s = true) :
    J.Sound (J.join r s :: l) := by
  obtain ⟨hr, hrest, -⟩ := sound_cons.mp h
  obtain ⟨hs, hl, hstop⟩ := sound_cons.mp hrest
  refine sound_cons.mpr ⟨J.valid_join r s hr hs hjoins, hl, ?_⟩
  rw [J.stop_join]
  exact hstop

lemma exists_start_of_mem_settle (hs : s ∈ J.settle count l) :
    ∃ r ∈ l, S.start s = S.start r := by
  induction count, l using settle.induct (J := J) with
  | case1 l => exact ⟨s, hs, rfl⟩
  | case2 count => exact absurd hs not_mem_nil
  | case3 count r => exact ⟨s, hs, rfl⟩
  | case4 count r t l hjoins ih =>
    rw [settle, if_pos hjoins] at hs
    obtain ⟨q, hq, heq⟩ := ih hs
    rcases mem_cons.mp hq with rfl | hq
    · exact ⟨r, by simp, heq.trans (J.start_join r t)⟩
    · exact ⟨q, by simp [hq], heq⟩
  | case5 count r t l hjoins ih =>
    rw [settle, if_neg hjoins] at hs
    rcases mem_cons.mp hs with rfl | hs
    · exact ⟨s, by simp, rfl⟩
    · obtain ⟨q, hq, heq⟩ := ih hs
      exact ⟨q, mem_cons_of_mem _ hq, heq⟩

lemma Sound.settle (h : J.Sound l) (count : Nat) : J.Sound (J.settle count l) := by
  induction count, l using settle.induct (J := J) with
  | case1 l => exact h
  | case2 count => exact h
  | case3 count r => exact h
  | case4 count r s l hjoins ih =>
    rw [Joining.settle, if_pos hjoins]
    exact ih (sound_join h hjoins)
  | case5 count r s l hjoins ih =>
    rw [Joining.settle, if_neg hjoins]
    obtain ⟨hr, hrest, hhead⟩ := sound_cons.mp h
    refine sound_cons.mpr ⟨hr, ih hrest, ?_⟩
    intro t ht
    obtain ⟨q, hq, heq⟩ := exists_start_of_mem_settle ht
    rw [heq]
    exact hhead q hq

lemma joins_head_settle (count : Nat) (q r : R) (l : List R) :
    ∃ r' l', J.settle count (r :: l) = r' :: l' ∧ J.joins q r' = J.joins q r := by
  induction count generalizing r l with
  | zero => exact ⟨r, l, rfl, rfl⟩
  | succ count ih =>
    rcases l with _ | ⟨s, l⟩
    · exact ⟨r, [], rfl, rfl⟩
    · by_cases hjoins : J.joins r s = true
      · rw [Joining.settle, if_pos hjoins]
        obtain ⟨r', l', heq, hsame⟩ := ih (J.join r s) l
        exact ⟨r', l', heq, hsame.trans (J.joins_join q r s)⟩
      · rw [Joining.settle, if_neg hjoins]
        exact ⟨r, _, rfl, rfl⟩

lemma settled_settle (h : J.Sound l) (hdrop : J.Settled (l.drop count)) :
    J.Settled (J.settle count l) := by
  induction count, l using settle.induct (J := J) with
  | case1 l => exact hdrop
  | case2 count => exact List.IsChain.nil
  | case3 count r => exact List.IsChain.singleton r
  | case4 count r s l hjoins ih =>
    rw [Joining.settle, if_pos hjoins]
    refine ih (sound_join h hjoins) ?_
    rcases count with _ | count
    · obtain ⟨hr, hrest, -⟩ := sound_cons.mp h
      have hs := (sound_cons.mp hrest).1
      rcases l with _ | ⟨t, l⟩
      · exact List.IsChain.singleton _
      · obtain ⟨hst, hchain⟩ := isChain_cons_cons.mp hdrop
        refine isChain_cons_cons.mpr ⟨?_, hchain⟩
        rw [J.join_joins r s t hr hs hjoins]
        exact hst
    · exact hdrop
  | case5 count r s l hjoins ih =>
    rw [Joining.settle, if_neg hjoins]
    have hrest := ih (sound_cons.mp h).2.1 hdrop
    obtain ⟨s', l', heq, hsame⟩ := joins_head_settle (J := J) count r s l
    rw [heq] at hrest ⊢
    refine isChain_cons_cons.mpr ⟨?_, hrest⟩
    rw [hsame]
    exact Bool.eq_false_iff.mpr hjoins

/-- Settling a list after a settled front settles the whole, if the front's last
pair was settled. -/
theorem settled_append_settle (h : J.Sound (r :: l)) (hfront : J.Settled (front ++ [r]))
    (hdrop : J.Settled ((r :: l).drop count)) : J.Settled (front ++ J.settle count (r :: l)) := by
  have hsettled := settled_settle h hdrop
  rcases eq_nil_or_concat front with rfl | ⟨front, q, rfl⟩
  · exact hsettled
  · obtain ⟨r', l', heq, hsame⟩ := joins_head_settle (J := J) count q r l
    rw [heq] at hsettled ⊢
    rw [concat_eq_append] at hfront ⊢
    rw [Settled, append_assoc, singleton_append, isChain_split] at hfront ⊢
    refine ⟨hfront.1, isChain_cons_cons.mpr ⟨?_, hsettled⟩⟩
    rw [hsame]
    exact (isChain_cons_cons.mp hfront.2).1

lemma length_settle_le : (J.settle count l).length ≤ l.length := by
  induction count, l using settle.induct (J := J) with
  | case1 l => exact le_rfl
  | case2 count => exact le_rfl
  | case3 count r => exact le_rfl
  | case4 count r s l hjoins ih =>
    rw [Joining.settle, if_pos hjoins]
    exact ih.trans (by simp)
  | case5 count r s l hjoins ih =>
    rw [Joining.settle, if_neg hjoins]
    simpa using ih

/-- A property that joining keeps on both sides. -/
structure Gathers (J : Joining S) (Q : R → Nat → Prop) : Prop where
  left : ∀ r s x, J.joins r s = true → Q r x → Q (J.join r s) x
  right : ∀ r s x, J.valid r → J.valid s → J.joins r s = true → S.start s ≤ x →
    x < S.stop s → Q s x → Q (J.join r s) x

variable {Q : R → Nat → Prop}

lemma Gathers.settle (hQ : J.Gathers Q) (h : J.Sound l) (hx : S.Holds Q l x) :
    S.Holds Q (J.settle count l) x := by
  induction count, l using settle.induct (J := J) with
  | case1 l => exact hx
  | case2 count => exact hx
  | case3 count r => exact hx
  | case4 count r s l hjoins ih =>
    rw [Joining.settle, if_pos hjoins]
    refine ih (sound_join h hjoins) ?_
    obtain ⟨hr, hrest, -⟩ := sound_cons.mp h
    have hs := (sound_cons.mp hrest).1
    have hmeets := J.meets r s hjoins
    have hsolidr := J.solid r hr
    have hsolids := J.solid s hs
    obtain ⟨t, ht, hstart, hstop, hq⟩ := hx
    rcases mem_cons.mp ht with rfl | ht
    · refine ⟨J.join t s, by simp, ?_, ?_, hQ.left t s x hjoins hq⟩
      · rw [J.start_join]
        exact hstart
      · rw [J.stop_join]
        omega
    rcases mem_cons.mp ht with rfl | ht
    · refine ⟨J.join r t, by simp, ?_, ?_, hQ.right r t x hr hs hjoins hstart hstop hq⟩
      · rw [J.start_join]
        omega
      · rw [J.stop_join]
        exact hstop
    · exact ⟨t, by simp [ht], hstart, hstop, hq⟩
  | case5 count r s l hjoins ih =>
    rw [Joining.settle, if_neg hjoins]
    obtain ⟨t, ht, hstart, hstop, hq⟩ := hx
    rcases mem_cons.mp ht with rfl | ht
    · exact ⟨t, by simp, hstart, hstop, hq⟩
    · obtain ⟨t', ht', hrest⟩ := ih (sound_cons.mp h).2.1 ⟨t, ht, hstart, hstop, hq⟩
      exact ⟨t', by simp [ht'], hrest⟩

lemma covered_of_settle (h : J.Sound l)
    (hx : S.Holds (fun _ _ => True) (J.settle count l) x) : S.Holds (fun _ _ => True) l x := by
  induction count, l using settle.induct (J := J) with
  | case1 l => exact hx
  | case2 count => exact hx
  | case3 count r => exact hx
  | case4 count r s l hjoins ih =>
    rw [Joining.settle, if_pos hjoins] at hx
    obtain ⟨t, ht, hstart, hstop, -⟩ := ih (sound_join h hjoins) hx
    have hmeets := J.meets r s hjoins
    rcases mem_cons.mp ht with rfl | ht
    · rw [J.start_join] at hstart
      rw [J.stop_join] at hstop
      rcases lt_or_ge x (S.stop r) with hlt | hge
      · exact ⟨r, by simp, hstart, hlt, trivial⟩
      · exact ⟨s, by simp, by omega, hstop, trivial⟩
    · exact ⟨t, by simp [ht], hstart, hstop, trivial⟩
  | case5 count r s l hjoins ih =>
    rw [Joining.settle, if_neg hjoins] at hx
    obtain ⟨t, ht, hstart, hstop, -⟩ := hx
    rcases mem_cons.mp ht with rfl | ht
    · exact ⟨t, by simp, hstart, hstop, trivial⟩
    · obtain ⟨t', ht', hr⟩ := ih (sound_cons.mp h).2.1 ⟨t, ht, hstart, hstop, trivial⟩
      exact ⟨t', mem_cons_of_mem _ ht', hr⟩

/-- One list made of another by joining neighbours until none continue each
other. -/
structure Joined (J : Joining S) (before after : List R) : Prop where
  sound : J.Sound after
  settled : J.Settled after
  length_le : after.length ≤ before.length
  gathers : ∀ Q x, J.Gathers Q → S.Holds Q before x → S.Holds Q after x
  covered : ∀ x, S.Holds (fun _ _ => True) after x → S.Holds (fun _ _ => True) before x

lemma joined_append_settle (front : List R) (h : J.Sound (front ++ l))
    (hsettled : J.Settled (front ++ J.settle count l)) :
    J.Joined (front ++ l) (front ++ J.settle count l) := by
  obtain ⟨hfront, hl, hbetween⟩ := sound_append.mp h
  refine ⟨sound_append.mpr ⟨hfront, hl.settle count, ?_⟩, hsettled, ?_, ?_, ?_⟩
  · intro r hr s hs
    obtain ⟨t, ht, heq⟩ := exists_start_of_mem_settle hs
    rw [heq]
    exact hbetween r hr t ht
  · rw [length_append, length_append]
    exact Nat.add_le_add_left length_settle_le _
  · intro Q x hQ hx
    rw [holds_append] at hx ⊢
    exact hx.imp id (hQ.settle hl)
  · intro x hx
    rw [holds_append] at hx ⊢
    exact hx.imp id (covered_of_settle hl)

section

variable (h : J.Sound l)
include h

lemma joined_settle (hdrop : J.Settled (l.drop count)) : J.Joined l (J.settle count l) :=
  joined_append_settle [] h (settled_settle h hdrop)

lemma Sound.below (hhead : ∀ r ∈ l, S.start r < a → a < S.stop r → J.valid (S.head r a)) :
    J.Sound (S.below a l) := by
  refine ⟨?_, h.ordered.below a⟩
  intro s hs
  obtain ⟨r, hr, hstart, rfl⟩ := mem_below.mp hs
  split
  · exact h.valid r hr
  · exact hhead r hr hstart (by omega)

lemma Sound.above (htail : ∀ r ∈ l, S.start r < a → a < S.stop r → J.valid (S.tail r a)) :
    J.Sound (S.above a l) := by
  refine ⟨?_, h.ordered.above a⟩
  intro s hs
  obtain ⟨r, hr, hstop, rfl⟩ := mem_above.mp hs
  split
  · exact h.valid r hr
  · exact htail r hr (by omega) hstop

lemma settled_below (hsettled : J.Settled l) : J.Settled (S.below a l) := by
  cases h.ordered.cut a with
  | clean front back hfront hback =>
    rw [below_clean hfront hback h.ordered]
    exact hsettled.left_of_append
  | inside front r back hfront hstart hstop hback =>
    rw [below_inside hfront hback h.ordered hstart hstop]
    rw [Settled, isChain_append] at hsettled ⊢
    refine ⟨hsettled.1, List.IsChain.singleton _, ?_⟩
    intro q hq s hs
    simp only [List.head?_cons, Option.mem_def, Option.some.injEq] at hs
    rw [← hs, J.joins_head]
    exact hsettled.2.2 q hq r (by simp)

lemma settled_above (hsettled : J.Settled l) : J.Settled (S.above a l) := by
  cases h.ordered.cut a with
  | clean front back hfront hback =>
    rw [above_clean hfront hback h.ordered]
    exact hsettled.right_of_append
  | inside front r back hfront hstart hstop hback =>
    rw [above_inside hfront hback h.ordered hstart hstop]
    have hr : J.Settled (r :: back) := hsettled.right_of_append
    rcases back with _ | ⟨s, back⟩
    · exact List.IsChain.singleton _
    · obtain ⟨hf, hchain⟩ := isChain_cons_cons.mp hr
      refine isChain_cons_cons.mpr ⟨?_, hchain⟩
      rw [J.tail_joins r a s (h.valid r (by simp)) hstart hstop]
      exact hf

end

lemma settled_append_of_lt (hfront : J.Settled front) (hback : J.Settled back)
    (hgap : ∀ r ∈ front, ∀ s ∈ back, S.stop r < S.start s) : J.Settled (front ++ back) := by
  rw [Settled, isChain_append]
  refine ⟨hfront, hback, ?_⟩
  intro r hr s hs
  have hlt := hgap r (mem_of_mem_getLast? hr) s (mem_of_mem_head? hs)
  rw [Bool.eq_false_iff]
  intro hjoins
  exact absurd (J.meets r s hjoins) hlt.ne

end Joining

end Ferrix.Foundations.Stretches
