import Mathlib.Tactic

/-!
Nodes that each name the node above them, or none.  A change of one pointer disturbs only the
climbs that pass it.
-/

namespace Ferrix.Foundations.ParentPointers

open Relation List ReflTransGen

variable {N : Type*} {above above' : N → Option N} {a b top : N}

/-- The second node is the first or above it. -/
def Climbs (above : N → Option N) : N → N → Prop := ReflTransGen fun a b => above a = some b

lemma Climbs.above_of_ne (hclimb : Climbs above a b) (hne : a ≠ b) :
    ∃ p, above a = some p ∧ Climbs above p b := by
  rcases hclimb.cases_head with heq | hs
  · exact absurd heq hne
  · exact hs

lemma Climbs.no_cycle (htop : Climbs above a top) (hnone : above top = none)
    (hup : above a = some b) : ¬ Climbs above b a := by
  have hcycle : ∀ x, Climbs above x top → ∀ y, above x = some y → ¬ Climbs above y x := by
    intro x hx
    induction hx using head_induction_on with
    | refl =>
      intro y hy
      rw [hnone] at hy
      cases hy
    | head hs hr ih =>
      intro y hy hback
      obtain rfl := Option.mem_unique hs hy
      rcases hback.cases_head with rfl | ⟨z, hz, hclimb⟩
      · exact ih _ hs .refl
      · exact ih z hz (hclimb.tail hs)
  exact hcycle a htop b hup

/-- A climb survives a change of pointers when each pointer on the way is kept, or is changed to
one that leads to the end as well. -/
theorem Climbs.redirect (hclimb : Climbs above a b)
    (hway : ∀ x, Climbs above a x → Climbs above x b → above' x = above x ∨ Climbs above' x b) :
    Climbs above' a b := by
  induction hclimb using head_induction_on with
  | refl => exact .refl
  | head hs hr ih =>
    have hn := ih fun x hx hxb => hway x (.head hs hx) hxb
    rcases hway _ .refl (.head hs hr) with hkept | hled
    · exact .head (hkept.trans hs) hn
    · exact hled

lemma Climbs.mono (hclimb : Climbs above a b) (hkept : ∀ x p, above x = some p →
    above' x = some p) : Climbs above' a b :=
  ReflTransGen.mono (fun x p => hkept x p) _ _ hclimb

/-- A node takes the place of one above it, and that one goes on a node below the first: every
climb to the bottom still gets there. -/
theorem Climbs.exchange {bottom old new oldParent put : N} (hbottom : above bottom = none)
    (hold : above old = some oldParent) (hnew : Climbs above new old)
    (hput : Climbs above put new) (hclimb : Climbs above old bottom)
    (hold' : above' old = some put) (hnew' : above' new = some oldParent)
    (hsame : ∀ x, x ≠ old → x ≠ new → above' x = above x) (ha : Climbs above a bottom) :
    Climbs above' a bottom := by
  have hnotback : ¬ Climbs above oldParent old := hclimb.no_cycle hbottom hold
  have hparent : Climbs above oldParent bottom := by
    obtain ⟨p, hp, hr⟩ := hclimb.above_of_ne (by
      rintro rfl
      rw [hbottom] at hold
      cases hold)
    rwa [Option.mem_unique hold hp]
  have hparent' : Climbs above' oldParent bottom := by
    refine hparent.redirect fun x hx _ => .inl (hsame x ?_ ?_)
    · rintro rfl
      exact hnotback hx
    · rintro rfl
      exact hnotback (hx.trans hnew)
  have hnewdown : Climbs above' new bottom := .head hnew' hparent'
  have hputnew : Climbs above' put new := by
    refine hput.redirect fun x _ hxnew => ?_
    rcases eq_or_ne x new with rfl | hxne
    · exact .inr .refl
    · refine .inl (hsame x ?_ hxne)
      rintro rfl
      obtain ⟨p, hp, hr⟩ := hxnew.above_of_ne hxne
      rw [Option.mem_unique hold hp] at hnotback
      exact hnotback (hr.trans hnew)
  have holddown : Climbs above' old bottom := .head hold' (hputnew.trans hnewdown)
  refine ha.redirect fun x _ _ => ?_
  rcases eq_or_ne x old with rfl | hxold
  · exact .inr holddown
  · rcases eq_or_ne x new with rfl | hxnew
    · exact .inr hnewdown
    · exact .inl (hsame x hxold hxnew)

/-- A climb to a node without another above it passes no node twice, so that an induction along it
has as many steps as there are nodes to pass. -/
theorem Climbs.bounded {P : Nat → N → Prop} {n : Nat} (hclimb : Climbs above a top)
    (hnone : above top = none) (htop : ∀ n, P n top)
    (hs : ∀ n a p, above a = some p → Climbs above p top → P n p → P (n + 1) a) (nodes : List N)
    (hnodes : ∀ x p, Climbs above a x → Climbs above x top → above x = some p → x ∈ nodes)
    (hn : nodes.length ≤ n) : P n a := by
  classical
  induction hclimb using head_induction_on generalizing nodes n with
  | refl => exact htop n
  | @head a p hup hr ih =>
    have ha := hnodes a p .refl (.head hup hr) hup
    have hpos := length_pos_of_mem ha
    obtain ⟨n, rfl⟩ : ∃ k, n = k + 1 := ⟨n - 1, by omega⟩
    refine hs n a p hup hr (ih (nodes.erase a) ?_ (by rw [length_erase_of_mem ha]; omega))
    intro x q hx hxtop hq
    refine (mem_erase_of_ne ?_).mpr (hnodes x q (.head hup hx) hxtop hq)
    rintro rfl
    exact Climbs.no_cycle (.head hup hr) hnone hup hx

section

variable [DecidableEq N]

def upTo (above : N → Option N) (top a : N) : Option N := if a = top then none else above a

lemma upTo_self : upTo above top top = none := if_pos rfl

lemma upTo_eq_some : upTo above top a = some b ↔ a ≠ top ∧ above a = some b := by
  rw [upTo]
  split_ifs with h <;> simp [h]

lemma climbs_upTo : Climbs (upTo above top) a top ↔ Climbs above a top := by
  constructor
  · exact fun h => h.mono fun x p hx => (upTo_eq_some.mp hx).2
  · intro h
    induction h using head_induction_on with
    | refl => exact .refl
    | @head a p hup _ ih =>
      by_cases ha : a = top
      · exact ha ▸ .refl
      · exact .head (upTo_eq_some.mpr ⟨ha, hup⟩) ih

end

variable {all seen done queue start found : List N} {node : N}

def Grows (above : N → Option N) : List N → List N → Prop
  | _, [] => True
  | seen, node :: rest => (∃ p ∈ seen, above node = some p) ∧ Grows above (seen ++ [node]) rest

lemma Grows.parent {front back : List N} (hgrows : Grows above seen (front ++ node :: back)) :
    ∃ p ∈ seen ++ front, above node = some p := by
  induction front generalizing seen with
  | nil =>
    rw [append_nil]
    exact hgrows.1
  | cons f front ih =>
    obtain ⟨p, hp, habove⟩ := ih hgrows.2
    exact ⟨p, by simpa using hp, habove⟩

/-- The nodes under those of the queue, breadth first. -/
def gather (children : N → List N) : Nat → List N → List N
  | 0, _ => []
  | _ + 1, [] => []
  | fuel + 1, node :: queue => node :: gather children fuel (queue ++ children node)

variable [DecidableEq N]

def below (above : N → Option N) (all : List N) (node : N) : List N :=
  all.filter fun n => above n = some node

lemma mem_below {n : N} : n ∈ below above all node ↔ n ∈ all ∧ above n = some node := by
  simp [below]

/-- What a search has found, done with the first part and still to look under the second. -/
structure Gathering (above : N → Option N) (all : List N) (top : N) (done queue : List N) :
    Prop where
  nodup : (top :: done ++ queue).Nodup
  subset : ∀ n ∈ done ++ queue, n ∈ all
  placed : ∀ n ∈ done ++ queue, ∃ p ∈ top :: done, above n = some p
  under : ∀ n ∈ done ++ queue, Climbs above n top
  closed : ∀ n ∈ done, ∀ m ∈ all, above m = some n → m ∈ done ++ queue

structure Gathered (above : N → Option N) (all : List N) (top : N) (found : List N) : Prop where
  grows : Grows above [top] found
  nodup : (top :: found).Nodup
  subset : ∀ n ∈ found, n ∈ all
  under : ∀ n ∈ found, Climbs above n top
  closed : ∀ n ∈ found, ∀ m ∈ all, above m = some n → m ∈ found

variable (hall : all.Nodup) (hcycle : ∀ p, above top = some p → ¬ Climbs above p top) {fuel : Nat}
include hall hcycle

lemma Gathering.next (hgathering : Gathering above all top done (node :: queue)) :
    Gathering above all top (done ++ [node]) (queue ++ below above all node) := by
  have hsplit : done ++ [node] ++ (queue ++ below above all node) =
      done ++ node :: queue ++ below above all node := by simp
  have hnode : node ∈ done ++ node :: queue := by simp
  have hcons : top :: done ++ node :: queue = (top :: done) ++ (node :: queue) := rfl
  have hnew : ∀ n ∈ below above all node, n ∉ top :: done ++ node :: queue := by
    intro n hn hold
    obtain ⟨hin, hup⟩ := mem_below.mp hn
    rcases mem_cons.mp hold with rfl | hold
    · exact hcycle node hup (hgathering.under node hnode)
    · obtain ⟨p, hp, hpup⟩ := hgathering.placed n hold
      obtain rfl := Option.mem_unique hup hpup
      have hnodup := hgathering.nodup
      rw [hcons, nodup_append] at hnodup
      exact hnodup.2.2 node hp node (by simp) rfl
  constructor
  · have hsame : top :: (done ++ [node]) ++ (queue ++ below above all node) =
        (top :: done ++ node :: queue) ++ below above all node := by simp
    rw [hsame, nodup_append]
    refine ⟨hgathering.nodup, hall.filter _, ?_⟩
    rintro n hn _ hm rfl
    exact hnew n hm hn
  · rw [hsplit, forall_mem_append]
    exact ⟨hgathering.subset, fun n hn => (mem_below.mp hn).1⟩
  · rw [hsplit, forall_mem_append]
    refine ⟨fun n hn => ?_, fun n hn => ⟨node, by simp, (mem_below.mp hn).2⟩⟩
    obtain ⟨p, hp, hup⟩ := hgathering.placed n hn
    exact ⟨p, mem_append_left [node] hp, hup⟩
  · rw [hsplit, forall_mem_append]
    exact ⟨hgathering.under, fun n hn => .head (mem_below.mp hn).2 (hgathering.under node hnode)⟩
  · rw [hsplit, forall_mem_append, forall_mem_singleton]
    exact ⟨fun n hn m hm hup => mem_append_left _ (hgathering.closed n hn m hm hup),
      fun m hm hup => mem_append_right _ (mem_below.mpr ⟨hm, hup⟩)⟩

lemma Gathering.gather
    (hgathering : Gathering above all top done queue) (hfuel : all.length ≤ done.length + fuel) :
    Gathering above all top (done ++ gather (below above all) fuel queue) [] ∧
      Grows above (top :: done) (gather (below above all) fuel queue) ∧
      ∀ n ∈ queue, n ∈ gather (below above all) fuel queue := by
  induction fuel generalizing done queue with
  | zero =>
    have hlen : (done ++ queue).length ≤ all.length :=
      (subperm_of_subset (nodup_cons.mp hgathering.nodup).2 hgathering.subset).length_le
    have hqueue : queue = [] := by
      rw [length_append] at hlen
      exact eq_nil_of_length_eq_zero (by omega)
    subst hqueue
    rw [ParentPointers.gather, append_nil]
    exact ⟨hgathering, trivial, fun n hn => hn⟩
  | succ fuel ih =>
    cases queue with
    | nil =>
      rw [ParentPointers.gather, append_nil]
      exact ⟨hgathering, trivial, fun n hn => hn⟩
    | cons node queue =>
      obtain ⟨hend, hgrows, hqueue⟩ := ih (Gathering.next hall hcycle hgathering) (by
        rw [length_append, length_singleton]
        omega)
      rw [ParentPointers.gather]
      refine ⟨by simpa using hend, ⟨hgathering.placed node (by simp), hgrows⟩, ?_⟩
      exact forall_mem_cons.mpr ⟨.head _, fun n hn => .tail _ (hqueue n (mem_append_left _ hn))⟩

/-- A search from some of the nodes right under `top` finds them and all that is under them. -/
theorem gathered (hstart : start.Sublist (below above all top)) (hfuel : all.length ≤ fuel) :
    Gathered above all top (gather (below above all) fuel start) ∧
      ∀ n ∈ start, n ∈ gather (below above all) fuel start := by
  have hm : ∀ n ∈ start, n ∈ all ∧ above n = some top :=
    fun n hn => mem_below.mp (hstart.subset hn)
  have hbegin : Gathering above all top [] start := by
    constructor
    · refine nodup_cons.mpr ⟨fun htop => ?_, (hall.filter _).sublist hstart⟩
      exact hcycle top (hm top htop).2 .refl
    · exact fun n hn => (hm n hn).1
    · exact fun n hn => ⟨top, by simp, (hm n hn).2⟩
    · exact fun n hn => .single (hm n hn).2
    · exact forall_mem_nil _
  obtain ⟨hend, hgrows, hqueue⟩ := Gathering.gather hall hcycle hbegin (by simpa using hfuel)
  refine ⟨⟨hgrows, ?_, ?_, ?_, ?_⟩, hqueue⟩
  · simpa using hend.nodup
  · simpa using hend.subset
  · simpa using hend.under
  · simpa using hend.closed

end Ferrix.Foundations.ParentPointers
