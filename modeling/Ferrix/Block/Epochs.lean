import Ferrix.Block.Requests
import Ferrix.Foundations.SortedMaps
import Mathlib.Data.Prod.Lex

namespace Ferrix.Block.Epochs

open Foundations SortedMaps SortedMap Requests List

abbrev Index := SortedMap (Nat ×ₗ Nat) Unit

namespace Index

def add (index : Index) (place key : Nat) : Index := index.insert (toLex (place, key)) ()

def remove (index : Index) (place key : Nat) : Index := index.erase (toLex (place, key))

def first (index : Index) : Option (Nat × Nat) := index.entries.head?.map fun entry => ofLex entry.1

def firstFrom (index : Index) (place : Nat) : Option Nat :=
  (index.ceiling (toLex (place, 0))).map fun entry => (ofLex entry.1).2

def range (index : Index) (place : Nat) : List Nat :=
  (index.entries.filter fun entry =>
    toLex (place, 0) ≤ entry.1 ∧ entry.1 ≤ toLex (place, 2 ^ 64 - 1)).map
      fun entry => (ofLex entry.1).2

def Lists (index : Index) (units : SortedMap Nat IoUnit) (place : IoUnit → Nat) : Prop :=
  ∀ at' key, index.get? (toLex (at', key)) = some () ↔
    ∃ unit, units.get? key = some unit ∧ place unit = at'

variable {index : Index} {units : SortedMap Nat IoUnit} {place : IoUnit → Nat} {key : Nat}
  {unit : IoUnit}

variable (hlists : Lists index units place)
include hlists

lemma Lists.insert (hfresh : units.get? key = none) :
    Lists (index.add (place unit) key) (units.insert key unit) place := by
  intro at' other
  rw [add, get?_insert, get?_insert]
  rcases eq_or_ne other key with rfl | hne
  · have hnone : index.get? (toLex (at', other)) ≠ some () := by
      rw [Ne, hlists, hfresh]
      rintro ⟨unit, hu, -⟩
      cases hu
    rcases eq_or_ne at' (place unit) with rfl | hat
    · simp
    · rw [if_neg (by simpa using hat), if_pos rfl]
      simp [hnone, Ne.symm hat]
  · rw [if_neg (by simp [hne]), if_neg hne, hlists]

lemma Lists.erase (hu : units.get? key = some unit) :
    Lists (index.remove (place unit) key) (units.erase key) place := by
  intro at' other
  rw [remove, get?_erase, get?_erase]
  rcases eq_or_ne other key with rfl | hne
  · rw [if_pos rfl]
    rcases eq_or_ne at' (place unit) with rfl | hat
    · simp
    · rw [if_neg (by simpa using hat), hlists, hu]
      simp [Ne.symm hat]
  · rw [if_neg (by simp [hne]), if_neg hne, hlists]

lemma Lists.of_mem {e : (Nat ×ₗ Nat) × Unit} (he : e ∈ index.entries) :
    ∃ unit, units.get? (ofLex e.1).2 = some unit ∧ place unit = (ofLex e.1).1 :=
  (hlists _ _).mp (get?_eq_some.mpr he)

lemma Lists.get (hu : units.get? key = some unit) :
    index.get? (toLex (place unit, key)) = some () :=
  (hlists _ _).mpr ⟨unit, hu, rfl⟩

end Index

structure Epoch where
  units : SortedMap Nat IoUnit
  byStart : Index
  byEnd : Index
  byDeadline : Index
  inFlight : Nat
  barriers : List IoUnit

namespace Epoch

instance : Inhabited Epoch := ⟨⟨∅, ∅, ∅, ∅, 0, []⟩⟩

variable (epoch : Epoch)

def isIdle : Bool := epoch.units.entries.isEmpty && epoch.inFlight = 0

def isDone : Bool := epoch.isIdle && epoch.barriers.isEmpty

def hasUnits : Bool := !epoch.units.entries.isEmpty

def insert (key : Nat) (unit : IoUnit) : Epoch :=
  { epoch with
    byStart := epoch.byStart.add unit.sector key
    byEnd := epoch.byEnd.add unit.stop key
    byDeadline := epoch.byDeadline.add unit.deadline key
    units := epoch.units.insert key unit }

def without (key : Nat) (unit : IoUnit) : Epoch :=
  { epoch with
    byStart := epoch.byStart.remove unit.sector key
    byEnd := epoch.byEnd.remove unit.stop key
    byDeadline := epoch.byDeadline.remove unit.deadline key
    units := epoch.units.erase key }

def remove (key : Nat) : Option IoUnit × Epoch :=
  match epoch.units.get? key with
  | none => (none, epoch)
  | some unit => (some unit, epoch.without key unit)

def takePartner (keys : List Nat) (joins : IoUnit → Bool) :
    Option (Nat × IoUnit) × Epoch :=
  match keys.find? fun key => (epoch.units.get? key).any joins with
  | none => (none, epoch)
  | some key =>
    match epoch.remove key with
    | (none, epoch) => (none, epoch)
    | (some unit, epoch) => (some (key, unit), epoch)

def takeLeftPartner (unit : IoUnit) (limits : Limits) :
    Option (Nat × IoUnit) × Epoch :=
  epoch.takePartner (epoch.byEnd.range unit.sector) fun left => left.canJoin unit limits

def takeRightPartner (unit : IoUnit) (limits : Limits) :
    Option (Nat × IoUnit) × Epoch :=
  epoch.takePartner (epoch.byStart.range unit.stop) fun right => unit.canJoin right limits

def joinLeft (key : Nat) (unit : IoUnit) (limits : Limits) :
    Nat × IoUnit × Epoch :=
  match epoch.takeLeftPartner unit limits with
  | (none, epoch) => (key, unit, epoch)
  | (some (leftKey, left), epoch) => (min key leftKey, left.join unit, epoch)

def joinRight (key : Nat) (unit : IoUnit) (limits : Limits) :
    Nat × IoUnit × Epoch :=
  match epoch.takeRightPartner unit limits with
  | (none, epoch) => (key, unit, epoch)
  | (some (rightKey, right), epoch) => (min key rightKey, unit.join right, epoch)

def add (key : Nat) (unit : IoUnit) (limits : Limits) : Epoch :=
  match epoch.joinLeft key unit limits with
  | (key, unit, epoch) =>
    match epoch.joinRight key unit limits with
    | (key, unit, epoch) => epoch.insert key unit

def pushBarrier (unit : IoUnit) (limits : Limits) : Epoch :=
  match epoch.barriers.getLast? with
  | none => { epoch with barriers := [unit] }
  | some last =>
    if last.canJoin unit limits then
      { epoch with barriers := epoch.barriers.dropLast ++ [last.join unit] }
    else if unit.canJoin last limits then
      { epoch with barriers := epoch.barriers.dropLast ++ [unit.join last] }
    else { epoch with barriers := epoch.barriers.dropLast ++ [last, unit] }

def earliestDeadline : Option (Nat × Nat) := epoch.byDeadline.first

def firstAtOrAfter (sector : Nat) : Option Nat := epoch.byStart.firstFrom sector

/-- The key of the next unit: the most overdue one, or else the next of a one-way elevator. -/
def pick (head now : Nat) : Option Nat :=
  match epoch.earliestDeadline with
  | some (deadline, key) =>
    if deadline ≤ now then some key
    else (epoch.firstAtOrAfter head).or (epoch.firstAtOrAfter 0)
  | none => (epoch.firstAtOrAfter head).or (epoch.firstAtOrAfter 0)

def loose : List Part := epoch.units.entries.flatMap fun entry => entry.2.parts

structure Indexed (epoch : Epoch) : Prop where
  starts : epoch.byStart.Lists epoch.units IoUnit.sector
  ends : epoch.byEnd.Lists epoch.units IoUnit.stop
  deadlines : epoch.byDeadline.Lists epoch.units IoUnit.deadline

variable {epoch : Epoch} {key head now : Nat} {unit : IoUnit}

lemma indexed_default : Indexed default := by
  constructor <;>
  · intro at' key
    change (∅ : Index).get? _ = _ ↔ ∃ unit, (∅ : SortedMap Nat IoUnit).get? key = _ ∧ _
    simp

lemma Indexed.insert (hindexed : epoch.Indexed) (hfresh : epoch.units.get? key = none) :
    (epoch.insert key unit).Indexed :=
  ⟨hindexed.starts.insert hfresh, hindexed.ends.insert hfresh, hindexed.deadlines.insert hfresh⟩

lemma Indexed.without (hindexed : epoch.Indexed) (hu : epoch.units.get? key = some unit) :
    (epoch.without key unit).Indexed :=
  ⟨hindexed.starts.erase hu, hindexed.ends.erase hu, hindexed.deadlines.erase hu⟩

lemma loose_without (hu : epoch.units.get? key = some unit) :
    epoch.loose.Perm (unit.parts ++ (epoch.without key unit).loose) :=
  (perm_erase hu).flatMap_right _

lemma remove_of_get (hu : epoch.units.get? key = some unit) :
    epoch.remove key = (some unit, epoch.without key unit) := by
  rw [remove, hu]

lemma mem_loose {p : Part} :
    p ∈ epoch.loose ↔ ∃ key unit, epoch.units.get? key = some unit ∧ p ∈ unit.parts := by
  rw [loose, mem_flatMap]
  constructor
  · rintro ⟨⟨key, unit⟩, he, hpart⟩
    exact ⟨key, unit, get?_eq_some.mpr he, hpart⟩
  · rintro ⟨key, unit, hu, hpart⟩
    exact ⟨(key, unit), get?_eq_some.mp hu, hpart⟩

lemma hasUnits_iff : epoch.hasUnits = true ↔ ∃ key unit, epoch.units.get? key = some unit := by
  rw [hasUnits, Bool.not_eq_true', isEmpty_eq_false_iff_exists_mem]
  constructor
  · rintro ⟨⟨key, unit⟩, he⟩
    exact ⟨key, unit, get?_eq_some.mpr he⟩
  · rintro ⟨key, unit, hu⟩
    exact ⟨(key, unit), get?_eq_some.mp hu⟩

lemma firstAtOrAfter_spec (hindexed : epoch.Indexed) {sector : Nat}
    (h : epoch.firstAtOrAfter sector = some key) : ∃ unit, epoch.units.get? key = some unit := by
  rw [firstAtOrAfter, Index.firstFrom, Option.map_eq_some_iff] at h
  obtain ⟨e, he, rfl⟩ := h
  obtain ⟨unit, hu, -⟩ := hindexed.starts.of_mem (mem_of_find?_eq_some he)
  exact ⟨unit, hu⟩

lemma firstAtOrAfter_zero (hindexed : epoch.Indexed) (hunits : epoch.hasUnits = true) :
    ∃ key, epoch.firstAtOrAfter 0 = some key := by
  obtain ⟨key, unit, hu⟩ := hasUnits_iff.mp hunits
  cases hentries : epoch.byStart.entries with
  | nil => exact absurd hentries (entries_ne_nil (hindexed.starts.get hu))
  | cons e entries =>
    refine ⟨(ofLex e.1).2, ?_⟩
    have hle : toLex (0, 0) ≤ e.1 := by
      rw [Prod.Lex.le_iff]
      rcases Nat.eq_zero_or_pos (ofLex e.1).1 with h | h
      · exact .inr ⟨h.symm, Nat.zero_le _⟩
      · exact .inl h
    rw [firstAtOrAfter, Index.firstFrom, SortedMap.ceiling, ceilingEntry, hentries,
      List.find?_cons_of_pos (by simpa using hle)]
    rfl

/-- No unit comes before the one of the earliest deadline, by deadline and then by key. -/
theorem earliestDeadline_spec (hindexed : epoch.Indexed) {deadline : Nat}
    (hf : epoch.earliestDeadline = some (deadline, key)) :
    ∃ unit, epoch.units.get? key = some unit ∧ unit.deadline = deadline ∧
      ∀ other unit', epoch.units.get? other = some unit' →
        toLex (deadline, key) ≤ toLex (unit'.deadline, other) := by
  rw [earliestDeadline, Index.first, Option.map_eq_some_iff] at hf
  obtain ⟨e, he, hk⟩ := hf
  obtain ⟨unit, hu, hp⟩ := hindexed.deadlines.of_mem (mem_of_head? he)
  rw [hk] at hu hp
  refine ⟨unit, hu, hp, fun other unit' ho => ?_⟩
  rw [← hk]
  exact head?_le he (hindexed.deadlines.get ho)

lemma pick_spec (hindexed : epoch.Indexed) (hunits : epoch.hasUnits = true) (head now : Nat) :
    ∃ key unit, epoch.pick head now = some key ∧ epoch.units.get? key = some unit := by
  have helevator : ∃ key unit, (epoch.firstAtOrAfter head).or (epoch.firstAtOrAfter 0) = some key ∧
      epoch.units.get? key = some unit := by
    cases hhead : epoch.firstAtOrAfter head with
    | some key =>
      obtain ⟨unit, hu⟩ := firstAtOrAfter_spec hindexed hhead
      exact ⟨key, unit, rfl, hu⟩
    | none =>
      obtain ⟨key, hk⟩ := firstAtOrAfter_zero hindexed hunits
      obtain ⟨unit, hu⟩ := firstAtOrAfter_spec hindexed hk
      exact ⟨key, unit, hk, hu⟩
  rw [pick]
  split
  · rename_i deadline key hf
    split_ifs
    · obtain ⟨unit, hu, -⟩ := earliestDeadline_spec hindexed hf
      exact ⟨key, unit, rfl, hu⟩
    · exact helevator
  · exact helevator

lemma takePartner_spec (epoch : Epoch) (keys : List Nat) (joins : IoUnit → Bool) :
    epoch.takePartner keys joins = (none, epoch) ∨ ∃ key unit, epoch.units.get? key = some unit ∧
      joins unit = true ∧
        epoch.takePartner keys joins = (some (key, unit), epoch.without key unit) := by
  rw [takePartner]
  split
  · exact .inl rfl
  · rename_i key hfind
    have hjoins := List.find?_some hfind
    cases hu : epoch.units.get? key with
    | none => simp [hu] at hjoins
    | some unit =>
      rw [hu, Option.any_some] at hjoins
      exact .inr ⟨key, unit, hu, hjoins, by rw [remove_of_get hu]⟩

variable {limits : Limits} {P : IoUnit → Prop} {bound : Nat} {parts : List Part}

/-- A property of units that joining keeps. -/
def Joinable (limits : Limits) (P : IoUnit → Prop) : Prop :=
  ∀ unit right, P unit → P right → unit.canJoin right limits = true →
    (∀ a ∈ unit.parts, ∀ b ∈ right.parts, a.seq ≠ b.seq) → P (unit.join right)

/-- What an epoch whose units have a property and whose keys are below a bound promises. -/
structure Stocked (P : IoUnit → Prop) (bound : Nat) (epoch : Epoch) : Prop where
  indexed : epoch.Indexed
  queued : ∀ k u, epoch.units.get? k = some u → P u
  keys : ∀ k u, epoch.units.get? k = some u → k < bound

/-- A unit in hand, under a key no queued unit has, on its way into an epoch. -/
structure Holding (P : IoUnit → Prop) (bound : Nat) (parts : List Part) (epoch : Epoch) (key : Nat)
    (unit : IoUnit) : Prop extends Stocked P bound epoch where
  fresh : epoch.units.get? key = none
  inHand : P unit
  parts : (unit.parts ++ epoch.loose).Perm parts
  below : key < bound

lemma stocked_default : Stocked P bound default := by
  refine ⟨indexed_default, fun k u hu => ?_, fun k u hu => ?_⟩ <;>
  · change (∅ : SortedMap Nat IoUnit).get? k = some u at hu
    simp at hu

section

variable (hstocked : Stocked P bound epoch)
include hstocked

lemma Stocked.mono {Q : IoUnit → Prop} {limit : Nat}
    (himp : ∀ unit, P unit → Q unit) (hle : bound ≤ limit) : Stocked Q limit epoch :=
  ⟨hstocked.indexed, fun k u hu => himp u (hstocked.queued k u hu),
    fun k u hu => (hstocked.keys k u hu).trans_le hle⟩

lemma Stocked.relabel (inFlight : Nat) (barriers : List IoUnit) :
    Stocked P bound { epoch with inFlight, barriers } :=
  ⟨{ hstocked.indexed with }, hstocked.queued, hstocked.keys⟩

lemma Stocked.without (hu : epoch.units.get? key = some unit) :
    Stocked P bound (epoch.without key unit) :=
  ⟨hstocked.indexed.without hu, fun k u hu => hstocked.queued k u (of_get?_erase hu),
    fun k u hu => hstocked.keys k u (of_get?_erase hu)⟩

lemma Stocked.hold (hu : P unit) :
    Holding P (bound + 1) (unit.parts ++ epoch.loose) epoch bound unit := by
  refine ⟨hstocked.mono (fun _ h => h) (Nat.le_succ bound), ?_, hu, List.Perm.refl _, lt_add_one _⟩
  cases hg : epoch.units.get? bound with
  | none => rfl
  | some unit => exact absurd (hstocked.keys _ _ hg) (lt_irrefl _)

end

/-- What joining a neighbour to the unit in hand gives. -/
def Joins (P : IoUnit → Prop) (bound : Nat) (parts : List Part) (epoch : Epoch)
    (result : Nat × IoUnit × Epoch) : Prop :=
  Holding P bound parts result.2.2 result.1 result.2.1 ∧ result.2.2.inFlight = epoch.inFlight ∧
    result.2.2.barriers = epoch.barriers

section

variable (hold : Holding P bound parts epoch key unit) {other : Nat} {partner : IoUnit}
include hold

lemma Holding.take {joined : IoUnit} (hpartner : epoch.units.get? other = some partner)
    (hjoined : P joined) (hparts : joined.parts.Perm (unit.parts ++ partner.parts)) :
    Holding P bound parts (epoch.without other partner) (min key other) joined := by
  refine ⟨hold.toStocked.without hpartner, (get?_erase _ _ _).trans ?_, hjoined, ?_,
    lt_of_le_of_lt (min_le_left _ _) hold.below⟩
  · rcases min_choice key other with h | h
    · rw [h]
      split_ifs
      · rfl
      · exact hold.fresh
    · rw [if_pos h]
  · refine (hparts.append_right _).trans ?_
    rw [append_assoc]
    exact ((loose_without hpartner).symm.append_left _).trans hold.parts

variable (hnodup : (parts.map Part.seq).Nodup)
include hnodup

lemma Holding.distinct (hpartner : epoch.units.get? other = some partner) :
    ∀ a ∈ unit.parts, ∀ b ∈ partner.parts, a.seq ≠ b.seq := by
  have hperm := (hold.parts.map Part.seq).nodup_iff.mpr hnodup
  rw [map_append, nodup_append'] at hperm
  intro a ha b hb heq
  refine hperm.2.2 (mem_map_of_mem ha) ?_
  rw [heq]
  exact mem_map_of_mem (mem_loose.mpr ⟨other, partner, hpartner, hb⟩)

lemma joinLeft_holds (hjoinable : Joinable limits P) :
    Joins P bound parts epoch (epoch.joinLeft key unit limits) := by
  rw [joinLeft, takeLeftPartner]
  rcases takePartner_spec epoch (epoch.byEnd.range unit.sector)
    (fun l => l.canJoin unit limits) with h | ⟨other, partner, hpartner, hjoins, h⟩
  · rw [h]
    exact ⟨hold, rfl, rfl⟩
  · rw [h]
    refine ⟨hold.take hpartner ?_ ?_, rfl, rfl⟩
    · refine hjoinable _ _ (hold.queued _ _ hpartner) hold.inHand hjoins ?_
      intro a ha b hb
      exact (hold.distinct hnodup hpartner b hb a ha).symm
    · exact (join_parts_perm _ _).trans perm_append_comm

lemma joinRight_holds (hjoinable : Joinable limits P) :
    Joins P bound parts epoch (epoch.joinRight key unit limits) := by
  rw [joinRight, takeRightPartner]
  rcases takePartner_spec epoch (epoch.byStart.range unit.stop)
    (fun r => unit.canJoin r limits) with h | ⟨other, partner, hpartner, hjoins, h⟩
  · rw [h]
    exact ⟨hold, rfl, rfl⟩
  · rw [h]
    exact ⟨hold.take hpartner (hjoinable _ _ hold.inHand (hold.queued _ _ hpartner) hjoins
      (hold.distinct hnodup hpartner)) (join_parts_perm _ _), rfl, rfl⟩

end

lemma Holding.insert (hold : Holding P bound parts epoch key unit) :
    Stocked P bound (epoch.insert key unit) ∧ (epoch.insert key unit).loose.Perm parts := by
  refine ⟨⟨hold.indexed.insert hold.fresh, ?_, ?_⟩,
    ((insert_perm hold.fresh).flatMap_right _).trans hold.parts⟩
  · intro k u hu
    rcases of_get?_insert hu with ⟨-, rfl⟩ | hu
    · exact hold.inHand
    · exact hold.queued k u hu
  · intro k u hu
    rcases of_get?_insert hu with ⟨rfl, -⟩ | hu
    · exact hold.below
    · exact hold.keys k u hu

lemma add_spec (hjoinable : Joinable limits P) (hold : Holding P bound parts epoch key unit)
    (hnodup : (parts.map Part.seq).Nodup) :
    Stocked P bound (epoch.add key unit limits) ∧ (epoch.add key unit limits).loose.Perm parts ∧
      (epoch.add key unit limits).inFlight = epoch.inFlight ∧
      (epoch.add key unit limits).barriers = epoch.barriers := by
  obtain ⟨hleft, hf, hbarriers⟩ := joinLeft_holds hold hnodup hjoinable
  obtain ⟨hright, hf', hbarriers'⟩ := joinRight_holds hleft hnodup hjoinable
  exact ⟨hright.insert.1, hright.insert.2, hf'.trans hf, hbarriers'.trans hbarriers⟩

lemma pushBarrier_spec (epoch : Epoch) (unit : IoUnit) (limits : Limits) :
    epoch.pushBarrier unit limits = { epoch with barriers := epoch.barriers ++ [unit] } ∨
      ∃ l last joined, epoch.barriers = l ++ [last] ∧
        (last.canJoin unit limits = true ∧ joined = last.join unit ∨
          unit.canJoin last limits = true ∧ joined = unit.join last) ∧
        epoch.pushBarrier unit limits = { epoch with barriers := l ++ [joined] } := by
  rw [pushBarrier]
  cases hl : epoch.barriers.getLast? with
  | none =>
    rw [List.getLast?_eq_none_iff.mp hl]
    exact .inl rfl
  | some last =>
    obtain ⟨l, hfront⟩ := List.getLast?_eq_some_iff.mp hl
    rw [hfront, dropLast_concat]
    dsimp only
    split_ifs with hright hleft
    · exact .inr ⟨l, last, _, rfl, .inl ⟨hright, rfl⟩, rfl⟩
    · exact .inr ⟨l, last, _, rfl, .inr ⟨hleft, rfl⟩, rfl⟩
    · exact .inl (by simp)

end Epoch

end Ferrix.Block.Epochs
