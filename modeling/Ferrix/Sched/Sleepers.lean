import Ferrix.Sched.TreeShape

/-!
The timeline of sleepers.  The tree compares instants by the sign of their wrapping difference and
the timeline compares them as numbers.
-/

namespace Ferrix.Sched.Sleepers

open Foundations.WrappingClock DeadlineTree TreeOrder List

variable {T : Type}

structure Timeline (T : Type) where
  tree : DeadlineTree.Tree T

namespace Timeline

def new : Timeline T := ⟨DeadlineTree.Tree.new⟩

variable (timeline : Timeline T)

def insert (instant : BitVec 64) (id : Nat) (payload : T) : Timeline T :=
  ⟨timeline.tree.insert ⟨id, 0, 0#64, instant, 0, some payload⟩⟩

def firstDue : Option (BitVec 64) :=
  timeline.tree.first.map Entity.deadline

def take (key : Key) : Timeline T × Option (Nat × T) :=
  let removed := timeline.tree.remove key
  (⟨removed.1⟩, removed.2.bind fun entity => entity.payload.map fun payload => (key.id, payload))

def popDue (now : BitVec 64) : Timeline T × Option (Nat × T) :=
  match timeline.tree.first with
  | none => (timeline, none)
  | some first =>
    if first.deadline > now then (timeline, none) else timeline.take first.key

def remove (id : Nat) : Timeline T × Option T :=
  match timeline.tree.find id with
  | none => (timeline, none)
  | some key =>
    let taken := timeline.take key
    (taken.1, taken.2.map Prod.snd)

end Timeline

inductive Call (T : Type) where
  | insert (instant : BitVec 64) (id : Nat) (payload : T)
  | popDue (now : BitVec 64)
  | remove (id : Nat)

structure Sleeper (T : Type) where
  instant : BitVec 64
  id : Nat
  payload : T

def Sleeper.entity (sleeper : Sleeper T) : Entity T :=
  ⟨sleeper.id, 0, 0#64, sleeper.instant, 0, some sleeper.payload⟩

/-- A timeline, and who has been filed and has neither been popped nor removed
since. -/
structure History (T : Type) where
  timeline : Timeline T
  filed : List (Sleeper T)

def History.start : History T := ⟨Timeline.new, []⟩

def step (s : History T) : Call T → History T
  | .insert instant id payload =>
    ⟨s.timeline.insert instant id payload, ⟨instant, id, payload⟩ :: s.filed⟩
  | .popDue now =>
    let popped := s.timeline.popDue now
    ⟨popped.1, s.filed.filter fun sleeper => popped.2.all fun gone => sleeper.id ≠ gone.1⟩
  | .remove id =>
    let removed := s.timeline.remove id
    ⟨removed.1, s.filed.filter fun sleeper => sleeper.id ≠ id⟩

def run (calls : List (Call T)) : History T := calls.foldl step .start

/-- What the timeline is for: a sleeper is woken exactly when one is due, the
earliest first, and the earliest instant is known. -/
structure Punctual (s : History T) : Prop where
  due : ∀ now, (s.timeline.popDue now).2.isSome = true ↔ ∃ sleeper ∈ s.filed, sleeper.instant ≤ now
  least : ∀ now id payload, (s.timeline.popDue now).2 = some (id, payload) →
    ∃ sleeper ∈ s.filed, sleeper.id = id ∧ sleeper.payload = payload ∧
      ∀ other ∈ s.filed, sleeper.instant < other.instant ∨
        (sleeper.instant = other.instant ∧ sleeper.id ≤ other.id)
  first : ∀ instant, s.timeline.firstDue = some instant ↔
    (∃ sleeper ∈ s.filed, sleeper.instant = instant) ∧ ∀ other ∈ s.filed, instant ≤ other.instant

/-- A sleeper due at 100 is not woken at 100 once another has been filed with a
deadline saturated to the end of the clock. -/
theorem saturated_deadline_strands_sleeper :
    ¬ Punctual (run [.insert 100#64 1 (), .insert (BitVec.allOnes 64) 2 ()]) := by
  intro h
  have hnone : ((run [Call.insert 100#64 1 (), .insert (BitVec.allOnes 64) 2 ()]).timeline.popDue
      100#64).2.isSome = false := by decide
  rw [(h.due 100#64).mpr ⟨⟨100#64, 1, ()⟩, by simp [run, step, History.start], by decide⟩] at hnone
  exact absurd hnone (by decide)

/-- An instant less than half the clock away from everything filed, and a name
that is not filed yet. -/
def Fits (s : History T) : Call T → Prop
  | .insert instant id _ => (∀ sleeper ∈ s.filed, sleeper.id ≠ id) ∧
      ∀ sleeper ∈ s.filed, (sleeper.instant.toNat : Int) - instant.toNat < 2 ^ 63 ∧
        (instant.toNat : Int) - sleeper.instant.toNat < 2 ^ 63
  | .popDue _ | .remove _ => True

instance (s : History T) : (call : Call T) → Decidable (Fits s call)
  | .insert _ _ _ => inferInstanceAs (Decidable (_ ∧ _))
  | .popDue _ => .isTrue trivial
  | .remove _ => .isTrue trivial

def Fitting : History T → List (Call T) → Prop
  | _, [] => True
  | s, call :: calls => Fits s call ∧ Fitting (step s call) calls

instance decidableFitting : (s : History T) → (calls : List (Call T)) →
    Decidable (Fitting s calls)
  | _, [] => .isTrue trivial
  | s, call :: calls =>
    have := decidableFitting (step s call) calls
    inferInstanceAs (Decidable (_ ∧ _))

/-- What the calls keep: the tree is in order and holds exactly who is filed,
under distinct names and within half the clock. -/
structure Sound (s : History T) : Prop where
  inOrder : InOrder s.timeline.tree.root
  filed : s.timeline.tree.toList.Perm (s.filed.map Sleeper.entity)
  names : (s.filed.map Sleeper.id).Nodup
  close : ∀ a ∈ s.filed, ∀ b ∈ s.filed, (a.instant.toNat : Int) - b.instant.toNat < 2 ^ 63

lemma before_iff_lt {a b : BitVec 64} (hab : (a.toNat : Int) - b.toNat < 2 ^ 63)
    (hba : (b.toNat : Int) - a.toNat < 2 ^ 63) : before a b = true ↔ a.toNat < b.toNat := by
  rw [before, decide_eq_true_eq, offset_eq_toNat_sub (by omega) hab]
  omega

lemma consistent_of_close {sleepers : List (Sleeper T)}
    (hclose : ∀ a ∈ sleepers, ∀ b ∈ sleepers, (a.instant.toNat : Int) - b.instant.toNat < 2 ^ 63) :
    Consistent (sleepers.map fun sleeper => sleeper.entity.key) := by
  refine consistent_of_place (fun instant => (instant.toNat : Int)) ?_
  intro a ha b hb hne
  obtain ⟨f, hf, rfl⟩ := mem_map.mp ha
  obtain ⟨second, hsecond, rfl⟩ := mem_map.mp hb
  constructor
  · intro heq
    exact hne (BitVec.eq_of_toNat_eq (by exact_mod_cast heq))
  · change before f.instant second.instant = true ↔ _
    rw [before_iff_lt (hclose _ hf _ hsecond) (hclose _ hsecond _ hf)]
    exact Int.ofNat_lt.symm

variable {s : History T}

section

variable (hs : Sound s)
include hs

lemma Sound.mem_iff {e : Entity T} :
    e ∈ s.timeline.tree.toList ↔ ∃ sleeper ∈ s.filed, sleeper.entity = e := by
  rw [hs.filed.mem_iff, mem_map]

lemma Sound.keys_subset : s.timeline.tree.toList.map Entity.key ⊆
    s.filed.map fun sleeper => sleeper.entity.key := by
  intro k hk
  obtain ⟨e, he, rfl⟩ := mem_map.mp hk
  obtain ⟨sleeper, hsleeper, rfl⟩ := hs.mem_iff.mp he
  exact mem_map_of_mem (f := fun sleeper : Sleeper T => sleeper.entity.key) hsleeper

lemma Sound.consistent : Consistent (s.timeline.tree.toList.map Entity.key) :=
  (consistent_of_close hs.close).mono hs.keys_subset

lemma Sound.ids : (s.timeline.tree.toList.map Entity.id).Nodup := by
  rw [(hs.filed.map Entity.id).nodup_iff, map_map]
  exact hs.names

omit hs in
lemma sound_start : Sound (History.start : History T) := by
  refine ⟨?_, ?_, ?_, ?_⟩ <;> simp [History.start, Timeline.new, DeadlineTree.Tree.new,
    DeadlineTree.Tree.toList, InOrder]

lemma sound_insert {instant : BitVec 64} {id : Nat} {payload : T}
    (hfits : Fits s (.insert instant id payload)) :
    Sound (step s (.insert instant id payload)) := by
  obtain ⟨hn, hnear⟩ := hfits
  have hclose : ∀ a ∈ (⟨instant, id, payload⟩ :: s.filed : List (Sleeper T)),
      ∀ b ∈ (⟨instant, id, payload⟩ :: s.filed : List (Sleeper T)),
        (a.instant.toNat : Int) - b.instant.toNat < 2 ^ 63 := by
    intro a ha b hb
    rcases mem_cons.mp ha with rfl | ha <;> rcases mem_cons.mp hb with rfl | hb
    · simp
    · exact (hnear b hb).2
    · exact (hnear a ha).1
    · exact hs.close a ha b hb
  refine ⟨?_, ?_, ?_, hclose⟩
  · refine inOrder_insert ?_ ?_ hs.inOrder
    · exact (consistent_of_close hclose).mono (cons_subset_cons _ hs.keys_subset)
    · intro hm
      obtain ⟨e, he, hk⟩ := mem_map.mp hm
      obtain ⟨sleeper, hsleeper, rfl⟩ := hs.mem_iff.mp he
      exact hn sleeper hsleeper (congrArg Key.id hk)
  · exact (perm_insert _ _).trans (hs.filed.cons _)
  · refine nodup_cons.mpr ⟨?_, hs.names⟩
    intro hm
    obtain ⟨sleeper, hsleeper, heq⟩ := mem_map.mp hm
    exact hn sleeper hsleeper heq

lemma take_spec {sleeper : Sleeper T} (hm : sleeper ∈ s.filed) :
    (s.timeline.take sleeper.entity.key).2 = some (sleeper.id, sleeper.payload) ∧
      Sound ⟨(s.timeline.take sleeper.entity.key).1,
        s.filed.filter fun other => other.id ≠ sleeper.id⟩ := by
  have he : sleeper.entity ∈ s.timeline.tree.toList := hs.mem_iff.mpr ⟨sleeper, hm, rfl⟩
  obtain ⟨hfound, front, back, hsplit, hr⟩ := remove_spec hs.consistent hs.inOrder he
  refine ⟨?_, inOrder_remove hs.consistent hs.inOrder he, ?_, ?_, ?_⟩
  · simp only [Timeline.take, DeadlineTree.Tree.remove, hfound, Option.bind_some]
    rfl
  · change (s.timeline.tree.root.remove sleeper.entity.key).1.toList.Perm _
    rw [hr, ← filter_ne_of_split hs.ids hsplit]
    refine (hs.filed.filter _).trans ?_
    rw [filter_map]
    exact List.Perm.refl _
  · exact hs.names.sublist (filter_sublist.map _)
  · intro a ha b hb
    exact hs.close a (mem_of_mem_filter ha) b (mem_of_mem_filter hb)

lemma first_spec : (s.timeline.tree.first = none ∧ s.filed = []) ∨
    ∃ sleeper ∈ s.filed, s.timeline.tree.first = some sleeper.entity ∧
      ∀ other ∈ s.filed, sleeper.instant < other.instant ∨
        (sleeper.instant = other.instant ∧ sleeper.id ≤ other.id) := by
  rw [DeadlineTree.Tree.first, first_eq_head?]
  rcases hlist : s.timeline.tree.root.toList with _ | ⟨head, r⟩
  · refine .inl ⟨rfl, ?_⟩
    have := hs.filed.length_eq
    rw [DeadlineTree.Tree.toList, hlist, length_map] at this
    exact eq_nil_of_length_eq_zero this.symm
  · have hhead : head ∈ s.timeline.tree.toList := by
      rw [DeadlineTree.Tree.toList, hlist]
      exact mem_cons_self
    obtain ⟨sleeper, hsleeper, rfl⟩ := hs.mem_iff.mp hhead
    refine .inr ⟨sleeper, hsleeper, rfl, ?_⟩
    intro other ho
    have hm : other.entity ∈ s.timeline.tree.root.toList :=
      hs.mem_iff.mpr ⟨other, ho, rfl⟩
    rw [hlist] at hm
    rcases mem_cons.mp hm with heq | hm
    · exact .inr ⟨(congrArg Entity.deadline heq).symm, Nat.le_of_eq (congrArg Entity.id heq).symm⟩
    · have horder := hs.inOrder
      rw [InOrder, hlist, pairwise_cons] at horder
      have hless := horder.1 other.entity hm
      rw [Key.order] at hless
      split at hless
      · rename_i heq
        exact .inr ⟨heq, Nat.le_of_lt (Nat.compare_eq_lt.mp hless)⟩
      · split at hless
        · rename_i hbefore
          refine .inl ?_
          exact (before_iff_lt (hs.close _ hsleeper _ ho) (hs.close _ ho _ hsleeper)).mp hbefore
        · simp at hless

lemma sound_step {c : Call T} (hfits : Fits s c) : Sound (step s c) := by
  cases c with
  | insert instant id payload => exact sound_insert hs hfits
  | popDue now =>
    rw [step, Timeline.popDue]
    rcases first_spec hs with ⟨hf, -⟩ | ⟨sleeper, hsleeper, hf, -⟩
    · simpa [hf] using hs
    · rw [hf]
      dsimp only
      split
      · simpa using hs
      · obtain ⟨htaken, h⟩ := take_spec hs hsleeper
        simpa [htaken] using h
  | remove id =>
    rw [step, Timeline.remove]
    rcases hfind : s.timeline.tree.find id with _ | k
    · have hnone : ∀ sleeper ∈ s.filed, sleeper.id ≠ id := by
        intro sleeper hsleeper
        exact (find_eq_none_iff _ _).mp hfind sleeper.entity
          (hs.mem_iff.mpr ⟨sleeper, hsleeper, rfl⟩)
      have hfilter : (s.filed.filter fun sleeper => sleeper.id ≠ id) = s.filed := by
        rw [filter_eq_self]
        intro sleeper hsleeper
        simpa using hnone sleeper hsleeper
      rw [hfilter]
      exact hs
    · obtain ⟨e, he, hid, hk⟩ := exists_of_find hfind
      obtain ⟨sleeper, hsleeper, rfl⟩ := hs.mem_iff.mp he
      subst hid hk
      exact (take_spec hs hsleeper).2

omit hs in
lemma sound_foldl (calls : List (Call T)) :
    ∀ s : History T, Sound s → Fitting s calls → Sound (calls.foldl step s) := by
  induction calls with
  | nil =>
    intro s hs _
    exact hs
  | cons c calls ih =>
    intro s hs hfitting
    exact ih (step s c) (sound_step hs hfitting.1) hfitting.2

lemma popDue_spec (now : BitVec 64) :
    ((s.timeline.popDue now).2 = none ∧ ∀ sleeper ∈ s.filed, now < sleeper.instant) ∨
    ∃ sleeper ∈ s.filed, sleeper.instant ≤ now ∧
      (s.timeline.popDue now).2 = some (sleeper.id, sleeper.payload) ∧
      ∀ other ∈ s.filed, sleeper.instant < other.instant ∨
        (sleeper.instant = other.instant ∧ sleeper.id ≤ other.id) := by
  rw [Timeline.popDue]
  rcases first_spec hs with ⟨hf, hfiled⟩ | ⟨sleeper, hsleeper, hf, hleast⟩
  · rw [hf, hfiled]
    exact .inl ⟨rfl, by simp⟩
  · rw [hf]
    dsimp only
    split
    · rename_i hlate
      refine .inl ⟨rfl, ?_⟩
      intro other ho
      rcases hleast other ho with hless | ⟨heq, -⟩
      · exact BitVec.lt_trans hlate hless
      · exact heq ▸ hlate
    · rename_i hdue
      exact .inr ⟨sleeper, hsleeper, BitVec.not_lt.mp hdue, (take_spec hs hsleeper).1, hleast⟩

lemma Sound.punctual : Punctual s := by
  constructor
  · intro now
    rcases popDue_spec hs now with ⟨hnone, hlate⟩ | ⟨sleeper, hsleeper, hdue, hsome, -⟩
    · rw [hnone]
      constructor
      · intro h
        simp at h
      · rintro ⟨sleeper, hsleeper, hdue⟩
        exact absurd (hlate sleeper hsleeper) (BitVec.not_lt.mpr hdue)
    · rw [hsome]
      exact ⟨fun _ => ⟨sleeper, hsleeper, hdue⟩, fun _ => rfl⟩
  · intro now id payload hpop
    rcases popDue_spec hs now with ⟨hnone, -⟩ | ⟨sleeper, hsleeper, -, hsome, hleast⟩
    · rw [hnone] at hpop
      simp at hpop
    · rw [hsome, Option.some.injEq, Prod.mk.injEq] at hpop
      exact ⟨sleeper, hsleeper, hpop.1, hpop.2, hleast⟩
  · intro instant
    rw [Timeline.firstDue]
    rcases first_spec hs with ⟨hf, hfiled⟩ | ⟨sleeper, hsleeper, hf, hleast⟩
    · simp [hf, hfiled]
    · have hle : ∀ o ∈ s.filed, sleeper.instant ≤ o.instant := by
        intro o ho
        rcases hleast o ho with hless | ⟨heq, -⟩
        · exact BitVec.le_of_lt hless
        · rw [heq]
          exact BitVec.le_refl _
      rw [hf, Option.map_some, Option.some.injEq]
      constructor
      · rintro rfl
        exact ⟨⟨sleeper, hsleeper, rfl⟩, hle⟩
      · rintro ⟨⟨o, ho, rfl⟩, hleast'⟩
        exact BitVec.le_antisymm (hle o ho) (hleast' sleeper hsleeper)

end

theorem punctual_of_fitting (calls : List (Call T)) (hfitting : Fitting .start calls) :
    Punctual (run calls) :=
  (sound_foldl calls .start sound_start hfitting).punctual

theorem punctual_of_fitting_two :
    Punctual (run [Call.insert 5#64 1 (), .insert 3#64 2 (), .popDue 4#64]) :=
  punctual_of_fitting _ (by decide)

end Ferrix.Sched.Sleepers
