import Mathlib.Tactic

/-!
`SleepLock` over any parking that keeps its contract, one atomic access a step.
-/

namespace Ferrix.Sync.SleepLock

open Relation List

section

inductive Place where
  | idle
  | trying
  | attempting
  | announcing
  | parking
  | listed
  | looked
  | asleep
  | returned
  | stored
  | unparking
  | waking (remaining : List Nat)
deriving DecidableEq

def Place.Announced : Place → Prop
  | .parking | .listed | .looked | .asleep | .returned => True
  | _ => False

def Place.Listed : Place → Prop
  | .listed | .looked | .asleep => True
  | _ => False

def Place.Blocked : Place → Prop
  | .looked | .asleep => True
  | _ => False

/-- The release at this place still has its wake of thread `u` before it. -/
def Place.Covers (u : Nat) : Place → Prop
  | .stored | .unparking => True
  | .waking remaining => u ∈ remaining
  | _ => False

def Place.Parked : Place → Prop
  | .parking | .listed | .looked | .asleep => True
  | _ => False

instance : DecidablePred Place.Listed := fun p => by
  cases p <;> unfold Place.Listed <;> infer_instance

structure State where
  locked : Bool
  waiters : Nat
  guards : List Nat
  place : Nat → Place

def new : State := ⟨false, 0, [], fun _ => .idle⟩

variable (s : State) (t : Nat)

def State.goto (p : Place) : State := { s with place := Function.update s.place t p }

def State.acquire : State :=
  { s.goto t .idle with locked := true, guards := t :: s.guards }

/-- `unpark_all` reaches thread `u`: if it is listed, it comes off the list and looks again. -/
def State.rouse (u : Nat) : State :=
  if (s.place u).Listed then s.goto u .parking else s

/-- One atomic access of thread `t`, or one step of the parking it calls. -/
inductive Step (s : State) (t : Nat) : State → Prop
  | lock (h : s.place t = .idle) : Step s t (s.goto t .trying)
  | acquire (h : s.place t = .trying) (hfree : s.locked = false) : Step s t (s.acquire t)
  | contended (h : s.place t = .trying) (hheld : s.locked = true) :
      Step s t (s.goto t .announcing)
  | announce (h : s.place t = .announcing) :
      Step s t { s.goto t .parking with waiters := s.waiters + 1 }
  | list (h : s.place t = .parking) : Step s t (s.goto t .listed)
  | look (h : s.place t = .listed) (hheld : s.locked = true) : Step s t (s.goto t .looked)
  | sleep (h : s.place t = .looked) : Step s t (s.goto t .asleep)
  | again (h : (s.place t).Parked) : Step s t (s.goto t .parking)
  | back (h : (s.place t).Parked) : Step s t (s.goto t .returned)
  | leave (h : s.place t = .returned) :
      Step s t { s.goto t .trying with waiters := s.waiters - 1 }
  | tryLock (h : s.place t = .idle) : Step s t (s.goto t .attempting)
  | attempted (h : s.place t = .attempting) (hfree : s.locked = false) : Step s t (s.acquire t)
  | refused (h : s.place t = .attempting) (hheld : s.locked = true) : Step s t (s.goto t .idle)
  | release (h : s.place t = .idle) (hguard : t ∈ s.guards) :
      Step s t { s.goto t .stored with locked := false, guards := s.guards.erase t }
  | quiet (h : s.place t = .stored) (hnone : s.waiters = 0) : Step s t (s.goto t .idle)
  | notice (h : s.place t = .stored) (hsome : s.waiters ≠ 0) : Step s t (s.goto t .unparking)
  | unpark (remaining : List Nat) (h : s.place t = .unparking)
      (hall : ∀ u, (s.place u).Listed → u ∈ remaining) :
      Step s t (s.goto t (.waking remaining))
  | wake (u : Nat) (remaining : List Nat) (h : s.place t = .waking (u :: remaining)) :
      Step s t ((s.rouse u).goto t (.waking remaining))
  | done (h : s.place t = .waking []) : Step s t (s.goto t .idle)

def Next (s s' : State) : Prop := ∃ t, Step s t s'

end

variable {s s' : State} {t u : Nat} {p : Place}

structure Inv (s : State) : Prop where
  guards : s.guards.length = s.locked.toNat
  waiters : ∃ announced : Finset Nat,
    (∀ t, t ∈ announced ↔ (s.place t).Announced) ∧ announced.card = s.waiters
  covered : ∀ t, (s.place t).Blocked → s.locked = true ∨ ∃ r, (s.place r).Covers t

lemma inv_new : Inv new :=
  ⟨rfl, ⟨∅, by simp [new, Place.Announced]⟩, fun _ h => h.elim⟩

@[simp]
lemma place_goto : (s.goto t p).place u = if u = t then p else s.place u :=
  Function.update_apply ..

lemma announced_of_blocked (h : p.Blocked) : p.Announced := by
  cases p <;> trivial

lemma listed_of_blocked (h : p.Blocked) : p.Listed := by
  cases p <;> trivial

lemma announced_of_parked (h : p.Parked) : p.Announced := by
  cases p <;> trivial

lemma not_covers_of_parked (h : p.Parked) : ¬ p.Covers u := by
  cases p <;> first | exact id | exact h.elim

section

variable (hinv : Inv s)
include hinv

lemma waiters_goto (h : p.Announced ↔ (s.place t).Announced) : ∃ announced : Finset Nat,
      (∀ u, u ∈ announced ↔ ((s.goto t p).place u).Announced) ∧ announced.card = s.waiters := by
  obtain ⟨announced, hm, hcard⟩ := hinv.waiters
  refine ⟨announced, fun u => ?_, hcard⟩
  rw [hm, place_goto]
  split_ifs with hu
  · rw [h, hu]
  · exact Iff.rfl

lemma covered_goto (hblocked : p.Blocked → s.locked = true ∨ (s.place t).Blocked)
    (hc : ∀ u, (s.place u).Blocked → (s.place t).Covers u → p.Covers u) (u : Nat)
    (hu : ((s.goto t p).place u).Blocked) :
    s.locked = true ∨ ∃ r, ((s.goto t p).place r).Covers u := by
  have hbefore : s.locked = true ∨ (s.place u).Blocked := by
    rw [place_goto] at hu
    split_ifs at hu with hut
    · exact hut ▸ hblocked hu
    · exact Or.inr hu
  rcases hbefore with hlocked | hu
  · exact Or.inl hlocked
  · refine (hinv.covered u hu).imp_right ?_
    rintro ⟨r, hr⟩
    refine ⟨r, ?_⟩
    rw [place_goto]
    split_ifs with hrt
    · exact hc u hu (hrt ▸ hr)
    · exact hr

lemma inv_goto (hp : s.place t = q) (hannounced : p.Announced ↔ q.Announced)
    (hblocked : p.Blocked → s.locked = true ∨ q.Blocked)
    (hc : ∀ u, (s.place u).Blocked → q.Covers u → p.Covers u) : Inv (s.goto t p) := by
  subst hp
  exact ⟨hinv.guards, waiters_goto hinv hannounced, covered_goto hinv hblocked hc⟩

lemma inv_acquire (hp : ¬ (s.place t).Announced) (hf : s.locked = false) : Inv (s.acquire t) := by
  have hguards := hinv.guards
  rw [hf] at hguards
  refine ⟨?_, waiters_goto hinv (iff_of_false id hp), fun _ _ => Or.inl rfl⟩
  rw [State.acquire, length_cons, hguards]
  rfl

lemma inv_announce (h : s.place t = .announcing) :
    Inv { s.goto t .parking with waiters := s.waiters + 1 } := by
  obtain ⟨announced, hm, hcard⟩ := hinv.waiters
  have ht : t ∉ announced := by
    rw [hm, h]
    exact id
  refine ⟨hinv.guards, ⟨insert t announced, fun u => ?_, ?_⟩,
    covered_goto hinv (fun h => h.elim) fun u _ hc => ?_⟩
  · change _ ↔ ((s.goto t .parking).place u).Announced
    rw [Finset.mem_insert, place_goto, hm]
    split_ifs with hu
    · exact iff_of_true (Or.inl hu) trivial
    · exact or_iff_right hu
  · rw [Finset.card_insert_of_notMem ht, hcard]
  · rw [h] at hc
    exact hc.elim

lemma inv_leave (h : s.place t = .returned) :
    Inv { s.goto t .trying with waiters := s.waiters - 1 } := by
  obtain ⟨announced, hm, hcard⟩ := hinv.waiters
  have ht : t ∈ announced := by
    rw [hm, h]
    trivial
  refine ⟨hinv.guards, ⟨announced.erase t, fun u => ?_, ?_⟩,
    covered_goto hinv (fun h => h.elim) fun u _ hc => ?_⟩
  · change _ ↔ ((s.goto t .trying).place u).Announced
    rw [Finset.mem_erase, place_goto, hm]
    split_ifs with hu
    · exact iff_of_false (fun h => h.1 hu) id
    · exact and_iff_right hu
  · rw [Finset.card_erase_of_mem ht, hcard]
  · rw [h] at hc
    exact hc.elim

lemma inv_release (h : s.place t = .idle) (hguard : t ∈ s.guards) :
    Inv { s.goto t .stored with locked := false, guards := s.guards.erase t } := by
  have hguards := hinv.guards
  have hpos := length_pos_of_mem hguard
  refine ⟨?_, waiters_goto hinv (by rw [h]; exact Iff.rfl), fun u _ => Or.inr ⟨t, ?_⟩⟩
  · change (s.guards.erase t).length = 0
    rw [length_erase_of_mem hguard]
    have := s.locked.toNat_le
    omega
  · change ((s.goto t .stored).place t).Covers u
    rw [place_goto, if_pos rfl]
    trivial

lemma not_blocked (hnone : s.waiters = 0) : ¬ (s.place u).Blocked := by
  intro hu
  obtain ⟨announced, hm, hcard⟩ := hinv.waiters
  rw [hnone, Finset.card_eq_zero] at hcard
  have := (hm u).2 (announced_of_blocked hu)
  rw [hcard] at this
  exact absurd this (Finset.notMem_empty u)

lemma inv_rouse : Inv (s.rouse u) ∧ ¬ ((s.rouse u).place u).Blocked := by
  rw [State.rouse]
  split_ifs with h
  · have hparked : (s.place u).Parked := by
      cases hp : s.place u <;> rw [hp] at h <;> trivial
    refine ⟨inv_goto hinv rfl (iff_of_true trivial (announced_of_parked hparked)) (fun h => h.elim)
      fun v _ hv => absurd hv (not_covers_of_parked hparked), ?_⟩
    rw [place_goto, if_pos rfl]
    exact id
  · exact ⟨hinv, fun hb => h (listed_of_blocked hb)⟩

omit hinv in
lemma place_rouse_self {remaining : List Nat} (h : s.place t = .waking remaining) :
    (s.rouse u).place t = .waking remaining := by
  rw [State.rouse]
  split_ifs with hu
  · rw [place_goto, if_neg, h]
    rintro rfl
    rw [h] at hu
    exact hu
  · exact h

lemma inv_step (hs : Step s t s') : Inv s' := by
  cases hs with
  | lock h | tryLock h | list h =>
    exact inv_goto hinv h Iff.rfl (fun h => h.elim) fun u _ hc => hc.elim
  | acquire h hf | attempted h hf => exact inv_acquire hinv (by rw [h]; exact id) hf
  | contended h hh | refused h hh | look h hh =>
    exact inv_goto hinv h Iff.rfl (fun _ => Or.inl hh) fun u _ hc => hc.elim
  | announce h => exact inv_announce hinv h
  | sleep h =>
    exact inv_goto hinv h Iff.rfl (fun _ => Or.inr trivial) fun u _ hc => hc.elim
  | again h | back h =>
    exact inv_goto hinv rfl (iff_of_true trivial (announced_of_parked h)) (fun h => h.elim)
      fun u _ hc => absurd hc (not_covers_of_parked h)
  | leave h => exact inv_leave hinv h
  | release h hguard => exact inv_release hinv h hguard
  | quiet h hnone =>
    exact inv_goto hinv h Iff.rfl (fun h => h.elim) fun u hu _ => absurd hu (not_blocked hinv hnone)
  | notice h _ =>
    exact inv_goto hinv h Iff.rfl (fun h => h.elim) fun _ _ _ => trivial
  | unpark remaining h hall =>
    exact inv_goto hinv h Iff.rfl (fun h => h.elim) fun u hu _ => hall u (listed_of_blocked hu)
  | wake v remaining h =>
    obtain ⟨hroused, hv⟩ := inv_rouse (u := v) hinv
    refine inv_goto hroused (place_rouse_self (u := v) h) Iff.rfl (fun h => h.elim) ?_
    intro u hu hc
    refine (mem_cons.1 hc).resolve_left ?_
    rintro rfl
    exact hv hu
  | done h =>
    exact inv_goto hinv h Iff.rfl (fun h => h.elim) fun u _ hc => absurd hc not_mem_nil

end

lemma inv_run (hrun : ReflTransGen Next new s) : Inv s := by
  induction hrun with
  | refl => exact inv_new
  | tail _ hs ih => exact inv_step ih hs.choose_spec

/-- At most one guard exists, and a waiter asleep by a free lock is one that a release in progress,
past its store of the flag, has not reached yet. -/
theorem sleep_lock_strands_nobody (hrun : ReflTransGen Next new s) : s.guards.length ≤ 1 ∧
      ∀ t, s.place t = .asleep → s.locked = false →
        ∃ r, s.place r = .stored ∨ s.place r = .unparking ∨
          ∃ remaining, s.place r = .waking remaining ∧ t ∈ remaining := by
  have hinv := inv_run hrun
  refine ⟨hinv.guards ▸ s.locked.toNat_le, ?_⟩
  intro t ht hfree
  have hblocked : (s.place t).Blocked := by
    rw [ht]
    trivial
  obtain hlocked | ⟨r, hr⟩ := hinv.covered t hblocked
  · rw [hfree] at hlocked
    cases hlocked
  · refine ⟨r, ?_⟩
    cases hplace : s.place r with
    | stored => exact Or.inl rfl
    | unparking => exact Or.inr (Or.inl rfl)
    | waking remaining =>
      rw [hplace] at hr
      exact Or.inr (Or.inr ⟨remaining, rfl, hr⟩)
    | _ =>
      rw [hplace] at hr
      exact hr.elim

/-- Thread 1 sleeps on the lock thread 0 holds; thread 0 has stored the flag and noticed it. -/
theorem sleep_lock_strands_nobody_noticed :
    ∃ s, ReflTransGen Next new s ∧ s.place 1 = .asleep ∧ s.locked = false ∧
      s.place 0 = .unparking ∧ s.guards.length ≤ 1 := by
  have h : ReflTransGen Next new _ := .refl
  replace h := h.tail ⟨0, .lock rfl⟩
  replace h := h.tail ⟨0, .acquire rfl rfl⟩
  replace h := h.tail ⟨1, .lock rfl⟩
  replace h := h.tail ⟨1, .contended rfl rfl⟩
  replace h := h.tail ⟨1, .announce rfl⟩
  replace h := h.tail ⟨1, .list rfl⟩
  replace h := h.tail ⟨1, .look rfl rfl⟩
  replace h := h.tail ⟨1, .sleep rfl⟩
  replace h := h.tail ⟨0, .release rfl (mem_singleton_self 0)⟩
  replace h := h.tail ⟨0, .notice rfl (Nat.succ_ne_zero 0)⟩
  exact ⟨_, h, rfl, rfl, rfl, (sleep_lock_strands_nobody h).1⟩

end Ferrix.Sync.SleepLock
