import Mathlib.Tactic
import Mathlib.Data.List.FinRange

/-!
A table of `n` slots on a ring.  An entry lies at its home or behind it, with no empty slot in
between, and some slot of the ring is crossed by none of these stretches, even when the table is
full.
-/

namespace Ferrix.Foundations.OpenAddressing

open Function List

variable {n fuel : Nat} {V : Type} {v : V} {p : Fin n}

inductive Probe (n : Nat)
  | vacant (place : Fin n)
  | held (place : Fin n)
  | exhausted

section

variable [NeZero n] (key : V → Nat)

def home (id : Nat) : Fin n := Fin.ofNat n id

/-- Walks from a slot to an empty one or to the one that holds a key. -/
def probeFrom (slots : Fin n → Option V) (id : Nat) : Nat → Fin n → Probe n
  | 0, _ => .exhausted
  | fuel + 1, place =>
    match slots place with
    | none => .vacant place
    | some entry => if key entry = id then .held place else probeFrom slots id fuel (place + 1)

def probe (slots : Fin n → Option V) (id : Nat) : Probe n := probeFrom key slots id n (home id)

def distance (start stop : Fin n) : Nat :=
  if start ≤ stop then stop.val - start.val else n - start.val + stop.val

/-- Moves every entry behind a hole that could live in it into it. -/
def shiftFrom : Nat → (Fin n → Option V) → Fin n → Fin n → Fin n → Option V
  | 0, slots, _, _ => slots
  | fuel + 1, slots, hole, place =>
    match slots place with
    | none => slots
    | some entry =>
      if distance hole place ≤ distance (home (key entry)) place then
        shiftFrom fuel (update (update slots hole (some entry)) place none)
          place (place + 1)
      else shiftFrom fuel slots hole (place + 1)

def vacate (slots : Fin n → Option V) (place : Fin n) : Fin n → Option V :=
  shiftFrom key n (update slots place none) place (place + 1)

end

def contents (slots : Fin n → Option V) : List V := (List.finRange n).filterMap slots

def Keyed (key : V → Nat) (slots : Fin n → Option V) : Prop :=
  ∀ p q v w, slots p = some v → slots q = some w → key v = key w → p = q

/-- The way from an entry's home to its slot has no empty slot and does not cross the cut. -/
def Packed [NeZero n] (key : V → Nat) (slots : Fin n → Option V) (cut : Fin n) : Prop :=
  ∀ p v, slots p = some v → ∀ j : Nat, j < (p - home (key v)).val →
    slots (home (key v) + Fin.ofNat n j) ≠ none ∧ home (key v) + Fin.ofNat n j ≠ cut

structure Sound [NeZero n] (key : V → Nat) (slots : Fin n → Option V) : Prop where
  keyed : Keyed key slots
  packed : ∃ cut, Packed key slots cut

section

variable {slots : Fin n → Option V} {p : Fin n} {v : V}

lemma mem_contents : v ∈ contents slots ↔ ∃ p, slots p = some v := by
  simp [contents]

lemma contents_empty : contents (fun _ : Fin n => (none : Option V)) = [] := by
  simp [contents]

lemma contents_fill (v : V) (he : slots p = none) :
    (contents (update slots p (some v))).Perm (v :: contents slots) := by
  obtain ⟨left, r, hsplit⟩ := append_of_mem (mem_finRange p)
  have hnodup := nodup_finRange n
  rw [hsplit, nodup_append', nodup_cons] at hnodup
  obtain ⟨-, ⟨hright, -⟩, hdisjoint⟩ := hnodup
  have hsame : ∀ l : List (Fin n), p ∉ l →
      l.filterMap (update slots p (some v)) = l.filterMap slots := by
    intro l hl
    refine filterMap_congr fun q hq => ?_
    have hne : q ≠ p := by
      rintro rfl
      exact hl hq
    exact update_of_ne hne _ _
  rw [contents, contents, hsplit, filterMap_append, filterMap_append,
    filterMap_cons_some (update_self p (some v) slots),
    filterMap_cons_none he, hsame left (fun h => hdisjoint h mem_cons_self),
    hsame r hright]
  exact perm_middle

lemma contents_clear (hfull : slots p = some v) :
    (contents slots).Perm (v :: contents (update slots p none)) := by
  have h := contents_fill v (update_self p none slots)
  rwa [update_idem, ← hfull, update_eq_self] at h

end

lemma val_sub (p q : Fin n) :
    (q - p).val = if p.val ≤ q.val then q.val - p.val else n - p.val + q.val := by
  rw [Fin.sub_def]
  dsimp only
  split_ifs with hle
  · rw [show n - p.val + q.val = q.val - p.val + n by omega, Nat.add_mod_right]
    exact Nat.mod_eq_of_lt (by omega)
  · exact Nat.mod_eq_of_lt (by omega)

lemma distance_eq (p q : Fin n) : distance p q = (q - p).val := (val_sub p q).symm

section

variable [NeZero n] {c h p q : Fin n}

/-- Where a slot lies when the ring is cut behind another. -/
def coordinate (c p : Fin n) : Nat := (p - (c + 1)).val

lemma coordinate_lt (c p : Fin n) : coordinate c p < n := (p - (c + 1)).isLt

lemma coordinate_injective (heq : coordinate c p = coordinate c q) : p = q :=
  sub_left_injective (Fin.ext heq)

lemma coordinate_add {j : Nat} (hlt : coordinate c p + j < n) :
    coordinate c (p + Fin.ofNat n j) = coordinate c p + j := by
  rw [coordinate, add_sub_right_comm, Fin.val_add, Fin.val_ofNat, Nat.add_mod_mod]
  exact Nat.mod_eq_of_lt hlt

lemma coordinate_succ (hlt : coordinate c p + 1 < n) :
    coordinate c (p + 1) = coordinate c p + 1 := coordinate_add hlt

lemma steps_eq (c p q : Fin n) : (q - p).val = if coordinate c p ≤ coordinate c q then
    coordinate c q - coordinate c p else n - coordinate c p + coordinate c q := by
  rw [← sub_sub_sub_cancel_right q p (c + 1)]
  exact val_sub _ _

lemma coordinate_cut (c : Fin n) : coordinate c c = n - 1 := by
  have hpos := NeZero.pos n
  rcases lt_or_ge 1 n with hn | hn
  · have hone : (1 : Fin n).val = 1 := Nat.mod_eq_of_lt hn
    rw [coordinate, sub_add_cancel_left, Fin.neg_def]
    rw [hone]
    exact Nat.mod_eq_of_lt (by omega)
  · have := coordinate_lt c c
    omega

lemma coordinate_round (hl : coordinate c p + 1 = n) : coordinate c (p + 1) = 0 := by
  have hcut := coordinate_cut c
  rw [coordinate_injective (show coordinate c p = coordinate c c by omega), coordinate, sub_self]
  rfl

lemma add_steps (h p : Fin n) : h + Fin.ofNat n (p - h).val = p := by
  rw [show Fin.ofNat n (p - h).val = p - h from Fin.ext (Nat.mod_eq_of_lt (p - h).isLt)]
  exact add_sub_cancel h p

lemma coordinate_le_iff : coordinate c h ≤ coordinate c p ↔
    ∀ j : Nat, j < (p - h).val → h + Fin.ofNat n j ≠ c := by
  have hh := coordinate_lt c h
  have hp := coordinate_lt c p
  rw [steps_eq c h p]
  constructor
  · intro hle j hj heq
    rw [if_pos hle] at hj
    have hadd := coordinate_add (c := c) (p := h) (j := j) (by omega)
    rw [heq, coordinate_cut] at hadd
    omega
  · intro hnot
    by_contra hlt
    rw [if_neg hlt] at hnot
    refine hnot (n - 1 - coordinate c h) (by omega) (coordinate_injective (c := c) ?_)
    rw [coordinate_add (by omega), coordinate_cut]
    omega

variable {key : V → Nat} {slots : Fin n → Option V} {id : Nat}

/-- The first slots from a home hold other keys. -/
def Passed (key : V → Nat) (slots : Fin n → Option V) (id steps : Nat) : Prop :=
  ∀ j < steps, ∃ v, slots (home id + Fin.ofNat n j) = some v ∧ key v ≠ id

/-- What a walk from a home tells. -/
def Tells (key : V → Nat) (slots : Fin n → Option V) (id : Nat) : Probe n → Prop
  | .vacant place => slots place = none ∧ ∃ steps < n, Passed key slots id steps ∧
      place = home id + Fin.ofNat n steps
  | .held place => ∃ v, slots place = some v ∧ key v = id
  | .exhausted => Passed key slots id n

lemma probeFrom_tells {steps : Nat} (hfuel : fuel + steps = n)
    (hpassed : Passed key slots id steps) :
    Tells key slots id (probeFrom key slots id fuel (home id + Fin.ofNat n steps)) := by
  induction fuel generalizing steps with
  | zero =>
    rw [Nat.zero_add] at hfuel
    exact hfuel ▸ hpassed
  | succ fuel ih =>
    rw [probeFrom]
    cases hslot : slots (home id + Fin.ofNat n steps) with
    | none => exact ⟨hslot, steps, by omega, hpassed, rfl⟩
    | some v =>
      dsimp only
      split_ifs with hk
      · exact ⟨v, hslot, hk⟩
      · have hn : home id + Fin.ofNat n steps + 1 = home id + Fin.ofNat n (steps + 1) := by
          rw [add_assoc]
          refine congrArg (home id + ·) (Fin.ext ?_)
          simp [Fin.val_add]
        rw [hn]
        refine ih (by omega) fun j hj => ?_
        rcases Nat.lt_succ_iff_lt_or_eq.mp hj with hj | rfl
        · exact hpassed j hj
        · exact ⟨v, hslot, hk⟩

lemma probe_tells (key : V → Nat) (slots : Fin n → Option V) (id : Nat) :
    Tells key slots id (probe key slots id) := by
  have h : Tells key slots id (probeFrom key slots id n (home id + Fin.ofNat n 0)) :=
    probeFrom_tells rfl (by simp [Passed])
  rwa [show home id + Fin.ofNat n 0 = (home id : Fin n) by simp] at h

/-- A walk that passes other keys and ends at no entry of its own has missed none. -/
theorem absent_of_vacant {cut place : Fin n} (hpacked : Packed key slots cut)
    (htells : Tells key slots id (.vacant place)) (hslot : slots p = some v) : key v ≠ id := by
  rintro rfl
  obtain ⟨hnone, steps, hsteps, hpassed, rfl⟩ := htells
  rcases Nat.lt_trichotomy (p - home (key v)).val steps with hlt | heq | hgt
  · obtain ⟨w, hw, hne⟩ := hpassed _ hlt
    rw [add_steps, hslot] at hw
    cases hw
    exact hne rfl
  · rw [← heq, add_steps, hslot] at hnone
    cases hnone
  · exact (hpacked p v hslot steps hgt).1 hnone

lemma absent_of_exhausted (htells : Tells key slots id .exhausted)
    (hslot : slots p = some v) : key v ≠ id := by
  rintro rfl
  obtain ⟨w, hw, hne⟩ := htells _ (p - home (key v)).isLt
  rw [add_steps, hslot] at hw
  cases hw
  exact hne rfl

lemma probe_of_mem (hsound : Sound key slots) (hslot : slots p = some v) :
    probe key slots (key v) = .held p := by
  obtain ⟨cut, hpacked⟩ := hsound.packed
  have htells := probe_tells key slots (key v)
  cases hprobe : probe key slots (key v) with
  | vacant place =>
    rw [hprobe] at htells
    exact absurd rfl (absent_of_vacant hpacked htells hslot)
  | exhausted =>
    rw [hprobe] at htells
    exact absurd rfl (absent_of_exhausted htells hslot)
  | held place =>
    rw [hprobe] at htells
    obtain ⟨w, hw, hk⟩ := htells
    rw [hsound.keyed _ _ _ _ hw hslot hk]

lemma Sound.insert (hsound : Sound key slots) {place : Fin n}
    (hprobe : probe key slots (key v) = .vacant place) :
    Sound key (update slots place (some v)) := by
  obtain ⟨cut, hpacked⟩ := hsound.packed
  have htells := probe_tells key slots (key v)
  rw [hprobe] at htells
  have habsent := fun p w => absent_of_vacant (p := p) (v := w) hpacked htells
  obtain ⟨hnone, steps, hsteps, hpassed, hplace⟩ := htells
  refine ⟨?_, place, ?_⟩
  · intro p q a b hp hq hk
    rw [update_apply] at hp hq
    split_ifs at hp hq with h1 h2 h2
    · rw [h1, h2]
    · cases hp
      exact absurd hk.symm (habsent q b hq)
    · cases hq
      exact absurd hk (habsent p a hp)
    · exact hsound.keyed p q a b hp hq hk
  · intro p w hp j hj
    rw [update_apply] at hp
    split_ifs at hp with hpp
    · cases hp
      have hval : (place - home (key v)).val = steps := by
        rw [hplace, add_sub_cancel_left]
        exact Nat.mod_eq_of_lt hsteps
      rw [hpp, hval] at hj
      obtain ⟨u, hu, -⟩ := hpassed j hj
      have hne : home (key v) + Fin.ofNat n j ≠ place := by
        intro heq
        rw [heq, hnone] at hu
        cases hu
      rw [update_of_ne hne, hu]
      exact ⟨by simp, hne⟩
    · have hold := (hpacked p w hp j hj).1
      have hne : home (key w) + Fin.ofNat n j ≠ place := by
        intro heq
        rw [heq] at hold
        exact hold hnone
      rw [update_of_ne hne]
      exact ⟨hold, hne⟩

end

variable {key : V → Nat} {slots : Fin n → Option V} {hole place : Fin n}

lemma contents_move (he : slots hole = none) (hslot : slots place = some v) :
    (contents (update (update slots hole (some v)) place none)).Perm (contents slots) := by
  have hne : hole ≠ place := by
    rintro rfl
    rw [he] at hslot
    cases hslot
  rw [update_comm hne]
  refine (contents_fill v ?_).trans (contents_clear hslot).symm
  rw [update_of_ne hne, he]

lemma keyed_move (hkeyed : Keyed key slots) (hslot : slots place = some v) :
    Keyed key (update (update slots hole (some v)) place none) := by
  intro p q a b hp hq hk
  rw [update_apply] at hp hq
  split_ifs at hp hq with hpp hqp
  rw [update_apply] at hp hq
  split_ifs at hp hq with hph hqh hqh
  · rw [hph, hqh]
  · cases hp
    exact absurd (hkeyed place q v b hslot hq hk).symm hqp
  · cases hq
    exact absurd (hkeyed p place a v hp hslot hk) hpp
  · exact hkeyed p q a b hp hq hk

variable [NeZero n] {cut : Fin n}

lemma packed_iff : Packed key slots cut ↔ ∀ p v, slots p = some v →
    coordinate cut (home (key v)) ≤ coordinate cut p ∧
      ∀ q, coordinate cut (home (key v)) ≤ coordinate cut q →
        coordinate cut q < coordinate cut p → slots q ≠ none := by
  constructor
  · intro hpacked p v hslot
    have hle := coordinate_le_iff.mpr fun j hj => (hpacked p v hslot j hj).2
    refine ⟨hle, fun q hlow hhigh => ?_⟩
    have hp := steps_eq cut (home (key v)) p
    have hq := steps_eq cut (home (key v)) q
    rw [if_pos hle] at hp
    rw [if_pos hlow] at hq
    have hfilled := (hpacked p v hslot (q - home (key v)).val (by omega)).1
    rwa [add_steps] at hfilled
  · intro hlinear p v hslot j hj
    obtain ⟨hle, hfilled⟩ := hlinear p v hslot
    have hp := coordinate_lt cut p
    refine ⟨hfilled _ ?_ ?_, coordinate_le_iff.mp hle j hj⟩
    all_goals
      rw [steps_eq cut, if_pos hle] at hj
      rw [coordinate_add (by omega)]
      omega

/-- A table with a hole that was looked behind as far as one coordinate. -/
structure Shifting (key : V → Nat) (slots : Fin n → Option V) (cut hole : Fin n) (bound : Nat) :
    Prop where
  empty : slots hole = none
  behind : coordinate cut hole < bound
  settled : ∀ q, coordinate cut hole < coordinate cut q → coordinate cut q < bound →
    ∃ v, slots q = some v ∧ coordinate cut hole < coordinate cut (home (key v))
  packed : ∀ p v, slots p = some v → coordinate cut (home (key v)) ≤ coordinate cut p ∧
    ∀ q, coordinate cut (home (key v)) ≤ coordinate cut q → coordinate cut q < coordinate cut p →
      slots q ≠ none ∨ q = hole ∧ bound ≤ coordinate cut p

lemma Shifting.start (hpacked : Packed key slots cut) :
    Shifting key (update slots p none) cut p (coordinate cut p + 1) := by
  rw [packed_iff] at hpacked
  refine ⟨update_self _ _ _, lt_add_one _, fun q hlow hhigh => by omega, ?_⟩
  intro r v hslot
  rw [update_apply] at hslot
  split_ifs at hslot with hr
  obtain ⟨hle, hfilled⟩ := hpacked r v hslot
  refine ⟨hle, fun q hlow hhigh => ?_⟩
  rcases eq_or_ne q p with rfl | hq
  · exact .inr ⟨rfl, hhigh⟩
  · rw [update_of_ne hq]
    exact .inl (hfilled q hlow hhigh)

section

variable (hshifting : Shifting key slots cut hole (coordinate cut place))
include hshifting

lemma Shifting.stop (hnone : slots place = none) : Packed key slots cut := by
  rw [packed_iff]
  intro p v hslot
  obtain ⟨hle, hfilled⟩ := hshifting.packed p v hslot
  refine ⟨hle, fun q hlow hhigh => ?_⟩
  rcases hfilled q hlow hhigh with h | ⟨rfl, hb⟩
  · exact h
  · have hne : coordinate cut place ≠ coordinate cut p := by
      intro heq
      rw [coordinate_injective heq, hslot] at hnone
      cases hnone
    have hbehind := hshifting.behind
    rcases hfilled place (by omega) (by omega) with h | ⟨rfl, -⟩
    · exact absurd hnone h
    · omega

omit hshifting in
lemma Shifting.round (hshifting : Shifting key slots cut hole n) : Packed key slots cut := by
  rw [packed_iff]
  intro p v hslot
  obtain ⟨hle, hfilled⟩ := hshifting.packed p v hslot
  refine ⟨hle, fun q hlow hhigh => ?_⟩
  rcases hfilled q hlow hhigh with h | ⟨-, hb⟩
  · exact h
  · exact absurd (coordinate_lt cut p) (by omega)

lemma Shifting.stay
    (hslot : slots place = some v) (hhome : coordinate cut hole < coordinate cut (home (key v))) :
    Shifting key slots cut hole (coordinate cut place + 1) := by
  refine ⟨hshifting.empty, hshifting.behind.trans (lt_add_one _), ?_, ?_⟩
  · intro q hlow hhigh
    rcases Nat.lt_succ_iff_lt_or_eq.mp hhigh with h | h
    · exact hshifting.settled q hlow h
    · exact coordinate_injective h ▸ ⟨v, hslot, hhome⟩
  · intro p w hp
    obtain ⟨hle, hfilled⟩ := hshifting.packed p w hp
    refine ⟨hle, fun q hlow hhigh => ?_⟩
    rcases hfilled q hlow hhigh with h | ⟨rfl, hb⟩
    · exact .inl h
    · refine .inr ⟨rfl, Nat.lt_of_le_of_ne hb fun heq => ?_⟩
      rw [coordinate_injective heq, hp] at hslot
      cases hslot
      omega

lemma Shifting.move
    (hslot : slots place = some v) (hhome : coordinate cut (home (key v)) ≤ coordinate cut hole) :
    Shifting key (update (update slots hole (some v)) place none) cut place
      (coordinate cut place + 1) := by
  have hbehind := hshifting.behind
  have hfilled' : ∀ q, slots q ≠ none → q ≠ place →
      update (update slots hole (some v)) place none q ≠ none := by
    intro q hq hqp
    rw [update_of_ne hqp, update_apply]
    split_ifs
    · simp
    · exact hq
  refine ⟨update_self _ _ _, lt_add_one _, fun q hlow hhigh => by omega, ?_⟩
  intro p w hp
  rw [update_apply] at hp
  split_ifs at hp with hpp
  rw [update_apply] at hp
  split_ifs at hp with hph
  · cases hp
    rw [hph]
    refine ⟨hhome, fun q hlow hhigh => .inl (hfilled' q ?_ ?_)⟩
    · rcases (hshifting.packed place v hslot).2 q hlow (by omega) with h | ⟨rfl, -⟩
      · exact h
      · omega
    · rintro rfl
      omega
  · obtain ⟨hle, hfilled⟩ := hshifting.packed p w hp
    refine ⟨hle, fun q hlow hhigh => ?_⟩
    rcases eq_or_ne q place with rfl | hq
    · exact .inr ⟨rfl, hhigh⟩
    · left
      rw [update_of_ne hq, update_apply]
      split_ifs with hqh
      · simp
      · rcases hfilled q hlow hhigh with h | ⟨h, -⟩
        · exact h
        · exact absurd h hqh

end

lemma shiftFrom_before (hpacked : Packed key slots cut) (he : slots hole = none)
    (hle : coordinate cut place ≤ coordinate cut hole) (fuel : Nat) :
    shiftFrom key fuel slots hole place = slots := by
  induction fuel generalizing place with
  | zero => rfl
  | succ fuel ih =>
    rw [shiftFrom]
    cases hslot : slots place with
    | none => rfl
    | some v =>
      have hlt : coordinate cut place < coordinate cut hole := by
        refine Nat.lt_of_le_of_ne hle fun heq => ?_
        rw [coordinate_injective heq, he] at hslot
        cases hslot
      have hhome := (packed_iff.mp hpacked place v hslot).1
      have hhole := coordinate_lt cut hole
      have hfar : ¬distance hole place ≤ distance (home (key v)) place := by
        rw [distance_eq, distance_eq, steps_eq cut hole, steps_eq cut _ place, if_neg (by omega),
          if_pos hhome]
        omega
      dsimp only
      rw [if_neg hfar]
      refine ih ?_
      rw [coordinate_succ (by omega)]
      omega

lemma shiftFrom_spec (hfuel : n ≤ fuel + (coordinate cut place + 1))
    (hshifting : Shifting key slots cut hole (coordinate cut place + 1))
    (hkeyed : Keyed key slots) : Sound key (shiftFrom key fuel slots hole (place + 1)) ∧
      (contents (shiftFrom key fuel slots hole (place + 1))).Perm (contents slots) := by
  induction fuel generalizing slots hole place with
  | zero =>
    rw [Nat.zero_add] at hfuel
    have hround := coordinate_lt cut place
    rw [show coordinate cut place + 1 = n by omega] at hshifting
    exact ⟨⟨hkeyed, cut, hshifting.round⟩, List.Perm.refl _⟩
  | succ fuel ih =>
    rcases eq_or_ne (coordinate cut place + 1) n with hl | hl
    · have hzero := coordinate_round hl
      rw [hl] at hshifting
      rw [shiftFrom_before hshifting.round hshifting.empty (by omega)]
      exact ⟨⟨hkeyed, cut, hshifting.round⟩, List.Perm.refl _⟩
    · have hp := coordinate_lt cut place
      have hn := coordinate_succ (c := cut) (p := place) (by omega)
      rw [← hn] at hshifting
      rw [shiftFrom]
      cases hslot : slots (place + 1) with
      | none => exact ⟨⟨hkeyed, cut, hshifting.stop hslot⟩, List.Perm.refl _⟩
      | some v =>
        have hbehind := hshifting.behind
        have hhome := (hshifting.packed _ v hslot).1
        have hdistance : distance hole (place + 1) ≤ distance (home (key v)) (place + 1) ↔
            coordinate cut (home (key v)) ≤ coordinate cut hole := by
          rw [distance_eq, distance_eq, steps_eq cut hole, steps_eq cut _ (place + 1),
            if_pos (by omega), if_pos hhome]
          omega
        dsimp only
        split_ifs with hmove
        · obtain ⟨hsound, hcontents⟩ := ih (by omega)
            (hshifting.move hslot (hdistance.mp hmove)) (keyed_move hkeyed hslot)
          exact ⟨hsound, hcontents.trans (contents_move hshifting.empty hslot)⟩
        · rw [hdistance, not_le] at hmove
          exact ih (by omega) (hshifting.stay hslot hmove) hkeyed

lemma vacate_spec (hsound : Sound key slots) (hslot : slots p = some v) :
    Sound key (vacate key slots p) ∧
      (contents slots).Perm (v :: contents (vacate key slots p)) := by
  obtain ⟨cut, hpacked⟩ := hsound.packed
  have hkeyed : Keyed key (update slots p none) := by
    intro q r a b hq hr hk
    rw [update_apply] at hq hr
    split_ifs at hq hr
    exact hsound.keyed q r a b hq hr hk
  obtain ⟨hleft, hcontents⟩ := shiftFrom_spec (Nat.le_add_right n _) (Shifting.start hpacked) hkeyed
  exact ⟨hleft, (contents_clear hslot).trans (hcontents.symm.cons v)⟩

end Ferrix.Foundations.OpenAddressing
