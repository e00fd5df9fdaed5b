import Ferrix.Objects.HandleCalls

/-!
Every call on a handle table, followed over whole runs: no value is issued
twice, an ended value never resolves again, rights never grow, and a batch
is made whole or not at all.
-/

namespace Ferrix.Objects.HandleRuns

open Foundations.Allocation HandleTable HandleHistory HandleCalls List

variable {T : Type*} {t : HandleTable T}

section

variable {s : History T}

lemma get_congr {x : Handle} (hsame : ∀ obj rs, t.get x = .ok (obj, rs) ↔
      s.table.get x = .ok (obj, rs)) : t.get x = s.table.get x := by
  by_cases hopen : ∃ obj rs, t.get x = .ok (obj, rs)
  · obtain ⟨obj, rs, hg⟩ := hopen
    rw [hg, (hsame obj rs).mp hg]
  · simp only [not_exists] at hopen
    rw [get_eq_badHandle_of_forall t x hopen]
    refine (get_eq_badHandle_of_forall _ _ fun obj rs hg => ?_).symm
    exact hopen obj rs ((hsame obj rs).mpr hg)

lemma get_of_not_ended (hs : Sound s) {handles : List Handle}
    (h : Sound ⟨t, s.issued, s.ended ++ handles⟩) {y : Handle} (ho : y ∉ handles) :
    t.get y = s.table.get y := by
  refine get_congr fun obj rs => ?_
  rw [get_eq_ok_iff_issued hs]
  exact (get_eq_ok_iff_issued h y obj rs).trans (by simp [ho])

lemma removeEach_spec (handles : List Handle) : ∀ {s : History T}, Sound s → handles.Nodup →
      (∀ x ∈ handles, ∃ obj rs, s.table.get x = .ok (obj, rs)) →
      Sound ⟨(removeEach handles s.table).2, s.issued, s.ended ++ handles⟩ ∧
        (Counted s.table 0 → Counted (removeEach handles s.table).2 0) := by
  induction handles with
  | nil =>
    intro s hs _ _
    exact ⟨by simpa [removeEach] using hs, id⟩
  | cons x handles ih =>
    intro s hs hnodup hopen
    obtain ⟨hnot, hnodup⟩ := nodup_cons.mp hnodup
    obtain ⟨obj, rs, hg⟩ := hopen x (by simp)
    rcases remove_spec hs x with
      ⟨o', rs', t, hremove, -, h, -, -, hkeep⟩ | ⟨-, hbad⟩
    · obtain ⟨hr, hcounted⟩ := ih h hnodup (by
        intro y ho
        obtain ⟨obj, rs, hg⟩ := hopen y (mem_cons_of_mem _ ho)
        refine ⟨obj, rs, (get_of_not_ended hs h fun hm => hnot ?_).trans hg⟩
        rwa [← mem_singleton.mp hm])
      rw [removeEach, hremove]
      exact ⟨by simpa using hr, fun h => hcounted ((hkeep 0).2 h).zero⟩
    · simp [hg] at hbad

lemma checkEach_spec (t : HandleTable T) (needed : Rights) (handles : List Handle) :
    ∀ {earlier : List Handle}, t.checkEach needed earlier handles = .ok () →
      handles.Nodup ∧ (∀ x ∈ handles, x ∉ earlier) ∧
      ∀ x ∈ handles, ∃ obj rs, t.get x = .ok (obj, rs) := by
  induction handles with
  | nil => simp
  | cons x handles ih =>
    intro earlier hcheck
    rw [checkEach] at hcheck
    rcases hg : t.get x with e | ⟨obj, rs⟩
    · simp [getWith, hg] at hcheck
    · rcases hwith : t.getWith x needed with e | named
      · simp [hwith] at hcheck
      · simp only [hwith] at hcheck
        split at hcheck
        · simp at hcheck
        · rename_i hany
          obtain ⟨hnodup, hfresh, hopen⟩ := ih hcheck
          have hnot : x ∉ handles := by
            intro hm
            simpa using hfresh x hm
          refine ⟨nodup_cons.mpr ⟨hnot, hnodup⟩, ?_, ?_⟩
          · exact forall_mem_cons.mpr ⟨by simpa using hany,
              fun y ho hm => hfresh y ho (mem_append_left _ hm)⟩
          · exact forall_mem_cons.mpr ⟨⟨obj, rs, hg⟩, hopen⟩

lemma takeEach_spec (n : Nat) (handles : List Handle) :
    ∀ {s : History T} (taken : List (T × Rights)), Sound s → handles.Nodup →
      (∀ x ∈ handles, ∃ obj rs, s.table.get x = .ok (obj, rs)) →
      taken.length + handles.length ≤ n →
      ∃ entries t, takeEach n handles s.table taken = (.ok (taken ++ entries), t) ∧
        handles.map s.table.get = entries.map .ok ∧
        Sound ⟨t, s.issued, s.ended ++ handles⟩ ∧ (Counted s.table 0 → Counted t 0) := by
  induction handles with
  | nil =>
    intro s taken hs _ _ _
    exact ⟨[], s.table, by simp [takeEach], rfl, by simpa using hs, id⟩
  | cons x handles ih =>
    intro s taken hs hnodup hopen hcapacity
    obtain ⟨hnot, hnodup⟩ := nodup_cons.mp hnodup
    obtain ⟨obj, rs, hg⟩ := hopen x (by simp)
    rcases remove_spec hs x with
      ⟨o', rs', t, hremove, hg', h, -, -, hkeep⟩ | ⟨-, hbad⟩
    · rw [length_cons] at hcapacity
      have ho : ∀ y ∈ handles, t.get y = s.table.get y := by
        intro y ho
        refine get_of_not_ended hs h fun hm => hnot ?_
        rwa [← mem_singleton.mp hm]
      obtain ⟨entries, t', htake, hentries, hr, hcounted⟩ := ih (taken ++ [(o', rs')])
        h hnodup (fun y hm => by
          rw [ho y hm]
          exact hopen y (mem_cons_of_mem _ hm))
        (by rw [length_append, length_singleton]; omega)
      refine ⟨(o', rs') :: entries, t', ?_, ?_, by simpa using hr,
        fun h => hcounted ((hkeep 0).2 h).zero⟩
      · rw [takeEach, hremove]
        dsimp only
        rw [if_pos (by omega)]
        simpa using htake
      · rw [map_cons, hg', map_cons, ← hentries]
        exact congrArg _ (map_congr_left fun y hm => (ho y hm).symm)
    · simp [hg] at hbad

lemma takeMany_spec (hs : Sound s) (m : Memory) (handles : List Handle) (needed : Rights) :
    (∃ entries t, s.table.takeMany m handles needed = (.ok entries, t) ∧
      handles.map s.table.get = entries.map .ok ∧ handles.Nodup ∧
      Sound ⟨t, s.issued, s.ended ++ handles⟩ ∧ (Counted s.table 0 → Counted t 0)) ∨
    ∃ e, s.table.takeMany m handles needed = (.error e, s.table) := by
  rw [takeMany]
  rcases hcheck : s.table.checkEach needed [] handles with e | v
  · exact .inr ⟨e, rfl⟩
  · cases v
    rcases hlist : tryReserve m.list 0 0 handles.length with _ | n
    · exact .inr ⟨_, rfl⟩
    · obtain ⟨hnodup, -, hopen⟩ := checkEach_spec s.table needed handles hcheck
      have hcapacity := (le_of_tryReserve (Nat.le_refl 0) hlist).1
      obtain ⟨entries, t, htake, hentries, hr⟩ :=
        takeEach_spec n handles [] hs hnodup hopen (by simpa using hcapacity)
      exact .inl ⟨entries, t, htake, hentries, hnodup, hr⟩

/-- The record of a batch: each handle with the object and the rights it was
issued for. -/
def issues (handles : List Handle) (objects : List (T × Rights)) : List (Issue T) :=
  List.zipWith (fun handle object => ⟨handle, object.1, object.2⟩) handles objects

lemma insertEach_spec (m : Memory) (n : Nat) (objects : List (T × Rights)) :
    ∀ {s : History T} (handles : List Handle), Sound s →
      (objects ≠ [] → s.table.closed = false) → objects.length ≤ spare s.table →
      Ready s.table objects.length → handles.length + objects.length ≤ n →
      ∃ fresh t, insertEach m n objects s.table handles =
          (handles ++ fresh, t) ∧ fresh.length = objects.length ∧
        Sound ⟨t, s.issued ++ issues fresh objects, s.ended⟩ ∧
        (Counted s.table objects.length → Counted t 0) := by
  induction objects with
  | nil =>
    intro s handles hs _ _ _ _
    exact ⟨[], s.table, by simp [insertEach], rfl, by simpa [issues] using hs, id⟩
  | cons e objects ih =>
    intro s handles hs hopen hspare hready hcapacity
    obtain ⟨obj, rs⟩ := e
    rw [length_cons] at hspare hready hcapacity
    rcases insertWithRoom_spec hs (hopen (by simp)) (by omega) m obj rs with
      ⟨x, t, hinsert, h, -, hclosed, hless, hkeep⟩ | ⟨t, -, -, hnot⟩
    · obtain ⟨fresh, t', hr, hlen, h', hcounted⟩ := ih (handles ++ [x])
        h (fun _ => hclosed) (by dsimp only; omega) ((hkeep _).1 hready)
        (by rw [length_append, length_singleton]; omega)
      refine ⟨x :: fresh, t', ?_, by simp [hlen], by simpa [issues] using h',
        fun h => hcounted ((hkeep _).2 h)⟩
      rw [insertEach, hinsert]
      dsimp only
      rw [if_pos (by omega)]
      simpa using hr
    · have hone : Ready s.table 1 := by
        obtain ⟨hslots, hf⟩ := hready
        exact ⟨by omega, by omega⟩
      exact absurd hone hnot

lemma insertMany_spec (hs : Sound s) (m : Memory) (objects : List (T × Rights)) :
    (∃ handles t, s.table.insertMany m objects = (.ok handles, t) ∧
      handles.length = objects.length ∧
      Sound ⟨t, s.issued ++ issues handles objects, s.ended⟩ ∧
      (Counted s.table 0 → Counted t 0)) ∨
    ∃ error t, s.table.insertMany m objects = (.error (error, objects), t) ∧ Grown s.table t := by
  rw [insertMany]
  by_cases hroom : objects.length > s.table.room
  · rw [if_pos hroom]
    exact .inr ⟨_, s.table, rfl, .refl _⟩
  · rw [if_neg hroom]
    obtain ⟨r, t, hreserve, hgrown, hready, -⟩ := reserve_spec hs m objects.length
    have h := sound_of_grown hs hgrown
    rw [hreserve]
    cases r with
    | error error => exact .inr ⟨_, t, rfl, hgrown⟩
    | ok v =>
      cases v
      rcases hlist : tryReserve m.list 0 0 objects.length with _ | n
      · exact .inr ⟨_, t, rfl, hgrown⟩
      · have hcapacity := (le_of_tryReserve (Nat.le_refl 0) hlist).1
        have hroomy : objects ≠ [] → s.table.closed = false ∧ s.table.room ≤ spare s.table := by
          intro hne
          apply spare_pos_of_room
          have := length_pos_iff.mpr hne
          omega
        have hspare : objects.length ≤ spare t := by
          rw [spare, hgrown.slots, hgrown.free]
          rcases objects with _ | ⟨e, objects⟩
          · simp
          · have := (hroomy (by simp)).2
            rw [spare] at this
            omega
        obtain ⟨fresh, t', hinsert, hlen, h', hcounted⟩ :=
          insertEach_spec m n objects [] h
            (fun hne => hgrown.closed.trans (hroomy hne).1) hspare (hready rfl)
            (by simpa using hcapacity)
        dsimp only at hinsert ⊢
        rw [hinsert]
        exact .inl ⟨fresh, t', rfl, hlen, h',
          fun h => hcounted (hgrown.counted (h.of_room (not_lt.mp hroom)))⟩

/-- The open handles of a table are exactly the values that resolve. -/
theorem mem_handles_iff (hs : Sound s) (x : Handle) : x ∈ s.table.handles.map Prod.fst ↔
      ∃ obj rs, s.table.get x = .ok (obj, rs) := by
  simp only [HandleTable.handles, mem_map, mem_filterMap]
  constructor
  · rintro ⟨⟨listed, rs⟩, ⟨⟨slot, i⟩, hm, hslot⟩, rfl⟩
    have hg := mk_mem_zipIdx_iff_getElem?.mp hm
    cases slot with
    | occupied g held obj =>
      simp only [Option.some.injEq, Prod.mk.injEq] at hslot
      have hi := hs.index_lt hg
      refine ⟨obj, held, ?_⟩
      rw [get_eq_ok_iff]
      change s.table.slots[(decode listed).1]? = _
      rw [← hslot.1, mod_of_lt hi, decode_encode hi (hs.range _ _ _ hg rfl).2]
      exact hg
    | vacant g => simp at hslot
    | retired => simp at hslot
  · rintro ⟨obj, rs, hg⟩
    rw [get_eq_ok_iff] at hg
    have hi := hs.index_lt hg
    refine ⟨(x, rs), ⟨(_, (decode x).1), mk_mem_zipIdx_iff_getElem?.mpr hg, ?_⟩, rfl⟩
    simp only [Option.some.injEq, Prod.mk.injEq, and_true]
    rw [mod_of_lt hi, encode_decode hi]

lemma handles_nodup (hs : Sound s) : (s.table.handles.map Prod.fst).Nodup := by
  rw [List.Nodup, pairwise_map, HandleTable.handles, pairwise_filterMap, pairwise_iff_getElem]
  intro i j hi hj hij p hp q hq heq
  rw [getElem_zipIdx] at hp hq
  have hr : ∀ (k : Nat) (hk : k < s.table.slots.length) (slot : Slot T),
      s.table.slots[k] = slot → s.table.slots[k]? = some slot := by
    intro k hk slot hslot
    rw [List.getElem?_eq_getElem hk, hslot]
  have hi' : i < s.table.slots.length := by simpa using hi
  have hj' : j < s.table.slots.length := by simpa using hj
  rcases hslotI : s.table.slots[i] with ⟨g, r, obj⟩ | g | _ <;> rw [hslotI] at hp <;>
    simp only [Option.some.injEq, reduceCtorEq] at hp
  rcases hslotJ : s.table.slots[j] with ⟨g', r', o'⟩ | g' | _ <;> rw [hslotJ] at hq <;>
    simp only [Option.some.injEq, reduceCtorEq] at hq
  subst hp hq
  have hslotI := hr i hi' _ hslotI
  have hslotJ := hr j hj' _ hslotJ
  have hindexI := hs.index_lt hslotI
  have hindexJ := hs.index_lt hslotJ
  rw [Nat.zero_add, Nat.zero_add, mod_of_lt hindexI, mod_of_lt hindexJ] at heq
  have hdecode := congrArg decode heq
  rw [decode_encode hindexI (hs.range _ _ _ hslotI rfl).2,
    decode_encode hindexJ (hs.range _ _ _ hslotJ rfl).2, Prod.mk.injEq] at hdecode
  omega

lemma close_sound (hs : Sound s) :
    Sound ⟨s.table.close.2, s.issued, s.ended ++ s.table.handles.map Prod.fst⟩ := by
  constructor
  case issued_live =>
    intro p hissued
    left
    rcases hs.issued_live p hissued with hended | hslot
    · exact mem_append_left _ hended
    · apply mem_append_right
      rw [mem_handles_iff hs]
      exact ⟨p.object, p.rights, (get_eq_ok_iff _ _ _ _).mpr hslot⟩
  case ended_issued =>
    refine forall_mem_append.mpr ⟨hs.ended_issued, fun x hended => ?_⟩
    obtain ⟨obj, rs, hg⟩ := (mem_handles_iff hs x).mp hended
    exact ⟨_, ((get_eq_ok_iff_issued hs x obj rs).mp hg).1, rfl⟩
  case issued_nodup => exact hs.issued_nodup
  case issued_lt => exact hs.issued_lt
  case toFits => constructor <;> simp [HandleTable.close]
  all_goals simp [HandleTable.close]

end

inductive Call (T : Type*) where
  | insert (object : T) (rights : Rights)
  | remove (handle : Handle)
  | duplicate (handle : Handle) (requested : Requested)
  | replace (handle : Handle) (requested : Requested)
  | takeMany (handles : List Handle) (needed : Rights)
  | insertMany (objects : List (T × Rights))
  | clear
  | close

/-- The values a call handed out, read off the table it was made on. -/
def issuedBy (clone : T → T) (memory : Memory) (t : HandleTable T) :
    Call T → List (Issue T)
  | .insert object rights =>
    match (t.insert memory object rights).1 with
    | .ok handle => [⟨handle, object, rights⟩]
    | .error _ => []
  | .duplicate handle requested =>
    match t.get handle, (t.duplicate clone memory handle requested).1 with
    | .ok (object, held), .ok copy =>
      [⟨copy, clone object, (requested.resolve held).getD Rights.none⟩]
    | _, _ => []
  | .replace handle requested =>
    match t.get handle, (t.replace memory handle requested).1 with
    | .ok (object, held), .ok fresh =>
      [⟨fresh, object, (requested.resolve held).getD Rights.none⟩]
    | _, _ => []
  | .insertMany objects =>
    match (t.insertMany memory objects).1 with
    | .ok handles => issues handles objects
    | .error _ => []
  | _ => []

/-- The values a call took away, read off the table it was made on. -/
def endedBy (memory : Memory) (t : HandleTable T) : Call T → List Handle
  | .remove handle =>
    match (t.remove handle).1 with
    | .ok _ => [handle]
    | .error _ => []
  | .replace handle requested =>
    match (t.replace memory handle requested).1 with
    | .ok _ => [handle]
    | .error _ => []
  | .takeMany handles needed =>
    match (t.takeMany memory handles needed).1 with
    | .ok _ => handles
    | .error _ => []
  | .clear => t.handles.map Prod.fst
  | .close => t.handles.map Prod.fst
  | _ => []

def after (clone : T → T) (memory : Memory) (t : HandleTable T) : Call T → HandleTable T
  | .insert object rights => (t.insert memory object rights).2
  | .remove handle => (t.remove handle).2
  | .duplicate handle requested => (t.duplicate clone memory handle requested).2
  | .replace handle requested => (t.replace memory handle requested).2
  | .takeMany handles needed => (t.takeMany memory handles needed).2
  | .insertMany objects => (t.insertMany memory objects).2
  | .clear => t.clear.2
  | .close => t.close.2

def step (clone : T → T) (s : History T) (call : Memory × Call T) : History T where
  table := after clone call.1 s.table call.2
  issued := s.issued ++ issuedBy clone call.1 s.table call.2
  ended := s.ended ++ endedBy call.1 s.table call.2

/-- A run of calls on a fresh table, each with its own luck with memory. -/
def run (clone : T → T) (limit : Nat) (calls : List (Memory × Call T)) : History T :=
  calls.foldl (step clone) ⟨HandleTable.new limit, [], []⟩

lemma sound_new (limit : Nat) : Sound (⟨HandleTable.new limit, [], []⟩ : History T) := by
  constructor
  · constructor <;> simp [HandleTable.new]
  all_goals simp [HandleTable.new]

lemma sound_step (clone : T → T) {s : History T} (hs : Sound s) (call : Memory × Call T) :
    Sound (step clone s call) ∧ (Counted s.table 0 → Counted (step clone s call).table 0) := by
  obtain ⟨m, call⟩ := call
  have hsame : ∀ {t : HandleTable T}, Grown s.table t →
      Sound ⟨t, s.issued, s.ended⟩ ∧ (Counted s.table 0 → Counted t 0) :=
    fun hgrown => ⟨sound_of_grown hs hgrown, hgrown.counted⟩
  cases call with
  | insert obj rs =>
    rcases insert_spec hs m obj rs with
      ⟨x, t, hinsert, h, -, hcounted⟩ | ⟨t, hinsert, hgrown⟩
    · simpa [step, after, issuedBy, endedBy, hinsert] using And.intro h hcounted
    · simpa [step, after, issuedBy, endedBy, hinsert] using hsame hgrown
  | remove x =>
    rcases remove_spec hs x with
      ⟨obj, rs, t, hremove, -, h, -, -, hkeep⟩ | ⟨hremove, -⟩
    · simpa [step, after, issuedBy, endedBy, hremove] using
        And.intro h fun h => ((hkeep 0).2 h).zero
    · simpa [step, after, issuedBy, endedBy, hremove] using hs
  | duplicate x requested =>
    rcases duplicate_spec hs clone m x requested with
      ⟨obj, held, rs, copy, t, hduplicate, hg, -, hresolve, h, -, hcounted⟩ |
        ⟨error, t, hduplicate, hgrown⟩
    · simpa [step, after, issuedBy, endedBy, hduplicate, hg, hresolve] using And.intro h hcounted
    · simpa [step, after, issuedBy, endedBy, hduplicate] using hsame hgrown
  | replace x requested =>
    rcases replace_spec hs m x requested with
      ⟨obj, held, rs, fresh, t, hreplace, hg, hresolve, h, -, hcounted⟩ |
        ⟨error, t, hreplace, hgrown⟩
    · simpa [step, after, issuedBy, endedBy, hreplace, hg, hresolve] using And.intro h hcounted
    · simpa [step, after, issuedBy, endedBy, hreplace] using hsame hgrown
  | takeMany handles needed =>
    rcases takeMany_spec hs m handles needed with
      ⟨entries, t, htake, -, -, h⟩ | ⟨error, htake⟩
    · simpa [step, after, issuedBy, endedBy, htake] using h
    · simpa [step, after, issuedBy, endedBy, htake] using hs
  | insertMany objects =>
    rcases insertMany_spec hs m objects with
      ⟨handles, t, hinsert, -, h⟩ | ⟨error, t, hinsert, hgrown⟩
    · simpa [step, after, issuedBy, endedBy, hinsert] using h
    · simpa [step, after, issuedBy, endedBy, hinsert] using hsame hgrown
  | clear =>
    simpa [step, after, issuedBy, endedBy, clear] using
      removeEach_spec _ hs (handles_nodup hs) fun x hm => (mem_handles_iff hs x).mp hm
  | close =>
    refine ⟨by simpa [step, after, issuedBy, endedBy] using close_sound hs, fun _ => ?_⟩
    exact ⟨rfl, Nat.zero_le _, nofun⟩

lemma run_spec (clone : T → T) (limit : Nat) (calls : List (Memory × Call T)) :
    Sound (run clone limit calls) ∧ Counted (run clone limit calls).table 0 :=
  List.foldlRecOn (motive := fun s => Sound s ∧ Counted s.table 0) calls (step clone)
    ⟨sound_new limit, rfl, Nat.zero_le _, nofun⟩
    fun _ h c _ => (sound_step clone h.1 c).imp_right (· h.2)

lemma ended_subset_foldl (clone : T → T) (calls : List (Memory × Call T)) :
    ∀ s : History T, s.ended ⊆ (calls.foldl (step clone) s).ended := by
  induction calls with
  | nil => exact fun s => List.Subset.refl s.ended
  | cons c calls ih =>
    intro s x hm
    exact ih (step clone s c) (mem_append_left _ hm)

/-- Over every run of calls on a handle table, whatever memory does: a value
is issued at most once and fits 31 bits; once ended it never resolves again;
until then it resolves to exactly what it was issued for, and nothing else
resolves; and a handle made from another carries no right the other lacks. -/
theorem handles_unique_and_rights_shrink (clone : T → T) (limit : Nat)
    (calls : List (Memory × Call T)) : ((run clone limit calls).issued.map Issue.handle).Nodup ∧
    (∀ p ∈ (run clone limit calls).issued, p.handle.value < 2 ^ 31) ∧
    (∀ earlier later, calls = earlier ++ later → ∀ handle ∈ (run clone limit earlier).ended,
        (run clone limit calls).table.get handle = .error .badHandle) ∧
    (∀ p ∈ (run clone limit calls).issued, p.handle ∉ (run clone limit calls).ended →
      (run clone limit calls).table.get p.handle = .ok (p.object, p.rights)) ∧
    (∀ handle object rights, (run clone limit calls).table.get handle = .ok (object, rights) →
        ⟨handle, object, rights⟩ ∈ (run clone limit calls).issued ∧
          handle ∉ (run clone limit calls).ended) ∧ (∀ memory handle requested copy t,
      (run clone limit calls).table.duplicate clone memory handle requested = (.ok copy, t) →
        ∃ object held rights, (run clone limit calls).table.get handle = .ok (object, held) ∧
          held.contains Rights.duplicate = true ∧
          t.get copy = .ok (clone object, rights) ∧ held.contains rights = true) ∧
    (∀ memory handle requested fresh t,
      (run clone limit calls).table.replace memory handle requested = (.ok fresh, t) →
        ∃ object held rights, (run clone limit calls).table.get handle = .ok (object, held) ∧
          t.get fresh = .ok (object, rights) ∧ held.contains rights = true) := by
  have hs := (run_spec clone limit calls).1
  refine ⟨hs.issued_nodup, hs.issued_lt, ?_, ?_, ?_, ?_, ?_⟩
  · rintro earlier later rfl handle hended
    refine get_eq_badHandle_of_ended hs ?_
    rw [run, foldl_append]
    exact ended_subset_foldl clone later _ hended
  · intro p hissued hlive
    exact (get_eq_ok_iff_issued hs _ _ _).mpr ⟨hissued, hlive⟩
  · intro handle object rights hget
    exact (get_eq_ok_iff_issued hs _ _ _).mp hget
  · intro memory handle requested copy t hduplicate
    rcases duplicate_spec hs clone memory handle requested with
      ⟨object, held, rights, copy', t', hcall, hget, hright, hresolve, -, hcopy, -⟩ |
        ⟨error, t', hcall, -⟩
    · rw [hduplicate, Prod.mk.injEq, Except.ok.injEq] at hcall
      obtain ⟨rfl, rfl⟩ := hcall
      exact ⟨object, held, rights, hget, hright, hcopy, resolve_contains hresolve⟩
    · rw [hduplicate] at hcall
      simp at hcall
  · intro memory handle requested fresh t hreplace
    rcases replace_spec hs memory handle requested with
      ⟨object, held, rights, fresh', t', hcall, hget, hresolve, -, hfresh, -⟩ |
        ⟨error, t', hcall, -⟩
    · rw [hreplace, Prod.mk.injEq, Except.ok.injEq] at hcall
      obtain ⟨rfl, rfl⟩ := hcall
      exact ⟨object, held, rights, hget, hfresh, resolve_contains hresolve⟩
    · rw [hreplace] at hcall
      simp at hcall

variable {s : History T} {handles : List Handle} {objects : List (T × Rights)}

lemma map_handle_issues (hlen : handles.length = objects.length) :
    (issues handles objects).map Issue.handle = handles := by
  induction handles generalizing objects with
  | nil => rfl
  | cons x handles ih =>
    obtain ⟨obj, objects, rfl⟩ := exists_cons_of_length_eq_add_one hlen.symm
    exact congrArg _ (ih (Nat.succ.inj hlen))

lemma map_get_issues (hlen : handles.length = objects.length)
    (hg : ∀ p ∈ issues handles objects, t.get p.handle = .ok (p.object, p.rights)) :
    handles.map t.get = objects.map .ok := by
  induction handles generalizing objects with
  | nil => rw [length_eq_zero_iff.mp hlen.symm, map_nil, map_nil]
  | cons x handles ih =>
    obtain ⟨obj, objects, rfl⟩ := exists_cons_of_length_eq_add_one hlen.symm
    obtain ⟨hhead, hr⟩ := forall_mem_cons.mp hg
    exact congrArg₂ _ hhead (ih (Nat.succ.inj hlen) hr)

lemma get_issued (hs : Sound s) {fresh : List (Issue T)}
    (h : Sound ⟨t, s.issued ++ fresh, s.ended⟩) :
    (∀ p ∈ fresh, t.get p.handle = .ok (p.object, p.rights)) ∧
      ∀ x ∉ fresh.map Issue.handle, t.get x = s.table.get x := by
  refine ⟨fun p hp => ?_, fun x hnot => get_congr fun obj rs => ?_⟩
  · refine (get_eq_ok_iff_issued h _ _ _).mpr ⟨mem_append_right _ hp, fun hended => ?_⟩
    obtain ⟨q, hq, hsame⟩ := hs.ended_issued _ hended
    have hnodup := h.issued_nodup
    rw [map_append, nodup_append] at hnodup
    exact hnodup.2.2 _ (mem_map_of_mem hq) _ (mem_map_of_mem hp) hsame
  · rw [get_eq_ok_iff_issued hs]
    refine (get_eq_ok_iff_issued h x obj rs).trans (and_congr_left' ?_)
    exact mem_append.trans (or_iff_left fun hm => hnot (mem_map_of_mem hm))

/-- What the batch calls do to a table, and what its counts say. -/
structure AllOrNothing (clone : T → T) (t : HandleTable T) : Prop where
  takeMany : ∀ memory handles needed,
    (∃ entries t', t.takeMany memory handles needed = (.ok entries, t') ∧ handles.Nodup ∧
      handles.map t.get = entries.map .ok ∧
      (∀ handle ∈ handles, t'.get handle = .error .badHandle) ∧
      ∀ handle ∉ handles, t'.get handle = t.get handle) ∨
    ∃ error, t.takeMany memory handles needed = (.error error, t)
  insertMany : ∀ memory objects,
    (∃ handles t', t.insertMany memory objects = (.ok handles, t') ∧ handles.Nodup ∧
      handles.map t'.get = objects.map .ok ∧ ∀ handle ∉ handles, t'.get handle = t.get handle) ∨
    ∃ error t', t.insertMany memory objects = (.error (error, objects), t') ∧ Grown t t'
  replace : ∀ memory handle requested,
    (∃ fresh t', t.replace memory handle requested = (.ok fresh, t')) ∨
    ∃ error t', t.replace memory handle requested = (.error error, t') ∧ Grown t t'
  duplicate : ∀ memory handle requested,
    (∃ copy t', t.duplicate clone memory handle requested = (.ok copy, t')) ∨
    ∃ error t', t.duplicate clone memory handle requested = (.error error, t') ∧ Grown t t'
  live : t.live = t.slots.countP isOccupied
  limited : t.live ≤ t.limit
  free : t.free.Nodup ∧ ∀ i, i ∈ t.free ↔ ∃ g, t.slots[i]? = some (.vacant g)

/-- After every run of calls, whatever memory does. -/
theorem batches_all_or_nothing (clone : T → T) (limit : Nat) (calls : List (Memory × Call T)) :
    AllOrNothing clone (run clone limit calls).table := by
  obtain ⟨hs, hcounted⟩ := run_spec clone limit calls
  constructor
  · intro memory handles needed
    refine (takeMany_spec hs memory handles needed).imp_left ?_
    rintro ⟨entries, t', htake, hentries, hnodup, hsound, -⟩
    refine ⟨entries, t', htake, hnodup, hentries, ?_, fun _ => get_of_not_ended hs hsound⟩
    exact fun _ hmem => get_eq_badHandle_of_ended hsound (mem_append_right _ hmem)
  · intro memory objects
    refine (insertMany_spec hs memory objects).imp_left ?_
    rintro ⟨handles, t', hinsert, hlen, hsound, -⟩
    obtain ⟨hfresh, hother⟩ := get_issued hs hsound
    have hnodup := hsound.issued_nodup
    rw [map_append, nodup_append, map_handle_issues hlen] at hnodup
    rw [map_handle_issues hlen] at hother
    exact ⟨handles, t', hinsert, hnodup.2.1, map_get_issues hlen hfresh, hother⟩
  · intro memory handle requested
    refine (replace_spec hs memory handle requested).imp_left ?_
    rintro ⟨_, _, _, fresh, t', hreplace, -⟩
    exact ⟨fresh, t', hreplace⟩
  · intro memory handle requested
    refine (duplicate_spec hs clone memory handle requested).imp_left ?_
    rintro ⟨_, _, _, copy, t', hduplicate, -⟩
    exact ⟨copy, t', hduplicate⟩
  · exact hcounted.live
  · exact hcounted.limited
  · refine ⟨hs.free_nodup, fun i => ⟨hs.free_vacant i, ?_⟩⟩
    rintro ⟨g, hslot⟩
    exact hcounted.vacant i g hslot

end Ferrix.Objects.HandleRuns
