import Ferrix.Objects.HandleHistory

namespace Ferrix.Objects.HandleCalls

open Foundations.Allocation HandleTable HandleHistory List

variable {T : Type*} {s : History T} {t : HandleTable T} {n : Nat} {x : Handle} {obj : T}

structure Grown (t t' : HandleTable T) : Prop where
  slots : t'.slots = t.slots
  free : t'.free = t.free
  live : t'.live = t.live
  limit : t'.limit = t.limit
  closed : t'.closed = t.closed
  slotRoom : t.slotCapacity ≤ t'.slotCapacity
  freeRoom : t.freeCapacity ≤ t'.freeCapacity

lemma Grown.refl (t : HandleTable T) : Grown t t := ⟨rfl, rfl, rfl, rfl, rfl, le_rfl, le_rfl⟩

lemma sound_of_grown (hs : Sound s) (hgrown : Grown s.table t) :
    Sound ⟨t, s.issued, s.ended⟩ := by
  obtain ⟨⟨slots, slotCapacity, free, freeCapacity, live, L, closed⟩, issued, ended⟩ := s
  obtain ⟨slots', slotCapacity', free', freeCapacity', live', L', closed'⟩ := t
  obtain ⟨rfl, rfl, rfl, rfl, rfl, hslotRoom, hfreeRoom⟩ := hgrown
  exact { hs with
    slot_capacity := hs.slot_capacity.trans hslotRoom
    free_capacity := hs.free_capacity.trans hfreeRoom }

def isOccupied : Slot T → Bool
  | .occupied _ _ _ => true
  | .vacant _ | .retired => false

/-- The live handles are the occupied slots, `n` more are within the limit, and the vacant slots
are queued. -/
structure Counted (t : HandleTable T) (n : Nat) : Prop where
  live : t.live = t.slots.countP isOccupied
  limited : t.live + n ≤ t.limit
  vacant : ∀ i g, t.slots[i]? = some (.vacant g) → i ∈ t.free

lemma Counted.zero (hcounted : Counted t n) : Counted t 0 :=
  { hcounted with limited := Nat.le_of_add_right_le hcounted.limited }

lemma Grown.counted {t' : HandleTable T} (hgrown : Grown t t')
    (hcounted : Counted t n) : Counted t' n := by
  obtain ⟨hslots, hf, hlive, hL, -, -, -⟩ := hgrown
  constructor
  · rw [hlive, hslots]
    exact hcounted.live
  · rw [hlive, hL]
    exact hcounted.limited
  · rw [hslots, hf]
    exact hcounted.vacant

lemma counted_set {m i live : Nat} {free : List Nat} {old new : Slot T}
    (hold : t.slots[i]? = some old)
    (hlive : (isOccupied old).toNat ≤ t.live →
      live + (isOccupied old).toNat = t.live + (isOccupied new).toNat)
    (hmore : m + (isOccupied new).toNat = n + (isOccupied old).toNat)
    (hnew : ∀ g, new = .vacant g → i ∈ free) (hf : ∀ j ∈ t.free, j ≠ i → j ∈ free)
    (hcounted : Counted t n) :
    Counted { t with slots := t.slots.set i new, free, live } m := by
  obtain ⟨hlt, rfl⟩ := List.getElem?_eq_some_iff.mp hold
  obtain ⟨hsame, hL, hvacant⟩ := hcounted
  have hle := boole_getElem_le_countP (p := isOccupied) hlt
  simp only [Bool.toNat, Bool.cond_eq_ite] at hlive hmore
  refine ⟨?_, ?_, fun j g hj => ?_⟩
  · change live = (t.slots.set i new).countP isOccupied
    rw [countP_set hlt]
    split_ifs at hlive hle ⊢ <;> omega
  · change live + m ≤ t.limit
    split_ifs at hlive hle hmore <;> omega
  · change (t.slots.set i new)[j]? = _ at hj
    rw [List.getElem?_set] at hj
    split_ifs at hj with hij
    · exact hij ▸ hnew g (Option.some.inj hj)
    · exact hf j (hvacant j g hj) (Ne.symm hij)

lemma free_length_le (hs : Sound s) : s.table.free.length ≤ s.table.slots.length := by
  have hsubset : s.table.free ⊆ List.range s.table.slots.length := by
    intro i hi
    obtain ⟨g, hslot⟩ := hs.free_vacant i hi
    exact mem_range.mpr (List.getElem?_eq_some_iff.mp hslot).1
  simpa using (subperm_of_subset hs.free_nodup hsubset).length_le

def Ready (t : HandleTable T) (count : Nat) : Prop :=
  t.slots.length + (count - t.free.length) ≤ t.slotCapacity ∧
    t.slots.length + (count - t.free.length) ≤ t.freeCapacity

lemma reserve_spec (hs : Sound s) (m : Memory) (count : Nat) :
    ∃ r t, s.table.reserve m count = (r, t) ∧ Grown s.table t ∧ (r = .ok () → Ready t count) ∧
      (Ready s.table count → r = .ok ()) := by
  obtain ⟨table, issued, ended⟩ := s
  have hslots : table.slots.length ≤ table.slotCapacity := hs.slot_capacity
  have hf : table.slots.length ≤ table.freeCapacity := hs.free_capacity
  have hle : table.free.length ≤ table.slots.length := free_length_le hs
  dsimp only
  rcases hslot : tryReserve m.slots table.slots.length table.slotCapacity
      (count - table.free.length) with _ | slotCapacity
  · refine ⟨.error .noMemory, table, by simp only [HandleTable.reserve, hslot], .refl table,
      by simp, ?_⟩
    intro hready
    rw [tryReserve_of_le _ (by have := hready.1; omega)] at hslot
    simp at hslot
  · have hslotGot := le_of_tryReserve hslots hslot
    rcases hdeque : tryReserve m.free table.free.length table.freeCapacity
        (table.slots.length + (count - table.free.length) - table.free.length)
        with _ | freeCapacity
    · refine ⟨.error .noMemory, { table with slotCapacity := slotCapacity },
        by simp only [HandleTable.reserve, hslot, hdeque],
        { Grown.refl table with slotRoom := hslotGot.2 }, by simp, ?_⟩
      intro hready
      rw [tryReserve_of_le _ (by have := hready.2; omega)] at hdeque
      simp at hdeque
    · have hfreeGot := le_of_tryReserve (hle.trans hf) hdeque
      refine ⟨.ok (), { table with slotCapacity := slotCapacity, freeCapacity := freeCapacity },
        by simp only [HandleTable.reserve, hslot, hdeque],
        { Grown.refl table with slotRoom := hslotGot.2, freeRoom := hfreeGot.2 }, ?_,
        fun _ => rfl⟩
      intro _
      exact ⟨hslotGot.1, by dsimp only; omega⟩

def spare (t : HandleTable T) : Nat :=
  t.free.length + (maxSlots - t.slots.length)

lemma spare_pos_of_room (hroom : t.room ≠ 0) : t.closed = false ∧ t.room ≤ spare t := by
  rw [HandleTable.room] at hroom ⊢
  split at hroom
  · simp at hroom
  · rename_i hclosed
    simp only [Bool.not_eq_true] at hclosed
    rw [if_neg (by simp [hclosed])]
    exact ⟨hclosed, Nat.min_le_right _ _⟩

lemma Counted.of_room (hcounted : Counted t 0) (hroom : n ≤ t.room) : Counted t n := by
  have hL := hcounted.limited
  refine { hcounted with limited := ?_ }
  rw [HandleTable.room] at hroom
  split_ifs at hroom <;> omega

lemma insertWithRoom_spec (hs : Sound s) (hopen : s.table.closed = false)
    (hspare : 0 < spare s.table) (m : Memory) (obj : T) (rs : Rights) :
    (∃ x t, s.table.insertWithRoom m obj rs = (.ok x, t) ∧
      Sound ⟨t, s.issued ++ [⟨x, obj, rs⟩], s.ended⟩ ∧
      t.get x = .ok (obj, rs) ∧ t.closed = false ∧
      spare t + 1 = spare s.table ∧ ∀ n, (Ready s.table (n + 1) → Ready t n) ∧
        (Counted s.table (n + 1) → Counted t n)) ∨
    ∃ t, s.table.insertWithRoom m obj rs = (.error obj, t) ∧ Grown s.table t ∧
      ¬ Ready s.table 1 := by
  obtain ⟨table, issued, ended⟩ := s
  -- With no free slot a new one is appended, if the memory for it can be had.
  rcases hf : table.free with _ | ⟨index, free⟩
  · obtain ⟨result, t, hreserve, hgrown, hready, hresult⟩ := reserve_spec hs m 1
    have hslots : t.slots = table.slots := hgrown.slots
    have hsame : t.free = table.free := hgrown.free
    have hclosed : t.closed = table.closed := hgrown.closed
    dsimp only at hreserve hopen hresult
    simp only [HandleTable.insertWithRoom, hf, HandleTable.insertFresh, hreserve]
    cases result with
    | error error =>
      refine .inr ⟨t, rfl, hgrown, ?_⟩
      intro hone
      simpa using hresult hone
    | ok value =>
      left
      obtain ⟨hslotGot, hfreeGot⟩ := hready rfl
      have hlen : table.slots.length < maxSlots := by
        simpa [spare, hf] using hspare
      have hword : t.slots.length % 2 ^ 32 = table.slots.length := by
        rw [hslots, mod_of_lt hlen]
      have hself : (t.slots ++ [Slot.occupied 1 rs obj])[table.slots.length]? =
          some (.occupied 1 rs obj) := by
        rw [hslots]
        simp
      have hone : 1 ≤ maxGeneration := by decide
      have hlength : (t.slots ++ [Slot.occupied 1 rs obj]).length =
          t.slots.length + (1 - t.free.length) := by
        simp [hsame, hf]
      refine ⟨_, _, rfl, ?_, ?_, hclosed.trans hopen, ?_, ?_⟩
      · rw [hword]
        refine hs.issue hlen ⟨Nat.le_refl 1, hone⟩ hopen (hclosed.trans hopen) ?_
          ⟨?_, hlength ▸ hslotGot, hlength ▸ hfreeGot⟩ ⟨hself, ?_⟩ ?_ ?_
        · intro slot hslot
          simp at hslot
        · simp only [length_append, length_singleton, hslots]
          exact hlen
        · intro j hj
          rw [hslots, List.getElem?_append]
          split
          · rfl
          · have hnone : table.slots[j]? = none := List.getElem?_eq_none (by omega)
            rw [hnone]
            exact List.getElem?_eq_none (by simp only [length_singleton]; omega)
        · change t.free.Sublist table.free
          rw [hsame]
        · change table.slots.length ∉ t.free
          simp [hsame, hf]
      · rw [get_eq_ok_iff, hword, decode_encode hlen hone]
        exact hself
      · simp only [spare, hsame, hf, hslots, length_append, length_singleton, length_nil]
        omega
      · refine fun n => ⟨?_, fun hcounted => ?_⟩
        · rintro ⟨hslotReady, hfreeReady⟩
          have hslotRoom : table.slotCapacity ≤ t.slotCapacity := hgrown.slotRoom
          have hfreeRoom : table.freeCapacity ≤ t.freeCapacity := hgrown.freeRoom
          simp only [Ready, hsame, hf, hslots, length_append, length_singleton,
            length_nil] at hslotReady hfreeReady ⊢
          omega
        · obtain ⟨hlive, hL, hvacant⟩ := hgrown.counted hcounted
          refine ⟨?_, by dsimp only; omega, fun i g hi => ?_⟩
          · rw [countP_append, ← hlive]
            rfl
          · change (t.slots ++ [_])[i]? = _ at hi
            rw [List.getElem?_append] at hi
            split_ifs at hi
            · exact hvacant i g hi
            · simp [List.getElem?_singleton] at hi
  · left
    obtain ⟨generation, hvacant⟩ := hs.free_vacant index (by simp [hf])
    have hindex : index < maxSlots := hs.index_lt hvacant
    have hrange := hs.range index generation _ hvacant rfl
    have hlt : index < table.slots.length := (List.getElem?_eq_some_iff.mp hvacant).1
    have hnodup : (index :: free).Nodup := hf ▸ hs.free_nodup
    simp only [HandleTable.insertWithRoom, hf, hvacant]
    have hreplaced := replaced_set hlt (.occupied generation rs obj)
    refine ⟨_, _, rfl, ?_, ?_, hopen, ?_, ?_⟩
    · refine hs.issue hindex hrange hopen hopen ?_ (hs.toFits.of_length length_set rfl rfl)
        hreplaced ?_ ?_
      · intro slot hslot
        exact Option.mem_unique hslot hvacant
      · change free.Sublist table.free
        rw [hf]
        exact sublist_cons_self index free
      · exact (nodup_cons.mp hnodup).1
    · rw [get_eq_ok_iff, decode_encode hindex hrange.2]
      exact hreplaced.self
    · simp only [spare, hf, length_set, length_cons]
      omega
    · refine fun n => ⟨?_, fun hcounted => ?_⟩
      · rintro ⟨hslotReady, hfreeReady⟩
        simp only [Ready, hf, length_set, length_cons] at hslotReady hfreeReady ⊢
        omega
      · refine counted_set hvacant (fun _ => rfl) rfl nofun (fun j hj hne => ?_) hcounted
        rw [hf, mem_cons] at hj
        exact hj.resolve_left hne

/-- What closing one handle does: it ends the value, or the value named
nothing and the table is unchanged. -/
theorem remove_spec (hs : Sound s) (x : Handle) :
    (∃ obj rs t, s.table.remove x = (.ok (obj, rs), t) ∧ s.table.get x = .ok (obj, rs) ∧
      Sound ⟨t, s.issued, s.ended ++ [x]⟩ ∧ t.closed = s.table.closed ∧
      spare s.table ≤ spare t ∧ ∀ n, (Ready s.table n → Ready t n) ∧
        (Counted s.table n → Counted t (n + 1))) ∨
    (s.table.remove x = (.error .badHandle, s.table) ∧ s.table.get x = .error .badHandle) := by
  obtain ⟨table, issued, ended⟩ := s
  by_cases hg : ∃ obj rs, table.get x = .ok (obj, rs)
  · left
    obtain ⟨obj, rs, hg⟩ := hg
    have hslot := (get_eq_ok_iff table x obj rs).mp hg
    have hi := hs.index_lt hslot
    have hlt := (List.getElem?_eq_some_iff.mp hslot).1
    have hencode := encode_decode hi
    simp only [HandleTable.remove, bounded_of_lt hlt, hslot, if_true]
    split
    · rename_i hgeneration
      refine ⟨obj, rs, _, rfl, hg, ?_, rfl, ?_, ?_⟩
      · have := hs.finish (t := { table with
            slots := table.slots.set (decode x).1 (.vacant ((decode x).2 + 1))
            free := table.free ++ [(decode x).1]
            live := table.live - 1 }) hslot (.inr ⟨rfl, hgeneration⟩) rfl rfl rfl
            rfl (.inr ⟨rfl, rfl⟩)
        rwa [hencode] at this
      · simp only [spare, length_set, length_append, length_singleton]
        omega
      · refine fun n => ⟨?_, counted_set hslot (fun h => Nat.sub_add_cancel h) rfl ?_ ?_⟩
        · rintro ⟨hslotReady, hfreeReady⟩
          simp only [Ready, length_set, length_append, length_singleton]
            at hslotReady hfreeReady ⊢
          omega
        · exact fun _ _ => mem_append_right _ (.head _)
        · exact fun j hj _ => mem_append_left _ hj
    · refine ⟨obj, rs, _, rfl, hg, ?_, rfl, ?_, ?_⟩
      · have := hs.finish (t := { table with
            slots := table.slots.set (decode x).1 .retired
            live := table.live - 1 }) hslot (.inl rfl) rfl rfl rfl rfl (.inl rfl)
        rwa [hencode] at this
      · simp [spare]
      · refine fun n => ⟨fun hready => ?_, counted_set hslot (fun h => Nat.sub_add_cancel h) rfl
          nofun fun j hj _ => hj⟩
        simpa [Ready] using hready
  · right
    have hbad : table.get x = .error .badHandle := by
      apply get_eq_badHandle_of_forall
      intro obj rs heq
      exact hg ⟨obj, rs, heq⟩
    refine ⟨?_, hbad⟩
    rcases hb : bounded (decode x).1 table.slots.length with _ | i
    · simp [HandleTable.remove, hb]
    · rw [HandleTable.get] at hbad
      simp only [hb] at hbad
      simp only [HandleTable.remove, hb]
      split
      · rename_i hslot
        simp only [hslot] at hbad
        split
        · rename_i heq
          simp [heq] at hbad
        · rfl
      · rfl

lemma get_eq_ok_iff_issued (hs : Sound s) (x : Handle) (obj : T) (rs : Rights) :
    s.table.get x = .ok (obj, rs) ↔ ⟨x, obj, rs⟩ ∈ s.issued ∧ x ∉ s.ended := by
  rw [get_eq_ok_iff]
  constructor
  · intro hslot
    have hissued := hs.occupied_issued _ _ _ _ hslot
    rwa [encode_decode (hs.index_lt hslot)] at hissued
  · rintro ⟨hissued, hlive⟩
    exact (hs.issued_live _ hissued).resolve_left hlive

lemma get_eq_badHandle_of_ended (hs : Sound s) (hended : x ∈ s.ended) :
    s.table.get x = .error .badHandle := by
  apply get_eq_badHandle_of_forall
  intro obj rs hg
  exact ((get_eq_ok_iff_issued hs x obj rs).mp hg).2 hended

lemma resolve_contains {requested : Requested} {held rs : Rights}
    (hresolve : requested.resolve held = some rs) : held.contains rs = true := by
  cases requested with
  | same =>
    have : held = rs := by simpa [Requested.resolve] using hresolve
    simp [this]
  | exactly wanted =>
    simp only [Requested.resolve] at hresolve
    split at hresolve
    · rename_i hcontains
      have : wanted = rs := by simpa using hresolve
      exact this ▸ hcontains
    · simp at hresolve

lemma insert_spec (hs : Sound s) (m : Memory) (obj : T) (rs : Rights) :
    (∃ x t, s.table.insert m obj rs = (.ok x, t) ∧ Sound ⟨t, s.issued ++ [⟨x, obj, rs⟩], s.ended⟩ ∧
      t.get x = .ok (obj, rs) ∧ (Counted s.table 0 → Counted t 0)) ∨
    ∃ t, s.table.insert m obj rs = (.error obj, t) ∧ Grown s.table t := by
  rw [HandleTable.insert]
  by_cases hroom : s.table.room = 0
  · rw [if_pos hroom]
    exact .inr ⟨s.table, rfl, .refl _⟩
  · rw [if_neg hroom]
    obtain ⟨hopen, hle⟩ := spare_pos_of_room hroom
    rcases insertWithRoom_spec hs hopen (by omega) m obj rs with
      ⟨x, t, hinsert, h, hg, -, -, hkeep⟩ | ⟨t, hinsert, hgrown, -⟩
    · refine .inl ⟨x, t, hinsert, h, hg, fun hcounted => (hkeep 0).2 ?_⟩
      exact hcounted.of_room (Nat.pos_of_ne_zero hroom)
    · exact .inr ⟨t, hinsert, hgrown⟩

lemma duplicate_spec (hs : Sound s) (clone : T → T) (m : Memory) (x : Handle)
    (requested : Requested) : (∃ obj held rs copy t,
      s.table.duplicate clone m x requested = (.ok copy, t) ∧
      s.table.get x = .ok (obj, held) ∧
      held.contains Rights.duplicate = true ∧ requested.resolve held = some rs ∧
      Sound ⟨t, s.issued ++ [⟨copy, clone obj, rs⟩], s.ended⟩ ∧
      t.get copy = .ok (clone obj, rs) ∧ (Counted s.table 0 → Counted t 0)) ∨
    ∃ e t, s.table.duplicate clone m x requested = (.error e, t) ∧ Grown s.table t := by
  rw [HandleTable.duplicate]
  rcases hg : s.table.get x with e | ⟨obj, held⟩
  · exact .inr ⟨e, s.table, rfl, .refl _⟩
  · dsimp only
    by_cases hright : held.contains Rights.duplicate = true
    · rw [if_neg (by simp [hright])]
      rcases hresolve : requested.resolve held with _ | rs
      · exact .inr ⟨_, s.table, rfl, .refl _⟩
      · dsimp only
        rcases insert_spec hs m (clone obj) rs with
          ⟨copy, t, hinsert, h, hcopy⟩ | ⟨t, hinsert, hgrown⟩
        · rw [hinsert]
          exact .inl ⟨obj, held, rs, copy, t, rfl, rfl, hright, hresolve, h, hcopy⟩
        · rw [hinsert]
          exact .inr ⟨_, t, rfl, hgrown⟩
    · rw [if_pos (by simp [hright])]
      exact .inr ⟨_, s.table, rfl, .refl _⟩

lemma sound_bump (hs : Sound s) {i g : Nat} {r : Rights} (rs : Rights)
    (hslot : s.table.slots[i]? = some (.occupied g r obj)) (hgeneration : g < maxGeneration) :
    Sound ⟨{ s.table with slots := s.table.slots.set i (.occupied (g + 1) rs obj) },
      s.issued ++ [⟨encode i (g + 1), obj, rs⟩], s.ended ++ [encode i g]⟩ := by
  have hlt := (List.getElem?_eq_some_iff.mp hslot).1
  have hopen := hs.open_of_slot hslot
  have hvacated := hs.finish (t := { s.table with slots := s.table.slots.set i (.vacant (g + 1)) })
    hslot (.inr ⟨rfl, hgeneration⟩) rfl rfl rfl rfl (.inl rfl)
  have hbumped : Replaced (s.table.slots.set i (.vacant (g + 1))) _ i (.occupied (g + 1) rs obj) :=
    replaced_set (by simpa using hlt) _
  rw [set_set] at hbumped
  refine hvacated.issue (hs.index_lt hslot) ⟨by omega, hgeneration⟩ hopen hopen ?_
    (hs.toFits.of_length length_set rfl rfl) hbumped (List.Sublist.refl _) ?_
  · intro slot hset
    rw [List.getElem?_set_self hlt] at hset
    exact (Option.some.inj hset).symm
  · intro hm
    obtain ⟨g', hvacant⟩ := hs.free_vacant i hm
    simp [hslot] at hvacant

lemma move_spec (hs : Sound s) (m : Memory) {held rs : Rights}
    (hg : s.table.get x = .ok (obj, held)) (hspare : 0 < spare s.table) (hready : Ready s.table 1) :
    ∃ removed fresh t, s.table.remove x = (.ok (obj, held), removed) ∧
      removed.insertWithRoom m obj rs = (.ok fresh, t) ∧
      Sound ⟨t, s.issued ++ [⟨fresh, obj, rs⟩], s.ended ++ [x]⟩ ∧
      t.get fresh = .ok (obj, rs) ∧ (Counted s.table 0 → Counted t 0) := by
  rcases remove_spec hs x with
    ⟨o', held', removed, hremove, hg', hended, hstill, hmore, hkeep⟩ | ⟨-, hbad⟩
  · have hsame : o' = obj ∧ held' = held := by
      simpa using hg'.symm.trans hg
    obtain ⟨rfl, rfl⟩ := hsame
    have hslot := (get_eq_ok_iff s.table x o' held').mp hg
    rcases insertWithRoom_spec hended (hstill.trans (hs.open_of_slot hslot))
        (Nat.lt_of_lt_of_le hspare hmore) m o' rs with
      ⟨fresh, t, hinsert, h, hfresh, -, -, hkeep'⟩ | ⟨t, -, -, hnot⟩
    · exact ⟨removed, fresh, t, hremove, hinsert, h, hfresh,
        fun hcounted => (hkeep' 0).2 ((hkeep 0).2 hcounted)⟩
    · exact absurd ((hkeep 1).1 hready) hnot
  · simp [hg] at hbad

lemma replace_spec (hs : Sound s) (m : Memory) (x : Handle) (requested : Requested) :
    (∃ obj held rs fresh t, s.table.replace m x requested = (.ok fresh, t) ∧
      s.table.get x = .ok (obj, held) ∧ requested.resolve held = some rs ∧
      Sound ⟨t, s.issued ++ [⟨fresh, obj, rs⟩], s.ended ++ [x]⟩ ∧
      t.get fresh = .ok (obj, rs) ∧ (Counted s.table 0 → Counted t 0)) ∨
    ∃ error t, s.table.replace m x requested = (.error error, t) ∧ Grown s.table t := by
  rw [HandleTable.replace]
  rcases hg : s.table.get x with error | ⟨obj, held⟩
  · exact .inr ⟨error, s.table, rfl, .refl _⟩
  · dsimp only
    rcases hresolve : requested.resolve held with _ | rs
    · exact .inr ⟨_, s.table, rfl, .refl _⟩
    · have hslot := (get_eq_ok_iff s.table x obj held).mp hg
      have hlt := (List.getElem?_eq_some_iff.mp hslot).1
      have hindex := hs.index_lt hslot
      rw [bounded_of_lt hlt]
      dsimp only
      by_cases hgeneration : (decode x).2 < maxGeneration
      · rw [if_pos hgeneration, hslot, mod_of_lt hindex]
        have hbump := sound_bump hs rs hslot hgeneration
        rw [encode_decode hindex] at hbump
        refine .inl ⟨obj, held, rs, _, _, rfl, rfl, hresolve, hbump, ?_,
          counted_set hslot (fun _ => rfl) rfl nofun fun j hj _ => hj⟩
        rw [get_eq_ok_iff, decode_encode hindex hgeneration]
        exact List.getElem?_set_self hlt
      · rw [if_neg hgeneration]
        by_cases hfull : s.table.free.isEmpty && decide (s.table.slots.length ≥ maxSlots)
        · rw [if_pos hfull]
          exact .inr ⟨_, s.table, rfl, .refl _⟩
        · rw [if_neg hfull]
          obtain ⟨result, reserved, hreserve, hgrown, hready, -⟩ := reserve_spec hs m 1
          have hreserved := sound_of_grown hs hgrown
          rw [hreserve]
          cases result with
          | error error => exact .inr ⟨error, reserved, rfl, hgrown⟩
          | ok value =>
            cases value
            have hgetReserved : reserved.get x = .ok (obj, held) := by
              rw [get_eq_ok_iff, hgrown.slots]
              exact hslot
            have hspare : 0 < spare reserved := by
              rw [spare, hgrown.free, hgrown.slots]
              simp only [Bool.and_eq_true, decide_eq_true_eq, not_and, not_le,
                List.isEmpty_iff] at hfull
              rcases he : s.table.free with _ | ⟨index, free⟩
              · have := hfull he
                omega
              · simp only [length_cons]
                omega
            obtain ⟨removed, fresh, t, hremove, hinsert, h, hfresh, hcounted⟩ :=
              move_spec hreserved m hgetReserved hspare (hready rfl)
            dsimp only at hremove ⊢
            rw [hremove]
            dsimp only
            rw [hinsert]
            exact .inl ⟨obj, held, rs, fresh, t, rfl, rfl, hresolve, h, hfresh,
              fun h => hcounted (hgrown.counted h)⟩

end Ferrix.Objects.HandleCalls
