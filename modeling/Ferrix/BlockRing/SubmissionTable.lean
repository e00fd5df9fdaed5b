import Ferrix.BlockRing.Kernel

/-!
Over every run of insertions and removals, which ids are taken is told by the answers alone.
-/

namespace Ferrix.BlockRing.SubmissionTable

open Foundations.OpenAddressing Layout Kernel List Function Table

variable {n : Nat} [NeZero n] {table : Table n} {sub : Submission} {id : BitVec 64}

lemma contents_nodup (hkept : table.Kept) : (contents table.slots).Nodup :=
  (nodup_finRange n).filterMap fun p q v hp hq => hkept.sound.keyed p q v v hp hq rfl

omit [NeZero n] in
lemma length_contents (slots : Fin n → Option Submission) :
    (contents slots).length = (finRange n).countP fun p => (slots p).isSome :=
  length_filterMap_eq_countP

lemma remove_fst (table : Table n) (id : BitVec 64) : (table.remove id).1 = table.find id := by
  rw [remove, find]
  cases table.position id <;> rfl

lemma not_exhausted (hkept : table.Kept) (hroom : table.len < table.limit) (k : Nat) :
    probe keyOf table.slots k ≠ .exhausted := by
  intro hprobe
  have htells := probe_tells keyOf table.slots k
  rw [hprobe] at htells
  have hfull : ∀ p ∈ finRange n, (table.slots p).isSome := by
    intro p _
    obtain ⟨v, hv, -⟩ := htells _ (p - home k).isLt
    rw [add_steps] at hv
    rw [hv, Option.isSome_some]
  have hlen := hkept.counted
  rw [length_contents, countP_eq_length.mpr hfull, length_finRange] at hlen
  have := hkept.limited
  omega

lemma insert_answer (hkept : table.Kept) (sub : Submission) :
    (table.insert sub).map (fun _ => ()) = if table.limit ≤ table.len then .error .full
      else if (table.find sub.id).isSome then .error .duplicateId else .ok () := by
  rw [Table.insert]
  by_cases hfull : table.limit ≤ table.len
  · rw [if_pos hfull, if_pos hfull]
    rfl
  · rw [if_neg hfull, if_neg hfull, find, position]
    have htells := probe_tells keyOf table.slots sub.id.toNat
    cases hprobe : probe keyOf table.slots sub.id.toNat with
    | vacant p => rfl
    | held p =>
      rw [hprobe] at htells
      obtain ⟨held, hh, -⟩ := htells
      rw [if_pos (by simp [hh])]
      rfl
    | exhausted => exact absurd hprobe (not_exhausted hkept (not_le.mp hfull) _)

lemma ids_differ (hkept : table.Kept) {rest : List Submission}
    (hperm : (contents table.slots).Perm (sub :: rest)) {other : Submission}
    (ho : other ∈ rest) : other.id ≠ sub.id := by
  intro hid
  have hnodup := hperm.nodup_iff.mp (contents_nodup hkept)
  have hfind := (find_eq_some hkept).mpr ⟨hperm.symm.subset mem_cons_self, rfl⟩
  rw [← hid, (find_eq_some hkept).mpr ⟨hperm.symm.subset (mem_cons_of_mem _ ho), rfl⟩] at hfind
  cases hfind
  exact (nodup_cons.mp hnodup).1 ho

lemma find_of_perm {small : Table n} (hsmall : small.Kept) (hkept : table.Kept)
    (hperm : (contents table.slots).Perm (sub :: contents small.slots)) :
    table.find = update small.find sub.id (some sub) := by
  funext id
  apply Option.ext
  intro held
  rw [find_eq_some hkept, hperm.mem_iff, mem_cons, update_apply]
  split_ifs with hid
  · constructor
    · rintro ⟨rfl | hh, hheldId⟩
      · rfl
      · exact absurd (hheldId.trans hid) (ids_differ hkept hperm hh)
    · intro heq
      cases heq
      exact ⟨.inl rfl, hid.symm⟩
  · rw [find_eq_some hsmall]
    refine and_congr_left fun hheldId => or_iff_right ?_
    rintro rfl
    exact hid hheldId.symm

lemma position_eq_none (hfind : table.find id = none) : table.position id = none := by
  have htells := probe_tells keyOf table.slots id.toNat
  rw [find, position] at hfind
  rw [position]
  cases hprobe : probe keyOf table.slots id.toNat with
  | vacant p => rfl
  | exhausted => rfl
  | held p =>
    rw [hprobe] at hfind htells
    obtain ⟨held, hh, -⟩ := htells
    simp [hh] at hfind

lemma find_remove (hkept : table.Kept) (hfind : table.find id = some sub) :
    (table.remove id).2.find = update table.find id none := by
  obtain ⟨hkept', hperm, -⟩ := remove_found hkept hfind
  obtain ⟨-, rfl⟩ := (find_eq_some hkept).mp hfind
  have hnone : (table.remove sub.id).2.find sub.id = none := by
    rw [Option.eq_none_iff_forall_ne_some]
    intro held hh
    obtain ⟨hm, hid⟩ := (find_eq_some hkept').mp hh
    exact ids_differ hkept hperm hm hid
  rw [find_of_perm hkept' hkept hperm, update_idem, ← hnone, update_eq_self]

inductive Call
  | insert (submission : Submission)
  | remove (id : BitVec 64)

/-- A table, and what was inserted under each id and not removed since. -/
structure Run (n : Nat) where
  table : Table n
  held : BitVec 64 → Option Submission

def start (n limit : Nat) : Run n := ⟨.new n limit, fun _ => none⟩

def step (s : Run n) : Call → Run n
  | .insert submission =>
    match s.table.insert submission with
    | .ok table => ⟨table, update s.held submission.id (some submission)⟩
    | .error _ => s
  | .remove id => ⟨(s.table.remove id).2, update s.held id none⟩

structure Told (limit : Nat) (s : Run n) : Prop where
  kept : s.table.Kept
  limited : s.table.limit = limit
  len_le : s.table.len ≤ limit
  find : s.table.find = s.held

lemma told_start (limit : Nat) : Told (min limit n) (start n limit) := by
  refine ⟨new_kept limit, rfl, Nat.zero_le _, ?_⟩
  funext id
  apply Option.ext
  intro held
  change (new n limit).find id = some held ↔ none = some held
  rw [find_eq_some (new_kept limit), mem_contents]
  simp [new]

lemma told_step {limit : Nat} {s : Run n} (htold : Told limit s) (call : Call) :
    Told limit (step s call) := by
  obtain ⟨hkept, hL, hroom, hfind⟩ := htold
  cases call with
  | insert sub =>
    rw [step]
    cases hinsert : s.table.insert sub with
    | error error => exact ⟨hkept, hL, hroom, hfind⟩
    | ok table =>
      obtain ⟨hkept', hperm, hlen, hL', -⟩ := insert_ok hkept hinsert
      refine ⟨hkept', hL'.trans hL, ?_, ?_⟩
      · change table.len ≤ limit
        rw [hkept'.counted, hperm.length_eq, length_cons, ← hkept.counted, ← hL]
        exact hlen
      · rw [← hfind]
        exact find_of_perm hkept hkept' hperm
  | remove id =>
    cases hremoved : s.table.find id with
    | none =>
      have hsame : (s.table.remove id).2 = s.table := by
        rw [remove, position_eq_none hremoved]
      rw [step, hsame, ← hfind, ← hremoved, update_eq_self]
      exact ⟨hkept, hL, hroom, rfl⟩
    | some sub =>
      obtain ⟨hkept', hperm, hL'⟩ := remove_found hkept hremoved
      refine ⟨hkept', hL'.trans hL, ?_, ?_⟩
      · have hlength := hperm.length_eq
        rw [← hkept.counted, length_cons, ← hkept'.counted] at hlength
        change (s.table.remove id).2.len ≤ limit
        omega
      · rw [step, ← hfind]
        exact find_remove hkept hremoved

/-- The table is a finite map of at most `limit` submissions, and its answers are the map's; a full
table answers `full` before it looks for the id. -/
theorem table_is_map (n limit : Nat) [NeZero n] (calls : List Call) (s : Run n)
    (hs : calls.foldl step (start n limit) = s) :
    (∀ id, s.table.find id = s.held id) ∧ (∀ id, (s.table.remove id).1 = s.held id) ∧
    (∀ submission, (s.table.insert submission).map (fun _ => ()) =
      if s.table.len = min limit n then .error .full
      else if (s.held submission.id).isSome then .error .duplicateId else .ok ()) ∧
    s.table.len ≤ min limit n ∧
    s.table.len = (finRange n).countP fun p => (s.table.slots p).isSome := by
  obtain ⟨hkept, hlimit, hlen, hfind⟩ : Told (min limit n) s :=
    hs ▸ List.foldlRecOn calls step (told_start limit) fun _ htold call _ => told_step htold call
  refine ⟨fun id => congrFun hfind id, ?_, ?_, hlen, ?_⟩
  · intro id
    rw [remove_fst, hfind]
  · intro submission
    simp only [insert_answer hkept, hlimit, hfind, hlen.ge_iff_eq]
  · rw [hkept.counted, length_contents]

def flush (id : BitVec 64) : Submission := ⟨id, .flush, 0, 0, 0, false⟩

theorem table_is_map_refilled :
    let calls := [Call.insert (flush 3), .insert (flush 7), .insert (flush 11), .remove 7,
      .insert (flush 15)]
    let s := calls.foldl step (start 4 4)
    s.table.find 11 = some (flush 11) ∧ s.table.find 7 = none ∧
      s.table.find 15 = some (flush 15) ∧ s.table.len = 3 := by
  have hmap := (table_is_map 4 4 [Call.insert (flush 3), .insert (flush 7), .insert (flush 11),
    .remove 7, .insert (flush 15)] _ rfl).1
  exact ⟨hmap 11, hmap 7, hmap 15, by decide +kernel⟩

/-- A full table answers `full` to an id it holds. -/
theorem full_hides_duplicate : ∃ s : Run 1, [Call.insert (flush 7)].foldl step (start 1 1) = s ∧
    (s.held 7).isSome ∧ s.table.insert (flush 7) ≠ .error .duplicateId :=
  ⟨_, rfl, rfl, nofun⟩

end Ferrix.BlockRing.SubmissionTable
