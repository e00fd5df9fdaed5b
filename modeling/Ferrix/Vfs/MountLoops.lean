import Ferrix.Vfs.MountTables

namespace Ferrix.Vfs.MountLoops

open Foundations Programs SortedMaps ParentPointers Dentries Mounts
open MountTables Function List SortedMap

variable {w w' : World} {t u : TreeRef} {s : Namespace} {table : Table} {k : Key}
variable {m n : MountRef} {loc : Location} {d : DentryId}

structure SameMounts (w w' : World) : Prop where
  mounts : w'.mounts = w.mounts
  made : w'.made = w.made
  nextMount : w.nextMount ≤ w'.nextMount
  spaces : w'.spaces = w.spaces
  spaceCount : w'.spaceCount = w.spaceCount
  counts : ∀ d, (w'.dentry d).mounts = (w.dentry d).mounts
  fresh : ∀ d, w'.cache.next ≤ d → w'.dentry d = .blank

lemma SameMounts.trees (hsame : SameMounts w w') (htrees : Trees w) : Trees w' := by
  obtain ⟨h, hrooted⟩ := htrees
  have hk : ∀ loc, w'.key loc = w.key loc := by
    intro loc
    rw [World.key, hsame.mounts]
    rfl
  have htotal : ∀ d, total w' d = total w d := by
    intro d
    rw [total, total, hsame.spaceCount]
    refine Finset.sum_congr rfl fun u _ => ?_
    rw [World.table, World.table, hsame.spaces]
  constructor
  · constructor
    · intro u s hs k m hg
      rw [hsame.spaces] at hs
      rw [hsame.mounts]
      obtain ⟨ht, loc, hp, hloc⟩ := h.keyed u s hs k m hg
      exact ⟨ht, loc, hp, (hk loc).trans hloc⟩
    · rw [hsame.spaces, hsame.mounts]
      exact h.root
    · rw [hsame.spaces]
      exact h.bounded
    · intro d
      rw [hsame.counts, htotal]
      exact h.counted d
    · rw [hsame.mounts]
      exact h.distinct
    · intro m
      rw [hsame.mounts]
      exact ⟨(h.numbered m).1.trans_le hsame.nextMount, (h.numbered m).2⟩
    · rw [hsame.mounts, hsame.made]
      exact h.mounts_fresh
    · rw [hsame.spaces, hsame.spaceCount]
      exact h.spaces_fresh
    · exact hsame.fresh
  · intro u s hs
    rw [hsame.spaces] at hs
    exact (hrooted u s hs).congr hsame.mounts

lemma SameMounts.trans {w'' : World} (hf : SameMounts w w') (hsecond : SameMounts w' w'') :
    SameMounts w w'' where
  mounts := hsecond.mounts.trans hf.mounts
  made := hsecond.made.trans hf.made
  nextMount := hf.nextMount.trans hsecond.nextMount
  spaces := hsecond.spaces.trans hf.spaces
  spaceCount := hsecond.spaceCount.trans hf.spaceCount
  counts d := (hsecond.counts d).trans (hf.counts d)
  fresh := hsecond.fresh

lemma sameMounts_charges (h : Sound w) (cs : List Bool) : SameMounts w { w with charges := cs } :=
  ⟨rfl, rfl, le_rfl, rfl, rfl, fun _ => rfl, h.dentries_fresh⟩

lemma sameMounts_nextMount (h : Sound w) : SameMounts w { w with nextMount := w.nextMount + 1 } :=
  ⟨rfl, rfl, Nat.le_succ _, rfl, rfl, fun _ => rfl, h.dentries_fresh⟩

lemma sameMounts_add (h : Sound w) (name : Name) (p : Option DentryId)
    (i : Option Ino) : SameMounts w (w.setCache (w.cache.add (.new name p i))) := by
  refine ⟨rfl, rfl, le_rfl, rfl, rfl, fun d => ?_, fun d hd => ?_⟩
  · change (update w.cache.dentries w.cache.next _ d).mounts = _
    rcases eq_or_ne d w.cache.next with rfl | hne
    · rw [update_self, h.dentries_fresh _ le_rfl]
      rfl
    · rw [update_of_ne hne]
      rfl
  · change update w.cache.dentries w.cache.next _ d = _
    have hlt : w.cache.next < d := hd
    rw [update_of_ne hlt.ne']
    exact h.dentries_fresh d hlt.le

/-- Asking for memory changes nothing but the answers to come. -/
def Recharged (w w' : World) : Prop := ∃ charges, w' = { w with charges := charges }

lemma charge_ends (w : World) :
    Program.Ends charge w (fun _ => Recharged w) (fun _ => Recharged w) := by
  rw [Program.Ends, charge]
  rcases hcharges : w.charges with _ | ⟨_ | _, r⟩
  · exact ⟨w.charges, rfl⟩
  · exact ⟨r, rfl⟩
  · exact ⟨r, rfl⟩

lemma Recharged.trees (hcharged : Recharged w w') (htrees : Trees w) : Trees w' := by
  obtain ⟨cs, rfl⟩ := hcharged
  exact (sameMounts_charges htrees.sound cs).trees htrees

lemma bind_charge {α : Type} {f : Unit → Call α} {ok : α → World → Prop} (htrees : Trees w)
    (hf : ∀ cs, Trees { w with charges := cs } →
      Program.Ends (f ()) { w with charges := cs } ok (fun _ => Trees)) :
    Program.Ends (charge >>= f) w ok (fun _ => Trees) := by
  refine .bind ((charge_ends w).mono (fun _ _ h => h) fun _ _ h => h.trees htrees) ?_
  rintro ⟨⟩ _ ⟨cs, rfl⟩
  exact hf cs ((sameMounts_charges htrees.sound cs).trees htrees)

def withMount (w : World) (mount : Mount) : World :=
  { w.setMount w.made mount with made := w.made + 1 }

lemma mounts_withMount (w : World) (mount : Mount) (n : MountRef) :
    (withMount w mount).mounts n = if n = w.made then mount else w.mounts n := by
  change update w.mounts w.made mount n = _
  rw [update_apply]

lemma withMount_trees {mount : Mount} (htrees : Trees w) (hid : mount.id < w.nextMount)
    (hdetached : mount.tree = none ↔ mount.id = detachedMount)
    (hnew : mount.tree ≠ none → ∀ m, (w.mounts m).id < mount.id) : Trees (withMount w mount) := by
  obtain ⟨h, hrooted⟩ := htrees
  have hmounts := mounts_withMount w mount
  have hold : ∀ n, w.mounts n ≠ .blank → (withMount w mount).mounts n = w.mounts n := by
    intro n hn
    have hne : n ≠ w.made := by
      rintro rfl
      exact hn (h.mounts_fresh _ le_rfl)
    rw [hmounts, if_neg hne]
  -- What the trees read is made already, so the new number is none of it.
  have hparent : ∀ n loc, (w.mounts n).parent = some loc →
      (withMount w mount).mounts n = w.mounts n := by
    intro n loc hparent
    refine hold n ?_
    intro hblank
    rw [hblank] at hparent
    cases hparent
  have ht : ∀ n, (w.mounts n).tree ≠ none → (withMount w mount).mounts n = w.mounts n := by
    intro n hn
    refine hold n ?_
    intro hblank
    rw [hblank] at hn
    exact hn rfl
  have hk : ∀ loc, (w.mounts loc.mount).tree ≠ none → (withMount w mount).key loc = w.key loc := by
    intro loc hloc
    rw [World.key, ht _ hloc]
    rfl
  constructor
  · constructor
    · intro u s hs k n hg
      obtain ⟨ht', loc, hparent', hloc⟩ := h.keyed u s hs k n hg
      obtain ⟨loc', hparent'', hin⟩ := (hrooted u s hs).owned k n hg
      obtain rfl := Option.mem_unique hparent' hparent''
      have hloctree := h.tree_of_inTree hs hin
      rw [hparent n loc hparent']
      exact ⟨ht', loc, hparent', (hk loc (by simp [hloctree])).trans hloc⟩
    · intro u s hs
      obtain ⟨hf, ht'⟩ := h.root u s hs
      rw [ht _ (by simp [ht'])]
      exact ⟨hf, ht'⟩
    · exact h.bounded
    · exact h.counted
    · intro a b ha hb hids
      rw [hmounts] at ha hids
      rw [hmounts] at hb
      rw [hmounts b] at hids
      split_ifs at ha hb hids with hma hmb hmb
      · rw [hma, hmb]
      · exact absurd hids (hnew ha b).ne'
      · exact absurd hids (hnew hb a).ne
      · exact h.distinct a b ha hb hids
    · intro n
      rw [hmounts]
      split_ifs with hn
      · exact ⟨hid, hdetached⟩
      · exact h.numbered n
    · intro n hn
      have hlt : w.made < n := hn
      rw [hmounts, if_neg hlt.ne']
      exact h.mounts_fresh n hlt.le
    · exact h.spaces_fresh
    · exact h.dentries_fresh
  · intro u s hs
    constructor
    · intro k n hg
      obtain ⟨loc, hparent', hin⟩ := (hrooted u s hs).owned k n hg
      exact ⟨loc, by rw [hparent n loc hparent', hparent'], hin⟩
    · intro n hin
      refine ((hrooted u s hs).climbs n hin).mono fun x p hp => ?_
      obtain ⟨loc, hloc, rfl⟩ := Option.map_eq_some_iff.mp hp
      rw [World.above, hparent x loc hloc, hloc]
      rfl

section

/-- Each mount of the list may go where its parent pointer says, given what is in the tree and
which places are taken before it. -/
def Attachable (w : World) (t : TreeRef) (inTree : Set MountRef) (taken : Set Key) :
    List (MountRef × Location) → Prop
  | [] => True
  | (m, loc) :: rest =>
    ((w.mounts m).parent = some loc ∧ (w.mounts m).tree = some t ∧ loc.mount ∈ inTree ∧
      w.key loc ∉ taken ∧ loc.dentry < w.cache.next) ∧
    Attachable w t (insert m inTree) (insert (w.key loc) taken) rest

/-- The mounts of the list put into the table one after the other. -/
def placedAll (w : World) (t : TreeRef) (entries : List (MountRef × Location)) : World :=
  entries.foldl (fun w entry => placed w t entry.1 entry.2) w

variable {inTree : Set MountRef} {taken : Set Key} {entries : List (MountRef × Location)}

lemma Attachable.congr (hmounts : w'.mounts = w.mounts) (hn : w'.cache.next = w.cache.next)
    (hattach : Attachable w t inTree taken entries) : Attachable w' t inTree taken entries := by
  have hk : ∀ loc, w'.key loc = w.key loc := by
    intro loc
    rw [World.key, hmounts]
    rfl
  induction entries generalizing inTree taken with
  | nil => trivial
  | cons e r ih =>
    obtain ⟨m, loc⟩ := e
    rw [Attachable, hmounts, hk, hn]
    exact ⟨hattach.1, ih hattach.2⟩

lemma placedAll_trees (htrees : Trees w) (hs : w.spaces t = some s)
    (hin : ∀ n ∈ inTree, InTree s n) (htaken : ∀ k, s.table.get? k ≠ none → k ∈ taken)
    (hattach : Attachable w t inTree taken entries)
    (hroom : s.table.size + 1 + entries.length ≤ mountMax) :
    Trees (placedAll w t entries) ∧ ∃ s',
      (placedAll w t entries).spaces t = some s' ∧ s'.root = s.root ∧
      ∀ k n, s'.table.get? k = some n ↔
        s.table.get? k = some n ∨ ∃ loc, (n, loc) ∈ entries ∧ w.key loc = k := by
  -- The head goes in first, so the tail is attached to a tree that has it, at places left free.
  induction entries generalizing w s inTree taken with
  | nil => exact ⟨htrees, s, hs, rfl, by simp⟩
  | cons e r ih =>
    obtain ⟨m, loc⟩ := e
    obtain ⟨⟨hp, ht, howner, hf, hdentry⟩, hr⟩ := hattach
    have hfresh : s.table.get? (w.key loc) = none := by
      by_contra hsome
      exact hf (htaken _ hsome)
    rw [length_cons] at hroom
    have hplaced := placed_trees hs hp hfresh htrees ht (hin _ howner) (by omega) hdentry
    have hs' := spaces_placed hs m loc t
    rw [if_pos rfl] at hs'
    have hsize := size_insert hfresh m
    have hg := get?_insert s.table (w.key loc)
    have hin' : ∀ n ∈ insert m inTree,
        InTree { s with table := s.table.insert (w.key loc) m } n := by
      rintro n (rfl | hn)
      · refine .inr ⟨w.key loc, ?_⟩
        rw [hg, if_pos rfl]
      · exact inTree_insert hfresh m (hin n hn)
    have htaken' : ∀ k, (s.table.insert (w.key loc) m).get? k ≠ none →
        k ∈ insert (w.key loc) taken := by
      intro k hk
      rw [hg] at hk
      split_ifs at hk with heq
      · exact .inl heq
      · exact .inr (htaken k hk)
    have hr' : Attachable (placed w t m loc) t (insert m inTree)
        (insert (w.key loc) taken) r := hr.congr (by rfl) (by rfl)
    have hroom' : (s.table.insert (w.key loc) m).size + 1 + r.length ≤ mountMax := by
      omega
    obtain ⟨htrees', s', hs'', hroot, hentries⟩ :=
      ih hplaced hs' hin' htaken' hr' hroom'
    refine ⟨htrees', s', hs'', hroot, fun k n => ?_⟩
    rw [hentries, hg]
    simp only [mem_cons]
    constructor
    · rintro (hk | ⟨loc', hm, hk⟩)
      · split_ifs at hk with heq
        · obtain rfl := Option.some.inj hk
          exact .inr ⟨loc, .inl rfl, heq.symm⟩
        · exact .inl hk
      · exact .inr ⟨loc', .inr hm, hk⟩
    · rintro (hk | ⟨loc', heq | hm, hk⟩)
      · refine .inl ?_
        rw [if_neg]
        · exact hk
        · rintro rfl
          rw [hfresh] at hk
          cases hk
      · obtain ⟨rfl, rfl⟩ := Prod.ext_iff.mp heq
        exact .inl (if_pos hk.symm)
      · exact .inr ⟨loc', hm, hk⟩

lemma each_place_run (t : TreeRef) (entries : List (MountRef × Location)) (w : World) :
    (Program.each (fun (e : MountRef × Option Location) => place t e.1 e.2)
      (entries.map fun e => (e.1, some e.2)) : Call Unit) w = (.ok (), placedAll w t entries) := by
  induction entries generalizing w with
  | nil => rfl
  | cons e r ih => exact ih (placed w t e.1 e.2)

lemma attach_trees (htrees : Trees w) (hs : w.spaces t = some s)
    (hentries : ∀ e ∈ entries, (w.mounts e.1).parent = some e.2)
    (hattach : (∀ e ∈ entries.head?, s.table.get? (w.key e.2) = none) →
      Attachable w t {n | InTree s n} {k | s.table.get? k ≠ none} entries) :
    Program.Ends (attach t (entries.map Prod.fst)) w (fun _ => Trees) (fun _ => Trees) := by
  refine bind_charge htrees fun cs htrees' => ?_
  have hplaced : (entries.map Prod.fst).map (fun m => (w.mounts m).parent) =
      entries.map fun e => some e.2 := by
    rw [map_map]
    exact map_congr_left hentries
  have hzip : (entries.map Prod.fst).zip (entries.map fun e => some e.2) =
      entries.map fun e => (e.1, some e.2) := zip_map'
  refine .bind_view ?_
  rw [hplaced, hzip]
  refine .bind_view ?_
  refine .guard htrees' fun hf => ?_
  refine .bind_view ?_
  refine .guard htrees' fun hroom => ?_
  have hhead : ∀ e ∈ entries.head?, s.table.get? (w.key e.2) = none := by
    intro e he
    rw [List.head?_map, he, Option.map_some] at hf
    have hnone : (!((w.table t).get? (w.key e.2)).isSome) = true := hf
    rw [table_eq hs] at hnone
    simpa using hnone
  have hattach' : Attachable { w with charges := cs } t {n | InTree s n}
      {k | s.table.get? k ≠ none} entries := (hattach hhead).congr (by rfl) (by rfl)
  have hroom' : s.table.size + 1 + entries.length ≤ mountMax := by
    have hle := of_decide_eq_true hroom
    rw [length_map] at hle
    change (w.table t).size + 1 + _ ≤ _ at hle
    rwa [table_eq hs] at hle
  rw [Program.Ends, each_place_run]
  exact (placedAll_trees htrees' hs (fun n hn => hn) (fun k hk => hk) hattach' hroom').1

end

section

variable {ms : List MountRef}

lemma disconnect_run (hp : (w.mounts m).parent = some loc) :
    (disconnect t m : Call Unit) w = (.ok (), disconnected w t m loc) := by
  rw [disconnect, Program.bind_run]
  simp only [Program.view_run, hp]
  rfl

variable (hs : w.spaces t = some s) (hnodup : ms.Nodup)
  (hin : ∀ m ∈ ms, ∃ k, s.table.get? k = some m)
include hs hnodup hin

lemma each_disconnect (hsound : Sound w) :
    Program.Ends (Program.each (disconnect t) ms) w (fun _ w' => Sound w' ∧
        Within t w w' ∧ (∀ n, n ∉ ms → w'.mounts n = w.mounts n) ∧
        ∃ s', w'.spaces t = some s' ∧ s'.root = s.root ∧
          ∀ k n, s'.table.get? k = some n ↔ s.table.get? k = some n ∧ n ∉ ms)
      (fun _ _ => False) := by
  induction ms generalizing w s with
  | nil => exact ⟨hsound, .refl t w, fun _ _ => rfl, s, hs, rfl, by simp⟩
  | cons m ms ih =>
    obtain ⟨hnotin, hnodup⟩ := nodup_cons.mp hnodup
    obtain ⟨k, hg⟩ := hin m mem_cons_self
    obtain ⟨ht, loc, hp, rfl⟩ := hsound.keyed t s hs k m hg
    have hsound' := disconnected_sound hs hp hg hsound
    have hs' := (spaces_disconnected hs m loc t).trans (if_pos rfl)
    have hone : ∀ k n, s.table.get? k = some n → (k = w.key loc ↔ n = m) := by
      intro k n hg'
      constructor
      · rintro rfl
        exact Option.mem_unique hg' hg
      · rintro rfl
        exact (hsound.key_eq hs hg' hp).symm
    have hr : ∀ n ∈ ms, ∃ k, (s.table.erase (w.key loc)).get? k = some n := by
      intro n hn
      obtain ⟨k, hg'⟩ := hin n (mem_cons_of_mem _ hn)
      refine ⟨k, ?_⟩
      rw [get?_erase, if_neg]
      · exact hg'
      · intro heq
        exact hnotin (((hone k n hg').mp heq) ▸ hn)
    rw [Program.each, Program.Ends, Program.bind_of_ok (disconnect_run hp)]
    refine Program.Ends.mono (ih hs' hnodup hr hsound') ?_ fun _ _ h => h
    rintro _ w' ⟨hsound'', hwithin, hmounts, s', hs'', hroot, hentries⟩
    refine ⟨hsound'', (disconnected_within hs hg hsound).trans hwithin, ?_, s', hs'', hroot, ?_⟩
    · intro n hn
      rw [mem_cons, not_or] at hn
      rw [hmounts n hn.2, mounts_disconnected, if_neg hn.1]
    · intro k n
      rw [hentries, get?_erase, mem_cons]
      constructor
      · rintro ⟨hg', hn⟩
        split_ifs at hg' with heq
        refine ⟨hg', ?_⟩
        rintro (h | h)
        · exact heq ((hone k n hg').mpr h)
        · exact hn h
      · rintro ⟨hg', hn⟩
        refine ⟨?_, fun h => hn (.inr h)⟩
        rw [if_neg]
        · exact hg'
        · intro heq
          exact hn (.inl ((hone k n hg').mp heq))

lemma each_disconnect_trees (htrees : Trees w)
    (hclosed : ∀ k n loc, s.table.get? k = some n → (w.mounts n).parent = some loc →
      loc.mount ∈ ms → n ∈ ms) :
    Program.Ends (Program.each (disconnect t) ms) w (fun _ => Trees) (fun _ => Trees) := by
  have h := htrees.sound
  refine (each_disconnect hs hnodup hin h).mono ?_ fun _ _ h => h.elim
  rintro _ w' ⟨h', hwithin, hmounts, s', hs', hr, hentries⟩
  have hf : s.root ∉ ms := by
    intro hm
    obtain ⟨k, hg⟩ := hin _ hm
    obtain ⟨-, loc, hp, -⟩ := h.keyed t s hs k _ hg
    rw [(h.root t s hs).1] at hp
    cases hp
  have hrooted := htrees.rooted t s hs
  refine hwithin.trees htrees h' fun s'' hs'' => ?_
  obtain rfl := Option.mem_unique hs' hs''
  refine hrooted.restrict hr (fun k n hg => ((hentries k n).mp hg).1) ?_ ?_
  · rintro n (rfl | ⟨k, hg⟩)
    · rw [hr, hmounts _ hf]
    · rw [hmounts _ ((hentries k n).mp hg).2]
  · intro k n loc hg hp
    obtain ⟨hg, hn⟩ := (hentries k n).mp hg
    obtain ⟨loc', hp', howner⟩ := hrooted.owned k n hg
    obtain rfl := Option.mem_unique hp hp'
    have hout : loc.mount ∉ ms := fun hm => hn (hclosed k n loc hg hp hm)
    rcases howner with heq | ⟨k', hg'⟩
    · exact .inl (heq.trans hr.symm)
    · exact .inr ⟨k', (hentries k' _).mpr ⟨hg', hout⟩⟩

end

lemma mem_values : m ∈ table.entries.map Prod.snd ↔ ∃ k, table.get? k = some m := by
  rw [mem_map]
  constructor
  · rintro ⟨⟨k, n⟩, hm, rfl⟩
    exact ⟨k, get?_eq_some.mpr hm⟩
  · rintro ⟨k, hg⟩
    exact ⟨(k, m), get?_eq_some.mp hg, rfl⟩

variable (htrees : Trees w) (hs : w.spaces t = some s)
include htrees hs

lemma values_nodup : (s.table.entries.map Prod.snd).Nodup := by
  have h := htrees.sound
  refine List.Nodup.map_on ?_ (s.table.sorted.imp fun hlt heq => hlt.ne (congrArg _ heq))
  rintro ⟨k, m⟩ hm ⟨k', m'⟩ hm' heq
  obtain rfl : m = m' := heq
  obtain ⟨-, loc, hp, rfl⟩ :=
    h.keyed t s hs k m (get?_eq_some.mpr hm)
  rw [h.key_eq hs (get?_eq_some.mpr hm') hp]

lemma no_cycle (hin : InTree s m)
    {p : MountRef} (habove : w.above m = some p) : ¬ Climbs w.above p m := by
  refine ((htrees.rooted t s hs).climbs m hin).no_cycle ?_ habove
  rw [World.above, (htrees.sound.root t s hs).1]
  rfl

lemma snapshot_ends : Program.Ends (snapshot t) w
      (fun all w' => Recharged w w' ∧ all = s.table.entries.map Prod.snd) (fun _ => Trees) := by
  refine bind_charge htrees fun cs _ => ?_
  refine .view ⟨⟨cs, rfl⟩, ?_⟩
  change (w.table t).entries.map Prod.snd = _
  rw [table_eq hs]

lemma descendants_ends {within : Option DentryId} (hin : InTree s m) :
    Program.Ends (descendants t m within) w (fun found w' => Recharged w w' ∧
        Gathered w.above (s.table.entries.map Prod.snd) m found ∧
        (within = none → ∀ k n, s.table.get? k = some n → w.above n = some m → n ∈ found))
      (fun _ => Trees) := by
  refine (snapshot_ends htrees hs).bind ?_
  rintro _ w₁ ⟨hcharged, rfl⟩
  refine bind_charge (hcharged.trees htrees) fun cs _ => ?_
  obtain ⟨cs', rfl⟩ := hcharged
  refine .view ⟨⟨cs, rfl⟩, ?_⟩
  obtain ⟨hgathered, hstart⟩ := gathered (values_nodup htrees hs)
    (fun p hp => no_cycle htrees hs hin hp) filter_sublist le_rfl
  refine ⟨hgathered, ?_⟩
  rintro rfl k n hg habove
  refine hstart n ?_
  obtain ⟨loc, hp, -⟩ := Option.map_eq_some_iff.mp habove
  rw [mem_filter, mem_below]
  refine ⟨⟨mem_values.mpr ⟨k, hg⟩, habove⟩, ?_⟩
  rw [hp]

end Ferrix.Vfs.MountLoops
