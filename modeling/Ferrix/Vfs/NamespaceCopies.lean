import Ferrix.Vfs.MountCalls

/-!
A copy of a namespace has a mount for each of the original's.  Its table is a tree because putting
the copies in one after the other would have made it one.
-/

namespace Ferrix.Vfs.NamespaceCopies

open Relation Foundations Programs SortedMaps ParentPointers Dentries Mounts
open MountTables MountLoops MountCopies MountCalls Function List Program

variable {w w' : World} {t : TreeRef} {space : Namespace} {m : MountRef} {loc : Location}

def covered (w : World) (ms : List MountRef) : List DentryId :=
  ms.filterMap fun m => (w.mounts m).parent.map Location.dentry

lemma each_count_run (f : Dcache → DentryId → Dcache) (ms : List MountRef) (w : World) :
    (each (fun m => modify fun w =>
      match (w.mounts m).parent with
      | some loc => w.setCache (f w.cache loc.dentry)
      | none => w) ms : Call Unit) w = (.ok (), w.setCache ((covered w ms).foldl f w.cache)) := by
  induction ms generalizing w with
  | nil => rfl
  | cons m ms ih =>
    rw [each, covered, filterMap_cons]
    cases hp : (w.mounts m).parent with
    | none =>
      refine (bind_modify_run ?_).trans (ih w)
      rw [hp]
    | some loc =>
      have hs : (match (w.mounts m).parent with
          | some loc => w.setCache (f w.cache loc.dentry)
          | none => w) = w.setCache (f w.cache loc.dentry) := by rw [hp]
      exact (bind_modify_run hs).trans (ih (w.setCache (f w.cache loc.dentry)))

lemma each_free_run (ms : List MountRef) (w : World) :
    (each (fun m => modify fun w => w.setParent m none) ms : Call Unit) w =
      (.ok (), { w with mounts := fun n =>
        if n ∈ ms then { w.mounts n with parent := none } else w.mounts n }) := by
  induction ms generalizing w with
  | nil => rfl
  | cons m ms ih =>
    refine (bind_modify_run rfl).trans ((ih (w.setParent m none)).trans ?_)
    refine congrArg (fun mounts => (Except.ok (), { w with mounts := mounts })) ?_
    funext n
    rw [mounts_setParent]
    by_cases hm : n = m
    · subst hm
      rw [if_pos rfl, if_pos mem_cons_self]
      split_ifs <;> rfl
    · rw [if_neg hm]
      by_cases hn : n ∈ ms
      · rw [if_pos hn, if_pos (mem_cons_of_mem _ hn)]
      · rw [if_neg hn, if_neg (by simp [hm, hn])]

lemma mounts_foldl_removeMount (ds : List DentryId) (cache : Dcache) (d : DentryId) :
    ((ds.foldl Dcache.removeMount cache).dentries d).mounts =
      (cache.dentries d).mounts - ds.count d := by
  induction ds generalizing cache with
  | nil => rfl
  | cons e ds ih =>
    rw [foldl_cons, ih, mounts_removeMount, count_cons]
    by_cases h : e = d
    · simp only [h, if_true, beq_self_eq_true]
      omega
    · simp [h]

lemma dentries_foldl_removeMount (ds : List DentryId) (cache : Dcache) {d : DentryId}
    (hd : d ∉ ds) : (ds.foldl Dcache.removeMount cache).dentries d = cache.dentries d := by
  induction ds generalizing cache with
  | nil => rfl
  | cons e ds ih =>
    rw [mem_cons, not_or] at hd
    rw [foldl_cons, ih _ hd.2, dentries_removeMount_of_ne _ hd.1]

lemma covered_next (w : World) (ms : List MountRef) :
    ((covered w ms).foldl Dcache.removeMount w.cache).next = w.cache.next := by
  have hfold : ∀ (ds : List DentryId) (cache : Dcache),
      (ds.foldl Dcache.removeMount cache).next = cache.next := by
    intro ds
    induction ds with
    | nil => exact fun cache => rfl
    | cons e ds ih => exact fun cache => (ih (cache.removeMount e)).trans rfl
  exact hfold _ _

def dropped (w : World) (t : TreeRef) (ms : List MountRef) : World :=
  { w with
    mounts := fun n => if n ∈ ms then { w.mounts n with parent := none } else w.mounts n
    cache := (covered w ms).foldl Dcache.removeMount w.cache
    spaces := update w.spaces t none }

lemma dropNamespace_run (w : World) (t : TreeRef) : (dropNamespace t : Call Unit) w =
      (.ok (), dropped w t ((w.table t).entries.map Prod.snd)) := by
  refine (bind_of_ok (view_run _ w)).trans ?_
  refine (bind_modify_run rfl).trans ?_
  refine (bind_of_ok (each_count_run _ _ _)).trans ?_
  refine (bind_of_ok (each_free_run _ _)).trans ?_
  refine congrArg (fun spaces => (Except.ok (), { dropped w t _ with spaces := spaces })) ?_
  exact update_idem _ _ _

lemma spaces_dropped {ms : List MountRef} (u : TreeRef) :
    (dropped w t ms).spaces u = if u = t then none else w.spaces u :=
  update_apply _ _ _ _

lemma covered_entries (h : Sound w) (hs : w.spaces t = some space) :
    covered w (space.table.entries.map Prod.snd) =
      space.table.entries.map fun e => (ofLex e.1).2 := by
  have hp : ∀ e ∈ space.table.entries,
      (w.mounts e.2).parent.map Location.dentry = some (ofLex e.1).2 := by
    rintro ⟨k, m⟩ he
    obtain ⟨-, loc, hp, rfl⟩ :=
      h.keyed t space hs k m (SortedMap.get?_eq_some.mpr he)
    rw [hp]
    rfl
  rw [covered, filterMap_map]
  exact (filterMap_congr hp).trans (congrFun filterMap_eq_map' _)

lemma dropped_within (h : Sound w) (hs : w.spaces t = some space) :
    Within t w (dropped w t (space.table.entries.map Prod.snd)) where
  id n := by
    rw [dropped, apply_ite Mount.id, ite_self]
  tree n := by
    rw [dropped, apply_ite Mount.tree, ite_self]
  mounts n hn := by
    refine if_neg fun hm => ?_
    obtain ⟨k, hg⟩ := mem_values.mp hm
    exact hn (h.keyed t space hs k n hg).1
  made := rfl
  nextMount := rfl
  spaces u hu := (spaces_dropped u).trans (if_neg hu)
  spaceCount := rfl

lemma dropped_trees (htrees : Trees w) (hs : w.spaces t = some space) :
    Trees (dropped w t (space.table.entries.map Prod.snd)) := by
  have h := htrees.sound
  have hwithin := dropped_within h hs
  have hnone : (dropped w t (space.table.entries.map Prod.snd)).spaces t = none :=
    (spaces_dropped t).trans (if_pos rfl)
  have hlt := h.lt_spaceCount hs
  have hcovered := covered_entries h hs
  have hn := covered_next w (space.table.entries.map Prod.snd)
  refine hwithin.trees htrees (hwithin.sound h hlt ?_ ?_ ?_) ?_
  · intro space' hs'
    cases hnone.symm.trans hs'
  · intro d
    have htotal := hwithin.total hlt d
    rw [table_eq hs, World.table, hnone] at htotal
    change _ = _ + 0 at htotal
    have hcount := h.counted d
    change (((covered w _).foldl Dcache.removeMount w.cache).dentries d).mounts = _
    rw [mounts_foldl_removeMount, hcovered]
    change (w.dentry d).mounts - covers space.table d = _
    omega
  · intro d hd
    have hd : w.cache.next ≤ d := hn.symm.trans_le hd
    change ((covered w _).foldl Dcache.removeMount w.cache).dentries d = _
    rw [dentries_foldl_removeMount]
    · exact h.dentries_fresh d hd
    · rw [hcovered]
      intro hm
      obtain ⟨⟨k, m⟩, he, rfl⟩ := mem_map.mp hm
      exact (h.covered_lt hs (SortedMap.get?_eq_some.mpr he)).not_ge hd
  · intro space' hs'
    cases hnone.symm.trans hs'

lemma dropNamespace_keeps (h : Trees w) (t : TreeRef) : Keeps (dropNamespace t) w := by
  rw [Keeps, Program.Ends, dropNamespace_run]
  cases hs : w.spaces t with
  | none =>
    have htable : w.table t = ∅ := by
      rw [World.table, hs]
      rfl
    rw [htable]
    have hsame : SameMounts w (dropped w t []) := by
      refine ⟨?_, rfl, le_rfl, ?_, rfl, fun _ => rfl, h.sound.dentries_fresh⟩
      · funext n
        simp [dropped]
      · exact (congrArg (update w.spaces t) hs.symm).trans (update_eq_self t w.spaces)
    exact hsame.trees h
  | some space =>
    rw [table_eq hs]
    exact dropped_trees h hs

def installed (w : World) (root : MountRef) : World :=
  { w with
    spaces := update w.spaces w.spaceCount (some ⟨root, ∅⟩)
    spaceCount := w.spaceCount + 1 }

lemma installed_trees {root : MountRef} (htrees : Trees w)
    (hf : (w.mounts root).parent = none) (ht : (w.mounts root).tree = some w.spaceCount) :
    Trees (installed w root) := by
  obtain ⟨h, hrooted⟩ := htrees
  have hspaces : ∀ u, (installed w root).spaces u =
      if u = w.spaceCount then some ⟨root, ∅⟩ else w.spaces u :=
    fun u => update_apply _ _ _ _
  have hcases : ∀ u space', (installed w root).spaces u = some space' →
      w.spaces u = some space' ∨ u = w.spaceCount ∧ space' = ⟨root, ∅⟩ := by
    intro u space' hs'
    rw [hspaces] at hs'
    split_ifs at hs' with hu
    · exact .inr ⟨hu, (Option.some.inj hs').symm⟩
    · exact .inl hs'
  refine ⟨⟨?_, ?_, ?_, ?_, ?_, ?_, ?_, ?_, ?_⟩, ?_⟩
  · intro u space' hs' k n hg
    rcases hcases u space' hs' with hs' | ⟨-, rfl⟩
    · exact h.keyed u space' hs' k n hg
    · cases hg
  · intro u space' hs'
    rcases hcases u space' hs' with hs' | ⟨rfl, rfl⟩
    · exact h.root u space' hs'
    · exact ⟨hf, ht⟩
  · intro u space' hs'
    rcases hcases u space' hs' with hs' | ⟨-, rfl⟩
    · exact h.bounded u space' hs'
    · change 0 + 1 ≤ 4096
      omega
  · intro d
    have hold : ∀ u ∈ Finset.range w.spaceCount,
        covers ((installed w root).table u) d = covers (w.table u) d := by
      intro u hu
      rw [World.table, hspaces, if_neg (Finset.mem_range.mp hu).ne]
      rfl
    have hnew : (installed w root).table w.spaceCount = ∅ := by
      rw [World.table, hspaces, if_pos rfl]
      rfl
    have htotal : total (installed w root) d = total w d := by
      change ∑ u ∈ Finset.range (w.spaceCount + 1), covers ((installed w root).table u) d = _
      rw [Finset.sum_range_succ, Finset.sum_congr rfl hold, hnew]
      rfl
    rw [htotal]
    exact h.counted d
  · exact h.distinct
  · exact h.numbered
  · exact h.mounts_fresh
  · intro u hu
    have hlt : w.spaceCount < u := hu
    rw [hspaces, if_neg hlt.ne']
    exact h.spaces_fresh u hlt.le
  · exact h.dentries_fresh
  · intro u space' hs'
    rcases hcases u space' hs' with hs' | ⟨-, rfl⟩
    · exact (hrooted u space' hs').congr rfl
    · refine ⟨fun k n hg => (by cases hg), ?_⟩
      rintro n (rfl | ⟨k, hg⟩)
      · exact .refl
      · cases hg

lemma placedAll_eq (hs : w.spaces t = some space) (entries : List (MountRef × Location)) :
    placedAll w t entries =
      { w with
        spaces := update w.spaces t (some { space with
          table := entries.foldl (fun table e => table.insert (w.key e.2) e.1) space.table })
        cache := (entries.map fun e => e.2.dentry).foldl Dcache.addMount w.cache } := by
  induction entries generalizing w space with
  | nil =>
    have hspaces : update w.spaces t (some space) = w.spaces := by
      rw [← hs, update_eq_self]
    change w = ({ w with spaces := update w.spaces t (some space) } : World)
    rw [hspaces]
  | cons e l ih =>
    have hs' := (spaces_placed hs e.1 e.2 t).trans (if_pos rfl)
    refine (ih hs').trans ?_
    have hspaces : (placed w t e.1 e.2).spaces = update w.spaces t (some
        { space with table := space.table.insert (w.key e.2) e.1 }) := by
      funext u
      rw [spaces_placed hs, update_apply]
    rw [hspaces, update_idem]
    rfl

section

variable {c : Copying} {charges : List Bool}

/-- A copying of a whole namespace for a new one. -/
structure CopiesSpace (w : World) (space : Namespace) (c : Copying) : Prop where
  tree : c.tree = w.spaceCount
  top : c.top = space.root
  root : c.root = (w.mounts space.root).root
  parent : c.parent = none
  copyable : Copyable w space c
  all : ∀ m, InTree space m ↔ m ∈ c.originals

lemma copyMounts_all (h : Trees w) (hc : CopiesSpace w space c)
    (hdistinct : (c.originals.map fun m => (w.mounts m).id).Nodup)
    (hf : (w.mounts space.root).parent = none) :
    Program.Ends (copyMounts c.tree (fun _ => none) [] ∅ c.originals) w
      (fun copied w' => Indexes w copied.1 c.originals ∧ copied.2.1 = copies w c.originals.length ∧
        copied.2.2 = c.copiedTable w c.originals.length ∧
        ∃ charges, w' = c.replicated w c.originals.length charges) (fun _ => Trees) := by
  have hlt : c.top < w.made := hc.copyable.old c.top mem_cons_self
  have hindexes : Indexes w (update (fun _ => none) (w.mounts c.top).id (some 0)) [c.top] := by
    constructor
    · intro p hp
      rw [mem_singleton.mp hp, update_self, idxOf_cons_self]
    · intro id hid
      exact update_of_ne (hid c.top (mem_singleton_self c.top)).symm _ _
  have htable : c.copiedTable w [c.top].length = ∅ := by
    have hnone : (c.replica w 0).parent = none := hc.parent
    rw [length_singleton, Copying.copiedTable, hangings_succ, hnone]
    rfl
  refine .bind_view ?_
  rw [hc.top, hf]
  refine .bind_pure ?_
  refine .bind_view ?_
  rw [← hc.root, ← hc.top, ← hc.parent]
  refine (copyOf_first h hlt).bind ?_
  rintro _ _ ⟨rfl, charges, rfl⟩
  refine .bind_view ?_
  refine .bind_view ?_
  rw [mounts_replicated_old hlt, hc.parent]
  have hsplit : [c.top] ++ c.below = c.originals := rfl
  have hrest : Program.Ends _ (c.replicated w [c.top].length charges) _ _ :=
    copyMounts_ends h hsplit (by simp) hc.copyable.old hc.copyable.grows hdistinct hindexes
  rw [htable] at hrest
  exact hrest

lemma covered_copies (hparent : c.parent = none) (charges : List Bool) :
    covered (c.replicated w c.originals.length charges) (copies w c.originals.length).tail =
      (c.hangings w c.originals.length).map fun e => e.2.dentry := by
  have htail : (copies w c.originals.length).tail =
      (List.range' 1 c.below.length).map (w.made + ·) := by
    rw [copies, Copying.originals, length_cons, range_eq_range', List.range'_succ]
    rfl
  rw [htail, hangings_originals, hparent, covered, filterMap_map]
  refine Eq.trans (filterMap_congr fun i hi => ?_) (map_filterMap ..).symm
  have hlt : i < c.originals.length := by
    rw [mem_range'_1] at hi
    rw [Copying.originals, length_cons]
    omega
  rw [comp_apply, mounts_replicated_new hlt, Option.map_map]
  rfl

def withCopy (w : World) (c : Copying) (charges : List Bool) : World :=
  { c.replicated w c.originals.length charges with
    cache := ((c.hangings w c.originals.length).map fun entry =>
      entry.2.dentry).foldl Dcache.addMount w.cache
    spaces := update w.spaces c.tree (some ⟨w.made, c.copiedTable w c.originals.length⟩)
    spaceCount := c.tree + 1 }

lemma withCopy_eq (htree : c.tree = w.spaceCount) (charges : List Bool) : withCopy w c charges =
    placedAll (installed (c.replicated w c.originals.length charges) w.made) c.tree
      (c.hangings w c.originals.length) := by
  have hinstalled : (installed (c.replicated w c.originals.length charges) w.made).spaces =
      update w.spaces c.tree (some ⟨w.made, ∅⟩) := by
    rw [htree]
    rfl
  have hs := (congrFun hinstalled c.tree).trans (update_self _ _ _)
  rw [placedAll_eq hs, hinstalled, update_idem, withCopy, htree]
  rfl

lemma withCopy_trees (h : Trees w) (hs : w.spaces t = some space) (hc : CopiesSpace w space c)
    (charges : List Bool) : Trees (withCopy w c charges) ∧
      ∃ space', (withCopy w c charges).spaces c.tree = some space' ∧ space'.root = w.made ∧
        ∀ k n, space'.table.get? k = some n ↔
          ∃ loc, (n, loc) ∈ c.hangings w c.originals.length ∧
            (withCopy w c charges).key loc = k := by
  let made := c.replicated w c.originals.length charges
  have hf : made.mounts w.made = c.replica w 0 := mounts_replicated_new (Nat.succ_pos _)
  have hinstalled : Trees (installed made w.made) := by
    refine installed_trees (replicated_trees h _ _) ?_ ?_
    · exact (congrArg Mount.parent hf).trans hc.parent
    · exact (congrArg Mount.tree hf).trans (congrArg some hc.tree)
  have hin : ∀ j < 1, w.made + j ∈ ({w.made} : Set MountRef) := by
    intro j hj
    obtain rfl : j = 0 := by omega
    rfl
  have hhangings := hangings_originals (w := w) (c := c)
  rw [hc.parent] at hhangings
  have hattach : Attachable made c.tree {w.made} ∅ (c.hangings w c.originals.length) := by
    rw [hhangings]
    exact hc.copyable.attachable h.sound hs Nat.one_pos (Nat.add_comm _ _) hin
      fun k hk => absurd hk (Set.notMem_empty k)
  have hattach' : Attachable (installed made w.made) c.tree {w.made} ∅
      (c.hangings w c.originals.length) := hattach.congr (by rfl) (by rfl)
  have hroom : (c.hangings w c.originals.length).length ≤ space.table.size := by
    rw [hhangings]
    refine (length_filterMap_le _ _).trans ?_
    rw [length_range']
    have hsub : c.below ⊆ space.table.entries.map Prod.snd := fun m hm =>
      mem_values.mpr (hc.copyable.inside m hm)
    have hlen := (subperm_of_subset (nodup_cons.mp hc.copyable.nodup).2 hsub).length_le
    rwa [length_map] at hlen
  have hb : (∅ : Table).size + 1 + (c.hangings w c.originals.length).length ≤ mountMax := by
    have hs' := h.sound.bounded t space hs
    change 0 + 1 + _ ≤ mountMax
    omega
  have he : (installed made w.made).spaces c.tree = some ⟨w.made, ∅⟩ := by
    rw [hc.tree]
    exact update_self _ _ _
  have hinside : ∀ n ∈ ({w.made} : Set MountRef), InTree ⟨w.made, ∅⟩ n := fun n hn => .inl hn
  have hplaced := placedAll_trees hinstalled he hinside (fun k hk => absurd rfl hk) hattach' hb
  rw [← withCopy_eq hc.tree] at hplaced
  obtain ⟨h', space', hs', hr, hentries⟩ := hplaced
  refine ⟨h', space', hs', hr, fun k n => (hentries k n).trans ?_⟩
  exact or_iff_right fun h => by cases h

end

variable {c : Copying} {originals found : List MountRef} {charges : List Bool}

section

/-- A place of one tree, in another whose mounts are the images of the first's. -/
def moved (f : MountRef → MountRef) (loc : Location) : Location := ⟨f loc.mount, loc.dentry⟩

/-- A namespace that is another with each of its mounts replaced by an image of its own. -/
structure Isomorphic (w : World) (space : Namespace) (w' : World) (space' : Namespace)
    (f : MountRef → MountRef) : Prop where
  root : space'.root = f space.root
  injective : ∀ m n, InTree space m → InTree space n → f m = f n → m = n
  image : ∀ n, InTree space' n ↔ ∃ m, InTree space m ∧ f m = n
  mounts : ∀ m, InTree space m → (w'.mounts (f m)).flags = (w.mounts m).flags ∧
    (w'.mounts (f m)).sb = (w.mounts m).sb ∧ (w'.mounts (f m)).root = (w.mounts m).root ∧
    (w'.mounts (f m)).parent = (w.mounts m).parent.map (moved f)
  entries : ∀ loc m, InTree space loc.mount → InTree space m →
    (space.table.get? (w.key loc) = some m ↔
      space'.table.get? (w'.key (moved f loc)) = some (f m))

lemma get?_key (h : Sound w) (hs : w.spaces t = some space)
    (hloc : InTree space loc.mount) (hm : InTree space m)
    (howned : ∀ k m, space.table.get? k = some m →
      ∃ loc, (w.mounts m).parent = some loc ∧ InTree space loc.mount) :
    space.table.get? (w.key loc) = some m ↔ (w.mounts m).parent = some loc := by
  constructor
  · intro hg
    obtain ⟨loc', hp, hin⟩ := howned _ m hg
    have hk := h.key_eq hs hg hp
    have ht := h.tree_of_inTree hs hloc
    have ht' := h.tree_of_inTree hs hin
    rw [hp, h.key_injective (by simp [ht']) (by simp [ht]) hk]
  · intro hp
    rcases hm with rfl | ⟨k, hg⟩
    · rw [(h.root t space hs).1] at hp
      cases hp
    · rwa [h.key_eq hs hg hp]

def copied (w : World) (originals : List MountRef) (m : MountRef) : MountRef :=
  w.made + originals.idxOf m

lemma mounts_withCopy_old {m : Nat} (hm : m < w.made) :
    (withCopy w c charges).mounts m = w.mounts m := by
  change (c.replicated w c.originals.length charges).mounts m = _
  exact mounts_replicated_old hm

lemma mounts_copied (hc : CopiesSpace w space c) (charges : List Bool)
    (hf : (w.mounts space.root).parent = none) (hm : m ∈ c.originals) :
    (withCopy w c charges).mounts (copied w c.originals m) =
      { id := w.nextMount + c.originals.idxOf m
        flags := (w.mounts m).flags
        sb := (w.mounts m).sb
        root := (w.mounts m).root
        parent := (w.mounts m).parent.map (moved (copied w c.originals))
        tree := some c.tree } := by
  have hlt : c.originals.idxOf m < c.originals.length := idxOf_lt_length_iff.mpr hm
  have hg : c.originals.getD (c.originals.idxOf m) 0 = m := by
    rw [getD_eq_getElem?_getD, List.getElem?_eq_getElem hlt, getElem_idxOf]
    rfl
  change (c.replicated w c.originals.length charges).mounts (w.made + c.originals.idxOf m) = _
  rw [mounts_replicated_new hlt, Copying.replica, hg]
  by_cases hzero : c.originals.idxOf m = 0
  · have htop : c.top = m := by
      rw [hzero] at hg
      exact hg
    obtain rfl : m = space.root := htop.symm.trans hc.top
    rw [if_pos hzero, if_pos hzero, hf, hc.root, hc.parent]
    rfl
  · rw [if_neg hzero, if_neg hzero]
    rfl

lemma withCopy_isomorphic {w' : World} (h : Trees w) (hs : w.spaces t = some space)
    (hc : CopiesSpace w space c) (hw' : w' = withCopy w c charges) :
    Trees w' ∧ ∃ space', w'.spaces c.tree = some space' ∧
      Isomorphic w space w' space' (copied w c.originals) := by
  subst hw'
  obtain ⟨h', space', hs', hr, hentries⟩ := withCopy_trees h hs hc charges
  refine ⟨h', space', hs', ?_⟩
  have hf := (h.sound.root t space hs).1
  have hmounts : ∀ m, InTree space m → _ := fun m hm =>
    mounts_copied hc charges hf ((hc.all m).mp hm)
  -- The copy of a mount is numbered by its place in the walk, which lists each mount once.
  have hinjective : ∀ m n, InTree space m → InTree space n →
      copied w c.originals m = copied w c.originals n → m = n := by
    intro m n hm hn heq
    exact (idxOf_inj ((hc.all m).mp hm)).mp (Nat.add_left_cancel heq)
  have hfirst : copied w c.originals space.root = w.made := by
    rw [copied, ← hc.top, Copying.originals, idxOf_cons_self]
    rfl
  have himage : ∀ n, InTree space' n ↔ ∃ m, InTree space m ∧ copied w c.originals m = n := by
    intro n
    constructor
    · rintro (rfl | ⟨k, hg⟩)
      · exact ⟨space.root, .inl rfl, hfirst.trans hr.symm⟩
      · obtain ⟨loc, hmem, -⟩ := (hentries k n).mp hg
        obtain ⟨i, hi, hfst, -⟩ := mem_hangings.mp hmem
        refine ⟨c.originals[i], (hc.all _).mpr (getElem_mem hi), ?_⟩
        rw [copied, hc.copyable.nodup.idxOf_getElem i hi]
        exact hfst.symm
    · rintro ⟨m, hm, rfl⟩
      by_cases hm' : m = c.top
      · rw [hm', hc.top, hfirst]
        exact .inl hr.symm
      · have hlt := idxOf_lt_length_iff.mpr ((hc.all m).mp hm)
        have hpos : 0 < c.originals.idxOf m := by
          rw [Copying.originals, idxOf_cons_ne _ (Ne.symm hm')]
          exact Nat.succ_pos _
        obtain ⟨original, loc, -, -, -, -, -, hp⟩ := hc.copyable.hanging hpos hlt
        exact .inr ⟨_, (hentries _ _).mpr ⟨_, mem_hangings.mpr ⟨_, hlt, rfl, hp⟩, rfl⟩⟩
  refine ⟨hr.trans hfirst.symm, hinjective, himage, ?_, ?_⟩
  · intro m hm
    rw [hmounts m hm]
    exact ⟨rfl, rfl, rfl, rfl⟩
  · intro loc m hloc hm
    have hloc' : InTree space' (moved (copied w c.originals) loc).mount :=
      (himage _).mpr ⟨loc.mount, hloc, rfl⟩
    have hm' : InTree space' (copied w c.originals m) := (himage _).mpr ⟨m, hm, rfl⟩
    rw [get?_key h.sound hs hloc hm (h.rooted t space hs).owned,
      get?_key h'.sound hs' hloc' hm' (h'.rooted _ space' hs').owned,
      hmounts m hm]
    constructor
    · intro hp
      rw [hp]
      rfl
    · intro hp
      obtain ⟨loc', hp', hmoved⟩ := Option.map_eq_some_iff.mp hp
      have hin : InTree space loc'.mount := by
        rcases hm with rfl | ⟨k, hg⟩
        · rw [hf] at hp'
          cases hp'
        · obtain ⟨loc'', hp'', hin⟩ := (h.rooted t space hs).owned k m hg
          rwa [Option.mem_unique hp' hp'']
      have hmount := hinjective _ _ hin hloc (congrArg Location.mount hmoved)
      have hdentry : (moved (copied w c.originals) loc').dentry =
          (moved (copied w c.originals) loc).dentry := congrArg Location.dentry hmoved
      rw [hp']
      cases loc
      cases loc'
      simp only [moved] at hmount hdentry
      rw [hmount, hdentry]

end

lemma inTree_iff_mem (h : Trees w) (hs : w.spaces t = some space)
    (hgathered : Gathered w.above (space.table.entries.map Prod.snd) space.root found)
    (hstart : ∀ k n, space.table.get? k = some n → w.above n = some space.root → n ∈ found)
    (m : MountRef) : InTree space m ↔ m ∈ space.root :: found := by
  constructor
  · intro hm
    have hclimbs := (h.rooted t space hs).climbs m hm
    induction hclimbs using ReflTransGen.head_induction_on with
    | refl => exact mem_cons_self
    | head habove _ ih =>
      rcases hm with rfl | ⟨k, hg⟩
      · exact mem_cons_self
      · obtain ⟨loc, hp, hin⟩ := (h.rooted t space hs).owned k _ hg
        have hloc := habove
        rw [World.above, hp] at hloc
        obtain rfl := Option.some.inj hloc
        refine mem_cons_of_mem _ ?_
        rcases mem_cons.mp (ih hin) with hr | hmem
        · exact hstart k _ hg (habove.trans (congrArg some hr))
        · exact hgathered.closed _ hmem _ (mem_values.mpr ⟨k, hg⟩) habove
  · exact fun hm => (mem_cons.mp hm).imp_right fun hm => mem_values.mp (hgathered.subset m hm)

lemma index_eq {i : Nat → Option Nat} (h : Sound w) (h' : Sound w')
    (hold : ∀ m ∈ originals, w'.mounts m = w.mounts m)
    (ht : ∀ m ∈ originals, (w.mounts m).tree ≠ none) (hindexes : Indexes w i originals)
    (m : MountRef) : (i (w'.mounts m).id).bind ((copies w originals.length)[·]?) =
      if m ∈ originals then some (copied w originals m) else none := by
  split_ifs with hm
  · rw [hold m hm, hindexes.found m hm]
    exact copies_getElem? w (idxOf_lt_length_iff.mpr hm)
  · have hmissed : i (w'.mounts m).id = none := by
      refine hindexes.missed _ fun p hp hid => hm ?_
      have hnumbered : (w'.mounts m).tree ≠ none := by
        intro hnone
        have hzero := (h'.numbered m).2.mp hnone
        exact ht p hp ((h.numbered p).2.mpr (hid.trans hzero))
      have hptree : (w'.mounts p).tree ≠ none := by
        rw [hold p hp]
        exact ht p hp
      have hsame : p = m := h'.distinct p m hptree hnumbered (by rw [hold p hp, hid])
      rwa [← hsame]
    rw [hmissed]
    rfl

/-- What copying a namespace leaves: a namespace like it, the places given moved along with their
mounts, and every other namespace as it was. -/
structure Copied (w : World) (t : TreeRef) (places : List Location)
    (result : TreeRef × List Location) (w' : World) : Prop where
  trees : Trees w'
  copy : ∃ space space' f, w.spaces t = some space ∧ w.spaces result.1 = none ∧
    w'.spaces result.1 = some space' ∧ Isomorphic w space w' space' f ∧
    result.2 = places.map fun place => if w.owns t place.mount then moved f place else place
  kept : ∀ u space, w.spaces u = some space →
    w'.spaces u = some space ∧ ∀ m, InTree space m → w'.mounts m = w.mounts m

lemma install_run (hc : CopiesSpace w space c) (result : TreeRef × List Location) : (do
      each (fun m => modify fun w =>
        match (w.mounts m).parent with
        | some loc => w.setCache (w.cache.addMount loc.dentry)
        | none => w) (copies w c.originals.length).tail
      modify fun w' => { w' with
        spaces := update w'.spaces c.tree (some ⟨w.made, c.copiedTable w c.originals.length⟩)
        spaceCount := c.tree + 1 }
      pure result : Call (TreeRef × List Location)) (c.replicated w c.originals.length charges) =
        (.ok result, withCopy w c charges) := by
  refine (bind_of_ok (each_count_run _ _ _)).trans ?_
  rw [covered_copies hc.parent]
  exact bind_modify_run rfl

lemma copyTree_ends (h : Trees w) (hs : w.spaces t = some space) (hc : CopiesSpace w space c)
    (places : List Location) : Program.Ends (do
        let (i, made, table) ← copyMounts c.tree (fun _ => none) [] ∅ c.originals
        let newRoot ← ofOption made.head? .inval
        let moved ← view fun w => places.map fun p =>
          match (i (w.mounts p.mount).id).bind (made[·]?) with
          | some m => { p with mount := m }
          | none => p
        each (fun m => modify fun w =>
          match (w.mounts m).parent with
          | some loc => w.setCache (w.cache.addMount loc.dentry)
          | none => w) made.tail
        modify fun w' => { w' with
          spaces := update w'.spaces c.tree (some ⟨newRoot, table⟩)
          spaceCount := c.tree + 1 }
        pure (c.tree, moved)) w (Copied w t places) (fun _ => Trees) := by
  have ht : ∀ m ∈ c.originals, (w.mounts m).tree ≠ none := by
    intro m hm
    rw [h.sound.tree_of_inTree hs ((hc.all m).mpr hm)]
    exact Option.some_ne_none t
  have hf := (h.sound.root t space hs).1
  have hids : (c.originals.map fun m => (w.mounts m).id).Nodup := hc.copyable.nodup.map_on
    fun m hm n hn hid => h.sound.distinct m n (ht m hm) (ht n hn) hid
  refine (copyMounts_all h hc hids hf).bind ?_
  rintro ⟨i, made, table⟩ _ ⟨hindexes, rfl, rfl, charges, rfl⟩
  have hold : ∀ m ∈ c.originals, (c.replicated w c.originals.length charges).mounts m =
      w.mounts m := fun m hm => mounts_replicated_old (hc.copyable.old m hm)
  have hhead : (copies w c.originals.length).head? = some w.made := by
    rw [copies, Copying.originals, length_cons, range_succ_eq_map]
    rfl
  have hi := index_eq h.sound (replicated_trees h _ _).sound hold ht hindexes
  refine .bind_some hhead ?_
  refine .bind_view ?_
  refine .of_run (install_run hc _) ?_
  obtain ⟨h', space', hs', hisomorphic⟩ := withCopy_isomorphic h hs hc rfl
  have hfresh : w.spaces c.tree = none := h.sound.spaces_fresh _ hc.tree.ge
  refine ⟨h', ⟨space, space', _, hs, hfresh, hs', hisomorphic, ?_⟩, ?_⟩
  · refine map_congr_left fun p _ => ?_
    rw [hi p.mount]
    have howns := (h.sound.owns_iff (m := p.mount) hs).trans (hc.all p.mount)
    by_cases hm : p.mount ∈ c.originals
    · rw [if_pos hm, if_pos (howns.mpr hm)]
      rfl
    · rw [if_neg hm, if_neg fun h => hm (howns.mp h)]
  · intro u space₁ hspace₁
    have hne : u ≠ c.tree := ((h.sound.lt_spaceCount hspace₁).trans_eq hc.tree.symm).ne
    refine ⟨(update_of_ne hne _ _).trans hspace₁, fun m hm => ?_⟩
    exact mounts_withCopy_old (lt_made h.sound hspace₁ hm)

lemma copy_ends (h : Trees w) (t : TreeRef) (places : List Location) :
    Program.Ends (copy t places) w (Copied w t places) (fun _ => Trees) := by
  refine bind_charge h fun charges htrees₀ => ?_
  refine .bind_view ?_
  refine .bind_option htrees₀ fun r hr => ?_
  obtain ⟨space, hs, rfl⟩ := Option.map_eq_some_iff.mp hr
  refine (descendants_ends htrees₀ hs (.inl rfl)).bind ?_
  rintro found _ ⟨⟨charges₁, rfl⟩, hgathered, hstart⟩
  have htrees₁ : Trees { w with charges := charges₁ } :=
    (sameMounts_charges h.sound charges₁).trees h
  refine bind_charge htrees₁ fun charges₂ htrees₂ => ?_
  refine .bind_view ?_
  refine bind_charge htrees₂ fun charges₃ htrees₃ => ?_
  have hall := inTree_iff_mem h hs hgathered (hstart rfl)
  have hc : CopiesSpace { w with charges := charges₃ } space
      ⟨w.spaceCount, space.root, found, (w.mounts space.root).root, none⟩ :=
    ⟨rfl, rfl, rfl, rfl, copyable_of_gathered htrees₃.sound hs (.inl rfl) hgathered, hall⟩
  refine (copyTree_ends htrees₃ hs hc places).mono_ok ?_
  rintro ⟨c, places'⟩ w' ⟨h', ⟨space₀, space', f, hspace₀, hnone, hs', hiso, hplaces⟩, hkept⟩
  refine ⟨h', ⟨space₀, space', f, hspace₀, hnone, hs', ?_, hplaces⟩, hkept⟩
  exact { hiso with }

end Ferrix.Vfs.NamespaceCopies
