import Ferrix.Vfs.Mounts

/-!
An entry is where its mount's parent pointer says, each dentry counts the entries of all tables
that cover it, and identifiers name one mount each.
-/

namespace Ferrix.Vfs.MountTables

open Foundations SortedMaps ParentPointers Dentries Mounts Function SortedMap Finset
open World

variable {w w' : World} {t u : TreeRef} {space : Namespace} {table : Table} {key : Key}
variable {m n : MountRef} {loc : Location} {d : DentryId}

def covers (table : Table) (d : DentryId) : Nat :=
  (table.entries.map fun entry => (ofLex entry.1).2).count d

def total (w : World) (d : DentryId) : Nat :=
  ∑ t ∈ Finset.range w.spaceCount, covers (w.table t) d

/-- The mount is the bottom one or in the table. -/
def InTree (space : Namespace) (m : MountRef) : Prop :=
  m = space.root ∨ ∃ key, space.table.get? key = some m

def Keyed (w : World) (t : TreeRef) (space : Namespace) : Prop :=
  ∀ key m, space.table.get? key = some m →
    (w.mounts m).tree = some t ∧ ∃ loc, (w.mounts m).parent = some loc ∧ w.key loc = key

/-- The mounts of a table sit on one another, down to the bottom mount. -/
structure Rooted (w : World) (space : Namespace) : Prop where
  owned : ∀ key m, space.table.get? key = some m →
    ∃ loc, (w.mounts m).parent = some loc ∧ InTree space loc.mount
  climbs : ∀ m, InTree space m → Climbs w.above m space.root

structure Sound (w : World) : Prop where
  keyed : ∀ t space, w.spaces t = some space → Keyed w t space
  root : ∀ t space, w.spaces t = some space →
    (w.mounts space.root).parent = none ∧ (w.mounts space.root).tree = some t
  bounded : ∀ t space, w.spaces t = some space → space.table.size + 1 ≤ mountMax
  counted : ∀ d, (w.dentry d).mounts = total w d
  distinct : ∀ m n, (w.mounts m).tree ≠ none → (w.mounts n).tree ≠ none →
    (w.mounts m).id = (w.mounts n).id → m = n
  numbered : ∀ m, (w.mounts m).id < w.nextMount ∧
    ((w.mounts m).tree = none ↔ (w.mounts m).id = detachedMount)
  mounts_fresh : ∀ m, w.made ≤ m → w.mounts m = .blank
  spaces_fresh : ∀ t, w.spaceCount ≤ t → w.spaces t = none
  dentries_fresh : ∀ d, w.cache.next ≤ d → w.dentry d = .blank

structure Trees (w : World) : Prop where
  sound : Sound w
  rooted : ∀ t space, w.spaces t = some space → Rooted w space

lemma Rooted.congr (hrooted : Rooted w space) (hmounts : w'.mounts = w.mounts) :
    Rooted w' space := by
  have habove : w'.above = w.above := by
    funext m
    rw [above, above, hmounts]
  constructor
  · rw [hmounts]
    exact hrooted.owned
  · rw [habove]
    exact hrooted.climbs

lemma covers_perm {table : Table} {l : List (Key × MountRef)} (hperm : table.entries.Perm l)
    (d : DentryId) : covers table d = (l.map fun e => (ofLex e.1).2).count d :=
  (hperm.map _).count_eq d

lemma covers_insert (hfresh : table.get? key = none) (m : MountRef) (d : DentryId) :
    covers (table.insert key m) d = covers table d + if (ofLex key).2 = d then 1 else 0 := by
  rw [covers_perm (insert_perm hfresh), List.map_cons, List.count_cons]
  simp [covers]

lemma covers_erase (hg : table.get? key = some m) (d : DentryId) :
    covers (table.erase key) d + (if (ofLex key).2 = d then 1 else 0) = covers table d := by
  rw [covers_perm (perm_erase hg), List.map_cons, List.count_cons]
  simp [covers]

lemma size_insert (hfresh : table.get? key = none) (m : MountRef) :
    (table.insert key m).size = table.size + 1 := by
  have hperm : (table.insert key m).entries.Perm ((key, m) :: table.entries) :=
    insert_perm hfresh
  simpa [size] using hperm.length_eq

lemma size_erase (hg : table.get? key = some m) : (table.erase key).size + 1 = table.size := by
  have hlen := (perm_erase hg).length_eq
  simpa [size] using hlen.symm

section

variable (hs : w.spaces t = some space)
include hs

lemma table_eq : w.table t = space.table := by
  rw [table, hs]
  rfl

lemma spaces_setTable (table : Table) (u : TreeRef) : (w.setTable t table).spaces u =
      if u = t then some { space with table := table } else w.spaces u := by
  rw [setTable, hs]
  change update w.spaces t _ u = _
  rw [update_apply]
  rfl

lemma table_setTable (table : Table) (u : TreeRef) :
    (w.setTable t table).table u = if u = t then table else w.table u := by
  rw [World.table, spaces_setTable hs]
  split_ifs with h
  · rfl
  · rfl

end

lemma mounts_addMount (c : Dcache) (e d : DentryId) : ((c.addMount e).dentries d).mounts =
      (c.dentries d).mounts + if e = d then 1 else 0 := by
  change (update c.dentries e _ d).mounts = _
  rcases eq_or_ne d e with rfl | hne
  · rw [update_self, if_pos rfl]
  · rw [update_of_ne hne, if_neg hne.symm]
    rfl

lemma mounts_removeMount (c : Dcache) (e d : DentryId) : ((c.removeMount e).dentries d).mounts =
      (c.dentries d).mounts - if e = d then 1 else 0 := by
  change (update c.dentries e _ d).mounts = _
  rcases eq_or_ne d e with rfl | hne
  · rw [update_self, if_pos rfl]
  · rw [update_of_ne hne, if_neg hne.symm]
    rfl

lemma dentries_addMount_of_ne (c : Dcache) {e d : DentryId} (hne : d ≠ e) :
    (c.addMount e).dentries d = c.dentries d :=
  update_of_ne hne _ _

lemma dentries_removeMount_of_ne (c : Dcache) {e d : DentryId} (hne : d ≠ e) :
    (c.removeMount e).dentries d = c.dentries d :=
  update_of_ne hne _ _

lemma mounts_setParent (w : World) (m n : MountRef) (p : Option Location) :
    (w.setParent m p).mounts n =
      if n = m then { w.mounts m with parent := p } else w.mounts n := by
  change update w.mounts m _ n = _
  rw [update_apply]

lemma id_setParent (w : World) (m n : MountRef) (p : Option Location) :
    ((w.setParent m p).mounts n).id = (w.mounts n).id := by
  rw [mounts_setParent]
  split_ifs with h
  · rw [h]
  · rfl

lemma tree_setParent (w : World) (m n : MountRef) (p : Option Location) :
    ((w.setParent m p).mounts n).tree = (w.mounts n).tree := by
  rw [mounts_setParent]
  split_ifs with h
  · rw [h]
  · rfl

lemma key_setParent (w : World) (m : MountRef) (p : Option Location) (loc : Location) :
    (w.setParent m p).key loc = w.key loc := by
  rw [key, id_setParent]
  rfl

namespace Sound

variable (h : Sound w)
include h

section

variable (hs : w.spaces t = some space)
include hs

lemma lt_spaceCount : t < w.spaceCount := by
  by_contra hge
  rw [h.spaces_fresh t (not_lt.mp hge)] at hs
  cases hs

lemma tree_of_inTree (hin : InTree space m) : (w.mounts m).tree = some t := by
  rcases hin with rfl | ⟨key, hg⟩
  · exact (h.root t space hs).2
  · exact (h.keyed t space hs key m hg).1

omit hs in
lemma key_injective {loc loc' : Location} (hloc : (w.mounts loc.mount).tree ≠ none)
    (hloc' : (w.mounts loc'.mount).tree ≠ none) (hk : w.key loc = w.key loc') : loc = loc' := by
  have hpair := Prod.ext_iff.mp (toLex.injective hk)
  obtain ⟨hid, hdentry⟩ := hpair
  have hmount := h.distinct _ _ hloc hloc' hid
  cases loc
  cases loc'
  simp only at hmount hdentry
  rw [hmount, hdentry]

variable (hg : space.table.get? key = some m)
include hg

lemma key_eq (hp : (w.mounts m).parent = some loc) : w.key loc = key := by
  obtain ⟨-, loc', hp', hk⟩ := h.keyed t space hs key m hg
  rw [hp] at hp'
  rw [Option.some.inj hp', hk]

omit hg in
lemma owns_iff : w.owns t m = true ↔ InTree space m := by
  rw [owns, hs]
  dsimp only
  constructor
  · intro howns
    split_ifs at howns with hroot htree
    · exact .inl hroot
    · cases hp : (w.mounts m).parent with
      | none => simp [hp] at howns
      | some p => exact .inr ⟨w.key p, by simpa [hp] using howns⟩
  · rintro (rfl | ⟨key, hg⟩)
    · rw [if_pos rfl]
    · obtain ⟨htree, loc, hp, hk⟩ := h.keyed t space hs key m hg
      rw [htree, hp]
      simp [hk, hg]

lemma one_le_total : 1 ≤ total w (ofLex key).2 := by
  have herased := covers_erase hg (ofLex key).2
  rw [if_pos rfl] at herased
  have hle : covers (w.table t) (ofLex key).2 ≤ total w (ofLex key).2 :=
    single_le_sum (f := fun u => covers (w.table u) (ofLex key).2)
      (fun _ _ => Nat.zero_le _) (mem_range.mpr (h.lt_spaceCount hs))
  rw [table_eq hs] at hle
  omega

lemma covered_lt : (ofLex key).2 < w.cache.next := by
  by_contra hge
  have hn := h.counted (ofLex key).2
  rw [h.dentries_fresh _ (not_lt.mp hge)] at hn
  have hone := h.one_le_total hs hg
  rw [← hn] at hone
  exact Nat.not_succ_le_zero 0 hone

end

lemma inode_lt {i : Ino} (hi : (w.dentry d).inode = some i) : d < w.cache.next := by
  by_contra hge
  rw [h.dentries_fresh d (not_lt.mp hge)] at hi
  cases hi

end Sound

/-- Nothing outside one tree has changed, and no mount's identifier or tree. -/
structure Within (t : TreeRef) (w w' : World) : Prop where
  id : ∀ n, (w'.mounts n).id = (w.mounts n).id
  tree : ∀ n, (w'.mounts n).tree = (w.mounts n).tree
  mounts : ∀ n, (w.mounts n).tree ≠ some t → w'.mounts n = w.mounts n
  made : w'.made = w.made
  nextMount : w'.nextMount = w.nextMount
  spaces : ∀ u, u ≠ t → w'.spaces u = w.spaces u
  spaceCount : w'.spaceCount = w.spaceCount

lemma Rooted.restrict {space' : Namespace} (hrooted : Rooted w space)
    (hr : space'.root = space.root)
    (hsub : ∀ key n, space'.table.get? key = some n → space.table.get? key = some n)
    (hkept : ∀ n, InTree space' n → (w'.mounts n).parent = (w.mounts n).parent)
    (hclosed : ∀ key n loc, space'.table.get? key = some n → (w.mounts n).parent = some loc →
      InTree space' loc.mount) : Rooted w' space' := by
  constructor
  · intro key n hg
    obtain ⟨loc, hp, -⟩ := hrooted.owned key n (hsub key n hg)
    exact ⟨loc, (hkept n (.inr ⟨key, hg⟩)).trans hp, hclosed key n loc hg hp⟩
  · intro n hin
    rw [hr]
    have hclimb : Climbs w.above n space.root := by
      rcases hin with heq | ⟨key, hg⟩
      · rw [heq, hr]
        exact .refl
      · exact hrooted.climbs n (.inr ⟨key, hsub key n hg⟩)
    induction hclimb using Relation.ReflTransGen.head_induction_on with
    | refl => exact .refl
    | head hstep _ ih =>
      obtain ⟨loc, hp, rfl⟩ := Option.map_eq_some_iff.mp hstep
      rcases hin with heq | ⟨key, hg⟩
      · rw [heq, hr]
        exact .refl
      · refine .head ?_ (ih (hclosed key _ loc hg hp))
        rw [above, hkept _ (.inr ⟨key, hg⟩), hp]
        rfl

namespace Within

lemma refl (t : TreeRef) (w : World) : Within t w w :=
  ⟨fun _ => rfl, fun _ => rfl, fun _ _ => rfl, rfl, rfl, fun _ _ => rfl, rfl⟩

lemma trans {w'' : World} (hf : Within t w w') (hsecond : Within t w' w'') : Within t w w'' where
  id n := (hsecond.id n).trans (hf.id n)
  tree n := (hsecond.tree n).trans (hf.tree n)
  mounts n hn := (hsecond.mounts n (hf.tree n ▸ hn)).trans (hf.mounts n hn)
  made := hsecond.made.trans hf.made
  nextMount := hsecond.nextMount.trans hf.nextMount
  spaces u hu := (hsecond.spaces u hu).trans (hf.spaces u hu)
  spaceCount := hsecond.spaceCount.trans hf.spaceCount

variable (hwithin : Within t w w')
include hwithin

lemma key_loc (loc : Location) : w'.key loc = w.key loc := by
  rw [key, hwithin.id]
  rfl

lemma mounts_of_tree (hu : u ≠ t) (htree : (w.mounts n).tree = some u) :
    w'.mounts n = w.mounts n :=
  hwithin.mounts n fun h => hu (Option.mem_unique htree h)

lemma total (ht : t < w.spaceCount) (d : DentryId) :
    total w' d + covers (w.table t) d = total w d + covers (w'.table t) d := by
  have hmem : t ∈ range w.spaceCount := mem_range.mpr ht
  have hother : ∀ u ∈ (range w.spaceCount).erase t,
      covers (w'.table u) d = covers (w.table u) d := by
    intro u hu
    rw [table, hwithin.spaces u (ne_of_mem_erase hu)]
    rfl
  have hafter : covers (w'.table t) d + ∑ u ∈ (range w.spaceCount).erase t,
      covers (w'.table u) d = MountTables.total w' d := by
    rw [MountTables.total, hwithin.spaceCount]
    exact add_sum_erase _ (fun u => covers (w'.table u) d) hmem
  have hbefore : covers (w.table t) d + ∑ u ∈ (range w.spaceCount).erase t,
      covers (w.table u) d = MountTables.total w d :=
    add_sum_erase _ (fun u => covers (w.table u) d) hmem
  rw [sum_congr rfl hother] at hafter
  omega

lemma sound (h : Sound w) (ht : t < w.spaceCount)
    (hs : ∀ space, w'.spaces t = some space → Keyed w' t space ∧
      ((w'.mounts space.root).parent = none ∧ (w'.mounts space.root).tree = some t) ∧
      space.table.size + 1 ≤ mountMax)
    (hcounted : ∀ d, (w'.dentry d).mounts = MountTables.total w' d)
    (hfresh : ∀ d, w'.cache.next ≤ d → w'.dentry d = .blank) : Sound w' := by
  refine ⟨?_, ?_, ?_, hcounted, ?_, ?_, ?_, ?_, hfresh⟩
  · intro u space hs' key n hg
    rcases eq_or_ne u t with rfl | hu
    · exact (hs space hs').1 key n hg
    · rw [hwithin.spaces u hu] at hs'
      obtain ⟨htree, loc, hp, hk⟩ := h.keyed u space hs' key n hg
      rw [hwithin.mounts_of_tree hu htree]
      exact ⟨htree, loc, hp, (hwithin.key_loc loc).trans hk⟩
  · intro u space hs'
    rcases eq_or_ne u t with rfl | hu
    · exact (hs space hs').2.1
    · rw [hwithin.spaces u hu] at hs'
      have hr := h.root u space hs'
      rw [hwithin.mounts_of_tree hu hr.2]
      exact hr
  · intro u space hs'
    rcases eq_or_ne u t with rfl | hu
    · exact (hs space hs').2.2
    · exact h.bounded u space (hwithin.spaces u hu ▸ hs')
  · intro a b ha hb hids
    rw [hwithin.tree] at ha hb
    rw [hwithin.id, hwithin.id] at hids
    exact h.distinct a b ha hb hids
  · intro n
    rw [hwithin.id, hwithin.tree, hwithin.nextMount]
    exact h.numbered n
  · intro n hn
    have hblank := h.mounts_fresh n (hwithin.made ▸ hn)
    rw [hwithin.mounts n (by rw [hblank]; exact nofun), hblank]
  · intro u hu
    rw [hwithin.spaceCount] at hu
    rw [hwithin.spaces u (ht.trans_le hu).ne']
    exact h.spaces_fresh u hu

lemma trees (htrees : Trees w) (h : Sound w')
    (hrooted : ∀ space, w'.spaces t = some space → Rooted w' space) : Trees w' := by
  refine ⟨h, fun u space hs => ?_⟩
  rcases eq_or_ne u t with rfl | hu
  · exact hrooted space hs
  · rw [hwithin.spaces u hu] at hs
    have hr := htrees.rooted u space hs
    refine hr.restrict rfl (fun _ _ h => h) ?_ ?_
    · intro n hn
      rw [hwithin.mounts_of_tree hu (htrees.sound.tree_of_inTree hs hn)]
    · intro key n loc hg hp
      obtain ⟨loc', hp', howner⟩ := hr.owned key n hg
      obtain rfl := Option.mem_unique hp hp'
      exact howner

end Within

def placed (w : World) (t : TreeRef) (m : MountRef) (loc : Location) : World :=
  (w.setTable t ((w.table t).insert (w.key loc) m)).setCache (w.cache.addMount loc.dentry)

section

variable (hs : w.spaces t = some space) (hp : (w.mounts m).parent = some loc)
  (htree : (w.mounts m).tree = some t) (hfresh : space.table.get? (w.key loc) = none)

include hs in
lemma spaces_placed (m : MountRef) (loc : Location) (u : TreeRef) : (placed w t m loc).spaces u =
    if u = t then some { space with table := space.table.insert (w.key loc) m }
    else w.spaces u := by
  rw [placed, table_eq hs]
  exact spaces_setTable hs _ u

include hs in
lemma placed_within (m : MountRef) (loc : Location) : Within t w (placed w t m loc) :=
  { Within.refl t w with spaces := fun u hu => (spaces_placed hs m loc u).trans (if_neg hu) }

include hs hp htree hfresh in
lemma placed_sound (h : Sound w) (hroom : space.table.size + 2 ≤ mountMax)
    (hdentry : loc.dentry < w.cache.next) : Sound (placed w t m loc) := by
  have hspaces := (spaces_placed hs m loc t).trans (if_pos rfl)
  have hlt := h.lt_spaceCount hs
  refine (placed_within hs m loc).sound h hlt ?_ ?_ ?_
  · intro space' hs'
    obtain rfl := Option.mem_unique hspaces hs'
    refine ⟨fun key n hg => ?_, h.root t space hs, ?_⟩
    · rcases of_get?_insert hg with ⟨rfl, rfl⟩ | hg
      · exact ⟨htree, loc, hp, rfl⟩
      · exact h.keyed t space hs key n hg
    · rw [size_insert hfresh]
      exact hroom
  · intro d
    have htotal := (placed_within hs m loc).total hlt d
    rw [table_eq hs, table_eq hspaces, covers_insert hfresh] at htotal
    have hn := h.counted d
    change ((w.cache.addMount loc.dentry).dentries d).mounts = _
    rw [mounts_addMount]
    change (w.dentry d).mounts + _ = _
    change _ = _ + (_ + if loc.dentry = d then 1 else 0) at htotal
    omega
  · intro d hd
    change (w.cache.addMount loc.dentry).dentries d = _
    rw [dentries_addMount_of_ne _ (hdentry.trans_le hd).ne']
    exact h.dentries_fresh d hd

omit hs hp htree hfresh in
lemma inTree_insert (hfresh : space.table.get? key = none) (m : MountRef)
    (hin : InTree space n) : InTree { space with table := space.table.insert key m } n := by
  rcases hin with rfl | ⟨key', hg⟩
  · exact .inl rfl
  · refine .inr ⟨key', ?_⟩
    rw [get?_insert, if_neg]
    · exact hg
    · rintro rfl
      rw [hfresh] at hg
      cases hg

include hs hp hfresh in
lemma placed_trees (h : Trees w) (htree : (w.mounts m).tree = some t)
    (howner : InTree space loc.mount) (hroom : space.table.size + 2 ≤ mountMax)
    (hdentry : loc.dentry < w.cache.next) : Trees (placed w t m loc) := by
  refine (placed_within hs m loc).trees h
    (placed_sound hs hp htree hfresh h.sound hroom hdentry) fun space' hs' => ?_
  rw [spaces_placed hs, if_pos rfl] at hs'
  obtain rfl := Option.some.inj hs'
  have hrooted := h.rooted t space hs
  constructor
  · intro key n hg
    rcases of_get?_insert hg with ⟨-, rfl⟩ | hg
    · exact ⟨loc, hp, inTree_insert hfresh m howner⟩
    · obtain ⟨loc', hp', howner'⟩ := hrooted.owned key n hg
      exact ⟨loc', hp', inTree_insert hfresh m howner'⟩
  · rintro n (rfl | ⟨key, hg⟩)
    · exact .refl
    · rcases of_get?_insert hg with ⟨-, rfl⟩ | hg
      · have hstep : w.above m = some loc.mount := by
          rw [above, hp]
          rfl
        exact .head hstep (hrooted.climbs _ howner)
      · exact hrooted.climbs n (.inr ⟨key, hg⟩)

end

def disconnected (w : World) (t : TreeRef) (m : MountRef) (loc : Location) : World :=
  ((w.setTable t ((w.table t).erase (w.key loc))).setCache
    (w.cache.removeMount loc.dentry)).setParent m none

variable (hs : w.spaces t = some space) (hp : (w.mounts m).parent = some loc)
  (hg : space.table.get? (w.key loc) = some m)

include hs in
lemma spaces_disconnected (m : MountRef) (loc : Location) (u : TreeRef) :
    (disconnected w t m loc).spaces u =
      if u = t then some { space with table := space.table.erase (w.key loc) }
      else w.spaces u := by
  rw [disconnected, table_eq hs]
  exact spaces_setTable hs _ u

lemma mounts_disconnected (w : World) (t : TreeRef) (m : MountRef) (loc : Location)
    (n : MountRef) : (disconnected w t m loc).mounts n =
      if n = m then { w.mounts m with parent := none } else w.mounts n :=
  mounts_setParent _ m n none

include hs hg in
lemma disconnected_within (h : Sound w) : Within t w (disconnected w t m loc) where
  id n := id_setParent _ m n none
  tree n := tree_setParent _ m n none
  mounts n hn := by
    rw [mounts_disconnected, if_neg]
    rintro rfl
    exact hn (h.keyed t space hs _ n hg).1
  made := rfl
  nextMount := rfl
  spaces u hu := (spaces_disconnected hs m loc u).trans (if_neg hu)
  spaceCount := rfl

include hs hp hg in
lemma disconnected_sound (h : Sound w) : Sound (disconnected w t m loc) := by
  have hwithin := disconnected_within hs hg h
  have hspaces := (spaces_disconnected hs m loc t).trans (if_pos rfl)
  have hmounts := mounts_disconnected w t m loc
  have hlt := h.lt_spaceCount hs
  refine hwithin.sound h hlt ?_ ?_ ?_
  · intro space' hs'
    obtain rfl := Option.mem_unique hspaces hs'
    refine ⟨fun key n hg' => ?_, ?_, ?_⟩
    · rw [get?_erase] at hg'
      split_ifs at hg' with hk
      obtain ⟨htree', loc', hp', hk'⟩ := h.keyed t space hs key n hg'
      have hne : n ≠ m := by
        rintro rfl
        exact hk (h.key_eq hs hg' hp).symm
      rw [hmounts, if_neg hne]
      exact ⟨htree', loc', hp', (hwithin.key_loc loc').trans hk'⟩
    · obtain ⟨hf, htree'⟩ := h.root t space hs
      have hne : space.root ≠ m := by
        rintro heq
        rw [heq, hp] at hf
        cases hf
      rw [hmounts, if_neg hne]
      exact ⟨hf, htree'⟩
    · have hsize := size_erase hg
      have hb := h.bounded t space hs
      change (space.table.erase (w.key loc)).size + 1 ≤ mountMax
      omega
  · intro d
    have htotal := hwithin.total hlt d
    rw [table_eq hs, table_eq hspaces] at htotal
    have hc := covers_erase hg d
    have hn := h.counted d
    change ((w.cache.removeMount loc.dentry).dentries d).mounts = _
    rw [mounts_removeMount]
    change (w.dentry d).mounts - _ = _
    change covers (space.table.erase (w.key loc)) d + (if loc.dentry = d then 1 else 0) = _ at hc
    dsimp only at htotal
    omega
  · intro d hd
    change (w.cache.removeMount loc.dentry).dentries d = _
    have hdentry : loc.dentry < w.cache.next := h.covered_lt hs hg
    rw [dentries_removeMount_of_ne _ (hdentry.trans_le hd).ne']
    exact h.dentries_fresh d hd

end Ferrix.Vfs.MountTables
