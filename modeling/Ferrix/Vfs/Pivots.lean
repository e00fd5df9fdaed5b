import Ferrix.Vfs.MountCalls

namespace Ferrix.Vfs.Pivots

open Relation Foundations Programs SortedMaps ParentPointers Dentries Mounts
open MountTables MountLoops MountCalls Function SortedMap Option World

variable {w : World} {t : TreeRef} {space : Namespace} {m : MountRef} {loc : Location}

lemma climbs_up (w : World) (loc : Location) (root : Option Location) :
    Climbs w.above loc.mount (w.up loc root).mount := by
  have hgo : ∀ n here, Climbs w.above here.mount (up.go w root n here).mount := by
    intro n
    induction n with
    | zero => exact fun here => .refl
    | succ n ih =>
      intro here
      rw [up.go]
      split_ifs with hroot htop
      · exact .refl
      · cases hp : (w.mounts here.mount).parent with
        | none => exact .refl
        | some place =>
          refine .head ?_ (ih place)
          rw [above, hp]
          rfl
      · cases (w.dentry here.dentry).parent with
        | none => exact .refl
        | some p => exact .refl
  exact hgo _ loc

lemma climbs_of_reaches {source target : Location} (hreaches : w.reaches source target = true) :
    Climbs w.above source.mount target.mount := by
  have hgo : ∀ n here, reaches.go w target n here = true →
      Climbs w.above here.mount target.mount := by
    intro n
    induction n with
    | zero =>
      intro here hhere
      rw [reaches.go, decide_eq_true_eq] at hhere
      rw [hhere]
      exact .refl
    | succ n ih =>
      intro here hhere
      rw [reaches.go] at hhere
      dsimp only at hhere
      split_ifs at hhere with heq
      · rw [heq]
        exact .refl
      · exact (climbs_up w here none).trans (ih _ hhere)
  exact hgo _ source hreaches

def pivotedTable (w : World) (table : Table) (old new : MountRef)
    (putOld rootPlace exPlace : Location) : Table :=
  (((table.erase (w.key exPlace)).erase (w.key rootPlace)).insert (w.key rootPlace) new).insert
    (w.key putOld) old

def pivoted (w : World) (t : TreeRef) (old new : MountRef) (putOld rootPlace exPlace : Location) :
    World :=
  (((w.setParent new (some rootPlace)).setParent old (some putOld)).setCache
    ((w.cache.removeMount exPlace.dentry).addMount putOld.dentry)).setTable t
      (pivotedTable w (w.table t) old new putOld rootPlace exPlace)

lemma setTable_setTable (w : World) (t : TreeRef) (table table' : Table) :
    (w.setTable t table).setTable t table' = w.setTable t table' := by
  have hspaces : ((w.setTable t table).setTable t table').spaces =
      (w.setTable t table').spaces := by
    funext u
    change update (update w.spaces t _) t _ u = update w.spaces t _ u
    rw [update_idem]
    change update w.spaces t (Option.map _ (update w.spaces t ((w.spaces t).map _) t)) u = _
    rw [update_self, Option.map_map]
    rfl
  change ({ w with spaces := ((w.setTable t table).setTable t table').spaces } : World) = _
  rw [hspaces]
  rfl

section

variable {old new : MountRef} {putOld rootPlace exPlace : Location}

lemma setTable_table (v : World) (hs : v.spaces t = some space) (table : Table)
    (f : Table → Table) :
    (v.setTable t table).setTable t (f ((v.setTable t table).table t)) =
      v.setTable t (f table) := by
  rw [table_setTable hs, if_pos rfl, setTable_setTable]

lemma exchange_run (hs : w.spaces t = some space) :
    (exchange t old new putOld rootPlace exPlace : Call Unit) w =
      (.ok (), pivoted w t old new putOld rootPlace exPlace) := by
  let w₁ := w.setCache (w.cache.removeMount exPlace.dentry)
  let w₃ := w₁.setParent new (some rootPlace)
  let w₅ := w₃.setParent old (some putOld)
  let t₁ := (w.table t).erase (w.key exPlace)
  let t₂ := t₁.erase (w.key rootPlace)
  let t₃ := t₂.insert (w.key rootPlace) new
  have h₂ : (w₁.setTable t t₁).setTable t (((w₁.setTable t t₁).table t).erase (w.key rootPlace)) =
      w₁.setTable t t₂ := setTable_table w₁ hs t₁ fun table => table.erase (w.key rootPlace)
  have h₄ : (w₃.setTable t t₂).setTable t
      (((w₃.setTable t t₂).table t).insert ((w₃.setTable t t₂).key rootPlace) new) =
        w₃.setTable t t₃ := by
    rw [show (w₃.setTable t t₂).key rootPlace = w.key rootPlace from key_setParent w₁ _ _ _]
    exact setTable_table w₃ hs t₂ fun table => table.insert (w.key rootPlace) new
  have h₆ : (w₅.setTable t t₃).setTable t
      (((w₅.setTable t t₃).table t).insert ((w₅.setTable t t₃).key putOld) old) =
        w₅.setTable t (pivotedTable w (w.table t) old new putOld rootPlace exPlace) := by
    rw [show (w₅.setTable t t₃).key putOld = w.key putOld from
      (key_setParent w₃ _ _ _).trans (key_setParent w₁ _ _ _)]
    exact setTable_table w₅ hs t₃ fun table => table.insert (w.key putOld) old
  have h₁ : (w.setTable t t₁).setCache (w.cache.removeMount exPlace.dentry) =
      w₁.setTable t t₁ := rfl
  have h₃ : (w₁.setTable t t₂).setParent new (some rootPlace) = w₃.setTable t t₂ := rfl
  have h₅ : (w₃.setTable t t₃).setParent old (some putOld) = w₅.setTable t t₃ := rfl
  refine (Program.bind_modify_run h₁).trans ?_
  refine (Program.bind_modify_run h₂).trans ?_
  refine (Program.bind_modify_run h₃).trans ?_
  refine (Program.bind_modify_run h₄).trans ?_
  refine (Program.bind_modify_run h₅).trans ?_
  exact congrArg (fun v : World => (Except.ok (), v.setCache (w₅.cache.addMount putOld.dentry))) h₆

lemma mounts_pivoted (hne : old ≠ new) (n : MountRef) :
    (pivoted w t old new putOld rootPlace exPlace).mounts n =
      if n = old then { w.mounts old with parent := some putOld }
      else if n = new then { w.mounts new with parent := some rootPlace }
      else w.mounts n := by
  have hold : (w.setParent new (some rootPlace)).mounts old = w.mounts old :=
    (mounts_setParent w new old _).trans (if_neg hne)
  refine (mounts_setParent (w.setParent new (some rootPlace)) old n (some putOld)).trans ?_
  rw [hold, mounts_setParent]

lemma spaces_pivoted (hs : w.spaces t = some space) (u : TreeRef) :
    (pivoted w t old new putOld rootPlace exPlace).spaces u = if u = t then
        some { space with table := pivotedTable w space.table old new putOld rootPlace exPlace }
      else w.spaces u := by
  rw [pivoted, table_eq hs]
  exact spaces_setTable hs _ u

lemma key_pivoted (loc : Location) :
    (pivoted w t old new putOld rootPlace exPlace).key loc = w.key loc :=
  (key_setParent _ old _ loc).trans (key_setParent w new _ loc)

lemma get?_pivotedTable (table : Table) (k : Key) :
    (pivotedTable w table old new putOld rootPlace exPlace).get? k =
      if k = w.key putOld then some old else if k = w.key rootPlace then some new
      else if k = w.key exPlace then none else table.get? k := by
  rw [pivotedTable, get?_insert, get?_insert, get?_erase, get?_erase]
  split_ifs <;> rfl

structure Pivot (w : World) (t : TreeRef) (space : Namespace) (old new : MountRef)
    (putOld rootPlace exPlace : Location) : Prop where
  spaceAt : w.spaces t = some space
  oldParent : (w.mounts old).parent = some rootPlace
  newParent : (w.mounts new).parent = some exPlace
  oldGet : space.table.get? (w.key rootPlace) = some old
  newGet : space.table.get? (w.key exPlace) = some new
  ne : old ≠ new
  put : InTree space putOld.mount
  free : space.table.get? (w.key putOld) = none
  below : Climbs w.above new old
  inside : Climbs w.above putOld.mount new
  dentry : putOld.dentry < w.cache.next

variable (hpivot : Pivot w t space old new putOld rootPlace exPlace)
include hpivot

lemma Pivot.keys_ne : w.key rootPlace ≠ w.key exPlace := by
  intro heq
  have hg := hpivot.oldGet
  rw [heq, hpivot.newGet] at hg
  exact hpivot.ne (some.inj hg).symm

lemma Pivot.put_ne_root : w.key putOld ≠ w.key rootPlace := by
  intro heq
  have hg := hpivot.oldGet
  rw [← heq, hpivot.free] at hg
  cases hg

lemma Pivot.put_ne_ex : w.key putOld ≠ w.key exPlace := by
  intro heq
  have hg := hpivot.newGet
  rw [← heq, hpivot.free] at hg
  cases hg

lemma Pivot.kept (h : Sound w) {k : Key} {n : MountRef}
    (hg : (pivotedTable w space.table old new putOld rootPlace exPlace).get? k = some n) :
    k = w.key putOld ∧ n = old ∨ k = w.key rootPlace ∧ n = new ∨
      space.table.get? k = some n ∧ n ≠ old ∧ n ≠ new := by
  rw [get?_pivotedTable] at hg
  split_ifs at hg with hput hr hex
  · exact .inl ⟨hput, (some.inj hg).symm⟩
  · exact .inr (.inl ⟨hr, (some.inj hg).symm⟩)
  · refine .inr (.inr ⟨hg, ?_, ?_⟩)
    · rintro rfl
      exact hr (h.key_eq hpivot.spaceAt hg hpivot.oldParent).symm
    · rintro rfl
      exact hex (h.key_eq hpivot.spaceAt hg hpivot.newParent).symm

lemma Pivot.inTree_iff (n : MountRef) : InTree { space with
      table := pivotedTable w space.table old new putOld rootPlace exPlace } n ↔
        InTree space n := by
  constructor
  · rintro (rfl | ⟨k, hg⟩)
    · exact .inl rfl
    · rw [get?_pivotedTable] at hg
      split_ifs at hg
      · obtain rfl := some.inj hg
        exact .inr ⟨_, hpivot.oldGet⟩
      · obtain rfl := some.inj hg
        exact .inr ⟨_, hpivot.newGet⟩
      · exact .inr ⟨k, hg⟩
  · rintro (rfl | ⟨k, hg⟩)
    · exact .inl rfl
    · by_cases hr : k = w.key rootPlace
      · rw [hr, hpivot.oldGet] at hg
        refine .inr ⟨w.key putOld, ?_⟩
        rw [get?_pivotedTable, if_pos rfl, hg]
      · by_cases hex : k = w.key exPlace
        · rw [hex, hpivot.newGet] at hg
          refine .inr ⟨w.key rootPlace, ?_⟩
          rw [get?_pivotedTable, if_neg hpivot.put_ne_root.symm, if_pos rfl, hg]
        · refine .inr ⟨k, ?_⟩
          have hput : k ≠ w.key putOld := by
            rintro rfl
            rw [hpivot.free] at hg
            cases hg
          rw [get?_pivotedTable, if_neg hput, if_neg hr, if_neg hex, hg]

lemma Pivot.rootGet : (space.table.erase (w.key exPlace)).get? (w.key rootPlace) = some old := by
  rw [get?_erase, if_neg hpivot.keys_ne, hpivot.oldGet]

lemma Pivot.putFree : (((space.table.erase (w.key exPlace)).erase (w.key rootPlace)).insert
    (w.key rootPlace) new).get? (w.key putOld) = none := by
  rw [get?_insert, if_neg hpivot.put_ne_root, get?_erase,
    if_neg hpivot.put_ne_root, get?_erase, if_neg hpivot.put_ne_ex, hpivot.free]

lemma Pivot.size : (pivotedTable w space.table old new putOld rootPlace exPlace).size =
    space.table.size := by
  have hf : ((space.table.erase (w.key exPlace)).erase (w.key rootPlace)).get?
      (w.key rootPlace) = none := by
    rw [get?_erase, if_pos rfl]
  have hex := size_erase hpivot.newGet
  have hr := size_erase hpivot.rootGet
  have hnew := size_insert hf new
  have hput := size_insert hpivot.putFree old
  rw [pivotedTable]
  omega

lemma Pivot.covers (d : DentryId) :
    covers (pivotedTable w space.table old new putOld rootPlace exPlace) d +
        (if exPlace.dentry = d then 1 else 0) =
      covers space.table d + if putOld.dentry = d then 1 else 0 := by
  have hf : ((space.table.erase (w.key exPlace)).erase (w.key rootPlace)).get?
      (w.key rootPlace) = none := by
    rw [get?_erase, if_pos rfl]
  have hex := covers_erase hpivot.newGet d
  have hr := covers_erase hpivot.rootGet d
  have hnew := covers_insert hf new d
  have hput := covers_insert hpivot.putFree old d
  change _ + (if exPlace.dentry = d then 1 else 0) = _ at hex
  change _ = _ + (if putOld.dentry = d then 1 else 0) at hput
  rw [pivotedTable]
  omega

lemma Pivot.mounts (n : MountRef) : (pivoted w t old new putOld rootPlace exPlace).mounts n =
    if n = old then { w.mounts old with parent := some putOld }
    else if n = new then { w.mounts new with parent := some rootPlace }
    else w.mounts n :=
  mounts_pivoted hpivot.ne n

lemma Pivot.spaces (u : TreeRef) : (pivoted w t old new putOld rootPlace exPlace).spaces u =
    if u = t then
      some { space with table := pivotedTable w space.table old new putOld rootPlace exPlace }
    else w.spaces u :=
  spaces_pivoted hpivot.spaceAt u

lemma Pivot.within (h : Sound w) : Within t w (pivoted w t old new putOld rootPlace exPlace) where
  id n := (id_setParent _ old n _).trans (id_setParent w new n _)
  tree n := (tree_setParent _ old n _).trans (tree_setParent w new n _)
  mounts n hn := by
    have ho : ∀ m k, space.table.get? k = some m → n ≠ m := by
      rintro m k hg rfl
      exact hn (h.keyed t space hpivot.spaceAt k n hg).1
    rw [hpivot.mounts, if_neg (ho old _ hpivot.oldGet), if_neg (ho new _ hpivot.newGet)]
  made := rfl
  nextMount := rfl
  spaces u hu := (hpivot.spaces u).trans (if_neg hu)
  spaceCount := rfl

lemma Pivot.sound (h : Sound w) : Sound (pivoted w t old new putOld rootPlace exPlace) := by
  have hwithin := hpivot.within h
  have hspaces := (hpivot.spaces t).trans (if_pos rfl)
  have hlt := h.lt_spaceCount hpivot.spaceAt
  refine hwithin.sound h hlt ?_ ?_ ?_
  · intro space' hs'
    obtain rfl := mem_unique hspaces hs'
    refine ⟨fun k n hg => ?_, ?_, ?_⟩
    · rw [hwithin.tree]
      rcases hpivot.kept h hg with ⟨rfl, rfl⟩ | ⟨rfl, rfl⟩ | ⟨hg', hold, hnew⟩
      · refine ⟨(h.keyed t space hpivot.spaceAt _ n hpivot.oldGet).1, putOld, ?_, key_pivoted _⟩
        rw [hpivot.mounts, if_pos rfl]
      · refine ⟨(h.keyed t space hpivot.spaceAt _ n hpivot.newGet).1, rootPlace, ?_, key_pivoted _⟩
        rw [hpivot.mounts, if_neg hpivot.ne.symm, if_pos rfl]
      · obtain ⟨ht', loc, hp, hk⟩ := h.keyed t space hpivot.spaceAt k n hg'
        refine ⟨ht', loc, ?_, (key_pivoted loc).trans hk⟩
        rw [hpivot.mounts, if_neg hold, if_neg hnew, hp]
    · have hr := h.root t space hpivot.spaceAt
      have hbottom : ∀ m p, (w.mounts m).parent = some p → space.root ≠ m := by
        rintro m p hp rfl
        rw [hr.1] at hp
        cases hp
      rw [hpivot.mounts, if_neg (hbottom old _ hpivot.oldParent),
        if_neg (hbottom new _ hpivot.newParent)]
      exact hr
    · rw [hpivot.size]
      exact h.bounded t space hpivot.spaceAt
  · intro d
    have htotal := hwithin.total hlt d
    rw [table_eq hpivot.spaceAt, table_eq hspaces] at htotal
    dsimp only at htotal
    have hc := hpivot.covers d
    have hn := h.counted d
    have hone : exPlace.dentry = d → 1 ≤ total w d := by
      rintro rfl
      exact h.one_le_total hpivot.spaceAt hpivot.newGet
    change (((w.cache.removeMount exPlace.dentry).addMount putOld.dentry).dentries d).mounts = _
    rw [mounts_addMount, mounts_removeMount]
    change (w.dentry d).mounts - _ + _ = _
    split_ifs at hc ⊢ with hex hput hput
    all_goals first | have := hone hex; omega | omega
  · intro d hd
    have hex : exPlace.dentry < w.cache.next := h.covered_lt hpivot.spaceAt hpivot.newGet
    change ((w.cache.removeMount exPlace.dentry).addMount putOld.dentry).dentries d = _
    rw [dentries_addMount_of_ne _ (hpivot.dentry.trans_le hd).ne',
      dentries_removeMount_of_ne _ (hex.trans_le hd).ne']
    exact h.dentries_fresh d hd

lemma Pivot.trees (htrees : Trees w) : Trees (pivoted w t old new putOld rootPlace exPlace) := by
  have h := htrees.sound
  have hr := htrees.rooted t space hpivot.spaceAt
  refine (hpivot.within h).trees htrees (hpivot.sound h) fun space' hs' => ?_
  rw [hpivot.spaces, if_pos rfl] at hs'
  obtain rfl := some.inj hs'
  constructor
  · intro k n hg
    rcases hpivot.kept h hg with ⟨-, rfl⟩ | ⟨-, rfl⟩ | ⟨hg', hold, hnew⟩
    · refine ⟨putOld, ?_, (hpivot.inTree_iff _).mpr hpivot.put⟩
      rw [hpivot.mounts, if_pos rfl]
    · obtain ⟨loc, hp, hin⟩ := hr.owned _ old hpivot.oldGet
      obtain rfl := mem_unique hp hpivot.oldParent
      refine ⟨loc, ?_, (hpivot.inTree_iff _).mpr hin⟩
      rw [hpivot.mounts, if_neg hpivot.ne.symm, if_pos rfl]
    · obtain ⟨loc, hp, hin⟩ := hr.owned k n hg'
      refine ⟨loc, ?_, (hpivot.inTree_iff _).mpr hin⟩
      rw [hpivot.mounts, if_neg hold, if_neg hnew, hp]
  · intro n hin
    have hbottom : w.above space.root = none := by
      rw [above, (h.root t space hpivot.spaceAt).1]
      rfl
    have hold : w.above old = some rootPlace.mount := by
      rw [above, hpivot.oldParent]
      rfl
    refine Climbs.exchange hbottom hold hpivot.below hpivot.inside
      (hr.climbs old (.inr ⟨_, hpivot.oldGet⟩)) ?_ ?_ ?_
      (hr.climbs n ((hpivot.inTree_iff n).mp hin))
    · rw [above, hpivot.mounts, if_pos rfl]
      rfl
    · rw [above, hpivot.mounts, if_neg hpivot.ne.symm, if_pos rfl]
      rfl
    · intro x hold hnew
      rw [above, hpivot.mounts, if_neg hold, if_neg hnew]
      rfl

end

lemma pivotRoot_keeps (h : Trees w) (t : TreeRef) (root newRoot putOld : Location) :
    Keeps (pivotRoot t root newRoot putOld) w := by
  refine bind_kind h fun _ _ => ?_
  refine .guard h fun _ => ?_
  refine bind_kind h fun _ hdentry => ?_
  refine .guard h fun _ => ?_
  refine .bind_view ?_
  refine .guard h fun howns => ?_
  refine .bind_view ?_
  refine .guard h fun _ => ?_
  refine .guard h fun hapart => ?_
  refine .bind_view ?_
  refine .bind_option h fun rootPlace hr => ?_
  refine .bind_view ?_
  refine .bind_option h fun exPlace hex => ?_
  refine .bind_view ?_
  refine .guard h fun hreach => ?_
  refine .bind_view ?_
  refine .guard h fun hf => ?_
  simp only [Bool.and_eq_true, decide_eq_true_eq] at howns hapart hreach
  obtain ⟨space, hs, hrootIn⟩ := space_of_owns h.sound howns.1.1
  have hk : ∀ m p, (w.mounts m).parent = some p → w.owns t m = true →
      space.table.get? (w.key p) = some m := by
    intro m p hp howns
    rcases (h.sound.owns_iff hs).mp howns with rfl | ⟨k, hg⟩
    · rw [(h.sound.root t space hs).1] at hp
      cases hp
    · rwa [h.sound.key_eq hs hg hp]
  rw [table_eq hs] at hf
  have hpivot : Pivot w t space root.mount newRoot.mount putOld rootPlace exPlace :=
    { spaceAt := hs
      oldParent := hr
      newParent := hex
      oldGet := hk _ _ hr howns.1.1
      newGet := hk _ _ hex howns.1.2
      ne := fun h => hapart.1 h.symm
      put := (h.sound.owns_iff hs).mp howns.2
      free := isNone_iff_eq_none.mp hf
      below := climbs_of_reaches hreach.2
      inside := climbs_of_reaches hreach.1.2
      dentry := hdentry }
  rw [Program.Ends, exchange_run hs]
  exact hpivot.trees h

end Ferrix.Vfs.Pivots
