import Ferrix.Vfs.MountLoops

/-!
A bind and a namespace's copy both make a copy of each mount of a list, every one after the first
on the copy of what its original is on.
-/

namespace Ferrix.Vfs.MountCopies

open Foundations Programs ParentPointers Dentries Mounts MountTables MountLoops Function
open List Option

/-- A mount and mounts below it that are copied for a tree; the first copy starts at `root` and is
on `parent`. -/
structure Copying where
  tree : TreeRef
  top : MountRef
  below : List MountRef
  root : DentryId
  parent : Option Location

namespace Copying

variable (c : Copying) (w : World)

def originals : List MountRef := c.top :: c.below

def replica (i : Nat) : Mount :=
  let original := w.mounts (c.originals.getD i 0)
  { id := w.nextMount + i
    flags := original.flags
    sb := original.sb
    root := if i = 0 then c.root else original.root
    parent := if i = 0 then c.parent else
      original.parent.map fun loc => ⟨w.made + c.originals.idxOf loc.mount, loc.dentry⟩
    tree := some c.tree }

/-- The world with the copies of the first `k` originals. -/
def replicated (k : Nat) (charges : List Bool) : World :=
  { w with
    mounts := fun (m : Nat) =>
      if w.made ≤ m ∧ m < w.made + k then c.replica w (m - w.made)
      else w.mounts m
    made := w.made + k
    nextMount := w.nextMount + k
    charges := charges }

end Copying

section

variable (w : World)

def copies (k : Nat) : List MountRef := (List.range k).map (w.made + ·)

lemma copies_succ (k : Nat) : copies w (k + 1) = copies w k ++ [w.made + k] := by
  rw [copies, copies, range_succ, map_append, map_singleton]

lemma copies_getElem? {i k : Nat} (hi : i < k) : (copies w k)[i]? = some (w.made + i) := by
  rw [copies, List.getElem?_map, List.getElem?_range hi]
  rfl

end

variable {c : Copying} {w : World} {k i m : Nat} {charges : List Bool} {j : Nat → Option Nat}
  {x : Location}

lemma mounts_replicated_old (hm : m < w.made) :
    (c.replicated w k charges).mounts m = w.mounts m := by
  have hnot : ¬ (w.made ≤ m ∧ m < w.made + k) := fun h => hm.not_ge h.1
  exact if_neg hnot

lemma mounts_replicated_new (hi : i < k) :
    (c.replicated w k charges).mounts (w.made + i) = c.replica w i := by
  have hin : w.made ≤ w.made + i ∧ w.made + i < w.made + k := by omega
  refine (if_pos hin).trans ?_
  rw [Nat.add_sub_cancel_left]

lemma replicated_succ : c.replicated w (k + 1) charges =
    withMount { c.replicated w k charges with nextMount := w.nextMount + k + 1 }
      (c.replica w k) := by
  have hmounts : (c.replicated w (k + 1) charges).mounts =
      update (c.replicated w k charges).mounts (w.made + k) (c.replica w k) := by
    funext (m : Nat)
    rw [update_apply]
    change (if w.made ≤ m ∧ m < w.made + (k + 1) then _ else _) =
      if m = w.made + k then _ else if w.made ≤ m ∧ m < w.made + k then _ else _
    split_ifs with h1 h2 h3 h4 h5
    · rw [h2, Nat.add_sub_cancel_left]
    · rfl
    · exact absurd h1 (by omega)
    · exact absurd h4 (by omega)
    · exact absurd h5 (by omega)
    · rfl
  change _ = ({ c.replicated w k charges with
    mounts := update (c.replicated w k charges).mounts (w.made + k) (c.replica w k)
    nextMount := w.nextMount + k + 1
    made := w.made + k + 1 } : World)
  rw [← hmounts]
  rfl

lemma replicated_zero : c.replicated w 0 charges = { w with charges } := by
  have hmounts : (c.replicated w 0 charges).mounts = w.mounts := by
    funext (m : Nat)
    exact if_neg (by omega)
  change ({ w with mounts := (c.replicated w 0 charges).mounts, charges } : World) = _
  rw [hmounts]

lemma replicated_trees (h : Trees w) (k : Nat) (charges : List Bool) :
    Trees (c.replicated w k charges) := by
  induction k with
  | zero =>
    rw [replicated_zero]
    exact (sameMounts_charges h.sound charges).trees h
  | succ k ih =>
    rw [replicated_succ]
    have hbumped := (sameMounts_nextMount ih.sound).trees ih
    refine withMount_trees hbumped (lt_add_one _) ?_ fun _ m => (ih.sound.numbered m).1
    have hpos := (h.sound.numbered 0).1
    refine iff_of_false (some_ne_none c.tree) ?_
    change w.nextMount + k ≠ 0
    omega

section

variable {before rest : List MountRef} {original : MountRef}

lemma idxOf?_of_mem {p : MountRef} (hp : p ∈ before) :
    before.idxOf? p = some (before.idxOf p) := by
  obtain ⟨i, hi⟩ := isSome_iff_exists.mp (isSome_idxOf?.mpr hp)
  rw [idxOf_eq_getD_idxOf?, hi]
  rfl

section

variable (horiginals : before ++ original :: rest = c.originals)
include horiginals

lemma original_getD : c.originals.getD before.length 0 = original := by
  rw [← horiginals]
  simp

lemma copyOf_ends (h : Trees w) (hold : original < w.made) {root' : DentryId}
    {parent' : Option Location}
    (hr : root' = (c.replica w before.length).root)
    (hp : parent' = (c.replica w before.length).parent) :
    Program.Ends (copyOf original root' parent' c.tree)
      (c.replicated w before.length charges)
      (fun m w' => m = w.made + before.length ∧
        ∃ charges', w' = c.replicated w (before.length + 1) charges')
      (fun _ => Trees) := by
  refine bind_charge (replicated_trees h _ _) fun charges' _ => ⟨rfl, charges', ?_⟩
  have hmount : ({ id := w.nextMount + before.length
                   flags := ((c.replicated w before.length charges).mounts original).flags
                   sb := ((c.replicated w before.length charges).mounts original).sb
                   root := root'
                   parent := parent'
                   tree := some c.tree } : Mount) = c.replica w before.length := by
    rw [mounts_replicated_old hold, hr, hp, Copying.replica, original_getD horiginals]
  rw [replicated_succ, ← hmount]
  rfl

lemma replica_parent (hne : before ≠ []) (hp : (w.mounts original).parent = some x)
    (hbefore : x.mount ∈ before) : (c.replica w before.length).parent =
      some ⟨w.made + before.idxOf x.mount, x.dentry⟩ := by
  have hlen : before.length ≠ 0 := length_eq_zero_iff.not.mpr hne
  rw [Copying.replica, if_neg hlen, original_getD horiginals, hp, ← horiginals, map_some,
    idxOf_append_of_mem hbefore]
  exact if_neg hlen

lemma replica_root (hne : before ≠ []) :
    (c.replica w before.length).root = (w.mounts original).root := by
  rw [Copying.replica, if_neg (length_eq_zero_iff.not.mpr hne), original_getD horiginals]

end

lemma bindCopies_ends (h : Trees w) (horiginals : before ++ rest = c.originals)
    (hne : before ≠ []) (hold : ∀ m ∈ c.originals, m < w.made)
    (hgrows : Grows w.above before rest) :
    Program.Ends (bindCopies c.tree before (copies w before.length) rest)
      (c.replicated w before.length charges)
      (fun made w' => made = copies w c.originals.length ∧
        ∃ charges', w' = c.replicated w c.originals.length charges')
      (fun _ => Trees) := by
  induction rest generalizing before charges with
  | nil =>
    rw [append_nil] at horiginals
    subst horiginals
    exact ⟨rfl, charges, rfl⟩
  | cons original rest ih =>
    obtain ⟨⟨p, hp, habove⟩, hr⟩ := hgrows
    obtain ⟨x, hparent, rfl⟩ := map_eq_some_iff.mp habove
    have hlt : original < w.made := hold original (by rw [← horiginals]; simp)
    have hmount : (c.replicated w before.length charges).mounts original =
        w.mounts original := mounts_replicated_old hlt
    have hcopied : (before.idxOf? x.mount).bind ((copies w before.length)[·]?) =
        some (w.made + before.idxOf x.mount) := by
      rw [idxOf?_of_mem hp]
      exact copies_getElem? w (idxOf_lt_length_iff.mpr hp)
    refine .bind_view ?_
    rw [hmount]
    refine .bind_some hparent ?_
    refine .bind_some hcopied ?_
    refine .bind_view ?_
    rw [hmount]
    refine (copyOf_ends horiginals h hlt (replica_root horiginals hne).symm
      (replica_parent horiginals hne hparent hp).symm).bind ?_
    rintro _ _ ⟨rfl, charges', rfl⟩
    have horiginals' : before ++ [original] ++ rest = c.originals := by simpa using horiginals
    have hlen : before.length + 1 = (before ++ [original]).length := by simp
    rw [← copies_succ, hlen]
    exact ih horiginals' (by simp) hr

/-- An index of the copies by the identifiers of their originals. -/
structure Indexes (w : World) (index : Nat → Option Nat) (before : List MountRef) : Prop where
  found : ∀ p ∈ before, index (w.mounts p).id = some (before.idxOf p)
  missed : ∀ id, (∀ p ∈ before, (w.mounts p).id ≠ id) → index id = none

lemma Indexes.snoc (hindexes : Indexes w j before)
    (hdistinct : ∀ p ∈ before, (w.mounts p).id ≠ (w.mounts original).id) :
    Indexes w (update j (w.mounts original).id (some before.length)) (before ++ [original]) := by
  have hnotin : original ∉ before := fun hm => hdistinct original hm rfl
  constructor
  · intro p hp
    rcases mem_append.mp hp with hp | hp
    · rw [update_of_ne (hdistinct p hp), idxOf_append_of_mem hp]
      exact hindexes.found p hp
    · rw [mem_singleton.mp hp, update_self, idxOf_append_of_notMem hnotin]
      simp
  · intro id hid
    have hne : id ≠ (w.mounts original).id := fun h => hid original (by simp) h.symm
    rw [update_of_ne hne]
    exact hindexes.missed id fun p hp => hid p (mem_append_left _ hp)

end

variable (c w) in
/-- The copies of the first `k` mounts that are on something, and where. -/
def Copying.hangings (k : Nat) : List (MountRef × Location) :=
  (List.range k).filterMap fun i =>
    (c.replica w i).parent.map fun loc => (w.made + i, loc)

lemma hangings_succ (k : Nat) : c.hangings w (k + 1) =
    c.hangings w k ++ ((c.replica w k).parent.map fun x => (w.made + k, x)).toList := by
  rw [Copying.hangings, Copying.hangings, range_succ, filterMap_append]
  cases hp : (c.replica w k).parent with
  | none => simp [hp]
  | some x => simp [hp]

lemma hangings_originals : c.hangings w c.originals.length =
    (c.parent.map fun x => (w.made, x)).toList ++ (List.range' 1 c.below.length).filterMap fun i =>
      (c.replica w i).parent.map fun x => (w.made + i, x) := by
  rw [Copying.hangings, Copying.originals, length_cons, range_eq_range', List.range'_succ,
    filterMap_cons]
  have hfirst : (c.replica w 0).parent = c.parent := rfl
  rw [hfirst]
  cases c.parent with
  | none => rfl
  | some x => rfl

variable (c w) in
def Copying.copiedTable (k : Nat) : Table :=
  (c.hangings w k).foldl (fun table entry => table.insert
    ((c.replicated w c.originals.length []).key entry.2) entry.1) ∅

lemma copiedTable_succ (hp : (c.replica w k).parent = some x) :
    c.copiedTable w (k + 1) = (c.copiedTable w k).insert
      ((c.replicated w c.originals.length []).key x) (w.made + k) := by
  rw [Copying.copiedTable, hangings_succ, hp, foldl_append]
  rfl

lemma copyMounts_ends {before rest : List MountRef}
    (h : Trees w) (horiginals : before ++ rest = c.originals) (hne : before ≠ [])
    (hold : ∀ m ∈ c.originals, m < w.made) (hgrows : Grows w.above before rest)
    (hdistinct : (c.originals.map fun m => (w.mounts m).id).Nodup)
    (hindexes : Indexes w j before) : Program.Ends (copyMounts c.tree j (copies w before.length)
        (c.copiedTable w before.length) rest) (c.replicated w before.length charges)
      (fun copied w' => Indexes w copied.1 c.originals ∧ copied.2.1 = copies w c.originals.length ∧
        copied.2.2 = c.copiedTable w c.originals.length ∧
        ∃ charges', w' = c.replicated w c.originals.length charges')
      (fun _ => Trees) := by
  induction rest generalizing before j charges with
  | nil =>
    rw [append_nil] at horiginals
    subst horiginals
    exact ⟨hindexes, rfl, rfl, charges, rfl⟩
  | cons original rest ih =>
    obtain ⟨⟨p, hp, habove⟩, hr⟩ := hgrows
    obtain ⟨x, hparent, rfl⟩ := map_eq_some_iff.mp habove
    have hm : ∀ p ∈ before, p ∈ c.originals := by
      intro p hp
      rw [← horiginals]
      exact mem_append_left _ hp
    have hlt : original < w.made := hold original (by rw [← horiginals]; simp)
    have hloc : x.mount < w.made := hold _ (hm _ hp)
    have hcopied : (j (w.mounts x.mount).id).bind ((copies w before.length)[·]?) =
        some (w.made + before.idxOf x.mount) := by
      rw [hindexes.found _ hp]
      exact copies_getElem? w (idxOf_lt_length_iff.mpr hp)
    have hreplica : (c.replica w before.length).parent =
        some ⟨w.made + before.idxOf x.mount, x.dentry⟩ :=
      replica_parent horiginals hne hparent hp
    have hmount : ∀ k charges, (c.replicated w k charges).mounts original =
        w.mounts original := fun _ _ => mounts_replicated_old hlt
    have hsofar : before.length < c.originals.length := by
      rw [← horiginals]
      simp
    have hapart : ∀ p ∈ before, (w.mounts p).id ≠ (w.mounts original).id := by
      intro p hp heq
      rw [← horiginals, map_append, map_cons, nodup_append] at hdistinct
      exact hdistinct.2.2 _ (mem_map_of_mem hp) _ mem_cons_self heq
    refine .bind_view ?_
    rw [hmount, hparent]
    refine .bind_view ?_
    rw [mounts_replicated_old hloc]
    refine .bind_some hcopied ?_
    refine .bind_pure ?_
    refine .bind_view ?_
    rw [hmount]
    refine (copyOf_ends horiginals h hlt (replica_root horiginals hne).symm hreplica.symm).bind ?_
    rintro _ _ ⟨rfl, charges', rfl⟩
    refine .bind_view ?_
    refine .bind_view ?_
    have horiginals' : before ++ [original] ++ rest = c.originals := by simpa using horiginals
    have hlen : before.length + 1 = (before ++ [original]).length := by simp
    have hidx : before.idxOf x.mount < before.length := idxOf_lt_length_iff.mpr hp
    have hcopies : (copies w before.length).length = before.length := by simp [copies]
    have hk : (c.replicated w (before.length + 1) charges').key
          ⟨w.made + before.idxOf x.mount, x.dentry⟩ =
        (c.replicated w c.originals.length []).key
          ⟨w.made + before.idxOf x.mount, x.dentry⟩ := by
      rw [World.key, World.key, mounts_replicated_new (hidx.trans (lt_add_one _)),
        mounts_replicated_new (hidx.trans hsofar)]
    dsimp only
    rw [hmount, hcopies, hk, ← copiedTable_succ hreplica, ← copies_succ, hlen]
    exact ih horiginals' (by simp) hr (hindexes.snoc hapart)

/-- Mounts that can be copied: one of a tree and then others of it, each after the mount it is
on. -/
structure Copyable (w : World) (space : Namespace) (c : Copying) : Prop where
  grows : Grows w.above [c.top] c.below
  nodup : c.originals.Nodup
  inside : ∀ m ∈ c.below, ∃ key, space.table.get? key = some m
  old : ∀ m ∈ c.originals, m < w.made

lemma lt_made {t : TreeRef} {space : Namespace} {m : MountRef} (h : Sound w)
    (hs : w.spaces t = some space) (hin : InTree space m) : m < w.made := by
  by_contra hge
  have ht := h.tree_of_inTree hs hin
  rw [h.mounts_fresh m (not_lt.mp hge)] at ht
  cases ht

lemma copyable_of_gathered {t : TreeRef} {space : Namespace} (h : Sound w)
    (hs : w.spaces t = some space) (hin : InTree space c.top)
    (hgathered : Gathered w.above (space.table.entries.map Prod.snd) c.top c.below) :
    Copyable w space c := by
  have hinside : ∀ m ∈ c.below, ∃ key, space.table.get? key = some m := fun m hm =>
    mem_values.mp (hgathered.subset m hm)
  refine ⟨hgathered.grows, hgathered.nodup, hinside, ?_⟩
  exact forall_mem_cons.mpr ⟨lt_made h hs hin, fun m hm => lt_made h hs (.inr (hinside m hm))⟩

lemma copyOf_first (h : Trees w) (hold : c.top < w.made) :
    Program.Ends (copyOf c.top c.root c.parent c.tree) w
      (fun m w' => m = w.made ∧ ∃ charges', w' = c.replicated w 1 charges') (fun _ => Trees) := by
  have hf : Program.Ends _ (c.replicated w 0 w.charges) _ _ :=
    copyOf_ends (nil_append c.originals) h hold rfl rfl
  rwa [replicated_zero] at hf

variable {s : TreeRef} {space : Namespace}

lemma Copyable.hanging (hcopy : Copyable w space c) (hpos : 0 < i)
    (hi : i < c.originals.length) : ∃ original x, c.originals[i]? = some original ∧
      original ∈ c.below ∧ (w.mounts original).parent = some x ∧ x.mount ∈ c.originals ∧
      c.originals.idxOf x.mount < i ∧
      (c.replica w i).parent = some ⟨w.made + c.originals.idxOf x.mount, x.dentry⟩ := by
  obtain ⟨j, rfl⟩ : ∃ j, i = j + 1 := ⟨i - 1, by omega⟩
  have hj : j < c.below.length := by simpa [Copying.originals] using hi
  have hsplit : c.below = c.below.take j ++ c.below[j] :: c.below.drop (j + 1) := by simp
  have horiginals : c.top :: c.below.take j ++ c.below[j] :: c.below.drop (j + 1) =
      c.originals := by
    rw [cons_append, ← hsplit, Copying.originals]
  have hlen : (c.top :: c.below.take j).length = j + 1 := by
    rw [length_cons, length_take, Nat.min_eq_left hj.le]
  have hgrows := hcopy.grows
  rw [hsplit] at hgrows
  obtain ⟨p, hp, habove⟩ := hgrows.parent
  obtain ⟨x, hparent, rfl⟩ := map_eq_some_iff.mp habove
  have hbefore : x.mount ∈ c.top :: c.below.take j := hp
  have hidx : c.originals.idxOf x.mount = (c.top :: c.below.take j).idxOf x.mount := by
    rw [← horiginals]
    exact idxOf_append_of_mem hbefore
  refine ⟨c.below[j], x, ?_, getElem_mem hj, hparent, ?_, ?_, ?_⟩
  · exact List.getElem?_eq_getElem hi
  · rw [← horiginals]
    exact mem_append_left _ hbefore
  · rw [hidx, ← hlen]
    exact idxOf_lt_length_iff.mpr hbefore
  · rw [hidx, ← hlen]
    exact replica_parent horiginals (by simp) hparent hbefore

lemma key_copy {j : Nat} (d : DentryId) (hj : j < c.originals.length) :
    (c.replicated w c.originals.length charges).key ⟨w.made + j, d⟩ =
      toLex (w.nextMount + j, d) := by
  rw [World.key, mounts_replicated_new hj]
  rfl

lemma hangings_fst (hparents : ∀ i < k, (c.replica w i).parent ≠ none) :
    (c.hangings w k).map Prod.fst = copies w k := by
  induction k with
  | zero => rfl
  | succ k ih =>
    obtain ⟨x, hloc⟩ := ne_none_iff_exists'.mp (hparents k (Nat.lt_succ_self k))
    rw [hangings_succ, map_append, ih fun i hi => hparents i (hi.trans (Nat.lt_succ_self k)),
      hloc, copies_succ]
    rfl

lemma mem_hangings {e : MountRef × Location} :
    e ∈ c.hangings w k ↔ ∃ i < k, e.1 = w.made + i ∧ (c.replica w i).parent = some e.2 := by
  rw [Copying.hangings, mem_filterMap]
  constructor
  · rintro ⟨i, hi, he⟩
    obtain ⟨x, hloc, rfl⟩ := map_eq_some_iff.mp he
    exact ⟨i, mem_range.mp hi, rfl, hloc⟩
  · rintro ⟨i, hi, hfst, hp⟩
    refine ⟨i, mem_range.mpr hi, ?_⟩
    rw [hp, map_some, ← hfst]

lemma Copyable.attachable (hcopy : Copyable w space c) (h : Sound w)
    (hs : w.spaces s = some space) {inTree : Set MountRef} {taken : Set Key} {n : Nat}
    (hpos : 0 < i) (hlen : i + n = c.originals.length)
    (hin : ∀ j < i, w.made + j ∈ inTree)
    (htaken : ∀ key ∈ taken, (ofLex key).1 < w.nextMount ∨ ∃ j, 0 < j ∧ j < i ∧
      ∃ x, (c.replica w j).parent = some x ∧
        (c.replicated w c.originals.length charges).key x = key) :
    Attachable (c.replicated w c.originals.length charges) c.tree inTree taken
      ((List.range' i n).filterMap fun i =>
        (c.replica w i).parent.map fun x => (w.made + i, x)) := by
  induction n generalizing i inTree taken with
  | zero => trivial
  | succ n ih =>
    have hi : i < c.originals.length := by omega
    obtain ⟨original, x, hg, hm, hp, hloc, hidx, hreplica⟩ := hcopy.hanging hpos hi
    rw [List.range'_succ, filterMap_cons, hreplica]
    refine ⟨⟨?_, ?_, hin _ hidx, ?_, ?_⟩, ih (Nat.succ_pos i) (by omega) ?_ ?_⟩
    · rw [mounts_replicated_new hi]
      exact hreplica
    · rw [mounts_replicated_new hi]
      rfl
    · intro htake
      rw [key_copy _ (hidx.trans hi)] at htake
      rcases htaken _ htake with hlt | ⟨j, hjpos, hji, x', hp', hk⟩
      · change w.nextMount + _ < w.nextMount at hlt
        omega
      · obtain ⟨original', x'', hg', hm', hp'', -, hidx', hreplica'⟩ :=
          hcopy.hanging hjpos (hji.trans hi)
        obtain rfl := mem_unique hreplica' hp'
        rw [key_copy _ (hidx'.trans (hji.trans hi))] at hk
        have hpair := Prod.ext_iff.mp (toLex.injective hk)
        have hmount : x.mount = x''.mount :=
          (idxOf_inj hloc).mp (by omega)
        have hplace : x'' = x := by
          cases x
          cases x''
          simp_all
        subst hplace
        obtain ⟨key, hk'⟩ := hcopy.inside original hm
        obtain ⟨key', hk''⟩ := hcopy.inside original' hm'
        have hsame : key = key' := (h.key_eq hs hk' hp).symm.trans (h.key_eq hs hk'' hp'')
        subst hsame
        obtain rfl := mem_unique hk' hk''
        exact hji.ne ((List.getElem?_inj (hji.trans hi) hcopy.nodup).mp (hg'.trans hg.symm))
    · obtain ⟨key, hk⟩ := hcopy.inside original hm
      obtain rfl := h.key_eq hs hk hp
      exact h.covered_lt hs hk
    · intro j hj
      rcases Nat.lt_succ_iff_lt_or_eq.mp hj with hj | rfl
      · exact .inr (hin j hj)
      · exact .inl rfl
    · rintro key (rfl | hk)
      · exact .inr ⟨i, hpos, Nat.lt_succ_self i, _, hreplica, rfl⟩
      · rcases htaken key hk with hlt | ⟨j, hjpos, hji, hr⟩
        · exact .inl hlt
        · exact .inr ⟨j, hjpos, hji.trans (Nat.lt_succ_self i), hr⟩

end Ferrix.Vfs.MountCopies
