import Ferrix.Vfs.ScopedWalks

/-!
`getcwd`, `/proc/self/fd` and `mountinfo` report a place by the names met going up from it to a
root.  Walked from that root the path leads back if nothing is mounted on the root itself: a walk
starts below what covers it.
-/

namespace Ferrix.Vfs.Paths

open Relation Foundations Programs ParentPointers Dentries Mounts MountTables Walks
open Scopes ScopedWalks World Program Option

section

variable (w : World)

def isDetached (loc : Location) : Bool := (w.mounts loc.mount).id = detachedMount

/-- The names met going up from a place to `root` or the top of its tree, before those there are
already. -/
def partsOf (root : Location) : Nat → Location → List Name → List Name
  | 0, _, parts => parts
  | fuel + 1, here, parts =>
    if here = root then parts
    else if here.dentry = (w.mounts here.mount).root then
      match (w.mounts here.mount).parent with
      | some place => partsOf root fuel place parts
      | none => parts
    else
      let parts := (w.dentry here.dentry).name :: parts
      match (w.dentry here.dentry).parent with
      | some parent => partsOf root fuel ⟨here.mount, parent⟩ parts
      | none => parts

def joined (parts : List Name) : List UInt8 := parts.flatMap (slash :: ·)

def pathOf (loc root : Location) : List UInt8 :=
  if isDetached w loc then (w.dentry loc.dentry).name
  else
    let parts := partsOf w root ((w.made + 1) * (w.cache.next + 1)) loc []
    if parts.isEmpty then [slash] else joined parts

def pathWithin (loc root : Location) : Option (List UInt8) :=
  if isDetached w loc then none
  else if w.reaches loc root then some (pathOf w loc root)
  else none

end

variable {w : World} {root loc p q : Location} {n : Name}

abbrev toward (w : World) (root : Location) : Location → Option Location := upTo (overhead w) root

lemma toward_cases (h : toward w root loc = some p) : loc ≠ root ∧
    (loc.dentry = (w.mounts loc.mount).root ∧ (w.mounts loc.mount).parent = some p ∨
      loc.dentry ≠ (w.mounts loc.mount).root ∧
        ∃ dir, (w.dentry loc.dentry).parent = some dir ∧ p = ⟨loc.mount, dir⟩) :=
  ⟨(upTo_eq_some.mp h).1, overhead_cases (upTo_eq_some.mp h).2⟩

def onto (w : World) (loc : Location) : Option Location :=
  (w.mountedOn loc).map fun m => ⟨m, (w.mounts m).root⟩

section

variable (htrees : Trees w)
include htrees

lemma mounted_lt {m : MountRef} (h : (w.mounts m).parent = some p) : m < w.made := by
  by_contra hm
  rw [htrees.sound.mounts_fresh m (not_lt.mp hm)] at h
  cases h

lemma descendMounts_eq (hclimb : Climbs (onto w) p q) (hend : onto w q = none) :
    w.descendMounts p = q := by
  have hnone : w.mountedOn q = none := map_eq_none_iff.mp hend
  refine hclimb.bounded (P := fun n p => descendMounts.go w (n + 1) p = q) hend ?_ ?_
    ((List.range w.made).filterMap fun m => (w.mounts m).parent) ?_
    ((List.length_filterMap_le _ _).trans_eq List.length_range)
  · intro n
    rw [descendMounts.go, hnone]
    exact ite_self _
  · intro n p p' hp _ hr
    obtain ⟨m, hm, rfl⟩ := map_eq_some_iff.mp hp
    obtain ⟨t, -, hspaces⟩ := bind_eq_some_iff.mp hm
    obtain ⟨S, hspace, hg⟩ := bind_eq_some_iff.mp hspaces
    have hcounted : 1 ≤ (w.dentry p.dentry).mounts := by
      rw [htrees.sound.counted]
      exact htrees.sound.one_le_total hspace hg
    rw [descendMounts.go, hm, if_neg (by omega)]
    exact hr
  · intro x _ _ _ hx
    obtain ⟨m, hm, -⟩ := map_eq_some_iff.mp hx
    have hparent := parent_of_mountedOn htrees hm
    exact List.mem_filterMap.mpr ⟨m, List.mem_range.mpr (mounted_lt htrees hparent), hparent⟩

/-- An induction along the way up to `root` that has the fuel of `pathOf` and `reaches`. -/
theorem Below.bounded {P : Nat → Location → Prop} (hbelow : Below w root loc)
    (hroot : ∀ n, P n root) (hs : ∀ n loc p, toward w root loc = some p →
      Climbs (toward w root) p root → P n p → P (n + 1) loc) :
    P ((w.made + 1) * (w.cache.next + 1)) loc := by
  have hmount : ∀ x, Climbs (toward w root) x root → x.mount = root.mount ∨ x.mount < w.made := by
    intro x hx
    induction hx using ReflTransGen.head_induction_on with
    | refl => exact .inl rfl
    | @head x p hup _ ih =>
      obtain ⟨-, ⟨-, hp⟩ | ⟨-, dir, -, rfl⟩⟩ := toward_cases hup
      · exact .inr (mounted_lt htrees hp)
      · exact ih
  refine (climbs_upTo.mpr hbelow).bounded upTo_self hroot hs
    (((root.mount :: List.range w.made) ×ˢ List.range (w.cache.next + 1)).map fun x =>
      ⟨x.1, if x.2 = w.cache.next then (w.mounts x.1).root else x.2⟩) ?_ (by
        rw [List.length_map, List.length_product, List.length_cons, List.length_range,
          List.length_range])
  intro x p _ hx hup
  have hin : x.mount ∈ root.mount :: List.range w.made := by simpa using hmount x hx
  obtain ⟨-, ⟨htop, -⟩ | ⟨-, dir, hd, -⟩⟩ := toward_cases hup
  · refine List.mem_map.mpr ⟨(x.mount, w.cache.next), List.mem_product.mpr ⟨hin, by simp⟩, ?_⟩
    rw [if_pos rfl, ← htop]
  · have hlt : x.dentry < w.cache.next := by
      by_contra hle
      rw [htrees.sound.dentries_fresh _ (not_lt.mp hle)] at hd
      cases hd
    refine List.mem_map.mpr ⟨(x.mount, x.dentry), List.mem_product.mpr ⟨hin, ?_⟩, ?_⟩
    · exact List.mem_range.mpr (hlt.trans w.cache.next.lt_succ_self)
    · rw [if_neg hlt.ne]

end

section

variable (hroot : ∀ m, (w.mounts m).parent ≠ some root)
include hroot

lemma climbs_up (hne : loc ≠ root) (n : Nat) :
    Climbs (toward w root) loc (up.go w none n loc) := by
  induction n generalizing loc with
  | zero => exact .refl
  | succ n ih =>
    rw [up.go, if_neg (by simp)]
    split_ifs with htop
    · cases hp : (w.mounts loc.mount).parent with
      | none => exact .refl
      | some place =>
        refine .head (upTo_eq_some.mpr ⟨hne, (overhead_root htop).trans hp⟩) (ih ?_)
        rintro rfl
        exact hroot _ hp
    · cases hp : (w.dentry loc.dentry).parent with
      | none => exact .refl
      | some dir => exact .single (upTo_eq_some.mpr ⟨hne, overhead_dir htop hp⟩)

lemma above_climbs_up (hup : toward w root loc = some p) :
    Climbs (toward w root) p (w.up loc none) := by
  rw [up, up.go, if_neg (by simp)]
  obtain ⟨-, ⟨htop, hp⟩ | ⟨htop, dir, hd, rfl⟩⟩ := toward_cases hup
  · rw [if_pos htop, hp]
    exact climbs_up hroot (by rintro rfl; exact hroot _ hp) _
  · rw [if_neg htop, hd]
    exact .refl

/-- Where nothing is mounted on a place, going `..` meets it from exactly the places below it. -/
theorem reaches_iff (htrees : Trees w) : w.reaches loc root = true ↔ Below w root loc := by
  constructor
  · have hgo : ∀ fuel loc, reaches.go w root fuel loc = true → Climbs (toward w root) loc root := by
      intro fuel
      induction fuel with
      | zero =>
        intro loc hloc
        rw [show loc = root from of_decide_eq_true hloc]
        exact .refl
      | succ fuel ih =>
        intro loc hloc
        rw [reaches.go] at hloc
        dsimp only at hloc
        split_ifs at hloc with heq
        · rw [heq]
          exact .refl
        · exact (climbs_up hroot heq _).trans (ih _ hloc)
    exact fun h => climbs_upTo.mp (hgo _ _ h)
  · intro hbelow
    have hself : ∀ n, reaches.go w root n root = true := by
      rintro (- | n) <;> simp [reaches.go]
    -- `..` may pass several places at once, so the induction speaks of all those above one
    refine Below.bounded htrees hbelow (P := fun n loc => ∀ k x, n ≤ k →
      Climbs (toward w root) loc x → reaches.go w root k x = true) ?_ ?_ _ _ le_rfl .refl
    · intro n k x _ hx
      rcases hx.cases_head with rfl | ⟨p, hp, -⟩
      · exact hself k
      · cases upTo_self.symm.trans hp
    · intro n loc p hup hclimb ih k x hk hx
      rcases hx.cases_head with rfl | ⟨p', hp', hr⟩
      · obtain ⟨k, rfl⟩ : ∃ j, k = j + 1 := ⟨k - 1, by omega⟩
        have habove := above_climbs_up hroot hup
        rw [reaches.go, if_neg (upTo_eq_some.mp hup).1]
        dsimp only
        rw [if_neg ?_]
        · exact ih k _ (by omega) habove
        · intro hsame
          rw [hsame] at habove
          exact Climbs.no_cycle (.head hup hclimb) upTo_self hup habove
      · obtain rfl := mem_unique hup hp'
        exact ih k x (by omega) hr

end

/-- A walk with the rights of `who` finds the name of `d` in the directory `dir`. -/
structure Named (w : World) (who : Access) (dir d : DentryId) : Prop where
  hashed : w.cache.cachedChild dir (w.dentry d).name = some d
  valid : checkName (w.dentry d).name = .ok ()
  plain : classify (w.dentry d).name = .name (w.dentry d).name
  searched : ∃ ino, (w.dentry dir).inode = some ino ∧ (w.inodes.metadata ino).kind = .directory ∧
    who.permitted (w.inodes.metadata ino) mayExec = true ∧
    (w.inodes.cachesLookups ino || w.inodes.cachesLookupOf ino (w.dentry d).name) = true

/-- The place above another shows it: as what is mounted on it, or under its name in a directory
nothing is mounted on. -/
def Shows (w : World) (who : Access) (above loc : Location) : Prop :=
  if loc.dentry = (w.mounts loc.mount).root then w.mountedOn above = some loc.mount
  else w.mountedOn above = none ∧ Named w who above.dentry loc.dentry

/-- A walk goes on from a place, or ends there if nothing is left of the path. -/
def Passable (w : World) (last : Prop) (loc : Location) : Prop :=
  match (w.dentry loc.dentry).inode with
  | none => last
  | some ino => (w.inodes.metadata ino).kind ≠ .symlink

lemma next_joined (h : checkName n = .ok ()) (rest : List Name) :
    ∃ step, next [⟨joined (n :: rest), false⟩] = some (step, [⟨joined rest, false⟩]) ∧
      step.component = n ∧ (rest = [] → step.isLast = true ∧ step.mustBeDir = false) := by
  rw [checkName] at h
  split_ifs at h with he _ hany
  have hm : ∀ c ∈ n, decide (c ≠ slash) = true := by
    simpa using fun c hc heq => hany (List.any_eq_true.mpr ⟨c, hc, by simp [heq]⟩)
  have hdrop : (joined (n :: rest)).dropWhile (· = slash) = n ++ joined rest := by
    cases n with
    | nil => exact absurd rfl he
    | cons b n => simp [joined, of_decide_eq_true (hm b (.head _))]
  have hend : (joined rest).takeWhile (· ≠ slash) = [] ∧
      (joined rest).dropWhile (· ≠ slash) = joined rest := by
    cases rest <;> simp [joined]
  rw [next]
  dsimp only
  rw [hdrop, if_neg (by simpa using fun h => absurd h (by simpa using he)),
    List.dropWhile_append_of_pos hm, List.takeWhile_append_of_pos hm, hend.1, hend.2]
  refine ⟨_, rfl, List.append_nil _, ?_⟩
  rintro rfl
  simp [joined]

section

variable {ctx : Context} {cur : Cursor} {step : PathStep} {followLast : Bool} {d : DentryId}

lemma arrive_run (hpass : Passable w (step.isLast = true) q) :
    arrive ctx cur step followLast .default n q (w.dentry q.dentry).inode w =
      (.ok ({ cur with parent := cur.current, current := q, last := .name n }, none), w) := by
  rw [Passable] at hpass
  cases hi : (w.dentry q.dentry).inode with
  | none =>
    rw [hi] at hpass
    rw [arrive, hpass]
    rfl
  | some i =>
    rw [hi] at hpass
    simp [arrive, bind_run, hpass]

lemma walkStep_run (hnamed : Named w ctx.who cur.current.dentry d)
    (hq : w.descendMounts ⟨cur.current.mount, d⟩ = q) (hs : step.component = (w.dentry d).name)
    (hpass : Passable w (step.isLast = true) q) :
    walkStep ctx followLast .default cur step w =
      (.ok (⟨cur.current, q, .name (w.dentry d).name, step.mustBeDir, cur.links⟩, none), w) := by
  obtain ⟨ino, hino, hkind, hexec, hcaches⟩ := hnamed.searched
  have hchild : child cur.current.dentry (w.dentry d).name w = (.ok d, w) := by
    simp [child, bind_run, ofOption, hino, hcaches, hnamed.hashed]
  simpa [walkStep, requireDirectory, requireSearch, kind, inode, advance, Program.bind_run,
    Program.ofOption, Program.require, Program.ofExcept, Access.require, Resolve.crosses,
    Resolve.default, hino, hkind, hexec, hchild, hs, hnamed.plain, hnamed.valid, hq] using
    arrive_run hpass

/-- Going up from a place to `root`, every place is shown by the one above it. -/
def Shown (w : World) (who : Access) (root loc : Location) : Prop :=
  ∀ p above, Climbs (toward w root) loc p → toward w root p = some above →
    Shows w who above p

variable {onLink : List Fragment → Cursor → Call Cursor} {fragments : List Fragment}

lemma walkFragments_of_next {resolve : Resolve} (h : next fragments = none) (steps : Nat) :
    walkFragments ctx followLast resolve onLink steps fragments cur w = (.ok cur, w) := by
  cases steps with
  | zero => rfl
  | succ steps =>
    rw [walkFragments, h]
    rfl

/-- To walk the names of a place and then `rest` is to walk `rest` from what is on the place. -/
def Retraced (w : World) (ctx : Context) (followLast : Bool)
    (onLink : List Fragment → Cursor → Call Cursor) (cur : Cursor) (fuel : Nat) (loc : Location) :
    Prop :=
  ∀ rest q, Shown w ctx.who ctx.root loc → Climbs (onto w) loc q → onto w q = none →
    Passable w (rest = []) q →
    ∀ steps, (joined (partsOf w ctx.root fuel loc rest)).length ≤ steps →
      ∃ cur' steps', cur'.current = q ∧ (rest = [] → cur'.mustBeDir = true → cur' = cur) ∧
        (joined rest).length ≤ steps' ∧
        walkFragments ctx followLast .default onLink steps
            [⟨joined (partsOf w ctx.root fuel loc rest), false⟩] cur w =
          walkFragments ctx followLast .default onLink steps' [⟨joined rest, false⟩] cur' w

/-- A place below `root` a walk can find: it is shown from there, nothing covers it, and it is no
link. -/
structure Findable (w : World) (who : Access) (root loc : Location) : Prop where
  attached : isDetached w loc = false
  below : Below w root loc
  shown : Shown w who root loc
  bare : w.mountedOn loc = none
  passable : Passable w True loc

section

variable (htrees : Trees w) (hroot : w.mountedOn ctx.root = none)
include htrees hroot

lemma retraced (hbelow : Below w ctx.root loc) (hcur : cur.current = ctx.root) (followLast : Bool)
    (onLink : List Fragment → Cursor → Call Cursor) :
    Retraced w ctx followLast onLink cur ((w.made + 1) * (w.cache.next + 1)) loc := by
  refine Below.bounded htrees hbelow ?_ ?_
  · intro n r q _ hclimb _ _ steps hsteps
    have hparts : partsOf w ctx.root n ctx.root r = r := by
      cases n with
      | zero => rfl
      | succ n => exact if_pos rfl
    rw [hparts] at hsteps ⊢
    rcases hclimb.cases_head with rfl | ⟨_, hup, -⟩
    · exact ⟨cur, steps, hcur, fun _ _ => rfl, hsteps, rfl⟩
    · rw [onto, hroot] at hup
      cases hup
  · intro n loc above hup _ ih r q hshows hclimb hend hpass steps hsteps
    have hthis := hshows loc above .refl hup
    have hshows' := fun p above' hp => hshows p above' (.head hup hp)
    rw [Shows] at hthis
    obtain ⟨hne, ⟨htop, hp⟩ | ⟨htop, dir, hd, rfl⟩⟩ := toward_cases hup
    · rw [partsOf, if_neg hne, if_pos htop, hp] at hsteps ⊢
      rw [if_pos htop] at hthis
      have honto : onto w above = some loc := by
        rw [onto, hthis, map_some, ← htop]
      exact ih r q hshows' (.head honto hclimb) hend hpass steps hsteps
    · rw [partsOf, if_neg hne, if_neg htop, hd] at hsteps ⊢
      rw [if_neg htop] at hthis
      obtain ⟨hbare, hnamed⟩ := hthis
      have hpass' : Passable w ((w.dentry loc.dentry).name :: r = []) ⟨loc.mount, dir⟩ := by
        obtain ⟨i, hino, hkind, -, -⟩ := hnamed.searched
        simp [Passable, hino, hkind]
      obtain ⟨cur₁, steps₁, hcur₁, -, hsteps₁, hwalk⟩ := ih _ _ hshows' .refl
        (by rw [onto, hbare]; rfl) hpass' steps hsteps
      obtain ⟨step, hn, hcomponent, hl⟩ := next_joined hnamed.valid r
      have hlen : (joined r).length < steps₁ := by
        simp only [joined, List.flatMap_cons, List.length_append, List.length_cons] at hsteps₁ ⊢
        omega
      obtain ⟨k, rfl⟩ : ∃ k, steps₁ = k + 1 := ⟨steps₁ - 1, by omega⟩
      have hq : w.descendMounts ⟨cur₁.current.mount, loc.dentry⟩ = q := by
        rw [hcur₁]
        exact descendMounts_eq htrees hclimb hend
      rw [← hcur₁] at hnamed
      have hpass₁ : Passable w (step.isLast = true) q := by
        rw [Passable] at hpass ⊢
        split at hpass
        · exact (hl hpass).1
        · exact hpass
      refine ⟨⟨cur₁.current, q, .name (w.dentry loc.dentry).name, step.mustBeDir, cur₁.links⟩, k,
        rfl, fun hnil hmust => ?_, Nat.le_of_lt_succ hlen, ?_⟩
      · exact absurd ((hl hnil).2.symm.trans hmust) Bool.false_ne_true
      · rw [hwalk, walkFragments, hn]
        exact bind_of_ok (walkStep_run hnamed hq hcomponent hpass₁)

lemma walkLinks_pathOf (hfind : Findable w ctx.who ctx.root loc) (followLast : Bool)
    (hcur : cur.current = ctx.root) :
    ∃ cur', cur'.current = loc ∧ (cur'.mustBeDir = true → cur' = cur) ∧
      walkLinks ctx followLast .default maxSymlinks [⟨pathOf w loc ctx.root, false⟩] cur w =
        (.ok cur', w) := by
  obtain ⟨cur', steps, hcur', hmust, -, hwalk⟩ := retraced htrees hroot hfind.below hcur
    followLast (walkLinks ctx followLast .default 39) [] loc hfind.shown .refl
    (by rw [onto, hfind.bare]; rfl) (by simpa [Passable] using hfind.passable) _ le_rfl
  rw [walkFragments_of_next (show next [⟨joined [], false⟩] = none from rfl)] at hwalk
  refine ⟨cur', hcur', hmust rfl, ?_⟩
  rw [pathOf, hfind.attached]
  dsimp only
  cases hparts : partsOf w ctx.root ((w.made + 1) * (w.cache.next + 1)) loc [] with
  | nil =>
    rw [hparts, walkFragments_of_next rfl] at hwalk
    exact (walkFragments_of_next rfl _).trans hwalk
  | cons n rest =>
    rw [hparts] at hwalk
    exact hwalk

end

lemma requireFinal_run (h : cur.mustBeDir = true → ∀ i,
    (w.dentry cur.current.dentry).inode = some i → (w.inodes.metadata i).kind = .directory) :
    requireFinal cur w = (.ok (), w) := by
  rw [requireFinal, bind_run, view_run]
  dsimp only
  cases hi : (w.dentry cur.current.dentry).inode with
  | none => rfl
  | some i =>
    cases hd : cur.mustBeDir with
    | false => simp [bind_run, require]
    | true => simp [bind_run, require, h hd i hi]

end

/-- Where nothing is mounted on a root, which is a directory: the path of every place a walk can
find from it leads back to the place, and exactly the places at or below it, objects no directory
holds apart, have a path within it. -/
theorem paths_lead_back (ctx : Context) (htrees : Trees w)
    (hroot : ∀ m, (w.mounts m).parent ≠ some ctx.root)
    (hdir : ∀ ino, (w.dentry ctx.root.dentry).inode = some ino →
      (w.inodes.metadata ino).kind = .directory) :
    (∀ loc followLast start, Findable w ctx.who ctx.root loc →
      ∃ walked, walk ctx followLast start (pathOf w loc ctx.root) w = (.ok walked, w) ∧
        walked.found = loc) ∧
    ∀ loc, (pathWithin w loc ctx.root).isSome = true ↔
      isDetached w loc = false ∧ Below w ctx.root loc := by
  constructor
  · intro loc followLast start hfind
    have hclear : w.mountedOn ctx.root = none :=
      Option.eq_none_iff_forall_ne_some.mpr fun m hm => hroot m (parent_of_mountedOn htrees hm)
    obtain ⟨path, hpath⟩ : ∃ path, pathOf w loc ctx.root = slash :: path := by
      rw [pathOf, hfind.attached]
      dsimp only
      cases partsOf w ctx.root ((w.made + 1) * (w.cache.next + 1)) loc [] with
      | nil => exact ⟨[], rfl⟩
      | cons name rest => exact ⟨name ++ joined rest, rfl⟩
    let cur : Cursor := ⟨ctx.root, ctx.root, .root, endsWithSlash (slash :: path), 0⟩
    obtain ⟨cur', hcur', hmust, hlinks⟩ :=
      walkLinks_pathOf htrees hclear hfind followLast (show cur.current = ctx.root from rfl)
    have hfinal : requireFinal cur' w = (.ok (), w) := by
      refine requireFinal_run fun hmust' => ?_
      rw [hmust hmust']
      exact hdir
    refine ⟨⟨cur'.parent, cur'.last, cur'.current, cur'.mustBeDir⟩, ?_, hcur'⟩
    rw [hpath] at hlinks ⊢
    exact (Program.bind_of_ok hlinks).trans (Program.bind_of_ok hfinal)
  · intro loc
    rw [pathWithin, ← reaches_iff hroot htrees]
    split_ifs with hdetached hreaches <;> simp_all

lemma shown_root (who : Access) : Shown w who root root := by
  intro p above hclimb habove
  rcases hclimb.cases_head with rfl | ⟨q, hq, -⟩
  · cases upTo_self.symm.trans habove
  · cases upTo_self.symm.trans hq

lemma Shown.below {who : Access} (hup : toward w root loc = some p) (hshows : Shows w who p loc)
    (hshown : Shown w who root p) : Shown w who root loc := by
  intro q above hclimb habove
  rcases hclimb.cases_head with rfl | ⟨p', hp', hr⟩
  · obtain rfl := mem_unique hup habove
    exact hshows
  · obtain rfl := mem_unique hup hp'
    exact hshown q above hr habove

/-- What is mounted on `mnt`, from the root of the filesystem. -/
theorem paths_lead_back_child : ∃ walked,
    walk ⟨⟨1, 1⟩, ⟨1, 2⟩, .root⟩ true ⟨1, 2⟩ (pathOf sandbox ⟨2, 3⟩ ⟨1, 1⟩) sandbox =
      (.ok walked, sandbox) ∧ walked.found = ⟨2, 3⟩ := by
  have hroot : ∀ m, (sandbox.mounts m).parent ≠ some ⟨1, 1⟩ := by
    intro m
    by_cases hm : m < 3
    · interval_cases m <;> decide
    · rw [sandbox_trees.sound.mounts_fresh m (not_lt.mp hm)]
      decide
  have hmnt : Shown sandbox .root ⟨1, 1⟩ ⟨1, 4⟩ := by
    refine .below (p := ⟨1, 1⟩) rfl ?_ (shown_root .root)
    rw [Shows, if_neg (by decide)]
    exact ⟨rfl, rfl, rfl, rfl, 1, rfl, rfl, rfl, rfl⟩
  have hmounted : Shown sandbox .root ⟨1, 1⟩ ⟨2, 3⟩ := by
    refine .below (p := ⟨1, 4⟩) rfl ?_ hmnt
    rw [Shows, if_pos (by decide)]
    rfl
  refine (paths_lead_back ⟨⟨1, 1⟩, ⟨1, 2⟩, .root⟩ sandbox_trees hroot ?_).1 ⟨2, 3⟩ true
    ⟨1, 2⟩ ⟨rfl, .head (b := ⟨1, 4⟩) rfl (.single rfl), hmounted, rfl, ?_⟩
  · rintro ino ⟨⟩
    rfl
  · exact FileType.noConfusion

/-- From `mnt`, the path of the root of the mount on it is `/`, which leads to `mnt` itself; and
that root has no path within `mnt`. -/
theorem path_leads_under_mount : Trees sandbox ∧ Findable sandbox .root ⟨1, 4⟩ ⟨2, 3⟩ ∧
    (∃ walked w', walk ⟨⟨1, 4⟩, ⟨1, 4⟩, .root⟩ true ⟨1, 4⟩ (pathOf sandbox ⟨2, 3⟩ ⟨1, 4⟩) sandbox =
      (.ok walked, w') ∧ walked.found ≠ ⟨2, 3⟩) ∧ pathWithin sandbox ⟨2, 3⟩ ⟨1, 4⟩ = none := by
  refine ⟨sandbox_trees, ⟨rfl, .single rfl, .below rfl ?_ (shown_root .root), rfl, ?_⟩,
    ⟨_, _, rfl, ?_⟩, rfl⟩
  · rw [Shows, if_pos (by decide)]
    rfl
  · exact FileType.noConfusion
  · decide

end Ferrix.Vfs.Paths
