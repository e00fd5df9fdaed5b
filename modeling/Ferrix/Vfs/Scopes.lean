import Ferrix.Vfs.Walks
import Ferrix.Vfs.MountLoops

/-!
Going up from a place, across mounts, one meets the places it is below.
-/

namespace Ferrix.Vfs.Scopes

open Relation Foundations Programs ParentPointers Dentries Mounts MountTables MountLoops
open Walks Function

variable {w w' : World} {scope loc : Location} {resolve : Resolve} {d dir c : DentryId}
variable {cache : Dcache}

/-- One place up: from the root of a mount the place the mount is on, and from anywhere else the
directory a place is in. -/
def overhead (w : World) (loc : Location) : Option Location :=
  if loc.dentry = (w.mounts loc.mount).root then (w.mounts loc.mount).parent
  else (w.dentry loc.dentry).parent.map fun dir => ⟨loc.mount, dir⟩

/-- A place is `scope`, or going up from it meets `scope`. -/
def Below (w : World) (scope loc : Location) : Prop := Climbs (overhead w) loc scope

/-- The directories above a place lead to the root of its mount. -/
def Connected (w : World) (loc : Location) : Prop :=
  Climbs (fun d => (w.dentry d).parent) loc.dentry (w.mounts loc.mount).root

/-- The dentries are a forest, and the children a directory has in the cache are in it. -/
structure Forest (w : World) : Prop where
  parents : ∀ d p, (w.dentry d).parent = some p → p < w.cache.next
  children : ∀ d name c, (w.dentry d).children name = some c → c < w.cache.next ∧
    ((w.dentry c).alive = true → (w.dentry c).parent = some d)
  ends : WellFounded fun p d => (w.dentry d).parent = some p

lemma overhead_root (hr : loc.dentry = (w.mounts loc.mount).root) :
    overhead w loc = (w.mounts loc.mount).parent := if_pos hr

lemma overhead_dir (hr : loc.dentry ≠ (w.mounts loc.mount).root)
    (hp : (w.dentry loc.dentry).parent = some d) : overhead w loc = some ⟨loc.mount, d⟩ := by
  rw [overhead, if_neg hr, hp]
  rfl

lemma overhead_cases {above : Location} (h : overhead w loc = some above) :
    loc.dentry = (w.mounts loc.mount).root ∧ (w.mounts loc.mount).parent = some above ∨
      loc.dentry ≠ (w.mounts loc.mount).root ∧
        ∃ dir, (w.dentry loc.dentry).parent = some dir ∧ above = ⟨loc.mount, dir⟩ := by
  rw [overhead] at h
  split_ifs at h with hr
  · exact .inl ⟨hr, h⟩
  · obtain ⟨dir, hd, rfl⟩ := Option.map_eq_some_iff.mp h
    exact .inr ⟨hr, dir, hd, rfl⟩

lemma Below.up (hbelow : Below w scope loc) : Below w scope (w.up loc (some scope)) := by
  have hgo : ∀ n loc, Below w scope loc → Below w scope (World.up.go w (some scope) n loc) := by
    intro n
    induction n with
    | zero => exact fun loc hbelow => hbelow
    | succ n ih =>
      intro loc hbelow
      rw [World.up.go]
      split_ifs with hscope hroot
      · exact hbelow
      all_goals
        have hne : loc ≠ scope := fun h => hscope (congrArg some h.symm)
        obtain ⟨above, hs, hr⟩ := Climbs.above_of_ne hbelow hne
      · rw [overhead_root hroot] at hs
        rw [hs]
        exact ih above hr
      · rw [overhead, if_neg hroot] at hs
        obtain ⟨dir, hp, rfl⟩ := Option.map_eq_some_iff.mp hs
        rw [hp]
        exact hr
  exact hgo _ loc hbelow

lemma parent_of_mountedOn {m : MountRef} (h : Trees w) (hmounted : w.mountedOn loc = some m) :
    (w.mounts m).parent = some loc := by
  obtain ⟨t, ht, hr⟩ := Option.bind_eq_some_iff.mp hmounted
  obtain ⟨s, hs, hg⟩ := Option.bind_eq_some_iff.mp hr
  obtain ⟨p, hp, hin⟩ := (h.rooted t s hs).owned _ m hg
  have hk := h.sound.key_eq hs hg hp
  have ht' := h.sound.tree_of_inTree hs hin
  rw [hp, h.sound.key_injective (by simp [ht']) (by simp [ht]) hk]

lemma Below.descendMounts (h : Trees w) (hbelow : Below w scope loc) :
    Below w scope (w.descendMounts loc) := by
  have hgo : ∀ n loc, Below w scope loc → Below w scope (World.descendMounts.go w n loc) := by
    intro n
    induction n with
    | zero => exact fun loc hbelow => hbelow
    | succ n ih =>
      intro loc hbelow
      rw [World.descendMounts.go]
      split_ifs with hcount
      · exact hbelow
      · cases hmounted : w.mountedOn loc with
        | none => exact hbelow
        | some m =>
          refine ih _ (.head ?_ hbelow)
          rw [overhead_root rfl]
          exact parent_of_mountedOn h hmounted
  exact hgo _ loc hbelow

/-- What is below a scope is connected to the root of its mount, or on the scope's own mount and
below it there. -/
theorem Below.on_mount (hbelow : Below w scope loc) :
    Connected w loc ∨ loc.mount = scope.mount ∧
      Climbs (fun d => (w.dentry d).parent) loc.dentry scope.dentry := by
  induction hbelow using ReflTransGen.head_induction_on with
  | refl => exact .inr ⟨rfl, .refl⟩
  | @head here above hs _ ih =>
    rcases overhead_cases hs with ⟨hr, -⟩ | ⟨-, dir, hp, rfl⟩
    · refine .inl ?_
      rw [Connected, hr]
      exact .refl
    · exact ih.imp (.head hp) fun ⟨hmount, hclimb⟩ => ⟨hmount, .head hp hclimb⟩

def top (w : World) (m : MountRef) : Location := w.descendMounts ⟨m, (w.mounts m).root⟩

/-- A directory's child is below what the directory is below, unless it is the root of a mount that
does not lead there. -/
theorem Below.child (hforest : Forest w) (hbelow : Below w scope loc)
    (hp : (w.dentry c).parent = some loc.dentry) : Below w scope ⟨loc.mount, c⟩ ∨
      ¬ Connected w scope ∧
        ⟨loc.mount, c⟩ = (⟨scope.mount, (w.mounts scope.mount).root⟩ : Location) := by
  by_cases hroot : c = (w.mounts loc.mount).root
  · have hacyclic : ¬ Climbs (fun d => (w.dentry d).parent) loc.dentry c := by
      intro hclimb
      have hcycle : TransGen (fun d p => (w.dentry d).parent = some p) c c := .head' hp hclimb
      exact hforest.ends.transGen.irrefl.irrefl c (transGen_swap.mp hcycle)
    rcases hbelow.on_mount with hconnected | ⟨hmount, hclimb⟩
    · rw [Connected, ← hroot] at hconnected
      exact absurd hconnected hacyclic
    · rw [hmount] at hroot
      refine .inr ⟨fun hconnected => hacyclic (hclimb.trans ?_), by rw [hmount, hroot]⟩
      rw [Connected, ← hroot] at hconnected
      exact hconnected
  · exact .inl (.head (overhead_dir hroot hp) hbelow)

section

/-- What a walk changes: dentries are added, and those there are stay where they are. -/
structure Grown (w w' : World) : Prop where
  mounts : w'.mounts = w.mounts
  spaces : w'.spaces = w.spaces
  parents : ∀ d p, (w.dentry d).parent = some p → (w'.dentry d).parent = some p

lemma Grown.refl (w : World) : Grown w w := ⟨rfl, rfl, fun _ _ h => h⟩

lemma Grown.trans {w'' : World} (hgrown : Grown w w') (hgrown' : Grown w' w'') : Grown w w'' :=
  ⟨hgrown'.mounts.trans hgrown.mounts, hgrown'.spaces.trans hgrown.spaces,
    fun d p hp => hgrown'.parents d p (hgrown.parents d p hp)⟩

lemma Grown.below (hgrown : Grown w w') (hbelow : Below w scope loc) : Below w' scope loc := by
  refine Climbs.mono hbelow fun here above hs => ?_
  rw [overhead, hgrown.mounts]
  rcases overhead_cases hs with ⟨hr, hp⟩ | ⟨hr, dir, hp, rfl⟩
  · rw [if_pos hr, hp]
  · rw [if_neg hr, hgrown.parents _ _ hp]
    rfl

lemma Grown.connected (hgrown : Grown w w') (hconnected : Connected w loc) :
    Connected w' loc := by
  rw [Connected, hgrown.mounts]
  exact Climbs.mono hconnected hgrown.parents

structure Added (cache cache' : Dcache) (dir : DentryId) : Prop where
  next : cache'.next = cache.next + 1
  parent : ∀ d, (cache'.dentries d).parent =
    if d = cache.next then some dir else (cache.dentries d).parent
  counts : ∀ d, (cache'.dentries d).mounts =
    if d = cache.next then 0 else (cache.dentries d).mounts
  alive : ∀ d, d ≠ cache.next → (cache'.dentries d).alive = (cache.dentries d).alive
  children : ∀ d name c, (cache'.dentries d).children name = some c →
    d ≠ cache.next ∧ (cache.dentries d).children name = some c ∨ d = dir ∧ c = cache.next
  fresh : ∀ d, cache.next < d → d ≠ dir → cache'.dentries d = cache.dentries d

lemma added_uncachedChild (cache : Dcache) (dir : DentryId) (n : Name) (i : Option Ino) :
    Added cache (cache.uncachedChild dir n i).2 dir := by
  have hdentries : ∀ d, ((cache.uncachedChild dir n i).2).dentries d =
      if d = cache.next then .new n (some dir) i else cache.dentries d :=
    fun d => update_apply _ _ _ _
  refine ⟨rfl, ?_, ?_, ?_, ?_, ?_⟩
  · intro d
    rw [hdentries]
    split_ifs <;> rfl
  · intro d
    rw [hdentries]
    split_ifs <;> rfl
  · intro d hd
    rw [hdentries, if_neg hd]
  · intro d n' c hc
    rw [hdentries] at hc
    split_ifs at hc with hd
    · cases hc
    · exact .inl ⟨hd, hc⟩
  · intro d hd _
    rw [hdentries, if_neg hd.ne']

lemma upgrade_eq_some {weak : Option DentryId} (h : cache.upgrade weak = some c) :
    weak = some c ∧ (cache.dentries c).alive = true := by
  obtain ⟨rfl, ha⟩ := Option.filter_eq_some_iff.mp h
  exact ⟨rfl, ha⟩

lemma added_insert (cache : Dcache) (name : Name) (i : Option Ino) (hdir : dir < cache.next) :
    Added cache (((cache.add (.new name (some dir) i)).retain dir).hash dir name cache.next)
      dir := by
  have ho : ∀ d, d ≠ dir →
      (((cache.add (.new name (some dir) i)).retain dir).hash dir name cache.next).dentries d =
        if d = cache.next then .new name (some dir) i else cache.dentries d := by
    intro d hd
    refine (update_of_ne hd _ _).trans ((update_of_ne hd _ _).trans ?_)
    exact update_apply _ _ _ _
  have hself : (((cache.add (.new name (some dir) i)).retain dir).hash dir name
      cache.next).dentries dir = { cache.dentries dir with
        children := update (fun n =>
          (cache.add (.new name (some dir) i)).upgrade ((cache.dentries dir).children n))
            name (some cache.next) } := by
    refine (update_self _ _ _).trans ?_
    have hretain : ((cache.add (.new name (some dir) i)).retain dir).dentries dir =
        { cache.dentries dir with children := fun n =>
          (cache.add (.new name (some dir) i)).upgrade ((cache.dentries dir).children n) } := by
      refine (update_self _ _ _).trans ?_
      have hadd : (cache.add (.new name (some dir) i)).dentries dir = cache.dentries dir :=
        update_of_ne hdir.ne _ _
      rw [hadd]
    rw [hretain]
  refine ⟨rfl, ?_, ?_, ?_, ?_, ?_⟩
  · intro d
    by_cases hd : d = dir
    · subst hd
      rw [hself, if_neg hdir.ne]
    · rw [ho d hd]
      split_ifs <;> rfl
  · intro d
    by_cases hd : d = dir
    · subst hd
      rw [hself, if_neg hdir.ne]
    · rw [ho d hd]
      split_ifs <;> rfl
  · intro d hne
    by_cases hd : d = dir
    · subst hd
      rw [hself]
    · rw [ho d hd, if_neg hne]
  · intro d name' c hc
    by_cases hd : d = dir
    · subst hd
      rw [hself] at hc
      dsimp only at hc
      rw [update_apply] at hc
      split_ifs at hc with hname
      · exact .inr ⟨rfl, (Option.some.inj hc).symm⟩
      · exact .inl ⟨hdir.ne, (upgrade_eq_some hc).1⟩
    · rw [ho d hd] at hc
      split_ifs at hc with hn
      · cases hc
      · exact .inl ⟨hn, hc⟩
  · intro d hd hne
    rw [ho d hne, if_neg hd.ne']

variable {cache : Dcache}

variable (hadded : Added w.cache cache dir)
include hadded

lemma Added.grown (h : Trees w) : Grown w (w.setCache cache) := by
  refine ⟨rfl, rfl, fun d p hp => ?_⟩
  change (cache.dentries d).parent = some p
  have hne : d ≠ w.cache.next := by
    rintro rfl
    rw [h.sound.dentries_fresh _ le_rfl] at hp
    cases hp
  rw [hadded.parent, if_neg hne]
  exact hp

lemma Added.trees (h : Trees w) (hdir : dir < w.cache.next) : Trees (w.setCache cache) := by
  have hsame : SameMounts w (w.setCache cache) := by
    refine ⟨rfl, rfl, le_rfl, rfl, rfl, ?_, ?_⟩
    · intro d
      change (cache.dentries d).mounts = _
      rw [hadded.counts]
      split_ifs with hd
      · rw [hd, h.sound.dentries_fresh _ le_rfl]
        rfl
      · rfl
    · intro d hd
      have hlt : w.cache.next < d := by
        have hle : cache.next ≤ d := hd
        rw [hadded.next] at hle
        omega
      change cache.dentries d = _
      rw [hadded.fresh d hlt (hdir.trans hlt).ne']
      exact h.sound.dentries_fresh d hlt.le
  exact hsame.trees h

lemma Added.forest (hforest : Forest w)
    (hdir : dir < w.cache.next) : Forest (w.setCache cache) := by
  have hparent : ∀ d, ((w.setCache cache).dentry d).parent =
      if d = w.cache.next then some dir else (w.dentry d).parent := hadded.parent
  have hold : ∀ d, d ≠ w.cache.next →
      Acc (fun p d => ((w.setCache cache).dentry d).parent = some p) d := by
    intro d
    induction d using hforest.ends.induction with
    | _ d ih =>
      intro hd
      refine ⟨d, fun p hp => ?_⟩
      rw [hparent, if_neg hd] at hp
      exact ih p hp (hforest.parents d p hp).ne
  refine ⟨?_, ?_, ⟨fun d => ?_⟩⟩
  · intro d p hp
    rw [hparent] at hp
    change p < cache.next
    rw [hadded.next]
    split_ifs at hp with hd
    · obtain rfl := Option.some.inj hp
      exact hdir.trans (lt_add_one _)
    · exact (hforest.parents d p hp).trans (lt_add_one _)
  · intro d n c hc
    rw [hparent]
    change c < cache.next ∧ _
    rw [hadded.next]
    rcases hadded.children d n c hc with ⟨-, hc⟩ | ⟨rfl, rfl⟩
    · obtain ⟨hlt, hdir'⟩ := hforest.children d n c hc
      refine ⟨hlt.trans (lt_add_one _), fun ha => ?_⟩
      rw [if_neg hlt.ne]
      exact hdir' ((hadded.alive c hlt.ne).symm.trans ha)
    · exact ⟨lt_add_one _, fun _ => if_pos rfl⟩
  · by_cases hd : d = w.cache.next
    · refine ⟨d, fun p hp => ?_⟩
      rw [hparent, if_pos hd] at hp
      obtain rfl := Option.some.inj hp
      exact hold _ hdir.ne
    · exact hold d hd

end

variable {fragments : List Fragment} {onLink : List Fragment → Cursor → Call Cursor}

abbrev Answers {α : Type} (call : Call α) (w : World) (ok : α → World → Prop) : Prop :=
  Program.Ends call w ok fun _ _ => True

structure Grounded (w : World) : Prop where
  trees : Trees w
  forest : Forest w

variable {α : Type} {ok : α → World → Prop} {n : Name} {i : Ino}

lemma answers_charge {f : Unit → Call α} (hf : ∀ cs, Answers (f ()) { w with charges := cs } ok) :
    Answers (charge >>= f) w ok := by
  refine .bind ((charge_ends w).mono (fun _ _ h => h) fun _ _ _ => trivial) ?_
  rintro ⟨⟩ _ ⟨cs, rfl⟩
  exact hf cs

lemma answers_ofExcept {β : Type} {result : Except Errno β} {f : β → Call α}
    (hf : ∀ b, result = .ok b → Answers (f b) w ok) :
    Answers (Program.ofExcept result >>= f) w ok := by
  cases result with
  | error e => exact trivial
  | ok b => exact hf b rfl

lemma answers_inode {f : Ino → Call α} (hf : ∀ ino, Answers (f ino) w ok) :
    Answers (inode loc >>= f) w ok := by
  have hi : Answers (inode loc) w fun _ w' => w' = w :=
    Program.Ends.bind_view (Program.Ends.ofOption (fun _ _ => rfl) fun _ => trivial)
  refine hi.bind ?_
  rintro ino _ rfl
  exact hf ino

lemma answers_lookUp {f : Option Ino → Call α}
    (hf : ∀ found, Answers (f found) w ok) : Answers (lookUp i n >>= f) w ok := by
  have hlookup : Answers (lookUp i n) w fun _ w' => w' = w := by
    refine .bind_view ?_
    split
    · exact rfl
    · exact rfl
    · exact trivial
  refine hlookup.bind ?_
  rintro found _ rfl
  exact hf found

section

variable (hground : Grounded w)
include hground

lemma Grounded.charges (cs : List Bool) : Grounded { w with charges := cs } :=
  ⟨(sameMounts_charges hground.trees.sound cs).trees hground.trees, { hground.forest with }⟩

lemma Grounded.added (hd : dir < w.cache.next) (hadded : Added w.cache cache dir)
    (cs : List Bool) : Grounded { w with cache := cache, charges := cs } ∧
      Grown w { w with cache := cache, charges := cs } ∧
      (cache.dentries w.cache.next).parent = some dir := by
  have hadded' : Grounded (w.setCache cache) :=
    ⟨hadded.trees hground.trees hd, hadded.forest hground.forest hd⟩
  exact ⟨hadded'.charges cs, ⟨rfl, rfl, (hadded.grown hground.trees).parents⟩,
    (hadded.parent _).trans (if_pos rfl)⟩

lemma child_answers : Answers (child dir n) w fun c w' => Grounded w' ∧ Grown w w' ∧
      (w'.dentry c).parent = some dir := by
  refine .bind_view ?_
  refine .bind_option trivial fun i hino => ?_
  have hd : dir < w.cache.next := hground.trees.sound.inode_lt hino
  refine .bind_view ?_
  split_ifs
  · refine answers_lookUp fun found => answers_charge fun cs => ?_
    exact hground.added hd (added_uncachedChild w.cache dir n found) cs
  · refine .bind_view ?_
    cases hcached : w.cache.cachedChild dir n with
    | some c =>
      obtain ⟨hc, ha⟩ := upgrade_eq_some hcached
      exact ⟨hground, .refl w, (hground.forest.children dir n c hc).2 ha⟩
    | none =>
      refine .bind_view ?_
      refine answers_lookUp fun found => ?_
      have hinsert : w.cache.insertLookedUp dir n found (w.dentry dir).generation =
          (some (w.cache.next, true), ((w.cache.add (.new n (some dir) found)).retain dir).hash
            dir n w.cache.next) := by
        rw [Dcache.insertLookedUp, hcached]
        exact if_neg fun h => h rfl
      have hinserted : Answers (insertLookedUp dir n found (w.dentry dir).generation) w
          fun b w' => b = some (w.cache.next, true) ∧ Grounded w' ∧
            Grown w w' ∧ (w'.dentry w.cache.next).parent = some dir := by
        refine answers_charge fun cs => ?_
        refine .bind_view (Program.Ends.bind_modify ?_)
        rw [hinsert]
        exact ⟨rfl, hground.added hd (added_insert w.cache n found hd) cs⟩
      refine hinserted.bind ?_
      rintro _ w' ⟨rfl, hadded⟩
      exact hadded

end

variable {ctx : Context} {cur : Cursor} {followLast : Bool} {step : PathStep}

/-- What one component does to a walk at or below `scope`: it keeps it there, follows a magic link,
or goes down to the root of a mount that does not lead to `scope`. -/
structure Stepped (w : World) (scope : Location) (links : Nat)
    (result : Cursor × Option (List UInt8)) (w' : World) : Prop where
  ground : Grounded w'
  grown : Grown w w'
  parent : Below w' scope result.1.current → Below w' scope result.1.parent
  current : Below w' scope result.1.current ∨ (result.2 = none ∧ links < result.1.links) ∨
    ¬ Connected w' scope ∧ result.1.current = top w' scope.mount

section

variable (hground : Grounded w) (hcurrent : Below w ctx.root cur.current)
include hground

lemma followMagic_answers {t : Except Errno Location} : Answers (followMagic ctx cur resolve t) w
    (Stepped w ctx.root cur.links) := by
  refine .guard trivial fun _ => ?_
  refine answers_ofExcept fun p _ => ?_
  refine .guard trivial fun _ => ?_
  refine .bind_view ?_
  exact ⟨hground, .refl w, fun hbelow => hbelow.up, .inr (.inl ⟨rfl, Nat.lt_succ_self _⟩)⟩

include hcurrent

lemma followTarget_answers : Answers (followTarget ctx cur resolve i) w
    (Stepped w ctx.root cur.links) := by
  refine .bind_view ?_
  refine answers_ofExcept fun t _ => ?_
  refine .guard trivial fun _ => ?_
  refine .guard trivial fun _ => ?_
  refine ⟨hground, .refl w, id, .inl ?_⟩
  dsimp only
  split_ifs
  · exact .refl
  · exact hcurrent

lemma arrive_answers {next : Location} {i : Option Ino}
    (hnext : Below w ctx.root next ∨ ¬ Connected w ctx.root ∧ next = top w ctx.root.mount) :
    Answers (arrive ctx cur step followLast resolve n next i) w (Stepped w ctx.root cur.links) := by
  have hthere : Stepped w ctx.root cur.links
      ({ cur with parent := cur.current, current := next, last := .name n }, none) w :=
    ⟨hground, .refl w, fun _ => hcurrent, hnext.imp_right .inr⟩
  cases i with
  | none =>
    refine .guard trivial fun _ => ?_
    exact hthere
  | some ino =>
    refine .bind_view ?_
    dsimp only
    split_ifs
    · exact hthere
    · refine .guard trivial fun _ => ?_
      refine .bind_view ?_
      cases w.inodes.linkLocation ino with
      | some t => exact followMagic_answers hground
      | none => exact followTarget_answers hground hcurrent

lemma advance_answers : Answers (advance ctx cur step followLast resolve) w
    (Stepped w ctx.root cur.links) := by
  rw [advance]
  cases classify step.component with
  | dot => exact ⟨hground, .refl w, id, .inl hcurrent⟩
  | dotDot =>
    refine .guard trivial fun _ => ?_
    refine .bind_view ?_
    refine .guard trivial fun _ => ?_
    exact ⟨hground, .refl w, fun _ => hcurrent, .inl hcurrent.up⟩
  | name name =>
    refine answers_ofExcept fun _ _ => ?_
    refine (child_answers hground).bind ?_
    rintro c w' ⟨hground', hgrown, hp⟩
    refine .bind_view ?_
    refine .guard trivial fun _ => ?_
    refine .bind_view ?_
    have hcurrent' := hgrown.below hcurrent
    have hnext : Below w' ctx.root (w'.descendMounts ⟨cur.current.mount, c⟩) ∨
        ¬ Connected w' ctx.root ∧
          w'.descendMounts ⟨cur.current.mount, c⟩ = top w' ctx.root.mount := by
      rcases hcurrent'.child hground'.forest hp with hchild | ⟨hnot, hroot⟩
      · exact .inl (hchild.descendMounts hground'.trees)
      · exact .inr ⟨hnot, congrArg w'.descendMounts hroot⟩
    refine (arrive_answers hground' hcurrent' hnext).mono_ok fun r w'' hstepped => ?_
    exact { hstepped with grown := hgrown.trans hstepped.grown }

lemma walkStep_answers : Answers (walkStep ctx followLast resolve cur step) w
    (Stepped w ctx.root cur.links) := by
  have hkind : Answers (kind cur.current) w fun _ w' => w' = w :=
    answers_inode fun ino => Program.Ends.view rfl
  have hdirectory : Answers (requireDirectory cur.current) w fun _ w' => w' = w := by
    refine hkind.bind ?_
    rintro kind _ rfl
    exact .require (fun _ => rfl) fun _ => trivial
  have hsearch : Answers (requireSearch ctx cur.current) w fun _ w' => w' = w :=
    answers_inode fun ino => Program.Ends.bind_view
      (Program.Ends.ofExcept (fun _ _ => rfl) fun _ _ => trivial)
  refine hdirectory.bind ?_
  rintro _ _ rfl
  refine hsearch.bind ?_
  rintro _ _ rfl
  exact advance_answers hground hcurrent

end

variable {resolve : Resolve}

lemma next_eq_none (hbytes : bytes fragments = 0) : next fragments = none := by
  cases hn : next fragments with
  | none => rfl
  | some stepped =>
    obtain ⟨step, rest⟩ := stepped
    have hlt := bytes_next hn
    omega

lemma walkFragments_fuel {n m : Nat}
    {cur : Cursor} (hn : bytes fragments ≤ n) (hm : bytes fragments ≤ m) :
    walkFragments ctx followLast resolve onLink n fragments cur =
      walkFragments ctx followLast resolve onLink m fragments cur := by
  induction n generalizing m fragments cur with
  | zero =>
    cases m with
    | zero => rfl
    | succ m => rw [walkFragments, walkFragments, next_eq_none (Nat.le_zero.mp hn)]
  | succ n ih =>
    cases m with
    | zero => rw [walkFragments, walkFragments, next_eq_none (Nat.le_zero.mp hm)]
    | succ m =>
      rw [walkFragments, walkFragments]
      cases hnext : next fragments with
      | none => rfl
      | some stepped =>
        obtain ⟨step, rest⟩ := stepped
        have hlt := bytes_next hnext
        refine congrArg (Bind.bind (walkStep ctx followLast resolve cur step)) ?_
        funext stepped
        obtain ⟨cur', target⟩ := stepped
        cases target with
        | none => exact ih (by omega) (by omega)
        | some target => rfl

/-- The loop of a walk: one component after the other, and a link's target before the rest of the
path. -/
theorem walkLinks_eq (links : Nat) (fragments : List Fragment) (cur : Cursor) :
    walkLinks ctx followLast resolve (links + 1) fragments cur = (match next fragments with
      | none => pure cur
      | some (step, rest) => do
        let (cur', target) ← walkStep ctx followLast resolve cur step
        match target with
        | none => walkLinks ctx followLast resolve (links + 1) rest cur'
        | some target =>
          walkLinks ctx followLast resolve links (⟨target, step.mustBeDir⟩ :: rest) cur') := by
  have hmore : walkLinks ctx followLast resolve (links + 1) fragments cur =
      walkFragments ctx followLast resolve (walkLinks ctx followLast resolve links)
        (bytes fragments + 1) fragments cur :=
    walkFragments_fuel le_rfl (Nat.le_succ _)
  rw [hmore, walkFragments]
  cases hn : next fragments with
  | none => rfl
  | some stepped =>
    obtain ⟨step, rest⟩ := stepped
    have hlt := bytes_next hn
    refine congrArg (Bind.bind (walkStep ctx followLast resolve cur step)) ?_
    funext stepped
    obtain ⟨cur', target⟩ := stepped
    cases target with
    | none => exact walkFragments_fuel hlt.le le_rfl
    | some target => rfl

end Ferrix.Vfs.Scopes
