import Ferrix.Vfs.Scopes
import Ferrix.Vfs.MountTrees

/-!
`openat2` keeps a walk in a directory by making it the walk's root.  A magic link's target is not
compared with the root, and a directory moved out of the part of a filesystem its mount shows has
that mount's root below it.
-/

namespace Ferrix.Vfs.ScopedWalks

open Relation Foundations Programs ParentPointers Dentries Mounts MountTables MountLoops
open MountTrees Walks Scopes

section

/-- A walk between two components; `jumped` says that the last one was a magic link, followed. -/
structure Course where
  fragments : List Fragment
  cur : Cursor
  world : World
  jumped : Bool

variable (ctx : Context) (followLast : Bool) (resolve : Resolve)

def Course.next (course : Course) : Option Course :=
  match Walks.next course.fragments with
  | none => none
  | some (step, rest) =>
    match walkStep ctx followLast resolve course.cur step course.world with
    | (.ok (cur, none), w) => some ⟨rest, cur, w, course.cur.links < cur.links⟩
    | (.ok (cur, some target), w) => some ⟨⟨target, step.mustBeDir⟩ :: rest, cur, w, false⟩
    | (.error _, _) => none

def Course.new (start : Location) (path : List UInt8) (w : World) : Course where
  fragments := [⟨path, false⟩]
  cur := { parent := walkStart ctx start path, current := walkStart ctx start path, last := .root,
           mustBeDir := endsWithSlash path, links := 0 }
  world := w
  jumped := false

/-- The walk of the path comes to a place with so much still to walk. -/
def Comes (start : Location) (path : List UInt8) (w : World) (course : Course) : Prop :=
  Climbs (Course.next ctx followLast resolve) (.new ctx start path w) course

/-- Each magic link the walk meets leads to a place at or below its root, and if the root's mount
does not lead to it, the walk never comes to what that mount shows at its own root. -/
structure Kept (start : Location) (path : List UInt8) (w : World) : Prop where
  magic : ∀ course, Comes ctx followLast resolve start path w course → course.jumped = true →
    Below course.world ctx.root course.cur.current
  connected : Connected w ctx.root ∨ ∀ course, Comes ctx followLast resolve start path w course →
    course.cur.current ≠ top course.world ctx.root.mount

def Attached (w : World) (m : MountRef) : Prop :=
  ∃ t space, w.spaces t = some space ∧ InTree space m

variable {ctx followLast resolve} {start : Location} {path : List UInt8} {w w' : World}
variable {course course' : Course} {fragments : List Fragment} {cur cur' : Cursor}

lemma walkFragments_comes {onLink : List Fragment → Cursor → Call Cursor} {n : Nat}
    (hlink : ∀ fragments cur w, onLink fragments cur w = (.ok cur', w') → ∃ rest last,
      Climbs (Course.next ctx followLast resolve) ⟨fragments, cur, w, false⟩ ⟨rest, cur', w', last⟩)
    (hrun : walkFragments ctx followLast resolve onLink n fragments cur w = (.ok cur', w'))
    (jumped : Bool) : ∃ rest last, Climbs (Course.next ctx followLast resolve)
      ⟨fragments, cur, w, jumped⟩ ⟨rest, cur', w', last⟩ := by
  induction n generalizing fragments cur w jumped with
  | zero =>
    cases hrun
    exact ⟨_, _, .refl⟩
  | succ n ih =>
    rw [walkFragments] at hrun
    cases hnext : Walks.next fragments with
    | none =>
      rw [hnext] at hrun
      cases hrun
      exact ⟨_, _, .refl⟩
    | some stepped =>
      obtain ⟨step, rest⟩ := stepped
      rw [hnext] at hrun
      dsimp only at hrun
      rw [Program.bind_run] at hrun
      rcases hstep : walkStep ctx followLast resolve cur step w with ⟨e | ⟨there, t⟩, w₁⟩
      · rw [hstep] at hrun
        cases hrun
      · rw [hstep] at hrun
        cases t with
        | none =>
          obtain ⟨rest', last, hclimb⟩ := ih hrun (cur.links < there.links)
          refine ⟨rest', last, .head ?_ hclimb⟩
          rw [Course.next, hnext]
          dsimp only
          rw [hstep]
        | some t =>
          obtain ⟨rest', last, hclimb⟩ := hlink _ _ _ hrun
          refine ⟨rest', last, .head ?_ hclimb⟩
          rw [Course.next, hnext]
          dsimp only
          rw [hstep]

lemma walkLinks_comes {links : Nat}
    (hrun : walkLinks ctx followLast resolve links fragments cur w = (.ok cur', w'))
    (jumped : Bool) : ∃ rest last, Climbs (Course.next ctx followLast resolve)
      ⟨fragments, cur, w, jumped⟩ ⟨rest, cur', w', last⟩ := by
  induction links generalizing fragments cur w jumped with
  | zero => exact walkFragments_comes (fun _ _ _ hfails => by cases hfails) hrun jumped
  | succ links ih => exact walkFragments_comes (fun _ _ _ hlink => ih hlink false) hrun jumped

lemma walkResolving_comes {walked : Walked}
    (hrun : walkResolving ctx followLast resolve start path w = (.ok walked, w')) :
    ∃ course, Comes ctx followLast resolve start path w course ∧ course.world = w' ∧
      course.cur.parent = walked.parent ∧ course.cur.current = walked.found := by
  have hanswers : Answers (walkResolving ctx followLast resolve start path) w fun walked w' =>
      ∃ course, Comes ctx followLast resolve start path w course ∧ course.world = w' ∧
        course.cur.parent = walked.parent ∧ course.cur.current = walked.found := by
    refine .guard trivial fun _ => ?_
    refine .guard trivial fun _ => ?_
    dsimp only
    have hlinks : Answers (walkLinks ctx followLast resolve maxSymlinks [⟨path, false⟩]
        (Course.new ctx start path w).cur) w fun cur w' =>
          ∃ rest last, Comes ctx followLast resolve start path w ⟨rest, cur, w', last⟩ := by
      rw [Answers, Program.Ends]
      rcases hlinks : walkLinks ctx followLast resolve maxSymlinks [⟨path, false⟩]
        (Course.new ctx start path w).cur w with ⟨e | cur, w₁⟩
      · trivial
      · exact walkLinks_comes hlinks false
    refine hlinks.bind ?_
    rintro cur w₁ ⟨rest, last, hcomes⟩
    have hfinal : Answers (requireFinal cur) w₁ fun _ w'' => w'' = w₁ := by
      refine .bind_view ?_
      split
      · exact rfl
      · refine .bind_view ?_
        exact .require (fun _ => rfl) fun _ => trivial
    refine hfinal.bind ?_
    rintro _ _ rfl
    exact ⟨_, hcomes, rfl, rfl, rfl⟩
  exact hanswers.ok_of_run hrun

structure Inside (w : World) (scope : Location) (course : Course) : Prop where
  ground : Grounded course.world
  grown : Grown w course.world
  parent : Below course.world scope course.cur.parent
  current : Below course.world scope course.cur.current

lemma Inside.next (hinside : Inside w ctx.root course)
    (hnext : course.next ctx followLast resolve = some course') :
    Grounded course'.world ∧ Grown w course'.world ∧
      (Below course'.world ctx.root course'.cur.current →
        Below course'.world ctx.root course'.cur.parent) ∧
      (Below course'.world ctx.root course'.cur.current ∨ course'.jumped = true ∨
        ¬ Connected course'.world ctx.root ∧
          course'.cur.current = top course'.world ctx.root.mount) := by
  rw [Course.next] at hnext
  cases hfragments : Walks.next course.fragments with
  | none =>
    rw [hfragments] at hnext
    cases hnext
  | some stepped =>
    obtain ⟨step, rest⟩ := stepped
    rw [hfragments] at hnext
    dsimp only at hnext
    rcases hstep : walkStep ctx followLast resolve course.cur step course.world with
      ⟨e | ⟨there, t⟩, w₁⟩
    · rw [hstep] at hnext
      cases hnext
    · have hstepped := (walkStep_answers hinside.ground hinside.current).ok_of_run hstep
      rw [hstep] at hnext
      cases t with
      | none =>
        cases hnext
        refine ⟨hstepped.ground, hinside.grown.trans hstepped.grown, hstepped.parent, ?_⟩
        exact hstepped.current.imp_right (.imp_left fun hjumped => decide_eq_true hjumped.2)
      | some t =>
        cases hnext
        refine ⟨hstepped.ground, hinside.grown.trans hstepped.grown, hstepped.parent, ?_⟩
        exact hstepped.current.imp_right (.imp_left fun hjumped => nomatch hjumped.1)

lemma inside_new (hground : Grounded w) (hstart : Below w ctx.root start) :
    Inside w ctx.root (.new ctx start path w) := by
  have hcurrent : Below w ctx.root (walkStart ctx start path) := by
    rw [walkStart]
    split_ifs
    · exact .refl
    · exact hstart
  exact ⟨hground, .refl w, hcurrent, hcurrent⟩

lemma Kept.inside (hkept : Kept ctx followLast resolve start path w) (hground : Grounded w)
    (hstart : Below w ctx.root start) (hcomes : Comes ctx followLast resolve start path w course) :
    Inside w ctx.root course := by
  induction hcomes with
  | refl => exact inside_new hground hstart
  | @tail course course' hcomes hnext ih =>
    obtain ⟨hground', hgrown, hparent, hbelow⟩ := ih.next hnext
    have hcurrent : Below course'.world ctx.root course'.cur.current := by
      rcases hbelow with hbelow | hjumped | ⟨hnot, htop⟩
      · exact hbelow
      · exact hkept.magic _ (hcomes.tail hnext) hjumped
      · rcases hkept.connected with hconnected | hnever
        · exact absurd (hgrown.connected hconnected) hnot
        · exact absurd htop (hnever _ (hcomes.tail hnext))
    exact ⟨hground', hgrown, hparent hcurrent, hcurrent⟩

/-- On the mounts of one tree, what a mount shows at its root is not below another place on it. -/
theorem not_below_top {scope : Location} (htrees : Trees w) (hattached : Attached w scope.mount)
    (hroot : scope.dentry ≠ (w.mounts scope.mount).root) : ¬ Below w scope (top w scope.mount) := by
  -- Down a stack of mounts every place is its mount's root, and so none of them is the scope.
  have hstack : ∀ n m, Below w scope (World.descendMounts.go w n ⟨m, (w.mounts m).root⟩) →
      Below w scope ⟨m, (w.mounts m).root⟩ := by
    intro n
    induction n with
    | zero => exact fun m hbelow => hbelow
    | succ n ih =>
      intro m hbelow
      rw [World.descendMounts.go] at hbelow
      split_ifs at hbelow with hcount
      · exact hbelow
      · cases hmounted : w.mountedOn ⟨m, (w.mounts m).root⟩ with
        | none =>
          rw [hmounted] at hbelow
          exact hbelow
        | some m' =>
          rw [hmounted] at hbelow
          have hne : (⟨m', (w.mounts m').root⟩ : Location) ≠ scope := by
            rintro rfl
            exact hroot rfl
          obtain ⟨above, hs, hr⟩ := Climbs.above_of_ne (ih m' hbelow) hne
          rw [overhead_root rfl, parent_of_mountedOn htrees hmounted] at hs
          obtain rfl := Option.some.inj hs
          exact hr
  have hmounts : ∀ loc, Below w scope loc → Climbs w.above loc.mount scope.mount := by
    intro loc hbelow
    induction hbelow using ReflTransGen.head_induction_on with
    | refl => exact .refl
    | @head here above hs _ ih =>
      rcases overhead_cases hs with ⟨-, hp⟩ | ⟨-, dir, -, rfl⟩
      · refine .head ?_ ih
        rw [World.above, hp]
        rfl
      · exact ih
  intro hbelow
  have hne : (⟨scope.mount, (w.mounts scope.mount).root⟩ : Location) ≠ scope := fun heq =>
    hroot (congrArg Location.dentry heq).symm
  obtain ⟨above, hs, hr⟩ := Climbs.above_of_ne (hstack _ _ hbelow) hne
  rw [overhead_root rfl] at hs
  obtain ⟨t, space, hspace, hin⟩ := hattached
  have habove : w.above scope.mount = some above.mount := by
    rw [World.above, hs]
    rfl
  exact no_cycle htrees hspace hin habove (hmounts above hr)

/-- On an attached mount only a walk that stays where `Kept` says is inside all the way. -/
theorem kept_of_below (hground : Grounded w) (hstart : Below w ctx.root start)
    (hattached : Attached w ctx.root.mount)
    (hbelow : ∀ course, Comes ctx followLast resolve start path w course →
      Below course.world ctx.root course.cur.current) :
    Kept ctx followLast resolve start path w := by
  have hinside : ∀ course, Comes ctx followLast resolve start path w course →
      Inside w ctx.root course := by
    intro course hcomes
    induction hcomes with
    | refl => exact inside_new hground hstart
    | @tail course course' hcomes hnext ih =>
      obtain ⟨hground', hgrown, hparent, -⟩ := ih.next hnext
      have hcurrent := hbelow course' (hcomes.tail hnext)
      exact ⟨hground', hgrown, hparent hcurrent, hcurrent⟩
  refine ⟨fun course hcomes _ => hbelow course hcomes, ?_⟩
  by_cases hroot : ctx.root.dentry = (w.mounts ctx.root.mount).root
  · refine .inl ?_
    rw [Connected, hroot]
    exact .refl
  refine .inr fun course hcomes htop => ?_
  obtain ⟨hground', hgrown, -, hbelow'⟩ := hinside course hcomes
  rw [htop] at hbelow'
  refine not_below_top hground'.trees ?_ ?_ hbelow'
  · obtain ⟨t, space, hspace, hin⟩ := hattached
    exact ⟨t, space, by rw [hgrown.spaces, hspace], hin⟩
  · rwa [hgrown.mounts]

end

/-- A directory `x` with a directory `b` and a magic link `m` to the root of the filesystem, beside
a directory `mnt`. -/
def sandboxInodes : Inodes where
  metadata := fun ino =>
    { kind := if ino = 5 then .symlink else .directory, permissions := 0o755, uid := 0, gid := 0 }
  lookup := fun ino name => if ino = 2 ∧ name = [109] then .ok 5 else .error .noent
  readLink := fun _ => .error .inval
  linkLocation := fun ino => if ino = 5 then some (.ok ⟨1, 1⟩) else none
  cachesLookups := fun _ => true
  cachesLookupOf := fun _ _ => true

def sandboxCache (cache : Dcache) : Dcache :=
  ((((cache.add (.new [120] (some 1) (some 2))).add (.new [98] (some 2) (some 3))).add
    (.new [109, 110, 116] (some 1) (some 4))).hash 2 [98] 3).hash 1 [109, 110, 116] 4

def sandboxTree : World :=
  (boot sandboxInodes 0 1 []).setCache (sandboxCache (boot sandboxInodes 0 1 []).cache)

/-- The tree above with `b` also mounted on `mnt`.  The place `x` on that mount is one the mount
does not lead to, as one that was in `b` and has been moved out. -/
def sandbox : World := (Request.bind 0 ⟨1, 3⟩ ⟨1, 4⟩ false).run sandboxTree

lemma sandbox_trees : Trees sandbox := by
  have hsame : SameMounts (boot sandboxInodes 0 1 []) sandboxTree := by
    refine ⟨rfl, rfl, le_rfl, rfl, rfl, ?_, ?_⟩
    · intro d
      rcases d with - | - | - | - | - | d <;> rfl
    · rintro d hd
      rcases d with - | - | - | - | - | d
      on_goal 6 => rfl
      all_goals exact absurd hd (by decide)
  exact Request.run_trees (hsame.trees boot_trees) (.bind 0 ⟨1, 3⟩ ⟨1, 4⟩ false)

lemma sandbox_blank {d : Nat} (hd : 5 ≤ d) : sandbox.dentry d = .blank :=
  sandbox_trees.sound.dentries_fresh d hd

lemma sandbox_forest : Forest sandbox := by
  have hparent : ∀ d p, (sandbox.dentry d).parent = some p → p < d ∧ d < 5 := by
    intro d p hparent
    by_cases hd : d < 5
    · refine ⟨?_, hd⟩
      interval_cases d
      · cases hparent
      · cases hparent
      all_goals
        obtain rfl := Option.some.inj hparent
        decide
    · rw [sandbox_blank (not_lt.mp hd)] at hparent
      cases hparent
  constructor
  · intro d p hp
    have hlt := hparent d p hp
    exact hlt.1.trans hlt.2
  · intro d n c hc
    by_cases hd : d < 5
    · interval_cases d
      · cases hc
      · change Function.update (fun _ => none) [109, 110, 116] (some 4) n = some c at hc
        rw [Function.update_apply] at hc
        split_ifs at hc
        obtain rfl := Option.some.inj hc
        exact ⟨by decide, fun _ => rfl⟩
      · change Function.update (fun _ => none) [98] (some 3) n = some c at hc
        rw [Function.update_apply] at hc
        split_ifs at hc
        obtain rfl := Option.some.inj hc
        exact ⟨by decide, fun _ => rfl⟩
      · cases hc
      · cases hc
    · rw [sandbox_blank (not_lt.mp hd)] at hc
      cases hc
  · exact Subrelation.wf (fun {p d} h => (hparent d p h).1) Nat.lt_wfRel.wf

/-- Over a mount table and a directory tree that are trees: a walk of `openat2` kept in a directory
ends there or below it if it is `Kept`, and so does a plain walk, in its context's root; on an
attached mount only a walk that is `Kept` is at or below its root all the way. -/
theorem scoped_walks_stay {w : World} (htrees : Trees w) (hforest : Forest w) :
    (∀ nofollow ctx dir path how walked w', OpenHow.rooted how = true →
      Kept { ctx with root := dir.getD ctx.cwd } (how.follows nofollow) how.restrictions
        (dir.getD ctx.cwd) path w →
      openat2 nofollow ctx dir path how w = (.ok walked, w') →
      Below w' (dir.getD ctx.cwd) walked.parent ∧ Below w' (dir.getD ctx.cwd) walked.found) ∧
    (∀ ctx followLast start path walked w', Below w ctx.root start →
      Kept ctx followLast .default start path w →
      walk ctx followLast start path w = (.ok walked, w') →
      Below w' ctx.root walked.parent ∧ Below w' ctx.root walked.found) ∧
    ∀ ctx followLast resolve start path, Below w ctx.root start → Attached w ctx.root.mount →
      (Kept ctx followLast resolve start path w ↔
        ∀ course, Comes ctx followLast resolve start path w course →
          Below course.world ctx.root course.cur.current) := by
  have hground : Grounded w := ⟨htrees, hforest⟩
  have hresolving : ∀ ctx followLast resolve start path walked w', Below w ctx.root start →
      Kept ctx followLast resolve start path w →
      walkResolving ctx followLast resolve start path w = (.ok walked, w') →
      Below w' ctx.root walked.parent ∧ Below w' ctx.root walked.found := by
    intro ctx followLast resolve start path walked w' hstart hkept hrun
    obtain ⟨course, hcomes, rfl, hparent, hfound⟩ := walkResolving_comes hrun
    have hinside := hkept.inside hground hstart hcomes
    exact ⟨hparent ▸ hinside.parent, hfound ▸ hinside.current⟩
  refine ⟨?_, fun ctx followLast => hresolving ctx followLast .default, ?_⟩
  · intro nofollow ctx dir path how walked w' hrooted hkept hrun
    have hanswers : Answers (openat2 nofollow ctx dir path how) w fun walked w' =>
        Below w' (dir.getD ctx.cwd) walked.parent ∧ Below w' (dir.getD ctx.cwd) walked.found := by
      refine .guard trivial fun _ => ?_
      refine .guard trivial fun _ => ?_
      dsimp only
      rw [if_pos hrooted, Program.Ends]
      split
      next walked w' hwalk => exact hresolving _ _ _ _ _ walked w' .refl hkept hwalk
      next => trivial
    exact hanswers.ok_of_run hrun
  · intro ctx followLast resolve start path hstart hattached
    exact ⟨fun hkept course hcomes => (hkept.inside hground hstart hcomes).current,
      kept_of_below hground hstart hattached⟩

def sandboxContext : Context := ⟨⟨1, 1⟩, ⟨1, 1⟩, .root⟩

lemma sandbox_connected : Connected sandbox ⟨1, 2⟩ := .single rfl

/-- `b` from `x`, kept in `x` and in `/`: no magic link is met, though one in `x` leads out. -/
theorem scoped_walks_stay_child :
    (∃ walked w', openat2 0o400000 sandboxContext (some ⟨1, 2⟩) [98] ⟨0, 0, 8⟩ sandbox =
        (.ok walked, w') ∧ Below w' ⟨1, 2⟩ walked.parent ∧ Below w' ⟨1, 2⟩ walked.found) ∧
      ∃ walked w', walk sandboxContext true ⟨1, 2⟩ [98] sandbox = (.ok walked, w') ∧
        Below w' ⟨1, 1⟩ walked.parent ∧ Below w' ⟨1, 1⟩ walked.found := by
  obtain ⟨hscoped, hplain, -⟩ := scoped_walks_stay sandbox_trees sandbox_forest
  -- After one component the walk is over, and that was no link.
  have hjumps : ∀ ctx followLast resolve, (∃ there,
      (Course.new ctx ⟨1, 2⟩ [98] sandbox).next ctx followLast resolve = some there ∧
        there.next ctx followLast resolve = none ∧ there.jumped = false) → ∀ course,
      Comes ctx followLast resolve ⟨1, 2⟩ [98] sandbox course → ¬ course.jumped = true := by
    rintro ctx followLast resolve ⟨there, hnext, hover, hjumped⟩ course hcomes
    rcases hcomes.cases_head with rfl | ⟨second, hsecond, hrest⟩
    · exact Bool.false_ne_true
    · obtain rfl := Option.some.inj (hnext.symm.trans hsecond)
      rcases hrest.cases_head with rfl | ⟨third, hthird, -⟩
      · rw [hjumped]
        exact Bool.false_ne_true
      · rw [hover] at hthird
        cases hthird
  refine ⟨⟨_, _, rfl, hscoped 0o400000 sandboxContext (some ⟨1, 2⟩) [98] ⟨0, 0, 8⟩ _ _ rfl ?_ rfl⟩,
    ⟨_, _, rfl, hplain sandboxContext true ⟨1, 2⟩ [98] _ _ (.single rfl) ?_ rfl⟩⟩
  · exact ⟨fun course hcomes hjumped => absurd hjumped (hjumps _ _ _ ⟨_, rfl, rfl, rfl⟩ _ hcomes),
      .inl sandbox_connected⟩
  · exact ⟨fun course hcomes hjumped => absurd hjumped (hjumps _ _ _ ⟨_, rfl, rfl, rfl⟩ _ hcomes),
      .inl .refl⟩

lemma not_below {w : World} {scope x : Location} (above : Location) (hne : x ≠ scope)
    (habove : overhead w x = some above) (hne' : above ≠ scope)
    (htop : overhead w above = none) : ¬ Below w scope x := by
  intro hbelow
  obtain ⟨above', hs, hr⟩ := Climbs.above_of_ne hbelow hne
  obtain rfl := Option.mem_unique habove hs
  obtain ⟨top, hs', -⟩ := Climbs.above_of_ne hr hne'
  rw [htop] at hs'
  cases hs'

/-- Kept beneath `x`, `m` leads to the root of the filesystem; and kept beneath the place `x` on the
mount of `b`, with magic links forbidden, so does `b/..`. -/
theorem scoped_walks_leave : Trees sandbox ∧ Forest sandbox ∧
      (∃ walked w', openat2 0o400000 sandboxContext (some ⟨1, 2⟩) [109] ⟨0, 0, 8⟩ sandbox =
        (.ok walked, w') ∧ ¬ Below w' ⟨1, 2⟩ walked.found) ∧
      ∃ walked w', openat2 0o400000 sandboxContext (some ⟨2, 2⟩) [98, 47, 46, 46] ⟨0, 0, 10⟩
        sandbox = (.ok walked, w') ∧ ¬ Below w' ⟨2, 2⟩ walked.found := by
  refine ⟨sandbox_trees, sandbox_forest, ⟨_, _, rfl, ?_⟩, ⟨_, _, rfl, ?_⟩⟩
  all_goals exact not_below ⟨0, 0⟩ (by decide) rfl (by decide) rfl

end Ferrix.Vfs.ScopedWalks
