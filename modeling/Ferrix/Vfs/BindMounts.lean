import Ferrix.Vfs.ScopedWalks
import Ferrix.Vfs.NameInvariant

/-!
No call that changes mount tables moves a dentry or changes the root of a mount, so whoever is
below that root stays there, until a rename through another mount takes the directory they hold
elsewhere.
-/

namespace Ferrix.Vfs.BindMounts

open Relation Foundations Programs ParentPointers Dentries Mounts MountTables MountTrees
open Scopes ScopedWalks NameInvariant Function

variable {w w' w'' : World}

def directory (w : World) (d : DentryId) : Option DentryId := (w.dentry d).parent

def Fresh (w : World) : Prop := ∀ d, w.cache.next ≤ d → directory w d = none

/-- Every mount has the root it had, and every dentry is in the directory it was in. -/
structure Kept (w w' : World) : Prop where
  fresh : Fresh w'
  made : w.made ≤ w'.made
  roots : ∀ m < w.made, (w'.mounts m).root = (w.mounts m).root
  parents : ∀ d p, directory w d = some p → directory w' d = some p

def Stays (w w' : World) : Prop := Fresh w → Kept w w'

instance : Std.Refl Stays := ⟨fun _ hfresh => ⟨hfresh, le_rfl, fun _ _ => rfl, fun _ _ h => h⟩⟩

lemma Stays.trans (hf : Stays w w') (hsecond : Stays w' w'') : Stays w w'' := by
  intro hfresh
  have h₁ := hf hfresh
  have h₂ := hsecond h₁.fresh
  refine ⟨h₂.fresh, h₁.made.trans h₂.made, fun m hm => ?_, fun d p hp => ?_⟩
  · rw [h₂.roots m (hm.trans_le h₁.made), h₁.roots m hm]
  · exact h₂.parents d p (h₁.parents d p hp)

instance : IsTrans World Stays := ⟨fun _ _ _ => Stays.trans⟩

lemma Stays.of_same (hmade : w'.made = w.made)
    (hroots : ∀ m, (w'.mounts m).root = (w.mounts m).root) (hn : w'.cache.next = w.cache.next)
    (hparents : ∀ d, directory w' d = directory w d) : Stays w w' := by
  intro hfresh
  refine ⟨fun d hd => ?_, hmade.ge, fun m _ => hroots m, fun d p hp => ?_⟩
  · rw [hparents]
    exact hfresh d (hn ▸ hd)
  · rw [hparents, hp]

lemma stays_addMount (w : World) (d : DentryId) : Stays w (w.setCache (w.cache.addMount d)) := by
  refine .of_same rfl (fun _ => rfl) rfl fun e => ?_
  change ((w.cache.addMount d).dentries e).parent = _
  rw [Dcache.addMount, dentries_update]
  split_ifs <;> rfl

lemma stays_removeMount (w : World) (d : DentryId) :
    Stays w (w.setCache (w.cache.removeMount d)) := by
  refine .of_same rfl (fun _ => rfl) rfl fun e => ?_
  change ((w.cache.removeMount d).dentries e).parent = _
  rw [Dcache.removeMount, dentries_update]
  split_ifs <;> rfl

lemma stays_setTable (w : World) (t : TreeRef) (table : Table) : Stays w (w.setTable t table) :=
  .of_same rfl (fun _ => rfl) rfl fun _ => rfl

lemma stays_setParent (w : World) (m : MountRef) (p : Option Location) :
    Stays w (w.setParent m p) := by
  refine .of_same rfl (fun n => ?_) rfl fun _ => rfl
  rw [mounts_setParent]
  split_ifs with hn
  · rw [hn]
  · rfl

section

open Program

lemma charge_moves : Moves Stays charge := by
  intro w
  rw [charge]
  split
  · exact refl w
  · exact .of_same rfl (fun _ => rfl) rfl fun _ => rfl

lemma kind_moves (x : Location) : Moves Stays (kind x) :=
  .bind (.bind (.view _) fun _ => .ofOption _ _) fun _ => .view _

lemma dentryRoot_moves (n : Name) (i : Ino) : Moves Stays (dentryRoot n i) := by
  refine .bind charge_moves fun _ => .bind (.view _) fun d =>
    .bind (.modify fun w hfresh => ?_) fun _ => .pure d
  have hparent : ∀ e, ((w.cache.add (.new n none (some i))).dentries e).parent =
      if e = w.cache.next then none else directory w e := by
    intro e
    change (update w.cache.dentries _ _ e).parent = _
    rw [update_apply]
    split_ifs <;> rfl
  refine ⟨fun e he => ?_, le_rfl, fun _ _ => rfl, fun e p hp => ?_⟩
  · refine (hparent e).trans (ite_eq_left_iff.mpr fun _ => hfresh e ?_)
    exact (Nat.le_succ _).trans he
  · refine (hparent e).trans ((if_neg ?_).trans hp)
    rintro rfl
    rw [hfresh _ le_rfl] at hp
    cases hp

lemma nextId_moves : Moves Stays nextId :=
  .bind (.view _) fun _ => .bind (.modify fun _ => .of_same rfl (fun _ => rfl) rfl fun _ => rfl)
    fun _ => .pure _

lemma newMount_moves (mount : Mount) : Moves Stays (newMount mount) := by
  intro w hfresh
  refine ⟨hfresh, Nat.le_succ _, fun m hm => ?_, fun _ _ h => h⟩
  exact congrArg Mount.root (update_of_ne hm.ne _ _)

lemma place_moves (t : TreeRef) (m : MountRef) (x : Option Location) :
    Moves Stays (place t m x) := by
  cases x with
  | none => exact .pure ()
  | some x => exact .modify fun w => (stays_setTable w t _).trans (stays_addMount _ _)

lemma descendants_moves (t : TreeRef) (top : MountRef) (within : Option DentryId) :
    Moves Stays (descendants t top within) :=
  .bind (.bind charge_moves fun _ => .view _) fun _ => .bind charge_moves fun _ => .view _

lemma taken_moves (t : TreeRef) (top : MountRef) (within : Option DentryId) (all : Bool) :
    Moves Stays (taken t top within all) := by
  rw [taken]
  split_ifs
  · exact .bind (descendants_moves t top within) fun _ => .bind charge_moves fun _ => .pure _
  · exact .pure _

lemma copyOf_moves (like : MountRef) (root : DentryId) (p : Option Location) (t : TreeRef) :
    Moves Stays (copyOf like root p t) :=
  .bind charge_moves fun _ => .bind nextId_moves fun _ => .bind (.view _) fun _ => newMount_moves _

lemma bindCopies_moves (t : TreeRef) (l made rest : List MountRef) :
    Moves Stays (bindCopies t l made rest) := by
  induction rest generalizing l made with
  | nil => exact .pure made
  | cons original rest ih =>
    exact .bind (.view _) fun _ => .bind (.ofOption _ _) fun _ => .bind (.ofOption _ _) fun _ =>
      .bind (.view _) fun _ => .bind (copyOf_moves _ _ _ t) fun _ => ih _ _

lemma copyMounts_moves (c : TreeRef) (i : Nat → Option Nat) (made : List MountRef)
    (table : Table) (rest : List MountRef) : Moves Stays (copyMounts c i made table rest) := by
  induction rest generalizing i made table with
  | nil => exact .pure _
  | cons original rest ih =>
    refine .bind (.view _) fun p => ?_
    cases p with
    | none =>
      exact .bind (.pure _) fun _ => .bind (.view _) fun _ => .bind (copyOf_moves _ _ _ c) fun _ =>
        .bind (.view _) fun _ => .bind (.view _) fun _ => ih _ _ _
    | some loc =>
      exact .bind (.view _) fun _ => .bind (.ofOption _ _) fun _ => .bind (.pure _) fun _ =>
        .bind (.view _) fun _ => .bind (copyOf_moves _ _ _ c) fun _ => .bind (.view _) fun _ =>
          .bind (.view _) fun _ => ih _ _ _

lemma disconnect_moves (t : TreeRef) (m : MountRef) : Moves Stays (disconnect t m) := by
  have hf : Moves Stays (Program.modify fun w => w.setParent m none : Call Unit) :=
    .modify fun w => stays_setParent w m none
  refine .bind (.view _) fun p => ?_
  cases p with
  | none => exact hf
  | some x =>
    refine .bind (.modify fun w => ?_) fun _ => hf
    exact (stays_setTable w t _).trans (stays_removeMount _ _)

lemma count_moves {f : Dcache → DentryId → Dcache} (m : MountRef)
    (hf : ∀ w d, Stays w (w.setCache (f w.cache d))) : Moves Stays (Program.modify fun w =>
      match (w.mounts m).parent with
      | some x => w.setCache (f w.cache x.dentry)
      | none => w : Call Unit) := by
  refine .modify fun w => ?_
  split
  · exact hf w _
  · exact refl w

lemma detached_moves (n : Name) (i : Ino) : Moves Stays (detached n i) :=
  .bind charge_moves fun _ => .bind (dentryRoot_moves n i) fun _ => .bind (.view _) fun _ =>
    .bind (newMount_moves _) fun _ => .pure _

lemma attach_moves (t : TreeRef) (mounts : List MountRef) : Moves Stays (attach t mounts) :=
  .bind charge_moves fun _ => .bind (.view _) fun _ => .bind (.view _) fun _ =>
    .bind (.require _ _) fun _ => .bind (.view _) fun _ => .bind (.require _ _) fun _ =>
      .each (fun _ => place_moves t _ _) _

lemma mountWith_moves (t : TreeRef) (fs : Ino) (loc : Location) (flags : BitVec 32) :
    Moves Stays (mountWith t fs loc flags) :=
  .bind (kind_moves loc) fun _ => .bind (.require _ _) fun _ => .bind (.view _) fun _ =>
    .bind (.require _ _) fun _ => .bind charge_moves fun _ => .bind (dentryRoot_moves _ fs) fun _ =>
      .bind nextId_moves fun _ => .bind (.view _) fun _ => .bind (newMount_moves _) fun _ =>
        .bind (attach_moves t _) fun _ => .pure _

lemma bind_moves (t : TreeRef) (source target : Location) (recursive : Bool) :
    Moves Stays (Mounts.bind t source target recursive) :=
  .bind (kind_moves source) fun _ => .bind (kind_moves target) fun _ =>
    .bind (.require _ _) fun _ => .bind (.view _) fun _ => .bind (.require _ _) fun _ =>
      .bind charge_moves fun _ => .bind (taken_moves t _ _ recursive) fun _ =>
        .bind charge_moves fun _ => .bind (copyOf_moves _ _ _ t) fun _ =>
          .bind (bindCopies_moves t _ _ _) fun _ => .bind (attach_moves t _) fun _ => .pure _

lemma unmountWith_moves (t : TreeRef) (loc : Location) (detach : Bool) :
    Moves Stays (unmountWith t loc detach) :=
  .bind (.view _) fun _ => .bind (.require _ _) fun _ => .bind (.view _) fun _ =>
    .bind (.ofOption _ _) fun _ => .bind (.view _) fun _ => .bind (.require _ _) fun _ =>
      .bind (.view _) fun _ => .bind (.require _ _) fun _ => .bind charge_moves fun _ =>
        .bind (taken_moves t _ none detach) fun _ => .bind charge_moves fun _ =>
          .bind (.view _) fun _ => .bind (.require _ _) fun _ => .each (disconnect_moves t) _

lemma exchange_moves (t : TreeRef) (old new : MountRef) (putOld rootPlace exPlace : Location) :
    Moves Stays (exchange t old new putOld rootPlace exPlace) :=
  .bind (.modify fun w => (stays_setTable w t _).trans (stays_removeMount _ _)) fun _ =>
    .bind (.modify fun w => stays_setTable w t _) fun _ =>
      .bind (.modify fun w => stays_setParent w new _) fun _ =>
        .bind (.modify fun w => stays_setTable w t _) fun _ =>
          .bind (.modify fun w => stays_setParent w old _) fun _ =>
            .modify fun w => (stays_setTable w t _).trans (stays_addMount _ _)

lemma pivotRoot_moves (t : TreeRef) (root newRoot putOld : Location) :
    Moves Stays (pivotRoot t root newRoot putOld) :=
  .bind (kind_moves newRoot) fun _ => .bind (.require _ _) fun _ =>
    .bind (kind_moves putOld) fun _ => .bind (.require _ _) fun _ => .bind (.view _) fun _ =>
      .bind (.require _ _) fun _ => .bind (.view _) fun _ => .bind (.require _ _) fun _ =>
        .bind (.require _ _) fun _ => .bind (.view _) fun _ => .bind (.ofOption _ _) fun _ =>
          .bind (.view _) fun _ => .bind (.ofOption _ _) fun _ => .bind (.view _) fun _ =>
            .bind (.require _ _) fun _ => .bind (.view _) fun _ => .bind (.require _ _) fun _ =>
              exchange_moves t _ _ _ _ _

lemma copy_moves (t : TreeRef) (places : List Location) : Moves Stays (copy t places) :=
  .bind charge_moves fun _ => .bind (.view _) fun _ => .bind (.ofOption _ _) fun root =>
    .bind (descendants_moves t root none) fun _ => .bind charge_moves fun _ =>
      .bind (.view _) fun _ => .bind charge_moves fun _ =>
        .bind (copyMounts_moves _ _ _ _ _) fun _ => .bind (.ofOption _ _) fun _ =>
          .bind (.view _) fun _ => .bind (.each (fun m => count_moves m stays_addMount) _) fun _ =>
            .bind (.modify fun _ => .of_same rfl (fun _ => rfl) rfl fun _ => rfl) fun _ => .pure _

lemma dropNamespace_moves (t : TreeRef) : Moves Stays (dropNamespace t) :=
  .bind (.view _) fun _ => .bind (.modify fun w => stays_setTable w t _) fun _ =>
    .bind (.each (fun m => count_moves m stays_removeMount) _) fun _ =>
      .bind (.each (fun m => .modify fun w => stays_setParent w m none) _) fun _ =>
        .modify fun _ => .of_same rfl (fun _ => rfl) rfl fun _ => rfl

/-- No call that changes a mount table changes the root of a mount or moves a dentry. -/
theorem stays_request (request : Request) (w : World) : Stays w (request.run w) := by
  cases request with
  | mount t fs loc flags => exact mountWith_moves t fs loc flags w
  | bind t source target recursive => exact bind_moves t source target recursive w
  | unmount t loc detach => exact unmountWith_moves t loc detach w
  | pivotRoot t root newRoot putOld => exact pivotRoot_moves t root newRoot putOld w
  | copy t places => exact copy_moves t places w
  | drop t => exact dropNamespace_moves t w
  | detached n i => exact detached_moves n i w

end

section

def moveChild (cache : Dcache) (oldDir : DentryId) (oldName : Name) (child newDir : DentryId)
    (newName : Name) : Dcache :=
  let removed := (((cache.unhash oldDir oldName).bump oldDir).unhash newDir newName).bump newDir
  ((removed.rehang child newDir newName).hash newDir newName child).bump newDir

variable (cache : Dcache) (dir oldDir child newDir e : DentryId) (n oldName newName : Name)

lemma parent_bump : ((cache.bump dir).dentries e).parent = (cache.dentries e).parent := by
  rw [dentries_bump]

lemma parent_unhash : ((cache.unhash dir n).dentries e).parent = (cache.dentries e).parent := by
  rw [Dcache.unhash]
  split
  · rw [dentries_update]
    split_ifs <;> rfl
  · rw [dentries_update, dentries_update]
    split_ifs <;> rfl

lemma next_unhash : (cache.unhash dir n).next = cache.next := by
  rw [Dcache.unhash]
  split <;> rfl

lemma parent_moveChild :
    ((moveChild cache oldDir oldName child newDir newName).dentries e).parent =
      if e = child then some newDir else (cache.dentries e).parent := by
  rw [moveChild, parent_bump, Dcache.hash, dentries_put, Dcache.rehang, dentries_update]
  split_ifs
  · rfl
  · rw [parent_bump, parent_unhash, parent_bump, parent_unhash]

lemma next_moveChild : (moveChild cache oldDir oldName child newDir newName).next = cache.next :=
  (next_unhash _ newDir newName).trans (next_unhash cache oldDir oldName)

end

structure State where
  world : World
  place : Location

/-- A call that changes mount tables; an allowed rename, on one mount, of what is in `source` and
not above `dest`; whatever leaves mounts and dentries where they are, such as a lookup; or `..` from
the place held, unless it leaves the mount from its root. -/
inductive Step (allowed : State → DentryId → DentryId → Prop) : State → State → Prop
  | call {w : World} {loc : Location} (request : Request) :
      Step allowed ⟨w, loc⟩ ⟨request.run w, loc⟩
  | rename {w : World} {loc : Location} (source dest : Location) (oldName newName : Name)
      (child : DentryId) (hmount : source.mount = dest.mount)
      (hchild : directory w child = some source.dentry)
      (hbelow : ¬ Climbs (directory w) dest.dentry child)
      (hallowed : allowed ⟨w, loc⟩ child dest.dentry) :
      Step allowed ⟨w, loc⟩
        ⟨w.setCache (moveChild w.cache source.dentry oldName child dest.dentry newName), loc⟩
  | other {w w' : World} {loc : Location} (hkept : Kept w w') : Step allowed ⟨w, loc⟩ ⟨w', loc⟩
  | dotDot {w : World} {loc : Location} (root : Option Location)
      (hinside : loc.dentry ≠ (w.mounts loc.mount).root ∨ w.up loc root = loc) :
      Step allowed ⟨w, loc⟩ ⟨w, w.up loc root⟩

/-- What is below the root of the mount somebody holds a place on goes to a directory that is at or
below that root. -/
def Orderly (s : State) (child dest : DentryId) : Prop :=
  let root := (s.world.mounts s.place.mount).root
  Climbs (directory s.world) child root → child ≠ root → Climbs (directory s.world) dest root

structure Inside (m : MountRef) (s : State) : Prop where
  fresh : Fresh s.world
  made : m < s.world.made
  mount : s.place.mount = m
  connected : Connected s.world s.place

variable {s s' : State} {m : MountRef}

lemma Inside.kept (hinside : Inside m s) (hkept : Kept s.world w) : Inside m ⟨w, s.place⟩ := by
  obtain ⟨-, hmade, rfl, hconnected⟩ := hinside
  refine ⟨hkept.fresh, hmade.trans_le hkept.made, rfl, ?_⟩
  rw [Connected, hkept.roots _ hmade]
  exact Climbs.mono hconnected hkept.parents

lemma Inside.dotDot (hinside : Inside m s) (root : Option Location)
    (hstays : s.place.dentry ≠ (s.world.mounts s.place.mount).root ∨
      s.world.up s.place root = s.place) : Inside m ⟨s.world, s.world.up s.place root⟩ := by
  obtain ⟨w, x⟩ := s
  rcases hstays with hne | hsame
  · obtain ⟨dir, hp, hr⟩ := Climbs.above_of_ne hinside.connected hne
    dsimp only at hne hp
    rw [World.up, World.up.go]
    split_ifs
    · exact hinside
    · rw [hp]
      exact ⟨hinside.fresh, hinside.made, hinside.mount, hr⟩
  · rw [hsame]
    exact hinside

lemma Inside.step (hinside : Inside m s) (hs : Step Orderly s s') : Inside m s' := by
  cases hs with
  | call request => exact hinside.kept (stays_request request _ hinside.fresh)
  | other hkept => exact hinside.kept hkept
  | dotDot r hstays => exact hinside.dotDot r hstays
  | @rename w loc source dest oldName newName child hmount hchild hbelow horderly =>
    have hp := parent_moveChild w.cache source.dentry child dest.dentry
    refine ⟨fun d hd => ?_, hinside.made, hinside.mount, ?_⟩
    · have hfresh := hinside.fresh d ((next_moveChild ..).ge.trans hd)
      refine (hp d oldName newName).trans ((if_neg ?_).trans hfresh)
      rintro rfl
      exact Option.some_ne_none _ (hchild.symm.trans hfresh)
    · let moved (d : DentryId) := if d = child then some dest.dentry else directory w d
      have hdest : Climbs (directory w) dest.dentry (w.mounts loc.mount).root →
          Climbs moved dest.dentry (w.mounts loc.mount).root := by
        refine fun hclimb => hclimb.redirect fun x hx _ => .inl (if_neg ?_)
        rintro rfl
        exact hbelow hx
      have hmoved : Climbs moved loc.dentry (w.mounts loc.mount).root := by
        refine hinside.connected.redirect fun x _ hx => ?_
        rcases eq_or_ne x child with rfl | hne
        · rcases eq_or_ne x (w.mounts loc.mount).root with heq | hroot
          · exact .inr (heq ▸ .refl)
          · exact .inr (.head (if_pos rfl) (hdest (horderly hx hroot)))
        · exact .inl (if_neg hne)
      exact hmoved.mono fun x p hx => (hp x oldName newName).trans hx

/-- In every run whose renames take nothing out from under the root of the mount a place is held on,
the place stays on that mount, at or below its root. -/
theorem bind_mounts_confine (hrun : ReflTransGen (Step Orderly) s s') (hfresh : Fresh s.world)
    (hmade : s.place.mount < s.world.made) (hconnected : Connected s.world s.place) :
    s'.place.mount = s.place.mount ∧ Connected s'.world s'.place := by
  have hinside : Inside s.place.mount s' := by
    induction hrun with
    | refl => exact ⟨hfresh, hmade, rfl, hconnected⟩
    | tail _ hstep ih => exact ih.step hstep
  exact ⟨hinside.mount, hinside.connected⟩

def inSandbox : State where
  world := sandbox.setCache (sandbox.cache.uncachedChild 3 [99] (some 6)).2
  place := ⟨2, 5⟩

lemma inSandbox_fresh : Fresh inSandbox.world := by
  intro d hd
  refine ((added_uncachedChild sandbox.cache 3 [99] (some 6)).parent d).trans ?_
  have hlt : 5 < d := hd
  exact (if_neg hlt.ne').trans (congrArg Dentry.parent (sandbox_blank hlt.le))

/-- `c` is renamed within `b` through the other mount, and then `..` from it twice, kept in `b`. -/
theorem bind_mounts_confine_parent : ∃ s', ReflTransGen (Step Orderly) inSandbox s' ∧
    directory s'.world 5 = some 3 ∧ s'.place = ⟨2, 3⟩ ∧ Connected s'.world s'.place := by
  have hrun : ReflTransGen (Step Orderly) inSandbox _ := .single <|
    .rename ⟨1, 3⟩ ⟨1, 3⟩ [99] [100] 5 rfl rfl ?_ fun _ _ => .refl
  · replace hrun := hrun.tail (.dotDot (some ⟨2, 3⟩) (.inl (by decide)))
    replace hrun := hrun.tail (.dotDot (some ⟨2, 3⟩) (.inr rfl))
    exact ⟨_, hrun, rfl, rfl,
      (bind_mounts_confine hrun inSandbox_fresh (by decide) (.single rfl)).2⟩
  · intro hclimb
    obtain ⟨x, hx, hclimb⟩ := Climbs.above_of_ne hclimb (by decide)
    obtain rfl := Option.some.inj hx
    obtain ⟨top, htop, hclimb⟩ := Climbs.above_of_ne hclimb (by decide)
    obtain rfl := Option.some.inj htop
    obtain ⟨p, hp, -⟩ := Climbs.above_of_ne hclimb (by decide)
    cases hp

/-- `c` moved to the root of its filesystem through the mount of that; `..` from it on the mount of
`b`, kept in the root of that mount, is the root of the filesystem. -/
theorem bind_mounts_leave : Connected inSandbox.world inSandbox.place ∧
    ∃ w', Step (fun _ _ _ => True) inSandbox ⟨w', ⟨2, 5⟩⟩ ∧ (w'.mounts 2).root = 3 ∧
      w'.up ⟨2, 5⟩ (some ⟨2, 3⟩) = ⟨2, 1⟩ ∧ ¬ Connected w' ⟨2, 1⟩ := by
  refine ⟨.single rfl, _, .rename ⟨1, 3⟩ ⟨1, 1⟩ [99] [99] 5 rfl rfl ?_ trivial, rfl, rfl, ?_⟩
  · intro hclimb
    obtain ⟨p, hp, -⟩ := hclimb.above_of_ne (by decide)
    cases hp
  · intro hclimb
    obtain ⟨p, hp, -⟩ := Climbs.above_of_ne hclimb (by decide)
    cases hp

end Ferrix.Vfs.BindMounts
