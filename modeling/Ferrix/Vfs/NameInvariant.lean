import Ferrix.Vfs.NameChanges

/-!
Between its change of the filesystem and its last change of the dentries, a call has a name the
two disagree on; that name is its own.  Everywhere else a directory's children agree with the
filesystem.
-/

namespace Ferrix.Vfs.NameInvariant

open Dentries NameChanges Function List Dcache

section

variable {cache : Dcache} {dir walked e : DentryId} {name : Name} {found : Option Ino}

lemma dentries_update (cache : Dcache) (d : DentryId) (f : Dentry → Dentry) (e : DentryId) :
    (cache.update d f).dentries e = if e = d then f (cache.dentries e) else cache.dentries e := by
  change update cache.dentries d (f (cache.dentries d)) e = _
  rw [update_apply]
  split_ifs with h
  · rw [h]
  · rfl

lemma dentries_bump (cache : Dcache) (dir e : DentryId) :
    (cache.bump dir).dentries e = { cache.dentries e with
      generation := (cache.dentries e).generation + if e = dir then 1 else 0 } := by
  rw [bump, dentries_update]
  split_ifs <;> rfl

lemma dentries_put (cache : Dcache) (dir : DentryId) (name : Name) (child : Option DentryId)
    (e : DentryId) : (cache.update dir fun dentry =>
      { dentry with children := update dentry.children name child }).dentries e =
        { cache.dentries e with children := fun n => if e = dir ∧ n = name then child
            else (cache.dentries e).children n } := by
  rw [dentries_update]
  split_ifs with h
  · have hchildren : update (cache.dentries e).children name child =
        fun n => if e = dir ∧ n = name then child else (cache.dentries e).children n := by
      funext n
      rw [update_apply]
      simp [h]
    rw [hchildren]
  · simp [h]

/-- The dentries once `w` has the name, place and inode of `write`, `child` is under the name `k`,
and the generation of its directory has gone up by `turns`. -/
def edited (dentries : DentryId → Dentry) (w : DentryId) (write : Dentry) (k : Key)
    (child : Option DentryId) (turns : Nat) (e : DentryId) : Dentry :=
  { dentries e with
    name := if e = w then write.name else (dentries e).name
    parent := if e = w then write.parent else (dentries e).parent
    inode := if e = w then write.inode else (dentries e).inode
    unhashed := if e = w then write.unhashed else (dentries e).unhashed
    children := fun n => if (e, n) = k then child else (dentries e).children n
    generation := (dentries e).generation + if e = k.1 then turns else 0 }

lemma dentries_land (cache : Dcache) (dir walked : DentryId) (name : Name) :
    ((cache.hash dir name walked).bump dir).dentries e = edited cache.dentries walked
      (cache.dentries walked) (dir, name) (some walked) 1 e := by
  rw [dentries_bump, Dcache.hash, dentries_put]
  rcases eq_or_ne e walked with rfl | h <;> simp [edited, *]

lemma dentries_fill (hcached : cache.cachedChild dir name = some walked) (ino : Ino) :
    (cache.fill dir name walked ino).dentries e = edited cache.dentries walked
      { cache.dentries walked with unhashed := false, inode := some ino } (dir, name) (some walked)
      1 e := by
  rw [fill, hcached]
  simp only [Option.getD_some, if_true, dentries_land, dentries_update, edited]
  rcases eq_or_ne e walked with rfl | h <;> simp [*]

lemma dentries_unhash (hcached : cache.cachedChild dir name = some walked) :
    (cache.unhash dir name).dentries e = edited cache.dentries walked
      { cache.dentries walked with unhashed := true } (dir, name) none 0 e := by
  rw [unhash, hcached]
  dsimp only
  rw [dentries_update, dentries_put]
  rcases eq_or_ne e walked with rfl | h <;> simp [edited, *]

lemma dentries_rehang {child newDir : DentryId} {newName : Name}
    (hnone : (cache.dentries newDir).children newName = none) :
    (cache.rehang child newDir newName).dentries e = edited cache.dentries child
      { cache.dentries child with name := newName, parent := some newDir, unhashed := false }
      (newDir, newName) none 0 e := by
  have hsame :
      (fun n => if (e, n) = (newDir, newName) then none else (cache.dentries e).children n) =
      (cache.dentries e).children := by
    funext n
    split_ifs with h
    · rw [(Prod.mk.inj h).1, (Prod.mk.inj h).2, hnone]
    · rfl
  rw [rehang, dentries_update, edited, hsame]
  rcases eq_or_ne e child with rfl | h <;> simp [*]

lemma cachedChild_eq_some {c : DentryId} : cache.cachedChild dir name = some c ↔
    (cache.dentries dir).children name = some c ∧ (cache.dentries c).alive = true := by
  rw [cachedChild, upgrade, Option.filter_eq_some_iff]

lemma cachedChild_eq_none : cache.cachedChild dir name = none ↔
    ∀ c, (cache.dentries dir).children name = some c → (cache.dentries c).alive = false := by
  rw [cachedChild, upgrade, Option.filter_eq_none_iff]
  simp

lemma insertLookedUp_cases {g : Nat} {b : Option (DentryId × Bool)}
    {cache' : Dcache} (hinsert : cache.insertLookedUp dir name found g = (b, cache')) :
    (∃ c, cache.cachedChild dir name = some c ∧ b = some (c, false) ∧ cache' = cache) ∨
      (b = none ∧ cache' = cache) ∨
      (cache.cachedChild dir name = none ∧ (cache.dentries dir).generation = g ∧
        b = some (cache.next, true) ∧
        cache' = ((cache.add (.new name (some dir) found)).retain dir).hash dir name
          cache.next) := by
  rw [insertLookedUp] at hinsert
  cases hcached : cache.cachedChild dir name with
  | some c =>
    rw [hcached] at hinsert
    obtain ⟨rfl, rfl⟩ := Prod.mk.inj hinsert
    exact .inl ⟨c, rfl, rfl, rfl⟩
  | none =>
    rw [hcached] at hinsert
    split_ifs at hinsert with hgeneration
    · obtain ⟨rfl, rfl⟩ := Prod.mk.inj hinsert
      exact .inr (.inl ⟨rfl, rfl⟩)
    · obtain ⟨rfl, rfl⟩ := Prod.mk.inj hinsert
      exact .inr (.inr ⟨rfl, not_not.mp hgeneration, rfl, rfl⟩)

lemma dentries_insert (hd : dir < cache.next) :
    (((cache.add (.new name (some dir) found)).retain dir).hash dir name cache.next).dentries e =
      if e = cache.next then .new name (some dir) found else { cache.dentries e with
        children := fun n =>
          if e = dir ∧ n = name then some cache.next
          else if e = dir then
            (cache.add (.new name (some dir) found)).upgrade ((cache.dentries e).children n)
          else (cache.dentries e).children n } := by
  have hadd : ∀ e, (cache.add (.new name (some dir) found)).dentries e =
      if e = cache.next then .new name (some dir) found else cache.dentries e :=
    fun e => update_apply _ _ _ _
  rw [Dcache.hash, dentries_put, Dcache.retain, dentries_update, hadd]
  by_cases hn : e = cache.next
  · subst hn
    simp [hd.ne']
  · simp only [hn, if_false]
    split_ifs with h
    · simp [h]
    · simp [h]

end

/-- The names changed in the filesystem whose dentries are as they were. -/
def ahead : Pc → List Key
  | .filling b _ => [b.key]
  | .unhashing b => [b.key]
  | .moved .renamed old new => [old.key, new.key]
  | .moved .unhashedOld _ new => [new.key]
  | .moved .bumpedOld _ new => [new.key]
  | _ => []

/-- The dentry a rename moves while it is under no name. -/
def adrift : Pc → List DentryId
  | .moved .unhashedOld old _ => [old.walked]
  | .moved .bumpedOld old _ => [old.walked]
  | .moved .unhashedNew old _ => [old.walked]
  | .moved .bumpedNew old _ => [old.walked]
  | _ => []

/-- The dentry a rename has given its new name and not yet put among the children. -/
def landing : Pc → List DentryId
  | .moved .rehung old _ => [old.walked]
  | _ => []

def Use.renames : Use → Bool
  | .renameOld => true
  | .renameNew _ => true
  | _ => false

def renames : Pc → Bool
  | .seek use _ _ _ => Use.renames use
  | .missed use _ _ _ => Use.renames use
  | .asked use _ _ _ _ => Use.renames use
  | .answered use _ _ _ _ _ => Use.renames use
  | .renamingOld _ => true
  | .renamePair _ _ => true
  | .moving _ _ _ _ => true
  | .moved _ _ _ => true
  | _ => false

/-- A name some call has changed on one side only. -/
def Busy (s : State) (key : Key) : Prop :=
  ∃ t, key ∈ ahead (s.pc t) ∨ key ∈ (s.pc t).emptied

def At (s : State) (b : Bound) : Prop :=
  (s.dentry b.dir).children b.name = some b.walked ∧ (s.dentry b.walked).alive = true

def Unnamed (fs : Fs) (ino : Ino) : Prop := ∀ d n, fs.names d n ≠ some ino

/-- What a dentry about to be unhashed names is a directory only if that has left the
filesystem. -/
def Leaves (s : State) (c : DentryId) : Prop :=
  ∀ ino, (s.dentry c).inode = some ino → s.fs.kind ino = .directory → Unnamed s.fs ino

structure Global (s : State) : Prop where
  fresh : ∀ c, (s.dentry c).alive = true → c < s.cache.next
  parent : ∀ c d, (s.dentry c).alive = true → (s.dentry c).parent = some d → ∃ ino, s.IsDir d ino
  listed : ∀ d n c, (s.dentry d).children n = some c → c < s.cache.next ∧
    ((s.dentry c).alive = true → (s.dentry c).unhashed = false ∧ (s.dentry c).parent = some d ∧
      (s.dentry c).name = n)
  hashed : ∀ c d, (s.dentry c).alive = true → (s.dentry c).unhashed = false →
    (s.dentry c).parent = some d →
    (s.dentry d).children (s.dentry c).name = some c ∨ ∃ t, c ∈ landing (s.pc t)
  agrees : ∀ d ino n c, s.IsDir d ino → (s.dentry d).children n = some c →
    (s.dentry c).alive = true → (∀ t, (d, n) ∉ ahead (s.pc t)) →
    (s.dentry c).inode = s.fs.names ino n
  empty : ∀ d n t, (d, n) ∈ (s.pc t).emptied → (s.dentry d).children n = none
  single : ∀ c c' ino, (s.dentry c).alive = true → (s.dentry c').alive = true →
    (s.dentry c).inode = some ino → (s.dentry c').inode = some ino → s.fs.kind ino = .directory →
    c = c'
  gone : ∀ c ino, (s.dentry c).alive = true →
    (s.dentry c).unhashed = true ∨ (s.dentry c).parent = none →
    (s.dentry c).inode = some ino → s.fs.kind ino = .directory →
    Unnamed s.fs ino ∨ ∃ t, c ∈ adrift (s.pc t)
  made : ∀ c ino, (s.dentry c).inode = some ino → ino < s.fs.next
  names_made : ∀ d n ino, s.fs.names d n = some ino → ino < s.fs.next
  names_single : ∀ ino, s.fs.kind ino = .directory → ∀ d n d' n', s.fs.names d n = some ino →
    s.fs.names d' n' = some ino → d = d' ∧ n = n'

/-- What a rename keeps after the filesystem has done it. -/
def Moved (s : State) (stage : Stage) (old new : Bound) : Prop :=
  (s.dentry old.walked).alive = true ∧
    (∃ dir ino, s.IsDir new.dir dir ∧ s.fs.names dir new.name = some ino ∧
      (s.dentry old.walked).inode = some ino) ∧
    match stage with
    | .renamed => At s old ∧ At s new ∧ Leaves s new.walked ∧ old.key ≠ new.key
    | .unhashedOld => (s.dentry old.walked).unhashed = true ∧ At s new ∧ Leaves s new.walked
    | .bumpedOld => (s.dentry old.walked).unhashed = true ∧ At s new ∧ Leaves s new.walked
    | .unhashedNew => (s.dentry old.walked).unhashed = true
    | .bumpedNew => (s.dentry old.walked).unhashed = true
    | .rehung => (s.dentry old.walked).unhashed = false ∧
        (s.dentry old.walked).parent = some new.dir ∧ (s.dentry old.walked).name = new.name

def Made (s : State) (new : New) : Prop := ∀ ino, new = .link ino → ino < s.fs.next

def UseOk (s : State) (use : Use) : Prop :=
  (∀ b ∈ use.bounds, At s b) ∧ ∀ new, use = .make new → Made s new

/-- What a thread relies on where it is. -/
def Local (s : State) (t : Nat) : Pc → Prop
  | .idle => True
  | .seek use d ino _ => s.IsDir d ino ∧ UseOk s use
  | .missed use d ino _ => s.IsDir d ino ∧ UseOk s use
  | .asked use d ino _ generation =>
    s.IsDir d ino ∧ UseOk s use ∧ generation ≤ (s.dentry d).generation
  | .answered use d ino name generation found =>
    s.IsDir d ino ∧ UseOk s use ∧ generation ≤ (s.dentry d).generation ∧
      ((s.dentry d).generation = generation → ¬ Busy s (d, name) →
        found = s.fs.names ino name)
  | .making new b => At s b ∧ Made s new
  | .allowed new b dir => At s b ∧ Made s new ∧ s.IsDir b.dir dir ∧
      (s.dentry b.walked).inode = none
  | .filling b ino => At s b ∧ (s.dentry b.walked).inode = none ∧
      ∃ dir, s.IsDir b.dir dir ∧ s.fs.names dir b.name = some ino
  | .removing _ b => At s b
  | .permitted _ b ino => At s b ∧ (s.dentry b.walked).inode = some ino ∧
      ∃ dir, s.IsDir b.dir dir ∧ s.MayTake t dir ino
  | .unhashing b => At s b ∧ Leaves s b.walked
  | .bumping _ => True
  | .renamingOld old => At s old
  | .renamePair old new => At s old ∧ At s new
  | .moving old new ino victim => At s old ∧ At s new ∧
      (s.dentry old.walked).inode = some ino ∧ (s.dentry new.walked).inode = victim ∧
      victim ≠ some ino ∧ (∃ dir, s.IsDir old.dir dir ∧ s.MayTake t dir ino) ∧
      ∃ dir, s.IsDir new.dir dir ∧ ∀ ino', victim = some ino' → s.MayTake t dir ino'
  | .moved stage old new => Moved s stage old new

structure Inv (s : State) : Prop where
  global : Global s
  each : ∀ t, Local s t (s.pc t)
  apart : ∀ t u, t ≠ u → ∀ key ∈ (s.pc t).keys, key ∉ (s.pc u).keys
  lock : ∀ t, renames (s.pc t) = true → s.renameLock = some t

variable {s s' : State} {t u : Nat} {pc : Pc} {b : Bound}

lemma Inv.place (h : Inv s) (hpc : s.pc t = pc) : Local s t pc := hpc ▸ h.each t

structure Alike (a b : Dentry) : Prop where
  alive : a.alive = b.alive
  inode : a.inode = b.inode
  unhashed : a.unhashed = b.unhashed
  parent : a.parent = b.parent
  name : a.name = b.name

/-- What a step of another thread leaves of what a thread relies on. -/
structure Kept (s s' : State) (u : Nat) (pc : Pc) : Prop where
  dir : ∀ d ino, d ∈ pc.holds → s.IsDir d ino → s'.IsDir d ino
  generation : ∀ d ino, s.IsDir d ino → (s.dentry d).generation ≤ (s'.dentry d).generation
  bound : ∀ b ∈ pc.bounds, At s b → At s' b ∧
    (s'.dentry b.walked).inode = (s.dentry b.walked).inode
  names : ∀ b ∈ pc.bounds, ∀ dir ino, s.IsDir b.dir dir → s.fs.names dir b.name = some ino →
    s'.fs.names dir b.name = some ino
  answer : ∀ use d ino name generation found, pc = .answered use d ino name generation found →
    s.IsDir d ino → generation ≤ (s.dentry d).generation →
    (s'.dentry d).generation = generation → ¬ Busy s' (d, name) →
    (s.dentry d).generation = generation ∧ ¬ Busy s (d, name) ∧
      s'.fs.names ino name = s.fs.names ino name
  moved : ∀ stage old new, pc = .moved stage old new →
    Alike (s'.dentry old.walked) (s.dentry old.walked)
  unnamed : ∀ ino, ino < s.fs.next → s.fs.kind ino = .directory → Unnamed s.fs ino →
    Unnamed s'.fs ino
  kind : ∀ ino, ino < s.fs.next → s'.fs.kind ino = s.fs.kind ino
  next : s.fs.next ≤ s'.fs.next
  seen : ∀ ino metadata, s.seen u ino metadata → s'.seen u ino metadata
  who : s'.who u = s.who u

lemma mem_holds_dir (hb : b ∈ pc.bounds) : b.dir ∈ pc.holds :=
  mem_append_right _ (mem_flatMap.mpr ⟨b, hb, by simp⟩)

lemma mem_holds_walked (hb : b ∈ pc.bounds) : b.walked ∈ pc.holds :=
  mem_append_right _ (mem_flatMap.mpr ⟨b, hb, by simp⟩)

section

variable (hkept : Kept s s' u pc)
include hkept

lemma Kept.made {new : New} (hmade : Made s new) : Made s' new :=
  fun ino hnew => (hmade ino hnew).trans_le hkept.next

lemma Kept.mayTake {dir ino : Ino} (hmay : s.MayTake u dir ino) : s'.MayTake u dir ino := by
  obtain ⟨dirMetadata, metadata, hd, hino, hallowed⟩ := hmay
  refine ⟨dirMetadata, metadata, hkept.seen _ _ hd, hkept.seen _ _ hino, ?_⟩
  rw [hkept.who]
  exact hallowed

lemma Kept.leaves (h : Global s)
    (hb : b ∈ pc.bounds) (hat : At s b) (hleaves : Leaves s b.walked) : Leaves s' b.walked := by
  intro ino hi hkind
  rw [(hkept.bound b hb hat).2] at hi
  have hlt := h.made _ _ hi
  rw [hkept.kind ino hlt] at hkind
  exact hkept.unnamed ino hlt hkind (hleaves ino hi hkind)

lemma Kept.useOk {use : Use} (hbounds : use.bounds = pc.bounds)
    (hok : UseOk s use) : UseOk s' use := by
  refine ⟨fun b hb => ?_, fun new hnew => hkept.made (hok.2 new hnew)⟩
  exact (hkept.bound b (hbounds ▸ hb) (hok.1 b hb)).1

lemma Kept.movedOk (h : Global s) {g : Stage}
    {old new : Bound} (hpc : pc = .moved g old new) (hmoved : Moved s g old new) :
    Moved s' g old new := by
  obtain ⟨ha, ⟨dir, ino, hd, hn, hi⟩, hstage⟩ := hmoved
  obtain ⟨ha', hi', hunhashed', hp', hn'⟩ := hkept.moved g old new hpc
  have hold : old ∈ pc.bounds := by
    rw [hpc]
    exact .head _
  have hnew : new ∈ pc.bounds := by
    rw [hpc]
    exact .tail _ (.head _)
  refine ⟨ha'.trans ha, ⟨dir, ino, hkept.dir _ _ (mem_holds_dir hnew) hd,
    hkept.names new hnew dir ino hd hn, hi'.trans hi⟩, ?_⟩
  cases g with
  | renamed =>
    obtain ⟨hatold, hatnew, hleaves, hne⟩ := hstage
    exact ⟨(hkept.bound old hold hatold).1, (hkept.bound new hnew hatnew).1,
      hkept.leaves h hnew hatnew hleaves, hne⟩
  | unhashedOld | bumpedOld =>
    obtain ⟨hunhashed, hatnew, hleaves⟩ := hstage
    exact ⟨hunhashed'.trans hunhashed, (hkept.bound new hnew hatnew).1,
      hkept.leaves h hnew hatnew hleaves⟩
  | unhashedNew | bumpedNew => exact hunhashed'.trans hstage
  | rehung =>
    exact ⟨hunhashed'.trans hstage.1, hp'.trans hstage.2.1, hn'.trans hstage.2.2⟩

lemma Local.kept (hg : Global s) (h : Local s u pc) : Local s' u pc := by
  cases pc with
  | idle => trivial
  | seek use d ino name | missed use d ino name =>
    exact ⟨hkept.dir _ _ (.head _) h.1, hkept.useOk rfl h.2⟩
  | asked use d ino name g =>
    obtain ⟨hd, huse, hle⟩ := h
    exact ⟨hkept.dir _ _ (.head _) hd, hkept.useOk rfl huse, hle.trans (hkept.generation d ino hd)⟩
  | answered use d ino name g found =>
    obtain ⟨hd, huse, hle, hanswer⟩ := h
    refine ⟨hkept.dir _ _ (.head _) hd, hkept.useOk rfl huse,
      hle.trans (hkept.generation d ino hd), fun hsame hf => ?_⟩
    obtain ⟨hsame', hf', hnames⟩ := hkept.answer _ _ _ _ _ _ rfl hd hle hsame hf
    rw [hnames]
    exact hanswer hsame' hf'
  | making new b => exact ⟨(hkept.bound b (.head _) h.1).1, hkept.made h.2⟩
  | allowed new b dir =>
    obtain ⟨hat, hmade, hd, hnegative⟩ := h
    obtain ⟨hat', hi⟩ := hkept.bound b (.head _) hat
    exact ⟨hat', hkept.made hmade, hkept.dir _ _ (mem_holds_dir (.head _)) hd, hi.trans hnegative⟩
  | filling b ino =>
    obtain ⟨hat, hnegative, dir, hd, hn⟩ := h
    obtain ⟨hat', hi⟩ := hkept.bound b (.head _) hat
    exact ⟨hat', hi.trans hnegative, dir, hkept.dir _ _ (mem_holds_dir (.head _)) hd,
      hkept.names b (.head _) dir ino hd hn⟩
  | removing directory b => exact (hkept.bound b (.head _) h).1
  | permitted directory b ino =>
    obtain ⟨hat, hpositive, dir, hd, hmay⟩ := h
    obtain ⟨hat', hi⟩ := hkept.bound b (.head _) hat
    exact ⟨hat', hi.trans hpositive, dir, hkept.dir _ _ (mem_holds_dir (.head _)) hd,
      hkept.mayTake hmay⟩
  | unhashing b =>
    exact ⟨(hkept.bound b (.head _) h.1).1, hkept.leaves hg (.head _) h.1 h.2⟩
  | bumping b => trivial
  | renamingOld old => exact (hkept.bound old (.head _) h).1
  | renamePair old new =>
    exact ⟨(hkept.bound old (.head _) h.1).1, (hkept.bound new (.tail _ (.head _)) h.2).1⟩
  | moving old new ino v =>
    obtain ⟨hatold, hatnew, hpositive, hvictim, hne, ⟨dir, hd, hmay⟩, dir', hd', hmay'⟩ := h
    obtain ⟨hatold', hi⟩ := hkept.bound old (.head _) hatold
    obtain ⟨hatnew', hi'⟩ := hkept.bound new (.tail _ (.head _)) hatnew
    exact ⟨hatold', hatnew', hi.trans hpositive, hi'.trans hvictim, hne,
      ⟨dir, hkept.dir _ _ (mem_holds_dir (.head _)) hd, hkept.mayTake hmay⟩,
      dir', hkept.dir _ _ (mem_holds_dir (.tail _ (.head _))) hd',
      fun ino' h => hkept.mayTake (hmay' ino' h)⟩
  | moved stage old new => exact hkept.movedOk hg rfl h

end

variable {key : Key} {d c : DentryId} {n : Name} {ino dir : Ino}

lemma at_of_ahead (h : Inv s) (hahead : key ∈ ahead (s.pc t)) :
    ∃ b ∈ (s.pc t).bounds, b.key = key ∧ At s b ∧
      ((s.dentry b.walked).inode = none ∨ Leaves s b.walked ∨
        ∃ g new, s.pc t = .moved g b new) := by
  cases hpc : s.pc t with
  | filling b ino =>
    have hlocal := h.place hpc
    rw [hpc] at hahead
    exact ⟨b, .head _, (mem_singleton.mp hahead).symm, hlocal.1, .inl hlocal.2.1⟩
  | unhashing b =>
    have hlocal := h.place hpc
    rw [hpc] at hahead
    exact ⟨b, .head _, (mem_singleton.mp hahead).symm, hlocal.1, .inr (.inl hlocal.2)⟩
  | moved g old new =>
    obtain ⟨-, -, hstage⟩ := h.place hpc
    rw [hpc] at hahead
    have hnew : key ∈ [new.key] → At s new → Leaves s new.walked →
        ∃ b ∈ (Pc.moved g old new).bounds, b.key = key ∧ At s b ∧
          ((s.dentry b.walked).inode = none ∨ Leaves s b.walked ∨
            ∃ g' new', Pc.moved g old new = .moved g' b new') :=
      fun hk hat hleaves => ⟨new, .tail _ (.head _), (mem_singleton.mp hk).symm, hat,
        .inr (.inl hleaves)⟩
    cases g with
    | renamed =>
      rcases mem_cons.mp hahead with rfl | hahead
      · exact ⟨old, .head _, rfl, hstage.1, .inr (.inr ⟨_, _, rfl⟩)⟩
      · exact hnew hahead hstage.2.1 hstage.2.2.1
    | unhashedOld | bumpedOld => exact hnew hahead hstage.2.1 hstage.2.2
    | unhashedNew | bumpedNew | rehung => cases hahead
  | _ =>
    rw [hpc] at hahead
    cases hahead

lemma moved_of_adrift (hdrift : c ∈ adrift (s.pc t) ∨ c ∈ landing (s.pc t)) :
    ∃ g old new, s.pc t = .moved g old new ∧ c = old.walked := by
  cases hpc : s.pc t with
  | moved g old new =>
    rw [hpc] at hdrift
    refine ⟨g, old, new, rfl, ?_⟩
    cases g <;> simp_all [adrift, landing]
  | _ =>
    rw [hpc] at hdrift
    rcases hdrift with hdrift | hdrift <;> cases hdrift

lemma locate (hinv : Inv s) (ha : (s.dentry c).alive = true)
    (hi : (s.dentry c).inode = some ino) (hkind : s.fs.kind ino = .directory)
    (hd : s.IsDir d dir) (hname : s.fs.names dir n = some ino) :
    (s.dentry d).children n = some c ∨ ∃ t g old new, s.pc t = .moved g old new ∧
      new.key = (d, n) ∧ c = old.walked := by
  have h := hinv.global
  have hsame : ∀ d' dir' n', s.IsDir d' dir' → s.fs.names dir' n' = some ino →
      (d', n') = (d, n) := by
    intro d' dir' n' hd' hname'
    obtain ⟨rfl, rfl⟩ := h.names_single ino hkind _ _ _ _ hname' hname
    rw [h.single d' d dir' hd'.1 hd.1 hd'.2.1 hd.2.1 hd.2.2]
  have hmoving : ∀ t g old new, s.pc t = .moved g old new → c = old.walked →
      ∃ t g old new, s.pc t = .moved g old new ∧ new.key = (d, n) ∧ c = old.walked := by
    intro t g old new hpc hc
    obtain ⟨-, ⟨dir', ino', hd', hname', hi'⟩, -⟩ := hinv.place hpc
    rw [← hc, hi] at hi'
    obtain rfl := Option.some.inj hi'
    exact ⟨t, g, old, new, hpc, hsame _ _ _ hd' hname', hc⟩
  have hnamed : ¬ Unnamed s.fs ino := fun hunnamed => hunnamed dir n hname
  have hout : (s.dentry c).unhashed = true ∨ (s.dentry c).parent = none →
      ∃ t g old new, s.pc t = .moved g old new ∧ new.key = (d, n) ∧ c = old.walked := by
    intro hgone
    rcases h.gone c ino ha hgone hi hkind with hunnamed | ⟨t, hdrift⟩
    · exact absurd hunnamed hnamed
    · obtain ⟨g, old, new, hpc, hc⟩ := moved_of_adrift (.inl hdrift)
      exact hmoving t g old new hpc hc
  cases hunhashed : (s.dentry c).unhashed with
  | true => exact .inr (hout (.inl hunhashed))
  | false =>
    cases hp : (s.dentry c).parent with
    | none => exact .inr (hout (.inr hp))
    | some d' =>
      rcases h.hashed c d' ha hunhashed hp with hchild | ⟨t, hland⟩
      · obtain ⟨dir', hd'⟩ := h.parent c d' ha hp
        by_cases hahead : ∃ t, (d', (s.dentry c).name) ∈ ahead (s.pc t)
        · obtain ⟨t, hahead⟩ := hahead
          obtain ⟨b, -, hk, hat, hwhy⟩ := at_of_ahead hinv hahead
          obtain ⟨hd'', hname''⟩ := Prod.mk.inj hk
          have hc : c = b.walked := by
            have hchild' := hat.1
            rw [hd'', hname'', hchild] at hchild'
            exact Option.some.inj hchild'
          subst hc
          rcases hwhy with hnone | hleaves | ⟨g, new, hpc⟩
          · rw [hnone] at hi
            cases hi
          · exact absurd (hleaves ino hi hkind) hnamed
          · exact .inr (hmoving t g b new hpc rfl)
        · have hagrees := h.agrees d' dir' _ c hd' hchild ha fun t h => hahead ⟨t, h⟩
          rw [hi] at hagrees
          have hk := hsame d' dir' _ hd' hagrees.symm
          obtain ⟨rfl, hn⟩ := Prod.mk.inj hk
          rw [← hn]
          exact .inl hchild
      · obtain ⟨g, old, new, hpc, hc⟩ := moved_of_adrift (.inr hland)
        exact .inr (hmoving t g old new hpc hc)

end Ferrix.Vfs.NameInvariant
