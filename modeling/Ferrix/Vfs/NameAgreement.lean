import Ferrix.Vfs.NameCalls

/-!
In a run whose calls keep out of each other's names, the dentries say what the filesystem says
whenever no call is in progress.  Two calls on one name break that.
-/

namespace Ferrix.Vfs.NameAgreement

open Relation Dentries NameChanges NameInvariant NameSteps NameCalls Function List Option

variable {s s' : State} {t : Nat} {act : Act} {fs : Fs} {root i : Ino} {who : Nat → Access} {p : Pc}

def Next (s s' : State) : Prop := ∃ t act, Step s t act s'

def OrderlyNext (s s' : State) : Prop := ∃ t act, Step s t act s' ∧ Orderly s t act

lemma inv_boot (hfs : fs.WellFormed root) : Inv (boot fs root who) := by
  have hdentry : ∀ e, (boot fs root who).dentry e =
      if e = 0 then .new [47] none (some root) else .blank :=
    fun e => update_apply _ _ _ _
  have ha : ∀ e, ((boot fs root who).dentry e).alive = true → e = 0 := by
    intro e h
    by_contra he
    rw [hdentry, if_neg he] at h
    cases h
  have hchildren : ∀ d n, ((boot fs root who).dentry d).children n = none := by
    intro d n
    rw [hdentry]
    split_ifs <;> rfl
  have hp : ∀ c, ((boot fs root who).dentry c).parent = none := by
    intro c
    rw [hdentry]
    split_ifs <;> rfl
  have hi : ∀ c i, ((boot fs root who).dentry c).inode = some i → i = root := by
    intro c i h
    rw [hdentry] at h
    split_ifs at h
    · exact (some.inj h).symm
    · cases h
  refine ⟨⟨?_, ?_, ?_, ?_, ?_, ?_, ?_, ?_, ?_, hfs.bounded, hfs.single⟩, fun t => trivial, ?_, ?_⟩
  · exact fun c h => ha c h ▸ Nat.zero_lt_one
  · intro c d _ h
    rw [hp] at h
    cases h
  · intro d n c h
    rw [hchildren] at h
    cases h
  · intro c d _ _ h
    rw [hp] at h
    cases h
  · intro d i n c _ h
    rw [hchildren] at h
    cases h
  · exact fun d n u h => absurd h not_mem_nil
  · exact fun c c' i h h' _ _ _ => (ha c h).trans (ha c' h').symm
  · intro c i _ _ h _
    rw [hi c i h]
    exact .inl hfs.root_unnamed
  · exact fun c i h => hi c i h ▸ hfs.root_lt
  · exact fun t u _ k h => absurd h not_mem_nil
  · exact fun t h => absurd h Bool.false_ne_true

lemma marks_idle {p' : Pc} (h : ahead p = [] ∧ p.emptied = [] ∧ adrift p = [] ∧ landing p = [])
    (h' : ahead p' = [] ∧ p'.emptied = [] ∧ adrift p' = [] ∧ landing p' = []) :
    ahead p' = ahead p ∧ p'.emptied = p.emptied ∧ adrift p' = adrift p ∧
      landing p' = landing p := by
  rw [h.1, h.2.1, h.2.2.1, h.2.2.2]
  exact h'

lemma marks_early (hearly : p.early = true) :
    ahead p = [] ∧ p.emptied = [] ∧ adrift p = [] ∧ landing p = [] := by
  cases p <;> first | exact ⟨rfl, rfl, rfl, rfl⟩ | cases hearly

section

variable (hinv : Inv s) {b : Bound} {d : DentryId} {use : Use}
include hinv

lemma inv_place {p' : Pc} (hpc : s.pc t = p) (hearly : p.early = true)
    (hearly' : p'.early = true) (hkeys : p'.keys = p.keys) (hrenames : renames p' = renames p)
    (hlocal : Local (s.setPc t p') t p') : Inv (s.setPc t p') :=
  inv_local hinv (turn_setPc hinv hpc rfl rfl hkeys hrenames) rfl rfl (fun _ _ => rfl) rfl
    (marks_idle (marks_early hearly) (marks_early hearly')) hlocal

lemma isDir_of_bound (hat : At s b) (hi : (s.dentry b.dir).inode = some i) : s.IsDir b.dir i := by
  obtain ⟨i', hd⟩ := hinv.global.parent _ _ hat.2 (hung hinv.global hat).2.1
  obtain rfl := isDir_of_inode hd hi
  exact hd

lemma inv_start {n : Name} {lock : Option Nat}
    (hidle : s.pc t = .idle) (hbounds : use.bounds = [])
    (hlock : lock = s.renameLock ∧ Use.renames use = false ∨ lock = some t ∧ s.renameLock = none)
    (hmade : ∀ new, use = .make new → Made s new) (hd : s.IsDir d i) :
    Inv { s.setPc t (.seek use d i n) with
      renameLock := lock
      seen := update s.seen t s.current } := by
  have hkeys : (Pc.seek use d i n).keys = [] := by
    rw [Pc.keys, Pc.bounds, hbounds]
    rfl
  refine inv_local (t := t) hinv ⟨hidle, update_self _ _ _,
    fun u hu => update_of_ne hu _ _, ?_, fun h => ?_, fun u _ h => ?_⟩ rfl rfl
    (fun u hu => update_of_ne hu _ _) rfl ⟨rfl, rfl, rfl, rfl⟩ ⟨hd, ?_, hmade⟩
  · rw [hkeys]
    exact fun u _ k h => absurd h not_mem_nil
  · rcases hlock with ⟨-, hno⟩ | ⟨hlock, -⟩
    · exact absurd (hno.symm.trans h) Bool.false_ne_true
    · exact hlock
  · rcases hlock with ⟨hlock, -⟩ | ⟨-, hnone⟩
    · exact hlock.trans h
    · cases hnone.symm.trans h
  · rw [hbounds]
    exact forall_mem_nil _

lemma inv_found (hpc : s.pc t = p) (hearly : p.early = true)
    (hbounds : p.bounds = use.bounds) (hrenames : renames p = Use.renames use)
    (hclaims : ∀ k, use.claims b.key = some k → ∀ u, u ≠ t → k ∉ (s.pc u).keys)
    (huse : UseOk s use) (hcached : s.cache.cachedChild b.dir b.name = some b.walked) :
    Inv (s.setPc t (use.next b)) :=
  inv_local hinv (turn_next hinv hpc rfl rfl hbounds hrenames hclaims) rfl rfl (fun _ _ => rfl) rfl
    (marks_idle (marks_early hearly) (marks_next use b))
    (local_next (cachedChild_eq_some.mp hcached) huse)

lemma inv_finish (hearly : (s.pc t).early = true) : Inv (s.finish t) :=
  inv_local hinv (turn_finish rfl s.cache) rfl rfl (fun _ _ => rfl) rfl
    (marks_idle (marks_early hearly) ⟨rfl, rfl, rfl, rfl⟩) trivial

omit hinv in
lemma unhash_spec (hat : At s b) (pc : Pc) :
    let s' := (s.setCache (s.cache.unhash b.dir b.name)).setPc t pc
    (∀ e, (s'.dentry e).alive = (s.dentry e).alive) ∧
      (∀ e, (s'.dentry e).inode = (s.dentry e).inode) ∧
      (∀ e, (s'.dentry e).unhashed = true ↔ e = b.walked ∨ (s.dentry e).unhashed = true) ∧
      ∀ b', At s b' → b'.key ≠ b.key → At s' b' := by
  have hdentry := fun e => dentries_unhash (e := e) (cachedChild_eq_some.mpr hat)
  refine ⟨fun e => ?_, fun e => ?_, fun e => ?_, fun b' hat' hne => ⟨?_, ?_⟩⟩ <;>
    simp only [State.setPc, State.setCache, State.dentry, hdentry, edited]
  · split_ifs with h <;> simp [h]
  · split_ifs with h <;> simp [h]
  · exact (if_neg hne).trans hat'.1
  · exact hat'.2

lemma inv_bump_place {g g' : Stage} {old new : Bound} (hpc : s.pc t = .moved g old new)
    (hahead : ahead (.moved g' old new) = ahead (.moved g old new))
    (hdrift : adrift (.moved g' old new) = adrift (.moved g old new))
    (hland : landing (.moved g' old new) = landing (.moved g old new))
    (hstage : Local s t (.moved g old new) = Local s t (.moved g' old new))
    (he : ∀ k ∈ (Pc.moved g' old new).emptied, k ∈ (Pc.moved g old new).emptied)
    (hgiven : ∀ k ∈ (Pc.moved g old new).emptied, k.1 ≠ d → k ∈ (Pc.moved g' old new).emptied)
    (hlocal : Local s t (.moved g old new)) :
    Inv ((s.setCache (s.cache.bump d)).setPc t (.moved g' old new)) := by
  have hmoved : Moved s g' old new := hstage.mp hlocal
  refine inv_bump hinv (turn_setPc hinv hpc rfl rfl rfl rfl) rfl rfl rfl rfl hahead hdrift hland
    he hgiven ?_
  have hdentry : ∀ e, ((s.setCache (s.cache.bump d)).setPc t (.moved g' old new)).dentry e =
      { s.dentry e with
        generation := (s.dentry e).generation + if e = d then 1 else 0 } :=
    fun e => dentries_bump _ _ _
  cases g' <;> simp only [Local, Moved, At, Leaves, State.IsDir, hdentry] <;> exact hmoved

lemma inv_step (hs : Step s t act s') (horderly : Orderly s t act) : Inv s' := by
  have hlocal := hinv.each t
  cases hs with
  | start use n hidle huse hdir =>
    have hspec : use.bounds = [] ∧ Use.renames use = false ∧
        ∀ new, use = .make new → Made s new := by
      rcases huse with rfl | ⟨kind, rfl⟩ | ⟨i, rfl, hi⟩ | ⟨directory, rfl⟩
      · exact ⟨rfl, rfl, fun _ h => by cases h⟩
      · exact ⟨rfl, rfl, fun _ h _ h' => by cases h; cases h'⟩
      · exact ⟨rfl, rfl, fun _ h _ h' => by cases h; cases h'; exact hi⟩
      · exact ⟨rfl, rfl, fun _ h => by cases h⟩
    exact inv_start hinv hidle hspec.1 (.inl ⟨rfl, hspec.2.1⟩) hspec.2.2 hdir
  | startRename n hidle hf hdir =>
    exact inv_start hinv hidle rfl (.inr ⟨rfl, hf⟩) (fun _ h => by cases h) hdir
  | hit hpc hcached =>
    rw [hpc] at hlocal
    exact inv_found hinv hpc rfl rfl rfl horderly.1 hlocal.2 hcached
  | miss hpc hcached =>
    rw [hpc] at hlocal
    exact inv_place hinv hpc rfl rfl rfl rfl hlocal
  | generation hpc =>
    rw [hpc] at hlocal
    exact inv_place hinv hpc rfl rfl rfl rfl ⟨hlocal.1, hlocal.2, le_rfl⟩
  | ask hpc =>
    rw [hpc] at hlocal
    exact inv_place hinv hpc rfl rfl rfl rfl ⟨hlocal.1, hlocal.2.1, hlocal.2.2, fun _ _ => rfl⟩
  -- Another thread asked for the same name and inserted its dentry first.
  | existing hpc hinsert =>
    rw [hpc] at hlocal
    obtain ⟨c, hcached, h, rfl⟩ | ⟨h, -⟩ | ⟨-, -, h, -⟩ := insertLookedUp_cases hinsert
    · simp only [some.injEq, Prod.mk.injEq, and_true] at h
      exact inv_found hinv hpc rfl rfl rfl horderly.1 hlocal.2.1 (h ▸ hcached)
    · cases h
    · simp at h
  -- The directory changed since its generation was read: the answer is thrown away.
  | stale hpc hinsert =>
    rw [hpc] at hlocal
    obtain ⟨c, -, h, -⟩ | ⟨-, rfl⟩ | ⟨-, -, h, -⟩ := insertLookedUp_cases hinsert
    · cases h
    · exact inv_place hinv hpc rfl rfl rfl rfl ⟨hlocal.1, hlocal.2.1⟩
    · cases h
  | insert hpc hinsert => exact inv_insert hinv hpc hinsert horderly
  | refuse hearly => exact inv_finish hinv hearly
  | allow hpc hnegative hdir metadata hseen hcreate =>
    rw [hpc] at hlocal
    have hisDir := isDir_of_bound hinv hlocal.1 hdir
    exact inv_place hinv hpc rfl rfl rfl rfl ⟨hlocal.1, hlocal.2, hisDir, hnegative⟩
  | make hpc hmake => exact inv_make hinv hpc hmake
  | fill hpc => exact inv_fill hinv hpc
  | permit hpc hpositive hdir hmay =>
    rw [hpc] at hlocal
    have hisDir := isDir_of_bound hinv hlocal hdir
    exact inv_place hinv hpc rfl rfl rfl rfl ⟨hlocal, hpositive, _, hisDir, hmay⟩
  | remove hpc hdir hremove => exact inv_remove hinv hpc hdir hremove
  | unhash hpc =>
    rw [hpc] at hlocal
    exact inv_unhash hinv hpc rfl rfl (.head _) hlocal.1 (.inl hlocal.2)
      (fun _ h => .inl (mem_singleton.mp h)) rfl rfl (fun _ h => h) rfl trivial
  | bump hpc =>
    refine inv_bump hinv (turn_finish hpc _) rfl rfl rfl rfl rfl rfl rfl ?_ ?_ trivial
    · exact forall_mem_nil _
    · exact fun key h hne => absurd (by rw [mem_singleton.mp h]; rfl) hne
  | renameNew n hpc hdir =>
    rw [hpc] at hlocal
    refine inv_place hinv hpc rfl rfl rfl rfl ⟨hdir, fun b hb => ?_, fun _ h => by cases h⟩
    rw [mem_singleton.mp hb]
    exact hlocal
  | same hpc hsame => exact inv_finish hinv (by rw [hpc]; rfl)
  | permitRename hpc hpositive hvictim hne hdir hdir' hmay hmay' =>
    rw [hpc] at hlocal
    have hisDir := isDir_of_bound hinv hlocal.1 hdir
    have hisDir' := isDir_of_bound hinv hlocal.2 hdir'
    exact inv_place hinv hpc rfl rfl rfl rfl ⟨hlocal.1, hlocal.2, hpositive, hvictim, hne,
      ⟨_, hisDir, hmay⟩, _, hisDir', hmay'⟩
  | rename hpc hdir hdir' hreplace hrename => exact inv_rename hinv hpc hdir hdir' hrename
  | unhashOld hpc =>
    rw [hpc] at hlocal
    obtain ⟨halive, ⟨dir, ino, hdir, hn, hinode⟩, hold, hnew, hleaves, hne⟩ := hlocal
    refine inv_unhash hinv hpc rfl rfl (.head _) hold (.inr (.head _)) (fun _ h => ?_) rfl rfl
      (forall_mem_nil _) rfl ?_
    · exact (mem_cons.mp h)
    · obtain ⟨halive', hinode', hunhashed', hat'⟩ := unhash_spec (t := t) hold _
      refine ⟨(halive' _).trans halive, ⟨dir, ino, ⟨(halive' _).trans hdir.1,
        (hinode' _).trans hdir.2.1, hdir.2.2⟩, hn, (hinode' _).trans hinode⟩,
        (hunhashed' _).mpr (.inl rfl), hat' _ hnew hne.symm, fun j hj => hleaves j ?_⟩
      exact (hinode' _).symm.trans hj
  | bumpOld hpc =>
    rw [hpc] at hlocal
    exact inv_bump_place hinv hpc rfl rfl rfl rfl (forall_mem_nil _)
      (fun key h hne => absurd (congrArg Prod.fst (mem_singleton.mp h)) hne) hlocal
  | unhashNew hpc =>
    rw [hpc] at hlocal
    obtain ⟨halive, ⟨dir, ino, hdir, hn, hinode⟩, hunhashed, hnew, hleaves⟩ := hlocal
    refine inv_unhash hinv hpc rfl rfl (.tail _ (.head _)) hnew (.inl hleaves)
      (fun _ h => .inl (mem_singleton.mp h)) rfl rfl (fun _ h => h) rfl ?_
    obtain ⟨halive', hinode', hunhashed', -⟩ := unhash_spec (t := t) hnew _
    exact ⟨(halive' _).trans halive, ⟨dir, ino, ⟨(halive' _).trans hdir.1,
      (hinode' _).trans hdir.2.1, hdir.2.2⟩, hn, (hinode' _).trans hinode⟩,
      (hunhashed' _).mpr (.inr hunhashed)⟩
  | bumpNew hpc =>
    rw [hpc] at hlocal
    exact inv_bump_place hinv hpc rfl rfl rfl rfl (fun _ h => h) (fun key h _ => h) hlocal
  | rehang hpc => exact inv_rehang hinv hpc
  | land hpc => exact inv_land hinv hpc
  | drop d hf hchildren => exact inv_drop hinv hf hchildren
  | setAttributes ino metadata hkind => exact inv_setAttributes hinv hkind

end

lemma run_inv (hfs : fs.WellFormed root) (hrun : ReflTransGen OrderlyNext (boot fs root who) s) :
    Inv s := by
  induction hrun with
  | refl => exact inv_boot hfs
  | tail _ hn ih =>
    obtain ⟨t, act, hs, horderly⟩ := hn
    exact inv_step ih hs horderly

/-- Every live hashed child is what its directory's own lookup answers, and no name has two. -/
structure Agrees (s : State) : Prop where
  answers : ∀ c d, (s.dentry c).alive = true → (s.dentry c).unhashed = false →
    (s.dentry c).parent = some d →
    ∃ ino, s.IsDir d ino ∧ (s.dentry c).inode = s.fs.names ino (s.dentry c).name
  single : ∀ c c' d, (s.dentry c).alive = true → (s.dentry c').alive = true →
    (s.dentry c).unhashed = false → (s.dentry c').unhashed = false →
    (s.dentry c).parent = some d → (s.dentry c').parent = some d →
    (s.dentry c).name = (s.dentry c').name → c = c'

/-- Whenever no call of an orderly run is in progress, the dentries agree with the filesystem. -/
theorem name_cache_agrees (hfs : fs.WellFormed root)
    (hrun : ReflTransGen OrderlyNext (boot fs root who) s) (hidle : ∀ t, s.pc t = .idle) :
    Agrees s := by
  have hglobal := (run_inv hfs hrun).global
  have hchild : ∀ c d, (s.dentry c).alive = true → (s.dentry c).unhashed = false →
      (s.dentry c).parent = some d → (s.dentry d).children (s.dentry c).name = some c := by
    intro c d halive hunhashed hparent
    refine (hglobal.hashed c d halive hunhashed hparent).resolve_right ?_
    rintro ⟨t, ht⟩
    rw [hidle] at ht
    cases ht
  refine ⟨fun c d halive hunhashed hparent => ?_,
    fun c c' d halive halive' hunhashed hunhashed' hparent hparent' hname => ?_⟩
  · obtain ⟨ino, hdir⟩ := hglobal.parent c d halive hparent
    refine ⟨ino, hdir,
      hglobal.agrees d ino _ c hdir (hchild c d halive hunhashed hparent) halive ?_⟩
    intro t ht
    rw [hidle] at ht
    cases ht
  · have h := hchild c d halive hunhashed hparent
    rw [hname, hchild c' d halive' hunhashed' hparent'] at h
    exact (some.inj h).symm

def shared : Fs where
  names := fun dir name => if dir = 0 ∧ name = [120] then some 1 else none
  metadata := fun ino =>
    if ino = 0 then ⟨.directory, 0o1777, 0, 0⟩
    else if ino = 1 then ⟨.regular, 0o644, 1000, 0⟩
    else ⟨.regular, 0o644, 2000, 0⟩
  next := 2

def users (t : Nat) : Access := if t = 2 then ⟨2000, 0, []⟩ else ⟨1000, 0, []⟩

lemma shared_wellFormed : shared.WellFormed 0 := by
  have hnames : ∀ d n i, shared.names d n = some i → d = 0 ∧ n = [120] ∧ i = 1 := by
    intro d n i h
    change (if d = 0 ∧ n = [120] then some 1 else none) = some i at h
    split_ifs at h with hk
    exact ⟨hk.1, hk.2, (some.inj h).symm⟩
  refine ⟨fun d n i h => ?_, fun i _ d n d' n' h h' => ?_, rfl, by decide, fun d n h => ?_⟩
  · rw [(hnames d n i h).2.2]
    decide
  · exact ⟨(hnames _ _ _ h).1.trans (hnames _ _ _ h').1.symm,
      (hnames _ _ _ h).2.1.trans (hnames _ _ _ h').2.1.symm⟩
  · cases (hnames d n 0 h).2.2

lemma mayTake_first {s : State} {t : Nat} (hwho : s.who t = ⟨1000, 0, []⟩)
    (hd : s.seen t 0 ⟨.directory, 0o1777, 0, 0⟩) (hino : s.seen t 1 ⟨.regular, 0o644, 1000, 0⟩) :
    s.MayTake t 0 1 := by
  refine ⟨_, _, hd, hino, ?_⟩
  rw [hwho]
  rfl

lemma orderly_quiet : Orderly s t .quiet :=
  ⟨fun _ h => absurd h (some_ne_none _).symm, fun _ h => absurd h (some_ne_none _).symm⟩

theorem name_cache_agrees_lookup : ∃ s, ReflTransGen OrderlyNext (boot shared 0 users) s ∧
    (∀ t, s.pc t = .idle) ∧ (s.dentry 1).inode = some 1 ∧ Agrees s := by
  have h : ReflTransGen OrderlyNext (boot shared 0 users) _ := .refl
  replace h := h.tail ⟨0, _, .start .lookup [120] rfl (.inl rfl)
    (show State.IsDir _ 0 0 from ⟨rfl, rfl, rfl⟩), orderly_quiet⟩
  replace h := h.tail ⟨0, _, .miss rfl rfl, orderly_quiet⟩
  replace h := h.tail ⟨0, _, .generation rfl, orderly_quiet⟩
  replace h := h.tail ⟨0, _, .ask rfl, orderly_quiet⟩
  replace h := h.tail ⟨0, _, .insert rfl rfl, fun _ h => absurd h (some_ne_none _).symm,
    fun _ _ u => by rcases u with _ | u <;> exact not_mem_nil⟩
  obtain ⟨s, h, hidle, hinode⟩ : ∃ s, ReflTransGen OrderlyNext (boot shared 0 users) s ∧
      (∀ t, s.pc t = .idle) ∧ (s.dentry 1).inode = some 1 :=
    ⟨_, h, fun t => by rcases t with _ | t <;> rfl, rfl⟩
  exact ⟨s, h, hidle, hinode, name_cache_agrees shared_wellFormed h hidle⟩

/-- A lookup asks for a name before it is removed, and records the answer between the removal from
the children and the bump of the generation: the removed file stays. -/
theorem stale_answer_stays : ∃ s, ReflTransGen Next (boot shared 0 users) s ∧
    (∀ t, s.pc t = .idle) ∧ ¬ Agrees s := by
  have h : ReflTransGen Next (boot shared 0 users) _ := .refl
  replace h := h.tail ⟨0, _, .start .lookup [120] rfl (.inl rfl)
    (show State.IsDir _ 0 0 from ⟨rfl, rfl, rfl⟩)⟩
  replace h := h.tail ⟨0, _, .miss rfl rfl⟩
  replace h := h.tail ⟨0, _, .generation rfl⟩
  replace h := h.tail ⟨0, _, .ask rfl⟩
  replace h := h.tail ⟨1, _, .start (.remove false) [120] rfl (.inr (.inr (.inr ⟨_, rfl⟩)))
    (show State.IsDir _ 0 0 from ⟨rfl, rfl, rfl⟩)⟩
  replace h := h.tail ⟨1, _, .miss rfl rfl⟩
  replace h := h.tail ⟨1, _, .generation rfl⟩
  replace h := h.tail ⟨1, _, .ask rfl⟩
  replace h := h.tail ⟨1, _, .insert rfl rfl⟩
  replace h := h.tail ⟨1, _, .permit rfl rfl rfl
    (mayTake_first rfl ⟨by decide, rfl⟩ ⟨by decide, rfl⟩)⟩
  replace h := h.tail ⟨1, _, .remove rfl rfl (show Fs.Removable _ 0 [120] false 1 from
    ⟨rfl, by decide, fun h => by cases h⟩)⟩
  replace h := h.tail ⟨1, _, .unhash rfl⟩
  replace h := h.tail ⟨0, _, .insert rfl rfl⟩
  replace h := h.tail ⟨1, _, .bump rfl⟩
  refine ⟨_, h, fun t => ?_, fun hagrees => ?_⟩
  · rcases t with _ | _ | t <;> rfl
  · obtain ⟨ino, hdir, hinode⟩ := hagrees.answers 2 0 rfl rfl rfl
    obtain rfl : 0 = ino := some.inj hdir.2.1
    cases hinode

/-- The names a call takes away are those of the inodes it was allowed to take. -/
theorem mayTake_of_step (hinv : Inv s) (hs : Step s t act s') {d : Ino} {n : Name}
    (hn : s.fs.names d n = some i) (htaken : s'.fs.names d n ≠ some i) :
    s.MayTake t d i := by
  have hlocal := hinv.each t
  cases hs with
  | make hpc hmake =>
    rw [hpc] at hlocal
    obtain ⟨hnone, hnames, -⟩ := make_spec hlocal.2.1 hmake
    refine absurd ((hnames d n).trans ?_) htaken
    rw [if_neg, hn]
    rintro ⟨rfl, rfl⟩
    cases hnone.symm.trans hn
  | remove hpc hd hremove =>
    obtain ⟨-, rfl, hmay⟩ := remove_spec hinv hpc hd hremove
    by_contra hno
    refine htaken ((names_set _ _ _ _ d n).trans ?_)
    rw [if_neg, hn]
    rintro ⟨rfl, rfl⟩
    rw [← mem_unique hn hremove.1] at hmay
    exact hno hmay
  | rename hpc hd hd' hreplace hrename =>
    obtain ⟨-, -, hfrom, hto, hnames, -, -, hmay, hmay'⟩ := rename_spec hinv hpc hd hd' hrename
    by_contra hno
    refine htaken ((hnames d n).trans ?_)
    rw [if_neg, if_neg, hn]
    · rintro ⟨rfl, rfl⟩
      rw [← mem_unique hn hfrom] at hmay
      exact hno hmay
    · rintro ⟨rfl, rfl⟩
      exact hno (hmay' i (hto.symm.trans hn))
  | _ => exact absurd hn htaken

lemma owner_of_mayDelete {who : Access} {d v : Metadata}
    (hmay : who.mayDelete d v = .ok ()) (hsticky : d.permissions &&& sticky ≠ 0) :
    who.uid = v.uid ∨ who.uid = d.uid ∨ who.uid = 0 := by
  rw [Access.mayDelete] at hmay
  cases hrequire : who.require d (mayWrite ||| mayExec) with
  | error e =>
    rw [hrequire] at hmay
    cases hmay
  | ok _ =>
    by_contra hno
    push Not at hno
    have hset : ¬ d.permissions &&& sticky = 0#32 := hsticky
    rw [hrequire] at hmay
    simp [hset, hno, Access.privileged, throw, throwThe, MonadExceptOf.throw] at hmay
    cases hmay

/-- In an orderly run, a name is taken away from an inode only by a call that was allowed to take
it, by metadata the two had during the call. -/
theorem deletion_checks_what_it_deletes (hfs : fs.WellFormed root)
    (hrun : ReflTransGen OrderlyNext (boot fs root who) s) (hstep : Step s t act s') {dir ino : Ino}
    {n : Name} (hname : s.fs.names dir n = some ino) (htaken : s'.fs.names dir n ≠ some ino) :
    ∃ dirMetadata metadata, s.seen t dir dirMetadata ∧ s.seen t ino metadata ∧
      (s.who t).mayDelete dirMetadata metadata = .ok () ∧
      (dirMetadata.permissions &&& sticky ≠ 0 → (s.who t).uid = metadata.uid ∨
        (s.who t).uid = dirMetadata.uid ∨ (s.who t).uid = 0) := by
  obtain ⟨dirMetadata, metadata, hdir, hino, hmay⟩ :=
    mayTake_of_step (run_inv hfs hrun) hstep hname htaken
  exact ⟨dirMetadata, metadata, hdir, hino, hmay, owner_of_mayDelete hmay⟩

theorem deletion_checks_what_it_deletes_owner : ∃ s s' act,
    ReflTransGen OrderlyNext (boot shared 0 users) s ∧ Step s 0 act s' ∧
      s.fs.names 0 [120] = some 1 ∧ s'.fs.names 0 [120] = none ∧
      ∃ dirMetadata metadata, s.seen 0 0 dirMetadata ∧ s.seen 0 1 metadata ∧
        (s.who 0).mayDelete dirMetadata metadata = .ok () := by
  have h : ReflTransGen OrderlyNext (boot shared 0 users) _ := .refl
  replace h := h.tail ⟨0, _, .start (.remove false) [120] rfl (.inr (.inr (.inr ⟨_, rfl⟩)))
    (show State.IsDir _ 0 0 from ⟨rfl, rfl, rfl⟩), orderly_quiet⟩
  replace h := h.tail ⟨0, _, .miss rfl rfl, orderly_quiet⟩
  replace h := h.tail ⟨0, _, .generation rfl, orderly_quiet⟩
  replace h := h.tail ⟨0, _, .ask rfl, orderly_quiet⟩
  replace h := h.tail ⟨0, _, .insert rfl rfl,
    fun _ _ u hu => by rcases u with _ | u; exacts [absurd rfl hu, not_mem_nil],
    fun _ _ u => by rcases u with _ | u <;> exact not_mem_nil⟩
  replace h := h.tail ⟨0, _, .permit rfl rfl rfl
    (mayTake_first rfl ⟨by decide, rfl⟩ ⟨by decide, rfl⟩), orderly_quiet⟩
  obtain ⟨s, h, hpc, hinode, hname, hkind⟩ : ∃ s, ReflTransGen OrderlyNext (boot shared 0 users) s ∧
      s.pc 0 = .permitted false ⟨0, [120], 1⟩ 1 ∧ (s.dentry 0).inode = some 0 ∧
      s.fs.names 0 [120] = some 1 ∧ s.fs.kind 1 = .regular := ⟨_, h, rfl, rfl, rfl, rfl⟩
  have hstep := Step.remove hpc hinode ⟨hname, by simp [hkind], fun h => by cases h⟩
  have hgone : (s.fs.set 0 [120] none).names 0 [120] = none := by simp [names_set]
  have htaken : (s.fs.set 0 [120] none).names 0 [120] ≠ some 1 := by simp [hgone]
  obtain ⟨dirMetadata, metadata, hdir, hino, hmay, -⟩ :=
    deletion_checks_what_it_deletes shared_wellFormed h hstep hname htaken
  exact ⟨s, _, _, h, hstep, hname, hgone, dirMetadata, metadata, hdir, hino, hmay⟩

/-- Two calls of one user unlink that user's file; between the check and the removal of the second,
another user makes a file of that name, and it is removed. -/
theorem unlink_takes_another_users_file : ∃ s s' act,
    ReflTransGen Next (boot shared 0 users) s ∧ Step s 0 act s' ∧
      s.fs.names 0 [120] = some 2 ∧ s'.fs.names 0 [120] = none ∧
      (s.fs.metadata 2).uid = 2000 ∧ (s.who 0).uid = 1000 ∧
      ¬ ∃ dirMetadata metadata, s.seen 0 0 dirMetadata ∧ s.seen 0 2 metadata ∧
        (s.who 0).mayDelete dirMetadata metadata = .ok () := by
  have h : ReflTransGen Next (boot shared 0 users) _ := .refl
  replace h := h.tail ⟨0, _, .start (.remove false) [120] rfl (.inr (.inr (.inr ⟨_, rfl⟩)))
    (show State.IsDir _ 0 0 from ⟨rfl, rfl, rfl⟩)⟩
  replace h := h.tail ⟨0, _, .miss rfl rfl⟩
  replace h := h.tail ⟨0, _, .generation rfl⟩
  replace h := h.tail ⟨0, _, .ask rfl⟩
  replace h := h.tail ⟨0, _, .insert rfl rfl⟩
  replace h := h.tail ⟨0, _, .permit rfl rfl rfl
    (mayTake_first rfl ⟨by decide, rfl⟩ ⟨by decide, rfl⟩)⟩
  replace h := h.tail ⟨1, _, .start (.remove false) [120] rfl (.inr (.inr (.inr ⟨_, rfl⟩)))
    (show State.IsDir _ 0 0 from ⟨rfl, rfl, rfl⟩)⟩
  replace h := h.tail ⟨1, _, .hit rfl rfl⟩
  replace h := h.tail ⟨1, _, .permit rfl rfl rfl
    (mayTake_first rfl ⟨by decide, rfl⟩ ⟨by decide, rfl⟩)⟩
  replace h := h.tail ⟨1, _, .remove rfl rfl (show Fs.Removable _ 0 [120] false 1 from
    ⟨rfl, by decide, fun h => by cases h⟩)⟩
  replace h := h.tail ⟨1, _, .unhash rfl⟩
  replace h := h.tail ⟨1, _, .bump rfl⟩
  replace h := h.tail ⟨2, _, .start (.make (.node .regular)) [120] rfl (.inr (.inl ⟨_, rfl⟩))
    (show State.IsDir _ 0 0 from ⟨rfl, rfl, rfl⟩)⟩
  replace h := h.tail ⟨2, _, .miss rfl rfl⟩
  replace h := h.tail ⟨2, _, .generation rfl⟩
  replace h := h.tail ⟨2, _, .ask rfl⟩
  replace h := h.tail ⟨2, _, .insert rfl rfl⟩
  replace h := h.tail ⟨2, _, .allow rfl rfl rfl ⟨.directory, 0o1777, 0, 0⟩ ⟨by decide, rfl⟩ rfl⟩
  replace h := h.tail ⟨2, _,
    .make rfl (show Fs.make _ _ _ _ ⟨.regular, 0o644, 2000, 0⟩ = _ from rfl)⟩
  refine ⟨_, _, _, h, .remove rfl rfl (show Fs.Removable _ 0 [120] false 2 from
    ⟨rfl, by decide, fun h => by cases h⟩), rfl, rfl, rfl, rfl, ?_⟩
  rintro ⟨dirMetadata, metadata, hdir, hino, hmay⟩
  have hdir' : dirMetadata = ⟨.directory, 0o1777, 0, 0⟩ := by
    rcases hdir with (⟨-, hdir⟩ | ⟨-, hdir⟩) | ⟨-, hdir⟩ <;> exact hdir.symm
  have hino' : metadata = ⟨.regular, 0o644, 2000, 0⟩ := by
    rcases hino with (⟨-, hino⟩ | ⟨-, hino⟩) | ⟨-, hino⟩ <;> exact hino.symm
  rw [hdir', hino'] at hmay
  cases hmay

end Ferrix.Vfs.NameAgreement
