import Ferrix.Vfs.NameSteps

namespace Ferrix.Vfs.NameCalls

open Dentries NameChanges NameInvariant NameSteps Function Option

variable {s s' : State} {t u : Nat} {p p' : Pc} {ino : Ino}

section

variable {use : Use} {b : Bound}

lemma local_next (hat : At s b) (huse : UseOk s use) : Local s t (use.next b) := by
  cases use with
  | lookup => trivial
  | make n => exact ⟨hat, huse.2 n rfl⟩
  | remove directory => exact hat
  | renameOld => exact hat
  | renameNew old => exact ⟨huse.1 old (.head _), hat⟩

lemma turn_next (hinv : Inv s) (hpc : s.pc t = p) (hn : s'.pc = update s.pc t (use.next b))
    (hlock : s'.renameLock = s.renameLock) (hbounds : p.bounds = use.bounds)
    (hrenames : renames p = Use.renames use)
    (hclaims : ∀ k, use.claims b.key = some k → ∀ u, u ≠ t → k ∉ (s.pc u).keys) :
    Turn s s' t p (use.next b) := by
  subst hpc
  refine ⟨rfl, ?_, fun u hu => ?_, fun u hu k hk => ?_, fun h => ?_, fun u _ h => ?_⟩
  · rw [hn, update_self]
  · rw [hn, update_of_ne hu]
  · have hkeys : use.claims b.key = some k ∨ k ∈ (s.pc t).keys := by
      cases use <;> simp_all [Use.next, Use.claims, Use.bounds, Pc.keys, Pc.bounds]
      exact hk.symm.imp_left Eq.symm
    rcases hkeys with hclaim | hmine
    · exact hclaims k hclaim u hu
    · exact hinv.apart t u hu.symm k hmine
  · rw [hlock]
    refine hinv.lock t (hrenames.trans ?_)
    cases use <;> exact h
  · rw [hlock]
    exact h

lemma marks_next (use : Use) (b : Bound) : ahead (use.next b) = [] ∧ (use.next b).emptied = [] ∧
    adrift (use.next b) = [] ∧ landing (use.next b) = [] := by
  cases use <;> exact ⟨rfl, rfl, rfl, rfl⟩

lemma new_busy {stage : Stage} {old new : Bound} (hpc : s.pc u = .moved stage old new) :
    Busy s new.key := by
  refine ⟨u, ?_⟩
  rw [hpc]
  cases stage <;> simp [ahead, Pc.emptied]

variable {d child : DentryId} {ino : Ino} {name : Name} {g : Nat} {found : Option Ino}
  {cache : Dcache}

lemma ne_next (h : Global s) {c : DentryId} (ha : (s.dentry c).alive = true) :
    c ≠ s.cache.next := fun hc => (h.fresh c ha).ne hc

/-- A dentry is made only under a name nobody has a live dentry for. -/
theorem inserted (hg : Global s) (hd : d < s.cache.next)
    (hinsert : s.cache.insertLookedUp d name found g = (some (child, true), cache))
    (pc : Pc) : child = s.cache.next ∧ (s.dentry d).generation = g ∧
      (∀ c, (s.dentry d).children name = some c → (s.dentry c).alive = false) ∧
      cache.next = s.cache.next + 1 ∧ Edit s ((s.setCache cache).setPc t pc) s.cache.next
        (.new name (some d) found) (d, name) (some s.cache.next) 0 := by
  obtain ⟨c, -, h, -⟩ | ⟨h, -⟩ | ⟨hnone, hgeneration, h, rfl⟩ := insertLookedUp_cases hinsert
  · simp at h
  · cases h
  simp only [some.injEq, Prod.mk.injEq, and_true] at h
  generalize hs' : (s.setCache _).setPc t pc = s'
  have hdentry : ∀ e, s'.dentry e = if e = s.cache.next then .new name (some d) found
      else { s.dentry e with
        children := fun n => if e = d ∧ n = name then some s.cache.next
          else if e = d then
            (s.cache.add (.new name (some d) found)).upgrade ((s.dentry e).children n)
          else (s.dentry e).children n } := fun e => hs' ▸ dentries_insert hd
  refine ⟨h, hgeneration, cachedChild_eq_none.mp hnone, rfl, ?_, fun e he => ?_, ?_,
    fun e n c hk hc => ?_, fun e n c hk hc ha => ?_, fun e ha => ?_⟩
  · rw [hdentry, if_pos rfl]
    exact ⟨rfl, rfl, rfl, rfl, rfl⟩
  · rw [hdentry, if_neg he]
    exact ⟨rfl, rfl, rfl, rfl, rfl⟩
  · rw [hdentry, if_neg hd.ne]
    simp
  · rw [hdentry] at hc
    by_cases he : e = s.cache.next
    · rw [if_pos he] at hc
      cases hc
    · rw [if_neg he] at hc
      simp only [if_neg fun h : e = d ∧ n = name => hk (Prod.ext h.1 h.2)] at hc
      split_ifs at hc
      · rw [Dcache.upgrade, filter_eq_some_iff] at hc
        exact hc.1
      · exact hc
  · obtain ⟨ino, hd'⟩ := hg.parent c e ha ((hg.listed e n c hc).2 ha).2.1
    rw [hdentry, if_neg (ne_next hg hd'.1)]
    simp only [if_neg fun h : e = d ∧ n = name => hk (Prod.ext h.1 h.2), hc]
    split_ifs
    · rw [Dcache.upgrade, filter_eq_some_iff]
      refine ⟨rfl, ?_⟩
      simp only [Dcache.add, update_apply]
      split_ifs
      · rfl
      · exact ha
    · rfl
  · rw [hdentry, if_neg (ne_next hg ha), ite_self]
    rfl

lemma inv_insert (hinv : Inv s) (hpc : s.pc t = .answered use d ino name g found)
    (hinsert : s.cache.insertLookedUp d name found g = (some (child, true), cache))
    (horderly : Orderly s t ⟨use.claims (d, name), some (d, name)⟩) :
    Inv ((s.setCache cache).setPc t (use.next ⟨d, name, child⟩)) := by
  have hg := hinv.global
  obtain ⟨hd, huse, -, hanswer⟩ := hinv.place hpc
  obtain ⟨rfl, hgeneration, hvacant, hn, hedit⟩ := inserted (t := t) hg
    (hg.fresh d hd.1) hinsert (use.next ⟨d, name, child⟩)
  have hdead : ∀ b, At s b → b.key ≠ (d, name) := by
    rintro ⟨_, _, walked⟩ hat hk
    obtain ⟨rfl, rfl⟩ := Prod.mk.inj hk
    cases (hvacant walked hat.1).symm.trans hat.2
  have hf : ¬ Busy s (d, name) := by
    rintro ⟨u, hahead | hempty⟩
    · obtain ⟨b, -, hk, hat, -⟩ := at_of_ahead hinv hahead
      exact hdead b hat hk
    · exact horderly.2 _ rfl u hempty
  have hfound := hanswer hgeneration hf
  have hpatch : Patch s ((s.setCache cache).setPc t (use.next ⟨d, name, s.cache.next⟩)) t
      (.answered use d ino name g found) (use.next ⟨d, name, s.cache.next⟩) s.cache.next
      (.new name (some d) found) (d, name) (some s.cache.next) 0 := by
    obtain ⟨-, hempty, -, -⟩ := marks_next use ⟨d, name, s.cache.next⟩
    refine ⟨hedit, turn_next hinv hpc rfl rfl rfl rfl horderly.1, rfl, rfl, rfl,
      hn.ge.trans' (Nat.le_succ _), hn.ge.trans_lt' (lt_add_one _), rfl, ?_, ?_, ?_, ?_, ?_,
      ?_, ?_, ?_, ?_, ?_, ?_, ?_, ?_, ?_, ?_, ?_, ?_, ?_⟩
    · exact fun u hu => ⟨fun h => hf ⟨u, .inr h⟩, fun b _ => hdead b⟩
    · exact fun e n hc => absurd (hg.listed e n _ hc).1 (lt_irrefl _)
    · exact fun c hc ha => absurd ((hvacant c hc).symm.trans ha) Bool.false_ne_true
    · exact fun u _ stage old new h => ne_next hg (hinv.place h).1
    · exact List.forall_mem_nil _
    · exact fun k h => absurd (hempty ▸ h) List.not_mem_nil
    · exact List.forall_mem_nil _
    · exact List.forall_mem_nil _
    · exact fun k h => absurd h (or_self_iff.not.mpr List.not_mem_nil)
    · exact fun ino' h => absurd rfl (ne_next hg h.1)
    · exact fun e he => ⟨ino, some.inj he ▸ hd⟩
    · exact fun c hc => ⟨(some.inj hc).symm, rfl, rfl, rfl⟩
    · exact fun e _ he => .inl ⟨rfl, Prod.ext (some.inj he).symm rfl⟩
    · intro ino' hd' _ _
      rw [mem_unique hd'.2.1 hd.2.1]
      exact hfound
    · exact fun h => absurd (hempty ▸ h) List.not_mem_nil
    · intro c j _ ha hi hj hkind
      rcases locate hinv ha hi hkind hd (hfound.symm.trans hj) with
        hchild | ⟨u, stage, old, new, hu, hk, -⟩
      · cases (hvacant c hchild).symm.trans ha
      · exact hf (hk ▸ new_busy hu)
    · rintro j (h | h) <;> cases h
    · exact fun j hj => hg.names_made ino name j (hfound.symm.trans hj)
  refine hpatch.inv hinv (local_next ⟨hedit.there, hedit.self.alive⟩ ⟨fun b hb => ?_, huse.2⟩)
  have hat := huse.1 b hb
  exact ⟨hedit.child_kept _ _ _ (hdead b hat) hat.1 hat.2,
    (hedit.rest _ (ne_next hg hat.2)).alive.trans hat.2⟩

end

variable {dir : Ino} {metadata : Metadata} {d : DentryId}

section

/-- The names changed in the filesystem are the thread's, and ahead of their dentries then. -/
structure Change (s s' : State) (t : Nat) (p p' : Pc) : Prop where
  turn : Turn s s' t p p'
  cache : s'.cache = s.cache
  who : s'.who = s.who
  seen : ∀ u ino metadata, s.seen u ino metadata → s'.seen u ino metadata
  next : s.fs.next ≤ s'.fs.next
  kind : ∀ ino, ino < s.fs.next → s'.fs.kind ino = s.fs.kind ino
  names : ∀ dir n, s'.fs.names dir n ≠ s.fs.names dir n →
    ∃ d, s.IsDir d dir ∧ (d, n) ∈ ahead p' ∧ (d, n) ∈ p.keys
  unnamed : ∀ ino, ino < s.fs.next → s.fs.kind ino = .directory → Unnamed s.fs ino →
    Unnamed s'.fs ino
  made : ∀ dir n ino, s'.fs.names dir n = some ino → ino < s'.fs.next
  single : ∀ ino, s'.fs.kind ino = .directory → ∀ d n d' n', s'.fs.names d n = some ino →
    s'.fs.names d' n' = some ino → d = d' ∧ n = n'
  ahead_of : ∀ key ∈ ahead p, key ∈ ahead p'
  emptied : p'.emptied = p.emptied
  adrift_of : adrift p' = adrift p
  landing_of : landing p' = landing p

variable (hchange : Change s s' t p p')
include hchange

lemma Change.dentry : s'.dentry = s.dentry := by
  funext e
  rw [State.dentry, hchange.cache]
  rfl

lemma Change.isDir (h : Global s) (d : DentryId) (ino : Ino) :
    s'.IsDir d ino ↔ s.IsDir d ino := by
  rw [State.IsDir, State.IsDir, hchange.dentry]
  refine and_congr_right fun _ => and_congr_right fun hi => ?_
  rw [hchange.kind ino (h.made d ino hi)]

lemma Change.names_eq (h : Global s) {n : Name} (hd : s.IsDir d dir)
    (hf : (d, n) ∉ ahead p' ∨ (d, n) ∉ p.keys) :
    s'.fs.names dir n = s.fs.names dir n := by
  by_contra hne
  obtain ⟨d', hd', hahead, hmine⟩ := hchange.names dir n hne
  rw [h.single d' d dir hd'.1 hd.1 hd'.2.1 hd.2.1 hd.2.2] at hahead hmine
  exact hf.elim (fun h => h hahead) fun h => h hmine

lemma Change.global (hg : Global s) : Global s' := by
  have hdentry := hchange.dentry
  have hturn := hchange.turn
  refine ⟨?_, ?_, ?_, ?_, ?_, ?_, ?_, ?_, ?_, hchange.made, hchange.single⟩ <;>
    simp only [hdentry, hchange.cache, hchange.isDir hg]
  · exact hg.fresh
  · exact hg.parent
  · exact hg.listed
  · intro c d h1 h2 h3
    refine (hg.hashed c d h1 h2 h3).imp_right (hturn.keep fun h => ?_)
    rw [hchange.landing_of]
    exact h
  · intro d ino n c hd hc ha hf
    have hself : (d, n) ∉ ahead p' := hturn.self ▸ hf t
    rw [hchange.names_eq hg hd (.inl hself)]
    refine hg.agrees d ino n c hd hc ha fun u hu => ?_
    obtain ⟨v, hv⟩ := hturn.keep (hchange.ahead_of _) ⟨u, hu⟩
    exact hf v hv
  · intro d n u hu
    rcases hturn.mark ⟨u, hu⟩ with h | ⟨v, -, hv⟩
    · rw [hchange.emptied, ← hturn.was] at h
      exact hg.empty d n t h
    · exact hg.empty d n v hv
  · intro c c' ino h1 h2 h3 h4 hkind
    rw [hchange.kind ino (hg.made c ino h3)] at hkind
    exact hg.single c c' ino h1 h2 h3 h4 hkind
  · intro c ino h1 h2 h3 hkind
    have hlt := hg.made c ino h3
    rw [hchange.kind ino hlt] at hkind
    refine (hg.gone c ino h1 h2 h3 hkind).imp (hchange.unnamed ino hlt hkind)
      (hturn.keep fun h => ?_)
    rw [hchange.adrift_of]
    exact h
  · exact fun c ino h => (hg.made c ino h).trans_le hchange.next

variable (hinv : Inv s) {b : Bound} {fs : Fs} {directory : Bool} {v : Option Ino} {new : New}
include hinv

lemma Change.kept (hu : u ≠ t ∨ s'.fs.names = s.fs.names) : Kept s s' u (s.pc u) := by
  have hg := hinv.global
  have hturn := hchange.turn
  have hdentry := hchange.dentry
  refine ⟨fun d ino _ h => (hchange.isDir hg d ino).mpr h, fun d _ _ => by rw [hdentry],
    fun b _ h => ?_, fun b hb dir ino hd hn => ?_,
    fun use d ino name g found _ hd _ hsame hf => ?_,
    fun stage old n _ => by rw [hdentry]; exact ⟨rfl, rfl, rfl, rfl, rfl⟩, hchange.unnamed,
    hchange.kind, hchange.next, hchange.seen u, by rw [hchange.who]⟩
  · rw [At, hdentry]
    exact ⟨h, rfl⟩
  · rcases hu with hu | hnames
    · rw [hchange.names_eq hg hd (.inr fun h => ?_), hn]
      exact hinv.apart t u hu.symm _ (hturn.was ▸ h) (key_mem hb)
    · rw [hnames, hn]
  · rw [hdentry] at hsame
    refine ⟨hsame, fun hbusy => hf (hturn.busy (fun h => ?_) hbusy), ?_⟩
    · rw [hchange.emptied]
      exact h.imp_left (hchange.ahead_of _)
    · refine hchange.names_eq hg hd (.inl fun h => hf ⟨t, .inl ?_⟩)
      rw [hturn.self]
      exact h

lemma Change.inv (hlocal : Local s' t p') : Inv s' :=
  inv_turn hinv hchange.turn (hchange.global hinv.global) hlocal fun _ hu =>
    hchange.kept hinv (.inl hu)

omit hchange

lemma inode_of_bound (hpc : s.pc t = p) (hb : b ∈ p.bounds) (hahead : ahead p = [])
    (hat : At s b) (hd : s.IsDir b.dir dir) :
    (s.dentry b.walked).inode = s.fs.names dir b.name := by
  subst hpc
  refine hinv.global.agrees _ _ _ _ hd hat.1 hat.2 fun u hu => ?_
  by_cases hut : u = t
  · rw [hut, hahead] at hu
    cases hu
  · exact hinv.apart t u (Ne.symm hut) _ (key_mem hb) (key_of_ahead hu)

omit hinv in
lemma names_set (fs : Fs) (dir : Ino) (name : Name) (ino : Option Ino) (d : Ino) (n : Name) :
    (fs.set dir name ino).names d n = if d = dir ∧ n = name then ino else fs.names d n := by
  change update fs.names dir (update (fs.names dir) name ino) d n = _
  by_cases hd : d = dir
  · subst hd
    rw [update_self, update_apply]
    simp
  · rw [update_of_ne hd]
    simp [hd]

omit hinv in
lemma isDir_of_inode {ino' : Ino} (hd : s.IsDir d ino)
    (hi : (s.dentry d).inode = some ino') : ino' = ino :=
  mem_unique hi hd.2.1

omit hinv in
lemma make_spec {name : Name} (hmade : Made s new)
    (hmake : s.fs.make dir name new metadata = some (fs, ino)) : s.fs.names dir name = none ∧
      (∀ d n, fs.names d n = if d = dir ∧ n = name then some ino else s.fs.names d n) ∧
      s.fs.next ≤ fs.next ∧ ino < fs.next ∧ (∀ j, j < s.fs.next → fs.kind j = s.fs.kind j) ∧
      (fs.kind ino = .directory → s.fs.next ≤ ino) := by
  cases new with
  | node kind =>
    rw [Fs.make] at hmake
    split_ifs at hmake with hsome
    obtain ⟨rfl, rfl⟩ := Prod.mk.inj (some.inj hmake)
    refine ⟨not_isSome_iff_eq_none.mp hsome, names_set _ _ _ _, Nat.le_succ _,
      lt_add_one _, fun j hj => ?_, fun _ => le_rfl⟩
    change (update s.fs.metadata s.fs.next metadata j).kind = _
    rw [update_of_ne hj.ne]
    rfl
  | link i =>
    rw [Fs.make] at hmake
    split_ifs at hmake with hsome hkind
    obtain ⟨rfl, rfl⟩ := Prod.mk.inj (some.inj hmake)
    exact ⟨not_isSome_iff_eq_none.mp hsome, names_set _ _ _ _, le_rfl, hmade i rfl,
      fun j _ => rfl, fun h => absurd h hkind⟩

lemma inv_make {dir ino : Ino} {metadata : Metadata} (hpc : s.pc t = .allowed new b dir)
    (hmake : s.fs.make dir b.name new metadata = some (fs, ino)) :
    Inv ((s.setFs fs).setPc t (.filling b ino)) := by
  have hg := hinv.global
  obtain ⟨hat, hmade, hd, hnegative⟩ := hinv.place hpc
  obtain ⟨-, hnames, hn, hlt, hkind, hfresh⟩ := make_spec hmade hmake
  have hchange : Change s ((s.setFs fs).setPc t (.filling b ino)) t (.allowed new b dir)
      (.filling b ino) := by
    refine ⟨turn_setPc hinv hpc rfl rfl rfl rfl, rfl, rfl, fun u i m h => .inl h, hn, hkind,
      fun d n hne => ?_, fun j hj hdirj hun d n hsome => ?_, fun d n j hsome => ?_, fun j hj => ?_,
      List.forall_mem_nil _, rfl, rfl, rfl⟩
    · change fs.names d n ≠ _ at hne
      rw [hnames] at hne
      split_ifs at hne with hk
      · exact ⟨b.dir, hk.1 ▸ hd, hk.2 ▸ .head _, hk.2 ▸ .head _⟩
      · exact absurd rfl hne
    · change fs.names d n = some j at hsome
      rw [hnames] at hsome
      split_ifs at hsome
      · obtain rfl := some.inj hsome
        exact absurd (hfresh ((hkind ino hj).trans hdirj)) (not_le.mpr hj)
      · exact hun d n hsome
    · change fs.names d n = some j at hsome
      rw [hnames] at hsome
      split_ifs at hsome
      · exact some.inj hsome ▸ hlt
      · exact (hg.names_made d n j hsome).trans_le hn
    · intro d n d' n' hsome hsome'
      change fs.names d n = some j at hsome
      change fs.names d' n' = some j at hsome'
      rw [hnames] at hsome hsome'
      have hnew : ∀ d n, some ino = some j → s.fs.names d n ≠ some j := by
        intro d n heq hold
        obtain rfl := some.inj heq
        exact absurd (hfresh hj) (not_le.mpr (hg.names_made d n ino hold))
      split_ifs at hsome with h
      · split_ifs at hsome' with h'
        · exact ⟨h.1.trans h'.1.symm, h.2.trans h'.2.symm⟩
        · exact absurd hsome' (hnew d' n' hsome)
      · split_ifs at hsome' with h'
        · exact absurd hsome (hnew d n hsome')
        · have hj' := hkind j (hg.names_made d n j hsome)
          exact hg.names_single j (hj'.symm.trans hj) d n d' n' hsome hsome'
  refine hchange.inv hinv ⟨hat, hnegative, dir, (hchange.isDir hg _ _).mpr hd, ?_⟩
  change fs.names dir b.name = some ino
  rw [hnames]
  simp

lemma remove_spec {v : Ino} (hpc : s.pc t = .permitted directory b ino)
    (hi : (s.dentry b.dir).inode = some dir) (hremove : s.fs.Removable dir b.name directory v) :
    s.IsDir b.dir dir ∧ v = ino ∧ s.MayTake t dir ino := by
  obtain ⟨hat, hpositive, dir', hd, hmay⟩ := hinv.place hpc
  obtain rfl := isDir_of_inode hd hi
  have hagrees := inode_of_bound hinv hpc (.head _) rfl hat hd
  rw [hremove.1, hpositive] at hagrees
  exact ⟨hd, (some.inj hagrees).symm, hmay⟩

lemma inv_remove {v : Ino} (hpc : s.pc t = .permitted directory b ino)
    (hi : (s.dentry b.dir).inode = some dir) (hremove : s.fs.Removable dir b.name directory v) :
    Inv ((s.setFs (s.fs.set dir b.name none)).setPc t (.unhashing b)) := by
  have hg := hinv.global
  obtain ⟨hat, hpositive, -⟩ := hinv.place hpc
  obtain ⟨hd, rfl, -⟩ := remove_spec hinv hpc hi hremove
  have hnames := names_set s.fs dir b.name none
  have hless : ∀ d n j, (s.fs.set dir b.name none).names d n = some j →
      s.fs.names d n = some j ∧ ¬ (d = dir ∧ n = b.name) := by
    intro d n j h
    rw [hnames] at h
    split_ifs at h with hk
    exact ⟨h, hk⟩
  have hchange : Change s ((s.setFs (s.fs.set dir b.name none)).setPc t (.unhashing b)) t
      (.permitted directory b v) (.unhashing b) := by
    refine ⟨turn_setPc hinv hpc rfl rfl rfl rfl, rfl, rfl, fun u i m h => .inl h, le_rfl,
      fun j _ => rfl, fun d n hne => ?_, fun j _ _ hun d n hsome => hun d n (hless d n j hsome).1,
      fun d n j hsome => hg.names_made d n j (hless d n j hsome).1,
      fun j hj d n d' n' h h' => hg.names_single j hj d n d' n' (hless _ _ _ h).1
        (hless _ _ _ h').1, List.forall_mem_nil _, rfl, rfl, rfl⟩
    · change (s.fs.set dir b.name none).names d n ≠ _ at hne
      rw [hnames] at hne
      split_ifs at hne with hk
      · exact ⟨b.dir, hk.1 ▸ hd, hk.2 ▸ .head _, hk.2 ▸ .head _⟩
      · exact absurd rfl hne
  refine hchange.inv hinv ⟨hat, fun j hj hkind d n hsome => ?_⟩
  obtain rfl := mem_unique hj hpositive
  obtain ⟨hold, hne⟩ := hless d n j hsome
  exact hne (hg.names_single j hkind d n dir b.name hold hremove.1)

/-- A rename moves the inode its call was allowed to move, over the one it was allowed to
replace. -/
theorem rename_spec {old new : Bound} {dir' ino : Ino}
    (hpc : s.pc t = .moving old new ino v) (hdirnode : (s.dentry old.dir).inode = some dir)
    (hdirnode' : (s.dentry new.dir).inode = some dir')
    (hrename : s.fs.rename (dir, old.name) (dir', new.name) = some fs) :
    s.IsDir old.dir dir ∧ s.IsDir new.dir dir' ∧ s.fs.names dir old.name = some ino ∧
      s.fs.names dir' new.name = v ∧
      (∀ d n, fs.names d n = if d = dir' ∧ n = new.name then some ino
        else if d = dir ∧ n = old.name then none else s.fs.names d n) ∧
      (∀ j, fs.kind j = s.fs.kind j) ∧ fs.next = s.fs.next ∧ s.MayTake t dir ino ∧
      ∀ ino', v = some ino' → s.MayTake t dir' ino' := by
  obtain ⟨hold, hnew, hpositive, hvictim, hne, ⟨i, hd, hmay⟩, i', hd', hmay'⟩ := hinv.place hpc
  obtain rfl := isDir_of_inode hd hdirnode
  obtain rfl := isDir_of_inode hd' hdirnode'
  have hfrom := inode_of_bound hinv hpc (.head _) rfl hold hd
  have hto := inode_of_bound hinv hpc (.tail _ (.head _)) rfl hnew hd'
  rw [hpositive] at hfrom
  rw [hvictim] at hto
  rw [Fs.rename] at hrename
  simp only [← hfrom, ← hto, if_neg hne, some.injEq] at hrename
  refine ⟨hd, hd', hfrom.symm, hto.symm, fun d n => ?_, fun j => ?_, ?_, hmay, hmay'⟩
  · rw [← hrename, names_set, names_set]
  · rw [← hrename]
    rfl
  · rw [← hrename]
    rfl

lemma inv_rename {old new : Bound} {dir' : Ino}
    (hpc : s.pc t = .moving old new ino v) (hdirnode : (s.dentry old.dir).inode = some dir)
    (hdirnode' : (s.dentry new.dir).inode = some dir')
    (hrename : s.fs.rename (dir, old.name) (dir', new.name) = some fs) :
    Inv ((s.setFs fs).setPc t (.moved .renamed old new)) := by
  have hg := hinv.global
  obtain ⟨hold, hnew, hpositive, hvictim, hne, -, -⟩ := hinv.place hpc
  obtain ⟨hdir, hdir', hfrom, hto, hnames, hkind, hb, -, -⟩ :=
    rename_spec hinv hpc hdirnode hdirnode' hrename
  have hkeys : old.key ≠ new.key := by
    intro heq
    have hsame := hold.1
    obtain ⟨hd, hn⟩ := Prod.mk.inj heq
    rw [hd, hn, hnew.1] at hsame
    rw [some.inj hsame, hpositive] at hvictim
    exact hne hvictim.symm
  have hless : ∀ d n j, fs.names d n = some j → d = dir' ∧ n = new.name ∧ j = ino ∨
      s.fs.names d n = some j ∧ ¬ (d = dir' ∧ n = new.name) ∧ ¬ (d = dir ∧ n = old.name) := by
    intro d n j h
    rw [hnames] at h
    split_ifs at h with hk hk'
    · exact .inl ⟨hk.1, hk.2, (some.inj h).symm⟩
    · exact .inr ⟨h, hk, hk'⟩
  have honce : ∀ d n, s.fs.kind ino = .directory → s.fs.names d n = some ino →
      d = dir ∧ n = old.name := fun d n hk h => hg.names_single ino hk _ _ _ _ h hfrom
  have hchange : Change s ((s.setFs fs).setPc t (.moved .renamed old new)) t
      (.moving old new ino v) (.moved .renamed old new) := by
    refine ⟨turn_setPc hinv hpc rfl rfl rfl rfl, rfl, rfl, fun u i m h => .inl h, hb.ge,
      fun j _ => hkind j, fun d n hdiff => ?_, fun j _ _ hun d n hsome => ?_, fun d n j hsome => ?_,
      fun j hj d n d' n' h h' => ?_, List.forall_mem_nil _, rfl, rfl, rfl⟩
    · change fs.names d n ≠ _ at hdiff
      rw [hnames] at hdiff
      split_ifs at hdiff with hk hk'
      · exact ⟨new.dir, hk.1 ▸ hdir', hk.2 ▸ .tail _ (.head _), hk.2 ▸ .tail _ (.head _)⟩
      · exact ⟨old.dir, hk'.1 ▸ hdir, hk'.2 ▸ .head _, hk'.2 ▸ .head _⟩
      · exact absurd rfl hdiff
    · rcases hless d n j hsome with ⟨-, -, rfl⟩ | ⟨hsome, -⟩
      · exact hun _ _ hfrom
      · exact hun d n hsome
    · change j < fs.next
      rw [hb]
      rcases hless d n j hsome with ⟨-, -, rfl⟩ | ⟨hsome, -⟩
      · exact hg.names_made _ _ j hfrom
      · exact hg.names_made d n j hsome
    · have hj' : s.fs.kind j = .directory := hkind j ▸ hj
      rcases hless d n j h with ⟨rfl, rfl, rfl⟩ | ⟨h, -, hk⟩
      · rcases hless d' n' j h' with ⟨rfl, rfl, -⟩ | ⟨h', -, hk'⟩
        · exact ⟨rfl, rfl⟩
        · exact absurd (honce d' n' hj' h') hk'
      · rcases hless d' n' j h' with ⟨-, -, rfl⟩ | ⟨h', -⟩
        · exact absurd (honce d n hj' h) hk
        · exact hg.names_single j hj' d n d' n' h h'
  refine hchange.inv hinv ⟨hold.2, ⟨dir', ino, (hchange.isDir hg _ _).mpr hdir', ?_,
    hpositive⟩, hold, hnew, fun j hj hkj d n hsome => ?_, hkeys⟩
  · change fs.names dir' new.name = some ino
    rw [hnames]
    simp
  · have hj' : v = some j := hvictim.symm.trans hj
    rw [hj'] at hto hne
    rcases hless d n j hsome with ⟨-, -, rfl⟩ | ⟨hsome, hk, -⟩
    · exact hne rfl
    · exact hk (hg.names_single j (hkind j ▸ hkj) d n _ _ hsome hto)

end

lemma turn_still (hpc : s'.pc = s.pc) (hlock : s'.renameLock = s.renameLock) (hinv : Inv s)
    (t : Nat) : Turn s s' t (s.pc t) (s.pc t) := by
  refine turn_setPc hinv rfl ?_ hlock rfl rfl
  rw [hpc, update_eq_self]

lemma inv_still (hinv : Inv s) (hturn : Turn s s' t (s.pc t) (s.pc t)) (h : Global s')
    (hkept : ∀ u, Kept s s' u (s.pc u)) : Inv s' :=
  inv_turn hinv hturn h ((hinv.each t).kept (hkept t) hinv.global) fun u _ => hkept u

lemma inv_drop (hinv : Inv s) (hf : ∀ u, d ∉ (s.pc u).holds)
    (hchildren : ∀ c, (s.dentry c).alive = true → (s.dentry c).parent ≠ some d) :
    Inv (s.setCache (s.cache.update d fun dentry => { dentry with alive := false })) := by
  have hg := hinv.global
  generalize hs' : s.setCache (s.cache.update d fun dentry => { dentry with alive := false }) = s'
  have hfs : s'.fs = s.fs := by rw [← hs']; rfl
  have hdentry : ∀ e, s'.dentry e = { s.dentry e with
      alive := if e = d then false else (s.dentry e).alive } := by
    intro e
    rw [← hs']
    rw [State.dentry, State.setCache, dentries_update]
    split_ifs <;> rfl
  have ha : ∀ e, (s'.dentry e).alive = true ↔ e ≠ d ∧ (s.dentry e).alive = true := by
    intro e
    rw [hdentry]
    by_cases he : e = d <;> simp [he]
  have hr : ∀ e, (s'.dentry e).inode = (s.dentry e).inode ∧
      (s'.dentry e).unhashed = (s.dentry e).unhashed ∧
      (s'.dentry e).parent = (s.dentry e).parent ∧ (s'.dentry e).name = (s.dentry e).name ∧
      (s'.dentry e).children = (s.dentry e).children ∧
      (s'.dentry e).generation = (s.dentry e).generation := by
    intro e
    rw [hdentry]
    exact ⟨rfl, rfl, rfl, rfl, rfl, rfl⟩
  simp only [forall_and] at hr
  obtain ⟨hi, hunhashed, hp, hn, hlist, hgeneration⟩ := hr
  have hisDir : ∀ e ino, s'.IsDir e ino ↔ e ≠ d ∧ s.IsDir e ino := by
    intro e ino
    rw [State.IsDir, State.IsDir, ha, hi, hfs, and_assoc]
  have hturn : Turn s s' 0 _ _ :=
    turn_still (by rw [← hs']; rfl) (by rw [← hs']; rfl) hinv 0
  refine inv_still hinv hturn ?_ fun u => ?_
  · have hmark : ∀ {α : Type} {f : Pc → List α} {a : α}, (∃ u, a ∈ f (s.pc u)) →
        ∃ u, a ∈ f (s'.pc u) := fun h => hturn.keep (fun h => h) h
    constructor <;>
      simp only [ha, hi, hunhashed, hp, hn, hlist, hfs, hisDir]
    · intro c h
      rw [← hs']
      exact hg.fresh c h.2
    · intro c e hc he
      obtain ⟨ino, hd⟩ := hg.parent c e hc.2 he
      exact ⟨ino, fun h => hchildren c hc.2 (h ▸ he), hd⟩
    · intro e n c h
      obtain ⟨hlt, hlisted⟩ := hg.listed e n c h
      rw [← hs']
      exact ⟨hlt, fun h => hlisted h.2⟩
    · exact fun c e hc h1 h2 => (hg.hashed c e hc.2 h1 h2).imp_right hmark
    · intro e ino n c hd hchild hc h
      exact hg.agrees e ino n c hd.2 hchild hc.2 fun u hu => (hmark ⟨u, hu⟩).elim h
    · intro e n u hu
      rw [← hs'] at hu
      exact hg.empty e n u hu
    · exact fun c c' ino hc hc' => hg.single c c' ino hc.2 hc'.2
    · exact fun c ino hc h1 h2 h3 => (hg.gone c ino hc.2 h1 h2 h3).imp_right hmark
    · exact hg.made
    · exact hg.names_made
    · exact hg.names_single
  · have hne : ∀ e ∈ (s.pc u).holds, e ≠ d := fun e he h => hf u (h ▸ he)
    refine kept_cache hfs (by rw [← hs']; rfl) (by rw [← hs']; rfl) ?_ ?_ ?_ ?_ ?_
    · exact fun e ino he h => ⟨(ha e).mpr ⟨hne e he, h.1⟩, hi e⟩
    · exact fun e _ _ => (hgeneration e).ge
    · intro b hb h
      exact ⟨⟨(congrFun (hlist b.dir) _).trans h.1,
        (ha _).mpr ⟨hne _ (mem_holds_walked hb), h.2⟩⟩, hi _⟩
    · intro e _ n g _ _ hsame hclear
      rw [hgeneration] at hsame
      exact ⟨hsame, fun hbusy => hclear (hturn.busy (fun h => h) hbusy)⟩
    · intro stage old new hpc
      refine ⟨?_, hi _, hunhashed _, hp _, hn _⟩
      rw [hdentry]
      refine if_neg (hne _ (mem_holds_walked (b := old) ?_))
      rw [hpc]
      exact .head _

lemma inv_setAttributes (hinv : Inv s) (hkind : metadata.kind = s.fs.kind ino) :
    Inv (s.setFs { s.fs with metadata := update s.fs.metadata ino metadata }) := by
  have h := hinv.global
  have hkinds : ∀ j, (update s.fs.metadata ino metadata j).kind = s.fs.kind j := by
    intro j
    rw [update_apply]
    split_ifs with hj
    · rw [hj, hkind]
    · rfl
  have hchange : Change s (s.setFs { s.fs with
      metadata := update s.fs.metadata ino metadata }) 0 (s.pc 0) (s.pc 0) := by
    refine ⟨turn_still (by rfl) (by rfl) hinv 0, rfl, rfl, fun u i m h => .inl h, le_rfl,
      fun j _ => hkinds j, fun d n h => absurd rfl h, fun j _ _ h => h, h.names_made,
      fun j hj => ?_, fun _ h => h, rfl, rfl, rfl⟩
    exact h.names_single j ((hkinds j).symm.trans hj)
  exact inv_still hinv hchange.turn (hchange.global h) fun u => hchange.kept hinv (.inr rfl)

end Ferrix.Vfs.NameCalls
