import Ferrix.Vfs.NameInvariant

namespace Ferrix.Vfs.NameSteps

open Dentries NameChanges NameInvariant Function List Option

variable {s s' : State} {t u : Nat} {p p' pc : Pc} {key : Key} {d : DentryId} {n : Name}

/-- Thread `t` goes on from `p` to `p'`; the names it is at work on are not another's. -/
structure Turn (s s' : State) (t : Nat) (p p' : Pc) : Prop where
  was : s.pc t = p
  self : s'.pc t = p'
  others : ∀ u, u ≠ t → s'.pc u = s.pc u
  apart : ∀ u, u ≠ t → ∀ key ∈ p'.keys, key ∉ (s.pc u).keys
  lock : renames p' = true → s'.renameLock = some t
  locks : ∀ u, u ≠ t → s.renameLock = some u → s'.renameLock = some u

lemma inv_turn (hinv : Inv s) (hturn : Turn s s' t p p') (hg : Global s')
    (hlocal : Local s' t p') (hkept : ∀ u, u ≠ t → Kept s s' u (s.pc u)) : Inv s' := by
  refine ⟨hg, fun u => ?_, fun u v huv => ?_, fun u hu => ?_⟩
  · by_cases h : u = t
    · rw [h, hturn.self]
      exact hlocal
    · rw [hturn.others u h]
      exact (hinv.each u).kept (hkept u h) hinv.global
  · by_cases hu : u = t
    · have hv : v ≠ t := fun h => huv (hu.trans h.symm)
      rw [hu, hturn.self, hturn.others v hv]
      exact hturn.apart v hv
    · rw [hturn.others u hu]
      by_cases hv : v = t
      · rw [hv, hturn.self]
        exact fun key hk hk' => hturn.apart u hu key hk' hk
      · rw [hturn.others v hv]
        exact hinv.apart u v huv
  · by_cases h : u = t
    · rw [h, hturn.self] at hu
      rw [h]
      exact hturn.lock hu
    · rw [hturn.others u h] at hu
      exact hturn.locks u h (hinv.lock u hu)

lemma turn_setPc (hinv : Inv s) (hpc : s.pc t = p) (hn : s'.pc = update s.pc t p')
    (hlock : s'.renameLock = s.renameLock) (hkeys : p'.keys = p.keys)
    (hrenames : renames p' = renames p) : Turn s s' t p p' := by
  subst hpc
  refine ⟨rfl, ?_, fun u hu => ?_, fun u hu key hk => ?_, fun h => ?_, fun u _ h => ?_⟩
  · rw [hn, update_self]
  · rw [hn, update_of_ne hu]
  · exact hinv.apart t u hu.symm key (hkeys ▸ hk)
  · rw [hlock]
    exact hinv.lock t (hrenames ▸ h)
  · rw [hlock]
    exact h

lemma turn_finish (hpc : s.pc t = p) (c : Dcache) :
    Turn s ((s.setCache c).finish t) t p .idle := by
  refine ⟨hpc, update_self _ _ _, fun u hu => update_of_ne hu _ _, ?_, ?_, ?_⟩
  · exact fun u _ key hk => absurd hk not_mem_nil
  · exact fun h => absurd h Bool.false_ne_true
  · intro u hu h
    change (if s.renameLock = some t then none else s.renameLock) = some u
    rw [if_neg, h]
    rw [h]
    exact fun heq => hu (some.inj heq)

lemma Turn.mark {α : Type} {f : Pc → List α} {a : α} (hturn : Turn s s' t p p')
    (h : ∃ u, a ∈ f (s'.pc u)) : a ∈ f p' ∨ ∃ u, u ≠ t ∧ a ∈ f (s.pc u) := by
  obtain ⟨u, hu⟩ := h
  by_cases hut : u = t
  · rw [hut, hturn.self] at hu
    exact .inl hu
  · rw [hturn.others u hut] at hu
    exact .inr ⟨u, hut, hu⟩

lemma Turn.keep {α : Type} {f : Pc → List α} {a : α} (hturn : Turn s s' t p p')
    (hself : a ∈ f p → a ∈ f p') (h : ∃ u, a ∈ f (s.pc u)) : ∃ u, a ∈ f (s'.pc u) := by
  obtain ⟨u, hu⟩ := h
  by_cases hut : u = t
  · rw [hut, hturn.was] at hu
    exact ⟨t, by rw [hturn.self]; exact hself hu⟩
  · exact ⟨u, by rw [hturn.others u hut]; exact hu⟩

lemma Turn.busy (hturn : Turn s s' t p p')
    (hself : key ∈ ahead p ∨ key ∈ p.emptied → key ∈ ahead p' ∨ key ∈ p'.emptied)
    (h : Busy s key) : Busy s' key := by
  obtain ⟨u, hu⟩ := h
  by_cases hut : u = t
  · rw [hut, hturn.was] at hu
    exact ⟨t, by rw [hturn.self]; exact hself hu⟩
  · exact ⟨u, by rw [hturn.others u hut]; exact hu⟩

lemma key_of_emptied (h : key ∈ pc.emptied) : key ∈ pc.keys := by
  cases pc with
  | bumping b => exact h
  | moved g old n => cases g <;> simp_all [Pc.emptied, Pc.keys, Pc.bounds]
  | _ => cases h

lemma key_of_ahead (h : key ∈ ahead pc) : key ∈ pc.keys := by
  cases pc with
  | filling b i => exact h
  | unhashing b => exact h
  | moved g old n =>
    cases g <;> simp_all [ahead, Pc.keys, Pc.bounds]
  | _ => cases h

section

variable {b : Bound}

lemma key_mem (hb : b ∈ p.bounds) : b.key ∈ p.keys := mem_map_of_mem hb

lemma hung (hg : Global s) (hat : At s b) :
    (s.dentry b.walked).unhashed = false ∧ (s.dentry b.walked).parent = some b.dir ∧
      (s.dentry b.walked).name = b.name :=
  (hg.listed b.dir b.name b.walked hat.1).2 hat.2

lemma key_of_child (hg : Global s) (hat : At s b)
    (hc : (s.dentry d).children n = some b.walked) : (d, n) = b.key := by
  obtain ⟨-, hp, hn⟩ := hung hg hat
  obtain ⟨-, hp', hn'⟩ := (hg.listed d n b.walked hc).2 hat.2
  rw [hp] at hp'
  rw [Bound.key, some.inj hp', ← hn, hn']

lemma moved_ne (hinv : Inv s) (hut : u ≠ t) {g : Stage} {old new : Bound}
    (hpc : s.pc u = .moved g old new) (hturn : s.pc t = p) (hb : b ∈ p.bounds) (hat : At s b) :
    old.walked ≠ b.walked := by
  intro heq
  obtain ⟨-, -, hstage⟩ := hinv.place hpc
  obtain ⟨hunhashed, hp, hn⟩ := hung hinv.global hat
  have happart : ∀ key ∈ [old.key, new.key], key ≠ b.key := by
    intro key hk hb'
    refine hinv.apart u t hut key ?_ ?_
    · rw [hpc]
      exact hk
    · rw [hturn]
      exact hb' ▸ key_mem hb
  have hne : (s.dentry old.walked).unhashed ≠ true := by
    rw [heq, hunhashed]
    exact Bool.false_ne_true
  cases g with
  | renamed =>
    refine happart old.key (.head _) (key_of_child hinv.global hat ?_)
    rw [← heq]
    exact hstage.1.1
  | unhashedOld | bumpedOld => exact hne hstage.1
  | unhashedNew | bumpedNew => exact hne hstage
  | rehung =>
    rw [heq, hp, hn] at hstage
    refine happart new.key (.tail _ (.head _)) ?_
    rw [Bound.key, Bound.key, some.inj hstage.2.1, hstage.2.2]

end

lemma kept_cache (hfs : s'.fs = s.fs) (hseen : s'.seen u = s.seen u)
    (hwho : s'.who = s.who) (hdir : ∀ d i, d ∈ pc.holds → s.IsDir d i →
      (s'.dentry d).alive = true ∧ (s'.dentry d).inode = (s.dentry d).inode)
    (hgeneration : ∀ d i, s.IsDir d i → (s.dentry d).generation ≤ (s'.dentry d).generation)
    (hb : ∀ b ∈ pc.bounds, At s b → At s' b ∧
      (s'.dentry b.walked).inode = (s.dentry b.walked).inode)
    (hanswer : ∀ d i n g, s.IsDir d i → g ≤ (s.dentry d).generation →
      (s'.dentry d).generation = g → ¬ Busy s' (d, n) →
      (s.dentry d).generation = g ∧ ¬ Busy s (d, n))
    (hmoved : ∀ stage old new, pc = .moved stage old new →
      Alike (s'.dentry old.walked) (s.dentry old.walked)) : Kept s s' u pc := by
  refine ⟨?_, hgeneration, hb, ?_, ?_, hmoved, ?_, ?_, ?_, ?_, ?_⟩
  · intro d i hd h
    obtain ⟨ha, hi⟩ := hdir d i hd h
    exact ⟨ha, hi.trans h.2.1, by rw [hfs]; exact h.2.2⟩
  · exact fun b _ dir i _ h => by rw [hfs]; exact h
  · intro use d i n g found _ hdir hle hsame hf
    obtain ⟨hsame', hf'⟩ := hanswer d i n g hdir hle hsame hf
    exact ⟨hsame', hf', by rw [hfs]⟩
  · exact fun i _ _ h => by rw [hfs]; exact h
  · exact fun i _ => by rw [hfs]
  · rw [hfs]
  · exact fun i metadata h => by rw [hseen]; exact h
  · rw [hwho]

lemma global_same (hg : Global s) (hturn : Turn s s' t p p') (hfs : s'.fs = s.fs)
    (hn : s'.cache.next = s.cache.next)
    (hdentry : ∀ e, ∃ g, s'.dentry e = { s.dentry e with generation := g })
    (hahead : ahead p' = ahead p) (hdrift : adrift p' = adrift p) (hland : landing p' = landing p)
    (hempty : ∀ key ∈ p'.emptied, key ∈ p.emptied) : Global s' := by
  have hfields : ∀ e, (s'.dentry e).alive = (s.dentry e).alive ∧
      (s'.dentry e).inode = (s.dentry e).inode ∧
      (s'.dentry e).unhashed = (s.dentry e).unhashed ∧
      (s'.dentry e).parent = (s.dentry e).parent ∧ (s'.dentry e).name = (s.dentry e).name ∧
      (s'.dentry e).children = (s.dentry e).children := by
    intro e
    obtain ⟨g, he⟩ := hdentry e
    rw [he]
    exact ⟨rfl, rfl, rfl, rfl, rfl, rfl⟩
  simp only [forall_and] at hfields
  obtain ⟨ha, hi, hunhashed, hp, hname, hchildren⟩ := hfields
  have hisDir : ∀ d i, s'.IsDir d i ↔ s.IsDir d i := by
    intro d i
    rw [State.IsDir, State.IsDir, ha, hi, hfs]
  constructor <;>
    simp only [ha, hi, hunhashed, hp, hname, hchildren, hfs, hn, hisDir]
  · exact hg.fresh
  · exact hg.parent
  · exact hg.listed
  · intro c d h1 h2 h3
    refine (hg.hashed c d h1 h2 h3).imp_right (hturn.keep fun h => ?_)
    rw [hland]
    exact h
  · intro d i n c h1 h2 h3 h4
    refine hg.agrees d i n c h1 h2 h3 fun u hu => ?_
    obtain ⟨v, hv⟩ := hturn.keep (fun h => by rw [hahead]; exact h) ⟨u, hu⟩
    exact h4 v hv
  · intro d n u hu
    rcases hturn.mark ⟨u, hu⟩ with h | ⟨v, -, hv⟩
    · exact hg.empty d n t (hturn.was ▸ hempty _ h)
    · exact hg.empty d n v hv
  · exact hg.single
  · intro c i h1 h2 h3 h4
    refine (hg.gone c i h1 h2 h3 h4).imp_right (hturn.keep fun h => ?_)
    rw [hdrift]
    exact h
  · exact hg.made
  · exact hg.names_made
  · exact hg.names_single

lemma inv_local (hinv : Inv s) (hturn : Turn s s' t p p') (hcache : s'.cache = s.cache)
    (hfs : s'.fs = s.fs) (hseen : ∀ u, u ≠ t → s'.seen u = s.seen u) (hwho : s'.who = s.who)
    (hmarks : ahead p' = ahead p ∧ p'.emptied = p.emptied ∧ adrift p' = adrift p ∧
      landing p' = landing p) (hlocal : Local s' t p') : Inv s' := by
  obtain ⟨hahead, he, hdrift, hland⟩ := hmarks
  have hdentry : s'.dentry = s.dentry := by
    funext e
    rw [State.dentry, hcache]
    rfl
  refine inv_turn hinv hturn ?_ hlocal fun u hu => ?_
  · exact global_same hinv.global hturn hfs (by rw [hcache])
      (fun e => ⟨(s.dentry e).generation, by rw [hdentry]⟩) hahead hdrift hland
      (by rw [he]; exact fun _ h => h)
  · refine kept_cache hfs (hseen u hu) hwho ?_ ?_ ?_ ?_ ?_ <;> simp only [At, hdentry]
    · exact fun d i _ h => ⟨h.1, trivial⟩
    · exact fun d _ _ => le_rfl
    · exact fun b _ h => ⟨h, trivial⟩
    · refine fun d _ n g _ _ h hf => ⟨h, fun hbusy => hf (hturn.busy ?_ hbusy)⟩
      rw [hahead, he]
      exact id
    · exact fun stage old new _ => ⟨rfl, rfl, rfl, rfl, rfl⟩

lemma inv_bump {dir : DentryId} (hinv : Inv s) (hturn : Turn s s' t p p')
    (hcache : s'.cache = s.cache.bump dir) (hfs : s'.fs = s.fs) (hseen : s'.seen = s.seen)
    (hwho : s'.who = s.who) (hahead : ahead p' = ahead p) (hdrift : adrift p' = adrift p)
    (hland : landing p' = landing p) (he : ∀ key ∈ p'.emptied, key ∈ p.emptied)
    (hgiven : ∀ key ∈ p.emptied, key.1 ≠ dir → key ∈ p'.emptied)
    (hlocal : Local s' t p') : Inv s' := by
  have hdentry : ∀ e, s'.dentry e = { s.dentry e with
      generation := (s.dentry e).generation + if e = dir then 1 else 0 } := by
    intro e
    rw [State.dentry, hcache]
    exact dentries_bump _ _ _
  refine inv_turn hinv hturn (global_same hinv.global hturn hfs (by rw [hcache]; rfl)
    (fun e => ⟨_, hdentry e⟩) hahead hdrift hland he) hlocal fun u hu => ?_
  refine kept_cache hfs (by rw [hseen]) hwho ?_ ?_ ?_ ?_ ?_ <;> simp only [At, hdentry]
  · exact fun d i _ h => ⟨h.1, trivial⟩
  · exact fun d _ _ => Nat.le_add_right _ _
  · exact fun b _ h => ⟨h, trivial⟩
  · intro d _ n g _ hle hsame hf
    by_cases hd : d = dir
    · rw [if_pos hd] at hsame
      omega
    · rw [if_neg hd, Nat.add_zero] at hsame
      refine ⟨hsame, fun hbusy => hf (hturn.busy (Or.imp (fun h => ?_) fun h => ?_) hbusy)⟩
      · rw [hahead]
        exact h
      · exact hgiven _ h hd
  · exact fun stage old new _ => ⟨rfl, rfl, rfl, rfl, rfl⟩

/-- The dentries are as `edited` says, but for children that are dead, which may go. -/
structure Edit (s s' : State) (w : DentryId) (write : Dentry) (k : Key) (child : Option DentryId)
    (turns : Nat) : Prop where
  self : Alike (s'.dentry w) write
  rest : ∀ e, e ≠ w → Alike (s'.dentry e) (s.dentry e)
  there : (s'.dentry k.1).children k.2 = child
  child_of : ∀ d n c, (d, n) ≠ k → (s'.dentry d).children n = some c →
    (s.dentry d).children n = some c
  child_kept : ∀ d n c, (d, n) ≠ k → (s.dentry d).children n = some c →
    (s.dentry c).alive = true → (s'.dentry d).children n = some c
  generation : ∀ d, (s.dentry d).alive = true →
    (s'.dentry d).generation = (s.dentry d).generation + if d = k.1 then turns else 0

/-- An edit under a name no other thread is at work on. -/
structure Patch (s s' : State) (t : Nat) (p p' : Pc) (w : DentryId) (write : Dentry) (k : Key)
    (child : Option DentryId) (turns : Nat) : Prop extends Edit s s' w write k child turns where
  turn : Turn s s' t p p'
  fs : s'.fs = s.fs
  seen : s'.seen = s.seen
  who : s'.who = s.who
  next : s.cache.next ≤ s'.cache.next
  fresh : w < s'.cache.next
  live : write.alive = true
  clear : ∀ u, u ≠ t → k ∉ (s.pc u).emptied ∧ ∀ b ∈ (s.pc u).bounds, At s b → b.key ≠ k
  only : ∀ d n, (s.dentry d).children n = some w → (d, n) = k
  held : ∀ c, (s.dentry k.1).children k.2 = some c → (s.dentry c).alive = true → c = w
  others : ∀ u, u ≠ t → ∀ stage old new, s.pc u = .moved stage old new → old.walked ≠ w
  ahead_of : ∀ key ∈ ahead p, key = k ∨ key ∈ ahead p'
  emptied_of : ∀ key ∈ p'.emptied, key = k ∨ key ∈ p.emptied
  adrift_of : ∀ c ∈ adrift p, c = w ∨ c ∈ adrift p'
  landing_of : ∀ c ∈ landing p, c = w
  given : ∀ key, key ∈ ahead p ∨ key ∈ p.emptied →
    (key ∈ ahead p' ∨ key ∈ p'.emptied) ∨ key.1 = k.1 ∧ 0 < turns
  inode : ∀ ino, s.IsDir w ino → write.inode = some ino
  parent : ∀ d, write.parent = some d → ∃ ino, s.IsDir d ino
  child_spec : ∀ c, child = some c → c = w ∧ write.unhashed = false ∧ write.parent = some k.1 ∧
    write.name = k.2
  hashed : ∀ d, write.unhashed = false → write.parent = some d →
    child = some w ∧ (d, write.name) = k ∨ w ∈ landing p'
  agrees : ∀ ino, s.IsDir k.1 ino → child ≠ none → k ∉ ahead p' →
    write.inode = s.fs.names ino k.2
  empty : k ∈ p'.emptied → child = none
  single : ∀ c ino, c ≠ w → (s.dentry c).alive = true → (s.dentry c).inode = some ino →
    write.inode = some ino → s.fs.kind ino ≠ .directory
  gone : ∀ ino, write.unhashed = true ∨ write.parent = none → write.inode = some ino →
    s.fs.kind ino = .directory → Unnamed s.fs ino ∨ w ∈ adrift p'
  made : ∀ ino, write.inode = some ino → ino < s.fs.next

variable {i : Ino}

section

variable {w : DentryId} {write : Dentry} {k : Key} {child : Option DentryId} {turns : Nat}

lemma edit_of_edited (hdentry : ∀ e, s'.dentry e = edited s.dentry w write k child turns e)
    (ha : write.alive = (s.dentry w).alive) : Edit s s' w write k child turns := by
  constructor
  · rw [hdentry]
    exact ⟨ha.symm, if_pos rfl, if_pos rfl, if_pos rfl, if_pos rfl⟩
  · intro e he
    rw [hdentry]
    exact ⟨rfl, if_neg he, if_neg he, if_neg he, if_neg he⟩
  · rw [hdentry]
    exact if_pos rfl
  · intro d n c hk hc
    rw [hdentry] at hc
    exact (if_neg hk).symm.trans hc
  · intro d n c hk hc _
    rw [hdentry]
    exact (if_neg hk).trans hc
  · intro d _
    rw [hdentry]
    rfl

lemma clear_of_key (hinv : Inv s) (hpc : s.pc t = p) (hkey : k ∈ p.keys) (u : Nat) (hu : u ≠ t) :
    k ∉ (s.pc u).emptied ∧ ∀ b ∈ (s.pc u).bounds, At s b → b.key ≠ k := by
  subst hpc
  have ho := hinv.apart t u hu.symm k hkey
  exact ⟨fun h => ho (key_of_emptied h), fun b hb _ hk => ho (hk ▸ key_mem hb)⟩

variable (h : Patch s s' t p p' w write k child turns)
include h

lemma Patch.isDir (hdir : s.IsDir d i) : s'.IsDir d i := by
  rw [State.IsDir, h.fs]
  by_cases hd : d = w
  · subst hd
    exact ⟨h.self.alive.trans h.live, h.self.inode.trans (h.inode i hdir), hdir.2.2⟩
  · obtain ⟨ha, hi, -⟩ := h.rest d hd
    exact ⟨ha.trans hdir.1, hi.trans hdir.2.1, hdir.2.2⟩

lemma Patch.isDir_of_child (hg : Global s) {c : DentryId}
    (hd : s'.IsDir d i) (hchild : (s'.dentry d).children n = some c)
    (ha : (s'.dentry c).alive = true) : s.IsDir d i := by
  have hold : ∃ i', s.IsDir d i' := by
    by_cases hk : (d, n) = k
    · subst hk
      exact h.parent d (h.child_spec c (h.there.symm.trans hchild)).2.2.1
    · have hchild := h.child_of d n c hk hchild
      have hc : c ≠ w := fun hc => hk (h.only d n (hc ▸ hchild))
      rw [(h.rest c hc).alive] at ha
      exact hg.parent c d ha ((hg.listed d n c hchild).2 ha).2.1
  obtain ⟨i', hd'⟩ := hold
  have hi := (h.isDir hd').2.1
  rw [hd.2.1] at hi
  rw [some.inj hi]
  exact hd'

lemma Patch.global (hinv : Inv s) : Global s' := by
  have hg := hinv.global
  -- Each field is about one dentry: the patched `w`, or one of the others, which are as before.
  constructor
  · intro c ha
    by_cases hc : c = w
    · exact hc ▸ h.fresh
    · exact (hg.fresh c ((h.rest c hc).alive ▸ ha)).trans_le h.next
  · intro c d ha hp
    have hd : ∃ i, s.IsDir d i := by
      by_cases hc : c = w
      · rw [hc, h.self.parent] at hp
        exact h.parent d hp
      · exact hg.parent c d ((h.rest c hc).alive ▸ ha) ((h.rest c hc).parent ▸ hp)
    obtain ⟨i, hd⟩ := hd
    exact ⟨i, h.isDir hd⟩
  · intro d n c hchild
    by_cases hk : (d, n) = k
    · subst hk
      obtain ⟨rfl, hr⟩ := h.child_spec c (h.there.symm.trans hchild)
      rw [h.self.unhashed, h.self.parent, h.self.name]
      exact ⟨h.fresh, fun _ => hr⟩
    · have hchild := h.child_of d n c hk hchild
      have hc : c ≠ w := fun hc => hk (h.only d n (hc ▸ hchild))
      obtain ⟨ha, -, hunhashed, hp, hn⟩ := h.rest c hc
      rw [ha, hunhashed, hp, hn]
      exact (hg.listed d n c hchild).imp_left fun hlt => hlt.trans_le h.next
  · intro c d ha hunhashed hp
    by_cases hc : c = w
    · subst hc
      rw [h.self.unhashed] at hunhashed
      rw [h.self.parent] at hp
      rw [h.self.name]
      rcases h.hashed d hunhashed hp with ⟨hchild, hk⟩ | hland
      · subst hk
        exact .inl (h.there.trans hchild)
      · exact .inr ⟨t, by rw [h.turn.self]; exact hland⟩
    · obtain ⟨ha', -, hunhashed', hp', hn'⟩ := h.rest c hc
      rw [ha'] at ha
      rw [hunhashed'] at hunhashed
      rw [hp'] at hp
      rw [hn']
      rcases hg.hashed c d ha hunhashed hp with hchild | hland
      · refine .inl (h.child_kept _ _ c ?_ hchild ha)
        rintro rfl
        exact hc (h.held c hchild ha)
      · exact .inr (h.turn.keep (fun hland => absurd (h.landing_of c hland) hc) hland)
  · intro d i n c hd hchild ha hf
    rw [h.fs]
    have hd' := h.isDir_of_child hg hd hchild ha
    by_cases hk : (d, n) = k
    · subst hk
      have hsome := h.there.symm.trans hchild
      rw [(h.child_spec c hsome).1, h.self.inode]
      refine h.agrees i hd' (fun hnone => ?_) fun hahead => hf t ?_
      · cases hnone.symm.trans hsome
      · rw [h.turn.self]
        exact hahead
    · have hchild := h.child_of d n c hk hchild
      have hc : c ≠ w := fun hc => hk (h.only d n (hc ▸ hchild))
      rw [(h.rest c hc).alive] at ha
      rw [(h.rest c hc).inode]
      refine hg.agrees d i n c hd' hchild ha fun u hu => ?_
      obtain ⟨v, hv⟩ := h.turn.keep (fun h' => (h.ahead_of _ h').resolve_left hk) ⟨u, hu⟩
      exact hf v hv
  · intro d n u hu
    by_cases hk : (d, n) = k
    · subst hk
      rcases h.turn.mark ⟨u, hu⟩ with hself | ⟨v, hv, ho⟩
      · exact h.there.trans (h.empty hself)
      · exact absurd ho (h.clear v hv).1
    · rw [eq_none_iff_forall_ne_some]
      intro c hc
      have hsome := h.child_of d n c hk hc
      rcases h.turn.mark ⟨u, hu⟩ with hself | ⟨v, -, ho⟩
      · have hmine := (h.emptied_of _ hself).resolve_left hk
        rw [← h.turn.was] at hmine
        cases (hg.empty d n t hmine).symm.trans hsome
      · cases (hg.empty d n v ho).symm.trans hsome
  · intro c c' i ha ha' hi hi' hkind
    rw [h.fs] at hkind
    by_cases hc : c = w
    · by_contra hne
      have hc' : c' ≠ w := fun hc' => hne (hc.trans hc'.symm)
      rw [hc, h.self.inode] at hi
      exact h.single c' i hc' ((h.rest c' hc').alive ▸ ha') ((h.rest c' hc').inode ▸ hi') hi hkind
    · rw [(h.rest c hc).alive] at ha
      rw [(h.rest c hc).inode] at hi
      by_cases hc' : c' = w
      · rw [hc', h.self.inode] at hi'
        exact absurd hkind (h.single c i hc ha hi hi')
      · exact hg.single c c' i ha ((h.rest c' hc').alive ▸ ha') hi
          ((h.rest c' hc').inode ▸ hi') hkind
  · intro c i ha hgone hi hkind
    rw [h.fs] at hkind ⊢
    by_cases hc : c = w
    · subst hc
      rw [h.self.unhashed, h.self.parent] at hgone
      rw [h.self.inode] at hi
      refine (h.gone i hgone hi hkind).imp_right fun hdrift => ⟨t, ?_⟩
      rw [h.turn.self]
      exact hdrift
    · obtain ⟨ha', hi', hunhashed, hp, -⟩ := h.rest c hc
      rw [ha'] at ha
      rw [hunhashed, hp] at hgone
      rw [hi'] at hi
      exact (hg.gone c i ha hgone hi hkind).imp_right
        (h.turn.keep fun hdrift => (h.adrift_of c hdrift).resolve_left hc)
  · intro c i hi
    rw [h.fs]
    by_cases hc : c = w
    · rw [hc, h.self.inode] at hi
      exact h.made i hi
    · exact hg.made c i ((h.rest c hc).inode ▸ hi)
  · rw [h.fs]
    exact hg.names_made
  · rw [h.fs]
    exact hg.names_single

lemma Patch.kept (hu : u ≠ t) : Kept s s' u (s.pc u) := by
  refine kept_cache h.fs (by rw [h.seen]) h.who ?_ (fun d _ hdir => ?_) ?_ ?_ ?_
  · intro d i _ hdir
    obtain ⟨ha, hi, -⟩ := h.isDir hdir
    exact ⟨ha, hi.trans hdir.2.1.symm⟩
  · rw [h.generation d hdir.1]
    exact Nat.le_add_right _ _
  · intro b hb hat
    have hk := (h.clear u hu).2 b hb hat
    have hw : b.walked ≠ w := fun hw => hk (h.only _ _ (hw ▸ hat.1))
    exact ⟨⟨h.child_kept _ _ _ hk hat.1 hat.2, (h.rest _ hw).alive.trans hat.2⟩,
      (h.rest _ hw).inode⟩
  · intro d _ n g hdir hle hsame hf
    rw [h.generation d hdir.1] at hsame
    refine ⟨by omega, fun hbusy => hf (h.turn.busy (fun hself => ?_) hbusy)⟩
    refine (h.given _ hself).resolve_right fun ⟨hd, hlt⟩ => ?_
    rw [if_pos hd] at hsame
    omega
  · exact fun stage old new hpc => h.rest _ (h.others u hu stage old new hpc)

lemma Patch.inv (hinv : Inv s) (hlocal : Local s' t p') : Inv s' :=
  inv_turn hinv h.turn (h.global hinv) hlocal fun _ hu => h.kept hu

end

lemma next_fill (c : Dcache) (d : DentryId) (n : Name) (walked : DentryId) (i : Ino) :
    (c.fill d n walked i).next = c.next := by
  simp only [Dcache.fill]
  split_ifs <;> rfl

lemma next_unhash (c : Dcache) (d : DentryId) (n : Name) : (c.unhash d n).next = c.next := by
  rw [Dcache.unhash]
  cases c.cachedChild d n <;> rfl

lemma one_rename (hinv : Inv s) {g g' : Stage} {old new old' new' : Bound}
    (hu : s.pc u = .moved g old new) (ht : s.pc t = .moved g' old' new') : u = t := by
  have hlock := hinv.lock u (by rw [hu]; rfl)
  rw [hinv.lock t (by rw [ht]; rfl)] at hlock
  exact (some.inj hlock).symm

variable (hinv : Inv s) {b : Bound}
include hinv

lemma inv_fill (hpc : s.pc t = .filling b i) :
    Inv ((s.setCache (s.cache.fill b.dir b.name b.walked i)).finish t) := by
  have hg := hinv.global
  obtain ⟨hat, hnegative, dir, hdir, hname⟩ := hinv.place hpc
  obtain ⟨-, hp, hhung⟩ := hung hg hat
  have hn := (next_fill s.cache b.dir b.name b.walked i).ge
  refine Patch.inv ⟨edit_of_edited (fun e => dentries_fill (cachedChild_eq_some.mpr hat) i) rfl,
    turn_finish hpc _, rfl, rfl, rfl, hn, (hg.fresh _ hat.2).trans_le hn, hat.2,
    clear_of_key hinv hpc (.head _), fun d n => key_of_child hg hat, ?_, ?_, ?_, ?_, ?_, ?_, ?_,
    ?_, ?_, ?_, ?_, ?_, ?_, ?_, ?_, ?_⟩ hinv trivial
  · exact fun c hc _ => mem_unique hc hat.1
  · exact fun u hu g old new h => moved_ne hinv hu h hpc (.head _) hat
  · exact fun key h => .inl (mem_singleton.mp h)
  · exact forall_mem_nil _
  · exact forall_mem_nil _
  · exact forall_mem_nil _
  · rintro key (h | h)
    · exact .inr ⟨congrArg Prod.fst (mem_singleton.mp h), Nat.one_pos⟩
    · cases h
  · exact fun i' h => absurd (hnegative.symm.trans h.2.1) (some_ne_none i').symm
  · exact fun d hd => hg.parent _ d hat.2 hd
  · exact fun c hc => ⟨(some.inj hc).symm, rfl, hp, hhung⟩
  · exact fun d _ hd => .inl ⟨rfl, Prod.ext (mem_unique hd hp) hhung⟩
  · intro dir' hdir' _ _
    rw [mem_unique hdir'.2.1 hdir.2.1]
    exact hname.symm
  · exact fun h => absurd h not_mem_nil
  · intro c i' hc ha hi hino hkind
    obtain rfl := some.inj hino
    rcases locate hinv ha hi hkind hdir hname with hchild | ⟨u, g, old, new, hu, hk, -⟩
    · exact hc (mem_unique hchild hat.1)
    · have hut : u ≠ t := by
        rintro rfl
        rw [hpc] at hu
        cases hu
      refine hinv.apart t u hut.symm b.key ?_ ?_
      · rw [hpc]
        exact .head _
      · rw [hu, Bound.key, ← hk]
        exact .tail _ (.head _)
  · rintro i' (h | h)
    · cases h
    · cases hp.symm.trans h
  · intro i' hino
    rw [← some.inj hino]
    exact hg.names_made _ _ _ hname

lemma inv_unhash (hpc : s.pc t = p) (hkeys : p'.keys = p.keys) (hrenames : renames p' = renames p)
    (hb : b ∈ p.bounds) (hat : At s b) (hwhy : Leaves s b.walked ∨ b.walked ∈ adrift p')
    (hahead : ∀ key ∈ ahead p, key = b.key ∨ key ∈ ahead p') (he : p'.emptied = [b.key])
    (he' : p.emptied = []) (hdrift : ∀ c ∈ adrift p, c ∈ adrift p') (hland : landing p = [])
    (hlocal : Local ((s.setCache (s.cache.unhash b.dir b.name)).setPc t p') t p') :
    Inv ((s.setCache (s.cache.unhash b.dir b.name)).setPc t p') := by
  have hg := hinv.global
  have hn := (next_unhash s.cache b.dir b.name).ge
  refine Patch.inv ⟨edit_of_edited (fun e => dentries_unhash (cachedChild_eq_some.mpr hat)) rfl,
    turn_setPc hinv hpc rfl rfl hkeys hrenames, rfl, rfl, rfl, hn,
    (hg.fresh _ hat.2).trans_le hn, hat.2, clear_of_key hinv hpc (key_mem hb),
    fun d n => key_of_child hg hat, ?_, ?_, hahead, ?_, ?_, ?_, ?_, fun _ h => h.2.1, ?_, ?_, ?_,
    ?_, ?_, ?_, ?_, hg.made _⟩ hinv hlocal
  · exact fun c hc _ => mem_unique hc hat.1
  · exact fun u hu g old new h => moved_ne hinv hu h hpc hb hat
  · rw [he]
    exact fun key h => .inl (mem_singleton.mp h)
  · exact fun c h => .inr (hdrift c h)
  · rw [hland]
    exact forall_mem_nil _
  · rw [he, he']
    rintro key (h | h)
    · refine .inl ((hahead key h).symm.imp_right ?_)
      rintro rfl
      exact .head _
    · cases h
  · exact fun d hd => hg.parent _ d hat.2 hd
  · exact fun c hc => absurd hc.symm (some_ne_none c)
  · exact fun d hd => absurd hd.symm Bool.false_ne_true
  · exact fun i _ hnone => absurd rfl hnone
  · exact fun _ => rfl
  · exact fun c i hc ha hi hino hkind =>
      hc (hg.single c b.walked i ha hat.2 hi hino hkind)
  · exact fun i _ hino hkind => hwhy.imp_left fun hleaves => hleaves i hino hkind

lemma inv_rehang {old new : Bound} (hpc : s.pc t = .moved .bumpedNew old new) :
    Inv ((s.setCache (s.cache.rehang old.walked new.dir new.name)).setPc t
      (.moved .rehung old new)) := by
  have hg := hinv.global
  obtain ⟨ha, ⟨dir, i, hdir, hn, hi⟩, hunhashed⟩ := hinv.place hpc
  change (s.dentry old.walked).unhashed = true at hunhashed
  have hnone : (s.dentry new.dir).children new.name = none :=
    hg.empty _ _ t (by rw [hpc]; exact .head _)
  have hpatch : Patch s ((s.setCache (s.cache.rehang old.walked new.dir new.name)).setPc t
      (.moved .rehung old new)) t (.moved .bumpedNew old new) (.moved .rehung old new) old.walked
      { s.dentry old.walked with name := new.name, parent := some new.dir, unhashed := false }
      new.key none 0 := by
    refine ⟨edit_of_edited (fun e => dentries_rehang hnone) rfl,
      turn_setPc hinv hpc rfl rfl rfl rfl, rfl, rfl, rfl, le_rfl, hg.fresh _ ha, ha,
      clear_of_key hinv hpc (.tail _ (.head _)), ?_, ?_, ?_, ?_, ?_, ?_, ?_, ?_, fun _ h => h.2.1,
      ?_, ?_, ?_, ?_, ?_, ?_, ?_, hg.made _⟩
    · intro d n hchild
      rw [((hg.listed d n _ hchild).2 ha).1] at hunhashed
      cases hunhashed
    · exact fun c hc _ => absurd (hnone.symm.trans hc) (some_ne_none c).symm
    · exact fun u hu g o' new' h => absurd (one_rename hinv h hpc) hu
    · exact forall_mem_nil _
    · exact fun key h => .inl (mem_singleton.mp h)
    · exact fun c h => .inl (mem_singleton.mp h)
    · exact forall_mem_nil _
    · exact fun key h => .inl h
    · exact fun d hd => ⟨dir, some.inj hd ▸ hdir⟩
    · exact fun c hc => absurd hc.symm (some_ne_none c)
    · exact fun d _ _ => .inr (.head _)
    · exact fun i' _ hsome => absurd rfl hsome
    · exact fun _ => rfl
    · exact fun c i' hc hc' hino hino' hkind =>
        hc (hg.single c _ i' hc' ha hino hino' hkind)
    · rintro i' (h | h) <;> cases h
  obtain ⟨ha', hi', hplace, hp, hhung⟩ := hpatch.self
  exact hpatch.inv hinv ⟨ha'.trans ha, ⟨dir, i, hpatch.isDir hdir, hn,
    hi'.trans hi⟩, hplace, hp, hhung⟩

lemma inv_land {old new : Bound} (hpc : s.pc t = .moved .rehung old new) :
    Inv ((s.setCache ((s.cache.hash new.dir new.name old.walked).bump new.dir)).finish t) := by
  have hg := hinv.global
  obtain ⟨ha, ⟨dir, i, hdir, hn, hi⟩, hunhashed, hp, hhung⟩ := hinv.place hpc
  have hnone : (s.dentry new.dir).children new.name = none :=
    hg.empty _ _ t (by rw [hpc]; exact .head _)
  refine Patch.inv (k := new.key) ⟨edit_of_edited (fun e => dentries_land _ _ _ _) rfl,
    turn_finish hpc _, rfl, rfl, rfl, le_rfl, hg.fresh _ ha, ha,
    clear_of_key hinv hpc (.tail _ (.head _)), ?_, ?_, ?_, ?_, ?_, ?_, ?_, ?_, fun _ h => h.2.1, ?_,
    ?_, ?_, ?_, ?_, ?_, ?_, hg.made _⟩ hinv trivial
  · intro d n hchild
    obtain ⟨-, hp', hhung'⟩ := (hg.listed d n _ hchild).2 ha
    rw [hp] at hp'
    rw [Bound.key, some.inj hp', ← hhung, hhung']
  · exact fun c hc _ => absurd (hnone.symm.trans hc) (some_ne_none c).symm
  · exact fun u hu g o' new' h => absurd (one_rename hinv h hpc) hu
  · exact forall_mem_nil _
  · exact forall_mem_nil _
  · exact forall_mem_nil _
  · exact fun c h => mem_singleton.mp h
  · rintro key (h | h)
    · cases h
    · exact .inr ⟨congrArg Prod.fst (mem_singleton.mp h), Nat.one_pos⟩
  · exact fun d hd => hg.parent _ d ha hd
  · exact fun c hc => ⟨(some.inj hc).symm, hunhashed, hp, hhung⟩
  · exact fun d _ hd => .inl ⟨rfl, Prod.ext (mem_unique hd hp) hhung⟩
  · intro dir' hdir' _ _
    rw [mem_unique hdir'.2.1 hdir.2.1]
    exact hi.trans hn.symm
  · exact fun h => absurd h not_mem_nil
  · exact fun c i' hc hc' hino hino' hkind =>
      hc (hg.single c _ i' hc' ha hino hino' hkind)
  · rintro i' (h | h)
    · cases hunhashed.symm.trans h
    · cases hp.symm.trans h

end Ferrix.Vfs.NameSteps
