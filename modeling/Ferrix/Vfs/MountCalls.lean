import Ferrix.Vfs.MountCopies

namespace Ferrix.Vfs.MountCalls

open Relation Foundations Programs SortedMaps ParentPointers Dentries Mounts
open MountTables MountLoops MountCopies List

variable {w w' : World} {t : TreeRef} {s : Namespace} {m : MountRef} {loc : Location}

/-- A call that leaves every table a tree, whether it succeeds or not. -/
abbrev Keeps {α : Type} (call : Call α) (w : World) : Prop :=
  Program.Ends call w (fun _ => Trees) (fun _ => Trees)

lemma bind_kind {α : Type} {f : FileType → Call α} {ok : α → World → Prop} (h : Trees w)
    (hf : ∀ kind, loc.dentry < w.cache.next → Program.Ends (f kind) w ok (fun _ => Trees)) :
    Program.Ends (kind loc >>= f) w ok (fun _ => Trees) := by
  have hkind : Program.Ends (kind loc) w (fun _ w' => w' = w ∧ loc.dentry < w.cache.next)
      (fun _ => Trees) := by
    have hi : Program.Ends (inode loc) w (fun _ w' => w' = w ∧ loc.dentry < w.cache.next)
        (fun _ => Trees) :=
      Program.Ends.bind_view (Program.Ends.ofOption
        (fun ino hino => ⟨rfl, h.sound.inode_lt hino⟩) fun _ => h)
    refine hi.bind ?_
    rintro ino _ ⟨rfl, hlt⟩
    exact .view ⟨rfl, hlt⟩
  refine hkind.bind ?_
  rintro kind _ ⟨rfl, hlt⟩
  exact hf kind hlt

lemma space_of_owns (h : Sound w) (howns : w.owns t m = true) :
    ∃ s, w.spaces t = some s ∧ InTree s m := by
  cases hs : w.spaces t with
  | none =>
    rw [World.owns, hs] at howns
    cases howns
  | some s => exact ⟨s, rfl, (h.owns_iff hs).mp howns⟩

lemma dentryRoot_ends (h : Trees w) (n : Name) (i : Ino) : Program.Ends (dentryRoot n i) w
      (fun _ w' => SameMounts w w' ∧ w'.nextMount = w.nextMount ∧ w.cache.next ≤ w'.cache.next)
      (fun _ => Trees) := by
  refine bind_charge h fun cs h' => ?_
  exact ⟨(sameMounts_charges h.sound cs).trans (sameMounts_add h'.sound _ _ _), rfl, Nat.le_succ _⟩

lemma detached_keeps (h : Trees w) (n : Name) (i : Ino) : Keeps (detached n i) w := by
  refine bind_charge h fun cs h' => ?_
  refine (dentryRoot_ends h' n i).bind ?_
  rintro d w₁ ⟨hsame, hn, -⟩
  have htrees₁ := hsame.trees h'
  refine withMount_trees htrees₁ ?_ (iff_of_true rfl rfl) fun h => absurd rfl h
  exact Nat.pos_of_ne_zero fun h => absurd (htrees₁.sound.numbered 0).1 (by omega)

lemma mountWith_keeps (h : Trees w) (t : TreeRef) (fs : Ino) (loc : Location)
    (flags : BitVec 32) : Keeps (mountWith t fs loc flags) w := by
  refine bind_kind h fun kind hdentry => ?_
  refine .guard h fun _ => ?_
  refine .bind_view ?_
  refine .guard h fun howns => ?_
  obtain ⟨s, hs, hin⟩ := space_of_owns h.sound howns
  refine bind_charge h fun cs h' => ?_
  refine (dentryRoot_ends h' _ fs).bind ?_
  rintro d w₁ ⟨hsame, hn, hgrown⟩
  have htrees₁ := hsame.trees h'
  have hspace₁ : w₁.spaces t = some s := by
    rw [hsame.spaces]
    exact hs
  have hnumbered := htrees₁.sound.numbered
  have hpos : w₁.nextMount ≠ detachedMount := ((hnumbered 0).1.trans_le' (Nat.zero_le _)).ne'
  let mount : Mount :=
    { id := w₁.nextMount, flags := flags, sb := w₁.made, root := d, parent := some loc,
      tree := some t }
  let w₂ : World := withMount { w₁ with nextMount := w₁.nextMount + 1 } mount
  have hmade : Trees w₂ := withMount_trees ((sameMounts_nextMount htrees₁.sound).trees htrees₁)
    (lt_add_one _) (iff_of_false (Option.some_ne_none t) hpos) fun _ m => (hnumbered m).1
  have hmount : w₂.mounts w₁.made = mount := (mounts_withMount _ mount _).trans (if_pos rfl)
  have hentries : ∀ e ∈ [(w₁.made, loc)], (w₂.mounts e.1).parent = some e.2 := by
    intro e he
    rw [mem_singleton.mp he, hmount]
  have hkept : Keeps (attach t [w₁.made]) w₂ := by
    refine attach_trees hmade hspace₁ hentries fun hhead => ?_
    refine ⟨⟨hentries _ (.head _), by rw [hmount], hin, ?_, ?_⟩, trivial⟩
    · exact fun htaken => htaken (hhead _ rfl)
    · exact hdentry.trans_le hgrown
  have hend : Keeps (attach t [w₁.made] >>= fun _ => pure w₁.made) w₂ := hkept.bind fun _ _ h => h
  exact hend

variable {below : List MountRef}

section

variable {source target : Location} {top : MountRef} {within : Option DentryId}

lemma taken_ends (h : Trees w) (hs : w.spaces t = some s)
    (hin : InTree s top) (all : Bool) : Program.Ends (taken t top within all) w
      (fun below w' => Recharged w w' ∧
        Gathered w.above (if all then s.table.entries.map Prod.snd else []) top below ∧
        (all = true → within = none → ∀ k n, s.table.get? k = some n →
          w.above n = some top → n ∈ below) ∧ (all = false → below = [])) (fun _ => Trees) := by
  cases all with
  | false =>
    refine ⟨⟨w.charges, rfl⟩, ⟨trivial, by simp, by simp, by simp, by simp⟩, ?_, fun _ => rfl⟩
    exact fun h => absurd h Bool.false_ne_true
  | true =>
    refine (descendants_ends h hs hin).bind ?_
    rintro below w₁ ⟨hcharged, hgathered, hall⟩
    refine bind_charge (hcharged.trees h) fun cs _ => ?_
    obtain ⟨cs', rfl⟩ := hcharged
    exact ⟨⟨cs, rfl⟩, hgathered, fun _ => hall, fun h => absurd h (by decide)⟩

variable {c : Copying}

lemma copyable_of_taken {all : Bool} (h : Sound w) (hs : w.spaces t = some s)
    (hin : InTree s c.top) (hgathered : Gathered w.above
      (if all then s.table.entries.map Prod.snd else []) c.top c.below) : Copyable w s c := by
  refine copyable_of_gathered h hs hin ?_
  cases all with
  | true => exact hgathered
  | false =>
    have hnil : c.below = [] := eq_nil_iff_forall_not_mem.mpr fun n hn =>
      absurd (hgathered.subset n hn) not_mem_nil
    rw [hnil]
    exact ⟨trivial, by simp, by simp, by simp, by simp⟩

lemma copies_attachable {cs : List Bool} (htrees : Trees w) (hs : w.spaces t = some s)
    (hcopy : Copyable w s c) (hparent : c.parent = some target) (hin : InTree s target.mount)
    (hdentry : target.dentry < w.cache.next) (hf : s.table.get? (w.key target) = none) :
    Attachable (c.replicated w c.originals.length cs) c.tree {n | InTree s n}
      {k | s.table.get? k ≠ none} (c.hangings w c.originals.length) := by
  have h := htrees.sound
  have hk : (c.replicated w c.originals.length cs).key target = w.key target := by
    rw [World.key, mounts_replicated_old (lt_made h hs hin)]
    rfl
  have hids : ∀ k, s.table.get? k ≠ none → (ofLex k).1 < w.nextMount := by
    intro k hk
    obtain ⟨m, hg⟩ := Option.ne_none_iff_exists'.mp hk
    obtain ⟨-, loc, -, rfl⟩ := h.keyed t s hs k m hg
    exact (h.numbered loc.mount).1
  have hfirst : (c.replicated w c.originals.length cs).mounts w.made = c.replica w 0 :=
    mounts_replicated_new (Nat.succ_pos _)
  rw [hangings_originals, hparent]
  refine ⟨⟨?_, ?_, hin, ?_, hdentry⟩, ?_⟩
  · rw [hfirst]
    exact hparent
  · rw [hfirst]
    rfl
  · rw [hk]
    exact fun htaken => htaken hf
  · refine hcopy.attachable h hs Nat.one_pos (Nat.add_comm _ _) ?_ ?_
    · intro j hj
      obtain rfl : j = 0 := by omega
      exact .inl rfl
    · rintro k (rfl | hk')
      · rw [hk]
        exact .inl (h.numbered target.mount).1
      · exact .inl (hids k hk')

lemma copied_keeps (h : Trees w) (hs : w.spaces c.tree = some s) (hcopy : Copyable w s c)
    (hparent : c.parent = some target) (hin : InTree s target.mount)
    (hdentry : target.dentry < w.cache.next) : Keeps (do
      let f ← copyOf c.top c.root c.parent c.tree
      let made ← bindCopies c.tree [c.top] [f] c.below
      attach c.tree made
      pure f) w := by
  have hparents : ∀ i < c.originals.length, (c.replica w i).parent ≠ none := by
    intro i hi
    rcases Nat.eq_zero_or_pos i with rfl | hpos
    · simp [Copying.replica, hparent]
    · obtain ⟨original, loc, -, -, -, -, -, hp⟩ := hcopy.hanging hpos hi
      rw [hp]
      exact Option.some_ne_none _
  refine (copyOf_first h (hcopy.old _ mem_cons_self)).bind ?_
  rintro _ _ ⟨rfl, cs, rfl⟩
  refine Program.Ends.bind (bindCopies_ends h rfl (cons_ne_nil _ _) hcopy.old hcopy.grows) ?_
  rintro _ _ ⟨rfl, cs', rfl⟩
  refine .bind ?_ fun _ _ h => h
  rw [← hangings_fst hparents]
  refine attach_trees (replicated_trees h _ _) hs ?_ fun hhead => ?_
  · intro e he
    obtain ⟨i, hi, hfst, hp⟩ := mem_hangings.mp he
    rw [hfst, mounts_replicated_new hi, hp]
  · refine copies_attachable h hs hcopy hparent hin hdentry ?_
    have hf := hhead (w.made, target) (by rw [hangings_originals, hparent]; rfl)
    rwa [World.key, mounts_replicated_old (lt_made h.sound hs hin)] at hf

lemma bind_keeps (h : Trees w) (t : TreeRef) (source target : Location)
    (recursive : Bool) : Keeps (bind t source target recursive) w := by
  refine bind_kind h fun kind hsource => ?_
  refine bind_kind h fun kind' htarget => ?_
  refine .guard h fun _ => ?_
  refine .bind_view ?_
  refine .guard h fun howns => ?_
  rw [Bool.and_eq_true] at howns
  obtain ⟨s, hs, hin⟩ := space_of_owns h.sound howns.1
  have hintarget := (h.sound.owns_iff hs).mp howns.2
  refine bind_charge h fun cs htrees₀ => ?_
  refine (taken_ends htrees₀ hs hin recursive).bind ?_
  rintro below w₁ ⟨hcharged, hgathered, -, -⟩
  refine bind_charge (hcharged.trees htrees₀) fun charges₁ htrees₁ => ?_
  obtain ⟨cs', rfl⟩ := hcharged
  exact copied_keeps (c := ⟨t, source.mount, below, source.dentry, some target⟩) htrees₁ hs
    (copyable_of_taken htrees₁.sound hs hin hgathered) rfl hintarget htarget

end

lemma unmountWith_keeps (h : Trees w) (t : TreeRef) (loc : Location) (detach : Bool) :
    Keeps (unmountWith t loc detach) w := by
  refine .bind_view ?_
  refine .guard h fun _ => ?_
  refine .bind_view ?_
  refine .bind_option h fun p hplace => ?_
  refine .bind_view ?_
  refine .guard h fun howns => ?_
  obtain ⟨s, hs, hin⟩ := space_of_owns h.sound howns
  refine .bind_view ?_
  refine .guard h fun _ => ?_
  refine bind_charge h fun cs htrees₀ => ?_
  refine (taken_ends htrees₀ hs hin detach).bind ?_
  rintro inside w₁ ⟨hcharged, hgathered, hall, hnone⟩
  refine bind_charge (hcharged.trees htrees₀) fun charges₁ htrees₁ => ?_
  obtain ⟨cs', rfl⟩ := hcharged
  refine .bind_view ?_
  refine .guard htrees₁ fun hf => ?_
  have hgathered' : Gathered w.above (if detach then s.table.entries.map Prod.snd else [])
      loc.mount inside := hgathered
  have hmount : ∃ k, s.table.get? k = some loc.mount := by
    rcases hin with heq | hg
    · have hr := (h.sound.root t s hs).1
      rw [← heq, hplace] at hr
      cases hr
    · exact hg
  have hinside : ∀ n ∈ inside, ∃ k, s.table.get? k = some n := by
    intro n hn
    have hmem := hgathered'.subset n hn
    split_ifs at hmem
    · exact mem_values.mp hmem
    · cases hmem
  refine each_disconnect_trees hs hgathered.nodup ?_ htrees₁ ?_
  · exact forall_mem_cons.mpr ⟨hmount, hinside⟩
  · intro k n loc' hg hp hm
    change (w.mounts n).parent = some loc' at hp
    have habove : w.above n = some loc'.mount := by
      rw [World.above, hp]
      rfl
    cases detach with
    | true =>
      refine mem_cons_of_mem _ ?_
      rcases mem_cons.mp hm with heq | hm
      · exact hall rfl rfl k n hg (habove.trans (congrArg some heq))
      · exact hgathered'.closed _ hm n (mem_values.mpr ⟨k, hg⟩) habove
    | false =>
      rw [hnone rfl, mem_singleton] at hm
      obtain rfl := h.sound.key_eq hs hg hp
      have he : (!(w.table t).entries.any fun e =>
          decide ((ofLex e.1).1 = (w.mounts loc.mount).id)) = true := hf
      rw [Bool.not_eq_true', table_eq hs, any_eq_false] at he
      have hnot := he _ (SortedMap.get?_eq_some.mp hg)
      exact absurd (decide_eq_true (congrArg (fun m => (w.mounts m).id) hm)) hnot

end Ferrix.Vfs.MountCalls
