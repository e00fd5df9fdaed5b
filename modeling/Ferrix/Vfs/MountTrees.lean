import Ferrix.Vfs.Pivots
import Ferrix.Vfs.NamespaceCopies

/-!
The kernel starts with one namespace, a filesystem on a bottom mount nothing shows.  Whatever
calls follow, every table is a tree of mounts.
-/

namespace Ferrix.Vfs.MountTrees

open Relation Foundations Programs SortedMaps ParentPointers Dentries Mounts
open MountTables MountLoops MountCalls Pivots NamespaceCopies Function

variable {w w' : World} {inodes : Inodes} {bottom fs : Ino} {charges : List Bool}

def bottomMount : Mount where
  id := 1
  flags := 1
  sb := 0
  root := 0
  parent := none
  tree := some 0

def topMount : Mount where
  id := 2
  flags := 0
  sb := 1
  root := 1
  parent := some ⟨0, 0⟩
  tree := some 0

def boot (inodes : Inodes) (bottom fs : Ino) (charges : List Bool) : World where
  cache := ((Dcache.mk (fun _ => .blank) 0).add (.new [47] none (some bottom))).add
    (.new [47] none (some fs)) |>.addMount 0
  inodes := inodes
  mounts := update (update (fun _ => .blank) 0 bottomMount) 1 topMount
  made := 2
  nextMount := 3
  spaces := update (fun _ => none) 0
    (some ⟨0, (∅ : Table).insert (toLex (bottomMount.id, 0)) 1⟩)
  spaceCount := 1
  charges := charges

/-- The world before there is a mount, with the two dentries the first mounts have. -/
def bare (inodes : Inodes) (bottom fs : Ino) (charges : List Bool) : World where
  cache := ((Dcache.mk (fun _ => .blank) 0).add (.new [47] none (some bottom))).add
    (.new [47] none (some fs))
  inodes := inodes
  mounts := fun _ => .blank
  made := 0
  nextMount := 3
  spaces := fun _ => none
  spaceCount := 0
  charges := charges

lemma dentries_bare {d : Nat} (hd : 2 ≤ d) :
    (bare inodes bottom fs charges).dentry d = .blank := by
  change update (update _ 0 _) 1 _ d = _
  rw [update_of_ne (by omega), update_of_ne (by omega)]

lemma bare_trees : Trees (bare inodes bottom fs charges) := by
  refine ⟨⟨?_, ?_, ?_, ?_, ?_, ?_, ?_, ?_, ?_⟩, ?_⟩
  · exact fun t s hs => by cases hs
  · exact fun t s hs => by cases hs
  · exact fun t s hs => by cases hs
  · intro d
    have htotal : total (bare inodes bottom fs charges) d = 0 := rfl
    rw [htotal]
    rcases d with - | - | d
    · rfl
    · rfl
    · rw [dentries_bare (by omega)]
      rfl
  · exact fun m n hm => absurd rfl hm
  · exact fun m => ⟨Nat.succ_pos 2, iff_of_true rfl rfl⟩
  · exact fun m _ => rfl
  · exact fun t _ => rfl
  · exact fun d hd => dentries_bare hd
  · exact fun t s hs => by cases hs

lemma boot_trees : Trees (boot inodes bottom fs charges) := by
  let w₀ := bare inodes bottom fs charges
  let w₁ := withMount w₀ bottomMount
  let w₂ := withMount w₁ topMount
  have hid : ∀ n, (w₁.mounts n).id < 2 := by
    intro n
    rw [mounts_withMount]
    split_ifs
    · exact Nat.lt_succ_self 1
    · exact Nat.succ_pos 1
  have htrees₁ : Trees w₁ := withMount_trees bare_trees (by decide : 1 < 3) (by decide)
    fun _ _ => Nat.one_pos
  have htrees₂ : Trees w₂ := withMount_trees htrees₁ (by decide : 2 < 3) (by decide) fun _ => hid
  have htrees₃ : Trees (installed w₂ 0) := installed_trees htrees₂ rfl rfl
  have hs : (installed w₂ 0).spaces 0 = some ⟨0, ∅⟩ := rfl
  have hplaced : Trees (placed (installed w₂ 0) 0 1 ⟨0, 0⟩) :=
    placed_trees hs rfl rfl htrees₃ rfl (.inl rfl) (by decide) (by decide : 0 < 2)
  have hboot : placed (installed w₂ 0) 0 1 ⟨0, 0⟩ = boot inodes bottom fs charges :=
    congrArg (fun spaces => { boot inodes bottom fs charges with spaces := spaces })
      (update_idem _ _ _)
  rwa [hboot] at hplaced

inductive Request
  | mount (t : TreeRef) (fs : Ino) (loc : Location) (flags : BitVec 32)
  | bind (t : TreeRef) (source target : Location) (recursive : Bool)
  | unmount (t : TreeRef) (loc : Location) (detach : Bool)
  | pivotRoot (t : TreeRef) (root newRoot putOld : Location)
  | copy (t : TreeRef) (places : List Location)
  | drop (t : TreeRef)
  | detached (name : Name) (ino : Ino)

def Request.run : Request → World → World
  | mount t fs loc flags, w => (mountWith t fs loc flags w).2
  | bind t source target recursive, w => (Mounts.bind t source target recursive w).2
  | unmount t loc detach, w => (unmountWith t loc detach w).2
  | pivotRoot t root newRoot putOld, w => (Mounts.pivotRoot t root newRoot putOld w).2
  | copy t places, w => (Mounts.copy t places w).2
  | drop t, w => (dropNamespace t w).2
  | detached name ino, w => (Mounts.detached name ino w).2

/-- One of these calls, or anything else the kernel does, which leaves mounts and tables alone. -/
inductive Step : World → World → Prop
  | call (request : Request) (w : World) : Step w (request.run w)
  | other {w w' : World} (hsame : SameMounts w w') : Step w w'

lemma Keeps.world {α : Type} {c : Call α} (hkeeps : Keeps c w) : Trees (c w).2 := by
  rw [Keeps, Program.Ends] at hkeeps
  rcases hrun : c w with ⟨e | a, w'⟩
  · rwa [hrun] at hkeeps
  · rwa [hrun] at hkeeps

lemma Request.run_trees (h : Trees w) (request : Request) : Trees (request.run w) := by
  cases request with
  | mount t fs x flags => exact Keeps.world (mountWith_keeps h t fs x flags)
  | bind t source target recursive => exact Keeps.world (bind_keeps h t source target recursive)
  | unmount t x detach => exact Keeps.world (unmountWith_keeps h t x detach)
  | pivotRoot t r newRoot putOld =>
    exact Keeps.world (pivotRoot_keeps h t r newRoot putOld)
  | copy t places =>
    exact Keeps.world ((copy_ends h t places).mono_ok fun _ _ hcopied => hcopied.trees)
  | drop t => exact Keeps.world (dropNamespace_keeps h t)
  | detached n i => exact Keeps.world (detached_keeps h n i)

lemma Step.trees (hs : Step w w') (h : Trees w) : Trees w' := by
  cases hs with
  | call request => exact request.run_trees h
  | other hsame => exact hsame.trees h

lemma run_trees (hrun : ReflTransGen Step (boot inodes bottom fs charges) w) : Trees w := by
  induction hrun with
  | refl => exact boot_trees
  | tail _ hs ih => exact hs.trees ih

/-- In every state the kernel reaches, each entry of a namespace's table is on the place its
mount's parent pointer names, on the bottom mount or another of the table, and the parents lead
down to the bottom mount; each dentry counts the entries of all tables that cover it; no table is
over its limit; and a copy of a namespace is like the original, with the places moved along. -/
theorem mount_tables_stay_trees (hrun : ReflTransGen Step (boot inodes bottom fs charges) w) :
    (∀ t space, w.spaces t = some space → (∀ a d m, space.table.get? (toLex (a, d)) = some m →
        ∃ p, (w.mounts m).parent = some ⟨p, d⟩ ∧ (w.mounts p).id = a ∧
          (∀ q, (w.mounts q).tree ≠ none → (w.mounts q).id = a → q = p) ∧
          (p = space.root ∨ ∃ key, space.table.get? key = some p)) ∧
      (∀ key m, space.table.get? key = some m → Climbs w.above m space.root) ∧
      space.table.size + 1 ≤ mountMax) ∧ (∀ t, w.spaceCount ≤ t → w.spaces t = none) ∧
    (∀ d, (w.dentry d).mounts = ∑ t ∈ Finset.range w.spaceCount, covers (w.table t) d) ∧
    ∀ t places result w', Mounts.copy t places w = (.ok result, w') →
      Copied w t places result w' := by
  have htrees := run_trees hrun
  refine ⟨fun t space hspace => ⟨?_, ?_, htrees.sound.bounded t space hspace⟩,
    htrees.sound.spaces_fresh, htrees.sound.counted, ?_⟩
  · intro a d m hget
    obtain ⟨⟨p, d'⟩, hparent, hin⟩ := (htrees.rooted t space hspace).owned _ m hget
    have hkey := Prod.ext_iff.mp (toLex.injective (htrees.sound.key_eq hspace hget hparent))
    have hid : (w.mounts p).id = a := hkey.1
    have hdentry : d' = d := hkey.2
    have htree : (w.mounts p).tree = some t := htrees.sound.tree_of_inTree hspace hin
    refine ⟨p, by rw [hparent, hdentry], hid, ?_, hin⟩
    intro q hq hqid
    exact htrees.sound.distinct q p hq (by simp [htree]) (hqid.trans hid.symm)
  · exact fun key m hget => (htrees.rooted t space hspace).climbs m (.inr ⟨key, hget⟩)
  · exact fun t places result w' hcopy => (copy_ends htrees t places).ok_of_run hcopy

def emptyDirectories : Inodes where
  metadata := fun _ => { kind := .directory, permissions := 0o755, uid := 0, gid := 0 }
  lookup := fun _ _ => .error .noent
  readLink := fun _ => .error .inval
  linkLocation := fun _ => none
  cachesLookups := fun _ => true
  cachesLookupOf := fun _ _ => true

theorem mount_tables_stay_trees_copy :
    let w := (Request.copy 0 []).run (boot emptyDirectories 0 1 [])
    ReflTransGen Step (boot emptyDirectories 0 1 []) w ∧
      ∃ w', Mounts.copy 1 [⟨3, 1⟩] w = (.ok (2, [⟨5, 1⟩]), w') ∧
        Copied w 1 [⟨3, 1⟩] (2, [⟨5, 1⟩]) w' := by
  have hrun := ReflTransGen.single (Step.call (.copy 0 []) (boot emptyDirectories 0 1 []))
  exact ⟨hrun, _, rfl, (mount_tables_stay_trees hrun).2.2.2 _ _ _ _ rfl⟩

end Ferrix.Vfs.MountTrees
