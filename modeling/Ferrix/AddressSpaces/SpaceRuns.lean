import Ferrix.AddressSpaces.PageMap

/-!
Runs of calls on an address space and on every copy `fork` makes of it: the structural invariant,
and the copy-on-write marking.
-/

namespace Ferrix.AddressSpaces.SpaceRuns

open Foundations.Stretches.Stretch Regions Space Cutting SpaceCalls PageMap List AddressSpace

structure Event where
  space : Nat
  memory : Memory
  call : Call

def step (world : List AddressSpace) (event : Event) : List AddressSpace :=
  match world[event.space]? with
  | none => world
  | some space =>
    let result := perform event.memory space event.call
    match result.1 with
    | .ok (.child child) => world.set event.space result.2 ++ [child]
    | _ => world.set event.space result.2

variable {world : List AddressSpace} {P : AddressSpace → Prop}

lemma forall_step (hworld : ∀ s ∈ world, P s) (event : Event)
    (hcall : ∀ s ∈ world, P (perform event.memory s event.call).2 ∧ ∀ child, (perform
      event.memory s event.call).1 = .ok (.child child) → P child) :
    ∀ s ∈ step world event, P s := by
  rw [step]
  rcases hspace : world[event.space]? with _ | s
  · exact hworld
  obtain ⟨hafter, hchild⟩ := hcall s (mem_of_getElem? hspace)
  have hset : ∀ other ∈ world.set event.space (perform event.memory s event.call).2, P other := by
    intro other hother
    rcases mem_or_eq_of_mem_set hother with hother | rfl
    · exact hworld other hother
    · exact hafter
  dsimp only
  split
  · rename_i child heq
    exact forall_mem_append.mpr ⟨hset, forall_mem_singleton.mpr (hchild child heq)⟩
  · exact hset

structure Kept (space : AddressSpace) : Prop where
  sound : Sound space
  fits : Fits space

lemma kept_step (hworld : ∀ s ∈ world, Kept s) (event : Event) :
    ∀ s ∈ step world event, Kept s := by
  refine forall_step hworld event ?_
  intro s hspace
  have h := hworld s hspace
  rcases perform_cases h.sound event.memory event.call with
    ⟨error, heq⟩ | ⟨answer, s', heq, hsucceeds⟩
  · rw [heq]
    exact ⟨h, nofun⟩
  · rw [heq]
    refine ⟨⟨hsucceeds.sound.1, (hsucceeds.fits h.fits).1⟩, ?_⟩
    intro child hchild
    have hanswer : answer = .child child := Except.ok.inj hchild
    exact ⟨hsucceeds.sound.2 child hanswer, (hsucceeds.fits h.fits).2 child hanswer⟩

lemma kept_run (hworld : ∀ s ∈ world, Kept s) (events : List Event) :
    ∀ s ∈ events.foldl step world, Kept s := by
  induction events generalizing world with
  | nil => exact hworld
  | cons event events ih => exact ih (kept_step hworld event)

variable {s : AddressSpace}

lemma kept_new {low high : Nat} (hnew : AddressSpace.new low high = .ok s) :
    ∀ other ∈ [s], Kept other := by
  intro other ho
  rw [mem_singleton.mp ho]
  rw [new] at hnew
  split at hnew
  · simp at hnew
  split at hnew
  · simp at hnew
  · rw [Except.ok.injEq] at hnew
    subst hnew
    exact ⟨⟨⟨by simp, .nil⟩, List.IsChain.nil⟩, le_rfl⟩

/-- Whatever is called on a space and on its copies, and whether it succeeds or
fails, the check passes on all of them. -/
theorem invariants_hold (low high : Nat) {space : AddressSpace}
    (hnew : AddressSpace.new low high = .ok space) (events : List Event) :
    ∀ reached ∈ events.foldl step [space], reached.checkInvariants = .ok () := by
  intro reached hreached
  exact checkInvariants_eq_ok.mpr (kept_run (kept_new hnew) events reached hreached).sound

def plenty : Memory := ⟨fun _ => true, .exact, .exact⟩

def mapping : Call :=
  .insert ⟨⟨4096, 12288⟩, by decide, by decide, by decide, by decide⟩
    ⟨true, false, false, false, false, false⟩ (.file 7 0)

def firstPage : CheckedRange := ⟨⟨4096, 8192⟩, by decide, by decide, by decide, by decide⟩

theorem invariants_hold_forked :
    ([⟨0, plenty, mapping⟩, ⟨0, plenty, .cloneForFork⟩, ⟨1, plenty, .remove firstPage⟩].foldl
      step [⟨[], 0, 4096, 2 ^ 47⟩]).Forall fun reached => reached.checkInvariants = .ok () :=
  forall_iff_forall_mem.mpr (invariants_hold 4096 (2 ^ 47) rfl _)

variable {a side : Nat} {s' : AddressSpace} {range : PageRange} {page : Page}

def isCow (space : AddressSpace) (address : Nat) : Bool :=
  (space.find address).any fun region => region.cow

def Marked (region : Vma) (_ : Nat) : Prop := region.cow = true

lemma isCow_iff (h : Sound s) : isCow s a = true ↔ stretch.Holds Marked s.regions a := by
  constructor
  · intro hcow
    rcases hfind : s.find a with _ | r
    · rw [isCow, hfind] at hcow
      simp at hcow
    · obtain ⟨hm, hstart, hstop⟩ := (find_eq_some_iff h.regions.ordered).mp hfind
      rw [isCow, hfind] at hcow
      exact ⟨r, hm, hstart, hstop, hcow⟩
  · rintro ⟨r, hm, hstart, hstop, hcow⟩
    rw [isCow, (find_eq_some_iff h.regions.ordered).mpr ⟨hm, hstart, hstop⟩]
    exact hcow

lemma pointwise_marked (low high : Nat) : Pointwise stretch (ValidRegion low high) Marked :=
  ⟨fun _ _ _ _ => Iff.rfl, fun _ _ _ _ _ _ _ => Iff.rfl⟩

lemma gathers_marked (low high : Nat) : (joining low high).Gathers Marked := by
  constructor
  · intro l r _ _ hcow
    change (l.cow || r.cow) = true
    rw [show l.cow = true from hcow, Bool.true_or]
  · intro l r _ _ _ _ _ _ hcow
    change (l.cow || r.cow) = true
    rw [show r.cow = true from hcow, Bool.or_true]

lemma isCow_of_became {list : List Vma} (hbecame : Became s s' list)
    (hmarked : stretch.Holds Marked list a) : isCow s' a = true :=
  (isCow_iff hbecame.sound).mpr (hbecame.joined.gathers _ _ (gathers_marked s.low s.high) hmarked)

lemma isCow_of_replaced (h : Sound s) {n : List Vma}
    (hbecame : Became s s' (replaced range s.regions n))
    (hout : range.contains a = false) (hcow : isCow s a = true) :
    isCow s' a = true := by
  refine isCow_of_became hbecame ?_
  rw [holds_replaced (pointwise_marked s.low s.high) h.regions.valid]
  exact .inl ⟨hout, (isCow_iff h).mp hcow⟩

lemma holds_of_imp {Q Q' : Vma → Nat → Prop} {rs : List Vma}
    (himp : ∀ r, Q r a → Q' r a) (h : stretch.Holds Q rs a) :
    stretch.Holds Q' rs a := by
  obtain ⟨r, hm, hstart, hstop, hq⟩ := h
  exact ⟨r, hm, hstart, hstop, himp r hq⟩

def MarkedBy (flags : VmaFlags) (region : Vma) (_ : Nat) : Prop :=
  (region.cow || (flags.write && !flags.shared && !region.backing.isDevice)) = true

lemma marked_reprotected (flags : VmaFlags) (r : Vma) (a : Nat) :
    Marked (reprotected flags r) a ↔ MarkedBy flags r a := by
  rw [Marked, MarkedBy, reprotected, needsCow]
  dsimp only
  split <;> simp_all

lemma pointwise_markedBy (low high : Nat) (flags : VmaFlags) :
    Pointwise stretch (ValidRegion low high) (MarkedBy flags) := by
  constructor
  · intro r a x _
    exact Iff.rfl
  · intro r a x _ _ _ _
    rw [MarkedBy, MarkedBy]
    change (r.cow || (flags.write && !flags.shared &&
      !(r.backing.advancedBy (a - r.range.start)).isDevice)) = true ↔ _
    rw [Backing.isDevice_advancedBy]

lemma isCow_of_rewritten (h : Sound s) (hvalid : range.Valid) {flags : VmaFlags}
    (hbecame : Became s s' (rewritten range (reprotected flags) s.regions))
    (hmarked : (range.contains a = false ∧ stretch.Holds Marked s.regions a) ∨
      (range.contains a = true ∧ stretch.Holds (MarkedBy flags) s.regions a)) :
    isCow s' a = true := by
  refine isCow_of_became hbecame ?_
  rw [holds_rewritten h hvalid (pointwise_marked _ _) (pointwise_markedBy _ _ flags)
    (reprotected_recolours flags) (marked_reprotected flags)]
  exact hmarked

lemma marked_marked (r : Vma) (a : Nat) : Marked (AddressSpace.marked r) a ↔
      Marked r a ∨ needsCow r = true := by
  rw [Marked, Marked, marked]
  split <;> simp_all

lemma isCow_of_marked (hbecame : Became s s' (s.regions.map AddressSpace.marked))
    (hmarked : stretch.Holds (fun r x => Marked r x ∨ needsCow r = true) s.regions a) :
    isCow s' a = true := by
  refine isCow_of_became hbecame ?_
  rw [holds_map marked_recolours marked_marked]
  exact hmarked

def Releases (address : Nat) : Call → Prop
  | .mapFixed range _ _ => range.1.contains address = true
  | .remove range => range.1.contains address = true
  | .removeQuietly range => range.1.contains address = true
  | _ => False

lemma isCow_of_succeeds {c : Call} {b : Answer} (h : Sound s) (hsucceeds : Succeeds s c b s')
    (hreleases : ¬ Releases a c) (hcow : isCow s a = true) : isCow s' a = true := by
  have hfreed : ∀ {range : PageRange}, replaced range s.regions [] = s.regions →
      range.contains a = false := by
    intro range hf
    have hmarked := (isCow_iff h).mp hcow
    rw [← hf, holds_replaced (pointwise_marked s.low s.high) h.regions.valid] at hmarked
    rcases hmarked with ⟨hout, -⟩ | ⟨r, hr, -⟩
    · exact hout
    · exact absurd hr not_mem_nil
  cases hsucceeds with
  | insert _ _ _ hf hbecame | insertRegion _ _ _ _ hf hbecame =>
    exact isCow_of_replaced h hbecame (hfreed hf) hcow
  | mapFixed _ _ _ hbecame | remove _ hbecame | removeQuietly hbecame =>
    exact isCow_of_replaced h hbecame (Bool.eq_false_iff.mpr hreleases) hcow
  | protect range hmapped hbecame =>
    have hmarked := (isCow_iff h).mp hcow
    refine isCow_of_rewritten h range.2 hbecame ?_
    rcases hcontains : range.1.contains a
    · exact .inl ⟨rfl, hmarked⟩
    · refine .inr ⟨rfl, holds_of_imp (fun r hr => ?_) hmarked⟩
      rw [MarkedBy, show r.cow = true from hr, Bool.true_or]
  | setHigh hregions hcapacity hsound =>
    rw [isCow, find, hregions]
    exact hcow
  | cloneForFork hbecame hc =>
    exact isCow_of_marked hbecame (holds_of_imp (fun _ hr => .inl hr) ((isCow_iff h).mp hcow))

lemma pageAt_of_succeeds {c : Call} {b : Answer} (h : Sound s) (hsucceeds : Succeeds s c b s')
    (hreleases : ¬ Releases a c) (hp : pageAt s a = some page) :
    ∃ flags, pageAt s' a = some ⟨flags, page.backing⟩ := by
  obtain ⟨heffect, hanswers⟩ := pages_of_succeeds h hsucceeds
  rw [heffect]
  have hfreed : ∀ {range : PageRange}, (∀ a, range.contains a = true → pageAt s a = none) →
      range.contains a = false := by
    intro range hnone
    rw [Bool.eq_false_iff]
    intro hcontains
    rw [hnone a hcontains] at hp
    exact absurd hp nofun
  cases hsucceeds with
  | insert | insertRegion =>
    exact ⟨page.flags, by rw [effect, Pages.set, hfreed hanswers, hp]; rfl⟩
  | mapFixed | remove | removeQuietly => exact ⟨page.flags, (if_neg hreleases).trans hp⟩
  | protect range hmapped hbecame =>
    rw [effect, Pages.reflag, hp]
    split
    · exact ⟨_, rfl⟩
    · exact ⟨page.flags, rfl⟩
  | setHigh | cloneForFork => exact ⟨page.flags, hp⟩

def Unmaps (side address : Nat) (world : List AddressSpace) (event : Event) : Prop :=
  event.space = side ∧ Releases address event.call ∧ ∃ space answer,
    world[side]? = some space ∧ (perform event.memory space event.call).1 = .ok answer

def Untouched (side address : Nat) : List AddressSpace → List Event → Prop
  | _, [] => True
  | world, event :: events =>
    ¬ Unmaps side address world event ∧ Untouched side address (step world event) events

lemma getElem?_step (hspace : world[side]? = some s) (e : Event) : (step world e)[side]? =
      some (if e.space = side then (perform e.memory s e.call).2 else s) := by
  have hside : side < world.length := (List.getElem?_eq_some_iff.mp hspace).1
  rcases eq_or_ne e.space side with heq | hne
  · rw [if_pos heq, step, heq, hspace]
    dsimp only
    split
    · rw [List.getElem?_append_left (by rwa [length_set]), List.getElem?_set_self hside]
    · rw [List.getElem?_set_self hside]
  · rw [if_neg hne, step]
    rcases world[e.space]? with _ | o
    · exact hspace
    dsimp only
    split
    · rw [List.getElem?_append_left (by rwa [length_set]), List.getElem?_set_ne hne, hspace]
    · rw [List.getElem?_set_ne hne, hspace]

/-- What every call keeps that does not unmap or replace a page holds for as long
as no event does. -/
theorem exists_of_untouched
    (hP : ∀ {s s' : AddressSpace} {call : Call} {answer : Answer}, Sound s → Succeeds
      s call answer s' → ¬ Releases a call → P s → P s')
    (hworld : ∀ s ∈ world, Kept s) (hspace : world[side]? = some s) (hholds : P s)
    {events : List Event} (huntouched : Untouched side a world events) :
    ∃ last, (events.foldl step world)[side]? = some last ∧ Kept last ∧ P last := by
  induction events generalizing world s with
  | nil => exact ⟨s, hspace, hworld s (mem_of_getElem? hspace), hholds⟩
  | cons event events ih =>
    obtain ⟨hevent, hrest⟩ := huntouched
    refine ih (kept_step hworld event) (getElem?_step hspace event) ?_ hrest
    split
    · rename_i heq
      have h := (hworld s (mem_of_getElem? hspace)).sound
      rcases perform_cases h event.memory event.call with
        ⟨error, hfailed⟩ | ⟨answer, s', hdone, hsucceeds⟩
      · rw [hfailed]
        exact hholds
      · rw [hdone]
        refine hP h hsucceeds ?_ hholds
        intro hreleases
        exact hevent ⟨heq, hreleases, s, answer, hspace, by rw [hdone]⟩
    · exact hholds

lemma isDevice_of_shows {r : Vma} (h : Shows page r a) :
    r.backing.isDevice = page.backing.isDevice := by
  rw [← h, pageOf, Backing.isDevice_advancedBy]

lemma fork_spec {index : Nat} {memory : Memory} {parent child parent' : AddressSpace}
    (h : Sound parent) (hparent : world[index]? = some parent)
    (hfork : perform memory parent .cloneForFork = (.ok (.child child), parent'))
    (hside : side = index ∨ side = world.length) :
    ∃ forked, (step world ⟨index, memory, .cloneForFork⟩)[side]? = some forked ∧
      Became parent forked (parent.regions.map marked) := by
  have hboth : Became parent parent' (parent.regions.map marked) ∧
      Became parent child (parent.regions.map marked) := by
    cases Succeeds.of_perform h hfork with
    | cloneForFork hbecame hchild => exact ⟨hbecame, hchild⟩
  have hlt : index < world.length := (List.getElem?_eq_some_iff.mp hparent).1
  have hs : step world ⟨index, memory, .cloneForFork⟩ = world.set index parent' ++ [child] := by
    rw [step, hparent]
    dsimp only
    rw [hfork]
  rw [hs]
  rcases hside with rfl | rfl
  · refine ⟨parent', ?_, hboth.1⟩
    rw [List.getElem?_append_left (by rw [length_set]; exact hlt), List.getElem?_set_self hlt]
  · refine ⟨child, ?_, hboth.2⟩
    rw [List.getElem?_append_right (by rw [length_set]), length_set, Nat.sub_self]
    rfl

/-- A page of private memory that can be copied and was mapped at a fork: in both
spaces, if it was writable then, it is copy-on-write for as long as it is neither
unmapped nor replaced, and if it is made writable and left private, it is so from
then on. -/
theorem cow_never_lost (low high : Nat) {space : AddressSpace}
    (hnew : AddressSpace.new low high = .ok space) (events : List Event) (index : Nat)
    (memory : Memory) {parent child parent' : AddressSpace}
    (hparent : (events.foldl step [space])[index]? = some parent)
    (hfork : perform memory parent .cloneForFork = (.ok (.child child), parent'))
    (address : Nat) (page : Page) (hpage : pageAt parent address = some page)
    (hprivate : page.flags.shared = false) (hcopied : page.backing.isDevice = false)
    (side : Nat) (hside : side = index ∨ side = (events.foldl step [space]).length)
    (later : List Event) (huntouched : Untouched side address
      (step (events.foldl step [space]) ⟨index, memory, .cloneForFork⟩) later) :
    ∃ last, (later.foldl step
        (step (events.foldl step [space]) ⟨index, memory, .cloneForFork⟩))[side]? = some last ∧
      (page.flags.write = true → isCow last address = true) ∧
      ∀ memory' range flags last', range.1.contains address = true → flags.write = true →
        flags.shared = false → perform memory' last (.protect range flags) = (.ok .done, last') →
        isCow last' address = true := by
  have hkept := kept_run (kept_new hnew) events
  have hsound := (hkept parent (mem_of_getElem? hparent)).sound
  have hshows := (pageAt_eq_some_iff hsound.regions.ordered).mp hpage
  obtain ⟨forked, hforked, hbecame⟩ := fork_spec hsound hparent hfork hside
  have hcow : page.flags.write = true → isCow forked address = true := by
    intro hwrite
    refine isCow_of_marked hbecame (holds_of_imp (fun region hregion => .inr ?_) hshows)
    have hflags : region.flags = page.flags := congrArg Page.flags hregion
    rw [needsCow, hflags, hwrite, hprivate, isDevice_of_shows hregion, hcopied]
    rfl
  have hstays : ∃ flags, pageAt forked address = some ⟨flags, page.backing⟩ :=
    ⟨page.flags, by rw [pageAt_marked hsound hbecame, hpage]⟩
  obtain ⟨last, hlast, hkeptlast, hcowlast, flags, hpagelast⟩ :=
    exists_of_untouched (P := fun reached => (page.flags.write = true →
        isCow reached address = true) ∧
        ∃ flags, pageAt reached address = some ⟨flags, page.backing⟩)
      (by
        rintro before after call answer hbefore hsucceeds hreleases ⟨hcow, flags, hpage⟩
        have hstays := pageAt_of_succeeds hbefore hsucceeds hreleases hpage
        exact ⟨fun hwrite => isCow_of_succeeds hbefore hsucceeds hreleases (hcow hwrite), hstays⟩)
      (kept_step hkept _) hforked ⟨hcow, hstays⟩ huntouched
  refine ⟨last, hlast, hcowlast, ?_⟩
  intro memory' range flags' last' hcontains hwrite hshared hprotect
  cases Succeeds.of_perform hkeptlast.sound hprotect with
  | protect _ _ hbecame =>
    refine isCow_of_rewritten hkeptlast.sound range.2 hbecame (.inr ⟨hcontains, ?_⟩)
    refine holds_of_imp (fun region hregion => ?_)
      ((pageAt_eq_some_iff hkeptlast.sound.regions.ordered).mp hpagelast)
    rw [MarkedBy, hwrite, hshared, isDevice_of_shows hregion, hcopied]
    exact Bool.or_true _

def heapPage : Call :=
  .insert firstPage ⟨true, true, false, false, false, false⟩ (.anonymous 0 4096)

theorem cow_never_lost_child :
    ∃ last, ([⟨1, plenty, .protect firstPage ⟨true, false, false, false, false, false⟩⟩].foldl step
        (step ([⟨0, plenty, heapPage⟩].foldl step [⟨[], 0, 4096, 2 ^ 47⟩])
          ⟨0, plenty, .cloneForFork⟩))[1]? = some last ∧ isCow last 4096 = true := by
  obtain ⟨last, hlast, hcow, -⟩ := cow_never_lost 4096 (2 ^ 47) rfl [⟨0, plenty, heapPage⟩] 0
    plenty rfl rfl 4096 ⟨⟨true, true, false, false, false, false⟩, .anonymous 0 4096⟩
    (by decide +kernel) rfl rfl 1 (.inr rfl)
    [⟨1, plenty, .protect firstPage ⟨true, false, false, false, false, false⟩⟩]
    ⟨fun h => h.2.1, trivial⟩
  exact ⟨last, hlast, hcow rfl⟩

def forkedWorld : List AddressSpace :=
  [⟨0, plenty, mapping⟩, ⟨0, plenty, .cloneForFork⟩].foldl step [⟨[], 0, 4096, 2 ^ 47⟩]

/-- A private read-only page mapped at a fork that is then made writable and
shared at once is not copy-on-write. -/
theorem shared_protect_not_cow : (forkedWorld.map fun space => pageAt space 4096) =
        List.replicate 2 (some ⟨⟨true, false, false, false, false, false⟩, .file 7 0⟩) ∧
      ((step forkedWorld ⟨1, plenty,
          .protect firstPage ⟨true, true, false, true, false, false⟩⟩).map fun space =>
        (pageAt space 4096, isCow space 4096)) =
        [(some ⟨⟨true, false, false, false, false, false⟩, .file 7 0⟩, false),
          (some ⟨⟨true, true, false, true, false, false⟩, .file 7 0⟩, false)] := by
  decide +kernel

end Ferrix.AddressSpaces.SpaceRuns
