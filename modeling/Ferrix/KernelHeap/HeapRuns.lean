import Ferrix.KernelHeap.Reserves

/-!
A heap over a page supply that keeps its contract, any number of reserves, and callers that write
into what they were given and free each block once.
-/

namespace Ferrix.KernelHeap.HeapRuns

open Relation Foundations.Links Slabs Slabs.Backing Accounts HeapCalls Reserves Function
open List hiding Disjoint

variable {σ : Type} [Backing σ]

structure World (σ : Type) where
  heap : Heap
  backing : σ
  reserves : List Reserve
  out : List Loan

def World.handOut (world : World σ) (extent : Option Extent) (address : Option Nat) : World σ :=
  match extent, address with
  | some extent, some address => { world with out := ⟨address, extent⟩ :: world.out }
  | _, _ => world

omit [Backing σ] in
lemma handOut_none (world : World σ) (extent : Option Extent) :
    world.handOut extent none = world := by
  cases extent <;> rfl

/-- One call, or what happens between calls: the supply serves others, and callers write into
their blocks.  A block is freed with a request that asks for it. -/
inductive Step (C : Contract σ) (world : World σ) : World σ → Prop
  | allocate (request : Request)
      (hcall : world.heap.allocate world.backing request = (result, heap, backing)) :
      Step C world
        (World.handOut { world with heap, backing } (extentOf request) result.toOption)
  | deallocate (loan : Loan) (request : Request) (hloan : loan ∈ world.out)
      (hextent : extentOf request = some loan.extent)
      (hcall : world.heap.deallocate world.backing loan.address request = (heap, backing)) :
      Step C world { world with heap, backing, out := world.out.erase loan }
  | fill (hdepth : depth < 2 ^ 16) (hreserve : world.reserves = front ++ reserve :: back)
      (hcall : reserve.fill world.heap world.backing depth = (result, reserve', heap, backing)) :
      Step C world { world with heap, backing, reserves := front ++ reserve' :: back }
  | holdLarge (request : Request) (hreserve : world.reserves = front ++ reserve :: back)
      (hcall : reserve.holdLarge world.heap world.backing request =
        (result, reserve', heap, backing)) :
      Step C world { world with heap, backing, reserves := front ++ reserve' :: back }
  | take (request : Request) (hreserve : world.reserves = front ++ reserve :: back)
      (hcall : reserve.take world.backing request = (result, reserve')) :
      Step C world
        (World.handOut { world with reserves := front ++ reserve' :: back } (extentOf request)
          result)
  | releaseLarge (hreserve : world.reserves = front ++ reserve :: back)
      (hcall : reserve.releaseLarge world.heap world.backing = (reserve', heap, backing)) :
      Step C world { world with heap, backing, reserves := front ++ reserve' :: back }
  | release (hreserve : world.reserves = front ++ reserve :: back)
      (hcall : reserve.release world.heap world.backing = (reserve', heap, backing)) :
      Step C world { world with heap, backing, reserves := front ++ reserve' :: back }
  | elapse (howned : C.owned backing = C.owned world.backing)
      (hsame : Same (C.owned world.backing) world.backing backing
        {address | ∃ loan ∈ world.out, address ∈ loan.span} ∅) :
      Step C world { world with backing }

def reserved (stocks : List (Reserve × (Nat → List Nat))) : List Loan :=
  stocks.flatMap fun held => stock held.2 held.1.large

structure Balanced (C : Contract σ) (world : World σ)
    (stocks : List (Reserve × (Nat → List Nat))) : Prop where
  reserves : world.reserves = stocks.map Prod.fst
  keeps : ∀ held ∈ stocks, Keeps world.backing held.1 held.2
  sound : ∃ pages free,
    Sound C world.heap world.backing pages free (world.out ++ reserved stocks)

section

variable {C : Contract σ} {heap : Heap} {b : σ} {pages : List (Nat × Nat)}
  {free : Nat → List Nat} {loans : List Loan} {loan loan' : Loan}

def runOf (loan : Loan) : Nat × Nat :=
  match loan.extent with
  | .small _ => (pageOf loan.address, 0)
  | .large order => (loan.address, order)

def Block (free : Nat → List Nat) (loans : List Loan) (loan : Loan) : Prop :=
  loan ∈ loans ∨ ∃ class_ < classes, ∃ address ∈ free class_, loan = ⟨address, .small class_⟩

variable (hsound : Sound C heap b pages free loans)
include hsound

lemma Block.small {a k : Nat} (hb : Block free loans ⟨a, .small k⟩) :
    k < classes ∧ a ∈ free k ++ smalls k loans := by
  rcases hb with hloan | ⟨k', hk, a', haddress, heq⟩
  · exact ⟨hsound.classed _ hloan k rfl, mem_append_right _ (mem_smalls.mpr hloan)⟩
  · simp only [Loan.mk.injEq, Extent.small.injEq] at heq
    obtain ⟨rfl, rfl⟩ := heq
    exact ⟨hk, mem_append_left _ haddress⟩

omit hsound in
lemma Block.large {a order : Nat} (hb : Block free loans ⟨a, .large order⟩) :
    (a, order) ∈ larges loans := by
  rcases hb with hloan | ⟨k, -, a', -, heq⟩
  · exact mem_larges.mpr hloan
  · cases heq

lemma Block.run (hb : Block free loans loan) :
    runOf loan ∈ C.owned b ∧ loan.span ⊆ runSpan (runOf loan) := by
  obtain ⟨a, k | order⟩ := loan
  · obtain ⟨hk, hm⟩ := hb.small hsound
    obtain ⟨p, hp, hobject⟩ := hsound.exists_page hk hm
    obtain ⟨hfrom, hto, -, rfl⟩ :=
      mem_pageObjects hk (hsound.aligned _ (hsound.mem_owned hp)).1 hobject
    refine ⟨hsound.mem_owned hp, Set.Ico_subset_Ico hfrom ?_⟩
    simpa [Extent.bytes, runOf] using hto
  · refine ⟨?_, subset_rfl⟩
    exact hsound.owned.mem_iff.mpr (mem_append_right _ hb.large)

lemma Block.start_mem_span (hb : Block free loans loan) : loan.address ∈ loan.span := by
  refine ⟨le_rfl, Nat.lt_add_of_pos_right ?_⟩
  obtain ⟨a, k | order⟩ := loan
  · exact (class_spec (hb.small hsound).1).1
  · exact Nat.mul_pos (Nat.two_pow_pos _) (by decide)

lemma disjoint_runs {run run' : Nat × Nat} (hrun : run ∈ C.owned b)
    (hrun' : run' ∈ C.owned b) (hne : run ≠ run') :
    Disjoint (runSpan run) (runSpan run') :=
  haveI : Std.Symm fun a c : Nat × Nat => Disjoint (runSpan a) (runSpan c) := ⟨fun _ _ h => h.symm⟩
  hsound.apart.forall hrun hrun' hne

omit hsound in
lemma disjoint_objects {k p addr addr' : Nat}
    (haddress : addr ∈ pageObjects k p) (haddress' : addr' ∈ pageObjects k p)
    (hne : addr ≠ addr') : Disjoint (Set.Ico addr (addr + classSize k))
      (Set.Ico addr' (addr' + classSize k)) := by
  obtain ⟨i, -, rfl⟩ := mem_map.mp haddress
  obtain ⟨j, -, rfl⟩ := mem_map.mp haddress'
  have hij : i ≠ j := fun heq => hne (by rw [heq])
  rw [Set.disjoint_left]
  rintro a ⟨hi, hi'⟩ ⟨hj, hj'⟩
  rcases Nat.lt_or_gt_of_ne hij with hlt | hgt
  · have hle := Nat.mul_le_mul_right (classSize k) (Nat.succ_le_of_lt hlt)
    rw [Nat.succ_mul] at hle
    omega
  · have hle := Nat.mul_le_mul_right (classSize k) (Nat.succ_le_of_lt hgt)
    rw [Nat.succ_mul] at hle
    omega

lemma Block.disjoint (hb : Block free loans loan) (hb' : Block free loans loan')
    (hne : loan ≠ loan') : Disjoint loan.span loan'.span := by
  obtain ⟨hrun, hspan⟩ := hb.run hsound
  obtain ⟨hrun', hspan'⟩ := hb'.run hsound
  rcases ne_or_eq (runOf loan) (runOf loan') with hruns | hruns
  · exact (disjoint_runs hsound hrun hrun' hruns).mono hspan hspan'
  have hnodup := nodup_append.mp (hsound.owned.nodup_iff.mp hsound.nodup_owned)
  have hslab : ∀ {a k : Nat}, Block free loans ⟨a, .small k⟩ →
      (pageOf a, 0) ∈ pages.map fun p => (p.1, 0) := by
    intro a k hb
    obtain ⟨hk, hm⟩ := hb.small hsound
    exact mem_map.mpr ⟨_, (hsound.exists_run hk hm).1, rfl⟩
  obtain ⟨a, k | order⟩ := loan <;> obtain ⟨a', k' | order'⟩ := loan'
  · obtain ⟨hk, hm⟩ := hb.small hsound
    obtain ⟨hk', hm'⟩ := hb'.small hsound
    obtain ⟨p, hp, hobject⟩ := hsound.exists_page hk hm
    obtain ⟨p', hp', hobject'⟩ := hsound.exists_page hk' hm'
    have hpageOf := (hsound.mem_runSpan hp hobject).2.2
    have hpageOf' := (hsound.mem_runSpan hp' hobject').2.2
    have hsame : p = p' := by
      rw [← hpageOf, ← hpageOf']
      exact (Prod.mk.inj hruns).1
    subst hsame
    obtain rfl := hsound.class_unique hp hp'
    exact disjoint_objects hobject hobject' fun heq : a = a' => hne (by rw [heq])
  · exact absurd hruns (hnodup.2.2 _ (hslab hb) _ hb'.large)
  · exact absurd hruns.symm (hnodup.2.2 _ (hslab hb') _ hb.large)
  · obtain ⟨rfl, rfl⟩ := Prod.mk.inj hruns
    exact absurd rfl hne

lemma nodup_loans : loans.Nodup := by
  rw [nodup_iff_sublist]
  rintro ⟨a, k | order⟩ hsublist
  · have hk := hsound.classed _ (hsublist.subset (.head _)) k rfl
    have hnodup := (hsound.objects k hk).nodup_iff.mp (hsound.nodup_objects hk)
    refine nodup_iff_sublist.mp (nodup_append.mp hnodup).2.1 a ?_
    simpa [smalls] using hsublist.filterMap
      fun loan => if loan.extent = .small k then some loan.address else none
  · have hnodup := hsound.owned.nodup_iff.mp hsound.nodup_owned
    refine nodup_iff_sublist.mp (nodup_append.mp hnodup).2.1 (a, order) ?_
    have hlarges : (larges [⟨a, .large order⟩, ⟨a, .large order⟩]).Sublist
        (larges loans) := hsublist.filterMap _
    exact hlarges

lemma pairwise_spans : loans.Pairwise fun a b => Disjoint a.span b.span :=
  (nodup_loans hsound).pairwise_of_forall_ne fun _ hloan _ hloan' hne =>
    Block.disjoint hsound (.inl hloan) (.inl hloan') hne

end

section

variable {C : Contract σ} {world : World σ} {heap : Heap} {b l : σ}
  {stocks front back : List (Reserve × (Nat → List Nat))} {reserve : Reserve}
  {kept : Nat → List Nat} {out : List Loan}

lemma reserved_middle : (out ++ reserved (front ++ (reserve, kept) :: back)).Perm
      (stock kept reserve.large ++ (out ++ reserved (front ++ back))) := by
  rw [reserved, reserved, flatMap_append, flatMap_append, flatMap_cons]
  refine ((perm_append_comm_assoc ..).append_left out).trans ?_
  exact perm_append_comm_assoc ..

lemma Balanced.focus (hbalanced : Balanced C world stocks)
    {front back : List Reserve} (hreserve : world.reserves = front ++ reserve :: back) :
    ∃ front' kept back', stocks = front' ++ (reserve, kept) :: back' ∧
      front'.map Prod.fst = front ∧ back'.map Prod.fst = back ∧
      (∀ held ∈ front' ++ back', Keeps world.backing held.1 held.2) ∧
      Stocked C world.heap world.backing reserve kept
        (world.out ++ reserved (front' ++ back')) := by
  have hmap := hbalanced.reserves.symm.trans hreserve
  obtain ⟨front', r, rfl, hfront, hr⟩ := map_eq_append_iff.mp hmap
  obtain ⟨⟨_, kept⟩, back', rfl, rfl, hback⟩ := map_eq_cons_iff.mp hr
  obtain ⟨pages, free, hsound⟩ := hbalanced.sound
  refine ⟨front', kept, back', rfl, hfront, hback, fun held hh => hbalanced.keeps held ?_,
    hbalanced.keeps (_, kept) (by simp), pages, free, hsound.perm reserved_middle⟩
  exact (sublist_cons_self _ _ |>.append_left front').subset hh

lemma Stocked.balanced (hs : Stocked C heap b reserve kept (out ++ reserved (front ++ back)))
    (hkeeps : ∀ held ∈ front ++ back, Keeps b held.1 held.2) : Balanced C
      ⟨heap, b, front.map Prod.fst ++ reserve :: back.map Prod.fst, out⟩
      (front ++ (reserve, kept) :: back) := by
  obtain ⟨pages, free, hsound⟩ := hs.sound
  obtain ⟨hfront, hback⟩ := forall_mem_append.mp hkeeps
  exact ⟨by simp, forall_mem_append.mpr ⟨hfront, forall_mem_cons.mpr ⟨hs.keeps, hback⟩⟩,
    pages, free, hsound.perm reserved_middle.symm⟩

lemma keeps_of_unread {r : σ} {loans : List Loan}
    (hkeeps : ∀ held ∈ stocks, Keeps l held.1 held.2)
    (hu : Unread l r loans) (hloans : reserved stocks ⊆ loans) :
    ∀ held ∈ stocks, Keeps r held.1 held.2 :=
  fun held hh => (hkeeps held hh).of_unread hu fun _ hloan =>
    hloans (mem_flatMap.mpr ⟨held, hh, hloan⟩)

lemma Stocks.balanced {result : Reserve × Heap × σ}
    (hstocks : Stocks C l (out ++ reserved (front ++ back)) result)
    (hkeeps : ∀ held ∈ front ++ back, Keeps l held.1 held.2) : ∃ stocks, Balanced C
      ⟨result.2.1, result.2.2, front.map Prod.fst ++ result.1 :: back.map Prod.fst, out⟩
      stocks := by
  obtain ⟨hu, kept, hs⟩ := hstocks
  exact ⟨_, Stocked.balanced hs (keeps_of_unread hkeeps hu (subset_append_right _ _))⟩

end

variable {C : Contract σ} {world world' : World σ}
  {stocks : List (Reserve × (Nat → List Nat))}

lemma allocate_of_extentOf_none (heap : Heap) (b : σ) {request : Request}
    (hextent : extentOf request = none) :
    ∃ e, heap.allocate b request = (.error e, heap, b) := by
  rw [extentOf] at hextent
  rw [Heap.allocate]
  split_ifs
  · exact ⟨_, rfl⟩
  split at hextent
  · cases hextent
  · rename_i hk
    rw [hk]
    split at hextent
    · cases hextent
    · rename_i e horder
      rw [horder]
      exact ⟨e, rfl⟩

lemma Step.balanced (hstep : Step C world world')
    (hbalanced : Balanced C world stocks) : ∃ stocks', Balanced C world' stocks' := by
  cases hstep with
  | @allocate r heap b request hcall =>
    obtain ⟨pages, free, hsound⟩ := hbalanced.sound
    cases hextent : extentOf request with
    | none =>
      obtain ⟨error, hfails⟩ := allocate_of_extentOf_none world.heap world.backing hextent
      obtain ⟨rfl, rfl, rfl⟩ : r = .error error ∧ heap = world.heap ∧ b = world.backing := by
        simpa using hcall.symm.trans hfails
      exact ⟨stocks, hbalanced⟩
    | some extent =>
      obtain ⟨hu, hsound'⟩ := allocate_spec request extent hsound fun e he =>
        Option.mem_unique he hextent
      rw [hcall] at hu hsound'
      have hkeeps := keeps_of_unread hbalanced.keeps hu (subset_append_right _ _)
      cases r with
      | error error => exact ⟨stocks, hbalanced.reserves, hkeeps, hsound'⟩
      | ok addr => exact ⟨stocks, hbalanced.reserves, hkeeps, hsound'⟩
  | deallocate loan request hloan hextent hcall =>
    obtain ⟨pages, free, hsound⟩ := hbalanced.sound
    have hperm := (perm_cons_erase hloan).append_right (reserved stocks)
    obtain ⟨hu, hsound'⟩ := deallocate_spec (hsound.perm hperm) hextent
    rw [hcall] at hu hsound'
    exact ⟨stocks, hbalanced.reserves,
      keeps_of_unread hbalanced.keeps hu (subset_append_right _ _), hsound'⟩
  | fill hdepth hreserve hcall =>
    obtain ⟨front, kept, back, rfl, rfl, rfl, hkeeps, hs⟩ := hbalanced.focus hreserve
    have hstocks := fill_spec hs hdepth
    rw [hcall] at hstocks
    exact Stocks.balanced hstocks hkeeps
  | holdLarge request hreserve hcall =>
    obtain ⟨front, kept, back, rfl, rfl, rfl, hkeeps, hs⟩ := hbalanced.focus hreserve
    have hstocks := holdLarge_spec hs request
    rw [hcall] at hstocks
    exact Stocks.balanced hstocks hkeeps
  | @take front back reserve r reserve' request hreserve hcall =>
    obtain ⟨front, kept, back, rfl, rfl, rfl, hkeeps, hs⟩ := hbalanced.focus hreserve
    have htakes := take_spec hs request
    rw [hcall] at htakes
    obtain ⟨kept', htakes⟩ := htakes
    cases r with
    | none =>
      rw [handOut_none]
      exact ⟨_, Stocked.balanced htakes hkeeps⟩
    | some addr =>
      obtain ⟨extent, hextent, hs'⟩ := htakes
      rw [hextent]
      exact ⟨_, Stocked.balanced hs' hkeeps⟩
  | releaseLarge hreserve hcall =>
    obtain ⟨front, kept, back, rfl, rfl, rfl, hkeeps, hs⟩ := hbalanced.focus hreserve
    obtain ⟨hu, hs', -⟩ := releaseLarge_spec hs
    rw [hcall] at hu hs'
    exact Stocks.balanced ⟨hu, kept, hs'⟩ hkeeps
  | release hreserve hcall =>
    obtain ⟨front, kept, back, rfl, rfl, rfl, hkeeps, hs⟩ := hbalanced.focus hreserve
    obtain ⟨hu, kept', hs', -⟩ := release_spec hs
    rw [hcall] at hu hs'
    exact Stocks.balanced ⟨hu, kept', hs'⟩ hkeeps
  -- The callers write their own blocks, and no free or reserved object starts in one.
  | @elapse b howned hsame =>
    obtain ⟨pages, free, hsound⟩ := hbalanced.sound
    have hout : ∀ loan, Block free (world.out ++ reserved stocks) loan → loan ∉ world.out →
        loan.address ∉ {addr | ∃ loan ∈ world.out, addr ∈ loan.span} := by
      rintro loan hb hnot ⟨o, ho, hm⟩
      have hdisjoint := hb.disjoint hsound (.inl (mem_append_left _ ho))
        (ne_of_mem_of_not_mem ho hnot).symm
      exact Set.disjoint_left.mp hdisjoint (hb.start_mem_span hsound) hm
    refine ⟨stocks, hbalanced.reserves, fun held hh => ?_, pages, free,
      hsound.of_same howned hsame ?_⟩
    · refine (hbalanced.keeps held hh).of_links fun c hc a ha => ?_
      have hloan : ⟨a, .small c⟩ ∈ reserved stocks :=
        mem_flatMap.mpr ⟨held, hh, smalls_stock hc ha⟩
      have hm := mem_smalls.mpr (mem_append_right world.out hloan)
      obtain ⟨-, hrun, hspan, height⟩ := hsound.exists_run hc (mem_append_right _ hm)
      refine hsame.link _ hrun _ hspan height
        (hout ⟨a, .small c⟩ (.inl (mem_append_right _ hloan)) fun hin => ?_)
      exact (nodup_append.mp (nodup_loans hsound)).2.2 _ hin _ hloan rfl
    · intro c hc a ha
      refine hout ⟨a, .small c⟩ (.inr ⟨c, hc, a, ha, rfl⟩) fun hin => ?_
      exact hsound.free_notMem_smalls hc ha (mem_smalls.mpr (mem_append_left _ hin))

lemma balanced_start {b : σ} (hfresh : C.owned b = []) (n : Nat) :
    Balanced C ⟨.new, b, List.replicate n .new, []⟩ (List.replicate n (.new, fun _ => [])) := by
  have hstock : stock (fun _ => []) Reserve.new.large = [] := by
    decide
  refine ⟨by simp, fun held hh => ?_, [], fun _ => [], ?_⟩
  · obtain rfl := eq_of_mem_replicate hh
    have hheads : ∀ k < classes, Reserve.new.head k = listEnd := by
      decide
    exact ⟨rfl, rfl, rfl, hheads, by decide⟩
  · have hreserved : reserved (List.replicate n (Reserve.new, fun _ => [])) = [] := by
      refine flatMap_eq_nil_iff.mpr fun held hh => ?_
      rw [eq_of_mem_replicate hh]
      exact hstock
    rw [hreserved]
    exact sound_new hfresh

lemma run_balanced {a : World σ} (hstart : Balanced C a stocks)
    (hrun : ReflTransGen (Step C) a world) :
    ∃ stocks', Balanced C world stocks' := by
  induction hrun with
  | refl => exact ⟨stocks, hstart⟩
  | tail _ hs ih =>
    obtain ⟨stocks', hbalanced⟩ := ih
    exact hs.balanced hbalanced

/-- The accounts of a heap agree: the blocks callers have and those held in reserves being
given, and the slab pages with their classes. -/
structure Agree (C : Contract σ) (world : World σ) (held : List Loan)
    (pages : List (Nat × Nat)) (free : Nat → List Nat) : Prop where
  list : ∀ class_ < classes,
    Chain (readLink world.backing) listEnd (world.heap.head class_) (free class_) ∧
      (free class_).Nodup
  exact : ∀ class_ < classes, ∀ address, address ∈ free class_ ↔
    address ∈ objectsOf class_ pages ∧ ⟨address, .small class_⟩ ∉ world.out ++ held
  slabFree : ∀ page ∈ pages, slabFree world.backing page.1 =
    (free page.2).countP fun address => pageOf address = page.1
  pagesPerClass : ∀ class_ < classes, world.heap.pagesPerClass.getD class_ 0 =
    pages.countP fun page => page.2 = class_
  slabPages : world.heap.slabPages = pages.length
  allocated : world.heap.allocated = bytesOf (world.out ++ held)
  apart : (world.out ++ held).Pairwise fun a b => Disjoint a.span b.span
  lent : (C.owned world.backing).Perm
    (pages.map (fun page => (page.1, 0)) ++ larges (world.out ++ held))
  inside : ∀ loan ∈ world.out ++ held, runOf loan ∈ C.owned world.backing ∧
    loan.span ⊆ runSpan (runOf loan)
  returned : ∀ loan ∈ world.out ++ held, ∀ request, extentOf request = some loan.extent →
    ∀ run ∈ C.owned world.backing,
      run ∉ C.owned (world.heap.deallocate world.backing loan.address request).2 →
      ∀ other ∈ (world.out ++ held).erase loan, Disjoint other.span (runSpan run)

lemma agree_of_sound {held : List Loan} {pages : List (Nat × Nat)} {free : Nat → List Nat}
    (hsound : Sound C world.heap world.backing pages free (world.out ++ held)) :
    Agree C world held pages free where
  list := fun k hk => ⟨hsound.chain k hk, hsound.nodup_free hk⟩
  exact := by
    intro k hk a
    rw [(hsound.objects k hk).mem_iff, mem_append, ← mem_smalls]
    constructor
    · intro hf
      exact ⟨.inl hf, hsound.free_notMem_smalls hk hf⟩
    · rintro ⟨hf | hsmall, hnot⟩
      · exact hf
      · exact absurd hsmall hnot
  slabFree := hsound.slab
  pagesPerClass := hsound.perClass
  slabPages := hsound.slabPages
  allocated := hsound.allocated
  apart := pairwise_spans hsound
  lent := hsound.owned
  inside := fun loan hloan => Block.run hsound (.inl hloan)
  returned := by
    intro loan hloan r hextent run hrun hreturned o ho
    obtain ⟨-, pages', free', hsound'⟩ :=
      deallocate_spec (hsound.perm (perm_cons_erase hloan)) hextent
    obtain ⟨hrun', hspan⟩ := Block.run hsound (.inl (mem_of_mem_erase ho))
    have hkept := (Block.run hsound' (.inl ho)).1
    exact (disjoint_runs hsound hrun' hrun (ne_of_mem_of_not_mem hkept hreturned)).mono_left hspan

structure Bump where
  lent : List (Nat × Nat)
  next : Nat
  links : Nat → Nat
  slabs : Nat → Nat
  below : ∀ run ∈ lent, run.1 + 2 ^ run.2 * pageSize ≤ next
  aligned : pageSize ∣ next
  pos : 0 < next

instance : Backing Bump where
  allocatePages supply order := (some supply.next,
    { supply with
      lent := (supply.next, order) :: supply.lent
      next := supply.next + 2 ^ order * pageSize
      below := forall_mem_cons.mpr
        ⟨le_rfl, fun run hrun => (supply.below run hrun).trans (Nat.le_add_right _ _)⟩
      aligned := supply.aligned.add (Nat.dvd_mul_left _ _)
      pos := Nat.add_pos_left supply.pos _ })
  deallocatePages supply page order :=
    { supply with
      lent := supply.lent.erase (page, order)
      below := fun run hrun => supply.below run (mem_of_mem_erase hrun) }
  readLink supply address := supply.links address
  writeLink supply address value :=
    { supply with links := update supply.links address value }
  slabFree supply page := supply.slabs page
  setSlabFree supply page objects :=
    { supply with slabs := update supply.slabs page objects }

def bumpContract : Contract Bump where
  owned := Bump.lent
  allocate_none hnone := absurd (congrArg Prod.fst hnone) nofun
  allocate_some := by
    intro supply after order address hsome
    obtain ⟨haddress, rfl⟩ := Prod.mk.inj hsome
    obtain rfl := Option.some.inj haddress
    refine ⟨supply.aligned, Nat.ne_of_gt supply.pos, fun run hrun => ?_, rfl,
      fun _ _ _ _ _ _ => rfl, fun _ _ _ => rfl⟩
    rw [Set.disjoint_left]
    intro a hnew hold
    have hbelow := supply.below run hrun
    exact absurd (hold.2.trans_le hbelow) (Nat.not_lt.mpr hnew.1)
  deallocate := fun _ => ⟨rfl, fun _ _ _ _ _ _ => rfl, fun _ _ _ => rfl⟩
  write := fun _ _ _ _ => ⟨rfl, update_self ..,
    fun _ _ _ _ _ hne => update_of_ne hne .., fun _ _ _ => rfl⟩
  count := fun _ _ _ => ⟨rfl, update_self ..,
    fun _ _ _ _ _ _ => rfl, fun _ _ hne => update_of_ne hne ..⟩

def Bump.new : Bump := ⟨[], pageSize, fun _ => 0, fun _ => 0, by simp, dvd_rfl, by decide⟩

/-- Over any page supply that keeps its contract and in every state that calls and their
callers' writes reach, the accounts of the heap agree. -/
theorem accounts_agree (C : Contract σ) {backing : σ} (hfresh : C.owned backing = []) (count : Nat)
    (hrun : ReflTransGen (Step C) ⟨.new, backing, List.replicate count .new, []⟩ world) :
    ∃ stocks pages free, world.reserves = stocks.map Prod.fst ∧
      (∀ held ∈ stocks, Keeps world.backing held.1 held.2) ∧
      Agree C world (reserved stocks) pages free := by
  obtain ⟨stocks, hbalanced⟩ := run_balanced (balanced_start hfresh count) hrun
  obtain ⟨pages, free, hsound⟩ := hbalanced.sound
  exact ⟨stocks, pages, free, hbalanced.reserves, hbalanced.keeps, agree_of_sound hsound⟩

/-- Two blocks of one slab page are allocated and the first is freed; a reserve then holds two
pages. -/
theorem accounts_agree_bump :
    ∃ (world : World Bump) (held : List Loan) (pages : List (Nat × Nat)) (free : Nat → List Nat),
      world.out = [⟨pageSize + 2048, .small 8⟩] ∧ world.heap.allocated = 2048 + 2 * pageSize ∧
        Agree bumpContract world held pages free := by
  have hrun : ReflTransGen (Step bumpContract)
      ⟨.new, Bump.new, List.replicate 1 .new, []⟩ _ := .single (.allocate ⟨2048, 8⟩ rfl)
  replace hrun := hrun.tail (.allocate ⟨2048, 8⟩ rfl)
  replace hrun := hrun.tail (.deallocate ⟨pageSize, .small 8⟩ ⟨2048, 8⟩ (by decide) rfl rfl)
  replace hrun := hrun.tail
    (.holdLarge ⟨2 * pageSize, 8⟩ (show _ = [] ++ Reserve.new :: [] from rfl) rfl)
  obtain ⟨stocks, pages, free, -, -, hagree⟩ := accounts_agree bumpContract rfl 1 hrun
  exact ⟨_, _, pages, free, rfl, rfl, hagree⟩

end Ferrix.KernelHeap.HeapRuns
