import Ferrix.Foundations.Links
import Ferrix.KernelHeap.Slabs
import Mathlib.Order.CompletePartialOrder

/-!
The page supply's contract, and the invariant of a heap over it.  From the heap's side every block
it has handed out is a loan, whether a caller has it or a reserve.
-/

namespace Ferrix.KernelHeap.Accounts

open Foundations.Links Slabs Slabs.Backing
open List hiding Chain

def runSpan (run : Nat × Nat) : Set Nat := Set.Ico run.1 (run.1 + 2 ^ run.2 * pageSize)

section

variable {σ : Type} [Backing σ]

/-- The links and the slab counts of some runs are what they were, but for those named. -/
structure Same (runs : List (Nat × Nat)) (before after : σ) (links slabs : Set Nat) : Prop where
  link : ∀ run ∈ runs, ∀ address ∈ runSpan run, 8 ∣ address → address ∉ links →
    readLink after address = readLink before address
  slab : ∀ page, (page, 0) ∈ runs → page ∉ slabs → slabFree after page = slabFree before page

variable (σ) in
/-- What a page supply promises: the runs it has lent are disjoint runs of whole pages, none
at address zero, and what is written into their links and counts is read back until the run
is given back. -/
structure Contract where
  owned : σ → List (Nat × Nat)
  allocate_none {backing after : σ} {order : Nat} :
    allocatePages backing order = (none, after) →
      owned after = owned backing ∧ Same (owned backing) backing after ∅ ∅
  allocate_some {backing after : σ} {order address : Nat} :
    allocatePages backing order = (some address, after) →
      pageSize ∣ address ∧ address ≠ listEnd ∧
        (∀ run ∈ owned backing, Disjoint (runSpan (address, order)) (runSpan run)) ∧
        owned after = (address, order) :: owned backing ∧
        Same (owned backing) backing after ∅ ∅
  deallocate {backing : σ} {run : Nat × Nat} : run ∈ owned backing →
    owned (deallocatePages backing run.1 run.2) = (owned backing).erase run ∧
      Same ((owned backing).erase run) backing (deallocatePages backing run.1 run.2) ∅ ∅
  write {backing : σ} {run : Nat × Nat} {address : Nat} (value : Nat) : run ∈ owned backing →
    address ∈ runSpan run → 8 ∣ address →
      owned (writeLink backing address value) = owned backing ∧
        readLink (writeLink backing address value) address = value ∧
        Same (owned backing) backing (writeLink backing address value) {address} ∅
  count {backing : σ} {page : Nat} (objects : Nat) : (page, 0) ∈ owned backing → objects < 2 ^ 16 →
    owned (setSlabFree backing page objects) = owned backing ∧
      slabFree (setSlabFree backing page objects) page = objects ∧
      Same (owned backing) backing (setSlabFree backing page objects) ∅ {page}

variable {before middle after : σ} {runs : List (Nat × Nat)} {links links' slabs slabs' : Set Nat}

lemma Same.refl (runs : List (Nat × Nat)) (b : σ) (links slabs : Set Nat) :
    Same runs b b links slabs :=
  ⟨fun _ _ _ _ _ _ => rfl, fun _ _ _ => rfl⟩

lemma Same.trans (hfirst : Same runs before middle links slabs)
    (hsecond : Same runs middle after links' slabs') :
    Same runs before after (links ∪ links') (slabs ∪ slabs') where
  link := by
    intro run hrun a haddress haligned hout
    rw [Set.mem_union, not_or] at hout
    exact (hsecond.link run hrun a haddress haligned hout.2).trans
      (hfirst.link run hrun a haddress haligned hout.1)
  slab := by
    intro page hp hout
    rw [Set.mem_union, not_or] at hout
    exact (hsecond.slab page hp hout.2).trans (hfirst.slab page hp hout.1)

lemma Same.mono {runs' : List (Nat × Nat)} (hruns : runs' ⊆ runs) (hlinks : links ⊆ links')
    (hslabs : slabs ⊆ slabs') (hsame : Same runs before after links slabs) :
    Same runs' before after links' slabs' where
  link := fun run hrun a haddress haligned hout =>
    hsame.link run (hruns hrun) a haddress haligned fun h => hout (hlinks h)
  slab := fun page hp hout => hsame.slab page (hruns hp) fun h => hout (hslabs h)

end

variable {k' : Nat}

section

inductive Extent where
  | small (class_ : Nat)
  | large (order : Nat)
deriving DecidableEq

def Extent.bytes : Extent → Nat
  | .small class_ => classSize class_
  | .large order => 2 ^ order * pageSize

structure Loan where
  address : Nat
  extent : Extent
deriving DecidableEq

def Loan.span (loan : Loan) : Set Nat :=
  Set.Ico loan.address (loan.address + loan.extent.bytes)

/-- The block a request is served with, the same when it is made and when it is freed. -/
def extentOf (request : Request) : Option Extent :=
  match classOf request with
  | some class_ => some (.small class_)
  | none =>
    match orderOf request with
    | .ok order => some (.large order)
    | .error _ => none

def smalls (class_ : Nat) (loans : List Loan) : List Nat :=
  loans.filterMap fun loan => if loan.extent = .small class_ then some loan.address else none

def larges (loans : List Loan) : List (Nat × Nat) :=
  loans.filterMap fun loan =>
    match loan.extent with
    | .small _ => none
    | .large order => some (loan.address, order)

def bytesOf (loans : List Loan) : Nat := (loans.map fun loan => loan.extent.bytes).sum

variable {k order a : Nat} {loans loans' : List Loan}

@[simp]
lemma smalls_cons_small : smalls k (⟨a, .small k⟩ :: loans) = a :: smalls k loans := by
  simp [smalls]

lemma smalls_cons_other (hne : k' ≠ k) :
    smalls k' (⟨a, .small k⟩ :: loans) = smalls k' loans := by
  simp [smalls, hne.symm]

@[simp]
lemma smalls_cons_large : smalls k (⟨a, .large order⟩ :: loans) = smalls k loans := by
  simp [smalls]

@[simp]
lemma larges_cons_small : larges (⟨a, .small k⟩ :: loans) = larges loans := by
  simp [larges]

@[simp]
lemma larges_cons_large : larges (⟨a, .large order⟩ :: loans) = (a, order) :: larges loans := by
  simp [larges]

@[simp]
lemma bytesOf_cons (l : Loan) (loans : List Loan) :
    bytesOf (l :: loans) = l.extent.bytes + bytesOf loans := by
  simp [bytesOf]

lemma mem_smalls : a ∈ smalls k loans ↔ ⟨a, .small k⟩ ∈ loans := by
  simp only [smalls, mem_filterMap, Option.ite_none_right_eq_some, Option.some.injEq]
  constructor
  · rintro ⟨⟨a', extent⟩, hm, rfl, rfl⟩
    exact hm
  · intro hm
    exact ⟨_, hm, rfl, rfl⟩

lemma mem_larges : (a, order) ∈ larges loans ↔ ⟨a, .large order⟩ ∈ loans := by
  simp only [larges, mem_filterMap]
  constructor
  · rintro ⟨⟨a', k | order'⟩, hm, heq⟩
    · exact absurd heq (by simp)
    · simp only [Option.some.injEq, Prod.mk.injEq] at heq
      obtain ⟨rfl, rfl⟩ := heq
      exact hm
  · intro hm
    exact ⟨_, hm, rfl⟩

end

variable {k page a : Nat} {pages : List (Nat × Nat)}

def pageObjects (class_ page : Nat) : List Nat :=
  (List.range (objectsPerPage class_)).map fun index => page + index * classSize class_

/-- The objects of all slab pages of a class; a slab page comes with its class. -/
def objectsOf (class_ : Nat) (pages : List (Nat × Nat)) : List Nat :=
  pages.flatMap fun page => if page.2 = class_ then pageObjects class_ page.1 else []

lemma class_spec (hk : k < classes) : 0 < classSize k ∧ 8 ∣ classSize k ∧
      objectsPerPage k * classSize k = pageSize ∧ 0 < objectsPerPage k ∧
      objectsPerPage k ≤ pageSize / smallestClass := by
  have hall : ∀ c < classes, 0 < classSize c ∧ 8 ∣ classSize c ∧
      objectsPerPage c * classSize c = pageSize ∧ 0 < objectsPerPage c ∧
      objectsPerPage c ≤ pageSize / smallestClass := by
    decide
  exact hall k hk

lemma mem_pageObjects (hk : k < classes) (hp : pageSize ∣ page)
    (haddress : a ∈ pageObjects k page) :
    page ≤ a ∧ a + classSize k ≤ page + pageSize ∧ 8 ∣ a ∧ pageOf a = page := by
  obtain ⟨hpos, height, hwhole, -, -⟩ := class_spec hk
  obtain ⟨i, hi, rfl⟩ := mem_map.mp haddress
  rw [mem_range] at hi
  have hstop : i * classSize k + classSize k ≤ pageSize := by
    rw [← hwhole, ← Nat.succ_mul]
    exact Nat.mul_le_mul_right _ hi
  obtain ⟨n, rfl⟩ := hp
  refine ⟨Nat.le_add_right _ _, by omega, ?_, ?_⟩
  · exact (Dvd.dvd.mul_right (by decide) n).add (height.mul_left i)
  · rw [pageOf, Nat.mul_add_mod, Nat.mod_eq_of_lt (by omega)]
    omega

lemma nodup_pageObjects (hk : k < classes) : (pageObjects k page).Nodup := by
  have hpos := (class_spec hk).1
  refine nodup_range.map fun i j heq => ?_
  exact Nat.eq_of_mul_eq_mul_right hpos (Nat.add_left_cancel heq)

lemma length_pageObjects : (pageObjects k page).length = objectsPerPage k := by
  simp [pageObjects]

lemma mem_objectsOf : a ∈ objectsOf k pages ↔
    ∃ page, (page, k) ∈ pages ∧ a ∈ pageObjects k page := by
  simp only [objectsOf, mem_flatMap]
  constructor
  · rintro ⟨⟨page, k'⟩, hp, haddress⟩
    split_ifs at haddress with heq
    · dsimp only at heq
      exact ⟨page, heq ▸ hp, haddress⟩
    · exact absurd haddress not_mem_nil
  · rintro ⟨page, hp, haddress⟩
    refine ⟨_, hp, ?_⟩
    rwa [if_pos rfl]

lemma objectsOf_perm {pages' : List (Nat × Nat)} (hperm : pages.Perm pages') :
    (objectsOf k pages).Perm (objectsOf k pages') :=
  hperm.flatMap_right _

@[simp]
lemma objectsOf_cons_self : objectsOf k ((page, k) :: pages) =
      pageObjects k page ++ objectsOf k pages := by
  simp [objectsOf]

lemma objectsOf_cons_other (hne : k' ≠ k) :
    objectsOf k' ((page, k) :: pages) = objectsOf k' pages := by
  simp [objectsOf, hne.symm]

variable {σ : Type} [Backing σ]

structure Sound (C : Contract σ) (heap : Heap) (backing : σ) (pages : List (Nat × Nat))
    (free : Nat → List Nat) (loans : List Loan) : Prop where
  heads : heap.free.length = classes
  counts : heap.pagesPerClass.length = classes
  class_lt : ∀ page ∈ pages, page.2 < classes
  chain : ∀ class_ < classes, Chain (readLink backing) listEnd (heap.head class_) (free class_)
  objects : ∀ class_ < classes,
    (objectsOf class_ pages).Perm (free class_ ++ smalls class_ loans)
  owned : (C.owned backing).Perm (pages.map (fun page => (page.1, 0)) ++ larges loans)
  apart : (C.owned backing).Pairwise fun a b => Disjoint (runSpan a) (runSpan b)
  aligned : ∀ run ∈ C.owned backing, pageSize ∣ run.1 ∧ run.1 ≠ listEnd
  slab : ∀ page ∈ pages, slabFree backing page.1 =
    (free page.2).countP fun address => pageOf address = page.1
  perClass : ∀ class_ < classes, heap.pagesPerClass.getD class_ 0 =
    pages.countP fun page => page.2 = class_
  slabPages : heap.slabPages = pages.length
  allocated : heap.allocated = bytesOf loans
  classed : ∀ loan ∈ loans, ∀ class_, loan.extent = .small class_ → class_ < classes

variable {C : Contract σ} {heap : Heap} {b after : σ} {pages : List (Nat × Nat)}
  {free : Nat → List Nat} {loans loans' : List Loan} {k page a : Nat}

lemma Sound.perm (hperm : loans.Perm loans') (h : Sound C heap b pages free loans) :
    Sound C heap b pages free loans' :=
  { h with
    objects := fun k hk =>
      (h.objects k hk).trans ((hperm.filterMap _).append_left _)
    owned := h.owned.trans ((hperm.filterMap _).append_left _)
    allocated := h.allocated.trans (hperm.map _).sum_eq
    classed := fun l hloan => h.classed l (hperm.mem_iff.mpr hloan) }

section

variable (h : Sound C heap b pages free loans)
include h

lemma Sound.mem_owned (hp : (page, k) ∈ pages) : (page, 0) ∈ C.owned b :=
  h.owned.mem_iff.mpr (mem_append_left _ (mem_map.mpr ⟨_, hp, rfl⟩))

lemma Sound.mem_runSpan (hp : (page, k) ∈ pages) (haddress : a ∈ pageObjects k page) :
    a ∈ runSpan (page, 0) ∧ 8 ∣ a ∧ pageOf a = page := by
  have hk := h.class_lt _ hp
  obtain ⟨hfrom, hto, height, hpageOf⟩ :=
    mem_pageObjects hk (h.aligned _ (h.mem_owned hp)).1 haddress
  have hpos := (class_spec hk).1
  refine ⟨⟨hfrom, ?_⟩, height, hpageOf⟩
  dsimp only
  omega

omit h in
lemma start_mem_runSpan (run : Nat × Nat) : run.1 ∈ runSpan run :=
  ⟨le_rfl, Nat.lt_add_of_pos_right (Nat.mul_pos (Nat.two_pow_pos _) (by decide))⟩

lemma Sound.nodup_owned : (C.owned b).Nodup := by
  refine h.apart.imp fun {a c} hdisjoint heq => ?_
  subst heq
  exact Set.disjoint_left.mp hdisjoint (start_mem_runSpan a) (start_mem_runSpan a)

lemma Sound.nodup_pages : (pages.map Prod.fst).Nodup := by
  have hnodup := h.owned.nodup_iff.mp h.nodup_owned
  have hpages := (nodup_append.mp hnodup).1
  have hmap : pages.map (fun page => (page.1, 0)) = (pages.map Prod.fst).map (·, 0) := by
    simp
  rw [hmap] at hpages
  exact hpages.of_map _

lemma Sound.class_unique (hp : (page, k) ∈ pages) (hp' : (page, k') ∈ pages) : k = k' := by
  have heq := inj_on_of_nodup_map h.nodup_pages hp hp' rfl
  exact (Prod.mk.inj heq).2

section

variable (hk : k < classes)
include hk

lemma Sound.nodup_objects : (objectsOf k pages).Nodup := by
  have hpages := h.nodup_pages
  refine nodup_flatMap.mpr ⟨fun page hpage => ?_, ?_⟩
  · split_ifs
    · exact nodup_pageObjects hk
    · exact .nil
  · refine (pairwise_map.mp hpages).imp_of_mem fun {p q} hp hq hne a haddress haddress' => ?_
    dsimp only at haddress haddress'
    split_ifs at haddress haddress' with hpclass hqclass
    · obtain ⟨p, _⟩ := p
      subst hpclass hqclass
      exact hne ((h.mem_runSpan hp haddress).2.2.symm.trans (h.mem_runSpan hq haddress').2.2)
    all_goals simp at haddress haddress'

lemma Sound.nodup_free : (free k).Nodup :=
  (nodup_append.mp ((h.objects k hk).nodup_iff.mp (h.nodup_objects hk))).1

section

variable (hf : a ∈ free k ++ smalls k loans)
include hf

lemma Sound.exists_page : ∃ page, (page, k) ∈ pages ∧ a ∈ pageObjects k page :=
  mem_objectsOf.mp ((h.objects k hk).mem_iff.mpr hf)

lemma Sound.exists_run : (pageOf a, k) ∈ pages ∧ (pageOf a, 0) ∈ C.owned b ∧
      a ∈ runSpan (pageOf a, 0) ∧ 8 ∣ a := by
  obtain ⟨page, hp, hobject⟩ := h.exists_page hk hf
  obtain ⟨hspan, height, rfl⟩ := h.mem_runSpan hp hobject
  exact ⟨hp, h.mem_owned hp, hspan, height⟩

lemma Sound.link_of_same {before after : σ} {links slabs : Set Nat}
    (hsame : Same (C.owned b) before after links slabs) (hout : a ∉ links) :
    readLink after a = readLink before a := by
  obtain ⟨-, hrun, hspan, height⟩ := h.exists_run hk hf
  exact hsame.link _ hrun _ hspan height hout

lemma Sound.class_of_mem (hk' : k' < classes) (hf' : a ∈ free k' ++ smalls k' loans) : k = k' :=
  h.class_unique (h.exists_run hk hf).1 (h.exists_run hk' hf').1

end

lemma Sound.free_notMem_smalls (hf : a ∈ free k) : a ∉ smalls k loans := fun hsmall =>
  (nodup_append.mp ((h.objects k hk).nodup_iff.mp (h.nodup_objects hk))).2.2 a hf a hsmall rfl

omit hk in
lemma Sound.ne_of_mem_erase (hp : (page, k) ∈ pages) {other : Nat × Nat}
    (ho : other ∈ pages.erase (page, k)) : other.1 ≠ page := by
  have hnodup := h.nodup_pages
  rw [((perm_cons_erase hp).map Prod.fst).nodup_iff, map_cons, nodup_cons] at hnodup
  exact fun heq => hnodup.1 (mem_map.mpr ⟨other, ho, heq⟩)

omit hk in
lemma Sound.pageOf_of_mem_erase (hp : (page, k) ∈ pages)
    (haddress : a ∈ objectsOf k (pages.erase (page, k))) :
    pageOf a ≠ page := by
  obtain ⟨o, ho, hobject⟩ := mem_objectsOf.mp haddress
  rw [(h.mem_runSpan (mem_of_mem_erase ho) hobject).2.2]
  exact h.ne_of_mem_erase hp ho

omit hk in
lemma Sound.countP_objectsOf (hp : (page, k) ∈ pages) :
    ((objectsOf k pages).countP fun a => pageOf a = page) = objectsPerPage k := by
  rw [(objectsOf_perm (perm_cons_erase hp)).countP_eq, objectsOf_cons_self, countP_append]
  have hall : ((pageObjects k page).countP fun a => pageOf a = page) =
      (pageObjects k page).length :=
    countP_eq_length.mpr fun a haddress => by
      simpa using (h.mem_runSpan hp haddress).2.2
  have hnone : ((objectsOf k (pages.erase (page, k))).countP fun a => pageOf a = page) = 0 :=
    countP_eq_zero.mpr fun a haddress => by
      simpa using h.pageOf_of_mem_erase hp haddress
  rw [hall, hnone, length_pageObjects, Nat.add_zero]

omit hk in
lemma Sound.slab_le (hp : (page, k) ∈ pages) : slabFree b page ≤ objectsPerPage k := by
  rw [h.slab _ hp, ← h.countP_objectsOf hp,
    (h.objects k (h.class_lt _ hp)).countP_eq, countP_append]
  exact Nat.le_add_right _ _

omit h in
lemma objectsPerPage_lt : objectsPerPage k < 2 ^ 16 := by
  have hle := (class_spec hk).2.2.2.2
  simp only [pageSize, smallestClass] at hle
  omega

lemma Sound.length_free_le : (free k).length ≤ heap.slabPages * (pageSize / smallestClass) := by
  have hle : (free k).length ≤ (objectsOf k pages).length := by
    rw [(h.objects k hk).length_eq, length_append]
    exact Nat.le_add_right _ _
  refine hle.trans ?_
  rw [h.slabPages, objectsOf, length_flatMap]
  have heach : ∀ n ∈ pages.map fun page =>
      (if page.2 = k then pageObjects k page.1 else []).length,
      n ≤ pageSize / smallestClass := by
    intro n hn
    obtain ⟨page, -, rfl⟩ := mem_map.mp hn
    split_ifs
    · rw [length_pageObjects]
      exact (class_spec hk).2.2.2.2
    · exact Nat.zero_le _
  simpa using sum_le_card_nsmul _ _ heach

end

/-- A page all of whose objects are on the free list has none on loan. -/
theorem Sound.smalls_filter (hp : (page, k) ∈ pages) (hfull : slabFree b page = objectsPerPage k) :
    ∀ a ∈ smalls k loans, pageOf a ≠ page := by
  have hn := h.countP_objectsOf hp
  rw [(h.objects k (h.class_lt _ hp)).countP_eq, countP_append, ← h.slab _ hp, hfull] at hn
  have hzero : ((smalls k loans).countP fun a => pageOf a = page) = 0 := by omega
  intro a ha
  simpa using countP_eq_zero.mp hzero a ha

/-- The heap does not notice what happens to memory it has lent, nor anything outside the
runs it holds. -/
theorem Sound.of_same {links : Set Nat} (howned : C.owned after = C.owned b)
    (hsame : Same (C.owned b) b after links ∅) (hlinks : ∀ k < classes, ∀ a ∈ free k, a ∉ links) :
    Sound C heap after pages free loans :=
  { h with
    chain := fun k hk => (h.chain k hk).congr fun a haddress =>
      h.link_of_same hk (mem_append_left _ haddress) hsame (hlinks k hk a haddress)
    owned := howned ▸ h.owned
    apart := howned ▸ h.apart
    aligned := howned ▸ h.aligned
    slab := fun page hp => by
      rw [hsame.slab page.1 (h.mem_owned hp) (Set.notMem_empty _)]
      exact h.slab page hp }

end

lemma sound_new {b : σ} (hfresh : C.owned b = []) : Sound C Heap.new b [] (fun _ => []) [] where
  heads := rfl
  counts := rfl
  class_lt := by simp
  chain := by
    intro k hk
    simp [Chain, Heap.head, Heap.new, hk]
  objects := fun k _ => .refl _
  owned := by
    rw [hfresh]
    exact .refl _
  apart := by
    rw [hfresh]
    exact .nil
  aligned := by simp [hfresh]
  slab := by simp
  perClass := by
    intro k hk
    simp [Heap.new, hk]
  slabPages := rfl
  allocated := rfl
  classed := by simp

end Ferrix.KernelHeap.Accounts
