import Ferrix.KernelHeap.Accounts

namespace Ferrix.KernelHeap.HeapCalls

open Foundations.Links Slabs Slabs.Backing Accounts Function List Heap Set

variable {σ : Type} [Backing σ] {C : Contract σ} {heap : Heap} {b after linked l : σ}
  {pages : List (Nat × Nat)} {free : Nat → List Nat} {loans : List Loan}
  {k page addr k' : Nat} {counts list rest : List Nat}

lemma length_setHead : (heap.setHead k addr).free.length = heap.free.length :=
  length_set

lemma head_setHead (hheads : heap.free.length = classes) (hk : k < classes)
    : (heap.setHead k addr).head k' =
      if k' = k then addr else heap.head k' := by
  have hlt : k < heap.free.length := hheads ▸ hk
  by_cases heq : k' = k
  · subst heq
    simp [Heap.head, Heap.setHead, hlt]
  · simp [Heap.head, Heap.setHead, heq, Ne.symm heq]

lemma setHead_head (hheads : heap.free.length = classes) (hk : k < classes) :
    heap.setHead k (heap.head k) = heap := by
  have hlt : k < heap.free.length := hheads ▸ hk
  simp [Heap.setHead, Heap.head, hlt]

lemma setHead_setHead {addr' : Nat} :
    (heap.setHead k addr).setHead k addr' = heap.setHead k addr' := by
  simp [setHead]

lemma chain_setHead (h : Sound C heap b pages free loans)
    (hk : k < classes) (hself : Chain (readLink after) listEnd addr list)
    (ho : ∀ c < classes, c ≠ k → ∀ a ∈ free c, readLink after a = readLink b a) :
    ∀ c < classes, Chain (readLink after) listEnd ((heap.setHead k addr).head c)
      (update free k list c) := by
  intro c hc
  rw [head_setHead h.heads hk]
  split_ifs with heq
  · subst heq
    rw [update_self]
    exact hself
  · rw [update_of_ne heq]
    exact (h.chain c hc).congr (ho c hc heq)

lemma getD_modify_self (f : Nat → Nat) (hk : k < counts.length) :
    (counts.modify k f).getD k 0 = f (counts.getD k 0) := by
  simp [getD_eq_getElem?_getD, hk]

lemma getD_modify_other (f : Nat → Nat)
    (hne : k ≠ k') : (counts.modify k f).getD k' 0 = counts.getD k' 0 := by
  simp [getD_eq_getElem?_getD, hne]

def Unread (before after : σ) (loans : List Loan) : Prop :=
  ∀ class_ < classes, ∀ address ∈ smalls class_ loans,
    readLink after address = readLink before address

lemma Unread.trans {middle : σ}
    (hf : Unread l middle loans) (hsecond : Unread middle after loans) :
    Unread l after loans :=
  fun k hk addr haddress =>
    (hsecond k hk addr haddress).trans (hf k hk addr haddress)

lemma Unread.subset {loans' : List Loan}
    (hu : Unread l after loans) (hsubset : loans' ⊆ loans) : Unread l after loans' :=
  fun k hk addr haddress =>
    hu k hk addr (mem_smalls.mpr (hsubset (mem_smalls.mp haddress)))

section

variable {rest : List Nat}

lemma lend_sound (h : Sound C heap b pages free loans)
    (hk : k < classes) (hf : free k = addr :: rest) :
    let lent := { heap.setHead k (readLink b addr) with
      allocated := heap.allocated + classSize k }
    Sound C lent (takeFromPage b addr) pages (update free k rest) (⟨addr, .small k⟩ :: loans) ∧
      Unread b (takeFromPage b addr) loans := by
  have hm : addr ∈ free k ++ smalls k loans := by
    rw [hf]
    exact .head _
  obtain ⟨hpage, hrun, hspan, height⟩ := h.exists_run hk hm
  have hsmall : slabFree b (pageOf addr) - 1 < 2 ^ 16 := by
    have hle := h.slab_le hpage
    have hlt := objectsPerPage_lt hk
    omega
  obtain ⟨howned, hset, hsame⟩ := C.count _ hrun hsmall
  change C.owned (takeFromPage b addr) = _ at howned
  change slabFree (takeFromPage b addr) _ = _ at hset
  change Same _ b (takeFromPage b addr) ∅ _ at hsame
  have hlink : ∀ c < classes, ∀ a ∈ free c ++ smalls c loans,
      readLink (takeFromPage b addr) a = readLink b a := fun c hc a ha =>
    h.link_of_same hc ha hsame (notMem_empty _)
  refine ⟨⟨length_setHead.trans h.heads, h.counts, h.class_lt, ?_, ?_, ?_, ?_, ?_, ?_,
    h.perClass, h.slabPages, ?_, ?_⟩, ?_⟩
  · have hchain := h.chain k hk
    rw [hf] at hchain
    refine chain_setHead h hk (hchain.2.2.congr fun a ha => ?_) fun c hc _ a ha =>
      hlink c hc a (mem_append_left _ ha)
    exact hlink k hk a (mem_append_left _ (hf ▸ .tail _ ha))
  · intro c hc
    by_cases heq : c = k
    · subst heq
      rw [update_self, smalls_cons_small]
      have hobjects := h.objects c hc
      rw [hf] at hobjects
      exact hobjects.trans perm_middle.symm
    · rw [update_of_ne heq, smalls_cons_other heq]
      exact h.objects c hc
  · rw [howned, larges_cons_small]
    exact h.owned
  · rw [howned]
    exact h.apart
  · rw [howned]
    exact h.aligned
  · rintro ⟨p, c⟩ hp
    have hold := h.slab _ hp
    by_cases hpeq : p = pageOf addr
    · subst hpeq
      obtain rfl := h.class_unique hpage hp
      rw [hset, update_self, hold, hf, countP_cons_of_pos (by simp), Nat.add_sub_cancel]
    · rw [hsame.slab p (h.mem_owned hp) hpeq, hold]
      by_cases heq : c = k
      · subst heq
        rw [update_self, hf, countP_cons_of_neg (by simpa using Ne.symm hpeq)]
      · rw [update_of_ne heq]
  · rw [bytesOf_cons]
    rw [h.allocated, Nat.add_comm]
    rfl
  · rintro l hloan c hc
    rcases mem_cons.mp hloan with rfl | hloan
    · obtain rfl := Extent.small.inj hc
      exact hk
    · exact h.classed l hloan c hc
  · exact fun c hc a ha => hlink c hc a (mem_append_right _ ha)

end

lemma regain_sound (h : Sound C heap b pages free (⟨addr, .small k⟩ :: loans))
    {counted : σ} (hlinked : linked = writeLink b addr (heap.head k))
    (hcounted : counted = setSlabFree linked (pageOf addr)
      (min (slabFree linked (pageOf addr) + 1) (2 ^ 16 - 1))) :
    let regained := { heap.setHead k addr with
      allocated := heap.allocated - classSize k }
    Sound C regained counted pages (update free k (addr :: free k)) loans ∧
      Unread b counted loans := by
  have hk := h.classed _ (.head _) k rfl
  have hsmalls : addr ∈ smalls k (⟨addr, .small k⟩ :: loans) := by simp
  have hm := mem_append_right (free k) hsmalls
  obtain ⟨hpage, hrun, hspan, height⟩ := h.exists_run hk hm
  obtain ⟨howned₁, hread, hsame₁⟩ := C.write (heap.head k) hrun hspan height
  rw [← hlinked] at howned₁ hread hsame₁
  have hslab₁ : slabFree linked (pageOf addr) = slabFree b (pageOf addr) :=
    hsame₁.slab _ hrun (notMem_empty _)
  -- The saturating count of the source never saturates: a page has few enough objects.
  have hroom : slabFree b (pageOf addr) + 1 ≤ 2 ^ 16 - 1 := by
    have hle := h.slab_le hpage
    have hperpage := (class_spec hk).2.2.2.2
    simp only [pageSize, smallestClass] at hperpage
    omega
  rw [hslab₁, Nat.min_eq_left hroom] at hcounted
  obtain ⟨howned₂, hset, hsame₂⟩ :=
    C.count (slabFree b (pageOf addr) + 1) (howned₁ ▸ hrun) (by omega)
  rw [← hcounted] at howned₂ hset hsame₂
  rw [howned₁] at howned₂ hsame₂
  -- Neither write touches another object: the link is in `addr`, the count in its page.
  have hlink : ∀ c < classes, ∀ a ∈ free c ++ smalls c (⟨addr, .small k⟩ :: loans),
      a ≠ addr → readLink counted a = readLink b a := fun c hc a ha hne =>
    (h.link_of_same hc ha hsame₂ (notMem_empty _)).trans (h.link_of_same hc ha hsame₁ hne)
  have hkept : ∀ c < classes, ∀ a ∈ free c, readLink counted a = readLink b a := by
    intro c hc a ha
    refine hlink c hc a (mem_append_left _ ha) ?_
    rintro rfl
    obtain rfl := h.class_of_mem hc (mem_append_left _ ha) hk hm
    exact h.free_notMem_smalls hc ha hsmalls
  refine ⟨⟨length_setHead.trans h.heads, h.counts, h.class_lt, ?_, ?_, ?_, ?_, ?_, ?_,
    h.perClass, h.slabPages, ?_, ?_⟩, ?_⟩
  · refine chain_setHead h hk ((h.chain k hk).push ?_ ?_ (hkept k hk)) fun c hc _ => hkept c hc
    · obtain ⟨n, hnumber⟩ := (h.aligned _ hrun).1
      have hnonzero := (h.aligned _ hrun).2
      have hfrom := hspan.1
      simp only [listEnd] at hnonzero ⊢
      omega
    · exact (hsame₂.link _ hrun _ hspan height (notMem_empty _)).trans hread
  · intro c hc
    have hobjects := h.objects c hc
    by_cases heq : c = k
    · subst heq
      rw [smalls_cons_small] at hobjects
      rw [update_self]
      exact hobjects.trans perm_middle
    · rw [smalls_cons_other heq] at hobjects
      rwa [update_of_ne heq]
  · rw [howned₂]
    simpa using h.owned
  · rw [howned₂]
    exact h.apart
  · rw [howned₂]
    exact h.aligned
  · rintro ⟨p, c⟩ hp
    have hold := h.slab _ hp
    by_cases hpeq : p = pageOf addr
    · subst hpeq
      obtain rfl := h.class_unique hpage hp
      rw [hset, update_self, hold, countP_cons_of_pos (by simp)]
    · have hrun' := h.mem_owned hp
      rw [hsame₂.slab p hrun' hpeq, hsame₁.slab p hrun' (notMem_empty _), hold]
      by_cases heq : c = k
      · subst heq
        rw [update_self, countP_cons_of_neg (by simpa using Ne.symm hpeq)]
      · rw [update_of_ne heq]
  · have hallocated := h.allocated
    rw [hallocated]
    exact Nat.add_sub_cancel_left _ _
  · exact fun l hloan => h.classed l (.tail _ hloan)
  · intro c hc a ha
    have ha' : a ∈ smalls c (⟨addr, .small k⟩ :: loans) :=
      mem_smalls.mpr (.tail _ (mem_smalls.mp ha))
    refine hlink c hc a (mem_append_right _ ha') ?_
    rintro rfl
    obtain rfl := h.class_of_mem hc (mem_append_right _ ha') hk hm
    have hnodup := (h.objects c hc).nodup_iff.mp (h.nodup_objects hc)
    rw [smalls_cons_small] at hnodup
    exact (nodup_cons.mp (nodup_append.mp hnodup).2.1).1 ha

lemma unlinkOne_spec {kept : List Nat} {nodes : Set Nat} (hheads : heap.free.length = classes)
    (hk : k < classes) (hchain : Chain (readLink b) listEnd (heap.head k) (kept ++ addr :: rest))
    (hnodup : (kept ++ addr :: rest).Nodup) (hnodes : ∀ a ∈ kept ++ addr :: rest, a ∈ nodes)
    (howned : ∀ a ∈ nodes, 8 ∣ a ∧ ∃ run ∈ C.owned b, a ∈ runSpan run) :
    ∃ head' linked, heap.unlinkOne b k (kept.getLast?.getD listEnd)
        (readLink b addr) = (heap.setHead k head', linked) ∧
      Chain (readLink linked) listEnd head' (kept ++ rest) ∧
      C.owned linked = C.owned b ∧
      Same (C.owned b) b linked nodes ∅ := by
  rw [unlinkOne]
  cases hl : kept.getLast? with
  | none =>
    obtain rfl := List.getLast?_eq_none_iff.mp hl
    exact ⟨_, b, if_pos rfl, hchain.2.2, rfl, .refl _ _ _ _⟩
  | some previous =>
    have hm := mem_of_getLast? hl
    have hne : previous ≠ listEnd := hchain.ne_stop _ (mem_append_left _ hm)
    obtain ⟨height, run, hrun, hspan⟩ := howned previous (hnodes _ (mem_append_left _ hm))
    obtain ⟨howned', hread, hsame⟩ := C.write (readLink b addr) hrun hspan height
    have hnil : kept ≠ [] := ne_nil_of_mem hm
    obtain ⟨hfront, hback, hapart⟩ := nodup_append.mp hnodup
    have hr : ∀ a ∈ kept ++ rest, a ∉ kept.getLast? →
        readLink (writeLink b previous (readLink b addr)) a = readLink b a := by
      intro a ha hout
      have ha' : a ∈ kept ++ addr :: rest := by
        rw [mem_append] at ha ⊢
        exact ha.imp_right (.tail _)
      obtain ⟨height', run', hrun', hspan'⟩ := howned a (hnodes a ha')
      refine hsame.link _ hrun' _ hspan' height' ?_
      rintro rfl
      exact hout hl
    have hends : ∀ a ∈ kept.getLast?, readLink (writeLink b previous (readLink b addr)) a =
          readLink b addr := by
      intro a ha
      obtain rfl : previous = a := Option.mem_unique hl ha
      exact hread
    have hremoved := hchain.remove hfront (fun a ha hin => hapart a hin a (.tail _ ha) rfl) hr hends
    rw [if_neg hnil] at hremoved
    refine ⟨heap.head k, _, ?_, hremoved, howned', hsame.mono (List.Subset.refl _) ?_ subset_rfl⟩
    · rw [Option.getD_some, if_neg hne, setHead_head hheads hk]
    · rintro a rfl
      exact hnodes _ (mem_append_left _ hm)

lemma unlinkFrom_spec (kept : List Nat) (nodes : Set Nat) {budget previous cursor : Nat}
    (hheads : heap.free.length = classes) (hk : k < classes)
    (hchain : Chain (readLink b) listEnd (heap.head k) (kept ++ rest))
    (hnodup : (kept ++ rest).Nodup)
    (hkept : ∀ a ∈ kept, pageOf a ≠ page) (hnodes : ∀ a ∈ kept ++ rest, a ∈ nodes)
    (howned : ∀ a ∈ nodes, 8 ∣ a ∧ ∃ run ∈ C.owned b, a ∈ runSpan run)
    (hprevious : previous = kept.getLast?.getD listEnd) (hcursor : cursor = rest.head?.getD listEnd)
    (hbudget : rest.length ≤ budget) :
    ∃ head' linked, unlinkFrom k page budget heap b previous cursor =
        (heap.setHead k head', linked) ∧
      Chain (readLink linked) listEnd head' (kept ++ rest.filter fun a => pageOf a ≠ page) ∧
      C.owned linked = C.owned b ∧
      Same (C.owned b) b linked nodes ∅ := by
  induction rest generalizing budget kept heap b previous cursor with
  | nil =>
    have hstop : cursor = listEnd := hcursor
    refine ⟨heap.head k, b, ?_, hchain, rfl, .refl _ _ _ _⟩
    rw [setHead_head hheads hk]
    cases budget with
    | zero => rfl
    | succ budget => rw [unlinkFrom, if_pos hstop]
  | cons addr rest ih =>
    obtain rfl : cursor = addr := hcursor
    obtain ⟨budget, rfl⟩ := Nat.exists_eq_add_one_of_ne_zero (Nat.ne_zero_of_lt hbudget)
    have hm : cursor ∈ kept ++ cursor :: rest := by simp
    have hn : readLink b cursor = rest.head?.getD listEnd := hchain.next_eq
    rw [unlinkFrom, if_neg (hchain.ne_stop _ hm)]
    dsimp only
    rw [length_cons] at hbudget
    split_ifs with hp
    · obtain ⟨head₁, linked₁, hone, hchain₁, howned₁, hsame₁⟩ :=
        unlinkOne_spec hheads hk hchain hnodup hnodes howned
      rw [hprevious, hone]
      have hsub : (kept ++ rest).Sublist (kept ++ cursor :: rest) :=
        List.Sublist.append_left (sublist_cons_self _ _) _
      have hhead₁ : (heap.setHead k head₁).head k = head₁ := by
        rw [head_setHead hheads hk, if_pos rfl]
      have hheads₁ : (heap.setHead k head₁).free.length = classes :=
        length_setHead.trans hheads
      rw [← hhead₁] at hchain₁
      have hbudget' : rest.length ≤ budget := by omega
      obtain ⟨head', linked, heq, hchain', howned', hsame'⟩ := ih _ hheads₁ hchain₁
        (hnodup.sublist hsub) hkept (fun a ha => hnodes a (hsub.subset ha))
        (howned₁.symm ▸ howned) rfl hn hbudget'
      refine ⟨head', linked, ?_, ?_, howned'.trans howned₁, ?_⟩
      · rw [setHead_setHead] at heq
        exact heq
      · rwa [filter_cons_of_neg (by simpa using hp)]
      · have hboth := hsame₁.trans (howned₁ ▸ hsame')
        rwa [union_self, union_self] at hboth
    · have hshift : kept ++ cursor :: rest = (kept ++ [cursor]) ++ rest := by simp
      rw [hshift] at hchain hnodup hnodes
      have hkept' : ∀ a ∈ kept ++ [cursor], pageOf a ≠ page :=
        forall_mem_append.mpr ⟨hkept, forall_mem_singleton.mpr hp⟩
      have hl : cursor = (kept ++ [cursor]).getLast?.getD listEnd := by simp
      have hbudget' : rest.length ≤ budget := by omega
      obtain ⟨head', linked, heq, hchain', howned', hsame'⟩ := ih _ hheads hchain hnodup hkept'
        hnodes howned hl hn hbudget'
      refine ⟨head', linked, heq, ?_, howned', hsame'⟩
      rwa [filter_cons_of_pos (by simpa using hp), ← singleton_append, ← append_assoc]

section

variable (h : Sound C heap b pages free loans)
include h

lemma objectsOf_filter (hp : (page, k) ∈ pages) :
    ((objectsOf k pages).filter fun a => pageOf a ≠ page).Perm
      (objectsOf k (pages.erase (page, k))) := by
  refine ((objectsOf_perm (perm_cons_erase hp)).filter _).trans ?_
  rw [objectsOf_cons_self, filter_append]
  have hnone : (pageObjects k page).filter (fun a => pageOf a ≠ page) = [] :=
    filter_eq_nil_iff.mpr fun a ha => by
      simpa using (h.mem_runSpan hp ha).2.2
  have hall : (objectsOf k (pages.erase (page, k))).filter (fun a => pageOf a ≠ page) =
      objectsOf k (pages.erase (page, k)) :=
    filter_eq_self.mpr fun a ha => by simpa using h.pageOf_of_mem_erase hp ha
  rw [hnone, hall, nil_append]

lemma return_sound (hpage : (page, k) ∈ pages) (hfull : slabFree b page = objectsPerPage k)
    {unlinked : Heap} {returned : σ} (hunlinked : heap.unlinkPage b k page = (unlinked, linked))
    (hreturned : returned = deallocatePages (setSlabFree linked page 0) page 0) :
    let after := { unlinked with
      slabPages := unlinked.slabPages - 1
      slabPagesReturned := unlinked.slabPagesReturned + 1
      pagesPerClass := unlinked.pagesPerClass.modify k (· - 1) }
    Sound C after returned (pages.erase (page, k))
        (update free k ((free k).filter fun a => pageOf a ≠ page)) loans ∧
      Unread b returned loans := by
  have hk : k < classes := h.class_lt _ hpage
  have hrun := h.mem_owned hpage
  have hobject : ∀ a ∈ {a | a ∈ free k},
      8 ∣ a ∧ ∃ run ∈ C.owned b, a ∈ runSpan run := fun a ha => by
    obtain ⟨-, hrun', hspan, height⟩ := h.exists_run hk (mem_append_left _ ha)
    exact ⟨height, _, hrun', hspan⟩
  have hbudget : (free k).length ≤ (heap.slabPages + 1) * (pageSize / smallestClass) :=
    (h.length_free_le hk).trans (Nat.mul_le_mul_right _ (Nat.le_succ _))
  obtain ⟨head', linked', heq, hchain, howned₁, hsame₁⟩ := unlinkFrom_spec [] {a | a ∈ free k}
    h.heads hk (h.chain k hk) (h.nodup_free hk) (by simp)
    (fun a ha => ha) hobject rfl (h.chain k hk).cursor_eq hbudget
  obtain ⟨rfl, rfl⟩ := Prod.mk.inj (hunlinked.symm.trans heq)
  obtain ⟨howned₂, -, hsame₂⟩ := C.count 0 (howned₁ ▸ hrun) (by decide)
  rw [howned₁] at howned₂ hsame₂
  rw [← howned₂] at hrun
  obtain ⟨howned₃, hsame₃⟩ := C.deallocate hrun
  rw [← hreturned, howned₂] at howned₃ hsame₃
  have hsub : (C.owned b).erase (page, 0) ⊆ C.owned b :=
    erase_subset
  -- Clearing the count and giving the page back write no object that is still on a list.
  have hlate : Same ((C.owned b).erase (page, 0)) linked returned ∅ {page} :=
    ((hsame₂.mono hsub subset_rfl subset_rfl).trans hsame₃).mono (List.Subset.refl _)
      (by simp) (by simp)
  have hall : Same ((C.owned b).erase (page, 0)) b returned {a | a ∈ free k} {page} :=
    ((hsame₁.mono hsub subset_rfl subset_rfl).trans hlate).mono (List.Subset.refl _)
      (by simp) (by simp)
  have hperm := perm_cons_erase hpage
  have hleft : ∀ {p : Nat}, (p, 0) ∈ C.owned b → p ≠ page →
      (p, 0) ∈ (C.owned b).erase (page, 0) := fun hp hne =>
    (mem_erase_of_ne (by simpa using hne)).mpr hp
  have hloans := h.smalls_filter hpage hfull
  refine ⟨⟨length_setHead.trans h.heads, (length_modify _ _ _).trans h.counts, ?_, ?_, ?_,
    ?_, ?_, ?_, ?_, ?_, ?_, h.allocated, h.classed⟩, ?_⟩
  · exact fun p hp => h.class_lt p (mem_of_mem_erase hp)
  · refine chain_setHead h hk (hchain.congr fun a ha => ?_) fun c hc hne a ha => ?_
    · obtain ⟨hm, hne⟩ := mem_filter.mp ha
      obtain ⟨-, hrun', hspan, height⟩ := h.exists_run hk (mem_append_left _ hm)
      exact hlate.link _ (hleft hrun' (by simpa using hne)) _ hspan height (notMem_empty _)
    · obtain ⟨hpage', hrun', hspan, height⟩ := h.exists_run hc (mem_append_left _ ha)
      refine hall.link _ (hleft hrun' ?_) _ hspan height fun hm => ?_
      · rintro heq''
        exact hne (h.class_unique hpage' (heq'' ▸ hpage))
      · exact hne (h.class_of_mem hc (mem_append_left _ ha) hk (mem_append_left _ hm))
  · intro c hc
    by_cases heq' : c = k
    · subst heq'
      rw [update_self]
      refine (objectsOf_filter h hpage).symm.trans ?_
      refine ((h.objects c hc).filter _).trans ?_
      rw [filter_append]
      refine .append_left _ (.of_eq (filter_eq_self.mpr fun a ha => ?_))
      simpa using hloans a ha
    · rw [update_of_ne heq']
      refine List.Perm.trans ?_ (h.objects c hc)
      rw [← objectsOf_cons_other heq']
      exact (objectsOf_perm hperm).symm
  · rw [howned₃]
    have hruns := h.owned.trans ((hperm.map fun p => (p.1, 0)).append_right (larges loans))
    have herase := hruns.erase (page, 0)
    rwa [map_cons, cons_append, erase_cons_head] at herase
  · rw [howned₃]
    exact h.apart.sublist erase_sublist
  · rw [howned₃]
    exact fun run hrun' => h.aligned run (mem_of_mem_erase hrun')
  · rintro ⟨p, c⟩ hp
    have hp' := mem_of_mem_erase hp
    have hne := h.ne_of_mem_erase hpage hp
    have hold := h.slab _ hp'
    rw [hall.slab p (hleft (h.mem_owned hp') hne) hne, hold]
    by_cases heq' : c = k
    · subst heq'
      rw [update_self, countP_filter]
      refine countP_congr fun a _ => ?_
      simp only [decide_eq_true_eq, Bool.and_eq_true, ne_eq]
      exact ⟨fun h => ⟨h, h ▸ hne⟩, fun h => h.1⟩
    · rw [update_of_ne heq']
  · intro c hc
    have hn := h.perClass c hc
    rw [hperm.countP_eq] at hn
    change (heap.pagesPerClass.modify k (· - 1)).getD c 0 = _
    by_cases heq' : k = c
    · subst heq'
      rw [countP_cons_of_pos (by simp)] at hn
      rw [getD_modify_self _ (h.counts ▸ hc), hn, Nat.add_sub_cancel]
    · rw [countP_cons_of_neg (by simpa using heq')] at hn
      rw [getD_modify_other _ heq', hn]
  · change heap.slabPages - 1 = _
    rw [h.slabPages, length_erase_of_mem hpage]
  · intro c hc a ha
    obtain ⟨hpage', hrun', hspan, height⟩ := h.exists_run hc (mem_append_right _ ha)
    refine hall.link _ (hleft hrun' ?_) _ hspan height fun hm => ?_
    · rintro heq''
      obtain rfl := h.class_unique hpage' (heq'' ▸ hpage)
      exact hloans a ha heq''
    · obtain rfl := h.class_of_mem hc (mem_append_right _ ha) hk (mem_append_left _ hm)
      exact h.free_notMem_smalls hc hm ha

omit h in
lemma pushObjects_spec {n : Nat} {run : Nat × Nat}
    (hheads : heap.free.length = classes) (hk : k < classes)
    (hrun : run ∈ C.owned b)
    (hobjects : ∀ i < n, page + i * classSize k ≠ listEnd ∧
      8 ∣ page + i * classSize k ∧ page + i * classSize k ∈ runSpan run)
    (hlist : ∀ a ∈ list, 8 ∣ a ∧ (∃ run ∈ C.owned b, a ∈ runSpan run) ∧
      ∀ i < n, a ≠ page + i * classSize k)
    (hchain : Chain (readLink b) listEnd (heap.head k) list) :
    ∃ head' linked, pushObjects k page n heap b =
        (heap.setHead k head', linked) ∧ Chain (readLink linked) listEnd head'
        ((List.range n).map (fun i => page + i * classSize k) ++ list) ∧
      C.owned linked = C.owned b ∧ Same (C.owned b) b linked
        {a | ∃ i < n, a = page + i * classSize k} ∅ := by
  induction n generalizing heap b list with
  | zero =>
    refine ⟨heap.head k, b, ?_, hchain, rfl, .refl _ _ _ _⟩
    rw [setHead_head hheads hk]
    rfl
  | succ n ih =>
    obtain ⟨hne, height, hspan⟩ := hobjects n (lt_add_one _)
    set object := page + n * classSize k
    obtain ⟨howned, hread, hsame⟩ := C.write (heap.head k) hrun hspan height
    set linked := writeLink b object (heap.head k)
    have hheads' : (heap.setHead k object).free.length = classes :=
      length_setHead.trans hheads
    have hchain' : Chain (readLink linked) listEnd ((heap.setHead k object).head k)
        (object :: list) := by
      rw [head_setHead hheads hk, if_pos rfl]
      refine hchain.push hne hread fun a ha => ?_
      obtain ⟨height', ⟨run', hrun', hspan'⟩, hout⟩ := hlist a ha
      exact hsame.link _ hrun' _ hspan' height' (hout n (lt_add_one _))
    have hless : ∀ i < n, object ≠ page + i * classSize k := by
      intro i hi heq
      have hpos := (class_spec hk).1
      exact absurd (Nat.eq_of_mul_eq_mul_right hpos (Nat.add_left_cancel heq)) (by omega)
    have hlist' : ∀ a ∈ object :: list, 8 ∣ a ∧ (∃ run ∈ C.owned linked, a ∈ runSpan run) ∧
        ∀ i < n, a ≠ page + i * classSize k := by
      rw [howned]
      refine forall_mem_cons.mpr ⟨⟨height, ⟨run, hrun, hspan⟩, hless⟩, fun a ha => ?_⟩
      obtain ⟨height', hrun', hout⟩ := hlist a ha
      exact ⟨height', hrun', fun i hi => hout i (by omega)⟩
    obtain ⟨head', linked', heq, hchain'', howned', hsame'⟩ := ih hheads' (howned ▸ hrun)
      (fun i hi => hobjects i (by omega)) hlist' hchain'
    refine ⟨head', linked', ?_, ?_, howned'.trans howned, ?_⟩
    · rw [setHead_setHead] at heq
      exact heq
    · rw [range_succ, map_append, append_assoc]
      exact hchain''
    · rw [howned] at hsame'
      refine (hsame.trans hsame').mono (List.Subset.refl _) ?_ (by simp)
      rintro a (rfl | ⟨i, hi, rfl⟩)
      · exact ⟨n, lt_add_one _, rfl⟩
      · exact ⟨i, by omega, rfl⟩

lemma install_sound (hk : k < classes) (he : free k = [])
    {lent filled : σ} {head' : Nat} (hlent : allocatePages b 0 = (some page, lent))
    (hchain : Chain (readLink linked) listEnd head' (pageObjects k page))
    (hlinked : C.owned linked = C.owned lent)
    (hpushed : Same (C.owned lent) lent linked {a | a ∈ pageObjects k page} ∅)
    (hfilled : filled = setSlabFree linked page (min (objectsPerPage k) (2 ^ 16 - 1))) :
    let installed := { heap.setHead k head' with
      slabPages := heap.slabPages + 1
      pagesPerClass := heap.pagesPerClass.modify k (· + 1) }
    Sound C installed filled ((page, k) :: pages) (update free k (pageObjects k page)) loans ∧
      Unread b filled loans := by
  obtain ⟨haligned, hnonzero, hfresh, howned₁, hsame₁⟩ := C.allocate_some hlent
  rw [howned₁] at hlinked hpushed
  have hsmall := objectsPerPage_lt hk
  rw [Nat.min_eq_left (by omega)] at hfilled
  have hrun : (page, 0) ∈ C.owned linked := hlinked ▸ mem_cons_self
  obtain ⟨howned, hset, hsame₃⟩ := C.count (objectsPerPage k) hrun hsmall
  rw [← hfilled, hlinked] at howned hsame₃
  rw [← hfilled] at hset
  have hsub : C.owned b ⊆ (page, 0) :: C.owned b :=
    subset_cons_self _ _
  have hall : Same (C.owned b) b filled {a | a ∈ pageObjects k page} {page} :=
    ((hsame₁.trans (hpushed.mono hsub subset_rfl subset_rfl)).trans
      (hsame₃.mono hsub subset_rfl subset_rfl)).mono (List.Subset.refl _) (by simp) (by simp)
  have hobject : ∀ a ∈ pageObjects k page, a ∈ runSpan (page, 0) ∧ 8 ∣ a ∧ pageOf a = page := by
    intro a ha
    obtain ⟨hfrom, hto, height, hpageOf⟩ := mem_pageObjects hk haligned ha
    have hpos := (class_spec hk).1
    exact ⟨⟨hfrom, by dsimp only; omega⟩, height, hpageOf⟩
  have hold : ∀ c < classes, ∀ a ∈ free c ++ smalls c loans, readLink filled a = readLink b a := by
    intro c hc a ha
    obtain ⟨-, hrun', hspan, -⟩ := h.exists_run hc ha
    exact h.link_of_same hc ha hall fun hm =>
      disjoint_left.mp (hfresh _ hrun') (hobject a hm).1 hspan
  have ho : ∀ {p c : Nat}, (p, c) ∈ pages → p ≠ page := by
    rintro p c hp rfl
    exact disjoint_left.mp (hfresh _ (h.mem_owned hp)) (start_mem_runSpan _) (start_mem_runSpan _)
  refine ⟨⟨length_setHead.trans h.heads, (length_modify _ _ _).trans h.counts, ?_, ?_, ?_,
    ?_, ?_, ?_, ?_, ?_, ?_, h.allocated, h.classed⟩, ?_⟩
  · exact forall_mem_cons.mpr ⟨hk, h.class_lt⟩
  · refine chain_setHead h hk (hchain.congr fun a ha => ?_) fun c hc _ a ha =>
      hold c hc a (mem_append_left _ ha)
    exact hsame₃.link _ (.head _) _ (hobject a ha).1 (hobject a ha).2.1 (notMem_empty _)
  · intro c hc
    have hobjects := h.objects c hc
    by_cases heq : c = k
    · subst heq
      rw [he, nil_append] at hobjects
      rw [update_self, objectsOf_cons_self]
      exact hobjects.append_left _
    · rwa [update_of_ne heq, objectsOf_cons_other heq]
  · rw [howned]
    exact h.owned.cons _
  · rw [howned]
    exact pairwise_cons.mpr ⟨hfresh, h.apart⟩
  · rw [howned]
    exact forall_mem_cons.mpr ⟨⟨haligned, hnonzero⟩, h.aligned⟩
  · refine forall_mem_cons.mpr ⟨?_, ?_⟩
    · rw [hset, update_self, ← length_pageObjects]
      refine (countP_eq_length.mpr fun a ha => ?_).symm
      simpa using (hobject a ha).2.2
    · rintro ⟨p, c⟩ hp
      have hne := ho hp
      have hslab := h.slab _ hp
      rw [hall.slab p (h.mem_owned hp) hne, hslab]
      by_cases heq : c = k
      · subst heq
        rw [update_self, he]
        refine (countP_eq_zero.mpr fun a ha => ?_).symm
        rw [(hobject a ha).2.2]
        simpa using Ne.symm hne
      · rw [update_of_ne heq]
  · intro c hc
    have hn := h.perClass c hc
    by_cases heq : k = c
    · subst heq
      rw [countP_cons_of_pos (by simp), getD_modify_self _ (h.counts ▸ hc), hn]
    · rw [countP_cons_of_neg (by simpa using heq), getD_modify_other _ heq, hn]
  · change heap.slabPages + 1 = _
    rw [h.slabPages, length_cons]
  · exact fun c hc a ha => hold c hc a (mem_append_right _ ha)

lemma refill_sound (hk : k < classes) (he : free k = []) :
    ∃ result heap' b', heap.refill b k = (result, heap', b') ∧ Unread b b' loans ∧
      ((∃ e, result = .error e) ∧ Sound C heap' b' pages free loans ∨
        result = .ok () ∧ ∃ page, Sound C heap' b' ((page, k) :: pages)
          (update free k (pageObjects k page)) loans) := by
  rw [refill]
  rcases hpages : allocatePages b 0 with ⟨_ | page, lent⟩
  · obtain ⟨howned, hsame⟩ := C.allocate_none hpages
    exact ⟨_, _, _, rfl, fun c hc a ha =>
      h.link_of_same hc (mem_append_right _ ha) hsame (notMem_empty _),
      .inl ⟨⟨_, rfl⟩, h.of_same howned hsame (by simp)⟩⟩
  · obtain ⟨haligned, hnonzero, -, howned, -⟩ := C.allocate_some hpages
    set counted := { heap with
      slabPages := heap.slabPages + 1
      pagesPerClass := heap.pagesPerClass.modify k (· + 1) }
    have hobjects : ∀ i < objectsPerPage k, page + i * classSize k ≠ listEnd ∧
        8 ∣ page + i * classSize k ∧
        page + i * classSize k ∈ runSpan (page, 0) := by
      intro i hi
      obtain ⟨hfrom, hto, height, -⟩ := mem_pageObjects hk haligned
        (mem_map.mpr ⟨i, mem_range.mpr hi, rfl⟩)
      have hpos := (class_spec hk).1
      simp only [listEnd] at hnonzero ⊢
      exact ⟨by omega, height, ⟨hfrom, by dsimp only; omega⟩⟩
    have hhead := h.chain k hk
    rw [he] at hhead
    have hchain : Chain (readLink lent) listEnd (counted.head k) [] := hhead
    have hheads : counted.free.length = classes := h.heads
    have hrun : (page, 0) ∈ C.owned lent := howned ▸ mem_cons_self
    obtain ⟨head', linked, heq, hchain', howned', hsame'⟩ :=
      pushObjects_spec hheads hk hrun hobjects (by simp) hchain
    rw [append_nil] at hchain'
    have hwritten : Same (C.owned lent) lent linked {a | a ∈ pageObjects k page} ∅ := by
      refine hsame'.mono (List.Subset.refl _) ?_ subset_rfl
      rintro a ⟨i, hi, rfl⟩
      exact mem_map.mpr ⟨i, mem_range.mpr hi, rfl⟩
    obtain ⟨hinstalled, hu⟩ :=
      install_sound h hk he hpages hchain' howned' hwritten rfl
    dsimp only
    rw [heq]
    exact ⟨_, _, _, rfl, hu, .inr ⟨rfl, page, hinstalled⟩⟩

end

variable {order : Nat} {request : Request}

/-- What a call that hands out a block answers: an error, or the address of a new loan. -/
def Lends (C : Contract σ) (backing : σ) (loans : List Loan) (extent : Extent)
    (result : Except HeapError Nat × Heap × σ) : Prop :=
  Unread backing result.2.2 loans ∧ ∃ pages free,
    match result.1 with
    | .error _ => Sound C result.2.1 result.2.2 pages free loans
    | .ok address =>
      Sound C result.2.1 result.2.2 pages free (⟨address, extent⟩ :: loans)

lemma pageObjects_ne_nil (hk : k < classes) (page : Nat) : pageObjects k page ≠ [] := by
  have hpos := (class_spec hk).2.2.2.1
  rw [← length_pos_iff, length_pageObjects]
  exact hpos

lemma allocateSmall_spec (h : Sound C heap b pages free loans) (hk : k < classes) :
    Lends C b loans (.small k) (heap.allocateSmall b k) := by
  have hserve : ∀ {heap' : Heap} {b' : σ} {pages' : List (Nat × Nat)}
      {free' : Nat → List Nat} {addr : Nat} {rest : List Nat},
      Sound C heap' b' pages' free' loans → Unread b b' loans →
      free' k = addr :: rest → ∃ heap, heap'.pop b' k = (some addr, heap) ∧
      Lends C b loans (.small k) (.ok addr,
        { heap with allocated := heap.allocated + classSize k }, takeFromPage b' addr) := by
    intro heap' b' pages' free' addr rest h' hu hf
    have hchain := h'.chain k hk
    rw [hf] at hchain
    obtain ⟨hlent, hu'⟩ := lend_sound h' hk hf
    have hpop : heap'.pop b' k = (some addr, heap'.setHead k (readLink b' addr)) := by
      rw [pop, hchain.1, if_neg hchain.2.1]
    exact ⟨_, hpop, hu.trans hu', pages', _, hlent⟩
  rw [allocateSmall]
  have hchain := h.chain k hk
  split_ifs with hend
  · have he : free k = [] := by
      cases hf : free k with
      | nil => rfl
      | cons addr rest =>
        rw [hf] at hchain
        exact absurd (hchain.1.symm.trans hend) hchain.2.1
    obtain ⟨result, heap', b', heq, hu, hresult⟩ := refill_sound h hk he
    rw [heq]
    rcases hresult with ⟨⟨e, rfl⟩, h'⟩ | ⟨rfl, page, h'⟩
    · exact ⟨hu, pages, free, h'⟩
    · obtain ⟨addr, rest, hobjects⟩ := exists_cons_of_ne_nil (pageObjects_ne_nil hk page)
      obtain ⟨_, hpop, hlends⟩ := hserve h' hu ((update_self ..).trans hobjects)
      simpa only [hpop] using hlends
  · cases hf : free k with
    | nil =>
      rw [hf] at hchain
      exact absurd hchain hend
    | cons addr rest =>
      obtain ⟨_, hpop, hlends⟩ := hserve h (fun _ _ _ _ => rfl) hf
      simpa only [hpop] using hlends

lemma class_lt_of_classOf (hk : classOf request = some k) : k < classes := by
  rw [classOf] at hk
  split_ifs at hk
  exact (List.findIdx?_eq_some_iff_getElem.mp hk).1

lemma lendPages_sound (h : Sound C heap b pages free loans)
    (hpages : allocatePages b order = (some addr, after)) : Sound C { heap with
        largePages := heap.largePages + 2 ^ order
        allocated := heap.allocated + 2 ^ order * pageSize } after pages free
        (⟨addr, .large order⟩ :: loans) ∧
      Unread b after loans := by
  obtain ⟨haligned, hnonzero, hfresh, howned, hsame⟩ := C.allocate_some hpages
  have hlink : ∀ c < classes, ∀ a ∈ free c ++ smalls c loans,
      readLink after a = readLink b a := fun c hc a ha =>
    h.link_of_same hc ha hsame (notMem_empty _)
  refine ⟨⟨h.heads, h.counts, h.class_lt, ?_, ?_, ?_, ?_, ?_, ?_, h.perClass,
    h.slabPages, ?_, ?_⟩, fun c hc a ha => hlink c hc a (mem_append_right _ ha)⟩
  · intro c hc
    exact (h.chain c hc).congr fun a ha => hlink c hc a (mem_append_left _ ha)
  · intro c hc
    rw [smalls_cons_large]
    exact h.objects c hc
  · rw [howned, larges_cons_large]
    exact (h.owned.cons _).trans perm_middle.symm
  · rw [howned]
    exact pairwise_cons.mpr ⟨hfresh, h.apart⟩
  · rw [howned]
    exact forall_mem_cons.mpr ⟨⟨haligned, hnonzero⟩, h.aligned⟩
  · intro p hp
    rw [hsame.slab p.1 (h.mem_owned hp) (notMem_empty _)]
    exact h.slab p hp
  · rw [bytesOf_cons, ← h.allocated, Nat.add_comm]
    rfl
  · refine forall_mem_cons.mpr ⟨?_, h.classed⟩
    intro c hc
    exact absurd hc nofun

lemma allocate_spec (request : Request) (extent : Extent) (h : Sound C heap b pages free loans)
    (hextent : ∀ e, extentOf request = some e → e = extent) :
    Lends C b loans extent (heap.allocate b request) := by
  rw [allocate]
  split_ifs
  · exact ⟨fun _ _ _ _ => rfl, pages, free, h⟩
  split
  · rename_i hk
    split
    · exact ⟨fun _ _ _ _ => rfl, pages, free, h⟩
    · rename_i order horder
      obtain rfl := hextent (.large order) (by rw [extentOf, hk, horder])
      split
      · rename_i after hpages
        obtain ⟨howned, hsame⟩ := C.allocate_none hpages
        exact ⟨fun c hc a ha =>
          h.link_of_same hc (mem_append_right _ ha) hsame (notMem_empty _), pages,
          free, h.of_same howned hsame (by simp)⟩
      · rename_i addr after hpages
        obtain ⟨hlent, hu⟩ := lendPages_sound h hpages
        exact ⟨hu, pages, free, hlent⟩
  · rename_i k hk
    obtain rfl := hextent (.small k) (by rw [extentOf, hk])
    exact allocateSmall_spec h (class_lt_of_classOf hk)

def Settles (C : Contract σ) (backing : σ) (loans : List Loan) (result : Heap × σ) : Prop :=
  Unread backing result.2 loans ∧ ∃ pages free, Sound C result.1 result.2 pages free loans

lemma deallocateSmall_spec (h : Sound C heap b pages free (⟨addr, .small k⟩ :: loans)) :
    Settles C b loans (heap.deallocateSmall b k addr) := by
  have hk := h.classed _ (.head _) k rfl
  obtain ⟨hregained, hu⟩ := regain_sound h rfl rfl
  have hm : addr ∈ smalls k (⟨addr, .small k⟩ :: loans) := by simp
  obtain ⟨hp, hrun, hspan, height⟩ :=
    h.exists_run hk (mem_append_right (free k) hm)
  rw [deallocateSmall, push]
  dsimp only
  rw [giveBackIfEmpty]
  split_ifs with hpartial hlast
  · exact ⟨hu, pages, _, hregained⟩
  · exact ⟨hu, pages, _, hregained⟩
  · have howned := (C.write (heap.head k) hrun hspan height).1
    rw [not_not] at hpartial
    have hn : min (slabFree (writeLink b addr (heap.head k)) (pageOf addr) + 1)
        (2 ^ 16 - 1) < 2 ^ 16 := by
      omega
    have hfull := (C.count _ (howned ▸ hrun) hn).2.1
    obtain ⟨hreturned, hu'⟩ := return_sound hregained hp (hfull.trans hpartial) rfl rfl
    exact ⟨hu.trans hu', _, _, hreturned⟩

lemma settlePages_sound {order : Nat}
    (h : Sound C heap b pages free (⟨addr, .large order⟩ :: loans)) :
    Settles C b loans ({ heap with
          largePages := heap.largePages - 2 ^ order
          allocated := heap.allocated - 2 ^ order * pageSize },
        deallocatePages b addr order) := by
  have hrun : (addr, order) ∈ C.owned b := by
    rw [h.owned.mem_iff, larges_cons_large]
    exact mem_append_right _ mem_cons_self
  obtain ⟨howned, hsame⟩ := C.deallocate hrun
  dsimp only at howned hsame
  have hr : ((C.owned b).erase (addr, order)).Perm
      (pages.map (fun page => (page.1, 0)) ++ larges loans) := by
    refine List.Perm.cons_inv (a := (addr, order)) ?_
    refine (perm_cons_erase hrun).symm.trans (h.owned.trans ?_)
    rw [larges_cons_large]
    exact perm_middle
  have hpages : ∀ p ∈ pages, (p.1, 0) ∈ (C.owned b).erase (addr, order) :=
    fun p hp => hr.mem_iff.mpr (mem_append_left _ (mem_map.mpr ⟨p, hp, rfl⟩))
  have hlink : ∀ c < classes, ∀ a ∈ free c ++ smalls c loans,
      readLink (deallocatePages b addr order) a = readLink b a := by
    intro c hc a ha
    have hm : a ∈ free c ++ smalls c (⟨addr, .large order⟩ :: loans) := by
      rwa [smalls_cons_large]
    obtain ⟨hpage, -, hspan, height⟩ := h.exists_run hc hm
    exact hsame.link _ (hpages _ hpage) _ hspan height (notMem_empty _)
  refine ⟨fun c hc a ha => hlink c hc a (mem_append_right _ ha), pages, free,
    h.heads, h.counts, h.class_lt, ?_, ?_, ?_, ?_, ?_, ?_, h.perClass,
    h.slabPages, ?_, fun l hloan => h.classed l (.tail _ hloan)⟩
  · intro c hc
    exact (h.chain c hc).congr fun a ha => hlink c hc a (mem_append_left _ ha)
  · intro c hc
    have hobjects := h.objects c hc
    rwa [smalls_cons_large] at hobjects
  · rw [howned]
    exact hr
  · rw [howned]
    exact h.apart.sublist erase_sublist
  · rw [howned]
    exact fun run hm => h.aligned run (mem_of_mem_erase hm)
  · intro p hp
    rw [hsame.slab p.1 (hpages p hp) (notMem_empty _)]
    exact h.slab p hp
  · have hbytes := h.allocated
    rw [bytesOf_cons] at hbytes
    simp only [hbytes, Extent.bytes]
    omega

lemma deallocate_spec {extent : Extent} (h : Sound C heap b pages free (⟨addr, extent⟩ :: loans))
    (hextent : extentOf request = some extent) :
    Settles C b loans (heap.deallocate b addr request) := by
  rw [deallocate]
  rw [extentOf] at hextent
  split at hextent
  · rename_i k hk
    obtain rfl := Option.some.inj hextent
    rw [hk]
    exact deallocateSmall_spec h
  · rename_i hk
    rw [hk]
    split at hextent
    · rename_i order horder
      obtain rfl := Option.some.inj hextent
      rw [horder]
      exact settlePages_sound h
    · cases hextent

end Ferrix.KernelHeap.HeapCalls
