import Xv6.RefCount.Invariant

/-!
# Xv6.RefCount.Walk

How `kalloc`, `walkpgdir` and `mappages` end, from any state of the invariant.

`walkpgdir` with `alloc` may add a page table; `Walk` collects everything a
caller needs to know about that: no mapping of any directory changes, no user
page looks different, and every frame it takes fills one absent directory entry
(`credit`), so a caller that starts with enough free frames cannot run out.
-/

namespace Xv6

open Function (update)

variable {man : Nat → Prop} {dirs kp : Finset Nat} {k : Kmem} {d va v : Nat}

/-- How many of the directory entries in `I` have no page table. -/
def absentPdes (I : Finset Nat) (k : Kmem) (d : Nat) : Nat :=
  (I.filter fun i => has (k.mem d i) .p = false).card

theorem absentPdes_le (I : Finset Nat) (k : Kmem) (d : Nat) : absentPdes I k d ≤ I.card :=
  Finset.card_filter_le _ _

/-- Entering a page table fills one absent entry. -/
theorem absentPdes_newTable {I : Finset Nat} {i g : Nat} (hi : i ∈ I)
    (habs : has (k.mem d i) .p = false) :
    absentPdes I (k.store d i (tableEntry g)) d + 1 = absentPdes I k d := by
  have hmem : i ∈ I.filter fun j => has (k.mem d j) .p = false := by
    simp [hi, habs]
  have hset : (I.filter fun j => has ((k.store d i (tableEntry g)).mem d j) .p = false) =
      (I.filter fun j => has (k.mem d j) .p = false).erase i := by
    ext j
    by_cases hj : j = i
    · subst hj; simp [store_pde_mem]
    · simp [store_pde_mem, hj]
  rw [absentPdes, absentPdes, hset, Finset.card_erase_of_mem hmem]
  have := Finset.card_pos.mpr ⟨i, hmem⟩
  omega

theorem pteLoc_eq (hva : va < 2 ^ 32) : pteLoc k d (vpn va) =
      if has (k.mem d (pdx va)) .p then some (p2v (pteAddr (k.mem d (pdx va))), ptx va)
      else none := by
  rw [pdx_eq hva]
  rfl

theorem ends_walkpgdir_false {Q : Option (Nat × Nat) → Kmem → Prop} {E : Panic → Prop}
    (hva : va < 2 ^ 32) :
    Ends (walkpgdir d va false) k Q E ↔ Q (pteLoc k d (vpn va)) k := by
  rw [walkpgdir, ends_bind, ends_readWord, ends_ite, pteLoc_eq hva]
  by_cases hp : has (k.mem d (pdx va)) .p = true
  · simp [hp]
  · simp [hp]

variable [Layout]

/-! ### `kalloc` -/

/-- Counting a failed allocation changes nothing else. -/
theorem Inv.failed (h : Inv man dirs kp k) : Inv man dirs kp { k with oom := k.oom + 1 } :=
  h.congr_mem (fun _ _ => rfl) rfl rfl

/-- `kalloc` fails exactly on an empty free list, and otherwise hands out its
head as a new kernel page. -/
theorem kalloc_spec (h : Inv man dirs kp k) :
    Ends kalloc k (fun r k' => match r with
      | none => k.freelist = [] ∧ k' = { k with oom := k.oom + 1 }
      | some f => ∃ rest, k.freelist = f :: rest ∧
          k' = { k with freelist := rest, refcnt := update k.refcnt f 1 } ∧
          f ∉ kp ∧ f ∉ tabFrames dirs k ∧ Inv man dirs (insert f kp) k') := by
  cases hfree : k.freelist with
  | nil =>
    rw [ends_kalloc_nil hfree]
    exact ⟨rfl, by simp [hfree]⟩
  | cons f rest =>
    have hf : f ∈ k.freelist := by rw [hfree]; exact List.mem_cons_self
    rw [ends_kalloc_cons hfree (h.free_range hf)]
    obtain ⟨hkp, htab⟩ := h.free_not_kp hf
    exact ⟨rest, rfl, rfl, hkp, htab, h.kalloc hfree⟩

/-- `kalloc` of the head `g` of the free list, followed by `memset(g, 0, PGSIZE)`. -/
def Kmem.zalloc (k : Kmem) (g : Nat) (rest : List Nat) : Kmem :=
  ({ k with freelist := rest, refcnt := update k.refcnt g 1 } : Kmem).fill g (fun _ => 0#32)

section
variable {g : Nat} {rest : List Nat}

omit [Layout] in
@[simp] theorem Kmem.zalloc_mem_self (j : Nat) : (k.zalloc g rest).mem g j = 0#32 := by
  simp [Kmem.zalloc, Kmem.fill]

omit [Layout] in
theorem Kmem.zalloc_mem_of_ne {f : Nat} (hne : f ≠ g) : (k.zalloc g rest).mem f = k.mem f := by
  simp [Kmem.zalloc, Kmem.fill, hne]

section
variable (h : Inv man dirs kp k) (hfree : k.freelist = g :: rest)
include h hfree

theorem Inv.zalloc : Inv man dirs (insert g kp) (k.zalloc g rest) := by
  have h1 := h.kalloc hfree
  exact h1.fill (h1.kp_not_tab (Finset.mem_insert_self g kp)) _

theorem Inv.apart_zalloc : Apart man dirs d k (k.zalloc g rest) := by
  have hg : g ∈ k.freelist := by rw [hfree]; exact List.mem_cons_self
  have hnd : g ∉ dirs := fun hd => (h.free_not_kp hg).2 (dirs_subset_tabFrames hd)
  exact (Apart.alloc ((h.ledger.free_iff g).mp hg).1 rest).trans (.fill hnd _)

theorem Inv.pte_zalloc (hd : d ∈ dirs) (hv : v < npages) :
    pte (k.zalloc g rest) d v = pte k d v ∧ pteLoc (k.zalloc g rest) d v = pteLoc k d v := by
  have hg : g ∈ k.freelist := by rw [hfree]; exact List.mem_cons_self
  refine pte_congr (fun f hf => Kmem.zalloc_mem_of_ne ?_) hd hv
  rintro rfl
  exact (h.free_not_kp hg).2 hf

theorem Inv.upage_zalloc (hd : d ∈ dirs) (hv : v < nupages) :
    upage (k.zalloc g rest) d v = upage k d v :=
  (h.kalloc hfree).upage_fill_kp (Finset.mem_insert_self g kp) _ hd hv

end

end

/-! ### `walkpgdir` -/

/-- What `walkpgdir(…, 1)` may have done; `I` are the directory entries it may have
filled. -/
structure Walk (man : Nat → Prop) (dirs kp : Finset Nat) (d : Nat) (I : Finset Nat)
    (k k' : Kmem) : Prop where
  inv : Inv man dirs kp k'
  pte : ∀ d' ∈ dirs, ∀ v < npages, pte k' d' v = pte k d' v
  upage : ∀ d' ∈ dirs, ∀ v < nupages, upage k' d' v = upage k d' v
  kmem : ∀ f ∈ kp, k'.mem f = k.mem f
  oom : k'.oom = k.oom
  credit : k'.freelist.length + absentPdes I k d = k.freelist.length + absentPdes I k' d
  pde : ∀ i, i ∉ I → k'.mem d i = k.mem d i
  le : k'.freelist.length ≤ k.freelist.length
  apart : Apart man dirs d k k'

theorem Walk.refl (h : Inv man dirs kp k) (d : Nat) (I : Finset Nat) : Walk man dirs kp d I k k :=
  ⟨h, fun _ _ _ _ => rfl, fun _ _ _ _ => rfl, fun _ _ => rfl, rfl, rfl, fun _ _ => rfl, le_rfl,
    .refl k⟩

omit [Layout] in
/-- Of more entries, those that were not touched count the same. -/
theorem absentPdes_widen {I J : Finset Nat} {k' : Kmem} (hIJ : I ⊆ J)
    (hsame : ∀ i, i ∉ I → k'.mem d i = k.mem d i) :
    absentPdes J k d + absentPdes I k' d = absentPdes J k' d + absentPdes I k d := by
  have hsplit : ∀ k0 : Kmem, absentPdes J k0 d = absentPdes I k0 d + absentPdes (J \ I) k0 d := by
    intro k0
    rw [absentPdes, absentPdes, absentPdes, ← Finset.card_union_of_disjoint
      (Finset.disjoint_filter_filter Finset.disjoint_sdiff), ← Finset.filter_union,
      Finset.union_sdiff_of_subset hIJ]
  have hrest : absentPdes (J \ I) k' d = absentPdes (J \ I) k d := by
    refine congrArg Finset.card (Finset.filter_congr fun i hi => ?_)
    rw [hsame i (Finset.mem_sdiff.mp hi).2]
  rw [hsplit k, hsplit k', hrest]
  omega

/-- Adding a page table for the kernel page `g` just taken from the free list. -/
theorem Inv.walk_newTable {I : Finset Nat} {i g : Nat} {rest : List Nat} (h : Inv man dirs kp k)
    (hd : d ∈ dirs) (hi : i < 1024) (hI : i ∈ I) (habs : has (k.mem d i) .p = false)
    (hfree : k.freelist = g :: rest) :
    Walk man dirs kp d I k ((k.zalloc g rest).store d i (tableEntry g)) := by
  have hg : g ∈ k.freelist := by rw [hfree]; exact List.mem_cons_self
  obtain ⟨hgkp, hgtab⟩ := h.free_not_kp hg
  have hgd : d ≠ g := by rintro rfl; exact hgtab (dirs_subset_tabFrames hd)
  have hmem : g ∈ insert g kp := Finset.mem_insert_self g kp
  have h1 := h.zalloc hfree
  have hzero : ∀ j, (k.zalloc g rest).mem g j = 0#32 := fun j => Kmem.zalloc_mem_self j
  have habs1 : has ((k.zalloc g rest).mem d i) .p = false := by
    rw [Kmem.zalloc_mem_of_ne hgd]
    exact habs
  have h2 := h1.newTable hd hi habs1 hmem hzero
  rw [Finset.erase_insert hgkp] at h2
  refine ⟨h2, fun d' hd' v hv => ?_, fun d' hd' v hv => ?_, fun f hf => ?_, rfl, ?_,
    fun j hj => ?_, ?_, (h.apart_zalloc hfree).trans (.store fun _ => rfl)⟩
  · rw [h1.tables.pte_newTable hd habs1 (h1.lt_npages (h1.kp_man hmem)) hmem hzero hd' hv]
    exact (h.pte_zalloc hfree hd' hv).1
  · rw [h1.upage_newTable hd habs1 hmem hzero hd' hv, h.upage_zalloc hfree hd' hv]
  · have hfg : f ≠ g := by rintro rfl; exact hgkp hf
    have hfd : f ≠ d := by rintro rfl; exact h.kp_not_tab hf (dirs_subset_tabFrames hd)
    simp [Kmem.store, hfd, Kmem.zalloc_mem_of_ne hfg]
  · have hcnt := absentPdes_newTable (g := g) hI habs1
    have hsame : absentPdes I (k.zalloc g rest) d = absentPdes I k d := by
      simp only [absentPdes, Kmem.zalloc_mem_of_ne hgd]
    rw [hsame] at hcnt
    show rest.length + absentPdes I k d = k.freelist.length + _
    rw [hfree, List.length_cons]
    omega
  · have hji : j ≠ i := by rintro rfl; exact hj hI
    rw [store_pde_mem, if_neg fun hc => hji hc.2, Kmem.zalloc_mem_of_ne hgd]
  · show rest.length ≤ k.freelist.length
    rw [hfree, List.length_cons]
    omega

/-- `walkpgdir(…, 1)` finds or makes the page table, unless there is no frame
for it. -/
theorem walkpgdir_spec {I : Finset Nat} (h : Inv man dirs kp k) (hd : d ∈ dirs)
    (hva : va < 2 ^ 32) (hI : vpn va / 1024 ∈ I) :
    Ends (walkpgdir d va true) k (fun r k' => match r with
      | none => k.freelist = [] ∧ pteLoc k d (vpn va) = none ∧ k' = { k with oom := k.oom + 1 }
      | some p => Walk man dirs kp d I k k' ∧ pteLoc k' d (vpn va) = some p ∧
          (pteLoc k d (vpn va) = none → k.freelist ≠ []) ∧
          (pteLoc k d (vpn va) ≠ none → k' = k)) := by
  have hpd : pdx va < 1024 := by unfold pdx; omega
  rw [walkpgdir, ends_bind, ends_readWord, ends_ite]
  refine ⟨fun hp => ?_, fun hp => ?_⟩
  · rw [ends_pure]
    have hloc : pteLoc k d (vpn va) = some (p2v (pteAddr (k.mem d (pdx va))), ptx va) := by
      rw [pteLoc_eq hva]
      simp [hp]
    exact ⟨Walk.refl h d I, hloc, by simp [hloc], fun _ => rfl⟩
  · have hloc : pteLoc k d (vpn va) = none := by
      rw [pteLoc_eq hva]
      simp [hp]
    rw [if_neg (by simp)]
    refine (kalloc_spec h).bind ?_
    intro r k' hr
    cases r with
    | none => exact .ret ⟨hr.1, hloc, hr.2⟩
    | some g =>
      obtain ⟨rest, hfree, rfl, -, -, -⟩ := hr
      simp only [ends_bind, ends_memset_zero, ends_writeWord, ends_pure]
      have habs : has (k.mem d (pdx va)) .p = false := by simpa using hp
      have hw := h.walk_newTable hd hpd (by rw [pdx_eq hva]; exact hI) habs hfree
      refine ⟨hw, ?_, by simp [hfree], fun hne => absurd hloc hne⟩
      have hg : g < npages := by
        have := h.free_range (f := g) (by rw [hfree]; exact List.mem_cons_self)
        simp only [v2p, pgsize, phystop, npages] at *
        omega
      have hent : ∀ k0 : Kmem, (k0.store d (pdx va) (tableEntry g)).mem d (pdx va) =
        tableEntry g := by
        intro k0
        rw [store_pde_mem, if_pos ⟨rfl, rfl⟩]
      rw [← tableEntry, pteLoc_eq hva, hent, if_pos (by simp)]
      exact congrArg (fun f => some (f, ptx va)) (tableEntry_frame hg)

/-! ### `mappages`

A user page is mapped by one round of the loop, whatever it is mapped to; what
the entry then does to the reference counts is the caller's business. -/

omit [Layout] in
theorem mappages_one (hva : va % 4096 = 0) (hlt : va < 2 ^ 32) (pa : Nat) (perm : Word) :
    mappages d va pgsize pa perm = (do
      match ← walkpgdir d va true with
      | none => return -1
      | some p => do
        if has (← readWord p) .p then throw .remap
        else do
          writeWord p (mkPte pa (perm ||| PteFlag.p.mask))
          return 0) := by
  have hlast : pgrounddown (u32 (va + pgsize - 1)) = va := by
    simp only [pgrounddown, u32, pgsize]
    omega
  have hfirst : pgrounddown va = va := by
    simp only [pgrounddown, pgsize]
    omega
  rw [mappages, hlast, hfirst, show npages = 1048575 + 1 from rfl, mappagesLoop]
  refine bind_congr fun r => ?_
  cases r with
  | none => rfl
  | some p =>
    dsimp only
    rw [if_pos rfl]

/-- `mappages` on one page: it runs out of memory for the page table, or
overwrites the entry, or panics on a present one. -/
theorem mappages_page {I : Finset Nat} (h : Inv man dirs kp k) (hd : d ∈ dirs)
    (hva : va % 4096 = 0) (hlt : va < 2 ^ 32) (hI : vpn va / 1024 ∈ I) (pa : Nat) (perm : Word) :
    Ends (mappages d va pgsize pa perm) k (fun r k' =>
      (r = -1 ∧ k.freelist = [] ∧ pteLoc k d (vpn va) = none ∧ k' = { k with oom := k.oom + 1 }) ∨
      (r = 0 ∧ has (pte k d (vpn va)) .p = false ∧ (pteLoc k d (vpn va) = none → k.freelist ≠ []) ∧
        ∃ k1 t j, Walk man dirs kp d I k k1 ∧ pteLoc k1 d (vpn va) = some (t, j) ∧
          k' = k1.store t j (mkPte pa (perm ||| PteFlag.p.mask))))
      (fun e => e = .remap ∧ has (pte k d (vpn va)) .p = true) := by
  rw [mappages_one hva hlt, ends_bind]
  refine (walkpgdir_spec h hd hlt hI).of_safe ?_
  intro r k1 hr
  cases r with
  | none => exact .ret (.inl ⟨rfl, hr⟩)
  | some p =>
    obtain ⟨hw, hloc, hne, -⟩ := hr
    have hpte : k1.mem p.1 p.2 = pte k d (vpn va) := by
      rw [← hw.pte d hd _ (vpn_lt hlt), pte_of_loc hloc]
    simp only [ends_bind, ends_readWord, ends_ite, hpte, ends_throw, ends_writeWord, ends_pure]
    refine ⟨fun hp => ⟨trivial, hp⟩, fun hp => .inr ⟨trivial, by simpa using hp, hne, ?_⟩⟩
    exact ⟨k1, p.1, p.2, hw, hloc, rfl⟩

/-- Handing the kernel page `g` to user page `va`. -/
theorem mappages_user {g : Nat} {perm : Word} (h : Inv man dirs kp k) (hd : d ∈ dirs)
    (hva : va % 4096 = 0) (hv : vpn va < nupages) (hg : g ∈ kp) (hperm : LowBits perm) :
    Ends (mappages d va pgsize (v2p g) perm) k (fun r k' =>
      (r = -1 ∧ k.freelist = [] ∧ pteLoc k d (vpn va) = none ∧ k' = { k with oom := k.oom + 1 }) ∨
      (r = 0 ∧ has (pte k d (vpn va)) .p = false ∧ (pteLoc k d (vpn va) = none → k.freelist ≠ []) ∧
        Inv man dirs (kp.erase g) k' ∧
        upage k' d (vpn va) = some (mkPte (v2p g) (perm ||| PteFlag.p.mask), k.mem g) ∧
        (∀ d' ∈ dirs, ∀ v' < nupages, ¬ (d' = d ∧ v' = vpn va) → upage k' d' v' = upage k d' v') ∧
        k'.oom = k.oom ∧ k.freelist.length ≤ k'.freelist.length + 1 ∧
        k'.freelist.length ≤ k.freelist.length ∧ Apart man dirs d k k'))
      (fun e => e = .remap ∧ has (pte k d (vpn va)) .p = true) := by
  have hlt : va < 2 ^ 32 := by
    simp only [vpn, pgsize, nupages, kernbase] at hv
    omega
  refine (mappages_page h hd hva hlt (Finset.mem_singleton_self _) (v2p g) perm).imp ?_
  rintro r k' (hfail | ⟨hr, habs, hne, k1, t, j, hw, hloc, rfl⟩)
  · exact .inl hfail
  · refine .inr ⟨hr, habs, hne, ?_⟩
    have hvn := hv.trans nupages_lt
    have hp : has (mkPte (v2p g) (perm ||| PteFlag.p.mask)) .p = true := by simp
    have hfr : pteFrame (mkPte (v2p g) (perm ||| PteFlag.p.mask)) = g :=
      pteFrame_mkPte (h.lt_npages (h.kp_man hg)) (hperm.or (lowBits_mask _))
    have habs1 : has (pte k1 d (vpn va)) .p = false := by rw [hw.pte d hd _ hvn]; exact habs
    refine ⟨hw.inv.mapUser hd hv hloc habs1 hg hp hfr, ?_, fun d' hd' v' hv' hne' => ?_, hw.oom, ?_,
      hw.le, hw.apart.trans (.pte hw.inv.tables hd hvn hloc)⟩
    · refine upage_eq_some.mpr ⟨hp, ?_, ?_⟩
      · rw [hw.inv.tables.pte_store _ hd hvn hloc hd hvn, if_pos ⟨rfl, rfl⟩]
      · rw [hfr, store_mem_of_not_tab hd hvn hloc (hw.inv.kp_not_tab hg), hw.kmem g hg]
    · rw [hw.inv.upage_store hd hvn hloc hd' hv' hne', hw.upage d' hd' v' hv']
    · have := hw.credit
      have := absentPdes_le {vpn va / 1024} k d
      rw [Finset.card_singleton] at this
      show k.freelist.length ≤ k1.freelist.length + 1
      omega

/-! ### Kernel mappings -/

omit [Layout] in
theorem absentPdes_pos {I : Finset Nat} (hI : v / 1024 ∈ I) (hloc : pteLoc k d v = none) :
    0 < absentPdes I k d :=
  Finset.card_pos.mpr ⟨v / 1024, Finset.mem_filter.mpr ⟨hI, pteLoc_eq_none.mp hloc⟩⟩

/-- Finding the entry of a kernel page and writing it. -/
theorem walkpgdir_kern {I : Finset Nat} {w : Word} (h : Inv man dirs kp k) (hd : d ∈ dirs)
    (hva : va < 2 ^ 32) (hI : vpn va / 1024 ∈ I) (hlo : nupages ≤ vpn va) (hu : has w .u = false)
    (hcow : has w .cow = false) :
    Ends (walkpgdir d va true) k (fun r k' => match r with
      | none => k.freelist = [] ∧ pteLoc k d (vpn va) = none ∧ k' = { k with oom := k.oom + 1 }
      | some p => k'.mem p.1 p.2 = pte k d (vpn va) ∧ Inv man dirs kp (k'.store p.1 p.2 w) ∧
          (∀ d' ∈ dirs, ∀ v < nupages, upage (k'.store p.1 p.2 w) d' v = upage k d' v) ∧
          (∀ v < npages, pte (k'.store p.1 p.2 w) d v = if v = vpn va then w else pte k d v) ∧
          k'.oom = k.oom ∧ k'.freelist.length + absentPdes I k d =
            k.freelist.length + absentPdes I (k'.store p.1 p.2 w) d ∧
          (∀ i, i ∉ I → (k'.store p.1 p.2 w).mem d i = k.mem d i) ∧
          Apart man dirs d k (k'.store p.1 p.2 w)) := by
  refine (walkpgdir_spec h hd hva hI).imp ?_
  intro r k1 hr
  cases r with
  | none => exact hr
  | some p =>
    obtain ⟨hw, hloc, -, -⟩ := hr
    have hvn := vpn_lt hva
    have hdir : (k1.store p.1 p.2 w).mem d = k1.mem d :=
      hw.inv.tables.store_mem_dir hd hvn hloc hd
    refine ⟨?_, hw.inv.mapKern hd hvn hloc hlo hu hcow, ?_, ?_, hw.oom, ?_,
      fun i hi => by rw [hdir]; exact hw.pde i hi, hw.apart.trans (.pte hw.inv.tables hd hvn hloc)⟩
    · rw [← hw.pte d hd _ hvn, pte_of_loc hloc]
    · intro d' hd' v hv
      have hne : ¬ (d' = d ∧ v = vpn va) := by omega
      rw [hw.inv.upage_store hd hvn hloc hd' hv hne, hw.upage d' hd' v hv]
    · intro v hv
      rw [hw.inv.tables.pte_store w hd hvn hloc hd hv, hw.pte d hd v hv]
      simp only [true_and]
    · have : absentPdes I (k1.store p.1 p.2 w) d = absentPdes I k1 d := by
        simp only [absentPdes, hdir]
      rw [this]
      exact hw.credit

/-- How a sequence of kernel mappings leaves memory: users see no difference,
and it only fails for want of frames for the page tables in `I`. -/
structure KernMapped (man : Nat → Prop) (dirs kp : Finset Nat) (d : Nat) (I : Finset Nat)
    (k : Kmem) (r : Int) (k' : Kmem) : Prop where
  inv : Inv man dirs kp k'
  upage : ∀ d' ∈ dirs, ∀ v < nupages, upage k' d' v = upage k d' v
  ends : (r = 0 ∧ k'.oom = k.oom ∧
      k'.freelist.length + absentPdes I k d = k.freelist.length + absentPdes I k' d) ∨
    (r = -1 ∧ k.oom < k'.oom ∧ k.freelist.length < absentPdes I k d)
  pde : ∀ i, i ∉ I → k'.mem d i = k.mem d i
  apart : Apart man dirs d k k'

/-- Mapping one page first does not change what the rest can do. -/
theorem KernMapped.after {I : Finset Nat} {k1 k' : Kmem} {r : Int}
    (h : KernMapped man dirs kp d I k1 r k')
    (hupage : ∀ d' ∈ dirs, ∀ v < nupages, Xv6.upage k1 d' v = Xv6.upage k d' v)
    (hoom : k1.oom = k.oom)
    (hcredit : k1.freelist.length + absentPdes I k d = k.freelist.length + absentPdes I k1 d)
    (hpde : ∀ i, i ∉ I → k1.mem d i = k.mem d i) (hapart : Apart man dirs d k k1) :
    KernMapped man dirs kp d I k r k' where
  inv := h.inv
  upage d' hd' v hv := (h.upage d' hd' v hv).trans (hupage d' hd' v hv)
  ends := by
    rcases h.ends with ⟨hr, ho, hc⟩ | ⟨hr, ho, hc⟩
    · exact .inl ⟨hr, ho.trans hoom, by omega⟩
    · exact .inr ⟨hr, by omega, by omega⟩
  pde i hi := (h.pde i hi).trans (hpde i hi)
  apart := hapart.trans h.apart

theorem mappagesLoop_kern {I : Finset Nat} {last : Nat} {perm : Word} (hd : d ∈ dirs)
    (hlast : last < 2 ^ 32) (hlast' : last % 4096 = 0) (hu : has perm .u = false)
    (hcow : has perm .cow = false) :
    ∀ (fuel a pa : Nat) (k : Kmem), Inv man dirs kp k → a % 4096 = 0 → pa % 4096 = 0 →
      kernbase ≤ a → a ≤ last → last < a + 4096 * fuel →
      (∀ v, vpn a ≤ v → v ≤ vpn last → v / 1024 ∈ I ∧ has (pte k d v) .p = false) →
      Ends (mappagesLoop d last perm fuel a pa) k (fun r k' => KernMapped man dirs kp d I k r k' ∧
        (∀ v < npages, ¬ (vpn a ≤ v ∧ v ≤ vpn last) → pte k' d v = pte k d v) ∧
        (r = 0 → ∀ v, vpn a ≤ v → v ≤ vpn last → has (pte k' d v) .p = true)) := by
  intro fuel
  induction fuel with
  | zero => intro a pa k h ha hpa hk hle hfuel; omega
  | succ fuel ih =>
    intro a pa k h ha hpa hk hle hfuel habs
    have hv : nupages ≤ vpn a := by
      simp only [vpn, nupages, kernbase, pgsize] at *
      omega
    have hvl : vpn a ≤ vpn last := Nat.div_le_div_right hle
    have hln := vpn_lt hlast
    have hpa' : pa = v2p (pa / 4096) := by
      simp only [v2p, pgsize]
      omega
    have hpres : has (mkPte pa (perm ||| PteFlag.p.mask)) .p = true := by rw [hpa']; simp
    rw [mappagesLoop]
    refine (walkpgdir_kern (w := mkPte pa (perm ||| PteFlag.p.mask)) h hd (by omega)
      (habs _ le_rfl hvl).1 hv (by rw [hpa']; simp [hu]) (by rw [hpa']; simp [hcow])).bind ?_
    intro r k1 hr
    cases r with
    | none =>
      obtain ⟨hfree, hloc, rfl⟩ := hr
      have hpos := absentPdes_pos (habs _ le_rfl hvl).1 hloc
      have hend : k.freelist.length < absentPdes I k d := by simpa [hfree] using hpos
      exact .ret ⟨⟨h.failed, fun _ _ _ _ => rfl, .inr ⟨rfl, Nat.lt_succ_self _, hend⟩,
        fun _ _ => rfl, ⟨fun _ _ _ => rfl, fun _ _ => rfl⟩⟩, fun _ _ _ => rfl,
        fun h0 => absurd h0 (by decide)⟩
    | some p =>
      obtain ⟨hread, hinv, hup, hpte, hoom, hcredit, hpde, hapart⟩ := hr
      have hnp : ¬ has (k1.mem p.1 p.2) .p = true := by
        rw [hread, (habs _ le_rfl hvl).2]
        simp
      simp only [ends_bind, ends_readWord]
      rw [if_neg hnp, ends_bind, ends_writeWord, ends_ite]
      refine ⟨fun he => ?_, fun he => ?_⟩
      · refine .ret ⟨⟨hinv, hup, .inl ⟨rfl, hoom, hcredit⟩, hpde, hapart⟩,
          fun v hv hout => ?_, fun _ v hlo hhi => ?_⟩
        · rw [hpte v hv, if_neg (by rw [← he] at hout; omega)]
        · rw [hpte v (by omega), if_pos (by rw [← he] at hhi; omega)]
          exact hpres
      · have hwrap : u32 (a + pgsize) = a + 4096 := by
          simp only [u32, pgsize]
          omega
        have hvs : vpn (a + 4096) = vpn a + 1 := by
          simp only [vpn, pgsize]
          omega
        rw [hwrap]
        refine (ih (a + 4096) _ _ hinv (by omega) ?_ (by omega) (by omega) (by omega) ?_).imp ?_
        · simp only [u32, pgsize]
          omega
        · intro v hlo hhi
          obtain ⟨hI, hp⟩ := habs v (by omega) hhi
          refine ⟨hI, ?_⟩
          rw [hpte v (by omega), if_neg (by omega)]
          exact hp
        · rintro r k' ⟨hk', hout, hin⟩
          rw [hvs] at hout hin
          refine ⟨hk'.after hup hoom hcredit hpde hapart, fun v hv hno => ?_,
            fun hr v hlo hhi => ?_⟩
          · rw [hout v hv (by omega), hpte v hv, if_neg (by omega)]
          · by_cases hva : v = vpn a
            · rw [hout v (by omega) (by omega), hpte v (by omega), if_pos hva]
              exact hpres
            · exact hin hr v (by omega) hhi

theorem mappages_kern {I : Finset Nat} {size pa : Nat} {perm : Word} (h : Inv man dirs kp k)
    (hd : d ∈ dirs) (hva : va % 4096 = 0) (hpa : pa % 4096 = 0) (hk : kernbase ≤ va)
    (hsize : 0 < size) (hend : va + size ≤ 2 ^ 32) (hsize' : size % 4096 = 0)
    (hu : has perm .u = false) (hcow : has perm .cow = false)
    (hI : ∀ v, va ≤ v * 4096 → v * 4096 < va + size → v / 1024 ∈ I)
    (habs : ∀ v, va ≤ v * 4096 → v < npages → has (pte k d v) .p = false) :
    Ends (mappages d va size pa perm) k (fun r k' => KernMapped man dirs kp d I k r k' ∧
        (∀ v < npages, ¬ (va ≤ v * 4096 ∧ v * 4096 < va + size) → pte k' d v = pte k d v) ∧
        (r = 0 → ∀ v, va ≤ v * 4096 → v * 4096 < va + size → has (pte k' d v) .p = true)) := by
  have hlast : pgrounddown (u32 (va + size - 1)) = va + size - 4096 := by
    simp only [pgrounddown, u32, pgsize]
    omega
  have hfirst : pgrounddown va = va := by
    simp only [pgrounddown, pgsize]
    omega
  have hrange : ∀ v, vpn va ≤ v ∧ v ≤ vpn (va + size - 4096) ↔
      va ≤ v * 4096 ∧ v * 4096 < va + size := fun v => by
    simp only [vpn, pgsize]
    omega
  rw [mappages, hlast, hfirst]
  refine (mappagesLoop_kern (I := I) hd (by omega) (by omega) hu hcow npages va pa k h hva hpa hk
    (by omega) (by simp only [npages]; omega) fun v hlo hhi => ?_).imp ?_
  · obtain ⟨hlo, hhi⟩ := (hrange v).mp ⟨hlo, hhi⟩
    exact ⟨hI v hlo hhi, habs v hlo (by simp only [npages]; omega)⟩
  · rintro r k' ⟨hk', hout, hin⟩
    simp only [hrange, ← and_imp] at hout hin ⊢
    exact ⟨hk', hout, hin⟩

end Xv6
