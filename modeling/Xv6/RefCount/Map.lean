import Mathlib.Order.Interval.Finset.Nat
import Xv6.RefCount.Unmap

/-!
# Xv6.RefCount.Map

How the functions that add pages end: `setupkvm`, `allocuvm`,
`vm_alloc_mmap_page` and `inituvm`. The one panic left is `remap`, and only
where the page to be mapped was present.
-/

namespace Xv6

open Function (update)

variable [Layout] {man : Nat → Prop} {dirs kp : Finset Nat} {k k' : Kmem} {d v va g : Nat}

/-! ### `setupkvm` -/

/-- The size of a row, `phys_end - phys_start`. -/
def Kmap.size (r : Kmap) : Nat := u32 (r.physEnd + 2 ^ 32 - r.physStart)

/-- The directory entries the rows of `kmap` need. -/
def kmapPdes : Finset Nat := Finset.Ico 512 568 ∪ Finset.Ico 1016 1024

omit [Layout] in
theorem kmapPdes_card : kmapPdes.card = 64 := by decide +kernel

/-- A row maps whole pages of the kernel half, not for users. -/
structure Kmap.Ok (r : Kmap) : Prop where
  kern : kernbase ≤ r.virt
  virt_aligned : r.virt % 4096 = 0
  phys_aligned : r.physStart % 4096 = 0
  not_user : has r.perm .u = false
  not_cow : has r.perm .cow = false
  size_pos : 0 < r.size
  size_aligned : r.size % 4096 = 0
  fits : r.virt + r.size ≤ 2 ^ 32
  pdes : ∀ v, r.virt ≤ v * 4096 → v * 4096 < r.virt + r.size → v / 1024 ∈ kmapPdes

/-- Rows in ascending order from address `lo`, not overlapping. -/
def KmapFrom : Nat → List Kmap → Prop
  | _, [] => True
  | lo, r :: rest => lo ≤ r.virt ∧ r.Ok ∧ KmapFrom (r.virt + r.size) rest

theorem kmap_ok : KmapFrom 0 kmap := by
  have h1 := Layout.kernlink_lt_data
  have h2 := Layout.data_aligned
  have h3 := Layout.data_le_kend
  have h4 := Layout.kend_le
  have h5 : vlowtop = 0x80400000 := by decide
  rw [h5] at h4
  simp only [kernlink, kernbase, extmem] at h1
  refine ⟨?_, ⟨?_, ?_, ?_, ?_, ?_, ?_, ?_, ?_, ?_⟩, ?_, ⟨?_, ?_, ?_, ?_, ?_, ?_, ?_, ?_, ?_⟩, ?_,
    ⟨?_, ?_, ?_, ?_, ?_, ?_, ?_, ?_, ?_⟩, ?_, ⟨?_, ?_, ?_, ?_, ?_, ?_, ?_, ?_, ?_⟩, trivial⟩
  all_goals
    simp only [Kmap.size, kernbase, kernlink, extmem, phystop, devspace, u32, has_mask, has_zero,
      reduceCtorEq, decide_false, kmapPdes, Finset.mem_union, Finset.mem_Ico]
  all_goals omega

/-- Every directory entry of the kernel half is needed by some row. -/
theorem kmap_covers : ∀ i ∈ kmapPdes, ∃ r ∈ kmap, r.virt ≤ i * 1024 * 4096 ∧
    i * 1024 * 4096 < r.virt + r.size := by
  intro i hi
  have h1 := Layout.kernlink_lt_data
  have h2 := Layout.data_le_kend
  have h3 := Layout.kend_le
  have h4 : vlowtop = 0x80400000 := by decide
  rw [h4] at h3
  simp only [kernlink, kernbase, extmem] at h1
  simp only [kmapPdes, Finset.mem_union, Finset.mem_Ico] at hi
  simp only [kmap, List.mem_cons, List.not_mem_nil, or_false, exists_eq_or_imp, exists_eq_left,
    Kmap.size, kernbase, kernlink, extmem, phystop, devspace, u32]
  omega

theorem setupkvmLoop_spec (hd : d ∈ dirs) : ∀ (rows : List Kmap) (lo : Nat) (k : Kmem),
    Inv man dirs kp k → KmapFrom lo rows →
    (∀ v, lo ≤ v * 4096 → v < npages → has (pte k d v) .p = false) →
    Ends (setupkvmLoop d rows) k (fun r k' => match r with
      | none => Inv man (dirs.erase d) kp k' ∧
          (∀ d' ∈ dirs.erase d, ∀ v < nupages, upage k' d' v = upage k d' v) ∧
          k.oom < k'.oom ∧ k.freelist.length < absentPdes kmapPdes k d ∧ Apart man dirs d k k'
      | some d' => d' = d ∧ KernMapped man dirs kp d kmapPdes k 0 k' ∧
          (∀ v < npages, v * 4096 < lo → pte k' d v = pte k d v) ∧
          ∀ r ∈ rows, ∀ v, r.virt ≤ v * 4096 → v * 4096 < r.virt + r.size →
            has (pte k' d v) .p = true)
  | [], _, k, h, _, _ =>
    .ret ⟨rfl, ⟨h, fun _ _ _ _ => rfl, .inl ⟨rfl, rfl, rfl⟩, fun _ _ => rfl, .refl k⟩,
      fun _ _ _ => rfl, nofun⟩
  | r :: rest, lo, k, h, hrows, habs => by
    obtain ⟨hlo, hok, hrest⟩ := hrows
    have hva := hok.virt_aligned
    have hfits := hok.fits
    rw [setupkvmLoop]
    refine (mappages_kern h hd hva hok.phys_aligned hok.kern hok.size_pos hok.fits
      hok.size_aligned hok.not_user hok.not_cow hok.pdes fun v hv => habs v (by omega)).bind ?_
    rintro ret k1 ⟨hk1, hout, hin⟩
    rcases hk1.ends with ⟨rfl, hoom, hcredit⟩ | ⟨rfl, hoom, hshort⟩
    · rw [if_neg (by decide)]
      refine (setupkvmLoop_spec hd rest _ k1 hk1.inv hrest fun v hv hvn => ?_).imp ?_
      · rw [hout v hvn (by omega)]
        exact habs v (by omega) hvn
      · intro o k2 hr
        cases o with
        | none =>
          obtain ⟨hinv, hup, hoom2, hshort, hapart⟩ := hr
          refine ⟨hinv, fun d' hd' v hv => ?_, by omega, by omega, hk1.apart.trans hapart⟩
          rw [hup d' hd' v hv, hk1.upage d' (Finset.mem_of_mem_erase hd') v hv]
        | some d' =>
          obtain ⟨hd', hk2, hbelow, hrows⟩ := hr
          refine ⟨hd', hk2.after hk1.upage hoom hcredit hk1.pde hk1.apart, fun v hv hlt => ?_,
            fun r' hr' v hlo' hhi => ?_⟩
          · rw [hbelow v hv (by omega), hout v hv (by omega)]
          · rcases List.mem_cons.mp hr' with rfl | hr'
            · rw [hbelow v (by simp only [npages]; omega) hhi]
              exact hin rfl v hlo' hhi
            · exact hrows r' hr' v hlo' hhi
    · rw [if_pos (by decide)]
      refine (freevm_spec hk1.inv hd).bind ?_
      rintro - k2 ⟨hinv, hup, hoom2, -, hapart⟩
      refine .ret ⟨hinv, fun d' hd' v hv => ?_, by omega, hshort, hk1.apart.trans hapart⟩
      rw [hup d' hd' v hv, hk1.upage d' (Finset.mem_of_mem_erase hd') v hv]

/-- `setupkvm` makes a directory with no user pages, for 65 frames, or leaves everything as it
was. -/
theorem setupkvm_spec (h : Inv man dirs kp k) :
    Ends setupkvm k (fun r k' => match r with
      | none => Inv man dirs kp k' ∧ (∀ d ∈ dirs, ∀ v < nupages, upage k' d v = upage k d v) ∧
          k.oom < k'.oom ∧ k.freelist.length ≤ 64 ∧ ∀ c, Apart man dirs c k k'
      | some d => d ∉ dirs ∧ d ∉ kp ∧ Inv man (insert d dirs) kp k' ∧
          (∀ d' ∈ dirs, ∀ v < nupages, upage k' d' v = upage k d' v) ∧
          (∀ v < nupages, upage k' d v = none) ∧ k'.oom = k.oom ∧
          k.freelist.length = k'.freelist.length + 65 ∧
          (∀ i < 512, has (k'.mem d i) .p = false) ∧ ∀ c, Apart man dirs c k k') := by
  rw [setupkvm]
  refine (kalloc_spec h).bind ?_
  intro r k1 hr
  cases r with
  | none =>
    obtain ⟨hfree, rfl⟩ := hr
    exact .ret ⟨h.failed, fun _ _ _ _ => rfl, Nat.lt_succ_self _, by simp [hfree],
      fun _ => ⟨fun _ _ _ => rfl, fun _ _ => rfl⟩⟩
  | some d =>
    obtain ⟨rest, hfree, rfl, hkp, htab, -⟩ := hr
    rw [ends_bind, ends_memset_zero]
    have hzero : ∀ j, (k.zalloc d rest).mem d j = 0#32 := fun j => Kmem.zalloc_mem_self j
    have hdd : d ∉ dirs := fun hm => htab (dirs_subset_tabFrames hm)
    have h1 := (h.zalloc hfree).newDir (Finset.mem_insert_self d kp) hzero
    rw [Finset.erase_insert hkp] at h1
    refine (setupkvmLoop_spec (Finset.mem_insert_self d dirs) kmap 0 _ h1 kmap_ok
      fun v _ _ => by rw [pte_zero_dir hzero, has_zero]).imp ?_
    intro r k2 hr
    have hlen : k.freelist.length = (k.zalloc d rest).freelist.length + 1 := by
      rw [hfree]
      rfl
    -- of the directories only the new one is written to
    have hother : ∀ {k2} c, Apart man (insert d dirs) d (k.zalloc d rest) k2 →
        Apart man dirs c k k2 := fun c h2 =>
      (h.apart_zalloc hfree).trans (h2.mono fun d1 hd1 _ =>
        ⟨Finset.mem_insert_of_mem hd1, fun he => hdd (he ▸ hd1)⟩)
    have hzeros : absentPdes kmapPdes (k.zalloc d rest) d = 64 := by
      rw [absentPdes, Finset.filter_true_of_mem fun i _ => by rw [hzero, has_zero], kmapPdes_card]
    cases r with
    | none =>
      obtain ⟨hinv, hup, hoom, hshort, hapart⟩ := hr
      rw [Finset.erase_insert hdd] at hinv hup
      refine ⟨hinv, fun d' hd' v hv => ?_, hoom, by omega, fun c => hother c hapart⟩
      rw [hup d' hd' v hv, h.upage_zalloc hfree hd' hv]
    | some d2 =>
      obtain ⟨rfl, hk2, -, hrows⟩ := hr
      -- every table of the kernel half is there
      have hfull : absentPdes kmapPdes k2 d2 = 0 := by
        refine Finset.card_eq_zero.mpr (Finset.filter_eq_empty_iff.mpr fun i hi habs => ?_)
        obtain ⟨r, hr, hlo, hhi⟩ := kmap_covers i hi
        have hp := hrows r hr (i * 1024) hlo hhi
        rw [pte_of_no_loc (pteLoc_eq_none.mpr (by rwa [Nat.mul_div_cancel i (by decide)])),
          has_zero] at hp
        cases hp
      obtain ⟨-, hoom, hcredit⟩ | ⟨hr, -, -⟩ := hk2.ends
      · refine ⟨hdd, hkp, hk2.inv, fun d' hd' v hv => ?_, fun v hv => ?_, hoom, by omega,
          fun i hi => ?_, fun c => hother c hk2.apart⟩
        · rw [hk2.upage d' (Finset.mem_insert_of_mem hd') v hv, h.upage_zalloc hfree hd' hv]
        · rw [hk2.upage _ (Finset.mem_insert_self _ _) v hv, upage_eq_none, pte_zero_dir hzero,
            has_zero]
        · rw [hk2.pde i fun hmem => ?_, hzero, has_zero]
          simp only [kmapPdes, Finset.mem_union, Finset.mem_Ico] at hmem
          omega
      · exact absurd hr (by decide)

/-! ### New user pages -/

/-- A page that was just added: zeroed, for the user, not copy-on-write, and
writable as asked. -/
def FreshPage (writable : Bool) (x : Option (Word × (Nat → Word))) : Prop :=
  ∃ e, x = some (e, fun _ => 0#32) ∧ has e .w = writable ∧ has e .u = true ∧ has e .cow = false

/-- The frames a new page at `v` takes: its own, and one for an absent table. -/
def framesFor (k : Kmem) (d v : Nat) : Nat := if pteLoc k d v = none then 2 else 1

omit [Layout] in
theorem framesFor_le (k : Kmem) (d v : Nat) : framesFor k d v ≤ 2 := by
  unfold framesFor
  split <;> decide

omit [Layout] in
theorem framesFor_pos (k : Kmem) (d v : Nat) : 0 < framesFor k d v := by
  unfold framesFor
  split <;> decide

/-- Page `va` of `d` was absent and is now a fresh page. -/
structure Added (man : Nat → Prop) (dirs kp : Finset Nat) (d v : Nat) (writable : Bool)
    (k k' : Kmem) : Prop where
  inv : Inv man dirs kp k'
  absent : upage k d v = none
  fresh : FreshPage writable (upage k' d v)
  same : ∀ d' ∈ dirs, ∀ v' < nupages, ¬ (d' = d ∧ v' = v) → upage k' d' v' = upage k d' v'
  oom : k'.oom = k.oom
  enough : framesFor k d v ≤ k.freelist.length
  free : k.freelist.length ≤ k'.freelist.length + 2
  taken : k'.freelist.length < k.freelist.length
  apart : Apart man dirs d k k'

/-- Mapping a zeroed page just taken from the free list. -/
theorem mappages_fresh {perm : Word} {rest : List Nat} (h : Inv man dirs kp k) (hd : d ∈ dirs)
    (hfree : k.freelist = g :: rest) (hva : va % 4096 = 0) (hv : vpn va < nupages)
    (hperm : LowBits perm) (hu : has perm .u = true) (hcow : has perm .cow = false) :
    Ends (mappages d va pgsize (v2p g) perm) (k.zalloc g rest) (fun r k' =>
      (r = -1 ∧ k' = { k.zalloc g rest with oom := k.oom + 1 } ∧
        k.freelist.length < framesFor k d (vpn va)) ∨
      (r = 0 ∧ Added man dirs kp d (vpn va) (has perm .w) k k'))
      (fun e => e = .remap ∧ upage k d (vpn va) ≠ none) := by
  have hvn := hv.trans nupages_lt
  have hg : g ∈ k.freelist := by rw [hfree]; exact List.mem_cons_self
  obtain ⟨hpte, hloc⟩ := h.pte_zalloc hfree hd hvn
  have hlen : k.freelist.length = (k.zalloc g rest).freelist.length + 1 := by
    rw [hfree]
    rfl
  refine (mappages_user (h.zalloc hfree) hd hva hv (Finset.mem_insert_self g kp) hperm).mono ?_ ?_
  · rintro r k' (⟨rfl, hnil, hnone, rfl⟩ |
      ⟨rfl, habs, hne, hinv, hup, hsame, hoom, hlen', hle, hapart⟩)
    · refine .inl ⟨rfl, rfl, ?_⟩
      rw [framesFor, if_pos (by rw [← hloc]; exact hnone), hlen, hnil]
      decide
    · rw [Finset.erase_insert (h.free_not_kp hg).1] at hinv
      rw [hpte] at habs
      refine .inr ⟨rfl, hinv, upage_eq_none.mpr habs, ?_, ?_, hoom, ?_, by omega, by omega,
        (h.apart_zalloc hfree).trans hapart⟩
      · refine ⟨mkPte (v2p g) (perm ||| PteFlag.p.mask), hup.trans ?_, by simp, by simp [hu],
          by simp [hcow]⟩
        rw [Option.some.injEq, Prod.mk.injEq]
        exact ⟨rfl, funext fun j => Kmem.zalloc_mem_self j⟩
      · intro d' hd' v' hv' hne'
        rw [hsame d' hd' v' hv' hne', h.upage_zalloc hfree hd' hv']
      · unfold framesFor
        split
        · next hnone =>
            have := List.length_pos_iff.mpr (hne (by rw [hloc]; exact hnone))
            omega
        · omega
  · rintro e ⟨rfl, hp⟩
    refine ⟨rfl, ?_⟩
    rw [Ne, upage_eq_none, ← hpte, hp]
    simp

/-- Giving back a page that could not be mapped. -/
theorem kfree_zalloc_spec {rest : List Nat} (h : Inv man dirs kp k)
    (hfree : k.freelist = g :: rest) :
    Inv man dirs (insert g kp) { k.zalloc g rest with oom := k.oom + 1 } ∧
      (∀ d ∈ dirs, ∀ v < nupages,
        upage { k.zalloc g rest with oom := k.oom + 1 } d v = upage k d v) ∧
      ∀ d, Apart man dirs d k { k.zalloc g rest with oom := k.oom + 1 } :=
  ⟨(h.zalloc hfree).failed, fun _ hd _ hv => h.upage_zalloc hfree hd hv,
    fun d => ⟨(h.apart_zalloc (d := d) hfree).dir, (h.apart_zalloc (d := d) hfree).refcnt⟩⟩

/-- `vm_alloc_mmap_page` adds a zeroed page with the region's permission, fails
exactly for want of frames, and panics exactly on a present page. -/
theorem vmAllocMmapPage_spec {prot : Word} (h : Inv man dirs kp k) (hd : d ∈ dirs)
    (hva : va < kernbase) :
    Ends (vmAllocMmapPage d va prot) k (fun r k' =>
      (r = -1 ∧ Inv man dirs kp k' ∧ (∀ d' ∈ dirs, ∀ v' < nupages, upage k' d' v' = upage k d' v') ∧
        k.oom < k'.oom ∧ k.freelist.length < framesFor k d (vpn va) ∧ Apart man dirs d k k') ∨
      (r = 0 ∧ Added man dirs kp d (vpn va) (canWrite prot) k k'))
      (fun e => e = .remap ∧ upage k d (vpn va) ≠ none) := by
  have hround : pgrounddown va = vpn va * 4096 := rfl
  have hvpn : vpn (vpn va * 4096) = vpn va := by
    simp only [vpn, pgsize]
    omega
  have hv : vpn va < nupages := by
    simp only [vpn, nupages, kernbase, pgsize] at *
    omega
  rw [vmAllocMmapPage, ends_bind]
  refine (kalloc_spec h).of_safe ?_
  intro r k1 hr
  cases r with
  | none =>
    obtain ⟨hnil, rfl⟩ := hr
    refine .ret (.inl ⟨rfl, h.failed, fun _ _ _ _ => rfl, Nat.lt_succ_self _, ?_,
      ⟨fun _ _ _ => rfl, fun _ _ => rfl⟩⟩)
    rw [hnil, framesFor]
    split <;> decide
  | some g =>
    obtain ⟨rest, hfree, rfl, hkp, -, -⟩ := hr
    have hperm : ∃ perm : Word, (if canWrite prot = true then PteFlag.u.mask ||| PteFlag.w.mask
        else PteFlag.u.mask) = perm ∧ LowBits perm ∧ has perm .u = true ∧
        has perm .cow = false ∧ has perm .w = canWrite prot := by
      refine ⟨_, rfl, ?_⟩
      split
      · next hc => exact ⟨(lowBits_mask _).or (lowBits_mask _), by simp [hc]⟩
      · next hc => exact ⟨lowBits_mask _, by simp [hc]⟩
    obtain ⟨perm, hpeq, hlow, hu, hcow, hw⟩ := hperm
    rw [ends_bind, ends_memset_zero, ends_bind, hround, hpeq]
    refine (mappages_fresh h hd hfree (Nat.mul_mod_left (vpn va) 4096) (by rw [hvpn]; exact hv)
      hlow hu hcow).mono ?_ (fun e hE => by rwa [hvpn] at hE)
    rintro r k2 (⟨rfl, rfl, hshort⟩ | ⟨rfl, hadd⟩)
    · obtain ⟨hinv, hup, hapart⟩ := kfree_zalloc_spec h hfree
      rw [if_pos (by decide), ends_bind]
      refine (kfree_spec hinv (Finset.mem_insert_self g kp)).of_safe ?_
      rintro - k3 ⟨rfl, hinv3, hup3, hoom3, -⟩
      rw [Finset.erase_insert hkp] at hinv3
      refine .ret (.inl ⟨rfl, hinv3, fun d' hd' v' hv' => ?_, ?_, by rwa [hvpn] at hshort,
        (hapart d).trans (hinv.apart_kfree (Finset.mem_insert_self g kp))⟩)
      · rw [hup3 d' hd' v' hv', hup d' hd' v' hv']
      · rw [hoom3]
        exact Nat.lt_succ_self _
    · rw [if_neg (by decide)]
      rw [hvpn, hw] at hadd
      exact .ret (.inr ⟨rfl, hadd⟩)

/-! ### `allocuvm` -/

/-- The pages of `[oldsz, newsz)` were absent and are now fresh writable pages. -/
structure Grown (man : Nat → Prop) (dirs kp : Finset Nat) (d oldsz newsz : Nat)
    (k k' : Kmem) : Prop where
  inv : Inv man dirs kp k'
  fresh : ∀ v < nupages, oldsz ≤ v * 4096 → v * 4096 < newsz →
    upage k d v = none ∧ FreshPage true (upage k' d v)
  same : ∀ d' ∈ dirs, ∀ v < nupages, ¬ (d' = d ∧ oldsz ≤ v * 4096 ∧ v * 4096 < newsz) →
    upage k' d' v = upage k d' v
  oom : k'.oom = k.oom
  free : k.freelist.length + 2 * (oldsz / 4096) ≤
    k'.freelist.length + 2 * ((newsz + 4095) / 4096)
  apart : Apart man dirs d k k'

theorem Grown.add {k1 : Kmem} {oldsz : Nat} (hd : d ∈ dirs) (hge : oldsz ≤ v * 4096)
    (h : Grown man dirs kp d oldsz (v * 4096) k k1) (hv : v < nupages)
    (ha : Added man dirs kp d v true k1 k') :
    Grown man dirs kp d oldsz (v * 4096 + 4096) k k' where
  inv := ha.inv
  fresh v' hv' hlo hhi := by
    by_cases he : v' = v
    · subst he
      refine ⟨?_, ha.fresh⟩
      rw [← h.same d hd v' hv (by omega)]
      exact ha.absent
    · rw [ha.same d hd v' hv' (fun hc => he hc.2)]
      have hlt : v' < v := by omega
      exact h.fresh v' hv' hlo (Nat.mul_lt_mul_of_pos_right hlt (by decide))
  same d' hd' v' hv' hne := by
    have hne1 : ¬ (d' = d ∧ v' = v) := by
      rintro ⟨rfl, rfl⟩
      exact hne ⟨rfl, hge, by omega⟩
    have hne2 : ¬ (d' = d ∧ oldsz ≤ v' * 4096 ∧ v' * 4096 < v * 4096) :=
      fun ⟨hc, hlo, hhi⟩ => hne ⟨hc, hlo, Nat.lt_add_right _ hhi⟩
    rw [ha.same d' hd' v' hv' hne1, h.same d' hd' v' hv' hne2]
  oom := ha.oom.trans h.oom
  free := by
    have hone := ha.free
    have hall := h.free
    omega
  apart := h.apart.trans ha.apart

theorem Grown.congr {oldsz newsz newsz' : Nat} (h : Grown man dirs kp d oldsz newsz k k')
    (heq : ∀ v, oldsz ≤ v * 4096 → (v * 4096 < newsz' ↔ v * 4096 < newsz))
    (hround : (newsz + 4095) / 4096 = (newsz' + 4095) / 4096) :
    Grown man dirs kp d oldsz newsz' k k' where
  inv := h.inv
  fresh v hv hlo hhi := h.fresh v hv hlo ((heq v hlo).mp hhi)
  same d' hd' v hv hne := h.same d' hd' v hv fun ⟨hdd, hlo, hhi⟩ =>
    hne ⟨hdd, hlo, (heq v hlo).mpr hhi⟩
  oom := h.oom
  free := hround ▸ h.free
  apart := h.apart

/-- The state `allocuvm` leaves when it runs out of memory: the range is
unmapped, and an allocation has failed. -/
structure Abandoned (man : Nat → Prop) (dirs kp : Finset Nat) (d oldsz newsz : Nat)
    (k k' : Kmem) : Prop where
  inv : Inv man dirs kp k'
  gone : ∀ v < nupages, oldsz ≤ v * 4096 → v * 4096 < newsz → upage k' d v = none
  same : ∀ d' ∈ dirs, ∀ v < nupages, ¬ (d' = d ∧ oldsz ≤ v * 4096 ∧ v * 4096 < newsz) →
    upage k' d' v = upage k d' v
  oom : k.oom < k'.oom
  short : k.freelist.length + 2 * (oldsz / 4096) < 2 * ((newsz + 4095) / 4096)
  apart : Apart man dirs d k k'

/-- Undoing a growth that could not go on. `k1` is the state with the pages added
so far, and `k2` the same with the failed allocation counted. -/
theorem Abandoned.of_grown {oldsz a newsz : Nat} {kp' : Finset Nat} {k1 k2 k3 : Kmem}
    (h : Grown man dirs kp d oldsz a k k1) (ha : a < newsz) (hmod : a % 4096 = 0)
    (hshort : k1.freelist.length < 2)
    (hup : ∀ d' ∈ dirs, ∀ v < nupages, upage k2 d' v = upage k1 d' v) (hoom : k1.oom < k2.oom)
    (hun : Unmapped man dirs kp' d (fun v => oldsz ≤ v * 4096 ∧ v * 4096 < newsz) k2 k3)
    (hinv : Inv man dirs kp k') (hup' : ∀ d' ∈ dirs, ∀ v < nupages, upage k' d' v = upage k3 d' v)
    (hd : d ∈ dirs) (hoom' : k'.oom = k3.oom) (h2 : Apart man dirs d k1 k2)
    (h3 : Apart man dirs d k3 k') : Abandoned man dirs kp d oldsz newsz k k' where
  inv := hinv
  gone v hv hlo hhi := by
    rw [hup' d hd v hv]
    exact hun.gone v hv ⟨hlo, hhi⟩
  same d' hd' v hv hne := by
    rw [hup' d' hd' v hv, hun.same d' hd' v hv hne, hup d' hd' v hv,
      h.same d' hd' v hv (by omega)]
  oom := by
    rw [hoom', hun.oom, ← h.oom]
    exact hoom
  short := by
    have hall := h.free
    omega
  apart := ((h.apart.trans h2).trans hun.apart).trans h3

theorem allocuvmPage_spec {oldsz newsz a : Nat} {k1 : Kmem} (hd : d ∈ dirs)
    (hnew : newsz < kernbase)
    (ha : a < newsz) (hmod : a % 4096 = 0) (hge : oldsz ≤ a)
    (h : Grown man dirs kp d oldsz a k k1) :
    Ends (allocuvmPage d oldsz newsz a) k1
      (fun r k' => match r with
        | none => Grown man dirs kp d oldsz (a + 4096) k k'
        | some n => n = 0 ∧ Abandoned man dirs kp d oldsz newsz k k')
      (fun e => e = .remap ∧
        ∃ v < nupages, oldsz ≤ v * 4096 ∧ v * 4096 < newsz ∧ upage k d v ≠ none) := by
  have hva : a = vpn a * 4096 := by
    simp only [vpn, pgsize]
    omega
  have hv : vpn a < nupages := by
    simp only [vpn, nupages, kernbase, pgsize] at *
    omega
  rw [allocuvmPage, ends_bind]
  refine (kalloc_spec h.inv).of_safe ?_
  intro r k2 hr
  cases r with
  | none =>
    obtain ⟨hnil, rfl⟩ := hr
    rw [ends_bind]
    refine (deallocuvm_spec h.inv.failed hd hnew.le).of_safe ?_
    rintro - k3 ⟨-, hun⟩
    have hup : ∀ d' ∈ dirs, ∀ v < nupages,
        upage { k1 with oom := k1.oom + 1 } d' v = upage k1 d' v := fun _ _ _ _ => rfl
    exact .ret ⟨rfl, Abandoned.of_grown h ha hmod (by simp [hnil]) hup (Nat.lt_succ_self _)
      hun hun.inv
      (fun _ _ _ _ => rfl) hd rfl ⟨fun _ _ _ => rfl, fun _ _ => rfl⟩ (.refl k3)⟩
  | some g =>
    obtain ⟨rest, hfree, rfl, hkp, -, -⟩ := hr
    rw [ends_bind, ends_memset_zero, ends_bind]
    refine (mappages_fresh h.inv hd hfree hmod hv ((lowBits_mask _).or (lowBits_mask _))
      (by simp) (by simp)).mono ?_ ?_
    · rintro r k2 (⟨rfl, rfl, hshort⟩ | ⟨rfl, hadd⟩)
      · obtain ⟨hinv, hup, hapart⟩ := kfree_zalloc_spec h.inv hfree
        have hshort1 : k1.freelist.length < 2 := hshort.trans_le (framesFor_le ..)
        rw [if_pos (by decide), ends_bind]
        refine (deallocuvm_spec hinv hd hnew.le).of_safe ?_
        rintro - k3 ⟨-, hun⟩
        rw [ends_bind]
        refine (kfree_spec hun.inv (Finset.mem_insert_self g kp)).of_safe ?_
        rintro - k4 ⟨rfl, hinv4, hup4, hoom4, -⟩
        rw [Finset.erase_insert hkp] at hinv4
        exact .ret ⟨rfl, Abandoned.of_grown h ha hmod hshort1 hup (Nat.lt_succ_self _) hun hinv4
          hup4 hd hoom4 (hapart d) (hun.inv.apart_kfree (Finset.mem_insert_self g kp))⟩
      · rw [if_neg (by decide)]
        rw [hva] at h hge ⊢
        exact .ret (h.add hd hge hv (by simpa using hadd))
    · rintro e ⟨rfl, hne⟩
      refine ⟨rfl, vpn a, hv, by omega, by omega, ?_⟩
      rwa [← h.same d hd _ hv (by omega)]

/-- `allocuvm` grows, undoes a growth it cannot finish, and panics only on a page
of the range that is already present. -/
theorem allocuvm_spec {oldsz newsz : Nat} (h : Inv man dirs kp k) (hd : d ∈ dirs) :
    Ends (allocuvm d oldsz newsz) k (fun r k' =>
      (kernbase ≤ newsz ∧ r = 0 ∧ k' = k) ∨
      (newsz < kernbase ∧ newsz < oldsz ∧ r = oldsz ∧ k' = k) ∨
      (newsz < kernbase ∧ oldsz ≤ newsz ∧ r = newsz ∧ Grown man dirs kp d oldsz newsz k k') ∨
      (newsz < kernbase ∧ oldsz ≤ newsz ∧ r = 0 ∧ Abandoned man dirs kp d oldsz newsz k k'))
      (fun e => e = .remap ∧ newsz < kernbase ∧
        ∃ v < nupages, oldsz ≤ v * 4096 ∧ v * 4096 < newsz ∧ upage k d v ≠ none) := by
  rw [allocuvm, ends_ite]
  refine ⟨fun hbig => .ret (.inl ⟨hbig, rfl, rfl⟩), fun hsmall => ?_⟩
  rw [ends_ite]
  refine ⟨fun hlt => .ret (.inr (.inl ⟨by omega, hlt, rfl, rfl⟩)), fun hge => ?_⟩
  have hnew : newsz < kernbase := by omega
  have hround : pgroundup oldsz = (oldsz + 4095) / 4096 * 4096 := by
    refine pgroundup_eq ?_
    simp only [kernbase] at *
    omega
  rw [ends_bind, hround]
  refine (ends_forUint newsz pgsize _
    (I := fun a k1 => a % 4096 = 0 ∧ oldsz ≤ a ∧ (a < newsz + 4096 ∨ a < oldsz + 4096) ∧
      Grown man dirs kp d oldsz a k k1)
    (R := fun n k' => n = 0 ∧ Abandoned man dirs kp d oldsz newsz k k')
    (E := fun e => e = .remap ∧
      ∃ v < nupages, oldsz ≤ v * 4096 ∧ v * 4096 < newsz ∧ upage k d v ≠ none)
    ?_ ?_ npages _ k ?_ ?_).mono ?_ (fun e hE => ⟨hE.1, hnew, hE.2⟩)
  · rintro a k1 ha ⟨hmod, hle, -, hgrown⟩
    refine (allocuvmPage_spec hd hnew ha hmod hle hgrown).imp ?_
    intro r k' hr
    cases r with
    | none => exact ⟨by simp only [pgsize]; omega, by omega, by simp only [pgsize]; omega, hr⟩
    | some n => exact hr
  · simp only [kernbase, pgsize] at *
    omega
  · simp only [kernbase, pgsize, npages] at *
    omega
  · refine ⟨by omega, by omega, by omega, h, fun v _ hlo hhi => ?_, fun _ _ _ _ _ => rfl, rfl,
      by omega, .refl k⟩
    omega
  · intro r k' hr
    cases r with
    | none =>
      obtain ⟨a, hstop, hmod, hle, hlt, hgrown⟩ := hr
      exact .ret (.inr (.inr (Or.inl
        ⟨hnew, by omega, rfl, hgrown.congr (fun v hlo => by omega) (by omega)⟩)))
    | some n =>
      obtain ⟨rfl, hab⟩ := hr
      exact .ret (.inr (.inr (.inr ⟨hnew, by omega, rfl, hab⟩)))

/-- A page present where the growth starts is enough for a panic. -/
theorem allocuvm_remap {oldsz newsz : Nat} (h : Inv man dirs kp k) (hd : d ∈ dirs)
    (hmod : oldsz % 4096 = 0) (hlt : oldsz < newsz) (hnew : newsz < kernbase)
    (hpage : upage k d (vpn oldsz) ≠ none) (hfree : k.freelist ≠ []) :
    Ends (allocuvm d oldsz newsz) k (fun _ _ => False) (fun e => e = .remap) := by
  have hround : pgroundup oldsz = oldsz := by
    rw [pgroundup_eq (by simp only [kernbase] at hnew; omega)]
    omega
  have hv : vpn oldsz < nupages := by
    simp only [vpn, nupages, kernbase, pgsize] at *
    omega
  obtain ⟨g, rest, hcons⟩ := List.exists_cons_of_ne_nil hfree
  have hg : g ∈ k.freelist := by rw [hcons]; exact List.mem_cons_self
  rw [allocuvm, if_neg (by omega), if_neg (by omega), ends_bind, hround]
  change Ends (forUint newsz pgsize _ (npages - 1 + 1) oldsz) _ _ _
  rw [forUint, if_pos hlt, ends_bind, allocuvmPage, ends_bind,
    ends_kalloc_cons hcons (h.free_range hg), ends_bind, ends_memset_zero, ends_bind]
  refine (mappages_fresh h hd hcons hmod hv ((lowBits_mask _).or (lowBits_mask _))
    (by simp) (by simp)).mono ?_ (fun _ hE => hE.1)
  rintro r k' (⟨-, -, hshort⟩ | ⟨-, hadd⟩)
  · -- the table of a present page is there, so one frame is enough
    have hloc : pteLoc k d (vpn oldsz) ≠ none := fun hnone =>
      hpage (upage_eq_none.mpr (by rw [pte_of_no_loc hnone, has_zero]))
    rw [framesFor, if_neg hloc, hcons] at hshort
    exact absurd hshort (by simp)
  · exact absurd hadd.absent hpage

end Xv6
