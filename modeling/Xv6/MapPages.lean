import Xv6.PageTable

/-!
# Xv6.MapPages

`mappages` on any page directory: a two-level table as a map from pages to entries.

The map is `pte k d`, and the pages of a range are entered into it one by one. `DirOk` is all
that this needs: the page tables of the directory are different frames, the directory is not one
of them, and the allocator does not hand out a frame that is in use as either. The flags of the
directory entries, the rest of memory and the reference counts do not matter.
-/

namespace Xv6

open Function (update)

/-- The frames of directory `d`, its page tables and the free list do not overlap. -/
structure DirOk (k : Kmem) (d : Nat) : Prop where
  tab_ne : ∀ i < 1024, has (k.mem d i) .p = true → pteFrame (k.mem d i) ≠ d
  tab_inj : ∀ i < 1024, ∀ j < 1024, has (k.mem d i) .p = true → has (k.mem d j) .p = true →
    pteFrame (k.mem d i) = pteFrame (k.mem d j) → i = j
  free_dir : d ∉ k.freelist
  free_tab : ∀ i < 1024, has (k.mem d i) .p = true → pteFrame (k.mem d i) ∉ k.freelist
  free_nodup : k.freelist.Nodup
  free_range : ∀ f ∈ k.freelist, v2p f < phystop

/-- The first `n` pages from page `first` on have been mapped to physical memory from `pa`. -/
structure MapsTo (d first n pa : Nat) (perm : Word) (k k' : Kmem) : Prop where
  ok : DirOk k' d
  mapped : ∀ i < n, pte k' d (first + i) = mkPte (pa + i * 4096) (perm ||| PteFlag.p.mask)
  others : ∀ v < npages, ¬ (first ≤ v ∧ v < first + n) → pte k' d v = pte k d v
  tables : ∀ j < 1024, has (k.mem d j) .p = true → k'.mem d j = k.mem d j
  created : ∀ j < 1024, has (k.mem d j) .p = false → has (k'.mem d j) .p = true →
    pteFrame (k'.mem d j) ∈ k.freelist
  free : ∀ f ∈ k'.freelist, f ∈ k.freelist

section
variable {k k' k1 : Kmem} {d v f i g : Nat} {w : Word}

theorem frame_lt_npages {f : Nat} (h : v2p f < phystop) : f < npages := by
  simp only [v2p, pgsize, phystop, npages] at *
  omega

/-! ### Writing an entry -/

section
variable (h : DirOk k d) (hv : v < npages) (hloc : pteLoc k d v = some (f, i))
include h hv hloc

/-- Writing the entry of page `v` leaves the directory as it is. -/
theorem DirOk.store_dir : (k.store f i w).mem d = k.mem d := by
  obtain ⟨hp, rfl, -⟩ := pteLoc_eq_some hloc
  have hne := h.tab_ne (v / 1024) (by unfold npages at hv; omega) hp
  simp [Kmem.store, hne.symm]

theorem DirOk.store : DirOk (k.store f i w) d := by
  have hdir := h.store_dir (w := w) hv hloc
  refine ⟨?_, ?_, h.free_dir, ?_, h.free_nodup, h.free_range⟩
  · rw [hdir]
    exact h.tab_ne
  · rw [hdir]
    exact h.tab_inj
  · rw [hdir]
    exact h.free_tab

theorem DirOk.pte_store {v' : Nat} (hv' : v' < npages) :
    pte (k.store f i w) d v' = if v' = v then w else pte k d v' := by
  have hdir := h.store_dir (w := w) hv hloc
  have hlocs : pteLoc (k.store f i w) d v' = pteLoc k d v' := by rw [pteLoc, pteLoc, hdir]
  obtain ⟨hp, hf, hi⟩ := pteLoc_eq_some hloc
  cases hl : pteLoc k d v' with
  | none =>
    have hne : v' ≠ v := by
      rintro rfl
      rw [hl] at hloc
      cases hloc
    rw [pte_of_no_loc (hlocs.trans hl), if_neg hne, pte_of_no_loc hl]
  | some q =>
    obtain ⟨f', i'⟩ := q
    obtain ⟨hp', hf', hi'⟩ := pteLoc_eq_some hl
    rw [pte_of_loc (hlocs.trans hl), pte_of_loc hl, store_pde_mem]
    by_cases hvv : v' = v
    · rw [if_pos hvv, if_pos ⟨by rw [hf, hf', hvv], by rw [hi, hi', hvv]⟩]
    · rw [if_neg hvv, if_neg]
      rintro ⟨hff, hii⟩
      -- one frame is the table of one directory entry only
      have hsame := h.tab_inj (v' / 1024) (by unfold npages at hv'; omega) (v / 1024)
        (by unfold npages at hv; omega) hp' hp (by rw [← hf, ← hf', hff])
      omega

end

/-! ### A new page table -/

/-- Taking frame `g` from the free list, clearing it and entering it at index `j`. -/
def Kmem.newTable (k : Kmem) (d j g : Nat) (rest : List Nat) : Kmem :=
  (({ k with freelist := rest, refcnt := update k.refcnt g 1 } : Kmem).fill g
    fun _ => 0#32).store d j (tableEntry g)

variable {j : Nat} {rest : List Nat}

theorem Kmem.newTable_dir (hgd : g ≠ d) (j' : Nat) :
    (k.newTable d j g rest).mem d j' = if j' = j then tableEntry g else k.mem d j' := by
  rw [newTable, store_pde_mem]
  by_cases hj : j' = j
  · rw [if_pos ⟨rfl, hj⟩, if_pos hj]
  · rw [if_neg fun hc => hj hc.2, if_neg hj]
    simp [Kmem.fill, hgd.symm]

theorem Kmem.newTable_mem (hfd : f ≠ d) (i : Nat) :
    (k.newTable d j g rest).mem f i = if f = g then 0#32 else k.mem f i := by
  rw [newTable, store_pde_mem, if_neg fun hc => hfd hc.1]
  by_cases hfg : f = g
  · subst hfg
    simp [Kmem.fill]
  · simp [Kmem.fill, hfg]

section
variable (h : DirOk k d) (hfree : k.freelist = g :: rest) (habs : has (k.mem d j) .p = false)
include h hfree

theorem DirOk.head_ne : g ≠ d ∧ g < npages ∧ g ∉ rest ∧
    ∀ i < 1024, has (k.mem d i) .p = true → pteFrame (k.mem d i) ≠ g := by
  have hg : g ∈ k.freelist := by rw [hfree]; exact List.mem_cons_self
  have hnd := h.free_nodup
  rw [hfree, List.nodup_cons] at hnd
  refine ⟨fun he => h.free_dir (he ▸ hg), frame_lt_npages (h.free_range g hg), hnd.1, ?_⟩
  exact fun i hi hp he => h.free_tab i hi hp (he ▸ hg)

theorem DirOk.newTable : DirOk (k.newTable d j g rest) d := by
  obtain ⟨hgd, hgn, hgr, hgt⟩ := h.head_ne hfree
  have hframe := tableEntry_frame hgn
  have hsub : ∀ f ∈ rest, f ∈ k.freelist := fun f hf => hfree ▸ List.mem_cons_of_mem g hf
  refine ⟨fun i hi hp => ?_, fun i1 hi1 i2 hi2 hp1 hp2 he => ?_, fun hc => h.free_dir (hsub d hc),
    fun i hi hp => ?_, ?_, fun f hf => h.free_range f (hsub f hf)⟩
  · rw [Kmem.newTable_dir hgd] at hp ⊢
    split
    · rw [hframe]
      exact hgd
    · next hne =>
        rw [if_neg hne] at hp
        exact h.tab_ne i hi hp
  · rw [Kmem.newTable_dir hgd] at hp1 hp2 he
    rw [Kmem.newTable_dir hgd] at he
    by_cases h1 : i1 = j <;> by_cases h2 : i2 = j
    · rw [h1, h2]
    · rw [if_pos h1, if_neg h2, hframe] at he
      rw [if_neg h2] at hp2
      exact absurd he.symm (hgt i2 hi2 hp2)
    · rw [if_neg h1, if_pos h2, hframe] at he
      rw [if_neg h1] at hp1
      exact absurd he (hgt i1 hi1 hp1)
    · rw [if_neg h1] at hp1 he
      rw [if_neg h2] at hp2 he
      exact h.tab_inj i1 hi1 i2 hi2 hp1 hp2 he
  · rw [Kmem.newTable_dir hgd] at hp ⊢
    split
    · rw [hframe]
      exact hgr
    · next hne =>
        rw [if_neg hne] at hp
        exact fun hc => h.free_tab i hi hp (hsub _ hc)
  · have hnd := h.free_nodup
    rw [hfree, List.nodup_cons] at hnd
    exact hnd.2

include habs

/-- A cleared page table adds nothing to the map. -/
theorem DirOk.pte_newTable (hv : v < npages) : pte (k.newTable d j g rest) d v = pte k d v := by
  obtain ⟨hgd, hgn, hgr, hgt⟩ := h.head_ne hfree
  by_cases hvj : v / 1024 = j
  · have hl : pteLoc k d v = none := pteLoc_eq_none.mpr (by rw [hvj]; exact habs)
    have hl' : pteLoc (k.newTable d j g rest) d v = some (g, v % 1024) := by
      rw [pteLoc, Kmem.newTable_dir hgd, if_pos hvj, tableEntry_frame hgn]
      simp
    rw [pte_of_loc hl', pte_of_no_loc hl, Kmem.newTable_mem hgd, if_pos rfl]
  · have hl : pteLoc (k.newTable d j g rest) d v = pteLoc k d v := by
      rw [pteLoc, pteLoc, Kmem.newTable_dir hgd, if_neg hvj]
    cases hc : pteLoc k d v with
    | none => rw [pte_of_no_loc hc, pte_of_no_loc (hl.trans hc)]
    | some q =>
      obtain ⟨f, i⟩ := q
      obtain ⟨hp, rfl, -⟩ := pteLoc_eq_some hc
      have hlt : v / 1024 < 1024 := by unfold npages at hv; omega
      rw [pte_of_loc hc, pte_of_loc (hl.trans hc), Kmem.newTable_mem (h.tab_ne _ hlt hp),
        if_neg (hgt _ hlt hp)]

end

/-! ### Steps of the map -/

section
variable {first n pa : Nat} {perm : Word}

/-- Nothing is mapped where neither memory nor the free list changes. -/
theorem MapsTo.same (h : DirOk k d) (hmem : k'.mem = k.mem) (hfree : k'.freelist = k.freelist) :
    MapsTo d first 0 pa perm k k' := by
  have hok : DirOk k' d := by
    obtain ⟨h1, h2, h3, h4, h5, h6⟩ := h
    constructor <;> simpa only [hmem, hfree]
  refine ⟨hok, fun i hi => absurd hi (Nat.not_lt_zero i), fun v _ _ => ?_,
    fun j _ _ => by rw [hmem],
    fun j _ habs hp => ?_, fun f hf => hfree ▸ hf⟩
  · rw [pte, pte, pteLoc, pteLoc, hmem]
  · rw [hmem, habs] at hp
    cases hp

theorem MapsTo.newTable (h : DirOk k d) (hfree : k.freelist = g :: rest) (hj : j < 1024)
    (habs : has (k.mem d j) .p = false) :
    MapsTo d first 0 pa perm k (k.newTable d j g rest) := by
  have hg : g ∈ k.freelist := by rw [hfree]; exact List.mem_cons_self
  obtain ⟨hgd, hgn, -, -⟩ := h.head_ne hfree
  refine ⟨h.newTable hfree, fun i hi => absurd hi (Nat.not_lt_zero i),
    fun v hv _ => h.pte_newTable hfree habs hv, fun j' hj' hp => ?_, fun j' hj' habs' hp => ?_,
    fun f hf => ?_⟩
  · rw [Kmem.newTable_dir hgd, if_neg]
    rintro rfl
    rw [habs] at hp
    cases hp
  · rw [Kmem.newTable_dir hgd] at hp ⊢
    by_cases he : j' = j
    · rw [if_pos he, tableEntry_frame hgn]
      exact hg
    · rw [if_neg he, habs'] at hp
      cases hp
  · rw [hfree]
    exact List.mem_cons_of_mem g hf

/-- Making page tables on the way does not disturb the pages mapped so far. -/
theorem MapsTo.trans_same {first' pa' : Nat} {perm' : Word} (h : MapsTo d first n pa perm k k1)
    (hs : MapsTo d first' 0 pa' perm' k1 k') (hle : first + n ≤ npages) :
    MapsTo d first n pa perm k k' := by
  have hsame : ∀ v < npages, pte k' d v = pte k1 d v :=
    fun v hv => hs.others v hv (by omega)
  refine ⟨hs.ok, fun i hi => (hsame _ (by omega)).trans (h.mapped i hi),
    fun v hv hout => (hsame v hv).trans (h.others v hv hout), fun j hj hp => ?_,
    fun j hj habs hp => ?_, fun f hf => h.free f (hs.free f hf)⟩
  · have hp1 := h.tables j hj hp
    rw [hs.tables j hj (by rw [hp1]; exact hp), hp1]
  · cases hp1 : has (k1.mem d j) .p with
    | true =>
      rw [hs.tables j hj hp1]
      exact h.created j hj habs hp1
    | false => exact h.free _ (hs.created j hj hp1 hp)

/-- Writing the entry of the page after the range makes the range one page longer. -/
theorem MapsTo.write (h : MapsTo d first n pa perm k k1) (hlt : first + n < npages)
    (hloc : pteLoc k1 d (first + n) = some (f, i)) :
    MapsTo d first (n + 1) pa perm k
      (k1.store f i (mkPte (pa + n * 4096) (perm ||| PteFlag.p.mask))) := by
  have hdir := h.ok.store_dir (w := mkPte (pa + n * 4096) (perm ||| PteFlag.p.mask)) hlt hloc
  refine ⟨h.ok.store hlt hloc, fun m hm => ?_, fun v hv hout => ?_, fun j hj hp => ?_,
    fun j hj habs hp => ?_, h.free⟩
  · rw [h.ok.pte_store hlt hloc (by omega)]
    by_cases hmn : m = n
    · rw [if_pos (by rw [hmn]), hmn]
    · rw [if_neg (by omega)]
      exact h.mapped m (by omega)
  · rw [h.ok.pte_store hlt hloc hv, if_neg (by omega)]
    exact h.others v hv (by omega)
  · rw [hdir]
    exact h.tables j hj hp
  · rw [hdir] at hp ⊢
    exact h.created j hj habs hp

/-! ### The loop -/

/-- `walkpgdir` with `alloc` finds the entry of a page, in a table it may have to make; there is
none only if no frame is free. -/
theorem walkpgdir_alloc {va : Nat} (h : DirOk k d) (hva : va < 2 ^ 32) :
    Ends (walkpgdir d va true) k (fun r k' => MapsTo d 0 0 0 0#32 k k' ∧ match r with
      | none => k'.freelist = []
      | some q => pteLoc k' d (vpn va) = some q) := by
  have hlt : vpn va / 1024 < 1024 := by
    have hvn := vpn_lt hva
    unfold npages at hvn
    omega
  rw [walkpgdir, ends_bind, ends_readWord, pdx_eq hva, ptx_eq]
  by_cases hp : has (k.mem d (vpn va / 1024)) .p = true
  · rw [if_pos hp]
    exact .ret ⟨.same h rfl rfl, if_pos hp⟩
  · rw [if_neg hp, if_neg (by simp), ends_bind]
    rw [Bool.not_eq_true] at hp
    cases hfree : k.freelist with
    | nil =>
      rw [ends_kalloc_nil hfree]
      exact .ret ⟨.same h rfl rfl, hfree⟩
    | cons g rest =>
      obtain ⟨hgd, hgn, -, -⟩ := h.head_ne hfree
      have hg : g ∈ k.freelist := by rw [hfree]; exact List.mem_cons_self
      rw [ends_kalloc_cons hfree (h.free_range g hg), ends_bind, ends_memset_zero, ends_bind,
        ends_writeWord]
      refine .ret ⟨MapsTo.newTable h hfree hlt hp, ?_⟩
      change pteLoc (k.newTable d (vpn va / 1024) g rest) d (vpn va) = _
      rw [pteLoc, Kmem.newTable_dir hgd, if_pos rfl, tableEntry_frame hgn]
      simp

theorem mkPte_congr {pa pa' : Nat} (h : pa % 2 ^ 32 = pa' % 2 ^ 32) (fl : Word) :
    mkPte pa fl = mkPte pa' fl := by
  rw [mkPte, mkPte]
  congr 1
  exact BitVec.eq_of_toNat_eq (by simpa using h)

/-- Rounds of the loop of `mappages`, `n` pages into a range of `total`. -/
theorem mappagesLoop_spec {total last : Nat} (hlast : last = (first + total - 1) * 4096)
    (hle : first + total ≤ npages)
    (habs : ∀ v, first ≤ v → v < first + total → has (pte k d v) .p = false) (fuel : Nat) :
    ∀ (n a pa' : Nat) (k1 : Kmem), n < total → total ≤ n + fuel → a = (first + n) * 4096 →
      pa' % 2 ^ 32 = (pa + n * 4096) % 2 ^ 32 → MapsTo d first n pa perm k k1 →
      Ends (mappagesLoop d last perm fuel a pa') k1
        (fun r k' => r = 0 ∧ MapsTo d first total pa perm k k' ∨
          r = -1 ∧ k'.freelist = [] ∧ ∃ m < total, MapsTo d first m pa perm k k') := by
  induction fuel with
  | zero =>
    intro n a pa' k1 hn hfuel
    omega
  | succ fuel ih =>
    intro n a pa' k1 hn hfuel ha hpa hk
    have hva : a < 2 ^ 32 := by unfold npages at hle; omega
    have hvpn : vpn a = first + n := by rw [vpn, ha, pgsize, Nat.mul_div_cancel _ (by decide)]
    rw [mappagesLoop]
    refine (walkpgdir_alloc hk.ok hva).bind ?_
    intro r k2 hr
    obtain ⟨hsame, hloc⟩ := hr
    have hk2 := hk.trans_same hsame (by omega)
    cases r with
    | none => exact .ret (.inr ⟨rfl, hloc, n, hn, hk2⟩)
    | some q =>
      obtain ⟨f, i⟩ := q
      rw [hvpn] at hloc
      have hent : has (k2.mem f i) .p = false := by
        rw [← pte_of_loc hloc, hk2.others _ (by omega) (by omega)]
        exact habs _ (by omega) (by omega)
      have hnext := hk2.write (by omega) hloc
      rw [← mkPte_congr hpa] at hnext
      dsimp only
      rw [ends_bind, ends_readWord, if_neg (by simp [hent]), ends_bind, ends_writeWord]
      by_cases hend : a = last
      · have hn' : n + 1 = total := by omega
        rw [if_pos hend]
        exact .ret (.inl ⟨rfl, hn' ▸ hnext⟩)
      · have hn' : n + 1 < total := by
          by_contra hc
          exact hend (by rw [ha, hlast]; congr 1; omega)
        rw [if_neg hend]
        refine ih (n + 1) _ _ _ hn' (by omega) ?_ ?_ hnext
        · unfold npages at hle
          simp only [u32, pgsize]
          omega
        · simp only [u32, pgsize]
          omega

/-- The loop ends on the page `last`: more rounds than pages make no difference. -/
theorem mappagesLoop_fuel {last : Nat} (m : Nat) :
    ∀ (a pa fuel fuel' : Nat), a + m * 4096 = last → last < 2 ^ 32 → m < fuel → m < fuel' →
      mappagesLoop d last perm fuel a pa = mappagesLoop d last perm fuel' a pa := by
  induction m with
  | zero =>
    intro a pa fuel fuel' ha _ hf hf'
    obtain ⟨fuel, rfl⟩ : ∃ c, fuel = c + 1 := ⟨fuel - 1, by omega⟩
    obtain ⟨fuel', rfl⟩ : ∃ c, fuel' = c + 1 := ⟨fuel' - 1, by omega⟩
    have hend : a = last := by omega
    simp only [mappagesLoop, if_pos hend]
  | succ m ih =>
    intro a pa fuel fuel' ha hlast hf hf'
    obtain ⟨fuel, rfl⟩ : ∃ c, fuel = c + 1 := ⟨fuel - 1, by omega⟩
    obtain ⟨fuel', rfl⟩ : ∃ c, fuel' = c + 1 := ⟨fuel' - 1, by omega⟩
    have hne : a ≠ last := by omega
    have hstep : u32 (a + pgsize) + m * 4096 = last := by
      simp only [u32, pgsize]
      omega
    have hrest := ih (u32 (a + pgsize)) (u32 (pa + pgsize)) fuel fuel' hstep hlast
      (by omega) (by omega)
    simp only [mappagesLoop, if_neg hne, hrest]

end

/-! ### `mappages` -/

/-- The page tables made on the way: frames of the free list, which were neither the directory nor
a page table of it, all entries zero but those of the range. -/
structure NewTables (d first n : Nat) (k k' : Kmem) : Prop where
  fresh : ∀ j < 1024, has (k.mem d j) .p = false → has (k'.mem d j) .p = true →
    pteFrame (k'.mem d j) ∈ k.freelist ∧ pteFrame (k'.mem d j) ≠ d ∧
    ∀ i < 1024, has (k'.mem d i) .p = true → pteFrame (k'.mem d i) = pteFrame (k'.mem d j) → i = j
  zeroed : ∀ j < 1024, has (k.mem d j) .p = false → has (k'.mem d j) .p = true → ∀ i < 1024,
    ¬ (first ≤ j * 1024 + i ∧ j * 1024 + i < first + n) → k'.mem (pteFrame (k'.mem d j)) i = 0#32

theorem MapsTo.newTables {first n pa : Nat} {perm : Word} (h : MapsTo d first n pa perm k k') :
    NewTables d first n k k' := by
  refine ⟨fun j hj habs hp => ⟨h.created j hj habs hp, h.ok.tab_ne j hj hp,
    fun i hi hpi he => h.ok.tab_inj i hi j hj hpi hp he⟩, fun j hj habs hp i hi hout => ?_⟩
  have hdiv : (j * 1024 + i) / 1024 = j := by omega
  have hmod : (j * 1024 + i) % 1024 = i := by omega
  -- page `j * 1024 + i` had no table before, so its entry was 0
  have hv := h.others (j * 1024 + i) (by unfold npages; omega) hout
  have hloc : pteLoc k' d (j * 1024 + i) = some (pteFrame (k'.mem d j), i) := by
    rw [pteLoc, hdiv, hmod, if_pos hp]
  have hno : pteLoc k d (j * 1024 + i) = none := pteLoc_eq_none.mpr (by rw [hdiv]; exact habs)
  rw [pte_of_loc hloc, pte_of_no_loc hno] at hv
  exact hv

/-- `mappages` enters a range of pages into the map: on success all of it, on failure, when the free
list has run out, the pages before the one that got no page table. It never panics, and the loop
ends after as many rounds as there are pages. -/
theorem mappages_refines (k : Kmem) (d va size pa : Nat) (perm : Word) (h : DirOk k d)
    (hsize : 1 ≤ size) (hwrap : va + size ≤ 2 ^ 32)
    (habs : ∀ v, vpn va ≤ v → v ≤ vpn (va + size - 1) → has (pte k d v) .p = false) :
    let total := vpn (va + size - 1) - vpn va + 1
    Ends (mappages d va size pa perm) k
      (fun r k' =>
        r = 0 ∧ MapsTo d (vpn va) total pa perm k k' ∧ NewTables d (vpn va) total k k' ∨
        r = -1 ∧ k'.freelist = [] ∧
          ∃ n < total, MapsTo d (vpn va) n pa perm k k' ∧ NewTables d (vpn va) n k k') ∧
    ∀ fuel, total ≤ fuel → mappagesLoop d (pgrounddown (u32 (va + size - 1))) perm fuel
      (pgrounddown va) pa = mappages d va size pa perm := by
  intro total
  have hu : u32 (va + size - 1) = va + size - 1 := Nat.mod_eq_of_lt (by omega)
  have hmono : vpn va ≤ vpn (va + size - 1) := Nat.div_le_div_right (by omega)
  have htop : vpn (va + size - 1) < npages := vpn_lt (by omega)
  have hlast : pgrounddown (u32 (va + size - 1)) = (vpn va + total - 1) * 4096 := by
    rw [hu]
    show vpn (va + size - 1) * 4096 = _
    congr 1
    omega
  have hstart : MapsTo d (vpn va) 0 pa perm k k := .same h rfl rfl
  refine ⟨?_, fun fuel hfuel => ?_⟩
  · refine (mappagesLoop_spec hlast (by omega) (fun v hv hv' => habs v hv (by omega)) npages 0
      (pgrounddown va) pa k (by omega) (by omega) rfl (by simp) hstart).imp fun r k' hr => ?_
    rcases hr with ⟨hr, hm⟩ | ⟨hr, hfree, n, hn, hm⟩
    · exact .inl ⟨hr, hm, hm.newTables⟩
    · exact .inr ⟨hr, hfree, n, hn, hm, hm.newTables⟩
  · refine mappagesLoop_fuel (total - 1) _ _ _ _ ?_ ?_ (by omega) (by omega)
    · rw [hlast]
      show vpn va * 4096 + _ = _
      omega
    · rw [hlast]
      unfold npages at htop
      omega

/-- Memory with an empty directory in frame 1, and three free frames. -/
def emptyDirectory : Kmem where
  mem := fun _ _ => 0#32
  refcnt := fun _ => 0
  freelist := [2, 3, 4]
  oom := 0

theorem emptyDirectory_absent (j : Nat) : has (emptyDirectory.mem 1 j) .p = false := by
  show has 0#32 .p = false
  decide

theorem emptyDirectory_dirOk : DirOk emptyDirectory 1 := by
  refine ⟨fun i _ hp => ?_, fun i _ j _ hp => ?_, by decide, fun i _ hp => ?_, by decide,
    by decide⟩ <;>
  · rw [emptyDirectory_absent] at hp
    cases hp

/-- The last page of the first 4 MB and the first page of the next, for which two page tables are
made. -/
theorem mappages_refines_boundary : DirOk emptyDirectory 1 ∧ ∃ k',
    (mappages 1 0x3ff000 0x2000 0 0#32).run emptyDirectory = .ok (0, k') ∧
      MapsTo 1 1023 2 0 0#32 emptyDirectory k' ∧ NewTables 1 1023 2 emptyDirectory k' ∧
      pteFrame (k'.mem 1 0) = 2 ∧ pteFrame (k'.mem 1 1) = 3 := by
  have hno : ∀ v, pteLoc emptyDirectory 1 v = none :=
    fun v => pteLoc_eq_none.mpr (emptyDirectory_absent _)
  obtain ⟨hends, hfuel⟩ := mappages_refines emptyDirectory 1 0x3ff000 0x2000 0 0#32
    emptyDirectory_dirOk (by decide) (by decide) fun v _ _ => by rw [pte_of_no_loc (hno v)]; decide
  obtain ⟨k', hrun, h0, h1⟩ : ∃ k', (mappagesLoop 1 0x400000 0#32 2 0x3ff000 0).run
      emptyDirectory = .ok (0, k') ∧ pteFrame (k'.mem 1 0) = 2 ∧ pteFrame (k'.mem 1 1) = 3 :=
    ⟨_, rfl, rfl, rfl⟩
  rw [show mappagesLoop 1 0x400000 0#32 2 0x3ff000 0 = _ from hfuel 2 (by decide)] at hrun
  refine ⟨emptyDirectory_dirOk, k', hrun, ?_⟩
  rcases hends.of_ok hrun with ⟨-, hm, hnew⟩ | ⟨hr, -⟩
  · exact ⟨hm, hnew, h0, h1⟩
  · cases hr

end

end Xv6
