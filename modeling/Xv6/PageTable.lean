import Mathlib.Data.Finset.Prod
import Mathlib.Data.Finset.Union
import Xv6.Vm

/-!
# Xv6.PageTable

Page directories and page tables as they lie in physical memory, and the map
from virtual pages to entries that they represent.

`pte k d v` is the entry for page `v` under directory `d`. Several directories
live in memory at once; `Tables dirs kp k` says that their frames do not overlap:
each page-table page belongs to one directory entry, and none of them is a
directory or one of the other kernel pages `kp`. Under it a write to one entry
changes the map at one point only, whatever directory one looks through, and
writes to any other frame do not change it at all.
-/

namespace Xv6

open Function (update)

/-! ### The map a directory represents -/

/-- Where the entry for page `v` lies, if its page table is present. -/
def pteLoc (k : Kmem) (d v : Nat) : Option (Nat × Nat) :=
  if has (k.mem d (v / 1024)) .p then some (pteFrame (k.mem d (v / 1024)), v % 1024) else none

/-- The entry for page `v`; zero where the page table is absent. -/
def pte (k : Kmem) (d v : Nat) : Word :=
  match pteLoc k d v with
  | some (f, i) => k.mem f i
  | none => 0#32

/-- The frames of the page tables of a directory. -/
def ptFrames (k : Kmem) (d : Nat) : Finset Nat :=
  ((Finset.range npdentries).filter fun i => has (k.mem d i) .p).image fun i =>
    pteFrame (k.mem d i)

/-- The frames of the directories and their page tables. -/
def tabFrames (dirs : Finset Nat) (k : Kmem) : Finset Nat :=
  dirs ∪ dirs.biUnion (ptFrames k)

/-- The frames of the directories `dirs`, their page tables, and the kernel pages
`kp` do not overlap. -/
structure Tables (dirs kp : Finset Nat) (k : Kmem) : Prop where
  kp_tab : ∀ f ∈ kp, f ∉ tabFrames dirs k
  pt_dirs : ∀ d ∈ dirs, ∀ i < 1024, has (k.mem d i) .p = true → pteFrame (k.mem d i) ∉ dirs
  pt_inj : ∀ d ∈ dirs, ∀ i < 1024, has (k.mem d i) .p = true →
    ∀ d' ∈ dirs, ∀ i' < 1024, has (k.mem d' i') .p = true →
      pteFrame (k.mem d i) = pteFrame (k.mem d' i') → d = d' ∧ i = i'
  pde_wu : ∀ d ∈ dirs, ∀ i < 1024, has (k.mem d i) .p = true →
    has (k.mem d i) .w = true ∧ has (k.mem d i) .u = true

section
variable {k : Kmem}

theorem mem_ptFrames {d f : Nat} :
    f ∈ ptFrames k d ↔ ∃ i < 1024, has (k.mem d i) .p = true ∧ pteFrame (k.mem d i) = f := by
  simp [ptFrames, npdentries, and_assoc]

theorem mem_tabFrames {dirs : Finset Nat} {f : Nat} :
    f ∈ tabFrames dirs k ↔ f ∈ dirs ∨ ∃ d ∈ dirs, f ∈ ptFrames k d := by
  simp [tabFrames]

theorem dirs_subset_tabFrames {dirs : Finset Nat} {d : Nat} (hd : d ∈ dirs) :
    d ∈ tabFrames dirs k := mem_tabFrames.mpr (.inl hd)

theorem tabFrames_mono {dirs dirs' : Finset Nat} (h : dirs ⊆ dirs') :
    tabFrames dirs k ⊆ tabFrames dirs' k := by
  intro f hf
  rcases mem_tabFrames.mp hf with hd | ⟨d, hd, hpt⟩
  · exact mem_tabFrames.mpr (.inl (h hd))
  · exact mem_tabFrames.mpr (.inr ⟨d, h hd, hpt⟩)

theorem pteLoc_eq_some {d v f i : Nat} (h : pteLoc k d v = some (f, i)) :
    has (k.mem d (v / 1024)) .p = true ∧ f = pteFrame (k.mem d (v / 1024)) ∧ i = v % 1024 := by
  unfold pteLoc at h
  split at h
  · next hp =>
      simp only [Option.some.injEq, Prod.mk.injEq] at h
      exact ⟨hp, h.1.symm, h.2.symm⟩
  · exact absurd h (by simp)

theorem pteLoc_eq_none {d v : Nat} : pteLoc k d v = none ↔ has (k.mem d (v / 1024)) .p = false := by
  unfold pteLoc
  split <;> simp_all

theorem pte_of_loc {d v f i : Nat} (h : pteLoc k d v = some (f, i)) : pte k d v = k.mem f i := by
  simp [pte, h]

theorem pte_of_no_loc {d v : Nat} (h : pteLoc k d v = none) : pte k d v = 0#32 := by
  simp [pte, h]

/-- A located entry lies in one of the directory's page tables. -/
theorem pteLoc_mem_ptFrames {d v f i : Nat} (hv : v < npages) (h : pteLoc k d v = some (f, i)) :
    f ∈ ptFrames k d := by
  obtain ⟨hp, rfl, -⟩ := pteLoc_eq_some h
  unfold npages at hv
  exact mem_ptFrames.mpr ⟨v / 1024, by omega, hp, rfl⟩

end

/-! ### Writes outside the tables -/

section
variable {dirs kp : Finset Nat} {k k' : Kmem}

/-- The map depends only on the contents of the table frames. -/
theorem pte_congr (hmem : ∀ f ∈ tabFrames dirs k, k'.mem f = k.mem f) {d v : Nat}
    (hd : d ∈ dirs) (hv : v < npages) : pte k' d v = pte k d v ∧ pteLoc k' d v = pteLoc k d v := by
  have hdir : k'.mem d = k.mem d := hmem d (dirs_subset_tabFrames hd)
  have hloc : pteLoc k' d v = pteLoc k d v := by simp only [pteLoc, hdir]
  refine ⟨?_, hloc⟩
  cases h : pteLoc k d v with
  | none => rw [pte_of_no_loc h, pte_of_no_loc (hloc.trans h)]
  | some p =>
    obtain ⟨f, i⟩ := p
    have hf : f ∈ tabFrames dirs k := mem_tabFrames.mpr (.inr ⟨d, hd, pteLoc_mem_ptFrames hv h⟩)
    rw [pte_of_loc h, pte_of_loc (hloc.trans h), hmem f hf]

theorem ptFrames_congr {d : Nat} (h : k'.mem d = k.mem d) : ptFrames k' d = ptFrames k d := by
  simp only [ptFrames, h]

/-- Directories with unchanged contents have the same table frames. -/
theorem tabFrames_congr (h : ∀ d ∈ dirs, k'.mem d = k.mem d) :
    tabFrames dirs k' = tabFrames dirs k := by
  ext f
  simp only [mem_tabFrames]
  constructor
  · rintro (hf | ⟨d, hd, hf⟩)
    · exact .inl hf
    · exact .inr ⟨d, hd, by rwa [ptFrames_congr (h d hd)] at hf⟩
  · rintro (hf | ⟨d, hd, hf⟩)
    · exact .inl hf
    · exact .inr ⟨d, hd, by rwa [ptFrames_congr (h d hd)]⟩

/-- Separation depends only on the contents of the directories. -/
theorem Tables.congr (h : Tables dirs kp k) (hmem : ∀ d ∈ dirs, k'.mem d = k.mem d) :
    Tables dirs kp k' where
  kp_tab f hf := by rw [tabFrames_congr hmem]; exact h.kp_tab f hf
  pt_dirs d hd := by rw [hmem d hd]; exact h.pt_dirs d hd
  pt_inj d hd i hi hp d' hd' i' hi' hp' := by
    rw [hmem d hd] at hp ⊢
    rw [hmem d' hd'] at hp' ⊢
    exact h.pt_inj d hd i hi hp d' hd' i' hi' hp'
  pde_wu d hd := by rw [hmem d hd]; exact h.pde_wu d hd

/-- The kernel pages other than the tables may change freely. -/
theorem Tables.kp_subset (h : Tables dirs kp k) {kp' : Finset Nat} (hsub : kp' ⊆ kp) :
    Tables dirs kp' k :=
  { h with kp_tab := fun f hf => h.kp_tab f (hsub hf) }

theorem Tables.kp_insert (h : Tables dirs kp k) {f : Nat} (hf : f ∉ tabFrames dirs k) :
    Tables dirs (insert f kp) k :=
  { h with
    kp_tab := by
      intro g hg
      rcases Finset.mem_insert.mp hg with rfl | hg
      · exact hf
      · exact h.kp_tab g hg }

/-! ### Writing one entry -/

section
variable {d v f i : Nat} (h : Tables dirs kp k) (hd : d ∈ dirs) (hv : v < npages)
  (hloc : pteLoc k d v = some (f, i))
include h hd hv hloc

/-- A page-table page is not a directory. -/
theorem Tables.loc_not_dir : f ∉ dirs := by
  obtain ⟨hp, rfl, -⟩ := pteLoc_eq_some hloc
  unfold npages at hv
  exact h.pt_dirs d hd _ (by omega) hp

/-- Writing the entry of `(d, v)` leaves every directory page as it was. -/
theorem Tables.store_mem_dir {w : Word} {d' : Nat} (hd' : d' ∈ dirs) :
    (k.store f i w).mem d' = k.mem d' := by
  have hne : d' ≠ f := by
    rintro rfl
    exact h.loc_not_dir hd hv hloc hd'
  simp [Kmem.store, hne]

end

/-- Writing the entry of `(d, v)` changes the map there and nowhere else. -/
theorem Tables.pte_store (h : Tables dirs kp k) {d v f i : Nat} (w : Word) (hd : d ∈ dirs)
    (hv : v < npages) (hloc : pteLoc k d v = some (f, i)) {d' v' : Nat} (hd' : d' ∈ dirs)
    (hv' : v' < npages) :
    pte (k.store f i w) d' v' = if d' = d ∧ v' = v then w else pte k d' v' := by
  have hlocs : pteLoc (k.store f i w) d' v' = pteLoc k d' v' := by
    simp only [pteLoc, h.store_mem_dir (w := w) hd hv hloc hd']
  obtain ⟨hp, hf, hi⟩ := pteLoc_eq_some hloc
  cases hl : pteLoc k d' v' with
  | none =>
    have hne : ¬ (d' = d ∧ v' = v) := by
      rintro ⟨rfl, rfl⟩
      rw [hl] at hloc
      exact absurd hloc (by simp)
    rw [pte_of_no_loc (hlocs.trans hl), if_neg hne, pte_of_no_loc hl]
  | some q =>
    obtain ⟨f', i'⟩ := q
    obtain ⟨hp', hf', hi'⟩ := pteLoc_eq_some hl
    rw [pte_of_loc (hlocs.trans hl), pte_of_loc hl]
    by_cases hdv : d' = d ∧ v' = v
    · obtain ⟨rfl, rfl⟩ := hdv
      simp [Kmem.store, hf, hf', hi, hi']
    · rw [if_neg hdv]
      by_cases hff : f' = f
      · -- the same table: then the same directory entry, so another index in it
        have hsame := h.pt_inj d' hd' (v' / 1024) (by unfold npages at hv'; omega) hp'
          d hd (v / 1024) (by unfold npages at hv; omega) hp (by rw [← hf, ← hf', hff])
        have hii : i' ≠ i := by
          intro he
          exact hdv ⟨hsame.1, by omega⟩
        simp [Kmem.store, hff, hii]
      · simp [Kmem.store, hff]

/-- A write to an entry touches no frame outside the tables. -/
theorem store_mem_of_not_tab {d v f i g : Nat} {w : Word} (hd : d ∈ dirs) (hv : v < npages)
    (hloc : pteLoc k d v = some (f, i)) (hg : g ∉ tabFrames dirs k) :
    (k.store f i w).mem g = k.mem g := by
  have hne : g ≠ f := by
    rintro rfl
    exact hg (mem_tabFrames.mpr (.inr ⟨d, hd, pteLoc_mem_ptFrames hv hloc⟩))
  simp [Kmem.store, hne]

/-! ### A new page table, a new directory -/

/-- The entry `walkpgdir` writes for a new page table in frame `g`. -/
def tableEntry (g : Nat) : Word :=
  mkPte (v2p g) (PteFlag.p.mask ||| PteFlag.w.mask ||| PteFlag.u.mask)

theorem tableEntry_frame {g : Nat} (hg : g < npages) : pteFrame (tableEntry g) = g :=
  pteFrame_mkPte hg (((lowBits_mask _).or (lowBits_mask _)).or (lowBits_mask _))

@[simp] theorem tableEntry_has (g : Nat) (f : PteFlag) :
    has (tableEntry g) f = decide (f ≠ .cow) := by
  cases f <;> simp [tableEntry]

/-- Directory pages after a new page table `g` is entered at `(d, i)`. -/
theorem store_pde_mem (d i : Nat) (w : Word) (d' i' : Nat) :
    (k.store d i w).mem d' i' = if d' = d ∧ i' = i then w else k.mem d' i' := by
  by_cases hd : d' = d
  · subst hd
    by_cases hi : i' = i
    · subst hi; simp [Kmem.store]
    · simp [Kmem.store, hi]
  · simp [Kmem.store, hd]

variable {d i g : Nat}

/-- Entering a zeroed page `g` as page table adds `g` to the frames of `d`. -/
theorem ptFrames_newTable (hi : i < 1024) (habs : has (k.mem d i) .p = false) (hg : g < npages)
    (d' f : Nat) :
    f ∈ ptFrames (k.store d i (tableEntry g)) d' ↔ f ∈ ptFrames k d' ∨ (d' = d ∧ f = g) := by
  simp only [mem_ptFrames, store_pde_mem]
  constructor
  · rintro ⟨j, hj, hp, hf⟩
    by_cases hdj : d' = d ∧ j = i
    · rw [if_pos hdj, tableEntry_frame hg] at hf
      exact .inr ⟨hdj.1, hf.symm⟩
    · rw [if_neg hdj] at hp hf
      exact .inl ⟨j, hj, hp, hf⟩
  · rintro (⟨j, hj, hp, hf⟩ | ⟨rfl, rfl⟩)
    · have hdj : ¬ (d' = d ∧ j = i) := by
        rintro ⟨rfl, rfl⟩
        rw [habs] at hp
        exact absurd hp (by simp)
      exact ⟨j, hj, by rw [if_neg hdj]; exact hp, by rw [if_neg hdj]; exact hf⟩
    · exact ⟨i, hi, by simp, by simp [tableEntry_frame hg]⟩

theorem tabFrames_newTable (hd : d ∈ dirs) (hi : i < 1024) (habs : has (k.mem d i) .p = false)
    (hg : g < npages) :
    tabFrames dirs (k.store d i (tableEntry g)) = insert g (tabFrames dirs k) := by
  ext f
  simp only [mem_tabFrames, Finset.mem_insert, ptFrames_newTable hi habs hg]
  constructor
  · rintro (hf | ⟨d', hd', hf | ⟨-, rfl⟩⟩)
    · exact .inr (.inl hf)
    · exact .inr (.inr ⟨d', hd', hf⟩)
    · exact .inl rfl
  · rintro (rfl | hf | ⟨d', hd', hf⟩)
    · exact .inr ⟨d, hd, .inr ⟨rfl, rfl⟩⟩
    · exact .inl hf
    · exact .inr ⟨d', hd', .inl hf⟩

/-- Entering a kernel page `g` as page table keeps the frames apart. -/
theorem Tables.newTable (h : Tables dirs kp k) (hd : d ∈ dirs) (hi : i < 1024)
    (habs : has (k.mem d i) .p = false) (hg : g < npages) (hgk : g ∈ kp) :
    Tables dirs (kp.erase g) (k.store d i (tableEntry g)) := by
  have hgt : g ∉ tabFrames dirs k := h.kp_tab g hgk
  have hgd : g ∉ dirs := fun hm => hgt (dirs_subset_tabFrames hm)
  -- no old table is `g`
  have hold : ∀ d' ∈ dirs, ∀ j < 1024, has (k.mem d' j) .p = true → pteFrame (k.mem d' j) ≠ g := by
    rintro d' hd' j hj hp rfl
    exact hgt (mem_tabFrames.mpr (.inr ⟨d', hd', mem_ptFrames.mpr ⟨j, hj, hp, rfl⟩⟩))
  constructor
  · intro f hf
    obtain ⟨hne, hf⟩ := Finset.mem_erase.mp hf
    rw [tabFrames_newTable hd hi habs hg, Finset.mem_insert, not_or]
    exact ⟨hne, h.kp_tab f hf⟩
  · intro d' hd' j hj hp
    rw [store_pde_mem] at hp ⊢
    by_cases hdj : d' = d ∧ j = i
    · rw [if_pos hdj, tableEntry_frame hg]
      exact hgd
    · rw [if_neg hdj] at hp ⊢
      exact h.pt_dirs d' hd' j hj hp
  · intro d1 hd1 i1 hi1 hp1 d2 hd2 i2 hi2 hp2 hf
    simp only [store_pde_mem] at hp1 hp2 hf
    by_cases h1 : d1 = d ∧ i1 = i <;> by_cases h2 : d2 = d ∧ i2 = i
    · exact ⟨h1.1.trans h2.1.symm, h1.2.trans h2.2.symm⟩
    · rw [if_pos h1, if_neg h2, tableEntry_frame hg] at hf
      rw [if_neg h2] at hp2
      exact absurd hf.symm (hold d2 hd2 i2 hi2 hp2)
    · rw [if_neg h1, if_pos h2, tableEntry_frame hg] at hf
      rw [if_neg h1] at hp1
      exact absurd hf (hold d1 hd1 i1 hi1 hp1)
    · rw [if_neg h1] at hp1 hf
      rw [if_neg h2] at hp2 hf
      exact h.pt_inj d1 hd1 i1 hi1 hp1 d2 hd2 i2 hi2 hp2 hf
  · intro d' hd' j hj hp
    rw [store_pde_mem] at hp ⊢
    by_cases hdj : d' = d ∧ j = i
    · rw [if_pos hdj]; simp
    · rw [if_neg hdj] at hp ⊢
      exact h.pde_wu d' hd' j hj hp

/-- A zeroed page table adds no mappings. -/
theorem Tables.pte_newTable (h : Tables dirs kp k) (hd : d ∈ dirs)
    (habs : has (k.mem d i) .p = false) (hg : g < npages) (hgk : g ∈ kp)
    (hzero : ∀ j, k.mem g j = 0#32) {d' v : Nat} (hd' : d' ∈ dirs) (hv : v < npages) :
    pte (k.store d i (tableEntry g)) d' v = pte k d' v := by
  have hgt : g ∉ tabFrames dirs k := h.kp_tab g hgk
  have hgd : g ≠ d := by rintro rfl; exact hgt (dirs_subset_tabFrames hd)
  by_cases hdv : d' = d ∧ v / 1024 = i
  · obtain ⟨rfl, rfl⟩ := hdv
    have hl : pteLoc k d' v = none := by simp [pteLoc, habs]
    have hl' : pteLoc (k.store d' (v / 1024) (tableEntry g)) d' v = some (g, v % 1024) := by
      simp [pteLoc, store_pde_mem, tableEntry_frame hg]
    rw [pte_of_loc hl', pte_of_no_loc hl, store_pde_mem, if_neg (fun hc => hgd hc.1), hzero]
  · have hl : pteLoc (k.store d i (tableEntry g)) d' v = pteLoc k d' v := by
      simp only [pteLoc, store_pde_mem, if_neg hdv]
    cases hc : pteLoc k d' v with
    | none => rw [pte_of_no_loc hc, pte_of_no_loc (hl.trans hc)]
    | some q =>
      obtain ⟨f, j⟩ := q
      have hf : f ≠ d := by
        rintro rfl
        exact h.loc_not_dir hd' hv hc hd
      rw [pte_of_loc hc, pte_of_loc (hl.trans hc), store_pde_mem, if_neg (fun hc => hf hc.1)]

theorem ptFrames_zero (hzero : ∀ j, k.mem g j = 0#32) : ptFrames k g = ∅ := by
  ext f
  simp [mem_ptFrames, hzero]

theorem pte_zero_dir (hzero : ∀ j, k.mem g j = 0#32) (v : Nat) : pte k g v = 0#32 :=
  pte_of_no_loc (by simp [pteLoc, hzero])

theorem tabFrames_newDir (hzero : ∀ j, k.mem g j = 0#32) :
    tabFrames (insert g dirs) k = insert g (tabFrames dirs k) := by
  ext f
  simp only [mem_tabFrames, Finset.mem_insert]
  constructor
  · rintro ((rfl | hf) | ⟨d, rfl | hd, hf⟩)
    · exact .inl rfl
    · exact .inr (.inl hf)
    · rw [ptFrames_zero hzero] at hf
      exact absurd hf (by simp)
    · exact .inr (.inr ⟨d, hd, hf⟩)
  · rintro (rfl | hf | ⟨d, hd, hf⟩)
    · exact .inl (.inl rfl)
    · exact .inl (.inr hf)
    · exact .inr ⟨d, .inr hd, hf⟩

/-- A zeroed kernel page may become a directory. -/
theorem Tables.newDir (h : Tables dirs kp k) (hgk : g ∈ kp) (hzero : ∀ j, k.mem g j = 0#32) :
    Tables (insert g dirs) (kp.erase g) k := by
  have hgt : g ∉ tabFrames dirs k := h.kp_tab g hgk
  have hold : ∀ d' ∈ insert g dirs, ∀ j, has (k.mem d' j) .p = true → d' ∈ dirs := by
    intro d' hd' j hp
    rcases Finset.mem_insert.mp hd' with rfl | hd'
    · simp [hzero] at hp
    · exact hd'
  constructor
  · intro f hf
    obtain ⟨hne, hf⟩ := Finset.mem_erase.mp hf
    rw [tabFrames_newDir hzero, Finset.mem_insert, not_or]
    exact ⟨hne, h.kp_tab f hf⟩
  · intro d' hd' j hj hp hm
    have hd'' := hold d' hd' j hp
    rcases Finset.mem_insert.mp hm with he | hm
    · exact hgt (mem_tabFrames.mpr (.inr ⟨d', hd'', mem_ptFrames.mpr ⟨j, hj, hp, he⟩⟩))
    · exact h.pt_dirs d' hd'' j hj hp hm
  · intro d1 hd1 i1 hi1 hp1 d2 hd2 i2 hi2 hp2 hf
    exact h.pt_inj d1 (hold _ hd1 _ hp1) i1 hi1 hp1 d2 (hold _ hd2 _ hp2) i2 hi2 hp2 hf
  · intro d' hd' j hj hp
    exact h.pde_wu d' (hold _ hd' _ hp) j hj hp

/-! ### Retiring a directory -/

/-- Taking a directory out of use turns it and its tables into plain kernel
pages. -/
theorem Tables.retire (h : Tables dirs kp k) (hd : d ∈ dirs) :
    Tables (dirs.erase d) (kp ∪ insert d (ptFrames k d)) k := by
  have hsub : ∀ d' ∈ dirs.erase d, d' ∈ dirs := fun d' hd' => Finset.mem_of_mem_erase hd'
  constructor
  · intro f hf hm
    rcases mem_tabFrames.mp hm with hfd | ⟨d', hd', hfd⟩
    · rcases Finset.mem_union.mp hf with hk | hf
      · exact h.kp_tab f hk (dirs_subset_tabFrames (hsub f hfd))
      · rcases Finset.mem_insert.mp hf with rfl | hf
        · exact absurd hfd (Finset.notMem_erase _ _)
        · obtain ⟨i, hi, hp, rfl⟩ := mem_ptFrames.mp hf
          exact h.pt_dirs d hd i hi hp (hsub _ hfd)
    · rcases Finset.mem_union.mp hf with hk | hf
      · exact h.kp_tab f hk (mem_tabFrames.mpr (.inr ⟨d', hsub d' hd', hfd⟩))
      · obtain ⟨i', hi', hp', rfl⟩ := mem_ptFrames.mp hfd
        rcases Finset.mem_insert.mp hf with he | hf
        · exact h.pt_dirs d' (hsub d' hd') i' hi' hp' (by rw [he]; exact hd)
        · obtain ⟨i, hi, hp, he⟩ := mem_ptFrames.mp hf
          have := h.pt_inj d hd i hi hp d' (hsub d' hd') i' hi' hp' he
          exact Finset.ne_of_mem_erase hd' this.1.symm
  · exact fun d' hd' i hi hp hm => h.pt_dirs d' (hsub d' hd') i hi hp (hsub _ hm)
  · exact fun d1 hd1 i1 hi1 hp1 d2 hd2 i2 hi2 hp2 hf =>
      h.pt_inj d1 (hsub d1 hd1) i1 hi1 hp1 d2 (hsub d2 hd2) i2 hi2 hp2 hf
  · exact fun d' hd' i hi hp => h.pde_wu d' (hsub d' hd') i hi hp

/-- The frames in use by tables are split between the retired directory and the
others. -/
theorem tabFrames_retire (hd : d ∈ dirs) (f : Nat) :
    f ∈ tabFrames dirs k ↔ f ∈ tabFrames (dirs.erase d) k ∨ f ∈ insert d (ptFrames k d) := by
  simp only [mem_tabFrames, Finset.mem_insert, Finset.mem_erase]
  constructor
  · rintro (hf | ⟨d', hd', hf⟩)
    · by_cases he : f = d
      · exact .inr (.inl he)
      · exact .inl (.inl ⟨he, hf⟩)
    · by_cases he : d' = d
      · exact .inr (.inr (he ▸ hf))
      · exact .inl (.inr ⟨d', ⟨he, hd'⟩, hf⟩)
  · rintro ((hf | ⟨d', hd', hf⟩) | rfl | hf)
    · exact .inl hf.2
    · exact .inr ⟨d', hd'.2, hf⟩
    · exact .inl hd
    · exact .inr ⟨d, hd, hf⟩

end

end Xv6
