import Xv6.RefCount.Walk

/-!
# Xv6.RefCount.Unmap

How the functions that release user pages end: `kfree` on kernel pages,
`deallocuvm`, `vm_unmap_range` and `freevm`. From the invariant none of their
panics can happen.

`Unmapped … P k k'` is the common effect: the pages of `d` selected by `P` are
gone, every other user page looks as before.
-/

namespace Xv6

variable [Layout] {man : Nat → Prop} {dirs kp : Finset Nat} {k k' : Kmem} {d v f : Nat}

/-! ### Kernel pages -/

/-- `kfree` of a page the kernel owns outright. -/
theorem kfree_spec (h : Inv man dirs kp k) (hf : f ∈ kp) :
    Ends (kfree f) k (fun _ k' => k' = k.decref f ∧ Inv man dirs (kp.erase f) k' ∧
      (∀ d ∈ dirs, ∀ v < nupages, upage k' d v = upage k d v) ∧ k'.oom = k.oom ∧
      k.freelist.length ≤ k'.freelist.length) := by
  obtain ⟨hlo, hhi⟩ := h.man_range f (h.kp_man hf)
  rw [ends_kfree hlo hhi (by rw [h.kp_refcnt hf]; omega)]
  refine ⟨rfl, h.kfree hf, fun d hd v hv => h.upage_kfree hf hd hv, by simp,
    k.length_le_decref f⟩

theorem Inv.apart_kfree (h : Inv man dirs kp k) (hf : f ∈ kp) : Apart man dirs d k (k.decref f) :=
  .decref (h.kp_man hf) (h.kp_not_dir hf)

/-! ### Releasing user pages -/

/-- The pages of `d` selected by `P` are gone, and nothing else has changed. -/
structure Unmapped (man : Nat → Prop) (dirs kp : Finset Nat) (d : Nat) (P : Nat → Prop)
    (k k' : Kmem) : Prop where
  inv : Inv man dirs kp k'
  gone : ∀ v < nupages, P v → upage k' d v = none
  same : ∀ d' ∈ dirs, ∀ v < nupages, ¬ (d' = d ∧ P v) → upage k' d' v = upage k d' v
  oom : k'.oom = k.oom
  free : k.freelist.length ≤ k'.freelist.length
  apart : Apart man dirs d k k'

namespace Unmapped

variable {P Q : Nat → Prop} {k1 : Kmem}

theorem absent (h : Inv man dirs kp k) (hP : ∀ v < nupages, P v → upage k d v = none) :
    Unmapped man dirs kp d P k k :=
  ⟨h, hP, fun _ _ _ _ _ => rfl, rfl, le_rfl, .refl k⟩

theorem trans (hd : d ∈ dirs) (h1 : Unmapped man dirs kp d P k k1)
    (h2 : Unmapped man dirs kp d Q k1 k') : Unmapped man dirs kp d (fun v => P v ∨ Q v) k k' where
  inv := h2.inv
  gone v hv hPQ := by
    by_cases hQ : Q v
    · exact h2.gone v hv hQ
    · rw [h2.same d hd v hv (fun hc => hQ hc.2)]
      exact h1.gone v hv (hPQ.resolve_right hQ)
  same d' hd' v hv hne := by
    rw [h2.same d' hd' v hv (fun hc => hne ⟨hc.1, .inr hc.2⟩)]
    exact h1.same d' hd' v hv (fun hc => hne ⟨hc.1, .inl hc.2⟩)
  oom := h2.oom.trans h1.oom
  free := h1.free.trans h2.free
  apart := h1.apart.trans h2.apart

theorem congr (h : Unmapped man dirs kp d P k k') (hPQ : ∀ v < nupages, Q v ↔ P v) :
    Unmapped man dirs kp d Q k k' where
  inv := h.inv
  gone v hv hQ := h.gone v hv ((hPQ v hv).mp hQ)
  same d' hd' v hv hne := h.same d' hd' v hv (fun hc => hne ⟨hc.1, (hPQ v hv).mpr hc.2⟩)
  oom := h.oom
  free := h.free
  apart := h.apart

end Unmapped

/-- Frame 0 holds the kernel's low memory, so no user page is mapped to it. -/
theorem Inv.v2p_ne_zero (h : Inv man dirs kp k) (hf : man f) : v2p f ≠ 0 := by
  have hlo := (h.man_range f hf).1
  have := Layout.kernlink_lt_data
  have := Layout.data_le_kend
  simp only [kernlink, extmem] at *
  omega

theorem unmapPte_spec {oops : Panic} {p : Nat × Nat} (h : Inv man dirs kp k) (hd : d ∈ dirs)
    (hv : v < nupages) (hloc : pteLoc k d v = some p) :
    Ends (unmapPte oops p) k (fun _ k' => Unmapped man dirs kp d (· = v) k k') := by
  have hpte : k.mem p.1 p.2 = pte k d v := (pte_of_loc hloc).symm
  rw [unmapPte, ends_bind, ends_readWord, hpte, ends_ite]
  refine ⟨fun hp => ?_, fun hp => ?_⟩
  · have hman := (h.user_man hd hv hp).1
    obtain ⟨hlo, hhi⟩ := h.man_range _ hman
    have hvn := hv.trans nupages_lt
    rw [pteAddr_eq_v2p, if_neg (h.v2p_ne_zero hman), ends_bind, p2v, v2p,
      Nat.mul_div_cancel _ (by decide), ends_kfree hlo hhi (h.user_refcnt_pos hd hv hp),
      ends_writeWord]
    have hapart : Apart man dirs d k (k.decref (pteFrame (pte k d v))) :=
      .decref hman fun hdir => h.user_not_tab hd hv hp (dirs_subset_tabFrames hdir)
    refine ⟨h.unmap hd hv hloc hp, ?_, ?_, ?_, k.length_le_decref _,
      hapart.trans (.store fun ht => absurd ht (h.tables.loc_not_dir hd hvn hloc))⟩
    · rintro v' hv' rfl
      rw [upage_eq_none, h.setPte_drop hd hv hloc hp d hd _ hvn, if_pos ⟨rfl, rfl⟩, has_zero]
    · exact fun d' hd' v' hv' hne => h.upage_drop hd hv hloc hp hd' hv' hne
    · simp [Kmem.store]
  · refine .ret (Unmapped.absent h ?_)
    rintro v' - rfl
    rw [upage_eq_none]
    simpa using hp

omit [Layout] in
theorem upage_of_no_loc (hloc : pteLoc k d v = none) : upage k d v = none := by
  rw [upage_eq_none, pte_of_no_loc hloc, has_zero]

theorem vmUnmapPage_spec {va : Nat} (h : Inv man dirs kp k) (hd : d ∈ dirs)
    (hv : vpn va < nupages) (hva : va < 2 ^ 32) :
    Ends (vmUnmapPage d va) k (fun r k' => r = none ∧
      Unmapped man dirs kp d (· = vpn va) k k') := by
  rw [vmUnmapPage, ends_bind, ends_walkpgdir_false hva]
  cases hloc : pteLoc k d (vpn va) with
  | none =>
    refine .ret ⟨rfl, Unmapped.absent h ?_⟩
    rintro v - rfl
    exact upage_of_no_loc hloc
  | some p =>
    exact (unmapPte_spec h hd hv hloc).bind fun _ _ h' => .ret ⟨rfl, h'⟩

omit [Layout] in
/-- A loop over the pages of a range. `C P` is the effect of its rounds on the pages `P`. -/
theorem ends_forPages {start length : Nat} {body : Nat → KM (Option Unit)}
    {C : (Nat → Prop) → Kmem → Prop} (hend : start + length ≤ kernbase)
    (hnil : C (fun _ => False) k)
    (hcongr : ∀ P Q k', (∀ v < nupages, Q v ↔ P v) → C P k' → C Q k')
    (hbody : ∀ a P k1, vpn a < nupages → a < 2 ^ 32 → ¬ P (vpn a) → C P k1 →
      Ends (body a) k1 (fun r k2 => r = none ∧ C (fun v => P v ∨ v = vpn a) k2)) :
    Ends (forUint (u32 (start + length)) pgsize body npages start) k (fun r k' => r = none ∧
      C (fun v => vpn start ≤ v ∧ v * 4096 + start % 4096 < start + length) k') := by
  have hstop : u32 (start + length) = start + length := by
    simp only [u32, kernbase] at *
    omega
  rw [hstop]
  refine (ends_forUint (start + length) pgsize body
    (I := fun a k' => start ≤ a ∧ a % 4096 = start % 4096 ∧
      (a < start + length + 4096 ∨ a = start) ∧ C (fun v => vpn start ≤ v ∧ v < vpn a) k')
    (R := fun _ _ => False) ?_ ?_ npages start k ?_ ?_).imp ?_
  · rintro a k1 ha ⟨hge, hmod, -, hC⟩
    have hv : vpn a < nupages := by
      simp only [vpn, nupages, kernbase, pgsize] at *
      omega
    have hstep : vpn (a + pgsize) = vpn a + 1 := by
      simp only [vpn, pgsize]
      omega
    have hle : vpn start ≤ vpn a := Nat.div_le_div_right hge
    refine (hbody a _ k1 hv (by simp only [kernbase] at *; omega) (by omega) hC).imp ?_
    rintro r k2 ⟨rfl, hC2⟩
    refine ⟨by omega, by simp only [pgsize]; omega, .inl (by simp only [pgsize]; omega),
      hcongr _ _ _ (fun v _ => ?_) hC2⟩
    omega
  · simp only [kernbase, pgsize] at *
    omega
  · simp only [kernbase, pgsize, npages] at *
    omega
  · exact ⟨le_rfl, rfl, .inr rfl, hcongr _ _ _ (fun v _ => iff_of_false (by omega) id) hnil⟩
  · intro r k' hr
    cases r with
    | some _ => exact absurd hr id
    | none =>
      obtain ⟨a, hstop', hge, hmod, hlt, hC⟩ := hr
      refine ⟨rfl, hcongr _ _ _ (fun v hv => ?_) hC⟩
      simp only [vpn, pgsize]
      omega

/-- `vm_unmap_range` releases the pages it steps through. -/
theorem vmUnmapRange_spec {start length : Nat} (h : Inv man dirs kp k) (hd : d ∈ dirs)
    (hend : start + length ≤ kernbase) :
    Ends (vmUnmapRange d start length) k (fun r k' => r = 0 ∧
      Unmapped man dirs kp d
        (fun v => vpn start ≤ v ∧ v * 4096 + start % 4096 < start + length) k k') := by
  rw [vmUnmapRange, ends_bind]
  refine (ends_forPages (C := fun P k' => Unmapped man dirs kp d P k k') hend
    (.absent h fun _ _ hf => hf.elim) (fun P Q k' hPQ hC => hC.congr hPQ)
    fun a P k1 hv hva _ hC => ?_).imp ?_
  · exact (vmUnmapPage_spec hC.inv hd hv hva).imp fun r k2 h2 => ⟨h2.1, hC.trans hd h2.2⟩
  · rintro r k' ⟨rfl, hun⟩
    exact .ret ⟨rfl, hun⟩

/-- The loop of `deallocuvm`, with its jumps over absent page tables. -/
theorem deallocuvmLoop_spec {oldsz : Nat} (hd : d ∈ dirs) (hold : oldsz ≤ kernbase) :
    ∀ (fuel a : Nat) (k : Kmem), Inv man dirs kp k → a % 4096 = 0 → oldsz ≤ a + 4096 * fuel →
      Ends (deallocuvmLoop d oldsz fuel a) k (fun _ k' =>
        Unmapped man dirs kp d (fun v => a ≤ v * 4096 ∧ v * 4096 < oldsz) k k') := by
  intro fuel
  induction fuel with
  | zero =>
    intro a k h ha hfuel
    refine .ret (Unmapped.absent h fun v _ hv => ?_)
    omega
  | succ fuel ih =>
    intro a k h ha hfuel
    rw [deallocuvmLoop, ends_ite]
    refine ⟨fun hlt => ?_, fun hge => .ret (Unmapped.absent h fun v _ hv => by omega)⟩
    have hv : vpn a < nupages := by
      simp only [vpn, nupages, kernbase, pgsize] at *
      omega
    have ha32 : a < 2 ^ 32 := by
      simp only [kernbase] at hold
      omega
    rw [ends_bind, ends_walkpgdir_false ha32]
    cases hloc : pteLoc k d (vpn a) with
    | none =>
      -- the rest of this table's range has no entries at all
      have hjump : u32 (u32 (pgaddr (pdx a + 1) 0 0 + 2 ^ 32 - pgsize) + pgsize) =
          (vpn a / 1024 + 1) * 4194304 := by
        simp only [u32, pgaddr, pdx_eq ha32, vpn, pgsize, kernbase] at *
        omega
      have hskip : Unmapped man dirs kp d
          (fun v => a ≤ v * 4096 ∧ v * 4096 < (vpn a / 1024 + 1) * 4194304 ∧
            v * 4096 < oldsz) k k := by
        refine Unmapped.absent h fun v _ hv => upage_of_no_loc ?_
        have hsame : v / 1024 = vpn a / 1024 := by
          simp only [vpn, pgsize] at *
          omega
        rw [pteLoc_eq_none, hsame]
        exact pteLoc_eq_none.mp hloc
      rw [hjump]
      refine (ih _ k h (by omega) (by simp only [vpn, pgsize]; omega)).imp (fun _ k' hk' =>
        (hskip.trans hd hk').congr fun v _ => ?_)
      simp only [vpn, pgsize]
      omega
    | some p =>
      have hwrap : u32 (a + pgsize) = a + 4096 := by
        simp only [u32, pgsize, kernbase] at *
        omega
      rw [ends_bind, hwrap]
      refine (unmapPte_spec h hd hv hloc).imp (fun _ k1 h1 => ?_)
      refine (ih _ k1 h1.inv (by omega) (by omega)).imp (fun _ k' hk' =>
        (h1.trans hd hk').congr fun v _ => ?_)
      simp only [vpn, pgsize]
      omega

/-- `deallocuvm` releases the pages between the two sizes. -/
theorem deallocuvm_spec {oldsz newsz : Nat} (h : Inv man dirs kp k) (hd : d ∈ dirs)
    (hold : oldsz ≤ kernbase) :
    Ends (deallocuvm d oldsz newsz) k (fun r k' => r = min oldsz newsz ∧
      Unmapped man dirs kp d (fun v => newsz ≤ v * 4096 ∧ v * 4096 < oldsz) k k') := by
  rw [deallocuvm, ends_ite]
  refine ⟨fun hle => .ret ⟨by omega, Unmapped.absent h fun v _ hv => by omega⟩, fun hgt => ?_⟩
  have hround : pgroundup newsz = (newsz + 4095) / 4096 * 4096 := by
    refine pgroundup_eq ?_
    simp only [kernbase] at hold
    omega
  rw [ends_bind, hround]
  refine (deallocuvmLoop_spec hd hold npages _ k h (by omega) ?_).imp (fun _ k' hk' =>
    .ret ⟨by omega, hk'.congr fun v _ => by omega⟩)
  simp only [npages, kernbase] at *
  omega

/-! ### `freevm` -/

/-- The page tables of `d` in the entries from `i` on. -/
def ptFramesFrom (k : Kmem) (d i : Nat) : Finset Nat :=
  ((Finset.range npdentries).filter fun j => i ≤ j ∧ has (k.mem d j) .p).image fun j =>
    pteFrame (k.mem d j)

section
omit [Layout]

theorem mem_ptFramesFrom {i : Nat} : f ∈ ptFramesFrom k d i ↔
    ∃ j < 1024, i ≤ j ∧ has (k.mem d j) .p = true ∧ pteFrame (k.mem d j) = f := by
  simp [ptFramesFrom, npdentries, and_assoc]

theorem ptFramesFrom_zero : ptFramesFrom k d 0 = ptFrames k d := by
  simp [ptFramesFrom, ptFrames]

theorem ptFramesFrom_end {i : Nat} (hi : 1024 ≤ i) : ptFramesFrom k d i = ∅ := by
  ext f
  simp only [mem_ptFramesFrom, Finset.notMem_empty, iff_false]
  rintro ⟨j, hj, hij, -⟩
  omega

theorem ptFramesFrom_absent {i : Nat} (habs : has (k.mem d i) .p = false) :
    ptFramesFrom k d (i + 1) = ptFramesFrom k d i := by
  ext f
  simp only [mem_ptFramesFrom]
  constructor
  · rintro ⟨j, hj, hij, hp, hf⟩
    exact ⟨j, hj, by omega, hp, hf⟩
  · rintro ⟨j, hj, hij, hp, hf⟩
    have hne : j ≠ i := by
      rintro rfl
      rw [habs] at hp
      exact absurd hp (by simp)
    exact ⟨j, hj, by omega, hp, hf⟩

/-- Releasing the table in entry `i` leaves those after it. -/
theorem ptFramesFrom_erase {i : Nat} (htab : Tables dirs kp k) (hd : d ∈ dirs) (hi : i < 1024)
    (hp : has (k.mem d i) .p = true) :
    (kp ∪ insert d (ptFramesFrom k d i)).erase (pteFrame (k.mem d i)) =
      kp ∪ insert d (ptFramesFrom k d (i + 1)) := by
  have hpt : pteFrame (k.mem d i) ∈ ptFrames k d := mem_ptFrames.mpr ⟨i, hi, hp, rfl⟩
  have hkp : pteFrame (k.mem d i) ∉ kp := fun hk =>
    htab.kp_tab _ hk (mem_tabFrames.mpr (.inr ⟨d, hd, hpt⟩))
  have hnd : pteFrame (k.mem d i) ≠ d := by
    intro he
    exact htab.pt_dirs d hd i hi hp (by rw [he]; exact hd)
  ext f
  simp only [Finset.mem_erase, Finset.mem_union, Finset.mem_insert, mem_ptFramesFrom]
  constructor
  · rintro ⟨hne, hf | rfl | ⟨j, hj, hij, hpj, rfl⟩⟩
    · exact .inl hf
    · exact .inr (.inl rfl)
    · have : j ≠ i := by rintro rfl; exact hne rfl
      exact .inr (.inr ⟨j, hj, by omega, hpj, rfl⟩)
  · rintro (hf | rfl | ⟨j, hj, hij, hpj, rfl⟩)
    · exact ⟨fun he => hkp (he ▸ hf), .inl hf⟩
    · exact ⟨hnd.symm, .inr (.inl rfl)⟩
    · refine ⟨fun he => ?_, .inr (.inr ⟨j, hj, by omega, hpj, rfl⟩)⟩
      have := (htab.pt_inj d hd j hj hpj d hd i hi hp he).2
      omega

end

/-- `freevm` takes a directory out of use and gives all its frames back. -/
theorem freevm_spec (h : Inv man dirs kp k) (hd : d ∈ dirs) :
    Ends (freevm d) k (fun _ k' => Inv man (dirs.erase d) kp k' ∧
      (∀ d' ∈ dirs.erase d, ∀ v < nupages, upage k' d' v = upage k d' v) ∧ k'.oom = k.oom ∧
      k.freelist.length ≤ k'.freelist.length ∧ Apart man dirs d k k') := by
  rw [freevm]
  refine (deallocuvm_spec h hd le_rfl).bind ?_
  rintro - k1 ⟨-, hun⟩
  have hgone : ∀ v < nupages, upage k1 d v = none := by
    intro v hv
    refine hun.gone v hv ⟨Nat.zero_le _, ?_⟩
    simp only [nupages, kernbase, pgsize] at *
    omega
  have hret := hun.inv.retire hd hgone
  have hdkp : d ∉ kp := fun hk => hun.inv.kp_not_tab hk (dirs_subset_tabFrames hd)
  rw [← ptFramesFrom_zero] at hret
  -- the loop releases the tables; the directory page itself stays readable
  have hloop := ends_forUint npdentries 1 (freevmTable d)
    (I := fun i k' => Inv man (dirs.erase d) (kp ∪ insert d (ptFramesFrom k1 d i)) k' ∧
      k'.mem d = k1.mem d ∧
      (∀ d' ∈ dirs.erase d, ∀ v < nupages, upage k' d' v = upage k d' v) ∧ k'.oom = k.oom ∧
      k.freelist.length ≤ k'.freelist.length ∧ Apart man (dirs.erase d) d k k')
    (R := fun _ _ => False) (E := fun _ => False) ?_ (by decide) npdentries 0 k1 (by decide) ?_
  · refine hloop.bind ?_
    intro r k2 hr
    cases r with
    | some _ => exact absurd hr id
    | none =>
      obtain ⟨i, hi, hinv, -, hup, hoom, hfree, hapart⟩ := hr
      rw [ptFramesFrom_end (by simpa [npdentries] using hi)] at hinv
      refine (kfree_spec hinv (f := d) (by simp)).imp ?_
      rintro - k3 ⟨rfl, hinv3, hup3, hoom3, hfree3⟩
      have hkp : (kp ∪ insert d ∅).erase d = kp := by
        rw [insert_empty_eq, Finset.union_comm, ← Finset.insert_eq, Finset.erase_insert hdkp]
      rw [hkp] at hinv3
      exact ⟨hinv3, fun d' hd' v hv => (hup3 d' hd' v hv).trans (hup d' hd' v hv),
        hoom3.trans hoom, hfree.trans hfree3, (hapart.trans (hinv.apart_kfree (by simp))).mono
          fun d' hd' hne => ⟨Finset.mem_erase.mpr ⟨hne, hd'⟩, hne⟩⟩
  · rintro i k2 hi ⟨hinv, hmem, hup, hoom, hfree, hapart⟩
    have hi' : i < 1024 := hi
    rw [freevmTable, ends_bind, ends_readWord, hmem, ends_ite]
    refine ⟨fun hp => ?_, fun hp => ?_⟩
    · have hmemf : pteFrame (k1.mem d i) ∈ kp ∪ insert d (ptFramesFrom k1 d i) := by
        simp only [Finset.mem_union, Finset.mem_insert, mem_ptFramesFrom]
        exact .inr (.inr ⟨i, hi', le_rfl, hp, rfl⟩)
      have hnd : d ≠ pteFrame (k1.mem d i) := by
        intro he
        exact hun.inv.tables.pt_dirs d hd i hi' hp (by rw [← he]; exact hd)
      refine (kfree_spec hinv hmemf).bind ?_
      rintro - k3 ⟨hk3, hinv3, hup3, hoom3, hfree3⟩
      rw [ptFramesFrom_erase hun.inv.tables hd hi' hp] at hinv3
      refine .ret ⟨hinv3, ?_, fun d' hd' v hv => (hup3 d' hd' v hv).trans (hup d' hd' v hv),
        hoom3.trans hoom, hfree.trans hfree3,
        by rw [hk3]; exact hapart.trans (hinv.apart_kfree hmemf)⟩
      rw [hk3, Kmem.decref_mem_of_ne _ hnd, hmem]
    · rw [ends_pure, ptFramesFrom_absent (by simpa using hp)]
      exact ⟨hinv, hmem, hup, hoom, hfree, hapart⟩
  · exact ⟨hret, rfl, fun d' hd' v hv => hun.same d' (Finset.mem_of_mem_erase hd') v hv
      (fun hc => Finset.ne_of_mem_erase hd' hc.1), hun.oom, hun.free,
      hun.apart.mono fun d' hd' hne => ⟨Finset.mem_of_mem_erase hd', hne⟩⟩

end Xv6
