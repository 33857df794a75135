import Xv6.Boot

/-!
# Xv6.Growth

`allocuvm` and `deallocuvm` against each other and against a plain loop.

`unmapPages` visits a list of pages one by one and never skips; `deallocuvm` jumps over the range
of an absent page table. On every state the two are the same computation, which is what makes the
jump an optimisation only. What growing does, and that a failed growth is undone, is read off the
specifications of the two functions under the memory invariant.
-/

namespace Xv6

section
variable [Layout] {k k' : Kmem} {d : Nat}

/-! ### The plain loop -/

/-- Release the pages at the given addresses, one after another. -/
def unmapPages (pgdir : Nat) : List Nat → KM Unit
  | [] => pure ()
  | a :: as => do
    match ← walkpgdir pgdir a false with
    | none => unmapPages pgdir as
    | some pte => do
      unmapPte .kfree pte
      unmapPages pgdir as

/-- The addresses `a`, `a + PGSIZE`, … below `stop`. -/
def pageAddrs (a stop : Nat) : List Nat :=
  (List.range ((stop - a + 4095) / 4096)).map fun i => a + i * 4096

section
omit [Layout]

theorem pageAddrs_nil {a stop : Nat} (h : stop ≤ a) : pageAddrs a stop = [] := by
  have hn : (stop - a + 4095) / 4096 = 0 := by omega
  rw [pageAddrs, hn]
  rfl

theorem pageAddrs_cons {a stop : Nat} (h : a < stop) :
    pageAddrs a stop = a :: pageAddrs (a + 4096) stop := by
  have hn : (stop - a + 4095) / 4096 = (stop - (a + 4096) + 4095) / 4096 + 1 := by omega
  rw [pageAddrs, pageAddrs, hn, List.range_succ_eq_map, List.map_cons, List.map_map, Nat.zero_mul,
    Nat.add_zero]
  congr 1
  refine List.map_congr_left fun i _ => ?_
  simp only [Function.comp_apply]
  omega

theorem walkpgdir_false_run {va : Nat} (hva : va < 2 ^ 32) :
    (walkpgdir d va false).run k = .ok (pteLoc k d (vpn va), k) := by
  rw [run_eq_ok, ends_walkpgdir_false hva]
  exact ⟨rfl, rfl⟩

end

theorem unmapPages_none {a : Nat} {as : List Nat} (ha : a < 2 ^ 32)
    (h : pteLoc k d (vpn a) = none) :
    (unmapPages d (a :: as)).run k = (unmapPages d as).run k := by
  rw [unmapPages, StateT.run_bind, walkpgdir_false_run ha, h]
  rfl

theorem unmapPages_some {a : Nat} {as : List Nat} {q : Nat × Nat} (ha : a < 2 ^ 32)
    (h : pteLoc k d (vpn a) = some q) :
    (unmapPages d (a :: as)).run k = (do unmapPte .kfree q; unmapPages d as : KM Unit).run k := by
  rw [unmapPages, StateT.run_bind, walkpgdir_false_run ha, h]
  rfl

/-- The plain loop does nothing on pages without a page table. -/
theorem unmapPages_skip {stop : Nat} (hstop : stop ≤ kernbase) (n : Nat) :
    ∀ a, (∀ i < n, pteLoc k d (vpn (a + i * 4096)) = none) →
      (unmapPages d (pageAddrs a stop)).run k =
        (unmapPages d (pageAddrs (a + n * 4096) stop)).run k := by
  induction n with
  | zero =>
    intro a _
    rw [Nat.zero_mul, Nat.add_zero]
  | succ n ih =>
    intro a hnone
    have hnext : ∀ i < n, pteLoc k d (vpn (a + 4096 + i * 4096)) = none := by
      intro i hi
      have hi' := hnone (i + 1) (by omega)
      rwa [show a + (i + 1) * 4096 = a + 4096 + i * 4096 by omega] at hi'
    rw [show a + (n + 1) * 4096 = a + 4096 + n * 4096 by omega, ← ih (a + 4096) hnext]
    by_cases hlt : a < stop
    · have hfirst := hnone 0 (by omega)
      rw [Nat.zero_mul, Nat.add_zero] at hfirst
      rw [pageAddrs_cons hlt, unmapPages_none (by simp only [kernbase] at hstop; omega) hfirst]
    · rw [pageAddrs_nil (by omega), pageAddrs_nil (by omega)]

omit [Layout] in
/-- Where `a = PGADDR(PDX(a) + 1, 0, 0) - PGSIZE` and the step after it lead: to the first page of
the next page table. -/
theorem jump_eq {a : Nat} (ha : a < kernbase) :
    u32 (u32 (pgaddr (pdx a + 1) 0 0 + 2 ^ 32 - pgsize) + pgsize) =
      (vpn a / 1024 + 1) * 4194304 := by
  have ha32 : a < 2 ^ 32 := by
    simp only [kernbase] at ha
    omega
  simp only [u32, pgaddr, pdx_eq ha32, vpn, pgsize, kernbase] at *
  omega

section
variable {a stop fuel : Nat}

theorem deallocuvmLoop_none (hlt : a < stop) (ha : a < 2 ^ 32)
    (h : pteLoc k d (vpn a) = none) :
    (deallocuvmLoop d stop (fuel + 1) a).run k = (deallocuvmLoop d stop fuel
      (u32 (u32 (pgaddr (pdx a + 1) 0 0 + 2 ^ 32 - pgsize) + pgsize))).run k := by
  rw [deallocuvmLoop, if_pos hlt, StateT.run_bind, walkpgdir_false_run ha, h]
  rfl

theorem deallocuvmLoop_some {q : Nat × Nat} (hlt : a < stop) (ha : a < 2 ^ 32)
    (h : pteLoc k d (vpn a) = some q) :
    (deallocuvmLoop d stop (fuel + 1) a).run k =
      (do unmapPte .kfree q; deallocuvmLoop d stop fuel (u32 (a + pgsize)) : KM Unit).run k := by
  rw [deallocuvmLoop, if_pos hlt, StateT.run_bind, walkpgdir_false_run ha, h]
  rfl

end

theorem deallocuvmLoop_eq {stop : Nat} (hstop : stop ≤ kernbase) (fuel : Nat) :
    ∀ (a : Nat) (k : Kmem), a % 4096 = 0 → stop ≤ a + 4096 * fuel →
      (deallocuvmLoop d stop fuel a).run k = (unmapPages d (pageAddrs a stop)).run k := by
  induction fuel with
  | zero =>
    intro a k _ hfuel
    rw [pageAddrs_nil (by omega), deallocuvmLoop, unmapPages]
  | succ fuel ih =>
    intro a k ha hfuel
    by_cases hlt : a < stop
    · have ha32 : a < 2 ^ 32 := by
        simp only [kernbase] at hstop
        omega
      cases hloc : pteLoc k d (vpn a) with
      | none =>
        -- the plain loop walks to where the jump leads without finding an entry
        have hskip : ∀ i < 1024 - vpn a % 1024,
            pteLoc k d (vpn (a + i * 4096)) = none := by
          intro i hi
          have hsame : vpn (a + i * 4096) / 1024 = vpn a / 1024 := by
            simp only [vpn, pgsize] at *
            omega
          rw [pteLoc_eq_none, hsame]
          exact pteLoc_eq_none.mp hloc
        have hend : a + (1024 - vpn a % 1024) * 4096 = (vpn a / 1024 + 1) * 4194304 := by
          simp only [vpn, pgsize]
          omega
        have hpos : 0 < 1024 - vpn a % 1024 := by omega
        rw [deallocuvmLoop_none hlt ha32 hloc, jump_eq (by omega),
          unmapPages_skip hstop _ a hskip, hend]
        exact ih _ k (by omega) (by omega)
      | some q =>
        have hwrap : u32 (a + pgsize) = a + 4096 := by
          simp only [u32, pgsize, kernbase] at *
          omega
        have hrest : deallocuvmLoop d stop fuel (a + 4096) =
            unmapPages d (pageAddrs (a + 4096) stop) :=
          StateT.ext fun k1 => ih (a + 4096) k1 (by omega) (by omega)
        rw [deallocuvmLoop_some hlt ha32 hloc, pageAddrs_cons hlt, unmapPages_some ha32 hloc,
          hwrap, hrest]
    · rw [deallocuvmLoop, if_neg hlt, pageAddrs_nil (by omega), unmapPages]

/-- `deallocuvm` is the plain loop over `[PGROUNDUP(newsz), oldsz)`. -/
theorem deallocuvm_eq {oldsz newsz : Nat} (hold : oldsz ≤ kernbase) (hnew : newsz ≤ kernbase) :
    deallocuvm d oldsz newsz = do
      unmapPages d (pageAddrs (pgroundup newsz) oldsz)
      return min oldsz newsz := by
  have hround : pgroundup newsz = (newsz + 4095) / 4096 * 4096 := by
    refine pgroundup_eq ?_
    simp only [kernbase] at hnew
    omega
  rw [deallocuvm, hround]
  by_cases hle : oldsz ≤ newsz
  · rw [if_pos hle, pageAddrs_nil (by omega), min_eq_left hle]
    rfl
  · have hloop : deallocuvmLoop d oldsz npages ((newsz + 4095) / 4096 * 4096) =
        unmapPages d (pageAddrs ((newsz + 4095) / 4096 * 4096) oldsz) := by
      refine StateT.ext fun k => deallocuvmLoop_eq hold npages _ k (by omega) ?_
      simp only [kernbase, npages] at *
      omega
    rw [if_neg hle, hloop, min_eq_right (by omega)]

/-! ### Growing and undoing -/

/-- The pages `allocuvm` adds when it grows from `oldsz` to `newsz`. -/
def InGrowth (oldsz newsz v : Nat) : Prop :=
  pgroundup oldsz ≤ v * pgsize ∧ v * pgsize < pgroundup newsz

omit [Layout] in
theorem inGrowth_iff {oldsz newsz v : Nat} (hle : oldsz ≤ newsz) (hnew : newsz < kernbase) :
    InGrowth oldsz newsz v ↔ oldsz ≤ v * 4096 ∧ v * 4096 < newsz := by
  have hlt : newsz + 4095 < 2 ^ 32 := by
    simp only [kernbase] at hnew
    omega
  rw [InGrowth, pgroundup_eq hlt, pgroundup_eq (by omega), pgsize]
  omega

/-- Exactly the pages between the two sizes are new, zeroed, and each has a frame of its own. -/
structure NewPages (dirs : Finset Nat) (d oldsz newsz : Nat) (k k' : Kmem) : Prop where
  fresh : ∀ v, InGrowth oldsz newsz v → ∃ e, upage k' d v = some (e, fun _ => 0#32) ∧
    has e .w = true ∧ has e .u = true ∧
    ∀ d' ∈ dirs, ∀ v' < nupages, (d', v') ≠ (d, v) → userRef k' (d', v') ≠ some (pteFrame e)
  others : ∀ d' ∈ dirs, ∀ v < nupages, ¬ (d' = d ∧ InGrowth oldsz newsz v) →
    upage k' d' v = upage k d' v

section
variable {man : Nat → Prop} {dirs kp : Finset Nat} {oldsz newsz : Nat}

theorem Grown.newPages (hd : d ∈ dirs) (hle : oldsz ≤ newsz) (hnew : newsz < kernbase)
    (h : Grown man dirs kp d oldsz newsz k k') : NewPages dirs d oldsz newsz k k' := by
  refine ⟨fun v hv => ?_, fun d' hd' v hv hout => ?_⟩
  · obtain ⟨hlo, hhi⟩ := (inGrowth_iff hle hnew).mp hv
    have hvlt : v < nupages := by
      have := nupages_eq
      omega
    obtain ⟨e, he, hw, hu, -⟩ := (h.fresh v hvlt hlo hhi).2
    obtain ⟨hp, hpte, -⟩ := upage_eq_some.mp he
    refine ⟨e, he, hw, hu, fun d' hd' v' hv' hne hr => hne ?_⟩
    -- a writable page is the only one on its frame
    have hone := h.inv.excl d hd v hvlt (by rw [hpte]; exact hp) (by rw [hpte]; exact hw)
    rw [hpte] at hone
    have hself : userRef k' (d, v) = some (pteFrame e) := by
      rw [userRef_eq_upage, he]
      rfl
    exact h.inv.ledger.unique_ref (mem_userSlots.mpr ⟨hd', hv'⟩) (mem_userSlots.mpr ⟨hd, hvlt⟩)
      hr hself hone
  · rw [inGrowth_iff hle hnew] at hout
    exact h.same d' hd' v hv hout

/-- A frame that was free and no longer is, while no page changed, became a page table of `d`. -/
theorem Inv.free_or_table {f : Nat} (h : Inv man dirs kp k) (h' : Inv man dirs kp k')
    (hap : Apart man dirs d k k')
    (hsame : ∀ d' ∈ dirs, ∀ v < nupages, upage k' d' v = upage k d' v)
    (hf : f ∈ k.freelist) : f ∈ k'.freelist ∨ f ∈ ptFrames k' d := by
  obtain ⟨hown, hidle⟩ := h.ledger.free_idle hf
  have hman := ((h.ledger.free_iff f).mp hf).1
  have hidle' : refsTo (userSlots dirs) (userRef k') f = ∅ := by
    refine refsTo_eq_empty fun x hx => ?_
    obtain ⟨hd', hv⟩ := mem_userSlots.mp hx
    rw [userRef_eq_upage, hsame _ hd' _ hv, ← userRef_eq_upage]
    exact hidle x hx
  by_cases hown' : f ∈ owned dirs kp k'
  · refine .inr ?_
    rcases mem_owned.mp hown' with hkp | htab
    · exact absurd (mem_owned.mpr (.inl hkp)) hown
    · have hntab : f ∉ tabFrames dirs k := fun hc => hown (mem_owned.mpr (.inr hc))
      rcases mem_tabFrames.mp htab with hdir | ⟨d', hd', hpt⟩
      · exact absurd (dirs_subset_tabFrames hdir) hntab
      · by_cases he : d' = d
        · exact he ▸ hpt
        · rw [mem_ptFrames, hap.dir d' hd' he, ← mem_ptFrames] at hpt
          exact absurd (mem_tabFrames.mpr (.inr ⟨d', hd', hpt⟩)) hntab
  · refine .inl ((h'.ledger.free_iff f).mpr ⟨hman, ?_⟩)
    rw [h'.ledger.count_ref f hman hown', hidle', Finset.card_empty]

/-- `allocuvm` adds exactly the missing pages, each zeroed and on a frame of its own, and
`deallocuvm` takes them away again; or it fails, which it does only when the free list has run out,
and leaves the pages of all directories as they were, and of the frames it took only page tables are
not free again. And on any directory `deallocuvm` is the loop that visits every page. -/
theorem allocuvm_deallocuvm (h : Inv man dirs kp k) (hd : d ∈ dirs) (hle : oldsz ≤ newsz)
    (hnew : newsz < kernbase) (habs : ∀ v, InGrowth oldsz newsz v → has (pte k d v) .p = false) :
    Ends (allocuvm d oldsz newsz) k (fun r k' =>
        r = newsz ∧ NewPages dirs d oldsz newsz k k' ∧
          Ends (deallocuvm d newsz oldsz) k' (fun r' k'' => r' = oldsz ∧
            ∀ d' ∈ dirs, ∀ v < nupages, upage k'' d' v = upage k d' v) ∨
        r = 0 ∧ 0 < newsz ∧ k.oom < k'.oom ∧
          k.freelist.length + 2 * (oldsz / 4096) < 2 * ((newsz + 4095) / 4096) ∧
          (∀ d' ∈ dirs, ∀ v < nupages, upage k' d' v = upage k d' v) ∧
          ∀ f ∈ k.freelist, f ∈ k'.freelist ∨ f ∈ ptFrames k' d) ∧
    ∀ pgdir old new, old ≤ kernbase → new ≤ kernbase →
      deallocuvm pgdir old new = do
        unmapPages pgdir (pageAddrs (pgroundup new) old)
        return min old new := by
  refine ⟨?_, fun pgdir old new hold hnew => deallocuvm_eq hold hnew⟩
  have hnone : ∀ v, oldsz ≤ v * 4096 → v * 4096 < newsz → upage k d v = none :=
    fun v hlo hhi => upage_eq_none.mpr (habs v ((inGrowth_iff hle hnew).mpr ⟨hlo, hhi⟩))
  refine (allocuvm_spec h hd).mono (fun r k' hr => ?_) fun e he => ?_
  · rcases hr with ⟨hbig, -⟩ | ⟨-, hlt, -⟩ | ⟨-, -, rfl, hg⟩ | ⟨-, -, rfl, ha⟩
    · omega
    · omega
    · refine .inl ⟨rfl, hg.newPages hd hle hnew, ?_⟩
      refine (deallocuvm_spec hg.inv hd hnew.le).imp fun r' k'' hr' => ?_
      refine ⟨by omega, fun d' hd' v hv => ?_⟩
      by_cases hin : d' = d ∧ oldsz ≤ v * 4096 ∧ v * 4096 < r
      · obtain ⟨rfl, hlo, hhi⟩ := hin
        rw [hr'.2.gone v hv ⟨hlo, hhi⟩, hnone v hlo hhi]
      · rw [hr'.2.same d' hd' v hv hin, hg.same d' hd' v hv hin]
    · have hsame : ∀ d' ∈ dirs, ∀ v < nupages, upage k' d' v = upage k d' v := by
        intro d' hd' v hv
        by_cases hin : d' = d ∧ oldsz ≤ v * 4096 ∧ v * 4096 < newsz
        · obtain ⟨rfl, hlo, hhi⟩ := hin
          rw [ha.gone v hv hlo hhi, hnone v hlo hhi]
        · exact ha.same d' hd' v hv hin
      have hshort := ha.short
      exact .inr ⟨rfl, by omega, ha.oom, hshort, hsame,
        fun f hf => h.free_or_table ha.inv ha.apart hsame hf⟩
  · obtain ⟨-, -, v, -, hlo, hhi, hne⟩ := he
    exact hne (hnone v hlo hhi)

end

end

/-- The first process of the sample kernel, one page large, asks for three bytes more than a
page. -/
theorem allocuvm_deallocuvm_boot : let _ : Layout := Layout.sample
    ∃ man s, SysInv man s ∧ Ends (allocuvm (s.pt.proc initSlot).pgdir 4096 8195) s.k
      (fun r k' => r = 8195 ∧
        NewPages (s.pt.dirs s.kpgdir) (s.pt.proc initSlot).pgdir 4096 8195 s.k k') := by
  let _ : Layout := Layout.sample
  obtain ⟨s, hb⟩ := sample_boots
  obtain ⟨man, h⟩ := hb.ok
  have hlive := (h.live initSlot).mpr rfl
  have habs : ∀ v, InGrowth 4096 8195 v →
      has (pte s.k (s.pt.proc initSlot).pgdir v) .p = false := by
    intro v hv
    obtain ⟨hlo, hhi⟩ := (inGrowth_iff (by decide) (by decide)).mp hv
    have hvlt : v < nupages := by
      have := nupages_eq
      simp only [kernbase] at this
      omega
    have hno : upages s.k (s.pt.proc initSlot).pgdir v = none := h.space.image.absent v hlo
    rw [upages_of_lt hvlt] at hno
    exact upage_eq_none.mp hno
  refine ⟨man, s, h.inv, (allocuvm_deallocuvm h.inv.mem hlive.dir (by decide) (by decide)
    habs).1.imp fun r k' hr => ?_⟩
  rcases hr with ⟨hr, hnew, -⟩ | ⟨-, -, -, hshort, -⟩
  · exact ⟨hr, hnew⟩
  · have := h.free
    omega

end Xv6
