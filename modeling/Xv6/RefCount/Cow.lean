import Xv6.RefCount.Map

/-!
# Xv6.RefCount.Cow

How the functions that change permissions and share pages end:
`vm_protect_range`, `cow_fault`, `copyuvm`, and a store to a writable user page.
None of them can panic from the invariant.
-/

namespace Xv6

open Function (update update_of_ne)

variable [Layout] {man : Nat → Prop} {dirs kp : Finset Nat} {k k' : Kmem} {d v va : Nat}

/-! ### `vm_protect_range` -/

/-- The entry `vm_protect_range` writes for the entry `e` of a frame with `refs`
owners. -/
def protEntry (refs : Nat) (prot e : Word) : Word :=
  if canWrite prot then
    if has e .cow ∨ 1 < refs then e &&& ~~~PteFlag.w.mask ||| PteFlag.cow.mask
    else e ||| PteFlag.w.mask
  else e &&& ~~~PteFlag.w.mask

section
variable {refs : Nat} {prot e : Word}

omit [Layout]

theorem protEntry_p : has (protEntry refs prot e) .p = has e .p := by
  unfold protEntry
  split
  · split <;> simp
  · simp

theorem protEntry_u : has (protEntry refs prot e) .u = has e .u := by
  unfold protEntry
  split
  · split <;> simp
  · simp

/-- The page is writable at once exactly when it may be and nobody shares it. -/
theorem protEntry_w : has (protEntry refs prot e) .w = true ↔
    canWrite prot = true ∧ has e .cow = false ∧ refs ≤ 1 := by
  unfold protEntry
  split
  · next hc =>
      split
      · next hs =>
          simp only [has_or, has_clear, has_mask, hc]
          rcases hs with hs | hs
          · simp [hs]
          · simp
            omega
      · next hs =>
          rw [not_or] at hs
          simp only [has_or, has_mask, hc]
          simp only [decide_true, Bool.or_true, true_and, true_iff]
          exact ⟨by simpa using hs.1, by omega⟩
  · next hc => simp [hc]

theorem protEntry_cow : has (protEntry refs prot e) .cow = true ↔
    has e .cow = true ∨ (canWrite prot = true ∧ 1 < refs) := by
  unfold protEntry
  split
  · next hc =>
      split
      · next hs =>
          simp only [has_or, has_mask, hc]
          simpa using hs
      · next hs =>
          simp only [has_or, has_mask, hc]
          simp only [reduceCtorEq, decide_false, Bool.or_false, true_and]
          rw [not_or] at hs
          constructor
          · intro hcow; exact .inl hcow
          · rintro (hcow | hr)
            · exact hcow
            · exact absurd hr hs.2
  · next hc => simp [hc]

theorem protEntry_frame : pteFrame (protEntry refs prot e) = pteFrame e := by
  unfold protEntry
  split
  · split
    · rw [pteFrame_or (lowBits_mask _), pteFrame_clear (lowBits_mask _)]
    · rw [pteFrame_or (lowBits_mask _)]
  · rw [pteFrame_clear (lowBits_mask _)]

end

/-- A page whose entry is rewritten with the same frame keeps its contents. -/
theorem Inv.upage_reflag {t j : Nat} {w e : Word} {page : Nat → Word} (h : Inv man dirs kp k)
    (hd : d ∈ dirs) (hv : v < nupages) (hloc : pteLoc k d v = some (t, j))
    (hup : upage k d v = some (e, page)) (hp : has w .p = true) (hfr : pteFrame w = pteFrame e) :
    upage (k.store t j w) d v = some (w, page) := by
  obtain ⟨hpe, rfl, rfl⟩ := upage_eq_some.mp hup
  have hvn := hv.trans nupages_lt
  refine upage_eq_some.mpr ⟨hp, ?_, ?_⟩
  · rw [h.tables.pte_store _ hd hvn hloc hd hvn, if_pos ⟨rfl, rfl⟩]
  · rw [hfr, store_mem_of_not_tab hd hvn hloc (h.user_not_tab hd hv hpe)]

/-- The permissions of one page: the pages `P` of `d` are rewritten by
`protEntry`, and counts and free list stay. -/
structure Protected (man : Nat → Prop) (dirs kp : Finset Nat) (d : Nat) (prot : Word)
    (P : Nat → Prop) (k k' : Kmem) : Prop where
  inv : Inv man dirs kp k'
  changed : ∀ v < nupages, P v →
    upage k' d v = (upage k d v).map fun x => (protEntry (k.refcnt (pteFrame x.1)) prot x.1, x.2)
  same : ∀ d' ∈ dirs, ∀ v < nupages, ¬ (d' = d ∧ P v) → upage k' d' v = upage k d' v
  refcnt : k'.refcnt = k.refcnt
  freelist : k'.freelist = k.freelist
  oom : k'.oom = k.oom
  apart : Apart man dirs d k k'

theorem Protected.trans {prot : Word} {P : Nat → Prop} {k1 : Kmem} (hd : d ∈ dirs) (hP : ¬ P v)
    (h1 : Protected man dirs kp d prot P k k1) (h2 : Protected man dirs kp d prot (· = v) k1 k') :
    Protected man dirs kp d prot (fun v' => P v' ∨ v' = v) k k' where
  inv := h2.inv
  changed v' hv' hc := by
    by_cases he : v' = v
    · rw [h2.changed v' hv' he, h1.same d hd v' hv' (fun hc => hP (he ▸ hc.2)), h1.refcnt]
    · rw [h2.same d hd v' hv' (fun hc => he hc.2)]
      exact h1.changed v' hv' (hc.resolve_right he)
  same d' hd' v' hv' hne := by
    rw [h2.same d' hd' v' hv' (fun hc => hne ⟨hc.1, .inr hc.2⟩)]
    exact h1.same d' hd' v' hv' (fun hc => hne ⟨hc.1, .inl hc.2⟩)
  refcnt := h2.refcnt.trans h1.refcnt
  freelist := h2.freelist.trans h1.freelist
  oom := h2.oom.trans h1.oom
  apart := h1.apart.trans h2.apart

theorem Protected.congr {prot : Word} {P Q : Nat → Prop}
    (h : Protected man dirs kp d prot P k k') (hPQ : ∀ v < nupages, Q v ↔ P v) :
    Protected man dirs kp d prot Q k k' :=
  { h with
    changed := fun v hv hQ => h.changed v hv ((hPQ v hv).mp hQ)
    same := fun d' hd' v hv hne =>
      h.same d' hd' v hv (fun hc => hne ⟨hc.1, (hPQ v hv).mpr hc.2⟩) }

theorem Protected.absent {prot : Word} (h : Inv man dirs kp k) {P : Nat → Prop}
    (hP : ∀ v < nupages, P v → upage k d v = none) : Protected man dirs kp d prot P k k :=
  ⟨h, fun v hv hPv => by rw [hP v hv hPv]; rfl, fun _ _ _ _ _ => rfl, rfl, rfl, rfl,
    .refl k⟩

theorem Protected.store (prot : Word) {t j : Nat} (h : Inv man dirs kp k) (hd : d ∈ dirs)
    (hv : v < nupages) (hloc : pteLoc k d v = some (t, j)) (hp : has (pte k d v) .p = true) :
    Protected man dirs kp d prot (· = v) k
      (k.store t j (protEntry (k.refcnt (pteFrame (pte k d v))) prot (pte k d v))) where
  inv := by
    refine h.reflag hd hv hloc hp (by rw [protEntry_p]; exact hp) protEntry_frame fun hw => ?_
    have := (protEntry_w.mp hw).2.2
    have := h.user_refcnt_pos hd hv hp
    omega
  changed v' hv' he := by
    subst he
    have hup : upage k d v' = some (pte k d v', k.mem (pteFrame (pte k d v'))) :=
      upage_eq_some.mpr ⟨hp, rfl, rfl⟩
    rw [h.upage_reflag hd hv hloc hup (by rw [protEntry_p]; exact hp) protEntry_frame, hup]
    rfl
  same d' hd' v' hv' hne := h.upage_store hd (hv.trans nupages_lt) hloc hd' hv' hne
  refcnt := rfl
  freelist := rfl
  oom := rfl
  apart := .pte h.tables hd (hv.trans nupages_lt) hloc

theorem vmProtectPage_spec {prot : Word} (h : Inv man dirs kp k) (hd : d ∈ dirs)
    (hv : vpn va < nupages) (hva : va < 2 ^ 32) :
    Ends (vmProtectPage d prot va) k (fun r k' => r = none ∧
      Protected man dirs kp d prot (· = vpn va) k k') := by
  rw [vmProtectPage, ends_bind, ends_walkpgdir_false hva]
  cases hloc : pteLoc k d (vpn va) with
  | none =>
    refine .ret ⟨rfl, Protected.absent h ?_⟩
    rintro v' - rfl
    exact upage_of_no_loc hloc
  | some p =>
    have hpte : k.mem p.1 p.2 = pte k d (vpn va) := (pte_of_loc hloc).symm
    rw [ends_bind, ends_readWord, hpte]
    by_cases hp : has (pte k d (vpn va)) .p = true
    · have hst := Protected.store prot h hd hv hloc hp
      have hhi := (h.man_range _ (h.user_man hd hv hp).1).2
      rw [if_neg (by simp [hp]), pteAddr_eq_v2p]
      by_cases hc : canWrite prot = true
      · rw [if_pos hc]
        by_cases hcow : has (pte k d (vpn va)) .cow = true
        · rw [protEntry, if_pos hc, if_pos (.inl hcow)] at hst
          rw [if_pos hcow, ends_bind, ends_writeWord]
          exact .ret ⟨rfl, hst⟩
        · rw [if_neg hcow, ends_bind, ends_krefGet hhi, ends_ite]
          refine ⟨fun hr => ?_, fun hr => ?_⟩
          · rw [protEntry, if_pos hc, if_pos (.inr hr)] at hst
            rw [ends_bind, ends_writeWord]
            exact .ret ⟨rfl, hst⟩
          · rw [protEntry, if_pos hc, if_neg (by rw [not_or]; exact ⟨hcow, hr⟩)] at hst
            rw [ends_bind, ends_writeWord]
            exact .ret ⟨rfl, hst⟩
      · rw [protEntry, if_neg hc] at hst
        rw [if_neg hc, ends_bind, ends_writeWord]
        exact .ret ⟨rfl, hst⟩
    · rw [if_pos (by simpa using hp)]
      refine .ret ⟨rfl, Protected.absent h ?_⟩
      rintro v' - rfl
      rw [upage_eq_none]
      simpa using hp

/-- `vm_protect_range` rewrites the entries of the pages it steps through. -/
theorem vmProtectRange_spec {start length : Nat} {prot : Word} (h : Inv man dirs kp k)
    (hd : d ∈ dirs) (hend : start + length ≤ kernbase) :
    Ends (vmProtectRange d start length prot) k (fun r k' => r = 0 ∧
      Protected man dirs kp d prot
        (fun v => vpn start ≤ v ∧ v * 4096 + start % 4096 < start + length) k k') := by
  rw [vmProtectRange, ends_bind]
  refine (ends_forPages (C := fun P k' => Protected man dirs kp d prot P k k') hend
    (.absent h fun _ _ hf => hf.elim) (fun P Q k' hPQ hC => hC.congr hPQ)
    fun a P k1 hv hva hP hC => ?_).imp ?_
  · exact (vmProtectPage_spec hC.inv hd hv hva).imp fun r k2 h2 => ⟨h2.1, hC.trans hd hP h2.2⟩
  · rintro r k' ⟨rfl, hpr⟩
    exact .ret ⟨rfl, hpr⟩

/-! ### `cow_fault` -/

/-- The flags `cow_fault` installs. -/
def cowFlags (e : Word) : Word := (pteFlags e ||| PteFlag.w.mask) &&& ~~~PteFlag.cow.mask

omit [Layout] in
theorem lowBits_cowFlags (e : Word) : LowBits (cowFlags e) :=
  ((lowBits_pteFlags e).or (lowBits_mask _)).and _

omit [Layout] in
theorem cowFlags_has (e : Word) (f : PteFlag) :
    has (cowFlags e) f = (decide (f ≠ .cow) && (has e f || decide (f = .w))) := by
  cases f <;> simp [cowFlags]

/-- What a page that is brought in has cost: nothing, and then the counts and the directory are
as before, or frames. -/
def Drawn (d : Nat) (k k' : Kmem) : Prop :=
  (k'.freelist = k.freelist ∧ k'.refcnt = k.refcnt ∧ k'.mem d = k.mem d) ∨
    k'.freelist.length < k.freelist.length

omit [Layout] in
theorem Drawn.trans {k1 : Kmem} (h1 : Drawn d k k1) (h2 : Drawn d k1 k') : Drawn d k k' := by
  rcases h1 with ⟨hf1, hr1, hd1⟩ | hlt1 <;> rcases h2 with ⟨hf2, hr2, hd2⟩ | hlt2
  · exact .inl ⟨hf2.trans hf1, hr2.trans hr1, hd2.trans hd1⟩
  · exact .inr (hf1 ▸ hlt2)
  · exact .inr (hf2 ▸ hlt1)
  · exact .inr (hlt2.trans hlt1)

/-- A copy-on-write page made private: same contents, writable, no longer
marked. -/
structure Resolved (man : Nat → Prop) (dirs kp : Finset Nat) (d v : Nat) (k k' : Kmem) : Prop where
  inv : Inv man dirs kp k'
  page : ∀ e page, upage k d v = some (e, page) → ∃ e', upage k' d v = some (e', page) ∧
    has e' .w = true ∧ has e' .u = has e .u ∧ has e' .cow = false
  same : ∀ d' ∈ dirs, ∀ v' < nupages, ¬ (d' = d ∧ v' = v) → upage k' d' v' = upage k d' v'
  oom : k'.oom = k.oom
  free : k.freelist.length ≤ k'.freelist.length + 1
  sole : k.refcnt (pteFrame (pte k d v)) = 1 → k'.freelist = k.freelist
  drawn : Drawn d k k'
  apart : Apart man dirs d k k'

/-- The sole owner of a frame takes it over. -/
theorem Resolved.reuse {t j : Nat} (h : Inv man dirs kp k) (hd : d ∈ dirs) (hv : v < nupages)
    (hloc : pteLoc k d v = some (t, j)) (hp : has (pte k d v) .p = true)
    (h1 : k.refcnt (pteFrame (pte k d v)) = 1) :
    Resolved man dirs kp d v k
      (k.store t j (mkPte (v2p (pteFrame (pte k d v))) (cowFlags (pte k d v)))) := by
  have hfr : pteFrame (mkPte (v2p (pteFrame (pte k d v))) (cowFlags (pte k d v))) =
      pteFrame (pte k d v) := pteFrame_mkPte (pteFrame_lt _) (lowBits_cowFlags _)
  have hpe : has (mkPte (v2p (pteFrame (pte k d v))) (cowFlags (pte k d v))) .p = true := by
    simp [cowFlags_has, hp]
  have hdir : t ≠ d := fun he => h.tables.loc_not_dir hd (hv.trans nupages_lt) hloc (he ▸ hd)
  refine ⟨h.reflag hd hv hloc hp hpe hfr (fun _ => h1), ?_, ?_, rfl, Nat.le_succ _, fun _ => rfl,
    .inl ⟨rfl, rfl, update_of_ne hdir.symm _ _⟩,
    .pte h.tables hd (hv.trans nupages_lt) hloc⟩
  · intro e page hup
    obtain ⟨-, rfl, -⟩ := upage_eq_some.mp hup
    refine ⟨_, h.upage_reflag hd hv hloc hup hpe hfr, ?_⟩
    simp [cowFlags_has]
  · exact fun d' hd' v' hv' hne => h.upage_store hd (hv.trans nupages_lt) hloc hd' hv' hne

/-- A sharer takes a copy in the frame `g` just allocated. -/
theorem Resolved.copy {t j g : Nat} {rest : List Nat} (h : Inv man dirs kp k) (hd : d ∈ dirs)
    (hv : v < nupages) (hloc : pteLoc k d v = some (t, j)) (hp : has (pte k d v) .p = true)
    (hfree : k.freelist = g :: rest) (hshared : k.refcnt (pteFrame (pte k d v)) ≠ 1) :
    Resolved man dirs kp d v k
      ((((({ k with freelist := rest, refcnt := update k.refcnt g 1 } : Kmem).fill g
        (k.mem (pteFrame (pte k d v)))).store t j
          (mkPte (v2p g) (cowFlags (pte k d v)))).decref (pteFrame (pte k d v)))) := by
  have hvn := hv.trans nupages_lt
  have hgf : g ∈ k.freelist := by rw [hfree]; exact List.mem_cons_self
  obtain ⟨hgkp, hgtab⟩ := h.free_not_kp hgf
  have hg : g ∈ insert g kp := Finset.mem_insert_self g kp
  have h1 := h.kalloc hfree
  have h2 := h1.fill (h1.kp_not_tab hg) (k.mem (pteFrame (pte k d v)))
  generalize hk2 : ({ k with freelist := rest, refcnt := update k.refcnt g 1 } : Kmem).fill g
    (k.mem (pteFrame (pte k d v))) = k2 at h2 ⊢
  have hmem2 : ∀ f, f ≠ g → k2.mem f = k.mem f := by
    intro f hf
    rw [← hk2]
    simp [Kmem.fill, hf]
  have hmemg : k2.mem g = k.mem (pteFrame (pte k d v)) := by
    rw [← hk2]
    simp [Kmem.fill]
  have htab2 : ∀ f ∈ tabFrames dirs k, k2.mem f = k.mem f := by
    intro f hf
    refine hmem2 f ?_
    rintro rfl
    exact hgtab hf
  have hpte2 : pte k2 d v = pte k d v := (pte_congr htab2 hd hvn).1
  have hloc2 : pteLoc k2 d v = some (t, j) := (pte_congr htab2 hd hvn).2.trans hloc
  have hup2 : ∀ d' ∈ dirs, ∀ v' < nupages, upage k2 d' v' = upage k d' v' := by
    intro d' hd' v' hv'
    rw [← hk2, h1.upage_fill_kp hg _ hd' hv']
    rfl
  have hp2 : has (pte k2 d v) .p = true := by rw [hpte2]; exact hp
  have ht : t ∈ tabFrames dirs k :=
    mem_tabFrames.mpr (.inr ⟨d, hd, pteLoc_mem_ptFrames hvn hloc⟩)
  have htf : t ≠ pteFrame (pte k d v) := by
    rintro rfl
    exact h.user_not_tab hd hv hp ht
  have hwp : has (mkPte (v2p g) (cowFlags (pte k d v))) .p = true := by
    simp [cowFlags_has, hp]
  have hwf : pteFrame (mkPte (v2p g) (cowFlags (pte k d v))) = g :=
    pteFrame_mkPte (h1.lt_npages (h1.kp_man hg)) (lowBits_cowFlags _)
  have hapart : Apart man dirs d k (((k2.store t j
      (mkPte (v2p g) (cowFlags (pte k d v)))).decref (pteFrame (pte k d v)))) := by
    have hman := (h.ledger.free_iff g).mp hgf
    have hgd : g ∉ dirs := fun hgd => hgtab (dirs_subset_tabFrames hgd)
    have hk1 : Apart man dirs d k k2 := by
      rw [← hk2]
      exact (Apart.alloc hman.1 rest).trans (.fill hgd _)
    refine (hk1.trans (.pte h2.tables hd hvn hloc2)).trans (.decref (h.user_man hd hv hp).1 ?_)
    exact fun hfd => h.user_not_tab hd hv hp (dirs_subset_tabFrames hfd)
  rw [Kmem.store_decref_comm _ htf] at hapart ⊢
  have hrep := h2.replace hd hv hloc2 hp2 hg hwp hwf
  rw [hpte2, Finset.erase_insert hgkp] at hrep
  refine ⟨hrep, ?_, ?_, ?_, ?_, fun hone => absurd hone hshared, .inr ?_, hapart⟩
  · intro e page hup
    obtain ⟨-, rfl, rfl⟩ := upage_eq_some.mp hup
    refine ⟨mkPte (v2p g) (cowFlags (pte k d v)), upage_eq_some.mpr ⟨hwp, ?_, ?_⟩, ?_⟩
    · have := h2.setPte_drop (w := mkPte (v2p g) (cowFlags (pte k d v))) hd hv hloc2 hp2 d hd _ hvn
      rw [hpte2, if_pos ⟨rfl, rfl⟩] at this
      exact this
    · have hgt : g ≠ t := by rintro rfl; exact hgtab ht
      have hgne : g ≠ pteFrame (pte k d v) := by
        rintro rfl
        exact h2.user_not_kp hd hv hp2 (by rw [hpte2]; exact hg)
      rw [hwf]
      simp only [Kmem.store, update_of_ne hgt]
      rw [Kmem.decref_mem_of_ne _ hgne, hmemg]
    · simp [cowFlags_has]
  · intro d' hd' v' hv' hne
    have := h2.upage_drop (w := mkPte (v2p g) (cowFlags (pte k d v))) hd hv hloc2 hp2 hd' hv' hne
    rw [hpte2] at this
    rw [this, hup2 d' hd' v' hv']
  · rw [← hk2]
    simp [Kmem.store, Kmem.fill]
  · have hlen : k2.freelist = rest := by rw [← hk2]; rfl
    rw [hfree, List.length_cons, ← hlen]
    exact Nat.succ_le_succ (k2.length_le_decref _)
  · have hne : pteFrame (pte k d v) ≠ g := by
      rintro hc
      exact h2.user_not_kp hd hv hp2 (by rw [hpte2, hc]; exact hg)
    have hcount : k2.refcnt (pteFrame (pte k d v)) = k.refcnt (pteFrame (pte k d v)) := by
      rw [← hk2]
      simp [Kmem.fill, hne]
    have hpos := h.user_refcnt_pos hd hv hp
    have hlen : (k2.decref (pteFrame (pte k d v))).freelist = rest := by
      rw [Kmem.decref_freelist, if_pos (by omega), ← hk2]
      rfl
    show (k2.decref (pteFrame (pte k d v))).freelist.length < _
    rw [hlen, hfree]
    exact Nat.lt_succ_self _

/-- The page at `va` is present and marked copy-on-write. -/
def CowPage (k : Kmem) (d v : Nat) : Prop := has (pte k d v) .p = true ∧ has (pte k d v) .cow = true

omit [Layout] in
theorem cowPage_iff : CowPage k d v ↔
    ∃ e page, upage k d v = some (e, page) ∧ has e .cow = true := by
  constructor
  · rintro ⟨hp, hc⟩
    exact ⟨_, _, upage_eq_some.mpr ⟨hp, rfl, rfl⟩, hc⟩
  · rintro ⟨e, page, hup, hc⟩
    obtain ⟨hp, rfl, -⟩ := upage_eq_some.mp hup
    exact ⟨hp, hc⟩

/-- Only user pages are copy-on-write. -/
theorem Inv.cowPage_user (h : Inv man dirs kp k) (hd : d ∈ dirs) (hv : v < npages)
    (hc : CowPage k d v) : v < nupages := by
  by_contra hge
  have := (h.kern_flags d hd v (by omega) hv).2
  rw [hc.2] at this
  exact absurd this (by simp)

/-- `cow_fault` resolves a copy-on-write page unless a shared one finds no frame
for the copy, and leaves any other page alone. -/
theorem cowFault_spec (h : Inv man dirs kp k) (hd : d ∈ dirs) (hva : va < 2 ^ 32) :
    Ends (cowFault d va) k (fun r k' =>
      (r = 0 ∧ ¬ CowPage k d (vpn va) ∧ k' = k) ∨
      (r = -1 ∧ CowPage k d (vpn va) ∧ 1 < k.refcnt (pteFrame (pte k d (vpn va))) ∧
        k.freelist = [] ∧ k' = { k with oom := k.oom + 1 }) ∨
      (r = 1 ∧ CowPage k d (vpn va) ∧
        (1 < k.refcnt (pteFrame (pte k d (vpn va))) → k.freelist ≠ []) ∧
        Resolved man dirs kp d (vpn va) k k')) := by
  have hround : pgrounddown va < 2 ^ 32 := by
    simp only [pgrounddown, pgsize]
    omega
  have hvpn : vpn (pgrounddown va) = vpn va := by
    simp only [pgrounddown, vpn, pgsize]
    omega
  have hvn := vpn_lt hva
  rw [cowFault, ends_bind, ends_walkpgdir_false hround, hvpn]
  cases hloc : pteLoc k d (vpn va) with
  | none =>
    refine .ret (.inl ⟨rfl, fun hc => ?_, rfl⟩)
    have := hc.1
    rw [pte_of_no_loc hloc] at this
    exact absurd this (by simp)
  | some p =>
    have hpte : k.mem p.1 p.2 = pte k d (vpn va) := (pte_of_loc hloc).symm
    rw [ends_bind, ends_readWord, hpte, ends_ite]
    refine ⟨fun hp => .ret (.inl ⟨rfl, fun hc => by simp [hc.1] at hp, rfl⟩), fun hp => ?_⟩
    rw [ends_ite]
    refine ⟨fun hp => .ret (.inl ⟨rfl, fun hc => by simp [hc.2] at hp, rfl⟩), fun hcow => ?_⟩
    have hc : CowPage k d (vpn va) := ⟨by simpa using hp, by simpa using hcow⟩
    have hv := h.cowPage_user hd hvn hc
    have hhi := (h.man_range _ (h.user_man hd hv hc.1).1).2
    have hpos := h.user_refcnt_pos hd hv hc.1
    dsimp only
    rw [pteAddr_eq_v2p, ends_bind, ends_krefGet hhi, if_neg (by omega), ends_ite]
    refine ⟨fun hone => ?_, fun hne => ?_⟩
    · rw [ends_bind, ends_writeWord]
      exact .ret (.inr (.inr ⟨rfl, hc, fun hgt => absurd hone (by omega),
        Resolved.reuse h hd hv hloc hc.1 hone⟩))
    · refine (kalloc_spec h).bind ?_
      intro r k1 hr
      cases r with
      | none =>
        obtain ⟨hnil, rfl⟩ := hr
        exact .ret (.inr (.inl ⟨rfl, hc, by omega, hnil, rfl⟩))
      | some g =>
        obtain ⟨rest, hfree, rfl, -, -, h1⟩ := hr
        have hgne : pteFrame (pte k d (vpn va)) ≠ g := fun he =>
          h1.user_not_kp hd hv hc.1 (he ▸ Finset.mem_insert_self g kp)
        obtain ⟨hlo, -⟩ := h.man_range _ (h.user_man hd hv hc.1).1
        have hp2v : p2v (v2p (pteFrame (pte k d (vpn va)))) = pteFrame (pte k d (vpn va)) := by
          rw [p2v, v2p, Nat.mul_div_cancel _ (by decide)]
        simp only [ends_bind, ends_memmovePage, ends_writeWord, hp2v]
        rw [ends_kfree hlo hhi (by simpa [Kmem.store, Kmem.fill, hgne] using hpos)]
        exact .ret (.inr (.inr ⟨rfl, hc, fun _ => by simp [hfree],
          Resolved.copy h hd hv hloc hc.1 hfree hne⟩))

/-! ### `copyuvm` -/

/-- The entry both sides of a `fork` are left with: a writable or copy-on-write
page becomes read-only and marked, any other stays as it is. -/
def sharedEntry (e : Word) : Word :=
  if has e .w || has e .cow then
    mkPte (pteAddr e) (pteFlags e &&& ~~~PteFlag.w.mask ||| PteFlag.cow.mask)
  else e

/-- The flags `copyuvm` maps the child's page with. -/
def sharedFlags (e : Word) : Word :=
  if has e .w || has e .cow then pteFlags e &&& ~~~PteFlag.w.mask ||| PteFlag.cow.mask
  else pteFlags e

section
variable {e : Word}

omit [Layout]

theorem sharedEntry_p : has (sharedEntry e) .p = has e .p := by
  unfold sharedEntry
  split
  · rw [pteAddr_eq_v2p]; simp
  · rfl

theorem sharedEntry_u : has (sharedEntry e) .u = has e .u := by
  unfold sharedEntry
  split
  · rw [pteAddr_eq_v2p]; simp
  · rfl

theorem sharedEntry_w : has (sharedEntry e) .w = false := by
  unfold sharedEntry
  split
  · rw [pteAddr_eq_v2p]; simp
  · next h => simp_all

theorem sharedEntry_cow : has (sharedEntry e) .cow = (has e .w || has e .cow) := by
  unfold sharedEntry
  split
  · next h => rw [pteAddr_eq_v2p, h]; simp
  · next h => simp_all

theorem sharedEntry_frame : pteFrame (sharedEntry e) = pteFrame e := by
  unfold sharedEntry
  split
  · rw [pteAddr_eq_v2p]
    exact pteFrame_mkPte (pteFrame_lt _) (((lowBits_pteFlags e).and _).or (lowBits_mask _))
  · rfl

/-- The child is given the very entry the parent is left with. -/
theorem mkPte_sharedFlags (hp : has e .p = true) :
    mkPte (pteAddr e) (sharedFlags e ||| PteFlag.p.mask) = sharedEntry e := by
  have h : mkPte (pteAddr e) (sharedFlags e) = sharedEntry e := by
    unfold sharedFlags sharedEntry
    split
    · rfl
    · exact mkPte_pteFlags e
  rw [mkPte, ← BitVec.or_assoc, ← mkPte, h]
  exact or_mask_of_has (by rw [sharedEntry_p]; exact hp)

end

/-- What `fork` makes of a page, on both sides. -/
def sharePage (x : Option (Word × (Nat → Word))) : Option (Word × (Nat → Word)) :=
  x.map fun x => (sharedEntry x.1, x.2)

/-- Mapping a read-only page of `d` a second time, in `c`. -/
theorem share_spec {c : Nat} {e fl : Word} {page : Nat → Word} (h : Inv man dirs kp k)
    (hd : d ∈ dirs) (hc : c ∈ dirs) (hva : va % 4096 = 0) (hv : vpn va < nupages)
    (hup : upage k d (vpn va) = some (e, page)) (hw : has e .w = false)
    (hcv : upage k c (vpn va) = none) (hfl : mkPte (pteAddr e) (fl ||| PteFlag.p.mask) = e) :
    Ends (do
      if (← mappages c va pgsize (pteAddr e) fl) < 0 then return some ()
      else do
        krefInc (pteAddr e)
        return none : KM (Option Unit)) k
      (fun r k' => match r with
        | some _ => k' = { k with oom := k.oom + 1 } ∧ k.freelist = [] ∧
            has (k.mem c (vpn va / 1024)) .p = false
        | none => Inv man dirs kp k' ∧ upage k' c (vpn va) = some (e, page) ∧
            (∀ d' ∈ dirs, ∀ v' < nupages, ¬ (d' = c ∧ v' = vpn va) →
              upage k' d' v' = upage k d' v') ∧ k'.oom = k.oom ∧ Apart man dirs c k k' ∧
            (∀ i, i ≠ vpn va / 1024 → k'.mem c i = k.mem c i) ∧
            k'.freelist.length + absentPdes (Finset.range 512) k c =
              k.freelist.length + absentPdes (Finset.range 512) k' c) := by
  have hvn := hv.trans nupages_lt
  have hlt : va < 2 ^ 32 := by
    simp only [vpn, pgsize, nupages, kernbase] at hv
    omega
  have habs := upage_eq_none.mp hcv
  rw [ends_bind]
  refine (mappages_page h hc hva hlt (Finset.mem_singleton_self _) _ fl).mono ?_ ?_
  · rintro r k' (⟨rfl, hnil, hnone, rfl⟩ | ⟨rfl, -, -, k1, t, j, hwalk, hloc, rfl⟩)
    · rw [if_pos (by decide)]
      exact .ret ⟨rfl, hnil, pteLoc_eq_none.mp hnone⟩
    · rw [if_neg (by decide), hfl, ends_bind, pteAddr_eq_v2p]
      have hup1 : upage k1 d (vpn va) = some (e, page) := by rw [hwalk.upage d hd _ hv, hup]
      obtain ⟨hp, hpte, hmem⟩ := upage_eq_some.mp hup1
      have hp1 : has (pte k1 d (vpn va)) .p = true := by rw [hpte]; exact hp
      have hman := (hwalk.inv.user_man hd hv hp1).1
      have hpos := hwalk.inv.user_refcnt_pos hd hv hp1
      rw [hpte] at hman hpos
      have habs1 : has (pte k1 c (vpn va)) .p = false := by rw [hwalk.pte c hc _ hvn]; exact habs
      have hdir : (k1.store t j e).mem c = k1.mem c := hwalk.inv.tables.store_mem_dir hc hvn hloc hc
      have hpde : ∀ i, i ≠ vpn va / 1024 → k1.mem c i = k.mem c i := fun i hi =>
        hwalk.pde i fun hm => hi (Finset.mem_singleton.mp hm)
      rw [ends_krefInc (k := k1.store t j e) (hwalk.inv.man_range _ hman).2 hpos]
      refine .ret ⟨hwalk.inv.share hc hv hloc habs1 hd hv hp1 (by rw [hpte]; exact hw)
        (by rw [hpte]) hp rfl hw, ?_, fun d' hd' v' hv' hne => ?_, hwalk.oom,
        (hwalk.apart.trans (.pte hwalk.inv.tables hc hvn hloc)).trans
          ⟨fun _ _ _ => rfl, fun f hf => ?_⟩,
        fun i hi => ?_, ?_⟩
      · show upage (k1.store t j e) c (vpn va) = some (e, page)
        have hnt : pteFrame e ∉ tabFrames dirs k1 := by
          rw [← hpte]
          exact hwalk.inv.user_not_tab hd hv hp1
        refine upage_eq_some.mpr ⟨hp, ?_, ?_⟩
        · rw [hwalk.inv.tables.pte_store e hc hvn hloc hc hvn, if_pos ⟨rfl, rfl⟩]
        · rw [store_mem_of_not_tab hc hvn hloc hnt, hmem]
      · show upage (k1.store t j e) d' v' = upage k d' v'
        rw [hwalk.inv.upage_store hc hvn hloc hd' hv' hne, hwalk.upage d' hd' v' hv']
      · exact update_of_ne (fun he => hf (by rw [he]; exact hman)) _ _
      · exact (congrFun hdir i).trans (hpde i hi)
      · have hblock : vpn va / 1024 < 512 := by
          simp only [nupages, kernbase, pgsize] at hv
          omega
        have hwide := absentPdes_widen (d := c)
          (Finset.singleton_subset_iff.mpr (Finset.mem_range.mpr hblock))
          fun i hi => hpde i fun he => hi (by rw [he]; exact Finset.mem_singleton_self _)
        have hsame : absentPdes (Finset.range 512) (k1.store t j e) c =
            absentPdes (Finset.range 512) k1 c := by simp only [absentPdes, hdir]
        have hcredit := hwalk.credit
        show k1.freelist.length + _ = _ + absentPdes (Finset.range 512) (k1.store t j e) c
        rw [hsame]
        omega
  · rintro e' ⟨-, hp⟩
    rw [habs] at hp
    exact absurd hp (by simp)

/-- The blocks of 4 MB with a resident page of `d` below address `a`. A copy of these pages
takes a page table for each. -/
def residentTables (k : Kmem) (d a : Nat) : Finset Nat :=
  ((Finset.range nupages).filter fun v => v * 4096 < a ∧ (upage k d v).isSome).image (· / 1024)

/-- `copyuvm` comes to page `v`: there are frames for the directory of the child, for the 64
tables of its kernel half, and for the tables of the pages below. -/
def CopyReaches (k : Kmem) (d sz v : Nat) : Prop :=
  v * 4096 < sz ∧ 65 + (residentTables k d (v * 4096)).card ≤ k.freelist.length

section
variable {c i j a : Nat} {k1 : Kmem}

omit [Layout]

theorem mem_residentTables : j ∈ residentTables k d a ↔
    ∃ v < nupages, v * 4096 < a ∧ upage k d v ≠ none ∧ v / 1024 = j := by
  simp only [residentTables, Finset.mem_image, Finset.mem_filter, Finset.mem_range, and_assoc,
    Option.isSome_iff_ne_none]

/-- Below 4 MB there is one block. -/
theorem residentTables_card_le (ha : a ≤ 0x400000) : (residentTables k d a).card ≤ 1 := by
  refine Finset.card_le_one_iff_subset_singleton.mpr ⟨0, fun j hj => ?_⟩
  obtain ⟨v, -, hlt, -, rfl⟩ := mem_residentTables.mp hj
  rw [Finset.mem_singleton]
  omega

theorem residentTables_mono {b : Nat} (hab : a ≤ b) :
    residentTables k d a ⊆ residentTables k d b := by
  intro j hj
  obtain ⟨v, hv, hlt, hne⟩ := mem_residentTables.mp hj
  exact mem_residentTables.mpr ⟨v, hv, by omega, hne⟩

/-- What `copyuvm` has taken from the free list up to address `i`: 65 frames for the directory
of the child `c` and its kernel half, and one for each page table below `i`. -/
structure Spent (d c i : Nat) (k k' : Kmem) : Prop where
  credit : k.freelist.length + absentPdes (Finset.range 512) k' c = k'.freelist.length + 577
  tables : ∀ j < 512, has (k'.mem c j) .p = true ↔ j ∈ residentTables k d i

theorem Spent.start (hlen : k.freelist.length = k1.freelist.length + 65)
    (habs : ∀ j < 512, has (k1.mem c j) .p = false) : Spent d c 0 k k1 := by
  have hall : absentPdes (Finset.range 512) k1 c = 512 := by
    rw [absentPdes, Finset.filter_true_of_mem fun j hj => habs j (Finset.mem_range.mp hj),
      Finset.card_range]
  refine ⟨by omega, fun j hj => ?_⟩
  rw [habs j hj, mem_residentTables]
  simp

/-- One page more, for which there may have been a new table. -/
theorem Spent.step (h : Spent d c i k k1) (hmod : i % 4096 = 0) (hv : vpn i < nupages)
    (hpde : ∀ j, j ≠ vpn i / 1024 → k'.mem c j = k1.mem c j)
    (hown : has (k'.mem c (vpn i / 1024)) .p = true ↔
      has (k1.mem c (vpn i / 1024)) .p = true ∨ upage k d (vpn i) ≠ none)
    (hcredit : k'.freelist.length + absentPdes (Finset.range 512) k1 c =
      k1.freelist.length + absentPdes (Finset.range 512) k' c) : Spent d c (i + 4096) k k' := by
  have hlast : vpn i * 4096 = i := by
    simp only [vpn, pgsize]
    omega
  have hnext : ∀ j, j ∈ residentTables k d (i + 4096) ↔
      j ∈ residentTables k d i ∨ (j = vpn i / 1024 ∧ upage k d (vpn i) ≠ none) := by
    intro j
    rw [mem_residentTables, mem_residentTables]
    constructor
    · rintro ⟨v, hvn, hlt, hne, rfl⟩
      by_cases he : v = vpn i
      · exact .inr ⟨by rw [he], he ▸ hne⟩
      · exact .inl ⟨v, hvn, by omega, hne, rfl⟩
    · rintro (⟨v, hvn, hlt, hne⟩ | ⟨rfl, hne⟩)
      · exact ⟨v, hvn, by omega, hne⟩
      · exact ⟨vpn i, hv, by omega, hne, rfl⟩
  have := h.credit
  refine ⟨by omega, fun j hj => ?_⟩
  rw [hnext]
  by_cases he : j = vpn i / 1024
  · rw [he] at hj ⊢
    rw [hown, h.tables _ hj]
    simp only [true_and]
  · rw [hpde j he, h.tables j hj]
    simp only [he, false_and, or_false]

theorem Spent.count (h : Spent d c i k k') :
    k.freelist.length = k'.freelist.length + 65 + (residentTables k d i).card := by
  have hsplit := Finset.card_filter_add_card_filter_not (s := Finset.range 512)
    (fun j => has (k'.mem c j) .p = false)
  have hset : ((Finset.range 512).filter fun j => ¬ has (k'.mem c j) .p = false) =
      residentTables k d i := by
    ext j
    rw [Finset.mem_filter, Finset.mem_range, Bool.not_eq_false]
    refine ⟨fun hj => (h.tables j hj.1).mp hj.2, fun hj => ?_⟩
    obtain ⟨v, hv, -, -, rfl⟩ := mem_residentTables.mp hj
    have hlt : v / 1024 < 512 := Nat.div_lt_of_lt_mul hv
    exact ⟨hlt, (h.tables _ hlt).mpr hj⟩
  have hcredit := h.credit
  rw [hset, Finset.card_range] at hsplit
  rw [absentPdes] at hcredit
  omega

theorem Spent.short (h : Spent d c i k k1) (hnil : k1.freelist = []) (hmod : i % 4096 = 0)
    (hv : vpn i < nupages) (habs : has (k1.mem c (vpn i / 1024)) .p = false)
    (hp : upage k d (vpn i) ≠ none) (hia : i < a) :
    k.freelist.length < 65 + (residentTables k d a).card := by
  have hlast : vpn i * 4096 = i := by
    simp only [vpn, pgsize]
    omega
  have hcount := h.count
  rw [hnil, List.length_nil] at hcount
  have hgrow : (residentTables k d i).card < (residentTables k d a).card := by
    refine Finset.card_lt_card ⟨residentTables_mono (by omega), fun hsub => ?_⟩
    have hnew := hsub (mem_residentTables.mpr ⟨vpn i, hv, by omega, hp, rfl⟩)
    rw [← h.tables _ (Nat.div_lt_of_lt_mul hv), habs] at hnew
    cases hnew
  omega

end

/-- `copyuvm` after its loop has covered the addresses below `i`: the pages of
the parent `d` are shared with the child `c`, in the same state on both sides. -/
structure Copied (man : Nat → Prop) (dirs kp : Finset Nat) (d c i : Nat) (k k' : Kmem) : Prop where
  inv : Inv man (insert c dirs) kp k'
  new : c ∉ dirs
  parent : ∀ v < nupages, upage k' d v =
    if v * 4096 < i then sharePage (upage k d v) else upage k d v
  child : ∀ v < nupages, upage k' c v = if v * 4096 < i then sharePage (upage k d v) else none
  other : ∀ d' ∈ dirs, d' ≠ d → ∀ v < nupages, upage k' d' v = upage k d' v
  oom : k'.oom = k.oom
  apart : Apart man dirs c k k'
  spent : Spent d c i k k'

theorem Copied.step {c i : Nat} {k1 : Kmem} (h : Copied man dirs kp d c i k k1)
    (hmod : i % 4096 = 0) (hinv : Inv man (insert c dirs) kp k')
    (hpar : upage k' d (vpn i) = sharePage (upage k1 d (vpn i)))
    (hchi : upage k' c (vpn i) = sharePage (upage k1 d (vpn i)))
    (hd : d ∈ dirs) (hv : vpn i < nupages)
    (hsame : ∀ d' ∈ insert c dirs, ∀ v < nupages, ¬ (v = vpn i ∧ (d' = d ∨ d' = c)) →
      upage k' d' v = upage k1 d' v) (hoom : k'.oom = k1.oom)
    (hapart : Apart man (insert c dirs) c k1 k')
    (hpde : ∀ j, j ≠ vpn i / 1024 → k'.mem c j = k1.mem c j)
    (hown : has (k'.mem c (vpn i / 1024)) .p = true ↔
      has (k1.mem c (vpn i / 1024)) .p = true ∨ upage k1 d (vpn i) ≠ none)
    (hcredit : k'.freelist.length + absentPdes (Finset.range 512) k1 c =
      k1.freelist.length + absentPdes (Finset.range 512) k' c) :
    Copied man dirs kp d c (i + 4096) k k' := by
  have hlast : vpn i * 4096 = i := by
    simp only [vpn, pgsize]
    omega
  have hmem : d ∈ insert c dirs := Finset.mem_insert_of_mem hd
  have hold : upage k1 d (vpn i) = upage k d (vpn i) := by
    rw [h.parent _ hv, if_neg (by omega)]
  refine ⟨hinv, h.new, fun v hvn => ?_, fun v hvn => ?_, fun d' hd' hne v hvn => ?_,
    hoom.trans h.oom, h.apart.trans (hapart.mono fun d' hd' hne =>
      ⟨Finset.mem_insert_of_mem hd', hne⟩), h.spent.step hmod hv hpde (hold ▸ hown) hcredit⟩
  · by_cases he : v = vpn i
    · subst he
      rw [hpar, hold, if_pos (by omega)]
    · have hiff : v * 4096 < i + 4096 ↔ v * 4096 < i := by omega
      rw [hsame d hmem v hvn (fun hc => he hc.1), h.parent v hvn]
      simp only [hiff]
  · by_cases he : v = vpn i
    · subst he
      rw [hchi, hold, if_pos (by omega)]
    · have hiff : v * 4096 < i + 4096 ↔ v * 4096 < i := by omega
      rw [hsame c (Finset.mem_insert_self _ _) v hvn (fun hc => he hc.1), h.child v hvn]
      simp only [hiff]
  · have hdc : d' ≠ c := by
      rintro rfl
      exact h.new hd'
    rw [hsame d' (Finset.mem_insert_of_mem hd') v hvn (fun hc => hc.2.elim hne hdc),
      h.other d' hd' hne v hvn]

/-- How `copyuvm` leaves memory when it runs out of it: the pages of the parent in `P` are
already marked, and nothing else has changed. -/
structure Uncopied (man : Nat → Prop) (dirs kp : Finset Nat) (d : Nat) (P : Nat → Prop)
    (k k' : Kmem) : Prop where
  inv : Inv man dirs kp k'
  marked : ∀ v < nupages, P v → upage k' d v = sharePage (upage k d v)
  kept : ∀ v < nupages, ¬ P v → upage k' d v = upage k d v
  other : ∀ d' ∈ dirs, d' ≠ d → ∀ v < nupages, upage k' d' v = upage k d' v
  oom : k.oom < k'.oom
  apart : ∀ c, Apart man dirs c k k'

/-- The parent's half of a round: the entry is marked. -/
theorem copyuvmMark_spec {t j : Nat} {e : Word} {page : Nat → Word} (h : Inv man dirs kp k)
    (hd : d ∈ dirs)
    (hv : v < nupages) (hloc : pteLoc k d v = some (t, j)) (hup : upage k d v = some (e, page)) :
    Ends (copyuvmMark (t, j) e) k
      (fun fl k' => fl = sharedFlags e ∧ Inv man dirs kp k' ∧
        upage k' d v = some (sharedEntry e, page) ∧
        (∀ d' ∈ dirs, ∀ v' < nupages, ¬ (d' = d ∧ v' = v) → upage k' d' v' = upage k d' v') ∧
        k'.oom = k.oom ∧ k'.freelist = k.freelist ∧ ∀ c, Apart man dirs c k k') := by
  obtain ⟨hp, hpte, -⟩ := upage_eq_some.mp hup
  rw [copyuvmMark, has_pteFlags, has_pteFlags, ends_ite]
  refine ⟨fun hc => ?_, fun hc => ?_⟩
  · rw [ends_bind, ends_writeWord]
    have hse : mkPte (pteAddr e) (pteFlags e &&& ~~~PteFlag.w.mask ||| PteFlag.cow.mask) =
        sharedEntry e := by rw [sharedEntry, if_pos hc]
    rw [hse]
    have hps : has (sharedEntry e) .p = true := by rw [sharedEntry_p]; exact hp
    refine .ret ⟨by rw [sharedFlags, if_pos hc], ?_, ?_, ?_, rfl, rfl,
      fun c => .pte h.tables hd (hv.trans nupages_lt) hloc⟩
    · refine h.reflag hd hv hloc (by rw [hpte]; exact hp) hps (by rw [hpte, sharedEntry_frame])
        fun hw => ?_
      rw [sharedEntry_w] at hw
      exact absurd hw (by simp)
    · exact h.upage_reflag hd hv hloc hup hps sharedEntry_frame
    · exact fun d' hd' v' hv' hne => h.upage_store hd (hv.trans nupages_lt) hloc hd' hv' hne
  · rw [ends_pure]
    exact ⟨by rw [sharedFlags, if_neg hc], h, by rw [sharedEntry, if_neg hc, hup],
      fun _ _ _ _ _ => rfl, rfl, rfl, fun _ => .refl k⟩

theorem copyuvmPage_spec {c i sz : Nat} {k1 : Kmem} (hd : d ∈ dirs)
    (hsz : sz ≤ kernbase) (hi : i < sz) (hmod : i % 4096 = 0)
    (h : Copied man dirs kp d c i k k1) :
    Ends (copyuvmPage d c i) k1 (fun r k' => match r with
      | none => Copied man dirs kp d c (i + 4096) k k'
      | some _ => Uncopied man (insert c dirs) kp d (· = vpn i) k1 k' ∧ k1.freelist = [] ∧
          has (k1.mem c (vpn i / 1024)) .p = false ∧ upage k d (vpn i) ≠ none) := by
  have hv : vpn i < nupages := by
    simp only [vpn, nupages, kernbase, pgsize] at *
    omega
  have hlast : vpn i * 4096 = i := by
    simp only [vpn, pgsize]
    omega
  have hmem : d ∈ insert c dirs := Finset.mem_insert_of_mem hd
  have hcd : c ≠ d := by rintro rfl; exact h.new hd
  have hchild : upage k1 c (vpn i) = none := by rw [h.child _ hv, if_neg (by omega)]
  -- an absent page is absent in the child too
  have hskip : upage k1 d (vpn i) = none → Copied man dirs kp d c (i + 4096) k k1 := by
    intro hnone
    refine h.step hmod h.inv ?_ ?_ hd hv (fun _ _ _ _ _ => rfl) rfl (.refl k1)
      (fun _ _ => rfl) (by simp [hnone]) rfl
    · rw [hnone]; rfl
    · rw [hnone, hchild]; rfl
  rw [copyuvmPage, ends_bind, ends_walkpgdir_false (by simp only [kernbase] at *; omega)]
  cases hloc : pteLoc k1 d (vpn i) with
  | none => exact .ret (hskip (upage_of_no_loc hloc))
  | some p =>
    have hpte : k1.mem p.1 p.2 = pte k1 d (vpn i) := (pte_of_loc hloc).symm
    rw [ends_bind, ends_readWord, hpte, ends_ite]
    refine ⟨fun hp => .ret (hskip (upage_eq_none.mpr (by simpa using hp))), fun hp => ?_⟩
    have hp' : has (pte k1 d (vpn i)) .p = true := by simpa using hp
    have hup : upage k1 d (vpn i) = some (pte k1 d (vpn i), k1.mem (pteFrame (pte k1 d (vpn i)))) :=
      upage_eq_some.mpr ⟨hp', rfl, rfl⟩
    refine (copyuvmMark_spec h.inv hmem hv hloc hup).bind ?_
    rintro fl k2 ⟨rfl, hinv2, hup2, hsame2, hoom2, hfree2, hapart2⟩
    have hdir2 : k2.mem c = k1.mem c := (hapart2 (c + 1)).dir c (Finset.mem_insert_self _ _)
      (Nat.ne_of_lt (Nat.lt_succ_self c))
    have hchild2 : upage k2 c (vpn i) = none := by
      rw [hsame2 c (Finset.mem_insert_self _ _) _ hv (fun hc => hcd hc.1), hchild]
    have haddr : pteAddr (pte k1 d (vpn i)) = pteAddr (sharedEntry (pte k1 d (vpn i))) := by
      rw [pteAddr_eq_v2p, pteAddr_eq_v2p, sharedEntry_frame]
    rw [haddr]
    refine (share_spec hinv2 hmem (Finset.mem_insert_self _ _) hmod hv hup2 sharedEntry_w hchild2
      (by rw [← haddr]; exact mkPte_sharedFlags hp')).imp ?_
    intro r k3 hr
    have hshare : sharePage (upage k1 d (vpn i)) = some (sharedEntry (pte k1 d (vpn i)),
        k1.mem (pteFrame (pte k1 d (vpn i)))) := by rw [hup]; rfl
    cases r with
    | some _ =>
      obtain ⟨rfl, hnil, habs⟩ := hr
      refine ⟨⟨hinv2.failed, fun v hvn he => ?_, fun v hvn he => ?_, fun d' hd' hne v hvn => ?_, ?_,
        fun c' => (hapart2 c').trans ⟨fun _ _ _ => rfl, fun _ _ => rfl⟩⟩,
        hfree2 ▸ hnil, hdir2 ▸ habs, ?_⟩
      · rw [he]
        exact hup2.trans hshare.symm
      · exact hsame2 d hmem v hvn (fun hc => he hc.2)
      · exact hsame2 d' hd' v hvn (fun hc => hne hc.1)
      · show k1.oom < k2.oom + 1
        omega
      · have hold := h.parent _ hv
        rw [if_neg (by omega), hup] at hold
        rw [← hold]
        exact Option.some_ne_none _
    | none =>
      obtain ⟨hinv3, hup3, hsame3, hoom3, hapart3, hpde3, hcredit3⟩ := hr
      refine h.step hmod hinv3 ?_ (hup3.trans hshare.symm) hd hv ?_ (hoom3.trans hoom2)
        ((hapart2 c).trans hapart3) (fun j hj => by rw [hpde3 j hj, hdir2]) ?_ ?_
      · rw [hsame3 d hmem _ hv (fun hc => hcd hc.1.symm), hup2, hshare]
      · intro d' hd' v hvn hne
        rw [hsame3 d' hd' v hvn (fun hc => hne ⟨hc.2, .inr hc.1⟩),
          hsame2 d' hd' v hvn (fun hc => hne ⟨hc.2, .inl hc.1⟩)]
      · -- the child has the page, and so its table
        refine iff_of_true ?_ (.inr (by rw [hup]; exact Option.some_ne_none _))
        by_contra hno
        rw [Bool.not_eq_true] at hno
        rw [upage_of_no_loc (pteLoc_eq_none.mpr hno)] at hup3
        cases hup3
      · simp only [absentPdes, hdir2, hfree2] at hcredit3 ⊢
        exact hcredit3

/-- `copyuvm` makes a child that shares every resident page below `sz`, or fails
for want of memory. -/
theorem copyuvm_spec {sz : Nat} (h : Inv man dirs kp k) (hd : d ∈ dirs) (hsz : sz ≤ kernbase) :
    Ends (copyuvm d sz) k (fun r k' => match r with
      | none => Uncopied man dirs kp d (CopyReaches k d sz) k k' ∧
          k.freelist.length < 65 + (residentTables k d sz).card
      | some c => c ∉ kp ∧ Copied man dirs kp d c sz k k') := by
  rw [copyuvm]
  refine (setupkvm_spec h).bind ?_
  intro r k1 hr
  cases r with
  | none =>
    obtain ⟨hinv, hup, hoom, hshort, hapart⟩ := hr
    refine .ret ⟨⟨hinv, fun v hv hc => ?_, fun v hv _ => hup d hd v hv,
      fun d' hd' _ v hv => hup d' hd' v hv, hoom, hapart⟩, by omega⟩
    have := hc.2
    omega
  | some c =>
    obtain ⟨hnew, hckp, hinv, hup, hnone, hoom, hlen, habs, hapart⟩ := hr
    have hmem : d ∈ insert c dirs := Finset.mem_insert_of_mem hd
    have hstart : Copied man dirs kp d c 0 k k1 :=
      ⟨hinv, hnew, fun v hv => by rw [if_neg (by omega)]; exact hup d hd v hv,
        fun v hv => by rw [if_neg (by omega)]; exact hnone v hv,
        fun d' hd' _ v hv => hup d' hd' v hv, hoom, hapart c, .start hlen habs⟩
    rw [ends_bind]
    have hloop := ends_forUint sz pgsize (copyuvmPage d c)
      (I := fun i k' => i % 4096 = 0 ∧ i < sz + 4096 ∧ Copied man dirs kp d c i k k')
      (R := fun _ k' => ∃ i k2, i < sz ∧ i % 4096 = 0 ∧ Copied man dirs kp d c i k k2 ∧
        Uncopied man (insert c dirs) kp d (· = vpn i) k2 k' ∧ k2.freelist = [] ∧
        ∀ a, i < a → k.freelist.length < 65 + (residentTables k d a).card)
      (E := fun _ => False) ?_ ?_ npages 0 k1 ?_ ⟨rfl, by omega, hstart⟩
    · refine hloop.imp ?_
      intro r k2 hr
      cases r with
      | none =>
        obtain ⟨i, hge, hmod, hlt, hcop⟩ := hr
        have hiff : ∀ v, v * 4096 < sz ↔ v * 4096 < i := by omega
        have hsame : residentTables k d sz = residentTables k d i := by
          simp only [residentTables, hiff]
        refine .ret ⟨hckp, hcop.inv, hcop.new, fun v hv => ?_, fun v hv => ?_, hcop.other, hcop.oom,
          hcop.apart, ⟨hcop.spent.credit, fun j hj => ?_⟩⟩
        · simp only [hiff]
          exact hcop.parent v hv
        · simp only [hiff]
          exact hcop.child v hv
        · rw [hsame]
          exact hcop.spent.tables j hj
      | some _ =>
        obtain ⟨i, k3, hi, hmod, hcop, hun, hnil, hshort⟩ := hr
        have hlast : vpn i * 4096 = i := by
          simp only [vpn, pgsize]
          omega
        have hcount := hcop.spent.count
        rw [hnil, List.length_nil] at hcount
        refine (freevm_spec hun.inv (Finset.mem_insert_self c dirs)).bind ?_
        rintro - k4 ⟨hinv4, hup4, hoom4, -, hapart4⟩
        rw [Finset.erase_insert hnew] at hinv4 hup4
        -- the directory written to is that of the child, which is gone
        have hne : ∀ d' ∈ dirs, d' ≠ c := fun d' hd' he => hnew (he ▸ hd')
        have hrest := ((hun.apart c).trans hapart4).mono
          fun d' hd' hc => ⟨Finset.mem_insert_of_mem hd', hc⟩
        refine .ret ⟨⟨hinv4, fun v hv hc => ?_, fun v hv hc => ?_, fun d' hd' hne v hv => ?_, ?_,
          fun c' => (hcop.apart.trans hrest).mono fun d' hd' _ => ⟨hd', hne d' hd'⟩⟩, hshort sz hi⟩
        · -- the loop has come to page `i`, and stopped there
          have hle : v * 4096 ≤ i := by
            by_contra hlt
            have := hshort (v * 4096) (by omega)
            have := hc.2
            omega
          rw [hup4 d hd v hv]
          by_cases he : v = vpn i
          · rw [hun.marked v hv he, hcop.parent v hv, if_neg (by omega)]
          · rw [hun.kept v hv he, hcop.parent v hv, if_pos (by omega)]
        · have hlt : i < v * 4096 := by
            by_contra hle
            have := Finset.card_le_card
              (residentTables_mono (k := k) (d := d) (Nat.le_of_not_lt hle))
            exact hc ⟨by omega, by omega⟩
          rw [hup4 d hd v hv, hun.kept v hv (by omega), hcop.parent v hv, if_neg (by omega)]
        · rw [hup4 d' hd' v hv, hun.other d' (Finset.mem_insert_of_mem hd') hne v hv,
            hcop.other d' hd' hne v hv]
        · have := hun.oom
          have := hcop.oom
          omega
    · rintro i k2 hi ⟨hmod, hlt, hcop⟩
      refine (copyuvmPage_spec hd hsz hi hmod hcop).imp ?_
      intro r k3 hr
      cases r with
      | none => exact ⟨by simp only [pgsize]; omega, by simp only [pgsize]; omega, hr⟩
      | some _ =>
        have hv : vpn i < nupages := by
          simp only [vpn, nupages, kernbase, pgsize] at *
          omega
        exact ⟨i, k2, hi, hmod, hcop, hr.1, hr.2.1, fun a ha =>
          hcop.spent.short hr.2.1 hmod hv hr.2.2.1 hr.2.2.2 ha⟩
    · simp only [kernbase, pgsize] at *
      omega
    · simp only [kernbase, pgsize, npages] at *
      omega

end Xv6
