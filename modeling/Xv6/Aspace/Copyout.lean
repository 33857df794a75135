import Mathlib.Data.List.GetD
import Xv6.Aspace

/-!
# Xv6.Aspace.Copyout

How `copyout` ends. It never panics, and all it does to the address space it
writes to is what user stores could have done: it faults pages in, makes
copy-on-write pages private, and writes to pages that are writable for the user.

`Readied` says what becomes of one page: it is refused, which user stores to it are as well
unless its region is read-only; there is no frame for it; or it can be written to.
`CopiedOut` says the same of a whole call, which gets as far as the first page that is
refused.
-/

namespace Xv6

open Function (update update_of_ne)
open Relation (ReflTransGen)

variable [Layout] {man : Nat → Prop} {dirs kp : Finset Nat} {k k' : Kmem} {d v va : Nat}

/-! ### Changes to one directory -/

/-- Of the live directories, only `d` looks different. -/
structure Local (man : Nat → Prop) (dirs kp : Finset Nat) (d : Nat) (k k' : Kmem) : Prop where
  inv : Inv man dirs kp k'
  others : ∀ d' ∈ dirs, d' ≠ d → upages k' d' = upages k d'
  apart : Apart man dirs d k k'

namespace Local

theorem refl (h : Inv man dirs kp k) : Local man dirs kp d k k := ⟨h, fun _ _ _ => rfl, .refl k⟩

theorem trans {k1 : Kmem} (h1 : Local man dirs kp d k k1) (h2 : Local man dirs kp d k1 k') :
    Local man dirs kp d k k' :=
  ⟨h2.inv, fun d' hd' hne => (h2.others d' hd' hne).trans (h1.others d' hd' hne),
    h1.apart.trans h2.apart⟩

/-- The form in which the specifications state what stays the same. -/
theorem of_same {P : Nat → Prop} (hinv : Inv man dirs kp k')
    (h : ∀ d' ∈ dirs, ∀ v < nupages, ¬ (d' = d ∧ P v) → upage k' d' v = upage k d' v)
    (hapart : Apart man dirs d k k') : Local man dirs kp d k k' :=
  ⟨hinv, fun d' hd' hne => upages_congr fun v hv => h d' hd' v hv fun hc => hne hc.1, hapart⟩

end Local

/-- The address space with regions `vmas` in directory `d`. -/
def spaceAt (k : Kmem) (d sz : Nat) (vmas : Fin maxVmas → Vma) : Aspace :=
  { sz := sz, vmas := vmas, page := upages k d }

/-- Of the live directories only `d` has changed, and only as user stores may
change it. -/
structure Touched (man : Nat → Prop) (dirs kp : Finset Nat) (d sz : Nat)
    (vmas : Fin maxVmas → Vma) (k k' : Kmem) : Prop where
  toLocal : Local man dirs kp d k k'
  touch : ReflTransGen Touch (spaceAt k d sz vmas) (spaceAt k' d sz vmas)

variable {sz : Nat} {vmas : Fin maxVmas → Vma}

theorem Touched.failed
    (hsame : ∀ d' ∈ dirs, ∀ v < nupages, upage k' d' v = upage k d' v) (hinv : Inv man dirs kp k')
    (hd : d ∈ dirs) (hapart : Apart man dirs d k k') : Touched man dirs kp d sz vmas k k' := by
  refine ⟨⟨hinv, fun d' hd' _ => upages_congr (hsame d' hd'), hapart⟩, ?_⟩
  rw [spaceAt, spaceAt, upages_congr (hsame d hd)]

theorem Touched.refl (h : Inv man dirs kp k) : Touched man dirs kp d sz vmas k k :=
  ⟨.refl h, .refl⟩

theorem Touched.trans {k1 : Kmem} (h1 : Touched man dirs kp d sz vmas k k1)
    (h2 : Touched man dirs kp d sz vmas k1 k') : Touched man dirs kp d sz vmas k k' :=
  ⟨h1.toLocal.trans h2.toLocal, h1.touch.trans h2.touch⟩

theorem Touched.one {x : Option Page} (hd : d ∈ dirs) (hinv : Inv man dirs kp k') (hv : v < nupages)
    (hx : upage k' d v = x)
    (hsame : ∀ d' ∈ dirs, ∀ v' < nupages, ¬ (d' = d ∧ v' = v) → upage k' d' v' = upage k d' v')
    (hapart : Apart man dirs d k k')
    (ht : Touch (spaceAt k d sz vmas) ((spaceAt k d sz vmas).setPage v x)) :
    Touched man dirs kp d sz vmas k k' := by
  refine ⟨.of_same hinv hsame hapart, .single ?_⟩
  have hup : upages k' d = update (upages k d) v x :=
    upages_update hv hx fun v' hv' hne => hsame d hd v' hv' fun hc => hne hc.2
  rw [show spaceAt k' d sz vmas = (spaceAt k d sz vmas).setPage v x by
    simp [spaceAt, Aspace.setPage, hup]]
  exact ht

theorem Touched.demand {r : Vma} (hd : d ∈ dirs) (hv : v < nupages)
    (hr : regionOf vmas v = some r) (h : Added man dirs kp d v (canWrite r.prot) k k') :
    Touched man dirs kp d sz vmas k k' := by
  obtain ⟨e, hup, hw, hu, hcow⟩ := h.fresh
  refine .one hd h.inv hv hup h.same h.apart (.demand hr ?_ hw hu hcow)
  exact (upages_of_lt hv).trans h.absent

theorem Touched.resolve (hd : d ∈ dirs) (hv : v < nupages)
    (hro : (spaceAt k d sz vmas).readOnly v = false) (hc : CowPage k d v)
    (h : Resolved man dirs kp d v k k') : Touched man dirs kp d sz vmas k k' := by
  obtain ⟨e, page, hup, hcow⟩ := cowPage_iff.mp hc
  obtain ⟨e', hup', hw, hu, hcow'⟩ := h.page e page hup
  exact .one hd h.inv hv hup' h.same h.apart
    (.resolve hro ((upages_of_lt hv).trans hup) hcow hw hu hcow')

theorem Touched.write {e : Word} {page : Nat → Word} (sz : Nat) (vmas : Fin maxVmas → Vma)
    (h : Inv man dirs kp k) (hd : d ∈ dirs) (hv : v < nupages)
    (hup : upage k d v = some (e, page)) (hw : has e .w = true)
    (hu : has e .u = true) (page' : Nat → Word) :
    Touched man dirs kp d sz vmas k (k.fill (pteFrame e) page') := by
  obtain ⟨hinv, hup', hsame⟩ := h.write hd hv hup hw page'
  exact .one hd hinv hv hup' hsame (h.apart_write hd hv hup page')
    (.write ((upages_of_lt hv).trans hup) hw hu)

/-! ### The parts of a round -/

/-- There are frames enough to make page `v` writable. -/
structure Fed (k : Kmem) (d v : Nat) : Prop where
  demand : has (pte k d v) .p = false → framesFor k d v ≤ k.freelist.length
  copy : CowPage k d v → 1 < k.refcnt (pteFrame (pte k d v)) → k.freelist ≠ []

omit [Layout] in
theorem Fed.of_two_le {k : Kmem} (h : 2 ≤ k.freelist.length) (d v : Nat) : Fed k d v :=
  ⟨fun _ => (framesFor_le ..).trans h, fun _ _ hnil => by simp [hnil] at h⟩

/-- What becomes of page `v` when `copyout` is to write to it, and the frame to write to. -/
inductive Readied (man : Nat → Prop) (dirs kp : Finset Nat) (d sz : Nat) (vmas : Fin maxVmas → Vma)
    (v : Nat) (k : Kmem) : Option Nat → Kmem → Prop
  | refuse {k' : Kmem} (ht : Touched man dirs kp d sz vmas k k') (hoom : k'.oom = k.oom)
      (hno : (spaceAt k d sz vmas).readOnly v = true ∨ ¬ (spaceAt k d sz vmas).Reaches v true)
      (hf : spaceAt k' d sz vmas = spaceAt k d sz vmas ∨
        Fetched (spaceAt k d sz vmas) v (spaceAt k' d sz vmas)) :
      Readied man dirs kp d sz vmas v k none k'
  | starve {k' : Kmem} (ht : Touched man dirs kp d sz vmas k k') (hoom : k.oom < k'.oom)
      (hsame : spaceAt k' d sz vmas = spaceAt k d sz vmas) (hfed : ¬ Fed k d v) :
      Readied man dirs kp d sz vmas v k none k'
  | ready {k' : Kmem} {e : Word} {page : Nat → Word} (ht : Touched man dirs kp d sz vmas k k')
      (hoom : k'.oom = k.oom) (hv : v < nupages) (hreach : (spaceAt k d sz vmas).Reaches v true)
      (hf : Fetched (spaceAt k d sz vmas) v (spaceAt k' d sz vmas))
      (hup : upage k' d v = some (e, page)) (hw : has e .w = true) (hu : has e .u = true)
      (hfed : Fed k d v) (hdrawn : Drawn d k k') :
      Readied man dirs kp d sz vmas v k (some (pteFrame e)) k'

omit [Layout] in
theorem presentPte_spec (hva : va < 2 ^ 32) {E : Panic → Prop} :
    Ends (presentPte d va) k (fun r k' => k' = k ∧ match r with
      | none => has (pte k d (vpn va)) .p = false
      | some q => pteLoc k d (vpn va) = some q ∧ has (pte k d (vpn va)) .p = true) E := by
  rw [presentPte, ends_bind, ends_walkpgdir_false hva]
  cases hloc : pteLoc k d (vpn va) with
  | none => exact .ret ⟨rfl, by rw [pte_of_no_loc hloc]; simp⟩
  | some q =>
    have hpte : k.mem q.1 q.2 = pte k d (vpn va) := (pte_of_loc hloc).symm
    dsimp only
    rw [ends_bind, ends_readWord, hpte, ends_ite]
    exact ⟨fun hp => .ret ⟨rfl, rfl, hp⟩, fun hp => .ret ⟨rfl, by simpa using hp⟩⟩

/-- The first part of a round leaves a page that is present alone, and adds one in a writable
region. -/
theorem copyoutFault_spec (h : Inv man dirs kp k) (hd : d ∈ dirs) (hok : VmasOk sz vmas)
    (hva : va < 2 ^ 32) :
    Ends (copyoutFault (regionOf vmas (vpn va)) d va) k (fun r k' => match r with
      | none => Readied man dirs kp d sz vmas (vpn va) k none k'
      | some q => pteLoc k' d (vpn va) = some q ∧ has (pte k' d (vpn va)) .p = true ∧
          (k' = k ∨ ∃ r, regionOf vmas (vpn va) = some r ∧ canWrite r.prot = true ∧
            Added man dirs kp d (vpn va) true k k')) := by
  unfold copyoutFault
  refine (presentPte_spec hva).bind ?_
  rintro r k1 ⟨rfl, hr⟩
  cases r with
  | some q => exact .ret ⟨hr.1, hr.2, .inl rfl⟩
  | none =>
    have habs : (spaceAt k1 d sz vmas).page (vpn va) = none := by
      by_cases hv : vpn va < nupages
      · exact (upages_of_lt hv).trans (upage_eq_none.mpr hr)
      · exact upages_of_ge (by omega)
    have hrefuse : (∀ r, regionOf vmas (vpn va) = some r → canWrite r.prot = false) →
        Readied man dirs kp d sz vmas (vpn va) k1 none k1 := by
      intro hno
      refine .refuse (.refl h) rfl (.inr ?_) (.inl rfl)
      rw [Aspace.Reaches, habs]
      rintro ⟨r, hreg, hcan⟩
      rw [hno r hreg] at hcan
      cases hcan rfl
    cases hreg : regionOf vmas (vpn va) with
    | none => exact .ret (hrefuse fun r hr => by rw [hreg] at hr; cases hr)
    | some r =>
      have hv := hok.region_lt hreg
      have hlow : va < kernbase := by
        simp only [vpn, nupages, kernbase, pgsize] at *
        omega
      dsimp only
      rw [ends_ite]
      refine ⟨fun hcan => .ret (hrefuse fun r' hr' => ?_), fun hcan => ?_⟩
      · rw [hreg, Option.some.injEq] at hr'
        subst hr'
        simpa using hcan
      · have hcan' : canWrite r.prot = true := by simpa using hcan
        rw [ends_bind]
        refine (vmAllocMmapPage_spec h hd hlow).mono ?_ ?_
        · rintro ret k2 (⟨rfl, hinv, hsame, hoom, hfew, hapart⟩ | ⟨rfl, hadd⟩)
          · rw [if_pos (by decide)]
            refine .ret (.starve (.failed hsame hinv hd hapart) hoom ?_
              fun hf => Nat.not_le_of_lt hfew (hf.demand hr))
            rw [spaceAt, spaceAt, upages_congr (hsame d hd)]
          · rw [if_neg (by decide)]
            rw [hcan'] at hadd
            refine (presentPte_spec hva).imp ?_
            rintro r2 k3 ⟨rfl, hr'⟩
            cases r2 with
            | none =>
              -- the new page is there
              obtain ⟨e, he, -⟩ := hadd.fresh
              rw [upage_eq_none.mpr hr'] at he
              cases he
            | some q => exact ⟨hr'.1, hr'.2, .inr ⟨r, rfl, hcan', hadd⟩⟩
        · rintro e ⟨-, hne⟩
          exact hne (upage_eq_none.mpr hr)

omit [Layout] in
theorem uva2ka_spec {e : Word} {page : Nat → Word} {E : Panic → Prop} (hva : va < 2 ^ 32)
    (hup : upage k d (vpn va) = some (e, page)) (hu : has e .u = true) :
    Ends (uva2ka d va) k (fun r k' => k' = k ∧ r = some (pteFrame e)) E := by
  obtain ⟨hp, rfl, -⟩ := upage_eq_some.mp hup
  rw [uva2ka, ends_bind, ends_walkpgdir_false hva]
  cases hloc : pteLoc k d (vpn va) with
  | none =>
    rw [pte_of_no_loc hloc] at hp
    exact absurd hp (by simp)
  | some q =>
    have hpte : k.mem q.1 q.2 = pte k d (vpn va) := (pte_of_loc hloc).symm
    dsimp only
    rw [ends_bind, ends_readWord, hpte, if_neg (by simp [hp]), if_neg (by simp [hu])]
    exact .ret ⟨rfl, rfl⟩

omit [Layout] in
theorem writable_spec {q : Nat × Nat} {E : Panic → Prop} (hva : va < 2 ^ 32)
    (hloc : pteLoc k d (vpn va) = some q) (hp : has (pte k d (vpn va)) .p = true) :
    Ends (do
        let e ← readWord q
        if !has e .p || !has e .u || !has e .w then return none
        else uva2ka d va : KM (Option Nat)) k
      (fun r k' => k' = k ∧ r = if has (pte k d (vpn va)) .u && has (pte k d (vpn va)) .w then
        some (pteFrame (pte k d (vpn va))) else none) E := by
  have hpte : k.mem q.1 q.2 = pte k d (vpn va) := (pte_of_loc hloc).symm
  rw [ends_bind, ends_readWord, hpte, ends_ite]
  refine ⟨fun hno => .ret ⟨rfl, ?_⟩, fun hyes => ?_⟩
  · rw [if_neg]
    intro hc
    simp only [Bool.and_eq_true] at hc
    simp [hp, hc.1, hc.2] at hno
  · simp only [hp, Bool.or_eq_true, Bool.not_eq_true', not_or, Bool.not_eq_false] at hyes
    refine (uva2ka_spec hva (upage_eq_some.mpr ⟨hp, rfl, rfl⟩) hyes.1.2).imp ?_
    rintro r k' ⟨rfl, rfl⟩
    rw [hyes.1.2, hyes.2]
    exact ⟨rfl, rfl⟩

/-- The second part of a round, for a page that the first has added. -/
theorem copyoutPage_added {q : Nat × Nat} {r : Vma} {k1 : Kmem} (hd : d ∈ dirs) (sz : Nat)
    (hok : VmasOk sz vmas) (hva : va < 2 ^ 32) (hreg : regionOf vmas (vpn va) = some r)
    (hcan : canWrite r.prot = true) (hadd : Added man dirs kp d (vpn va) true k k1)
    (hloc : pteLoc k1 d (vpn va) = some q) (hp : has (pte k1 d (vpn va)) .p = true) :
    Ends (copyoutPage (regionOf vmas (vpn va)) d va q) k1
      (fun f k' => Readied man dirs kp d sz vmas (vpn va) k f k') := by
  have hv := hok.region_lt hreg
  have hpte : k1.mem q.1 q.2 = pte k1 d (vpn va) := (pte_of_loc hloc).symm
  obtain ⟨e, hup, hw, hu, hcow⟩ := hadd.fresh
  obtain ⟨-, rfl, -⟩ := upage_eq_some.mp hup
  have habs : (spaceAt k d sz vmas).page (vpn va) = none := (upages_of_lt hv).trans hadd.absent
  rw [copyoutPage, if_neg (by simp [hreg, hcan]), ends_bind, copyoutCow, ends_bind, ends_readWord,
    hpte, if_neg (by simp [hcow])]
  refine .ret ((writable_spec hva hloc hp).imp ?_)
  rintro f k' ⟨rfl, rfl⟩
  rw [hu, hw, Bool.and_self, if_pos rfl]
  refine .ready (.demand hd hv hreg (by rw [hcan]; exact hadd)) hadd.oom hv ?_ ?_ hup hw hu
    ⟨fun _ => hadd.enough, fun hc => ?_⟩ (.inr hadd.taken)
  · rw [Aspace.Reaches, habs]
    exact ⟨r, hreg, fun _ => hcan⟩
  · have hpages := upages_update hv hup fun v' hv' hne => hadd.same d hd v' hv' fun hc => hne hc.2
    have hA : spaceAt k' d sz vmas = (spaceAt k d sz vmas).setPage (vpn va)
        (some (pte k' d (vpn va), fun _ => 0#32)) := by
      rw [spaceAt, hpages]
      rfl
    rw [hA]
    exact .demand hreg habs (hw.trans hcan.symm) hu hcow
  · have hnone := upage_eq_none.mp hadd.absent
    rw [hc.1] at hnone
    cases hnone

/-- The second part of a round, for a page that was there. -/
theorem copyoutPage_present {q : Nat × Nat} (h : Inv man dirs kp k) (hd : d ∈ dirs)
    (hok : VmasOk sz vmas) (hva : va < 2 ^ 32) (hloc : pteLoc k d (vpn va) = some q)
    (hp : has (pte k d (vpn va)) .p = true) :
    Ends (copyoutPage (regionOf vmas (vpn va)) d va q) k
      (fun f k' => Readied man dirs kp d sz vmas (vpn va) k f k') := by
  have hpte : k.mem q.1 q.2 = pte k d (vpn va) := (pte_of_loc hloc).symm
  have hup : upage k d (vpn va) = some (pte k d (vpn va), k.mem (pteFrame (pte k d (vpn va)))) :=
    upage_eq_some.mpr ⟨hp, rfl, rfl⟩
  rw [copyoutPage, ends_ite]
  refine ⟨fun hro => .ret (.refuse (.refl h) rfl (.inl hro) (.inl rfl)), fun hro => ?_⟩
  have hro' : (spaceAt k d sz vmas).readOnly (vpn va) = false := by
    simpa [Aspace.readOnly, Aspace.region, spaceAt] using hro
  rw [ends_bind, copyoutCow, ends_bind, ends_readWord, hpte, ends_ite]
  refine ⟨fun hcow => ?_, fun hncow => ?_⟩
  · -- a copy-on-write page is made private, whether or not it is for the user
    have hc : CowPage k d (vpn va) := ⟨hp, hcow⟩
    have hv := h.cowPage_user hd (vpn_lt hva) hc
    have hpage : (spaceAt k d sz vmas).page (vpn va) = some (pte k d (vpn va),
        k.mem (pteFrame (pte k d (vpn va)))) := (upages_of_lt hv).trans hup
    refine (cowFault_spec h hd hva).bind ?_
    rintro r k1 (⟨rfl, hnc, -⟩ | ⟨rfl, -, hrefs, hnil, rfl⟩ | ⟨rfl, -, hfree, hres⟩)
    · exact absurd hc hnc
    · rw [if_pos (by decide)]
      exact .ret (.ret (.starve ⟨⟨h.failed, fun _ _ _ => rfl, ⟨fun _ _ _ => rfl, fun _ _ => rfl⟩⟩,
        .refl⟩ (Nat.lt_succ_self _) rfl fun hf => hf.copy hc hrefs hnil))
    · rw [if_neg (by decide), ends_walkpgdir_false hva]
      obtain ⟨e', hup1, hw1, hu1, hcow1⟩ := hres.page _ _ hup
      obtain ⟨hp1, rfl, -⟩ := upage_eq_some.mp hup1
      have ht : Touched man dirs kp d sz vmas k k1 := .resolve hd hv hro' hc hres
      have hf : Fetched (spaceAt k d sz vmas) (vpn va) (spaceAt k1 d sz vmas) := by
        have hpages := upages_update hv hup1 fun v' hv' hne =>
          hres.same d hd v' hv' fun hc => hne hc.2
        have hA : spaceAt k1 d sz vmas = (spaceAt k d sz vmas).setPage (vpn va)
            (some (pte k1 d (vpn va), k.mem (pteFrame (pte k d (vpn va))))) := by
          rw [spaceAt, hpages]
          rfl
        rw [hA]
        exact .resolve hro' hpage hcow hw1 hu1 hcow1
      cases hloc1 : pteLoc k1 d (vpn va) with
      | none =>
        rw [pte_of_no_loc hloc1] at hp1
        exact absurd hp1 (by simp)
      | some q1 =>
        refine (writable_spec hva hloc1 hp1).imp ?_
        rintro f k' ⟨rfl, rfl⟩
        rw [hw1, Bool.and_true]
        cases hu : has (pte k' d (vpn va)) .u with
        | true =>
          rw [if_pos rfl]
          refine .ready ht hres.oom hv ?_ hf hup1 hw1 hu ⟨fun hn => ?_, fun _ => hfree⟩
            hres.drawn
          · rw [Aspace.Reaches, hpage]
            exact ⟨hu1.symm.trans hu, fun _ => .inr ⟨hcow, hro'⟩⟩
          · rw [hp] at hn
            cases hn
        | false =>
          rw [if_neg (by decide)]
          refine .refuse ht hres.oom (.inr ?_) (.inr hf)
          rw [Aspace.Reaches, hpage]
          rintro ⟨hue, -⟩
          rw [← hu1, hu] at hue
          cases hue
  · refine .ret ((writable_spec hva hloc hp).imp ?_)
    rintro f k' ⟨rfl, rfl⟩
    by_cases hflags : has (pte k' d (vpn va)) .u = true ∧ has (pte k' d (vpn va)) .w = true
    · obtain ⟨hu, hw⟩ := hflags
      have hv : vpn va < nupages := by
        by_contra hge
        have := (h.kern_flags d hd (vpn va) (by omega) (vpn_lt hva)).1
        rw [hu] at this
        cases this
      have hpage : (spaceAt k' d sz vmas).page (vpn va) = some (pte k' d (vpn va),
          k'.mem (pteFrame (pte k' d (vpn va)))) := (upages_of_lt hv).trans hup
      rw [if_pos (by rw [hu, hw]; rfl)]
      refine .ready (.refl h) rfl hv ?_ (.hit hpage) hup hw hu ⟨fun hn => ?_, fun hc => ?_⟩
        (.inl ⟨rfl, rfl, rfl⟩)
      · rw [Aspace.Reaches, hpage]
        exact ⟨hu, fun _ => .inl hw⟩
      · rw [hp] at hn
        cases hn
      · exact absurd hc.2 hncow
    · rw [if_neg (by simpa using hflags)]
      refine .refuse (.refl h) rfl (.inr ?_) (.inl rfl)
      by_cases hv : vpn va < nupages
      · have hpage : (spaceAt k' d sz vmas).page (vpn va) = some (pte k' d (vpn va),
            k'.mem (pteFrame (pte k' d (vpn va)))) := (upages_of_lt hv).trans hup
        rw [Aspace.Reaches, hpage]
        rintro ⟨hu, hww⟩
        rcases hww rfl with hw | ⟨hcow, -⟩
        · exact hflags ⟨hu, hw⟩
        · exact hncow hcow
      · rw [Aspace.Reaches, show (spaceAt k' d sz vmas).page (vpn va) = none from
          upages_of_ge (by omega)]
        rintro ⟨r, hreg, -⟩
        exact hv (hok.region_lt hreg)

/-! ### What has been written -/

/-- The byte at address `a`, as an access that reaches its page finds it. -/
def Aspace.byteAt (A : Aspace) (a : Nat) : Byte := getByte (A.contents (vpn a)) (a % 4096)

/-- Memory with some bytes from `va` on replaced. -/
def overwrite (mem : Nat → Byte) (va : Nat) (bytes : List Byte) (a : Nat) : Byte :=
  if va ≤ a ∧ a < va + bytes.length then bytes.getD (a - va) 0 else mem a

section
omit [Layout]

theorem overwrite_of_lt {mem : Nat → Byte} {va j : Nat} {bytes : List Byte}
    (hj : j < bytes.length) :
    overwrite mem va bytes (va + j) = bytes.getD j 0 := by
  rw [overwrite, if_pos (by omega), Nat.add_sub_cancel_left]

theorem overwrite_of_not {mem : Nat → Byte} {va a : Nat} {bytes : List Byte}
    (h : ¬ (va ≤ a ∧ a < va + bytes.length)) : overwrite mem va bytes a = mem a := if_neg h

@[simp] theorem overwrite_nil (mem : Nat → Byte) (va : Nat) : overwrite mem va [] = mem :=
  funext fun a => overwrite_of_not (by simp)

theorem overwrite_append (mem : Nat → Byte) (va : Nat) (bs cs : List Byte) :
    overwrite (overwrite mem va bs) (va + bs.length) cs = overwrite mem va (bs ++ cs) := by
  funext a
  unfold overwrite
  rw [List.length_append]
  by_cases hlo : va ≤ a ∧ a < va + bs.length
  · rw [if_neg (by omega), if_pos hlo, if_pos (by omega), List.getD_append _ _ _ _ (by omega)]
  · by_cases hhi : va + bs.length ≤ a ∧ a < va + bs.length + cs.length
    · rw [if_pos hhi, if_pos (by omega), List.getD_append_right _ _ _ _ (by omega)]
      congr 1
      omega
    · rw [if_neg hhi, if_neg hlo, if_neg (by omega)]

end

/-- The bytes have been written from `va` on, and of what can be read nothing else has changed. -/
structure Overwritten (A A' : Aspace) (va : Nat) (bytes : List Byte) : Prop where
  byteAt : A'.byteAt = overwrite A.byteAt va bytes
  readable : ∀ w, A'.Reaches w false ↔ A.Reaches w false

namespace Overwritten

variable {A A1 A' : Aspace} {bs cs : List Byte}

omit [Layout]

theorem refl (A : Aspace) (va : Nat) : Overwritten A A va [] :=
  ⟨(overwrite_nil _ va).symm, fun _ => Iff.rfl⟩

theorem fetched (h : Fetched A v A') (va : Nat) : Overwritten A A' va [] := by
  refine ⟨?_, h.readable⟩
  rw [overwrite_nil]
  funext a
  rw [Aspace.byteAt, h.contents_eq, Aspace.byteAt]

theorem append (h1 : Overwritten A A1 va bs) (h2 : Overwritten A1 A' (va + bs.length) cs) :
    Overwritten A A' va (bs ++ cs) := by
  refine ⟨?_, fun w => (h2.readable w).trans (h1.readable w)⟩
  rw [h2.byteAt, h1.byteAt, overwrite_append]

theorem page {e : Word} {pg : Nat → Word} (hpage : A.page (vpn va) = some (e, pg))
    (hfit : va % 4096 + bs.length ≤ 4096) :
    Overwritten A (A.setPage (vpn va) (some (e, putBytes pg (va % 4096) bs))) va bs := by
  refine ⟨funext fun a => ?_, fun w => ?_⟩
  · unfold overwrite
    by_cases hv : vpn a = vpn va
    · have hiff : va % 4096 ≤ a % 4096 ∧ a % 4096 < va % 4096 + bs.length ↔
          va ≤ a ∧ a < va + bs.length := by
        simp only [vpn, pgsize] at hv
        omega
      have hsub : va ≤ a → a % 4096 - va % 4096 = a - va := by
        simp only [vpn, pgsize] at hv
        omega
      simp only [Aspace.byteAt, hv, Aspace.contents, Aspace.setPage_self, hpage, getByte_putBytes,
        hiff]
      by_cases hin : va ≤ a ∧ a < va + bs.length
      · rw [if_pos hin, if_pos hin, hsub hin.1]
      · rw [if_neg hin, if_neg hin]
    · rw [if_neg]
      · simp only [Aspace.byteAt, Aspace.contents, Aspace.setPage_of_ne A _ hv]
      · simp only [vpn, pgsize] at hv
        omega
  · by_cases hw : w = vpn va
    · subst hw
      simp only [Aspace.Reaches, Aspace.setPage_self, hpage]
      rfl
    · simp only [Aspace.Reaches, Aspace.setPage_of_ne A _ hw]
      rfl

end Overwritten

omit [Layout] in
/-- Frames enough now, and no change to the page: there were enough before. -/
theorem Fed.before {k1 : Kmem} (hup : upage k1 d v = upage k d v) (hdrawn : Drawn d k k1)
    (h : Fed k1 d v) : Fed k d v := by
  refine ⟨fun habs => ?_, fun hc hrefs => ?_⟩
  · rw [← upage_eq_none, ← hup, upage_eq_none] at habs
    have hneed := h.demand habs
    rcases hdrawn with ⟨hfree, -, hdir⟩ | hless
    · have hloc : pteLoc k d v = pteLoc k1 d v := by rw [pteLoc, pteLoc, hdir]
      rw [framesFor, hloc, ← hfree]
      exact hneed
    · have hle := framesFor_le k d v
      have hpos := framesFor_pos k1 d v
      omega
  · obtain ⟨e, pg, he, -⟩ := cowPage_iff.mp hc
    have hpte : pte k1 d v = pte k d v := by
      rw [(upage_eq_some.mp he).2.1, (upage_eq_some.mp (hup.trans he)).2.1]
    rcases hdrawn with ⟨hfree, hcount, -⟩ | hless
    · rw [← hfree]
      exact h.copy ⟨by rw [hpte]; exact hc.1, by rw [hpte]; exact hc.2⟩
        (by rw [hpte, hcount]; exact hrefs)
    · rintro hnil
      rw [hnil] at hless
      exact absurd hless (Nat.not_lt_zero _)

/-! ### The loop -/

/-- The bytes have been copied to `va`, as user stores would have copied them. -/
structure CopiedTo (man : Nat → Prop) (dirs kp : Finset Nat) (d sz : Nat)
    (vmas : Fin maxVmas → Vma) (va : Nat) (bytes : List Byte) (k k' : Kmem) : Prop where
  touched : Touched man dirs kp d sz vmas k k'
  written : Overwritten (spaceAt k d sz vmas) (spaceAt k' d sz vmas) va bytes
  inside : bytes ≠ [] → va + bytes.length ≤ kernbase
  reach : ∀ j < bytes.length, (spaceAt k d sz vmas).Reaches (vpn (va + j)) true
  fed : ∀ j < bytes.length, Fed k d (vpn (va + j))

/-- How `copyout` ends. -/
inductive CopiedOut (man : Nat → Prop) (dirs kp : Finset Nat) (d sz : Nat)
    (vmas : Fin maxVmas → Vma) (va : Nat) (buf : List Byte) (k : Kmem) : Int → Kmem → Prop
  | done {k' : Kmem} (h : CopiedTo man dirs kp d sz vmas va buf k k') (hoom : k'.oom = k.oom) :
      CopiedOut man dirs kp d sz vmas va buf k 0 k'
  /-- The page that byte `n` goes to is refused. -/
  | refused {k' : Kmem} {n : Nat} (hlt : n < buf.length)
      (h : CopiedTo man dirs kp d sz vmas va (buf.take n) k k') (hoom : k'.oom = k.oom)
      (hstart : n = 0 ∨ (va + n) % 4096 = 0)
      (hno : (spaceAt k d sz vmas).readOnly (vpn (va + n)) = true ∨
        ¬ (spaceAt k d sz vmas).Reaches (vpn (va + n)) true) :
      CopiedOut man dirs kp d sz vmas va buf k (-1) k'
  | starved {k' : Kmem} {n : Nat} (hlt : n < buf.length)
      (h : CopiedTo man dirs kp d sz vmas va (buf.take n) k k') (hoom : k.oom < k'.oom)
      (hfed : vpn (va + n) = vpn va → ¬ Fed k d (vpn va)) :
      CopiedOut man dirs kp d sz vmas va buf k (-1) k'

section
variable {buf : List Byte} {k1 k2 : Kmem}

theorem CopiedTo.nil (ht : Touched man dirs kp d sz vmas k k')
    (hw : Overwritten (spaceAt k d sz vmas) (spaceAt k' d sz vmas) va []) :
    CopiedTo man dirs kp d sz vmas va [] k k' :=
  ⟨ht, hw, fun hne => absurd rfl hne, fun _ hj => absurd hj (Nat.not_lt_zero _),
    fun _ hj => absurd hj (Nat.not_lt_zero _)⟩

theorem CopiedOut.touched {r : Int} (h : CopiedOut man dirs kp d sz vmas va buf k r k') :
    Touched man dirs kp d sz vmas k k' := by
  cases h with
  | done h => exact h.touched
  | refused _ h => exact h.touched
  | starved _ h => exact h.touched

/-- One round: a page that can be written to, and the bytes for it. -/
structure Round (man : Nat → Prop) (dirs kp : Finset Nat) (d sz : Nat)
    (vmas : Fin maxVmas → Vma) (va : Nat) (bytes : List Byte) (k k' : Kmem) : Prop where
  touched : Touched man dirs kp d sz vmas k k'
  written : Overwritten (spaceAt k d sz vmas) (spaceAt k' d sz vmas) va bytes
  other : ∀ w, w ≠ vpn va → upages k' d w = upages k d w
  inside : vpn va < nupages
  reach : (spaceAt k d sz vmas).Reaches (vpn va) true
  fed : Fed k d (vpn va)
  oom : k'.oom = k.oom
  drawn : Drawn d k k'

theorem Readied.round {e : Word} {page : Nat → Word} {bytes : List Byte} (hd : d ∈ dirs)
    (ht : Touched man dirs kp d sz vmas k k1) (hoom : k1.oom = k.oom) (hv : vpn va < nupages)
    (hreach : (spaceAt k d sz vmas).Reaches (vpn va) true)
    (hf : Fetched (spaceAt k d sz vmas) (vpn va) (spaceAt k1 d sz vmas))
    (hup : upage k1 d (vpn va) = some (e, page)) (hw : has e .w = true) (hu : has e .u = true)
    (hfed : Fed k d (vpn va)) (hdrawn : Drawn d k k1) (hfit : va % 4096 + bytes.length ≤ 4096) :
    Round man dirs kp d sz vmas va bytes k
      (k1.fill (pteFrame e) (putBytes page (va % 4096) bytes)) := by
  have hinv := ht.toLocal.inv
  obtain ⟨-, hup', hsame⟩ := hinv.write hd hv hup hw (putBytes page (va % 4096) bytes)
  have hpages := upages_update hv hup' fun w hw hne => hsame d hd w hw fun hc => hne hc.2
  have hpage1 : (spaceAt k1 d sz vmas).page (vpn va) = some (e, page) := (upages_of_lt hv).trans hup
  have hframe : d ≠ pteFrame e := by
    obtain ⟨hp, rfl, -⟩ := upage_eq_some.mp hup
    intro he
    exact hinv.user_not_tab hd hv hp (he ▸ dirs_subset_tabFrames hd)
  refine ⟨ht.trans (.write sz vmas hinv hd hv hup hw hu _), ?_, fun w hne => ?_, hv, hreach, hfed,
    hoom, hdrawn.trans (.inl ⟨rfl, rfl, update_of_ne hframe _ _⟩)⟩
  · have hA : spaceAt (k1.fill (pteFrame e) (putBytes page (va % 4096) bytes)) d sz vmas =
        (spaceAt k1 d sz vmas).setPage (vpn va)
          (some (e, putBytes page (va % 4096) bytes)) := by
      rw [spaceAt, hpages]
      rfl
    rw [hA]
    exact (Overwritten.fetched hf va).append (.page hpage1 hfit)
  · rw [hpages, update_of_ne hne]
    exact hf.page_of_ne hne

section
variable {bs cs : List Byte} (h : Round man dirs kp d sz vmas va bs k k1)
  (hin : va + bs.length ≤ (vpn va + 1) * 4096)
  (hcs : cs ≠ [] → va + bs.length = (vpn va + 1) * 4096)
include h hin hcs

theorem Round.append (h2 : CopiedTo man dirs kp d sz vmas (va + bs.length) cs k1 k') :
    CopiedTo man dirs kp d sz vmas va (bs ++ cs) k k' := by
  have hinside := h.inside
  have hnup := nupages_eq
  have hbelow : va + bs.length ≤ kernbase := by omega
  have hfirst : ∀ j < bs.length, vpn (va + j) = vpn va := by
    intro j hj
    simp only [vpn, pgsize] at *
    omega
  have hlater : ∀ j, bs.length ≤ j → j < (bs ++ cs).length → vpn (va + j) ≠ vpn va ∧
      va + j = va + bs.length + (j - bs.length) ∧ j - bs.length < cs.length := by
    intro j hj hlt
    rw [List.length_append] at hlt
    have := hcs (by rintro rfl; rw [List.length_nil] at hlt; omega)
    simp only [vpn, pgsize] at *
    omega
  refine ⟨h.touched.trans h2.touched, h.written.append h2.written, fun _ => ?_, fun j hj => ?_,
    fun j hj => ?_⟩
  · rw [List.length_append]
    by_cases hne : cs = []
    · rw [hne, List.length_nil]
      exact hbelow
    · have := h2.inside hne
      omega
  · by_cases hlt : j < bs.length
    · rw [hfirst j hlt]
      exact h.reach
    · obtain ⟨hne, heq, hjc⟩ := hlater j (by omega) hj
      have hr := h2.reach _ hjc
      rw [← heq] at hr
      have hpage : (spaceAt k1 d sz vmas).page (vpn (va + j)) =
          (spaceAt k d sz vmas).page (vpn (va + j)) := h.other _ hne
      rw [Aspace.Reaches, hpage] at hr
      exact hr
  · by_cases hlt : j < bs.length
    · rw [hfirst j hlt]
      exact h.fed
    · obtain ⟨hne, heq, hjc⟩ := hlater j (by omega) hj
      have hfed := h2.fed _ hjc
      rw [← heq] at hfed
      have hvn : vpn (va + j) < nupages := by
        have := h2.inside (by rintro rfl; exact absurd hjc (Nat.not_lt_zero _))
        simp only [vpn, pgsize] at *
        omega
      have hpage := h.other _ hne
      rw [upages_of_lt hvn, upages_of_lt hvn] at hpage
      exact hfed.before hpage h.drawn

theorem Round.out {r : Int} (h2 : CopiedOut man dirs kp d sz vmas (va + bs.length) cs k1 r k') :
    CopiedOut man dirs kp d sz vmas va (bs ++ cs) k r k' := by
  have hlen : ∀ {n}, n < cs.length → bs.length + n < (bs ++ cs).length := by
    intro n hn
    rw [List.length_append]
    omega
  have hmore : ∀ {n}, n < cs.length → va + bs.length = (vpn va + 1) * 4096 := by
    intro n hn
    exact hcs (by rintro rfl; exact absurd hn (Nat.not_lt_zero _))
  cases h2 with
  | done hc hoom => exact .done (h.append hin hcs hc) (hoom.trans h.oom)
  | @refused _ n hlt hc hoom hstart hno =>
    have hend := hmore hlt
    have hne : vpn (va + (bs.length + n)) ≠ vpn va := by
      simp only [vpn, pgsize] at *
      omega
    have hpage : (spaceAt k1 d sz vmas).page (vpn (va + (bs.length + n))) =
        (spaceAt k d sz vmas).page (vpn (va + (bs.length + n))) := h.other _ hne
    rw [Nat.add_assoc] at hno hstart
    refine .refused (n := bs.length + n) (hlen hlt) ?_ (hoom.trans h.oom) (.inr ?_)
      (hno.imp id fun hr hc => hr ?_)
    · rw [List.take_length_add_append]
      exact h.append hin (fun _ => hend) hc
    · rcases hstart with rfl | hstart
      · omega
      · exact hstart
    · rw [Aspace.Reaches, hpage]
      exact hc
  | @starved _ n hlt hc hoom =>
    have hend := hmore hlt
    refine .starved (n := bs.length + n) (hlen hlt) ?_ (by rw [← h.oom]; exact hoom) fun hv => ?_
    · rw [List.take_length_add_append]
      exact h.append hin (fun _ => hend) hc
    · simp only [vpn, pgsize] at hv hend
      omega

end

theorem CopiedOut.nil_at {va' : Nat} {r : Int} (h : CopiedOut man dirs kp d sz vmas va [] k r k') :
    CopiedOut man dirs kp d sz vmas va' [] k r k' := by
  cases h with
  | done hc hoom =>
    refine .done (.nil hc.touched ⟨?_, hc.written.readable⟩) hoom
    rw [hc.written.byteAt, overwrite_nil, overwrite_nil]
  | refused hlt => exact absurd hlt (Nat.not_lt_zero _)
  | starved hlt => exact absurd hlt (Nat.not_lt_zero _)

theorem Readied.out (h : Readied man dirs kp d sz vmas (vpn va) k none k') (hbuf : buf ≠ []) :
    CopiedOut man dirs kp d sz vmas va buf k (-1) k' := by
  have hlt : 0 < buf.length := List.length_pos_iff.mpr hbuf
  cases h with
  | refuse ht hoom hno hf =>
    refine .refused (n := 0) hlt (.nil ht ?_) hoom (.inl rfl) hno
    rcases hf with hsame | hf
    · rw [hsame]
      exact .refl _ _
    · exact .fetched hf va
  | starve ht hoom hsame hfed =>
    refine .starved (n := 0) hlt (.nil ht ?_) hoom fun _ => hfed
    rw [hsame]
    exact .refl _ _

end

/-- `copyout` to a directory, where `vmas` are the regions it consults. -/
theorem copyoutLoop_spec {cur : Option Proc} (hd : d ∈ dirs) (hok : VmasOk sz vmas)
    (hcur : ∀ va, va % 4096 = 0 → copyoutVma cur d va = regionOf vmas (vpn va)) :
    ∀ (fuel va : Nat) (buf : List Byte) (k : Kmem), Inv man dirs kp k → va < 2 ^ 32 →
      buf.length ≤ fuel →
      Ends (copyoutLoop cur d fuel va buf) k
        (fun r k' => CopiedOut man dirs kp d sz vmas va buf k r k') := by
  intro fuel
  induction fuel with
  | zero =>
    intro va buf k h _ hlen
    obtain rfl := List.length_eq_zero_iff.mp (Nat.le_zero.mp hlen)
    exact .ret (.done (.nil (.refl h) (.refl _ _)) rfl)
  | succ fuel ih =>
    intro va buf k h hva hlen
    have hround : pgrounddown va < 2 ^ 32 := (pgrounddown_le va).trans_lt hva
    have hmod : pgrounddown va % 4096 = 0 := by
      simp only [pgrounddown, pgsize]
      omega
    rw [copyoutLoop, ends_ite]
    refine ⟨fun hnil => ?_, fun hbuf => ?_⟩
    · rw [hnil]
      exact .ret (.done (.nil (.refl h) (.refl _ _)) rfl)
    have hpos : 0 < buf.length := List.length_pos_iff.mpr hbuf
    rw [ends_bind, hcur _ hmod]
    refine (copyoutFault_spec h hd hok hround).imp ?_
    intro r k1 hr
    cases r with
    | none =>
      rw [vpn_pgrounddown] at hr
      exact .ret (hr.out hbuf)
    | some q =>
      obtain ⟨hloc, hp, hin⟩ := hr
      have hready : Ends (copyoutPage (regionOf vmas (vpn (pgrounddown va))) d (pgrounddown va)
          q) k1 (fun f k' => Readied man dirs kp d sz vmas (vpn (pgrounddown va)) k f k') := by
        rcases hin with rfl | ⟨r, hreg, hcan, hadd⟩
        · exact copyoutPage_present h hd hok hround hloc hp
        · exact copyoutPage_added hd sz hok hround hreg hcan hadd hloc hp
      dsimp only
      refine hready.bind ?_
      intro f k2 hr
      rw [vpn_pgrounddown] at hr
      cases f with
      | none => exact .ret (hr.out hbuf)
      | some f =>
        dsimp only
        rw [ends_bind, ends_modify]
        cases hr with
        | @ready _ e page ht hoom hv hreach hf hup hw hu hfed hdrawn =>
          have hoff : va - pgrounddown va = va % 4096 := by
            simp only [pgrounddown, pgsize]
            omega
          have hnext : u32 (pgrounddown va + pgsize) = (vpn va + 1) * 4096 := by
            have hle : (vpn va + 1) * 4096 ≤ kernbase := by
              rw [← nupages_eq]
              exact Nat.mul_le_mul_right _ hv
            have heq : pgrounddown va + pgsize = (vpn va + 1) * 4096 := by
              simp only [pgrounddown, pgsize, vpn]
              omega
            rw [heq, u32, Nat.mod_eq_of_lt (hle.trans_lt (by decide))]
          obtain ⟨m, hm⟩ : ∃ m, min (pgsize - va % 4096) buf.length = m := ⟨_, rfl⟩
          have hmem : k2.mem (pteFrame e) = page := (upage_eq_some.mp hup).2.2
          rw [hoff, hnext, hm, hmem]
          have htake : (buf.take m).length = m := by
            rw [List.length_take]
            omega
          have hround : Round man dirs kp d sz vmas va (buf.take m) k
              (k2.fill (pteFrame e) (putBytes page (va % 4096) (buf.take m))) := by
            refine Readied.round hd ht hoom hv hreach hf hup hw hu hfed hdrawn ?_
            simp only [pgsize] at hm
            omega
          refine (ih _ (buf.drop m) _ hround.touched.toLocal.inv ?_ ?_).imp ?_
          · have := nupages_eq
            simp only [kernbase] at this
            omega
          · rw [List.length_drop]
            simp only [pgsize] at hm
            omega
          · intro r k' hrest
            rw [← List.take_append_drop m buf]
            have hin : va + (buf.take m).length ≤ (vpn va + 1) * 4096 := by
              simp only [vpn, pgsize] at *
              omega
            have hcs : buf.drop m ≠ [] →
                va + (buf.take m).length = (vpn va + 1) * 4096 := by
              intro hne
              have := List.length_pos_iff.mpr hne
              rw [List.length_drop] at this
              simp only [vpn, pgsize] at *
              omega
            refine hround.out hin hcs ?_
            by_cases hne : buf.drop m = []
            · rw [hne] at hrest ⊢
              exact hrest.nil_at
            · rw [hcs hne]
              exact hrest

theorem copyout_spec {p : Proc} {buf : List Byte} (h : Inv man dirs kp k) (hd : p.pgdir ∈ dirs)
    (hok : VmasOk p.sz p.vmas) (hva : va < 2 ^ 32) :
    Ends (copyout (some p) p.pgdir va buf) k
      (fun r k' => CopiedOut man dirs kp p.pgdir p.sz p.vmas va buf k r k') := by
  refine copyoutLoop_spec hd hok (fun va _ => ?_) buf.length va buf k h hva le_rfl
  rw [copyoutVma, if_pos rfl, hok.vmaFind_eq]

end Xv6
