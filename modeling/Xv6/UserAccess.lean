import Xv6.SysRun

/-!
# Xv6.UserAccess

User loads and stores from beginning to end. Whether an access goes through is a
property of the address space alone (`Aspace.Reaches`), and so is the page it then
finds (`Fetched`). Two attempts settle every access; the process is killed exactly if
the page cannot be reached or memory ran out.
-/

namespace Xv6

open Function (update)
open Relation (ReflTransGen)

variable [Layout] {man : Nat → Prop} {s s' : Sys} {i : Fin nproc} {va : Word} {write : Bool}

/-! ### One attempt -/

/-- How one attempt at a user access by a process that is not marked killed ends. -/
inductive Tried (man : Nat → Prop) (i : Fin nproc) (va : Word) (write : Bool) (s : Sys) :
    Out → Sys → Prop
  /-- The access went through. -/
  | done (hok : s.Allowed i va write) : Tried man i va write s .done s
  /-- The page was brought in, and the access is retried. -/
  | retry {k' : Kmem} (hT : Touching man i s { s with k := k' }) (hoom : k'.oom = s.k.oom)
      (hfree : s.k.freelist.length ≤ k'.freelist.length + 2 ∧
        ((s.aspace i).page (vpn va.toNat) = none → k'.freelist.length < s.k.freelist.length))
      (hbefore : ∀ e pg, (s.aspace i).page (vpn va.toNat) = some (e, pg) → has e .cow = true)
      (hf : Fetched (s.aspace i) (vpn va.toNat) (Sys.aspace { s with k := k' } i))
      (hafter : ∃ e pg, (Sys.aspace { s with k := k' } i).page (vpn va.toNat) = some (e, pg) ∧
        has e .cow = false)
      (hdemand : (s.aspace i).page (vpn va.toNat) = none →
        (s.aspace i).Reaches (vpn va.toNat) write)
      (hfed : ¬ Starved (s.pt.proc i) ⟨va, write, true⟩ s.k)
      (hsole : ∀ e pg, (s.aspace i).page (vpn va.toNat) = some (e, pg) →
        s.k.refcnt (pteFrame e) = 1 → k'.freelist = s.k.freelist) :
      Tried man i va write s .retry { s with k := k' }
  /-- The process is gone; if not for want of memory, then because the page is out
  of its reach. -/
  | killed {k' : Kmem} (hT : Touching man i s
        { s with k := k', pt := (s.pt.set i (s.pt.proc i).kill).exit i })
      (hwhy : (k' = s.k ∧ ¬ (s.aspace i).Reaches (vpn va.toNat) write) ∨
        (s.k.oom < k'.oom ∧ Starved (s.pt.proc i) ⟨va, write, true⟩ s.k))
      (hinit : i ≠ s.pt.initproc)
      (hpages : upages k' (s.pt.proc i).pgdir = upages s.k (s.pt.proc i).pgdir) :
      Tried man i va write s .killed
        { s with k := k', pt := (s.pt.set i (s.pt.proc i).kill).exit i }

omit [Layout] in
theorem Sys.aspace_page (s : Sys) (i : Fin nproc) (va : Word) :
    (s.aspace i).page (vpn va.toNat) =
      if has (pte s.k (s.pt.proc i).pgdir (vpn va.toNat)) .p ∧ vpn va.toNat < nupages then
        some (pte s.k (s.pt.proc i).pgdir (vpn va.toNat),
          s.k.mem (pteFrame (pte s.k (s.pt.proc i).pgdir (vpn va.toNat))))
      else none := by
  show upages _ _ _ = _
  unfold upages upage
  by_cases hv : vpn va.toNat < nupages
  · simp [hv]
  · simp [hv]

/-- A violation is an access that does not reach its page. -/
theorem Denied.not_reaches (h : SysInv man s) (hi : (s.pt.proc i).live)
    (hno : ¬ s.Allowed i va write)
    (hd : Denied (s.pt.proc i) ⟨va, write, true⟩ s.k) :
    ¬ (s.aspace i).Reaches (vpn va.toNat) write := by
  have hvm := h.pt.vmas i hi
  have hpage := s.aspace_page i va
  unfold Aspace.Reaches
  unfold Sys.Allowed allows at hno
  simp only [Bool.and_eq_true, Bool.or_eq_true, Bool.not_eq_true', Bool.true_eq_false,
    false_or, not_and] at hno
  cases hd with
  | readOnly hw hro =>
    rw [hvm.roFault_eq (k := s.k)] at hro
    change (s.aspace i).readOnly _ = true at hro
    split at hpage
    · next hp =>
        rw [hpage]
        rintro ⟨hu, hww⟩
        rcases hww hw with hww | ⟨-, hro'⟩
        · exact hno ⟨hp.1, .inr hww⟩ hu
        · rw [hro] at hro'
          exact absurd hro' (by simp)
    · rw [hpage]
      rintro ⟨r, hr, hcan⟩
      simp only [Aspace.readOnly, hr, Option.any_some, hcan hw] at hro
      exact absurd hro (by simp)
  | noAccess hu hp hc =>
    split at hpage
    · next hp =>
        rw [hpage]
        rintro ⟨hus, hww⟩
        cases hwr : write with
        | false => exact hno ⟨hp.1, .inl hwr⟩ hus
        | true =>
          rcases hww hwr with hww | ⟨hcow, -⟩
          · exact hno ⟨hp.1, .inr hww⟩ hus
          · exact hc hwr ⟨hp.1, hcow⟩
    · next hnp =>
        rw [hpage]
        rintro ⟨r, hr, -⟩
        exact hnp ⟨hp, hvm.region_lt hr⟩
  | unmapped hu hp hr =>
    rw [hvm.vmaFind_eq] at hr
    split at hpage
    · next hp' =>
        rw [hp] at hp'
        exact absurd hp'.1 (by simp)
    · rw [hpage]
      rintro ⟨r, hr', -⟩
      exact absurd (hr.symm.trans hr') (by simp)

omit [Layout] in
/-- A fault that could not be resolved for want of memory: there were less than two
free frames, and the page was absent or copy-on-write. -/
theorem Starved.short (hs : Starved (s.pt.proc i) ⟨va, write, true⟩ s.k) :
    s.k.freelist.length < 2 ∧
      ∀ e pg, (s.aspace i).page (vpn va.toNat) = some (e, pg) → has e .cow = true := by
  have hpage := s.aspace_page i va
  cases hs with
  | demand hr hw hp hfree =>
    refine ⟨hfree.trans_le (framesFor_le ..), fun e pg he => ?_⟩
    rw [hpage, if_neg (by simp [hp])] at he
    exact absurd he (by simp)
  | copy hw hro hc hrefs hfree =>
    refine ⟨by simp [hfree], fun e pg he => ?_⟩
    rw [hpage] at he
    split at he
    · rw [Option.some.injEq, Prod.mk.injEq] at he
      rw [← he.1]
      exact hc.2
    · exact absurd he (by simp)

omit [Layout] in
/-- The address space of a process after one of its pages has changed. -/
theorem Sys.aspace_setPage {k' : Kmem} {v : Nat} {x : Option Page} (hv : v < nupages)
    (hx : upage k' (s.pt.proc i).pgdir v = x)
    (hsame : ∀ v' < nupages, v' ≠ v →
      upage k' (s.pt.proc i).pgdir v' = upage s.k (s.pt.proc i).pgdir v') :
    Sys.aspace { s with k := k' } i = (s.aspace i).setPage v x := by
  simp only [Sys.aspace, Xv6.aspace, Aspace.setPage, upages_update hv hx hsame]

theorem tryAccess_tried (h : SysInv man s) (hi : (s.pt.proc i).live)
    (hk : (s.pt.proc i).killed = false) :
    Ends (tryAccess i ⟨va, write, true⟩) s (fun out s' => Tried man i va write s out s')
      (fun e => e = .initExiting ∧ (¬ (s.aspace i).Reaches (vpn va.toNat) write ∨
        Starved (s.pt.proc i) ⟨va, write, true⟩ s.k)) := by
  have hd := hi.dir
  have hvm := h.pt.vmas i hi
  rw [tryAccess, ends_bind, ends_onProc]
  refine (attempt_spec h.mem hd hvm.below).mono ?_ (fun _ hE => absurd hE.2.1 (by simp))
  rintro ⟨r, p'⟩ k' (⟨hok, heq, rfl⟩ | ⟨hno, hf, hr⟩)
  · obtain ⟨rfl, rfl⟩ := Prod.mk.inj heq
    rw [Ptable.set_self]
    exact .ret (.done hok)
  dsimp only at hf hr ⊢
  have hno' : ¬ s.Allowed i va write := by
    unfold Sys.Allowed
    rw [hno]
    simp
  obtain ⟨ht, -⟩ := hf.touched hd hvm h.mem
  -- the two ways to die end in the same `exit`
  have hdie : (k' = s.k ∧ ¬ (s.aspace i).Reaches (vpn va.toNat) write) ∨
        (s.k.oom < k'.oom ∧ Starved (s.pt.proc i) ⟨va, write, true⟩ s.k) →
      upages k' (s.pt.proc i).pgdir = upages s.k (s.pt.proc i).pgdir →
      Ends (do exit i; return .killed : SM Out)
        { s with k := k', pt := s.pt.set i (s.pt.proc i).kill }
        (fun out s' => Tried man i va write s out s')
        (fun e => e = .initExiting ∧ (¬ (s.aspace i).Reaches (vpn va.toNat) write ∨
          Starved (s.pt.proc i) ⟨va, write, true⟩ s.k)) := by
    intro hwhy hpages
    have hT := Touching.of_touched h hi ht (.inr rfl)
    rw [ends_bind, exit, ends_bind, ends_get, ends_ite]
    refine ⟨fun _ => (ends_throw ..).mpr ⟨rfl, hwhy.imp And.right And.right⟩, fun hinit => ?_⟩
    rw [ends_modifyPt]
    exact .ret (.killed (hT.then_pt (Ptable.sameVm_exit hT.live)) hwhy hinit hpages)
  cases hf with
  | @demand r hreg hw hadd =>
    rw [hk] at hr
    subst hr
    have hT := Touching.of_touched h hi ht (.inl rfl)
    rw [Ptable.set_self] at hT ⊢
    rw [hvm.vmaFind_eq] at hreg
    have hv := hvm.region_lt hreg
    obtain ⟨e, hup, hwe, hu, hcow⟩ := hadd.fresh
    have hA := Sys.aspace_setPage (s := s) (i := i) hv hup fun v' hv' hne =>
      hadd.same _ hd v' hv' fun hc => hne hc.2
    have habs : (s.aspace i).page (vpn va.toNat) = none := (upages_of_lt hv).trans hadd.absent
    refine .ret (.retry hT hadd.oom ⟨hadd.free, fun _ => hadd.taken⟩ (fun e pg hp => ?_) ?_
      ⟨e, fun _ => 0#32, ?_, hcow⟩ (fun _ => ?_) hadd.not_starved fun e pg hp => ?_)
    · rw [habs] at hp
      exact absurd hp (by simp)
    · rw [hA]
      exact .demand hreg habs hwe hu hcow
    · rw [hA, Aspace.setPage_self]
    · rw [Aspace.Reaches, habs]
      exact ⟨r, hreg, hw⟩
    · rw [habs] at hp
      exact absurd hp (by simp)
  | resolve hw hro hc hfree hres =>
    rw [hk] at hr
    subst hr
    have hT := Touching.of_touched h hi ht (.inl rfl)
    rw [Ptable.set_self] at hT ⊢
    have hv := h.mem.cowPage_user hd (vpn_lt va.isLt) hc
    obtain ⟨e, pg, hup, hcow⟩ := cowPage_iff.mp hc
    obtain ⟨e', hup', hwe, hu, hcow'⟩ := hres.page e pg hup
    have hA := Sys.aspace_setPage (s := s) (i := i) hv hup' fun v' hv' hne =>
      hres.same _ hd v' hv' fun hc => hne hc.2
    have hpage : (s.aspace i).page (vpn va.toNat) = some (e, pg) := (upages_of_lt hv).trans hup
    rw [hvm.roFault_eq (k := s.k)] at hro
    refine .ret (.retry hT hres.oom ⟨hres.free.trans (Nat.le_succ _), fun habs => ?_⟩
      (fun e1 pg1 hp => ?_) ?_ ⟨e', pg, ?_, hcow'⟩ (fun habs => ?_) (not_starved_of_cow hc hfree)
      fun e1 pg1 hp hone => hres.sole ?_)
    · rw [hpage] at habs
      cases habs
    · rw [hpage, Option.some.injEq, Prod.mk.injEq] at hp
      rw [← hp.1]
      exact hcow
    · rw [hA]
      exact .resolve hro hpage hcow hwe hu hcow'
    · rw [hA, Aspace.setPage_self]
    · rw [hpage] at habs
      cases habs
    · rw [hpage, Option.some.injEq, Prod.mk.injEq] at hp
      rw [(upage_eq_some.mp hup).2.1, hp.1]
      exact hone
  | deny why heq =>
    obtain rfl : r = some .exit := hr
    exact hdie (.inl ⟨heq, why.not_reaches h hi hno'⟩) (by rw [heq])
  | starve why hinv hsame hoom =>
    obtain rfl : r = some .exit := hr
    exact hdie (.inr ⟨hoom, why⟩) (upages_congr (hsame _ hd))

/-! ### The whole access -/

/-- How a user access by a process that is not marked killed ends. -/
inductive Accessed (man : Nat → Prop) (i : Fin nproc) (va : Word) (write : Bool) (s : Sys) :
    Out → Sys → Prop
  | done {k' : Kmem} (hT : Touching man i s { s with k := k' }) (hoom : k'.oom = s.k.oom)
      (hfree : s.k.freelist.length ≤ k'.freelist.length + 2 ∧
        ((s.aspace i).page (vpn va.toNat) = none → k'.freelist.length < s.k.freelist.length))
      (hreach : (s.aspace i).Reaches (vpn va.toNat) write)
      (hf : Fetched (s.aspace i) (vpn va.toNat) (Sys.aspace { s with k := k' } i))
      (hok : Sys.Allowed { s with k := k' } i va write)
      (hfed : s.Allowed i va write ∨ ¬ Starved (s.pt.proc i) ⟨va, write, true⟩ s.k)
      (hsole : ∀ e pg, (s.aspace i).page (vpn va.toNat) = some (e, pg) →
        s.k.refcnt (pteFrame e) = 1 → k'.freelist = s.k.freelist) :
      Accessed man i va write s .done { s with k := k' }
  | killed {k' : Kmem} (hT : Touching man i s
        { s with k := k', pt := (s.pt.set i (s.pt.proc i).kill).exit i })
      (hwhy : (k'.oom = s.k.oom ∧ ¬ (s.aspace i).Reaches (vpn va.toNat) write) ∨
        (s.k.oom < k'.oom ∧ Starved (s.pt.proc i) ⟨va, write, true⟩ s.k))
      (hinit : i ≠ s.pt.initproc)
      (hres : ∀ v, (upages k' (s.pt.proc i).pgdir v).isSome =
        (upages s.k (s.pt.proc i).pgdir v).isSome) :
      Accessed man i va write s .killed
        { s with k := k', pt := (s.pt.set i (s.pt.proc i).kill).exit i }

theorem Touching.page_allowed (h : SysInv man s) (hi : (s.pt.proc i).live)
    (hok : s.Allowed i va write) :
    ∃ e pg, (s.aspace i).page (vpn va.toNat) = some (e, pg) ∧ has e .u = true ∧
      (write = true → has e .w = true) := by
  obtain ⟨e, pg, hv, hup, hu, hw, -⟩ := h.allowed_page hi hok
  exact ⟨e, pg, (upages_of_lt hv).trans hup, hu, hw⟩

/-- Two attempts settle a user access. -/
theorem userAccess_ends (h : SysInv man s) (hi : (s.pt.proc i).live)
    (hk : (s.pt.proc i).killed = false) (n : Nat) :
    Ends (userAccess i va write (n + 2)) s (fun out s' => Accessed man i va write s out s')
      (fun e => e = .initExiting ∧ (¬ (s.aspace i).Reaches (vpn va.toNat) write ∨
        Starved (s.pt.proc i) ⟨va, write, true⟩ s.k)) := by
  rw [userAccess, ends_bind]
  refine (tryAccess_tried h hi hk).mono ?_ (fun _ hE => hE)
  intro out s1 ht
  cases ht with
  | done hok =>
    obtain ⟨e, pg, hpage, hu, hw⟩ := Touching.page_allowed h hi hok
    have hf : Fetched (s.aspace i) (vpn va.toNat) (s.aspace i) := .hit hpage
    refine .ret (.done (.refl h hi) rfl ⟨Nat.le_add_right _ _, fun habs => ?_⟩
      (hf.reached hpage hu hw) hf hok (.inl hok) fun _ _ _ _ => rfl)
    rw [hpage] at habs
    cases habs
  | killed hT hwhy hinit hpages =>
    exact .ret (.killed hT (hwhy.imp_left fun hw => ⟨by rw [hw.1], hw.2⟩) hinit
      fun v => by rw [hpages])
  | @retry k1 hT hoom hfree hbefore hf hafter hdemand hfed hsole =>
    dsimp only
    rw [userAccess, ends_bind]
    have htry : Ends (tryAccess i ⟨va, write, true⟩) { s with k := k1 } _ _ :=
      tryAccess_tried hT.inv hT.live hk
    obtain ⟨e, pg, hpage, hcow⟩ := hafter
    refine htry.mono ?_ fun _ hE => ⟨hE.1, .inl fun hr => ?_⟩
    swap
    · rcases hE.2 with hno | hstarved
      · exact hno (hf.reaches hr)
      · rw [hstarved.short.2 e pg hpage] at hcow
        exact absurd hcow (by simp)
    intro out s2 ht2
    cases ht2 with
    | done hok =>
      obtain ⟨e, pg, hpage, hu, hw⟩ := Touching.page_allowed hT.inv hT.live hok
      exact .ret (.done hT hoom hfree (hf.reached hpage hu hw) hf hok (.inr hfed) hsole)
    | killed hT2 hwhy hinit hpages =>
      rcases hwhy with ⟨rfl, hno⟩ | ⟨-, hstarved⟩
      · refine .ret (.killed (hT.trans hT2) (.inl ⟨hoom, fun hr => hno (hf.reaches hr)⟩) hinit
          fun v => ?_)
        -- the page was there: one that was brought in would have been in reach
        exact hf.isSome (fun habs => hno (hf.reaches (hdemand habs))) v
      · rw [hstarved.short.2 e pg hpage] at hcow
        exact absurd hcow (by simp)
    | retry hT2 hoom2 hfree2 hbefore2 =>
      -- the page is present and no longer copy-on-write
      rw [hbefore2 e pg hpage] at hcow
      exact absurd hcow (by simp)

/-! ### Loads and stores -/

/-- How a load by a process that is not marked killed ends. -/
inductive Loaded (man : Nat → Prop) (i : Fin nproc) (va : Word) (s : Sys) : Out → Sys → Prop
  | done {k' : Kmem} (hT : Touching man i s { s with k := k' }) (hoom : k'.oom = s.k.oom)
      (hfree : s.k.freelist.length ≤ k'.freelist.length + 2 ∧
        ((s.aspace i).page (vpn va.toNat) = none → k'.freelist.length < s.k.freelist.length))
      (hreach : (s.aspace i).Reaches (vpn va.toNat) false)
      (hf : Fetched (s.aspace i) (vpn va.toNat) (Sys.aspace { s with k := k' } i))
      (hfed : s.Allowed i va false ∨ ¬ Starved (s.pt.proc i) ⟨va, false, true⟩ s.k) :
      Loaded man i va s
        (.byte (getByte ((s.aspace i).contents (vpn va.toNat)) (va.toNat % pgsize)))
        { s with k := k' }
  | killed {s' : Sys} (h : Accessed man i va false s .killed s') : Loaded man i va s .killed s'

theorem load_ends (h : SysInv man s) (hi : (s.pt.proc i).live)
    (hk : (s.pt.proc i).killed = false) :
    Ends (load i va) s (fun out s' => Loaded man i va s out s') (fun e => e = .initExiting ∧
      (¬ (s.aspace i).Reaches (vpn va.toNat) false ∨
        Starved (s.pt.proc i) ⟨va, false, true⟩ s.k)) := by
  rw [load]
  refine (userAccess_ends h hi hk 1).bind ?_
  intro out s1 ha
  cases ha with
  | killed hT hwhy hinit hres => exact .ret (.killed (.killed hT hwhy hinit hres))
  | @done k1 hT hoom hfree hreach hf hok hfed =>
    dsimp only
    rw [ends_bind, ends_get]
    obtain ⟨e, pg, hv, hup, -, -, htgt, hmem⟩ := hT.inv.allowed_page hT.live hok
    obtain ⟨e', hpage⟩ := hf.page
    have hpg : pg = (s.aspace i).contents (vpn va.toNat) := by
      have := ((upages_of_lt hv).trans hup).symm.trans hpage
      simp only [Option.some.injEq, Prod.mk.injEq] at this
      exact this.2
    have hpeek : peek { s with k := k1 } i va =
        getByte ((s.aspace i).contents (vpn va.toNat)) (va.toNat % pgsize) := by
      rw [peek, htgt, ← hpg, ← hmem]
    rw [hpeek]
    exact .ret (.done hT hoom hfree hreach hf hfed)

/-- How a store by a process that is not marked killed ends. -/
inductive Stored (man : Nat → Prop) (i : Fin nproc) (va : Word) (b : Byte) (s : Sys) :
    Out → Sys → Prop
  | done {k' : Kmem} {A : Aspace} {e : Word} (hT : Touching man i s { s with k := k' })
      (hoom : k'.oom = s.k.oom) (hfree : s.k.freelist.length ≤ k'.freelist.length + 2)
      (hreach : (s.aspace i).Reaches (vpn va.toNat) true)
      (hf : Fetched (s.aspace i) (vpn va.toNat) A)
      (hpage : A.page (vpn va.toNat) = some (e, (s.aspace i).contents (vpn va.toNat)))
      (hw : has e .w = true) (hu : has e .u = true)
      (hA : Sys.aspace { s with k := k' } i = A.setPage (vpn va.toNat)
        (some (e, setByte ((s.aspace i).contents (vpn va.toNat)) (va.toNat % pgsize) b)))
      (hfed : s.Allowed i va true ∨ ¬ Starved (s.pt.proc i) ⟨va, true, true⟩ s.k)
      (hsole : ∀ e pg, (s.aspace i).page (vpn va.toNat) = some (e, pg) →
        s.k.refcnt (pteFrame e) = 1 → k'.freelist = s.k.freelist) :
      Stored man i va b s .done { s with k := k' }
  | killed {s' : Sys} (h : Accessed man i va true s .killed s') : Stored man i va b s .killed s'

section
variable (h : SysInv man s) (hi : (s.pt.proc i).live)
include h hi

theorem store_ends {b : Byte} (hk : (s.pt.proc i).killed = false) :
    Ends (store i va b) s (fun out s' => Stored man i va b s out s') (fun e => e = .initExiting ∧
      (¬ (s.aspace i).Reaches (vpn va.toNat) true ∨
        Starved (s.pt.proc i) ⟨va, true, true⟩ s.k)) := by
  rw [store]
  refine (userAccess_ends h hi hk 1).bind ?_
  intro out s1 ha
  cases ha with
  | killed hT hwhy hinit hres => exact .ret (.killed (.killed hT hwhy hinit hres))
  | @done k1 hT hoom hfree hreach hf hok hfed hsole =>
    dsimp only
    rw [ends_bind, ends_modify]
    obtain ⟨e, pg, hv, hup, hu, hw, htgt, hmem⟩ := hT.inv.allowed_page hT.live hok
    obtain ⟨e', hpage⟩ := hf.page
    have hpage1 : (Sys.aspace { s with k := k1 } i).page (vpn va.toNat) = some (e, pg) :=
      (upages_of_lt hv).trans hup
    obtain ⟨rfl, hpg⟩ : e = e' ∧ pg = (s.aspace i).contents (vpn va.toNat) := by
      have := hpage1.symm.trans hpage
      simp only [Option.some.injEq, Prod.mk.injEq] at this
      exact this
    obtain ⟨-, hup', hsame⟩ := hT.inv.mem.write hT.live.dir hv hup (hw rfl)
      (setByte pg (va.toNat % pgsize) b)
    have hpoke : poke { s with k := k1 } i va b =
        { s with k := k1.fill (pteFrame e) (setByte pg (va.toNat % pgsize) b) } := by
      rw [poke, htgt, ← hmem]
    have hT' := hT.trans (.poke (b := b) hT.inv hT.live hok)
    rw [hpoke] at hT' ⊢
    refine .ret (.done hT' hoom hfree.1 hreach hf hpage (hw rfl) hu ?_ hfed hsole)
    rw [← hpg]
    exact Sys.aspace_setPage (s := { s with k := k1 }) hv hup' fun v' hv' hne =>
      hsame _ hT.live.dir v' hv' fun hc => hne hc.2

variable (va) in
/-- With frames enough, a load within reach goes through. -/
theorem load_through (hk : (s.pt.proc i).killed = false)
    (hreach : (s.aspace i).Reaches (vpn va.toNat) false)
    (hfed : ¬ Starved (s.pt.proc i) ⟨va, false, true⟩ s.k) :
    ∃ b s', ((Call.load va).run i).run s = .ok (.byte b, s') ∧ Loaded man i va s (.byte b) s' := by
  have hends : Ends (load i va) s fun out s' => ∃ b, out = .byte b ∧ Loaded man i va s out s' := by
    refine (load_ends h hi hk).mono (fun out s' hl => ?_) ?_
    · cases hl with
      | done hT hoom hfree hr hf hfed => exact ⟨_, rfl, .done hT hoom hfree hr hf hfed⟩
      | killed ha =>
        cases ha with
        | killed _ hwhy => exact (hwhy.elim (fun hw => hw.2 hreach) fun hw => hfed hw.2).elim
    · exact fun _ hE => hE.2.elim (· hreach) hfed
  obtain ⟨_, s', hrun, b, rfl, hl⟩ := hends.exists_ok
  exact ⟨b, s', hrun, hl⟩

/-- A process that is marked killed does not come back from a fault. -/
theorem store_killed {b : Byte} (hk : (s.pt.proc i).killed = true) (hno : ¬ s.Allowed i va true) :
    Ends (store i va b) s (fun out _ => out = .killed) (fun _ => True) := by
  rw [store, ends_bind, userAccess, ends_bind, tryAccess, ends_bind, ends_onProc]
  refine (attempt_spec h.mem hi.dir (h.pt.vmas i hi).below).mono ?_ fun _ _ => trivial
  rintro ⟨r, p'⟩ k' (⟨hok, -, -⟩ | ⟨-, hf, hr⟩)
  · exact absurd hok hno
  have hkilled : p'.killed = true := by
    cases hf with
    | demand => exact hk
    | resolve => exact hk
    | deny => rfl
    | starve => rfl
  rw [show r = some .exit from hr.trans (by simp [hkilled])]
  dsimp only
  rw [ends_bind, exit, ends_bind, ends_get, ends_ite]
  refine ⟨fun _ => (ends_throw ..).mpr trivial, fun _ => ?_⟩
  rw [ends_modifyPt]
  exact .ret (.ret (.ret rfl))

variable (va) in
theorem store_through {b : Byte} (hk : (s.pt.proc i).killed = false)
    (hreach : (s.aspace i).Reaches (vpn va.toNat) true)
    (hfed : ¬ Starved (s.pt.proc i) ⟨va, true, true⟩ s.k) :
    ∃ s', ((Call.store va b).run i).run s = .ok (.done, s') ∧ Stored man i va b s .done s' := by
  have hends : Ends (store i va b) s (fun out s' => out = .done ∧ Stored man i va b s out s') := by
    refine (store_ends h hi hk).mono (fun out s' hs => ?_) ?_
    · cases hs with
      | done hT hoom hfree hr hf hpage hw hu hA hfed hsole =>
        exact ⟨rfl, .done hT hoom hfree hr hf hpage hw hu hA hfed hsole⟩
      | killed ha =>
        cases ha with
        | killed _ hwhy => exact (hwhy.elim (fun hw => hw.2 hreach) fun hw => hfed hw.2).elim
    · exact fun _ hE => hE.2.elim (· hreach) hfed
  obtain ⟨_, s', hrun, rfl, hs⟩ := hends.exists_ok
  exact ⟨s', hrun, hs⟩

end

end Xv6
