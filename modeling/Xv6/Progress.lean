import Xv6.RegionRuns

/-!
# Xv6.Progress

When `trap` returns from a page fault, may the access go ahead?

Not always. The handler marks a process killed and returns, but only a fault from
user mode then ends in `exit`; a fault from kernel mode resumes the instruction
that just faulted, with the page tables as they were. And `cow_fault` makes a page
writable without asking whether the user may touch it, so that a user's store to
the guard page below its stack is retried once in vain after a `fork`. `Stuck`
lists these cases; in all others the retried access is permitted.
-/

namespace Xv6

section
variable [Layout] {man : Nat → Prop} {dirs kp : Finset Nat} {k k' : Kmem} {d v : Nat}
  {p p' : Proc} {a : Access}

/-- The faults after which `trap` resumes an access that is still refused. -/
inductive Stuck (p : Proc) (a : Access) (k : Kmem) : Prop
  /-- The kernel writes to a read-only region. -/
  | readOnly (hu : a.user = false) (hw : a.write = true) (hro : roFault p a = true)
  /-- The kernel's access needs a frame, and there is none. -/
  | starved (hu : a.user = false) (why : Starved p a k)
  /-- The user writes to a copy-on-write page that is not the user's. -/
  | guard (hu : a.user = true) (hk : p.killed = false) (hw : a.write = true)
      (hro : roFault p a = false) (hc : CowPage k p.pgdir (vpn a.va.toNat))
      (hpu : has (pte k p.pgdir (vpn a.va.toNat)) .u = false)
      (hfree : 1 < k.refcnt (pteFrame (pte k p.pgdir (vpn a.va.toNat))) → k.freelist ≠ [])

omit [Layout] in
/-- Whether an access is allowed shows in the page the map has there. -/
theorem allows_pte : allows (pte k d v) a =
    match upage k d v with
    | some x => (!a.write || has x.1 .w) && (!a.user || has x.1 .u)
    | none => false := by
  unfold allows upage
  by_cases hp : has (pte k d v) .p = true
  · simp [hp]
  · simp [hp]

/-- A page the kernel has no frame for stays as it is. -/
theorem Starved.allows_same (hs : Starved p a k) (h : Inv man dirs kp k) (hd : p.pgdir ∈ dirs)
    (hvm : VmasOk p.sz p.vmas)
    (hsame : ∀ d ∈ dirs, ∀ v < nupages, upage k' d v = upage k d v) :
    allows (pte k' p.pgdir (vpn a.va.toNat)) a = allows (pte k p.pgdir (vpn a.va.toNat)) a := by
  have hv : vpn a.va.toNat < nupages := by
    cases hs with
    | demand hr hw hp hshort =>
      rw [hvm.vmaFind_eq] at hr
      exact hvm.region_lt hr
    | copy hw hro hc hrefs hnil => exact h.cowPage_user hd (vpn_lt a.va.isLt) hc
  rw [allows_pte, allows_pte, hsame _ hd _ hv]

/-- After a resumed fault the access is permitted, except in the cases of `Stuck`. -/
theorem Faulted.permits_iff (hf : Faulted man dirs kp p a k k' p') (h : Inv man dirs kp k)
    (hd : p.pgdir ∈ dirs) (hvm : VmasOk p.sz p.vmas) (hno : permits k p.pgdir a = false)
    (hres : (p'.killed && a.user) = false) : permits k' p.pgdir a = true ↔ ¬ Stuck p a k := by
  have hinv' : Inv man dirs kp k' := (hf.touched hd hvm h).1.toLocal.inv
  rw [hinv'.permits_eq hd]
  rw [h.permits_eq hd] at hno
  cases hf with
  | @demand r hr hw hadd =>
    obtain ⟨e, hup, hwe, hu, -⟩ := hadd.fresh
    have hp : has (pte k p.pgdir (vpn a.va.toNat)) .p = false := upage_eq_none.mp hadd.absent
    refine iff_of_true ?_ fun hs => ?_
    · rw [allows_pte, hup]
      cases hwr : a.write with
      | false => simp [hu]
      | true => simp [hu, hwe, hw hwr]
    · cases hs with
      | readOnly _ hwr hro => exact absurd hro (by simp [roFault, hr, hw hwr])
      | starved _ why =>
        cases why with
        | demand _ _ _ hshort => exact absurd hadd.enough (by omega)
        | copy _ _ hc => exact absurd (hp.symm.trans hc.1) (by simp)
      | guard _ _ _ _ hc => exact absurd (hp.symm.trans hc.1) (by simp)
  | resolve hw hro hc hfree hres' =>
    obtain ⟨e, pg, hup, hcow⟩ := cowPage_iff.mp hc
    obtain ⟨-, he, -⟩ := upage_eq_some.mp hup
    obtain ⟨e', hup', hwe, hu, -⟩ := hres'.page e pg hup
    rw [allows_pte, hup']
    simp only [hwe, hu, Bool.or_true, Bool.true_and]
    constructor
    · intro hok hs
      cases hs with
      | readOnly _ _ hro' => exact absurd (hro.symm.trans hro') (by simp)
      | starved _ why => exact not_starved_of_cow hc hfree why
      | guard hus _ _ _ _ hpu =>
        rw [he] at hpu
        simp [hus, hpu] at hok
    · intro hs
      by_contra hok
      simp only [Bool.or_eq_true, Bool.not_eq_true', not_or, Bool.not_eq_false,
        Bool.not_eq_true] at hok
      refine hs (.guard hok.1 ?_ hw hro hc (by rw [he]; exact hok.2) hfree)
      simpa [hok.1] using hres
  | deny why heq =>
    subst heq
    have hus : a.user = false := by simpa [Proc.kill] using hres
    refine iff_of_false (by simp [hno]) (not_not_intro ?_)
    cases why with
    | readOnly hw hro => exact .readOnly hus hw hro
    | noAccess hu | unmapped hu => exact absurd (hus.symm.trans hu) (by simp)
  | starve why hinv hsame hoom =>
    have hus : a.user = false := by simpa [Proc.kill] using hres
    refine iff_of_false ?_ (not_not_intro (.starved hus why))
    rw [why.allows_same h hd hvm hsame, hno]
    simp

variable {s : Sys} {i : Fin nproc}

theorem SysInv.permits_iff (h : SysInv man s) (hi : (s.pt.proc i).live)
    (hfault : permits s.k (s.pt.proc i).pgdir a = false)
    (htrap : (trap (s.pt.proc i) (faultPresent s.k (s.pt.proc i).pgdir a.va.toNat) a).run s.k =
      .ok ((.resume, p'), k')) :
    permits k' (s.pt.proc i).pgdir a = true ↔ ¬ Stuck (s.pt.proc i) a s.k := by
  have hd := hi.dir
  have hvm := h.pt.vmas i hi
  obtain ⟨hf, hend⟩ := (trap_spec h.mem hd hvm.below hfault).of_ok htrap
  refine hf.permits_iff h.mem hd hvm hfault ?_
  cases hx : p'.killed && a.user with
  | false => rfl
  | true =>
    dsimp only at hend
    rw [hx] at hend
    exact absurd hend (by simp)

/-- In every state reached and for every page fault that `trap` returns from, the
page tables it leaves behind permit the access exactly if the fault is not one of
those listed in `Stuck`. -/
theorem trap_permits_iff (h : Runs (fun _ _ => True) s) (hi : Alive s i)
    (hfault : permits s.k (s.pt.proc i).pgdir a = false)
    (htrap : (trap (s.pt.proc i) (faultPresent s.k (s.pt.proc i).pgdir a.va.toNat) a).run s.k =
      .ok ((.resume, p'), k')) :
    permits k' (s.pt.proc i).pgdir a = true ↔ ¬ Stuck (s.pt.proc i) a s.k := by
  obtain ⟨man, hinv⟩ := h.inv
  exact hinv.permits_iff hi.live hfault htrap

end

section
variable [Layout] {man : Nat → Prop} {s : Sys} {sz : Nat} {prot : Word} {a : Access}

section
variable (h : OneRegion man sz prot s) (hva : vpn a.va.toNat = 1)
include h hva

theorem OneRegion.vmaFind :
    vmaFind (s.pt.proc initSlot) a.va.toNat = some ⟨4096, 4096, prot, true⟩ := by
  rw [(h.inv.pt.vmas _ h.alive.live).vmaFind_eq, hva, h.vmas]
  rfl

theorem OneRegion.roFault : roFault (s.pt.proc initSlot) a = !canWrite prot := by
  simp [Xv6.roFault, h.vmaFind hva]

theorem OneRegion.trap :
    permits s.k (s.pt.proc initSlot).pgdir a = false ∧
      ∃ r k', (trap (s.pt.proc initSlot)
        (faultPresent s.k (s.pt.proc initSlot).pgdir a.va.toNat) a).run s.k = .ok (r, k') ∧
        r.1 = (if r.2.killed && a.user then .exit else .resume) ∧
        r.2.killed = (a.write && !canWrite prot) := by
  have hd := h.alive.live.dir
  have hvm := h.inv.pt.vmas _ h.alive.live
  have hp : has (pte s.k (s.pt.proc initSlot).pgdir (vpn a.va.toNat)) .p = false := by
    have habs : upages s.k (s.pt.proc initSlot).pgdir 1 = none := h.absent
    rw [upages_of_lt (by decide), upage_eq_none] at habs
    rw [hva, habs]
  have hr := h.vmaFind hva
  have hro := h.roFault hva
  have hfault : permits s.k (s.pt.proc initSlot).pgdir a = false := by
    rw [h.inv.mem.permits_eq hd, allows, hp]
    simp
  have hends : Ends (Xv6.trap (s.pt.proc initSlot)
      (faultPresent s.k (s.pt.proc initSlot).pgdir a.va.toNat) a) s.k
      (fun r _ => r.1 = (if r.2.killed && a.user then .exit else .resume) ∧
        r.2.killed = (a.write && !canWrite prot)) := by
    refine (trap_spec h.inv.mem hd hvm.below hfault).mono ?_ ?_
    · rintro ⟨r, p'⟩ k' ⟨hf, hend⟩
      refine ⟨hend, ?_⟩
      dsimp only at hf ⊢
      cases hf with
      | demand hr' hw hadd =>
        obtain rfl := Option.some.inj (hr.symm.trans hr')
        cases hwr : a.write with
        | false => exact h.unkilled
        | true =>
          rw [hw hwr]
          exact h.unkilled
      | resolve _ _ hc => exact absurd (hp.symm.trans hc.1) (by simp)
      | deny why heq =>
        cases why with
        | readOnly hw hro' => rw [hw, ← hro, hro']; rfl
        | noAccess _ hp' => exact absurd (hp.symm.trans hp') (by simp)
        | unmapped _ _ hr' => exact absurd (hr.symm.trans hr') (by simp)
      | starve why hinv hsame hoom =>
        cases why with
        | demand _ _ _ hshort =>
          have hle := framesFor_le s.k (s.pt.proc initSlot).pgdir (vpn a.va.toNat)
          have := h.free
          omega
        | copy _ _ hc => exact absurd (hp.symm.trans hc.1) (by simp)
    · rintro e ⟨-, hu, ⟨-, hnone⟩ | ⟨hpres, -⟩⟩
      · exact absurd (hr.symm.trans hnone) (by simp)
      · exact absurd (hp.symm.trans hpres) (by simp)
  exact ⟨hfault, hends.exists_ok⟩

end

end

theorem trap_permits_iff_mmap : let _ : Layout := Layout.sample
    ∃ s p' k', Runs (fun _ _ => True) s ∧ Alive s initSlot ∧
      permits s.k (s.pt.proc initSlot).pgdir ⟨4096#32, true, false⟩ = false ∧
      (trap (s.pt.proc initSlot) (faultPresent s.k (s.pt.proc initSlot).pgdir 4096)
        ⟨4096#32, true, false⟩).run s.k = .ok ((.resume, p'), k') ∧
      (permits k' (s.pt.proc initSlot).pgdir ⟨4096#32, true, false⟩ = true ↔
        ¬ Stuck (s.pt.proc initSlot) ⟨4096#32, true, false⟩ s.k) := by
  let _ : Layout := Layout.sample
  obtain ⟨man, _, s1, _, -, -, h1, hruns⟩ := sample_maps
  have hr : Runs (fun _ _ => True) s1 := hruns trivial
  obtain ⟨hfault, ⟨e, p'⟩, k', htrap, hend, -⟩ := h1.trap (a := ⟨4096#32, true, false⟩) (by decide)
  obtain rfl : e = .resume := by simpa using hend
  exact ⟨s1, p', k', hr, h1.alive, hfault, htrap, trap_permits_iff hr h1.alive hfault htrap⟩

/-- The kernel writes to a region after `mprotect` has made it read-only, as
`piperead` does for `read` into such a region: `trap` returns to the instruction,
which is as forbidden as before. -/
theorem trap_returns_refused : let _ : Layout := Layout.sample
    ∃ s0 s1 s2 out1 out2 p' k', Booted s0 ∧
      ((Call.mmap 4096#32).run initSlot).run s0 = .ok (out1, s1) ∧
      ((Call.mprotect 4096#32 4096#32 protRead).run initSlot).run s1 = .ok (out2, s2) ∧
      Runs (fun _ _ => True) s2 ∧ Alive s2 initSlot ∧
      permits s2.k (s2.pt.proc initSlot).pgdir ⟨4096#32, true, false⟩ = false ∧
      (trap (s2.pt.proc initSlot) (faultPresent s2.k (s2.pt.proc initSlot).pgdir 4096)
        ⟨4096#32, true, false⟩).run s2.k = .ok ((.resume, p'), k') ∧
      permits k' (s2.pt.proc initSlot).pgdir ⟨4096#32, true, false⟩ = false := by
  let _ : Layout := Layout.sample
  obtain ⟨man, s0, s1, out1, hb, hrun1, h1, hruns⟩ := sample_maps
  obtain ⟨out2, s2, hrun2, h2⟩ := h1.mprotect
  have hr1 : Runs (fun _ _ => True) s1 := hruns trivial
  have hr2 := hr1.call h1.alive trivial hrun2
  obtain ⟨hfault, ⟨e, p'⟩, k', htrap, hend, -⟩ :=
    h2.trap (a := ⟨4096#32, true, false⟩) (by decide)
  obtain rfl : e = .resume := by simpa using hend
  refine ⟨s0, s1, s2, out1, out2, p', k', hb, hrun1, hrun2, hr2, h2.alive, hfault, htrap, ?_⟩
  have hstuck : Stuck (s2.pt.proc initSlot) ⟨4096#32, true, false⟩ s2.k :=
    .readOnly rfl rfl ((h2.roFault (by decide)).trans (by decide))
  simpa [hstuck] using h2.inv.permits_iff h2.alive.live hfault htrap

end Xv6
