import Xv6.RefCount.Cow
import Xv6.Trap

/-!
# Xv6.RefCount.Access

What a memory access does: the hardware's walk in terms of the page-table map,
how the page-fault case of `trap` ends, and a byte written to a writable page.

`Faulted` lists everything a page fault can lead to. A new page was added, a
copy-on-write page was made private, or the process was marked for death; in the
last case memory looks as before, and the reason is either a violation
(`Denied`) or a failed allocation (`Starved`).
-/

namespace Xv6

open Function (update)

variable [Layout] {man : Nat → Prop} {dirs kp : Finset Nat} {k k' : Kmem} {d v va : Nat}
  {p : Proc} {a : Access}

/-! ### The hardware walk -/

omit [Layout] in
theorem hwPte_eq (hva : va < 2 ^ 32) (hp : has (hwPde k d va) .p = true) :
    hwPte k d va = pte k d (vpn va) := by
  unfold hwPde at hp
  have hloc : pteLoc k d (vpn va) = some (p2v (pteAddr (k.mem d (pdx va))), ptx va) := by
    rw [pteLoc_eq hva, if_pos hp]
  rw [pte_of_loc hloc, hwPte, hwPde]

omit [Layout] in
theorem pte_of_no_pde (hva : va < 2 ^ 32) (hp : has (hwPde k d va) .p = false) :
    pte k d (vpn va) = 0#32 := by
  unfold hwPde at hp
  refine pte_of_no_loc ?_
  rw [pteLoc_eq hva, hp]
  rfl

/-- Directory entries allow everything, so the table entry decides. -/
theorem Inv.permits_eq (h : Inv man dirs kp k) (hd : d ∈ dirs) :
    permits k d a = allows (pte k d (vpn a.va.toNat)) a := by
  have hva : a.va.toNat < 2 ^ 32 := a.va.isLt
  unfold permits
  by_cases hp : has (hwPde k d a.va.toNat) .p = true
  · have hpdx : pdx a.va.toNat < 1024 := by
      unfold pdx
      omega
    obtain ⟨hw, hu⟩ := h.tables.pde_wu d hd _ hpdx hp
    have hall : allows (hwPde k d a.va.toNat) a = true := by
      simp only [allows, hwPde] at *
      simp [hp, hw, hu]
    rw [hall, hwPte_eq hva hp, Bool.true_and]
  · have hp' : has (hwPde k d a.va.toNat) .p = false := by simpa using hp
    rw [pte_of_no_pde hva hp']
    simp [allows, hp']

omit [Layout] in
theorem faultPresent_eq (hva : va < 2 ^ 32) :
    faultPresent k d va = has (pte k d (vpn va)) .p := by
  unfold faultPresent
  by_cases hp : has (hwPde k d va) .p = true
  · rw [hp, hwPte_eq hva hp, Bool.true_and]
  · have hp' : has (hwPde k d va) .p = false := by simpa using hp
    rw [hp', pte_of_no_pde hva hp']
    simp

omit [Layout] in
theorem hwFrame_eq (hva : va < 2 ^ 32) (hp : has (pte k d (vpn va)) .p = true) :
    hwFrame k d va = pteFrame (pte k d (vpn va)) := by
  have hpde : has (hwPde k d va) .p = true := by
    by_contra hno
    rw [pte_of_no_pde hva (by simpa using hno)] at hp
    simp at hp
  rw [hwFrame, hwPte_eq hva hpde]

/-! ### Page faults -/

/-- The region that contains the fault address lacks `PROT_WRITE`. -/
def roFault (p : Proc) (a : Access) : Bool :=
  (vmaFind p a.va.toNat).any fun r => !canWrite r.prot

/-- The reasons to kill a process that have nothing to do with memory being
short: a write to a read-only region, a user access to a page it may not touch,
a user access to no page and no region. -/
inductive Denied (p : Proc) (a : Access) (k : Kmem) : Prop
  | readOnly (hw : a.write = true) (hro : roFault p a = true)
  | noAccess (hu : a.user = true) (hp : has (pte k p.pgdir (vpn a.va.toNat)) .p = true)
      (hc : a.write = true → ¬ CowPage k p.pgdir (vpn a.va.toNat))
  | unmapped (hu : a.user = true) (hp : has (pte k p.pgdir (vpn a.va.toNat)) .p = false)
      (hr : vmaFind p a.va.toNat = none)

/-- The faults that could have been resolved, had there been a free frame. -/
inductive Starved (p : Proc) (a : Access) (k : Kmem) : Prop
  | demand {r : Vma} (hr : vmaFind p a.va.toNat = some r)
      (hw : a.write = true → canWrite r.prot = true)
      (hp : has (pte k p.pgdir (vpn a.va.toNat)) .p = false)
      (hfree : k.freelist.length < framesFor k p.pgdir (vpn a.va.toNat))
  | copy (hw : a.write = true) (hro : roFault p a = false)
      (hc : CowPage k p.pgdir (vpn a.va.toNat))
      (hrefs : 1 < k.refcnt (pteFrame (pte k p.pgdir (vpn a.va.toNat)))) (hfree : k.freelist = [])

omit [Layout] in
theorem not_starved_of_cow (hc : CowPage k p.pgdir (vpn a.va.toNat))
    (hfree : 1 < k.refcnt (pteFrame (pte k p.pgdir (vpn a.va.toNat))) → k.freelist ≠ []) :
    ¬ Starved p a k := by
  intro hs
  cases hs with
  | demand hr hw hp hshort => exact absurd (hp.symm.trans hc.1) (by simp)
  | copy hw hro hc' hrefs hnil => exact hfree hrefs hnil

/-- There is a frame for a page that is added. -/
theorem Added.not_starved {writable : Bool}
    (h : Added man dirs kp p.pgdir (vpn a.va.toNat) writable k k') : ¬ Starved p a k := by
  intro hs
  cases hs with
  | demand hr hw hp hshort => exact absurd h.enough (by omega)
  | copy hw hro hc =>
    have hnone := upage_eq_none.mp h.absent
    rw [hc.1] at hnone
    cases hnone

/-- What the page-fault case of `trap` has done, and the process after it. -/
inductive Faulted (man : Nat → Prop) (dirs kp : Finset Nat) (p : Proc) (a : Access)
    (k k' : Kmem) : Proc → Prop
  | demand {r : Vma} (hr : vmaFind p a.va.toNat = some r)
      (hw : a.write = true → canWrite r.prot = true)
      (h : Added man dirs kp p.pgdir (vpn a.va.toNat) (canWrite r.prot) k k') :
      Faulted man dirs kp p a k k' p
  | resolve (hw : a.write = true) (hro : roFault p a = false)
      (hc : CowPage k p.pgdir (vpn a.va.toNat))
      (hfree : 1 < k.refcnt (pteFrame (pte k p.pgdir (vpn a.va.toNat))) → k.freelist ≠ [])
      (h : Resolved man dirs kp p.pgdir (vpn a.va.toNat) k k') : Faulted man dirs kp p a k k' p
  | deny (why : Denied p a k) (h : k' = k) : Faulted man dirs kp p a k k' p.kill
  | starve (why : Starved p a k) (hinv : Inv man dirs kp k')
      (hsame : ∀ d ∈ dirs, ∀ v < nupages, upage k' d v = upage k d v) (hoom : k.oom < k'.oom)
      (hapart : Apart man dirs p.pgdir k k') : Faulted man dirs kp p a k k' p.kill

/-- The kernel-mode faults that `trap` answers with a panic. -/
def KernelFault (p : Proc) (a : Access) (k : Kmem) : Prop :=
  a.user = false ∧
    ((has (pte k p.pgdir (vpn a.va.toNat)) .p = false ∧ vmaFind p a.va.toNat = none) ∨
      (has (pte k p.pgdir (vpn a.va.toNat)) .p = true ∧ a.write = true ∧ roFault p a = false ∧
        ¬ CowPage k p.pgdir (vpn a.va.toNat)))

/-- The regions of a process lie in the user half. -/
def VmasBelow (p : Proc) : Prop :=
  ∀ va r, vmaFind p va = some r → va < kernbase

omit [Layout] in
theorem vpn_pgrounddown (va : Nat) : vpn (pgrounddown va) = vpn va := by
  simp only [vpn, pgrounddown, pgsize]
  omega

omit [Layout] in
theorem pgrounddown_le (va : Nat) : pgrounddown va ≤ va := by
  simp only [pgrounddown, pgsize]
  omega

theorem pageFault_write (h : Inv man dirs kp k) (hd : p.pgdir ∈ dirs) (hw : a.write = true)
    (hp : has (pte k p.pgdir (vpn a.va.toNat)) .p = true) :
    Ends (pageFault p true a) k (fun p' k' => Faulted man dirs kp p a k k' p')
      (fun e => e = .pageFault ∧ KernelFault p a k) := by
  have hva : pgrounddown a.va.toNat < 2 ^ 32 := (pgrounddown_le _).trans_lt a.va.isLt
  rw [pageFault]
  rw [hw, Bool.and_self, if_pos rfl, ends_ite]
  refine ⟨fun hro => .ret (.deny (.readOnly hw hro) rfl), fun hro => ?_⟩
  have hro' : roFault p a = false := by simpa [roFault] using hro
  rw [ends_bind]
  refine (cowFault_spec h hd hva).of_safe ?_
  rw [vpn_pgrounddown]
  rintro r k1 (⟨rfl, hc, rfl⟩ | ⟨rfl, hc, hrefs, hfree, rfl⟩ | ⟨rfl, hc, hfree, hres⟩)
  · rw [if_neg (by decide), if_neg (by decide)]
    cases hu : a.user with
    | false =>
      rw [if_pos (by decide), ends_throw]
      exact ⟨rfl, hu, .inr ⟨hp, hw, hro', hc⟩⟩
    | true =>
      rw [if_neg (by decide)]
      exact .ret (.deny (.noAccess hu hp fun _ => hc) rfl)
  · rw [if_neg (by decide), if_pos (by decide)]
    exact .ret (.starve (.copy hw hro' hc hrefs hfree) h.failed (fun _ _ _ _ => rfl)
      (Nat.lt_succ_self _) ⟨fun _ _ _ => rfl, fun _ _ => rfl⟩)
  · rw [if_pos rfl]
    exact .ret (.resolve hw hro' hc hfree hres)

section
variable (h : Inv man dirs kp k) (hd : p.pgdir ∈ dirs) (hlow : VmasBelow p)
include h hd hlow

theorem pageFault_absent (hp : has (pte k p.pgdir (vpn a.va.toNat)) .p = false) :
    Ends (pageFault p false a) k (fun p' k' => Faulted man dirs kp p a k k' p')
      (fun e => e = .pageFault ∧ KernelFault p a k) := by
  rw [pageFault]
  rw [Bool.false_and, if_neg (by decide), if_neg (by decide)]
  cases hr : vmaFind p a.va.toNat with
  | none =>
    cases hu : a.user with
    | false =>
      dsimp only
      rw [if_pos (by decide), ends_throw]
      exact ⟨rfl, hu, .inl ⟨hp, hr⟩⟩
    | true =>
      dsimp only
      rw [if_neg (by decide)]
      exact .ret (.deny (.unmapped hu hp hr) rfl)
  | some r =>
    dsimp only
    rw [ends_ite]
    refine ⟨fun hno => ?_, fun hok => ?_⟩
    · rw [Bool.and_eq_true] at hno
      exact .ret (.deny (.readOnly hno.1 (by simpa [roFault, hr] using hno.2)) rfl)
    · have hw : a.write = true → canWrite r.prot = true := by
        intro hw
        simpa [hw] using hok
      have hva : pgrounddown a.va.toNat < kernbase := (pgrounddown_le _).trans_lt (hlow _ _ hr)
      rw [ends_bind]
      refine (vmAllocMmapPage_spec h hd hva).mono ?_ ?_
      · rw [vpn_pgrounddown]
        rintro ret k1 (⟨rfl, hinv, hsame, hoom, hfree, hapart⟩ | ⟨rfl, hadd⟩)
        · rw [if_pos (by decide)]
          exact .ret (.starve (.demand hr hw hp hfree) hinv hsame hoom hapart)
        · rw [if_neg (by decide)]
          exact .ret (.demand hr hw hadd)
      · rintro e ⟨-, hne⟩
        rw [vpn_pgrounddown] at hne
        exact absurd (upage_eq_none.mpr hp) hne

/-- How the page-fault case of `trap` ends for an access that was refused. -/
theorem pageFault_spec (hno : permits k p.pgdir a = false) :
    Ends (pageFault p (faultPresent k p.pgdir a.va.toNat) a) k
      (fun p' k' => Faulted man dirs kp p a k k' p')
      (fun e => e = .pageFault ∧ KernelFault p a k) := by
  rw [h.permits_eq hd] at hno
  rw [faultPresent_eq a.va.isLt]
  by_cases hp : has (pte k p.pgdir (vpn a.va.toNat)) .p = true
  · rw [hp]
    cases hw : a.write with
    | true => exact pageFault_write h hd hw hp
    | false =>
      -- a read of a present page is refused to the user only
      have hu : a.user = true := by
        by_contra hu
        simp [allows, hp, hw, hu] at hno
      rw [pageFault]
      rw [hw, Bool.and_false, if_neg (by decide), if_pos rfl, hu, if_neg (by decide)]
      exact .ret (.deny (.noAccess hu hp fun hc => absurd hc (by simp [hw])) rfl)
  · have hp' : has (pte k p.pgdir (vpn a.va.toNat)) .p = false := by simpa using hp
    rw [hp']
    exact pageFault_absent h hd hlow hp'

theorem trap_spec (hno : permits k p.pgdir a = false) :
    Ends (trap p (faultPresent k p.pgdir a.va.toNat) a) k
      (fun r k' => Faulted man dirs kp p a k k' r.2 ∧
        r.1 = if r.2.killed && a.user then .exit else .resume)
      (fun e => e = .pageFault ∧ KernelFault p a k) := by
  rw [trap]
  refine (pageFault_spec h hd hlow hno).bind ?_
  intro p' k' hf
  rw [ends_ite]
  refine ⟨fun hx => .ret ⟨hf, ?_⟩, fun hx => .ret ⟨hf, ?_⟩⟩
  · rw [if_pos hx]
  · rw [if_neg hx]

theorem attempt_spec :
    Ends (attempt p a) k
      (fun r k' =>
        (allows (pte k p.pgdir (vpn a.va.toNat)) a = true ∧ r = (none, p) ∧ k' = k) ∨
        (allows (pte k p.pgdir (vpn a.va.toNat)) a = false ∧ Faulted man dirs kp p a k k' r.2 ∧
          r.1 = some (if r.2.killed && a.user then .exit else .resume)))
      (fun e => e = .pageFault ∧ KernelFault p a k) := by
  rw [attempt, ends_bind, ends_get, ends_ite]
  rw [← h.permits_eq hd]
  refine ⟨fun hok => .ret (.inl ⟨hok, rfl, rfl⟩), fun hno => ?_⟩
  have hno' : permits k p.pgdir a = false := by simpa using hno
  refine (trap_spec h hd hlow hno').bind ?_
  rintro r k' ⟨hf, hr⟩
  exact .ret (.inr ⟨hno', hf, congrArg some hr⟩)

end

/-! ### Writing to a page -/

section
variable {e : Word} {page : Nat → Word} (h : Inv man dirs kp k) (hd : d ∈ dirs) (hv : v < nupages)
  (hup : upage k d v = some (e, page))
include h hd hv hup

/-- Writing to a frame that is mapped writable changes that one page. -/
theorem Inv.write (hw : has e .w = true) (page' : Nat → Word) :
    Inv man dirs kp (k.fill (pteFrame e) page') ∧
      upage (k.fill (pteFrame e) page') d v = some (e, page') ∧
      ∀ d' ∈ dirs, ∀ v' < nupages, ¬ (d' = d ∧ v' = v) →
        upage (k.fill (pteFrame e) page') d' v' = upage k d' v' := by
  obtain ⟨hp, rfl, -⟩ := upage_eq_some.mp hup
  have hnt := h.user_not_tab hd hv hp
  have hvn := hv.trans nupages_lt
  have hmem : ∀ f ∈ tabFrames dirs k, (k.fill (pteFrame (pte k d v)) page').mem f = k.mem f := by
    intro f hf
    have hne : f ≠ pteFrame (pte k d v) := by rintro rfl; exact hnt hf
    simp [Kmem.fill, hne]
  refine ⟨h.fill hnt page', ?_, fun d' hd' v' hv' hne => ?_⟩
  · rw [upage_eq_some, (pte_congr hmem hd hvn).1]
    exact ⟨hp, rfl, by simp [Kmem.fill]⟩
  · refine upage_fill hnt page' hd' hv' fun href => ?_
    obtain ⟨hp', heq⟩ := refOf_eq_some.mp href
    exact hne (h.user_unique hd hv hp hd' hv' hp' heq (h.excl d hd v hv hp hw))

theorem Inv.apart_write (page' : Nat → Word) : Apart man dirs d k (k.fill (pteFrame e) page') := by
  obtain ⟨hp, rfl, -⟩ := upage_eq_some.mp hup
  exact .fill (fun hdir => h.user_not_tab hd hv hp (dirs_subset_tabFrames hdir)) _

end

end Xv6
