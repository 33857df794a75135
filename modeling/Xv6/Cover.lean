import Xv6.RegionRuns
import Xv6.Syscall

/-!
# Xv6.Cover

Is it enough to compare a user pointer with `sz`?

It is if every page below `sz` is present or lies in a region (`Covered`), for then
a kernel load can always be served. Two calls take this away. `munmap` leaves a
hole below `sz` where the region was, and `sbrk` down to a size of 0 releases all
pages but reports an error and leaves `sz`. In runs without these (`KeepsCover`)
the pointer checks are sound.
-/

namespace Xv6

open Function (update update_self update_of_ne)
open Relation (ReflTransGen)

namespace Aspace

/-- Page `v` is present or lies in a region. -/
def Mapped (A : Aspace) (v : Nat) : Prop := A.page v ≠ none ∨ A.region v ≠ none

/-- Every page below `sz` can be accessed. -/
def Covered (A : Aspace) : Prop := ∀ v, v * 4096 < A.sz → A.Mapped v

/-- The range of `n` bytes at `a` lies below `sz`, so that it does not wrap around,
and each of its pages is present or lies in a region. -/
structure Valid (A : Aspace) (a n : Nat) : Prop where
  sz_le : A.sz ≤ kernbase
  below : a + n ≤ A.sz
  mapped : ∀ b, a ≤ b → b < a + n → A.Mapped (vpn b)

end Aspace

/-- The call does not take the pages of an address range below `sz` away: what
`munmap` removes lies in another region as well, and `sbrk` does not go down to a
size of 0. -/
def KeepsCover (c : Call) (A : Aspace) : Prop :=
  (∀ addr n, c = .munmap addr n → ∀ i, (A.vmas i).used = true → (A.vmas i).start = addr.toNat →
    (A.vmas i).length = pgroundup n.toNat → ∀ v, (A.vmas i).holds v → v * 4096 < A.sz →
      ∃ j, j ≠ i ∧ (A.vmas j).used = true ∧ (A.vmas j).holds v) ∧
  ∀ n, c = .sbrk n → n.toInt < 0 → (A.sz : Int) + n.toInt ≠ 0

variable {A A' : Aspace} {c : Call} {v : Nat}

theorem Aspace.mapped_iff : A.Mapped v ↔
    A.page v ≠ none ∨ ∃ i, (A.vmas i).used = true ∧ (A.vmas i).holds v := by
  unfold Aspace.Mapped Aspace.region
  rw [Ne, Ne, regionOf_eq_none]
  simp only [not_forall, not_not, exists_prop]

theorem Aspace.Mapped.mono (h : A.Mapped v) (hpage : A.page v ≠ none → A'.page v ≠ none)
    (hreg : ∀ i, (A.vmas i).used = true → (A.vmas i).holds v →
      ∃ j, (A'.vmas j).used = true ∧ (A'.vmas j).holds v) : A'.Mapped v := by
  rw [Aspace.mapped_iff] at h ⊢
  rcases h with h | ⟨i, hu, hv⟩
  · exact .inl (hpage h)
  · exact .inr (hreg i hu hv)

theorem Aspace.Mapped.touch (h : A.Mapped v) (ht : ReflTransGen Touch A A') : A'.Mapped v := by
  induction ht with
  | refl => exact h
  | @tail A1 A2 _ hstep ih =>
    have hpage : A1.page v ≠ none → A2.page v ≠ none := by
      intro hp
      cases hstep <;> simp only [Aspace.setPage, Function.update_apply] <;> split <;> simp_all
    refine ih.mono hpage fun i hu hv => ⟨i, ?_⟩
    cases hstep <;> exact ⟨hu, hv⟩

theorem Aspace.Covered.change (h : A.Covered) (hc : KeepsCover c A) (hch : Change A c A') :
    A'.Covered := by
  intro v hv
  cases hch with
  | same => exact h v hv
  | touch ht =>
    rw [(touch_same ht).1] at hv
    exact (h v hv).touch ht
  | @mmap n i start length hfree hstart hpos hlen hend =>
    by_cases hlt : v * 4096 < A.sz
    · refine (h v hlt).mono id fun j hu hj => ⟨j, ?_⟩
      have hne : j ≠ i := by
        rintro rfl
        exact absurd (hu.symm.trans hfree) (by simp)
      simp only [update_of_ne hne]
      exact ⟨hu, hj⟩
    · refine Aspace.mapped_iff.mpr (.inr ⟨i, ?_⟩)
      simp only [update_self, Vma.holds] at hv ⊢
      exact ⟨trivial, by omega, by omega⟩
  | @munmap addr n i hused hstart hlen =>
    have hother : ∀ j, j ≠ i → (A.vmas j).used = true → (A.vmas j).holds v →
        ∃ j', (update A.vmas i Vma.empty j').used = true ∧
          (update A.vmas i Vma.empty j').holds v := by
      intro j hne hu hj
      refine ⟨j, ?_⟩
      rw [update_of_ne hne]
      exact ⟨hu, hj⟩
    by_cases hin : (A.vmas i).holds v
    · obtain ⟨j, hne, hu, hj⟩ := hc.1 addr n rfl i hused hstart hlen v hin hv
      exact Aspace.mapped_iff.mpr (.inr (hother j hne hu hj))
    · refine (h v hv).mono ?_ fun j hu hj => hother j (by rintro rfl; exact hin hj) hu hj
      simp [Aspace.drop, hin]
  | @mprotect addr n prot i refs hused =>
    refine (h v hv).mono (fun hp => ?_) fun j hu hj => ⟨j, ?_⟩
    · dsimp only
      split
      · simpa using hp
      · exact hp
    · by_cases hne : j = i
      · subst hne
        simp only [update_self]
        exact ⟨hu, hj⟩
      · simp only [update_of_ne hne]
        exact ⟨hu, hj⟩
  | @grow n page hn hend hnew hold =>
    by_cases hlo : A.sz ≤ v * 4096
    · obtain ⟨e, he, -⟩ := (hnew v hlo hv).2
      exact .inl (by simp [he])
    · refine (h v (by omega)).mono (fun hp => ?_) fun j hu hj => ⟨j, hu, hj⟩
      show page v ≠ none
      rw [hold v fun hin => hlo hin.1]
      exact hp
  | @abandon n hn =>
    have hv : v * 4096 < A.sz := hv
    refine (h v hv).mono (fun hp => ?_) fun j hu hj => ⟨j, hu, hj⟩
    simpa [Aspace.drop, Nat.not_le.mpr hv] using hp
  | @shrink n newsz hn hsz =>
    have hne : newsz ≠ 0 := by
      have := hc.2 n rfl hn
      omega
    have hv : v * 4096 < newsz := by
      dsimp only at hv
      rwa [if_neg hne] at hv
    refine (h v (by omega)).mono (fun hp => ?_) fun j hu hj => ⟨j, hu, hj⟩
    simpa [Aspace.drop, Nat.not_le.mpr hv] using hp
  | @share page hpage =>
    refine (h v hv).mono (fun hp => ?_) fun j hu hj => ⟨j, hu, hj⟩
    show page v ≠ none
    rcases hpage v with heq | heq
    · rw [heq]
      exact hp
    · rw [heq]
      simpa [sharePage] using hp
  | @exec ip argv sz page hsz hpage habove =>
    obtain ⟨e, pg, he, -⟩ := hpage v hv
    exact .inl (by simp [he])

theorem Aspace.Covered.fork (h : A.Covered) : A.fork.Covered := by
  intro v hv
  have hv : v * 4096 < A.sz := hv
  refine (h v hv).mono (fun hp => ?_) fun j hu hj => ⟨j, hu, hj⟩
  simpa [Aspace.fork, hv, sharePage] using hp

theorem BootSpace.covered (h : BootSpace A) : A.Covered := by
  intro v hv
  refine .inl ?_
  rw [h.sz] at hv
  obtain ⟨e, pg, he, -⟩ := h.image.present v hv
  simp [he]

section
variable [Layout] {man : Nat → Prop} {s s' : Sys} {i : Fin nproc} {addr : Word}

theorem Runs.covered (h : Runs KeepsCover s) (hi : (s.pt.proc i).live) : (s.aspace i).Covered :=
  h.aspace_invariant (fun _ hA => hA.covered) (fun _ _ _ _ hA hc hch => hA.change hc hch)
    (fun _ _ hA => hA.fork) hi

/-! ### Kernel loads -/

/-- A kernel load from a page that is present or in a region does not panic. -/
theorem kload_spec {va : Word} : ∀ (fuel : Nat) (s : Sys), SysInv man s → (s.pt.proc i).live →
    (s.aspace i).Mapped (vpn va.toNat) →
    Ends (kload i va fuel) s (fun _ s' => Touching man i s s') := by
  intro fuel
  induction fuel with
  | zero => exact fun s h hi _ => .ret (.refl h hi)
  | succ fuel ih =>
    intro s h hi hm
    have hvm := h.pt.vmas i hi
    rw [kload, ends_bind, ends_onProc]
    refine (attempt_touched h.mem hi.dir hvm).mono ?_ ?_
    · rintro ⟨r, p'⟩ k' ⟨ht, hp', -⟩
      have hT := Touching.of_touched h hi ht hp'
      cases r with
      | none =>
        dsimp only
        rw [ends_bind, ends_get]
        exact .ret hT
      | some r =>
        dsimp only
        exact (ih _ hT.inv hT.live (hm.touch hT.touch)).imp (fun _ _ h' => hT.trans h')
    · -- the page is neither present nor in a region
      rintro e ⟨-, -, ⟨hp, hr⟩ | ⟨-, hw, -⟩⟩
      · rw [hvm.vmaFind_eq] at hr
        rcases hm with hpage | hreg
        · refine hpage ?_
          rw [s.aspace_page i va, if_neg (by simp [hp])]
        · exact hreg hr
      · exact absurd hw (by simp)

omit [Layout] in
theorem Aspace.Covered.valid (h : A.Covered) {a n : Nat} (hsz : A.sz ≤ kernbase)
    (hn : a + n ≤ A.sz) : A.Valid a n := by
  refine ⟨hsz, hn, fun b hlo hhi => h _ ?_⟩
  simp only [vpn, pgsize]
  omega

/-- The range at `a` of `n` bytes can be loaded by the kernel. -/
structure Readable (s : Sys) (i : Fin nproc) (a n : Nat) : Prop where
  valid : (s.aspace i).Valid a n
  load : ∀ b fuel e, a ≤ b → b < a + n → (kload i (BitVec.ofNat 32 b) fuel).run s ≠ .error e

/-- Process `i` has an address space in which everything below `sz` can be
accessed. -/
structure Serving (man : Nat → Prop) (i : Fin nproc) (s : Sys) : Prop where
  inv : SysInv man s
  live : (s.pt.proc i).live
  covered : (s.aspace i).Covered

namespace Serving

section
variable (h : Serving man i s)
include h

theorem sz_le : (s.pt.proc i).sz ≤ kernbase := (h.inv.aspace_ok h.live).sz_le

theorem touch (hT : Touching man i s s') :
    Serving man i s' ∧ (s'.pt.proc i).sz = (s.pt.proc i).sz := by
  have hsz : (s'.aspace i).sz = (s.aspace i).sz := (touch_same hT.touch).1
  refine ⟨⟨hT.inv, hT.live, fun v hv => ?_⟩, hsz⟩
  rw [hsz] at hv
  exact (h.covered v hv).touch hT.touch

theorem mapped {a : Nat} (ha : a < (s.pt.proc i).sz) : (s.aspace i).Mapped (vpn a) := by
  refine h.covered _ (lt_of_le_of_lt ?_ ha)
  simp only [vpn, pgsize]
  omega

theorem readable {a n : Nat} (hn : a + n ≤ (s.pt.proc i).sz) : Readable s i a n := by
  have hsz := h.sz_le
  refine ⟨h.covered.valid hsz hn, fun b fuel e hlo hhi hrun => ?_⟩
  have hb : (BitVec.ofNat 32 b).toNat = b := by
    rw [BitVec.toNat_ofNat]
    refine Nat.mod_eq_of_lt ?_
    simp only [kernbase] at hsz
    omega
  exact (kload_spec fuel s h.inv h.live (by rw [hb]; exact h.mapped (by omega))).of_error hrun

end

end Serving

omit [Layout] in
theorem toNat_succ {va : Word} {sz : Nat} (hsz : sz ≤ kernbase) (h : va.toNat < sz) :
    (va + 1#32).toNat = va.toNat + 1 := by
  rw [BitVec.toNat_add]
  refine Nat.mod_eq_of_lt ?_
  simp only [kernbase] at hsz
  show va.toNat + 1 < 2 ^ 32
  omega

theorem kloads_spec {fuel : Nat} : ∀ (n : Nat) (va : Word) (s : Sys), Serving man i s →
    va.toNat + n ≤ (s.pt.proc i).sz →
    Ends (kloads fuel i n va) s (fun _ s' => Touching man i s s') := by
  intro n
  induction n with
  | zero => exact fun va s h _ => .ret (.refl h.inv h.live)
  | succ n ih =>
    intro va s h hn
    have hlt : va.toNat < (s.pt.proc i).sz := by omega
    rw [kloads]
    refine (kload_spec fuel s h.inv h.live (h.mapped hlt)).bind ?_
    intro r s1 hT
    obtain ⟨h1, hsz⟩ := h.touch hT
    cases r with
    | none => exact .ret hT
    | some b =>
      dsimp only
      refine (ih (va + 1#32) s1 h1 ?_).bind ?_
      · rw [hsz, toNat_succ h.sz_le hlt]
        omega
      · intro r s2 hT2
        cases r with
        | none => exact .ret (hT.trans hT2)
        | some bs => exact .ret (hT.trans hT2)

/-! ### The arguments of a system call -/

theorem fetchint_spec {fuel : Nat} (h : Serving man i s) :
    Ends (fetchint fuel i addr) s (fun r s' => Touching man i s s' ∧
      ∀ w, r = .value w → Readable s' i addr.toNat 4) := by
  rw [fetchint, ends_bind, ends_get]
  dsimp only
  rw [ends_ite]
  refine ⟨fun _ => .ret ⟨.refl h.inv h.live, fun w hw => absurd hw (by simp)⟩, fun hok => ?_⟩
  have hsz := h.sz_le
  have hn : addr.toNat + 4 ≤ (s.pt.proc i).sz := by
    simp only [u32, kernbase] at *
    omega
  refine (kloads_spec 4 addr s h hn).bind ?_
  intro r s1 hT
  obtain ⟨h1, hsz1⟩ := h.touch hT
  cases r with
  | none => exact .ret ⟨hT, fun w hw => absurd hw (by simp)⟩
  | some bs => exact .ret ⟨hT, fun w _ => h1.readable (by rw [hsz1]; exact hn)⟩

theorem argptr_spec {fuel : Nat} {esp n size : Word} (h : Serving man i s) :
    Ends (argptr fuel i esp n size) s (fun r s' => Touching man i s s' ∧
      ∀ p, r = .value p → Readable s' i p.toNat size.toNat) := by
  rw [argptr]
  refine (fetchint_spec h).bind ?_
  rintro r s1 ⟨hT, -⟩
  obtain ⟨h1, -⟩ := h.touch hT
  cases r with
  | fail | stuck => exact .ret ⟨hT, fun p hp => absurd hp (by simp)⟩
  | value p =>
    dsimp only
    rw [ends_bind, ends_get, ends_ite]
    refine ⟨fun _ => .ret ⟨hT, fun p hp => absurd hp (by simp)⟩, fun hok => .ret ⟨hT, ?_⟩⟩
    rintro _ ⟨rfl⟩
    refine h1.readable ?_
    have hsz := h1.sz_le
    have hsize : ¬ size.toInt < 0 := fun hneg => hok (.inl hneg)
    rw [BitVec.toInt_eq_toNat_cond] at hsize
    simp only [u32, kernbase] at *
    omega

theorem fetchstrLoop_spec {fuel : Nat} : ∀ (n len : Nat) (va : Word) (s : Sys), Serving man i s →
    va.toNat + n ≤ (s.pt.proc i).sz →
    Ends (fetchstrLoop fuel i n len va) s (fun r s' => Touching man i s s' ∧
      ∀ l, r = .value l → l < len + n) := by
  intro n
  induction n with
  | zero => exact fun len va s h _ => .ret ⟨.refl h.inv h.live, fun l hl => absurd hl (by simp)⟩
  | succ n ih =>
    intro len va s h hn
    have hlt : va.toNat < (s.pt.proc i).sz := by omega
    rw [fetchstrLoop]
    refine (kload_spec fuel s h.inv h.live (h.mapped hlt)).bind ?_
    intro r s1 hT
    obtain ⟨h1, hsz⟩ := h.touch hT
    cases r with
    | none => exact .ret ⟨hT, fun l hl => absurd hl (by simp)⟩
    | some b =>
      dsimp only
      rw [ends_ite]
      refine ⟨fun _ => .ret ⟨hT, ?_⟩, fun _ => ?_⟩
      · rintro _ ⟨rfl⟩
        omega
      · refine (ih (len + 1) (va + 1#32) s1 h1 ?_).imp ?_
        · rw [hsz, toNat_succ h.sz_le hlt]
          omega
        · rintro r s2 ⟨hT2, hl⟩
          exact ⟨hT.trans hT2, fun l hr => by have := hl l hr; omega⟩

theorem fetchstr_spec {fuel : Nat} (h : Serving man i s) :
    Ends (fetchstr fuel i addr) s (fun r s' => Touching man i s s' ∧
      (addr.toNat < (s.pt.proc i).sz →
        Readable s' i addr.toNat ((s.pt.proc i).sz - addr.toNat)) ∧
      ∀ l, r = .value l → addr.toNat + l < (s.pt.proc i).sz) := by
  rw [fetchstr, ends_bind, ends_get]
  dsimp only
  rw [ends_ite]
  refine ⟨fun hge => .ret ⟨.refl h.inv h.live, fun hlt => absurd hlt (by omega), ?_⟩, fun hlt => ?_⟩
  · intro l hl
    exact absurd hl (by simp)
  · refine (fetchstrLoop_spec _ 0 addr s h (by omega)).imp ?_
    rintro r s' ⟨hT, hl⟩
    obtain ⟨h', hsz⟩ := h.touch hT
    refine ⟨hT, fun _ => h'.readable (by omega), fun l hr => ?_⟩
    have := hl l hr
    omega

/-- In every run whose calls keep the pages below `sz` accessible, the pointers that
`fetchint`, `argptr` and `fetchstr` accept are valid: the range is below `sz` and
does not wrap, its pages are present or in regions, and neither the fetch nor a
later kernel load from the range panics. -/
theorem args_readable (h : Runs KeepsCover s) (hi : Alive s i) (fuel : Nat) :
    (∀ addr, Ends (fetchint fuel i addr) s
      (fun r s' => ∀ w, r = .value w → Readable s' i addr.toNat 4)) ∧
    (∀ esp n size, Ends (argptr fuel i esp n size) s
      (fun r s' => ∀ p, r = .value p → Readable s' i p.toNat size.toNat)) ∧
    (∀ addr, Ends (fetchstr fuel i addr) s
      (fun r s' => (addr.toNat < (s.pt.proc i).sz →
          Readable s' i addr.toNat ((s.pt.proc i).sz - addr.toNat)) ∧
        ∀ l, r = .value l → addr.toNat + l < (s.pt.proc i).sz)) := by
  obtain ⟨man, hinv⟩ := h.inv
  have hs : Serving man i s := ⟨hinv, hi.live, h.covered hi.live⟩
  refine ⟨fun addr => ?_, fun esp n size => ?_, fun addr => ?_⟩
  · exact (fetchint_spec hs).imp (fun _ _ h' => h'.2)
  · exact (argptr_spec hs).imp (fun _ _ h' => h'.2)
  · exact (fetchstr_spec hs).imp (fun _ _ h' => h'.2)

/-! ### A hole below `sz` -/

/-- The first process has unmapped its only region, and `sz` has stayed. -/
structure Hole (man : Nat → Prop) (s : Sys) : Prop extends Ready man s where
  sz : (s.pt.proc initSlot).sz = 8192
  region : (s.aspace initSlot).region 1 = none
  absent : (s.aspace initSlot).page 1 = none

theorem OneRegion.munmap {prot : Word} (h : OneRegion man 8192 prot s) :
    ∃ out s', ((Call.munmap 4096#32 4096#32).run initSlot).run s = .ok (out, s') ∧
      Hole man s' := by
  have hd := h.alive.live.dir
  have hvm := h.inv.pt.vmas _ h.alive.live
  refine h.call rfl (sysMunmap_moved h.inv.mem hd hvm) ((sysMunmap_spec h.inv.mem hd hvm).imp ?_)
  rintro r k' hr
  rw [h.find] at hr
  obtain ⟨rfl, hun⟩ := hr
  refine ⟨h.unkilled, fun hr => ⟨hr, ?_, ?_, ?_⟩⟩
  all_goals simp only [Ptable.set_proc_self, Sys.aspace]
  · exact h.sz
  · show regionOf (update (s.pt.proc initSlot).vmas firstVma Vma.empty) 1 = none
    rw [h.vmas, oneVma, Function.update_idem]
    rfl
  · show upages k' (s.pt.proc initSlot).pgdir 1 = none
    rw [hun.upages_eq hd]
    dsimp only
    split
    · rfl
    · exact h.absent

/-- A kernel load from a page that is neither present nor in a region panics. -/
theorem kload_panics (va : Word) (h : SysInv man s) (hi : (s.pt.proc i).live)
    (hv : vpn va.toNat < nupages) (hpage : (s.aspace i).page (vpn va.toNat) = none)
    (hreg : (s.aspace i).region (vpn va.toNat) = none) (fuel : Nat) :
    Ends (kload i va (fuel + 1)) s (fun _ _ => False) (fun e => e = .pageFault) := by
  have hvm := h.pt.vmas i hi
  have hp : has (pte s.k (s.pt.proc i).pgdir (vpn va.toNat)) .p = false :=
    upage_eq_none.mp ((upages_of_lt hv).symm.trans hpage)
  have hr : vmaFind (s.pt.proc i) va.toNat = none := (hvm.vmaFind_eq _).trans hreg
  rw [kload, ends_bind, ends_onProc]
  refine (attempt_spec h.mem hi.dir hvm.below).mono ?_ (fun _ hE => hE.1)
  rintro ⟨r, p'⟩ k' (⟨hok, -⟩ | ⟨-, hf, -⟩)
  · exact absurd hok (by simp [allows, hp])
  · exfalso
    dsimp only at hf
    cases hf with
    | demand hr' => exact absurd (hr.symm.trans hr') (by simp)
    | resolve hw => exact absurd hw (by simp)
    | deny why =>
      cases why with
      | readOnly hw => exact absurd hw (by simp)
      | noAccess hu => exact absurd hu (by simp)
      | unmapped hu => exact absurd hu (by simp)
    | starve why =>
      cases why with
      | demand hr' => exact absurd (hr.symm.trans hr') (by simp)
      | copy hw => exact absurd hw (by simp)

/-- A fetch from the hole passes the check against `sz` and panics. -/
theorem Hole.fetchint (h : Hole man s) (fuel : Nat) :
    (fetchint (fuel + 1) initSlot 4096#32).run s = .error .pageFault := by
  have hload := kload_panics 4096#32 h.inv h.alive.live (by decide) h.absent h.region fuel
  have hends : Ends (Xv6.fetchint (fuel + 1) initSlot 4096#32) s (fun _ _ => False)
      (fun e => e = .pageFault) := by
    rw [Xv6.fetchint, ends_bind, ends_get]
    dsimp only
    rw [h.sz, if_neg (by decide), ends_bind, kloads]
    exact hload.bind (fun _ _ hF => hF.elim)
  obtain ⟨e, hrun, rfl⟩ := hends.exists_error
  exact hrun

end

theorem args_readable_mmap : let _ : Layout := Layout.sample
    ∃ s, Runs KeepsCover s ∧ Alive s initSlot ∧
      Ends (fetchint 2 initSlot 4096#32) s
        (fun r s' => ∀ w, r = .value w → Readable s' initSlot 4096 4) := by
  let _ : Layout := Layout.sample
  obtain ⟨man, _, s1, _, -, -, h1, hruns⟩ := sample_maps
  have hr : Runs KeepsCover s1 :=
    hruns ⟨fun _ _ hc => absurd hc (by simp), fun _ hc => absurd hc (by simp)⟩
  exact ⟨s1, hr, h1.alive, (args_readable hr h1.alive 2).1 4096#32⟩

/-- The first process maps a page and unmaps it again. The address of the page then
passes the checks, and fetching an argument from there stops the machine. -/
theorem munmap_leaves_hole : let _ : Layout := Layout.sample
    ∃ s0 s1 s2 out1 out2, Booted s0 ∧
      ((Call.mmap 4096#32).run initSlot).run s0 = .ok (out1, s1) ∧
      ((Call.munmap 4096#32 4096#32).run initSlot).run s1 = .ok (out2, s2) ∧
      Runs (fun c _ => c.isVm = true) s2 ∧ Alive s2 initSlot ∧
      4096 + 4 ≤ (s2.pt.proc initSlot).sz ∧ ¬ (s2.aspace initSlot).Mapped (vpn 4096) ∧
      (fetchint 1 initSlot 4096#32).run s2 = .error .pageFault := by
  let _ : Layout := Layout.sample
  obtain ⟨man, s0, s1, out1, hb, hrun1, h1, hruns⟩ := sample_maps
  obtain ⟨out2, s2, hrun2, h2⟩ := h1.munmap
  have hr1 : Runs (fun c _ => c.isVm = true) s1 := hruns rfl
  refine ⟨s0, s1, s2, out1, out2, hb, hrun1, hrun2, hr1.call h1.alive rfl hrun2, h2.alive,
    by rw [h2.sz]; decide, ?_, h2.fetchint 0⟩
  rintro (hp | hr)
  · exact hp h2.absent
  · exact hr h2.region

end Xv6
