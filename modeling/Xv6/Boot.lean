import Xv6.Lib.Reach
import Xv6.RefCount.Init
import Xv6.SysRun

/-!
# Xv6.Boot

The system after booting, and the runs from there.

A kernel that leaves room for the first page table below 4 MB, and an `initcode` of
less than a page, come up (`bootMem_spec`). `Runs P` are the states reached by calls
of live processes that all meet the condition `P`, and `Runs.aspace_invariant` is
the induction for properties of address spaces.
-/

namespace Xv6

open Function (update update_self)

variable [Layout] {man : Nat → Prop} {dirs kp : Finset Nat} {k k' : Kmem} {d : Nat}

/-! ### `inituvm` -/

/-- `inituvm` adds page 0, given two free frames. -/
theorem inituvm_spec {init : List Byte} (h : Inv man dirs kp k) (hd : d ∈ dirs)
    (habs : upage k d 0 = none) (hfree : 2 ≤ k.freelist.length) :
    Ends (inituvm d init) k (fun _ k' => Inv man dirs kp k' ∧
      (∃ e pg, upage k' d 0 = some (e, pg) ∧ has e .w = true ∧ has e .u = true ∧
        has e .cow = false) ∧
      (∀ d' ∈ dirs, ∀ v < nupages, ¬ (d' = d ∧ v = 0) → upage k' d' v = upage k d' v) ∧
      k.freelist.length ≤ k'.freelist.length + 1025) (fun _ => 4096 ≤ init.length) := by
  rw [inituvm, ends_ite]
  refine ⟨fun hlong => (ends_throw ..).mpr hlong, fun _ => ?_⟩
  rw [ends_bind]
  refine (kalloc_spec h).of_safe ?_
  intro r k1 hr
  cases r with
  | none =>
    rw [hr.1] at hfree
    exact absurd hfree (by simp)
  | some g =>
    obtain ⟨rest, hcons, rfl, hkp, -, -⟩ := hr
    have hg : g ∈ insert g kp := Finset.mem_insert_self g kp
    have hlen : k.freelist.length = (k.zalloc g rest).freelist.length + 1 := by
      rw [hcons]
      rfl
    have h0 : vpn 0 = 0 := rfl
    dsimp only
    rw [ends_bind, ends_memset_zero, ends_bind]
    refine (mappages_user (h.zalloc hcons) hd (Nat.zero_mod 4096) (by decide) hg
      ((lowBits_mask .w).or (lowBits_mask .u))).mono ?_ ?_
    · rw [h0]
      rintro r k2 (⟨-, hnil, -⟩ | ⟨-, -, -, hinv, hup, hsame, -, hlen2⟩)
      · change (k.zalloc g rest).freelist = [] at hnil
        rw [hnil] at hlen
        exact absurd hlen (by simp; omega)
      · rw [Finset.erase_insert hkp] at hinv
        rw [ends_modify]
        have hgn : g < npages := (h.zalloc hcons).lt_npages ((h.zalloc hcons).kp_man hg)
        have hfr : pteFrame (mkPte (v2p g) (PteFlag.w.mask ||| PteFlag.u.mask ||| PteFlag.p.mask)) =
            g := pteFrame_mkPte hgn
          (((lowBits_mask .w).or (lowBits_mask .u)).or (lowBits_mask .p))
        have hwr := hinv.write hd (by decide) hup (by simp) (putBytes (k2.mem g) 0 init)
        rw [hfr] at hwr
        obtain ⟨hinv3, hup3, hsame3⟩ := hwr
        refine ⟨hinv3, ⟨_, _, hup3, by simp, by simp, by simp⟩, fun d' hd' v hv hne => ?_, ?_⟩
        · rw [hsame3 d' hd' v hv hne, hsame d' hd' v hv hne, h.upage_zalloc hcons hd' hv]
        · change k.freelist.length ≤ k2.freelist.length + 1025
          omega
    · rintro e ⟨-, hp⟩
      rw [h0, (h.pte_zalloc hcons hd (by decide)).1, ← Bool.not_eq_false] at hp
      exact absurd (upage_eq_none.mp habs) hp

/-! ### `main` -/

omit [Layout] in
theorem vlowtop_eq : vlowtop = 0x80400000 := by decide

omit [Layout] in
theorem vphystop_eq : vphystop = 0x8E000000 := by decide

/-- What `main` leaves for `scheduler`. -/
structure BootMem (man : Nat → Prop) (kpgdir kstack pgdir : Nat) (k : Kmem) : Prop where
  inv : Inv man {pgdir, kpgdir} {kstack} k
  dir_ne : pgdir ≠ kpgdir
  image : Image (upages k pgdir) 4096
  user : ∀ e pg, upages k pgdir 0 = some (e, pg) → has e .u = true
  free : 50000 ≤ k.freelist.length

/-- The memory part of `main` comes up, unless the kernel leaves no room for the
first page table or `initcode` is too long. -/
theorem bootMem_spec {initcode : List Byte} {mem : Nat → Nat → Word} :
    Ends (bootMem initcode) (Kmem.zero mem)
      (fun r k => ∃ man, BootMem man r.1 r.2.1 r.2.2 k)
      (fun _ => vlowtop < Layout.kend + 66 * 4096 ∨ 4096 ≤ initcode.length) := by
  have hkend := Layout.kend_le
  have hdata := Layout.data_le_kend
  have hlink := Layout.kernlink_lt_data
  have hlow := vlowtop_eq
  have hphys := vphystop_eq
  have hbase : kernbase ≤ Layout.kend := Layout.kernbase_le_kend
  rw [bootMem, ends_bind, kinit1]
  refine (freerange_spec (Inv.empty rfl) le_rfl hbase (by omega) (by omega)
    (fun _ _ hf => hf)).of_safe ?_
  rintro - k1 ⟨hinv1, -, -, hlen1⟩
  change k1.freelist.length = 0 + _ at hlen1
  rw [ends_bind]
  refine (setupkvm_spec hinv1).of_safe ?_
  intro r k2 hr
  cases r with
  | none =>
    have hshort : k1.freelist.length ≤ 64 := hr.2.2.2.1
    rw [ends_throw]
    omega
  | some kpgdir =>
    obtain ⟨-, -, hinv2, -⟩ := hr
    dsimp only
    rw [ends_bind, kinit2]
    refine (freerange_spec hinv2 hkend (by omega) (by omega) le_rfl ?_).of_safe ?_
    · rintro f ⟨hlo, -⟩ (hf | ⟨-, hhi⟩)
      · exact hf
      · simp only [pgsize] at hhi
        omega
    rintro - k3 ⟨hinv3, -, -, hlen3⟩
    have hmany : 56320 ≤ k3.freelist.length := by
      rw [hlen3]
      omega
    rw [ends_bind]
    refine (kalloc_spec hinv3).of_safe ?_
    intro r k4 hr
    cases r with
    | none =>
      rw [hr.1] at hmany
      exact absurd hmany (by simp)
    | some kstack =>
      obtain ⟨rest, hcons, rfl, -, -, hinv4⟩ := hr
      rw [hcons, List.length_cons] at hmany
      dsimp only
      rw [ends_bind]
      refine (setupkvm_spec hinv4).of_safe ?_
      intro r k5 hr
      cases r with
      | none =>
        have hshort : rest.length ≤ 64 := hr.2.2.2.1
        exact absurd hshort (by omega)
      | some pgdir =>
        obtain ⟨hnew, -, hinv5, -, hnone, -, hlen5, -⟩ := hr
        change rest.length = _ at hlen5
        have hmem : pgdir ∈ insert pgdir (insert kpgdir ∅) := Finset.mem_insert_self _ _
        dsimp only
        rw [ends_bind]
        refine (inituvm_spec hinv5 hmem (hnone 0 (by decide)) (by omega)).mono ?_
          (fun _ hE => .inr hE)
        rintro - k6 ⟨hinv6, ⟨e, pg, hup, hw, hu, hcow⟩, hsame, hlen6⟩
        have hpage0 : upages k6 pgdir 0 = some (e, pg) :=
          (upages_of_lt (by decide)).trans hup
        refine .ret ⟨_, hinv6, ?_, ⟨fun v hv => ?_, fun v hv => ?_⟩, ?_, by omega⟩
        · intro he
          exact hnew (Finset.mem_insert.mpr (.inl he))
        · have : v = 0 := by omega
          subst this
          exact ⟨e, pg, hpage0, hw, hcow⟩
        · by_cases hvn : v < nupages
          · rw [upages_of_lt hvn, hsame pgdir hmem v hvn (by omega)]
            exact hnone v hvn
          · exact upages_of_ge (by omega)
        · rintro e' pg' he'
          rw [hpage0, Option.some.injEq, Prod.mk.injEq] at he'
          rw [← he'.1]
          exact hu

/-! ### The first process -/

/-- The slot `userinit` fills. -/
def initSlot : Fin nproc := ⟨0, nproc_pos⟩

/-- The address space `userinit` makes: one page with the code. -/
structure BootSpace (A : Aspace) : Prop where
  sz : A.sz = 4096
  vmas : A.vmas = fun _ => Vma.empty
  image : Image A.page 4096
  user : ∀ e pg, A.page 0 = some (e, pg) → has e .u = true

/-- The first process can make calls. -/
structure Ready (man : Nat → Prop) (s : Sys) : Prop where
  inv : SysInv man s
  state : (s.pt.proc initSlot).state = .runnable
  unkilled : (s.pt.proc initSlot).killed = false

/-- What is known of a system that has just booted. -/
structure BootOk (man : Nat → Prop) (s : Sys) : Prop extends Ready man s where
  live : ∀ i, (s.pt.proc i).live ↔ i = initSlot
  space : BootSpace (s.aspace initSlot)
  free : 50000 ≤ s.k.freelist.length

theorem BootMem.ok {kpgdir kstack pgdir : Nat} (h : BootMem man kpgdir kstack pgdir k) :
    BootOk man (bootSys k kpgdir kstack pgdir) := by
  have hproc : ∀ i, (bootSys k kpgdir kstack pgdir).pt.proc i =
      if i = initSlot then initProc kstack pgdir else Proc.zero := by
    intro i
    have : i = initSlot ↔ i.val = 0 := by simp [initSlot, Fin.ext_iff]
    simp only [bootSys, this]
  have hself : (bootSys k kpgdir kstack pgdir).pt.proc initSlot = initProc kstack pgdir := by
    rw [hproc, if_pos rfl]
  have hlive : ∀ i, ((bootSys k kpgdir kstack pgdir).pt.proc i).live ↔ i = initSlot := by
    intro i
    rw [hproc]
    by_cases hi : i = initSlot
    · simp [hi, Proc.live, initProc]
    · simp [hi, Proc.live, Proc.zero]
  have hvm : VmasOk (initProc kstack pgdir).sz (initProc kstack pgdir).vmas :=
    ⟨show pgsize ≤ kernbase by decide,
      fun i hu => absurd hu (by simp [initProc, Proc.zero, Vma.empty])⟩
  refine ⟨⟨⟨?_, ⟨fun i hi => ?_, fun i j hi hj _ => ?_, fun i j hi hj _ => ?_, fun i hi => ?_⟩⟩,
    by rw [hself]; rfl, by rw [hself]; rfl⟩, hlive, ?_, h.free⟩
  · have hdirs : (bootSys k kpgdir kstack pgdir).pt.dirs kpgdir = {pgdir, kpgdir} := by
      ext d
      simp only [Ptable.mem_dirs, hlive, exists_eq_left, hself, Finset.mem_insert,
        Finset.mem_singleton]
      exact ⟨fun hd => hd.symm.imp Eq.symm id, fun hd => hd.symm.imp id Eq.symm⟩
    have hstacks : (bootSys k kpgdir kstack pgdir).pt.kstacks = {kstack} := by
      ext d
      simp only [Ptable.mem_kstacks, hlive, exists_eq_left, hself, Finset.mem_singleton]
      exact eq_comm
    show Inv man ((bootSys k kpgdir kstack pgdir).pt.dirs kpgdir) _ k
    rw [hdirs, hstacks]
    exact h.inv
  · rw [(hlive i).mp hi, hself]
    exact h.dir_ne
  · rw [(hlive i).mp hi, (hlive j).mp hj]
  · rw [(hlive i).mp hi, (hlive j).mp hj]
  · rw [(hlive i).mp hi, hself]
    exact hvm
  · rw [Sys.aspace, hself]
    exact ⟨rfl, rfl, h.image, h.user⟩

variable {s s' : Sys} {i : Fin nproc}

theorem Booted.ok (h : Booted s) : ∃ man, BootOk man s := by
  obtain ⟨mem, initcode, kpgdir, kstack, pgdir, k, hrun, rfl⟩ := h
  obtain ⟨man, hboot⟩ := bootMem_spec.of_ok hrun
  exact ⟨man, hboot.ok⟩

/-- No process is marked killed, and the next pid is not taken. -/
theorem Booted.proc (h : Booted s) :
    s.pt.nextpid = 2 ∧ ∀ i, (s.pt.proc i).killed = false ∧ (s.pt.proc i).pid ≠ 2 := by
  obtain ⟨mem, initcode, kpgdir, kstack, pgdir, k, -, rfl⟩ := h
  refine ⟨rfl, fun i => ?_⟩
  simp only [bootSys]
  split <;> simp [initProc, Proc.zero]

/-- A kernel with room for its page table boots. -/
theorem booted_exists (hroom : Layout.kend + 66 * 4096 ≤ vlowtop) : ∃ s, Booted s := by
  have hspec : Ends (bootMem []) (Kmem.zero fun _ _ => 0#32)
      (fun r k => ∃ man, BootMem man r.1 r.2.1 r.2.2 k) := by
    refine bootMem_spec.mono (fun _ _ h => h) ?_
    rintro _ (hshort | hlong)
    · omega
    · exact absurd hlong (by simp)
  obtain ⟨⟨kpgdir, kstack, pgdir⟩, k, hrun, -⟩ := hspec.exists_ok
  exact ⟨_, _, _, kpgdir, kstack, pgdir, k, hrun, rfl⟩

omit [Layout] in
theorem sample_boots : let _ : Layout := Layout.sample; ∃ s, Booted s := by
  let _ : Layout := Layout.sample
  exact booted_exists (by decide)

/-! ### Runs -/

/-- One call of a live process that meets the condition `P`. -/
def SysStep (P : Call → Aspace → Prop) (s s' : Sys) : Prop :=
  ∃ i c out, Alive s i ∧ P c (s.aspace i) ∧ (c.run i).run s = .ok (out, s')

/-- The states reached from booting by calls that meet the condition `P`. -/
def Runs (P : Call → Aspace → Prop) (s : Sys) : Prop := Reach Booted (SysStep P) s

variable {P : Call → Aspace → Prop}

theorem Runs.inv (h : Runs P s) : ∃ man, SysInv man s := by
  refine Reach.invariant (I := fun s => ∃ man, SysInv man s) ?_ ?_ h
  · intro s hb
    obtain ⟨man, hok⟩ := hb.ok
    exact ⟨man, hok.inv⟩
  · rintro s s' ⟨man, hinv⟩ ⟨i, c, out, hi, -, hrun⟩
    exact ⟨man, ((run_spec c hinv hi).of_ok hrun).1⟩

theorem SysInv.aspace_ok (h : SysInv man s) (hi : (s.pt.proc i).live) :
    VmasOk (s.aspace i).sz (s.aspace i).vmas := h.pt.vmas i hi

/-- What holds of the first address space and is kept by every change the runs
allow holds of every address space in every state reached. -/
theorem Runs.aspace_invariant {I : Aspace → Prop} (hboot : ∀ A, BootSpace A → I A)
    (hchange : ∀ A c A', VmasOk A.sz A.vmas → I A → P c A → Change A c A' → I A')
    (hfork : ∀ A, VmasOk A.sz A.vmas → I A → I A.fork) (h : Runs P s)
    (hi : (s.pt.proc i).live) : I (s.aspace i) := by
  suffices hall : (∃ man, SysInv man s) ∧ ∀ i, (s.pt.proc i).live → I (s.aspace i) from hall.2 i hi
  refine Reach.invariant
    (I := fun s => (∃ man, SysInv man s) ∧ ∀ i, (s.pt.proc i).live → I (s.aspace i)) ?_ ?_ h
  · intro s hb
    obtain ⟨man, hok⟩ := hb.ok
    refine ⟨⟨man, hok.inv⟩, fun i hi => ?_⟩
    rw [(hok.live i).mp hi]
    exact hboot _ hok.space
  · rintro s s' ⟨⟨man, hinv⟩, hI⟩ ⟨i, c, out, hi, hP, hrun⟩
    obtain ⟨hinv', hstep⟩ := (run_spec c hinv hi).of_ok hrun
    have hIi := hI i hi.live
    have hvm := hinv.aspace_ok hi.live
    refine ⟨⟨man, hinv'⟩, fun j hj => ?_⟩
    by_cases he : j = i
    · subst he
      exact hchange _ c _ hvm hIi hP hstep.self.2
    · rcases hstep.other j he hj with ⟨hlive, heq⟩ | ⟨-, -, heq⟩
      · rw [heq]
        exact hI j hlive
      · rw [heq]
        exact hfork _ hvm hIi

theorem Runs.call {c : Call} {out : Out} (h : Runs P s) (hi : Alive s i) (hP : P c (s.aspace i))
    (hrun : (c.run i).run s = .ok (out, s')) : Runs P s' :=
  .next h ⟨i, c, out, hi, hP, hrun⟩

theorem Runs.mono {Q : Call → Aspace → Prop} (hPQ : ∀ c A, P c A → Q c A) (h : Runs P s) :
    Runs Q s :=
  Reach.mono (fun _ _ ⟨i, c, out, hi, hP, hrun⟩ => ⟨i, c, out, hi, hPQ _ _ hP, hrun⟩) h

/-! ### The first region

The shortest interesting run: the first process maps one page. `OneRegion` is what
is known then, and what stays true under a few calls after it. -/

/-- The first descriptor. -/
def firstVma : Fin maxVmas := ⟨0, by decide⟩

/-- The regions after one `mmap(4096)` above a first page. -/
def oneVma (prot : Word) : Fin maxVmas → Vma :=
  update (fun _ => Vma.empty) firstVma ⟨4096, 4096, prot, true⟩

omit [Layout] in
theorem oneVma_first (prot : Word) : oneVma prot firstVma = ⟨4096, 4096, prot, true⟩ :=
  update_self ..

theorem Ready.alive (h : Ready man s) : Alive s initSlot := .inl h.state

/-- A call of the first process on its own record. -/
theorem Ready.call {c : Call} {f : Proc → KM (Int × Proc)} {Q : Out → Sys → Prop}
    {E : Panic → Prop} (h : Ready man s)
    (hc : c.run initSlot = syscall initSlot (.ret <$> onProc initSlot f))
    (hm : Ends (f (s.pt.proc initSlot)) s.k (fun r k' => Moved man (s.pt.dirs s.kpgdir)
      s.pt.kstacks c s.k (s.pt.proc initSlot) k' r.2) E)
    (hf : Ends (f (s.pt.proc initSlot)) s.k (fun r k' => r.2.killed = false ∧
      (Ready man { s with k := k', pt := s.pt.set initSlot r.2 } →
        Q (.ret r.1) { s with k := k', pt := s.pt.set initSlot r.2 }))) :
    ∃ out s', (c.run initSlot).run s = .ok (out, s') ∧ Q out s' := by
  rw [hc]
  have hends : Ends (syscall initSlot (.ret <$> onProc initSlot f)) s
      (fun out s' => (s'.pt.proc initSlot).killed = false ∧ Q out s') := by
    refine syscall_alive h.unkilled ((ends_map ..).mpr ?_)
    rw [ends_onProc]
    refine (hf.and hm).mono ?_ (fun _ hE => hE.1)
    rintro r k' ⟨⟨hk, hq⟩, hm⟩
    rw [Ptable.set_proc_self]
    refine ⟨hk, hq ⟨(h.inv.moved h.alive.live hm).1, ?_, ?_⟩⟩
    · rw [Ptable.set_proc_self, hm.state]
      exact h.state
    · rw [Ptable.set_proc_self]
      exact hk
  obtain ⟨out, s', hrun, -, hq⟩ := hends.exists_ok
  exact ⟨out, s', hrun, hq⟩

omit [Layout] in
/-- `mmap` of whole pages for which there is room. -/
theorem sysMmap_eq {p : Proc} {n : Word} {i : Fin maxVmas} (hn : 0 < n.toInt)
    (hlen : n.toNat % 4096 = 0) (hsz : p.sz % 4096 = 0) (hroom : p.sz + n.toNat ≤ kernbase)
    (hlt : p.sz < kernbase) (hfree : vmaFree p = some i) :
    sysMmap n p = ((p.sz : Int), { p with
      vmas := update p.vmas i ⟨p.sz, n.toNat, protRead ||| protWrite, true⟩
      sz := p.sz + n.toNat }) := by
  have hpos := toNat_of_pos hn
  simp only [kernbase] at hroom hlt
  have hlen' : pgroundup n.toNat = n.toNat := by
    rw [pgroundup_pos hn]
    omega
  have hsz' : pgroundup p.sz = p.sz := by
    rw [pgroundup_eq (by omega)]
    omega
  have hsum : u32 (p.sz + n.toNat) = p.sz + n.toNat := Nat.mod_eq_of_lt (by omega)
  unfold sysMmap
  rw [if_neg (by omega)]
  dsimp only
  simp only [hlen', hsz', kernbase]
  rw [if_neg (by omega), if_neg (by omega), hfree, hsum]
  rfl

/-- The first process has one region of one page, which is not resident. -/
structure OneRegion (man : Nat → Prop) (sz : Nat) (prot : Word) (s : Sys) : Prop
    extends Ready man s where
  sz : (s.pt.proc initSlot).sz = sz
  vmas : (s.pt.proc initSlot).vmas = oneVma prot
  absent : (s.aspace initSlot).page 1 = none
  beyond : ∀ v, 2 ≤ v → (s.aspace initSlot).page v = none
  free : 50000 ≤ s.k.freelist.length

section
variable {sz : Nat} {prot : Word}

theorem OneRegion.region (h : OneRegion man sz prot s) :
    (s.aspace initSlot).region 1 = some ⟨4096, 4096, prot, true⟩ := by
  show regionOf (s.pt.proc initSlot).vmas 1 = _
  rw [h.vmas]
  rfl

theorem OneRegion.reaches (h : OneRegion man sz prot s) {write : Bool}
    (hw : write = true → canWrite prot = true) : (s.aspace initSlot).Reaches 1 write := by
  rw [Aspace.Reaches, h.absent]
  exact ⟨_, h.region, hw⟩

theorem BootOk.maps (h : BootOk man s) :
    ∃ s', ((Call.mmap 4096#32).run initSlot).run s = .ok (.ret 4096, s') ∧
      OneRegion man 8192 (protRead ||| protWrite) s' := by
  have hsz : (s.pt.proc initSlot).sz = 4096 := h.space.sz
  have hvm : (s.pt.proc initSlot).vmas = fun _ => Vma.empty := h.space.vmas
  have hfree : vmaFree (s.pt.proc initSlot) = some firstVma := by
    unfold vmaFree
    rw [hvm]
    decide
  have hmm := sysMmap_eq (n := 4096#32) (by decide) (by decide) (by rw [hsz]) (by rw [hsz]; decide)
    (by rw [hsz]; decide) hfree
  have hm := sysMmap_moved (n := 4096#32) h.inv.mem (h.inv.pt.vmas _ h.alive.live)
  have hcall : ∃ out s', ((Call.mmap 4096#32).run initSlot).run s = .ok (out, s') ∧
      out = .ret 4096 ∧ OneRegion man 8192 (protRead ||| protWrite) s' := by
    refine h.call (E := fun _ => True) rfl (.ret hm) (.ret ?_)
    rw [hmm, hsz, hvm]
    refine ⟨h.unkilled, fun hr => ⟨rfl, hr, ?_, ?_, ?_, fun v hv => ?_, h.free⟩⟩
    all_goals simp only [Ptable.set_proc_self, Sys.aspace]
    · rfl
    · rfl
    · exact h.space.image.absent 1 (by decide)
    · exact h.space.image.absent v (by omega)
  obtain ⟨_, s', hrun, rfl, hone⟩ := hcall
  exact ⟨s', hrun, hone⟩

theorem BootOk.mmap (h : BootOk man s) :
    ∃ out s', ((Call.mmap 4096#32).run initSlot).run s = .ok (out, s') ∧
      OneRegion man 8192 (protRead ||| protWrite) s' := ⟨_, h.maps⟩

/-- `sbrk(-4096)` after it takes `sz` back below the region. -/
theorem OneRegion.sbrk (h : OneRegion man 8192 prot s) :
    ∃ out s', ((Call.sbrk (-4096#32)).run initSlot).run s = .ok (out, s') ∧
      OneRegion man 4096 prot s' := by
  have hd := h.alive.live.dir
  have hvm := h.inv.pt.vmas _ h.alive.live
  have hn : (-4096#32 : Word).toInt = -4096 := by decide
  refine h.call rfl (sysSbrk_moved h.inv.mem hd hvm)
    ((sysSbrk_neg h.inv.mem hd hvm (by rw [hn]; decide)).imp ?_)
  rw [h.sz, hn]
  rintro r k' (⟨hneg, -⟩ | ⟨newsz, hnew, rfl, hun⟩)
  · exact absurd hneg (by decide)
  · obtain rfl : newsz = 4096 := by omega
    rw [if_neg (by decide)]
    refine ⟨h.unkilled, fun hr => ⟨hr, ?_, ?_, ?_, fun v hv => ?_, h.free.trans hun.free⟩⟩
    all_goals simp only [Ptable.set_proc_self, Sys.aspace]
    · exact h.vmas
    · show upages k' _ 1 = none
      rw [hun.upages_eq hd]
      exact if_pos ⟨by decide, by decide⟩
    · show upages k' _ v = none
      rw [hun.upages_eq hd]
      exact (if_neg (by omega)).trans (h.beyond v hv)

/-- The region is the one that `munmap(4096, 4096)` and `mprotect(4096, 4096)` find. -/
theorem OneRegion.find (h : OneRegion man sz prot s) :
    (s.pt.proc initSlot).findRegion 4096#32 4096#32 = some firstVma := by
  have hlen : pgroundup (4096#32 : Word).toNat = 4096 := by decide
  unfold Proc.findRegion
  rw [if_neg (by decide), if_neg (by decide), if_neg (by decide), hlen]
  unfold vmaFindExact
  rw [h.vmas]
  rfl

theorem OneRegion.mprotect (h : OneRegion man sz prot s) :
    ∃ out s', ((Call.mprotect 4096#32 4096#32 protRead).run initSlot).run s = .ok (out, s') ∧
      OneRegion man sz protRead s' := by
  have hd := h.alive.live.dir
  have hvm := h.inv.pt.vmas _ h.alive.live
  refine h.call rfl (sysMprotect_moved h.inv.mem hd hvm)
    ((sysMprotect_spec h.inv.mem hd hvm).imp ?_)
  rintro r k' hr
  rw [if_neg (by decide), h.find] at hr
  obtain ⟨rfl, hprot⟩ := hr
  refine ⟨h.unkilled, fun hr => ⟨hr, ?_, ?_, ?_, fun v hv => ?_, ?_⟩⟩
  all_goals simp only [Ptable.set_proc_self, Sys.aspace]
  · exact h.sz
  · simp only [Proc.setVma, h.vmas, oneVma, update_self, Function.update_idem]
  · show upages k' _ 1 = none
    rw [upages_of_lt (by decide)]
    have habs : upages s.k (s.pt.proc initSlot).pgdir 1 = none := h.absent
    rw [upages_of_lt (by decide)] at habs
    have hin : ((s.pt.proc initSlot).vmas firstVma).holds 1 := by
      rw [h.vmas, oneVma_first]
      exact ⟨le_refl 4096, Nat.lt_add_of_pos_right (by decide : 0 < 4096)⟩
    exact (hprot.changed 1 (by decide) hin).trans (by rw [habs]; rfl)
  · show upages k' _ v = none
    refine (upages_at fun hvn => hprot.same _ hd v hvn fun hc => ?_).trans (h.beyond v hv)
    have hin := hc.2
    rw [h.vmas, oneVma_first] at hin
    simp only [Vma.holds] at hin
    omega
  · rw [hprot.freelist]
    exact h.free

end

omit [Layout] in
/-- The sample machine boots, and the first process maps a page. -/
theorem sample_maps : let _ : Layout := Layout.sample
    ∃ man s0 s1 out, Booted s0 ∧ ((Call.mmap 4096#32).run initSlot).run s0 = .ok (out, s1) ∧
      OneRegion man 8192 (protRead ||| protWrite) s1 ∧
      ∀ {P : Call → Aspace → Prop}, P (.mmap 4096#32) (s0.aspace initSlot) → Runs P s1 := by
  let _ : Layout := Layout.sample
  obtain ⟨s0, hb⟩ := sample_boots
  obtain ⟨man, h0⟩ := hb.ok
  obtain ⟨out, s1, hrun, h1⟩ := h0.mmap
  exact ⟨man, s0, s1, out, hb, hrun, h1, fun hP => Runs.call (.start hb) h0.alive hP hrun⟩

end Xv6
