import Xv6.Isolation
import Xv6.Reference
import Xv6.RegionRuns

/-!
# Xv6.CowSim

Copy-on-write cannot be observed.

`Sys.ref` reads a state of the reference system off a state of the kernel. The
process table loses the two fields that say where memory is. A page keeps its
contents and its user bit; it counts as writable if it is writable or marked
copy-on-write, unless it lies in a read-only region. What a shared frame hides is
thereby undone: `fork`, and the faults that resolve what it has left behind, do
nothing to the parent's pages in this view. Each call of the kernel in which no
allocation fails is then the call of the reference system between the views, with
the same result.
-/

namespace Xv6

open Function (update update_self update_of_ne)

/-! ### Process tables without addresses -/

/-- Forget where the memory of a process is. -/
def Proc.erase (p : Proc) : Proc := { p with pgdir := 0, kstack := 0 }

namespace Ptable

/-- Forget where the memory of the processes is. -/
def erase (t : Ptable) : Ptable := { t with proc := fun i => (t.proc i).erase }

variable {t : Ptable} {i cur : Fin nproc}

@[simp] theorem erase_proc (t : Ptable) (i : Fin nproc) : t.erase.proc i = (t.proc i).erase := rfl

theorem erase_set (t : Ptable) (i : Fin nproc) (p : Proc) :
    (t.set i p).erase = t.erase.set i p.erase := by
  simp only [erase, set, Ptable.mk.injEq, and_true]
  funext j
  by_cases hj : j = i
  · subst hj
    simp only [update_self]
  · simp only [update_of_ne hj]

theorem find_erase (t : Ptable) {test : Proc → Bool} (htest : ∀ p, test p.erase = test p) :
    t.erase.find test = t.find test := by
  simp only [find, erase_proc, htest]

theorem allocproc_erase (t : Ptable) :
    t.erase.allocproc = t.allocproc.map fun x => (x.1, x.2.erase) := by
  unfold allocproc
  rw [find_erase t fun _ => rfl, Option.map_map]
  congr 1
  funext i
  exact congrArg (fun t' : Ptable => (i, { t' with nextpid := t.nextpid + 1 }))
    (erase_set t i { t.proc i with
      state := .embryo, pid := t.nextpid, vmas := fun _ => Vma.empty,
      priority := defaultPriority }).symm

theorem allocprocStack_erase (t : Ptable) (i : Fin nproc) (kstack : Nat) :
    (t.allocprocStack i kstack).erase = t.erase.allocprocStack i 0 := by
  rw [allocprocStack, erase_set]
  rfl

theorem forkCommit_erase (t : Ptable) (cur i : Fin nproc) (pgdir : Nat) :
    (t.forkCommit cur i pgdir).erase = t.erase.forkCommit cur i 0 := by
  rw [forkCommit, erase_set]
  rfl

theorem wakeup1_erase (t : Ptable) (chan : Option Chan) :
    (t.wakeup1 chan).erase = t.erase.wakeup1 chan := by
  simp only [erase, wakeup1, Ptable.mk.injEq, and_true]
  funext j
  exact apply_ite Proc.erase _ _ _

theorem passToInit_erase (t : Ptable) (cur i : Fin nproc) :
    (t.passToInit cur i).erase = t.erase.passToInit cur i := by
  have hset : (t.set i { t.proc i with parent := some t.initproc }).erase =
      t.erase.set i { t.erase.proc i with parent := some t.erase.initproc } := erase_set t i _
  by_cases hp : (t.proc i).parent = some cur
  · have hp' : (t.erase.proc i).parent = some cur := hp
    rw [passToInit, passToInit, if_pos hp, if_pos hp']
    dsimp only
    rw [set_proc_self, set_proc_self]
    by_cases hz : (t.proc i).state = .zombie
    · have hz' : (t.erase.proc i).state = .zombie := hz
      rw [if_pos hz, if_pos hz', wakeup1_erase, hset]
      rfl
    · have hz' : ¬ (t.erase.proc i).state = .zombie := hz
      rw [if_neg hz, if_neg hz', hset]
  · have hp' : ¬ (t.erase.proc i).parent = some cur := hp
    rw [passToInit, passToInit, if_neg hp, if_neg hp']

theorem passAll_erase (cur : Fin nproc) (l : List (Fin nproc)) : ∀ t : Ptable,
    (l.foldl (fun t i => t.passToInit cur i) t).erase =
      l.foldl (fun t i => t.passToInit cur i) t.erase := by
  induction l with
  | nil => exact fun t => rfl
  | cons i l ih =>
    intro t
    rw [List.foldl_cons, List.foldl_cons, ih, passToInit_erase]

theorem exit_erase (t : Ptable) (cur : Fin nproc) : (t.exit cur).erase = t.erase.exit cur := by
  have hlast : ∀ t1 t2 : Ptable, t1.erase = t2 →
      (t1.set cur { t1.proc cur with state := .zombie }).erase =
        t2.set cur { t2.proc cur with state := .zombie } := by
    intro t1 t2 h
    rw [← h, erase_set]
    rfl
  refine hlast _ _ ((passAll_erase cur (List.finRange nproc) _).trans ?_)
  rw [wakeup1_erase]
  rfl

theorem waitScan_erase (t : Ptable) (cur : Fin nproc) : t.erase.waitScan cur = t.waitScan cur := by
  unfold waitScan
  rw [find_erase t fun _ => rfl, find_erase t fun _ => rfl]
  rfl

theorem reap_erase (t : Ptable) (i : Fin nproc) : (t.reap i).erase = t.erase.reap i := by
  rw [reap, erase_set]
  rfl

end Ptable

/-! ### Pages without copy-on-write -/

namespace Aspace

/-- What a page looks like without copy-on-write. -/
def refPage (A : Aspace) (v : Nat) (x : Page) : RefPage :=
  ⟨(has x.1 .w || has x.1 .cow) && !A.readOnly v, has x.1 .u, x.2⟩

/-- The pages of an address space without copy-on-write. -/
def priv (A : Aspace) : Pages := fun v => (A.page v).map (A.refPage v)

variable {A A' : Aspace} {v : Nat} {e : Word} {pg : Nat → Word}

theorem priv_eq_some (h : A.page v = some (e, pg)) :
    A.priv v = some ⟨(has e .w || has e .cow) && !A.readOnly v, has e .u, pg⟩ := by
  rw [priv, h]
  rfl

theorem priv_eq_none : A.priv v = none ↔ A.page v = none := by
  simp [priv]

/-- The view of one page, where the page and its region's protection stay. -/
theorem priv_congr (hpage : A'.page v = A.page v)
    (hro : A.page v ≠ none → A'.readOnly v = A.readOnly v) : A'.priv v = A.priv v := by
  cases hp : A.page v with
  | none => rw [priv_eq_none.mpr hp, priv_eq_none.mpr (hpage.trans hp)]
  | some x => rw [priv_eq_some hp, priv_eq_some (hpage.trans hp), hro (by simp [hp])]

/-- Marking a page copy-on-write does not show. -/
theorem priv_share (hpage : A'.page v = sharePage (A.page v)) (hro : A'.readOnly v = A.readOnly v) :
    A'.priv v = A.priv v := by
  cases hp : A.page v with
  | none =>
    rw [hp] at hpage
    rw [priv_eq_none.mpr hp, priv_eq_none.mpr hpage]
  | some x =>
    rw [hp] at hpage
    rw [priv_eq_some hp, priv_eq_some hpage, sharedEntry_w, sharedEntry_cow, sharedEntry_u, hro,
      Bool.false_or]

/-- In a region, the protection of the region shows. -/
theorem Good.priv_eq (h : A.Good) {j : Fin maxVmas} (hj : (A.vmas j).used = true)
    (hv : (A.vmas j).holds v) (hp : A.page v = some (e, pg)) :
    A.priv v = some ⟨canWrite (A.vmas j).prot, has e .u, pg⟩ := by
  obtain ⟨-, hw, hcow⟩ := h.flags v e pg j hp hj hv
  have hro : A.readOnly v = !canWrite (A.vmas j).prot := by
    simp [readOnly, h.wellFormed.region_eq hj hv]
  rw [priv_eq_some hp, hro, Bool.not_not]
  cases hcan : canWrite (A.vmas j).prot with
  | false => rw [Bool.and_false]
  | true =>
    rcases hcow hcan with h | h
    · rw [h, Bool.true_or, Bool.and_true]
    · rw [h, Bool.or_true, Bool.and_true]

/-- A writable page is not in a read-only region. -/
theorem Good.readOnly_of_w (h : A.Good) (hp : A.page v = some (e, pg)) (hw : has e .w = true) :
    A.readOnly v = false := by
  cases hr : A.region v with
  | none => simp [readOnly, hr]
  | some r =>
    obtain ⟨j, rfl, hj, hv⟩ := regionOf_eq_some hr
    simp [readOnly, hr, (h.flags v e pg j hp hj hv).2.1 hw]

end Aspace

/-- The region of a page, where another region has been put in place of one that
does not hold the page. -/
theorem regionOf_update {vmas : Fin maxVmas → Vma} {i : Fin maxVmas} {r : Vma} {v : Nat}
    (hold : ¬ ((vmas i).used = true ∧ (vmas i).holds v)) (hnew : ¬ (r.used = true ∧ r.holds v)) :
    regionOf (update vmas i r) v = regionOf vmas v := by
  have hcov : ∀ q : Vma, ¬ (q.used = true ∧ q.holds v) → q.covers (v * 4096) = false := by
    intro q hq
    rw [← Bool.not_eq_true, Vma.covers_iff]
    exact hq
  have htest : ∀ j, (update vmas i r j).covers (v * 4096) = (vmas j).covers (v * 4096) := by
    intro j
    by_cases hj : j = i
    · subst hj
      rw [update_self, hcov _ hold, hcov _ hnew]
    · rw [update_of_ne hj]
  unfold regionOf
  simp only [htest]
  cases hf : (List.finRange maxVmas).find? fun j => (vmas j).covers (v * 4096) with
  | none => rfl
  | some j =>
    have hj : j ≠ i := by
      intro hj
      subst hj
      have := List.find?_some hf
      simp only [hcov _ hold] at this
      exact absurd this (by simp)
    simp only [Option.map_some, update_of_ne hj]

/-! ### The view of a system -/

/-- The process runs, or will run again: it has memory of its own. -/
def Proc.active (p : Proc) : Prop := p.state ≠ .unused ∧ p.state ≠ .zombie

instance (p : Proc) : Decidable p.active := inferInstanceAs (Decidable (_ ∧ _))

/-- The state of the reference system that a state of the kernel stands for. -/
def Sys.ref (s : Sys) : RefSys where
  pt := s.pt.erase
  pages i := if (s.pt.proc i).active then (s.aspace i).priv else fun _ => none

/-- No process that can still run has been marked killed. -/
def Sys.Unkilled (s : Sys) : Prop :=
  ∀ i, (s.pt.proc i).state ≠ .zombie → (s.pt.proc i).killed = false

/-- A step of the kernel in which no allocation fails. -/
def CowStep [Layout] (s : Sys) (l : Fin nproc × UserCall × Out) (s' : Sys) : Prop :=
  Alive s l.1 ∧ (l.2.1.toCall.run l.1).run s = .ok (l.2.2, s') ∧ s'.k.oom = s.k.oom

/-! ### System calls on the caller's memory -/

section
variable {s s' : Sys} {i : Fin nproc}

theorem Sys.ref_proc (s : Sys) (i : Fin nproc) : s.ref.pt.proc i = (s.pt.proc i).erase := rfl

theorem Alive.active (h : Alive s i) : (s.pt.proc i).active := by
  rcases h with h | h
  · simp [Proc.active, h]
  · simp [Proc.active, h]

theorem Sys.ref_pages (h : (s.pt.proc i).active) : s.ref.pages i = (s.aspace i).priv := if_pos h

theorem Sys.ref_pages_same (hact : (s'.pt.proc i).active ↔ (s.pt.proc i).active)
    (hsame : (s'.pt.proc i).live → s'.aspace i = s.aspace i) :
    s'.ref.pages i = s.ref.pages i := by
  by_cases h : (s.pt.proc i).active
  · have h' := hact.mpr h
    rw [Sys.ref_pages h, Sys.ref_pages h', hsame h'.1]
  · have h' : ¬ (s'.pt.proc i).active := fun h' => h (hact.mp h')
    show (if _ then _ else _) = (if _ then _ else _)
    rw [if_neg h, if_neg h']

theorem Sys.Unkilled.set {k' : Kmem} {p' : Proc} (h : s.Unkilled)
    (hp : p'.state ≠ .zombie → p'.killed = false) :
    Sys.Unkilled { s with k := k', pt := s.pt.set i p' } := by
  intro j
  by_cases hj : j = i
  · subst hj
    rw [Ptable.set_proc_self]
    exact hp
  · rw [Ptable.set_proc_of_ne _ _ hj]
    exact h j

theorem Sys.Unkilled.alive (h : s.Unkilled) (hi : Alive s i) : (s.pt.proc i).killed = false :=
  h i hi.active.2

end

section
variable [Layout] {man : Nat → Prop} {s s' : Sys} {i : Fin nproc} {n : Word}

/-- The view after a call that works on the record and the memory of its caller. -/
theorem SysInv.ref_moved {c : Call} {k' : Kmem} {p' : Proc} (h : SysInv man s) (hi : Alive s i)
    (hm : Moved man (s.pt.dirs s.kpgdir) s.pt.kstacks c s.k (s.pt.proc i) k' p') :
    Sys.ref { s with k := k', pt := s.pt.set i p' } =
      ⟨s.ref.pt.set i p'.erase, update s.ref.pages i (aspace k' p').priv⟩ := by
  obtain ⟨-, hstep⟩ := h.moved hi.live hm
  have hpages : (Sys.ref { s with k := k', pt := s.pt.set i p' }).pages =
      update s.ref.pages i (aspace k' p').priv := by
    funext j
    by_cases hj : j = i
    · subst hj
      have hact : p'.active := by
        rw [Proc.active, hm.state]
        exact hi.active
      rw [update_self, Sys.ref_pages (by rw [Ptable.set_proc_self]; exact hact)]
      simp only [Sys.aspace, Ptable.set_proc_self]
    · rw [update_of_ne hj]
      refine Sys.ref_pages_same (by rw [Ptable.set_proc_of_ne _ _ hj]) fun hlive => ?_
      rcases hstep.other j hj hlive with hsame | hnew
      · exact hsame.2
      · rw [Ptable.set_proc_of_ne _ _ hj] at hlive
        exact absurd hlive hnew.1
  rw [← hpages, show s.ref.pt.set i p'.erase = _ from (s.pt.erase_set i p').symm]
  rfl

/-- A call on the record and the memory of its caller does the same in both
systems if it does so to the record and the pages. -/
theorem onProc_sim {c : Call} {f : Proc → KM (Int × Proc)}
    {g : Proc → Pages → Int × Proc × Pages} {E : Panic → Prop} (h : SysInv man s) (hi : Alive s i)
    (hk : s.Unkilled)
    (hf : Ends (f (s.pt.proc i)) s.k (fun r k' =>
      Moved man (s.pt.dirs s.kpgdir) s.pt.kstacks c s.k (s.pt.proc i) k' r.2 ∧
      r.2.killed = (s.pt.proc i).killed ∧
      (k'.oom = s.k.oom → g (s.pt.proc i).erase (s.aspace i).priv =
        (r.1, r.2.erase, (aspace k' r.2).priv))) E) :
    Ends (syscall i (.ret <$> onProc i f)) s (fun out s' => s'.k.oom = s.k.oom →
      s.ref.onProc i g = (out, s'.ref) ∧ s'.Unkilled) E := by
  have hki := hk.alive hi
  refine (syscall_alive hki ?_).imp (fun _ _ h' => h'.2)
  rw [ends_map, ends_onProc]
  refine hf.imp ?_
  intro r k' ⟨hm, hkill, hg⟩
  refine ⟨by rw [Ptable.set_proc_self, hkill, hki], fun hoom => ⟨?_, ?_⟩⟩
  · rw [h.ref_moved hi hm, RefSys.onProc, Sys.ref_pages hi.active, s.ref_proc, hg hoom]
  · exact hk.set fun _ => hkill.trans hki

omit [Layout] in
theorem sysMmap_erase (n : Word) (p : Proc) :
    sysMmap n p.erase = ((sysMmap n p).1, (sysMmap n p).2.erase) := by
  have hfree : vmaFree p.erase = vmaFree p := rfl
  have hsz : p.erase.sz = p.sz := rfl
  unfold sysMmap
  rw [hfree, hsz]
  dsimp only
  split_ifs
  · rfl
  · rfl
  · rfl
  · cases vmaFree p with
    | none => rfl
    | some j => rfl

/-- A new region lies beyond all pages. -/
theorem mmap_sim (h : SysInv man s) (hi : Alive s i) (hA : (s.aspace i).Good) (hk : s.Unkilled) :
    Ends ((Call.mmap n).run i) s (fun out s' => s'.k.oom = s.k.oom →
      (UserCall.mmap n).ref i s.ref = .ok (out, s'.ref) ∧ s'.Unkilled) := by
  have hvm := h.pt.vmas i hi.live
  refine (onProc_sim h hi hk (c := .mmap n) (.ret ⟨sysMmap_moved h.mem hvm, ?_, fun _ => ?_⟩)).imp
    (fun out s' h' hoom => ⟨congrArg Except.ok (h' hoom).1, (h' hoom).2⟩)
  · rcases sysMmap_cases (n := n) hvm with heq | ⟨j, start, length, -, -, -, -, -, -, heq⟩
    · rw [heq]
    · rw [heq]
  · rw [sysMmap_erase]
    refine congrArg (fun m => ((sysMmap n (s.pt.proc i)).1, (sysMmap n (s.pt.proc i)).2.erase, m))
      (funext fun v => ?_)
    rcases sysMmap_cases (n := n) hvm with
      heq | ⟨j, start, length, hfree, hstart, hpos, hlen, hend, -, heq⟩
    · rw [heq]
      rfl
    · rw [heq]
      refine Eq.symm (Aspace.priv_congr (A := s.aspace i) rfl fun hpage => ?_)
      have hlt : v * 4096 < pgroundup (s.pt.proc i).sz := hA.below v hpage
      rw [hvm.pgroundup_sz] at hlt
      unfold Aspace.readOnly Aspace.region
      refine congrArg (Option.any _) (regionOf_update (fun hc => ?_) fun hc => ?_)
      · exact absurd (hc.1.symm.trans hfree) (by simp)
      · have := hc.2.1
        dsimp only at this
        omega

theorem munmap_sim {addr : Word} (h : SysInv man s) (hi : Alive s i) (hk : s.Unkilled) :
    Ends ((Call.munmap addr n).run i) s (fun out s' => s'.k.oom = s.k.oom →
      (UserCall.munmap addr n).ref i s.ref = .ok (out, s'.ref) ∧ s'.Unkilled) := by
  have hd := hi.live.dir
  have hvm := h.pt.vmas i hi.live
  refine (onProc_sim h hi hk (c := .munmap addr n)
    (((sysMunmap_spec h.mem hd hvm).and (sysMunmap_moved h.mem hd hvm)).mono ?_
      (fun _ hE => hE.1))).imp (fun out s' h' hoom => ⟨congrArg Except.ok (h' hoom).1, (h' hoom).2⟩)
  intro r k' ⟨hr, hm⟩
  refine ⟨hm, ?_⟩
  have hfind : (s.pt.proc i).erase.findRegion addr n = (s.pt.proc i).findRegion addr n := rfl
  rw [refMunmap, hfind]
  cases hj : (s.pt.proc i).findRegion addr n with
  | none =>
    rw [hj] at hr
    obtain ⟨rfl, rfl⟩ := hr
    exact ⟨rfl, fun _ => rfl⟩
  | some j =>
    rw [hj] at hr
    obtain ⟨rfl, hun⟩ := hr
    refine ⟨rfl, fun _ => congrArg (fun m => ((0 : Int), _, m)) (funext fun v => ?_)⟩
    have hpage : (aspace k' ((s.pt.proc i).setVma j Vma.empty)).page v =
        if ((s.pt.proc i).vmas j).holds v then none else (s.aspace i).page v :=
      congrFun (hun.upages_eq hd) v
    by_cases hv : ((s.pt.proc i).vmas j).holds v
    · rw [if_pos hv] at hpage
      rw [Aspace.priv_eq_none.mpr hpage]
      exact if_pos hv
    · rw [if_neg hv] at hpage
      refine (if_neg hv).trans (Aspace.priv_congr hpage fun _ => ?_).symm
      exact congrArg (Option.any _) (regionOf_update (fun hc => hv hc.2)
        fun hc => absurd hc.1 (by simp [Vma.empty]))

theorem mprotect_sim {addr prot : Word} (h : SysInv man s) (hi : Alive s i)
    (hA : (s.aspace i).Good) (hk : s.Unkilled) :
    Ends ((Call.mprotect addr n prot).run i) s (fun out s' => s'.k.oom = s.k.oom →
      (UserCall.mprotect addr n prot).ref i s.ref = .ok (out, s'.ref) ∧ s'.Unkilled) := by
  have hd := hi.live.dir
  have hvm := h.pt.vmas i hi.live
  refine (onProc_sim h hi hk (c := .mprotect addr n prot)
    (((sysMprotect_spec h.mem hd hvm).and (sysMprotect_moved h.mem hd hvm)).mono ?_
      (fun _ hE => hE.1))).imp (fun out s' h' hoom => ⟨congrArg Except.ok (h' hoom).1, (h' hoom).2⟩)
  intro r k' ⟨hr, hm⟩
  refine ⟨hm, ?_⟩
  have hA' := hA.change (fun n' hc => absurd hc (by simp)) hm.change
  have hfind : (s.pt.proc i).erase.findRegion addr n = (s.pt.proc i).findRegion addr n := rfl
  rw [refMprotect, hfind]
  by_cases hprot : prot ≠ protRead ∧ prot ≠ protRead ||| protWrite
  · rw [if_pos hprot] at hr ⊢
    obtain ⟨rfl, rfl⟩ := hr
    exact ⟨rfl, fun _ => rfl⟩
  rw [if_neg hprot] at hr ⊢
  cases hj : (s.pt.proc i).findRegion addr n with
  | none =>
    rw [hj] at hr
    obtain ⟨rfl, rfl⟩ := hr
    exact ⟨rfl, fun _ => rfl⟩
  | some j =>
    rw [hj] at hr
    obtain ⟨rfl, hpr⟩ := hr
    obtain ⟨refs, hup⟩ := hpr.upages_eq hd
    have hused := (Proc.findRegion_eq_some hj).1
    refine ⟨rfl, fun _ => congrArg (fun m => ((0 : Int), _, m)) (funext fun v => ?_)⟩
    have hpage : (aspace k' ((s.pt.proc i).setVma j
        { (s.pt.proc i).vmas j with prot := prot })).page v =
        if ((s.pt.proc i).vmas j).holds v then
          ((s.aspace i).page v).map fun x => (protEntry (refs v) prot x.1, x.2)
        else (s.aspace i).page v := congrFun hup v
    by_cases hv : ((s.pt.proc i).vmas j).holds v
    · rw [if_pos hv] at hpage
      refine (if_pos hv).trans ?_
      cases hp : (s.aspace i).page v with
      | none =>
        rw [hp] at hpage
        rw [Aspace.priv_eq_none.mpr hp, Aspace.priv_eq_none.mpr hpage]
        rfl
      | some x =>
        -- the region now has the protection `prot`, and so has the page
        rw [hp] at hpage
        have hvma : (aspace k' ((s.pt.proc i).setVma j
            { (s.pt.proc i).vmas j with prot := prot })).vmas j =
            { (s.pt.proc i).vmas j with prot := prot } := update_self ..
        rw [hA'.priv_eq (j := j) (by rw [hvma]; exact hused) (by rw [hvma]; exact hv) hpage,
          hvma, Aspace.priv_eq_some hp, protEntry_u]
        rfl
    · rw [if_neg hv] at hpage
      refine (if_neg hv).trans (Aspace.priv_congr hpage fun _ => ?_).symm
      exact congrArg (Option.any _) (regionOf_update (fun hc => hv hc.2) fun hc => hv hc.2)

theorem sbrk_sim (hn : 0 ≤ n.toInt) (h : SysInv man s) (hi : Alive s i) (hA : (s.aspace i).Good)
    (hk : s.Unkilled) :
    Ends ((Call.sbrk n).run i) s (fun out s' => s'.k.oom = s.k.oom →
      (UserCall.sbrk n hn).ref i s.ref = .ok (out, s'.ref) ∧ s'.Unkilled) (fun _ => True) := by
  have hd := hi.live.dir
  have hvm := h.pt.vmas i hi.live
  suffices hf : Ends (sysSbrk n (s.pt.proc i)) s.k (fun r k' =>
      Moved man (s.pt.dirs s.kpgdir) s.pt.kstacks (.sbrk n) s.k (s.pt.proc i) k' r.2 ∧
      r.2.killed = (s.pt.proc i).killed ∧
      (k'.oom = s.k.oom → refSbrk n (s.pt.proc i).erase (s.aspace i).priv =
        (r.1, r.2.erase, (aspace k' r.2).priv))) (fun _ => True) from
    (onProc_sim h hi hk hf).imp
      (fun out s' h' hoom => ⟨congrArg Except.ok (h' hoom).1, (h' hoom).2⟩)
  rcases hn.lt_or_eq with hpos | hzero
  · refine ((sysSbrk_pos h.mem hd hvm hpos).and (sysSbrk_moved h.mem hd hvm)).mono ?_
      (fun _ _ => trivial)
    intro r k' ⟨hr, hm⟩
    refine ⟨hm, ?_⟩
    have hsz : (s.pt.proc i).erase.sz = (s.pt.proc i).sz := rfl
    rw [refSbrk, if_neg (by omega), hsz]
    rcases hr with ⟨hbig, rfl, rfl⟩ | ⟨hfit, rfl, hg⟩ | ⟨-, rfl, hab⟩
    · rw [if_pos hbig]
      exact ⟨rfl, fun _ => rfl⟩
    · rw [if_neg (by omega)]
      refine ⟨rfl, fun _ => congrArg (fun m => (((s.pt.proc i).sz : Int), _, m))
        (funext fun v => ?_)⟩
      by_cases hin : (s.pt.proc i).sz ≤ v * 4096 ∧ v * 4096 < (s.pt.proc i).sz + n.toNat
      · obtain ⟨-, e, he, hw, hu, -⟩ := hg.upages_fresh hfit hin.1 hin.2
        have hpage : (aspace k' { s.pt.proc i with sz := (s.pt.proc i).sz + n.toNat }).page v =
            some (e, fun _ => 0#32) := he
        -- no region reaches beyond the old size
        have hreg : (aspace k' { s.pt.proc i with
            sz := (s.pt.proc i).sz + n.toNat }).region v = none := by
          refine regionOf_eq_none.mpr fun j hj hv => ?_
          have hin' : ((s.pt.proc i).vmas j).start + ((s.pt.proc i).vmas j).length ≤
            (s.pt.proc i).sz := hA.wellFormed.inside j hj
          have := hv.2
          dsimp only [aspace] at this
          omega
        rw [Aspace.priv_eq_some hpage, Aspace.readOnly, hreg, hw, hu]
        exact if_pos hin
      · have hpage : (aspace k' { s.pt.proc i with sz := (s.pt.proc i).sz + n.toNat }).page v =
            (s.aspace i).page v := hg.upages_same hd hin
        exact (if_neg hin).trans (Aspace.priv_congr hpage fun _ => rfl).symm
    · exact ⟨rfl, fun hoom => absurd hoom (Nat.ne_of_gt hab.oom)⟩
  · have hkeep : sysSbrk n (s.pt.proc i) = pure (((s.pt.proc i).sz : Int), s.pt.proc i) := by
      rw [sysSbrk, growproc, if_neg (by omega), if_neg (by omega)]
      rfl
    rw [hkeep]
    refine .ret ⟨.same h.mem hvm, rfl, fun _ => ?_⟩
    rw [refSbrk, if_pos hzero.symm]
    rfl

/-! ### Processes -/

omit [Layout] in
/-- The view after `exit`, where the caller's record and memory may have changed
before. -/
theorem Sys.ref_exit (k' : Kmem) (t : Ptable) (ht : ∀ j, j ≠ i → t.proc j = s.pt.proc j)
    (hother : ∀ j, j ≠ i → ((t.exit i).proc j).live →
      Sys.aspace { s with k := k', pt := t.exit i } j = s.aspace j) :
    Sys.ref { s with k := k', pt := t.exit i } =
      ⟨t.erase.exit i, update s.ref.pages i fun _ => none⟩ := by
  have hpages : (Sys.ref { s with k := k', pt := t.exit i }).pages =
      update s.ref.pages i fun _ => none := by
    funext j
    by_cases hj : j = i
    · subst hj
      rw [update_self]
      exact if_neg fun hact => hact.2 (t.exit_self j)
    · rw [update_of_ne hj]
      refine Sys.ref_pages_same ?_ (hother j hj)
      obtain ⟨hstate, -⟩ := t.exit_other hj
      rw [ht j hj] at hstate
      dsimp only [Proc.active]
      rcases hstate with hs | ⟨hs, hs'⟩
      · rw [hs]
      · simp [hs, hs']
  rw [← hpages, ← t.exit_erase i]
  rfl

omit [Layout] in
theorem Sys.Unkilled.exit {k' : Kmem} {t : Ptable} (h : s.Unkilled)
    (ht : ∀ j, j ≠ i → t.proc j = s.pt.proc j) :
    Sys.Unkilled { s with k := k', pt := t.exit i } := by
  intro j hz
  by_cases hj : j = i
  · subst hj
    exact absurd (t.exit_self j) hz
  · obtain ⟨hstate, parent, heq⟩ := t.exit_other hj
    rw [ht j hj] at hstate heq
    have hz' : (s.pt.proc j).state ≠ .zombie := by
      rcases hstate with hs | ⟨hs, -⟩
      · intro hc
        exact hz (hs.trans hc)
      · simp [hs]
    show ((t.exit i).proc j).killed = false
    rw [heq]
    exact h j hz'

theorem exit_sim (hi : Alive s i) (hk : s.Unkilled) :
    Ends (Call.exit.run i) s (fun out s' => s'.k.oom = s.k.oom →
      UserCall.exit.ref i s.ref = .ok (out, s'.ref) ∧ s'.Unkilled) (fun _ => True) := by
  rw [Call.run, ends_bind, exit, ends_bind, ends_get, ends_ite]
  refine ⟨fun _ => (ends_throw ..).mpr trivial, fun hinit => ?_⟩
  rw [ends_modifyPt]
  refine .ret fun _ => ⟨?_, hk.exit fun _ _ => rfl⟩
  have hsame := Ptable.sameVm_exit hi.live
  have href := Sys.ref_exit (s := s) (i := i) s.k s.pt (fun _ _ => rfl)
    fun j _ hlive => Sys.aspace_congr hsame ((hsame j).live.mp hlive)
  have hexit : s.ref.exit i = .ok ⟨s.pt.erase.exit i, update s.ref.pages i fun _ => none⟩ :=
    if_neg hinit
  rw [href, UserCall.ref, hexit]
  rfl

section
variable (h : SysInv man s) (hi : Alive s i) (hk : s.Unkilled)
include h hi hk

theorem wait_sim :
    Ends (Call.wait.run i) s (fun out s' => s'.k.oom = s.k.oom →
      UserCall.wait.ref i s.ref = .ok (out, s'.ref) ∧ s'.Unkilled) := by
  have hki := hk.alive hi
  refine (syscall_alive (Q := fun out s' => s'.k.oom = s.k.oom →
    UserCall.wait.ref i s.ref = .ok (out, s'.ref) ∧ s'.Unkilled) hki
    ((wait_ends h).imp ?_)).imp (fun _ _ h' => h'.2)
  intro out s' hw
  have hscan : s.ref.pt.waitScan i = s.pt.waitScan i := s.pt.waitScan_erase i
  rw [UserCall.ref, RefSys.wait, hscan]
  cases hz : s.pt.waitScan i with
  | fail | block =>
    rw [hz] at hw
    obtain ⟨rfl, rfl⟩ := hw
    exact ⟨hki, fun _ => ⟨rfl, hk⟩⟩
  | zombie j =>
    rw [hz] at hw
    obtain ⟨rfl, k', rfl, -, hup, -⟩ := hw
    have hzj := (Ptable.waitScan_zombie hz).2
    have hij : i ≠ j := by
      rintro rfl
      exact hi.active.2 hzj
    have hunk : Sys.Unkilled { s with k := k', pt := s.pt.reap j } := hk.set fun _ => rfl
    refine ⟨?_, fun _ => ⟨?_, hunk⟩⟩
    · show ((s.pt.reap j).proc i).killed = false
      rw [Ptable.reap, Ptable.set_proc_of_ne _ _ hij]
      exact hki
    · have hpages : (Sys.ref { s with k := k', pt := s.pt.reap j }).pages = s.ref.pages := by
        funext j'
        by_cases hj : j' = j
        · -- neither a zombie nor a free slot has pages
          subst hj
          have hno : ¬ ((s.pt.reap j').proc j').active := by simp [Ptable.reap, Proc.active]
          exact (if_neg hno).trans (if_neg fun hact => hact.2 hzj).symm
        · have hsame : (s.pt.reap j).proc j' = s.pt.proc j' := Ptable.set_proc_of_ne _ _ hj
          refine Sys.ref_pages_same (by rw [hsame]) fun hlive => ?_
          have hlive' : (s.pt.proc j').live := by rwa [hsame] at hlive
          have hlj : (s.pt.proc j).live := by
            rw [Proc.live, hzj]
            simp
          have hne : (s.pt.proc j').pgdir ≠ (s.pt.proc j).pgdir := fun hc =>
            hj (h.pt.dir_inj j' j hlive' hlj hc)
          have hu := hup _ (Finset.mem_erase.mpr ⟨hne, hlive'.dir⟩)
          simp only [Sys.aspace, hsame, aspace, hu]
      have href : Sys.ref { s with k := k', pt := s.pt.reap j } =
          ⟨s.ref.pt.reap j, s.ref.pages⟩ := by
        rw [← hpages, show s.ref.pt.reap j = _ from (s.pt.reap_erase j).symm]
        rfl
      rw [href]
      rfl

/-- What `fork` does to the pages shows in neither the parent nor the child. -/
theorem ForkEnd.ref {r : Int} (hf : ForkEnd man i s r s') (hoom : s'.k.oom = s.k.oom) :
    s.ref.fork i = (.ret r, s'.ref) ∧ s'.Unkilled := by
  have halloc_ref : s.ref.pt.allocproc = s.pt.allocproc.map fun x => (x.1, x.2.erase) :=
    s.pt.allocproc_erase
  cases hf with
  | full hfull =>
    rw [hfull] at halloc_ref
    rw [RefSys.fork, halloc_ref]
    exact ⟨rfl, hk⟩
  | fail _ _ _ hfail => exact absurd hoom (Nat.ne_of_gt hfail)
  | @done j t kstack pgdir k' halloc hdir hstack hinv hparent hchild hother =>
    obtain ⟨htab, hcdir, -, hcsz, hcvmas, hcstate, hckilled, -⟩ :=
      ForkEnd.table halloc hi.live kstack pgdir
    obtain ⟨hun, ht⟩ := Ptable.allocproc_inv halloc
    rw [halloc] at halloc_ref
    have hij : i ≠ j := by
      rintro rfl
      exact hi.active.1 hun
    refine ⟨?_, fun j' hz => ?_⟩
    · have hpages : (Sys.ref { s with
          k := k', pt := (t.allocprocStack j kstack).forkCommit i j pgdir }).pages =
          update s.ref.pages j fun v =>
            if v * 4096 < (s.pt.proc i).sz then s.ref.pages i v else none := by
        funext j'
        by_cases hj : j' = j
        · subst hj
          rw [update_self, Sys.ref_pages hi.active,
            Sys.ref_pages (by simp [Proc.active, hcstate])]
          funext v
          have hpage : (Sys.aspace { s with
              k := k', pt := (t.allocprocStack j' kstack).forkCommit i j' pgdir } j').page v =
              if v * 4096 < (s.pt.proc i).sz then sharePage ((s.aspace i).page v) else none := by
            simp only [Sys.aspace, aspace, hcdir, hchild]
          by_cases hv : v * 4096 < (s.pt.proc i).sz
          · rw [if_pos hv] at hpage ⊢
            refine Aspace.priv_share hpage ?_
            simp only [Aspace.readOnly, Aspace.region, Sys.aspace, aspace, hcvmas]
          · rw [if_neg hv] at hpage ⊢
            exact Aspace.priv_eq_none.mpr hpage
        · rw [update_of_ne hj]
          have hsame := htab j' hj
          by_cases hji : j' = i
          · subst hji
            rw [Sys.ref_pages hi.active, Sys.ref_pages (by rw [hsame]; exact hi.active)]
            funext v
            have hpage : (Sys.aspace { s with
                k := k', pt := (t.allocprocStack j kstack).forkCommit j' j pgdir } j').page v =
                if v * 4096 < (s.pt.proc j').sz then sharePage ((s.aspace j').page v)
                else (s.aspace j').page v := by
              simp only [Sys.aspace, aspace, hsame, hparent]
            have hro : (Sys.aspace { s with
                k := k', pt := (t.allocprocStack j kstack).forkCommit j' j pgdir } j').readOnly v =
                (s.aspace j').readOnly v := by
              simp only [Aspace.readOnly, Aspace.region, Sys.aspace, aspace, hsame]
            by_cases hv : v * 4096 < (s.pt.proc j').sz
            · rw [if_pos hv] at hpage
              exact Aspace.priv_share hpage hro
            · rw [if_neg hv] at hpage
              exact Aspace.priv_congr hpage fun _ => hro
          · refine Sys.ref_pages_same (by rw [hsame]) fun hlive => ?_
            have hlive' : (s.pt.proc j').live := by rwa [hsame] at hlive
            have hne : (s.pt.proc j').pgdir ≠ (s.pt.proc i).pgdir := fun hc =>
              hji (h.pt.dir_inj j' i hlive' hi.live hc)
            simp only [Sys.aspace, hsame, aspace, hother _ (hlive'.dir) hne]
      have hpt : ((t.allocprocStack j kstack).forkCommit i j pgdir).erase =
          (t.erase.allocprocStack j 0).forkCommit i j 0 := by
        rw [Ptable.forkCommit_erase, Ptable.allocprocStack_erase]
      rw [RefSys.fork, halloc_ref]
      refine congrArg (Prod.mk _) (congrArg₂ RefSys.mk hpt.symm ?_)
      exact hpages.symm
    · by_cases hj : j' = j
      · subst hj
        exact hckilled.trans (hk j' (by simp [hun]))
      · have hsame := htab j' hj
        dsimp only at hz ⊢
        rw [hsame] at hz ⊢
        exact hk j' hz

theorem fork_sim :
    Ends (Call.fork.run i) s (fun out s' => s'.k.oom = s.k.oom →
      UserCall.fork.ref i s.ref = .ok (out, s'.ref) ∧ s'.Unkilled) := by
  have hki := hk.alive hi
  refine (syscall_alive (Q := fun out s' => s'.k.oom = s.k.oom →
    UserCall.fork.ref i s.ref = .ok (out, s'.ref) ∧ s'.Unkilled) hki
    ((ends_map ..).mpr ((fork_ends h hi.live).imp ?_))).imp (fun _ _ h' => h'.2)
  intro r s' hf
  refine ⟨?_, fun hoom => ?_⟩
  · cases hf with
    | full => exact hki
    | fail _ _ _ _ _ hself => rw [hself, hki]
    | @done j t kstack pgdir _ halloc =>
      have hij : i ≠ j := by
        rintro rfl
        exact hi.active.1 (Ptable.allocproc_inv halloc).1
      rw [(ForkEnd.table halloc hi.live kstack pgdir).1 i hij, hki]
  · obtain ⟨href, hk'⟩ := hf.ref h hi hk hoom
    exact ⟨congrArg Except.ok href, hk'⟩

end

/-! ### Loads and stores -/

section
variable {A A' : Aspace} {v : Nat} {write : Bool}

omit [Layout]

/-- A reference access goes through where the kernel's does, and finds the page the
kernel has brought in. -/
theorem Fetched.access (hA : A.Good) (hreach : A.Reaches v write) (hf : Fetched A v A') :
    A.priv.access A.vmas v write = some A'.priv := by
  unfold Aspace.Reaches at hreach
  cases hp : A.page v with
  | none =>
    rw [hp] at hreach
    obtain ⟨r, hr, hw⟩ := hreach
    cases hf with
    | hit hpage | resolve _ hpage => exact absurd (hp.symm.trans hpage) (by simp)
    | @demand r' e hr' _ hwe hu hcow =>
      obtain rfl := Option.some.inj (hr.symm.trans hr')
      have hcan : (!write || canWrite r.prot) = true := by
        cases hwr : write with
        | false => rfl
        | true => simpa using hw hwr
      rw [Pages.access, Aspace.priv_eq_none.mpr hp]
      dsimp only
      rw [show regionOf A.vmas v = some r from hr]
      dsimp only
      rw [if_pos hcan]
      refine congrArg some (funext fun v' => ?_)
      by_cases hv : v' = v
      · subst hv
        rw [update_self, Aspace.priv_eq_some (A.setPage_self ..), hwe, hu, hcow]
        show _ = some (RefPage.mk (_ && !(A.readOnly v')) _ _)
        rw [Aspace.readOnly, hr, Option.any_some, Bool.not_not, Bool.or_false, Bool.and_self]
        rfl
      · rw [update_of_ne hv]
        exact (Aspace.priv_congr (A.setPage_of_ne _ hv) fun _ => rfl).symm
  | some x =>
    obtain ⟨e, pg⟩ := x
    rw [hp] at hreach
    obtain ⟨hu, hw⟩ := hreach
    have hok : (has e .u && (!write || ((has e .w || has e .cow) && !A.readOnly v))) = true := by
      rw [hu, Bool.true_and]
      cases hwr : write with
      | false => rfl
      | true =>
        rcases hw hwr with hww | ⟨hcow, hro⟩
        · rw [hww, hA.readOnly_of_w hp hww]
          rfl
        · rw [hcow, hro]
          simp
    rw [Pages.access, Aspace.priv_eq_some hp]
    refine (if_pos hok).trans (congrArg some ?_)
    cases hf with
    | hit => rfl
    | demand _ habs => exact absurd (habs.symm.trans hp) (by simp)
    | @resolve e1 e' pg1 hro hpage hcow hw' hu' hcow' =>
      obtain ⟨rfl, rfl⟩ := Prod.mk.inj (Option.some.inj (hp.symm.trans hpage))
      funext v'
      by_cases hv : v' = v
      · subst hv
        rw [Aspace.priv_eq_some hp, Aspace.priv_eq_some (A.setPage_self ..), hcow, hw', hu']
        show some (RefPage.mk (_ && !(A.readOnly v')) _ _) = some ⟨_ && !(A.readOnly v'), _, _⟩
        rw [Bool.or_true, Bool.true_or]
      · exact (Aspace.priv_congr (A.setPage_of_ne _ hv) fun _ => rfl).symm

/-- A reference access fails where the kernel's does. -/
theorem Aspace.access_none (hno : ¬ A.Reaches v write) :
    A.priv.access A.vmas v write = none := by
  unfold Aspace.Reaches at hno
  cases hp : A.page v with
  | none =>
    rw [hp] at hno
    rw [Pages.access, Aspace.priv_eq_none.mpr hp]
    dsimp only
    cases hr : regionOf A.vmas v with
    | none => rfl
    | some r =>
      refine if_neg fun hcan => hno ⟨r, hr, fun hw => ?_⟩
      simpa [hw] using hcan
  | some x =>
    obtain ⟨e, pg⟩ := x
    rw [hp] at hno
    rw [Pages.access, Aspace.priv_eq_some hp]
    refine if_neg fun hok => hno ?_
    simp only [Bool.and_eq_true, Bool.or_eq_true, Bool.not_eq_true'] at hok
    refine ⟨hok.1, fun hw => ?_⟩
    rcases hok.2 with hr | ⟨hwc, hro⟩
    · exact absurd (hw.symm.trans hr) (by simp)
    · rcases hwc with hww | hcow
      · exact .inl hww
      · exact .inr ⟨hcow, hro⟩

theorem Fetched.priv_data (hf : Fetched A v A') : A'.priv.data v = A.contents v := by
  obtain ⟨e, he⟩ := hf.page
  rw [Pages.data, Aspace.priv_eq_some he]

end

variable {va : Word} {b : Byte}

theorem Touching.ref {k' : Kmem} (hi : Alive s i) (hT : Touching man i s { s with k := k' }) :
    Sys.ref { s with k := k' } =
      ⟨s.ref.pt, update s.ref.pages i (Sys.aspace { s with k := k' } i).priv⟩ := by
  refine congrArg (RefSys.mk _) (funext fun j => ?_)
  by_cases hj : j = i
  · subst hj
    rw [update_self]
    exact if_pos hi.active
  · rw [update_of_ne hj]
    have hact : (Sys.pt { s with k := k' } |>.proc j).active ↔ (s.pt.proc j).active := Iff.rfl
    exact Sys.ref_pages_same hact fun hlive => (hT.other j hj hlive).2

/-- A process that is killed for an access is killed in both systems. -/
theorem Accessed.die {write : Bool} (hi : Alive s i) (hk : s.Unkilled)
    (ha : Accessed man i va write s .killed s') (hoom : s'.k.oom = s.k.oom) :
    s.ref.die i = .ok (.killed, s'.ref) ∧ s'.Unkilled ∧
      (s.ref.pages i).access (s.ref.pt.proc i).vmas (vpn va.toNat) write = none := by
  cases ha with
  | @killed k' hT hwhy hinit =>
    have hother : ∀ j, j ≠ i → (s.pt.set i (s.pt.proc i).kill).proc j = s.pt.proc j :=
      fun j hj => Ptable.set_proc_of_ne _ _ hj
    refine ⟨?_, hk.exit hother, ?_⟩
    · rw [Sys.ref_exit k' _ hother fun j hj hlive => (hT.other j hj hlive).2]
      have hexit : (RefSys.exit { s.ref with
          pt := s.ref.pt.set i (s.ref.pt.proc i).kill } i) =
          .ok ⟨(s.pt.set i (s.pt.proc i).kill).erase.exit i,
            update s.ref.pages i fun _ => none⟩ := by
        rw [Ptable.erase_set]
        exact if_neg hinit
      rw [RefSys.die, hexit]
      rfl
    · rw [Sys.ref_pages hi.active]
      rcases hwhy with ⟨-, hno⟩ | ⟨hlt, -⟩
      · exact Aspace.access_none hno
      · exact absurd hoom (Nat.ne_of_gt hlt)

theorem load_sim (h : SysInv man s) (hi : Alive s i) (hA : (s.aspace i).Good) (hk : s.Unkilled) :
    Ends ((Call.load va).run i) s (fun out s' => s'.k.oom = s.k.oom →
      (UserCall.load va).ref i s.ref = .ok (out, s'.ref) ∧ s'.Unkilled) (fun _ => True) := by
  refine (load_ends h hi.live (hk.alive hi)).mono ?_ (fun _ _ => trivial)
  intro out s' hl hoom
  rw [UserCall.ref, RefSys.load]
  cases hl with
  | killed ha =>
    obtain ⟨hdie, hk', hacc⟩ := ha.die hi hk hoom
    rw [hacc]
    exact ⟨hdie, hk'⟩
  | done hT _ _ hreach hf =>
    have hacc := hf.access hA hreach
    rw [← Sys.ref_pages hi.active] at hacc
    rw [show (s.ref.pt.proc i).vmas = (s.aspace i).vmas from rfl, hacc, hT.ref hi]
    dsimp only
    rw [hf.priv_data]
    exact ⟨rfl, hk⟩

theorem store_sim (h : SysInv man s) (hi : Alive s i) (hA : (s.aspace i).Good) (hk : s.Unkilled) :
    Ends ((Call.store va b).run i) s (fun out s' => s'.k.oom = s.k.oom →
      (UserCall.store va b).ref i s.ref = .ok (out, s'.ref) ∧ s'.Unkilled) (fun _ => True) := by
  refine (store_ends h hi.live (hk.alive hi)).mono ?_ (fun _ _ => trivial)
  intro out s' hst hoom
  rw [UserCall.ref, RefSys.store]
  cases hst with
  | killed ha =>
    obtain ⟨hdie, hk', hacc⟩ := ha.die hi hk hoom
    rw [hacc]
    exact ⟨hdie, hk'⟩
  | @done k' A e hT _ _ hreach hf hpage hw hu hA' =>
    have hacc := hf.access hA hreach
    rw [← Sys.ref_pages hi.active] at hacc
    have hset : A.priv.setData (vpn va.toNat)
        (setByte (A.priv.data (vpn va.toNat)) (va.toNat % pgsize) b) =
        (Sys.aspace { s with k := k' } i).priv := by
      rw [hA', hf.priv_data]
      funext v
      by_cases hv : v = vpn va.toNat
      · subst hv
        rw [Pages.setData, update_self, Aspace.priv_eq_some hpage,
          Aspace.priv_eq_some (A.setPage_self ..)]
        rfl
      · rw [Pages.setData, update_of_ne hv]
        exact (Aspace.priv_congr (A.setPage_of_ne _ hv) fun _ => rfl).symm
    rw [show (s.ref.pt.proc i).vmas = (s.aspace i).vmas from rfl, hacc, hT.ref hi]
    dsimp only
    rw [hset]
    exact ⟨rfl, hk⟩

/-! ### Runs -/

omit [Layout] in
theorem UserCall.noShrink (c : UserCall) (A : Aspace) : NoShrink c.toCall A := by
  intro n hc
  cases c with
  | sbrk m hm =>
    obtain rfl : m = n := by simpa [UserCall.toCall] using hc
    exact hm
  | _ => exact absurd hc (by simp [UserCall.toCall])

/-- What the simulation keeps: the state is reachable, and no process that can
still run is marked killed. -/
structure Simulable (s : Sys) : Prop where
  runs : Runs NoShrink s
  unkilled : s.Unkilled

/-- One step of the kernel is a step of the reference system between the views. -/
theorem CowStep.ref {l : Fin nproc × UserCall × Out} (h : Simulable s) (hstep : CowStep s l s') :
    RefStep s.ref l s'.ref ∧ Simulable s' := by
  obtain ⟨i, c, out⟩ := l
  obtain ⟨hi, hrun, hoom⟩ := hstep
  dsimp only at hi hrun
  have hA := (h.runs.mono fun _ _ hc => hc.keepsRegions).good hi.live
  obtain ⟨man, hinv⟩ := h.runs.inv
  have hk := h.unkilled
  have hsim : c.ref i s.ref = .ok (out, s'.ref) ∧ s'.Unkilled := by
    cases c with
    | fork => exact (fork_sim hinv hi hk).of_ok hrun hoom
    | exit => exact (exit_sim hi hk).of_ok hrun hoom
    | wait => exact (wait_sim hinv hi hk).of_ok hrun hoom
    | mmap n => exact (mmap_sim hinv hi hA hk).of_ok hrun hoom
    | munmap addr n => exact (munmap_sim hinv hi hk).of_ok hrun hoom
    | mprotect addr n prot => exact (mprotect_sim hinv hi hA hk).of_ok hrun hoom
    | sbrk n hn => exact (sbrk_sim hn hinv hi hA hk).of_ok hrun hoom
    | load va => exact (load_sim hinv hi hA hk).of_ok hrun hoom
    | store va b => exact (store_sim hinv hi hA hk).of_ok hrun hoom
  exact ⟨⟨hi, hsim.1⟩, h.runs.call hi (c.noShrink _) hrun, hsim.2⟩

/-- Copy-on-write cannot be observed. From any reachable state in which no process is
marked killed, every run of calls in which no allocation fails is, with the same
results, a run of the reference system. At its end a store of one process leaves
every other address space as it is, and a load from a page of a region that is not
resident reads zero. -/
theorem cow_unobservable (h : Runs NoShrink s) (hk : s.Unkilled)
    {ls : List (Fin nproc × UserCall × Out)} (hls : Trace CowStep s ls s') :
    Trace RefStep s.ref ls s'.ref ∧
    (∀ i va b out s'', CowStep s' (i, .store va b, out) s'' → ∀ j, j ≠ i →
      (s''.pt.proc j).live → s''.aspace j = s'.aspace j) ∧
    (∀ i va out s'', CowStep s' (i, .load va, out) s'' →
      (s'.aspace i).page (vpn va.toNat) = none → (s'.aspace i).region (vpn va.toNat) ≠ none →
      out = .byte 0#8) := by
  have hsim : ∀ s1 r l s2, Simulable s1 ∧ r = s1.ref → CowStep s1 l s2 →
      ∃ r', RefStep r l r' ∧ Simulable s2 ∧ r' = s2.ref := by
    rintro s1 _ l s2 ⟨h1, rfl⟩ hstep
    obtain ⟨hr, h2⟩ := hstep.ref h1
    exact ⟨_, hr, h2, rfl⟩
  obtain ⟨_, htrace, h', rfl⟩ := hls.simulate hsim ⟨⟨h, hk⟩, rfl⟩
  obtain ⟨man, hinv⟩ := h'.runs.inv
  refine ⟨htrace, fun i va b out s'' hstep j hj hlive => ?_, fun i va out s'' hstep habs hreg => ?_⟩
  · obtain ⟨hi, hrun, -⟩ := hstep
    have hst : Stored man i va b s' out s'' :=
      (store_ends hinv hi.live (h'.unkilled.alive hi)).of_ok hrun
    cases hst with
    | done hT => exact (hT.other j hj hlive).2
    | killed ha =>
      cases ha with
      | killed hT => exact (hT.other j hj hlive).2
  · obtain ⟨hi, hrun, hoom⟩ := hstep
    have hl : Loaded man i va s' out s'' :=
      (load_ends hinv hi.live (h'.unkilled.alive hi)).of_ok hrun
    cases hl with
    | done =>
      rw [Aspace.contents, habs]
      exact congrArg Out.byte (getByte_zero _)
    | killed ha =>
      obtain ⟨r, hr⟩ := Option.ne_none_iff_exists'.mp hreg
      have hreach : (s'.aspace i).Reaches (vpn va.toNat) false := by
        rw [Aspace.Reaches, habs]
        exact ⟨r, hr, by simp⟩
      cases ha with
      | killed _ hwhy =>
        rcases hwhy with ⟨-, hno⟩ | ⟨hlt, -⟩
        · exact absurd hreach hno
        · exact absurd hoom (Nat.ne_of_gt hlt)

theorem Booted.unkilled (h : Booted s) : s.Unkilled := fun i _ => (h.proc.2 i).1

end

/-- A `fork`, a store of the child, and loads of both. -/
def forkedCalls (j : Fin nproc) (x : Byte) : List (Fin nproc × UserCall × Out) :=
  [(initSlot, .fork, .ret 2), (j, .store 0#32 (x + 1), .done), (initSlot, .load 0#32, .byte x),
    (j, .load 0#32, .byte (x + 1))]

theorem cow_unobservable_forked : let _ : Layout := Layout.sample
    ∃ s s' j x, Booted s ∧ j ≠ initSlot ∧ Trace CowStep s (forkedCalls j x) s' ∧
      Trace RefStep s.ref (forkedCalls j x) s'.ref := by
  let _ : Layout := Layout.sample
  obtain ⟨s0, hb⟩ := sample_boots
  obtain ⟨man, j, s1, hj, hrun1, h1, hoom1, hfree1, hpages, -⟩ := hb.fork
  let x := getByte ((s0.aspace initSlot).contents 0) 0
  obtain ⟨s2, hrun2, h2, hoom2, hfree2, ⟨e, hpage, -⟩, hsame2⟩ :=
    h1.store (i := j) (.inr rfl) (by omega) (x + 1)
  obtain ⟨s3, hrun3, h3, hoom3, hfree3, hsame3⟩ :=
    h2.load (i := initSlot) (.inl rfl) (by omega)
  obtain ⟨s4, hrun4, h4, hoom4, -⟩ := h3.load (i := j) (.inr rfl) (by omega)
  have hparent : getByte ((s2.aspace initSlot).contents 0) 0 = x := by
    obtain ⟨e, he, -⟩ := hpages _ (.inl rfl)
    rw [hsame2 _ (.inl rfl) hj.symm, Aspace.contents, he]
  have hchild : getByte ((s3.aspace j).contents 0) 0 = x + 1 := by
    rw [hsame3 _ (.inr rfl), Aspace.contents, hpage]
    exact (getByte_setByte ..).trans (if_pos rfl)
  rw [hparent] at hrun3
  rw [hchild] at hrun4
  have hls : Trace CowStep s0 (forkedCalls j x) s4 :=
    .cons ⟨hb.ok.choose_spec.alive, hrun1, hoom1⟩ (.cons ⟨h1.alive (.inr rfl), hrun2, hoom2⟩
      (.cons ⟨h2.alive (.inl rfl), hrun3, hoom3⟩ (.cons ⟨h3.alive (.inr rfl), hrun4, hoom4⟩
        (.nil _))))
  exact ⟨s0, s4, j, x, hb, hj, hls, (cow_unobservable (.start hb) hb.unkilled hls).1⟩

end Xv6
