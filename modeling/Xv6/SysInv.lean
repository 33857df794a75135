import Mathlib.Data.Finset.Image
import Mathlib.Data.Fintype.Basic
import Xv6.Aspace.Calls

/-!
# Xv6.SysInv

The invariant of the whole system, and what a call may do to it.

`SysInv` ties the process table to memory: the live page directories are those of
the used slots and the scheduler's, no two of them are the same, and the same
holds for the kernel stacks. `Step` is the effect of a call: the caller's address
space makes a `Change`, a new process is a `fork` of the caller, and no other address
space moves. That every call is one is `run_spec` in `Xv6.SysRun`.
-/

namespace Xv6

open Function (update)

/-! ### The process table and memory -/

/-- The slot is in use. -/
def Proc.live (p : Proc) : Prop := p.state ≠ .unused

instance (p : Proc) : Decidable p.live := inferInstanceAs (Decidable (_ ≠ _))

namespace Ptable

/-- The slots in use. -/
def used (t : Ptable) : Finset (Fin nproc) := Finset.univ.filter fun i => (t.proc i).live

/-- The live page directories. -/
def dirs (kpgdir : Nat) (t : Ptable) : Finset Nat :=
  insert kpgdir (t.used.image fun i => (t.proc i).pgdir)

/-- The kernel stacks in use. -/
def kstacks (t : Ptable) : Finset Nat := t.used.image fun i => (t.proc i).kstack

theorem mem_dirs {kpgdir d : Nat} {t : Ptable} :
    d ∈ t.dirs kpgdir ↔ d = kpgdir ∨ ∃ i, (t.proc i).live ∧ (t.proc i).pgdir = d := by
  simp [dirs, used]

theorem mem_kstacks {f : Nat} {t : Ptable} :
    f ∈ t.kstacks ↔ ∃ i, (t.proc i).live ∧ (t.proc i).kstack = f := by
  simp [kstacks, used]

end Ptable

/-- The slots in use have their own directories and stacks, and well-formed
regions. -/
structure PtOk (kpgdir : Nat) (t : Ptable) : Prop where
  dir_ne : ∀ i, (t.proc i).live → (t.proc i).pgdir ≠ kpgdir
  dir_inj : ∀ i j, (t.proc i).live → (t.proc j).live → (t.proc i).pgdir = (t.proc j).pgdir → i = j
  stack_inj : ∀ i j, (t.proc i).live → (t.proc j).live →
    (t.proc i).kstack = (t.proc j).kstack → i = j
  vmas : ∀ i, (t.proc i).live → VmasOk (t.proc i).sz (t.proc i).vmas

/-- The invariant of the system. -/
structure SysInv [Layout] (man : Nat → Prop) (s : Sys) : Prop where
  mem : Inv man (s.pt.dirs s.kpgdir) s.pt.kstacks s.k
  pt : PtOk s.kpgdir s.pt

/-- The address space of a process. -/
def Sys.aspace (s : Sys) (i : Fin nproc) : Aspace := Xv6.aspace s.k (s.pt.proc i)

/-- What a call of process `i` has done to the address spaces. -/
structure Step (c : Call) (i : Fin nproc) (s s' : Sys) : Prop where
  self : (s'.pt.proc i).live ∧ Change (s.aspace i) c (s'.aspace i)
  other : ∀ j, j ≠ i → (s'.pt.proc j).live →
    ((s.pt.proc j).live ∧ s'.aspace j = s.aspace j) ∨
      (¬ (s.pt.proc j).live ∧ c = .fork ∧ s'.aspace j = (s.aspace i).fork)

/-- The ways in which a call of a process with address space `A` can stop the
machine. -/
inductive Halts (A : Aspace) : Call → Panic → Prop
  /-- The heap grows over a page that is present. -/
  | remap {n : Word} {v : Nat} (hn : 0 < n.toInt) (hlo : A.sz ≤ v * 4096)
      (hhi : v * 4096 < A.sz + n.toNat) (hv : A.page v ≠ none) : Halts A (.sbrk n) .remap
  /-- A kernel-mode fault. -/
  | pageFault {a : Access} (hu : a.user = false)
      (hread : a.write = false → A.page (vpn a.va.toNat) = none ∧
        A.region (vpn a.va.toNat) = none) : Halts A (.access a) .pageFault
  | initExiting {c : Call} : Halts A c .initExiting

variable [Layout] {man : Nat → Prop} {s s' : Sys} {i : Fin nproc}

/-! ### Table updates that leave memory alone -/

/-- The slot owns the same memory; what an unused slot says does not matter. -/
structure Proc.SameOwn (p q : Proc) : Prop where
  live : q.live ↔ p.live
  own : p.live → q.pgdir = p.pgdir ∧ q.kstack = p.kstack

/-- Nothing that has to do with memory has changed in a slot. -/
structure Proc.SameVm (p q : Proc) : Prop extends Proc.SameOwn p q where
  vm : p.live → q.sz = p.sz ∧ q.vmas = p.vmas

section
omit [Layout]

theorem Proc.SameVm.of_eq {p q : Proc} (hlive : q.live ↔ p.live) (hdir : q.pgdir = p.pgdir)
    (hstack : q.kstack = p.kstack) (hsz : q.sz = p.sz) (hvmas : q.vmas = p.vmas) : p.SameVm q :=
  ⟨⟨hlive, fun _ => ⟨hdir, hstack⟩⟩, fun _ => ⟨hsz, hvmas⟩⟩

theorem Proc.SameVm.of_unused {p q : Proc} (hp : ¬ p.live) (hq : ¬ q.live) : p.SameVm q :=
  ⟨⟨⟨fun h => absurd h hq, fun h => absurd h hp⟩, fun h => absurd h hp⟩, fun h => absurd h hp⟩

theorem Proc.SameOwn.refl (p : Proc) : p.SameOwn p := ⟨Iff.rfl, fun _ => ⟨rfl, rfl⟩⟩

theorem Proc.SameVm.refl (p : Proc) : p.SameVm p := ⟨.refl p, fun _ => ⟨rfl, rfl⟩⟩

theorem Proc.SameVm.trans {p q r : Proc} (h : p.SameVm q) (h' : q.SameVm r) : p.SameVm r := by
  refine ⟨⟨h'.live.trans h.live, fun hp => ?_⟩, fun hp => ?_⟩
  · have hq := h.live.mpr hp
    exact ⟨(h'.own hq).1.trans (h.own hp).1, (h'.own hq).2.trans (h.own hp).2⟩
  · have hq := h.live.mpr hp
    exact ⟨(h'.vm hq).1.trans (h.vm hp).1, (h'.vm hq).2.trans (h.vm hp).2⟩

end

/-- The slots own the same memory. -/
def Ptable.SameOwn (t t' : Ptable) : Prop := ∀ i, (t.proc i).SameOwn (t'.proc i)

/-- Nothing that has to do with memory has changed in the table. -/
def Ptable.SameVm (t t' : Ptable) : Prop := ∀ i, (t.proc i).SameVm (t'.proc i)

namespace Ptable

variable {t t' : Ptable}

omit [Layout]

theorem SameVm.refl (t : Ptable) : t.SameVm t := fun _ => .refl _

theorem SameVm.trans {t'' : Ptable} (h : t.SameVm t') (h' : t'.SameVm t'') : t.SameVm t'' :=
  fun i => (h i).trans (h' i)

theorem SameVm.set {p : Proc} (h : (t.proc i).SameVm p) : t.SameVm (t.set i p) := by
  intro j
  by_cases he : j = i
  · subst he
    rw [set_proc_self]
    exact h
  · rw [set_proc_of_ne _ _ he]
    exact .refl _

theorem Woken.sameVm (h : t.Woken t') : t.SameVm t' := by
  intro j
  obtain ⟨parent, hj⟩ := h.rest j
  have hlive : (t'.proc j).live ↔ (t.proc j).live := by
    rcases h.state j with hs | ⟨hs, hs'⟩
    · rw [Proc.live, Proc.live, hs]
    · simp [Proc.live, hs, hs']
  refine .of_eq hlive ?_ ?_ ?_ ?_
  all_goals rw [hj]

theorem sameVm_exit (hlive : (t.proc i).live) : t.SameVm (t.exit i) := by
  obtain ⟨t1, hw, heq⟩ := t.exit_eq i
  rw [heq]
  refine hw.sameVm.trans (.set (.of_eq ?_ rfl rfl rfl rfl))
  rw [(hw.sameVm i).live]
  exact ⟨fun _ => hlive, fun _ => by simp [Proc.live]⟩

theorem sameVm_kill (t : Ptable) (pid : Int) : t.SameVm (t.kill pid).2 := by
  unfold kill
  split
  · refine .set (.of_eq ?_ rfl rfl rfl rfl)
    simp only [Proc.live]
    split
    · next hs => simp [hs]
    · exact Iff.rfl
  · exact .refl t

theorem SameVm.own (h : t.SameVm t') : t.SameOwn t' := fun i => (h i).toSameOwn

theorem SameOwn.set {p : Proc} (h : (t.proc i).SameOwn p) : t.SameOwn (t.set i p) := by
  intro j
  by_cases he : j = i
  · subst he
    rw [set_proc_self]
    exact h
  · rw [set_proc_of_ne _ _ he]
    exact .refl _

theorem SameOwn.dirs_eq (h : t.SameOwn t') (kpgdir : Nat) : t'.dirs kpgdir = t.dirs kpgdir := by
  ext d
  simp only [mem_dirs, (h _).live]
  refine or_congr Iff.rfl (exists_congr fun j => and_congr_right fun hj => ?_)
  rw [((h j).own hj).1]

theorem SameOwn.kstacks_eq (h : t.SameOwn t') : t'.kstacks = t.kstacks := by
  ext f
  simp only [mem_kstacks, (h _).live]
  refine exists_congr fun j => and_congr_right fun hj => ?_
  rw [((h j).own hj).2]

end Ptable

omit [Layout] in
theorem PtOk.congr {kpgdir : Nat} {t t' : Ptable} (h : PtOk kpgdir t) (hs : t.SameOwn t')
    (hvmas : ∀ i, (t'.proc i).live → VmasOk (t'.proc i).sz (t'.proc i).vmas) :
    PtOk kpgdir t' where
  dir_ne j hj := by
    have hj := (hs j).live.mp hj
    rw [((hs j).own hj).1]
    exact h.dir_ne j hj
  dir_inj j j' hj hj' he := by
    have hj := (hs j).live.mp hj
    have hj' := (hs j').live.mp hj'
    rw [((hs j).own hj).1, ((hs j').own hj').1] at he
    exact h.dir_inj j j' hj hj' he
  stack_inj j j' hj hj' he := by
    have hj := (hs j).live.mp hj
    have hj' := (hs j').live.mp hj'
    rw [((hs j).own hj).2, ((hs j').own hj').2] at he
    exact h.stack_inj j j' hj hj' he
  vmas := hvmas

/-- New memory and a new table, with the same owners. -/
theorem SysInv.congr {k' : Kmem} {t' : Ptable} (h : SysInv man s) (hs : s.pt.SameOwn t')
    (hmem : Inv man (s.pt.dirs s.kpgdir) s.pt.kstacks k')
    (hvmas : ∀ i, (t'.proc i).live → VmasOk (t'.proc i).sz (t'.proc i).vmas) :
    SysInv man { s with k := k', pt := t' } :=
  ⟨by
    show Inv man (t'.dirs s.kpgdir) t'.kstacks k'
    rw [hs.dirs_eq, hs.kstacks_eq]
    exact hmem, h.pt.congr hs hvmas⟩

theorem SysInv.congr_pt {t' : Ptable} (h : SysInv man s) (hs : s.pt.SameVm t') :
    SysInv man { s with pt := t' } := by
  refine h.congr hs.own h.mem fun j hj => ?_
  have hj := (hs j).live.mp hj
  rw [((hs j).vm hj).1, ((hs j).vm hj).2]
  exact h.pt.vmas j hj

omit [Layout] in
theorem Sys.aspace_congr {t' : Ptable} (hs : s.pt.SameVm t') {j : Fin nproc}
    (hj : (s.pt.proc j).live) : Sys.aspace { s with pt := t' } j = s.aspace j := by
  simp only [Sys.aspace, Xv6.aspace, ((hs j).vm hj).1, ((hs j).vm hj).2, ((hs j).own hj).1]

omit [Layout] in
theorem Proc.live.dir (hi : (s.pt.proc i).live) : (s.pt.proc i).pgdir ∈ s.pt.dirs s.kpgdir :=
  Ptable.mem_dirs.mpr (.inr ⟨i, hi, rfl⟩)

/-! ### Steps -/

namespace Step

variable {c : Call}

omit [Layout]

theorem same (hi : (s.pt.proc i).live) : Step c i s s :=
  ⟨⟨hi, .same⟩, fun _ _ hj => .inl ⟨hj, rfl⟩⟩

/-- A step followed by a table update that leaves memory alone. -/
theorem then_pt {t' : Ptable} (h : Step c i s s') (hs : s'.pt.SameVm t') :
    Step c i s { s' with pt := t' } := by
  refine ⟨⟨(hs i).live.mpr h.self.1, ?_⟩, fun j hj hlive => ?_⟩
  · rw [Sys.aspace_congr hs h.self.1]
    exact h.self.2
  · have hlive := (hs j).live.mp hlive
    rw [Sys.aspace_congr hs hlive]
    exact h.other j hj hlive

end Step

/-! ### Calls on the record of one process -/

omit [Layout] in
theorem live_of_state {p p' : Proc} (h : p'.state = p.state) : p'.live ↔ p.live := by
  rw [Proc.live, h, Proc.live]

theorem SysInv.moved {c : Call} {k' : Kmem} {p' : Proc} (h : SysInv man s)
    (hi : (s.pt.proc i).live)
    (hm : Moved man (s.pt.dirs s.kpgdir) s.pt.kstacks c s.k (s.pt.proc i) k' p') :
    SysInv man { s with k := k', pt := s.pt.set i p' } ∧
      Step c i s { s with k := k', pt := s.pt.set i p' } := by
  have hlive := live_of_state hm.state
  refine ⟨h.congr (.set ⟨hlive, fun _ => ⟨hm.pgdir, hm.kstack⟩⟩) hm.toLocal.inv fun j hj => ?_,
    ⟨?_, ?_⟩, fun j hj hlj => ?_⟩
  · by_cases he : j = i
    · subst he
      rw [Ptable.set_proc_self]
      exact hm.vmas
    · rw [Ptable.set_proc_of_ne _ _ he] at hj ⊢
      exact h.pt.vmas j hj
  · rw [Ptable.set_proc_self]
    exact hlive.mpr hi
  · rw [Sys.aspace, Sys.aspace, Ptable.set_proc_self]
    exact hm.change
  · rw [Ptable.set_proc_of_ne _ _ hj] at hlj
    refine .inl ⟨hlj, ?_⟩
    have hne : (s.pt.proc j).pgdir ≠ (s.pt.proc i).pgdir :=
      fun he => hj (h.pt.dir_inj j i hlj hi he)
    rw [Sys.aspace, Sys.aspace, Ptable.set_proc_of_ne _ _ hj, aspace, aspace,
      hm.toLocal.others _ hlj.dir hne]

section
variable {α : Type} {Q : α → Sys → Prop} {E : Panic → Prop}

omit [Layout]

@[simp] theorem ends_onMem {m : KM α} :
    Ends (onMem m) s Q E ↔ Ends m s.k (fun a k => Q a { s with k := k }) E := by
  rw [onMem, ends_focus]

@[simp] theorem ends_modifyPt {f : Ptable → Ptable} {Q : Unit → Sys → Prop} :
    Ends (modifyPt f) s Q E ↔ Q () { s with pt := f s.pt } := by
  rw [modifyPt, ends_modify]

theorem ends_onProc {f : Proc → KM (α × Proc)} :
    Ends (onProc i f) s Q E ↔ Ends (f (s.pt.proc i)) s.k
      (fun r k => Q r.1 { s with k := k, pt := s.pt.set i r.2 }) E := by
  rw [onProc]
  simp only [ends_bind, ends_get, ends_onMem, ends_modifyPt, ends_pure]

end

/-- The shape of every specification below: the invariant is kept, and the call is
a step. -/
def Stepped (man : Nat → Prop) (c : Call) (i : Fin nproc) (s s' : Sys) : Prop :=
  SysInv man s' ∧ Step c i s s'

theorem Stepped.same {c : Call} (h : SysInv man s) (hi : (s.pt.proc i).live) :
    Stepped man c i s s := ⟨h, .same hi⟩

theorem Stepped.then_pt {c : Call} {t' : Ptable} (h : Stepped man c i s s')
    (hs : s'.pt.SameVm t') : Stepped man c i s { s' with pt := t' } :=
  ⟨h.1.congr_pt hs, h.2.then_pt hs⟩

theorem onProc_spec {α : Type} {c : Call} {f : Proc → KM (α × Proc)} {E : Panic → Prop}
    (h : SysInv man s) (hi : (s.pt.proc i).live)
    (hf : Ends (f (s.pt.proc i)) s.k (fun r k' =>
      Moved man (s.pt.dirs s.kpgdir) s.pt.kstacks c s.k (s.pt.proc i) k' r.2) E) :
    Ends (onProc i f) s (fun _ s' => Stepped man c i s s') E := by
  rw [ends_onProc]
  exact hf.imp (fun r k' hm => h.moved hi hm)

/-! ### `exit` and `kill` -/

theorem exit_spec {c : Call} {A : Aspace} (h : Stepped man c i s s') :
    Ends (exit i) s' (fun _ s'' => Stepped man c i s s'') (Halts A c) := by
  rw [exit, ends_bind, ends_get, ends_ite]
  refine ⟨fun _ => ?_, fun _ => ?_⟩
  · rw [ends_throw]
    exact .initExiting
  · rw [ends_modifyPt]
    exact h.then_pt (Ptable.sameVm_exit h.2.self.1)

theorem syscall_spec {c : Call} {m : SM Out} (h : SysInv man s) (hi : (s.pt.proc i).live)
    (hm : Ends m s (fun _ s' => Stepped man c i s s') (Halts (s.aspace i) c)) :
    Ends (syscall i m) s (fun _ s' => Stepped man c i s s') (Halts (s.aspace i) c) := by
  rw [syscall, ends_bind, ends_get, ends_ite]
  refine ⟨fun _ => ?_, fun _ => ?_⟩
  · exact (exit_spec (.same h hi)).bind (fun _ _ h' => .ret h')
  · refine hm.bind (fun r s' h' => ?_)
    rw [ends_bind, ends_get, ends_ite]
    refine ⟨fun _ => ?_, fun _ => .ret h'⟩
    exact (exit_spec h').bind (fun _ _ h'' => .ret h'')

omit [Layout] in
/-- A system call of a process that is not marked killed and does not become so. -/
theorem syscall_alive {m : SM Out} {Q : Out → Sys → Prop} {E : Panic → Prop}
    (hk : (s.pt.proc i).killed = false)
    (hm : Ends m s (fun out s' => (s'.pt.proc i).killed = false ∧ Q out s') E) :
    Ends (syscall i m) s (fun out s' => (s'.pt.proc i).killed = false ∧ Q out s') E := by
  rw [syscall, ends_bind, ends_get, hk, if_neg (by decide)]
  refine hm.bind (fun out s' h' => ?_)
  rw [ends_bind, ends_get, h'.1, if_neg (by decide)]
  exact .ret h'

omit [Layout] in
/-- What a system call returns, if the process is not killed around it. -/
theorem syscall_ret {m : SM Out} {Q : Out → Sys → Prop} (hm : Ends m s Q (fun _ => True)) :
    Ends (syscall i m) s (fun out s' => out ≠ .killed → (s.pt.proc i).killed = false ∧ Q out s')
      (fun _ => True) := by
  have hexit : ∀ s', Ends (do exit i; return .killed : SM Out) s'
      (fun out s' => out ≠ .killed → (s.pt.proc i).killed = false ∧ Q out s')
      (fun _ => True) := fun s' =>
    (ends_bind ..).mpr (Ends.trivial.mono (fun _ _ _ => .ret fun hne => absurd rfl hne)
      fun _ _ => trivial)
  rw [syscall, ends_bind, ends_get, ends_ite]
  refine ⟨fun _ => hexit s, fun hk => ?_⟩
  rw [ends_bind]
  refine hm.mono (fun out s' hQ => ?_) fun _ _ => trivial
  rw [ends_bind, ends_get, ends_ite]
  exact ⟨fun _ => hexit s', fun _ => .ret fun _ => ⟨by simpa using hk, hQ⟩⟩

theorem kill_spec {c : Call} {pid : Int} {E : Panic → Prop} (h : SysInv man s)
    (hi : (s.pt.proc i).live) :
    Ends (kill pid) s (fun _ s' => Stepped man c i s s') E := by
  rw [kill, ends_bind, ends_get, ends_bind, ends_modifyPt]
  exact .ret ((Stepped.same h hi).then_pt (Ptable.sameVm_kill _ _))

end Xv6
