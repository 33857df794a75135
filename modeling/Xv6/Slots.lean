import Xv6.ProcTree

/-!
# Xv6.Slots

What a step of `Xv6.Dispatch` can do to one slot of the process table, said once
(`Disp.Step.slot`), and two facts about slots that follow: priorities stay in the range
`setprio` allows, and, as long as `kill` is not aimed at a slot without a process,
new processes start with `killed` clear.

`kill` compares pids and does not look at the state. A free slot that has never been
used, or has been reaped, has pid 0, and one given up by a failed `fork` still has the
pid of the process that was never made; `allocproc` does not clear `killed`. So `kill(0)`
succeeds and marks a free slot, and the next process in it is born killed
(`kill_marks_free_slot`).
-/

namespace Xv6

open Function (update)

/-! ### One slot, one step -/

/-- What a step that does `e` to the table `t` can make of slot `p`. -/
inductive SlotStep (t : Ptable) (e : Ev) (p : Fin nproc) : Proc → Prop
  /-- Scheduling, sleeping, waking up, exiting; a slot may also just get another parent. -/
  | move (state : ProcState) (chan : Option Chan) (parent : Option (Fin nproc)) :
      state = (t.proc p).state ∨ ((t.proc p).state.begun = true ∧ state.begun = true) →
      SlotStep t e p { t.proc p with state := state, chan := chan, parent := parent }
  | kill {pid : Int} (state : ProcState) :
      e = .kill pid → t.find (fun q => q.pid = pid) = some p →
      state = (t.proc p).state ∨ ((t.proc p).state.begun = true ∧ state.begun = true) →
      SlotStep t e p { t.proc p with killed := true, state := state }
  | setprio {priority : Int} : 1 ≤ priority → priority ≤ maxPriority →
      SlotStep t e p { t.proc p with priority := priority }
  | reap (chan : Option Chan) :
      SlotStep t e p { t.proc p with
        chan := chan, kstack := 0, pid := 0, parent := none, killed := false, state := .unused }
  | alloc : (t.proc p).state = .unused →
      SlotStep t e p { t.proc p with
        state := .embryo, pid := t.nextpid, vmas := fun _ => Vma.empty
        priority := defaultPriority }
  | drop (pgdir : Nat) : (t.proc p).state = .embryo →
      SlotStep t e p { t.proc p with pgdir := pgdir, kstack := 0, state := .unused }
  | commit {i : Fin nproc} (kstack pgdir : Nat) : (t.proc p).state = .embryo →
      (t.proc i).state.begun = true →
      SlotStep t e p { t.proc p with
        kstack := kstack, pgdir := pgdir, sz := (t.proc i).sz, vmas := (t.proc i).vmas
        parent := some i, priority := (t.proc i).priority, state := .runnable }

namespace SlotStep

variable {t : Ptable} {e : Ev} {i p : Fin nproc} {x : Proc}

theorem same (p : Fin nproc) : SlotStep t e p (t.proc p) :=
  .move _ _ _ (.inl rfl)

theorem set (hx : SlotStep t e i x) (p : Fin nproc) : SlotStep t e p ((t.set i x).proc p) := by
  by_cases hp : p = i
  · rw [hp, Ptable.set_proc_self]
    exact hx
  · rw [Ptable.set_proc_of_ne _ _ hp]
    exact same p

theorem of_kill (pid : Int) (p : Fin nproc) :
    SlotStep t (.kill pid) p ((t.kill pid).2.proc p) := by
  unfold Ptable.kill
  split
  · next i hi =>
      refine set (.kill _ rfl hi ?_) p
      split
      · next hs =>
          rw [hs]
          exact .inr ⟨rfl, rfl⟩
      · exact .inl rfl
  · exact same p

theorem of_setprio (priority : Int) (p : Fin nproc) :
    SlotStep t e p ((t.setprio i priority).2.proc p) := by
  unfold Ptable.setprio
  split
  · exact same p
  · next hr => exact set (.setprio (by omega) (by omega)) p

theorem of_wakeup1 (chan : Option Chan) (p : Fin nproc) :
    SlotStep t e p ((t.wakeup1 chan).proc p) := by
  simp only [Ptable.wakeup1]
  split
  · next hs => exact .move _ _ _ (.inr ⟨by rw [hs.1]; rfl, rfl⟩)
  · exact same p

theorem of_exit (hi : (t.proc i).state.begun = true) (p : Fin nproc) :
    SlotStep t e p ((t.exit i).proc p) := by
  obtain ⟨parent, hrest⟩ := t.exit_rest i p
  rw [hrest]
  refine .move _ _ _ ?_
  by_cases hp : p = i
  · rw [hp, Ptable.exit_self]
    exact .inr ⟨hi, rfl⟩
  · rcases (t.exit_other hp).1 with hs | ⟨hs, hs'⟩
    · exact .inl hs
    · rw [hs, hs']
      exact .inr ⟨rfl, rfl⟩

/-- `wait`'s loop, entered from `wait` itself or after `tidy`. -/
theorem of_waitTurn {ncpu round : Nat} {d : Disp ncpu} {c : Fin ncpu}
    (hbase : ∀ p, ∃ chan, d.pt.proc p = { t.proc p with chan := chan })
    (hi : (t.proc i).state.begun = true) (p : Fin nproc) :
    SlotStep t e p ((d.waitTurn c round i).2.pt.proc p) := by
  have hmove : SlotStep t e p (d.pt.proc p) := by
    obtain ⟨chan, hp⟩ := hbase p
    rw [hp]
    exact .move _ chan _ (.inl rfl)
  unfold Disp.waitTurn
  split
  · next j _ =>
      show SlotStep t e p ((d.pt.reap j).proc p)
      unfold Ptable.reap
      by_cases hp : p = j
      · subst hp
        obtain ⟨chan, hp⟩ := hbase p
        rw [Ptable.set_proc_self, hp]
        exact .reap chan
      · rwa [Ptable.set_proc_of_ne _ _ hp]
  · exact hmove
  · show SlotStep t e p ((d.pt.set i _).proc p)
    by_cases hp : p = i
    · subst hp
      obtain ⟨chan, hp⟩ := hbase p
      rw [Ptable.set_proc_self, hp]
      exact .move _ _ _ (.inr ⟨hi, rfl⟩)
    · rwa [Ptable.set_proc_of_ne _ _ hp]

end SlotStep

namespace Disp

variable {ncpu : Nat} {d d' : Disp ncpu} {c : Fin ncpu} {round : Nat} {i : Fin nproc} {e : Ev}

theorem Sound.begun (h : d.Sound) (hpc : (d.cpu c).pc = .away round i) :
    (d.pt.proc i).state.begun = true :=
  ProcState.begun_of_alive (h.alive hpc)

theorem Step.slot (h : d.Sound) (hs : Step d e d') (p : Fin nproc) :
    SlotStep d.pt e p (d'.pt.proc p) := by
  cases hs with
  | schedule hs =>
    cases schedule_inv hs with
    | switch _ hrun _ =>
      exact .set (.move _ _ _ (.inr ⟨by rw [hrun]; rfl, rfl⟩)) p
    | acquire | skip | release => exact .same p
  | @resume c round i hpc _ =>
    unfold Disp.resume
    split
    · exact .same p
    · exact SlotStep.set (.move _ _ _ (.inl rfl)) p
    · refine .of_waitTurn (fun p => ?_) (h.begun hpc) p
      by_cases hp : p = i
      · exact ⟨none, by simp [hp, tidy]⟩
      · exact ⟨(d.pt.proc p).chan, by simp [tidy, Ptable.set_proc_of_ne _ _ hp]⟩
  | yield hpc _ => exact .set (.move _ _ _ (.inr ⟨h.begun hpc, rfl⟩)) p
  | sleep a hf => exact .set (.move _ _ _ (.inr ⟨h.begun hf.pc, rfl⟩)) p
  | wakeup a _ => exact .of_wakeup1 _ p
  | kill pid _ => exact .of_kill pid p
  | setprio priority _ => exact .of_setprio priority p
  | exit hf _ => exact .of_exit (h.begun hf.pc) p
  | wait hf => exact .of_waitTurn (fun p => ⟨_, rfl⟩) (h.begun hf.pc) p
  | forkAlloc _ ha =>
    obtain ⟨hun, rfl⟩ := Ptable.allocproc_inv ha
    exact SlotStep.set (.alloc hun) p
  | forkNoStack _ _ hnp | forkNoMemory _ _ hnp => exact .set (.drop _ (h.embryo _ _ hnp)) p
  | forkCommit kstack pgdir hpc _ hnp =>
    rw [commit_eq _ _ _ _ _ (h.np_ne hpc hnp)]
    exact .set (.commit kstack pgdir (h.embryo _ _ hnp) (h.begun hpc)) p

/-! ### Priorities -/

/-- Every process has a priority that `setprio` accepts. -/
def Weighted (t : Ptable) : Prop :=
  ∀ p, (t.proc p).state ≠ .unused → 1 ≤ (t.proc p).priority ∧ (t.proc p).priority ≤ maxPriority

theorem weighted_boot (kstack pgdir : Nat) : Weighted (.boot kstack pgdir) := by
  intro p
  rw [Ptable.boot_proc]
  split
  · exact fun _ => ⟨show (1 : Int) ≤ 1 by decide, show (1 : Int) ≤ 10 by decide⟩
  · exact fun hne => absurd rfl hne

theorem Weighted.step (h : d.Sound) (hw : Weighted d.pt) (hs : Step d e d') :
    Weighted d'.pt := by
  intro p
  have hbegun : ∀ {q}, (d.pt.proc q).state.begun = true →
      1 ≤ (d.pt.proc q).priority ∧ (d.pt.proc q).priority ≤ maxPriority := by
    intro q hq
    refine hw q fun hu => ?_
    rw [hu] at hq
    exact absurd hq (by decide)
  have hslot := hs.slot h p
  generalize d'.pt.proc p = x at hslot ⊢
  cases hslot with
  | move state chan parent hst | kill state _ _ hst =>
    intro hne
    rcases hst with rfl | hst
    · exact hw p hne
    · exact hbegun hst.1
  | setprio h1 h2 => exact fun _ => ⟨h1, h2⟩
  | reap => exact fun hne => absurd rfl hne
  | alloc => exact fun _ => ⟨show (1 : Int) ≤ 1 by decide, show (1 : Int) ≤ 10 by decide⟩
  | drop => exact fun hne => absurd rfl hne
  | commit _ _ _ hi => exact fun _ => hbegun hi

theorem Run.weighted {kstack pgdir : Nat} {x : List Ev × Disp ncpu}
    (h : Run ncpu kstack pgdir x) : Weighted x.2.pt := by
  refine (h.invariant (I := fun x => x.2.Sound ∧ Weighted x.2.pt) (fun x hx => ?_)
    (fun x y hI hs => ?_)).2
  · rw [hx]
    exact ⟨sound_boot kstack pgdir, weighted_boot kstack pgdir⟩
  · obtain ⟨e, hs, -⟩ := hs
    exact ⟨hs.sound hI.1, hI.2.step hI.1 hs⟩

/-! ### `kill` -/

/-- Slots in which no process has begun are not marked. -/
def Unmarked (t : Ptable) : Prop :=
  ∀ p, (t.proc p).state.begun = false → (t.proc p).killed = false

/-- `kill(pid)` finds a process that has begun, or nothing. -/
def KillsBegun (t : Ptable) (pid : Int) : Prop :=
  ∀ p, t.find (fun q => q.pid = pid) = some p → (t.proc p).state.begun = true

theorem unmarked_boot (kstack pgdir : Nat) : Unmarked (.boot kstack pgdir) := by
  intro p
  rw [Ptable.boot_proc]
  split <;> exact fun _ => rfl

theorem Unmarked.step (h : d.Sound) (hu : Unmarked d.pt) (hs : Step d e d')
    (hk : ∀ pid, e = .kill pid → KillsBegun d.pt pid) : Unmarked d'.pt := by
  intro p
  have hslot := hs.slot h p
  generalize d'.pt.proc p = x at hslot ⊢
  cases hslot with
  | move state chan parent hst =>
    intro hb
    rcases hst with rfl | hst
    · exact hu p hb
    · exact absurd (hst.2.symm.trans hb) (by simp)
  | kill state hpid hfind hst =>
    -- the slot found has a process in it, which stays
    intro hb
    have hbegun := hk _ hpid p hfind
    rcases hst with rfl | hst
    · exact absurd (hbegun.symm.trans hb) (by simp)
    · exact absurd (hst.2.symm.trans hb) (by simp)
  | setprio => exact hu p
  | reap => exact fun _ => rfl
  | alloc hun => exact fun _ => hu p (by rw [hun]; rfl)
  | drop _ hemb => exact fun _ => hu p (by rw [hemb]; rfl)
  | commit => exact fun hb => absurd hb (by simp [ProcState.begun])

/-- The runs in which every `kill` finds a process that has begun, or nothing. -/
def KillRun (ncpu kstack pgdir : Nat) : List Ev × Disp ncpu → Prop :=
  Reach (fun x => x = ([], .boot ncpu kstack pgdir))
    fun x y => ∃ e, (Step x.2 e y.2 ∧ y.1 = x.1 ++ [e]) ∧
      ∀ pid, e = .kill pid → KillsBegun x.2.pt pid

theorem KillRun.step {kstack pgdir : Nat} {es : List Ev} (h : KillRun ncpu kstack pgdir (es, d))
    (hs : Step d e d') (hk : ∀ pid, e = .kill pid → KillsBegun d.pt pid) :
    KillRun ncpu kstack pgdir (es ++ [e], d') :=
  Reach.next h ⟨e, ⟨hs, rfl⟩, hk⟩

theorem KillRun.run {kstack pgdir : Nat} {x : List Ev × Disp ncpu}
    (h : KillRun ncpu kstack pgdir x) : Run ncpu kstack pgdir x :=
  Reach.mono (fun _ _ ⟨e, hs, _⟩ => ⟨e, hs⟩) h

theorem KillRun.unmarked {kstack pgdir : Nat} {x : List Ev × Disp ncpu}
    (h : KillRun ncpu kstack pgdir x) : Unmarked x.2.pt := by
  refine (Reach.invariant (I := fun x => x.2.Sound ∧ Unmarked x.2.pt) (fun x hx => ?_)
    (fun x y hI hs => ?_) h).2
  · rw [hx]
    exact ⟨sound_boot kstack pgdir, unmarked_boot kstack pgdir⟩
  · obtain ⟨e, ⟨hs, -⟩, hk⟩ := hs
    exact ⟨hs.sound hI.1, hI.2.step hI.1 hs hk⟩

end Disp

open Disp in
/-- In every state of any run: `kill(pid)` reports success exactly when some process has
that pid, if and only if the slot it finds is not free. -/
theorem Ptable.Tree.kill_iff {es : List Ev} {t : Ptable} (h : t.Tree es) (pid : Int) :
    ((t.kill pid).1 = 0 ↔ ∃ p, (t.proc p).state ≠ .unused ∧ (t.proc p).pid = pid) ↔
      ∀ p, t.find (fun q => q.pid = pid) = some p → (t.proc p).state ≠ .unused := by
  unfold kill
  cases hfind : t.find (fun q => q.pid = pid) with
  | none =>
    have hno := find_eq_none.mp hfind
    simp only [decide_eq_false_iff_not] at hno
    simp only [Int.reduceNeg, false_iff, reduceCtorEq, false_implies,
      implies_true, iff_true]
    rintro ⟨p, -, hp⟩
    exact hno p hp
  | some i =>
    have hi : (t.proc i).pid = pid := by simpa using find_eq_some hfind
    simp only [true_iff, Option.some.injEq, forall_eq']
    constructor
    · rintro ⟨p, hlive, hp⟩
      -- a pid other than 0 is in one slot only, and 0 in no process's
      have : p = i := h.pid_inj p i (by rw [hp, hi]) (h.pid_pos p hlive)
      exact this ▸ hlive
    · exact fun hlive => ⟨i, hlive, hi⟩

namespace Disp

variable {ncpu : Nat} {d d' : Disp ncpu} {c : Fin ncpu} {round : Nat} {i : Fin nproc} {e : Ev}

theorem Step.fork_child {w pid : Int} (h : d.Sound) (hs : Step d (.fork w pid) d') :
    ∃ j, (d.pt.proc j).state = .embryo ∧ (d'.pt.proc j).pid = pid ∧
      (d'.pt.proc j).state = .runnable ∧ (d'.pt.proc j).killed = (d.pt.proc j).killed := by
  generalize he : Ev.fork w pid = e at hs
  cases hs with
  | @forkCommit c round i j kstack pgdir hpc _ hnp =>
    obtain ⟨-, rfl⟩ := Ev.fork.inj he
    refine ⟨j, h.embryo i j hnp, ?_⟩
    rw [commit_eq _ _ _ _ _ (h.np_ne hpc hnp)]
    simp
  | @resume c round i _ _ =>
    unfold Disp.resume Disp.waitTurn at he
    split at he
    · exact absurd he (by simp)
    · exact absurd he (by simp)
    · split at he <;> exact absurd he (by simp)
  | wait =>
    unfold Disp.waitTurn at he
    split at he <;> exact absurd he (by simp)
  | _ => exact absurd he (by simp)

/-- In every run whose `kill`s find a process that has begun, or nothing: a further such
`kill` succeeds exactly when a process has the pid and changes `killed` and the state of
that process only, and `fork` makes processes that are not killed. -/
theorem kill_hits_live {kstack pgdir : Nat} {x : List Ev × Disp ncpu}
    (h : KillRun ncpu kstack pgdir x) :
    (∀ pid, KillsBegun x.2.pt pid →
      ((x.2.pt.kill pid).1 = 0 ↔
        ∃ p, (x.2.pt.proc p).state ≠ .unused ∧ (x.2.pt.proc p).pid = pid) ∧
      ∀ p, (x.2.pt.kill pid).2.proc p = x.2.pt.proc p ∨
        ((x.2.pt.proc p).state ≠ .unused ∧ (x.2.pt.proc p).pid = pid ∧
          ∃ state, (x.2.pt.kill pid).2.proc p =
            { x.2.pt.proc p with killed := true, state := state })) ∧
    (∀ w pid d', Step x.2 (.fork w pid) d' →
      ∃ p, (d'.pt.proc p).pid = pid ∧ (d'.pt.proc p).state = .runnable ∧
        (d'.pt.proc p).killed = false) := by
  have hlive : ∀ {p}, (x.2.pt.proc p).state.begun = true → (x.2.pt.proc p).state ≠ .unused := by
    intro p hb hu
    rw [hu] at hb
    exact absurd hb (by decide)
  refine ⟨fun pid hk => ⟨?_, fun p => ?_⟩, fun w pid d' hs => ?_⟩
  · exact (h.run.tree.kill_iff pid).mpr fun p hp => hlive (hk p hp)
  · unfold Ptable.kill
    split
    · next i hi =>
        by_cases hp : p = i
        · subst hp
          rw [Ptable.set_proc_self]
          exact .inr ⟨hlive (hk p hi), by simpa using Ptable.find_eq_some hi, _, rfl⟩
        · exact .inl (Ptable.set_proc_of_ne _ _ hp)
    · exact .inl rfl
  · obtain ⟨j, hemb, hpid, hrun, hkilled⟩ := hs.fork_child h.run.sound
    refine ⟨j, hpid, hrun, ?_⟩
    rw [hkilled]
    exact h.unmarked j (by rw [hemb]; rfl)

/-- Init runs, and a `kill` of init finds it. -/
theorem kill_hits_live_init :
    ∃ x : List Ev × Disp 1, KillRun 1 0 0 x ∧ KillsBegun x.2.pt 1 ∧
      ((x.2.pt.kill 1).1 = 0 ↔ ∃ p, (x.2.pt.proc p).state ≠ .unused ∧ (x.2.pt.proc p).pid = 1) := by
  have hquiet : ∀ pid, Ev.internal = .kill pid → ∀ t, KillsBegun t pid :=
    fun _ he => absurd he (by simp)
  have hstart : KillRun 1 0 0 ([], .boot 1 0 0) := .start rfl
  have hacquire := hstart.step (.schedule (c := 0) rfl) fun pid he => hquiet pid he _
  have hswitch := hacquire.step (.schedule (c := 0) rfl) fun pid he => hquiet pid he _
  have hrelease := hswitch.step (.resume (c := 0) rfl rfl) fun pid he => hquiet pid he _
  refine ⟨_, hrelease, ?finds, ((kill_hits_live hrelease).1 1 ?finds).1⟩
  intro p hp
  cases hp
  rfl

/-- Init calls `kill(0)`, which returns 0 although no process has pid 0, and then forks:
the child is born killed. -/
theorem kill_marks_free_slot :
    ∃ x y : List Ev × Disp 1, Run 1 0 0 x ∧ (x.2.pt.kill 0).1 = 0 ∧
      (¬ ∃ p, (x.2.pt.proc p).state ≠ .unused ∧ (x.2.pt.proc p).pid = 0) ∧
      Run 1 0 0 y ∧ y.1 = x.1 ++ [.kill 0] ++ [.internal] ++ [.fork 1 2] ∧
      ∃ p, (y.2.pt.proc p).pid = 2 ∧ (y.2.pt.proc p).state = .runnable ∧
        (y.2.pt.proc p).killed = true := by
  have hstart : Run 1 0 0 ([], .boot 1 0 0) := .start rfl
  have hacquire := hstart.step (.schedule (c := 0) rfl)
  have hswitch := hacquire.step (.schedule (c := 0) rfl)
  have hrelease := hswitch.step (.resume (c := 0) rfl rfl)
  have hkill := hrelease.step (.kill (c := 0) 0 ⟨rfl, rfl, rfl⟩)
  have halloc := hkill.step (.forkAlloc (c := 0) (j := ⟨1, by decide⟩) ⟨rfl, rfl, rfl⟩ rfl)
  have hcommit := halloc.step (.forkCommit (c := 0) 0 0 rfl rfl rfl)
  refine ⟨_, _, hrelease, rfl, ?_, hcommit, rfl, ⟨1, by decide⟩, rfl, rfl, rfl⟩
  rintro ⟨p, hp, h0⟩
  exact hrelease.tree.pid_pos p hp h0

end Disp

end Xv6
