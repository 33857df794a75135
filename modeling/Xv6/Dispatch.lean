import Xv6.Lib.Reach
import Xv6.System

/-!
# Xv6.Dispatch

Processes taking turns on any number of CPUs: `scheduler`, `sched`, `yield`, `sleep`,
`wakeup`, `forkret`, and the sections of `fork`, `exit`, `wait` and `kill` that hold
`ptable.lock`.

A section that takes and releases the lock is one step. A section that ends in
`sched` is not: the lock stays with the CPU and goes over to its scheduler, which
clears `c->proc`, walks on through the table one slot a step, and hands the lock to
the process it switches to; that process releases it, or goes round `wait`'s loop
once more. While one CPU holds the lock the others can only take the steps that do
not need it, such as giving up a slot in `fork` after an allocation has failed.

`Disp.Sound` says who runs where; every step keeps it, and with it no process is ever
dispatched twice (`running_iff_unique_cpu`).
-/

namespace Xv6

open Function (update update_self update_of_ne)

/-! ### The state -/

/-- Where the `scheduler` of a CPU is. -/
inductive SchedPc
  /-- About to take the lock for round `round`. -/
  | idle (round : Nat)
  /-- In round `round`, before slot number `p`; `ran` is `ran_process`. -/
  | scan (round : Nat) (ran : Bool) (p : Nat)
  /-- In round `round`, switched to the process in slot `p`. -/
  | away (round : Nat) (p : Fin nproc)

/-- The process a scheduler has switched to. -/
def SchedPc.switched : SchedPc → Option (Fin nproc)
  | .away _ p => some p
  | _ => none

/-- `struct cpu`. -/
structure Cpu where
  proc : Option (Fin nproc)
  pc : SchedPc

/-- What a process does when the scheduler switches to it. -/
inductive Cont
  /-- In `yield` or `forkret`: release the lock. -/
  | release
  /-- In `sleep`: clear `chan` and release the lock. -/
  | sleep
  /-- In the `sleep` of `wait`: clear `chan` and scan the table again. -/
  | wait

/-- The machine, as far as scheduling goes. -/
structure Disp (ncpu : Nat) where
  pt : Ptable
  cpu : Fin ncpu → Cpu
  /-- The CPU that holds `ptable.lock`. -/
  lock : Option (Fin ncpu)
  /-- For a process inside `fork`, the slot it is filling in. -/
  np : Fin nproc → Option (Fin nproc)
  cont : Fin nproc → Cont

/-- The process table after `userinit`. -/
def Ptable.boot (kstack pgdir : Nat) : Ptable where
  proc := fun i => if i.val = 0 then initProc kstack pgdir else Proc.zero
  nextpid := 2
  initproc := ⟨0, nproc_pos⟩

/-- Every CPU has entered `scheduler`. -/
def Disp.boot (ncpu kstack pgdir : Nat) : Disp ncpu where
  pt := .boot kstack pgdir
  cpu := fun _ => { proc := none, pc := .idle 0 }
  lock := none
  np := fun _ => none
  cont := fun _ => .release

/-! ### The scheduler -/

/-- The two tests of `scheduler`: runnable, and of more weight than rounds played. -/
def Proc.qualifies (p : Proc) (round : Nat) : Bool :=
  decide (p.state = .runnable) && !decide (p.priority ≤ round)

namespace Disp

variable {ncpu : Nat} (d : Disp ncpu)

/-- Move the scheduler of one CPU. -/
def goto (c : Fin ncpu) (pc : SchedPc) : Disp ncpu :=
  { d with cpu := update d.cpu c { proc := pc.switched, pc := pc } }

/-- One step of `scheduler` on `c`: take the lock; pass over or switch to the process
in the next slot; or release the lock at the end of the table and go on to the next
round, unless nothing has run or this was the last round. -/
def schedule (c : Fin ncpu) : Option (Disp ncpu) :=
  match (d.cpu c).pc with
  | .idle round =>
    if d.lock = none then some { d.goto c (.scan round false 0) with lock := some c }
    else none
  | .scan round ran p =>
    if h : p < nproc then
      if (d.pt.proc ⟨p, h⟩).qualifies round then
        some { d.goto c (.away round ⟨p, h⟩) with
          pt := d.pt.set ⟨p, h⟩ { d.pt.proc ⟨p, h⟩ with state := .running } }
      else some (d.goto c (.scan round ran (p + 1)))
    else if ran ∧ round + 1 < maxPriority then
      some { d.goto c (.idle (round + 1)) with lock := none }
    else some { d.goto c (.idle 0) with lock := none }
  | .away _ _ => none

/-- `sched`, called by `i` on `c` after it has changed the table to `pt`: back to the
scheduler, with the lock. `k` is where `i` goes on later. -/
def sched (c : Fin ncpu) (round : Nat) (i : Fin nproc) (k : Cont) (pt : Ptable) : Disp ncpu :=
  { d.goto c (.scan round true (i.val + 1)) with
    pt := pt
    lock := some c
    cont := update d.cont i k }

/-! ### The processes -/

end Disp

/-- What is worth remembering of a step. Processes are named by their pids. -/
inductive Ev
  | internal
  | fork (parent child : Int)
  | exit (pid : Int)
  /-- `wait` of `parent` returns `child`. -/
  | wait (parent child : Int)
  | kill (pid : Int)

namespace Disp

variable {ncpu : Nat} (d : Disp ncpu)

/-- One turn of `wait`'s loop, by `i` on `c` with the lock held. -/
def waitTurn (c : Fin ncpu) (round : Nat) (i : Fin nproc) : Ev × Disp ncpu :=
  match d.pt.waitScan i with
  | .zombie j => (.wait (d.pt.proc i).pid (d.pt.proc j).pid,
      { d with pt := d.pt.reap j, lock := none })
  | .fail => (.internal, { d with lock := none })
  | .block => (.internal, d.sched c round i .wait
      (d.pt.set i { d.pt.proc i with chan := some (.proc i), state := .sleeping }))

/-- The end of `sleep`, before the lock is released. -/
def tidy (i : Fin nproc) : Disp ncpu :=
  { d with pt := d.pt.set i { d.pt.proc i with chan := none } }

/-- What a process does when it gets the CPU, and with it the lock. -/
def resume (c : Fin ncpu) (round : Nat) (i : Fin nproc) : Ev × Disp ncpu :=
  match d.cont i with
  | .release => (.internal, { d with lock := none })
  | .sleep => (.internal, { d.tidy i with lock := none })
  | .wait => (d.tidy i).waitTurn c round i

/-- Process `i` runs on `c`, holds no lock and is not inside `fork`. -/
structure Free (c : Fin ncpu) (round : Nat) (i : Fin nproc) : Prop where
  pc : (d.cpu c).pc = .away round i
  lock : d.lock = none
  np : d.np i = none

end Disp

/-- The steps of the machine. -/
inductive Disp.Step {ncpu : Nat} : Disp ncpu → Ev → Disp ncpu → Prop
  | schedule {d d' : Disp ncpu} {c : Fin ncpu} :
      d.schedule c = some d' → Step d .internal d'
  | resume {d : Disp ncpu} {c : Fin ncpu} {round : Nat} {i : Fin nproc} :
      (d.cpu c).pc = .away round i → d.lock = some c →
      Step d (d.resume c round i).1 (d.resume c round i).2
  -- the timer interrupt takes the CPU away anywhere outside the lock, also inside `fork`
  | yield {d : Disp ncpu} {c : Fin ncpu} {round : Nat} {i : Fin nproc} :
      (d.cpu c).pc = .away round i → d.lock = none →
      Step d .internal (d.sched c round i .release
        (d.pt.set i { d.pt.proc i with state := .runnable }))
  | sleep {d : Disp ncpu} {c : Fin ncpu} {round : Nat} {i : Fin nproc} (a : Nat) :
      d.Free c round i →
      Step d .internal (d.sched c round i .sleep
        (d.pt.set i { d.pt.proc i with chan := some (.addr a), state := .sleeping }))
  -- interrupt handlers call `wakeup` on CPUs that run no process
  | wakeup {d : Disp ncpu} (a : Nat) :
      d.lock = none → Step d .internal { d with pt := d.pt.wakeup1 (some (.addr a)) }
  | kill {d : Disp ncpu} {c : Fin ncpu} {round : Nat} {i : Fin nproc} (pid : Int) :
      d.Free c round i → Step d (.kill pid) { d with pt := (d.pt.kill pid).2 }
  | setprio {d : Disp ncpu} {c : Fin ncpu} {round : Nat} {i : Fin nproc} (priority : Int) :
      d.Free c round i →
      Step d .internal { d with pt := (d.pt.setprio i priority).2 }
  | exit {d : Disp ncpu} {c : Fin ncpu} {round : Nat} {i : Fin nproc} :
      d.Free c round i → i ≠ d.pt.initproc →
      Step d (.exit (d.pt.proc i).pid) (d.sched c round i .release (d.pt.exit i))
  | wait {d : Disp ncpu} {c : Fin ncpu} {round : Nat} {i : Fin nproc} :
      d.Free c round i → Step d (d.waitTurn c round i).1 (d.waitTurn c round i).2
  | forkAlloc {d : Disp ncpu} {c : Fin ncpu} {round : Nat} {i j : Fin nproc} {pt : Ptable} :
      d.Free c round i → d.pt.allocproc = some (j, pt) →
      Step d .internal { d with pt := pt, np := update d.np i (some j) }
  -- giving the slot up needs no lock
  | forkNoStack {d : Disp ncpu} {c : Fin ncpu} {round : Nat} {i j : Fin nproc} :
      (d.cpu c).pc = .away round i → d.lock ≠ some c → d.np i = some j →
      Step d .internal { d with pt := d.pt.allocprocFail j, np := update d.np i none }
  | forkNoMemory {d : Disp ncpu} {c : Fin ncpu} {round : Nat} {i j : Fin nproc} :
      (d.cpu c).pc = .away round i → d.lock ≠ some c → d.np i = some j →
      Step d .internal { d with pt := d.pt.forkFail j, np := update d.np i none }
  -- the fields of the new slot are written before the lock is taken; nobody else looks
  -- at them while it is EMBRYO
  | forkCommit {d : Disp ncpu} {c : Fin ncpu} {round : Nat} {i j : Fin nproc}
      (kstack pgdir : Nat) :
      (d.cpu c).pc = .away round i → d.lock = none → d.np i = some j →
      Step d (.fork (d.pt.proc i).pid (d.pt.proc j).pid)
        { d with
          pt := (d.pt.allocprocStack j kstack).forkCommit i j pgdir
          np := update d.np i none
          cont := update d.cont j .release }

/-- A run of the machine from boot, with what happened in it. -/
def Disp.Run (ncpu kstack pgdir : Nat) : List Ev × Disp ncpu → Prop :=
  Reach (fun x => x = ([], .boot ncpu kstack pgdir))
    fun x y => ∃ e, Disp.Step x.2 e y.2 ∧ y.1 = x.1 ++ [e]

theorem Disp.Run.step {ncpu kstack pgdir : Nat} {es : List Ev} {d d' : Disp ncpu} {e : Ev}
    (h : Run ncpu kstack pgdir (es, d)) (hs : Step d e d') :
    Run ncpu kstack pgdir (es ++ [e], d') :=
  h.next ⟨e, hs, rfl⟩

/-! ### Who runs where -/

namespace Disp

variable {ncpu : Nat} {d d' : Disp ncpu} {c : Fin ncpu} {round : Nat} {i : Fin nproc}

/-- `c->proc` is the process the scheduler has switched to, the running processes are
those some CPU has switched to, and the slots being filled in `fork` are theirs who
claimed them. -/
structure Sound (d : Disp ncpu) : Prop where
  cur : ∀ c, (d.cpu c).proc = (d.cpu c).pc.switched
  running : ∀ p, (d.pt.proc p).state = .running ↔ ∃ c, (d.cpu c).pc.switched = some p
  unique : ∀ c c' p, (d.cpu c).pc.switched = some p → (d.cpu c').pc.switched = some p → c = c'
  embryo : ∀ i j, d.np i = some j → (d.pt.proc j).state = .embryo
  owner : ∀ i i' j, d.np i = some j → d.np i' = some j → i = i'

theorem sound_boot (kstack pgdir : Nat) : (boot ncpu kstack pgdir).Sound := by
  refine ⟨fun _ => rfl, fun p => ?_, fun _ _ _ h => ?_, fun _ _ h => ?_, fun _ _ _ h => ?_⟩
  · simp only [boot, Ptable.boot, SchedPc.switched]
    split <;> simp [initProc, Proc.zero]
  · exact absurd h (by simp [boot, SchedPc.switched])
  · exact absurd h (by simp [boot])
  · exact absurd h (by simp [boot])

theorem Sound.running_of_away (h : d.Sound) (hpc : (d.cpu c).pc = .away round i) :
    (d.pt.proc i).state = .running :=
  (h.running i).mpr ⟨c, by rw [hpc]; rfl⟩

/-- A change of the table keeps what every slot has to do with running and with being
filled. -/
structure Keeps (d : Disp ncpu) (pt : Ptable) : Prop where
  running : ∀ p, (pt.proc p).state = .running ↔ (d.pt.proc p).state = .running
  embryo : ∀ p, (d.pt.proc p).state = .embryo → (pt.proc p).state = .embryo

theorem Keeps.of_state {pt : Ptable} (h : ∀ p, (pt.proc p).state = (d.pt.proc p).state) :
    d.Keeps pt :=
  ⟨fun p => by rw [h p], fun p hp => by rw [h p, hp]⟩

/-- Overwriting a slot that is neither running nor being filled, and is not made to run. -/
theorem Keeps.set {x : Proc} (hx : x.state ≠ .running)
    (hrun : (d.pt.proc i).state ≠ .running) (hemb : (d.pt.proc i).state ≠ .embryo) :
    d.Keeps (d.pt.set i x) := by
  refine ⟨fun p => ?_, fun p hp => ?_⟩
  · by_cases hpi : p = i
    · subst hpi
      rw [Ptable.set_proc_self]
      exact ⟨fun h => absurd h hx, fun h => absurd h hrun⟩
    · rw [Ptable.set_proc_of_ne _ _ hpi]
  · have hpi : p ≠ i := by
      intro hpi
      exact hemb (hpi ▸ hp)
    rw [Ptable.set_proc_of_ne _ _ hpi, hp]

theorem Keeps.set_fields {x : Proc} (hx : x.state = (d.pt.proc i).state) :
    d.Keeps (d.pt.set i x) := by
  refine .of_state fun p => ?_
  by_cases hpi : p = i
  · rw [hpi, Ptable.set_proc_self, hx]
  · rw [Ptable.set_proc_of_ne _ _ hpi]

theorem Keeps.woken {pt : Ptable} (h : d.pt.Woken pt) : d.Keeps pt := by
  refine ⟨fun p => ?_, fun p hp => ?_⟩
  · rcases h.state p with hs | ⟨hs, hs'⟩
    · rw [hs]
    · simp [hs, hs']
  · rcases h.state p with hs | ⟨hs, -⟩
    · rw [hs, hp]
    · rw [hp] at hs
      exact absurd hs (by simp)

theorem Keeps.kill (pid : Int) : d.Keeps (d.pt.kill pid).2 := by
  unfold Ptable.kill
  split
  · next i _ =>
      by_cases hs : (d.pt.proc i).state = .sleeping
      · exact .set (by simp [hs]) (by simp [hs]) (by simp [hs])
      · exact .set_fields (by simp [hs])
  · exact .of_state fun _ => rfl

theorem Keeps.setprio (priority : Int) : d.Keeps (d.pt.setprio i priority).2 := by
  unfold Ptable.setprio
  split
  · exact .of_state fun _ => rfl
  · exact .set_fields rfl

/-- The rule for steps that only change the table and the lock. -/
theorem Sound.table {pt : Ptable} (lock : Option (Fin ncpu)) (h : d.Sound) (hk : d.Keeps pt) :
    Sound { d with pt := pt, lock := lock } where
  cur := h.cur
  running p := (hk.running p).trans (h.running p)
  unique := h.unique
  embryo i j hij := hk.embryo j (h.embryo i j hij)
  owner := h.owner

theorem goto_pc (pc : SchedPc) : ((d.goto c pc).cpu c).pc = pc := by
  simp [goto]

theorem goto_of_ne {c' : Fin ncpu} (pc : SchedPc) (h : c' ≠ c) :
    (d.goto c pc).cpu c' = d.cpu c' := by
  simp [goto, h]

theorem Sound.goto_cur (h : d.Sound) (pc : SchedPc) (c' : Fin ncpu) :
    ((d.goto c pc).cpu c').proc = ((d.goto c pc).cpu c').pc.switched := by
  by_cases hc : c' = c
  · subst hc
    simp [goto]
  · rw [goto_of_ne _ hc]
    exact h.cur c'

theorem Sound.move {pc : SchedPc} (lock : Option (Fin ncpu)) (h : d.Sound)
    (hpc : (d.cpu c).pc.switched = none) (hpc' : pc.switched = none) :
    Sound { d.goto c pc with lock := lock } := by
  -- no CPU has changed the process it has switched to
  have hsame : ∀ c', ((d.goto c pc).cpu c').pc.switched = (d.cpu c').pc.switched := by
    intro c'
    by_cases hc : c' = c
    · rw [hc, goto_pc, hpc, hpc']
    · rw [goto_of_ne _ hc]
  refine ⟨h.goto_cur pc, fun p => ?_, fun c1 c2 p h1 h2 => ?_, h.embryo, h.owner⟩
  · simp only [hsame]
    exact h.running p
  · simp only [hsame] at h1 h2
    exact h.unique c1 c2 p h1 h2

theorem Sound.switch {pc : SchedPc} {x : Proc} (h : d.Sound)
    (hpc : (d.cpu c).pc.switched = none) (hpc' : pc.switched = some i)
    (hi : (d.pt.proc i).state = .runnable) (hx : x.state = .running) :
    Sound { d.goto c pc with pt := d.pt.set i x } := by
  have hnot : ∀ c', (d.cpu c').pc.switched ≠ some i := by
    intro c' hc'
    rw [(h.running i).mpr ⟨c', hc'⟩] at hi
    exact absurd hi (by simp)
  refine ⟨h.goto_cur pc, fun p => ?_, fun c1 c2 p h1 h2 => ?_, fun k j hj => ?_, h.owner⟩
  · by_cases hpi : p = i
    · subst hpi
      simp only [Ptable.set_proc_self, hx, true_iff]
      exact ⟨c, by rw [goto_pc, hpc']⟩
    · simp only [Ptable.set_proc_of_ne _ _ hpi, h.running p]
      refine exists_congr fun c' => ?_
      by_cases hc : c' = c
      · subst hc
        simp [goto_pc, hpc, hpc', Ne.symm hpi]
      · rw [goto_of_ne _ hc]
  · -- the new pair `(c, i)` cannot clash: nobody else has switched to `i`
    by_cases hc1 : c1 = c <;> by_cases hc2 : c2 = c
    · rw [hc1, hc2]
    · subst hc1
      simp only [goto_pc, hpc', goto_of_ne _ hc2] at h1 h2
      exact absurd (h1 ▸ h2) (hnot c2)
    · subst hc2
      simp only [goto_pc, hpc', goto_of_ne _ hc1] at h1 h2
      exact absurd (h2 ▸ h1) (hnot c1)
    · simp only [goto_of_ne _ hc1, goto_of_ne _ hc2] at h1 h2
      exact h.unique c1 c2 p h1 h2
  · have hj := h.embryo k j hj
    have hji : j ≠ i := by
      intro hji
      rw [hji, hi] at hj
      exact absurd hj (by simp)
    simp only [Ptable.set_proc_of_ne _ _ hji, hj]

section
variable (h : d.Sound) (hpc : (d.cpu c).pc = .away round i)
include h hpc

/-- The rule for steps that end in `sched`: the caller stops running, and the other
slots keep what they had to do with it. -/
theorem Sound.sched {pt : Ptable} {k : Cont} (hi : (pt.proc i).state ≠ .running)
    (hrun : ∀ p, p ≠ i → ((pt.proc p).state = .running ↔ (d.pt.proc p).state = .running))
    (hemb : ∀ p, p ≠ i → (d.pt.proc p).state = .embryo → (pt.proc p).state = .embryo) :
    (d.sched c round i k pt).Sound := by
  have hsw : (d.cpu c).pc.switched = some i := by rw [hpc]; rfl
  refine ⟨h.goto_cur _, fun p => ?_, fun c1 c2 p h1 h2 => ?_, fun k j hj => ?_, h.owner⟩
  · show (pt.proc p).state = .running ↔
      ∃ c', ((d.goto c (.scan round true (i.val + 1))).cpu c').pc.switched = some p
    by_cases hpi : p = i
    · subst hpi
      refine ⟨fun hr => absurd hr hi, fun ⟨c', hc'⟩ => ?_⟩
      by_cases hc : c' = c
      · rw [hc, goto_pc] at hc'
        exact absurd hc' (by simp [SchedPc.switched])
      · rw [goto_of_ne _ hc] at hc'
        exact absurd (h.unique c' c p hc' hsw) hc
    · rw [hrun p hpi, h.running p]
      refine exists_congr fun c' => ?_
      by_cases hc : c' = c
      · rw [hc, goto_pc, hsw]
        simp [SchedPc.switched, Ne.symm hpi]
      · rw [goto_of_ne _ hc]
  · have hne : ∀ c' p, ((d.goto c (.scan round true (i.val + 1))).cpu c').pc.switched = some p →
        (d.cpu c').pc.switched = some p := by
      intro c' p hp
      by_cases hc : c' = c
      · rw [hc, goto_pc] at hp
        exact absurd hp (by simp [SchedPc.switched])
      · rwa [goto_of_ne _ hc] at hp
    exact h.unique c1 c2 p (hne c1 p h1) (hne c2 p h2)
  · have hj := h.embryo k j hj
    refine hemb j (fun hji => ?_) hj
    rw [hji, h.running_of_away hpc] at hj
    exact absurd hj (by simp)

theorem Sound.sched_set {x : Proc} {k : Cont} (hx : x.state ≠ .running) :
    (d.sched c round i k (d.pt.set i x)).Sound := by
  refine h.sched hpc (by rwa [Ptable.set_proc_self]) (fun p hp => ?_) (fun p hp hs => ?_)
  · rw [Ptable.set_proc_of_ne _ _ hp]
  · rw [Ptable.set_proc_of_ne _ _ hp, hs]

theorem Sound.exit : (d.sched c round i .release (d.pt.exit i)).Sound := by
  refine h.sched hpc (by simp [Ptable.exit_self]) (fun p hp => ?_) (fun p hp hs => ?_)
  · rcases (d.pt.exit_other hp).1 with he | ⟨he, he'⟩
    · rw [he]
    · simp [he, he']
  · rcases (d.pt.exit_other hp).1 with he | ⟨he, -⟩
    · rw [he, hs]
    · rw [hs] at he
      exact absurd he (by simp)

theorem Sound.waitTurn : (d.waitTurn c round i).2.Sound := by
  unfold Disp.waitTurn
  split
  · next j hj =>
      have hz := (Ptable.waitScan_zombie hj).2
      exact h.table none (.set (by simp) (by simp [hz]) (by simp [hz]))
  · exact h.table none (.of_state fun _ => rfl)
  · exact h.sched_set hpc (by simp)

end

theorem Sound.tidy (h : d.Sound) (i : Fin nproc) : (d.tidy i).Sound :=
  h.table d.lock (.set_fields rfl)

theorem Sound.resume (h : d.Sound) (hpc : (d.cpu c).pc = .away round i) :
    (d.resume c round i).2.Sound := by
  unfold Disp.resume
  split
  · exact h.table none (.of_state fun _ => rfl)
  · exact h.table none (.set_fields rfl)
  · exact (h.tidy i).waitTurn hpc

/-- What one step of a scheduler can do. -/
inductive Scheduled (d : Disp ncpu) (c : Fin ncpu) : Disp ncpu → Prop
  | acquire {round : Nat} : (d.cpu c).pc = .idle round → d.lock = none →
      Scheduled d c { d.goto c (.scan round false 0) with lock := some c }
  | switch {round : Nat} {ran : Bool} {p : Fin nproc} : (d.cpu c).pc = .scan round ran p →
      (d.pt.proc p).state = .runnable → round < (d.pt.proc p).priority →
      Scheduled d c { d.goto c (.away round p) with
        pt := d.pt.set p { d.pt.proc p with state := .running } }
  | skip {round p : Nat} {ran : Bool} : (d.cpu c).pc = .scan round ran p →
      Scheduled d c (d.goto c (.scan round ran (p + 1)))
  | release {round round' p : Nat} {ran : Bool} : (d.cpu c).pc = .scan round ran p →
      Scheduled d c { d.goto c (.idle round') with lock := none }

theorem schedule_inv (h : d.schedule c = some d') : Scheduled d c d' := by
  unfold schedule at h
  split at h
  · next round hpc =>
      split at h
      · next hlock =>
          cases h
          exact .acquire hpc hlock
      · cases h
  · next round ran p hpc =>
      split at h
      · next hp =>
          split at h
          · next hq =>
              cases h
              simp only [Proc.qualifies, Bool.and_eq_true, decide_eq_true_eq,
                Bool.not_eq_true', decide_eq_false_iff_not, not_le] at hq
              exact .switch (p := ⟨p, hp⟩) hpc hq.1 hq.2
          · cases h
            exact .skip hpc
      · split at h <;> cases h
        · exact .release hpc
        · exact .release hpc
  · cases h

theorem Scheduled.sound (h : d.Sound) (hs : Scheduled d c d') : d'.Sound := by
  cases hs with
  | acquire hpc _ => exact h.move (some c) (by rw [hpc]; rfl) rfl
  | switch hpc hrun _ => exact h.switch (by rw [hpc]; rfl) rfl hrun rfl
  | skip hpc => exact h.move d.lock (by rw [hpc]; rfl) rfl
  | release hpc => exact h.move none (by rw [hpc]; rfl) rfl

theorem Sound.alloc {j : Fin nproc} {pt : Ptable} (h : d.Sound)
    (ha : d.pt.allocproc = some (j, pt)) :
    Sound { d with pt := pt, np := update d.np i (some j) } := by
  obtain ⟨hun, rfl⟩ := Ptable.allocproc_inv ha
  have hk : d.Keeps (d.pt.set j { d.pt.proc j with
      state := .embryo, pid := d.pt.nextpid, vmas := fun _ => Vma.empty,
      priority := defaultPriority }) := .set (by simp) (by simp [hun]) (by simp [hun])
  -- nobody else is filling the slot, which was unused
  have hnew : ∀ k, d.np k ≠ some j := by
    intro k hkj
    have := h.embryo k j hkj
    rw [hun] at this
    exact absurd this (by simp)
  refine ⟨h.cur, fun p => (hk.running p).trans (h.running p), h.unique, fun k l hl => ?_,
    fun k k' l hl hl' => ?_⟩
  · by_cases hki : k = i
    · subst hki
      simp only [update_self, Option.some.injEq] at hl
      subst hl
      exact congrArg Proc.state (d.pt.set_proc_self j _)
    · simp only [update_of_ne hki] at hl
      exact hk.embryo l (h.embryo k l hl)
  · by_cases hki : k = i <;> by_cases hki' : k' = i
    · rw [hki, hki']
    · subst hki
      simp only [update_self, Option.some.injEq, update_of_ne hki'] at hl hl'
      exact absurd (hl ▸ hl') (hnew k')
    · subst hki'
      simp only [update_self, Option.some.injEq, update_of_ne hki] at hl hl'
      exact absurd (hl' ▸ hl) (hnew k)
    · simp only [update_of_ne hki, update_of_ne hki'] at hl hl'
      exact h.owner k k' l hl hl'

theorem Sound.settle {j : Fin nproc} {x : Proc} (cont : Fin nproc → Cont) (h : d.Sound)
    (hnp : d.np i = some j) (hx : x.state ≠ .running) :
    Sound { d with pt := d.pt.set j x, np := update d.np i none, cont := cont } := by
  have hj := h.embryo i j hnp
  refine ⟨h.cur, fun p => ?_, h.unique, fun k l hl => ?_, fun k k' l hl hl' => ?_⟩
  · refine Iff.trans ?_ (h.running p)
    by_cases hpj : p = j
    · subst hpj
      simp only [Ptable.set_proc_self, hj]
      exact ⟨fun hr => absurd hr hx, fun hr => absurd hr (by simp)⟩
    · simp only [Ptable.set_proc_of_ne _ _ hpj]
  · have hki : k ≠ i := by
      intro hki
      simp [hki] at hl
    simp only [update_of_ne hki] at hl
    have hlj : l ≠ j := by
      intro hlj
      exact hki (h.owner k i j (hlj ▸ hl) hnp)
    simp only [Ptable.set_proc_of_ne _ _ hlj]
    exact h.embryo k l hl
  · have hki : k ≠ i := by
      intro hki
      simp [hki] at hl
    have hki' : k' ≠ i := by
      intro hki'
      simp [hki'] at hl'
    simp only [update_of_ne hki, update_of_ne hki'] at hl hl'
    exact h.owner k k' l hl hl'

/-- The last part of `fork`, as one write. -/
theorem commit_eq (t : Ptable) (i j : Fin nproc) (kstack pgdir : Nat) (hij : i ≠ j) :
    (t.allocprocStack j kstack).forkCommit i j pgdir = t.set j { t.proc j with
      kstack := kstack, pgdir := pgdir, sz := (t.proc i).sz, vmas := (t.proc i).vmas,
      parent := some i, priority := (t.proc i).priority, state := .runnable } := by
  simp [Ptable.forkCommit, Ptable.allocprocStack, Ptable.set, hij]

theorem Sound.np_ne {j : Fin nproc} (h : d.Sound) (hpc : (d.cpu c).pc = .away round i)
    (hnp : d.np i = some j) : i ≠ j := by
  rintro rfl
  have := h.embryo i i hnp
  rw [h.running_of_away hpc] at this
  exact absurd this (by simp)

theorem Step.sound {e : Ev} (h : d.Sound) (hs : Step d e d') : d'.Sound := by
  cases hs with
  | schedule hs => exact (schedule_inv hs).sound h
  | resume hpc _ => exact h.resume hpc
  | yield hpc _ => exact h.sched_set hpc (by simp)
  | sleep a hf => exact h.sched_set hf.pc (by simp)
  | wakeup a _ => exact h.table d.lock (.woken (Ptable.woken_wakeup1 _ _))
  | kill pid _ => exact h.table d.lock (.kill pid)
  | setprio priority _ => exact h.table d.lock (.setprio priority)
  | exit hf _ => exact h.exit hf.pc
  | wait hf => exact h.waitTurn hf.pc
  | forkAlloc _ ha => exact h.alloc ha
  | forkNoStack _ _ hnp => exact h.settle d.cont hnp (by simp)
  | forkNoMemory _ _ hnp => exact h.settle d.cont hnp (by simp)
  | forkCommit kstack pgdir hpc _ hnp =>
    rw [commit_eq _ _ _ _ _ (h.np_ne hpc hnp)]
    exact h.settle _ hnp (by simp)

theorem Run.sound {kstack pgdir : Nat} {x : List Ev × Disp ncpu}
    (h : Run ncpu kstack pgdir x) : x.2.Sound := by
  refine h.invariant (I := fun x => x.2.Sound) (fun x hx => ?_) (fun x y hI hs => ?_)
  · rw [hx]
    exact sound_boot kstack pgdir
  · obtain ⟨e, hs, -⟩ := hs
    exact hs.sound hI

/-- When the lock is free, the running processes are those that are `c->proc` of
exactly one CPU, and no other process is the `c->proc` of any. -/
theorem running_iff_unique_cpu {kstack pgdir : Nat} {x : List Ev × Disp ncpu}
    (h : Run ncpu kstack pgdir x) (_ : x.2.lock = none) (p : Fin nproc) :
    ((x.2.pt.proc p).state = .running ↔
      ∃ c, (x.2.cpu c).proc = some p ∧ ∀ c', c' ≠ c → (x.2.cpu c').proc ≠ some p) ∧
    ((x.2.pt.proc p).state ≠ .running → ∀ c, (x.2.cpu c).proc ≠ some p) := by
  have hs := h.sound
  simp only [hs.cur, hs.running p]
  refine ⟨⟨fun ⟨c, hc⟩ => ⟨c, hc, fun c' hne hc' => ?_⟩, fun ⟨c, hc, _⟩ => ⟨c, hc⟩⟩,
    fun hno c hc => hno ((hs.running p).mpr ⟨c, hc⟩)⟩
  exact hne (hs.unique c' c p hc' hc)

/-- Of two CPUs, the first takes the lock and switches to init, which releases it. -/
theorem running_iff_unique_cpu_init :
    ∃ x : List Ev × Disp 2, Run 2 0 0 x ∧ x.2.lock = none ∧
      ∃ c, (x.2.cpu c).proc = some x.2.pt.initproc ∧
        ∀ c', c' ≠ c → (x.2.cpu c').proc ≠ some x.2.pt.initproc := by
  have hstart : Run 2 0 0 ([], .boot 2 0 0) := .start rfl
  have hacquire := hstart.step (.schedule (c := 0) rfl)
  have hswitch := hacquire.step (.schedule (c := 0) rfl)
  have hrelease := hswitch.step (.resume (c := 0) rfl rfl)
  exact ⟨_, hrelease, rfl, (running_iff_unique_cpu hrelease rfl _).1.mp rfl⟩

end Disp

end Xv6
