import Mathlib.Data.List.FinRange
import Xv6.Proc

/-!
# Xv6.Ptable

The process table, and the functions of `proc.c` that search and update it:
`allocproc`, the two failure paths of `fork` and its last part, `exit`, `wait`'s
scan, `kill`, `setprio`, `wakeup1`. Memory is left to the callers in
`Xv6.System`: where the source calls `kalloc`, `copyuvm`, `kfree` or `freevm`, the
function here ends or begins.

`nextpid` is an `int` that the source increments without a check; it is modelled
without a bound.
-/

namespace Xv6

open Function (update)

/-- `ptable`, with the two variables `nextpid` and `initproc`. -/
structure Ptable where
  proc : Fin nproc → Proc
  nextpid : Int
  initproc : Fin nproc

namespace Ptable

/-- Overwrite one slot. -/
def set (t : Ptable) (i : Fin nproc) (p : Proc) : Ptable :=
  { t with proc := update t.proc i p }

/-- The first slot that passes a test, in table order. -/
def find (t : Ptable) (test : Proc → Bool) : Option (Fin nproc) :=
  (List.finRange nproc).find? fun i => test (t.proc i)

/-- `wakeup1`: all processes sleeping on `chan` become runnable. -/
def wakeup1 (t : Ptable) (chan : Option Chan) : Ptable :=
  { t with
    proc := fun i =>
      if (t.proc i).state = .sleeping ∧ (t.proc i).chan = chan then
        { t.proc i with state := .runnable }
      else t.proc i }

/-! ### Creating processes -/

/-- `allocproc` up to the allocation of the kernel stack: claim the first unused
slot. `killed`, `parent`, `chan`, `sz` and `pgdir` keep what the slot had. -/
def allocproc (t : Ptable) : Option (Fin nproc × Ptable) :=
  (t.find fun p => p.state = .unused).map fun i =>
    (i, { t.set i { t.proc i with
            state := .embryo
            pid := t.nextpid
            vmas := fun _ => Vma.empty
            priority := defaultPriority } with nextpid := t.nextpid + 1 })

/-- `allocproc` when there is no page for the kernel stack. -/
def allocprocFail (t : Ptable) (i : Fin nproc) : Ptable :=
  t.set i { t.proc i with kstack := 0, state := .unused }

/-- `allocproc` when there is. -/
def allocprocStack (t : Ptable) (i : Fin nproc) (kstack : Nat) : Ptable :=
  t.set i { t.proc i with kstack := kstack }

/-- `fork` when `copyuvm` fails. -/
def forkFail (t : Ptable) (i : Fin nproc) : Ptable :=
  t.set i { t.proc i with pgdir := 0, kstack := 0, state := .unused }

/-- The rest of `fork` once `copyuvm` has returned `pgdir`. -/
def forkCommit (t : Ptable) (cur i : Fin nproc) (pgdir : Nat) : Ptable :=
  t.set i { t.proc i with
    pgdir := pgdir
    sz := (t.proc cur).sz
    vmas := (t.proc cur).vmas
    parent := some cur
    priority := (t.proc cur).priority
    state := .runnable }

/-! ### Ending processes -/

/-- One round of `exit`'s loop: an abandoned child is passed to init. -/
def passToInit (t : Ptable) (cur i : Fin nproc) : Ptable :=
  if (t.proc i).parent = some cur then
    let t := t.set i { t.proc i with parent := some t.initproc }
    if (t.proc i).state = .zombie then t.wakeup1 (some (.proc t.initproc)) else t
  else t

/-- `exit`, up to `sched`. -/
def exit (t : Ptable) (cur : Fin nproc) : Ptable :=
  let t := t.wakeup1 ((t.proc cur).parent.map .proc)
  let t := (List.finRange nproc).foldl (fun t i => t.passToInit cur i) t
  t.set cur { t.proc cur with state := .zombie }

/-- What `wait` finds when it scans the table. -/
inductive Wait
  /-- A zombie child. -/
  | zombie (i : Fin nproc)
  /-- No children, or the caller has been killed: return -1. -/
  | fail
  /-- Children, all running: sleep and scan again. -/
  | block

/-- `wait`'s scan. -/
def waitScan (t : Ptable) (cur : Fin nproc) : Wait :=
  match t.find fun p => p.parent = some cur ∧ p.state = .zombie with
  | some i => .zombie i
  | none =>
    if (t.find fun p => p.parent = some cur) = none ∨ (t.proc cur).killed then .fail
    else .block

/-- `wait` after it has freed a zombie's memory. The page directory pointer is
left as it was. -/
def reap (t : Ptable) (i : Fin nproc) : Ptable :=
  t.set i { t.proc i with
    kstack := 0
    pid := 0
    parent := none
    killed := false
    state := .unused }

/-- `kill`: mark the first slot with this pid. -/
def kill (t : Ptable) (pid : Int) : Int × Ptable :=
  match t.find fun p => p.pid = pid with
  | some i => (0, t.set i { t.proc i with
      killed := true
      state := if (t.proc i).state = .sleeping then .runnable else (t.proc i).state })
  | none => (-1, t)

/-! ### Priorities -/

/-- `setprio` for the process in slot `cur`. -/
def setprio (t : Ptable) (cur : Fin nproc) (priority : Int) : Int × Ptable :=
  if priority < 1 ∨ maxPriority < priority then (-1, t)
  else (0, t.set cur { t.proc cur with priority := priority })

/-! ### Reading the definitions -/

@[simp] theorem set_proc_self (t : Ptable) (i : Fin nproc) (p : Proc) : (t.set i p).proc i = p := by
  simp [set]

theorem set_proc_of_ne (t : Ptable) {i j : Fin nproc} (p : Proc) (h : j ≠ i) :
    (t.set i p).proc j = t.proc j := by
  simp [set, h]

theorem find_eq_some {t : Ptable} {test : Proc → Bool} {i : Fin nproc}
    (h : t.find test = some i) : test (t.proc i) = true := by
  simpa [find] using List.find?_some h

theorem find_eq_none {t : Ptable} {test : Proc → Bool} :
    t.find test = none ↔ ∀ i, test (t.proc i) = false := by
  simp [find, List.find?_eq_none]

theorem allocproc_inv {t t' : Ptable} {i : Fin nproc} (h : t.allocproc = some (i, t')) :
    (t.proc i).state = .unused ∧
      t' = { t.set i { t.proc i with
              state := .embryo
              pid := t.nextpid
              vmas := fun _ => Vma.empty
              priority := defaultPriority } with nextpid := t.nextpid + 1 } := by
  obtain ⟨j, hj, heq⟩ := Option.map_eq_some_iff.mp h
  obtain ⟨rfl, rfl⟩ := Prod.mk.inj heq
  have hun := find_eq_some hj
  exact ⟨by simpa using hun, rfl⟩

theorem waitScan_zombie {t : Ptable} {cur j : Fin nproc} (h : t.waitScan cur = .zombie j) :
    (t.proc j).parent = some cur ∧ (t.proc j).state = .zombie := by
  unfold waitScan at h
  split at h
  · next i hi =>
      cases h
      simpa using find_eq_some hi
  · split at h <;> cases h

/-- `wait` sleeps only if it has found no zombie among the caller's children. -/
theorem waitScan_block {t : Ptable} {cur : Fin nproc} (h : t.waitScan cur = .block)
    (i : Fin nproc) (hi : (t.proc i).parent = some cur) : (t.proc i).state ≠ .zombie := by
  unfold waitScan at h
  split at h
  · cases h
  · next hnone =>
      have := find_eq_none.mp hnone i
      simp only [decide_eq_false_iff_not, not_and] at this
      exact this hi

/-! ### What `exit` does to the table -/

/-- What `wakeup1` and the loop of `exit` do to a table: sleeping processes may wake
up, and processes may get another parent. -/
structure Woken (t t' : Ptable) : Prop where
  state : ∀ i, (t'.proc i).state = (t.proc i).state ∨
    ((t.proc i).state = .sleeping ∧ (t'.proc i).state = .runnable)
  rest : ∀ i, ∃ parent,
    t'.proc i = { t.proc i with state := (t'.proc i).state, parent := parent }
  nextpid : t'.nextpid = t.nextpid
  initproc : t'.initproc = t.initproc

theorem Woken.refl (t : Ptable) : t.Woken t :=
  ⟨fun _ => .inl rfl, fun _ => ⟨_, rfl⟩, rfl, rfl⟩

theorem Woken.trans {t t1 t' : Ptable} (h1 : t.Woken t1) (h2 : t1.Woken t') : t.Woken t' := by
  refine ⟨fun i => ?_, fun i => ?_, h2.nextpid.trans h1.nextpid, h2.initproc.trans h1.initproc⟩
  · rcases h2.state i with h2 | h2
    · rw [h2]
      exact h1.state i
    · rcases h1.state i with h1 | h1
      · rw [h1] at h2
        exact .inr h2
      · -- a process woken before is not asleep
        rw [h1.2] at h2
        exact absurd h2.1 (by simp)
  · obtain ⟨_, h1⟩ := h1.rest i
    obtain ⟨parent, h2⟩ := h2.rest i
    exact ⟨parent, by rw [h2, h1]⟩

theorem woken_wakeup1 (t : Ptable) (chan : Option Chan) : t.Woken (t.wakeup1 chan) := by
  refine ⟨fun i => ?_, fun i => ⟨(t.proc i).parent, ?_⟩, rfl, rfl⟩
  · simp only [wakeup1]
    split
    · next hs => exact .inr ⟨hs.1, rfl⟩
    · exact .inl rfl
  · simp only [wakeup1]
    split <;> rfl

theorem woken_passToInit (t : Ptable) (cur i : Fin nproc) : t.Woken (t.passToInit cur i) := by
  unfold passToInit
  split
  · have hset : t.Woken (t.set i { t.proc i with parent := some t.initproc }) := by
      refine ⟨fun j => .inl ?_, fun j => ?_, rfl, rfl⟩
      · by_cases hj : j = i
        · rw [hj, set_proc_self]
        · rw [set_proc_of_ne _ _ hj]
      · by_cases hj : j = i
        · exact ⟨some t.initproc, by rw [hj, set_proc_self]⟩
        · exact ⟨(t.proc j).parent, by rw [set_proc_of_ne _ _ hj]⟩
    dsimp only
    split
    · exact hset.trans (woken_wakeup1 _ _)
    · exact hset
  · exact .refl t

theorem woken_passAll (cur : Fin nproc) (l : List (Fin nproc)) :
    ∀ t : Ptable, t.Woken (l.foldl (fun t i => t.passToInit cur i) t) := by
  induction l with
  | nil => exact fun t => .refl t
  | cons i l ih => exact fun t => (woken_passToInit t cur i).trans (ih _)

/-- `exit` makes the caller a zombie, and otherwise only wakes processes up and
changes parents. -/
theorem exit_eq (t : Ptable) (cur : Fin nproc) :
    ∃ t1, t.Woken t1 ∧ t.exit cur = t1.set cur { t1.proc cur with state := .zombie } :=
  ⟨_, (woken_wakeup1 t ((t.proc cur).parent.map .proc)).trans
    (woken_passAll cur (List.finRange nproc) _), rfl⟩

theorem exit_self (t : Ptable) (cur : Fin nproc) : ((t.exit cur).proc cur).state = .zombie := by
  obtain ⟨t1, -, heq⟩ := t.exit_eq cur
  rw [heq, set_proc_self]

theorem exit_other (t : Ptable) {cur i : Fin nproc} (h : i ≠ cur) :
    (((t.exit cur).proc i).state = (t.proc i).state ∨
      ((t.proc i).state = .sleeping ∧ ((t.exit cur).proc i).state = .runnable)) ∧
    ∃ parent, (t.exit cur).proc i =
      { t.proc i with state := ((t.exit cur).proc i).state, parent := parent } := by
  obtain ⟨t1, hw, heq⟩ := t.exit_eq cur
  rw [heq, set_proc_of_ne _ _ h]
  exact ⟨hw.state i, hw.rest i⟩

theorem exit_rest (t : Ptable) (cur p : Fin nproc) : ∃ parent,
    (t.exit cur).proc p =
      { t.proc p with state := ((t.exit cur).proc p).state, parent := parent } := by
  obtain ⟨t1, hw, heq⟩ := t.exit_eq cur
  obtain ⟨parent, hrest⟩ := hw.rest p
  refine ⟨parent, ?_⟩
  rw [heq]
  by_cases hp : p = cur
  · subst hp
    rw [set_proc_self, hrest]
  · rw [set_proc_of_ne _ _ hp]
    exact hrest

theorem exit_globals (t : Ptable) (cur : Fin nproc) :
    (t.exit cur).nextpid = t.nextpid ∧ (t.exit cur).initproc = t.initproc := by
  obtain ⟨t1, hw, heq⟩ := t.exit_eq cur
  rw [heq]
  exact ⟨hw.nextpid, hw.initproc⟩

/-! ### Parents and sleepers after `exit` -/

theorem passToInit_parent (t : Ptable) (cur i p : Fin nproc) :
    ((t.passToInit cur i).proc p).parent =
      if p = i ∧ (t.proc p).parent = some cur then some t.initproc else (t.proc p).parent := by
  have hwake : ∀ (t : Ptable) (chan : Option Chan),
      ((t.wakeup1 chan).proc p).parent = (t.proc p).parent := by
    intro t chan
    simp only [wakeup1]
    split <;> rfl
  unfold passToInit
  by_cases hpi : p = i
  · subst hpi
    split
    · next hcur =>
        dsimp only
        split
        · rw [hwake, set_proc_self, if_pos ⟨rfl, hcur⟩]
        · rw [set_proc_self, if_pos ⟨rfl, hcur⟩]
    · next hcur => rw [if_neg (fun h => hcur h.2)]
  · have hother : ¬ (p = i ∧ (t.proc p).parent = some cur) := fun h => hpi h.1
    simp only [hother, if_false]
    split
    · split
      · rw [hwake, set_proc_of_ne _ _ hpi]
      · rw [set_proc_of_ne _ _ hpi]
    · rfl

theorem passAll_parent (cur p : Fin nproc) (l : List (Fin nproc)) :
    ∀ t : Ptable, ((l.foldl (fun t i => t.passToInit cur i) t).proc p).parent =
      if p ∈ l ∧ (t.proc p).parent = some cur then some t.initproc
      else (t.proc p).parent := by
  induction l with
  | nil =>
    intro t
    simp
  | cons i l ih =>
    intro t
    rw [List.foldl_cons, ih, passToInit_parent, (woken_passToInit t cur i).initproc]
    grind

/-- `exit` passes the caller's children to init and leaves the other parents. -/
theorem exit_parent (t : Ptable) (cur p : Fin nproc) :
    ((t.exit cur).proc p).parent =
      if (t.proc p).parent = some cur then some t.initproc else (t.proc p).parent := by
  have hwake : ((t.wakeup1 ((t.proc cur).parent.map .proc)).proc p).parent =
      (t.proc p).parent := by
    simp only [wakeup1]
    split <;> rfl
  have hall := passAll_parent cur p (List.finRange nproc)
    (t.wakeup1 ((t.proc cur).parent.map .proc))
  rw [hwake] at hall
  simp only [List.mem_finRange, true_and] at hall
  unfold exit
  dsimp only
  generalize List.foldl _ _ _ = t1 at hall ⊢
  by_cases hp : p = cur
  · subst hp
    rw [set_proc_self]
    exact hall
  · rw [set_proc_of_ne _ _ hp]
    exact hall

theorem Woken.sleeping {t t' : Ptable} (h : t.Woken t') {p : Fin nproc}
    (hp : (t'.proc p).state = .sleeping) :
    (t.proc p).state = .sleeping ∧ (t'.proc p).chan = (t.proc p).chan := by
  obtain ⟨parent, hrest⟩ := h.rest p
  rcases h.state p with hs | ⟨-, hs⟩
  · exact ⟨hs ▸ hp, by rw [hrest]⟩
  · rw [hs] at hp
    exact absurd hp (by simp)

/-- Nobody sleeps on a channel that has just been woken. -/
theorem wakeup1_sleeping {t : Ptable} {chan : Option Chan} {p : Fin nproc}
    (hp : ((t.wakeup1 chan).proc p).state = .sleeping) : (t.proc p).chan ≠ chan := by
  intro hc
  simp only [wakeup1] at hp
  split at hp
  · exact absurd hp (by simp)
  · next hno => exact hno ⟨hp, hc⟩

/-- If init still sleeps in `wait` after the loop of `exit`, no zombie was passed to it. -/
theorem passAll_sleeping {cur p z : Fin nproc} (l : List (Fin nproc)) :
    ∀ t : Ptable, ((l.foldl (fun t i => t.passToInit cur i) t).proc p).state = .sleeping →
      (t.proc p).chan = some (.proc t.initproc) → z ∈ l → (t.proc z).parent = some cur →
      (t.proc z).state ≠ .zombie := by
  induction l with
  | nil => exact fun t _ _ hz => absurd hz (by simp)
  | cons i l ih =>
    intro t hp hchan hz hcur hzombie
    rw [List.foldl_cons] at hp
    have hw := woken_passToInit t cur i
    have hsleep := (woken_passAll cur l _).sleeping hp
    by_cases hzi : z = i
    · -- this round wakes init up
      subst hzi
      have hpass : t.passToInit cur z = (t.set z { t.proc z with
          parent := some t.initproc }).wakeup1 (some (.proc t.initproc)) := by
        unfold passToInit
        rw [if_pos hcur]
        dsimp only
        rw [set_proc_self, if_pos hzombie]
        rfl
      rw [hpass] at hsleep
      have hne := wakeup1_sleeping hsleep.1
      by_cases hpz : p = z
      · rw [hpz, set_proc_self] at hne
        exact hne (hpz ▸ hchan)
      · rw [set_proc_of_ne _ _ hpz] at hne
        exact hne hchan
    · -- a later round does
      refine ih (t.passToInit cur i) hp ?_ ((List.mem_cons.mp hz).resolve_left hzi) ?_ ?_
      · rw [(hw.sleeping hsleep.1).2, hw.initproc, hchan]
      · rw [passToInit_parent, if_neg (fun h => hzi h.1), hcur]
      · rcases hw.state z with hs | ⟨hs, -⟩
        · rw [hs, hzombie]
        · rw [hzombie] at hs
          exact absurd hs (by simp)

/-- A process that still sleeps after another's `exit` does not wait for it, and if it
is init in `wait`, no zombie was passed to it. -/
theorem exit_sleeping {t : Ptable} {cur p : Fin nproc}
    (hp : ((t.exit cur).proc p).state = .sleeping) :
    (t.proc p).state = .sleeping ∧ (t.proc p).chan ≠ (t.proc cur).parent.map .proc ∧
      ((t.proc p).chan = some (.proc t.initproc) →
        ∀ z, (t.proc z).parent = some cur → (t.proc z).state ≠ .zombie) := by
  have hpc : p ≠ cur := by
    rintro rfl
    rw [exit_self] at hp
    exact absurd hp (by simp)
  unfold exit at hp
  rw [set_proc_of_ne _ _ hpc] at hp
  have hwake := woken_wakeup1 t ((t.proc cur).parent.map .proc)
  have hsleep := (woken_passAll cur (List.finRange nproc) _).sleeping hp
  refine ⟨(hwake.sleeping hsleep.1).1, wakeup1_sleeping hsleep.1, fun hchan z hz hzombie => ?_⟩
  refine passAll_sleeping (z := z) (List.finRange nproc) _ hp ?_ (List.mem_finRange z) ?_ ?_
  · rw [(hwake.sleeping hsleep.1).2, hchan, hwake.initproc]
  · simp only [wakeup1]
    split <;> exact hz
  · rcases hwake.state z with hs | ⟨hs, -⟩
    · rw [hs, hzombie]
    · rw [hzombie] at hs
      exact absurd hs (by simp)

end Ptable

end Xv6
