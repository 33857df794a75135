import Xv6.Dispatch

/-!
# Xv6.ProcTree

Parents, pids and reaping over whole runs of `Xv6.Dispatch`.

`Ptable.Tree es t` relates the process table to what has happened so far: every
process that has begun has a living parent, its creator or init; pids are not reused;
nobody sleeps in `wait` over a dead child; and each pid is returned by at most one
`wait`. Each kind of step has one rule for it.
-/

namespace Xv6

open Function (update)

/-- SLEEPING, RUNNABLE or RUNNING. -/
def ProcState.alive : ProcState → Bool
  | .sleeping | .runnable | .running => true
  | _ => false

/-- SLEEPING, RUNNABLE, RUNNING or ZOMBIE. -/
def ProcState.begun : ProcState → Bool
  | .unused | .embryo => false
  | _ => true

theorem ProcState.begun_of_alive {s : ProcState} (h : s.alive = true) : s.begun = true := by
  cases s <;> simp_all [alive, begun]

/-- The pid a `wait` has returned. -/
def Ev.waited : Ev → Option Int
  | .wait _ pid => some pid
  | _ => none

namespace Ptable

/-- The invariant of the process tree, after the events `es`. -/
structure Tree (es : List Ev) (t : Ptable) : Prop where
  init_alive : (t.proc t.initproc).state.alive = true
  init_pid : (t.proc t.initproc).pid = 1
  init_parent : (t.proc t.initproc).parent = none
  /-- The parent is init or the creator. -/
  parent : ∀ p, (t.proc p).state.begun = true → p ≠ t.initproc →
    ∃ q, (t.proc p).parent = some q ∧ q ≠ p ∧ (t.proc q).state.alive = true ∧
      (q = t.initproc ∨ .fork (t.proc q).pid (t.proc p).pid ∈ es)
  pid_lt : ∀ p, (t.proc p).pid < t.nextpid
  pid_pos : ∀ p, (t.proc p).state ≠ .unused → (t.proc p).pid ≠ 0
  pid_inj : ∀ p q, (t.proc p).pid = (t.proc q).pid → (t.proc p).pid ≠ 0 → p = q
  nextpid_pos : 0 < t.nextpid
  asleep : ∀ p, (t.proc p).state = .sleeping → (t.proc p).chan = some (.proc p) →
    ∀ z, (t.proc z).state = .zombie → (t.proc z).parent ≠ some p
  exited : ∀ z, (t.proc z).state = .zombie → .exit (t.proc z).pid ∈ es
  /-- A reaped pid is in use nowhere. -/
  reaped : ∀ w pid, .wait w pid ∈ es → pid < t.nextpid ∧ pid ≠ 0 ∧ ∀ p, (t.proc p).pid ≠ pid
  nodup : (es.filterMap Ev.waited).Nodup
  history : ∀ w pid, .wait w pid ∈ es → .exit pid ∈ es ∧ (w = 1 ∨ .fork w pid ∈ es)

variable {es : List Ev} {t t' : Ptable} {i j : Fin nproc} {x : Proc}

theorem boot_proc (kstack pgdir : Nat) (i : Fin nproc) :
    (boot kstack pgdir).proc i =
      if i = (boot kstack pgdir).initproc then initProc kstack pgdir else Proc.zero := by
  simp [boot, Fin.ext_iff]

theorem tree_boot (kstack pgdir : Nat) : (boot kstack pgdir).Tree [] := by
  have hinit : (boot kstack pgdir).proc (boot kstack pgdir).initproc = initProc kstack pgdir := by
    rw [boot_proc, if_pos rfl]
  have hother : ∀ p, p ≠ (boot kstack pgdir).initproc → (boot kstack pgdir).proc p = Proc.zero :=
    fun p hp => by rw [boot_proc, if_neg hp]
  have hstate : ∀ p, (boot kstack pgdir).proc p = initProc kstack pgdir ∨
      (boot kstack pgdir).proc p = Proc.zero := by
    intro p
    rw [boot_proc]
    split
    · exact .inl rfl
    · exact .inr rfl
  refine ⟨by rw [hinit]; rfl, by rw [hinit]; rfl, by rw [hinit]; rfl, ?_, ?_, ?_, ?_,
    show (0 : Int) < 2 by decide, ?_, ?_, by simp, List.nodup_nil, by simp⟩
  · intro p hp hne
    rw [hother p hne] at hp
    exact absurd hp (by decide)
  · intro p
    show _ < (2 : Int)
    rcases hstate p with h | h <;> simp [h, initProc, Proc.zero]
  · intro p hp
    rcases hstate p with h | h <;> rw [h] at hp ⊢
    · exact show (1 : Int) ≠ 0 by decide
    · exact absurd rfl hp
  · intro p q hpq hne
    by_cases hp : p = (boot kstack pgdir).initproc
    · by_cases hq : q = (boot kstack pgdir).initproc
      · rw [hp, hq]
      · rw [hpq, hother q hq] at hne
        exact absurd rfl hne
    · rw [hother p hp] at hne
      exact absurd rfl hne
  · intro p hp
    rcases hstate p with h | h <;> simp [h, initProc, Proc.zero] at hp
  · intro p hp
    rcases hstate p with h | h <;> simp [h, initProc, Proc.zero] at hp

/-! ### Steps that only move processes between queues -/

/-- What scheduling, sleeping, waking up, killing and `setprio` do to the tree: nothing,
as long as nobody goes to sleep in `wait` over a dead child. -/
structure Shuffle (t t' : Ptable) : Prop where
  nextpid : t'.nextpid = t.nextpid
  initproc : t'.initproc = t.initproc
  pid : ∀ p, (t'.proc p).pid = (t.proc p).pid
  parent : ∀ p, (t'.proc p).parent = (t.proc p).parent
  state : ∀ p, (t'.proc p).state = (t.proc p).state ∨
    ((t.proc p).state.alive = true ∧ (t'.proc p).state.alive = true)
  asleep : ∀ p, (t'.proc p).state = .sleeping → (t'.proc p).chan = some (.proc p) →
    ((t.proc p).state = .sleeping ∧ (t.proc p).chan = some (.proc p)) ∨
    ∀ z, (t.proc z).parent = some p → (t.proc z).state ≠ .zombie

/-- A state that is not alive stays as it is. -/
theorem Shuffle.state_eq (h : t.Shuffle t') {p : Fin nproc} {s : ProcState}
    (hs : s.alive = false) : (t'.proc p).state = s ↔ (t.proc p).state = s := by
  rcases h.state p with he | ⟨h1, h2⟩
  · rw [he]
  · constructor
    · intro he
      rw [he, hs] at h2
      exact absurd h2 (by simp)
    · intro he
      rw [he, hs] at h1
      exact absurd h1 (by simp)

theorem Shuffle.alive (h : t.Shuffle t') (p : Fin nproc) :
    (t'.proc p).state.alive = (t.proc p).state.alive := by
  rcases h.state p with he | ⟨h1, h2⟩
  · rw [he]
  · rw [h1, h2]

theorem Shuffle.begun (h : t.Shuffle t') (p : Fin nproc) :
    (t'.proc p).state.begun = (t.proc p).state.begun := by
  rcases h.state p with he | ⟨h1, h2⟩
  · rw [he]
  · rw [ProcState.begun_of_alive h1, ProcState.begun_of_alive h2]

theorem Tree.shuffle (h : t.Tree es) (hs : t.Shuffle t') : t'.Tree es := by
  refine ⟨?_, ?_, ?_, fun p hp hne => ?_, fun p => ?_, fun p hp => ?_, fun p q hpq hne => ?_, ?_,
    fun p hp hc z hz => ?_, fun z hz => ?_, fun w pid hm => ?_, h.nodup, h.history⟩
  · rw [hs.initproc, hs.alive, h.init_alive]
  · rw [hs.initproc, hs.pid, h.init_pid]
  · rw [hs.initproc, hs.parent, h.init_parent]
  · rw [hs.begun] at hp
    rw [hs.initproc] at hne
    obtain ⟨q, hq, hqp, halive, hcre⟩ := h.parent p hp hne
    refine ⟨q, by rw [hs.parent, hq], hqp, by rw [hs.alive, halive], ?_⟩
    rw [hs.initproc, hs.pid, hs.pid]
    exact hcre
  · rw [hs.pid, hs.nextpid]
    exact h.pid_lt p
  · rw [hs.pid]
    exact h.pid_pos p (fun hu => hp ((hs.state_eq rfl).mpr hu))
  · rw [hs.pid, hs.pid] at hpq
    rw [hs.pid] at hne
    exact h.pid_inj p q hpq hne
  · rw [hs.nextpid]
    exact h.nextpid_pos
  · rw [hs.state_eq rfl] at hz
    rw [hs.parent]
    rcases hs.asleep p hp hc with ⟨hp, hc⟩ | hno
    · exact h.asleep p hp hc z hz
    · exact fun hzp => hno z hzp hz
  · rw [hs.pid]
    exact h.exited z ((hs.state_eq rfl).mp hz)
  · obtain ⟨h1, h2, h3⟩ := h.reaped w pid hm
    refine ⟨by rw [hs.nextpid]; exact h1, h2, fun p => ?_⟩
    rw [hs.pid]
    exact h3 p

/-- Events other than the return of `wait` add nothing to explain. -/
theorem Tree.event {e : Ev} (h : t.Tree es) (he : e.waited = none) : t.Tree (es ++ [e]) := by
  have hmem : ∀ {e'}, e' ∈ es → e' ∈ es ++ [e] := List.mem_append_left _
  have hwait : ∀ {w pid}, .wait w pid ∈ es ++ [e] → .wait w pid ∈ es := by
    intro w pid hm
    rcases List.mem_append.mp hm with hm | hm
    · exact hm
    · rw [← List.mem_singleton.mp hm] at he
      exact absurd he (by simp [Ev.waited])
  refine { h with
    parent := fun p hp hne => ?_
    exited := fun z hz => hmem (h.exited z hz)
    reaped := fun w pid hm => h.reaped w pid (hwait hm)
    nodup := ?_
    history := fun w pid hm => ?_ }
  · obtain ⟨q, hq, hqp, halive, hcre⟩ := h.parent p hp hne
    exact ⟨q, hq, hqp, halive, hcre.imp id hmem⟩
  · rw [List.filterMap_append]
    simpa [he] using h.nodup
  · obtain ⟨h1, h2⟩ := h.history w pid (hwait hm)
    exact ⟨hmem h1, h2.imp id hmem⟩

theorem Shuffle.set (hpid : x.pid = (t.proc i).pid) (hparent : x.parent = (t.proc i).parent)
    (hstate : x.state = (t.proc i).state ∨
      ((t.proc i).state.alive = true ∧ x.state.alive = true))
    (hasleep : x.state = .sleeping → x.chan = some (.proc i) →
      ((t.proc i).state = .sleeping ∧ (t.proc i).chan = some (.proc i)) ∨
      ∀ z, (t.proc z).parent = some i → (t.proc z).state ≠ .zombie) :
    t.Shuffle (t.set i x) := by
  refine ⟨rfl, rfl, fun p => ?_, fun p => ?_, fun p => ?_, fun p hp hc => ?_⟩ <;>
    by_cases hpi : p = i
  · rw [hpi, set_proc_self, hpid]
  · rw [set_proc_of_ne _ _ hpi]
  · rw [hpi, set_proc_self, hparent]
  · rw [set_proc_of_ne _ _ hpi]
  · rw [hpi, set_proc_self]
    exact hstate
  · rw [set_proc_of_ne _ _ hpi]
    exact .inl rfl
  · subst hpi
    rw [set_proc_self] at hp hc
    exact hasleep hp hc
  · rw [set_proc_of_ne _ _ hpi] at hp hc
    exact .inl ⟨hp, hc⟩

theorem shuffle_wakeup1 (t : Ptable) (chan : Option Chan) : t.Shuffle (t.wakeup1 chan) := by
  have hw := woken_wakeup1 t chan
  refine ⟨rfl, rfl, fun p => ?_, fun p => ?_, fun p => ?_, fun p hp hc => .inl ?_⟩
  · simp only [wakeup1]
    split <;> rfl
  · simp only [wakeup1]
    split <;> rfl
  · rcases hw.state p with hs | ⟨hs, hs'⟩
    · exact .inl hs
    · rw [hs, hs']
      exact .inr ⟨rfl, rfl⟩
  · have hs := hw.sleeping hp
    exact ⟨hs.1, hs.2 ▸ hc⟩

theorem shuffle_kill (t : Ptable) (pid : Int) : t.Shuffle (t.kill pid).2 := by
  have hrefl : t.Shuffle t :=
    ⟨rfl, rfl, fun _ => rfl, fun _ => rfl, fun _ => .inl rfl, fun _ hp hc => .inl ⟨hp, hc⟩⟩
  unfold kill
  split
  · next i _ =>
      by_cases hs : (t.proc i).state = .sleeping
      · simp only [hs, if_true]
        exact .set rfl rfl (.inr ⟨by rw [hs]; rfl, rfl⟩) (fun h => absurd h (by simp))
      · simp only [hs, if_false]
        exact .set rfl rfl (.inl rfl) (fun h => absurd h hs)
  · exact hrefl

theorem shuffle_setprio (t : Ptable) (i : Fin nproc) (priority : Int) :
    t.Shuffle (t.setprio i priority).2 := by
  unfold setprio
  split
  · exact ⟨rfl, rfl, fun _ => rfl, fun _ => rfl, fun _ => .inl rfl,
      fun _ hp hc => .inl ⟨hp, hc⟩⟩
  · exact .set rfl rfl (.inl rfl) (fun hp hc => .inl ⟨hp, hc⟩)

/-! ### Steps that write one slot -/

/-- What claiming, giving up, filling in and reaping a slot have in common: it belongs to
no living process, and the step leaves no zombie and no sleeper in it. The last field
is for the step that returns a pid from `wait`. -/
structure Write (es : List Ev) (e : Ev) (t : Ptable) (j : Fin nproc) (x : Proc)
    (nextpid : Int) : Prop where
  nextpid_le : t.nextpid ≤ nextpid
  not_alive : (t.proc j).state.alive = false
  pid : x.pid = (t.proc j).pid ∨ x.pid = 0 ∨ x.pid = t.nextpid
  pid_lt : x.pid < nextpid
  pid_pos : x.state ≠ .unused → x.pid ≠ 0
  state : x.state ≠ .sleeping ∧ x.state ≠ .zombie
  parent : x.state.begun = true →
    ∃ q, x.parent = some q ∧ q ≠ j ∧ (t.proc q).state.alive = true ∧
      (q = t.initproc ∨ .fork (t.proc q).pid x.pid ∈ es ++ [e])
  waited : ∀ w pid, e = .wait w pid → pid = (t.proc j).pid ∧ pid ≠ 0 ∧ x.pid = 0 ∧
    .exit pid ∈ es ∧ (w = 1 ∨ .fork w pid ∈ es)

/-- A pid in the table has not been returned by `wait`. -/
theorem Tree.not_waited (h : t.Tree es) (p : Fin nproc) :
    (t.proc p).pid ∉ es.filterMap Ev.waited := by
  intro hm
  obtain ⟨e, he, hw⟩ := List.mem_filterMap.mp hm
  cases e with
  | wait w pid =>
    have := (h.reaped w pid he).2.2 p
    exact this (by simpa [Ev.waited] using hw.symm)
  | _ => exact absurd hw (by simp [Ev.waited])

theorem Tree.write {e : Ev} (nextpid : Int) (h : t.Tree es) (hw : Write es e t j x nextpid) :
    Tree (es ++ [e]) { t.set j x with nextpid := nextpid } := by
  have hmem : ∀ {e'}, e' ∈ es → e' ∈ es ++ [e] := List.mem_append_left _
  have hself : (t.set j x).proc j = x := t.set_proc_self j x
  have hoth : ∀ {p}, p ≠ j → (t.set j x).proc p = t.proc p := fun hp => t.set_proc_of_ne x hp
  -- a slot without a living process is neither init nor anybody's parent
  have hne : ∀ {q}, (t.proc q).state.alive = true → q ≠ j := by
    rintro q hq rfl
    rw [hw.not_alive] at hq
    exact absurd hq (by simp)
  have hinit := hne h.init_alive
  -- the new pid is the old one, none, or has never been used
  have hpid : ∀ {p}, p ≠ j → x.pid ≠ 0 → x.pid ≠ (t.proc p).pid := by
    intro p hp h0 heq
    rcases hw.pid with he | he | he
    · exact hp (h.pid_inj p j (by rw [← heq, he]) (by rwa [← heq]))
    · exact h0 he
    · have := h.pid_lt p
      omega
  refine ⟨?_, ?_, ?_, fun p hp hpi => ?_, fun p => ?_, fun p hp => ?_, fun p q hpq h0 => ?_, ?_,
    fun p hp hc z hz => ?_, fun z hz => ?_, fun w pid hm => ?_, ?_, fun w pid hm => ?_⟩
  · show ((t.set j x).proc t.initproc).state.alive = true
    rw [hoth hinit, h.init_alive]
  · show ((t.set j x).proc t.initproc).pid = 1
    rw [hoth hinit, h.init_pid]
  · show ((t.set j x).proc t.initproc).parent = none
    rw [hoth hinit, h.init_parent]
  · change ((t.set j x).proc p).state.begun = true at hp
    change p ≠ t.initproc at hpi
    show ∃ q, ((t.set j x).proc p).parent = some q ∧ q ≠ p ∧
      ((t.set j x).proc q).state.alive = true ∧
      (q = t.initproc ∨ .fork ((t.set j x).proc q).pid ((t.set j x).proc p).pid ∈ es ++ [e])
    by_cases hpj : p = j
    · subst hpj
      rw [hself] at hp ⊢
      obtain ⟨q, hq, hqp, halive, hcre⟩ := hw.parent hp
      exact ⟨q, hq, hqp, by rw [hoth hqp, halive], by rw [hoth hqp]; exact hcre⟩
    · rw [hoth hpj] at hp ⊢
      obtain ⟨q, hq, hqp, halive, hcre⟩ := h.parent p hp hpi
      have hqj := hne halive
      exact ⟨q, hq, hqp, by rw [hoth hqj, halive], by rw [hoth hqj]; exact hcre.imp id hmem⟩
  · show ((t.set j x).proc p).pid < nextpid
    by_cases hpj : p = j
    · rw [hpj, hself]
      exact hw.pid_lt
    · rw [hoth hpj]
      exact lt_of_lt_of_le (h.pid_lt p) hw.nextpid_le
  · change ((t.set j x).proc p).state ≠ .unused at hp
    show ((t.set j x).proc p).pid ≠ 0
    by_cases hpj : p = j
    · rw [hpj, hself] at hp ⊢
      exact hw.pid_pos hp
    · rw [hoth hpj] at hp ⊢
      exact h.pid_pos p hp
  · change ((t.set j x).proc p).pid = ((t.set j x).proc q).pid at hpq
    change ((t.set j x).proc p).pid ≠ 0 at h0
    by_cases hpj : p = j <;> by_cases hqj : q = j
    · rw [hpj, hqj]
    · rw [hpj, hself] at hpq h0
      rw [hoth hqj] at hpq
      exact absurd hpq (hpid hqj h0)
    · rw [hqj, hself, hoth hpj] at hpq
      rw [hoth hpj, hpq] at h0
      exact absurd hpq.symm (hpid hpj h0)
    · rw [hoth hpj, hoth hqj] at hpq
      rw [hoth hpj] at h0
      exact h.pid_inj p q hpq h0
  · exact lt_of_lt_of_le h.nextpid_pos hw.nextpid_le
  · change ((t.set j x).proc p).state = .sleeping at hp
    change ((t.set j x).proc p).chan = some (.proc p) at hc
    change ((t.set j x).proc z).state = .zombie at hz
    show ((t.set j x).proc z).parent ≠ some p
    have hpj : p ≠ j := by
      rintro rfl
      rw [hself] at hp
      exact hw.state.1 hp
    have hzj : z ≠ j := by
      rintro rfl
      rw [hself] at hz
      exact hw.state.2 hz
    rw [hoth hpj] at hp hc
    rw [hoth hzj] at hz ⊢
    exact h.asleep p hp hc z hz
  · change ((t.set j x).proc z).state = .zombie at hz
    show .exit ((t.set j x).proc z).pid ∈ es ++ [e]
    have hzj : z ≠ j := by
      rintro rfl
      rw [hself] at hz
      exact hw.state.2 hz
    rw [hoth hzj] at hz ⊢
    exact hmem (h.exited z hz)
  · show pid < nextpid ∧ pid ≠ 0 ∧ ∀ p, ((t.set j x).proc p).pid ≠ pid
    rcases List.mem_append.mp hm with hm | hm
    · obtain ⟨h1, h2, h3⟩ := h.reaped w pid hm
      refine ⟨lt_of_lt_of_le h1 hw.nextpid_le, h2, fun p => ?_⟩
      by_cases hpj : p = j
      · rw [hpj, hself]
        rcases hw.pid with he | he | he
        · rw [he]
          exact h3 j
        · rw [he]
          exact h2.symm
        · omega
      · rw [hoth hpj]
        exact h3 p
    · -- the pid that has just been returned
      obtain ⟨rfl, h0, hx, -⟩ := hw.waited w pid (List.mem_singleton.mp hm).symm
      refine ⟨lt_of_lt_of_le (h.pid_lt j) hw.nextpid_le, h0, fun p => ?_⟩
      by_cases hpj : p = j
      · rw [hpj, hself, hx]
        exact h0.symm
      · rw [hoth hpj]
        exact fun heq => hpj (h.pid_inj p j heq (by rwa [heq]))
  · rw [List.filterMap_append]
    cases hev : e with
    | wait w pid =>
      obtain ⟨rfl, -⟩ := hw.waited w pid hev
      have hnew := h.not_waited j
      simp only [List.filterMap_cons, List.filterMap_nil, Ev.waited]
      exact h.nodup.append (List.nodup_singleton _) (by simpa using hnew)
    | _ => simpa [List.filterMap_cons, Ev.waited] using h.nodup
  · rcases List.mem_append.mp hm with hm | hm
    · obtain ⟨h1, h2⟩ := h.history w pid hm
      exact ⟨hmem h1, h2.imp id hmem⟩
    · obtain ⟨-, -, -, h1, h2⟩ := hw.waited w pid (List.mem_singleton.mp hm).symm
      exact ⟨hmem h1, h2.imp id hmem⟩

/-! ### `exit` -/

theorem exit_alive {cur p : Fin nproc} (t : Ptable) (hp : p ≠ cur) :
    ((t.exit cur).proc p).state.alive = (t.proc p).state.alive := by
  rcases (t.exit_other hp).1 with he | ⟨he, he'⟩
  · rw [he]
  · rw [he, he']
    rfl

theorem exit_begun {cur p : Fin nproc} (t : Ptable) (hcur : (t.proc cur).state.alive = true) :
    ((t.exit cur).proc p).state.begun = (t.proc p).state.begun := by
  by_cases hp : p = cur
  · subst hp
    rw [exit_self, ProcState.begun_of_alive hcur]
    rfl
  · rcases (t.exit_other hp).1 with he | ⟨he, he'⟩
    · rw [he]
    · rw [he, he']
      rfl

theorem exit_zombie {cur p : Fin nproc} (t : Ptable) (hp : p ≠ cur) :
    ((t.exit cur).proc p).state = .zombie ↔ (t.proc p).state = .zombie := by
  rcases (t.exit_other hp).1 with he | ⟨he, he'⟩
  · rw [he]
  · simp [he, he']

theorem exit_pid (t : Ptable) (cur p : Fin nproc) :
    ((t.exit cur).proc p).pid = (t.proc p).pid := by
  obtain ⟨parent, hrest⟩ := t.exit_rest cur p
  rw [hrest]

theorem exit_chan (t : Ptable) (cur p : Fin nproc) :
    ((t.exit cur).proc p).chan = (t.proc p).chan := by
  obtain ⟨parent, hrest⟩ := t.exit_rest cur p
  rw [hrest]

theorem Tree.exit (h : t.Tree es) (hi : (t.proc i).state.alive = true) (hne : i ≠ t.initproc) :
    (t.exit i).Tree (es ++ [.exit (t.proc i).pid]) := by
  have hmem : ∀ {e'}, e' ∈ es → e' ∈ es ++ [.exit (t.proc i).pid] := List.mem_append_left _
  have hwait : ∀ {w pid}, .wait w pid ∈ es ++ [.exit (t.proc i).pid] → .wait w pid ∈ es := by
    intro w pid hm
    simpa using hm
  obtain ⟨hnext, hinit⟩ := t.exit_globals i
  have hself : (t.proc i).parent ≠ some i := by
    obtain ⟨q, hq, hqi, -⟩ := h.parent i (ProcState.begun_of_alive hi) hne
    rw [hq]
    simpa using hqi
  refine ⟨?_, ?_, ?_, fun p hp hpi => ?_, fun p => ?_, fun p hp => ?_, fun p q hpq h0 => ?_, ?_,
    fun p hp hc z hz => ?_, fun z hz => ?_, fun w pid hm => ?_, ?_, fun w pid hm => ?_⟩
  · rw [hinit, exit_alive t hne.symm, h.init_alive]
  · rw [hinit, exit_pid, h.init_pid]
  · rw [hinit, exit_parent, h.init_parent]
    simp
  · rw [exit_begun t hi] at hp
    rw [hinit] at hpi ⊢
    obtain ⟨q, hq, hqp, halive, hcre⟩ := h.parent p hp hpi
    rw [exit_parent, hq, exit_pid]
    by_cases hqi : q = i
    · -- an abandoned child
      subst hqi
      rw [if_pos rfl]
      exact ⟨t.initproc, rfl, hpi.symm, by rw [exit_alive t hne.symm, h.init_alive], .inl rfl⟩
    · rw [if_neg (by simpa using hqi)]
      refine ⟨q, rfl, hqp, by rw [exit_alive t hqi, halive], ?_⟩
      rw [exit_pid]
      exact hcre.imp id hmem
  · rw [exit_pid, hnext]
    exact h.pid_lt p
  · rw [exit_pid]
    refine h.pid_pos p fun hu => hp ?_
    have hpi : p ≠ i := by
      rintro rfl
      rw [hu] at hi
      exact absurd hi (by decide)
    rcases (t.exit_other hpi).1 with he | ⟨he, -⟩
    · rw [he, hu]
    · rw [hu] at he
      exact absurd he (by simp)
  · rw [exit_pid, exit_pid] at hpq
    rw [exit_pid] at h0
    exact h.pid_inj p q hpq h0
  · rw [hnext]
    exact h.nextpid_pos
  · rw [exit_chan] at hc
    obtain ⟨hsleep, hnot, hno⟩ := exit_sleeping hp
    rw [hc] at hnot hno
    rw [exit_parent]
    by_cases hzi : z = i
    · -- the caller itself: its parent has been woken up
      rw [hzi, if_neg hself]
      intro hpar
      exact hnot (by rw [hpar]; rfl)
    · rw [exit_zombie t hzi] at hz
      split
      · next hpar =>
          -- a zombie passed to init, which has been woken up
          intro hpp
          have : t.initproc = p := by simpa using hpp
          exact hno (by rw [this]) z hpar hz
      · exact h.asleep p hsleep hc z hz
  · rw [exit_pid]
    by_cases hzi : z = i
    · rw [hzi]
      simp
    · exact hmem (h.exited z ((exit_zombie t hzi).mp hz))
  · obtain ⟨h1, h2, h3⟩ := h.reaped w pid (hwait hm)
    refine ⟨by rw [hnext]; exact h1, h2, fun p => ?_⟩
    rw [exit_pid]
    exact h3 p
  · rw [List.filterMap_append]
    simpa [List.filterMap_cons, Ev.waited] using h.nodup
  · obtain ⟨h1, h2⟩ := h.history w pid (hwait hm)
    exact ⟨hmem h1, h2.imp id hmem⟩

end Ptable

/-! ### Runs -/

namespace Disp

variable {ncpu : Nat} {d d' : Disp ncpu} {es : List Ev} {c : Fin ncpu} {round : Nat}
  {i : Fin nproc}

theorem Sound.alive (h : d.Sound) (hpc : (d.cpu c).pc = .away round i) :
    (d.pt.proc i).state.alive = true := by
  rw [h.running_of_away hpc]
  rfl

theorem tree_waitTurn (ht : d.pt.Tree es) (hi : (d.pt.proc i).state.alive = true) :
    (d.waitTurn c round i).2.pt.Tree (es ++ [(d.waitTurn c round i).1]) := by
  unfold waitTurn
  split
  · next j hscan =>
      obtain ⟨hpar, hz⟩ := Ptable.waitScan_zombie hscan
      have hj : j ≠ d.pt.initproc := by
        rintro rfl
        have := ht.init_alive
        rw [hz] at this
        exact absurd this (by decide)
      have hpid : (d.pt.proc j).pid ≠ 0 := ht.pid_pos j (by simp [hz])
      obtain ⟨q, hq, -, -, hcre⟩ := ht.parent j (by rw [hz]; rfl) hj
      obtain rfl : i = q := by
        rw [hpar] at hq
        exact Option.some.inj hq
      refine ht.write d.pt.nextpid ⟨le_rfl, by rw [hz]; rfl, .inr (.inl rfl),
        ht.nextpid_pos, fun h => absurd rfl h, ⟨by simp, by simp⟩,
        fun h => absurd h (by simp [ProcState.begun]), ?_⟩
      intro w pid hev
      obtain ⟨rfl, rfl⟩ := Ev.wait.inj hev
      refine ⟨rfl, hpid, rfl, ht.exited j hz, ?_⟩
      rcases hcre with rfl | hcre
      · exact .inl ht.init_pid
      · exact .inr hcre
  · exact ht.event rfl
  · next hscan =>
      refine Ptable.Tree.event (ht.shuffle ?_) rfl
      exact .set rfl rfl (.inr ⟨hi, rfl⟩) (fun _ _ => .inr (Ptable.waitScan_block hscan))

theorem Step.tree {e : Ev} (h : d.Sound) (ht : d.pt.Tree es) (hs : Step d e d') :
    d'.pt.Tree (es ++ [e]) := by
  cases hs with
  | schedule hs =>
    refine Ptable.Tree.event ?_ rfl
    cases schedule_inv hs with
    | switch hpc hrun _ =>
      exact ht.shuffle (.set rfl rfl (.inr ⟨by rw [hrun]; rfl, rfl⟩)
        (fun hsl => absurd hsl (by simp)))
    | acquire | skip | release => exact ht
  | @resume c round i hpc _ =>
    have htidy : (d.tidy i).pt.Tree es :=
      ht.shuffle (.set rfl rfl (.inl rfl) (fun _ hc => absurd hc (by simp)))
    unfold Disp.resume
    split
    · exact ht.event rfl
    · exact htidy.event rfl
    · exact tree_waitTurn htidy ((h.tidy i).alive hpc)
  | yield hpc _ =>
    refine Ptable.Tree.event (ht.shuffle ?_) rfl
    exact .set rfl rfl (.inr ⟨h.alive hpc, rfl⟩) (fun hsl => absurd hsl (by simp))
  | sleep a hf =>
    refine Ptable.Tree.event (ht.shuffle ?_) rfl
    exact .set rfl rfl (.inr ⟨h.alive hf.pc, rfl⟩) (fun _ hc => absurd hc (by simp))
  | wakeup a _ => exact (ht.shuffle (Ptable.shuffle_wakeup1 _ _)).event rfl
  | kill pid _ => exact (ht.shuffle (Ptable.shuffle_kill _ pid)).event rfl
  | setprio priority _ => exact (ht.shuffle (Ptable.shuffle_setprio _ _ priority)).event rfl
  | exit hf hne => exact ht.exit (h.alive hf.pc) hne
  | wait hf => exact tree_waitTurn ht (h.alive hf.pc)
  | forkAlloc _ ha =>
    obtain ⟨hun, rfl⟩ := Ptable.allocproc_inv ha
    have hnext := ht.nextpid_pos
    exact ht.write _ ⟨by omega, by rw [hun]; rfl, .inr (.inr rfl), by simp,
      fun _ => by simpa using hnext.ne', ⟨by simp, by simp⟩,
      fun hb => absurd hb (by simp [ProcState.begun]),
      fun _ _ hev => absurd hev (by simp)⟩
  | forkNoStack _ _ hnp | forkNoMemory _ _ hnp =>
    exact ht.write d.pt.nextpid ⟨le_rfl, by rw [h.embryo _ _ hnp]; rfl, .inl rfl,
      ht.pid_lt _, fun hu => absurd rfl hu, ⟨by simp, by simp⟩,
      fun hb => absurd hb (by simp [ProcState.begun]),
      fun _ _ hev => absurd hev (by simp)⟩
  | @forkCommit c round i j kstack pgdir hpc _ hnp =>
    have hij := h.np_ne hpc hnp
    rw [commit_eq _ _ _ _ _ hij]
    have hemb := h.embryo i j hnp
    exact ht.write d.pt.nextpid ⟨le_rfl, by rw [hemb]; rfl, .inl rfl,
      ht.pid_lt j, fun _ => ht.pid_pos j (by simp [hemb]), ⟨by simp, by simp⟩,
      fun _ => ⟨i, rfl, hij, h.alive hpc, .inr (by simp)⟩,
      fun _ _ hev => absurd hev (by simp)⟩

theorem Run.tree {kstack pgdir : Nat} {x : List Ev × Disp ncpu}
    (h : Run ncpu kstack pgdir x) : x.2.pt.Tree x.1 := by
  refine (h.invariant (I := fun x => x.2.Sound ∧ x.2.pt.Tree x.1) (fun x hx => ?_)
    (fun x y hI hs => ?_)).2
  · rw [hx]
    exact ⟨sound_boot kstack pgdir, Ptable.tree_boot kstack pgdir⟩
  · obtain ⟨e, hs, hes⟩ := hs
    rw [hes]
    exact ⟨hs.sound hI.1, hs.tree hI.1 hI.2⟩

/-- The step in which `wait` returns a pid. -/
theorem waitTurn_wait {w pid : Int} (h : (d.waitTurn c round i).1 = .wait w pid) :
    ∃ z, (d.pt.proc i).pid = w ∧ (d.pt.proc z).pid = pid ∧ (d.pt.proc z).state = .zombie ∧
      (d.pt.proc z).parent = some i := by
  unfold waitTurn at h
  split at h
  · next j hscan =>
      obtain ⟨hpar, hz⟩ := Ptable.waitScan_zombie hscan
      obtain ⟨hw, hpid⟩ := Ev.wait.inj h
      exact ⟨j, hw, hpid, hz, hpar⟩
  · exact absurd h (by simp)
  · exact absurd h (by simp)

/-- `wait` returns the pid of a zombie to its parent. -/
theorem Step.wait_parent {w pid : Int} (hs : Step d (.wait w pid) d') :
    ∃ i z, (d.pt.proc i).pid = w ∧ (d.pt.proc z).pid = pid ∧ (d.pt.proc z).state = .zombie ∧
      (d.pt.proc z).parent = some i := by
  generalize he : Ev.wait w pid = e at hs
  cases hs with
  | @resume c round i _ _ =>
    unfold Disp.resume at he
    split at he
    · exact absurd he (by simp)
    · exact absurd he (by simp)
    · obtain ⟨z, hw, hpid, hz, hpar⟩ := waitTurn_wait he.symm
      -- `tidy` has only cleared `chan`
      have htidy : ∀ p, (d.tidy i).pt.proc p =
          { d.pt.proc p with chan := ((d.tidy i).pt.proc p).chan } := by
        intro p
        by_cases hp : p = i
        · simp [hp, tidy]
        · simp [tidy, Ptable.set_proc_of_ne _ _ hp]
      rw [htidy] at hw hpid hz hpar
      exact ⟨i, z, hw, hpid, hz, hpar⟩
  | wait hf =>
    obtain ⟨z, hz⟩ := waitTurn_wait he.symm
    exact ⟨_, z, hz⟩
  | _ => exact absurd he (by simp)

/-- The process tree in every state reached with the lock free, and the pids that
`wait` has returned on the way: each once, of a process that had exited, to its creator
or to init, which was its parent then. -/
theorem process_tree {kstack pgdir : Nat} {x : List Ev × Disp ncpu}
    (h : Run ncpu kstack pgdir x) :
    (x.2.lock = none →
      (∀ p, (x.2.pt.proc p).state.begun = true → p ≠ x.2.pt.initproc →
        ∃ q, (x.2.pt.proc p).parent = some q ∧ (x.2.pt.proc q).state ≠ .unused ∧
          (x.2.pt.proc q).state ≠ .zombie) ∧
      (∀ p q, (x.2.pt.proc p).state ≠ .unused → (x.2.pt.proc q).state ≠ .unused →
        (x.2.pt.proc p).pid = (x.2.pt.proc q).pid → p = q) ∧
      (∀ p, (x.2.pt.proc p).state = .sleeping → (x.2.pt.proc p).chan = some (.proc p) →
        ∀ z, (x.2.pt.proc z).parent = some p → (x.2.pt.proc z).state ≠ .zombie)) ∧
    (x.1.filterMap Ev.waited).Nodup ∧
    (∀ w pid, .wait w pid ∈ x.1 → .exit pid ∈ x.1 ∧
      (w = (x.2.pt.proc x.2.pt.initproc).pid ∨ .fork w pid ∈ x.1)) ∧
    (∀ w pid d', Step x.2 (.wait w pid) d' →
      ∃ i z, (x.2.pt.proc i).pid = w ∧ (x.2.pt.proc z).pid = pid ∧
        (x.2.pt.proc z).state = .zombie ∧ (x.2.pt.proc z).parent = some i) := by
  have ht := h.tree
  refine ⟨fun _ => ⟨fun p hp hne => ?_, fun p q hp _ heq => ?_, fun p hp hc z hz hzombie => ?_⟩,
    ht.nodup, fun w pid hm => ?_, fun _ _ _ hs => hs.wait_parent⟩
  · obtain ⟨q, hq, -, halive, -⟩ := ht.parent p hp hne
    refine ⟨q, hq, fun hu => ?_, fun hz => ?_⟩
    · rw [hu] at halive
      exact absurd halive (by decide)
    · rw [hz] at halive
      exact absurd halive (by decide)
  · exact ht.pid_inj p q heq (ht.pid_pos p hp)
  · exact ht.asleep p hp hc z hzombie hz
  · rw [ht.init_pid]
    exact ht.history w pid hm

/-- Init runs and forks; the child's parent is in the table. -/
theorem process_tree_fork :
    ∃ x : List Ev × Disp 1, Run 1 0 0 x ∧ .fork 1 2 ∈ x.1 ∧ x.2.lock = none ∧
      ∃ q, (x.2.pt.proc ⟨1, by decide⟩).parent = some q ∧ (x.2.pt.proc q).state ≠ .unused ∧
        (x.2.pt.proc q).state ≠ .zombie := by
  have hstart : Run 1 0 0 ([], .boot 1 0 0) := .start rfl
  have hacquire := hstart.step (.schedule (c := 0) rfl)
  have hswitch := hacquire.step (.schedule (c := 0) rfl)
  have hrelease := hswitch.step (.resume (c := 0) rfl rfl)
  have halloc := hrelease.step (.forkAlloc (c := 0) (j := ⟨1, by decide⟩) ⟨rfl, rfl, rfl⟩ rfl)
  have hcommit := halloc.step (.forkCommit (c := 0) 0 0 rfl rfl rfl)
  exact ⟨_, hcommit, List.mem_append_right _ (List.mem_singleton.mpr rfl), rfl,
    ((process_tree hcommit).1 rfl).1 _ rfl (by decide)⟩

end Disp

end Xv6
