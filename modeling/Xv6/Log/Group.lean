import Mathlib.Algebra.Order.Ring.Int
import Mathlib.Data.Finset.Card
import Mathlib.Data.Fintype.Basic
import Xv6.Lib.Reach
import Xv6.Log.Crash

/-!
# Xv6.Log.Group

How file-system operations share transactions: `begin_op`, `log_write` and `end_op` of
`log.c`, run by any number of processes. Each section that holds `log.lock` is one step.
`log_write` makes its checks before it takes the lock, so it is two; `commit` runs
without the lock and is one more.

`LogSt.Grouped` is the invariant of the bookkeeping: who is counted in `outstanding`, who
commits, what the log holds, and why a process may sleep in `begin_op`.
-/

namespace Xv6

open Function (update update_of_ne update_apply)

/-! ### The program -/

/-- `MAXOPBLOCKS`. -/
def maxopblocks : Nat := 10

/-- `log.size`, as `mkfs` sets it. -/
def nlog : Nat := logsize

/-- Where a process is. -/
inductive LogPc
  /-- Outside any operation. -/
  | idle
  /-- SLEEPING in `begin_op`. -/
  | asleep
  /-- In `begin_op`, about to look again. -/
  | awake
  /-- Between `begin_op` and `end_op`. -/
  | inOp
  /-- In `log_write` of this block, after the checks. -/
  | logging (b : Nat)
  /-- In `end_op`, at the call of `commit`. -/
  | committing
  /-- In `end_op`, after `commit`. -/
  | committed
  deriving DecidableEq

/-- Between `begin_op`'s return and `end_op`. -/
def LogPc.inside : LogPc → Bool
  | .inOp | .logging _ => true
  | _ => false

/-- Running the second half of `end_op`. -/
def LogPc.ending : LogPc → Bool
  | .committing | .committed => true
  | _ => false

/-- What a process sleeping in `begin_op` waits for. -/
def LogPc.busy (c : LogPc) : Bool := c.inside || c.ending

/-- The panics of `log.c`. -/
inductive LogPanic
  /-- `panic("too big a transaction")`. -/
  | tooBig
  /-- `panic("log_write outside of trans")`. -/
  | outside
  /-- `panic("log.committing")`. -/
  | committing
  deriving DecidableEq

/-- `struct log` and the processes that use it. -/
structure LogSt (P : Type) where
  /-- `lh.block[0..n)`. -/
  lh : List Nat
  outstanding : Int
  committing : Bool
  pc : P → LogPc
  /-- The blocks that a process has logged in its current operation. -/
  used : P → Finset Nat
  panic : Option LogPanic

/-- The steps, each with the process that takes it. -/
inductive LogAct (P : Type)
  /-- `begin_op`: one turn of its loop. -/
  | beginOp (p : P)
  /-- A process is woken up for another reason, such as `kill`. -/
  | wake (p : P)
  /-- `log_write` of block `b`: the checks. -/
  | check (p : P) (b : Nat)
  /-- `log_write`: the part with the lock. -/
  | append (p : P) (b : Nat)
  /-- `end_op`: the first section. -/
  | endOp (p : P)
  | commit (p : P)
  /-- `end_op`: the second section. -/
  | endCommit (p : P)

/-- The process that takes the step. -/
def LogAct.actor {P : Type} : LogAct P → P
  | .beginOp p | .wake p | .check p _ | .append p _ | .endOp p | .commit p | .endCommit p => p

namespace LogSt

variable {P : Type} [DecidableEq P]

def init (P : Type) : LogSt P where
  lh := []
  outstanding := 0
  committing := false
  pc := fun _ => .idle
  used := fun _ => ∅
  panic := none

/-- The two reasons to sleep in `begin_op`. -/
def mustWait (x : LogSt P) : Bool :=
  x.committing || decide (logsize < x.lh.length + (x.outstanding + 1) * maxopblocks)

omit [DecidableEq P] in
theorem mustWait_iff {x : LogSt P} : x.mustWait = true ↔ x.committing = true ∨
    (logsize : Int) < x.lh.length + (x.outstanding + 1) * maxopblocks := by
  simp [mustWait]

/-- `wakeup(&log)`. -/
def wakeup (x : LogSt P) : LogSt P :=
  { x with pc := fun p => if x.pc p = .asleep then .awake else x.pc p }

/-- Move one process. -/
def goto (x : LogSt P) (p : P) (c : LogPc) : LogSt P := { x with pc := update x.pc p c }

/-- The state after a step. -/
def next (x : LogSt P) : LogAct P → LogSt P
  | .beginOp p =>
    if x.mustWait then x.goto p .asleep
    else { x.goto p .inOp with
      outstanding := x.outstanding + 1, used := update x.used p ∅ }
  | .wake p => x.goto p .awake
  | .check p b =>
    if logsize ≤ x.lh.length ∨ nlog - 1 ≤ x.lh.length then { x with panic := some .tooBig }
    else if x.outstanding < 1 then { x with panic := some .outside }
    else x.goto p (.logging b)
  | .append p b =>
    { x.goto p .inOp with
      lh := if b ∈ x.lh then x.lh else x.lh ++ [b]
      used := update x.used p (insert b (x.used p)) }
  | .endOp p =>
    let x := { x with outstanding := x.outstanding - 1 }
    if x.committing then { x with panic := some .committing }
    else if x.outstanding = 0 then { x.goto p .committing with committing := true }
    else (x.goto p .idle).wakeup
  | .commit p => { x.goto p .committed with lh := [] }
  | .endCommit p => ({ x.goto p .idle with committing := false }).wakeup

/-- What a process can do next. -/
def Enabled (x : LogSt P) : LogAct P → Prop
  | .beginOp p => x.pc p = .idle ∨ x.pc p = .awake
  | .wake p => x.pc p = .asleep
  | .check p _ => x.pc p = .inOp
  | .append p b => x.pc p = .logging b
  | .endOp p => x.pc p = .inOp
  | .commit p => x.pc p = .committing
  | .endCommit p => x.pc p = .committed

instance (x : LogSt P) (a : LogAct P) : Decidable (x.Enabled a) := by
  cases a <;> unfold Enabled <;> infer_instance

/-- One step of a machine that has not panicked. -/
def Step (x : LogSt P) (a : LogAct P) (y : LogSt P) : Prop :=
  x.panic = none ∧ x.Enabled a ∧ y = x.next a

/-- The states reached. -/
def Reachable (x : LogSt P) : Prop :=
  Reach (fun x => x = init P) (fun x y => ∃ a, Step x a y) x

/-! ### The bookkeeping -/

variable [Fintype P]

/-- The processes at a place of the kind `f`. -/
def those (x : LogSt P) (f : LogPc → Bool) : Finset P :=
  Finset.univ.filter fun p => f (x.pc p) = true

omit [DecidableEq P] in
@[simp] theorem mem_those {x : LogSt P} {f : LogPc → Bool} {p : P} :
    p ∈ x.those f ↔ f (x.pc p) = true := by
  simp [those]

/-- The processes between `begin_op` and `end_op`. -/
abbrev ops (x : LogSt P) : Finset P := x.those LogPc.inside

/-- The processes in the second half of `end_op`. -/
abbrev enders (x : LogSt P) : Finset P := x.those LogPc.ending

/-- The invariant of `struct log`. -/
structure Grouped (x : LogSt P) : Prop where
  outstanding : x.outstanding = x.ops.card
  enders : x.enders.card = if x.committing then 1 else 0
  quiet : x.committing = true → x.ops = ∅
  nodup : x.lh.Nodup
  owned : x.lh ≠ [] → x.ops ≠ ∅ ∨ x.committing = true
  reason : ∀ p, x.pc p = .asleep → x.mustWait = true
  cleared : ∀ p, x.pc p = .committed → x.lh = []
  panic : x.panic = none ∨ x.panic = some .tooBig

omit [DecidableEq P] in
theorem grouped_init : (init P).Grouped where
  outstanding := by simp [those, init, LogPc.inside]
  enders := by simp [those, init, LogPc.ending]
  quiet h := absurd h (by simp [init])
  nodup := List.nodup_nil
  owned h := absurd rfl h
  reason p h := absurd h (by simp [init])
  cleared p h := absurd h (by simp [init])
  panic := .inl rfl

section
variable {x : LogSt P} {p : P} {c : LogPc} {f : LogPc → Bool}

theorem those_goto_same (h : f c = f (x.pc p)) : (x.goto p c).those f = x.those f := by
  ext q
  simp only [mem_those, goto, update_apply]
  split
  · next hq => rw [hq, h]
  · rfl

theorem those_goto_in (h : f c = true) : (x.goto p c).those f = insert p (x.those f) := by
  ext q
  simp only [mem_those, goto, update_apply, Finset.mem_insert]
  split
  · next hq => simp [hq, h]
  · next hq => simp [hq]

theorem those_goto_out (h : f c = false) : (x.goto p c).those f = (x.those f).erase p := by
  ext q
  simp only [mem_those, goto, update_apply, Finset.mem_erase]
  split
  · next hq => simp [hq, h]
  · next hq => simp [hq]

omit [Fintype P] in
theorem pc_of_goto {q : P} {d : LogPc} (h : (x.goto p c).pc q = d) (hne : c ≠ d) :
    x.pc q = d := by
  by_cases hqp : q = p
  · rw [hqp] at h
    exact absurd (by simpa [goto] using h) hne
  · simpa [goto, update_of_ne hqp] using h

omit [DecidableEq P] [Fintype P] in
theorem pc_of_wakeup {q : P} {d : LogPc} (h : x.wakeup.pc q = d) (hne : d ≠ .awake) :
    x.pc q = d := by
  simp only [wakeup] at h
  split at h
  · exact absurd h.symm hne
  · exact h

omit [DecidableEq P] in
/-- A place where nobody sleeps looks the same after a wakeup. -/
theorem those_wakeup (h : f .awake = f .asleep) : x.wakeup.those f = x.those f := by
  ext q
  simp only [mem_those, wakeup]
  split
  · next hq => rw [hq, h]
  · rfl

omit [DecidableEq P] [Fintype P] in
theorem wakeup_awake (x : LogSt P) (q : P) : x.wakeup.pc q ≠ .asleep := by
  simp only [wakeup]
  split
  · simp
  · assumption

section
omit [DecidableEq P]

theorem Grouped.not_committing (h : x.Grouped) (hp : (x.pc p).inside = true) :
    x.committing = false := by
  cases hc : x.committing with
  | false => rfl
  | true =>
    have hmem : p ∈ x.ops := mem_those.mpr hp
    rw [h.quiet hc] at hmem
    simp at hmem

theorem Grouped.is_committing (h : x.Grouped) (hp : (x.pc p).ending = true) :
    x.committing = true := by
  have hmem : p ∈ x.enders := mem_those.mpr hp
  have hpos := Finset.card_pos.mpr ⟨p, hmem⟩
  rw [h.enders] at hpos
  cases hc : x.committing with
  | true => rfl
  | false => simp [hc] at hpos

/-- The process that commits is the only one at it. -/
theorem Grouped.enders_eq (h : x.Grouped) (hp : (x.pc p).ending = true) : x.enders = {p} := by
  have hcard := h.enders
  rw [h.is_committing hp, if_pos rfl, Finset.card_eq_one] at hcard
  obtain ⟨q, hq⟩ := hcard
  have hmem : p ∈ x.enders := mem_those.mpr hp
  rw [hq, Finset.mem_singleton] at hmem
  rw [hq, hmem]

end

/-! ### One step keeps it -/

section
variable (h : x.Grouped)
include h

/-- A process moves, neither into nor out of an operation or a commit. -/
theorem Grouped.moved (hin : c.inside = (x.pc p).inside) (hend : c.ending = (x.pc p).ending)
    (hreason : c = .asleep → x.mustWait = true) (hcleared : c = .committed → x.lh = []) :
    (x.goto p c).Grouped where
  outstanding := by rw [ops, those_goto_same hin]; exact h.outstanding
  enders := by rw [LogSt.enders, those_goto_same hend]; exact h.enders
  quiet hc := by rw [ops, those_goto_same hin]; exact h.quiet hc
  nodup := h.nodup
  owned hlh := by rw [ops, those_goto_same hin]; exact h.owned hlh
  reason q hq := by
    by_cases hc : c = .asleep
    · exact hreason hc
    · exact h.reason q (pc_of_goto hq hc)
  cleared q hq := by
    by_cases hc : c = .committed
    · exact hcleared hc
    · exact h.cleared q (pc_of_goto hq hc)
  panic := h.panic

theorem Grouped.begin (hp : x.pc p = .idle ∨ x.pc p = .awake) (hwait : x.mustWait = false) :
    Grouped { x.goto p .inOp with
      outstanding := x.outstanding + 1, used := update x.used p ∅ } := by
  have hin : (x.pc p).inside = false := by rcases hp with hp | hp <;> rw [hp] <;> rfl
  have hend : (x.pc p).ending = false := by rcases hp with hp | hp <;> rw [hp] <;> rfl
  have hc : x.committing = false := (Bool.or_eq_false_iff.mp hwait).1
  have hops : (x.goto p .inOp).ops = insert p x.ops := those_goto_in rfl
  have hnew : p ∉ x.ops := by simp [hin]
  refine ⟨?_, ?_, fun h' => absurd (hc.symm.trans h') (by decide), h.nodup, fun _ => ?_,
    fun q hq => ?_, fun q hq => h.cleared q (pc_of_goto hq nofun), h.panic⟩
  · show x.outstanding + 1 = ((x.goto p .inOp).ops.card : Int)
    rw [hops, Finset.card_insert_of_notMem hnew, h.outstanding]
    rfl
  · show (x.goto p .inOp).enders.card = _
    rw [LogSt.enders, those_goto_same hend.symm]
    exact h.enders
  · exact .inl (by show (x.goto p .inOp).ops ≠ ∅; rw [hops]; exact Finset.insert_ne_empty _ _)
  · -- nobody sleeps here: a sleeper would have the reason that `p` has not
    have hx := h.reason q (pc_of_goto hq nofun)
    exact absurd (hwait.symm.trans hx) (by decide)

theorem Grouped.append {b : Nat} (hp : x.pc p = .logging b) : (x.next (.append p b)).Grouped := by
  have hmoved : (x.goto p .inOp).Grouped :=
    h.moved (by rw [hp]; rfl) (by rw [hp]; rfl) nofun nofun
  have hc := h.not_committing (p := p) (by rw [hp]; rfl)
  have hmem : p ∈ (x.goto p .inOp).ops := by simp [goto, LogPc.inside]
  refine ⟨hmoved.outstanding, hmoved.enders, hmoved.quiet, ?_,
    fun _ => .inl (Finset.ne_empty_of_mem hmem), fun q hq => ?_, fun q hq => ?_, hmoved.panic⟩
  · simp only [next]
    split
    · exact h.nodup
    · next hb =>
        refine List.nodup_append.mpr ⟨h.nodup, List.nodup_singleton b, fun a ha c hc he => ?_⟩
        rw [List.mem_singleton.mp hc] at he
        exact hb (he ▸ ha)
  · -- the log only grows
    have hold := hmoved.reason q hq
    have hlen : x.lh.length ≤ (x.next (.append p b)).lh.length := by
      simp only [next]
      split
      · exact le_rfl
      · simp
    rw [mustWait_iff] at hold ⊢
    refine hold.imp id fun hlt => lt_of_lt_of_le hlt ?_
    exact add_le_add_left (Int.ofNat_le.mpr hlen) _
  · -- nobody is committing while `p` is in its operation
    have hq' : x.pc q = .committed := pc_of_goto hq nofun
    have := h.is_committing (p := q) (by rw [hq']; rfl)
    exact absurd (hc.symm.trans this) (by decide)

theorem Grouped.endOp (hp : x.pc p = .inOp) : (x.next (.endOp p)).Grouped := by
  have hin : (x.pc p).inside = true := by rw [hp]; rfl
  have hend : (x.pc p).ending = false := by rw [hp]; rfl
  have hmem : p ∈ x.ops := mem_those.mpr hin
  have hc := h.not_committing hin
  have hcard : ((x.ops.erase p).card : Int) = x.outstanding - 1 := by
    rw [Finset.card_erase_of_mem hmem, h.outstanding]
    have := Finset.card_pos.mpr ⟨p, hmem⟩
    omega
  have henders := h.enders
  simp only [next, hc, Bool.false_eq_true, if_false] at henders ⊢
  split
  · next hlast =>
      -- the last operation: its process goes on to commit
      have hnone : x.ops.erase p = ∅ := Finset.card_eq_zero.mp (by omega)
      have hfresh : p ∉ x.enders := by simp [hend]
      have hops : (x.goto p .committing).ops = ∅ := (those_goto_out rfl).trans hnone
      refine ⟨?_, ?_, fun _ => hops, h.nodup, fun _ => .inr rfl, fun _ _ => rfl,
        fun q hq => h.cleared q (pc_of_goto hq nofun), h.panic⟩
      · show x.outstanding - 1 = ((x.goto p .committing).ops.card : Int)
        rw [hops, hlast]
        rfl
      · show (x.goto p .committing).enders.card = 1
        rw [LogSt.enders, those_goto_in rfl, Finset.card_insert_of_notMem hfresh, henders]
  · next hmore =>
      have hops : (x.goto p .idle).wakeup.ops = x.ops.erase p :=
        (those_wakeup rfl).trans (those_goto_out rfl)
      refine ⟨?_, ?_, nofun, h.nodup, fun _ => ?_, fun q hq => absurd hq (wakeup_awake _ q),
        fun q hq => h.cleared q (pc_of_goto (pc_of_wakeup hq nofun) nofun), h.panic⟩
      · show x.outstanding - 1 = ((x.goto p .idle).wakeup.ops.card : Int)
        rw [hops, hcard]
      · show (x.goto p .idle).wakeup.enders.card = _
        rw [LogSt.enders, those_wakeup rfl, those_goto_same hend.symm, henders]
        simp [wakeup, goto]
      · refine .inl ?_
        show (x.goto p .idle).wakeup.ops ≠ ∅
        rw [hops]
        intro hnone
        rw [hnone] at hcard
        exact hmore hcard.symm

theorem Grouped.commit (hp : x.pc p = .committing) : (x.next (.commit p)).Grouped := by
  have hc : x.committing = true := h.is_committing (p := p) (by rw [hp]; rfl)
  have hempty : Grouped { x with lh := [] } :=
    ⟨h.outstanding, h.enders, h.quiet, List.nodup_nil, fun hne => absurd rfl hne,
      fun _ _ => by simp [mustWait, hc], fun _ _ => rfl, h.panic⟩
  exact hempty.moved (c := .committed) (p := p) (by rw [hp]; rfl) (by rw [hp]; rfl) nofun
    fun _ => rfl

theorem Grouped.endCommit (hp : x.pc p = .committed) : (x.next (.endCommit p)).Grouped := by
  have hend : (x.pc p).ending = true := by rw [hp]; rfl
  have hops : (x.goto p .idle).wakeup.ops = x.ops :=
    (those_wakeup rfl).trans (those_goto_same (by rw [hp]; rfl))
  refine ⟨?_, ?_, nofun, h.nodup, fun hne => absurd (h.cleared p hp) hne,
    fun q hq => absurd hq (wakeup_awake _ q), fun _ _ => h.cleared p hp, h.panic⟩
  · show x.outstanding = ((x.goto p .idle).wakeup.ops.card : Int)
    rw [hops, h.outstanding]
  · show (x.goto p .idle).wakeup.enders.card = 0
    have hout : (x.goto p .idle).wakeup.enders = x.enders.erase p :=
      (those_wakeup rfl).trans (those_goto_out rfl)
    rw [hout, h.enders_eq hend, Finset.erase_singleton, Finset.card_empty]

/-- What `log_write`'s checks do in an operation: they pass, or the log is full. -/
theorem Grouped.check_eq (hp : x.pc p = .inOp) (b : Nat) :
    x.next (.check p b) = if nlog - 1 ≤ x.lh.length then { x with panic := some .tooBig }
      else x.goto p (.logging b) := by
  have hmem : p ∈ x.ops := mem_those.mpr (by rw [hp]; rfl)
  have hpos := Finset.card_pos.mpr ⟨p, hmem⟩
  have hout : ¬ x.outstanding < 1 := by rw [h.outstanding]; omega
  simp only [next, if_neg hout]
  by_cases hfull : nlog - 1 ≤ x.lh.length
  · rw [if_pos hfull, if_pos (.inr hfull)]
  · rw [if_neg hfull, if_neg fun h' => hfull (h'.elim (le_trans (by decide)) id)]

theorem Grouped.next {a : LogAct P} (hen : x.Enabled a) : (x.next a).Grouped := by
  cases a with
  | beginOp p =>
    simp only [LogSt.next]
    split
    · next hwait =>
        refine h.moved ?_ ?_ (fun _ => hwait) nofun <;>
          rcases hen with hp | hp <;> rw [hp] <;> rfl
    · next hgo => exact h.begin hen (Bool.eq_false_of_not_eq_true hgo)
  | wake p =>
    have hp : x.pc p = .asleep := hen
    exact h.moved (by rw [hp]; rfl) (by rw [hp]; rfl) nofun nofun
  | check p b =>
    have hp : x.pc p = .inOp := hen
    rw [h.check_eq hp]
    split
    · exact { h with panic := .inr rfl }
    · exact h.moved (by rw [hp]; rfl) (by rw [hp]; rfl) nofun nofun
  | append p b => exact h.append hen
  | endOp p => exact h.endOp hen
  | commit p => exact h.commit hen
  | endCommit p => exact h.endCommit hen

end

theorem Reachable.grouped (h : x.Reachable) : x.Grouped := by
  refine Reach.invariant (fun y hy => hy ▸ grouped_init) (fun y z hy hs => ?_) h
  obtain ⟨a, -, hen, rfl⟩ := hs
  exact hy.next hen

/-! ### Nobody sleeps for nothing -/

omit [DecidableEq P] in
/-- Whoever sleeps has somebody to wait for. -/
theorem Grouped.exists_busy (h : x.Grouped) (hp : x.pc p = .asleep) :
    ∃ q, (x.pc q).busy = true := by
  rcases mustWait_iff.mp (h.reason p hp) with hc | hfull
  · have hcard := h.enders
    rw [hc, if_pos rfl, Finset.card_eq_one] at hcard
    obtain ⟨q, hq⟩ := hcard
    have hmem : q ∈ x.enders := by rw [hq]; exact Finset.mem_singleton_self q
    exact ⟨q, by simp [LogPc.busy, mem_those.mp hmem]⟩
  · -- with nobody in an operation the log is empty, and there is room for one
    by_contra hnone
    have hidle : ∀ q, (x.pc q).busy = false := fun q =>
      Bool.eq_false_of_not_eq_true fun hq => hnone ⟨q, hq⟩
    have hops : x.ops = ∅ := by
      ext q
      simp [(Bool.or_eq_false_iff.mp (hidle q)).1]
    have henders : x.enders = ∅ := by
      ext q
      simp [(Bool.or_eq_false_iff.mp (hidle q)).2]
    have hout := h.outstanding
    rw [hops, Finset.card_empty] at hout
    by_cases hlh : x.lh = []
    · rw [hlh, hout] at hfull
      exact absurd hfull (by decide)
    · rcases h.owned hlh with h' | h'
      · exact h' hops
      · have := h.enders
        rw [henders, h', Finset.card_empty] at this
        exact absurd this (by decide)

omit [Fintype P] in
theorem goto_of_ne {q : P} (hne : q ≠ p) : (x.goto p c).pc q = x.pc q :=
  update_of_ne hne _ _

/-- A process that others may wait for goes away only with a wakeup. -/
theorem Grouped.busy_until_wakeup (h : x.Grouped) {a : LogAct P} {q : P}
    (hen : x.Enabled a) (hq : (x.pc q).busy = true) :
    ((x.next a).pc q).busy = true ∨ ∀ r, (x.next a).pc r ≠ .asleep := by
  cases a with
  | beginOp p =>
    have hne : q ≠ p := by
      intro he
      rw [he] at hq
      rcases hen with hp | hp <;> simp [hp, LogPc.busy, LogPc.inside, LogPc.ending] at hq
    left
    simp only [LogSt.next]
    split
    · rwa [goto_of_ne hne]
    · exact (congrArg LogPc.busy (goto_of_ne hne)).trans hq
  | wake p =>
    have hne : q ≠ p := by
      intro he
      rw [he, show x.pc p = .asleep from hen] at hq
      exact absurd hq (by decide)
    exact .inl ((congrArg LogPc.busy (goto_of_ne hne)).trans hq)
  | check p b =>
    left
    rw [h.check_eq hen]
    split
    · exact hq
    · by_cases hqp : q = p
      · simp [hqp, goto, LogPc.busy, LogPc.inside]
      · rwa [goto_of_ne hqp]
  | append p b =>
    left
    by_cases hqp : q = p
    · simp [hqp, LogSt.next, goto, LogPc.busy, LogPc.inside]
    · exact (congrArg LogPc.busy (goto_of_ne hqp)).trans hq
  | endOp p =>
    have hp : x.pc p = .inOp := hen
    have hc : x.committing = false := h.not_committing (p := p) (by rw [hp]; rfl)
    simp only [LogSt.next, hc, Bool.false_eq_true, if_false]
    split
    · left
      by_cases hqp : q = p
      · simp [hqp, goto, LogPc.busy, LogPc.ending]
      · exact (congrArg LogPc.busy (goto_of_ne hqp)).trans hq
    · exact .inr (wakeup_awake _)
  | commit p =>
    left
    by_cases hqp : q = p
    · simp [hqp, LogSt.next, goto, LogPc.busy, LogPc.ending]
    · exact (congrArg LogPc.busy (goto_of_ne hqp)).trans hq
  | endCommit p => exact .inr (wakeup_awake _)

/-- The steps of `q` alone lead to a wakeup. -/
def Wakes (q : P) (x : LogSt P) : Prop :=
  ∃ (as : List (LogAct P)) (y : LogSt P), Trace Step x as y ∧ (∀ a ∈ as, a.actor = q) ∧
    ∀ r, y.pc r ≠ .asleep

omit [Fintype P] in
theorem Wakes.step {a : LogAct P} (hpanic : x.panic = none) (hen : x.Enabled a)
    (h : Wakes a.actor (x.next a)) : Wakes a.actor x := by
  obtain ⟨as, y, hrun, hactor, hawake⟩ := h
  refine ⟨a :: as, y, .cons ⟨hpanic, hen, rfl⟩ hrun, fun a' ha' => ?_, hawake⟩
  rcases List.mem_cons.mp ha' with rfl | ha'
  · rfl
  · exact hactor a' ha'

/-- A process in an operation reaches its wakeup through the rest of `log_write`, `end_op`
and, if it is the last one, `commit`. -/
theorem Grouped.wakes (h : x.Grouped) (hpanic : x.panic = none) {q : P}
    (hq : (x.pc q).busy = true) : Wakes q x := by
  have committed : ∀ y : LogSt P, y.panic = none → y.pc q = .committed → Wakes q y := by
    intro y hy hpc
    exact Wakes.step (a := .endCommit q) hy hpc ⟨[], _, .nil _, nofun, wakeup_awake _⟩
  have committing : ∀ y : LogSt P, y.panic = none → y.pc q = .committing → Wakes q y := by
    intro y hy hpc
    exact Wakes.step (a := .commit q) hy hpc (committed _ hy (by simp [LogSt.next, goto]))
  have inOp : ∀ y : LogSt P, y.Grouped → y.panic = none → y.pc q = .inOp → Wakes q y := by
    intro y hg hy hpc
    have hc : y.committing = false := hg.not_committing (p := q) (by rw [hpc]; rfl)
    refine Wakes.step (a := .endOp q) hy hpc ?_
    simp only [LogSt.next, hc, Bool.false_eq_true, if_false]
    split
    · exact committing _ hy (by simp [goto])
    · exact ⟨[], _, .nil _, nofun, wakeup_awake _⟩
  cases hpc : x.pc q with
  | idle | asleep | awake => rw [hpc] at hq; exact absurd hq (by decide)
  | inOp => exact inOp x h hpanic hpc
  | logging b =>
    refine Wakes.step (a := .append q b) hpanic hpc (inOp _ (h.append hpc) hpanic ?_)
    simp [LogSt.next, goto]
  | committing => exact committing x hpanic hpc
  | committed => exact committed x hpanic hpc

end

/-- Transactions group operations as `begin_op` and `end_op` mean them to, and nobody
sleeps in `begin_op` without a reason and a process that will wake it up. -/
theorem transactions_grouped {x : LogSt P} (h : x.Reachable) :
    x.outstanding = (Finset.univ.filter fun p => (x.pc p).inside = true).card ∧
    (x.committing = true → x.outstanding = 0) ∧
    (∀ p q, (x.pc p).ending = true → (x.pc q).inside = false) ∧
    x.lh.Nodup ∧
    (0 < x.lh.length → 0 < x.outstanding ∨ x.committing = true) ∧
    ∀ p, x.pc p = .asleep →
      (x.committing = true ∨
        (logsize : Int) < x.lh.length + (x.outstanding + 1) * maxopblocks) ∧
      ∃ q, ((x.pc q).inside = true ∨ (x.pc q).ending = true) ∧
        (∀ a y, Step x a y → (y.pc q).busy = true ∨ ∀ r, y.pc r ≠ .asleep) ∧
        (x.panic = none → Wakes q x) := by
  have hg := h.grouped
  refine ⟨hg.outstanding, fun hc => ?_, fun p q hp => ?_, hg.nodup, fun hlh => ?_,
    fun p hp => ⟨mustWait_iff.mp (hg.reason p hp), ?_⟩⟩
  · rw [hg.outstanding, hg.quiet hc]
    rfl
  · refine Bool.eq_false_of_not_eq_true fun hq => ?_
    have := (hg.not_committing hq).symm.trans (hg.is_committing hp)
    exact absurd this (by decide)
  · refine (hg.owned (List.ne_nil_of_length_pos hlh)).imp (fun hops => ?_) id
    rw [hg.outstanding]
    exact Int.natCast_pos.mpr (Finset.card_pos.mpr (Finset.nonempty_iff_ne_empty.mpr hops))
  · obtain ⟨q, hq⟩ := hg.exists_busy hp
    refine ⟨q, by simpa [LogPc.busy] using hq, fun a y hs => ?_, fun hpanic => hg.wakes hpanic hq⟩
    obtain ⟨-, hen, rfl⟩ := hs
    exact hg.busy_until_wakeup hen hq

/-- The second of two processes sleeps while the first one commits. -/
theorem transactions_grouped_sleeper : ∃ x : LogSt (Fin 2), x.Reachable ∧ x.pc 1 = .asleep ∧
    ∃ q, (x.pc q).inside = true ∨ (x.pc q).ending = true := by
  have hrun : (([.beginOp 0, .endOp 0, .beginOp 1] : List (LogAct (Fin 2))).foldl next
      (init (Fin 2))).Reachable := by
    refine .next (.next (.next (.start rfl) ⟨.beginOp 0, rfl, ?_, rfl⟩)
      ⟨.endOp 0, rfl, ?_, rfl⟩) ⟨.beginOp 1, rfl, ?_, rfl⟩ <;> decide
  obtain ⟨-, -, -, -, -, hasleep⟩ := transactions_grouped hrun
  have hpc : (([.beginOp 0, .endOp 0, .beginOp 1] : List (LogAct (Fin 2))).foldl next
      (init (Fin 2))).pc 1 = .asleep := by decide
  obtain ⟨-, q, hq, -⟩ := hasleep 1 hpc
  exact ⟨_, hrun, hpc, q, hq⟩

end LogSt

end Xv6
