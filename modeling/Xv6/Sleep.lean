import Xv6.Lib.Reach
import Xv6.Proc

/-!
# Xv6.Sleep

The handoff between `sleep` and `wakeup`, one lock operation and one store at a time.

Sleepers run `acquire(lk); while(!cond) sleep(chan, lk); ...; release(lk)`, where the part
that is left open may make the condition false again, as `acquiresleep` does. Wakers run
`acquire(lk); cond = true; wakeup(chan); release(lk)`. The sleepers are the processes of a
table of any size, which `wakeup1` goes through one by one; the wakers may be processes or
interrupt handlers. A process that calls `sched` leaves `ptable.lock` to the scheduler,
which gives it to the process that it runs next or releases it.

`own` is the case `lk == &ptable.lock`, where `sleep` does not touch the locks and the
waker calls `wakeup1`.
-/

namespace Xv6

open Function (update update_self update_of_ne)

/-- The two locks; `lk` may be the other one. -/
inductive Lk
  | lk
  | pt
  deriving DecidableEq

/-- Who holds a lock. -/
inductive Holder (n : Nat) (W : Type)
  | sleeper (p : Fin n)
  | waker (w : W)
  | scheduler
  deriving DecidableEq

/-- What a sleeper does next. -/
inductive SleeperPc
  /-- `acquire(lk)` of the caller. -/
  | out
  /-- `while(!cond)`. -/
  | test
  /-- `acquire(&ptable.lock)` in `sleep`. -/
  | lockPt
  /-- `release(lk)` in `sleep`. -/
  | unlockLk
  /-- `p->chan = chan`. -/
  | setChan
  /-- `p->state = SLEEPING`. -/
  | setState
  /-- `swtch` to the scheduler, in `sched`. -/
  | sched
  /-- Not running, in `sched`. -/
  | asleep
  /-- `p->chan = 0`. -/
  | woken
  /-- `release(&ptable.lock)` in `sleep`. -/
  | unlockPt
  /-- `acquire(lk)` in `sleep`. -/
  | relock
  /-- What the caller does when the condition is true. -/
  | body
  /-- `release(lk)` of the caller. -/
  | release
  deriving DecidableEq

/-- What a waker does next. -/
inductive WakerPc
  /-- `acquire(lk)`. -/
  | out
  /-- `cond = true`. -/
  | set
  /-- `acquire(&ptable.lock)` in `wakeup`. -/
  | lockPt
  /-- `wakeup1` has come to this place of the table. -/
  | scan (k : Nat)
  /-- `release(&ptable.lock)` in `wakeup`. -/
  | unlockPt
  /-- `release(lk)`. -/
  | unlock
  deriving DecidableEq

structure Handoff (n : Nat) (W : Type) where
  lock : Lk → Option (Holder n W)
  cond : Bool
  state : Fin n → ProcState
  /-- `p->chan` is the channel. -/
  chan : Fin n → Bool
  spc : Fin n → SleeperPc
  wpc : W → WakerPc

namespace Handoff

variable {n : Nat} {W : Type} (own : Bool)

/-- The lock that is `lk`. -/
def lockOf : Lk := if own then .pt else .lk

def setLock (x : Handoff n W) (l : Lk) (h : Option (Holder n W)) : Handoff n W :=
  { x with lock := update x.lock l h }

def goto (x : Handoff n W) (p : Fin n) (pc : SleeperPc) : Handoff n W :=
  { x with spc := update x.spc p pc }

/-- One step of a sleeper. -/
inductive SleeperStep (x : Handoff n W) (p : Fin n) : Handoff n W → Prop
  | acquire : x.spc p = .out → x.lock (lockOf own) = none →
      SleeperStep x p ((x.setLock (lockOf own) (some (.sleeper p))).goto p .test)
  | found : x.spc p = .test → x.cond = true → SleeperStep x p (x.goto p .body)
  | sleepOwn : x.spc p = .test → x.cond = false → own = true → SleeperStep x p (x.goto p .setChan)
  | sleep : x.spc p = .test → x.cond = false → own = false → SleeperStep x p (x.goto p .lockPt)
  | lockPt : x.spc p = .lockPt → own = false → x.lock .pt = none →
      SleeperStep x p ((x.setLock .pt (some (.sleeper p))).goto p .unlockLk)
  | unlockLk : x.spc p = .unlockLk → own = false →
      SleeperStep x p ((x.setLock .lk none).goto p .setChan)
  | setChan : x.spc p = .setChan →
      SleeperStep x p ({ x with chan := update x.chan p true }.goto p .setState)
  | setState : x.spc p = .setState →
      SleeperStep x p ({ x with state := update x.state p .sleeping }.goto p .sched)
  | sched : x.spc p = .sched → SleeperStep x p ((x.setLock .pt (some .scheduler)).goto p .asleep)
  | wokenOwn : x.spc p = .woken → own = true →
      SleeperStep x p ({ x with chan := update x.chan p false }.goto p .test)
  | woken : x.spc p = .woken → own = false →
      SleeperStep x p ({ x with chan := update x.chan p false }.goto p .unlockPt)
  | unlockPt : x.spc p = .unlockPt → own = false →
      SleeperStep x p ((x.setLock .pt none).goto p .relock)
  | relock : x.spc p = .relock → own = false → x.lock .lk = none →
      SleeperStep x p ((x.setLock .lk (some (.sleeper p))).goto p .test)
  | body (reset : Bool) : x.spc p = .body →
      SleeperStep x p ({ x with cond := x.cond && !reset }.goto p .release)
  | release : x.spc p = .release → SleeperStep x p ((x.setLock (lockOf own) none).goto p .out)

variable [DecidableEq W]

def wgoto (x : Handoff n W) (w : W) (pc : WakerPc) : Handoff n W :=
  { x with wpc := update x.wpc w pc }

/-- One step of a waker. -/
inductive WakerStep (x : Handoff n W) (w : W) : Handoff n W → Prop
  | acquire : x.wpc w = .out → x.lock (lockOf own) = none →
      WakerStep x w ((x.setLock (lockOf own) (some (.waker w))).wgoto w .set)
  | setOwn : x.wpc w = .set → own = true →
      WakerStep x w ({ x with cond := true }.wgoto w (.scan 0))
  | set : x.wpc w = .set → own = false → WakerStep x w ({ x with cond := true }.wgoto w .lockPt)
  | lockPt : x.wpc w = .lockPt → own = false → x.lock .pt = none →
      WakerStep x w ((x.setLock .pt (some (.waker w))).wgoto w (.scan 0))
  | wake (k : Fin n) : x.wpc w = .scan k → x.state k = .sleeping → x.chan k = true →
      WakerStep x w ({ x with state := update x.state k .runnable }.wgoto w (.scan (k + 1)))
  | pass (k : Fin n) : x.wpc w = .scan k → ¬ (x.state k = .sleeping ∧ x.chan k = true) →
      WakerStep x w (x.wgoto w (.scan (k + 1)))
  | doneOwn : x.wpc w = .scan n → own = true → WakerStep x w (x.wgoto w .unlock)
  | done : x.wpc w = .scan n → own = false → WakerStep x w (x.wgoto w .unlockPt)
  | unlockPt : x.wpc w = .unlockPt → own = false →
      WakerStep x w ((x.setLock .pt none).wgoto w .unlock)
  | unlock : x.wpc w = .unlock → WakerStep x w ((x.setLock (lockOf own) none).wgoto w .out)

omit [DecidableEq W] in
/-- One step of the scheduler. -/
inductive SchedStep (x : Handoff n W) : Handoff n W → Prop
  | take : x.lock .pt = none → SchedStep x (x.setLock .pt (some .scheduler))
  | run (p : Fin n) : x.lock .pt = some .scheduler → x.state p = .runnable → x.spc p = .asleep →
      SchedStep x (({ x with state := update x.state p .running }.setLock .pt
        (some (.sleeper p))).goto p .woken)
  | release : x.lock .pt = some .scheduler → SchedStep x (x.setLock .pt none)

/-- One step of anyone. -/
inductive Step (x y : Handoff n W) : Prop
  | sleeper (p : Fin n) : x.SleeperStep own p y → Step x y
  | waker (w : W) : x.WakerStep own w y → Step x y
  | sched : x.SchedStep y → Step x y

omit [DecidableEq W] in
/-- Nobody has begun. -/
structure Init (x : Handoff n W) : Prop where
  free : ∀ l, x.lock l = none
  out : ∀ p, x.spc p = .out ∧ x.state p ≠ .sleeping
  outW : ∀ w, x.wpc w = .out

end Handoff

/-! ### Who holds which lock -/

/-- A sleeper holds a lock. -/
def SleeperPc.Holds (own : Bool) (l : Lk) : SleeperPc → Prop
  | .test | .lockPt | .body | .release => l = Handoff.lockOf own
  | .unlockLk => l = Handoff.lockOf own ∨ l = .pt
  | .setChan | .setState | .sched | .woken | .unlockPt => l = .pt
  | .out | .asleep | .relock => False

/-- A waker holds a lock. -/
def WakerPc.Holds (own : Bool) (l : Lk) : WakerPc → Prop
  | .out => False
  | .set | .lockPt | .unlock => l = Handoff.lockOf own
  | .scan _ | .unlockPt => l = Handoff.lockOf own ∨ l = .pt

/-- The waker has set the condition, and its scan has yet to come to the place `k`. -/
def WakerPc.Before (k : Nat) : WakerPc → Prop
  | .lockPt => True
  | .scan j => j ≤ k
  | _ => False

namespace Handoff

variable {n : Nat} {W : Type} {own : Bool} {x y : Handoff n W} {p : Fin n} {w : W} {l : Lk}
  {a b : Holder n W}

/-- Who has come to where a lock is held. -/
def Holds (own : Bool) (x : Handoff n W) : Holder n W → Lk → Prop
  | .sleeper p, l => (x.spc p).Holds own l
  | .waker w, l => (x.wpc w).Holds own l
  | .scheduler, _ => False

/-- It is theirs. -/
structure Excl (own : Bool) (x : Handoff n W) : Prop where
  lock : ∀ {a l}, x.Holds own a l → x.lock l = some a

theorem Excl.eq (h : x.Excl own) (ha : x.Holds own a l) (hb : x.Holds own b l) : a = b :=
  Option.some.inj ((h.lock ha).symm.trans (h.lock hb))

/-- `a` has moved to where it holds the locks `new`. -/
def Moved (own : Bool) (a : Holder n W) (new : Lk → Prop) (x y : Handoff n W) : Prop :=
  ∀ b l, y.Holds own b l ↔ b = a ∧ new l ∨ b ≠ a ∧ x.Holds own b l

theorem moved_sleeper {pc : SleeperPc} (hspc : y.spc = update x.spc p pc) (hwpc : y.wpc = x.wpc) :
    Moved own (.sleeper p) (pc.Holds own) x y := by
  intro b l
  cases b with
  | sleeper q =>
    by_cases hq : q = p
    · subst hq
      simp [Holds, hspc]
    · simp [Holds, hspc, hq]
  | waker w => simp [Holds, hwpc]
  | scheduler => simp [Holds]

theorem moved_waker [DecidableEq W] {pc : WakerPc} (hspc : y.spc = x.spc)
    (hwpc : y.wpc = update x.wpc w pc) : Moved own (.waker w) (pc.Holds own) x y := by
  intro b l
  cases b with
  | sleeper q => simp [Holds, hspc]
  | waker v =>
    by_cases hv : v = w
    · subst hv
      simp [Holds, hwpc]
    · simp [Holds, hwpc, hv]
  | scheduler => simp [Holds]

variable {new : Lk → Prop}

theorem Excl.move (h : x.Excl own) (hlock : y.lock = x.lock) (hm : Moved own a new x y)
    (hnew : ∀ l, new l → x.Holds own a l) : y.Excl own where
  lock {b l} hb := by
    rw [hlock]
    rcases (hm b l).mp hb with ⟨rfl, hl⟩ | ⟨-, hold⟩
    · exact h.lock (hnew l hl)
    · exact h.lock hold

/-- A lock is taken that is free, or that the scheduler hands over. -/
theorem Excl.take (h : x.Excl own) (hl : x.lock l = none ∨ x.lock l = some .scheduler)
    (hlock : y.lock = update x.lock l (some a)) (hm : Moved own a new x y)
    (hnew : ∀ l', new l' → x.Holds own a l' ∨ l' = l) : y.Excl own where
  lock {b l'} hb := by
    -- nobody holds the lock that is taken
    have hno : ∀ {c}, ¬ x.Holds own c l := by
      intro c hc
      rw [h.lock hc] at hl
      rcases hl with hl | hl
      · cases hl
      · cases hl
        exact hc
    have hold : ∀ {c l'}, x.Holds own c l' → update x.lock l (some a) l' = some c := by
      intro c l' hc
      rw [update_of_ne fun he => hno (he ▸ hc)]
      exact h.lock hc
    rw [hlock]
    rcases (hm b l').mp hb with ⟨rfl, hl'⟩ | ⟨-, hb⟩
    · rcases hnew l' hl' with hb | rfl
      · exact hold hb
      · exact update_self ..
    · exact hold hb

/-- A lock is given up by its holder. -/
theorem Excl.give {o : Option (Holder n W)} (h : x.Excl own) (ha : x.Holds own a l)
    (hlock : y.lock = update x.lock l o) (hm : Moved own a new x y)
    (hnew : ∀ l', new l' → x.Holds own a l' ∧ l' ≠ l) : y.Excl own where
  lock {b l'} hb := by
    rw [hlock]
    rcases (hm b l').mp hb with ⟨rfl, hl'⟩ | ⟨hne, hold⟩
    · rw [update_of_ne (hnew l' hl').2]
      exact h.lock (hnew l' hl').1
    · have hll : l' ≠ l := by
        rintro rfl
        exact hne (h.eq hold ha)
      rw [update_of_ne hll]
      exact h.lock hold

theorem Excl.sleeper (h : x.Excl own) (hs : x.SleeperStep own p y) : y.Excl own := by
  have hm : ∀ {z : Handoff n W} {pc : SleeperPc}, z.spc = x.spc → z.wpc = x.wpc →
      Moved own (.sleeper p) (pc.Holds own) x (z.goto p pc) := fun hspc hwpc =>
    moved_sleeper (congrArg (update · p _) hspc) hwpc
  have hat : ∀ {pc}, x.spc p = pc → ∀ l, pc.Holds own l → x.Holds own (.sleeper p) l := by
    intro pc hpc l hl
    rw [← hpc] at hl
    exact hl
  cases hs with
  | acquire hpc hfree => exact h.take (.inl hfree) rfl (hm rfl rfl) fun l hl => .inr hl
  | found hpc | sleep hpc | setChan hpc | setState hpc | woken hpc | body reset hpc =>
    exact h.move rfl (hm rfl rfl) fun _ hl => hat hpc _ hl
  | sleepOwn hpc _ hown =>
    refine h.move rfl (hm rfl rfl) fun l hl => hat hpc l ?_
    rw [show l = .pt from hl]
    simp [SleeperPc.Holds, hown, lockOf]
  | lockPt hpc _ hfree =>
    exact h.take (.inl hfree) rfl (hm rfl rfl) fun l hl => hl.imp (hat hpc l) id
  | unlockLk hpc hown =>
    refine h.give (hat hpc .lk ?_) rfl (hm rfl rfl) fun l hl => ⟨hat hpc l (.inr hl), ?_⟩
    · exact .inl (by simp [hown, lockOf])
    · rw [show l = .pt from hl]
      exact nofun
  | sched hpc | unlockPt hpc => exact h.give (hat hpc .pt rfl) rfl (hm rfl rfl) nofun
  | wokenOwn hpc hown =>
    refine h.move rfl (hm rfl rfl) fun l hl => hat hpc l ?_
    rw [show l = lockOf own from hl]
    simp [SleeperPc.Holds, hown, lockOf]
  | relock hpc hown hfree =>
    refine h.take (.inl hfree) rfl (hm rfl rfl) fun l hl => .inr ?_
    rw [show l = lockOf own from hl]
    simp [hown, lockOf]
  | release hpc => exact h.give (hat hpc _ rfl) rfl (hm rfl rfl) nofun

variable [DecidableEq W]

theorem Excl.waker (h : x.Excl own) (hs : x.WakerStep own w y) : y.Excl own := by
  have hm : ∀ {z : Handoff n W} {pc : WakerPc}, z.spc = x.spc → z.wpc = x.wpc →
      Moved own (.waker w) (pc.Holds own) x (z.wgoto w pc) := fun hspc hwpc =>
    moved_waker hspc (congrArg (update · w _) hwpc)
  have hat : ∀ {pc}, x.wpc w = pc → ∀ l, pc.Holds own l → x.Holds own (.waker w) l := by
    intro pc hpc l hl
    rw [← hpc] at hl
    exact hl
  cases hs with
  | acquire hpc hfree => exact h.take (.inl hfree) rfl (hm rfl rfl) fun l hl => .inr hl
  | setOwn hpc hown =>
    refine h.move rfl (hm rfl rfl) fun l hl => hat hpc l (hl.elim id fun hl => ?_)
    rw [hl]
    simp [WakerPc.Holds, hown, lockOf]
  | set hpc | wake k hpc | pass k hpc | done hpc =>
    exact h.move rfl (hm rfl rfl) fun _ hl => hat hpc _ hl
  | lockPt hpc _ hfree =>
    exact h.take (.inl hfree) rfl (hm rfl rfl) fun l hl => hl.imp (hat hpc l) id
  | doneOwn hpc => exact h.move rfl (hm rfl rfl) fun l hl => hat hpc l (.inl hl)
  | unlockPt hpc hown =>
    refine h.give (hat hpc .pt (.inr rfl)) rfl (hm rfl rfl) fun l hl => ⟨hat hpc l (.inl hl), ?_⟩
    rw [show l = lockOf own from hl]
    simp [hown, lockOf]
  | unlock hpc => exact h.give (hat hpc _ rfl) rfl (hm rfl rfl) nofun

omit [DecidableEq W] in
theorem Excl.sched (h : x.Excl own) (hs : x.SchedStep y) : y.Excl own := by
  -- the scheduler itself is nowhere
  have hm : ∀ {o}, Moved own .scheduler (fun _ => False) x (x.setLock .pt o) := by
    intro o b l
    cases b <;> simp [Holds, setLock]
  cases hs with
  | take hfree => exact h.take (.inl hfree) rfl hm nofun
  | run p hl _ hpc => exact h.take (.inr hl) rfl (moved_sleeper rfl rfl) fun l hl => .inr hl
  | release hl =>
    refine ⟨fun {b l} hb => ?_⟩
    have hold : x.Holds own b l := ((hm b l).mp hb).elim (fun he => he.2.elim) And.right
    have hne : l ≠ .pt := by
      rintro rfl
      rw [h.lock hold] at hl
      cases hl
      exact hold
    exact (update_of_ne hne ..).trans (h.lock hold)

/-! ### Nobody is overlooked -/

/-- A process that goes to sleep has seen the condition false and holds a lock that keeps
the wakers away; if the condition is true and it is asleep, some waker is still to come. -/
structure Alert (own : Bool) (x : Handoff n W) : Prop where
  excl : x.Excl own
  going : ∀ {p}, x.spc p = .lockPt ∨ x.spc p = .unlockLk → x.cond = false
  gone : ∀ {p}, x.spc p = .setChan ∨ x.spc p = .setState → x.cond = true →
    ∃ w, x.wpc w = .lockPt
  asleep : ∀ {p : Fin n}, x.state p = .sleeping → x.chan p = true → x.cond = true →
    ∃ w, (x.wpc w).Before p

section
omit [DecidableEq W]

theorem Alert.move {pc : SleeperPc} (h : x.Alert own) (hexcl : y.Excl own)
    (hspc : y.spc = update x.spc p pc) (hwpc : y.wpc = x.wpc)
    (hcond : y.cond = true → x.cond = true)
    (hothers : ∀ q, q ≠ p → y.state q = x.state q ∧ y.chan q = x.chan q)
    (hgoing : pc = .lockPt ∨ pc = .unlockLk → x.cond = false)
    (hgone : pc = .setChan ∨ pc = .setState → x.cond = true → ∃ w, x.wpc w = .lockPt)
    (hasleep : y.state p = .sleeping → y.chan p = true → x.cond = true →
      ∃ w, (x.wpc w).Before p) : y.Alert own := by
  have hfalse : x.cond = false → y.cond = false := fun hx => by
    by_contra hy
    rw [hcond (Bool.eq_true_of_not_eq_false hy)] at hx
    cases hx
  refine ⟨hexcl, fun {q} hq => hfalse ?_, fun {q} hq hc => ?_, fun {q} hs hch hc => ?_⟩
  · rw [hspc] at hq
    by_cases hqp : q = p
    · subst hqp
      rw [update_self] at hq
      exact hgoing hq
    · rw [update_of_ne hqp] at hq
      exact h.going hq
  · rw [hwpc]
    rw [hspc] at hq
    by_cases hqp : q = p
    · subst hqp
      rw [update_self] at hq
      exact hgone hq (hcond hc)
    · rw [update_of_ne hqp] at hq
      exact h.gone hq (hcond hc)
  · rw [hwpc]
    by_cases hqp : q = p
    · subst hqp
      exact hasleep hs hch (hcond hc)
    · rw [(hothers q hqp).1] at hs
      rw [(hothers q hqp).2] at hch
      exact h.asleep hs hch (hcond hc)

theorem Alert.sleeper (h : x.Alert own) (hs : x.SleeperStep own p y) : y.Alert own := by
  have hexcl := h.excl.sleeper hs
  have hsame : ∀ q, q ≠ p → x.state q = x.state q ∧ x.chan q = x.chan q := fun _ _ => ⟨rfl, rfl⟩
  have hbefore : (∃ w, x.wpc w = .lockPt) → ∃ w, (x.wpc w).Before p := by
    rintro ⟨w, hw⟩
    refine ⟨w, ?_⟩
    rw [hw]
    trivial
  cases hs with
  | acquire | found | sched | unlockPt | relock | release =>
    exact h.move hexcl rfl rfl id hsame (by simp) (by simp) h.asleep
  | sleepOwn _ hc =>
    exact h.move hexcl rfl rfl id hsame (by simp) (fun _ hc' => by simp [hc] at hc') h.asleep
  | sleep _ hc => exact h.move hexcl rfl rfl id hsame (fun _ => hc) (by simp) h.asleep
  | lockPt hpc =>
    exact h.move hexcl rfl rfl id hsame (fun _ => h.going (.inl hpc)) (by simp) h.asleep
  | unlockLk hpc =>
    have hc := h.going (.inr hpc)
    exact h.move hexcl rfl rfl id hsame (by simp) (fun _ hc' => by simp [hc] at hc') h.asleep
  | setChan hpc =>
    refine h.move hexcl rfl rfl id (fun q hq => ⟨rfl, update_of_ne hq ..⟩) (by simp)
      (fun _ => h.gone (.inl hpc)) fun _ _ hc => hbefore (h.gone (.inl hpc) hc)
  | setState hpc =>
    refine h.move hexcl rfl rfl id (fun q hq => ⟨update_of_ne hq .., rfl⟩) (by simp)
      (by simp) fun _ _ hc => hbefore (h.gone (.inr hpc) hc)
  | wokenOwn | woken =>
    refine h.move hexcl rfl rfl id (fun q hq => ⟨rfl, update_of_ne hq ..⟩) (by simp)
      (by simp) fun _ hch => ?_
    simp [goto] at hch
  | body reset =>
    refine h.move hexcl rfl rfl (fun hc => ?_) hsame (by simp) (by simp) h.asleep
    exact (Bool.and_eq_true_iff.mp hc).1

theorem Alert.sched (h : x.Alert own) (hs : x.SchedStep y) : y.Alert own := by
  have hexcl := h.excl.sched hs
  cases hs with
  | take | release => exact ⟨hexcl, h.going, h.gone, h.asleep⟩
  | run p =>
    refine h.move hexcl rfl rfl id (fun q hq => ⟨update_of_ne hq .., rfl⟩) (by simp)
      (by simp) fun hst => ?_
    simp [goto, setLock] at hst

end

/-- A waker moves and does not lose sight of anyone. -/
theorem Alert.wmove {pc : WakerPc} (h : x.Alert own) (hexcl : y.Excl own) (hspc : y.spc = x.spc)
    (hwpc : y.wpc = update x.wpc w pc) (hcond : y.cond = x.cond) (hchan : y.chan = x.chan)
    (hstate : ∀ q, y.state q = .sleeping → x.state q = .sleeping)
    (hgone : x.wpc w = .lockPt → ∀ p, x.spc p ≠ .setChan ∧ x.spc p ≠ .setState)
    (hbefore : ∀ q : Fin n, y.state q = .sleeping → x.chan q = true → (x.wpc w).Before q →
      pc.Before q) : y.Alert own := by
  refine ⟨hexcl, fun {q} hq => ?_, fun {q} hq hc => ?_, fun {q} hs hch hc => ?_⟩
  · rw [hspc] at hq
    rw [hcond]
    exact h.going hq
  · rw [hspc] at hq
    rw [hcond] at hc
    obtain ⟨v, hv⟩ := h.gone hq hc
    have hne : v ≠ w := by
      rintro rfl
      exact hq.elim (hgone hv q).1 (hgone hv q).2
    exact ⟨v, by rw [hwpc, update_of_ne hne, hv]⟩
  · rw [hcond] at hc
    rw [hchan] at hch
    obtain ⟨v, hv⟩ := h.asleep (hstate q hs) hch hc
    refine ⟨v, ?_⟩
    rw [hwpc]
    by_cases hvw : v = w
    · subst hvw
      rw [update_self]
      exact hbefore q hs hch hv
    · rw [update_of_ne hvw]
      exact hv

/-- The condition becomes true, and the waker has everyone before it. -/
theorem Alert.raise {pc : WakerPc} (h : x.Alert own) (hw : x.wpc w = .set)
    (hexcl : (({ x with cond := true } : Handoff n W).wgoto w pc).Excl own)
    (hpc : pc = .lockPt ∨ own = true ∧ pc = .scan 0) :
    (({ x with cond := true } : Handoff n W).wgoto w pc).Alert own := by
  have hlk : x.Holds own (.waker w) (lockOf own) := by
    show (x.wpc w).Holds own _
    rw [hw]
    rfl
  have hself : (update x.wpc w pc) w = pc := update_self ..
  refine ⟨hexcl, fun {q} hq => ?_, fun {q} hq _ => ?_, fun {q} _ _ _ => ⟨w, ?_⟩⟩
  · -- `q` would hold `lk` too
    have hq' : x.Holds own (.sleeper q) (lockOf own) := by
      show (x.spc q).Holds own _
      rcases hq with hq | hq
      · rw [show x.spc q = _ from hq]
        rfl
      · rw [show x.spc q = _ from hq]
        exact .inl rfl
    cases h.excl.eq hlk hq'
  · rcases hpc with hpc | ⟨hown, -⟩
    · exact ⟨w, hself.trans hpc⟩
    · have hq' : x.Holds own (.sleeper q) (lockOf own) := by
        show (x.spc q).Holds own _
        rcases hq with hq | hq
        · rw [show x.spc q = _ from hq]
          simp [SleeperPc.Holds, lockOf, hown]
        · rw [show x.spc q = _ from hq]
          simp [SleeperPc.Holds, lockOf, hown]
      cases h.excl.eq hlk hq'
  · show (update x.wpc w pc w).Before q
    rw [hself]
    rcases hpc with hpc | ⟨-, hpc⟩
    · rw [hpc]
      trivial
    · rw [hpc]
      exact Nat.zero_le _

theorem Alert.waker (h : x.Alert own) (hs : x.WakerStep own w y) : y.Alert own := by
  have hexcl := h.excl.waker hs
  have hne : ∀ {pc : WakerPc}, x.wpc w = pc → pc ≠ .lockPt → x.wpc w = .lockPt →
      ∀ p, x.spc p ≠ .setChan ∧ x.spc p ≠ .setState :=
    fun hw hpc hw' => absurd (hw.symm.trans hw') hpc
  cases hs with
  | acquire hpc | unlockPt hpc | unlock hpc =>
    exact h.wmove hexcl rfl rfl rfl rfl (fun _ => id) (hne hpc nofun)
      (by simp [hpc, WakerPc.Before])
  | setOwn hpc hown => exact h.raise hpc hexcl (.inr ⟨hown, rfl⟩)
  | set hpc => exact h.raise hpc hexcl (.inl rfl)
  | lockPt hpc _ hfree =>
    refine h.wmove hexcl rfl rfl rfl rfl (fun _ => id) (fun _ p => ?_) fun _ _ _ _ => Nat.zero_le _
    -- nobody is going to sleep while `ptable.lock` is free
    have hno : ¬ x.Holds own (.sleeper p) .pt := fun hp => by
      rw [h.excl.lock hp] at hfree
      cases hfree
    refine ⟨fun hp => hno ?_, fun hp => hno ?_⟩ <;>
    · show (x.spc p).Holds own .pt
      rw [hp]
      rfl
  | wake k hpc =>
    refine h.wmove hexcl rfl rfl rfl rfl (fun q hq => ?_) (hne hpc nofun) fun q hq _ hb => ?_
    · by_cases hqk : q = k
      · subst hqk
        simp [wgoto] at hq
      · simpa [wgoto, hqk] using hq
    · have hqk : q ≠ k := by
        rintro rfl
        simp [wgoto] at hq
      rw [hpc] at hb
      exact Nat.lt_of_le_of_ne hb fun he => hqk (Fin.ext he.symm)
  | pass k hpc hskip =>
    refine h.wmove hexcl rfl rfl rfl rfl (fun _ => id) (hne hpc nofun) fun q hq hch hb => ?_
    have hqk : q ≠ k := by
      rintro rfl
      exact hskip ⟨hq, hch⟩
    rw [hpc] at hb
    exact Nat.lt_of_le_of_ne hb fun he => hqk (Fin.ext he.symm)
  | doneOwn hpc | done hpc =>
    refine h.wmove hexcl rfl rfl rfl rfl (fun _ => id) (hne hpc nofun) fun q _ _ hb => ?_
    rw [hpc] at hb
    exact absurd q.isLt (Nat.not_lt.mpr hb)

theorem Alert.step (h : x.Alert own) (hs : x.Step own y) : y.Alert own := by
  cases hs with
  | sleeper p hs => exact h.sleeper hs
  | waker w hs => exact h.waker hs
  | sched hs => exact h.sched hs

omit [DecidableEq W] in
theorem Init.alert (h : x.Init) : x.Alert own := by
  refine ⟨⟨fun {a l} ha => ?_⟩, fun {p} hp => ?_, fun {p} hp => ?_, fun {p} hp => ?_⟩
  · cases a with
    | sleeper p =>
      change (x.spc p).Holds own l at ha
      rw [(h.out p).1] at ha
      exact ha.elim
    | waker w =>
      change (x.wpc w).Holds own l at ha
      rw [h.outW w] at ha
      exact ha.elim
    | scheduler => exact ha.elim
  · rw [(h.out p).1] at hp
    simp at hp
  · rw [(h.out p).1] at hp
    simp at hp
  · exact absurd hp (h.out p).2

/-- No process is asleep on the channel while the condition is true, unless a waker is
between setting the condition and the end of its scan, with the process still before it. -/
theorem no_wakeup_lost (hx : Reach Init (Step own) x) : ¬ ∃ p : Fin n,
    x.state p = .sleeping ∧ x.chan p = true ∧ x.cond = true ∧
      ∀ w, x.wpc w ≠ .lockPt ∧ ∀ k < n, x.wpc w ≠ .scan k := by
  have h : x.Alert own := hx.invariant (I := fun y => y.Alert own) (fun _ h => h.alert)
    fun _ _ h hs => h.step hs
  rintro ⟨p, hs, hch, hc, hno⟩
  obtain ⟨w, hw⟩ := h.asleep hs hch hc
  obtain ⟨hlock, hscan⟩ := hno w
  cases hpc : x.wpc w with
  | lockPt => exact hlock hpc
  | scan k =>
    rw [hpc] at hw
    exact hscan k (Nat.lt_of_le_of_lt hw p.isLt) hpc
  | _ =>
    rw [hpc] at hw
    exact hw.elim

/-- One sleeper and one waker. -/
def pair : Handoff 1 (Fin 1) where
  lock _ := none
  cond := false
  state _ := .running
  chan _ := false
  spc _ := .out
  wpc _ := .out

/-- The sleeper is asleep, and the waker has set the condition and waits for the scheduler
to release `ptable.lock`. -/
theorem no_wakeup_lost_pair : ∃ x : Handoff 1 (Fin 1), x.state 0 = .sleeping ∧ x.cond = true ∧
    x.wpc 0 = .lockPt ∧ ¬ ∃ p : Fin 1, x.state p = .sleeping ∧ x.chan p = true ∧ x.cond = true ∧
      ∀ w, x.wpc w ≠ .lockPt ∧ ∀ k < 1, x.wpc w ≠ .scan k := by
  have hinit : pair.Init := ⟨fun _ => rfl, fun _ => ⟨rfl, nofun⟩, fun _ => rfl⟩
  have hrun : ∃ x : Handoff 1 (Fin 1),
      Reach Init (Step false) x ∧ x.state 0 = .sleeping ∧ x.cond = true ∧
      x.wpc 0 = .lockPt := by
    refine ⟨_, .next (.next (.next (.next (.next (.next (.next (.next (.next (.start hinit)
      (.sleeper 0 (.acquire rfl rfl))) (.sleeper 0 (.sleep rfl rfl rfl)))
      (.sleeper 0 (.lockPt rfl rfl rfl))) (.sleeper 0 (.unlockLk rfl rfl)))
      (.sleeper 0 (.setChan rfl))) (.sleeper 0 (.setState rfl))) (.sleeper 0 (.sched rfl)))
      (.waker 0 (.acquire rfl rfl))) (.waker 0 (.set rfl rfl)), rfl, rfl, rfl⟩
  obtain ⟨x, hx, hs, hc, hw⟩ := hrun
  exact ⟨x, hs, hc, hw, no_wakeup_lost hx⟩

end Handoff

end Xv6
