import Mathlib.Data.Finset.Card
import Xv6.Lib.Reach

/-!
# Xv6.Locks

The locks of `spinlock.c`, with the nesting of `pushcli` and `popcli` in them, and those of
`sleeplock.c`.

Any number of CPUs take and release any number of spin locks. A step is one access to memory
that other CPUs see, with what the CPU then does to its own flags: the two tests in `holding`
are two steps, and so are the exchange in `acquire` and the write of `lk->cpu` behind it. Between
calls, and with `ncli` at 0, a CPU may turn its interrupts on and off, as `sti` in `scheduler`, an
interrupt gate and `iret` do. `sched`, which saves `intena` and restores it when the process runs
again, is not modelled. For sleep locks a step is what happens under the spin lock in them.
-/

namespace Xv6

open Function (update update_self update_of_ne)

/-! ### Interrupts -/

inductive SpinPanic
  | acquire
  | release
  /-- `panic("popcli - interruptible")`. -/
  | interruptible
  | popcli
  deriving DecidableEq

/-- The interrupt flag of a CPU, and `ncli` and `intena` of its `struct cpu`. -/
structure CpuFlags where
  intr : Bool
  ncli : Int
  intena : Bool

namespace CpuFlags

def pushcli (u : CpuFlags) : CpuFlags :=
  ⟨false, u.ncli + 1, if u.ncli = 0 then u.intr else u.intena⟩

def popcli (u : CpuFlags) : Except SpinPanic CpuFlags :=
  if u.intr then throw .interruptible
  else if u.ncli - 1 < 0 then throw .popcli
  else pure ⟨decide (u.ncli - 1 = 0) && u.intena, u.ncli - 1, u.intena⟩

/-- `n` calls of `pushcli` are to be undone, and the first of them found the flag `b`. -/
structure Nested (u : CpuFlags) (n : Nat) (b : Bool) : Prop where
  ncli : u.ncli = n
  outside : n = 0 → u.intr = b
  inside : 0 < n → u.intr = false ∧ u.intena = b

variable {u : CpuFlags} {n : Nat} {b : Bool}

theorem Nested.pushcli (h : u.Nested n b) : u.pushcli.Nested (n + 1) b := by
  refine ⟨?_, fun hn => absurd hn (Nat.succ_ne_zero n), fun _ => ⟨rfl, ?_⟩⟩
  · rw [CpuFlags.pushcli, h.ncli]
    rfl
  · show (if u.ncli = 0 then u.intr else u.intena) = b
    rw [h.ncli]
    rcases Nat.eq_zero_or_pos n with hn | hn
    · rw [if_pos (by omega), h.outside hn]
    · rw [if_neg (by omega), (h.inside hn).2]

/-- A `popcli` that undoes a `pushcli` does not panic. -/
theorem Nested.popcli (h : u.Nested (n + 1) b) : ∃ v, u.popcli = .ok v ∧ v.Nested n b := by
  obtain ⟨hoff, hb⟩ := h.inside (Nat.succ_pos n)
  have hncli : u.ncli - 1 = n := by rw [h.ncli]; omega
  refine ⟨⟨decide ((n : Int) = 0) && u.intena, n, u.intena⟩, ?_, rfl, fun hn => ?_, fun hn => ?_⟩
  · rw [CpuFlags.popcli, hoff, hncli, if_neg Bool.false_ne_true, if_neg (by omega)]
    rfl
  · rw [hn, hb]
    rfl
  · refine ⟨?_, hb⟩
    show (decide ((n : Int) = 0) && u.intena) = false
    rw [decide_eq_false (by omega), Bool.false_and]

end CpuFlags

/-! ### The locks -/

/-- The two functions that call `holding`. -/
inductive LockCall
  | acquire
  | release
  deriving DecidableEq

/-- The calls of `pushcli` before the one of `holding`. -/
def LockCall.depth : LockCall → Nat
  | .acquire => 1
  | .release => 0

/-- Where a CPU is. -/
inductive SpinPc (L : Type)
  | idle
  /-- In `holding`, before the test of `lock->locked`. -/
  | test (f : LockCall) (lk : L)
  /-- In `holding`, before the test of `lock->cpu`. -/
  | compare (f : LockCall) (lk : L)
  /-- In the loop of `acquire`. -/
  | spin (lk : L)
  /-- The exchange has returned 0. -/
  | mark (lk : L)
  /-- In `release`, before `lk->cpu = 0`. -/
  | unmark (lk : L)
  /-- Before the store to `lk->locked`. -/
  | unlock (lk : L)
  deriving DecidableEq

structure SpinCpu (L : Type) where
  flags : CpuFlags
  pc : SpinPc L
  /-- The locks that the CPU has: from the exchange in `acquire` to the store in `release`. -/
  held : Finset L
  /-- The other calls of `pushcli` that are to be undone. -/
  pushed : Nat
  /-- The interrupt flag outside all of these. -/
  outer : Bool

structure Spin (C L : Type) where
  locked : L → Bool
  cpu : L → Option C
  cpus : C → SpinCpu L

/-- What a CPU can do: a call, or the next access to memory in the one it is in. -/
inductive SpinAct (L : Type)
  | flag (b : Bool)
  | pushcli
  | popcli
  | acquire (lk : L)
  | release (lk : L)
  | go

/-- The end of `holding` with the result `r`, and what its caller does with it. -/
def SpinCpu.answer {L : Type} (k : SpinCpu L) (f : LockCall) (lk : L) (r : Bool) :
    Except SpinPanic (SpinCpu L) := do
  let u ← k.flags.popcli
  match f with
  | .acquire => if r then throw .acquire else pure { k with flags := u, pc := .spin lk }
  | .release => if r then pure { k with flags := u, pc := .unmark lk } else throw .release

namespace Spin

variable {C L : Type}

/-- What the kernel's code sees to: it takes no lock twice, and undoes what it has done. -/
def Allowed (x : Spin C L) (c : C) : SpinAct L → Prop
  | .flag _ => (x.cpus c).pc = .idle ∧ (x.cpus c).flags.ncli = 0
  | .pushcli => (x.cpus c).pc = .idle
  | .popcli => (x.cpus c).pc = .idle ∧ 0 < (x.cpus c).pushed
  | .acquire lk => (x.cpus c).pc = .idle ∧ lk ∉ (x.cpus c).held
  | .release lk => (x.cpus c).pc = .idle ∧ lk ∈ (x.cpus c).held
  | .go => True

/-- After `initlock` of every lock. -/
structure Init (x : Spin C L) : Prop where
  locked : ∀ lk, x.locked lk = false
  cpu : ∀ lk, x.cpu lk = none
  cpus : ∀ c, ∃ b i, x.cpus c = ⟨⟨b, 0, i⟩, .idle, ∅, 0, b⟩

variable [DecidableEq C] [DecidableEq L]

/-- The next access to memory. -/
def go (x : Spin C L) (c : C) : Except SpinPanic (Spin C L) :=
  let k := x.cpus c
  match k.pc with
  | .idle => pure x
  | .test f lk => do
    let k' ← if x.locked lk then pure { k with pc := .compare f lk } else k.answer f lk false
    pure { x with cpus := update x.cpus c k' }
  | .compare f lk => do
    let k' ← k.answer f lk (decide (x.cpu lk = some c))
    pure { x with cpus := update x.cpus c k' }
  | .spin lk =>
    -- `xchg(&lk->locked, 1)`
    if x.locked lk then pure x
    else pure { x with
      locked := update x.locked lk true
      cpus := update x.cpus c { k with held := insert lk k.held, pc := .mark lk } }
  | .mark lk => pure { x with
      cpu := update x.cpu lk (some c)
      cpus := update x.cpus c { k with pc := .idle } }
  | .unmark lk => pure { x with
      cpu := update x.cpu lk none
      cpus := update x.cpus c { k with pc := .unlock lk } }
  | .unlock lk => do
    let u ← k.flags.popcli
    pure { x with
      locked := update x.locked lk false
      cpus := update x.cpus c { k with flags := u, held := k.held.erase lk, pc := .idle } }

def act (x : Spin C L) (c : C) (a : SpinAct L) : Except SpinPanic (Spin C L) :=
  let k := x.cpus c
  let put (k' : SpinCpu L) : Spin C L := { x with cpus := update x.cpus c k' }
  match a with
  | .flag b => pure (put { k with flags := { k.flags with intr := b }, outer := b })
  | .pushcli => pure (put { k with flags := k.flags.pushcli, pushed := k.pushed + 1 })
  | .popcli => do
    let u ← k.flags.popcli
    pure (put { k with flags := u, pushed := k.pushed - 1 })
  -- both go on to `holding`, which has a `pushcli` of its own
  | .acquire lk => pure (put { k with flags := k.flags.pushcli.pushcli, pc := .test .acquire lk })
  | .release lk => pure (put { k with flags := k.flags.pushcli, pc := .test .release lk })
  | .go => x.go c

def Step (x y : Spin C L) : Prop := ∃ c a, x.Allowed c a ∧ x.act c a = .ok y

end Spin

/-! ### One CPU -/

section
variable {L : Type}

/-- The calls of `pushcli` to undo in the call that the CPU is in. The one in `acquire` counts with
the lock once that is taken. -/
def SpinPc.pending : SpinPc L → Nat
  | .test f _ | .compare f _ => f.depth + 1
  | .spin _ => 1
  | _ => 0

/-- Whether the CPU has the lock of the call it is in. -/
def SpinPc.Fits (held : Finset L) : SpinPc L → Prop
  | .idle => True
  | .test f lk | .compare f lk => lk ∈ held ↔ f = .release
  | .spin lk => lk ∉ held
  | .mark lk | .unmark lk | .unlock lk => lk ∈ held

/-- The lock that the CPU has and is not named in. -/
@[simp] def SpinPc.unnamed : SpinPc L → Option L
  | .mark lk | .unlock lk => some lk
  | _ => none

namespace SpinCpu

structure Ok (k : SpinCpu L) : Prop where
  fits : k.pc.Fits k.held
  nested : k.flags.Nested (k.held.card + k.pushed + k.pc.pending) k.outer

@[simp] def Named (k : SpinCpu L) (lk : L) : Prop := lk ∈ k.held ∧ k.pc.unnamed ≠ some lk

variable {k : SpinCpu L}

/-- If `holding` is right, its caller does not panic. -/
theorem Ok.answer (h : k.Ok) {f : LockCall} {lk : L} {r : Bool}
    (hpc : k.pc = .test f lk ∨ k.pc = .compare f lk) (hr : r = true ↔ lk ∈ k.held) :
    ∃ k', k.answer f lk r = .ok k' ∧ k'.Ok ∧ k'.held = k.held ∧ k'.pc.unnamed = k.pc.unnamed := by
  have hfits := h.fits
  have hn := h.nested
  have hat : k.pc.pending = f.depth + 1 ∧ (lk ∈ k.held ↔ f = .release) ∧
      k.pc.unnamed = none := by
    rcases hpc with hpc | hpc <;> rw [hpc] at hfits ⊢ <;> exact ⟨rfl, hfits, rfl⟩
  obtain ⟨hpending, hlk, hun⟩ := hat
  rw [hpending] at hn
  obtain ⟨u, hu, hn'⟩ := hn.popcli
  rw [hlk] at hr
  cases f with
  | acquire =>
    refine ⟨_, by simp [SpinCpu.answer, hu, hr]; rfl, ?_⟩
    exact ⟨⟨by simp [SpinPc.Fits, hlk], hn'⟩, rfl, hun.symm⟩
  | release =>
    refine ⟨_, by simp [SpinCpu.answer, hu, hr]; rfl, ?_⟩
    exact ⟨⟨hlk.mpr rfl, hn'⟩, rfl, hun.symm⟩

end SpinCpu

end

/-! ### The invariant -/

namespace Spin

variable {C L : Type} {x y : Spin C L} {c : C} {k : SpinCpu L} {lk : L} {o o' : Option C}

/-- `o` has the lock, if anybody has. -/
structure LockOk (x : Spin C L) (lk : L) (o : Option C) : Prop where
  held : ∀ d, lk ∈ (x.cpus d).held ↔ o = some d
  locked : x.locked lk = o.isSome
  cpu : ∀ d, x.cpu lk = some d ↔ (x.cpus d).Named lk

structure Inv (x : Spin C L) : Prop where
  lock : ∀ lk, ∃ o, x.LockOk lk o
  cpus : ∀ c, (x.cpus c).Ok

theorem inv_init (h : x.Init) : x.Inv where
  lock lk := by
    refine ⟨none, fun d => ?_, h.locked lk, fun d => ?_⟩
    · obtain ⟨b, i, hd⟩ := h.cpus d
      simp [hd]
    · obtain ⟨b, i, hd⟩ := h.cpus d
      simp [hd, h.cpu]
  cpus c := by
    obtain ⟨b, i, hc⟩ := h.cpus c
    rw [hc]
    exact ⟨trivial, rfl, fun _ => rfl, fun hn => absurd hn (lt_irrefl 0)⟩

variable [DecidableEq C]

theorem LockOk.frame (h : x.LockOk lk o) (hy : y.cpus = update x.cpus c k)
    (hlocked : y.locked lk = x.locked lk) (hcpu : y.cpu lk = x.cpu lk)
    (hheld : lk ∈ k.held ↔ lk ∈ (x.cpus c).held) (hnamed : k.Named lk ↔ (x.cpus c).Named lk) :
    y.LockOk lk o := by
  refine ⟨fun d => ?_, hlocked.trans h.locked, fun d => ?_⟩
  · rw [← h.held d, hy]
    rcases eq_or_ne d c with rfl | hd
    · rw [update_self, hheld]
    · rw [update_of_ne hd]
  · rw [hcpu, h.cpu d, hy]
    rcases eq_or_ne d c with rfl | hd
    · rw [update_self, hnamed]
    · rw [update_of_ne hd]

/-- A lock that `c` takes, has or gives back. -/
theorem LockOk.change (h : x.LockOk lk o) (hy : y.cpus = update x.cpus c k)
    (ho : ∀ d, o = some d → d = c) (ho' : ∀ d, o' = some d → d = c)
    (hheld : lk ∈ k.held ↔ o' = some c) (hlocked : y.locked lk = o'.isSome)
    (hcpu : ∀ d, y.cpu lk = some d ↔ d = c ∧ k.Named lk) : y.LockOk lk o' := by
  refine ⟨fun d => ?_, hlocked, fun d => ?_⟩
  · rw [hy]
    rcases eq_or_ne d c with rfl | hd
    · rw [update_self, hheld]
    · rw [update_of_ne hd, h.held d]
      exact ⟨fun he => absurd (ho d he) hd, fun he => absurd (ho' d he) hd⟩
  · rw [hcpu d, hy]
    rcases eq_or_ne d c with rfl | hd
    · rw [update_self, eq_self, true_and]
    · rw [update_of_ne hd]
      exact ⟨fun he => absurd he.1 hd, fun hn => absurd (ho d ((h.held d).mp hn.1)) hd⟩

theorem Inv.cpus_update (h : x.Inv) (hk : k.Ok) (d : C) : (update x.cpus c k d).Ok := by
  rcases eq_or_ne d c with rfl | hd
  · rwa [update_self]
  · rw [update_of_ne hd]
    exact h.cpus d

theorem Inv.move (h : x.Inv) (hk : k.Ok) (hheld : k.held = (x.cpus c).held)
    (hun : k.pc.unnamed = (x.cpus c).pc.unnamed) :
    Inv { x with cpus := update x.cpus c k } where
  lock l := by
    obtain ⟨o, ho⟩ := h.lock l
    exact ⟨o, ho.frame rfl rfl rfl (by rw [hheld])
      (by rw [SpinCpu.Named, SpinCpu.Named, hheld, hun])⟩
  cpus := h.cpus_update hk

/-- A step that has to do with no lock but `lk`. -/
theorem Inv.put (h : x.Inv) (lk : L) (hy : y.cpus = update x.cpus c k) (hk : k.Ok)
    (hframe : ∀ l, l ≠ lk → y.locked l = x.locked l ∧ y.cpu l = x.cpu l ∧
      (l ∈ k.held ↔ l ∈ (x.cpus c).held) ∧ (k.Named l ↔ (x.cpus c).Named l))
    (hlock : ∀ o, x.LockOk lk o → ∃ o', y.LockOk lk o') : y.Inv where
  lock l := by
    obtain ⟨o, ho⟩ := h.lock l
    rcases eq_or_ne l lk with rfl | hl
    · exact hlock o ho
    · obtain ⟨hlocked, hcpu, hheld, hnamed⟩ := hframe l hl
      exact ⟨o, ho.frame hy hlocked hcpu hheld hnamed⟩
  cpus := hy ▸ h.cpus_update hk

variable [DecidableEq L]

theorem Inv.go (h : x.Inv) (c : C) : ∃ y, x.go c = .ok y ∧ y.Inv := by
  have hfits := (h.cpus c).fits
  have hn := (h.cpus c).nested
  cases hpc : (x.cpus c).pc with
  | idle => exact ⟨x, by simp [Spin.go, hpc]; rfl, h⟩
  | test f lk =>
    cases hlocked : x.locked lk with
    | true =>
      refine ⟨_, by simp [Spin.go, hpc, hlocked]; rfl, ?_⟩
      rw [hpc] at hfits hn
      exact h.move ⟨hfits, hn⟩ rfl (by rw [hpc]; rfl)
    | false =>
      -- nobody has the lock, so 0 is the right answer
      obtain ⟨o, ho⟩ := h.lock lk
      obtain ⟨k, hk, hok, hheld, hun⟩ := (h.cpus c).answer (r := false) (.inl hpc)
        ⟨fun hr => absurd hr Bool.false_ne_true, fun hlk => by
          rw [← hlocked, ho.locked, (ho.held c).mp hlk]
          rfl⟩
      refine ⟨_, by simp [Spin.go, hpc, hlocked, hk]; rfl, ?_⟩
      exact h.move hok hheld hun
  | compare f lk =>
    obtain ⟨o, ho⟩ := h.lock lk
    obtain ⟨k, hk, hok, hheld, hun⟩ := (h.cpus c).answer (r := decide (x.cpu lk = some c))
      (.inr hpc) (by simp [ho.cpu, hpc])
    refine ⟨_, by simp [Spin.go, hpc, hk]; rfl, ?_⟩
    exact h.move hok hheld hun
  | spin lk =>
    rw [hpc] at hfits hn
    cases hlocked : x.locked lk with
    | true => exact ⟨x, by simp [Spin.go, hpc, hlocked]; rfl, h⟩
    | false =>
      refine ⟨_, by simp [Spin.go, hpc, hlocked]; rfl, ?_⟩
      refine h.put lk rfl ⟨Finset.mem_insert_self lk _, ?_⟩
        (fun l hl => by simp [hl, hl.symm, hpc]) fun o ho => ?_
      · simpa [Finset.card_insert_of_notMem hfits, SpinPc.pending, Nat.add_right_comm] using hn
      · have hnone : o = none := by simpa [hlocked] using ho.locked.symm
        subst hnone
        exact ⟨some c, ho.change rfl (by simp) (by simp) (by simp) (by simp)
          fun d => by simp [ho.cpu, ho.held]⟩
  | mark lk =>
    rw [hpc] at hfits hn
    refine ⟨_, by simp [Spin.go, hpc]; rfl, ?_⟩
    refine h.put lk rfl ⟨trivial, hn⟩ (fun l hl => by simp [hl, hl.symm, hpc]) fun o ho => ⟨o, ?_⟩
    have hself := (ho.held c).mp hfits
    exact ho.change rfl (by simp [hself, eq_comm]) (by simp [hself, eq_comm]) (ho.held c)
      ho.locked fun d => by simp [ho.held, hself, eq_comm]
  | unmark lk =>
    rw [hpc] at hfits hn
    refine ⟨_, by simp [Spin.go, hpc]; rfl, ?_⟩
    refine h.put lk rfl ⟨hfits, hn⟩ (fun l hl => by simp [hl, hl.symm, hpc]) fun o ho => ⟨o, ?_⟩
    have hself := (ho.held c).mp hfits
    exact ho.change rfl (by simp [hself, eq_comm]) (by simp [hself, eq_comm]) (ho.held c)
      ho.locked fun d => by simp
  | unlock lk =>
    rw [hpc] at hfits hn
    rw [← Finset.card_erase_add_one hfits, Nat.add_right_comm _ 1] at hn
    obtain ⟨u, hu, hn'⟩ := hn.popcli
    refine ⟨_, by simp [Spin.go, hpc, hu]; rfl, ?_⟩
    refine h.put lk rfl ⟨trivial, hn'⟩ (fun l hl => by simp [hl, hl.symm, hpc]) fun o ho => ?_
    have hself := (ho.held c).mp hfits
    refine ⟨none, ho.change rfl (by simp [hself, eq_comm]) (by simp) (by simp) (by simp)
      fun d => ?_⟩
    -- `lk->cpu` was cleared by the step before
    rcases eq_or_ne d c with rfl | hd
    · simp [ho.cpu, hpc]
    · simp [ho.cpu, ho.held, hself, hd, hd.symm]

theorem Inv.act (h : x.Inv) {a : SpinAct L} (ha : x.Allowed c a) :
    ∃ y, x.act c a = .ok y ∧ y.Inv := by
  have hn := (h.cpus c).nested
  cases a with
  | flag b =>
    obtain ⟨hpc, hncli⟩ := ha
    have hzero : (x.cpus c).held.card + (x.cpus c).pushed + (x.cpus c).pc.pending = 0 := by
      have hcount := hn.ncli
      omega
    refine ⟨_, rfl, h.move ⟨?_, ?_⟩ rfl rfl⟩
    · exact (h.cpus c).fits
    · show CpuFlags.Nested _ ((x.cpus c).held.card + (x.cpus c).pushed + (x.cpus c).pc.pending) b
      rw [hzero]
      exact ⟨hncli, fun _ => rfl, fun hpos => absurd hpos (lt_irrefl 0)⟩
  | pushcli =>
    have hn' := hn.pushcli
    rw [Nat.add_right_comm] at hn'
    exact ⟨_, rfl, h.move ⟨(h.cpus c).fits, hn'⟩ rfl rfl⟩
  | popcli =>
    obtain ⟨hpc, hpos⟩ := ha
    rw [← Nat.sub_one_add_one hpos.ne', ← Nat.add_assoc, Nat.add_right_comm _ 1] at hn
    obtain ⟨u, hu, hn'⟩ := hn.popcli
    refine ⟨_, by simp [Spin.act, hu]; rfl, ?_⟩
    exact h.move ⟨(h.cpus c).fits, hn'⟩ rfl rfl
  | acquire lk =>
    obtain ⟨hpc, hlk⟩ := ha
    have hn' := hn.pushcli.pushcli
    rw [hpc] at hn'
    exact ⟨_, rfl, h.move ⟨by simp [SpinPc.Fits, hlk], hn'⟩ rfl (by rw [hpc]; rfl)⟩
  | release lk =>
    obtain ⟨hpc, hlk⟩ := ha
    have hn' := hn.pushcli
    rw [hpc] at hn'
    exact ⟨_, rfl, h.move ⟨by simp [SpinPc.Fits, hlk], hn'⟩ rfl (by rw [hpc]; rfl)⟩
  | go => exact h.go c

/-- However the CPUs interleave: a lock has one holder at most, and `locked` says whether it has
one; a holder's interrupts are off, and are as they were once the CPU has undone everything; and
neither `acquire`, `release` nor `popcli` panics. -/
theorem spinlock_safe (h : Reach Init Step x) :
    (∀ c d lk, lk ∈ (x.cpus c).held → lk ∈ (x.cpus d).held → c = d) ∧
    (∀ lk, x.locked lk = true ↔ ∃ c, lk ∈ (x.cpus c).held) ∧
    (∀ c, (x.cpus c).held.Nonempty → (x.cpus c).flags.intr = false) ∧
    (∀ c, (x.cpus c).flags.ncli = 0 → (x.cpus c).flags.intr = (x.cpus c).outer) ∧
    ∀ c a, x.Allowed c a → ∃ y, x.act c a = .ok y := by
  have hinv : x.Inv := by
    refine h.invariant (fun _ => inv_init) ?_
    intro x y hx ⟨c, a, ha, hy⟩
    obtain ⟨y', hy', hinv⟩ := hx.act ha
    cases hy.symm.trans hy'
    exact hinv
  refine ⟨fun c d lk hc hd => ?_, fun lk => ?_, fun c hc => ?_, fun c hc => ?_, fun c a ha => ?_⟩
  · obtain ⟨o, ho⟩ := hinv.lock lk
    exact Option.some.inj (((ho.held c).mp hc).symm.trans ((ho.held d).mp hd))
  · obtain ⟨o, ho⟩ := hinv.lock lk
    simp only [ho.locked, ho.held, Option.isSome_iff_exists]
  · have hpos := Finset.card_pos.mpr hc
    exact ((hinv.cpus c).nested.inside (by omega)).1
  · have hn := (hinv.cpus c).nested
    have hcount := hn.ncli
    exact hn.outside (by omega)
  · obtain ⟨y, hy, -⟩ := hinv.act ha
    exact ⟨y, hy⟩

/-- Two CPUs with interrupts on, and one lock. -/
def twoCpus : Spin Bool Unit where
  locked _ := false
  cpu _ := none
  cpus _ := ⟨⟨true, 0, false⟩, .idle, ∅, 0, true⟩

/-- One has the lock, and the other waits for it. -/
theorem spinlock_safe_contended : ∃ x : Spin Bool Unit, (x.cpus true).held = {()} ∧
    (x.cpus false).pc = .spin () ∧ (x.cpus true).flags.intr = false := by
  have hstart : Reach Init Step twoCpus :=
    .start ⟨fun _ => rfl, fun _ => rfl, fun _ => ⟨true, false, rfl⟩⟩
  have hboth := (hstart.next ⟨true, .acquire (), ⟨rfl, by decide⟩, rfl⟩).next
    ⟨false, .acquire (), ⟨rfl, by decide⟩, rfl⟩
  have htests := (hboth.next ⟨true, .go, trivial, rfl⟩).next ⟨false, .go, trivial, rfl⟩
  have htaken := (htests.next ⟨true, .go, trivial, rfl⟩).next ⟨false, .go, trivial, rfl⟩
  exact ⟨_, by decide, by decide, (spinlock_safe htaken).2.2.1 true (by decide)⟩

end Spin

/-! ### Sleep locks -/

/-- A sleep lock and the processes around it. -/
structure Sleeplock (P : Type) where
  locked : Bool
  /-- `lk->pid`, `none` for 0. -/
  pid : Option P
  /-- Asleep in `acquiresleep`. -/
  asleep : P → Bool
  /-- Between `acquiresleep` and `releasesleep`. -/
  inside : P → Bool

namespace Sleeplock

variable {P : Type} [DecidableEq P]

/-- After `initsleeplock`. -/
def unlocked : Sleeplock P := ⟨false, none, fun _ => false, fun _ => false⟩

def holdingsleep (x : Sleeplock P) (p : P) : Bool := x.locked && decide (x.pid = some p)

inductive Step (x : Sleeplock P) : Sleeplock P → Prop
  /-- `acquiresleep` from its start or from waking up, to `sleep`. -/
  | sleep (p : P) : x.inside p = false → x.locked = true →
      Step x { x with asleep := update x.asleep p true }
  /-- The same, to its end. -/
  | acquiresleep (p : P) : x.asleep p = false → x.locked = false →
      Step x { x with locked := true, pid := some p, inside := update x.inside p true }
  | releasesleep (p : P) : x.inside p = true →
      Step x ⟨false, none, fun _ => false, update x.inside p false⟩
  /-- `kill` wakes a sleeper, which tries again. -/
  | kill (p : P) : Step x { x with asleep := update x.asleep p false }

structure Inv (x : Sleeplock P) : Prop where
  inside : ∀ p, x.inside p = true ↔ x.locked = true ∧ x.pid = some p
  pid : x.locked = true → ∃ p, x.pid = some p
  asleep : ∀ p, x.asleep p = true → x.locked = true

theorem Inv.step {x y : Sleeplock P} (h : x.Inv) (hstep : Step x y) : y.Inv := by
  cases hstep with
  | sleep p hp hlocked => exact ⟨h.inside, h.pid, fun _ _ => hlocked⟩
  | acquiresleep p hp hlocked =>
    refine ⟨fun q => ?_, fun _ => ⟨p, rfl⟩, fun _ _ => rfl⟩
    have hq : ¬ x.inside q = true := by simp [h.inside, hlocked]
    rcases eq_or_ne q p with rfl | hne
    · simp
    · simp [hne, hne.symm, hq]
  | releasesleep p hp =>
    refine ⟨fun q => ?_, fun hf => absurd hf Bool.false_ne_true,
      fun _ hf => absurd hf Bool.false_ne_true⟩
    rcases eq_or_ne q p with rfl | hne
    · simp
    · have hq : x.inside q ≠ true := fun hq =>
        hne (Option.some.inj (((h.inside q).mp hq).2.symm.trans ((h.inside p).mp hp).2))
      simp [hne, hq]
  | kill p =>
    refine ⟨h.inside, h.pid, fun q hq => ?_⟩
    rcases eq_or_ne q p with rfl | hne
    · simp at hq
    · exact h.asleep q (by simpa [hne] using hq)

/-- At most one process is inside, `holdingsleep` tells it and nobody else so, and nobody sleeps
unless somebody is inside. -/
theorem sleeplock_safe {x : Sleeplock P} (h : Reach (· = unlocked) Step x) :
    (∀ p q, x.inside p = true → x.inside q = true → p = q) ∧
    (∀ p, x.holdingsleep p = x.inside p) ∧
    ∀ p, x.asleep p = true → ∃ q, x.inside q = true := by
  have hinv : x.Inv := by
    refine h.invariant ?_ fun _ _ hx hstep => hx.step hstep
    intro x hx
    rw [hx]
    exact ⟨fun _ => by simp [unlocked], by simp [unlocked], by simp [unlocked]⟩
  refine ⟨fun p q hp hq => ?_, fun p => ?_, fun p hp => ?_⟩
  · exact Option.some.inj (((hinv.inside p).mp hp).2.symm.trans ((hinv.inside q).mp hq).2)
  · rw [Bool.eq_iff_iff, hinv.inside p]
    simp [holdingsleep]
  · have hlocked := hinv.asleep p hp
    obtain ⟨q, hq⟩ := hinv.pid hlocked
    exact ⟨q, (hinv.inside q).mpr ⟨hlocked, hq⟩⟩

/-- One process inside, and one asleep. -/
theorem sleeplock_safe_waiting :
    ∃ x : Sleeplock Bool, x.holdingsleep true = true ∧ x.asleep false = true := by
  have hstart : Reach (· = unlocked) Step (unlocked : Sleeplock Bool) := .start rfl
  have htaken := hstart.next (Step.acquiresleep true rfl rfl)
  have hboth := htaken.next (.sleep false rfl rfl)
  exact ⟨_, (sleeplock_safe hboth).2.1 true, rfl⟩

end Sleeplock

end Xv6
