import Mathlib.Logic.Function.Basic
import Xv6.Mmu

/-!
# Xv6.Proc

The per-process record of `proc.h` and the two searches of the table of mapped
regions in `proc.c`.

Only the fields that modelled functions read or write are kept: the trap frame,
the saved context, the open files and the name are left out.
-/

namespace Xv6

/-- `PROT_READ`. -/
def protRead : Word := 0x1#32

/-- `PROT_WRITE`. -/
def protWrite : Word := 0x2#32

/-- `prot & PROT_WRITE`, as a test. -/
def canWrite (prot : Word) : Bool := (prot &&& protWrite) != 0#32

/-- `MAX_VMAS`. -/
def maxVmas : Nat := 16

/-- `struct vma`: an interval `[start, start + length)` of mapped addresses. -/
structure Vma where
  start : Nat
  length : Nat
  prot : Word
  used : Bool
  deriving DecidableEq, Repr

/-- A descriptor zeroed by `memset`. -/
def Vma.empty : Vma := { start := 0, length := 0, prot := 0#32, used := false }

/-- `enum procstate`. -/
inductive ProcState
  | unused
  | embryo
  | sleeping
  | runnable
  | running
  | zombie
  deriving DecidableEq, Repr

/-- `DEFAULT_PRIORITY`. -/
def defaultPriority : Int := 1

/-- `MAX_PRIORITY`. -/
def maxPriority : Nat := 10

/-- `NPROC`. -/
def nproc : Nat := 64

theorem nproc_pos : 0 < nproc := by decide

/-- What a process can sleep on: a process-table slot (in `wait`) or some other
kernel address. -/
inductive Chan
  | proc (i : Fin nproc)
  | addr (a : Nat)
  deriving DecidableEq, Repr

/-- `struct proc`. A slot of the process table is named by its index. -/
structure Proc where
  sz : Nat
  pgdir : Nat
  kstack : Nat
  state : ProcState
  pid : Int
  parent : Option (Fin nproc)
  chan : Option Chan
  killed : Bool
  priority : Int
  vmas : Fin maxVmas → Vma

/-- A slot of the process table before its first use. -/
def Proc.zero : Proc where
  sz := 0
  pgdir := 0
  kstack := 0
  state := .unused
  pid := 0
  parent := none
  chan := none
  killed := false
  priority := 0
  vmas := fun _ => Vma.empty

/-- The test `vma_find` makes on one descriptor, by subtraction so that it
cannot overflow. -/
def Vma.covers (v : Vma) (addr : Nat) : Bool :=
  v.used && decide (v.start ≤ addr) && decide (addr - v.start < v.length)

/-- `vma_find`: the first used descriptor that contains `addr`. -/
def vmaFind (p : Proc) (addr : Nat) : Option Vma :=
  ((List.finRange maxVmas).find? fun i => (p.vmas i).covers addr).map p.vmas

/-- `vma_find_exact`: the index of the first used descriptor with this start and
length. -/
def vmaFindExact (p : Proc) (addr length : Nat) : Option (Fin maxVmas) :=
  (List.finRange maxVmas).find? fun i =>
    (p.vmas i).used && decide ((p.vmas i).start = addr) && decide ((p.vmas i).length = length)

/-! ### What the searches find -/

theorem Vma.covers_iff {v : Vma} {addr : Nat} :
    v.covers addr = true ↔ v.used = true ∧ v.start ≤ addr ∧ addr < v.start + v.length := by
  simp only [Vma.covers, Bool.and_eq_true, decide_eq_true_eq]
  constructor
  · rintro ⟨⟨hu, hs⟩, hl⟩
    exact ⟨hu, hs, by omega⟩
  · rintro ⟨hu, hs, hl⟩
    exact ⟨⟨hu, hs⟩, by omega⟩

theorem vmaFindExact_eq_some {p : Proc} {addr length : Nat} {i : Fin maxVmas}
    (h : vmaFindExact p addr length = some i) :
    (p.vmas i).used = true ∧ (p.vmas i).start = addr ∧ (p.vmas i).length = length := by
  have := List.find?_some h
  simp only [Bool.and_eq_true, decide_eq_true_eq] at this
  exact ⟨this.1.1, this.1.2, this.2⟩

end Xv6
