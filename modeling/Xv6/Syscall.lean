import Xv6.System

/-!
# Xv6.Syscall

How `syscall.c` fetches the arguments of a system call from the memory of the
calling process.

The kernel checks addresses against `sz` only and then loads from them directly.
A load may fault like any other access, and is retried when `trap` returns; the
fuel bounds the number of attempts at one byte. A word is loaded as four bytes,
since it may straddle two pages. The saved stack pointer `tf->esp` is a parameter.
-/

namespace Xv6

/-- How a fetch ends. -/
inductive Fetch (α : Type)
  /-- It returns -1. -/
  | fail
  /-- It succeeds. -/
  | value (a : α)
  /-- The fuel has run out: one load keeps faulting. -/
  | stuck
  deriving DecidableEq, Repr

variable [Layout]

/-- A kernel load of one byte from user memory. -/
def kload (i : Fin nproc) (va : Word) : Nat → SM (Option Byte)
  | 0 => return none
  | n + 1 => do
    match ← onProc i (fun p => attempt p { va := va, write := false, user := false }) with
    | none => return some (peek (← get) i va)
    | some _ => kload i va n

/-- Kernel loads of `n` consecutive bytes. -/
def kloads (fuel : Nat) (i : Fin nproc) : Nat → Word → SM (Option (List Byte))
  | 0, _ => return some []
  | n + 1, va => do
    match ← kload i va fuel with
    | none => return none
    | some b => do
      match ← kloads fuel i n (va + 1#32) with
      | none => return none
      | some bs => return some (b :: bs)

/-- `fetchint`: the `int` at `addr`. -/
def fetchint (fuel : Nat) (i : Fin nproc) (addr : Word) : SM (Fetch Word) := do
  let sz := ((← get).pt.proc i).sz
  if sz ≤ addr.toNat ∨ sz < u32 (addr.toNat + 4) then return .fail
  else do
    match ← kloads fuel i 4 addr with
    | none => return .stuck
    | some bs => return .value (BitVec.ofNat 32 (getLe bs 0 4))

/-- The loop of `fetchstr`, with `n` bytes left before `sz`; `len` bytes have been
scanned. -/
def fetchstrLoop (fuel : Nat) (i : Fin nproc) : Nat → Nat → Word → SM (Fetch Nat)
  | 0, _, _ => return .fail
  | n + 1, len, s => do
    match ← kload i s fuel with
    | none => return .stuck
    | some b =>
      if b = 0#8 then return .value len else fetchstrLoop fuel i n (len + 1) (s + 1#32)

/-- `fetchstr`: the length of the string at `addr`. -/
def fetchstr (fuel : Nat) (i : Fin nproc) (addr : Word) : SM (Fetch Nat) := do
  let sz := ((← get).pt.proc i).sz
  if sz ≤ addr.toNat then return .fail
  else fetchstrLoop fuel i (sz - addr.toNat) 0 addr

/-- `argint`: the `n`th argument. -/
def argint (fuel : Nat) (i : Fin nproc) (esp n : Word) : SM (Fetch Word) :=
  fetchint fuel i (esp + 4#32 + 4#32 * n)

/-- `argptr`: the `n`th argument as a pointer to `size` bytes. -/
def argptr (fuel : Nat) (i : Fin nproc) (esp n size : Word) : SM (Fetch Word) := do
  match ← argint fuel i esp n with
  | .fail => return .fail
  | .stuck => return .stuck
  | .value p => do
    let sz := ((← get).pt.proc i).sz
    if size.toInt < 0 ∨ sz ≤ p.toNat ∨ sz < u32 (p.toNat + size.toNat) then return .fail
    else return .value p

end Xv6
