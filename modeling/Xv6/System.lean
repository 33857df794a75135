import Xv6.Exec
import Xv6.Ptable
import Xv6.Trap

/-!
# Xv6.System

The whole system: physical memory, the process table, and everything a process
can do to them. A call of one process runs to its end before the next process
moves; the processes take turns in any order.

A system call is entered and left through the two checks of `killed` in `trap`.
A user load or store is tried again after each fault until it goes through or
the process is gone. `wait` that would sleep reports `blocked` and changes
nothing; sleeping and waking up are the subject of `Xv6.Dispatch`.
-/

namespace Xv6

/-- The state of the machine. -/
structure Sys where
  k : Kmem
  /-- `kpgdir`, the scheduler's page table. -/
  kpgdir : Nat
  pt : Ptable

/-- A computation on the whole system. -/
abbrev SM := Kern Sys Panic

/-- A computation on physical memory, as part of the system. -/
def onMem {α : Type} (m : KM α) : SM α := focus Sys.k (fun s k => { s with k := k }) m

/-- Change the process table. -/
def modifyPt (f : Ptable → Ptable) : SM Unit := modify fun s => { s with pt := f s.pt }

/-- A call that works on the record of one process. -/
def onProc {α : Type} (i : Fin nproc) (f : Proc → KM (α × Proc)) : SM α := do
  let s ← get
  let r ← onMem (f (s.pt.proc i))
  modifyPt fun t => t.set i r.2
  return r.1

/-- What a call reports to the process. -/
inductive Out
  /-- The value a system call returns. -/
  | ret (n : Int)
  /-- The byte a load reads. -/
  | byte (b : Byte)
  /-- A store, or a single access, has gone through. -/
  | done
  /-- A page fault was handled, and the instruction is about to be retried. -/
  | retry
  /-- The process is gone. -/
  | killed
  /-- The call has to wait. -/
  | blocked
  deriving DecidableEq

section
variable [Layout]

/-! ### Processes -/

/-- `fork`. -/
def fork (cur : Fin nproc) : SM Int := do
  match (← get).pt.allocproc with
  | none => return -1
  | some (i, t) => do
    modifyPt fun _ => t
    match ← onMem kalloc with
    | none => do
      modifyPt fun t => t.allocprocFail i
      return -1
    | some kstack => do
      modifyPt fun t => t.allocprocStack i kstack
      let t := (← get).pt
      match ← onMem (copyuvm (t.proc cur).pgdir (t.proc cur).sz) with
      | none => do
        onMem (kfree kstack)
        modifyPt fun t => t.forkFail i
        return -1
      | some pgdir => do
        modifyPt fun t => t.forkCommit cur i pgdir
        return (t.proc i).pid

/-- `exit`. -/
def exit (cur : Fin nproc) : SM Unit := do
  if cur = (← get).pt.initproc then throw .initExiting
  else modifyPt fun t => t.exit cur

/-- `wait`. -/
def wait (cur : Fin nproc) : SM Out := do
  let t := (← get).pt
  match t.waitScan cur with
  | .fail => return .ret (-1)
  | .block => return .blocked
  | .zombie i => do
    onMem (kfree (t.proc i).kstack)
    onMem (freevm (t.proc i).pgdir)
    modifyPt fun t => t.reap i
    return .ret (t.proc i).pid

/-- `kill`. -/
def kill (pid : Int) : SM Int := do
  let r := (← get).pt.kill pid
  modifyPt fun _ => r.2
  return r.1

/-! ### Memory accesses -/

/-- One attempt at an access by process `i`, with the fault and the exit that may
follow. -/
def tryAccess (i : Fin nproc) (a : Access) : SM Out := do
  match ← onProc i (fun p => attempt p a) with
  | none => return .done
  | some .resume => return .retry
  | some .exit => do
    exit i
    return .killed

/-- A user access, retried after each fault. Two attempts are enough
(`userAccess_ends`); `retry` would mean that they were not. -/
def userAccess (i : Fin nproc) (va : Word) (write : Bool) : Nat → SM Out
  | 0 => return .retry
  | n + 1 => do
    match ← tryAccess i { va := va, write := write, user := true } with
    | .retry => userAccess i va write n
    | r => return r

/-- The frame and the offset in it that a permitted access of process `i` goes to. -/
def target (s : Sys) (i : Fin nproc) (va : Word) : Nat × Nat :=
  (hwFrame s.k (s.pt.proc i).pgdir va.toNat, va.toNat % pgsize)

/-- The byte a permitted load of process `i` reads. -/
def peek (s : Sys) (i : Fin nproc) (va : Word) : Byte :=
  getByte (s.k.mem (target s i va).1) (target s i va).2

/-- A permitted store of process `i`. -/
def poke (s : Sys) (i : Fin nproc) (va : Word) (b : Byte) : Sys :=
  let page := setByte (s.k.mem (target s i va).1) (target s i va).2 b
  { s with k := s.k.fill (target s i va).1 page }

/-- A user load of one byte. -/
def load (i : Fin nproc) (va : Word) : SM Out := do
  match ← userAccess i va false 3 with
  | .done => return .byte (peek (← get) i va)
  | r => return r

/-- A user store of one byte. -/
def store (i : Fin nproc) (va : Word) (b : Byte) : SM Out := do
  match ← userAccess i va true 3 with
  | .done => do
    modify fun s => poke s i va b
    return .done
  | r => return r

/-! ### Calls -/

/-- What a process can do. -/
inductive Call
  | mmap (n : Word)
  | munmap (addr n : Word)
  | mprotect (addr n prot : Word)
  | sbrk (n : Word)
  | fork
  | exit
  | wait
  | exec (ip : Option (List Byte)) (argv : List (List Byte))
  | kill (pid : Word)
  /-- `copyout` to the process's own page table. -/
  | copyout (va : Word) (buf : List Byte)
  | load (va : Word)
  | store (va : Word) (b : Byte)
  /-- A single attempt at an access in kernel or user mode. -/
  | access (a : Access)

/-- A system call, between the two checks of `killed`. -/
def syscall (i : Fin nproc) (m : SM Out) : SM Out := do
  if ((← get).pt.proc i).killed then do
    exit i
    return .killed
  else do
    let r ← m
    if ((← get).pt.proc i).killed then do
      exit i
      return .killed
    else return r

/-- A call by process `i`. -/
def Call.run (i : Fin nproc) : Call → SM Out
  | .mmap n => syscall i (.ret <$> onProc i fun p => return sysMmap n p)
  | .munmap addr n => syscall i (.ret <$> onProc i (sysMunmap addr n))
  | .mprotect addr n prot => syscall i (.ret <$> onProc i (sysMprotect addr n prot))
  | .sbrk n => syscall i (.ret <$> onProc i (sysSbrk n))
  | .fork => syscall i (.ret <$> Xv6.fork i)
  | .exit => do
    Xv6.exit i
    return .killed
  | .wait => syscall i (Xv6.wait i)
  | .exec ip argv => syscall i (.ret <$> onProc i (execProc ip argv))
  | .kill pid => syscall i (.ret <$> Xv6.kill pid.toInt)
  | .copyout va buf => syscall i (.ret <$> onProc i fun p => do
    return (← Xv6.copyout (some p) p.pgdir va.toNat buf, p))
  | .load va => Xv6.load i va
  | .store va b => Xv6.store i va b
  | .access a => tryAccess i a

/-! ### Booting -/

/-- Memory at power-on: the allocator's variables are zero. -/
def Kmem.zero (mem : Nat → Nat → Word) : Kmem :=
  { mem := mem, refcnt := fun _ => 0, freelist := [], oom := 0 }

/-- The memory part of `main`: the allocator, the kernel page table, and the
first process with its kernel stack and address space. -/
def bootMem (initcode : List Byte) : KM (Nat × Nat × Nat) := do
  kinit1 Layout.kend vlowtop
  match ← setupkvm with
  | none => throw .pageFault
  | some kpgdir => do
    kinit2 vlowtop vphystop
    match ← kalloc with
    | none => throw .pageFault
    | some kstack => do
      match ← setupkvm with
      | none => throw .userinit
      | some pgdir => do
        inituvm pgdir initcode
        return (kpgdir, kstack, pgdir)

/-- The slot `userinit` sets up. -/
def initProc (kstack pgdir : Nat) : Proc :=
  { Proc.zero with
    sz := pgsize
    pgdir := pgdir
    kstack := kstack
    state := .runnable
    pid := 1
    priority := defaultPriority }

/-- The system after `userinit`. -/
def bootSys (k : Kmem) (kpgdir kstack pgdir : Nat) : Sys where
  k := k
  kpgdir := kpgdir
  pt :=
    { proc := fun i => if i.val = 0 then initProc kstack pgdir else Proc.zero
      nextpid := 2
      initproc := ⟨0, nproc_pos⟩ }

/-- The system has just booted. -/
def Booted (s : Sys) : Prop :=
  ∃ mem initcode kpgdir kstack pgdir k,
    (bootMem initcode).run (Kmem.zero mem) = .ok ((kpgdir, kstack, pgdir), k) ∧
    s = bootSys k kpgdir kstack pgdir

/-- A process that can make calls. -/
def Alive (s : Sys) (i : Fin nproc) : Prop :=
  (s.pt.proc i).state = .runnable ∨ (s.pt.proc i).state = .running

end

end Xv6
