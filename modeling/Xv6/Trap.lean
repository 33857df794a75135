import Xv6.Vm

/-!
# Xv6.Trap

Memory accesses as the hardware performs them, and the page-fault case of
`trap`.

The hardware walks the same tables the kernel edits. Both levels must allow the
access; a user-mode access needs `PTE_U`, a write needs `PTE_W`, and the latter
holds in kernel mode too because `entry.S` sets `CR0_WP`. When an access is
refused, the error code says whether a present page refused it.

`trap` itself only looks at the process, the fault address, and three bits: was
the page present, was it a write, did it come from user mode.
-/

namespace Xv6

/-- One memory access. -/
structure Access where
  va : Word
  write : Bool
  user : Bool
  deriving DecidableEq, Repr

/-- An entry of either level lets an access through. -/
def allows (e : Word) (a : Access) : Bool :=
  has e .p && (!a.write || has e .w) && (!a.user || has e .u)

/-- The directory entry the hardware reads. -/
def hwPde (k : Kmem) (d va : Nat) : Word := k.mem d (pdx va)

/-- The table entry the hardware reads. -/
def hwPte (k : Kmem) (d va : Nat) : Word := k.mem (p2v (pteAddr (hwPde k d va))) (ptx va)

/-- The page tables permit an access. -/
def permits (k : Kmem) (d : Nat) (a : Access) : Bool :=
  allows (hwPde k d a.va.toNat) a && allows (hwPte k d a.va.toNat) a

/-- Bit 0 of the error code of a refused access: the page was present. -/
def faultPresent (k : Kmem) (d va : Nat) : Bool :=
  has (hwPde k d va) .p && has (hwPte k d va) .p

/-- The frame an access goes to, when it is permitted. -/
def hwFrame (k : Kmem) (d va : Nat) : Nat := pteFrame (hwPte k d va)

section
variable [Layout]

/-- The process is marked for death (`p->killed = 1`). -/
def Proc.kill (p : Proc) : Proc := { p with killed := true }

/-- The `T_PGFLT` case of `trap`, up to the `break`s. -/
def pageFault (p : Proc) (present : Bool) (a : Access) : KM Proc :=
  let v := vmaFind p a.va.toNat
  if present && a.write then
    if v.any fun v => !canWrite v.prot then return p.kill
    else do
      let cowresult ← cowFault p.pgdir (pgrounddown a.va.toNat)
      if cowresult = 1 then return p
      else if cowresult < 0 then return p.kill
      else if !a.user then throw .pageFault
      else return p.kill
  else if present then
    if !a.user then throw .pageFault else return p.kill
  else
    match v with
    | none => if !a.user then throw .pageFault else return p.kill
    | some v =>
      if a.write && !canWrite v.prot then return p.kill
      else do
        if (← vmAllocMmapPage p.pgdir (pgrounddown a.va.toNat) v.prot) < 0 then return p.kill
        else return p

/-- How `trap` ends when it does not panic. -/
inductive TrapEnd
  /-- It returns to the interrupted instruction. -/
  | resume
  /-- It calls `exit`. -/
  | exit
  deriving DecidableEq, Repr

/-- `trap` on a page fault: a killed process that was in user mode exits. -/
def trap (p : Proc) (present : Bool) (a : Access) : KM (TrapEnd × Proc) := do
  let p ← pageFault p present a
  if p.killed && a.user then return (.exit, p) else return (.resume, p)

/-- One attempt at an access: it is permitted, or it faults and `trap` runs.
`none` means the access went through. -/
def attempt (p : Proc) (a : Access) : KM (Option TrapEnd × Proc) := do
  let k ← get
  if permits k p.pgdir a then return (none, p)
  else do
    let r ← trap p (faultPresent k p.pgdir a.va.toNat) a
    return (some r.1, r.2)

end

end Xv6
