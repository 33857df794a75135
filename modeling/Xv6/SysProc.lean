import Xv6.Vm

/-!
# Xv6.SysProc

The system calls of `sysproc.c` that manage the address space of the calling
process, and `growproc` from `proc.c`.

The arguments are the `int`s that `argint` has fetched. Each call takes the
calling process and returns it with its fields updated, next to the value the
system call returns.
-/

namespace Xv6

open Function (update)

/-- The first unused descriptor of a process. -/
def vmaFree (p : Proc) : Option (Fin maxVmas) :=
  (List.finRange maxVmas).find? fun i => !(p.vmas i).used

/-- Overwrite one descriptor. -/
def Proc.setVma (p : Proc) (i : Fin maxVmas) (v : Vma) : Proc :=
  { p with vmas := update p.vmas i v }

/-- `sys_mmap`: reserve addresses above `sz`; no page is allocated. -/
def sysMmap (n : Word) (p : Proc) : Int × Proc :=
  if n.toInt ≤ 0 then (-1, p)
  else
    let length := pgroundup n.toNat
    if length = 0 ∨ kernbase ≤ length then (-1, p)
    else
      let start := pgroundup p.sz
      if kernbase ≤ start ∨ kernbase - start < length then (-1, p)
      else
        match vmaFree p with
        | none => (-1, p)
        | some i =>
          let v : Vma := ⟨start, length, protRead ||| protWrite, true⟩
          (start, { p.setVma i v with sz := u32 (start + length) })

section
variable [Layout]

/-- `sys_munmap`: release one whole region. -/
def sysMunmap (addr n : Word) (p : Proc) : KM (Int × Proc) :=
  if n.toInt ≤ 0 then return (-1, p)
  else if addr.toNat % pgsize ≠ 0 then return (-1, p)
  else if pgroundup n.toNat = 0 then return (-1, p)
  else
    match vmaFindExact p addr.toNat (pgroundup n.toNat) with
    | none => return (-1, p)
    | some i => do
      if (← vmUnmapRange p.pgdir (p.vmas i).start (p.vmas i).length) < 0 then return (-1, p)
      else return (0, p.setVma i Vma.empty)

/-- `sys_mprotect`: change the protection of one whole region. -/
def sysMprotect (addr n prot : Word) (p : Proc) : KM (Int × Proc) :=
  if n.toInt ≤ 0 then return (-1, p)
  else if prot ≠ protRead ∧ prot ≠ protRead ||| protWrite then return (-1, p)
  else if addr.toNat % pgsize ≠ 0 then return (-1, p)
  else if pgroundup n.toNat = 0 then return (-1, p)
  else
    match vmaFindExact p addr.toNat (pgroundup n.toNat) with
    | none => return (-1, p)
    | some i => do
      if (← vmProtectRange p.pgdir (p.vmas i).start (p.vmas i).length prot) < 0 then return (-1, p)
      else return (0, p.setVma i { p.vmas i with prot := prot })

/-- `growproc`: move `sz` by `n` bytes. -/
def growproc (n : Word) (p : Proc) : KM (Int × Proc) :=
  if 0 < n.toInt then do
    let sz ← allocuvm p.pgdir p.sz (u32 (p.sz + n.toNat))
    if sz = 0 then return (-1, p) else return (0, { p with sz := sz })
  else if n.toInt < 0 then do
    let sz ← deallocuvm p.pgdir p.sz (u32 (p.sz + n.toNat))
    if sz = 0 then return (-1, p) else return (0, { p with sz := sz })
  else return (0, p)

/-- `sys_sbrk`: the old size, or -1. -/
def sysSbrk (n : Word) (p : Proc) : KM (Int × Proc) := do
  let r ← growproc n p
  if r.1 < 0 then return (-1, r.2) else return (p.sz, r.2)

end

end Xv6
