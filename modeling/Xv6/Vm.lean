import Xv6.Bytes
import Xv6.Kalloc
import Xv6.Proc

/-!
# Xv6.Vm

The virtual-memory functions of `vm.c`, as computations on physical memory.

A page directory is the frame that holds it, and `pte_t *` is a pair of a frame
and an index in it. The two-level structure is the source's: `walkpgdir` reads
the directory entry out of memory and allocates page-table pages with `kalloc`.

There is no TLB in the model: the hardware walk of the tables in `Xv6.Trap` sees the
latest entries. The source reloads `CR3` (or calls `switchuvm`) after the changes of
mappings that a user could have cached, but for one: `growproc(-sz)` takes the size 0
that `deallocuvm` returns for a failure, and returns without `switchuvm`. What the
process could still do through translations of the pages it has lost is not modelled.
-/

namespace Xv6

/-! ### Walking and extending page tables -/

/-- `walkpgdir`: the entry for `va`, creating its page table if `alloc`. -/
def walkpgdir (pgdir va : Nat) (alloc : Bool) : KM (Option (Nat × Nat)) := do
  let pde ← readWord (pgdir, pdx va)
  if has pde .p then
    return some (p2v (pteAddr pde), ptx va)
  else if !alloc then
    return none
  else
    match ← kalloc with
    | none => return none
    | some pgtab => do
      memset pgtab 0#32
      writeWord (pgdir, pdx va) (mkPte (v2p pgtab)
        (PteFlag.p.mask ||| PteFlag.w.mask ||| PteFlag.u.mask))
      return some (pgtab, ptx va)

/-- The `for(;;)` of `mappages`; `last` is the last page of the range. -/
def mappagesLoop (pgdir last : Nat) (perm : Word) : Nat → Nat → Nat → KM Int
  | 0, _, _ => return 0
  | fuel + 1, a, pa => do
    match ← walkpgdir pgdir a true with
    | none => return -1
    | some pte => do
      if has (← readWord pte) .p then throw .remap
      else do
        writeWord pte (mkPte pa (perm ||| PteFlag.p.mask))
        if a = last then return 0
        else mappagesLoop pgdir last perm fuel (u32 (a + pgsize)) (u32 (pa + pgsize))

/-- `mappages`: map the pages of `[va, va + size)` to physical memory from `pa`. -/
def mappages (pgdir va size pa : Nat) (perm : Word) : KM Int :=
  mappagesLoop pgdir (pgrounddown (u32 (va + size - 1))) perm npages (pgrounddown va) pa

section
variable [Layout]

/-! ### Releasing pages -/

/-- `deallocuvm` and `vm_unmap_range` on one present entry: release the frame
and clear the entry. `oops` is the panic for a mapping of physical page 0. -/
def unmapPte (oops : Panic) (pte : Nat × Nat) : KM Unit := do
  let e ← readWord pte
  if has e .p then
    if pteAddr e = 0 then throw oops
    else do
      kfree (p2v (pteAddr e))
      writeWord pte 0#32
  else pure ()

/-- The loop of `deallocuvm`. Where a page table is absent, the counter jumps to
the last page before the next table and the step moves it on. -/
def deallocuvmLoop (pgdir oldsz : Nat) : Nat → Nat → KM Unit
  | 0, _ => pure ()
  | fuel + 1, a =>
    if a < oldsz then do
      match ← walkpgdir pgdir a false with
      | none =>
        deallocuvmLoop pgdir oldsz fuel
          (u32 (u32 (pgaddr (pdx a + 1) 0 0 + 2 ^ 32 - pgsize) + pgsize))
      | some pte => do
        unmapPte .kfree pte
        deallocuvmLoop pgdir oldsz fuel (u32 (a + pgsize))
    else pure ()

/-- `deallocuvm`: shrink from `oldsz` to `newsz`. -/
def deallocuvm (pgdir oldsz newsz : Nat) : KM Nat :=
  if oldsz ≤ newsz then return oldsz
  else do
    deallocuvmLoop pgdir oldsz npages (pgroundup newsz)
    return newsz

/-- One round of `freevm`: release the page table in entry `i`. -/
def freevmTable (pgdir i : Nat) : KM (Option Unit) := do
  let pde ← readWord (pgdir, i)
  if has pde .p then do
    kfree (p2v (pteAddr pde))
    return none
  else return none

/-- `freevm`: release the user pages, the page tables and the directory. -/
def freevm (pgdir : Nat) : KM Unit := do
  let _ ← deallocuvm pgdir kernbase 0
  let _ ← forUint npdentries 1 (freevmTable pgdir) npdentries 0
  kfree pgdir

/-- One round of `vm_unmap_range`. -/
def vmUnmapPage (pgdir a : Nat) : KM (Option Unit) := do
  match ← walkpgdir pgdir a false with
  | none => return none
  | some pte => do
    unmapPte .vmUnmapRange pte
    return none

/-- `vm_unmap_range`: release the resident pages of a mapped region. -/
def vmUnmapRange (pgdir start length : Nat) : KM Int := do
  let _ ← forUint (u32 (start + length)) pgsize (vmUnmapPage pgdir) npages start
  return 0

/-! ### Adding pages -/

/-- `vm_alloc_mmap_page`: a zeroed page for a lazily mapped address. -/
def vmAllocMmapPage (pgdir va : Nat) (prot : Word) : KM Int := do
  match ← kalloc with
  | none => return -1
  | some mem => do
    memset mem 0#32
    let perm := if canWrite prot then PteFlag.u.mask ||| PteFlag.w.mask else PteFlag.u.mask
    if (← mappages pgdir (pgrounddown va) pgsize (v2p mem) perm) < 0 then do
      kfree mem
      return -1
    else return 0

/-- One round of `allocuvm`: a zeroed page at `a`, or undo the growth so far and
leave the loop with 0. -/
def allocuvmPage (pgdir oldsz newsz a : Nat) : KM (Option Nat) := do
  match ← kalloc with
  | none => do
    let _ ← deallocuvm pgdir newsz oldsz
    return some 0
  | some mem => do
    memset mem 0#32
    if (← mappages pgdir a pgsize (v2p mem) (PteFlag.w.mask ||| PteFlag.u.mask)) < 0 then do
      let _ ← deallocuvm pgdir newsz oldsz
      kfree mem
      return some 0
    else return none

/-- `allocuvm`: grow from `oldsz` to `newsz`; the new size, or 0 on error. -/
def allocuvm (pgdir oldsz newsz : Nat) : KM Nat :=
  if kernbase ≤ newsz then return 0
  else if newsz < oldsz then return oldsz
  else do
    let r ← forUint newsz pgsize (allocuvmPage pgdir oldsz newsz) npages (pgroundup oldsz)
    return r.getD newsz

/-- A row of `kmap`. -/
structure Kmap where
  virt : Nat
  physStart : Nat
  physEnd : Nat
  perm : Word

/-- `kmap`: the kernel's mappings, present in every page table. -/
def kmap : List Kmap :=
  [{ virt := kernbase, physStart := 0, physEnd := extmem, perm := PteFlag.w.mask },
   { virt := kernlink, physStart := kernlink - kernbase, physEnd := Layout.data - kernbase,
     perm := 0#32 },
   { virt := Layout.data, physStart := Layout.data - kernbase, physEnd := phystop,
     perm := PteFlag.w.mask },
   { virt := devspace, physStart := devspace, physEnd := 0, perm := PteFlag.w.mask }]

/-- The loop of `setupkvm` over the rows of `kmap`. -/
def setupkvmLoop (pgdir : Nat) : List Kmap → KM (Option Nat)
  | [] => return some pgdir
  | k :: rest => do
    if (← mappages pgdir k.virt (u32 (k.physEnd + 2 ^ 32 - k.physStart)) k.physStart
        k.perm) < 0 then do
      freevm pgdir
      return none
    else setupkvmLoop pgdir rest

/-- `setupkvm`: a page directory with the kernel part mapped. The test
`P2V(PHYSTOP) > DEVSPACE` compares two constants and is false. -/
def setupkvm : KM (Option Nat) := do
  match ← kalloc with
  | none => return none
  | some pgdir => do
    memset pgdir 0#32
    setupkvmLoop pgdir kmap

/-- `inituvm`: load the first program at address 0. The result of `kalloc` is
not checked in the source; a null page would fault in `memset`. -/
def inituvm (pgdir : Nat) (init : List Byte) : KM Unit :=
  if pgsize ≤ init.length then throw .inituvm
  else do
    match ← kalloc with
    | none => throw .pageFault
    | some mem => do
      memset mem 0#32
      let _ ← mappages pgdir 0 pgsize (v2p mem) (PteFlag.w.mask ||| PteFlag.u.mask)
      modify fun k => k.fill mem (putBytes (k.mem mem) 0 init)

/-! ### Permissions and copy-on-write -/

/-- `clearpteu`: make a page inaccessible to the user. -/
def clearpteu (pgdir uva : Nat) : KM Unit := do
  match ← walkpgdir pgdir uva false with
  | none => throw .clearpteu
  | some pte => do
    let e ← readWord pte
    writeWord pte (e &&& ~~~PteFlag.u.mask)

/-- One round of `vm_protect_range`. -/
def vmProtectPage (pgdir : Nat) (prot : Word) (a : Nat) : KM (Option Unit) := do
  match ← walkpgdir pgdir a false with
  | none => return none
  | some pte => do
    let e ← readWord pte
    if !has e .p then return none
    else if canWrite prot then do
      if has e .cow then
        writeWord pte (e &&& ~~~PteFlag.w.mask ||| PteFlag.cow.mask)
      else if 1 < (← krefGet (pteAddr e)) then
        writeWord pte (e &&& ~~~PteFlag.w.mask ||| PteFlag.cow.mask)
      else
        writeWord pte (e ||| PteFlag.w.mask)
      return none
    else do
      writeWord pte (e &&& ~~~PteFlag.w.mask)
      return none

/-- `vm_protect_range`: change permissions on the resident pages of a region. -/
def vmProtectRange (pgdir start length : Nat) (prot : Word) : KM Int := do
  let _ ← forUint (u32 (start + length)) pgsize (vmProtectPage pgdir prot) npages start
  return 0

/-- `cow_fault`: 1 if a copy-on-write fault was resolved, 0 if the page is not
copy-on-write, -1 if there was no memory for the copy. -/
def cowFault (pgdir va : Nat) : KM Int := do
  match ← walkpgdir pgdir (pgrounddown va) false with
  | none => return 0
  | some pte => do
    let e ← readWord pte
    if !has e .p then return 0
    else if !has e .cow then return 0
    else do
      let pa := pteAddr e
      let flags := (pteFlags e ||| PteFlag.w.mask) &&& ~~~PteFlag.cow.mask
      let refs ← krefGet pa
      if refs < 1 then throw .cowRefcount
      else if refs = 1 then do
        writeWord pte (mkPte pa flags)
        return 1
      else do
        match ← kalloc with
        | none => return -1
        | some mem => do
          memmovePage mem (p2v pa)
          writeWord pte (mkPte (v2p mem) flags)
          kfree (p2v pa)
          return 1

/-- The parent's side of `copyuvm` for a resident page with entry `e`: a writable
page is marked copy-on-write. Returns the flags for the child's entry. -/
def copyuvmMark (pte : Nat × Nat) (e : Word) : KM Word :=
  if has (pteFlags e) .w || has (pteFlags e) .cow then do
    let flags := pteFlags e &&& ~~~PteFlag.w.mask ||| PteFlag.cow.mask
    writeWord pte (mkPte (pteAddr e) flags)
    return flags
  else return pteFlags e

/-- One round of `copyuvm`; `some ()` is the jump to `bad`. -/
def copyuvmPage (pgdir d i : Nat) : KM (Option Unit) := do
  match ← walkpgdir pgdir i false with
  | none => return none
  | some pte => do
    let e ← readWord pte
    if !has e .p then return none
    else do
      let flags ← copyuvmMark pte e
      if (← mappages d i pgsize (pteAddr e) flags) < 0 then return some ()
      else do
        krefInc (pteAddr e)
        return none

/-- `copyuvm`: a child address space that shares the resident pages. -/
def copyuvm (pgdir sz : Nat) : KM (Option Nat) := do
  match ← setupkvm with
  | none => return none
  | some d => do
    match ← forUint sz pgsize (copyuvmPage pgdir d) npages 0 with
    | some () => do
      freevm d
      return none
    | none => return some d

/-! ### Copying into user memory -/

/-- `uva2ka`: the frame behind a present user page. -/
def uva2ka (pgdir uva : Nat) : KM (Option Nat) := do
  match ← walkpgdir pgdir uva false with
  | none => throw .pageFault
  | some pte => do
    let e ← readWord pte
    if !has e .p then return none
    else if !has e .u then return none
    else return some (p2v (pteAddr e))

/-- `pte == 0 || !(*pte & PTE_P)`, with the entry when it is present. -/
def presentPte (pgdir va : Nat) : KM (Option (Nat × Nat)) := do
  match ← walkpgdir pgdir va false with
  | none => return none
  | some pte => do
    if has (← readWord pte) .p then return some pte else return none

/-- The region `copyout` consults: only for the current process's own page
table, not for one that `exec` is building. -/
def copyoutVma (cur : Option Proc) (pgdir va0 : Nat) : Option Vma :=
  match cur with
  | some p => if p.pgdir = pgdir then vmaFind p va0 else none
  | none => none

/-- The first part of `copyout`'s round: the entry for the destination page,
faulting in a lazily mapped one. `none` means `return -1`. -/
def copyoutFault (v : Option Vma) (pgdir va0 : Nat) : KM (Option (Nat × Nat)) := do
  match ← presentPte pgdir va0 with
  | some pte => return some pte
  | none =>
    match v with
    | none => return none
    | some v =>
      if !canWrite v.prot then return none
      else if (← vmAllocMmapPage pgdir va0 v.prot) < 0 then return none
      else presentPte pgdir va0

/-- The entry to write through, once copy-on-write has been resolved; `none` means
`return -1`. -/
def copyoutCow (pgdir va0 : Nat) (pte : Nat × Nat) : KM (Option (Nat × Nat)) := do
  if has (← readWord pte) .cow then do
    if (← cowFault pgdir va0) ≤ 0 then return none
    else walkpgdir pgdir va0 false
  else return some pte

/-- The second part of `copyout`'s round: refuse read-only regions, resolve
copy-on-write, and insist on a writable user page. `none` means `return -1`. -/
def copyoutPage (v : Option Vma) (pgdir va0 : Nat) (pte : Nat × Nat) : KM (Option Nat) := do
  if v.any fun v => !canWrite v.prot then return none
  else
    match ← copyoutCow pgdir va0 pte with
    | none => return none
    | some pte => do
      let e ← readWord pte
      if !has e .p || !has e .u || !has e .w then return none
      else uva2ka pgdir va0

/-- The loop of `copyout`: one destination page a round. -/
def copyoutLoop (cur : Option Proc) (pgdir : Nat) : Nat → Nat → List Byte → KM Int
  | 0, _, _ => return 0
  | fuel + 1, va, buf =>
    if buf = [] then return 0
    else do
      let va0 := pgrounddown va
      let v := copyoutVma cur pgdir va0
      match ← copyoutFault v pgdir va0 with
      | none => return -1
      | some pte => do
        match ← copyoutPage v pgdir va0 pte with
        | none => return -1
        | some pa0 => do
          let n := min (pgsize - (va - va0)) buf.length
          modify fun k => k.fill pa0 (putBytes (k.mem pa0) (va - va0) (buf.take n))
          copyoutLoop cur pgdir fuel (u32 (va0 + pgsize)) (buf.drop n)

/-- `copyout`: copy bytes to a user address of `pgdir`. -/
def copyout (cur : Option Proc) (pgdir va : Nat) (buf : List Byte) : KM Int :=
  copyoutLoop cur pgdir buf.length va buf

end

end Xv6
