import Xv6.SysProc

/-!
# Xv6.Exec

`exec` and `loaduvm`: building a new address space from an ELF file.

A file is the list of its bytes, and `readi` reads from it. `exec` gets the file
`namei` has found, if any, and the path and the argument strings without their
terminating zeros; closing the inode is left out.
-/

namespace Xv6

/-- `readi` on a regular file: the bytes read, fewer at the end of the file, or
`none` for -1. -/
def readi (file : List Byte) (off n : Nat) : Option (List Byte) :=
  if file.length < off ∨ u32 (off + n) < off then none
  else some ((file.drop off).take n)

/-- The `n`-byte little-endian number at offset `o`. -/
def getLe (bs : List Byte) (o n : Nat) : Nat :=
  ((bs.drop o).take n).foldr (fun b acc => b.toNat + 256 * acc) 0

/-- A 32-bit number as bytes in memory. -/
def putLe (n : Nat) : List Byte :=
  [0, 1, 2, 3].map fun j => wordByte (BitVec.ofNat 32 n) j

/-- `ELF_MAGIC`. -/
def elfMagic : Nat := 0x464C457F

/-- `ELF_PROG_LOAD`. -/
def elfProgLoad : Nat := 1

/-- `MAXARG`. -/
def maxArg : Nat := 32

/-- The fields of `struct proghdr` that `exec` reads. -/
structure Proghdr where
  type : Nat
  off : Nat
  vaddr : Nat
  filesz : Nat
  memsz : Nat

/-- `struct proghdr` from its 32 bytes. -/
def Proghdr.ofBytes (bs : List Byte) : Proghdr where
  type := getLe bs 0 4
  off := getLe bs 4 4
  vaddr := getLe bs 8 4
  filesz := getLe bs 16 4
  memsz := getLe bs 20 4

/-- One round of `loaduvm`. A short read still copies what there is. -/
def loaduvmPage (pgdir addr : Nat) (file : List Byte) (offset sz i : Nat) : KM (Option Int) := do
  match ← walkpgdir pgdir (u32 (addr + i)) false with
  | none => throw .loaduvmExist
  | some pte => do
    let pa := pteAddr (← readWord pte)
    let n := if sz - i < pgsize then sz - i else pgsize
    match readi file (u32 (offset + i)) n with
    | none => return some (-1)
    | some bs => do
      modify fun k => k.fill (p2v pa) (putBytes (k.mem (p2v pa)) 0 bs)
      if bs.length ≠ n then return some (-1) else return none

/-- `loaduvm`: read a program segment into mapped pages. -/
def loaduvm (pgdir addr : Nat) (file : List Byte) (offset sz : Nat) : KM Int :=
  if addr % pgsize ≠ 0 then throw .loaduvmAlign
  else do
    let r ← forUint sz pgsize (loaduvmPage pgdir addr file offset sz) npages 0
    return r.getD 0

section
variable [Layout]

/-- One segment of the program: the new size, or `none` for `goto bad`. -/
def execSegment (pgdir : Nat) (file : List Byte) (ph : Proghdr) (sz : Nat) : KM (Option Nat) :=
  if ph.type ≠ elfProgLoad then return some sz
  else if ph.memsz < ph.filesz then return none
  else if u32 (ph.vaddr + ph.memsz) < ph.vaddr then return none
  else do
    let sz ← allocuvm pgdir sz (u32 (ph.vaddr + ph.memsz))
    if sz = 0 then return none
    else if ph.vaddr % pgsize ≠ 0 then return none
    else do
      if (← loaduvm pgdir ph.vaddr file ph.off ph.filesz) < 0 then return none
      else return some sz

/-- The loop over the program headers; `n` is how many are left. -/
def execLoad (pgdir : Nat) (file : List Byte) : Nat → Nat → Nat → KM (Option Nat)
  | 0, _, sz => return some sz
  | n + 1, off, sz =>
    match readi file off 32 with
    | none => return none
    | some bs =>
      if bs.length ≠ 32 then return none
      else do
        match ← execSegment pgdir file (Proghdr.ofBytes bs) sz with
        | none => return none
        | some sz => execLoad pgdir file n (u32 (off + 32)) sz

/-- The loop over the arguments: push each string, and collect their addresses. -/
def execArgs (cur : Proc) (pgdir : Nat) : List (List Byte) → Nat → Nat → List Nat →
    KM (Option (Nat × List Nat))
  | [], _, sp, ptrs => return some (sp, ptrs)
  | arg :: rest, argc, sp, ptrs =>
    if maxArg ≤ argc then return none
    else do
      let sp := u32 (sp + 2 ^ 32 - (arg.length + 1)) / 4 * 4
      if (← copyout (some cur) pgdir sp (arg ++ [0#8])) < 0 then return none
      else execArgs cur pgdir rest (argc + 1) sp (ptrs ++ [sp])

/-- The user stack: two pages, the first of them inaccessible, with the arguments
in the second. The new size and the stack pointer, or `none` for `goto bad`. -/
def execStack (cur : Proc) (pgdir sz : Nat) (argv : List (List Byte)) :
    KM (Option (Nat × Nat)) := do
  let sz ← allocuvm pgdir (pgroundup sz) (u32 (pgroundup sz + 2 * pgsize))
  if sz = 0 then return none
  else do
    clearpteu pgdir (sz - 2 * pgsize)
    match ← execArgs cur pgdir argv 0 sz [] with
    | none => return none
    | some (sp, ptrs) => do
      let argc := argv.length
      let ustack := [0xffffffff, argc, u32 (sp + 2 ^ 32 - (argc + 1) * 4)] ++ ptrs ++ [0]
      let sp := u32 (sp + 2 ^ 32 - (3 + argc + 1) * 4)
      if (← copyout (some cur) pgdir sp (ustack.flatMap putLe)) < 0 then return none
      else return some (sz, sp)

/-- The new image in `pgdir`: its size and the stack pointer, or `none` for `goto bad`. -/
def execImage (cur : Proc) (pgdir : Nat) (file : List Byte) (elf : List Byte)
    (argv : List (List Byte)) : KM (Option (Nat × Nat)) := do
  match ← execLoad pgdir file (getLe elf 44 2) (getLe elf 28 4) 0 with
  | none => return none
  | some sz => execStack cur pgdir sz argv

/-- The last element of a path, by the loop in `exec`: `s` is what is left of the path, and
`last` starts after the last slash so far. -/
def lastElem : (last s : List Byte) → List Byte
  | last, [] => last
  | last, c :: s => lastElem (if c = 47#8 then s else last) s

/-- What `exec` writes to besides memory: the fields of the process that are in the table,
its name, and `eip` and `esp` of its trap frame. -/
structure ExecProc where
  proc : Proc
  name : List Byte
  eip : Nat
  esp : Nat

/-- `exec`: replace the address space of the process. `safestrcpy` cuts the name to 15
bytes. -/
def exec (ip : Option (List Byte)) (path : List Byte) (argv : List (List Byte)) (c : ExecProc) :
    KM (Int × ExecProc) :=
  match ip with
  | none => return (-1, c)
  | some file =>
    match readi file 0 52 with
    | none => return (-1, c)
    | some elf =>
      if elf.length ≠ 52 ∨ getLe elf 0 4 ≠ elfMagic then return (-1, c)
      else do
        match ← setupkvm with
        | none => return (-1, c)
        | some pgdir => do
          match ← execImage c.proc pgdir file elf argv with
          | none => do
            freevm pgdir
            return (-1, c)
          | some (sz, sp) => do
            freevm c.proc.pgdir
            return (0,
              { proc := { c.proc with pgdir := pgdir, sz := sz, vmas := fun _ => Vma.empty }
                name := (lastElem path path).take 15
                eip := getLe elf 24 4
                esp := sp })

/-- `exec` as far as the process table goes, which has no names and no trap frames. -/
def execProc (ip : Option (List Byte)) (argv : List (List Byte)) (p : Proc) : KM (Int × Proc) := do
  let (r, c) ← exec ip [] argv { proc := p, name := [], eip := 0, esp := 0 }
  return (r, c.proc)

end

end Xv6
