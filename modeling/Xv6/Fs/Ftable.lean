import Xv6.Fd
import Xv6.Fs.Names

/-!
# Xv6.Fs.Ftable

Open files: the file table, the descriptors and current directories of the processes, and
which ends of the pipes are open. The system calls that make, share and drop references to
them are `open`, `dup`, `pipe`, `close`, `fork`, `exit`, `chdir` and `exec`; those of
`Xv6.Fs.Names` are among the calls too.

What `kalloc` returns for a pipe, and whether `fork` gets a process and its memory, is
given with the call.
-/

namespace Xv6

open Function (update)

/-- `NFILE`. -/
def nfile : Nat := 100

/-- `type` of a `struct file`, with what it refers to: a pipe by the number of its page. -/
inductive FileType
  | none
  | pipe (page : Nat)
  | inode (ip : Fin ninode)
  deriving DecidableEq

/-- `struct file`. -/
structure File where
  ref : Nat
  type : FileType
  readable : Bool
  writable : Bool
  off : Word

/-- `readopen` and `writeopen` of a pipe. -/
structure PipeEnds where
  readopen : Bool
  writeopen : Bool

/-- One end is closed. -/
def PipeEnds.close (e : PipeEnds) (writable : Bool) : PipeEnds :=
  if writable then { e with writeopen := false } else { e with readopen := false }

/-- How a call may end instead of returning. -/
inductive FilePanic
  | fs (e : FsPanic)
  /-- `panic("filedup")`. -/
  | filedup
  /-- `panic("fileclose")`. -/
  | fileclose
  /-- `panic("fileread")`. -/
  | fileread
  /-- `panic("filewrite")`. -/
  | filewrite
  /-- `panic("short filewrite")`. -/
  | shortWrite
  /-- A pipe is used after its page was freed. -/
  | freed
  /-- The fault of a null pointer. -/
  | fault

/-- The open files of all processes. -/
structure Files (σ P : Type) where
  fs : σ
  ftable : Fin nfile → File
  pipes : Nat → Option PipeEnds
  cwd : P → Option (Fin ninode)
  ofile : P → OFile (Fin nfile)

/-- `O_WRONLY`. -/
def oWronly : Word := 1
/-- `O_RDWR`. -/
def oRdwr : Word := 2
/-- `O_CREATE`. -/
def oCreate : Word := 0x200
/-- `O_RDONLY`. -/
def oRdonly : Word := 0

namespace Files

section
variable {σ P : Type}

/-- Run on the inodes. -/
def onFs {α : Type} (m : Kern σ FsPanic α) : Kern (Files σ P) FilePanic α := fun x =>
  match m.run x.fs with
  | .ok (a, t) => .ok (a, { x with fs := t })
  | .error e => .error (.fs e)

@[simp] theorem ends_onFs {α : Type} (m : Kern σ FsPanic α) (x : Files σ P)
    (Q : α → Files σ P → Prop) (E : FilePanic → Prop) :
    Ends (onFs m) x Q E ↔
      Ends m x.fs (fun a t => Q a { x with fs := t }) (fun e => E (.fs e)) := by
  unfold Ends onFs
  rw [StateT.run]
  cases m.run x.fs <;> rfl

def setFile (f : Fin nfile) (e : File) : Kern (Files σ P) FilePanic Unit :=
  modify fun x => { x with ftable := update x.ftable f e }

def setPipe (page : Nat) (e : Option PipeEnds) : Kern (Files σ P) FilePanic Unit :=
  modify fun x => { x with pipes := update x.pipes page e }

/-! ### Files and pipes -/

/-- `filealloc`. -/
def filealloc : Kern (Files σ P) FilePanic (Option (Fin nfile)) := do
  let x ← get
  match (List.finRange nfile).find? fun f => (x.ftable f).ref = 0 with
  | none => pure none
  | some f => do
    setFile f { x.ftable f with ref := 1 }
    pure (some f)

/-- `filedup`. -/
def filedup (f : Fin nfile) : Kern (Files σ P) FilePanic Unit := do
  let x ← get
  if (x.ftable f).ref < 1 then throw .filedup
  else setFile f { x.ftable f with ref := (x.ftable f).ref + 1 }

/-- `pipeclose`. The page of a pipe with both ends closed is freed. -/
def pipeclose (page : Nat) (writable : Bool) : Kern (Files σ P) FilePanic Unit := do
  let x ← get
  match x.pipes page with
  | none => throw .freed
  | some e =>
    let e := e.close writable
    if e.readopen = false ∧ e.writeopen = false then setPipe page none
    else setPipe page (some e)

variable [Inodes σ]

/-- `fileclose`. -/
def fileclose (f : Fin nfile) : Kern (Files σ P) FilePanic Unit := do
  let x ← get
  if (x.ftable f).ref < 1 then throw .fileclose
  else if 1 < (x.ftable f).ref then
    setFile f { x.ftable f with ref := (x.ftable f).ref - 1 }
  else do
    setFile f { x.ftable f with ref := 0, type := .none }
    match (x.ftable f).type with
    | .none => pure ()
    | .pipe page => pipeclose page (x.ftable f).writable
    | .inode ip => onFs (Inodes.iput ip)

/-- `pipealloc`, with what `kalloc` returns. -/
def pipealloc (kalloc : Option Nat) :
    Kern (Files σ P) FilePanic (Option (Fin nfile × Fin nfile)) := do
  match ← filealloc with
  | none => pure none
  | some f0 => do
    match ← filealloc with
    | none => do
      fileclose f0
      pure none
    | some f1 =>
      match kalloc with
      | none => do
        fileclose f0
        fileclose f1
        pure none
      | some page => do
        setPipe page (some ⟨true, true⟩)
        let x ← get
        setFile f0 { x.ftable f0 with type := .pipe page, readable := true, writable := false }
        let x ← get
        setFile f1 { x.ftable f1 with type := .pipe page, readable := false, writable := true }
        pure (some (f0, f1))

/-! ### Descriptors -/

def setFd (p : P) (fd : Fin nofile) (f : Option (Fin nfile)) [DecidableEq P] :
    Kern (Files σ P) FilePanic Unit :=
  modify fun x => { x with ofile := update x.ofile p (update (x.ofile p) fd f) }

def setCwd (p : P) (ip : Option (Fin ninode)) [DecidableEq P] : Kern (Files σ P) FilePanic Unit :=
  modify fun x => { x with cwd := update x.cwd p ip }

/-- `myproc()->cwd`. -/
def getCwd (p : P) : Kern (Files σ P) FilePanic (Fin ninode) := do
  let x ← get
  match x.cwd p with
  | none => throw .fault
  | some ip => pure ip

variable [DecidableEq P]

/-- `fdalloc`. -/
def fdalloc (p : P) (f : Fin nfile) : Kern (Files σ P) FilePanic (Option (Fin nofile)) := do
  let x ← get
  match Xv6.fdalloc (x.ofile p) f with
  | none => pure none
  | some (fd, _) => do
    setFd p fd (some f)
    pure (some fd)

/-- `sys_dup`. -/
def sysDup (p : P) (fd : Int) : Kern (Files σ P) FilePanic Int := do
  let x ← get
  match argfd (x.ofile p) fd with
  | none => pure (-1)
  | some (_, f) => do
    match ← fdalloc p f with
    | none => pure (-1)
    | some fd => do
      filedup f
      pure fd

/-- `sys_close`. -/
def sysClose (p : P) (fd : Int) : Kern (Files σ P) FilePanic Int := do
  let x ← get
  match argfd (x.ofile p) fd with
  | none => pure (-1)
  | some (fd, f) => do
    setFd p fd none
    fileclose f
    pure 0

/-- `sys_pipe`. -/
def sysPipe (p : P) (kalloc : Option Nat) : Kern (Files σ P) FilePanic Int := do
  match ← pipealloc kalloc with
  | none => pure (-1)
  | some (rf, wf) => do
    match ← fdalloc p rf with
    | none => do
      fileclose rf
      fileclose wf
      pure (-1)
    | some fd0 => do
      match ← fdalloc p wf with
      | none => do
        setFd p fd0 none
        fileclose rf
        fileclose wf
        pure (-1)
      | some _ => pure 0

/-- The first part of `sys_open`: the inode, with a reference to it. -/
def openInode (cwd : Fin ninode) (path : List Byte) (omode : Word) :
    Kern σ FsPanic (Option (Fin ninode)) := do
  if omode &&& oCreate ≠ 0 then Inodes.create cwd path tFile 0 0
  else do
    match ← Inodes.namex cwd path false with
    | none => pure none
    | some (ip, _) => do
      Inodes.ilock ip
      let t ← Inodes.type ip
      if t = tDir ∧ omode ≠ oRdonly then do
        Inodes.iput ip
        pure none
      else pure (some ip)

/-- `sys_open`. -/
def sysOpen (p : P) (path : List Byte) (omode : Word) : Kern (Files σ P) FilePanic Int := do
  let cwd ← getCwd p
  match ← onFs (openInode cwd path omode) with
  | none => pure (-1)
  | some ip => do
    match ← filealloc with
    | none => do
      onFs (Inodes.iput ip)
      pure (-1)
    | some f => do
      match ← fdalloc p f with
      | none => do
        fileclose f
        onFs (Inodes.iput ip)
        pure (-1)
      | some fd => do
        let x ← get
        setFile f ⟨(x.ftable f).ref, .inode ip, omode &&& oWronly = 0,
          omode &&& oWronly ≠ 0 ∨ omode &&& oRdwr ≠ 0, 0⟩
        pure fd

/-! ### Processes -/

/-- The loop of `fork` over the descriptors. -/
def dupAll (p c : P) : List (Fin nofile) → Kern (Files σ P) FilePanic Unit
  | [] => pure ()
  | fd :: fds => do
    let x ← get
    match x.ofile p fd with
    | none => dupAll p c fds
    | some f => do
      filedup f
      setFd c fd (some f)
      dupAll p c fds

/-- `fork`, with the process that it gets. -/
def fork (p : P) (child : Option P) : Kern (Files σ P) FilePanic Int :=
  match child with
  | none => pure (-1)
  | some c => do
    dupAll p c (List.finRange nofile)
    let cwd ← getCwd p
    onFs (Inodes.idup cwd)
    setCwd c (some cwd)
    pure 0

/-- The loop of `exit` over the descriptors. -/
def closeAll (p : P) : List (Fin nofile) → Kern (Files σ P) FilePanic Unit
  | [] => pure ()
  | fd :: fds => do
    let x ← get
    match x.ofile p fd with
    | none => closeAll p fds
    | some f => do
      fileclose f
      setFd p fd none
      closeAll p fds

/-- `exit`. -/
def exit (p : P) : Kern (Files σ P) FilePanic Unit := do
  closeAll p (List.finRange nofile)
  let cwd ← getCwd p
  onFs (Inodes.iput cwd)
  setCwd p none

/-- `sys_chdir`. -/
def sysChdir (p : P) (path : List Byte) : Kern (Files σ P) FilePanic Int := do
  let cwd ← getCwd p
  match ← onFs (Inodes.namex cwd path false) with
  | none => pure (-1)
  | some (ip, _) => do
    onFs (Inodes.ilock ip)
    let t ← onFs (Inodes.type ip)
    if t ≠ tDir then do
      onFs (Inodes.iput ip)
      pure (-1)
    else do
      onFs (Inodes.iput cwd)
      setCwd p (some ip)
      pure 0

/-- `sys_mkdir` and `sys_mknod` make an inode and let it go. -/
def sysMk (p : P) (path : List Byte) (type major minor : BitVec 16) :
    Kern (Files σ P) FilePanic Int := do
  let cwd ← getCwd p
  match ← onFs (Inodes.create cwd path type major minor) with
  | none => pure (-1)
  | some ip => do
    onFs (Inodes.iput ip)
    pure 0

/-- `sys_mkdir`. -/
def sysMkdir (p : P) (path : List Byte) : Kern (Files σ P) FilePanic Int := sysMk p path tDir 0 0

/-- `sys_mknod`. -/
def sysMknod (p : P) (path : List Byte) (major minor : BitVec 16) :
    Kern (Files σ P) FilePanic Int := sysMk p path tDev major minor

/-- `exec`, as far as it goes with the inode; `r` is what it returns for the image. -/
def execInode (cwd : Fin ninode) (path : List Byte) (r : Int) : Kern σ FsPanic Int := do
  match ← Inodes.namex cwd path false with
  | none => pure (-1)
  | some (ip, _) => do
    Inodes.ilock ip
    Inodes.iput ip
    pure r

end

end Files

/-- The system calls that make or drop references. -/
inductive FileCall (P : Type)
  | open (path : List Byte) (omode : Word)
  | close (fd : Int)
  | dup (fd : Int)
  | pipe (kalloc : Option Nat)
  | fork (child : Option P)
  | exit
  | chdir (path : List Byte)
  | mkdir (path : List Byte)
  | mknod (path : List Byte) (major minor : BitVec 16)
  | link (old new : List Byte)
  | unlink (path : List Byte)
  | exec (path : List Byte) (r : Int)

section
variable {σ P : Type} [Inodes σ] [DecidableEq P]

/-- A call of the process `p`. -/
def FileCall.syscall (p : P) : FileCall P → Kern (Files σ P) FilePanic Int
  | .open path omode => Files.sysOpen p path omode
  | .close fd => Files.sysClose p fd
  | .dup fd => Files.sysDup p fd
  | .pipe kalloc => Files.sysPipe p kalloc
  | .fork child => Files.fork p child
  | .exit => do
    Files.exit p
    pure 0
  | .chdir path => Files.sysChdir p path
  | .mkdir path => Files.sysMkdir p path
  | .mknod path major minor => Files.sysMknod p path major minor
  | .link old new => do
    let cwd ← Files.getCwd p
    Files.onFs (Inodes.sysLink cwd old new)
  | .unlink path => do
    let cwd ← Files.getCwd p
    Files.onFs (Inodes.sysUnlink cwd path)
  | .exec path r => do
    let cwd ← Files.getCwd p
    Files.onFs (Files.execInode cwd path r)

/-- The process has not exited; `kalloc` returns a page that is no pipe's, and `fork` gets
a process that is not in use. -/
def FileCall.Issued (x : Files σ P) (p : P) (c : FileCall P) : Prop :=
  x.cwd p ≠ none ∧ match c with
  | .pipe (some page) => x.pipes page = none
  | .fork (some c) => x.cwd c = none
  | _ => True

/-- A call that returns. -/
def FileCall.Step (x : Files σ P) (l : P × FileCall P) (y : Files σ P) : Prop :=
  l.2.Issued x l.1 ∧ ∃ r, (l.2.syscall l.1).run x = .ok (r, y)

end

end Xv6
