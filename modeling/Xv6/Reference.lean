import Xv6.Aspace.Calls

/-!
# Xv6.Reference

The system without copy-on-write that `fork` is measured against.

Here every process owns its pages. `fork` gives the child a copy of every page of
`[0, sz)` the parent has, with the same permissions, and does not touch the
parent's; there is no copy-on-write mark, and no allocation fails. The rest is as
in the kernel: the process table and the regions are its own functions, a page of
a region appears with its first access, and an access that the page or the region
does not allow ends the process.

Since a process owns its pages, memory is a function of the process and the page
number, and the fields `pgdir` and `kstack` of the process table are not used.
-/

namespace Xv6

open Function (update)

/-- A page, private to its process. -/
structure RefPage where
  w : Bool
  u : Bool
  data : Nat → Word

/-- The pages of a process. -/
abbrev Pages := Nat → Option RefPage

/-- A new page of zeros. -/
def RefPage.fresh (writable : Bool) : RefPage := ⟨writable, true, fun _ => 0#32⟩

/-- The state of the reference system. -/
structure RefSys where
  pt : Ptable
  pages : Fin nproc → Pages

/-! ### System calls on the caller's memory -/

/-- `munmap` removes the pages of the region. -/
def refMunmap (addr n : Word) (p : Proc) (m : Pages) : Int × Proc × Pages :=
  match p.findRegion addr n with
  | none => (-1, p, m)
  | some j =>
    (0, p.setVma j Vma.empty, fun v => if (p.vmas j).holds v then none else m v)

/-- `mprotect` makes the pages of the region writable or not. -/
def refMprotect (addr n prot : Word) (p : Proc) (m : Pages) : Int × Proc × Pages :=
  if prot ≠ protRead ∧ prot ≠ protRead ||| protWrite then (-1, p, m)
  else
    match p.findRegion addr n with
    | none => (-1, p, m)
    | some j =>
      (0, p.setVma j { p.vmas j with prot := prot },
        fun v =>
          if (p.vmas j).holds v then (m v).map fun x => { x with w := canWrite prot } else m v)

/-- `sbrk` with a non-negative argument. -/
def refSbrk (n : Word) (p : Proc) (m : Pages) : Int × Proc × Pages :=
  if n.toInt = 0 then (p.sz, p, m)
  else if kernbase ≤ p.sz + n.toNat then (-1, p, m)
  else
    (p.sz, { p with sz := p.sz + n.toNat },
      fun v =>
        if p.sz ≤ v * 4096 ∧ v * 4096 < p.sz + n.toNat then some (.fresh true) else m v)

/-- An access to page `v`: the pages of the process after it, or `none` if the
process must end. -/
def Pages.access (m : Pages) (vmas : Fin maxVmas → Vma) (v : Nat) (write : Bool) : Option Pages :=
  match m v with
  | some x => if x.u && (!write || x.w) then some m else none
  | none =>
    match regionOf vmas v with
    | some r =>
      if !write || canWrite r.prot then some (update m v (some (.fresh (canWrite r.prot))))
      else none
    | none => none

/-- The contents of page `v`. -/
def Pages.data (m : Pages) (v : Nat) : Nat → Word :=
  match m v with
  | some x => x.data
  | none => fun _ => 0#32

/-- Overwrite the contents of page `v`. -/
def Pages.setData (m : Pages) (v : Nat) (data : Nat → Word) : Pages :=
  update m v ((m v).map fun x => { x with data := data })

namespace RefSys

/-- A system call that works on the record and the pages of its caller. -/
def onProc (r : RefSys) (i : Fin nproc) (f : Proc → Pages → Int × Proc × Pages) : Out × RefSys :=
  let x := f (r.pt.proc i) (r.pages i)
  (.ret x.1, { pt := r.pt.set i x.2.1, pages := update r.pages i x.2.2 })

/-! ### Processes -/

/-- `fork` copies the pages below `sz`. -/
def fork (r : RefSys) (cur : Fin nproc) : Out × RefSys :=
  match r.pt.allocproc with
  | none => (.ret (-1), r)
  | some (i, t) =>
    (.ret r.pt.nextpid,
      { pt := (t.allocprocStack i 0).forkCommit cur i 0
        pages := update r.pages i fun v =>
          if v * 4096 < (r.pt.proc cur).sz then r.pages cur v else none })

/-- `exit`, with the memory released at once. -/
def exit (r : RefSys) (cur : Fin nproc) : Except Panic RefSys :=
  if cur = r.pt.initproc then .error .initExiting
  else .ok { pt := r.pt.exit cur, pages := update r.pages cur fun _ => none }

/-- `wait`. -/
def wait (r : RefSys) (cur : Fin nproc) : Out × RefSys :=
  match r.pt.waitScan cur with
  | .fail => (.ret (-1), r)
  | .block => (.blocked, r)
  | .zombie i => (.ret (r.pt.proc i).pid, { r with pt := r.pt.reap i })

/-- The process is killed for an access. -/
def die (r : RefSys) (cur : Fin nproc) : Except Panic (Out × RefSys) :=
  (exit { r with pt := r.pt.set cur (r.pt.proc cur).kill } cur).map fun r => (.killed, r)

/-! ### Loads and stores -/

/-- A load of one byte. -/
def load (r : RefSys) (i : Fin nproc) (va : Word) : Except Panic (Out × RefSys) :=
  match (r.pages i).access (r.pt.proc i).vmas (vpn va.toNat) false with
  | none => r.die i
  | some m =>
    .ok (.byte (getByte (m.data (vpn va.toNat)) (va.toNat % pgsize)),
      { r with pages := update r.pages i m })

/-- A store of one byte. -/
def store (r : RefSys) (i : Fin nproc) (va : Word) (b : Byte) : Except Panic (Out × RefSys) :=
  match (r.pages i).access (r.pt.proc i).vmas (vpn va.toNat) true with
  | none => r.die i
  | some m =>
    let data := setByte (m.data (vpn va.toNat)) (va.toNat % pgsize) b
    .ok (.done, { r with pages := update r.pages i (m.setData (vpn va.toNat) data) })

end RefSys

/-! ### Calls -/

/-- What processes do in both systems. -/
inductive UserCall
  | fork
  | exit
  | wait
  | mmap (n : Word)
  | munmap (addr n : Word)
  | mprotect (addr n prot : Word)
  | sbrk (n : Word) (hn : 0 ≤ n.toInt)
  | load (va : Word)
  | store (va : Word) (b : Byte)

/-- The call in the kernel. -/
def UserCall.toCall : UserCall → Call
  | .fork => .fork
  | .exit => .exit
  | .wait => .wait
  | .mmap n => .mmap n
  | .munmap addr n => .munmap addr n
  | .mprotect addr n prot => .mprotect addr n prot
  | .sbrk n _ => .sbrk n
  | .load va => .load va
  | .store va b => .store va b

/-- The call in the reference system. -/
def UserCall.ref (i : Fin nproc) (r : RefSys) : UserCall → Except Panic (Out × RefSys)
  | .fork => .ok (r.fork i)
  | .exit => (r.exit i).map fun r => (.killed, r)
  | .wait => .ok (r.wait i)
  | .mmap n => .ok (r.onProc i fun p m => ((sysMmap n p).1, (sysMmap n p).2, m))
  | .munmap addr n => .ok (r.onProc i (refMunmap addr n))
  | .mprotect addr n prot => .ok (r.onProc i (refMprotect addr n prot))
  | .sbrk n _ => .ok (r.onProc i (refSbrk n))
  | .load va => r.load i va
  | .store va b => r.store i va b

/-- A step of the reference system: a call of a process that can make one. -/
def RefStep (r : RefSys) (l : Fin nproc × UserCall × Out) (r' : RefSys) : Prop :=
  ((r.pt.proc l.1).state = .runnable ∨ (r.pt.proc l.1).state = .running) ∧
    l.2.1.ref l.1 r = .ok (l.2.2, r')

end Xv6
