import Xv6.Fs.Disk
import Xv6.Lib.Kern

/-!
# Xv6.Fs.Inode

Inode content: `balloc`, `bfree`, `bmap`, `itrunc`, `iupdate`, `readi` and `writei` of
`fs.c`. They work on the disk and on one inode in memory, which their caller has locked.

The disk is the one that the buffer cache shows, so `bread` is a look at it and a change
that is followed by `log_write` is a change of it.
-/

namespace Xv6

open Function (update)
open Superblock

/-- The panics of `fs.c`. -/
inductive FsPanic
  /-- `panic("balloc: out of blocks")`. -/
  | outOfBlocks
  /-- `panic("freeing free block")`. -/
  | freeingFree
  /-- `panic("bmap: out of range")`. -/
  | bmapRange
  /-- `panic("ialloc: no inodes")`. -/
  | noInodes
  /-- `panic("iget: no inodes")`. -/
  | icacheFull
  /-- `panic("ilock")`. -/
  | ilock
  /-- `panic("ilock: no type")`. -/
  | noType
  /-- `panic("dirlookup not DIR")`. -/
  | notDir
  /-- `panic("dirlookup read")`. -/
  | dirlookupRead
  /-- `panic("dirlink read")`. -/
  | dirlinkRead
  /-- `panic("dirlink")`. -/
  | dirlink
  /-- `panic("isdirempty: readi")`. -/
  | isdiremptyRead
  /-- `panic("unlink: writei")`. -/
  | unlinkWritei
  /-- `panic("unlink: nlink < 1")`. -/
  | unlinkNlink
  /-- `panic("create dots")`. -/
  | createDots
  /-- `panic("create: dirlink")`. -/
  | createDirlink
  deriving DecidableEq

/-- `T_DIR`. -/
def tDir : BitVec 16 := 1
/-- `T_FILE`. -/
def tFile : BitVec 16 := 2
/-- `T_DEV`. -/
def tDev : BitVec 16 := 3

/-- `NDEV`. -/
def ndev : Nat := 10

/-- `devsw`: the read and write functions of the devices, if there are any. -/
class Devsw where
  read : Nat → Option (Word → Option (List Byte))
  write : Nat → Option (List Byte → Int)

/-- The disk and the inode that is locked. -/
structure Vol where
  disk : Disk
  inum : Nat
  ip : Dinode

/-- `addrs[NDIRECT]`. -/
def indirectSlot : Fin (ndirect + 1) := Fin.last ndirect

section
variable [Superblock]

/-- `balloc`. Its two loops go through the block numbers `b + bi` in order. -/
def balloc : Kern Vol FsPanic Word := do
  let v ← get
  match (List.range size).find? fun b => !bit v.disk b with
  | some b =>
    -- the new block is marked and cleared
    set { v with disk := update (setBit v.disk b) b fun _ => 0#32 }
    pure (BitVec.ofNat 32 b)
  | none => throw .outOfBlocks

/-- `bfree`. -/
def bfree (b : Word) : Kern Vol FsPanic Unit := do
  let v ← get
  if bit v.disk b.toNat then set { v with disk := resetBit v.disk b.toNat }
  else throw .freeingFree

/-- `ip->addrs[k] = a`. -/
def setAddr (k : Fin (ndirect + 1)) (a : Word) : Kern Vol FsPanic Unit :=
  modify fun v => { v with ip := { v.ip with addrs := update v.ip.addrs k a } }

/-- `if((addr = ip->addrs[k]) == 0) ip->addrs[k] = addr = balloc(ip->dev)`. -/
def loadAddr (k : Fin (ndirect + 1)) : Kern Vol FsPanic Word := do
  let v ← get
  if v.ip.addrs k = 0#32 then do
    let a ← balloc
    setAddr k a
    pure a
  else pure (v.ip.addrs k)

/-- The same for entry `j` of the indirect block `addr`. -/
def loadIndirect (addr : Nat) (j : Nat) : Kern Vol FsPanic Word := do
  let v ← get
  if v.disk addr j = 0#32 then do
    let a ← balloc
    modify fun v => { v with disk := update v.disk addr (update (v.disk addr) j a) }
    pure a
  else pure (v.disk addr j)

/-- `bmap`. -/
def bmap (bn : Nat) : Kern Vol FsPanic Word :=
  if h : bn < ndirect then loadAddr ⟨bn, by omega⟩
  else if bn - ndirect < nindirect then do
    let addr ← loadAddr indirectSlot
    loadIndirect addr.toNat (bn - ndirect)
  else throw .bmapRange

/-- `iupdate`. -/
def iupdate : Kern Vol FsPanic Unit :=
  modify fun v => { v with disk := putDinode v.disk v.inum v.ip }

/-- The loop of `itrunc` over the direct addresses. -/
def freeDirect : List (Fin (ndirect + 1)) → Kern Vol FsPanic Unit
  | [] => pure ()
  | k :: ks => do
    let v ← get
    if v.ip.addrs k ≠ 0#32 then do
      bfree (v.ip.addrs k)
      setAddr k 0#32
      freeDirect ks
    else freeDirect ks

/-- The loop of `itrunc` over the entries of the indirect block. -/
def freeIndirect (a : Block) : List Nat → Kern Vol FsPanic Unit
  | [] => pure ()
  | j :: js => do
    if a j ≠ 0#32 then do
      bfree (a j)
      freeIndirect a js
    else freeIndirect a js

/-- The part of `itrunc` about the indirect block. -/
def truncIndirect : Kern Vol FsPanic Unit := do
  let v ← get
  if v.ip.addrs indirectSlot ≠ 0#32 then do
    freeIndirect (v.disk (v.ip.addrs indirectSlot).toNat) (List.range nindirect)
    bfree (v.ip.addrs indirectSlot)
    setAddr indirectSlot 0#32
  else pure ()

/-- `itrunc`. -/
def itrunc : Kern Vol FsPanic Unit := do
  freeDirect ((List.finRange ndirect).map Fin.castSucc)
  truncIndirect
  modify fun v => { v with ip := { v.ip with size := 0#32 } }
  iupdate

/-- The loop of `readi`: `n` bytes from `off` on. -/
def readLoop (off n : Nat) : Kern Vol FsPanic (List Byte) :=
  if n = 0 then pure []
  else do
    let addr ← bmap (off / bsize)
    let v ← get
    let m := min n (bsize - off % bsize)
    let bytes := (List.range m).map fun j => getByte (v.disk addr.toNat) (off % bsize + j)
    let rest ← readLoop (off + m) (n - m)
    pure (bytes ++ rest)
termination_by n
decreasing_by
  have : off % bsize < bsize := Nat.mod_lt _ (by decide)
  omega

/-- The loop of `writei`: the bytes `src` to `off` on. -/
def writeLoop (off : Nat) (src : List Byte) : Kern Vol FsPanic Unit :=
  if src = [] then pure ()
  else do
    let addr ← bmap (off / bsize)
    let m := min src.length (bsize - off % bsize)
    modify fun v => { v with
      disk := update v.disk addr.toNat
        (putBytes (v.disk addr.toNat) (off % bsize) (src.take m)) }
    writeLoop (off + m) (src.drop m)
termination_by src.length
decreasing_by
  have : off % bsize < bsize := Nat.mod_lt _ (by decide)
  have := List.length_pos_iff.mpr ‹src ≠ []›
  rw [List.length_drop]
  omega

/-- The end of `writei`: a file that has grown gets its new size, and its inode is
written. -/
def extend (n off : Word) : Kern Vol FsPanic Unit := do
  let v ← get
  if 0#32 < n ∧ v.ip.size < off then do
    modify fun v => { v with ip := { v.ip with size := off } }
    iupdate
  else pure ()

variable [Devsw]

/-- `readi`: the bytes put at `dst`, whose number it returns, or -1. -/
def Vol.readi (off n : Word) : Kern Vol FsPanic (Option (List Byte)) := do
  let v ← get
  if v.ip.type = tDev then
    if v.ip.major.toInt < 0 ∨ (ndev : Int) ≤ v.ip.major.toInt then pure none
    else match Devsw.read v.ip.major.toNat with
      | none => pure none
      | some read => pure (read n)
  else if v.ip.size < off ∨ off + n < off then pure none
  else do
    let n := if v.ip.size < off + n then v.ip.size - off else n
    let bytes ← readLoop off.toNat n.toNat
    pure (some bytes)

/-- `writei` of the bytes `src`. -/
def Vol.writei (src : List Byte) (off : Word) : Kern Vol FsPanic Int := do
  let v ← get
  let n := BitVec.ofNat 32 src.length
  if v.ip.type = tDev then
    if v.ip.major.toInt < 0 ∨ (ndev : Int) ≤ v.ip.major.toInt then pure (-1)
    else match Devsw.write v.ip.major.toNat with
      | none => pure (-1)
      | some write => pure (write src)
  else if v.ip.size < off ∨ off + n < off then pure (-1)
  else if BitVec.ofNat 32 (maxfile * bsize) < off + n then pure (-1)
  else do
    writeLoop off.toNat src
    extend n (off + n)
    pure n.toInt

end

end Xv6
