import Mathlib.Data.List.DropRight
import Xv6.Fs.Icache
import Xv6.Fs.Dir
import Xv6.Lib.Runs

/-!
# Xv6.Fs.Names

Path names and the system calls on them: `namex`, `create`, `sys_link` and `sys_unlink`.

They are written against what the rest of `fs.c` does with inodes in the cache: taking and
dropping references, locking, allocating, and looking up and changing the entries of
directories (`Inodes`); `onDisk` is that layer on the disk with its cache.
-/

namespace Xv6

open Function (update)
open Superblock

/-- `ROOTINO`. -/
def rootIno : Nat := 1

def dot : List Byte := [46]
def dotdot : List Byte := [46, 46]

/-! ### Paths -/

/-- `skipelem`: the rest of the path, and the element before it. -/
def skipelem (path : List Byte) : Option (List Byte × List Byte) :=
  match path.dropWhile (· = 47#8) with
  | [] => none
  | c :: p => some (((c :: p).dropWhile (· ≠ 47#8)).dropWhile (· = 47#8),
      ((c :: p).takeWhile (· ≠ 47#8)).take dirsiz)

/-- The elements that a loop with `skipelem` takes from a path, in at most `n` rounds. -/
def elemsIn : Nat → List Byte → List (List Byte)
  | 0, _ => []
  | n + 1, path =>
    match skipelem path with
    | none => []
    | some (path, name) => name :: elemsIn n path

def elems (path : List Byte) : List (List Byte) := elemsIn path.length path

theorem length_skipelem {path rest name : List Byte} (h : skipelem path = some (rest, name)) :
    rest.length < path.length := by
  unfold skipelem at h
  split at h
  · cases h
  · next c p hp =>
      obtain ⟨rfl, -⟩ := Prod.mk.inj (Option.some.inj h)
      have hlen : ∀ (q : Byte → Bool) (l : List Byte), (l.dropWhile q).length ≤ l.length :=
        fun q l => (List.dropWhile_suffix q).length_le
      have hle : (c :: p).length ≤ path.length := hp ▸ hlen _ path
      -- the first byte is no slash, so it is in the element
      have hc : c ≠ 47#8 := by
        have := List.head_dropWhile_not (l := path) (· = 47#8) (by rw [hp]; simp)
        simpa [hp] using this
      have hdrop : (c :: p).dropWhile (· ≠ 47#8) = p.dropWhile (· ≠ 47#8) := by
        simp [hc]
      rw [hdrop]
      exact Nat.lt_of_le_of_lt ((hlen _ _).trans (hlen _ _)) hle

/-- As many rounds as bytes are enough. -/
theorem elemsIn_eq {n m : Nat} : ∀ {path : List Byte}, path.length ≤ n → path.length ≤ m →
    elemsIn n path = elemsIn m path := by
  induction n generalizing m with
  | zero =>
    intro path hn _
    cases List.length_eq_zero_iff.mp (Nat.le_zero.mp hn)
    cases m <;> rfl
  | succ n ih =>
    intro path hn hm
    cases m with
    | zero =>
      cases List.length_eq_zero_iff.mp (Nat.le_zero.mp hm)
      rfl
    | succ m =>
      unfold elemsIn
      cases hs : skipelem path with
      | none => rfl
      | some r =>
        have hlt := length_skipelem (show skipelem path = some (r.1, r.2) from hs)
        exact congrArg _ (ih (by omega) (by omega))

theorem elems_eq (path : List Byte) : elems path =
    match skipelem path with
    | none => []
    | some (rest, name) => name :: elems rest := by
  rw [elems, elemsIn_eq (Nat.le_refl _) (Nat.le_succ _), elemsIn]
  cases hs : skipelem path with
  | none => rfl
  | some r =>
    have hlt := length_skipelem (show skipelem path = some (r.1, r.2) from hs)
    exact congrArg _ (elemsIn_eq hlt.le (Nat.le_refl _))

/-- The elements of a path: the maximal runs of bytes other than slashes, cut to `DIRSIZ`. -/
def components (path : List Byte) : List (List Byte) :=
  (runs (· = 47#8) path).map (List.take dirsiz)

theorem components_eq (path : List Byte) : components path =
    match skipelem path with
    | none => []
    | some (rest, name) => name :: components rest := by
  unfold skipelem components
  rw [← runs_dropWhile path]
  cases hd : path.dropWhile (· = 47#8) with
  | nil => rfl
  | cons c p =>
    have hc : decide (c = 47#8) = false := by
      have := List.head_dropWhile_not (l := path) (· = 47#8) (by rw [hd]; simp)
      simpa [hd] using this
    rw [runs_cons (p := (· = 47#8)) hc, List.map_cons]
    simp only [decide_not, runs_dropWhile]

theorem elems_eq_components (path : List Byte) : elems path = components path := by
  induction h : path.length using Nat.strongRecOn generalizing path with
  | ind n ih =>
    rw [elems_eq, components_eq]
    cases hs : skipelem path with
    | none => rfl
    | some r =>
      have hlt := length_skipelem (show skipelem path = some (r.1, r.2) from hs)
      exact congrArg (r.2 :: ·) (ih _ (h ▸ hlt) r.1 rfl)

/-- Calling `skipelem` again and again gives these elements, and then 0. -/
inductive Yields : List Byte → List (List Byte) → Prop
  | done {path : List Byte} : skipelem path = none → Yields path []
  | next {path rest name : List Byte} {names : List (List Byte)} :
      skipelem path = some (rest, name) → Yields rest names → Yields path (name :: names)

theorem yields_components (path : List Byte) : Yields path (components path) := by
  induction h : path.length using Nat.strongRecOn generalizing path with
  | ind n ih =>
    rw [components_eq]
    cases hs : skipelem path with
    | none => exact .done hs
    | some r =>
      have hs : skipelem path = some (r.1, r.2) := hs
      exact .next hs (ih _ (h ▸ length_skipelem hs) r.1 rfl)

/-! ### The layer below -/

/-- What `sysfile.c` uses of `fs.c`, on inodes in the cache. -/
class Inodes (σ : Type) where
  iget : Nat → Kern σ FsPanic (Fin ninode)
  idup : Fin ninode → Kern σ FsPanic Unit
  ilock : Fin ninode → Kern σ FsPanic Unit
  iput : Fin ninode → Kern σ FsPanic Unit
  ialloc : BitVec 16 → Kern σ FsPanic (Fin ninode)
  /-- `ip->inum`. -/
  inum : Fin ninode → Kern σ FsPanic Nat
  /-- `ip->type`. -/
  type : Fin ninode → Kern σ FsPanic (BitVec 16)
  /-- `ip->nlink`. -/
  nlink : Fin ninode → Kern σ FsPanic (BitVec 16)
  /-- `ip->nlink = n; iupdate(ip)`. -/
  setNlink : Fin ninode → BitVec 16 → Kern σ FsPanic Unit
  /-- `ip->major = major; ip->minor = minor; ip->nlink = 1; iupdate(ip)`. -/
  setNew : Fin ninode → BitVec 16 → BitVec 16 → Kern σ FsPanic Unit
  /-- The loop of `dirlookup`: the number in the entry, and its offset. -/
  dirfind : Fin ninode → List Byte → Kern σ FsPanic (Option (Nat × Nat))
  /-- The part of `dirlink` after the name was not found. -/
  diradd : Fin ninode → List Byte → Nat → Kern σ FsPanic Unit
  /-- The entry at an offset is cleared. -/
  dirclear : Fin ninode → Nat → Kern σ FsPanic Unit
  isdirempty : Fin ninode → Kern σ FsPanic Bool

/-! ### The program -/

namespace Inodes

section
variable {σ : Type} [Inodes σ]

/-- `dirlookup`: the inode, with a reference to it, and the offset of its entry. -/
def dirlookup (dp : Fin ninode) (name : List Byte) :
    Kern σ FsPanic (Option (Fin ninode × Nat)) := do
  match ← dirfind dp name with
  | none => pure none
  | some (i, off) => do
    let ip ← iget i
    pure (some (ip, off))

/-- `dirlink`. -/
def dirlink (dp : Fin ninode) (name : List Byte) (i : Nat) : Kern σ FsPanic Int := do
  match ← dirlookup dp name with
  | some (ip, _) => do
    iput ip
    pure (-1)
  | none => do
    diradd dp name i
    pure 0

/-- The loop of `namex`, from the inode `ip` on. -/
def walk (nameiparent : Bool) : List (List Byte) → Fin ninode →
    Kern σ FsPanic (Option (Fin ninode × List Byte))
  | [], ip =>
    if nameiparent then do
      iput ip
      pure none
    else pure (some (ip, []))
  | name :: rest, ip => do
    ilock ip
    let t ← type ip
    if t ≠ tDir then do
      iput ip
      pure none
    else if nameiparent ∧ rest = [] then pure (some (ip, name))
    else do
      match ← dirlookup ip name with
      | none => do
        iput ip
        pure none
      | some (next, _) => do
        iput ip
        walk nameiparent rest next

/-- `namex`, for a process with this `cwd`. -/
def namex (cwd : Fin ninode) (path : List Byte) (nameiparent : Bool) :
    Kern σ FsPanic (Option (Fin ninode × List Byte)) := do
  if path.head? = some 47#8 then do
    let ip ← iget rootIno
    walk nameiparent (elems path) ip
  else do
    idup cwd
    walk nameiparent (elems path) cwd

/-- A `dirlink` that must not fail. -/
def mustLink (e : FsPanic) (dp : Fin ninode) (name : List Byte) (i : Nat) :
    Kern σ FsPanic Unit := do
  let r ← dirlink dp name i
  if r < 0 then throw e else pure ()

/-- The part of `create` that makes an inode and links it. -/
def createNew (dp : Fin ninode) (name : List Byte) (type major minor : BitVec 16) :
    Kern σ FsPanic (Fin ninode) := do
  let ip ← ialloc type
  ilock ip
  setNew ip major minor
  let i ← inum ip
  if type = tDir then do
    let n ← nlink dp
    setNlink dp (n + 1#16)
    mustLink .createDots ip dot i
    let d ← inum dp
    mustLink .createDots ip dotdot d
  else pure ()
  mustLink .createDirlink dp name i
  iput dp
  pure ip

/-- `create`. -/
def create (cwd : Fin ninode) (path : List Byte) (type major minor : BitVec 16) :
    Kern σ FsPanic (Option (Fin ninode)) := do
  match ← namex cwd path true with
  | none => pure none
  | some (dp, name) => do
    ilock dp
    match ← dirlookup dp name with
    | some (ip, _) => do
      iput dp
      ilock ip
      let t ← Inodes.type ip
      if type = tFile ∧ t = tFile then pure (some ip)
      else do
        iput ip
        pure none
    | none => do
      let ip ← createNew dp name type major minor
      pure (some ip)

/-- `bad:` in `sys_link`. -/
def linkBad (ip : Fin ninode) : Kern σ FsPanic Int := do
  ilock ip
  let n ← nlink ip
  setNlink ip (n - 1#16)
  iput ip
  pure (-1)

/-- `sys_link`. -/
def sysLink (cwd : Fin ninode) (old new : List Byte) : Kern σ FsPanic Int := do
  match ← namex cwd old false with
  | none => pure (-1)
  | some (ip, _) => do
    ilock ip
    let t ← type ip
    if t = tDir then do
      iput ip
      pure (-1)
    else do
      let n ← nlink ip
      setNlink ip (n + 1#16)
      match ← namex cwd new true with
      | none => linkBad ip
      | some (dp, name) => do
        ilock dp
        let i ← inum ip
        let r ← dirlink dp name i
        iput dp
        if r < 0 then linkBad ip
        else do
          iput ip
          pure 0

/-- The end of `sys_unlink`: the entry is cleared, and the counts go down. -/
def unlinkEntry (dp : Fin ninode) (off : Nat) (ip : Fin ninode) : Kern σ FsPanic Unit := do
  dirclear dp off
  let t ← type ip
  if t = tDir then do
    let n ← nlink dp
    setNlink dp (n - 1#16)
  else pure ()
  iput dp
  let n ← nlink ip
  setNlink ip (n - 1#16)
  iput ip

/-- `ip->type == T_DIR && !isdirempty(ip)`. -/
def inUse (ip : Fin ninode) : Kern σ FsPanic Bool := do
  let t ← type ip
  if t = tDir then do
    let e ← isdirempty ip
    pure !e
  else pure false

/-- `sys_unlink`. -/
def sysUnlink (cwd : Fin ninode) (path : List Byte) : Kern σ FsPanic Int := do
  match ← namex cwd path true with
  | none => pure (-1)
  | some (dp, name) => do
    ilock dp
    if namecmp name dot = 0 ∨ namecmp name dotdot = 0 then do
      iput dp
      pure (-1)
    else do
      match ← dirlookup dp name with
      | none => do
        iput dp
        pure (-1)
      | some (ip, off) => do
        ilock ip
        let n ← nlink ip
        if n.toInt < 1 then throw .unlinkNlink
        else do
          let used ← inUse ip
          if used then do
            iput ip
            iput dp
            pure (-1)
          else do
            unlinkEntry dp off ip
            pure 0

end

end Inodes

/-! ### The layer on the disk -/

section
variable [Superblock] [Devsw]

/-- A field of an inode in the cache. -/
def entryField {α : Type} (field : IEntry → α) (s : Fin ninode) : Kern Fs FsPanic α := do
  let x ← get
  pure (field (x.icache s))

/-- `ip->nlink = n; iupdate(ip)`. -/
def setNlinkDisk (s : Fin ninode) (n : BitVec 16) : Kern Fs FsPanic Unit := do
  let x ← get
  onInode s (updateInode (x.icache s).ip.major (x.icache s).ip.minor n)

/-- The loop of `dirlookup`. -/
def dirfindDisk (dp : Fin ninode) (name : List Byte) : Kern Fs FsPanic (Option (Nat × Nat)) := do
  let r ← onInode dp (dirlookup name)
  pure (r.map fun e => (e.1.toNat, e.2))

/-- The part of `dirlink` after the name was not found. -/
def dirlinkNew (name : List Byte) (inum : Word) : Kern Vol FsPanic Unit := do
  let v ← get
  let r ← scan .dirlinkRead (fun de => de.inum = 0#16) v.ip.size.toNat 0
  writeDirent .dirlink r.1 ⟨inum.setWidth 16, strncpy name dirsiz⟩

theorem dirlink_eq (name : List Byte) (inum : Word) : dirlink name inum = (do
    match ← dirlookup name with
    | some _ => pure (-1)
    | none => do
      dirlinkNew name inum
      pure 0) := by
  refine congrArg (dirlookup name >>= ·) (funext fun r => ?_)
  cases r with
  | some r => rfl
  | none =>
    unfold dirlinkNew
    simp only [bind_assoc]

/-- The end of `dirlink`. -/
def diraddDisk (dp : Fin ninode) (name : List Byte) (i : Nat) : Kern Fs FsPanic Unit :=
  onInode dp (dirlinkNew name (BitVec.ofNat 32 i))

/-- The inodes on the disk, and the cache. -/
instance onDisk : Inodes Fs where
  iget := iget
  idup := idup
  ilock := ilock
  iput := iput
  ialloc := ialloc
  inum := entryField IEntry.inum
  type := entryField fun e => e.ip.type
  nlink := entryField fun e => e.ip.nlink
  setNlink := setNlinkDisk
  setNew s major minor := onInode s (updateInode major minor 1#16)
  dirfind := dirfindDisk
  diradd := diraddDisk
  dirclear dp off := onInode dp (clearDirent off)
  isdirempty dp := onInode dp isdirempty

end

end Xv6
