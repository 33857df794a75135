import Xv6.Fs.FileCalls

/-!
# Xv6.Fs.InodeRefs

The references to inodes in the cache, over every exit of the calls on path names.

`RefLaws I` is what the operations of `fs.c` do to the references: `iget`, `idup` and
`ialloc` take one, `iput` drops one, and the others leave them. From it follows the same for
`namex`, `create`, `sys_link` and `sys_unlink`, and so for all system calls (`RefLaws.calls`).
-/

namespace Xv6

open Function (update)

section
variable {σ : Type} {I : σ → (Fin ninode → Nat) → Prop}

/-- The references are the same afterwards. -/
def Balanced {α : Type} (I : σ → (Fin ninode → Nat) → Prop) (m : Kern σ FsPanic α) : Prop :=
  ∀ {s r}, I s r → Ends m s (fun _ t => I t r) (fun _ => True)

/-- There is one reference more afterwards, to the inode that is returned. -/
def Takes (I : σ → (Fin ninode → Nat) → Prop) (m : Kern σ FsPanic (Fin ninode)) : Prop :=
  ∀ {s r}, I s r → Ends m s (fun ip t => I t (bump r ip)) (fun _ => True)

/-- There is one reference less to `ip` afterwards. -/
def Drops {α : Type} (I : σ → (Fin ninode → Nat) → Prop) (ip : Fin ninode)
    (m : Kern σ FsPanic α) : Prop :=
  ∀ {s r}, I s (bump r ip) → Ends m s (fun _ t => I t r) (fun _ => True)

/-- What the operations do to the references. -/
structure RefLaws [Inodes σ] (I : σ → (Fin ninode → Nat) → Prop) : Prop where
  iget : ∀ i, Takes I (Inodes.iget i)
  idup : ∀ {s r} ip, I s r → 0 < r ip →
    Ends (Inodes.idup ip) s (fun _ t => I t (bump r ip)) (fun _ => True)
  iput : ∀ ip, Drops I ip (Inodes.iput ip)
  ialloc : ∀ type, Takes I (Inodes.ialloc type)
  ilock : ∀ ip, Balanced I (Inodes.ilock ip)
  inum : ∀ ip, Balanced I (Inodes.inum ip)
  type : ∀ ip, Balanced I (Inodes.type ip)
  nlink : ∀ ip, Balanced I (Inodes.nlink ip)
  setNlink : ∀ ip n, Balanced I (Inodes.setNlink ip n)
  setNew : ∀ ip major minor, Balanced I (Inodes.setNew ip major minor)
  dirfind : ∀ dp name, Balanced I (Inodes.dirfind dp name)
  diradd : ∀ dp name i, Balanced I (Inodes.diradd dp name i)
  dirclear : ∀ dp off, Balanced I (Inodes.dirclear dp off)
  isdirempty : ∀ dp, Balanced I (Inodes.isdirempty dp)

namespace RefLaws

variable [Inodes σ] (hI : RefLaws I) {s : σ} {r : Fin ninode → Nat}
include hI

theorem iput_ret {α : Type} {a : α} {Q : α → σ → Prop} (ip : Fin ninode) (h : I s (bump r ip))
    (hQ : ∀ t, I t r → Q a t) : Ends (do
      Inodes.iput ip
      pure a : Kern σ FsPanic α) s Q (fun _ => True) :=
  (hI.iput ip h).bind fun _ t ht => .ret (hQ t ht)

theorem dirlookup (dp : Fin ninode) (name : List Byte) (h : I s r) :
    Ends (Inodes.dirlookup dp name) s (fun o => Got I r (o.map Prod.fst)) (fun _ => True) := by
  refine (hI.dirfind dp name h).bind ?_
  intro o t ht
  cases o with
  | none => exact .ret ht
  | some v => exact (hI.iget v.1 ht).bind fun ip t ht => .ret ht

theorem dirlink (dp : Fin ninode) (name : List Byte) (i : Nat) :
    Balanced I (Inodes.dirlink dp name i) := by
  intro s r h
  refine (hI.dirlookup dp name h).bind ?_
  intro o t ht
  cases o with
  | some v => exact hI.iput_ret v.1 ht fun _ ht => ht
  | none => exact (hI.diradd dp name i ht).bind fun _ _ ht => .ret ht

/-- The loop of `namex` drops its inode for the next one, or at the end. -/
theorem walk (nameiparent : Bool) : ∀ {l : List (List Byte)} {ip : Fin ninode} {s : σ},
    I s (bump r ip) →
    Ends (Inodes.walk nameiparent l ip) s (fun o => Got I r (o.map Prod.fst)) (fun _ => True) := by
  intro l
  induction l with
  | nil =>
    intro ip s h
    rw [Inodes.walk, ends_ite]
    exact ⟨fun _ => hI.iput_ret ip h (fun _ ht => ht), fun _ => .ret h⟩
  | cons name rest ih =>
    intro ip s h
    refine (hI.ilock ip h).bind fun _ t1 ht1 => ?_
    refine (hI.type ip ht1).bind fun ty t2 ht2 => ?_
    rw [ends_ite]
    refine ⟨fun _ => hI.iput_ret ip ht2 (fun _ ht => ht), fun _ => ?_⟩
    rw [ends_ite]
    refine ⟨fun _ => .ret ht2, fun _ => ?_⟩
    refine (hI.dirlookup ip name ht2).bind ?_
    intro o t3 ht3
    cases o with
    | none => exact hI.iput_ret ip ht3 fun _ ht => ht
    | some v =>
      have ht3 : I t3 (bump (bump r ip) v.1) := ht3
      rw [bump_comm] at ht3
      exact (hI.iput ip ht3).bind fun _ t4 ht4 => ih ht4

theorem namex {cwd : Fin ninode} (path : List Byte) (nameiparent : Bool) (h : I s r)
    (hcwd : 0 < r cwd) :
    Ends (Inodes.namex cwd path nameiparent) s (fun o => Got I r (o.map Prod.fst))
      (fun _ => True) := by
  rw [Inodes.namex, ends_ite]
  refine ⟨fun _ => ?_, fun _ => ?_⟩
  · exact (hI.iget rootIno h).bind fun ip t ht => hI.walk nameiparent ht
  · exact (hI.idup cwd h hcwd).bind fun _ t ht => hI.walk nameiparent ht

theorem mustLink (e : FsPanic) (dp : Fin ninode) (name : List Byte) (i : Nat) :
    Balanced I (Inodes.mustLink e dp name i) := by
  intro s r h
  refine (hI.dirlink dp name i h).bind fun v t ht => ?_
  rw [ends_ite]
  exact ⟨fun _ => (ends_throw ..).mpr trivial, fun _ => .ret ht⟩

/-- The reference to the directory is given up for the one to the new inode. -/
theorem createNew (dp : Fin ninode) (name : List Byte) (type major minor : BitVec 16)
    (h : I s (bump r dp)) : Ends (Inodes.createNew dp name type major minor) s
      (fun ip t => I t (bump r ip)) (fun _ => True) := by
  refine (hI.ialloc type h).bind fun ip t ht => ?_
  rw [bump_comm] at ht
  refine (hI.ilock ip ht).bind fun _ t ht => ?_
  refine (hI.setNew ip major minor ht).bind fun _ t ht => ?_
  refine (hI.inum ip ht).bind fun i t ht => ?_
  -- what follows the entries of a new directory
  have hrest : ∀ t, I t (bump (bump r ip) dp) → Ends (do
      Inodes.mustLink .createDirlink dp name i
      Inodes.iput dp
      pure ip) t (fun ip t => I t (bump r ip)) (fun _ => True) := fun t ht =>
    (hI.mustLink _ dp name i ht).bind fun _ t ht => hI.iput_ret dp ht fun _ ht => ht
  dsimp only
  rw [ends_ite]
  refine ⟨fun _ => ?_, fun _ => hrest t ht⟩
  refine (hI.nlink dp ht).bind fun n t ht => ?_
  refine (hI.setNlink dp _ ht).bind fun _ t ht => ?_
  refine (hI.mustLink _ ip dot i ht).bind fun _ t ht => ?_
  refine (hI.inum dp ht).bind fun d t ht => ?_
  exact (hI.mustLink _ ip dotdot d ht).bind fun _ t ht => hrest t ht

theorem create {cwd : Fin ninode} (path : List Byte) (type major minor : BitVec 16) (h : I s r)
    (hcwd : 0 < r cwd) :
    Ends (Inodes.create cwd path type major minor) s (Got I r) (fun _ => True) := by
  refine (hI.namex path true h hcwd).bind ?_
  intro o t ht
  cases o with
  | none => exact .ret ht
  | some v =>
    refine (hI.ilock v.1 ht).bind fun _ t ht => ?_
    refine (hI.dirlookup v.1 v.2 ht).bind ?_
    intro o t ht
    cases o with
    | none => exact (hI.createNew v.1 v.2 type major minor ht).bind fun ip t ht => .ret ht
    | some u =>
      have ht : I t (bump (bump r v.1) u.1) := ht
      rw [bump_comm] at ht
      refine (hI.iput v.1 ht).bind fun _ t ht => ?_
      refine (hI.ilock u.1 ht).bind fun _ t ht => ?_
      refine (hI.type u.1 ht).bind fun ty t ht => ?_
      rw [ends_ite]
      exact ⟨fun _ => .ret ht, fun _ => hI.iput_ret u.1 ht fun _ ht => ht⟩

theorem linkBad (ip : Fin ninode) : Drops I ip (Inodes.linkBad ip) := by
  intro s r h
  refine (hI.ilock ip h).bind fun _ t ht => ?_
  refine (hI.nlink ip ht).bind fun n t ht => ?_
  refine (hI.setNlink ip _ ht).bind fun _ t ht => ?_
  exact hI.iput_ret ip ht fun _ ht => ht

theorem sysLink {cwd : Fin ninode} (old new : List Byte) (h : I s r) (hcwd : 0 < r cwd) :
    Ends (Inodes.sysLink cwd old new) s (fun _ t => I t r) (fun _ => True) := by
  refine (hI.namex old false h hcwd).bind ?_
  intro o t ht
  cases o with
  | none => exact .ret ht
  | some v =>
    refine (hI.ilock v.1 ht).bind fun _ t ht => ?_
    refine (hI.type v.1 ht).bind fun ty t ht => ?_
    rw [ends_ite]
    refine ⟨fun _ => hI.iput_ret v.1 ht (fun _ ht => ht), fun _ => ?_⟩
    refine (hI.nlink v.1 ht).bind fun n t ht => ?_
    refine (hI.setNlink v.1 _ ht).bind fun _ t ht => ?_
    refine (hI.namex new true ht (Nat.lt_of_lt_of_le hcwd le_bump)).bind ?_
    intro o t ht
    cases o with
    | none => exact hI.linkBad v.1 ht
    | some u =>
      refine (hI.ilock u.1 ht).bind fun _ t ht => ?_
      refine (hI.inum v.1 ht).bind fun i t ht => ?_
      refine (hI.dirlink u.1 u.2 i ht).bind fun e t ht => ?_
      refine (hI.iput u.1 ht).bind fun _ t ht => ?_
      rw [ends_ite]
      exact ⟨fun _ => hI.linkBad v.1 ht, fun _ => hI.iput_ret v.1 ht fun _ ht => ht⟩

theorem inUse (ip : Fin ninode) : Balanced I (Inodes.inUse ip) := by
  intro s r h
  refine (hI.type ip h).bind fun ty t ht => ?_
  rw [ends_ite]
  exact ⟨fun _ => (hI.isdirempty ip ht).bind fun _ _ ht => .ret ht, fun _ => .ret ht⟩

theorem unlinkEntry (dp ip : Fin ninode) (off : Nat) (h : I s (bump (bump r ip) dp)) :
    Ends (Inodes.unlinkEntry dp off ip) s (fun _ t => I t r) (fun _ => True) := by
  refine (hI.dirclear dp off h).bind fun _ t ht => ?_
  refine (hI.type ip ht).bind fun ty t ht => ?_
  have hrest : ∀ t, I t (bump (bump r ip) dp) → Ends (do
      Inodes.iput dp
      let n ← Inodes.nlink ip
      Inodes.setNlink ip (n - 1#16)
      Inodes.iput ip) t (fun _ t => I t r) (fun _ => True) := by
    intro t ht
    refine (hI.iput dp ht).bind fun _ t ht => ?_
    refine (hI.nlink ip ht).bind fun n t ht => ?_
    exact (hI.setNlink ip _ ht).bind fun _ t ht => hI.iput ip ht
  dsimp only
  rw [ends_ite]
  refine ⟨fun _ => ?_, fun _ => hrest t ht⟩
  refine (hI.nlink dp ht).bind fun n t ht => ?_
  exact (hI.setNlink dp _ ht).bind fun _ t ht => hrest t ht

theorem sysUnlink {cwd : Fin ninode} (path : List Byte) (h : I s r) (hcwd : 0 < r cwd) :
    Ends (Inodes.sysUnlink cwd path) s (fun _ t => I t r) (fun _ => True) := by
  refine (hI.namex path true h hcwd).bind ?_
  intro o t ht
  cases o with
  | none => exact .ret ht
  | some v =>
    refine (hI.ilock v.1 ht).bind fun _ t ht => ?_
    rw [ends_ite]
    refine ⟨fun _ => hI.iput_ret v.1 ht (fun _ ht => ht), fun _ => ?_⟩
    refine (hI.dirlookup v.1 v.2 ht).bind ?_
    intro o t ht
    cases o with
    | none => exact hI.iput_ret v.1 ht fun _ ht => ht
    | some u =>
      have ht : I t (bump (bump r v.1) u.1) := ht
      refine (hI.ilock u.1 ht).bind fun _ t ht => ?_
      refine (hI.nlink u.1 ht).bind fun n t ht => ?_
      rw [ends_ite]
      refine ⟨fun _ => (ends_throw ..).mpr trivial, fun _ => ?_⟩
      refine (hI.inUse u.1 ht).bind fun used t ht => ?_
      rw [ends_ite]
      refine ⟨fun _ => ?_, fun _ => ?_⟩
      · exact (hI.iput u.1 ht).bind fun _ t ht => hI.iput_ret v.1 ht fun _ ht => ht
      · rw [bump_comm] at ht
        exact (hI.unlinkEntry v.1 u.1 u.2 ht).bind fun _ t ht => .ret ht

theorem openInode {cwd : Fin ninode} (path : List Byte) (omode : Word) (h : I s r)
    (hcwd : 0 < r cwd) : Ends (Files.openInode cwd path omode) s (Got I r) (fun _ => True) := by
  rw [Files.openInode, ends_ite]
  refine ⟨fun _ => hI.create path tFile 0 0 h hcwd, fun _ => ?_⟩
  refine (hI.namex path false h hcwd).bind ?_
  intro o t ht
  cases o with
  | none => exact .ret ht
  | some v =>
    refine (hI.ilock v.1 ht).bind fun _ t ht => ?_
    refine (hI.type v.1 ht).bind fun ty t ht => ?_
    rw [ends_ite]
    exact ⟨fun _ => hI.iput_ret v.1 ht (fun _ ht => ht), fun _ => .ret ht⟩

theorem calls {P : Type} : InodeLaws I (fun _ _ (_ : FileCall P) => True) (fun _ => True) where
  iput := hI.iput _
  idup h hpos := hI.idup _ h hpos
  ilock h _ := hI.ilock _ h
  type h _ := hI.type _ h
  namei h hcwd := hI.namex _ _ h hcwd
  openInode h hcwd _ := hI.openInode _ _ h hcwd
  mkdir h hcwd _ := hI.create _ _ _ _ h hcwd
  mknod h hcwd _ := hI.create _ _ _ _ h hcwd
  link h hcwd _ := hI.sysLink _ _ h hcwd
  unlink h hcwd _ := hI.sysUnlink _ h hcwd

end RefLaws

end

end Xv6
