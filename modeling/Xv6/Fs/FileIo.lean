import Xv6.Fs.InodeRefs
import Xv6.Log.Group

/-!
# Xv6.Fs.FileIo

Reading and writing through open files: `fileread` and `filewrite`, on the inodes on the
disk. What `piperead` and `pipewrite` return is given with the call.

With them, the references to inodes in the cache are exact between any two calls
(`icache_refs_exact`).
-/

namespace Xv6

open Function (update update_self update_of_ne)

namespace Files

section
variable [Superblock] [Devsw] {P : Type}

/-- `f->off += r`. -/
def advance (f : Fin nfile) (r : Nat) : Kern (Files Fs P) FilePanic Unit := do
  let x ← get
  setFile f { x.ftable f with off := (x.ftable f).off + BitVec.ofNat 32 r }

/-- A call on a pipe that must be there. -/
def onPipe (page : Nat) (r : Int) : Kern (Files Fs P) FilePanic Int := do
  let x ← get
  match x.pipes page with
  | none => throw .freed
  | some _ => pure r

/-- `fileread`; `r` is what `piperead` returns. -/
def fileread (f : Fin nfile) (n : Word) (r : Int) : Kern (Files Fs P) FilePanic Int := do
  let x ← get
  if (x.ftable f).readable = false then pure (-1)
  else match (x.ftable f).type with
    | .pipe page => onPipe page r
    | .inode ip => do
      onFs (ilock ip)
      match ← onFs (onInode ip (Vol.readi (x.ftable f).off n)) with
      | none => pure (-1)
      | some bytes => do
        if 0 < bytes.length then advance f bytes.length else pure ()
        pure bytes.length
    | .none => throw .fileread

/-- `max` in `filewrite`. -/
def maxWrite : Nat := (maxopblocks - 1 - 1 - 2) / 2 * 512

/-- What `filewrite` does with the inode locked. -/
def writeChunk (f : Fin nfile) (ip : Fin ninode) (src : List Byte) :
    Kern (Files Fs P) FilePanic Int := do
  onFs (ilock ip)
  let x ← get
  let r ← onFs (onInode ip (Vol.writei src (x.ftable f).off))
  if 0 < r then advance f r.toNat else pure ()
  pure r

/-- The loop of `filewrite`; whether it has written everything. -/
def writeChunks (f : Fin nfile) (ip : Fin ninode) (src : List Byte) :
    Kern (Files Fs P) FilePanic Bool :=
  if src = [] then pure true
  else do
    let r ← writeChunk f ip (src.take maxWrite)
    if r < 0 then pure false
    else if r ≠ (src.take maxWrite).length then throw .shortWrite
    else writeChunks f ip (src.drop maxWrite)
termination_by src.length
decreasing_by
  have hpos : 0 < src.length := List.length_pos_iff.mpr ‹src ≠ []›
  rw [List.length_drop]
  have hmax : maxWrite = 1536 := rfl
  omega

/-- `filewrite`; `r` is what `pipewrite` returns. -/
def filewrite (f : Fin nfile) (src : List Byte) (r : Int) : Kern (Files Fs P) FilePanic Int := do
  let x ← get
  if (x.ftable f).writable = false then pure (-1)
  else match (x.ftable f).type with
    | .pipe page => onPipe page r
    | .inode ip => do
      let all ← writeChunks f ip src
      pure (if all then src.length else -1)
    | .none => throw .filewrite

/-- `sys_read`. -/
def sysRead (p : P) (fd : Int) (n : Word) (r : Int) : Kern (Files Fs P) FilePanic Int := do
  let x ← get
  match argfd (x.ofile p) fd with
  | none => pure (-1)
  | some (_, f) => fileread f n r

/-- `sys_write`. -/
def sysWrite (p : P) (fd : Int) (src : List Byte) (r : Int) : Kern (Files Fs P) FilePanic Int := do
  let x ← get
  match argfd (x.ofile p) fd with
  | none => pure (-1)
  | some (_, f) => filewrite f src r

end

end Files

/-- The system calls with those that read and write. -/
inductive IoCall (P : Type)
  | file (c : FileCall P)
  | read (fd : Int) (n : Word) (r : Int)
  | write (fd : Int) (src : List Byte) (r : Int)

section
variable [Superblock] [Devsw] {P : Type} [DecidableEq P]

def IoCall.syscall (p : P) : IoCall P → Kern (Files Fs P) FilePanic Int
  | .file c => c.syscall p
  | .read fd n r => Files.sysRead p fd n r
  | .write fd src r => Files.sysWrite p fd src r

def IoCall.Issued (x : Files Fs P) (p : P) : IoCall P → Prop
  | .file c => c.Issued x p
  | _ => x.cwd p ≠ none

/-- A call that returns. -/
def IoCall.Step (x : Files Fs P) (l : P × IoCall P) (y : Files Fs P) : Prop :=
  l.2.Issued x l.1 ∧ ∃ r, (l.2.syscall l.1).run x = .ok (r, y)

end

/-! ### References to inodes on the disk -/

section
variable {x : Fs} {r : Fin ninode → Nat}

/-- The entries of the cache count `r s` references, and no two in use have the same inode. -/
structure CacheRefs (x : Fs) (r : Fin ninode → Nat) : Prop where
  ref : ∀ s, (x.icache s).ref = r s
  unique : ∀ {s t}, 0 < (x.icache s).ref → 0 < (x.icache t).ref →
    (x.icache s).inum = (x.icache t).inum → s = t

section
variable {d : Disk} {s : Fin ninode} {e : IEntry} (h : CacheRefs x r)
include h

theorem CacheRefs.set {r' : Fin ninode → Nat}
    (href : ∀ t, r' t = if t = s then e.ref else (r t : Int))
    (hinum : 0 < e.ref → ∀ t ≠ s, 0 < (x.icache t).ref → (x.icache t).inum ≠ e.inum) :
    CacheRefs ⟨d, update x.icache s e⟩ r' := by
  refine ⟨fun t => ?_, fun {t u} ht hu he => ?_⟩
  · rw [href]
    by_cases hts : t = s
    · subst hts
      simp
    · simp [hts, h.ref]
  · by_cases hts : t = s <;> by_cases hus : u = s
    · rw [hts, hus]
    · subst hts
      simp only [update_self, update_of_ne hus] at ht hu he
      exact absurd he.symm (hinum ht u hus hu)
    · subst hus
      simp only [update_self, update_of_ne hts] at ht hu he
      exact absurd he (hinum hu t hts ht)
    · simp only [update_of_ne hts, update_of_ne hus] at ht hu he
      exact h.unique ht hu he

theorem CacheRefs.setRef {r' : Fin ninode → Nat} (hs : 0 < e.ref → 0 < r s)
    (he : e.inum = (x.icache s).inum) (href : ∀ t, r' t = if t = s then e.ref else (r t : Int)) :
    CacheRefs ⟨d, update x.icache s e⟩ r' := by
  refine h.set href fun hpos t hts ht hi => hts ?_
  have hs' : 0 < (x.icache s).ref := by
    rw [h.ref]
    exact_mod_cast hs hpos
  exact h.unique ht hs' (hi.trans he)

theorem CacheRefs.keep (hinum : e.inum = (x.icache s).inum) (href : e.ref = (x.icache s).ref) :
    CacheRefs ⟨d, update x.icache s e⟩ r := by
  have hr := h.ref s
  refine h.setRef (by omega) hinum fun t => ?_
  by_cases hts : t = s
  · rw [if_pos hts, href, hts, hr]
  · rw [if_neg hts]

end

theorem balanced_entryField {α : Type} (field : IEntry → α) (s : Fin ninode) :
    Balanced CacheRefs (entryField field s) := by
  intro x r h
  rw [entryField, ends_bind, ends_get]
  exact .ret h

theorem bump_cast {s t : Fin ninode} {k : Int} (h : k = (r s : Int) + 1) :
    ((bump r s t : Nat) : Int) = if t = s then k else (r t : Int) := by
  rw [bump_apply]
  by_cases hts : t = s
  · rw [if_pos hts, if_pos hts, h, hts]
    rfl
  · rw [if_neg hts, if_neg hts, Nat.add_zero]

/-- What is done to the inode of an entry leaves the references alone. -/
theorem balanced_onInode {α : Type} (s : Fin ninode) (m : Kern Vol FsPanic α) :
    Balanced CacheRefs (onInode s m) := by
  intro x r h
  rw [onInode, ends_focus]
  exact Ends.trivial.mono (fun _ v _ => h.keep rfl rfl) fun _ _ => trivial

theorem takes_iget (i : Nat) : Takes CacheRefs (iget i) := by
  intro x r h
  refine (iget_cases x i).mono ?_ fun _ _ => trivial
  intro s y hy
  have href := h.ref s
  rcases hy with ⟨hs, -, rfl⟩ | ⟨hs, hnew, rfl⟩
  · exact h.setRef (by omega) rfl fun t => bump_cast (by rw [href])
  · refine h.set (fun t => bump_cast ?_) fun _ t _ ht => hnew t ht
    show (1 : Int) = _
    omega

theorem takes_idup (s : Fin ninode) (h : CacheRefs x r) (hs : 0 < r s) :
    Ends (idup s) x (fun _ y => CacheRefs y (bump r s)) (fun _ => True) := by
  refine (ends_modify ..).mpr (h.setRef (fun _ => hs) rfl fun t => bump_cast ?_)
  show (x.icache s).ref + 1 = _
  rw [h.ref]

theorem drops_dropRef (s : Fin ninode) : Drops CacheRefs s (dropRef s) := by
  intro x r h
  have href := h.ref s
  rw [bump_self] at href
  refine (ends_modify ..).mpr (h.setRef (fun _ => bump_pos) rfl fun t => ?_)
  by_cases hts : t = s
  · rw [if_pos hts, hts]
    show (r s : Int) = (x.icache s).ref - 1
    omega
  · rw [if_neg hts, bump_of_ne hts]

variable [Superblock]

theorem takes_ialloc (type : BitVec 16) : Takes CacheRefs (ialloc type) := by
  intro x r h
  rw [ialloc, ends_bind, ends_get]
  cases hf : (List.range' 1 (Superblock.ninodes - 1)).find? fun i =>
      (dinode x.disk i).type = 0#16 with
  | none => exact (ends_throw ..).mpr trivial
  | some i => exact (ends_bind ..).mpr ((ends_set ..).mpr (takes_iget i ⟨h.ref, h.unique⟩))

theorem drops_iput (s : Fin ninode) : Drops CacheRefs s (iput s) := by
  intro x r h
  rw [iput, ends_bind, ends_get, ends_ite]
  refine ⟨fun _ => ?_, fun _ => drops_dropRef s h⟩
  refine (balanced_onInode s _ h).bind fun _ y hy => ?_
  exact (ends_bind ..).mpr ((ends_modify ..).mpr (drops_dropRef s (hy.keep rfl rfl)))

theorem balanced_ilock (s : Fin ninode) : Balanced CacheRefs (ilock s) := by
  intro x r h
  refine (ilock_cases x s).mono ?_ fun _ _ => trivial
  rintro _ y ⟨-, ⟨-, rfl⟩ | ⟨-, rfl⟩⟩
  · exact h
  · exact h.keep rfl rfl

theorem balanced_setNlinkDisk (s : Fin ninode) (n : BitVec 16) :
    Balanced CacheRefs (setNlinkDisk s n) := by
  intro x r h
  rw [setNlinkDisk, ends_bind, ends_get]
  exact balanced_onInode s _ h

variable [Devsw]

theorem balanced_dirfindDisk (s : Fin ninode) (name : List Byte) :
    Balanced CacheRefs (dirfindDisk s name) := by
  intro x r h
  rw [dirfindDisk]
  exact (balanced_onInode s _ h).bind fun _ _ ht => .ret ht

theorem cacheRefs_laws : RefLaws CacheRefs where
  iget := takes_iget
  idup := takes_idup
  iput := drops_iput
  ialloc := takes_ialloc
  ilock := balanced_ilock
  inum := balanced_entryField _
  type := balanced_entryField _
  nlink := balanced_entryField _
  setNlink := balanced_setNlinkDisk
  setNew s _ _ := balanced_onInode s _
  dirfind := balanced_dirfindDisk
  diradd s _ _ := balanced_onInode s _
  dirclear s _ := balanced_onInode s _
  isdirempty s := balanced_onInode s _

end

/-! ### Calls that read and write -/

namespace Files

section
variable [Superblock] {P : Type} [Fintype P] {x y : Files Fs P} {f : Fin nfile} {ip : Fin ninode}

/-- The references are exact, and the processes have not changed. -/
def Kept (x y : Files Fs P) : Prop := SameProcs x y ∧ y.Ok CacheRefs y.fds []

section
omit [Superblock]

theorem Kept.trans {z : Files Fs P} (h : Kept x y) (h' : Kept y z) : Kept x z :=
  ⟨h.1.trans h'.1, h'.2⟩

theorem kept_onFs {α : Type} {m : Kern Fs FsPanic α} (hm : Balanced CacheRefs m)
    (h : x.Ok CacheRefs x.fds []) : Ends (onFs m) x (fun _ y => Kept x y) (fun _ => True) := by
  refine (h.onFs (l := fun _ => []) (hm h.inodes)).mono ?_ fun _ _ => trivial
  rintro _ y ⟨⟨t, rfl⟩, hy⟩
  exact ⟨⟨rfl, rfl⟩, hy⟩

theorem kept_advance {k : Nat} (h : x.Ok CacheRefs x.fds []) (hf : 0 < x.fds f) :
    Ends (advance f k) x (fun _ y => Kept x y) (fun _ => True) := by
  rw [← h.files.ref] at hf
  refine (ends_bind ..).mpr ((ends_get ..).mpr ((ends_modify ..).mpr ⟨⟨rfl, rfl⟩, ?_⟩))
  refine h.setFile (h.files.setSame hf hf rfl rfl fun g => ?_) rfl
  by_cases hg : g = f
  · rw [if_pos hg, hg]
    exact (h.files.ref f).symm
  · rw [if_neg hg]
    rfl

end

variable [Devsw]

theorem kept_fileread {n : Word} {r : Int} (h : x.Ok CacheRefs x.fds []) (hf : 0 < x.fds f) :
    Ends (fileread f n r) x (fun _ y => Kept x y) (fun _ => True) := by
  rw [fileread, ends_bind, ends_get, ends_ite]
  refine ⟨fun _ => .ret ⟨.rfl, h⟩, fun _ => ?_⟩
  cases (x.ftable f).type with
  | none => exact (ends_throw ..).mpr trivial
  | pipe page =>
    show Ends (onPipe page r) _ _ _
    rw [onPipe, ends_bind, ends_get]
    cases x.pipes page with
    | none => exact (ends_throw ..).mpr trivial
    | some e => exact .ret ⟨.rfl, h⟩
  | inode ip =>
    refine (kept_onFs (balanced_ilock ip) h).bind fun _ y hy => ?_
    refine (kept_onFs (balanced_onInode ip _) hy.2).bind ?_
    intro o z hz
    have hxz := hy.trans hz
    cases o with
    | none => exact .ret hxz
    | some bytes =>
      dsimp only
      rw [ends_ite]
      refine ⟨fun _ => ?_, fun _ => .ret hxz⟩
      rw [← hxz.1.fds] at hf
      exact (kept_advance hz.2 hf).bind fun _ u hu => .ret (hxz.trans hu)

theorem kept_writeChunk {src : List Byte} (h : x.Ok CacheRefs x.fds []) (hf : 0 < x.fds f) :
    Ends (writeChunk f ip src) x (fun _ y => Kept x y) (fun _ => True) := by
  refine (kept_onFs (balanced_ilock ip) h).bind fun _ y hy => ?_
  refine (ends_bind ..).mpr ((ends_get ..).mpr ?_)
  refine (kept_onFs (balanced_onInode ip _) hy.2).bind fun r z hz => ?_
  have hxz := hy.trans hz
  dsimp only
  rw [ends_ite]
  refine ⟨fun _ => ?_, fun _ => .ret hxz⟩
  rw [← hxz.1.fds] at hf
  exact (kept_advance hz.2 hf).bind fun _ u hu => .ret (hxz.trans hu)

theorem kept_writeChunks (src : List Byte) : ∀ {x : Files Fs P}, x.Ok CacheRefs x.fds [] →
    0 < x.fds f → Ends (writeChunks f ip src) x (fun _ y => Kept x y) (fun _ => True) := by
  induction src using writeChunks.induct with
  | case1 =>
    intro x h _
    rw [writeChunks, if_pos rfl]
    exact .ret ⟨.rfl, h⟩
  | case2 src hne ih =>
    intro x h hf
    rw [writeChunks, if_neg hne]
    refine (kept_writeChunk h hf).bind fun r y hy => ?_
    rw [ends_ite]
    refine ⟨fun _ => .ret hy, fun _ => ?_⟩
    rw [ends_ite]
    refine ⟨fun _ => (ends_throw ..).mpr trivial, fun _ => ?_⟩
    rw [← hy.1.fds] at hf
    exact (ih r hy.2 hf).mono (fun _ z hz => hy.trans hz) fun _ _ => trivial

theorem kept_filewrite {src : List Byte} {r : Int} (h : x.Ok CacheRefs x.fds [])
    (hf : 0 < x.fds f) : Ends (filewrite f src r) x (fun _ y => Kept x y) (fun _ => True) := by
  rw [filewrite, ends_bind, ends_get, ends_ite]
  refine ⟨fun _ => .ret ⟨.rfl, h⟩, fun _ => ?_⟩
  cases (x.ftable f).type with
  | none => exact (ends_throw ..).mpr trivial
  | pipe page =>
    show Ends (onPipe page r) _ _ _
    rw [onPipe, ends_bind, ends_get]
    cases x.pipes page with
    | none => exact (ends_throw ..).mpr trivial
    | some e => exact .ret ⟨.rfl, h⟩
  | inode ip => exact (kept_writeChunks src h hf).bind fun _ y hy => .ret hy

end

end Files

section
variable [Superblock] [Devsw] {P : Type} [Fintype P] [DecidableEq P] {x y : Files Fs P}
  {ls : List (P × IoCall P)}

theorem IoCall.settled {p : P} {c : IoCall P} (h : x.Settled CacheRefs) (hc : c.Issued x p) :
    Ends (c.syscall p) x (fun _ y => y.Settled CacheRefs) (fun _ => True) := by
  have hkept : ∀ {y : Files Fs P}, Files.Kept x y → y.Settled CacheRefs := by
    rintro y ⟨⟨hcwd, hofile⟩, hok⟩
    refine ⟨hok, fun {q} hq fd => ?_⟩
    rw [hofile]
    exact h.dead (hcwd ▸ hq) fd
  cases c with
  | file c =>
    exact (h.syscall cacheRefs_laws.calls hc fun _ _ => trivial).mono (fun _ _ hy => hy)
      fun _ _ => trivial
  | read fd n r =>
    show Ends (Files.sysRead p fd n r) _ _ _
    rw [Files.sysRead, ends_bind, ends_get]
    cases harg : argfd (x.ofile p) fd with
    | none => exact .ret h
    | some v =>
      have hf := Files.fds_pos (argfd_inv (show _ = some (v.1, v.2) from harg))
      exact (Files.kept_fileread h.ok hf).mono (fun _ _ hy => hkept hy) fun _ _ => trivial
  | write fd src r =>
    show Ends (Files.sysWrite p fd src r) _ _ _
    rw [Files.sysWrite, ends_bind, ends_get]
    cases harg : argfd (x.ofile p) fd with
    | none => exact .ret h
    | some v =>
      have hf := Files.fds_pos (argfd_inv (show _ = some (v.1, v.2) from harg))
      exact (Files.kept_filewrite h.ok hf).mono (fun _ _ hy => hkept hy) fun _ _ => trivial

theorem IoCall.run_settled (h : x.Settled CacheRefs) (hrun : Trace IoCall.Step x ls y) :
    y.Settled CacheRefs := by
  induction hrun with
  | nil => exact h
  | cons hstep _ ih =>
    obtain ⟨hissued, r, hr⟩ := hstep
    exact ih ((IoCall.settled h hissued).of_ok hr)

/-- In every state between calls no two entries of the inode cache in use are for the same
inode, and the references that an entry counts are the open files and the current
directories that are this inode. -/
theorem icache_refs_exact (hx : x.Booted) (hfs : CacheRefs x.fs (holders x.cwd))
    (hrun : Trace IoCall.Step x ls y) :
    (∀ s t, 0 < (y.fs.icache s).ref → 0 < (y.fs.icache t).ref →
      (y.fs.icache s).inum = (y.fs.icache t).inum → s = t) ∧
    ∀ s, (y.fs.icache s).ref =
      ((Finset.univ.filter fun f => 0 < (y.ftable f).ref ∧ (y.ftable f).type = .inode s).card +
        (Finset.univ.filter fun p => y.cwd p = some s).card : Nat) := by
  have hy := IoCall.run_settled (hx.settled hfs) hrun
  refine ⟨fun s t => hy.ok.inodes.unique, fun s => ?_⟩
  have href := hy.ok.inodes.ref s
  have hfiles : holders (Files.inodeOf y.ftable) s =
      (Finset.univ.filter fun f => 0 < (y.ftable f).ref ∧ (y.ftable f).type = .inode s).card := by
    refine congrArg Finset.card (Finset.filter_congr fun f _ => ?_)
    have hidle := hy.ok.files.idle f
    unfold Files.inodeOf
    rw [Function.comp_apply]
    cases htype : (y.ftable f).type with
    | none => simp [FileType.inode?]
    | pipe page => simp [FileType.inode?]
    | inode ip =>
      rw [htype] at hidle
      have hpos : 0 < (y.ftable f).ref := Nat.pos_of_ne_zero fun hz => by cases hidle hz
      simp [FileType.inode?, hpos]
  rw [href, plus_nil, Files.users, Pi.add_apply, hfiles]
  rfl

end

/-- After a `fork` both processes are in the root directory. -/
theorem icache_refs_exact_fork :
    let _ : Superblock := Superblock.mkfs
    let _ : Devsw := Devsw.none
    ∃ y, Trace IoCall.Step firstFiles [(0, .file (.fork (some 1)))] y ∧
      (y.fs.icache ⟨0, by decide⟩).ref = 2 ∧
      ∀ s, (y.fs.icache s).ref =
        ((Finset.univ.filter fun f => 0 < (y.ftable f).ref ∧ (y.ftable f).type = .inode s).card +
          (Finset.univ.filter fun p => y.cwd p = some s).card : Nat) := by
  intro _ _
  have hrefs : CacheRefs firstFiles.fs (holders firstFiles.cwd) := by
    refine ⟨fun s => ?_, fun {s t} hs ht _ => ?_⟩
    · revert s
      decide
    · have hpos : ∀ s, 0 < (firstFiles.fs.icache s).ref → s = ⟨0, by decide⟩ := by decide
      rw [hpos s hs, hpos t ht]
  have hboot : firstFiles.Booted := ⟨fun _ => ⟨rfl, rfl⟩, fun _ => rfl, fun _ _ => rfl⟩
  have hrun : ∃ y, Trace IoCall.Step firstFiles [(0, .file (.fork (some 1)))] y ∧
      (y.fs.icache ⟨0, by decide⟩).ref = 2 :=
    ⟨_, .cons ⟨⟨nofun, rfl⟩, _, rfl⟩ (.nil _), rfl⟩
  obtain ⟨y, hrun, hy⟩ := hrun
  exact ⟨y, hrun, hy, (icache_refs_exact hboot hrefs hrun).2⟩

end Xv6
