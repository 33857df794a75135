import Xv6.Fs.Trunc

/-!
# Xv6.Fs.Icache

The inode cache: `ialloc`, `iget`, `idup`, `ilock`, `iput`, and the calls of `readi`, `writei` and
`iupdate` on inodes in it, in any sequence.

The invariant of the disk is `Ownership`: every block belongs to one place or is
free, and a file has blocks for its size and no more. An entry of the cache that is in use
(`ref > 0`) and valid is what is on the disk: the cache is written through.
-/

namespace Xv6

open Function (update update_of_ne)
open Superblock

/-- `NINODE`. -/
def ninode : Nat := 50

/-- `struct inode`. -/
structure IEntry where
  ref : Int
  inum : Nat
  valid : Bool
  ip : Dinode

/-- The disk and `icache`. -/
structure Fs where
  disk : Disk
  icache : Fin ninode → IEntry

/-! ### The program -/

def Fs.setEntry (x : Fs) (s : Fin ninode) (e : IEntry) : Fs :=
  { x with icache := update x.icache s e }

section
variable [Superblock]

/-- Run on the inode in an entry. -/
def onInode {α : Type} (s : Fin ninode) (m : Kern Vol FsPanic α) : Kern Fs FsPanic α :=
  focus (fun x => ⟨x.disk, (x.icache s).inum, (x.icache s).ip⟩)
    (fun x v => ⟨v.disk, update x.icache s { x.icache s with ip := v.ip }⟩) m

/-- `iget`. -/
def iget (i : Nat) : Kern Fs FsPanic (Fin ninode) := do
  let x ← get
  match (List.finRange ninode).find? fun s => 0 < (x.icache s).ref ∧ (x.icache s).inum = i with
  | some s =>
    set (x.setEntry s { x.icache s with ref := (x.icache s).ref + 1 })
    pure s
  | none =>
    match (List.finRange ninode).find? fun s => (x.icache s).ref = 0 with
    | some s =>
      set (x.setEntry s ⟨1, i, false, (x.icache s).ip⟩)
      pure s
    | none => throw .icacheFull

/-- `idup`. -/
def idup (s : Fin ninode) : Kern Fs FsPanic Unit :=
  modify fun x => x.setEntry s { x.icache s with ref := (x.icache s).ref + 1 }

/-- `ilock`. -/
def ilock (s : Fin ninode) : Kern Fs FsPanic Unit := do
  let x ← get
  if (x.icache s).ref < 1 then throw .ilock
  else if (x.icache s).valid then pure ()
  else if (dinode x.disk (x.icache s).inum).type = 0#16 then throw .noType
  else set (x.setEntry s
    { x.icache s with valid := true, ip := dinode x.disk (x.icache s).inum })

/-- `ialloc`. -/
def ialloc (type : BitVec 16) : Kern Fs FsPanic (Fin ninode) := do
  let x ← get
  match (List.range' 1 (ninodes - 1)).find? fun i => (dinode x.disk i).type = 0#16 with
  | some i =>
    set { x with disk := putDinode x.disk i (.empty type 0) }
    iget i
  | none => throw .noInodes

/-- The end of an inode: `itrunc(ip); ip->type = 0; iupdate(ip)`. -/
def freeInode : Kern Vol FsPanic Unit := do
  itrunc
  modify fun v => { v with ip := { v.ip with type := 0#16 } }
  iupdate

/-- `ip->ref--`. -/
def dropRef (s : Fin ninode) : Kern Fs FsPanic Unit :=
  modify fun x => x.setEntry s { x.icache s with ref := (x.icache s).ref - 1 }

/-- `iput`. -/
def iput (s : Fin ninode) : Kern Fs FsPanic Unit := do
  let x ← get
  if (x.icache s).valid ∧ (x.icache s).ip.nlink = 0#16 ∧ (x.icache s).ref = 1 then do
    onInode s freeInode
    modify fun x => x.setEntry s { x.icache s with valid := false }
    dropRef s
  else dropRef s

/-- `iupdate` after a change of `major`, `minor` and `nlink`, as `create`, `link` and
`unlink` make it. -/
def updateInode (major minor nlink : BitVec 16) : Kern Vol FsPanic Unit := do
  modify fun v => { v with ip := { v.ip with major := major, minor := minor, nlink := nlink } }
  iupdate

variable [Devsw]

/-- The operations on the cache. -/
inductive FsOp
  | ialloc (type : BitVec 16)
  | iget (i : Nat)
  | idup (s : Fin ninode)
  | ilock (s : Fin ninode)
  | readi (s : Fin ninode) (off n : Word)
  | writei (s : Fin ninode) (src : List Byte) (off : Word)
  | iupdate (s : Fin ninode) (major minor nlink : BitVec 16)
  | iput (s : Fin ninode)

def FsOp.exec : FsOp → Kern Fs FsPanic Unit
  | .ialloc type => do let _ ← Xv6.ialloc type
  | .iget i => do let _ ← Xv6.iget i
  | .idup s => Xv6.idup s
  | .ilock s => Xv6.ilock s
  | .readi s off n => do let _ ← onInode s (Vol.readi off n)
  | .writei s src off => do let _ ← onInode s (Vol.writei src off)
  | .iupdate s major minor nlink => onInode s (updateInode major minor nlink)
  | .iput s => Xv6.iput s

/-- When the file system's callers issue an operation: on entries that they hold a
reference to, and on their inodes once `ilock` has read them. -/
def FsOp.Issued (x : Fs) : FsOp → Prop
  | .ialloc type => type ≠ 0#16
  | .iget i => i < ninodes
  | .idup s | .ilock s | .iput s => 0 < (x.icache s).ref
  | .readi s _ _ | .iupdate s _ _ _ => 0 < (x.icache s).ref ∧ (x.icache s).valid = true
  | .writei s src _ => (0 < (x.icache s).ref ∧ (x.icache s).valid = true) ∧ src.length < 2 ^ 32

/-- An operation that returns. -/
def FsOp.Step (x : Fs) (op : FsOp) (y : Fs) : Prop :=
  op.Issued x ∧ op.exec.run x = .ok ((), y)

end

/-! ### What `iget` and `ilock` do -/

section
variable {x : Fs}

/-- There is an entry that `iget` can take for the inode. -/
def Fs.HasRoom (x : Fs) (i : Nat) : Prop :=
  (∃ s, 0 < (x.icache s).ref ∧ (x.icache s).inum = i) ∨ ∃ s, (x.icache s).ref = 0

/-- `iget` takes the entry of the inode, or the first free one. -/
theorem iget_cases (x : Fs) (i : Nat) : Ends (iget i) x (fun s y =>
    (0 < (x.icache s).ref ∧ (x.icache s).inum = i ∧
      y = x.setEntry s { x.icache s with ref := (x.icache s).ref + 1 }) ∨
    ((x.icache s).ref = 0 ∧ (∀ t, 0 < (x.icache t).ref → (x.icache t).inum ≠ i) ∧
      y = x.setEntry s ⟨1, i, false, (x.icache s).ip⟩))
    (fun e => e = .icacheFull ∧ ¬ x.HasRoom i) := by
  rw [iget, ends_bind, ends_get]
  cases hf : (List.finRange ninode).find? fun s =>
      0 < (x.icache s).ref ∧ (x.icache s).inum = i with
  | some s =>
    have hs : 0 < (x.icache s).ref ∧ (x.icache s).inum = i := by simpa using List.find?_some hf
    show Ends (_ >>= fun _ => pure _) _ _ _
    rw [ends_bind, ends_set, ends_pure]
    exact .inl ⟨hs.1, hs.2, rfl⟩
  | none =>
    have hnew : ∀ t, 0 < (x.icache t).ref → (x.icache t).inum ≠ i := by
      intro t ht he
      have := List.find?_eq_none.mp hf t (List.mem_finRange t)
      simp [ht, he] at this
    show Ends (match (List.finRange ninode).find? _ with | some s => _ | none => _) _ _ _
    cases hf' : (List.finRange ninode).find? fun s => (x.icache s).ref = 0 with
    | some s =>
      show Ends (_ >>= fun _ => pure _) _ _ _
      rw [ends_bind, ends_set, ends_pure]
      exact .inr ⟨by simpa using List.find?_some hf', hnew, rfl⟩
    | none =>
      refine (ends_throw ..).mpr ⟨rfl, ?_⟩
      rintro (⟨s, hs, hi⟩ | ⟨s, hs⟩)
      · exact hnew s hs hi
      · have := List.find?_eq_none.mp hf' s (List.mem_finRange s)
        simp [hs] at this

/-- `ilock` reads the inode in, if it is not yet valid. -/
theorem ilock_cases [Superblock] (x : Fs) (s : Fin ninode) : Ends (ilock s) x (fun _ y =>
    0 < (x.icache s).ref ∧
      (((x.icache s).valid = true ∧ y = x) ∨
        ((dinode x.disk (x.icache s).inum).type ≠ 0#16 ∧ y = x.setEntry s
          { x.icache s with valid := true, ip := dinode x.disk (x.icache s).inum })))
    (fun e => (e = .ilock ∧ (x.icache s).ref < 1) ∨
      (e = .noType ∧ (x.icache s).valid = false ∧
        (dinode x.disk (x.icache s).inum).type = 0#16)) := by
  rw [ilock, ends_bind, ends_get, ends_ite]
  refine ⟨fun hr => (ends_throw ..).mpr (.inl ⟨rfl, hr⟩), fun hr => ?_⟩
  have hpos : 0 < (x.icache s).ref := by omega
  rw [ends_ite]
  refine ⟨fun hv => .ret ⟨hpos, .inl ⟨hv, rfl⟩⟩, fun hv => ?_⟩
  rw [ends_ite]
  refine ⟨fun ht => (ends_throw ..).mpr (.inr ⟨rfl, by simpa using hv, ht⟩), fun ht => ?_⟩
  exact (ends_set ..).mpr ⟨hpos, .inr ⟨ht, rfl⟩⟩

end

/-! ### The invariant -/

section
variable [Superblock]

/-- Every data block is free or belongs to one place, and every file has blocks for its size
and no more. -/
structure Ownership (d : Disk) : Prop where
  owned : Owned (slots d (dinode d)) (InUse d)
  tidy : NoLeak (slots d (dinode d)) (InUse d)
  filled : ∀ {i bn}, i < ninodes → (dinode d i).type ≠ 0#16 →
    bn * bsize < (dinode d i).size.toNat → slots d (dinode d) (i, slotOf bn) ≠ none
  tight : ∀ {i bn}, i < ninodes → (dinode d i).type ≠ 0#16 →
    (dinode d i).size.toNat ≤ bn * bsize → slots d (dinode d) (i, slotOf bn) = none

/-- The blocks outside the data area are marked, as `mkfs` leaves them. -/
def Reserved (d : Disk) : Prop := ∀ b < datastart, bit d b = true

/-- The entries in use, as `iget` and `ilock` make them. -/
structure CacheOk (x : Fs) : Prop where
  ref : ∀ s, 0 ≤ (x.icache s).ref
  inum : ∀ {s}, 0 < (x.icache s).ref → (x.icache s).inum < ninodes
  unique : ∀ {s t}, 0 < (x.icache s).ref → 0 < (x.icache t).ref →
    (x.icache s).inum = (x.icache t).inum → s = t
  type : ∀ {s}, 0 < (x.icache s).ref → (x.icache s).valid = true → (x.icache s).ip.type ≠ 0#16

/-- The valid entries in use are what is on the disk. -/
def WrittenThrough (x : Fs) : Prop := ∀ s, 0 < (x.icache s).ref → (x.icache s).valid = true →
  (x.icache s).ip = dinode x.disk (x.icache s).inum

/-- All of it. -/
structure Fs.Ok (x : Fs) : Prop where
  own : Ownership x.disk
  reserved : Reserved x.disk
  cache : CacheOk x
  through : WrittenThrough x

theorem Fs.Ok.inv {x : Fs} (h : x.Ok) : FsInv x.disk := ⟨⟨h.own.owned, h.reserved⟩, h.own.filled⟩

/-! ### What the operations do to the disk -/

variable {d d' : Disk} {i : Nat}

/-- A write keeps the blocks of a file in step with its size. -/
theorem Ownership.written {off : Nat} {src : List Byte} (h : Ownership d)
    (hw : Written d d' i off src) : Ownership d' := by
  refine ⟨hw.inv.sound.owned, hw.tidy h.tidy, hw.inv.filled, fun {j bn} hj ht hle => ?_⟩
  by_contra hne
  by_cases hji : j = i
  · subst hji
    rw [hw.size] at hle
    have htype : (dinode d j).type ≠ 0#16 := by
      rw [hw.inode] at ht
      exact ht
    have hold := h.tight hj htype (show _ ≤ bn * bsize by omega)
    -- a new block is one of the blocks written
    obtain ⟨-, hk⟩ := hw.new hold hne
    obtain ⟨bm, hbm, hk⟩ := Finset.mem_biUnion.mp hk
    have hlt := (mem_touched.mp hbm).2.2.1
    rw [eq_of_mem_needs hk] at hle
    omega
  · rw [(hw.others hj hji).1] at ht hle
    have hold := h.tight hj ht hle
    exact hji (hw.new hold hne).1

theorem slots_putDinode {ip : Dinode} (hi : i < ninodes)
    (howned : Owned (slots d (update (dinode d) i ip)) (InUse d)) :
    slots (putDinode d i ip) (dinode (putDinode d i ip)) =
      slots d (update (dinode d) i ip) := by
  refine slots_congr (fun j _ => ?_) fun j b hb => putDinode_data hi (howned.used hb).1 _
  rw [dinode_putDinode, Function.update_apply]

theorem inUse_putDinode {ip : Dinode} (hi : i < ninodes) (c : Nat) :
    InUse (putDinode d i ip) c ↔ InUse d c :=
  and_congr_right fun _ => by rw [bit_putDinode hi]

theorem Reserved.putDinode {ip : Dinode} (h : Reserved d) (hi : i < ninodes) :
    Reserved (putDinode d i ip) := fun b hb => by rw [bit_putDinode hi, h b hb]

/-- An inode is written that has the places of the old one, and a size that fits them. -/
theorem Ownership.putDinode {ip : Dinode} (h : Ownership d) (hi : i < ninodes)
    (hslots : slots d (update (dinode d) i ip) = slots d (dinode d))
    (hsize : ip.type ≠ 0#16 → ∀ bn, bn * bsize < ip.size.toNat ↔
      slots d (dinode d) (i, slotOf bn) ≠ none) : Ownership (putDinode d i ip) := by
  have hs := slots_putDinode hi (hslots ▸ h.owned)
  rw [hslots] at hs
  have hdin := dinode_putDinode d i
  refine ⟨?_, ?_, fun {j bn} hj ht hbn => ?_, fun {j bn} hj ht hbn => ?_⟩
  · rw [hs]
    exact h.owned.congr fun c hc => (inUse_putDinode hi c).mpr hc
  · rw [hs]
    exact fun c hc => h.tidy c ((inUse_putDinode hi c).mp hc)
  · rw [hs]
    rw [hdin] at ht hbn
    by_cases hji : j = i
    · rw [if_pos hji] at ht hbn
      rw [hji]
      exact (hsize ht bn).mp hbn
    · rw [if_neg hji] at ht hbn
      exact h.filled hj ht hbn
  · rw [hs]
    rw [hdin] at ht hbn
    by_cases hji : j = i
    · rw [if_pos hji] at ht hbn
      rw [hji]
      exact not_not.mp fun hne => absurd ((hsize ht bn).mpr hne) (by omega)
    · rw [if_neg hji] at ht hbn
      exact h.tight hj ht hbn

theorem slots_update_empty (hfree : (dinode d i).type = 0#16) (type nlink : BitVec 16) :
    slots d (update (dinode d) i (.empty type nlink)) = slots d (dinode d) := by
  funext s
  obtain ⟨j, k⟩ := s
  by_cases hji : j = i
  · have hnone : slots d (dinode d) (i, k) = none := if_neg fun h => h.2.1 hfree
    rw [hji, hnone]
    refine if_neg fun h => h.2.2.2 ?_
    rw [Function.update_self]
    simp [Dinode.ref, Dinode.empty]
  · exact slots_ref (update_of_ne hji _ _) fun _ _ => rfl

/-- A free inode is taken: it has no blocks. -/
theorem Ownership.putEmpty (h : Ownership d) (hi : i < ninodes) (hfree : (dinode d i).type = 0#16)
    (type nlink : BitVec 16) : Ownership (Xv6.putDinode d i (.empty type nlink)) := by
  have hnone : ∀ k, slots d (dinode d) (i, k) = none := fun k => if_neg fun h => h.2.1 hfree
  refine h.putDinode hi (slots_update_empty hfree type nlink) fun _ bn => ?_
  simp [hnone, Dinode.empty]

theorem Ownership.alloc (h : Ownership d) (hi : i < ninodes) (hfree : (dinode d i).type = 0#16)
    (type : BitVec 16) : Ownership (Xv6.putDinode d i (.empty type 0)) :=
  h.putEmpty hi hfree type 0

theorem Ownership.update (h : Ownership d) (hi : i < ninodes) (ht : (dinode d i).type ≠ 0#16)
    {ip : Dinode} (htype : ip.type = (dinode d i).type) (hsize : ip.size = (dinode d i).size)
    (haddrs : ip.addrs = (dinode d i).addrs) : Ownership (Xv6.putDinode d i ip) := by
  refine h.putDinode hi (slots_fields htype haddrs) fun _ bn => ?_
  rw [hsize]
  refine ⟨h.filled hi ht, fun hne => ?_⟩
  by_contra hle
  exact hne (h.tight hi ht (by omega))

theorem freeInode_spec (h : Ownership d) (hr : Reserved d) (hi : i < ninodes)
    (ht : (dinode d i).type ≠ 0#16) : Ends freeInode (lock d i)
      (fun _ u => Ownership u.disk ∧ Reserved u.disk ∧ (dinode u.disk i).type = 0#16 ∧
        ∀ j < ninodes, j ≠ i → dinode u.disk j = dinode d j) := by
  have hinv : FsInv d := ⟨⟨h.owned, hr⟩, h.filled⟩
  have hok := hinv.lock hi ht
  rw [freeInode]
  refine (itrunc_spec hok).bind fun _ u hu => ?_
  obtain ⟨hinum, hip, hdin, hdata, howned, htidy, hres⟩ := hu
  rw [ends_bind, ends_modify, iupdate, ends_modify]
  rw [lock_ino] at howned htidy
  have hinum' : u.inum = i := hinum
  have hip' : { u.ip with type := 0#16 } = { (dinode d i).truncated with type := 0#16 } := by
    rw [hip]
    rfl
  simp only [hinum', hip']
  -- the places of the other inodes, as before
  have hslots : slots (putDinode u.disk i { (dinode d i).truncated with type := 0#16 })
      (dinode (putDinode u.disk i { (dinode d i).truncated with type := 0#16 })) =
      slotsBut d (dinode d) i := by
    funext s
    obtain ⟨j, k⟩ := s
    by_cases hji : j = i
    · rw [slotsBut, if_pos hji]
      refine if_neg fun h => h.2.1 ?_
      rw [dinode_putDinode, if_pos hji]
    · rw [slotsBut, if_neg hji]
      by_cases hj : j < ninodes
      · refine slots_ref ?_ fun hj ht => ref_congr hj ht fun b hb => ?_
        · rw [dinode_putDinode, if_neg hji, hdin j hj]
          exact update_of_ne hji _ _
        · have hb' := (h.owned.used hb).1
          rw [putDinode_data hi hb', hdata b hb']
          rfl
      · rw [slots, if_neg fun h => hj h.1, slots, if_neg fun h => hj h.1]
  have hothers : ∀ j < ninodes, j ≠ i →
      dinode (putDinode u.disk i { (dinode d i).truncated with type := 0#16 }) j = dinode d j := by
    intro j hj hji
    rw [dinode_putDinode, if_neg hji, hdin j hj]
    exact update_of_ne hji _ _
  have hlive : ∀ j, (dinode (putDinode u.disk i
      { (dinode d i).truncated with type := 0#16 }) j).type ≠ 0#16 → j ≠ i := by
    intro j hj hji
    rw [dinode_putDinode, if_pos hji] at hj
    exact hj rfl
  refine ⟨⟨?_, ?_, fun {j bn} hj ht' hbn => ?_, fun {j bn} hj ht' hbn => ?_⟩,
    Reserved.putDinode hres hi, by rw [dinode_putDinode, if_pos rfl], hothers⟩
  · rw [hslots]
    exact howned.congr fun c hc => (inUse_putDinode hi c).mpr hc
  · rw [hslots]
    refine fun c hc => htidy ?_ c ((inUse_putDinode hi c).mp hc)
    rw [Vol.Tidy, lock_slots]
    exact h.tidy
  · have hji := hlive j ht'
    rw [hothers j hj hji] at ht' hbn
    rw [hslots, slotsBut, if_neg hji]
    exact h.filled hj ht' hbn
  · have hji := hlive j ht'
    rw [hothers j hj hji] at ht' hbn
    rw [hslots, slotsBut, if_neg hji]
    exact h.tight hj ht' hbn

end

end Xv6
