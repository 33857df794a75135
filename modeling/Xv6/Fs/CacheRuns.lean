import Xv6.Fs.Icache
import Xv6.Lib.Reach

/-!
# Xv6.Fs.CacheRuns

Every operation on the inode cache keeps the invariant `Fs.Ok`, and so does every sequence
of them. An operation changes one entry, and the disk in what that entry is about
(`Fs.Ok.change`); that no other entry is about the same inode keeps the others what
is on the disk.

The invariant says more than that every block belongs to one place: the free map has to
have the blocks outside the data area marked too. `balloc` looks at all bits from block 0
on, so on an image that lacks them it hands out the boot block, and an address that is 0
means that there is none.
-/

namespace Xv6

open Function (update update_self update_of_ne)
open Superblock

section
/-! ### One entry -/

variable [Superblock] {d' : Disk} {x : Fs} {s : Fin ninode}

/-- One entry changes, and the disk in what that entry is about. -/
theorem Fs.Ok.change {e : IEntry} (h : x.Ok) (hown : Ownership d') (hres : Reserved d')
    (hd : ∀ t ≠ s, 0 < (x.icache t).ref → (x.icache t).valid = true →
      dinode d' (x.icache t).inum = dinode x.disk (x.icache t).inum)
    (href : 0 ≤ e.ref)
    (huse : 0 < e.ref → e.inum < ninodes ∧
      (∀ t ≠ s, 0 < (x.icache t).ref → (x.icache t).inum ≠ e.inum) ∧
      (e.valid = true → e.ip.type ≠ 0#16 ∧ e.ip = dinode d' e.inum)) :
    Fs.Ok ⟨d', update x.icache s e⟩ := by
  have hself : update x.icache s e s = e := Function.update_self ..
  have hother : ∀ {t}, t ≠ s → update x.icache s e t = x.icache t :=
    fun ht => update_of_ne ht _ _
  refine ⟨hown, hres, ⟨fun t => ?_, fun {t} ht => ?_, fun {t u} ht hu he => ?_,
    fun {t} ht hv => ?_⟩, fun t ht hv => ?_⟩
  · by_cases hts : t = s
    · simpa [hts] using href
    · simpa [hother hts] using h.cache.ref t
  · by_cases hts : t = s
    · subst hts
      simp only [hself] at ht ⊢
      exact (huse ht).1
    · simp only [hother hts] at ht ⊢
      exact h.cache.inum ht
  · by_cases hts : t = s <;> by_cases hus : u = s
    · rw [hts, hus]
    · subst hts
      simp only [hself, hother hus] at ht hu he
      exact absurd he.symm ((huse ht).2.1 u hus hu)
    · subst hus
      simp only [hself, hother hts] at ht hu he
      exact absurd he ((huse hu).2.1 t hts ht)
    · simp only [hother hts, hother hus] at ht hu he
      exact h.cache.unique ht hu he
  · by_cases hts : t = s
    · subst hts
      simp only [hself] at ht hv ⊢
      exact ((huse ht).2.2 hv).1
    · simp only [hother hts] at ht hv ⊢
      exact h.cache.type ht hv
  · by_cases hts : t = s
    · subst hts
      simp only [hself] at ht hv ⊢
      exact ((huse ht).2.2 hv).2
    · simp only [hother hts] at ht hv ⊢
      rw [hd t hts ht hv]
      exact h.through t ht hv

theorem Fs.Ok.setEntry {e : IEntry} (h : x.Ok) (href : 0 ≤ e.ref)
    (huse : 0 < e.ref → e.inum < ninodes ∧
      (∀ t ≠ s, 0 < (x.icache t).ref → (x.icache t).inum ≠ e.inum) ∧
      (e.valid = true → e.ip.type ≠ 0#16 ∧ e.ip = dinode x.disk e.inum)) :
    (x.setEntry s e).Ok :=
  h.change h.own h.reserved (fun _ _ _ _ => rfl) href huse

section
variable (h : x.Ok) (hs : 0 < (x.icache s).ref)
include h hs

/-- The entries of other inodes than that of an entry in use. -/
theorem Fs.Ok.inum_ne {t : Fin ninode} (hts : t ≠ s) (ht : 0 < (x.icache t).ref) :
    (x.icache t).inum ≠ (x.icache s).inum :=
  fun he => hts (h.cache.unique ht hs he)

theorem Fs.Ok.setRef {r : Int} (hr : 0 ≤ r) : (x.setEntry s { x.icache s with ref := r }).Ok :=
  h.setEntry hr fun _ => ⟨h.cache.inum hs, fun _ hts ht => h.inum_ne hs hts ht,
    fun hv => ⟨h.cache.type hs hv, h.through s hs hv⟩⟩

/-- The inode of an entry in use changes, in memory and on the disk. -/
theorem Fs.Ok.setInode (hown : Ownership d') (hres : Reserved d')
    (hd : ∀ j < ninodes, j ≠ (x.icache s).inum → dinode d' j = dinode x.disk j)
    (ht : (dinode d' (x.icache s).inum).type ≠ 0#16) :
    Fs.Ok ⟨d', update x.icache s { x.icache s with ip := dinode d' (x.icache s).inum }⟩ :=
  h.change hown hres (fun _ hts ht _ => hd _ (h.cache.inum ht) (h.inum_ne hs hts ht))
    (h.cache.ref s) fun _ => ⟨h.cache.inum hs, fun _ hts ht => h.inum_ne hs hts ht,
      fun _ => ⟨ht, rfl⟩⟩

/-- The inode of a valid entry in use, as `readi` and the others see it. -/
theorem Fs.Ok.volume (hv : (x.icache s).valid = true) :
    (⟨x.disk, (x.icache s).inum, (x.icache s).ip⟩ : Vol) = lock x.disk (x.icache s).inum ∧
      (x.icache s).inum < ninodes ∧ (dinode x.disk (x.icache s).inum).type ≠ 0#16 := by
  have hip := h.through s hs hv
  refine ⟨by rw [hip]; rfl, h.cache.inum hs, ?_⟩
  rw [← hip]
  exact h.cache.type hs hv

end

theorem iget_spec (h : x.Ok) {i : Nat} (hi : i < ninodes) :
    Ends (iget i) x (fun _ y => y.Ok ∧ y.disk = x.disk) (fun e => e = .icacheFull) := by
  refine (iget_cases x i).mono ?_ fun _ he => he.1
  rintro s _ (⟨hs, -, rfl⟩ | ⟨-, hnew, rfl⟩)
  · exact ⟨h.setRef hs (by omega), rfl⟩
  · exact ⟨h.setEntry Int.one_nonneg fun _ => ⟨hi, fun t _ ht => hnew t ht, nofun⟩, rfl⟩

theorem ialloc_spec (h : x.Ok) {type : BitVec 16} :
    Ends (ialloc type) x (fun _ y => y.Ok) (fun e => e = .noInodes ∨ e = .icacheFull) := by
  rw [ialloc, ends_bind, ends_get]
  cases hf : (List.range' 1 (ninodes - 1)).find? fun i => (dinode x.disk i).type = 0#16 with
  | none => exact (ends_throw ..).mpr (.inl rfl)
  | some i =>
    have hi : i < ninodes := by
      have := List.mem_range'_1.mp (List.mem_of_find?_eq_some hf)
      omega
    have hfree : (dinode x.disk i).type = 0#16 := by simpa using List.find?_some hf
    -- a valid entry in use is about another inode, since its own is allocated
    have hy : Fs.Ok ⟨putDinode x.disk i (.empty type 0), x.icache⟩ := by
      have hne : ∀ t, 0 < (x.icache t).ref → (x.icache t).valid = true →
          (x.icache t).inum ≠ i := by
        intro t ht hv he
        have := h.cache.type ht hv
        rw [h.through t ht hv, he] at this
        exact this hfree
      refine ⟨h.own.alloc hi hfree type, h.reserved.putDinode hi, ⟨h.cache.ref, h.cache.inum,
        h.cache.unique, h.cache.type⟩, fun t ht hv => ?_⟩
      show _ = dinode (putDinode x.disk i (.empty type 0)) _
      rw [dinode_putDinode, if_neg (hne t ht hv)]
      exact h.through t ht hv
    show Ends (_ >>= fun _ => iget i) _ _ _
    rw [ends_bind, ends_set]
    exact (iget_spec hy hi).mono (fun _ _ hy => hy.1) fun _ he => .inr he

omit [Superblock] in
theorem Fs.setEntry_self (x : Fs) (s : Fin ninode) (e : IEntry) :
    (x.setEntry s e).icache s = e := update_self ..

/-- What a call leaves of an entry of the cache. -/
def SameEntry (x y : Fs) (s : Fin ninode) : Prop :=
  (y.icache s).ref = (x.icache s).ref ∧ (y.icache s).inum = (x.icache s).inum

theorem ilock_spec (h : x.Ok) (hs : 0 < (x.icache s).ref) :
    Ends (ilock s) x (fun _ y => y.Ok ∧ y.disk = x.disk ∧ SameEntry x y s ∧
      (y.icache s).valid = true)
      (fun e => e = .noType ∧ (dinode x.disk (x.icache s).inum).type = 0#16) := by
  refine (ilock_cases x s).mono ?_ ?_
  · rintro _ _ ⟨-, ⟨hv, rfl⟩ | ⟨ht, rfl⟩⟩
    · exact ⟨h, rfl, ⟨rfl, rfl⟩, hv⟩
    · refine ⟨h.setEntry (h.cache.ref s) fun _ => ⟨h.cache.inum hs,
        fun _ hts ht => h.inum_ne hs hts ht, fun _ => ⟨ht, rfl⟩⟩, rfl, ?_, ?_⟩
      · rw [SameEntry, x.setEntry_self]
        exact ⟨rfl, rfl⟩
      · rw [x.setEntry_self]
  · rintro _ (⟨-, hr⟩ | ⟨he, -, ht⟩)
    · omega
    · exact ⟨he, ht⟩

/-- The last reference to an inode without links frees it. -/
theorem iput_spec (h : x.Ok) (hs : 0 < (x.icache s).ref) :
    Ends (iput s) x (fun _ y => y.Ok ∧ ((x.icache s).valid = true →
      (x.icache s).ip.nlink = 0#16 → (x.icache s).ref = 1 →
        (dinode y.disk (x.icache s).inum).type = 0#16)) := by
  have hdrop : (x.setEntry s { x.icache s with ref := (x.icache s).ref - 1 }).Ok :=
    h.setRef hs (by omega)
  rw [iput, ends_bind, ends_get, ends_ite]
  refine ⟨fun hlast => ?_, fun hmore => (ends_modify ..).mpr ⟨hdrop, fun hv hn hr =>
    absurd ⟨hv, hn, hr⟩ hmore⟩⟩
  obtain ⟨hv, -, hr⟩ := hlast
  obtain ⟨hvol, hi, ht⟩ := h.volume hs hv
  rw [ends_bind, onInode, ends_focus, hvol]
  refine (freeInode_spec h.own h.reserved hi ht).imp fun _ u hu => ?_
  obtain ⟨hown, hres, hfree, hd⟩ := hu
  rw [ends_bind, ends_modify, dropRef, ends_modify]
  refine ⟨?_, fun _ _ _ => hfree⟩
  -- the entry is free, whatever it holds
  have := h.change (s := s) (e := ⟨0, (x.icache s).inum, false, u.ip⟩) hown hres
    (fun _ hts ht _ => hd _ (h.cache.inum ht) (h.inum_ne hs hts ht)) le_rfl nofun
  simpa [Fs.setEntry, hr] using this

theorem updateInode_spec (h : x.Ok) (hs : 0 < (x.icache s).ref) (hv : (x.icache s).valid = true)
    (major minor nlink : BitVec 16) : Ends (onInode s (updateInode major minor nlink)) x
      (fun _ y => y.Ok ∧ y.icache s = { x.icache s with
        ip := { (x.icache s).ip with major := major, minor := minor, nlink := nlink } }) := by
  obtain ⟨hvol, hi, ht⟩ := h.volume hs hv
  rw [onInode, ends_focus, hvol, updateInode, ends_bind, ends_modify, iupdate, ends_modify]
  have hself : ∀ ip, dinode (putDinode x.disk (x.icache s).inum ip) (x.icache s).inum = ip :=
    fun ip => by rw [dinode_putDinode, if_pos rfl]
  have := h.setInode hs (show Ownership (putDinode x.disk (x.icache s).inum
      { dinode x.disk (x.icache s).inum with major := major, minor := minor, nlink := nlink })
    from h.own.update hi ht rfl rfl rfl) (h.reserved.putDinode hi)
    (fun j _ hj => by rw [dinode_putDinode, if_neg hj]) (by rw [hself]; exact ht)
  rw [hself] at this
  refine ⟨this, ?_⟩
  rw [h.through s hs hv]
  exact update_self ..

end

section
variable [Superblock] [Devsw] {x : Fs} {s : Fin ninode}

theorem readi_dev {v : Vol} (hdev : v.ip.type = tDev) (off n : Word) :
    Ends (Vol.readi off n) v (fun _ v' => v' = v) := by
  rw [Vol.readi, ends_bind, ends_get, if_pos hdev]
  refine .guard (fun _ => rfl) fun _ => ?_
  cases Devsw.read v.ip.major.toNat with
  | none => exact .ret rfl
  | some read => exact .ret rfl

theorem writei_dev {v : Vol} (hdev : v.ip.type = tDev) (src : List Byte) (off : Word) :
    Ends (Vol.writei src off) v (fun _ v' => v' = v) := by
  rw [Vol.writei, ends_bind, ends_get]
  show Ends (if _ then _ else _) _ _ _
  rw [if_pos hdev]
  refine .guard (fun _ => rfl) fun _ => ?_
  cases Devsw.write v.ip.major.toNat with
  | none => exact .ret rfl
  | some write => exact .ret rfl

omit [Superblock] [Devsw] in
theorem Fs.same_entry (x : Fs) (s : Fin ninode) :
    (⟨x.disk, update x.icache s { x.icache s with ip := (x.icache s).ip }⟩ : Fs) = x := by
  cases x
  simp

theorem readi_same (h : x.Ok) (hs : 0 < (x.icache s).ref) (hv : (x.icache s).valid = true)
    (off n : Word) : Ends (onInode s (Vol.readi off n)) x (fun _ y => y = x) := by
  obtain ⟨hvol, hi, ht⟩ := h.volume hs hv
  rw [onInode, ends_focus]
  have hsame : Ends (Vol.readi off n) ⟨x.disk, (x.icache s).inum, (x.icache s).ip⟩
      (fun _ v' => v' = ⟨x.disk, (x.icache s).inum, (x.icache s).ip⟩) := by
    rw [hvol]
    by_cases hdev : (dinode x.disk (x.icache s).inum).type = tDev
    · exact readi_dev hdev off n
    · exact (readi_spec h.inv hi ht hdev off n).imp fun _ _ hr => hr.1
  refine hsame.imp fun _ v' hv' => ?_
  rw [hv']
  exact x.same_entry s

theorem writei_keeps (h : x.Ok) (hs : 0 < (x.icache s).ref) (hv : (x.icache s).valid = true)
    {src : List Byte} (hlen : src.length < 2 ^ 32) (off : Word) :
    Ends (onInode s (Vol.writei src off)) x (fun _ y => y.Ok) (fun e => e = .outOfBlocks) := by
  obtain ⟨hvol, hi, ht⟩ := h.volume hs hv
  have hip := h.through s hs hv
  rw [onInode, ends_focus, hvol]
  have hsame : (⟨x.disk, update x.icache s
      { x.icache s with ip := dinode x.disk (x.icache s).inum }⟩ : Fs).Ok := by
    rw [← hip, x.same_entry s]
    exact h
  by_cases hdev : (dinode x.disk (x.icache s).inum).type = tDev
  · refine (writei_dev hdev src off).of_safe fun _ v' hv' => ?_
    rw [hv']
    exact hsame
  · refine (writei_spec h.inv hi ht hdev hlen off).mono (fun _ v' hpost => ?_) fun _ he => he.1
    by_cases hbad : Refused (dinode x.disk (x.icache s).inum).size.toNat off.toNat src.length
    · obtain ⟨-, rfl⟩ := hpost.1 hbad
      exact hsame
    · obtain ⟨-, hv', hw⟩ := hpost.2 hbad
      have hip' : v'.ip = dinode v'.disk (x.icache s).inum := congrArg Vol.ip hv'
      rw [hip']
      refine h.setInode hs (h.own.written hw) hw.inv.sound.reserved
        (fun j hj hji => (hw.others hj hji).1) ?_
      rw [hw.inode]
      exact ht

/-- A write is refused, or there are no blocks for it. -/
def NoRoom (d : Disk) (i off n : Nat) : Prop :=
  Refused (dinode d i).size.toNat off n ∨ ¬ (lock d i).Enough (rangeNeeds off n)

/-- A write at the end of a file appends to it. -/
theorem writei_appends (h : x.Ok) (hs : 0 < (x.icache s).ref) (hv : (x.icache s).valid = true)
    (hdev : (dinode x.disk (x.icache s).inum).type ≠ tDev) {src : List Byte}
    (hlen : src.length < 2 ^ 32) (off : Word) :
    Ends (onInode s (Vol.writei src off)) x
      (fun r y => (¬ NoRoom x.disk (x.icache s).inum off.toNat src.length → r = src.length) ∧
        (r = src.length → y.Ok ∧ SameEntry x y s ∧ (y.icache s).valid = true ∧
          off.toNat + src.length < 2 ^ 32 ∧ Written x.disk y.disk (x.icache s).inum off.toNat src))
      (fun _ => NoRoom x.disk (x.icache s).inum off.toNat src.length) := by
  obtain ⟨hvol, hi, ht⟩ := h.volume hs hv
  have hwrite : Ends (onInode s (Vol.writei src off)) x
      (fun r y => (¬ NoRoom x.disk (x.icache s).inum off.toNat src.length → r = src.length) ∧
        (r = src.length → SameEntry x y s ∧ (y.icache s).valid = true ∧
          off.toNat + src.length < 2 ^ 32 ∧ Written x.disk y.disk (x.icache s).inum off.toNat src))
      (fun _ => NoRoom x.disk (x.icache s).inum off.toNat src.length) := by
    rw [onInode, ends_focus, hvol]
    refine (writei_spec h.inv hi ht hdev hlen off).mono (fun r v' hpost => ?_)
      fun _ he => .inr he.2.2
    by_cases hbad : Refused (dinode x.disk (x.icache s).inum).size.toNat off.toNat src.length
    · have hr := (hpost.1 hbad).1
      exact ⟨fun hroom => absurd (.inl hbad) hroom, fun hr' => by omega⟩
    · obtain ⟨hr, -, hw⟩ := hpost.2 hbad
      have hfit : off.toNat + src.length < 2 ^ 32 := by
        unfold Refused at hbad
        omega
      refine ⟨fun _ => hr, fun _ => ⟨?_, ?_, hfit, hw⟩⟩
      · rw [SameEntry]
        dsimp only
        rw [update_self]
        exact ⟨rfl, rfl⟩
      · dsimp only
        rw [update_self]
        exact hv
  exact ((writei_keeps h hs hv hlen off).and hwrite).mono
    (fun _ _ hy => ⟨hy.2.1, fun hr => ⟨hy.1, hy.2.2 hr⟩⟩) fun _ he => he.2

/-- Every operation keeps the invariant, and none of them frees a block that is free. -/
theorem FsOp.exec_spec (op : FsOp) (h : x.Ok) (hop : op.Issued x) :
    Ends op.exec x (fun _ y => y.Ok) (fun e => e ≠ .freeingFree) := by
  cases op with
  | ialloc type =>
    rw [exec, ends_bind]
    exact (ialloc_spec h).mono (fun _ _ hy => .ret hy) fun _ he => by
      rcases he with rfl | rfl <;> nofun
  | iget i =>
    rw [exec, ends_bind]
    exact (iget_spec h hop).mono (fun _ _ hy => .ret hy.1) fun _ he => by rw [he]; nofun
  | idup s =>
    have hs : 0 < (x.icache s).ref := hop
    exact (ends_modify ..).mpr (h.setRef hs (by omega))
  | ilock s =>
    exact (ilock_spec h hop).mono (fun _ _ hy => hy.1) fun _ he => by rw [he.1]; nofun
  | readi s off n =>
    rw [exec, ends_bind]
    exact (readi_same h hop.1 hop.2 off n).of_safe fun _ _ hy => .ret (hy ▸ h)
  | writei s src off =>
    rw [exec, ends_bind]
    exact (writei_keeps h hop.1.1 hop.1.2 hop.2 off).mono (fun _ _ hy => .ret hy)
      fun _ he => by rw [he]; nofun
  | iupdate s major minor nlink =>
    exact (updateInode_spec h hop.1 hop.2 major minor nlink).of_safe fun _ _ hy => hy.1
  | iput s => exact (iput_spec h hop).of_safe fun _ _ hy => hy.1

/-- A file gets a block, loses its last link, and goes with its last reference. -/
theorem write_unlink_put (h : x.Ok) (hr : (x.icache s).ref = 1) (hv : (x.icache s).valid = true)
    (hdev : (dinode x.disk (x.icache s).inum).type ≠ tDev) (b : Byte)
    (hroom : ¬ NoRoom x.disk (x.icache s).inum 0 1) :
    ∃ y z, FsOp.Step x (.writei s [b] 0) y ∧
      slots y.disk (dinode y.disk) ((x.icache s).inum, 0) ≠ none ∧
      Trace FsOp.Step y [.iupdate s 0 0 0, .iput s] z ∧
      (dinode z.disk (x.icache s).inum).type = 0#16 := by
  have hs : 0 < (x.icache s).ref := by omega
  obtain ⟨r, y, hw, hlen, hy⟩ := ((writei_appends h hs hv hdev
    (show [b].length < 2 ^ 32 by simp) 0).mono (fun _ _ hy => hy) fun _ he => hroom he).exists_ok
  obtain ⟨hoky, ⟨hrefy, hinumy⟩, hvy, -, hwr⟩ := hy (hlen hroom)
  have hsy : 0 < (y.icache s).ref := hrefy ▸ hs
  obtain ⟨_, z, hz, hokz, hentry⟩ := (updateInode_spec hoky hsy hvy 0 0 0).exists_ok
  have hsz : 0 < (z.icache s).ref := by
    rw [hentry]
    exact hsy
  obtain ⟨_, w, hput, -, hfree⟩ := (iput_spec hokz hsz).exists_ok
  refine ⟨y, w, ⟨⟨⟨hs, hv⟩, show 1 < 2 ^ 32 by decide⟩, run_discard hw⟩, ?_,
    .cons ⟨⟨hsy, hvy⟩, hz⟩ (.cons ⟨hsz, hput⟩ (.nil _)), ?_⟩
  · refine hwr.inv.filled (h.cache.inum hs) ?_ (?_ : 0 * bsize < _)
    · rw [hwr.inode]
      exact (h.volume hs hv).2.2
    · rw [hwr.size, Nat.zero_mul]
      exact Nat.lt_of_lt_of_le Nat.one_pos (Nat.le_max_right ..)
  · rw [hentry, hinumy] at hfree
    exact hfree hvy rfl (hrefy.trans hr)

theorem FsOp.run_ok {ops : List FsOp} {y : Fs} (hrun : Trace FsOp.Step x ops y) :
    x.Ok → y.Ok := by
  induction hrun with
  | nil x => exact id
  | cons hs _ ih => exact fun h => ih (((_ : FsOp).exec_spec h hs.1).of_ok hs.2)

/-- Whatever the callers do, each block belongs to one place or is free, the files have
blocks for their size and no more, and the cache is what is on the disk. So `bfree` never
finds a free block, and `readi` changes nothing. -/
theorem ownership_kept {ops : List FsOp} {y : Fs} (h : x.Ok)
    (hrun : Trace FsOp.Step x ops y) :
    Ownership y.disk ∧ WrittenThrough y ∧
      (∀ op : FsOp, op.Issued y → op.exec.run y ≠ .error .freeingFree) ∧
      ∀ s, 0 < (y.icache s).ref → (y.icache s).valid = true → ∀ off n,
        ∃ r, (onInode s (Vol.readi off n)).run y = .ok (r, y) := by
  have hy := FsOp.run_ok hrun h
  refine ⟨hy.own, hy.through, fun op hop herr => ?_, fun s hs hv off n => ?_⟩
  · exact (op.exec_spec hy hop).of_error herr rfl
  · obtain ⟨r, z, hz, rfl⟩ := (readi_same hy hs hv off n).exists_ok
    exact ⟨r, hz⟩

end

/-! ### Images with and without their marks -/

section
variable [Superblock]

def firstEntry : Fin ninode := ⟨0, by decide⟩

/-- A cache with one entry in use, which `ilock` has filled. -/
def oneEntry (d : Disk) (i : Nat) : Fs :=
  ⟨d, update (fun _ => ⟨0, 0, false, .empty 0 0⟩) firstEntry ⟨1, i, true, dinode d i⟩⟩

theorem oneEntry_first (d : Disk) (i : Nat) :
    (oneEntry d i).icache firstEntry = ⟨1, i, true, dinode d i⟩ := by
  simp [oneEntry]

theorem oneEntry_cache {d : Disk} {i : Nat} (hi : i < ninodes) (ht : (dinode d i).type ≠ 0#16) :
    CacheOk (oneEntry d i) ∧ WrittenThrough (oneEntry d i) := by
  have hfree : ∀ {s}, s ≠ firstEntry → (oneEntry d i).icache s = ⟨0, 0, false, .empty 0 0⟩ :=
    fun hs => by simp [oneEntry, update_of_ne hs]
  have huse : ∀ {s}, 0 < ((oneEntry d i).icache s).ref → s = firstEntry := by
    intro s hs
    by_contra hne
    rw [hfree hne] at hs
    exact absurd hs (by simp)
  refine ⟨⟨fun s => ?_, fun hs => ?_, fun hs ht _ => (huse hs).trans (huse ht).symm,
    fun hs _ => ?_⟩, fun s hs _ => ?_⟩
  · by_cases hs : s = firstEntry
    · rw [hs, oneEntry_first]
      exact Int.one_nonneg
    · rw [hfree hs]
  · rw [huse hs, oneEntry_first]
    exact hi
  · rw [huse hs, oneEntry_first]
    exact ht
  · rw [huse hs, oneEntry_first]
    rfl

/-- No inode has blocks, and no data block is marked. -/
theorem Ownership.of_empty {d : Disk} (hslots : ∀ s, slots d (dinode d) s = none)
    (hsize : ∀ i < ninodes, (dinode d i).size = 0#32)
    (hbits : ∀ b, IsData b → bit d b = false) : Ownership d where
  owned := ⟨fun {s _ _} hs => absurd ((hslots s).symm.trans hs) nofun,
    fun {s _} hs => absurd ((hslots s).symm.trans hs) nofun⟩
  tidy b hb := absurd ((hbits b hb.1).symm.trans hb.2) nofun
  filled hi _ hbn := by
    rw [hsize _ hi] at hbn
    exact absurd hbn (by simp)
  tight _ _ _ := hslots _

end

theorem size_oneFile (type : BitVec 16) :
    let _ : Superblock := Superblock.mkfs
    ∀ i < ninodes, (dinode (oneFile type) i).size = 0#32 := by
  intro _ i hi
  rw [dinode_oneFile type hi]
  split <;> rfl

theorem oneFile_ownership (type : BitVec 16) :
    let _ : Superblock := Superblock.mkfs
    Ownership (oneFile type) := by
  intro _
  refine .of_empty (slots_oneFile type) (size_oneFile type) fun b hb => ?_
  have hbits : ∀ b, 59 ≤ b → testBit (oneFile 0 58) b = false := by
    intro b hb
    by_cases hlt : b < 64
    · have : ∀ b < 64, 59 ≤ b → testBit (oneFile 0 58) b = false := by decide +kernel
      exact this b hlt hb
    · have h0 : b / 8 / 4 ≠ 0 := by omega
      have h1 : b / 8 / 4 ≠ 1 := by omega
      simp [testBit_eq, getByte, oneFile, h0, h1, wordByte]
  have hlt : b < 3000 := hb.2
  have hge : datastart ≤ b := hb.1
  have hstart : datastart = 59 := by decide
  have hblock : b / bpb + 58 = 58 := by unfold bpb; omega
  have hmod : b % bpb = b := by unfold bpb; omega
  show testBit (oneFile type (b / bpb + 58)) (b % bpb) = false
  rw [hblock, hmod]
  exact hbits b (hstart ▸ hge)

theorem oneFile_ok {type : BitVec 16} (ht : type ≠ 0#16) :
    let _ : Superblock := Superblock.mkfs
    (oneEntry (oneFile type) 1).Ok := by
  intro _
  have hcache := oneEntry_cache (d := oneFile type) (i := 1) (by decide)
    (by rw [dinode_oneFile type (by decide)]; exact ht)
  exact ⟨oneFile_ownership type, (oneFile_inv type).sound.reserved, hcache.1, hcache.2⟩

theorem oneFile_room :
    let _ : Superblock := Superblock.mkfs
    ∀ n ≤ 3, ¬ NoRoom (oneFile tFile) 1 0 n := by
  intro _ n hn
  have hip : dinode (oneFile tFile) 1 = .empty tFile 1 := dinode_oneFile tFile (by decide)
  rintro (hbad | hno)
  · rw [hip] at hbad
    interval_cases n <;> exact absurd hbad (by decide)
  · refine hno (oneFile_enough tFile ?_)
    interval_cases n <;> decide

/-- The file is written to, and then freed with its block. -/
theorem ownership_kept_freed :
    let _ : Superblock := Superblock.mkfs
    let _ : Devsw := Devsw.none
    ∃ x y, FsOp.Step (oneEntry (oneFile tFile) 1) (.writei firstEntry [97] 0) x ∧
      slots x.disk (dinode x.disk) (1, 0) ≠ none ∧ Ownership x.disk ∧
      Trace FsOp.Step x [.iupdate firstEntry 0 0 0, .iput firstEntry] y ∧
      (dinode y.disk 1).type = 0#16 ∧ Ownership y.disk := by
  intro _ _
  have hok : (oneEntry (oneFile tFile) 1).Ok := oneFile_ok (by decide)
  have hfirst := oneEntry_first (oneFile tFile) 1
  have hip : dinode (oneFile tFile) 1 = .empty tFile 1 := dinode_oneFile tFile (by decide)
  have hrun := write_unlink_put (s := firstEntry) hok (by rw [hfirst]) (by rw [hfirst])
    (by rw [hfirst]; exact hip ▸ by decide) 97 (by rw [hfirst]; exact oneFile_room 1 (by decide))
  rw [hfirst] at hrun
  obtain ⟨x, y, hwrite, hslot, hrest, hfree⟩ := hrun
  exact ⟨x, y, hwrite, hslot, (ownership_kept hok (.cons hwrite (.nil _))).1, hrest, hfree,
    (ownership_kept hok (.cons hwrite hrest)).1⟩

/-- The same image with an empty free map. -/
def unmarked : Disk := update (oneFile tFile) 58 fun _ => 0#32

theorem dinode_unmarked {i : Nat} (hi : i < 200) :
    let _ : Superblock := Superblock.mkfs
    dinode unmarked i = dinode (oneFile tFile) i := by
  intro _
  exact dinode_bmap (b := 0) hi _

theorem unmarked_first :
    let _ : Superblock := Superblock.mkfs
    dinode unmarked 1 = .empty tFile 1 := by
  intro _
  rw [dinode_unmarked (by decide), dinode_oneFile tFile (by decide)]
  rfl

/-- Where the bit of block 0 is clear, one byte into an empty file: `balloc` returns 0. -/
theorem writei_block_zero [Superblock] [Devsw] {d : Disk} {i : Nat}
    (hip : dinode d i = .empty tFile 1) (hbit : bit d 0 = false) :
    Ends (Vol.writei [97] 0) (lock d i) (fun r v => (r = 1 ∧ v = lock v.disk i) ∧
      dinode v.disk i = { Dinode.empty tFile 1 with size := 1 }) := by
  have hlock : lock d i = ⟨d, i, .empty tFile 1⟩ := by rw [lock, hip]
  have hfind : (List.range size).find? (fun b => !bit d b) = some 0 := by
    have hpos : 0 < size := Nat.lt_of_lt_of_le datastart_pos (Nat.sub_le _ _)
    obtain ⟨n, hn⟩ := Nat.exists_eq_succ_of_ne_zero (Nat.pos_iff_ne_zero.mp hpos)
    rw [hn, List.range_succ_eq_map, List.find?_cons_of_pos (by simp [hbit])]
  rw [hlock, Vol.writei, ends_bind, ends_get]
  have htype : ¬ (Dinode.empty tFile 1).type = tDev := by decide
  have hoff : ¬ ((Dinode.empty tFile 1).size < 0 ∨
      0 + BitVec.ofNat 32 [(97 : Byte)].length < (0 : Word)) := by decide
  show Ends (if (Dinode.empty tFile 1).type = tDev then _ else
    if (Dinode.empty tFile 1).size < 0 ∨ _ then _ else if _ then _ else _) _ _ _
  have hgrow : 0#32 < BitVec.ofNat 32 [(97 : Byte)].length ∧
      (Dinode.empty tFile 1).size < BitVec.ofNat 32 [(97 : Byte)].length := by decide
  rw [if_neg htype, if_neg hoff, if_neg (by decide), ends_bind, writeLoop,
    if_neg (by decide), ends_bind, bmap, dif_pos (by decide), loadAddr, ends_bind, ends_get,
    if_pos (by rfl), ends_bind, ends_balloc (v := ⟨d, i, .empty tFile 1⟩) hfind]
  -- the address 0 is no address
  rw [ends_bind, setAddr, ends_modify, ends_pure, ends_bind, ends_modify, writeLoop,
    if_pos (by rfl), ends_pure, ends_bind, extend, ends_bind, ends_get, if_pos (by exact hgrow),
    ends_bind, ends_modify, iupdate, ends_modify, ends_pure]
  refine ⟨⟨rfl, by rw [lock, dinode_putDinode, if_pos rfl]⟩, ?_⟩
  rw [dinode_putDinode, if_pos rfl]
  refine Dinode.ext rfl rfl rfl rfl rfl (funext fun k => ?_)
  show update (fun _ => 0#32) _ (BitVec.ofNat 32 0) k = 0#32
  simp

theorem unmarked_ownership :
    let _ : Superblock := Superblock.mkfs
    Ownership unmarked := by
  intro _
  have hslots : ∀ s, slots unmarked (dinode unmarked) s = none := by
    intro s
    have hsame : slots unmarked (dinode unmarked) =
        slots (oneFile tFile) (dinode (oneFile tFile)) := by
      refine slots_congr (fun i hi => dinode_unmarked hi) fun i b hs => ?_
      exact absurd (hs.symm.trans (slots_oneFile tFile _)) nofun
    rw [hsame]
    exact slots_oneFile tFile s
  refine .of_empty hslots (fun i hi => ?_) fun b hb => ?_
  · rw [dinode_unmarked hi]
    exact size_oneFile tFile i hi
  · have hlt : b < 3000 := hb.2
    have hblock : b / bpb + 58 = 58 := by unfold bpb; omega
    show testBit (unmarked (b / bpb + 58)) (b % bpb) = false
    rw [hblock]
    simp [unmarked, testBit_eq, getByte, wordByte]

/-- Where block 0 is not marked, a write to a file leaves a block of it without an address. -/
theorem unmarked_write_loses :
    let _ : Superblock := Superblock.mkfs
    let _ : Devsw := Devsw.none
    ∃ x y, Ownership x.disk ∧ CacheOk x ∧ WrittenThrough x ∧
      FsOp.Step x (.writei firstEntry [97] 0) y ∧ ¬ Ownership y.disk := by
  intro _ _
  have hip := unmarked_first
  have hcache := oneEntry_cache (d := unmarked) (i := 1) (by decide) (by rw [hip]; decide)
  have hwrite : Ends (FsOp.exec (.writei firstEntry [97] 0)) (oneEntry unmarked 1)
      (fun _ y => dinode y.disk 1 = { Dinode.empty tFile 1 with size := 1 }) := by
    rw [FsOp.exec, ends_bind, onInode, ends_focus, oneEntry_first]
    exact (writei_block_zero hip (by decide)).imp fun _ v hv => .ret hv.2
  obtain ⟨_, y, hy, hdin⟩ := hwrite.exists_ok
  refine ⟨_, y, unmarked_ownership, hcache.1, hcache.2, ⟨⟨?_, by decide⟩, hy⟩, fun h => ?_⟩
  · rw [oneEntry_first]
    exact ⟨Int.one_pos, rfl⟩
  · refine h.filled (i := 1) (by decide) (by rw [hdin]; decide)
      (show 0 * bsize < _ by rw [hdin]; decide) ?_
    have hnone : ∀ z, (Dinode.ref z { Dinode.empty tFile 1 with size := 1 } (slotOf 0)) = 0#32 :=
      fun _ => rfl
    rw [slots, if_neg]
    intro hslot
    rw [hdin] at hslot
    exact hslot.2.2.2 (hnone _)

/-- `readi` of a byte that has no block takes a new one, and finds a zero in it. -/
theorem readi_no_address [Superblock] [Devsw] {d : Disk} {i : Nat}
    (hip : dinode d i = { Dinode.empty tFile 1 with size := 1 }) :
    Ends (Vol.readi 0 1) (lock d i) (fun r _ => r = some [0]) (fun _ => True) := by
  have hlock : lock d i = ⟨d, i, { Dinode.empty tFile 1 with size := 1 }⟩ := by rw [lock, hip]
  rw [hlock, Vol.readi, ends_bind, ends_get, if_neg (by show ¬ tFile = tDev; decide),
    if_neg (by show ¬ (1#32 < 0 ∨ _); decide)]
  show Ends (readLoop 0 1 >>= _) _ _ _
  rw [ends_bind, readLoop, if_neg (by decide), ends_bind, bmap, dif_pos (by decide), loadAddr,
    ends_bind, ends_get, if_pos (by rfl), ends_bind]
  cases hf : (List.range size).find? fun b => !bit d b with
  | none =>
    rw [balloc, ends_bind, ends_get, hf]
    exact (ends_throw ..).mpr trivial
  | some b =>
    have hb : b < 2 ^ 32 :=
      (List.mem_range.mp (List.mem_of_find?_eq_some hf)).trans Superblock.size_lt
    rw [ends_balloc (v := ⟨d, i, _⟩) hf, ends_bind, setAddr, ends_modify, ends_pure, ends_bind,
      ends_get, ends_bind, readLoop, if_pos (by decide), ends_pure, ends_pure, ends_pure]
    dsimp only
    rw [BitVec.toNat_ofNat, Nat.mod_eq_of_lt hb, grab, update_self]
    rfl

/-- The byte is not read back. -/
theorem unmarked_read_differs :
    let _ : Superblock := Superblock.mkfs
    let _ : Devsw := Devsw.none
    Ownership unmarked ∧ IsFile unmarked 1 ∧ content unmarked 1 = [] ∧
      (lock unmarked 1).Enough (rangeNeeds 0 1) ∧
      ∃ d', (Vol.writei [97] 0).run (lock unmarked 1) = .ok (1, lock d' 1) ∧
        ∀ v, (Vol.readi 0 1).run (lock d' 1) ≠ .ok (some [97], v) := by
  intro _ _
  have hip := unmarked_first
  obtain ⟨r, v, hrun, ⟨rfl, hv⟩, hdin⟩ := (writei_block_zero hip (by decide)).exists_ok
  refine ⟨unmarked_ownership, ⟨by decide, ?_, ?_⟩, ?_, enough_of_free (b := 0) (by decide)
    (by decide) (by decide), v.disk, by rw [hrun, ← hv], fun u hu => ?_⟩
  · rw [hip]
    decide
  · rw [hip]
    decide
  · apply List.eq_nil_of_length_eq_zero
    rw [length_content, hip]
    rfl
  · exact absurd ((readi_no_address hdin).of_ok hu) (by decide)

end Xv6
