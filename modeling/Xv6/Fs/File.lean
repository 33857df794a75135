import Xv6.Fs.Content
import Xv6.Lib.Reach

/-!
# Xv6.Fs.File

Files as byte arrays. `readi` and `writei` on an inode that is locked, as `ilock` reads it
from the disk, do to the content of the file what a slice and a splice do to a list of
bytes; the other files keep theirs. The invariant is `FsInv`: no block belongs to two
places, no file has a hole below its size, and `balloc` hands out data blocks only.

`writei` writes the inode to the disk only when the file grows. That is enough: without
holes, a write that does not grow the file fills no place.
-/

namespace Xv6

open Function (update update_self update_of_ne update_eq_self)
open Superblock

section
variable [Superblock]

/-- No block belongs to two places, no file has a hole below its size, and the free map has the
blocks outside the data area marked. -/
structure FsInv (d : Disk) : Prop where
  sound : Sound d (dinode d)
  filled : ∀ {i bn}, i < ninodes → (dinode d i).type ≠ 0#16 →
    bn * bsize < (dinode d i).size.toNat → slots d (dinode d) (i, slotOf bn) ≠ none

/-- The bytes of the file `i`. -/
def content (d : Disk) (i : Nat) : List Byte := fileBytes d (dinode d) i

/-- `ilock` of an inode that is not in memory. -/
def lock (d : Disk) (i : Nat) : Vol := ⟨d, i, dinode d i⟩

/-- The inode is one for a file or a directory. -/
def IsFile (d : Disk) (i : Nat) : Prop :=
  i < ninodes ∧ (dinode d i).type ≠ 0#16 ∧ (dinode d i).type ≠ tDev

variable {d d' : Disk} {i : Nat}

@[simp] theorem lock_ino (d : Disk) (i : Nat) : (lock d i).ino = dinode d :=
  update_eq_self ..

theorem lock_slots (d : Disk) (i : Nat) : (lock d i).slots = slots d (dinode d) := by
  rw [Vol.slots, lock_ino]
  rfl

theorem lock_byte (d : Disk) (i : Nat) : (lock d i).byte = byte d (dinode d) := by
  rw [Vol.byte, lock_ino]
  rfl

theorem FsInv.lock (h : FsInv d) (hi : i < ninodes) (ht : (dinode d i).type ≠ 0#16) :
    (lock d i).Ok :=
  ⟨by rw [lock_ino]; exact h.sound, hi, ht⟩

@[simp] theorem length_content (d : Disk) (i : Nat) :
    (content d i).length = (dinode d i).size.toNat := by
  simp [content, fileBytes]

/-- A file without holes is no larger than `MAXFILE` blocks. -/
theorem FsInv.size_le (h : FsInv d) (hi : i < ninodes) (ht : (dinode d i).type ≠ 0#16) :
    (dinode d i).size.toNat ≤ maxfile * bsize := by
  by_contra hlt
  refine h.filled hi ht (show maxfile * bsize < _ by omega) (slots_of_ge ?_)
  decide

/-! ### Words -/

omit [Superblock] in
theorem wraps_iff (a b : Word) : a + b < a ↔ 2 ^ 32 ≤ a.toNat + b.toNat := by
  rw [BitVec.lt_def, BitVec.toNat_add]
  have := a.isLt
  have := b.isLt
  omega

/-! ### Byte arrays -/

/-- Reading a list of bytes as `readi` reads a file. -/
def readBytes (f : List Byte) (off n : Nat) : Option (List Byte) :=
  if f.length < off ∨ 2 ^ 32 ≤ off + n then none else some ((f.drop off).take n)

/-- `writei` does not write `n` bytes at `off` of a file of this size. -/
def Refused (size off n : Nat) : Prop :=
  size < off ∨ 2 ^ 32 ≤ off + n ∨ maxfile * bsize < off + n

instance (size off n : Nat) : Decidable (Refused size off n) :=
  inferInstanceAs (Decidable (_ ∨ _ ∨ _))

/-- Writing into a list of bytes as `writei` writes into a file. -/
def writeBytes (f : List Byte) (off : Nat) (src : List Byte) : Option (List Byte) :=
  if Refused f.length off src.length then none
  else some (f.take off ++ src ++ f.drop (off + src.length))

omit [Superblock] in
theorem map_range_splice {g g' : Nat → Byte} {size off : Nat} {src : List Byte} (hoff : off ≤ size)
    (h : ∀ p, g' p = if off ≤ p ∧ p < off + src.length then src.getD (p - off) 0 else g p) :
    (List.range (max size (off + src.length))).map g' =
      ((List.range size).map g).take off ++ src ++
        ((List.range size).map g).drop (off + src.length) := by
  have hlen : (((List.range size).map g).take off).length = off := by simp [hoff]
  refine List.ext_getElem (by simp; omega) fun p h1 h2 => ?_
  rw [List.getElem_map, List.getElem_range, h]
  have hp : p < max size (off + src.length) := by simpa using h1
  by_cases hp1 : p < off
  · rw [if_neg (by omega), List.getElem_append_left (by simp; omega),
      List.getElem_append_left (by rw [hlen]; exact hp1)]
    simp
  · by_cases hp2 : p < off + src.length
    · rw [if_pos ⟨by omega, hp2⟩, List.getElem_append_left (by simp; omega),
        List.getElem_append_right (by rw [hlen]; omega)]
      simp only [hlen, List.getD_eq_getElem?_getD]
      rw [List.getElem?_eq_getElem (by omega), Option.getD_some]
    · rw [if_neg (by omega), List.getElem_append_right (by simp; omega)]
      simp
      congr 1
      omega

/-! ### `readi` -/

variable [Devsw]

theorem readi_spec (h : FsInv d) (hi : i < ninodes) (ht : (dinode d i).type ≠ 0#16)
    (hdev : (dinode d i).type ≠ tDev) (off n : Word) : Ends (Vol.readi off n) (lock d i)
      (fun r v' => v' = lock d i ∧ r = readBytes (content d i) off.toNat n.toNat) := by
  have hsize := h.size_le hi ht
  have hip : (lock d i).ip = dinode d i := rfl
  rw [Vol.readi, ends_bind, ends_get, hip, if_neg hdev]
  refine .guard (fun hbad => ⟨rfl, ?_⟩) fun hgood => ?_
  · rw [readBytes, length_content, if_pos]
    exact hbad.imp id (wraps_iff off n).mp
  · rw [not_or, wraps_iff, BitVec.not_lt, BitVec.le_def] at hgood
    have hsum := BitVec.toNat_add_of_lt (x := off) (y := n) (by omega)
    -- the number of bytes that there are
    obtain ⟨k, hk, hklen⟩ : ∃ k : Word, (if (dinode d i).size < off + n then
        (dinode d i).size - off else n) = k ∧
        k.toNat = min n.toNat ((dinode d i).size.toNat - off.toNat) := by
      refine ⟨_, rfl, ?_⟩
      by_cases hlt : (dinode d i).size < off + n
      · rw [if_pos hlt, BitVec.toNat_sub_of_le hgood.1]
        rw [BitVec.lt_def, hsum] at hlt
        omega
      · rw [if_neg hlt]
        rw [BitVec.lt_def, hsum] at hlt
        omega
    show Ends (readLoop off.toNat (if _ then _ else n).toNat >>= _) _ _ _
    rw [hk, ends_bind]
    have hpages : ∀ bn ∈ touched off.toNat k.toNat,
        (lock d i).slots (i, slotOf bn) ≠ none := by
      intro bn hbn
      rw [lock_slots]
      exact h.filled hi ht (by have := mem_touched.mp hbn; omega)
    refine (readLoop_spec (h.lock hi ht) (by omega) hpages).imp fun bytes v' hr => ?_
    obtain ⟨rfl, rfl⟩ := hr
    refine .ret ⟨rfl, ?_⟩
    rw [readBytes, length_content, if_neg (by omega), lock_byte]
    refine congrArg some (List.ext_getElem (by simp [hklen]) fun p h1 h2 => ?_)
    simp [content, fileBytes, lock]

/-! ### `writei` -/

/-- What a `writei` that succeeds has made of the disk. -/
structure Written (d d' : Disk) (i off : Nat) (src : List Byte) : Prop where
  inv : FsInv d'
  content : content d' i = (content d i).take off ++ src ++ (content d i).drop (off + src.length)
  inode : dinode d' i =
    { dinode d i with size := (dinode d' i).size, addrs := (dinode d' i).addrs }
  size : (dinode d' i).size.toNat = max (dinode d i).size.toNat (off + src.length)
  others : ∀ {j}, j < ninodes → j ≠ i →
    dinode d' j = dinode d j ∧ Xv6.content d' j = Xv6.content d j
  tidy : NoLeak (slots d (dinode d)) (InUse d) → NoLeak (slots d' (dinode d')) (InUse d')
  new : ∀ {s}, slots d (dinode d) s = none → slots d' (dinode d') s ≠ none →
    s.1 = i ∧ s.2 ∈ rangeNeeds off src.length

section
omit [Devsw]

/-- The addresses of an inode are what its places say. -/
theorem addrs_eq {v v' : Vol} (hv : v.Ok) (hv' : v'.Ok) (hinum : v'.inum = v.inum)
    (hslots : ∀ k : Fin (ndirect + 1), v'.slots (v.inum, k) = v.slots (v.inum, k)) :
    v'.ip.addrs = v.ip.addrs := by
  funext k
  have hk : (k : Nat) < nslot := Nat.lt_of_lt_of_le k.isLt (by decide)
  have h := hslots k
  rw [Vol.slots_self hv hk, ← hinum, Vol.slots_self hv' hk] at h
  have href : ∀ u : Vol, u.ip.ref u.disk k = u.ip.addrs k := fun u => Dinode.ref_addr k
  rw [href, href] at h
  by_cases hz : v.ip.addrs k = 0#32 <;> by_cases hz' : v'.ip.addrs k = 0#32
  · rw [hz, hz']
  · simp [hz, hz'] at h
  · simp [hz, hz'] at h
  · simp only [hz, hz', if_false] at h
    exact BitVec.eq_of_toNat_eq (Option.some.inj h)

/-- Below the size of a file there is every block that a write needs. -/
theorem FsInv.needs_filled (h : FsInv d) (hi : i < ninodes) (ht : (dinode d i).type ≠ 0#16)
    {off n k : Nat} (hle : off + n ≤ (dinode d i).size.toNat) (hk : k ∈ rangeNeeds off n) :
    slots d (dinode d) (i, k) ≠ none := by
  obtain ⟨bn, hbn, hk⟩ := Finset.mem_biUnion.mp hk
  have hbn' := mem_touched.mp hbn
  have hthere := h.filled hi ht (show bn * bsize < _ by omega)
  unfold needs at hk
  split at hk
  · next hlt => rwa [Finset.mem_singleton.mp hk, ← show slotOf bn = bn from if_pos hlt]
  · next hge =>
      have hslot : slotOf bn = bn + 1 := if_neg hge
      rcases Finset.mem_insert.mp hk with rfl | hk
      · -- the block is in the indirect block
        obtain ⟨b, hb⟩ := Option.ne_none_iff_exists'.mp hthere
        rw [hslot, show bn + 1 = ndirect + 1 + (bn - ndirect) by omega] at hb
        obtain ⟨p, hp⟩ := slots_indirect hb
        rw [hp]
        nofun
      · rwa [Finset.mem_singleton.mp hk, ← hslot]

theorem FsInv.enough_below (h : FsInv d) (hi : i < ninodes) (ht : (dinode d i).type ≠ 0#16)
    {off n : Nat} (hle : off + n ≤ (dinode d i).size.toNat) :
    (Xv6.lock d i).Enough (rangeNeeds off n) := by
  have hlack : (Xv6.lock d i).lack (rangeNeeds off n) = ∅ := by
    refine Finset.filter_eq_empty_iff.mpr fun k hk => ?_
    rw [lock_slots]
    exact h.needs_filled hi ht hle hk
  rw [Vol.Enough, hlack]
  exact Nat.zero_le _

/-- A file that is not empty has its first block. -/
theorem FsInv.enough_first (h : FsInv d) (hf : IsFile d i) (hpos : 0 < (dinode d i).size.toNat)
    {N : Finset Nat} (hN : N ⊆ {0}) : (Xv6.lock d i).Enough N := by
  have hlack : (Xv6.lock d i).lack N = ∅ := by
    refine Finset.filter_eq_empty_iff.mpr fun k hk => ?_
    rw [lock_slots, Finset.mem_singleton.mp (hN hk)]
    exact h.filled hf.1 hf.2.1 (show 0 * bsize < _ by rwa [Nat.zero_mul])
  rw [Vol.Enough, hlack]
  exact Nat.zero_le _

/-- A write below the size of a file without holes fills no place. -/
theorem Wrote.same_slots {v : Vol} {off : Nat} {src : List Byte} (h : FsInv d)
    (hi : i < ninodes) (ht : (dinode d i).type ≠ 0#16) (hw : Wrote (lock d i) v off src)
    (hle : off + src.length ≤ (dinode d i).size.toNat) : v.slots = slots d (dinode d) := by
  rw [← lock_slots d i]
  funext s
  cases hs : (lock d i).slots s with
  | some b => exact hw.grow.kept hs
  | none =>
    by_contra hne
    obtain ⟨hsi, hk⟩ := hw.grow.new hs hne
    have hthere := h.needs_filled hi ht hle hk
    rw [← lock_slots d i, show (i, s.2) = s from Prod.ext hsi.symm rfl] at hthere
    exact hthere hs

/-- The disk `d'` shows the same places, data and free map as `v`, and the inode with its
new size. -/
theorem Wrote.written {v : Vol} {off : Nat} {src : List Byte} (h : FsInv d)
    (hi : i < ninodes) (ht : (dinode d i).type ≠ 0#16) (hw : Wrote (lock d i) v off src)
    (hoff : off ≤ (dinode d i).size.toNat) (hfit : off + src.length ≤ maxfile * bsize)
    (hslots : slots d' (dinode d') = v.slots) (hbits : ∀ c < size, bit d' c = bit v.disk c)
    (hdata : ∀ b, IsData b → d' b = v.disk b)
    (hothers : ∀ j < ninodes, j ≠ i → dinode d' j = dinode d j)
    (hinode : dinode d' i =
      { dinode d i with size := (dinode d' i).size, addrs := (dinode d' i).addrs })
    (hsize : (dinode d' i).size.toNat = max (dinode d i).size.toNat (off + src.length)) :
    Written d d' i off src := by
  have hinuse : ∀ c, InUse d' c ↔ InUse v.disk c := fun c =>
    and_congr_right fun hc => by rw [hbits c hc.2]
  have hbyte : ∀ j p, Xv6.byte d' (dinode d') j p =
      if j = i ∧ off ≤ p ∧ p < off + src.length then src.getD (p - off) 0
      else Xv6.byte d (dinode d) j p := by
    intro j p
    have hv : v.byte j p = _ := hw.byte j p
    rw [lock_byte] at hv
    refine Eq.trans ?_ hv
    rw [Xv6.byte_eq, Vol.byte_eq, hslots]
    cases hs : v.slots (j, slotOf (p / bsize)) with
    | none => rfl
    | some b => exact congrArg (getByte · _) (hdata b (hw.grow.ok.sound.isData hs))
  refine ⟨⟨⟨?_, fun b hb => ?_⟩, ?_⟩, ?_, hinode, hsize, fun {j} hj hji => ⟨hothers j hj hji, ?_⟩,
    fun ht => ?_, fun {s} hs hs' => ?_⟩
  · rw [hslots]
    exact hw.grow.ok.sound.owned.congr fun c hc => (hinuse c).mpr hc
  · rw [hbits b (Nat.lt_of_lt_of_le hb (Nat.sub_le _ _))]
    exact hw.grow.ok.sound.reserved b hb
  · -- blocks below the old size are kept, the others are in the range
    intro j bn hj htype hbn
    rw [hslots]
    by_cases hji : j = i
    · subst hji
      by_cases hold : bn * bsize < (dinode d j).size.toNat
      · obtain ⟨b, hb⟩ := Option.ne_none_iff_exists'.mp (h.filled hj ht hold)
        rw [hw.grow.kept (by rw [lock_slots]; exact hb)]
        nofun
      · refine hw.filled bn (mem_touched.mpr ?_)
        have hdm : off / bsize * bsize ≤ off := Nat.div_mul_le_self off bsize
        have hle : off / bsize ≤ bn := by
          rw [Nat.div_le_iff_le_mul_add_pred (by decide)]
          have : bsize * bn = bn * bsize := Nat.mul_comm _ _
          omega
        have hlt : bn < maxfile := by
          by_contra hge
          have : maxfile * bsize ≤ bn * bsize := Nat.mul_le_mul_right _ (by omega)
          omega
        omega
    · rw [hothers j hj hji] at htype hbn
      obtain ⟨b, hb⟩ := Option.ne_none_iff_exists'.mp (h.filled hj htype hbn)
      rw [hw.grow.kept (by rw [lock_slots]; exact hb)]
      nofun
  · unfold Xv6.content fileBytes
    rw [hsize]
    exact map_range_splice hoff fun p => by simp only [hbyte, true_and]
  · unfold Xv6.content fileBytes
    rw [hothers j hj hji]
    refine List.map_congr_left fun p _ => ?_
    rw [hbyte, if_neg fun h => hji h.1]
  · rw [hslots]
    intro c hc
    exact hw.grow.tidy (by rw [Vol.Tidy, lock_slots]; exact ht) c ((hinuse c).mp hc)
  · rw [hslots] at hs'
    exact hw.grow.new (by rw [lock_slots]; exact hs) hs'

/-- The inode is written with the size that the file has now. -/
theorem Wrote.putSize {v : Vol} {off : Nat} {src : List Byte} {n : Word} (h : FsInv d)
    (hi : i < ninodes) (ht : (dinode d i).type ≠ 0#16) (hw : Wrote (lock d i) v off src)
    (hoff : off ≤ (dinode d i).size.toNat) (hfit : off + src.length ≤ maxfile * bsize)
    (hn : n.toNat = max (dinode d i).size.toNat (off + src.length)) :
    Written d (putDinode v.disk i { v.ip with size := n }) i off src := by
  have hgrow := hw.grow
  have hinum : v.inum = i := hgrow.inum
  have hself : dinode (putDinode v.disk i { v.ip with size := n }) i = { v.ip with size := n } := by
    rw [dinode_putDinode, if_pos rfl]
  refine hw.written h hi ht hoff hfit ?_ (fun c _ => bit_putDinode hi _ c)
    (fun b hb => putDinode_data hi hb _) (fun j hj hji => ?_) ?_ ?_
  · -- the size is no matter for the places
    subst hinum
    have hsame : slots v.disk (update v.ino v.inum { v.ip with size := n }) = v.slots :=
      slots_fields (by rw [Vol.ino_self]) (by rw [Vol.ino_self])
    refine Eq.trans (slots_congr (fun j hj => ?_) fun j b hb => ?_) hsame
    · rw [dinode_putDinode]
      by_cases hj' : j = v.inum
      · rw [if_pos hj', hj', update_self]
      · rw [if_neg hj', update_of_ne hj', Vol.ino_of_ne hj']
    · rw [hsame] at hb
      exact putDinode_data hi (hgrow.ok.sound.isData hb) _
  · rw [dinode_putDinode, if_neg hji]
    exact hgrow.dinodes j hj
  · rw [hself, hgrow.ip]
    rfl
  · rw [hself]
    exact hn

/-- The end of `writei`: the inode in memory and on the disk are the same again. -/
theorem extend_spec {v : Vol} {src : List Byte} {off n : Word} (h : FsInv d) (hi : i < ninodes)
    (ht : (dinode d i).type ≠ 0#16) (hw : Wrote (lock d i) v off.toNat src)
    (hn : n.toNat = src.length) (hgood : ¬ Refused (dinode d i).size.toNat off.toNat src.length) :
    Ends (extend n (off + n)) v
      (fun _ v' => v' = lock v'.disk i ∧ Written d v'.disk i off.toNat src) := by
  have hgrow := hw.grow
  have hip := hgrow.ip
  have hinum : v.inum = i := hgrow.inum
  unfold Refused at hgood
  have hsum : (off + n).toNat = off.toNat + src.length := by
    rw [BitVec.toNat_add_of_lt (by omega), hn]
  have hsize : v.ip.size = (dinode d i).size := by rw [hip]; rfl
  have hdin : ∀ j < ninodes, dinode v.disk j = dinode d j := hgrow.dinodes
  rw [extend, ends_bind, ends_get, ends_ite]
  refine ⟨fun hmore => ?_, fun hsame => .ret ?_⟩
  · -- the file has grown: its inode is written
    rw [ends_bind, ends_modify, iupdate, ends_modify]
    rw [hsize, BitVec.lt_def, BitVec.lt_def, hsum] at hmore
    subst hinum
    have hwritten := hw.putSize (n := off + n) h hi ht (by omega) (by omega) (by rw [hsum]; omega)
    refine ⟨?_, hwritten⟩
    show _ = Vol.mk _ _ _
    rw [dinode_putDinode, if_pos rfl]
  · -- nothing was added to the file, and no place was filled
    rw [hsize, BitVec.lt_def, BitVec.lt_def, hsum, hn] at hsame
    have hle : off.toNat + src.length ≤ (dinode d i).size.toNat := by
      simp at hsame
      omega
    have hslots := hw.same_slots h hi ht hle
    have haddrs : v.ip.addrs = (dinode d i).addrs :=
      addrs_eq (h.lock hi ht) hgrow.ok hgrow.inum fun k => by rw [hslots, lock_slots]
    have hvip : v.ip = dinode d i := by
      rw [hip, haddrs]
      rfl
    have hvino : ∀ j < ninodes, v.ino j = dinode v.disk j := by
      intro j hj
      by_cases hj' : j = v.inum
      · rw [hj', Vol.ino_self, hvip, hdin _ (hj' ▸ hj), hinum]
      · exact Vol.ino_of_ne hj'
    refine ⟨?_, hw.written h hi ht (by omega) (by omega) ?_ (fun _ _ => rfl) (fun _ _ => rfl)
      (fun j hj _ => hdin j hj) ?_ ?_⟩
    · show v = Vol.mk _ _ _
      rw [hdin i hi, ← hvip, ← hinum]
    · exact (slots_congr (fun j hj => (hvino j hj).symm) fun _ _ _ => rfl)
    · rw [hdin i hi]
    · rw [hdin i hi]
      omega

end

theorem writei_spec {src : List Byte} (h : FsInv d) (hi : i < ninodes)
    (ht : (dinode d i).type ≠ 0#16) (hdev : (dinode d i).type ≠ tDev)
    (hlen : src.length < 2 ^ 32) (off : Word) : Ends (Vol.writei src off) (lock d i)
      (fun r v' =>
        (Refused (dinode d i).size.toNat off.toNat src.length → r = -1 ∧ v' = lock d i) ∧
        (¬ Refused (dinode d i).size.toNat off.toNat src.length → r = src.length ∧
          v' = lock v'.disk i ∧ Written d v'.disk i off.toNat src))
      (fun e => e = .outOfBlocks ∧ ¬ Refused (dinode d i).size.toNat off.toNat src.length ∧
        ¬ (lock d i).Enough (rangeNeeds off.toNat src.length)) := by
  have hip : (lock d i).ip = dinode d i := rfl
  have hn : (BitVec.ofNat 32 src.length).toNat = src.length := by
    rw [BitVec.toNat_ofNat, Nat.mod_eq_of_lt hlen]
  rw [Vol.writei, ends_bind, ends_get, hip]
  show Ends (if _ then _ else _) _ _ _
  rw [if_neg hdev]
  refine .guard (fun hbad => ⟨fun _ => ⟨rfl, rfl⟩, fun hgood => ?_⟩) fun hgood => ?_
  · rw [wraps_iff, hn, BitVec.lt_def] at hbad
    exact absurd (hbad.imp id Or.inl) hgood
  rw [wraps_iff, hn, BitVec.lt_def] at hgood
  have hsum : (off + BitVec.ofNat 32 src.length).toNat = off.toNat + src.length := by
    rw [BitVec.toNat_add_of_lt (by omega), hn]
  refine .guard (fun hbad => ⟨fun _ => ⟨rfl, rfl⟩, fun hgood' => ?_⟩) fun hgood' => ?_
  · rw [BitVec.lt_def, hsum] at hbad
    exact absurd (.inr (.inr hbad)) hgood'
  rw [BitVec.lt_def, hsum] at hgood'
  have hfit : off.toNat + src.length ≤ maxfile * bsize := Nat.not_lt.mp hgood'
  have hok : ¬ Refused (dinode d i).size.toNat off.toNat src.length := by
    unfold Refused
    omega
  rw [ends_bind]
  refine (writeLoop_spec (h.lock hi ht) hfit).mono (fun _ v hw => ?_) fun e he =>
    ⟨he.1, hok, he.2 _ (Finset.Subset.refl _)⟩
  rw [ends_bind]
  refine (extend_spec h hi ht hw hn hok).of_safe fun _ v' hv' => ?_
  refine .ret ⟨fun hbad => absurd hbad hok, fun _ => ⟨?_, hv'⟩⟩
  rw [BitVec.toInt_eq_toNat_of_lt, hn]
  rw [hn]
  unfold maxfile ndirect nindirect bsize at hfit
  omega

/-! ### Sequences of writes -/

/-- A call of `writei`. -/
structure WriteCall where
  inum : Nat
  off : Word
  src : List Byte
  len_lt : src.length < 2 ^ 32

/-- A call that returns. -/
def WriteCall.Step (d : Disk) (w : WriteCall) (d' : Disk) : Prop :=
  IsFile d w.inum ∧ ∃ r v, (Vol.writei w.src w.off).run (lock d w.inum) = .ok (r, v) ∧ v.disk = d'

/-- The same call on byte arrays. -/
def WriteCall.apply (f : Nat → List Byte) (w : WriteCall) : Nat → List Byte :=
  update f w.inum ((writeBytes (f w.inum) w.off.toNat w.src).getD (f w.inum))

theorem WriteCall.step_inv {w : WriteCall} (h : FsInv d) (hs : w.Step d d') :
    FsInv d' ∧ (∀ j, IsFile d j → IsFile d' j) ∧
      ∀ j < ninodes, content d' j = w.apply (content d) j := by
  obtain ⟨⟨hi, ht, hdev⟩, r, v, hrun, rfl⟩ := hs
  have hpost := (writei_spec h hi ht hdev w.len_lt w.off).of_ok hrun
  by_cases hbad : Refused (dinode d w.inum).size.toNat w.off.toNat w.src.length
  · obtain ⟨-, rfl⟩ := hpost.1 hbad
    refine ⟨h, fun _ hj => hj, fun j _ => ?_⟩
    rw [apply, writeBytes, length_content, if_pos hbad, Option.getD_none, update_eq_self]
    rfl
  · obtain ⟨-, -, hw⟩ := hpost.2 hbad
    refine ⟨hw.inv, fun j hj => ?_, fun j hj => ?_⟩
    · by_cases hji : j = w.inum
      · rw [hji, IsFile, hw.inode]
        exact ⟨hi, ht, hdev⟩
      · rw [IsFile, (hw.others hj.1 hji).1]
        exact hj
    · rw [apply, writeBytes, length_content, if_neg hbad, Option.getD_some]
      by_cases hji : j = w.inum
      · rw [hji, update_self, hw.content]
      · rw [update_of_ne hji, (hw.others hj hji).2]

theorem WriteCall.run_inv {ws : List WriteCall} (hrun : Trace WriteCall.Step d ws d') :
    ∀ {f : Nat → List Byte}, FsInv d → (∀ j < ninodes, content d j = f j) →
      FsInv d' ∧ (∀ j, IsFile d j → IsFile d' j) ∧
        ∀ j < ninodes, content d' j = ws.foldl WriteCall.apply f j := by
  induction hrun with
  | nil d => exact fun h hf => ⟨h, fun _ hj => hj, hf⟩
  | @cons d d1 d' w ws hs _ ih =>
    intro f h hf
    obtain ⟨h1, hfile1, hc1⟩ := step_inv h hs
    have hi : w.inum < ninodes := hs.1.1
    have happly : ∀ j < ninodes, content d1 j = w.apply f j := by
      intro j hj
      rw [hc1 j hj]
      unfold WriteCall.apply
      by_cases hji : j = w.inum
      · rw [hji, update_self, update_self, hf _ hi]
      · rw [update_of_ne hji, update_of_ne hji, hf j hj]
    obtain ⟨h', hfile', hc'⟩ := ih h1 happly
    exact ⟨h', fun j hj => hfile' j (hfile1 j hj), hc'⟩

/-- The content of an inode is a byte array, for `readi` and `writei` alike, one call after
the other. -/
theorem inode_content_refines (h : FsInv d) :
    (∀ i, IsFile d i →
      (∀ off n : Word, (Vol.readi off n).run (lock d i) =
        .ok (readBytes (content d i) off.toNat n.toNat, lock d i)) ∧
      ∀ (off : Word) (src : List Byte), src.length < 2 ^ 32 →
        (Refused (dinode d i).size.toNat off.toNat src.length →
          (Vol.writei src off).run (lock d i) = .ok (-1, lock d i)) ∧
        (¬ Refused (dinode d i).size.toNat off.toNat src.length →
          (lock d i).Enough (rangeNeeds off.toNat src.length) →
          ∃ d', (Vol.writei src off).run (lock d i) = .ok ((src.length : Int), lock d' i) ∧
            FsInv d' ∧
            content d' i =
              (content d i).take off.toNat ++ src ++ (content d i).drop (off.toNat + src.length) ∧
            (0 < src.length → (dinode d' i).size.toNat =
              max (dinode d i).size.toNat (off.toNat + src.length)) ∧
            ∀ j < ninodes, j ≠ i →
              (dinode d' j).size = (dinode d j).size ∧ content d' j = content d j)) ∧
    ∀ (ws : List WriteCall) (d' : Disk), Trace WriteCall.Step d ws d' →
      ∀ i, IsFile d i → ∀ off n : Word, (Vol.readi off n).run (lock d' i) =
        .ok (readBytes (ws.foldl WriteCall.apply (content d) i) off.toNat n.toNat, lock d' i) := by
  have hread : ∀ {d}, FsInv d → ∀ {i}, IsFile d i → ∀ off n : Word,
      (Vol.readi off n).run (lock d i) =
        .ok (readBytes (content d i) off.toNat n.toNat, lock d i) := by
    intro d h i hf off n
    obtain ⟨r, v', hrun, rfl, rfl⟩ := (readi_spec h hf.1 hf.2.1 hf.2.2 off n).exists_ok
    exact hrun
  refine ⟨fun i hf => ⟨hread h hf, fun off src hlen => ⟨fun hbad => ?_, fun hgood hen => ?_⟩⟩,
    fun ws d' hrun i hf off n => ?_⟩
  · -- a refused call does not come to `balloc`
    have hspec := writei_spec h hf.1 hf.2.1 hf.2.2 hlen off
    obtain ⟨r, v', hrun, hpost, -⟩ := (hspec.mono (fun _ _ h => h)
      fun _ he => he.2.1 hbad).exists_ok
    obtain ⟨rfl, rfl⟩ := hpost hbad
    exact hrun
  · have hspec := writei_spec h hf.1 hf.2.1 hf.2.2 hlen off
    obtain ⟨r, v', hrun, -, hpost⟩ := (hspec.mono (fun _ _ h => h)
      fun _ he => he.2.2 hen).exists_ok
    obtain ⟨rfl, hv', hw⟩ := hpost hgood
    refine ⟨v'.disk, by rw [hrun, ← hv'], hw.inv, hw.content, fun _ => hw.size, fun j hj hji => ?_⟩
    rw [(hw.others hj hji).1]
    exact ⟨rfl, (hw.others hj hji).2⟩
  · obtain ⟨h', hfile, hc⟩ := WriteCall.run_inv hrun h fun _ _ => rfl
    rw [hread h' (hfile i hf), hc i hf.1]

end

/-! ### An image with one file -/

/-- An inode without blocks. -/
def Dinode.empty (type nlink : BitVec 16) : Dinode := ⟨type, 0, 0, nlink, 0#32, fun _ => 0#32⟩

/-- What `mkfs` writes, with an empty inode 1 and no blocks in use but its own 59. -/
def oneFile (type : BitVec 16) : Disk := fun b =>
  if b = 32 then (Dinode.empty type 1).toBlock (fun _ => 0#32) 1
  else if b = 58 then
    fun j => if j = 0 then 0xFFFFFFFF#32 else if j = 1 then 0x07FFFFFF#32 else 0#32
  else fun _ => 0#32

theorem dinode_oneFile (type : BitVec 16) {i : Nat} (hi : i < 200) :
    let _ : Superblock := Superblock.mkfs
    dinode (oneFile type) i = if i = 1 then .empty type 1 else .empty 0 0 := by
  intro _
  have hzero : ∀ k, Dinode.ofBlock (fun _ => 0#32) k = .empty 0 0 := fun k => by
    simp [Dinode.ofBlock, Dinode.empty]
  show Dinode.ofBlock (oneFile type (i / 8 + 32)) (i % 8) = _
  by_cases hi8 : i < 8
  · have h0 : i / 8 + 32 = 32 := by omega
    have hmod : i % 8 = i := by omega
    rw [h0, hmod, oneFile, if_pos rfl, Dinode.ofBlock_toBlock, hzero]
  · have h1 : i ≠ 1 := by omega
    rw [oneFile, if_neg (by omega), if_neg (by omega), if_neg h1, hzero]

theorem slots_oneFile (type : BitVec 16) :
    let _ : Superblock := Superblock.mkfs
    ∀ s, slots (oneFile type) (dinode (oneFile type)) s = none := by
  intro _ s
  refine if_neg fun h => h.2.2.2 ?_
  rw [dinode_oneFile type h.1]
  split <;> simp [Dinode.ref, Dinode.empty]

theorem oneFile_inv (type : BitVec 16) :
    let _ : Superblock := Superblock.mkfs
    FsInv (oneFile type) := by
  intro _
  have hnone := slots_oneFile type
  refine ⟨⟨⟨fun {s t b} hs => ?_, fun {s b} hs => ?_⟩, ?_⟩, fun {i bn} hi _ hbn => ?_⟩
  · exact absurd ((hnone s).symm.trans hs) nofun
  · exact absurd ((hnone s).symm.trans hs) nofun
  · intro b hb
    have hstart : datastart = 59 := by decide
    rw [hstart] at hb
    have hbits : ∀ b < 59, testBit (oneFile 0 58) b = true := by decide +kernel
    have hblock : b / bpb + 58 = 58 := by unfold bpb; omega
    have hmod : b % bpb = b := by unfold bpb; omega
    show testBit (oneFile type (b / bpb + 58)) (b % bpb) = true
    rw [hblock, hmod]
    exact hbits b hb
  · rw [dinode_oneFile type hi] at hbn
    split at hbn <;> simp [Dinode.empty] at hbn

theorem enough_of_free [Superblock] {d : Disk} {i b : Nat} {N : Finset Nat} (hN : N ⊆ {0})
    (hb : b < size) (hbit : bit d b = false) : (lock d i).Enough N := by
  have hlack : (lock d i).lack N ⊆ {0} := (Finset.filter_subset _ _).trans hN
  have hfree : b ∈ (lock d i).free := Finset.mem_filter.mpr ⟨Finset.mem_range.mpr hb, hbit⟩
  exact le_trans (Finset.card_le_card hlack) (Finset.card_pos.mpr ⟨b, hfree⟩)

theorem oneFile_enough (type : BitVec 16) {N : Finset Nat} (hN : N ⊆ {0}) :
    let _ : Superblock := Superblock.mkfs
    (lock (oneFile type) 1).Enough N := by
  intro _
  have hbit : testBit (oneFile 0 58) 59 = false := by decide +kernel
  exact enough_of_free (b := 59) hN (by decide) hbit

/-- No devices. -/
@[reducible] def Devsw.none : Devsw := ⟨fun _ => .none, fun _ => .none⟩

/-- Three bytes into an empty file. -/
theorem inode_content_refines_abc :
    let _ : Superblock := Superblock.mkfs
    let _ : Devsw := Devsw.none
    ∃ d', (Vol.writei [97, 98, 99] 0).run (lock (oneFile tFile) 1) = .ok (3, lock d' 1) ∧
      content d' 1 = [97, 98, 99] := by
  intro _ _
  have hip : dinode (oneFile tFile) 1 = .empty tFile 1 := dinode_oneFile tFile (by decide)
  have hfile : IsFile (oneFile tFile) 1 := by
    refine ⟨by decide, ?_, ?_⟩ <;> rw [hip] <;> decide
  obtain ⟨-, hwrite⟩ := (inode_content_refines (oneFile_inv tFile)).1 1 hfile
  have hgood : ¬ Refused (dinode (oneFile tFile) 1).size.toNat (0 : Word).toNat
      [97, 98, (99 : Byte)].length := by
    rw [hip]
    decide
  have hen : (lock (oneFile tFile) 1).Enough (rangeNeeds (0 : Word).toNat
      [97, 98, (99 : Byte)].length) := oneFile_enough tFile (by decide)
  obtain ⟨d', hrun, -, hcontent, -⟩ := (hwrite 0 [97, 98, 99] (by decide)).2 hgood hen
  refine ⟨d', hrun, hcontent.trans ?_⟩
  have hnil : content (oneFile tFile) 1 = [] := by
    apply List.eq_nil_of_length_eq_zero
    rw [length_content, hip]
    rfl
  rw [hnil]
  rfl

end Xv6
