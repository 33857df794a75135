import Mathlib.Logic.Function.Basic
import Mathlib.Tactic.IntervalCases
import Xv6.Bytes
import Xv6.Log.Crash

/-!
# Xv6.Fs.Disk

The on-disk format of the file system: the super block, the inodes and the free map of
`fs.h`, over the blocks that the buffer cache shows.

A disk is looked at in three ways: the inode with a number (`dinode`), the free-map bit of a
block (`bit`) and the block itself. Each of the three updates that the file system makes
shows in one of them only, because the areas are disjoint; the lemmas about this are
all that the modules above use of the layout.
-/

namespace Xv6

open Function (update update_self update_of_ne)

/-- `BSIZE`. -/
def bsize : Nat := 512
/-- `NDIRECT`. -/
def ndirect : Nat := 12
/-- `NINDIRECT`. -/
def nindirect : Nat := 128
/-- `MAXFILE`. -/
def maxfile : Nat := ndirect + nindirect
/-- `IPB`. -/
def ipb : Nat := 8
/-- `BPB`. -/
def bpb : Nat := 4096

/-- An offset in a file is a block and an offset in it. -/
theorem block_split (off : Nat) : off / bsize * bsize + off % bsize = off ∧ off % bsize < bsize :=
  ⟨Nat.div_add_mod' off bsize, Nat.mod_lt _ (by decide)⟩

/-- `struct superblock`, for a disk laid out in `mkfs`'s order: boot block, super block,
log, inodes, free map, data. -/
class Superblock where
  size : Nat
  nblocks : Nat
  ninodes : Nat
  nlog : Nat
  logstart : Nat
  inodestart : Nat
  bmapstart : Nat
  log_area : 2 ≤ logstart ∧ logstart + nlog ≤ inodestart
  inode_area : inodestart + (ninodes / ipb + 1) ≤ bmapstart
  bmap_area : bmapstart + (size / bpb + 1) ≤ size - nblocks
  size_lt : size < 2 ^ 32

namespace Superblock

/-- What `mkfs` writes. -/
@[reducible] def mkfs : Superblock where
  size := 3000
  nblocks := 2941
  ninodes := 200
  nlog := 30
  logstart := 2
  inodestart := 32
  bmapstart := 58
  log_area := by decide
  inode_area := by decide
  bmap_area := by decide
  size_lt := by decide

variable [Superblock]

/-- The first data block. -/
def datastart : Nat := size - nblocks

/-- `IBLOCK`. -/
def iblock (i : Nat) : Nat := i / ipb + inodestart

/-- `BBLOCK`. -/
def bblock (b : Nat) : Nat := b / bpb + bmapstart

/-- The block is one that files are made of. -/
def IsData (b : Nat) : Prop := datastart ≤ b ∧ b < size

instance (b : Nat) : Decidable (IsData b) := inferInstanceAs (Decidable (_ ∧ _))

theorem iblock_lt {i : Nat} (hi : i < ninodes) : iblock i < bmapstart := by
  have := inode_area
  have : i / ipb ≤ ninodes / ipb := Nat.div_le_div_right (by omega)
  unfold iblock
  omega

theorem bmapstart_le (b : Nat) : bmapstart ≤ bblock b := Nat.le_add_left _ _

theorem bblock_lt {b : Nat} (hb : b < size) : bblock b < datastart := by
  have := bmap_area
  have : b / bpb ≤ size / bpb := Nat.div_le_div_right (by omega)
  unfold bblock datastart
  omega

theorem bmapstart_lt : bmapstart < datastart :=
  Nat.lt_of_lt_of_le (Nat.lt_add_of_pos_right (Nat.succ_pos _)) bmap_area

theorem iblock_lt_datastart {i : Nat} (hi : i < ninodes) : iblock i < datastart :=
  Nat.lt_trans (iblock_lt hi) bmapstart_lt

theorem datastart_pos : 0 < datastart := Nat.zero_lt_of_lt bmapstart_lt

end Superblock

open Superblock

/-! ### Inodes -/

/-- `struct dinode`. -/
@[ext] structure Dinode where
  type : BitVec 16
  major : BitVec 16
  minor : BitVec 16
  nlink : BitVec 16
  size : Word
  addrs : Fin (ndirect + 1) → Word

/-- The words of a `struct dinode`. -/
def Dinode.words (ip : Dinode) (j : Nat) : Word :=
  if j = 0 then ip.major ++ ip.type
  else if j = 1 then ip.nlink ++ ip.minor
  else if j = 2 then ip.size
  else if h : j - 3 < ndirect + 1 then ip.addrs ⟨j - 3, h⟩ else 0

/-- `(struct dinode*)bp->data + k`. -/
def Dinode.ofBlock (data : Block) (k : Nat) : Dinode where
  type := (data (16 * k)).extractLsb' 0 16
  major := (data (16 * k)).extractLsb' 16 16
  minor := (data (16 * k + 1)).extractLsb' 0 16
  nlink := (data (16 * k + 1)).extractLsb' 16 16
  size := data (16 * k + 2)
  addrs := fun i => data (16 * k + 3 + i)

/-- Overwrite the `k`th inode of a block. -/
def Dinode.toBlock (data : Block) (k : Nat) (ip : Dinode) : Block := fun j =>
  if j / 16 = k then ip.words (j % 16) else data j

theorem low_short (a b : BitVec 16) : (a ++ b).extractLsb' 0 16 = b := by
  ext i hi
  rw [BitVec.getElem_extractLsb', BitVec.getLsbD_append, if_pos (by omega), Nat.zero_add,
    BitVec.getLsbD_eq_getElem hi]

theorem high_short (a b : BitVec 16) : (a ++ b).extractLsb' 16 16 = a := by
  ext i hi
  rw [BitVec.getElem_extractLsb', BitVec.getLsbD_append, if_neg (by omega),
    Nat.add_sub_cancel_left, BitVec.getLsbD_eq_getElem hi]

theorem Dinode.ofBlock_toBlock (data : Block) (k k' : Nat) (ip : Dinode) :
    ofBlock (toBlock data k ip) k' = if k' = k then ip else ofBlock data k' := by
  by_cases hk : k' = k
  · subst hk
    have hat : ∀ j < 16, toBlock data k' ip (16 * k' + j) = ip.words j := by
      intro j hj
      have hdiv : (16 * k' + j) / 16 = k' := by omega
      have hmod : (16 * k' + j) % 16 = j := by omega
      simp [toBlock, hdiv, hmod]
    rw [if_pos rfl]
    ext1
    · show (toBlock data k' ip (16 * k' + 0)).extractLsb' 0 16 = _
      rw [hat 0 (by omega)]
      exact low_short _ _
    · show (toBlock data k' ip (16 * k' + 0)).extractLsb' 16 16 = _
      rw [hat 0 (by omega)]
      exact high_short _ _
    · show (toBlock data k' ip (16 * k' + 1)).extractLsb' 0 16 = _
      rw [hat 1 (by omega)]
      exact low_short _ _
    · show (toBlock data k' ip (16 * k' + 1)).extractLsb' 16 16 = _
      rw [hat 1 (by omega)]
      exact high_short _ _
    · exact hat 2 (by omega)
    · funext i
      have hi : (i : Nat) < 13 := i.isLt
      show toBlock data k' ip (16 * k' + 3 + i) = _
      rw [Nat.add_assoc, hat (3 + i) (by omega), words, if_neg (by omega), if_neg (by omega),
        if_neg (by omega)]
      simp only [Nat.add_sub_cancel_left, dif_pos i.isLt]
  · have hat : ∀ j < 16, toBlock data k ip (16 * k' + j) = data (16 * k' + j) := by
      intro j hj
      have hdiv : (16 * k' + j) / 16 ≠ k := by omega
      simp [toBlock, hdiv]
    rw [if_neg hk]
    have h0 := hat 0 (by omega)
    rw [Nat.add_zero] at h0
    simp only [ofBlock, h0, hat 1 (by omega), hat 2 (by omega)]
    congr 1
    funext i
    have hi : (i : Nat) < 13 := i.isLt
    rw [Nat.add_assoc, hat (3 + i) (by omega)]

/-! ### Bits of a free-map block -/

/-- `bp->data[bi/8] & (1 << (bi % 8))`. -/
def testBit (data : Block) (bi : Nat) : Bool :=
  getByte data (bi / 8) &&& (1#8 <<< (bi % 8)) != 0#8

/-- `bp->data[bi/8] |= m`. -/
def markBit (data : Block) (bi : Nat) : Block :=
  setByte data (bi / 8) (getByte data (bi / 8) ||| (1#8 <<< (bi % 8)))

/-- `bp->data[bi/8] &= ~m`. -/
def clearBit (data : Block) (bi : Nat) : Block :=
  setByte data (bi / 8) (getByte data (bi / 8) &&& ~~~(1#8 <<< (bi % 8)))

theorem mask_eq (x : Byte) {i : Nat} (hi : i < 8) :
    (x &&& (1#8 <<< i) != 0#8) = x.getLsbD i := by
  revert x
  interval_cases i <;> decide

theorem testBit_eq (data : Block) (bi : Nat) :
    testBit data bi = (getByte data (bi / 8)).getLsbD (bi % 8) :=
  mask_eq _ (Nat.mod_lt _ (by omega))

theorem getLsbD_mask {bi bj : Nat} (hbyte : bj / 8 = bi / 8) :
    (1#8 <<< (bi % 8)).getLsbD (bj % 8) = decide (bj = bi) := by
  have hbj : bj % 8 < 8 := Nat.mod_lt _ (by omega)
  rw [BitVec.getLsbD_shiftLeft, BitVec.getLsbD_one]
  by_cases hlt : bj % 8 < bi % 8
  · have : bj ≠ bi := by omega
    simp [hlt, this]
  · have hz : (bj % 8 - bi % 8 = 0) = (bj = bi) := propext (by omega)
    simp [hlt, hbj, hz]

theorem testBit_markBit (data : Block) (bi bj : Nat) :
    testBit (markBit data bi) bj = (decide (bj = bi) || testBit data bj) := by
  rw [testBit_eq, testBit_eq, markBit, getByte_setByte]
  by_cases hbyte : bj / 8 = bi / 8
  · rw [if_pos hbyte, hbyte, BitVec.getLsbD_or, getLsbD_mask hbyte, Bool.or_comm]
  · have : bj ≠ bi := fun he => hbyte (by rw [he])
    simp [hbyte, this]

theorem testBit_clearBit (data : Block) (bi bj : Nat) :
    testBit (clearBit data bi) bj = (!decide (bj = bi) && testBit data bj) := by
  rw [testBit_eq, testBit_eq, clearBit, getByte_setByte]
  by_cases hbyte : bj / 8 = bi / 8
  · rw [if_pos hbyte, hbyte, BitVec.getLsbD_and, BitVec.getLsbD_not, getLsbD_mask hbyte,
      Bool.and_comm, decide_eq_true (Nat.mod_lt bj (by decide : 0 < 8)), Bool.true_and]
  · have : bj ≠ bi := fun he => hbyte (by rw [he])
    simp [hbyte, this]

/-! ### The three views and the three updates -/

section
variable [Superblock]

/-- The inode with a number, as it is on disk. -/
def dinode (d : Disk) (i : Nat) : Dinode := .ofBlock (d (iblock i)) (i % ipb)

/-- Write an inode to its place. -/
def putDinode (d : Disk) (i : Nat) (ip : Dinode) : Disk :=
  update d (iblock i) (ip.toBlock (d (iblock i)) (i % ipb))

/-- The free-map bit of a block: is it in use? -/
def bit (d : Disk) (b : Nat) : Bool := testBit (d (bblock b)) (b % bpb)

def setBit (d : Disk) (b : Nat) : Disk := update d (bblock b) (markBit (d (bblock b)) (b % bpb))

def resetBit (d : Disk) (b : Nat) : Disk := update d (bblock b) (clearBit (d (bblock b)) (b % bpb))

variable {d : Disk} {i b c : Nat}

theorem dinode_putDinode (d : Disk) (i j : Nat) (ip : Dinode) :
    dinode (putDinode d i ip) j = if j = i then ip else dinode d j := by
  unfold dinode putDinode
  by_cases hblock : iblock j = iblock i
  · have hmod : (j % ipb = i % ipb) = (j = i) := by
      unfold iblock ipb at hblock
      unfold ipb
      exact propext (by omega)
    rw [hblock, update_self, Dinode.ofBlock_toBlock]
    simp only [hmod]
  · have : j ≠ i := fun he => hblock (by rw [he])
    rw [update_of_ne hblock, if_neg this]

theorem bit_putDinode (hi : i < ninodes) (ip : Dinode) (b : Nat) :
    bit (putDinode d i ip) b = bit d b := by
  have h1 := iblock_lt hi
  have h2 := bmapstart_le b
  have hne : bblock b ≠ iblock i := by omega
  rw [bit, putDinode, update_of_ne hne, bit]

theorem putDinode_data (hi : i < ninodes) (hb : IsData b) (ip : Dinode) :
    putDinode d i ip b = d b := by
  have h1 := iblock_lt_datastart hi
  have h2 := hb.1
  have hne : b ≠ iblock i := by omega
  rw [putDinode, update_of_ne hne]

/-- Two blocks have their bits in one place only if they are one. -/
theorem bblock_mod_eq (h : bblock c = bblock b) : (c % bpb = b % bpb) = (c = b) := by
  unfold bblock bpb at h
  unfold bpb
  exact propext (by omega)

theorem bit_setBit (d : Disk) (b c : Nat) :
    bit (setBit d b) c = (decide (c = b) || bit d c) := by
  unfold bit setBit
  by_cases hblock : bblock c = bblock b
  · rw [hblock, update_self, testBit_markBit]
    simp only [bblock_mod_eq hblock]
  · have : c ≠ b := fun he => hblock (by rw [he])
    simp [update_of_ne hblock, this]

theorem bit_resetBit (d : Disk) (b c : Nat) :
    bit (resetBit d b) c = (!decide (c = b) && bit d c) := by
  unfold bit resetBit
  by_cases hblock : bblock c = bblock b
  · rw [hblock, update_self, testBit_clearBit]
    simp only [bblock_mod_eq hblock]
  · have : c ≠ b := fun he => hblock (by rw [he])
    simp [update_of_ne hblock, this]

theorem dinode_bmap (hi : i < ninodes) (b : Nat) (data : Block) :
    dinode (update d (bblock b) data) i = dinode d i := by
  have h1 := iblock_lt hi
  have h2 := bmapstart_le b
  have hne : iblock i ≠ bblock b := by omega
  rw [dinode, update_of_ne hne, dinode]

theorem bmap_data (hb : b < size) (hc : IsData c) (data : Block) :
    update d (bblock b) data c = d c := by
  have h1 := bblock_lt hb
  have h2 := hc.1
  have hne : c ≠ bblock b := by omega
  rw [update_of_ne hne]

theorem dinode_putData (hi : i < ninodes) (hb : IsData b) (data : Block) :
    dinode (update d b data) i = dinode d i := by
  have h1 := iblock_lt_datastart hi
  have h2 := hb.1
  have hne : iblock i ≠ b := by omega
  rw [dinode, update_of_ne hne, dinode]

theorem bit_putData (hc : c < size) (hb : IsData b) (data : Block) :
    bit (update d b data) c = bit d c := by
  have h1 := bblock_lt hc
  have h2 := hb.1
  have hne : bblock c ≠ b := by omega
  rw [bit, update_of_ne hne, bit]

end

end Xv6
