import Mathlib.Data.Finset.Card
import Mathlib.Data.Finset.Range
import Xv6.Fs.Inode
import Xv6.Lib.Owner

/-!
# Xv6.Fs.Own

Which blocks belong to which inode. An inode has a place for each direct block, for the
indirect block and for each entry of the indirect block (`slots`), and the places of all
inodes own their blocks in the sense of `Lib.Owner`, with the free map as the record of what is
in use (`Sound`).

The file system allocates in one way only: an empty place gets a fresh block, which holds
zeros (`Fill`). So allocation never shows in the bytes of any file (`Fill.byte`), and all
that `bmap` does follows from what one `Fill` does.
-/

namespace Xv6

open Function (update update_self update_of_ne)
open Superblock

/-! ### Places -/

/-- The number of places of an inode: `addrs`, then the entries of the indirect block. -/
def nslot : Nat := ndirect + 1 + nindirect

/-- The place of block `bn` of a file. -/
def slotOf (bn : Nat) : Nat := if bn < ndirect then bn else bn + 1

theorem slotOf_lt {bn : Nat} (h : bn < maxfile) : slotOf bn < nslot := by
  unfold slotOf
  unfold maxfile at h
  unfold nslot
  split <;> omega

theorem slotOf_ne (bn : Nat) : slotOf bn ≠ ndirect := by
  unfold slotOf
  split <;> omega

theorem slotOf_inj {bn bm : Nat} (h : slotOf bn = slotOf bm) : bn = bm := by
  unfold slotOf at h
  split at h <;> split at h <;> omega

/-- What an inode has in a place; zero for none. -/
def Dinode.ref (d : Disk) (ip : Dinode) (k : Nat) : Word :=
  if h : k < ndirect + 1 then ip.addrs ⟨k, h⟩
  else if ip.addrs indirectSlot = 0#32 then 0#32
  else d (ip.addrs indirectSlot).toNat (k - (ndirect + 1))

namespace Dinode

variable {d : Disk} {ip : Dinode} {j : Nat}

theorem ref_addr (k : Fin (ndirect + 1)) : ip.ref d k = ip.addrs k := dif_pos k.isLt

theorem ref_entry (hz : ip.addrs indirectSlot ≠ 0#32) :
    ip.ref d (ndirect + 1 + j) = d (ip.addrs indirectSlot).toNat j := by
  rw [ref, dif_neg (by omega), if_neg hz, Nat.add_sub_cancel_left]

theorem ref_no_entry (hz : ip.addrs indirectSlot = 0#32) : ip.ref d (ndirect + 1 + j) = 0#32 := by
  rw [ref, dif_neg (by omega), if_pos hz]

end Dinode

section
variable [Superblock]

/-- The blocks in the places of the allocated inodes. -/
def slots (d : Disk) (ino : Nat → Dinode) (s : Nat × Nat) : Option Nat :=
  if s.1 < ninodes ∧ (ino s.1).type ≠ 0#16 ∧ s.2 < nslot ∧ (ino s.1).ref d s.2 ≠ 0#32 then
    some ((ino s.1).ref d s.2).toNat
  else none

/-- The block is marked in the free map. -/
def InUse (d : Disk) (b : Nat) : Prop := IsData b ∧ bit d b = true

/-- The places own their blocks, and the blocks outside the data area are not for files. -/
structure Sound (d : Disk) (ino : Nat → Dinode) : Prop where
  owned : Owned (slots d ino) (InUse d)
  reserved : ∀ b < datastart, bit d b = true

variable {d d' : Disk} {ino ino' : Nat → Dinode} {i j k b n : Nat}

theorem slots_eq_some : slots d ino (i, k) = some b ↔
    i < ninodes ∧ (ino i).type ≠ 0#16 ∧ k < nslot ∧ (ino i).ref d k ≠ 0#32 ∧
      ((ino i).ref d k).toNat = b := by
  unfold slots
  split
  · next h =>
      obtain ⟨hi, ht, hk, hz⟩ := h
      refine ⟨fun hb => ⟨hi, ht, hk, hz, Option.some.inj hb⟩, fun hb => ?_⟩
      rw [← hb.2.2.2.2]
  · next h => exact ⟨nofun, fun hb => absurd ⟨hb.1, hb.2.1, hb.2.2.1, hb.2.2.2.1⟩ h⟩

theorem slots_live (hi : i < ninodes) (ht : (ino i).type ≠ 0#16) (hk : k < nslot) :
    slots d ino (i, k) =
      if (ino i).ref d k = 0#32 then none else some ((ino i).ref d k).toNat := by
  unfold slots
  by_cases h : (ino i).ref d k = 0#32
  · rw [if_pos h, if_neg fun h' => h'.2.2.2 h]
  · rw [if_neg h, if_pos ⟨hi, ht, hk, h⟩]

/-- A place depends on what its inode has in it, if it is allocated. -/
theorem slots_ref (hino : ino' i = ino i) (href : i < ninodes → (ino i).type ≠ 0#16 →
    (ino i).ref d' k = (ino i).ref d k) : slots d' ino' (i, k) = slots d ino (i, k) := by
  unfold slots
  simp only [hino]
  by_cases h : i < ninodes ∧ (ino i).type ≠ 0#16
  · rw [href h.1 h.2]
  · rw [if_neg fun h' => h ⟨h'.1, h'.2.1⟩, if_neg fun h' => h ⟨h'.1, h'.2.1⟩]

theorem slots_of_ge (hk : nslot ≤ k) : slots d ino (i, k) = none :=
  if_neg fun h => absurd h.2.2.1 (Nat.not_lt.mpr hk)

/-- An entry of an indirect block is in an indirect block. -/
theorem slots_indirect (h : slots d ino (i, ndirect + 1 + j) = some b) :
    ∃ p, slots d ino (i, ndirect) = some p := by
  obtain ⟨hi, ht, -, hz, -⟩ := slots_eq_some.mp h
  have hp : (ino i).addrs indirectSlot ≠ 0#32 := by
    intro hp
    exact hz (Dinode.ref_no_entry hp)
  exact ⟨_, slots_eq_some.mpr ⟨hi, ht, by decide, hp, rfl⟩⟩

/-- The places of an allocated inode depend on its indirect block only. -/
theorem ref_congr (hi : i < ninodes) (ht : (ino i).type ≠ 0#16)
    (hd : ∀ b, slots d ino (i, ndirect) = some b → d' b = d b) :
    (ino i).ref d' k = (ino i).ref d k := by
  unfold Dinode.ref
  split
  · rfl
  · split
    · rfl
    · next _ hz =>
        have hp : slots d ino (i, ndirect) = some ((ino i).addrs indirectSlot).toNat :=
          slots_eq_some.mpr ⟨hi, ht, by decide, hz, rfl⟩
        rw [hd _ hp]

theorem slots_congr (hino : ∀ i < ninodes, ino' i = ino i)
    (hd : ∀ i b, slots d ino (i, ndirect) = some b → d' b = d b) :
    slots d' ino' = slots d ino := by
  funext s
  obtain ⟨i, k⟩ := s
  by_cases hi : i < ninodes
  · exact slots_ref (hino i hi) fun hi ht => ref_congr hi ht (hd i)
  · unfold slots
    rw [if_neg fun h => hi h.1, if_neg fun h => hi h.1]

/-- The places of an inode are a matter of its type and its addresses. -/
theorem slots_fields {ip : Dinode} (htype : ip.type = (ino i).type)
    (haddrs : ip.addrs = (ino i).addrs) : slots d (update ino i ip) = slots d ino := by
  funext s
  obtain ⟨j, k⟩ := s
  by_cases hj : j = i
  · subst hj
    have href : ip.ref d k = (ino j).ref d k := by simp [Dinode.ref, haddrs]
    unfold slots
    simp only [update_self, htype, href]
  · exact slots_ref (update_of_ne hj _ _) fun _ _ => rfl

/-- An empty address gets a block; a new indirect block is empty. -/
theorem slots_setAddr {k : Fin (ndirect + 1)} {a : Word} (hi : i < ninodes)
    (ht : (ino i).type ≠ 0#16) (hempty : (ino i).addrs k = 0#32) (ha : a ≠ 0#32)
    (hzero : k = indirectSlot → ∀ j, d a.toNat j = 0#32) :
    slots d (update ino i { ino i with addrs := update (ino i).addrs k a }) =
      update (slots d ino) (i, k) (some a.toNat) := by
  funext s
  obtain ⟨j, m⟩ := s
  by_cases hj : j = i
  · subst hj
    by_cases hmk : m = k
    · subst hmk
      have hk : (k : Nat) < nslot := Nat.lt_of_lt_of_le k.isLt (by decide)
      have href : Dinode.ref d { ino j with addrs := update (ino j).addrs k a } k = a :=
        (Dinode.ref_addr k).trans (update_self ..)
      rw [slots_live hi (by simpa using ht) hk, update_self, update_self, href,
        if_neg ha]
    · have hne : (j, m) ≠ (j, (k : Nat)) := fun h => hmk (Prod.mk.inj h).2
      have href : Dinode.ref d { ino j with addrs := update (ino j).addrs k a } m =
          (ino j).ref d m := by
        unfold Dinode.ref
        split
        · next hlt =>
            have : (⟨m, hlt⟩ : Fin (ndirect + 1)) ≠ k := fun h => hmk (congrArg Fin.val h)
            exact update_of_ne this _ _
        · -- an entry of the indirect block
          by_cases hk : k = indirectSlot
          · subst hk
            simp [hempty, hzero rfl]
          · simp [update_of_ne (Ne.symm hk)]
      rw [update_of_ne hne]
      by_cases hm : m < nslot
      · rw [slots_live hi (by simpa using ht) hm, slots_live hi ht hm, update_self, href]
      · rw [slots_of_ge (Nat.not_lt.mp hm), slots_of_ge (Nat.not_lt.mp hm)]
  · have hne : (j, m) ≠ (i, (k : Nat)) := fun h => hj (Prod.mk.inj h).1
    rw [update_of_ne hne]
    exact slots_ref (update_of_ne hj _ _) fun _ _ => rfl

/-- An empty entry of an indirect block gets a block. -/
theorem slots_setIndirect {p : Nat} {a : Word} (h : Owned (slots d ino) (InUse d))
    (hp : slots d ino (i, ndirect) = some p) (hj : j < nindirect) (ha : a ≠ 0#32) :
    slots (update d p (update (d p) j a)) ino =
      update (slots d ino) (i, ndirect + 1 + j) (some a.toNat) := by
  obtain ⟨hi, ht, -, hz, hpn⟩ := slots_eq_some.mp hp
  have hz' : (ino i).addrs indirectSlot ≠ 0#32 := hz
  have hpn' : ((ino i).addrs indirectSlot).toNat = p := hpn
  funext s
  obtain ⟨l, m⟩ := s
  by_cases hl : l = i
  · subst hl
    by_cases hmj : m = ndirect + 1 + j
    · have hm : m < nslot := by unfold nslot; omega
      have href : (ino l).ref (update d p (update (d p) j a)) m = a := by
        rw [hmj, Dinode.ref_entry hz', hpn', update_self, update_self]
      rw [slots_live hi ht hm, href, if_neg ha, hmj, update_self]
    · have hne : (l, m) ≠ (l, ndirect + 1 + j) := fun h => hmj (Prod.mk.inj h).2
      rw [update_of_ne hne]
      refine slots_ref rfl fun _ _ => ?_
      unfold Dinode.ref
      split
      · rfl
      · rw [hpn', update_self]
        exact update_of_ne (by omega) _ _
  · -- other inodes have other indirect blocks
    have hne : (l, m) ≠ (i, ndirect + 1 + j) := fun h => hl (Prod.mk.inj h).1
    rw [update_of_ne hne]
    refine slots_ref rfl fun hln hlt => ref_congr hln hlt fun b hb => ?_
    have hbp : b ≠ p := by
      intro he
      rw [he] at hb
      exact hl (Prod.mk.inj (h.inj hb hp)).1
    rw [update_of_ne hbp]

theorem Sound.isData (h : Sound d ino) {s : Nat × Nat} (hs : slots d ino s = some b) : IsData b :=
  (h.owned.used hs).1

/-! ### The bytes of a file -/

/-- Byte `p` of the file `i`; zero where there is no block. -/
def byte (d : Disk) (ino : Nat → Dinode) (i p : Nat) : Byte :=
  match slots d ino (i, slotOf (p / bsize)) with
  | some b => getByte (d b) (p % bsize)
  | none => 0

theorem byte_eq (d : Disk) (ino : Nat → Dinode) (i p : Nat) : byte d ino i p =
    (slots d ino (i, slotOf (p / bsize))).elim 0 fun b => getByte (d b) (p % bsize) := by
  rw [byte]
  cases slots d ino (i, slotOf (p / bsize)) <;> rfl

/-- The content of the file `i`. -/
def fileBytes (d : Disk) (ino : Nat → Dinode) (i : Nat) : List Byte :=
  (List.range (ino i).size.toNat).map (byte d ino i)

end

/-! ### A volume with its locked inode -/

namespace Vol

variable [Superblock]

/-- The inodes: the locked one is as it is in memory. -/
def ino (v : Vol) : Nat → Dinode := update (dinode v.disk) v.inum v.ip

def slots (v : Vol) : Nat × Nat → Option Nat := Xv6.slots v.disk v.ino

def byte (v : Vol) : Nat → Nat → Byte := Xv6.byte v.disk v.ino

theorem byte_eq (v : Vol) (i p : Nat) : v.byte i p =
    (v.slots (i, slotOf (p / bsize))).elim 0 fun b => getByte (v.disk b) (p % bsize) :=
  Xv6.byte_eq ..

/-- The invariant, and that the locked inode is allocated. -/
structure Ok (v : Vol) : Prop where
  sound : Sound v.disk v.ino
  inum : v.inum < ninodes
  type : v.ip.type ≠ 0#16

/-- Every block that is marked belongs to an inode. -/
def Tidy (v : Vol) : Prop := NoLeak v.slots (InUse v.disk)

/-- The blocks that `balloc` can find. -/
def free (v : Vol) : Finset Nat := (Finset.range size).filter fun b => bit v.disk b = false

/-- The places among `N` that the locked inode has nothing in. -/
def lack (v : Vol) (N : Finset Nat) : Finset Nat := N.filter fun k => v.slots (v.inum, k) = none

/-- There is a free block for each of them. -/
def Enough (v : Vol) (N : Finset Nat) : Prop := (v.lack N).card ≤ v.free.card

@[simp] theorem ino_self (v : Vol) : v.ino v.inum = v.ip := update_self ..

theorem update_ino_self (v : Vol) : update v.ino v.inum v.ip = v.ino := Function.update_idem ..

theorem ino_of_ne {v : Vol} {i : Nat} (h : i ≠ v.inum) : v.ino i = dinode v.disk i :=
  update_of_ne h _ _

/-- The other inodes are as they are on disk. -/
theorem ino_congr {v v' : Vol} (hinum : v'.inum = v.inum) {i : Nat}
    (hd : dinode v'.disk i = dinode v.disk i) : v'.ino i = update v.ino v.inum v'.ip i := by
  by_cases hi : i = v.inum
  · rw [hi, update_self, ← hinum, ino_self]
  · rw [update_of_ne hi, ino_of_ne hi, ino_of_ne (hinum ▸ hi), hd]

theorem slots_self {v : Vol} (h : v.Ok) {k : Nat} (hk : k < nslot) :
    v.slots (v.inum, k) =
      if v.ip.ref v.disk k = 0#32 then none else some (v.ip.ref v.disk k).toNat := by
  have := slots_live (d := v.disk) h.inum (show (v.ino v.inum).type ≠ 0#16 by simpa using h.type) hk
  simpa [slots] using this

end Vol

/-! ### Filling an empty place -/

section
variable [Superblock]

/-- The disk after `balloc` has taken block `n`. -/
def grab (d : Disk) (n : Nat) : Disk := update (setBit d n) n fun _ => 0#32

variable {d : Disk} {n : Nat}

theorem bit_grab (hn : IsData n) {c : Nat} (hc : c < size) :
    bit (grab d n) c = (decide (c = n) || bit d c) := by
  rw [grab, bit_putData hc hn, bit_setBit]

theorem dinode_grab (hn : IsData n) {i : Nat} (hi : i < ninodes) :
    dinode (grab d n) i = dinode d i := by
  rw [grab, dinode_putData hi hn, setBit, dinode_bmap hi]

theorem grab_data (hn : IsData n) {c : Nat} (hc : IsData c) (hne : c ≠ n) :
    grab d n c = d c := by
  rw [grab, update_of_ne hne, setBit, bmap_data hn.2 hc]

theorem grab_self (d : Disk) (n : Nat) : grab d n n = fun _ => 0#32 := update_self ..

theorem Superblock.IsData.pos (hn : IsData n) : 0 < n := Nat.lt_of_lt_of_le datastart_pos hn.1

theorem Superblock.IsData.toNat (hn : IsData n) : (BitVec.ofNat 32 n).toNat = n := by
  have := hn.2
  have := size_lt
  rw [BitVec.toNat_ofNat, Nat.mod_eq_of_lt (by omega)]

theorem Superblock.IsData.ne_zero (hn : IsData n) : BitVec.ofNat 32 n ≠ 0#32 := by
  intro h
  have hpos := hn.pos
  have := congrArg BitVec.toNat h
  rw [hn.toNat] at this
  simp at this
  omega

/-- The place `k` of the locked inode was empty and has the fresh block `n`. -/
structure Fill (v v' : Vol) (k n : Nat) : Prop where
  inum : v'.inum = v.inum
  ip : v'.ip = { v.ip with addrs := v'.ip.addrs }
  dinodes : ∀ i < ninodes, dinode v'.disk i = dinode v.disk i
  empty : v.slots (v.inum, k) = none
  data : IsData n
  fresh : bit v.disk n = false
  slots : v'.slots = update v.slots (v.inum, k) (some n)
  bits : ∀ c < size, bit v'.disk c = (decide (c = n) || bit v.disk c)
  zero : v'.disk n = fun _ => 0#32
  kept : ∀ {s b}, v.slots s = some b → s.2 ≠ ndirect → v'.disk b = v.disk b

namespace Fill

variable {v v' : Vol} {k : Nat}

section
variable (h : Fill v v' k n)
include h

theorem ok (hv : v.Ok) : v'.Ok where
  sound :=
    { owned := by
        have hfresh : ¬ InUse v.disk n := fun hu =>
          absurd (h.fresh.symm.trans hu.2) (by decide)
        have := hv.sound.owned.alloc (s := (v.inum, k)) hfresh
        show Owned v'.slots _
        rw [h.slots]
        refine this.congr fun c hc => ?_
        rcases hc with hc | rfl
        · exact ⟨hc.1, by rw [h.bits c hc.1.2, hc.2, Bool.or_true]⟩
        · exact ⟨h.data, by rw [h.bits c h.data.2]; simp⟩
      reserved := fun b hb => by
        have hlt : b < size := Nat.lt_of_lt_of_le hb (Nat.sub_le _ _)
        rw [h.bits b hlt, hv.sound.reserved b hb, Bool.or_true] }
  inum := h.inum ▸ hv.inum
  type := by rw [h.ip]; exact hv.type

theorem tidy (hv : v.Tidy) : v'.Tidy := by
  intro c hc
  rw [h.slots]
  refine hv.alloc h.empty c ?_
  have hbit := hc.2
  rw [h.bits c hc.1.2, Bool.or_eq_true, decide_eq_true_eq] at hbit
  exact hbit.symm.imp (fun hb => ⟨hc.1, hb⟩) id

/-- Allocation shows in no file: a new block holds zeros. -/
theorem byte (i p : Nat) : v'.byte i p = v.byte i p := by
  rw [Vol.byte_eq, Vol.byte_eq, h.slots]
  by_cases hs : (i, slotOf (p / bsize)) = (v.inum, k)
  · rw [hs, update_self, h.empty, Option.elim_some, h.zero]
    exact getByte_zero _
  · rw [update_of_ne hs]
    cases hb : v.slots (i, slotOf (p / bsize)) with
    | none => rfl
    | some b => rw [Option.elim_some, Option.elim_some, h.kept hb (slotOf_ne _)]

theorem enough {N : Finset Nat} (hk : k ∈ N) (hv : v.Enough N) : v'.Enough N := by
  -- one place less to fill, one free block less
  have hlack : v'.lack N = (v.lack N).erase k := by
    ext m
    simp only [Vol.lack, Finset.mem_filter, Finset.mem_erase, h.slots, h.inum]
    by_cases hm : m = k
    · simp [hm]
    · simp [hm]
  have hfree : v'.free = v.free.erase n := by
    ext c
    simp only [Vol.free, Finset.mem_filter, Finset.mem_range, Finset.mem_erase]
    by_cases hc : c < size
    · rw [h.bits c hc]
      simp [hc]
    · simp [hc]
  have hmem : n ∈ v.free := by simp [Vol.free, h.fresh, h.data.2]
  have hmem' : k ∈ v.lack N := by simp [Vol.lack, hk, h.empty]
  unfold Vol.Enough at hv ⊢
  rw [hlack, hfree, Finset.card_erase_of_mem hmem, Finset.card_erase_of_mem hmem']
  omega

end

end Fill

end

end Xv6
