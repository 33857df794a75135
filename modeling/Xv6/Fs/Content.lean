import Mathlib.Data.Finset.Union
import Xv6.Fs.Bmap

/-!
# Xv6.Fs.Content

The loops of `readi` and `writei`. Each round of either handles the part of the range that
lies in one block. A round of `writei` grows the volume (`bmap`) and overwrites bytes of
one block, which is no other place's block and no indirect block; so the bytes of the
range change, and no others, in this file or another.
-/

namespace Xv6

open Function (update update_of_ne)
open Superblock

variable [Superblock] {v v' : Vol} {off n : Nat}

/-! ### One block -/

/-- A volume with other data in it, but the same places and the same free map. -/
theorem Grow.of_same (hv : v.Ok) (hinum : v'.inum = v.inum) (hip : v'.ip = v.ip)
    (hd : ∀ i < ninodes, dinode v'.disk i = dinode v.disk i) (hslots : v'.slots = v.slots)
    (hbits : ∀ c < size, bit v'.disk c = bit v.disk c) {N : Finset Nat} : Grow v v' N where
  inum := hinum
  ip := by rw [hip]
  dinodes := hd
  ok :=
    { sound :=
        { owned := by
            show Owned v'.slots _
            rw [hslots]
            exact hv.sound.owned.congr fun c hc => ⟨hc.1, by rw [hbits c hc.1.2, hc.2]⟩
          reserved := fun b hb => by
            rw [hbits b (Nat.lt_of_lt_of_le hb (Nat.sub_le _ _)), hv.sound.reserved b hb] }
      inum := hinum ▸ hv.inum
      type := hip ▸ hv.type }
  tidy ht c hc := by
    rw [hslots]
    exact ht c ⟨hc.1, by rw [← hbits c hc.1.2, hc.2]⟩
  kept hs := by rw [hslots, hs]
  new hs hs' := absurd (hslots ▸ hs) hs'
  enough := by
    intro M _ hM
    have hlack : v'.lack M = v.lack M := by simp only [Vol.lack, hslots, hinum]
    have hfree : v'.free = v.free :=
      Finset.filter_congr fun c hc => by rw [hbits c (Finset.mem_range.mp hc)]
    rw [Vol.Enough, hlack, hfree]
    exact hM

/-- Overwrite bytes of block `b`, from offset `o` on. -/
def Vol.put (v : Vol) (b o : Nat) (ds : List Byte) : Vol :=
  { v with disk := update v.disk b (putBytes (v.disk b) o ds) }

section
variable {bn b o : Nat} {ds : List Byte}

section
variable (hv : v.Ok) (hs : v.slots (v.inum, slotOf bn) = some b)
include hv hs

/-- A block of a file is no indirect block. -/
theorem Vol.put_slots : (v.put b o ds).slots = v.slots := by
  have hb : IsData b := hv.sound.isData hs
  refine slots_congr (fun i hi => ?_) fun i c hc => ?_
  · refine (Vol.ino_congr (v := v) ?_ ?_).trans (congrFun v.update_ino_self i)
    · rfl
    · exact dinode_putData hi hb _
  · have hcb : c ≠ b := by
      intro he
      rw [he] at hc
      exact slotOf_ne bn (congrArg Prod.snd (hv.sound.owned.inj hc hs)).symm
    exact update_of_ne hcb _ _

theorem Vol.put_grow {N : Finset Nat} : Grow v (v.put b o ds) N := by
  have hb : IsData b := hv.sound.isData hs
  refine .of_same hv ?_ ?_ (fun i hi => ?_) (put_slots hv hs) fun c hc => ?_
  · rfl
  · rfl
  · exact dinode_putData hi hb _
  · exact bit_putData hc hb _

theorem Vol.put_byte (ho : o + ds.length ≤ bsize) (i p : Nat) : (v.put b o ds).byte i p =
      if i = v.inum ∧ bn * bsize + o ≤ p ∧ p < bn * bsize + o + ds.length then
        ds.getD (p - (bn * bsize + o)) 0
      else v.byte i p := by
  have hslots : (v.put b o ds).slots = v.slots := put_slots hv hs
  rw [Vol.byte_eq, Vol.byte_eq, hslots]
  have hmul : p / bsize * bsize + p % bsize = p := Nat.div_add_mod' p bsize
  have hmod : p % bsize < bsize := Nat.mod_lt _ (by decide)
  by_cases hsame : (i, slotOf (p / bsize)) = (v.inum, slotOf bn)
  · obtain ⟨rfl, hbn⟩ := Prod.mk.inj hsame
    rw [hsame, hs, ← slotOf_inj hbn]
    show getByte (update v.disk b (putBytes (v.disk b) o ds) b) (p % bsize) = _
    rw [Function.update_self, getByte_putBytes]
    by_cases hin : o ≤ p % bsize ∧ p % bsize < o + ds.length
    · have : p - (p / bsize * bsize + o) = p % bsize - o := by omega
      rw [if_pos hin, if_pos ⟨rfl, by omega, by omega⟩, this]
    · rw [if_neg hin, if_neg (by omega), Option.elim_some]
  · -- bytes of other blocks
    have hout : ¬ (i = v.inum ∧ bn * bsize + o ≤ p ∧ p < bn * bsize + o + ds.length) := by
      intro h
      obtain ⟨rfl, h1, h2⟩ := h
      have : p / bsize = bn := by
        rw [Nat.div_eq_iff (by decide)]
        omega
      exact hsame (by rw [this])
    rw [if_neg hout]
    cases hc : v.slots (i, slotOf (p / bsize)) with
    | none => rfl
    | some c =>
      have hcb : c ≠ b := by
        intro he
        rw [he] at hc
        exact hsame (hv.sound.owned.inj hc hs)
      show getByte (update v.disk b _ c) _ = _
      rw [update_of_ne hcb, Option.elim_some]

end

end

/-! ### The loops -/

/-- The blocks of a file that a range of its bytes lies in. -/
def touched (off n : Nat) : Finset Nat :=
  (Finset.range maxfile).filter fun bn => off / bsize ≤ bn ∧ bn * bsize < off + n ∧ 0 < n

/-- The places that `writei` of the range may fill. -/
def rangeNeeds (off n : Nat) : Finset Nat := (touched off n).biUnion needs

section
omit [Superblock]

theorem mem_touched {bn : Nat} : bn ∈ touched off n ↔
    bn < maxfile ∧ off / bsize ≤ bn ∧ bn * bsize < off + n ∧ 0 < n := by
  simp [touched]

/-- The places that a part of a range needs. -/
theorem rangeNeeds_subset {off' n' : Nat} (hoff : off ≤ off') (hend : off' + n' ≤ off + n) :
    rangeNeeds off' n' ⊆ rangeNeeds off n := by
  refine Finset.biUnion_subset_biUnion_of_subset_left _ fun bn hbn => ?_
  rw [mem_touched] at hbn ⊢
  have hdiv : off / bsize ≤ off' / bsize := Nat.div_le_div_right hoff
  omega

theorem touched_split {m bn : Nat} (hm : m = min n (bsize - off % bsize))
    (h : bn ∈ touched off n) : bn = off / bsize ∨ bn ∈ touched (off + m) (n - m) := by
  rw [mem_touched] at h ⊢
  obtain ⟨hdm, hlt⟩ := block_split off
  unfold bsize at *
  omega

theorem touched_rest {m bn : Nat} (hm : m = min n (bsize - off % bsize))
    (h : bn ∈ touched (off + m) (n - m)) : bn ∈ touched off n := by
  rw [mem_touched] at h ⊢
  have hle : off / bsize ≤ (off + m) / bsize := Nat.div_le_div_right (by omega)
  omega

theorem touched_first (hn : 0 < n) (hfit : off + n ≤ maxfile * bsize) :
    off / bsize ∈ touched off n := by
  rw [mem_touched]
  have hdm := (block_split off).1
  refine ⟨?_, le_rfl, by omega, hn⟩
  rw [Nat.div_lt_iff_lt_mul (by decide)]
  omega

end

/-- What `writei`'s loop has done. -/
structure Wrote (v v' : Vol) (off : Nat) (src : List Byte) : Prop where
  grow : Grow v v' (rangeNeeds off src.length)
  byte : ∀ i p, v'.byte i p =
    if i = v.inum ∧ off ≤ p ∧ p < off + src.length then src.getD (p - off) 0 else v.byte i p
  filled : ∀ bn ∈ touched off src.length, v'.slots (v.inum, slotOf bn) ≠ none

theorem writeLoop_spec : ∀ {src : List Byte} {off : Nat} {v : Vol}, v.Ok →
    off + src.length ≤ maxfile * bsize → Ends (writeLoop off src) v
      (fun _ v' => Wrote v v' off src)
      (fun e => e = .outOfBlocks ∧ ∀ N, rangeNeeds off src.length ⊆ N → ¬ v.Enough N) := by
  intro src
  induction hlen : src.length using Nat.strong_induction_on generalizing src with
  | _ len ih =>
  intro off v hv hfit
  rw [writeLoop, ends_ite]
  refine ⟨fun hnil => ?_, fun hne => ?_⟩
  · subst hnil
    refine .ret ⟨.refl hv, fun i p => ?_, fun bn hbn => ?_⟩
    · rw [if_neg fun h => by simp at h; omega]
    · simp [mem_touched] at hbn
  · have hpos : 0 < src.length := List.length_pos_iff.mpr hne
    obtain ⟨hdm, hmod⟩ := block_split off
    have hfirst := touched_first hpos (hlen ▸ hfit)
    have hneeds : needs (off / bsize) ⊆ rangeNeeds off src.length :=
      Finset.subset_biUnion_of_mem needs hfirst
    obtain ⟨m, hm⟩ : ∃ m, m = min src.length (bsize - off % bsize) := ⟨_, rfl⟩
    rw [← hlen]
    simp only [← hm]
    rw [ends_bind]
    refine (bmap_spec hv (mem_touched.mp hfirst).1).mono (fun a v1 h1 => ?_) fun e he =>
      ⟨he.1, fun N hN => he.2 N (hneeds.trans hN)⟩
    obtain ⟨hgrow1, hbyte1, hslot1⟩ := h1
    rw [ends_bind, ends_modify]
    rw [← hgrow1.inum] at hslot1
    -- the bytes of this round
    have htake : (src.take m).length = m := by rw [List.length_take]; omega
    have hgrow2 : Grow v1 (v1.put a.toNat (off % bsize) (src.take m))
        (rangeNeeds off src.length) := Vol.put_grow hgrow1.ok hslot1
    have hbyte2 := Vol.put_byte hgrow1.ok hslot1
      (show off % bsize + (src.take m).length ≤ bsize by rw [htake]; omega)
    have hgrow12 := (hgrow1.mono hneeds).trans hgrow2
    have hdrop : (src.drop m).length = src.length - m := List.length_drop
    have hrest : rangeNeeds (off + m) (src.drop m).length ⊆ rangeNeeds off src.length := by
      rw [hdrop]
      exact Finset.biUnion_subset_biUnion_of_subset_left _ fun bn hbn => touched_rest hm hbn
    refine (ih (src.drop m).length (by omega) rfl hgrow2.ok (by omega)).mono
      (fun _ v3 h3 => ?_) fun e he =>
        ⟨he.1, fun N hN hen => he.2 N (hrest.trans hN) (hgrow12.enough hN hen)⟩
    refine ⟨hgrow12.trans (h3.grow.mono hrest), fun i p => ?_, fun bn hbn => ?_⟩
    · rw [h3.byte, hbyte2, hbyte1, hdm, htake, hdrop]
      have hi : (v1.put a.toNat (off % bsize) (src.take m)).inum = v.inum := hgrow1.inum
      rw [hi, hgrow1.inum]
      by_cases hp : i = v.inum ∧ off ≤ p ∧ p < off + src.length
      · rw [if_pos hp]
        by_cases hp' : p < off + m
        · rw [if_neg (by omega), if_pos ⟨hp.1, hp.2.1, hp'⟩]
          simp only [List.getD_eq_getElem?_getD, List.getElem?_take]
          rw [if_pos (by omega)]
        · rw [if_pos ⟨hp.1, by omega, by omega⟩]
          simp only [List.getD_eq_getElem?_getD, List.getElem?_drop]
          rw [show m + (p - (off + m)) = p - off by omega]
      · rw [if_neg hp, if_neg fun h => hp ⟨h.1, by omega, by omega⟩,
          if_neg fun h => hp ⟨h.1, by omega, by omega⟩]
    · rcases touched_split hm hbn with rfl | hbn'
      · rw [← hgrow1.inum, h3.grow.kept (hgrow2.kept hslot1)]
        nofun
      · rw [← hgrow1.inum]
        exact h3.filled bn (by rw [hdrop]; exact hbn')

/-- Byte `p` of the locked inode, where its address says. -/
def Vol.at (v : Vol) (p : Nat) : Byte :=
  getByte (v.disk (v.ip.ref v.disk (slotOf (p / bsize))).toNat) (p % bsize)

omit [Superblock] in
theorem Vol.at_add {j : Nat} (hj : off % bsize + j < bsize) : v.at (off + j) =
    getByte (v.disk (v.ip.ref v.disk (slotOf (off / bsize))).toNat) (off % bsize + j) := by
  have hdm := (block_split off).1
  have hdiv : (off + j) / bsize = off / bsize := by
    rw [Nat.div_eq_iff (by decide)]
    omega
  have hmod : (off + j) % bsize = off % bsize + j := by
    have := Nat.div_add_mod' (off + j) bsize
    rw [hdiv] at this
    omega
  rw [Vol.at, hdiv, hmod]

/-- With all addresses there, the free map is not looked at. -/
theorem readLoop_refs : ∀ {n off : Nat}, off + n ≤ maxfile * bsize →
    (∀ bn ∈ touched off n, v.ip.ref v.disk (slotOf bn) ≠ 0#32) →
      (readLoop off n).run v = .ok ((List.range n).map fun j => v.at (off + j), v) := by
  intro n
  induction n using Nat.strong_induction_on with
  | _ n ih =>
  intro off hfit hrefs
  rw [run_eq_ok, readLoop, ends_ite]
  refine ⟨fun hz => ?_, fun hz => ?_⟩
  · subst hz
    exact .ret ⟨rfl, rfl⟩
  · have hpos : 0 < n := Nat.pos_of_ne_zero hz
    have hmod := (block_split off).2
    have hfirst := touched_first hpos hfit
    obtain ⟨m, hm⟩ : ∃ m, m = min n (bsize - off % bsize) := ⟨_, rfl⟩
    simp only [← hm]
    refine .bind (run_eq_ok.mp (bmap_ref (mem_touched.mp hfirst).1 (hrefs _ hfirst))) ?_
    intro a v1 h1
    obtain ⟨rfl, rfl⟩ := h1
    rw [ends_bind, ends_get]
    refine .bind (run_eq_ok.mp (ih (n - m) (by omega) (by omega)
      fun bn hbn => hrefs bn (touched_rest hm hbn))) ?_
    intro rest v2 h2
    obtain ⟨rfl, rfl⟩ := h2
    refine .ret ⟨?_, rfl⟩
    -- the block's part, then the rest
    have hn : n = m + (n - m) := by omega
    conv => rhs; rw [hn, List.range_add, List.map_append, List.map_map]
    refine congrArg₂ _ (List.map_congr_left fun j hj => ?_) (List.map_congr_left fun j _ => ?_)
    · have hj' : j < m := List.mem_range.mp hj
      rw [Vol.at_add (by omega)]
    · rw [Function.comp_apply, Nat.add_assoc]

theorem readLoop_spec (hv : v.Ok) (hfit : off + n ≤ maxfile * bsize)
    (hpages : ∀ bn ∈ touched off n, v.slots (v.inum, slotOf bn) ≠ none) : Ends (readLoop off n) v
      (fun bytes v' => v' = v ∧ bytes = (List.range n).map fun j => v.byte v.inum (off + j)) := by
  have hrefs : ∀ bn ∈ touched off n, v.ip.ref v.disk (slotOf bn) ≠ 0#32 := by
    intro bn hbn
    obtain ⟨b, hb⟩ := Option.ne_none_iff_exists'.mp (hpages bn hbn)
    exact (Vol.ref_eq hb).1
  refine (run_eq_ok.mp (readLoop_refs hfit hrefs)).imp fun bytes v' h => ?_
  obtain ⟨rfl, rfl⟩ := h
  refine ⟨rfl, List.map_congr_left fun j hj => ?_⟩
  have hj' : j < n := List.mem_range.mp hj
  have hbn : (off + j) / bsize ∈ touched off n := by
    have hdm : (off + j) / bsize * bsize + (off + j) % bsize = off + j := Nat.div_add_mod' _ _
    have hle : off / bsize ≤ (off + j) / bsize := Nat.div_le_div_right (by omega)
    have hlt : (off + j) / bsize < maxfile := by
      rw [Nat.div_lt_iff_lt_mul (by decide)]
      omega
    rw [mem_touched]
    omega
  obtain ⟨b, hb⟩ := Option.ne_none_iff_exists'.mp (hpages _ hbn)
  rw [Vol.byte_eq, hb, Vol.at, (Vol.ref_eq hb).2]
  rfl

end Xv6
