import Xv6.Fs.File

/-!
# Xv6.Fs.Trunc

`itrunc` gives back every block of an inode, once: the direct blocks, the entries of the
indirect block, and then the indirect block itself. While it runs, the entries already
given back are still in the indirect block, so what is owned is the places without those
(`Vol.cut`). No block is given back twice, so `bfree` never finds its bit clear.
-/

namespace Xv6

open Function (update)
open Superblock

variable [Superblock] {v v' : Vol} {R : Finset Nat} {k b : Nat}

/-- The places without those in `R` of the locked inode. -/
def Vol.cut (v : Vol) (R : Finset Nat) (s : Nat × Nat) : Option Nat :=
  if s.1 = v.inum ∧ s.2 ∈ R then none else v.slots s

theorem Vol.cut_empty (v : Vol) : v.cut ∅ = v.slots := by
  funext s
  simp [cut]

theorem Vol.cut_insert (v : Vol) (R : Finset Nat) (k : Nat) :
    v.cut (insert k R) = update (v.cut R) (v.inum, k) none := by
  funext s
  obtain ⟨i, m⟩ := s
  by_cases hs : (i, m) = (v.inum, k)
  · obtain ⟨rfl, rfl⟩ := Prod.mk.inj hs
    rw [Function.update_self]
    simp [cut]
  · rw [Function.update_of_ne hs]
    unfold cut
    by_cases hi : i = v.inum
    · have hm : m ≠ k := fun h => hs (by rw [hi, h])
      simp [hi, hm]
    · simp [hi]

/-- On the disk `d`, the blocks in the places `R` of the locked inode of `v` have been given
back. -/
structure Given (v : Vol) (d : Disk) (R : Finset Nat) : Prop where
  dinodes : ∀ i < ninodes, dinode d i = dinode v.disk i
  data : ∀ b, IsData b → d b = v.disk b
  owned : Owned (v.cut R) (InUse d)
  tidy : v.Tidy → NoLeak (v.cut R) (InUse d)
  reserved : ∀ b < datastart, bit d b = true

theorem Given.refl (hv : v.Ok) : Given v v.disk ∅ where
  dinodes _ _ := rfl
  data _ _ := rfl
  owned := by rw [Vol.cut_empty]; exact hv.sound.owned
  tidy ht := by rw [Vol.cut_empty]; exact ht
  reserved := hv.sound.reserved

theorem Given.skip {d : Disk} (h : Given v d R) (hk : v.slots (v.inum, k) = none) :
    Given v d (insert k R) := by
  have hcut : v.cut (insert k R) = v.cut R := by
    rw [Vol.cut_insert, Function.update_eq_self_iff]
    simp [Vol.cut, hk]
  exact { h with owned := hcut ▸ h.owned, tidy := fun ht => hcut ▸ h.tidy ht }

theorem bfree_spec {w : Word} (h : Given v v'.disk R) (hk : k ∉ R)
    (hs : v.slots (v.inum, k) = some w.toNat) : Ends (bfree w) v'
      (fun _ u => u.inum = v'.inum ∧ u.ip = v'.ip ∧ Given v u.disk (insert k R)) := by
  have hcut : v.cut R (v.inum, k) = some w.toNat := by simp [Vol.cut, hk, hs]
  have huse := h.owned.used hcut
  have hb : IsData w.toNat := huse.1
  have hbit := bit_resetBit v'.disk w.toNat
  have hinuse : ∀ c, InUse (resetBit v'.disk w.toNat) c ↔ InUse v'.disk c ∧ c ≠ w.toNat := by
    intro c
    unfold InUse
    rw [hbit]
    by_cases hc : c = w.toNat <;> simp [hc]
  rw [bfree, ends_bind, ends_get, if_pos huse.2]
  refine (ends_set ..).mpr ⟨rfl, rfl, ⟨fun i hi => ?_, fun c hc => ?_, ?_, fun ht => ?_,
    fun c hc => ?_⟩⟩
  · exact (dinode_bmap hi _ _).trans (h.dinodes i hi)
  · exact (bmap_data hb.2 hc _).trans (h.data c hc)
  · rw [Vol.cut_insert]
    exact (h.owned.free hcut).congr fun c hc => (hinuse c).mpr hc
  · rw [Vol.cut_insert]
    exact fun c hc => (h.tidy ht).free hcut c ((hinuse c).mp hc)
  · have hne : c ≠ w.toNat := by
      have := hb.1
      omega
    show bit (resetBit v'.disk w.toNat) c = true
    rw [hbit, h.reserved c hc]
    simp [hne]

/-! ### The loops -/

/-- The inode in memory, without the addresses in `R`. -/
def Vol.strip (v : Vol) (R : Finset Nat) : Dinode :=
  { v.ip with addrs := fun k => if (k : Nat) ∈ R then 0#32 else v.ip.addrs k }

/-- The blocks in the places `R` have been given back, and the inode in memory shows it. -/
structure Freed (v v' : Vol) (R : Finset Nat) : Prop where
  inum : v'.inum = v.inum
  ip : v'.ip = v.strip R
  given : Given v v'.disk R

omit [Superblock] in
theorem Vol.strip_insert (v : Vol) (R : Finset Nat) (k : Fin (ndirect + 1)) :
    { v.strip R with addrs := update (v.strip R).addrs k 0#32 } = v.strip (insert (k : Nat) R) := by
  refine Dinode.ext rfl rfl rfl rfl rfl (funext fun m => ?_)
  by_cases hm : m = k
  · simp [strip, hm]
  · have : (m : Nat) ≠ k := fun h => hm (Fin.ext h)
    simp [strip, hm, this]

/-- One address: its block is given back, and it is cleared. -/
theorem freeAddr_spec {k : Fin (ndirect + 1)} (hv : v.Ok) (h : Freed v v' R) (hk : (k : Nat) ∉ R)
    (hz : v'.ip.addrs k ≠ 0#32) :
    Ends (do bfree (v'.ip.addrs k); setAddr k 0#32) v'
      (fun _ u => Freed v u (insert (k : Nat) R)) := by
  have haddr : v'.ip.addrs k = v.ip.addrs k := by
    rw [h.ip]
    exact if_neg hk
  have hlt : (k : Nat) < nslot := Nat.lt_of_lt_of_le k.isLt (by decide)
  have hs : v.slots (v.inum, k) = some (v'.ip.addrs k).toNat := by
    rw [Vol.slots_self hv hlt, haddr]
    have href : v.ip.ref v.disk k = v.ip.addrs k := Dinode.ref_addr k
    rw [href, if_neg (haddr ▸ hz)]
  refine (bfree_spec h.given hk hs).bind fun _ u hu => ?_
  obtain ⟨hinum, hip, hgiven⟩ := hu
  rw [setAddr, ends_modify]
  refine ⟨hinum.trans h.inum, ?_, hgiven⟩
  rw [hip, h.ip]
  exact Vol.strip_insert v R k

theorem Freed.skip {k : Fin (ndirect + 1)} (hv : v.Ok) (h : Freed v v' R) (hk : (k : Nat) ∉ R)
    (hz : v'.ip.addrs k = 0#32) : Freed v v' (insert (k : Nat) R) := by
  have haddr : v.ip.addrs k = 0#32 := by
    rw [h.ip] at hz
    rw [← hz]
    exact (if_neg hk).symm
  have hlt : (k : Nat) < nslot := Nat.lt_of_lt_of_le k.isLt (by decide)
  refine ⟨h.inum, ?_, h.given.skip ?_⟩
  · rw [← Vol.strip_insert, ← h.ip]
    have : update v'.ip.addrs k 0#32 = v'.ip.addrs := by rw [← hz, Function.update_eq_self]
    rw [this]
  · rw [Vol.slots_self hv hlt, if_pos ((Dinode.ref_addr k).trans haddr)]

/-- The places of a list of addresses. -/
def placesOf (ks : List (Fin (ndirect + 1))) : Finset Nat := (ks.map Fin.val).toFinset

theorem freeDirect_spec (hv : v.Ok) (ks : List (Fin (ndirect + 1))) : ∀ {v' : Vol} {R : Finset Nat},
    Freed v v' R → ks.Nodup → (∀ k ∈ ks, (k : Nat) ∉ R) → Ends (freeDirect ks) v'
      (fun _ u => Freed v u (R ∪ placesOf ks)) := by
  induction ks with
  | nil =>
    intro v' R h _ _
    rw [freeDirect]
    exact .ret (by simpa [placesOf] using h)
  | cons k ks ih =>
    intro v' R h hnd hnew
    obtain ⟨hk, hnd'⟩ := List.nodup_cons.mp hnd
    have hset : R ∪ placesOf (k :: ks) = insert (k : Nat) R ∪ placesOf ks := by
      ext m
      simp [placesOf]
    have hnew' : ∀ m ∈ ks, (m : Nat) ∉ insert (k : Nat) R := by
      intro m hm
      have hmk : (m : Nat) ≠ k := fun h => hk (Fin.ext h ▸ hm)
      simp [hmk, hnew m (List.mem_cons_of_mem _ hm)]
    rw [freeDirect, ends_bind, ends_get, ends_ite, hset]
    refine ⟨fun hz => ?_, fun hz => ?_⟩
    · have hfree := freeAddr_spec hv h (hnew k List.mem_cons_self) hz
      rw [ends_bind] at hfree ⊢
      refine hfree.imp fun _ u hu => ?_
      exact hu.bind fun _ w hw => ih hw hnd' hnew'
    · exact ih (h.skip hv (hnew k List.mem_cons_self) (not_not.mp hz)) hnd' hnew'

/-- The entries of the indirect block that `js` are about. -/
def entriesOf (js : List Nat) : Finset Nat := (js.map (ndirect + 1 + ·)).toFinset

theorem freeIndirect_spec {a : Block} {ip : Dinode}
    (ha : ∀ j < nindirect, v.slots (v.inum, ndirect + 1 + j) =
      if a j = 0#32 then none else some (a j).toNat) (js : List Nat) :
    ∀ {v' : Vol} {R : Finset Nat}, v'.inum = v.inum → v'.ip = ip → Given v v'.disk R → js.Nodup →
      (∀ j ∈ js, j < nindirect ∧ ndirect + 1 + j ∉ R) → Ends (freeIndirect a js) v'
        (fun _ u => u.inum = v.inum ∧ u.ip = ip ∧ Given v u.disk (R ∪ entriesOf js)) := by
  induction js with
  | nil =>
    intro v' R hinum hip h _ _
    rw [freeIndirect]
    exact .ret ⟨hinum, hip, by simpa [entriesOf] using h⟩
  | cons j js ih =>
    intro v' R hinum hip h hnd hnew
    obtain ⟨hj, hnd'⟩ := List.nodup_cons.mp hnd
    obtain ⟨hlt, hR⟩ := hnew j List.mem_cons_self
    have hset : R ∪ entriesOf (j :: js) = insert (ndirect + 1 + j) R ∪ entriesOf js := by
      ext m
      simp [entriesOf]
    have hnew' : ∀ m ∈ js, m < nindirect ∧ ndirect + 1 + m ∉ insert (ndirect + 1 + j) R := by
      intro m hm
      have hmj : m ≠ j := fun h => hj (h ▸ hm)
      have := hnew m (List.mem_cons_of_mem _ hm)
      simp [hmj, this]
    rw [freeIndirect, ends_ite, hset]
    refine ⟨fun hz => ?_, fun hz => ?_⟩
    · have hs := ha j hlt
      rw [if_neg hz] at hs
      refine (bfree_spec h hR hs).bind fun _ u hu => ?_
      obtain ⟨hinum', hip', hgiven⟩ := hu
      exact ih (hinum'.trans hinum) (hip'.trans hip) hgiven hnd' hnew'
    · have hs := ha j hlt
      rw [if_pos (not_not.mp hz)] at hs
      exact ih hinum hip (h.skip hs) hnd' hnew'

/-! ### `itrunc` -/

/-- The inode after `itrunc`. -/
def Dinode.truncated (ip : Dinode) : Dinode := { ip with size := 0#32, addrs := fun _ => 0#32 }

/-- The places of all inodes but one. -/
def slotsBut (d : Disk) (ino : Nat → Dinode) (i : Nat) (s : Nat × Nat) : Option Nat :=
  if s.1 = i then none else slots d ino s

theorem Vol.cut_all (hR : ∀ k, k ∉ R → v.slots (v.inum, k) = none) :
    v.cut R = slotsBut v.disk v.ino v.inum := by
  funext s
  obtain ⟨i, k⟩ := s
  unfold cut slotsBut
  by_cases hi : i = v.inum
  · subst hi
    by_cases hk : k ∈ R
    · simp [hk]
    · simpa [hk] using hR k hk
  · simp [hi, slots]

omit [Superblock] in
theorem Vol.strip_congr {S : Finset Nat} (h : ∀ k < ndirect + 1, k ∈ R ↔ k ∈ S) :
    v.strip R = v.strip S :=
  Dinode.ext rfl rfl rfl rfl rfl (funext fun m => if_congr (h m m.isLt) rfl rfl)

omit [Superblock] in
/-- All addresses are among the places given back. -/
theorem Vol.strip_all (hR : ∀ k < ndirect + 1, k ∈ R) :
    v.strip R = { v.ip with addrs := fun _ => 0#32 } :=
  Dinode.ext rfl rfl rfl rfl rfl (funext fun m => if_pos (hR m m.isLt))

theorem truncIndirect_spec (hv : v.Ok) (h : Freed v v' (Finset.range ndirect)) :
    Ends truncIndirect v'
      (fun _ u => u.inum = v.inum ∧ u.ip = { v.ip with addrs := fun _ => 0#32 } ∧
        ∃ R, Given v u.disk R ∧ v.cut R = slotsBut v.disk v.ino v.inum) := by
  have hmem : ndirect ∉ Finset.range ndirect := by simp
  have haddr : v'.ip.addrs indirectSlot = v.ip.addrs indirectSlot := by
    rw [h.ip]
    simp [Vol.strip, indirectSlot]
  have hslot : v.slots (v.inum, ndirect) = if v.ip.addrs indirectSlot = 0#32 then none
      else some (v.ip.addrs indirectSlot).toNat := Vol.slots_self hv (by decide)
  rw [truncIndirect, ends_bind, ends_get, ends_ite]
  refine ⟨fun hz => ?_, fun hz => ?_⟩
  · have hz' : v.ip.addrs indirectSlot ≠ 0#32 := haddr ▸ hz
    rw [if_neg hz'] at hslot
    -- the entries, as they were when the loop starts
    have hblock : v'.disk (v'.ip.addrs indirectSlot).toNat =
        v.disk (v.ip.addrs indirectSlot).toNat := by
      rw [haddr, h.given.data _ (hv.sound.isData hslot)]
    have ha : ∀ j < nindirect, v.slots (v.inum, ndirect + 1 + j) =
        if v'.disk (v'.ip.addrs indirectSlot).toNat j = 0#32 then none
        else some (v'.disk (v'.ip.addrs indirectSlot).toNat j).toNat := by
      intro j hj
      have href : v.ip.ref v.disk (ndirect + 1 + j) =
          v'.disk (v'.ip.addrs indirectSlot).toNat j := by
        rw [hblock]
        exact Dinode.ref_entry hz'
      rw [Vol.slots_self hv (by unfold nslot; omega), href]
    refine (freeIndirect_spec ha (List.range nindirect) h.inum rfl h.given List.nodup_range
      fun j hj => ⟨List.mem_range.mp hj, by simp; omega⟩).bind fun _ u hu => ?_
    obtain ⟨hinum, hip, hgiven⟩ := hu
    have hmem' : ∀ k, k ∈ Finset.range ndirect ∪ entriesOf (List.range nindirect) ↔
        k < ndirect ∨ ndirect + 1 ≤ k ∧ k < nslot := by
      intro k
      simp only [entriesOf, Finset.mem_union, Finset.mem_range, List.mem_toFinset, List.mem_map,
        List.mem_range]
      refine or_congr_right ⟨fun hk => ?_, fun hk => ⟨k - (ndirect + 1), ?_, ?_⟩⟩
      · obtain ⟨j, hj, rfl⟩ := hk
        exact ⟨by omega, by unfold nslot; omega⟩
      · unfold nslot at hk
        omega
      · omega
    have hfreed : Freed v u (Finset.range ndirect ∪ entriesOf (List.range nindirect)) := by
      refine ⟨hinum, ?_, hgiven⟩
      rw [hip, h.ip]
      refine Vol.strip_congr fun k hk => ?_
      rw [hmem', Finset.mem_range]
      omega
    have hlast := freeAddr_spec (k := indirectSlot) hv hfreed
      (by rw [hmem']; simp [indirectSlot]) (by rw [hip]; exact hz)
    rw [hip] at hlast
    refine hlast.imp fun _ w hw => ⟨hw.inum, hw.ip.trans (Vol.strip_all fun k hk => ?_), _,
      hw.given, Vol.cut_all fun k hk => ?_⟩
    · rw [Finset.mem_insert, hmem']
      simp only [indirectSlot, Fin.val_last]
      omega
    · rw [Finset.mem_insert, hmem'] at hk
      simp only [indirectSlot, Fin.val_last] at hk
      exact slots_of_ge (by omega)
  · -- no indirect block: the places beyond are empty
    rw [if_pos (haddr ▸ not_not.mp hz)] at hslot
    have hfree := h.skip (k := indirectSlot) hv hmem (not_not.mp hz)
    refine .ret ⟨hfree.inum, hfree.ip.trans (Vol.strip_all fun k hk => ?_), _, hfree.given,
      Vol.cut_all fun k hk => ?_⟩
    · simp [indirectSlot]
      omega
    · simp [indirectSlot] at hk
      cases hs : v.slots (v.inum, k) with
      | none => rfl
      | some b =>
        obtain ⟨j, rfl⟩ := Nat.exists_eq_add_of_le (show ndirect + 1 ≤ k by omega)
        obtain ⟨p, hp⟩ := slots_indirect hs
        exact absurd (hslot.symm.trans hp) nofun

/-- `itrunc` on a locked inode: it has no blocks any more, in memory and on the disk, and
nothing else has changed. -/
theorem itrunc_spec (hv : v.Ok) : Ends itrunc v
    (fun _ u => u.inum = v.inum ∧ u.ip = v.ip.truncated ∧
      (∀ i < ninodes, dinode u.disk i = update (dinode v.disk) v.inum v.ip.truncated i) ∧
      (∀ b, IsData b → u.disk b = v.disk b) ∧
      Owned (slotsBut v.disk v.ino v.inum) (InUse u.disk) ∧
      (v.Tidy → NoLeak (slotsBut v.disk v.ino v.inum) (InUse u.disk)) ∧
      ∀ b < datastart, bit u.disk b = true) := by
  have hplaces : ∅ ∪ placesOf ((List.finRange ndirect).map Fin.castSucc) =
      Finset.range ndirect := by
    decide
  have hdirect := freeDirect_spec hv ((List.finRange ndirect).map Fin.castSucc)
    ⟨rfl, by simp [Vol.strip], Given.refl hv⟩ (by decide) (by simp)
  rw [hplaces] at hdirect
  rw [itrunc]
  refine hdirect.bind fun _ u hu => ?_
  refine (truncIndirect_spec hv hu).bind fun _ w hw => ?_
  obtain ⟨hinum, hip, R, hgiven, hcut⟩ := hw
  rw [ends_bind, ends_modify, iupdate, ends_modify]
  have htrunc : { w.ip with size := 0#32 } = v.ip.truncated := by rw [hip]; rfl
  simp only [htrunc, hinum]
  have hbit : ∀ c, bit (putDinode w.disk v.inum v.ip.truncated) c = bit w.disk c :=
    fun c => bit_putDinode hv.inum _ c
  have hinuse : ∀ c, InUse (putDinode w.disk v.inum v.ip.truncated) c ↔ InUse w.disk c :=
    fun c => and_congr_right fun _ => by rw [hbit]
  refine ⟨trivial, trivial, fun i hi => ?_, fun b hb => ?_, ?_, fun ht => ?_, fun b hb => ?_⟩
  · rw [dinode_putDinode, Function.update_apply, hgiven.dinodes i hi]
  · rw [putDinode_data hv.inum hb, hgiven.data b hb]
  · rw [← hcut]
    exact hgiven.owned.congr fun c hc => (hinuse c).mpr hc
  · rw [← hcut]
    exact fun c hc => hgiven.tidy ht c ((hinuse c).mp hc)
  · rw [hbit, hgiven.reserved b hb]

end Xv6
