import Xv6.Fs.Own

/-!
# Xv6.Fs.Bmap

What `bmap` does: the address that it returns is the block of the place asked for, and the
volume has at most been grown by a fresh block there and by an indirect block (`Grow`).
A place that has a block is left as it is, so `readi` below the size of a file without
holes changes nothing.
-/

namespace Xv6

open Function (update update_self update_of_ne)
open Superblock

variable [Superblock] {v v' v'' : Vol} {N : Finset Nat}

/-! ### One allocation -/

/-- `balloc` takes the first block that is not marked. -/
theorem ends_balloc {b : Nat} {Q : Word → Vol → Prop} {E : FsPanic → Prop}
    (h : (List.range size).find? (fun b => !bit v.disk b) = some b) :
    Ends balloc v Q E ↔ Q (BitVec.ofNat 32 b) { v with disk := grab v.disk b } := by
  rw [balloc, ends_bind, ends_get, h]
  show Ends (_ >>= fun _ => pure _) v _ _ ↔ _
  rw [ends_bind, ends_set, ends_pure]
  rfl

theorem balloc_spec (hv : v.Ok) : Ends balloc v
    (fun a v' => ∃ n, IsData n ∧ bit v.disk n = false ∧ a = BitVec.ofNat 32 n ∧
      v' = { v with disk := grab v.disk n })
    (fun e => e = .outOfBlocks ∧ v.free = ∅) := by
  cases hf : (List.range size).find? fun b => !bit v.disk b with
  | none =>
    rw [balloc, ends_bind, ends_get, hf]
    refine (ends_throw ..).mpr ⟨rfl, Finset.filter_eq_empty_iff.mpr fun b hb => ?_⟩
    have := List.find?_eq_none.mp hf b (List.mem_range.mpr (Finset.mem_range.mp hb))
    simpa using this
  | some b =>
    have hlt : b < size := List.mem_range.mp (List.mem_of_find?_eq_some hf)
    have hbit : bit v.disk b = false := by simpa using List.find?_some hf
    -- the blocks outside the data area are marked
    have hdata : datastart ≤ b := by
      by_contra hlow
      have := hv.sound.reserved b (by omega)
      rw [hbit] at this
      cases this
    exact (ends_balloc hf).mpr ⟨b, ⟨hdata, hlt⟩, hbit, rfl, rfl⟩

/-- A block that a place has is not a free one. -/
theorem Vol.Ok.ne_of_free {s : Nat × Nat} {b n : Nat} (hv : v.Ok) (hs : v.slots s = some b)
    (hn : bit v.disk n = false) : b ≠ n := by
  intro h
  have := (hv.sound.owned.used hs).2
  rw [h, hn] at this
  cases this

theorem slots_grab (hv : v.Ok) {n : Nat} (hn : IsData n) (hfree : bit v.disk n = false) :
    slots (grab v.disk n) v.ino = v.slots :=
  slots_congr (fun _ _ => rfl) fun _ _ hs =>
    grab_data hn (hv.sound.isData hs) (hv.ne_of_free hs hfree)

theorem loadAddr_spec (hv : v.Ok) (k : Fin (ndirect + 1)) : Ends (loadAddr k) v
    (fun a v' => v' = v ∧ v.slots (v.inum, k) = some a.toNat ∨ Fill v v' k a.toNat)
    (fun e => e = .outOfBlocks ∧ v.free = ∅ ∧ v.slots (v.inum, k) = none) := by
  have hk : (k : Nat) < nslot := Nat.lt_of_lt_of_le k.isLt (by decide)
  have href : v.ip.ref v.disk k = v.ip.addrs k := Dinode.ref_addr k
  have hslot := Vol.slots_self hv hk
  rw [href] at hslot
  rw [loadAddr, ends_bind, ends_get, ends_ite]
  refine ⟨fun hz => ?_, fun hz => .ret (.inl ⟨rfl, by rw [hslot, if_neg hz]⟩)⟩
  rw [if_pos hz] at hslot
  rw [ends_bind]
  refine (balloc_spec hv).mono ?_ fun e he => ⟨he.1, he.2, hslot⟩
  intro a v' h
  obtain ⟨n, hn, hfree, rfl, rfl⟩ := h
  rw [ends_bind, setAddr, ends_modify, ends_pure, hn.toNat]
  refine .inr ⟨rfl, rfl, fun i hi => dinode_grab hn hi, hslot, hn, hfree, ?_,
    fun c hc => bit_grab hn hc, grab_self _ _,
    fun hs _ => grab_data hn (hv.sound.isData hs) (hv.ne_of_free hs hfree)⟩
  -- the inode changes in memory, after the block has been taken
  have hset := slots_setAddr (d := grab v.disk n) (k := k) hv.inum
    (show (v.ino v.inum).type ≠ 0#16 by simpa using hv.type) (by simpa using hz) hn.ne_zero
    (fun _ j => by rw [hn.toNat, grab_self])
  rw [hn.toNat, slots_grab hv hn hfree] at hset
  rw [← hset, Vol.ino_self]
  refine slots_congr (fun i hi => ?_) fun _ _ _ => rfl
  refine Vol.ino_congr (v := v) ?_ ?_
  · rfl
  · exact dinode_grab hn hi

theorem loadIndirect_spec (hv : v.Ok) {addr j : Nat} (hp : v.slots (v.inum, ndirect) = some addr)
    (hj : j < nindirect) : Ends (loadIndirect addr j) v
    (fun a v' => v' = v ∧ v.slots (v.inum, ndirect + 1 + j) = some a.toNat ∨
      Fill v v' (ndirect + 1 + j) a.toNat)
    (fun e => e = .outOfBlocks ∧ v.free = ∅ ∧ v.slots (v.inum, ndirect + 1 + j) = none) := by
  have hk : ndirect + 1 + j < nslot := by unfold nslot; omega
  have hslot := Vol.slots_self hv hk
  have href : v.ip.ref v.disk (ndirect + 1 + j) = v.disk addr j := by
    obtain ⟨-, -, -, hz, haddr⟩ := slots_eq_some.mp hp
    rw [Vol.ino_self] at hz haddr
    have hz' : v.ip.addrs indirectSlot ≠ 0#32 := hz
    have haddr' : (v.ip.addrs indirectSlot).toNat = addr := haddr
    rw [Dinode.ref_entry hz', haddr']
  rw [href] at hslot
  rw [loadIndirect, ends_bind, ends_get, ends_ite]
  refine ⟨fun hz => ?_, fun hz => .ret (.inl ⟨rfl, by rw [hslot, if_neg hz]⟩)⟩
  rw [if_pos hz] at hslot
  rw [ends_bind]
  refine (balloc_spec hv).mono ?_ fun e he => ⟨he.1, he.2, hslot⟩
  intro a v' h
  obtain ⟨n, hn, hfree, rfl, rfl⟩ := h
  have haddr : IsData addr := hv.sound.isData hp
  have hne : addr ≠ n := hv.ne_of_free hp hfree
  rw [ends_bind, ends_modify, ends_pure, hn.toNat]
  have hgrab := slots_grab hv hn hfree
  refine .inr ⟨rfl, rfl, fun i hi => ?_, hslot, hn, hfree, ?_, fun c hc => ?_, ?_,
    fun {s b} hs hs' => ?_⟩
  · exact (dinode_putData hi haddr _).trans (dinode_grab hn hi)
  · have howned : Owned (slots (grab v.disk n) v.ino) (InUse (grab v.disk n)) := by
      rw [hgrab]
      refine hv.sound.owned.congr fun c hc => ⟨hc.1, ?_⟩
      rw [bit_grab hn hc.1.2, hc.2, Bool.or_true]
    have hset := slots_setIndirect (j := j) howned (by rw [hgrab]; exact hp) hj hn.ne_zero
    rw [hn.toNat, hgrab] at hset
    rw [← hset]
    refine slots_congr (fun i hi => ?_) fun _ _ _ => rfl
    refine (Vol.ino_congr (v := v) ?_ ?_).trans ?_
    · rfl
    · exact (dinode_putData hi haddr _).trans (dinode_grab hn hi)
    · exact congrFun v.update_ino_self i
  · exact (bit_putData hc haddr _).trans (bit_grab hn hc)
  · exact (update_of_ne hne.symm _ _).trans (grab_self _ _)
  · -- only the indirect block itself has changed
    have hb : b ≠ addr := by
      intro he
      rw [he] at hs
      exact hs' (congrArg Prod.snd (hv.sound.owned.inj hs hp))
    exact (update_of_ne hb _ _).trans
      (grab_data hn (hv.sound.isData hs) (hv.ne_of_free hs hfree))

/-! ### Any number of allocations -/

/-- The places of `v'` are those of `v`, with blocks in some more of the places `N` of the
locked inode. -/
structure Grow (v v' : Vol) (N : Finset Nat) : Prop where
  inum : v'.inum = v.inum
  ip : v'.ip = { v.ip with addrs := v'.ip.addrs }
  dinodes : ∀ i < ninodes, dinode v'.disk i = dinode v.disk i
  ok : v'.Ok
  tidy : v.Tidy → v'.Tidy
  kept : ∀ {s b}, v.slots s = some b → v'.slots s = some b
  new : ∀ {s}, v.slots s = none → v'.slots s ≠ none → s.1 = v.inum ∧ s.2 ∈ N
  enough : ∀ {M}, N ⊆ M → v.Enough M → v'.Enough M

theorem Grow.refl (hv : v.Ok) : Grow v v N :=
  ⟨rfl, rfl, fun _ _ => rfl, hv, id, id, fun h h' => absurd h h', fun _ h => h⟩

theorem Grow.mono {M : Finset Nat} (h : Grow v v' N) (hNM : N ⊆ M) : Grow v v' M :=
  { h with
    new := fun hs hs' => ⟨(h.new hs hs').1, hNM (h.new hs hs').2⟩
    enough := fun hM hv => h.enough (hNM.trans hM) hv }

theorem Grow.trans (h : Grow v v' N) (h' : Grow v' v'' N) : Grow v v'' N where
  inum := h'.inum.trans h.inum
  ip := by rw [h'.ip, h.ip]
  dinodes i hi := (h'.dinodes i hi).trans (h.dinodes i hi)
  ok := h'.ok
  tidy hv := h'.tidy (h.tidy hv)
  kept hs := h'.kept (h.kept hs)
  new {s} hs hs' := by
    cases hmid : v'.slots s with
    | none =>
      obtain ⟨hi, hk⟩ := h'.new hmid hs'
      exact ⟨hi.trans h.inum, hk⟩
    | some b => exact h.new hs (by rw [hmid]; nofun)
  enough hN hv := h'.enough hN (h.enough hN hv)

theorem Fill.grow {k n : Nat} (h : Fill v v' k n) (hv : v.Ok) (hk : k ∈ N) : Grow v v' N where
  inum := h.inum
  ip := h.ip
  dinodes := h.dinodes
  ok := h.ok hv
  tidy := h.tidy
  kept {s b} hs := by
    have hne : s ≠ (v.inum, k) := by
      intro he
      rw [he, h.empty] at hs
      cases hs
    rw [h.slots, update_of_ne hne, hs]
  new {s} hs hs' := by
    by_cases he : s = (v.inum, k)
    · rw [he]
      exact ⟨rfl, hk⟩
    · rw [h.slots, update_of_ne he] at hs'
      exact absurd hs hs'
  enough hN := h.enough (hN hk)

/-! ### `bmap` -/

/-- The places that `bmap` may fill. -/
def needs (bn : Nat) : Finset Nat := if bn < ndirect then {bn} else {ndirect, bn + 1}

omit [Superblock] in
theorem slotOf_mem_needs (bn : Nat) : slotOf bn ∈ needs bn := by
  unfold slotOf needs
  split <;> simp

omit [Superblock] in
theorem eq_of_mem_needs {bn bm : Nat} (h : slotOf bn ∈ needs bm) : bn = bm := by
  refine slotOf_inj ?_
  unfold needs at h
  split at h
  · next hd => rw [Finset.mem_singleton.mp h, slotOf, if_pos hd]
  · next hd =>
      rcases Finset.mem_insert.mp h with h | h
      · exact absurd h (slotOf_ne bn)
      · rw [Finset.mem_singleton.mp h, slotOf, if_neg hd]

theorem not_enough {k : Nat} (hfree : v.free = ∅) (hk : v.slots (v.inum, k) = none)
    (hN : k ∈ N) : ¬ v.Enough N := by
  have hmem : k ∈ v.lack N := Finset.mem_filter.mpr ⟨hN, hk⟩
  have hpos := Finset.card_pos.mpr ⟨k, hmem⟩
  unfold Vol.Enough
  rw [hfree, Finset.card_empty]
  omega

theorem bmap_spec (hv : v.Ok) {bn : Nat} (hbn : bn < maxfile) : Ends (bmap bn) v
    (fun a v' => Grow v v' (needs bn) ∧ (∀ i p, v'.byte i p = v.byte i p) ∧
      v'.slots (v.inum, slotOf bn) = some a.toNat)
    (fun e => e = .outOfBlocks ∧ ∀ N, needs bn ⊆ N → ¬ v.Enough N) := by
  have hmem := slotOf_mem_needs bn
  unfold bmap
  split
  · next hlt =>
      have hslot : slotOf bn = bn := if_pos hlt
      rw [hslot] at hmem ⊢
      refine (loadAddr_spec hv ⟨bn, by omega⟩).mono (fun a v' h => ?_) fun e he =>
        ⟨he.1, fun N hN => not_enough he.2.1 he.2.2 (hN hmem)⟩
      rcases h with ⟨rfl, hs⟩ | hfill
      · exact ⟨.refl hv, fun _ _ => rfl, hs⟩
      · refine ⟨hfill.grow hv hmem, hfill.byte, ?_⟩
        rw [hfill.slots, update_self]
  · next hge =>
      have hslot : slotOf bn = ndirect + 1 + (bn - ndirect) := by
        unfold slotOf
        rw [if_neg hge]
        omega
      have hmem1 : ndirect ∈ needs bn := by simp [needs, hge]
      have hlt : bn - ndirect < nindirect := by unfold maxfile at hbn; omega
      rw [hslot] at hmem ⊢
      rw [if_pos hlt, ends_bind]
      refine (loadAddr_spec hv indirectSlot).mono (fun a v' h => ?_) fun e he =>
        ⟨he.1, fun N hN => not_enough he.2.1 he.2.2 (hN hmem1)⟩
      -- the indirect block is there, and the volume is as good as before
      have hmid : Grow v v' (needs bn) ∧ (∀ i p, v'.byte i p = v.byte i p) ∧
          v'.slots (v'.inum, ndirect) = some a.toNat := by
        rcases h with ⟨rfl, hs⟩ | hfill
        · exact ⟨.refl hv, fun _ _ => rfl, hs⟩
        · refine ⟨hfill.grow hv hmem1, hfill.byte, ?_⟩
          rw [hfill.slots, hfill.inum]
          exact update_self ..
      obtain ⟨hgrow, hbyte, hp⟩ := hmid
      refine (loadIndirect_spec hgrow.ok hp hlt).mono (fun a' v'' h' => ?_) fun e he =>
        ⟨he.1, fun N hN hen => not_enough he.2.1 he.2.2 (hN hmem) (hgrow.enough hN hen)⟩
      rw [← hgrow.inum]
      rcases h' with ⟨rfl, hs⟩ | hfill
      · exact ⟨hgrow, hbyte, hs⟩
      · refine ⟨hgrow.trans (hfill.grow hgrow.ok hmem),
          fun i p => (hfill.byte i p).trans (hbyte i p), ?_⟩
        rw [hfill.slots, update_self]

/-- An address that is there is found, and nothing changes. -/
theorem bmap_ref {bn : Nat} (hbn : bn < maxfile) (hz : v.ip.ref v.disk (slotOf bn) ≠ 0#32) :
    (bmap bn).run v = .ok (v.ip.ref v.disk (slotOf bn), v) := by
  rw [run_eq_ok]
  unfold bmap
  split
  · next hlt =>
      have href : v.ip.ref v.disk (slotOf bn) = v.ip.addrs ⟨bn, by omega⟩ := by
        rw [show slotOf bn = bn from if_pos hlt, Dinode.ref, dif_pos (by omega)]
      rw [href] at hz ⊢
      rw [loadAddr, ends_bind, ends_get, if_neg hz]
      exact .ret ⟨rfl, rfl⟩
  · next hge =>
      have hlt : bn - ndirect < nindirect := by unfold maxfile at hbn; omega
      have hslot : slotOf bn = bn + 1 := if_neg hge
      have hsub : bn + 1 - (ndirect + 1) = bn - ndirect := by omega
      rw [hslot, Dinode.ref, dif_neg (by omega)] at hz ⊢
      -- the entry is in an indirect block
      have hp : v.ip.addrs indirectSlot ≠ 0#32 := fun hp => hz (if_pos hp)
      rw [if_neg hp, hsub] at hz ⊢
      rw [if_pos hlt, ends_bind, loadAddr, ends_bind, ends_get, if_neg hp, ends_pure,
        loadIndirect, ends_bind, ends_get, if_neg hz]
      exact .ret ⟨rfl, rfl⟩

theorem Vol.ref_eq {k b : Nat} (hs : v.slots (v.inum, k) = some b) :
    v.ip.ref v.disk k ≠ 0#32 ∧ (v.ip.ref v.disk k).toNat = b := by
  obtain ⟨-, -, -, hz, hb⟩ := slots_eq_some.mp hs
  rw [Vol.ino_self] at hz hb
  exact ⟨hz, hb⟩

end Xv6
