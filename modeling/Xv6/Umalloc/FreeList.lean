import Mathlib.Data.List.Pairwise
import Xv6.Lib.Extents
import Xv6.Lib.Route
import Xv6.Umalloc

/-!
# Xv6.Umalloc.FreeList

The free list of the allocator, and what `free` does to it.

The list is circular, in the order of the addresses, and starts with `base`, which has no memory of
its own. `Sound` says this, that no two free blocks touch, and that the free blocks and the blocks
of the program are non-empty, do not overlap, and make up the memory obtained from `sbrk`. The loop
of `free` finds the element below the block from wherever `freep` is (`freeLoop_spec`); the block is
then joined to the one above, which leaves it between two ends of the list (`Mid`), and to the one
below.
-/

namespace Xv6.Umalloc

open Function (update update_self update_of_ne)

/-- The memory of the block with its header at `a`. -/
def extent (h : Heap) (a : Word) : Nat × Nat := (a.toNat, 8 * (h.size a).toNat)

/-- Where the block at `a` ends. -/
def stop (h : Heap) (a : Word) : Nat := a.toNat + 8 * (h.size a).toNat

/-- The free list is `base :: l`, and `live` are the headers of the other blocks. The memory
obtained ends at `hi` and is `total` bytes. -/
structure Sound (base : Word) (hi total : Nat) (h : Heap) (l live : List Word) : Prop where
  hi_lt : hi < 2 ^ 32
  route : Route h.ptr (base :: l) base
  base_size : h.size base = 0#32
  sorted : (base :: l).Pairwise fun a b => a.toNat < b.toNat
  coalesced : ∀ a ∈ base :: l, ∀ b ∈ l, stop h a ≠ b.toNat
  freep : h.freep ∈ base :: l
  packed : Packed (base.toNat + 8) hi total ((l ++ live).map (extent h))

section
variable {base p bp a b : Word} {hi total fuel : Nat} {h h' : Heap} {l lo l0 up live : List Word}

/-! ### Reading the invariant -/

theorem extents_congr {bs : List Word} (hs : ∀ a ∈ bs, h'.size a = h.size a) :
    bs.map (extent h') = bs.map (extent h) :=
  List.map_congr_left fun a ha => by rw [extent, extent, hs a ha]

theorem stop_congr (hs : h'.size a = h.size a) : stop h' a = stop h a := by
  rw [stop, stop, hs]

theorem after_toNat (hlt : stop h a < 2 ^ 32) : (after a (h.size a)).toNat = stop h a := by
  rw [after, BitVec.toNat_add, BitVec.toNat_mul, stop] at *
  simp only [BitVec.toNat_ofNat]
  omega

theorem after_eq_iff (hlt : stop h a < 2 ^ 32) : after a (h.size a) = b ↔ stop h a = b.toNat := by
  rw [← after_toNat hlt]
  exact ⟨fun he => by rw [he], fun he => BitVec.eq_of_toNat_eq he⟩

namespace Sound

section
variable (hs : Sound base hi total h l live)
include hs

theorem perm {live' : List Word} (hp : live.Perm live') : Sound base hi total h l live' :=
  { hs with packed := hs.packed.perm ((hp.append_left l).map _) }

theorem block (ha : a ∈ l ++ live) :
    base.toNat + 8 ≤ a.toNat ∧ a.toNat < stop h a ∧ stop h a ≤ hi := by
  have hx : extent h a ∈ (l ++ live).map (extent h) := List.mem_map_of_mem ha
  have hlo := hs.packed.lower _ hx
  have hup := hs.packed.upper _ hx
  have hpos := hs.packed.pos _ hx
  simp only [extent, stop] at *
  omega

theorem clear_live (ha : a ∈ l) (hb : b ∈ live) : stop h a ≤ b.toNat ∨ stop h b ≤ a.toNat := by
  have hc := hs.packed.clear
  rw [List.map_append, List.pairwise_append] at hc
  exact hc.2.2 _ (List.mem_map_of_mem ha) _ (List.mem_map_of_mem hb)

theorem nodup : (l ++ live).Nodup :=
  hs.packed.nodup.of_map _

theorem base_lt (ha : a ∈ l) : base.toNat < a.toNat :=
  List.rel_of_pairwise_cons hs.sorted ha

theorem stop_lt (ha : a ∈ l ++ live) : stop h a < 2 ^ 32 :=
  Nat.lt_of_le_of_lt (hs.block ha).2.2 hs.hi_lt

theorem freep_ne (hbase : base ≠ 0#32) : h.freep ≠ 0#32 := by
  intro hzero
  rcases List.mem_cons.mp hs.freep with hb | hb
  · exact hbase (hb.symm.trans hzero)
  · have := (hs.block (List.mem_append_left live hb)).1
    rw [hzero, BitVec.toNat_ofNat] at this
    omega

end

end Sound

/-! ### The loop of `free` -/

/-- From an element below the block the loop goes up to the last one below it. -/
theorem freeLoop_below (hbase : base.toNat ≤ p.toNat) (hup : ∀ a ∈ up, bp.toNat < a.toNat)
    (m : List Word) : ∀ fuel, m.length < fuel → Route h.ptr (m ++ p :: up) base →
      (m ++ p :: up).Pairwise (fun a b => a.toNat < b.toNat) →
      (∀ a ∈ m ++ [p], a.toNat < bp.toNat) →
      freeLoop h bp fuel ((m ++ [p]).headD p) = some p := by
  induction m with
  | nil =>
    intro fuel hfuel hroute _ hlt
    obtain ⟨fuel, rfl⟩ := Nat.exists_eq_succ_of_ne_zero (Nat.ne_zero_of_lt hfuel)
    have hp : p.toNat < bp.toNat := hlt p (List.mem_singleton_self p)
    have hnext : h.ptr p = up.headD base := hroute.1
    show freeLoop h bp (fuel + 1) p = some p
    rw [freeLoop, hnext]
    cases up with
    | nil =>
      -- `p` is the last element and links back to `base`
      have hnot : ¬ (p < bp ∧ bp < base) := by
        rintro ⟨-, hc⟩
        rw [BitVec.lt_def] at hc
        omega
      exact (if_neg hnot).trans (if_pos ⟨hbase, .inl hp⟩)
    | cons n up => exact if_pos ⟨hp, hup n List.mem_cons_self⟩
  | cons a m ih =>
    intro fuel hfuel hroute hsorted hlt
    obtain ⟨fuel, rfl⟩ := Nat.exists_eq_succ_of_ne_zero (Nat.ne_zero_of_lt hfuel)
    have hnext : h.ptr a = (m ++ [p]).headD p := by
      rw [hroute.1]
      cases m <;> rfl
    have hmem : (m ++ [p]).headD p ∈ m ++ [p] := by cases m <;> simp
    have hmem' : (m ++ [p]).headD p ∈ m ++ p :: up := by cases m <;> simp
    -- the next element is above `a` and still below the block
    have habove := List.rel_of_pairwise_cons hsorted hmem'
    have hbelow := hlt _ (List.mem_cons_of_mem a hmem)
    show freeLoop h bp (fuel + 1) a = some p
    rw [freeLoop, hnext, if_neg, if_neg]
    · exact ih fuel (Nat.lt_of_succ_lt_succ hfuel) hroute.2 hsorted.of_cons
        fun b hb => hlt b (List.mem_cons_of_mem a hb)
    · rintro ⟨hc, -⟩
      rw [BitVec.le_def] at hc
      omega
    · rintro ⟨-, hc⟩
      rw [BitVec.lt_def] at hc
      omega

/-- From an element above the block it goes round to `base`. -/
theorem freeLoop_above (hbase : base.toNat < bp.toNat) (m : List Word) : ∀ a fuel,
    Route h.ptr (a :: m) base → (a :: m).Pairwise (fun a b => a.toNat < b.toNat) →
      (∀ b ∈ a :: m, bp.toNat < b.toNat) →
      freeLoop h bp (fuel + (m.length + 1)) a = freeLoop h bp fuel base := by
  induction m with
  | nil =>
    intro a fuel hroute _ hlt
    have ha : bp.toNat < a.toNat := hlt a List.mem_cons_self
    have hnext : h.ptr a = base := hroute.1
    rw [List.length_nil, freeLoop, hnext, if_neg, if_neg]
    · rintro ⟨-, hc | hc⟩ <;>
      · rw [BitVec.lt_def] at hc
        omega
    · rintro ⟨hc, -⟩
      rw [BitVec.lt_def] at hc
      omega
  | cons b m ih =>
    intro a fuel hroute hsorted hlt
    have ha : bp.toNat < a.toNat := hlt a List.mem_cons_self
    have hab := List.rel_of_pairwise_cons hsorted List.mem_cons_self
    have hnext : h.ptr a = b := hroute.1
    rw [List.length_cons, ← Nat.add_assoc, freeLoop, hnext, if_neg, if_neg]
    · exact ih b fuel hroute.2 hsorted.of_cons fun c hc => hlt c (List.mem_cons_of_mem a hc)
    · rintro ⟨hc, -⟩
      rw [BitVec.le_def] at hc
      omega
    · rintro ⟨hc, -⟩
      rw [BitVec.lt_def] at hc
      omega

/-- The element `p` of the list is the last one below the block `bp`; `l0` are the elements up to it
and `lo` the same without it and with `base`. -/
structure Around (base : Word) (l lo : List Word) (p : Word) (l0 up : List Word) (bp : Word) :
    Prop where
  list : l = l0 ++ up
  cut : base :: l0 = lo ++ [p]
  below : ∀ a ∈ base :: l0, a.toNat < bp.toNat
  above : ∀ a ∈ up, bp.toNat < a.toNat

namespace Around

theorem list_cons (ha : Around base l lo p l0 up bp) : base :: l = lo ++ p :: up := by
  rw [ha.list, ← List.cons_append, ha.cut, List.append_assoc]
  rfl

theorem mem (ha : Around base l lo p l0 up bp) : p ∈ base :: l0 := by
  rw [ha.cut]
  exact List.mem_append_right lo (List.mem_singleton_self p)

theorem head (ha : Around base l lo p l0 up bp) : (lo ++ [p]).headD p = base := by
  rw [← ha.cut]
  rfl

end Around

/-- Every block has its place in a sorted list. -/
theorem exists_around (hsorted : (base :: l).Pairwise fun a b => a.toNat < b.toNat)
    (hbase : base.toNat < bp.toNat) (hne : ∀ a ∈ l, a.toNat ≠ bp.toNat) :
    ∃ lo p l0 up, Around base l lo p l0 up bp := by
  obtain ⟨l0, up, hl, hbelow, habove⟩ : ∃ l0 up, l = l0 ++ up ∧
      (∀ a ∈ l0, a.toNat < bp.toNat) ∧ ∀ a ∈ up, bp.toNat < a.toNat := by
    have hs := hsorted.of_cons
    clear hsorted
    induction l with
    | nil => exact ⟨[], [], rfl, by simp, by simp⟩
    | cons a l ih =>
      by_cases ha : a.toNat < bp.toNat
      · obtain ⟨l0, up, rfl, hb, hu⟩ := ih (fun b hb => hne b (List.mem_cons_of_mem a hb))
          hs.of_cons
        exact ⟨a :: l0, up, rfl, List.forall_mem_cons.mpr ⟨ha, hb⟩, hu⟩
      · have hlt : bp.toNat < a.toNat := by
          have := hne a List.mem_cons_self
          omega
        refine ⟨[], a :: l, rfl, by simp, List.forall_mem_cons.mpr ⟨hlt, fun b hb => ?_⟩⟩
        exact hlt.trans (List.rel_of_pairwise_cons hs hb)
  refine ⟨(base :: l0).dropLast, (base :: l0).getLast (by simp), l0, up, hl, ?_,
    List.forall_mem_cons.mpr ⟨hbase, hbelow⟩, habove⟩
  exact (List.dropLast_append_getLast _).symm

theorem freeLoop_spec (hs : Sound base hi total h l live) (ha : Around base l lo p l0 up bp)
    (hfuel : 2 * l.length + 2 ≤ fuel) : freeLoop h bp fuel h.freep = some p := by
  have hlist := ha.list_cons
  have hroute := hs.route
  have hsorted := hs.sorted
  rw [hlist] at hroute hsorted
  have hlen : lo.length + up.length = l.length := by
    have := congrArg List.length hlist
    simp only [List.length_cons, List.length_append] at this
    omega
  have hbase : base.toNat ≤ p.toNat := by
    rcases List.mem_cons.mp ha.mem with rfl | hp
    · exact Nat.le_refl _
    · exact (hs.base_lt (ha.list ▸ List.mem_append_left up hp)).le
  have hbelow : ∀ a ∈ lo ++ [p], a.toNat < bp.toNat := by
    rw [← ha.cut]
    exact ha.below
  have hfree := hs.freep
  rw [hlist, List.mem_append, List.mem_cons] at hfree
  rcases hfree with hlo | hp | hup
  · -- somewhere below `p`
    obtain ⟨m1, m2, rfl⟩ := List.append_of_mem hlo
    rw [List.append_assoc] at hroute hsorted
    rw [List.length_append] at hlen
    exact freeLoop_below hbase ha.above (h.freep :: m2) fuel (by omega)
      (route_append.mp hroute).2 (List.pairwise_append.mp hsorted).2.1
      fun a hm => hbelow a (by rw [List.append_assoc]; exact List.mem_append_right m1 hm)
  · rw [hp]
    exact freeLoop_below hbase ha.above [] fuel (by simp; omega) (route_append.mp hroute).2
      (List.pairwise_append.mp hsorted).2.1 fun a hm => hbelow a (List.mem_append_right lo hm)
  · -- above the block: round to `base` first
    obtain ⟨m1, m2, rfl⟩ := List.append_of_mem hup
    have hroute' : Route h.ptr (h.freep :: m2) base := by
      have hroute2 := (route_append.mp hroute).2.2
      exact (route_append.mp hroute2).2
    have hsorted' : (h.freep :: m2).Pairwise fun a b => a.toNat < b.toNat := by
      have hsorted2 := (List.pairwise_append.mp hsorted).2.1.of_cons
      exact (List.pairwise_append.mp hsorted2).2.1
    rw [List.length_append, List.length_cons] at hlen
    obtain ⟨n, rfl⟩ : ∃ n, fuel = n + (m2.length + 1) := ⟨fuel - (m2.length + 1), by omega⟩
    rw [freeLoop_above (ha.below base List.mem_cons_self) m2 h.freep n hroute' hsorted'
      fun a hm => ha.above a (List.mem_append_right m1 hm)]
    rw [← ha.head]
    exact freeLoop_below hbase ha.above lo n (by omega) hroute hsorted hbelow

/-! ### Joining -/

theorem setSize_size_of_ne (h : Heap) {p q : Word} (n : Word) (hne : q ≠ p) :
    (h.setSize p n).size q = h.size q := update_of_ne hne ..

theorem setSize_size_self (h : Heap) (p n : Word) : (h.setSize p n).size p = n :=
  update_self ..

/-- The block `bp` is linked to the list above and not yet to the one below. -/
structure Mid (base : Word) (hi total : Nat) (h : Heap) (lo : List Word) (p : Word)
    (l0 : List Word) (bp : Word) (up live : List Word) : Prop where
  hi_lt : hi < 2 ^ 32
  cut : base :: l0 = lo ++ [p]
  below : Route h.ptr lo p
  above : Route h.ptr (bp :: up) base
  base_size : h.size base = 0#32
  sorted : (base :: l0 ++ bp :: up).Pairwise fun a b => a.toNat < b.toNat
  coalesced : ∀ a ∈ base :: l0 ++ bp :: up, ∀ b ∈ l0 ++ up, stop h a ≠ b.toNat
  packed : Packed (base.toNat + 8) hi total ((l0 ++ bp :: up ++ live).map (extent h))

theorem extent_join (hlt : stop h b < 2 ^ 32) (htouch : stop h a = b.toNat)
    (hs : h'.size a = h.size a + h.size b) :
    extent h' a = (a.toNat, 8 * (h.size a).toNat + 8 * (h.size b).toNat) ∧
      stop h' a = stop h b := by
  have hsum : (h'.size a).toNat = (h.size a).toNat + (h.size b).toNat := by
    rw [hs, BitVec.toNat_add]
    simp only [stop] at *
    omega
  simp only [extent, stop, hsum] at *
  exact ⟨by rw [Nat.mul_add], by omega⟩

theorem packed_join {bs bs' : List Word} {lo0 : Nat} (hpk : Packed lo0 hi total (bs.map (extent h)))
    (hperm : bs.Perm (a :: b :: bs')) (htouch : stop h a = b.toNat)
    (hext : extent h' a = (a.toNat, 8 * (h.size a).toNat + 8 * (h.size b).toNat))
    (hsame : ∀ c ∈ bs', h'.size c = h.size c) :
    Packed lo0 hi total ((a :: bs').map (extent h')) := by
  have hpk' := hpk.perm (hperm.map (extent h))
  rw [List.map_cons, List.map_cons, extent, extent, ← htouch, stop] at hpk'
  rw [List.map_cons, extents_congr hsame, hext]
  exact hpk'.join

theorem joinUpper_of_touch (htouch : after bp (h.size bp) = h.ptr p) : joinUpper h p bp =
    { h with
      ptr := update h.ptr bp (h.ptr (h.ptr p)),
      size := update h.size bp (h.size bp + h.size (h.ptr p)) } := if_pos htouch

/-- Joining the block to the one above, or linking it there. -/
theorem joinUpper_spec (hs : Sound base hi total h l (bp :: live))
    (ha : Around base l lo p l0 up bp) :
    ∃ up', Mid base hi total (joinUpper h p bp) lo p l0 bp up' live ∧
      (h.size bp).toNat ≤ ((joinUpper h p bp).size bp).toNat ∧
      ∀ b, b ≠ bp → (joinUpper h p bp).size b = h.size b := by
  have hbp : bp ∈ l ++ bp :: live := List.mem_append_right l List.mem_cons_self
  obtain ⟨hlow, hpos, -⟩ := hs.block hbp
  have hstop := hs.stop_lt hbp
  have hlist := ha.list_cons
  obtain ⟨hroute1, hroute2⟩ := route_append.mp (hlist ▸ hs.route)
  have hsub : ∀ a ∈ l0 ++ up, a ∈ l := fun a hm => ha.list ▸ hm
  have hsorted := hs.sorted
  rw [ha.list, ← List.cons_append, List.pairwise_append] at hsorted
  obtain ⟨hsorted1, hsorted2, hsorted3⟩ := hsorted
  have hne : ∀ a ∈ base :: l0 ++ up, a ≠ bp := by
    intro a hm he
    rcases List.mem_append.mp hm with hm | hm
    · exact Nat.lt_irrefl _ (he ▸ ha.below a hm)
    · exact Nat.lt_irrefl _ (he ▸ ha.above a hm)
  have hloR : ∀ a ∈ lo, a ∈ base :: l0 := fun a hm => ha.cut ▸ List.mem_append_left [p] hm
  have hperm : (l ++ bp :: live).Perm (l0 ++ bp :: up ++ live) := by
    rw [ha.list, List.append_assoc, List.append_assoc]
    exact (List.perm_middle).append_left l0
  -- what is linked above the block, in either case a part of `up`
  have hmid : ∀ up', up'.Sublist up →
      (base :: l0 ++ bp :: up').Pairwise fun a b => a.toNat < b.toNat := by
    intro up' hsub'
    refine List.pairwise_append.mpr ⟨hsorted1, List.pairwise_cons.mpr
      ⟨fun a hm => ha.above a (hsub'.subset hm), hsorted2.sublist hsub'⟩, fun a hm b hb => ?_⟩
    rcases List.mem_cons.mp hb with rfl | hb
    · exact ha.below a hm
    · exact hsorted3 a hm b (hsub'.subset hb)
  by_cases htouch : after bp (h.size bp) = h.ptr p
  · have hjoin := joinUpper_of_touch htouch
    have hnext : stop h bp = (h.ptr p).toNat := (after_eq_iff hstop).mp htouch
    cases up with
    | nil =>
      have hp : h.ptr p = base := hroute2.1
      rw [hp] at hnext
      omega
    | cons n up =>
      have hp : h.ptr p = n := hroute2.1
      rw [hp] at hnext hjoin
      generalize joinUpper h p bp = h' at hjoin ⊢
      have hn : n ∈ l := hsub n (List.mem_append_right l0 List.mem_cons_self)
      have hptr : h'.ptr = update h.ptr bp (h.ptr n) := by rw [hjoin]
      have hself : h'.size bp = h.size bp + h.size n := by
        rw [hjoin]
        exact update_self ..
      have hkeep : ∀ b, b ≠ bp → h'.size b = h.size b := by
        intro b hb
        rw [hjoin]
        exact update_of_ne hb ..
      obtain ⟨hext, hstop'⟩ := extent_join (hs.stop_lt (List.mem_append_left _ hn)) hnext hself
      have hup : ∀ a ∈ up, a ≠ bp := fun a hm =>
        hne a (List.mem_append_right _ (List.mem_cons_of_mem n hm))
      refine ⟨up, ⟨hs.hi_lt, ha.cut, ?_, ?_, ?_, hmid up (List.sublist_cons_self n up), ?_, ?_⟩, ?_,
        hkeep⟩
      · rw [hptr]
        exact hroute1.congr fun a hm =>
          update_of_ne (hne a (List.mem_append_left _ (hloR a hm))) ..
      · rw [hptr]
        exact hroute2.2.setHead (update_self ..) fun a hm =>
          update_of_ne (hup a hm) ..
      · rw [hkeep base (hne base (List.mem_append_left _ List.mem_cons_self))]
        exact hs.base_size
      · intro a hm b hb
        have hbl : b ∈ l := by
          rw [ha.list]
          rcases List.mem_append.mp hb with hb | hb
          · exact List.mem_append_left _ hb
          · exact List.mem_append_right _ (List.mem_cons_of_mem n hb)
        by_cases he : a = bp
        · rw [he, hstop']
          exact hs.coalesced n (List.mem_cons_of_mem base hn) b hbl
        · rw [stop_congr (hkeep a he)]
          refine hs.coalesced a ?_ b hbl
          rw [ha.list, ← List.cons_append]
          rcases List.mem_append.mp hm with hm | hm
          · exact List.mem_append_left _ hm
          · exact List.mem_append_right _
              (List.mem_cons_of_mem n ((List.mem_cons.mp hm).resolve_left he))
      · have hlist' : (l ++ bp :: live).Perm (bp :: n :: (l0 ++ (up ++ live))) := by
          have hn : (l0 ++ n :: (up ++ bp :: live)).Perm (n :: (l0 ++ up ++ bp :: live)) := by
            rw [List.append_assoc]
            exact List.perm_middle
          rw [ha.list, List.append_assoc, ← List.append_assoc l0 up live]
          exact hn.trans ((List.perm_middle.cons n).trans (List.Perm.swap bp n _))
        have hother : ∀ c ∈ l0 ++ (up ++ live), h'.size c = h.size c := by
          intro c hc
          refine hkeep c fun he => ?_
          have hnd := hlist'.nodup_iff.mp hs.nodup
          exact (List.nodup_cons.mp hnd).1 (he ▸ List.mem_cons_of_mem n hc)
        have hpk := packed_join hs.packed hlist' hnext hext hother
        rw [List.append_assoc]
        exact hpk.perm (List.perm_middle.symm.map _)
      · have hsz := congrArg Prod.snd hext
        simp only [extent] at hsz
        omega
  · rw [joinUpper, if_neg htouch]
    refine ⟨up, ⟨hs.hi_lt, ha.cut, ?_, ?_, hs.base_size, hmid up (List.Sublist.refl up), ?_,
      hs.packed.perm (hperm.map _)⟩, Nat.le_refl _, fun _ _ => rfl⟩
    · exact hroute1.congr fun a hm =>
        update_of_ne (hne a (List.mem_append_left _ (hloR a hm))) ..
    · exact hroute2.setHead (update_self ..) fun a hm =>
        update_of_ne (hne a (List.mem_append_right _ hm)) ..
    · intro a hm b hb
      have hbl := hsub b hb
      by_cases he : a = bp
      · -- nothing starts where the block ends
        rw [he]
        show stop h bp ≠ b.toNat
        intro hend
        rcases List.mem_append.mp hb with hb | hb
        · have := ha.below b (List.mem_cons_of_mem base hb)
          omega
        · cases up with
          | nil => cases hb
          | cons n up =>
            have hnl : n ∈ l := hsub n (List.mem_append_right l0 List.mem_cons_self)
            have hn := ha.above n List.mem_cons_self
            have hnb := (hs.block (List.mem_append_left _ hnl)).2.1
            have hclear := hs.clear_live hnl List.mem_cons_self
            have hfirst : h.ptr p = n := hroute2.1
            have hne' : stop h bp ≠ n.toNat := fun hc =>
              htouch (by rw [hfirst]; exact (after_eq_iff hstop).mpr hc)
            rcases List.mem_cons.mp hb with rfl | hb
            · exact hne' hend
            · have := List.rel_of_pairwise_cons hsorted2 hb
              omega
      · refine hs.coalesced a ?_ b hbl
        rw [ha.list, ← List.cons_append]
        rcases List.mem_append.mp hm with hm | hm
        · exact List.mem_append_left _ hm
        · exact List.mem_append_right _ ((List.mem_cons.mp hm).resolve_left he)

theorem joinLower_of_touch (htouch : after p (h.size p) = bp) : joinLower h p bp =
    { h with
      ptr := update h.ptr p (h.ptr bp),
      size := update h.size p (h.size p + h.size bp) } := if_pos htouch

namespace Mid

variable (hm : Mid base hi total h lo p l0 bp up live)
include hm

theorem block (ha : a ∈ l0 ++ bp :: up ++ live) :
    base.toNat + 8 ≤ a.toNat ∧ a.toNat < stop h a ∧ stop h a < 2 ^ 32 := by
  have hx : extent h a ∈ (l0 ++ bp :: up ++ live).map (extent h) := List.mem_map_of_mem ha
  have hlo := hm.packed.lower _ hx
  have hup := hm.packed.upper _ hx
  have hpos := hm.packed.pos _ hx
  have hhi := hm.hi_lt
  simp only [extent, stop] at *
  omega

theorem nodup : (l0 ++ bp :: up ++ live).Nodup := hm.packed.nodup.of_map _

omit hm in
theorem mem_bp : bp ∈ l0 ++ bp :: up ++ live := by simp

theorem stop_base : stop h base = base.toNat := by
  rw [stop, hm.base_size]
  rfl

theorem list_eq (l : List Word) : base :: (l0 ++ l) = lo ++ p :: l := by
  rw [← List.cons_append, hm.cut, List.append_assoc]
  rfl

/-- Below `p` no block reaches the new one. -/
theorem stop_below (ha : a ∈ lo) : stop h a < bp.toNat := by
  have hbase := (hm.block mem_bp).1
  have hsorted := hm.sorted
  rw [List.cons_append, hm.list_eq, List.pairwise_append] at hsorted
  have hap := hsorted.2.2 a ha p List.mem_cons_self
  have hpb := List.rel_of_pairwise_cons hsorted.2.1 List.mem_cons_self
  have hmem : a ∈ base :: l0 := hm.cut ▸ List.mem_append_left [p] ha
  rcases List.mem_cons.mp hmem with rfl | ha0
  · rw [hm.stop_base]
    omega
  · have hp : p ∈ l0 := by
      have : p ∈ base :: l0 := hm.cut ▸ List.mem_append_right lo (List.mem_singleton_self p)
      refine (List.mem_cons.mp this).resolve_left ?_
      rintro rfl
      have := (hm.block (List.mem_append_left _ (List.mem_append_left _ ha0))).1
      omega
    have hclear := hm.packed.clear
    rw [List.append_assoc, List.map_append, List.pairwise_append, List.pairwise_map] at hclear
    have : Std.Symm fun a b => Separate (extent h a) (extent h b) := ⟨fun _ _ => Separate.symm⟩
    have hsep := hclear.1.forall ha0 hp (by rintro rfl; omega)
    have hpos := (hm.block (List.mem_append_left _ (List.mem_append_left _ hp))).2.1
    simp only [Separate, extent, stop] at *
    omega

theorem stop_p_lt : stop h p < 2 ^ 32 := by
  have hmem : p ∈ base :: l0 := hm.cut ▸ List.mem_append_right lo (List.mem_singleton_self p)
  rcases List.mem_cons.mp hmem with rfl | hp
  · rw [hm.stop_base]
    exact p.isLt
  · exact (hm.block (List.mem_append_left _ (List.mem_append_left _ hp))).2.2

theorem sorted_nodup : (base :: l0 ++ bp :: up).Nodup :=
  hm.sorted.imp fun hlt he => by
    subst he
    omega

theorem link (htouch : after p (h.size p) ≠ bp) :
    Sound base hi total { h.setPtr p bp with freep := p } (l0 ++ bp :: up) live where
  hi_lt := hm.hi_lt
  route := by
    rw [hm.list_eq]
    refine Route.link hm.below hm.above ?_
    rw [← hm.list_eq]
    exact hm.sorted_nodup
  base_size := hm.base_size
  sorted := hm.sorted
  coalesced a ha b hb := by
    show stop h a ≠ b.toNat
    by_cases hbb : b = bp
    · -- only `p` could end where the block starts
      rw [hbb]
      rw [hm.list_eq, List.mem_append, List.mem_cons] at ha
      rcases ha with ha | rfl | ha
      · exact Nat.ne_of_lt (hm.stop_below ha)
      · exact fun he => htouch ((after_eq_iff hm.stop_p_lt).mpr he)
      · have hle : bp.toNat ≤ a.toNat := by
          rcases List.mem_cons.mp ha with rfl | ha
          · exact Nat.le_refl _
          · exact (List.rel_of_pairwise_cons (List.pairwise_append.mp hm.sorted).2.1 ha).le
        have := (hm.block (List.mem_append_left live (List.mem_append_right l0 ha))).2.1
        omega
    · refine hm.coalesced a ha b ?_
      rcases List.mem_append.mp hb with hb | hb
      · exact List.mem_append_left _ hb
      · exact List.mem_append_right _ ((List.mem_cons.mp hb).resolve_left hbb)
  freep := by
    rw [hm.list_eq]
    exact List.mem_append_right lo List.mem_cons_self
  packed := hm.packed

theorem touch (htouch : after p (h.size p) = bp) :
    Sound base hi total { Umalloc.joinLower h p bp with freep := p } (l0 ++ up) live ∧
      p ∈ l0 ∧ ((Umalloc.joinLower h p bp).size p).toNat =
        (h.size p).toNat + (h.size bp).toNat := by
  have hbase := (hm.block mem_bp).1
  have hend : stop h p = bp.toNat := (after_eq_iff hm.stop_p_lt).mp htouch
  have hpb : p ≠ base := by
    rintro rfl
    rw [hm.stop_base] at hend
    omega
  obtain ⟨l1, hl1, hlo⟩ : ∃ l1, l0 = l1 ++ [p] ∧ lo = base :: l1 := by
    have hcut := hm.cut
    cases lo with
    | nil => exact absurd (List.cons.inj hcut).1.symm hpb
    | cons b lo =>
      obtain ⟨rfl, h2⟩ := List.cons.inj hcut
      exact ⟨lo, h2, rfl⟩
  have hnd := hm.sorted_nodup
  have hjoin := joinLower_of_touch htouch
  generalize Umalloc.joinLower h p bp = h' at hjoin ⊢
  have hself : h'.size p = h.size p + h.size bp := by
    rw [hjoin]
    exact update_self ..
  have hkeep : ∀ b, b ≠ p → h'.size b = h.size b := by
    intro b hb
    rw [hjoin]
    exact update_of_ne hb ..
  obtain ⟨hext, hstop'⟩ := extent_join (hm.block mem_bp).2.2 hend hself
  have hsub : (base :: (l0 ++ up)).Sublist (base :: l0 ++ bp :: up) :=
    ((List.sublist_cons_self bp up).append_left l0).cons_cons base
  refine ⟨⟨hm.hi_lt, ?_, ?_, hm.sorted.sublist hsub, fun a ha b hb => ?_, ?_, ?_⟩, ?_, ?_⟩
  · show Route h'.ptr _ _
    rw [hjoin, hm.list_eq]
    refine Route.skip hm.below hm.above ?_
    rw [← hm.list_eq]
    exact hnd.sublist hsub
  · exact (hkeep base hpb.symm).trans hm.base_size
  · show stop h' a ≠ b.toNat
    by_cases he : a = p
    · rw [he, hstop']
      exact hm.coalesced bp (List.mem_append_right _ List.mem_cons_self) b hb
    · rw [stop_congr (hkeep a he)]
      exact hm.coalesced a (hsub.subset ha) b hb
  · show p ∈ base :: (l0 ++ up)
    rw [hm.list_eq]
    exact List.mem_append_right lo List.mem_cons_self
  · have hperm : (l0 ++ bp :: up ++ live).Perm (p :: bp :: (l1 ++ (up ++ live))) := by
      rw [hl1, List.append_assoc, List.append_assoc]
      exact List.perm_middle.trans (List.perm_middle.cons p)
    have hother : ∀ c ∈ l1 ++ (up ++ live), h'.size c = h.size c := by
      intro c hc
      refine hkeep c fun he => ?_
      have hnd' := hperm.nodup_iff.mp hm.nodup
      exact (List.nodup_cons.mp hnd').1 (he ▸ List.mem_cons_of_mem bp hc)
    have hpk := packed_join hm.packed hperm hend hext hother
    show Packed _ _ _ ((l0 ++ up ++ live).map (extent h'))
    rw [hl1, List.append_assoc, List.append_assoc]
    exact hpk.perm (List.perm_middle.symm.map _)
  · rw [hl1]
    exact List.mem_append_right l1 (List.mem_singleton_self p)
  · have hsz := congrArg Prod.snd hext
    simp only [extent] at hsz
    omega

/-- Either way the list is closed, and holds a block with the freed one in it. -/
theorem joinLower : ∃ l', Sound base hi total { Umalloc.joinLower h p bp with freep := p } l' live ∧
    (∃ a ∈ l', (h.size bp).toNat ≤ ((Umalloc.joinLower h p bp).size a).toNat) ∧
    ∀ b, b ≠ p → (Umalloc.joinLower h p bp).size b = h.size b := by
  by_cases htouch : after p (h.size p) = bp
  · obtain ⟨hsound, hp, hsize⟩ := hm.touch htouch
    refine ⟨_, hsound, ⟨p, List.mem_append_left up hp, by omega⟩, fun b hb => ?_⟩
    rw [joinLower_of_touch htouch]
    exact update_of_ne hb ..
  · have hlink : Umalloc.joinLower h p bp = h.setPtr p bp := if_neg htouch
    rw [hlink]
    exact ⟨_, hm.link htouch, ⟨bp, List.mem_append_right l0 List.mem_cons_self, Nat.le_refl _⟩,
      fun _ _ => rfl⟩

end Mid

/-! ### `free` -/

/-- `free` moves a block from the program to the free list. -/
theorem free_spec {ap : Word} (hbp : ap - 8#32 = bp) (hs : Sound base hi total h l (bp :: live)) :
    ∃ h' l', Returns (fun fuel => free fuel h ap) h' ∧ Sound base hi total h' l' live ∧
      (∃ a ∈ l', (h.size bp).toNat ≤ (h'.size a).toNat) ∧ h'.asked = h.asked ∧
      ∀ b ∈ live, h'.size b = h.size b := by
  have hmem : bp ∈ l ++ bp :: live := List.mem_append_right l List.mem_cons_self
  have hnd := hs.nodup
  rw [List.nodup_append] at hnd
  obtain ⟨lo, p, l0, up, ha⟩ := exists_around hs.sorted
    (Nat.lt_of_lt_of_le (Nat.lt_add_of_pos_right (by decide)) (hs.block hmem).1)
    fun a hal he => hnd.2.2 a hal bp List.mem_cons_self (BitVec.eq_of_toNat_eq he)
  obtain ⟨up', hmid, hgrow, hkeep⟩ := joinUpper_spec hs ha
  obtain ⟨l', hsound, ⟨a, hal, hsize⟩, hkeep'⟩ := hmid.joinLower
  have hlive : ∀ b ∈ live, b ≠ bp ∧ b ≠ p := by
    intro b hb
    refine ⟨fun he => (List.nodup_cons.mp hnd.2.1).1 (he ▸ hb), ?_⟩
    rintro rfl
    have hbase := (hs.block (List.mem_append_right l (List.mem_cons_of_mem bp hb))).1
    rcases List.mem_cons.mp ha.mem with rfl | hp
    · omega
    · exact hnd.2.2 b (ha.list ▸ List.mem_append_left up hp) b (List.mem_cons_of_mem bp hb) rfl
  refine ⟨_, l', ⟨2 * l.length + 2, fun fuel hfuel => ?_⟩, hsound, ⟨a, hal, hgrow.trans hsize⟩, ?_,
    fun b hb => ?_⟩
  · show free fuel h ap = _
    rw [free, hbp]
    dsimp only
    rw [freeLoop_spec hs ha hfuel]
  · show (Umalloc.joinLower (joinUpper h p bp) p bp).asked = h.asked
    rw [joinLower_asked, joinUpper_asked]
  · exact (hkeep' b (hlive b hb).2).trans (hkeep b (hlive b hb).1)

end

end Xv6.Umalloc
