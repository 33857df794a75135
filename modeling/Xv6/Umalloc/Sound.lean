import Xv6.Umalloc.FreeList

/-!
# Xv6.Umalloc.Sound

`malloc` keeps the free list sound, and so do runs of a program.

A block that fits is unlinked or cut (`take_spec`). The search goes once round the list from `freep`
and either finds such a block or comes back to `freep` having seen all of it (`mallocLoop_walk`);
then `morecore` frees a block that is large enough, and the search goes round once more.
-/

namespace Xv6.Umalloc

open Function (update)

section
variable {base p q prevp nunits : Word} {sbrk : List Word → Word → Word} {hi total : Nat}
  {h h' : Heap} {l live : List Word}

/-! ### Taking a block -/

/-- A block is found together with the element before it. -/
theorem Sound.split (hs : Sound base hi total h l live) (hprev : prevp ∈ base :: l)
    (hp : h.ptr prevp ≠ base) :
    ∃ lo m up, base :: m = lo ++ [prevp] ∧ l = m ++ h.ptr prevp :: up := by
  obtain ⟨lo, up, hlist⟩ := hs.route.split hprev hp
  cases lo with
  | nil =>
    obtain ⟨rfl, rfl⟩ := List.cons.inj hlist
    exact ⟨[], [], up, rfl, rfl⟩
  | cons b lo =>
    obtain ⟨rfl, rfl⟩ := List.cons.inj hlist
    refine ⟨base :: lo, lo ++ [prevp], up, rfl, ?_⟩
    rw [List.append_assoc]
    rfl

/-- Unlinking a block that is exactly as large as wanted. -/
theorem Sound.unlink (hs : Sound base hi total h l live) (hprev : prevp ∈ base :: l)
    (hp : h.ptr prevp ≠ base) :
    ∃ l', Sound base hi total { h.setPtr prevp (h.ptr (h.ptr prevp)) with freep := prevp } l'
      (h.ptr prevp :: live) := by
  obtain ⟨lo, m, up, hm, hl⟩ := hs.split hprev hp
  generalize hq : h.ptr prevp = q at hl
  have hcons : ∀ up', base :: (m ++ up') = lo ++ prevp :: up' := by
    intro up'
    rw [← List.cons_append, hm, List.append_assoc]
    rfl
  have hsub : (m ++ up).Sublist l := by
    rw [hl]
    exact (List.sublist_cons_self q up).append_left m
  have hroute := hs.route
  rw [hl, hcons] at hroute
  obtain ⟨hroute1, hroute2⟩ := route_append.mp hroute
  refine ⟨m ++ up, hs.hi_lt, ?_, hs.base_size, hs.sorted.sublist (hsub.cons_cons base),
    fun a ha b hb => hs.coalesced a ((hsub.cons_cons base).subset ha) b (hsub.subset hb), ?_, ?_⟩
  · rw [hcons]
    refine Route.skip hroute1 hroute2.2 ?_
    rw [← hcons]
    refine (hs.sorted.sublist (hsub.cons_cons base)).imp fun hlt he => ?_
    subst he
    omega
  · rw [hcons]
    exact List.mem_append_right lo List.mem_cons_self
  · refine hs.packed.perm (List.Perm.map _ ?_)
    rw [hl, List.append_assoc, List.append_assoc, List.cons_append]
    exact List.perm_middle.symm.append_left m

/-- Cutting the units wanted off the end of a larger block. -/
theorem Sound.cut (hs : Sound base hi total h l live) (hp : p ∈ l) (hprev : prevp ∈ base :: l)
    (hn : 0 < nunits.toNat) (hlt : nunits.toNat < (h.size p).toNat)
    (hq : q = after p (h.size p - nunits))
    (hh' : h' = (h.setSize p (h.size p - nunits)).setSize q nunits) :
    Sound base hi total { h' with freep := prevp } l (q :: live) ∧
      ∀ b ∈ live, h'.size b = h.size b := by
  have hstop := hs.stop_lt (List.mem_append_left live hp)
  have hrest : (h.size p - nunits).toNat = (h.size p).toNat - nunits.toNat := by
    rw [BitVec.toNat_sub_of_le (BitVec.le_def.mpr hlt.le)]
  have hqn : q.toNat = p.toNat + 8 * ((h.size p).toNat - nunits.toNat) := by
    rw [hq, after, BitVec.toNat_add, BitVec.toNat_mul, hrest]
    simp only [BitVec.toNat_ofNat, stop] at *
    omega
  have hpq : p ≠ q := by
    rintro rfl
    omega
  -- the new block starts inside the old one, where no other block does
  obtain ⟨l1, l2, hl⟩ := List.append_of_mem hp
  have hperm : (l ++ live).Perm (p :: (l1 ++ (l2 ++ live))) := by
    rw [hl, List.append_assoc, List.cons_append]
    exact List.perm_middle
  have hpk := hs.packed.perm (hperm.map (extent h))
  have hother : ∀ c ∈ l1 ++ (l2 ++ live), c ≠ p ∧ c ≠ q := by
    intro c hc
    have hclear := List.rel_of_pairwise_cons hpk.clear (List.mem_map_of_mem hc)
    have hpos := (hs.block (hperm.mem_iff.mpr (List.mem_cons_of_mem p hc))).2.1
    simp only [Separate, extent, stop] at *
    constructor <;>
    · rintro rfl
      omega
  have hsp : h'.size p = h.size p - nunits := by
    rw [hh', setSize_size_of_ne _ _ hpq]
    exact setSize_size_self ..
  have hsq : h'.size q = nunits := by
    rw [hh']
    exact setSize_size_self ..
  have hkeep : ∀ c, c ≠ p → c ≠ q → h'.size c = h.size c := by
    intro c hcp hcq
    rw [hh', setSize_size_of_ne _ _ hcq, setSize_size_of_ne _ _ hcp]
  have hptr : h'.ptr = h.ptr := by rw [hh']; rfl
  have hbase : base ≠ p ∧ base ≠ q := by
    have := (hs.block (List.mem_append_left live hp)).1
    constructor <;>
    · rintro rfl
      omega
  refine ⟨⟨hs.hi_lt, ?_, ?_, hs.sorted, fun a ha b hb => ?_, hprev, ?_⟩, fun b hb => ?_⟩
  · show Route h'.ptr _ _
    rw [hptr]
    exact hs.route
  · exact (hkeep base hbase.1 hbase.2).trans hs.base_size
  · show stop h' a ≠ b.toNat
    by_cases hap : a = p
    · have hstop' : stop h' p = q.toNat := by
        rw [stop, hsp, hrest, hqn]
      rw [hap, hstop']
      intro he
      have hbq : b = q := BitVec.eq_of_toNat_eq he.symm
      have hb' := hperm.mem_iff.mp (List.mem_append_left live hb)
      rcases List.mem_cons.mp hb' with hbp | hb'
      · exact hpq (hbp ▸ hbq)
      · exact (hother b hb').2 hbq
    · have haq : a ≠ q := by
        rcases List.mem_cons.mp ha with rfl | ha
        · exact hbase.2
        · have ha' := hperm.mem_iff.mp (List.mem_append_left live ha)
          exact (hother a ((List.mem_cons.mp ha').resolve_left hap)).2
      rw [stop_congr (hkeep a hap haq)]
      exact hs.coalesced a ha b hb
  · have hsum : 8 * (h.size p).toNat =
        8 * ((h.size p).toNat - nunits.toNat) + 8 * nunits.toNat := by omega
    rw [List.map_cons, extent, hsum] at hpk
    have hcut := hpk.cut (by omega) (by omega)
    rw [← hqn] at hcut
    have hnew : (p :: q :: (l1 ++ (l2 ++ live))).map (extent h') =
        (p.toNat, 8 * ((h.size p).toNat - nunits.toNat)) :: (q.toNat, 8 * nunits.toNat) ::
          (l1 ++ (l2 ++ live)).map (extent h) := by
      rw [List.map_cons, List.map_cons, extent, extent, hsp, hsq, hrest,
        extents_congr fun c hc => hkeep c (hother c hc).1 (hother c hc).2]
    rw [← hnew] at hcut
    refine hcut.perm (List.Perm.map _ ?_)
    exact (List.Perm.swap q p _).trans ((hperm.symm.cons q).trans List.perm_middle.symm)
  · obtain ⟨hbp, hbq⟩ := hother b (List.mem_append_right l1 (List.mem_append_right l2 hb))
    exact hkeep b hbp hbq

theorem take_spec (sbrk : List Word → Word → Word) (hs : Sound base hi total h l live)
    (hprev : prevp ∈ base :: l)
    (hn : 0 < nunits.toNat) (hfit : nunits ≤ h.size (h.ptr prevp)) :
    ∃ q h' l', (∀ fuel, mallocLoop sbrk nunits (fuel + 1) h prevp (h.ptr prevp) =
        some (after q 1#32, h')) ∧ Sound base hi total h' l' (q :: live) ∧ h'.size q = nunits ∧
      h'.asked = h.asked ∧ ∀ b ∈ live, h'.size b = h.size b := by
  have hp : h.ptr prevp ≠ base := by
    intro he
    rw [he, hs.base_size, BitVec.le_def, BitVec.toNat_ofNat] at hfit
    omega
  by_cases heq : h.size (h.ptr prevp) = nunits
  · obtain ⟨l', hsound⟩ := hs.unlink hprev hp
    refine ⟨h.ptr prevp, _, l', fun fuel => ?_, hsound, heq, rfl, fun _ _ => rfl⟩
    rw [mallocLoop, if_pos hfit, if_pos heq]
  · obtain ⟨lo, m, up, -, hl⟩ := hs.split hprev hp
    have hmem : h.ptr prevp ∈ l := hl ▸ List.mem_append_right m List.mem_cons_self
    have hlt : nunits.toNat < (h.size (h.ptr prevp)).toNat := by
      have hne : nunits.toNat ≠ (h.size (h.ptr prevp)).toNat :=
        fun hc => heq (BitVec.eq_of_toNat_eq hc).symm
      rw [BitVec.le_def] at hfit
      omega
    obtain ⟨hsound, hkeep⟩ := hs.cut hmem hprev hn hlt rfl rfl
    refine ⟨_, _, l, fun fuel => ?_, hsound, setSize_size_self .., rfl, hkeep⟩
    rw [mallocLoop, if_pos hfit, if_neg heq]
    dsimp only
    rw [setSize_size_self]

/-! ### The search -/

/-- What the loop of `malloc` computes from an element on. -/
abbrev SearchFrom (sbrk : List Word → Word → Word) (nunits : Word) (h : Heap) (prevp : Word)
    (x : Word × Heap) : Prop :=
  Returns (fun fuel => mallocLoop sbrk nunits fuel h prevp (h.ptr prevp)) x

theorem SearchFrom.step {x : Word × Heap} (hfit : ¬ nunits ≤ h.size (h.ptr prevp))
    (hne : h.ptr prevp ≠ h.freep) (hx : SearchFrom sbrk nunits h (h.ptr prevp) x) :
    SearchFrom sbrk nunits h prevp x := by
  obtain ⟨n, hx⟩ := hx
  refine ⟨n + 1, fun fuel hfuel => ?_⟩
  obtain ⟨fuel, rfl⟩ := Nat.exists_eq_succ_of_ne_zero (Nat.ne_zero_of_lt hfuel)
  dsimp only
  rw [mallocLoop, if_neg hfit, if_neg hne]
  exact hx fuel (Nat.le_of_succ_le_succ hfuel)

/-- Going round the list once. Either a block fits, or the search comes back to `freep` and none
does. -/
theorem mallocLoop_walk {Q : Word × Heap → Prop} (hs : Sound base hi total h l live)
    (htake : ∀ prevp ∈ base :: l, nunits ≤ h.size (h.ptr prevp) →
      ∃ x, SearchFrom sbrk nunits h prevp x ∧ Q x)
    (hcore : (∀ a ∈ base :: l, ¬ nunits ≤ h.size a) → ∀ prevp, h.ptr prevp = h.freep →
      ∃ x, SearchFrom sbrk nunits h prevp x ∧ Q x) :
    ∃ x, SearchFrom sbrk nunits h h.freep x ∧ Q x := by
  obtain ⟨l1, l2, hl⟩ := List.append_of_mem hs.freep
  have hround : Route h.ptr (h.freep :: (l2 ++ l1)) h.freep := by
    refine Route.rotate ?_
    rw [← hl]
    have hhead : (l1 ++ [h.freep]).headD h.freep = base := by
      cases l1 with
      | nil => exact (List.cons.inj hl).1.symm
      | cons b l1 => exact (List.cons.inj hl).1.symm
    rw [hhead]
    exact hs.route
  have hnotin : h.freep ∉ l2 ++ l1 := by
    have hnd : (base :: l).Nodup := hs.sorted.imp fun hlt he => by
      subst he
      omega
    rw [hl] at hnd
    intro hc
    exact (List.nodup_middle.mp hnd).notMem (by
      rw [List.mem_append] at hc ⊢
      exact hc.symm)
  -- the elements from `prevp` on, and the ones that are left to look at
  have hwalk : ∀ (m : List Word) (prevp : Word), prevp ∈ base :: l →
      Route h.ptr (prevp :: m) h.freep → (∀ a ∈ m, a ∈ base :: l) → h.freep ∉ m →
      (∀ a ∈ base :: l, nunits ≤ h.size a → a ∈ m ++ [h.freep]) →
      ∃ x, SearchFrom sbrk nunits h prevp x ∧ Q x := by
    intro m
    induction m with
    | nil =>
      intro prevp hprev hroute _ _ hleft
      have hnext : h.ptr prevp = h.freep := hroute.1
      by_cases hfit : nunits ≤ h.size h.freep
      · exact htake prevp hprev (by rw [hnext]; exact hfit)
      · refine hcore (fun a ha hc => ?_) prevp hnext
        rw [List.mem_singleton.mp (hleft a ha hc)] at hc
        exact hfit hc
    | cons a m ih =>
      intro prevp hprev hroute hsub hfree hleft
      have hnext : h.ptr prevp = a := hroute.1
      by_cases hfit : nunits ≤ h.size a
      · exact htake prevp hprev (by rw [hnext]; exact hfit)
      · obtain ⟨x, hx, hQ⟩ := ih a (hsub a List.mem_cons_self) hroute.2
          (fun b hb => hsub b (List.mem_cons_of_mem a hb))
          (fun hc => hfree (List.mem_cons_of_mem a hc)) fun b hb hc => by
            refine (List.mem_cons.mp (hleft b hb hc)).resolve_left ?_
            rintro rfl
            exact hfit hc
        have hne : a ≠ h.freep := fun he => hfree (he ▸ List.mem_cons_self)
        subst hnext
        exact ⟨x, .step hfit hne hx, hQ⟩
  refine hwalk (l2 ++ l1) h.freep hs.freep hround (fun a ha => ?_) hnotin fun a ha _ => ?_
  · rw [hl]
    rcases List.mem_append.mp ha with ha | ha
    · exact List.mem_append_right l1 (List.mem_cons_of_mem _ ha)
    · exact List.mem_append_left _ ha
  · rw [hl, List.mem_append, List.mem_cons] at ha
    simp only [List.mem_append, List.mem_singleton]
    tauto

/-! ### More memory -/

theorem Fresh.top_lt (hf : Fresh base sbrk) (asked : List Word) :
    base.toNat + 8 ≤ top base sbrk asked ∧ top base sbrk asked < 2 ^ 32 := by
  induction asked with
  | nil => exact ⟨Nat.le_refl _, hf.base_lt⟩
  | cons n asked ih =>
    rw [top]
    split
    · exact ih
    · next hne =>
        have := hf.above asked n hne
        omega

/-- The allocator holds what it obtained. -/
abbrev Holds (base : Word) (sbrk : List Word → Word → Word) (h : Heap) (l live : List Word) :
    Prop :=
  Sound base (top base sbrk h.asked) (obtained sbrk h.asked) h l live

/-- `morecore` fails, or there is now a free block that is large enough. -/
theorem morecore_spec (hf : Fresh base sbrk) (hs : Holds base sbrk h l live)
    (hn : nunits.toNat < 2 ^ 28) :
    ∃ p h' l', Returns (fun fuel => morecore sbrk fuel h nunits) (p, h') ∧
      Holds base sbrk h' l' live ∧ (∀ b ∈ live, h'.size b = h.size b) ∧
      (p = 0#32 ∨ p ≠ 0#32 ∧ p = h'.freep ∧ ∃ a ∈ l', nunits.toNat ≤ (h'.size a).toNat) := by
  have hcore := coreUnits_toNat nunits
  have hbytes : (coreUnits nunits * 8#32).toNat = (coreUnits nunits).toNat * 8 := by
    rw [BitVec.toNat_mul, BitVec.toNat_ofNat]
    omega
  generalize hcu : coreUnits nunits = nu at hcore hbytes
  generalize hn8 : nu * 8#32 = n at hbytes
  by_cases hfail : sbrk h.asked n = -1#32
  · refine ⟨0#32, { h with asked := n :: h.asked }, l, ⟨0, fun fuel _ => ?_⟩, ?_, fun _ _ => rfl,
      .inl rfl⟩
    · dsimp only [morecore]
      rw [hcu, hn8, if_pos hfail]
    · have htop : top base sbrk (n :: h.asked) = top base sbrk h.asked := if_pos hfail
      have hob : obtained sbrk (n :: h.asked) = obtained sbrk h.asked := if_pos hfail
      show Sound base (top base sbrk (n :: h.asked)) (obtained sbrk (n :: h.asked)) _ l live
      rw [htop, hob]
      exact ⟨hs.hi_lt, hs.route, hs.base_size, hs.sorted, hs.coalesced, hs.freep, hs.packed⟩
  · obtain ⟨habove, hlt⟩ := hf.above h.asked n hfail
    obtain ⟨hbase, -⟩ := hf.top_lt h.asked
    generalize hhp : sbrk h.asked n = hp at *
    -- the new block is above everything, so writing its header changes no other
    have hne : ∀ a ∈ base :: (l ++ live), a ≠ hp := by
      intro a ha he
      subst he
      rcases List.mem_cons.mp ha with rfl | ha
      · omega
      · have := hs.block ha
        omega
    have hkeep : ∀ a ∈ base :: (l ++ live), (h.setSize hp nu).size a = h.size a :=
      fun a ha => setSize_size_of_ne h nu (hne a ha)
    have hself : (h.setSize hp nu).size hp = nu := setSize_size_self ..
    have htop : top base sbrk (n :: h.asked) = hp.toNat + n.toNat := by
      rw [top, hhp, if_neg hfail]
    have hob : obtained sbrk (n :: h.asked) = n.toNat + obtained sbrk h.asked := by
      rw [obtained, hhp, if_neg hfail]
    have hl : ∀ a ∈ base :: l, (h.setSize hp nu).size a = h.size a := fun a ha =>
      hkeep a (by
        rcases List.mem_cons.mp ha with rfl | ha
        · exact List.mem_cons_self
        · exact List.mem_cons_of_mem base (List.mem_append_left live ha))
    have hsound : Sound base (hp.toNat + n.toNat) (n.toNat + obtained sbrk h.asked)
        ({ h with asked := n :: h.asked }.setSize hp nu) l (hp :: live) := by
      refine ⟨hlt, hs.route, (hl base List.mem_cons_self).trans hs.base_size, hs.sorted,
        fun a ha b hb => ?_, hs.freep, ?_⟩
      · show stop (h.setSize hp nu) a ≠ b.toNat
        rw [stop_congr (hl a ha)]
        exact hs.coalesced a ha b hb
      · have hgrow := hs.packed.grow habove hbase (show 0 < n.toNat by omega)
        have hext : (hp :: (l ++ live)).map (extent (h.setSize hp nu)) =
            (hp.toNat, n.toNat) :: (l ++ live).map (extent h) := by
          rw [List.map_cons, extents_congr fun a ha => hkeep a (List.mem_cons_of_mem base ha),
            extent, hself, hbytes, Nat.mul_comm]
        rw [← hext] at hgrow
        exact hgrow.perm (List.perm_middle.symm.map _)
    obtain ⟨h', l', ⟨rounds, hfree⟩, hsound', ⟨a, ha, hsize⟩, hasked, hlive⟩ :=
      free_spec (after_one_sub hp) hsound
    dsimp only at hfree
    refine ⟨h'.freep, h', l', ⟨rounds, fun fuel hfuel => ?_⟩, ?_, fun b hb => ?_,
      .inr ⟨?_, rfl, a, ha, ?_⟩⟩
    · dsimp only [morecore]
      rw [hcu, hn8, hhp, if_neg hfail, hfree fuel hfuel]
    · show Sound base (top base sbrk h'.asked) (obtained sbrk h'.asked) _ _ _
      rw [hasked]
      show Sound base (top base sbrk (n :: h.asked)) (obtained sbrk (n :: h.asked)) _ _ _
      rw [htop, hob]
      exact hsound'
    · rw [hlive b hb]
      exact hkeep b (List.mem_cons_of_mem base (List.mem_append_right l hb))
    · exact hsound'.freep_ne hf.base_ne
    · have hsz : ({ h with asked := n :: h.asked }.setSize hp nu).size hp = nu := hself
      rw [hsz] at hsize
      omega

/-! ### `malloc` -/

/-- What a call for `nunits` units may end with. -/
def Done (base : Word) (sbrk : List Word → Word → Word) (nunits : Word) (h : Heap)
    (live : List Word) (x : Word × Heap) : Prop :=
  (∀ b ∈ live, x.2.size b = h.size b) ∧
  (x.1 = 0#32 ∧ (∃ l', Holds base sbrk x.2 l' live) ∨
    x.1 ≠ 0#32 ∧ (∃ l', Holds base sbrk x.2 l' ((x.1 - 8#32) :: live)) ∧
      x.2.size (x.1 - 8#32) = nunits)

theorem take_done (hs : Holds base sbrk h l live) (hprev : prevp ∈ base :: l)
    (hn : 0 < nunits.toNat) (hfit : nunits ≤ h.size (h.ptr prevp)) :
    ∃ x, SearchFrom sbrk nunits h prevp x ∧ Done base sbrk nunits h live x := by
  obtain ⟨q, h', l', hloop, hsound, hsize, hasked, hlive⟩ := take_spec sbrk hs hprev hn hfit
  refine ⟨(after q 1#32, h'), ⟨1, fun fuel hfuel => ?_⟩, hlive,
    .inr ⟨fun hzero => ?_, ⟨l', ?_⟩, ?_⟩⟩
  · obtain ⟨fuel, rfl⟩ := Nat.exists_eq_succ_of_ne_zero (Nat.ne_zero_of_lt hfuel)
    exact hloop fuel
  · -- the block ends in memory, so the address behind its header is not 0
    have hlt := hsound.stop_lt (List.mem_append_right l' List.mem_cons_self)
    have hpos := (hsound.block (List.mem_append_right l' List.mem_cons_self)).2.1
    have hz : (after q 1#32).toNat = 0 := congrArg BitVec.toNat hzero
    rw [after, BitVec.toNat_add, BitVec.toNat_mul] at hz
    simp only [BitVec.toNat_ofNat, stop] at *
    omega
  · show Sound base (top base sbrk h'.asked) (obtained sbrk h'.asked) h' l' _
    rw [after_one_sub, hasked]
    exact hsound
  · rw [after_one_sub]
    exact hsize

theorem search_spec (hf : Fresh base sbrk) (hs : Holds base sbrk h l live)
    (hn : 0 < nunits.toNat) (hn' : nunits.toNat < 2 ^ 28) :
    ∃ x, SearchFrom sbrk nunits h h.freep x ∧ Done base sbrk nunits h live x := by
  refine mallocLoop_walk hs (fun prevp hprev hfit => take_done hs hprev hn hfit) ?_
  intro hnone prevp hnext
  obtain ⟨p, h1, l1, ⟨rounds, hcore⟩, hs1, hlive1, hp⟩ := morecore_spec hf hs hn'
  have hstep : ∀ fuel, rounds ≤ fuel → mallocLoop sbrk nunits (fuel + 1) h prevp (h.ptr prevp) =
      if p = 0#32 then some (0#32, h1) else mallocLoop sbrk nunits fuel h1 p (h1.ptr p) := by
    intro fuel hfuel
    have hc := hcore fuel hfuel
    dsimp only at hc
    rw [mallocLoop, if_neg (hnext ▸ hnone _ hs.freep), if_pos hnext, hc]
  rcases hp with hzero | ⟨hne, hfreep, a, ha, hsize⟩
  · refine ⟨(0#32, h1), ⟨rounds + 1, fun fuel hfuel => ?_⟩, hlive1, .inl ⟨rfl, l1, hs1⟩⟩
    obtain ⟨fuel, rfl⟩ := Nat.exists_eq_succ_of_ne_zero (Nat.ne_zero_of_lt hfuel)
    exact (hstep fuel (Nat.le_of_succ_le_succ hfuel)).trans (if_pos hzero)
  · -- the second time round a block is found
    obtain ⟨x, ⟨rounds', hx⟩, hlive, hdone⟩ := mallocLoop_walk
      (Q := Done base sbrk nunits h1 live) hs1
      (fun prevp hprev hfit => take_done hs1 hprev hn hfit)
      fun hnone' => absurd (BitVec.le_def.mpr hsize) (hnone' a (List.mem_cons_of_mem base ha))
    refine ⟨x, ⟨max rounds rounds' + 1, fun fuel hfuel => ?_⟩,
      fun b hb => (hlive b hb).trans (hlive1 b hb), hdone⟩
    obtain ⟨fuel, rfl⟩ := Nat.exists_eq_succ_of_ne_zero (Nat.ne_zero_of_lt hfuel)
    have hle := Nat.le_of_succ_le_succ hfuel
    refine (hstep fuel ((Nat.le_max_left ..).trans hle)).trans ?_
    rw [if_neg hne, hfreep]
    exact hx fuel ((Nat.le_max_right ..).trans hle)

end

/-! ### Runs -/

/-- Before the first call nothing is set up; from then on the list is sound, and every pointer of
the program is to a block as large as it asked for. -/
def Ok (base : Word) (sbrk : List Word → Word → Word) (s : State) : Prop :=
  s = ⟨.init, []⟩ ∨ (∃ l, Holds base sbrk s.heap l (s.live.map fun x => x.1 - 8#32)) ∧
    ∀ x ∈ s.live, x.2.toNat ≤ ((s.heap.size (x.1 - 8#32)).toNat - 1) * 8

section
variable {base : Word} {sbrk : List Word → Word → Word} {s s' : State} {nbytes : Word}

/-- The first call sets up a list of `base` alone. -/
theorem start_holds (hf : Fresh base sbrk) (hs : Ok base sbrk s) :
    (∃ l, Holds base sbrk (start base s.heap) l (s.live.map fun x => x.1 - 8#32)) ∧
      ∀ x ∈ s.live, x.2.toNat ≤ (((start base s.heap).size (x.1 - 8#32)).toNat - 1) * 8 := by
  rcases hs with rfl | ⟨⟨l, hl⟩, hlive⟩
  · refine ⟨⟨[], (hf.top_lt []).2, ⟨Function.update_self .., trivial⟩, setSize_size_self ..,
      List.pairwise_singleton .., fun a _ b hb => ?_, List.mem_singleton_self base, Packed.nil _ _⟩,
      fun x hx => ?_⟩
    · cases hb
    · cases hx
  · have hstart : start base s.heap = s.heap := if_neg (hl.freep_ne hf.base_ne)
    rw [hstart]
    exact ⟨⟨l, hl⟩, hlive⟩

/-- A request of at most `2 ^ 31 - 16` bytes is answered. -/
theorem malloc_returns (hf : Fresh base sbrk) (hs : Ok base sbrk s)
    (hn : nbytes.toNat ≤ 2 ^ 31 - 16) :
    ∃ r h, Returns (fun fuel => malloc base sbrk fuel s.heap nbytes) (r, h) ∧
      (r = 0#32 → Ok base sbrk { s with heap := h }) ∧
      (r ≠ 0#32 → Ok base sbrk ⟨h, (r, nbytes) :: s.live⟩) := by
  have hunits := unitsFor_toNat hn
  obtain ⟨⟨l, hl⟩, hsize⟩ := start_holds hf hs
  obtain ⟨⟨r, h⟩, hret, hlive, hdone⟩ := search_spec hf hl
    (show 0 < (unitsFor nbytes).toNat by omega) (by omega)
  have hsize' : ∀ x ∈ s.live, x.2.toNat ≤ ((h.size (x.1 - 8#32)).toNat - 1) * 8 := by
    intro x hx
    rw [hlive _ (List.mem_map_of_mem hx)]
    exact hsize x hx
  refine ⟨r, h, hret, fun hzero => ?_, fun hne => ?_⟩
  · rcases hdone with ⟨-, hl'⟩ | ⟨hne, -⟩
    · exact .inr ⟨hl', hsize'⟩
    · exact absurd hzero hne
  · rcases hdone with ⟨hzero, -⟩ | ⟨-, hl', hunit⟩
    · exact absurd hzero hne
    · refine .inr ⟨hl', List.forall_mem_cons.mpr ⟨?_, hsize'⟩⟩
      dsimp only at hunit ⊢
      rw [hunit, hunits]
      omega

theorem free_returns {x : Word × Word} (hs : Ok base sbrk s) (hx : x ∈ s.live) :
    ∃ h, Returns (fun fuel => free fuel s.heap x.1) h ∧ Ok base sbrk ⟨h, s.live.erase x⟩ := by
  rcases hs with rfl | ⟨⟨l, hl⟩, hsize⟩
  · cases hx
  · have hperm := List.perm_cons_erase hx
    obtain ⟨h, l', hret, hsound, -, hasked, hlive⟩ :=
      free_spec rfl (hl.perm (hperm.map fun x => x.1 - 8#32))
    refine ⟨h, hret, .inr ⟨⟨l', ?_⟩, fun y hy => ?_⟩⟩
    · show Sound base (top base sbrk h.asked) (obtained sbrk h.asked) h l' _
      rw [hasked]
      exact hsound
    · rw [hlive _ (List.mem_map_of_mem hy)]
      exact hsize y (List.mem_of_mem_erase hy)

theorem ok_step (hf : Fresh base sbrk) (hs : Ok base sbrk s)
    (hstep : Step base sbrk (2 ^ 31 - 16) s s') : Ok base sbrk s' := by
  cases hstep with
  | fail hn hr =>
    obtain ⟨r, h, hret, hzero, -⟩ := malloc_returns hf hs hn
    cases hret.unique hr
    exact hzero rfl
  | malloc hn hr h0 =>
    obtain ⟨r, h, hret, -, hne⟩ := malloc_returns hf hs hn
    cases hret.unique hr
    exact hne h0
  | free hx hr =>
    obtain ⟨h, hret, hok⟩ := free_returns hs hx
    cases hret.unique hr
    exact hok

theorem ok_of_reachable (hf : Fresh base sbrk) (hr : Reachable base sbrk (2 ^ 31 - 16) s) :
    Ok base sbrk s :=
  hr.invariant (fun _ he => .inl he) fun _ _ hs hstep => ok_step hf hs hstep

/-- In every run of a program that asks for at most `2 ^ 31 - 16` bytes at a time and frees what it
was given: the free list is circular, in order and fully coalesced, the free blocks and those of
the program do not overlap and are the memory obtained from `sbrk`, every pointer of the program is
to a block as large as it asked for, and every call returns. -/
theorem umalloc_sound (hf : Fresh base sbrk) (hr : Reachable base sbrk (2 ^ 31 - 16) s) :
    (s = ⟨.init, []⟩ ∨ ∃ l, Sound base (top base sbrk s.heap.asked) (obtained sbrk s.heap.asked)
      s.heap l (s.live.map fun x => x.1 - 8#32)) ∧
    (∀ x ∈ s.live, x.2.toNat ≤ ((s.heap.size (x.1 - 8#32)).toNat - 1) * 8) ∧
    (∀ nbytes, nbytes.toNat ≤ 2 ^ 31 - 16 →
      ∃ x, Returns (fun fuel => malloc base sbrk fuel s.heap nbytes) x) ∧
    ∀ x ∈ s.live, ∃ h, Returns (fun fuel => free fuel s.heap x.1) h := by
  have hok := ok_of_reachable hf hr
  refine ⟨hok.imp id fun h => h.1, ?_, fun nbytes hn => ?_, fun x hx => ?_⟩
  · rcases hok with rfl | ⟨-, hsize⟩
    · intro x hx
      cases hx
    · exact hsize
  · obtain ⟨r, h, hret, -⟩ := malloc_returns hf hok hn
    exact ⟨(r, h), hret⟩
  · obtain ⟨h, hret, -⟩ := free_returns hok hx
    exact ⟨h, hret⟩

end

/-- A program that asks for one byte, then for nine, and frees the first block, which becomes the
second of the free list. -/
theorem umalloc_sound_freed : ∃ h, Fresh 8#32 sbrkOnce ∧
    Reachable 8#32 sbrkOnce (2 ^ 31 - 16) ⟨h, [(36832#32, 9#32)]⟩ ∧
    h.ptr 4096#32 = 36848#32 ∧ h.ptr 36848#32 = 8#32 ∧
    ∃ l, Sound 8#32 36864 32768 h l [36824#32] := by
  obtain ⟨h1, h2, h3, hm1, hm2, hf, hasked, hptrs⟩ : ∃ h1 h2 h3,
      (∀ n, malloc 8#32 sbrkOnce (n + 2) .init 1#32 = some (36856#32, h1)) ∧
      (∀ n, malloc 8#32 sbrkOnce (n + 2) h1 9#32 = some (36832#32, h2)) ∧
      (∀ n, free (n + 2) h2 36856#32 = some h3) ∧ h3.asked = [32768#32] ∧
      h3.ptr 4096#32 = 36848#32 ∧ h3.ptr 36848#32 = 8#32 :=
    ⟨_, _, _, fun _ => rfl, fun _ => rfl, fun _ => rfl, rfl, rfl, rfl⟩
  have hr1 : Reachable 8#32 sbrkOnce (2 ^ 31 - 16) ⟨h1, [(36856#32, 1#32)]⟩ :=
    .next (.start rfl) (.malloc (by decide) (.of_add hm1) (by decide))
  have hr2 := hr1.next (.malloc (by decide) (.of_add hm2) (by decide))
  have hr : Reachable 8#32 sbrkOnce (2 ^ 31 - 16) ⟨h3, [(36832#32, 9#32)]⟩ :=
    hr2.next (.free (x := (36856#32, 1#32)) (by simp) (.of_add hf))
  refine ⟨h3, sbrkOnce_fresh, hr, hptrs.1, hptrs.2, ?_⟩
  rcases (umalloc_sound sbrkOnce_fresh hr).1 with hinit | ⟨l, hl⟩
  · cases hinit
  · rw [hasked] at hl
    exact ⟨l, hl⟩

end Xv6.Umalloc
