import Xv6.Boot

/-!
# Xv6.Regions

Which invariants of an address space survive which calls.

`WellFormed` is what the table of regions is supposed to be: whole pages,
disjoint, inside `[0, sz)`. `mmap` relies on it, and all calls keep it except one:
`sbrk` with a negative argument moves `sz` down without looking at the regions.
Under the condition `KeepsRegions`, that it does not move `sz` below the end of a
region, the table stays well-formed, no page is present beyond `sz`, and the
flags of the pages in a region say what its protection says.
-/

namespace Xv6

open Function (update update_self update_of_ne)
open Relation (ReflTransGen)

namespace Aspace

/-- The table of regions is well-formed. -/
structure WellFormed (A : Aspace) : Prop where
  sz_le : A.sz ≤ kernbase
  whole : ∀ i, (A.vmas i).used = true → (A.vmas i).start % 4096 = 0 ∧
    (A.vmas i).length % 4096 = 0 ∧ 0 < (A.vmas i).length
  inside : ∀ i, (A.vmas i).used = true → (A.vmas i).start + (A.vmas i).length ≤ A.sz
  disjoint : ∀ i j, i ≠ j → (A.vmas i).used = true → (A.vmas j).used = true →
    (A.vmas i).start + (A.vmas i).length ≤ (A.vmas j).start ∨
      (A.vmas j).start + (A.vmas j).length ≤ (A.vmas i).start

/-- Every present page lies below `sz`, rounded up to a page boundary. -/
def Below (A : Aspace) : Prop := ∀ v, A.page v ≠ none → v * 4096 < pgroundup A.sz

/-- The flags of a present page in a region: it is for the user, writable only if
the region is, and writable or marked copy-on-write if the region is. -/
def FlagsOk (A : Aspace) : Prop := ∀ v e pg i, A.page v = some (e, pg) →
  (A.vmas i).used = true → (A.vmas i).holds v →
    has e .u = true ∧ (has e .w = true → canWrite (A.vmas i).prot = true) ∧
      (canWrite (A.vmas i).prot = true → has e .w = true ∨ has e .cow = true)

end Aspace

/-- `sbrk` does not move `sz` below the end of a region. -/
def KeepsRegions (c : Call) (A : Aspace) : Prop :=
  ∀ n, c = .sbrk n → n.toInt < 0 → 0 < A.sz + n.toInt →
    ∀ i, (A.vmas i).used = true → ((A.vmas i).start + (A.vmas i).length : Int) ≤ A.sz + n.toInt

variable {A A' : Aspace} {c : Call}

theorem touch_same (h : ReflTransGen Touch A A') : A'.sz = A.sz ∧ A'.vmas = A.vmas := by
  induction h with
  | refl => exact ⟨rfl, rfl⟩
  | tail _ hstep ih => cases hstep <;> exact ih

/-! ### The table of regions -/

/-- A table is as well-formed as one with the same intervals and at least the same
size. -/
theorem Aspace.WellFormed.congr (h : A.WellFormed) (hsz : A'.sz ≤ kernbase)
    (hused : ∀ i, (A'.vmas i).used = true → (A.vmas i).used = true ∧
      (A'.vmas i).start = (A.vmas i).start ∧ (A'.vmas i).length = (A.vmas i).length)
    (hin : ∀ i, (A'.vmas i).used = true → (A'.vmas i).start + (A'.vmas i).length ≤ A'.sz) :
    A'.WellFormed := by
  refine ⟨hsz, fun i hi => ?_, hin, fun i j hne hi hj => ?_⟩
  · obtain ⟨hu, hs, hl⟩ := hused i hi
    rw [hs, hl]
    exact h.whole i hu
  · obtain ⟨hui, hsi, hli⟩ := hused i hi
    obtain ⟨huj, hsj, hlj⟩ := hused j hj
    rw [hsi, hli, hsj, hlj]
    exact h.disjoint i j hne hui huj

/-- A region placed beyond all others. -/
theorem Aspace.WellFormed.place {i : Fin maxVmas} {start length : Nat} {prot : Word}
    (h : A.WellFormed) (hstart : start = (A.sz + 4095) / 4096 * 4096) (hpos : 0 < length)
    (hlen : length % 4096 = 0) (hend : start + length ≤ kernbase) :
    Aspace.WellFormed
      { A with
        sz := start + length
        vmas := update A.vmas i ⟨start, length, prot, true⟩ } := by
  -- the regions other than `i` end at the old `sz` at the latest
  have hold : ∀ j, j ≠ i → (A.vmas j).used = true →
      (A.vmas j).start + (A.vmas j).length ≤ start := by
    intro j _ hj
    have := h.inside j hj
    omega
  refine ⟨hend, fun j hj => ?_, fun j hj => ?_, fun j j' hne hj hj' => ?_⟩
  · by_cases he : j = i
    · subst he
      simp only [update_self]
      omega
    · simp only [update_of_ne he] at hj ⊢
      exact h.whole j hj
  · by_cases he : j = i
    · subst he
      simp
    · simp only [update_of_ne he] at hj ⊢
      have := hold j he hj
      omega
  · by_cases he : j = i
    · subst he
      have he' : j' ≠ j := fun hc => hne hc.symm
      simp only [update_self, update_of_ne he'] at hj' ⊢
      exact .inr (hold j' he' hj')
    · by_cases he' : j' = i
      · subst he'
        simp only [update_self, update_of_ne he] at hj ⊢
        exact .inl (hold j he hj)
      · simp only [update_of_ne he, update_of_ne he'] at hj hj' ⊢
        exact h.disjoint j j' hne hj hj'

theorem Aspace.WellFormed.change (h : A.WellFormed) (hc : KeepsRegions c A)
    (hch : Change A c A') : A'.WellFormed := by
  have hsz := h.sz_le
  cases hch with
  | same => exact h
  | touch ht =>
    obtain ⟨hs, hv⟩ := touch_same ht
    exact h.congr (by rw [hs]; exact hsz) (fun i hi => by rw [hv] at hi ⊢; exact ⟨hi, rfl, rfl⟩)
      fun i hi => by
        rw [hv] at hi ⊢
        rw [hs]
        exact h.inside i hi
  | mmap _ hstart hpos hlen hend => exact h.place hstart hpos hlen hend
  | @munmap addr n i hused hstart hlen =>
    have hkeep : ∀ j, (update A.vmas i Vma.empty j).used = true →
        update A.vmas i Vma.empty j = A.vmas j := by
      intro j hj
      refine update_of_ne ?_ _ _
      rintro rfl
      rw [update_self] at hj
      exact absurd hj (by simp [Vma.empty])
    refine h.congr hsz (fun j hj => ?_) fun j hj => ?_
    · have hv := hkeep j hj
      exact ⟨hv ▸ hj, congrArg Vma.start hv, congrArg Vma.length hv⟩
    · have hv := hkeep j hj
      show (update A.vmas i Vma.empty j).start + (update A.vmas i Vma.empty j).length ≤ A.sz
      rw [hv]
      exact h.inside j (hv ▸ hj)
  | @mprotect addr n prot i refs hused =>
    have hsame : ∀ j, (update A.vmas i { A.vmas i with prot := prot } j).used = (A.vmas j).used ∧
        (update A.vmas i { A.vmas i with prot := prot } j).start = (A.vmas j).start ∧
        (update A.vmas i { A.vmas i with prot := prot } j).length = (A.vmas j).length := by
      intro j
      by_cases he : j = i
      · subst he
        simp
      · simp [he]
    refine h.congr hsz (fun j hj => ?_) fun j hj => ?_
    · obtain ⟨hu, hs, hl⟩ := hsame j
      exact ⟨hu.symm.trans hj, hs, hl⟩
    · obtain ⟨hu, hs, hl⟩ := hsame j
      simp only [hs, hl]
      exact h.inside j (hu.symm.trans hj)
  | grow hn hend _ _ =>
    refine h.congr hend.le (fun i hi => ⟨hi, rfl, rfl⟩) fun i hi => ?_
    have := h.inside i hi
    simp only at hi ⊢
    omega
  | abandon _ | share _ => exact h.congr hsz (fun i hi => ⟨hi, rfl, rfl⟩) h.inside
  | @shrink n newsz hn hnew =>
    by_cases h0 : newsz = 0
    · simp only [h0, if_true]
      exact h.congr hsz (fun i hi => ⟨hi, rfl, rfl⟩) h.inside
    · simp only [h0, if_false]
      refine h.congr (show newsz ≤ kernbase by omega) (fun i hi => ⟨hi, rfl, rfl⟩) fun i hi => ?_
      have := hc n rfl hn (by omega) i hi
      show (A.vmas i).start + (A.vmas i).length ≤ newsz
      omega
  | exec hsz' _ _ =>
    have hno : ∀ i : Fin maxVmas,
        ((fun _ => Vma.empty : Fin maxVmas → Vma) i).used = true → False :=
      fun i hi => absurd hi (by simp [Vma.empty])
    exact ⟨hsz', fun i hi => (hno i hi).elim, fun i hi => (hno i hi).elim,
      fun i _ _ hi _ => (hno i hi).elim⟩

theorem BootSpace.wellFormed (h : BootSpace A) : A.WellFormed := by
  have hno : ∀ i, (A.vmas i).used = true → False := by
    intro i hi
    rw [h.vmas] at hi
    exact absurd hi (by simp [Vma.empty])
  exact ⟨by rw [h.sz]; decide, fun i hi => (hno i hi).elim, fun i hi => (hno i hi).elim,
    fun i _ _ hi _ => (hno i hi).elim⟩

theorem Aspace.WellFormed.fork (h : A.WellFormed) : A.fork.WellFormed :=
  ⟨h.sz_le, h.whole, h.inside, h.disjoint⟩

/-! ### Pages beyond `sz` -/

theorem Aspace.below_iff (hsz : A.sz ≤ kernbase) :
    A.Below ↔ ∀ v, A.page v ≠ none → v * 4096 < A.sz := by
  have hround : pgroundup A.sz = (A.sz + 4095) / 4096 * 4096 := by
    refine pgroundup_eq ?_
    simp only [kernbase] at hsz
    omega
  rw [Aspace.Below, hround]
  exact forall_congr' fun v => imp_congr Iff.rfl (by omega)

/-- In a well-formed table a page has one region at most. -/
theorem Aspace.WellFormed.region_eq (h : A.WellFormed) {i : Fin maxVmas} {v : Nat}
    (hu : (A.vmas i).used = true) (hv : (A.vmas i).holds v) : A.region v = some (A.vmas i) := by
  cases hr : A.region v with
  | none => exact absurd hv (regionOf_eq_none.mp hr i hu)
  | some r =>
    obtain ⟨j, rfl, huj, hvj⟩ := regionOf_eq_some hr
    by_cases he : j = i
    · rw [he]
    · unfold Vma.holds at hv hvj
      have := h.disjoint j i he huj hu
      omega

theorem Aspace.WellFormed.touch (h : A.WellFormed) (ht : Touch A A') : A'.WellFormed := by
  cases ht <;> exact ⟨h.sz_le, h.whole, h.inside, h.disjoint⟩

theorem Aspace.Below.touch (h : A.Below) (hw : A.WellFormed) (ht : Touch A A') : A'.Below := by
  have hB := (below_iff hw.sz_le).mp h
  refine (below_iff (hw.touch ht).sz_le).mpr ?_
  -- all three write one page that lies below `sz`
  have hset : ∀ v x, v * 4096 < A.sz → ∀ v', (A.setPage v x).page v' ≠ none → v' * 4096 < A.sz := by
    intro v x hv v' hv'
    by_cases he : v' = v
    · rw [he]
      exact hv
    · refine hB v' ?_
      simpa [Aspace.setPage, he] using hv'
  cases ht with
  | demand hr =>
    obtain ⟨i, rfl, hu, hv⟩ := regionOf_eq_some hr
    exact hset _ _ (hv.2.trans_le (hw.inside i hu))
  | resolve hro hpage | write hpage => exact hset _ _ (hB _ (by simp [hpage]))

theorem Aspace.Below.change (h : A.Below) (hw : A.WellFormed) (hc : KeepsRegions c A)
    (hch : Change A c A') : A'.Below := by
  have hB := (below_iff hw.sz_le).mp h
  have hsz' := (hw.change hc hch).sz_le
  cases hch with
  | same => exact h
  | touch ht =>
    have : A'.WellFormed ∧ A'.Below := by
      induction ht with
      | refl => exact ⟨hw, h⟩
      | tail hpre hstep ih =>
        obtain ⟨hw1, hB1⟩ := ih (hw.change hc (.touch hpre)).sz_le
        exact ⟨hw1.touch hstep, hB1.touch hw1 hstep⟩
    exact this.2
  | mmap _ hstart _ _ _ =>
    refine (below_iff hsz').mpr fun v hv => ?_
    have := hB v hv
    show v * 4096 < _ + _
    omega
  | munmap | abandon =>
    refine (below_iff hsz').mpr fun v hv => hB v fun hn => hv ?_
    simp [Aspace.drop, hn]
  | mprotect =>
    refine (below_iff hsz').mpr fun v hv => hB v fun hn => hv ?_
    simp [hn]
  | grow _ _ hnew hold =>
    refine (below_iff hsz').mpr fun v hv => ?_
    show v * 4096 < A.sz + _
    by_contra hge
    have hout := hB v (by rw [← hold v (by omega)]; exact hv)
    omega
  | @shrink n newsz hn hnew =>
    refine (below_iff hsz').mpr fun v hv => ?_
    have hin : A.page v ≠ none := fun hn => hv (by simp [Aspace.drop, hn])
    have hout : ¬ (newsz ≤ v * 4096 ∧ v * 4096 < A.sz) := fun hP => hv (by simp [Aspace.drop, hP])
    have := hB v hin
    show v * 4096 < if newsz = 0 then A.sz else newsz
    split <;> omega
  | share hpage =>
    refine (below_iff hsz').mpr fun v hv => hB v fun hn => hv ?_
    rcases hpage v with hp | hp <;> simp [hp, hn, sharePage]
  | exec hsz _ habove =>
    refine (below_iff hsz').mpr fun v hv => ?_
    by_contra hge
    exact hv (habove v (Nat.le_of_not_lt hge))

theorem BootSpace.below (h : BootSpace A) : A.Below := by
  refine (Aspace.below_iff h.wellFormed.sz_le).mpr fun v hv => ?_
  rw [h.sz]
  by_contra hge
  exact hv (h.image.absent v (by omega))

theorem Aspace.Below.fork (hw : A.WellFormed) : A.fork.Below := by
  refine (below_iff hw.fork.sz_le).mpr fun v hv => ?_
  by_contra hge
  exact hv (if_neg hge)

/-! ### Flags -/

section
variable (h : A.FlagsOk)
include h

theorem Aspace.FlagsOk.touch (hw : A.WellFormed) (ht : Touch A A') : A'.FlagsOk := by
  -- all three write one page; the others keep their entries
  have hset : ∀ v e pg, (∀ i, (A.vmas i).used = true → (A.vmas i).holds v →
      has e .u = true ∧ (has e .w = true → canWrite (A.vmas i).prot = true) ∧
        (canWrite (A.vmas i).prot = true → has e .w = true ∨ has e .cow = true)) →
      (A.setPage v (some (e, pg))).FlagsOk := by
    intro v e pg hnew v' e' pg' i hp hu hv
    by_cases he : v' = v
    · subst he
      simp only [Aspace.setPage, update_self, Option.some.injEq, Prod.mk.injEq] at hp
      rw [← hp.1]
      exact hnew i hu hv
    · simp only [Aspace.setPage, update_of_ne he] at hp
      exact h v' e' pg' i hp hu hv
  cases ht with
  | @demand v r e hr habs hwr hus hcow =>
    refine hset v e _ fun i hu hv => ?_
    have hri := (hw.region_eq hu hv).symm.trans hr
    rw [Option.some.injEq] at hri
    rw [hri, hwr]
    exact ⟨hus, id, Or.inl⟩
  | @resolve v e e' pg hro hpage hcow hwr hus hcow' =>
    refine hset v e' _ fun i hu hv => ?_
    have hcan : canWrite (A.vmas i).prot = true := by
      simpa [Aspace.readOnly, hw.region_eq hu hv] using hro
    exact ⟨hus.trans (h v e pg i hpage hu hv).1, fun _ => hcan, fun _ => .inl hwr⟩
  | @write v e pg pg' hpage hwr hus => exact hset v e _ fun i hu hv => h v e pg i hpage hu hv

theorem Aspace.FlagsOk.of_drop (hpage : ∀ v x, A'.page v = some x → A.page v = some x)
    (hvmas : ∀ i, (A'.vmas i).used = true → A'.vmas i = A.vmas i) : A'.FlagsOk := by
  intro v e pg i hp hu hv
  have hi := hvmas i hu
  rw [hi] at hu hv ⊢
  exact h v e pg i (hpage v _ hp) hu hv

theorem Aspace.FlagsOk.of_share (hvmas : A'.vmas = A.vmas)
    (hpage : ∀ v x, A'.page v = some x → A.page v = some x ∨ sharePage (A.page v) = some x) :
    A'.FlagsOk := by
  intro v e pg i hp hu hv
  rw [hvmas] at hu hv ⊢
  rcases hpage v _ hp with hold | hsh
  · exact h v e pg i hold hu hv
  · obtain ⟨⟨e0, pg0⟩, hold, heq⟩ := Option.map_eq_some_iff.mp hsh
    obtain ⟨rfl, rfl⟩ := Prod.mk.inj heq
    obtain ⟨hus, hwr, hcan⟩ := h v e0 pg0 i hold hu hv
    refine ⟨by rw [sharedEntry_u]; exact hus, fun hc => ?_, fun hc => .inr ?_⟩
    · rw [sharedEntry_w] at hc
      exact absurd hc (by simp)
    · rw [sharedEntry_cow, Bool.or_eq_true]
      exact hcan hc

theorem Aspace.FlagsOk.change (hw : A.WellFormed) (hb : A.Below) (hch : Change A c A') :
    A'.FlagsOk := by
  have hB := (below_iff hw.sz_le).mp hb
  cases hch with
  | same => exact h
  | touch ht =>
    have : A'.WellFormed ∧ A'.FlagsOk := by
      induction ht with
      | refl => exact ⟨hw, h⟩
      | tail _ hstep ih => exact ⟨ih.1.touch hstep, ih.2.touch ih.1 hstep⟩
    exact this.2
  | @mmap n i start length hfree hstart hpos hlen hend =>
    intro v e pg j hp hu hv
    by_cases he : j = i
    · -- no page is present where the new region goes
      subst he
      simp only [update_self] at hv
      have := hB v (by rw [show A.page v = some (e, pg) from hp]; simp)
      have hlo : start ≤ v * 4096 := hv.1
      omega
    · simp only [update_of_ne he] at hu hv ⊢
      exact h v e pg j hp hu hv
  | @munmap addr n i hused hstart hlen =>
    refine h.of_drop (fun v x hx => ?_) fun j hj => ?_
    · simp only [Aspace.drop] at hx
      split at hx
      · exact absurd hx (by simp)
      · exact hx
    · refine update_of_ne ?_ _ _
      rintro rfl
      simp [Vma.empty] at hj
  | @mprotect addr n prot i refs hused =>
    intro v e pg j hp hu hv
    by_cases he : j = i
    · subst he
      simp only [update_self] at hu hv ⊢
      have hheld : (A.vmas j).holds v := hv
      simp only [hheld, if_true] at hp
      obtain ⟨⟨e0, pg0⟩, hold, heq⟩ := Option.map_eq_some_iff.mp hp
      obtain ⟨rfl, rfl⟩ := Prod.mk.inj heq
      obtain ⟨hus, -, -⟩ := h v e0 pg0 j hold hu hheld
      refine ⟨by rw [protEntry_u]; exact hus, fun hc => (protEntry_w.mp hc).1, fun hc => ?_⟩
      rw [protEntry_w, protEntry_cow]
      by_cases hcow : has e0 .cow = true
      · exact .inr (.inl hcow)
      · by_cases hrefs : refs v ≤ 1
        · exact .inl ⟨hc, by simpa using hcow, hrefs⟩
        · exact .inr (.inr ⟨hc, by omega⟩)
    · simp only [update_of_ne he] at hu hv ⊢
      have hheld : ¬ (A.vmas i).holds v := by
        intro hi
        have hd := hw.disjoint j i he hu hused
        unfold Vma.holds at hv hi
        omega
      simp only [hheld, if_false] at hp
      exact h v e pg j hp hu hv
  | @grow n page hn hend hnew hold =>
    intro v e pg j hp hu hv
    have hlt : v * 4096 < A.sz := hv.2.trans_le (hw.inside j hu)
    exact h v e pg j ((hold v (by omega)).symm.trans hp) hu hv
  | abandon | shrink =>
    refine h.of_drop (fun v x hx => ?_) fun j _ => rfl
    simp only [Aspace.drop] at hx
    split at hx
    · exact absurd hx (by simp)
    · exact hx
  | share hpage =>
    refine h.of_share rfl fun v x hx => ?_
    rcases hpage v with hp | hp
    · exact .inl (hp.symm.trans hx)
    · exact .inr (hp.symm.trans hx)
  | exec =>
    intro v e pg j hp hu hv
    simp [Vma.empty] at hu

theorem Aspace.FlagsOk.fork : A.fork.FlagsOk := by
  refine h.of_share rfl fun v x hx => ?_
  simp only [Aspace.fork] at hx
  split at hx
  · exact .inr hx
  · exact absurd hx (by simp)

end

theorem BootSpace.flagsOk (h : BootSpace A) : A.FlagsOk := by
  intro v e pg i hp hu hv
  rw [h.vmas] at hu
  exact absurd hu (by simp [Vma.empty])

end Xv6
