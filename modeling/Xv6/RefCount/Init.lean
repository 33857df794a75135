import Xv6.RefCount.Unmap

/-!
# Xv6.RefCount.Init

How the allocator gets its frames: `freerange`, called by `kinit1` and `kinit2`,
adds frames to the pool. It may run while memory is already in use, as
`kinit2` does.
-/

namespace Xv6

open Function (update)

variable [Layout] {man : Nat → Prop} {dirs kp : Finset Nat} {k : Kmem} {f : Nat}

/-- The frames of the whole pages of `[vstart, vend)`. -/
def InRange (vstart vend f : Nat) : Prop :=
  vstart ≤ kernbase + v2p f ∧ kernbase + v2p f + pgsize ≤ vend

omit [Layout] in
/-- The pages of a range from frame `f` on: `f` and the pages after it. -/
theorem inRange_succ {vend g : Nat} (hle : kernbase + v2p f + 4096 ≤ vend) :
    InRange (kernbase + v2p f) vend g ↔ g = f ∨ InRange (kernbase + v2p f + 4096) vend g := by
  simp only [InRange, v2p, pgsize] at *
  omega

omit [Layout] in
theorem inRange_end {p vend : Nat} (hgt : vend < p + 4096) : ¬ InRange p vend f := by
  simp only [InRange, pgsize]
  omega

theorem Inv.empty (h : k.freelist = []) : Inv (fun _ => False) ∅ ∅ k where
  tables := ⟨by simp, by simp, by simp, by simp⟩
  man_range _ hf := absurd hf id
  ledger :=
    { own_man := by simp [owned, tabFrames]
      ref_man := by simp [userSlots]
      count_own := by simp [owned, tabFrames]
      count_ref := fun _ hf => absurd hf id
      free_nodup := by rw [h]; exact List.nodup_nil
      free_iff := by simp [h] }
  kern_flags := by simp
  excl := by simp

/-- The state after one round of `freerange`. -/
def Kmem.addFrame (k : Kmem) (f : Nat) : Kmem :=
  ({ k with refcnt := update k.refcnt f 1 } : Kmem).decref f

section
omit [Layout]

theorem Kmem.addFrame_mem_of_ne {g : Nat} (h : g ≠ f) : (k.addFrame f).mem g = k.mem g := by
  rw [addFrame, decref_mem_of_ne _ h]

theorem Kmem.addFrame_freelist : (k.addFrame f).freelist = f :: k.freelist := by
  simp [addFrame, decref_freelist]

theorem Kmem.addFrame_oom : (k.addFrame f).oom = k.oom := by
  simp [addFrame]

end

/-- A new frame joins the pool. -/
theorem Inv.extend (h : Inv man dirs kp k) (hf : ¬ man f)
    (hlo : Layout.kend ≤ kernbase + v2p f) (hhi : v2p f < phystop) :
    Inv (fun g => man g ∨ g = f) dirs kp (k.addFrame f) ∧
      (∀ d ∈ dirs, ∀ v < nupages, upage (k.addFrame f) d v = upage k d v) := by
  have hnt : f ∉ tabFrames dirs k := fun hm => hf (h.owned_man (mem_owned.mpr (.inr hm)))
  have hmem : ∀ g ∈ tabFrames dirs k, (k.addFrame f).mem g = k.mem g := by
    intro g hg
    refine Kmem.addFrame_mem_of_ne ?_
    rintro rfl
    exact hnt hg
  have hpte : ∀ d ∈ dirs, ∀ v < npages, pte (k.addFrame f) d v = pte k d v :=
    fun d hd v hv => (pte_congr hmem hd hv).1
  have hdir : ∀ d ∈ dirs, (k.addFrame f).mem d = k.mem d :=
    fun d hd => hmem d (dirs_subset_tabFrames hd)
  have hcnt : (k.addFrame f).refcnt = update k.refcnt f 0 := by
    simp [Kmem.addFrame, Kmem.decref_refcnt]
  have hne : ∀ d ∈ dirs, ∀ v < nupages, has (pte k d v) .p = true → pteFrame (pte k d v) ≠ f := by
    rintro d hd v hv hp rfl
    exact hf (h.user_man hd hv hp).1
  refine ⟨h.of_pte (h.tables.congr hdir) ?_ ?_ hpte fun d hd v hv hp => ?_, ?_⟩
  · rintro g (hg | rfl)
    · exact h.man_range g hg
    · exact ⟨hlo, hhi⟩
  · rw [hcnt, Kmem.addFrame_freelist]
    refine (h.ledger.extend hf).congr (fun g => ?_) fun _ _ => rfl
    rw [owned, owned, tabFrames_congr hdir]
  · rw [hcnt, Function.update_of_ne (hne d hd v hv hp)]
  · intro d hd v hv
    exact upage_congr (hpte d hd v (hv.trans nupages_lt))
      (fun hp => Kmem.addFrame_mem_of_ne (hne d hd v hv hp))

theorem freerangeLoop_spec {vend : Nat} (hend : vend ≤ vphystop) :
    ∀ (fuel p : Nat) (man : Nat → Prop) (k : Kmem), Inv man dirs kp k → p % 4096 = 0 →
      Layout.kend ≤ p → kernbase ≤ p → p + 4096 < 2 ^ 32 →
      (∀ f, InRange p vend f → ¬ man f) → vend ≤ p + 4096 * fuel →
      Ends (freerangeLoop vend fuel p) k (fun _ k' =>
        Inv (fun f => man f ∨ InRange p vend f) dirs kp k' ∧
        (∀ d ∈ dirs, ∀ v < nupages, upage k' d v = upage k d v) ∧ k'.oom = k.oom ∧
        k'.freelist.length = k.freelist.length + (vend - p) / 4096) := by
  intro fuel
  induction fuel with
  | zero =>
    intro p man k h hmod hkend hkern hp hnew hfuel
    have hempty : ∀ f, ¬ InRange p vend f := fun f => inRange_end (by omega)
    refine .ret ⟨?_, fun _ _ _ _ => rfl, rfl, by simp; omega⟩
    simpa [hempty] using h
  | succ fuel ih =>
    intro p man k h hmod hkend hkern hp hnew hfuel
    have hwrap : u32 (p + pgsize) = p + 4096 := by
      simp only [u32, pgsize]
      omega
    rw [freerangeLoop, hwrap, ends_ite]
    refine ⟨fun hle => ?_, fun hgt => ?_⟩
    · obtain ⟨f, rfl⟩ : ∃ f, p = kernbase + v2p f := by
        refine ⟨(p - kernbase) / 4096, ?_⟩
        simp only [v2p, pgsize, kernbase] at *
        omega
      have hframe : (kernbase + v2p f - kernbase) / pgsize = f := by
        simp only [v2p, pgsize]
        omega
      have hhi : v2p f < phystop := by
        simp only [vphystop] at hend
        omega
      have hf : ¬ man f := hnew f ⟨le_rfl, hle⟩
      obtain ⟨hinv, hup⟩ := h.extend hf hkend hhi
      rw [hframe, ends_bind, ends_modify, ends_bind, ends_kfree hkend hhi (by simp)]
      refine (ih (kernbase + v2p f + 4096) _ _ hinv (by omega) (by omega) (by omega) ?_ ?_
        (by omega)).imp ?_
      · simp only [vphystop, kernbase, phystop] at *
        omega
      · rintro g hg (hm | rfl)
        · exact hnew g ((inRange_succ hle).mpr (.inr hg)) hm
        · have := hg.1
          omega
      · rintro - k' ⟨hinv', hup', hoom, hlen⟩
        refine ⟨?_, fun d hd v hv => (hup' d hd v hv).trans (hup d hd v hv), ?_, ?_⟩
        · simpa only [inRange_succ hle, or_assoc] using hinv'
        · rw [hoom, Kmem.addFrame_oom]
        · rw [hlen, Kmem.addFrame_freelist, List.length_cons]
          omega
    · have hempty : ∀ f, ¬ InRange p vend f := fun f => inRange_end (by omega)
      refine .ret ⟨?_, fun _ _ _ _ => rfl, rfl, by omega⟩
      simpa [hempty] using h

/-- `freerange` adds the whole pages of its range to the pool. -/
theorem freerange_spec {vstart vend : Nat} (h : Inv man dirs kp k)
    (hstart : Layout.kend ≤ vstart) (hkern : kernbase ≤ vstart) (hle : vstart ≤ vphystop)
    (hend : vend ≤ vphystop) (hnew : ∀ f, InRange vstart vend f → ¬ man f) :
    Ends (freerange vstart vend) k (fun _ k' =>
      Inv (fun f => man f ∨ InRange vstart vend f) dirs kp k' ∧
      (∀ d ∈ dirs, ∀ v < nupages, upage k' d v = upage k d v) ∧ k'.oom = k.oom ∧
      k'.freelist.length = k.freelist.length + (vend - (vstart + 4095) / 4096 * 4096) / 4096) := by
  have hround : pgroundup vstart = (vstart + 4095) / 4096 * 4096 := by
    refine pgroundup_eq ?_
    simp only [vphystop, kernbase, phystop] at hle
    omega
  rw [freerange, hround]
  obtain ⟨p, hp⟩ : ∃ p, (vstart + 4095) / 4096 * 4096 = p := ⟨_, rfl⟩
  rw [hp]
  -- frames are page aligned, so rounding the start up loses none
  have hiff : ∀ f, InRange p vend f ↔ InRange vstart vend f := by
    intro f
    simp only [InRange, v2p, pgsize, kernbase]
    omega
  refine (freerangeLoop_spec hend npages p man k h (by omega) (by omega) (by omega) ?_
    (fun f hf => hnew f ((hiff f).mp hf)) ?_).imp ?_
  · simp only [vphystop, kernbase, phystop] at hle
    omega
  · simp only [npages, vphystop, kernbase, phystop] at *
    omega
  · rintro - k' ⟨hinv, hup, hoom, hlen⟩
    exact ⟨by simpa only [hiff] using hinv, hup, hoom, hlen⟩

end Xv6
