import Mathlib.Data.Finset.Card
import Mathlib.Tactic.Common

/-!
# Xv6.Lib.Ledger

Exact reference counting over a pool of resources.

Resources are numbered; those satisfying `man` belong to the pool. A resource in
use is either *owned* outright (`own`) or referred to by slots: `ref i` is the
resource slot `i` refers to, for `i` in the finite set `S`. A `Ledger` says that
the counts and the free list agree with this: an owned resource counts one and
no slot refers to it, any other counts its slots, and the free list holds
exactly the resources that count zero, once each.

The lemmas say how each bookkeeping step keeps a ledger: taking a resource from
the free list, giving it back, moving it from its owner to a slot, adding and
dropping references, and changing the set of slots.
-/

namespace Xv6

open Function (update update_self update_of_ne)

variable {ι : Type}

/-- The slots of `S` that refer to `f`. -/
def refsTo (S : Finset ι) (ref : ι → Option Nat) (f : Nat) : Finset ι :=
  S.filter fun i => ref i = some f

/-- Counts and free list agree with the owners and the references. -/
structure Ledger (man own : Nat → Prop) (S : Finset ι) (ref : ι → Option Nat)
    (refcnt : Nat → Nat) (free : List Nat) : Prop where
  own_man : ∀ f, own f → man f
  ref_man : ∀ i ∈ S, ∀ f, ref i = some f → man f ∧ ¬ own f
  count_own : ∀ f, own f → refcnt f = 1
  count_ref : ∀ f, man f → ¬ own f → refcnt f = (refsTo S ref f).card
  free_nodup : free.Nodup
  free_iff : ∀ f, f ∈ free ↔ man f ∧ refcnt f = 0

section
variable {S : Finset ι} {ref ref' : ι → Option Nat} {f : Nat} {i : ι}

@[simp] theorem mem_refsTo : i ∈ refsTo S ref f ↔ i ∈ S ∧ ref i = some f := by
  simp [refsTo]

theorem refsTo_congr (h : ∀ i ∈ S, ref' i = ref i) : refsTo S ref' f = refsTo S ref f := by
  ext i
  simp only [mem_refsTo]
  constructor
  · rintro ⟨hi, hr⟩
    exact ⟨hi, by rw [← h i hi]; exact hr⟩
  · rintro ⟨hi, hr⟩
    exact ⟨hi, by rw [h i hi]; exact hr⟩

/-- A resource no slot refers to has no references. -/
theorem refsTo_eq_empty (h : ∀ i ∈ S, ref i ≠ some f) : refsTo S ref f = ∅ := by
  ext i
  simp only [mem_refsTo, Finset.notMem_empty, iff_false, not_and]
  exact h i

variable [DecidableEq ι]

/-- Pointing an idle slot at `f` adds that slot to the references of `f` only. -/
theorem refsTo_update_some (hi : i ∈ S) (hnone : ref i = none) (g : Nat) :
    refsTo S (update ref i (some f)) g =
      if g = f then insert i (refsTo S ref g) else refsTo S ref g := by
  ext j
  by_cases hj : j = i
  · subst hj
    by_cases hg : g = f
    · simp [hg, hi]
    · simp [hg, hnone, Ne.symm hg]
  · split <;> simp [hj]

/-- Idling a slot removes it from the references of what it referred to. -/
theorem refsTo_update_none (g : Nat) :
    refsTo S (update ref i none) g = (refsTo S ref g).erase i := by
  ext j
  by_cases hj : j = i
  · subst hj; simp
  · simp [hj]

end

namespace Ledger

variable {man own own' : Nat → Prop} {S : Finset ι} {ref ref' : ι → Option Nat}
  {refcnt : Nat → Nat} {free rest : List Nat} {f : Nat} {i : ι}

section
variable (h : Ledger man own S ref refcnt free)
include h

/-- A ledger only depends on the owners and on the references from its slots. -/
theorem congr (hown : ∀ f, own' f ↔ own f) (href : ∀ i ∈ S, ref' i = ref i) :
    Ledger man own' S ref' refcnt free where
  own_man f hf := h.own_man f ((hown f).mp hf)
  ref_man i hi f hf := by
    have := h.ref_man i hi f (by rw [← href i hi]; exact hf)
    exact ⟨this.1, fun ho => this.2 ((hown f).mp ho)⟩
  count_own f hf := h.count_own f ((hown f).mp hf)
  count_ref f hm hf := by
    rw [refsTo_congr href]
    exact h.count_ref f hm (fun ho => hf ((hown f).mpr ho))
  free_nodup := h.free_nodup
  free_iff := h.free_iff

/-- No slot refers to an owned resource. -/
theorem own_refs (hf : own f) : refsTo S ref f = ∅ :=
  refsTo_eq_empty fun j hj hr => (h.ref_man j hj f hr).2 hf

/-- A resource some slot refers to counts at least one. -/
theorem refcnt_pos (hi : i ∈ S) (hr : ref i = some f) : 0 < refcnt f := by
  obtain ⟨hm, ho⟩ := h.ref_man i hi f hr
  rw [h.count_ref f hm ho]
  exact Finset.card_pos.mpr ⟨i, by simp [hi, hr]⟩

/-- A resource that counts one is referred to by at most one slot. -/
theorem unique_ref {j : ι} (hi : i ∈ S) (hj : j ∈ S) (hri : ref i = some f) (hrj : ref j = some f)
    (h1 : refcnt f = 1) : i = j := by
  obtain ⟨hm, ho⟩ := h.ref_man i hi f hri
  have hcard : (refsTo S ref f).card = 1 := by rw [← h.count_ref f hm ho, h1]
  exact Finset.card_le_one.mp (le_of_eq hcard) i (by simp [hi, hri]) j (by simp [hj, hrj])

/-- A free resource is neither owned nor referred to. -/
theorem free_idle (hf : f ∈ free) : ¬ own f ∧ ∀ i ∈ S, ref i ≠ some f := by
  obtain ⟨-, h0⟩ := (h.free_iff f).mp hf
  refine ⟨fun ho => ?_, fun i hi hr => ?_⟩
  · have := h.count_own f ho
    omega
  · have := h.refcnt_pos hi hr
    omega

end

/-- Taking the head of the free list makes it owned. -/
theorem alloc (h : Ledger man own S ref refcnt (f :: rest)) :
    Ledger man (fun g => own g ∨ g = f) S ref (update refcnt f 1) rest := by
  obtain ⟨hown, href⟩ := h.free_idle (List.mem_cons_self)
  obtain ⟨hman, h0⟩ := (h.free_iff f).mp (List.mem_cons_self)
  have hnodup := List.nodup_cons.mp h.free_nodup
  constructor
  · rintro g (hg | rfl)
    · exact h.own_man g hg
    · exact hman
  · intro j hj g hg
    obtain ⟨hm, ho⟩ := h.ref_man j hj g hg
    exact ⟨hm, fun hor => hor.elim ho (fun he => href j hj (he ▸ hg))⟩
  · rintro g (hg | rfl)
    · have hne : g ≠ f := by rintro rfl; exact hown hg
      rw [update_of_ne hne]
      exact h.count_own g hg
    · simp
  · intro g hm hg
    have hne : g ≠ f := fun he => hg (.inr he)
    rw [update_of_ne hne]
    exact h.count_ref g hm (fun ho => hg (.inl ho))
  · exact hnodup.2
  · intro g
    by_cases hgf : g = f
    · subst hgf
      simp [hnodup.1]
    · rw [update_of_ne hgf, ← h.free_iff g]
      simp [hgf]

/-- Giving back an owned resource puts it on the free list. -/
theorem release (h : Ledger man own S ref refcnt free) (hf : own f) :
    Ledger man (fun g => own g ∧ g ≠ f) S ref (update refcnt f 0) (f :: free) := by
  have hman := h.own_man f hf
  have hone := h.count_own f hf
  constructor
  · exact fun g hg => h.own_man g hg.1
  · intro j hj g hg
    obtain ⟨hm, ho⟩ := h.ref_man j hj g hg
    exact ⟨hm, fun hor => ho hor.1⟩
  · rintro g ⟨hg, hne⟩
    rw [update_of_ne hne]
    exact h.count_own g hg
  · intro g hm hg
    by_cases hgf : g = f
    · subst hgf
      simp [h.own_refs hf]
    · rw [update_of_ne hgf]
      exact h.count_ref g hm (fun ho => hg ⟨ho, hgf⟩)
  · refine List.nodup_cons.mpr ⟨fun hmem => ?_, h.free_nodup⟩
    have := ((h.free_iff f).mp hmem).2
    omega
  · intro g
    by_cases hgf : g = f
    · subst hgf
      simp [hman]
    · rw [update_of_ne hgf, ← h.free_iff g]
      simp [hgf]

section
variable [DecidableEq ι]

/-- An owned resource is handed to an idle slot; its count stays one. -/
theorem hand (h : Ledger man own S ref refcnt free) (hf : own f) (hi : i ∈ S)
    (hnone : ref i = none) :
    Ledger man (fun g => own g ∧ g ≠ f) S (update ref i (some f)) refcnt free := by
  constructor
  · exact fun g hg => h.own_man g hg.1
  · intro j hj g hg
    by_cases hji : j = i
    · subst hji
      obtain rfl : f = g := by simpa using hg
      exact ⟨h.own_man f hf, fun ho => ho.2 rfl⟩
    · rw [update_of_ne hji] at hg
      obtain ⟨hm, ho⟩ := h.ref_man j hj g hg
      exact ⟨hm, fun hor => ho hor.1⟩
  · exact fun g hg => h.count_own g hg.1
  · intro g hm hg
    rw [refsTo_update_some hi hnone]
    by_cases hgf : g = f
    · subst hgf
      rw [if_pos rfl, h.own_refs hf, h.count_own g hf]
      simp
    · rw [if_neg hgf]
      exact h.count_ref g hm (fun ho => hg ⟨ho, hgf⟩)
  · exact h.free_nodup
  · exact h.free_iff

/-- One more slot refers to a resource already referred to. -/
theorem share (h : Ledger man own S ref refcnt free) {j : ι} (hj : j ∈ S)
    (hf : ref j = some f) (hi : i ∈ S) (hnone : ref i = none) :
    Ledger man own S (update ref i (some f)) (update refcnt f (refcnt f + 1)) free := by
  obtain ⟨hman, hown⟩ := h.ref_man j hj f hf
  have hpos := h.refcnt_pos hj hf
  constructor
  · exact h.own_man
  · intro l hl g hg
    by_cases hli : l = i
    · subst hli
      obtain rfl : f = g := by simpa using hg
      exact ⟨hman, hown⟩
    · rw [update_of_ne hli] at hg
      exact h.ref_man l hl g hg
  · intro g hg
    have hne : g ≠ f := by rintro rfl; exact hown hg
    rw [update_of_ne hne]
    exact h.count_own g hg
  · intro g hm hg
    rw [refsTo_update_some hi hnone]
    by_cases hgf : g = f
    · subst hgf
      rw [if_pos rfl, update_self, Finset.card_insert_of_notMem (by simp [hnone]),
        h.count_ref g hm hg]
    · rw [if_neg hgf, update_of_ne hgf]
      exact h.count_ref g hm hg
  · exact h.free_nodup
  · intro g
    by_cases hgf : g = f
    · subst hgf
      rw [update_self, h.free_iff g]
      omega
    · rw [update_of_ne hgf]
      exact h.free_iff g

/-- A slot stops referring to a resource; the last reference frees it. -/
theorem drop (h : Ledger man own S ref refcnt free) (hi : i ∈ S) (hf : ref i = some f) :
    Ledger man own S (update ref i none) (update refcnt f (refcnt f - 1))
      (if 0 < refcnt f - 1 then free else f :: free) := by
  obtain ⟨hman, hown⟩ := h.ref_man i hi f hf
  have hpos := h.refcnt_pos hi hf
  constructor
  · exact h.own_man
  · intro j hj g hg
    by_cases hji : j = i
    · subst hji; simp at hg
    · rw [update_of_ne hji] at hg
      exact h.ref_man j hj g hg
  · intro g hg
    have hne : g ≠ f := by rintro rfl; exact hown hg
    rw [update_of_ne hne]
    exact h.count_own g hg
  · intro g hm hg
    rw [refsTo_update_none]
    by_cases hgf : g = f
    · subst hgf
      rw [update_self, Finset.card_erase_of_mem (by simp [hi, hf]),
        h.count_ref g hm hg]
    · rw [update_of_ne hgf, Finset.erase_eq_of_notMem (by simp [hf, Ne.symm hgf])]
      exact h.count_ref g hm hg
  · split
    · exact h.free_nodup
    · refine List.nodup_cons.mpr ⟨fun hmem => ?_, h.free_nodup⟩
      have := ((h.free_iff f).mp hmem).2
      omega
  · intro g
    by_cases hgf : g = f
    · subst hgf
      rw [update_self]
      split
      · rw [h.free_iff g]
        omega
      · simp [hman]
        omega
    · rw [update_of_ne hgf, ← h.free_iff g]
      split <;> simp [hgf]

end

/-- Slots that refer to nothing may be added or removed. -/
theorem slots (S' : Finset ι) (h : Ledger man own S ref refcnt free)
    (hnew : ∀ i ∈ S', i ∉ S → ref i = none) (hold : ∀ i ∈ S, i ∉ S' → ref i = none) :
    Ledger man own S' ref refcnt free where
  own_man := h.own_man
  ref_man i hi f hf := by
    by_cases hS : i ∈ S
    · exact h.ref_man i hS f hf
    · rw [hnew i hi hS] at hf
      exact absurd hf (by simp)
  count_own := h.count_own
  count_ref f hm hf := by
    have hset : refsTo S' ref f = refsTo S ref f := by
      ext i
      simp only [mem_refsTo]
      constructor
      · rintro ⟨hi, hr⟩
        refine ⟨?_, hr⟩
        by_contra hS
        rw [hnew i hi hS] at hr
        exact absurd hr (by simp)
      · rintro ⟨hi, hr⟩
        refine ⟨?_, hr⟩
        by_contra hS
        rw [hold i hi hS] at hr
        exact absurd hr (by simp)
    rw [hset]
    exact h.count_ref f hm hf
  free_nodup := h.free_nodup
  free_iff := h.free_iff

/-- New resources, each counting zero, may join the pool on the free list. -/
theorem extend (h : Ledger man own S ref refcnt free) (hf : ¬ man f) :
    Ledger (fun g => man g ∨ g = f) own S ref (update refcnt f 0) (f :: free) := by
  have hown : ¬ own f := fun ho => hf (h.own_man f ho)
  constructor
  · exact fun g hg => .inl (h.own_man g hg)
  · intro j hj g hg
    obtain ⟨hm, ho⟩ := h.ref_man j hj g hg
    exact ⟨.inl hm, ho⟩
  · intro g hg
    have hne : g ≠ f := by rintro rfl; exact hown hg
    rw [update_of_ne hne]
    exact h.count_own g hg
  · intro g hm hg
    by_cases hgf : g = f
    · subst hgf
      simp [refsTo_eq_empty fun j hj hr => hf (h.ref_man j hj g hr).1]
    · rw [update_of_ne hgf]
      exact h.count_ref g (hm.resolve_right hgf) hg
  · refine List.nodup_cons.mpr ⟨fun hmem => ?_, h.free_nodup⟩
    exact hf ((h.free_iff f).mp hmem).1
  · intro g
    by_cases hgf : g = f
    · subst hgf; simp
    · rw [update_of_ne hgf, List.mem_cons, h.free_iff g]
      simp [hgf]

end Ledger

end Xv6
