import Mathlib.Data.Finset.Card
import Mathlib.Logic.Function.Basic
import Mathlib.Tactic.Common

/-!
# Xv6.Lib.Owner

Slots that name blocks, and an allocator's record of the blocks in use. No block is named
by two slots, and a named block is in use (`Owned`); a block in use is named
by some slot (`NoLeak`). Taking a fresh block for an empty slot and giving a slot's block
back keep both.
-/

namespace Xv6

open Function (update update_self update_of_ne)

variable {σ β : Type} {r : σ → Option β} {used : β → Prop} {s t : σ} {b : β}

/-- No block is named twice, and what is named is in use. -/
structure Owned (r : σ → Option β) (used : β → Prop) : Prop where
  inj : ∀ {s t b}, r s = some b → r t = some b → s = t
  used : ∀ {s b}, r s = some b → used b

/-- What is in use is named. -/
def NoLeak (r : σ → Option β) (used : β → Prop) : Prop := ∀ b, used b → ∃ s, r s = some b

theorem Owned.congr {used' : β → Prop} (h : Owned r used) (hu : ∀ b, used b → used' b) :
    Owned r used' :=
  ⟨h.inj, fun hs => hu _ (h.used hs)⟩

/-- Then there are as many named slots as blocks in use. -/
theorem Owned.card_eq {S : Finset σ} {B : Finset β} (h : Owned r used) (hleak : NoLeak r used)
    (hS : ∀ s, s ∈ S ↔ r s ≠ none) (hB : ∀ b, b ∈ B ↔ used b) : S.card = B.card := by
  have hsome : ∀ s ∈ S, (r s).isSome := fun s hs => Option.isSome_iff_ne_none.mpr ((hS s).mp hs)
  have hget : ∀ s (hs : s ∈ S), r s = some ((r s).get (hsome s hs)) := fun s hs => by simp
  refine Finset.card_bij (fun s hs => (r s).get (hsome s hs)) ?_ ?_ ?_
  · intro s hs
    exact (hB _).mpr (h.used (hget s hs))
  · intro s hs t ht heq
    refine h.inj (hget s hs) ?_
    rw [hget t ht, heq]
  · intro b hb
    obtain ⟨s, hs⟩ := hleak b ((hB b).mp hb)
    have hmem : s ∈ S := (hS s).mpr (by rw [hs]; nofun)
    exact ⟨s, hmem, Option.get_of_eq_some _ hs⟩

section
variable [DecidableEq σ]

theorem Owned.alloc (h : Owned r used) (hb : ¬ used b) :
    Owned (update r s (some b)) (fun c => used c ∨ c = b) where
  inj {t u c} ht hu := by
    -- the new block is in no other slot, since it was not in use
    have hnew : ∀ v, v ≠ s → r v ≠ some b := fun v _ hv => hb (h.used hv)
    by_cases hts : t = s <;> by_cases hus : u = s
    · rw [hts, hus]
    · rw [hts, update_self] at ht
      rw [update_of_ne hus, ← ht] at hu
      exact absurd hu (hnew u hus)
    · rw [hus, update_self] at hu
      rw [update_of_ne hts, ← hu] at ht
      exact absurd ht (hnew t hts)
    · rw [update_of_ne hts] at ht
      rw [update_of_ne hus] at hu
      exact h.inj ht hu
  used {t c} ht := by
    by_cases hts : t = s
    · rw [hts, update_self] at ht
      exact .inr (Option.some.inj ht).symm
    · rw [update_of_ne hts] at ht
      exact .inl (h.used ht)

theorem NoLeak.alloc (h : NoLeak r used) (hs : r s = none) :
    NoLeak (update r s (some b)) (fun c => used c ∨ c = b) := by
  intro c hc
  rcases hc with hc | rfl
  · obtain ⟨t, ht⟩ := h c hc
    have hts : t ≠ s := by
      intro he
      rw [he, hs] at ht
      cases ht
    exact ⟨t, by rw [update_of_ne hts, ht]⟩
  · exact ⟨s, update_self ..⟩

theorem Owned.free (h : Owned r used) (hs : r s = some b) :
    Owned (update r s none) (fun c => used c ∧ c ≠ b) where
  inj {t u c} ht hu := by
    have kept : ∀ {v}, update r s none v = some c → r v = some c := by
      intro v hv
      by_cases hvs : v = s
      · rw [hvs, update_self] at hv
        cases hv
      · rwa [update_of_ne hvs] at hv
    exact h.inj (kept ht) (kept hu)
  used {t c} ht := by
    by_cases hts : t = s
    · rw [hts, update_self] at ht
      cases ht
    · rw [update_of_ne hts] at ht
      refine ⟨h.used ht, fun hcb => hts ?_⟩
      rw [hcb] at ht
      exact h.inj ht hs

theorem NoLeak.free (h : NoLeak r used) (hs : r s = some b) :
    NoLeak (update r s none) (fun c => used c ∧ c ≠ b) := by
  intro c hc
  obtain ⟨t, ht⟩ := h c hc.1
  have hts : t ≠ s := by
    intro he
    rw [he, hs] at ht
    exact hc.2 (Option.some.inj ht).symm
  exact ⟨t, by rw [update_of_ne hts, ht]⟩

end

end Xv6
