import Mathlib.Algebra.GroupWithZero.Nat
import Mathlib.Data.List.Perm.Basic
import Mathlib.Algebra.BigOperators.Group.List.Basic
import Mathlib.Tactic.Common

/-!
# Xv6.Lib.Extents

Extents of memory, as pairs of a start and a length. `Packed lo hi total xs` says that the extents
`xs` are not empty, do not overlap, lie between `lo` and `hi`, and are `total` long together. What
an allocator does to its blocks, whoever owns them, keeps this: taking them in another order,
cutting one in two, joining two that touch, and adding memory from above.
-/

namespace Xv6

/-- One of the two extents is before the other. -/
def Separate (x y : Nat × Nat) : Prop := x.1 + x.2 ≤ y.1 ∨ y.1 + y.2 ≤ x.1

theorem Separate.symm {x y : Nat × Nat} (h : Separate x y) : Separate y x := Or.symm h

/-- Non-empty extents from `lo` to `hi` that do not overlap, of total length `total`. -/
structure Packed (lo hi total : Nat) (xs : List (Nat × Nat)) : Prop where
  lower : ∀ x ∈ xs, lo ≤ x.1
  upper : ∀ x ∈ xs, x.1 + x.2 ≤ hi
  pos : ∀ x ∈ xs, 0 < x.2
  clear : xs.Pairwise Separate
  sum : (xs.map Prod.snd).sum = total

namespace Packed

variable {lo hi total a m n : Nat} {x y : Nat × Nat} {xs ys : List (Nat × Nat)}

theorem nil (lo hi : Nat) : Packed lo hi 0 [] :=
  ⟨by simp, by simp, by simp, .nil, rfl⟩

theorem perm (h : Packed lo hi total xs) (hp : xs.Perm ys) : Packed lo hi total ys where
  lower x hx := h.lower x (hp.mem_iff.mpr hx)
  upper x hx := h.upper x (hp.mem_iff.mpr hx)
  pos x hx := h.pos x (hp.mem_iff.mpr hx)
  clear := (hp.pairwise_iff Separate.symm).mp h.clear
  sum := by rw [← h.sum, (hp.map Prod.snd).sum_eq]

theorem nodup (h : Packed lo hi total xs) : xs.Nodup := by
  refine h.clear.imp_of_mem fun {x y} hx _ hclear he => ?_
  have := h.pos x hx
  subst he
  simp only [Separate] at hclear
  omega

theorem cut (h : Packed lo hi total ((a, m + n) :: xs)) (hm : 0 < m) (hn : 0 < n) :
    Packed lo hi total ((a, m) :: (a + m, n) :: xs) := by
  obtain ⟨hlower, hupper, hpos, hclear, hsum⟩ := h
  simp only [List.forall_mem_cons, List.pairwise_cons, List.map_cons, List.sum_cons] at *
  refine ⟨by simp only [List.forall_mem_cons]; exact ⟨hlower.1, by omega, hlower.2⟩, ?_, ?_, ?_, ?_⟩
  · simp only [List.forall_mem_cons]
    exact ⟨by omega, by omega, hupper.2⟩
  · simp only [List.forall_mem_cons]
    exact ⟨hm, hn, hpos.2⟩
  · simp only [List.pairwise_cons, List.forall_mem_cons]
    refine ⟨⟨.inl (Nat.le_refl (a + m)), fun y hy => ?_⟩, fun y hy => ?_, hclear.2⟩ <;>
    · have := hclear.1 y hy
      simp only [Separate] at *
      omega
  · simp only [List.map_cons, List.sum_cons]
    omega

theorem join (h : Packed lo hi total ((a, m) :: (a + m, n) :: xs)) :
    Packed lo hi total ((a, m + n) :: xs) := by
  obtain ⟨hlower, hupper, hpos, hclear, hsum⟩ := h
  simp only [List.forall_mem_cons, List.pairwise_cons, List.map_cons, List.sum_cons] at *
  refine ⟨by simp only [List.forall_mem_cons]; exact ⟨hlower.1, hlower.2.2⟩, ?_, ?_, ?_, ?_⟩
  · simp only [List.forall_mem_cons]
    exact ⟨by omega, hupper.2.2⟩
  · simp only [List.forall_mem_cons]
    exact ⟨by omega, hpos.2.2⟩
  · refine List.pairwise_cons.mpr ⟨fun y hy => ?_, hclear.2.2⟩
    have h1 := hclear.1.2 y hy
    have h2 := hclear.2.1 y hy
    have := hpos.2.2 y hy
    simp only [Separate] at *
    omega
  · simp only [List.map_cons, List.sum_cons]
    omega

theorem grow (h : Packed lo hi total xs) (ha : hi ≤ a) (hlo : lo ≤ hi) (hn : 0 < n) :
    Packed lo (a + n) (n + total) ((a, n) :: xs) := by
  refine ⟨?_, ?_, ?_, ?_, ?_⟩
  · simp only [List.forall_mem_cons]
    exact ⟨by omega, h.lower⟩
  · simp only [List.forall_mem_cons]
    exact ⟨Nat.le_refl _, fun x hx => Nat.le_trans (h.upper x hx) (by omega)⟩
  · simp only [List.forall_mem_cons]
    exact ⟨hn, h.pos⟩
  · exact List.pairwise_cons.mpr ⟨fun y hy => .inr (Nat.le_trans (h.upper y hy) ha), h.clear⟩
  · rw [List.map_cons, List.sum_cons, h.sum]

end Packed

end Xv6
