import Mathlib.Data.List.TakeWhile

/-!
# Xv6.Lib.Runs

The maximal runs of elements between separators, and the loop that takes them off the
front of a list: skip separators, take a run, go on.
-/

namespace Xv6

variable {α : Type} {p : α → Bool}

/-- The maximal runs of elements that are no separators. -/
def runs (p : α → Bool) (l : List α) : List (List α) := (l.splitOnP p).filter (!·.isEmpty)

theorem runs_sep {c : α} (h : p c = true) (l : List α) : runs p (c :: l) = runs p l := by
  simp [runs, List.splitOnP_cons_eq_if_modifyHead, h]

theorem runs_run {w : List α} (hw : w ≠ []) (h : ∀ c ∈ w, p c = false) :
    runs p w = [w] ∧ ∀ c l, p c = true → runs p (w ++ c :: l) = w :: runs p l := by
  constructor
  · rw [runs, List.splitOnP_eq_singleton h]
    simp [hw]
  · intro c l hc
    rw [runs, List.splitOnP_append_cons_of_forall_mem h c hc]
    simp [hw, runs]

theorem runs_dropWhile (l : List α) : runs p (l.dropWhile p) = runs p l := by
  induction l with
  | nil => rfl
  | cons c l ih =>
    by_cases hc : p c = true
    · rw [List.dropWhile_cons_of_pos hc, runs_sep hc, ih]
    · rw [List.dropWhile_cons_of_neg hc]

/-- The first run ends at the next separator, or with the list. -/
theorem runs_cons {c : α} (hc : p c = false) (l : List α) :
    runs p (c :: l) = (c :: l).takeWhile (!p ·) :: runs p ((c :: l).dropWhile (!p ·)) := by
  have hne : (c :: l).takeWhile (!p ·) ≠ [] := by simp [hc]
  have hrun : ∀ a ∈ (c :: l).takeWhile (!p ·), p a = false := fun a ha => by
    simpa using List.mem_takeWhile_imp ha
  have happ := List.takeWhile_append_dropWhile (p := (!p ·)) (l := c :: l)
  cases hrest : (c :: l).dropWhile (!p ·) with
  | nil =>
    rw [hrest, List.append_nil] at happ
    have := (runs_run hne hrun).1
    rw [happ] at this ⊢
    exact this
  | cons s rest =>
    have hs : p s = true := by
      have := List.head_dropWhile_not (l := c :: l) (!p ·) (by rw [hrest]; simp)
      simpa [hrest] using this
    have := (runs_run hne hrun).2 s rest hs
    rw [← hrest, happ] at this
    rw [this, runs_sep hs]

end Xv6
