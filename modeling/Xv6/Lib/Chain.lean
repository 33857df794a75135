import Mathlib.Data.List.Nodup
import Mathlib.Logic.Function.Basic
import Mathlib.Tactic.Common

/-!
# Xv6.Lib.Chain

Singly linked lists through a field `next` of their elements. `Chained next a l` says that
`l` is what is met from the link `a` on. The two operations of a queue are to go to the element
after the first and to add an element behind the last, which is found by following the links
(`enqueue`).
-/

namespace Xv6

open Function (update update_self update_of_ne)

variable {β : Type} {next next' : β → Option β} {a : Option β} {b c : β} {l l' : List β}

/-- The elements from a link on. -/
def Chained (next : β → Option β) : Option β → List β → Prop
  | a, [] => a = none
  | a, b :: l => a = some b ∧ Chained next (next b) l

theorem Chained.head (h : Chained next a l) : a = l.head? := by
  cases l with
  | nil => exact h
  | cons b l => exact h.1

theorem Chained.congr (h : Chained next a l) (hnext : ∀ b ∈ l, next' b = next b) :
    Chained next' a l := by
  induction l generalizing a with
  | nil => exact h
  | cons b l ih =>
    refine ⟨h.1, ?_⟩
    rw [hnext b List.mem_cons_self]
    exact ih h.2 fun c hc => hnext c (List.mem_cons_of_mem _ hc)

/-- The last element, which is at most `fuel` links away. -/
def lastFrom (next : β → Option β) : Nat → β → β
  | 0, b => b
  | fuel + 1, b =>
    match next b with
    | none => b
    | some c => lastFrom next fuel c

theorem Chained.lastFrom {fuel : Nat} (h : Chained next (some b) l) (hlen : l.length ≤ fuel + 1) :
    ∃ l0, l = l0 ++ [Xv6.lastFrom next fuel b] := by
  induction fuel generalizing b l with
  | zero =>
    cases l with
    | nil => cases h
    | cons c l =>
      cases h.1
      cases List.length_eq_zero_iff.mp (Nat.le_zero.mp (Nat.le_of_succ_le_succ hlen))
      exact ⟨[], rfl⟩
  | succ fuel ih =>
    cases l with
    | nil => cases h
    | cons c l =>
      obtain ⟨hb, h⟩ := h
      cases hb
      rw [Xv6.lastFrom]
      cases hnext : next b with
      | none =>
        rw [hnext] at h
        cases l with
        | nil => exact ⟨[], rfl⟩
        | cons d l => cases h.1
      | some d =>
        rw [hnext] at h
        obtain ⟨l0, hl0⟩ := ih h (Nat.le_of_succ_le_succ hlen)
        exact ⟨b :: l0, congrArg (List.cons b) hl0⟩

section
variable [DecidableEq β]

/-- A new element behind the last: the new first link, and the new links. -/
def enqueue (next : β → Option β) (fuel : Nat) (a : Option β) (b : β) :
    Option β × (β → Option β) :=
  let next := update next b none
  match a with
  | none => (some b, next)
  | some c => (some c, update next (lastFrom next fuel c) (some b))

theorem Chained.setLast {d : β} (h : Chained next a (l ++ [c])) (hnd : (l ++ [c]).Nodup)
    (hd : next d = none) (hdc : d ≠ c) : Chained (update next c (some d)) a (l ++ [c] ++ [d]) := by
  induction l generalizing a with
  | nil =>
    refine ⟨h.1, ?_, ?_⟩
    · exact update_self ..
    · rw [update_of_ne hdc]
      exact hd
  | cons b l ih =>
    refine ⟨h.1, ?_⟩
    obtain ⟨hb, hnd⟩ := List.nodup_cons.mp hnd
    have hbc : b ≠ c := by
      rintro rfl
      exact hb (List.mem_append_right _ List.mem_cons_self)
    rw [update_of_ne hbc]
    exact ih h.2 hnd

theorem Chained.enqueue {fuel : Nat} (h : Chained next a l) (hnd : l.Nodup) (hb : b ∉ l)
    (hlen : l.length ≤ fuel + 1) :
    Chained (enqueue next fuel a b).2 (enqueue next fuel a b).1 (l ++ [b]) := by
  have hnew : Chained (update next b none) a l := by
    refine h.congr fun c hc => update_of_ne ?_ ..
    rintro rfl
    exact hb hc
  have hnone : update next b none b = none := update_self ..
  unfold Xv6.enqueue
  cases a with
  | none =>
    have hl : l = [] := List.head?_eq_none_iff.mp h.head.symm
    subst hl
    exact ⟨rfl, hnone⟩
  | some c =>
    obtain ⟨l0, hl⟩ := hnew.lastFrom hlen
    dsimp only
    generalize Xv6.lastFrom (update next b none) fuel c = d at hl
    subst hl
    refine hnew.setLast hnd hnone ?_
    rintro rfl
    exact hb (List.mem_append_right _ List.mem_cons_self)

end

end Xv6
