import Mathlib.Data.List.Nodup
import Mathlib.Logic.Function.Basic
import Mathlib.Tactic.Common

/-!
# Xv6.Lib.Route

Circular lists through a field `next` that always refers to some element.

`Route next l z` says that every element of `l` links to the one after it and the last one to `z`;
a circular list is a route from its first element back to it. A route can be cut at any element
(`route_append`), entered at any element (`Route.rotate`), and changed at one place
(`Route.link`, `Route.skip`).
-/

namespace Xv6

open Function (update update_self update_of_ne)

variable {β : Type} {next next' : β → β} {a b c z : β} {l l1 l2 : List β}

/-- Each element of the list links to the next one, the last to `z`. -/
def Route (next : β → β) : List β → β → Prop
  | [], _ => True
  | a :: l, z => next a = l.headD z ∧ Route next l z

theorem route_append : Route next (l1 ++ l2) z ↔ Route next l1 (l2.headD z) ∧ Route next l2 z := by
  induction l1 with
  | nil => exact ⟨fun h => ⟨trivial, h⟩, fun h => h.2⟩
  | cons a l1 ih =>
    have hhead : (l1 ++ l2).headD z = l1.headD (l2.headD z) := by cases l1 <;> rfl
    rw [List.cons_append, Route, Route, ih, hhead, and_assoc]

theorem Route.congr (h : Route next l z) (hl : ∀ b ∈ l, next' b = next b) : Route next' l z := by
  induction l with
  | nil => trivial
  | cons a l ih =>
    refine ⟨?_, ih h.2 fun b hb => hl b (List.mem_cons_of_mem a hb)⟩
    rw [hl a List.mem_cons_self]
    exact h.1

theorem Route.setHead (h : Route next (a :: l) z) (hb : next' b = next a)
    (hl : ∀ c ∈ l, next' c = next c) : Route next' (b :: l) z :=
  ⟨hb.trans h.1, h.2.congr hl⟩

/-- A circular list, entered at another element. -/
theorem Route.rotate (h : Route next (l1 ++ a :: l2) ((l1 ++ [a]).headD a)) :
    Route next (a :: (l2 ++ l1)) a := by
  obtain ⟨h1, h2⟩ := route_append.mp h
  rw [← List.cons_append]
  refine route_append.mpr ⟨?_, h1⟩
  cases l1 <;> exact h2

/-- What an element links to is the next element of the list, unless it is the end. -/
theorem Route.split (h : Route next l z) (ha : a ∈ l) (hz : next a ≠ z) :
    ∃ l1 l2, l = l1 ++ a :: next a :: l2 := by
  obtain ⟨l1, l2, rfl⟩ := List.append_of_mem ha
  obtain ⟨hnext, -⟩ := (route_append.mp h).2
  cases l2 with
  | nil => exact absurd hnext hz
  | cons b l2 => exact ⟨l1, l2, by rw [hnext]; rfl⟩

section
variable [DecidableEq β]

/-- Behind `a` comes `b` instead of what came. -/
theorem Route.link (h1 : Route next l1 a) (h2 : Route next (b :: l2) z)
    (hnd : (l1 ++ a :: b :: l2).Nodup) : Route (update next a b) (l1 ++ a :: b :: l2) z := by
  have ha : ∀ c ∈ l1 ++ b :: l2, c ≠ a := by
    intro c hc he
    exact (List.nodup_middle.mp hnd).notMem (he ▸ hc)
  have hkeep : ∀ c ∈ l1 ++ b :: l2, update next a b c = next c :=
    fun c hc => update_of_ne (ha c hc) _ _
  refine route_append.mpr ⟨h1.congr fun c hc => hkeep c (List.mem_append_left _ hc), ?_⟩
  refine ⟨update_self .., h2.congr fun c hc => hkeep c (List.mem_append_right _ hc)⟩

/-- `a` takes over the link of an element behind it. -/
theorem Route.skip (h1 : Route next l1 a) (h2 : Route next (b :: l2) z)
    (hnd : (l1 ++ a :: l2).Nodup) : Route (update next a (next b)) (l1 ++ a :: l2) z := by
  have ha : ∀ c ∈ l1 ++ l2, c ≠ a := by
    intro c hc he
    exact (List.nodup_middle.mp hnd).notMem (he ▸ hc)
  have hkeep : ∀ c ∈ l1 ++ l2, update next a (next b) c = next c :=
    fun c hc => update_of_ne (ha c hc) _ _
  refine route_append.mpr ⟨h1.congr fun c hc => hkeep c (List.mem_append_left _ hc), ?_⟩
  exact h2.setHead (update_self ..) fun c hc => hkeep c (List.mem_append_right _ hc)

end

end Xv6
