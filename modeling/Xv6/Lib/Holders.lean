import Mathlib.Algebra.Group.Pi.Basic
import Mathlib.Algebra.GroupWithZero.Nat
import Mathlib.Data.Fintype.Basic
import Mathlib.Data.Finset.Card

/-!
# Xv6.Lib.Holders

Counting who holds what. Each of finitely many holders holds a resource or nothing, and
`holders g b` is the number of those that hold `b`. A holder that lets go of `b`, or takes
it, changes the count of `b` by one (`bump`) and no other.
-/

namespace Xv6

open Function (update update_self)

variable {ι β : Type} [DecidableEq β]

/-- One more reference to `b`. -/
def bump (r : β → Nat) (b : β) : β → Nat := update r b (r b + 1)

section
variable {r : β → Nat} {a b : β}

@[simp] theorem bump_self : bump r b b = r b + 1 := update_self ..

@[simp] theorem bump_of_ne (h : a ≠ b) : bump r b a = r a := Function.update_of_ne h ..

theorem bump_apply : bump r b a = r a + if a = b then 1 else 0 := by
  by_cases h : a = b
  · subst h
    simp
  · simp [h]

theorem bump_comm : bump (bump r a) b = bump (bump r b) a := by
  funext c
  simp only [bump_apply]
  omega

theorem bump_pos : 0 < bump r b b := by
  rw [bump_self]
  exact Nat.succ_pos _

theorem le_bump : r a ≤ bump r b a := by
  rw [bump_apply]
  exact Nat.le_add_right ..

theorem bump_inj {s : β → Nat} (h : bump r b = bump s b) : r = s := by
  funext c
  have := congrFun h c
  simp only [bump_apply] at this
  omega

theorem bump_add {s : β → Nat} : bump (r + s) b = bump r b + s := by
  funext c
  simp only [bump_apply, Pi.add_apply]
  omega

theorem add_bump {s : β → Nat} : bump (r + s) b = r + bump s b := by
  funext c
  simp only [bump_apply, Pi.add_apply]
  omega

/-- The references `r`, and those of a list besides. -/
def plus (r : β → Nat) (l : List β) : β → Nat := l.foldr (fun b r => bump r b) r

@[simp] theorem plus_nil : plus r [] = r := rfl

@[simp] theorem plus_cons {l : List β} : plus r (b :: l) = bump (plus r l) b := rfl

theorem plus_bump {l : List β} : plus (bump r b) l = bump (plus r l) b := by
  induction l with
  | nil => rfl
  | cons a l ih => rw [plus_cons, ih, bump_comm, plus_cons]

end

section
variable [Fintype ι] {g : ι → Option β} {i : ι} {b : β}

/-- The number of holders of `b`. -/
def holders (g : ι → Option β) (b : β) : Nat := (Finset.univ.filter fun i => g i = some b).card

theorem holders_pos (h : g i = some b) : 0 < holders g b :=
  Finset.card_pos.mpr ⟨i, by simp [h]⟩

theorem holders_none (h : ∀ i, g i = none) : holders g = 0 := by
  funext b
  simp [holders, h]

theorem holders_eq_zero (h : holders g b = 0) : g i ≠ some b :=
  fun hi => absurd h (Nat.pos_iff_ne_zero.mp (holders_pos hi))

variable [DecidableEq ι]

theorem holders_take (h : g i = none) : holders (update g i (some b)) = bump (holders g) b := by
  funext c
  unfold holders
  by_cases hc : c = b
  · subst hc
    have hset : (Finset.univ.filter fun j => update g i (some c) j = some c) =
        insert i (Finset.univ.filter fun j => g j = some c) := by
      ext j
      by_cases hj : j = i
      · subst hj
        simp
      · simp [hj]
    rw [hset, Finset.card_insert_of_notMem (by simp [h]), bump_self]
  · rw [bump_of_ne hc]
    congr 1
    ext j
    by_cases hj : j = i
    · subst hj
      simp [h, Ne.symm hc]
    · simp [hj]

theorem holders_drop (h : g i = some b) : holders g = bump (holders (update g i none)) b := by
  have htake := holders_take (g := update g i none) (i := i) (b := b) (update_self ..)
  rw [Function.update_idem, ← h, Function.update_eq_self] at htake
  exact htake

end

end Xv6
