import Mathlib.Data.BitVec
import Mathlib.Logic.Function.Basic
import Xv6.Bytes

/-!
# Xv6.Memmove

`memmove` of the kernel (`string.c`) and of the user library (`ulib.c`).

Copying upwards reads a byte that an earlier step of the same loop has written exactly when the
destination starts inside the source. The bytes then repeat with the distance of the two ranges
(`copyUp_apply`). The kernel copies such ranges downwards. The user library has no such case.
-/

namespace Xv6

open Function (update update_self update_of_ne)

/-- Memory as a program sees it. -/
abbrev Ram := Word → Byte

/-- `while(n-- > 0) *d++ = *s++;` -/
def copyUp (mem : Ram) (d s : Word) : Nat → Ram
  | 0 => mem
  | n + 1 => copyUp (update mem d (mem s)) (d + 1) (s + 1) n

/-- `while(n-- > 0) *--d = *--s;` -/
def copyDown (mem : Ram) (d s : Word) : Nat → Ram
  | 0 => mem
  | n + 1 => copyDown (update mem (d - 1) (mem (s - 1))) (d - 1) (s - 1) n

/-- `memmove` of `string.c`; `n` is a `uint`. -/
def Kernel.memmove (mem : Ram) (dst src n : Word) : Ram :=
  if src < dst ∧ dst < src + n then copyDown mem (dst + n) (src + n) n.toNat
  else copyUp mem dst src n.toNat

/-- `memmove` of `ulib.c`; `n` is an `int`. -/
def Ulib.memmove (mem : Ram) (vdst vsrc n : Word) : Ram := copyUp mem vdst vsrc n.toInt.toNat

/-- What both are for: `dst[0..n)` holds what `src[0..n)` held. -/
def moved (mem : Ram) (dst src : Word) (n : Nat) : Ram :=
  fun a => if (a - dst).toNat < n then mem (src + (a - dst)) else mem a

section
variable {mem : Ram} {d s a : Word}

/-! ### The two loops -/

theorem sub_add_one_toNat (h : a ≠ d) : (a - (d + 1)).toNat + 1 = (a - d).toNat := by
  bv_omega

theorem succ_mod (j k : Nat) : (j + 1) % k = if j % k + 1 = k then 0 else j % k + 1 := by
  rw [← Nat.mod_add_mod]
  split
  · next h => rw [h, Nat.mod_self]
  · next h =>
      rcases Nat.eq_zero_or_pos k with rfl | hk
      · rw [Nat.mod_zero]
      · exact Nat.mod_eq_of_lt (by have := Nat.mod_lt j hk; omega)

/-- Copying upwards repeats the first `d - s` bytes. -/
theorem copyUp_apply {n : Nat} (hn : n < 2 ^ 32) :
    copyUp mem d s n a = if (a - d).toNat < n then
      mem (s + BitVec.ofNat 32 ((a - d).toNat % (d - s).toNat)) else mem a := by
  induction n generalizing mem d s with
  | zero => rfl
  | succ n ih =>
    have hdist : (d + 1 - (s + 1)).toNat = (d - s).toNat := by bv_omega
    rw [copyUp, ih (by omega), hdist]
    by_cases had : a = d
    · -- the first byte, which the rest of the loop leaves alone
      subst had
      have hout : ¬ (a - (a + 1)).toNat < n := by bv_omega
      rw [if_neg hout, update_self, if_pos (by simp)]
      simp
    · have hnext := sub_add_one_toNat had
      rw [update_of_ne had]
      by_cases hin : (a - (d + 1)).toNat < n
      · rw [if_pos hin, if_pos (by omega), ← hnext, succ_mod]
        -- the rest of the loop reads the byte just written once per period
        have hsmall := Nat.mod_le (a - (d + 1)).toNat (d - s).toNat
        by_cases hwrap : (a - (d + 1)).toNat % (d - s).toNat + 1 = (d - s).toNat
        · rw [if_pos hwrap]
          have hread : s + 1 + BitVec.ofNat 32 ((a - (d + 1)).toNat % (d - s).toNat) = d := by
            bv_omega
          rw [hread, update_self]
          simp
        · rw [if_neg hwrap]
          have hread : s + 1 + BitVec.ofNat 32 ((a - (d + 1)).toNat % (d - s).toNat) ≠ d := by
            bv_omega
          rw [update_of_ne hread, Nat.add_comm, BitVec.ofNat_add, BitVec.add_assoc]
          rfl
      · rw [if_neg hin, if_neg (by omega)]

/-- An address is in a range by its distance from the start. -/
theorem sub_toNat_eq_iff {n : Nat} (hn : n < 2 ^ 32) :
    (a - d).toNat = n ↔ a = d + BitVec.ofNat 32 n := by
  rw [← sub_eq_iff_eq_add', ← BitVec.toNat_inj, BitVec.toNat_ofNat, Nat.mod_eq_of_lt hn]

/-- Copying downwards, from the ends of ranges that do not reach around to each other. -/
theorem copyDown_apply {n : Nat} (hn : (d - s).toNat + n ≤ 2 ^ 32) (hlt : n < 2 ^ 32) :
    copyDown mem (d + BitVec.ofNat 32 n) (s + BitVec.ofNat 32 n) n a =
      if (a - d).toNat < n then mem (s + (a - d)) else mem a := by
  induction n generalizing mem with
  | zero => rfl
  | succ n ih =>
    have hpred : ∀ p : Word, p + BitVec.ofNat 32 (n + 1) - 1 = p + BitVec.ofNat 32 n := by
      intro p
      rw [BitVec.ofNat_add, ← add_assoc]
      exact add_sub_cancel_right _ _
    rw [copyDown, hpred, hpred, ih (by omega) (by omega)]
    by_cases hin : (a - d).toNat < n
    · -- a byte still to be read is not the one just written
      have hread : s + (a - d) ≠ d + BitVec.ofNat 32 n := by
        intro h
        have hdist : a - d = d - s + BitVec.ofNat 32 n := by
          rw [sub_add_eq_add_sub, ← h, add_sub_cancel_left]
        rw [hdist, BitVec.toNat_add, BitVec.toNat_ofNat, Nat.mod_eq_of_lt (by omega : n < 2 ^ 32),
          Nat.mod_eq_of_lt (by omega)] at hin
        omega
      rw [if_pos hin, if_pos (by omega), update_of_ne hread]
    · rw [if_neg hin]
      by_cases hlast : (a - d).toNat = n
      · have ha := (sub_toNat_eq_iff (by omega)).mp hlast
        rw [if_pos (by omega), ha, update_self, add_sub_cancel_left]
      · have ha : a ≠ d + BitVec.ofNat 32 n :=
          fun ha => hlast ((sub_toNat_eq_iff (by omega)).mpr ha)
        rw [if_neg (by omega), update_of_ne ha]

end

/-! ### The two functions -/

section
variable (mem : Ram) {dst src n : Word}

/-- The bytes of the source repeat with the distance of the two ranges. -/
def Repeats (mem : Ram) (dst src : Word) (n : Nat) : Prop :=
  ∀ j < n, mem (src + BitVec.ofNat 32 j) =
    mem (src + BitVec.ofNat 32 (j % (dst - src).toNat))

theorem copyUp_eq_moved_iff {n : Nat} (hn : n < 2 ^ 32) :
    copyUp mem dst src n = moved mem dst src n ↔ Repeats mem dst src n := by
  constructor
  · intro h j hj
    have hat := congrFun h (dst + BitVec.ofNat 32 j)
    have hidx : (dst + BitVec.ofNat 32 j - dst).toNat = j := by bv_omega
    rw [copyUp_apply hn, moved, hidx, if_pos hj, if_pos hj] at hat
    rw [hat]
    congr 1
    bv_omega
  · intro h
    funext a
    rw [copyUp_apply hn, moved]
    split
    · next hin => rw [← h _ hin, BitVec.ofNat_toNat, BitVec.setWidth_eq]
    · rfl

/-- Ranges for which upwards is the right direction. -/
theorem repeats_of_apart {n : Nat} (hd : dst.toNat + n ≤ 2 ^ 32) (hs : src.toNat + n ≤ 2 ^ 32)
    (h : ¬ (src.toNat < dst.toNat ∧ dst.toNat < src.toNat + n)) : Repeats mem dst src n := by
  intro j hj
  by_cases heq : dst = src
  · rw [heq, BitVec.sub_self, BitVec.toNat_zero, Nat.mod_zero]
  · rw [Nat.mod_eq_of_lt (by bv_omega)]

theorem Kernel.memmove_eq_moved (hd : dst.toNat + n.toNat ≤ 2 ^ 32)
    (hs : src.toNat + n.toNat ≤ 2 ^ 32) :
    Kernel.memmove mem dst src n = moved mem dst src n.toNat := by
  unfold Kernel.memmove
  split
  · next h =>
      funext a
      have hdown := @copyDown_apply mem dst src a n.toNat
      rw [BitVec.ofNat_toNat, BitVec.setWidth_eq] at hdown
      exact hdown (by bv_omega) n.isLt
  · next h =>
      refine (copyUp_eq_moved_iff mem n.isLt).mpr (repeats_of_apart mem hd hs ?_)
      bv_omega

/-- The kernel's `memmove` always moves, and the user library's does so too exactly if the
destination does not start inside the source, or the bytes repeat so that no one can tell. -/
theorem memmoves_agree_iff (hd : dst.toNat + n.toNat ≤ 2 ^ 32)
    (hs : src.toNat + n.toNat ≤ 2 ^ 32) (hn : n.toNat < 2 ^ 31) :
    (Kernel.memmove mem dst src n = moved mem dst src n.toNat ∧
      Ulib.memmove mem dst src n = moved mem dst src n.toNat) ↔
    (src.toNat < dst.toNat → dst.toNat < src.toNat + n.toNat → Repeats mem dst src n.toNat) := by
  have hint : n.toInt.toNat = n.toNat := by
    rw [BitVec.toInt_eq_toNat_of_lt (by omega), Int.toNat_natCast]
  rw [Ulib.memmove, hint, copyUp_eq_moved_iff mem n.isLt]
  constructor
  · intro h _ _
    exact h.2
  · intro h
    refine ⟨Kernel.memmove_eq_moved mem hd hs, ?_⟩
    by_cases hover : src.toNat < dst.toNat ∧ dst.toNat < src.toNat + n.toNat
    · exact h hover.1 hover.2
    · exact repeats_of_apart mem hd hs hover

end

/-- The hypotheses hold of two bytes that are moved up by one. -/
theorem memmoves_agree_iff_two : let mem : Ram := fun a => a.setWidth 8
    ((1#32).toNat + (2#32).toNat ≤ 2 ^ 32 ∧ (0#32).toNat + (2#32).toNat ≤ 2 ^ 32 ∧
      (2#32).toNat < 2 ^ 31) ∧
    ((Kernel.memmove mem 1 0 2 = moved mem 1 0 2 ∧ Ulib.memmove mem 1 0 2 = moved mem 1 0 2) ↔
      (0 < 1 → 1 < 0 + 2 → Repeats mem 1 0 2)) :=
  ⟨by decide, memmoves_agree_iff _ (by decide) (by decide) (by decide)⟩

/-- Moving two different bytes up by one: the user library copies the first one twice. -/
theorem memmoves_differ : ∃ (mem : Ram) (dst src n : Word),
    (dst.toNat + n.toNat ≤ 2 ^ 32 ∧ src.toNat + n.toNat ≤ 2 ^ 32 ∧ n.toNat < 2 ^ 31) ∧
      Kernel.memmove mem dst src n = moved mem dst src n.toNat ∧
      Ulib.memmove mem dst src n ≠ moved mem dst src n.toNat := by
  refine ⟨fun a => a.setWidth 8, 1, 0, 2, by decide,
    Kernel.memmove_eq_moved _ (by decide) (by decide), fun h => ?_⟩
  have hat := congrFun h 2
  revert hat
  decide

end Xv6
