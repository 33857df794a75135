import Mathlib.Logic.Function.Basic
import Mathlib.Tactic.IntervalCases
import Xv6.Mmu

/-!
# Xv6.Bytes

The byte view of a page. Frames hold words; user loads and stores, and the
kernel's byte copies into user pages, address single bytes of them in
little-endian order.
-/

namespace Xv6

open Function (update)

/-- A byte (`char`, `uchar`). -/
abbrev Byte := BitVec 8

/-- `'\n'`. -/
def newline : Byte := 10#8

/-- Byte `j` of a word. -/
def wordByte (w : Word) (j : Nat) : Byte := w.extractLsb' (8 * j) 8

/-- Replace byte `j` of a word. -/
def setWordByte (w : Word) (j : Nat) (b : Byte) : Word :=
  (w &&& ~~~(0xFF#32 <<< (8 * j))) ||| (b.setWidth 32 <<< (8 * j))

/-- The byte at offset `o` of a page. -/
def getByte (page : Nat → Word) (o : Nat) : Byte := wordByte (page (o / 4)) (o % 4)

/-- Overwrite the byte at offset `o` of a page. -/
def setByte (page : Nat → Word) (o : Nat) (b : Byte) : Nat → Word :=
  update page (o / 4) (setWordByte (page (o / 4)) (o % 4) b)

/-- Overwrite consecutive bytes of a page: `memmove` into it. -/
def putBytes (page : Nat → Word) : Nat → List Byte → Nat → Word
  | _, [] => page
  | o, b :: bs => putBytes (setByte page o b) (o + 1) bs

theorem wordByte_setWordByte {i j : Nat} (hi : i < 4) (hj : j < 4) (w : Word) (b : Byte) :
    wordByte (setWordByte w i b) j = if j = i then b else wordByte w j := by
  unfold wordByte setWordByte
  ext n hn
  simp only [BitVec.getElem_extractLsb', BitVec.getLsbD_or, BitVec.getLsbD_and,
    BitVec.getLsbD_not, BitVec.getLsbD_shiftLeft, BitVec.getLsbD_setWidth]
  interval_cases i <;> interval_cases j <;> interval_cases n <;> simp

theorem getByte_setByte (page : Nat → Word) (o o' : Nat) (b : Byte) :
    getByte (setByte page o b) o' = if o' = o then b else getByte page o' := by
  unfold getByte setByte
  by_cases hq : o' / 4 = o / 4
  · rw [hq, Function.update_self,
      wordByte_setWordByte (Nat.mod_lt _ (by omega)) (Nat.mod_lt _ (by omega))]
    by_cases ho : o' = o
    · simp [ho]
    · have : o' % 4 ≠ o % 4 := by omega
      simp [ho, this]
  · have ho : o' ≠ o := by rintro rfl; exact hq rfl
    rw [Function.update_of_ne hq, if_neg ho]

theorem getByte_putBytes (bs : List Byte) : ∀ (page : Nat → Word) (o o' : Nat),
    getByte (putBytes page o bs) o' =
      if o ≤ o' ∧ o' < o + bs.length then bs.getD (o' - o) 0 else getByte page o' := by
  induction bs with
  | nil =>
    intro page o o'
    rw [putBytes, if_neg fun h => by simp at h; omega]
  | cons b bs ih =>
    intro page o o'
    rw [putBytes, ih, getByte_setByte, List.length_cons]
    by_cases ho : o' = o
    · subst ho
      rw [if_neg (by omega), if_pos rfl, if_pos (by omega), Nat.sub_self]
      rfl
    · rw [if_neg ho]
      by_cases hin : o + 1 ≤ o' ∧ o' < o + 1 + bs.length
      · have : o' - o = o' - (o + 1) + 1 := by omega
        rw [if_pos hin, if_pos (by omega), this]
        rfl
      · rw [if_neg hin, if_neg (by omega)]

@[simp] theorem getByte_zero (o : Nat) : getByte (fun _ => 0#32) o = 0#8 := by
  simp [getByte, wordByte]

end Xv6
