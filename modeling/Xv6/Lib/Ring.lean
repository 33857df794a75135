import Mathlib.Data.List.Infix
import Mathlib.Data.Nat.ModEq
import Mathlib.Tactic.Common

/-!
# Xv6.Lib.Ring

A bounded queue in a ring of `cap` places, with counters of `w` bits for what was put and
what was taken. The counters only grow, and wrap; as long as `cap` divides `2 ^ w` and is
less, the places that they point to and the tests for an empty and a full ring are those
of counters that never wrap.

`Holds r put got` is the abstract view: `put` is everything that was put so far and `got`
what was taken, which is the first part of it; the rest is in the ring.
-/

namespace Xv6

open Function (update)

/-- The places, and the counters. -/
structure Ring (α : Type) (w : Nat) where
  data : Nat → α
  nread : BitVec w
  nwrite : BitVec w

namespace Ring

variable {α : Type} {w : Nat} {r : Ring α w} {cap : Nat} {put got : List α} {a : α}

def Full (r : Ring α w) (cap : Nat) : Prop := r.nwrite = r.nread + BitVec.ofNat w cap

instance (r : Ring α w) (cap : Nat) : Decidable (r.Full cap) := inferInstanceAs (Decidable (_ = _))

def Empty (r : Ring α w) : Prop := r.nread = r.nwrite

instance (r : Ring α w) : Decidable r.Empty := inferInstanceAs (Decidable (_ = _))

/-- `data[nwrite++ % cap] = a`. -/
def store (r : Ring α w) (cap : Nat) (a : α) : Ring α w :=
  { r with data := update r.data (r.nwrite.toNat % cap) a, nwrite := r.nwrite + 1#w }

/-- `data[nread % cap]`. -/
def front (r : Ring α w) (cap : Nat) : α := r.data (r.nread.toNat % cap)

/-- `nread++`. -/
def next (r : Ring α w) : Ring α w := { r with nread := r.nread + 1#w }

/-- `data[(nwrite - 1) % cap]`. -/
def back (r : Ring α w) (cap : Nat) : α := r.data ((r.nwrite - 1#w).toNat % cap)

/-- `nwrite--`. -/
def unput (r : Ring α w) : Ring α w := { r with nwrite := r.nwrite - 1#w }

/-- The counters count, modulo `2 ^ w`, and what was put and not yet taken is in its
place. -/
structure Holds (r : Ring α w) (cap : Nat) (put got : List α) : Prop where
  nread : r.nread = BitVec.ofNat w got.length
  nwrite : r.nwrite = BitVec.ofNat w put.length
  taken : got <+: put
  bound : put.length ≤ got.length + cap
  data : ∀ {k a}, got.length ≤ k → put[k]? = some a → r.data (k % cap) = a

theorem Holds.le (h : r.Holds cap put got) : got.length ≤ put.length := h.taken.length_le

section
variable (hcap : cap ∣ 2 ^ w) (hlt : cap < 2 ^ w)

include hlt in
/-- The counters differ by the number of elements in the ring. -/
theorem Holds.sub_toNat (h : r.Holds cap put got) :
    (r.nwrite - r.nread).toNat = put.length - got.length := by
  have hle := h.le
  have hbound := h.bound
  obtain ⟨k, hk⟩ := Nat.exists_eq_add_of_le hle
  have hsum : r.nwrite = r.nread + BitVec.ofNat w k := by
    rw [h.nwrite, h.nread, hk, BitVec.ofNat_add]
  rw [hsum, BitVec.add_comm, BitVec.add_sub_cancel, BitVec.toNat_ofNat, Nat.mod_eq_of_lt (by omega)]
  omega

include hlt in
theorem Holds.full_iff (h : r.Holds cap put got) :
    r.Full cap ↔ put.length = got.length + cap := by
  have hsub := h.sub_toNat hlt
  have hle := h.le
  constructor
  · intro hfull
    rw [hfull, BitVec.add_comm, BitVec.add_sub_cancel, BitVec.toNat_ofNat, Nat.mod_eq_of_lt hlt]
      at hsub
    omega
  · intro hlen
    rw [Full, h.nwrite, h.nread, hlen, BitVec.ofNat_add]

include hlt in
theorem Holds.empty_iff (h : r.Holds cap put got) : r.Empty ↔ put.length = got.length := by
  have hsub := h.sub_toNat hlt
  have hle := h.le
  constructor
  · intro hempty
    rw [hempty, BitVec.sub_self, BitVec.toNat_zero] at hsub
    omega
  · intro hlen
    rw [Empty, h.nwrite, h.nread, hlen]

include hcap in
theorem index_eq (n : Nat) : (BitVec.ofNat w n).toNat % cap = n % cap := by
  rw [BitVec.toNat_ofNat, Nat.mod_mod_of_dvd _ hcap]

/-- Two elements of the ring are in different places. -/
theorem index_inj {m n : Nat} (hmn : m ≤ n) (hn : n < m + cap) (h : m % cap = n % cap) : m = n := by
  obtain ⟨k, rfl⟩ := Nat.exists_eq_add_of_le hmn
  have hmod : m ≡ m + k [MOD cap] := h
  have hk : cap ∣ k := by
    have := (Nat.modEq_iff_dvd' (Nat.le_add_right m k)).mp hmod
    simpa using this
  have : k = 0 := Nat.eq_zero_of_dvd_of_lt hk (by omega)
  omega

include hcap hlt in
theorem Holds.store (h : r.Holds cap put got) (hfull : ¬ r.Full cap) :
    (r.store cap a).Holds cap (put ++ [a]) got := by
  have hlen : put.length ≠ got.length + cap := fun he => hfull ((h.full_iff hlt).mpr he)
  have hbound := h.bound
  refine ⟨h.nread, ?_, h.taken.trans (List.prefix_append ..), ?_, fun {k b} hk hb => ?_⟩
  · show r.nwrite + 1#w = _
    rw [h.nwrite, List.length_append, BitVec.ofNat_add]
    rfl
  · rw [List.length_append]
    simp
    omega
  · show update r.data (r.nwrite.toNat % cap) a (k % cap) = b
    rw [h.nwrite, index_eq hcap]
    by_cases hput : k < put.length
    · rw [List.getElem?_append_left hput] at hb
      rw [Function.update_of_ne, h.data hk hb]
      intro he
      exact absurd (index_inj hput.le (by omega) he) (Nat.ne_of_lt hput)
    · have hklen : k < (put ++ [a]).length := (List.getElem?_eq_some_iff.mp hb).1
      rw [List.length_append, List.length_singleton] at hklen
      obtain rfl : k = put.length := by omega
      rw [Function.update_self]
      simpa using hb

include hcap hlt in
theorem Holds.take (h : r.Holds cap put got) (hempty : ¬ r.Empty) :
    r.next.Holds cap put (got ++ [r.front cap]) := by
  have hne : put.length ≠ got.length := fun he => hempty ((h.empty_iff hlt).mpr he)
  have hle := h.le
  have hget : put[got.length]? = some (r.front cap) := by
    rw [List.getElem?_eq_getElem (by omega)]
    refine congrArg some ?_
    rw [Ring.front, h.nread, index_eq hcap]
    exact (h.data (Nat.le_refl _) (List.getElem?_eq_getElem (by omega))).symm
  refine ⟨?_, h.nwrite, ?_, ?_, fun {k b} hk hb => ?_⟩
  · show r.nread + 1#w = _
    rw [h.nread, List.length_append, BitVec.ofNat_add]
    rfl
  · -- the first element behind those taken
    have hput := h.taken
    rw [List.prefix_iff_eq_take] at hput ⊢
    rw [List.length_append, List.length_singleton, List.take_add_one, ← hput, hget]
    rfl
  · have := h.bound
    rw [List.length_append, List.length_singleton]
    omega
  · rw [List.length_append, List.length_singleton] at hk
    exact h.data (by omega) hb

theorem Holds.nwrite_sub_one (h : r.Holds cap (put ++ [a]) got) :
    r.nwrite - 1#w = BitVec.ofNat w put.length := by
  rw [h.nwrite, List.length_append, List.length_singleton, BitVec.ofNat_add]
  exact BitVec.add_sub_cancel _ _

include hcap in
theorem Holds.back_eq (h : r.Holds cap (put ++ [a]) got) (hle : got.length ≤ put.length) :
    r.back cap = a := by
  rw [back, h.nwrite_sub_one, index_eq hcap]
  exact h.data hle (by simp)

theorem Holds.unput (h : r.Holds cap (put ++ [a]) got) (hle : got.length ≤ put.length) :
    r.unput.Holds cap put got := by
  have hbound := h.bound
  rw [List.length_append, List.length_singleton] at hbound
  refine ⟨h.nread, h.nwrite_sub_one, ?_, by omega, fun {k b} hk hb => h.data hk ?_⟩
  · exact List.prefix_of_prefix_length_le h.taken (List.prefix_append ..) hle
  · have hlt := (List.getElem?_eq_some_iff.mp hb).1
    rw [List.getElem?_append_left hlt, hb]

end

end Ring

end Xv6
