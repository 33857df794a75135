import Mathlib.Logic.Function.Basic
import Mathlib.Tactic.Common

/-!
# Xv6.Lib.Table

Tables with places that are used again. A place holds a key and a value, or is free; a new
entry goes to the first free place or, without one, behind the last. As long as no two
entries have the same key, such a table is a map: `put` adds a binding and `clear` removes
the one of its place.
-/

namespace Xv6

open Function (update update_self update_of_ne)

/-- Places with a key and a value, or free. -/
abbrev Table (κ ν : Type) := List (Option (κ × ν))

namespace Table

variable {κ ν : Type} {t : Table κ ν} {k k' : κ} {v v' : ν} {m n : Nat}

/-- The entry in a place. -/
def At (t : Table κ ν) (n : Nat) (k : κ) (v : ν) : Prop := t[n]? = some (some (k, v))

/-- No two entries have the same key. -/
def Keyed (t : Table κ ν) : Prop := ∀ ⦃m n k v w⦄, t.At m k v → t.At n k w → m = n

/-- The first free place, or the one behind the last. -/
def freePlace (t : Table κ ν) : Nat := t.findIdx Option.isNone

/-- A new entry, in the first free place. -/
def put (t : Table κ ν) (k : κ) (v : ν) : Table κ ν :=
  if t.freePlace < t.length then t.set t.freePlace (some (k, v)) else t ++ [some (k, v)]

/-- Free a place. -/
def clear (t : Table κ ν) (n : Nat) : Table κ ν := t.set n none

theorem At.lt (h : t.At n k v) : n < t.length := (List.getElem?_eq_some_iff.mp h).1

theorem At.inj (h : t.At n k v) (h' : t.At n k' v') : k = k' ∧ v = v' := by
  have := h.symm.trans h'
  simpa using this

theorem freePlace_le (t : Table κ ν) : t.freePlace ≤ t.length := List.findIdx_le_length

theorem getElem?_findIdx {α : Type} {p : α → Bool} {l : List α} {a : α}
    (h : l[l.findIdx p]? = some a) : p a = true := by
  obtain ⟨hlt, ha⟩ := List.getElem?_eq_some_iff.mp h
  rw [← ha]
  exact List.findIdx_getElem (w := hlt)

/-- There is nothing in the first free place. -/
theorem not_at_freePlace : ¬ t.At t.freePlace k v :=
  fun h => absurd (getElem?_findIdx h) nofun

theorem at_put :
    (t.put k v).At n k' v' ↔ (n = t.freePlace ∧ k' = k ∧ v' = v) ∨ t.At n k' v' := by
  have hnot := not_at_freePlace (t := t) (k := k') (v := v')
  have hle := t.freePlace_le
  unfold put At at *
  by_cases hlt : t.freePlace < t.length
  · rw [if_pos hlt, List.getElem?_set]
    by_cases hn : t.freePlace = n
    · subst hn
      rw [if_pos rfl, if_pos hlt, or_iff_left hnot]
      simp [eq_comm]
    · rw [if_neg hn]
      simp [Ne.symm hn]
  · rw [if_neg hlt, List.getElem?_append]
    have heq : t.freePlace = t.length := by omega
    rw [heq] at hnot ⊢
    by_cases hn : n < t.length
    · rw [if_pos hn]
      simp [Nat.ne_of_lt hn]
    · rw [if_neg hn, List.getElem?_eq_none (Nat.not_lt.mp hn)]
      by_cases hn' : n = t.length
      · subst hn'
        simp [eq_comm]
      · rw [List.getElem?_eq_none (by simp; omega)]
        simp [hn']

theorem at_clear : (t.clear m).At n k v ↔ n ≠ m ∧ t.At n k v := by
  unfold clear At
  rw [List.getElem?_set]
  by_cases hm : m = n
  · subst hm
    by_cases hlt : m < t.length <;> simp [hlt]
  · simp [hm, Ne.symm hm]

theorem Keyed.clear (h : t.Keyed) : (t.clear n).Keyed :=
  fun _ _ _ _ _ hm hn => h (at_clear.mp hm).2 (at_clear.mp hn).2

/-! ### The map -/

section
variable [DecidableEq κ]

/-- The first place with a key. -/
def place (t : Table κ ν) (k : κ) : Nat := t.findIdx fun e => e.any fun e => decide (e.1 = k)

/-- What the table maps a key to. -/
def lookup (t : Table κ ν) (k : κ) : Option ν := (t[t.place k]?.join).map Prod.snd

theorem at_place_of_lookup (h : t.lookup k = some v) : t.At (t.place k) k v := by
  obtain ⟨⟨k', v'⟩, hjoin, rfl⟩ := Option.map_eq_some_iff.mp h
  have hat : t.At (t.place k) k' v' := Option.join_eq_some_iff.mp hjoin
  have hk : k' = k := by simpa using getElem?_findIdx hat
  rw [hk] at hat
  exact hat

theorem exists_at_place (h : t.At n k v) : ∃ w, t.At (t.place k) k w := by
  obtain ⟨hn, he⟩ := List.getElem?_eq_some_iff.mp h
  have hlt : t.place k < t.length :=
    List.findIdx_lt_length_of_exists ⟨_, List.getElem_mem hn, by simp [he]⟩
  have hkey := getElem?_findIdx (List.getElem?_eq_getElem hlt)
  cases hw : t[t.place k] with
  | none =>
    rw [hw] at hkey
    cases hkey
  | some e =>
    rw [hw] at hkey
    have hk : e.1 = k := of_decide_eq_true hkey
    refine ⟨e.2, (List.getElem?_eq_getElem hlt).trans ?_⟩
    rw [hw, ← hk]

theorem lookup_of_at_place (h : t.At (t.place k) k v) : t.lookup k = some v := by
  unfold At at h
  rw [lookup, h]
  rfl

theorem lookup_eq_none : t.lookup k = none ↔ ∀ n v, ¬ t.At n k v := by
  constructor
  · intro h n v hat
    obtain ⟨w, hw⟩ := exists_at_place hat
    rw [lookup_of_at_place hw] at h
    cases h
  · intro h
    by_contra hne
    obtain ⟨v, hv⟩ := Option.ne_none_iff_exists'.mp hne
    exact h _ _ (at_place_of_lookup hv)

section
variable (h : t.Keyed)
include h

theorem Keyed.place_eq (hat : t.At n k v) : t.place k = n := by
  obtain ⟨w, hw⟩ := exists_at_place hat
  exact h hw hat

theorem Keyed.lookup_eq_some : t.lookup k = some v ↔ ∃ n, t.At n k v :=
  ⟨fun hv => ⟨_, at_place_of_lookup hv⟩,
    fun ⟨_, hat⟩ => lookup_of_at_place ((h.place_eq hat).symm ▸ hat)⟩

theorem Keyed.lookup_ext {f : κ → Option ν} (hf : ∀ k v, f k = some v ↔ ∃ n, t.At n k v) :
    t.lookup = f := by
  funext k
  refine Option.ext fun v => ?_
  rw [h.lookup_eq_some, hf]

theorem Keyed.put (hk : t.lookup k = none) : (t.put k v).Keyed := by
  intro m n k' v' w' hm hn
  rw [lookup_eq_none] at hk
  rcases at_put.mp hm with ⟨hm, hkm, -⟩ | hm <;> rcases at_put.mp hn with ⟨hn, hkn, -⟩ | hn
  · rw [hm, hn]
  · exact absurd hn (hkm ▸ hk _ _)
  · exact absurd hm (hkn ▸ hk _ _)
  · exact h hm hn

theorem Keyed.lookup_put (hk : t.lookup k = none) :
    (t.put k v).lookup = update t.lookup k (some v) := by
  refine (h.put hk).lookup_ext fun k' v' => ?_
  simp only [at_put]
  by_cases hkk : k' = k
  · subst hkk
    rw [update_self]
    constructor
    · intro hv
      exact ⟨_, .inl ⟨rfl, rfl, (Option.some.inj hv).symm⟩⟩
    · rintro ⟨n, ⟨-, -, hv⟩ | hat⟩
      · rw [hv]
      · exact absurd hat (lookup_eq_none.mp hk _ _)
  · rw [update_of_ne hkk, h.lookup_eq_some]
    simp [hkk]

theorem Keyed.lookup_clear (hat : t.At n k v) : (t.clear n).lookup = update t.lookup k none := by
  refine h.clear.lookup_ext fun k' v' => ?_
  simp only [at_clear]
  by_cases hkk : k' = k
  · subst hkk
    rw [update_self]
    constructor
    · nofun
    · rintro ⟨m, hmn, hat'⟩
      exact absurd (h hat' hat) hmn
  · rw [update_of_ne hkk, h.lookup_eq_some]
    -- another key is in another place
    have hne : ∀ m, t.At m k' v' → m ≠ n := fun m hm he => hkk ((he ▸ hm).inj hat).1
    exact exists_congr fun m => ⟨fun hm => ⟨hne m hm, hm⟩, fun hm => hm.2⟩

end

end

end Table

end Xv6
