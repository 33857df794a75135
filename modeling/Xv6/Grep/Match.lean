import Xv6.Bytes

/-!
# Xv6.Grep.Match

The regular expressions of `grep.c`.

A string is the list of its bytes without the terminator, so `*text == '\0'` is `text = []`. The
matcher reads a pattern from the left and looks one character ahead for `*` before it looks at
anything else. `items` says what a pattern is made of, and `Matches` what its items mean;
`matchRe_iff` is the agreement.
-/

namespace Xv6.Grep

/-- A character as a byte. -/
def chr (c : Char) : Byte := BitVec.ofNat 8 c.toNat

/-! ### The matcher -/

mutual

/-- `matchhere`: search for `re` at the beginning of `text`. -/
def matchhere (re text : List Byte) : Bool :=
  match re with
  | [] => true
  | c :: re =>
    if re.head? = some (chr '*') then matchstar c re.tail text
    else if c = chr '$' ∧ re = [] then text.isEmpty
    else match text with
      | [] => false
      | t :: text => if c = chr '.' ∨ c = t then matchhere re text else false
termination_by (re.length, text.length, 0)

/-- `matchstar`: search for `c*re` at the beginning of `text`. -/
def matchstar (c : Byte) (re text : List Byte) : Bool :=
  if matchhere re text then true
  else match text with
    | [] => false
    | t :: text => if t = c ∨ c = chr '.' then matchstar c re text else false
termination_by (re.length, text.length, 1)

end

@[simp] theorem matchhere_nil (text : List Byte) : matchhere [] text = true := by
  rw [matchhere.eq_def]

theorem matchhere_cons (c : Byte) (re text : List Byte) :
    matchhere (c :: re) text =
      if re.head? = some (chr '*') then matchstar c re.tail text
      else if c = chr '$' ∧ re = [] then text.isEmpty
      else match text with
        | [] => false
        | t :: text => if c = chr '.' ∨ c = t then matchhere re text else false := by
  rw [matchhere.eq_def]

/-- The loop of `match` over the rest of the text, the empty rest included. -/
def matchAnywhere (re : List Byte) : (text : List Byte) → Bool
  | [] => matchhere re []
  | t :: text => if matchhere re (t :: text) then true else matchAnywhere re text

/-- `match`. -/
def matchRe (re text : List Byte) : Bool :=
  match re with
  | [] => matchAnywhere [] text
  | c :: re => if c = chr '^' then matchhere re text else matchAnywhere (c :: re) text

/-! ### What patterns mean -/

/-- An item of a pattern. -/
inductive Item
  /-- `c*`. -/
  | star (c : Byte)
  /-- A final `$`. -/
  | eot
  /-- Any other character. -/
  | char (c : Byte)

/-- The items of a pattern. -/
def items : List Byte → List Item
  | [] => []
  | [c] => [if c = chr '$' then .eot else .char c]
  | c :: d :: re => if d = chr '*' then .star c :: items re else .char c :: items (d :: re)

/-- Character `c` of a pattern stands for `b`. -/
def Admits (c b : Byte) : Prop := c = chr '.' ∨ c = b

/-- The items match `w`, and `rest` is what follows in the text. -/
inductive Matches : List Item → (w rest : List Byte) → Prop
  | nil {rest : List Byte} : Matches [] [] rest
  | star {c : Byte} {is : List Item} {w w' rest : List Byte} (hw : ∀ b ∈ w, Admits c b)
      (hrest : Matches is w' rest) : Matches (.star c :: is) (w ++ w') rest
  | eot : Matches [.eot] [] []
  | char {c b : Byte} {is : List Item} {w rest : List Byte} (hb : Admits c b)
      (hrest : Matches is w rest) : Matches (.char c :: is) (b :: w) rest

/-- The items match the beginning of a text. -/
def Here (is : List Item) (text : List Byte) : Prop :=
  ∃ w rest, text = w ++ rest ∧ Matches is w rest

section
variable {c : Byte} {is : List Item} {re text : List Byte}

theorem here_nil : Here [] text := ⟨[], text, rfl, .nil⟩

theorem here_star :
    Here (.star c :: is) text ↔ ∃ w text', text = w ++ text' ∧ (∀ b ∈ w, Admits c b) ∧
      Here is text' := by
  constructor
  · rintro ⟨_, rest, rfl, hm⟩
    cases hm with
    | @star _ _ w w' _ hw hrest =>
      exact ⟨w, w' ++ rest, List.append_assoc .., hw, w', rest, rfl, hrest⟩
  · rintro ⟨w, _, rfl, hw, w', rest, rfl, hm⟩
    exact ⟨w ++ w', rest, (List.append_assoc ..).symm, .star hw hm⟩

theorem here_eot : Here [.eot] text ↔ text = [] := by
  constructor
  · rintro ⟨_, _, rfl, hm⟩
    cases hm
    rfl
  · rintro rfl
    exact ⟨[], [], rfl, .eot⟩

theorem here_char :
    Here (.char c :: is) text ↔ ∃ b text', text = b :: text' ∧ Admits c b ∧ Here is text' := by
  constructor
  · rintro ⟨_, rest, rfl, hm⟩
    cases hm with
    | @char _ b _ w _ hb hrest => exact ⟨b, w ++ rest, rfl, hb, w, rest, rfl, hrest⟩
  · rintro ⟨b, _, rfl, hb, w, rest, rfl, hm⟩
    exact ⟨b :: w, rest, rfl, .char hb hm⟩

/-! ### Agreement -/

/-- `matchstar` skips characters that `c` stands for, as long as it takes. -/
theorem matchstar_iff :
    matchstar c re text = true ↔
      ∃ w text', text = w ++ text' ∧ (∀ b ∈ w, Admits c b) ∧ matchhere re text' = true := by
  induction text with
  | nil =>
    unfold matchstar
    constructor
    · intro h
      exact ⟨[], [], rfl, by simp, by simpa using h⟩
    · rintro ⟨w, text', heq, -, hm⟩
      obtain ⟨-, rfl⟩ := List.append_eq_nil_iff.mp heq.symm
      rw [if_pos hm]
  | cons t text ih =>
    unfold matchstar
    by_cases hm : matchhere re (t :: text) = true
    · rw [if_pos hm]
      exact iff_of_true rfl ⟨[], _, rfl, by simp, hm⟩
    · rw [if_neg hm]
      constructor
      · intro h
        dsimp only at h
        split at h
        · next ht =>
            obtain ⟨w, text', rfl, hw, hm'⟩ := ih.mp h
            refine ⟨t :: w, text', rfl, fun b hb => ?_, hm'⟩
            rcases List.mem_cons.mp hb with rfl | hb
            · exact ht.symm.imp id Eq.symm
            · exact hw b hb
        · cases h
      · rintro ⟨w, text', heq, hw, hm'⟩
        cases w with
        | nil =>
          rw [List.nil_append] at heq
          exact absurd (heq ▸ hm') hm
        | cons b w =>
          rw [List.cons_append, List.cons.injEq] at heq
          obtain ⟨rfl, rfl⟩ := heq
          have ht : t = c ∨ c = chr '.' := (hw t List.mem_cons_self).symm.imp Eq.symm id
          dsimp only
          rw [if_pos ht]
          exact ih.mpr ⟨w, text', rfl, fun b hb => hw b (List.mem_cons_of_mem _ hb), hm'⟩

theorem matchhere_char (hstar : re.head? ≠ some (chr '*')) (hend : ¬ (c = chr '$' ∧ re = [])) :
    matchhere (c :: re) text = true ↔
      ∃ b text', text = b :: text' ∧ Admits c b ∧ matchhere re text' = true := by
  rw [matchhere_cons, if_neg hstar, if_neg hend]
  cases text with
  | nil => simp
  | cons t text =>
    constructor
    · intro h
      dsimp only at h
      split at h
      · next hb => exact ⟨t, text, rfl, hb, h⟩
      · cases h
    · rintro ⟨b, text', heq, hb, hm⟩
      obtain ⟨rfl, rfl⟩ := List.cons.inj heq
      dsimp only
      rw [if_pos (show c = chr '.' ∨ c = t from hb), hm]

theorem matchhere_iff : matchhere re text = true ↔ Here (items re) text := by
  induction re using items.induct generalizing text with
  | case1 => exact iff_of_true (matchhere_nil text) here_nil
  | case2 c =>
    by_cases hc : c = chr '$'
    · rw [items, if_pos hc, here_eot, matchhere_cons, if_neg (by simp), if_pos ⟨hc, rfl⟩,
        List.isEmpty_iff]
    · rw [items, if_neg hc, here_char, matchhere_char (by simp) (fun h => hc h.1)]
      simp only [matchhere_nil, here_nil]
  | case3 c re ih =>
    rw [items, if_pos rfl, here_star, matchhere_cons, if_pos (by simp), List.tail_cons,
      matchstar_iff]
    simp only [ih]
  | case4 c d re hd ih =>
    rw [items, if_neg hd, here_char, matchhere_char (by simpa using hd) (by simp)]
    simp only [ih]

theorem matchAnywhere_iff :
    matchAnywhere re text = true ↔ ∃ before text', text = before ++ text' ∧
      matchhere re text' = true := by
  induction text with
  | nil =>
    constructor
    · intro h
      exact ⟨[], [], rfl, h⟩
    · rintro ⟨w, text', heq, hm⟩
      obtain ⟨-, rfl⟩ := List.append_eq_nil_iff.mp heq.symm
      exact hm
  | cons t text ih =>
    rw [matchAnywhere]
    split
    · next hm => exact iff_of_true rfl ⟨[], _, rfl, hm⟩
    · next hm =>
        rw [ih]
        constructor
        · rintro ⟨before, text', rfl, hm'⟩
          exact ⟨t :: before, text', rfl, hm'⟩
        · rintro ⟨before, text', heq, hm'⟩
          cases before with
          | nil => exact absurd (heq ▸ hm') hm
          | cons b before => exact ⟨before, text', (List.cons.inj heq).2, hm'⟩

end

/-- The matcher finds what the pattern means: somewhere in the text, or at its beginning if the
pattern starts with `^`. -/
theorem matchRe_iff (re text : List Byte) :
    matchRe re text = true ↔
      if re.head? = some (chr '^') then
        ∃ w rest, text = w ++ rest ∧ Matches (items re.tail) w rest
      else ∃ before w rest, text = before ++ w ++ rest ∧ Matches (items re) w rest := by
  have hany : ∀ re, matchAnywhere re text = true ↔
      ∃ before w rest, text = before ++ w ++ rest ∧ Matches (items re) w rest := by
    intro re
    rw [matchAnywhere_iff]
    constructor
    · rintro ⟨before, text', rfl, hm⟩
      obtain ⟨w, rest, rfl, hmatch⟩ := matchhere_iff.mp hm
      exact ⟨before, w, rest, (List.append_assoc ..).symm, hmatch⟩
    · rintro ⟨before, w, rest, rfl, hm⟩
      exact ⟨before, w ++ rest, List.append_assoc .., matchhere_iff.mpr ⟨w, rest, rfl, hm⟩⟩
  cases re with
  | nil => exact hany []
  | cons c re =>
    rw [matchRe]
    by_cases hc : c = chr '^'
    · rw [if_pos hc, if_pos (by simpa using hc)]
      exact matchhere_iff
    · rw [if_neg hc, if_neg (by simpa using hc)]
      exact hany (c :: re)

end Xv6.Grep
