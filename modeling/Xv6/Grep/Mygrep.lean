import Mathlib.Data.List.Basic
import Mathlib.Data.List.Infix
import Xv6.Grep.Lines

/-!
# Xv6.Grep.Mygrep

`mygrep.c`, which looks for a plain string.

Strings are read byte by byte through `charAt`, and a read behind the terminator has no value:
`contains` is correct only if it never makes one. `main` collects a line in 1024 bytes, and what
does not fit is dropped, the newline included.
-/

namespace Xv6.Grep

/-! ### `contains` -/

/-- Byte `i` of a string, its terminator included. -/
def charAt (s : List Byte) (i : Nat) : Option Byte := (s ++ [0#8])[i]?

theorem charAt_lt {s : List Byte} {i : Nat} {b : Byte} (h : charAt s i = some b) :
    i < s.length + 1 := by
  have := (List.getElem?_eq_some_iff.mp h).1
  simpa using this

/-- The loop over `j`: where it stops. -/
def containsAt (text pattern : List Byte) (i j : Nat) : Option Nat :=
  match _h : charAt pattern j with
  | none => none
  | some p =>
    if p = 0#8 then some j
    else match charAt text (i + j) with
      | none => none
      | some t => if t = p then containsAt text pattern i (j + 1) else some j
termination_by pattern.length + 1 - j
decreasing_by
  have := charAt_lt _h
  omega

/-- The loop over `i`. -/
def containsFrom (text pattern : List Byte) (i : Nat) : Option Bool :=
  match _h : charAt text i with
  | none => none
  | some t =>
    if t = 0#8 then some false
    else match containsAt text pattern i 0 with
      | none => none
      | some j => match charAt pattern j with
        | none => none
        | some p => if p = 0#8 then some true else containsFrom text pattern (i + 1)
termination_by text.length + 1 - i
decreasing_by
  have := charAt_lt _h
  omega

/-- `contains`. -/
def contains (text pattern : List Byte) : Option Bool :=
  match charAt pattern 0 with
  | none => none
  | some p => if p = 0#8 then some true else containsFrom text pattern 0

section
variable {s text pattern : List Byte} {i j : Nat}

theorem charAt_of_drop_nil (h : s.drop i = []) (hi : i ≤ s.length) : charAt s i = some 0#8 := by
  have heq : i = s.length := le_antisymm hi (List.drop_eq_nil_iff.mp h)
  rw [charAt, heq, List.getElem?_append_right le_rfl, Nat.sub_self]
  rfl

section
variable {b : Byte} {s' : List Byte} (h : s.drop i = b :: s')
include h

theorem charAt_of_drop_cons : charAt s i = some b := by
  have hget : s[i]? = some b := by rw [← List.head?_drop, h]; rfl
  rw [charAt, List.getElem?_append_left (List.getElem?_eq_some_iff.mp hget).1, hget]

theorem drop_succ_of_cons : s.drop (i + 1) = s' := by
  rw [← List.tail_drop, h, List.tail_cons]

theorem mem_of_drop_cons : b ∈ s :=
  List.mem_of_mem_drop (h ▸ List.mem_cons_self)

end

/-- The loop over `j` reaches the end of the pattern exactly if the rest of the pattern is the
start of the rest of the text. -/
theorem containsAt_spec (hp : 0#8 ∉ pattern) {p t : List Byte} (hpd : pattern.drop j = p)
    (htd : text.drop (i + j) = t) (hj : j ≤ pattern.length) (hi : i + j ≤ text.length) :
    ∃ j', containsAt text pattern i j = some j' ∧ j' ≤ pattern.length ∧
      (j' = pattern.length ↔ p <+: t) := by
  induction p generalizing j t with
  | nil =>
    have hlen : j = pattern.length := le_antisymm hj (List.drop_eq_nil_iff.mp hpd)
    have hat := charAt_of_drop_nil hpd hj
    refine ⟨j, ?_, hj, iff_of_true hlen List.nil_prefix⟩
    unfold containsAt
    split
    · next heq => rw [hat] at heq; cases heq
    · next heq => rw [hat] at heq; cases heq; exact if_pos rfl
  | cons a p ih =>
    have hat := charAt_of_drop_cons hpd
    have ha : a ≠ 0#8 := fun h => hp (h ▸ mem_of_drop_cons hpd)
    have hlt : j < pattern.length := by
      by_contra hge
      rw [List.drop_eq_nil_of_le (by omega)] at hpd
      cases hpd
    unfold containsAt
    split
    · next heq => rw [hat] at heq; cases heq
    · next heq =>
        rw [hat] at heq
        cases heq
        rw [if_neg ha]
        cases t with
        | nil =>
          -- the terminator of the text is no byte of the pattern
          rw [charAt_of_drop_nil htd hi]
          dsimp only
          rw [if_neg (Ne.symm ha)]
          exact ⟨j, rfl, hj, iff_of_false (by omega) (by simp)⟩
        | cons b t =>
          rw [charAt_of_drop_cons htd]
          dsimp only
          have hroom : i + (j + 1) ≤ text.length := by
            by_contra hge
            rw [List.drop_eq_nil_of_le (by omega)] at htd
            cases htd
          by_cases hab : b = a
          · rw [if_pos hab]
            obtain ⟨j', hrun, hle, hiff⟩ :=
              ih (drop_succ_of_cons hpd) (drop_succ_of_cons htd) hlt hroom
            exact ⟨j', hrun, hle, by rw [hiff, List.cons_prefix_cons, hab]; simp⟩
          · rw [if_neg hab]
            refine ⟨j, rfl, hj, iff_of_false (by omega) fun hpre => ?_⟩
            exact hab (List.cons_prefix_cons.mp hpre).1.symm

theorem containsFrom_spec (hp : 0#8 ∉ pattern) (hne : pattern ≠ []) (ht : 0#8 ∉ text)
    {t : List Byte} (htd : text.drop i = t) (hi : i ≤ text.length) :
    containsFrom text pattern i = some (decide (pattern <:+: t)) := by
  induction t generalizing i with
  | nil =>
    have hat := charAt_of_drop_nil htd hi
    have hnot : ¬ pattern <:+: [] := fun h => hne (List.eq_nil_of_infix_nil h)
    unfold containsFrom
    split
    · next heq => rw [hat] at heq; cases heq
    · next heq => rw [hat] at heq; cases heq; rw [if_pos rfl, decide_eq_false hnot]
  | cons b t ih =>
    have hat := charAt_of_drop_cons htd
    have hb : b ≠ 0#8 := fun h => ht (h ▸ mem_of_drop_cons htd)
    have hlt : i + 1 ≤ text.length := by
      by_contra hge
      rw [List.drop_eq_nil_of_le (by omega)] at htd
      cases htd
    obtain ⟨j, hrun, hle, hiff⟩ :=
      containsAt_spec (i := i) (j := 0) hp rfl htd (Nat.zero_le _) hi
    rw [List.drop_zero] at hiff
    unfold containsFrom
    split
    · next heq => rw [hat] at heq; cases heq
    · next heq =>
        rw [hat] at heq
        cases heq
        rw [if_neg hb, hrun]
        dsimp only
        by_cases hfound : pattern <+: b :: t
        · rw [charAt_of_drop_nil (by rw [hiff.mpr hfound]; simp) hle]
          dsimp only
          rw [if_pos rfl, decide_eq_true (List.infix_cons_iff.mpr (.inl hfound))]
        · have hj : j < pattern.length := by
            have hne : j ≠ pattern.length := fun h => hfound (hiff.mp h)
            omega
          obtain ⟨a, p, hpd⟩ : ∃ a p, pattern.drop j = a :: p :=
            List.exists_cons_of_ne_nil (by simpa using hj)
          have ha : a ≠ 0#8 := fun h => hp (h ▸ mem_of_drop_cons hpd)
          rw [charAt_of_drop_cons hpd]
          dsimp only
          rw [if_neg ha, ih (drop_succ_of_cons htd) hlt]
          simp only [List.infix_cons_iff, hfound, false_or]

/-- `contains` finds the pattern, and makes no read behind a terminator. -/
theorem contains_eq (ht : 0#8 ∉ text) (hp : 0#8 ∉ pattern) :
    contains text pattern = some (decide (pattern <:+: text)) := by
  unfold contains
  cases pattern with
  | nil =>
    rw [show charAt [] 0 = some 0#8 from rfl]
    dsimp only
    rw [if_pos rfl, decide_eq_true List.nil_infix]
  | cons a p =>
    have ha : a ≠ 0#8 := fun h => hp (h ▸ List.mem_cons_self)
    rw [show charAt (a :: p) 0 = some a from rfl]
    dsimp only
    rw [if_neg ha, containsFrom_spec hp (by simp) ht rfl (Nat.zero_le _), List.drop_zero]

end

/-! ### Plain patterns -/

/-- A pattern without operators. -/
def Plain (pattern : List Byte) : Prop :=
  ∀ c ∈ pattern, c ≠ chr '^' ∧ c ≠ chr '.' ∧ c ≠ chr '*' ∧ c ≠ chr '$'

section
variable {text pattern : List Byte}

theorem matchhere_plain (h : Plain pattern) : matchhere pattern text = true ↔ pattern <+: text := by
  induction pattern generalizing text with
  | nil => exact iff_of_true (matchhere_nil text) List.nil_prefix
  | cons c p ih =>
    obtain ⟨-, hdot, -, hdollar⟩ := h c List.mem_cons_self
    have hrest : Plain p := fun x hx => h x (List.mem_cons_of_mem _ hx)
    have hstar : p.head? ≠ some (chr '*') := fun hc =>
      (hrest _ (List.mem_of_head? hc)).2.2.1 rfl
    rw [matchhere_char hstar fun hc => hdollar hc.1]
    constructor
    · rintro ⟨b, text', rfl, hb, hm⟩
      exact List.cons_prefix_cons.mpr ⟨hb.resolve_left hdot, (ih hrest).mp hm⟩
    · rintro ⟨rest, rfl⟩
      exact ⟨c, p ++ rest, rfl, .inr rfl, (ih hrest).mpr (List.prefix_append ..)⟩

theorem matchRe_plain (h : Plain pattern) : matchRe pattern text = true ↔ pattern <:+: text := by
  have hany : matchRe pattern text = matchAnywhere pattern text := by
    cases pattern with
    | nil => rfl
    | cons c p => exact if_neg (h c List.mem_cons_self).1
  rw [hany, matchAnywhere_iff]
  constructor
  · rintro ⟨before, text', rfl, hm⟩
    exact ((matchhere_plain h).mp hm).isInfix.trans (List.suffix_append ..).isInfix
  · rintro ⟨before, rest, rfl⟩
    exact ⟨before, pattern ++ rest, List.append_assoc ..,
      (matchhere_plain h).mpr (List.prefix_append ..)⟩

end

/-- On plain patterns `mygrep` and `grep` look for the same thing. -/
theorem contains_eq_matchRe {text pattern : List Byte} (ht : 0#8 ∉ text) (hp : 0#8 ∉ pattern)
    (hplain : Plain pattern) :
    contains text pattern = some (matchRe pattern text) ∧
      (matchRe pattern text = true ↔ pattern <:+: text) := by
  refine ⟨?_, matchRe_plain hplain⟩
  rw [contains_eq ht hp, Option.some.injEq, Bool.eq_iff_iff, decide_eq_true_iff,
    matchRe_plain hplain]

/-- The pattern `b` and the text `ab`. -/
theorem contains_eq_matchRe_ab :
    (0#8 ∉ [chr 'a', chr 'b'] ∧ 0#8 ∉ [chr 'b'] ∧ Plain [chr 'b']) ∧
    contains [chr 'a', chr 'b'] [chr 'b'] = some (matchRe [chr 'b'] [chr 'a', chr 'b']) ∧
      (matchRe [chr 'b'] [chr 'a', chr 'b'] = true ↔ [chr 'b'] <:+: [chr 'a', chr 'b']) := by
  have hplain : Plain [chr 'b'] := by
    intro c hc
    rw [List.mem_singleton.mp hc]
    decide
  exact ⟨⟨by decide, by decide, hplain⟩, contains_eq_matchRe (by decide) (by decide) hplain⟩

/-! ### `main` -/

/-- `MAXLINE`. -/
def maxLine : Nat := 1024

/-- A string constant. -/
def str (s : String) : List Byte := s.toList.map chr

/-- What a program has written to descriptors 1 and 2. -/
structure Output where
  out : List Byte
  err : List Byte

/-- `if(contains(line, pattern)) write(1, line, len)`. -/
def putLine (pattern line : List Byte) : Option (List Byte) :=
  (contains line pattern).map fun found => if found then line else []

/-- The loop of `main` over the bytes of the file, and what follows it: `line` holds the first
`len` bytes of the buffer. -/
def mygrep (pattern : List Byte) : (line : List Byte) → (file : List Byte) → Option (List Byte)
  | line, [] => if 0 < line.length then putLine pattern line else some []
  | line, c :: file =>
    let line := if line.length < maxLine - 1 then line ++ [c] else line
    if c = newline then do
      let out ← putLine pattern line
      let rest ← mygrep pattern [] file
      return out ++ rest
    else mygrep pattern line file

/-- `main`; `openFile` gives the contents of the file with a name, if there is one. -/
def main (argv : List (List Byte)) (openFile : List Byte → Option (List Byte)) : Option Output :=
  match argv with
  | [_, pattern, name] =>
    match openFile name with
    | none => some ⟨[], str "mygrep: cannot open " ++ name ++ [newline]⟩
    | some file => (mygrep pattern [] file).map fun out => ⟨out, []⟩
  | _ => some ⟨[], str "usage: mygrep pattern file" ++ [newline]⟩

/-- What is printed for a line: it is cut to what the buffer holds. -/
def printed (pattern l : List Byte) : List Byte :=
  if pattern <:+: l.take (maxLine - 1) then l.take (maxLine - 1) else []

section
variable {pattern line file : List Byte}

theorem putLine_eq (hl : 0#8 ∉ line) (hp : 0#8 ∉ pattern) :
    putLine pattern (line.take (maxLine - 1)) = some (printed pattern line) := by
  rw [putLine, contains_eq (fun h => hl (List.mem_of_mem_take h)) hp, Option.map_some, printed]
  simp only [decide_eq_true_eq]

theorem take_concat_eq (l : List Byte) (c : Byte) :
    (if (l.take (maxLine - 1)).length < maxLine - 1 then l.take (maxLine - 1) ++ [c]
      else l.take (maxLine - 1)) = (l ++ [c]).take (maxLine - 1) := by
  rw [List.length_take]
  by_cases h : l.length < maxLine - 1
  · rw [if_pos (by omega), List.take_of_length_le (by omega),
      List.take_of_length_le (by rw [List.length_append, List.length_singleton]; omega)]
  · rw [if_neg (by omega), List.take_append_of_le_length (by omega)]

/-- The loop prints the lines, cut to the buffer. -/
theorem mygrep_eq (hp : 0#8 ∉ pattern) (h0 : 0#8 ∉ line ++ file) (hline : newline ∉ line) :
    mygrep pattern (line.take (maxLine - 1)) file =
      some ((lines (line ++ file)).flatMap (printed pattern)) := by
  induction file generalizing line with
  | nil =>
    rw [List.append_nil] at h0 ⊢
    rw [mygrep]
    by_cases hne : line = []
    · rw [hne]
      rfl
    · have hpos := List.length_pos_iff.mpr hne
      rw [if_pos (by rw [List.length_take, maxLine]; omega), putLine_eq h0 hp,
        lines_of_no_newline hline hne, List.flatMap_singleton]
  | cons c file ih =>
    have happ : line ++ c :: file = (line ++ [c]) ++ file := by simp
    have h0' : 0#8 ∉ line ++ [c] := fun h => h0 (happ ▸ List.mem_append_left _ h)
    have hfile : 0#8 ∉ file := fun h => h0 (happ ▸ List.mem_append_right _ h)
    rw [mygrep, take_concat_eq]
    by_cases hc : c = newline
    · have hrest := @ih [] hfile List.not_mem_nil
      rw [List.take_nil, List.nil_append] at hrest
      rw [if_pos hc, putLine_eq h0' hp, hrest, hc, lines_append_newline hline,
        List.flatMap_cons]
      rfl
    · rw [if_neg hc, happ]
      refine ih (happ ▸ h0) fun h => ?_
      rcases List.mem_append.mp h with h | h
      · exact hline h
      · exact hc (List.mem_singleton.mp h).symm

theorem printed_length_le (pattern l : List Byte) :
    (printed pattern l).length ≤ maxLine - 1 ∧
      (printed pattern l).length ≤ (if pattern <:+: l then l else []).length := by
  unfold printed
  split
  · next h =>
      rw [if_pos (h.trans ( List.take_prefix ..).isInfix), List.length_take]
      omega
  · simp

/-- Equal outputs with no longer parts have parts of equal lengths. -/
theorem length_eq_of_flatMap_eq {f g : List Byte → List Byte} {ls : List (List Byte)}
    (hle : ∀ l, (f l).length ≤ (g l).length) (h : ls.flatMap f = ls.flatMap g) :
    ∀ l ∈ ls, (f l).length = (g l).length := by
  have hsum : ∀ ls : List (List Byte), (ls.flatMap f).length ≤ (ls.flatMap g).length := by
    intro ls
    induction ls with
    | nil => exact le_rfl
    | cons l ls ih =>
      rw [List.flatMap_cons, List.flatMap_cons, List.length_append, List.length_append]
      exact Nat.add_le_add (hle l) ih
  have hlen := congrArg List.length h
  clear h
  induction ls with
  | nil => exact fun l hl => absurd hl List.not_mem_nil
  | cons l ls ih =>
    rw [List.flatMap_cons, List.flatMap_cons, List.length_append, List.length_append] at hlen
    have hhead := hle l
    have htail := hsum ls
    intro l' hl'
    rcases List.mem_cons.mp hl' with rfl | hl'
    · omega
    · exact ih (by omega) l' hl'

end

theorem flatten_filter (q : List Byte → Bool) (ls : List (List Byte)) :
    (ls.filter q).flatten = ls.flatMap fun l => if q l then l else [] := by
  induction ls with
  | nil => rfl
  | cons l ls ih =>
    rw [List.filter_cons, List.flatMap_cons, ← ih]
    split <;> rfl

theorem main_out {prog pattern name file : List Byte} {openFile : List Byte → Option (List Byte)}
    (hopen : openFile name = some file) (h0 : 0#8 ∉ file) (hp : 0#8 ∉ pattern) :
    (main [prog, pattern, name] openFile).map Output.out =
      some ((lines file).flatMap (printed pattern)) := by
  have hrun := @mygrep_eq pattern [] file hp h0 List.not_mem_nil
  rw [List.take_nil, List.nil_append] at hrun
  rw [main, hopen]
  dsimp only
  rw [hrun]
  rfl

/-- `mygrep` prints the lines that contain the pattern exactly if all of these fit in its
buffer. -/
theorem mygrep_prints_iff {prog pattern name file : List Byte}
    {openFile : List Byte → Option (List Byte)} (hopen : openFile name = some file)
    (h0 : 0#8 ∉ file) (hp : 0#8 ∉ pattern) :
    (main [prog, pattern, name] openFile).map Output.out =
        some ((lines file).filter fun l => pattern <:+: l).flatten ↔
      ∀ l ∈ lines file, pattern <:+: l → l.length ≤ maxLine - 1 := by
  rw [main_out hopen h0 hp, Option.some.injEq, flatten_filter]
  simp only [decide_eq_true_eq]
  constructor
  · intro h l hl hin
    have heq := length_eq_of_flatMap_eq (fun l => (printed_length_le pattern l).2) h l hl
    have hmax := (printed_length_le pattern l).1
    rw [if_pos hin] at heq
    omega
  · intro h
    refine List.flatMap_congr fun l hl => ?_
    unfold printed
    by_cases hin : pattern <:+: l
    · rw [List.take_of_length_le (h l hl hin)]
    · rw [if_neg hin, if_neg fun hc => hin (hc.trans ( List.take_prefix ..).isInfix)]

/-- A file with a single short line. -/
theorem mygrep_prints_iff_line : let file := [chr 'a', newline]
    ((fun _ => some file) ([] : List Byte) = some file ∧ 0#8 ∉ file ∧ 0#8 ∉ [chr 'a']) ∧
    ((main [[], [chr 'a'], []] fun _ => some file).map Output.out =
        some ((lines file).filter fun l => [chr 'a'] <:+: l).flatten ↔
      ∀ l ∈ lines file, [chr 'a'] <:+: l → l.length ≤ maxLine - 1) :=
  ⟨by decide, mygrep_prints_iff rfl (by decide) (by decide)⟩

/-- A line of 1023 bytes and a newline is printed without the newline. -/
theorem mygrep_drops_newline : ∃ (pattern file : List Byte), 0#8 ∉ pattern ∧ 0#8 ∉ file ∧
    (main [[], pattern, []] fun _ => some file).map Output.out ≠
      some ((lines file).filter fun l => pattern <:+: l).flatten := by
  have ha : newline ∉ List.replicate 1023 (chr 'a') := fun h =>
    absurd (List.eq_of_mem_replicate h) (by decide)
  have h0 : 0#8 ∉ List.replicate 1023 (chr 'a') ++ [newline] := by
    intro h
    rcases List.mem_append.mp h with h | h
    · exact absurd (List.eq_of_mem_replicate h) (by decide)
    · exact absurd (List.mem_singleton.mp h) (by decide)
  have hline : lines (List.replicate 1023 (chr 'a') ++ [newline]) =
      [List.replicate 1023 (chr 'a') ++ [newline]] := lines_append_newline ha []
  have hin : [chr 'a'] <:+: List.replicate 1023 (chr 'a') ++ [newline] :=
    List.IsPrefix.isInfix ⟨List.replicate 1022 (chr 'a') ++ [newline], rfl⟩
  have hlen : (List.replicate 1023 (chr 'a') ++ [newline]).length = 1024 := by
    rw [List.length_append, List.length_replicate, List.length_singleton]
  generalize List.replicate 1023 (chr 'a') ++ [newline] = l at h0 hline hin hlen
  refine ⟨[chr 'a'], l, by decide, h0, fun h => ?_⟩
  rw [@main_out [] [chr 'a'] [] _ (fun _ => some l) rfl h0 (by decide), hline, Option.some.injEq,
    List.flatMap_singleton] at h
  have hmax := (printed_length_le [chr 'a'] l).1
  rw [h] at hmax
  simp [hin, hlen, maxLine] at hmax

end Xv6.Grep
