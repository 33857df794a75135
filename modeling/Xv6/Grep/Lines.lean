import Xv6.Grep.Match

/-!
# Xv6.Grep.Lines

The main loop of `grep.c`, which reads its input in pieces.

What is left of the buffer after its last newline is moved to the front, and the next read goes
behind it. When a read brings no newline at all, though, `p` still points to the start of the
buffer, and `m = 0` throws the bytes away. Files are read in large pieces, but a pipe hands out
whatever its writer has written so far.
-/

namespace Xv6.Grep

/-! ### Lines -/

/-- The lines of a text, each with its newline; what follows the last newline is a line too. -/
def lines : List Byte → List (List Byte)
  | [] => []
  | c :: text =>
    if c = newline then [c] :: lines text
    else match lines text with
      | [] => [[c]]
      | l :: ls => (c :: l) :: ls

section
variable {l text : List Byte}

theorem lines_append_newline (h : newline ∉ l) (text : List Byte) :
    lines (l ++ newline :: text) = (l ++ [newline]) :: lines text := by
  induction l with
  | nil => exact if_pos rfl
  | cons c l ih =>
    rw [List.mem_cons, not_or] at h
    rw [List.cons_append, lines, if_neg (Ne.symm h.1), ih h.2]
    rfl

theorem lines_of_no_newline (h : newline ∉ l) (hne : l ≠ []) : lines l = [l] := by
  induction l with
  | nil => exact absurd rfl hne
  | cons c l ih =>
    rw [List.mem_cons, not_or] at h
    rw [lines, if_neg (Ne.symm h.1)]
    by_cases hl : l = []
    · rw [hl]
      rfl
    · rw [ih h.2 hl]

@[simp] theorem lines_flatten (text : List Byte) : (lines text).flatten = text := by
  induction text with
  | nil => rfl
  | cons c text ih =>
    rw [lines]
    split
    · rw [List.flatten_cons, ih]
      rfl
    · cases hls : lines text with
      | nil =>
        rw [hls] at ih
        rw [← ih]
        rfl
      | cons l ls =>
        rw [hls, List.flatten_cons] at ih
        rw [List.flatten_cons, List.cons_append, ih]

/-- A text has no newline, or starts with a line. -/
theorem no_newline_or_line (text : List Byte) :
    newline ∉ text ∨ ∃ l rest, newline ∉ l ∧ text = l ++ newline :: rest := by
  by_cases h : newline ∈ text
  · obtain ⟨l, rest, heq, hl⟩ := List.eq_append_cons_of_mem h
    exact .inr ⟨l, rest, hl, heq⟩
  · exact .inl h

end

/-- The lines that match, without their newline, in order. -/
def selected (re : List Byte) (ls : List (List Byte)) : List Byte :=
  (ls.filter fun l => matchRe re l.dropLast).flatten

/-! ### The program -/

/-- `strchr(p, '\n')`: the bytes before the newline and those after it. -/
def strchr : List Byte → Option (List Byte × List Byte)
  | [] => none
  | b :: s =>
    if b = 0#8 then none
    else if b = newline then some ([], s)
    else (strchr s).map fun x => (b :: x.1, x.2)

theorem strchr_length {s : List Byte} {x : List Byte × List Byte} (h : strchr s = some x) :
    x.1.length + x.2.length + 1 = s.length := by
  induction s generalizing x with
  | nil => cases h
  | cons b s ih =>
    rw [strchr] at h
    split at h
    · cases h
    · split at h
      · cases h
        simp
      · obtain ⟨y, hy, rfl⟩ := Option.map_eq_some_iff.mp h
        have := ih hy
        simp only [List.length_cons]
        omega

/-- The inner loop, from `p` on: what is written, and where `p` ends. -/
def grepLines (re p : List Byte) : List Byte × List Byte :=
  match _h : strchr p with
  | none => ([], p)
  | some (text, p') =>
    let r := grepLines re p'
    ((if matchRe re text then text ++ [newline] else []) ++ r.1, r.2)
termination_by p.length
decreasing_by
  have := strchr_length _h
  dsimp only at this
  omega

/-- The buffer for the next round. -/
def grepKeep (re buf : List Byte) : List Byte :=
  let p := (grepLines re buf).2
  if p.length = buf.length then [] else p

/-- `grep`: `buf` holds the first `m` bytes of the buffer, and `reads` is what the calls of `read`
return until the end of the file. -/
def grep (re : List Byte) : (buf : List Byte) → (reads : List (List Byte)) → List Byte
  | _, [] => []
  | buf, c :: reads =>
    (grepLines re (buf ++ c)).1 ++ grep re (grepKeep re (buf ++ c)) reads

/-- `sizeof(buf)`. -/
def bufSize : Nat := 1024

/-- Reads that are possible: at least one byte, and no more than fits behind `buf` with a
terminator in the buffer. -/
def Delivered (re : List Byte) : (buf : List Byte) → (reads : List (List Byte)) → Prop
  | _, [] => True
  | buf, c :: reads =>
    c ≠ [] ∧ c.length ≤ bufSize - buf.length - 1 ∧ Delivered re (grepKeep re (buf ++ c)) reads

theorem Delivered.ne_nil {re buf : List Byte} {reads : List (List Byte)}
    (h : Delivered re buf reads) : ∀ c ∈ reads, c ≠ [] := by
  induction reads generalizing buf with
  | nil => exact fun c hc => absurd hc List.not_mem_nil
  | cons c reads ih =>
    intro c' hc'
    rcases List.mem_cons.mp hc' with rfl | hc'
    · exact h.1
    · exact ih h.2.2 c' hc'

/-! ### What one round does -/

section
variable {re buf text : List Byte}

theorem strchr_of_no_newline (h : newline ∉ text) : strchr text = none := by
  induction text with
  | nil => rfl
  | cons b s ih =>
    rw [List.mem_cons, not_or] at h
    rw [strchr, if_neg (Ne.symm h.1), ih h.2]
    simp

theorem strchr_of_line {l : List Byte} (h0 : 0#8 ∉ l) (h : newline ∉ l) (rest : List Byte) :
    strchr (l ++ newline :: rest) = some (l, rest) := by
  induction l with
  | nil => rfl
  | cons b l ih =>
    rw [List.mem_cons, not_or] at h0 h
    rw [List.cons_append, strchr, if_neg (Ne.symm h0.1), if_neg (Ne.symm h.1), ih h0.2 h.2]
    rfl

theorem grepLines_of_no_newline (h : newline ∉ text) : grepLines re text = ([], text) := by
  have hnone := strchr_of_no_newline h
  unfold grepLines
  split
  · rfl
  · next heq => rw [hnone] at heq; cases heq

theorem grepLines_of_line {l : List Byte} (h0 : 0#8 ∉ l) (h : newline ∉ l) (rest : List Byte) :
    grepLines re (l ++ newline :: rest) =
      ((if matchRe re l then l ++ [newline] else []) ++ (grepLines re rest).1,
        (grepLines re rest).2) := by
  have hsome := strchr_of_line h0 h rest
  rw [grepLines]
  split
  · next heq => rw [hsome] at heq; cases heq
  · next text p' heq =>
      rw [hsome] at heq
      cases heq
      rfl

/-- Nothing is written twice. -/
theorem grepLines_length (re p : List Byte) :
    (grepLines re p).1.length + (grepLines re p).2.length ≤ p.length := by
  induction hn : p.length using Nat.strong_induction_on generalizing p with
  | _ n ih =>
    unfold grepLines
    split
    · simp [hn]
    · next text p' heq =>
        have hlen := strchr_length heq
        dsimp only at hlen ⊢
        have hrest := ih p'.length (by omega) p' rfl
        rw [List.length_append]
        split
        · rw [List.length_append, List.length_singleton]
          omega
        · rw [List.length_nil]
          omega

/-- The inner loop writes the matching lines up to the last newline. -/
theorem grepLines_spec (more : List Byte) (h0 : 0#8 ∉ text) :
    newline ∉ (grepLines re text).2 ∧
    ((grepLines re text).2.length = text.length ↔ newline ∉ text) ∧
    0#8 ∉ (grepLines re text).2 ∧
    ∃ done, lines (text ++ more) = done ++ lines ((grepLines re text).2 ++ more) ∧
      (grepLines re text).1 = selected re done := by
  induction hn : text.length using Nat.strong_induction_on generalizing text with
  | _ n ih =>
    rcases no_newline_or_line text with hno | ⟨l, rest, hl, rfl⟩
    · rw [grepLines_of_no_newline hno]
      exact ⟨hno, iff_of_true hn hno, h0, [], rfl, rfl⟩
    · rw [List.mem_append, not_or, List.mem_cons, not_or] at h0
      obtain ⟨hl0, -, hrest0⟩ := h0
      have hlt : rest.length < n := by
        rw [← hn, List.length_append, List.length_cons]
        omega
      obtain ⟨hnl, hlen, hz, done, hlines, hout⟩ := ih rest.length hlt hrest0 rfl
      rw [grepLines_of_line hl0 hl]
      refine ⟨hnl, ?_, hz, (l ++ [newline]) :: done, ?_, ?_⟩
      · have hle := grepLines_length re rest
        refine iff_of_false (fun hc => ?_) (by simp)
        rw [List.length_append, List.length_cons] at hn
        dsimp only at hc
        omega
      · rw [List.append_assoc, List.cons_append, lines_append_newline hl, hlines]
        rfl
      · rw [hout, selected, selected, List.filter_cons, List.dropLast_concat]
        split <;> rfl

theorem selected_append (re : List Byte) (ls ls' : List (List Byte)) :
    selected re (ls ++ ls') = selected re ls ++ selected re ls' := by
  rw [selected, selected, selected, List.filter_append, List.flatten_append]

/-! ### Whole runs -/

/-- If every read brings a newline, nothing is lost. -/
theorem grep_eq_selected {reads : List (List Byte)} (h0 : 0#8 ∉ buf ++ reads.flatten)
    (hbuf : newline ∉ buf)
    (hend : ∀ l ∈ lines (buf ++ reads.flatten), l.getLast? = some newline)
    (hreads : ∀ c ∈ reads, newline ∈ c) :
    grep re buf reads = selected re (lines (buf ++ reads.flatten)) := by
  induction reads generalizing buf with
  | nil =>
    rw [List.flatten_nil, List.append_nil] at hend ⊢
    by_cases hnil : buf = []
    · rw [hnil]
      rfl
    · -- an unfinished last line
      rw [lines_of_no_newline hbuf hnil] at hend
      exact absurd (List.mem_of_getLast? (hend buf (List.mem_singleton_self buf))) hbuf
  | cons c reads ih =>
    rw [List.flatten_cons, ← List.append_assoc] at h0 hend ⊢
    obtain ⟨hc0, hrest0⟩ := not_or.mp fun h => h0 (List.mem_append.mpr h)
    obtain ⟨hnl, hlen, hz, done, hlines, hout⟩ :=
      @grepLines_spec re _ reads.flatten hc0
    have hkeep : grepKeep re (buf ++ c) = (grepLines re (buf ++ c)).2 := by
      refine if_neg fun hc => ?_
      exact hlen.mp hc (List.mem_append_right _ (hreads c List.mem_cons_self))
    rw [grep, hkeep, hlines, selected_append, hout, ih ?_ hnl ?_ ?_]
    · intro hc
      exact (List.mem_append.mp hc).elim hz hrest0
    · intro l hl
      exact hend l (by rw [hlines]; exact List.mem_append_right _ hl)
    · exact fun c' hc' => hreads c' (List.mem_cons_of_mem _ hc')

theorem grepKeep_length (re buf : List Byte) :
    (grepLines re buf).1.length + (grepKeep re buf).length ≤ buf.length := by
  have hle := grepLines_length re buf
  unfold grepKeep
  dsimp only
  split
  · rw [List.length_nil]
    omega
  · exact hle

theorem grep_length (re buf : List Byte) (reads : List (List Byte)) :
    (grep re buf reads).length ≤ buf.length + reads.flatten.length := by
  induction reads generalizing buf with
  | nil => simp [grep]
  | cons c reads ih =>
    have hkeep := grepKeep_length re (buf ++ c)
    have hrest := ih (grepKeep re (buf ++ c))
    rw [grep, List.length_append, List.flatten_cons, List.length_append]
    rw [List.length_append] at hkeep
    omega

/-- A read without a newline is lost. -/
theorem grep_loses {reads : List (List Byte)} {c : List Byte} (hc : c ∈ reads) (hne : c ≠ [])
    (hno : newline ∉ c) (hbuf : newline ∉ buf) (h0 : 0#8 ∉ buf ++ reads.flatten) :
    (grep re buf reads).length < buf.length + reads.flatten.length := by
  induction reads generalizing buf with
  | nil => exact absurd hc List.not_mem_nil
  | cons c' reads ih =>
    rw [List.flatten_cons, ← List.append_assoc] at h0
    obtain ⟨hc0, hrest0⟩ := not_or.mp fun h => h0 (List.mem_append.mpr h)
    have hkeep := grepKeep_length re (buf ++ c')
    rw [grep, List.length_append, List.flatten_cons, List.length_append]
    rw [List.length_append] at hkeep
    rcases List.mem_cons.mp hc with rfl | hin
    · have hdata : newline ∉ buf ++ c := fun h => (List.mem_append.mp h).elim hbuf hno
      have hrest := grep_length re (grepKeep re (buf ++ c)) reads
      have hempty : grepKeep re (buf ++ c) = [] := by
        refine if_pos ?_
        rw [grepLines_of_no_newline hdata]
      have hout : (grepLines re (buf ++ c)).1 = [] := by rw [grepLines_of_no_newline hdata]
      have hpos := List.length_pos_iff.mpr hne
      rw [hempty] at hrest ⊢
      rw [hout]
      simp only [List.length_nil] at hrest ⊢
      omega
    · obtain ⟨hnl, hlen, hz, -⟩ := @grepLines_spec re _ [] hc0
      have hkeepIn : ∀ b ∈ grepKeep re (buf ++ c'), b ∈ (grepLines re (buf ++ c')).2 := by
        intro b hb
        unfold grepKeep at hb
        dsimp only at hb
        split at hb
        · exact absurd hb List.not_mem_nil
        · exact hb
      have := ih hin (fun h => hnl (hkeepIn _ h)) fun h =>
        (List.mem_append.mp h).elim (fun h => hz (hkeepIn _ h)) hrest0
      omega

/-- The empty pattern selects every line. -/
theorem selected_nil (ls : List (List Byte)) : selected [] ls = ls.flatten := by
  have hall : ∀ l ∈ ls, matchRe [] l.dropLast = true := by
    intro l _
    show matchAnywhere [] l.dropLast = true
    exact matchAnywhere_iff.mpr ⟨[], _, rfl, matchhere_nil _⟩
  rw [selected, List.filter_eq_self.mpr hall]

end

/-- For all patterns, `grep` writes the lines that match, exactly if every read brings at least
one newline. -/
theorem grep_selects_iff {reads : List (List Byte)} (h0 : 0#8 ∉ reads.flatten)
    (hlines : ∀ l ∈ lines reads.flatten, l.getLast? = some newline ∧ l.length ≤ bufSize - 1)
    (hreads : ∀ re, Delivered re [] reads) :
    (∀ re, 0#8 ∉ re → grep re [] reads = selected re (lines reads.flatten)) ↔
      ∀ c ∈ reads, newline ∈ c := by
  constructor
  · intro h c hc
    by_contra hno
    have hne := (hreads []).ne_nil c hc
    have hlost := @grep_loses [] [] reads c hc hne hno List.not_mem_nil h0
    rw [h [] List.not_mem_nil, selected_nil, lines_flatten, List.length_nil, Nat.zero_add] at hlost
    exact Nat.lt_irrefl _ hlost
  · intro h re _
    exact grep_eq_selected h0 List.not_mem_nil (fun l hl => (hlines l hl).1) h

/-- One line in one read. -/
theorem grep_selects_iff_line : let reads : List (List Byte) := [[chr 'a', newline]]
    (0#8 ∉ reads.flatten ∧
      (∀ l ∈ lines reads.flatten, l.getLast? = some newline ∧ l.length ≤ bufSize - 1) ∧
      ∀ re, Delivered re [] reads) ∧
    ((∀ re, 0#8 ∉ re → grep re [] reads = selected re (lines reads.flatten)) ↔
      ∀ c ∈ reads, newline ∈ c) := by
  have hreads : ∀ re, Delivered re [] [[chr 'a', newline]] :=
    fun re => ⟨by simp, by simp [bufSize], trivial⟩
  exact ⟨⟨by decide, by decide, hreads⟩, grep_selects_iff (by decide) (by decide) hreads⟩

/-- The line `ab` in two reads: `grep a` misses it. -/
theorem grep_misses_line : ∃ (re : List Byte) (reads : List (List Byte)),
    0#8 ∉ re ∧ 0#8 ∉ reads.flatten ∧
      (∀ l ∈ lines reads.flatten, l.getLast? = some newline ∧ l.length ≤ bufSize - 1) ∧
      Delivered re [] reads ∧ grep re [] reads ≠ selected re (lines reads.flatten) := by
  refine ⟨[chr 'a'], [[chr 'a'], [chr 'b', newline]], by decide, by decide, by decide, ?_, ?_⟩
  · have hkeep : grepKeep [chr 'a'] [chr 'a'] = [] := by
      rw [grepKeep, grepLines_of_no_newline (by decide)]
      rfl
    refine ⟨by simp, by simp [bufSize], ?_⟩
    rw [List.nil_append, hkeep]
    exact ⟨by simp, by simp [bufSize], trivial⟩
  · intro h
    have hall : selected [chr 'a'] [[chr 'a', chr 'b', newline]] = [chr 'a', chr 'b', newline] := by
      have hmatch : matchRe [chr 'a'] [chr 'a', chr 'b'] = true :=
        matchAnywhere_iff.mpr ⟨[], _, rfl, (matchhere_char (by simp) (by decide)).mpr
          ⟨_, _, rfl, .inr rfl, matchhere_nil _⟩⟩
      rw [selected,
        List.filter_eq_self.mpr fun l hl => by rw [List.mem_singleton.mp hl]; exact hmatch]
      rfl
    have hlost := @grep_loses [chr 'a'] [] [[chr 'a'], [chr 'b', newline]] [chr 'a'] (by simp)
      (by simp) (by decide) (by decide) (by decide)
    rw [h, show lines [[chr 'a'], [chr 'b', newline]].flatten = [[chr 'a', chr 'b', newline]] by
      decide, hall] at hlost
    exact absurd hlost (by decide)

end Xv6.Grep
