import Xv6.Bytes
import Xv6.Lib.Kern
import Xv6.Lib.Runs

/-!
# Xv6.Mysh.Parse

`parse_pipeline` of `mysh.c`: cut a line into the words of the commands of a pipeline,
in place.

The buffer is a list of bytes, from `line` on; a pointer into it is an offset. Reading
or writing outside the buffer, or storing an argument outside `cmds`, is a `Fault`. The
loops carry fuel, and running out of it is a fault too; no fault is possible on a
terminated line (`parse_pipeline_exact`).

`fields` says what a line means: the words of each of the parts between its pipes. The
loop keeps one equation (`Parsing.eq`): what has been stored, followed by the fields of
what is left of the line, are the fields of the line.
-/

namespace Xv6.Mysh

/-! ### The program -/

/-- `MAX_COMMANDS`. -/
def maxCommands : Nat := 8

/-- `MAX_ARGS`. -/
def maxArgs : Nat := 16

/-- The character `|`. -/
def pipeChar : Byte := 124#8

/-- `is_space`. -/
def isSpace (c : Byte) : Bool := c == 32#8 || c == 9#8 || c == 13#8 || c == 10#8

/-- The memory `parse_pipeline` works on. -/
structure Mem where
  /-- The bytes from `line` on. -/
  line : List Byte
  /-- `cmds[i].argv[j]`, as an offset into `line`. -/
  argv : Nat → Nat → Option Nat

/-- What must not happen. -/
inductive Fault
  /-- An access outside `line` or `cmds`. -/
  | bounds
  /-- The model has run out of fuel. -/
  | fuel

abbrev PM := Kern Mem Fault

/-- `*p`. -/
def charAt (p : Nat) : PM Byte := do
  match (← get).line[p]? with
  | some c => return c
  | none => throw .bounds

/-- `*p = c`. -/
def putChar (p : Nat) (c : Byte) : PM Unit := do
  if p < (← get).line.length then modify fun m => { m with line := m.line.set p c }
  else throw .bounds

/-- `cmds[i].argv[j] = ptr`. -/
def putArg (i j : Nat) (ptr : Option Nat) : PM Unit :=
  if i < maxCommands ∧ j < maxArgs then
    modify fun m => { m with argv := Function.update m.argv i (Function.update (m.argv i) j ptr) }
  else throw .bounds

/-- `while(test(*p)) p++`. -/
def skip (test : Byte → Bool) : Nat → Nat → PM Nat
  | 0, _ => throw .fuel
  | fuel + 1, p => do
    if test (← charAt p) then skip test fuel (p + 1) else return p

/-- A byte that belongs to a word. -/
def isWord (c : Byte) : Bool := c != 0#8 && !isSpace c && c != pipeChar

/-- The main loop of `parse_pipeline`. -/
def parseLoop : Nat → Nat → Nat → Nat → PM Int
  | 0, _, _, _ => throw .fuel
  | fuel + 1, cmdIndex, argc, p => do
    let p ← skip isSpace (fuel + 1) p
    let c ← charAt p
    if c = 0#8 then
      if argc = 0 then
        if cmdIndex = 0 then return 0 else return -1
      else do
        putArg cmdIndex argc none
        return cmdIndex + 1
    else if c = pipeChar then
      if argc = 0 then return -1
      else do
        putArg cmdIndex argc none
        if maxCommands ≤ cmdIndex + 1 then return -1
        else parseLoop fuel (cmdIndex + 1) 0 (p + 1)
    else if maxArgs - 1 ≤ argc then return -1
    else do
      putArg cmdIndex argc (some p)
      let p ← skip isWord (fuel + 1) p
      let delimiter ← charAt p
      if delimiter = 0#8 then parseLoop fuel cmdIndex (argc + 1) p
      else do
        putChar p 0#8
        if delimiter = pipeChar then do
          putArg cmdIndex (argc + 1) none
          if maxCommands ≤ cmdIndex + 1 then return -1
          else parseLoop fuel (cmdIndex + 1) 0 (p + 1)
        else parseLoop fuel cmdIndex (argc + 1) (p + 1)

/-- `parse_pipeline`. Every round of the loop but the last consumes a byte of the line. -/
def parsePipeline : PM Int := do
  let m ← get
  modify fun m => { m with argv := fun _ _ => none }
  parseLoop (m.line.length + 1) 0 0 0

/-! ### What a line means -/

/-- The words of one command: the maximal runs of bytes other than white space. -/
def words (part : List Byte) : List (List Byte) := (part.splitOnP isSpace).filter (· ≠ [])

/-- The words of the parts of a line between its pipes. -/
def fields (line : List Byte) : List (List (List Byte)) :=
  (line.splitOnP (· == pipeChar)).map words

/-- The lines `parse_pipeline` accepts. -/
def WellFormed (fs : List (List (List Byte))) : Prop :=
  fs.length ≤ maxCommands ∧ ∀ ws ∈ fs, 1 ≤ ws.length ∧ ws.length ≤ maxArgs - 1

/-- A string in memory: the bytes from `p` up to the first NUL. -/
def cstr (line : List Byte) (p : Nat) : List Byte := (line.drop p).takeWhile (· ≠ 0#8)

theorem fields_ne_nil (line : List Byte) : fields line ≠ [] := by
  simp [fields, List.splitOnP_ne_nil]

theorem fields_nil : fields [] = [[]] := by
  simp [fields, words]

theorem words_eq (part : List Byte) : words part = runs isSpace part :=
  List.filter_congr fun w _ => by cases w <;> simp

theorem words_space {c : Byte} (h : isSpace c = true) (part : List Byte) :
    words (c :: part) = words part := by
  rw [words_eq, words_eq, runs_sep h]

theorem words_word {w : List Byte} (hw : w ≠ []) (h : ∀ c ∈ w, isSpace c = false) :
    words w = [w] ∧ ∀ c part, isSpace c = true → words (w ++ c :: part) = w :: words part := by
  simp only [words_eq]
  exact runs_run hw h

theorem splitOnP_parts (p : Byte → Bool) (l : List Byte) :
    ∃ part parts, l.splitOnP p = part :: parts :=
  List.exists_cons_of_ne_nil (List.splitOnP_ne_nil p l)

theorem not_pipe_of_space {c : Byte} (h : isSpace c = true) : (c == pipeChar) = false := by
  rw [beq_eq_false_iff_ne]
  rintro rfl
  exact absurd h (by decide)

theorem fields_space {c : Byte} (h : isSpace c = true) (line : List Byte) :
    fields (c :: line) = fields line := by
  obtain ⟨part, parts, hp⟩ := splitOnP_parts (· == pipeChar) line
  simp [fields, List.splitOnP_cons_eq_if_modifyHead, not_pipe_of_space h, hp, words_space h]

theorem fields_pipe (line : List Byte) : fields (pipeChar :: line) = [] :: fields line := by
  simp [fields, List.splitOnP_cons_eq_if_modifyHead, words]

theorem isWord_iff {c : Byte} :
    isWord c = true ↔ c ≠ 0#8 ∧ isSpace c = false ∧ c ≠ pipeChar := by
  simp [isWord, and_assoc]

section
variable {w : List Byte} (hw : w ≠ []) (h : ∀ c ∈ w, isWord c = true)

include h in
theorem not_space_of_word : ∀ c ∈ w, isSpace c = false := fun c hc => (isWord_iff.mp (h c hc)).2.1

include h in
theorem not_pipe_of_word : ∀ c ∈ w, (c == pipeChar) = false := fun c hc => by
  simpa using (isWord_iff.mp (h c hc)).2.2

include hw h

theorem fields_word : fields w = [[w]] := by
  rw [fields, List.splitOnP_eq_singleton (not_pipe_of_word h)]
  simp [(words_word hw (not_space_of_word h)).1]

theorem fields_word_pipe (line : List Byte) :
    fields (w ++ pipeChar :: line) = [w] :: fields line := by
  rw [fields, List.splitOnP_append_cons_of_forall_mem (not_pipe_of_word h) _ (by simp)]
  simp [(words_word hw (not_space_of_word h)).1, fields]

theorem fields_word_space {c : Byte} (hc : isSpace c = true) (line : List Byte) :
    fields (w ++ c :: line) = (fields line).modifyHead (w :: ·) := by
  have hsplit : ∀ (w : List Byte), (∀ c ∈ w, (c == pipeChar) = false) → ∀ rest,
      (w ++ rest).splitOnP (· == pipeChar) =
        (rest.splitOnP (· == pipeChar)).modifyHead (w ++ ·) := by
    intro w
    induction w with
    | nil =>
      intro _ rest
      obtain ⟨part, parts, hp⟩ := splitOnP_parts (· == pipeChar) rest
      simp [hp]
    | cons a w ih =>
      intro h rest
      rw [List.cons_append, List.splitOnP_cons_eq_if_modifyHead, h a List.mem_cons_self,
        ih (fun c hc => h c (List.mem_cons_of_mem _ hc))]
      obtain ⟨part, parts, hp⟩ := splitOnP_parts (· == pipeChar) rest
      simp [hp]
  rw [fields, hsplit w (not_pipe_of_word h), List.splitOnP_cons_eq_if_modifyHead,
    not_pipe_of_space hc]
  obtain ⟨part, parts, hp⟩ := splitOnP_parts (· == pipeChar) line
  simp [hp, fields, (words_word hw (not_space_of_word h)).2 c part hc]

end

/-- A line has no words and no pipes exactly if it is white space. -/
theorem fields_eq_blank {line : List Byte} :
    fields line = [[]] ↔ ∀ c ∈ line, isSpace c = true := by
  induction line with
  | nil => simp [fields_nil]
  | cons c line ih =>
    by_cases hs : isSpace c = true
    · rw [fields_space hs, ih]
      simp [hs]
    · simp only [List.mem_cons, forall_eq_or_imp, hs, Bool.false_eq_true, false_and, iff_false]
      by_cases hc : c = pipeChar
      · rw [hc, fields_pipe]
        simp [fields_ne_nil]
      · -- the first part has a word
        obtain ⟨part, parts, hp⟩ := splitOnP_parts (· == pipeChar) line
        have hne : (c == pipeChar) = false := by simpa using hc
        have hsp : isSpace c = false := by simpa using hs
        obtain ⟨run, runs, hr⟩ := splitOnP_parts isSpace part
        simp [fields, List.splitOnP_cons_eq_if_modifyHead, hne, hp, words, hsp, hr]

/-! ### Strings in the buffer -/

/-- The string `w` is at `q`, and its NUL is at or before `p`. -/
structure Held (line : List Byte) (p q : Nat) (w : List Byte) : Prop where
  le : q + w.length ≤ p
  nonzero : ∀ c ∈ w, c ≠ 0#8
  text : ∃ t, line.drop q = w ++ 0#8 :: t

theorem Held.mono {line w : List Byte} {p p' q : Nat} (h : Held line p q w) (hp : p ≤ p') :
    Held line p' q w :=
  ⟨h.le.trans hp, h.nonzero, h.text⟩

/-- Writing behind `p` leaves the strings before it alone. -/
theorem Held.set {line w : List Byte} {p q e : Nat} {c : Byte} (h : Held line p q w) (he : p < e) :
    Held (line.set e c) p q w := by
  obtain ⟨t, ht⟩ := h.text
  have hle := h.le
  refine ⟨hle, h.nonzero, t.set (e - q - w.length - 1) c, ?_⟩
  have hlt : ¬ e < q := by omega
  obtain ⟨d, hd⟩ : ∃ d, e - q - w.length = d + 1 := ⟨e - q - w.length - 1, by omega⟩
  rw [List.drop_set, if_neg hlt, ht, List.set_append_right _ _ (by omega), hd, List.set_cons_succ,
    Nat.add_sub_cancel]

theorem Held.cstr {line w : List Byte} {p q : Nat} (h : Held line p q w) :
    cstr line q = w := by
  obtain ⟨t, ht⟩ := h.text
  rw [Mysh.cstr, ht, List.takeWhile_append_of_pos (by simpa using h.nonzero)]
  simp

/-! ### Arguments in the table -/

/-- Store one pointer. -/
def Mem.arg (m : Mem) (i j : Nat) (ptr : Option Nat) : Mem :=
  { m with argv := Function.update m.argv i (Function.update (m.argv i) j ptr) }

theorem Mem.arg_self (m : Mem) (i j : Nat) (ptr : Option Nat) :
    (m.arg i j ptr).argv i j = ptr := by
  simp [arg]

theorem Mem.arg_of_ne (m : Mem) {i j i' j' : Nat} (ptr : Option Nat) (h : i' ≠ i ∨ j' ≠ j) :
    (m.arg i j ptr).argv i' j' = m.argv i' j' := by
  by_cases hi : i' = i
  · subst hi
    simp [arg, h.resolve_left (by simp)]
  · simp [arg, hi]

/-- `argv` of command `i` starts with the words `ws`. -/
def Holds (m : Mem) (p i : Nat) (ws : List (List Byte)) : Prop :=
  ∀ j (h : j < ws.length), ∃ q, m.argv i j = some q ∧ Held m.line p q ws[j]

/-- The commands that are complete, each with its null pointer. -/
def Rows (m : Mem) (p : Nat) (done : List (List (List Byte))) : Prop :=
  ∀ i (h : i < done.length), Holds m p i done[i] ∧ m.argv i done[i].length = none

section
variable {m m' : Mem} {p i j : Nat} {ws : List (List Byte)} {done : List (List (List Byte))}

/-- What keeps the strings and the pointers up to `p` keeps the table. -/
theorem Holds.imp {p' : Nat} (h : Holds m p i ws)
    (hline : ∀ q w, Held m.line p q w → Held m'.line p' q w)
    (hargv : ∀ j < ws.length, m'.argv i j = m.argv i j) : Holds m' p' i ws := by
  intro j hj
  obtain ⟨q, hq, hheld⟩ := h j hj
  exact ⟨q, by rw [hargv j hj, hq], hline q _ hheld⟩

theorem Rows.imp {p' : Nat} (h : Rows m p done)
    (hline : ∀ q w, Held m.line p q w → Held m'.line p' q w)
    (hargv : ∀ i < done.length, ∀ j, m'.argv i j = m.argv i j) : Rows m' p' done := by
  intro i hi
  obtain ⟨hholds, hnone⟩ := h i hi
  exact ⟨hholds.imp hline fun j _ => hargv i hi j, by rw [hargv i hi, hnone]⟩

theorem Holds.push {q : Nat} {w : List Byte} (h : Holds m p i ws) (hw : Held m.line p q w) :
    Holds (m.arg i ws.length (some q)) p i (ws ++ [w]) := by
  intro j hj
  rw [List.length_append, List.length_singleton] at hj
  by_cases hlt : j < ws.length
  · obtain ⟨q', hq', hheld⟩ := h j hlt
    rw [List.getElem_append_left hlt]
    exact ⟨q', by rw [m.arg_of_ne _ (.inr (by omega)), hq'], hheld⟩
  · have hj : j = ws.length := by omega
    subst hj
    rw [List.getElem_concat_length rfl]
    exact ⟨q, m.arg_self _ _ _, hw⟩

theorem Rows.push (h : Rows m p done) (hcur : Holds m p done.length ws) :
    Rows (m.arg done.length ws.length none) p (done ++ [ws]) := by
  intro i hi
  rw [List.length_append, List.length_singleton] at hi
  by_cases hlt : i < done.length
  · rw [List.getElem_append_left hlt]
    obtain ⟨hholds, hnone⟩ := h i hlt
    have hne : ∀ j, (m.arg done.length ws.length none).argv i j = m.argv i j :=
      fun j => m.arg_of_ne _ (.inl (by omega))
    exact ⟨hholds.imp (fun _ _ hh => hh) fun j _ => hne j, by rw [hne, hnone]⟩
  · have hi : i = done.length := by omega
    subst hi
    rw [List.getElem_concat_length rfl]
    exact ⟨hcur.imp (fun _ _ hh => hh) fun j hj => m.arg_of_ne _ (.inr (by omega)),
      m.arg_self _ _ _⟩

end

/-! ### The loop invariant -/

/-- At the head of the loop: `done` are the complete commands, `cur` the words of the
current one, and `r` is what is left of the line, from `p` up to the NUL at `n`. -/
structure Parsing (fs : List (List (List Byte))) (n : Nat) (tail : List Byte) (m : Mem)
    (done : List (List (List Byte))) (cur : List (List Byte)) (p : Nat) (r : List Byte) :
    Prop where
  text : m.line.drop p = r ++ 0#8 :: tail
  stop : p + r.length = n
  nonzero : ∀ c ∈ r, c ≠ 0#8
  eq : done ++ (fields r).modifyHead (cur ++ ·) = fs
  few : done.length < maxCommands
  done_ok : ∀ ws ∈ done, 1 ≤ ws.length ∧ ws.length ≤ maxArgs - 1
  cur_ok : cur.length ≤ maxArgs - 1
  rows : Rows m p done
  holds : Holds m p done.length cur

/-- How `parse_pipeline` ends on a line with the fields `fs`. -/
structure Outcome (fs : List (List (List Byte))) (n : Nat) (tail : List Byte) (ret : Int)
    (m : Mem) : Prop where
  text : m.line.drop n = 0#8 :: tail
  ret : (ret = 0 ∧ fs = [[]]) ∨ (ret = fs.length ∧ WellFormed fs ∧ Rows m n fs) ∨
    (ret = -1 ∧ fs ≠ [[]] ∧ ¬ WellFormed fs)

section
variable {fs : List (List (List Byte))} {n : Nat} {tail : List Byte} {m : Mem}
  {done : List (List (List Byte))} {cur : List (List Byte)} {p : Nat} {r : List Byte}

theorem Parsing.text_stop (h : Parsing fs n tail m done cur p r) :
    m.line.drop n = 0#8 :: tail := by
  rw [← h.stop, ← List.drop_drop, h.text, List.drop_left]

theorem fields_spaces {ws : List Byte} (h : ∀ c ∈ ws, isSpace c = true) (r : List Byte) :
    fields (ws ++ r) = fields r := by
  induction ws with
  | nil => rfl
  | cons c ws ih =>
    rw [List.cons_append, fields_space (h c List.mem_cons_self),
      ih fun c hc => h c (List.mem_cons_of_mem _ hc)]

theorem Parsing.spaces {ws : List Byte} (h : Parsing fs n tail m done cur p (ws ++ r))
    (hws : ∀ c ∈ ws, isSpace c = true) :
    Parsing fs n tail m done cur (p + ws.length) r where
  text := by rw [← List.drop_drop, h.text, List.append_assoc, List.drop_left]
  stop := by rw [← h.stop, List.length_append]; omega
  nonzero c hc := h.nonzero c (List.mem_append_right _ hc)
  eq := by rw [← fields_spaces hws, h.eq]
  few := h.few
  done_ok := h.done_ok
  cur_ok := h.cur_ok
  rows := h.rows.imp (fun _ _ hh => hh.mono (by omega)) fun _ _ _ => rfl
  holds := h.holds.imp (fun _ _ hh => hh.mono (by omega)) fun _ _ => rfl

/-- The current command is complete and a pipe follows: the table up to the next one. -/
theorem Rows.close (hrows : Rows m p done) (hholds : Holds m p done.length cur) :
    Rows (m.arg done.length cur.length none) (p + 1) (done ++ [cur]) :=
  (hrows.push hholds).imp (fun _ _ hh => hh.mono (by omega)) fun _ _ _ => rfl

theorem Parsing.pipe (h : Parsing fs n tail m done cur p (pipeChar :: r)) (hcur : cur ≠ [])
    (hfew : done.length + 1 < maxCommands) :
    Parsing fs n tail (m.arg done.length cur.length none) (done ++ [cur]) [] (p + 1) r where
  text := by
    show m.line.drop (p + 1) = _
    rw [← List.drop_drop, h.text]
    rfl
  stop := by rw [← h.stop, List.length_cons]; omega
  nonzero c hc := h.nonzero c (List.mem_cons_of_mem _ hc)
  eq := by
    rw [← h.eq, fields_pipe]
    obtain ⟨f, fs, hf⟩ := List.exists_cons_of_ne_nil (fields_ne_nil r)
    simp [hf]
  few := by simpa using hfew
  done_ok ws hws := by
    rcases List.mem_append.mp hws with hws | hws
    · exact h.done_ok ws hws
    · rw [List.mem_singleton.mp hws]
      exact ⟨List.length_pos_iff.mpr hcur, h.cur_ok⟩
  cur_ok := Nat.zero_le _
  rows := h.rows.close h.holds
  holds j hj := absurd hj (by simp)

end

/-- Overwrite one byte of the line. -/
def Mem.put (m : Mem) (p : Nat) (c : Byte) : Mem := { m with line := m.line.set p c }

section
variable {fs : List (List (List Byte))} {n : Nat} {tail : List Byte} {m : Mem}
  {done : List (List (List Byte))} {cur : List (List Byte)} {p : Nat} {w r : List Byte}
  (hword : ∀ c ∈ w, isWord c = true)

include hword

theorem Parsing.word_end (h : Parsing fs n tail m done cur p w) (hw : w ≠ [])
    (hcur : cur.length < maxArgs - 1) :
    Parsing fs n tail (m.arg done.length cur.length (some p)) done (cur ++ [w]) (p + w.length)
      [] where
  text := by
    show m.line.drop (p + w.length) = _
    rw [← List.drop_drop, h.text, List.drop_left]
    rfl
  stop := h.stop
  nonzero c hc := absurd hc (by simp)
  eq := by
    rw [← h.eq, fields_word hw hword, fields_nil]
    simp
  few := h.few
  done_ok := h.done_ok
  cur_ok := by
    rw [List.length_append, List.length_singleton]
    omega
  rows := h.rows.imp (fun _ _ hh => hh.mono (by omega))
    fun i hi j => m.arg_of_ne _ (.inl (by omega))
  holds := (h.holds.imp (fun _ _ hh => hh.mono (by omega)) fun _ _ => rfl).push
    ⟨le_rfl, h.nonzero, tail, h.text⟩

/-- The memory after a word has been stored and its delimiter overwritten. -/
theorem Parsing.word_cut {d : Byte} (h : Parsing fs n tail m done cur p (w ++ d :: r))
    (hw : w ≠ []) :
    let m' := (m.arg done.length cur.length (some p)).put (p + w.length) 0#8
    m'.line.drop (p + w.length + 1) = r ++ 0#8 :: tail ∧ Rows m' (p + w.length + 1) done ∧
      Holds m' (p + w.length + 1) done.length (cur ++ [w]) := by
  intro m'
  have hpos : 0 < w.length := List.length_pos_iff.mpr hw
  have hold : ∀ q v, Held m.line p q v → Held m'.line (p + w.length + 1) q v :=
    fun q v hh => (hh.set (by omega)).mono (by omega)
  -- the word itself, now ended by the NUL
  have hnew : Held m'.line (p + w.length + 1) p w := by
    refine ⟨by omega, fun c hc => (isWord_iff.mp (hword c hc)).1, r ++ 0#8 :: tail, ?_⟩
    show (m.line.set (p + w.length) 0#8).drop p = _
    rw [List.drop_set, if_neg (by omega), h.text, Nat.add_sub_cancel_left, List.append_assoc,
      List.set_append_right _ _ le_rfl, Nat.sub_self]
    rfl
  refine ⟨?_, h.rows.imp hold fun i hi j => m.arg_of_ne _ (.inl (by omega)), ?_⟩
  · show (m.line.set (p + w.length) 0#8).drop (p + w.length + 1) = _
    rw [List.drop_set, if_pos (by omega), Nat.add_assoc, ← List.drop_drop, h.text,
      List.append_assoc, ← List.drop_drop, List.drop_left]
    rfl
  · have hcur : Holds (m.put (p + w.length) 0#8) (p + w.length + 1) done.length cur :=
      h.holds.imp hold fun _ _ => rfl
    exact hcur.push hnew

theorem Parsing.word_space {d : Byte} (h : Parsing fs n tail m done cur p (w ++ d :: r))
    (hw : w ≠ []) (hd : isSpace d = true) (hcur : cur.length < maxArgs - 1) :
    Parsing fs n tail ((m.arg done.length cur.length (some p)).put (p + w.length) 0#8) done
      (cur ++ [w]) (p + w.length + 1) r := by
  obtain ⟨htext, hrows, hholds⟩ := h.word_cut hword hw
  refine ⟨htext, ?_, fun c hc => h.nonzero c (by simp [hc]), ?_, h.few, h.done_ok, ?_, hrows,
    hholds⟩
  · rw [← h.stop, List.length_append, List.length_cons]
    omega
  · rw [← h.eq, fields_word_space hw hword hd]
    obtain ⟨f, fs, hf⟩ := List.exists_cons_of_ne_nil (fields_ne_nil r)
    simp [hf]
  · rw [List.length_append, List.length_singleton]
    omega

theorem Parsing.word_pipe (h : Parsing fs n tail m done cur p (w ++ pipeChar :: r))
    (hw : w ≠ []) (hcur : cur.length < maxArgs - 1) (hfew : done.length + 1 < maxCommands) :
    Parsing fs n tail
      (((m.arg done.length cur.length (some p)).put (p + w.length) 0#8).arg done.length
        (cur.length + 1) none) (done ++ [cur ++ [w]]) [] (p + w.length + 1) r := by
  obtain ⟨htext, hrows, hholds⟩ := h.word_cut hword hw
  refine ⟨htext, ?_, fun c hc => h.nonzero c (by simp [hc]), ?_, by simpa using hfew,
    fun ws hws => ?_, Nat.zero_le _, ?_, fun j hj => absurd hj (by simp)⟩
  · rw [← h.stop, List.length_append, List.length_cons]
    omega
  · rw [← h.eq, fields_word_pipe hw hword]
    obtain ⟨f, fs, hf⟩ := List.exists_cons_of_ne_nil (fields_ne_nil r)
    simp [hf]
  · rcases List.mem_append.mp hws with hws | hws
    · exact h.done_ok ws hws
    · rw [List.mem_singleton.mp hws, List.length_append, List.length_singleton]
      exact ⟨by omega, by omega⟩
  · have := hrows.push hholds
    rwa [List.length_append, List.length_singleton] at this

end

/-! ### How the loop can end -/

section
variable {fs : List (List (List Byte))} {n : Nat} {tail : List Byte} {m : Mem}
  {done : List (List (List Byte))} {cur : List (List Byte)} {p : Nat} {r : List Byte}

/-- A line that cannot be accepted any more. -/
theorem Outcome.reject (htext : m.line.drop n = 0#8 :: tail) (hne : fs ≠ [[]])
    (hbad : ¬ WellFormed fs) : Outcome fs n tail (-1) m :=
  ⟨htext, .inr (.inr ⟨rfl, hne, hbad⟩)⟩

theorem Parsing.finish (h : Parsing fs n tail m done cur p []) :
    fs = done ++ [cur] ∧ p = n := by
  refine ⟨?_, by simpa using h.stop⟩
  rw [← h.eq, fields_nil]
  simp

/-- The line ends with a command that has no words. -/
theorem Parsing.finish_empty (h : Parsing fs n tail m done [] p []) :
    Outcome fs n tail (if done.length = 0 then 0 else -1) m := by
  obtain ⟨rfl, -⟩ := h.finish
  split
  · next h0 =>
      obtain rfl := List.length_eq_zero_iff.mp h0
      exact ⟨h.text_stop, .inl ⟨rfl, rfl⟩⟩
  · next h0 =>
      refine .reject h.text_stop (fun heq => h0 ?_) fun hw => ?_
      · have := congrArg List.length heq
        simpa using this
      · have := (hw.2 [] (by simp)).1
        exact absurd this (by simp)

/-- The line ends with a command that has words. -/
theorem Parsing.finish_cur (h : Parsing fs n tail m done cur p []) (hcur : cur ≠ []) :
    Outcome fs n tail (done.length + 1) (m.arg done.length cur.length none) := by
  obtain ⟨rfl, rfl⟩ := h.finish
  refine ⟨h.text_stop, .inr (.inl ⟨by simp, ⟨?_, fun ws hws => ?_⟩, h.rows.push h.holds⟩)⟩
  · rw [List.length_append, List.length_singleton]
    exact h.few
  · rcases List.mem_append.mp hws with hws | hws
    · exact h.done_ok ws hws
    · rw [List.mem_singleton.mp hws]
      exact ⟨List.length_pos_iff.mpr hcur, h.cur_ok⟩

/-- A pipe with no command on its left. -/
theorem Parsing.bad_pipe (h : Parsing fs n tail m done [] p (pipeChar :: r)) :
    fs ≠ [[]] ∧ ¬ WellFormed fs := by
  rw [← h.eq, fields_pipe]
  constructor
  · intro heq
    have hlen := congrArg List.length heq
    have hpos := List.length_pos_iff.mpr (fields_ne_nil r)
    simp at hlen
    omega
  · intro hw
    have := (hw.2 [] (by simp)).1
    exact absurd this (by simp)

/-- A pipe after the last command there is room for: `ws` is what stands before it. -/
theorem Parsing.full {r' : List Byte} {ws : List (List Byte)}
    (h : Parsing fs n tail m done cur p r) (hf : fields r = ws :: fields r')
    (hfull : maxCommands ≤ done.length + 1) : fs ≠ [[]] ∧ ¬ WellFormed fs := by
  have hpos := List.length_pos_iff.mpr (fields_ne_nil r')
  have hlen : maxCommands < fs.length := by
    rw [← h.eq, hf]
    simp
    omega
  constructor
  · rintro rfl
    exact absurd hlen (by decide)
  · intro hw
    exact absurd hw.1 (by omega)

theorem Parsing.long {ws : List (List Byte)} {rest : List (List (List Byte))}
    (h : Parsing fs n tail m done cur p r) (hf : fields r = ws :: rest) (hws : ws ≠ [])
    (hcur : maxArgs - 1 ≤ cur.length) : fs ≠ [[]] ∧ ¬ WellFormed fs := by
  have hpos := List.length_pos_iff.mpr hws
  have hmem : cur ++ ws ∈ fs := by
    rw [← h.eq, hf]
    simp
  constructor
  · rintro rfl
    have := List.mem_singleton.mp hmem
    exact hws (List.append_eq_nil_iff.mp this).2
  · intro hw
    have := (hw.2 _ hmem).2
    rw [List.length_append] at this
    omega

end

/-! ### Running the program -/

section
variable {m : Mem} {p : Nat} {c : Byte} {rest : List Byte} {E : Fault → Prop}

theorem ends_charAt (h : m.line.drop p = c :: rest) {Q : Byte → Mem → Prop} :
    Ends (charAt p) m Q E ↔ Q c m := by
  have hc : m.line[p]? = some c := by
    have hget : (m.line.drop p)[0]? = m.line[p + 0]? := List.getElem?_drop
    rw [h] at hget
    simpa using hget.symm
  rw [charAt, ends_bind, ends_get, hc]
  exact ends_pure ..

theorem ends_putChar (h : m.line.drop p = c :: rest) (c' : Byte) {Q : Unit → Mem → Prop} :
    Ends (putChar p c') m Q E ↔ Q () (m.put p c') := by
  have hp : p < m.line.length := by
    by_contra hle
    rw [List.drop_eq_nil_of_le (by omega)] at h
    exact absurd h (by simp)
  rw [putChar, ends_bind, ends_get, if_pos hp, ends_modify]
  rfl

theorem ends_putArg {i j : Nat} (hi : i < maxCommands) (hj : j < maxArgs) (ptr : Option Nat)
    {Q : Unit → Mem → Prop} : Ends (putArg i j ptr) m Q E ↔ Q () (m.arg i j ptr) := by
  rw [putArg, if_pos ⟨hi, hj⟩, ends_modify]
  rfl

/-- `skip` stops at the first byte that fails the test. -/
theorem skip_spec {test : Byte → Bool} {ws : List Byte} {Q : Nat → Mem → Prop}
    (c : Byte) (rest : List Byte) (hc : test c = false) :
    ∀ {fuel p : Nat}, m.line.drop p = ws ++ c :: rest → (∀ c ∈ ws, test c = true) →
      ws.length < fuel → Q (p + ws.length) m → Ends (skip test fuel p) m Q E := by
  induction ws with
  | nil =>
    intro fuel p htext _ hfuel hQ
    obtain ⟨fuel, rfl⟩ := Nat.exists_eq_succ_of_ne_zero (Nat.ne_of_gt hfuel)
    rw [skip, ends_bind, ends_charAt htext, hc]
    exact .ret hQ
  | cons a ws ih =>
    intro fuel p htext hws hfuel hQ
    obtain ⟨fuel, rfl⟩ := Nat.exists_eq_succ_of_ne_zero (Nat.ne_of_gt (Nat.zero_lt_of_lt hfuel))
    rw [skip, ends_bind, ends_charAt htext, hws a List.mem_cons_self]
    refine ih ?_ (fun c hc => hws c (List.mem_cons_of_mem _ hc)) (by simpa using hfuel) ?_
    · rw [← List.drop_drop, htext]
      rfl
    · rw [List.length_cons] at hQ
      rwa [Nat.add_assoc, Nat.add_comm 1]

end

/-- A run of bytes that pass a test, and what stops it. -/
theorem span_cases (test : Byte → Bool) (r : List Byte) :
    ∃ ws r', r = ws ++ r' ∧ (∀ c ∈ ws, test c = true) ∧
      (r' = [] ∨ ∃ c r'', r' = c :: r'' ∧ test c = false) := by
  refine ⟨r.takeWhile test, r.dropWhile test, (List.takeWhile_append_dropWhile).symm,
    List.all_eq_true.mp List.all_takeWhile, ?_⟩
  cases hd : r.dropWhile test with
  | nil => exact .inl rfl
  | cons c r'' =>
    refine .inr ⟨c, r'', rfl, ?_⟩
    have := List.head?_dropWhile_not test r
    rw [hd] at this
    simpa using this

/-- The loop with this fuel does what it should from any state that meets its invariant
and has less than that of the line left. -/
def LoopOk (fs : List (List (List Byte))) (n : Nat) (tail : List Byte) (fuel : Nat) : Prop :=
  ∀ {m : Mem} {done : List (List (List Byte))} {cur : List (List Byte)} {p : Nat}
    {r : List Byte}, Parsing fs n tail m done cur p r → r.length < fuel →
    Ends (parseLoop fuel done.length cur.length p) m (Outcome fs n tail)

section
variable {fs : List (List (List Byte))} {n : Nat} {tail : List Byte} {fuel : Nat} {m : Mem}
  {done : List (List (List Byte))} {cur : List (List Byte)} {p : Nat} {r : List Byte}

theorem Parsing.cur_lt (h : Parsing fs n tail m done cur p r) : cur.length < maxArgs :=
  Nat.lt_of_le_of_lt h.cur_ok (by decide)

theorem Parsing.at_end (h : Parsing fs n tail m done cur p []) :
    Ends (if cur.length = 0 then if done.length = 0 then return 0 else return -1
      else do
        putArg done.length cur.length none
        return done.length + 1 : PM Int) m (Outcome fs n tail) := by
  by_cases hcur : cur = []
  · subst hcur
    have hout := h.finish_empty
    rw [if_pos List.length_nil]
    split
    · next h0 =>
        rw [if_pos h0] at hout
        exact .ret hout
    · next h0 =>
        rw [if_neg h0] at hout
        exact .ret hout
  · rw [if_neg (by simpa using hcur), ends_bind, ends_putArg h.few h.cur_lt]
    exact .ret (h.finish_cur hcur)

theorem Parsing.at_pipe (ih : LoopOk fs n tail fuel)
    (h : Parsing fs n tail m done cur p (pipeChar :: r)) (hfuel : r.length < fuel) :
    Ends (if cur.length = 0 then return -1
      else do
        putArg done.length cur.length none
        if maxCommands ≤ done.length + 1 then return -1
        else parseLoop fuel (done.length + 1) 0 (p + 1) : PM Int) m (Outcome fs n tail) := by
  by_cases hcur : cur = []
  · subst hcur
    rw [if_pos List.length_nil]
    exact .ret (.reject h.text_stop h.bad_pipe.1 h.bad_pipe.2)
  · rw [if_neg (by simpa using hcur), ends_bind, ends_putArg h.few h.cur_lt]
    by_cases hfull : maxCommands ≤ done.length + 1
    · rw [if_pos hfull]
      have hbad := h.full (fields_pipe r) hfull
      exact .ret (.reject h.text_stop hbad.1 hbad.2)
    · rw [if_neg hfull]
      have hnext := ih (h.pipe hcur (by omega)) hfuel
      rwa [List.length_append, List.length_singleton] at hnext

theorem Parsing.at_word (ih : LoopOk fs n tail fuel) {w : List Byte}
    (h : Parsing fs n tail m done cur p (w ++ r)) (hw : w ≠ [])
    (hword : ∀ c ∈ w, isWord c = true)
    (hr : r = [] ∨ ∃ c r', r = c :: r' ∧ isWord c = false) (hfuel : w.length + r.length ≤ fuel) :
    Ends (if maxArgs - 1 ≤ cur.length then return -1
      else do
        putArg done.length cur.length (some p)
        let p ← skip isWord (fuel + 1) p
        let delimiter ← charAt p
        if delimiter = 0#8 then parseLoop fuel done.length (cur.length + 1) p
        else do
          putChar p 0#8
          if delimiter = pipeChar then do
            putArg done.length (cur.length + 1) none
            if maxCommands ≤ done.length + 1 then return -1
            else parseLoop fuel (done.length + 1) 0 (p + 1)
          else parseLoop fuel done.length (cur.length + 1) (p + 1) : PM Int) m
      (Outcome fs n tail) := by
  have hpos := List.length_pos_iff.mpr hw
  by_cases hlong : maxArgs - 1 ≤ cur.length
  · -- the word does not fit, whatever follows it
    rw [if_pos hlong]
    have hhead : ∃ ws rest, fields (w ++ r) = (w :: ws) :: rest := by
      rcases hr with rfl | ⟨d, r', rfl, hd⟩
      · exact ⟨[], [], by rw [List.append_nil, fields_word hw hword]⟩
      · by_cases hp : d = pipeChar
        · exact ⟨[], _, by rw [hp, fields_word_pipe hw hword]⟩
        · have hsp : isSpace d = true := by
            have h0 := h.nonzero d (by simp)
            simpa [isWord, h0, hp] using hd
          obtain ⟨f, fs, hf⟩ := List.exists_cons_of_ne_nil (fields_ne_nil r')
          exact ⟨f, fs, by rw [fields_word_space hw hword hsp, hf]; rfl⟩
    obtain ⟨ws, rest, hf⟩ := hhead
    have hbad := h.long hf (by simp) hlong
    exact .ret (.reject h.text_stop hbad.1 hbad.2)
  · have hlt : cur.length < maxArgs - 1 := by omega
    have hcur1 : cur.length + 1 < maxArgs := Nat.lt_of_le_of_lt hlt (by decide)
    rw [if_neg hlong, ends_bind, ends_putArg h.few h.cur_lt, ends_bind]
    rcases hr with rfl | ⟨d, r', rfl, hd⟩
    · -- the word ends the line
      rw [List.append_nil] at h
      refine skip_spec 0#8 tail rfl h.text hword (by omega) ?_
      have h1 := h.word_end hword hw hlt
      rw [ends_bind, ends_charAt h1.text, if_pos rfl]
      have hnext := ih h1 (by simp; omega)
      rwa [List.length_append, List.length_singleton] at hnext
    · have h0 : d ≠ 0#8 := h.nonzero d (by simp)
      rw [List.length_cons] at hfuel
      have htext : m.line.drop p = w ++ d :: (r' ++ 0#8 :: tail) := by simpa using h.text
      have htext' : (m.arg done.length cur.length (some p)).line.drop (p + w.length) =
          d :: (r' ++ 0#8 :: tail) := by
        show m.line.drop (p + w.length) = _
        rw [← List.drop_drop, htext, List.drop_left]
      refine skip_spec d _ hd htext hword (by omega) ?_
      rw [ends_bind, ends_charAt htext', if_neg h0, ends_bind, ends_putChar htext']
      by_cases hp : d = pipeChar
      · -- it ends in a pipe
        subst hp
        rw [if_pos rfl, ends_bind, ends_putArg h.few hcur1]
        by_cases hfull : maxCommands ≤ done.length + 1
        · rw [if_pos hfull]
          have hbad := h.full (fields_word_pipe hw hword r') hfull
          refine .ret (.reject ?_ hbad.1 hbad.2)
          have hcut := (h.word_cut hword hw).1
          have hstop := h.stop
          rw [List.length_append, List.length_cons] at hstop
          have : n = p + w.length + 1 + r'.length := by omega
          rw [this, ← List.drop_drop]
          show List.drop r'.length (((m.arg done.length cur.length (some p)).put
            (p + w.length) 0#8).line.drop (p + w.length + 1)) = _
          rw [hcut, List.drop_left]
        · rw [if_neg hfull]
          have hnext := ih (h.word_pipe hword hw hlt (by omega)) (by omega)
          rwa [List.length_append, List.length_singleton] at hnext
      · -- it ends in white space
        have hsp : isSpace d = true := by simpa [isWord, h0, hp] using hd
        rw [if_neg hp]
        have hnext := ih (h.word_space hword hw hsp hlt) (by omega)
        rwa [List.length_append, List.length_singleton] at hnext

end

/-- The loop, by induction on the fuel: each round skips white space and then takes the
end of the line, a pipe, or a word. -/
theorem parseLoop_spec (fs : List (List (List Byte))) (n : Nat) (tail : List Byte) (fuel : Nat) :
    LoopOk fs n tail fuel := by
  induction fuel with
  | zero => exact fun _ hfuel => absurd hfuel (by omega)
  | succ fuel ih =>
    intro m done cur p r h hfuel
    obtain ⟨ws, r', rfl, hws, hr'⟩ := span_cases isSpace r
    rw [List.length_append] at hfuel
    have h' := h.spaces hws
    rw [parseLoop, ends_bind]
    rcases hr' with rfl | ⟨c, r'', rfl, hc⟩
    · refine skip_spec 0#8 tail rfl (by simpa using h.text) hws (by omega) ?_
      rw [ends_bind, ends_charAt h'.text, if_pos rfl]
      exact h'.at_end
    · have hne : c ≠ 0#8 := h'.nonzero c List.mem_cons_self
      rw [List.length_cons] at hfuel
      refine skip_spec c (r'' ++ 0#8 :: tail) hc (by simpa using h.text) hws (by omega) ?_
      rw [ends_bind, ends_charAt h'.text, if_neg hne]
      by_cases hpipe : c = pipeChar
      · subst hpipe
        rw [if_pos rfl]
        exact h'.at_pipe ih (by omega)
      · rw [if_neg hpipe]
        obtain ⟨w, r2, hr, hword, hr2⟩ := span_cases isWord (c :: r'')
        have hw : w ≠ [] := by
          -- the first byte is one of a word
          have hcw : isWord c = true := isWord_iff.mpr ⟨hne, hc, hpipe⟩
          rintro rfl
          rcases hr2 with rfl | ⟨d, r3, rfl, hd⟩
          · exact absurd hr (by simp)
          · rw [List.nil_append] at hr
            rw [(List.cons.inj hr).1, hd] at hcw
            exact absurd hcw (by simp)
        have hlen := congrArg List.length hr
        rw [List.length_cons, List.length_append] at hlen
        rw [hr] at h'
        exact h'.at_word ih hw hword hr2 (by omega)

/-- `parse_pipeline` on a terminated line, with anything behind the line and in `cmds`:
it returns without a fault; the result is 0 for white space, the number of commands
for a well-formed line, and -1 otherwise; the arguments are the words of the commands,
each followed by a null pointer; and the NUL and what is behind it are as before. -/
theorem parse_pipeline_exact {line : List Byte} (h : ∀ c ∈ line, c ≠ 0#8) (tail : List Byte)
    (argv : Nat → Nat → Option Nat) :
    ∃ ret m, parsePipeline.run { line := line ++ 0#8 :: tail, argv := argv } = .ok (ret, m) ∧
      (ret = 0 ↔ ∀ c ∈ line, isSpace c = true) ∧
      (∀ k : Nat, 0 < k → (ret = k ↔ (fields line).length = k ∧ WellFormed (fields line))) ∧
      (ret = -1 ↔ (¬ ∀ c ∈ line, isSpace c = true) ∧ ¬ WellFormed (fields line)) ∧
      (0 < ret → ∀ i (hi : i < (fields line).length),
        (∀ j (hj : j < (fields line)[i].length),
          ∃ p, m.argv i j = some p ∧ cstr m.line p = (fields line)[i][j]) ∧
        m.argv i (fields line)[i].length = none) ∧
      m.line.length = (line ++ 0#8 :: tail).length ∧ m.line.drop line.length = 0#8 :: tail := by
  have hstart : Parsing (fields line) line.length tail
      { line := line ++ 0#8 :: tail, argv := fun _ _ => none } [] [] 0 line := by
    refine ⟨rfl, by simp, h, ?_, by decide, by simp, by simp, fun i hi => absurd hi (by simp),
      fun j hj => absurd hj (by simp)⟩
    obtain ⟨f, fs, hf⟩ := List.exists_cons_of_ne_nil (fields_ne_nil line)
    simp [hf]
  have hrun : Ends parsePipeline { line := line ++ 0#8 :: tail, argv := argv }
      (Outcome (fields line) line.length tail) := by
    rw [parsePipeline, ends_bind, ends_get, ends_bind, ends_modify]
    exact parseLoop_spec _ _ _ _ hstart (by rw [List.length_append, List.length_cons]; omega)
  obtain ⟨ret, m, hok, hout⟩ := hrun.exists_ok
  have hblank : fields line = [[]] ↔ ∀ c ∈ line, isSpace c = true := fields_eq_blank
  -- blank lines are not well-formed
  have hnot : fields line = [[]] → ¬ WellFormed (fields line) := by
    intro heq hw
    rw [heq] at hw
    exact absurd (hw.2 [] (by simp)).1 (by simp)
  have hpos := List.length_pos_iff.mpr (fields_ne_nil line)
  refine ⟨ret, m, hok, ?_, fun k hk => ?_, ?_, fun hret => ?_, ?_, hout.text⟩
  · rw [← hblank]
    rcases hout.ret with ⟨hr, hf⟩ | ⟨hr, hw, -⟩ | ⟨hr, hf, -⟩
    · simp [hr, hf]
    · exact ⟨fun h0 => by omega, fun hf => absurd hw (hnot hf)⟩
    · simp [hr, hf]
  · rcases hout.ret with ⟨hr, hf⟩ | ⟨hr, hw, -⟩ | ⟨hr, -, hw⟩
    · exact ⟨fun h0 => by omega, fun hw => absurd hw.2 (hnot hf)⟩
    · exact ⟨fun h0 => ⟨by omega, hw⟩, fun hw => by omega⟩
    · exact ⟨fun h0 => by omega, fun hw' => absurd hw'.2 hw⟩
  · rw [← hblank]
    rcases hout.ret with ⟨hr, hf⟩ | ⟨hr, hw, -⟩ | ⟨hr, hf, hw⟩
    · simp [hr, hf]
    · exact ⟨fun h0 => by omega, fun hf => absurd hw hf.2⟩
    · simp [hr, hf, hw]
  · have hrows : Rows m line.length (fields line) := by
      rcases hout.ret with ⟨hr, -⟩ | ⟨-, -, hrows⟩ | ⟨hr, -⟩
      · omega
      · exact hrows
      · omega
    intro i hi
    refine ⟨fun j hj => ?_, (hrows i hi).2⟩
    obtain ⟨p, hp, hheld⟩ := (hrows i hi).1 j hj
    exact ⟨p, hp, hheld.cstr⟩
  · have hlen := congrArg List.length hout.text
    rw [List.length_drop, List.length_cons] at hlen
    rw [List.length_append, List.length_cons]
    omega

/-- The line `ls|wc`. -/
theorem parse_pipeline_exact_ls_wc :
    let line : List Byte := [108#8, 115#8, 124#8, 119#8, 99#8]
    (∀ c ∈ line, c ≠ 0#8) ∧
      ∃ ret m, parsePipeline.run { line := line ++ 0#8 :: [], argv := fun _ _ => none } =
        .ok (ret, m) ∧ ret = 2 := by
  intro line
  have hline : ∀ c ∈ line, c ≠ 0#8 := by decide
  have hfields : fields line = [[[108#8, 115#8]], [[119#8, 99#8]]] := by decide
  have hwell : WellFormed (fields line) := by
    rw [hfields]
    exact ⟨by decide, by decide⟩
  obtain ⟨ret, m, hrun, -, hret, -⟩ := parse_pipeline_exact hline [] fun _ _ => none
  exact ⟨hline, ret, m, hrun, (hret 2 (by decide)).mpr ⟨by rw [hfields]; rfl, hwell⟩⟩

end Xv6.Mysh
