import Xv6.Pipe

/-!
# Xv6.Console

The line discipline of the console: `consoleintr` and `consoleread` of `console.c`.

A step is a character that `consoleintr` handles, or what a process does in `consoleread` while it
holds `cons.lock`: from the start of the call, or from where it was asleep, to where it
sleeps again or returns.

Beside the state of the program there is a history. The first part of it is the input as a
user sees it: the line that is being edited (`pending`) and the text that has been entered
(`committed`); it knows nothing of the ring and its counters. The second part is what
the readers got: the characters taken from the ring, with the call that took each
(`consumed`), and the calls that have returned (`done`).
-/

namespace Xv6

open Function (update update_self update_of_ne)

/-! ### The program -/

/-- `INPUT_BUF`. -/
def inputBuf : Nat := 128

/-- `C('P')`. -/
def ctrlP : Byte := 16
/-- `C('U')`. -/
def ctrlU : Byte := 21
/-- `C('H')`. -/
def ctrlH : Byte := 8
/-- `'\x7f'`. -/
def del : Byte := 127
/-- `C('D')`. -/
def ctrlD : Byte := 4
def carriage : Byte := 13

/-- `input`. -/
structure Input where
  buf : Nat → Byte
  r : Word
  w : Word
  e : Word

namespace Input

/-- The ring, with everything that has not been read, committed or not. -/
def ring (x : Input) : Ring Byte 32 := ⟨x.buf, x.r, x.e⟩

theorem sub_one_lt {e w : Word} (h : e ≠ w) : (e - 1#32 - w).toNat < (e - w).toNat := by
  have hne : (e - w).toNat ≠ 0 := by
    intro hz
    refine h (BitVec.eq_of_toNat_eq ?_)
    have hlt := e.isLt
    have hlt' := w.isLt
    rw [BitVec.toNat_sub] at hz
    omega
  have hcomm : e - 1#32 - w = e - w - 1#32 := by
    rw [BitVec.sub_eq_add_neg, BitVec.sub_eq_add_neg, BitVec.sub_eq_add_neg, BitVec.sub_eq_add_neg,
      BitVec.add_assoc, BitVec.add_comm (-1#32), ← BitVec.add_assoc]
  rw [hcomm, BitVec.toNat_sub_of_le]
  · have h1 : (1#32).toNat = 1 := rfl
    omega
  · rw [BitVec.le_def]
    have h1 : (1#32).toNat = 1 := rfl
    omega

/-- The loop of `C('U')`. -/
def killLine (x : Input) : Input :=
  if x.e ≠ x.w ∧ x.buf ((x.e - 1#32).toNat % inputBuf) ≠ newline then
    killLine { x with e := x.e - 1#32 }
  else x
termination_by (x.e - x.w).toNat
decreasing_by exact sub_one_lt (by tauto)

/-- The `default` case: a character that is not for editing. -/
def enter (x : Input) (c : Byte) : Input :=
  if c ≠ 0 ∧ (x.e - x.r).toNat < inputBuf then
    let c := if c = carriage then newline else c
    let y := { x with buf := update x.buf (x.e.toNat % inputBuf) c, e := x.e + 1#32 }
    if c = newline ∨ c = ctrlD ∨ y.e = y.r + BitVec.ofNat 32 inputBuf then { y with w := y.e }
    else y
  else x

/-- `consoleintr` for one character. -/
def consoleintr (x : Input) (c : Byte) : Input :=
  if c = ctrlP then x
  else if c = ctrlU then x.killLine
  else if c = ctrlH ∨ c = del then
    if x.e ≠ x.w then { x with e := x.e - 1#32 } else x
  else x.enter c

end Input

/-- How a part of `consoleread` ends. -/
inductive ReadEnd
  /-- There is no more room: `n == 0`. -/
  | full
  /-- A newline. -/
  | line
  /-- A `^D` as the first character. -/
  | eof
  /-- A `^D` after other characters; it has been put back. -/
  | saved
  /-- `return -1`. -/
  | killed
  /-- `sleep(&input.r, &cons.lock)`. -/
  | asleep
  deriving DecidableEq

/-- The input, `n`, and the characters stored to `dst`, at the end of a part of `consoleread`. -/
structure ReadPart where
  input : Input
  n : Nat
  got : List Byte
  stop : ReadEnd

/-- The loop of `consoleread`, with `n` characters to go of `target`. -/
def Input.consoleread (killed : Bool) (target : Nat) : Nat → Input → ReadPart
  | 0, x => ⟨x, 0, [], .full⟩
  | n + 1, x =>
    if x.r = x.w then
      if killed = true then ⟨x, n + 1, [], .killed⟩ else ⟨x, n + 1, [], .asleep⟩
    else
      let c := x.buf (x.r.toNat % inputBuf)
      let y := { x with r := x.r + 1#32 }
      if c = ctrlD then
        if n + 1 < target then ⟨{ y with r := y.r - 1#32 }, n + 1, [], .saved⟩
        else ⟨y, n + 1, [], .eof⟩
      else if c = newline then ⟨y, n, [c], .line⟩
      else
        let p := Input.consoleread killed target n y
        { p with got := c :: p.got }

/-- What a part of a call has taken from the ring. -/
def ReadPart.taken (p : ReadPart) : List Byte := if p.stop = .eof then p.got ++ [ctrlD] else p.got

/-! ### The input as the user sees it -/

/-- What has been entered, and what is being edited. -/
structure Typed where
  committed : List Byte
  pending : List Byte

/-- A character is typed, when `taken` characters have been read. -/
def Typed.type (t : Typed) (taken : Nat) (c : Byte) : Typed :=
  if c = ctrlP then t
  else if c = ctrlU then { t with pending := [] }
  else if c = ctrlH ∨ c = del then { t with pending := t.pending.dropLast }
  else if c ≠ 0 ∧ t.committed.length + t.pending.length < taken + inputBuf then
    let c := if c = carriage then newline else c
    let line := t.pending ++ [c]
    if c = newline ∨ c = ctrlD ∨ t.committed.length + line.length = taken + inputBuf then
      ⟨t.committed ++ line, []⟩
    else ⟨t.committed, line⟩
  else t

/-! ### The system -/

/-- A call of `consoleread`, with its number and the characters that it has stored. -/
structure ConsCall where
  id : Nat
  target : Nat
  n : Nat
  got : List Byte

/-- A call that has returned, when so many characters had been taken. -/
structure ReadDone where
  id : Nat
  target : Nat
  bytes : List Byte
  stop : ReadEnd
  upto : Nat

/-- What it returned. -/
def ReadDone.ret (d : ReadDone) : Int := if d.stop = .killed then -1 else d.bytes.length

/-- The console, the processes that read from it, and the history. -/
structure Console (P : Type) where
  input : Input
  call : P → Option ConsCall
  /-- The number of calls so far. -/
  calls : Nat
  typed : Typed
  consumed : List (Nat × Byte)
  done : List ReadDone

inductive ConsLabel (P : Type)
  | intr (c : Byte)
  | read (p : P) (n : Nat)
  | run (p : P) (killed : Bool)

namespace Console

variable {P : Type} [DecidableEq P]

/-- A call goes on: it is asleep again, or it returns. -/
def go (x : Console P) (p : P) (c : ConsCall) (part : ReadPart) : Console P :=
  let consumed := x.consumed ++ part.taken.map fun b => (c.id, b)
  { x with
    input := part.input
    consumed := consumed
    call := update x.call p
      (if part.stop = .asleep then some { c with n := part.n, got := c.got ++ part.got } else none)
    done := if part.stop = .asleep then x.done
      else x.done ++ [⟨c.id, c.target, c.got ++ part.got, part.stop, consumed.length⟩] }

inductive Step : Console P → ConsLabel P → Console P → Prop
  | intr (x : Console P) (c : Byte) : Step x (.intr c)
      { x with input := x.input.consoleintr c, typed := x.typed.type x.consumed.length c }
  | read (x : Console P) (p : P) (n : Nat) (h : x.call p = none) : Step x (.read p n)
      { x with call := update x.call p (some ⟨x.calls, n, n, []⟩), calls := x.calls + 1 }
  | run (x : Console P) (p : P) (killed : Bool) (c : ConsCall) (h : x.call p = some c) :
      Step x (.run p killed) (x.go p c (x.input.consoleread killed c.target c.n))

end Console

/-! ### The ring holds what was typed -/

theorem inputBuf_dvd : inputBuf ∣ 2 ^ 32 := by decide

theorem inputBuf_lt : inputBuf < 2 ^ 32 := by decide

theorem counter_eq_iff {m n : Nat} (hle : m ≤ n) (hlt : n < m + 2 ^ 32) :
    BitVec.ofNat 32 m = BitVec.ofNat 32 n ↔ m = n := by
  refine ⟨fun h => ?_, fun h => by rw [h]⟩
  have hmod := congrArg BitVec.toNat h
  rw [BitVec.toNat_ofNat, BitVec.toNat_ofNat] at hmod
  omega

/-- The ring has the text that is entered or being edited, but for the part that was read. -/
structure Input.Has (x : Input) (t : Typed) (got : List Byte) : Prop where
  ring : x.ring.Holds inputBuf (t.committed ++ t.pending) got
  w : x.w = BitVec.ofNat 32 t.committed.length
  le : got.length ≤ t.committed.length
  plain : newline ∉ t.pending

namespace Input.Has

variable {x : Input} {t : Typed} {got : List Byte} {c : Byte}

section
variable (h : x.Has t got)
include h

theorem bound : t.committed.length + t.pending.length ≤ got.length + inputBuf := by
  have hb := h.ring.bound
  rwa [List.length_append] at hb

theorem r_eq : x.r = BitVec.ofNat 32 got.length := h.ring.nread

theorem e_eq : x.e = BitVec.ofNat 32 (t.committed.length + t.pending.length) := by
  rw [← List.length_append]
  exact h.ring.nwrite

theorem r_eq_w : x.r = x.w ↔ got.length = t.committed.length := by
  have hb := h.bound
  have hlt := inputBuf_lt
  rw [h.r_eq, h.w, counter_eq_iff h.le (by omega)]

theorem w_eq_e : x.w = x.e ↔ t.pending = [] := by
  have hb := h.bound
  have hle := h.le
  have hlt := inputBuf_lt
  rw [h.w, h.e_eq, counter_eq_iff (Nat.le_add_right _ _) (by omega), ← List.length_eq_zero_iff]
  omega

/-- What was read is the first part of what was entered. -/
theorem taken : got <+: t.committed :=
  List.prefix_of_prefix_length_le h.ring.taken (List.prefix_append ..) h.le

theorem erase {l : List Byte} {a : Byte} (hp : t.pending = l ++ [a]) :
    Input.Has { x with e := x.e - 1#32 } { t with pending := l } got := by
  have hring := h.ring
  rw [hp, ← List.append_assoc] at hring
  refine ⟨hring.unput ?_, h.w, h.le, fun hmem => h.plain ?_⟩
  · have hle := h.le
    rw [List.length_append]
    omega
  · rw [hp]
    exact List.mem_append_left _ hmem

theorem back_eq {l : List Byte} {a : Byte} (hp : t.pending = l ++ [a]) :
    x.buf ((x.e - 1#32).toNat % inputBuf) = a := by
  have hring := h.ring
  rw [hp, ← List.append_assoc] at hring
  refine hring.back_eq inputBuf_dvd ?_
  have hle := h.le
  rw [List.length_append]
  omega

theorem killLine : x.killLine.Has { t with pending := [] } got := by
  obtain ⟨committed, pending⟩ := t
  -- one character after the other, from the end
  induction pending using List.reverseRecOn generalizing x with
  | nil =>
    rw [Input.killLine, if_neg fun hk => hk.1 (h.w_eq_e.mpr rfl).symm]
    exact h
  | append_singleton l a ih =>
    have hne : x.e ≠ x.w := fun he => by simpa using h.w_eq_e.mp he.symm
    have ha : a ≠ newline := fun he => h.plain (by simp [he])
    rw [Input.killLine, if_pos ⟨hne, by rw [h.back_eq rfl]; exact ha⟩]
    exact ih (h.erase rfl)

theorem backspace :
    (if x.e ≠ x.w then { x with e := x.e - 1#32 } else x).Has
      { t with pending := t.pending.dropLast } got := by
  rcases List.eq_nil_or_concat t.pending with hnil | ⟨l, a, hp⟩
  · rw [if_neg (not_not.mpr (h.w_eq_e.mpr hnil).symm), hnil]
    rw [List.dropLast_nil, ← hnil]
    exact h
  · have hne : x.e ≠ x.w := by
      intro he
      rw [h.w_eq_e.mp he.symm] at hp
      simp at hp
    rw [if_pos hne, hp, List.concat_eq_append, List.dropLast_concat]
    exact h.erase (hp.trans List.concat_eq_append)

theorem store (hroom : t.committed.length + t.pending.length < got.length + inputBuf) :
    (Ring.store x.ring inputBuf c).Holds inputBuf (t.committed ++ (t.pending ++ [c])) got := by
  rw [← List.append_assoc]
  refine h.ring.store inputBuf_dvd inputBuf_lt fun hfull => ?_
  have hlen := (h.ring.full_iff inputBuf_lt).mp hfull
  rw [List.length_append] at hlen
  omega

theorem enter (hP : c ≠ ctrlP) (hU : c ≠ ctrlU) (hH : ¬ (c = ctrlH ∨ c = del)) :
    (x.enter c).Has (t.type got.length c) got := by
  have hsub : (x.e - x.r).toNat = t.committed.length + t.pending.length - got.length := by
    have hs := h.ring.sub_toNat inputBuf_lt
    rwa [List.length_append] at hs
  have hle := h.le
  rw [Input.enter, Typed.type, if_neg hP, if_neg hU, if_neg hH]
  by_cases hroom : c ≠ 0 ∧ t.committed.length + t.pending.length < got.length + inputBuf
  · rw [if_pos hroom, if_pos ⟨hroom.1, by omega⟩]
    dsimp only
    generalize (if c = carriage then newline else c) = d
    have hring := h.store (c := d) hroom.2
    -- the ring is full exactly when there is no more room
    have hfull : x.e + 1#32 = x.r + BitVec.ofNat 32 inputBuf ↔
        t.committed.length + (t.pending ++ [d]).length = got.length + inputBuf := by
      have hiff := hring.full_iff inputBuf_lt
      rwa [List.length_append] at hiff
    by_cases hend : d = newline ∨ d = ctrlD ∨
        t.committed.length + (t.pending ++ [d]).length = got.length + inputBuf
    · rw [if_pos hend, if_pos (hend.imp_right (Or.imp_right hfull.mpr))]
      refine ⟨?_, hring.nwrite, ?_, List.not_mem_nil⟩
      · rw [List.append_nil]
        exact hring
      · rw [List.length_append]
        omega
    · rw [if_neg hend, if_neg fun he => hend (he.imp_right (Or.imp_right hfull.mp))]
      refine ⟨hring, h.w, hle, fun hmem => ?_⟩
      rcases List.mem_append.mp hmem with hmem | hmem
      · exact h.plain hmem
      · exact hend (.inl (List.mem_singleton.mp hmem).symm)
  · rw [if_neg hroom, if_neg fun hr => hroom ⟨hr.1, by omega⟩]
    exact h

theorem consoleintr (c : Byte) : (x.consoleintr c).Has (t.type got.length c) got := by
  rw [Input.consoleintr]
  by_cases hP : c = ctrlP
  · rw [Typed.type, if_pos hP, if_pos hP]
    exact h
  by_cases hU : c = ctrlU
  · rw [Typed.type, if_neg hP, if_pos hU, if_neg hP, if_pos hU]
    exact h.killLine
  by_cases hH : c = ctrlH ∨ c = del
  · rw [Typed.type, if_neg hP, if_neg hU, if_pos hH, if_neg hP, if_neg hU, if_pos hH]
    exact h.backspace
  · rw [if_neg hP, if_neg hU, if_neg hH]
    exact h.enter hP hU hH

theorem next (hne : x.r ≠ x.w) :
    Input.Has { x with r := x.r + 1#32 } t (got ++ [x.buf (x.r.toNat % inputBuf)]) := by
  have hlt : got.length ≠ t.committed.length := fun he => hne (h.r_eq_w.mpr he)
  have hle := h.le
  have hempty : ¬ x.ring.Empty := by
    intro he
    have hlen := (h.ring.empty_iff inputBuf_lt).mp he
    rw [List.length_append] at hlen
    omega
  refine ⟨h.ring.take inputBuf_dvd inputBuf_lt hempty, h.w, ?_, h.plain⟩
  rw [List.length_append, List.length_singleton]
  omega

end

end Input.Has

/-! ### A part of a call -/

/-- What a part of `consoleread` has done, with `n` characters to go of `target`. -/
structure ReadPart.Right (part : ReadPart) (t : Typed) (got : List Byte) (target n : Nat) :
    Prop where
  has : part.input.Has t (got ++ part.taken)
  left : part.got.length + part.n = n
  noEof : ctrlD ∉ part.got
  line : part.stop = .line → ∃ l, part.got = l ++ [newline] ∧ newline ∉ l
  noLine : part.stop ≠ .line → newline ∉ part.got
  full : part.stop = .full → part.n = 0
  eof : part.stop = .eof → target ≤ part.n
  /-- The `^D` is the next character. -/
  saved : part.stop = .saved →
    part.n < target ∧ t.committed[(got ++ part.taken).length]? = some ctrlD

theorem Input.Has.consoleread (killed : Bool) (target : Nat) {t : Typed} : ∀ (n : Nat) {x : Input}
    {got : List Byte}, x.Has t got → (x.consoleread killed target n).Right t got target n := by
  intro n
  induction n with
  | zero =>
    intro x got h
    refine ⟨?_, rfl, List.not_mem_nil, nofun, fun _ => List.not_mem_nil, fun _ => rfl, nofun, nofun⟩
    rw [show (Input.consoleread killed target 0 x).taken = [] from rfl, List.append_nil]
    exact h
  | succ n ih =>
    intro x got h
    rw [Input.consoleread]
    by_cases hempty : x.r = x.w
    · -- nothing to read
      have hright : ∀ stop, stop = .killed ∨ stop = .asleep →
          (⟨x, n + 1, [], stop⟩ : ReadPart).Right t got target (n + 1) := by
        intro stop hstop
        have htaken : (⟨x, n + 1, [], stop⟩ : ReadPart).taken = [] := by
          rcases hstop with rfl | rfl <;> rfl
        refine ⟨?_, Nat.zero_add _, List.not_mem_nil, ?_, fun _ => List.not_mem_nil, ?_, ?_, ?_⟩
        · rw [htaken, List.append_nil]
          exact h
        all_goals rcases hstop with rfl | rfl <;> nofun
      rw [if_pos hempty]
      split
      · exact hright _ (.inl rfl)
      · exact hright _ (.inr rfl)
    rw [if_neg hempty]
    dsimp only
    have hnext := h.next hempty
    generalize hc : x.buf (x.r.toNat % inputBuf) = c at hnext ⊢
    have hat : t.committed[got.length]? = some c := by
      have hpre := hnext.taken
      rw [List.prefix_iff_eq_take] at hpre
      have hlen : (got ++ [c]).length = got.length + 1 := by simp
      have hget : (got ++ [c])[got.length]? = some c := by simp
      rw [hpre, hlen, List.getElem?_take_of_lt (Nat.lt_succ_self _)] at hget
      exact hget
    by_cases hD : c = ctrlD
    · rw [if_pos hD]
      by_cases hsome : n + 1 < target
      · -- it is put back
        rw [if_pos hsome]
        have hback : ({ x with r := x.r + 1#32 - 1#32 } : Input) = x := by
          rw [BitVec.add_sub_cancel]
        refine ⟨?_, Nat.zero_add _, List.not_mem_nil, nofun, fun _ => List.not_mem_nil, nofun,
          nofun, fun _ => ⟨hsome, ?_⟩⟩
        · show Input.Has { x with r := x.r + 1#32 - 1#32 } t (got ++ [])
          rw [hback, List.append_nil]
          exact h
        · show t.committed[(got ++ []).length]? = some ctrlD
          rw [List.append_nil, hat, hD]
      · rw [if_neg hsome]
        refine ⟨?_, Nat.zero_add _, List.not_mem_nil, nofun, fun _ => List.not_mem_nil, nofun,
          fun _ => Nat.le_of_not_lt hsome, nofun⟩
        rw [hD] at hnext
        exact hnext
    rw [if_neg hD]
    by_cases hN : c = newline
    · rw [if_pos hN]
      refine ⟨hnext, Nat.add_comm _ _, ?_, fun _ => ⟨[], by rw [hN]; rfl, List.not_mem_nil⟩,
        fun hne => absurd rfl hne, nofun, nofun, nofun⟩
      rw [List.mem_singleton]
      exact Ne.symm hD
    · -- a character of the line, and what comes after it
      rw [if_neg hN]
      have hrest := ih hnext
      generalize Input.consoleread killed target n { x with r := x.r + 1#32 } = p at hrest ⊢
      have htaken : got ++ ({ p with got := c :: p.got } : ReadPart).taken =
          got ++ [c] ++ p.taken := by
        unfold ReadPart.taken
        dsimp only
        split <;> simp
      refine ⟨?_, ?_, ?_, fun hl => ?_, fun hl => ?_, hrest.full, hrest.eof, ?_⟩
      · rw [htaken]
        exact hrest.has
      · have hleft := hrest.left
        dsimp only
        rw [List.length_cons]
        omega
      · intro hmem
        rcases List.mem_cons.mp hmem with he | hmem
        · exact hD he.symm
        · exact hrest.noEof hmem
      · obtain ⟨l, hl, hl'⟩ := hrest.line hl
        refine ⟨c :: l, by dsimp only; rw [hl]; rfl, fun hmem => ?_⟩
        rcases List.mem_cons.mp hmem with he | hmem
        · exact hN he.symm
        · exact hl' hmem
      · intro hmem
        rcases List.mem_cons.mp hmem with he | hmem
        · exact hN he.symm
        · exact hrest.noLine hl hmem
      · rw [htaken]
        exact hrest.saved

/-! ### Whole runs -/

/-- What a call that has returned has done. -/
structure ReadDone.Right (d : ReadDone) (committed : List Byte) (consumed : List (Nat × Byte)) :
    Prop where
  bytes : bytesOf consumed d.id = if d.stop = .eof then d.bytes ++ [ctrlD] else d.bytes
  le : d.bytes.length ≤ d.target
  noEof : ctrlD ∉ d.bytes
  /-- It stops after a newline. -/
  line : d.stop = .line → ∃ l, d.bytes = l ++ [newline] ∧ newline ∉ l
  noLine : d.stop ≠ .line → newline ∉ d.bytes
  full : d.stop = .full → d.bytes.length = d.target
  /-- It has taken a `^D`, and nothing else. -/
  eof : d.stop = .eof → d.bytes = [] ∧ 0 < d.upto ∧ committed[d.upto - 1]? = some ctrlD
  /-- It stops before a `^D`, which is still there. -/
  saved : d.stop = .saved → d.bytes ≠ [] ∧ committed[d.upto]? = some ctrlD
  awake : d.stop ≠ .asleep

/-- A call that returns no characters has found a `^D` first. -/
theorem ReadDone.Right.ret_eq_zero {d : ReadDone} {committed : List Byte}
    {consumed : List (Nat × Byte)} (h : d.Right committed consumed) (hpos : 0 < d.target) :
    d.ret = 0 ↔ d.stop = .eof := by
  unfold ReadDone.ret
  constructor
  · intro hret
    split at hret
    · exact absurd hret (by decide)
    · next hk =>
        have hlen : d.bytes.length = 0 := by omega
        cases hs : d.stop with
        | full =>
          have hfull := h.full hs
          omega
        | line =>
          obtain ⟨l, hl, -⟩ := h.line hs
          rw [hl, List.length_append, List.length_singleton] at hlen
          omega
        | eof => rfl
        | saved => exact absurd (List.length_eq_zero_iff.mp hlen) (h.saved hs).1
        | killed => exact absurd hs hk
        | asleep => exact absurd hs h.awake
  · intro hs
    rw [if_neg (by rw [hs]; nofun), (h.eof hs).1]
    rfl

theorem ReadDone.Right.mono {d : ReadDone} {committed committed' : List Byte}
    {consumed consumed' : List (Nat × Byte)} (h : d.Right committed consumed)
    (hpre : committed <+: committed') (hsame : bytesOf consumed' d.id = bytesOf consumed d.id) :
    d.Right committed' consumed' := by
  have hget : ∀ {k : Nat} {b : Byte}, committed[k]? = some b → committed'[k]? = some b := by
    intro k b hk
    obtain ⟨l, rfl⟩ := hpre
    rw [List.getElem?_append_left (List.getElem?_eq_some_iff.mp hk).1, hk]
  exact { h with
    bytes := hsame.trans h.bytes
    eof := fun hs => ⟨(h.eof hs).1, (h.eof hs).2.1, hget (h.eof hs).2.2⟩
    saved := fun hs => ⟨(h.saved hs).1, hget (h.saved hs).2⟩ }

namespace Console

variable {P : Type} {x y : Console P}

/-- A call that is under way. -/
structure CallOk (x : Console P) (c : ConsCall) : Prop where
  id : c.id < x.calls
  bytes : bytesOf x.consumed c.id = c.got
  left : c.got.length + c.n = c.target
  noEof : ctrlD ∉ c.got
  noLine : newline ∉ c.got

structure Inv (x : Console P) : Prop where
  has : x.input.Has x.typed (x.consumed.map Prod.snd)
  call : ∀ {p c}, x.call p = some c → x.CallOk c
  once : ∀ {p q c c'}, x.call p = some c → x.call q = some c' → c.id = c'.id → p = q
  done : ∀ {d}, d ∈ x.done → d.id < x.calls ∧ d.Right x.typed.committed x.consumed
  returned : ∀ {d p c}, d ∈ x.done → x.call p = some c → d.id ≠ c.id
  ids : ∀ {e}, e ∈ x.consumed → e.1 < x.calls
  /-- A `^D` that was taken has ended its call. -/
  eofs : ∀ {i}, (i, ctrlD) ∈ x.consumed → ∃ d ∈ x.done, d.id = i ∧ d.stop = .eof

/-- Nothing has happened yet. -/
structure Fresh (x : Console P) : Prop where
  input : x.input.r = 0#32 ∧ x.input.w = 0#32 ∧ x.input.e = 0#32
  call : ∀ p, x.call p = none
  typed : x.typed = ⟨[], []⟩
  consumed : x.consumed = []
  done : x.done = []

theorem Fresh.inv (h : x.Fresh) : x.Inv := by
  have hnone : ∀ {p c}, x.call p ≠ some c := fun {p c} hp => by
    rw [h.call p] at hp
    cases hp
  refine ⟨⟨⟨?_, ?_, ?_, ?_, ?_⟩, ?_, ?_, ?_⟩, fun hp => absurd hp hnone, fun hp => absurd hp hnone,
    fun hd => ?_, fun _ hp => absurd hp hnone, fun he => ?_, fun he => ?_⟩
  all_goals simp_all [h.typed, h.consumed, h.done, h.input, Input.ring]

theorem typed_extends (t : Typed) (taken : Nat) (c : Byte) :
    t.committed <+: (t.type taken c).committed := by
  unfold Typed.type
  dsimp only
  split_ifs <;> first | exact List.prefix_rfl | exact List.prefix_append ..

theorem bytesOf_eq_nil {log : List (Nat × Byte)} {i : Nat} (h : ∀ e ∈ log, e.1 ≠ i) :
    bytesOf log i = [] := by
  rw [bytesOf, List.map_eq_nil_iff, List.filter_eq_nil_iff]
  intro e he
  simpa using h e he

theorem Inv.intr (h : x.Inv) (c : Byte) :
    Inv { x with input := x.input.consoleintr c, typed := x.typed.type x.consumed.length c } := by
  have hhas := h.has.consoleintr c
  rw [List.length_map] at hhas
  exact { h with
    has := hhas
    call := fun hp => { h.call hp with }
    done := fun hd => ⟨(h.done hd).1, (h.done hd).2.mono (typed_extends _ _ _) rfl⟩ }

variable [DecidableEq P]

theorem Inv.read (h : x.Inv) (p : P) (n : Nat) :
    Inv { x with call := update x.call p (some ⟨x.calls, n, n, []⟩), calls := x.calls + 1 } := by
  -- the new call has a number that no other call has
  have hold : ∀ {q c}, update x.call p (some ⟨x.calls, n, n, []⟩) q = some c →
      q = p ∧ c = ⟨x.calls, n, n, []⟩ ∨ x.call q = some c := by
    intro q c hq
    by_cases hqp : q = p
    · rw [hqp, update_self] at hq
      exact .inl ⟨hqp, (Option.some.inj hq).symm⟩
    · rw [update_of_ne hqp] at hq
      exact .inr hq
  refine ⟨h.has, fun {q c} hq => ?_, fun {q q' c c'} hq hq' hid => ?_, fun hd => ?_,
    fun {d q c} hd hq => ?_, fun he => Nat.lt_succ_of_lt (h.ids he), h.eofs⟩
  · rcases hold hq with ⟨-, rfl⟩ | hq
    · refine ⟨Nat.lt_succ_self _, ?_, Nat.zero_add _, List.not_mem_nil, List.not_mem_nil⟩
      exact bytesOf_eq_nil fun e he => Nat.ne_of_lt (h.ids he)
    · exact { h.call hq with id := Nat.lt_succ_of_lt (h.call hq).id }
  · rcases hold hq with ⟨hqp, rfl⟩ | hq <;> rcases hold hq' with ⟨hqp', rfl⟩ | hq'
    · rw [hqp, hqp']
    · have hlt := (h.call hq').id
      dsimp only at hid
      omega
    · have hlt := (h.call hq).id
      dsimp only at hid
      omega
    · exact h.once hq hq' hid
  · exact ⟨Nat.lt_succ_of_lt (h.done hd).1, (h.done hd).2⟩
  · have hlt := (h.done hd).1
    rcases hold hq with ⟨-, rfl⟩ | hq
    · exact Nat.ne_of_lt hlt
    · exact h.returned hd hq

omit [DecidableEq P] in
/-- The call that a part of it has ended. -/
theorem CallOk.returns {c : ConsCall} {part : ReadPart} {consumed : List (Nat × Byte)}
    {t : Typed} {got : List Byte} (h : x.CallOk c) (hpart : part.Right t got c.target c.n)
    (hstop : part.stop ≠ .asleep) (hbytes : bytesOf consumed c.id = c.got ++ part.taken) :
    ReadDone.Right ⟨c.id, c.target, c.got ++ part.got, part.stop, (got ++ part.taken).length⟩
      t.committed consumed := by
  have hleft := h.left
  have hleft' := hpart.left
  have hlen : (c.got ++ part.got).length + part.n = c.target := by
    rw [List.length_append]
    omega
  refine ⟨?_, ?_, ?_, fun hs => ?_, fun hs => ?_, fun hs => ?_, fun hs => ?_, fun hs => ?_, hstop⟩
  · rw [hbytes, ReadPart.taken]
    dsimp only
    split
    · rw [List.append_assoc]
    · rfl
  · dsimp only
    omega
  · intro hmem
    rcases List.mem_append.mp hmem with hmem | hmem
    · exact h.noEof hmem
    · exact hpart.noEof hmem
  · obtain ⟨l, hl, hl'⟩ := hpart.line hs
    refine ⟨c.got ++ l, by dsimp only; rw [hl, List.append_assoc], fun hmem => ?_⟩
    rcases List.mem_append.mp hmem with hmem | hmem
    · exact h.noLine hmem
    · exact hl' hmem
  · intro hmem
    rcases List.mem_append.mp hmem with hmem | hmem
    · exact h.noLine hmem
    · exact hpart.noLine hs hmem
  · have hn := hpart.full hs
    dsimp only
    omega
  · have hn := hpart.eof hs
    have hs' : part.stop = .eof := hs
    have hnil : c.got ++ part.got = [] := List.length_eq_zero_iff.mp (by omega)
    have htaken : part.taken = [ctrlD] := by
      rw [ReadPart.taken, if_pos hs', (List.append_eq_nil_iff.mp hnil).2, List.nil_append]
    have hpre := hpart.has.taken
    rw [htaken] at hpre ⊢
    refine ⟨hnil, by simp, ?_⟩
    obtain ⟨l, hl⟩ := hpre
    rw [← hl]
    simp
  · obtain ⟨hn, hget⟩ := hpart.saved hs
    refine ⟨fun hnil => ?_, hget⟩
    dsimp only at hnil
    rw [hnil, List.length_nil] at hlen
    omega

theorem Inv.run (h : x.Inv) {p : P} {c : ConsCall} (hp : x.call p = some c) (killed : Bool) :
    Inv (x.go p c (x.input.consoleread killed c.target c.n)) := by
  have hcall := h.call hp
  have hpart := Input.Has.consoleread killed c.target c.n h.has
  generalize x.input.consoleread killed c.target c.n = part at hpart
  have hmap : (x.consumed ++ part.taken.map fun b => (c.id, b)).map Prod.snd =
      x.consumed.map Prod.snd ++ part.taken := by
    rw [List.map_append, List.map_map]
    exact congrArg _ (List.map_id _)
  have hlen : (x.consumed ++ part.taken.map fun b => (c.id, b)).length =
      (x.consumed.map Prod.snd ++ part.taken).length := by
    rw [← hmap, List.length_map]
  have hself : bytesOf (x.consumed ++ part.taken.map fun b => (c.id, b)) c.id =
      c.got ++ part.taken := by
    rw [bytesOf_append, if_pos rfl, hcall.bytes]
  have hother : ∀ {i}, i ≠ c.id →
      bytesOf (x.consumed ++ part.taken.map fun b => (c.id, b)) i = bytesOf x.consumed i := by
    intro i hi
    rw [bytesOf_append, if_neg hi]
  have hids : ∀ {e}, e ∈ x.consumed ++ part.taken.map (fun b => (c.id, b)) → e.1 < x.calls := by
    intro e he
    rcases List.mem_append.mp he with he | he
    · exact h.ids he
    · obtain ⟨b, -, rfl⟩ := List.mem_map.mp he
      exact hcall.id
  have hdone : ∀ {d}, d ∈ x.done → d.id < x.calls ∧ d.Right x.typed.committed
      (x.consumed ++ part.taken.map fun b => (c.id, b)) := fun hd =>
    ⟨(h.done hd).1, (h.done hd).2.mono List.prefix_rfl (hother (h.returned hd hp))⟩
  have hhas : part.input.Has x.typed
      ((x.consumed ++ part.taken.map fun b => (c.id, b)).map Prod.snd) := hmap ▸ hpart.has
  -- the calls of the other processes
  have hothers : ∀ {q c'}, q ≠ p → x.call q = some c' → c'.id ≠ c.id ∧
      CallOk { x with consumed := x.consumed ++ part.taken.map fun b => (c.id, b) } c' := by
    intro q c' hqp hq
    have hne : c'.id ≠ c.id := fun he => hqp (h.once hq hp he)
    exact ⟨hne, { h.call hq with bytes := (hother hne).trans (h.call hq).bytes }⟩
  unfold go
  by_cases hstop : part.stop = .asleep
  · -- the same call goes on
    have htaken : part.taken = part.got := by rw [ReadPart.taken, if_neg (by rw [hstop]; nofun)]
    simp only [if_pos hstop]
    have hleft := hcall.left
    have hleft' := hpart.left
    have hcalls : ∀ {q c'},
        update x.call p (some { c with n := part.n, got := c.got ++ part.got }) q =
        some c' → q = p ∧ c' = { c with n := part.n, got := c.got ++ part.got } ∨
          q ≠ p ∧ x.call q = some c' := by
      intro q c' hq
      by_cases hqp : q = p
      · rw [hqp, update_self] at hq
        exact .inl ⟨hqp, (Option.some.inj hq).symm⟩
      · rw [update_of_ne hqp] at hq
        exact .inr ⟨hqp, hq⟩
    refine ⟨hhas, fun {q c'} hq => ?_, fun {q q' c1 c2} hq hq' hid => ?_, hdone,
      fun {d q c'} hd hq => ?_, hids, fun {i} he => ?_⟩
    · rcases hcalls hq with ⟨-, rfl⟩ | ⟨hqp, hq⟩
      · refine ⟨hcall.id, htaken ▸ hself, ?_, fun hmem => ?_, fun hmem => ?_⟩
        · dsimp only
          rw [List.length_append]
          omega
        · exact (List.mem_append.mp hmem).elim hcall.noEof hpart.noEof
        · exact (List.mem_append.mp hmem).elim hcall.noLine
            (hpart.noLine (by rw [hstop]; nofun))
      · exact { (hothers hqp hq).2 with }
    · rcases hcalls hq with ⟨hqp, rfl⟩ | ⟨hqp, hq⟩ <;>
        rcases hcalls hq' with ⟨hqp', rfl⟩ | ⟨hqp', hq'⟩
      · rw [hqp, hqp']
      · exact absurd hid.symm (hothers hqp' hq').1
      · exact absurd hid (hothers hqp hq).1
      · exact h.once hq hq' hid
    · rcases hcalls hq with ⟨-, rfl⟩ | ⟨-, hq⟩
      · have hne : d.id ≠ c.id := h.returned hd hp
        exact hne
      · exact h.returned hd hq
    · rcases List.mem_append.mp he with he | he
      · exact h.eofs he
      · obtain ⟨b, hb, hbe⟩ := List.mem_map.mp he
        rw [htaken, (Prod.mk.inj hbe).2] at hb
        exact absurd hb hpart.noEof
  · -- the call returns
    simp only [if_neg hstop]
    have hnew := hcall.returns hpart hstop hself
    have hcalls : ∀ {q c'}, update x.call p none q = some c' → q ≠ p ∧ x.call q = some c' := by
      intro q c' hq
      by_cases hqp : q = p
      · rw [hqp, update_self] at hq
        cases hq
      · rw [update_of_ne hqp] at hq
        exact ⟨hqp, hq⟩
    rw [← hlen] at hnew
    refine ⟨hhas, fun {q c'} hq => ?_, fun {q q' c1 c2} hq hq' hid => ?_, fun {d} hd => ?_,
      fun {d q c'} hd hq => ?_, hids, fun {i} he => ?_⟩
    · obtain ⟨hqp, hq⟩ := hcalls hq
      exact { (hothers hqp hq).2 with }
    · exact h.once (hcalls hq).2 (hcalls hq').2 hid
    · rcases List.mem_append.mp hd with hd | hd
      · exact hdone hd
      · rw [List.mem_singleton.mp hd]
        exact ⟨hcall.id, hnew⟩
    · obtain ⟨hqp, hq⟩ := hcalls hq
      rcases List.mem_append.mp hd with hd | hd
      · exact h.returned hd hq
      · rw [List.mem_singleton.mp hd]
        exact (hothers hqp hq).1.symm
    · rcases List.mem_append.mp he with he | he
      · obtain ⟨d, hd, hdi⟩ := h.eofs he
        exact ⟨d, List.mem_append_left _ hd, hdi⟩
      · -- only a call that ends with a `^D` takes one
        obtain ⟨b, hb, hbe⟩ := List.mem_map.mp he
        obtain ⟨hi, rfl⟩ := Prod.mk.inj hbe
        refine ⟨_, List.mem_append_right _ (List.mem_singleton_self _), hi, ?_⟩
        by_contra hne
        have htaken : part.taken = part.got := if_neg hne
        rw [htaken] at hb
        exact hpart.noEof hb

theorem Inv.step {l : ConsLabel P} (h : x.Inv) (hs : Step x l y) : y.Inv := by
  cases hs with
  | intr c => exact h.intr c
  | read p n hp => exact h.read p n
  | run p killed c hp => exact h.run hp killed

theorem Inv.runs {ls : List (ConsLabel P)} (h : x.Inv) (hrun : Trace Step x ls y) : y.Inv := by
  induction hrun with
  | nil _ => exact h
  | cons hs _ ih => exact ih (h.step hs)

end Console

/-- Editing moves the edit index and nothing else. -/
theorem Input.killLine_fields (x : Input) :
    x.killLine.buf = x.buf ∧ x.killLine.r = x.r ∧ x.killLine.w = x.w := by
  induction x using Input.killLine.induct with
  | case1 x hk ih =>
    rw [killLine, if_pos hk]
    exact ih
  | case2 x hk =>
    rw [killLine, if_neg hk]
    exact ⟨rfl, rfl, rfl⟩

theorem Input.editing_fields (x : Input) {c : Byte} (hc : c = ctrlU ∨ c = ctrlH ∨ c = del) :
    (x.consoleintr c).buf = x.buf ∧ (x.consoleintr c).r = x.r ∧ (x.consoleintr c).w = x.w := by
  have hP : c ≠ ctrlP := by rcases hc with rfl | rfl | rfl <;> decide
  rw [consoleintr, if_neg hP]
  rcases hc with rfl | hc
  · rw [if_pos rfl]
    exact x.killLine_fields
  · have hU : c ≠ ctrlU := by rcases hc with rfl | rfl <;> decide
    rw [if_neg hU, if_pos hc]
    split <;> exact ⟨rfl, rfl, rfl⟩

namespace Console

variable {P : Type} [DecidableEq P] {x y : Console P}

/-- The indices stay in order, and the text between `r` and `w` is what was entered and has not
been read; editing does not touch it. The readers get the text in the order in which it was
entered. Every read stops after a newline and before a `^D`, which a read of
its own then takes and returns 0. -/
theorem console_line_discipline {ls : List (ConsLabel P)} (hx : x.Fresh)
    (hrun : Trace Step x ls y) :
    ((y.input.w - y.input.r).toNat ≤ (y.input.e - y.input.r).toNat ∧
      (y.input.e - y.input.r).toNat ≤ inputBuf) ∧
    ((y.input.w - y.input.r).toNat = y.typed.committed.length - y.consumed.length ∧
      ∀ k b, y.consumed.length ≤ k → y.typed.committed[k]? = some b →
        y.input.buf (k % inputBuf) = b) ∧
    (∀ c, c = ctrlU ∨ c = ctrlH ∨ c = del → (y.input.consoleintr c).buf = y.input.buf ∧
      (y.input.consoleintr c).r = y.input.r ∧ (y.input.consoleintr c).w = y.input.w) ∧
    y.consumed.map Prod.snd <+: y.typed.committed ∧
    (∀ d ∈ y.done, d.Right y.typed.committed y.consumed ∧
      (0 < d.target → (d.ret = 0 ↔ d.stop = .eof))) ∧
    ∀ i, (i, ctrlD) ∈ y.consumed → ∃ d ∈ y.done, d.id = i ∧ d.stop = .eof := by
  have h := hx.inv.runs hrun
  have hle := h.has.le
  have hbound := h.has.bound
  rw [List.length_map] at hle hbound
  have he : (y.input.e - y.input.r).toNat =
      y.typed.committed.length + y.typed.pending.length - y.consumed.length := by
    have hs := h.has.ring.sub_toNat inputBuf_lt
    rwa [List.length_append, List.length_map] at hs
  have hw : (y.input.w - y.input.r).toNat = y.typed.committed.length - y.consumed.length := by
    have hlt := inputBuf_lt
    obtain ⟨k, hk⟩ := Nat.exists_eq_add_of_le hle
    rw [h.has.w, h.has.r_eq, List.length_map, hk, BitVec.ofNat_add, BitVec.add_comm,
      BitVec.add_sub_cancel, BitVec.toNat_ofNat, Nat.mod_eq_of_lt (by omega)]
    omega
  refine ⟨⟨by omega, by omega⟩, ⟨hw, fun k b hk hb => ?_⟩, fun c => y.input.editing_fields,
    h.has.taken, fun d hd => ⟨(h.done hd).2, (h.done hd).2.ret_eq_zero⟩, fun i => h.eofs⟩
  refine h.has.ring.data (by rw [List.length_map]; exact hk) ?_
  rw [List.getElem?_append_left (List.getElem?_eq_some_iff.mp hb).1, hb]

/-- The console before any input, with one reader. -/
def quiet : Console Unit := ⟨⟨fun _ => 0, 0#32, 0#32, 0#32⟩, fun _ => none, 0, ⟨[], []⟩, [], []⟩

/-- `a`, backspace, `b` and newline; the reader gets two characters. -/
theorem console_line_discipline_ab : ∃ y, Trace Step quiet
      [.intr 97, .intr 8, .intr 98, .intr 10, .read () 5, .run () false] y ∧
    y.typed.committed = [98, 10] ∧ y.consumed.map Prod.snd <+: y.typed.committed ∧
    y.done.map ReadDone.bytes = [[98, 10]] := by
  have hrun : Trace Step quiet
      [.intr 97, .intr 8, .intr 98, .intr 10, .read () 5, .run () false] _ :=
    .cons (.intr _ _) (.cons (.intr _ _) (.cons (.intr _ _) (.cons (.intr _ _)
      (.cons (.read _ _ _ rfl) (.cons (.run _ _ _ _ rfl) (.nil _))))))
  have hfresh : quiet.Fresh := ⟨⟨rfl, rfl, rfl⟩, fun _ => rfl, rfl, rfl, rfl⟩
  refine ⟨_, hrun, by decide, (console_line_discipline hfresh hrun).2.2.2.1, by decide⟩

end Console

end Xv6
