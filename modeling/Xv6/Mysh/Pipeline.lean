import Xv6.Fd

/-!
# Xv6.Mysh.Pipeline

`run_pipeline` of `mysh.c`: start the commands of a pipeline, each with its standard input
and output connected to its neighbours, and wait for them.

Which calls of `pipe` and `fork` succeed is a parameter; a `pipe` may also fail because
the table is full. A forked child is recorded with the descriptors it has when it calls
`exec`. Between two rounds the shell holds one descriptor of its own, the read end of the
last pipe (`Carry`), and every way out of the loop closes it.
-/

namespace Xv6.Mysh

open Function (update update_self update_of_ne update_eq_self update_apply update_idem)

/-! ### The program -/

/-- A file: an end of the pipe made in round `k`, or one that was open before. -/
inductive PFile
  | other (n : Nat)
  | read (k : Nat)
  | write (k : Nat)
  deriving DecidableEq

/-- The descriptors of a process. -/
abbrev Fds := OFile PFile

/-- The shell inside `run_pipeline`. -/
structure Shell where
  ofile : Fds
  /-- `previous_read`. -/
  previousRead : Int
  children : Nat
  /-- How often `wait` has been called. -/
  waits : Nat
  /-- The forked children: the number of the command, and the descriptors with which it
  calls `exec`, unless it exits before. -/
  forked : List (Nat × Option Fds)

/-- `if(fd >= 0) close(fd)`. -/
def closeOpen (t : Fds) (fd : Int) : Fds := if 0 ≤ fd then (sysClose t fd).2 else t

/-- `close(std); dup(fd)`, which is to open `fd` as `std`. -/
def redirect (t : Fds) (std fd : Int) : Option Fds :=
  let r := sysDup (sysClose t std).2 fd
  if r.1 < 0 then none else some r.2

/-- `close(pipefd[0]); close(pipefd[1])`, if there is a pipe. -/
def closeEnds (t : Fds) : Option (Fin nofile × Fin nofile) → Fds
  | some (r, w) => (sysClose (sysClose t r.val).2 w.val).2
  | none => t

/-- `close(1); dup(pipefd[1])`, if there is a pipe. -/
def redirectOut (t : Fds) : Option (Fin nofile × Fin nofile) → Option Fds
  | some (_, w) => redirect t 1 w.val
  | none => some t

/-- The child, up to `exec`. -/
def child (t : Fds) (previousRead : Int) (pipefd : Option (Fin nofile × Fin nofile)) :
    Option Fds :=
  (if 0 ≤ previousRead then redirect t 0 previousRead else some t).bind fun t =>
    (redirectOut t pipefd).map fun t => closeEnds (closeOpen t previousRead) pipefd

/-- Call `wait` for all children. -/
def Shell.reap (s : Shell) : Shell := { s with waits := s.waits + s.children, children := 0 }

/-- The pipe of round `i`, for all commands but the last. -/
def makePipe (ncmd : Nat) (pipeOk : Nat → Bool) (i : Nat) (t : Fds) :
    Bool × Option (Fin nofile × Fin nofile) × Fds :=
  if i < ncmd - 1 then
    let r := sysPipe t (if pipeOk i then some (.read i, .write i) else none)
    (r.1.isSome, r.1, r.2)
  else (true, none, t)

/-- The shell after it has forked the child of round `i`. -/
def Shell.advance (s : Shell) (pipefd : Option (Fin nofile × Fin nofile)) : Shell :=
  let t := closeOpen s.ofile s.previousRead
  match pipefd with
  | some (r, w) => { s with ofile := (sysClose t w.val).2, previousRead := r.val }
  | none => { s with ofile := t, previousRead := -1 }

/-- The loop of `run_pipeline`, with `todo` rounds left. -/
def runFrom (ncmd : Nat) (pipeOk forkOk : Nat → Bool) : Nat → Nat → Shell → Int × Shell
  | 0, _, s => (0, s.reap)
  | todo + 1, i, s =>
    let (ok, pipefd, t) := makePipe ncmd pipeOk i s.ofile
    if !ok then (-1, { s with ofile := closeOpen t s.previousRead }.reap)
    else if !forkOk i then
      (-1, { s with ofile := closeEnds (closeOpen t s.previousRead) pipefd }.reap)
    else
      runFrom ncmd pipeOk forkOk todo (i + 1)
        ({ s with
          ofile := t
          children := s.children + 1
          forked := s.forked ++ [(i, child t s.previousRead pipefd)] }.advance pipefd)

/-- `run_pipeline`. -/
def runPipeline (ncmd : Nat) (pipeOk forkOk : Nat → Bool) (t : Fds) : Int × Shell :=
  runFrom ncmd pipeOk forkOk ncmd 0
    { ofile := t, previousRead := -1, children := 0, waits := 0, forked := [] }

/-! ### Redirecting -/

/-- Standard input. -/
abbrev stdin : Fin nofile := ⟨0, by decide⟩

/-- Standard output. -/
abbrev stdout : Fin nofile := ⟨1, by decide⟩

theorem redirect_stdin {t : Fds} {r : Fin nofile} {f : PFile} (h0 : t stdin ≠ none)
    (hr : t r = some f) (hne : r ≠ stdin) :
    redirect t 0 r.val = some (update t stdin (some f)) := by
  have hclose : (sysClose t 0).2 = update t stdin none :=
    congrArg Prod.snd (sysClose_val (i := stdin) h0)
  have hdup : sysDup (update t stdin none) r.val = (0, update t stdin (some f)) := by
    rw [sysDup, argfd_val, update_of_ne hne, hr]
    dsimp only [Option.map_some]
    rw [fdalloc_zero (update_self ..), update_idem]
    rfl
  rw [redirect, hclose, hdup]
  rfl

theorem redirect_stdout {t : Fds} {w : Fin nofile} {f : PFile} (h0 : t stdin ≠ none)
    (h1 : t stdout ≠ none) (hw : t w = some f) (hne : w ≠ stdout) :
    redirect t 1 w.val = some (update t stdout (some f)) := by
  have hclose : (sysClose t 1).2 = update t stdout none :=
    congrArg Prod.snd (sysClose_val (i := stdout) h1)
  have hdup : sysDup (update t stdout none) w.val = (1, update t stdout (some f)) := by
    rw [sysDup, argfd_val, update_of_ne hne, hw]
    dsimp only [Option.map_some]
    rw [fdalloc_one (by rwa [update_of_ne (by decide)]) (update_self ..),
      update_idem]
    rfl
  rw [redirect, hclose, hdup]
  rfl

theorem closeOpen_val {t : Fds} {r : Fin nofile} (h : t r ≠ none) :
    closeOpen t r.val = update t r none := by
  rw [closeOpen, if_pos (by omega), sysClose_val h]

/-! ### The descriptor the shell carries along -/

/-- Before round `i` the shell's table is `t`, which is the table at entry, `t0`, with the
read end of pipe `i - 1` as `prev`. -/
inductive Carry (t0 : Fds) : Nat → Int → Fds → Prop
  | first : Carry t0 0 (-1) t0
  | next {i : Nat} {r : Fin nofile} : t0 r = none →
      Carry t0 (i + 1) r.val (update t0 r (some (.read i)))

/-- The shell has one more pipe open, the one of round `i`; `none` in the last round. -/
inductive Piped (t : Fds) (i : Nat) : Option (Fin nofile × Fin nofile) → Fds → Prop
  | last : Piped t i none t
  | pipe {r w : Fin nofile} : t r = none → t w = none → r ≠ w →
      Piped t i (some (r, w)) (update (update t r (some (.read i))) w (some (.write i)))

section
variable {t0 t t' : Fds} {i ncmd : Nat} {prev : Int} {pipefd : Option (Fin nofile × Fin nofile)}

theorem makePipe_cases (ncmd : Nat) (pipeOk : Nat → Bool) (i : Nat) (t : Fds) :
    (∃ fds, makePipe ncmd pipeOk i t = (false, fds, t)) ∨
      ∃ pipefd t', makePipe ncmd pipeOk i t = (true, pipefd, t') ∧ Piped t i pipefd t' ∧
        (pipefd = none ↔ ¬ i < ncmd - 1) := by
  unfold makePipe
  by_cases hi : i < ncmd - 1
  · rw [if_pos hi]
    rcases sysPipe_cases t (if pipeOk i then some (.read i, .write i) else none) with
      h | ⟨rf, wf, r, w, hfiles, hr, hw, hne, h⟩
    · exact .inl ⟨none, by rw [h]; rfl⟩
    · refine .inr ⟨some (r, w), _, by rw [h]; rfl, ?_, by simp [hi]⟩
      split at hfiles
      · obtain ⟨rfl, rfl⟩ := Prod.mk.inj (Option.some.inj hfiles)
        exact .pipe hr hw hne
      · exact absurd hfiles (by simp)
  · rw [if_neg hi]
    exact .inr ⟨none, t, rfl, .last, by simp [hi]⟩

theorem Carry.close (h : Carry t0 i prev t) (hp : Piped t i pipefd t') :
    Piped t0 i pipefd (closeOpen t' prev) := by
  cases h with
  | first =>
    rw [closeOpen, if_neg (by decide)]
    exact hp
  | @next i r hr =>
    cases hp with
    | last =>
      rw [closeOpen_val (by simp), update_idem, ← hr, update_eq_self]
      exact .last
    | @pipe r' w' hr' hw' hne =>
      have hrr : r' ≠ r := by
        rintro rfl
        simp at hr'
      have hwr : w' ≠ r := by
        rintro rfl
        simp at hw'
      rw [update_of_ne hrr] at hr'
      rw [update_of_ne hwr] at hw'
      have ht : closeOpen (update (update (update t0 r (some (.read i))) r'
          (some (.read (i + 1)))) w' (some (.write (i + 1)))) r.val =
          update (update t0 r' (some (.read (i + 1)))) w' (some (.write (i + 1))) := by
        rw [closeOpen_val (by simp [hrr.symm, hwr.symm])]
        funext fd
        simp only [update_apply]
        grind
      rw [ht]
      exact .pipe hr' hw' hne

theorem Piped.close (hp : Piped t0 i pipefd t') : closeEnds t' pipefd = t0 := by
  cases hp with
  | last => rfl
  | @pipe r w hr hw hne =>
    have hclose : (sysClose (update (update t0 r (some (.read i))) w (some (.write i))) r.val).2 =
        update t0 w (some (.write i)) := by
      rw [sysClose_val (by simp [hne])]
      funext fd
      simp only [update_apply]
      grind
    rw [closeEnds, hclose, sysClose_val (by simp), update_idem, ← hw,
      update_eq_self]

/-- What the shell carries into the next round. -/
theorem Piped.advance {s : Shell} (hp : Piped t0 i pipefd (closeOpen s.ofile s.previousRead)) :
    (pipefd = none → (s.advance pipefd).ofile = t0) ∧
      (pipefd ≠ none →
        Carry t0 (i + 1) (s.advance pipefd).previousRead (s.advance pipefd).ofile) := by
  generalize ht : closeOpen s.ofile s.previousRead = t at hp
  cases hp with
  | last => exact ⟨fun _ => ht, fun h => absurd rfl h⟩
  | @pipe r w hr hw hne =>
    refine ⟨fun h => absurd h (by simp), fun _ => ?_⟩
    have hofile : (s.advance (some (r, w))).ofile = update t0 r (some (.read i)) := by
      simp only [Shell.advance, ht]
      rw [sysClose_val (by simp)]
      funext fd
      simp only [update_apply]
      grind
    show Carry t0 (i + 1) r.val (s.advance (some (r, w))).ofile
    rw [hofile]
    exact .next hr

/-! ### The children -/

/-- Descriptors of the table at entry, with standard input and output replaced. -/
def wired (t0 : Fds) (input output : Option PFile) : Fds :=
  update (update t0 stdin input) stdout output

/-- What command `i` of `ncmd` should have open: the pipes on its two sides instead of
the standard input and output, where there are any. -/
def wanted (t0 : Fds) (ncmd i : Nat) : Fds :=
  wired t0 (if i = 0 then t0 stdin else some (.read (i - 1)))
    (if i < ncmd - 1 then some (.write i) else t0 stdout)

theorem Carry.redirect (h : Carry t0 i prev t) (hp : Piped t i pipefd t')
    (h0 : t0 stdin ≠ none) :
    (if 0 ≤ prev then Mysh.redirect t' 0 prev else some t') =
      some (update t' stdin (if i = 0 then t0 stdin else some (.read (i - 1)))) := by
  cases h with
  | first =>
    have hin : t' stdin = t0 stdin := by
      cases hp with
      | last => rfl
      | @pipe r w hr hw _ =>
        have hr' : stdin ≠ r := fun he => h0 (he ▸ hr)
        have hw' : stdin ≠ w := fun he => h0 (he ▸ hw)
        rw [update_of_ne hw', update_of_ne hr']
    rw [if_neg (by decide), if_pos rfl, ← hin, update_eq_self]
  | @next i r hr =>
    have hne : r ≠ stdin := fun he => h0 (he ▸ hr)
    rw [if_pos (by omega), if_neg (by omega), Nat.add_sub_cancel]
    cases hp with
    | last =>
      exact redirect_stdin (by rwa [update_of_ne hne.symm]) (by simp) hne
    | @pipe r' w' hr' hw' _ =>
      have hr1 : r ≠ r' := by
        rintro rfl
        simp at hr'
      have hw1 : r ≠ w' := by
        rintro rfl
        simp at hw'
      have hr2 : stdin ≠ r' := by
        rintro rfl
        rw [update_of_ne hne.symm] at hr'
        exact h0 hr'
      have hw2 : stdin ≠ w' := by
        rintro rfl
        rw [update_of_ne hne.symm] at hw'
        exact h0 hw'
      refine redirect_stdin ?_ ?_ hne
      · rwa [update_of_ne hw2, update_of_ne hr2,
          update_of_ne hne.symm]
      · rw [update_of_ne hw1, update_of_ne hr1, update_self]

/-- Closing a descriptor that is neither the standard input nor output. -/
theorem sysClose_wired {r : Fin nofile} {a b : Option PFile} (h0 : r ≠ stdin) (h1 : r ≠ stdout) :
    (sysClose (wired t a b) r.val).2 = wired (sysClose t r.val).2 a b := by
  have hr : wired t a b r = t r := by
    rw [wired, update_of_ne h1, update_of_ne h0]
  cases ht : t r with
  | none => simp [sysClose, argfd_val, hr, ht]
  | some f =>
    rw [sysClose_val (by simp [hr, ht]), sysClose_val (by simp [ht])]
    funext fd
    simp only [wired, update_apply]
    grind

/-- The descriptors carried and the ends of the new pipe are free in the table at entry. -/
theorem Carry.prev_free (h : Carry t0 i prev t) : prev = -1 ∨ ∃ r : Fin nofile,
    prev = r.val ∧ t0 r = none := by
  cases h with
  | first => exact .inl rfl
  | @next i r hr => exact .inr ⟨r, rfl, hr⟩

theorem Carry.free_of_free (h : Carry t0 i prev t) {fd : Fin nofile} (hfd : t fd = none) :
    t0 fd = none := by
  cases h with
  | first => exact hfd
  | @next i r hr =>
    by_cases he : fd = r
    · rw [he, hr]
    · rwa [update_of_ne he] at hfd

theorem Carry.closeOpen_wired {a b : Option PFile} (h : Carry t0 i prev t)
    (h0 : t0 stdin ≠ none) (h1 : t0 stdout ≠ none) :
    closeOpen (wired t' a b) prev = wired (closeOpen t' prev) a b := by
  rcases h.prev_free with rfl | ⟨r, rfl, hr⟩
  · rfl
  · rw [closeOpen, closeOpen, if_pos (by omega), if_pos (by omega)]
    exact sysClose_wired (fun he => h0 (he ▸ hr)) (fun he => h1 (he ▸ hr))

theorem Piped.closeEnds_wired {a b : Option PFile} (hp : Piped t0 i pipefd t')
    (h0 : t0 stdin ≠ none) (h1 : t0 stdout ≠ none) :
    closeEnds (wired t' a b) pipefd = wired t0 a b := by
  have hclose := hp.close
  cases hp with
  | last => rfl
  | pipe hr hw hne =>
    rw [closeEnds, sysClose_wired (fun he => h0 (he ▸ hr)) (fun he => h1 (he ▸ hr)),
      sysClose_wired (fun he => h0 (he ▸ hw)) (fun he => h1 (he ▸ hw))]
    rw [closeEnds] at hclose
    rw [hclose]

theorem Piped.stdout_eq (h : Carry t0 i prev t) (hp : Piped t i pipefd t')
    (h1 : t0 stdout ≠ none) : t' stdout = t0 stdout := by
  have ht : t stdout = t0 stdout := by
    cases h with
    | first => rfl
    | @next i r hr =>
      have hne : stdout ≠ r := fun he => h1 (he ▸ hr)
      rw [update_of_ne hne]
  cases hp with
  | last => exact ht
  | pipe hr hw hne =>
    have hfree : ∀ {fd}, t fd = none → stdout ≠ fd := fun hfd he => by
      rw [← he, ht] at hfd
      exact h1 hfd
    rw [update_of_ne (hfree hw), update_of_ne (hfree hr), ht]

/-- A forked child reaches `exec`, with the right descriptors. -/
theorem Carry.child (h : Carry t0 i prev t) (hp : Piped t i pipefd t')
    (hlast : pipefd = none ↔ ¬ i < ncmd - 1) (h0 : t0 stdin ≠ none) (h1 : t0 stdout ≠ none) :
    Mysh.child t' prev pipefd = some (wanted t0 ncmd i) := by
  have hout := hp.stdout_eq h h1
  have hp0 := h.close hp
  unfold Mysh.child wanted
  rw [h.redirect hp h0]
  -- whatever comes in, something does
  generalize ha : (if i = 0 then t0 stdin else some (PFile.read (i - 1))) = a
  have hin : update t' stdin a stdin ≠ none := by
    rw [update_self, ← ha]
    split
    · exact h0
    · simp
  have hfinal : ∀ b, closeEnds (closeOpen (wired t' a b) prev) pipefd = wired t0 a b := fun b => by
    rw [h.closeOpen_wired h0 h1, hp0.closeEnds_wired h0 h1]
  cases pipefd with
  | none =>
    have hwired : update t' stdin a = wired t' a (t0 stdout) := by
      rw [wired, ← hout, eq_comm, ← update_of_ne (show stdout ≠ stdin by decide) a t',
        update_eq_self]
    rw [if_neg (hlast.mp rfl), ← hfinal, ← hwired]
    rfl
  | some rw' =>
    obtain ⟨r, w⟩ := rw'
    have hi : i < ncmd - 1 := by
      by_contra hi
      exact absurd (hlast.mpr hi) (by simp)
    have hw : t' w = some (.write i) ∧ t0 w = none := by
      cases hp with
      | pipe hr hw hne => exact ⟨by simp, h.free_of_free hw⟩
    have hws : w ≠ stdin := fun he => h0 (he ▸ hw.2)
    have hwo : w ≠ stdout := fun he => h1 (he ▸ hw.2)
    have hred : Mysh.redirect (update t' stdin a) 1 w.val = some (wired t' a (some (.write i))) :=
      redirect_stdout hin (by rwa [update_of_ne (by decide), hout])
        (by rw [update_of_ne hws, hw.1]) hwo
    rw [if_pos hi, ← hfinal, Option.bind_some, redirectOut, hred]
    rfl

end

/-! ### The loop -/

/-- The state of the shell at the head of the loop, before round `i` of `ncmd`. -/
structure Wired (t0 : Fds) (ncmd i : Nat) (s : Shell) : Prop where
  carry : i < ncmd → Carry t0 i s.previousRead s.ofile
  done : ¬ i < ncmd → s.ofile = t0
  waits : s.waits = 0
  children : s.children = s.forked.length
  forked : ∀ c ∈ s.forked, c.1 < ncmd ∧ c.2 = some (wanted t0 ncmd c.1)

/-- How `run_pipeline` leaves the shell. -/
structure CleanedUp (t0 : Fds) (ncmd : Nat) (s : Shell) : Prop where
  ofile : s.ofile = t0
  waits : s.waits = s.forked.length
  forked : ∀ c ∈ s.forked, c.1 < ncmd ∧ c.2 = some (wanted t0 ncmd c.1)

theorem Wired.reap {t0 t : Fds} {ncmd i : Nat} {s : Shell} (h : Wired t0 ncmd i s)
    (ht : t = t0) : CleanedUp t0 ncmd { s with ofile := t }.reap :=
  ⟨ht, by simp [Shell.reap, h.waits, h.children], h.forked⟩

theorem runFrom_cleanedUp {t0 : Fds} {ncmd : Nat} (pipeOk forkOk : Nat → Bool)
    (h0 : t0 stdin ≠ none) (h1 : t0 stdout ≠ none) (todo : Nat) :
    ∀ {i : Nat} {s : Shell}, i + todo = ncmd → Wired t0 ncmd i s →
      CleanedUp t0 ncmd (runFrom ncmd pipeOk forkOk todo i s).2 := by
  induction todo with
  | zero => exact fun hi h => h.reap (h.done (by omega))
  | succ todo ih =>
    intro i s hi h
    have hc := h.carry (by omega)
    rw [runFrom]
    rcases makePipe_cases ncmd pipeOk i s.ofile with
      ⟨fds, hpipe⟩ | ⟨pipefd, t', hpipe, hp, hlast⟩
    · -- no pipe
      rw [hpipe]
      refine h.reap ?_
      have := hc.close (.last (i := i))
      cases this
      rfl
    · rw [hpipe]
      dsimp only
      by_cases hfork : forkOk i = true
      · -- the parent goes on to the next round
        rw [if_neg (by simp), if_neg (by simp [hfork])]
        refine ih (by omega) ?_
        have hadv := Piped.advance (s := { s with
          ofile := t'
          children := s.children + 1
          forked := s.forked ++ [(i, Mysh.child t' s.previousRead pipefd)] }) (hc.close hp)
        have hsame : ∀ s' : Shell, (s'.advance pipefd).waits = s'.waits ∧
            (s'.advance pipefd).children = s'.children ∧
            (s'.advance pipefd).forked = s'.forked := by
          intro s'
          cases pipefd <;> exact ⟨rfl, rfl, rfl⟩
        refine ⟨fun hlt => hadv.2 ?_, fun hlt => hadv.1 ?_, ?_, ?_, ?_⟩
        · exact fun hn => hlast.mp hn (by omega)
        · exact hlast.mpr (by omega)
        · rw [(hsame _).1]
          exact h.waits
        · rw [(hsame _).2.1, (hsame _).2.2, List.length_append, h.children]
          rfl
        · rw [(hsame _).2.2]
          intro c hcm
          rcases List.mem_append.mp hcm with hcm | hcm
          · exact h.forked c hcm
          · rw [List.mem_singleton.mp hcm]
            exact ⟨by omega, hc.child hp hlast h0 h1⟩
      · rw [if_neg (by simp), if_pos (by simpa using hfork)]
        exact h.reap (hc.close hp).close

/-- `run_pipeline`, whatever `pipe` and `fork` do: the shell's descriptors are as before,
`wait` has been called once for each child, and each child reaches `exec` with the read
end of the pipe before it as standard input (its own standard input for the first), the
write end of the pipe after it as standard output (its own for the last), and no other
end of a pipe of this pipeline. -/
theorem run_pipeline_wires {ncmd : Nat} (pipeOk forkOk : Nat → Bool) {t0 : Fds} (hn : 1 ≤ ncmd)
    (hopen : ∀ fd : Fin nofile, fd.val ≤ 2 → t0 fd ≠ none)
    (hold : ∀ fd f, t0 fd = some f → ∃ n, f = .other n) :
    let s := (runPipeline ncmd pipeOk forkOk t0).2
    s.ofile = t0 ∧ s.waits = s.forked.length ∧
      ∀ i r, (i, r) ∈ s.forked → ∃ t, r = some t ∧
        t stdin = (if i = 0 then t0 stdin else some (.read (i - 1))) ∧
        t stdout = (if i = ncmd - 1 then t0 stdout else some (.write i)) ∧
        ∀ fd, fd ≠ stdin → fd ≠ stdout → ∀ k, t fd ≠ some (.read k) ∧ t fd ≠ some (.write k) := by
  have h0 := hopen stdin (by decide)
  have h1 := hopen stdout (by decide)
  have hstart : Wired t0 ncmd 0
      { ofile := t0, previousRead := -1, children := 0, waits := 0, forked := [] } :=
    ⟨fun _ => .first, fun _ => rfl, rfl, rfl, by simp⟩
  have hend := runFrom_cleanedUp pipeOk forkOk h0 h1 ncmd (by omega) hstart
  refine ⟨hend.ofile, hend.waits, fun i r hm => ⟨_, (hend.forked _ hm).2, ?_, ?_, ?_⟩⟩
  · simp [wanted, wired]
  · have hlt : i < ncmd := (hend.forked _ hm).1
    rw [wanted, wired, update_self]
    by_cases hi : i = ncmd - 1
    · rw [if_pos hi, if_neg (by omega)]
    · rw [if_neg hi, if_pos (by omega)]
  · intro fd hin hout k
    rw [wanted, wired, update_of_ne hout, update_of_ne hin]
    constructor <;> intro hf <;> obtain ⟨n, hn⟩ := hold fd _ hf <;> cases hn

/-- Three commands, with only the standard descriptors open, where the last `fork` fails. -/
theorem run_pipeline_wires_three :
    let t0 : Fds := fun fd => if fd.val ≤ 2 then some (.other fd.val) else none
    let s := (runPipeline 3 (fun _ => true) (fun i => i < 2) t0).2
    s.ofile = t0 ∧ s.waits = s.forked.length ∧ s.forked.length = 2 := by
  intro t0 s
  have hopen : ∀ fd : Fin nofile, fd.val ≤ 2 → t0 fd ≠ none := by
    intro fd hfd
    simp [t0, hfd]
  have hold : ∀ fd f, t0 fd = some f → ∃ n, f = .other n := by
    intro fd f hf
    simp only [t0] at hf
    split at hf
    · exact ⟨_, (Option.some.inj hf).symm⟩
    · exact absurd hf (by simp)
  have hmain := @run_pipeline_wires 3 (fun _ => true) (fun i => i < 2) t0 (by decide) hopen hold
  exact ⟨hmain.1, hmain.2.1, rfl⟩

end Xv6.Mysh
