import Mathlib.Data.List.FinRange
import Mathlib.Logic.Function.Basic
import Mathlib.Tactic.Common

/-!
# Xv6.Fd

The descriptor table of a process and the system calls of `sysfile.c` that only work on
it: `fdalloc`, `sys_dup`, `sys_close` and the table part of `sys_pipe`. What a `struct
file` is does not matter here.
-/

namespace Xv6

open Function (update)

/-- `NOFILE`. -/
def nofile : Nat := 16

/-- `ofile`. -/
abbrev OFile (File : Type) := Fin nofile → Option File

variable {File : Type}

/-- `argfd`: an open descriptor and its file. -/
def argfd (t : OFile File) (fd : Int) : Option (Fin nofile × File) :=
  if h : 0 ≤ fd ∧ fd < nofile then
    let i : Fin nofile := ⟨fd.toNat, by omega⟩
    (t i).map fun f => (i, f)
  else none

/-- `fdalloc`: the lowest free descriptor. -/
def fdalloc (t : OFile File) (f : File) : Option (Fin nofile × OFile File) :=
  ((List.finRange nofile).find? fun i => (t i).isNone).map fun i => (i, update t i (some f))

/-- `sys_dup`. -/
def sysDup (t : OFile File) (fd : Int) : Int × OFile File :=
  match argfd t fd with
  | none => (-1, t)
  | some (_, f) =>
    match fdalloc t f with
    | none => (-1, t)
    | some (i, t') => (i.val, t')

/-- `sys_close`. -/
def sysClose (t : OFile File) (fd : Int) : Int × OFile File :=
  match argfd t fd with
  | none => (-1, t)
  | some (i, _) => (0, update t i none)

/-- `sys_pipe`, with the two files that `pipealloc` has made, if any: the descriptors of
the read and the write end. -/
def sysPipe (t : OFile File) (files : Option (File × File)) :
    Option (Fin nofile × Fin nofile) × OFile File :=
  match files with
  | none => (none, t)
  | some (rf, wf) =>
    match fdalloc t rf with
    | none => (none, t)
    | some (fd0, t1) =>
      match fdalloc t1 wf with
      | none => (none, update t1 fd0 none)
      | some (fd1, t2) => (some (fd0, fd1), t2)

/-! ### Reading the definitions -/

theorem argfd_val (t : OFile File) (i : Fin nofile) :
    argfd t i.val = (t i).map fun f => (i, f) := by
  have hi : (0 : Int) ≤ i.val ∧ (i.val : Int) < nofile := ⟨by omega, by have := i.isLt; omega⟩
  rw [argfd, dif_pos hi]
  simp

theorem argfd_inv {t : OFile File} {fd : Int} {i : Fin nofile} {f : File}
    (h : argfd t fd = some (i, f)) : t i = some f := by
  unfold argfd at h
  split at h
  · obtain ⟨g, hg, heq⟩ := Option.map_eq_some_iff.mp h
    obtain ⟨rfl, rfl⟩ := Prod.mk.inj heq
    exact hg
  · cases h

theorem fdalloc_inv {t t' : OFile File} {f : File} {i : Fin nofile}
    (h : fdalloc t f = some (i, t')) : t i = none ∧ t' = update t i (some f) := by
  obtain ⟨j, hj, heq⟩ := Option.map_eq_some_iff.mp h
  obtain ⟨rfl, rfl⟩ := Prod.mk.inj heq
  have hnone := List.find?_some hj
  exact ⟨by simpa using hnone, rfl⟩

theorem finRange_nofile : ∃ l, List.finRange nofile =
    ⟨0, by decide⟩ :: ⟨1, by decide⟩ :: l := ⟨_, rfl⟩

/-- `fdalloc` takes descriptor 0 if it is free. -/
theorem fdalloc_zero {t : OFile File} (h : t ⟨0, by decide⟩ = none) (f : File) :
    fdalloc t f = some (⟨0, by decide⟩, update t ⟨0, by decide⟩ (some f)) := by
  obtain ⟨l, hl⟩ := finRange_nofile
  rw [fdalloc, hl, List.find?_cons_of_pos (by rw [h]; rfl)]
  rfl

/-- `fdalloc` takes descriptor 1 if it is the lowest free one. -/
theorem fdalloc_one {t : OFile File} (h0 : t ⟨0, by decide⟩ ≠ none)
    (h1 : t ⟨1, by decide⟩ = none) (f : File) :
    fdalloc t f = some (⟨1, by decide⟩, update t ⟨1, by decide⟩ (some f)) := by
  obtain ⟨l, hl⟩ := finRange_nofile
  rw [fdalloc, hl, List.find?_cons_of_neg (by simpa using h0),
    List.find?_cons_of_pos (by rw [h1]; rfl)]
  rfl

theorem sysClose_val {t : OFile File} {i : Fin nofile} (h : t i ≠ none) :
    sysClose t i.val = (0, update t i none) := by
  obtain ⟨f, hf⟩ := Option.ne_none_iff_exists'.mp h
  simp [sysClose, argfd_val, hf]

/-- `pipe` either leaves the table as it was or opens two descriptors that were free. -/
theorem sysPipe_cases (t : OFile File) (files : Option (File × File)) :
    sysPipe t files = (none, t) ∨
      ∃ rf wf fd0 fd1, files = some (rf, wf) ∧ t fd0 = none ∧ t fd1 = none ∧ fd0 ≠ fd1 ∧
        sysPipe t files = (some (fd0, fd1), update (update t fd0 (some rf)) fd1 (some wf)) := by
  cases files with
  | none => exact .inl rfl
  | some files =>
    obtain ⟨rf, wf⟩ := files
    simp only [sysPipe]
    cases h0 : fdalloc t rf with
    | none => exact .inl rfl
    | some r0 =>
      obtain ⟨fd0, t1⟩ := r0
      obtain ⟨hfree0, rfl⟩ := fdalloc_inv h0
      dsimp only
      cases h1 : fdalloc (update t fd0 (some rf)) wf with
      | none =>
        refine .inl ?_
        dsimp only
        rw [Function.update_idem, ← hfree0, Function.update_eq_self]
      | some r1 =>
        obtain ⟨fd1, t2⟩ := r1
        obtain ⟨hfree1, rfl⟩ := fdalloc_inv h1
        have hne : fd1 ≠ fd0 := by
          rintro rfl
          simp at hfree1
        rw [Function.update_of_ne hne] at hfree1
        exact .inr ⟨rf, wf, fd0, fd1, rfl, hfree0, hfree1, hne.symm, rfl⟩

end Xv6
