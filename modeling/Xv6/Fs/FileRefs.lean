import Xv6.Fs.Ftable
import Xv6.Lib.Holders

/-!
# Xv6.Fs.FileRefs

The references to open files, and the lifetime of pipes.

`FtableOk t pipes r` says that the file table counts `r f` references to `f`, and that the
files in use that are an end of a pipe are exactly the ends that the pipe says are open,
one file for each. A pipe with no end open is gone. Between two calls the references are
the descriptors; within a call there are more, which the call has yet to install or to
drop (`bump`).
-/

namespace Xv6

open Function (update update_self update_of_ne)

/-- `f` is the read end (`w` false) or the write end of the pipe. -/
def IsEnd (t : Fin nfile → File) (page : Nat) (w : Bool) (f : Fin nfile) : Prop :=
  0 < (t f).ref ∧ (t f).type = .pipe page ∧ (t f).writable = w

/-- `readopen` or `writeopen`. -/
def PipeEnds.isOpen (e : PipeEnds) (w : Bool) : Bool := if w then e.writeopen else e.readopen

/-- The pipe is there, and this end is open. -/
def OpenEnd (pipes : Nat → Option PipeEnds) (page : Nat) (w : Bool) : Prop :=
  ∃ e, pipes page = some e ∧ e.isOpen w = true

/-- The file table with `r f` references to `f`. -/
structure FtableOk (t : Fin nfile → File) (pipes : Nat → Option PipeEnds)
    (r : Fin nfile → Nat) : Prop where
  ref : ∀ f, (t f).ref = r f
  idle : ∀ f, (t f).ref = 0 → (t f).type = .none
  ends : ∀ page w, (∃ f, IsEnd t page w f) ↔ OpenEnd pipes page w
  once : ∀ {page w f g}, IsEnd t page w f → IsEnd t page w g → f = g
  live : ∀ {page e}, pipes page = some e → e.readopen = true ∨ e.writeopen = true

/-- What a call on open files never ends with. -/
def Benign (e : FilePanic) : Prop := e ≠ .filedup ∧ e ≠ .fileclose ∧ e ≠ .freed

variable {t : Fin nfile → File} {pipes : Nat → Option PipeEnds} {r : Fin nfile → Nat}
  {f g : Fin nfile} {page : Nat} {w : Bool}

theorem IsEnd.update_of_ne {x : File} (h : g ≠ f) :
    IsEnd (update t f x) page w g ↔ IsEnd t page w g := by
  unfold IsEnd
  rw [Function.update_of_ne h]

section
variable {r' : Fin nfile → Nat} {x : File} (h : FtableOk t pipes r)
include h

/-- Another entry for a file that is the same end of a pipe, if any. -/
theorem FtableOk.set (hself : ∀ {page w}, IsEnd (update t f x) page w f ↔ IsEnd t page w f)
    (hidle : x.ref = 0 → x.type = .none) (hr : ∀ g, r' g = if g = f then x.ref else r g) :
    FtableOk (update t f x) pipes r' := by
  have hend : ∀ {page w g}, IsEnd (update t f x) page w g ↔ IsEnd t page w g := by
    intro page w g
    by_cases hg : g = f
    · rw [hg]
      exact hself
    · exact IsEnd.update_of_ne hg
  refine ⟨fun g => ?_, fun g hz => ?_, fun page w => ?_, fun h1 h2 => ?_, h.live⟩
  · rw [hr]
    by_cases hg : g = f
    · subst hg
      simp
    · rw [update_of_ne hg, if_neg hg, h.ref]
  · by_cases hg : g = f
    · subst hg
      rw [update_self] at hz ⊢
      exact hidle hz
    · rw [update_of_ne hg] at hz ⊢
      exact h.idle g hz
  · rw [← h.ends page w]
    exact exists_congr fun g => hend
  · exact h.once (hend.mp h1) (hend.mp h2)

theorem FtableOk.setSame (hf : 0 < (t f).ref) (hx : 0 < x.ref) (htype : x.type = (t f).type)
    (hw : x.writable = (t f).writable) (hr : ∀ g, r' g = if g = f then x.ref else r g) :
    FtableOk (update t f x) pipes r' :=
  h.set (by simp [IsEnd, hx, hf, htype, hw]) (by omega) hr

theorem FtableOk.setPlain (hf : ∀ page, (t f).type ≠ .pipe page)
    (hx : ∀ page, x.type ≠ .pipe page) (hidle : x.ref = 0 → x.type = .none)
    (hr : ∀ g, r' g = if g = f then x.ref else r g) : FtableOk (update t f x) pipes r' :=
  h.set (by simp [IsEnd, hx, hf]) hidle hr

end

theorem FtableOk.newPipe {f0 f1 : Fin nfile} {x0 x1 : File} (h : FtableOk t pipes r)
    (hne : f0 ≠ f1) (hpage : pipes page = none)
    (h0 : (t f0).type = .none) (h1 : (t f1).type = .none) (hr0 : 0 < (t f0).ref)
    (hr1 : 0 < (t f1).ref) (hx0 : x0.ref = (t f0).ref ∧ x0.type = .pipe page ∧ x0.writable = false)
    (hx1 : x1.ref = (t f1).ref ∧ x1.type = .pipe page ∧ x1.writable = true) :
    FtableOk (update (update t f0 x0) f1 x1) (update pipes page (some ⟨true, true⟩)) r := by
  obtain ⟨href0, htype0, hw0⟩ := hx0
  obtain ⟨href1, htype1, hw1⟩ := hx1
  have hno : ∀ {w g}, ¬ IsEnd t page w g := by
    intro w g hg
    obtain ⟨e, he, -⟩ := (h.ends page w).mp ⟨g, hg⟩
    rw [hpage] at he
    cases he
  have hend : ∀ {q w g}, IsEnd (update (update t f0 x0) f1 x1) q w g ↔
      (page = q ∧ g = if w then f1 else f0) ∨ IsEnd t q w g := by
    intro q w g
    by_cases hg1 : g = f1
    · subst hg1
      cases w <;> simp [IsEnd, href1, htype1, hw1, hr1, h1, Ne.symm hne]
    · by_cases hg0 : g = f0
      · subst hg0
        cases w <;> simp [IsEnd, hne, href0, htype0, hw0, hr0, h0]
      · rw [IsEnd.update_of_ne hg1, IsEnd.update_of_ne hg0]
        cases w <;> simp [hg0, hg1]
  refine ⟨fun g => ?_, fun g hz => ?_, fun q w => ?_, fun hf hg => ?_, fun {q e} hq => ?_⟩
  · rw [← h.ref]
    by_cases hg1 : g = f1
    · subst hg1
      simp [href1]
    · by_cases hg0 : g = f0
      · subst hg0
        simp [hne, href0]
      · simp [hg0, hg1]
  · by_cases hg1 : g = f1
    · subst hg1
      rw [update_self, href1] at hz
      exact absurd hz (Nat.pos_iff_ne_zero.mp hr1)
    · by_cases hg0 : g = f0
      · subst hg0
        rw [update_of_ne hg1, update_self, href0] at hz
        exact absurd hz (Nat.pos_iff_ne_zero.mp hr0)
      · rw [update_of_ne hg1, update_of_ne hg0] at hz ⊢
        exact h.idle g hz
  · by_cases hq : q = page
    · subst hq
      have hopen : OpenEnd (update pipes q (some ⟨true, true⟩)) q w := by
        refine ⟨_, update_self .., ?_⟩
        cases w <;> rfl
      exact iff_of_true ⟨_, hend.mpr (.inl ⟨rfl, rfl⟩)⟩ hopen
    · simp only [hend, Ne.symm hq, hq, false_and, false_or, h.ends, OpenEnd, ne_eq,
        not_false_eq_true, update_of_ne]
  · rcases hend.mp hf with ⟨hqf, hf⟩ | hf <;> rcases hend.mp hg with ⟨hqg, hg⟩ | hg
    · rw [hf, hg]
    · exact absurd (hqf.symm ▸ hg) hno
    · exact absurd (hqg.symm ▸ hf) hno
    · exact h.once hf hg
  · by_cases hqp : q = page
    · subst hqp
      rw [update_self] at hq
      cases hq
      exact .inl rfl
    · rw [update_of_ne hqp] at hq
      exact h.live hq

/-- What `pipeclose` makes of a pipe. -/
def PipeEnds.closed (e : PipeEnds) (w : Bool) : Option PipeEnds :=
  if (e.close w).readopen = false ∧ (e.close w).writeopen = false then none else some (e.close w)

theorem isOpen_close {e : PipeEnds} {v : Bool} :
    (e.close w).isOpen v = true ↔ e.isOpen v = true ∧ v ≠ w := by
  cases v <;> cases w <;> simp [PipeEnds.close, PipeEnds.isOpen]

theorem openEnd_closed {e : PipeEnds} {q : Nat} {v : Bool} (he : pipes page = some e) :
    OpenEnd (update pipes page (e.closed w)) q v ↔ OpenEnd pipes q v ∧ ¬ (q = page ∧ v = w) := by
  by_cases hq : q = page
  · subst hq
    have hsome : OpenEnd pipes q v ↔ e.isOpen v = true := by simp [OpenEnd, he]
    rw [hsome, OpenEnd, update_self]
    simp only [true_and]
    rw [← ne_eq, ← isOpen_close (w := w), PipeEnds.closed]
    split
    next hboth =>
      obtain ⟨hr, hw⟩ := hboth
      cases v <;> simp [PipeEnds.isOpen, hr, hw]
    · simp
  · simp [OpenEnd, hq]

theorem FtableOk.dropEnd {x : File} {r' : Fin nfile → Nat} (h : FtableOk t pipes r)
    (hf : IsEnd t page w f) (hx : x.ref = 0 ∧ x.type = .none)
    (hr : ∀ g, r' g = if g = f then 0 else r g) :
    ∃ e, pipes page = some e ∧
      FtableOk (update t f x) (update pipes page (e.closed w)) r' := by
  obtain ⟨hx, htype⟩ := hx
  obtain ⟨e, he, -⟩ := (h.ends page w).mp ⟨f, hf⟩
  have hend : ∀ {q v g}, IsEnd (update t f x) q v g ↔
      IsEnd t q v g ∧ ¬ (q = page ∧ v = w) := by
    intro q v g
    by_cases hg : g = f
    · subst hg
      obtain ⟨-, hp, hw⟩ := hf
      simp only [IsEnd, update_self, hx, hp, hw]
      simp
      intro _ hq hv
      exact ⟨hq.symm, hv.symm⟩
    · rw [IsEnd.update_of_ne hg]
      refine ⟨fun hg' => ⟨hg', ?_⟩, fun hg' => hg'.1⟩
      -- a second file of this end would be `f`
      rintro ⟨rfl, rfl⟩
      exact hg (h.once hg' hf)
  refine ⟨e, he, fun g => ?_, fun g hz => ?_, fun q v => ?_, fun h1 h2 => ?_, fun {q e'} hq => ?_⟩
  · rw [hr]
    by_cases hg : g = f
    · subst hg
      simp [hx]
    · rw [update_of_ne hg, if_neg hg, h.ref]
  · by_cases hg : g = f
    · subst hg
      rw [update_self]
      exact htype
    · rw [update_of_ne hg] at hz ⊢
      exact h.idle g hz
  · simp only [hend, openEnd_closed he, exists_and_right, h.ends]
  · exact h.once (hend.mp h1).1 (hend.mp h2).1
  · by_cases hqp : q = page
    · subst hqp
      rw [update_self, PipeEnds.closed] at hq
      split at hq
      · cases hq
      next hboth =>
        cases hq
        rw [not_and_or, Bool.not_eq_false, Bool.not_eq_false] at hboth
        exact hboth
    · rw [update_of_ne hqp] at hq
      exact h.live hq

end Xv6
