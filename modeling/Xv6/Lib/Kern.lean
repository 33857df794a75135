import Mathlib.Algebra.Group.Nat.Defs
import Mathlib.Tactic.Common

/-!
# Xv6.Lib.Kern

Computations over a machine state that may stop the machine, and the
weakest-precondition style rules used to reason about them.

A `Kern σ ε α` reads and writes a state `σ`, returns an `α`, or halts with an
`ε`. `Ends m s Q E` says how the run of `m` from `s` ends: with a result and
final state satisfying `Q`, or halted with a reason satisfying `E`. Every rule
is an equivalence where it can be, so a straight-line computation is executed
symbolically by `simp`, and the specification of a callee is plugged in with
`Ends.mono`. Loops over `uint` counters are covered by one invariant rule,
`ends_forUint`.
-/

namespace Xv6

variable {σ ε α β γ : Type}

/-- A computation over the state `σ` that may halt with an `ε`. -/
abbrev Kern (σ ε : Type) := StateT σ (Except ε)

/-- The run of `m` from `s` ends in a result and state satisfying `Q`, or halts
with a reason satisfying `E`; without an `E` it does not halt. -/
def Ends (m : Kern σ ε α) (s : σ) (Q : α → σ → Prop) (E : ε → Prop := fun _ => False) : Prop :=
  match m.run s with
  | .ok (a, s') => Q a s'
  | .error e => E e

/-! ### Rules for the primitive computations -/

@[simp] theorem ends_pure (a : α) (s : σ) (Q : α → σ → Prop) (E : ε → Prop) :
    Ends (pure a : Kern σ ε α) s Q E ↔ Q a s := Iff.rfl

@[simp] theorem ends_bind (m : Kern σ ε α) (f : α → Kern σ ε β) (s : σ)
    (Q : β → σ → Prop) (E : ε → Prop) :
    Ends (m >>= f) s Q E ↔ Ends m s (fun a s' => Ends (f a) s' Q E) E := by
  unfold Ends
  rw [StateT.run_bind]
  cases m.run s <;> rfl

@[simp] theorem ends_map (f : α → β) (m : Kern σ ε α) (s : σ)
    (Q : β → σ → Prop) (E : ε → Prop) :
    Ends (f <$> m) s Q E ↔ Ends m s (fun a s' => Q (f a) s') E := by
  unfold Ends
  rw [StateT.run_map]
  cases m.run s <;> rfl

@[simp] theorem ends_get (s : σ) (Q : σ → σ → Prop) (E : ε → Prop) :
    Ends (get : Kern σ ε σ) s Q E ↔ Q s s := Iff.rfl

@[simp] theorem ends_set (s t : σ) (Q : PUnit → σ → Prop) (E : ε → Prop) :
    Ends (set t : Kern σ ε PUnit) s Q E ↔ Q () t := Iff.rfl

@[simp] theorem ends_modify (s : σ) (g : σ → σ) (Q : PUnit → σ → Prop) (E : ε → Prop) :
    Ends (modify g : Kern σ ε PUnit) s Q E ↔ Q () (g s) := Iff.rfl

@[simp] theorem ends_throw (s : σ) (e : ε) (Q : α → σ → Prop) (E : ε → Prop) :
    Ends (throw e : Kern σ ε α) s Q E ↔ E e := Iff.rfl

theorem ends_ite (c : Prop) [Decidable c] (m n : Kern σ ε α) (s : σ)
    (Q : α → σ → Prop) (E : ε → Prop) :
    Ends (if c then m else n) s Q E ↔ (c → Ends m s Q E) ∧ (¬ c → Ends n s Q E) := by
  by_cases h : c <;> simp [h]

/-- Run a computation on a part of a larger state. -/
def focus {τ : Type} (part : σ → τ) (put : σ → τ → σ) (m : Kern τ ε α) : Kern σ ε α := fun s =>
  match m.run (part s) with
  | .ok (a, t) => .ok (a, put s t)
  | .error e => .error e

@[simp] theorem ends_focus {τ : Type} (part : σ → τ) (put : σ → τ → σ) (m : Kern τ ε α) (s : σ)
    (Q : α → σ → Prop) (E : ε → Prop) :
    Ends (focus part put m) s Q E ↔ Ends m (part s) (fun a t => Q a (put s t)) E := by
  unfold Ends focus
  rw [StateT.run]
  cases m.run (part s) <;> rfl

/-! ### Structural rules -/

section
variable {m : Kern σ ε α} {s : σ} {Q Q' : α → σ → Prop}

/-- Consequence: plug a specification into a weaker goal. -/
theorem Ends.mono {E E' : ε → Prop} (h : Ends m s Q E) (hQ : ∀ a s', Q a s' → Q' a s')
    (hE : ∀ e, E e → E' e) : Ends m s Q' E' := by
  unfold Ends at h ⊢
  cases hm : m.run s with
  | ok r => rw [hm] at h; exact hQ _ _ h
  | error e => rw [hm] at h; exact hE _ h

/-- Consequence, with the reasons to halt left alone. -/
theorem Ends.imp {E : ε → Prop} (h : Ends m s Q E) (hQ : ∀ a s', Q a s' → Q' a s') :
    Ends m s Q' E :=
  h.mono hQ fun _ he => he

/-- Consequence for a computation that does not halt. -/
theorem Ends.of_safe {E : ε → Prop} (h : Ends m s Q)
    (hQ : ∀ a s', Q a s' → Q' a s') : Ends m s Q' E :=
  h.mono hQ fun _ => False.elim

end

section
variable {s : σ} {E : ε → Prop}

/-- One computation after another. -/
theorem Ends.bind {m : Kern σ ε α} {f : α → Kern σ ε β} {Q : β → σ → Prop} {R : α → σ → Prop}
    (h : Ends m s R E) (hf : ∀ a s', R a s' → Ends (f a) s' Q E) : Ends (m >>= f) s Q E :=
  (ends_bind ..).mpr (h.imp hf)

theorem Ends.ret {a : α} {Q : α → σ → Prop} (h : Q a s) :
    Ends (pure a : Kern σ ε α) s Q E := h

/-- A computation that may be over at once. -/
theorem Ends.guard {c : Prop} [Decidable c] {a : α} {m : Kern σ ε α} {Q : α → σ → Prop}
    (ha : c → Q a s) (hm : ¬ c → Ends m s Q E) : Ends (if c then pure a else m) s Q E :=
  (ends_ite ..).mpr ⟨fun hc => .ret (ha hc), hm⟩

end

section
variable {m : Kern σ ε α}

/-- Two facts about one run hold of it together. -/
theorem Ends.and {s : σ} {Q Q' : α → σ → Prop} {E E' : ε → Prop} (h : Ends m s Q E)
    (h' : Ends m s Q' E') : Ends m s (fun a s' => Q a s' ∧ Q' a s') (fun e => E e ∧ E' e) := by
  unfold Ends at h h' ⊢
  cases hm : m.run s with
  | ok r => rw [hm] at h h'; exact ⟨h, h'⟩
  | error e => rw [hm] at h h'; exact ⟨h, h'⟩

theorem Ends.trivial {s : σ} : Ends m s (fun _ _ => True) (fun _ => True) := by
  unfold Ends
  cases m.run s <;> exact True.intro

theorem Ends.self {s : σ} :
    Ends m s (fun a s' => m.run s = .ok (a, s')) (fun e => m.run s = .error e) := by
  unfold Ends
  cases m.run s <;> rfl

/-- What a specification says of a run known to return. -/
theorem Ends.of_ok {s s' : σ} {a : α} {Q : α → σ → Prop} {E : ε → Prop} (h : Ends m s Q E)
    (hm : m.run s = .ok (a, s')) : Q a s' := by
  unfold Ends at h
  rw [hm] at h
  exact h

/-- What a specification says of a run known to halt. -/
theorem Ends.of_error {s : σ} {e : ε} {Q : α → σ → Prop} {E : ε → Prop} (h : Ends m s Q E)
    (hm : m.run s = .error e) : E e := by
  unfold Ends at h
  rw [hm] at h
  exact h

/-- A run that cannot halt returns. -/
theorem Ends.exists_ok {s : σ} {Q : α → σ → Prop} (h : Ends m s Q) :
    ∃ a s', m.run s = .ok (a, s') ∧ Q a s' := by
  unfold Ends at h
  cases hm : m.run s with
  | ok r => rw [hm] at h; exact ⟨r.1, r.2, rfl, h⟩
  | error e => rw [hm] at h; exact absurd h id

/-- A run that cannot return halts. -/
theorem Ends.exists_error {s : σ} {E : ε → Prop} (h : Ends m s (fun _ _ => False) E) :
    ∃ e, m.run s = .error e ∧ E e := by
  unfold Ends at h
  cases hm : m.run s with
  | ok r => rw [hm] at h; exact absurd h id
  | error e => rw [hm] at h; exact ⟨e, rfl, h⟩

/-- A run that returns, as a specification. -/
theorem run_eq_ok {s s' : σ} {a : α} :
    m.run s = .ok (a, s') ↔ Ends m s (fun b t => b = a ∧ t = s') := by
  unfold Ends
  cases m.run s <;> simp [Prod.ext_iff]

/-- A run whose result nobody needs. -/
theorem run_discard {s s' : σ} {a : α} (h : m.run s = .ok (a, s')) :
    (m >>= fun _ => pure ()).run s = .ok ((), s') :=
  run_eq_ok.mpr ((ends_bind ..).mpr ((run_eq_ok.mp h).imp fun _ _ h => .ret ⟨rfl, h.2⟩))

/-- A run that halts, as a specification. -/
theorem run_eq_error {s : σ} {e : ε} :
    m.run s = .error e ↔ Ends m s (fun _ _ => False) (fun f => f = e) := by
  unfold Ends
  cases m.run s <;> simp

end

-- from here on a run is only looked at through the rules above
attribute [irreducible] Ends

/-! ### Loops over `uint` counters -/

/-- `for(; a < stop; a += step) body(a)` with 32-bit `a`; a body that returns
`some r` leaves the loop with `r`. The fuel bounds the number of rounds. -/
def forUint (stop step : Nat) (body : Nat → Kern σ ε (Option β)) :
    Nat → Nat → Kern σ ε (Option β)
  | 0, _ => pure none
  | fuel + 1, a =>
    if a < stop then do
      match ← body a with
      | some r => pure (some r)
      | none => forUint stop step body fuel ((a + step) % 2 ^ 32)
    else pure none

/-- The invariant rule of `forUint`: `I a` holds whenever the test is reached
with counter `a`. The counter does not wrap when `stop + step` fits in 32 bits,
and the loop then ends at the first counter that is not below `stop`. -/
theorem ends_forUint (stop step : Nat) (body : Nat → Kern σ ε (Option β))
    {I : Nat → σ → Prop} {R : β → σ → Prop} {E : ε → Prop}
    (hbody : ∀ a s, a < stop → I a s →
      Ends (body a) s (fun r s' => match r with
        | none => I (a + step) s'
        | some b => R b s') E)
    (hwrap : stop + step ≤ 2 ^ 32) :
    ∀ (fuel a : Nat) (s : σ), stop ≤ a + fuel * step → I a s →
      Ends (forUint stop step body fuel a) s (fun r s' => match r with
        | none => ∃ a', stop ≤ a' ∧ I a' s'
        | some b => R b s') E := by
  intro fuel
  induction fuel with
  | zero =>
    intro a s hfuel hI
    simp only [forUint, ends_pure]
    exact ⟨a, by omega, hI⟩
  | succ fuel ih =>
    intro a s hfuel hI
    rw [forUint, ends_ite]
    refine ⟨fun ha => ?_, fun ha => ?_⟩
    · rw [ends_bind]
      refine (hbody a s ha hI).mono ?_ (fun _ h => h)
      intro r s' hr
      cases r with
      | some b => exact .ret hr
      | none =>
        rw [Nat.mod_eq_of_lt (by omega)]
        exact ih (a + step) s' (by rw [Nat.succ_mul] at hfuel; omega) hr
    · exact .ret ⟨a, by omega, hI⟩

end Xv6
