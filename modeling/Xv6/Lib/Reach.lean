import Mathlib.Tactic.Common

/-!
# Xv6.Lib.Reach

Reachability in a transition system, and the one induction every safety
property of a run goes through: what holds at the start and is preserved by
each step holds of every reachable state.

For systems with labelled steps, `Trace` records the labels of a run. A forward
simulation carries every trace of one system over to another.
-/

namespace Xv6

variable {σ : Type}

/-- The states reached from an initial one by finitely many steps. -/
inductive Reach (init : σ → Prop) (step : σ → σ → Prop) : σ → Prop
  | start {s : σ} : init s → Reach init step s
  | next {s s' : σ} : Reach init step s → step s s' → Reach init step s'

/-- The invariant rule. -/
theorem Reach.invariant {init I : σ → Prop} {step : σ → σ → Prop}
    (hinit : ∀ s, init s → I s) (hstep : ∀ s s', I s → step s s' → I s') {s : σ}
    (h : Reach init step s) : I s := by
  induction h with
  | start h => exact hinit _ h
  | next _ hs ih => exact hstep _ _ ih hs

/-- Fewer steps reach fewer states. -/
theorem Reach.mono {init : σ → Prop} {step step' : σ → σ → Prop}
    (hstep : ∀ s s', step s s' → step' s s') {s : σ} (h : Reach init step s) :
    Reach init step' s := by
  induction h with
  | start h => exact .start h
  | next _ hs ih => exact .next ih (hstep _ _ hs)

/-! ### Labelled steps -/

section
variable {τ L : Type} {step : σ → L → σ → Prop} {step' : τ → L → τ → Prop}

/-- The runs from one state to another, with the labels of their steps. -/
inductive Trace (step : σ → L → σ → Prop) : σ → List L → σ → Prop
  | nil (s : σ) : Trace step s [] s
  | cons {s s1 s' : σ} {l : L} {ls : List L} :
      step s l s1 → Trace step s1 ls s' → Trace step s (l :: ls) s'

theorem Trace.mono {step' : σ → L → σ → Prop} (hstep : ∀ s l s', step s l s' → step' s l s')
    {s s' : σ} {ls : List L} (h : Trace step s ls s') : Trace step' s ls s' := by
  induction h with
  | nil s => exact .nil s
  | cons hs _ ih => exact .cons (hstep _ _ _ hs) ih

/-- The forward-simulation rule. -/
theorem Trace.simulate {R : σ → τ → Prop}
    (hsim : ∀ s t l s', R s t → step s l s' → ∃ t', step' t l t' ∧ R s' t') {s s' : σ}
    {ls : List L} (h : Trace step s ls s') :
    ∀ {t : τ}, R s t → ∃ t', Trace step' t ls t' ∧ R s' t' := by
  induction h with
  | nil s => exact fun hR => ⟨_, .nil _, hR⟩
  | cons hs _ ih =>
    intro t hR
    obtain ⟨t1, hs', hR1⟩ := hsim _ _ _ _ hR hs
    obtain ⟨t', hls, hR'⟩ := ih hR1
    exact ⟨t', .cons hs' hls, hR'⟩

end

end Xv6
