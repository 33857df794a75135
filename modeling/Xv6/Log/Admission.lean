import Mathlib.Algebra.BigOperators.Group.Finset.Basic
import Mathlib.Algebra.Order.BigOperators.Group.Finset
import Mathlib.Data.Fintype.Basic
import Xv6.Log.Group

/-!
# Xv6.Log.Admission

Whether the room that `begin_op` waits for is enough for `log_write` never to panic
("too big a transaction"), when every operation logs at most `m` different blocks.

`LogSt.Budget` says that the blocks in the log and what the running operations may still
add stay below a bound. The bound is two short of what `begin_op` reckons with: one block of
the log region is the header, and `log_write` makes its check before it looks whether
the block is already in the log. So the admission control is enough for operations of
`MAXOPBLOCKS - 1` blocks, and not for operations of `MAXOPBLOCKS`.
-/

namespace Xv6

open Function (update update_self update_of_ne)

namespace LogSt

variable {P : Type} [DecidableEq P] [Fintype P]

/-! ### Operations of bounded size -/

/-- An operation that logs at most `m` different blocks. -/
def Within (m : Nat) (x : LogSt P) : LogAct P → Prop
  | .check p b => (insert b (x.used p)).card ≤ m
  | _ => True

/-- The states reached when every operation logs at most `m` different blocks. -/
def Limited (P : Type) [DecidableEq P] (m : Nat) (x : LogSt P) : Prop :=
  Reach (fun x => x = init P) (fun x y => ∃ a, Step x a y ∧ Within m x a) x

omit [Fintype P] in
theorem Limited.mono_limit {m k : Nat} {x : LogSt P} (h : Limited P m x) (hle : m ≤ k) :
    Limited P k x := by
  refine h.mono fun y z hs => ?_
  obtain ⟨a, hs, hw⟩ := hs
  refine ⟨a, hs, ?_⟩
  cases a with
  | check p b => exact le_trans hw hle
  | _ => trivial

/-- What the running operations may still add. -/
def reserve (m : Nat) (x : LogSt P) : Nat := ∑ p ∈ x.ops, (m - (x.used p).card)

/-- What is in the log and what may come fits below the last place that `log_write`
accepts. -/
structure Budget (m : Nat) (x : LogSt P) : Prop where
  logged : ∀ p, (x.pc p).inside = true → ∀ b ∈ x.used p, b ∈ x.lh
  next : ∀ p b, x.pc p = .logging b → (insert b (x.used p)).card ≤ m
  fits : x.lh.length + x.reserve m ≤ nlog - 2
  panic : x.panic = none

section
variable {x : LogSt P} {p : P} {c : LogPc} {m : Nat}

omit [DecidableEq P] in
theorem budget_init (m : Nat) : (init P).Budget m where
  logged p h := absurd h (by simp [init, LogPc.inside])
  next p b h := absurd h (by simp [init])
  fits := by simp [reserve, those, init, LogPc.inside]
  panic := rfl

theorem Budget.moved (h : x.Budget m) (hin : c.inside = (x.pc p).inside)
    (hnext : ∀ b, c = .logging b → (insert b (x.used p)).card ≤ m) :
    (x.goto p c).Budget m where
  logged q hq := by
    have hq' : q ∈ x.ops := by rw [ops, ← those_goto_same hin]; exact mem_those.mpr hq
    exact h.logged q (mem_those.mp hq')
  next q b hq := by
    by_cases hqp : q = p
    · rw [hqp] at hq ⊢
      exact hnext b (by simpa [goto] using hq)
    · exact h.next q b (by rwa [goto_of_ne hqp] at hq)
  fits := by
    have : (x.goto p c).reserve m = x.reserve m := by
      rw [reserve, reserve, ops, those_goto_same hin]
      rfl
    rw [this]
    exact h.fits
  panic := h.panic

omit [DecidableEq P] in
theorem Budget.left {y : LogSt P} (h : x.Budget m) (hlh : y.lh = x.lh) (hused : y.used = x.used)
    (hpanic : y.panic = none) (hops : y.ops ⊆ x.ops)
    (hlog : ∀ q b, y.pc q = .logging b → x.pc q = .logging b) : y.Budget m where
  logged q hq := by
    rw [hused, hlh]
    exact h.logged q (mem_those.mp (hops (mem_those.mpr hq)))
  next q b hq := by
    rw [hused]
    exact h.next q b (hlog q b hq)
  fits := by
    have : y.reserve m ≤ x.reserve m := by
      rw [reserve, reserve, hused]
      exact Finset.sum_le_sum_of_subset hops
    rw [hlh]
    exact le_trans (Nat.add_le_add_left this _) h.fits
  panic := hpanic

omit [DecidableEq P] in
theorem reserve_le (m : Nat) (x : LogSt P) : x.reserve m ≤ x.ops.card * m := by
  calc x.reserve m ≤ ∑ _p ∈ x.ops, m := Finset.sum_le_sum fun _ _ => Nat.sub_le _ _
    _ = x.ops.card * m := Finset.sum_const_nat fun _ _ => rfl

/-- The room that `begin_op` asks for is more than an operation may use. -/
theorem Grouped.room (h : x.Grouped) (hm : m ≤ maxopblocks - 1) (hwait : x.mustWait = false) :
    x.lh.length + (m + x.reserve m) ≤ nlog - 2 := by
  have hc : x.committing = false := (Bool.or_eq_false_iff.mp hwait).1
  have hroom : ¬ (logsize : Int) < x.lh.length + (x.outstanding + 1) * maxopblocks := fun hlt => by
    have := hwait.symm.trans (mustWait_iff.mpr (.inr hlt))
    exact absurd this (by decide)
  have hres := reserve_le m x
  rw [h.outstanding] at hroom
  simp only [logsize, maxopblocks, nlog] at hroom hm ⊢
  by_cases hops : x.ops = ∅
  · -- the first operation of a transaction starts with an empty log
    have hlh : x.lh = [] := by
      by_contra hne
      rcases h.owned hne with h' | h'
      · exact h' hops
      · exact absurd (hc.symm.trans h') (by decide)
    rw [hops, Finset.card_empty, Nat.zero_mul] at hres
    rw [hlh, List.length_nil]
    omega
  · have hpos : 0 < x.ops.card := Finset.card_pos.mpr (Finset.nonempty_iff_ne_empty.mpr hops)
    have hmul : x.ops.card * m ≤ x.ops.card * 9 := Nat.mul_le_mul_left _ (by omega)
    omega

section
variable (h : x.Budget m)
include h

theorem Budget.begin (hg : x.Grouped) (hm : m ≤ maxopblocks - 1)
    (hp : x.pc p = .idle ∨ x.pc p = .awake) (hwait : x.mustWait = false) :
    Budget m { x.goto p .inOp with
      outstanding := x.outstanding + 1, used := update x.used p ∅ } := by
  have hnew : p ∉ x.ops := by rcases hp with hp | hp <;> simp [hp, LogPc.inside]
  have hops : (x.goto p .inOp).ops = insert p x.ops := those_goto_in rfl
  refine ⟨fun q hq b hb => ?_, fun q b hq => ?_, ?_, h.panic⟩
  · by_cases hqp : q = p
    · simp [hqp] at hb
    · simp only [update_of_ne hqp] at hb
      exact h.logged q (by rwa [show _ = x.pc q from goto_of_ne hqp] at hq) b hb
  · have hq' : x.pc q = .logging b := pc_of_goto hq (by simp)
    have hqp : q ≠ p := by
      intro he
      exact hnew (mem_those.mpr (by rw [← he, hq']; rfl))
    simp only [update_of_ne hqp]
    exact h.next q b hq'
  · have hsum : reserve m { x.goto p .inOp with
        outstanding := x.outstanding + 1, used := update x.used p ∅ } = m + x.reserve m := by
      show ∑ q ∈ (x.goto p .inOp).ops, (m - (update x.used p ∅ q).card) = _
      rw [hops, Finset.sum_insert hnew, update_self, Finset.card_empty, Nat.sub_zero]
      refine congrArg (m + ·) (Finset.sum_congr rfl fun q hq => ?_)
      have hqp : q ≠ p := fun he => hnew (he ▸ hq)
      rw [update_of_ne hqp]
    rw [hsum]
    exact hg.room hm hwait

theorem Budget.append {b : Nat} (hp : x.pc p = .logging b) : (x.next (.append p b)).Budget m := by
  have hin : (x.pc p).inside = true := by rw [hp]; rfl
  have hmem : p ∈ x.ops := mem_those.mpr hin
  have hops : (x.next (.append p b)).ops = x.ops := those_goto_same (c := .inOp) hin.symm
  have hgrow : ∀ d ∈ x.lh, d ∈ (x.next (.append p b)).lh := by
    intro d hd
    simp only [LogSt.next]
    split
    · exact hd
    · exact List.mem_append_left _ hd
  have hlogged : b ∈ (x.next (.append p b)).lh := by
    simp only [LogSt.next]
    split
    · assumption
    · simp
  refine ⟨fun q hq d hd => ?_, fun q d hq => ?_, ?_, h.panic⟩
  · have hq' : q ∈ x.ops := by rw [← hops]; exact mem_those.mpr hq
    by_cases hqp : q = p
    · subst hqp
      simp only [LogSt.next, update_self, Finset.mem_insert] at hd
      rcases hd with rfl | hd
      · exact hlogged
      · exact hgrow d (h.logged q hin d hd)
    · simp only [LogSt.next, update_of_ne hqp] at hd
      exact hgrow d (h.logged q (mem_those.mp hq') d hd)
  · have hqp : q ≠ p := by
      intro he
      rw [he] at hq
      simp [LogSt.next, goto] at hq
    simp only [LogSt.next, update_of_ne hqp]
    exact h.next q d (pc_of_goto hq (by simp))
  · -- the new block costs the log one place, and `p` one of its reserve
    have hrest : ∑ q ∈ x.ops.erase p, (m - ((x.next (.append p b)).used q).card) =
        ∑ q ∈ x.ops.erase p, (m - (x.used q).card) :=
      Finset.sum_congr rfl fun q hq => by
        simp [LogSt.next, update_of_ne (Finset.ne_of_mem_erase hq)]
    have hself : (x.next (.append p b)).used p = insert b (x.used p) := by simp [LogSt.next]
    have hfits := h.fits
    have hle := h.next p b hp
    rw [reserve, ← Finset.add_sum_erase _ _ hmem] at hfits
    rw [reserve, hops, ← Finset.add_sum_erase _ _ hmem, hrest, hself]
    by_cases hb : b ∈ x.lh
    · have hlen : (x.next (.append p b)).lh = x.lh := by simp [LogSt.next, hb]
      have hcard := Finset.card_le_card (Finset.subset_insert b (x.used p))
      rw [hlen]
      omega
    · have hlen : (x.next (.append p b)).lh.length = x.lh.length + 1 := by simp [LogSt.next, hb]
      have hnew : b ∉ x.used p := fun h' => hb (h.logged p hin b h')
      rw [Finset.card_insert_of_notMem hnew] at hle ⊢
      rw [hlen]
      omega

theorem Budget.endOp (hg : x.Grouped) (hp : x.pc p = .inOp) : (x.next (.endOp p)).Budget m := by
  have hc := hg.not_committing (p := p) (by rw [hp]; rfl)
  simp only [LogSt.next, hc, Bool.false_eq_true, if_false]
  split
  · refine h.left rfl rfl h.panic ?_ fun q b hq => pc_of_goto hq (by simp)
    show (x.goto p .committing).ops ⊆ x.ops
    rw [ops, those_goto_out rfl]
    exact Finset.erase_subset _ _
  · refine h.left rfl rfl h.panic ?_ fun q b hq => pc_of_goto (pc_of_wakeup hq (by simp)) (by simp)
    show (x.goto p .idle).wakeup.ops ⊆ x.ops
    rw [ops, those_wakeup rfl, those_goto_out rfl]
    exact Finset.erase_subset _ _

theorem Budget.commit (hg : x.Grouped) (hp : x.pc p = .committing) :
    (x.next (.commit p)).Budget m := by
  have hnone := hg.quiet (hg.is_committing (p := p) (by rw [hp]; rfl))
  have hops : (x.next (.commit p)).ops = ∅ :=
    (those_goto_same (c := .committed) (by rw [hp]; rfl)).trans hnone
  have hout : ∀ q, ((x.next (.commit p)).pc q).inside ≠ true := by
    intro q hq
    have : q ∈ (x.next (.commit p)).ops := mem_those.mpr hq
    simp [hops] at this
  refine ⟨fun q hq => absurd hq (hout q), fun q b hq => absurd (by rw [hq]; rfl) (hout q), ?_,
    h.panic⟩
  rw [reserve, hops, Finset.sum_empty]
  exact Nat.zero_le _

theorem Budget.endCommit (hp : x.pc p = .committed) : (x.next (.endCommit p)).Budget m := by
  refine h.left rfl rfl h.panic ?_ fun q b hq => pc_of_goto (pc_of_wakeup hq (by simp)) (by simp)
  show (x.goto p .idle).wakeup.ops ⊆ x.ops
  rw [ops, those_wakeup rfl, those_goto_same (by rw [hp]; rfl)]

theorem Budget.next_step {a : LogAct P} (hg : x.Grouped) (hm : m ≤ maxopblocks - 1)
    (hen : x.Enabled a) (hw : x.Within m a) : (x.next a).Budget m := by
  cases a with
  | beginOp p =>
    simp only [LogSt.next]
    split
    · refine h.moved ?_ (by simp)
      rcases hen with hp | hp <;> rw [hp] <;> rfl
    · next hgo => exact h.begin hg hm hen (Bool.eq_false_of_not_eq_true hgo)
  | wake p => exact h.moved (by rw [show x.pc p = .asleep from hen]; rfl) (by simp)
  | check p b =>
    have hp : x.pc p = .inOp := hen
    have hlt : ¬ nlog - 1 ≤ x.lh.length := by
      have := h.fits
      simp only [nlog, logsize] at this ⊢
      omega
    rw [hg.check_eq hp, if_neg hlt]
    refine h.moved (by rw [hp]; rfl) fun d hd => ?_
    rw [← LogPc.logging.inj hd]
    exact hw
  | append p b => exact h.append hen
  | endOp p => exact h.endOp hg hen
  | commit p => exact h.commit hg hen
  | endCommit p => exact h.endCommit hen

end

theorem Limited.budget (h : Limited P m x) (hm : m ≤ maxopblocks - 1) :
    x.Grouped ∧ x.Budget m := by
  refine Reach.invariant (I := fun y => y.Grouped ∧ y.Budget m)
    (fun y hy => hy ▸ ⟨grouped_init, budget_init m⟩) (fun y z hy hs => ?_) h
  obtain ⟨a, ⟨-, hen, rfl⟩, hw⟩ := hs
  exact ⟨hy.1.next hen, hy.2.next_step hy.1 hm hen hw⟩

end

/-! ### Runs from a list of steps -/

/-- The steps can be taken one after the other, within the limit. -/
def Allowed (m : Nat) : LogSt P → List (LogAct P) → Prop
  | _, [] => True
  | x, a :: as => x.panic = none ∧ x.Enabled a ∧ x.Within m a ∧ Allowed m (x.next a) as

instance (m : Nat) (x : LogSt P) (a : LogAct P) : Decidable (x.Within m a) :=
  match a with
  | .check p b => inferInstanceAs (Decidable ((insert b (x.used p)).card ≤ m))
  | .beginOp _ | .wake _ | .append _ _ | .endOp _ | .commit _ | .endCommit _ => isTrue trivial

instance Allowed.decidable (m : Nat) :
    (x : LogSt P) → (as : List (LogAct P)) → Decidable (Allowed m x as)
  | _, [] => isTrue trivial
  | x, a :: as =>
    have := Allowed.decidable m (x.next a) as
    inferInstanceAs (Decidable (_ ∧ _ ∧ _ ∧ _))

omit [Fintype P] in
theorem Limited.run {m : Nat} {as : List (LogAct P)} :
    ∀ {x : LogSt P}, Limited P m x → Allowed m x as → Limited P m (as.foldl next x) := by
  induction as with
  | nil => exact fun hx _ => hx
  | cons a as ih =>
    intro x hx ha
    obtain ⟨hpanic, hen, hw, hrest⟩ := ha
    exact ih (.next hx ⟨a, ⟨hpanic, hen, rfl⟩, hw⟩) hrest

/-- `log_write` of these blocks, one after the other. -/
def logWrites (p : P) (bs : List Nat) : List (LogAct P) :=
  bs.flatMap fun b => [.check p b, .append p b]

/-- Three operations share a transaction and log ten blocks each. The last block is
not taken. -/
def fullGroup : List (LogAct (Fin 3)) :=
  [.beginOp 0, .beginOp 1, .beginOp 2] ++ logWrites 0 (List.range' 100 10) ++
    logWrites 1 (List.range' 110 10) ++ logWrites 2 (List.range' 120 9) ++ [.check 2 129]

theorem fullGroup_allowed : Allowed maxopblocks (init (Fin 3)) fullGroup := by
  decide +kernel

/-- Operations of `MAXOPBLOCKS` blocks are admitted and then refused. -/
theorem three_full_operations_panic : ∃ x : LogSt (Fin 3), Limited (Fin 3) maxopblocks x ∧
    x.panic = some .tooBig :=
  ⟨_, Limited.run (.start rfl) fullGroup_allowed, by decide +kernel⟩

/-- `log_write` never panics for want of room exactly when the operations log at most
`MAXOPBLOCKS - 1` different blocks each. -/
theorem admission_sufficient_iff (m : Nat) :
    (∀ (n : Nat) (x : LogSt (Fin n)), Limited (Fin n) m x → x.panic ≠ some .tooBig) ↔
      m ≤ maxopblocks - 1 := by
  constructor
  · intro h
    by_contra hm
    have hle : maxopblocks ≤ m := by omega
    have hpanic : (fullGroup.foldl next (init (Fin 3))).panic = some .tooBig := by decide +kernel
    exact h 3 _ ((Limited.run (.start rfl) fullGroup_allowed).mono_limit hle) hpanic
  · intro hm n x hx
    rw [(hx.budget hm).2.panic]
    simp

end LogSt

end Xv6
