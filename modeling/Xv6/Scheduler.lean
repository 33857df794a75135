import Xv6.Slots

/-!
# Xv6.Scheduler

One iteration of the outer loop of `scheduler`, the weighted round-robin cycle, on a
table of any size.

Whenever control leaves the scheduler, because it switches to a process or because it
releases the lock between two rounds, anything may happen to the table: `env m` says
what does, the `m`-th time. A cycle is recorded by the slots the scan reached, each with
what it found there, and by the dispatches.

A process found runnable with priority `k` every time is dispatched in the rounds
`0, …, k - 1`, and in no other (`weighted_round_robin`). The cycle does not end before
round `k`, since a round in which this process runs is never idle.
-/

namespace Xv6

open Function (update)

/-! ### The cycle -/

/-- The state of a cycle over `n` slots. -/
structure Cycle (n : Nat) where
  table : Fin n → Proc
  /-- How often control has left the scheduler. -/
  clock : Nat
  /-- The slots the scan has reached: the round, the slot, and what was in it. -/
  seen : List (Nat × Fin n × Proc)
  /-- The dispatches: the round and the slot. -/
  log : List (Nat × Fin n)

/-- What happens to the table while control is outside the scheduler. -/
abbrev Env (n : Nat) := Nat → (Fin n → Proc) → Fin n → Proc

namespace Cycle

variable {n : Nat} (env : Env n)

def start (table : Fin n → Proc) : Cycle n := { table := table, clock := 0, seen := [], log := [] }

/-- Control leaves the scheduler and comes back. -/
def leave (s : Cycle n) : Cycle n :=
  { s with table := env s.clock s.table, clock := s.clock + 1 }

/-- The body of the inner loop, for slot `i`; the flag is `ran_process`. -/
def slot (round : Nat) (x : Bool × Cycle n) (i : Fin n) : Bool × Cycle n :=
  let s := { x.2 with seen := x.2.seen ++ [(round, i, x.2.table i)] }
  if (s.table i).qualifies round then
    (true, leave env { s with
      table := update s.table i { s.table i with state := .running }
      log := s.log ++ [(round, i)] })
  else (x.1, s)

/-- One round: all slots in order, with the lock held except in the processes. -/
def round (r : Nat) (s : Cycle n) : Bool × Cycle n :=
  (List.finRange n).foldl (slot env r) (false, s)

/-- The rounds from `r` on, `todo` at most: the loop breaks after an idle one. The lock
is free before each round. -/
def rounds : (todo r : Nat) → Cycle n → Cycle n
  | 0, _, s => s
  | todo + 1, r, s =>
    let x := round env r (leave env s)
    if x.1 then rounds todo (r + 1) x.2 else x.2

/-- One iteration of the outer loop of `scheduler`. -/
def run (table : Fin n → Proc) : Cycle n := rounds env maxPriority 0 (start table)

variable {env} {r : Nat} {i j : Fin n} {s : Cycle n} {x : Bool × Cycle n} {l : List (Fin n)}

/-! ### What has been seen stays seen -/

section
variable {a : Nat × Fin n × Proc}

theorem seen_slot (ha : a ∈ x.2.seen) : a ∈ (slot env r x i).2.seen := by
  unfold slot
  dsimp only
  split
  · exact List.mem_append_left _ ha
  · exact List.mem_append_left _ ha

theorem seen_slots :
    ∀ {x : Bool × Cycle n}, a ∈ x.2.seen → a ∈ (l.foldl (slot env r) x).2.seen := by
  induction l with
  | nil => exact fun ha => ha
  | cons i l ih => exact fun ha => ih (seen_slot ha)

theorem seen_rounds {todo : Nat} :
    ∀ {r : Nat} {s : Cycle n}, a ∈ s.seen → a ∈ (rounds env todo r s).seen := by
  induction todo with
  | zero => exact fun ha => ha
  | succ todo ih =>
    intro r s ha
    have hround : a ∈ (round env r (leave env s)).2.seen := seen_slots (x := (false, _)) ha
    unfold rounds
    dsimp only
    split
    · exact ih hround
    · exact hround

end

theorem seen_self : (r, i, x.2.table i) ∈ (slot env r x i).2.seen := by
  unfold slot
  dsimp only
  split <;> simp [leave]

/-! ### The dispatches of one slot -/

/-- The rounds in which slot `i` has been dispatched. -/
def turns (s : Cycle n) (i : Fin n) : List Nat := (s.log.filter (·.2 = i)).map Prod.fst

theorem turns_slot_of_ne (h : i ≠ j) : (slot env r x i).2.turns j = x.2.turns j := by
  unfold slot
  dsimp only
  split
  · simp [turns, leave, h]
  · rfl

theorem turns_slot_self :
    (slot env r x i).2.turns i =
      x.2.turns i ++ if (x.2.table i).qualifies r then [r] else [] := by
  unfold slot
  dsimp only
  split <;> simp [turns, leave]

theorem turns_slots_of_notMem (h : j ∉ l) :
    ∀ x : Bool × Cycle n, (l.foldl (slot env r) x).2.turns j = x.2.turns j := by
  induction l with
  | nil => exact fun _ => rfl
  | cons i l ih =>
    intro x
    rw [List.mem_cons, not_or] at h
    rw [List.foldl_cons, ih h.2, turns_slot_of_ne (Ne.symm h.1)]

theorem ran_slot (h : x.1 = true) : (slot env r x i).1 = true := by
  unfold slot
  dsimp only
  split
  · rfl
  · exact h

theorem ran_slot_self (h : (x.2.table i).qualifies r = true) : (slot env r x i).1 = true := by
  unfold slot
  dsimp only
  rw [if_pos h]

theorem ran_slots : ∀ {x : Bool × Cycle n}, x.1 = true → (l.foldl (slot env r) x).1 = true := by
  induction l with
  | nil => exact fun h => h
  | cons i l ih => exact fun h => ih (ran_slot h)

/-- Slot `i` was found runnable with priority `k` whenever the scan reached it. -/
def Steady (i : Fin n) (k : Nat) (s : Cycle n) : Prop :=
  ∀ r p, (r, i, p) ∈ s.seen → p.state = .runnable ∧ p.priority = k

theorem qualifies_steady {k : Nat} {p : Proc} (h : p.state = .runnable ∧ p.priority = k) :
    p.qualifies r = decide (r < k) := by
  have hle : decide (p.priority ≤ (r : Int)) = !decide (r < k) := by
    rw [h.2, ← decide_not]
    exact decide_eq_decide.mpr (by omega)
  rw [Proc.qualifies, decide_eq_true h.1, hle, Bool.not_not, Bool.true_and]

/-- A round dispatches a steady process once if the round is below its priority, and not
at all otherwise. -/
theorem turns_round {k : Nat} (h : Steady i k (round env r s).2) :
    (round env r s).2.turns i = s.turns i ++ (if r < k then [r] else []) ∧
      (r < k → (round env r s).1 = true) := by
  -- the scan reaches slot `i` exactly once
  obtain ⟨l1, l2, hl⟩ := List.append_of_mem (List.mem_finRange i)
  have hnd : (l1 ++ i :: l2).Nodup := hl ▸ List.nodup_finRange n
  have h1 : i ∉ l1 := by
    intro hi
    exact (List.nodup_append.mp hnd).2.2 i hi i List.mem_cons_self rfl
  have h2 : i ∉ l2 := (List.nodup_cons.mp (List.nodup_append.mp hnd).2.1).1
  have hsplit : round env r s =
      l2.foldl (slot env r) (slot env r (l1.foldl (slot env r) (false, s)) i) := by
    rw [round, hl, List.foldl_append, List.foldl_cons]
  rw [hsplit] at h ⊢
  have hq := qualifies_steady (r := r) (h r _ (seen_slots seen_self))
  constructor
  · rw [turns_slots_of_notMem h2, turns_slot_self, turns_slots_of_notMem h1, hq]
    simp
  · intro hlt
    exact ran_slots (ran_slot_self (by rw [hq, decide_eq_true hlt]))

theorem Steady.of_rounds {k todo : Nat} (h : Steady i k (rounds env todo r s)) : Steady i k s :=
  fun r' p hp => h r' p (seen_rounds hp)

/-- The rounds from `r` on dispatch a steady process in each round below its priority. -/
theorem turns_rounds {k : Nat} {todo : Nat} :
    ∀ {r : Nat} {s : Cycle n}, k ≤ r + todo → Steady i k (rounds env todo r s) →
      (rounds env todo r s).turns i = s.turns i ++ List.range' r (k - r) := by
  induction todo with
  | zero =>
    intro r s hk _
    have : k - r = 0 := by omega
    simp [rounds, this]
  | succ todo ih =>
    intro r s hk h
    have hleave : (leave env s).turns i = s.turns i := rfl
    unfold rounds at h ⊢
    dsimp only at h ⊢
    split at h
    · next hran =>
        obtain ⟨hturns, -⟩ := turns_round h.of_rounds
        rw [if_pos hran, ih (by omega) h, hturns, hleave, List.append_assoc]
        congr 1
        by_cases hlt : r < k
        · have : k - r = k - (r + 1) + 1 := by omega
          rw [if_pos hlt, this, List.range'_succ, List.singleton_append]
        · have h0 : k - r = 0 := by omega
          have h1 : k - (r + 1) = 0 := by omega
          simp [hlt, h0, h1]
    · next hran =>
        -- an idle round: `k` has been passed
        obtain ⟨hturns, hrun⟩ := turns_round h
        have hlt : ¬ r < k := fun hlt => hran (hrun hlt)
        have : k - r = 0 := by omega
        rw [if_neg hran, hturns, hleave, if_neg hlt, this]
        rfl

/-! ### Idle rounds -/

/-- An idle slot changes nothing, and does not qualify. -/
theorem idle_slot (h : (slot env r x i).1 = false) :
    x.1 = false ∧ (slot env r x i).2.table = x.2.table ∧
      (x.2.table i).qualifies r = false := by
  unfold slot at h ⊢
  dsimp only at h ⊢
  split at h
  · exact absurd h (by simp)
  · next hq =>
      rw [if_neg hq]
      exact ⟨h, rfl, by simpa using hq⟩

theorem idle_slots : ∀ {x : Bool × Cycle n}, (l.foldl (slot env r) x).1 = false →
    x.1 = false ∧ (l.foldl (slot env r) x).2.table = x.2.table ∧
      ∀ i ∈ l, (x.2.table i).qualifies r = false := by
  induction l with
  | nil => exact fun h => ⟨h, rfl, by simp⟩
  | cons i l ih =>
    intro x h
    rw [List.foldl_cons] at h ⊢
    obtain ⟨hran, htable, hall⟩ := ih h
    obtain ⟨hran', htable', hq⟩ := idle_slot hran
    refine ⟨hran', htable.trans htable', fun j hj => ?_⟩
    rcases List.mem_cons.mp hj with rfl | hj
    · exact hq
    · rw [← htable']
      exact hall j hj

/-- A process that qualifies in a round qualifies in every earlier one. -/
theorem qualifies_mono {p : Proc} {r r' : Nat} (hle : r ≤ r') (h : p.qualifies r = false) :
    p.qualifies r' = false := by
  simp only [Proc.qualifies, Bool.and_eq_false_imp, decide_eq_true_eq, Bool.not_eq_false',
    decide_eq_true_eq] at h ⊢
  intro hs
  have := h hs
  omega

/-- After an idle round the table is as before, and nothing in it qualifies in this round
or a later one. -/
theorem idle_round (h : (round env r s).1 = false) :
    (round env r s).2.table = s.table ∧
      ∀ i r', r ≤ r' → (s.table i).qualifies r' = false := by
  obtain ⟨-, htable, hall⟩ := idle_slots h
  exact ⟨htable, fun i r' hle => qualifies_mono hle (hall i (List.mem_finRange i))⟩

end Cycle

open Xv6.Cycle in
/-- One cycle gives each steady process as many turns as its priority, one in each of the
first rounds; the early exit skips nobody; and in every run of the machine the priorities
stay between 1 and `MAX_PRIORITY`. -/
theorem weighted_round_robin {n : Nat} (env : Env n) (table : Fin n → Proc) :
    (∀ i k, 1 ≤ k → k ≤ maxPriority → Steady i k (run env table) →
      (run env table).turns i = List.range k) ∧
    (∀ r (s : Cycle n), (round env r s).1 = false →
      (round env r s).2.table = s.table ∧
        ∀ i r', r ≤ r' → (s.table i).qualifies r' = false) ∧
    (∀ ncpu kstack pgdir (x : List Ev × Disp ncpu), Disp.Run ncpu kstack pgdir x →
      ∀ p, (x.2.pt.proc p).state ≠ .unused →
        1 ≤ (x.2.pt.proc p).priority ∧ (x.2.pt.proc p).priority ≤ maxPriority) := by
  refine ⟨fun i k _ hk h => ?_, fun r s h => idle_round h, fun _ _ _ x h => h.weighted⟩
  have hturns := turns_rounds (r := 0) (by omega) h
  rw [run, hturns, List.range_eq_range']
  simp [start, turns]

open Xv6.Cycle in
/-- Two processes of priorities 2 and 1, both always ready to run again: the first has two
turns and the second one. -/
theorem weighted_round_robin_two :
    let p (k : Int) : Proc := { Proc.zero with state := .runnable, priority := k }
    let t (i : Fin 2) : Proc := if i = 0 then p 2 else p 1
    let s := run (fun _ _ => t) t
    Steady 0 2 s ∧ Steady 1 1 s ∧ s.turns 0 = [0, 1] ∧ s.turns 1 = [0] := by
  intro p t s
  have hseen : s.seen = [(0, 0, p 2), (0, 1, p 1), (1, 0, p 2), (1, 1, p 1), (2, 0, p 2),
      (2, 1, p 1)] := rfl
  have h0 : Steady 0 2 s := by
    intro r q hq
    rw [hseen] at hq
    obtain rfl : q = p 2 := by grind
    exact ⟨rfl, rfl⟩
  have h1 : Steady 1 1 s := by
    intro r q hq
    rw [hseen] at hq
    obtain rfl : q = p 1 := by grind
    exact ⟨rfl, rfl⟩
  have hall := (weighted_round_robin (fun _ _ => t) t).1
  exact ⟨h0, h1, hall 0 2 (by decide) (by decide) h0, hall 1 1 (by decide) (by decide) h1⟩

end Xv6
