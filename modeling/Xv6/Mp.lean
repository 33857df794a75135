import Mathlib.Data.BitVec
import Xv6.Exec

/-!
# Xv6.Mp

The walk of `mpinit` over the MP configuration table.

The table is the bytes from `conf` on, and pointers are offsets from there. Each entry starts with
its type, and the type gives the size. The `default` case of the switch clears `ismp` and breaks:
that leaves the switch but not the loop, and the cursor has not moved, so the next round meets
the same entry.
-/

namespace Xv6.Mp

/-- Bytes from the start of the configuration table on. -/
abbrev Table := Nat → Byte

/-- `NCPU`. -/
def ncpu : Nat := 8

/-- `sizeof(struct mpconf)`. -/
def confSize : Nat := 44

/-- What `mpinit` sets: `cpus[0..ncpu).apicid`, `ioapicid` and `ismp`, and its cursor `p`. -/
structure State where
  cpus : List Byte
  ioapicid : Byte
  ismp : Bool
  p : Nat

/-- The panics of `mpinit`. -/
inductive Panic
  /-- `Expect to run on an SMP`. -/
  | noSmp
  /-- `Didn't find a suitable machine`. -/
  | unsuitable

/-- `conf->length`. -/
def confLength (t : Table) : Nat := getLe [t 4, t 5] 0 2

/-- The checks of `mpconfig`: signature, version and checksum. -/
def mpconfig (t : Table) : Bool :=
  [t 0, t 1, t 2, t 3] = [0x50#8, 0x43#8, 0x4D#8, 0x50#8] ∧ (t 6 = 1#8 ∨ t 6 = 4#8) ∧
    ((List.range (confLength t)).map t).sum = 0#8

/-- One round of the loop. -/
def mpEntry (t : Table) (s : State) : State :=
  match (t s.p).toNat with
  -- MPPROC
  | 0 =>
    { s with
      cpus := if s.cpus.length < ncpu then s.cpus ++ [t (s.p + 1)] else s.cpus
      p := s.p + 20 }
  -- MPIOAPIC
  | 2 => { s with ioapicid := t (s.p + 1), p := s.p + 8 }
  -- MPBUS, MPIOINTR, MPLINTR
  | 1 => { s with p := s.p + 8 }
  | 3 => { s with p := s.p + 8 }
  | 4 => { s with p := s.p + 8 }
  | _ => { s with ismp := false }

/-- The loop; `none` if it has not ended after `fuel` rounds. -/
def mpLoop (t : Table) (e : Nat) : (fuel : Nat) → State → Option State
  | 0, _ => none
  | fuel + 1, s => if s.p < e then mpLoop t e fuel (mpEntry t s) else some s

/-- `mpinit` for the table that `mpsearch` leads to. -/
def mpinit (t : Table) (fuel : Nat) : Option (Except Panic State) :=
  if mpconfig t then
    (mpLoop t (confLength t) fuel ⟨[], 0#8, true, confSize⟩).map fun s =>
      if s.ismp then .ok s else .error .unsuitable
  else some (.error .noSmp)

/-! ### What the entries say -/

/-- The entries from offset `p` on: the ids of the processors among them, and the offset `q` of
the end or of the first entry of an unknown type. -/
inductive Walk (t : Table) (e : Nat) : (p : Nat) → (ids : List Byte) → (q : Nat) → Prop
  | stop {p : Nat} (h : e ≤ p ∨ 4 < (t p).toNat) : Walk t e p [] p
  | proc {p q : Nat} {ids : List Byte} (hp : p < e) (ht : (t p).toNat = 0)
      (hrest : Walk t e (p + 20) ids q) : Walk t e p (t (p + 1) :: ids) q
  | other {p q : Nat} {ids : List Byte} (hp : p < e) (h0 : (t p).toNat ≠ 0)
      (h4 : (t p).toNat ≤ 4) (hrest : Walk t e (p + 8) ids q) : Walk t e p ids q

/-- What `mpinit` should come to: all entries consumed and the first processors recorded, or the
panic after the loop. -/
inductive Expected (t : Table) : Except Panic State → Prop
  | consumed {s : State} {ids : List Byte} {q : Nat}
      (hwalk : Walk t (confLength t) confSize ids q) (hq : confLength t ≤ q)
      (hcpus : s.cpus = ids.take ncpu) : Expected t (.ok s)
  | unknown {ids : List Byte} {q : Nat} (hwalk : Walk t (confLength t) confSize ids q)
      (hq : q < confLength t) : Expected t (.error .unsuitable)

section
variable {t : Table} {e p q fuel : Nat} {ids : List Byte} {s : State}

theorem exists_walk (t : Table) (e p : Nat) : ∃ ids q, Walk t e p ids q := by
  induction hn : e - p using Nat.strong_induction_on generalizing p with
  | _ n ih =>
    by_cases hstop : e ≤ p ∨ 4 < (t p).toNat
    · exact ⟨[], p, .stop hstop⟩
    · rw [not_or, not_le, not_lt] at hstop
      by_cases h0 : (t p).toNat = 0
      · obtain ⟨ids, q, h⟩ := ih (e - (p + 20)) (by omega) (p + 20) rfl
        exact ⟨_, q, .proc hstop.1 h0 h⟩
      · obtain ⟨ids, q, h⟩ := ih (e - (p + 8)) (by omega) (p + 8) rfl
        exact ⟨ids, q, .other hstop.1 h0 hstop.2 h⟩

theorem Walk.unique {ids' : List Byte} {q' : Nat} (h : Walk t e p ids q)
    (h' : Walk t e p ids' q') : q' = q := by
  induction h generalizing ids' with
  | stop hs =>
    cases h' with
    | stop => rfl
    | proc => omega
    | other => omega
  | proc hp ht _ ih =>
    cases h' with
    | stop => omega
    | proc _ _ hrest => exact ih hrest
    | other => omega
  | other hp h0 h4 _ ih =>
    cases h' with
    | stop => omega
    | proc => omega
    | other _ _ _ hrest => exact ih hrest

theorem Walk.end_or_unknown (h : Walk t e p ids q) : e ≤ q ∨ 4 < (t q).toNat := by
  induction h with
  | stop h => exact h
  | proc _ _ _ ih => exact ih
  | other _ _ _ _ ih => exact ih

/-! ### The loop -/

theorem mpEntry_proc (h : (t s.p).toNat = 0) :
    mpEntry t s = { s with
      cpus := if s.cpus.length < ncpu then s.cpus ++ [t (s.p + 1)] else s.cpus
      p := s.p + 20 } := by
  rw [mpEntry, h]
  rfl

/-- The entries of other known types are skipped, and leave the processors alone. -/
theorem mpEntry_other (h0 : (t s.p).toNat ≠ 0) (h4 : (t s.p).toNat ≤ 4) :
    (mpEntry t s).cpus = s.cpus ∧ (mpEntry t s).ismp = s.ismp ∧ (mpEntry t s).p = s.p + 8 := by
  obtain h | h | h | h : (t s.p).toNat = 1 ∨ (t s.p).toNat = 2 ∨ (t s.p).toNat = 3 ∨
      (t s.p).toNat = 4 := by omega
  all_goals
    rw [mpEntry, h]
    exact ⟨rfl, rfl, rfl⟩

theorem mpEntry_unknown (h : 4 < (t s.p).toNat) : mpEntry t s = { s with ismp := false } := by
  unfold mpEntry
  split <;> first | omega | rfl

/-- The loop follows the walk. -/
theorem mpLoop_walk (h : Walk t e p ids q) (hp : s.p = p) (hlen : s.cpus.length ≤ ncpu) :
    ∃ n s', (∀ fuel, mpLoop t e (fuel + n) s = mpLoop t e fuel s') ∧ s'.p = q ∧
      s'.cpus = (s.cpus ++ ids).take ncpu ∧ s'.ismp = s.ismp := by
  induction h generalizing s with
  | stop =>
    refine ⟨0, s, fun _ => rfl, hp, ?_, rfl⟩
    rw [List.append_nil, List.take_of_length_le hlen]
  | @proc p q ids hlt ht _ ih =>
    subst hp
    have hentry := mpEntry_proc ht
    obtain ⟨n, s', hrun, hp', hcpus, hismp⟩ := ih (s := mpEntry t s) (by rw [hentry]) (by
      rw [hentry]
      dsimp only
      split
      · rw [List.length_append, List.length_singleton]
        omega
      · exact hlen)
    refine ⟨n + 1, s', fun fuel => ?_, hp', ?_, ?_⟩
    · rw [← Nat.add_assoc, mpLoop, if_pos hlt, hrun]
    · rw [hcpus, hentry]
      dsimp only
      split
      · rw [List.append_assoc]
        rfl
      · -- the table of processors is full
        rw [List.take_append_of_le_length (by omega), List.take_append_of_le_length (by omega)]
    · rw [hismp, hentry]
  | @other p q ids hlt h0 h4 _ ih =>
    subst hp
    obtain ⟨hc, hi, hnext⟩ := mpEntry_other h0 h4
    obtain ⟨n, s', hrun, hp', hcpus, hismp⟩ := ih (s := mpEntry t s) hnext (by rw [hc]; exact hlen)
    refine ⟨n + 1, s', fun fuel => ?_, hp', by rw [hcpus, hc], by rw [hismp, hi]⟩
    rw [← Nat.add_assoc, mpLoop, if_pos hlt, hrun]

/-- At an entry of an unknown type the loop goes on for ever. -/
theorem mpLoop_unknown (hp : s.p < e) (h : 4 < (t s.p).toNat) : mpLoop t e fuel s = none := by
  induction fuel generalizing s with
  | zero => rfl
  | succ fuel ih =>
    rw [mpLoop, if_pos hp, mpEntry_unknown h]
    exact ih hp h

theorem mpLoop_add {r : State} (h : mpLoop t e fuel s = some r) (n : Nat) :
    mpLoop t e (fuel + n) s = some r := by
  induction fuel generalizing s with
  | zero => cases h
  | succ fuel ih =>
    rw [mpLoop] at h
    rw [Nat.add_right_comm, mpLoop]
    split at h
    · next hp => rw [if_pos hp, ih h]
    · next hp => rw [if_neg hp, h]

/-- How `mpinit` ends on a valid table whose walk is known. -/
theorem mpinit_of_walk (hvalid : mpconfig t = true)
    (hwalk : Walk t (confLength t) confSize ids q) :
    (confLength t ≤ q → ∃ fuel s, mpinit t fuel = some (.ok s) ∧ s.cpus = ids.take ncpu) ∧
    (q < confLength t → ∀ fuel, mpinit t fuel = none) := by
  obtain ⟨n, s', hrun, hp, hcpus, hismp⟩ :=
    mpLoop_walk (s := ⟨[], 0#8, true, confSize⟩) hwalk rfl (Nat.zero_le _)
  constructor
  · intro hq
    refine ⟨1 + n, s', ?_, hcpus⟩
    rw [mpinit, if_pos hvalid, hrun, mpLoop, if_neg (by omega), Option.map_some, hismp]
    rfl
  · intro hq fuel
    have hstuck : mpLoop t (confLength t) (fuel + n) ⟨[], 0#8, true, confSize⟩ = none := by
      rw [hrun]
      exact mpLoop_unknown (hp ▸ hq) (hp ▸ hwalk.end_or_unknown.resolve_left (by omega))
    rw [mpinit, if_pos hvalid]
    cases hloop : mpLoop t (confLength t) fuel ⟨[], 0#8, true, confSize⟩ with
    | none => rfl
    | some r =>
      rw [mpLoop_add hloop n] at hstuck
      cases hstuck

end

/-- On a valid table `mpinit` comes to what it should after finitely many rounds, exactly if it
meets no entry of an unknown type. -/
theorem mpinit_ends_iff {t : Table} (hvalid : mpconfig t = true) :
    (∃ fuel r, mpinit t fuel = some r ∧ Expected t r) ↔
      ∀ ids q, Walk t (confLength t) confSize ids q → confLength t ≤ q := by
  obtain ⟨ids, q, hwalk⟩ := exists_walk t (confLength t) confSize
  obtain ⟨hend, hforever⟩ := mpinit_of_walk hvalid hwalk
  constructor
  · rintro ⟨fuel, r, hrun, -⟩ ids' q' hwalk'
    rw [hwalk.unique hwalk']
    by_contra hlt
    rw [hforever (not_le.mp hlt) fuel] at hrun
    cases hrun
  · intro h
    obtain ⟨fuel, s, hrun, hcpus⟩ := hend (h ids q hwalk)
    exact ⟨fuel, _, hrun, .consumed hwalk (h ids q hwalk) hcpus⟩

/-- The smallest tables with one entry: the header, and then the type of the entry. -/
def tableOf (checksum type : Byte) : Table := fun i =>
  ([0x50#8, 0x43#8, 0x4D#8, 0x50#8, 45#8, 0#8, 1#8, checksum] ++ List.replicate 36 0#8 ++
    [type]).getD i 0#8

/-- A table with one bus. -/
theorem mpinit_ends_iff_bus : mpconfig (tableOf 161#8 1#8) = true ∧
    ((∃ fuel r, mpinit (tableOf 161#8 1#8) fuel = some r ∧ Expected (tableOf 161#8 1#8) r) ↔
      ∀ ids q, Walk (tableOf 161#8 1#8) (confLength (tableOf 161#8 1#8)) confSize ids q →
        confLength (tableOf 161#8 1#8) ≤ q) :=
  ⟨by decide, mpinit_ends_iff (by decide)⟩

/-- A valid table with one entry of type 5: the loop does not end. -/
theorem mpinit_hangs : ∃ t : Table, mpconfig t = true ∧ ∀ fuel, mpinit t fuel = none := by
  refine ⟨tableOf 157#8 5#8, by decide, ?_⟩
  exact (mpinit_of_walk (by decide) (.stop (.inr (by decide)))).2 (by decide)

end Xv6.Mp
