import Mathlib.Logic.Function.Basic
import Xv6.Lib.Reach
import Xv6.Mmu

/-!
# Xv6.Log.Crash

The redo log on disk: `write_log`, `write_head`, `install_trans`, `commit` and
`recover_from_log` of `log.c`, and what a crash between two block writes can leave behind.

A machine has a disk, a buffer cache and the in-memory log header, and keeps the disk
contents after each `bwrite`: these are the disks a crash can leave. After a crash the
cache is empty and `recover_from_log` runs, which may be cut short again.

Seen from outside the log, a disk is always in one of two situations: its header is
clear and its blocks are as some whole number of transactions left them (`Clean`), or
the header names a transaction whose blocks are all in the log and of which any part has
been installed (`Pending`). Recovery leads from both to the first.
-/

namespace Xv6

open Function (update)

/-- A disk block, as 128 words. -/
abbrev Block := Nat → Word

/-- The blocks of a disk, by number. -/
abbrev Disk := Nat → Block

/-- `LOGSIZE`. -/
def logsize : Nat := 30

/-- `log.start` and `log.size`. -/
structure LogArea where
  start : Nat
  size : Nat
  size_pos : 0 < size

/-- The blocks of the log, header included. -/
def LogArea.holds (L : LogArea) (b : Nat) : Prop := L.start ≤ b ∧ b < L.start + L.size

/-! ### The program -/

/-- The disk, the buffer cache, the in-memory header, and the disk after each write. -/
structure Machine where
  disk : Disk
  cache : Nat → Option Block
  /-- `log.lh.block[0..n)`. -/
  lh : List Word
  trace : List Disk

namespace Machine

/-- The data `bread` returns. That it also fills the cache shows nowhere. -/
def bread (m : Machine) (b : Nat) : Block := (m.cache b).getD (m.disk b)

/-- Fill a buffer with `data` and `bwrite` it. -/
def bwrite (m : Machine) (b : Nat) (data : Block) : Machine :=
  { m with
    disk := update m.disk b data
    cache := update m.cache b (some data)
    trace := m.trace ++ [update m.disk b data] }

end Machine

/-- The block numbers in an on-disk header. -/
def headBlocks (h : Block) : List Word := (List.range (h 0).toInt.toNat).map fun i => h (i + 1)

/-- A header block after `write_head` has filled in `n` and `block[0..n)`. -/
def setHead (h : Block) (bs : List Word) : Block := fun j =>
  if j = 0 then BitVec.ofNat 32 bs.length else bs[j - 1]?.getD (h j)

section
variable (L : LogArea)

/-- `write_head`. -/
def writeHead (m : Machine) : Machine := m.bwrite L.start (setHead (m.bread L.start) m.lh)

/-- `read_head`. -/
def readHead (m : Machine) : Machine := { m with lh := headBlocks (m.bread L.start) }

/-- The loop of `write_log`, from `tail` on. -/
def writeLogFrom : Nat → List Word → Machine → Machine
  | _, [], m => m
  | tail, b :: bs, m =>
    writeLogFrom (tail + 1) bs (m.bwrite (L.start + tail + 1) (m.bread b.toNat))

/-- The loop of `install_trans`, from `tail` on. -/
def installFrom : Nat → List Word → Machine → Machine
  | _, [], m => m
  | tail, b :: bs, m => installFrom (tail + 1) bs (m.bwrite b.toNat (m.bread (L.start + tail + 1)))

/-- `commit`. -/
def commit (m : Machine) : Machine :=
  if m.lh = [] then m
  else
    let m := writeLogFrom L 0 m.lh m
    let m := writeHead L m
    let m := installFrom L 0 m.lh m
    writeHead L { m with lh := [] }

/-- `recover_from_log`. -/
def recoverFromLog (m : Machine) : Machine :=
  let m := readHead L m
  let m := installFrom L 0 m.lh m
  writeHead L { m with lh := [] }

end

/-- The machine after a reboot. -/
def reboot (d : Disk) : Machine := { disk := d, cache := fun _ => none, lh := [], trace := [] }

/-- The disks that `f` can leave behind if it is interrupted, in order. -/
def crashPoints (f : Machine → Machine) (m : Machine) : List Disk :=
  m.disk :: (f { m with trace := [] }).trace

/-- Recovery from `d`, interrupted any number of times, ends with the disk `d'`. -/
inductive Recovers (L : LogArea) : Disk → Disk → Prop
  | done (d : Disk) : Recovers L d (recoverFromLog L (reboot d)).disk
  | crash {d d1 d' : Disk} :
      d1 ∈ crashPoints (recoverFromLog L) (reboot d) → Recovers L d1 d' → Recovers L d d'

/-! ### Transactions -/

/-- A transaction as `log_write` leaves it: distinct home blocks outside the log, few
enough to fit, and their new contents. -/
structure Txn (L : LogArea) where
  blocks : List Word
  data : Nat → Block
  nodup : blocks.Nodup
  outside : ∀ b ∈ blocks, ¬ L.holds b.toNat
  fits : blocks.length ≤ logsize ∧ blocks.length ≤ L.size - 1

/-- The home blocks. -/
def Txn.homes {L : LogArea} (t : Txn L) : List Nat := t.blocks.map BitVec.toNat

/-- The disk with all of a transaction's blocks replaced. -/
def Txn.apply {L : LogArea} (t : Txn L) (d : Disk) : Disk := fun b =>
  if b ∈ t.homes then t.data b else d b

/-- A machine that is about to commit `t`: the home blocks are in the cache, and any other
cached block is as on the disk. -/
structure Primed {L : LogArea} (t : Txn L) (m : Machine) : Prop where
  lh : m.lh = t.blocks
  home : ∀ b ∈ t.homes, m.cache b = some (t.data b)
  other : ∀ b, b ∉ t.homes → m.bread b = m.disk b

/-- One transaction is committed; the label says after how many block writes the machine
crashed, if it did. -/
inductive Txn.Step (L : LogArea) : Disk → Txn L × Option Nat → Disk → Prop
  | commit {m : Machine} {t : Txn L} :
      Primed t m → Step L m.disk (t, none) (commit L m).disk
  | crash {m : Machine} {t : Txn L} {k : Nat} {d d' : Disk} :
      Primed t m → (crashPoints (Xv6.commit L) m)[k]? = some d → Recovers L d d' →
      Step L m.disk (t, some k) d'

/-- What a step should do: all of the transaction, unless the machine crashed before the
header was written, which takes one more write than there are blocks. -/
def Txn.effect {L : LogArea} (d : Disk) (l : Txn L × Option Nat) : Disk :=
  match l.2 with
  | none => l.1.apply d
  | some k => if k ≤ l.1.blocks.length then d else l.1.apply d

/-! ### The two situations -/

/-- The header is clear, and outside the log the disk is `a`. -/
structure Clean (L : LogArea) (a d : Disk) : Prop where
  head : d L.start 0 = 0#32
  rest : ∀ b, ¬ L.holds b → d b = a b

/-- The header names `t`, the log holds its blocks, and they have been installed over `a`
in part. -/
structure Pending {L : LogArea} (t : Txn L) (a d : Disk) : Prop where
  head : headBlocks (d L.start) = t.blocks
  log : ∀ i (h : i < t.blocks.length), d (L.start + i + 1) = t.data t.blocks[i].toNat
  home : ∀ b ∈ t.homes, d b = a b ∨ d b = t.data b
  rest : ∀ b, ¬ L.holds b → b ∉ t.homes → d b = a b

section
variable {L : LogArea} {t : Txn L} {a d : Disk} {m : Machine}

@[simp] theorem bread_bwrite_self (m : Machine) (b : Nat) (data : Block) :
    (m.bwrite b data).bread b = data := by
  simp [Machine.bwrite, Machine.bread]

theorem bread_bwrite_of_ne (m : Machine) {b b' : Nat} (data : Block) (h : b' ≠ b) :
    (m.bwrite b data).bread b' = m.bread b' := by
  simp [Machine.bwrite, Machine.bread, h]

@[simp] theorem disk_bwrite_self (m : Machine) (b : Nat) (data : Block) :
    (m.bwrite b data).disk b = data := by
  simp [Machine.bwrite]

theorem disk_bwrite_of_ne (m : Machine) {b b' : Nat} (data : Block) (h : b' ≠ b) :
    (m.bwrite b data).disk b' = m.disk b' := by
  simp [Machine.bwrite, h]

theorem LogArea.holds_start (L : LogArea) : L.holds L.start :=
  ⟨le_rfl, by have := L.size_pos; omega⟩

/-- The log has a block for each block of a transaction. -/
theorem Txn.holds_log (t : Txn L) {i : Nat} (h : i < t.blocks.length) :
    L.holds (L.start + i + 1) := by
  have := t.fits.2
  exact ⟨by omega, by omega⟩

theorem Txn.home_outside (t : Txn L) {b : Nat} (h : b ∈ t.homes) : ¬ L.holds b := by
  obtain ⟨w, hw, rfl⟩ := List.mem_map.mp h
  exact t.outside w hw

theorem Txn.home_mem (t : Txn L) {i : Nat} (h : i < t.blocks.length) :
    t.blocks[i].toNat ∈ t.homes :=
  List.mem_map.mpr ⟨_, List.getElem_mem h, rfl⟩

theorem headBlocks_setHead (h : Block) {bs : List Word} (hlen : bs.length < 2 ^ 31) :
    headBlocks (setHead h bs) = bs := by
  have hn : (setHead h bs 0).toInt.toNat = bs.length := by
    have hnat : (BitVec.ofNat 32 bs.length).toNat = bs.length := by
      rw [BitVec.toNat_ofNat]
      omega
    rw [setHead, if_pos rfl, BitVec.toInt_eq_toNat_of_lt (by omega), hnat]
    rfl
  rw [headBlocks, hn]
  refine List.ext_getElem (by simp) fun i h1 h2 => ?_
  simp [setHead, h2]

theorem headBlocks_clear {h : Block} (h0 : h 0 = 0#32) : headBlocks h = [] := by
  simp [headBlocks, h0]

/-! ### Installing -/

/-- `install_trans` has done the first `j` blocks of `t`. -/
structure Installing (t : Txn L) (a : Disk) (j : Nat) (m : Machine) : Prop where
  pending : Pending t a m.disk
  lh : m.lh = t.blocks
  reads : ∀ i (h : i < t.blocks.length), m.bread (L.start + i + 1) = t.data t.blocks[i].toNat
  head : m.bread L.start = m.disk L.start
  done : ∀ i (_ : i < t.blocks.length), i < j → m.disk t.blocks[i].toNat = t.data t.blocks[i].toNat

theorem Installing.step {j : Nat} (h : Installing t a j m) (hj : j < t.blocks.length) :
    Installing t a (j + 1)
      (m.bwrite t.blocks[j].toNat (m.bread (L.start + j + 1))) := by
  have hout : ∀ {b}, L.holds b → b ≠ t.blocks[j].toNat := by
    rintro b hb rfl
    exact t.home_outside (t.home_mem hj) hb
  rw [h.reads j hj]
  refine ⟨⟨?_, fun i hi => ?_, fun b hb => ?_, fun b hb hne => ?_⟩, h.lh, fun i hi => ?_, ?_,
    fun i hi hij => ?_⟩
  · rw [disk_bwrite_of_ne _ _ (hout L.holds_start)]
    exact h.pending.head
  · rw [disk_bwrite_of_ne _ _ (hout (t.holds_log hi))]
    exact h.pending.log i hi
  · by_cases hbj : b = t.blocks[j].toNat
    · rw [hbj, disk_bwrite_self]
      exact .inr rfl
    · rw [disk_bwrite_of_ne _ _ hbj]
      exact h.pending.home b hb
  · have hbj : b ≠ t.blocks[j].toNat := by
      rintro rfl
      exact hne (t.home_mem hj)
    rw [disk_bwrite_of_ne _ _ hbj]
    exact h.pending.rest b hb hne
  · rw [bread_bwrite_of_ne _ _ (hout (t.holds_log hi))]
    exact h.reads i hi
  · rw [bread_bwrite_of_ne _ _ (hout L.holds_start), disk_bwrite_of_ne _ _ (hout L.holds_start)]
    exact h.head
  · by_cases hne : t.blocks[i].toNat = t.blocks[j].toNat
    · rw [hne, disk_bwrite_self]
    · rw [disk_bwrite_of_ne _ _ hne]
      refine h.done i hi ?_
      have : i ≠ j := by
        rintro rfl
        exact hne rfl
      omega

/-- `install_trans`, from any point on; the disks it passes through are all pending. -/
theorem installFrom_spec (bs : List Word) :
    ∀ {j : Nat} {m : Machine}, t.blocks.drop j = bs → Installing t a j m →
      Installing t a t.blocks.length (installFrom L j bs m) ∧
        ∃ ds, (installFrom L j bs m).trace = m.trace ++ ds ∧ ∀ d ∈ ds, Pending t a d := by
  induction bs with
  | nil =>
    intro j m hdrop h
    have hj : t.blocks.length ≤ j := List.drop_eq_nil_iff.mp hdrop
    exact ⟨{ h with done := fun i hi _ => h.done i hi (by omega) }, [], by simp [installFrom],
      by simp⟩
  | cons b bs ih =>
    intro j m hdrop h
    have hj : j < t.blocks.length := by
      by_contra hle
      rw [List.drop_eq_nil_of_le (by omega)] at hdrop
      exact absurd hdrop (by simp)
    obtain ⟨rfl, rfl⟩ := List.cons.inj ((List.drop_eq_getElem_cons hj).symm.trans hdrop)
    have hstep := h.step hj
    obtain ⟨hdone, ds, htrace, hds⟩ := ih rfl hstep
    refine ⟨hdone, (m.bwrite t.blocks[j].toNat (m.bread (L.start + j + 1))).disk :: ds, ?_, ?_⟩
    · rw [installFrom, htrace]
      simp [Machine.bwrite]
    · intro d hd
      rcases List.mem_cons.mp hd with rfl | hd
      · exact hstep.pending
      · exact hds d hd

/-- Clearing the header of an installed transaction. -/
theorem Installing.clear (h : Installing t a t.blocks.length m) :
    Clean L (t.apply a) (writeHead L { m with lh := [] }).disk := by
  refine ⟨?_, fun b hb => ?_⟩
  · simp [writeHead, setHead]
  · have hne : b ≠ L.start := fun he => hb (he ▸ L.holds_start)
    rw [writeHead, disk_bwrite_of_ne _ _ hne]
    show m.disk b = t.apply a b
    by_cases hbh : b ∈ t.homes
    · rw [Txn.apply, if_pos hbh]
      obtain ⟨w, hw, rfl⟩ := List.mem_map.mp hbh
      obtain ⟨i, hi, rfl⟩ := List.getElem_of_mem hw
      exact h.done i hi hi
    · rw [Txn.apply, if_neg hbh]
      exact h.pending.rest b hb hbh

end

/-! ### Writing the log -/

section
variable {L : LogArea} {t : Txn L} {a d : Disk} {m : Machine}

/-- `write_log` has done the first `j` blocks of `t`, of a machine that was primed. -/
structure Logging (t : Txn L) (a : Disk) (j : Nat) (m : Machine) : Prop where
  clean : Clean L a m.disk
  lh : m.lh = t.blocks
  home : ∀ b ∈ t.homes, m.bread b = t.data b
  head : m.bread L.start = m.disk L.start
  log : ∀ i (_ : i < t.blocks.length), i < j →
    m.disk (L.start + i + 1) = t.data t.blocks[i].toNat ∧
      m.bread (L.start + i + 1) = t.data t.blocks[i].toNat

theorem Primed.logging (h : Primed t m) (hc : Clean L a m.disk) : Logging t a 0 m := by
  refine ⟨hc, h.lh, fun b hb => ?_, h.other _ fun hb => ?_, fun i _ hi => absurd hi (by omega)⟩
  · rw [Machine.bread, h.home b hb]
    rfl
  · exact t.home_outside hb L.holds_start

theorem Logging.step {j : Nat} (h : Logging t a j m) (hj : j < t.blocks.length) :
    Logging t a (j + 1) (m.bwrite (L.start + j + 1) (m.bread t.blocks[j].toNat)) := by
  have hlog := t.holds_log hj
  have hstart : L.start ≠ L.start + j + 1 := by omega
  have hout : ∀ {b}, ¬ L.holds b → b ≠ L.start + j + 1 := fun hb he => hb (he ▸ hlog)
  rw [h.home _ (t.home_mem hj)]
  refine ⟨⟨?_, fun b hb => ?_⟩, h.lh, fun b hb => ?_, ?_, fun i hi hij => ?_⟩
  · rw [disk_bwrite_of_ne _ _ hstart]
    exact h.clean.head
  · rw [disk_bwrite_of_ne _ _ (hout hb)]
    exact h.clean.rest b hb
  · rw [bread_bwrite_of_ne _ _ (hout (t.home_outside hb))]
    exact h.home b hb
  · rw [bread_bwrite_of_ne _ _ hstart, disk_bwrite_of_ne _ _ hstart]
    exact h.head
  · by_cases hne : i = j
    · subst hne
      exact ⟨disk_bwrite_self .., bread_bwrite_self ..⟩
    · have hne' : L.start + i + 1 ≠ L.start + j + 1 := by omega
      rw [disk_bwrite_of_ne _ _ hne', bread_bwrite_of_ne _ _ hne']
      exact h.log i hi (by omega)

/-- `write_log`, from any point on; the disks it passes through are all clean. -/
theorem writeLogFrom_spec (bs : List Word) :
    ∀ {j : Nat} {m : Machine}, t.blocks.drop j = bs → Logging t a j m →
      Logging t a t.blocks.length (writeLogFrom L j bs m) ∧
        ∃ ds, (writeLogFrom L j bs m).trace = m.trace ++ ds ∧ ds.length = bs.length ∧
          ∀ d ∈ ds, Clean L a d := by
  induction bs with
  | nil =>
    intro j m hdrop h
    have hj : t.blocks.length ≤ j := List.drop_eq_nil_iff.mp hdrop
    exact ⟨{ h with log := fun i hi _ => h.log i hi (by omega) }, [], by simp [writeLogFrom],
      rfl, by simp⟩
  | cons b bs ih =>
    intro j m hdrop h
    have hj : j < t.blocks.length := by
      by_contra hle
      rw [List.drop_eq_nil_of_le (by omega)] at hdrop
      exact absurd hdrop (by simp)
    obtain ⟨rfl, rfl⟩ := List.cons.inj ((List.drop_eq_getElem_cons hj).symm.trans hdrop)
    have hstep := h.step hj
    obtain ⟨hdone, ds, htrace, hlen, hds⟩ := ih rfl hstep
    refine ⟨hdone, (m.bwrite (L.start + j + 1) (m.bread t.blocks[j].toNat)).disk :: ds, ?_,
      by rw [List.length_cons, List.length_cons, hlen], ?_⟩
    · rw [writeLogFrom, htrace]
      simp [Machine.bwrite]
    · intro d hd
      rcases List.mem_cons.mp hd with rfl | hd
      · exact hstep.clean
      · exact hds d hd

/-- The first `write_head` of `commit` is the commit point. -/
theorem Logging.writeHead (h : Logging t a t.blocks.length m) :
    Installing t a 0 (writeHead L m) := by
  have hne : ∀ i, L.start + i + 1 ≠ L.start := fun i => by omega
  have hlen : t.blocks.length < 2 ^ 31 := by
    have := t.fits.1
    have : logsize = 30 := rfl
    omega
  have hout : ∀ {b}, ¬ L.holds b → b ≠ L.start := fun hb he => hb (he ▸ L.holds_start)
  unfold Xv6.writeHead
  rw [h.lh]
  refine ⟨⟨?_, fun i hi => ?_, fun b hb => .inl ?_, fun b hb hnh => ?_⟩, h.lh, fun i hi => ?_, ?_,
    fun i _ hi => absurd hi (by omega)⟩
  · rw [disk_bwrite_self, headBlocks_setHead _ hlen]
  · rw [disk_bwrite_of_ne _ _ (hne i)]
    exact (h.log i hi hi).1
  · rw [disk_bwrite_of_ne _ _ (hout (t.home_outside hb))]
    exact h.clean.rest b (t.home_outside hb)
  · rw [disk_bwrite_of_ne _ _ (hout hb)]
    exact h.clean.rest b hb
  · rw [bread_bwrite_of_ne _ _ (hne i)]
    exact (h.log i hi hi).2
  · rw [bread_bwrite_self, disk_bwrite_self]

/-! ### `commit` and `recover_from_log` -/

theorem trace_writeHead (m : Machine) :
    (writeHead L m).trace = m.trace ++ [(writeHead L m).disk] := rfl

/-- Installing a pending transaction and clearing the header. -/
theorem Installing.finish (h : Installing t a 0 m) :
    let m' := writeHead L { installFrom L 0 m.lh m with lh := [] }
    Clean L (t.apply a) m'.disk ∧
      ∃ ds, m'.trace = m.trace ++ ds ∧ ∀ d ∈ ds, Pending t a d ∨ Clean L (t.apply a) d := by
  intro m'
  obtain ⟨hdone, ds, htrace, hds⟩ := installFrom_spec m.lh (by rw [h.lh]; rfl) h
  refine ⟨hdone.clear, ds ++ [m'.disk], ?_, fun d hd => ?_⟩
  · show (writeHead L { installFrom L 0 m.lh m with lh := [] }).trace = _
    rw [trace_writeHead]
    show (installFrom L 0 m.lh m).trace ++ _ = _
    rw [htrace, List.append_assoc]
  · rcases List.mem_append.mp hd with hd | hd
    · exact .inl (hds d hd)
    · rw [List.mem_singleton.mp hd]
      exact .inr hdone.clear

theorem Txn.apply_of_empty (h : t.blocks = []) : t.apply a = a := by
  funext b
  simp [Txn.apply, Txn.homes, h]

/-- The three phases of a `commit` with something to do: the disks while the log is
written, and the disks from the first `write_head` on. -/
theorem commit_phases (h : Primed t m) (hc : Clean L a m.disk) (hne : t.blocks ≠ []) :
    Clean L (t.apply a) (commit L m).disk ∧
      ∃ ds1 ds2, (commit L m).trace = m.trace ++ ds1 ++ ds2 ∧ ds1.length = t.blocks.length ∧
        (∀ d ∈ ds1, Clean L a d) ∧ ∀ d ∈ ds2, Pending t a d ∨ Clean L (t.apply a) d := by
  obtain ⟨hlog, ds1, htrace1, hlen, hds1⟩ :=
    writeLogFrom_spec m.lh (by rw [h.lh]; rfl) (h.logging hc)
  have hinst := hlog.writeHead
  obtain ⟨hclean, ds2, htrace2, hds2⟩ := hinst.finish
  have heq : commit L m = writeHead L { installFrom L 0 (writeHead L (writeLogFrom L 0 m.lh m)).lh
      (writeHead L (writeLogFrom L 0 m.lh m)) with lh := [] } := by
    rw [commit, if_neg (by rw [h.lh]; exact hne)]
  rw [heq]
  refine ⟨hclean, ds1, (writeHead L (writeLogFrom L 0 m.lh m)).disk :: ds2, ?_,
    by rw [hlen, h.lh], hds1, fun d hd => ?_⟩
  · rw [htrace2, trace_writeHead, htrace1]
    simp
  · rcases List.mem_cons.mp hd with rfl | hd
    · exact .inl hinst.pending
    · exact hds2 d hd

/-- What `commit` does, and what a crash in it leaves: until the header is written, a
clean disk with the old contents; from then on one from which the new contents follow. -/
theorem commit_spec (h : Primed t m) (hc : Clean L a m.disk) :
    Clean L (t.apply a) (commit L m).disk ∧
      ∀ k d, (crashPoints (commit L) m)[k]? = some d →
        (k ≤ t.blocks.length → Clean L a d) ∧
        (t.blocks.length < k → Pending t a d ∨ Clean L (t.apply a) d) := by
  by_cases hne : t.blocks = []
  · have heq : ∀ m' : Machine, m'.lh = m.lh → commit L m' = m' := by
      intro m' hlh
      rw [commit, if_pos (by rw [hlh, h.lh, hne])]
    rw [heq m rfl, Txn.apply_of_empty hne]
    refine ⟨hc, fun k d hk => ?_⟩
    rw [crashPoints, heq { m with trace := [] } rfl] at hk
    have hk0 : d = m.disk := by
      cases k with
      | zero => simpa using hk.symm
      | succ k => simp at hk
    rw [hk0]
    exact ⟨fun _ => hc, fun _ => .inr hc⟩
  · refine ⟨(commit_phases h hc hne).1, fun k d hk => ?_⟩
    have h' : Primed t { m with trace := [] } := ⟨h.lh, h.home, h.other⟩
    obtain ⟨-, ds1, ds2, htrace, hlen, hds1, hds2⟩ := commit_phases h' hc hne
    rw [crashPoints, htrace] at hk
    change ((m.disk :: ds1) ++ ds2)[k]? = some d at hk
    refine ⟨fun hle => ?_, fun hlt => ?_⟩
    · rw [List.getElem?_append_left (by rw [List.length_cons]; omega)] at hk
      rcases List.mem_cons.mp (List.mem_of_getElem? hk) with rfl | hd
      · exact hc
      · exact hds1 d hd
    · rw [List.getElem?_append_right (by rw [List.length_cons]; omega)] at hk
      exact hds2 d (List.mem_of_getElem? hk)

/-- Recovery of a clean disk, and every crash in it, leaves its contents. -/
theorem recover_clean (hc : Clean L a d) :
    Clean L a (recoverFromLog L (reboot d)).disk ∧
      ∀ d' ∈ crashPoints (recoverFromLog L) (reboot d), Clean L a d' := by
  have hhead : (readHead L (reboot d)).lh = [] := headBlocks_clear hc.head
  have heq : recoverFromLog L (reboot d) = writeHead L (reboot d) := by
    unfold recoverFromLog
    dsimp only
    rw [hhead]
    rfl
  have hclean : Clean L a (writeHead L (reboot d)).disk := by
    refine ⟨by simp [writeHead, setHead, reboot], fun b hb => ?_⟩
    have hne : b ≠ L.start := fun he => hb (he ▸ L.holds_start)
    rw [writeHead, disk_bwrite_of_ne _ _ hne]
    exact hc.rest b hb
  refine ⟨heq ▸ hclean, fun d' hd' => ?_⟩
  have htrace : (recoverFromLog L { reboot d with trace := [] }).trace =
      [(writeHead L (reboot d)).disk] := by
    show (recoverFromLog L (reboot d)).trace = _
    rw [heq]
    rfl
  rw [crashPoints, htrace] at hd'
  rcases List.mem_cons.mp hd' with rfl | hd'
  · exact hc
  · rw [List.mem_singleton.mp hd']
    exact hclean

/-- Recovery of a pending transaction completes it, and every crash in it leaves it
pending or complete. -/
theorem recover_pending (hp : Pending t a d) :
    Clean L (t.apply a) (recoverFromLog L (reboot d)).disk ∧
      ∀ d' ∈ crashPoints (recoverFromLog L) (reboot d),
        Pending t a d' ∨ Clean L (t.apply a) d' := by
  have hinst : Installing t a 0 (readHead L (reboot d)) :=
    ⟨hp, hp.head, hp.log, rfl, fun i _ hi => absurd hi (by omega)⟩
  obtain ⟨hclean, ds, htrace, hds⟩ := hinst.finish
  refine ⟨hclean, fun d' hd' => ?_⟩
  rcases List.mem_cons.mp hd' with rfl | hd'
  · exact .inl hp
  · refine hds d' ?_
    have : (recoverFromLog L (reboot d)).trace = ds := htrace
    rwa [← this]

/-- Recovery of a clean disk, however often it is interrupted. -/
theorem Recovers.clean {d d' : Disk} (h : Recovers L d d') (hc : Clean L a d) : Clean L a d' := by
  induction h with
  | done d => exact (recover_clean hc).1
  | crash hd _ ih => exact ih ((recover_clean hc).2 _ hd)

/-- Recovery of a pending or installed transaction, however often it is interrupted. -/
theorem Recovers.pending {d d' : Disk} (h : Recovers L d d')
    (hp : Pending t a d ∨ Clean L (t.apply a) d) : Clean L (t.apply a) d' := by
  induction h with
  | done d =>
    rcases hp with hp | hc
    · exact (recover_pending hp).1
    · exact (recover_clean hc).1
  | crash hd _ ih =>
    rcases hp with hp | hc
    · exact ih ((recover_pending hp).2 _ hd)
    · exact ih (.inr ((recover_clean hc).2 _ hd))

theorem Txn.Step.clean {l : Txn L × Option Nat} {d d' : Disk} (h : Txn.Step L d l d')
    (hc : Clean L a d) : Clean L (Txn.effect a l) d' := by
  cases h with
  | commit hp => exact (commit_spec hp hc).1
  | @crash m t k d1 d' hp hk hrec =>
    obtain ⟨hbefore, hafter⟩ := (commit_spec hp hc).2 k d1 hk
    show Clean L (if k ≤ t.blocks.length then a else t.apply a) d'
    by_cases hle : k ≤ t.blocks.length
    · rw [if_pos hle]
      exact hrec.clean (hbefore hle)
    · rw [if_neg hle]
      exact hrec.pending (hafter (by omega))

/-- Any sequence of transactions, each completed or cut short by a crash and recovered from,
on a disk with a clear header: the header is clear again, and outside the log the disk is
what it was with every transaction applied whole, except those cut short before their
header was written, which have left no trace. -/
theorem log_atomic {d d' : Disk} {ls : List (Txn L × Option Nat)} (h0 : d L.start 0 = 0#32)
    (h : Trace (Txn.Step L) d ls d') :
    d' L.start 0 = 0#32 ∧ ∀ b, ¬ L.holds b → d' b = ls.foldl Txn.effect d b := by
  have hclean : ∀ {a}, Clean L a d → Clean L (ls.foldl Txn.effect a) d' := by
    clear h0
    induction h with
    | nil => exact fun hc => hc
    | cons hs _ ih => exact fun hc => ih (hs.clean hc)
  have hd := hclean ⟨h0, fun _ _ => rfl⟩
  exact ⟨hd.head, hd.rest⟩

end

/-- A transaction of one block, on a log of 30 blocks, whose `commit` is cut short right after
the header has been written. -/
theorem log_atomic_one_block :
    let L : LogArea := { start := 2, size := 30, size_pos := by decide }
    let t : Txn L :=
      { blocks := [50#32], data := fun _ _ => 1#32, nodup := by decide
        outside := fun b hb h => absurd (List.mem_singleton.mp hb ▸ h.2) (by decide)
        fits := by decide }
    ∃ d', Trace (Txn.Step L) (fun _ _ => 0#32) [(t, some 2)] d' ∧ d' 2 0 = 0#32 ∧
      d' 50 = fun _ => 1#32 := by
  intro L t
  have hprimed : Primed t
      { disk := fun _ _ => 0#32, cache := fun b => if b = 50 then some fun _ => 1#32 else none
        lh := [50#32], trace := [] } := by
    refine ⟨rfl, fun b hb => ?_, fun b hb => ?_⟩
    · have hb : b = 50 := by simpa [Txn.homes, t] using hb
      simp [hb, t]
    · have hb : b ≠ 50 := by simpa [Txn.homes, t] using hb
      simp [Machine.bread, hb]
  have hstep := Txn.Step.crash hprimed (k := 2) rfl (.done _)
  have hmain := log_atomic rfl (.cons hstep (.nil _))
  refine ⟨_, .cons hstep (.nil _), hmain.1, ?_⟩
  rw [hmain.2 50 (by simp [LogArea.holds, L])]
  rfl

end Xv6
