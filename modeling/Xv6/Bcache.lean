import Xv6.Ide
import Xv6.Lib.Dlist
import Xv6.Lib.Holders
import Xv6.Lib.Kern

/-!
# Xv6.Bcache

The buffer cache of `bio.c` and the part of `log.c` that works on it. Any number of
acquisitions of buffers are in progress, each from its `bget` to the end of its `brelse`; a
process has as many of them as buffers that it is using. Between two steps of one, steps
of the others happen: a step ends where `acquiresleep` may sleep, where `bcache.lock` is
released, and where the holder changes the data. The driver is that of the memory disk,
for each of the two disks.

Besides what the kernel keeps, a state has the contents that were last given to `log_write`
or `bwrite` for each block, and which buffers `bget` has returned since the start.
-/

namespace Xv6

open Function (update update_self update_of_ne update_eq_self update_idem)

/-- `NBUF`. -/
def nbuf : Nat := 30

/-- The block that a buffer is for. -/
def Buf.id (b : Buf) : Nat × Nat := (b.dev, b.blockno)

/-- Why an operation does not return: it panics, or it sleeps. -/
inductive BioStop
  /-- `panic("bget: no buffers")`. -/
  | noBuffers
  /-- `panic("bwrite")`. -/
  | bwrite
  /-- `panic("brelse")`. -/
  | brelse
  /-- `panic("iderw: buf not locked")`. -/
  | notLocked
  /-- `panic("iderw: nothing to do")`. -/
  | nothingToDo
  /-- `panic("incorrect blockno")`. -/
  | blockno
  /-- `panic("too big a transaction")`. -/
  | tooBig
  /-- `acquiresleep` of a lock that is taken. -/
  | asleep
  deriving DecidableEq

/-- Where an acquisition is. -/
inductive Ticket
  | idle
  /-- In `acquiresleep`, for this block. -/
  | waiting (b : Fin nbuf) (k : Nat × Nat)
  /-- With the buffer, perhaps with a change that is not yet logged or written. -/
  | holding (b : Fin nbuf) (k : Nat × Nat) (changed : Bool)
  /-- In `brelse`, after `releasesleep`. -/
  | leaving (b : Fin nbuf)
  deriving DecidableEq

/-- The buffer that is counted for an acquisition in `refcnt`. -/
def Ticket.buf : Ticket → Option (Fin nbuf)
  | .idle => none
  | .waiting b _ | .holding b _ _ | .leaving b => some b

/-- The buffer and block of an acquisition that has not released it. -/
def Ticket.target : Ticket → Option (Fin nbuf × (Nat × Nat))
  | .waiting b k | .holding b k _ => some (b, k)
  | _ => none

/-- The buffer whose lock is held. -/
def Ticket.held : Ticket → Option (Fin nbuf)
  | .holding b _ _ => some b
  | _ => none

/-- The buffer with a change. -/
def Ticket.changed : Ticket → Option (Fin nbuf)
  | .holding b _ true => some b
  | _ => none

section
variable {c : Ticket} {b : Fin nbuf}

theorem Ticket.buf_of_target {k : Nat × Nat} (h : c.target = some (b, k)) : c.buf = some b := by
  cases c <;> cases h <;> rfl

theorem Ticket.buf_of_held (h : c.held = some b) : c.buf = some b := by
  cases c <;> cases h
  rfl

theorem Ticket.held_of_changed (h : c.changed = some b) : c.held = some b := by
  cases c with
  | holding b k m =>
    cases m <;> cases h
    rfl
  | _ => cases h

end

structure Bcache (T : Type) where
  /-- The list from `bcache.head`. -/
  links : Dlist (Fin nbuf)
  buf : Fin nbuf → Buf
  refcnt : Fin nbuf → Nat
  lock : Fin nbuf → Option T
  disk : Nat → Disk
  /-- `log.lh.block[0..n)`. -/
  lh : List Word
  ticket : T → Ticket
  /-- The buffers that `bget` has returned. -/
  handed : Fin nbuf → Bool
  /-- What `log_write` or `bwrite` got last. -/
  given : Nat × Nat → Option Block

/-- The list that `binit` makes. -/
def binit : Dlist (Fin nbuf) := (List.finRange nbuf).foldl Dlist.push Dlist.empty

section
variable {T : Type} [DecidableEq T]

abbrev Bio (T : Type) := Kern (Bcache T) BioStop

theorem update_disk (d : Nat → Disk) (dev n : Nat) (data : Block) (k : Nat × Nat) :
    update d dev (update (d dev) n data) k.1 k.2 = if k = (dev, n) then data else d k.1 k.2 := by
  by_cases hdev : k.1 = dev
  · rw [hdev, update_self]
    by_cases hn : k.2 = n
    · rw [hn, update_self, if_pos (Prod.ext hdev hn)]
    · rw [update_of_ne hn, if_neg fun hk => hn (congrArg Prod.snd hk)]
  · rw [update_of_ne hdev, if_neg fun hk => hdev (congrArg Prod.fst hk)]

/-- The first loop of `bget`. -/
def Bcache.cached (x : Bcache T) (k : Nat × Nat) : Option (Fin nbuf) :=
  firstLink x.links.next (fun b => decide ((x.buf b).id = k)) nbuf none

/-- The second loop of `bget`. -/
def Bcache.unused (x : Bcache T) : Option (Fin nbuf) :=
  firstLink x.links.prev (fun b => x.refcnt b == 0 && !(x.buf b).dirty) nbuf none

/-- `bget`, to where it calls `acquiresleep`. -/
def bget (t : T) (k : Nat × Nat) : Bio T (Fin nbuf) := do
  let x ← get
  match x.cached k with
  | some b =>
    set { x with
      refcnt := update x.refcnt b (x.refcnt b + 1)
      ticket := update x.ticket t (.waiting b k)
      handed := update x.handed b true }
    pure b
  | none =>
    match x.unused with
    | some b =>
      set { x with
        buf := update x.buf b
          { x.buf b with dev := k.1, blockno := k.2, valid := false, dirty := false }
        refcnt := update x.refcnt b 1
        ticket := update x.ticket t (.waiting b k)
        handed := update x.handed b true }
      pure b
    | none => throw .noBuffers

/-- `iderw`. -/
def iderw (t : T) (b : Fin nbuf) : Bio T Unit := do
  let x ← get
  if x.lock b ≠ some t then throw .notLocked
  else if (x.buf b).Clean then throw .nothingToDo
  else if fssize ≤ (x.buf b).blockno then throw .blockno
  else
    let r := (x.buf b).sync (x.disk (x.buf b).dev)
    set { x with disk := update x.disk (x.buf b).dev r.1, buf := update x.buf b r.2 }

/-- `acquiresleep` in `bget`, and the rest of `bread`. -/
def breadLocked (t : T) (b : Fin nbuf) (k : Nat × Nat) : Bio T Unit := do
  let x ← get
  if x.lock b ≠ none then throw .asleep
  else
    set { x with
      lock := update x.lock b (some t)
      ticket := update x.ticket t (.holding b k false) }
    if (x.buf b).valid then pure () else iderw t b

/-- The holder changes the data. -/
def setData (t : T) (b : Fin nbuf) (k : Nat × Nat) (data : Block) : Bio T Unit :=
  modify fun x => { x with
    buf := update x.buf b { x.buf b with data := data }
    ticket := update x.ticket t (.holding b k true) }

/-- The contents of a block have been given. -/
def giveData (t : T) (b : Fin nbuf) (k : Nat × Nat) : Bio T Unit :=
  modify fun x => { x with
    given := update x.given (x.buf b).id (some (x.buf b).data)
    ticket := update x.ticket t (.holding b k false) }

/-- `log_write`. -/
def logWrite (L : LogArea) (t : T) (b : Fin nbuf) (k : Nat × Nat) : Bio T Unit := do
  let x ← get
  if logsize ≤ x.lh.length ∨ L.size - 1 ≤ x.lh.length then throw .tooBig
  else
    let n := BitVec.ofNat 32 (x.buf b).blockno
    set { x with
      lh := if n ∈ x.lh then x.lh else x.lh ++ [n]
      buf := update x.buf b { x.buf b with dirty := true } }
    giveData t b k

/-- `bwrite`. -/
def bwrite (t : T) (b : Fin nbuf) (k : Nat × Nat) : Bio T Unit := do
  let x ← get
  if x.lock b ≠ some t then throw .bwrite
  else
    set { x with buf := update x.buf b { x.buf b with dirty := true } }
    iderw t b
    giveData t b k

/-- `brelse`, to the end of `releasesleep`. -/
def brelseLock (t : T) (b : Fin nbuf) : Bio T Unit := do
  let x ← get
  if x.lock b ≠ some t then throw .brelse
  else set { x with lock := update x.lock b none, ticket := update x.ticket t (.leaving b) }

/-- The rest of `brelse`. -/
def brelseRef (t : T) (b : Fin nbuf) : Bio T Unit :=
  modify fun x => { x with
    refcnt := update x.refcnt b (x.refcnt b - 1)
    links := if x.refcnt b - 1 = 0 then (x.links.unlink b).push b else x.links
    ticket := update x.ticket t .idle }

end

/-! ### Commit -/

section
variable {T : Type} [DecidableEq T] (L : LogArea) (dev : Nat) (t u : T)

def bread (k : Nat × Nat) : Bio T (Fin nbuf) := do
  let b ← bget t k
  breadLocked t b k
  pure b

def brelse (b : Fin nbuf) : Bio T Unit := do
  brelseLock t b
  brelseRef t b

/-- The end of a round of `write_log` and of `install_trans`: copy the data of the buffer `c`
to the buffer `b` and write it. -/
def copyBuf (b c : Fin nbuf) (k : Nat × Nat) : Bio T Unit := do
  let x ← get
  setData t b k (x.buf c).data
  bwrite t b k
  brelse u c
  brelse t b

/-- The loop of `write_log`, from `tail` on. -/
def writeLogLoop : Nat → List Word → Bio T Unit
  | _, [] => pure ()
  | tail, n :: ns => do
    let dst ← bread t (dev, L.start + tail + 1)
    let src ← bread u (dev, n.toNat)
    copyBuf t u dst src (dev, L.start + tail + 1)
    writeLogLoop (tail + 1) ns

/-- The loop of `install_trans`, from `tail` on. -/
def installLoop : Nat → List Word → Bio T Unit
  | _, [] => pure ()
  | tail, n :: ns => do
    let lbuf ← bread u (dev, L.start + tail + 1)
    let dbuf ← bread t (dev, n.toNat)
    copyBuf t u dbuf lbuf (dev, n.toNat)
    installLoop (tail + 1) ns

/-- `write_head`. -/
def writeHeader : Bio T Unit := do
  let b ← bread t (dev, L.start)
  let x ← get
  setData t b (dev, L.start) (setHead (x.buf b).data x.lh)
  bwrite t b (dev, L.start)
  brelse t b

/-- `commit`. -/
def bioCommit : Bio T Unit := do
  let x ← get
  if x.lh = [] then pure ()
  else
    writeLogLoop L dev t u 0 x.lh
    writeHeader L dev t
    let x ← get
    installLoop L dev t u 0 x.lh
    modify fun x => { x with lh := [] }
    writeHeader L dev t

end

/-! ### Steps -/

/-- The steps of an acquisition. -/
inductive BioCall (T : Type)
  | bget (t : T) (k : Nat × Nat)
  | breadLocked (t : T) (b : Fin nbuf) (k : Nat × Nat)
  | setData (t : T) (b : Fin nbuf) (k : Nat × Nat) (data : Block)
  | logWrite (t : T) (b : Fin nbuf) (k : Nat × Nat)
  | bwrite (t : T) (b : Fin nbuf) (k : Nat × Nat)
  | brelseLock (t : T) (b : Fin nbuf) (k : Nat × Nat)
  | brelseRef (t : T) (b : Fin nbuf)
  /-- `log.lh.n = 0` in `commit`. -/
  | clearHead

namespace BioCall

variable {T : Type} [DecidableEq T]

/-- What a step does. -/
def exec (L : LogArea) : BioCall T → Bio T Unit
  | .bget t k => do
    let _ ← Xv6.bget t k
    pure ()
  | .breadLocked t b k => Xv6.breadLocked t b k
  | .setData t b k data => Xv6.setData t b k data
  | .logWrite t b k => Xv6.logWrite L t b k
  | .bwrite t b k => Xv6.bwrite t b k
  | .brelseLock t b _ => Xv6.brelseLock t b
  | .brelseRef t b => Xv6.brelseRef t b
  | .clearHead => modify fun x => { x with lh := [] }

omit [DecidableEq T] in
/-- Where the acquisition is at a step: a change is logged or written before the release. -/
def At (x : Bcache T) : BioCall T → Prop
  | .bget t k => x.ticket t = .idle ∧ k.1 < 2
  | .breadLocked t b k => x.ticket t = .waiting b k
  | .setData t b k _ | .logWrite t b k | .bwrite t b k => ∃ c, x.ticket t = .holding b k c
  | .brelseLock t b k => x.ticket t = .holding b k false
  | .brelseRef t b => x.ticket t = .leaving b
  | .clearHead => True

def Step (L : LogArea) (x : Bcache T) (e : BioCall T) (y : Bcache T) : Prop :=
  e.At x ∧ (e.exec L).run x = .ok ((), y)

end BioCall

/-! ### The invariant -/

namespace Bcache

section
variable {T : Type}

/-- What was last given for a block, or what was on the disk. -/
def content (d : Nat → Disk) (x : Bcache T) (k : Nat × Nat) : Block :=
  (x.given k).getD (d k.1 k.2)

/-- The links, the blocks of the buffers and who uses them. -/
structure Shape (x : Bcache T) (l : List (Fin nbuf)) : Prop where
  circ : x.links.Circ l
  all : ∀ b, b ∈ l
  distinct : ∀ {b c}, x.handed b = true → x.handed c = true → (x.buf b).id = (x.buf c).id → b = c
  fresh : ∀ {b}, x.handed b = false → (x.buf b).id = (0, 0)
  /-- A buffer for block 0 of disk 0 comes before those that were never used. -/
  older : l.Pairwise fun c b => x.handed b = true → (x.buf b).id = (0, 0) → x.handed c = true
  claimed : ∀ {t b}, (x.ticket t).buf = some b → x.handed b = true
  locked : ∀ {t b}, x.lock b = some t ↔ (x.ticket t).held = some b
  target : ∀ {t b k}, (x.ticket t).target = some (b, k) → (x.buf b).id = k

/-- The data. -/
structure Data (d : Nat → Disk) (x : Bcache T) : Prop where
  handed : ∀ {b}, (x.buf b).valid = true → x.handed b = true
  held : ∀ {t b}, (x.ticket t).held = some b → (x.buf b).valid = true
  dirty : ∀ {b}, (x.buf b).dirty = true → (x.buf b).valid = true
  data : ∀ {b}, (x.buf b).valid = true → (∀ t, (x.ticket t).changed ≠ some b) →
    (x.buf b).data = x.content d (x.buf b).id
  disk : ∀ {k}, (∀ b, (x.buf b).id = k → (x.buf b).dirty = false) →
    x.disk k.1 k.2 = x.content d k

/-- The invariant of every run. -/
structure Ok [Fintype T] (d : Nat → Disk) (x : Bcache T) : Prop where
  shape : ∃ l, x.Shape l
  refs : x.refcnt = holders fun t => (x.ticket t).buf
  data : x.Data d

end

section
variable {T : Type} {x y : Bcache T} {l l1 l2 : List (Fin nbuf)} {t t' : T} {b c : Fin nbuf}
  {k : Nat × Nat}

section
variable (h : x.Shape l)
include h

theorem Shape.length_le : l.length ≤ nbuf := by
  have hlen := h.circ.nodup.length_le_card
  rwa [Fintype.card_fin] at hlen

theorem Shape.cached_eq : x.cached k = l.find? fun b => decide ((x.buf b).id = k) :=
  h.circ.next.firstLink h.length_le

/-- A buffer that `bget` finds is the first for its block. -/
theorem Shape.cached_some (hk : x.cached k = some b) :
    (x.buf b).id = k ∧ ∃ l1 l2, l = l1 ++ b :: l2 ∧ ∀ c ∈ l1, (x.buf c).id ≠ k := by
  rw [h.cached_eq, List.find?_eq_some_iff_append] at hk
  obtain ⟨hb, l1, l2, hl, hfirst⟩ := hk
  refine ⟨of_decide_eq_true hb, l1, l2, hl, fun c hc hck => ?_⟩
  have hnot := hfirst c hc
  simp [hck] at hnot

theorem Shape.cached_none (hk : x.cached k = none) (b : Fin nbuf) : (x.buf b).id ≠ k := by
  rw [h.cached_eq, List.find?_eq_none] at hk
  intro hb
  exact hk b (h.all b) (decide_eq_true hb)

theorem Shape.unused_eq : x.unused = l.reverse.find? fun b => x.refcnt b == 0 && !(x.buf b).dirty :=
  h.circ.prev.firstLink (by rw [List.length_reverse]; exact h.length_le)

theorem Shape.unused_ne_none (hb : x.refcnt b = 0) (hd : (x.buf b).dirty = false) :
    x.unused ≠ none := by
  rw [h.unused_eq]
  intro hnone
  have := List.find?_eq_none.mp hnone b (List.mem_reverse.mpr (h.all b))
  simp [hb, hd] at this

theorem Shape.unused_some (hb : x.unused = some b) : x.refcnt b = 0 ∧ (x.buf b).dirty = false := by
  rw [h.unused_eq] at hb
  have := List.find?_some hb
  simpa using this

theorem Shape.keep (hlinks : y.links = x.links) (hid : ∀ b, (y.buf b).id = (x.buf b).id)
    (hhanded : y.handed = x.handed)
    (hclaimed : ∀ {t b}, (y.ticket t).buf = some b → (x.ticket t).buf = some b)
    (hlocked : ∀ {t b}, y.lock b = some t ↔ (y.ticket t).held = some b)
    (htarget : ∀ {t p}, (y.ticket t).target = some p → (x.ticket t).target = some p) :
    y.Shape l := by
  refine ⟨hlinks ▸ h.circ, h.all, fun {b c} hb hc hbc => ?_, fun {b} hb => ?_, ?_,
    fun {t b} ht => ?_, hlocked, fun {t b k} ht => ?_⟩
  · rw [hid, hid] at hbc
    exact h.distinct (hhanded ▸ hb) (hhanded ▸ hc) hbc
  · rw [hid]
    exact h.fresh (hhanded ▸ hb)
  · refine h.older.imp fun {c b} hcb hb hk => ?_
    rw [hid] at hk
    rw [hhanded] at hb ⊢
    exact hcb hb hk
  · rw [hhanded]
    exact h.claimed (hclaimed ht)
  · rw [hid]
    exact h.target (htarget ht)

end

variable [DecidableEq T]

theorem Shape.locked_same {c1 : Ticket} (h : x.Shape l) (hlock : y.lock = x.lock)
    (hticket : y.ticket = update x.ticket t c1) (hc : c1.held = (x.ticket t).held) :
    y.lock b = some t' ↔ (y.ticket t').held = some b := by
  rw [hlock, hticket, h.locked]
  by_cases htt : t' = t
  · rw [htt, update_self, hc]
  · rw [update_of_ne htt]

/-- A buffer is handed out for a block that no other used buffer is for. -/
theorem Shape.hand (h : x.Shape l) (ht : x.ticket t = .idle) (hlinks : y.links = x.links)
    (hlock : y.lock = x.lock) (hhanded : y.handed = update x.handed b true)
    (hticket : y.ticket = update x.ticket t (.waiting b k)) (hbk : (y.buf b).id = k)
    (hbuf : ∀ c, c ≠ b → y.buf c = x.buf c)
    (huniq : ∀ c, c ≠ b → x.handed c = true → (x.buf c).id ≠ k)
    (htarget : ∀ t' k', (x.ticket t').target = some (b, k') → k' = k)
    (holder : l.Pairwise fun c e =>
      y.handed e = true → (y.buf e).id = (0, 0) → y.handed c = true) : y.Shape l := by
  have hself : y.handed b = true := by rw [hhanded, update_self]
  have hother : ∀ {c}, c ≠ b → y.handed c = x.handed c := by
    intro c hc
    rw [hhanded, update_of_ne hc]
  refine ⟨hlinks ▸ h.circ, h.all, fun {c e} hc he hce => ?_, fun {c} hc => ?_, holder,
    fun {t' c} ht' => ?_, h.locked_same hlock hticket (by rw [ht]; rfl), fun {t' c k'} ht' => ?_⟩
  · by_cases hcb : c = b <;> by_cases heb : e = b
    · rw [hcb, heb]
    · rw [hcb, hbk, hbuf e heb] at hce
      exact absurd hce.symm (huniq e heb (hother heb ▸ he))
    · rw [heb, hbk, hbuf c hcb] at hce
      exact absurd hce (huniq c hcb (hother hcb ▸ hc))
    · rw [hbuf c hcb, hbuf e heb] at hce
      exact h.distinct (hother hcb ▸ hc) (hother heb ▸ he) hce
  · have hcb : c ≠ b := by
      rintro rfl
      rw [hself] at hc
      cases hc
    rw [hbuf c hcb]
    exact h.fresh (hother hcb ▸ hc)
  · rw [hticket] at ht'
    by_cases hcb : c = b
    · rw [hcb]
      exact hself
    · rw [hother hcb]
      by_cases htt : t' = t
      · rw [htt, update_self] at ht'
        exact absurd (Option.some.inj ht').symm hcb
      · rw [update_of_ne htt] at ht'
        exact h.claimed ht'
  · rw [hticket] at ht'
    by_cases htt : t' = t
    · rw [htt, update_self] at ht'
      cases ht'
      exact hbk
    · rw [update_of_ne htt] at ht'
      by_cases hcb : c = b
      · subst hcb
        rw [hbk, htarget t' k' ht']
      · rw [hbuf c hcb]
        exact h.target ht'

/-- A buffer is handed out for its own block. -/
theorem Shape.hit (h : x.Shape l) (ht : x.ticket t = .idle) (hk : x.cached k = some b)
    (hlinks : y.links = x.links) (hbuf : y.buf = x.buf) (hlock : y.lock = x.lock)
    (hhanded : y.handed = update x.handed b true)
    (hticket : y.ticket = update x.ticket t (.waiting b k)) : y.Shape l := by
  obtain ⟨hbk, l1, l2, hl, hfirst⟩ := h.cached_some hk
  have hup : ∀ c, y.handed c = true ↔ c = b ∨ x.handed c = true := by
    intro c
    rw [hhanded]
    by_cases hc : c = b <;> simp [hc]
  have hold := h.older
  rw [hl, List.pairwise_append, List.pairwise_cons] at hold
  obtain ⟨h1, ⟨hb2, h2⟩, h12⟩ := hold
  refine h.hand ht hlinks hlock hhanded hticket (hbuf ▸ hbk) (fun c _ => by rw [hbuf])
    (fun c hcb hc hck => ?_) (fun t' k' ht' => (h.target ht').symm.trans hbk) ?_
  · -- of the used buffers none but `b` is for this block
    by_cases hb : x.handed b = true
    · exact hcb (h.distinct hc hb (hck.trans hbk.symm))
    · have hk0 : k = (0, 0) := hbk.symm.trans (h.fresh (Bool.not_eq_true _ ▸ hb))
      have hcl := h.all c
      rw [hl, List.mem_append, List.mem_cons] at hcl
      rcases hcl with hc1 | hc1 | hc2
      · exact hfirst c hc1 hck
      · exact hcb hc1
      · exact hb (hb2 c hc2 hc (hck.trans hk0))
  · have hnd := h.circ.nodup
    rw [hl] at hnd ⊢
    rw [List.pairwise_append, List.pairwise_cons]
    have hnot : b ∉ l2 := (List.nodup_cons.mp hnd.of_append_right).1
    rw [hbuf]
    refine ⟨h1.imp_of_mem fun {c d} hc hd hcd hdh hd0 => ?_, ⟨fun d _ _ _ => (hup b).mpr (.inl rfl),
      h2.imp_of_mem fun {c d} hc hd hcd hdh hd0 => ?_⟩, fun c hc d hd hdh hd0 => ?_⟩
    · rcases (hup d).mp hdh with rfl | hdh
      · exact absurd hbk (hfirst d hd)
      · exact (hup c).mpr (.inr (hcd hdh hd0))
    · rcases (hup d).mp hdh with rfl | hdh
      · exact absurd hd hnot
      · exact (hup c).mpr (.inr (hcd hdh hd0))
    · rcases (hup d).mp hdh with rfl | hdh
      · -- a buffer that was never used would have been found before
        refine (hup c).mpr (.inr ?_)
        by_contra hch
        exact hfirst c hc ((h.fresh (Bool.eq_false_iff.mpr hch)).trans (hd0.symm.trans hbk))
      · exact (hup c).mpr (.inr (h12 c hc d hd hdh hd0))

/-- A buffer that nobody uses is handed out for another block. -/
theorem Shape.recycle (h : x.Shape l) (ht : x.ticket t = .idle) (hk : x.cached k = none)
    (hb : ∀ t, (x.ticket t).buf ≠ some b) (hlinks : y.links = x.links)
    (hbk : (y.buf b).id = k) (hbuf : ∀ c, c ≠ b → y.buf c = x.buf c) (hlock : y.lock = x.lock)
    (hhanded : y.handed = update x.handed b true)
    (hticket : y.ticket = update x.ticket t (.waiting b k)) : y.Shape l := by
  have hnone := h.cached_none hk
  refine h.hand ht hlinks hlock hhanded hticket hbk hbuf (fun c _ _ => hnone c)
    (fun t' k' ht' => absurd (Ticket.buf_of_target ht') (hb t')) ?_
  refine h.older.imp fun {c d} hcd hd hd0 => ?_
  rw [hhanded] at hd ⊢
  by_cases hcb : c = b
  · rw [hcb, update_self]
  · rw [update_of_ne hcb]
    by_cases hdb : d = b
    · -- no buffer is for block 0 of disk 0, so all have been used
      rw [hdb, hbk] at hd0
      by_contra hc
      exact hnone c ((h.fresh (Bool.eq_false_iff.mpr hc)).trans hd0.symm)
    · rw [update_of_ne hdb] at hd
      rw [hbuf d hdb] at hd0
      exact hcd hd hd0

omit [DecidableEq T] in
/-- The last user of a buffer leaves, and the buffer goes behind the head. -/
theorem Shape.leave (h : x.Shape l) (hb : x.handed b = true)
    (hlinks : y.links = (x.links.unlink b).push b) (hbuf : y.buf = x.buf)
    (hhanded : y.handed = x.handed) (hlock : y.lock = x.lock)
    (hclaimed : ∀ {t b}, (y.ticket t).buf = some b → (x.ticket t).buf = some b)
    (hlocked : ∀ {t b}, x.lock b = some t ↔ (y.ticket t).held = some b)
    (htarget : ∀ {t p}, (y.ticket t).target = some p → (x.ticket t).target = some p) :
    ∃ l', y.Shape l' := by
  obtain ⟨l1, l2, rfl⟩ := List.append_of_mem (h.all b)
  have hnd := h.circ.nodup
  have hsub : (l1 ++ l2).Sublist (l1 ++ b :: l2) := (List.sublist_cons_self b l2).append_left l1
  have hnot : b ∉ l1 ++ l2 := (List.nodup_middle.mp hnd).notMem
  have hold := h.older.sublist hsub
  -- the same buffers and tickets, with another list
  have hkeep : { y with links := x.links }.Shape (l1 ++ b :: l2) :=
    h.keep rfl (fun b => by rw [hbuf]) hhanded hclaimed (by rw [hlock]; exact hlocked) htarget
  refine ⟨b :: (l1 ++ l2), ⟨hlinks ▸ h.circ.unlink.push hnot, fun c => ?_, hkeep.distinct,
    hkeep.fresh, ?_, hkeep.claimed, hkeep.locked, hkeep.target⟩⟩
  · have hc := h.all c
    simp only [List.mem_append, List.mem_cons] at hc ⊢
    tauto
  · rw [hhanded, hbuf]
    exact List.pairwise_cons.mpr ⟨fun _ _ _ _ => hb, hold⟩

omit [DecidableEq T] in
theorem Data.eq_content {d : Nat → Disk} (h : x.Data d) (ht : (x.ticket t).changed = none)
    (hv : (x.buf b).valid = true) (hch : ∀ t', t' ≠ t → (x.ticket t').changed ≠ some b) :
    (x.buf b).data = x.content d (x.buf b).id := by
  refine h.data hv fun t' => ?_
  by_cases htt : t' = t
  · rw [htt, ht]
    nofun
  · exact hch t' htt

/-- A step of `t` on the buffer `b` leaves the data as they should be. -/
theorem Data.touch {d : Nat → Disk} {v : Buf} {c1 : Ticket} (h : x.Data d)
    (hbuf : y.buf = update x.buf b v) (hid : v.id = (x.buf b).id)
    (hticket : y.ticket = update x.ticket t c1)
    (hold : ∀ {c}, (x.ticket t).changed = some c → c = b)
    (hheld : ∀ {c}, c1.held = some c → c = b ∧ v.valid = true)
    (hvalid : (x.buf b).valid = true ∨ v.dirty = true → v.valid = true)
    (hhanded : ∀ {c}, x.handed c = true → y.handed c = true)
    (hnew : v.valid = true → y.handed b = true)
    (hcontent : ∀ {c}, c ≠ b → (x.buf c).valid = true →
      y.content d (x.buf c).id = x.content d (x.buf c).id)
    (hother : ∀ {k}, k ≠ (x.buf b).id → x.disk k.1 k.2 = x.content d k →
      y.disk k.1 k.2 = y.content d k)
    (hdata : v.valid = true → c1.changed ≠ some b →
      (∀ t', t' ≠ t → (x.ticket t').changed ≠ some b) →
      v.data = y.content d (x.buf b).id)
    (hdisk : v.dirty = false →
      (∀ c, c ≠ b → (x.buf c).id = (x.buf b).id → (x.buf c).dirty = false) →
      y.disk (x.buf b).id.1 (x.buf b).id.2 = y.content d (x.buf b).id) : y.Data d := by
  have hself : y.buf b = v := by rw [hbuf, update_self]
  have hne : ∀ {c}, c ≠ b → y.buf c = x.buf c := by
    intro c hc
    rw [hbuf, update_of_ne hc]
  have ht : y.ticket t = c1 := by rw [hticket, update_self]
  have hnt : ∀ {t'}, t' ≠ t → y.ticket t' = x.ticket t' := by
    intro t' htt
    rw [hticket, update_of_ne htt]
  refine ⟨fun {c} hc => ?_, fun {t' c} ht' => ?_, fun {c} hc => ?_, fun {c} hc hch => ?_,
    fun {k} hk => ?_⟩
  · by_cases hcb : c = b
    · rw [hcb, hself] at hc
      rw [hcb]
      exact hnew hc
    · rw [hne hcb] at hc
      exact hhanded (h.handed hc)
  · by_cases htt : t' = t
    · rw [htt, ht] at ht'
      obtain ⟨rfl, hv⟩ := hheld ht'
      rw [hself]
      exact hv
    · rw [hnt htt] at ht'
      by_cases hcb : c = b
      · rw [hcb, hself]
        exact hvalid (.inl (hcb ▸ h.held ht'))
      · rw [hne hcb]
        exact h.held ht'
  · by_cases hcb : c = b
    · rw [hcb, hself] at hc ⊢
      exact hvalid (.inr hc)
    · rw [hne hcb] at hc ⊢
      exact h.dirty hc
  · by_cases hcb : c = b
    · rw [hcb, hself] at hc
      rw [hcb] at hch
      rw [hcb, hself, hid]
      refine hdata hc (ht ▸ hch t) fun t' htt => ?_
      rw [← hnt htt]
      exact hch t'
    · rw [hne hcb] at hc ⊢
      rw [hcontent hcb hc]
      refine h.data hc fun t' ht' => ?_
      by_cases htt : t' = t
      · exact hcb (hold (htt ▸ ht'))
      · exact hch t' ((hnt htt).symm ▸ ht')
  · by_cases hkb : k = (x.buf b).id
    · subst hkb
      refine hdisk (hself ▸ hk b (hself.symm ▸ hid)) fun c hcb hck => ?_
      rw [← hne hcb] at hck ⊢
      exact hk c hck
    · refine hother hkb (h.disk fun c hck => ?_)
      have hcb : c ≠ b := by
        rintro rfl
        exact hkb hck.symm
      rw [← hne hcb] at hck ⊢
      exact hk c hck

end

/-! ### The operations -/

section
variable {T : Type} [DecidableEq T] [Fintype T] {x y : Bcache T} {t u : T} {b : Fin nbuf}
  {k : Nat × Nat} {d : Nat → Disk} {m : Bool}

/-- A buffer that is in use, or has something to be written, stays with its block. -/
def Kept (x y : Bcache T) : Prop :=
  ∀ b, (∃ t, (x.ticket t).buf = some b) ∨ (x.buf b).dirty = true →
    (y.buf b).id = (x.buf b).id ∧ ((x.buf b).valid = true → (y.buf b).valid = true)

section
omit [DecidableEq T]

theorem Ok.handed (h : x.Ok d) (ht : (x.ticket t).buf = some b) : x.handed b = true :=
  h.shape.elim fun _ hs => hs.claimed ht

/-- A block is in no more than one of the buffers with data. -/
theorem Ok.only {c : Fin nbuf} (h : x.Ok d) (hb : x.handed b = true)
    (hc : (x.buf c).valid = true) (hid : (x.buf c).id = (x.buf b).id) : c = b :=
  h.shape.elim fun _ hs => hs.distinct (h.data.handed hc) hb hid

/-- The disk has what a buffer without changes should have. -/
theorem Ok.disk_eq (h : x.Ok d) (hb : x.handed b = true) (hdirty : (x.buf b).dirty = false) :
    x.disk (x.buf b).id.1 (x.buf b).id.2 = x.content d (x.buf b).id := by
  refine h.data.disk fun c hc => Bool.eq_false_iff.mpr fun hd => ?_
  rw [h.only hb (h.data.dirty hd) hc, hdirty] at hd
  cases hd

end

omit [Fintype T] in
theorem ticket_buf_update (f : T → Ticket) (t : T) (c : Ticket) :
    (fun t' => (update f t c t').buf) = update (fun t' => (f t').buf) t c.buf :=
  Function.comp_update Ticket.buf f t c

theorem Ok.refs_take {c : Ticket} (h : x.Ok d) (ht : x.ticket t = .idle) (hc : c.buf = some b) :
    (holders fun t' => (update x.ticket t c t').buf) = bump x.refcnt b := by
  rw [ticket_buf_update, hc, h.refs]
  exact holders_take (g := fun t' => (x.ticket t').buf) (congrArg Ticket.buf ht)

theorem Ok.refs_keep {c : Ticket} (h : x.Ok d) (hc : c.buf = (x.ticket t).buf) :
    (holders fun t' => (update x.ticket t c t').buf) = x.refcnt := by
  have hself : update (fun t' => (x.ticket t').buf) t (x.ticket t).buf =
      fun t' => (x.ticket t').buf := update_eq_self ..
  rw [ticket_buf_update, hc, hself, h.refs]

theorem Ok.refs_drop (h : x.Ok d) (ht : (x.ticket t).buf = some b) :
    x.refcnt = bump (holders fun t' => (update x.ticket t .idle t').buf) b := by
  rw [ticket_buf_update, h.refs]
  exact holders_drop (g := fun t' => (x.ticket t').buf) ht

theorem Ok.hit (h : x.Ok d) (ht : x.ticket t = .idle) (hk : x.cached k = some b)
    (hy : y = { x with
      refcnt := update x.refcnt b (x.refcnt b + 1)
      ticket := update x.ticket t (.waiting b k)
      handed := update x.handed b true }) : y.Ok d := by
  obtain ⟨l, hs⟩ := h.shape
  have hup : ∀ {c}, x.handed c = true → update x.handed b true c = true := by
    intro c hc
    by_cases hcb : c = b <;> simp [hcb, hc]
  subst hy
  refine ⟨⟨l, hs.hit ht hk rfl rfl rfl rfl rfl⟩, ?_, ?_⟩
  · exact (h.refs_take ht rfl).symm
  · refine h.data.touch (b := b) (t := t) (v := x.buf b) (update_eq_self ..).symm rfl rfl ?_
      nofun ?_ hup (fun hv => hup (h.data.handed hv)) (fun _ _ => rfl) (fun _ hk => hk) ?_ ?_
    · rw [ht]
      nofun
    · rintro (hv | hd)
      · exact hv
      · exact h.data.dirty hd
    · exact fun hv _ hch => h.data.eq_content (by rw [ht]; rfl) hv hch
    · intro hd hc
      refine h.data.disk fun c hcb => ?_
      by_cases hcb' : c = b
      · rw [hcb']
        exact hd
      · exact hc c hcb' hcb

theorem Ok.recycle (h : x.Ok d) (ht : x.ticket t = .idle) (hk : x.cached k = none)
    (hb : x.unused = some b)
    (hy : y = { x with
      buf := update x.buf b
        { x.buf b with dev := k.1, blockno := k.2, valid := false, dirty := false }
      refcnt := update x.refcnt b 1
      ticket := update x.ticket t (.waiting b k)
      handed := update x.handed b true }) : y.Ok d ∧ Kept x y := by
  obtain ⟨l, hs⟩ := h.shape
  obtain ⟨hzero, hclean⟩ := hs.unused_some hb
  have hfree : ∀ t, (x.ticket t).buf ≠ some b := by
    rw [h.refs] at hzero
    exact fun t => holders_eq_zero (g := fun t => (x.ticket t).buf) hzero
  have hself : (y.buf b).id = k ∧ (y.buf b).valid = false ∧ (y.buf b).dirty = false := by
    rw [hy]
    dsimp only
    rw [update_self]
    exact ⟨rfl, rfl, rfl⟩
  have hne : ∀ {c}, c ≠ b → y.buf c = x.buf c := by
    intro c hc
    rw [hy]
    exact update_of_ne hc ..
  have hother : ∀ {t'}, t' ≠ t → y.ticket t' = x.ticket t' := by
    intro t' htt
    rw [hy]
    exact update_of_ne htt ..
  have hwait : y.ticket t = .waiting b k := by
    rw [hy]
    exact update_self ..
  have hhanded : ∀ {c}, x.handed c = true → y.handed c = true := by
    intro c hc
    rw [hy]
    by_cases hcb : c = b <;> simp [hcb, hc]
  have hsame : y.disk = x.disk ∧ y.given = x.given := by
    rw [hy]
    exact ⟨rfl, rfl⟩
  refine ⟨⟨⟨l, ?_⟩, ?_, ?_⟩, ?_⟩
  · refine hs.recycle ht hk hfree ?_ hself.1 (fun c => hne) ?_ ?_ ?_ <;> rw [hy]
  · rw [hy]
    dsimp only
    rw [h.refs_take ht rfl, bump, hzero]
  · refine ⟨fun {c} hc => ?_, fun {t' c} ht' => ?_, fun {c} hc => ?_, fun {c} hc hch => ?_,
      fun {k'} hk' => ?_⟩
    · have hcb : c ≠ b := by
        rintro rfl
        rw [hself.2.1] at hc
        cases hc
      rw [hne hcb] at hc
      exact hhanded (h.data.handed hc)
    · have htt : t' ≠ t := by
        rintro rfl
        rw [hwait] at ht'
        cases ht'
      rw [hother htt] at ht'
      have hcb : c ≠ b := by
        rintro rfl
        exact hfree t' (Ticket.buf_of_held ht')
      rw [hne hcb]
      exact h.data.held ht'
    · have hcb : c ≠ b := by
        rintro rfl
        rw [hself.2.2] at hc
        cases hc
      rw [hne hcb] at hc ⊢
      exact h.data.dirty hc
    · have hcb : c ≠ b := by
        rintro rfl
        rw [hself.2.1] at hc
        cases hc
      rw [hne hcb] at hc ⊢
      rw [content, hsame.2]
      refine h.data.data hc fun t' => ?_
      by_cases htt : t' = t
      · rw [htt, ht]
        nofun
      · rw [← hother htt]
        exact hch t'
    · rw [hsame.1, content, hsame.2]
      refine h.data.disk fun c hc => ?_
      by_cases hcb : c = b
      · rw [hcb]
        exact hclean
      · rw [← hne hcb] at hc ⊢
        exact hk' c hc
  · intro c hc
    have hcb : c ≠ b := by
      rintro rfl
      rcases hc with ⟨t', ht'⟩ | hd
      · exact hfree t' ht'
      · rw [hclean] at hd
        cases hd
    rw [hne hcb]
    exact ⟨rfl, id⟩

/-- What an acquisition leaves alone. -/
structure Frame (x y : Bcache T) (t : T) (c : Ticket) : Prop where
  ticket : y.ticket = update x.ticket t c
  lh : y.lh = x.lh
  kept : Kept x y

theorem bget_spec (h : x.Ok d) (ht : x.ticket t = .idle) :
    Ends (bget t k) x (fun b y => y.Ok d ∧ Frame x y t (.waiting b k) ∧ y.given = x.given)
      (fun e => e = .noBuffers ∧ x.unused = none) := by
  unfold bget
  rw [ends_bind, ends_get]
  cases hk : x.cached k with
  | some b =>
    rw [ends_bind, ends_set]
    exact .ret ⟨h.hit ht hk rfl, ⟨rfl, rfl, fun _ _ => ⟨rfl, id⟩⟩, rfl⟩
  | none =>
    dsimp only
    cases hb : x.unused with
    | none => exact (ends_throw ..).mpr ⟨rfl, rfl⟩
    | some b =>
      obtain ⟨hok, hkept⟩ := h.recycle ht hk hb rfl
      rw [ends_bind, ends_set]
      exact .ret ⟨hok, ⟨rfl, rfl, hkept⟩, rfl⟩

theorem Ok.touch {v : Buf} {c1 : Ticket} (h : x.Ok d)
    (hsame : y.links = x.links ∧ y.handed = x.handed ∧ y.refcnt = x.refcnt)
    (hbuf : y.buf = update x.buf b v) (hid : v.id = (x.buf b).id)
    (hticket : y.ticket = update x.ticket t c1) (hb : c1.buf = (x.ticket t).buf)
    (htarget : ∀ {p}, c1.target = some p → (x.ticket t).target = some p)
    (hlocked : ∀ {t b}, y.lock b = some t ↔ (y.ticket t).held = some b)
    (hdata : y.Data d) : y.Ok d := by
  obtain ⟨l, hs⟩ := h.shape
  obtain ⟨hlinks, hhanded, hrefcnt⟩ := hsame
  have hup : ∀ t', y.ticket t' = x.ticket t' ∨ t' = t ∧ y.ticket t' = c1 := by
    intro t'
    rw [hticket]
    by_cases htt : t' = t
    · exact .inr ⟨htt, htt ▸ update_self ..⟩
    · exact .inl (update_of_ne htt ..)
  refine ⟨⟨l, hs.keep hlinks (fun c => ?_) hhanded (fun {t' c} ht' => ?_) hlocked
    fun {t' p} ht' => ?_⟩, ?_, hdata⟩
  · rw [hbuf]
    by_cases hcb : c = b
    · rw [hcb, update_self, hid]
    · rw [update_of_ne hcb]
  · rcases hup t' with hx | ⟨rfl, hc⟩
    · rw [← hx]
      exact ht'
    · rw [← hb, ← hc]
      exact ht'
  · rcases hup t' with hx | ⟨rfl, hc⟩
    · rw [← hx]
      exact ht'
    · rw [hc] at ht'
      exact htarget ht'
  · rw [hrefcnt, hticket]
    exact (h.refs_keep hb).symm

omit [DecidableEq T] in
theorem Ok.locked_iff (h : x.Ok d) {t : T} {b : Fin nbuf} :
    x.lock b = some t ↔ (x.ticket t).held = some b := h.shape.elim fun _ hs => hs.locked

theorem Ok.locked_set {c : Ticket} {o : Option T} (h : x.Ok d)
    (hlock : y.lock = update x.lock b o) (hticket : y.ticket = update x.ticket t c)
    (hc : o = some t ↔ c.held = some b)
    (hother : ∀ t', t' ≠ t → x.lock b ≠ some t' ∧ o ≠ some t')
    (hold : ∀ b', b' ≠ b → (x.ticket t).held ≠ some b' ∧ c.held ≠ some b') {t' : T}
    {b' : Fin nbuf} : y.lock b' = some t' ↔ (y.ticket t').held = some b' := by
  rw [hlock, hticket]
  by_cases hbb : b' = b <;> by_cases htt : t' = t
  · rw [hbb, htt, update_self, update_self, hc]
  · rw [hbb, update_self, update_of_ne htt, ← h.locked_iff]
    exact iff_of_false (hother t' htt).2 (hother t' htt).1
  · rw [htt, update_self, update_of_ne hbb, h.locked_iff]
    exact iff_of_false (hold b' hbb).1 (hold b' hbb).2
  · rw [update_of_ne hbb, update_of_ne htt, h.locked_iff]

section
omit [DecidableEq T]

/-- Only the holder of the lock has changed a buffer. -/
theorem Ok.not_changed {t' : T} (h : x.Ok d) (ht : (x.ticket t).held = some b) (htt : t' ≠ t) :
    (x.ticket t').changed ≠ some b := by
  intro ht'
  have hlock := h.locked_iff.mpr ht
  rw [h.locked_iff.mpr (Ticket.held_of_changed ht')] at hlock
  exact htt (Option.some.inj hlock)

theorem Ok.id_eq (h : x.Ok d) (ht : (x.ticket t).target = some (b, k)) : (x.buf b).id = k :=
  h.shape.elim fun _ hs => hs.target ht

/-- A holder that has not changed the buffer sees the contents of its block. -/
theorem Ok.data_eq (h : x.Ok d) (ht : x.ticket t = .holding b k false) :
    (x.buf b).data = x.content d k := by
  have hheld : (x.ticket t).held = some b := by rw [ht]; rfl
  have hid : (x.buf b).id = k := h.id_eq (by rw [ht]; rfl)
  rw [← hid]
  exact h.data.eq_content (by rw [ht]; rfl) (h.data.held hheld) fun t' htt =>
    h.not_changed hheld htt

end

omit [Fintype T] in
theorem iderw_spec (hlock : x.lock b = some t) (hclean : ¬ (x.buf b).Clean) :
    Ends (iderw t b) x (fun _ y => y = { x with
        disk := update x.disk (x.buf b).dev ((x.buf b).sync (x.disk (x.buf b).dev)).1
        buf := update x.buf b ((x.buf b).sync (x.disk (x.buf b).dev)).2 })
      (fun _ => fssize ≤ (x.buf b).blockno) := by
  unfold iderw
  rw [ends_bind, ends_get, ends_ite]
  refine ⟨fun hne => absurd hlock hne, fun _ => ?_⟩
  rw [ends_ite]
  refine ⟨fun hc => absurd hc hclean, fun _ => ?_⟩
  rw [ends_ite]
  exact ⟨fun hno => (ends_throw ..).mpr hno, fun _ => (ends_set ..).mpr rfl⟩

theorem breadLocked_spec (h : x.Ok d) (ht : x.ticket t = .waiting b k) :
    Ends (breadLocked t b k) x
      (fun _ y => y.Ok d ∧ Frame x y t (.holding b k false) ∧ y.given = x.given)
      (fun _ => x.lock b ≠ none ∨ fssize ≤ (x.buf b).blockno) := by
  have hhanded : x.handed b = true := h.handed (t := t) (by rw [ht]; rfl)
  unfold breadLocked
  rw [ends_bind, ends_get, ends_ite]
  refine ⟨fun hlock => (ends_throw ..).mpr (.inl hlock), fun hlock => ?_⟩
  rw [not_not] at hlock
  rw [ends_bind, ends_set]
  -- both ways only the buffer and the lock change
  have hdone : ∀ (v : Buf) (y : Bcache T), v.id = (x.buf b).id → v.valid = true →
      v.dirty = (x.buf b).dirty →
      ((x.buf b).valid = true ∧ v.data = (x.buf b).data ∨ v.data = x.content d (x.buf b).id) →
      y = { x with
        lock := update x.lock b (some t)
        ticket := update x.ticket t (.holding b k false)
        buf := update x.buf b v } →
      y.Ok d ∧ Frame x y t (.holding b k false) ∧ y.given = x.given := by
    intro v y hid hvalid hdirty hdata hy
    have hup : y.links = x.links ∧ y.handed = x.handed ∧ y.refcnt = x.refcnt := by
      rw [hy]
      exact ⟨rfl, rfl, rfl⟩
    have hbuf : y.buf = update x.buf b v := by rw [hy]
    have hticket : y.ticket = update x.ticket t (.holding b k false) := by rw [hy]
    have hgiven : y.given = x.given := by rw [hy]
    have hdisk : y.disk = x.disk := by rw [hy]
    have hcontent : ∀ k, y.content d k = x.content d k := fun k => by rw [content, hgiven]; rfl
    refine ⟨h.touch hup hbuf hid hticket (by rw [ht]; rfl) (fun hp => ?_) ?_ ?_,
      ⟨hticket, by rw [hy], fun c _ => ?_⟩, hgiven⟩
    · rw [ht]
      exact hp
    · intro t' b'
      refine h.locked_set (b := b) (o := some t) (by rw [hy]) hticket ⟨fun _ => rfl, fun _ => rfl⟩
        (fun t' htt => ⟨by rw [hlock]; nofun, fun hc => htt (Option.some.inj hc).symm⟩)
        fun b' hbb => ⟨by rw [ht]; nofun, fun hc => hbb (Option.some.inj hc).symm⟩
    · refine h.data.touch hbuf hid hticket (by rw [ht]; nofun)
        (fun hc => ⟨(Option.some.inj hc).symm, hvalid⟩) (fun _ => hvalid)
        (by rw [hup.2.1]; exact id)
        (fun _ => hup.2.1 ▸ hhanded) (fun _ _ => hcontent _) (fun _ hk => ?_) ?_ ?_
      · rw [hdisk, hcontent]
        exact hk
      · intro _ _ hch
        rw [hcontent]
        rcases hdata with ⟨hold, hdata⟩ | hdata
        · rw [hdata]
          exact h.data.eq_content (by rw [ht]; rfl) hold hch
        · exact hdata
      · intro hclean _
        rw [hdisk, hcontent]
        exact h.disk_eq hhanded (hdirty ▸ hclean)
    · rw [hbuf]
      by_cases hcb : c = b
      · rw [hcb, update_self]
        exact ⟨hid, fun _ => hvalid⟩
      · rw [update_of_ne hcb]
        exact ⟨rfl, id⟩
  rw [ends_ite]
  refine ⟨fun hv => .ret (hdone (x.buf b) _ rfl hv rfl (.inl ⟨hv, rfl⟩) ?_), fun hv => ?_⟩
  · rw [update_eq_self]
  · have hclean : (x.buf b).dirty = false :=
      Bool.eq_false_iff.mpr fun hd => hv (h.data.dirty hd)
    have hrw := iderw_spec (t := t) (b := b) (x := { x with
        lock := update x.lock b (some t)
        ticket := update x.ticket t (.holding b k false) })
      (update_self ..) fun hc => hv hc.1
    refine hrw.mono (fun _ y hy => ?_) fun _ he => .inr he
    dsimp only at hy
    rw [Buf.sync_of_not_dirty hclean, update_eq_self] at hy
    exact hdone { x.buf b with data := x.disk (x.buf b).dev (x.buf b).blockno, valid := true } y
      rfl rfl rfl (.inr (h.disk_eq hhanded hclean)) hy

omit [DecidableEq T] [Fintype T] in
theorem content_of_given {data : Block} (h : x.given k = some data) : x.content d k = data := by
  rw [content, h]
  rfl

section
variable (h : x.Ok d) (ht : x.ticket t = .holding b k m)
include h ht

/-- The holder of a buffer changes, logs or writes it. -/
theorem Ok.change {v : Buf} {m' : Bool}
    (hsame : y.links = x.links ∧ y.handed = x.handed ∧ y.refcnt = x.refcnt)
    (hlock : y.lock = x.lock) (hticket : y.ticket = update x.ticket t (.holding b k m'))
    (hbuf : y.buf = update x.buf b v) (hid : v.id = (x.buf b).id)
    (hvalid : v.valid = (x.buf b).valid)
    (hother : ∀ {k'}, k' ≠ k → y.given k' = x.given k' ∧ y.disk k'.1 k'.2 = x.disk k'.1 k'.2)
    (hdata : m' = false → v.data = y.content d k)
    (hdisk : v.dirty = false → y.disk k.1 k.2 = y.content d k) : y.Ok d ∧ Kept x y := by
  have hheld : (x.ticket t).held = some b := by rw [ht]; rfl
  have hk : (x.buf b).id = k := h.id_eq (by rw [ht]; rfl)
  have hhanded : x.handed b = true := h.handed (Ticket.buf_of_held hheld)
  have hv : v.valid = true := hvalid.trans (h.data.held hheld)
  have hcontent : ∀ {k'}, k' ≠ k → y.content d k' = x.content d k' := by
    intro k' hk'
    rw [content, (hother hk').1]
    rfl
  refine ⟨h.touch hsame hbuf hid hticket (by rw [ht]; rfl) (fun hp => by rw [ht]; exact hp)
    (h.shape.elim fun _ hs => hs.locked_same hlock hticket (by rw [ht]; rfl)) ?_, fun c _ => ?_⟩
  · refine h.data.touch hbuf hid hticket (fun {c} hc => ?_)
      (fun hc => ⟨(Option.some.inj hc).symm, hv⟩) (fun _ => hv) (by rw [hsame.2.1]; exact id)
      (fun _ => hsame.2.1 ▸ hhanded) (fun {c} hcb hc => ?_) (fun {k'} hk' hx => ?_) ?_ ?_
    · rw [Ticket.held_of_changed hc] at hheld
      exact Option.some.inj hheld
    · exact hcontent fun hck => hcb (h.only hhanded hc (hck.trans hk.symm))
    · rw [hk] at hk'
      rw [(hother hk').2, hx, hcontent hk']
    · intro _ hch _
      rw [hk]
      refine hdata (Bool.eq_false_iff.mpr ?_)
      rintro rfl
      exact hch rfl
    · intro hclean _
      rw [hk]
      exact hdisk hclean
  · rw [hbuf]
    by_cases hcb : c = b
    · rw [hcb, update_self, hvalid]
      exact ⟨hid, fun hv => hv⟩
    · rw [update_of_ne hcb]
      exact ⟨rfl, fun hv => hv⟩

theorem setData_spec (data : Block) :
    Ends (setData t b k data) x (fun _ y => y.Ok d ∧ Frame x y t (.holding b k true) ∧
      y.given = x.given ∧ (y.buf b).data = data) := by
  have hk : (x.buf b).id = k := h.id_eq (by rw [ht]; rfl)
  have hhanded : x.handed b = true := h.handed (t := t) (by rw [ht]; rfl)
  rw [setData, ends_modify]
  generalize hy : ({ x with
      buf := update x.buf b { x.buf b with data := data }
      ticket := update x.ticket t (.holding b k true) } : Bcache T) = y
  have hbuf : y.buf = update x.buf b { x.buf b with data := data } := by rw [← hy]
  have hticket : y.ticket = update x.ticket t (.holding b k true) := by rw [← hy]
  have hgiven : y.given = x.given := by rw [← hy]
  have hdisk : y.disk = x.disk := by rw [← hy]
  have hsame : y.links = x.links ∧ y.handed = x.handed ∧ y.refcnt = x.refcnt := by
    rw [← hy]
    exact ⟨rfl, rfl, rfl⟩
  obtain ⟨hok, hkept⟩ := h.change ht hsame (by rw [← hy]) hticket hbuf rfl rfl
    (fun _ => ⟨by rw [hgiven], by rw [hdisk]⟩) nofun fun hclean => by
      rw [hdisk, content, hgiven, ← hk]
      exact h.disk_eq hhanded hclean
  exact ⟨hok, ⟨hticket, by rw [← hy], hkept⟩, hgiven, by rw [hbuf, update_self]⟩

theorem logWrite_spec {L : LogArea} :
    Ends (logWrite L t b k) x (fun _ y => y.Ok d ∧ Kept x y ∧
      y.ticket = update x.ticket t (.holding b k false) ∧ y.lh.length ≤ L.size - 1 ∧
      y.given = update x.given k (some (x.buf b).data))
      (fun _ => logsize ≤ x.lh.length ∨ L.size - 1 ≤ x.lh.length) := by
  have hk : (x.buf b).id = k := h.id_eq (by rw [ht]; rfl)
  unfold logWrite
  rw [ends_bind, ends_get, ends_ite]
  refine ⟨fun hbig => (ends_throw ..).mpr hbig, fun hfits => ?_⟩
  have hlen : (if BitVec.ofNat 32 (x.buf b).blockno ∈ x.lh then x.lh
      else x.lh ++ [BitVec.ofNat 32 (x.buf b).blockno]).length ≤ L.size - 1 := by
    split
    · omega
    · rw [List.length_append, List.length_singleton]
      omega
  dsimp only
  rw [ends_bind, ends_set, giveData, ends_modify]
  dsimp only
  rw [update_self]
  have hid : Buf.id { x.buf b with dirty := true } = k := hk
  rw [hid]
  obtain ⟨hok, hkept⟩ := h.change (y := { x with
      lh := if BitVec.ofNat 32 (x.buf b).blockno ∈ x.lh then x.lh
        else x.lh ++ [BitVec.ofNat 32 (x.buf b).blockno]
      buf := update x.buf b { x.buf b with dirty := true }
      given := update x.given k (some (x.buf b).data)
      ticket := update x.ticket t (.holding b k false) }) ht ⟨rfl, rfl, rfl⟩ rfl rfl rfl rfl rfl
    (fun hne => ⟨update_of_ne hne .., rfl⟩)
    (fun _ => (content_of_given (update_self ..)).symm) nofun
  exact ⟨hok, hkept, rfl, hlen, rfl⟩

theorem bwrite_spec :
    Ends (bwrite t b k) x (fun _ y => y.Ok d ∧ Frame x y t (.holding b k false) ∧
      y.given = update x.given k (some (x.buf b).data)) (fun _ => fssize ≤ (x.buf b).blockno) := by
  have hk : (x.buf b).id = k := h.id_eq (by rw [ht]; rfl)
  have hlock : x.lock b = some t := h.locked_iff.mpr (by rw [ht]; rfl)
  have hvalid : (x.buf b).valid = true := h.data.held (t := t) (by rw [ht]; rfl)
  unfold bwrite
  rw [ends_bind, ends_get, ends_ite]
  refine ⟨fun hne => absurd hlock hne, fun _ => ?_⟩
  rw [ends_bind, ends_set]
  -- the flag is set, and the driver clears it again
  have hrw := iderw_spec (t := t) (b := b)
    (x := { x with buf := update x.buf b { x.buf b with dirty := true } }) hlock
  dsimp only at hrw
  rw [update_self, update_idem, Buf.sync_of_dirty rfl] at hrw
  refine (hrw fun hc => absurd hc.2 nofun).bind fun _ z hz => ?_
  have hbuf : z.buf = update x.buf b { x.buf b with dirty := false, valid := true } := by rw [hz]
  have hself : z.buf b = { x.buf b with dirty := false, valid := true } := by
    rw [hbuf, update_self]
  have hid : (z.buf b).id = k := by
    rw [hself]
    exact hk
  have hdisk : ∀ k', z.disk k'.1 k'.2 = if k' = k then (x.buf b).data else x.disk k'.1 k'.2 := by
    intro k'
    rw [hz, ← hk]
    exact update_disk ..
  have hgiven : z.given = x.given := by rw [hz]
  have hticket : z.ticket = x.ticket := by rw [hz]
  rw [giveData, ends_modify, hid]
  have hdata : (z.buf b).data = (x.buf b).data := by rw [hself]
  have hcontent : content d { z with
      given := update z.given k (some (z.buf b).data)
      ticket := update z.ticket t (.holding b k false) } k = (z.buf b).data :=
    content_of_given (update_self ..)
  obtain ⟨hok, hkept⟩ := h.change (y := { z with
      given := update z.given k (some (z.buf b).data)
      ticket := update z.ticket t (.holding b k false) }) ht (by rw [hz]; exact ⟨rfl, rfl, rfl⟩)
    (by rw [hz]) (by rw [hticket]) hbuf rfl hvalid.symm
    (fun {k'} hne => ⟨by rw [hgiven]; exact update_of_ne hne .., by
      dsimp only
      rw [hdisk, if_neg hne]⟩)
    (fun _ => (hcontent.trans hdata).symm) fun _ => by
      rw [hcontent, hdata]
      dsimp only
      rw [hdisk, if_pos rfl]
  refine ⟨hok, ⟨by rw [hticket], by rw [hz], hkept⟩, ?_⟩
  rw [hgiven, hdata]

end

theorem brelseLock_spec (h : x.Ok d) (ht : x.ticket t = .holding b k false) :
    Ends (brelseLock t b) x (fun _ y => y.Ok d ∧ Frame x y t (.leaving b) ∧ y.given = x.given) := by
  have hheld : (x.ticket t).held = some b := by rw [ht]; rfl
  have hlock : x.lock b = some t := h.locked_iff.mpr hheld
  have hhanded : x.handed b = true := h.handed (Ticket.buf_of_held hheld)
  unfold brelseLock
  rw [ends_bind, ends_get, ends_ite]
  refine ⟨fun hne => absurd hlock hne, fun _ => ?_⟩
  rw [ends_set]
  refine ⟨h.touch (v := x.buf b) ⟨rfl, rfl, rfl⟩ (update_eq_self ..).symm rfl rfl
    (by rw [ht]; rfl) nofun (h.locked_set (c := .leaving b) (o := none) rfl rfl ⟨nofun, nofun⟩
      (fun t' htt => ⟨fun hc => htt (Option.some.inj (hlock.symm.trans hc)).symm, nofun⟩)
      fun b' hbb => ⟨fun hc => hbb (Option.some.inj (hheld.symm.trans hc)).symm, nofun⟩) ?_,
    ⟨rfl, rfl, fun _ _ => ⟨rfl, fun hv => hv⟩⟩, rfl⟩
  exact h.data.touch (v := x.buf b) (update_eq_self ..).symm rfl rfl (by rw [ht]; nofun)
    nofun (fun _ => h.data.held hheld) (fun hc => hc) (fun _ => hhanded) (fun _ _ => rfl)
    (fun _ hk => hk) (fun hv _ hch => h.data.eq_content (by rw [ht]; rfl) hv hch)
    fun hclean _ => h.disk_eq hhanded hclean

theorem brelseRef_spec (h : x.Ok d) (ht : x.ticket t = .leaving b) :
    Ends (brelseRef t b) x (fun _ y => y.Ok d ∧ Frame x y t .idle ∧ y.given = x.given) := by
  obtain ⟨l, hs⟩ := h.shape
  have hbuf : (x.ticket t).buf = some b := by rw [ht]; rfl
  have hhanded : x.handed b = true := h.handed hbuf
  rw [brelseRef, ends_modify]
  generalize hy : ({ x with
      refcnt := update x.refcnt b (x.refcnt b - 1)
      links := if x.refcnt b - 1 = 0 then (x.links.unlink b).push b else x.links
      ticket := update x.ticket t .idle } : Bcache T) = y
  have hticket : y.ticket = update x.ticket t .idle := by rw [← hy]
  have hlock : y.lock = x.lock := by rw [← hy]
  have hybuf : y.buf = x.buf := by rw [← hy]
  have hyh : y.handed = x.handed := by rw [← hy]
  have hrefcnt : y.refcnt = update x.refcnt b (x.refcnt b - 1) := by rw [← hy]
  have hlinks : y.links = if x.refcnt b - 1 = 0 then (x.links.unlink b).push b else x.links := by
    rw [← hy]
  have hup : ∀ t', y.ticket t' = x.ticket t' ∨ y.ticket t' = .idle := by
    intro t'
    rw [hticket]
    by_cases htt : t' = t
    · exact .inr (htt ▸ update_self ..)
    · exact .inl (update_of_ne htt ..)
  have hclaimed : ∀ {t b}, (y.ticket t).buf = some b → (x.ticket t).buf = some b := by
    intro t' b' hb'
    rcases hup t' with hx | hx <;> rw [hx] at hb'
    · exact hb'
    · cases hb'
  have htarget : ∀ {t p}, (y.ticket t).target = some p → (x.ticket t).target = some p := by
    intro t' p hp
    rcases hup t' with hx | hx <;> rw [hx] at hp
    · exact hp
    · cases hp
  have hlocked : ∀ {t b}, y.lock b = some t ↔ (y.ticket t).held = some b :=
    hs.locked_same hlock hticket (by rw [ht]; rfl)
  have hshape : ∃ l', y.Shape l' := by
    by_cases hz : x.refcnt b - 1 = 0
    · rw [if_pos hz] at hlinks
      exact hs.leave hhanded hlinks hybuf hyh hlock hclaimed (hlock ▸ hlocked) htarget
    · rw [if_neg hz] at hlinks
      exact ⟨l, hs.keep hlinks (fun c => by rw [hybuf]) hyh hclaimed hlocked htarget⟩
  refine ⟨⟨hshape, ?_, ?_⟩,
    ⟨hticket, by rw [← hy], fun c _ => by rw [hybuf]; exact ⟨rfl, fun hv => hv⟩⟩,
    by rw [← hy]⟩
  · have hdrop := h.refs_drop hbuf
    rw [hticket]
    refine bump_inj (b := b) (hdrop.symm.trans ?_).symm
    have hpos : 0 < x.refcnt b := by rw [hdrop]; exact bump_pos
    rw [hrefcnt, bump, update_self, update_idem, Nat.sub_add_cancel hpos,
      update_eq_self]
  · refine h.data.touch (v := x.buf b) (hybuf.trans (update_eq_self ..).symm) rfl hticket
      (by rw [ht]; nofun) nofun (fun hv => hv.elim (fun hv => hv) h.data.dirty)
      (by rw [hyh]; exact id)
      (fun _ => hyh ▸ hhanded) (fun _ _ => by rw [← hy]; rfl) (fun _ hk => by rw [← hy]; exact hk)
      (fun hv _ hch => ?_) fun hclean _ => ?_
    · have hc : y.content d (x.buf b).id = x.content d (x.buf b).id := by rw [← hy]; rfl
      rw [hc]
      exact h.data.eq_content (by rw [ht]; rfl) hv hch
    · rw [← hy]
      exact h.disk_eq hhanded hclean

end

end Bcache

end Xv6
