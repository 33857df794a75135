import Xv6.Bcache

/-!
# Xv6.BcacheRuns

Runs of the buffer cache: what `bread` returns after any number of steps, and that a `commit`
is such a run and leaves the contents of all blocks outside the log as they are.
-/

namespace Xv6

open Function (update update_self update_of_ne update_eq_self update_idem)

namespace Bcache

variable {T : Type} [DecidableEq T] {x y z : Bcache T} {t u : T} {b c : Fin nbuf}
  {k : Nat × Nat} {d : Nat → Disk} {L : LogArea}

/-- A state that is reached by steps. -/
def Runs (L : LogArea) (x y : Bcache T) : Prop := ∃ ls, Trace (BioCall.Step L) x ls y

theorem Runs.step {e : BioCall T} (hs : BioCall.Step L x e y) (h : Runs L y z) : Runs L x z := by
  obtain ⟨ls, hls⟩ := h
  exact ⟨e :: ls, .cons hs hls⟩

theorem Runs.one {e : BioCall T} (hs : BioCall.Step L x e y) : Runs L x y :=
  ⟨[e], .cons hs (.nil y)⟩

theorem Runs.trans (h : Runs L x y) (h' : Runs L y z) : Runs L x z := by
  obtain ⟨ls, h⟩ := h
  induction h with
  | nil => exact h'
  | cons hs _ ih => exact .step hs (ih h')

/-- Both acquisitions of the committing process are over again. -/
structure Commits (L : LogArea) (x y : Bcache T) : Prop where
  runs : Runs L x y
  ticket : y.ticket = x.ticket
  lh : y.lh = x.lh

theorem Commits.trans (h : Commits L x y) (h' : Commits L y z) : Commits L x z :=
  ⟨h.runs.trans h'.runs, h'.ticket.trans h.ticket, h'.lh.trans h.lh⟩

omit [DecidableEq T] in
theorem content_of_given_eq (h : y.given = x.given) : y.content d = x.content d := by
  funext k
  rw [content, h]
  rfl

omit [DecidableEq T] in
theorem content_update {data : Block} (h : y.given = update x.given k (some data)) :
    y.content d = update (x.content d) k data := by
  funext k'
  rw [content, h]
  by_cases hk : k' = k
  · rw [hk, update_self, update_self]
    rfl
  · rw [update_of_ne hk, update_of_ne hk]
    rfl

theorem idle_again {f g : T → Ticket} (ht : g t = .idle) (hu : g u = .idle)
    (h : ∀ v, v ≠ t → v ≠ u → f v = g v) : update (update f u .idle) t .idle = g := by
  funext v
  by_cases hvt : v = t
  · rw [hvt, update_self, ht]
  · by_cases hvu : v = u
    · rw [update_of_ne hvt, hvu, update_self, hu]
    · rw [update_of_ne hvt, update_of_ne hvu, h v hvt hvu]

/-! ### Steps -/

variable [Fintype T]

omit [DecidableEq T] in
theorem Ok.clearHead (h : x.Ok d) : Ok d { x with lh := [] } := by
  obtain ⟨l, hs⟩ := h.shape
  exact ⟨⟨l, hs.keep rfl (fun _ => rfl) rfl (fun ht => ht) hs.locked fun ht => ht⟩, h.refs,
    ⟨h.data.handed, h.data.held, h.data.dirty, h.data.data, h.data.disk⟩⟩

theorem Ok.step {e : BioCall T} (h : x.Ok d) (hs : BioCall.Step L x e y) :
    y.Ok d ∧ Kept x y ∧ (x.lh.length ≤ L.size - 1 → y.lh.length ≤ L.size - 1) := by
  obtain ⟨hat, hrun⟩ := hs
  have hlh : ∀ {t c}, Frame x y t c → x.lh.length ≤ L.size - 1 → y.lh.length ≤ L.size - 1 :=
    fun hf hx => hf.lh ▸ hx
  cases e with
  | bget t k =>
    have hspec : Ends (BioCall.exec L (.bget t k)) x
        (fun _ y => y.Ok d ∧ ∃ b, Frame x y t (.waiting b k)) _ :=
      (bget_spec h hat.1).bind fun b _ hy => .ret ⟨hy.1, b, hy.2.1⟩
    obtain ⟨hok, b, hf⟩ := hspec.of_ok hrun
    exact ⟨hok, hf.kept, hlh hf⟩
  | breadLocked t b k =>
    obtain ⟨hok, hf, -⟩ := (breadLocked_spec h hat).of_ok hrun
    exact ⟨hok, hf.kept, hlh hf⟩
  | setData t b k data =>
    obtain ⟨m, ht⟩ := hat
    obtain ⟨hok, hf, -⟩ := (setData_spec h ht _).of_ok hrun
    exact ⟨hok, hf.kept, hlh hf⟩
  | logWrite t b k =>
    obtain ⟨m, ht⟩ := hat
    obtain ⟨hok, hkept, -, hlen, -⟩ := (logWrite_spec h ht).of_ok hrun
    exact ⟨hok, hkept, fun _ => hlen⟩
  | bwrite t b k =>
    obtain ⟨m, ht⟩ := hat
    obtain ⟨hok, hf, -⟩ := (bwrite_spec h ht).of_ok hrun
    exact ⟨hok, hf.kept, hlh hf⟩
  | brelseLock t b k =>
    obtain ⟨hok, hf, -⟩ := (brelseLock_spec h hat).of_ok hrun
    exact ⟨hok, hf.kept, hlh hf⟩
  | brelseRef t b =>
    obtain ⟨hok, hf, -⟩ := (brelseRef_spec h hat).of_ok hrun
    exact ⟨hok, hf.kept, hlh hf⟩
  | clearHead =>
    cases hrun
    exact ⟨h.clearHead, fun _ _ => ⟨rfl, fun hv => hv⟩, fun _ => Nat.zero_le _⟩

theorem Ok.run {ls : List (BioCall T)} (h : Trace (BioCall.Step L) x ls y) (hx : x.Ok d) :
    y.Ok d ∧ (x.lh.length ≤ L.size - 1 → y.lh.length ≤ L.size - 1) := by
  induction h with
  | nil x => exact ⟨hx, fun hx => hx⟩
  | cons hs _ ih =>
    obtain ⟨hok, -, hlen⟩ := hx.step hs
    obtain ⟨hok', hlen'⟩ := ih hok
    exact ⟨hok', fun hx => hlen' (hlen hx)⟩

/-! ### The operations of commit -/

theorem Runs.ok (h : Runs L x y) (hx : x.Ok d) : y.Ok d := h.elim fun _ hls => (hx.run hls).1

/-- Steps of `t` that leave the rest of the log and of the acquisitions as they are. -/
structure Goes (L : LogArea) (x y : Bcache T) (t : T) (c : Ticket) : Prop where
  runs : Runs L x y
  ticket : y.ticket = update x.ticket t c
  lh : y.lh = x.lh

omit [Fintype T] in
theorem Goes.trans {c c' : Ticket} (h : Goes L x y t c) (h' : Goes L y z t c') : Goes L x z t c' :=
  ⟨h.runs.trans h'.runs, by rw [h'.ticket, h.ticket, update_idem], h'.lh.trans h.lh⟩

theorem bread_spec (h : x.Ok d) (ht : x.ticket t = .idle) (hk : k.1 < 2) :
    Ends (bread t k) x (fun b y => Goes L x y t (.holding b k false) ∧ y.given = x.given)
      (fun _ => True) := by
  unfold bread
  refine (((bget_spec h ht).and Ends.self).mono (fun _ _ hy => hy) fun _ _ => trivial).bind
    fun b y hy => ?_
  obtain ⟨⟨hok, hf, hgiven⟩, hrun⟩ := hy
  have hwait : y.ticket t = .waiting b k := by rw [hf.ticket, update_self]
  refine (((breadLocked_spec hok hwait).and Ends.self).mono (fun _ _ hz => hz)
    fun _ _ => trivial).bind fun _ z hz => ?_
  obtain ⟨⟨hok', hf', hgiven'⟩, hrun'⟩ := hz
  refine .ret ⟨Goes.trans ⟨.one (e := .bget t k) ⟨⟨ht, hk⟩, ?_⟩, hf.ticket, hf.lh⟩
    ⟨.one (e := .breadLocked t b k) ⟨hwait, hrun'⟩, hf'.ticket, hf'.lh⟩, hgiven'.trans hgiven⟩
  show (Xv6.bget t k >>= fun _ => pure ()).run x = _
  rw [StateT.run_bind, hrun]
  rfl

/-- The holder of a buffer changes it and writes it. -/
theorem write_run {data : Block} {m : Bool} {next : Bio T Unit} {Q : Unit → Bcache T → Prop}
    (h : x.Ok d) (ht : x.ticket t = .holding b k m)
    (hnext : ∀ y, Goes L x y t (.holding b k false) → y.given = update x.given k (some data) →
      Ends next y Q (fun _ => True)) :
    Ends (setData t b k data >>= fun _ => bwrite t b k >>= fun _ => next) x Q (fun _ => True) := by
  refine (((setData_spec h ht data).and Ends.self).mono (fun _ _ hy => hy) fun _ _ => trivial).bind
    fun _ y ⟨⟨hok, hf, hgiven, hdata⟩, hrun⟩ => ?_
  have ht' : y.ticket t = .holding b k true := by rw [hf.ticket, update_self]
  refine (((bwrite_spec hok ht').and Ends.self).mono (fun _ _ hz => hz) fun _ _ => trivial).bind
    fun _ z ⟨⟨_, hf', hgiven'⟩, hrun'⟩ => hnext z ?_ (by rw [hgiven', hgiven, hdata])
  exact .trans ⟨.one (e := .setData t b k data) ⟨⟨m, ht⟩, hrun⟩, hf.ticket, hf.lh⟩
    ⟨.one (e := .bwrite t b k) ⟨⟨true, ht'⟩, hrun'⟩, hf'.ticket, hf'.lh⟩

theorem brelse_spec (h : x.Ok d) (ht : x.ticket t = .holding b k false) :
    Ends (brelse t b) x (fun _ y => Goes L x y t .idle ∧ y.given = x.given)
      (fun _ => True) := by
  unfold brelse
  refine (((brelseLock_spec h ht).and Ends.self).mono (fun _ _ hy => hy) fun _ _ => trivial).bind
    fun _ y hy => ?_
  obtain ⟨⟨hok, hf, hgiven⟩, hrun⟩ := hy
  have hleave : y.ticket t = .leaving b := by rw [hf.ticket, update_self]
  refine ((brelseRef_spec hok hleave).and Ends.self).mono (fun _ z hz => ?_) fun _ _ => trivial
  obtain ⟨⟨-, hf', hgiven'⟩, hrun'⟩ := hz
  exact ⟨Goes.trans ⟨.one (e := .brelseLock t b k) ⟨ht, hrun⟩, hf.ticket, hf.lh⟩
    ⟨.one (e := .brelseRef t b) ⟨hleave, hrun'⟩, hf'.ticket, hf'.lh⟩, hgiven'.trans hgiven⟩

theorem copyBuf_spec {k' : Nat × Nat} (h : x.Ok d) (htu : t ≠ u)
    (ht : x.ticket t = .holding b k false) (hu : x.ticket u = .holding c k' false) :
    Ends (copyBuf t u b c k) x (fun _ y => Runs L x y ∧
      y.ticket = update (update x.ticket u .idle) t .idle ∧ y.lh = x.lh ∧
      y.content d = update (x.content d) k (x.content d k')) (fun _ => True) := by
  unfold copyBuf
  rw [ends_bind, ends_get]
  refine write_run (L := L) h ht fun x1 hg1 hgiven1 => ?_
  have hu1 : x1.ticket u = .holding c k' false := by rw [hg1.ticket, update_of_ne htu.symm, hu]
  refine (brelse_spec (L := L) (hg1.runs.ok h) hu1).bind fun _ x2 ⟨hg2, hgiven2⟩ => ?_
  have ht2 : x2.ticket t = .holding b k false := by
    rw [hg2.ticket, update_of_ne htu, hg1.ticket, update_self]
  have hruns2 := hg1.runs.trans hg2.runs
  refine (brelse_spec (L := L) (hruns2.ok h) ht2).imp fun _ y ⟨hg, hgiven⟩ => ?_
  refine ⟨hruns2.trans hg.runs, ?_, ?_, ?_⟩
  · rw [hg.ticket, hg2.ticket, hg1.ticket, Function.update_comm htu, update_idem]
  · rw [hg.lh, hg2.lh, hg1.lh]
  · rw [content_of_given_eq hgiven, content_of_given_eq hgiven2, content_update hgiven1,
      h.data_eq hu]

/-- Two buffers are read, and one is copied to the other. -/
theorem bread_bread_spec {k' : Nat × Nat} (h : x.Ok d) (htu : t ≠ u) (ht : x.ticket t = .idle)
    (hu : x.ticket u = .idle) (hk : k.1 < 2) (hk' : k'.1 < 2) (m : Fin nbuf → Fin nbuf → Bio T Unit)
    {Q : Unit → Bcache T → Prop}
    (hm : ∀ b c y, Runs L x y → y.ticket t = .holding b k false → y.ticket u = .holding c k' false →
      (∀ v, v ≠ t → v ≠ u → y.ticket v = x.ticket v) → y.lh = x.lh → y.given = x.given →
      Ends (m b c) y Q fun _ => True) :
    Ends (bread t k >>= fun b => bread u k' >>= fun c => m b c) x Q (fun _ => True) := by
  refine (bread_spec (L := L) h ht hk).bind fun b y ⟨hg, hgiven⟩ => ?_
  have hu' : y.ticket u = .idle := by rw [hg.ticket, update_of_ne htu.symm, hu]
  refine (bread_spec (L := L) (hg.runs.ok h) hu' hk').bind fun c z ⟨hg', hgiven'⟩ => ?_
  refine hm b c z (hg.runs.trans hg'.runs) ?_ ?_ (fun v hvt hvu => ?_) (hg'.lh.trans hg.lh)
    (hgiven'.trans hgiven)
  · rw [hg'.ticket, update_of_ne htu, hg.ticket, update_self]
  · rw [hg'.ticket, update_self]
  · rw [hg'.ticket, update_of_ne hvu, hg.ticket, update_of_ne hvt]

section
variable {k' : Nat × Nat} {m : Bio T Unit} {Q : Unit → Bcache T → Prop} (h : x.Ok d) (htu : t ≠ u)
  (ht : x.ticket t = .idle) (hu : x.ticket u = .idle)
  (hm : ∀ y, Commits L x y → y.content d = update (x.content d) k (x.content d k') →
    Ends m y Q fun _ => True)
include h htu ht hu hm

/-- The end of a round, after both buffers have been read. -/
theorem copyBuf_round (hruns : Runs L x y) (hb : y.ticket t = .holding b k false)
    (hc : y.ticket u = .holding c k' false) (hrest : ∀ v, v ≠ t → v ≠ u → y.ticket v = x.ticket v)
    (hlh : y.lh = x.lh) (hgiven : y.given = x.given) :
    Ends (copyBuf t u b c k >>= fun _ => m) y Q (fun _ => True) := by
  refine (copyBuf_spec (L := L) (hruns.ok h) htu hb hc).bind
    fun _ z ⟨hruns', htick, hlh', hcontent⟩ => hm z ⟨hruns.trans hruns', ?_, hlh'.trans hlh⟩ ?_
  · exact htick.trans (idle_again ht hu hrest)
  · rw [hcontent, content_of_given_eq hgiven]

variable (hk : k.1 < 2) (hk' : k'.1 < 2)
include hk hk'

theorem writeLog_round :
    Ends (bread t k >>= fun b => bread u k' >>= fun c => copyBuf t u b c k >>= fun _ => m) x Q
      (fun _ => True) :=
  bread_bread_spec (L := L) h htu ht hu hk hk' _ fun _ _ _ hruns hb hc hrest =>
    copyBuf_round h htu ht hu hm hruns hb hc hrest

theorem install_round :
    Ends (bread u k' >>= fun c => bread t k >>= fun b => copyBuf t u b c k >>= fun _ => m) x Q
      (fun _ => True) :=
  bread_bread_spec (L := L) h htu.symm hu ht hk' hk _ fun _ _ _ hruns hc hb hrest =>
    copyBuf_round h htu ht hu hm hruns hb hc fun v hvt hvu => hrest v hvu hvt

end

section
variable {dev : Nat} (hdev : dev < 2)
include hdev

/-- `write_log` copies the contents of the blocks to the log. -/
theorem writeLogLoop_spec (htu : t ≠ u) (ns : List Word) :
    ∀ (tail : Nat) {x : Bcache T}, x.Ok d → x.ticket t = .idle → x.ticket u = .idle →
    tail + ns.length ≤ L.size - 1 → (∀ n ∈ ns, ¬ L.holds n.toNat) →
    Ends (writeLogLoop L dev t u tail ns) x (fun _ y => Commits L x y ∧
      (∀ i n, ns[i]? = some n →
        y.content d (dev, L.start + (tail + i) + 1) = x.content d (dev, n.toNat)) ∧
      ∀ k, ¬ (k.1 = dev ∧ L.start + tail + 1 ≤ k.2 ∧ L.holds k.2) →
        y.content d k = x.content d k) (fun _ => True) := by
  induction ns with
  | nil =>
    intro tail x h _ _ _ _
    exact .ret ⟨⟨⟨[], .nil x⟩, rfl, rfl⟩, by simp, fun _ _ => rfl⟩
  | cons n ns ih =>
    intro tail x h ht hu hlen hout
    rw [List.length_cons] at hlen
    rw [writeLogLoop]
    refine writeLog_round (L := L) h htu ht hu (fun y hc hy => ?_) hdev hdev
    refine (ih (tail + 1) (hc.runs.ok h) (hc.ticket ▸ ht) (hc.ticket ▸ hu) (by omega)
      fun m hm => hout m (List.mem_cons_of_mem _ hm)).imp fun _ z ⟨hc', hlog, hrest⟩ => ?_
    have hlogged : L.holds (L.start + tail + 1) := ⟨by omega, by omega⟩
    -- a home block is not the log block of this round
    have hhome : ∀ m ∈ n :: ns, y.content d (dev, m.toNat) = x.content d (dev, m.toNat) := by
      intro m hm
      rw [hy]
      refine update_of_ne (fun he => hout m hm ?_) ..
      have hm' : m.toNat = L.start + tail + 1 := congrArg Prod.snd he
      rw [hm']
      exact hlogged
    refine ⟨hc.trans hc', fun i m hi => ?_, fun k hk => ?_⟩
    · cases i with
      | zero =>
        cases hi
        have hother := hrest (dev, L.start + tail + 1) fun hk => by
          have := hk.2.1
          dsimp only at this
          omega
        rw [hy, update_self] at hother
        exact hother
      | succ i =>
        have hstep := hlog i m hi
        rw [hhome m (List.mem_cons_of_mem _ (List.mem_of_getElem? hi))] at hstep
        rw [← hstep]
        congr 2
        omega
    · have hne : k ≠ (dev, L.start + tail + 1) := by
        rintro rfl
        exact hk ⟨rfl, Nat.le_refl _, hlogged⟩
      rw [hrest k fun hk' => hk ⟨hk'.1, by omega, hk'.2.2⟩, hy, update_of_ne hne]

/-- `install_trans` writes to the blocks what they have. -/
theorem installLoop_spec (htu : t ≠ u) (ns : List Word) :
    ∀ (tail : Nat) {x : Bcache T}, x.Ok d → x.ticket t = .idle → x.ticket u = .idle →
    (∀ i n, ns[i]? = some n →
      x.content d (dev, L.start + (tail + i) + 1) = x.content d (dev, n.toNat)) →
    Ends (installLoop L dev t u tail ns) x (fun _ y => Commits L x y ∧
      y.content d = x.content d) (fun _ => True) := by
  induction ns with
  | nil =>
    intro tail x h _ _ _
    exact .ret ⟨⟨⟨[], .nil x⟩, rfl, rfl⟩, rfl⟩
  | cons n ns ih =>
    intro tail x h ht hu hlog
    rw [installLoop]
    refine install_round (L := L) h htu ht hu (fun y hc hy => ?_) hdev hdev
    have hsame : y.content d = x.content d := by
      have h0 : x.content d (dev, L.start + tail + 1) = x.content d (dev, n.toNat) :=
        hlog 0 n rfl
      rw [hy, h0, update_eq_self]
    refine (ih (tail + 1) (hc.runs.ok h) (hc.ticket ▸ ht) (hc.ticket ▸ hu) fun i m hi => ?_).imp
      fun _ z ⟨hc', hz⟩ => ⟨hc.trans hc', hz.trans hsame⟩
    rw [hsame, ← hlog (i + 1) m hi]
    congr 2
    omega

theorem writeHeader_spec (h : x.Ok d) (ht : x.ticket t = .idle) :
    Ends (writeHeader L dev t) x (fun _ y => Commits L x y ∧
      ∀ k, k ≠ (dev, L.start) → y.content d k = x.content d k) (fun _ => True) := by
  unfold writeHeader
  refine (bread_spec (L := L) h ht hdev).bind fun b x1 ⟨hg1, hgiven1⟩ => ?_
  rw [ends_bind, ends_get]
  have ht1 : x1.ticket t = .holding b (dev, L.start) false := by rw [hg1.ticket, update_self]
  refine write_run (L := L) (hg1.runs.ok h) ht1 fun x2 hg2 hgiven2 => ?_
  have hg2 := hg1.trans hg2
  have ht2 : x2.ticket t = .holding b (dev, L.start) false := by rw [hg2.ticket, update_self]
  refine (brelse_spec (L := L) (hg2.runs.ok h) ht2).imp fun _ y ⟨hg, hgiven⟩ => ?_
  have hg := hg2.trans hg
  refine ⟨⟨hg.runs, ?_, hg.lh⟩, fun k hk => ?_⟩
  · rw [hg.ticket, ← ht, update_eq_self]
  · rw [content_of_given_eq hgiven, content_update hgiven2, update_of_ne hk,
      content_of_given_eq hgiven1]

/-- A commit is a run of the buffer cache, and leaves the contents outside the log alone. -/
theorem bioCommit_spec (htu : t ≠ u) (h : x.Ok d) (ht : x.ticket t = .idle)
    (hu : x.ticket u = .idle) (hlen : x.lh.length ≤ L.size - 1)
    (hout : ∀ n ∈ x.lh, ¬ L.holds n.toNat) :
    Ends (bioCommit L dev t u) x (fun _ y => Runs L x y ∧
      ∀ k, ¬ (k.1 = dev ∧ L.holds k.2) → y.content d k = x.content d k) (fun _ => True) := by
  have hstart : L.holds L.start := ⟨Nat.le_refl _, by have := L.size_pos; omega⟩
  unfold bioCommit
  rw [ends_bind, ends_get, ends_ite]
  refine ⟨fun _ => .ret ⟨⟨[], .nil x⟩, fun _ _ => rfl⟩, fun _ => ?_⟩
  refine (writeLogLoop_spec hdev htu x.lh 0 h ht hu (by omega) hout).bind
    fun _ x1 ⟨hc1, hlog1, hrest1⟩ => ?_
  refine (writeHeader_spec (L := L) hdev (hc1.runs.ok h) (hc1.ticket ▸ ht)).bind
    fun _ x2 ⟨hc2, hrest2⟩ => ?_
  have hc2 := hc1.trans hc2
  rw [ends_bind, ends_get]
  -- the header is in the log, and so is no block that was logged
  have hlog2 : ∀ i n, x2.lh[i]? = some n →
      x2.content d (dev, L.start + (0 + i) + 1) = x2.content d (dev, n.toNat) := by
    intro i n hi
    rw [hc2.lh] at hi
    have hn := hout n (List.mem_of_getElem? hi)
    have hhead : ((dev, n.toNat) : Nat × Nat) ≠ (dev, L.start) := by
      intro he
      have he' : n.toNat = L.start := congrArg Prod.snd he
      exact hn (he' ▸ hstart)
    rw [hrest2 _ (fun he => by have := congrArg Prod.snd he; dsimp only at this; omega),
      hlog1 i n hi, hrest2 _ hhead, hrest1 _ fun hk => hn hk.2.2]
  refine (installLoop_spec (L := L) hdev htu x2.lh 0 (hc2.runs.ok h) (hc2.ticket ▸ ht)
    (hc2.ticket ▸ hu) hlog2).bind fun _ x3 ⟨hc3, hsame3⟩ => ?_
  have hc3 := hc2.trans hc3
  rw [ends_bind, ends_modify]
  have hclear : Runs L x { x3 with lh := [] } :=
    hc3.runs.trans (.one (e := .clearHead) ⟨trivial, rfl⟩)
  refine (writeHeader_spec (L := L) (x := { x3 with lh := [] }) hdev (hclear.ok h)
    (hc3.ticket ▸ ht)).imp fun _ y ⟨hc, hrest⟩ => ⟨hclear.trans hc.runs, fun k hk => ?_⟩
  have hhead : k ≠ (dev, L.start) := by
    rintro rfl
    exact hk ⟨rfl, hstart⟩
  have hcontent : content d { x3 with lh := [] } = x3.content d := rfl
  rw [hrest k hhead, hcontent, hsame3, hrest2 k hhead, hrest1 k fun hk' => hk ⟨hk'.1, hk'.2.2⟩]

end

/-! ### Runs -/

omit [DecidableEq T] [Fintype T] in
/-- The cache after `binit`. -/
structure Booted (x : Bcache T) : Prop where
  links : x.links = binit
  buf : ∀ b, (x.buf b).id = (0, 0) ∧ (x.buf b).valid = false ∧ (x.buf b).dirty = false
  refcnt : ∀ b, x.refcnt b = 0
  lock : ∀ b, x.lock b = none
  lh : x.lh = []
  ticket : ∀ t, x.ticket t = .idle
  handed : ∀ b, x.handed b = false
  given : ∀ k, x.given k = none

theorem binit_circ : binit.Circ (List.finRange nbuf).reverse := by
  have hnd : (List.finRange nbuf).reverse.Nodup := List.nodup_reverse.mpr (List.nodup_finRange nbuf)
  rw [← List.append_nil (List.finRange nbuf).reverse] at hnd ⊢
  exact Dlist.circ_empty.foldl_push hnd

omit [DecidableEq T] in
theorem Booted.ok (h : x.Booted) : x.Ok x.disk := by
  have hheld : ∀ {t b}, (x.ticket t).held ≠ some b := by
    intro t b
    rw [h.ticket]
    nofun
  have hvalid : ∀ {b}, (x.buf b).valid ≠ true := by
    intro b
    rw [(h.buf b).2.1]
    nofun
  refine ⟨⟨(List.finRange nbuf).reverse, ⟨h.links ▸ binit_circ, by simp, fun {b c} hb => ?_,
    fun {b} _ => (h.buf b).1, ?_, fun {t b} ht => ?_, fun {t b} => ?_, fun {t b k} ht => ?_⟩⟩, ?_,
    ⟨fun {b} hb => absurd hb hvalid, fun {t b} ht => absurd ht hheld, fun {b} hb => ?_,
      fun {b} hb => absurd hb hvalid, fun {k} _ => ?_⟩⟩
  · rw [h.handed] at hb
    cases hb
  · refine (List.nodup_reverse.mpr (List.nodup_finRange nbuf)).imp fun {c b} _ hb => ?_
    rw [h.handed] at hb
    cases hb
  · rw [h.ticket] at ht
    cases ht
  · rw [h.lock]
    exact ⟨nofun, fun ht => absurd ht hheld⟩
  · rw [h.ticket] at ht
    cases ht
  · funext b
    rw [h.refcnt, holders_none fun t => by rw [h.ticket]; rfl]
    rfl
  · rw [(h.buf b).2.2] at hb
    cases hb
  · rw [content, h.given]
    rfl

/-- There is a buffer as long as one is neither in use nor to be written. -/
theorem bget_returns (h : x.Ok d) (ht : x.ticket t = .idle)
    (hb : ∀ t, (x.ticket t).buf ≠ some b) (hd : (x.buf b).dirty = false) :
    ∃ c y, (bget t k).run x = .ok (c, y) := by
  obtain ⟨l, hs⟩ := h.shape
  have hzero : x.refcnt b = 0 := by
    rw [h.refs]
    exact Finset.card_eq_zero.mpr (Finset.filter_eq_empty_iff.mpr fun t _ => hb t)
  obtain ⟨c, y, hrun, -⟩ := ((bget_spec (k := k) h ht).mono (fun _ _ hy => hy) fun e he =>
    hs.unused_ne_none hzero hd he.2).exists_ok
  exact ⟨c, y, hrun⟩

/-- The buffer cache is coherent, after any steps of any number of users. -/
theorem buffer_cache_coherent {ls : List (BioCall T)} (hx : x.Booted)
    (h : Trace (BioCall.Step L) x ls y) :
    (∃ l, y.links.Circ l ∧ ∀ b, b ∈ l) ∧
    (∀ b c, y.handed b = true → y.handed c = true → (y.buf b).id = (y.buf c).id → b = c) ∧
    (∀ e z, BioCall.Step L y e z → Kept y z) ∧
    (∀ t b k z, BioCall.Step L y (.breadLocked t b k) z →
      (z.buf b).id = k ∧ (z.buf b).data = (y.given k).getD (x.disk k.1 k.2)) ∧
    (∀ t k b, y.ticket t = .idle → (∀ t, (y.ticket t).buf ≠ some b) → (y.buf b).dirty = false →
      ∃ c z, (bget t k).run y = .ok (c, z)) ∧
    ∀ t u dev z, t ≠ u → y.ticket t = .idle → y.ticket u = .idle → dev < 2 →
      (∀ n ∈ y.lh, ¬ L.holds n.toNat) → (bioCommit L dev t u).run y = .ok ((), z) →
      (∃ ls, Trace (BioCall.Step L) y ls z) ∧ ∀ k, ¬ (k.1 = dev ∧ L.holds k.2) →
        (z.given k).getD (x.disk k.1 k.2) = (y.given k).getD (x.disk k.1 k.2) := by
  obtain ⟨hok, hlen⟩ := hx.ok.run h
  obtain ⟨l, hs⟩ := hok.shape
  refine ⟨⟨l, hs.circ, hs.all⟩, fun b c => hs.distinct, fun e z he => (hok.step he).2.1,
    fun t b k z hstep => ?_, fun t k b ht hb hd => bget_returns hok ht hb hd,
    fun t u dev z htu ht hu hdev hout hrun => ?_⟩
  · obtain ⟨hok', hf, hgiven⟩ := (breadLocked_spec hok hstep.1).of_ok hstep.2
    have ht : z.ticket t = .holding b k false := by rw [hf.ticket, update_self]
    refine ⟨hok'.id_eq (t := t) (by rw [ht]; rfl), ?_⟩
    rw [hok'.data_eq ht, content, hgiven]
  · have hlh : y.lh.length ≤ L.size - 1 := hlen (by rw [hx.lh]; exact Nat.zero_le _)
    exact (bioCommit_spec hdev htu hok ht hu hlh hout).of_ok hrun

/-- A cache for one user. -/
def oneUser : Bcache Unit where
  links := binit
  buf _ := ⟨false, false, 0, 0, fun _ => 0#32⟩
  refcnt _ := 0
  lock _ := none
  disk _ _ _ := 0#32
  lh := []
  ticket _ := .idle
  handed _ := false
  given _ := none

/-- A log of thirty blocks. -/
def thirtyBlocks : LogArea := ⟨2, 30, by decide⟩

theorem oneUser_booted : oneUser.Booted :=
  ⟨rfl, fun _ => ⟨rfl, rfl, rfl⟩, fun _ => rfl, fun _ => rfl, rfl, fun _ => rfl, fun _ => rfl,
    fun _ => rfl⟩

theorem buffer_cache_coherent_logged : ∃ ls y, Trace (BioCall.Step thirtyBlocks) oneUser ls y ∧
    y.given (1, 7) = some (fun _ => 5#32) ∧ (∃ l, y.links.Circ l ∧ ∀ b, b ∈ l) := by
  have hok := oneUser_booted.ok
  -- the only user reads block 7 of disk 1, changes and logs it
  obtain ⟨b, x1, hrun1⟩ := bget_returns (t := ()) (b := ⟨0, by decide⟩) (k := (1, 7)) hok rfl
    (fun _ => nofun) rfl
  obtain ⟨hok1, hf1, -⟩ := (bget_spec hok rfl).of_ok hrun1
  have ht1 : x1.ticket () = .waiting b (1, 7) := by rw [hf1.ticket, update_self]
  have hid : (x1.buf b).id = (1, 7) := hok1.id_eq (t := ()) (by rw [ht1]; rfl)
  have hfree : ¬ (x1.lock b ≠ none ∨ fssize ≤ (x1.buf b).blockno) := by
    rintro (hlock | hno)
    · obtain ⟨t, ht⟩ := Option.ne_none_iff_exists'.mp hlock
      have hheld := hok1.locked_iff.mp ht
      rw [ht1] at hheld
      cases hheld
    · rw [show (x1.buf b).blockno = 7 from congrArg Prod.snd hid] at hno
      exact absurd hno (by decide)
  obtain ⟨_, x2, hrun2, hok2, hf2, -⟩ := ((breadLocked_spec hok1 ht1).mono (fun _ _ hy => hy)
    fun _ he => hfree he).exists_ok
  have ht2 : x2.ticket () = .holding b (1, 7) false := by rw [hf2.ticket, update_self]
  obtain ⟨_, x3, hrun3, hok3, hf3, -, hdata3⟩ :=
    (setData_spec hok2 ht2 fun _ => 5#32).exists_ok
  have ht3 : x3.ticket () = .holding b (1, 7) true := by rw [hf3.ticket, update_self]
  have hlh : x3.lh = [] := by rw [hf3.lh, hf2.lh, hf1.lh]; rfl
  obtain ⟨_, y, hrun, -, -, -, -, hgiven⟩ := ((logWrite_spec (L := thirtyBlocks) hok3 ht3).mono
    (fun _ _ hy => hy) fun _ he => by rw [hlh] at he; exact absurd he (by decide)).exists_ok
  have htrace : Trace (BioCall.Step thirtyBlocks) oneUser [.bget () (1, 7),
      .breadLocked () b (1, 7), .setData () b (1, 7) fun _ => 5#32, .logWrite () b (1, 7)] y := by
    refine .cons ⟨⟨rfl, by decide⟩, ?_⟩ (.cons ⟨ht1, hrun2⟩ (.cons ⟨⟨_, ht2⟩, hrun3⟩
      (.cons ⟨⟨_, ht3⟩, hrun⟩ (.nil y))))
    show (bget () (1, 7) >>= fun _ => pure ()).run oneUser = _
    rw [StateT.run_bind, hrun1]
    rfl
  refine ⟨_, y, htrace, ?_, (buffer_cache_coherent oneUser_booted htrace).1⟩
  rw [hgiven, update_self, hdata3]

end Bcache

end Xv6
