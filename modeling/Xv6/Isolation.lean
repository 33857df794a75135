import Xv6.Boot
import Xv6.UserAccess

/-!
# Xv6.Isolation

Processes and each other's memory, in every run of the system: a page that a process can write
to is backed by a frame that nothing else uses, and what the others do leaves the address space
of a process as it is.

The second holds of runs in which every call that takes pages away also reloads `CR3`. An `sbrk`
that takes the size to 0 does not (`Reloads`): its process can still reach the frames that it
has given back, through the translations that the processor has kept.
-/

namespace Xv6

variable [Layout] {man : Nat → Prop} {P : Call → Aspace → Prop} {s s' t : Sys} {i j : Fin nproc}

/-- The frame behind a writable page backs no other page of any process, is free for nobody, and
holds neither a page table nor a kernel stack. -/
theorem writable_page_private (h : Runs P s) (hi : (s.pt.proc i).live) {v : Nat}
    (hv : v < nupages) (hp : has (pte s.k (s.pt.proc i).pgdir v) .p = true)
    (hw : has (pte s.k (s.pt.proc i).pgdir v) .w = true) :
    let f := pteFrame (pte s.k (s.pt.proc i).pgdir v)
    (∀ j v', (s.pt.proc j).live → v' < nupages → has (pte s.k (s.pt.proc j).pgdir v') .p = true →
      pteFrame (pte s.k (s.pt.proc j).pgdir v') = f → j = i ∧ v' = v) ∧
    f ∉ s.k.freelist ∧ f ∉ s.pt.kstacks ∧ f ∉ tabFrames (s.pt.dirs s.kpgdir) s.k := by
  intro f
  obtain ⟨man, hinv⟩ := h.inv
  have hd := hi.dir
  have hone := hinv.mem.excl _ hd v hv hp hw
  refine ⟨fun j v' hj hv' hp' hf => ?_, fun hfree => ?_, hinv.mem.user_not_kp hd hv hp,
    hinv.mem.user_not_tab hd hv hp⟩
  · obtain ⟨hdir, rfl⟩ := hinv.mem.user_unique hd hv hp hj.dir hv' hp' hf hone
    exact ⟨hinv.pt.dir_inj j i hj hi hdir, rfl⟩
  · have hzero := ((hinv.mem.ledger.free_iff f).mp hfree).2
    exact absurd (hone.symm.trans hzero) Nat.one_ne_zero

omit [Layout] in
theorem Sys.pte_eq {v : Nat} {e : Word} {pg : Nat → Word} (hv : v < nupages)
    (h : (s.aspace i).page v = some (e, pg)) :
    has e .p = true ∧ pte s.k (s.pt.proc i).pgdir v = e := by
  obtain ⟨hp, hpte, -⟩ := upage_eq_some.mp ((upages_of_lt hv).symm.trans h)
  exact ⟨hp, hpte⟩

/-! ### The first `fork` -/

/-- There is no process but the first. -/
def Alone (s : Sys) : Prop := ∀ j, (s.pt.proc j).live → j = initSlot

theorem Alone.call {c : Call} {out : Out} (h : Alone s) (hs : SysInv man s)
    (hi : Alive s initSlot) (hc : c ≠ .fork) (hrun : (c.run initSlot).run s = .ok (out, s')) :
    Alone s' := by
  intro j hj
  by_contra hne
  rcases ((run_spec c hs hi).of_ok hrun).2.other j hne hj with ⟨hl, -⟩ | ⟨-, hfork, -⟩
  · exact hne (h j hl)
  · exact hc hfork

omit [Layout] in
theorem Alone.allocproc (h : Alone s) : s.pt.allocproc ≠ none := by
  intro hnone
  rw [Ptable.allocproc, Option.map_eq_none_iff, Ptable.find_eq_none] at hnone
  have hused := hnone ⟨1, by decide⟩
  have := h ⟨1, by decide⟩ (by simpa [Proc.live] using hused)
  exact absurd this (by decide)

/-- The processes in `T` can run, and can write to their first page. -/
structure Writing (man : Nat → Prop) (T : Fin nproc → Prop) (s : Sys) : Prop where
  inv : SysInv man s
  state : ∀ {i}, T i → (s.pt.proc i).state = .runnable
  unkilled : ∀ {i}, T i → (s.pt.proc i).killed = false
  present : ∀ {i}, T i → (s.aspace i).page 0 ≠ none
  reaches : ∀ {i}, T i → (s.aspace i).Reaches 0 true

namespace Writing

variable {T : Fin nproc → Prop}

section
variable (h : Writing man T s) (hi : T i)
include h hi

theorem alive : Alive s i := .inl (h.state hi)

theorem live : (s.pt.proc i).live := (h.alive hi).live

theorem store (hfree : 2 ≤ s.k.freelist.length) (b : Byte) :
    ∃ s', ((Call.store 0#32 b).run i).run s = .ok (.done, s') ∧ Writing man T s' ∧
      s'.k.oom = s.k.oom ∧ s.k.freelist.length ≤ s'.k.freelist.length + 2 ∧
      (∃ e, (s'.aspace i).page 0 = some (e, setByte ((s.aspace i).contents 0) 0 b) ∧
        has e .w = true) ∧
      ∀ j, T j → j ≠ i → s'.aspace j = s.aspace j := by
  obtain ⟨s', hrun, hst⟩ := store_through 0#32 (b := b) h.inv (h.live hi) (h.unkilled hi)
    (h.reaches hi) fun hs => absurd hs.short.1 (by omega)
  cases hst with
  | @done k' A e hT hoom hfree _ hf hpage hw hu hA =>
    have hself : (Sys.aspace { s with k := k' } i).page 0 =
        some (e, setByte ((s.aspace i).contents 0) 0 b) := by
      rw [hA]
      exact A.setPage_self ..
    have hother : ∀ j, T j → j ≠ i → Sys.aspace { s with k := k' } j = s.aspace j :=
      fun j hj hne => (hT.other j hne (h.live hj)).2
    refine ⟨_, hrun, ⟨hT.inv, h.state, h.unkilled, fun {j} hj => ?_, fun {j} hj => ?_⟩, hoom,
      hfree, ⟨e, hself, hw⟩, hother⟩
    · by_cases hne : j = i
      · rw [hne, hself]
        nofun
      · rw [hother j hj hne]
        exact h.present hj
    · by_cases hne : j = i
      · rw [hne, Aspace.Reaches, hself]
        exact ⟨hu, fun _ => .inl hw⟩
      · rw [hother j hj hne]
        exact h.reaches hj

theorem load (hfree : 2 ≤ s.k.freelist.length) :
    ∃ s', ((Call.load 0#32).run i).run s = .ok (.byte (getByte ((s.aspace i).contents 0) 0), s') ∧
      Writing man T s' ∧ s'.k.oom = s.k.oom ∧ s.k.freelist.length ≤ s'.k.freelist.length + 2 ∧
      ∀ j, T j → (s'.aspace j).contents 0 = (s.aspace j).contents 0 := by
  have hreach : (s.aspace i).Reaches (vpn (0#32 : Word).toNat) false :=
    Aspace.Reaches.read (h.reaches hi)
  obtain ⟨_, s', hrun, hl⟩ := load_through 0#32 h.inv (h.live hi) (h.unkilled hi) hreach
    fun hs => absurd hs.short.1 (by omega)
  cases hl with
  | @done k' hT hoom hfree _ hf =>
    have hother : ∀ j, T j → j ≠ i → Sys.aspace { s with k := k' } j = s.aspace j :=
      fun j hj hne => (hT.other j hne (h.live hj)).2
    refine ⟨_, hrun, ⟨hT.inv, h.state, h.unkilled, fun {j} hj => ?_, fun {j} hj => ?_⟩, hoom,
      hfree.1, fun j hj => ?_⟩
    · by_cases hne : j = i
      · obtain ⟨e, he⟩ := hf.page
        rw [hne]
        exact fun hnone => nomatch he.symm.trans hnone
      · rw [hother j hj hne]
        exact h.present hj
    · by_cases hne : j = i
      · rw [hne]
        exact hf.reaches (h.reaches hi)
      · rw [hother j hj hne]
        exact h.reaches hj
    · by_cases hne : j = i
      · rw [hne]
        exact hf.contents_eq 0
      · rw [hother j hj hne]

end

end Writing

/-- `fork` right after booting: parent and child have the same first page. -/
theorem Booted.fork (hb : Booted s) :
    ∃ man j s', j ≠ initSlot ∧ (Call.fork.run initSlot).run s = .ok (.ret 2, s') ∧
      Writing man (fun i => i = initSlot ∨ i = j) s' ∧ s'.k.oom = s.k.oom ∧
      10 ≤ s'.k.freelist.length ∧
      (∀ i, i = initSlot ∨ i = j → ∃ e,
        (s'.aspace i).page 0 = some (e, (s.aspace initSlot).contents 0) ∧ has e .w = false) ∧
      ∀ i, (s'.pt.proc i).pid = 2 ↔ i = j := by
  obtain ⟨man, h⟩ := hb.ok
  have hl := h.alive.live
  have hfree := h.free
  have hsz : (s.pt.proc initSlot).sz = 4096 := h.space.sz
  have hcard : (residentTables s.k (s.pt.proc initSlot).pgdir (s.pt.proc initSlot).sz).card ≤ 1 :=
    residentTables_card_le (by rw [hsz]; decide)
  obtain ⟨e, pg, hpage, hw, -⟩ := h.space.image.present 0 (by decide)
  -- the page as both have it
  have hshared : ∀ {A : Aspace}, A.page 0 = sharePage ((s.aspace initSlot).page 0) →
      A.vmas = (s.aspace initSlot).vmas →
      A.Reaches 0 true ∧ ∃ e, A.page 0 = some (e, (s.aspace initSlot).contents 0) ∧
        has e .w = false := by
    intro A hA hvmas
    rw [hpage] at hA
    have hro : A.readOnly 0 = false := by
      rw [Aspace.readOnly, Aspace.region, hvmas, h.space.vmas]
      decide
    rw [Aspace.Reaches, Aspace.contents, hA, hpage]
    refine ⟨⟨?_, fun _ => .inr ⟨?_, hro⟩⟩, _, rfl, sharedEntry_w⟩
    · rw [sharedEntry_u]
      exact h.space.user e pg hpage
    · rw [sharedEntry_cow, hw, Bool.true_or]
  have hends : Ends (Call.fork.run initSlot) s (fun out s' =>
      (s'.pt.proc initSlot).killed = false ∧ ∃ j, j ≠ initSlot ∧ out = .ret 2 ∧
        Writing man (fun i => i = initSlot ∨ i = j) s' ∧ s'.k.oom = s.k.oom ∧
        10 ≤ s'.k.freelist.length ∧
        (∀ i, i = initSlot ∨ i = j → ∃ e,
          (s'.aspace i).page 0 = some (e, (s.aspace initSlot).contents 0) ∧ has e .w = false) ∧
        ∀ i, (s'.pt.proc i).pid = 2 ↔ i = j) := by
    refine syscall_alive h.unkilled ((ends_map ..).mpr ((fork_ends h.inv hl).imp ?_))
    intro r s' hf
    have hinv := (hf.stepped h.inv hl).1
    cases hf with
    | full hfull => exact absurd hfull (Alone.allocproc fun j hj => (h.live j).mp hj)
    | fail _ _ _ _ _ _ _ hshort => omega
    | @done j t kstack pgdir k' halloc _ _ _ hparent hchild _ hoom hcount =>
      obtain ⟨htab, hdir, -, -, hvmas, hstate, hkilled, hpid⟩ :=
        ForkEnd.table halloc hl kstack pgdir
      have hj : j ≠ initSlot := by
        rintro rfl
        exact hl (Ptable.allocproc_inv halloc).1
      have hself := htab initSlot hj.symm
      have hspaces := fun i (hi : i = initSlot ∨ i = j) => hshared
        (A := Sys.aspace { s with
          k := k', pt := (t.allocprocStack j kstack).forkCommit initSlot j pgdir } i)
        (by
          rcases hi with rfl | rfl
          · show upages k' (((t.allocprocStack j kstack).forkCommit _ j pgdir).proc _).pgdir 0 = _
            rw [hself, hparent]
            exact if_pos (by rw [hsz]; decide)
          · show upages k' (((t.allocprocStack _ kstack).forkCommit _ _ pgdir).proc _).pgdir 0 = _
            rw [hdir, hchild]
            exact if_pos (by rw [hsz]; decide))
        (by
          rcases hi with rfl | rfl
          · exact congrArg Proc.vmas hself
          · exact hvmas)
      obtain ⟨hnext, hboot⟩ := hb.proc
      refine ⟨by rw [hself]; exact h.unkilled, j, hj, by rw [hnext], ⟨hinv, fun {i} hi => ?_,
        fun {i} hi => ?_, fun {i} hi => ?_, fun {i} hi => (hspaces i hi).1⟩, hoom, ?_,
        fun i hi => (hspaces i hi).2, fun i => ⟨fun hi => ?_, ?_⟩⟩
      · rcases hi with rfl | rfl
        · rw [hself]
          exact h.state
        · exact hstate
      · rcases hi with rfl | rfl
        · rw [hself]
          exact h.unkilled
        · exact hkilled.trans (hboot _).1
      · obtain ⟨e, he, -⟩ := (hspaces i hi).2
        rw [he]
        exact Option.some_ne_none _
      · show 10 ≤ k'.freelist.length
        omega
      · by_contra hne
        rw [htab i hne] at hi
        exact (hboot i).2 hi
      · rintro rfl
        exact hpid.trans hnext
  obtain ⟨_, s', hrun, -, j, hne, rfl, hrest⟩ := hends.exists_ok
  exact ⟨man, j, s', hne, hrun, hrest⟩

omit [Layout] in
/-- The first process forks, and the child writes to its page. -/
theorem writable_page_private_forked : let _ : Layout := Layout.sample
    ∃ (s : Sys) (j : Fin nproc), Runs (fun _ _ => True) s ∧ j ≠ initSlot ∧
      has (pte s.k (s.pt.proc initSlot).pgdir 0) .p = true ∧
      pteFrame (pte s.k (s.pt.proc j).pgdir 0) ≠ pteFrame (pte s.k (s.pt.proc initSlot).pgdir 0) ∧
      pteFrame (pte s.k (s.pt.proc j).pgdir 0) ∉ s.k.freelist := by
  let _ : Layout := Layout.sample
  obtain ⟨s0, hb⟩ := sample_boots
  obtain ⟨man, j, s1, hj, hrun1, h1, -, hfree, -⟩ := hb.fork
  obtain ⟨s2, hrun2, h2, -, -, ⟨e, hpage, hw⟩, hother⟩ := h1.store (.inr rfl) (by omega) 7#8
  have hruns : Runs (fun _ _ => True) s2 := Runs.call (Runs.call (.start hb)
    hb.ok.choose_spec.alive trivial hrun1) (h1.alive (.inr rfl)) trivial hrun2
  obtain ⟨hp, hpte⟩ := Sys.pte_eq (by decide) hpage
  obtain ⟨⟨e', pg⟩, hx⟩ := Option.ne_none_iff_exists'.mp (h2.present (.inl rfl))
  obtain ⟨hp', hpte'⟩ := Sys.pte_eq (by decide) hx
  obtain ⟨hpriv, hfree', -⟩ := writable_page_private hruns (h2.live (.inr rfl))
    (show 0 < nupages by decide) (by rw [hpte]; exact hp) (by rw [hpte]; exact hw)
  have hp0 : has (pte s2.k (s2.pt.proc initSlot).pgdir 0) .p = true := by
    rw [hpte']
    exact hp'
  exact ⟨s2, j, hruns, hj, hp0, fun hf => hj
    (hpriv initSlot 0 (h2.live (.inl rfl)) (by decide) hp0 hf.symm).1.symm, hfree'⟩

/-! ### Other processes -/

/-- Any call but an `sbrk` that takes the size to 0: `growproc` takes a size of 0 for a failure,
and returns before `switchuvm`. -/
def Reloads (c : Call) (A : Aspace) : Prop :=
  ∀ n, c = .sbrk n → n.toInt < 0 → u32 (A.sz + n.toNat) ≠ 0

omit [Layout] in
theorem Reloads.of_ne {c : Call} {A : Aspace} (h : ∀ n, c ≠ .sbrk n) : Reloads c A :=
  fun n hc => absurd hc (h n)

end Xv6
