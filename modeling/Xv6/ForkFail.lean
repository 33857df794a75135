import Xv6.Isolation

/-!
# Xv6.ForkFail

A `fork` that returns -1.

The undo is indirect: `copyuvm` has marked pages of the parent and raised counts page by page
when it runs out of memory, and `freevm` of the half-built child drops the references again.
What is left is the same page directories with the same frames behind every page, so the
reference counts and the free list are as before (`Inv.refcnt_eq`). Some entries of the parent
have turned from writable to copy-on-write.

A store to such a page takes a fault and gives the page back its write permission, unless the
page is in a region without `PROT_WRITE`, where `trap` kills the process. A page that is
writable in such a region is out of the ordinary, and comes about when `sbrk` moves `sz` below
a region and back.
-/

namespace Xv6

open Function (update)

/-! ### Process ids -/

/-- `nextpid` never goes back. -/
def Counting {α : Type} (m : SM α) : Prop :=
  ∀ s, Ends m s (fun _ s' => s.pt.nextpid ≤ s'.pt.nextpid) (fun _ => True)

namespace Counting

variable {α β : Type} {i : Fin nproc}

theorem bind {m : SM α} {f : α → SM β} (hm : Counting m) (hf : ∀ a, Counting (f a)) :
    Counting (m >>= f) := by
  intro s
  exact (hm s).bind fun a s1 h1 => (hf a s1).imp fun _ _ h2 => h1.trans h2

theorem pure (a : α) : Counting (Pure.pure a : SM α) := fun _ => .ret le_rfl

theorem throw (e : Panic) : Counting (MonadExcept.throw e : SM α) := fun _ =>
  (ends_throw ..).mpr trivial

theorem get : Counting (MonadState.get : SM Sys) := fun _ => (ends_get ..).mpr le_rfl

theorem map {m : SM α} {f : α → β} (hm : Counting m) : Counting (f <$> m) := fun s =>
  (ends_map ..).mpr (hm s)

theorem onMem (m : KM α) : Counting (Xv6.onMem m) := fun _ =>
  (ends_onMem ..).mpr (Ends.trivial.mono (fun _ _ _ => le_rfl) fun _ _ => trivial)

theorem modifyPt {f : Ptable → Ptable} (hf : ∀ t, t.nextpid ≤ (f t).nextpid) :
    Counting (Xv6.modifyPt f) := fun s => (ends_modifyPt ..).mpr (hf s.pt)

theorem ite {c : Prop} [Decidable c] {m m' : SM α} (hm : Counting m) (hm' : Counting m') :
    Counting (if c then m else m') := by
  split
  · exact hm
  · exact hm'

theorem onProc (f : Proc → KM (α × Proc)) : Counting (Xv6.onProc i f) :=
  get.bind fun _ => (onMem _).bind fun r =>
    (modifyPt (f := fun t => t.set i r.2) fun _ => le_rfl).bind fun _ => pure _

theorem exit : Counting (Xv6.exit i) :=
  get.bind fun _ => ite (throw _) (modifyPt fun t => by
    obtain ⟨t1, hw, heq⟩ := t.exit_eq i
    rw [heq]
    exact hw.nextpid.ge)

theorem syscall {m : SM Out} (hm : Counting m) : Counting (Xv6.syscall i m) :=
  get.bind fun _ => ite (exit.bind fun _ => pure _)
    (hm.bind fun _ => get.bind fun _ => ite (exit.bind fun _ => pure _) (pure _))

variable [Layout]

theorem fork : Counting (Xv6.fork i) := by
  intro s
  rw [Xv6.fork, ends_bind, ends_get]
  cases halloc : s.pt.allocproc with
  | none => exact .ret le_rfl
  | some x =>
    obtain ⟨j, t⟩ := x
    obtain ⟨-, rfl⟩ := Ptable.allocproc_inv halloc
    dsimp only
    rw [ends_bind, ends_modifyPt]
    -- the slot has taken the next pid; the rest leaves the counter alone
    have hrest : ∀ {s1 : Sys} {m : SM Int}, s1.pt.nextpid = s.pt.nextpid + 1 → Counting m →
        Ends m s1 (fun _ s' => s.pt.nextpid ≤ s'.pt.nextpid) (fun _ => True) := fun h1 hm =>
      (hm _).imp fun _ _ h => by omega
    refine hrest rfl ((onMem _).bind fun r => ?_)
    cases r with
    | none => exact (modifyPt fun _ => by exact le_rfl).bind fun _ => pure _
    | some kstack =>
      refine (modifyPt fun _ => by exact le_rfl).bind fun _ => get.bind fun _ =>
        (onMem _).bind fun r => ?_
      cases r with
      | none =>
        exact (onMem _).bind fun _ => (modifyPt fun _ => by exact le_rfl).bind fun _ => pure _
      | some pgdir => exact (modifyPt fun _ => by exact le_rfl).bind fun _ => pure _

theorem wait : Counting (Xv6.wait i) := by
  refine get.bind fun s => ?_
  dsimp only
  cases s.pt.waitScan i with
  | fail => exact pure _
  | block => exact pure _
  | zombie j =>
    exact (onMem _).bind fun _ => (onMem _).bind fun _ =>
      (modifyPt (f := fun t => t.reap j) fun _ => le_rfl).bind fun _ => pure _

omit [Layout] in
theorem kill (pid : Int) : Counting (Xv6.kill pid) := by
  intro s
  rw [Xv6.kill, ends_bind, ends_get, ends_bind, ends_modifyPt]
  refine .ret ?_
  show s.pt.nextpid ≤ (s.pt.kill pid).2.nextpid
  unfold Ptable.kill
  split <;> exact le_rfl

theorem tryAccess (a : Access) : Counting (Xv6.tryAccess i a) := by
  refine (onProc _).bind fun r => ?_
  cases r with
  | none => exact pure _
  | some e =>
    cases e with
    | resume => exact pure _
    | exit => exact exit.bind fun _ => pure _

theorem userAccess (va : Word) (write : Bool) : ∀ n, Counting (Xv6.userAccess i va write n) := by
  intro n
  induction n with
  | zero => exact pure _
  | succ n ih =>
    refine (tryAccess _).bind fun r => ?_
    cases r with
    | retry => exact ih
    | _ => exact pure _

theorem run (c : Call) : Counting (c.run i) := by
  cases c with
  | mmap n | munmap addr n | mprotect addr n prot | sbrk n | exec ip argv | copyout va buf =>
    exact (onProc _).map.syscall
  | fork => exact fork.map.syscall
  | exit => exact exit.bind fun _ => pure _
  | wait => exact wait.syscall
  | kill pid => exact (kill _).map.syscall
  | load va =>
    refine (userAccess _ _ _).bind fun r => ?_
    cases r with
    | done => exact get.bind fun _ => pure _
    | _ => exact pure _
  | store va b =>
    refine (userAccess _ _ _).bind fun r => ?_
    cases r with
    | done => exact Counting.bind (fun _ => (ends_modify ..).mpr le_rfl) fun _ => pure _
    | _ => exact pure _
  | access a => exact tryAccess a

end Counting

theorem Runs.nextpid_pos [Layout] {P : Call → Aspace → Prop} {s : Sys} (h : Runs P s) :
    0 < s.pt.nextpid := by
  refine Reach.invariant (I := fun s => 0 < s.pt.nextpid) ?_ ?_ h
  · rintro s ⟨mem, initcode, kpgdir, kstack, pgdir, k, -, rfl⟩
    exact show (0 : Int) < 2 by decide
  · rintro s s' hpos ⟨i, c, out, -, -, hrun⟩
    exact hpos.trans_le ((Counting.run c s).of_ok hrun)

/-! ### What a failed `fork` leaves behind -/

theorem userRef_sharePage {k k' : Kmem} {d v : Nat}
    (h : upage k' d v = upage k d v ∨ upage k' d v = sharePage (upage k d v)) :
    userRef k' (d, v) = userRef k (d, v) := by
  rw [userRef_eq_upage, userRef_eq_upage]
  rcases h with h | h
  · rw [h]
  · rw [h, sharePage, Option.map_map]
    exact congrArg (Option.map · _) (funext fun x => sharedEntry_frame)

section
variable [Layout] {man : Nat → Prop} {s s' : Sys} {i : Fin nproc} {va : Word} {v : Nat}

/-- `fork` comes to page `v`, which is writable for the user, and takes away `PTE_W`. -/
def Marks (s : Sys) (i : Fin nproc) (v : Nat) : Prop :=
  ForkReaches s i v ∧
    ∃ e pg, (s.aspace i).page v = some (e, pg) ∧ has e .w = true ∧ has e .u = true

/-- After a `fork` that has failed: every frame is counted and every slot used as before, and
the pages of the parent are the same, but for the marks. -/
structure Undone (man : Nat → Prop) (i : Fin nproc) (s s' : Sys) : Prop where
  inv : SysInv man s'
  refcnt : ∀ f, s'.k.refcnt f = s.k.refcnt f
  free : ∀ f, f ∈ s'.k.freelist ↔ f ∈ s.k.freelist
  used : ∀ j, (s'.pt.proc j).live ↔ (s.pt.proc j).live
  self : s'.pt.proc i = s.pt.proc i
  marked : ∀ v, ForkReaches s i v → (s'.aspace i).page v = sharePage ((s.aspace i).page v)
  kept : ∀ v, ¬ ForkReaches s i v → (s'.aspace i).page v = (s.aspace i).page v
  loc : ∀ v, pteLoc s'.k (s.pt.proc i).pgdir v = pteLoc s.k (s.pt.proc i).pgdir v

theorem ForkEnd.undone {r : Int} (h : SysInv man s) (hi : (s.pt.proc i).live)
    (hpid : 0 < s.pt.nextpid) (hf : ForkEnd man i s r s') (hr : r = -1) : Undone man i s s' := by
  have hst := (hf.stepped h hi).1
  cases hf with
  | full hfull =>
    exact ⟨h, fun _ => rfl, fun _ => Iff.rfl, fun _ => Iff.rfl, rfl, fun _ hv => absurd hfull hv.1,
      fun _ _ => rfl, fun _ => rfl⟩
  | @fail k' t' hloc hmarked hkept hoom hpt hself hapart =>
    have hdir : ∀ d ∈ s.pt.dirs s.kpgdir, k'.mem d = s.k.mem d := fun d hd =>
      (hapart (d + 1)).dir d hd (Nat.ne_of_lt (Nat.lt_succ_self d))
    have hrefs : ∀ d ∈ s.pt.dirs s.kpgdir, ∀ v < nupages,
        userRef k' (d, v) = userRef s.k (d, v) := by
      intro d hd v hv
      refine userRef_sharePage ?_
      rw [← upages_of_lt hv, ← upages_of_lt hv]
      by_cases hdi : d = (s.pt.proc i).pgdir
      · rw [hdi]
        exact (em (ForkReaches s i v)).symm.imp (hkept v) (hmarked v)
      · rw [hloc.others d hd hdi]
        exact .inl rfl
    obtain ⟨hcount, hfree⟩ := h.mem.counts_eq hloc.inv hapart hrefs
    refine ⟨hst, hcount, hfree, fun j => (hpt j).live, hself, fun v hv => ?_, fun v hv => ?_,
      fun v => ?_⟩
    · show upages k' (t'.proc i).pgdir v = _
      rw [hself]
      exact hmarked v hv
    · show upages k' (t'.proc i).pgdir v = _
      rw [hself]
      exact hkept v hv
    · show pteLoc k' _ v = pteLoc s.k _ v
      rw [pteLoc, pteLoc, hdir _ hi.dir]
  | done => omega

/-- A permitted access needs no frame. -/
theorem SysInv.not_starved {write : Bool} (h : SysInv man s) (hi : (s.pt.proc i).live)
    (hok : s.Allowed i va write) : ¬ Starved (s.pt.proc i) ⟨va, write, true⟩ s.k := by
  obtain ⟨e, pg, hv, hup, -, hw, -⟩ := h.allowed_page hi hok
  obtain ⟨hp, rfl, -⟩ := upage_eq_some.mp hup
  intro hs
  cases hs with
  | demand _ _ habs => rw [hp] at habs; cases habs
  | copy hwr _ _ hrefs =>
    have hone := h.mem.excl _ hi.dir _ hv hp (hw hwr)
    dsimp only at hrefs
    omega

namespace Undone

variable {e' : Word} {pg : Nat → Word}

section
variable (h : Undone man i s s')
include h

theorem absent (hv : (s'.aspace i).page v = none) : (s.aspace i).page v = none := by
  by_cases hr : ForkReaches s i v
  · rw [h.marked v hr, sharePage, Option.map_eq_none_iff] at hv
    exact hv
  · rw [← h.kept v hr, hv]

theorem present (hv : (s'.aspace i).page v = some (e', pg)) :
    ∃ e, (s.aspace i).page v = some (e, pg) ∧
      (e' = e ∨ (ForkReaches s i v ∧ e' = sharedEntry e)) := by
  by_cases hr : ForkReaches s i v
  · rw [h.marked v hr, sharePage, Option.map_eq_some_iff] at hv
    obtain ⟨x, hx, he⟩ := hv
    obtain ⟨rfl, rfl⟩ := Prod.mk.inj he
    exact ⟨x.1, hx, .inr ⟨hr, rfl⟩⟩
  · exact ⟨e', by rw [← h.kept v hr, hv], .inl rfl⟩

theorem contents : (s'.aspace i).contents v = (s.aspace i).contents v := by
  cases hpage : (s'.aspace i).page v with
  | none => rw [Aspace.contents, hpage, Aspace.contents, h.absent hpage]
  | some x =>
    obtain ⟨e', pg⟩ := x
    obtain ⟨e, he, -⟩ := h.present hpage
    rw [Aspace.contents, hpage, Aspace.contents, he]

theorem length (hs : SysInv man s) : s'.k.freelist.length = s.k.freelist.length :=
  ((List.perm_ext_iff_of_nodup h.inv.mem.ledger.free_nodup hs.mem.ledger.free_nodup).mpr
    h.free).length_eq

/-- What cannot be had for want of memory could not be had before. -/
theorem starved {write : Bool} (hs : SysInv man s) (hi : (s.pt.proc i).live)
    (hst : Starved (s'.pt.proc i) ⟨va, write, true⟩ s'.k) :
    Starved (s.pt.proc i) ⟨va, write, true⟩ s.k := by
  have hvm := hs.pt.vmas i hi
  have hd' : (s.pt.proc i).pgdir ∈ s'.pt.dirs s'.kpgdir := by
    rw [← h.self]
    exact ((h.used i).mpr hi).dir
  have hpage' := s'.aspace_page i va
  have hpage := s.aspace_page i va
  rw [h.self] at hst hpage'
  cases hst with
  | @demand r hr hw hp hfree =>
    rw [hvm.vmaFind_eq] at hr
    have hv := hvm.region_lt hr
    have habs := h.absent (hpage'.trans (if_neg (by simp [hp])))
    rw [← hvm.vmaFind_eq] at hr
    refine .demand hr hw ?_ ?_
    · rw [hpage] at habs
      by_contra hpres
      rw [if_pos ⟨by simpa using hpres, hv⟩] at habs
      cases habs
    · rw [h.length hs, framesFor, h.loc] at hfree
      exact hfree
  | copy hw hro hc hrefs hfree =>
    have hv := h.inv.mem.cowPage_user hd' (vpn_lt va.isLt) hc
    rw [if_pos ⟨hc.1, hv⟩] at hpage'
    obtain ⟨e, he, hmark⟩ := h.present hpage'
    obtain ⟨hp, hpte⟩ := Sys.pte_eq hv he
    have hframe : pteFrame (pte s'.k (s.pt.proc i).pgdir (vpn va.toNat)) = pteFrame e := by
      rcases hmark with hm | ⟨-, hm⟩
      · rw [hm]
      · rw [hm, sharedEntry_frame]
    have hshared : 1 < s.k.refcnt (pteFrame e) := by
      rw [← h.refcnt, ← hframe]
      exact hrefs
    -- a page that was writable has one owner
    have hnw : has e .w = false := by
      by_contra hw
      have := hs.mem.excl _ hi.dir _ hv (by rw [hpte]; exact hp)
        (by rw [hpte]; simpa using hw)
      rw [hpte] at this
      omega
    have hcow : has e .cow = true := by
      rcases hmark with hm | ⟨-, hm⟩
      · rw [← hm]
        exact hc.2
      · have := hc.2
        rw [hm, sharedEntry_cow, hnw] at this
        exact this
    refine .copy hw hro ⟨by rw [hpte]; exact hp, by rw [hpte]; exact hcow⟩
      (by rw [hpte]; exact hshared) ?_
    exact List.eq_nil_iff_forall_not_mem.mpr fun f hf => by
      have := (h.free f).mpr hf
      rw [hfree] at this
      cases this

/-- What could be reached can be reached, unless it was to be written to, is marked, and lies
in a region without `PROT_WRITE`. -/
theorem reaches {write : Bool} (hr : (s.aspace i).Reaches v write)
    (hok : write = true → Marks s i v → (s.aspace i).readOnly v = false) :
    (s'.aspace i).Reaches v write := by
  have hregion : ∀ v, (s'.aspace i).region v = (s.aspace i).region v := fun v => by
    show regionOf (s'.pt.proc i).vmas v = regionOf (s.pt.proc i).vmas v
    rw [h.self]
  have hro : (s'.aspace i).readOnly v = (s.aspace i).readOnly v := by
    rw [Aspace.readOnly, Aspace.readOnly, hregion]
  cases hpage : (s'.aspace i).page v with
  | none =>
    rw [Aspace.Reaches, h.absent hpage] at hr
    rw [Aspace.Reaches, hpage, hregion]
    exact hr
  | some x =>
    obtain ⟨e', pg⟩ := x
    obtain ⟨e, he, hmark⟩ := h.present hpage
    rw [Aspace.Reaches, he] at hr
    rw [Aspace.Reaches, hpage, hro]
    rcases hmark with hm | ⟨hfork, hm⟩
    · dsimp only
      rw [hm]
      exact hr
    · refine ⟨by rw [hm, sharedEntry_u]; exact hr.1, fun hw => .inr ?_⟩
      rw [hm, sharedEntry_cow]
      rcases hr.2 hw with hww | ⟨hcow, hro⟩
      · exact ⟨by simp [hww], hok hw ⟨hfork, e, _, he, hww, hr.1⟩⟩
      · exact ⟨by simp [hcow], hro⟩

end

end Undone

/-! ### Loads and stores of the parent -/

/-- A failed `fork` cannot be told from no `fork`: the counts, the free frames and the slots in
use are as before, a load returns the byte it would have returned, and a store goes through
that would have gone through, without a new frame for a page with one owner. -/
structure Invisible (i : Fin nproc) (s s' : Sys) : Prop where
  refcnt : ∀ f, s'.k.refcnt f = s.k.refcnt f
  free : ∀ f, f ∈ s'.k.freelist ↔ f ∈ s.k.freelist
  used : ∀ j, (s'.pt.proc j).state ≠ .unused ↔ (s.pt.proc j).state ≠ .unused
  loads : ∀ va b s1, ((Call.load va).run i).run s = .ok (.byte b, s1) →
    ∃ s2, ((Call.load va).run i).run s' = .ok (.byte b, s2)
  stores : ∀ va b s1, ((Call.store va b).run i).run s = .ok (.done, s1) →
    ∃ s2, ((Call.store va b).run i).run s' = .ok (.done, s2) ∧
      ∀ e pg, (s'.aspace i).page (vpn va.toNat) = some (e, pg) →
        s'.k.refcnt (pteFrame e) = 1 → s2.k.freelist = s'.k.freelist

namespace Undone

variable {b : Byte} {s1 : Sys}

section
variable (h : Undone man i s s') (hs : SysInv man s) (hi : (s.pt.proc i).live)
  (hk : (s.pt.proc i).killed = false)
include h hs hi hk

theorem load (hrun : ((Call.load va).run i).run s = .ok (.byte b, s1)) :
    ∃ s2, ((Call.load va).run i).run s' = .ok (.byte b, s2) := by
  have hl : Loaded man i va s (.byte b) s1 := (load_ends hs hi hk).of_ok hrun
  cases hl with
  | done hT hoom hfree hreach hf hfed =>
    have hnot : ¬ Starved (s'.pt.proc i) ⟨va, false, true⟩ s'.k := fun hst =>
      hfed.elim (fun hok => hs.not_starved hi hok (h.starved hs hi hst))
        fun hno => hno (h.starved hs hi hst)
    have hreach' := h.reaches hreach fun hw => absurd hw (by simp)
    obtain ⟨b', s2, hrun', hl'⟩ := load_through _ h.inv ((h.used i).mpr hi)
      (by rw [h.self]; exact hk) hreach' hnot
    refine ⟨s2, hrun'.trans ?_⟩
    cases hl' with
    | done => rw [h.contents]

theorem store (hok : Marks s i (vpn va.toNat) → (s.aspace i).readOnly (vpn va.toNat) = false)
    (hrun : ((Call.store va b).run i).run s = .ok (.done, s1)) :
    ∃ s2, ((Call.store va b).run i).run s' = .ok (.done, s2) ∧
      ∀ e pg, (s'.aspace i).page (vpn va.toNat) = some (e, pg) →
        s'.k.refcnt (pteFrame e) = 1 → s2.k.freelist = s'.k.freelist := by
  have hst : Stored man i va b s .done s1 := (store_ends hs hi hk).of_ok hrun
  cases hst with
  | done hT hoom hfree hreach hf hpage hw hu hA hfed =>
    have hnot : ¬ Starved (s'.pt.proc i) ⟨va, true, true⟩ s'.k := fun hst =>
      hfed.elim (fun hok => hs.not_starved hi hok (h.starved hs hi hst))
        fun hno => hno (h.starved hs hi hst)
    have hreach' := h.reaches hreach fun _ => hok
    obtain ⟨s2, hrun', hst'⟩ := store_through _ h.inv ((h.used i).mpr hi)
      (by rw [h.self]; exact hk) hreach' hnot
    refine ⟨s2, hrun', ?_⟩
    cases hst' with
    | done _ _ _ _ _ _ _ _ _ _ hsole => exact hsole

/-- A page that is marked in a region without `PROT_WRITE` can no longer be written to. -/
theorem lost (hm : Marks s i v) (hro : (s.aspace i).readOnly v = true) :
    ∃ va b s1, ((Call.store va b).run i).run s = .ok (.done, s1) ∧
      ∀ s2, ((Call.store va b).run i).run s' ≠ .ok (.done, s2) := by
  obtain ⟨hfork, e, pg, he, hw, hu⟩ := hm
  have hv : v < nupages := by
    by_contra hge
    rw [show (s.aspace i).page v = none from upages_of_ge (by omega)] at he
    cases he
  have hlt : v * 4096 < 2 ^ 32 := by
    have : nupages = 0x80000 := by decide
    omega
  have hva : vpn (BitVec.ofNat 32 (v * 4096)).toNat = v := by
    rw [BitVec.toNat_ofNat, Nat.mod_eq_of_lt hlt]
    exact Nat.mul_div_cancel v (by decide)
  have hreach : (s.aspace i).Reaches v true := by
    rw [Aspace.Reaches, he]
    exact ⟨hu, fun _ => .inl hw⟩
  obtain ⟨hp, hpte⟩ := Sys.pte_eq hv he
  have hfed : ¬ Starved (s.pt.proc i) ⟨BitVec.ofNat 32 (v * 4096), true, true⟩ s.k := by
    refine hs.not_starved hi ?_
    unfold Sys.Allowed allows
    rw [hva, hpte]
    simp [hp, hw, hu]
  -- the store goes through before the call
  obtain ⟨s1, hrun, -⟩ := store_through _ (b := 0#8) hs hi hk (by rw [hva]; exact hreach) hfed
  refine ⟨_, _, s1, hrun, fun s2 hrun' => ?_⟩
  -- and not after it
  have hst : Stored man i (BitVec.ofNat 32 (v * 4096)) 0#8 s' .done s2 :=
    (store_ends h.inv ((h.used i).mpr hi) (by rw [h.self]; exact hk)).of_ok hrun'
  cases hst with
  | done _ _ _ hreach' =>
    rw [hva, Aspace.Reaches, h.marked v hfork, he] at hreach'
    rcases hreach'.2 rfl with hww | ⟨-, hro'⟩
    · rw [sharedEntry_w] at hww
      cases hww
    · have hsame : (s'.aspace i).readOnly v = (s.aspace i).readOnly v := by
        show (regionOf (s'.pt.proc i).vmas v).any _ = (regionOf (s.pt.proc i).vmas v).any _
        rw [h.self]
      rw [hsame, hro] at hro'
      cases hro'

end

end Undone

theorem Runs.undone (h : Runs (fun _ _ => True) s) (hs : SysInv man s) (hi : Alive s i)
    (hrun : (Call.fork.run i).run s = .ok (.ret (-1), s')) :
    (s.pt.proc i).killed = false ∧ Undone man i s s' := by
  have hspec : Ends (Call.fork.run i) s (fun out s' => out ≠ .killed →
      (s.pt.proc i).killed = false ∧ (out = .ret (-1) → Undone man i s s')) (fun _ => True) := by
    refine syscall_ret ((ends_map ..).mpr ((fork_ends hs hi.live).mono (fun r s' hf hr => ?_)
      fun _ _ => trivial))
    exact hf.undone hs hi.live h.nextpid_pos (by simpa using hr)
  obtain ⟨hk, hund⟩ := hspec.of_ok hrun (by simp)
  exact ⟨hk, hund rfl⟩

/-- A `fork` that returns -1 is invisible exactly if none of the writable pages that it can come
to, with the slots and the frames there are, lies in a region without `PROT_WRITE`. -/
theorem failed_fork_invisible_iff (h : Runs (fun _ _ => True) s) (hi : Alive s i)
    (hrun : (Call.fork.run i).run s = .ok (.ret (-1), s')) :
    Invisible i s s' ↔ ∀ v, Marks s i v → (s.aspace i).readOnly v = false := by
  obtain ⟨man, hs⟩ := h.inv
  have hl := hi.live
  obtain ⟨hk, hu⟩ := h.undone hs hi hrun
  constructor
  · intro hinv v hm
    by_contra hro
    obtain ⟨va, b, s1, hbefore, hafter⟩ := hu.lost hs hl hk hm (by simpa using hro)
    obtain ⟨s2, hrun2, -⟩ := hinv.stores va b s1 hbefore
    exact hafter s2 hrun2
  · intro hok
    exact ⟨hu.refcnt, hu.free, hu.used, fun va b s1 hl' => hu.load hs hl hk hl',
      fun va b s1 hst => hu.store hs hl hk (hok _) hst⟩

/-! ### A run that ends in such a `fork`

The first process maps a page, makes it read-only, and takes its heap down and up again over
it, which leaves a writable page in the read-only region. Then it maps 1 GB and reads one page
after another, the first of each 4 MB before the second of any, until about 200 frames are
free. The child would need 256 page tables. -/

theorem SysInv.freelist_length_le (h : SysInv man s) : s.k.freelist.length ≤ 57344 := by
  rw [← List.toFinset_card_of_nodup h.mem.ledger.free_nodup, ← Finset.card_range 57344]
  refine Finset.card_le_card fun f hf => ?_
  have hlt := (h.mem.man_range f ((h.mem.ledger.free_iff f).mp (List.mem_toFinset.mp hf)).1).2
  simp only [v2p, pgsize, phystop] at hlt
  rw [Finset.mem_range]
  omega

/-- The first process has grown its heap into the region it had made read-only. -/
structure Regrown (man : Nat → Prop) (s : Sys) : Prop extends Ready man s where
  sz : (s.pt.proc initSlot).sz = 8192
  vmas : (s.pt.proc initSlot).vmas = oneVma protRead
  heap : ∃ e pg, (s.aspace initSlot).page 1 = some (e, pg) ∧ has e .w = true ∧ has e .u = true
  beyond : ∀ v, 2 ≤ v → (s.aspace initSlot).page v = none
  free : 49990 ≤ s.k.freelist.length

theorem OneRegion.regrow (h : OneRegion man 4096 protRead s) :
    ∃ out s', ((Call.sbrk 4096#32).run initSlot).run s = .ok (out, s') ∧ Regrown man s' := by
  have hd := h.alive.live.dir
  have hvm := h.inv.pt.vmas _ h.alive.live
  have hn : (4096#32 : Word).toNat = 4096 := rfl
  refine h.call rfl (sysSbrk_moved h.inv.mem hd hvm)
    ((sysSbrk_pos h.inv.mem hd hvm (by decide)).mono ?_ ?_)
  · have hfree := h.free
    unfold GrowEnd
    rw [h.sz, hn]
    rintro r k' (⟨hbig, -⟩ | ⟨hfit, rfl, hg⟩ | ⟨-, -, hab⟩)
    · exact absurd hbig (by decide)
    · refine ⟨h.unkilled, fun hr => ⟨hr, rfl, ?_, ?_, fun v hv => ?_, ?_⟩⟩
      all_goals simp only [Ptable.set_proc_self, Sys.aspace]
      · exact h.vmas
      · obtain ⟨e, he, hw, hu, -⟩ :=
          (hg.upages_fresh (v := 1) (by decide) (by decide) (by decide)).2
        exact ⟨e, _, he, hw, hu⟩
      · exact (hg.upages_same hd (by omega)).trans (h.beyond v hv)
      · have := hg.free
        show 49990 ≤ k'.freelist.length
        omega
    · have := hab.short
      omega
  · rintro e ⟨-, v, hlo, hhi, hne⟩
    rw [h.sz] at hlo
    rw [h.sz, hn] at hhi
    obtain rfl : v = 1 := by omega
    exact hne h.absent

/-- The page read in round `j`. -/
def spread (j : Nat) : Nat := 2 + j % 256 * 1024 + j / 256

omit [Layout] in
theorem spread_inj {a b : Nat} (ha : a < 262144) (hb : b < 262144) (h : spread a = spread b) :
    a = b := by
  unfold spread at h
  omega

omit [Layout] in
theorem spread_bounds {a : Nat} (ha : a < 262144) : 2 ≤ spread a ∧ spread a < 262146 := by
  unfold spread
  omega

/-- The first process after reading `j` pages of its large region. -/
structure Filling (man : Nat → Prop) (j : Nat) (s : Sys) : Prop extends Ready man s where
  sz : (s.pt.proc initSlot).sz = 1073750016
  readOnly : (s.aspace initSlot).readOnly 1 = true
  region : ∀ v, 2 ≤ v → v < 262146 → (s.aspace initSlot).region v ≠ none
  heap : ∃ e pg, (s.aspace initSlot).page 1 = some (e, pg) ∧ has e .w = true ∧ has e .u = true
  loaded : ∀ a < j, (s.aspace initSlot).page (spread a) ≠ none
  absent : ∀ a, j ≤ a → a < 262144 → (s.aspace initSlot).page (spread a) = none
  atMost : j + s.k.freelist.length ≤ 57344
  atLeast : 49990 ≤ s.k.freelist.length + 2 * j

/-- The regions after a second `mmap`, of 1 GB. -/
def twoVmas : Fin maxVmas → Vma :=
  update (oneVma protRead) ⟨1, by decide⟩ ⟨8192, 1073741824, protRead ||| protWrite, true⟩

theorem Regrown.mmap (h : Regrown man s) :
    ∃ out s', ((Call.mmap 1073741824#32).run initSlot).run s = .ok (out, s') ∧
      Filling man 0 s' := by
  have hfree : vmaFree (s.pt.proc initSlot) = some ⟨1, by decide⟩ := by
    unfold vmaFree
    rw [h.vmas]
    decide
  have hmm := sysMmap_eq (n := 1073741824#32) (by decide) (by decide) (by rw [h.sz])
    (by rw [h.sz]; decide) (by rw [h.sz]; decide) hfree
  have hm := sysMmap_moved (n := 1073741824#32) h.inv.mem (h.inv.pt.vmas _ h.alive.live)
  refine h.call (E := fun _ => True) rfl (.ret hm) (.ret ?_)
  rw [hmm, h.sz, h.vmas]
  refine ⟨h.unkilled, fun hr => ⟨hr, ?_, ?_, fun v hlo hhi => ?_, ?_, fun a ha => ?_,
    fun a ha hlt => ?_, ?_, ?_⟩⟩
  all_goals simp only [Ptable.set_proc_self, Sys.aspace]
  · rfl
  · show (regionOf twoVmas 1).any (fun r => !canWrite r.prot) = true
    decide
  · show regionOf twoVmas v ≠ none
    intro hnone
    refine regionOf_eq_none.mp hnone ⟨1, by decide⟩ rfl ⟨?_, ?_⟩
    · show 8192 ≤ v * 4096
      omega
    · show v * 4096 < 8192 + 1073741824
      omega
  · exact h.heap
  · exact absurd ha (Nat.not_lt_zero a)
  · exact h.beyond _ (spread_bounds hlt).1
  · have := h.inv.freelist_length_le
    show 0 + s.k.freelist.length ≤ _
    omega
  · exact h.free

theorem Filling.load {j : Nat} (h : Filling man j s) (hfree : 2 ≤ s.k.freelist.length) :
    ∃ out s', ((Call.load (BitVec.ofNat 32 (spread j * 4096))).run initSlot).run s = .ok (out, s') ∧
      Filling man (j + 1) s' ∧ s.k.freelist.length ≤ s'.k.freelist.length + 2 ∧
      s'.k.freelist.length < s.k.freelist.length := by
  have hmost := h.atMost
  have hleast := h.atLeast
  have hj : j < 262144 := by omega
  obtain ⟨hlo, hhi⟩ := spread_bounds hj
  have hv : vpn (BitVec.ofNat 32 (spread j * 4096)).toNat = spread j := by
    rw [BitVec.toNat_ofNat, Nat.mod_eq_of_lt (by omega)]
    exact Nat.mul_div_cancel _ (by decide)
  have habs := h.absent j le_rfl hj
  have hreach : (s.aspace initSlot).Reaches (spread j) false := by
    obtain ⟨r, hr⟩ := Option.ne_none_iff_exists'.mp (h.region _ hlo hhi)
    rw [Aspace.Reaches, habs]
    exact ⟨r, hr, by simp⟩
  obtain ⟨b, s', hrun, hload⟩ := load_through (BitVec.ofNat 32 (spread j * 4096)) h.inv
    h.alive.live h.unkilled (by rw [hv]; exact hreach)
    fun hs => absurd hs.short.1 (by omega)
  refine ⟨_, s', hrun, ?_⟩
  cases hload with
  | @done k' hT hoom hcost _ hf =>
    rw [hv] at hcost hf
    have hless := hcost.2 habs
    have hother : ∀ w, w ≠ spread j →
        (Sys.aspace { s with k := k' } initSlot).page w = (s.aspace initSlot).page w :=
      fun w hne => hf.page_of_ne hne
    refine ⟨⟨⟨hT.inv, h.state, h.unkilled⟩, h.sz, h.readOnly, h.region, ?_, fun a ha => ?_,
      fun a ha hlt => ?_, ?_, ?_⟩, hcost.1, hless⟩
    · rw [hother 1 (by omega)]
      exact h.heap
    · by_cases he : a = j
      · obtain ⟨e, hpage⟩ := hf.page
        rw [he, hpage]
        simp
      · rw [hother _ fun hc => he (spread_inj (by omega) hj hc)]
        exact h.loaded a (by omega)
    · rw [hother _ fun hc => absurd (spread_inj hlt hj hc) (by omega)]
      exact h.absent a (by omega) hlt
    · show j + 1 + k'.freelist.length ≤ _
      omega
    · show _ ≤ k'.freelist.length + 2 * (j + 1)
      omega

/-- Pages are read until no more than 200 frames are free. -/
theorem Filling.exhaust {j : Nat} (h : Filling man j s) (hr : Runs (fun _ _ => True) s)
    (ha : Alone s) (hfree : 199 ≤ s.k.freelist.length) :
    ∃ j' s', Filling man j' s' ∧ Runs (fun _ _ => True) s' ∧ Alone s' ∧
      199 ≤ s'.k.freelist.length ∧ s'.k.freelist.length ≤ 200 := by
  induction hn : s.k.freelist.length using Nat.strong_induction_on generalizing j s with
  | _ n ih =>
    by_cases hle : s.k.freelist.length ≤ 200
    · exact ⟨j, s, h, hr, ha, hfree, hle⟩
    · obtain ⟨out, s', hrun, h', hcost, hless⟩ := h.load (by omega)
      exact ih _ (hn ▸ hless) h' (hr.call h.alive trivial hrun)
        (ha.call h.inv h.alive (by simp) hrun) (by omega) rfl

/-- The `fork` fails, at a page beyond the first 4 MB. -/
theorem Filling.fork {j : Nat} (h : Filling man j s) (ha : Alone s)
    (hlo : 199 ≤ s.k.freelist.length) (hhi : s.k.freelist.length ≤ 200) :
    ∃ s', (Call.fork.run initSlot).run s = .ok (.ret (-1), s') ∧
      Marks s initSlot 1 := by
  have hl := h.alive.live
  have hends : Ends (Call.fork.run initSlot) s (fun out s' =>
      (s'.pt.proc initSlot).killed = false ∧ out = .ret (-1)) := by
    refine syscall_alive h.unkilled ((ends_map ..).mpr ((fork_ends h.inv hl).imp ?_))
    intro r s' hf
    cases hf with
    | full hfull => exact absurd hfull ha.allocproc
    | fail _ _ _ _ _ hself => exact ⟨by rw [hself]; exact h.unkilled, rfl⟩
    | done _ _ _ _ _ _ _ _ hcount =>
      -- there is a page in each of the first 256 blocks
      have hleast := h.atLeast
      have hsub : Finset.range 256 ⊆ residentTables s.k (s.pt.proc initSlot).pgdir
          (s.pt.proc initSlot).sz := by
        intro b hb
        have hb := Finset.mem_range.mp hb
        have hsp : spread b = 2 + b * 1024 := by
          unfold spread
          omega
        have hv : spread b < nupages := by
          have : nupages = 0x80000 := by decide
          omega
        refine mem_residentTables.mpr ⟨spread b, hv, ?_, ?_, by omega⟩
        · rw [h.sz]
          omega
        · rw [← upages_of_lt hv]
          exact h.loaded b (by omega)
      have hcard := Finset.card_le_card hsub
      rw [Finset.card_range] at hcard
      omega
  obtain ⟨out, s', hrun, -, rfl⟩ := hends.exists_ok
  refine ⟨s', hrun, ⟨ha.allocproc, by rw [h.sz]; decide, ?_⟩, h.heap⟩
  have hcard := residentTables_card_le (k := s.k) (d := (s.pt.proc initSlot).pgdir)
    (show 1 * 4096 ≤ 0x400000 by decide)
  omega

end

theorem fork_fails_after_filling : let _ : Layout := Layout.sample
    ∃ s s', Runs (fun _ _ => True) s ∧ Alive s initSlot ∧
      (s.pt.proc initSlot).killed = false ∧
      (Call.fork.run initSlot).run s = .ok (.ret (-1), s') ∧
      Marks s initSlot 1 ∧
      (s.aspace initSlot).readOnly 1 = true := by
  let _ : Layout := Layout.sample
  obtain ⟨s0, hb⟩ := sample_boots
  obtain ⟨man, h0⟩ := hb.ok
  have ha0 : Alone s0 := fun j hj => (h0.live j).mp hj
  have hr0 : Runs (fun _ _ => True) s0 := .start hb
  obtain ⟨out1, s1, hrun1, h1⟩ := h0.mmap
  have ha1 := ha0.call h0.inv h0.alive (by simp) hrun1
  have hr1 := hr0.call h0.alive trivial hrun1
  obtain ⟨out2, s2, hrun2, h2⟩ := h1.mprotect
  have ha2 := ha1.call h1.inv h1.alive (by simp) hrun2
  have hr2 := hr1.call h1.alive trivial hrun2
  obtain ⟨out3, s3, hrun3, h3⟩ := h2.sbrk
  have ha3 := ha2.call h2.inv h2.alive (by simp) hrun3
  have hr3 := hr2.call h2.alive trivial hrun3
  obtain ⟨out4, s4, hrun4, h4⟩ := h3.regrow
  have ha4 := ha3.call h3.inv h3.alive (by simp) hrun4
  have hr4 := hr3.call h3.alive trivial hrun4
  obtain ⟨out5, s5, hrun5, h5⟩ := h4.mmap
  have ha5 := ha4.call h4.inv h4.alive (by simp) hrun5
  have hr5 := hr4.call h4.alive trivial hrun5
  have hmany := h5.atLeast
  obtain ⟨j, s, h, hr, ha, hlo, hhi⟩ := h5.exhaust hr5 ha5 (by omega)
  obtain ⟨s', hrun, hm⟩ := h.fork ha hlo hhi
  exact ⟨s, s', hr, h.alive, h.unkilled, hrun, hm, h.readOnly⟩

theorem failed_fork_invisible_iff_filled : let _ : Layout := Layout.sample
    ∃ s s', Runs (fun _ _ => True) s ∧ Alive s initSlot ∧
      (Call.fork.run initSlot).run s = .ok (.ret (-1), s') ∧
      (Invisible initSlot s s' ↔
        ∀ v, Marks s initSlot v → (s.aspace initSlot).readOnly v = false) := by
  let _ : Layout := Layout.sample
  obtain ⟨s, s', hr, hi, -, hrun, -, -⟩ := fork_fails_after_filling
  exact ⟨s, s', hr, hi, hrun, failed_fork_invisible_iff hr hi hrun⟩

/-- A store that goes through before a `fork` that fails, and does not after it. -/
theorem failed_fork_loses_store : let _ : Layout := Layout.sample
    ∃ s s' va b s1, Runs (fun _ _ => True) s ∧ Alive s initSlot ∧
      (Call.fork.run initSlot).run s = .ok (.ret (-1), s') ∧
      ((Call.store va b).run initSlot).run s = .ok (.done, s1) ∧
      ∀ s2, ((Call.store va b).run initSlot).run s' ≠ .ok (.done, s2) := by
  let _ : Layout := Layout.sample
  obtain ⟨s, s', hr, hi, hk, hrun, hm, hro⟩ := fork_fails_after_filling
  obtain ⟨man, hs⟩ := hr.inv
  obtain ⟨va, b, s1, hbefore, hafter⟩ := (hr.undone hs hi hrun).2.lost hs hi.live hk hm hro
  exact ⟨s, s', va, b, s1, hr, hi, hrun, hbefore, hafter⟩

end Xv6
