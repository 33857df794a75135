import Mathlib.Algebra.BigOperators.Group.Finset.Piecewise
import Xv6.Lib.Reach
import Xv6.RefCount.Cow
import Xv6.RefCount.Init

/-!
# Xv6.RefCount.Run

The memory system as a whole: any number of page directories, and the functions
of `kalloc.c` and `vm.c` called on them in any order.

A state carries, next to physical memory, what the counts are measured against:
the frames given to the allocator, the live page directories, and the pages the
kernel holds for itself (kernel stacks, pipe buffers). The operations are the
kernel functions run on memory; `pre` is what their callers guarantee about the
arguments.
-/

namespace Xv6

/-! ### The machine -/

/-- Physical memory and who is supposed to use it. -/
structure MemSys where
  k : Kmem
  /-- Frames given to the allocator by `freerange`. -/
  man : Finset Nat
  /-- Live page directories. -/
  dirs : Finset Nat
  /-- Pages the kernel holds: kernel stacks, pipe buffers. -/
  kp : Finset Nat

/-- The calls of the memory system. -/
inductive MemOp
  /-- `kinit1` and `kinit2`. -/
  | freerange (vstart vend : Nat)
  | kalloc
  | kfree (f : Nat)
  | setupkvm
  | allocuvm (d oldsz newsz : Nat)
  | deallocuvm (d oldsz newsz : Nat)
  | vmAllocMmapPage (d va : Nat) (prot : Word)
  | vmProtectRange (d start length : Nat) (prot : Word)
  | vmUnmapRange (d start length : Nat)
  | copyuvm (d sz : Nat)
  | cowFault (d va : Nat)
  | freevm (d : Nat)

/-- Run a kernel function on the memory of the system. -/
def MemSys.call {α : Type} (s : MemSys) (m : KM α) (upd : α → MemSys → MemSys) :
    Except Panic MemSys :=
  match m.run s.k with
  | .ok (a, k) => .ok (upd a { s with k := k })
  | .error e => .error e

instance (vstart vend f : Nat) : Decidable (InRange vstart vend f) :=
  inferInstanceAs (Decidable (_ ∧ _))

/-- The frames of a range of kernel addresses. -/
def rangeFrames (vstart vend : Nat) : Finset Nat :=
  (Finset.range npages).filter (InRange vstart vend)

section
variable [Layout]

/-- What the callers guarantee. Sizes and ranges stay in the user half, a released
page is one the kernel holds, and a range given to the allocator is new. -/
def MemOp.pre (s : MemSys) : MemOp → Prop
  | .freerange vstart vend =>
    Layout.kend ≤ vstart ∧ vstart ≤ vphystop ∧ vend ≤ vphystop ∧
      Disjoint (rangeFrames vstart vend) s.man
  | .kalloc => True
  | .kfree f => f ∈ s.kp
  | .setupkvm => True
  | .allocuvm d _ _ => d ∈ s.dirs
  | .deallocuvm d oldsz _ => d ∈ s.dirs ∧ oldsz ≤ kernbase
  | .vmAllocMmapPage d va _ => d ∈ s.dirs ∧ va < kernbase
  | .vmProtectRange d start length _ => d ∈ s.dirs ∧ start + length ≤ kernbase
  | .vmUnmapRange d start length => d ∈ s.dirs ∧ start + length ≤ kernbase
  | .copyuvm d sz => d ∈ s.dirs ∧ sz ≤ kernbase
  | .cowFault d va => d ∈ s.dirs ∧ va < 2 ^ 32
  | .freevm d => d ∈ s.dirs

/-- One call. A new page or directory is recorded as in use, a released one is
forgotten. -/
def MemOp.step (s : MemSys) : MemOp → Except Panic MemSys
  | .freerange vstart vend => s.call (Xv6.freerange vstart vend) fun _ s =>
    { s with man := s.man ∪ rangeFrames vstart vend }
  | .kalloc => s.call Xv6.kalloc fun r s =>
    { s with kp := match r with
               | some f => insert f s.kp
               | none => s.kp }
  | .kfree f => s.call (Xv6.kfree f) fun _ s => { s with kp := s.kp.erase f }
  | .setupkvm => s.call Xv6.setupkvm fun r s =>
    { s with dirs := match r with
               | some d => insert d s.dirs
               | none => s.dirs }
  | .allocuvm d oldsz newsz => s.call (Xv6.allocuvm d oldsz newsz) fun _ s => s
  | .deallocuvm d oldsz newsz => s.call (Xv6.deallocuvm d oldsz newsz) fun _ s => s
  | .vmAllocMmapPage d va prot => s.call (Xv6.vmAllocMmapPage d va prot) fun _ s => s
  | .vmProtectRange d start length prot =>
    s.call (Xv6.vmProtectRange d start length prot) fun _ s => s
  | .vmUnmapRange d start length => s.call (Xv6.vmUnmapRange d start length) fun _ s => s
  | .copyuvm d sz => s.call (Xv6.copyuvm d sz) fun r s =>
    { s with dirs := match r with
               | some c => insert c s.dirs
               | none => s.dirs }
  | .cowFault d va => s.call (Xv6.cowFault d va) fun _ s => s
  | .freevm d => s.call (Xv6.freevm d) fun _ s => { s with dirs := s.dirs.erase d }

/-- Before `kinit1`: the counts are zero, the free list is empty, nothing is in
use. Memory holds anything. -/
def MemInit (s : MemSys) : Prop :=
  s.k.freelist = [] ∧ (∀ f, s.k.refcnt f = 0) ∧ s.man = ∅ ∧ s.dirs = ∅ ∧ s.kp = ∅

def MemStep (s s' : MemSys) : Prop := ∃ op : MemOp, op.pre s ∧ op.step s = .ok s'

/-! ### The invariant along runs -/

/-- The invariant of a state. -/
def MemSys.Ok (s : MemSys) : Prop := Inv (· ∈ s.man) s.dirs s.kp s.k

/-- A call leaves a state of the invariant, or stops with `remap`. -/
def Keeps (x : Except Panic MemSys) : Prop :=
  (∀ s, x = .ok s → s.Ok) ∧ (∀ e, x = .error e → e = .remap)

theorem MemSys.call_keeps {α : Type} {s : MemSys} {m : KM α} {upd : α → MemSys → MemSys}
    (h : Ends m s.k (fun a k => (upd a { s with k := k }).Ok) (· = .remap)) :
    Keeps (s.call m upd) := by
  unfold MemSys.call
  cases hm : m.run s.k with
  | ok r =>
    refine ⟨fun s' hs => ?_, fun e he => absurd he (by simp)⟩
    obtain rfl := Except.ok.inj hs
    exact h.of_ok hm
  | error e =>
    refine ⟨fun s' hs => absurd hs (by simp), fun e' he => ?_⟩
    obtain rfl := Except.error.inj he
    exact h.of_error hm

omit [Layout] in
theorem mem_rangeFrames {vstart vend f : Nat} (hend : vend ≤ vphystop) :
    f ∈ rangeFrames vstart vend ↔ InRange vstart vend f := by
  simp only [rangeFrames, Finset.mem_filter, Finset.mem_range, and_iff_right_iff_imp]
  rintro ⟨-, h⟩
  simp only [v2p, pgsize, npages, vphystop, kernbase, phystop] at *
  omega

/-- Every call keeps the invariant or stops with `remap`. -/
theorem MemOp.step_ok {s : MemSys} (h : s.Ok) (op : MemOp) (hpre : op.pre s) :
    Keeps (op.step s) := by
  unfold MemSys.Ok at h
  cases op <;> rw [MemOp.step] <;> refine MemSys.call_keeps ?_
  case freerange vstart vend =>
    have hend : vend ≤ vphystop := hpre.2.2.1
    refine (freerange_spec h hpre.1 (Layout.kernbase_le_kend.trans hpre.1) hpre.2.1 hend
      fun f hf hm => ?_).of_safe ?_
    · exact Finset.disjoint_left.mp hpre.2.2.2 ((mem_rangeFrames hend).mpr hf) hm
    · intro _ k' hr
      have hiff : ∀ f, f ∈ s.man ∪ rangeFrames vstart vend ↔ f ∈ s.man ∨ InRange vstart vend f :=
        fun f => by rw [Finset.mem_union, mem_rangeFrames hend]
      simpa only [MemSys.Ok, hiff] using hr.1
  case kalloc =>
    refine (kalloc_spec h).of_safe ?_
    intro r k' hr
    cases r with
    | none => obtain ⟨-, rfl⟩ := hr; exact h.failed
    | some f => obtain ⟨rest, -, -, -, -, hinv⟩ := hr; exact hinv
  case kfree f =>
    exact (kfree_spec h hpre).of_safe (fun _ k' hr => hr.2.1)
  case setupkvm =>
    refine (setupkvm_spec h).of_safe ?_
    intro r k' hr
    cases r with
    | none => exact hr.1
    | some d => exact hr.2.2.1
  case allocuvm d oldsz newsz =>
    refine (allocuvm_spec h hpre).mono ?_ (fun _ hE => hE.1)
    rintro r k' (⟨-, -, rfl⟩ | ⟨-, -, -, rfl⟩ | ⟨-, -, -, hg⟩ | ⟨-, -, -, ha⟩)
    · exact h
    · exact h
    · exact hg.inv
    · exact ha.inv
  case deallocuvm d oldsz newsz =>
    exact (deallocuvm_spec h hpre.1 hpre.2).of_safe (fun _ k' hr => hr.2.inv)
  case vmAllocMmapPage d va prot =>
    refine (vmAllocMmapPage_spec h hpre.1 hpre.2).mono ?_ (fun _ hE => hE.1)
    rintro r k' (⟨-, hinv, -⟩ | ⟨-, hadd⟩)
    · exact hinv
    · exact hadd.inv
  case vmProtectRange d start length prot =>
    exact (vmProtectRange_spec h hpre.1 hpre.2).of_safe (fun _ k' hr => hr.2.inv)
  case vmUnmapRange d start length =>
    exact (vmUnmapRange_spec h hpre.1 hpre.2).of_safe (fun _ k' hr => hr.2.inv)
  case copyuvm d sz =>
    refine (copyuvm_spec h hpre.1 hpre.2).of_safe ?_
    intro r k' hr
    cases r with
    | none => exact hr.1.inv
    | some c => exact hr.2.inv
  case cowFault d va =>
    refine (cowFault_spec h hpre.1 hpre.2).of_safe ?_
    rintro r k' (⟨-, -, rfl⟩ | ⟨-, -, -, -, rfl⟩ | ⟨-, -, -, hres⟩)
    · exact h
    · exact h.failed
    · exact hres.inv
  case freevm d =>
    exact (freevm_spec h hpre).of_safe (fun _ k' hr => hr.1)

theorem MemSys.ok_of_reach {s : MemSys} (h : Reach MemInit MemStep s) : s.Ok := by
  refine Reach.invariant (fun s hs => ?_) (fun s s' hs hstep => ?_) h
  · obtain ⟨hfree, -, hman, hdirs, hkp⟩ := hs
    have := Inv.empty hfree
    simpa [MemSys.Ok, hman, hdirs, hkp] using this
  · obtain ⟨op, hpre, hop⟩ := hstep
    exact (op.step_ok hs hpre).1 s' hop

/-! ### The counts fit in an `int` -/

omit [Layout] in
/-- Counting through an injection into an `n` by `m` array. -/
theorem card_le_mul {ι : Type} {S : Finset ι} {loc : ι → Nat × Nat} {n m : Nat}
    (hmaps : ∀ x ∈ S, (loc x).1 < n ∧ (loc x).2 < m) (hinj : Set.InjOn loc S) :
    S.card ≤ n * m := by
  have hsub : ∀ x ∈ S, loc x ∈ Finset.range n ×ˢ Finset.range m := fun x hx =>
    Finset.mem_product.mpr
      ⟨Finset.mem_range.mpr (hmaps x hx).1, Finset.mem_range.mpr (hmaps x hx).2⟩
  simpa using Finset.card_le_card_of_injOn loc hsub hinj

/-- Each reference to a frame sits in its own word of a page table, and there are
at most `PHYSTOP / PGSIZE` of those, so no count overflows. -/
theorem Inv.refcnt_lt {man : Nat → Prop} {dirs kp : Finset Nat} {k : Kmem}
    (h : Inv man dirs kp k) {f : Nat} (hf : man f) : k.refcnt f < 2 ^ 31 := by
  by_cases hown : f ∈ owned dirs kp k
  · rw [h.ledger.count_own f hown]
    decide
  · rw [h.ledger.count_ref f hf hown]
    -- the word that holds the entry of a user page
    let loc : Nat × Nat → Nat × Nat := fun x => (pteFrame (k.mem x.1 (x.2 / 1024)), x.2 % 1024)
    have hpde : ∀ x ∈ refsTo (userSlots dirs) (userRef k) f,
        x.1 ∈ dirs ∧ x.2 / 1024 < 1024 ∧ has (k.mem x.1 (x.2 / 1024)) .p = true := by
      intro x hx
      obtain ⟨hslot, href⟩ := mem_refsTo.mp hx
      obtain ⟨hd, hv⟩ := mem_userSlots.mp hslot
      obtain ⟨hp, -⟩ := refOf_eq_some.mp href
      refine ⟨hd, by simp only [nupages, kernbase, pgsize] at hv; omega, ?_⟩
      by_contra habs
      rw [pte_of_no_loc (pteLoc_eq_none.mpr (by simpa using habs))] at hp
      exact absurd hp (by simp)
    have hmaps : ∀ x ∈ refsTo (userSlots dirs) (userRef k) f,
        (loc x).1 < 57344 ∧ (loc x).2 < 1024 := by
      intro x hx
      obtain ⟨hd, hi, hp⟩ := hpde x hx
      have htab : pteFrame (k.mem x.1 (x.2 / 1024)) ∈ tabFrames dirs k :=
        mem_tabFrames.mpr (.inr ⟨x.1, hd, mem_ptFrames.mpr ⟨_, hi, hp, rfl⟩⟩)
      have hhi := (h.man_range _ (h.owned_man (mem_owned.mpr (.inr htab)))).2
      simp only [loc, v2p, pgsize, phystop] at hhi ⊢
      omega
    have hinj : Set.InjOn loc (refsTo (userSlots dirs) (userRef k) f) := by
      intro x hx y hy he
      obtain ⟨hdx, hix, hpx⟩ := hpde x hx
      obtain ⟨hdy, hiy, hpy⟩ := hpde y hy
      simp only [loc, Prod.mk.injEq] at he
      obtain ⟨hd, hi⟩ := h.tables.pt_inj x.1 hdx _ hix hpx y.1 hdy _ hiy hpy he.1
      exact Prod.ext hd (by omega)
    exact Nat.lt_of_le_of_lt (card_le_mul hmaps hinj) (by decide)

/-! ### Exact counts -/

/-- The present user entries, over all live directories, whose address is the
frame `f`. -/
def MemSys.userPtes (s : MemSys) (f : Nat) : Finset (Nat × Nat) :=
  (s.dirs ×ˢ Finset.range nupages).filter fun x =>
    has (pte s.k x.1 x.2) .p ∧ pteAddr (pte s.k x.1 x.2) = v2p f

/-- The frames the kernel owns: directories, page tables, and its own pages. -/
def MemSys.kernelFrames (s : MemSys) : Finset Nat := s.kp ∪ tabFrames s.dirs s.k

/-- The counts and the free list say exactly who uses a frame. -/
structure MemSys.Exact (s : MemSys) : Prop where
  count : ∀ f ∈ s.man,
    s.k.refcnt f = (s.userPtes f).card + if f ∈ s.kernelFrames then 1 else 0
  free : ∀ f ∈ s.man, s.k.freelist.count f = if s.k.refcnt f = 0 then 1 else 0
  shared : ∀ f ∈ s.man, 1 < s.k.refcnt f → ∀ x ∈ s.userPtes f, has (pte s.k x.1 x.2) .w = false

omit [Layout] in
theorem pteAddr_eq_iff {w : Word} {f : Nat} : pteAddr w = v2p f ↔ pteFrame w = f := by
  rw [pteAddr_eq_v2p, v2p, v2p, pgsize]
  omega

omit [Layout] in
/-- The entries counted are the references of the ledger. -/
theorem MemSys.userPtes_eq (s : MemSys) (f : Nat) :
    s.userPtes f = refsTo (userSlots s.dirs) (userRef s.k) f := by
  ext x
  simp only [MemSys.userPtes, Finset.mem_filter, Finset.mem_product, Finset.mem_range, mem_refsTo,
    mem_userSlots, userRef, refOf_eq_some, pteAddr_eq_iff]

theorem MemSys.Ok.exact {s : MemSys} (h : s.Ok) : s.Exact := by
  have hl := h.ledger
  constructor
  · intro f hf
    rw [s.userPtes_eq]
    by_cases hown : f ∈ s.kernelFrames
    · rw [if_pos hown, hl.count_own f hown, hl.own_refs hown, Finset.card_empty]
    · rw [if_neg hown, Nat.add_zero]
      exact hl.count_ref f hf hown
  · intro f hf
    by_cases h0 : s.k.refcnt f = 0
    · rw [if_pos h0]
      exact List.count_eq_one_of_mem hl.free_nodup ((hl.free_iff f).mpr ⟨hf, h0⟩)
    · rw [if_neg h0]
      exact List.count_eq_zero_of_not_mem fun hm => h0 ((hl.free_iff f).mp hm).2
  · intro f hf hgt x hx
    rw [s.userPtes_eq] at hx
    obtain ⟨hslot, href⟩ := mem_refsTo.mp hx
    obtain ⟨hd, hv⟩ := mem_userSlots.mp hslot
    obtain ⟨hp, rfl⟩ := refOf_eq_some.mp href
    by_contra hw
    have := h.excl x.1 hd x.2 hv hp (by simpa using hw)
    omega

/-- In every reachable state the reference counts are exact, free frames are on
the free list once, shared frames are mapped read-only, and no call can run into
the panics `kfree ref`, `kref_inc` or `cow refcount`. -/
theorem refcnt_exact {s : MemSys} (h : Reach MemInit MemStep s) :
    s.Exact ∧ ∀ op : MemOp, op.pre s → op.step s ≠ .error .kfreeRef ∧
      op.step s ≠ .error .krefInc ∧ op.step s ≠ .error .cowRefcount := by
  have hok := MemSys.ok_of_reach h
  refine ⟨hok.exact, fun op hpre => ?_⟩
  have herr := (op.step_ok hok hpre).2
  exact ⟨fun he => absurd (herr _ he) (by decide), fun he => absurd (herr _ he) (by decide),
    fun he => absurd (herr _ he) (by decide)⟩

/-- The counts of `kalloc.c` are kept in an `int`, and never leave its range. -/
theorem refcnt_fits_int {s : MemSys} (h : Reach MemInit MemStep s) :
    ∀ f ∈ s.man, s.k.refcnt f < 2 ^ 31 :=
  fun _ hf => (MemSys.ok_of_reach h).refcnt_lt hf

/-- No frame is lost: each one given to the allocator is on the free list, or the kernel's, or
mapped by a user page, and all are free when no directory and no kernel page is left. -/
theorem frames_accounted {s : MemSys} (h : Reach MemInit MemStep s) :
    s.k.freelist.length + s.kernelFrames.card +
      (s.man.filter fun f => (s.userPtes f).Nonempty).card = s.man.card ∧
    (s.dirs = ∅ → s.kp = ∅ → s.k.freelist.length = s.man.card) := by
  have hl := (MemSys.ok_of_reach h).ledger
  have hex := (MemSys.ok_of_reach h).exact
  -- each frame is in one of the three places, and in one only
  have hone : ∀ f ∈ s.man, ((if s.k.refcnt f = 0 then 1 else 0) +
      if f ∈ s.kernelFrames then 1 else 0) + (if (s.userPtes f).Nonempty then 1 else 0) = 1 := by
    intro f hf
    have hcount := hex.count f hf
    have hown : f ∈ s.kernelFrames → s.k.refcnt f = 1 := hl.count_own f
    simp only [← Finset.card_pos]
    split_ifs at hcount ⊢ <;> grind
  have hfree : s.k.freelist.length = (s.man.filter fun f => s.k.refcnt f = 0).card := by
    rw [← List.toFinset_card_of_nodup hl.free_nodup]
    congr 1
    ext f
    rw [List.mem_toFinset, hl.free_iff, Finset.mem_filter]
  have hkern : s.kernelFrames.card = (s.man.filter (· ∈ s.kernelFrames)).card := by
    congr 1
    ext f
    rw [Finset.mem_filter, iff_and_self]
    exact hl.own_man f
  have hcard : s.k.freelist.length + s.kernelFrames.card +
      (s.man.filter fun f => (s.userPtes f).Nonempty).card = s.man.card := by
    rw [hfree, hkern, Finset.card_filter, Finset.card_filter, Finset.card_filter,
      ← Finset.sum_add_distrib, ← Finset.sum_add_distrib, Finset.sum_congr rfl hone,
      Finset.card_eq_sum_ones]
  refine ⟨hcard, fun hdirs hkp => ?_⟩
  rw [← hcard]
  simp [MemSys.kernelFrames, MemSys.userPtes, hdirs, hkp, tabFrames]

omit [Layout] in
theorem MemSys.call_exists {α : Type} {s : MemSys} {m : KM α} (upd : α → MemSys → MemSys)
    {Q : α → Kmem → Prop} (h : Ends m s.k Q) :
    ∃ a k, s.call m upd = .ok (upd a { s with k := k }) ∧ Q a k := by
  obtain ⟨a, k, hm, hQ⟩ := h.exists_ok
  exact ⟨a, k, by rw [MemSys.call, hm], hQ⟩

end

/-- Memory before `kinit1`, all zero. -/
def MemSys.zero : MemSys :=
  { k := { mem := fun _ _ => 0#32, refcnt := fun _ => 0, freelist := [], oom := 0 }
    man := ∅, dirs := ∅, kp := ∅ }

/-- A frame that two directories share, after `freerange`, `setupkvm`, `allocuvm` and
`copyuvm`. -/
theorem shared_reach : let _ : Layout := Layout.sample
    ∃ (s : MemSys) (d c f : Nat), d ≠ c ∧ f ∈ s.man ∧ (d, 0) ∈ s.userPtes f ∧
      (c, 0) ∈ s.userPtes f ∧ Reach MemInit MemStep s := by
  let _ : Layout := Layout.sample
  have h0 : Reach MemInit MemStep MemSys.zero := .start ⟨rfl, fun _ => rfl, rfl, rfl, rfl⟩
  have hpre : (MemOp.freerange 0x801154a8 vphystop).pre MemSys.zero :=
    ⟨le_rfl, by decide, le_rfl, Finset.disjoint_empty_right _⟩
  obtain ⟨-, k1, hc1, -, -, -, hlen1⟩ := MemSys.call_exists
    (fun _ s => { s with man := s.man ∪ rangeFrames 0x801154a8 vphystop })
    (freerange_spec (MemSys.ok_of_reach h0) (le_refl 0x801154a8) (by decide) (by decide)
      (le_refl vphystop) (by simp [MemSys.zero]))
  have h1 := h0.next ⟨_, hpre, hc1⟩
  have hmany : 50000 ≤ k1.freelist.length := by
    rw [hlen1]
    decide
  obtain ⟨r, k2, hc2, hr⟩ := MemSys.call_exists (fun r s =>
      { s with dirs := match r with
                 | some d => insert d s.dirs
                 | none => s.dirs }) (setupkvm_spec (MemSys.ok_of_reach h1))
  have h2 := h1.next ⟨.setupkvm, trivial, hc2⟩
  cases r with
  | none => exact absurd (hmany.trans hr.2.2.2.1) (by decide)
  | some d =>
    obtain ⟨-, -, hinv2, -, hnone, -, hlen2, -⟩ := hr
    change k1.freelist.length = _ at hlen2
    have hd : d ∈ insert d (∅ : Finset Nat) := Finset.mem_insert_self ..
    obtain ⟨r, k3, hc3, hr⟩ := MemSys.call_exists (m := allocuvm d 0 4096) (fun _ s => s)
      ((allocuvm_spec (MemSys.ok_of_reach h2) hd).mono
        (fun _ _ h => h) fun _ ⟨_, _, v, hv, _, _, hne⟩ => hne (hnone v hv))
    have h3 := h2.next ⟨.allocuvm d 0 4096, hd, hc3⟩
    rcases hr with ⟨hbig, -⟩ | ⟨-, hlt, -⟩ | ⟨-, -, -, hg⟩ | ⟨-, -, -, ha⟩
    · exact absurd hbig (by decide)
    · exact absurd hlt (by decide)
    swap
    · have := ha.short
      change k2.freelist.length < _ at this
      omega
    have hfree := hg.free
    change k2.freelist.length + _ ≤ _ at hfree
    obtain ⟨-, e, hup, -⟩ := hg.fresh 0 (by decide) (by decide) (by decide)
    obtain ⟨r, k4, hc4, hr⟩ := MemSys.call_exists (m := copyuvm d 4096) (fun r s =>
        { s with dirs := match r with
                   | some c => insert c s.dirs
                   | none => s.dirs })
      (copyuvm_spec (MemSys.ok_of_reach h3) hd (by decide))
    have h4 := h3.next ⟨.copyuvm d 4096, ⟨hd, by decide⟩, hc4⟩
    cases r with
    | none =>
      have hcard := residentTables_card_le (k := k3) (d := d) (a := 4096) (by decide)
      have hshort : k3.freelist.length < 65 + (residentTables k3 d 4096).card := hr.2
      omega
    | some c =>
      have hc := hr.2
      have hv0 : 0 < nupages := by decide
      have hpar := hc.parent 0 hv0
      have hchi := hc.child 0 hv0
      rw [if_pos (by decide)] at hpar hchi
      rw [show upage _ d 0 = _ from hup] at hpar hchi
      obtain ⟨hp, hpte, -⟩ := upage_eq_some.mp hpar
      obtain ⟨hp', hpte', -⟩ := upage_eq_some.mp hchi
      have hdc : d ∈ insert c (insert d (∅ : Finset Nat)) := Finset.mem_insert_of_mem hd
      refine ⟨_, d, c, pteFrame (sharedEntry e), ?_, ?_, ?_, ?_, h4⟩
      · rintro rfl
        exact hc.new hd
      · rw [← hpte]
        exact (hc.inv.user_man hdc hv0 (by rw [hpte]; exact hp)).1
      · exact Finset.mem_filter.mpr ⟨mem_userSlots.mpr ⟨hdc, hv0⟩,
          by rw [hpte]; exact hp, by rw [hpte, pteAddr_eq_v2p]⟩
      · exact Finset.mem_filter.mpr ⟨mem_userSlots.mpr ⟨Finset.mem_insert_self .., hv0⟩,
          by rw [hpte']; exact hp', by rw [hpte', pteAddr_eq_v2p]⟩

/-- Two directories share a frame, and the counts are exact. -/
theorem refcnt_exact_shared : let _ : Layout := Layout.sample
    ∃ (s : MemSys) (f : Nat), Reach MemInit MemStep s ∧ f ∈ s.man ∧ 1 < (s.userPtes f).card ∧
      s.Exact := by
  let _ : Layout := Layout.sample
  obtain ⟨s, d, c, f, hne, hf, hd, hc, h⟩ := shared_reach
  exact ⟨s, f, h, hf, Finset.one_lt_card.mpr ⟨_, hd, _, hc, by simp [hne]⟩, (refcnt_exact h).1⟩

theorem refcnt_fits_int_shared : let _ : Layout := Layout.sample
    ∃ (s : MemSys) (f : Nat), Reach MemInit MemStep s ∧ f ∈ s.man ∧ 1 < (s.userPtes f).card ∧
      s.k.refcnt f < 2 ^ 31 := by
  let _ : Layout := Layout.sample
  obtain ⟨s, d, c, f, hne, hf, hd, hc, h⟩ := shared_reach
  exact ⟨s, f, h, hf, Finset.one_lt_card.mpr ⟨_, hd, _, hc, by simp [hne]⟩,
    refcnt_fits_int h f hf⟩

theorem frames_accounted_shared : let _ : Layout := Layout.sample
    ∃ (s : MemSys) (f : Nat), Reach MemInit MemStep s ∧ f ∈ s.man ∧ 1 < (s.userPtes f).card ∧
      s.k.freelist.length + s.kernelFrames.card +
        (s.man.filter fun f => (s.userPtes f).Nonempty).card = s.man.card := by
  let _ : Layout := Layout.sample
  obtain ⟨s, d, c, f, hne, hf, hd, hc, h⟩ := shared_reach
  exact ⟨s, f, h, hf, Finset.one_lt_card.mpr ⟨_, hd, _, hc, by simp [hne]⟩, (frames_accounted h).1⟩

end Xv6
