import Xv6.Regions
import Xv6.UserAccess

/-!
# Xv6.RegionRuns

The invariants of `Xv6.Regions` along runs, and the runs that break them.

In every run whose negative `sbrk`s stay above the regions, every table of regions
is well-formed and the panic `remap` is out of reach. Without the condition, two
calls are enough to leave a region beyond `sz`, and two more to stop the machine:
the page of the region is faulted in, and the heap grows over it.
-/

namespace Xv6

open Function (update)

/-- The calls that manage a process's own memory, and its loads and stores. -/
def Call.isVm : Call → Bool
  | .mmap _ => true
  | .munmap _ _ => true
  | .mprotect _ _ _ => true
  | .sbrk _ => true
  | .fork => true
  | .load _ => true
  | .store _ _ => true
  | _ => false

/-- The invariants of an address space, together. -/
structure Aspace.Good (A : Aspace) : Prop where
  wellFormed : A.WellFormed
  below : A.Below
  flags : A.FlagsOk

theorem Aspace.Good.change {A A' : Aspace} {c : Call} (h : A.Good) (hc : KeepsRegions c A)
    (hch : Change A c A') : A'.Good :=
  ⟨h.wellFormed.change hc hch, h.below.change h.wellFormed hc hch,
    h.flags.change h.wellFormed h.below hch⟩

theorem Aspace.Good.fork {A : Aspace} (h : A.Good) : A.fork.Good :=
  ⟨h.wellFormed.fork, .fork h.wellFormed, h.flags.fork⟩

section
variable [Layout] {man : Nat → Prop} {s s' : Sys} {i : Fin nproc}

theorem Runs.good (h : Runs KeepsRegions s) (hi : (s.pt.proc i).live) : (s.aspace i).Good :=
  h.aspace_invariant (fun _ hA => ⟨hA.wellFormed, hA.below, hA.flagsOk⟩)
    (fun _ _ _ _ hA hc hch => hA.change hc hch) (fun _ _ hA => hA.fork) hi

/-! ### Well-formed tables -/

/-- In every run whose negative `sbrk`s keep `sz` above the regions, every process
has a well-formed table of regions. -/
theorem regions_wellFormed (h : Runs KeepsRegions s) (hi : (s.pt.proc i).live) :
    (s.aspace i).WellFormed :=
  (h.good hi).wellFormed

end

theorem KeepsRegions.of_ne {c : Call} {A : Aspace} (h : ∀ n, c ≠ .sbrk n) : KeepsRegions c A :=
  fun n hc => absurd hc (h n)

theorem regions_wellFormed_mmap : let _ : Layout := Layout.sample
    ∃ s, Runs KeepsRegions s ∧ (s.pt.proc initSlot).live ∧ (s.aspace initSlot).WellFormed := by
  let _ : Layout := Layout.sample
  obtain ⟨man, _, s1, _, -, -, h1, hruns⟩ := sample_maps
  have hr : Runs KeepsRegions s1 := hruns (.of_ne (by simp))
  exact ⟨s1, hr, h1.alive.live, regions_wellFormed hr h1.alive.live⟩

/-- Two calls leave a region beyond `sz`: the first process maps a page and gives
back as much with `sbrk`. -/
theorem sbrk_leaves_region : let _ : Layout := Layout.sample
    ∃ s0 s1 s2 out1 out2, Booted s0 ∧
      ((Call.mmap 4096#32).run initSlot).run s0 = .ok (out1, s1) ∧
      ((Call.sbrk (-4096#32)).run initSlot).run s1 = .ok (out2, s2) ∧
      Runs (fun c _ => c.isVm = true) s2 ∧ (s2.pt.proc initSlot).live ∧
      ¬ (s2.aspace initSlot).WellFormed := by
  let _ : Layout := Layout.sample
  obtain ⟨man, s0, s1, out1, hb, hrun1, h1, hruns⟩ := sample_maps
  obtain ⟨out2, s2, hrun2, h2⟩ := h1.sbrk
  have hr1 : Runs (fun c _ => c.isVm = true) s1 := hruns rfl
  refine ⟨s0, s1, s2, out1, out2, hb, hrun1, hrun2, hr1.call h1.alive rfl hrun2,
    h2.alive.live, fun hwf => ?_⟩
  have hvma : (s2.aspace initSlot).vmas firstVma = ⟨4096, 4096, protRead ||| protWrite, true⟩ := by
    show (s2.pt.proc initSlot).vmas firstVma = _
    rw [h2.vmas, oneVma_first]
  have hin := hwf.inside firstVma (by rw [hvma])
  rw [hvma, show (s2.aspace initSlot).sz = 4096 from h2.sz] at hin
  exact absurd hin (by decide)

/-! ### The panic `remap` -/

section
variable [Layout] {man : Nat → Prop} {s s' : Sys} {i : Fin nproc} {prot : Word}

/-- In every run whose negative `sbrk`s keep `sz` above the regions, every page
present lies below `sz`, rounded up, and no call ends in the panic `remap`. -/
theorem no_remap (h : Runs KeepsRegions s) :
    (∀ i, (s.pt.proc i).live → (s.aspace i).Below) ∧
      ∀ i (c : Call), Alive s i → (c.run i).run s ≠ .error .remap := by
  refine ⟨fun i hi => (h.good hi).below, fun i c hi hrun => ?_⟩
  obtain ⟨man, hinv⟩ := h.inv
  have hhalt := (run_spec c hinv hi).of_error hrun
  cases hhalt with
  | @remap n v hn hlo hhi hv =>
    have hgood := h.good hi.live
    have hlt := hgood.below v hv
    have hsz := hgood.wellFormed.sz_le
    rw [pgroundup_eq (by simp only [kernbase] at hsz; omega)] at hlt
    omega

/-- The page of the first region is resident, beyond `sz`. -/
structure Stranded (man : Nat → Prop) (s : Sys) : Prop extends Ready man s where
  sz : (s.pt.proc initSlot).sz = 4096
  present : (s.aspace initSlot).page 1 ≠ none
  free : s.k.freelist ≠ []

/-- A load brings the page of the region in, whether or not it is below `sz`. -/
theorem OneRegion.load (h : OneRegion man 4096 prot s) :
    ∃ out s', ((Call.load 4096#32).run initSlot).run s = .ok (out, s') ∧ Stranded man s' := by
  have hv : vpn (4096#32 : Word).toNat = 1 := by decide
  have hfree := h.free
  obtain ⟨b, s', hrun, hl⟩ := load_through 4096#32 h.inv h.alive.live h.unkilled
    (by rw [hv]; exact h.reaches nofun) fun hs => absurd hs.short.1 (by omega)
  refine ⟨_, s', hrun, ?_⟩
  cases hl with
  | done hT hoom hfree' _ hf =>
    rw [hv] at hf
    obtain ⟨e, he⟩ := hf.page
    refine ⟨⟨hT.inv, h.state, h.unkilled⟩, h.sz, by rw [he]; simp, fun hnil => ?_⟩
    rw [hnil] at hfree'
    exact absurd (hfree.trans hfree'.1) (by simp)

/-- Growing the heap over it stops the machine. -/
theorem Stranded.sbrk (h : Stranded man s) :
    ((Call.sbrk 4096#32).run initSlot).run s = .error .remap := by
  have hpage : upage s.k (s.pt.proc initSlot).pgdir (vpn 4096) ≠ none := by
    have hp : upages s.k (s.pt.proc initSlot).pgdir 1 ≠ none := h.present
    rwa [upages_of_lt (by decide)] at hp
  have hends : Ends ((Call.sbrk 4096#32).run initSlot) s (fun _ _ => False)
      (fun e => e = .remap) := by
    refine (syscall_alive (Q := fun _ _ => False) h.unkilled ((ends_map ..).mpr ?_)).imp
      (fun _ _ hQ => hQ.2)
    rw [ends_onProc, sysSbrk, growproc, if_pos (by decide), h.sz, ends_bind]
    refine (allocuvm_remap h.inv.mem h.alive.live.dir (by decide) (by decide) (by decide)
      hpage h.free).bind (fun _ _ hF => hF.elim)
  obtain ⟨e, hrun, rfl⟩ := hends.exists_error
  exact hrun

end

theorem no_remap_mmap : let _ : Layout := Layout.sample
    ∃ s, Runs KeepsRegions s ∧ (s.aspace initSlot).Below ∧
      ((Call.sbrk 4096#32).run initSlot).run s ≠ .error .remap := by
  let _ : Layout := Layout.sample
  obtain ⟨man, _, s1, _, -, -, h1, hruns⟩ := sample_maps
  have hr : Runs KeepsRegions s1 := hruns (.of_ne (by simp))
  exact ⟨s1, hr, (no_remap hr).1 _ h1.alive.live, (no_remap hr).2 _ _ h1.alive⟩

/-- Four calls of the first process stop the machine: it maps a page, gives back
as much with `sbrk`, reads the page, and grows its heap. -/
theorem sbrk_remaps : let _ : Layout := Layout.sample
    ∃ s0 s1 s2 s3 out1 out2 out3, Booted s0 ∧
      ((Call.mmap 4096#32).run initSlot).run s0 = .ok (out1, s1) ∧
      ((Call.sbrk (-4096#32)).run initSlot).run s1 = .ok (out2, s2) ∧
      ((Call.load 4096#32).run initSlot).run s2 = .ok (out3, s3) ∧
      Runs (fun c _ => c.isVm = true) s3 ∧ Alive s3 initSlot ∧ ¬ (s3.aspace initSlot).Below ∧
      ((Call.sbrk 4096#32).run initSlot).run s3 = .error .remap := by
  let _ : Layout := Layout.sample
  obtain ⟨man, s0, s1, out1, hb, hrun1, h1, hruns⟩ := sample_maps
  obtain ⟨out2, s2, hrun2, h2⟩ := h1.sbrk
  obtain ⟨out3, s3, hrun3, h3⟩ := h2.load
  have hr1 : Runs (fun c _ => c.isVm = true) s1 := hruns rfl
  refine ⟨s0, s1, s2, s3, out1, out2, out3, hb, hrun1, hrun2, hrun3,
    (hr1.call h1.alive rfl hrun2).call h2.alive rfl hrun3, h3.alive, fun hbelow => ?_,
    h3.sbrk⟩
  have hlt := hbelow 1 h3.present
  rw [show (s3.aspace initSlot).sz = 4096 from h3.sz] at hlt
  exact absurd hlt (by decide)

/-! ### Protection -/

/-- Any call but `sbrk` with a negative argument. -/
def NoShrink (c : Call) (_ : Aspace) : Prop := ∀ n, c = .sbrk n → 0 ≤ n.toInt

theorem NoShrink.keepsRegions {c : Call} {A : Aspace} (h : NoShrink c A) : KeepsRegions c A := by
  intro n hc hn
  have := h n hc
  omega

/-- A region decides whether its pages can be written to. -/
theorem Aspace.Good.reaches_iff {A : Aspace} {v : Nat} {j : Fin maxVmas} (h : A.Good)
    (hj : (A.vmas j).used = true) (hv : (A.vmas j).holds v) :
    A.Reaches v true ↔ canWrite (A.vmas j).prot = true := by
  have hreg : A.region v = some (A.vmas j) := h.wellFormed.region_eq hj hv
  unfold Aspace.Reaches
  cases hp : A.page v with
  | none => simp [hreg]
  | some x =>
    obtain ⟨e, pg⟩ := x
    obtain ⟨hu, hw, hcow⟩ := h.flags v e pg j hp hj hv
    simp only [hu, true_and, forall_const, Aspace.readOnly, hreg, Option.any_some]
    constructor
    · rintro (hwe | ⟨-, hro⟩)
      · exact hw hwe
      · simpa using hro
    · intro hcan
      rcases hcow hcan with hwe | hce
      · exact .inl hwe
      · exact .inr ⟨hce, by simp [hcan]⟩

section
variable [Layout] {s : Sys} {i : Fin nproc} {j : Fin maxVmas}

/-- In every run without a negative `sbrk`, a page in a region is writable only if
the region is, and is writable or copy-on-write if the region is. A user store to
the region goes through if the region is writable and kills the process if it is
not, unless an allocation fails. -/
theorem protection_exact (h : Runs NoShrink s) (hi : (s.pt.proc i).live)
    (hj : ((s.aspace i).vmas j).used = true) :
    (∀ v e pg, ((s.aspace i).vmas j).holds v → (s.aspace i).page v = some (e, pg) →
      (has e .w = true → canWrite ((s.aspace i).vmas j).prot = true) ∧
      (canWrite ((s.aspace i).vmas j).prot = true → has e .w = true ∨ has e .cow = true)) ∧
    ∀ va b, ((s.aspace i).vmas j).holds (vpn va.toNat) → (s.pt.proc i).killed = false →
      Ends ((Call.store va b).run i) s
        (fun out s' => s'.k.oom = s.k.oom →
          (out = .killed ↔ canWrite ((s.aspace i).vmas j).prot = false) ∧
          (out = .done ↔ canWrite ((s.aspace i).vmas j).prot = true))
        (fun e => e = .initExiting ∧
          (canWrite ((s.aspace i).vmas j).prot = false ∨ s.k.freelist.length < 2)) := by
  have hgood := (h.mono fun _ _ hc => hc.keepsRegions).good hi
  obtain ⟨man, hinv⟩ := h.inv
  refine ⟨fun v e pg hv hp => (hgood.flags v e pg j hp hj hv).2, fun va b hv hk => ?_⟩
  have hreach := hgood.reaches_iff hj hv
  refine (store_ends hinv hi hk).mono ?_ ?_
  · intro out s' hst hoom
    cases hst with
    | done _ _ _ hr =>
      have hcan := hreach.mp hr
      simp [hcan]
    | killed hacc =>
      cases hacc with
      | killed _ hwhy =>
        rcases hwhy with ⟨-, hno⟩ | ⟨hlt, -⟩
        · have hcan : canWrite ((s.aspace i).vmas j).prot = false := by
            rw [hreach] at hno
            simpa using hno
          simp [hcan]
        · exact absurd hoom (Nat.ne_of_gt hlt)
  · rintro e ⟨he, hwhy⟩
    refine ⟨he, hwhy.imp (fun hno => ?_) fun hs => hs.short.1⟩
    rw [hreach] at hno
    simpa using hno

end

theorem protection_exact_mmap : let _ : Layout := Layout.sample
    ∃ s, Runs NoShrink s ∧ Alive s initSlot ∧
      ((s.aspace initSlot).vmas firstVma).used = true ∧ (s.pt.proc initSlot).killed = false ∧
      Ends ((Call.store 4096#32 7#8).run initSlot) s
        (fun out s' => s'.k.oom = s.k.oom →
          (out = .killed ↔ canWrite ((s.aspace initSlot).vmas firstVma).prot = false) ∧
          (out = .done ↔ canWrite ((s.aspace initSlot).vmas firstVma).prot = true))
        (fun e => e = .initExiting ∧
          (canWrite ((s.aspace initSlot).vmas firstVma).prot = false ∨
            s.k.freelist.length < 2)) := by
  let _ : Layout := Layout.sample
  obtain ⟨man, _, s1, _, -, -, h1, hruns⟩ := sample_maps
  have hr : Runs NoShrink s1 := hruns fun n hc => absurd hc (by simp)
  have hvma : (s1.aspace initSlot).vmas firstVma = ⟨4096, 4096, protRead ||| protWrite, true⟩ := by
    show (s1.pt.proc initSlot).vmas firstVma = _
    rw [h1.vmas, oneVma_first]
  have hused : ((s1.aspace initSlot).vmas firstVma).used = true := by rw [hvma]
  refine ⟨s1, hr, h1.alive, hused, h1.unkilled,
    (protection_exact hr h1.alive.live hused).2 4096#32 7#8 ?_ h1.unkilled⟩
  rw [hvma]
  exact ⟨by decide, by decide⟩

end Xv6
