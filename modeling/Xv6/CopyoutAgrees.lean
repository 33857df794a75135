import Xv6.Isolation
import Xv6.RegionRuns

/-!
# Xv6.CopyoutAgrees

`copyout` and user stores.

`copyout` implements the whole policy of page faults a second time, page by page. The two agree:
it returns 0 exactly if every byte could have been stored by the process itself, and what it
leaves in memory is what the stores would have left. If it returns -1, it has copied the bytes
up to the first page that a store would not have got through to.

The one place where the two could differ is a page with write permission in a region without
`PROT_WRITE`: a store goes through without a fault, and `copyout` asks the region first.
-/

namespace Xv6

section
variable [Layout] {man : Nat → Prop} {s s' : Sys} {i j : Fin nproc} {va : Word} {b : Byte}

/-! ### Loads and stores of single bytes -/

/-- A load of process `j` at `va` returns `b`, with the memory it may need. -/
def Sys.Reads (s : Sys) (j : Fin nproc) (va : Word) (b : Byte) : Prop :=
  (s.aspace j).Reaches (vpn va.toNat) false ∧ (s.aspace j).byteAt va.toNat = b

/-- A store of process `i` at `va` goes through. -/
def Sys.Completes (s : Sys) (i : Fin nproc) (va : Word) : Prop :=
  ∀ b, ∃ s', ((Call.store va b).run i).run s = .ok (.done, s')

/-- With frames enough, a store within reach goes through. -/
theorem Sys.completes_of_fed (h : SysInv man s) (hi : (s.pt.proc i).live)
    (hk : (s.pt.proc i).killed = false) (hreach : (s.aspace i).Reaches (vpn va.toNat) true)
    (hfed : Fed s.k (s.pt.proc i).pgdir (vpn va.toNat)) : s.Completes i va := by
  intro b
  have hnot : ¬ Starved (s.pt.proc i) ⟨va, true, true⟩ s.k := by
    intro hs
    cases hs with
    | demand _ _ hp hshort => exact absurd (hfed.demand hp) (Nat.not_le_of_lt hshort)
    | copy _ _ hc hrefs hnil => exact hfed.copy hc hrefs hnil
  obtain ⟨s', hrun, -⟩ := store_through _ (b := b) h hi hk hreach hnot
  exact ⟨s', hrun⟩

theorem Sys.Completes.reaches (h : SysInv man s) (hi : (s.pt.proc i).live)
    (hk : (s.pt.proc i).killed = false) (hc : s.Completes i va) :
    (s.aspace i).Reaches (vpn va.toNat) true := by
  obtain ⟨s', hrun⟩ := hc 0#8
  have hst : Stored man i va 0#8 s .done s' := (store_ends h hi hk).of_ok hrun
  cases hst with
  | done _ _ _ hreach => exact hreach

/-! ### The whole of `copyout` -/

/-- A page with write permission is in no region without `PROT_WRITE`. -/
def Aspace.WriteOk (A : Aspace) : Prop :=
  ∀ v e pg r, A.page v = some (e, pg) → A.region v = some r → has e .w = true →
    canWrite r.prot = true

omit [Layout] in
theorem Aspace.WriteOk.not_reaches {A : Aspace} {v : Nat} (h : A.WriteOk)
    (hro : A.readOnly v = true) : ¬ A.Reaches v true := by
  obtain ⟨r, hreg, hcan⟩ : ∃ r, A.region v = some r ∧ canWrite r.prot = false := by
    cases hreg : A.region v with
    | none => simp [Aspace.readOnly, hreg] at hro
    | some r => exact ⟨r, rfl, by simpa [Aspace.readOnly, hreg] using hro⟩
  unfold Aspace.Reaches
  cases hp : A.page v with
  | none =>
    rintro ⟨r', hr', hw⟩
    rw [hreg, Option.some.injEq] at hr'
    rw [← hr', hcan] at hw
    cases hw rfl
  | some x =>
    rintro ⟨-, hw⟩
    rcases hw rfl with hw | ⟨-, hro'⟩
    · rw [h v x.1 x.2 r hp hreg hw] at hcan
      cases hcan
    · rw [hro] at hro'
      cases hro'

/-- Process `i` finds the bytes from `va` on, and otherwise every process finds what it found
before. -/
structure Sys.Gets (s s' : Sys) (i : Fin nproc) (va : Word) (bytes : List Byte) : Prop where
  found : ∀ j < bytes.length, s'.Reads i (va + BitVec.ofNat 32 j) (bytes.getD j 0)
  others : ∀ q w b, (s.pt.proc q).live →
    (q = i → ∀ j < bytes.length, w ≠ va + BitVec.ofNat 32 j) → (s'.Reads q w b ↔ s.Reads q w b)

omit [Layout] in
theorem toNat_add_ofNat {n : Nat} (h : va.toNat + n < 2 ^ 32) :
    (va + BitVec.ofNat 32 n).toNat = va.toNat + n := by
  rw [BitVec.toNat_add, BitVec.toNat_ofNat, Nat.mod_eq_of_lt (show n < 2 ^ 32 by omega),
    Nat.mod_eq_of_lt h]

section
variable {k' : Kmem} {bytes : List Byte}

theorem CopiedTo.address (h : CopiedTo man (s.pt.dirs s.kpgdir) s.pt.kstacks (s.pt.proc i).pgdir
      (s.pt.proc i).sz (s.pt.proc i).vmas va.toNat bytes s.k k') {n : Nat}
    (hn : n ≤ bytes.length) : (va + BitVec.ofNat 32 n).toNat = va.toNat + n := by
  refine toNat_add_ofNat ?_
  by_cases hne : bytes = []
  · rw [hne, List.length_nil] at hn
    have := va.isLt
    omega
  · have := h.inside hne
    simp only [kernbase] at this
    omega

theorem CopiedTo.gets (h : SysInv man s) (hi : (s.pt.proc i).live)
    (hc : CopiedTo man (s.pt.dirs s.kpgdir) s.pt.kstacks (s.pt.proc i).pgdir (s.pt.proc i).sz
      (s.pt.proc i).vmas va.toNat bytes s.k k') :
    s.Gets { s with k := k' } i va bytes := by
  have hbyte := hc.written.byteAt
  have hread := hc.written.readable
  constructor
  · intro j hj
    have hto := hc.address (Nat.le_of_lt hj)
    refine ⟨?_, ?_⟩
    · rw [hto]
      refine (hread _).mpr ?_
      have hr := hc.reach j hj
      unfold Aspace.Reaches at hr ⊢
      split at hr
      · exact ⟨hr.1, fun hf => by cases hf⟩
      · obtain ⟨r, hreg, -⟩ := hr
        exact ⟨r, hreg, fun hf => by cases hf⟩
    · rw [hto]
      exact (congrFun hbyte _).trans (overwrite_of_lt hj)
  · intro q w b hq hout
    by_cases hqi : q = i
    · subst hqi
      unfold Sys.Reads
      have hsame : (Sys.aspace { s with k := k' } q).byteAt w.toNat =
          (s.aspace q).byteAt w.toNat := by
        refine (congrFun hbyte _).trans (overwrite_of_not ?_)
        rintro ⟨hlo, hhi⟩
        refine hout rfl (w.toNat - va.toNat) (by omega) ?_
        apply BitVec.eq_of_toNat_eq
        rw [hc.address (by omega)]
        omega
      rw [hsame]
      exact and_congr_left fun _ => hread _
    · have hne : (s.pt.proc q).pgdir ≠ (s.pt.proc i).pgdir := fun he =>
        hqi (h.pt.dir_inj q i hq hi he)
      have hA : Sys.aspace { s with k := k' } q = s.aspace q := by
        show aspace k' (s.pt.proc q) = aspace s.k (s.pt.proc q)
        rw [aspace, aspace, hc.touched.toLocal.others _ hq.dir hne]
      rw [Sys.Reads, Sys.Reads, hA]

theorem CopiedTo.completes (h : SysInv man s) (hi : (s.pt.proc i).live)
    (hk : (s.pt.proc i).killed = false)
    (hc : CopiedTo man (s.pt.dirs s.kpgdir) s.pt.kstacks (s.pt.proc i).pgdir (s.pt.proc i).sz
      (s.pt.proc i).vmas va.toNat bytes s.k k') {n : Nat} (hn : n < bytes.length) :
    s.Completes i (va + BitVec.ofNat 32 n) := by
  have hto := hc.address (Nat.le_of_lt hn)
  refine Sys.completes_of_fed h hi hk ?_ ?_
  · rw [hto]
    exact hc.reach n hn
  · rw [hto]
    exact hc.fed n hn

end

/-- `copyout` by a process to its own page directory, unless an allocation fails: it returns 0
exactly if a store to every byte would go through, and then the bytes are there and all else
reads as before. Otherwise the bytes on the pages before the first one that refuses a store
are there. -/
theorem copyout_agrees_with_stores (h : SysInv man s) (hi : (s.pt.proc i).live)
    (hk : (s.pt.proc i).killed = false) (hw : (s.aspace i).WriteOk) (va : Word)
    (src : List Byte) :
    Ends (copyout (some (s.pt.proc i)) (s.pt.proc i).pgdir va.toNat src) s.k
      (fun r k' => k'.oom = s.k.oom →
        (r = 0 ↔ ∀ n < src.length, s.Completes i (va + BitVec.ofNat 32 n)) ∧
        (r = 0 → s.Gets { s with k := k' } i va src) ∧
        (r ≠ 0 → r = -1 ∧ ∃ n < src.length, (n = 0 ∨ (va.toNat + n) % 4096 = 0) ∧
          (∀ m < n, s.Completes i (va + BitVec.ofNat 32 m)) ∧
          ¬ s.Completes i (va + BitVec.ofNat 32 n) ∧
          s.Gets { s with k := k' } i va (src.take n))) := by
  refine (copyout_spec h.mem hi.dir (h.pt.vmas i hi) va.isLt).imp ?_
  intro r k' hout hoom
  cases hout with
  | done hc =>
    have hall : ∀ n < src.length, s.Completes i (va + BitVec.ofNat 32 n) :=
      fun n hn => hc.completes h hi hk hn
    exact ⟨⟨fun _ => hall, fun _ => rfl⟩, fun _ => hc.gets h hi, fun hne => absurd rfl hne⟩
  | starved _ _ hlt => exact absurd hoom (Nat.ne_of_gt hlt)
  | @refused _ n hlt hc _ hstart hno =>
    have hlen : (src.take n).length = n := by
      rw [List.length_take]
      omega
    have hto := hc.address hlen.ge
    have hrefuse : ¬ s.Completes i (va + BitVec.ofNat 32 n) := by
      intro hcomp
      have hreach := hcomp.reaches h hi hk
      rw [hto] at hreach
      exact hno.elim (fun hro => hw.not_reaches hro hreach) fun hr => hr hreach
    refine ⟨⟨fun hr => absurd hr (by decide), fun hall => absurd (hall n hlt) hrefuse⟩,
      fun hr => absurd hr (by decide), fun _ => ⟨rfl, n, hlt, hstart, fun m hm => ?_, hrefuse,
        hc.gets h hi⟩⟩
    exact hc.completes h hi hk (by omega)

end

theorem Aspace.Good.writeOk {A : Aspace} (h : A.Good) : A.WriteOk := by
  intro v e pg r hp hreg hwr
  obtain ⟨j, rfl, hu, hv⟩ := regionOf_eq_some hreg
  exact (h.flags v e pg j hp hu hv).2.1 hwr

/-- After one `mmap`, with one byte to copy. -/
theorem copyout_agrees_with_stores_mmap : let _ : Layout := Layout.sample
    ∃ man s, SysInv man s ∧ (s.pt.proc initSlot).live ∧ (s.pt.proc initSlot).killed = false ∧
      (s.aspace initSlot).WriteOk ∧
      Ends (copyout (some (s.pt.proc initSlot)) (s.pt.proc initSlot).pgdir 4096 [7#8]) s.k
        (fun r k' => k'.oom = s.k.oom →
          (r = 0 ↔ ∀ n < 1, s.Completes initSlot (4096#32 + BitVec.ofNat 32 n)) ∧
          (r = 0 → s.Gets { s with k := k' } initSlot 4096#32 [7#8])) := by
  let _ : Layout := Layout.sample
  obtain ⟨man, _, s, _, -, -, h, hruns⟩ := sample_maps
  have hr : Runs KeepsRegions s := hruns (.of_ne (by simp))
  have hw := (hr.good h.alive.live).writeOk
  refine ⟨man, s, h.inv, h.alive.live, h.unkilled, hw, ?_⟩
  exact (copyout_agrees_with_stores h.inv h.alive.live h.unkilled hw 4096#32 [7#8]).imp
    fun _ _ hQ hoom => ⟨(hQ hoom).1, (hQ hoom).2.1⟩

/-- `kill` of the child after the first `fork`. -/
theorem Booted.killed [Layout] {s : Sys} (hb : Booted s) :
    ∃ man j s', Runs KeepsRegions s' ∧ SysInv man s' ∧ Alive s' j ∧
      (s'.pt.proc j).killed = true ∧ 2 ≤ s'.k.freelist.length ∧ (s'.aspace j).Reaches 0 true ∧
      ¬ s'.Allowed j 0#32 true := by
  obtain ⟨man, j, s1, hj, hrun1, h1, -, hfree, hpages, hpid⟩ := hb.fork
  have hkill : s1.pt.kill 2 = (0, s1.pt.set j { s1.pt.proc j with killed := true }) := by
    have hstate := h1.state (.inr (Eq.refl j))
    rw [Ptable.kill]
    cases hf : s1.pt.find fun p => p.pid = 2 with
    | none => exact absurd ((hpid j).mpr rfl) (by simpa using Ptable.find_eq_none.mp hf j)
    | some i =>
      obtain rfl := (hpid i).mp (by simpa using Ptable.find_eq_some hf)
      dsimp only
      rw [hstate, if_neg (by decide)]
  have hends : Ends ((Call.kill 2#32).run initSlot) s1 (fun _ s' =>
      (s'.pt.proc initSlot).killed = false ∧ s' = { s1 with pt := (s1.pt.kill 2).2 }) := by
    refine syscall_alive (h1.unkilled (.inl rfl)) ((ends_map ..).mpr ?_)
    rw [kill, ends_bind, ends_get, ends_bind, ends_modifyPt]
    refine .ret ⟨?_, rfl⟩
    show ((s1.pt.kill 2).2.proc initSlot).killed = false
    rw [hkill, Ptable.set_proc_of_ne _ _ hj.symm]
    exact h1.unkilled (.inl rfl)
  obtain ⟨out, s2, hrun2, -, hs2⟩ := hends.exists_ok
  have hproc : s2.pt.proc j = { s1.pt.proc j with killed := true } := by
    rw [hs2, hkill]
    exact Ptable.set_proc_self ..
  have hmem : s2.k = s1.k := by rw [hs2]
  have hspace : s2.aspace j = s1.aspace j := by rw [Sys.aspace, hproc, hmem]; rfl
  obtain ⟨e, hpage, hw⟩ := hpages j (.inr rfl)
  refine ⟨man, j, s2, ?_, ((run_spec _ h1.inv (h1.alive (.inl rfl))).of_ok hrun2).1, .inl ?_,
    by rw [hproc], by rw [hmem]; omega, hspace ▸ h1.reaches (.inr rfl), fun hok => ?_⟩
  · exact Runs.call (Runs.call (.start hb) hb.ok.choose_spec.alive (.of_ne (by simp)) hrun1)
      (h1.alive (.inl rfl)) (.of_ne (by simp)) hrun2
  · rw [hproc]
    exact h1.state (.inr rfl)
  · rw [← hspace] at hpage
    have hpte := (Sys.pte_eq (by decide) hpage).2
    rw [Sys.Allowed, show vpn (0#32 : Word).toNat = 0 from rfl, hpte] at hok
    simp [allows, hw] at hok

/-- The child gets a byte from `copyout` that it could not have stored. -/
theorem copyout_passes_killed : let _ : Layout := Layout.sample
    ∃ s i k', Runs KeepsRegions s ∧ Alive s i ∧ (s.aspace i).WellFormed ∧
      (s.aspace i).WriteOk ∧
      (copyout (some (s.pt.proc i)) (s.pt.proc i).pgdir 0 [7#8]).run s.k = .ok (0, k') ∧
      k'.oom = s.k.oom ∧ ¬ s.Completes i 0#32 := by
  let _ : Layout := Layout.sample
  obtain ⟨s0, hb⟩ := sample_boots
  obtain ⟨man, j, s, hr, hinv, halive, hk, hfree, hreach, hno⟩ := hb.killed
  have hgood := hr.good halive.live
  have hends : Ends (copyout (some (s.pt.proc j)) (s.pt.proc j).pgdir 0 [7#8]) s.k
      (fun r k' => r = 0 ∧ k'.oom = s.k.oom) := by
    refine (copyout_spec hinv.mem halive.live.dir (hinv.pt.vmas j halive.live)
      (by decide)).imp fun r k' hc => ?_
    cases hc with
    | done _ hoom => exact ⟨rfl, hoom⟩
    | @refused _ n hlt _ _ _ hno =>
      obtain rfl : n = 0 := Nat.lt_one_iff.mp hlt
      exact (hno.elim (fun hro => hgood.writeOk.not_reaches hro hreach) fun h => h hreach).elim
    | @starved _ n hlt _ _ hfed =>
      obtain rfl : n = 0 := Nat.lt_one_iff.mp hlt
      exact absurd (.of_two_le hfree ..) (hfed rfl)
  obtain ⟨_, k', hrun, rfl, hoom⟩ := hends.exists_ok
  refine ⟨s, j, k', hr, halive, hgood.wellFormed, hgood.writeOk, hrun, hoom, fun hc => ?_⟩
  obtain ⟨s', hdone⟩ := hc 0#8
  exact nomatch (store_killed hinv halive.live hk hno).of_ok hdone

end Xv6
