import Xv6.Boot

/-!
# Xv6.Sbrk

`growproc` as a transaction: it moves the size of a process by exactly `n` bytes, or
it fails and leaves every mapping alone.

Growing undoes what it has mapped when memory runs out, so it is one, as long as
nothing is mapped beyond `sz`. Shrinking is one only while something is left of the
process: `deallocuvm` returns the new size, `growproc` takes a size of zero for the
error value, and a target below zero wraps around to a size above the old one, which
`deallocuvm` answers with the old size. `growproc_atomic_iff` says that there is no
other exception.
-/

namespace Xv6

/-! ### The transaction -/

/-- Page `v` is covered by one of the sizes `a ≤ b` and not by the other. -/
def Between (a b v : Nat) : Prop := a ≤ v * pgsize ∧ v * pgsize < b

/-- From `k` to `k'` the size of `p` becomes `newsz`: the pages newly covered are zeroed,
those no longer covered are gone, and every other page of every process is as before. -/
structure Resized (dirs : Finset Nat) (p : Proc) (newsz : Nat) (k k' : Kmem) : Prop where
  grown : ∀ v, Between p.sz newsz v → FreshPage true (upages k' p.pgdir v)
  shrunk : ∀ v, Between newsz p.sz v → upages k' p.pgdir v = none
  same : ∀ d ∈ dirs, ∀ v, ¬ (d = p.pgdir ∧ (Between p.sz newsz v ∨ Between newsz p.sz v)) →
    upages k' d v = upages k d v

/-- How `growproc(n)` may return: 0 with the size moved by `n`, or -1 with nothing
changed. -/
def Atomically (dirs : Finset Nat) (n : Word) (p : Proc) (k : Kmem) (r : Int × Proc)
    (k' : Kmem) : Prop :=
  (∃ newsz : Nat, newsz = p.sz + n.toInt ∧ r = (0, { p with sz := newsz }) ∧
    Resized dirs p newsz k k') ∨
  (r = (-1, p) ∧ ∀ d ∈ dirs, upages k' d = upages k d)

/-- Nothing is mapped where the process would grow, and it would not shrink to
nothing or further. -/
def Movable (k : Kmem) (p : Proc) (n : Word) : Prop :=
  (0 < n.toInt → p.sz + n.toNat < kernbase →
    ∀ v, Between p.sz (p.sz + n.toNat) v → upages k p.pgdir v = none) ∧
  (n.toInt < 0 → p.sz = 0 ∨ 0 < p.sz + n.toInt)

section
variable [Layout] {man : Nat → Prop} {dirs kp : Finset Nat} {k k' : Kmem} {p : Proc} {n : Word}

theorem Resized.grow (hfit : p.sz + n.toNat < kernbase)
    (hg : Grown man dirs kp p.pgdir p.sz (p.sz + n.toNat) k k') :
    Resized dirs p (p.sz + n.toNat) k k' where
  grown := fun v hv => (hg.upages_fresh hfit hv.1 hv.2).2
  shrunk := fun v hv => by
    have : p.sz + n.toNat < p.sz := lt_of_le_of_lt hv.1 hv.2
    omega
  same := fun d hd v hv => by
    exact upages_at fun hlt => hg.same d hd v hlt fun hc => hv ⟨hc.1, .inl hc.2⟩

theorem Resized.shrink {newsz : Nat} (hle : newsz ≤ p.sz)
    (hun : Unmapped man dirs kp p.pgdir (fun v => newsz ≤ v * 4096 ∧ v * 4096 < p.sz) k k') :
    Resized dirs p newsz k k' where
  grown := fun v hv => by
    have : p.sz < newsz := lt_of_le_of_lt hv.1 hv.2
    omega
  shrunk := fun v hv => by
    by_cases hlt : v < nupages
    · rw [upages_of_lt hlt]
      exact hun.gone v hlt hv
    · exact upages_of_ge (by omega)
  same := fun d hd v hv => by
    exact upages_at fun hlt => hun.same d hd v hlt fun hc => hv ⟨hc.1, .inr hc.2⟩

section
variable (h : Inv man dirs kp k) (hd : p.pgdir ∈ dirs) (hp : VmasOk p.sz p.vmas)
include h hd hp

theorem growproc_atomic (hmov : Movable k p n) :
    Ends (growproc n p) k (fun r k' => Atomically dirs n p k r k') := by
  rcases lt_trichotomy n.toInt 0 with hn | hn | hn
  · refine (growproc_neg h hd hp hn).imp ?_
    rintro r k' (⟨hneg, rfl, -, hsame⟩ | ⟨newsz, hnew, rfl, hun⟩)
    · -- Below zero only a process of size zero is left alone.
      have h0 : p.sz = 0 := (hmov.2 hn).resolve_right (by omega)
      rw [if_pos h0]
      exact .inr ⟨rfl, hsame.1⟩
    · by_cases h0 : newsz = 0
      · have hpos : p.sz ≠ 0 ∧ ¬ 0 < p.sz + n.toInt := by omega
        exact absurd (hmov.2 hn) (not_or.mpr hpos)
      · rw [if_neg h0]
        exact .inl ⟨newsz, hnew, rfl, .shrink (by omega) hun⟩
  · rw [growproc, if_neg (by omega), if_neg (by omega)]
    refine .ret (.inl ⟨p.sz, by omega, rfl, ⟨fun v hv => ?_, fun v hv => ?_, fun _ _ _ _ => rfl⟩⟩)
    all_goals exact absurd (lt_of_le_of_lt hv.1 hv.2) (lt_irrefl _)
  · refine (growproc_pos h hd hp hn).mono ?_ ?_
    · rintro r k' (⟨-, rfl, rfl⟩ | ⟨hfit, rfl, hg⟩ | ⟨hfit, rfl, hab⟩)
      · exact .inr ⟨rfl, fun _ _ => rfl⟩
      · exact .inl ⟨_, by rw [toInt_of_pos hn, Nat.cast_add], rfl, .grow hfit hg⟩
      · -- What is undone was absent before.
        refine .inr ⟨rfl, fun d hd' => funext fun v => ?_⟩
        by_cases hv : d = p.pgdir ∧ Between p.sz (p.sz + n.toNat) v
        · rw [hv.1, hab.upages_eq hd, hmov.1 hn hfit v hv.2]
          exact if_pos hv.2
        · exact upages_at fun hlt => hab.same d hd' v hlt hv
    · rintro e ⟨-, hfit, v, hlo, hhi, hne⟩
      exact hne (hmov.1 hn hfit v ⟨hlo, hhi⟩)

/-- A call that grows over a mapped page does not return as it should: it panics, or
it runs out of memory before and unmaps the page. -/
theorem not_atomic_grow {v : Nat} (hn : 0 < n.toInt) (hfit : p.sz + n.toNat < kernbase)
    (hv : Between p.sz (p.sz + n.toNat) v) (hpage : upages k p.pgdir v ≠ none) :
    ¬ Ends (growproc n p) k (fun r k' => Atomically dirs n p k r k') := by
  intro hat
  obtain ⟨r, k', -, hspec, hr⟩ := (((growproc_pos h hd hp hn).and hat).mono (fun _ _ hQ => hQ)
    (fun _ hE => hE.2)).exists_ok
  rcases hspec with ⟨hbig, -⟩ | ⟨-, -, hg⟩ | ⟨-, rfl, hab⟩
  · omega
  · exact hpage (hg.upages_fresh hfit hv.1 hv.2).1
  · rcases hr with ⟨_, -, hr, -⟩ | ⟨-, hsame⟩
    · exact absurd hr (by simp)
    · rw [← hsame _ hd, hab.upages_eq hd] at hpage
      exact hpage (if_pos hv)

/-- A call that leaves nothing of a process with pages does not either: at size zero
the pages are gone and -1 is returned, below zero the size stays and 0 is returned. -/
theorem not_atomic_shrink (hmapped : ∀ v, v * pgsize < p.sz → upages k p.pgdir v ≠ none)
    (hn : n.toInt < 0) (hsz : p.sz ≠ 0) (hle : p.sz + n.toInt ≤ 0) :
    ¬ Ends (growproc n p) k (fun r k' => Atomically dirs n p k r k') := by
  intro hat
  obtain ⟨r, k', -, hspec, hr⟩ := (((growproc_neg h hd hp hn).and hat).mono (fun _ _ hQ => hQ)
    (fun _ hE => hE.2)).exists_ok
  rcases hspec with ⟨hneg, rfl, -, -⟩ | ⟨newsz, hnew, rfl, hun⟩
  · rw [if_neg hsz] at hr
    rcases hr with ⟨newsz, hnew, -, -⟩ | ⟨hr, -⟩
    · omega
    · exact absurd hr (by simp)
  · have h0 : newsz = 0 := by omega
    rw [if_pos h0] at hr
    rcases hr with ⟨_, -, hr, -⟩ | ⟨-, hsame⟩
    · exact absurd hr (by simp)
    · refine hmapped 0 (by omega) ?_
      rw [← hsame _ hd, hun.upages_eq hd]
      exact if_pos (show newsz ≤ 0 * 4096 ∧ 0 * 4096 < p.sz by omega)

end

/-- `growproc` is all or nothing exactly if it neither grows over a mapped page nor
shrinks a process with pages to nothing. -/
theorem growproc_atomic_iff (h : Inv man dirs kp k) (hd : p.pgdir ∈ dirs)
    (hp : VmasOk p.sz p.vmas) (hmapped : ∀ v, v * pgsize < p.sz → upages k p.pgdir v ≠ none) :
    Ends (growproc n p) k (fun r k' => Atomically dirs n p k r k') ↔
      Movable k p n := by
  refine ⟨fun hat => ⟨fun hn hfit v hv => ?_, fun hn => ?_⟩, growproc_atomic h hd hp⟩
  · by_contra hpage
    exact not_atomic_grow h hd hp hn hfit hv hpage hat
  · by_contra hle
    rw [not_or] at hle
    exact not_atomic_shrink h hd hp hmapped hn hle.1 (by omega) hat

/-! ### The first process -/

theorem BootOk.mapped {s : Sys} (h : BootOk man s) :
    ∀ v, v * pgsize < (s.pt.proc initSlot).sz →
      upages s.k (s.pt.proc initSlot).pgdir v ≠ none := by
  intro v hv
  rw [show (s.pt.proc initSlot).sz = 4096 from h.space.sz] at hv
  obtain ⟨e, pg, hpage, -⟩ := h.space.image.present v hv
  rw [show upages s.k (s.pt.proc initSlot).pgdir v = some (e, pg) from hpage]
  simp

end

/-- The first process grows by a page, which it gets zeroed. -/
theorem growproc_atomic_iff_page : let _ : Layout := Layout.sample
    ∃ (s : Sys) (k' : Kmem) (dirs : Finset Nat), Booted s ∧ (s.pt.proc initSlot).pgdir ∈ dirs ∧
      upages s.k (s.pt.proc initSlot).pgdir 1 = none ∧
      (growproc 4096#32 (s.pt.proc initSlot)).run s.k =
        .ok ((0, { s.pt.proc initSlot with sz := 8192 }), k') ∧
      FreshPage true (upages k' (s.pt.proc initSlot).pgdir 1) ∧
      Resized dirs (s.pt.proc initSlot) 8192 s.k k' := by
  let _ : Layout := Layout.sample
  obtain ⟨s, hb⟩ := sample_boots
  obtain ⟨man, h⟩ := hb.ok
  have hl := h.alive.live
  have hd := hl.dir
  have hvm := h.inv.pt.vmas _ hl
  have hsz : (s.pt.proc initSlot).sz = 4096 := h.space.sz
  have hnone : ∀ v, 4096 ≤ v * 4096 → upages s.k (s.pt.proc initSlot).pgdir v = none :=
    h.space.image.absent
  have hmov : Movable s.k (s.pt.proc initSlot) 4096#32 := by
    refine ⟨fun _ _ v hv => hnone v ?_, fun hneg => absurd hneg (by decide)⟩
    exact hsz.ge.trans hv.1
  obtain ⟨r, k', hrun, hat⟩ :=
    ((growproc_atomic_iff h.inv.mem hd hvm h.mapped).mpr hmov).exists_ok
  have hspec := (growproc_pos h.inv.mem hd hvm (by decide)).of_ok hrun
  rw [GrowEnd, show (s.pt.proc initSlot).sz + (4096#32 : Word).toNat = 8192 by rw [hsz]; rfl]
    at hspec
  rcases hspec with ⟨hbig, -⟩ | ⟨-, rfl, hg⟩ | ⟨-, -, hab⟩
  · exact absurd hbig (by decide)
  · rcases hat with ⟨newsz, -, hr, hres⟩ | ⟨hr, -⟩
    · obtain rfl : 8192 = newsz := congrArg (fun r => r.2.sz) hr
      exact ⟨s, k', _, hb, hd, hnone 1 (by decide), hrun,
        hres.grown 1 ⟨by rw [hsz]; decide, by decide⟩, hres⟩
    · exact absurd hr (by simp)
  · have hshort := hab.short
    have hfree := h.free
    omega

/-- The first process has one page. Giving back all of it returns -1 and unmaps the
page; giving back twice as much returns 0 and changes nothing. -/
theorem growproc_past_zero : let _ : Layout := Layout.sample
    ∃ (s : Sys) (k1 k2 : Kmem), Booted s ∧ (s.pt.proc initSlot).sz = 4096 ∧
      (∀ v, v * pgsize < 4096 → upages s.k (s.pt.proc initSlot).pgdir v ≠ none) ∧
      (growproc (-4096#32) (s.pt.proc initSlot)).run s.k = .ok ((-1, s.pt.proc initSlot), k1) ∧
      upages k1 (s.pt.proc initSlot).pgdir 0 = none ∧
      (growproc (-8192#32) (s.pt.proc initSlot)).run s.k = .ok ((0, s.pt.proc initSlot), k2) ∧
      upages k2 (s.pt.proc initSlot).pgdir 0 ≠ none := by
  let _ : Layout := Layout.sample
  obtain ⟨s, hb⟩ := sample_boots
  obtain ⟨man, h⟩ := hb.ok
  have hl := h.alive.live
  have hd := hl.dir
  have hvm := h.inv.pt.vmas _ hl
  have hsz : (s.pt.proc initSlot).sz = 4096 := h.space.sz
  have hmapped := h.mapped
  obtain ⟨r1, k1, hrun1, hr1⟩ :=
    (growproc_neg (n := -4096#32) h.inv.mem hd hvm (by decide)).exists_ok
  obtain ⟨r2, k2, hrun2, hr2⟩ :=
    (growproc_neg (n := -8192#32) h.inv.mem hd hvm (by decide)).exists_ok
  have h1 : (-4096#32 : Word).toInt = -4096 := by decide
  have h2 : (-8192#32 : Word).toInt = -8192 := by decide
  rw [hsz, h1] at hr1
  rw [hsz, h2] at hr2
  rw [hsz] at hmapped
  refine ⟨s, k1, k2, hb, hsz, hmapped, ?_⟩
  rcases hr1 with ⟨hneg, -⟩ | ⟨newsz, hnew, rfl, hun⟩
  · exact absurd hneg (by decide)
  rcases hr2 with ⟨-, rfl, -, hsame⟩ | ⟨_, hnew, -⟩
  · have h0 : newsz = 0 := by omega
    rw [if_pos h0] at hrun1
    refine ⟨hrun1, ?_, hrun2, ?_⟩
    · rw [hun.upages_eq hd]
      exact if_pos (show newsz ≤ 0 * 4096 ∧ 0 * 4096 < 4096 by omega)
    · rw [hsame.1 _ hd]
      exact hmapped 0 (by decide)
  · omega

end Xv6
