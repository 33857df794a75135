import Mathlib.Logic.Relation
import Xv6.RefCount.Access
import Xv6.System

/-!
# Xv6.Aspace

Address spaces as processes see them, without page tables and frames: the size,
the mapped regions, and for each page number the entry and the contents of the
page, if it is present.

`Change c A A'` says what a call `c` can make of the caller's address space. It is
the one place where the effect of every call is listed; `Xv6.SysInv` shows that
the calls do nothing else, and the properties of address spaces that hold along
every run are invariants of `Change`.
-/

namespace Xv6

open Function (update update_self update_of_ne)

/-- A page as a process sees it: its entry and its contents. -/
abbrev Page := Word × (Nat → Word)

/-- An address space. -/
structure Aspace where
  sz : Nat
  vmas : Fin maxVmas → Vma
  page : Nat → Option Page

/-! ### Regions -/

/-- Page `v` lies in the region. -/
def Vma.holds (r : Vma) (v : Nat) : Prop := r.start ≤ v * 4096 ∧ v * 4096 < r.start + r.length

instance (r : Vma) (v : Nat) : Decidable (r.holds v) := inferInstanceAs (Decidable (_ ∧ _))

/-- A used region is a non-empty run of whole pages below `KERNBASE`. -/
structure Vma.Ok (r : Vma) : Prop where
  start_aligned : r.start % 4096 = 0
  length_aligned : r.length % 4096 = 0
  length_pos : 0 < r.length
  below : r.start + r.length ≤ kernbase

/-- The size and the regions lie below `KERNBASE`, and the regions consist of whole
pages. -/
structure VmasOk (sz : Nat) (vmas : Fin maxVmas → Vma) : Prop where
  sz_le : sz ≤ kernbase
  vma : ∀ i, (vmas i).used = true → (vmas i).Ok

/-- The region that holds page `v`. -/
def regionOf (vmas : Fin maxVmas → Vma) (v : Nat) : Option Vma :=
  ((List.finRange maxVmas).find? fun i => (vmas i).covers (v * 4096)).map vmas

/-- A whole-page region covers an address exactly when it holds its page. -/
theorem Vma.covers_page {r : Vma} (h : r.used = true → r.Ok) (va : Nat) :
    r.covers va = r.covers (vpn va * 4096) := by
  rw [Bool.eq_iff_iff, Vma.covers_iff, Vma.covers_iff]
  constructor
  · rintro ⟨hu, hs, hl⟩
    have := (h hu).start_aligned
    refine ⟨hu, ?_⟩
    simp only [vpn, pgsize]
    omega
  · rintro ⟨hu, hs, hl⟩
    have := (h hu).start_aligned
    have := (h hu).length_aligned
    refine ⟨hu, ?_⟩
    simp only [vpn, pgsize] at *
    omega

theorem VmasOk.vmaFind_eq {p : Proc} (h : VmasOk p.sz p.vmas) (va : Nat) :
    vmaFind p va = regionOf p.vmas (vpn va) := by
  unfold vmaFind regionOf
  congr 2
  funext i
  exact Vma.covers_page (h.vma i) va

section
variable {vmas : Fin maxVmas → Vma} {v : Nat}

theorem regionOf_eq_some {r : Vma} (h : regionOf vmas v = some r) :
    ∃ i, vmas i = r ∧ r.used = true ∧ r.holds v := by
  obtain ⟨i, hi, rfl⟩ := Option.map_eq_some_iff.mp h
  have hcov : (vmas i).covers (v * 4096) = true := by simpa using List.find?_some hi
  have := Vma.covers_iff.mp hcov
  exact ⟨i, rfl, this.1, this.2⟩

theorem regionOf_eq_none :
    regionOf vmas v = none ↔ ∀ i, (vmas i).used = true → ¬ (vmas i).holds v := by
  simp only [regionOf, Option.map_eq_none_iff, List.find?_eq_none, List.mem_finRange,
    forall_const, Vma.covers_iff, Vma.holds, not_and]

theorem VmasOk.region_lt {sz : Nat} (h : VmasOk sz vmas) {r : Vma} (hr : regionOf vmas v = some r) :
    v < nupages := by
  obtain ⟨i, rfl, hu, hlo, hhi⟩ := regionOf_eq_some hr
  have := (h.vma i hu).below
  simp only [nupages, kernbase, pgsize] at *
  omega

end

/-- The regions of a process lie in the user half. -/
theorem VmasOk.below {p : Proc} (h : VmasOk p.sz p.vmas) : VmasBelow p := by
  intro va r hr
  rw [h.vmaFind_eq] at hr
  have := h.region_lt hr
  simp only [vpn, nupages, kernbase, pgsize] at *
  omega

namespace Aspace

/-- The region that holds page `v`. -/
def region (A : Aspace) (v : Nat) : Option Vma := regionOf A.vmas v

/-- Page `v` lies in a region without `PROT_WRITE`. -/
def readOnly (A : Aspace) (v : Nat) : Bool := (A.region v).any fun r => !canWrite r.prot

/-- Overwrite one page. -/
def setPage (A : Aspace) (v : Nat) (x : Option Page) : Aspace :=
  { A with page := update A.page v x }

@[simp] theorem setPage_self (A : Aspace) (v : Nat) (x : Option Page) :
    (A.setPage v x).page v = x := update_self _ _ _

theorem setPage_of_ne (A : Aspace) {v v' : Nat} (x : Option Page) (h : v' ≠ v) :
    (A.setPage v x).page v' = A.page v' := update_of_ne h _ _

/-- Remove the pages that satisfy `P`. -/
def drop (A : Aspace) (P : Nat → Prop) [DecidablePred P] : Aspace :=
  { A with page := fun v => if P v then none else A.page v }

end Aspace

/-! ### What calls do to address spaces -/

/-- One page is faulted in, made private, or written to. -/
inductive Touch (A : Aspace) : Aspace → Prop
  | demand {v : Nat} {r : Vma} {e : Word} (hr : A.region v = some r) (habs : A.page v = none)
      (hw : has e .w = canWrite r.prot) (hu : has e .u = true) (hcow : has e .cow = false) :
      Touch A (A.setPage v (some (e, fun _ => 0#32)))
  | resolve {v : Nat} {e e' : Word} {page : Nat → Word} (hro : A.readOnly v = false)
      (hpage : A.page v = some (e, page)) (hcow : has e .cow = true) (hw : has e' .w = true)
      (hu : has e' .u = has e .u) (hcow' : has e' .cow = false) :
      Touch A (A.setPage v (some (e', page)))
  | write {v : Nat} {e : Word} {page page' : Nat → Word} (hpage : A.page v = some (e, page))
      (hw : has e .w = true) (hu : has e .u = true) : Touch A (A.setPage v (some (e, page')))

/-- What a call can make of the address space of its caller. -/
inductive Change (A : Aspace) : Call → Aspace → Prop
  | same {c : Call} : Change A c A
  | touch {c : Call} {A' : Aspace} (h : Relation.ReflTransGen Touch A A') : Change A c A'
  /-- The region goes to the first page boundary from `sz` on. -/
  | mmap {n : Word} {i : Fin maxVmas} {start length : Nat} (hfree : (A.vmas i).used = false)
      (hstart : start = (A.sz + 4095) / 4096 * 4096) (hpos : 0 < length)
      (hlen : length % 4096 = 0) (hend : start + length ≤ kernbase) :
      Change A (.mmap n)
        { A with
          sz := start + length
          vmas := update A.vmas i ⟨start, length, protRead ||| protWrite, true⟩ }
  | munmap {addr n : Word} {i : Fin maxVmas} (hused : (A.vmas i).used = true)
      (hstart : (A.vmas i).start = addr.toNat) (hlen : (A.vmas i).length = pgroundup n.toNat) :
      Change A (.munmap addr n)
        { A.drop (A.vmas i).holds with vmas := update A.vmas i Vma.empty }
  /-- `refs` are the reference counts of the frames. -/
  | mprotect {addr n prot : Word} {i : Fin maxVmas} {refs : Nat → Nat}
      (hused : (A.vmas i).used = true) :
      Change A (.mprotect addr n prot)
        { A with
          vmas := update A.vmas i { A.vmas i with prot := prot }
          page := fun v =>
            if (A.vmas i).holds v then
              (A.page v).map fun x => (protEntry (refs v) prot x.1, x.2)
            else A.page v }
  | grow {n : Word} {page : Nat → Option Page} (hn : 0 < n.toInt)
      (hend : A.sz + n.toNat < kernbase)
      (hnew : ∀ v, A.sz ≤ v * 4096 → v * 4096 < A.sz + n.toNat →
        A.page v = none ∧ FreshPage true (page v))
      (hold : ∀ v, ¬ (A.sz ≤ v * 4096 ∧ v * 4096 < A.sz + n.toNat) → page v = A.page v) :
      Change A (.sbrk n) { A with sz := A.sz + n.toNat, page := page }
  /-- A growth that ran out of memory. -/
  | abandon {n : Word} (hn : 0 < n.toInt) :
      Change A (.sbrk n) (A.drop fun v => A.sz ≤ v * 4096 ∧ v * 4096 < A.sz + n.toNat)
  /-- Shrinking to 0 releases the pages but is reported as an error, and `sz`
  stays. -/
  | shrink {n : Word} {newsz : Nat} (hn : n.toInt < 0) (hsz : newsz = A.sz + n.toInt) :
      Change A (.sbrk n)
        { A.drop (fun v => newsz ≤ v * 4096 ∧ v * 4096 < A.sz) with
          sz := if newsz = 0 then A.sz else newsz }
  /-- A parent's pages after `fork`, which may have failed half way. -/
  | share {page : Nat → Option Page}
      (h : ∀ v, page v = A.page v ∨ page v = sharePage (A.page v)) :
      Change A .fork { A with page := page }
  | exec {ip : Option (List Byte)} {argv : List (List Byte)} {sz : Nat}
      {page : Nat → Option Page} (hsz : sz ≤ kernbase)
      (hpage : ∀ v, v * 4096 < sz →
        ∃ e pg, page v = some (e, pg) ∧ has e .w = true ∧ has e .cow = false)
      (habove : ∀ v, sz ≤ v * 4096 → page v = none) :
      Change A (.exec ip argv) { sz := sz, vmas := fun _ => Vma.empty, page := page }

/-- The child's address space after `fork`. -/
def Aspace.fork (A : Aspace) : Aspace :=
  { A with page := fun v => if v * 4096 < A.sz then sharePage (A.page v) else none }

/-! ### Accesses

Whether a user access goes through is a property of the address space alone, and so is the
page it then finds: the one that was there, made private if need be, or a new page of zeros. -/

/-- A user access can reach page `v`: the page is present and may be read, and
written to or made writable as asked; or it is absent and its region may be
accessed in this way. -/
def Aspace.Reaches (A : Aspace) (v : Nat) (write : Bool) : Prop :=
  match A.page v with
  | some (e, _) => has e .u = true ∧
      (write = true → has e .w = true ∨ (has e .cow = true ∧ A.readOnly v = false))
  | none => ∃ r, A.region v = some r ∧ (write = true → canWrite r.prot = true)

theorem Aspace.Reaches.read {A : Aspace} {v : Nat} (h : A.Reaches v true) :
    A.Reaches v false := by
  unfold Aspace.Reaches at h ⊢
  split at h
  · exact ⟨h.1, nofun⟩
  · obtain ⟨r, hr, -⟩ := h
    exact ⟨r, hr, nofun⟩

/-- Page `v` has been brought in for an access. -/
inductive Fetched (A : Aspace) (v : Nat) : Aspace → Prop
  | hit {x : Page} (hpage : A.page v = some x) : Fetched A v A
  | demand {r : Vma} {e : Word} (hr : A.region v = some r) (habs : A.page v = none)
      (hw : has e .w = canWrite r.prot) (hu : has e .u = true) (hcow : has e .cow = false) :
      Fetched A v (A.setPage v (some (e, fun _ => 0#32)))
  | resolve {e e' : Word} {page : Nat → Word} (hro : A.readOnly v = false)
      (hpage : A.page v = some (e, page)) (hcow : has e .cow = true) (hw : has e' .w = true)
      (hu : has e' .u = has e .u) (hcow' : has e' .cow = false) :
      Fetched A v (A.setPage v (some (e', page)))

/-- What an access to page `v` finds there: the contents of the page, or zeros. -/
def Aspace.contents (A : Aspace) (v : Nat) : Nat → Word :=
  match A.page v with
  | some x => x.2
  | none => fun _ => 0#32

section
variable {A A' : Aspace} {v w : Nat} {write : Bool}

section
variable (h : Fetched A v A')
include h

theorem Fetched.page : ∃ e, A'.page v = some (e, A.contents v) := by
  cases h with
  | @hit x hpage => exact ⟨x.1, by simp [Aspace.contents, hpage]⟩
  | @demand r e hr habs => exact ⟨e, by simp [Aspace.contents, habs, Aspace.setPage]⟩
  | @resolve e e' page hro hpage => exact ⟨e', by simp [Aspace.contents, hpage, Aspace.setPage]⟩

theorem Fetched.page_of_ne (hne : w ≠ v) : A'.page w = A.page w := by
  cases h <;> simp [Aspace.setPage, hne]

/-- A page that is present stays, and no other comes. -/
theorem Fetched.isSome (hv : A.page v ≠ none) (w : Nat) :
    (A'.page w).isSome = (A.page w).isSome := by
  by_cases hw : w = v
  · obtain ⟨e, he⟩ := h.page
    rw [hw, he, Option.isSome_iff_ne_none.mpr hv]
    rfl
  · rw [h.page_of_ne hw]

theorem Fetched.same : A'.sz = A.sz ∧ A'.vmas = A.vmas := by
  cases h <;> exact ⟨rfl, rfl⟩

/-- Bringing a page in does not take it out of reach. -/
theorem Fetched.reaches (hr : A.Reaches v write) : A'.Reaches v write := by
  cases h with
  | hit => exact hr
  | @demand r e hreg habs hw hu hcow =>
    simp only [Aspace.Reaches, habs] at hr
    obtain ⟨r', hr', hcan⟩ := hr
    rw [hreg, Option.some.injEq] at hr'
    subst hr'
    simp only [Aspace.Reaches, Aspace.setPage, update_self]
    exact ⟨hu, fun hwr => .inl (hw.trans (hcan hwr))⟩
  | @resolve e e' pg hro hpage hcow hw hu hcow' =>
    simp only [Aspace.Reaches, hpage] at hr
    simp only [Aspace.Reaches, Aspace.setPage, update_self]
    exact ⟨hu.trans hr.1, fun _ => .inl hw⟩

/-- A page that could be brought in for an access was within reach. -/
theorem Fetched.reached {e : Word} {pg : Nat → Word} (hpage : A'.page v = some (e, pg))
    (hu : has e .u = true) (hw : write = true → has e .w = true) : A.Reaches v write := by
  cases h with
  | hit =>
    simp only [Aspace.Reaches, hpage]
    exact ⟨hu, fun hwr => .inl (hw hwr)⟩
  | @demand r e1 hreg habs hw1 hu1 hcow =>
    simp only [Aspace.setPage, update_self, Option.some.injEq, Prod.mk.injEq] at hpage
    simp only [Aspace.Reaches, habs]
    refine ⟨r, hreg, fun hwr => ?_⟩
    rw [← hw1, hpage.1]
    exact hw hwr
  | @resolve e1 e2 pg1 hro hold hcow hw1 hu1 hcow' =>
    simp only [Aspace.setPage, update_self, Option.some.injEq, Prod.mk.injEq] at hpage
    simp only [Aspace.Reaches, hold]
    refine ⟨?_, fun _ => .inr ⟨hcow, hro⟩⟩
    rw [← hu1, hpage.1]
    exact hu

/-- The contents of pages are not changed by bringing one in. -/
theorem Fetched.contents_eq (w : Nat) : A'.contents w = A.contents w := by
  by_cases hw : w = v
  · obtain ⟨e, he⟩ := h.page
    rw [hw, Aspace.contents, he]
  · rw [Aspace.contents, Aspace.contents, h.page_of_ne hw]

theorem Fetched.readable (w : Nat) : A'.Reaches w false ↔ A.Reaches w false := by
  have hregion : A'.region w = A.region w := by rw [Aspace.region, Aspace.region, h.same.2]
  by_cases hw : w = v
  · subst hw
    refine ⟨fun hr => ?_, h.reaches⟩
    obtain ⟨e, he⟩ := h.page
    rw [Aspace.Reaches, he] at hr
    exact h.reached he hr.1 (by simp)
  · rw [Aspace.Reaches, Aspace.Reaches, h.page_of_ne hw, hregion]
    simp

end

end

/-! ### Address spaces in memory -/

theorem nupages_eq : nupages * 4096 = kernbase := by decide

/-- The user pages of a directory. -/
def upages (k : Kmem) (d : Nat) (v : Nat) : Option Page := if v < nupages then upage k d v else none

/-- The address space of a process. -/
def aspace (k : Kmem) (p : Proc) : Aspace :=
  { sz := p.sz, vmas := p.vmas, page := upages k p.pgdir }

section
variable {k k' : Kmem} {d v : Nat}

theorem upages_of_lt (hv : v < nupages) : upages k d v = upage k d v := if_pos hv

theorem upages_of_ge (hv : nupages ≤ v) : upages k d v = none := if_neg (by omega)

theorem upages_eq_some {x : Page} : upages k d v = some x ↔ v < nupages ∧ upage k d v = some x := by
  unfold upages
  split <;> simp_all

theorem upages_at {d' : Nat} (h : v < nupages → upage k' d' v = upage k d v) :
    upages k' d' v = upages k d v := by
  unfold upages
  split
  · next hv => exact h hv
  · rfl

theorem upages_congr {d' : Nat} (h : ∀ v < nupages, upage k' d' v = upage k d v) :
    upages k' d' = upages k d :=
  funext fun v => upages_at (h v)

theorem upages_drop {P : Nat → Prop} [DecidablePred P]
    (hgone : ∀ v < nupages, P v → upage k' d v = none)
    (hsame : ∀ v < nupages, ¬ P v → upage k' d v = upage k d v) :
    upages k' d = fun v => if P v then none else upages k d v := by
  funext v
  unfold upages
  grind

theorem upages_update {x : Option Page} (hv : v < nupages) (hx : upage k' d v = x)
    (h : ∀ v' < nupages, v' ≠ v → upage k' d v' = upage k d v') :
    upages k' d = update (upages k d) v x := by
  funext v'
  by_cases he : v' = v
  · subst he
    rw [update_self, upages_of_lt hv, hx]
  · rw [update_of_ne he]
    unfold upages
    split
    · next hv' => exact h v' hv' he
    · rfl

end

end Xv6
