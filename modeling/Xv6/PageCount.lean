import Mathlib.Data.Finset.Card
import Xv6.RegionRuns

/-!
# Xv6.PageCount

`vm_numvp` and `vm_numpp`: the pages a process owns, and those that are in memory.

Both walk the pages below `sz`. A page in a region counts as owned whether it is present or
not, any other page only if it is present. So `mmap` raises the first count and not the
second, touching a page does the reverse, and `munmap` takes back what `mmap` added,
although it leaves `sz` where it is.
-/

namespace Xv6

open Function (update)
open Relation (ReflTransGen)

/-! ### The program -/

/-- The test of `vm_numpp`: the page has an entry that is present. -/
def residentPage (p : Proc) (a : Nat) : KM Bool := do
  match ← walkpgdir p.pgdir a false with
  | none => return false
  | some pte => do
    let e ← readWord pte
    return has e .p

/-- The test of `vm_numvp`. -/
def ownedPage (p : Proc) (a : Nat) : KM Bool :=
  if (vmaFind p a).isSome then return true else residentPage p a

/-- `for(a = 0; a < limit; a += PGSIZE) if(...) count++;` -/
def countPages (test : Nat → KM Bool) (limit : Nat) : Nat → Nat → Nat → KM Nat
  | 0, _, count => return count
  | fuel + 1, a, count =>
    if a < limit then do
      let b ← test a
      countPages test limit fuel (u32 (a + pgsize)) (if b then count + 1 else count)
    else return count

/-- `vm_numvp`. -/
def vmNumvp (p : Proc) : KM Nat := countPages (ownedPage p) (pgroundup p.sz) npages 0 0

/-- `vm_numpp`. -/
def vmNumpp (p : Proc) : KM Nat := countPages (residentPage p) (pgroundup p.sz) npages 0 0

/-! ### What is counted -/

namespace Aspace

/-- The pages below `sz`. -/
def pages (A : Aspace) : Finset Nat := Finset.range ((A.sz + 4095) / 4096)

/-- The page is present. -/
def Resident (A : Aspace) (v : Nat) : Prop := (A.page v).isSome = true

instance (A : Aspace) (v : Nat) : Decidable (A.Resident v) := inferInstanceAs (Decidable (_ = _))

/-- The page is in a region, or present. -/
def Owned (A : Aspace) (v : Nat) : Prop := (A.region v).isSome = true ∨ A.Resident v

instance (A : Aspace) (v : Nat) : Decidable (A.Owned v) := inferInstanceAs (Decidable (_ ∨ _))

def numvp (A : Aspace) : Nat := (A.pages.filter A.Owned).card

def numpp (A : Aspace) : Nat := (A.pages.filter A.Resident).card

end Aspace

theorem Aspace.mem_pages {A : Aspace} {v : Nat} : v ∈ A.pages ↔ v * 4096 < A.sz := by
  rw [Aspace.pages, Finset.mem_range]
  omega

section
variable {k : Kmem} {p : Proc}

/-- The loop counts the pages that pass the test. -/
theorem countPages_spec {test : Nat → KM Bool} {P : Nat → Prop} [DecidablePred P] {n : Nat}
    (hn : n ≤ nupages) (htest : ∀ v < n, Ends (test (v * pgsize)) k
      (fun b k' => k' = k ∧ (b = true ↔ P v))) :
    ∀ {fuel m : Nat}, m ≤ n → n ≤ m + fuel →
      Ends (countPages test (n * pgsize) fuel (m * pgsize) ((Finset.range m).filter P).card) k
        (fun r k' => k' = k ∧ r = ((Finset.range n).filter P).card) := by
  intro fuel
  induction fuel with
  | zero =>
    intro m hle hge
    have : m = n := by omega
    rw [this]
    exact .ret ⟨rfl, rfl⟩
  | succ fuel ih =>
    intro m hle hge
    rw [countPages, ends_ite]
    refine ⟨fun hlt => ?_, fun hge => ?_⟩
    · have hmn : m < n := Nat.lt_of_mul_lt_mul_right hlt
      refine (htest m hmn).bind ?_
      rintro b _ ⟨rfl, hb⟩
      have hnext : u32 (m * pgsize + pgsize) = (m + 1) * pgsize := by
        have : nupages = 0x80000 := by decide
        rw [Nat.succ_mul]
        refine Nat.mod_eq_of_lt ?_
        simp only [pgsize]
        omega
      have hcount : (if b = true then ((Finset.range m).filter P).card + 1
          else ((Finset.range m).filter P).card) = ((Finset.range (m + 1)).filter P).card := by
        rw [Finset.range_add_one, Finset.filter_insert]
        by_cases hP : P m
        · rw [if_pos (hb.mpr hP), if_pos hP, Finset.card_insert_of_notMem (by simp)]
        · rw [if_neg (mt hb.mp hP), if_neg hP]
      rw [hnext, hcount]
      exact ih hmn (by omega)
    · have : m = n := by
        simp only [pgsize] at hge
        omega
      rw [this]
      exact .ret ⟨rfl, rfl⟩

theorem residentPage_spec {v : Nat} (hv : v < nupages) :
    Ends (residentPage p (v * pgsize)) k
      (fun b k' => k' = k ∧ (b = true ↔ (aspace k p).Resident v)) := by
  have hn : nupages = 0x80000 := by decide
  have hvpn : vpn (v * pgsize) = v := Nat.mul_div_cancel v (by decide)
  have hres : (aspace k p).Resident v ↔ has (pte k p.pgdir v) .p = true := by
    show (upages k p.pgdir v).isSome = true ↔ _
    rw [upages_of_lt hv, upage]
    split <;> simp [*]
  rw [residentPage, ends_bind, ends_walkpgdir_false (by simp only [pgsize]; omega), hvpn, hres, pte]
  cases pteLoc k p.pgdir v with
  | none => exact .ret ⟨rfl, by simp⟩
  | some loc =>
    dsimp only
    rw [ends_bind, ends_readWord]
    exact .ret ⟨rfl, Iff.rfl⟩

section
variable (hp : VmasOk p.sz p.vmas)
include hp

theorem ownedPage_spec {v : Nat} (hv : v < nupages) :
    Ends (ownedPage p (v * pgsize)) k
      (fun b k' => k' = k ∧ (b = true ↔ (aspace k p).Owned v)) := by
  have hregion : vmaFind p (v * pgsize) = (aspace k p).region v := by
    rw [hp.vmaFind_eq, show vpn (v * pgsize) = v from Nat.mul_div_cancel v (by decide)]
    rfl
  rw [ownedPage, hregion, ends_ite]
  refine ⟨fun hr => .ret ⟨rfl, by simp [Aspace.Owned, hr]⟩, fun hr => ?_⟩
  refine (residentPage_spec hv).imp fun b k' hb => ⟨hb.1, hb.2.trans ?_⟩
  exact (or_iff_right hr).symm

/-- The number of pages below `sz` fits the loop. -/
theorem VmasOk.limit :
    pgroundup p.sz = (p.sz + 4095) / 4096 * pgsize ∧ (p.sz + 4095) / 4096 ≤ nupages ∧
      nupages ≤ npages := by
  have hsz := hp.sz_le
  refine ⟨hp.pgroundup_sz, ?_, by decide⟩
  simp only [kernbase, nupages, pgsize] at *
  omega

theorem vmNumvp_spec : Ends (vmNumvp p) k
    (fun r k' => k' = k ∧ r = (aspace k p).numvp) := by
  obtain ⟨hlim, hle, hn⟩ := hp.limit
  rw [vmNumvp, hlim]
  exact countPages_spec hle (fun v hv => ownedPage_spec hp (by omega)) (m := 0)
    (Nat.zero_le _) (by omega)

theorem vmNumpp_spec : Ends (vmNumpp p) k
    (fun r k' => k' = k ∧ r = (aspace k p).numpp) := by
  obtain ⟨hlim, hle, hn⟩ := hp.limit
  rw [vmNumpp, hlim]
  exact countPages_spec hle (fun v hv => residentPage_spec (by omega)) (m := 0)
    (Nat.zero_le _) (by omega)

end

end

/-! ### Pages beyond `sz` -/

variable {A A' : Aspace} {c : Call}

/-- Every present page lies below `sz` or in a region. -/
def Aspace.Backed (A : Aspace) : Prop :=
  ∀ v, A.Resident v → v * 4096 < A.sz ∨ (A.region v).isSome = true

/-- Whether a page is in a region depends on the intervals only. -/
theorem Aspace.region_isSome {v : Nat} :
    (A.region v).isSome = true ↔ ∃ i, (A.vmas i).used = true ∧ (A.vmas i).holds v := by
  rw [← not_iff_not, Option.not_isSome_iff_eq_none]
  exact regionOf_eq_none.trans (by simp)

/-- A touched page was there before, or is in a region. -/
theorem Touch.resident {v : Nat} (h : Touch A A') (hv : A'.Resident v) :
    A.Resident v ∨ (A.region v).isSome = true := by
  have hset : ∀ w x, A' = A.setPage w x → (v = w → A.Resident v ∨ (A.region v).isSome = true) →
      A.Resident v ∨ (A.region v).isSome = true := by
    rintro w x rfl hw
    by_cases he : v = w
    · exact hw he
    · refine .inl ?_
      rwa [Aspace.Resident, Aspace.setPage_of_ne _ _ he] at hv
  cases h with
  | demand hr => exact hset _ _ rfl fun he => .inr (by rw [he, hr]; rfl)
  | resolve _ hpage | write hpage =>
    exact hset _ _ rfl fun he => .inl (by rw [he, Aspace.Resident, hpage]; rfl)

/-- Touching never takes a page away. -/
theorem Touch.resident_mono {v : Nat} (h : Touch A A') (hv : A.Resident v) : A'.Resident v := by
  have hset : ∀ w x, A' = A.setPage w (some x) → A'.Resident v := by
    rintro w x rfl
    by_cases he : v = w
    · rw [he, Aspace.Resident, Aspace.setPage_self]
      rfl
    · rwa [Aspace.Resident, Aspace.setPage_of_ne _ _ he]
  cases h <;> exact hset _ _ rfl

/-- The same size and the same intervals, and the same pages outside of the regions. -/
structure Aspace.Still (A B : Aspace) : Prop where
  sz : B.sz = A.sz
  vmas : ∀ j, (B.vmas j).used = (A.vmas j).used ∧ (B.vmas j).start = (A.vmas j).start ∧
    (B.vmas j).length = (A.vmas j).length
  page : ∀ v, ¬ (A.region v).isSome = true → (B.Resident v ↔ A.Resident v)

namespace Aspace.Still

variable {B C : Aspace}

theorem refl (A : Aspace) : A.Still A := ⟨rfl, fun _ => ⟨rfl, rfl, rfl⟩, fun _ _ => Iff.rfl⟩

section
variable (h : A.Still B)
include h

theorem holds (j : Fin maxVmas) (v : Nat) : (B.vmas j).holds v ↔ (A.vmas j).holds v := by
  rw [Vma.holds, Vma.holds, (h.vmas j).2.1, (h.vmas j).2.2]

theorem region (v : Nat) : (B.region v).isSome = true ↔ (A.region v).isSome = true := by
  rw [Aspace.region_isSome, Aspace.region_isSome]
  exact exists_congr fun j => by rw [(h.vmas j).1, h.holds]

theorem trans (h' : B.Still C) : A.Still C where
  sz := h'.sz.trans h.sz
  vmas j := ⟨(h'.vmas j).1.trans (h.vmas j).1, (h'.vmas j).2.1.trans (h.vmas j).2.1,
    (h'.vmas j).2.2.trans (h.vmas j).2.2⟩
  page v hv := (h'.page v (mt (h.region v).mp hv)).trans (h.page v hv)

theorem owned (v : Nat) : B.Owned v ↔ A.Owned v := by
  rw [Aspace.Owned, Aspace.Owned, h.region]
  by_cases hr : (A.region v).isSome = true
  · simp [hr]
  · rw [h.page v hr]

theorem numvp : B.numvp = A.numvp := by
  rw [Aspace.numvp, Aspace.numvp, Aspace.pages, Aspace.pages, h.sz]
  exact congrArg Finset.card (Finset.filter_congr fun v _ => h.owned v)

theorem wellFormed (hA : A.WellFormed) : B.WellFormed := by
  refine hA.congr (by rw [h.sz]; exact hA.sz_le) (fun j hj => ?_) fun j hj => ?_
  · obtain ⟨hu, hs, hl⟩ := h.vmas j
    exact ⟨hu ▸ hj, hs, hl⟩
  · obtain ⟨hu, hs, hl⟩ := h.vmas j
    rw [hs, hl, h.sz]
    exact hA.inside j (hu ▸ hj)

end

theorem touch (h : Touch A B) : A.Still B := by
  refine ⟨?_, fun j => ?_, fun v hv => ⟨fun hB => ?_, h.resident_mono⟩⟩
  · cases h <;> rfl
  · cases h <;> exact ⟨rfl, rfl, rfl⟩
  · exact (h.resident hB).resolve_right hv

theorem touches (h : ReflTransGen Touch A B) : A.Still B := by
  induction h with
  | refl => exact .refl _
  | tail _ hstep ih => exact ih.trans (.touch hstep)

theorem protect {i : Fin maxVmas} {prot : Word} {refs : Nat → Nat} :
    A.Still { A with
      vmas := update A.vmas i { A.vmas i with prot := prot }
      page := fun v =>
        if (A.vmas i).holds v then
          (A.page v).map fun x => (protEntry (refs v) prot x.1, x.2)
        else A.page v } := by
  refine ⟨rfl, fun j => ?_, fun v _ => ?_⟩
  · by_cases hj : j = i
    · subst hj
      simp
    · simp [hj]
  · simp only [Aspace.Resident]
    split <;> simp

theorem share {page : Nat → Option Page}
    (h : ∀ v, page v = A.page v ∨ page v = sharePage (A.page v)) :
    A.Still { A with page := page } := by
  refine ⟨rfl, fun _ => ⟨rfl, rfl, rfl⟩, fun v _ => ?_⟩
  show (page v).isSome = true ↔ (A.page v).isSome = true
  rcases h v with hp | hp
  · rw [hp]
  · rw [hp]
    cases hA : A.page v <;> simp [sharePage]

end Aspace.Still

theorem Aspace.Still.backed {B : Aspace} (h : A.Still B) (hA : A.Backed) : B.Backed := by
  intro v hv
  rw [h.sz, h.region]
  by_cases hr : (A.region v).isSome = true
  · exact .inr hr
  · exact hA v ((h.page v hr).mp hv)

theorem Aspace.Backed.change (hA : A.Backed) (h : Change A c A') : A'.Backed := by
  cases h with
  | same => exact hA
  | touch ht => exact (Aspace.Still.touches ht).backed hA
  | @mmap n i start length hfree hstart hpos hlen hend =>
    intro v hv
    refine (hA v hv).imp (fun hlt => ?_) fun hr => ?_
    · show v * 4096 < start + length
      omega
    · obtain ⟨j, hu, hj⟩ := Aspace.region_isSome.mp hr
      have hne : j ≠ i := by
        rintro rfl
        rw [hfree] at hu
        cases hu
      exact Aspace.region_isSome.mpr ⟨j, by simpa [hne] using hu, by simpa [hne] using hj⟩
  | @munmap addr n i hused hstart hlen =>
    intro v hv
    have hout : ¬ (A.vmas i).holds v := by
      intro hin
      simp [Aspace.Resident, Aspace.drop, hin] at hv
    have hold : A.Resident v := by simpa [Aspace.Resident, Aspace.drop, hout] using hv
    refine (hA v hold).imp id fun hr => ?_
    obtain ⟨j, hu, hj⟩ := Aspace.region_isSome.mp hr
    have hne : j ≠ i := by
      rintro rfl
      exact hout hj
    exact Aspace.region_isSome.mpr ⟨j, by simpa [hne] using hu, by simpa [hne] using hj⟩
  | mprotect => exact Aspace.Still.protect.backed hA
  | @grow n page hn hend hnew hold =>
    intro v hv
    by_cases hin : A.sz ≤ v * 4096 ∧ v * 4096 < A.sz + n.toNat
    · exact .inl hin.2
    · have hold' : A.Resident v := by rwa [Aspace.Resident, ← hold v hin]
      refine (hA v hold').imp (fun hlt => ?_) id
      show v * 4096 < A.sz + n.toNat
      omega
  | abandon =>
    intro v hv
    refine hA v ?_
    simp only [Aspace.Resident, Aspace.drop] at hv
    split at hv
    · cases hv
    · exact hv
  | @shrink n newsz hn hsz =>
    intro v hv
    have hout : ¬ (newsz ≤ v * 4096 ∧ v * 4096 < A.sz) := by
      intro hin
      simp [Aspace.Resident, Aspace.drop, hin] at hv
    have hold : A.Resident v := by
      simp only [Aspace.Resident, Aspace.drop, if_neg hout] at hv
      exact hv
    refine (hA v hold).imp (fun hlt => ?_) id
    show v * 4096 < if newsz = 0 then A.sz else newsz
    split <;> omega
  | share h => exact (Aspace.Still.share h).backed hA
  | exec hsz hpage habove =>
    intro v hv
    by_contra hno
    rw [not_or, Nat.not_lt] at hno
    simp [Aspace.Resident, habove v hno.1] at hv

theorem Aspace.Backed.fork (A : Aspace) : A.fork.Backed := by
  intro v hv
  by_contra hno
  rw [not_or] at hno
  have hnone : A.fork.page v = none := if_neg hno.1
  rw [Aspace.Resident, hnone] at hv
  cases hv

theorem BootSpace.backed (h : BootSpace A) : A.Backed := by
  intro v hv
  by_contra hno
  rw [not_or, h.sz, Nat.not_lt] at hno
  rw [Aspace.Resident, h.image.absent v hno.1] at hv
  cases hv

/-! ### Counting -/

namespace Aspace

/-- The address space after `mmap` has placed a region. -/
def mapped (A : Aspace) (i : Fin maxVmas) (start length : Nat) : Aspace :=
  { A with
    sz := start + length
    vmas := update A.vmas i ⟨start, length, protRead ||| protWrite, true⟩ }

/-- The address space after `munmap` of a region. -/
def unmapped (A : Aspace) (i : Fin maxVmas) : Aspace :=
  { A.drop (A.vmas i).holds with vmas := update A.vmas i Vma.empty }

section
variable {i : Fin maxVmas} {start length v : Nat}

theorem region_mapped (hfree : (A.vmas i).used = false) :
    ((A.mapped i start length).region v).isSome = true ↔
      (start ≤ v * 4096 ∧ v * 4096 < start + length) ∨ (A.region v).isSome = true := by
  rw [region_isSome, region_isSome]
  constructor
  · rintro ⟨j, hu, hv⟩
    by_cases hj : j = i
    · subst hj
      simp only [mapped, Function.update_self] at hv
      exact .inl hv
    · simp only [mapped, Function.update_of_ne hj] at hu hv
      exact .inr ⟨j, hu, hv⟩
  · rintro (hv | ⟨j, hu, hv⟩)
    · exact ⟨i, by simp [mapped], by simpa [mapped, Vma.holds] using hv⟩
    · have hj : j ≠ i := by
        rintro rfl
        rw [hfree] at hu
        cases hu
      exact ⟨j, by simpa [mapped, hj] using hu, by simpa [mapped, hj] using hv⟩

theorem resident_unmapped :
    (A.unmapped i).Resident v ↔ ¬ (A.vmas i).holds v ∧ A.Resident v := by
  by_cases hv : (A.vmas i).holds v
  · simp [Resident, unmapped, drop, hv]
  · simp [Resident, unmapped, drop, hv]

theorem region_unmapped : ((A.unmapped i).region v).isSome = true ↔
    ∃ j, j ≠ i ∧ (A.vmas j).used = true ∧ (A.vmas j).holds v := by
  rw [region_isSome]
  refine exists_congr fun j => ?_
  by_cases hj : j = i
  · simp [unmapped, hj, Vma.empty]
  · simp [unmapped, hj]

/-- A new region adds its pages to those owned. -/
theorem numvp_mapped (hfree : (A.vmas i).used = false)
    (hstart : start = (A.sz + 4095) / 4096 * 4096) (hlen : length % 4096 = 0) :
    (A.mapped i start length).numvp = A.numvp + length / 4096 := by
  have hsplit : (A.mapped i start length).pages.filter (A.mapped i start length).Owned =
      A.pages.filter A.Owned ∪ Finset.Ico (start / 4096) (start / 4096 + length / 4096) := by
    ext v
    simp only [Finset.mem_filter, Finset.mem_union, Finset.mem_Ico, mem_pages, Owned,
      region_mapped hfree]
    show v * 4096 < start + length ∧ (_ ∨ A.Resident v) ↔ _
    by_cases hv : v * 4096 < start
    · have hA : v * 4096 < A.sz := by omega
      have hin : ¬ start ≤ v * 4096 := by omega
      have hIco : ¬ (start / 4096 ≤ v ∧ v < start / 4096 + length / 4096) := by omega
      have hlt : v * 4096 < start + length := by omega
      simp only [hA, hin, hIco, hlt, false_and, false_or, true_and, or_false]
    · have hA : ¬ v * 4096 < A.sz := by omega
      simp only [hA, false_and, false_or]
      constructor
      · intro h
        omega
      · intro h
        exact ⟨by omega, .inl (.inl (by omega))⟩
  have hdisj : Disjoint (A.pages.filter A.Owned)
      (Finset.Ico (start / 4096) (start / 4096 + length / 4096)) := by
    rw [Finset.disjoint_left]
    intro v hv hv'
    have hlt := mem_pages.mp (Finset.mem_filter.mp hv).1
    have hge := (Finset.mem_Ico.mp hv').1
    omega
  rw [numvp, hsplit, Finset.card_union_of_disjoint hdisj, Nat.card_Ico, Nat.add_sub_cancel_left]
  rfl

/-- It adds none to those present, if there are none beyond `sz`. -/
theorem numpp_mapped (hstart : start = (A.sz + 4095) / 4096 * 4096)
    (hbelow : ∀ v, A.Resident v → v * 4096 < A.sz) :
    (A.mapped i start length).numpp = A.numpp := by
  refine congrArg Finset.card (Finset.ext fun v => ?_)
  simp only [Finset.mem_filter, mem_pages]
  show v * 4096 < start + length ∧ A.Resident v ↔ _
  refine and_congr_left fun hv => ?_
  have := hbelow v hv
  omega

/-- Releasing the region again, after pages have come and gone in regions: what was owned
before it was placed. -/
theorem numvp_unmapped {C : Aspace} (hw : A.WellFormed) (hfree : (A.vmas i).used = false)
    (hstart : start = (A.sz + 4095) / 4096 * 4096) (hlen : length % 4096 = 0)
    (hC : (A.mapped i start length).Still C) : (C.unmapped i).numvp = A.numvp := by
  have hheld : ∀ v, (C.vmas i).holds v ↔ start ≤ v * 4096 ∧ v * 4096 < start + length := by
    intro v
    rw [hC.holds]
    simp [mapped, Vma.holds]
  -- the other regions are those of `A`
  have hothers : ∀ v, (∃ j, j ≠ i ∧ (C.vmas j).used = true ∧ (C.vmas j).holds v) ↔
      (A.region v).isSome = true := by
    intro v
    rw [region_isSome]
    refine exists_congr fun j => ?_
    by_cases hj : j = i
    · simp [hj, hfree]
    · rw [hC.holds, (hC.vmas j).1]
      simp [mapped, hj]
  have hbelow : ∀ v, (A.region v).isSome = true → v * 4096 < A.sz := by
    intro v hv
    obtain ⟨j, hu, -, hlt⟩ := region_isSome.mp hv
    exact hlt.trans_le (hw.inside j hu)
  have hsz : (C.unmapped i).sz = start + length := hC.sz
  refine congrArg Finset.card (Finset.ext fun v => ?_)
  simp only [Finset.mem_filter, mem_pages, Owned, region_unmapped, resident_unmapped, hothers,
    hheld, hsz]
  by_cases hr : (A.region v).isSome = true
  · have := hbelow v hr
    simp only [hr, true_or, and_true]
    omega
  · simp only [hr]
    by_cases hin : start ≤ v * 4096 ∧ v * 4096 < start + length
    · have : ¬ v * 4096 < A.sz := by omega
      simp [hin, this]
    · have hpage : C.Resident v ↔ A.Resident v := hC.page v (by rw [region_mapped hfree]; tauto)
      rw [hpage]
      simp only [hin, not_false_eq_true, true_and]
      refine and_congr_left fun _ => ?_
      omega

/-- The number of resident pages between two addresses. -/
def residentIn (A : Aspace) (lo hi : Nat) : Nat :=
  (A.pages.filter fun v => A.Resident v ∧ lo ≤ v * 4096 ∧ v * 4096 < hi).card

theorem numpp_unmapped : (A.unmapped i).numpp +
    A.residentIn (A.vmas i).start ((A.vmas i).start + (A.vmas i).length) = A.numpp := by
  have hsplit := Finset.card_filter_add_card_filter_not (s := A.pages.filter A.Resident)
    (fun v => (A.vmas i).holds v)
  rw [Finset.filter_filter, Finset.filter_filter] at hsplit
  rw [numpp, numpp, ← hsplit, Nat.add_comm]
  refine congrArg₂ (· + ·) rfl (congrArg Finset.card (Finset.filter_congr fun v _ => ?_))
  rw [resident_unmapped, and_comm]

end

end Aspace

theorem Fetched.resident {v w : Nat} (h : Fetched A v A') :
    A'.Resident w ↔ w = v ∨ A.Resident w := by
  by_cases hw : w = v
  · obtain ⟨e, he⟩ := h.page
    simp [hw, Aspace.Resident, he]
  · rw [Aspace.Resident, h.page_of_ne hw, Aspace.Resident]
    simp [hw]

theorem Fetched.numpp {v : Nat} (h : Fetched A v A') (habs : A.page v = none)
    (hv : v * 4096 < A.sz) : A'.numpp = A.numpp + 1 := by
  have hnot : v ∉ A.pages.filter A.Resident := by
    simp [Aspace.Resident, habs]
  rw [Aspace.numpp, Aspace.numpp, ← Finset.card_insert_of_notMem hnot]
  refine congrArg Finset.card (Finset.ext fun w => ?_)
  rw [Finset.mem_insert, Finset.mem_filter, Finset.mem_filter, Aspace.mem_pages, Aspace.mem_pages,
    h.same.1, h.resident]
  constructor
  · rintro ⟨hlt, rfl | hr⟩
    · exact .inl rfl
    · exact .inr ⟨hlt, hr⟩
  · rintro (rfl | ⟨hlt, hr⟩)
    · exact ⟨hv, .inl rfl⟩
    · exact ⟨hlt, .inr hr⟩

theorem Aspace.numpp_congr (hsz : A'.sz = A.sz)
    (hpage : ∀ v, (A'.page v).isSome = (A.page v).isSome) : A'.numpp = A.numpp := by
  rw [Aspace.numpp, Aspace.numpp, Aspace.pages, Aspace.pages, hsz]
  refine congrArg Finset.card (Finset.filter_congr fun v _ => ?_)
  rw [Aspace.Resident, hpage, Aspace.Resident]

/-- The access makes an absent page present. -/
def Aspace.Brings (A : Aspace) (v : Nat) (write : Bool) : Prop :=
  A.page v = none ∧ A.Reaches v write

theorem Aspace.WellFormed.region_below {v : Nat} {r : Vma} (h : A.WellFormed)
    (hr : A.region v = some r) : v * 4096 < A.sz := by
  obtain ⟨j, rfl, hu, hv⟩ := regionOf_eq_some hr
  exact hv.2.trans_le (h.inside j hu)

/-- What a completed access to page `v` does to the number of present pages. -/
theorem Fetched.numpp_eq {v : Nat} (h : Fetched A v A') (hw : A.WellFormed) :
    A'.numpp = A.numpp + if A.page v = none then 1 else 0 := by
  by_cases habs : A.page v = none
  · rw [if_pos habs]
    refine h.numpp habs ?_
    cases h with
    | hit hpage => rw [habs] at hpage; cases hpage
    | demand hr => exact hw.region_below hr
    | resolve _ hpage => rw [habs] at hpage; cases hpage
  · rw [if_neg habs]
    exact Aspace.numpp_congr h.same.1 (h.isSome habs)

/-! ### Runs -/

/-- User accesses, `mprotect` and `fork`. -/
def Call.quiet : Call → Bool
  | .load _ | .store _ _ | .mprotect _ _ _ | .fork => true
  | _ => false

theorem Change.still (h : Change A c A') (hq : c.quiet = true) : A.Still A' := by
  cases h with
  | same => exact .refl A
  | touch ht => exact .touches ht
  | mprotect => exact .protect
  | share h => exact .share h
  | mmap | munmap | grow | abandon | shrink | exec => cases hq

section
variable [Layout] {man : Nat → Prop} {s s' : Sys} {i : Fin nproc} {l : Fin nproc × Call}

/-- A call of some process while process `i` is alive; the calls of `i` itself are accesses,
`mprotect` and `fork`. -/
def QuietStep (i : Fin nproc) (s : Sys) (l : Fin nproc × Call) (s' : Sys) : Prop :=
  Alive s i ∧ Alive s l.1 ∧ (l.1 = i → l.2.quiet = true) ∧
    ∃ out, (l.2.run l.1).run s = .ok (out, s')

theorem QuietStep.still (h : SysInv man s) (hs : QuietStep i s l s') (hi : Alive s' i) :
    SysInv man s' ∧ (s.aspace i).Still (s'.aspace i) := by
  obtain ⟨hi0, hl, hq, out, hrun⟩ := hs
  obtain ⟨hinv, hstep⟩ := (run_spec l.2 h hl).of_ok hrun
  refine ⟨hinv, ?_⟩
  by_cases he : l.1 = i
  · rw [he] at hstep
    exact hstep.self.2.still (hq he)
  · rcases hstep.other i (Ne.symm he) hi.live with ⟨-, hsame⟩ | ⟨hnot, -⟩
    · rw [hsame]
      exact .refl _
    · exact absurd hi0.live hnot

theorem quiet_run {ls : List (Fin nproc × Call)} (h : SysInv man s)
    (hrun : Trace (QuietStep i) s ls s') (hi : Alive s' i) :
    SysInv man s' ∧ (s.aspace i).Still (s'.aspace i) := by
  induction hrun with
  | nil s => exact ⟨h, .refl _⟩
  | cons hstep hrest ih =>
    -- the process is alive in between: it is when the next step is taken
    obtain ⟨h1, hstill⟩ := hstep.still h (by
      cases hrest with
      | nil => exact hi
      | cons hnext _ => exact hnext.1)
    obtain ⟨h2, hrest⟩ := ih h1 hi
    exact ⟨h2, hstill.trans hrest⟩

/-! ### Accesses -/

/-- The counts before and after an attempt at an access. `failed` says that an allocation has
failed on the way. -/
structure Counted (A : Aspace) (v : Nat) (write : Bool) (failed : Prop) (A' : Aspace) : Prop where
  numvp : A'.numvp = A.numvp
  first : A.Brings v write → ¬ failed → A'.numpp = A.numpp + 1
  rest : ¬ A.Brings v write ∨ failed → A'.numpp = A.numpp

section
variable {dirs kp : Finset Nat} {k k' : Kmem} {p p' : Proc} {a : Access}

omit [Layout] in
/-- An access to a page that is present brings none in. -/
theorem not_brings_of_present {v : Nat} {write : Bool} (hp : VmasOk p.sz p.vmas)
    (hpres : has (pte k p.pgdir v) .p = true) : ¬ (aspace k p).Brings v write := by
  rintro ⟨habs, hreach⟩
  rw [Aspace.Reaches, habs] at hreach
  obtain ⟨r, hr, -⟩ := hreach
  have hnone : upage k p.pgdir v = none := (upages_of_lt (hp.region_lt hr)).symm.trans habs
  simp [upage, hpres] at hnone

omit [Layout] in
/-- A denied access brings no page in. -/
theorem Denied.not_brings (hp : VmasOk p.sz p.vmas) (hd : Denied p a k) :
    ¬ (aspace k p).Brings (vpn a.va.toNat) a.write := by
  -- otherwise the address is in a region that allows the access
  have hregion : (aspace k p).Brings (vpn a.va.toNat) a.write →
      ∃ r, vmaFind p a.va.toNat = some r ∧ (a.write = true → canWrite r.prot = true) := by
    intro ⟨habs, hreach⟩
    rw [Aspace.Reaches, habs] at hreach
    obtain ⟨r, hr, hcan⟩ := hreach
    exact ⟨r, by rw [hp.vmaFind_eq]; exact hr, hcan⟩
  intro hb
  obtain ⟨r, hfind, hcan⟩ := hregion hb
  cases hd with
  | readOnly hw hro => simp [roFault, hfind, hcan hw] at hro
  | noAccess _ hpres => exact not_brings_of_present hp hpres hb
  | unmapped _ _ hnone => rw [hfind] at hnone; cases hnone

/-- The page of a fault that was handled. -/
theorem Faulted.fetched (h : Inv man dirs kp k) (hd : p.pgdir ∈ dirs) (hp : VmasOk p.sz p.vmas)
    (hf : Faulted man dirs kp p a k k' p') :
    (Fetched (aspace k p) (vpn a.va.toNat) (aspace k' p') ∧ k'.oom = k.oom ∧
      ((aspace k p).page (vpn a.va.toNat) = none → (aspace k p).Brings (vpn a.va.toNat) a.write)) ∨
    (upages k' p.pgdir = upages k p.pgdir ∧
      (¬ (aspace k p).Brings (vpn a.va.toNat) a.write ∨ k'.oom ≠ k.oom)) := by
  cases hf with
  | @demand r hr hw hadd =>
    rw [hp.vmaFind_eq] at hr
    have hv := hp.region_lt hr
    obtain ⟨e, hup, hwe, hu, hcow⟩ := hadd.fresh
    have habs : (aspace k p).page (vpn a.va.toNat) = none := (upages_of_lt hv).trans hadd.absent
    have hA : aspace k' p = (aspace k p).setPage (vpn a.va.toNat) (some (e, fun _ => 0#32)) := by
      simp only [aspace, Aspace.setPage]
      rw [upages_update hv hup fun v' hv' hne => hadd.same _ hd v' hv' fun hc => hne hc.2]
    refine .inl ⟨hA ▸ .demand hr habs hwe hu hcow, hadd.oom, fun _ => ⟨habs, ?_⟩⟩
    rw [Aspace.Reaches, habs]
    exact ⟨r, hr, hw⟩
  | resolve hw hro hc hfree hres =>
    have hv := h.cowPage_user hd (vpn_lt a.va.isLt) hc
    obtain ⟨e, pg, hup, hcow⟩ := cowPage_iff.mp hc
    obtain ⟨e', hup', hwe, hu, hcow'⟩ := hres.page e pg hup
    have hpage : (aspace k p).page (vpn a.va.toNat) = some (e, pg) := (upages_of_lt hv).trans hup
    have hA : aspace k' p = (aspace k p).setPage (vpn a.va.toNat) (some (e', pg)) := by
      simp only [aspace, Aspace.setPage]
      rw [upages_update hv hup' fun v' hv' hne => hres.same _ hd v' hv' fun hc => hne hc.2]
    rw [hp.roFault_eq (k := k)] at hro
    refine .inl ⟨hA ▸ .resolve hro hpage hcow hwe hu hcow', hres.oom, fun habs => ?_⟩
    rw [hpage] at habs
    cases habs
  | deny why heq => exact .inr ⟨by rw [heq], .inl (why.not_brings hp)⟩
  | starve why hinv hsame hoom => exact .inr ⟨upages_congr (hsame _ hd), .inr hoom.ne'⟩

theorem attempt_counted (h : Inv man dirs kp k) (hd : p.pgdir ∈ dirs) (hp : VmasOk p.sz p.vmas)
    (hw : (aspace k p).WellFormed) :
    Ends (attempt p a) k (fun r k' =>
        Counted (aspace k p) (vpn a.va.toNat) a.write (k'.oom ≠ k.oom) (aspace k' r.2))
      (fun e => e = .pageFault ∧ KernelFault p a k) := by
  refine (attempt_spec h hd hp.below).imp ?_
  rintro r k' (⟨hok, rfl, rfl⟩ | ⟨-, hf, -⟩)
  · have hpres : has (pte k' p.pgdir (vpn a.va.toNat)) .p = true := by
      rw [allows, Bool.and_eq_true, Bool.and_eq_true] at hok
      exact hok.1.1
    exact ⟨rfl, fun hb => absurd hb (not_brings_of_present hp hpres), fun _ => rfl⟩
  · obtain ⟨ht, hp'⟩ := hf.touched hd hp h
    have haspace : aspace k' r.2 = spaceAt k' p.pgdir p.sz p.vmas := by
      rcases hp' with he | he <;> rw [he] <;> rfl
    have hstill : (aspace k p).Still (aspace k' r.2) := haspace ▸ .touches ht.touch
    rcases hf.fetched h hd hp with ⟨hfetch, hoom, hbrings⟩ | ⟨hpages, hwhy⟩
    · refine ⟨hstill.numvp, fun hb _ => ?_, fun hno => ?_⟩
      · rw [hfetch.numpp_eq hw, if_pos hb.1]
      · have hpres := hno.elim (fun hb habs => hb (hbrings habs)) fun hfail => absurd hoom hfail
        rw [hfetch.numpp_eq hw, if_neg hpres, Nat.add_zero]
    · refine ⟨hstill.numvp, fun hb hok => (hwhy.elim (· hb) hok).elim, fun _ => ?_⟩
      refine Aspace.numpp_congr hstill.sz fun v => ?_
      rw [haspace]
      exact congrArg (fun f => Option.isSome (f v)) hpages

end

/-- The counts before and after a load or a store by process `i`, which ended with `out`. -/
structure AccessCounted (s : Sys) (i : Fin nproc) (v : Nat) (write : Bool) (out : Out) (s' : Sys) :
    Prop where
  numvp : (s'.aspace i).numvp = (s.aspace i).numvp
  done : out ≠ .killed →
    (s'.aspace i).numpp = (s.aspace i).numpp + if (s.aspace i).page v = none then 1 else 0
  rejected : out = .killed → (s'.aspace i).numpp = (s.aspace i).numpp ∧
    (¬ (s.aspace i).Reaches v write ∨ s.k.freelist.length < 2)

section
variable {va : Word}

theorem Accessed.killed_counted {write : Bool} (hi : (s.pt.proc i).live)
    (h : Accessed man i va write s .killed s') :
    (s'.aspace i).numpp = (s.aspace i).numpp ∧
      (¬ (s.aspace i).Reaches (vpn va.toNat) write ∨ s.k.freelist.length < 2) := by
  cases h with
  | @killed k' hT hwhy hinit hres =>
    refine ⟨?_, hwhy.imp And.right fun hstarved => hstarved.2.short.1⟩
    have hkill : s.pt.SameVm (s.pt.set i (s.pt.proc i).kill) :=
      .set (.of_eq Iff.rfl rfl rfl rfl rfl)
    have hexit := Ptable.sameVm_exit ((hkill i).live.mpr hi)
    have hA := Sys.aspace_congr (s := { s with k := k' }) (hkill.trans hexit) hi
    have hA' : Sys.aspace { s with k := k', pt := (s.pt.set i (s.pt.proc i).kill).exit i } i =
        aspace k' (s.pt.proc i) := hA
    rw [hA']
    exact Aspace.numpp_congr rfl hres

theorem load_counted (h : SysInv man s) (hi : Alive s i) (hk : (s.pt.proc i).killed = false)
    (hw : (s.aspace i).WellFormed) :
    Ends ((Call.load va).run i) s
      (fun out s' => AccessCounted s i (vpn va.toNat) false out s')
      (fun e => e = .initExiting) := by
  refine ((load_ends h hi.live hk).and (run_spec (.load va) h hi)).mono ?_ fun _ hE => hE.1.1
  rintro out s' ⟨hl, -, hstep⟩
  have hnumvp := (hstep.self.2.still rfl).numvp
  cases hl with
  | done hT hoom hfree hreach hf =>
    exact ⟨hnumvp, fun _ => hf.numpp_eq hw, fun hout => by cases hout⟩
  | killed ha => exact ⟨hnumvp, fun hout => absurd rfl hout, fun _ => ha.killed_counted hi.live⟩

theorem store_counted {b : Byte} (h : SysInv man s) (hi : Alive s i)
    (hk : (s.pt.proc i).killed = false) (hw : (s.aspace i).WellFormed) :
    Ends ((Call.store va b).run i) s
      (fun out s' => AccessCounted s i (vpn va.toNat) true out s') (fun e => e = .initExiting) := by
  refine ((store_ends h hi.live hk).and (run_spec (.store va b) h hi)).mono ?_ fun _ hE => hE.1.1
  rintro out s' ⟨hl, -, hstep⟩
  have hnumvp := (hstep.self.2.still rfl).numvp
  cases hl with
  | @done k' A e hT hoom hfree hreach hf hpage hww hu hA =>
    refine ⟨hnumvp, fun _ => ?_, fun hout => by cases hout⟩
    rw [← hf.numpp_eq hw, hA]
    refine Aspace.numpp_congr rfl fun v => ?_
    by_cases hv : v = vpn va.toNat
    · rw [hv, Aspace.setPage_self, hpage]
      rfl
    · rw [Aspace.setPage_of_ne _ _ hv]
  | killed ha => exact ⟨hnumvp, fun hout => absurd rfl hout, fun _ => ha.killed_counted hi.live⟩

end

/-! ### `mmap` and `munmap` -/

/-- A successful `mmap(n)` has placed a region in descriptor `j`. -/
structure Placed (s : Sys) (i : Fin nproc) (n : Word) (a : Int) (j : Fin maxVmas) (s' : Sys) :
    Prop where
  free : ((s.aspace i).vmas j).used = false
  addr : a = (((s.aspace i).sz + 4095) / 4096 * 4096 : Nat)
  length : 0 < n.toInt
  fits : ((s.aspace i).sz + 4095) / 4096 * 4096 + (n.toNat + 4095) / 4096 * 4096 ≤ kernbase
  k : s'.k = s.k
  aspace : s'.aspace i = (s.aspace i).mapped j (((s.aspace i).sz + 4095) / 4096 * 4096)
    ((n.toNat + 4095) / 4096 * 4096)

theorem mmap_placed {n : Word} (h : SysInv man s) (hi : (s.pt.proc i).live) :
    Ends ((Call.mmap n).run i) s
      (fun out s' => ∀ a, out = .ret a → a ≠ -1 → ∃ j, Placed s i n a j s') (fun _ => True) := by
  have hvm := h.pt.vmas i hi
  refine (syscall_ret (Q := fun out s' => ∀ a, out = .ret a → a ≠ -1 → ∃ j, Placed s i n a j s')
    ((ends_map ..).mpr ?_)).mono (fun out s' hQ a ha => (hQ (by rw [ha]; simp)).2 a ha)
    fun _ _ => trivial
  rw [ends_onProc]
  refine .ret fun a ha hne => ?_
  obtain rfl : (sysMmap n (s.pt.proc i)).1 = a := by simpa using ha
  rcases sysMmap_cases (n := n) hvm with
    heq | ⟨j, start, length, hfree, rfl, hpos, hlen, hend, ⟨hn, rfl⟩, heq⟩
  · rw [heq] at hne
    exact absurd rfl hne
  · rw [heq]
    refine ⟨j, hfree, rfl, hn, hend, rfl, ?_⟩
    rw [Sys.aspace, Ptable.set_proc_self]
    rfl

namespace Placed

variable {n : Word} {a : Int} {j : Fin maxVmas} {s1 s2 : Sys}

omit [Layout]

theorem numvp (h : Placed s i n a j s1) :
    (s1.aspace i).numvp = (s.aspace i).numvp + (n.toNat + 4095) / 4096 := by
  rw [h.aspace, Aspace.numvp_mapped h.free rfl (by omega), Nat.mul_div_cancel _ (by decide)]

theorem numpp (h : Placed s i n a j s1) (hbelow : ∀ v, (s.aspace i).Resident v →
    v * 4096 < (s.aspace i).sz) : (s1.aspace i).numpp = (s.aspace i).numpp := by
  rw [h.aspace, Aspace.numpp_mapped rfl hbelow]

theorem find (h : Placed s i n a j s1) (hw : (s.aspace i).WellFormed)
    (hstill : (s1.aspace i).Still (s2.aspace i)) :
    (s2.pt.proc i).findRegion (BitVec.ofInt 32 a) n = some j := by
  have hn := h.length
  have hfits := h.fits
  have hnat := toInt_of_pos hn
  simp only [kernbase] at hfits
  have haddr : (BitVec.ofInt 32 a).toNat = ((s.aspace i).sz + 4095) / 4096 * 4096 := by
    rw [h.addr, BitVec.toNat_ofInt]
    omega
  have hlen : pgroundup n.toNat = (n.toNat + 4095) / 4096 * 4096 := pgroundup_eq (by omega)
  have hw1 : (s1.aspace i).WellFormed := by
    rw [h.aspace]
    exact hw.place rfl (by omega) (by omega) h.fits
  have hw2 := hstill.wellFormed hw1
  obtain ⟨hu, hs, hl⟩ : ((s2.aspace i).vmas j).used = true ∧
      ((s2.aspace i).vmas j).start = (BitVec.ofInt 32 a).toNat ∧
      ((s2.aspace i).vmas j).length = pgroundup n.toNat := by
    obtain ⟨hu, hs, hl⟩ := hstill.vmas j
    rw [hu, hs, hl, h.aspace, haddr, hlen]
    simp [Aspace.mapped]
  have hexact : (s2.pt.proc i).findRegion (BitVec.ofInt 32 a) n =
      vmaFindExact (s2.pt.proc i) (BitVec.ofInt 32 a).toNat (pgroundup n.toNat) := by
    rw [Proc.findRegion, if_neg (by omega), if_neg (by rw [haddr, pgsize]; omega),
      if_neg (by rw [hlen]; omega)]
  rw [hexact]
  cases hfind : vmaFindExact (s2.pt.proc i) (BitVec.ofInt 32 a).toNat (pgroundup n.toNat) with
  | none =>
    have hno := List.find?_eq_none.mp hfind j (List.mem_finRange j)
    refine absurd ?_ hno
    simp only [Bool.and_eq_true, decide_eq_true_eq]
    exact ⟨⟨hu, hs⟩, hl⟩
  | some j' =>
    -- two regions with one start overlap
    obtain ⟨hu', hs', hl'⟩ := vmaFindExact_eq_some hfind
    have hu' : ((s2.aspace i).vmas j').used = true := hu'
    have hs' : ((s2.aspace i).vmas j').start = (BitVec.ofInt 32 a).toNat := hs'
    by_contra hne
    have hne : j' ≠ j := fun he => hne (by rw [he])
    have hpos := (hw2.whole j hu).2.2
    have hpos' := (hw2.whole j' hu').2.2
    rcases hw2.disjoint j' j hne hu' hu with hd | hd <;> omega

end Placed

/-- What `munmap` of the region `[a, a + len)` has done to the process that called it, which had
`total` pages before the region was there. -/
structure Released (s : Sys) (i : Fin nproc) (a : Int) (len total : Nat) (s' : Sys) : Prop where
  numvp : (s'.aspace i).numvp = total
  numpp : (s'.aspace i).numpp + (s.aspace i).residentIn a.toNat (a.toNat + len) =
    (s.aspace i).numpp
  page : ∀ v, ¬ (a.toNat ≤ v * 4096 ∧ v * 4096 < a.toNat + len) →
    (s'.aspace i).page v = (s.aspace i).page v
  other : ∀ j, j ≠ i → (s.pt.proc j).live → s'.aspace j = s.aspace j

theorem munmap_released {n : Word} {a : Int} {j : Fin maxVmas} {s0 s1 : Sys}
    (h : SysInv man s) (hi : Alive s i) (hk : (s.pt.proc i).killed = false)
    (hw : (s0.aspace i).WellFormed) (hp : Placed s0 i n a j s1)
    (hstill : (s1.aspace i).Still (s.aspace i)) :
    Ends ((Call.munmap (BitVec.ofInt 32 a) n).run i) s (fun out s' => out = .ret 0 ∧
      Released s i a ((n.toNat + 4095) / 4096 * 4096) (s0.aspace i).numvp s') := by
  have hl := hi.live
  have hd := hl.dir
  have hvm := h.pt.vmas i hl
  have hends : Ends ((Call.munmap (BitVec.ofInt 32 a) n).run i) s
      (fun out s' => (s'.pt.proc i).killed = false ∧ out = .ret 0 ∧
        s'.aspace i = (s.aspace i).unmapped j ∧ ∀ j', j' ≠ i → s'.pt.proc j' = s.pt.proc j') := by
    refine syscall_alive hk ((ends_map ..).mpr ?_)
    rw [ends_onProc]
    refine (sysMunmap_spec h.mem hd hvm).imp ?_
    intro r k' hr
    rw [hp.find hw hstill] at hr
    obtain ⟨rfl, hun⟩ := hr
    refine ⟨?_, rfl, ?_, fun j' hj' => Ptable.set_proc_of_ne _ _ hj'⟩
    · rw [Ptable.set_proc_self]
      exact hk
    · rw [Sys.aspace, Ptable.set_proc_self]
      simp only [Sys.aspace, aspace, Aspace.unmapped, Aspace.drop, Proc.setVma, hun.upages_eq hd]
      rfl
  refine (hends.and ((run_spec (.munmap _ n) h hi).mono (fun _ _ h' => h') fun _ _ => trivial)).mono
    ?_ fun _ hE => hE.1
  rintro out s' ⟨⟨-, hout, hA, hothers⟩, -, hstep⟩
  have hstart : ((s.aspace i).vmas j).start = a.toNat := by
    rw [(hstill.vmas j).2.1, hp.aspace, hp.addr, Int.toNat_natCast]
    simp [Aspace.mapped]
  have hlen : ((s.aspace i).vmas j).length = (n.toNat + 4095) / 4096 * 4096 := by
    rw [(hstill.vmas j).2.2, hp.aspace]
    simp [Aspace.mapped]
  refine ⟨hout, ?_, ?_, fun v hv => ?_, fun j' hj' hlive => ?_⟩
  · rw [hA]
    rw [hp.aspace] at hstill
    exact Aspace.numvp_unmapped hw hp.free rfl (by omega) hstill
  · rw [hA, ← hstart, ← hlen]
    exact Aspace.numpp_unmapped
  · rw [← hstart, ← hlen] at hv
    rw [hA]
    exact if_neg hv
  · rcases hstep.other j' hj' (by rw [hothers j' hj']; exact hlive) with ⟨-, hsame⟩ | ⟨hnot, -⟩
    · exact hsame
    · exact absurd hlive hnot

/-- The two counts and `mmap`. They are the numbers of owned and of present pages below `sz`. An
access that brings an absent page in adds one to the second, and nothing else about an access
changes either. A successful `mmap(n)` adds the pages of `n` bytes to the first, and takes no
frame. After it, whatever the process does by accesses, `mprotect` and `fork`, and whatever the
others do, `munmap` takes the first count back to where it was, lowers the second by the resident
pages of the region, and leaves every other page alone. -/
theorem page_accounting (h : Runs (fun _ _ => True) s) (hi : Alive s i)
    (hw : (s.aspace i).WellFormed) :
    Ends (vmNumvp (s.pt.proc i)) s.k
      (fun r k' => k' = s.k ∧ r = (s.aspace i).numvp) ∧
    Ends (vmNumpp (s.pt.proc i)) s.k
      (fun r k' => k' = s.k ∧ r = (s.aspace i).numpp) ∧
    (∀ a : Access, Ends (attempt (s.pt.proc i) a) s.k (fun r k' =>
        Counted (s.aspace i) (vpn a.va.toNat) a.write (k'.oom ≠ s.k.oom) (aspace k' r.2))
      (fun e => e = .pageFault ∧ KernelFault (s.pt.proc i) a s.k)) ∧
    ((s.pt.proc i).killed = false → ∀ va b,
      Ends ((Call.load va).run i) s
        (fun out s' => AccessCounted s i (vpn va.toNat) false out s') (fun e => e = .initExiting) ∧
      Ends ((Call.store va b).run i) s
        (fun out s' => AccessCounted s i (vpn va.toNat) true out s')
        (fun e => e = .initExiting)) ∧
    ∀ n a s1, ((Call.mmap n).run i).run s = .ok (.ret a, s1) → a ≠ -1 →
      (s1.aspace i).numvp = (s.aspace i).numvp + (n.toNat + 4095) / 4096 ∧
      (s1.aspace i).numpp = (s.aspace i).numpp ∧
      s1.k.freelist.length = s.k.freelist.length ∧
      ∀ ls s2, Trace (QuietStep i) s1 ls s2 → Alive s2 i → (s2.pt.proc i).killed = false →
        Ends ((Call.munmap (BitVec.ofInt 32 a) n).run i) s2 (fun out s3 => out = .ret 0 ∧
          Released s2 i a ((n.toNat + 4095) / 4096 * 4096) (s.aspace i).numvp s3) := by
  obtain ⟨man, hinv⟩ := h.inv
  have hl := hi.live
  have hd := hl.dir
  have hvm := hinv.pt.vmas i hl
  have hbacked : (s.aspace i).Backed :=
    h.aspace_invariant (fun _ hA => hA.backed) (fun _ _ _ _ hA _ hc => hA.change hc)
      (fun A _ _ => .fork A) hl
  have hbelow : ∀ v, (s.aspace i).Resident v → v * 4096 < (s.aspace i).sz := fun v hv =>
    (hbacked v hv).elim id fun hr => by
      obtain ⟨r, hr⟩ := Option.isSome_iff_exists.mp hr
      exact hw.region_below hr
  refine ⟨vmNumvp_spec hvm, vmNumpp_spec hvm, fun a => attempt_counted hinv.mem hd hvm hw,
    fun hk va b => ⟨load_counted hinv hi hk hw, store_counted hinv hi hk hw⟩,
    fun n a s1 hrun ha => ?_⟩
  obtain ⟨j, hplaced⟩ := (mmap_placed hinv hl).of_ok hrun a rfl ha
  have hinv1 := ((run_spec (.mmap n) hinv hi).of_ok hrun).1
  refine ⟨hplaced.numvp, hplaced.numpp hbelow, by rw [hplaced.k], fun ls s2 hquiet hi2 hk2 => ?_⟩
  obtain ⟨hinv2, hstill⟩ := quiet_run hinv1 hquiet hi2
  exact munmap_released hinv2 hi2 hk2 hw hplaced hstill

end

/-- The first process maps a page, stores to it, and unmaps it. -/
theorem page_accounting_store : let _ : Layout := Layout.sample
    ∃ s s1 s2 s3, Booted s ∧
      ((Call.mmap 4096#32).run initSlot).run s = .ok (.ret 4096, s1) ∧
      ((Call.store 4096#32 7#8).run initSlot).run s1 = .ok (.done, s2) ∧
      ((Call.munmap 4096#32 4096#32).run initSlot).run s2 = .ok (.ret 0, s3) ∧
      (s1.aspace initSlot).numvp = (s.aspace initSlot).numvp + 1 ∧
      (s1.aspace initSlot).numpp = (s.aspace initSlot).numpp ∧
      (s2.aspace initSlot).numpp = (s1.aspace initSlot).numpp + 1 ∧
      Released s2 initSlot 4096 4096 (s.aspace initSlot).numvp s3 := by
  let _ : Layout := Layout.sample
  obtain ⟨s, hb⟩ := sample_boots
  obtain ⟨man, h⟩ := hb.ok
  obtain ⟨s1, hmap, h1⟩ := h.maps
  have hv : vpn (4096#32 : Word).toNat = 1 := by decide
  have hfree := h1.free
  obtain ⟨s2, hstore, hst⟩ := store_through 4096#32 (b := 7#8) h1.inv h1.alive.live
    h1.unkilled (by rw [hv]; exact h1.reaches fun _ => by decide)
    fun hs => absurd hs.short.1 (by omega)
  have hruns1 : Runs KeepsRegions s1 := Runs.call (.start hb) h.alive (.of_ne (by simp)) hmap
  have hfirst := page_accounting (.start hb) h.alive h.space.wellFormed
  have hsecond := page_accounting (hruns1.mono fun _ _ _ => trivial) h1.alive
    (hruns1.good h1.alive.live).wellFormed
  obtain ⟨hnumvp, hnumpp, -, hrelease⟩ := hfirst.2.2.2.2 _ _ _ hmap (by decide)
  have hcount := ((hsecond.2.2.2.1 h1.unkilled _ _).2.of_ok hstore).done (by simp)
  rw [hv, if_pos h1.absent] at hcount
  cases hst with
  | done hT =>
    have hquiet : Trace (QuietStep initSlot) s1 [(initSlot, .store 4096#32 7#8)] _ :=
      .cons ⟨h1.alive, h1.alive, fun _ => rfl, _, hstore⟩ (.nil _)
    obtain ⟨out, s3, hrun, rfl, hrel⟩ := (hrelease _ _ hquiet h1.alive h1.unkilled).exists_ok
    exact ⟨s, s1, _, s3, hb, hmap, hstore, hrun, hnumvp, hnumpp, hcount, hrel⟩

end Xv6
