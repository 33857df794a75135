import Xv6.Aspace.Copyout

/-!
# Xv6.Aspace.Exec

How `exec` ends. The new directory is an `Image` of some size all along: the pages
below the size are present, writable and not shared, and there are no others. So
`allocuvm` finds its pages absent, `loaduvm` finds its pages present, and none of
the panics on the way is reached.

A `Program` is an image with known contents, all for the user but for the guard page. The
segments of the file are written into it one after another, and then the arguments into the
last page: `copyout` refuses the guard page below it, and an argument cannot get past the
guard page without touching it.
-/

namespace Xv6

open Function (update update_self update_of_ne)
open Relation (ReflTransGen)

variable [Layout] {man : Nat → Prop} {dirs kp : Finset Nat} {k k' : Kmem} {d v va sz : Nat}

/-- The pages of a program of `sz` bytes. -/
structure Image (page : Nat → Option Page) (sz : Nat) : Prop where
  present : ∀ v, v * 4096 < sz →
    ∃ e pg, page v = some (e, pg) ∧ has e .w = true ∧ has e .cow = false
  absent : ∀ v, sz ≤ v * 4096 → page v = none

namespace Image

variable {page page' : Nat → Option Page}

section
omit [Layout]

theorem congr_sz {sz' : Nat} (h : Image page sz) (heq : ∀ v, v * 4096 < sz' ↔ v * 4096 < sz) :
    Image page sz' :=
  ⟨fun v hv => h.present v ((heq v).mp hv), fun v hv => h.absent v (by have := heq v; omega)⟩

theorem entry {e : Word} {pg : Nat → Word} (h : Image page sz) (hpage : page v = some (e, pg)) :
    v * 4096 < sz ∧ has e .w = true ∧ has e .cow = false := by
  have hlt : v * 4096 < sz := by
    by_contra hge
    rw [h.absent v (by omega)] at hpage
    exact absurd hpage (by simp)
  obtain ⟨e1, pg1, hp, hf⟩ := h.present v hlt
  rw [hpage, Option.some.injEq, Prod.mk.injEq] at hp
  rw [hp.1]
  exact ⟨hlt, hf⟩

/-- New contents, or flags other than the two that matter, for one page. -/
theorem update {e e' : Word} {pg pg' : Nat → Word} (h : Image page sz)
    (hpage : page v = some (e, pg)) (hw : has e' .w = has e .w) (hcow : has e' .cow = has e .cow) :
    Image (Function.update page v (some (e', pg'))) sz := by
  obtain ⟨hlt, hw1, hcow1⟩ := h.entry hpage
  refine ⟨fun v' hv' => ?_, fun v' hv' => ?_⟩
  · by_cases he : v' = v
    · subst he
      rw [update_self]
      exact ⟨e', pg', rfl, hw.trans hw1, hcow.trans hcow1⟩
    · rw [update_of_ne he]
      exact h.present v' hv'
  · have he : v' ≠ v := by omega
    rw [update_of_ne he]
    exact h.absent v' hv'

/-- Stores of the user leave an image an image, with the same entries. -/
theorem touch {A A' : Aspace} (hA : A.vmas = fun _ => Vma.empty) (h : Image A.page sz)
    (ht : ReflTransGen Touch A A') : A'.vmas = (fun _ => Vma.empty) ∧ Image A'.page sz ∧
      ∀ v, (A'.page v).map Prod.fst = (A.page v).map Prod.fst := by
  induction ht with
  | refl => exact ⟨hA, h, fun _ => rfl⟩
  | tail _ hstep ih =>
    obtain ⟨hv, him, hent⟩ := ih
    cases hstep with
    | demand hr =>
      rw [Aspace.region, hv] at hr
      obtain ⟨i, rfl, hu, -⟩ := regionOf_eq_some hr
      exact absurd hu (by simp [Vma.empty])
    | resolve hro hpage hcow =>
      rw [(him.entry hpage).2.2] at hcow
      exact absurd hcow (by simp)
    | @write v e page page' hpage =>
      refine ⟨hv, him.update hpage rfl rfl, fun w => ?_⟩
      by_cases hw : w = v
      · rw [hw, Aspace.setPage_self, ← hent v, hpage]
        rfl
      · rw [Aspace.setPage_of_ne _ _ hw, hent w]

end

end Image

omit [Layout] in
theorem Image.upage (h : Image (upages k d) sz) (hv : v * 4096 < sz) :
    v < nupages ∧
      ∃ e pg, Xv6.upage k d v = some (e, pg) ∧ has e .w = true ∧ has e .cow = false := by
  obtain ⟨e, pg, hp, hw, hcow⟩ := h.present v hv
  obtain ⟨hlt, hup⟩ := upages_eq_some.mp hp
  exact ⟨hlt, e, pg, hup, hw, hcow⟩

/-! ### Programs -/

/-- A directory without regions. -/
abbrev plain (k : Kmem) (d : Nat) : Aspace := spaceAt k d 0 fun _ => Vma.empty

/-- A program of `sz` bytes in directory `d`, with contents `mem`; only the guard page is not
for the user. -/
structure Program (k : Kmem) (d sz : Nat) (guard : Option Nat) (mem : Nat → Byte) : Prop where
  image : Image (upages k d) sz
  user : ∀ v e pg, upages k d v = some (e, pg) → (has e .u = false ↔ guard = some v)
  bytes : (plain k d).byteAt = mem

section
variable {guard : Option Nat} {mem : Nat → Byte}

theorem Program.write {e : Word} {pg : Nat → Word} {bs : List Byte} (h : Inv man dirs kp k)
    (hd : d ∈ dirs) (hprog : Program k d sz guard mem) (hv : vpn va < nupages)
    (hup : upage k d (vpn va) = some (e, pg)) (hw : has e .w = true)
    (hfit : va % 4096 + bs.length ≤ 4096) :
    Local man dirs kp d k (k.fill (pteFrame e) (putBytes pg (va % 4096) bs)) ∧
      Program (k.fill (pteFrame e) (putBytes pg (va % 4096) bs)) d sz guard
        (overwrite mem va bs) := by
  have hpage : upages k d (vpn va) = some (e, pg) := (upages_of_lt hv).trans hup
  obtain ⟨hinv, hup', hsame⟩ := h.write hd hv hup hw (putBytes pg (va % 4096) bs)
  have hpages := upages_update hv hup' fun v' hv' hne => hsame d hd v' hv' fun hc => hne hc.2
  refine ⟨.of_same hinv hsame (h.apart_write hd hv hup _), ?_, fun w e' pg' he => ?_, ?_⟩
  · rw [hpages]
    exact hprog.image.update hpage rfl rfl
  · rw [hpages] at he
    by_cases hw' : w = vpn va
    · rw [hw', update_self, Option.some.injEq, Prod.mk.injEq] at he
      rw [← he.1, hw']
      exact hprog.user _ _ _ hpage
    · rw [update_of_ne hw'] at he
      exact hprog.user _ _ _ he
  · have hA : plain (k.fill (pteFrame e) (putBytes pg (va % 4096) bs)) d =
        (plain k d).setPage (vpn va) (some (e, putBytes pg (va % 4096) bs)) := by
      rw [plain, spaceAt, hpages]
      rfl
    rw [hA, (Overwritten.page hpage hfit).byteAt, hprog.bytes]

/-! ### `loaduvm` -/

omit [Layout] in
theorem readi_eq_some {file bs : List Byte} {off n : Nat} (h : readi file off n = some bs) :
    off ≤ file.length ∧ bs = (file.drop off).take n := by
  unfold readi at h
  split at h
  · cases h
  · next hno => exact ⟨by omega, (Option.some.inj h).symm⟩

/-- The file has `n` bytes from `off` on, and its size is a `uint`. -/
def InFile (file : List Byte) (off n : Nat) : Prop := off + n ≤ file.length ∧ file.length < 2 ^ 32

omit [Layout] in
theorem InFile.readi {file : List Byte} {off n : Nat} (h : InFile file off n) :
    ∃ bs, Xv6.readi file off n = some bs ∧ bs.length = n := by
  obtain ⟨hin, hlen⟩ := h
  refine ⟨_, if_neg ?_, ?_⟩
  · rw [u32, Nat.mod_eq_of_lt (by omega)]
    omega
  · rw [List.length_take, List.length_drop]
    omega

/-- One round of `loaduvm`: a full page of the file, or the end of the segment. -/
theorem loaduvmPage_spec {addr offset n i : Nat} {file : List Byte} (h : Inv man dirs kp k)
    (hd : d ∈ dirs) (hprog : Program k d sz guard mem) (hsz : sz ≤ kernbase) (hi : addr + i < sz)
    (hmod : (addr + i) % 4096 = 0) (hin : i < n) :
    Ends (loaduvmPage d addr file offset n i) k
      (fun r k' => Local man dirs kp d k k' ∧ k'.freelist = k.freelist ∧ match r with
        | none => ∃ bs, bs.length = min (n - i) 4096 ∧
            bs = (file.drop (u32 (offset + i))).take (min (n - i) 4096) ∧
            Program k' d sz guard (overwrite mem (addr + i) bs)
        | some r => r = -1 ∧ ¬ InFile file offset n) := by
  have hlt : addr + i < 2 ^ 32 := by
    simp only [kernbase] at hsz
    omega
  have hu32 : u32 (addr + i) = addr + i := Nat.mod_eq_of_lt hlt
  have hvpn : vpn (addr + i) * 4096 = addr + i := by
    simp only [vpn, pgsize]
    omega
  have hcount : (if n - i < pgsize then n - i else pgsize) = min (n - i) 4096 := by
    by_cases hlast : n - i < 4096
    · exact (if_pos hlast).trans (by omega)
    · exact (if_neg hlast).trans (by simp only [pgsize]; omega)
  obtain ⟨hv, e, pg, hup, hw, -⟩ := hprog.image.upage (v := vpn (addr + i)) (by omega)
  obtain ⟨hp, hpe, hmem⟩ := upage_eq_some.mp hup
  rw [loaduvmPage, ends_bind, hu32, ends_walkpgdir_false hlt]
  cases hloc : pteLoc k d (vpn (addr + i)) with
  | none =>
    rw [← hpe, pte_of_no_loc hloc] at hp
    exact absurd hp (by simp)
  | some q =>
    have hpte : k.mem q.1 q.2 = e := (pte_of_loc hloc).symm.trans hpe
    dsimp only
    rw [ends_bind, ends_readWord, hpte, hcount]
    have hfile : InFile file offset n → ∃ bs, readi file (u32 (offset + i)) (min (n - i) 4096) =
        some bs ∧ bs.length = min (n - i) 4096 := by
      rintro ⟨hle, hlen⟩
      rw [u32, Nat.mod_eq_of_lt (by omega)]
      exact InFile.readi ⟨by omega, hlen⟩
    cases hread : readi file (u32 (offset + i)) (min (n - i) 4096) with
    | none =>
      refine .ret ⟨.refl h, rfl, rfl, fun hf => ?_⟩
      obtain ⟨_, hsome, -⟩ := hfile hf
      cases hread.symm.trans hsome
    | some bs =>
      obtain ⟨-, hbs⟩ := readi_eq_some hread
      have hlen : bs.length ≤ min (n - i) 4096 := by
        rw [hbs, List.length_take]
        omega
      have hfit : (addr + i) % 4096 + bs.length ≤ 4096 := by omega
      have hres := Program.write h hd hprog hv hup hw hfit
      rw [hmod] at hres
      dsimp only
      rw [ends_bind, ends_modify]
      have hframe : p2v (pteAddr e) = pteFrame e := rfl
      rw [hframe, show k.mem (pteFrame e) = pg from hmem, ends_ite]
      refine ⟨fun hshort => .ret ⟨hres.1, rfl, rfl, fun hf => ?_⟩,
        fun hfull => .ret ⟨hres.1, rfl, bs, not_not.mp hfull, hbs, hres.2⟩⟩
      obtain ⟨cs, hsome, hcs⟩ := hfile hf
      cases hread.symm.trans hsome
      exact hshort hcs

omit [Layout] in
theorem slice_append (file : List Byte) (offset i m : Nat) :
    (file.drop offset).take i ++ (file.drop (offset + i)).take m =
      (file.drop offset).take (i + m) := by
  rw [List.take_add, List.drop_drop]

/-- `loaduvm` copies a part of the file, unless the file is too short for it. Offsets wrap
around only in files of more than 4 GB. -/
theorem loaduvm_spec {addr offset n : Nat} {file : List Byte} (h : Inv man dirs kp k)
    (hd : d ∈ dirs) (hprog : Program k d sz guard mem) (hsz : sz ≤ kernbase) (hn : addr + n ≤ sz)
    (hmod : addr % 4096 = 0) (hoffset : offset < 2 ^ 32) :
    Ends (loaduvm d addr file offset n) k (fun r k' => Local man dirs kp d k k' ∧
      k'.freelist = k.freelist ∧ (r < 0 ∧ ¬ InFile file offset n ∨ r = 0 ∧ ∃ bs, bs.length = n ∧
        Program k' d sz guard (overwrite mem addr bs) ∧
        (file.length < 2 ^ 32 → bs = (file.drop offset).take n))) := by
  have hmod' : ¬ addr % pgsize ≠ 0 := by simpa [pgsize] using hmod
  rw [loaduvm, if_neg hmod']
  refine (ends_forUint _ _ _
    (I := fun i k1 => i % 4096 = 0 ∧ i < n + 4096 ∧ Local man dirs kp d k k1 ∧
      k1.freelist = k.freelist ∧ ∃ bs, bs.length = min i n ∧
        Program k1 d sz guard (overwrite mem addr bs) ∧
        (file.length < 2 ^ 32 → bs = (file.drop offset).take (min i n)))
    (R := fun r k1 => Local man dirs kp d k k1 ∧ k1.freelist = k.freelist ∧ r = -1 ∧
      ¬ InFile file offset n) (E := fun _ => False) ?_ ?_ npages 0 k ?_
    ⟨rfl, by omega, .refl h, rfl, [], by simp, by simpa using hprog, by simp⟩).bind ?_
  · rintro i k1 hi ⟨himod, -, hl, hfree, bs, hlen, hprog1, hbs⟩
    have hmin : min i n = i := by omega
    rw [hmin] at hlen hbs
    refine (loaduvmPage_spec hl.inv hd hprog1 hsz (by omega) (by omega) hi).imp ?_
    rintro r k2 ⟨hl2, hfree2, hr⟩
    cases r with
    | some n => exact ⟨hl.trans hl2, hfree2.trans hfree, hr⟩
    | none =>
      obtain ⟨cs, hcs, hslice, hprog2⟩ := hr
      have hnext : min (i + pgsize) n = i + min (n - i) 4096 := by
        simp only [pgsize]
        omega
      refine ⟨by simp only [pgsize]; omega, by simp only [pgsize]; omega, hl.trans hl2,
        hfree2.trans hfree, bs ++ cs, ?_, ?_, fun hfile => ?_⟩
      · rw [List.length_append, hlen, hcs, hnext]
      · rw [← overwrite_append, hlen]
        exact hprog2
      · -- the pages read so far lie in the file
        have hin : i = 0 ∨ offset + i ≤ file.length := by
          have hl := congrArg List.length (hbs hfile)
          rw [hlen, List.length_take, List.length_drop] at hl
          omega
        have hoff : u32 (offset + i) = offset + i := Nat.mod_eq_of_lt (by omega)
        rw [hslice, hoff, hbs hfile, hnext, slice_append]
  · simp only [kernbase, pgsize] at *
    omega
  · simp only [kernbase, pgsize, npages] at *
    omega
  · intro r k1 hr
    cases r with
    | none =>
      obtain ⟨i, hstop, -, -, hl, hfree, bs, hlen, hprog1, hbs⟩ := hr
      have hmin : min i n = n := by omega
      rw [hmin] at hlen hbs
      exact .ret ⟨hl, hfree, .inr ⟨rfl, bs, hlen, hprog1, hbs⟩⟩
    | some n =>
      obtain ⟨hl, hfree, rfl, hshort⟩ := hr
      exact .ret ⟨hl, hfree, .inl ⟨by decide, hshort⟩⟩

/-! ### Growing a program -/

/-- `allocuvm` on a program: zeros are added, or it fails for want of frames. -/
theorem allocuvm_program {newsz : Nat} (h : Inv man dirs kp k) (hd : d ∈ dirs)
    (hprog : Program k d sz none mem) :
    Ends (allocuvm d sz newsz) k (fun r k' => Local man dirs kp d k k' ∧
      (r = 0 → 0 < newsz → newsz < kernbase →
        k.freelist.length + 2 * (sz / 4096) < 2 * ((newsz + 4095) / 4096)) ∧
      (r ≠ 0 → r = max sz newsz ∧ newsz < kernbase ∧ Program k' d r none mem ∧
        k.freelist.length + 2 * (sz / 4096) ≤ k'.freelist.length + 2 * ((r + 4095) / 4096))) := by
  have him := hprog.image
  refine (allocuvm_spec h hd).mono ?_ ?_
  · rintro r k' (⟨hbig, rfl, rfl⟩ | ⟨hlt, hle, rfl, rfl⟩ | ⟨hlt, hle, rfl, hg⟩ | ⟨-, -, rfl, hab⟩)
    · exact ⟨.refl h, fun _ _ hlt => absurd hbig (by omega), fun hne => absurd rfl hne⟩
    · exact ⟨.refl h, fun _ _ => by omega, fun _ => ⟨by omega, hlt, hprog, by omega⟩⟩
    · -- below the old size nothing changes, and above it there are new pages
      have hold : ∀ v, ¬ (sz ≤ v * 4096 ∧ v * 4096 < r) → upages k' d v = upages k d v :=
        fun v hv => upages_at fun hvn => hg.same d hd v hvn fun hc => hv hc.2
      have hnew : ∀ v, sz ≤ v * 4096 → v * 4096 < r → FreshPage true (upages k' d v) := by
        intro v hlo hhi
        have hvn : v < nupages := by
          have := nupages_eq
          omega
        rw [upages_of_lt hvn]
        exact (hg.fresh v hvn hlo hhi).2
      refine ⟨.of_same hg.inv hg.same hg.apart, fun _ _ => by omega, fun _ => ⟨by omega, hlt,
        ⟨⟨fun v hv => ?_, fun v hv => ?_⟩, fun v e pg he => ?_, ?_⟩, hg.free⟩⟩
      · by_cases hlo : v * 4096 < sz
        · rw [hold v (by omega)]
          exact him.present v hlo
        · obtain ⟨e, he, hw, -, hcow⟩ := hnew v (by omega) hv
          exact ⟨e, _, he, hw, hcow⟩
      · rw [hold v (by omega)]
        exact him.absent v (by omega)
      · by_cases hin : sz ≤ v * 4096 ∧ v * 4096 < r
        · obtain ⟨e', he', -, hu, -⟩ := hnew v hin.1 hin.2
          rw [he, Option.some.injEq, Prod.mk.injEq] at he'
          rw [he'.1, hu]
          simp
        · rw [hold v hin] at he
          exact hprog.user v e pg he
      · rw [← hprog.bytes]
        funext a
        unfold Aspace.byteAt Aspace.contents
        by_cases hin : sz ≤ vpn a * 4096 ∧ vpn a * 4096 < r
        · obtain ⟨e, he, -⟩ := hnew (vpn a) hin.1 hin.2
          rw [show (plain k' d).page (vpn a) = _ from he,
            show (plain k d).page (vpn a) = none from him.absent _ hin.1]
        · rw [show (plain k' d).page (vpn a) = (plain k d).page (vpn a) from hold _ hin]
    · have hshort := hab.short
      exact ⟨.of_same hab.inv hab.same hab.apart, fun _ _ _ => by omega,
        fun hne => absurd rfl hne⟩
  · rintro e ⟨-, -, v, hvn, hlo, -, hne⟩
    rw [← upages_of_lt hvn] at hne
    exact hne (him.absent v hlo)

/-- `clearpteu` makes a page the guard page. -/
theorem clearpteu_spec (h : Inv man dirs kp k) (hd : d ∈ dirs) (hprog : Program k d sz none mem)
    (hsz : sz ≤ kernbase) (hva : va < sz) :
    Ends (clearpteu d va) k
      (fun _ k' => Local man dirs kp d k k' ∧ Program k' d sz (some (vpn va)) mem) := by
  have hlt : va < 2 ^ 32 := by
    simp only [kernbase] at hsz
    omega
  have hpage : vpn va * 4096 < sz := by
    simp only [vpn, pgsize]
    omega
  obtain ⟨hv, e, pg, hup, hw, -⟩ := hprog.image.upage hpage
  have hold : upages k d (vpn va) = some (e, pg) := (upages_of_lt hv).trans hup
  obtain ⟨hp, hpe, -⟩ := upage_eq_some.mp hup
  rw [clearpteu, ends_bind, ends_walkpgdir_false hlt]
  cases hloc : pteLoc k d (vpn va) with
  | none =>
    rw [← hpe, pte_of_no_loc hloc] at hp
    exact absurd hp (by simp)
  | some q =>
    have hpte : k.mem q.1 q.2 = e := (pte_of_loc hloc).symm.trans hpe
    dsimp only
    rw [ends_bind, ends_readWord, hpte, ends_writeWord]
    have hp' : has (e &&& ~~~PteFlag.u.mask) .p = true := by simp [hp]
    have hfr : pteFrame (e &&& ~~~PteFlag.u.mask) = pteFrame e := pteFrame_clear (lowBits_mask _)
    have hsame : ∀ d' ∈ dirs, ∀ v' < nupages, ¬ (d' = d ∧ v' = vpn va) →
        upage (k.store q.1 q.2 (e &&& ~~~PteFlag.u.mask)) d' v' = upage k d' v' :=
      fun d' hd' v' hv' hne => h.upage_store hd (hv.trans nupages_lt) hloc hd' hv' hne
    have hinv : Inv man dirs kp (k.store q.1 q.2 (e &&& ~~~PteFlag.u.mask)) := by
      subst hpe
      exact h.reflag hd hv hloc hp hp' hfr fun _ => h.excl d hd _ hv hp hw
    have hpages := upages_update hv (h.upage_reflag hd hv hloc hup hp' hfr) fun v' hv' hne =>
      hsame d hd v' hv' fun hc => hne hc.2
    refine ⟨.of_same hinv hsame (.pte h.tables hd (hv.trans nupages_lt) hloc), ?_,
      fun w e' pg' he => ?_, ?_⟩
    · rw [hpages]
      exact hprog.image.update hold (by simp) (by simp)
    · rw [hpages] at he
      by_cases hwv : w = vpn va
      · rw [hwv, update_self, Option.some.injEq, Prod.mk.injEq] at he
        rw [← he.1, hwv]
        simp
      · rw [update_of_ne hwv] at he
        refine ⟨fun hf => ?_, fun hc => absurd (Option.some.inj hc).symm hwv⟩
        cases (hprog.user w e' pg' he).mp hf
    · rw [← hprog.bytes]
      funext a
      unfold Aspace.byteAt Aspace.contents
      rw [show (plain (k.store q.1 q.2 (e &&& ~~~PteFlag.u.mask)) d).page = _ from hpages]
      by_cases ha : vpn a = vpn va
      · rw [ha, update_self, show (plain k d).page (vpn va) = _ from hold]
      · rw [update_of_ne ha]
        rfl

/-! ### The program segments -/

omit [Layout] in
theorem foldrLe_lt (bs : List Byte) :
    bs.foldr (fun b acc => b.toNat + 256 * acc) 0 < 256 ^ bs.length := by
  induction bs with
  | nil => simp
  | cons b bs ih =>
    have := b.isLt
    rw [List.foldr_cons, List.length_cons, Nat.pow_succ]
    omega

omit [Layout] in
/-- A field of `n` bytes is below `256 ^ n`. -/
theorem getLe_lt (bs : List Byte) (o n : Nat) : getLe bs o n < 256 ^ n := by
  refine (foldrLe_lt _).trans_le (Nat.pow_le_pow_right (by decide) ?_)
  rw [List.length_take]
  omega

/-- The `n` program headers from offset `off` on. -/
def proghdrs (file : List Byte) : (n off : Nat) → List Proghdr
  | 0, _ => []
  | n + 1, off => Proghdr.ofBytes ((file.drop off).take 32) :: proghdrs file n (u32 (off + 32))

/-- The segments to load. -/
def segments (file : List Byte) (n off : Nat) : List Proghdr :=
  (proghdrs file n off).filter fun ph => ph.type = elfProgLoad

/-- The bytes of a segment that are in the file. -/
def Proghdr.bytes (file : List Byte) (ph : Proghdr) : List Byte :=
  (file.drop ph.off).take ph.filesz

/-- Memory after loading segments one after another. -/
def loadSegments (file : List Byte) (mem : Nat → Byte) (segs : List Proghdr) : Nat → Byte :=
  segs.foldl (fun mem ph => overwrite mem ph.vaddr (ph.bytes file)) mem

/-- A segment lies in the first `sz` bytes of memory. -/
structure Proghdr.Fits (sz : Nat) (ph : Proghdr) : Prop where
  filesz_le : ph.filesz ≤ ph.memsz
  inside : ph.vaddr + ph.memsz ≤ sz

omit [Layout] in
theorem Proghdr.Fits.mono {sz' : Nat} {ph : Proghdr} (h : ph.Fits sz) (hle : sz ≤ sz') :
    ph.Fits sz' := ⟨h.filesz_le, h.inside.trans hle⟩

/-- A segment that `exec` can load, up to the address `top` at most. -/
structure Proghdr.Loadable (file : List Byte) (top : Nat) (ph : Proghdr) : Prop where
  filesz_le : ph.filesz ≤ ph.memsz
  nonempty : 0 < ph.vaddr + ph.memsz
  below : ph.vaddr + ph.memsz ≤ top
  aligned : ph.vaddr % 4096 = 0
  inFile : InFile file ph.off ph.filesz

theorem execSegment_spec {file : List Byte} {ph : Proghdr} (hvaddr : ph.vaddr < 2 ^ 32)
    (hmemsz : ph.memsz < 2 ^ 32) (hoff : ph.off < 2 ^ 32) (h : Inv man dirs kp k) (hd : d ∈ dirs)
    (hprog : Program k d sz none mem) (hsz : sz ≤ kernbase) :
    Ends (execSegment d file ph sz) k (fun r k' => Local man dirs kp d k k' ∧ match r with
      | none => ph.type = elfProgLoad ∧ (∀ top, ph.Loadable file top → top < kernbase →
          k.freelist.length + 2 * (sz / 4096) < 2 * ((top + 4095) / 4096))
      | some sz' => sz' ≤ kernbase ∧
          k.freelist.length + 2 * (sz / 4096) ≤ k'.freelist.length + 2 * (sz' / 4096) + 2 ∧
          ((ph.type ≠ elfProgLoad ∧ sz' = sz ∧ Program k' d sz' none mem) ∨
            (ph.type = elfProgLoad ∧ sz' = max sz (ph.vaddr + ph.memsz) ∧ ph.Fits sz' ∧
              ∃ bs, bs.length = ph.filesz ∧ Program k' d sz' none (overwrite mem ph.vaddr bs) ∧
                (file.length < 2 ^ 32 → bs = ph.bytes file)))) := by
  have hrefl : Local man dirs kp d k k := .refl h
  rw [execSegment, ends_ite]
  refine ⟨fun htype => .ret ⟨hrefl, hsz, by omega, .inl ⟨htype, rfl, hprog⟩⟩, fun htype => ?_⟩
  rw [not_not] at htype
  rw [ends_ite]
  refine ⟨fun hlt => .ret ⟨hrefl, htype, fun _ hload => ?_⟩, fun hfilesz => ?_⟩
  · have := hload.filesz_le
    omega
  rw [ends_ite]
  refine ⟨fun hwrap => .ret ⟨hrefl, htype, fun top hload htop => ?_⟩, fun hwrap => ?_⟩
  · have := hload.below
    simp only [u32, kernbase] at *
    omega
  have hsum : u32 (ph.vaddr + ph.memsz) = ph.vaddr + ph.memsz := by
    simp only [u32] at *
    omega
  rw [ends_bind, hsum]
  refine (allocuvm_program h hd hprog).imp ?_
  rintro sz1 k1 ⟨hl, hshort, hok⟩
  rw [ends_ite]
  refine ⟨fun h0 => .ret ⟨hl, htype, fun top hload htop => ?_⟩, fun hne => ?_⟩
  · have hbelow := hload.below
    have := hshort h0 hload.nonempty (by omega)
    omega
  obtain ⟨hmax, hlt, hprog1, hfree⟩ := hok hne
  rw [ends_ite]
  refine ⟨fun hmod => .ret ⟨hl, htype, fun _ hload => absurd hload.aligned hmod⟩, fun hmod => ?_⟩
  have hsz1 : sz1 ≤ kernbase := by omega
  refine (loaduvm_spec hl.inv hd hprog1 hsz1 (by omega) (by simpa [pgsize] using hmod)
    hoff).bind ?_
  rintro r k2 ⟨hl2, hfree2, hr⟩
  have hl' := hl.trans hl2
  rw [ends_ite]
  refine ⟨fun hneg => .ret ⟨hl', htype, fun _ hload => ?_⟩, fun hpos => .ret ⟨hl', hsz1, ?_, ?_⟩⟩
  · rcases hr with ⟨-, hshort⟩ | ⟨h0, -⟩
    · exact absurd hload.inFile hshort
    · omega
  · rw [hfree2]
    omega
  · exact .inr ⟨htype, hmax, ⟨by omega, by omega⟩, (hr.resolve_left fun hc => hpos hc.1).2⟩

theorem execLoad_spec {file : List Byte} (hd : d ∈ dirs) :
    ∀ (n off sz : Nat) (mem : Nat → Byte) (k : Kmem), Inv man dirs kp k →
      Program k d sz none mem → sz ≤ kernbase →
      Ends (execLoad d file n off sz) k (fun r k' => Local man dirs kp d k k' ∧ match r with
        | none => InFile file off (32 * n) → ∀ top < kernbase,
            (∀ ph ∈ segments file n off, ph.Loadable file top) →
            k.freelist.length + 2 * (sz / 4096) < 2 * ((top + 4095) / 4096) + 2 * n
        | some sz' => sz ≤ sz' ∧ sz' ≤ kernbase ∧
            k.freelist.length + 2 * (sz / 4096) ≤ k'.freelist.length + 2 * (sz' / 4096) + 2 * n ∧
            (∀ top, sz ≤ top → (∀ ph ∈ segments file n off, ph.Loadable file top) → sz' ≤ top) ∧
            (∀ ph ∈ segments file n off, ph.Fits sz') ∧ ∃ mem', Program k' d sz' none mem' ∧
              (file.length < 2 ^ 32 → mem' = loadSegments file mem (segments file n off) ∧
                ∀ ph ∈ segments file n off, (ph.bytes file).length = ph.filesz)) := by
  intro n
  induction n with
  | zero =>
    intro off sz mem k h hprog hsz
    exact .ret ⟨.refl h, le_rfl, hsz, by omega, fun _ hle _ => hle,
      fun ph hph => absurd hph List.not_mem_nil, mem, hprog,
      fun _ => ⟨rfl, fun ph hph => absurd hph List.not_mem_nil⟩⟩
  | succ n ih =>
    intro off sz mem k h hprog hsz
    have hrefl : Local man dirs kp d k k := .refl h
    have hfull : InFile file off (32 * (n + 1)) → InFile file off 32 ∧
        InFile file (u32 (off + 32)) (32 * n) := by
      rintro ⟨hle, hlen⟩
      rw [u32, Nat.mod_eq_of_lt (by omega)]
      exact ⟨⟨by omega, hlen⟩, by omega, hlen⟩
    unfold execLoad
    cases hread : readi file off 32 with
    | none =>
      refine .ret ⟨hrefl, fun hin => ?_⟩
      obtain ⟨_, hsome, -⟩ := (hfull hin).1.readi
      cases hread.symm.trans hsome
    | some bs =>
      obtain ⟨-, hbs⟩ := readi_eq_some hread
      dsimp only
      rw [ends_ite]
      refine ⟨fun hshort => .ret ⟨hrefl, fun hin => ?_⟩, fun _ => ?_⟩
      · obtain ⟨cs, hsome, hcs⟩ := (hfull hin).1.readi
        cases hread.symm.trans hsome
        exact absurd hcs hshort
      have hsegs : segments file (n + 1) off = if (Proghdr.ofBytes bs).type = elfProgLoad
          then Proghdr.ofBytes bs :: segments file n (u32 (off + 32))
          else segments file n (u32 (off + 32)) := by
        rw [segments, proghdrs, ← hbs, List.filter_cons]
        simp only [decide_eq_true_eq]
        rfl
      refine (execSegment_spec (getLe_lt bs 8 4) (getLe_lt bs 20 4) (getLe_lt bs 4 4)
        h hd hprog hsz).bind ?_
      rintro r k1 ⟨hl, hr⟩
      cases r with
      | none =>
        rw [hsegs, if_pos hr.1]
        refine .ret ⟨hl, fun _ top htop hload => ?_⟩
        have := hr.2 top (hload _ List.mem_cons_self) htop
        omega
      | some sz1 =>
        obtain ⟨hsz1, hfree, ⟨htype, rfl, hprog1⟩ |
          ⟨htype, hmax, hfits1, cs, hcs, hprog1, hslice⟩⟩ := hr
        · rw [hsegs, if_neg htype]
          refine (ih _ sz1 _ k1 hl.inv hprog1 hsz1).imp ?_
          rintro (_ | sz') k2 ⟨hl2, hr2⟩
          · refine ⟨hl.trans hl2, fun hin top htop hload => ?_⟩
            have := hr2 (hfull hin).2 top htop hload
            omega
          · obtain ⟨hle, hle', hfree2, hrest⟩ := hr2
            exact ⟨hl.trans hl2, hle, hle', by omega, hrest⟩
        · rw [hsegs, if_pos htype]
          refine (ih _ sz1 _ k1 hl.inv hprog1 hsz1).imp ?_
          rintro (_ | sz') k2 ⟨hl2, hr2⟩
          · refine ⟨hl.trans hl2, fun hin top htop hload => ?_⟩
            have := hr2 (hfull hin).2 top htop fun ph hph => hload ph (List.mem_cons_of_mem _ hph)
            omega
          · obtain ⟨hle, hle', hfree2, htop, hfits, mem', hprog2, hmem⟩ := hr2
            refine ⟨hl.trans hl2, by omega, hle', by omega, fun top hsz hload => ?_,
              fun ph hph => ?_, mem', hprog2, fun hfile => ?_⟩
            · have hbelow := (hload _ List.mem_cons_self).below
              exact htop top (by omega) fun ph hph => hload ph (List.mem_cons_of_mem _ hph)
            · rcases List.mem_cons.mp hph with rfl | hph
              · exact hfits1.mono hle
              · exact hfits ph hph
            · obtain ⟨heq, hlens⟩ := hmem hfile
              rw [hslice hfile] at heq hcs
              refine ⟨heq, fun ph hph => ?_⟩
              rcases List.mem_cons.mp hph with rfl | hph
              · exact hcs
              · exact hlens ph hph

/-! ### The stack -/

variable {p : Proc}

/-- `copyout` to a program that `exec` is building: all of it goes to pages other than the
guard page. What lies in the page above that one is not refused. -/
theorem copyout_program {buf : List Byte} {g : Nat} (h : Inv man dirs kp k) (hd : d ∈ dirs)
    (hp : p.pgdir ≠ d) (hprog : Program k d ((g + 2) * 4096) (some g) mem) (hva : va < 2 ^ 32) :
    Ends (copyout (some p) d va buf) k (fun r k' => Local man dirs kp d k k' ∧
      (r < 0 → (g + 1) * 4096 ≤ va → (g + 2) * 4096 < va + buf.length) ∧
      (¬ r < 0 → Program k' d ((g + 2) * 4096) (some g) (overwrite mem va buf) ∧
        (buf ≠ [] → va + buf.length ≤ kernbase) ∧ ∀ j < buf.length, vpn (va + j) ≠ g)) := by
  have hnone : ∀ v, regionOf (fun _ => Vma.empty) v = none := fun v =>
    regionOf_eq_none.mpr fun _ hu => absurd hu (by simp [Vma.empty])
  have hok : VmasOk 0 (fun _ => Vma.empty) :=
    ⟨Nat.zero_le _, fun _ hu => absurd hu (by simp [Vma.empty])⟩
  have hcur : ∀ va, va % 4096 = 0 →
      copyoutVma (some p) d va = regionOf (fun _ => Vma.empty) (vpn va) := by
    intro va _
    rw [hnone, copyoutVma, if_neg hp]
  refine (copyoutLoop_spec hd hok hcur buf.length va buf k h hva le_rfl).imp ?_
  intro r k' hc
  refine ⟨hc.touched.toLocal, fun hr hlo => ?_, fun hr => ?_⟩
  · obtain ⟨hlt, e, pg, hpage, hw, hcow⟩ := hprog.image.upage (v := g + 1) (by omega)
    have hspace : (plain k d).page (g + 1) = some (e, pg) := (upages_of_lt hlt).trans hpage
    obtain ⟨hpres, hpte, -⟩ := upage_eq_some.mp hpage
    by_contra hhi
    have hpg : ∀ n < buf.length, vpn (va + n) = g + 1 := by
      intro n hn
      simp only [vpn, pgsize]
      omega
    cases hc with
    | done => exact absurd hr (by decide)
    | refused hn _ _ _ hno =>
      rw [hpg _ hn] at hno
      rcases hno with hro | hno
      · rw [Aspace.readOnly, show (plain k d).region _ = none from hnone _] at hro
        cases hro
      · refine hno ?_
        rw [Aspace.Reaches, hspace]
        refine ⟨?_, fun _ => .inl hw⟩
        by_contra hu
        have := (hprog.user _ _ _ hspace).mp (by simpa using hu)
        simp at this
    | @starved _ n hn _ _ hfed =>
      have hva' : vpn va = g + 1 := hpg 0 (by omega)
      refine hfed ((hpg _ hn).trans hva'.symm) ?_
      rw [hva']
      refine ⟨fun habs => ?_, fun hc _ => ?_⟩
      · rw [hpte, hpres] at habs
        cases habs
      · have hcow' := hc.2
        rw [hpte, hcow] at hcow'
        cases hcow'
  cases hc with
  | refused => exact absurd (by decide) hr
  | starved => exact absurd (by decide) hr
  | done hc =>
    obtain ⟨-, him, hent⟩ := Image.touch rfl hprog.image hc.touched.touch
    refine ⟨⟨him, fun v e pg he => ?_, ?_⟩, hc.inside, fun j hj hg => ?_⟩
    · -- the entries are the same
      have hfst := hent v
      rw [show (plain k' d).page v = _ from he] at hfst
      obtain ⟨x, hx, rfl⟩ := Option.map_eq_some_iff.mp hfst.symm
      exact hprog.user v x.1 x.2 hx
    · rw [← hprog.bytes]
      exact hc.written.byteAt
    · have hreach := hc.reach j hj
      unfold Aspace.Reaches at hreach
      split at hreach
      · next e pg hpage =>
          have hu := (hprog.user _ e pg hpage).mpr (by rw [hg])
          rw [hreach.1] at hu
          cases hu
      · obtain ⟨r, hr, -⟩ := hreach
        rw [show (plain k d).region _ = none from hnone _] at hr
        cases hr

omit [Layout] in
/-- Where a push of `n` bytes goes that reached no guard page: right below `sp`, and still above
the guard page. -/
theorem push_above {sp n g : Nat} (hsp : (g + 1) * 4096 ≤ sp) (hn : 0 < n)
    (hin : u32 (sp + 2 ^ 32 - n) / 4 * 4 + n ≤ kernbase)
    (hg : ∀ j < n, vpn (u32 (sp + 2 ^ 32 - n) / 4 * 4 + j) ≠ g) (hle : sp ≤ kernbase) :
    n ≤ sp ∧ u32 (sp + 2 ^ 32 - n) = sp - n ∧ (g + 1) * 4096 ≤ (sp - n) / 4 * 4 := by
  have hnsp : n ≤ sp := by
    simp only [u32, kernbase] at *
    omega
  have heq : u32 (sp + 2 ^ 32 - n) = sp - n := by
    simp only [u32, kernbase] at *
    omega
  refine ⟨hnsp, heq, ?_⟩
  rw [heq] at hg
  by_contra hlow
  -- the lowest byte that is not below the guard page is in it
  refine hg (max ((sp - n) / 4 * 4) (g * 4096) - (sp - n) / 4 * 4) (by omega) ?_
  simp only [vpn, pgsize]
  omega

/-- The strings have been pushed from `sp` down to `sp'`, at the addresses `ptrs`, and none is
below `lo`. -/
inductive Pushed (lo : Nat) (mem : Nat → Byte) :
    (argv : List (List Byte)) → (sp : Nat) → (ptrs : List Nat) → (sp' : Nat) → Prop
  | nil {sp : Nat} : Pushed lo mem [] sp [] sp
  | cons {arg : List Byte} {argv : List (List Byte)} {sp sp' : Nat} {ptrs : List Nat}
      (hle : arg.length + 1 ≤ sp) (hlo : lo ≤ (sp - (arg.length + 1)) / 4 * 4)
      (hstr : ∀ j ≤ arg.length,
        mem ((sp - (arg.length + 1)) / 4 * 4 + j) = (arg ++ [0#8]).getD j 0)
      (hrest : Pushed lo mem argv ((sp - (arg.length + 1)) / 4 * 4) ptrs sp') :
      Pushed lo mem (arg :: argv) sp ((sp - (arg.length + 1)) / 4 * 4 :: ptrs) sp'

section
omit [Layout]

theorem Pushed.bounds {lo sp sp' : Nat} {argv : List (List Byte)} {ptrs : List Nat}
    (h : Pushed lo mem argv sp ptrs sp') (hsp : lo ≤ sp) : lo ≤ sp' ∧ sp' ≤ sp := by
  induction h with
  | nil => exact ⟨hsp, le_rfl⟩
  | cons hle hlo hstr hrest ih =>
    have := ih hlo
    omega

theorem Pushed.congr {mem' : Nat → Byte} {lo sp sp' : Nat} {argv : List (List Byte)}
    {ptrs : List Nat} (h : Pushed lo mem argv sp ptrs sp')
    (heq : ∀ a, sp' ≤ a → a < sp → mem' a = mem a) : Pushed lo mem' argv sp ptrs sp' := by
  induction h with
  | nil => exact .nil
  | cons hle hlo hstr hrest ih =>
    have hb := hrest.bounds hlo
    refine .cons hle hlo (fun j hj => ?_) (ih fun a hlo' hhi => heq a hlo' (by omega))
    rw [heq _ (by omega) (by omega)]
    exact hstr j hj

theorem Pushed.size {lo sp sp' : Nat} {argv : List (List Byte)} {ptrs : List Nat}
    (h : Pushed lo mem argv sp ptrs sp') (hmod : sp % 4 = 0) :
    sp' + (argv.map fun arg => (arg.length + 4) / 4 * 4).sum = sp := by
  induction h with
  | nil => rfl
  | cons hle hlo hstr hrest ih =>
    have := ih (by omega)
    rw [List.map_cons, List.sum_cons]
    omega

end

theorem execArgs_spec {g : Nat} (hd : d ∈ dirs) (hp : p.pgdir ≠ d)
    (hg : (g + 2) * 4096 ≤ kernbase) :
    ∀ (argv : List (List Byte)) (argc sp : Nat) (acc : List Nat) (mem : Nat → Byte) (k : Kmem),
      Inv man dirs kp k → Program k d ((g + 2) * 4096) (some g) mem → (g + 1) * 4096 ≤ sp →
      sp ≤ (g + 2) * 4096 → sp % 4 = 0 →
      Ends (execArgs p d argv argc sp acc) k (fun r k' => Local man dirs kp d k k' ∧ match r with
        | none => argc + argv.length ≤ maxArg →
            sp < (g + 1) * 4096 + (argv.map fun arg => (arg.length + 4) / 4 * 4).sum
        | some (sp', ptrs) => ∃ mem' new, ptrs = acc ++ new ∧
            new.length = argv.length ∧ sp' % 4 = 0 ∧ Program k' d ((g + 2) * 4096) (some g) mem' ∧
            Pushed ((g + 1) * 4096) mem' argv sp new sp' ∧
            ∀ a, sp ≤ a ∨ a < (g + 1) * 4096 → mem' a = mem a) := by
  intro argv
  induction argv with
  | nil =>
    intro argc sp acc mem k h hprog _ _ hmod
    exact .ret ⟨.refl h, mem, [], by simp, rfl, hmod, hprog, .nil, fun _ _ => rfl⟩
  | cons arg rest ih =>
    intro argc sp acc mem k h hprog hlo hhi hmod
    rw [List.map_cons, List.sum_cons, List.length_cons, execArgs, ends_ite]
    refine ⟨fun hmany => .ret ⟨.refl h, fun hfew => absurd hmany (by omega)⟩, fun _ => ?_⟩
    have hsp : u32 (sp + 2 ^ 32 - (arg.length + 1)) / 4 * 4 < 2 ^ 32 := by
      have : u32 (sp + 2 ^ 32 - (arg.length + 1)) < 2 ^ 32 := Nat.mod_lt _ (by decide)
      omega
    have hlen : (arg ++ [0#8]).length = arg.length + 1 := by simp
    dsimp only
    refine (copyout_program h hd hp hprog hsp).bind ?_
    rintro r k1 ⟨hl, hfail, hr⟩
    rw [ends_ite]
    refine ⟨fun hneg => .ret ⟨hl, fun _ => ?_⟩, fun hpos => ?_⟩
    · -- a string for which there is room lies in the stack page
      by_contra hroom
      have := hfail hneg
      rw [hlen] at this
      simp only [u32, kernbase] at *
      omega
    obtain ⟨hprog1, hin, hguard⟩ := hr hpos
    rw [hlen] at hin hguard
    obtain ⟨hle, heq, habove⟩ := push_above hlo (Nat.succ_pos _) (hin (by simp)) hguard
      (hhi.trans hg)
    rw [heq] at hprog1 ⊢
    refine (ih _ _ _ _ k1 hl.inv hprog1 habove (by omega) (by omega)).imp ?_
    rintro (_ | ⟨sp', ptrs⟩) k2 ⟨hl2, hr2⟩
    · refine ⟨hl.trans hl2, fun hfew => ?_⟩
      have := hr2 (by omega)
      omega
    obtain ⟨mem', new, rfl, hnew, hmod', hprog2, hpushed, hframe⟩ := hr2
    refine ⟨hl.trans hl2, mem', (sp - (arg.length + 1)) / 4 * 4 :: new, by simp, by simp [hnew],
      hmod', hprog2, .cons hle habove (fun j hj => ?_) hpushed, fun a ha => ?_⟩
    · rw [hframe _ (.inl (by omega)), overwrite_of_lt (by omega)]
    · rw [hframe a (by omega), overwrite_of_not (by omega)]

/-- How much of the stack the arguments take: every string on a multiple of four bytes, and then
the words. -/
def argSize (argv : List (List Byte)) : Nat :=
  (argv.map fun arg => (arg.length + 4) / 4 * 4).sum + 4 * (argv.length + 4)

/-- The words that `exec` puts at the new stack pointer: a return address that is none, `argc`,
`argv`, and the array that `argv` points to. -/
def argWords (sp : Nat) (argv : List (List Byte)) (ptrs : List Nat) : List Nat :=
  [0xffffffff, argv.length, sp + 12] ++ ptrs ++ [0]

/-- The arguments are on the stack between `lo` and `hi`, and `sp` is the stack pointer. -/
structure ArgBlock (mem : Nat → Byte) (lo hi sp : Nat) (argv : List (List Byte))
    (ptrs : List Nat) : Prop where
  pushed : Pushed lo mem argv hi ptrs (sp + 4 * (argv.length + 4))
  low : lo ≤ sp
  words : ∀ j < 4 * (argv.length + 4),
    mem (sp + j) = ((argWords sp argv ptrs).flatMap putLe).getD j 0

omit [Layout] in
theorem flatMap_putLe_length (ws : List Nat) : (ws.flatMap putLe).length = 4 * ws.length := by
  induction ws with
  | nil => rfl
  | cons w ws ih =>
    rw [List.flatMap_cons, List.length_append, ih, List.length_cons]
    simp only [putLe, List.length_map, List.length_cons, List.length_nil]
    omega

/-- The stack: a guard page and, above it, a page that starts out with the arguments. -/
theorem execStack_spec {argv : List (List Byte)} {g : Nat} (hg : (sz + 4095) / 4096 = g)
    (h : Inv man dirs kp k) (hd : d ∈ dirs) (hp : p.pgdir ≠ d) (hprog : Program k d sz none mem)
    (hsz : sz ≤ kernbase) :
    Ends (execStack p d sz argv) k (fun r k' => Local man dirs kp d k k' ∧ match r with
      | none => (g + 2) * 4096 < kernbase → argv.length ≤ maxArg → argSize argv ≤ 4096 →
          k.freelist.length < 4
      | some (sz', sp) => sz' = (g + 2) * 4096 ∧ sz' ≤ kernbase ∧ ∃ mem' ptrs,
          Program k' d sz' (some g) mem' ∧ (∀ a < (g + 1) * 4096, mem' a = mem a) ∧
          ArgBlock mem' ((g + 1) * 4096) sz' sp argv ptrs) := by
  have hlow : (g + 1) * 4096 ≤ (g + 2) * 4096 ∧ (g + 2) * 4096 % 4 = 0 := by omega
  have hsub : (g + 2) * 4096 - 2 * pgsize < (g + 2) * 4096 := Nat.sub_lt (by omega) (by decide)
  have hround : pgroundup sz = g * 4096 := by
    rw [← hg]
    refine pgroundup_eq ?_
    simp only [kernbase] at hsz
    omega
  have hnew : u32 (g * 4096 + 2 * pgsize) = (g + 2) * 4096 := by
    simp only [u32, pgsize, kernbase] at *
    omega
  have hprog0 : Program k d (g * 4096) none mem :=
    ⟨hprog.image.congr_sz fun v => by omega, hprog.user, hprog.bytes⟩
  rw [execStack, hround, hnew]
  refine (allocuvm_program h hd hprog0).bind ?_
  rintro sz1 k1 ⟨hl, hshort, hok⟩
  rw [ends_ite]
  refine ⟨fun h0 => .ret ⟨hl, fun hfit _ _ => ?_⟩, fun hne => ?_⟩
  · have := hshort h0 (by omega) hfit
    omega
  obtain ⟨hmax, hlt, hprog1, -⟩ := hok hne
  obtain rfl : sz1 = (g + 2) * 4096 := by omega
  have hsz1 : (g + 2) * 4096 ≤ kernbase := hlt.le
  have hvpn : vpn ((g + 2) * 4096 - 2 * pgsize) = g := by
    simp only [vpn, pgsize]
    omega
  refine (clearpteu_spec hl.inv hd hprog1 hsz1 hsub).bind ?_
  rintro - k2 ⟨hl2, hprog2⟩
  rw [hvpn] at hprog2
  refine (execArgs_spec hd hp hsz1 argv 0 _ [] mem k2 hl2.inv hprog2 hlow.1 le_rfl hlow.2).bind ?_
  rintro (_ | ⟨sp, ptrs⟩) k3 ⟨hl3, hr⟩
  · refine .ret ⟨(hl.trans hl2).trans hl3, fun _ hfew hsize => ?_⟩
    have := hr (by omega)
    unfold argSize at hsize
    omega
  have hl' := (hl.trans hl2).trans hl3
  obtain ⟨mem', new, hnew, hlen, hmod, hprog3, hpushed, hframe⟩ := hr
  obtain rfl : ptrs = new := hnew
  have hused := hpushed.size hlow.2
  have hb := hpushed.bounds hlow.1
  dsimp only
  -- the block is a multiple of four bytes, so there is no rounding
  have hfour : u32 (sp + 2 ^ 32 - 4 * (argv.length + 4)) / 4 * 4 =
      u32 (sp + 2 ^ 32 - (3 + argv.length + 1) * 4) := by
    simp only [u32]
    omega
  have hva : u32 (sp + 2 ^ 32 - (3 + argv.length + 1) * 4) < 2 ^ 32 := Nat.mod_lt _ (by decide)
  refine (copyout_program hl3.inv hd hp hprog3 hva).bind ?_
  rintro r k4 ⟨hl4, hfail, hr4⟩
  have hwords : (([0xffffffff, argv.length, u32 (sp + 2 ^ 32 - (argv.length + 1) * 4)] ++ ptrs ++
      [0]).flatMap putLe).length = 4 * (argv.length + 4) := by
    rw [flatMap_putLe_length]
    simp only [List.length_append, List.length_cons, List.length_nil, hlen]
    omega
  rw [ends_ite]
  refine ⟨fun hneg => .ret ⟨hl'.trans hl4, fun _ _ hsize => ?_⟩,
    fun hpos => .ret ⟨hl'.trans hl4, ?_⟩⟩
  · have := hfail hneg
    rw [hwords] at this
    simp only [argSize, u32, kernbase] at *
    omega
  obtain ⟨hprog4, hin, hguard⟩ := hr4 hpos
  rw [hwords] at hguard
  have hin' := hin fun hnil => by
    rw [hnil] at hwords
    simp at hwords
  rw [hwords] at hin'
  rw [← hfour] at hguard hin'
  obtain ⟨hle, heq, habove⟩ := push_above hb.1 (by omega) hin' hguard (by omega)
  rw [← hfour, heq] at hprog4 ⊢
  obtain ⟨sp', rfl⟩ : ∃ sp', sp = sp' + 4 * (argv.length + 4) := ⟨_, (Nat.sub_add_cancel hle).symm⟩
  have hsp' : (sp' + 4 * (argv.length + 4) - 4 * (argv.length + 4)) / 4 * 4 = sp' := by omega
  have hargv : u32 (sp' + 4 * (argv.length + 4) + 2 ^ 32 - (argv.length + 1) * 4) = sp' + 12 := by
    simp only [u32, kernbase] at *
    omega
  rw [hsp'] at hprog4 habove ⊢
  rw [hargv] at hprog4 hwords
  refine ⟨rfl, hsz1, _, ptrs, hprog4, fun a ha => ?_, hpushed.congr fun a hlo _ => ?_, habove,
    fun j hj => overwrite_of_lt (hj.trans_eq hwords.symm)⟩
  · rw [overwrite_of_not (fun hc => by omega), hframe a (.inr ha)]
  · rw [overwrite_of_not (fun hc => by rw [hwords] at hc; omega)]

/-! ### The whole of `exec` -/

/-- The segments that the ELF header names. -/
def elfSegments (file elf : List Byte) : List Proghdr :=
  segments file (getLe elf 44 2) (getLe elf 28 4)

/-- The image of a program: its segments, then page `g` as the guard page, then a page with the
arguments. The offset of a byte in a file is a `uint`. -/
structure NewImage (file elf : List Byte) (argv : List (List Byte)) (k : Kmem)
    (d sz sp g : Nat) (mem : Nat → Byte) (ptrs : List Nat) : Prop where
  size : sz = (g + 2) * 4096
  below : sz ≤ kernbase
  program : Program k d sz (some g) mem
  fits : ∀ ph ∈ elfSegments file elf, ph.Fits (g * 4096)
  loaded : file.length < 2 ^ 32 →
    (∀ ph ∈ elfSegments file elf, (ph.bytes file).length = ph.filesz) ∧
    ∀ a < (g + 1) * 4096, mem a = loadSegments file (fun _ => 0#8) (elfSegments file elf) a
  args : ArgBlock mem ((g + 1) * 4096) sz sp argv ptrs

/-- A file that `exec` can run with these arguments: the headers and segments are in it, the
segments end below `top`, and the arguments fit on the stack. -/
structure Executable (file : List Byte) (argv : List (List Byte)) (top : Nat) : Prop where
  header : InFile file 0 52
  magic : getLe (file.take 52) 0 4 = elfMagic
  table : InFile file (getLe (file.take 52) 28 4) (32 * getLe (file.take 52) 44 2)
  segments : ∀ ph ∈ elfSegments file (file.take 52), ph.Loadable file top
  below : (top + 4095) / 4096 * 4096 + 8192 < kernbase
  args : argv.length ≤ maxArg ∧ argSize argv ≤ 4096

/-- Frames enough for the kernel part, the pages and the page tables of a program. -/
def execFrames (file : List Byte) (top : Nat) : Nat :=
  69 + 2 * getLe (file.take 52) 44 2 + 2 * ((top + 4095) / 4096)

theorem execImage_spec {file elf : List Byte} {argv : List (List Byte)} (h : Inv man dirs kp k)
    (hd : d ∈ dirs) (hp : p.pgdir ≠ d) (hnone : ∀ v < nupages, upage k d v = none) :
    Ends (execImage p d file elf argv) k (fun r k' => Local man dirs kp d k k' ∧ match r with
      | none => elf = file.take 52 → ∀ top, Executable file argv top →
          k.freelist.length + 65 < execFrames file top
      | some (sz, sp) => ∃ g mem ptrs, NewImage file elf argv k' d sz sp g mem ptrs) := by
  have habs : ∀ v, upages k d v = none := by
    intro v
    unfold upages
    split
    · next hv => exact hnone v hv
    · rfl
  have hprog : Program k d 0 none fun _ => 0#8 := by
    refine ⟨⟨fun v hv => absurd hv (by omega), fun v _ => habs v⟩, fun v e pg he => ?_, ?_⟩
    · rw [habs v] at he
      cases he
    · funext a
      unfold Aspace.byteAt Aspace.contents
      rw [show (plain k d).page (vpn a) = none from habs _]
      exact getByte_zero _
  rw [execImage]
  refine (execLoad_spec hd _ _ 0 _ k h hprog (Nat.zero_le _)).bind ?_
  rintro (_ | sz) k1 ⟨hl, hr⟩
  · refine .ret ⟨hl, ?_⟩
    rintro rfl top hx
    have := hr hx.table top (by have := hx.below; omega) hx.segments
    unfold execFrames
    omega
  · obtain ⟨-, hsz, hfree, htop, hfits, mem, hprog1, hload⟩ := hr
    refine (execStack_spec rfl hl.inv hd hp hprog1 hsz).imp ?_
    rintro (_ | ⟨sz', sp⟩) k2 ⟨hl2, hr2⟩
    · refine ⟨hl.trans hl2, ?_⟩
      rintro rfl top hx
      have hle := htop top (Nat.zero_le _) hx.segments
      have := hr2 (by have := hx.below; omega) hx.args.1 hx.args.2
      unfold execFrames
      omega
    · obtain ⟨hsize, hle, mem', ptrs, hprog2, hframe, hargs⟩ := hr2
      refine ⟨hl.trans hl2, _, mem', ptrs, hsize, hle, hprog2,
        fun ph hph => (hfits ph hph).mono (by omega), fun hfile => ?_, hargs⟩
      obtain ⟨hmem, hlens⟩ := hload hfile
      exact ⟨hlens, fun a ha => by rw [hframe a ha, hmem]; rfl⟩

/-- How `exec` ends: it changes nothing, which does not happen to an executable file while there
are frames enough, or replaces the address space by a new image. No frame that was mapped before is
used for it. -/
inductive ExecEnd (man : Nat → Prop) (dirs kp : Finset Nat) (ip : Option (List Byte))
    (path : List Byte) (argv : List (List Byte)) (c : ExecProc) (k : Kmem) :
    Int × ExecProc → Kmem → Prop
  | fail {k' : Kmem} (hinv : Inv man dirs kp k') (hpages : ∀ d ∈ dirs, upages k' d = upages k d)
      (hapart : ∀ d, Apart man dirs d k k')
      (hwhy : ∀ file top, ip = some file → Executable file argv top →
        k.freelist.length < execFrames file top) : ExecEnd man dirs kp ip path argv c k (-1, c) k'
  | done {k' : Kmem} {file elf : List Byte} {d sz sp g : Nat} {mem : Nat → Byte}
      {ptrs : List Nat} (hip : ip = some file) (helf : elf = file.take 52)
      (hmagic : elf.length = 52 ∧ getLe elf 0 4 = elfMagic) (hnew : d ∉ dirs) (hkp : d ∉ kp)
      (hinv : Inv man (insert d (dirs.erase c.proc.pgdir)) kp k')
      (himage : NewImage file elf argv k' d sz sp g mem ptrs)
      (hpages : ∀ d' ∈ dirs.erase c.proc.pgdir, upages k' d' = upages k d')
      (hfresh : ∀ d' ∈ dirs, ∀ v' < nupages, ∀ f, userRef k (d', v') = some f →
        (∀ v < nupages, userRef k' (d, v) ≠ some f) ∧
        f ∉ owned (insert d (dirs.erase c.proc.pgdir)) kp k')
      (hapart : Apart man dirs c.proc.pgdir k k') :
      ExecEnd man dirs kp ip path argv c k
        (0, { proc := { c.proc with pgdir := d, sz := sz, vmas := fun _ => Vma.empty }
              name := (lastElem path path).take 15
              eip := getLe elf 24 4
              esp := sp }) k'

theorem Program.unshared {g : Option Nat} {d' v' f : Nat} (h : Inv man dirs kp k) (hd : d ∈ dirs)
    (hprog : Program k d sz g mem) (hd' : d' ∈ dirs) (hne : d' ≠ d) (hv' : v' < nupages)
    (hf : userRef k (d', v') = some f) (hv : v < nupages) : userRef k (d, v) ≠ some f := by
  intro hr
  obtain ⟨hp, rfl⟩ := refOf_eq_some.mp hr
  have hpage : upages k d v = some (pte k d v, k.mem (pteFrame (pte k d v))) := by
    rw [upages_of_lt hv]
    exact if_pos hp
  have hone := h.excl d hd v hv hp (hprog.image.entry hpage).2.1
  have hsame := h.ledger.unique_ref (mem_userSlots.mpr ⟨hd', hv'⟩) (mem_userSlots.mpr ⟨hd, hv⟩)
    hf hr hone
  exact hne (congrArg Prod.fst hsame)

omit [Layout] in
theorem userRef_congr {v : Nat} (hpages : upages k' d = upages k d) (hv : v < nupages) :
    userRef k' (d, v) = userRef k (d, v) := by
  have heq := congrFun hpages v
  rw [upages_of_lt hv, upages_of_lt hv] at heq
  rw [userRef_eq_upage, userRef_eq_upage, heq]

omit [Layout] in
theorem Program.congr {g : Option Nat} (h : Program k d sz g mem)
    (hpages : upages k' d = upages k d) : Program k' d sz g mem := by
  refine ⟨hpages ▸ h.image, fun v e pg he => h.user v e pg (hpages ▸ he), ?_⟩
  rw [← h.bytes, plain, spaceAt, hpages]
  rfl

theorem exec_spec {ip : Option (List Byte)} {path : List Byte} {argv : List (List Byte)}
    {c : ExecProc} (h : Inv man dirs kp k) (hd : c.proc.pgdir ∈ dirs) :
    Ends (exec ip path argv c) k (ExecEnd man dirs kp ip path argv c k) := by
  have hsame : (∀ file top, ip = some file → ¬ Executable file argv top) →
      ExecEnd man dirs kp ip path argv c k (-1, c) k := fun hno =>
    .fail h (fun _ _ => rfl) (fun _ => .refl k) fun file top hip hx => absurd hx (hno file top hip)
  unfold exec
  cases ip with
  | none => exact .ret (hsame nofun)
  | some file =>
    dsimp only
    cases hread : readi file 0 52 with
    | none =>
      refine .ret (hsame ?_)
      rintro _ top ⟨⟩ hx
      obtain ⟨_, hsome, -⟩ := hx.header.readi
      cases hread.symm.trans hsome
    | some elf =>
      obtain ⟨-, helf⟩ := readi_eq_some hread
      rw [List.drop_zero] at helf
      dsimp only
      rw [ends_ite]
      refine ⟨fun hbad => .ret (hsame ?_), fun hmagic => ?_⟩
      · rintro _ top ⟨⟩ hx
        obtain ⟨_, hsome, hlen⟩ := hx.header.readi
        cases hread.symm.trans hsome
        exact hbad.elim (fun hne => hne hlen) fun hne => hne (helf ▸ hx.magic)
      rw [not_or, not_not, not_not] at hmagic
      refine (setupkvm_spec h).bind ?_
      intro r k1 hr
      cases r with
      | none =>
        obtain ⟨hinv, hup, -, hfew, hapart⟩ := hr
        exact .ret (.fail hinv (fun d hd => upages_congr (hup d hd)) hapart fun _ _ _ _ => by
          unfold execFrames
          omega)
      | some d =>
        obtain ⟨hnew, hkp, hinv, hup, hnone, -, hfree, -, hapart⟩ := hr
        have hne : c.proc.pgdir ≠ d := by rintro rfl; exact hnew hd
        have hmem : d ∈ insert d dirs := Finset.mem_insert_self d dirs
        have hold : ∀ d' ∈ dirs, d' ≠ d := by rintro d' hd' rfl; exact hnew hd'
        dsimp only
        refine (execImage_spec hinv hmem hne hnone).bind ?_
        rintro r k2 ⟨hl, hr⟩
        -- what the other directories look like from here on
        have hothers : ∀ d' ∈ dirs, upages k2 d' = upages k d' := fun d' hd' =>
          (hl.others d' (Finset.mem_insert_of_mem hd') (hold d' hd')).trans
            (upages_congr (hup d' hd'))
        have hapart2 : ∀ c, Apart man dirs c k k2 := fun c =>
          (hapart c).trans (hl.apart.mono fun d' hd' _ =>
            ⟨Finset.mem_insert_of_mem hd', hold d' hd'⟩)
        rcases r with - | ⟨sz, sp⟩
        · dsimp only
          refine (freevm_spec hl.inv hmem).bind ?_
          rintro - k3 ⟨hinv3, hup3, -, -, hapart3⟩
          rw [Finset.erase_insert hnew] at hinv3 hup3
          refine .ret (.fail hinv3 (fun d' hd' =>
            (upages_congr (hup3 d' hd')).trans (hothers d' hd')) (fun c =>
              (hapart2 c).trans (hapart3.mono fun d' hd' _ =>
                ⟨Finset.mem_insert_of_mem hd', hold d' hd'⟩)) ?_)
          rintro _ top ⟨⟩ hx
          have := hr helf top hx
          omega
        · obtain ⟨g, mem, ptrs, him⟩ := hr
          dsimp only
          refine (freevm_spec hl.inv (Finset.mem_insert_of_mem hd)).bind ?_
          rintro - k3 ⟨hinv3, hup3, -, -, hapart3⟩
          rw [Finset.erase_insert_of_ne hne.symm] at hinv3 hup3
          have hpages : ∀ d' ∈ insert d (dirs.erase c.proc.pgdir),
              upages k3 d' = upages k2 d' := fun d' hd' => upages_congr (hup3 d' hd')
          have hself := hpages d (Finset.mem_insert_self _ _)
          refine .ret (.done rfl helf hmagic hnew hkp hinv3
            ⟨him.size, him.below, him.program.congr hself, him.fits, him.loaded, him.args⟩
            (fun d' hd' => ?_) (fun d' hd' v' hv' f hf => ?_)
            ((hapart2 _).trans (hapart3.mono fun d' hd' hne' =>
              ⟨Finset.mem_insert_of_mem hd', hne'⟩)))
          · exact (hpages d' (Finset.mem_insert_of_mem hd')).trans
              (hothers d' (Finset.mem_of_mem_erase hd'))
          · -- before the old directory is freed, `d'` still maps `f`
            have hd2 : d' ∈ insert d dirs := Finset.mem_insert_of_mem hd'
            have hf2 : userRef k2 (d', v') = some f :=
              (userRef_congr (hothers d' hd') hv').trans hf
            refine ⟨fun v hv => ?_, fun ho => ?_⟩
            · rw [userRef_congr hself hv]
              exact him.program.unshared hl.inv hmem hd2 (hold d' hd') hv' hf2 hv
            · refine (hl.inv.ledger.ref_man _ (mem_userSlots.mpr ⟨hd2, hv'⟩) f hf2).2 ?_
              rcases mem_owned.mp ho with hk | ht
              · exact mem_owned.mpr (.inl hk)
              · refine mem_owned.mpr (.inr ?_)
                have hdirs : ∀ d1 ∈ insert d (dirs.erase c.proc.pgdir),
                    d1 ∈ insert d dirs ∧ k3.mem d1 = k2.mem d1 := by
                  intro d1 hd1
                  have hsub : d1 ∈ insert d dirs :=
                    Finset.insert_subset_insert d (Finset.erase_subset _ _) hd1
                  refine ⟨hsub, hapart3.dir d1 hsub ?_⟩
                  rintro rfl
                  rcases Finset.mem_insert.mp hd1 with he | he
                  · exact hne he
                  · exact Finset.notMem_erase _ _ he
                rw [tabFrames_congr fun d1 hd1 => (hdirs d1 hd1).2] at ht
                exact tabFrames_mono (fun d1 hd1 => (hdirs d1 hd1).1) ht

end

end Xv6
