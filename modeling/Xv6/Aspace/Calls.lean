import Xv6.Aspace.Exec

/-!
# Xv6.Aspace.Calls

The memory system calls and the single access of one process, as changes of its
address space. `Moved` is the common shape of these results: memory stays
well-formed, the other address spaces stay as they are, and the caller's is
changed in one of the ways that `Change` lists for the call.
-/

namespace Xv6

open Function (update)

variable [Layout] {man : Nat → Prop} {dirs kp : Finset Nat} {k k' : Kmem} {p p' : Proc}

/-- Process `p` has become `p'` by the call `c`. -/
structure Moved (man : Nat → Prop) (dirs kp : Finset Nat) (c : Call) (k : Kmem) (p : Proc)
    (k' : Kmem) (p' : Proc) : Prop where
  toLocal : Local man dirs kp p.pgdir k k'
  pgdir : p'.pgdir = p.pgdir
  kstack : p'.kstack = p.kstack
  state : p'.state = p.state
  vmas : VmasOk p'.sz p'.vmas
  change : Change (aspace k p) c (aspace k' p')

theorem Moved.same {c : Call} (h : Inv man dirs kp k) (hp : VmasOk p.sz p.vmas) :
    Moved man dirs kp c k p k p :=
  ⟨.refl h, rfl, rfl, rfl, hp, .same⟩

theorem Moved.of_touched {c : Call} (hp : VmasOk p.sz p.vmas)
    (h : Touched man dirs kp p.pgdir p.sz p.vmas k k') : Moved man dirs kp c k p k' p :=
  ⟨h.toLocal, rfl, rfl, rfl, hp, .touch h.touch⟩

/-! ### `mmap`, `munmap`, `mprotect` -/

section
omit [Layout]

theorem toInt_of_pos {n : Word} (h : 0 < n.toInt) : n.toInt = n.toNat := by
  rw [BitVec.toInt_eq_toNat_cond] at h ⊢
  have := n.isLt
  split at h
  · next hlt => rw [if_pos hlt]
  · omega

theorem toNat_of_pos {n : Word} (h : 0 < n.toInt) : n.toNat < 2 ^ 31 ∧ 0 < n.toNat := by
  rw [BitVec.toInt_eq_toNat_cond] at h
  have := n.isLt
  split at h <;> omega

theorem pgroundup_pos {n : Word} (h : 0 < n.toInt) :
    pgroundup n.toNat = (n.toNat + 4095) / 4096 * 4096 := by
  have := toNat_of_pos h
  exact pgroundup_eq (by omega)

theorem VmasOk.pgroundup_sz {sz : Nat} {vmas : Fin maxVmas → Vma} (h : VmasOk sz vmas) :
    pgroundup sz = (sz + 4095) / 4096 * 4096 := by
  have := h.sz_le
  refine pgroundup_eq ?_
  simp only [kernbase] at this
  omega

theorem VmasOk.update {sz sz' : Nat} {vmas : Fin maxVmas → Vma} (h : VmasOk sz vmas)
    {i : Fin maxVmas} {r : Vma} (hsz : sz' ≤ kernbase) (hr : r.used = true → r.Ok) :
    VmasOk sz' (Function.update vmas i r) := by
  refine ⟨hsz, fun j hj => ?_⟩
  by_cases he : j = i
  · subst he
    rw [Function.update_self] at hj ⊢
    exact hr hj
  · rw [Function.update_of_ne he] at hj ⊢
    exact h.vma j hj

theorem vmaFree_eq_some {i : Fin maxVmas} (h : vmaFree p = some i) : (p.vmas i).used = false := by
  simpa using List.find?_some h

/-- `mmap` fails, or reserves whole pages from the first page boundary after `sz`. -/
theorem sysMmap_cases {n : Word} (hp : VmasOk p.sz p.vmas) :
    sysMmap n p = (-1, p) ∨ ∃ i, ∃ start length : Nat, (p.vmas i).used = false ∧
      start = (p.sz + 4095) / 4096 * 4096 ∧ 0 < length ∧ length % 4096 = 0 ∧
      start + length ≤ kernbase ∧ (0 < n.toInt ∧ length = (n.toNat + 4095) / 4096 * 4096) ∧
      sysMmap n p = ((start : Int),
        { p with
          vmas := update p.vmas i ⟨start, length, protRead ||| protWrite, true⟩
          sz := start + length }) := by
  unfold sysMmap
  split
  · exact .inl rfl
  next hn =>
  dsimp only
  have hlen := pgroundup_pos (n := n) (by omega)
  rw [hlen, hp.pgroundup_sz]
  split
  · exact .inl rfl
  next hl =>
  split
  · exact .inl rfl
  next hs =>
  split
  · exact .inl rfl
  next i hi =>
  rw [not_or] at hl hs
  refine .inr ⟨i, _, _, vmaFree_eq_some hi, rfl, Nat.pos_of_ne_zero hl.1, by omega, by omega,
    ⟨by omega, rfl⟩, ?_⟩
  have hfit : u32 ((p.sz + 4095) / 4096 * 4096 + (n.toNat + 4095) / 4096 * 4096) =
      (p.sz + 4095) / 4096 * 4096 + (n.toNat + 4095) / 4096 * 4096 := by
    refine Nat.mod_eq_of_lt ?_
    simp only [kernbase] at *
    omega
  rw [hfit]
  rfl

end

theorem sysMmap_moved {n : Word} (h : Inv man dirs kp k) (hp : VmasOk p.sz p.vmas) :
    Moved man dirs kp (.mmap n) k p k (sysMmap n p).2 := by
  rcases sysMmap_cases (n := n) hp with
    heq | ⟨i, start, length, hfree, hstart, hpos, hlen, hend, -, heq⟩
  · rw [heq]
    exact .same h hp
  · rw [heq]
    refine ⟨.refl h, rfl, rfl, rfl, hp.update hend fun _ => ⟨?_, hlen, hpos, hend⟩, ?_⟩
    · show start % 4096 = 0
      omega
    · exact .mmap hfree hstart hpos hlen hend

omit [Layout] in
/-- The pages a range loop visits are the pages of the region. -/
theorem Vma.Ok.holds_iff {r : Vma} (h : r.Ok) (v : Nat) :
    r.holds v ↔ vpn r.start ≤ v ∧ v * 4096 + r.start % 4096 < r.start + r.length := by
  have := h.start_aligned
  simp only [Vma.holds, vpn, pgsize]
  omega

theorem Unmapped.upages_eq {d : Nat} {P : Nat → Prop} [DecidablePred P] (hd : d ∈ dirs)
    (h : Unmapped man dirs kp d P k k') :
    upages k' d = fun v => if P v then none else upages k d v :=
  upages_drop h.gone fun v hv hP => h.same d hd v hv fun hc => hP hc.2

/-- The region `munmap` and `mprotect` work on, if the arguments are accepted. -/
def Proc.findRegion (p : Proc) (addr n : Word) : Option (Fin maxVmas) :=
  if n.toInt ≤ 0 then none
  else if addr.toNat % pgsize ≠ 0 then none
  else if pgroundup n.toNat = 0 then none
  else vmaFindExact p addr.toNat (pgroundup n.toNat)

omit [Layout] in
theorem Proc.findRegion_eq_some {addr n : Word} {i : Fin maxVmas}
    (h : p.findRegion addr n = some i) :
    (p.vmas i).used = true ∧ (p.vmas i).start = addr.toNat ∧
      (p.vmas i).length = pgroundup n.toNat := by
  unfold Proc.findRegion at h
  split at h
  · exact absurd h (by simp)
  split at h
  · exact absurd h (by simp)
  split at h
  · exact absurd h (by simp)
  exact vmaFindExact_eq_some h

section
variable (h : Inv man dirs kp k) (hd : p.pgdir ∈ dirs) (hp : VmasOk p.sz p.vmas)
include h hd hp

/-- `munmap` releases the pages of the region, or nothing. -/
theorem sysMunmap_spec {addr n : Word} :
    Ends (sysMunmap addr n p) k (fun r k' => match p.findRegion addr n with
      | none => r = (-1, p) ∧ k' = k
      | some i => r = (0, p.setVma i Vma.empty) ∧
          Unmapped man dirs kp p.pgdir (p.vmas i).holds k k') := by
  unfold sysMunmap Proc.findRegion
  split
  · exact .ret ⟨rfl, rfl⟩
  split
  · exact .ret ⟨rfl, rfl⟩
  split
  · exact .ret ⟨rfl, rfl⟩
  cases hi : vmaFindExact p addr.toNat (pgroundup n.toNat) with
  | none => exact .ret ⟨rfl, rfl⟩
  | some i =>
    have hr := hp.vma i (vmaFindExact_eq_some hi).1
    dsimp only
    refine (vmUnmapRange_spec h hd hr.below).bind ?_
    rintro ret k1 ⟨rfl, hun⟩
    rw [if_neg (by decide)]
    exact .ret ⟨rfl, hun.congr fun v _ => hr.holds_iff v⟩

theorem sysMunmap_moved {addr n : Word} :
    Ends (sysMunmap addr n p) k (fun r k' => Moved man dirs kp (.munmap addr n) k p k' r.2) := by
  refine (sysMunmap_spec h hd hp).imp ?_
  intro r k' hr
  cases hi : p.findRegion addr n with
  | none =>
    rw [hi] at hr
    obtain ⟨rfl, rfl⟩ := hr
    exact .same h hp
  | some i =>
    rw [hi] at hr
    obtain ⟨rfl, hun⟩ := hr
    obtain ⟨hu, hstart, hlen⟩ := Proc.findRegion_eq_some hi
    refine ⟨.of_same hun.inv hun.same hun.apart, rfl, rfl, rfl,
      hp.update hp.sz_le fun hc => absurd hc (by simp [Vma.empty]), ?_⟩
    have hA : aspace k' (p.setVma i Vma.empty) =
        { (aspace k p).drop (p.vmas i).holds with vmas := update p.vmas i Vma.empty } := by
      simp [aspace, Aspace.drop, Proc.setVma, hun.upages_eq hd]
    rw [hA]
    exact .munmap hu hstart hlen

/-- `mprotect` rewrites the entries of the region's pages, or nothing. -/
theorem sysMprotect_spec {addr n prot : Word} :
    Ends (sysMprotect addr n prot p) k (fun r k' =>
      if prot ≠ protRead ∧ prot ≠ protRead ||| protWrite then r = (-1, p) ∧ k' = k
      else match p.findRegion addr n with
        | none => r = (-1, p) ∧ k' = k
        | some i => r = (0, p.setVma i { p.vmas i with prot := prot }) ∧
            Protected man dirs kp p.pgdir prot (p.vmas i).holds k k') := by
  unfold sysMprotect Proc.findRegion
  split
  · exact .ret (by split <;> exact ⟨rfl, rfl⟩)
  split
  · exact .ret ⟨rfl, rfl⟩
  split
  · exact .ret ⟨rfl, rfl⟩
  split
  · exact .ret ⟨rfl, rfl⟩
  cases hi : vmaFindExact p addr.toNat (pgroundup n.toNat) with
  | none => exact .ret ⟨rfl, rfl⟩
  | some i =>
    have hr := hp.vma i (vmaFindExact_eq_some hi).1
    dsimp only
    refine (vmProtectRange_spec h hd hr.below).bind ?_
    rintro ret k1 ⟨rfl, hpr⟩
    rw [if_neg (by decide)]
    exact .ret ⟨rfl, hpr.congr fun v _ => hr.holds_iff v⟩

end

/-- The pages of a directory after some of them were given a protection; `refs` are
the reference counts of their frames. -/
theorem Protected.upages_eq {d : Nat} {prot : Word} {P : Nat → Prop} [DecidablePred P]
    (hd : d ∈ dirs) (h : Protected man dirs kp d prot P k k') :
    ∃ refs : Nat → Nat, upages k' d = fun v =>
      if P v then (upages k d v).map fun x => (protEntry (refs v) prot x.1, x.2)
      else upages k d v := by
  refine ⟨fun v => k.refcnt (pteFrame (pte k d v)), funext fun v => ?_⟩
  by_cases hv : v < nupages
  · rw [upages_of_lt hv, upages_of_lt hv]
    split
    · next hP =>
        rw [h.changed v hv hP]
        cases hup : upage k d v with
        | none => rfl
        | some x =>
          obtain ⟨-, hpte, -⟩ := upage_eq_some.mp (show upage k d v = some (x.1, x.2) from hup)
          simp [hpte]
    · next hP => exact h.same d hd v hv fun hc => hP hc.2
  · rw [upages_of_ge (by omega), upages_of_ge (by omega)]
    split <;> rfl

theorem sysMprotect_moved {addr n prot : Word} (h : Inv man dirs kp k) (hd : p.pgdir ∈ dirs)
    (hp : VmasOk p.sz p.vmas) :
    Ends (sysMprotect addr n prot p) k (fun r k' =>
      Moved man dirs kp (.mprotect addr n prot) k p k' r.2) := by
  refine (sysMprotect_spec h hd hp).imp ?_
  intro r k' hr
  split at hr
  · obtain ⟨rfl, rfl⟩ := hr
    exact .same h hp
  cases hi : p.findRegion addr n with
  | none =>
    rw [hi] at hr
    obtain ⟨rfl, rfl⟩ := hr
    exact .same h hp
  | some i =>
    rw [hi] at hr
    obtain ⟨rfl, hpr⟩ := hr
    obtain ⟨hu, -, -⟩ := Proc.findRegion_eq_some hi
    obtain ⟨refs, hpages⟩ := hpr.upages_eq hd
    have hok := hp.vma i hu
    refine ⟨.of_same hpr.inv hpr.same hpr.apart, rfl, rfl, rfl,
      hp.update hp.sz_le fun _ => ⟨hok.1, hok.2, hok.3, hok.4⟩, ?_⟩
    have hA : aspace k' (p.setVma i { p.vmas i with prot := prot }) =
        { aspace k p with
          vmas := update p.vmas i { p.vmas i with prot := prot }
          page := fun v =>
            if (p.vmas i).holds v then
              (upages k p.pgdir v).map fun x => (protEntry (refs v) prot x.1, x.2)
            else upages k p.pgdir v } := by
      simp [aspace, Proc.setVma, hpages]
    rw [hA]
    exact .mprotect hu

/-! ### `sbrk` -/

omit [Layout] in
theorem u32_grow {sz : Nat} {n : Word} (hsz : sz ≤ kernbase) (hn : 0 < n.toInt) :
    u32 (sz + n.toNat) = sz + n.toNat := by
  have := toNat_of_pos hn
  refine Nat.mod_eq_of_lt ?_
  simp only [kernbase] at hsz
  omega

/-- How growing by a positive amount ends: too much, done with the value `ret`, or given up
for want of memory. -/
def GrowEnd (man : Nat → Prop) (dirs kp : Finset Nat) (n : Word) (p : Proc) (k : Kmem) (ret : Int)
    (r : Int × Proc) (k' : Kmem) : Prop :=
  (kernbase ≤ p.sz + n.toNat ∧ r = (-1, p) ∧ k' = k) ∨
  (p.sz + n.toNat < kernbase ∧ r = (ret, { p with sz := p.sz + n.toNat }) ∧
    Grown man dirs kp p.pgdir p.sz (p.sz + n.toNat) k k') ∨
  (p.sz + n.toNat < kernbase ∧ r = (-1, p) ∧
    Abandoned man dirs kp p.pgdir p.sz (p.sz + n.toNat) k k')

section
variable {n : Word} (h : Inv man dirs kp k) (hd : p.pgdir ∈ dirs) (hp : VmasOk p.sz p.vmas)
  (hn : 0 < n.toInt)
include h hd hp hn

/-- `growproc` by a positive amount panics only if a page beyond `sz` is present. -/
theorem growproc_pos :
    Ends (growproc n p) k (GrowEnd man dirs kp n p k 0)
      (fun e => e = .remap ∧ p.sz + n.toNat < kernbase ∧
        ∃ v, p.sz ≤ v * 4096 ∧ v * 4096 < p.sz + n.toNat ∧ upages k p.pgdir v ≠ none) := by
  have hpos := (toNat_of_pos hn).2
  rw [growproc, if_pos hn, u32_grow hp.sz_le hn, ends_bind]
  refine (allocuvm_spec h hd).mono ?_ ?_
  · rintro r k' (⟨hbig, rfl, rfl⟩ | ⟨-, hlt, -⟩ | ⟨hfit, -, rfl, hg⟩ | ⟨hfit, -, rfl, hab⟩)
    · rw [if_pos rfl]
      exact .ret (.inl ⟨hbig, rfl, rfl⟩)
    · exact absurd hlt (by omega)
    · rw [if_neg (by omega)]
      exact .ret (.inr (.inl ⟨hfit, rfl, hg⟩))
    · rw [if_pos rfl]
      exact .ret (.inr (.inr ⟨hfit, rfl, hab⟩))
  · rintro e ⟨rfl, hfit, v, hv, hlo, hhi, hne⟩
    exact ⟨rfl, hfit, v, hlo, hhi, by rwa [upages_of_lt hv]⟩

theorem sysSbrk_pos :
    Ends (sysSbrk n p) k (GrowEnd man dirs kp n p k p.sz)
      (fun e => e = .remap ∧
        ∃ v, p.sz ≤ v * 4096 ∧ v * 4096 < p.sz + n.toNat ∧ upages k p.pgdir v ≠ none) := by
  rw [sysSbrk, ends_bind]
  refine (growproc_pos h hd hp hn).mono ?_ (fun _ hE => ⟨hE.1, hE.2.2⟩)
  rintro r k' (⟨hbig, rfl, rfl⟩ | ⟨hfit, rfl, hg⟩ | ⟨hfit, rfl, hab⟩)
  · exact .ret (.inl ⟨hbig, rfl, rfl⟩)
  · exact .ret (.inr (.inl ⟨hfit, rfl, hg⟩))
  · exact .ret (.inr (.inr ⟨hfit, rfl, hab⟩))

end

theorem Grown.upages_fresh {d sz newsz v : Nat} (h : Grown man dirs kp d sz newsz k k')
    (hfit : newsz < kernbase) (hlo : sz ≤ v * 4096) (hhi : v * 4096 < newsz) :
    upages k d v = none ∧ FreshPage true (upages k' d v) := by
  have hv : v < nupages := by
    have := nupages_eq
    omega
  rw [upages_of_lt hv, upages_of_lt hv]
  exact h.fresh v hv hlo hhi

theorem Grown.upages_same {d sz newsz v : Nat} (h : Grown man dirs kp d sz newsz k k')
    (hd : d ∈ dirs) (hout : ¬ (sz ≤ v * 4096 ∧ v * 4096 < newsz)) :
    upages k' d v = upages k d v :=
  upages_at fun hv => h.same d hd v hv fun hc => hout hc.2

theorem Abandoned.upages_eq {d sz newsz : Nat} (h : Abandoned man dirs kp d sz newsz k k')
    (hd : d ∈ dirs) :
    upages k' d = fun v => if sz ≤ v * 4096 ∧ v * 4096 < newsz then none else upages k d v :=
  upages_drop (fun v hv hin => h.gone v hv hin.1 hin.2)
    fun v hv hout => h.same d hd v hv fun hc => hout hc.2

omit [Layout] in
/-- The target of a negative `sbrk`: where it is below zero it wraps around, to
above the old size. -/
theorem u32_shrink {sz : Nat} {n : Word} (hsz : sz ≤ kernbase) (hn : n.toInt < 0) :
    (u32 (sz + n.toNat) : Int) = sz + n.toInt ∨
      (sz + n.toInt < 0 ∧ sz ≤ u32 (sz + n.toNat)) := by
  have hlt := n.isLt
  rw [BitVec.toInt_eq_toNat_cond] at hn ⊢
  simp only [u32, kernbase] at *
  split at hn
  · omega
  · next hge =>
      rw [if_neg hge]
      omega

section
variable {n : Word} (h : Inv man dirs kp k) (hd : p.pgdir ∈ dirs) (hp : VmasOk p.sz p.vmas)
include h hd hp

/-- `growproc` by a negative amount releases the pages from the new size on. A new
size of zero is taken for a failure, and a target below zero for no change. -/
theorem growproc_neg (hn : n.toInt < 0) :
    Ends (growproc n p) k (fun r k' =>
      (p.sz + n.toInt < 0 ∧ r = (if p.sz = 0 then -1 else 0, p) ∧ Inv man dirs kp k' ∧
        (∀ d ∈ dirs, upages k' d = upages k d) ∧ Apart man dirs p.pgdir k k') ∨
      ∃ newsz : Nat, newsz = p.sz + n.toInt ∧
        r = (if newsz = 0 then (-1, p) else (0, { p with sz := newsz })) ∧
        Unmapped man dirs kp p.pgdir (fun v => newsz ≤ v * 4096 ∧ v * 4096 < p.sz) k k') := by
  rw [growproc, if_neg (by omega), if_pos hn]
  refine (deallocuvm_spec h hd hp.sz_le).bind ?_
  rintro r k' ⟨rfl, hun⟩
  rcases u32_shrink hp.sz_le hn with hsz | ⟨hneg, hle⟩
  · have hmin : min p.sz (u32 (p.sz + n.toNat)) = u32 (p.sz + n.toNat) := by omega
    rw [hmin]
    by_cases h0 : u32 (p.sz + n.toNat) = 0
    · rw [if_pos h0]
      exact .ret (.inr ⟨_, hsz, by rw [if_pos h0], hun⟩)
    · rw [if_neg h0]
      exact .ret (.inr ⟨_, hsz, by rw [if_neg h0], hun⟩)
  · have hmin : min p.sz (u32 (p.sz + n.toNat)) = p.sz := by omega
    have hsame : ∀ d ∈ dirs, upages k' d = upages k d := fun d hd' =>
      upages_congr fun v hv => hun.same d hd' v hv (by omega)
    rw [hmin]
    by_cases h0 : p.sz = 0
    · rw [if_pos h0]
      exact .ret (.inl ⟨hneg, by rw [if_pos h0], hun.inv, hsame, hun.apart⟩)
    · rw [if_neg h0]
      exact .ret (.inl ⟨hneg, by rw [if_neg h0], hun.inv, hsame, hun.apart⟩)

theorem sysSbrk_neg (hn : n.toInt < 0) :
    Ends (sysSbrk n p) k (fun r k' =>
      (p.sz + n.toInt < 0 ∧ r.2 = p ∧ Inv man dirs kp k' ∧
        (∀ d ∈ dirs, upages k' d = upages k d) ∧ Apart man dirs p.pgdir k k') ∨
      ∃ newsz : Nat, newsz = p.sz + n.toInt ∧
        r = (if newsz = 0 then (-1, p) else ((p.sz : Int), { p with sz := newsz })) ∧
        Unmapped man dirs kp p.pgdir (fun v => newsz ≤ v * 4096 ∧ v * 4096 < p.sz) k k') := by
  rw [sysSbrk]
  refine (growproc_neg h hd hp hn).bind ?_
  rintro r k' (⟨hneg, rfl, hinv, hsame⟩ | ⟨newsz, hnew, rfl, hun⟩)
  · rw [ends_ite]
    exact ⟨fun _ => .ret (.inl ⟨hneg, rfl, hinv, hsame⟩),
      fun _ => .ret (.inl ⟨hneg, rfl, hinv, hsame⟩)⟩
  · by_cases h0 : newsz = 0
    · rw [if_pos h0]
      exact .ret (.inr ⟨newsz, hnew, by rw [if_pos h0], hun⟩)
    · rw [if_neg h0]
      exact .ret (.inr ⟨newsz, hnew, by rw [if_neg h0], hun⟩)

/-- `sbrk` panics only if it grows over a page that is present. -/
theorem sysSbrk_moved :
    Ends (sysSbrk n p) k (fun r k' => Moved man dirs kp (.sbrk n) k p k' r.2)
      (fun e => e = .remap ∧ 0 < n.toInt ∧
        ∃ v, p.sz ≤ v * 4096 ∧ v * 4096 < p.sz + n.toNat ∧ upages k p.pgdir v ≠ none) := by
  rcases lt_trichotomy n.toInt 0 with hn | hn | hn
  · refine (sysSbrk_neg h hd hp hn).of_safe ?_
    rintro r k' (⟨-, hr, hinv, hsame, hapart⟩ | ⟨newsz, hnew, rfl, hun⟩)
    · rw [hr]
      refine ⟨⟨hinv, fun d hd' _ => hsame d hd', hapart⟩, rfl, rfl, rfl, hp, ?_⟩
      rw [show aspace k' p = aspace k p by simp [aspace, hsame _ hd]]
      exact .same
    · have hc : Change (aspace k p) (.sbrk n)
          { (aspace k p).drop (fun v => newsz ≤ v * 4096 ∧ v * 4096 < p.sz) with
            sz := if newsz = 0 then p.sz else newsz } := .shrink hn hnew
      have hle := hp.sz_le
      have hloc : Local man dirs kp p.pgdir k k' :=
        .of_same hun.inv hun.same hun.apart
      by_cases h0 : newsz = 0
      · rw [if_pos h0] at hc ⊢
        refine ⟨hloc, rfl, rfl, rfl, hp, ?_⟩
        convert hc using 1
        simp [aspace, Aspace.drop, hun.upages_eq hd]
      · rw [if_neg h0] at hc ⊢
        refine ⟨hloc, rfl, rfl, rfl, ⟨by simp only [kernbase] at *; omega, hp.vma⟩, ?_⟩
        convert hc using 1
        simp [aspace, Aspace.drop, hun.upages_eq hd]
  · rw [sysSbrk, growproc, if_neg (by omega), if_neg (by omega)]
    exact .ret (.same h hp)
  · refine (sysSbrk_pos h hd hp hn).mono ?_ (fun _ hE => ⟨hE.1, hn, hE.2⟩)
    rintro r k' (⟨-, rfl, rfl⟩ | ⟨hfit, rfl, hg⟩ | ⟨hfit, rfl, hab⟩)
    · exact .same h hp
    · exact ⟨.of_same hg.inv hg.same hg.apart, rfl, rfl, rfl, ⟨hfit.le, hp.vma⟩,
        .grow hn hfit (fun v hlo hhi => hg.upages_fresh hfit hlo hhi)
          (fun v hout => hg.upages_same hd hout)⟩
    · refine ⟨.of_same hab.inv hab.same hab.apart, rfl, rfl, rfl, hp, ?_⟩
      have hc : Change (aspace k p) (.sbrk n)
          ((aspace k p).drop fun v => p.sz ≤ v * 4096 ∧ v * 4096 < p.sz + n.toNat) := .abandon hn
      convert hc using 1
      simp [aspace, Aspace.drop, hab.upages_eq hd]

end

/-! ### `copyout` and single accesses -/

theorem copyout_moved {c : Call} {va : Nat} {buf : List Byte} (h : Inv man dirs kp k)
    (hd : p.pgdir ∈ dirs) (hp : VmasOk p.sz p.vmas) (hva : va < 2 ^ 32) :
    Ends (copyout (some p) p.pgdir va buf) k (fun _ k' => Moved man dirs kp c k p k' p) :=
  (copyout_spec h hd hp hva).imp (fun _ _ hc => .of_touched hp hc.touched)

omit [Layout] in
/-- The region of the fault address is the region of its page. -/
theorem VmasOk.roFault_eq {a : Access} (h : VmasOk p.sz p.vmas) :
    roFault p a = (aspace k p).readOnly (vpn a.va.toNat) := by
  rw [roFault, h.vmaFind_eq]
  rfl

/-- A page fault touches at most one page. -/
theorem Faulted.touched {a : Access} (hd : p.pgdir ∈ dirs) (hp : VmasOk p.sz p.vmas)
    (h : Inv man dirs kp k) (hf : Faulted man dirs kp p a k k' p') :
    Touched man dirs kp p.pgdir p.sz p.vmas k k' ∧ (p' = p ∨ p' = p.kill) := by
  cases hf with
  | demand hr hw hadd =>
    rw [hp.vmaFind_eq] at hr
    exact ⟨.demand hd (hp.region_lt hr) hr hadd, .inl rfl⟩
  | resolve hw hro hc hfree hres =>
    have hv := h.cowPage_user hd (vpn_lt a.va.isLt) hc
    exact ⟨.resolve hd hv ((hp.roFault_eq (k := k)).symm.trans hro) hc hres, .inl rfl⟩
  | deny why heq =>
    subst heq
    exact ⟨.refl h, .inr rfl⟩
  | starve why hinv hsame hoom hapart => exact ⟨.failed hsame hinv hd hapart, .inr rfl⟩

/-- One attempt at an access; a user access that went through was allowed by the
page. -/
theorem attempt_touched {a : Access} (h : Inv man dirs kp k) (hd : p.pgdir ∈ dirs)
    (hp : VmasOk p.sz p.vmas) :
    Ends (attempt p a) k (fun r k' => Touched man dirs kp p.pgdir p.sz p.vmas k k' ∧
        (r.2 = p ∨ r.2 = p.kill) ∧
        (r.1 = none → r.2 = p ∧ k' = k ∧ allows (pte k p.pgdir (vpn a.va.toNat)) a = true))
      (fun e => e = .pageFault ∧ KernelFault p a k) := by
  refine (attempt_spec h hd hp.below).imp ?_
  rintro r k' (⟨hok, rfl, rfl⟩ | ⟨-, hf, hr⟩)
  · exact ⟨.refl h, .inl rfl, fun _ => ⟨rfl, rfl, hok⟩⟩
  · obtain ⟨ht, hp'⟩ := hf.touched hd hp h
    exact ⟨ht, hp', fun hn => absurd hn (by simp [hr])⟩

end Xv6
