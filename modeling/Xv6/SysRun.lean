import Xv6.SysInv

/-!
# Xv6.SysRun

The effect of the calls that involve more than the record of one process: memory
accesses with the exits they may end in, `fork`, `wait` and `exec`; then every call
(`run_spec`), and every run.
-/

namespace Xv6

open Function (update)
open Relation (ReflTransGen)

variable [Layout] {man : Nat → Prop} {s s' : Sys} {i : Fin nproc}

/-! ### Memory accesses -/

/-- Process `i` has touched pages of its own, and nothing else has happened to any
address space. -/
structure Touching (man : Nat → Prop) (i : Fin nproc) (s s' : Sys) : Prop where
  inv : SysInv man s'
  live : (s'.pt.proc i).live
  touch : ReflTransGen Touch (s.aspace i) (s'.aspace i)
  other : ∀ j, j ≠ i → (s'.pt.proc j).live → (s.pt.proc j).live ∧ s'.aspace j = s.aspace j

namespace Touching

theorem refl (h : SysInv man s) (hi : (s.pt.proc i).live) : Touching man i s s :=
  ⟨h, hi, .refl, fun _ _ hj => ⟨hj, rfl⟩⟩

theorem trans {s1 : Sys} (h1 : Touching man i s s1) (h2 : Touching man i s1 s') :
    Touching man i s s' := by
  refine ⟨h2.inv, h2.live, h1.touch.trans h2.touch, fun j hj hlive => ?_⟩
  obtain ⟨hl1, he1⟩ := h2.other j hj hlive
  obtain ⟨hl, he⟩ := h1.other j hj hl1
  exact ⟨hl, he1.trans he⟩

theorem stepped {c : Call} (h : Touching man i s s') : Stepped man c i s s' :=
  ⟨h.inv, ⟨h.live, .touch h.touch⟩, fun j hj hlive => .inl (h.other j hj hlive)⟩

theorem then_pt {t' : Ptable} (h : Touching man i s s') (hs : s'.pt.SameVm t') :
    Touching man i s { s' with pt := t' } := by
  refine ⟨h.inv.congr_pt hs, (hs i).live.mpr h.live, ?_, fun j hj hlive => ?_⟩
  · rw [Sys.aspace_congr hs h.live]
    exact h.touch
  · have hlive := (hs j).live.mp hlive
    rw [Sys.aspace_congr hs hlive]
    exact h.other j hj hlive

/-- Touching pages in memory, while the record of the process changes in other
fields at most. -/
theorem of_touched {k' : Kmem} {p' : Proc} (h : SysInv man s) (hi : (s.pt.proc i).live)
    (ht : Touched man (s.pt.dirs s.kpgdir) s.pt.kstacks (s.pt.proc i).pgdir (s.pt.proc i).sz
      (s.pt.proc i).vmas s.k k')
    (hp : p' = s.pt.proc i ∨ p' = (s.pt.proc i).kill) :
    Touching man i s { s with k := k', pt := s.pt.set i p' } := by
  have hm : Moved man (s.pt.dirs s.kpgdir) s.pt.kstacks .exit s.k (s.pt.proc i) k' p' := by
    have hvm := h.pt.vmas i hi
    rcases hp with rfl | rfl
    · exact ⟨ht.toLocal, rfl, rfl, rfl, hvm, .touch ht.touch⟩
    · exact ⟨ht.toLocal, rfl, rfl, rfl, hvm, .touch ht.touch⟩
  obtain ⟨hinv, hstep⟩ := h.moved hi hm
  refine ⟨hinv, hstep.self.1, ?_, fun j hj hlive => ?_⟩
  · rw [Sys.aspace, Sys.aspace, Ptable.set_proc_self]
    rcases hp with rfl | rfl
    · exact ht.touch
    · exact ht.touch
  · rcases hstep.other j hj hlive with hsame | ⟨-, hc, -⟩
    · exact hsame
    · exact absurd hc (by simp)

end Touching

omit [Layout] in
theorem Ptable.set_self (t : Ptable) (j : Fin nproc) : t.set j (t.proc j) = t := by
  simp [Ptable.set]

/-- The page a user access of process `i` goes to allows it. -/
def Sys.Allowed (s : Sys) (i : Fin nproc) (va : Word) (write : Bool) : Prop :=
  allows (pte s.k (s.pt.proc i).pgdir (vpn va.toNat)) ⟨va, write, true⟩ = true

theorem tryAccess_spec {a : Access} (h : SysInv man s) (hi : (s.pt.proc i).live) :
    Ends (tryAccess i a) s (fun out s' => Touching man i s s' ∧
        (out = .done → s' = s ∧ allows (pte s.k (s.pt.proc i).pgdir (vpn a.va.toNat)) a = true))
      (fun e => e = .initExiting ∨ (e = .pageFault ∧ KernelFault (s.pt.proc i) a s.k)) := by
  rw [tryAccess, ends_bind, ends_onProc]
  refine (attempt_touched h.mem hi.dir (h.pt.vmas i hi)).mono ?_
    (fun _ hE => .inr hE)
  rintro ⟨r, p'⟩ k' ⟨ht, hp', hr⟩
  have hT := Touching.of_touched h hi ht hp'
  rcases r with - | r
  · obtain ⟨rfl, rfl, hok⟩ := hr rfl
    refine .ret ⟨hT, fun _ => ⟨?_, hok⟩⟩
    rw [Ptable.set_self]
  · cases r with
    | resume => exact .ret ⟨hT, fun hc => absurd hc (by simp)⟩
    | exit =>
      dsimp only
      rw [ends_bind, exit, ends_bind, ends_get, ends_ite]
      refine ⟨fun _ => ?_, fun _ => ?_⟩
      · rw [ends_throw]
        exact .inl rfl
      · rw [ends_modifyPt]
        exact .ret ⟨hT.then_pt (Ptable.sameVm_exit hT.live), fun hc => absurd hc (by simp)⟩

theorem userAccess_spec {va : Word} {write : Bool} : ∀ (fuel : Nat) (s : Sys), SysInv man s →
    (s.pt.proc i).live →
    Ends (userAccess i va write fuel) s (fun out s' => Touching man i s s' ∧
      (out = .done → s'.Allowed i va write)) (fun e => e = .initExiting) := by
  intro fuel
  induction fuel with
  | zero => exact fun s h hi => .ret ⟨.refl h hi, fun hc => absurd hc (by simp)⟩
  | succ fuel ih =>
    intro s h hi
    rw [userAccess, ends_bind]
    refine (tryAccess_spec h hi).mono ?_ ?_
    · rintro out s1 ⟨hT, hdone⟩
      have hother : out ≠ .retry → Ends (pure out : SM Out) s1 (fun out s' => Touching man i s s' ∧
          (out = .done → s'.Allowed i va write)) (fun e => e = .initExiting) := by
        refine fun _ => .ret ⟨hT, fun ho => ?_⟩
        obtain ⟨rfl, hok⟩ := hdone ho
        exact hok
      cases out with
      | retry =>
        exact (ih s1 hT.inv hT.live).imp (fun _ _ h' => ⟨hT.trans h'.1, h'.2⟩)
      | ret n | byte b | done | killed | blocked => exact hother (by simp)
    · rintro e (he | ⟨-, hu, -⟩)
      · exact he
      · exact absurd hu (by simp)

section
variable {va : Word} (h : SysInv man s) (hi : (s.pt.proc i).live)
include h hi

theorem SysInv.allowed_page {write : Bool} (ha : s.Allowed i va write) :
    ∃ e page, vpn va.toNat < nupages ∧
      upage s.k (s.pt.proc i).pgdir (vpn va.toNat) = some (e, page) ∧ has e .u = true ∧
      (write = true → has e .w = true) ∧
      target s i va = (pteFrame e, va.toNat % pgsize) ∧ s.k.mem (pteFrame e) = page := by
  have hd := hi.dir
  unfold Sys.Allowed allows at ha
  simp only [Bool.and_eq_true, Bool.or_eq_true, Bool.not_eq_true', Bool.true_eq_false,
    false_or] at ha
  obtain ⟨⟨hp, hw⟩, hu⟩ := ha
  have hv : vpn va.toNat < nupages := by
    by_contra hge
    have := (h.mem.kern_flags _ hd _ (by omega) (vpn_lt va.isLt)).1
    rw [hu] at this
    exact absurd this (by simp)
  refine ⟨_, _, hv, upage_eq_some.mpr ⟨hp, rfl, rfl⟩, hu, fun hwr => ?_, ?_, rfl⟩
  · exact hw.resolve_left (by simp [hwr])
  · rw [target, hwFrame_eq va.isLt hp]

theorem Touching.poke {b : Byte} (ha : s.Allowed i va true) : Touching man i s (poke s i va b) := by
  obtain ⟨e, page, hv, hup, hu, hw, htgt, rfl⟩ := h.allowed_page hi ha
  have ht := Touched.write (s.pt.proc i).sz (s.pt.proc i).vmas h.mem hi.dir hv hup
    (hw rfl) hu (setByte (s.k.mem (pteFrame e)) (va.toNat % pgsize) b)
  have hT := Touching.of_touched h hi ht (.inl rfl)
  rw [Ptable.set_self] at hT
  rw [Xv6.poke, htgt]
  exact hT

theorem load_spec :
    Ends (load i va) s (fun _ s' => Touching man i s s') (fun e => e = .initExiting) := by
  rw [load]
  refine (userAccess_spec 3 s h hi).bind ?_
  rintro out s1 ⟨hT, -⟩
  cases out with
  | done =>
    rw [ends_bind, ends_get]
    exact .ret hT
  | retry | ret n | byte b | killed | blocked => exact .ret hT

theorem store_spec {b : Byte} :
    Ends (store i va b) s (fun _ s' => Touching man i s s') (fun e => e = .initExiting) := by
  rw [store]
  refine (userAccess_spec 3 s h hi).bind ?_
  rintro out s1 ⟨hT, hdone⟩
  cases out with
  | done =>
    rw [ends_bind, ends_modify]
    exact .ret (hT.trans (.poke hT.inv hT.live (hdone rfl)))
  | retry | ret n | byte b | killed | blocked => exact .ret hT

end

/-! ### Slots that come into use and go out of use -/

namespace Ptable

variable {t t' : Ptable} {j : Fin nproc}

omit [Layout]

theorem dirs_new (kpgdir : Nat) (hother : ∀ j', j' ≠ j → t'.proc j' = t.proc j')
    (hold : ¬ (t.proc j).live) (hnew : (t'.proc j).live) :
    t'.dirs kpgdir = insert (t'.proc j).pgdir (t.dirs kpgdir) := by
  ext d
  simp only [Finset.mem_insert, mem_dirs]
  constructor
  · rintro (h | ⟨j', hlive, rfl⟩)
    · exact .inr (.inl h)
    · by_cases he : j' = j
      · exact .inl (by rw [he])
      · rw [hother j' he] at hlive ⊢
        exact .inr (.inr ⟨j', hlive, rfl⟩)
  · rintro (rfl | h | ⟨j', hlive, rfl⟩)
    · exact .inr ⟨j, hnew, rfl⟩
    · exact .inl h
    · have he : j' ≠ j := by rintro rfl; exact hold hlive
      exact .inr ⟨j', by rwa [hother j' he], by rw [hother j' he]⟩

theorem kstacks_new (hother : ∀ j', j' ≠ j → t'.proc j' = t.proc j')
    (hold : ¬ (t.proc j).live) (hnew : (t'.proc j).live) :
    t'.kstacks = insert (t'.proc j).kstack t.kstacks := by
  ext d
  simp only [Finset.mem_insert, mem_kstacks]
  constructor
  · rintro ⟨j', hlive, rfl⟩
    by_cases he : j' = j
    · exact .inl (by rw [he])
    · rw [hother j' he] at hlive ⊢
      exact .inr ⟨j', hlive, rfl⟩
  · rintro (rfl | ⟨j', hlive, rfl⟩)
    · exact ⟨j, hnew, rfl⟩
    · have he : j' ≠ j := by rintro rfl; exact hold hlive
      exact ⟨j', by rwa [hother j' he], by rw [hother j' he]⟩

end Ptable

omit [Layout] in
/-- A slot that comes into use needs a directory and a stack nobody has. -/
theorem PtOk.new {kpgdir : Nat} {t t' : Ptable} {j : Fin nproc} (h : PtOk kpgdir t)
    (hother : ∀ j', j' ≠ j → t'.proc j' = t.proc j') (hdir : (t'.proc j).pgdir ∉ t.dirs kpgdir)
    (hstack : (t'.proc j).kstack ∉ t.kstacks) (hvmas : VmasOk (t'.proc j).sz (t'.proc j).vmas) :
    PtOk kpgdir t' := by
  have hd : ∀ j', j' ≠ j → (t'.proc j').live → (t'.proc j').pgdir ≠ (t'.proc j).pgdir := by
    intro j' hj' hlive he
    rw [hother j' hj'] at hlive he
    exact hdir (Ptable.mem_dirs.mpr (.inr ⟨j', hlive, he⟩))
  have hk : ∀ j', j' ≠ j → (t'.proc j').live → (t'.proc j').kstack ≠ (t'.proc j).kstack := by
    intro j' hj' hlive he
    rw [hother j' hj'] at hlive he
    exact hstack (Ptable.mem_kstacks.mpr ⟨j', hlive, he⟩)
  refine ⟨fun a ha => ?_, fun a b ha hb he => ?_, fun a b ha hb he => ?_, fun a ha => ?_⟩
  · by_cases haj : a = j
    · rintro he
      rw [haj] at he
      exact hdir (Ptable.mem_dirs.mpr (.inl he))
    · rw [hother a haj] at ha ⊢
      exact h.dir_ne a ha
  · by_cases haj : a = j
    · by_contra hne
      rw [haj] at he hne
      exact hd b (fun hc => hne hc.symm) hb he.symm
    · by_cases hbj : b = j
      · rw [hbj] at he
        exact absurd he (hd a haj ha)
      · rw [hother a haj] at ha he
        rw [hother b hbj] at hb he
        exact h.dir_inj a b ha hb he
  · by_cases haj : a = j
    · by_contra hne
      rw [haj] at he hne
      exact hk b (fun hc => hne hc.symm) hb he.symm
    · by_cases hbj : b = j
      · rw [hbj] at he
        exact absurd he (hk a haj ha)
      · rw [hother a haj] at ha he
        rw [hother b hbj] at hb he
        exact h.stack_inj a b ha hb he
  · by_cases haj : a = j
    · rw [haj]
      exact hvmas
    · rw [hother a haj] at ha ⊢
      exact h.vmas a ha

omit [Layout] in
/-- A slot that goes out of use gives up its directory and its stack. -/
theorem PtOk.free {kpgdir : Nat} {t t' : Ptable} {j : Fin nproc} (h : PtOk kpgdir t)
    (hother : ∀ j', j' ≠ j → t'.proc j' = t.proc j') (hold : (t.proc j).live)
    (hnew : ¬ (t'.proc j).live) :
    PtOk kpgdir t' ∧ t'.dirs kpgdir = (t.dirs kpgdir).erase (t.proc j).pgdir ∧
      t'.kstacks = t.kstacks.erase (t.proc j).kstack := by
  have hlive : ∀ j', (t'.proc j').live → j' ≠ j ∧ (t.proc j').live := by
    intro j' hj'
    have hne : j' ≠ j := by rintro rfl; exact hnew hj'
    rw [hother j' hne] at hj'
    exact ⟨hne, hj'⟩
  refine ⟨⟨fun a ha => ?_, fun a b ha hb he => ?_, fun a b ha hb he => ?_, fun a ha => ?_⟩, ?_, ?_⟩
  · obtain ⟨hne, ha⟩ := hlive a ha
    rw [hother a hne]
    exact h.dir_ne a ha
  · obtain ⟨hna, ha⟩ := hlive a ha
    obtain ⟨hnb, hb⟩ := hlive b hb
    rw [hother a hna, hother b hnb] at he
    exact h.dir_inj a b ha hb he
  · obtain ⟨hna, ha⟩ := hlive a ha
    obtain ⟨hnb, hb⟩ := hlive b hb
    rw [hother a hna, hother b hnb] at he
    exact h.stack_inj a b ha hb he
  · obtain ⟨hne, ha⟩ := hlive a ha
    rw [hother a hne]
    exact h.vmas a ha
  · ext d
    simp only [Finset.mem_erase, Ptable.mem_dirs]
    constructor
    · rintro (rfl | ⟨a, ha, rfl⟩)
      · exact ⟨(h.dir_ne j hold).symm, .inl rfl⟩
      · obtain ⟨hne, ha⟩ := hlive a ha
        rw [hother a hne]
        exact ⟨fun he => hne (h.dir_inj a j ha hold he), .inr ⟨a, ha, rfl⟩⟩
    · rintro ⟨hd, rfl | ⟨a, ha, rfl⟩⟩
      · exact .inl rfl
      · have hne : a ≠ j := by rintro rfl; exact hd rfl
        exact .inr ⟨a, by rwa [hother a hne], by rw [hother a hne]⟩
  · ext d
    simp only [Finset.mem_erase, Ptable.mem_kstacks]
    constructor
    · rintro ⟨a, ha, rfl⟩
      obtain ⟨hne, ha⟩ := hlive a ha
      rw [hother a hne]
      exact ⟨fun he => hne (h.stack_inj a j ha hold he), a, ha, rfl⟩
    · rintro ⟨hd, a, ha, rfl⟩
      have hne : a ≠ j := by rintro rfl; exact hd rfl
      exact ⟨a, by rwa [hother a hne], by rw [hother a hne]⟩

/-! ### `fork` -/

omit [Layout] in
/-- `allocproc` claims an unused slot and touches no other. -/
theorem Ptable.allocproc_eq_some {t t' : Ptable} {j : Fin nproc}
    (h : t.allocproc = some (j, t')) :
    ¬ (t.proc j).live ∧ (∀ j', j' ≠ j → t'.proc j' = t.proc j') ∧ (t'.proc j).pid = t.nextpid := by
  obtain ⟨hun, rfl⟩ := allocproc_inv h
  refine ⟨by simp [Proc.live, hun], fun j' hne => ?_, by simp [Ptable.set]⟩
  simp [Ptable.set, hne]

/-- `fork` by process `i` comes to page `v` of the parent: there is a slot for the child, and
there are frames for its kernel stack, its directory, the 64 tables of its kernel half and the
tables of the resident pages below `v`. -/
def ForkReaches (s : Sys) (i : Fin nproc) (v : Nat) : Prop :=
  s.pt.allocproc ≠ none ∧ v * 4096 < (s.pt.proc i).sz ∧
    66 + (residentTables s.k (s.pt.proc i).pgdir (v * 4096)).card ≤ s.k.freelist.length

/-- How `fork` by process `i` ends. -/
inductive ForkEnd (man : Nat → Prop) (i : Fin nproc) (s : Sys) : Int → Sys → Prop
  /-- No slot is free. -/
  | full (hfull : s.pt.allocproc = none) : ForkEnd man i s (-1) s
  /-- An allocation failed; the pages that `fork` has come to are marked. -/
  | fail {k' : Kmem} {t' : Ptable}
      (hloc : Local man (s.pt.dirs s.kpgdir) s.pt.kstacks (s.pt.proc i).pgdir s.k k')
      (hmarked : ∀ v, ForkReaches s i v → upages k' (s.pt.proc i).pgdir v =
        sharePage (upages s.k (s.pt.proc i).pgdir v))
      (hkept : ∀ v, ¬ ForkReaches s i v →
        upages k' (s.pt.proc i).pgdir v = upages s.k (s.pt.proc i).pgdir v)
      (hoom : s.k.oom < k'.oom) (hpt : s.pt.SameVm t') (hself : t'.proc i = s.pt.proc i)
      (hapart : ∀ c, Apart man (s.pt.dirs s.kpgdir) c s.k k')
      (hshort : s.k.freelist.length <
        66 + (residentTables s.k (s.pt.proc i).pgdir (s.pt.proc i).sz).card) :
      ForkEnd man i s (-1) { s with k := k', pt := t' }
  | done {j : Fin nproc} {t : Ptable} {kstack pgdir : Nat} {k' : Kmem}
      (halloc : s.pt.allocproc = some (j, t)) (hdir : pgdir ∉ s.pt.dirs s.kpgdir)
      (hstack : kstack ∉ s.pt.kstacks)
      (hinv : Inv man (insert pgdir (s.pt.dirs s.kpgdir)) (insert kstack s.pt.kstacks) k')
      (hparent : upages k' (s.pt.proc i).pgdir = fun v =>
        if v * 4096 < (s.pt.proc i).sz then sharePage (upages s.k (s.pt.proc i).pgdir v)
        else upages s.k (s.pt.proc i).pgdir v)
      (hchild : upages k' pgdir = fun v =>
        if v * 4096 < (s.pt.proc i).sz then sharePage (upages s.k (s.pt.proc i).pgdir v) else none)
      (hother : ∀ d ∈ s.pt.dirs s.kpgdir, d ≠ (s.pt.proc i).pgdir → upages k' d = upages s.k d)
      (hoom : k'.oom = s.k.oom)
      (hcount : s.k.freelist.length = k'.freelist.length + 66 +
        (residentTables s.k (s.pt.proc i).pgdir (s.pt.proc i).sz).card) :
      ForkEnd man i s s.pt.nextpid
        { s with k := k', pt := (t.allocprocStack j kstack).forkCommit i j pgdir }

section
variable {dirs kp : Finset Nat} {k k' : Kmem} {d c sz : Nat}

theorem Copied.upages_parent (h : Copied man dirs kp d c sz k k') :
    upages k' d = fun v => if v * 4096 < sz then sharePage (upages k d v) else upages k d v := by
  funext v
  by_cases hv : v < nupages
  · rw [upages_of_lt hv, upages_of_lt hv]
    exact h.parent v hv
  · rw [upages_of_ge (by omega), upages_of_ge (by omega)]
    split <;> rfl

theorem Copied.upages_child (h : Copied man dirs kp d c sz k k') :
    upages k' c = fun v => if v * 4096 < sz then sharePage (upages k d v) else none := by
  funext v
  by_cases hv : v < nupages
  · rw [upages_of_lt hv, upages_of_lt hv]
    exact h.child v hv
  · rw [upages_of_ge (by omega), upages_of_ge (by omega)]
    split <;> rfl

end

theorem fork_ends (h : SysInv man s) (hi : (s.pt.proc i).live) :
    Ends (fork i) s (fun r s' => ForkEnd man i s r s') := by
  have hdi := hi.dir
  have hvm := h.pt.vmas i hi
  rw [fork, ends_bind, ends_get]
  cases halloc : s.pt.allocproc with
  | none => exact .ret (.full halloc)
  | some x =>
    obtain ⟨j, t⟩ := x
    obtain ⟨hun, hother, hpid⟩ := Ptable.allocproc_eq_some halloc
    have hij : i ≠ j := by rintro rfl; exact hun hi
    -- the tables on the failure paths differ from the first one in slot `j` only
    have hsame : ∀ t', (∀ j', j' ≠ j → t'.proc j' = t.proc j') → ¬ (t'.proc j).live →
        s.pt.SameVm t' := by
      intro t' ht' hdead j'
      by_cases he : j' = j
      · subst he
        exact .of_unused hun hdead
      · rw [ht' j' he, hother j' he]
        exact .refl _
    dsimp only
    rw [ends_bind, ends_modifyPt, ends_bind, ends_onMem]
    refine (kalloc_spec h.mem).imp ?_
    intro r k1 hr
    cases r with
    | none =>
      obtain ⟨hnil, rfl⟩ := hr
      dsimp only
      rw [ends_bind, ends_modifyPt]
      have hapart : ∀ c, Apart man (s.pt.dirs s.kpgdir) c s.k { s.k with oom := s.k.oom + 1 } :=
        fun _ => ⟨fun _ _ _ => rfl, fun _ _ => rfl⟩
      refine .ret (.fail ⟨h.mem.failed, fun _ _ _ => rfl, hapart _⟩ (fun v hv => ?_)
        (fun _ _ => rfl)
        (Nat.lt_succ_self _) (hsame _ (fun j' hne => ?_) ?_) ?_ hapart (by simp [hnil]))
      · have hlen := hv.2.2
        rw [hnil, List.length_nil] at hlen
        omega
      · exact Ptable.set_proc_of_ne _ _ hne
      · simp [Ptable.allocprocFail, Proc.live]
      · exact (Ptable.set_proc_of_ne _ _ hij).trans (hother i hij)
    | some kstack =>
      obtain ⟨rest, hfree, rfl, hkp, -, hinv1⟩ := hr
      dsimp only
      rw [ends_bind, ends_modifyPt, ends_bind, ends_get, ends_bind, ends_onMem]
      have hcur : (t.allocprocStack j kstack).proc i = s.pt.proc i := by
        rw [Ptable.allocprocStack, Ptable.set_proc_of_ne _ _ hij, hother i hij]
      dsimp only
      rw [hcur]
      have hlen : s.k.freelist.length = rest.length + 1 := by rw [hfree]; rfl
      refine (copyuvm_spec hinv1 hdi hvm.sz_le).imp ?_
      intro r k2 hr
      cases r with
      | none =>
        obtain ⟨hr, hshort⟩ := hr
        change rest.length < 65 + (residentTables s.k _ _).card at hshort
        dsimp only
        rw [ends_bind, ends_onMem]
        refine (kfree_spec hr.inv (Finset.mem_insert_self kstack _)).imp ?_
        rintro - k3 ⟨rfl, hinv3, hup3, hoom3, -⟩
        rw [Finset.erase_insert hkp] at hinv3
        rw [ends_bind, ends_modifyPt]
        have hman := (h.mem.ledger.free_iff kstack).mp (by rw [hfree]; exact List.mem_cons_self)
        have hapart : ∀ c, Apart man (s.pt.dirs s.kpgdir) c s.k (k2.decref kstack) := fun c =>
          ((Apart.alloc hman.1 rest).trans (hr.apart c)).trans
            (hr.inv.apart_kfree (Finset.mem_insert_self kstack _))
        refine .ret (.fail ⟨hinv3, fun d hd hne => ?_, hapart _⟩ (fun v hv => ?_)
          (fun v hv => ?_) ?_ (hsame _ (fun j' hne => ?_) ?_) ?_ hapart (by omega))
        · rw [upages_congr (hup3 d hd)]
          exact upages_congr (hr.other d hd hne)
        · rw [upages_congr (hup3 _ hdi)]
          have hle := hv.2.2
          by_cases hvn : v < nupages
          · rw [upages_of_lt hvn, upages_of_lt hvn]
            refine hr.marked v hvn ⟨hv.2.1, ?_⟩
            show 65 + (residentTables s.k _ _).card ≤ rest.length
            omega
          · rw [upages_of_ge (by omega), upages_of_ge (by omega)]
            rfl
        · rw [upages_congr (hup3 _ hdi)]
          refine upages_at fun hvn => hr.kept v hvn fun hc =>
            hv ⟨by rw [halloc]; exact Option.some_ne_none _, hc.1, ?_⟩
          have hle : 65 + (residentTables s.k _ _).card ≤ rest.length := hc.2
          omega
        · rw [hoom3]
          exact hr.oom
        · rw [Ptable.forkFail, Ptable.set_proc_of_ne _ _ hne, Ptable.allocprocStack,
            Ptable.set_proc_of_ne _ _ hne]
        · simp [Ptable.forkFail, Proc.live]
        · rw [Ptable.forkFail, Ptable.set_proc_of_ne _ _ hij, hcur]
      | some pgdir =>
        obtain ⟨hpk, hc⟩ := hr
        dsimp only
        rw [ends_bind, ends_modifyPt]
        have hret : ((t.allocprocStack j kstack).proc j).pid = s.pt.nextpid := by
          rw [Ptable.allocprocStack, Ptable.set_proc_self]
          exact hpid
        rw [hret]
        have hcount : rest.length = k2.freelist.length + 65 + (residentTables s.k _ _).card :=
          hc.spent.count
        exact .ret (.done halloc hc.new hkp hc.inv hc.upages_parent hc.upages_child
          (fun d hd hne => upages_congr (hc.other d hd hne)) hc.oom (by dsimp only; omega))

omit [Layout] in
theorem ForkEnd.table {t : Ptable} {j : Fin nproc} (halloc : s.pt.allocproc = some (j, t))
    (hi : (s.pt.proc i).live) (kstack pgdir : Nat) :
    (∀ j', j' ≠ j → ((t.allocprocStack j kstack).forkCommit i j pgdir).proc j' = s.pt.proc j') ∧
      (((t.allocprocStack j kstack).forkCommit i j pgdir).proc j).pgdir = pgdir ∧
      (((t.allocprocStack j kstack).forkCommit i j pgdir).proc j).kstack = kstack ∧
      (((t.allocprocStack j kstack).forkCommit i j pgdir).proc j).sz = (s.pt.proc i).sz ∧
      (((t.allocprocStack j kstack).forkCommit i j pgdir).proc j).vmas = (s.pt.proc i).vmas ∧
      (((t.allocprocStack j kstack).forkCommit i j pgdir).proc j).state = .runnable ∧
      (((t.allocprocStack j kstack).forkCommit i j pgdir).proc j).killed =
        (s.pt.proc j).killed ∧
      (((t.allocprocStack j kstack).forkCommit i j pgdir).proc j).pid = s.pt.nextpid := by
  obtain ⟨hun, hother, -⟩ := Ptable.allocproc_eq_some halloc
  have hij : i ≠ j := by rintro rfl; exact hun hi
  have hcur : (t.allocprocStack j kstack).proc i = s.pt.proc i := by
    rw [Ptable.allocprocStack, Ptable.set_proc_of_ne _ _ hij, hother i hij]
  refine ⟨fun j' hne => ?_, ?_⟩
  · rw [Ptable.forkCommit, Ptable.set_proc_of_ne _ _ hne, Ptable.allocprocStack,
      Ptable.set_proc_of_ne _ _ hne, hother j' hne]
  · rw [Ptable.forkCommit, Ptable.set_proc_self, hcur]
    obtain ⟨-, rfl⟩ := Ptable.allocproc_inv halloc
    simp only [Ptable.allocprocStack, Ptable.set_proc_self, and_self]

theorem ForkEnd.stepped {r : Int} (h : SysInv man s) (hi : (s.pt.proc i).live)
    (hf : ForkEnd man i s r s') : Stepped man .fork i s s' := by
  have hvm := h.pt.vmas i hi
  cases hf with
  | full => exact .same h hi
  | @fail k' t' hloc hmarked hkept hoom hpt hself _ _ =>
    have hm : Moved man (s.pt.dirs s.kpgdir) s.pt.kstacks .fork s.k (s.pt.proc i) k'
        (s.pt.proc i) := ⟨hloc, rfl, rfl, rfl, hvm, .share fun v =>
          (em (ForkReaches s i v)).elim (fun hv => .inr (hmarked v hv)) fun hv => .inl (hkept v hv)⟩
    have hst : Stepped man .fork i s _ := h.moved hi hm
    rw [Ptable.set_self] at hst
    exact hst.then_pt hpt
  | @done j t kstack pgdir k' halloc hdir hstack hinv hparent hchild hothers hoom _ =>
    obtain ⟨hun, -, -⟩ := Ptable.allocproc_eq_some halloc
    obtain ⟨hother, hpg, hks, hsz, hvmas, hstate, -⟩ := ForkEnd.table halloc hi kstack pgdir
    have hlive := show Proc.live _ by rw [Proc.live, hstate]; simp
    have hij : i ≠ j := by rintro rfl; exact hun hi
    generalize (t.allocprocStack j kstack).forkCommit i j pgdir = t' at *
    refine ⟨⟨?_, ?_⟩, ⟨?_, ?_⟩, fun j' hj' hlj => ?_⟩
    · show Inv man (t'.dirs s.kpgdir) t'.kstacks k'
      rw [Ptable.dirs_new s.kpgdir hother hun hlive, Ptable.kstacks_new hother hun hlive, hpg, hks]
      exact hinv
    · refine h.pt.new hother (by rw [hpg]; exact hdir) (by rw [hks]; exact hstack) ?_
      rw [hsz, hvmas]
      exact hvm
    · show (t'.proc i).live
      rw [hother i hij]
      exact hi
    · show Change (s.aspace i) .fork (aspace k' (t'.proc i))
      rw [hother i hij, aspace, hparent]
      refine .share fun v => ?_
      by_cases hv : v * 4096 < (s.pt.proc i).sz
      · rw [if_pos hv]
        exact .inr rfl
      · rw [if_neg hv]
        exact .inl rfl
    · by_cases he : j' = j
      · subst he
        refine .inr ⟨hun, rfl, ?_⟩
        show aspace k' (t'.proc j') = (s.aspace i).fork
        rw [aspace, hpg, hsz, hvmas, hchild]
        rfl
      · change (t'.proc j').live at hlj
        rw [hother j' he] at hlj
        refine .inl ⟨hlj, ?_⟩
        have hne : (s.pt.proc j').pgdir ≠ (s.pt.proc i).pgdir :=
          fun hc => hj' (h.pt.dir_inj j' i hlj hi hc)
        show aspace k' (t'.proc j') = aspace s.k (s.pt.proc j')
        rw [hother j' he, aspace, aspace, hothers _ hlj.dir hne]

/-! ### `wait` and `exec` -/

/-- `wait` releases the memory of the zombie it finds. -/
theorem wait_ends (h : SysInv man s) :
    Ends (wait i) s (fun out s' => match s.pt.waitScan i with
      | .fail => out = .ret (-1) ∧ s' = s
      | .block => out = .blocked ∧ s' = s
      | .zombie j => out = .ret (s.pt.proc j).pid ∧
          ∃ k', s' = { s with k := k', pt := s.pt.reap j } ∧
            Inv man ((s.pt.dirs s.kpgdir).erase (s.pt.proc j).pgdir)
              (s.pt.kstacks.erase (s.pt.proc j).kstack) k' ∧
            (∀ d ∈ (s.pt.dirs s.kpgdir).erase (s.pt.proc j).pgdir, upages k' d = upages s.k d) ∧
            k'.oom = s.k.oom) := by
  rw [wait, ends_bind, ends_get]
  dsimp only
  cases hscan : s.pt.waitScan i with
  | fail => exact .ret ⟨rfl, rfl⟩
  | block => exact .ret ⟨rfl, rfl⟩
  | zombie j =>
    have hlive : (s.pt.proc j).live := by
      rw [Proc.live, (Ptable.waitScan_zombie hscan).2]
      simp
    dsimp only
    rw [ends_bind, ends_onMem]
    refine (kfree_spec h.mem (Ptable.mem_kstacks.mpr ⟨j, hlive, rfl⟩)).imp ?_
    rintro - k1 ⟨-, hinv1, hup1, hoom1, -⟩
    rw [ends_bind, ends_onMem]
    refine (freevm_spec hinv1 hlive.dir).imp ?_
    rintro - k2 ⟨hinv2, hup2, hoom2, -⟩
    rw [ends_bind, ends_modifyPt]
    refine .ret ⟨rfl, k2, rfl, hinv2, fun d hd => ?_, hoom2.trans hoom1⟩
    exact (upages_congr (hup2 d hd)).trans (upages_congr (hup1 d (Finset.mem_of_mem_erase hd)))

theorem wait_spec {E : Panic → Prop} (h : SysInv man s) (hi : (s.pt.proc i).live)
    (hz : (s.pt.proc i).state ≠ .zombie) :
    Ends (wait i) s (fun _ s' => Stepped man .wait i s s') E := by
  refine (wait_ends h).of_safe ?_
  intro out s' hr
  cases hscan : s.pt.waitScan i with
  | fail | block =>
    rw [hscan] at hr
    rw [hr.2]
    exact .same h hi
  | zombie j =>
    rw [hscan] at hr
    obtain ⟨-, k', rfl, hinv, hup, -⟩ := hr
    have hzj := (Ptable.waitScan_zombie hscan).2
    have hlive : (s.pt.proc j).live := by
      rw [Proc.live, hzj]
      simp
    have hij : i ≠ j := by rintro rfl; exact hz hzj
    have hother : ∀ j', j' ≠ j → (s.pt.reap j).proc j' = s.pt.proc j' :=
      fun j' hne => Ptable.set_proc_of_ne _ _ hne
    have hdead : ¬ ((s.pt.reap j).proc j).live := by simp [Ptable.reap, Proc.live]
    obtain ⟨hpt, hdirs, hstacks⟩ := h.pt.free hother hlive hdead
    have hsp : ∀ j', j' ≠ j → (s.pt.proc j').live →
        aspace k' ((s.pt.reap j).proc j') = s.aspace j' := by
      intro j' hne hl
      have hne' : (s.pt.proc j').pgdir ≠ (s.pt.proc j).pgdir :=
        fun hc => hne (h.pt.dir_inj j' j hl hlive hc)
      rw [hother j' hne, Sys.aspace, aspace, aspace,
        hup _ (Finset.mem_erase.mpr ⟨hne', hl.dir⟩)]
    refine ⟨⟨?_, hpt⟩, ⟨?_, ?_⟩, fun j' _ hlj => ?_⟩
    · show Inv man ((s.pt.reap j).dirs s.kpgdir) (s.pt.reap j).kstacks k'
      rw [hdirs, hstacks]
      exact hinv
    · show ((s.pt.reap j).proc i).live
      rw [hother i hij]
      exact hi
    · show Change _ _ (aspace k' ((s.pt.reap j).proc i))
      rw [hsp i hij hi]
      exact .same
    · change ((s.pt.reap j).proc j').live at hlj
      have hne : j' ≠ j := by rintro rfl; exact hdead hlj
      rw [hother j' hne] at hlj
      exact .inl ⟨hlj, hsp j' hne hlj⟩

omit [Layout] in
/-- A live slot that trades its directory for a new one. -/
theorem PtOk.swap {kpgdir d : Nat} {t : Ptable} {p' : Proc} (h : PtOk kpgdir t)
    (hi : (t.proc i).live) (hlive : p'.live) (hdir : p'.pgdir = d) (hd : d ∉ t.dirs kpgdir)
    (hstack : p'.kstack = (t.proc i).kstack) (hvmas : VmasOk p'.sz p'.vmas) :
    PtOk kpgdir (t.set i p') ∧
      (t.set i p').dirs kpgdir = insert d ((t.dirs kpgdir).erase (t.proc i).pgdir) ∧
      (t.set i p').kstacks = t.kstacks := by
  -- through a table in which the slot is unused
  have hother1 : ∀ j, j ≠ i → (t.set i Proc.zero).proc j = t.proc j :=
    fun j hne => Ptable.set_proc_of_ne _ _ hne
  have hdead : ¬ ((t.set i Proc.zero).proc i).live := by simp [Proc.live, Proc.zero]
  obtain ⟨hpt1, hdirs1, hstacks1⟩ := h.free hother1 hi hdead
  have hother2 : ∀ j, j ≠ i → (t.set i p').proc j = (t.set i Proc.zero).proc j := by
    intro j hne
    rw [Ptable.set_proc_of_ne _ _ hne, Ptable.set_proc_of_ne _ _ hne]
  have hself : (t.set i p').proc i = p' := Ptable.set_proc_self _ _ _
  have hin : (t.proc i).kstack ∈ t.kstacks := Ptable.mem_kstacks.mpr ⟨i, hi, rfl⟩
  have hnew : ((t.set i p').proc i).live := by rw [hself]; exact hlive
  refine ⟨hpt1.new hother2 ?_ ?_ ?_, ?_, ?_⟩
  · rw [hself, hdir, hdirs1]
    exact fun hm => hd (Finset.mem_of_mem_erase hm)
  · rw [hself, hstack, hstacks1]
    simp
  · rw [hself]
    exact hvmas
  · rw [Ptable.dirs_new kpgdir hother2 hdead hnew, hself, hdir, hdirs1]
  · rw [Ptable.kstacks_new hother2 hdead hnew, hself, hstack, hstacks1, Finset.insert_erase hin]

theorem exec_stepped {ip : Option (List Byte)} {argv : List (List Byte)} {E : Panic → Prop}
    (h : SysInv man s) (hi : (s.pt.proc i).live) :
    Ends (onProc i (execProc ip argv)) s (fun _ s' => Stepped man (.exec ip argv) i s s') E := by
  have hdi := hi.dir
  have hvm := h.pt.vmas i hi
  rw [ends_onProc, execProc, ends_bind]
  refine (exec_spec h.mem hdi).of_safe ?_
  intro r k' hend
  cases hend with
  | fail hinv hup hapart =>
    have hm : Moved man (s.pt.dirs s.kpgdir) s.pt.kstacks (.exec ip argv) s.k (s.pt.proc i) k'
        (s.pt.proc i) := by
      refine ⟨⟨hinv, fun d hd _ => hup d hd, hapart _⟩, rfl, rfl, rfl, hvm, ?_⟩
      rw [show aspace k' (s.pt.proc i) = aspace s.k (s.pt.proc i) by simp [aspace, hup _ hdi]]
      exact .same
    exact .ret (h.moved hi hm)
  | @done _ _ _ d sz _ _ _ _ _ _ _ hd _ hinv himage hup =>
    refine .ret ?_
    have hsz := himage.below
    have him := himage.program.image
    obtain ⟨p', hp'⟩ : ∃ p',
        { s.pt.proc i with pgdir := d, sz := sz, vmas := fun _ => Vma.empty } = p' :=
      ⟨_, rfl⟩
    have hlive : p'.live := by rw [← hp']; exact hi
    obtain ⟨hpt, hdirs, hstacks⟩ := h.pt.swap hi hlive (by rw [← hp']) hd (by rw [← hp'])
      (by rw [← hp']; exact ⟨hsz, fun _ hu => absurd hu (by simp [Vma.empty])⟩)
    dsimp only
    rw [hp']
    refine ⟨⟨?_, hpt⟩, ⟨?_, ?_⟩, fun j hj hlj => ?_⟩
    · show Inv man ((s.pt.set i p').dirs s.kpgdir) (s.pt.set i p').kstacks k'
      rw [hdirs, hstacks]
      exact hinv
    · rw [Ptable.set_proc_self]
      exact hlive
    · rw [Sys.aspace, Sys.aspace, Ptable.set_proc_self, ← hp']
      exact .exec hsz him.present him.absent
    · rw [Ptable.set_proc_of_ne _ _ hj] at hlj
      have hne : (s.pt.proc j).pgdir ≠ (s.pt.proc i).pgdir :=
        fun hc => hj (h.pt.dir_inj j i hlj hi hc)
      refine .inl ⟨hlj, ?_⟩
      rw [Sys.aspace, Sys.aspace, Ptable.set_proc_of_ne _ _ hj, aspace, aspace,
        hup _ (Finset.mem_erase.mpr ⟨hne, hlj.dir⟩)]

/-! ### Every call -/

omit [Layout] in
theorem Alive.live (h : Alive s i) : (s.pt.proc i).live := by
  rcases h with h | h <;> simp [Proc.live, h]

omit [Layout] in
theorem Alive.not_zombie (h : Alive s i) : (s.pt.proc i).state ≠ .zombie := by
  rcases h with h | h <;> simp [h]

/-- A kernel-mode fault in terms of the address space. -/
theorem KernelFault.halts {a : Access} (h : SysInv man s) (hi : (s.pt.proc i).live)
    (hf : KernelFault (s.pt.proc i) a s.k) : Halts (s.aspace i) (.access a) .pageFault := by
  obtain ⟨hu, hf⟩ := hf
  refine .pageFault hu fun hw => ?_
  rcases hf with ⟨hp, hr⟩ | ⟨-, hw', -⟩
  · refine ⟨?_, ?_⟩
    · show upages s.k (s.pt.proc i).pgdir _ = none
      unfold upages
      split
      · exact upage_eq_none.mpr hp
      · rfl
    · rw [(h.pt.vmas i hi).vmaFind_eq] at hr
      exact hr
  · exact absurd hw' (by simp [hw])

/-- What a call can do. -/
theorem run_spec (c : Call) (h : SysInv man s) (hi : Alive s i) :
    Ends (c.run i) s (fun _ s' => Stepped man c i s s') (Halts (s.aspace i) c) := by
  have hl := hi.live
  have hd := hl.dir
  have hvm := h.pt.vmas i hl
  have hinit : ∀ e, e = Panic.initExiting → Halts (s.aspace i) c e := by
    rintro e rfl
    exact .initExiting
  cases c with
  | mmap n =>
    refine syscall_spec h hl ((ends_map ..).mpr (onProc_spec h hl ?_))
    exact .ret (sysMmap_moved h.mem hvm)
  | munmap addr n =>
    refine syscall_spec h hl ((ends_map ..).mpr (onProc_spec h hl ?_))
    exact (sysMunmap_moved h.mem hd hvm).of_safe (fun _ _ hm => hm)
  | mprotect addr n prot =>
    refine syscall_spec h hl ((ends_map ..).mpr (onProc_spec h hl ?_))
    exact (sysMprotect_moved h.mem hd hvm).of_safe (fun _ _ hm => hm)
  | sbrk n =>
    refine syscall_spec h hl ((ends_map ..).mpr (onProc_spec h hl ?_))
    refine (sysSbrk_moved h.mem hd hvm).mono (fun _ _ hm => hm) ?_
    rintro e ⟨rfl, hn, v, hlo, hhi, hv⟩
    exact .remap hn hlo hhi hv
  | fork =>
    refine syscall_spec h hl ((ends_map ..).mpr ?_)
    exact (fork_ends h hl).of_safe (fun _ _ hf => hf.stepped h hl)
  | exit =>
    rw [Call.run]
    exact (exit_spec (.same h hl)).bind (fun _ _ h' => .ret h')
  | wait => exact syscall_spec h hl (wait_spec h hl hi.not_zombie)
  | exec ip argv => exact syscall_spec h hl ((ends_map ..).mpr (exec_stepped h hl))
  | kill pid => exact syscall_spec h hl ((ends_map ..).mpr (kill_spec h hl))
  | copyout va buf =>
    refine syscall_spec h hl ((ends_map ..).mpr (onProc_spec h hl ?_))
    rw [ends_bind]
    exact (copyout_moved h.mem hd hvm va.isLt).of_safe (fun _ _ hm => .ret hm)
  | load va => exact (load_spec h hl).mono (fun _ _ hT => hT.stepped) hinit
  | store va b => exact (store_spec h hl).mono (fun _ _ hT => hT.stepped) hinit
  | access a =>
    refine (tryAccess_spec h hl).mono (fun _ _ hT => hT.1.stepped) ?_
    rintro e (he | ⟨rfl, hf⟩)
    · exact hinit e he
    · exact hf.halts h hl

end Xv6
