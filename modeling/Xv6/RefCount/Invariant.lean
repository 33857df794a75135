import Xv6.Lib.Ledger
import Xv6.PageTable

/-!
# Xv6.RefCount.Invariant

The invariant of the copy-on-write memory system, and the state changes that keep
it.

`Inv man dirs kp k` speaks about the frames `man` given to the allocator, the
live page directories `dirs`, and the kernel pages `kp` (kernel stacks, pipe
buffers, and pages a running function has allocated and not yet placed). The
reference counts are a `Ledger` whose slots are the user pages of the live
directories. On top of it, a frame mapped writable is not shared, and the kernel
half of every directory is neither user-accessible nor copy-on-write.

`upage k d v` is what a process sees at page `v`: the entry and the contents of
the frame behind it. Each lemma about a state change says both that the
invariant is kept and which pages of which directories look different after it;
the functions of `vm.c` are sequences of these changes.
-/

namespace Xv6

open Function (update update_self update_of_ne)

/-! ### Definitions -/

/-- The frame a present entry refers to. -/
def refOf (w : Word) : Option Nat := if has w .p then some (pteFrame w) else none

/-- The reference held by a user page `(d, v)`. -/
def userRef (k : Kmem) (x : Nat × Nat) : Option Nat := refOf (pte k x.1 x.2)

/-- The user pages of the live directories. -/
def userSlots (dirs : Finset Nat) : Finset (Nat × Nat) := dirs ×ˢ Finset.range nupages

/-- The frames owned by the kernel. -/
def owned (dirs kp : Finset Nat) (k : Kmem) : Finset Nat := kp ∪ tabFrames dirs k

/-- The invariant. -/
structure Inv [Layout] (man : Nat → Prop) (dirs kp : Finset Nat) (k : Kmem) : Prop where
  tables : Tables dirs kp k
  man_range : ∀ f, man f → Layout.kend ≤ kernbase + v2p f ∧ v2p f < phystop
  ledger : Ledger man (· ∈ owned dirs kp k) (userSlots dirs) (userRef k) k.refcnt k.freelist
  kern_flags : ∀ d ∈ dirs, ∀ v, nupages ≤ v → v < npages →
    has (pte k d v) .u = false ∧ has (pte k d v) .cow = false
  excl : ∀ d ∈ dirs, ∀ v < nupages, has (pte k d v) .p = true → has (pte k d v) .w = true →
    k.refcnt (pteFrame (pte k d v)) = 1

/-- What page `v` under `d` looks like: its entry and the contents of its frame. -/
def upage (k : Kmem) (d v : Nat) : Option (Word × (Nat → Word)) :=
  if has (pte k d v) .p then some (pte k d v, k.mem (pteFrame (pte k d v))) else none

/-- The entries of the live directories after that of `(d, v)` is set to `w`. -/
def SetPte (dirs : Finset Nat) (d v : Nat) (w : Word) (k k' : Kmem) : Prop :=
  ∀ d' ∈ dirs, ∀ v' < npages, pte k' d' v' = if d' = d ∧ v' = v then w else pte k d' v'

/-! ### Reading the definitions -/

@[simp] theorem refOf_zero : refOf 0#32 = none := by simp [refOf]

theorem refOf_eq_some {w : Word} {f : Nat} :
    refOf w = some f ↔ has w .p = true ∧ pteFrame w = f := by
  unfold refOf
  split <;> simp_all

theorem refOf_eq_none {w : Word} : refOf w = none ↔ has w .p = false := by
  unfold refOf
  split <;> simp_all

/-- The reference of a user page in terms of what the page looks like. -/
theorem userRef_eq_upage (k : Kmem) (d v : Nat) :
    userRef k (d, v) = (upage k d v).map fun x => pteFrame x.1 := by
  unfold userRef refOf upage
  split <;> simp

theorem nupages_lt : nupages < npages := by decide

theorem mem_userSlots {dirs : Finset Nat} {x : Nat × Nat} :
    x ∈ userSlots dirs ↔ x.1 ∈ dirs ∧ x.2 < nupages := by
  simp [userSlots]

theorem mem_owned {dirs kp : Finset Nat} {k : Kmem} {f : Nat} :
    f ∈ owned dirs kp k ↔ f ∈ kp ∨ f ∈ tabFrames dirs k := by
  simp [owned]

theorem mem_owned_erase {dirs kp : Finset Nat} {k k' : Kmem} {f g : Nat}
    (hg : g ∉ tabFrames dirs k) (htab : tabFrames dirs k' = tabFrames dirs k) :
    f ∈ owned dirs (kp.erase g) k' ↔ f ∈ owned dirs kp k ∧ f ≠ g := by
  simp only [mem_owned, htab, Finset.mem_erase]
  constructor
  · rintro (⟨hne, hf⟩ | hf)
    · exact ⟨.inl hf, hne⟩
    · exact ⟨.inr hf, fun he => hg (he ▸ hf)⟩
  · rintro ⟨hf | hf, hne⟩
    · exact .inl ⟨hne, hf⟩
    · exact .inr hf

/-- A kernel page that becomes a table keeps its owner. -/
theorem mem_owned_move {dirs dirs' kp : Finset Nat} {k k' : Kmem} {f g : Nat} (hg : g ∈ kp)
    (htab : tabFrames dirs' k' = insert g (tabFrames dirs k)) :
    f ∈ owned dirs' (kp.erase g) k' ↔ f ∈ owned dirs kp k := by
  simp only [mem_owned, htab, Finset.mem_erase, Finset.mem_insert]
  constructor
  · rintro (⟨-, hf⟩ | rfl | hf)
    · exact .inl hf
    · exact .inl hg
    · exact .inr hf
  · rintro (hf | hf)
    · by_cases he : f = g
      · exact .inr (.inl he)
      · exact .inl ⟨he, hf⟩
    · exact .inr (.inr hf)

section
variable {d v : Nat}

theorem userRef_some {k : Kmem} (hp : has (pte k d v) .p = true) :
    userRef k (d, v) = some (pteFrame (pte k d v)) := by
  simp [userRef, refOf, hp]

theorem userRef_none {k : Kmem} (habs : has (pte k d v) .p = false) : userRef k (d, v) = none := by
  simp [userRef, refOf, habs]

theorem SetPte.userRef {k k' : Kmem} {dirs : Finset Nat} {w : Word} {x : Nat × Nat}
    (h : SetPte dirs d v w k k') (hx : x ∈ userSlots dirs) :
    userRef k' x = update (userRef k) (d, v) (refOf w) x := by
  obtain ⟨hd', hv'⟩ := mem_userSlots.mp hx
  rw [Xv6.userRef, h _ hd' _ (hv'.trans nupages_lt)]
  by_cases he : x.1 = d ∧ x.2 = v
  · have : x = (d, v) := Prod.ext he.1 he.2
    rw [if_pos he, this, update_self]
  · have : x ≠ (d, v) := fun hx => he ⟨congrArg Prod.fst hx, congrArg Prod.snd hx⟩
    rw [if_neg he, update_of_ne this, Xv6.userRef]

theorem upage_eq_none {k : Kmem} : upage k d v = none ↔ has (pte k d v) .p = false := by
  unfold upage
  split <;> simp_all

theorem upage_eq_some {k : Kmem} {e : Word} {page : Nat → Word} :
    upage k d v = some (e, page) ↔
      has e .p = true ∧ pte k d v = e ∧ k.mem (pteFrame e) = page := by
  unfold upage
  split
  · next h =>
      simp only [Option.some.injEq, Prod.mk.injEq]
      constructor
      · rintro ⟨rfl, rfl⟩; exact ⟨h, rfl, rfl⟩
      · rintro ⟨-, rfl, rfl⟩; exact ⟨rfl, rfl⟩
  · next h =>
      simp only [reduceCtorEq, false_iff, not_and]
      rintro hp rfl
      exact absurd hp h

theorem upage_congr {k k' : Kmem} (hpte : pte k' d v = pte k d v)
    (hmem : has (pte k d v) .p = true →
      k'.mem (pteFrame (pte k d v)) = k.mem (pteFrame (pte k d v))) :
    upage k' d v = upage k d v := by
  unfold upage
  rw [hpte]
  split
  · next hp => rw [hmem hp]
  · rfl

end

/-- Overwriting a frame only changes the pages mapped to it. -/
theorem upage_fill {k : Kmem} {dirs : Finset Nat} {d v f : Nat} (hf : f ∉ tabFrames dirs k)
    (page : Nat → Word) (hd : d ∈ dirs) (hv : v < nupages) (hne : userRef k (d, v) ≠ some f) :
    upage (k.fill f page) d v = upage k d v := by
  have hmem : ∀ g ∈ tabFrames dirs k, (k.fill f page).mem g = k.mem g := by
    intro g hg
    have : g ≠ f := by rintro rfl; exact hf hg
    simp [Kmem.fill, this]
  refine upage_congr (pte_congr hmem hd (hv.trans nupages_lt)).1 (fun hp => ?_)
  have : pteFrame (pte k d v) ≠ f := by
    rintro rfl
    exact hne (userRef_some hp)
  simp [Kmem.fill, this]

section
variable [Layout] {man : Nat → Prop} {dirs kp : Finset Nat} {k k' : Kmem} {d v f g i : Nat}

namespace Inv

section
variable (h : Inv man dirs kp k)
include h

theorem lt_npages (hf : man f) : f < npages := by
  have := (h.man_range f hf).2
  simp only [v2p, pgsize, phystop, npages] at *
  omega

theorem owned_man (hf : f ∈ owned dirs kp k) : man f := h.ledger.own_man f hf

theorem kp_man (hf : f ∈ kp) : man f := h.owned_man (mem_owned.mpr (.inl hf))

theorem kp_refcnt (hf : f ∈ kp) : k.refcnt f = 1 :=
  h.ledger.count_own f (mem_owned.mpr (.inl hf))

theorem kp_not_tab (hf : f ∈ kp) : f ∉ tabFrames dirs k := h.tables.kp_tab f hf

theorem kp_not_dir (hf : f ∈ kp) : f ∉ dirs :=
  fun hd => h.kp_not_tab hf (dirs_subset_tabFrames hd)

section
variable (hd : d ∈ dirs) (hv : v < nupages) (hp : has (pte k d v) .p = true)
include hd hv hp

/-- A frame mapped by a user page is the allocator's and not the kernel's. -/
theorem user_man : man (pteFrame (pte k d v)) ∧ pteFrame (pte k d v) ∉ owned dirs kp k :=
  h.ledger.ref_man (d, v) (mem_userSlots.mpr ⟨hd, hv⟩) _ (userRef_some hp)

theorem user_not_kp : pteFrame (pte k d v) ∉ kp :=
  fun hk => (h.user_man hd hv hp).2 (mem_owned.mpr (.inl hk))

theorem user_not_tab : pteFrame (pte k d v) ∉ tabFrames dirs k :=
  fun hk => (h.user_man hd hv hp).2 (mem_owned.mpr (.inr hk))

theorem user_refcnt_pos : 0 < k.refcnt (pteFrame (pte k d v)) :=
  h.ledger.refcnt_pos (mem_userSlots.mpr ⟨hd, hv⟩) (userRef_some hp)

section
variable {d' v' : Nat} (hd' : d' ∈ dirs) (hv' : v' < nupages)
include hd' hv'

/-- Two user pages on one frame that counts one are the same page. -/
theorem user_unique (hp' : has (pte k d' v') .p = true)
    (hf : pteFrame (pte k d' v') = pteFrame (pte k d v))
    (h1 : k.refcnt (pteFrame (pte k d v)) = 1) : d' = d ∧ v' = v := by
  have := h.ledger.unique_ref (mem_userSlots.mpr ⟨hd', hv'⟩) (mem_userSlots.mpr ⟨hd, hv⟩)
    (by rw [userRef_some hp', hf]) (userRef_some hp) h1
  exact ⟨congrArg Prod.fst this, congrArg Prod.snd this⟩

/-- The memory of a user frame after its reference at `(d, v)` is dropped: other
pages on the frame keep it alive. -/
theorem decref_mem_other (hp' : has (pte k d' v') .p = true) (hne : ¬ (d' = d ∧ v' = v)) :
    (k.decref (pteFrame (pte k d v))).mem (pteFrame (pte k d' v')) =
      k.mem (pteFrame (pte k d' v')) := by
  by_cases he : pteFrame (pte k d' v') = pteFrame (pte k d v)
  · have hpos := h.user_refcnt_pos hd hv hp
    have hgt : 1 < k.refcnt (pteFrame (pte k d v)) := by
      by_contra hle
      exact hne (h.user_unique hd hv hp hd' hv' hp' he (by omega))
    rw [k.decref_mem_shared hgt]
  · exact k.decref_mem_of_ne he

/-- Writable pages after a reference at `(d, v)` is dropped. -/
theorem decref_excl (hne : ¬ (d' = d ∧ v' = v)) (hp' : has (pte k d' v') .p = true)
    (hw' : has (pte k d' v') .w = true) :
    (k.decref (pteFrame (pte k d v))).refcnt (pteFrame (pte k d' v')) = 1 := by
  have h1 := h.excl d' hd' v' hv' hp' hw'
  have hfr : pteFrame (pte k d' v') ≠ pteFrame (pte k d v) := by
    intro he
    have hu := h.user_unique hd' hv' hp' hd hv hp he.symm h1
    exact hne ⟨hu.1.symm, hu.2.symm⟩
  rw [Kmem.decref_refcnt, update_of_ne hfr]
  exact h1

end

/-- Dropping a reference does not touch the tables. -/
theorem decref_mem_tab (hg : g ∈ tabFrames dirs k) :
    (k.decref (pteFrame (pte k d v))).mem g = k.mem g := by
  refine k.decref_mem_of_ne ?_
  rintro rfl
  exact h.user_not_tab hd hv hp hg

end

/-! ### Changes that leave every mapping alone -/

/-- The invariant depends on the tables only through their entries. -/
theorem of_pte {man' : Nat → Prop} {kp' : Finset Nat} (ht : Tables dirs kp' k')
    (hman : ∀ f, man' f → Layout.kend ≤ kernbase + v2p f ∧ v2p f < phystop)
    (hl : Ledger man' (· ∈ owned dirs kp' k') (userSlots dirs) (userRef k) k'.refcnt k'.freelist)
    (hpte : ∀ d ∈ dirs, ∀ v < npages, pte k' d v = pte k d v)
    (hcount : ∀ d ∈ dirs, ∀ v < nupages, has (pte k d v) .p = true →
      k'.refcnt (pteFrame (pte k d v)) = k.refcnt (pteFrame (pte k d v))) :
    Inv man' dirs kp' k' := by
  refine ⟨ht, hman, hl.congr (fun _ => Iff.rfl) fun x hx => ?_, fun d hd v hlo hhi => ?_,
    fun d hd v hv hp hw => ?_⟩
  · obtain ⟨hd, hv⟩ := mem_userSlots.mp hx
    rw [userRef, userRef, hpte _ hd _ (hv.trans nupages_lt)]
  · rw [hpte d hd v hhi]
    exact h.kern_flags d hd v hlo hhi
  · rw [hpte d hd v (hv.trans nupages_lt)] at hp hw ⊢
    rw [hcount d hd v hv hp]
    exact h.excl d hd v hv hp hw

/-- The invariant depends on memory only through the table frames. -/
theorem congr_mem (hmem : ∀ f ∈ tabFrames dirs k, k'.mem f = k.mem f)
    (hrefcnt : k'.refcnt = k.refcnt) (hfree : k'.freelist = k.freelist) : Inv man dirs kp k' := by
  have hdir : ∀ d ∈ dirs, k'.mem d = k.mem d := fun d hd => hmem d (dirs_subset_tabFrames hd)
  have hown : owned dirs kp k' = owned dirs kp k := by rw [owned, owned, tabFrames_congr hdir]
  refine h.of_pte (h.tables.congr hdir) h.man_range ?_ (fun d hd v hv => (pte_congr hmem hd hv).1)
    fun _ _ _ _ _ => by rw [hrefcnt]
  rw [hrefcnt, hfree, hown]
  exact h.ledger

theorem fill (hf : f ∉ tabFrames dirs k) (page : Nat → Word) :
    Inv man dirs kp (k.fill f page) := by
  refine h.congr_mem (fun g hg => ?_) rfl rfl
  have : g ≠ f := by rintro rfl; exact hf hg
  simp [Kmem.fill, this]

theorem userRef_ne_kp (hf : f ∈ kp) (hd : d ∈ dirs) (hv : v < nupages) :
    userRef k (d, v) ≠ some f := by
  intro hr
  obtain ⟨hp, rfl⟩ := refOf_eq_some.mp hr
  exact h.user_not_kp hd hv hp hf

/-- Overwriting a kernel page is invisible to users. -/
theorem upage_fill_kp (hf : f ∈ kp) (page : Nat → Word) (hd : d ∈ dirs) (hv : v < nupages) :
    upage (k.fill f page) d v = upage k d v :=
  upage_fill (h.kp_not_tab hf) page hd hv (h.userRef_ne_kp hf hd hv)

end

end Inv

/-! ### What a function leaves alone -/

/-- The directories other than `d` are as they were, and so are the counts of the frames that
the allocator does not have. -/
structure Apart (man : Nat → Prop) (dirs : Finset Nat) (d : Nat) (k k' : Kmem) : Prop where
  dir : ∀ d' ∈ dirs, d' ≠ d → k'.mem d' = k.mem d'
  refcnt : ∀ f, ¬ man f → k'.refcnt f = k.refcnt f

namespace Apart

variable {dirs' : Finset Nat} {d' t j : Nat} {w : Word} {k1 : Kmem}

omit [Layout]

theorem refl (k : Kmem) : Apart man dirs d k k := ⟨fun _ _ _ => rfl, fun _ _ => rfl⟩

theorem trans (h1 : Apart man dirs d k k1) (h2 : Apart man dirs d k1 k') :
    Apart man dirs d k k' :=
  ⟨fun d' hd' hne => (h2.dir d' hd' hne).trans (h1.dir d' hd' hne),
    fun f hf => (h2.refcnt f hf).trans (h1.refcnt f hf)⟩

theorem mono (h : Apart man dirs d k k') (hsub : ∀ d1 ∈ dirs', d1 ≠ d' → d1 ∈ dirs ∧ d1 ≠ d) :
    Apart man dirs' d' k k' :=
  ⟨fun d1 hd1 hne => h.dir d1 (hsub d1 hd1 hne).1 (hsub d1 hd1 hne).2, h.refcnt⟩

theorem fill (hf : f ∉ dirs) (page : Nat → Word) : Apart man dirs d k (k.fill f page) := by
  refine ⟨fun d' hd' _ => ?_, fun _ _ => rfl⟩
  have hne : d' ≠ f := by rintro rfl; exact hf hd'
  simp [Kmem.fill, hne]

theorem store (ht : t ∈ dirs → t = d) : Apart man dirs d k (k.store t j w) := by
  refine ⟨fun d' hd' hne => ?_, fun _ _ => rfl⟩
  have hne' : d' ≠ t := by rintro rfl; exact hne (ht hd')
  simp [Kmem.store, hne']

theorem pte (h : Tables dirs kp k) (hd : d' ∈ dirs) (hv : v < npages)
    (hloc : pteLoc k d' v = some (t, j)) : Apart man dirs d k (k.store t j w) :=
  .store fun ht => absurd ht (h.loc_not_dir hd hv hloc)

theorem alloc (hf : man f) (rest : List Nat) :
    Apart man dirs d k { k with freelist := rest, refcnt := update k.refcnt f 1 } := by
  refine ⟨fun _ _ _ => rfl, fun g hg => ?_⟩
  have hne : g ≠ f := by rintro rfl; exact hg hf
  show update k.refcnt f 1 g = k.refcnt g
  rw [update_of_ne hne]

theorem decref (hf : man f) (hd : f ∉ dirs) : Apart man dirs d k (k.decref f) := by
  refine ⟨fun d' hd' _ => k.decref_mem_of_ne ?_, fun g hg => ?_⟩
  · rintro rfl
    exact hd hd'
  · have hne : g ≠ f := by rintro rfl; exact hg hf
    rw [Kmem.decref_refcnt, update_of_ne hne]

end Apart

namespace Inv

variable (h : Inv man dirs kp k)
include h

/-- The reference counts follow from the tables and the user pages. -/
theorem refcnt_eq (h' : Inv man dirs kp k')
    (hdir : ∀ d ∈ dirs, k'.mem d = k.mem d)
    (href : ∀ d ∈ dirs, ∀ v < nupages, userRef k' (d, v) = userRef k (d, v)) (hf : man f) :
    k'.refcnt f = k.refcnt f := by
  have hown : owned dirs kp k' = owned dirs kp k := by rw [owned, owned, tabFrames_congr hdir]
  by_cases ho : f ∈ owned dirs kp k
  · rw [h.ledger.count_own f ho, h'.ledger.count_own f (by rw [hown]; exact ho)]
  · rw [h.ledger.count_ref f hf ho, h'.ledger.count_ref f hf (by rw [hown]; exact ho)]
    refine congrArg Finset.card (refsTo_congr fun x hx => ?_)
    obtain ⟨hd, hv⟩ := mem_userSlots.mp hx
    exact href _ hd _ hv

theorem counts_eq (h' : Inv man dirs kp k')
    (hapart : ∀ c, Apart man dirs c k k')
    (href : ∀ d ∈ dirs, ∀ v < nupages, userRef k' (d, v) = userRef k (d, v)) :
    (∀ f, k'.refcnt f = k.refcnt f) ∧ ∀ f, f ∈ k'.freelist ↔ f ∈ k.freelist := by
  have hdir : ∀ d ∈ dirs, k'.mem d = k.mem d := fun d hd =>
    (hapart (d + 1)).dir d hd (Nat.ne_of_lt (Nat.lt_succ_self d))
  have hcount : ∀ f, k'.refcnt f = k.refcnt f := by
    intro f
    by_cases hm : man f
    · exact h.refcnt_eq h' hdir href hm
    · exact (hapart 0).refcnt f hm
  refine ⟨hcount, fun f => ?_⟩
  rw [h'.ledger.free_iff, h.ledger.free_iff, hcount]

/-- The count of a frame when a directory is replaced by one that does not map it: the
references of the old directory are gone. -/
theorem refcnt_replace {d' : Nat} (h' : Inv man (insert d' (dirs.erase d)) kp k') (hd : d ∈ dirs)
    (hf : man f) (hown : f ∉ owned dirs kp k) (hown' : f ∉ owned (insert d' (dirs.erase d)) kp k')
    (href : ∀ d1 ∈ dirs.erase d, ∀ v < nupages, userRef k' (d1, v) = userRef k (d1, v))
    (hnew : ∀ v < nupages, userRef k' (d', v) ≠ some f) :
    k'.refcnt f + ((Finset.range nupages).filter fun v => userRef k (d, v) = some f).card =
      k.refcnt f := by
  rw [h.ledger.count_ref f hf hown, h'.ledger.count_ref f hf hown']
  -- the references of the other directories, then those of the old one
  have hrest : refsTo (userSlots (insert d' (dirs.erase d))) (userRef k') f =
      refsTo (userSlots (dirs.erase d)) (userRef k) f := by
    ext ⟨d1, v⟩
    simp only [mem_refsTo, mem_userSlots, Finset.mem_insert]
    constructor
    · rintro ⟨⟨rfl | hd1, hv⟩, hr⟩
      · exact absurd hr (hnew v hv)
      · exact ⟨⟨hd1, hv⟩, (href d1 hd1 v hv).symm.trans hr⟩
    · rintro ⟨⟨hd1, hv⟩, hr⟩
      exact ⟨⟨.inr hd1, hv⟩, (href d1 hd1 v hv).trans hr⟩
  have hsplit : refsTo (userSlots dirs) (userRef k) f =
      refsTo (userSlots (dirs.erase d)) (userRef k) f ∪
        ((Finset.range nupages).filter fun v => userRef k (d, v) = some f).image (Prod.mk d) := by
    ext ⟨d1, v⟩
    simp only [mem_refsTo, mem_userSlots, Finset.mem_union, Finset.mem_erase, Finset.mem_image,
      Finset.mem_filter, Finset.mem_range, Prod.mk.injEq]
    constructor
    · rintro ⟨⟨hd1, hv⟩, hr⟩
      by_cases he : d1 = d
      · subst he
        exact .inr ⟨v, ⟨hv, hr⟩, rfl, rfl⟩
      · exact .inl ⟨⟨⟨he, hd1⟩, hv⟩, hr⟩
    · rintro (⟨⟨⟨-, hd1⟩, hv⟩, hr⟩ | ⟨_, ⟨hv, hr⟩, rfl, rfl⟩)
      · exact ⟨⟨hd1, hv⟩, hr⟩
      · exact ⟨⟨hd, hv⟩, hr⟩
  have hdisj : Disjoint (refsTo (userSlots (dirs.erase d)) (userRef k) f)
      (((Finset.range nupages).filter fun v => userRef k (d, v) = some f).image (Prod.mk d)) := by
    rw [Finset.disjoint_left]
    rintro ⟨d1, v⟩ hx hy
    obtain ⟨_, -, he⟩ := Finset.mem_image.mp hy
    have hd1 := (mem_userSlots.mp (mem_refsTo.mp hx).1).1
    exact (Finset.mem_erase.mp hd1).1 (congrArg Prod.fst he).symm
  rw [hrest, hsplit, Finset.card_union_of_disjoint hdisj,
    Finset.card_image_of_injective _ (Prod.mk_right_injective d)]

/-! ### Allocating and releasing kernel pages -/

/-- A page taken from the free list is a new kernel page. -/
theorem kalloc {rest : List Nat} (hfree : k.freelist = f :: rest) :
    Inv man dirs (insert f kp) { k with freelist := rest, refcnt := update k.refcnt f 1 } := by
  have hl := h.ledger
  rw [hfree] at hl
  obtain ⟨hown, href⟩ := hl.free_idle (List.mem_cons_self)
  have hnt : f ∉ tabFrames dirs k := fun hm => hown (mem_owned.mpr (.inr hm))
  refine h.of_pte ((h.tables.kp_insert hnt).congr fun _ _ => rfl) h.man_range ?_
    (fun _ _ _ _ => rfl) fun d hd v hv hp => ?_
  · refine hl.alloc.congr (fun g => ?_) (fun _ _ => rfl)
    simp only [mem_owned, Finset.mem_insert]
    constructor
    · rintro ((rfl | hg) | hg)
      · exact .inr rfl
      · exact .inl (.inl hg)
      · exact .inl (.inr hg)
    · rintro ((hg | hg) | rfl)
      · exact .inl (.inr hg)
      · exact .inr hg
      · exact .inl (.inl rfl)
  · refine update_of_ne (fun he => ?_) _ _
    exact href (d, v) (mem_userSlots.mpr ⟨hd, hv⟩) (he ▸ userRef_some hp)

theorem free_range (hf : f ∈ k.freelist) : v2p f < phystop :=
  (h.man_range f ((h.ledger.free_iff f).mp hf).1).2

theorem free_not_kp (hf : f ∈ k.freelist) : f ∉ kp ∧ f ∉ tabFrames dirs k := by
  have := (h.ledger.free_idle hf).1
  rw [mem_owned, not_or] at this
  exact this

/-! ### Dropping a reference -/

/-- Releasing a kernel page returns it to the free list. -/
theorem kfree (hf : f ∈ kp) : Inv man dirs (kp.erase f) (k.decref f) := by
  have hnt := h.kp_not_tab hf
  have hmem : ∀ g ∈ tabFrames dirs k, (k.decref f).mem g = k.mem g := by
    intro g hg
    refine k.decref_mem_of_ne ?_
    rintro rfl
    exact hnt hg
  have hdir : ∀ d ∈ dirs, (k.decref f).mem d = k.mem d :=
    fun d hd => hmem d (dirs_subset_tabFrames hd)
  refine h.of_pte ((h.tables.congr hdir).kp_subset (Finset.erase_subset _ _)) h.man_range ?_
    (fun d hd v hv => (pte_congr hmem hd hv).1) fun d hd v hv hp => ?_
  · rw [Kmem.decref_refcnt, Kmem.decref_freelist, h.kp_refcnt hf, if_neg (by omega)]
    exact (h.ledger.release (mem_owned.mpr (.inl hf))).congr
      (fun g => mem_owned_erase hnt (tabFrames_congr hdir)) fun _ _ => rfl
  · have hne : pteFrame (pte k d v) ≠ f := by
      rintro rfl
      exact h.user_not_kp hd hv hp hf
    rw [Kmem.decref_refcnt, update_of_ne hne]

/-- Releasing a kernel page is invisible to users. -/
theorem upage_kfree (hf : f ∈ kp) (hd : d ∈ dirs) (hv : v < nupages) :
    upage (k.decref f) d v = upage k d v := by
  have hmem : ∀ g, g ≠ f → (k.decref f).mem g = k.mem g := fun g hg => k.decref_mem_of_ne hg
  refine upage_congr (pte_congr (fun g hg => hmem g ?_) hd (hv.trans nupages_lt)).1 (fun hp => ?_)
  · rintro rfl
    exact h.kp_not_tab hf hg
  · refine hmem _ ?_
    rintro rfl
    exact h.user_not_kp hd hv hp hf

/-! ### New tables and directories -/

/-- A zeroed kernel page becomes a page table. -/
theorem newTable (hd : d ∈ dirs) (hi : i < 1024) (habs : has (k.mem d i) .p = false) (hg : g ∈ kp)
    (hzero : ∀ j, k.mem g j = 0#32) :
    Inv man dirs (kp.erase g) (k.store d i (tableEntry g)) := by
  have hgn := h.lt_npages (h.kp_man hg)
  refine h.of_pte (h.tables.newTable hd hi habs hgn hg) h.man_range ?_
    (fun d' hd' v hv => h.tables.pte_newTable hd habs hgn hg hzero hd' hv) fun _ _ _ _ _ => rfl
  exact h.ledger.congr (fun f => mem_owned_move hg (tabFrames_newTable hd hi habs hgn))
    fun _ _ => rfl

/-- A new page table is invisible to users. -/
theorem upage_newTable (hd : d ∈ dirs) (habs : has (k.mem d i) .p = false) (hg : g ∈ kp)
    (hzero : ∀ j, k.mem g j = 0#32) {d' : Nat} (hd' : d' ∈ dirs) (hv : v < nupages) :
    upage (k.store d i (tableEntry g)) d' v = upage k d' v := by
  refine upage_congr (h.tables.pte_newTable hd habs (h.lt_npages (h.kp_man hg)) hg hzero hd'
    (hv.trans nupages_lt)) (fun hp => ?_)
  have hne : pteFrame (pte k d' v) ≠ d := by
    intro he
    exact h.user_not_tab hd' hv hp (he ▸ dirs_subset_tabFrames hd)
  simp [Kmem.store, hne]

/-- A zeroed kernel page becomes a directory with nothing mapped. -/
theorem newDir (hg : g ∈ kp) (hzero : ∀ j, k.mem g j = 0#32) :
    Inv man (insert g dirs) (kp.erase g) k := by
  constructor
  · exact h.tables.newDir hg hzero
  · exact h.man_range
  · have hl := h.ledger.slots (userSlots (insert g dirs)) (fun x hx hnot => ?_)
      (fun x hx hnot => ?_)
    · exact hl.congr (fun f => mem_owned_move hg (tabFrames_newDir hzero)) fun _ _ => rfl
    · obtain ⟨hd, hv⟩ := mem_userSlots.mp hx
      rcases Finset.mem_insert.mp hd with he | hd
      · rw [userRef, he, pte_zero_dir hzero, refOf_zero]
      · exact absurd (mem_userSlots.mpr ⟨hd, hv⟩) hnot
    · obtain ⟨hd, hv⟩ := mem_userSlots.mp hx
      exact absurd (mem_userSlots.mpr ⟨Finset.mem_insert_of_mem hd, hv⟩) hnot
  · intro d hd v hlo hhi
    rcases Finset.mem_insert.mp hd with rfl | hd
    · simp [pte_zero_dir hzero]
    · exact h.kern_flags d hd v hlo hhi
  · intro d hd v hv hp
    rcases Finset.mem_insert.mp hd with rfl | hd
    · simp [pte_zero_dir hzero] at hp
    · exact h.excl d hd v hv hp

/-- A directory with no user mappings left, taken out of use. -/
theorem retire (hd : d ∈ dirs) (hnone : ∀ v < nupages, upage k d v = none) :
    Inv man (dirs.erase d) (kp ∪ insert d (ptFrames k d)) k := by
  constructor
  · exact h.tables.retire hd
  · exact h.man_range
  · have hl := h.ledger.slots (userSlots (dirs.erase d)) (fun x hx hnot => ?_)
      (fun x hx hnot => ?_)
    · refine hl.congr (fun f => ?_) (fun _ _ => rfl)
      simp only [mem_owned, Finset.mem_union, tabFrames_retire hd f]
      constructor
      · rintro ((hf | hf) | hf)
        · exact .inl hf
        · exact .inr (.inr hf)
        · exact .inr (.inl hf)
      · rintro (hf | hf | hf)
        · exact .inl (.inl hf)
        · exact .inr hf
        · exact .inl (.inr hf)
    · obtain ⟨hx1, hv⟩ := mem_userSlots.mp hx
      exact absurd (mem_userSlots.mpr ⟨Finset.mem_of_mem_erase hx1, hv⟩) hnot
    · obtain ⟨hx1, hv⟩ := mem_userSlots.mp hx
      by_cases he : x.1 = d
      · rw [userRef, he]
        exact refOf_eq_none.mpr (upage_eq_none.mp (hnone x.2 hv))
      · exact absurd (mem_userSlots.mpr ⟨Finset.mem_erase.mpr ⟨he, hx1⟩, hv⟩) hnot
  · exact fun d' hd' => h.kern_flags d' (Finset.mem_of_mem_erase hd')
  · exact fun d' hd' => h.excl d' (Finset.mem_of_mem_erase hd')

/-! ### Writing one entry -/

variable {t j : Nat} {w : Word}

/-- What one new entry needs for the invariant to stay. -/
theorem setPte {kp' : Finset Nat} (hs : SetPte dirs d v w k k') (ht : Tables dirs kp' k')
    (hl : Ledger man (· ∈ owned dirs kp' k') (userSlots dirs)
      (update (userRef k) (d, v) (refOf w)) k'.refcnt k'.freelist)
    (hkern : nupages ≤ v → has w .u = false ∧ has w .cow = false)
    (hnew : v < nupages → has w .p = true → has w .w = true → k'.refcnt (pteFrame w) = 1)
    (hold : ∀ d' ∈ dirs, ∀ v' < nupages, ¬ (d' = d ∧ v' = v) → has (pte k d' v') .p = true →
      has (pte k d' v') .w = true → k'.refcnt (pteFrame (pte k d' v')) = 1) :
    Inv man dirs kp' k' := by
  refine ⟨ht, h.man_range, hl.congr (fun _ => Iff.rfl) fun x hx => hs.userRef hx,
    fun d' hd' v' hlo hhi => ?_, fun d' hd' v' hv' hp hw => ?_⟩
  · rw [hs d' hd' v' hhi]
    split
    · next hdv => exact hkern (hdv.2 ▸ hlo)
    · exact h.kern_flags d' hd' v' hlo hhi
  · rw [hs d' hd' v' (hv'.trans nupages_lt)] at hp hw ⊢
    split at hp <;> rename_i hdv
    · rw [if_pos hdv] at hw ⊢
      exact hnew (hdv.2 ▸ hv') hp hw
    · rw [if_neg hdv] at hw ⊢
      exact hold d' hd' v' hv' hdv hp hw

section
variable (hd : d ∈ dirs) (hv : v < npages) (hloc : pteLoc k d v = some (f, j))
include hd hv hloc

theorem setPte_store : SetPte dirs d v w k (k.store f j w) :=
  fun _ hd' _ hv' => h.tables.pte_store w hd hv hloc hd' hv'

theorem tabFrames_store : tabFrames dirs (k.store f j w) = tabFrames dirs k :=
  tabFrames_congr fun _ hd' => h.tables.store_mem_dir hd hv hloc hd'

theorem owned_store : owned dirs kp (k.store f j w) = owned dirs kp k := by
  rw [owned, owned, h.tabFrames_store hd hv hloc]

theorem tables_store : Tables dirs kp (k.store f j w) :=
  h.tables.congr fun _ hd' => h.tables.store_mem_dir hd hv hloc hd'

/-- A write to the entry of `(d, v)` is invisible at every other user page. -/
theorem upage_store {d' v' : Nat} (hd' : d' ∈ dirs) (hv' : v' < nupages)
    (hne : ¬ (d' = d ∧ v' = v)) : upage (k.store f j w) d' v' = upage k d' v' := by
  refine upage_congr ?_ (fun hp => ?_)
  · rw [h.tables.pte_store w hd hv hloc hd' (hv'.trans nupages_lt), if_neg hne]
  · exact store_mem_of_not_tab hd hv hloc (h.user_not_tab hd' hv' hp)

/-- Entering a kernel mapping keeps the invariant. -/
theorem mapKern (hlo : nupages ≤ v) (hu : has w .u = false) (hcow : has w .cow = false) :
    Inv man dirs kp (k.store f j w) := by
  refine h.setPte (h.setPte_store hd hv hloc) (h.tables_store hd hv hloc) ?_ (fun _ => ⟨hu, hcow⟩)
    (fun hlt => by omega) fun d' hd' v' hv' _ => h.excl d' hd' v' hv'
  refine h.ledger.congr (fun g => by rw [h.owned_store hd hv hloc]) fun x hx => ?_
  refine update_of_ne ?_ _ _
  rintro rfl
  exact absurd (mem_userSlots.mp hx).2 (by omega)

end

section
variable (hd : d ∈ dirs) (hv : v < nupages) (hloc : pteLoc k d v = some (f, j))
include hd hv hloc

/-- A kernel page becomes a user page. -/
theorem mapUser (habs : has (pte k d v) .p = false) (hg : g ∈ kp) (hp : has w .p = true)
    (hfr : pteFrame w = g) : Inv man dirs (kp.erase g) (k.store f j w) := by
  have hvn := hv.trans nupages_lt
  refine h.setPte (h.setPte_store hd hvn hloc)
    ((h.tables_store hd hvn hloc).kp_subset (Finset.erase_subset _ _)) ?_ (fun hlo => by omega)
    (fun _ _ _ => hfr ▸ h.kp_refcnt hg) fun d' hd' v' hv' _ => h.excl d' hd' v' hv'
  rw [refOf_eq_some.mpr ⟨hp, hfr⟩]
  exact (h.ledger.hand (mem_owned.mpr (.inl hg)) (mem_userSlots.mpr ⟨hd, hv⟩)
    (userRef_none habs)).congr
    (fun x => mem_owned_erase (h.kp_not_tab hg) (h.tabFrames_store hd hvn hloc)) fun _ _ => rfl

/-- Editing the flags of a present user entry. -/
theorem reflag (hold : has (pte k d v) .p = true) (hp : has w .p = true)
    (hfr : pteFrame w = pteFrame (pte k d v))
    (hw : has w .w = true → k.refcnt (pteFrame (pte k d v)) = 1) :
    Inv man dirs kp (k.store f j w) := by
  have hvn := hv.trans nupages_lt
  refine h.setPte (h.setPte_store hd hvn hloc) (h.tables_store hd hvn hloc) ?_
    (fun hlo => by omega) (fun _ _ hw' => hfr ▸ hw hw')
    fun d' hd' v' hv' _ => h.excl d' hd' v' hv'
  rw [refOf_eq_some.mpr ⟨hp, hfr⟩, ← userRef_some hold, Function.update_eq_self]
  exact h.ledger.congr (fun g => by rw [h.owned_store hd hvn hloc]) fun _ _ => rfl

/-- A second user page starts sharing the frame of a page that is not writable. -/
theorem share {d0 v0 : Nat} (habs : has (pte k d v) .p = false) (hd0 : d0 ∈ dirs)
    (hv0 : v0 < nupages) (hp0 : has (pte k d0 v0) .p = true) (hw0 : has (pte k d0 v0) .w = false)
    (hg : pteFrame (pte k d0 v0) = g) (hp : has w .p = true) (hfr : pteFrame w = g)
    (hw : has w .w = false) : Inv man dirs kp ((k.store f j w).incref g) := by
  have hvn := hv.trans nupages_lt
  have href0 : userRef k (d0, v0) = some g := hg ▸ userRef_some hp0
  refine h.setPte (h.setPte_store hd hvn hloc)
    ((h.tables_store hd hvn hloc).congr fun _ _ => rfl) ?_ (fun hlo => by omega)
    (fun _ _ hw' => absurd (hw.symm.trans hw') (by simp)) fun d' hd' v' hv' _ hp' hw' => ?_
  · rw [refOf_eq_some.mpr ⟨hp, hfr⟩]
    refine (h.ledger.share (mem_userSlots.mpr ⟨hd0, hv0⟩) href0 (mem_userSlots.mpr ⟨hd, hv⟩)
      (userRef_none habs)).congr (fun x => ?_) fun _ _ => rfl
    rw [← h.owned_store (w := w) hd hvn hloc]
    rfl
  · have h1 := h.excl d' hd' v' hv' hp' hw'
    -- a writable page on the shared frame would be the read-only page itself
    have hne : pteFrame (pte k d' v') ≠ g := by
      intro he
      have hu := h.user_unique hd' hv' hp' hd0 hv0 hp0 (hg.trans he.symm) h1
      rw [hu.1, hu.2, hw'] at hw0
      exact absurd hw0 (by simp)
    exact (update_of_ne hne _ _).trans h1

end

/-! ### Replacing the mapping of a user page

Both `unmapPte` and `cow_fault` drop the frame behind an entry and overwrite the
entry, in opposite orders; the two writes commute. -/

section
variable (hd : d ∈ dirs) (hv : v < nupages) (hloc : pteLoc k d v = some (t, j))
  (hp : has (pte k d v) .p = true)
include hd hv hloc hp

theorem setPte_drop : SetPte dirs d v w k ((k.decref (pteFrame (pte k d v))).store t j w) := by
  intro d' hd' v' hv'
  have hmem := fun g hg => h.decref_mem_tab hd hv hp (g := g) hg
  have htab := h.tables.congr (fun d hd => hmem d (dirs_subset_tabFrames hd))
  have hpl := fun d' hd' v' hv' => pte_congr hmem (d := d') hd' (v := v') hv'
  rw [htab.pte_store w hd (hv.trans nupages_lt)
    ((hpl d hd v (hv.trans nupages_lt)).2.trans hloc) hd' hv', (hpl d' hd' v' hv').1]

theorem tables_drop :
    Tables dirs kp ((k.decref (pteFrame (pte k d v))).store t j w) ∧
      tabFrames dirs ((k.decref (pteFrame (pte k d v))).store t j w) = tabFrames dirs k := by
  have hmem := fun g hg => h.decref_mem_tab hd hv hp (g := g) hg
  have hdir := fun d hd => hmem d (dirs_subset_tabFrames (k := k) hd)
  have htab := h.tables.congr hdir
  have hl := (pte_congr hmem hd (hv.trans nupages_lt)).2.trans hloc
  have hst := fun d' (hd' : d' ∈ dirs) =>
    htab.store_mem_dir (w := w) hd (hv.trans nupages_lt) hl hd'
  exact ⟨htab.congr hst, (tabFrames_congr hst).trans (tabFrames_congr hdir)⟩

/-- Replacing the mapping of `(d, v)` is invisible at every other user page. -/
theorem upage_drop {d' v' : Nat} (hd' : d' ∈ dirs) (hv' : v' < nupages)
    (hne : ¬ (d' = d ∧ v' = v)) :
    upage ((k.decref (pteFrame (pte k d v))).store t j w) d' v' = upage k d' v' := by
  refine upage_congr ?_ (fun hp' => ?_)
  · rw [h.setPte_drop hd hv hloc hp d' hd' v' (hv'.trans nupages_lt), if_neg hne]
  · have ht : t ∈ tabFrames dirs k :=
      mem_tabFrames.mpr (.inr ⟨d, hd, pteLoc_mem_ptFrames (hv.trans nupages_lt) hloc⟩)
    have hft : pteFrame (pte k d' v') ≠ t := by
      rintro rfl
      exact h.user_not_tab hd' hv' hp' ht
    simp only [Kmem.store, update_of_ne hft]
    exact h.decref_mem_other hd hv hp hd' hv' hp' hne

theorem unmap : Inv man dirs kp ((k.decref (pteFrame (pte k d v))).store t j 0#32) := by
  obtain ⟨htab, htf⟩ := h.tables_drop (w := 0#32) hd hv hloc hp
  refine h.setPte (h.setPte_drop hd hv hloc hp) htab ?_ (fun hlo => by omega) (by simp)
    fun d' hd' v' hv' => h.decref_excl hd hv hp hd' hv'
  have hl := h.ledger.drop (mem_userSlots.mpr ⟨hd, hv⟩) (userRef_some hp)
  rw [← Kmem.decref_refcnt, ← Kmem.decref_freelist] at hl
  rw [refOf_zero]
  exact hl.congr (fun g => by rw [owned, owned, htf]) fun _ _ => rfl

theorem replace (hg : g ∈ kp) (hwp : has w .p = true) (hfr : pteFrame w = g) :
    Inv man dirs (kp.erase g) ((k.decref (pteFrame (pte k d v))).store t j w) := by
  have hslot : (d, v) ∈ userSlots dirs := mem_userSlots.mpr ⟨hd, hv⟩
  have hgf : g ≠ pteFrame (pte k d v) := by
    rintro rfl
    exact h.user_not_kp hd hv hp hg
  have hg1 : (k.decref (pteFrame (pte k d v))).refcnt g = 1 := by
    rw [Kmem.decref_refcnt, update_of_ne hgf]
    exact h.kp_refcnt hg
  obtain ⟨htab, htf⟩ := h.tables_drop (w := w) hd hv hloc hp
  refine h.setPte (h.setPte_drop hd hv hloc hp) (htab.kp_subset (Finset.erase_subset _ _)) ?_
    (fun hlo => by omega) (fun _ _ _ => hfr ▸ hg1) fun d' hd' v' hv' =>
      h.decref_excl hd hv hp hd' hv'
  have hl := h.ledger.drop hslot (userRef_some hp)
  rw [← Kmem.decref_refcnt, ← Kmem.decref_freelist] at hl
  refine (hl.hand (mem_owned.mpr (.inl hg)) hslot (by simp)).congr
    (fun x => mem_owned_erase (h.kp_not_tab hg) htf) fun x _ => ?_
  rw [refOf_eq_some.mpr ⟨hwp, hfr⟩, Function.update_idem]

end

end Inv

end

end Xv6
