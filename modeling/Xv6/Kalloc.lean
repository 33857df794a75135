import Mathlib.Logic.Function.Basic
import Xv6.Lib.Kern
import Xv6.Mmu

/-!
# Xv6.Kalloc

Physical memory and its reference-counting allocator (`kalloc.c`).

Memory is word-addressed inside each frame, so that page directories and page
tables are ordinary memory: a stray write to a frame in use as a page table
would be visible. The free list is threaded through the free pages in the
source; here it is a list of frames, and the link word written into a freed page
is kept as part of the page's contents.

`refcnt` is an `int` array. It starts at zero and is only decremented when
positive, so a `Nat` represents it as long as it does not overflow, which
`Inv.refcnt_lt` in `Xv6.RefCount.Run` shows. `kmem.lock` is not modelled: every function below
takes and releases it around its own body.
-/

namespace Xv6

open Function (update)

/-- The `panic` messages of the modelled kernel functions. -/
inductive Panic
  /-- `panic("kfree")`, in `kfree` and in `deallocuvm`. -/
  | kfree
  /-- `panic("kfree ref")`. -/
  | kfreeRef
  /-- `panic("kref_inc")`. -/
  | krefInc
  /-- `panic("refindex")`. -/
  | refindex
  /-- `panic("remap")`. -/
  | remap
  /-- `panic("vm_unmap_range")`. -/
  | vmUnmapRange
  /-- `panic("cow refcount")`. -/
  | cowRefcount
  /-- `panic("inituvm: more than a page")`. -/
  | inituvm
  /-- `panic("loaduvm: addr must be page aligned")`. -/
  | loaduvmAlign
  /-- `panic("loaduvm: address should exist")`. -/
  | loaduvmExist
  /-- `panic("clearpteu")`. -/
  | clearpteu
  /-- `panic("userinit: out of memory?")`. -/
  | userinit
  /-- `panic("page fault")`, also the fate of a kernel access through a null
  pointer. -/
  | pageFault
  /-- `panic("init exiting")`. -/
  | initExiting
  deriving DecidableEq, Repr

/-- The kernel symbols placed by the linker script: `data`, the page-aligned
start of the writable kernel data, and `end`, the first address after the
kernel, inside the first 4 MB that `entrypgdir` maps. -/
class Layout where
  data : Nat
  kend : Nat
  data_aligned : data % 4096 = 0
  kernlink_lt_data : kernlink < data
  data_le_kend : data ≤ kend
  kend_le : kend ≤ vlowtop

theorem Layout.kernbase_le_kend [Layout] : kernbase ≤ Layout.kend := by
  have h1 := Layout.kernlink_lt_data
  have h2 := Layout.data_le_kend
  unfold kernlink at h1
  omega

/-- The symbols of one build of the kernel, for running the model. -/
@[reducible] def Layout.sample : Layout where
  data := 0x80108000
  kend := 0x801154a8
  data_aligned := by decide
  kernlink_lt_data := by decide
  data_le_kend := by decide
  kend_le := by decide

/-- Physical memory and the allocator's variables. `oom` counts the calls of
`kalloc` that found the free list empty: a history variable, which no kernel
code reads. -/
structure Kmem where
  mem : Nat → Nat → Word
  refcnt : Nat → Nat
  freelist : List Nat
  oom : Nat

/-- A kernel computation on physical memory. -/
abbrev KM := Kern Kmem Panic

/-! ### Memory accesses -/

namespace Kmem

/-- Overwrite one word. -/
def store (k : Kmem) (f i : Nat) (w : Word) : Kmem :=
  { k with mem := update k.mem f (update (k.mem f) i w) }

/-- Overwrite a whole page. -/
def fill (k : Kmem) (f : Nat) (page : Nat → Word) : Kmem :=
  { k with mem := update k.mem f page }

end Kmem

/-- Read the word a pointer `(frame, index)` refers to. -/
def readWord (p : Nat × Nat) : KM Word := do
  return (← get).mem p.1 p.2

/-- Write the word a pointer `(frame, index)` refers to. -/
def writeWord (p : Nat × Nat) (w : Word) : KM Unit :=
  modify fun k => k.store p.1 p.2 w

/-- The word `memset` stores with `stosl`: the byte `c` four times. -/
def memsetWord (c : Word) : Word := c <<< 24 ||| c <<< 16 ||| c <<< 8 ||| c

/-- `memset(v, c, PGSIZE)`. -/
def memset (v : Nat) (c : Word) : KM Unit :=
  modify fun k => k.fill v (fun _ => memsetWord c)

/-- `memmove(dst, src, PGSIZE)` between two frames. -/
def memmovePage (dst src : Nat) : KM Unit :=
  modify fun k => k.fill dst (k.mem src)

/-! ### The allocator -/

/-- `refindex`: the index of a page-aligned physical address in `refcnt`. -/
def refindex (pa : Nat) : KM Nat :=
  if phystop ≤ pa ∨ pa % pgsize ≠ 0 then throw .refindex
  else pure (pa / pgsize)

/-- The contents of a page on its way to the free list: junk, with the link to
the old head of the list (a kernel virtual address) in the first word. -/
def freedPage (freelist : List Nat) : Nat → Word :=
  update (fun _ => memsetWord 1#32) 0 <|
    match freelist with
    | [] => 0#32
    | r :: _ => BitVec.ofNat 32 (kernbase + v2p r)

/-- Adding one reference. -/
def Kmem.incref (k : Kmem) (v : Nat) : Kmem :=
  { k with refcnt := update k.refcnt v (k.refcnt v + 1) }

/-- Dropping one reference: the count goes down, and at zero the page is filled
with junk and put on the free list. -/
def Kmem.decref (k : Kmem) (v : Nat) : Kmem :=
  if 0 < k.refcnt v - 1 then
    { k with refcnt := update k.refcnt v (k.refcnt v - 1) }
  else
    { k with
      refcnt := update k.refcnt v (k.refcnt v - 1)
      mem := update k.mem v (freedPage k.freelist)
      freelist := v :: k.freelist }

namespace Kmem

section
variable (k : Kmem)
include k

theorem decref_refcnt (f : Nat) : (k.decref f).refcnt = update k.refcnt f (k.refcnt f - 1) := by
  unfold decref
  split <;> rfl

theorem decref_freelist (f : Nat) :
    (k.decref f).freelist = if 0 < k.refcnt f - 1 then k.freelist else f :: k.freelist := by
  unfold decref
  split <;> rfl

theorem length_le_decref (f : Nat) : k.freelist.length ≤ (k.decref f).freelist.length := by
  rw [decref_freelist]
  split <;> simp

theorem decref_mem_of_ne {f g : Nat} (h : g ≠ f) : (k.decref f).mem g = k.mem g := by
  unfold decref
  split
  · rfl
  · simp [h]

theorem decref_mem_shared {f : Nat} (h : 1 < k.refcnt f) : (k.decref f).mem = k.mem := by
  unfold decref
  rw [if_pos (by omega)]

/-- A write to one frame and dropping another commute. -/
theorem store_decref_comm {t j f : Nat} {w : Word} (hne : t ≠ f) :
    (k.store t j w).decref f = (k.decref f).store t j w := by
  unfold decref store
  dsimp only
  split
  · rfl
  · dsimp only
    rw [Function.update_of_ne hne, Function.update_comm hne]

@[simp] theorem decref_oom (f : Nat) : (k.decref f).oom = k.oom := by
  unfold decref
  split <;> rfl

end

end Kmem

section
variable [Layout]

/-- `kfree`: release one reference to a page. -/
def kfree (v : Nat) : KM Unit :=
  if kernbase + v2p v < Layout.kend ∨ phystop ≤ v2p v then throw .kfree
  else do
    let idx ← refindex (v2p v)
    if (← get).refcnt idx = 0 then throw .kfreeRef
    else modify fun k => k.decref idx

/-- The loop of `freerange`, over kernel virtual addresses. -/
def freerangeLoop (vend : Nat) : Nat → Nat → KM Unit
  | 0, _ => pure ()
  | fuel + 1, p =>
    if u32 (p + pgsize) ≤ vend then do
      modify fun k => { k with refcnt := update k.refcnt ((p - kernbase) / pgsize) 1 }
      kfree ((p - kernbase) / pgsize)
      freerangeLoop vend fuel (u32 (p + pgsize))
    else pure ()

/-- `freerange`: put the whole pages of `[vstart, vend)` on the free list. -/
def freerange (vstart vend : Nat) : KM Unit :=
  freerangeLoop vend npages (pgroundup vstart)

/-- `kinit1`. -/
def kinit1 (vstart vend : Nat) : KM Unit := freerange vstart vend

/-- `kinit2`. -/
def kinit2 (vstart vend : Nat) : KM Unit := freerange vstart vend

end

/-- `kalloc`: take a page from the free list; its only owner is the caller. -/
def kalloc : KM (Option Nat) := do
  match (← get).freelist with
  | [] =>
    modify fun k => { k with oom := k.oom + 1 }
    return none
  | r :: next =>
    modify fun k => { k with freelist := next }
    let idx ← refindex (v2p r)
    modify fun k => { k with refcnt := update k.refcnt idx 1 }
    return some r

/-- `kref_inc`: add an owner to an allocated frame. -/
def krefInc (pa : Nat) : KM Unit := do
  let idx ← refindex pa
  if (← get).refcnt idx = 0 then throw .krefInc
  else modify fun k => k.incref idx

/-- `kref_get`: the number of owners of a frame. -/
def krefGet (pa : Nat) : KM Nat := do
  let idx ← refindex pa
  return (← get).refcnt idx

/-! ### How each call ends -/

variable {α : Type} {k : Kmem} {E : Panic → Prop}

@[simp] theorem ends_readWord {p : Nat × Nat} {Q : Word → Kmem → Prop} :
    Ends (readWord p) k Q E ↔ Q (k.mem p.1 p.2) k := by simp [readWord]

@[simp] theorem ends_writeWord {p : Nat × Nat} {w : Word} {Q : Unit → Kmem → Prop} :
    Ends (writeWord p w) k Q E ↔ Q () (k.store p.1 p.2 w) := by rw [writeWord, ends_modify]

theorem memsetWord_zero : memsetWord 0#32 = 0#32 := by decide

@[simp] theorem ends_memset_zero {v : Nat} {Q : Unit → Kmem → Prop} :
    Ends (memset v 0#32) k Q E ↔ Q () (k.fill v (fun _ => 0#32)) := by
  rw [memset, ends_modify, memsetWord_zero]

@[simp] theorem ends_memmovePage {dst src : Nat} {Q : Unit → Kmem → Prop} :
    Ends (memmovePage dst src) k Q E ↔ Q () (k.fill dst (k.mem src)) := by
  rw [memmovePage, ends_modify]

theorem ends_refindex {f : Nat} {Q : Nat → Kmem → Prop} (hf : v2p f < phystop) :
    Ends (refindex (v2p f)) k Q E ↔ Q f k := by
  have h : ¬ (phystop ≤ v2p f ∨ v2p f % pgsize ≠ 0) := by
    simp only [v2p, pgsize] at *
    omega
  rw [refindex, if_neg h, ends_pure]
  simp [v2p, pgsize]

theorem ends_krefGet {f : Nat} {Q : Nat → Kmem → Prop} (hf : v2p f < phystop) :
    Ends (krefGet (v2p f)) k Q E ↔ Q (k.refcnt f) k := by
  rw [krefGet, ends_bind, ends_refindex hf]
  simp

theorem ends_krefInc {f : Nat} {Q : Unit → Kmem → Prop} (hf : v2p f < phystop)
    (hpos : 0 < k.refcnt f) :
    Ends (krefInc (v2p f)) k Q E ↔ Q () (k.incref f) := by
  rw [krefInc, ends_bind, ends_refindex hf]
  have : k.refcnt f ≠ 0 := by omega
  simp [this]

theorem ends_kfree [Layout] {v : Nat} {Q : Unit → Kmem → Prop}
    (hlo : Layout.kend ≤ kernbase + v2p v) (hhi : v2p v < phystop) (hpos : 0 < k.refcnt v) :
    Ends (kfree v) k Q E ↔ Q () (k.decref v) := by
  have h : ¬ (kernbase + v2p v < Layout.kend ∨ phystop ≤ v2p v) := by omega
  have hne : k.refcnt v ≠ 0 := by omega
  rw [kfree, if_neg h, ends_bind, ends_refindex hhi]
  simp [hne]

theorem ends_kalloc_nil {Q : Option Nat → Kmem → Prop} (h : k.freelist = []) :
    Ends kalloc k Q E ↔ Q none { k with oom := k.oom + 1 } := by
  simp [kalloc, h]

theorem ends_kalloc_cons {r : Nat} {next : List Nat} {Q : Option Nat → Kmem → Prop}
    (h : k.freelist = r :: next) (hr : v2p r < phystop) :
    Ends kalloc k Q E ↔
      Q (some r) { k with freelist := next, refcnt := update k.refcnt r 1 } := by
  simp [kalloc, h, ends_refindex hr]

end Xv6
