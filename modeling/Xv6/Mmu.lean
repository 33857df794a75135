import Mathlib.Tactic.IntervalCases

/-!
# Xv6.Mmu

The x86 paging vocabulary of `mmu.h` and `memlayout.h`: 32-bit arithmetic, page
rounding, the split of a virtual address into directory index, table index and
offset, and page-table entries as 32-bit words with their flag bits.

Addresses are `Nat`s below `2 ^ 32`, with the wrap of `uint` arithmetic written
out by `u32`. A physical page (a *frame*) is the number of its address divided
by `PGSIZE`, and kernel pointers to whole pages are frames, since `P2V` and
`V2P` are inverse. Entries are `BitVec 32`, because the kernel builds and edits them
with bit operations. The lemmas here turn those operations into two readings of
an entry, the flags it has and the frame it names, and nothing above this
module looks at single bits again.
-/

namespace Xv6

/-- A 32-bit word (`uint`, `pte_t`, `pde_t`, and `int` arguments before they are
read as signed). -/
abbrev Word := BitVec 32

/-! ### Address arithmetic -/

/-- The value of a `uint` expression: arithmetic is modulo `2 ^ 32`. -/
def u32 (n : Nat) : Nat := n % 2 ^ 32

/-- `PGSIZE`. -/
def pgsize : Nat := 4096

/-- `NPDENTRIES`, also `NPTENTRIES`. -/
def npdentries : Nat := 1024

/-- `KERNBASE`, the first kernel virtual address. -/
def kernbase : Nat := 0x80000000

/-- `EXTMEM`. -/
def extmem : Nat := 0x100000

/-- `PHYSTOP`, the top of physical memory. -/
def phystop : Nat := 0xE000000

/-- `P2V(PHYSTOP)`, the kernel address of the top of physical memory. -/
def vphystop : Nat := kernbase + phystop

/-- `P2V(4*1024*1024)`, the end of what the first page table, `entrypgdir`, maps. -/
def vlowtop : Nat := kernbase + 0x400000

/-- `DEVSPACE`. -/
def devspace : Nat := 0xFE000000

/-- `KERNLINK`. -/
def kernlink : Nat := kernbase + extmem

/-- `PGROUNDUP`. -/
def pgroundup (sz : Nat) : Nat := u32 (sz + pgsize - 1) / pgsize * pgsize

/-- `PGROUNDDOWN`. -/
def pgrounddown (a : Nat) : Nat := a / pgsize * pgsize

/-- `PDX`, the page directory index. -/
def pdx (va : Nat) : Nat := va / 2 ^ 22 % 1024

/-- `PTX`, the page table index. -/
def ptx (va : Nat) : Nat := va / 2 ^ 12 % 1024

/-- `PGADDR`, an address from its indexes and offset. -/
def pgaddr (d t o : Nat) : Nat := u32 (d * 2 ^ 22 + t * 2 ^ 12 + o)

/-- `V2P` of a page: the physical address of a frame. -/
def v2p (f : Nat) : Nat := f * pgsize

/-- `P2V` of a physical address: the frame that holds it. -/
def p2v (pa : Nat) : Nat := pa / pgsize

/-- The number of pages of the 32-bit address space: the fuel of every loop that
steps through it by `PGSIZE`. -/
def npages : Nat := 2 ^ 20

/-- The number of user pages, those below `KERNBASE`. -/
def nupages : Nat := kernbase / pgsize

/-- The page number of a virtual address. -/
def vpn (va : Nat) : Nat := va / pgsize

theorem pgroundup_eq {sz : Nat} (h : sz + 4095 < 2 ^ 32) :
    pgroundup sz = (sz + 4095) / 4096 * 4096 := by
  simp only [pgroundup, u32, pgsize]
  rw [Nat.mod_eq_of_lt (by omega)]
  omega

theorem vpn_lt {va : Nat} (h : va < 2 ^ 32) : vpn va < npages := by
  simp only [vpn, npages, pgsize]
  omega

theorem pdx_eq {va : Nat} (h : va < 2 ^ 32) : pdx va = vpn va / 1024 := by
  simp only [pdx, vpn, pgsize]
  omega

theorem ptx_eq (va : Nat) : ptx va = vpn va % 1024 := rfl

/-! ### Page-table entries -/

/-- The flag bits of an entry that the kernel uses. -/
inductive PteFlag
  /-- `PTE_P`, present. -/
  | p
  /-- `PTE_W`, writeable. -/
  | w
  /-- `PTE_U`, user. -/
  | u
  /-- `PTE_COW`, the copy-on-write marker. -/
  | cow
  deriving DecidableEq, Repr

namespace PteFlag

/-- The bit position of a flag. -/
def bit : PteFlag → Nat
  | p => 0
  | w => 1
  | u => 2
  | cow => 9

/-- The flag as a word: `PTE_P`, `PTE_W`, `PTE_U`, `PTE_COW`. -/
def mask : PteFlag → Word
  | p => 0x001#32
  | w => 0x002#32
  | u => 0x004#32
  | cow => 0x200#32

theorem mask_eq (f : PteFlag) : f.mask = BitVec.twoPow 32 f.bit := by
  cases f <;> rfl

theorem bit_lt (f : PteFlag) : f.bit < 12 := by
  cases f <;> decide

end PteFlag

/-- `w & PTE_x`, as a test. -/
def has (w : Word) (f : PteFlag) : Bool := (w &&& f.mask) != 0#32

/-- `PTE_ADDR`, the physical address in an entry. -/
def pteAddr (w : Word) : Nat := (w &&& ~~~0xFFF#32).toNat

/-- `PTE_FLAGS`, the flag bits of an entry. -/
def pteFlags (w : Word) : Word := w &&& 0xFFF#32

/-- `pa | flags`: the entry with physical address `pa` and the given flags. -/
def mkPte (pa : Nat) (flags : Word) : Word := BitVec.ofNat 32 pa ||| flags

/-- The frame an entry names. -/
def pteFrame (w : Word) : Nat := p2v (pteAddr w)

/-! ### Flags of edited entries -/

theorem has_eq (w : Word) (f : PteFlag) : has w f = w.getLsbD f.bit := by
  have hlt : f.bit < 32 := by have := f.bit_lt; omega
  rw [has, f.mask_eq, BitVec.and_twoPow]
  cases h : w.getLsbD f.bit with
  | false => simp
  | true =>
    have hne : BitVec.twoPow 32 f.bit ≠ 0#32 := by
      intro h0
      have := congrArg (fun x : Word => x.getLsbD f.bit) h0
      simp at this
      omega
    simpa using hne

@[simp] theorem has_or (a b : Word) (f : PteFlag) : has (a ||| b) f = (has a f || has b f) := by
  simp only [has_eq, BitVec.getLsbD_or]

@[simp] theorem has_mask (f g : PteFlag) : has f.mask g = decide (f = g) := by
  cases f <;> cases g <;> decide

@[simp] theorem has_clear (a : Word) (f g : PteFlag) :
    has (a &&& ~~~f.mask) g = (has a g && decide (f ≠ g)) := by
  have hlt : g.bit < 32 := by have := g.bit_lt; omega
  have hm : f.mask.getLsbD g.bit = decide (f = g) := by rw [← has_eq, has_mask]
  rw [has_eq, BitVec.getLsbD_and, BitVec.getLsbD_not, hm, has_eq]
  simp [hlt]

@[simp] theorem has_zero (f : PteFlag) : has 0#32 f = false := by
  cases f <;> decide

@[simp] theorem has_pteFlags (w : Word) (f : PteFlag) : has (pteFlags w) f = has w f := by
  have : (0xFFF#32).getLsbD f.bit = true := by cases f <;> decide
  rw [pteFlags, has_eq, BitVec.getLsbD_and, this, has_eq, Bool.and_true]

/-- A page-aligned address contributes no flags. -/
@[simp] theorem has_mkPte (f : Nat) (fl : Word) (g : PteFlag) :
    has (mkPte (v2p f) fl) g = has fl g := by
  have h : (f * 4096).testBit g.bit = false := by
    have := g.bit_lt
    rw [show (4096 : Nat) = 2 ^ 12 from rfl, Nat.mul_comm, Nat.testBit_two_pow_mul]
    simp
    omega
  rw [mkPte, has_or, has_eq, BitVec.getLsbD_ofNat]
  simp [v2p, pgsize, h]

/-! ### The frame of an edited entry -/

/-- Words that only have flag bits. -/
def LowBits (w : Word) : Prop := w.toNat < 4096

theorem lowBits_mask (f : PteFlag) : LowBits f.mask := by
  cases f <;> (unfold LowBits; decide)

theorem lowBits_pteFlags (w : Word) : LowBits (pteFlags w) := by
  unfold LowBits pteFlags
  rw [BitVec.toNat_and]
  exact Nat.lt_of_le_of_lt Nat.and_le_right (by decide)

theorem LowBits.or {a b : Word} (ha : LowBits a) (hb : LowBits b) : LowBits (a ||| b) := by
  unfold LowBits at *
  rw [BitVec.toNat_or]
  exact Nat.or_lt_two_pow (n := 12) ha hb

theorem LowBits.and {a : Word} (ha : LowBits a) (b : Word) : LowBits (a &&& b) := by
  unfold LowBits at *
  rw [BitVec.toNat_and]
  exact Nat.lt_of_le_of_lt Nat.and_le_left ha

theorem pteAddr_eq (w : Word) : pteAddr w = w.toNat / 4096 * 4096 := by
  have h : w &&& ~~~0xFFF#32 = (w >>> 12) <<< 12 := by
    ext i hi
    simp
    interval_cases i <;> simp
  have := w.isLt
  rw [pteAddr, h, BitVec.toNat_shiftLeft, BitVec.toNat_ushiftRight,
    Nat.shiftRight_eq_div_pow, Nat.shiftLeft_eq]
  omega

theorem pteFrame_eq (w : Word) : pteFrame w = w.toNat / 4096 := by
  rw [pteFrame, pteAddr_eq, p2v, pgsize]
  omega

theorem pteAddr_eq_v2p (w : Word) : pteAddr w = v2p (pteFrame w) := by
  rw [pteAddr_eq, pteFrame_eq, v2p, pgsize]

theorem pteFrame_lt (w : Word) : pteFrame w < npages := by
  have := w.isLt
  rw [pteFrame_eq, npages]
  omega

@[simp] theorem pteFrame_mkPte {f : Nat} {fl : Word} (hf : f < npages) (hfl : LowBits fl) :
    pteFrame (mkPte (v2p f) fl) = f := by
  have h : (mkPte (v2p f) fl).toNat = f * 4096 + fl.toNat := by
    unfold npages at hf
    rw [mkPte, v2p, pgsize, BitVec.toNat_or, BitVec.toNat_ofNat,
      Nat.mod_eq_of_lt (by omega), Nat.mul_comm f 4096]
    exact (Nat.two_pow_add_eq_or_of_lt (i := 12) (by simpa [LowBits] using hfl) f).symm
  unfold LowBits at hfl
  rw [pteFrame_eq, h]
  omega

/-- Editing flag bits keeps the frame: setting. -/
theorem pteFrame_or {a fl : Word} (hfl : LowBits fl) : pteFrame (a ||| fl) = pteFrame a := by
  have h : (a ||| fl) >>> 12 = a >>> 12 := by
    have : fl >>> 12 = 0#32 := by
      apply BitVec.eq_of_toNat_eq
      rw [BitVec.toNat_ushiftRight, Nat.shiftRight_eq_div_pow]
      unfold LowBits at hfl
      simp
      omega
    rw [BitVec.ushiftRight_or_distrib, this]
    simp
  have := congrArg BitVec.toNat h
  simpa [pteFrame_eq, Nat.shiftRight_eq_div_pow] using this

/-- Editing flag bits keeps the frame: clearing. -/
theorem pteFrame_clear {a fl : Word} (hfl : LowBits fl) :
    pteFrame (a &&& ~~~fl) = pteFrame a := by
  have h : (a &&& ~~~fl) ||| (a &&& fl) = a := by
    ext i hi
    simp
    cases a[i] <;> cases fl[i] <;> rfl
  have hlow : LowBits (a &&& fl) := by
    rw [BitVec.and_comm]
    exact hfl.and a
  rw [← pteFrame_or (a := a &&& ~~~fl) hlow, h]

/-- An entry is put together again from its address and its flags. -/
theorem mkPte_pteFlags (w : Word) : mkPte (pteAddr w) (pteFlags w) = w := by
  rw [mkPte, pteAddr, BitVec.ofNat_toNat, pteFlags]
  ext i hi
  simp
  cases w[i] <;> simp
  interval_cases i <;> simp

/-- Setting a flag that is set changes nothing. -/
theorem or_mask_of_has {w : Word} {f : PteFlag} (h : has w f = true) : w ||| f.mask = w := by
  rw [has_eq] at h
  rw [f.mask_eq]
  ext i hi
  rw [BitVec.getElem_or]
  by_cases he : i = f.bit
  · subst he
    rw [← BitVec.getLsbD_eq_getElem, h]
    rfl
  · have : (BitVec.twoPow 32 f.bit)[i] = false := by
      rw [BitVec.getElem_twoPow]
      simpa using he
    rw [this, Bool.or_false]

end Xv6
