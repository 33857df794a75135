import Xv6.Fs.Icache
import Xv6.Fs.Names

/-!
# Xv6.Fs.Mkfs

`mkfs.c`: the program that builds the image the kernel boots from.

`mkfs` has block mapping code of its own, and it allocates in its own way: blocks are
taken in order, and the free map is written once, at the end. The link to the kernel
is the image with the free map that `balloc(freeblock)` would write now (`sealed`). On
that image, what the loop of `iappend` does is what the loop of `writei` does
(`iappendLoop_sim`), the failures included: `mkfs` finds the image too short where the
kernel finds no free block. So the results about `writei` are results about `iappend`.
-/

namespace Xv6.Mkfs

open Function (update update_self update_of_ne)
open Superblock

/-! ### The program -/

/-- How `mkfs` ends before its `exit(0)`. -/
inductive Stop
  /-- `exit(1)`, after `perror`. -/
  | exit1
  /-- An `assert` that does not hold. -/
  | assertion
  deriving DecidableEq

/-- The image file `fsfd` and the globals. -/
structure Image where
  disk : Disk
  /-- The length of the file, in sectors. -/
  nsect : Nat
  freeinode : Nat
  freeblock : Nat

/-- What `mkfs` runs in. -/
abbrev Mk := Kern Image Stop

/-- `rsect`: there is nothing to read behind the end of the file. -/
def rsect (sec : Nat) : Mk Block := do
  let m ← get
  if sec < m.nsect then pure (m.disk sec) else throw .exit1

/-- `wsect`. -/
def wsect (sec : Nat) (buf : Block) : Mk Unit :=
  modify fun m => { m with disk := update m.disk sec buf, nsect := max m.nsect (sec + 1) }

section
variable [Superblock]

/-- `winode`. -/
def winode (inum : Nat) (ip : Dinode) : Mk Unit := do
  let buf ← rsect (iblock inum)
  wsect (iblock inum) (ip.toBlock buf (inum % ipb))

/-- `rinode`. -/
def rinode (inum : Nat) : Mk Dinode := do
  let buf ← rsect (iblock inum)
  pure (.ofBlock buf (inum % ipb))

/-- `ialloc`. -/
def ialloc (type : BitVec 16) : Mk Nat := do
  let m ← get
  set { m with freeinode := m.freeinode + 1 }
  winode m.freeinode (.empty type 1)
  pure m.freeinode

/-- The block of the loop of `balloc`. -/
def markAll : Nat → Block
  | 0 => fun _ => 0#32
  | used + 1 => markBit (markAll used) used

/-- `balloc`. -/
def balloc (used : Nat) : Mk Unit :=
  if used < bpb then wsect bmapstart (markAll used) else throw .assertion

/-- `freeblock++`. -/
def takeBlock : Mk Word := do
  let m ← get
  set { m with freeblock := m.freeblock + 1 }
  pure (BitVec.ofNat 32 m.freeblock)

/-- `if(din.addrs[k] == 0) din.addrs[k] = freeblock++`. -/
def fillAddr (din : Dinode) (k : Fin (ndirect + 1)) : Mk Dinode :=
  if din.addrs k = 0#32 then do
    let a ← takeBlock
    pure { din with addrs := update din.addrs k a }
  else pure din

/-- The part of `iappend`'s loop that finds the block `x` for the file block `fbn`. -/
def mapBlock (din : Dinode) (fbn : Nat) : Mk (Dinode × Word) :=
  if h : fbn < ndirect then do
    let din ← fillAddr din ⟨fbn, Nat.lt_succ_of_lt h⟩
    pure (din, din.addrs ⟨fbn, Nat.lt_succ_of_lt h⟩)
  else do
    let din ← fillAddr din indirectSlot
    let indirect ← rsect (din.addrs indirectSlot).toNat
    if indirect (fbn - ndirect) = 0#32 then do
      let a ← takeBlock
      wsect (din.addrs indirectSlot).toNat (update indirect (fbn - ndirect) a)
      pure (din, a)
    else pure (din, indirect (fbn - ndirect))

/-- The loop of `iappend`: the bytes `p`, to `off` on. -/
def iappendLoop (din : Dinode) (off : Nat) (p : List Byte) : Mk (Dinode × Nat) :=
  if p = [] then pure (din, off)
  else if maxfile ≤ off / bsize then throw .assertion
  else do
    let r ← mapBlock din (off / bsize)
    let n1 := min p.length ((off / bsize + 1) * bsize - off)
    let buf ← rsect r.2.toNat
    wsect r.2.toNat (putBytes buf (off - off / bsize * bsize) (p.take n1))
    iappendLoop r.1 (off + n1) (p.drop n1)
termination_by p.length
decreasing_by
  obtain ⟨hdm, hlt⟩ := block_split off
  have hpos := List.length_pos_iff.mpr ‹p ≠ []›
  rw [List.length_drop, Nat.add_mul, Nat.one_mul]
  omega

/-- `iappend`. -/
def iappend (inum : Nat) (p : List Byte) : Mk Unit := do
  let din ← rinode inum
  let r ← iappendLoop din din.size.toNat p
  winode inum { r.1 with size := BitVec.ofNat 32 r.2 }

/-- The super block `sb`, as it is copied to the image. -/
def sbBlock : Block := fun j =>
  ([size, nblocks, ninodes, nlog, logstart, inodestart, bmapstart].map
    (BitVec.ofNat 32)).getD j 0#32

/-- `for(i = 0; i < FSSIZE; i++) wsect(i, zeroes)`, from `i` on. -/
def zeroLoop (i : Nat) : Nat → Mk Unit
  | 0 => pure ()
  | n + 1 => do
    wsect i fun _ => 0#32
    zeroLoop (i + 1) n

/-- The part of `main` before the root directory. -/
def format : Mk Unit := do
  zeroLoop 0 size
  wsect 1 sbBlock

/-- A file that is to be put into the image: what the calls of `read` return until there is
no more, or that `open` fails. -/
structure HostFile where
  name : List Byte
  reads : Option (List (List Byte))
  bounded : ∀ cs ∈ reads, ∀ c ∈ cs, 0 < c.length ∧ c.length ≤ bsize

/-- `while((cc = read(fd, buf, sizeof(buf))) > 0) iappend(inum, buf, cc)`. -/
def copyLoop (inum : Nat) : List (List Byte) → Mk Unit
  | [] => pure ()
  | c :: cs => do
    iappend inum c
    copyLoop inum cs

/-- The name without a leading `_`. -/
def HostFile.base (f : HostFile) : List Byte :=
  if f.name.head? = some 95#8 then f.name.tail else f.name

/-- A directory entry of `main`. -/
def entry (inum : Nat) (name : List Byte) : List Byte :=
  (Dirent.mk (BitVec.ofNat 16 inum) (strncpy name dirsiz)).toBytes

/-- The body of `main`'s loop over the files. -/
def addFile (rootino : Nat) (f : HostFile) : Mk Unit :=
  if 47#8 ∈ f.name then throw .assertion
  else match f.reads with
    | none => throw .exit1
    | some cs => do
      let inum ← ialloc tFile
      iappend rootino (entry inum f.base)
      copyLoop inum cs

/-- `main`'s loop over the files. -/
def addFiles (rootino : Nat) : List HostFile → Mk Unit
  | [] => pure ()
  | f :: fs => do
    addFile rootino f
    addFiles rootino fs

/-- `main`, from the moment the image file is open. -/
def main (files : List HostFile) : Mk Unit := do
  format
  let rootino ← ialloc tDir
  if rootino ≠ rootIno then throw .assertion
  else do
    iappend rootino (entry rootino dot)
    iappend rootino (entry rootino dotdot)
    addFiles rootino files
    -- fix size of root inode dir
    let din ← rinode rootino
    winode rootino
      { din with size := (din.size / BitVec.ofNat 32 bsize + 1#32) * BitVec.ofNat 32 bsize }
    let m ← get
    balloc m.freeblock

/-- The image file after `open` with `O_TRUNC`, and the globals. -/
def start : Image := ⟨fun _ _ => 0#32, 0, 1, datastart⟩

end

/-! ### The image with its free map -/

section
variable [Superblock]

namespace Image

/-- The disk of the image, with the free map that `balloc(freeblock)` writes. -/
def sealed (m : Image) : Disk := update m.disk bmapstart (markAll m.freeblock)

/-- The volume on which the kernel does what `mkfs` does to the inode `inum`. -/
def vol (m : Image) (inum : Nat) (din : Dinode) : Vol := ⟨m.sealed, inum, din⟩

/-- The image after `freeblock++`. -/
def taken (m : Image) : Image := { m with freeblock := m.freeblock + 1 }

/-- The image with a block in it. -/
def put (m : Image) (b : Nat) (buf : Block) : Image := { m with disk := update m.disk b buf }

/-- The blocks from `freeblock` on are still as `main` has cleared them. -/
structure Fresh (m : Image) : Prop where
  low : datastart ≤ m.freeblock
  high : m.freeblock ≤ size
  nsect : m.nsect = size
  zero : ∀ b, m.freeblock ≤ b → m.disk b = fun _ => 0#32

end Image

omit [Superblock] in
theorem testBit_markAll (used b : Nat) : testBit (markAll used) b = decide (b < used) := by
  induction used with
  | zero =>
    rw [testBit_eq, markAll, getByte_zero]
    simp
  | succ used ih =>
    rw [markAll, testBit_markBit, ih, ← Bool.decide_or]
    exact decide_eq_decide.mpr (by omega)

variable {m : Image} {b : Nat} {buf : Block}

theorem bblock_eq (hone : size ≤ bpb) (hb : b < size) : bblock b = bmapstart ∧ b % bpb = b := by
  have hlt : b < bpb := by omega
  rw [bblock, Nat.div_eq_of_lt hlt, Nat.zero_add]
  exact ⟨rfl, Nat.mod_eq_of_lt hlt⟩

namespace Image

theorem bit_sealed (hone : size ≤ bpb) (hb : b < size) :
    bit m.sealed b = decide (b < m.freeblock) := by
  obtain ⟨hblock, hmod⟩ := bblock_eq hone hb
  rw [bit, hblock, hmod, sealed, update_self, testBit_markAll]

theorem sealed_data (hb : IsData b) : m.sealed b = m.disk b := by
  have hlt := bmapstart_lt
  have hle := hb.1
  exact update_of_ne (by omega) _ _

theorem sealed_put (hb : b ≠ bmapstart) : (m.put b buf).sealed = update m.sealed b buf :=
  Function.update_comm hb _ _ _

theorem sealed_putData (hb : IsData b) : (m.put b buf).sealed = update m.sealed b buf := by
  have hlt := bmapstart_lt
  have hle := hb.1
  exact sealed_put (by omega)

theorem dinode_sealed {i : Nat} (hi : i < ninodes) : dinode m.sealed i = dinode m.disk i := by
  have hlt := iblock_lt hi
  rw [dinode, sealed, update_of_ne (by omega)]
  rfl

namespace Fresh

theorem isData (h : m.Fresh) (hlt : m.freeblock < size) : IsData m.freeblock := ⟨h.low, hlt⟩

theorem taken (h : m.Fresh) (hlt : m.freeblock < size) : m.taken.Fresh where
  low := Nat.le_succ_of_le h.low
  high := hlt
  nsect := h.nsect
  zero b hb := h.zero b (Nat.le_of_succ_le hb)

theorem put (h : m.Fresh) (hb : b < m.freeblock) : (m.put b buf).Fresh :=
  { h with
    zero := fun c hc => by
      have hc' : m.freeblock ≤ c := hc
      exact (update_of_ne (by omega) _ _).trans (h.zero c hc) }

/-- `mkfs` takes the block that the kernel would take, which needs no clearing. -/
theorem grab_sealed (h : m.Fresh) (hone : size ≤ bpb) (hlt : m.freeblock < size) :
    grab m.sealed m.freeblock = m.taken.sealed := by
  obtain ⟨hblock, hmod⟩ := bblock_eq hone hlt
  have hdata := h.isData hlt
  have hset : setBit m.sealed m.freeblock = m.taken.sealed := by
    rw [setBit, hblock, hmod, sealed, update_self, Function.update_idem]
    rfl
  have hzero : m.taken.sealed m.freeblock = fun _ => 0#32 :=
    (sealed_data hdata).trans (h.zero _ (Nat.le_refl _))
  rw [grab, hset, ← hzero, Function.update_eq_self]

/-- A block in use is one that has been taken. -/
theorem lt_of_inUse (hone : size ≤ bpb) (hb : InUse m.sealed b) : b < m.freeblock := by
  have hbit := hb.2
  rw [bit_sealed hone hb.1.2] at hbit
  exact of_decide_eq_true hbit

variable {inum : Nat} {din : Dinode} {Q : Word → Vol → Prop} {E : FsPanic → Prop}

theorem ends_balloc (h : m.Fresh) (hone : size ≤ bpb) (hlt : m.freeblock < size) :
    Ends Xv6.balloc (m.vol inum din) Q E ↔
      Q (BitVec.ofNat 32 m.freeblock) (m.taken.vol inum din) := by
  have hfind : (List.range size).find? (fun b => !bit (m.vol inum din).disk b) =
      some m.freeblock := by
    rw [List.find?_range_eq_some]
    refine ⟨?_, List.mem_range.mpr hlt, fun b hb => ?_⟩
    · rw [vol, bit_sealed hone hlt]
      simp
    · rw [vol, bit_sealed hone (by omega)]
      simpa using hb
  rw [Xv6.ends_balloc hfind]
  show Q _ ⟨grab m.sealed m.freeblock, inum, din⟩ ↔ _
  rw [h.grab_sealed hone hlt]
  rfl

/-- With the image full the kernel finds no block. -/
theorem ends_balloc_full (hone : size ≤ bpb) (hfull : size ≤ m.freeblock) :
    Ends Xv6.balloc (m.vol inum din) Q E ↔ E .outOfBlocks := by
  have hfind : (List.range size).find? (fun b => !bit (m.vol inum din).disk b) = none := by
    rw [List.find?_eq_none]
    intro b hb
    have hb' : b < size := List.mem_range.mp hb
    rw [vol, bit_sealed hone hb']
    simp
    omega
  rw [Xv6.balloc, ends_bind, ends_get, hfind]
  exact ends_throw ..

end Fresh

end Image

end

/-! ### The two block mappers -/

section
variable {m : Image} {b : Nat} {buf : Block}

section
variable {E : Stop → Prop}

theorem ends_rsect {Q : Block → Image → Prop} (hb : b < m.nsect) :
    Ends (rsect b) m Q E ↔ Q (m.disk b) m := by
  rw [rsect, ends_bind, ends_get, if_pos hb, ends_pure]

theorem ends_rsect_end {Q : Block → Image → Prop} (hb : m.nsect ≤ b) :
    Ends (rsect b) m Q E ↔ E .exit1 := by
  rw [rsect, ends_bind, ends_get, if_neg (by omega), ends_throw]

theorem ends_wsect {Q : Unit → Image → Prop} (hb : b < m.nsect) :
    Ends (wsect b buf) m Q E ↔ Q () (m.put b buf) := by
  have hmax : max m.nsect (b + 1) = m.nsect := by omega
  rw [wsect, ends_modify, hmax]
  rfl

theorem ends_takeBlock {Q : Word → Image → Prop} :
    Ends takeBlock m Q E ↔ Q (BitVec.ofNat 32 m.freeblock) m.taken := by
  rw [takeBlock, ends_bind, ends_get, ends_bind, ends_set, ends_pure]
  rfl

end

end

section
variable [Superblock] {m : Image} {b : Nat}

/-- A step of `mkfs` that has found the block `a` for the inode: the kernel finds the same
one, or it finds none and the block is the one behind the end of the image. -/
def Found (k : Kern Vol FsPanic Word) (m m' : Image) (inum : Nat) (din din' : Dinode)
    (a : Word) : Prop :=
  m'.freeinode = m.freeinode ∧ m'.nsect = m.nsect ∧
    (m'.Fresh ∧ k.run (m.vol inum din) = .ok (a, m'.vol inum din') ∨
      a.toNat = size ∧ k.run (m.vol inum din) = .error .outOfBlocks)

variable {inum fbn : Nat} {din : Dinode}

theorem toNat_size : (BitVec.ofNat 32 size).toNat = size := by
  rw [BitVec.toNat_ofNat, Nat.mod_eq_of_lt size_lt]

theorem fillAddr_sim (h : m.Fresh) (hone : size ≤ bpb) (inum : Nat) (k : Fin (ndirect + 1)) :
    Ends (fillAddr din k) m
      (fun din' m' => Found (loadAddr k) m m' inum din din' (din'.addrs k)) := by
  rw [fillAddr, ends_ite]
  refine ⟨fun hz => ?_, fun hz => .ret ⟨rfl, rfl, .inl ⟨h, ?_⟩⟩⟩
  · rw [ends_bind, ends_takeBlock, ends_pure]
    refine ⟨rfl, rfl, ?_⟩
    dsimp only
    rw [update_self]
    have hz' : (m.vol inum din).ip.addrs k = 0#32 := hz
    rcases Nat.lt_or_ge m.freeblock size with hlt | hge
    · refine .inl ⟨h.taken hlt, ?_⟩
      rw [run_eq_ok, loadAddr, ends_bind, ends_get, if_pos hz', ends_bind, h.ends_balloc hone hlt,
        ends_bind, setAddr, ends_modify, ends_pure]
      exact ⟨rfl, rfl⟩
    · refine .inr ⟨?_, ?_⟩
      · rw [Nat.le_antisymm h.high hge, toNat_size]
      · rw [run_eq_error, loadAddr, ends_bind, ends_get, if_pos hz', ends_bind,
          Image.Fresh.ends_balloc_full hone hge]
  · have hz' : (m.vol inum din).ip.addrs k ≠ 0#32 := hz
    rw [run_eq_ok, loadAddr, ends_bind, ends_get, if_neg hz', ends_pure]
    exact ⟨rfl, rfl⟩

theorem used_block (hone : size ≤ bpb) (hv : (m.vol inum din).Ok) {s : Nat × Nat}
    (hs : (m.vol inum din).slots s = some b) : IsData b ∧ b < m.freeblock :=
  ⟨hv.sound.isData hs, Image.Fresh.lt_of_inUse hone (hv.sound.owned.used hs)⟩

theorem loadAddr_ok {v v' : Vol} {k : Fin (ndirect + 1)} {a : Word} (hv : v.Ok)
    (hrun : (loadAddr k).run v = .ok (a, v')) :
    v'.Ok ∧ v'.slots (v'.inum, k) = some a.toNat := by
  rcases (loadAddr_spec hv k).of_ok hrun with ⟨rfl, hs⟩ | hfill
  · exact ⟨hv, hs⟩
  · refine ⟨hfill.ok hv, ?_⟩
    rw [hfill.slots, hfill.inum, update_self]

theorem mapBlock_sim (h : m.Fresh) (hone : size ≤ bpb) (hv : (m.vol inum din).Ok)
    (hfbn : fbn < maxfile) : Ends (mapBlock din fbn) m
      (fun r m' => Found (bmap fbn) m m' inum din r.1 r.2)
      (fun _ => (bmap fbn).run (m.vol inum din) = .error .outOfBlocks) := by
  unfold mapBlock bmap
  split
  · next hlt =>
      refine .bind ((fillAddr_sim h hone inum ⟨fbn, _⟩).of_safe fun _ _ hf => hf) ?_
      intro din' m' hf
      exact .ret hf
  · next hge =>
      have hlt : fbn - ndirect < nindirect := by unfold maxfile at hfbn; omega
      rw [if_pos hlt]
      refine .bind ((fillAddr_sim h hone inum indirectSlot).of_safe fun _ _ hf => hf) ?_
      intro din1 m1 hf
      obtain ⟨hino1, hsect1, ⟨hfresh1, hrun1⟩ | ⟨hend, hrun1⟩⟩ := hf
      · -- the indirect block is there
        obtain ⟨hok1, hslot1⟩ := loadAddr_ok hv hrun1
        obtain ⟨hdata, hused⟩ := used_block hone hok1 hslot1
        have hin : (din1.addrs indirectSlot).toNat < m1.nsect := by
          rw [hfresh1.nsect]
          exact hdata.2
        have hsame := Image.sealed_data (m := m1) hdata
        rw [ends_bind, ends_rsect hin, ends_ite]
        refine ⟨fun hz => ?_, fun hz => .ret ⟨hino1, hsect1, .inl ⟨hfresh1, ?_⟩⟩⟩
        · have hz' : (m1.vol inum din1).disk (din1.addrs indirectSlot).toNat (fbn - ndirect) =
              0#32 := (congrFun hsame _).trans hz
          rw [ends_bind, ends_takeBlock, ends_bind, ends_wsect (m := m1.taken) hin, ends_pure]
          refine ⟨hino1, hsect1, ?_⟩
          rcases Nat.lt_or_ge m1.freeblock size with hroom | hfull
          · refine .inl ⟨(hfresh1.taken hroom).put (Nat.lt_succ_of_lt hused), ?_⟩
            rw [run_eq_ok]
            refine .bind (run_eq_ok.mp hrun1) fun a v hav => ?_
            obtain ⟨rfl, rfl⟩ := hav
            rw [loadIndirect, ends_bind, ends_get, if_pos hz', ends_bind,
              hfresh1.ends_balloc hone hroom, ends_bind, ends_modify, ends_pure]
            refine ⟨rfl, ?_⟩
            have hsame' : m1.taken.sealed _ = m1.disk _ := Image.sealed_data hdata
            rw [Image.vol, Image.vol, Image.sealed_putData hdata, ← hsame']
          · refine .inr ⟨?_, ?_⟩
            · rw [Nat.le_antisymm hfresh1.high hfull, toNat_size]
            · rw [run_eq_error]
              refine .bind ((run_eq_ok.mp hrun1).of_safe fun _ _ h => h)
                fun a v hav => ?_
              obtain ⟨rfl, rfl⟩ := hav
              rw [loadIndirect, ends_bind, ends_get, if_pos hz', ends_bind,
                Image.Fresh.ends_balloc_full hone hfull]
        · have hz' : (m1.vol inum din1).disk (din1.addrs indirectSlot).toNat (fbn - ndirect) ≠
              0#32 := fun hz' => hz ((congrFun hsame _).symm.trans hz')
          rw [run_eq_ok]
          refine .bind (run_eq_ok.mp hrun1) fun a v hav => ?_
          obtain ⟨rfl, rfl⟩ := hav
          rw [loadIndirect, ends_bind, ends_get, if_neg hz', ends_pure]
          exact ⟨congrFun hsame _, rfl⟩
      · -- the indirect block would be behind the end of the image
        rw [ends_bind, ends_rsect_end (by rw [hsect1, h.nsect, hend])]
        rw [run_eq_error]
        exact (run_eq_error.mp hrun1).bind fun _ _ hf => hf.elim

/-! ### The loops -/

section
omit [Superblock]

theorem block_rest (off : Nat) : (off / bsize + 1) * bsize - off = bsize - off % bsize := by
  have hdm := (block_split off).1
  rw [Nat.add_mul]
  omega

theorem block_offset (off : Nat) : off - off / bsize * bsize = off % bsize := by
  have hdm := (block_split off).1
  omega

/-- Under `assert(fbn < MAXFILE)` no file gets too large. -/
theorem iappendLoop_fits : ∀ {p : List Byte} {off : Nat} {m : Image} {din : Dinode}, p ≠ [] →
    Ends (iappendLoop din off p) m (fun _ _ => off + p.length ≤ maxfile * bsize)
      (fun _ => True) := by
  intro p
  induction hlen : p.length using Nat.strong_induction_on generalizing p with
  | _ len ih =>
  intro off m din hne
  rw [iappendLoop, if_neg hne, ends_ite]
  refine ⟨fun _ => (ends_throw ..).mpr trivial, fun hfbn => ?_⟩
  obtain ⟨hdm, hmod⟩ := block_split off
  have hpos : 0 < p.length := List.length_pos_iff.mpr hne
  rw [block_rest]
  obtain ⟨n1, hn1⟩ : ∃ n1, n1 = min p.length (bsize - off % bsize) := ⟨_, rfl⟩
  simp only [← hn1]
  refine .bind .trivial fun r m1 _ => .bind .trivial fun buf m2 _ => .bind .trivial fun _ m3 _ => ?_
  have hdrop : (p.drop n1).length = p.length - n1 := List.length_drop
  by_cases hlast : p.drop n1 = []
  · -- the last round ends in a block below `MAXFILE`
    rw [hlast, List.length_nil] at hdrop
    have hle : (off / bsize + 1) * bsize ≤ maxfile * bsize := Nat.mul_le_mul_right _ (by omega)
    rw [Nat.add_mul, Nat.one_mul] at hle
    exact Ends.trivial.mono (fun _ _ _ => by omega) fun _ _ => trivial
  · refine (ih _ (by omega) rfl hlast).mono (fun _ _ hfit => ?_) fun _ _ => trivial
    rw [hdrop] at hfit
    omega

end

/-- The loop of `iappend` does what the kernel's loop does on the sealed image. -/
theorem iappendLoop_sim (hone : size ≤ bpb) : ∀ {p : List Byte} {off : Nat} {m : Image}
    {din : Dinode}, m.Fresh → (m.vol inum din).Ok → off + p.length ≤ maxfile * bsize →
    Ends (iappendLoop din off p) m
      (fun r m' => m'.Fresh ∧ m'.freeinode = m.freeinode ∧ r.2 = off + p.length ∧
        (writeLoop off p).run (m.vol inum din) = .ok ((), m'.vol inum r.1))
      (fun _ => (writeLoop off p).run (m.vol inum din) = .error .outOfBlocks) := by
  intro p
  induction hlen : p.length using Nat.strong_induction_on generalizing p with
  | _ len ih =>
  intro off m din hfresh hv hfit
  obtain ⟨hdm, hmod⟩ := block_split off
  rw [iappendLoop, writeLoop, block_rest, block_offset]
  by_cases hne : p = []
  · rw [if_pos hne, if_pos hne]
    rw [hne, List.length_nil] at hlen
    exact .ret ⟨hfresh, rfl, by omega, rfl⟩
  rw [if_neg hne, if_neg hne]
  have hpos : 0 < p.length := List.length_pos_iff.mpr hne
  have hfbn : off / bsize < maxfile := by
    rw [Nat.div_lt_iff_lt_mul (by decide)]
    omega
  obtain ⟨n1, hn1⟩ : ∃ n1, n1 = min p.length (bsize - off % bsize) := ⟨_, rfl⟩
  simp only [← hn1]
  rw [if_neg (by omega)]
  have hdrop : (p.drop n1).length = p.length - n1 := List.length_drop
  rw [ends_bind]
  refine (mapBlock_sim hfresh hone hv hfbn).mono (fun r m1 hf => ?_) fun _ he => ?_
  · obtain ⟨hino1, hsect1, ⟨hfresh1, hrun1⟩ | ⟨hend, hrun1⟩⟩ := hf
    · -- both write to the block that they have found
      obtain ⟨hgrow, -, hslot⟩ := (bmap_spec hv hfbn).of_ok hrun1
      have hslot1 : (m1.vol inum r.1).slots ((m1.vol inum r.1).inum, slotOf (off / bsize)) =
          some r.2.toNat := hslot
      obtain ⟨hdata, hused⟩ := used_block hone hgrow.ok hslot1
      have hin : r.2.toNat < m1.nsect := by
        rw [hfresh1.nsect]
        exact hdata.2
      rw [ends_bind, ends_rsect hin, ends_bind, ends_wsect hin]
      have hput : (m1.put r.2.toNat
          (putBytes (m1.disk r.2.toNat) (off % bsize) (p.take n1))).vol inum r.1 =
          (m1.vol inum r.1).put r.2.toNat (off % bsize) (p.take n1) := by
        rw [Image.vol, Image.sealed_putData hdata, ← Image.sealed_data hdata]
        rfl
      have hok : ((m1.put r.2.toNat
          (putBytes (m1.disk r.2.toNat) (off % bsize) (p.take n1))).vol inum r.1).Ok := by
        rw [hput]
        exact (Vol.put_grow (N := ∅) hgrow.ok hslot1).ok
      have hrest : ∀ {Q E}, Ends (writeLoop (off + n1) (p.drop n1))
          ((m1.vol inum r.1).put r.2.toNat (off % bsize) (p.take n1)) Q E →
          Ends (do
            let addr ← bmap (off / bsize)
            modify fun v => { v with
              disk := update v.disk addr.toNat
                (putBytes (v.disk addr.toNat) (off % bsize) (p.take n1)) }
            writeLoop (off + n1) (p.drop n1)) (m.vol inum din) Q E := by
        intro Q E hends
        refine .bind ((run_eq_ok.mp hrun1).of_safe fun _ _ h => h)
                fun a v hav => ?_
        obtain ⟨rfl, rfl⟩ := hav
        rw [ends_bind, ends_modify]
        exact hends
      refine (ih _ (by omega) rfl (hfresh1.put hused) hok (by omega)).mono
        (fun r' m' h' => ?_) fun _ he => ?_
      · obtain ⟨hfresh', hino', hoff', hrun'⟩ := h'
        refine ⟨hfresh', hino'.trans hino1, by omega, ?_⟩
        rw [hput, run_eq_ok] at hrun'
        exact run_eq_ok.mpr (hrest hrun')
      · rw [hput, run_eq_error] at he
        exact run_eq_error.mpr (hrest he)
    · -- the block is behind the end of the image
      rw [ends_bind, ends_rsect_end (by rw [hsect1, hfresh.nsect, hend]), run_eq_error, ends_bind]
      exact (run_eq_error.mp hrun1).imp fun _ _ hf => hf.elim
  · rw [run_eq_error]
    exact (run_eq_error.mp he).bind fun _ _ hf => hf.elim

/-! ### What the calls do -/

/-- The image while files are being added to it. -/
structure Built (m : Image) : Prop where
  fresh : m.Fresh
  own : Ownership m.sealed
  /-- A file has the places that its size needs, and no others. -/
  packed : ∀ {i k}, i < ninodes → slots m.sealed (dinode m.sealed) (i, k) ≠ none →
    k ∈ rangeNeeds 0 (dinode m.sealed i).size.toNat
  pos : 0 < m.freeinode
  le : m.freeinode ≤ ninodes
  unused : ∀ {i}, i < ninodes → i = 0 ∨ m.freeinode ≤ i → dinode m.sealed i = .empty 0 0
  files : ∀ {i}, 0 < i → i < m.freeinode → IsFile m.sealed i

namespace Built

theorem free (h : Built m) {i : Nat} (hi : i < ninodes) (hi' : i = 0 ∨ m.freeinode ≤ i) :
    (dinode m.sealed i).type = 0#16 := by
  rw [h.unused hi hi']
  rfl

theorem reserved (h : Built m) (hone : size ≤ bpb) : Reserved m.sealed := by
  intro b hb
  have hlow := h.fresh.low
  have hhigh := h.fresh.high
  rw [Image.bit_sealed hone (by omega)]
  exact decide_eq_true (by omega)

theorem inv (h : Built m) (hone : size ≤ bpb) : FsInv m.sealed :=
  ⟨⟨h.own.owned, h.reserved hone⟩, h.own.filled⟩

/-- The inode blocks are in the image, below the blocks of files. -/
theorem iblock_lt (h : Built m) {i : Nat} (hi : i < ninodes) :
    iblock i < m.nsect ∧ iblock i < m.freeblock := by
  have hlt := iblock_lt_datastart hi
  have hlow := h.fresh.low
  have hhigh := h.fresh.high
  have hsect := h.fresh.nsect
  omega

end Built

theorem ends_rinode {Q : Dinode → Image → Prop} {E : Stop → Prop} (hi : inum < ninodes)
    (hin : iblock inum < m.nsect) :
    Ends (rinode inum) m Q E ↔ Q (dinode m.sealed inum) m := by
  rw [rinode, ends_bind, ends_rsect hin, ends_pure, Image.dinode_sealed hi]
  rfl

/-- The image with an inode in it. -/
def Image.putInode (m : Image) (inum : Nat) (ip : Dinode) : Image :=
  m.put (iblock inum) (ip.toBlock (m.disk (iblock inum)) (inum % ipb))

theorem ends_winode {Q : Unit → Image → Prop} {E : Stop → Prop} {ip : Dinode}
    (hin : iblock inum < m.nsect) : Ends (winode inum ip) m Q E ↔ Q () (m.putInode inum ip) := by
  rw [winode, ends_bind, ends_rsect hin, ends_wsect hin]
  rfl

theorem Image.sealed_putInode {ip : Dinode} (hi : inum < ninodes) :
    (m.putInode inum ip).sealed = putDinode m.sealed inum ip := by
  have hlt := iblock_lt hi
  have hsame : m.sealed (iblock inum) = m.disk (iblock inum) :=
    update_of_ne (by omega) _ _
  rw [putInode, sealed_put (by omega), putDinode, hsame]

theorem Built.written {m' : Image} {p : List Byte} (h : Built m) (hpos : 0 < inum)
    (hlt : inum < m.freeinode) (hfresh : m'.Fresh) (hino : m'.freeinode = m.freeinode)
    (hw : Written m.sealed m'.sealed inum (dinode m.sealed inum).size.toNat p) : Built m' where
  fresh := hfresh
  own := h.own.written hw
  packed {i k} hi hne := by
    by_cases hold : slots m.sealed (dinode m.sealed) (i, k) = none
    · -- the place is new
      obtain ⟨rfl, hk⟩ := hw.new hold hne
      refine rangeNeeds_subset (Nat.zero_le _) ?_ hk
      rw [hw.size]
      omega
    · have hk := h.packed hi hold
      by_cases hii : i = inum
      · refine rangeNeeds_subset (Nat.zero_le _) ?_ hk
        rw [hii, hw.size]
        omega
      · rw [(hw.others hi hii).1]
        exact hk
  pos := hino ▸ h.pos
  le := hino ▸ h.le
  unused {i} hi hfree := by
    rw [hino] at hfree
    rw [(hw.others hi (by omega)).1]
    exact h.unused hi hfree
  files {i} hi hi' := by
    rw [hino] at hi'
    by_cases hii : i = inum
    · rw [hii, IsFile, hw.inode]
      exact h.files hpos hlt
    · have hfile := h.files hi hi'
      rw [IsFile, (hw.others hfile.1 hii).1]
      exact hfile

theorem iappend_spec {p : List Byte} (h : Built m) (hone : size ≤ bpb) (hpos : 0 < inum)
    (hlt : inum < m.freeinode) : Ends (iappend inum p) m
      (fun _ m' => Built m' ∧ m'.freeinode = m.freeinode ∧
        Written m.sealed m'.sealed inum (dinode m.sealed inum).size.toNat p)
      (fun _ => maxfile * bsize < (dinode m.sealed inum).size.toNat + p.length ∨
        ¬ (lock m.sealed inum).Enough
          (rangeNeeds (dinode m.sealed inum).size.toNat p.length)) := by
  obtain ⟨hi, ht, -⟩ := h.files hpos hlt
  have hinv := h.inv hone
  have hsize := hinv.size_le hi ht
  have hok := hinv.lock hi ht
  rw [iappend, ends_bind, ends_rinode hi (h.iblock_lt hi).1, ends_bind]
  by_cases hfit : (dinode m.sealed inum).size.toNat + p.length ≤ maxfile * bsize
  · refine (iappendLoop_sim hone h.fresh hok hfit).mono (fun r m' hr => ?_) fun _ he => .inr ?_
    · obtain ⟨hfresh, hino, hoff, hrun⟩ := hr
      have hwrote := (writeLoop_spec hok hfit).of_ok hrun
      have hsect : iblock inum < m'.nsect ∧ iblock inum < m'.freeblock := by
        have := iblock_lt_datastart hi
        have := hfresh.low
        have := hfresh.high
        have := hfresh.nsect
        omega
      have hlen : (BitVec.ofNat 32 r.2).toNat =
          max (dinode m.sealed inum).size.toNat ((dinode m.sealed inum).size.toNat + p.length) := by
        rw [hoff, BitVec.toNat_ofNat, Nat.mod_eq_of_lt]
        · omega
        · unfold maxfile ndirect nindirect bsize at hfit
          omega
      have hw := hwrote.putSize hinv hi ht (Nat.le_refl _) hfit hlen
      have hseal : (m'.putInode inum { r.1 with size := BitVec.ofNat 32 r.2 }).sealed = _ :=
        Image.sealed_putInode hi
      rw [ends_winode hsect.1]
      have hw' : Written m.sealed _ inum _ p := hseal.symm ▸ hw
      exact ⟨h.written hpos hlt (hfresh.put hsect.2) hino hw', hino, hw'⟩
    · exact ((writeLoop_spec hok hfit).of_error he).2 _ (Finset.Subset.refl _)
  · -- too large: an assertion fails before the end
    have hne : p ≠ [] := by
      intro hnil
      rw [hnil, List.length_nil] at hfit
      omega
    refine (iappendLoop_fits hne).mono (fun _ _ hle => absurd hle hfit) fun _ _ => .inl ?_
    omega

theorem content_congr {d d' : Disk} {j : Nat} (h : Sound d (dinode d))
    (hslots : slots d' (dinode d') = slots d (dinode d)) (hdata : ∀ b, IsData b → d' b = d b)
    (hsize : (dinode d' j).size = (dinode d j).size) : content d' j = content d j := by
  unfold content fileBytes
  rw [hsize]
  refine List.map_congr_left fun p _ => ?_
  unfold byte
  rw [hslots]
  cases hs : slots d (dinode d) (j, slotOf (p / bsize)) with
  | none => rfl
  | some b => simp only [hdata b (h.isData hs)]

theorem ialloc_spec {type : BitVec 16} (h : Built m) (hone : size ≤ bpb)
    (hlt : m.freeinode < ninodes) (htype : type ≠ 0#16) (hdev : type ≠ tDev) :
    Ends (ialloc type) m
      (fun i m' => i = m.freeinode ∧ Built m' ∧ m'.freeinode = m.freeinode + 1 ∧
        content m'.sealed m.freeinode = [] ∧
        ∀ j < ninodes, j ≠ m.freeinode → content m'.sealed j = content m.sealed j) := by
  have hin := h.iblock_lt hlt
  have hfree := h.free hlt (.inr (Nat.le_refl _))
  rw [ialloc, ends_bind, ends_get, ends_bind, ends_set, ends_bind,
    ends_winode (m := { m with freeinode := m.freeinode + 1 }) hin.1, ends_pure]
  generalize hm' : Image.putInode { m with freeinode := m.freeinode + 1 } m.freeinode
    (.empty type 1) = m'
  have hseal : m'.sealed = putDinode m.sealed m.freeinode (.empty type 1) := by
    rw [← hm']
    exact Image.sealed_putInode hlt
  have hino : m'.freeinode = m.freeinode + 1 := by rw [← hm']; rfl
  have hfresh : m'.Fresh := by
    rw [← hm']
    exact Image.Fresh.put (m := { m with freeinode := m.freeinode + 1 })
      ⟨h.fresh.low, h.fresh.high, h.fresh.nsect, h.fresh.zero⟩ hin.2
  have hdin : ∀ j, dinode m'.sealed j =
      if j = m.freeinode then .empty type 1 else dinode m.sealed j := by
    rw [hseal]
    exact fun j => dinode_putDinode _ _ j _
  have hslots : slots m'.sealed (dinode m'.sealed) = slots m.sealed (dinode m.sealed) := by
    have hsame := slots_update_empty hfree type 1
    rw [hseal, slots_putDinode hlt (hsame ▸ h.own.owned), hsame]
  refine ⟨rfl, ⟨hfresh, ?_, fun {i k} hi hne => ?_, by omega, by omega, fun {i} hi hi' => ?_,
    fun {i} hi hi' => ?_⟩, hino, ?_, fun j hj hne => ?_⟩
  · rw [hseal]
    exact h.own.putEmpty hlt hfree type 1
  · rw [hslots] at hne
    have hii : i ≠ m.freeinode := by
      intro he
      exact hne (if_neg fun hs => hs.2.1 (he ▸ hfree))
    rw [hdin, if_neg hii]
    exact h.packed hi hne
  · have hpos := h.pos
    rw [hdin, if_neg (by omega)]
    exact h.unused hi (by omega)
  · by_cases hii : i = m.freeinode
    · rw [IsFile, hdin, if_pos hii]
      exact ⟨hii ▸ hlt, htype, hdev⟩
    · rw [IsFile, hdin, if_neg hii]
      exact h.files hi (by omega)
  · apply List.eq_nil_of_length_eq_zero
    rw [length_content, hdin, if_pos rfl]
    rfl
  · refine content_congr (h.inv hone).sound hslots (fun b hb => ?_) ?_
    · rw [hseal]
      exact putDinode_data hlt hb _
    · rw [hdin, if_neg hne]

end

end Xv6.Mkfs
