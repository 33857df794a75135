import Mathlib.Algebra.BigOperators.Group.Finset.Piecewise
import Mathlib.Algebra.Order.BigOperators.Group.Finset
import Mathlib.Order.Interval.Finset.Nat
import Xv6.Fs.CacheRuns
import Xv6.Fs.Mkfs

/-!
# Xv6.Fs.MkfsImage

Sequences of `mkfs`'s `ialloc` and `iappend`. A sequence that fits into the image goes
through, and the kernel then reads from every file what was appended to it, and can go on from
the image (`kernel_runs_on_image`).

Whether a sequence fits is a matter of the lengths of the files only: the blocks that have
been taken are those of the files as they are now (`Built.freeblock_eq`), because the
places of the inodes own their blocks and leave none out.
-/

namespace Xv6.Mkfs

open Function (update update_self update_of_ne)
open Superblock

/-! ### How many blocks there are -/

/-- The blocks that a file of `n` bytes takes, with its indirect block. -/
def fileBlocks (n : Nat) : Nat := (n + (bsize - 1)) / bsize + if ndirect * bsize < n then 1 else 0

theorem mem_rangeNeeds {n k : Nat} (hn : n ≤ maxfile * bsize) : k ∈ rangeNeeds 0 n ↔
    (k = ndirect ∧ ndirect * bsize < n) ∨ ∃ bn < (n + (bsize - 1)) / bsize, k = slotOf bn := by
  have hlt : ∀ bn, bn < (n + (bsize - 1)) / bsize ↔ bn * bsize < n := by
    intro bn
    rw [Nat.lt_div_iff_mul_lt (by decide)]
    unfold bsize
    omega
  have hmax : ∀ bn, bn * bsize < n → bn < maxfile := by
    intro bn hbn
    exact Nat.lt_of_mul_lt_mul_right (Nat.lt_of_lt_of_le hbn hn)
  rw [rangeNeeds, Finset.mem_biUnion]
  constructor
  · intro hk
    obtain ⟨bn, hbn, hk⟩ := hk
    obtain ⟨-, -, hbn, -⟩ := mem_touched.mp hbn
    rw [Nat.zero_add] at hbn
    unfold needs at hk
    split at hk
    · next hd =>
        rw [Finset.mem_singleton.mp hk]
        exact .inr ⟨bn, (hlt bn).mpr hbn, (if_pos hd).symm⟩
    · next hd =>
        rcases Finset.mem_insert.mp hk with hk | hk
        · have hle : ndirect * bsize ≤ bn * bsize := Nat.mul_le_mul_right _ (by omega)
          exact .inl ⟨hk, by omega⟩
        · rw [Finset.mem_singleton.mp hk]
          exact .inr ⟨bn, (hlt bn).mpr hbn, (if_neg hd).symm⟩
  · have htouched : ∀ bn, bn * bsize < n → bn ∈ touched 0 n := by
      intro bn hbn
      have := hmax bn hbn
      rw [mem_touched, Nat.zero_div]
      omega
    rintro (⟨rfl, hn'⟩ | ⟨bn, hbn, rfl⟩)
    · exact ⟨ndirect, htouched _ hn', by decide⟩
    · exact ⟨bn, htouched _ ((hlt bn).mp hbn), slotOf_mem_needs bn⟩

theorem card_rangeNeeds {n : Nat} (hn : n ≤ maxfile * bsize) :
    (rangeNeeds 0 n).card = fileBlocks n := by
  have hcard : ((Finset.range ((n + (bsize - 1)) / bsize)).image slotOf).card =
      (n + (bsize - 1)) / bsize := by
    rw [Finset.card_image_of_injective _ fun _ _ => slotOf_inj, Finset.card_range]
  have hnot : ndirect ∉ (Finset.range ((n + (bsize - 1)) / bsize)).image slotOf := by
    intro hmem
    obtain ⟨bn, -, hbn⟩ := Finset.mem_image.mp hmem
    exact slotOf_ne bn hbn
  unfold fileBlocks
  by_cases hbig : ndirect * bsize < n
  · have heq : rangeNeeds 0 n =
        insert ndirect ((Finset.range ((n + (bsize - 1)) / bsize)).image slotOf) := by
      ext k
      rw [mem_rangeNeeds hn, Finset.mem_insert, Finset.mem_image]
      simp [hbig, eq_comm]
    rw [heq, Finset.card_insert_of_notMem hnot, hcard, if_pos hbig]
  · have heq : rangeNeeds 0 n = (Finset.range ((n + (bsize - 1)) / bsize)).image slotOf := by
      ext k
      rw [mem_rangeNeeds hn, Finset.mem_image]
      simp [hbig, eq_comm]
    rw [heq, hcard, if_neg hbig, Nat.add_zero]

section
variable [Superblock] {m : Image}

/-- The blocks of files of these lengths. -/
def allBlocks (len : Nat → Nat) : Nat := ∑ i ∈ Finset.range ninodes, fileBlocks (len i)

/-- The bytes in a file, if there is one. -/
def Image.len (m : Image) (i : Nat) : Nat :=
  if 0 < i ∧ i < m.freeinode then (dinode m.sealed i).size.toNat else 0

theorem allBlocks_update (len : Nat → Nat) {i : Nat} (hi : i < ninodes) (n : Nat) :
    allBlocks (update len i n) + fileBlocks (len i) = allBlocks len + fileBlocks n := by
  have hmem : i ∈ Finset.range ninodes := Finset.mem_range.mpr hi
  have hcomp : ∀ j, fileBlocks (update len i n j) =
      update (fun j => fileBlocks (len j)) i (fileBlocks n) j := by
    intro j
    by_cases hj : j = i
    · rw [hj, update_self, update_self]
    · rw [update_of_ne hj, update_of_ne hj]
  unfold allBlocks
  rw [Finset.sum_congr rfl fun j _ => hcomp j, Finset.sum_update_of_mem hmem,
    Finset.sum_eq_add_sum_sdiff_singleton_of_mem hmem fun j => fileBlocks (len j)]
  omega

namespace Built

theorem len_le (h : Built m) (hone : size ≤ bpb) (i : Nat) : m.len i ≤ maxfile * bsize := by
  unfold Image.len
  split
  · next hi =>
      obtain ⟨hlt, ht, -⟩ := h.files hi.1 hi.2
      exact (h.inv hone).size_le hlt ht
  · exact Nat.zero_le _

/-- The blocks that have been taken are those of the files. -/
theorem freeblock_eq (h : Built m) (hone : size ≤ bpb) :
    m.freeblock = datastart + allBlocks m.len := by
  have hslot : ∀ i k, slots m.sealed (dinode m.sealed) (i, k) ≠ none ↔
      i < ninodes ∧ k ∈ rangeNeeds 0 (m.len i) := by
    intro i k
    unfold Image.len
    constructor
    · intro hne
      obtain ⟨b, hb⟩ := Option.ne_none_iff_exists'.mp hne
      obtain ⟨hi, ht, -⟩ := slots_eq_some.mp hb
      have hused : 0 < i ∧ i < m.freeinode := by
        by_contra hout
        exact ht (h.free hi (by omega))
      rw [if_pos hused]
      exact ⟨hi, h.packed hi hne⟩
    · intro hik
      obtain ⟨hi, hk⟩ := hik
      split at hk
      · next hused =>
          exact (h.inv hone).needs_filled hi (h.files hused.1 hused.2).2.1 (by omega) hk
      · simp [rangeNeeds, touched] at hk
  -- one place for each block
  have hcard := h.own.owned.card_eq h.own.tidy
    (S := (Finset.range ninodes).biUnion fun i => (rangeNeeds 0 (m.len i)).image fun k => (i, k))
    (B := Finset.Ico datastart m.freeblock) ?_ ?_
  · rw [Finset.card_biUnion] at hcard
    · have hsum : ∑ i ∈ Finset.range ninodes,
          ((rangeNeeds 0 (m.len i)).image fun k => (i, k)).card = allBlocks m.len := by
        refine Finset.sum_congr rfl fun i _ => ?_
        rw [Finset.card_image_of_injective _ fun _ _ hkk => (Prod.mk.inj hkk).2,
          card_rangeNeeds (h.len_le hone i)]
      rw [hsum, Nat.card_Ico] at hcard
      have := h.fresh.low
      omega
    · intro i _ j _ hij
      refine Finset.disjoint_left.mpr fun s hs hs' => hij ?_
      obtain ⟨k, -, rfl⟩ := Finset.mem_image.mp hs
      obtain ⟨l, -, hl⟩ := Finset.mem_image.mp hs'
      exact (Prod.mk.inj hl).1.symm
  · intro s
    obtain ⟨i, k⟩ := s
    rw [hslot]
    simp
  · intro b
    have hhigh := h.fresh.high
    rw [Finset.mem_Ico, InUse]
    constructor
    · intro hb
      have hdata : IsData b := ⟨hb.1, by omega⟩
      rw [Image.bit_sealed hone hdata.2]
      exact ⟨hdata, decide_eq_true hb.2⟩
    · intro hb
      rw [Image.bit_sealed hone hb.1.2] at hb
      exact ⟨hb.1.1, of_decide_eq_true hb.2⟩

theorem enough (h : Built m) (hone : size ≤ bpb) {i n : Nat} (hpos : 0 < i)
    (hlt : i < m.freeinode) (hfit : (dinode m.sealed i).size.toNat + n ≤ maxfile * bsize)
    (hroom : datastart + allBlocks (update m.len i (m.len i + n)) ≤ size) :
    (lock m.sealed i).Enough (rangeNeeds (dinode m.sealed i).size.toNat n) := by
  have hi := (h.files hpos hlt).1
  have hlen : m.len i = (dinode m.sealed i).size.toNat := if_pos ⟨hpos, hlt⟩
  have hcount := h.freeblock_eq hone
  have hupdate := allBlocks_update m.len hi (m.len i + n)
  -- what the file lacks is what the longer file needs beyond its own
  have hlack : (lock m.sealed i).lack (rangeNeeds (dinode m.sealed i).size.toNat n) ⊆
      rangeNeeds 0 (m.len i + n) \ rangeNeeds 0 (m.len i) := by
    intro k hk
    obtain ⟨hk, hnone⟩ := Finset.mem_filter.mp hk
    rw [lock_slots] at hnone
    rw [Finset.mem_sdiff, hlen]
    refine ⟨rangeNeeds_subset (Nat.zero_le _) (Nat.le_of_eq (Nat.zero_add _).symm) hk,
      fun hold => ?_⟩
    exact (h.inv hone).needs_filled hi (h.files hpos hlt).2.1 (by omega) hold hnone
  have hfree : (lock m.sealed i).free = Finset.Ico m.freeblock size := by
    ext b
    rw [Vol.free, Finset.mem_filter, Finset.mem_range, Finset.mem_Ico]
    constructor
    · intro hb
      have hbit : bit m.sealed b = false := hb.2
      rw [Image.bit_sealed hone hb.1] at hbit
      have := of_decide_eq_false hbit
      omega
    · intro hb
      refine ⟨hb.2, ?_⟩
      show bit m.sealed b = false
      rw [Image.bit_sealed hone hb.2]
      exact decide_eq_false (by omega)
  have hsub : rangeNeeds 0 (m.len i) ⊆ rangeNeeds 0 (m.len i + n) :=
    rangeNeeds_subset (Nat.le_refl _) (by omega)
  have hle := Finset.card_le_card hlack
  rw [Finset.card_sdiff_of_subset hsub, card_rangeNeeds (by omega),
    card_rangeNeeds (h.len_le hone i)] at hle
  rw [Vol.Enough, hfree, Nat.card_Ico]
  omega

end Built

/-! ### The empty image -/

/-- What `format` makes: zeros, but for the super block. -/
def blank : Image := ⟨update (fun _ _ => 0#32) 1 sbBlock, size, 1, datastart⟩

omit [Superblock] in
theorem zeroLoop_spec (fi fb : Nat) : ∀ {n i : Nat},
    Ends (zeroLoop i n) ⟨fun _ _ => 0#32, i, fi, fb⟩
      (fun _ m => m = ⟨fun _ _ => 0#32, i + n, fi, fb⟩) := by
  intro n
  induction n with
  | zero =>
    intro i
    exact .ret rfl
  | succ n ih =>
    intro i
    rw [zeroLoop, ends_bind, wsect, ends_modify]
    dsimp only
    rw [Function.update_eq_self_iff.mpr rfl, Nat.max_eq_right (Nat.le_succ i)]
    refine ih.imp fun _ m hm => ?_
    rw [hm, Nat.add_right_comm, Nat.add_assoc]

theorem one_lt_datastart : 1 < datastart := by
  have h1 := log_area
  have h2 : inodestart < bmapstart :=
    Nat.lt_of_lt_of_le (Nat.lt_add_of_pos_right (Nat.succ_pos _)) inode_area
  have h3 := bmapstart_lt
  omega

theorem format_spec : Ends format start (fun _ m => m = blank) := by
  have h1 := one_lt_datastart
  have h2 : datastart ≤ size := Nat.sub_le _ _
  rw [format]
  refine (zeroLoop_spec 1 datastart).bind fun _ m hm => ?_
  rw [hm, ends_wsect (by dsimp only; omega), Nat.zero_add]
  rfl

theorem disk_blank {b : Nat} (hb : b ≠ 1) : blank.disk b = fun _ => 0#32 := by
  unfold blank
  dsimp only
  rw [update_of_ne hb]

theorem dinode_blank {i : Nat} (hi : i < ninodes) : dinode blank.sealed i = .empty 0 0 := by
  have h1 := log_area
  have h2 : inodestart ≤ iblock i := Nat.le_add_left _ _
  rw [Image.dinode_sealed hi, dinode, disk_blank (by omega)]
  simp [Dinode.ofBlock, Dinode.empty]

theorem built_blank (hone : size ≤ bpb) (hino : 0 < ninodes) : Built blank := by
  have h1 := one_lt_datastart
  have hblock : blank.freeblock = datastart := rfl
  have hinode : blank.freeinode = 1 := rfl
  have hslots : ∀ s, slots blank.sealed (dinode blank.sealed) s = none := by
    intro s
    refine if_neg fun hs => hs.2.1 ?_
    rw [dinode_blank hs.1]
    rfl
  have hfresh : blank.Fresh :=
    ⟨Nat.le_refl _, Nat.sub_le _ _, rfl, fun b hb => disk_blank (by omega)⟩
  refine ⟨hfresh, .of_empty hslots (fun i hi => ?_) fun b hb => ?_, fun _ hne => ?_, ?_, hino,
    fun hi _ => ?_, fun hi hi' => ?_⟩
  · rw [dinode_blank hi]
    rfl
  · have hb' := hb.1
    rw [Image.bit_sealed hone hb.2]
    exact decide_eq_false (by omega)
  · exact absurd (hslots _) hne
  · exact Nat.one_pos
  · exact dinode_blank hi
  · omega

/-! ### Sequences of calls -/

/-- The calls that put files into the image. -/
inductive Call
  | ialloc (type : BitVec 16)
  | iappend (inum : Nat) (p : List Byte)

def Call.exec : Call → Mk Unit
  | .ialloc type => do let _ ← Mkfs.ialloc type
  | .iappend inum p => Mkfs.iappend inum p

def runCalls : List Call → Mk Unit
  | [] => pure ()
  | c :: cs => do
    c.exec
    runCalls cs

/-- The calls are about files and directories that there are, with `n` for `freeinode`. -/
def Allowed : Nat → List Call → Prop
  | _, [] => True
  | n, .ialloc type :: cs => type ≠ 0#16 ∧ type ≠ tDev ∧ n < ninodes ∧ Allowed (n + 1) cs
  | n, .iappend inum _ :: cs => 0 < inum ∧ inum < n ∧ Allowed n cs

omit [Superblock] in
/-- The bytes that a call appends to the file `i`. -/
def Call.data (i : Nat) : Call → List Byte
  | .ialloc _ => []
  | .iappend inum p => if inum = i then p else []

omit [Superblock] in
/-- The inodes that a call allocates. -/
def Call.inodes : Call → Nat
  | .ialloc _ => 1
  | .iappend _ _ => 0

/-- What the calls append to the file `i`. -/
def appended (cs : List Call) (i : Nat) : List Byte := cs.flatMap (Call.data i)

/-- Files of these contents are not too large, and have their blocks in the image. -/
def Fits (f : Nat → List Byte) : Prop :=
  (∀ i < ninodes, (f i).length ≤ maxfile * bsize) ∧
    datastart + allBlocks (fun i => (f i).length) ≤ size

/-- The image with these files in it. -/
structure Holding (m : Image) (f : Nat → List Byte) : Prop where
  built : Built m
  content : ∀ {i}, 0 < i → i < m.freeinode → content m.sealed i = f i
  none : ∀ {i}, ¬ (0 < i ∧ i < m.freeinode) → f i = []

variable {f g : Nat → List Byte}

theorem Holding.len_eq (h : Holding m f) : m.len = fun i => (f i).length := by
  funext i
  unfold Image.len
  split
  · next hi => rw [← h.content hi.1 hi.2, length_content]
  · next hi => rw [h.none hi, List.length_nil]

omit [Superblock] in
theorem fileBlocks_mono {n n' : Nat} (hle : n ≤ n') : fileBlocks n ≤ fileBlocks n' := by
  have hdiv : (n + (bsize - 1)) / bsize ≤ (n' + (bsize - 1)) / bsize :=
    Nat.div_le_div_right (by omega)
  unfold fileBlocks
  split <;> split <;> omega

theorem Fits.mono (h : Fits g) (hle : ∀ i, (f i).length ≤ (g i).length) : Fits f := by
  refine ⟨fun i hi => Nat.le_trans (hle i) (h.1 i hi), Nat.le_trans ?_ h.2⟩
  exact Nat.add_le_add_left (Finset.sum_le_sum fun i _ => fileBlocks_mono (hle i)) _

theorem iappend_holding {inum : Nat} {p : List Byte} (h : Holding m f) (hone : size ≤ bpb)
    (hpos : 0 < inum) (hlt : inum < m.freeinode) : Ends (iappend inum p) m
      (fun _ m' => Holding m' (update f inum (f inum ++ p)) ∧ m'.freeinode = m.freeinode)
      (fun _ => ¬ Fits (update f inum (f inum ++ p))) := by
  have hi := (h.built.files hpos hlt).1
  have hsize : (dinode m.sealed inum).size.toNat = (f inum).length := by
    rw [← h.content hpos hlt, length_content]
  refine (iappend_spec h.built hone hpos hlt).mono (fun _ m' hm' => ?_) fun _ he hfits => ?_
  · obtain ⟨hb, hino, hw⟩ := hm'
    refine ⟨⟨hb, fun {i} hi hi' => ?_, fun {i} hout => ?_⟩, hino⟩
    · rw [hino] at hi'
      by_cases hii : i = inum
      · -- the bytes are behind those that were there
        rw [hii, update_self, hw.content, hsize, h.content hpos hlt, List.take_length,
          List.drop_eq_nil_of_le (by omega), List.append_nil]
      · rw [update_of_ne hii, (hw.others (h.built.files hi hi').1 hii).2,
          h.content hi hi']
    · rw [hino] at hout
      have hne : i ≠ inum := by
        intro he
        exact hout (by rw [he]; exact ⟨hpos, hlt⟩)
      rw [update_of_ne hne, h.none hout]
  · obtain ⟨hmax, hroom⟩ := hfits
    have hmax' := hmax inum hi
    rw [update_self, List.length_append] at hmax'
    rcases he with hbig | hno
    · omega
    · refine hno (h.built.enough hone hpos hlt (by omega) ?_)
      have hlen : update m.len inum (m.len inum + p.length) =
          fun i => (update f inum (f inum ++ p) i).length := by
        funext i
        rw [h.len_eq]
        by_cases hii : i = inum
        · rw [hii, update_self, update_self, List.length_append]
        · rw [update_of_ne hii, update_of_ne hii]
      rw [hlen]
      exact hroom

theorem ialloc_holding {type : BitVec 16} (h : Holding m f) (hone : size ≤ bpb)
    (hlt : m.freeinode < ninodes) (htype : type ≠ 0#16) (hdev : type ≠ tDev) :
    Ends (ialloc type) m
      (fun i m' => i = m.freeinode ∧ Holding m' f ∧ m'.freeinode = m.freeinode + 1) := by
  refine (ialloc_spec h.built hone hlt htype hdev).imp fun i m' hm' => ?_
  obtain ⟨rfl, hb, hino, hnew, hold⟩ := hm'
  refine ⟨rfl, ⟨hb, fun {i} hi hi' => ?_, fun {i} hi => h.none (by omega)⟩, hino⟩
  by_cases hii : i = m.freeinode
  · rw [hii, hnew, h.none (by omega)]
  · rw [hold i (by omega) hii, h.content hi (by omega)]

theorem runCalls_spec (hone : size ≤ bpb) : ∀ {cs : List Call} {m : Image} {f : Nat → List Byte},
    Holding m f → Allowed m.freeinode cs → Ends (runCalls cs) m
      (fun _ m' => (Holding m' fun i => f i ++ appended cs i) ∧
        m'.freeinode = m.freeinode + (cs.map Call.inodes).sum)
      (fun _ => ¬ Fits fun i => f i ++ appended cs i) := by
  intro cs
  induction cs with
  | nil =>
    intro m f h _
    refine .ret ⟨?_, rfl⟩
    simpa [appended] using h
  | cons c cs ih =>
    intro m f h hcs
    -- the first call, then the rest
    have happ : ∀ i, f i ++ appended (c :: cs) i = (f i ++ c.data i) ++ appended cs i := by
      intro i
      rw [appended, List.flatMap_cons, List.append_assoc]
      rfl
    simp only [happ]
    have hstep : Ends c.exec m
        (fun _ m' => Holding m' (fun i => f i ++ c.data i) ∧ Allowed m'.freeinode cs ∧
          m'.freeinode = m.freeinode + c.inodes)
        (fun _ => ¬ Fits fun i => f i ++ c.data i) := by
      cases c with
      | ialloc type =>
        obtain ⟨htype, hdev, hlt, hcs⟩ := hcs
        rw [Call.exec, ends_bind]
        refine (ialloc_holding h hone hlt htype hdev).of_safe fun i m' hm' => ?_
        obtain ⟨-, hm', hino⟩ := hm'
        refine .ret ⟨?_, hino ▸ hcs, hino⟩
        simpa [Call.data] using hm'
      | iappend inum p =>
        obtain ⟨hpos, hlt, hcs⟩ := hcs
        have hdata : (fun i => f i ++ Call.data i (.iappend inum p)) =
            update f inum (f inum ++ p) := by
          funext i
          by_cases hii : i = inum
          · rw [hii, update_self, Call.data, if_pos rfl]
          · rw [update_of_ne hii, Call.data, if_neg (Ne.symm hii), List.append_nil]
        rw [hdata]
        exact (iappend_holding h hone hpos hlt).imp fun _ m' hm' => ⟨hm'.1, hm'.2.symm ▸ hcs, hm'.2⟩
    rw [runCalls, ends_bind]
    refine hstep.mono (fun _ m' hm' => ?_) fun _ he hfits => he (hfits.mono fun i => ?_)
    · obtain ⟨hm', hcs', hino⟩ := hm'
      refine (ih hm' hcs').imp fun _ m'' hm'' => ⟨hm''.1, ?_⟩
      rw [hm''.2, hino, List.map_cons, List.sum_cons, Nat.add_assoc]
    · exact (List.sublist_append_left _ _).length_le

/-! ### What the kernel reads -/

variable [Devsw]

/-- All of a file whose blocks are there; the free map is not looked at. -/
theorem readi_all {d : Disk} {i : Nat} (hdev : (dinode d i).type ≠ tDev)
    (hsize : (dinode d i).size.toNat ≤ maxfile * bsize)
    (hrefs : ∀ bn, bn * bsize < (dinode d i).size.toNat → (dinode d i).ref d (slotOf bn) ≠ 0#32) :
    (Vol.readi 0#32 (dinode d i).size).run (lock d i) =
      .ok (some ((List.range (dinode d i).size.toNat).map (lock d i).at), lock d i) := by
  have hip : (lock d i).ip = dinode d i := rfl
  have hloop : (readLoop 0 (dinode d i).size.toNat).run (lock d i) = _ :=
    readLoop_refs (by omega) fun bn hbn => hrefs bn (by have := mem_touched.mp hbn; omega)
  have hgood : ¬ ((dinode d i).size < 0#32 ∨ 0#32 + (dinode d i).size < 0#32) := by
    rw [not_or, wraps_iff, BitVec.lt_def]
    have := (dinode d i).size.isLt
    simp
    omega
  have hn : (if (dinode d i).size < 0#32 + (dinode d i).size then (dinode d i).size - 0#32
      else (dinode d i).size) = (dinode d i).size := by
    split
    · exact BitVec.sub_zero _
    · rfl
  rw [run_eq_ok, Vol.readi, ends_bind, ends_get, hip, if_neg hdev, if_neg hgood]
  dsimp only
  rw [hn]
  refine .bind (run_eq_ok.mp hloop) fun bytes v hv => ?_
  obtain ⟨rfl, rfl⟩ := hv
  refine .ret ⟨?_, rfl⟩
  simp only [Nat.zero_add]

omit [Devsw] in
/-- An inode finds its blocks without the free map. -/
theorem Built.ref_sealed (h : Built m) {i k : Nat} (hi : i < ninodes)
    (ht : (dinode m.sealed i).type ≠ 0#16) :
    (dinode m.disk i).ref m.disk k = (dinode m.sealed i).ref m.sealed k := by
  rw [← Image.dinode_sealed hi]
  exact ref_congr hi ht fun b hb => (Image.sealed_data (h.own.owned.used hb).1).symm

/-- The kernel's view of a file, before and after the free map has been written. -/
theorem Holding.reads (h : Holding m f) (hone : size ≤ bpb) {i : Nat} (hi : 0 < i)
    (hi' : i < m.freeinode) {d : Disk} (hd : d = m.disk ∨ d = m.sealed) :
    (dinode d i).size.toNat = (f i).length ∧
      (Vol.readi 0#32 (dinode d i).size).run (lock d i) = .ok (some (f i), lock d i) := by
  obtain ⟨hlt, ht, hdev⟩ := h.built.files hi hi'
  have hinv := h.built.inv hone
  have hsize : (dinode m.sealed i).size.toNat = (f i).length := by
    rw [← h.content hi hi', length_content]
  have hle := hinv.size_le hlt ht
  have hslot : ∀ bn, bn * bsize < (dinode m.sealed i).size.toNat →
      ∃ b, slots m.sealed (dinode m.sealed) (i, slotOf bn) = some b := fun bn hbn =>
    Option.ne_none_iff_exists'.mp (hinv.filled hlt ht hbn)
  have hsealed : (Vol.readi 0#32 (dinode m.sealed i).size).run (lock m.sealed i) =
      .ok (some (f i), lock m.sealed i) := by
    obtain ⟨r, v, hrun, rfl, rfl⟩ :=
      (readi_spec hinv hlt ht hdev 0#32 (dinode m.sealed i).size).exists_ok
    rw [hrun, h.content hi hi', readBytes, if_neg, hsize]
    · simp
    · have hlt32 := (dinode m.sealed i).size.isLt
      have hzero : (0#32).toNat = 0 := rfl
      omega
  rcases hd with rfl | rfl
  · -- the same addresses, and the same blocks
    have hdin := Image.dinode_sealed (m := m) hlt
    have hrefs : ∀ bn, bn * bsize < (dinode m.sealed i).size.toNat →
        (dinode m.sealed i).ref m.sealed (slotOf bn) ≠ 0#32 := by
      intro bn hbn
      obtain ⟨b, hb⟩ := hslot bn hbn
      exact (slots_eq_some.mp hb).2.2.2.1
    have hall := readi_all hdev hle hrefs
    have hall' : (Vol.readi 0#32 (dinode m.disk i).size).run (lock m.disk i) = _ :=
      readi_all (hdin ▸ hdev) (hdin ▸ hle) fun bn hbn => by
        rw [h.built.ref_sealed hlt ht]
        exact hrefs bn (hdin.symm ▸ hbn)
    have hbytes : (List.range (dinode m.sealed i).size.toNat).map (lock m.sealed i).at = f i := by
      have heq := hall.symm.trans hsealed
      simpa using heq
    refine ⟨by rw [← hdin, hsize], hall'.trans ?_⟩
    rw [← hbytes, ← hdin]
    refine congrArg (fun bytes => Except.ok (some bytes, lock m.disk i))
      (List.map_congr_left fun p hp => ?_)
    have hdm : p / bsize * bsize ≤ p := Nat.div_mul_le_self p bsize
    obtain ⟨b, hb⟩ := hslot (p / bsize) (by have := List.mem_range.mp hp; omega)
    obtain ⟨-, -, -, -, hb'⟩ := slots_eq_some.mp hb
    show getByte (m.disk ((dinode m.disk i).ref m.disk _).toNat) _ =
      getByte (m.sealed ((dinode m.sealed i).ref m.sealed _).toNat) _
    rw [h.built.ref_sealed hlt ht, hb', Image.sealed_data (h.built.own.owned.used hb).1]
  · exact ⟨hsize, hsealed⟩

end

theorem image_spec : let _ : Superblock := Superblock.mkfs
    ∀ {cs : List Call}, Allowed 1 cs → Fits (appended cs) →
      Ends (format >>= fun _ => runCalls cs) start
        (fun _ m => Holding m (appended cs) ∧ m.freeinode = 1 + (cs.map Call.inodes).sum) := by
  intro _ cs hcs hfits
  have hone : size ≤ bpb := by decide
  have hblank : Holding blank fun _ => [] := by
    refine ⟨built_blank hone (by decide), fun {i} hi hi' => ?_, fun _ => rfl⟩
    exact absurd hi' (Nat.not_lt.mpr hi)
  refine format_spec.bind fun _ m hm => ?_
  rw [hm]
  exact (runCalls_spec hone hblank hcs).mono (fun _ _ h => h) fun _ he => he hfits

/-- A sequence of appends that fits into the image goes through, and the kernel reads from
every file what was appended to it. -/
theorem kernel_reads_back [Devsw] : let _ : Superblock := Superblock.mkfs
    ∀ cs : List Call, Allowed 1 cs → Fits (appended cs) →
      ∃ m, (format >>= fun _ => runCalls cs).run start = .ok ((), m) ∧
        ∀ i, 0 < i → i ≤ (cs.map Call.inodes).sum → ∀ d, d = m.disk ∨ d = m.sealed →
          (dinode d i).size.toNat = (appended cs i).length ∧
          (Vol.readi 0#32 (dinode d i).size).run (lock d i) =
            .ok (some (appended cs i), lock d i) := by
  intro _ cs hcs hfits
  obtain ⟨_, m, hrun, hm⟩ := (image_spec hcs hfits).exists_ok
  exact ⟨m, hrun, fun i hi hi' d hd => hm.1.reads (by decide) hi (by omega) hd⟩

/-- Two files, appended to in turn. -/
theorem kernel_reads_back_two : let _ : Superblock := Superblock.mkfs
    let _ : Devsw := Devsw.none
    ∃ m, (format >>= fun _ => runCalls [.ialloc tFile, .ialloc tFile, .iappend 1 [97#8],
        .iappend 2 [98#8], .iappend 1 [99#8]]).run start = .ok ((), m) ∧
      (Vol.readi 0#32 (dinode m.disk 1).size).run (lock m.disk 1) =
        .ok (some [97#8, 99#8], lock m.disk 1) := by
  intro _ _
  obtain ⟨m, hrun, hm⟩ := kernel_reads_back [.ialloc tFile, .ialloc tFile, .iappend 1 [97#8],
    .iappend 2 [98#8], .iappend 1 [99#8]] ⟨by decide, by decide, by decide, by decide, by decide,
      by decide, by decide, by decide, by decide, by decide, by decide, by decide,
      trivial⟩
    ⟨by decide +kernel, by decide +kernel⟩
  exact ⟨m, hrun, (hm 1 (by decide) (by decide) m.disk (.inl rfl)).2⟩

/-- The kernel with the inode cache that it starts with. -/
def boot (d : Disk) : Fs := ⟨d, fun _ => ⟨0, 0, false, .empty 0 0⟩⟩

theorem boot_ok [Superblock] {d : Disk} (hown : Ownership d) (hres : Reserved d) : (boot d).Ok := by
  have hfree : ∀ s, ¬ 0 < ((boot d).icache s).ref := fun _ => lt_irrefl 0
  exact ⟨hown, hres, ⟨fun _ => le_rfl, fun hs => absurd hs (hfree _),
    fun hs => absurd hs (hfree _), fun hs => absurd hs (hfree _)⟩,
    fun s hs => absurd hs (hfree s)⟩

/-- From an image that a sequence of appends has made, whatever the kernel then does: each block
belongs to one place or is free, the cache is what is on the disk, and `bfree` never finds a
free block. -/
theorem kernel_runs_on_image [Devsw] : let _ : Superblock := Superblock.mkfs
    ∀ cs : List Call, Allowed 1 cs → Fits (appended cs) →
      ∃ m, (format >>= fun _ => runCalls cs).run start = .ok ((), m) ∧
        ∀ ops y, Trace FsOp.Step (boot m.sealed) ops y →
          Ownership y.disk ∧ WrittenThrough y ∧
            ∀ op : FsOp, op.Issued y → op.exec.run y ≠ .error .freeingFree := by
  intro _ cs hcs hfits
  obtain ⟨_, m, hrun, hm, -⟩ := (image_spec hcs hfits).exists_ok
  refine ⟨m, hrun, fun ops y hops => ?_⟩
  have hy := FsOp.run_ok hops (boot_ok hm.built.own (hm.built.reserved (by decide)))
  exact ⟨hy.own, hy.through, fun op hop herr => (op.exec_spec hy hop).of_error herr rfl⟩

theorem boot_opens [Superblock] [Devsw] {d : Disk} {i : Nat} (h : (boot d).Ok) (hf : IsFile d i) :
    ∃ s x y, FsOp.Step (boot d) (.iget i) x ∧ FsOp.Step x (.ilock s) y ∧ y.Ok ∧ y.disk = d ∧
      (y.icache s).ref = 1 ∧ (y.icache s).inum = i ∧ (y.icache s).valid = true := by
  have hget := ((iget_cases (boot d) i).and (iget_spec h hf.1)).mono (fun _ _ hx => hx)
    fun _ he => he.1.2 (.inr ⟨firstEntry, rfl⟩)
  obtain ⟨s, x, hx, hcase, hok, hdisk⟩ := hget.exists_ok
  have hentry : x.icache s = ⟨1, i, false, .empty 0 0⟩ := by
    obtain ⟨hpos, -⟩ | ⟨-, -, rfl⟩ := hcase
    · exact absurd hpos (lt_irrefl 0)
    · exact Fs.setEntry_self ..
  have hpos : 0 < (x.icache s).ref := by
    rw [hentry]
    exact Int.one_pos
  have hlock := (ilock_spec hok hpos).mono (fun _ _ hy => hy) fun _ he => by
    rw [hentry, hdisk] at he
    exact hf.2.1 he.2
  obtain ⟨_, y, hy, hok', hdisk', ⟨href, hinum⟩, hv⟩ := hlock.exists_ok
  rw [hentry] at href hinum
  exact ⟨s, x, y, ⟨hf.1, run_discard hx⟩, ⟨hpos, hy⟩, hok', hdisk'.trans hdisk, href, hinum, hv⟩

/-- Two files, of which the kernel opens the empty one, writes to it and frees it. -/
theorem kernel_runs_on_image_two : let _ : Superblock := Superblock.mkfs
    let _ : Devsw := Devsw.none
    ∃ m, (format >>= fun _ => runCalls [.ialloc tFile, .ialloc tFile, .iappend 1 [97#8]]).run
        start = .ok ((), m) ∧
      ∃ s y z, Trace FsOp.Step (boot m.sealed) [.iget 2, .ilock s, .writei s [98#8] 0] y ∧
        slots y.disk (dinode y.disk) (2, 0) ≠ none ∧ Ownership y.disk ∧
        Trace FsOp.Step y [.iupdate s 0 0 0, .iput s] z ∧ (dinode z.disk 2).type = 0#16 ∧
        Ownership z.disk := by
  intro _ _
  have hcs : Allowed 1 [.ialloc tFile, .ialloc tFile, .iappend 1 [97#8]] :=
    ⟨by decide, by decide, by decide, by decide, by decide, by decide, by decide, by decide,
      trivial⟩
  have hfits : Fits (appended [.ialloc tFile, .ialloc tFile, .iappend 1 [97#8]]) :=
    ⟨by decide +kernel, by decide +kernel⟩
  obtain ⟨m, hrun, hm⟩ := kernel_runs_on_image _ hcs hfits
  obtain ⟨hold, hino⟩ := (image_spec hcs hfits).of_ok hrun
  have hlt : 2 < m.freeinode := by
    rw [hino]
    decide
  have hfile := hold.built.files (by decide) hlt
  obtain ⟨s, x1, x2, hget, hlock, hok, hdisk, href, hinum, hv⟩ :=
    boot_opens (boot_ok hold.built.own (hold.built.reserved (by decide))) hfile
  have hroom : ¬ NoRoom m.sealed 2 0 1 := by
    have hsize : (dinode m.sealed 2).size.toNat = 0 := by
      rw [← length_content, hold.content (by decide) hlt]
      rfl
    rintro (hbad | hno)
    · rw [hsize] at hbad
      exact absurd hbad (by decide)
    · have hen := hold.built.enough (n := 1) (by decide) (by decide) hlt (by rw [hsize]; decide)
        (by rw [hold.len_eq]; decide +kernel)
      rw [hsize] at hen
      exact hno hen
  rw [← hdisk, ← hinum] at hroom hfile
  obtain ⟨y, z, hwrite, hslot, hrest, hfree⟩ := write_unlink_put hok href hv hfile.2.2 98 hroom
  rw [hinum] at hslot hfree
  have hopen : Trace FsOp.Step (boot m.sealed) [.iget 2, .ilock s, .writei s [98#8] 0] y :=
    .cons hget (.cons hlock (.cons hwrite (.nil _)))
  exact ⟨m, hrun, s, y, z, hopen, hslot, (hm _ _ hopen).1, hrest, hfree,
    (hm _ _ (.cons hget (.cons hlock (.cons hwrite hrest)))).1⟩

end Xv6.Mkfs
