import Xv6.Fs.MkfsImage

/-!
# Xv6.Fs.MkfsMain

The image that `mkfs` leaves. `main` adds a file for each of its arguments without a look
at how many inodes there are, and in the end it rounds the size of the root directory up
to the next multiple of a block, even where it is one already. The kernel can trust the image
(`Trusted`) exactly when neither matters.
-/

namespace Xv6.Mkfs

open Function (update update_self update_of_ne update_idem)
open Superblock

section
variable [Superblock] {m : Image} {f g : Nat → List Byte}

/-! ### The files -/

/-- The bytes of a file. -/
def HostFile.data (h : HostFile) : List Byte := (h.reads.getD []).flatten

/-- The file can be opened, and has a name for the root directory. -/
def HostFile.Usable (h : HostFile) : Prop := 47#8 ∉ h.name ∧ h.reads ≠ none

instance (h : HostFile) : Decidable h.Usable := inferInstanceAs (Decidable (_ ∧ _))

/-- The contents after a file has been added, as inode `n`. -/
def addOne (n : Nat) (h : HostFile) (f : Nat → List Byte) : Nat → List Byte :=
  let f := update f rootIno (f rootIno ++ entry n h.base)
  update f n (f n ++ h.data)

/-- The contents after some files have been added, from inode `n` on. -/
def addAll : Nat → List HostFile → (Nat → List Byte) → Nat → List Byte
  | _, [], f => f
  | n, h :: hs, f => addAll (n + 1) hs (addOne n h f)

/-- The root directory without any files. -/
def rootOnly : Nat → List Byte :=
  update (fun _ => []) rootIno (entry rootIno dot ++ entry rootIno dotdot)

section
omit [Superblock]

theorem length_update (f : Nat → List Byte) (i j : Nat) (p : List Byte) :
    (f j).length ≤ (update f i (f i ++ p) j).length := by
  by_cases hj : j = i
  · rw [hj, update_self, List.length_append]
    omega
  · rw [update_of_ne hj]

theorem length_addAll (j : Nat) : ∀ (hs : List HostFile) (n : Nat) (f : Nat → List Byte),
    (f j).length ≤ (addAll n hs f j).length := by
  intro hs
  induction hs with
  | nil => exact fun n f => Nat.le_refl _
  | cons h hs ih =>
    intro n f
    refine Nat.le_trans ?_ (ih (n + 1) (addOne n h f))
    exact Nat.le_trans (length_update f rootIno j _) (length_update _ n j _)

theorem length_entry (n : Nat) (name : List Byte) : (entry n name).length = direntSize := by
  rw [entry, Dirent.length_toBytes]
  exact length_strncpy _ _

theorem length_root : ∀ (hs : List HostFile) (n : Nat) (f : Nat → List Byte), rootIno < n →
    (addAll n hs f rootIno).length = (f rootIno).length + hs.length * direntSize := by
  intro hs
  induction hs with
  | nil =>
    intro n f _
    rw [addAll, List.length_nil, Nat.zero_mul, Nat.add_zero]
  | cons h hs ih =>
    intro n f hn
    rw [addAll, ih (n + 1) _ (Nat.lt_succ_of_lt hn), addOne,
      update_of_ne (Nat.ne_of_lt hn), update_self, List.length_append,
      length_entry, List.length_cons, Nat.succ_mul]
    omega

end

/-! ### What `main` does -/

theorem copyLoop_spec (hone : size ≤ bpb) {inum : Nat} : ∀ {cs : List (List Byte)} {m : Image}
    {f : Nat → List Byte}, Holding m f → 0 < inum → inum < m.freeinode →
    Ends (copyLoop inum cs) m
      (fun _ m' => Holding m' (update f inum (f inum ++ cs.flatten)) ∧
        m'.freeinode = m.freeinode)
      (fun _ => ¬ Fits (update f inum (f inum ++ cs.flatten))) := by
  intro cs
  induction cs with
  | nil =>
    intro m f h _ _
    refine .ret ⟨?_, rfl⟩
    rw [List.flatten_nil, List.append_nil, Function.update_eq_self]
    exact h
  | cons c cs ih =>
    intro m f h hpos hlt
    have hall : update f inum (f inum ++ (c :: cs).flatten) =
        update (update f inum (f inum ++ c)) inum
          (update f inum (f inum ++ c) inum ++ cs.flatten) := by
      rw [update_idem, update_self, List.flatten_cons, List.append_assoc]
    rw [hall, copyLoop, ends_bind]
    refine (iappend_holding h hone hpos hlt).mono (fun _ m' hm' => ?_) fun _ he hfits => ?_
    · obtain ⟨hm', hino⟩ := hm'
      rw [← hino]
      exact ih hm' hpos (hino ▸ hlt)
    · exact he (hfits.mono fun i => length_update _ inum i _)

theorem addFile_spec (hone : size ≤ bpb) {h : HostFile} (hm : Holding m f)
    (hroot : rootIno < m.freeinode) (hlt : m.freeinode < ninodes) :
    Ends (addFile rootIno h) m
      (fun _ m' => Holding m' (addOne m.freeinode h f) ∧ m'.freeinode = m.freeinode + 1)
      (fun _ => ¬ (h.Usable ∧ Fits (addOne m.freeinode h f))) := by
  rw [addFile, ends_ite]
  refine ⟨fun hslash => (ends_throw ..).mpr fun hgood => hgood.1.1 hslash, fun hslash => ?_⟩
  cases hreads : h.reads with
  | none => exact (ends_throw ..).mpr fun hgood => hgood.1.2 hreads
  | some cs =>
    have hdata : h.data = cs.flatten := by rw [HostFile.data, hreads, Option.getD_some]
    show Ends (_ >>= _) _ _ _
    rw [ends_bind]
    refine (ialloc_holding hm hone hlt (by decide) (by decide)).of_safe fun i m1 h1 => ?_
    obtain ⟨rfl, hm1, hino1⟩ := h1
    rw [ends_bind]
    refine (iappend_holding hm1 hone (by decide) (by omega)).mono (fun _ m2 h2 => ?_)
      fun _ he hgood => ?_
    · obtain ⟨hm2, hino2⟩ := h2
      have hpos := hm.built.pos
      refine (copyLoop_spec hone hm2 hpos (by omega)).mono (fun _ m3 h3 => ?_) fun _ he hgood => ?_
      · rw [← hdata] at h3
        exact ⟨h3.1, by omega⟩
      · rw [← hdata] at he
        exact he hgood.2
    · exact he (hgood.2.mono fun i => length_update _ m.freeinode i _)

theorem addFiles_spec (hone : size ≤ bpb) : ∀ {hs : List HostFile} {m : Image}
    {f : Nat → List Byte}, Holding m f → rootIno < m.freeinode →
    m.freeinode + hs.length ≤ ninodes → Ends (addFiles rootIno hs) m
      (fun _ m' => Holding m' (addAll m.freeinode hs f) ∧ m'.freeinode = m.freeinode + hs.length)
      (fun _ => ¬ ((∀ h ∈ hs, h.Usable) ∧ Fits (addAll m.freeinode hs f))) := by
  intro hs
  induction hs with
  | nil => exact fun hm _ _ => .ret ⟨hm, rfl⟩
  | cons h hs ih =>
    intro m f hm hroot hle
    rw [List.length_cons] at hle
    rw [addFiles, ends_bind]
    refine (addFile_spec hone hm hroot (by omega)).mono (fun _ m' h' => ?_) fun _ he hgood => ?_
    · obtain ⟨hm', hino⟩ := h'
      refine (ih hm' (by omega) (by omega)).mono (fun _ m'' h'' => ?_) fun _ he hgood => ?_
      · rw [hino] at h''
        rw [List.length_cons]
        exact ⟨h''.1, by omega⟩
      · rw [hino] at he
        exact he ⟨fun h' hmem => hgood.1 h' (List.mem_cons_of_mem _ hmem), hgood.2⟩
    · refine he ⟨hgood.1 h List.mem_cons_self, hgood.2.mono fun i => ?_⟩
      exact length_addAll i hs _ _

/-- The size that `main` gives to the root directory in the end. -/
def fixedSize (n : Word) : Word := (n / BitVec.ofNat 32 bsize + 1#32) * BitVec.ofNat 32 bsize

/-- The image `m` with the size of the root directory fixed, and with the free map. -/
structure Finished (m m' : Image) : Prop where
  freeinode : m'.freeinode = m.freeinode
  disk : m'.disk = putDinode m.sealed rootIno
    { dinode m.sealed rootIno with size := fixedSize (dinode m.sealed rootIno).size }

theorem finish_spec (hone : size < bpb) (h : Built m) (hroot : rootIno < m.freeinode) :
    Ends (do
      let din ← rinode rootIno
      winode rootIno { din with size := fixedSize din.size }
      let m ← get
      balloc m.freeblock) m (fun _ m' => Finished m m') := by
  have hi := (h.files (by decide) hroot).1
  have hin := h.iblock_lt hi
  have hhigh := h.fresh.high
  rw [ends_bind, ends_rinode hi hin.1, ends_bind, ends_winode hin.1, ends_bind, ends_get, balloc]
  generalize hm1 : m.putInode rootIno _ = m1
  have hseal : m1.sealed = putDinode m.sealed rootIno
      { dinode m.sealed rootIno with size := fixedSize (dinode m.sealed rootIno).size } := by
    rw [← hm1]
    exact Image.sealed_putInode hi
  have hblock : m1.freeblock = m.freeblock := by rw [← hm1]; rfl
  have hsect : bmapstart < m1.nsect := by
    have hlt := bmapstart_lt
    have hlow := h.fresh.low
    have hsect : m1.nsect = m.nsect := by rw [← hm1]; rfl
    rw [hsect, h.fresh.nsect]
    omega
  rw [if_pos (by omega), ends_wsect hsect]
  refine ⟨by rw [← hm1]; rfl, ?_⟩
  rw [← hseal]
  rfl

theorem main_spec (hone : size < bpb) {files : List HostFile}
    (hfiles : files.length + 1 < ninodes) : Ends (main files) start
      (fun _ m' => ∃ m, Holding m (addAll 2 files rootOnly) ∧ m.freeinode = files.length + 2 ∧
        Finished m m')
      (fun _ => ¬ ((∀ h ∈ files, h.Usable) ∧ Fits (addAll 2 files rootOnly))) := by
  have hle : size ≤ bpb := Nat.le_of_lt hone
  have hinode : blank.freeinode = rootIno := rfl
  have hone' : rootIno = 1 := rfl
  have hblank : Holding blank fun _ => [] := by
    refine ⟨built_blank hle (by omega), fun {i} hi hi' => ?_, fun _ => rfl⟩
    omega
  -- the root directory with its first entry, and with both
  obtain ⟨f1, hf1⟩ : ∃ f1 : Nat → List Byte,
      f1 = update (fun _ => []) rootIno ([] ++ entry rootIno dot) := ⟨_, rfl⟩
  have hf2 : update f1 rootIno (f1 rootIno ++ entry rootIno dotdot) = rootOnly := by
    rw [hf1, update_idem, update_self]
    rfl
  rw [main, ends_bind]
  refine format_spec.of_safe fun _ m0 h0 => ?_
  rw [h0, ends_bind]
  refine (ialloc_holding hblank hle (by omega) (by decide) (by decide)).of_safe fun i m1 h1 => ?_
  obtain ⟨rfl, hm1, hino1⟩ := h1
  rw [hinode] at hino1 ⊢
  rw [if_neg (not_not.mpr rfl), ends_bind]
  refine (iappend_holding hm1 hle (by decide) (by omega)).mono (fun _ m2 h2 => ?_)
    fun _ he hgood => ?_
  · obtain ⟨hm2, hino2⟩ := h2
    rw [← hf1] at hm2
    rw [ends_bind]
    refine (iappend_holding hm2 hle (by decide) (by omega)).mono (fun _ m3 h3 => ?_)
      fun _ he hgood => ?_
    · obtain ⟨hm3, hino3⟩ := h3
      rw [hf2] at hm3
      have hino : m3.freeinode = 2 := by omega
      rw [ends_bind]
      refine (addFiles_spec hle hm3 (by omega) (by omega)).mono (fun _ m4 h4 => ?_)
        fun _ he hgood => ?_
      · obtain ⟨hm4, hino4⟩ := h4
        rw [hino] at hm4
        exact (finish_spec hone hm4.built (by omega)).of_safe fun _ m' h' => ⟨m4, hm4, by omega, h'⟩
      · rw [hino] at he
        exact he hgood
    · rw [hf2] at he
      exact he (hgood.2.mono fun i => length_addAll i files 2 rootOnly)
  · rw [← hf1] at he
    refine he (hgood.2.mono fun i => Nat.le_trans ?_ (length_addAll i files 2 rootOnly))
    rw [← hf2]
    exact length_update _ _ _ _

/-! ### How many inodes are used -/

/-- A part of `main` that allocates `n` inodes. -/
def Allocates {α : Type} (k : Mk α) (n : Nat) : Prop :=
  ∀ m, Ends k m (fun _ m' => m'.freeinode = m.freeinode + n) (fun _ => True)

namespace Allocates

section
omit [Superblock]

theorem bind {α β : Type} {k : Mk α} {l : α → Mk β} {n p : Nat} (hk : Allocates k n)
    (hl : ∀ a, Allocates (l a) p) : Allocates (k >>= l) (n + p) := by
  intro m
  refine (hk m).bind fun a m' hm' => (hl a m').imp fun _ m'' hm'' => ?_
  rw [hm'', hm', Nat.add_assoc]

theorem after {α β : Type} {k : Mk α} {l : α → Mk β} {n : Nat} (hk : Allocates k 0)
    (hl : ∀ a, Allocates (l a) n) : Allocates (k >>= l) n :=
  Nat.zero_add n ▸ hk.bind hl

theorem pure {α : Type} (a : α) : Allocates (Pure.pure a) 0 := fun _ => .ret rfl

theorem throw {α : Type} (e : Stop) (n : Nat) : Allocates (MonadExcept.throw e : Mk α) n :=
  fun _ => (ends_throw ..).mpr True.intro

theorem get : Allocates MonadState.get 0 := fun _ => (ends_get ..).mpr rfl

theorem rsect (b : Nat) : Allocates (rsect b) 0 := by
  refine get.after fun m => ?_
  split
  · exact pure _
  · exact throw _ _

theorem wsect (b : Nat) (buf : Block) : Allocates (wsect b buf) 0 :=
  fun _ => (ends_modify ..).mpr rfl

end

theorem winode (i : Nat) (ip : Dinode) : Allocates (winode i ip) 0 :=
  (rsect _).after fun _ => wsect _ _

theorem rinode (i : Nat) : Allocates (rinode i) 0 := (rsect _).after fun _ => pure _

section
omit [Superblock]

theorem takeBlock : Allocates takeBlock 0 := by
  intro m
  rw [ends_takeBlock]
  rfl

theorem fillAddr (din : Dinode) (k : Fin (ndirect + 1)) : Allocates (fillAddr din k) 0 := by
  unfold Mkfs.fillAddr
  split
  · exact takeBlock.after fun _ => pure _
  · exact pure _

theorem mapBlock (din : Dinode) (fbn : Nat) : Allocates (mapBlock din fbn) 0 := by
  unfold Mkfs.mapBlock
  split
  · exact (fillAddr _ _).after fun _ => pure _
  · refine (fillAddr _ _).after fun _ => (rsect _).after fun _ => ?_
    split
    · exact takeBlock.after fun _ => (wsect _ _).after fun _ => pure _
    · exact pure _

theorem iappendLoop (din : Dinode) (off : Nat) (p : List Byte) :
    Allocates (iappendLoop din off p) 0 := by
  induction din, off, p using Mkfs.iappendLoop.induct with
  | case1 din off =>
    rw [Mkfs.iappendLoop, if_pos rfl]
    exact pure _
  | case2 din off p hne hbig =>
    rw [Mkfs.iappendLoop, if_neg hne, if_pos hbig]
    exact throw _ _
  | case3 din off p hne hbig ih =>
    rw [Mkfs.iappendLoop, if_neg hne, if_neg hbig]
    exact (mapBlock _ _).after fun r => (rsect _).after fun _ => (wsect _ _).after fun _ => ih r

end

theorem iappend (i : Nat) (p : List Byte) : Allocates (iappend i p) 0 :=
  (rinode _).after fun _ => (iappendLoop _ _ _).after fun _ => winode _ _

theorem copyLoop (i : Nat) (cs : List (List Byte)) : Allocates (copyLoop i cs) 0 := by
  induction cs with
  | nil => exact pure _
  | cons c cs ih => exact (iappend _ _).after fun _ => ih

theorem ialloc (type : BitVec 16) : Allocates (ialloc type) 1 := by
  intro m
  rw [Mkfs.ialloc, ends_bind, ends_get, ends_bind, ends_set]
  exact ((winode _ _).after fun _ => pure _) _

theorem addFile (root : Nat) (h : HostFile) : Allocates (addFile root h) 1 := by
  unfold Mkfs.addFile
  split
  · exact throw _ _
  · split
    · exact throw _ _
    · exact (ialloc _).bind fun _ => (iappend _ _).after fun _ => copyLoop _ _

theorem addFiles (root : Nat) (hs : List HostFile) : Allocates (addFiles root hs) hs.length := by
  induction hs with
  | nil => exact pure _
  | cons h hs ih =>
    rw [List.length_cons, Nat.add_comm]
    exact (addFile _ _).bind fun _ => ih

omit [Superblock] in
theorem zeroLoop : ∀ n i : Nat, Allocates (zeroLoop i n) 0 := by
  intro n
  induction n with
  | zero => exact fun _ => pure _
  | succ n ih => exact fun i => (wsect _ _).after fun _ => ih (i + 1)

theorem balloc (used : Nat) : Allocates (balloc used) 0 := by
  unfold Mkfs.balloc
  split
  · exact wsect _ _
  · exact throw _ _

theorem main (files : List HostFile) : Allocates (main files) (files.length + 1) := by
  have hformat : Allocates format 0 := (zeroLoop _ _).after fun _ => wsect _ _
  rw [Nat.add_comm]
  refine hformat.after fun _ => (ialloc _).bind fun root => ?_
  split
  · exact throw _ _
  · refine (iappend _ _).after fun _ => (iappend _ _).after fun _ => ?_
    refine (addFiles root files).bind (p := 0) fun _ => ?_
    exact (rinode _).after fun _ => (winode _ _).after fun _ => get.after fun m => balloc _

end Allocates

/-! ### An image that can be trusted -/

/-- What the kernel relies on. -/
structure Trusted (m : Image) : Prop where
  /-- The inodes used are inodes of the file system, in its inode blocks. -/
  inodes : ∀ {i}, 0 < i → i < m.freeinode →
    i < ninodes ∧ inodestart ≤ iblock i ∧ iblock i < bmapstart
  /-- Every address is one of a data block that is marked. -/
  blocks : ∀ {i k}, i < ninodes → k < nslot → (dinode m.disk i).ref m.disk k ≠ 0#32 →
    InUse m.disk ((dinode m.disk i).ref m.disk k).toNat
  /-- No block has two places. -/
  once : ∀ {i j k l}, i < ninodes → j < ninodes → k < nslot → l < nslot →
    (dinode m.disk i).ref m.disk k ≠ 0#32 →
    (dinode m.disk i).ref m.disk k = (dinode m.disk j).ref m.disk l → i = j ∧ k = l
  /-- There is a block for every byte below the size of a file. -/
  filled : ∀ {i bn}, 0 < i → i < m.freeinode → bn * bsize < (dinode m.disk i).size.toNat →
    (dinode m.disk i).ref m.disk (slotOf bn) ≠ 0#32

omit [Superblock] in
theorem toNat_fixedSize {n : Word} (hn : n.toNat ≤ maxfile * bsize) :
    (fixedSize n).toNat = (n.toNat / bsize + 1) * bsize := by
  have hb : (BitVec.ofNat 32 bsize).toNat = bsize := rfl
  have hdiv : n.toNat / bsize ≤ maxfile := Nat.div_le_of_le_mul (by rw [Nat.mul_comm]; exact hn)
  unfold maxfile ndirect nindirect at hdiv
  have hsum : (n / BitVec.ofNat 32 bsize + 1#32).toNat = n.toNat / bsize + 1 := by
    rw [BitVec.toNat_add, BitVec.toNat_udiv, hb]
    have h1 : (1#32).toNat = 1 := rfl
    rw [h1, Nat.mod_eq_of_lt (by omega)]
  rw [fixedSize, BitVec.toNat_mul, hsum, hb, Nat.mod_eq_of_lt]
  unfold bsize at hdiv ⊢
  omega

namespace Finished

variable {m' : Image}

theorem dinode_eq (h : Finished m m') (i : Nat) : dinode m'.disk i =
    if i = rootIno then
      { dinode m.sealed rootIno with size := fixedSize (dinode m.sealed rootIno).size }
    else dinode m.sealed i := by
  rw [h.disk, dinode_putDinode]

section
variable (h : Finished m m') (hb : Built m)
include h hb

theorem slots_eq (hroot : rootIno < ninodes) :
    slots m'.disk (dinode m'.disk) = slots m.sealed (dinode m.sealed) := by
  have hsame : slots m.sealed (update (dinode m.sealed) rootIno
      { dinode m.sealed rootIno with size := fixedSize (dinode m.sealed rootIno).size }) =
      slots m.sealed (dinode m.sealed) := slots_fields rfl rfl
  rw [h.disk, slots_putDinode hroot (hsame ▸ hb.own.owned), hsame]

theorem slot_iff (hroot : rootIno < m.freeinode) {i k : Nat} (hi : i < ninodes) (hk : k < nslot)
    (hz : (dinode m'.disk i).ref m'.disk k ≠ 0#32) :
    slots m.sealed (dinode m.sealed) (i, k) = some ((dinode m'.disk i).ref m'.disk k).toNat := by
  have hr := (hb.files (by decide) hroot).1
  rw [← h.slots_eq hb hr]
  refine slots_eq_some.mpr ⟨hi, fun ht => hz ?_, hk, hz, rfl⟩
  -- a free inode has no addresses
  have hfree : ¬ (0 < i ∧ i < m.freeinode) := by
    intro hused
    have htype := (hb.files hused.1 hused.2).2.1
    rw [h.dinode_eq] at ht
    split at ht
    · next he => exact htype (he ▸ ht)
    · exact htype ht
  have hne : i ≠ rootIno := by
    rintro rfl
    exact hfree ⟨by decide, hroot⟩
  rw [h.dinode_eq, if_neg hne, hb.unused hi (by omega), Dinode.ref]
  split
  · rfl
  · exact if_pos rfl

theorem ref_iff (hroot : rootIno < m.freeinode) {i k : Nat} (hi : 0 < i) (hi' : i < m.freeinode)
    (hk : k < nslot) :
    (dinode m'.disk i).ref m'.disk k ≠ 0#32 ↔
      slots m.sealed (dinode m.sealed) (i, k) ≠ none := by
  have hlt := (hb.files hi hi').1
  constructor
  · intro hz
    rw [h.slot_iff hb hroot hlt hk hz]
    nofun
  · intro hne
    obtain ⟨b, hs⟩ := Option.ne_none_iff_exists'.mp hne
    rw [← h.slots_eq hb (hb.files (by decide) hroot).1] at hs
    exact (slots_eq_some.mp hs).2.2.2.1

/-- The image is good if the root directory does not end with a block. -/
theorem trusted_iff (hone : size ≤ bpb) (hroot : rootIno < m.freeinode)
    (hsmall : (dinode m.sealed rootIno).size.toNat < maxfile * bsize) :
    Trusted m' ↔ (dinode m.sealed rootIno).size.toNat % bsize ≠ 0 := by
  obtain ⟨hr, ht, -⟩ := hb.files (by decide) hroot
  have hfixed := toNat_fixedSize (Nat.le_of_lt hsmall)
  have hself : (dinode m'.disk rootIno).size = fixedSize (dinode m.sealed rootIno).size := by
    rw [h.dinode_eq, if_pos rfl]
  have hdm : (dinode m.sealed rootIno).size.toNat / bsize * bsize +
      (dinode m.sealed rootIno).size.toNat % bsize = (dinode m.sealed rootIno).size.toNat :=
    Nat.div_add_mod' _ _
  constructor
  · -- otherwise the block behind the last entry is missing
    intro htrust hfull
    rw [hfull, Nat.add_zero] at hdm
    have hbn := htrust.filled (i := rootIno) (by decide) (h.freeinode ▸ hroot)
      (show (dinode m.sealed rootIno).size.toNat / bsize * bsize < _ by
        rw [hself, hfixed]
        exact Nat.mul_lt_mul_of_pos_right (Nat.lt_succ_self _) (by decide))
    have hnone := hb.own.tight hr ht
      (show _ ≤ (dinode m.sealed rootIno).size.toNat / bsize * bsize by rw [hdm])
    have hlt : slotOf ((dinode m.sealed rootIno).size.toNat / bsize) < nslot :=
      slotOf_lt (Nat.div_lt_of_lt_mul (by rw [Nat.mul_comm]; exact hsmall))
    exact (h.ref_iff hb hroot (by decide) hroot hlt).mp hbn hnone
  · intro hpart
    refine ⟨fun {i} hi hi' => ?_, fun {i k} hi hk hz => ?_, fun {i j k l} hi hj hk hl hz he => ?_,
      fun {i bn} hi hi' hbn => ?_⟩
    · have hlt := (hb.files hi (h.freeinode ▸ hi')).1
      exact ⟨hlt, Nat.le_add_left _ _, iblock_lt hlt⟩
    · have huse := hb.own.owned.used (h.slot_iff hb hroot hi hk hz)
      refine ⟨huse.1, ?_⟩
      have hbit := huse.2
      rw [← bit_putDinode hr, ← h.disk] at hbit
      exact hbit
    · have hs := h.slot_iff hb hroot hi hk hz
      have hs' := h.slot_iff hb hroot hj hl (he ▸ hz)
      rw [← he] at hs'
      exact Prod.mk.inj (hb.own.owned.inj hs hs')
    · rw [h.freeinode] at hi'
      obtain ⟨hlt, hti, -⟩ := hb.files hi hi'
      have hbn' : bn * bsize < (dinode m.sealed i).size.toNat := by
        rw [h.dinode_eq] at hbn
        split at hbn
        · next he =>
            rw [he]
            rw [hfixed] at hbn
            have hle : bn ≤ (dinode m.sealed rootIno).size.toNat / bsize :=
              Nat.le_of_lt_succ (Nat.lt_of_mul_lt_mul_right hbn)
            have hmul := Nat.mul_le_mul_right bsize hle
            omega
        · exact hbn
      have hmax : bn < maxfile := by
        have hle := (hb.inv hone).size_le hlt hti
        exact Nat.lt_of_mul_lt_mul_right (Nat.lt_of_lt_of_le hbn' hle)
      exact (h.ref_iff hb hroot hi hi' (slotOf_lt hmax)).mpr (hb.own.filled hlt hti hbn')

end

end Finished

end

/-- The image that `mkfs` makes of some files can be trusted exactly when there are inodes for
them, and the entries of the root directory do not fill its last block. -/
theorem image_trusted_iff (files : List HostFile) (m : Image) :
    let _ : Superblock := Superblock.mkfs
    (main files).run start = .ok ((), m) →
      (Trusted m ↔ files.length + 1 < ninodes ∧ (files.length + 2) * direntSize % bsize ≠ 0) := by
  intro _ hrun
  have hcount : m.freeinode = files.length + 2 := by
    have hmain := (Allocates.main files start).of_ok hrun
    have hstart : start.freeinode = 1 := rfl
    omega
  by_cases hfiles : files.length + 1 < ninodes
  · obtain ⟨m0, hm0, hino, hfin⟩ := (main_spec (by decide) hfiles).of_ok hrun
    have hone : rootIno = 1 := rfl
    have hroot : rootIno < m0.freeinode := by omega
    have hsize : (dinode m0.sealed rootIno).size.toNat = (files.length + 2) * direntSize := by
      rw [← length_content, hm0.content (by decide) hroot, length_root _ _ _ (by decide), rootOnly,
        update_self, List.length_append, length_entry, length_entry, Nat.add_mul]
      omega
    have hsmall : (files.length + 2) * direntSize < maxfile * bsize := by
      have hninodes : ninodes = 200 := rfl
      unfold direntSize maxfile ndirect nindirect bsize
      omega
    have hiff := hfin.trusted_iff hm0.built (by decide) hroot (by rw [hsize]; exact hsmall)
    rw [hsize] at hiff
    exact hiff.trans ⟨fun h => ⟨hfiles, h⟩, fun h => h.2⟩
  · refine ⟨fun h => absurd ?_ hfiles, fun h => absurd h.1 hfiles⟩
    exact (h.inodes (Nat.succ_pos files.length) (by omega)).1

/-- A program that is read in two pieces, and an empty file. -/
def twoFiles : List HostFile :=
  [⟨[95#8, 115#8, 104#8], some [[127#8, 69#8], [76#8]], by simp [bsize]⟩,
    ⟨[97#8], some [], by simp⟩]

theorem image_trusted_two_files : let _ : Superblock := Superblock.mkfs
    ∃ m, (main twoFiles).run start = .ok ((), m) ∧ Trusted m := by
  intro _
  have hgood : (∀ h ∈ twoFiles, h.Usable) ∧ Fits (addAll 2 twoFiles rootOnly) :=
    ⟨by decide, by decide +kernel, by decide +kernel⟩
  obtain ⟨_, m, hrun, -⟩ := ((main_spec (by decide) (show twoFiles.length + 1 < ninodes by
    decide)).mono (fun _ _ h => h) fun _ he => he hgood).exists_ok
  exact ⟨m, hrun, (image_trusted_iff twoFiles m hrun).mpr ⟨by decide, by decide⟩⟩

/-- Thirty empty files. -/
def thirtyFiles : List HostFile :=
  (List.range 30).map fun k => ⟨[BitVec.ofNat 8 (97 + k)], some [], by simp⟩

/-- Their entries fill a block, and the root directory gets a second one that is not there. -/
theorem thirty_files_not_trusted : let _ : Superblock := Superblock.mkfs
    ∃ m, (main thirtyFiles).run start = .ok ((), m) ∧ ¬ Trusted m ∧
      (dinode m.disk rootIno).size = 1024#32 ∧
      (dinode m.disk rootIno).ref m.disk (slotOf 1) = 0#32 := by
  intro _
  have hlen : thirtyFiles.length = 30 := by rw [thirtyFiles, List.length_map, List.length_range]
  have hgood : (∀ h ∈ thirtyFiles, h.Usable) ∧ Fits (addAll 2 thirtyFiles rootOnly) :=
    ⟨by decide +kernel, by decide +kernel, by decide +kernel⟩
  have hfiles : thirtyFiles.length + 1 < ninodes := by rw [hlen]; decide
  obtain ⟨_, m, hrun, m0, hm0, hino, hfin⟩ :=
    ((main_spec (by decide) hfiles).mono (fun _ _ h => h) fun _ he => he hgood).exists_ok
  have hroot : rootIno < m0.freeinode := by rw [hino, hlen]; decide
  have hsize : (dinode m0.sealed rootIno).size = 512#32 := by
    apply BitVec.eq_of_toNat_eq
    rw [← length_content, hm0.content (by decide) hroot, length_root _ _ _ (by decide), hlen]
    rfl
  obtain ⟨hr, ht, -⟩ := hm0.built.files (by decide) hroot
  have hself : (dinode m.disk rootIno).size = 1024#32 := by
    rw [hfin.dinode_eq, if_pos rfl, hsize]
    show fixedSize 512#32 = 1024#32
    decide
  have hnone := hm0.built.own.tight hr ht (show _ ≤ 1 * bsize by rw [hsize]; decide)
  have hzero : (dinode m.disk rootIno).ref m.disk (slotOf 1) = 0#32 := by
    by_contra hz
    exact (hfin.ref_iff hm0.built hroot (by decide) hroot (by decide)).mp hz hnone
  refine ⟨m, hrun, fun htrust => ?_, hself, hzero⟩
  exact htrust.filled (i := rootIno) (by decide) (hfin.freeinode ▸ hroot)
    (show 1 * bsize < _ by rw [hself]; decide) hzero

end Xv6.Mkfs
