import Xv6.Fs.File
import Xv6.Lib.Table

/-!
# Xv6.Fs.Dir

Directories: files of entries with an inode number and a name. `dirlookup`, `dirlink`, the
clearing of an entry in `sys_unlink` and `isdirempty` read and write one entry at a time
with `readi` and `writei`.

A name is the bytes up to a zero, and at most `DIRSIZ` of them: `strncmp` finds two names
equal exactly when these agree (`namecmp_eq_zero`), and `strncpy` keeps them
(`truncName_strncpy`). So the entries are a table with names for keys, and the functions
are the table's operations.
-/

namespace Xv6

open Function (update)
open Superblock

/-! ### Strings -/

/-- `strncmp`. A list stands for the memory at a pointer; behind its end is the terminator. -/
def strncmp : List Byte → List Byte → Nat → Int
  | _, _, 0 => 0
  | p, q, n + 1 =>
    if p.headD 0#8 ≠ 0#8 ∧ p.headD 0#8 = q.headD 0#8 then strncmp p.tail q.tail n
    else (p.headD 0#8).toNat - (q.headD 0#8).toNat

/-- `strncpy`: the `n` bytes written. -/
def strncpy : List Byte → Nat → List Byte
  | _, 0 => []
  | t, n + 1 =>
    if t.headD 0#8 = 0#8 then 0#8 :: List.replicate n 0#8 else t.headD 0#8 :: strncpy t.tail n

/-- `DIRSIZ`. -/
def dirsiz : Nat := 14

/-- `namecmp`. -/
def namecmp (s t : List Byte) : Int := strncmp s t dirsiz

/-- The string at a pointer, cut off behind `n` bytes. -/
def cstring (p : List Byte) (n : Nat) : List Byte := (p.take n).takeWhile (· ≠ 0#8)

/-- The name that a directory knows a string by. -/
def truncName (p : List Byte) : List Byte := cstring p dirsiz

theorem cstring_succ (p : List Byte) (n : Nat) : cstring p (n + 1) =
    if p.headD 0#8 = 0#8 then [] else p.headD 0#8 :: cstring p.tail n := by
  cases p with
  | nil => rfl
  | cons c p =>
    show ((c :: p.take n).takeWhile _) = if c = 0#8 then _ else c :: (p.take n).takeWhile _
    by_cases hc : c = 0#8 <;> simp [hc]

theorem strncmp_eq_zero (n : Nat) : ∀ p q : List Byte,
    strncmp p q n = 0 ↔ cstring p n = cstring q n := by
  induction n with
  | zero => exact fun p q => by simp [strncmp, cstring]
  | succ n ih =>
    intro p q
    rw [strncmp, cstring_succ, cstring_succ]
    by_cases hp : p.headD 0#8 = 0#8
    · rw [if_neg fun h => h.1 hp, if_pos hp, hp]
      by_cases hq : q.headD 0#8 = 0#8
      · rw [if_pos hq, hq]
        simp
      · have hne : (q.headD 0#8).toNat ≠ (0#8).toNat := fun h => hq (BitVec.eq_of_toNat_eq h)
        rw [if_neg hq]
        constructor
        · intro h
          omega
        · nofun
    · by_cases hpq : p.headD 0#8 = q.headD 0#8
      · rw [if_pos ⟨hp, hpq⟩, ih, if_neg hp, if_neg (hpq ▸ hp), hpq]
        simp
      · rw [if_neg fun h => hpq h.2, if_neg hp]
        have hne : (p.headD 0#8).toNat ≠ (q.headD 0#8).toNat :=
          fun h => hpq (BitVec.eq_of_toNat_eq h)
        constructor
        · intro h
          omega
        · split
          · nofun
          · intro h
            exact absurd (List.cons.inj h).1 hpq

theorem namecmp_eq_zero (p q : List Byte) : namecmp p q = 0 ↔ truncName p = truncName q :=
  strncmp_eq_zero dirsiz p q

theorem length_strncpy (n : Nat) : ∀ t : List Byte, (strncpy t n).length = n := by
  induction n with
  | zero => exact fun _ => rfl
  | succ n ih =>
    intro t
    rw [strncpy]
    split <;> simp [ih]

theorem cstring_strncpy (n : Nat) : ∀ t : List Byte, cstring (strncpy t n) n = cstring t n := by
  induction n with
  | zero => exact fun _ => rfl
  | succ n ih =>
    intro t
    rw [strncpy, cstring_succ t]
    by_cases ht : t.headD 0#8 = 0#8
    · rw [if_pos ht, if_pos ht]
      rfl
    · rw [if_neg ht, if_neg ht, cstring_succ]
      show (if t.headD 0#8 = 0#8 then [] else t.headD 0#8 :: cstring (strncpy t.tail n) n) = _
      rw [if_neg ht, ih]

theorem truncName_strncpy (t : List Byte) : truncName (strncpy t dirsiz) = truncName t :=
  cstring_strncpy dirsiz t

/-! ### Entries -/

/-- `struct dirent`. -/
structure Dirent where
  inum : BitVec 16
  name : List Byte

/-- `sizeof(struct dirent)`. -/
def direntSize : Nat := 16

def Dirent.ofBytes (bytes : List Byte) : Dirent :=
  ⟨(bytes.getD 1 0 ++ bytes.getD 0 0 : BitVec (8 + 8)), bytes.drop 2⟩

def Dirent.toBytes (de : Dirent) : List Byte :=
  de.inum.extractLsb' 0 8 :: de.inum.extractLsb' 8 8 :: de.name

theorem Dirent.ofBytes_toBytes (de : Dirent) : ofBytes de.toBytes = de := by
  have hinum : (de.inum.extractLsb' 8 8 ++ de.inum.extractLsb' 0 8 : BitVec (8 + 8)) =
      de.inum := by
    rw [BitVec.extractLsb'_append_extractLsb'_eq_extractLsb' (by rfl)]
    simp
  show Dirent.mk (de.inum.extractLsb' 8 8 ++ de.inum.extractLsb' 0 8 : BitVec (8 + 8)) de.name = _
  rw [hinum]

/-! ### The program -/

section
variable [Superblock] [Devsw]

/-- `readi(dp, (char*)&de, off, sizeof(de))`, which is to read all of an entry. -/
def readDirent (e : FsPanic) (off : Nat) : Kern Vol FsPanic Dirent := do
  match ← Vol.readi (BitVec.ofNat 32 off) (BitVec.ofNat 32 direntSize) with
  | some bytes => if bytes.length = direntSize then pure (.ofBytes bytes) else throw e
  | none => throw e

/-- `for(; off < dp->size; off += sizeof(de))`, left at the first entry with `p`: the offset
that the loop is left with, and the entry. -/
def scan (e : FsPanic) (p : Dirent → Bool) (size off : Nat) :
    Kern Vol FsPanic (Nat × Option Dirent) :=
  if off < size then do
    let de ← readDirent e off
    if p de then pure (off, some de) else scan e p size (off + direntSize)
  else pure (off, none)
termination_by size - off
decreasing_by
  unfold direntSize
  omega

/-- `dirlookup`: the number of the inode that it gets, and the offset of the entry. -/
def dirlookup (name : List Byte) : Kern Vol FsPanic (Option (BitVec 16 × Nat)) := do
  let v ← get
  if v.ip.type ≠ tDir then throw .notDir
  else do
    let r ← scan .dirlookupRead (fun de => de.inum ≠ 0#16 ∧ namecmp name de.name = 0)
      v.ip.size.toNat 0
    pure (r.2.map fun de => (de.inum, r.1))

/-- `writei(dp, (char*)&de, off, sizeof(de))`, which is to write all of an entry. -/
def writeDirent (e : FsPanic) (off : Nat) (de : Dirent) : Kern Vol FsPanic Unit := do
  let n ← Vol.writei de.toBytes (BitVec.ofNat 32 off)
  if n = direntSize then pure () else throw e

/-- `dirlink`. -/
def dirlink (name : List Byte) (inum : Word) : Kern Vol FsPanic Int := do
  match ← dirlookup name with
  | some _ => pure (-1)
  | none => do
    let v ← get
    let r ← scan .dirlinkRead (fun de => de.inum = 0#16) v.ip.size.toNat 0
    writeDirent .dirlink r.1 ⟨inum.setWidth 16, strncpy name dirsiz⟩
    pure 0

/-- The entry at `off` is cleared, as `sys_unlink` does it. -/
def clearDirent (off : Nat) : Kern Vol FsPanic Unit :=
  writeDirent .unlinkWritei off ⟨0#16, List.replicate dirsiz 0⟩

/-- `isdirempty`. -/
def isdirempty : Kern Vol FsPanic Bool := do
  let v ← get
  let r ← scan .isdiremptyRead (fun de => de.inum ≠ 0#16) v.ip.size.toNat (2 * direntSize)
  pure r.2.isNone

end

/-! ### The bytes of the entries -/

/-- The bytes of one entry. -/
def chunk (c : List Byte) (k : Nat) : List Byte := (c.drop (k * direntSize)).take direntSize

/-- The entries in a directory. -/
def entries (c : List Byte) : List Dirent :=
  (List.range (c.length / direntSize)).map fun k => .ofBytes (chunk c k)

section
variable {c bytes : List Byte} {k m : Nat}

@[simp] theorem length_entries (c : List Byte) : (entries c).length = c.length / direntSize := by
  simp [entries]

theorem getElem_entries (hk : k < (entries c).length) :
    (entries c)[k] = .ofBytes (chunk c k) := by
  simp [entries]

theorem chunk_splice (hm : m * direntSize ≤ c.length) (hb : bytes.length = direntSize) :
    chunk (c.take (m * direntSize) ++ bytes ++ c.drop (m * direntSize + bytes.length)) k =
      if k = m then bytes else chunk c k := by
  have hlen : (c.take (m * direntSize)).length = m * direntSize := by simp [hm]
  unfold chunk
  rcases Nat.lt_trichotomy k m with hk | hk | hk
  · have hle : k * direntSize + direntSize ≤ m * direntSize := by
      rw [← Nat.succ_mul]
      exact Nat.mul_le_mul_right _ hk
    rw [if_neg (by omega), List.append_assoc, List.drop_append_of_le_length (by omega),
      List.take_append_of_le_length (by rw [List.length_drop]; omega), List.drop_take,
      List.take_take, Nat.min_eq_left (by omega)]
  · rw [if_pos hk, hk, List.append_assoc, List.drop_append_of_le_length (by omega),
      List.drop_of_length_le (by omega), List.nil_append, ← hb, List.take_left]
  · have hle : m * direntSize + direntSize ≤ k * direntSize := by
      rw [← Nat.succ_mul]
      exact Nat.mul_le_mul_right _ hk
    rw [if_neg (by omega), List.drop_append, List.drop_of_length_le (by simp; omega),
      List.nil_append, List.drop_drop]
    congr 2
    simp
    omega

theorem Dirent.length_toBytes {de : Dirent} (hde : de.name.length = dirsiz) :
    de.toBytes.length = direntSize := by
  simp [toBytes, hde, dirsiz, direntSize]

/-- Writing an entry changes the one in its place, or adds it behind the last. -/
theorem entries_splice {de : Dirent} (hc : direntSize ∣ c.length) (hm : m ≤ (entries c).length)
    (hde : de.name.length = dirsiz) :
    entries (c.take (m * direntSize) ++ de.toBytes ++
        c.drop (m * direntSize + de.toBytes.length)) =
      if m < (entries c).length then (entries c).set m de else entries c ++ [de] := by
  have hb := Dirent.length_toBytes hde
  rw [length_entries] at hm
  have hcm : c.length / direntSize * direntSize = c.length := Nat.div_mul_cancel hc
  have hmc : m * direntSize ≤ c.length := hcm ▸ Nat.mul_le_mul_right direntSize hm
  have hchunk : ∀ k, chunk (c.take (m * direntSize) ++ de.toBytes ++
      c.drop (m * direntSize + de.toBytes.length)) k = if k = m then de.toBytes else chunk c k :=
    fun k => chunk_splice hmc hb
  have hlen : (c.take (m * direntSize) ++ de.toBytes ++
      c.drop (m * direntSize + de.toBytes.length)).length =
      max (c.length / direntSize) (m + 1) * direntSize := by
    rw [← Nat.mul_max_mul_right, hcm, Nat.succ_mul]
    simp [hb]
    omega
  by_cases hlt : m < (entries c).length
  · rw [if_pos hlt]
    rw [length_entries] at hlt
    refine List.ext_getElem ?_ fun k h1 h2 => ?_
    · rw [length_entries, hlen, Nat.mul_div_cancel _ (by decide), List.length_set, length_entries]
      omega
    · rw [getElem_entries, hchunk, List.getElem_set]
      by_cases hk : k = m
      · rw [if_pos hk, if_pos hk.symm, Dirent.ofBytes_toBytes]
      · rw [if_neg hk, if_neg (Ne.symm hk), getElem_entries]
  · rw [if_neg hlt]
    rw [length_entries] at hlt
    refine List.ext_getElem ?_ fun k h1 h2 => ?_
    · rw [length_entries, hlen, Nat.mul_div_cancel _ (by decide), List.length_append,
        length_entries]
      simp
      omega
    · rw [getElem_entries, hchunk, List.getElem_append]
      simp at h2
      by_cases hk : k = m
      · rw [if_pos hk, dif_neg (by simp; omega), Dirent.ofBytes_toBytes]
        simp
      · rw [if_neg hk, dif_pos (by simp; omega), getElem_entries]

end

/-! ### The functions are the table's operations -/

/-- An entry of the table: an inode number of zero marks a free place. -/
def Dirent.slot (de : Dirent) : Option (List Byte × BitVec 16) :=
  if de.inum = 0#16 then none else some (truncName de.name, de.inum)

section
variable [Superblock]

/-- The table of a directory. -/
def dirTable (d : Disk) (i : Nat) : Table (List Byte) (BitVec 16) :=
  (entries (content d i)).map Dirent.slot

/-- A directory: a whole number of entries, with different names. -/
structure IsDir (d : Disk) (i : Nat) : Prop where
  inum : i < ninodes
  type : (dinode d i).type = tDir
  whole : direntSize ∣ (content d i).length
  keyed : (dirTable d i).Keyed

variable {d d' : Disk} {i m : Nat} {de : Dirent}

theorem IsDir.isFile (h : IsDir d i) : IsFile d i :=
  ⟨h.inum, by rw [h.type]; decide, by rw [h.type]; decide⟩

theorem IsDir.size (h : IsDir d i) :
    (dinode d i).size.toNat = (entries (content d i)).length * direntSize := by
  rw [length_entries, Nat.div_mul_cancel h.whole, length_content]

theorem length_dirTable (d : Disk) (i : Nat) :
    (dirTable d i).length = (entries (content d i)).length := List.length_map ..

variable [Devsw]

/-- The loops read the entries one after the other, and change nothing. -/
theorem scan_spec (h : FsInv d) (hdir : IsDir d i) (e : FsPanic) (p : Dirent → Bool) (m : Nat) :
    Ends (scan e p (dinode d i).size.toNat (m * direntSize)) (lock d i)
      (fun r v' => v' = lock d i ∧
        r = ((m + ((entries (content d i)).drop m).findIdx p) * direntSize,
          ((entries (content d i)).drop m).find? p)) := by
  have hfile := hdir.isFile
  have hmax := h.size_le hfile.1 hfile.2.1
  have hsize := hdir.size
  generalize hes : entries (content d i) = es at hsize ⊢
  -- by the number of entries that are left
  induction hn : es.length - m generalizing m with
  | zero =>
    have hdrop : es.drop m = [] := List.drop_eq_nil_of_le (by omega)
    have hle : es.length * direntSize ≤ m * direntSize := Nat.mul_le_mul_right _ (by omega)
    rw [scan, if_neg (by omega), hdrop]
    exact .ret ⟨rfl, rfl⟩
  | succ n ih =>
    have hlt : m < es.length := by omega
    have hle : (m + 1) * direntSize ≤ es.length * direntSize := Nat.mul_le_mul_right _ hlt
    have hm : (m + 1) * direntSize = m * direntSize + direntSize := Nat.succ_mul ..
    have hds : direntSize = 16 := rfl
    have hmax' : maxfile * bsize = 71680 := by decide
    rw [scan, if_pos (by omega), ends_bind, readDirent]
    refine (readi_spec h hfile.1 hfile.2.1 hfile.2.2 _ _).bind fun r v' hr => ?_
    obtain ⟨rfl, rfl⟩ := hr
    have hread : readBytes (content d i) (BitVec.ofNat 32 (m * direntSize)).toNat
        (BitVec.ofNat 32 direntSize).toNat = some (chunk (content d i) m) := by
      rw [BitVec.toNat_ofNat, BitVec.toNat_ofNat, Nat.mod_eq_of_lt (by omega),
        Nat.mod_eq_of_lt (by decide), readBytes, length_content, if_neg (by omega)]
      rfl
    have hchunk : (chunk (content d i) m).length = direntSize := by
      simp [chunk]
      omega
    have hget : Dirent.ofBytes (chunk (content d i) m) = es[m] := by
      subst hes
      rw [getElem_entries]
    rw [hread]
    show Ends (if _ then _ else _) _ _ _
    rw [if_pos hchunk, hget, List.drop_eq_getElem_cons hlt, ends_pure]
    by_cases hp : p es[m] = true
    · rw [if_pos hp, List.findIdx_cons, List.find?_cons_of_pos hp, hp]
      exact .ret ⟨rfl, rfl⟩
    · rw [if_neg hp, List.findIdx_cons, List.find?_cons_of_neg hp, ← hm]
      refine (ih (m + 1) (by omega)).imp fun r v' hr => ⟨hr.1, hr.2.trans ?_⟩
      simp [hp]
      omega

section
omit [Devsw]

/-- The test of `dirlookup` is the one for the key. -/
theorem place_dirTable (d : Disk) (i : Nat) (name : List Byte) :
    (dirTable d i).place (truncName name) = (entries (content d i)).findIdx fun de =>
      de.inum ≠ 0#16 ∧ namecmp name de.name = 0 := by
  rw [Table.place, dirTable, List.findIdx_map]
  congr 1
  funext de
  by_cases hz : de.inum = 0#16 <;>
    simp [Dirent.slot, hz, namecmp_eq_zero, @eq_comm _ (truncName de.name)]

theorem at_dirTable {n : Nat} {k : List Byte} {inum : BitVec 16} :
    (dirTable d i).At n k inum ↔ ∃ de, (entries (content d i))[n]? = some de ∧
      de.inum ≠ 0#16 ∧ truncName de.name = k ∧ de.inum = inum := by
  rw [Table.At, dirTable, List.getElem?_map, Option.map_eq_some_iff]
  refine exists_congr fun de => and_congr_right fun _ => ?_
  by_cases hz : de.inum = 0#16 <;> simp [Dirent.slot, hz]

theorem freePlace_dirTable (d : Disk) (i : Nat) :
    (dirTable d i).freePlace = (entries (content d i)).findIdx fun de => de.inum = 0#16 := by
  rw [Table.freePlace, dirTable, List.findIdx_map]
  congr 1
  funext de
  by_cases hz : de.inum = 0#16 <;> simp [Dirent.slot, hz]

theorem lookup_dirTable (d : Disk) (i : Nat) (name : List Byte) :
    (dirTable d i).lookup (truncName name) = ((entries (content d i)).find? fun de =>
      de.inum ≠ 0#16 ∧ namecmp name de.name = 0).map Dirent.inum := by
  rw [Table.lookup, place_dirTable, dirTable, List.getElem?_map, ← List.find?_eq_getElem?_findIdx]
  cases hf : (entries (content d i)).find? _ with
  | none => rfl
  | some de =>
    have hde := List.find?_some hf
    have hz : de.inum ≠ 0#16 := by simp at hde; exact hde.1
    simp [Dirent.slot, hz]

end

theorem dirlookup_spec (h : FsInv d) (hdir : IsDir d i) (name : List Byte) :
    Ends (dirlookup name) (lock d i)
      (fun r v' => v' = lock d i ∧ r = ((dirTable d i).lookup (truncName name)).map fun inum =>
        (inum, (dirTable d i).place (truncName name) * direntSize)) := by
  have htype : ¬ (lock d i).ip.type ≠ tDir := fun hne => hne hdir.type
  rw [dirlookup, ends_bind, ends_get, if_neg htype, ends_bind]
  have hscan := scan_spec h hdir .dirlookupRead
    (fun de => de.inum ≠ 0#16 ∧ namecmp name de.name = 0) 0
  rw [Nat.zero_mul] at hscan
  refine hscan.imp fun r v' hr => .ret ⟨hr.1, ?_⟩
  rw [hr.2, lookup_dirTable, place_dirTable, Option.map_map]
  simp only [List.drop_zero, Nat.zero_add]
  rfl

omit [Devsw] in
/-- An entry is written: the directory is one with this entry in its place. -/
theorem dirTable_written (hdir : IsDir d i) (hm : m ≤ (dirTable d i).length)
    (hde : de.name.length = dirsiz) (hw : Written d d' i (m * direntSize) de.toBytes) :
    dirTable d' i = if m < (dirTable d i).length then (dirTable d i).set m de.slot
      else dirTable d i ++ [de.slot] := by
  rw [length_dirTable] at hm ⊢
  rw [dirTable, hw.content, entries_splice hdir.whole hm hde]
  split
  · rw [List.map_set, dirTable]
  · rw [List.map_append, dirTable, List.map_singleton]

omit [Devsw] in
theorem IsDir.written (hdir : IsDir d i)
    (hde : de.name.length = dirsiz) (hw : Written d d' i (m * direntSize) de.toBytes)
    (hkeyed : (dirTable d' i).Keyed) : IsDir d' i where
  inum := hdir.inum
  type := by rw [hw.inode, hdir.type]
  whole := by
    rw [length_content, hw.size, hdir.size, Dirent.length_toBytes hde, ← Nat.succ_mul,
      Nat.mul_max_mul_right]
    exact Nat.dvd_mul_left ..
  keyed := hkeyed

/-- An entry fits at a place: in the largest file, and in the free blocks. -/
def Fits (d : Disk) (i m : Nat) : Prop :=
  m * direntSize + direntSize ≤ maxfile * bsize ∧
    (lock d i).Enough (rangeNeeds (m * direntSize) direntSize)

theorem writeDirent_spec (h : FsInv d) (hdir : IsDir d i) (e : FsPanic)
    (hm : m ≤ (dirTable d i).length) (hde : de.name.length = dirsiz) :
    Ends (writeDirent e (m * direntSize) de) (lock d i)
      (fun _ v' => v' = lock v'.disk i ∧ Written d v'.disk i (m * direntSize) de.toBytes)
      (fun _ => ¬ Fits d i m) := by
  have hfile := hdir.isFile
  have hb := Dirent.length_toBytes hde
  have hmax : maxfile * bsize = 71680 := by decide
  have hle : m * direntSize ≤ (dinode d i).size.toNat := by
    rw [hdir.size, ← length_dirTable]
    exact Nat.mul_le_mul_right _ hm
  have hsize := h.size_le hfile.1 hfile.2.1
  have hoff : (BitVec.ofNat 32 (m * direntSize)).toNat = m * direntSize := by
    rw [BitVec.toNat_ofNat, Nat.mod_eq_of_lt (by omega)]
  have hspec := writei_spec h hfile.1 hfile.2.1 hfile.2.2 (by rw [hb]; decide)
    (BitVec.ofNat 32 (m * direntSize))
  rw [hoff, hb] at hspec
  rw [writeDirent, ends_bind]
  refine hspec.mono (fun n v' hpost => ?_) fun _ he hfits => he.2.2 hfits.2
  rw [ends_ite]
  refine ⟨fun hn => .ret ?_, fun hn => (ends_throw ..).mpr fun hfits => hn ?_⟩
  · by_cases hbad : Refused (dinode d i).size.toNat (m * direntSize) direntSize
    · rw [(hpost.1 hbad).1] at hn
      cases hn
    · exact (hpost.2 hbad).2
  · refine (hpost.2 ?_).1
    have := hfits.1
    unfold Refused
    omega

/-- There is a cleared entry, or room for one more. -/
def Room (d : Disk) (i : Nat) : Prop :=
  (dirTable d i).freePlace < (dirTable d i).length ∨ Fits d i (dirTable d i).length

omit [Devsw] in
/-- An entry that is there can be written. -/
theorem fits_of_lt (h : FsInv d) (hdir : IsDir d i) (hm : m < (dirTable d i).length) :
    Fits d i m := by
  have hfile := hdir.isFile
  have hle : m * direntSize + direntSize ≤ (dinode d i).size.toNat := by
    rw [hdir.size, ← length_dirTable, ← Nat.succ_mul]
    exact Nat.mul_le_mul_right _ hm
  exact ⟨hle.trans (h.size_le hfile.1 hfile.2.1), h.enough_below hfile.1 hfile.2.1 hle⟩

omit [Devsw] in
theorem Room.fits (h : FsInv d) (hdir : IsDir d i) (hroom : Room d i) :
    Fits d i (dirTable d i).freePlace := by
  by_cases hlt : (dirTable d i).freePlace < (dirTable d i).length
  · exact fits_of_lt h hdir hlt
  · rw [Nat.le_antisymm (Table.freePlace_le _) (Nat.not_lt.mp hlt)]
    exact hroom.resolve_left hlt

/-- What a change of a directory leaves alone. -/
structure OnlyDir (d d' : Disk) (i : Nat) : Prop where
  inv : FsInv d'
  dir : IsDir d' i
  others : ∀ {j}, j < ninodes → j ≠ i → dinode d' j = dinode d j ∧ content d' j = content d j

section
variable (h : FsInv d) (hdir : IsDir d i)
include h hdir

theorem dirlink_bound {name : List Byte} (inum : Word)
    (hbound : (dirTable d i).lookup (truncName name) ≠ none) :
    Ends (dirlink name inum) (lock d i) (fun r v' => r = -1 ∧ v' = lock d i) := by
  rw [dirlink]
  refine (dirlookup_spec h hdir name).bind fun r v' hr => ?_
  obtain ⟨rfl, rfl⟩ := hr
  obtain ⟨v, hv⟩ := Option.ne_none_iff_exists'.mp hbound
  rw [hv]
  exact .ret ⟨rfl, rfl⟩

/-- `dirlink` of a new name is `put`. -/
theorem dirlink_new (name : List Byte) {inum : Word} (hpos : inum.setWidth 16 ≠ 0#16)
    (hnew : (dirTable d i).lookup (truncName name) = none) :
    Ends (dirlink name inum) (lock d i)
      (fun r v' => r = 0 ∧ v' = lock v'.disk i ∧ OnlyDir d v'.disk i ∧
        dirTable v'.disk i = (dirTable d i).put (truncName name) (inum.setWidth 16))
      (fun _ => ¬ Room d i) := by
  rw [dirlink, ends_bind]
  refine (dirlookup_spec h hdir name).of_safe fun r v' hr => ?_
  obtain ⟨rfl, rfl⟩ := hr
  rw [hnew]
  show Ends (get >>= _) _ _ _
  rw [ends_bind, ends_get, ends_bind]
  have hscan := scan_spec h hdir .dirlinkRead (fun de => de.inum = 0#16) 0
  rw [Nat.zero_mul] at hscan
  refine hscan.of_safe fun r v' hr => ?_
  obtain ⟨rfl, rfl⟩ := hr
  rw [List.drop_zero, Nat.zero_add, ← freePlace_dirTable, ends_bind]
  have hname : (strncpy name dirsiz).length = dirsiz := length_strncpy ..
  refine (writeDirent_spec h hdir _ (Table.freePlace_le _) hname).mono
    (fun _ v' hv' => .ret ⟨rfl, hv'.1, ?_⟩) fun _ he hroom => he (hroom.fits h hdir)
  have htable : dirTable v'.disk i = (dirTable d i).put (truncName name) (inum.setWidth 16) := by
    rw [dirTable_written hdir (Table.freePlace_le _) hname hv'.2, Table.put, Dirent.slot,
      if_neg hpos, truncName_strncpy]
  have hkeyed := hdir.keyed.put (v := inum.setWidth 16) hnew
  rw [← htable] at hkeyed
  exact ⟨⟨hv'.2.inv, hdir.written hname hv'.2 hkeyed, hv'.2.others⟩, htable⟩

theorem clearDirent_spec (hm : m < (dirTable d i).length) :
    Ends (clearDirent (m * direntSize)) (lock d i)
      (fun _ v' => v' = lock v'.disk i ∧ OnlyDir d v'.disk i ∧
        dirTable v'.disk i = (dirTable d i).clear m) := by
  have hname : (List.replicate dirsiz (0 : Byte)).length = dirsiz := List.length_replicate
  refine (writeDirent_spec h hdir _ hm.le hname).mono (fun _ v' hv' => ⟨hv'.1, ?_⟩)
    fun _ he => he (fits_of_lt h hdir hm)
  have htable : dirTable v'.disk i = (dirTable d i).clear m := by
    rw [dirTable_written hdir hm.le hname hv'.2, if_pos hm]
    rfl
  have hkeyed := hdir.keyed.clear (n := m)
  rw [← htable] at hkeyed
  exact ⟨⟨hv'.2.inv, hdir.written hname hv'.2 hkeyed, hv'.2.others⟩, htable⟩

theorem isdirempty_spec :
    Ends isdirempty (lock d i)
      (fun r v' => v' = lock d i ∧ (r = true ↔ ∀ n ≥ 2, ∀ k v, ¬ (dirTable d i).At n k v)) := by
  rw [isdirempty, ends_bind, ends_get]
  refine (scan_spec h hdir .isdiremptyRead (fun de => de.inum ≠ 0#16) 2).bind fun r v' hr =>
    .ret ⟨hr.1, ?_⟩
  rw [hr.2, Option.isNone_iff_eq_none, List.find?_eq_none]
  simp only [List.mem_iff_getElem?, List.getElem?_drop, at_dirTable]
  constructor
  · rintro hall n hn k v ⟨de, hde, hne, -⟩
    refine hall de ⟨n - 2, ?_⟩ (by simpa using hne)
    rw [Nat.add_sub_cancel' hn, hde]
  · rintro hall de ⟨n, hde⟩ hne
    exact hall (2 + n) (Nat.le_add_right ..) _ _ ⟨de, hde, by simpa using hne, rfl, rfl⟩

end

/-! ### Sequences of operations -/

/-- What happens to a directory. -/
inductive DirOp
  | link (name : List Byte) (inum : Word)
  | clear (name : List Byte)
  /-- Something happens to other inodes, or to the other fields of this one. -/
  | elsewhere

/-- The part of `sys_unlink` on the directory. -/
def clearName (name : List Byte) : Kern Vol FsPanic Int := do
  match ← dirlookup name with
  | none => pure (-1)
  | some r => do
    clearDirent r.2
    pure 0

/-- An operation that returns. -/
def DirOp.Step (i : Nat) (d : Disk) (op : DirOp) (d' : Disk) : Prop :=
  match op with
  | .link name inum => 0 < inum.toNat ∧ inum.toNat < 2 ^ 16 ∧
      ∃ r v, (dirlink name inum).run (lock d i) = .ok (r, v) ∧ v.disk = d'
  | .clear name => ∃ r v, (clearName name).run (lock d i) = .ok (r, v) ∧ v.disk = d'
  | .elsewhere => FsInv d' ∧ (dinode d' i).type = (dinode d i).type ∧
      content d' i = content d i

omit [Superblock] [Devsw] in
/-- The same on a map. -/
def DirOp.apply (f : List Byte → Option (BitVec 16)) : DirOp → List Byte → Option (BitVec 16)
  | .link name inum =>
    if f (truncName name) = none then update f (truncName name) (some (inum.setWidth 16)) else f
  | .clear name => update f (truncName name) none
  | .elsewhere => f

omit [Superblock] [Devsw] in
/-- The map that the operations make of the empty one. -/
def dirMap (ops : List DirOp) : List Byte → Option (BitVec 16) :=
  ops.foldl DirOp.apply fun _ => none

/-- The directory holds this map. -/
structure Holds (d : Disk) (i : Nat) (f : List Byte → Option (BitVec 16)) : Prop where
  inv : FsInv d
  dir : IsDir d i
  lookup : (dirTable d i).lookup = f

omit [Superblock] [Devsw] in
theorem setWidth_ne_zero {inum : Word} (hpos : 0 < inum.toNat) (hlt : inum.toNat < 2 ^ 16) :
    inum.setWidth 16 ≠ 0#16 := by
  intro hz
  have := congrArg BitVec.toNat hz
  rw [BitVec.toNat_setWidth, Nat.mod_eq_of_lt hlt] at this
  simp at this
  omega

theorem clearName_spec {f : List Byte → Option (BitVec 16)} (h : Holds d i f)
    (name : List Byte) : Ends (clearName name) (lock d i)
      (fun _ v' => Holds v'.disk i (update f (truncName name) none)) := by
  rw [clearName]
  refine (dirlookup_spec h.inv h.dir name).bind fun r v' hr => ?_
  obtain ⟨rfl, rfl⟩ := hr
  cases hl : (dirTable d i).lookup (truncName name) with
  | none =>
    -- nothing to clear
    refine .ret ?_
    rw [h.lookup] at hl
    rw [← hl, Function.update_eq_self]
    exact h
  | some inum =>
    have hat := Table.at_place_of_lookup hl
    show Ends (clearDirent _ >>= _) _ _ _
    refine (clearDirent_spec h.inv h.dir hat.lt).bind fun _ v' hv' => .ret ?_
    refine ⟨hv'.2.1.inv, hv'.2.1.dir, ?_⟩
    rw [hv'.2.2, h.dir.keyed.lookup_clear hat, h.lookup]

theorem DirOp.step_holds {f : List Byte → Option (BitVec 16)} {op : DirOp} (h : Holds d i f)
    (hs : op.Step i d d') : Holds d' i (op.apply f) := by
  cases op with
  | link name inum =>
    obtain ⟨hpos, hlt, r, v, hrun, rfl⟩ := hs
    by_cases hnew : f (truncName name) = none
    · rw [apply, if_pos hnew]
      rw [← h.lookup] at hnew
      have hspec := dirlink_new h.inv h.dir _ (setWidth_ne_zero hpos hlt) hnew
      obtain ⟨-, -, honly, htable⟩ := hspec.of_ok hrun
      exact ⟨honly.inv, honly.dir, by rw [htable, h.dir.keyed.lookup_put hnew, h.lookup]⟩
    · rw [apply, if_neg hnew]
      rw [← h.lookup] at hnew
      obtain ⟨-, rfl⟩ := (dirlink_bound h.inv h.dir inum hnew).of_ok hrun
      exact h
  | clear name =>
    obtain ⟨r, v, hrun, rfl⟩ := hs
    exact (clearName_spec h name).of_ok hrun
  | elsewhere =>
    obtain ⟨hinv, htype, hcontent⟩ := hs
    have htable : dirTable d' i = dirTable d i := by rw [dirTable, hcontent, dirTable]
    refine ⟨hinv, ⟨h.dir.inum, htype.trans h.dir.type, ?_, ?_⟩, ?_⟩
    · rw [hcontent]
      exact h.dir.whole
    · rw [htable]
      exact h.dir.keyed
    · rw [htable]
      exact h.lookup

theorem DirOp.run_holds {ops : List DirOp} (hrun : Trace (DirOp.Step i) d ops d') :
    ∀ {f}, Holds d i f → Holds d' i (ops.foldl apply f) := by
  induction hrun with
  | nil d => exact fun h => h
  | cons hs _ ih => exact fun h => ih (step_holds h hs)

omit [Devsw] in
theorem Holds.empty (h : FsInv d) (hi : i < ninodes) (ht : (dinode d i).type = tDir)
    (hempty : content d i = []) : Holds d i fun _ => none := by
  have htable : dirTable d i = [] := by rw [dirTable, hempty]; rfl
  have hno : ∀ n k v, ¬ (dirTable d i).At n k v := by
    intro n k v hat
    rw [htable] at hat
    exact absurd hat.lt (Nat.not_lt_zero _)
  refine ⟨h, ⟨hi, ht, ?_, fun _ _ _ _ _ hm => (hno _ _ _ hm).elim⟩, funext fun k => ?_⟩
  · rw [hempty]
    exact Nat.dvd_zero _
  · exact Table.lookup_eq_none.mpr fun n v => hno n k v

/-- A directory is a map from names, cut off behind `DIRSIZ` bytes, whatever is linked and
cleared in it. -/
theorem directory_is_map {d0 : Disk} {ops : List DirOp} (h : FsInv d0) (hi : i < ninodes)
    (ht : (dinode d0 i).type = tDir) (hempty : content d0 i = [])
    (hrun : Trace (DirOp.Step i) d0 ops d) :
    (∀ (m n : Nat) (de de' : Dirent), (entries (content d i))[m]? = some de →
      (entries (content d i))[n]? = some de' → de.inum ≠ 0#16 → de'.inum ≠ 0#16 →
      namecmp de.name de'.name = 0 → m = n) ∧
    (∀ name, ∃ r, (dirlookup name).run (lock d i) = .ok (r, lock d i) ∧
      r.map Prod.fst = dirMap ops (truncName name) ∧
      ∀ inum off, r = some (inum, off) →
        ∃ n, off = n * direntSize ∧ (dirTable d i).At n (truncName name) inum) ∧
    (∀ (name : List Byte) (inum : Word), 0 < inum.toNat → inum.toNat < 2 ^ 16 →
      (dirMap ops (truncName name) ≠ none →
        (dirlink name inum).run (lock d i) = .ok (-1, lock d i)) ∧
      (dirMap ops (truncName name) = none → Room d i →
        ∃ d', (dirlink name inum).run (lock d i) = .ok (0, lock d' i) ∧
          Holds d' i (update (dirMap ops) (truncName name) (some (inum.setWidth 16))) ∧
          dirTable d' i = (dirTable d i).put (truncName name) (inum.setWidth 16) ∧
          ∀ j < ninodes, j ≠ i → content d' j = content d j)) ∧
    (∀ n name inum, (dirTable d i).At n name inum →
      ∃ d', (clearDirent (n * direntSize)).run (lock d i) = .ok ((), lock d' i) ∧
        Holds d' i (update (dirMap ops) name none) ∧
        dirTable d' i = (dirTable d i).clear n ∧
        ∀ j < ninodes, j ≠ i → content d' j = content d j) ∧
    ∃ r, isdirempty.run (lock d i) = .ok (r, lock d i) ∧
      (r = true ↔ ∀ n ≥ 2, ∀ name inum, ¬ (dirTable d i).At n name inum) := by
  have hold : Holds d i (dirMap ops) := DirOp.run_holds hrun (.empty h hi ht hempty)
  refine ⟨?_, ?_, ?_, ?_, ?_⟩
  · intro m n de de' hm hn hz hz' hname
    rw [namecmp_eq_zero] at hname
    exact hold.dir.keyed (at_dirTable.mpr ⟨de, hm, hz, rfl, rfl⟩)
      (at_dirTable.mpr ⟨de', hn, hz', hname.symm, rfl⟩)
  · intro name
    obtain ⟨r, v', hr, rfl, rfl⟩ := (dirlookup_spec hold.inv hold.dir name).exists_ok
    refine ⟨_, hr, ?_, fun inum off hsome => ?_⟩
    · rw [Option.map_map, ← hold.lookup]
      exact Option.map_id' ..
    · obtain ⟨v, hv, he⟩ := Option.map_eq_some_iff.mp hsome
      obtain ⟨rfl, rfl⟩ := Prod.mk.inj he
      exact ⟨_, rfl, Table.at_place_of_lookup hv⟩
  · intro name inum hpos hlt
    rw [← hold.lookup]
    refine ⟨fun hbound => ?_, fun hnew hroom => ?_⟩
    · obtain ⟨r, v', hr, rfl, rfl⟩ := (dirlink_bound hold.inv hold.dir inum hbound).exists_ok
      exact hr
    · have hspec := dirlink_new hold.inv hold.dir _ (setWidth_ne_zero hpos hlt) hnew
      obtain ⟨r, v', hr, rfl, hv', honly, htable⟩ :=
        (hspec.mono (fun _ _ hp => hp) fun _ he => he hroom).exists_ok
      refine ⟨v'.disk, by rw [hr, ← hv'], ⟨honly.inv, honly.dir, ?_⟩, htable,
        fun j hj hji => (honly.others hj hji).2⟩
      rw [htable, hold.dir.keyed.lookup_put hnew]
  · intro n name inum hat
    obtain ⟨r, v', hr, hv', honly, htable⟩ :=
      (clearDirent_spec hold.inv hold.dir hat.lt).exists_ok
    refine ⟨v'.disk, by rw [hr, ← hv'], ⟨honly.inv, honly.dir, ?_⟩, htable,
      fun j hj hji => (honly.others hj hji).2⟩
    rw [htable, hold.dir.keyed.lookup_clear hat, hold.lookup]
  · obtain ⟨r, v', hr, rfl, hiff⟩ := (isdirempty_spec hold.inv hold.dir).exists_ok
    exact ⟨r, hr, hiff⟩

end

theorem content_oneFile (type : BitVec 16) :
    let _ : Superblock := Superblock.mkfs
    content (oneFile type) 1 = [] := by
  intro _
  apply List.eq_nil_of_length_eq_zero
  rw [length_content, dinode_oneFile type (by decide)]
  rfl

theorem oneFile_holds :
    let _ : Superblock := Superblock.mkfs
    Holds (oneFile tDir) 1 fun _ => none := by
  intro _
  refine .empty (oneFile_inv tDir) (by decide) ?_ (content_oneFile tDir)
  rw [dinode_oneFile tDir (by decide)]
  rfl

/-- One link in an empty directory, and the name is found there. -/
theorem directory_is_map_one_link :
    let _ : Superblock := Superblock.mkfs
    let _ : Devsw := Devsw.none
    ∃ d, DirOp.Step 1 (oneFile tDir) (.link [97] 2) d ∧
      ∃ off, (dirlookup [97]).run (lock d 1) = .ok (some (2, off), lock d 1) := by
  intro _ _
  have hnil := content_oneFile tDir
  have hstart := oneFile_holds
  have htype := hstart.dir.type
  have htable : dirTable (oneFile tDir) 1 = [] := by rw [dirTable, hnil]; rfl
  have hroom : Room (oneFile tDir) 1 := by
    refine .inr ?_
    rw [htable]
    exact ⟨by decide, oneFile_enough tDir (by decide)⟩
  have hlink := dirlink_new hstart.inv hstart.dir [97]
    (show (2 : Word).setWidth 16 ≠ 0#16 by decide)
    (by rw [hstart.lookup])
  obtain ⟨r, v', hr, -, -, -⟩ := (hlink.mono (fun _ _ hp => hp) fun _ he => he hroom).exists_ok
  have hstep : DirOp.Step 1 (oneFile tDir) (.link [97] 2) v'.disk :=
    ⟨by decide, by decide, r, v', hr, rfl⟩
  have hmap := directory_is_map (oneFile_inv tDir) (by decide) htype hnil (.cons hstep (.nil _))
  refine ⟨v'.disk, hstep, ?_⟩
  obtain ⟨s, hs, hfst, -⟩ := hmap.2.1 [97]
  have htwo : dirMap [.link [97] 2] (truncName [97]) = some 2 := by decide
  obtain ⟨⟨inum, off⟩, rfl, rfl⟩ := Option.map_eq_some_iff.mp (hfst.trans htwo)
  exact ⟨off, hs⟩

end Xv6
