import Xv6.Fs.CacheRuns
import Xv6.Fs.FileIo

/-!
# Xv6.Fs.Paths

`namex` against its meaning: the elements of the path are looked up one after the other,
from the root or from the current directory, in the directories on the disk.

`follow` and `followParent` are that meaning, as functions of the disk. `namex` gets there
through the cache: it takes a reference to each inode on the way, reads it in, and drops the
reference for the one to the next inode. `Later` says that this changes nothing else. On a
disk where an inode without names is free or in use, dropping a reference on the way never
frees an inode, so the disk stays as it is.

Two things stop a walk before it arrives: an entry that leads to a free inode, as `..` does
in a directory that was removed before its parent was (`panic("ilock: no type")`), and a
cache without an entry for the next inode (`panic("iget: no inodes")`). `Clear` says that
neither is on the way.
-/

namespace Xv6

open Superblock

section
variable [Superblock]

/-! ### The meaning of a path -/

/-- `dirlookup` in the inode `i`. -/
def child (d : Disk) (i : Nat) (name : List Byte) : Option Nat :=
  if (dinode d i).type = tDir then
    ((dirTable d i).lookup (truncName name)).map BitVec.toNat
  else none

/-- Look up one element after the other. -/
def follow (d : Disk) (names : List (List Byte)) (i : Nat) : Option Nat := names.foldlM (child d) i

/-- Look up all elements but the last, and stop at a directory. -/
def followParent (d : Disk) (names : List (List Byte)) (i : Nat) : Option (Nat × List Byte) :=
  names.getLast?.bind fun name => (follow d names.dropLast i).bind fun j =>
    if (dinode d j).type = tDir then some (j, name) else none

variable {d : Disk} {names : List (List Byte)} {name : List Byte} {i j : Nat}

theorem follow_cons : follow d (name :: names) i = (child d i name).bind (follow d names) :=
  List.foldlM_cons

theorem child_of_not_dir (h : (dinode d i).type ≠ tDir) : child d i name = none := if_neg h

theorem followParent_last (h : (dinode d i).type = tDir) :
    followParent d [name] i = some (i, name) := by
  simp [followParent, follow, h]

theorem followParent_cons (h : names ≠ []) :
    followParent d (name :: names) i = (child d i name).bind (followParent d names) := by
  have hlast := List.getLast?_eq_some_getLast h
  show _ = (child d i name).bind fun j => followParent d names j
  simp only [followParent, List.getLast?_cons, hlast, List.dropLast_cons_of_ne_nil h, follow_cons,
    Option.getD_some, Option.bind_some, Option.bind_assoc]

/-- Without a directory to start from there is no parent. -/
theorem followParent_not_dir (h : (dinode d i).type ≠ tDir) :
    followParent d (name :: names) i = none := by
  by_cases hnil : names = []
  · subst hnil
    simp [followParent, follow, h]
  · rw [followParent_cons hnil, child_of_not_dir h]
    rfl

/-- Where `namex` is to arrive. -/
def destination (d : Disk) (nameiparent : Bool) (names : List (List Byte)) (i : Nat) :
    Option (Nat × List Byte) :=
  if nameiparent then followParent d names i else (follow d names i).map (·, [])

theorem destination_cons {nameiparent : Bool} (h : nameiparent = true → names ≠ []) :
    destination d nameiparent (name :: names) i =
      (child d i name).bind (destination d nameiparent names) := by
  cases nameiparent with
  | true => exact followParent_cons (h rfl)
  | false =>
    show (follow d (name :: names) i).map _ = _
    rw [follow_cons, Option.map_bind]
    rfl

/-! ### The way through the cache -/

/-- The file system between two calls: every directory is one, its entries are inodes, and an
inode without names is free or in use. -/
structure Fs.Consistent (x : Fs) : Prop where
  ok : x.Ok
  root : rootIno < ninodes
  dir : ∀ {i}, i < ninodes → (dinode x.disk i).type = tDir → IsDir x.disk i
  entry : ∀ {i j name}, i < ninodes → child x.disk i name = some j → j < ninodes
  named : ∀ {i}, i < ninodes → (dinode x.disk i).type ≠ 0#16 → (dinode x.disk i).nlink = 0#16 →
    ∃ s, 0 < (x.icache s).ref ∧ (x.icache s).inum = i

/-- `y` is `x` with `r s` references to the entry `s`, after inodes were read in. -/
structure Later (x : Fs) (r : Fin ninode → Nat) (y : Fs) : Prop where
  ok : y.Ok
  disk : y.disk = x.disk
  ref : ∀ s, (y.icache s).ref = r s
  held : ∀ s, 0 < (x.icache s).ref → (y.icache s).inum = (x.icache s).inum

variable {x y : Fs} {r : Fin ninode → Nat} {s : Fin ninode}

omit [Superblock] in
theorem Fs.setEntry_inum (x : Fs) (s : Fin ninode) (e : IEntry) (t : Fin ninode)
    (h : t = s → e.inum = (x.icache s).inum) :
    ((x.setEntry s e).icache t).inum = (x.icache t).inum := by
  unfold Fs.setEntry
  dsimp only
  by_cases hts : t = s
  · rw [hts, Function.update_self, h hts]
  · rw [Function.update_of_ne hts]

theorem Later.iget (h : Later x r y) (hle : ∀ s, (x.icache s).ref ≤ r s) (hi : i < ninodes) :
    Ends (iget i) y (fun s z => Later x (bump r s) z ∧ (z.icache s).inum = i ∧
      y.HasRoom i) (fun _ => ¬ y.HasRoom i) := by
  have hrefs : CacheRefs y r := ⟨h.ref, h.ok.cache.unique⟩
  refine ((iget_cases y i).and ((iget_spec h.ok hi).and (takes_iget i hrefs))).mono ?_
    fun _ he => he.1.2
  intro s z ⟨hz, ⟨hok, hdisk⟩, hr⟩
  have hinum : (z.icache s).inum = i ∧ ∀ t, 0 < r t → (z.icache t).inum = (y.icache t).inum := by
    rcases hz with ⟨-, hs, rfl⟩ | ⟨hs, -, rfl⟩
    · have hsame := fun t => y.setEntry_inum s
        { y.icache s with ref := (y.icache s).ref + 1 } t fun _ => rfl
      exact ⟨(hsame s).trans hs, fun t _ => hsame t⟩
    · refine ⟨by simp [Fs.setEntry], fun t ht => y.setEntry_inum s _ t fun hts => ?_⟩
      subst hts
      have := h.ref t
      omega
  have hroom : y.HasRoom i := by
    rcases hz with ⟨hs, hi, -⟩ | ⟨hs, -, -⟩
    · exact .inl ⟨s, hs, hi⟩
    · exact .inr ⟨s, hs⟩
  refine ⟨⟨hok, hdisk.trans h.disk, hr.ref, fun t ht => ?_⟩, hinum.1, hroom⟩
  rw [hinum.2 t, h.held t ht]
  have := hle t
  omega

theorem Later.idup (h : Later x r y) (hs : 0 < r s) :
    Ends (idup s) y (fun _ z => Later x (bump r s) z ∧ (z.icache s).inum = (y.icache s).inum) := by
  have hpos : 0 < (y.icache s).ref := by
    rw [h.ref]
    exact_mod_cast hs
  have hinum : ∀ t, ((y.setEntry s { y.icache s with ref := (y.icache s).ref + 1 }).icache t).inum =
      (y.icache t).inum := fun t => y.setEntry_inum s _ t fun _ => rfl
  refine (ends_modify ..).mpr ⟨⟨h.ok.setRef hpos (by omega), h.disk, fun t => ?_, fun t ht => ?_⟩,
    hinum s⟩
  · rw [bump_cast (k := (y.icache s).ref + 1) (by rw [h.ref])]
    by_cases hts : t = s
    · simp [Fs.setEntry, hts]
    · simp [Fs.setEntry, hts, h.ref]
  · rw [hinum, h.held t ht]

theorem Later.ilock (h : Later x r y) (hs : 0 < r s) :
    Ends (ilock s) y (fun _ z => Later x r z ∧ (∀ t, (z.icache t).inum = (y.icache t).inum) ∧
      (z.icache s).valid = true)
      (fun _ => (dinode x.disk (y.icache s).inum).type = 0#16) := by
  have hpos : 0 < (y.icache s).ref := by
    rw [h.ref]
    exact_mod_cast hs
  refine ((ilock_cases y s).and (ilock_spec h.ok hpos)).mono ?_ ?_
  · rintro _ z ⟨⟨-, ⟨hv, rfl⟩ | ⟨-, rfl⟩⟩, hok⟩
    · exact ⟨h, fun _ => rfl, hv⟩
    · have hinum := fun t => y.setEntry_inum s
        { y.icache s with valid := true, ip := dinode y.disk (y.icache s).inum } t fun _ => rfl
      refine ⟨⟨hok.1, h.disk, fun t => ?_, fun t ht => (hinum t).trans (h.held t ht)⟩, hinum,
        by simp [Fs.setEntry]⟩
      rw [← h.ref t]
      by_cases hts : t = s
      · simp [Fs.setEntry, hts]
      · simp [Fs.setEntry, hts]
  · rintro e ⟨⟨-, hr⟩ | ⟨-, -, ht⟩, -⟩
    · omega
    · rwa [← h.disk]

/-- `iput` on the way never frees the inode: it has a name, or somebody else holds it. -/
theorem Later.iput (hx : x.Consistent) (h : Later x (bump r s) y)
    (hle : ∀ t, (x.icache t).ref ≤ r t) :
    Ends (iput s) y (fun _ z => Later x r z ∧ ∀ t, (z.icache t).inum = (y.icache t).inum) := by
  have href := h.ref s
  rw [bump_self] at href
  have hpos : 0 < (y.icache s).ref := by omega
  have hkept : ¬ ((y.icache s).valid = true ∧ (y.icache s).ip.nlink = 0#16 ∧
      (y.icache s).ref = 1) := by
    rintro ⟨hv, hn, h1⟩
    have ht := h.ok.cache.type hpos hv
    rw [h.ok.through s hpos hv, h.disk] at hn ht
    obtain ⟨t, htpos, htinum⟩ := hx.named (h.ok.cache.inum hpos) ht hn
    -- the entry it is held by is this one, which then counts two
    have htr : 0 < (y.icache t).ref := by
      rw [h.ref, bump_apply]
      have := hle t
      omega
    have hts := h.ok.cache.unique htr hpos ((h.held t htpos).trans htinum)
    have := hle t
    rw [hts] at this htpos
    omega
  have hinum : ∀ t, ((y.setEntry s { y.icache s with ref := (y.icache s).ref - 1 }).icache t).inum =
      (y.icache t).inum := fun t => y.setEntry_inum s _ t fun _ => rfl
  rw [Xv6.iput, ends_bind, ends_get, if_neg hkept]
  refine (ends_modify ..).mpr ⟨⟨h.ok.setRef hpos (by omega), h.disk, fun t => ?_, fun t ht => ?_⟩,
    hinum⟩
  · by_cases hts : t = s
    · simp [Fs.setEntry, hts, href]
    · simp [Fs.setEntry, hts, h.ref]
  · rw [hinum, h.held t ht]

/-- The fields of an inode that was read in are those on the disk. -/
theorem Later.fields (h : Later x r y) (hs : 0 < r s) (hv : (y.icache s).valid = true) :
    (y.icache s).ip = dinode x.disk (y.icache s).inum ∧ (y.icache s).inum < ninodes ∧
      (dinode x.disk (y.icache s).inum).type ≠ 0#16 := by
  have hpos : 0 < (y.icache s).ref := by
    rw [h.ref]
    exact_mod_cast hs
  rw [← h.disk]
  exact ⟨h.ok.through s hpos hv, (h.ok.volume hpos hv).2⟩

variable [Devsw]

theorem Later.dirfind (hx : x.Consistent) (h : Later x r y) (hs : 0 < r s)
    (hv : (y.icache s).valid = true) (hdir : (dinode x.disk (y.icache s).inum).type = tDir)
    (name : List Byte) : Ends (dirfindDisk s name) y (fun o z => z = y ∧
      o.map Prod.fst = child x.disk (y.icache s).inum name) := by
  have hpos : 0 < (y.icache s).ref := by
    rw [h.ref]
    exact_mod_cast hs
  obtain ⟨hvol, hi, -⟩ := h.ok.volume hpos hv
  have hisdir : IsDir y.disk (y.icache s).inum := by
    rw [h.disk]
    exact hx.dir hi hdir
  rw [dirfindDisk, ends_bind, onInode, ends_focus, hvol]
  refine (dirlookup_spec h.ok.inv hisdir name).imp ?_
  rintro o v ⟨rfl, rfl⟩
  rw [← hvol]
  refine .ret ⟨y.same_entry s, ?_⟩
  rw [child, if_pos hdir, ← h.disk, Option.map_map, Option.map_map]
  rfl

theorem Later.dirlookup (hx : x.Consistent) (h : Later x r y)
    (hle : ∀ s, (x.icache s).ref ≤ r s) (hs : 0 < r s) (hv : (y.icache s).valid = true)
    (hdir : (dinode x.disk (y.icache s).inum).type = tDir) (name : List Byte) :
    Ends (Inodes.dirlookup s name) y (fun o z => match o with
      | none => z = y ∧ child x.disk (y.icache s).inum name = none
      | some (t, _) => Later x (bump r t) z ∧
          child x.disk (y.icache s).inum name = some (z.icache t).inum ∧
          y.HasRoom (z.icache t).inum)
      (fun _ => ∃ j, child x.disk (y.icache s).inum name = some j ∧ ¬ y.HasRoom j) := by
  have hi := (h.fields hs hv).2.1
  refine ((h.dirfind hx hs hv hdir name).of_safe fun _ _ hQ => hQ).bind ?_
  rintro o _ ⟨rfl, ho⟩
  cases o with
  | none => exact .ret ⟨rfl, ho.symm⟩
  | some v =>
    refine ((h.iget hle (hx.entry hi ho.symm)).mono (fun _ _ hQ => hQ)
      fun _ hE => ⟨v.1, ho.symm, hE⟩).bind ?_
    intro t z ⟨hz, hi, hroom⟩
    exact .ret ⟨hz, by rw [hi]; exact ho.symm, by rw [hi]; exact hroom⟩

/-! ### The walk -/

/-- A reference to the inode is held. -/
def Fs.Held (x : Fs) (i : Nat) : Prop := ∃ s, 0 < (x.icache s).ref ∧ (x.icache s).inum = i

/-- There is an entry for `j` while the walk holds one for `i`. -/
def Fs.Room (x : Fs) (i j : Nat) : Prop :=
  x.Held j ∨ i = j ∨ ∃ t u, (x.icache t).ref = 0 ∧ (x.icache u).ref = 0 ∧ (t = u → x.Held i)

/-- The way is clear: no inode to look in is free, and each next one has room in the cache. -/
def Clear (x : Fs) (nameiparent : Bool) : List (List Byte) → Nat → Prop
  | [], _ => True
  | name :: rest, i => (dinode x.disk i).type ≠ 0#16 ∧
      (¬ (nameiparent = true ∧ rest = []) → ∀ j, child x.disk i name = some j →
        x.Room i j ∧ Clear x nameiparent rest j)

omit [Devsw] in
/-- The cache during the walk, in terms of the cache before it. -/
theorem Later.hasRoom (h : Later x (bump r s) y) (hr : ∀ t, (x.icache t).ref = r t) :
    y.HasRoom j ↔ x.Room (y.icache s).inum j := by
  have hpos : 0 < (y.icache s).ref := by
    rw [h.ref, bump_self]
    omega
  have hheld : ∀ {t}, 0 < (x.icache t).ref → 0 < (y.icache t).ref := by
    intro t ht
    rw [h.ref, bump_apply]
    have := hr t
    omega
  have hfree : ∀ {t}, t ≠ s → ((y.icache t).ref = 0 ↔ (x.icache t).ref = 0) := by
    intro t hts
    rw [h.ref, bump_of_ne hts, hr]
  -- the entry of the walk is one that was in use, or one that was free
  have hself : x.Held (y.icache s).inum ↔ (x.icache s).ref ≠ 0 := by
    constructor
    · rintro ⟨t, ht, hi⟩
      rw [← h.ok.cache.unique (hheld ht) hpos ((h.held t ht).trans hi)]
      omega
    · intro hne
      have := hr s
      exact ⟨s, by omega, (h.held s (by omega)).symm⟩
  constructor
  · rintro (⟨t, ht, hi⟩ | ⟨t, ht⟩)
    · by_cases hts : t = s
      · exact .inr (.inl (hts ▸ hi))
      · have hpos' : 0 < (x.icache t).ref := by
          have := hr t
          have := (hfree hts).mpr
          omega
        exact .inl ⟨t, hpos', (h.held t hpos').symm.trans hi⟩
    · have hts : t ≠ s := by
        rintro rfl
        omega
      refine .inr (.inr ?_)
      by_cases hs : (x.icache s).ref = 0
      · exact ⟨t, s, (hfree hts).mp ht, hs, fun he => absurd he hts⟩
      · exact ⟨t, t, (hfree hts).mp ht, (hfree hts).mp ht, fun _ => hself.mpr hs⟩
  · rintro (⟨t, ht, hi⟩ | hi | ⟨t, u, ht, hu, htu⟩)
    · exact .inl ⟨t, hheld ht, (h.held t ht).trans hi⟩
    · exact .inl ⟨s, hpos, hi⟩
    · by_cases hts : t = s
      · have hus : u ≠ s := by
          intro hus
          exact hself.mp (htu (hts.trans hus.symm)) (hts ▸ ht)
        exact .inr ⟨u, (hfree hus).mpr hu⟩
      · exact .inr ⟨t, (hfree hts).mpr ht⟩

/-- Where a walk that returns `o` arrives, with one reference more to the inode. -/
def Arrived (x : Fs) (r : Fin ninode → Nat) (dest : Option (Nat × List Byte))
    (o : Option (Fin ninode × List Byte)) (z : Fs) : Prop :=
  Later x (plus r (o.map Prod.fst).toList) z ∧
    o.map (fun v => ((z.icache v.1).inum, v.2)) = dest

theorem Later.giveUp (hx : x.Consistent) (h : Later x (bump r s) y)
    (hle : ∀ t, (x.icache t).ref ≤ r t) {E : FsPanic → Prop} :
    Ends (do
      Inodes.iput s
      pure none : Kern Fs FsPanic (Option (Fin ninode × List Byte))) y
      (Arrived x r none) E :=
  ((h.iput hx hle).of_safe fun _ _ hQ => hQ).bind
    fun _ _ hz => .ret ⟨hz.1, rfl⟩

/-- The loop of `namex` arrives where the elements lead if the way is clear, and panics if
it is not. -/
theorem walk_arrives (hx : x.Consistent) (hr : ∀ s, (x.icache s).ref = r s) (nameiparent : Bool) :
    ∀ {names : List (List Byte)} {s : Fin ninode} {y : Fs}, Later x (bump r s) y →
      Ends (Inodes.walk nameiparent names s) y
        (fun o z => Clear x nameiparent names (y.icache s).inum ∧
          Arrived x r (destination x.disk nameiparent names (y.icache s).inum) o z)
        (fun _ => ¬ Clear x nameiparent names (y.icache s).inum) := by
  have hle : ∀ s, (x.icache s).ref ≤ r s := fun s => (hr s).le
  intro names
  induction names with
  | nil =>
    intro s y h
    rw [Inodes.walk, ends_ite]
    refine ⟨fun hp => ?_, fun hp => .ret ⟨trivial, h, ?_⟩⟩
    · rw [destination, if_pos hp]
      exact (h.giveUp hx hle).imp fun _ _ hQ => ⟨trivial, hQ⟩
    · rw [destination, if_neg hp]
      rfl
  | cons name rest ih =>
    intro s y h
    refine ((h.ilock bump_pos).mono (fun _ _ hQ => hQ) fun _ ht hc => hc.1 ht).bind ?_
    rintro _ y1 ⟨h1, hsame, hv⟩
    rw [← hsame]
    obtain ⟨hip, -, halloc⟩ := h1.fields bump_pos hv
    show Ends (entryField _ s >>= _) _ _ _
    rw [entryField, bind_assoc, ends_bind, ends_get]
    show Ends (if (y1.icache s).ip.type ≠ tDir then _ else _) _ _ _
    rw [hip, ends_ite]
    refine ⟨fun hnot => ?_, fun hdir => ?_⟩
    · -- not a directory
      have hnone : destination x.disk nameiparent (name :: rest) (y1.icache s).inum = none := by
        rw [destination, followParent_not_dir hnot, follow_cons, child_of_not_dir hnot]
        exact ite_self _
      rw [hnone]
      refine (h1.giveUp hx hle).imp fun _ _ hQ => ⟨⟨halloc, fun _ j hj => ?_⟩, hQ⟩
      cases (child_of_not_dir hnot).symm.trans hj
    rw [not_not] at hdir
    rw [ends_ite]
    refine ⟨fun hlast => .ret ⟨⟨halloc, fun hmore => absurd hlast hmore⟩, h1, ?_⟩, fun hmore => ?_⟩
    · -- stop one level early
      rw [destination, if_pos hlast.1, hlast.2, followParent_last hdir]
      rfl
    have hdest : destination x.disk nameiparent (name :: rest) (y1.icache s).inum =
        (child x.disk (y1.icache s).inum name).bind (destination x.disk nameiparent rest) :=
      destination_cons fun hp => fun hnil => hmore ⟨hp, hnil⟩
    have hle1 : ∀ t, (x.icache t).ref ≤ bump r s t := fun t =>
      (hle t).trans (by exact_mod_cast le_bump)
    have hlook := h1.dirlookup hx hle1 bump_pos hv hdir name
    refine (hlook.mono (fun _ _ hQ => hQ) ?_).bind ?_
    · rintro _ ⟨j, hj, hno⟩ hc
      exact hno ((h1.hasRoom hr).mpr (hc.2 hmore j hj).1)
    · intro o y2 ho
      cases o with
      | none =>
        obtain ⟨rfl, hnone⟩ := ho
        rw [hdest, hnone]
        refine (h1.giveUp hx hle).imp fun _ _ hQ => ⟨⟨halloc, fun _ j hj => ?_⟩, hQ⟩
        cases hnone.symm.trans hj
      | some v =>
        obtain ⟨h2, hchild, hroom⟩ := ho
        rw [h1.hasRoom hr] at hroom
        rw [bump_comm] at h2
        have hle2 : ∀ t, (x.icache t).ref ≤ bump r v.1 t := fun t =>
          (hle t).trans (by exact_mod_cast le_bump)
        refine ((h2.iput hx hle2).of_safe fun _ _ hQ => hQ).bind ?_
        rintro _ y3 ⟨h3, hsame3⟩
        have hnext := ih h3
        rw [hsame3] at hnext
        have hclear : Clear x nameiparent (name :: rest) (y1.icache s).inum ↔
            Clear x nameiparent rest (y2.icache v.1).inum := by
          refine ⟨fun hc => (hc.2 hmore _ hchild).2, fun hc => ⟨halloc, fun _ j hj => ?_⟩⟩
          obtain rfl := Option.some.inj (hchild.symm.trans hj)
          exact ⟨hroom, hc⟩
        rw [hclear, hdest, hchild]
        exact hnext

/-- The inode a path starts from. -/
def startInum (x : Fs) (cwd : Fin ninode) (path : List Byte) : Nat :=
  if path.head? = some 47#8 then rootIno else (x.icache cwd).inum

/-- Nothing on the way of a path makes `namex` panic. -/
def PathClear (x : Fs) (cwd : Fin ninode) (path : List Byte) (nameiparent : Bool) : Prop :=
  (path.head? = some 47#8 → x.HasRoom rootIno) ∧
    Clear x nameiparent (components path) (startInum x cwd path)

/-- How `namex` is to return: it has arrived where the path leads, with one reference more to
the inode it returns, and no other change to the references or the disk. -/
def PathResolved (x : Fs) (cwd : Fin ninode) (path : List Byte) (nameiparent : Bool)
    (o : Option (Fin ninode × List Byte)) (z : Fs) : Prop :=
  o.map (fun v => ((z.icache v.1).inum, v.2)) =
    destination x.disk nameiparent (components path) (startInum x cwd path) ∧
  (∀ s, (z.icache s).ref = (x.icache s).ref + if o.map Prod.fst = some s then 1 else 0) ∧
  z.disk = x.disk

omit [Devsw] in
theorem Arrived.resolved {cwd : Fin ninode} {path : List Byte} {nameiparent : Bool}
    {o : Option (Fin ninode × List Byte)} {z : Fs} (hr : ∀ s, (x.icache s).ref = r s)
    (h : Arrived x r
      (destination x.disk nameiparent (components path) (startInum x cwd path)) o z) :
    PathResolved x cwd path nameiparent o z := by
  refine ⟨h.2, fun s => ?_, h.1.disk⟩
  rw [h.1.ref, hr s]
  cases o with
  | none => simp [plus]
  | some v =>
    show ((bump _ v.1 s : Nat) : Int) = _
    rw [bump_apply]
    by_cases hs : s = v.1
    · simp [hs]
    · simp [hs, Ne.symm hs]

theorem namex_resolves {cwd : Fin ninode} (hx : x.Consistent) (hcwd : 0 < (x.icache cwd).ref)
    (path : List Byte) (nameiparent : Bool) :
    Ends (Inodes.namex cwd path nameiparent) x
      (fun o z => PathClear x cwd path nameiparent ∧ PathResolved x cwd path nameiparent o z)
      (fun _ => ¬ PathClear x cwd path nameiparent) := by
  have hr : ∀ s, (x.icache s).ref = ((x.icache s).ref.toNat : Nat) := fun s =>
    (Int.toNat_of_nonneg (hx.ok.cache.ref s)).symm
  have hstart : Later x (fun s => (x.icache s).ref.toNat) x := ⟨hx.ok, rfl, hr, fun _ _ => rfl⟩
  rw [Inodes.namex, elems_eq_components, ends_ite]
  refine ⟨fun habs => ?_, fun hrel => ?_⟩
  · have hfrom : startInum x cwd path = rootIno := if_pos habs
    have hroot := hstart.iget (fun s => (hr s).le) hx.root
    refine (hroot.mono (fun _ _ hQ => hQ) fun _ he hc => he (hc.1 habs)).bind ?_
    rintro ip y ⟨hy, hi, hroom⟩
    refine (walk_arrives hx hr nameiparent hy).mono ?_ ?_
    · intro o z hz
      rw [hi, ← hfrom] at hz
      exact ⟨⟨fun _ => hroom, hz.1⟩, hz.2.resolved hr⟩
    · intro _ he hc
      rw [hi, ← hfrom] at he
      exact he hc.2
  · have hfrom : startInum x cwd path = (x.icache cwd).inum := if_neg hrel
    have hdup := hstart.idup (s := cwd) (by have := hr cwd; omega)
    refine (hdup.of_safe fun _ _ hQ => hQ).bind ?_
    rintro _ y ⟨hy, hi⟩
    refine (walk_arrives hx hr nameiparent hy).mono ?_ ?_
    · intro o z hz
      rw [hi, ← hfrom] at hz
      exact ⟨⟨fun habs => absurd habs hrel, hz.1⟩, hz.2.resolved hr⟩
    · intro _ he hc
      rw [hi, ← hfrom] at he
      exact he hc.2

/-- `skipelem` takes the elements off a path. `namex` returns what they lead to exactly if
nothing on the way makes it panic. -/
theorem path_resolution_iff {cwd : Fin ninode} (hx : x.Consistent) (hcwd : 0 < (x.icache cwd).ref)
    (path : List Byte) (nameiparent : Bool) :
    Yields path (components path) ∧
      (Ends (Inodes.namex cwd path nameiparent) x (PathResolved x cwd path nameiparent) ↔
        PathClear x cwd path nameiparent) := by
  have hspec := namex_resolves hx hcwd path nameiparent
  refine ⟨yields_components path, fun hends => ?_, fun hclear => ?_⟩
  · obtain ⟨_, _, -, hQ⟩ := ((hspec.and hends).mono (fun _ _ hQ => hQ) fun _ hE => hE.2).exists_ok
    exact hQ.1.1
  · exact hspec.mono (fun _ _ hQ => hQ.2) fun _ hE => absurd hclear hE

end

/-! ### An image with one directory -/

theorem oneDir_consistent :
    let _ : Superblock := Superblock.mkfs
    (oneEntry (oneFile tDir) 1).Consistent := by
  intro _
  have hip : ∀ {i}, i < ninodes → dinode (oneFile tDir) i =
      if i = 1 then .empty tDir 1 else .empty 0 0 := fun hi => dinode_oneFile tDir hi
  have honly : ∀ {i}, i < ninodes → (dinode (oneFile tDir) i).type ≠ 0#16 → i = 1 := by
    intro i hi ht
    by_contra hne
    rw [hip hi, if_neg hne] at ht
    exact ht rfl
  refine ⟨oneFile_ok (by decide), by decide, fun {i} hi ht => ?_, fun {i j name} hi hc => ?_,
    fun {i} hi ht hn => ?_⟩
  · have h1 : i = 1 := honly hi (by
      rw [show (dinode (oneFile tDir) i).type = tDir from ht]
      decide)
    rw [h1]
    exact oneFile_holds.dir
  · -- there are no entries
    have hnone : child (oneFile tDir) i name = none := by
      by_cases ht : (dinode (oneFile tDir) i).type = tDir
      · have h1 : i = 1 := honly hi (by rw [ht]; decide)
        rw [child, if_pos ht, h1, oneFile_holds.lookup]
        rfl
      · exact child_of_not_dir ht
    exact absurd (hnone.symm.trans hc) nofun
  · have h1 : i = 1 := honly hi ht
    rw [h1] at hn
    rw [show (dinode (oneEntry (oneFile tDir) 1).disk 1) = .empty tDir 1 from hip (by decide)] at hn
    exact absurd hn (by decide)

/-- `nameiparent("//a/")` is the root and `a`. -/
theorem path_resolution_parent :
    let _ : Superblock := Superblock.mkfs
    let _ : Devsw := Devsw.none
    let x := oneEntry (oneFile tDir) 1
    x.Consistent ∧ 0 < (x.icache firstEntry).ref ∧ components [47, 47, 97, 47] = [[97]] ∧
      destination x.disk true [[97]] 1 = some (1, [97]) ∧
      Ends (Inodes.namex firstEntry [47, 47, 97, 47] true) x
        (PathResolved x firstEntry [47, 47, 97, 47] true) := by
  intro _ _ x
  have hcwd : 0 < (x.icache firstEntry).ref := by
    rw [oneEntry_first]
    decide
  have hcomp : components [47, 47, 97, 47] = [[97]] := by decide
  have hdir : (dinode x.disk 1).type = tDir := oneFile_holds.dir.type
  have hclear : PathClear x firstEntry [47, 47, 97, 47] true := by
    refine ⟨fun _ => .inl ⟨firstEntry, hcwd, ?_⟩, ?_⟩
    · rw [oneEntry_first]
      rfl
    · rw [hcomp, show startInum x firstEntry [47, 47, 97, 47] = 1 from rfl]
      exact ⟨by rw [hdir]; decide, fun hmore => absurd ⟨rfl, rfl⟩ hmore⟩
  exact ⟨oneDir_consistent, hcwd, hcomp, followParent_last hdir,
    (path_resolution_iff oneDir_consistent hcwd _ _).2.mpr hclear⟩

/-! ### A directory that lost its parent

`mkdir a; mkdir a/b; chdir a/b; unlink /a/b; unlink /a` leaves the process in a directory
without a name whose `..` leads to a free inode. -/

/-- The image with the root, and a directory without a name that is still empty. -/
def orphan : Disk :=
  let _ : Superblock := Superblock.mkfs
  putDinode (oneFile tDir) 2 (.empty tDir 0)

theorem dinode_orphan {i : Nat} (hi : i < 200) :
    let _ : Superblock := Superblock.mkfs
    dinode orphan i =
      if i = 2 then .empty tDir 0 else if i = 1 then .empty tDir 1 else .empty 0 0 := by
  intro _
  rw [orphan, dinode_putDinode, dinode_oneFile tDir hi]

theorem orphan_ownership :
    let _ : Superblock := Superblock.mkfs
    Ownership orphan ∧ Reserved orphan := by
  intro _
  have hfree : (dinode (oneFile tDir) 2).type = 0#16 := by
    rw [dinode_oneFile tDir (by decide)]
    rfl
  exact ⟨(oneFile_ownership tDir).putEmpty (by decide) hfree _ _,
    Reserved.putDinode (oneFile_inv tDir).sound.reserved (by decide)⟩

theorem orphan_empty {i : Nat} (hi : i = 1 ∨ i = 2) :
    let _ : Superblock := Superblock.mkfs
    (dinode orphan i).type = tDir ∧ content orphan i = [] := by
  intro _
  have hip : (dinode orphan i).type = tDir ∧ (dinode orphan i).size = 0#32 := by
    rw [dinode_orphan (by omega)]
    rcases hi with rfl | rfl <;> exact ⟨rfl, rfl⟩
  refine ⟨hip.1, List.eq_nil_of_length_eq_zero ?_⟩
  rw [length_content, hip.2]
  rfl

theorem orphan_holds :
    let _ : Superblock := Superblock.mkfs
    Holds orphan 2 fun _ => none := by
  intro _
  obtain ⟨hown, hres⟩ := orphan_ownership
  obtain ⟨ht, hnil⟩ := orphan_empty (.inr rfl)
  exact .empty ⟨⟨hown.owned, hres⟩, hown.filled⟩ (by decide) ht hnil

theorem orphan_fits :
    let _ : Superblock := Superblock.mkfs
    Fits orphan 2 0 := by
  intro _
  refine ⟨by decide, ?_⟩
  have hlack : (lock orphan 2).lack (rangeNeeds 0 direntSize) ⊆ {0} :=
    (Finset.filter_subset _ _).trans (by decide)
  have hbit : bit (oneFile tDir) 59 = false := by
    show testBit (oneFile 0 58) 59 = false
    decide +kernel
  have hfree : 59 ∈ (lock orphan 2).free := by
    refine Finset.mem_filter.mpr ⟨Finset.mem_range.mpr (by decide), ?_⟩
    show bit orphan 59 = false
    rw [orphan, bit_putDinode (by decide), hbit]
  exact le_trans (Finset.card_le_card hlack) (Finset.card_pos.mpr ⟨59, hfree⟩)

/-- The entry `..` is written: it leads to inode 3, which is free. -/
theorem orphan_written :
    let _ : Superblock := Superblock.mkfs
    ∃ d, Written orphan d 2 0 (Dirent.toBytes ⟨3, strncpy dotdot dirsiz⟩) := by
  intro _
  let _ : Devsw := Devsw.none
  have hold := orphan_holds
  have hde : (Dirent.mk 3 (strncpy dotdot dirsiz)).name.length = dirsiz := length_strncpy _ dotdot
  have hspec := writeDirent_spec hold.inv hold.dir .dirlink (m := 0) (Nat.zero_le _) hde
  obtain ⟨_, v, -, -, hw⟩ :=
    (hspec.mono (fun _ _ hQ => hQ) fun _ he => he orphan_fits).exists_ok
  exact ⟨v.disk, by simpa using hw⟩

/-- The directory without a name has one entry, and a process is in it. -/
theorem orphan_consistent {d : Disk} :
    let _ : Superblock := Superblock.mkfs
    Written orphan d 2 0 (Dirent.toBytes ⟨3, strncpy dotdot dirsiz⟩) →
      (oneEntry d 2).Consistent ∧ child d 2 dotdot = some 3 ∧ dinode d 3 = .empty 0 0 := by
  intro _ hw
  have hold := orphan_holds
  obtain ⟨hown, -⟩ := orphan_ownership
  have htable : dirTable d 2 = [some (dotdot, 3)] := by
    have hput := dirTable_written (m := 0) hold.dir (Nat.zero_le _) (length_strncpy ..)
      (by simpa using hw)
    rw [hput, dirTable, (orphan_empty (.inr rfl)).2]
    decide
  have htype : (dinode d 2).type = tDir ∧ (dinode d 2).nlink = 0#16 := by
    rw [hw.inode, dinode_orphan (by decide)]
    exact ⟨rfl, rfl⟩
  have hother : ∀ {i}, i < 200 → i ≠ 2 →
      dinode d i = if i = 1 then .empty tDir 1 else .empty 0 0 := by
    intro i hi hne
    rw [(hw.others hi hne).1, dinode_orphan hi, if_neg hne]
  -- the only inodes in use are the root and the directory
  have honly : ∀ {i}, i < 200 → (dinode d i).type ≠ 0#16 → i = 1 ∨ i = 2 := by
    intro i hi ht
    by_contra hne
    rw [not_or] at hne
    rw [hother hi hne.2, if_neg hne.1] at ht
    exact ht rfl
  have hroot : Holds d 1 fun _ => none := by
    refine .empty hw.inv (by decide) ?_ ?_
    · rw [hother (by decide) (by decide)]
      rfl
    · rw [(hw.others (by decide) (by decide)).2]
      exact (orphan_empty (.inl rfl)).2
  have hsingle : ∀ {n k v}, (dirTable d 2).At n k v → n = 0 ∧ v = 3#16 := by
    intro n k v hat
    have h0 : n = 0 := by
      have := hat.lt
      rw [htable] at this
      simpa using this
    subst h0
    rw [htable] at hat
    have he := Option.some.inj (Option.some.inj (hat : some (some (dotdot, 3#16)) = _))
    exact ⟨rfl, (congrArg Prod.snd he).symm⟩
  have hdir : IsDir d 2 := by
    refine hold.dir.written (m := 0) (length_strncpy ..) (by simpa using hw) ?_
    intro m n k v w hm hn
    rw [(hsingle hm).1, (hsingle hn).1]
  have hcache := oneEntry_cache (d := d) (i := 2) (by decide) (by rw [htype.1]; decide)
  refine ⟨⟨⟨hown.written hw, hw.inv.sound.reserved, hcache.1, hcache.2⟩, by decide, ?_, ?_, ?_⟩,
    ?_, hother (by decide) (by decide)⟩
  · intro i hi ht
    have ht : (dinode d i).type = tDir := ht
    rcases honly hi (by rw [ht]; decide) with rfl | rfl
    · exact hroot.dir
    · exact hdir
  · intro i j name hi hc
    have hc : child d i name = some j := hc
    by_cases ht : (dinode d i).type = tDir
    · rw [child, if_pos ht] at hc
      obtain ⟨v, hv, rfl⟩ := Option.map_eq_some_iff.mp hc
      rcases honly hi (by rw [ht]; decide) with rfl | rfl
      · rw [hroot.lookup] at hv
        cases hv
      · rw [(hsingle (Table.at_place_of_lookup hv)).2]
        decide
    · rw [child_of_not_dir ht] at hc
      cases hc
  · intro i hi ht hn
    rcases honly hi ht with rfl | rfl
    · have hn : (dinode d 1).nlink = 0#16 := hn
      rw [hother (by decide) (by decide)] at hn
      exact absurd hn (by decide)
    · exact ⟨firstEntry, by rw [oneEntry_first]; exact Int.one_pos, by rw [oneEntry_first]⟩
  · rw [child, if_pos htype.1, htable]
    decide

/-- `namei("../x")` in such a directory panics. The path leads nowhere, since inode 3 is no
directory, so it should return 0. -/
theorem removed_parent_panics :
    let _ : Superblock := Superblock.mkfs
    let _ : Devsw := Devsw.none
    ∃ x : Fs, x.Consistent ∧ 0 < (x.icache firstEntry).ref ∧
      follow x.disk [dotdot] (x.icache firstEntry).inum = some 3 ∧
      destination x.disk false (components [46, 46, 47, 120]) (x.icache firstEntry).inum = none ∧
      ∃ e, (Inodes.namex firstEntry [46, 46, 47, 120] false).run x = .error e := by
  intro _ _
  obtain ⟨d, hw⟩ := orphan_written
  obtain ⟨hx, hchild, hfree⟩ := orphan_consistent hw
  have hcwd : 0 < ((oneEntry d 2).icache firstEntry).ref := by
    rw [oneEntry_first]
    exact Int.one_pos
  have hinum : ((oneEntry d 2).icache firstEntry).inum = 2 := by rw [oneEntry_first]
  have hcomp : components [46, 46, 47, 120] = [dotdot, [120]] := by decide
  have hnot : child d 3 [120] = none := child_of_not_dir (by rw [hfree]; decide)
  have hspec := namex_resolves hx hcwd [46, 46, 47, 120] false
  have hpanic : ¬ PathClear (oneEntry d 2) firstEntry [46, 46, 47, 120] false := by
    rintro ⟨-, hclear⟩
    rw [hcomp, show startInum (oneEntry d 2) firstEntry [46, 46, 47, 120] = 2 from hinum] at hclear
    have := ((hclear.2 (by decide)) 3 hchild).2.1
    exact this (by rw [show dinode (oneEntry d 2).disk 3 = _ from hfree]; rfl)
  obtain ⟨e, he, -⟩ := (hspec.imp fun _ _ hQ => hpanic hQ.1).exists_error
  refine ⟨oneEntry d 2, hx, hcwd, ?_, ?_, e, he⟩
  · rw [hinum, follow_cons, show child (oneEntry d 2).disk 2 dotdot = some 3 from hchild]
    rfl
  · rw [hinum, hcomp]
    show (follow d [dotdot, [120]] 2).map _ = none
    rw [follow_cons, hchild, Option.bind_some, follow_cons, hnot]
    rfl

end Xv6
