import Xv6.Boot

/-!
# Xv6.ExecCommit

What a caller of `exec` sees.

`exec` builds the new address space beside the old one and switches at the end, so a failure at
any point before leaves the process as it was. The header fields come from the file and can be
anything; what they lead to is decided by a few checks, and the rest of the argument is that the
directory being built is a `Program` throughout (`Xv6.Aspace.Exec`).

The arguments are copied from the top of the stack page downwards. Nothing checks that they fit:
a copy that runs below the stack page meets the guard page, which is not for the user, and
`copyout` refuses it.
-/

namespace Xv6

/-! ### Segments in memory -/

/-- The parts of the segments that come from the file do not overlap. -/
def SegmentsApart (segs : List Proghdr) : Prop :=
  segs.Pairwise fun a b => a.vaddr + a.filesz ≤ b.vaddr ∨ b.vaddr + b.filesz ≤ a.vaddr

/-- Address `a` is in the part of a segment that comes from the file. -/
def Proghdr.Covers (ph : Proghdr) (a : Nat) : Prop := ph.vaddr ≤ a ∧ a < ph.vaddr + ph.filesz

section
variable {file : List Byte} {mem : Nat → Byte} {segs : List Proghdr} {ph : Proghdr} {a : Nat}

theorem loadSegments_of_not (hlen : ∀ ph ∈ segs, (ph.bytes file).length = ph.filesz)
    (h : ∀ ph ∈ segs, ¬ ph.Covers a) : loadSegments file mem segs a = mem a := by
  induction segs generalizing mem with
  | nil => rfl
  | cons ph segs ih =>
    rw [loadSegments, List.foldl_cons]
    refine (ih (fun x hx => hlen x (List.mem_cons_of_mem _ hx))
      fun x hx => h x (List.mem_cons_of_mem _ hx)).trans (overwrite_of_not ?_)
    rw [hlen ph List.mem_cons_self]
    exact h ph List.mem_cons_self

/-- Segments that do not overlap are all there in the end. -/
theorem loadSegments_of_mem {j : Nat} (hlen : ∀ ph ∈ segs, (ph.bytes file).length = ph.filesz)
    (hdisj : SegmentsApart segs) (hph : ph ∈ segs) (hj : j < ph.filesz) :
    loadSegments file mem segs (ph.vaddr + j) = (ph.bytes file).getD j 0 := by
  induction segs generalizing mem with
  | nil => exact absurd hph List.not_mem_nil
  | cons p segs ih =>
    obtain ⟨hp, hrest⟩ := List.pairwise_cons.mp hdisj
    have hlen' : ∀ x ∈ segs, (x.bytes file).length = x.filesz :=
      fun x hx => hlen x (List.mem_cons_of_mem _ hx)
    rw [loadSegments, List.foldl_cons]
    rcases List.mem_cons.mp hph with rfl | hin
    · -- the later segments do not touch this one
      refine (loadSegments_of_not hlen' fun x hx hc => ?_).trans (overwrite_of_lt ?_)
      · have := hp x hx
        unfold Proghdr.Covers at hc
        omega
      · rw [hlen ph List.mem_cons_self]
        exact hj
    · exact ih hlen' hrest hin

theorem Proghdr.bytes_getD {j : Nat} (hlen : (ph.bytes file).length = ph.filesz)
    (hj : j < ph.filesz) :
    ph.off + j < file.length ∧ (ph.bytes file).getD j 0 = file.getD (ph.off + j) 0 := by
  have hin : ph.off + j < file.length := by
    rw [Proghdr.bytes, List.length_take, List.length_drop] at hlen
    omega
  refine ⟨hin, ?_⟩
  rw [Proghdr.bytes, List.getD_eq_getElem?_getD, List.getElem?_take_of_lt hj, List.getElem?_drop,
    ← List.getD_eq_getElem?_getD]

end

/-! ### The new address space -/

section
variable [Layout] {man : Nat → Prop} {s : Sys} {i : Fin nproc} {k' : Kmem} {c c' : ExecProc}

/-- What `exec` of `file` has done when it returns 0. The part of the segments that the file
provides is described for files whose size is a `uint`. -/
structure Committed (file : List Byte) (k k' : Kmem) (c c' : ExecProc) : Prop where
  size : c'.proc.sz % 4096 = 0 ∧ 8192 ≤ c'.proc.sz ∧ c'.proc.sz ≤ kernbase
  mapped : ∀ v, v * 4096 < c'.proc.sz → ∃ e pg, (aspace k' c'.proc).page v = some (e, pg) ∧
    k'.refcnt (pteFrame e) = 1 ∧ (has e .u = true ↔ v * 4096 ≠ c'.proc.sz - 8192)
  unmapped : ∀ v, c'.proc.sz ≤ v * 4096 → (aspace k' c'.proc).page v = none
  segments : file.length < 2 ^ 32 → SegmentsApart (elfSegments file (file.take 52)) →
    ∀ ph ∈ elfSegments file (file.take 52), ∀ j < ph.filesz,
      ph.vaddr + ph.memsz ≤ c'.proc.sz - 8192 ∧ ph.off + j < file.length ∧
      (aspace k' c'.proc).byteAt (ph.vaddr + j) = file.getD (ph.off + j) 0
  zeros : file.length < 2 ^ 32 → ∀ a < c'.proc.sz - 8192,
    (∀ ph ∈ elfSegments file (file.take 52), ¬ ph.Covers a) → (aspace k' c'.proc).byteAt a = 0#8
  noRegions : ∀ j, (c'.proc.vmas j).used = false
  dropped : ∀ v < nupages, ∀ f, userRef k (c.proc.pgdir, v) = some f →
    k'.refcnt f + ((Finset.range nupages).filter fun v => userRef k (c.proc.pgdir, v) =
      some f).card = k.refcnt f

/-- The bytes and pages of a new image as the process sees them. -/
theorem NewImage.committed {file : List Byte} {argv : List (List Byte)} {k : Kmem}
    {dirs kp : Finset Nat} {sp g : Nat} {mem : Nat → Byte} {ptrs : List Nat}
    (h : Inv man dirs kp k')
    (hd : c'.proc.pgdir ∈ dirs)
    (him : NewImage file (file.take 52) argv k' c'.proc.pgdir c'.proc.sz sp g mem ptrs)
    (hvmas : c'.proc.vmas = fun _ => Vma.empty)
    (hdropped : ∀ v < nupages, ∀ f, userRef k (c.proc.pgdir, v) = some f →
      k'.refcnt f + ((Finset.range nupages).filter fun v => userRef k (c.proc.pgdir, v) =
        some f).card = k.refcnt f) : Committed file k k' c c' := by
  have hsize := him.size
  have hguard : c'.proc.sz - 8192 = g * 4096 := by omega
  have hbyte : (aspace k' c'.proc).byteAt = mem := him.program.bytes
  constructor
  · exact ⟨by omega, by omega, him.below⟩
  · intro v hv
    obtain ⟨e, pg, hpage, hw, -⟩ := him.program.image.present v hv
    obtain ⟨hvn, hup⟩ := upages_eq_some.mp hpage
    obtain ⟨hp, rfl, -⟩ := upage_eq_some.mp hup
    refine ⟨_, pg, hpage, h.excl _ hd v hvn hp hw, ?_⟩
    have huser := him.program.user v _ pg hpage
    rw [Option.some.injEq] at huser
    rw [hguard, ← Bool.not_eq_false, huser]
    omega
  · exact him.program.image.absent
  · intro hfile hdisj ph hph j hj
    obtain ⟨hlen, hload⟩ := him.loaded hfile
    have hfits := him.fits ph hph
    obtain ⟨hin, hget⟩ := Proghdr.bytes_getD (hlen ph hph) hj
    have hle := hfits.filesz_le
    have hinside := hfits.inside
    refine ⟨by omega, hin, ?_⟩
    rw [hbyte, hload _ (by omega), loadSegments_of_mem hlen hdisj hph hj, hget]
  · intro hfile a ha hno
    obtain ⟨hlen, hload⟩ := him.loaded hfile
    rw [hbyte, hload a (by omega), loadSegments_of_not hlen hno]
  · intro j
    rw [hvmas]
    rfl
  · exact hdropped

/-- `exec` of an executable file returns 0 while there are frames enough. -/
theorem exec_zero {file : List Byte} {argv : List (List Byte)} {top : Nat} (h : SysInv man s)
    (hi : (s.pt.proc i).live) (hx : Executable file argv top)
    (hfree : execFrames file top ≤ s.k.freelist.length) (path name : List Byte) (eip esp : Nat) :
    Ends (exec (some file) path argv ⟨s.pt.proc i, name, eip, esp⟩) s.k (fun r _ => r.1 = 0) := by
  refine (exec_spec h.mem hi.dir).imp ?_
  rintro r k' (⟨-, -, -, hwhy⟩ | _)
  · exact absurd (hwhy file top rfl hx) (by omega)
  · rfl

/-- `exec` does not panic. When it returns -1, the process and all memory that anyone can see
are as before, and no frame is lost; when it returns 0, the process has the new address space.
The other processes keep theirs in both cases. -/
theorem exec_atomic (h : SysInv man s) (hi : (s.pt.proc i).live) (ip : Option (List Byte))
    (path : List Byte) (argv : List (List Byte)) (name : List Byte) (eip esp : Nat) :
    Ends (exec ip path argv ⟨s.pt.proc i, name, eip, esp⟩) s.k
      (fun r k' => (∀ j, (s.pt.proc j).live → j ≠ i → aspace k' (s.pt.proc j) = s.aspace j) ∧
        ((r = (-1, ⟨s.pt.proc i, name, eip, esp⟩) ∧ aspace k' (s.pt.proc i) = s.aspace i ∧
            (∀ f, k'.refcnt f = s.k.refcnt f) ∧ ∀ f, f ∈ k'.freelist ↔ f ∈ s.k.freelist) ∨
          (r.1 = 0 ∧ ∃ file, ip = some file ∧
            Committed file s.k k' ⟨s.pt.proc i, name, eip, esp⟩ r.2))) := by
  have hdi := hi.dir
  refine (exec_spec h.mem hdi).imp ?_
  intro r k' hend
  cases hend with
  | fail hinv hpages hapart _ =>
    have hsame : ∀ j, (s.pt.proc j).live → aspace k' (s.pt.proc j) = s.aspace j := by
      intro j hj
      rw [Sys.aspace, aspace, aspace, hpages _ hj.dir]
    obtain ⟨hcount, hfree⟩ := h.mem.counts_eq hinv hapart
      fun d hd v hv => userRef_congr (hpages d hd) hv
    exact ⟨fun j hj _ => hsame j hj, .inl ⟨rfl, hsame i hi, hcount, hfree⟩⟩
  | @done _ file elf d sz sp g mem ptrs hip helf hmagic hnew hkp hinv himage hpages hfresh hapart =>
    subst helf
    refine ⟨fun j hj hne => ?_, .inr ⟨rfl, file, hip, ?_⟩⟩
    · have hdir : (s.pt.proc j).pgdir ≠ (s.pt.proc i).pgdir :=
        fun hc => hne (h.pt.dir_inj j i hj hi hc)
      rw [Sys.aspace, aspace, aspace,
        hpages _ (Finset.mem_erase.mpr ⟨hdir, hj.dir⟩)]
    · refine NewImage.committed hinv (Finset.mem_insert_self _ _) himage rfl ?_
      intro v hv f hf
      -- a frame of the old space is neither in the new one nor a page table
      obtain ⟨hman, hown⟩ := h.mem.ledger.ref_man _ (mem_userSlots.mpr ⟨hdi, hv⟩) f hf
      obtain ⟨hnot, hown'⟩ := hfresh _ hdi v hv f hf
      exact h.mem.refcnt_replace hinv hdi hman hown hown'
        (fun d1 hd1 v hv => userRef_congr (hpages d1 hd1) hv) hnot

end

/-- A program of one segment, an instruction that jumps to itself. -/
def loopElf : List Byte :=
  [0x7f#8, 0x45#8, 0x4c#8, 0x46#8] ++ List.replicate 24 0#8 ++ 52#8 :: List.replicate 15 0#8 ++
    1#8 :: List.replicate 7 0#8 ++
    1#8 :: List.replicate 3 0#8 ++ 84#8 :: List.replicate 11 0#8 ++ 2#8 :: List.replicate 3 0#8 ++
    2#8 :: List.replicate 11 0#8 ++ [0xeb#8, 0xfe#8]

theorem loopElf_segments : elfSegments loopElf (loopElf.take 52) = [⟨1, 84, 0, 2, 2⟩] := rfl

theorem loopElf_executable (argv : List (List Byte)) (hargs : argv.length ≤ maxArg)
    (hsize : argSize argv ≤ 4096) : Executable loopElf argv 2 := by
  refine ⟨⟨by decide, by decide⟩, rfl, ⟨by decide, by decide⟩, fun ph hph => ?_, by decide,
    hargs, hsize⟩
  rw [loopElf_segments, List.mem_singleton] at hph
  subst hph
  exact ⟨le_rfl, by decide, le_rfl, rfl, by decide, by decide⟩

/-- The first process of the sample kernel runs it, and finds the instruction at address 0. -/
theorem exec_atomic_loop : let _ : Layout := Layout.sample
    ∃ (s : Sys) (k' : Kmem) (c' : ExecProc), Booted s ∧
      (exec (some loopElf) [] [] ⟨s.pt.proc initSlot, [], 0, 0⟩).run s.k = .ok ((0, c'), k') ∧
      Committed loopElf s.k k' ⟨s.pt.proc initSlot, [], 0, 0⟩ c' ∧
      (aspace k' c'.proc).byteAt 0 = 0xeb#8 := by
  let _ : Layout := Layout.sample
  obtain ⟨s, hb⟩ := sample_boots
  obtain ⟨man, h⟩ := hb.ok
  have hl := h.alive.live
  have hzero := exec_zero h.inv hl (loopElf_executable [] (by decide) (by decide))
    (le_trans (by decide) h.free) [] [] 0 0
  obtain ⟨⟨r, c'⟩, k', hrun, rfl⟩ := hzero.exists_ok
  obtain ⟨-, ⟨hr, -⟩ | ⟨-, file, hfile, hc⟩⟩ :=
    (exec_atomic h.inv hl (some loopElf) [] [] [] 0 0).of_ok hrun
  · exact absurd hr (by simp)
  · obtain rfl : loopElf = file := Option.some.inj hfile
    refine ⟨s, k', c', hb, hrun, hc, ?_⟩
    have hsegs := hc.segments (by decide)
    rw [loopElf_segments] at hsegs
    exact (hsegs ( List.pairwise_singleton ..) _ (List.mem_singleton_self _) 0 (by decide)).2.2

/-! ### The arguments -/

/-- The little-endian word at address `a`. -/
def wordAt (mem : Nat → Byte) (a : Nat) : Nat :=
  getLe [mem a, mem (a + 1), mem (a + 2), mem (a + 3)] 0 4

/-- The bytes `bs` and a zero are at address `a`. -/
def StringAt (mem : Nat → Byte) (a : Nat) (bs : List Byte) : Prop :=
  ∀ j ≤ bs.length, mem (a + j) = (bs ++ [0#8]).getD j 0

section
variable {mem : Nat → Byte} {lo hi sp sp' : Nat} {argv : List (List Byte)} {ptrs : List Nat}

theorem getLe_putLe (n : Nat) (hn : n < 2 ^ 32) : getLe (putLe n) 0 4 = n := by
  simp only [getLe, putLe, List.map_cons, List.map_nil, List.drop_zero, List.take_succ_cons,
    List.take_zero, List.foldr_cons, List.foldr_nil, wordByte,
    BitVec.extractLsb'_toNat, BitVec.toNat_ofNat, Nat.shiftRight_eq_div_pow]
  omega

theorem flatMap_putLe_getD (ws : List Nat) {n j : Nat} (hn : n < ws.length) (hj : j < 4) :
    (ws.flatMap putLe).getD (4 * n + j) 0 = (putLe (ws.getD n 0)).getD j 0 := by
  induction ws generalizing n with
  | nil => exact absurd hn (Nat.not_lt_zero n)
  | cons w ws ih =>
    have hlen : (putLe w).length = 4 := rfl
    rw [List.flatMap_cons]
    cases n with
    | zero =>
      rw [Nat.mul_zero, Nat.zero_add, List.getD_append _ _ _ _ (by rw [hlen]; exact hj)]
      rfl
    | succ n =>
      rw [List.getD_append_right _ _ _ _ (by rw [hlen]; omega), hlen,
        show 4 * (n + 1) + j - 4 = 4 * n + j by omega, ih (by simpa using hn)]
      rfl

theorem ArgBlock.word {n : Nat} (h : ArgBlock mem lo hi sp argv ptrs)
    (hlen : ptrs.length = argv.length) (hn : n < argv.length + 4)
    (hlt : (argWords sp argv ptrs).getD n 0 < 2 ^ 32) :
    wordAt mem (sp + 4 * n) = (argWords sp argv ptrs).getD n 0 := by
  have hws : (argWords sp argv ptrs).length = argv.length + 4 := by
    simp only [argWords, List.length_append, List.length_cons, List.length_nil, hlen]
    omega
  have hbyte : ∀ j < 4, mem (sp + 4 * n + j) =
      (putLe ((argWords sp argv ptrs).getD n 0)).getD j 0 := by
    intro j hj
    rw [Nat.add_assoc, h.words _ (by omega), flatMap_putLe_getD _ (by omega) hj]
  have h0 := hbyte 0 (by decide)
  rw [Nat.add_zero] at h0
  rw [wordAt, h0, hbyte 1 (by decide), hbyte 2 (by decide), hbyte 3 (by decide)]
  exact getLe_putLe _ hlt

theorem Pushed.strings (h : Pushed lo mem argv sp ptrs sp') (hsp : lo ≤ sp) :
    ptrs.length = argv.length ∧
    (∀ x ∈ argv.zip ptrs, StringAt mem x.2 x.1 ∧ sp' ≤ x.2 ∧ x.2 + x.1.length + 1 ≤ sp) ∧
    (argv.zip ptrs).Pairwise fun x y => y.2 + y.1.length + 1 ≤ x.2 := by
  induction h with
  | nil => exact ⟨rfl, fun x hx => absurd hx List.not_mem_nil, List.Pairwise.nil⟩
  | @cons arg argv sp sp' ptrs hle hlo hstr hrest ih =>
    obtain ⟨hlen, hin, hpair⟩ := ih hlo
    have hb := hrest.bounds hlo
    refine ⟨by rw [List.length_cons, List.length_cons, hlen], fun x hx => ?_, ?_⟩
    · rcases List.mem_cons.mp hx with rfl | hx
      · exact ⟨hstr, hb.2, by dsimp only; omega⟩
      · obtain ⟨hs, hlow, hhigh⟩ := hin x hx
        exact ⟨hs, hlow, by omega⟩
    · exact List.pairwise_cons.mpr ⟨fun y hy => (hin y hy).2.2, hpair⟩

/-- The argument block as a program finds it. -/
structure Arguments (mem : Nat → Byte) (sz esp : Nat) (argv : List (List Byte))
    (ptrs : List Nat) : Prop where
  returnAddr : wordAt mem esp = 0xffffffff
  argc : wordAt mem (esp + 4) = argv.length
  argvPtr : wordAt mem (esp + 8) = esp + 12
  pointers : ptrs.length = argv.length ∧
    ∀ n < argv.length, wordAt mem (esp + 12 + 4 * n) = ptrs.getD n 0
  last : wordAt mem (esp + 12 + 4 * argv.length) = 0
  strings : ∀ x ∈ argv.zip ptrs, StringAt mem x.2 x.1
  low : sz - 4096 ≤ esp
  above : ∀ x ∈ argv.zip ptrs, esp + 4 * (argv.length + 4) ≤ x.2
  below : ∀ x ∈ argv.zip ptrs, x.2 + x.1.length + 1 ≤ sz
  fits : esp + 4 * (argv.length + 4) ≤ sz
  disjoint : (argv.zip ptrs).Pairwise fun x y => y.2 + y.1.length + 1 ≤ x.2

theorem ArgBlock.arguments {sz : Nat} (h : ArgBlock mem (sz - 4096) sz sp argv ptrs)
    (hsz : sz ≤ kernbase) : Arguments mem sz sp argv ptrs := by
  have hlow : sz - 4096 ≤ sz := Nat.sub_le _ _
  obtain ⟨hlen, hstr, hpair⟩ := h.pushed.strings hlow
  have hb := h.pushed.bounds hlow
  have hmax : kernbase < 2 ^ 32 := by decide
  -- the words of the block, by their index
  have hptr : ∀ n < argv.length, (argWords sp argv ptrs).getD (3 + n) 0 = ptrs.getD n 0 := by
    intro n hn
    rw [argWords, List.getD_append _ _ _ _ (by simp; omega),
      List.getD_append_right _ _ _ _ (by simp)]
    simp
  have hlast : (argWords sp argv ptrs).getD (3 + argv.length) 0 = 0 := by
    rw [argWords, List.getD_append_right _ _ _ _ (by simp; omega)]
    simp [hlen]
  refine ⟨?_, ?_, ?_, ⟨hlen, fun n hn => ?_⟩, ?_, fun x hx => (hstr x hx).1, h.low,
    fun x hx => (hstr x hx).2.1, fun x hx => (hstr x hx).2.2, hb.2, hpair⟩
  · exact h.word (n := 0) hlen (by omega) (show 0xffffffff < 2 ^ 32 by decide)
  · exact h.word (n := 1) hlen (by omega) (show argv.length < 2 ^ 32 by omega)
  · exact h.word (n := 2) hlen (by omega) (show sp + 12 < 2 ^ 32 by omega)
  · have hx : (argv.getD n [], ptrs.getD n 0) ∈ argv.zip ptrs := by
      rw [List.getD_eq_getElem _ _ hn, List.getD_eq_getElem _ _ (hlen ▸ hn)]
      rw [← List.getElem_zip (h := by rw [List.length_zip]; omega)]
      exact List.getElem_mem _
    have hend := (hstr _ hx).2.2
    dsimp only at hend
    rw [Nat.add_assoc, show 12 + 4 * n = 4 * (3 + n) by omega,
      h.word hlen (by omega) (by rw [hptr n hn]; omega), hptr n hn]
  · rw [Nat.add_assoc, show 12 + 4 * argv.length = 4 * (3 + argv.length) by omega,
      h.word hlen (by omega) (by rw [hlast]; decide), hlast]

end

section
variable [Layout] {man : Nat → Prop} {s : Sys} {i : Fin nproc}

/-- The arguments that `exec` passes on: when it returns 0, the block is in the stack page, and
the guard page has been left alone. Arguments that take more than a page are refused. -/
theorem exec_arguments (h : SysInv man s) (hi : (s.pt.proc i).live) (ip : Option (List Byte))
    (path : List Byte) (argv : List (List Byte)) (name : List Byte) (eip esp : Nat) :
    Ends (exec ip path argv ⟨s.pt.proc i, name, eip, esp⟩) s.k
      (fun r k' => (r.1 = -1 ∨ r.1 = 0) ∧
        (r.1 = 0 → 8192 ≤ r.2.proc.sz ∧
          (∃ ptrs, Arguments (aspace k' r.2.proc).byteAt r.2.proc.sz r.2.esp argv ptrs) ∧
          ∀ file, ip = some file → file.length < 2 ^ 32 → ∀ a, r.2.proc.sz - 8192 ≤ a →
            a < r.2.proc.sz - 4096 → (aspace k' r.2.proc).byteAt a = 0#8) ∧
        (4096 < argSize argv → r.1 = -1)) := by
  refine (exec_spec h.mem hi.dir).imp ?_
  intro r k' hend
  cases hend with
  | fail => exact ⟨.inl rfl, fun h0 => absurd h0 (by decide : (-1 : Int) ≠ 0), fun _ => rfl⟩
  | @done _ file elf d sz sp g mem ptrs hip helf hmagic hnew hkp hinv him hpages hfresh hapart =>
    have hsize := him.size
    have hbyte : (plain k' d).byteAt = mem := him.program.bytes
    have hargs := him.args
    rw [show (g + 1) * 4096 = sz - 4096 by omega] at hargs
    refine ⟨.inr rfl, fun _ => ⟨?_, ⟨ptrs, ?_⟩, fun file' hip' hfile a hlo hhi => ?_⟩,
      fun hbig => ?_⟩
    · show 8192 ≤ sz
      omega
    · show Arguments (plain k' d).byteAt sz sp argv ptrs
      rw [hbyte]
      exact hargs.arguments him.below
    · obtain rfl : file' = file := Option.some.inj (hip'.symm.trans hip)
      obtain ⟨hlen, hload⟩ := him.loaded hfile
      show (plain k' d).byteAt a = 0#8
      change sz - 8192 ≤ a at hlo
      change a < sz - 4096 at hhi
      rw [hbyte, hload a (by omega)]
      refine loadSegments_of_not hlen fun ph hph hc => ?_
      have hle := (him.fits ph hph).filesz_le
      have hin := (him.fits ph hph).inside
      have hup := hc.2
      omega
    · -- what has been pushed fits between the guard page and the end
      have hpushed := hargs.pushed.size (by omega)
      have hlow := hargs.low
      unfold argSize at hbig
      omega

end

/-- The same program with one argument. -/
theorem exec_arguments_loop : let _ : Layout := Layout.sample
    ∃ (s : Sys) (k' : Kmem) (c' : ExecProc) (ptrs : List Nat), Booted s ∧
      (exec (some loopElf) [] [[97#8]] ⟨s.pt.proc initSlot, [], 0, 0⟩).run s.k =
        .ok ((0, c'), k') ∧
      Arguments (aspace k' c'.proc).byteAt c'.proc.sz c'.esp [[97#8]] ptrs := by
  let _ : Layout := Layout.sample
  obtain ⟨s, hb⟩ := sample_boots
  obtain ⟨man, h⟩ := hb.ok
  have hl := h.alive.live
  have hzero := exec_zero h.inv hl (loopElf_executable [[97#8]] (by decide) (by decide))
    (le_trans (by decide) h.free) [] [] 0 0
  obtain ⟨⟨r, c'⟩, k', hrun, rfl⟩ := hzero.exists_ok
  obtain ⟨ptrs, hargs⟩ :=
    (((exec_arguments h.inv hl (some loopElf) [] [[97#8]] [] 0 0).of_ok hrun).2.1 rfl).2.1
  exact ⟨s, k', c', ptrs, hb, hrun, hargs⟩

end Xv6
