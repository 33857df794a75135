import Mathlib.Algebra.BigOperators.Group.Finset.Basic
import Xv6.Fs.CacheRuns
import Xv6.Fs.FileIo

/-!
# Xv6.Fs.Writers

Calls of `filewrite` on one open file of an inode, by any number of processes. What a call
does with the inode locked is one step (`writeChunk`), so that the chunks of several calls
come in any order. As long as the calls succeed, every chunk goes to the end of the file.
-/

namespace Xv6

open Function (update update_self update_of_ne update_eq_self update_idem)
open Superblock

/-- The open files, and what is left of the call that each process is in. -/
structure Writers (P : Type) where
  files : Files Fs P
  rest : P → List Byte

/-- A step of a process. -/
inductive WriterStep (P : Type)
  /-- `filewrite`, to its loop. -/
  | call (p : P) (src : List Byte)
  /-- A round of the loop that writes these bytes. -/
  | chunk (p : P) (src : List Byte)

/-- The call that begins. -/
def WriterStep.call? {P : Type} : WriterStep P → Option (P × List Byte)
  | .call p src => some (p, src)
  | .chunk _ _ => none

/-- The chunk that is written. -/
def WriterStep.chunk? {P : Type} : WriterStep P → Option (P × List Byte)
  | .call _ _ => none
  | .chunk p src => some (p, src)

namespace Writers

section
variable [Superblock] [Devsw] {P : Type} [DecidableEq P]

/-- The steps of processes with the open file `f`, which is the inode `ip`. A process that has
written everything has returned; a chunk is written as a whole. -/
inductive Step (f : Fin nfile) (ip : Fin ninode) (x : Writers P) : WriterStep P → Writers P → Prop
  | call (p : P) (src : List Byte) : x.rest p = [] →
      (x.files.ftable f).writable = true → (x.files.ftable f).type = .inode ip →
      src.length < 2 ^ 31 → Step f ip x (.call p src) { x with rest := update x.rest p src }
  | chunk (p : P) (y : Files Fs P) : x.rest p ≠ [] →
      (Files.writeChunk f ip ((x.rest p).take Files.maxWrite)).run x.files =
        .ok ((((x.rest p).take Files.maxWrite).length : Nat), y) →
      Step f ip x (.chunk p ((x.rest p).take Files.maxWrite))
        ⟨y, update x.rest p ((x.rest p).drop Files.maxWrite)⟩

end

/-! ### One chunk -/

section
variable [Superblock] [Devsw] {P : Type} {x y : Files Fs P} {f : Fin nfile} {ip : Fin ninode}

/-- The open file is at the end of its inode. -/
structure AtEnd (f : Fin nfile) (ip : Fin ninode) (x : Files Fs P) : Prop where
  ok : x.fs.Ok
  used : 0 < (x.fs.icache ip).ref
  file : IsFile x.fs.disk (x.fs.icache ip).inum
  off : (x.ftable f).off.toNat = (dinode x.fs.disk (x.fs.icache ip).inum).size.toNat

/-- The bytes of the inode. -/
def bytes (ip : Fin ninode) (x : Files Fs P) : List Byte :=
  content x.fs.disk (x.fs.icache ip).inum

omit [Devsw] in
theorem AtEnd.length_bytes (h : AtEnd f ip x) :
    (bytes ip x).length = (x.ftable f).off.toNat := by
  rw [bytes, length_content, h.off]

/-- A chunk that is written as a whole goes to the end. -/
structure Appended (f : Fin nfile) (ip : Fin ninode) (src : List Byte) (x y : Files Fs P) :
    Prop where
  atEnd : AtEnd f ip y
  bytes : bytes ip y = Writers.bytes ip x ++ src
  inum : (y.fs.icache ip).inum = (x.fs.icache ip).inum
  file : (y.ftable f).writable = (x.ftable f).writable ∧ (y.ftable f).type = (x.ftable f).type

theorem AtEnd.writeChunk {src : List Byte} (h : AtEnd f ip x) (hsrc : 0 < src.length)
    (hlen : src.length < 2 ^ 32) :
    Ends (Files.writeChunk f ip src) x
      (fun r y => (¬ NoRoom x.fs.disk (x.fs.icache ip).inum (x.ftable f).off.toNat src.length →
        r = src.length) ∧ (r = src.length → Appended f ip src x y))
      (fun _ => NoRoom x.fs.disk (x.fs.icache ip).inum (x.ftable f).off.toNat src.length) := by
  unfold Files.writeChunk
  rw [ends_bind, Files.ends_onFs]
  refine (ilock_spec h.ok h.used).mono (fun _ t ht => ?_) fun _ ht => absurd ht.2 h.file.2.1
  obtain ⟨hok, hdisk, ⟨href, hinum⟩, hv⟩ := ht
  rw [ends_bind, ends_get, ends_bind, Files.ends_onFs]
  dsimp only
  have hdev : (dinode t.disk (t.icache ip).inum).type ≠ tDev := by
    rw [hdisk, hinum]
    exact h.file.2.2
  have hwrite := writei_appends hok (href ▸ h.used) hv hdev hlen (x.ftable f).off
  rw [hdisk, hinum] at hwrite
  refine hwrite.imp fun r u hu => ?_
  obtain ⟨hroom, hu⟩ := hu
  -- a chunk is not empty, so the offset moves
  have hend : ∀ {z : Files Fs P}, r = src.length → z.fs = u → z.ftable f =
      { x.ftable f with off := (x.ftable f).off + BitVec.ofNat 32 r.toNat } →
      Appended f ip src x z := by
    intro z hr hz hf
    obtain ⟨hok', ⟨href', hinum'⟩, -, hfit, hw⟩ := hu hr
    have hi : (z.fs.icache ip).inum = (x.fs.icache ip).inum := by rw [hz, hinum', hinum]
    rw [← hz] at hw
    have hnew : (z.ftable f).off.toNat = (x.ftable f).off.toNat + src.length := by
      have hn : (BitVec.ofNat 32 r.toNat).toNat = src.length := by
        rw [hr, Int.toNat_natCast, BitVec.toNat_ofNat, Nat.mod_eq_of_lt hlen]
      rw [hf]
      dsimp only
      rw [BitVec.toNat_add_of_lt (by rw [hn]; exact hfit), hn]
    refine ⟨⟨hz ▸ hok', ?_, ?_, ?_⟩, ?_, hi, by rw [hf], by rw [hf]⟩
    · rw [hz, href', href]
      exact h.used
    · rw [hi, IsFile, hw.inode]
      exact h.file
    · rw [hnew, hi, hw.size, ← h.off, Nat.max_eq_right (Nat.le_add_right ..)]
    · have hsize : (content x.fs.disk (x.fs.icache ip).inum).length = (x.ftable f).off.toNat :=
        h.length_bytes
      rw [bytes, hi, hw.content, ← hsize, List.take_length,
        List.drop_eq_nil_of_le (Nat.le_add_right ..), List.append_nil]
      rfl
  rw [ends_ite]
  refine ⟨fun _ => ?_, fun hr => .ret ⟨hroom, fun hr' => ?_⟩⟩
  · rw [ends_bind, Files.advance, ends_bind, ends_get, Files.setFile, ends_modify]
    exact .ret ⟨hroom, fun hr => hend hr rfl (update_self ..)⟩
  · omega

theorem AtEnd.writes (h : AtEnd f ip x) (src : List Byte) (hsrc : 0 < src.length)
    (hlen : src.length < 2 ^ 32)
    (hroom : ¬ NoRoom x.fs.disk (x.fs.icache ip).inum (x.ftable f).off.toNat src.length) :
    ∃ y, (Files.writeChunk f ip src).run x = .ok ((src.length : Nat), y) ∧
      Appended f ip src x y := by
  obtain ⟨r, y, hrun, hr, hy⟩ := ((h.writeChunk hsrc hlen).mono (fun _ _ hy => hy)
    fun _ he => hroom he).exists_ok
  obtain rfl := hr hroom
  exact ⟨y, hrun, hy rfl⟩

end

/-! ### Runs -/

section
variable {P : Type} [DecidableEq P]

/-- The bytes of a list of calls or chunks, in their order. -/
def joined (cs : List (P × List Byte)) : List Byte := (cs.map Prod.snd).flatten

/-- Those of one process. -/
def joinedOf (p : P) (cs : List (P × List Byte)) : List Byte :=
  joined (cs.filter fun c => decide (c.1 = p))

omit [DecidableEq P] in
theorem joined_cons (c : P × List Byte) (cs : List (P × List Byte)) :
    joined (c :: cs) = c.2 ++ joined cs := rfl

theorem joinedOf_cons (p : P) (c : P × List Byte) (cs : List (P × List Byte)) :
    joinedOf p (c :: cs) = (if c.1 = p then c.2 else []) ++ joinedOf p cs := by
  unfold joinedOf
  by_cases hc : c.1 = p <;> simp [hc, joined_cons]

theorem sum_rest_update [Fintype P] (g : P → List Byte) (p : P) (l : List Byte) :
    (∑ q, (update g p l q).length) + (g p).length = (∑ q, (g q).length) + l.length := by
  have hsum : ∀ g : P → List Byte, ∑ q, (g q).length =
      (g p).length + ∑ q ∈ Finset.univ.erase p, (g q).length :=
    fun g => (Finset.add_sum_erase _ _ (Finset.mem_univ p)).symm
  have hrest : ∑ q ∈ Finset.univ.erase p, (update g p l q).length =
      ∑ q ∈ Finset.univ.erase p, (g q).length :=
    Finset.sum_congr rfl fun q hq => by rw [update_of_ne (Finset.ne_of_mem_erase hq)]
  rw [hsum, hsum g, hrest, update_self]
  omega

end

theorem maxWrite_eq : Files.maxWrite = 1536 := rfl

theorem chunk_pos {src : List Byte} (h : src ≠ []) :
    0 < (src.take Files.maxWrite).length ∧ (src.take Files.maxWrite).length ≤ Files.maxWrite := by
  have hpos := List.length_pos_iff.mpr h
  rw [List.length_take, maxWrite_eq]
  omega

section
variable [Superblock] [Devsw] {P : Type} [DecidableEq P] {x y : Writers P} {f : Fin nfile}
  {ip : Fin ninode} {ls : List (WriterStep P)}

theorem AtEnd.step {e : WriterStep P} (h : AtEnd f ip x.files) (hs : Step f ip x e y) :
    AtEnd f ip y.files ∧ (y.files.fs.icache ip).inum = (x.files.fs.icache ip).inum ∧
      bytes ip y.files = bytes ip x.files ++ joined e.chunk?.toList := by
  cases hs with
  | call p src => exact ⟨h, rfl, (List.append_nil _).symm⟩
  | chunk p z hrest hrun =>
    obtain ⟨hpos, hmax⟩ := chunk_pos hrest
    have hlen : ((x.rest p).take Files.maxWrite).length < 2 ^ 32 := by
      rw [maxWrite_eq] at hmax ⊢
      omega
    have happ := ((h.writeChunk hpos hlen).of_ok hrun).2 rfl
    refine ⟨happ.atEnd, happ.inum, happ.bytes.trans ?_⟩
    rw [WriterStep.chunk?, Option.toList, joined_cons]
    exact congrArg (List.append _) (List.append_nil _).symm

section
variable (hrun : Trace (Step f ip) x ls y)
include hrun

/-- Every chunk of a run goes to the end of the file. -/
theorem AtEnd.run (h : AtEnd f ip x.files) :
    AtEnd f ip y.files ∧ (y.files.fs.icache ip).inum = (x.files.fs.icache ip).inum ∧
      bytes ip y.files = bytes ip x.files ++ joined (ls.filterMap WriterStep.chunk?) := by
  induction hrun with
  | nil x => exact ⟨h, rfl, (List.append_nil _).symm⟩
  | @cons x x1 y e ls hs _ ih =>
    obtain ⟨h1, hi1, hb1⟩ := h.step hs
    obtain ⟨hy, hi, hb⟩ := ih h1
    refine ⟨hy, hi.trans hi1, ?_⟩
    rw [hb, hb1, List.append_assoc, List.filterMap_cons]
    cases e with
    | call p src => rfl
    | chunk p src =>
      rw [WriterStep.chunk?, Option.toList, joined_cons, joined_cons, List.append_assoc]
      rfl

/-- The chunks of a process are what it was asked to write, in this order. -/
theorem chunks_of_calls (p : P) :
    x.rest p ++ joinedOf p (ls.filterMap WriterStep.call?) =
      joinedOf p (ls.filterMap WriterStep.chunk?) ++ y.rest p := by
  induction hrun with
  | nil x => exact List.append_nil _
  | @cons x x1 y e ls hs _ ih =>
    cases hs with
    | call q src hq =>
      rw [List.filterMap_cons, List.filterMap_cons]
      dsimp only [WriterStep.call?, WriterStep.chunk?] at ih ⊢
      rw [joinedOf_cons, ← ih]
      by_cases hqp : q = p
      · rw [if_pos hqp, ← hqp, hq, update_self, List.nil_append]
      · rw [if_neg hqp, update_of_ne (Ne.symm hqp), List.nil_append]
    | chunk q z hq =>
      rw [List.filterMap_cons, List.filterMap_cons]
      dsimp only [WriterStep.call?, WriterStep.chunk?] at ih ⊢
      rw [joinedOf_cons, List.append_assoc, ← ih]
      by_cases hqp : q = p
      · rw [if_pos hqp, ← hqp, update_self, ← List.append_assoc,
          List.take_append_drop]
      · rw [if_neg hqp, update_of_ne (Ne.symm hqp), List.nil_append]

/-- Nothing is written twice or not at all. -/
theorem length_chunks [Fintype P] :
    (∑ p, (x.rest p).length) + (joined (ls.filterMap WriterStep.call?)).length =
      (joined (ls.filterMap WriterStep.chunk?)).length + ∑ p, (y.rest p).length := by
  induction hrun with
  | nil x => simp [joined]
  | @cons x x1 y e ls hs _ ih =>
    rw [List.filterMap_cons, List.filterMap_cons]
    cases hs with
    | call q src hq =>
      have hup := sum_rest_update x.rest q src
      dsimp only [WriterStep.call?, WriterStep.chunk?] at ih ⊢
      rw [joined_cons, List.length_append]
      rw [hq, List.length_nil] at hup
      dsimp only
      omega
    | chunk q z hq =>
      have hup := sum_rest_update x.rest q ((x.rest q).drop Files.maxWrite)
      have hsplit := congrArg List.length (List.take_append_drop Files.maxWrite (x.rest q))
      rw [List.length_append] at hsplit
      dsimp only [WriterStep.call?, WriterStep.chunk?] at ih ⊢
      rw [joined_cons, List.length_append]
      dsimp only
      omega

/-- The chunks of a run are not empty, and not longer than what one transaction can write. -/
theorem chunks_bounded :
    ∀ c ∈ ls.filterMap WriterStep.chunk?, 0 < c.2.length ∧ c.2.length ≤ Files.maxWrite := by
  induction hrun with
  | nil x => exact fun c hc => absurd hc List.not_mem_nil
  | @cons x x1 y e ls hs _ ih =>
    intro c hc
    rw [List.filterMap_cons] at hc
    cases hs with
    | call q src hq => exact ih c hc
    | chunk q z hq =>
      rcases List.mem_cons.mp hc with rfl | hc
      · exact chunk_pos hq
      · exact ih c hc

end

/-- Processes that write through one open file at the end of its inode lose nothing: when all
calls have returned, the offset and the size have grown by what the calls were to write, and
the new bytes are the chunks, one after the other, with those of each process in its order. -/
theorem shared_file_appends [Fintype P] (hx : AtEnd f ip x.files) (hidle : ∀ p, x.rest p = [])
    (hrun : Trace (Step f ip) x ls y) (hdone : ∀ p, y.rest p = []) :
    let i := (x.files.fs.icache ip).inum
    let calls := ls.filterMap WriterStep.call?
    let chunks := ls.filterMap WriterStep.chunk?
    let total := (calls.map fun c => c.2.length).sum
    (y.files.ftable f).off.toNat = (x.files.ftable f).off.toNat + total ∧
    (dinode y.files.fs.disk i).size.toNat = (dinode x.files.fs.disk i).size.toNat + total ∧
    content y.files.fs.disk i = content x.files.fs.disk i ++ (chunks.map Prod.snd).flatten ∧
    (∀ c ∈ chunks, 0 < c.2.length ∧ c.2.length ≤ Files.maxWrite) ∧
    ∀ p, ((chunks.filter fun c => decide (c.1 = p)).map Prod.snd).flatten =
      ((calls.filter fun c => decide (c.1 = p)).map Prod.snd).flatten := by
  intro i calls chunks total
  obtain ⟨hy, hinum, hbytes⟩ := hx.run hrun
  have hzero : ∀ {z : Writers P}, (∀ p, z.rest p = []) → ∑ p, (z.rest p).length = 0 :=
    fun hz => Finset.sum_eq_zero fun p _ => by rw [hz p]; rfl
  have hlen := length_chunks hrun
  rw [hzero hidle, hzero hdone, Nat.zero_add, Nat.add_zero] at hlen
  have htotal : (joined chunks).length = total := by
    rw [← hlen, joined, List.length_flatten, List.map_map]
    rfl
  have hoff : (y.files.ftable f).off.toNat = (x.files.ftable f).off.toNat + total := by
    rw [← hy.length_bytes, hbytes, List.length_append, hx.length_bytes, htotal]
  have hsize := hy.off
  rw [hinum] at hsize
  refine ⟨hoff, ?_, ?_, chunks_bounded hrun, fun p => ?_⟩
  · rw [← hsize, hoff, hx.off]
  · rw [bytes, hinum] at hbytes
    exact hbytes
  · have hp := chunks_of_calls hrun p
    rw [hidle, hdone, List.nil_append, List.append_nil] at hp
    exact hp.symm

/-- The loop of a call that runs on its own, and succeeds, is a run of its chunks. -/
theorem trace_writeChunks {p : P} (src : List Byte) : ∀ (x : Files Fs P) {g : P → List Byte},
    g p = src → Ends (Files.writeChunks f ip src) x (fun all y => all = true →
      ∃ cs : List (List Byte), Trace (Step f ip) ⟨x, g⟩ (cs.map (.chunk p)) ⟨y, update g p []⟩ ∧
        cs.flatten = src) (fun _ => True) := by
  induction src using Files.writeChunks.induct with
  | case1 =>
    intro x g hg
    rw [Files.writeChunks, if_pos rfl]
    refine .ret fun _ => ⟨[], ?_, rfl⟩
    rw [← hg, update_eq_self]
    exact .nil _
  | case2 src hsrc ih =>
    intro x g hg
    rw [Files.writeChunks, if_neg hsrc]
    refine (Ends.self.mono (fun _ _ hr => hr) fun _ _ => trivial).bind fun r z hz => ?_
    refine .guard (fun _ hall => Bool.noConfusion hall) fun _ =>
      (ends_ite ..).mpr ⟨fun _ => (ends_throw ..).mpr trivial, fun hr => ?_⟩
    rw [not_not] at hr
    refine (ih r z (g := update g p (src.drop Files.maxWrite)) (update_self ..)).mono
      (fun all y hy hall => ?_) fun _ _ => trivial
    obtain ⟨cs, hcs, hflat⟩ := hy hall
    rw [update_idem] at hcs
    rw [hr, ← hg] at hz
    have hne : g p ≠ [] := by
      rw [hg]
      exact hsrc
    have hstep : Step f ip ⟨x, g⟩ (.chunk p ((g p).take Files.maxWrite))
        ⟨z, update g p ((g p).drop Files.maxWrite)⟩ := .chunk p z hne hz
    rw [hg] at hstep
    refine ⟨src.take Files.maxWrite :: cs, .cons hstep hcs, ?_⟩
    rw [List.flatten_cons, hflat, List.take_append_drop]

/-- A call of `filewrite` that runs on its own, and succeeds, is a run of the steps of writers:
the call, and chunks that make up its bytes. -/
theorem trace_filewrite {p : P} {src : List Byte} {x y : Files Fs P} {r : Int}
    {g : P → List Byte} (hg : g p = []) (htype : (x.ftable f).type = .inode ip)
    (hlen : src.length < 2 ^ 31)
    (hrun : (Files.filewrite f src r).run x = .ok (((src.length : Nat) : Int), y)) :
    ∃ cs : List (List Byte), cs.flatten = src ∧
      Trace (Step f ip) ⟨x, g⟩ (.call p src :: cs.map (.chunk p)) ⟨y, g⟩ := by
  have hspec : Ends (Files.filewrite f src r) x (fun n y => n = src.length →
      ∃ cs : List (List Byte), cs.flatten = src ∧
        Trace (Step f ip) ⟨x, g⟩ (.call p src :: cs.map (.chunk p)) ⟨y, g⟩) (fun _ => True) := by
    rw [Files.filewrite, ends_bind, ends_get]
    refine .guard (fun _ hn => by omega) fun hw => ?_
    rw [htype]
    refine (trace_writeChunks (p := p) src x (g := update g p src) (update_self ..)).bind
      fun all z hz => .ret fun hn => ?_
    cases all with
    | false =>
      rw [if_neg Bool.false_ne_true] at hn
      omega
    | true =>
      obtain ⟨cs, hcs, hflat⟩ := hz rfl
      rw [update_idem, ← hg, update_eq_self] at hcs
      have hw : (x.ftable f).writable = true := Bool.not_eq_false _ ▸ hw
      exact ⟨cs, hflat, .cons (.call p src hg hw htype hlen) hcs⟩
  exact hspec.of_ok hrun rfl

end

/-! ### Two processes -/

/-- A file that two processes have open for writing. -/
def twoWriters [Superblock] : Writers Bool where
  files :=
    { fs := oneEntry (oneFile tFile) 1
      ftable := fun _ => ⟨2, .inode firstEntry, false, true, 0#32⟩
      pipes := fun _ => none
      cwd := fun _ => none
      ofile := fun _ _ => none }
  rest _ := []

theorem twoWriters_first [Superblock] :
    twoWriters.files.fs.icache firstEntry = ⟨1, 1, true, dinode (oneFile tFile) 1⟩ :=
  oneEntry_first ..

theorem twoWriters_atEnd :
    let _ : Superblock := Superblock.mkfs
    AtEnd ⟨0, by decide⟩ firstEntry twoWriters.files := by
  intro _
  have hip : dinode (oneFile tFile) 1 = .empty tFile 1 := dinode_oneFile tFile (by decide)
  refine ⟨oneFile_ok (by decide), ?_, ?_, ?_⟩ <;> rw [twoWriters_first]
  · decide
  · refine ⟨by decide, ?_, ?_⟩ <;> exact hip ▸ by decide
  · show _ = (dinode (oneFile tFile) 1).size.toNat
    rw [hip]
    rfl

theorem twoWriters_writes {n : Nat} :
    let _ : Superblock := Superblock.mkfs
    n ≤ 3 → ¬ NoRoom twoWriters.files.fs.disk (twoWriters.files.fs.icache firstEntry).inum 0 n := by
  intro _ hn
  rw [twoWriters_first]
  exact oneFile_room n hn

theorem trace_filewrite_abc :
    let _ : Superblock := Superblock.mkfs
    let _ : Devsw := Devsw.none
    ∃ f y, ∃ cs : List (List Byte),
      (Files.filewrite f [97, 98, 99] 0).run twoWriters.files = .ok (3, y) ∧
      cs.flatten = [97, 98, 99] ∧ Trace (Step f firstEntry) twoWriters
        (.call true [97, 98, 99] :: cs.map (.chunk true)) ⟨y, twoWriters.rest⟩ := by
  intro _ _
  obtain ⟨y, hrun, -⟩ := twoWriters_atEnd.writes [97, 98, 99] (by decide) (by decide)
    (twoWriters_writes (by decide))
  have hwrite : (Files.filewrite ⟨0, by decide⟩ [97, 98, 99] 0).run twoWriters.files =
      .ok (3, y) := by
    show (Files.writeChunks _ _ [97, 98, 99] >>= fun all => pure (if all then _ else -1)).run _ = _
    rw [run_eq_ok, ends_bind, Files.writeChunks, if_neg (List.cons_ne_nil _ _), ends_bind]
    refine (run_eq_ok.mp hrun).imp fun r z hz => ?_
    obtain ⟨rfl, rfl⟩ := hz
    rw [if_neg (by decide), if_neg (by decide), Files.writeChunks, if_pos (by decide)]
    exact .ret (.ret ⟨rfl, rfl⟩)
  obtain ⟨cs, hcs, htrace⟩ :=
    trace_filewrite (p := true) (g := fun _ => []) rfl rfl (by decide) hwrite
  exact ⟨_, y, cs, hwrite, hcs, htrace⟩

/-- The chunk of the second call is written first. -/
theorem shared_file_appends_both :
    let _ : Superblock := Superblock.mkfs
    let _ : Devsw := Devsw.none
    ∃ y f, Trace (Step f firstEntry) twoWriters [.call true [97, 98, 99], .call false [100],
        .chunk false [100], .chunk true [97, 98, 99]] y ∧
      content y.files.fs.disk 1 = [100, 97, 98, 99] := by
  intro _ _
  have hip : dinode (oneFile tFile) 1 = .empty tFile 1 := dinode_oneFile tFile (by decide)
  have hfirst := twoWriters_first
  have hnil : bytes firstEntry twoWriters.files = [] := by
    apply List.eq_nil_of_length_eq_zero
    rw [twoWriters_atEnd.length_bytes]
    rfl
  obtain ⟨z, hrun, hz⟩ := twoWriters_atEnd.writes [100] (by decide) (by decide)
    (twoWriters_writes (by decide))
  -- the second chunk goes to the block that the first has taken
  have hoff : (z.ftable ⟨0, by decide⟩).off.toNat = 1 := by
    rw [← hz.atEnd.length_bytes, hz.bytes, hnil]
    rfl
  have hroom : ¬ NoRoom z.fs.disk (z.fs.icache firstEntry).inum
      (z.ftable ⟨0, by decide⟩).off.toNat 3 := by
    have hsize := hz.atEnd.off
    rw [hoff] at hsize ⊢
    rintro (hbad | hno)
    · rw [← hsize] at hbad
      exact absurd hbad (by decide)
    · exact hno (hz.atEnd.ok.inv.enough_first hz.atEnd.file (by omega) (by decide))
  obtain ⟨w, hrun', -⟩ := hz.atEnd.writes [97, 98, 99] (by decide) (by decide) hroom
  have hcalls : ∃ y, Trace (Step ⟨0, by decide⟩ firstEntry) twoWriters [.call true [97, 98, 99],
      .call false [100], .chunk false [100], .chunk true [97, 98, 99]] y ∧
      ∀ p, y.rest p = [] := by
    refine ⟨_, .cons (.call true [97, 98, 99] rfl rfl rfl (by decide)) (.cons (.call false [100] rfl
      rfl rfl (by decide)) (.cons (.chunk false z nofun hrun) (.cons (.chunk true w nofun hrun')
      (.nil _)))), ?_⟩
    rintro (_ | _) <;> rfl
  obtain ⟨y, htrace, hdone⟩ := hcalls
  have hcontent := (shared_file_appends twoWriters_atEnd (fun _ => rfl) htrace hdone).2.2.1
  rw [bytes, hfirst] at hnil
  rw [hfirst] at hcontent
  refine ⟨y, ⟨0, by decide⟩, htrace, hcontent.trans ?_⟩
  rw [hnil]
  rfl

end Writers

end Xv6
