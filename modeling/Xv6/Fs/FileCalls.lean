import Mathlib.Data.Fintype.Prod
import Xv6.Fs.FileRefs
import Xv6.Lib.Reach

/-!
# Xv6.Fs.FileCalls

The calls on open files keep the references to files and to inodes.

Of the inodes below it is only assumed that their own calls keep the references to them
(`InodeLaws`): `I s r` says that the inodes in `s` are as they should be with `r ip`
references to `ip`. Then in every run the references to an open file are its descriptors,
the references to an inode are the open files and current directories, and no call ends in
one of the panics of the file table (`Settled.run`).
-/

namespace Xv6

open Function (update update_self update_of_ne)

section
variable {σ P : Type} [Inodes σ]

/-- After a call that may return an inode, with a reference to it. -/
def Got (I : σ → (Fin ninode → Nat) → Prop) (r : Fin ninode → Nat) (o : Option (Fin ninode))
    (s : σ) : Prop := I s (plus r o.toList)

/-- The calls on inodes keep the references. A call that adds or removes names is made only
if `A` allows it; where a call does not return, `E` holds of the panic. -/
structure InodeLaws (I : σ → (Fin ninode → Nat) → Prop) (A : σ → Fin ninode → FileCall P → Prop)
    (E : FsPanic → Prop) : Prop where
  iput : ∀ {s r ip}, I s (bump r ip) → Ends (Inodes.iput ip) s (fun _ t => I t r) E
  idup : ∀ {s r ip}, I s r → 0 < r ip → Ends (Inodes.idup ip) s (fun _ t => I t (bump r ip)) E
  ilock : ∀ {s r ip}, I s r → 0 < r ip → Ends (Inodes.ilock ip) s (fun _ t => I t r) E
  type : ∀ {s r ip}, I s r → 0 < r ip → Ends (Inodes.type ip) s (fun _ t => I t r) E
  namei : ∀ {s r cwd path}, I s r → 0 < r cwd →
    Ends (Inodes.namex cwd path false) s (fun o => Got I r (o.map Prod.fst)) E
  openInode : ∀ {s r cwd path omode}, I s r → 0 < r cwd → A s cwd (.open path omode) →
    Ends (Files.openInode cwd path omode) s (Got I r) E
  mkdir : ∀ {s r cwd path}, I s r → 0 < r cwd → A s cwd (.mkdir path) →
    Ends (Inodes.create cwd path tDir 0 0) s (Got I r) E
  mknod : ∀ {s r cwd path major minor}, I s r → 0 < r cwd → A s cwd (.mknod path major minor) →
    Ends (Inodes.create cwd path tDev major minor) s (Got I r) E
  link : ∀ {s r cwd old new}, I s r → 0 < r cwd → A s cwd (.link old new) →
    Ends (Inodes.sysLink cwd old new) s (fun _ t => I t r) E
  unlink : ∀ {s r cwd path}, I s r → 0 < r cwd → A s cwd (.unlink path) →
    Ends (Inodes.sysUnlink cwd path) s (fun _ t => I t r) E

theorem InodeLaws.execInode {I : σ → (Fin ninode → Nat) → Prop}
    {A : σ → Fin ninode → FileCall P → Prop} {E : FsPanic → Prop} {s : σ} {cwd : Fin ninode}
    {u : Fin ninode → Nat} {path : List Byte} {r' : Int}
    (hI : InodeLaws I A E) (hs : I s u) (hcwd : 0 < u cwd) :
    Ends (Files.execInode cwd path r') s (fun _ t => I t u) E := by
  rw [Files.execInode]
  refine (hI.namei hs hcwd).bind ?_
  intro o t ht
  cases o with
  | none => exact .ret ht
  | some v =>
    refine (hI.ilock ht bump_pos).bind ?_
    intro _ t1 ht1
    exact (ends_bind ..).mpr ((hI.iput ht1).imp (fun _ _ ht => .ret ht))

end

/-- The inode of an open file. -/
def FileType.inode? : FileType → Option (Fin ninode)
  | .inode ip => some ip
  | _ => Option.none

/-- How a call may fail: with a panic of the inodes, but not with one of the file table. -/
def Fails (E : FsPanic → Prop) : FilePanic → Prop
  | .fs e => E e
  | .filedup | .fileclose | .freed => False
  | _ => True

namespace Files

section
variable {σ P : Type} [Fintype P]

/-- The descriptors of each file. -/
def fds (x : Files σ P) : Fin nfile → Nat := holders fun s : P × Fin nofile => x.ofile s.1 s.2

/-- The inodes of the open files. -/
def inodeOf (t : Fin nfile → File) : Fin nfile → Option (Fin ninode) :=
  (fun e => e.type.inode?) ∘ t

/-- The open files and the current directories of each inode. -/
def users (x : Files σ P) : Fin ninode → Nat := holders (inodeOf x.ftable) + holders x.cwd

/-- Within a call: there are `r f` references to each file `f`, and to the inodes those of
`il` besides the files and the current directories. -/
structure Ok (I : σ → (Fin ninode → Nat) → Prop) (x : Files σ P) (r : Fin nfile → Nat)
    (il : List (Fin ninode)) : Prop where
  files : FtableOk x.ftable x.pipes r
  inodes : I x.fs (plus x.users il)

/-- Between two calls; a process that has exited has no descriptors. -/
structure Settled (I : σ → (Fin ninode → Nat) → Prop) (x : Files σ P) : Prop where
  ok : x.Ok I x.fds []
  dead : ∀ {p}, x.cwd p = none → ∀ fd, x.ofile p fd = none

/-- The processes are unchanged. -/
def SameProcs (x y : Files σ P) : Prop := y.cwd = x.cwd ∧ y.ofile = x.ofile

omit [Fintype P] in
theorem SameProcs.rfl {x : Files σ P} : SameProcs x x := ⟨Eq.refl _, Eq.refl _⟩

omit [Fintype P] in
theorem SameProcs.trans {x y z : Files σ P} (h : SameProcs x y) (h' : SameProcs y z) :
    SameProcs x z := ⟨h'.1.trans h.1, h'.2.trans h.2⟩

theorem SameProcs.fds {x y : Files σ P} (h : SameProcs x y) : y.fds = x.fds := by
  unfold Files.fds
  rw [h.2]

theorem inodeOf_update {t : Fin nfile → File} {f : Fin nfile} {e : File} :
    inodeOf (update t f e) = update (inodeOf t) f e.type.inode? :=
  Function.comp_update ..

theorem inodeOf_same {t : Fin nfile → File} {f : Fin nfile} {e : File}
    (h : e.type.inode? = (t f).type.inode?) : inodeOf (update t f e) = inodeOf t := by
  rw [inodeOf_update, h]
  exact Function.update_eq_self ..

variable {I : σ → (Fin ninode → Nat) → Prop} {A : σ → Fin ninode → FileCall P → Prop}
  {E : FsPanic → Prop} {x : Files σ P} {f : Fin nfile} {r : Fin nfile → Nat}
  {il : List (Fin ninode)}

/-! ### Files -/

theorem Ok.setFile {e : File} {r' : Fin nfile → Nat} (h : x.Ok I r il)
    (hfiles : FtableOk (update x.ftable f e) x.pipes r')
    (htype : e.type.inode? = (x.ftable f).type.inode?) :
    Ok I { x with ftable := update x.ftable f e } r' il where
  files := hfiles
  inodes := by
    have hinodes := h.inodes
    unfold users at hinodes ⊢
    rw [inodeOf_same htype]
    exact hinodes

theorem Ok.filealloc {E' : FilePanic → Prop} (h : x.Ok I r il) :
    Ends filealloc x (fun o y => match o with
      | none => y = x
      | some f => (x.ftable f).ref = 0 ∧ y.Ok I (bump r f) il ∧
          y = { x with ftable := update x.ftable f { x.ftable f with ref := 1 } }) E' := by
  rw [Files.filealloc, ends_bind, ends_get]
  cases hf : (List.finRange nfile).find? fun f => (x.ftable f).ref = 0 with
  | none => exact .ret rfl
  | some f =>
    have hzero : (x.ftable f).ref = 0 := by simpa using List.find?_some hf
    have htype := h.files.idle f hzero
    refine (ends_bind ..).mpr ((ends_modify ..).mpr (.ret ⟨hzero, ?_, rfl⟩))
    refine h.setFile ?_ rfl
    refine h.files.setPlain (by simp [htype]) (by simp [htype]) nofun fun g => ?_
    rw [bump_apply]
    by_cases hg : g = f
    · subst hg
      rw [if_pos rfl, if_pos rfl, ← h.files.ref, hzero]
    · rw [if_neg hg, if_neg hg, Nat.add_zero]

theorem Ok.filedup (h : x.Ok I r il) (hf : 0 < r f) :
    Ends (filedup f) x (fun _ y => SameProcs x y ∧ y.Ok I (bump r f) il) (Fails E) := by
  rw [← h.files.ref] at hf
  rw [Files.filedup, ends_bind, ends_get, if_neg (by omega)]
  refine (ends_modify ..).mpr ⟨⟨rfl, rfl⟩, h.setFile ?_ rfl⟩
  refine h.files.setSame hf (Nat.succ_pos _) rfl rfl fun g => ?_
  rw [bump_apply]
  by_cases hg : g = f
  · subst hg
    rw [if_pos rfl, if_pos rfl, h.files.ref]
  · rw [if_neg hg, if_neg hg, Nat.add_zero]

omit [Fintype P] in
theorem ends_pipeclose {page : Nat} {w : Bool} {e : PipeEnds} {E' : FilePanic → Prop}
    (he : x.pipes page = some e) :
    Ends (pipeclose page w) x
      (fun _ y => y = { x with pipes := update x.pipes page (e.closed w) }) E' := by
  rw [pipeclose, ends_bind, ends_get, he]
  dsimp only
  rw [ends_ite, PipeEnds.closed]
  refine ⟨fun hc => ?_, fun hc => ?_⟩
  · rw [if_pos hc]
    exact (ends_modify ..).mpr rfl
  · rw [if_neg hc]
    exact (ends_modify ..).mpr rfl

variable [Inodes σ]

theorem Ok.fileclose (hI : InodeLaws I A E) (h : x.Ok I (bump r f) il) :
    Ends (fileclose f) x (fun _ y => SameProcs x y ∧ y.Ok I r il) (Fails E) := by
  have href := h.files.ref f
  rw [bump_self] at href
  have hothers : ∀ g, g ≠ f → bump r f g = r g := fun g hg => by
    rw [bump_of_ne hg]
  rw [Files.fileclose, ends_bind, ends_get, if_neg (by omega), ends_ite]
  refine ⟨fun hmore => ?_, fun hlast => ?_⟩
  · refine (ends_modify ..).mpr ⟨⟨rfl, rfl⟩, h.setFile ?_ rfl⟩
    refine h.files.setSame (by omega) (Nat.sub_pos_of_lt hmore) rfl rfl fun g => ?_
    by_cases hg : g = f
    · subst hg
      rw [if_pos rfl, href, Nat.add_sub_cancel]
    · rw [if_neg hg, hothers g hg]
  · have hcount : ∀ g, r g = if g = f then 0 else bump r f g := by
      intro g
      by_cases hg : g = f
      · subst hg
        rw [if_pos rfl]
        omega
      · rw [if_neg hg, hothers g hg]
    rw [ends_bind]
    refine (ends_modify ..).mpr ?_
    generalize he : ({ x.ftable f with ref := 0, type := .none } : File) = e
    have heref : e.ref = 0 := by rw [← he]
    have hetype : e.type = .none := by rw [← he]
    have hfiles : (∀ page, (x.ftable f).type ≠ .pipe page) →
        FtableOk (update x.ftable f e) x.pipes r := fun hf =>
      h.files.setPlain hf (by simp [hetype]) (fun _ => hetype) (by rw [heref]; exact hcount)
    cases htype : (x.ftable f).type with
    | none =>
      refine .ret ⟨⟨rfl, rfl⟩, h.setFile (hfiles (by simp [htype])) ?_⟩
      rw [htype, hetype]
    | pipe page =>
      obtain ⟨e', he', hok⟩ := h.files.dropEnd (f := f) (x := e) ⟨by omega, htype, rfl⟩
        ⟨heref, hetype⟩ hcount
      show Ends (pipeclose page (x.ftable f).writable) _ _ _
      refine (ends_pipeclose (x := { x with ftable := update x.ftable f e }) he').imp ?_
      intro _ y hy
      subst hy
      refine ⟨⟨rfl, rfl⟩, hok, ?_⟩
      have hinodes := h.inodes
      unfold users at hinodes ⊢
      rw [inodeOf_same (by rw [htype, hetype]; rfl)]
      exact hinodes
    | inode ip =>
      show Ends (onFs (Inodes.iput ip)) _ _ _
      rw [ends_onFs]
      have hdrop : x.users = bump (holders (inodeOf (update x.ftable f e)) + holders x.cwd) ip := by
        have hf : inodeOf x.ftable f = some ip := by
          unfold inodeOf
          rw [Function.comp_apply, htype]
          rfl
        rw [users, bump_add, inodeOf_update, hetype, holders_drop hf]
        rfl
      have hinodes := h.inodes
      rw [hdrop, plus_bump] at hinodes
      refine (hI.iput hinodes).imp ?_
      intro _ t ht
      exact ⟨⟨rfl, rfl⟩, hfiles (by simp [htype]), ht⟩

theorem Ok.pipealloc {kalloc : Option Nat} (hI : InodeLaws I A E) (h : x.Ok I r il)
    (hk : ∀ page, kalloc = some page → x.pipes page = none) :
    Ends (pipealloc kalloc) x (fun o y => SameProcs x y ∧ match o with
      | none => y.Ok I r il
      | some (f0, f1) => y.Ok I (bump (bump r f0) f1) il) (Fails E) := by
  rw [Files.pipealloc]
  refine h.filealloc.bind ?_
  intro o y hy
  cases o with
  | none =>
    subst hy
    exact .ret ⟨.rfl, h⟩
  | some f0 =>
    obtain ⟨hzero0, hok0, rfl⟩ := hy
    refine hok0.filealloc.bind ?_
    intro o y hy
    cases o with
    | none =>
      subst hy
      exact (hok0.fileclose hI).bind (fun _ z hz => .ret hz)
    | some f1 =>
      obtain ⟨hzero1, hok1, rfl⟩ := hy
      cases hka : kalloc with
      | none =>
        rw [ends_bind]
        rw [bump_comm] at hok1
        refine (hok1.fileclose hI).imp ?_
        intro _ y hy
        refine (hy.2.fileclose hI).bind ?_
        intro _ z hz
        exact .ret ⟨hy.1.trans hz.1, hz.2⟩
      | some page =>
        dsimp only at hzero1
        have hne : f0 ≠ f1 := by
          rintro rfl
          rw [update_self] at hzero1
          cases hzero1
        rw [update_of_ne (Ne.symm hne)] at hzero1
        have htype0 := h.files.idle f0 hzero0
        have htype1 := h.files.idle f1 hzero1
        simp only [setPipe, Files.setFile, ends_bind, ends_modify, ends_get, ends_pure]
        refine ⟨⟨rfl, rfl⟩, ?_, ?_⟩
        · refine hok1.files.newPipe hne (hk page hka) ?_ ?_ ?_ ?_ ?_ ?_
          · simp [hne, htype0]
          · simp [Ne.symm hne, htype1]
          · simp [hne]
          · simp
          · simp
          · simp [Ne.symm hne]
        · have hinodes := hok1.inodes
          unfold users at hinodes ⊢
          rw [inodeOf_same, inodeOf_same]
          · exact hinodes
          · simp [hne, htype0, FileType.inode?]
          · simp [Ne.symm hne, htype1, FileType.inode?]

/-! ### Descriptors -/

section
variable [DecidableEq P] {p : P} {fd : Fin nofile} {E' : FilePanic → Prop}

omit [Inodes σ]

omit [Fintype P] in
theorem ofile_update {o : P → OFile (Fin nfile)} {v : Option (Fin nfile)} :
    (fun s : P × Fin nofile => update o p (update (o p) fd v) s.1 s.2) =
      update (fun s => o s.1 s.2) (p, fd) v := by
  funext s
  obtain ⟨q, fd'⟩ := s
  by_cases hq : q = p
  · subst hq
    by_cases hfd : fd' = fd
    · subst hfd
      simp
    · simp [hfd]
  · simp [hq]

theorem fds_take (h : x.ofile p fd = none) :
    fds { x with ofile := update x.ofile p (update (x.ofile p) fd (some f)) } = bump x.fds f := by
  rw [fds, ofile_update]
  exact holders_take h

theorem fds_drop (h : x.ofile p fd = some f) :
    x.fds = bump (fds { x with ofile := update x.ofile p (update (x.ofile p) fd none) }) f := by
  rw [fds, fds, ofile_update]
  exact holders_drop (i := (p, fd)) h

omit [DecidableEq P] in
theorem fds_pos (h : x.ofile p fd = some f) : 0 < x.fds f := holders_pos (i := (p, fd)) h

omit [Fintype P] in
theorem ends_fdalloc : Ends (fdalloc p f) x (fun o y => match o with
    | none => y = x
    | some fd => x.ofile p fd = none ∧
        y = { x with ofile := update x.ofile p (update (x.ofile p) fd (some f)) }) E' := by
  rw [Files.fdalloc, ends_bind, ends_get]
  cases hfd : Xv6.fdalloc (x.ofile p) f with
  | none => exact .ret rfl
  | some v =>
    refine (ends_bind ..).mpr ((ends_modify ..).mpr (.ret ⟨?_, rfl⟩))
    exact (fdalloc_inv (show _ = some (v.1, v.2) from hfd)).1

/-- Only the descriptors of `p` may have changed. -/
def Others (p : P) (x y : Files σ P) : Prop := y.cwd = x.cwd ∧ ∀ q, q ≠ p → y.ofile q = x.ofile q

section
omit [Fintype P] [DecidableEq P]

theorem SameProcs.others {x y : Files σ P} (h : SameProcs x y) : Others p x y :=
  ⟨h.1, fun _ _ => by rw [h.2]⟩

theorem Others.trans {x y z : Files σ P} (h : Others p x y) (h' : Others p y z) : Others p x z :=
  ⟨h'.1.trans h.1, fun q hq => (h'.2 q hq).trans (h.2 q hq)⟩

end

omit [Fintype P] in
theorem others_setFd {v : Option (Fin nfile)} :
    Others p x { x with ofile := update x.ofile p (update (x.ofile p) fd v) } :=
  ⟨rfl, fun _ hq => update_of_ne hq ..⟩

end

/-! ### Inodes -/

omit [Inodes σ] in
/-- A computation on the inodes that leaves the references `l`. -/
theorem Ok.onFs {α : Type} {m : Kern σ FsPanic α} {l : α → List (Fin ninode)}
    (h : x.Ok I r il) (hm : Ends m x.fs (fun a t => I t (plus x.users (l a))) E) :
    Ends (onFs m) x (fun a y => (∃ t, y = { x with fs := t }) ∧ y.Ok I r (l a)) (Fails E) := by
  rw [ends_onFs]
  exact hm.imp (fun a t ht => ⟨⟨t, rfl⟩, h.files, ht⟩)

theorem Ok.iput {ip : Fin ninode} (hI : InodeLaws I A E) (h : x.Ok I r (ip :: il)) :
    Ends (Files.onFs (Inodes.iput ip)) x
      (fun _ y => (∃ t, y = { x with fs := t }) ∧ y.Ok I r il) (Fails E) :=
  h.onFs (l := fun _ => il) (hI.iput h.inodes)

omit [Inodes σ] in
/-- A file in use gets the inode that the call has a reference to. -/
theorem Ok.setInode {e : File} {ip : Fin ninode} (h : x.Ok I r (ip :: il))
    (htype : (x.ftable f).type = .none) (hpos : 0 < (x.ftable f).ref)
    (heref : e.ref = (x.ftable f).ref) (hetype : e.type = .inode ip) :
    Ok I { x with ftable := update x.ftable f e } r il where
  files := by
    refine h.files.setPlain (by simp [htype]) (by simp [hetype]) (by omega) fun g => ?_
    by_cases hg : g = f
    · subst hg
      rw [if_pos rfl, heref, h.files.ref]
    · rw [if_neg hg]
  inodes := by
    have hidle : inodeOf x.ftable f = none := by
      unfold inodeOf
      rw [Function.comp_apply, htype]
      rfl
    have hinodes := h.inodes
    rw [plus_cons, ← plus_bump] at hinodes
    unfold users at hinodes ⊢
    rw [bump_add, ← holders_take hidle] at hinodes
    rw [inodeOf_update, hetype]
    exact hinodes

/-! ### Calls -/

section
variable [DecidableEq P] {p : P} {y : Files σ P} {cwd : Fin ninode}

section
omit [Inodes σ] [DecidableEq P]

theorem Settled.of_others (h : x.Settled I) (hp : x.cwd p = some cwd) (ho : Others p x y)
    (hy : y.Ok I y.fds []) : y.Settled I where
  ok := hy
  dead := by
    intro q hq fd
    rw [ho.1] at hq
    have hne : q ≠ p := by
      rintro rfl
      rw [hp] at hq
      cases hq
    rw [ho.2 q hne]
    exact h.dead hq fd

theorem cwd_pos (h : x.cwd p = some cwd) : 0 < x.users cwd :=
  Nat.add_pos_right _ (holders_pos h)

end

omit [Fintype P] [Inodes σ] [DecidableEq P] in
theorem ends_getCwd {Q : Fin ninode → Files σ P → Prop} {E' : FilePanic → Prop}
    (h : x.cwd p = some cwd) (hQ : Q cwd x) : Ends (getCwd p) x Q E' := by
  rw [getCwd, ends_bind, ends_get, h]
  exact .ret hQ

omit [Inodes σ] in
theorem Settled.sysDup {fd : Int} (h : x.Settled I) (hp : x.cwd p = some cwd) :
    Ends (sysDup p fd) x (fun _ y => y.Settled I) (Fails E) := by
  rw [Files.sysDup, ends_bind, ends_get]
  cases harg : argfd (x.ofile p) fd with
  | none => exact .ret h
  | some v =>
    obtain ⟨i, f⟩ := v
    refine ends_fdalloc.bind ?_
    intro o y hy
    cases o with
    | none =>
      subst hy
      exact .ret h
    | some fd' =>
      -- the descriptor is there before the reference
      obtain ⟨hfree, rfl⟩ := hy
      have hok : Ok I { x with ofile := update x.ofile p (update (x.ofile p) fd' (some f)) }
          x.fds [] := ⟨h.ok.files, h.ok.inodes⟩
      refine (hok.filedup (fds_pos (argfd_inv harg))).bind ?_
      intro _ z hz
      refine .ret (h.of_others hp (others_setFd.trans hz.1.others) ?_)
      rw [hz.1.fds, fds_take hfree]
      exact hz.2

theorem Settled.sysClose {fd : Int} (hI : InodeLaws I A E) (h : x.Settled I)
    (hp : x.cwd p = some cwd) :
    Ends (sysClose p fd) x (fun _ y => y.Settled I) (Fails E) := by
  rw [Files.sysClose, ends_bind, ends_get]
  cases harg : argfd (x.ofile p) fd with
  | none => exact .ret h
  | some v =>
    obtain ⟨i, f⟩ := v
    refine (ends_bind ..).mpr ((ends_modify ..).mpr ?_)
    have hdrop := fds_drop (argfd_inv harg)
    have hok : Ok I { x with ofile := update x.ofile p (update (x.ofile p) i none) }
        x.fds [] := ⟨h.ok.files, h.ok.inodes⟩
    rw [hdrop] at hok
    refine (hok.fileclose hI).bind ?_
    intro _ z hz
    refine .ret (h.of_others hp (others_setFd.trans hz.1.others) ?_)
    rw [hz.1.fds]
    exact hz.2

theorem Settled.sysPipe {kalloc : Option Nat} (hI : InodeLaws I A E) (h : x.Settled I)
    (hp : x.cwd p = some cwd) (hk : ∀ page, kalloc = some page → x.pipes page = none) :
    Ends (sysPipe p kalloc) x (fun _ y => y.Settled I) (Fails E) := by
  rw [Files.sysPipe]
  refine (h.ok.pipealloc hI hk).bind ?_
  rintro o y ⟨hxy, hy⟩
  -- both files are closed again, from a state with the descriptors of `x`
  have hclose : ∀ {rf wf : Fin nfile} {z : Files σ P}, Others p x z → z.fds = x.fds →
      z.Ok I (bump (bump x.fds rf) wf) [] →
      Ends (do
        Files.fileclose rf
        Files.fileclose wf
        pure (-1 : Int)) z (fun _ y => y.Settled I) (Fails E) := by
    intro rf wf z hxz hfds hz
    rw [bump_comm] at hz
    refine (hz.fileclose hI).bind ?_
    intro _ z1 hz1
    refine (hz1.2.fileclose hI).bind ?_
    intro _ z2 hz2
    refine .ret (h.of_others hp ((hxz.trans hz1.1.others).trans hz2.1.others) ?_)
    rw [hz2.1.fds, hz1.1.fds, hfds]
    exact hz2.2
  cases o with
  | none =>
    refine .ret (h.of_others hp hxy.others ?_)
    rw [hxy.fds]
    exact hy
  | some v =>
    obtain ⟨rf, wf⟩ := v
    refine ends_fdalloc.bind ?_
    intro o y1 hy1
    cases o with
    | none =>
      subst hy1
      exact hclose hxy.others hxy.fds hy
    | some fd0 =>
      obtain ⟨hfree0, rfl⟩ := hy1
      have hfds0 := fds_take (f := rf) hfree0
      refine ends_fdalloc.bind ?_
      intro o y2 hy2
      cases o with
      | none =>
        subst hy2
        refine (ends_bind ..).mpr ((ends_modify ..).mpr ?_)
        refine hclose ((hxy.others.trans others_setFd).trans others_setFd) ?_ ⟨hy.files, hy.inodes⟩
        rw [← hxy.fds]
        refine bump_inj (b := rf) (.trans ?_ hfds0)
        exact (fds_drop (by simp)).symm
      | some fd1 =>
        obtain ⟨hfree1, rfl⟩ := hy2
        refine .ret (h.of_others hp ((hxy.others.trans others_setFd).trans others_setFd) ?_)
        rw [fds_take hfree1, hfds0, hxy.fds]
        exact ⟨hy.files, hy.inodes⟩

omit [Inodes σ] [DecidableEq P] in
theorem Settled.done (h : x.Settled I) (hp : x.cwd p = some cwd)
    (hy : (∃ t, y = { x with fs := t }) ∧ y.Ok I x.fds []) : y.Settled I := by
  obtain ⟨⟨t, rfl⟩, hok⟩ := hy
  exact h.of_others (p := p) hp ⟨rfl, fun _ _ => rfl⟩ hok

theorem Settled.sysOpen {path : List Byte} {omode : Word} (hI : InodeLaws I A E)
    (h : x.Settled I) (hp : x.cwd p = some cwd) (hA : A x.fs cwd (.open path omode)) :
    Ends (sysOpen p path omode) x (fun _ y => y.Settled I) (Fails E) := by
  rw [Files.sysOpen, ends_bind]
  refine ends_getCwd hp ?_
  have hopen := h.ok.onFs (l := Option.toList) (hI.openInode h.ok.inodes (cwd_pos hp) hA)
  refine hopen.bind ?_
  rintro o y ⟨⟨t, rfl⟩, hy⟩
  cases o with
  | none => exact .ret (h.done hp ⟨⟨t, rfl⟩, hy⟩)
  | some ip =>
    refine hy.filealloc.bind ?_
    intro o y hy'
    cases o with
    | none =>
      subst hy'
      refine (hy.iput hI).bind ?_
      rintro _ z ⟨⟨t', rfl⟩, hz⟩
      exact .ret (h.done hp ⟨⟨t', rfl⟩, hz⟩)
    | some f =>
      obtain ⟨hzero, hf, rfl⟩ := hy'
      refine ends_fdalloc.bind ?_
      intro o y1 hy1
      cases o with
      | none =>
        subst hy1
        refine (hf.fileclose hI).bind ?_
        intro _ z hz
        refine (hz.2.iput hI).bind ?_
        rintro _ z' ⟨⟨t', rfl⟩, hz'⟩
        have hsame : SameProcs x { z with fs := t' } := hz.1
        refine .ret (h.of_others (p := p) hp hsame.others ?_)
        rw [hsame.fds]
        exact hz'
      | some fd =>
        obtain ⟨hfree, hy1⟩ := hy1
        have hok : y1.Ok I y1.fds [ip] := by
          rw [hy1, fds_take hfree]
          exact ⟨hf.files, hf.inodes⟩
        have htype : (y1.ftable f).type = .none := by
          rw [hy1]
          simp [h.ok.files.idle f hzero]
        have hpos : 0 < (y1.ftable f).ref := by simp [hy1]
        have hothers : Others p x y1 := by
          rw [hy1]
          exact ⟨rfl, fun q hq => update_of_ne hq ..⟩
        refine (ends_bind ..).mpr ((ends_get ..).mpr ?_)
        refine (ends_bind ..).mpr ((ends_modify ..).mpr (.ret ?_))
        exact h.of_others hp hothers (hok.setInode htype hpos rfl rfl)

omit [DecidableEq P] in
theorem Settled.sysMk {path : List Byte} {type major minor : BitVec 16} (hI : InodeLaws I A E)
    (h : x.Settled I) (hp : x.cwd p = some cwd)
    (hmk : Ends (Inodes.create cwd path type major minor) x.fs (Got I x.users) E) :
    Ends (sysMk p path type major minor) x (fun _ y => y.Settled I) (Fails E) := by
  rw [Files.sysMk, ends_bind]
  refine ends_getCwd hp ?_
  refine (h.ok.onFs (l := Option.toList) hmk).bind ?_
  rintro o y ⟨⟨t, rfl⟩, hy⟩
  cases o with
  | none => exact .ret (h.done hp ⟨⟨t, rfl⟩, hy⟩)
  | some ip =>
    refine (hy.iput hI).bind ?_
    rintro _ z ⟨⟨t', rfl⟩, hz⟩
    exact .ret (h.done hp ⟨⟨t', rfl⟩, hz⟩)

omit [Inodes σ] [DecidableEq P] in
theorem Settled.inodeCall {m : Fin ninode → Kern σ FsPanic Int} (h : x.Settled I)
    (hp : x.cwd p = some cwd) (hm : Ends (m cwd) x.fs (fun _ t => I t x.users) E) :
    Ends (do
      let cwd ← getCwd p
      onFs (m cwd)) x (fun _ y => y.Settled I) (Fails E) := by
  rw [ends_bind]
  refine ends_getCwd hp ?_
  refine (h.ok.onFs (l := fun _ => []) hm).imp ?_
  intro _ y hy
  exact h.done hp hy

theorem Settled.sysChdir {path : List Byte} (hI : InodeLaws I A E) (h : x.Settled I)
    (hp : x.cwd p = some cwd) :
    Ends (sysChdir p path) x (fun _ y => y.Settled I) (Fails E) := by
  rw [Files.sysChdir, ends_bind]
  refine ends_getCwd hp ?_
  have hname := h.ok.onFs (l := fun o => (Option.map Prod.fst o).toList)
    (show Ends (Inodes.namex _ path false) _ _ _ from hI.namei h.ok.inodes (cwd_pos hp))
  refine hname.bind ?_
  rintro o y ⟨⟨t, rfl⟩, hy⟩
  cases o with
  | none => exact .ret (h.done hp ⟨⟨t, rfl⟩, hy⟩)
  | some v =>
    have hlock := hy.onFs (l := fun _ => [v.1]) (hI.ilock hy.inodes bump_pos)
    refine hlock.bind ?_
    rintro _ y ⟨⟨t1, rfl⟩, hy1⟩
    have htype := hy1.onFs (l := fun _ => [v.1]) (hI.type hy1.inodes bump_pos)
    refine htype.bind ?_
    rintro ty y ⟨⟨t2, rfl⟩, hy2⟩
    rw [ends_ite]
    refine ⟨fun _ => ?_, fun _ => ?_⟩
    · refine (hy2.iput hI).bind ?_
      rintro _ y ⟨⟨t3, rfl⟩, hy3⟩
      exact .ret (h.done hp ⟨⟨t3, rfl⟩, hy3⟩)
    · -- the reference of the old directory is dropped while it still is the current one
      have hinodes : I t2 (plus x.users [v.1]) := hy2.inodes
      rw [users, holders_drop hp, ← add_bump, plus_bump] at hinodes
      refine (ends_bind ..).mpr ((ends_onFs ..).mpr ((hI.iput hinodes).imp ?_))
      intro _ t3 ht3
      refine (ends_bind ..).mpr ((ends_modify ..).mpr (.ret ⟨⟨h.ok.files, ?_⟩, ?_⟩))
      · rw [plus_cons, plus_nil, add_bump, ← holders_take (update_self ..),
          Function.update_idem] at ht3
        exact ht3
      · intro q hq fd
        change update x.cwd p (some v.1) q = none at hq
        refine h.dead ?_ fd
        by_cases hqp : q = p
        · subst hqp
          rw [update_self] at hq
          cases hq
        · rwa [update_of_ne hqp] at hq

/-! ### Processes -/

omit [Inodes σ] in
/-- The loop of `fork`: the child gets the descriptors that it does not have yet. -/
theorem Ok.dupAll {c : P} :
    ∀ {l : List (Fin nofile)} {x : Files σ P}, l.Nodup → (∀ fd ∈ l, x.ofile c fd = none) →
      x.Ok I x.fds il →
      Ends (dupAll p c l) x (fun _ y => Others c x y ∧ y.Ok I y.fds il) (Fails E) := by
  intro l
  induction l with
  | nil => exact fun _ _ h => .ret ⟨⟨rfl, fun _ _ => rfl⟩, h⟩
  | cons fd l ih =>
    intro x hnd hfree h
    obtain ⟨hfd, hnd⟩ := List.nodup_cons.mp hnd
    have hfree' := fun fd' hm => hfree fd' (List.mem_cons_of_mem _ hm)
    rw [Files.dupAll, ends_bind, ends_get]
    cases hf : x.ofile p fd with
    | none => exact ih hnd hfree' h
    | some f =>
      refine (h.filedup (fds_pos hf)).bind ?_
      rintro _ y ⟨hxy, hy⟩
      refine (ends_bind ..).mpr ((ends_modify ..).mpr ?_)
      have hcfd : y.ofile c fd = none := by
        rw [hxy.2]
        exact hfree fd List.mem_cons_self
      refine (ih hnd ?_ ?_).imp ?_
      · intro fd' hm
        show update y.ofile c (update (y.ofile c) fd (some f)) c fd' = none
        have hne : fd' ≠ fd := fun he => hfd (he ▸ hm)
        rw [update_self, update_of_ne hne, hxy.2]
        exact hfree' fd' hm
      · rw [fds_take hcfd, hxy.fds]
        exact ⟨hy.files, hy.inodes⟩
      · rintro _ z ⟨hyz, hz⟩
        exact ⟨(hxy.others.trans others_setFd).trans hyz, hz⟩

section
variable (hI : InodeLaws I A E)
include hI

theorem Settled.fork {child : Option P} (h : x.Settled I) (hp : x.cwd p = some cwd)
    (hc : ∀ c, child = some c → x.cwd c = none) :
    Ends (fork p child) x (fun _ y => y.Settled I) (Fails E) := by
  cases child with
  | none => exact .ret h
  | some c =>
    have hfree := hc c rfl
    rw [Files.fork]
    refine (Ok.dupAll (List.nodup_finRange _) (fun fd _ => h.dead hfree fd) h.ok).bind ?_
    rintro _ y ⟨hxy, hy⟩
    have hyp : y.cwd p = some cwd := by rw [hxy.1, hp]
    refine (ends_bind ..).mpr (ends_getCwd hyp ?_)
    refine (ends_bind ..).mpr ((ends_onFs ..).mpr ?_)
    refine (hI.idup hy.inodes (cwd_pos hyp)).imp ?_
    intro _ t ht
    refine (ends_bind ..).mpr ((ends_modify ..).mpr (.ret ⟨⟨hy.files, ?_⟩, ?_⟩))
    · have hyc : y.cwd c = none := by rw [hxy.1, hfree]
      rw [plus_nil, users, add_bump, ← holders_take hyc] at ht
      exact ht
    · intro q hq fd
      change update y.cwd c (some cwd) q = none at hq
      have hqc : q ≠ c := by
        rintro rfl
        rw [update_self] at hq
        cases hq
      rw [update_of_ne hqc, hxy.1] at hq
      show y.ofile q fd = none
      rw [hxy.2 q hqc]
      exact h.dead hq fd

theorem Ok.closeAll :
    ∀ {l : List (Fin nofile)} {x : Files σ P}, x.Ok I x.fds il →
      Ends (closeAll p l) x (fun _ y => Others p x y ∧ y.Ok I y.fds il ∧
        ∀ fd, fd ∈ l ∨ x.ofile p fd = none → y.ofile p fd = none) (Fails E) := by
  intro l
  induction l with
  | nil => exact fun h => .ret ⟨⟨rfl, fun _ _ => rfl⟩, h, fun fd hfd => hfd.resolve_left nofun⟩
  | cons fd l ih =>
    intro x h
    rw [Files.closeAll, ends_bind, ends_get]
    cases hf : x.ofile p fd with
    | none =>
      refine (ih h).imp ?_
      rintro _ y ⟨hxy, hy, hclosed⟩
      refine ⟨hxy, hy, fun fd' hfd' => hclosed fd' ?_⟩
      rcases hfd' with hfd' | hfd'
      · rcases List.mem_cons.mp hfd' with rfl | hm
        · exact .inr hf
        · exact .inl hm
      · exact .inr hfd'
    | some f =>
      -- the file is closed while the descriptor still is there
      rw [fds_drop hf] at h
      refine (h.fileclose hI).bind ?_
      rintro _ y ⟨hxy, hy⟩
      refine (ends_bind ..).mpr ((ends_modify ..).mpr ?_)
      have hfds : fds { y with ofile := update y.ofile p (update (y.ofile p) fd none) } =
          fds { x with ofile := update x.ofile p (update (x.ofile p) fd none) } := by
        unfold fds
        rw [hxy.2]
      refine (ih (by rw [hfds]; exact ⟨hy.files, hy.inodes⟩)).imp ?_
      · rintro _ z ⟨hyz, hz, hclosed⟩
        refine ⟨(hxy.others.trans others_setFd).trans hyz, hz, fun fd' hfd' => hclosed fd' ?_⟩
        by_cases hm : fd' ∈ l
        · exact .inl hm
        · refine .inr ?_
          show update y.ofile p (update (y.ofile p) fd none) p fd' = none
          rw [update_self, hxy.2]
          by_cases he : fd' = fd
          · rw [he, update_self]
          · rw [update_of_ne he]
            refine hfd'.resolve_left fun hm' => ?_
            exact (List.mem_cons.mp hm').elim he hm

theorem Settled.exit (h : x.Settled I) (hp : x.cwd p = some cwd) :
    Ends (exit p) x (fun _ y => y.Settled I) (Fails E) := by
  rw [Files.exit]
  refine (Ok.closeAll hI h.ok).bind ?_
  rintro _ y ⟨hxy, hy, hclosed⟩
  have hyp : y.cwd p = some cwd := by rw [hxy.1, hp]
  refine (ends_bind ..).mpr (ends_getCwd hyp ?_)
  have hinodes := hy.inodes
  rw [users, holders_drop hyp, ← add_bump, plus_nil] at hinodes
  refine (ends_bind ..).mpr ((ends_onFs ..).mpr ((hI.iput hinodes).imp ?_))
  intro _ t ht
  refine (ends_modify ..).mpr ⟨⟨hy.files, ht⟩, ?_⟩
  intro q hq fd
  change update y.cwd p none q = none at hq
  show y.ofile q fd = none
  by_cases hqp : q = p
  · subst hqp
    exact hclosed fd (.inl (List.mem_finRange fd))
  · rw [update_of_ne hqp, hxy.1] at hq
    rw [hxy.2 q hqp]
    exact h.dead hq fd

theorem Settled.syscall {c : FileCall P} (h : x.Settled I) (hc : c.Issued x p)
    (hA : ∀ cwd, x.cwd p = some cwd → A x.fs cwd c) :
    Ends (c.syscall p) x (fun _ y => y.Settled I) (Fails E) := by
  obtain ⟨hcwd, hc⟩ := hc
  obtain ⟨cwd, hp⟩ := Option.ne_none_iff_exists'.mp hcwd
  have hA := hA cwd hp
  have hpos := cwd_pos hp
  have hinodes : I x.fs x.users := h.ok.inodes
  cases c with
  | «open» path omode => exact h.sysOpen hI hp hA
  | close fd => exact h.sysClose hI hp
  | dup fd => exact h.sysDup hp
  | pipe kalloc =>
    refine h.sysPipe hI hp fun page hpage => ?_
    subst hpage
    exact hc
  | fork child =>
    refine h.fork hI hp fun c hchild => ?_
    subst hchild
    exact hc
  | exit =>
    rw [FileCall.syscall]
    exact (h.exit hI hp).bind (fun _ _ hy => .ret hy)
  | chdir path => exact h.sysChdir hI hp
  | mkdir path => exact h.sysMk hI hp (hI.mkdir hinodes hpos hA)
  | mknod path major minor => exact h.sysMk hI hp (hI.mknod hinodes hpos hA)
  | link old new => exact h.inodeCall hp (hI.link hinodes hpos hA)
  | unlink path => exact h.inodeCall hp (hI.unlink hinodes hpos hA)
  | exec path r => exact h.inodeCall hp (hI.execInode hinodes hpos)

end

end

end

end Files

/-! ### Runs -/

section
variable {σ P : Type} [Inodes σ] [Fintype P] [DecidableEq P] {x y : Files σ P}
  {ls : List (P × FileCall P)} {I : σ → (Fin ninode → Nat) → Prop} {E : FsPanic → Prop}

/-- A call that `A` allows, and that returns. -/
def FileCall.StepIn (A : σ → Fin ninode → FileCall P → Prop) (x : Files σ P)
    (l : P × FileCall P) (y : Files σ P) : Prop :=
  (∀ cwd, x.cwd l.1 = some cwd → A x.fs cwd l.2) ∧ FileCall.Step x l y

theorem Files.Settled.run {A : σ → Fin ninode → FileCall P → Prop} (hI : InodeLaws I A E)
    (h : x.Settled I) (hrun : Trace (FileCall.StepIn A) x ls y) : y.Settled I := by
  induction hrun with
  | nil => exact h
  | cons hstep _ ih =>
    obtain ⟨hA, hissued, r, hr⟩ := hstep
    exact ih ((h.syscall hI hissued hA).of_ok hr)

/-- No file is open, and no pipe is there. -/
structure Files.Booted (x : Files σ P) : Prop where
  files : ∀ f, (x.ftable f).ref = 0 ∧ (x.ftable f).type = .none
  pipes : ∀ page, x.pipes page = none
  ofile : ∀ p fd, x.ofile p fd = none

omit [Inodes σ] [DecidableEq P] in
theorem Files.Booted.settled (h : x.Booted) (hfs : I x.fs (holders x.cwd)) : x.Settled I where
  ok := by
    have hnone : Files.inodeOf x.ftable = fun _ => none := by
      funext f
      unfold Files.inodeOf
      rw [Function.comp_apply, (h.files f).2]
      rfl
    have hfds : x.fds = 0 := holders_none fun s => h.ofile s.1 s.2
    refine ⟨⟨fun f => ?_, fun f _ => (h.files f).2, fun page w => ?_, fun hf _ => ?_,
      fun hpage => ?_⟩, ?_⟩
    · rw [(h.files f).1, hfds]
      rfl
    · simp [IsEnd, OpenEnd, (h.files _).1, h.pipes]
    · exact absurd (h.files _).1 (Nat.pos_iff_ne_zero.mp hf.1)
    · rw [h.pipes] at hpage
      cases hpage
    · rw [plus_nil, Files.users, hnone, holders_none fun _ => rfl, zero_add]
      exact hfs
  dead := fun _ => h.ofile _

omit [Fintype P] [DecidableEq P] in
/-- Nothing is asked of the inodes. -/
theorem InodeLaws.any : InodeLaws (fun (_ : σ) _ => True) (fun _ _ (_ : FileCall P) => True)
    (fun _ => True) where
  iput _ := .trivial
  idup _ _ := .trivial
  ilock _ _ := .trivial
  type _ _ := .trivial
  namei _ _ := .trivial
  openInode _ _ _ := .trivial
  mkdir _ _ _ := .trivial
  mknod _ _ _ := .trivial
  link _ _ _ := .trivial
  unlink _ _ _ := .trivial

/-- In every state between calls the references to a file are its descriptors, an end of a
pipe is open exactly if a file in use is this end, and the pipe is there exactly as long as
one of its ends is in use. No call ends in a panic of the file table or uses a pipe that is
gone. -/
theorem open_files_exact (hx : x.Booted) (hrun : Trace FileCall.Step x ls y) :
    (∀ f, (y.ftable f).ref =
      (Finset.univ.filter fun s : P × Fin nofile => y.ofile s.1 s.2 = some f).card) ∧
    (∀ page e, y.pipes page = some e →
      (e.readopen = true ↔ ∃ f, IsEnd y.ftable page false f) ∧
      (e.writeopen = true ↔ ∃ f, IsEnd y.ftable page true f)) ∧
    (∀ page, y.pipes page ≠ none ↔ ∃ w f, IsEnd y.ftable page w f) ∧
    ∀ p c e, FileCall.Issued y p c → (c.syscall p).run y = .error e → Benign e := by
  have hrun' : Trace (FileCall.StepIn fun _ _ _ => True) x ls y :=
    hrun.mono fun _ _ _ hstep => ⟨fun _ _ => trivial, hstep⟩
  have hy := (hx.settled (I := fun _ _ => True) trivial).run .any hrun'
  have hends : ∀ {page e} w, y.pipes page = some e →
      (e.isOpen w = true ↔ ∃ f, IsEnd y.ftable page w f) := by
    intro page e w he
    rw [hy.ok.files.ends, OpenEnd, he]
    simp
  refine ⟨hy.ok.files.ref, fun page e he => ⟨hends false he, hends true he⟩,
    fun page => ⟨fun hne => ?_, ?_⟩,
    fun p c e hc herr => ?_⟩
  · obtain ⟨e, he⟩ := Option.ne_none_iff_exists'.mp hne
    rcases hy.ok.files.live he with hopen | hopen
    · exact ⟨false, (hends false he).mp hopen⟩
    · exact ⟨true, (hends true he).mp hopen⟩
  · rintro ⟨w, f, hf⟩ hnone
    obtain ⟨e, he, -⟩ := (hy.ok.files.ends page w).mp ⟨f, hf⟩
    rw [hnone] at he
    cases he
  · have hfails := (hy.syscall .any hc fun _ _ => trivial).of_error herr
    refine ⟨?_, ?_, ?_⟩ <;> (rintro rfl; exact hfails)

end

/-- A process makes a pipe, shares it with a child and closes both ends. -/
def onePipe : List (Fin 2 × FileCall (Fin 2)) :=
  [(0, .pipe (some 7)), (0, .fork (some 1)), (0, .close 0), (0, .close 1)]

theorem ninode_pos : 0 < ninode := by decide

/-- The first process, in the root directory. -/
def firstFiles : Files Fs (Fin 2) where
  fs := ⟨fun _ _ => 0, fun s => ⟨if s.val = 0 then 1 else 0, rootIno, false, .empty 0 0⟩⟩
  ftable _ := ⟨0, .none, false, false, 0⟩
  pipes _ := none
  cwd p := if p = 0 then some ⟨0, ninode_pos⟩ else none
  ofile _ _ := none

/-- The ends that the child has. -/
theorem open_files_exact_one_pipe :
    let _ : Superblock := Superblock.mkfs
    let _ : Devsw := Devsw.none
    ∃ y, Trace FileCall.Step firstFiles onePipe y ∧ y.pipes 7 ≠ none ∧
      (∀ page, y.pipes page ≠ none ↔ ∃ w f, IsEnd y.ftable page w f) := by
  intro _ _
  have hboot : firstFiles.Booted := ⟨fun _ => ⟨rfl, rfl⟩, fun _ => rfl, fun _ _ => rfl⟩
  have hrun : ∃ y, Trace FileCall.Step firstFiles onePipe y ∧ y.pipes 7 ≠ none := by
    refine ⟨_, .cons ⟨⟨nofun, rfl⟩, _, rfl⟩ (.cons ⟨⟨nofun, rfl⟩, _, rfl⟩
      (.cons ⟨⟨nofun, trivial⟩, _, rfl⟩ (.cons ⟨⟨nofun, trivial⟩, _, rfl⟩ (.nil _)))), nofun⟩
  obtain ⟨y, hrun, hpipe⟩ := hrun
  exact ⟨y, hrun, hpipe, (open_files_exact hboot hrun).2.2.1⟩

end Xv6
