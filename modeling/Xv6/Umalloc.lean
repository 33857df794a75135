import Mathlib.Logic.Function.Basic
import Mathlib.Tactic.Common
import Xv6.Lib.Reach
import Xv6.Mmu

/-!
# Xv6.Umalloc

The allocator of user programs (`umalloc.c`): `free`, `morecore` and `malloc`.

Pointers are 32-bit words. A header is eight bytes, so `p + n` on header pointers is
`p + 8 * n`, and `malloc` hands out the address behind a header. The state is what the allocator
reads and writes: the two fields of the header at each address, and `freep`. What `sbrk` answers may
depend on everything it was asked before; the arguments are kept, the latest first.

The two loops take a number of rounds; a call returns a result if it has this result for all large
numbers (`Returns`).
-/

namespace Xv6.Umalloc

open Function (update)

/-- The headers, the static `freep`, and the arguments of `sbrk` so far. -/
structure Heap where
  ptr : Word → Word
  size : Word → Word
  freep : Word
  asked : List Word

namespace Heap

/-- `p->s.ptr = q`. -/
def setPtr (h : Heap) (p q : Word) : Heap := { h with ptr := update h.ptr p q }

/-- `p->s.size = n`. -/
def setSize (h : Heap) (p n : Word) : Heap := { h with size := update h.size p n }

end Heap

/-- `p + n` on pointers to headers. -/
def after (p n : Word) : Word := p + 8#32 * n

/-! ### `free` -/

/-- The `for` loop of `free`: the element behind which the block at `bp` belongs. -/
def freeLoop (h : Heap) (bp : Word) : Nat → Word → Option Word
  | 0, _ => none
  | fuel + 1, p =>
    if p < bp ∧ bp < h.ptr p then some p
    else if h.ptr p ≤ p ∧ (p < bp ∨ bp < h.ptr p) then some p
    else freeLoop h bp fuel (h.ptr p)

/-- Join the block to the one above, or link it to that. -/
def joinUpper (h : Heap) (p bp : Word) : Heap :=
  if after bp (h.size bp) = h.ptr p then
    let h := h.setSize bp (h.size bp + h.size (h.ptr p))
    h.setPtr bp (h.ptr (h.ptr p))
  else h.setPtr bp (h.ptr p)

/-- Join the block to the one below, or link that to it. -/
def joinLower (h : Heap) (p bp : Word) : Heap :=
  if after p (h.size p) = bp then
    let h := h.setSize p (h.size p + h.size bp)
    h.setPtr p (h.ptr bp)
  else h.setPtr p bp

/-- `free`. -/
def free (fuel : Nat) (h : Heap) (ap : Word) : Option Heap :=
  let bp := ap - 8#32
  match freeLoop h bp fuel h.freep with
  | none => none
  | some p => some { joinLower (joinUpper h p bp) p bp with freep := p }

section
variable (base : Word) (sbrk : List Word → Word → Word)

/-! ### `malloc` -/

/-- The units `morecore` asks for. -/
def coreUnits (nu : Word) : Word := if nu < 4096#32 then 4096#32 else nu

/-- `morecore`: the new `freep`, or 0. -/
def morecore (fuel : Nat) (h : Heap) (nu : Word) : Option (Word × Heap) :=
  let nu := coreUnits nu
  let p := sbrk h.asked (nu * 8#32)
  let h := { h with asked := nu * 8#32 :: h.asked }
  if p = -1#32 then some (0#32, h)
  else
    match free fuel (h.setSize p nu) (after p 1#32) with
    | none => none
    | some h => some (h.freep, h)

/-- The `for` loop of `malloc`. -/
def mallocLoop (nunits : Word) : Nat → Heap → Word → Word → Option (Word × Heap)
  | 0, _, _, _ => none
  | fuel + 1, h, prevp, p =>
    if nunits ≤ h.size p then
      if h.size p = nunits then
        let h := h.setPtr prevp (h.ptr p)
        some (after p 1#32, { h with freep := prevp })
      else
        -- the block is cut and its upper part handed out
        let h := h.setSize p (h.size p - nunits)
        let p := after p (h.size p)
        let h := h.setSize p nunits
        some (after p 1#32, { h with freep := prevp })
    else if p = h.freep then
      match morecore sbrk fuel h nunits with
      | none => none
      | some (p, h) => if p = 0#32 then some (0#32, h) else mallocLoop nunits fuel h p (h.ptr p)
    else mallocLoop nunits fuel h p (h.ptr p)

/-- The units of a request: its bytes rounded up, and the header. -/
def unitsFor (nbytes : Word) : Word := (nbytes + 8#32 - 1#32) / 8#32 + 1#32

/-- The first call sets up a list of `base` alone. -/
def start (h : Heap) : Heap :=
  if h.freep = 0#32 then ({ h with freep := base }.setPtr base base).setSize base 0#32 else h

/-- `malloc`. -/
def malloc (fuel : Nat) (h : Heap) (nbytes : Word) : Option (Word × Heap) :=
  let nunits := unitsFor nbytes
  let h := start base h
  mallocLoop sbrk nunits fuel h h.freep (h.ptr h.freep)

/-- Static data is zero before the program starts. -/
def Heap.init : Heap := ⟨fun _ => 0#32, fun _ => 0#32, 0#32, []⟩

/-! ### Runs of a program -/

/-- A computation that ends with the value `x`, given rounds enough. -/
def Returns {α : Type} (f : Nat → Option α) (x : α) : Prop := ∃ n, ∀ fuel ≥ n, f fuel = some x

theorem Returns.unique {α : Type} {f : Nat → Option α} {x y : α} (hx : Returns f x)
    (hy : Returns f y) : x = y := by
  obtain ⟨m, hm⟩ := hx
  obtain ⟨n, hn⟩ := hy
  have := hm (max m n) (Nat.le_max_left m n)
  rw [hn (max m n) (Nat.le_max_right m n)] at this
  exact (Option.some.inj this).symm

theorem Returns.of_add {α : Type} {f : Nat → Option α} {x : α} {k : Nat}
    (h : ∀ n, f (n + k) = some x) : Returns f x := by
  refine ⟨k, fun fuel hk => ?_⟩
  obtain ⟨n, rfl⟩ := Nat.exists_eq_add_of_le' hk
  exact h n

/-- The end of the memory `sbrk` has given. Before it has given any, this is the end of `base`. -/
def top : List Word → Nat
  | [] => base.toNat + 8
  | n :: asked =>
    if sbrk asked n = -1#32 then top asked else (sbrk asked n).toNat + n.toNat

/-- The bytes `sbrk` has given. -/
def obtained : List Word → Nat
  | [] => 0
  | n :: asked => if sbrk asked n = -1#32 then obtained asked else n.toNat + obtained asked

/-- `sbrk` fails or gives new memory, above all it gave before. -/
structure Fresh : Prop where
  base_ne : base ≠ 0#32
  base_lt : base.toNat + 8 < 2 ^ 32
  above : ∀ asked n, sbrk asked n ≠ -1#32 →
    top base sbrk asked ≤ (sbrk asked n).toNat ∧ (sbrk asked n).toNat + n.toNat < 2 ^ 32

/-- The allocator, and the pointers the program got and has not freed, with what it asked for. -/
structure State where
  heap : Heap
  live : List (Word × Word)

/-- A call of the program: a request of at most `most` bytes, or `free` of a pointer that `malloc`
gave. -/
inductive Step (most : Nat) : State → State → Prop
  | fail {s : State} {nbytes : Word} {h : Heap} (hn : nbytes.toNat ≤ most)
      (hr : Returns (fun fuel => malloc base sbrk fuel s.heap nbytes) (0#32, h)) :
      Step most s { s with heap := h }
  | malloc {s : State} {nbytes r : Word} {h : Heap} (hn : nbytes.toNat ≤ most)
      (hr : Returns (fun fuel => malloc base sbrk fuel s.heap nbytes) (r, h)) (h0 : r ≠ 0#32) :
      Step most s ⟨h, (r, nbytes) :: s.live⟩
  | free {s : State} {x : Word × Word} {h : Heap} (hx : x ∈ s.live)
      (hr : Returns (fun fuel => free fuel s.heap x.1) h) :
      Step most s ⟨h, s.live.erase x⟩

/-- The states of a program that starts with nothing allocated. -/
def Reachable (most : Nat) : State → Prop :=
  Reach (fun s => s = ⟨.init, []⟩) (Step base sbrk most)

/-! ### The size of a block -/

/-- What a caller of `malloc` relies on: the block is as large as requested, and what `sbrk` was
asked for was the size in bytes of the units wanted, as a positive `int`. -/
def MallocOk (nbytes : Word) (h : Heap) : Prop :=
  ∀ fuel r h', malloc base sbrk fuel h nbytes = some (r, h') →
    (r = 0#32 ∨ nbytes.toNat ≤ ((h'.size (r - 8#32)).toNat - 1) * 8) ∧
    ∃ new, h'.asked = new ++ h.asked ∧ ∀ n ∈ new,
      0 < n.toInt ∧ n.toInt = ((coreUnits (unitsFor nbytes)).toNat * 8 : Nat)

end

section
variable {base : Word} {sbrk : List Word → Word → Word} {h h' : Heap} {nunits nbytes r : Word}
  {fuel : Nat}

@[simp] theorem after_one_sub (p : Word) : after p 1#32 - 8#32 = p := by
  rw [after]
  bv_omega

theorem joinUpper_asked (h : Heap) (p bp : Word) : (joinUpper h p bp).asked = h.asked := by
  unfold joinUpper
  split <;> rfl

theorem joinLower_asked (h : Heap) (p bp : Word) : (joinLower h p bp).asked = h.asked := by
  unfold joinLower
  split <;> rfl

theorem free_asked {ap : Word} (hf : free fuel h ap = some h') : h'.asked = h.asked := by
  unfold free at hf
  dsimp only at hf
  split at hf
  · cases hf
  · cases hf
    rw [joinLower_asked, joinUpper_asked]

theorem morecore_asked {q : Word} (hm : morecore sbrk fuel h nunits = some (q, h')) :
    h'.asked = coreUnits nunits * 8#32 :: h.asked := by
  unfold morecore at hm
  dsimp only at hm
  split at hm
  · cases hm
    rfl
  · split at hm
    · cases hm
    · next h1 hf =>
        cases hm
        exact free_asked hf

/-- Whatever the headers say, the block handed out is labelled with the units wanted, and `sbrk` is
asked for the same number of bytes each time. -/
theorem mallocLoop_ok (fuel : Nat) : ∀ (h : Heap) (prevp p : Word),
    mallocLoop sbrk nunits fuel h prevp p = some (r, h') →
      (r = 0#32 ∨ h'.size (r - 8#32) = nunits) ∧
      ∃ new, h'.asked = new ++ h.asked ∧ ∀ n ∈ new, n = coreUnits nunits * 8#32 := by
  induction fuel with
  | zero =>
    intro h prevp p hm
    cases hm
  | succ fuel ih =>
    intro h prevp p hm
    rw [mallocLoop] at hm
    split at hm
    · refine ⟨.inr ?_, ?_⟩
      · split at hm
        · next hsize =>
            cases hm
            rw [after_one_sub]
            exact hsize
        · cases hm
          rw [after_one_sub]
          exact Function.update_self ..
      · refine ⟨[], ?_, by simp⟩
        split at hm <;> cases hm <;> rfl
    · split at hm
      · split at hm
        · cases hm
        · next q h1 hcore =>
            have hasked := morecore_asked hcore
            split at hm
            · cases hm
              exact ⟨.inl rfl, [_], hasked, by simp⟩
            · obtain ⟨hr, new, hnew, hall⟩ := ih _ _ _ hm
              refine ⟨hr, new ++ [coreUnits nunits * 8#32], ?_, ?_⟩
              · rw [hnew, hasked, List.append_assoc]
                rfl
              · intro n hn
                rcases List.mem_append.mp hn with hn | hn
                · exact hall n hn
                · exact List.mem_singleton.mp hn
      · exact ih _ _ _ hm

theorem unitsFor_toNat (hn : nbytes.toNat ≤ 2 ^ 31 - 16) :
    (unitsFor nbytes).toNat = (nbytes.toNat + 7) / 8 + 1 := by
  have hsum : (nbytes + 8#32 - 1#32).toNat = nbytes.toNat + 7 := by bv_omega
  rw [unitsFor, BitVec.toNat_add, BitVec.toNat_udiv, hsum]
  exact Nat.mod_eq_of_lt (show (nbytes.toNat + 7) / 8 + 1 < 2 ^ 32 by omega)

theorem coreUnits_toNat (nunits : Word) :
    (coreUnits nunits).toNat = max nunits.toNat 4096 := by
  unfold coreUnits
  split
  · next hlt =>
      rw [BitVec.lt_def] at hlt
      simp only [BitVec.toNat_ofNat] at *
      omega
  · next hge =>
      rw [BitVec.lt_def] at hge
      simp only [BitVec.toNat_ofNat] at *
      omega

theorem start_asked (h : Heap) : (start base h).asked = h.asked := by
  unfold start
  split <;> rfl

theorem mallocOk_of_le (hn : nbytes.toNat ≤ 2 ^ 31 - 16) (h : Heap) :
    MallocOk base sbrk nbytes h := by
  intro fuel r h' hm
  have hunits := unitsFor_toNat hn
  have hcore := coreUnits_toNat (unitsFor nbytes)
  have hbytes : (coreUnits (unitsFor nbytes) * 8#32).toNat =
      (coreUnits (unitsFor nbytes)).toNat * 8 := by
    rw [BitVec.toNat_mul, BitVec.toNat_ofNat]
    omega
  obtain ⟨hr, new, hnew, hall⟩ := mallocLoop_ok fuel _ _ _ hm
  refine ⟨hr.imp id fun hr => ?_, new, by rw [hnew, start_asked], fun n hn => ?_⟩
  · rw [hr, hunits]
    omega
  · have hint : (coreUnits (unitsFor nbytes) * 8#32).toInt =
        ((coreUnits (unitsFor nbytes)).toNat * 8 : Nat) := by
      rw [BitVec.toInt_eq_toNat_cond, hbytes, if_pos (by omega)]
    rw [hall n hn, hint]
    omega

/-- Asked for more, `malloc` either rounds the request up past `2 ^ 32` or wants more bytes than an
`int` can hold. -/
theorem unitsFor_of_gt (hn : 2 ^ 31 - 16 < nbytes.toNat) :
    unitsFor nbytes = 1#32 ∨
      2 ^ 28 ≤ (unitsFor nbytes).toNat ∧ (unitsFor nbytes).toNat ≤ 2 ^ 29 := by
  have hlt := nbytes.isLt
  have hdiv : (unitsFor nbytes).toNat = ((nbytes + 8#32 - 1#32).toNat / 8 + 1) % 2 ^ 32 := by
    rw [unitsFor, BitVec.toNat_add, BitVec.toNat_udiv]
    rfl
  by_cases hwrap : 2 ^ 32 ≤ nbytes.toNat + 7
  · have hsum : (nbytes + 8#32 - 1#32).toNat = nbytes.toNat + 7 - 2 ^ 32 := by bv_omega
    refine .inl (BitVec.eq_of_toNat_eq ?_)
    rw [hdiv, hsum, BitVec.toNat_ofNat]
    omega
  · have hsum : (nbytes + 8#32 - 1#32).toNat = nbytes.toNat + 7 := by bv_omega
    rw [hdiv, hsum]
    omega

end

/-! ### Requests near the top of the range -/

/-- A system that gives the least `morecore` asks for, once. -/
def sbrkOnce (asked : List Word) (n : Word) : Word :=
  if asked = [] ∧ n = 32768#32 then 4096#32 else -1#32

theorem sbrkOnce_fresh : Fresh 8#32 sbrkOnce := by
  refine ⟨by decide, by decide, fun asked n hne => ?_⟩
  unfold sbrkOnce at hne ⊢
  split at hne
  · next hc =>
      obtain ⟨rfl, rfl⟩ := hc
      decide
  · exact absurd rfl hne

/-- One unit is cut from the memory the first request gets. -/
theorem malloc_one_unit (nbytes : Word) (hu : unitsFor nbytes = 1#32) :
    ∃ h', (∀ n, malloc 8#32 sbrkOnce (n + 2) .init nbytes = some (36864#32, h')) ∧
      h'.size (36864#32 - 8#32) = 1#32 := by
  unfold malloc
  rw [hu]
  exact ⟨_, fun n => rfl, rfl⟩

theorem malloc_no_memory (nbytes : Word) (hu : 0 < (unitsFor nbytes).toNat) :
    ∃ h', malloc 8#32 (fun _ _ => -1#32) 1 .init nbytes = some (0#32, h') ∧
      h'.asked = [coreUnits (unitsFor nbytes) * 8#32] := by
  have hlt : ¬ unitsFor nbytes ≤ (start 8#32 .init).size 8#32 := by
    rw [BitVec.le_def]
    exact Nat.not_le.mpr hu
  refine ⟨{ start 8#32 .init with asked := [coreUnits (unitsFor nbytes) * 8#32] }, ?_, rfl⟩
  show mallocLoop _ _ _ (start 8#32 .init) 8#32 8#32 = _
  have hfreep : 8#32 = (start 8#32 .init).freep := rfl
  rw [mallocLoop, if_neg hlt, if_pos hfreep]
  rfl

/-- `malloc` keeps its promise for a request of `nbytes` in every state iff `nbytes` is at most
`2 ^ 31 - 16`. -/
theorem mallocOk_iff (nbytes : Word) :
    (∀ base sbrk s, Reachable base sbrk (2 ^ 32 - 1) s → MallocOk base sbrk nbytes s.heap) ↔
      nbytes.toNat ≤ 2 ^ 31 - 16 := by
  refine ⟨fun hall => ?_, fun hn base sbrk s _ => mallocOk_of_le hn s.heap⟩
  by_contra hgt
  rcases unitsFor_of_gt (Nat.lt_of_not_le hgt) with hone | ⟨hlo, hhi⟩
  · obtain ⟨h', hm, hsize⟩ := malloc_one_unit nbytes hone
    have hok := (hall 8#32 sbrkOnce ⟨.init, []⟩ (.start rfl) _ _ _ (hm 0)).1
    rw [hsize] at hok
    rcases hok with hzero | hle
    · exact absurd hzero (by decide)
    · rw [BitVec.toNat_ofNat] at hle
      omega
  · obtain ⟨h', hm, hasked⟩ := malloc_no_memory nbytes (by omega)
    obtain ⟨-, new, hnew, hint⟩ := hall 8#32 (fun _ _ => -1#32) ⟨.init, []⟩ (.start rfl) _ _ _ hm
    have hmem : coreUnits (unitsFor nbytes) * 8#32 ∈ new := by
      rw [hasked, show Heap.init.asked = [] from rfl, List.append_nil] at hnew
      rw [← hnew]
      exact List.mem_singleton_self _
    obtain ⟨hpos, heq⟩ := hint _ hmem
    have hcore := coreUnits_toNat (unitsFor nbytes)
    rw [heq] at hpos
    rw [BitVec.toInt_eq_toNat_cond, BitVec.toNat_mul, BitVec.toNat_ofNat] at heq
    split at heq <;> omega

/-- A request for all but one byte of the address space gets a block of a header alone. -/
theorem malloc_too_small : Fresh 8#32 sbrkOnce ∧
    ∃ h', Returns (fun fuel => malloc 8#32 sbrkOnce fuel .init (-1#32)) (36864#32, h') ∧
      (h'.size (36864#32 - 8#32)).toNat - 1 = 0 := by
  refine ⟨sbrkOnce_fresh, ?_⟩
  obtain ⟨h', hm, hsize⟩ := malloc_one_unit (-1#32) (by decide)
  exact ⟨h', .of_add hm, by rw [hsize]; rfl⟩

end Xv6.Umalloc
