import Mathlib.Data.List.Nodup
import Mathlib.Logic.Function.Basic
import Mathlib.Tactic.Common

/-!
# Xv6.Lib.Dlist

Circular doubly linked lists with a head that is not an element. A node is an element or the
head, which is written `none`; a list has the links `next` and `prev` of every node.

`Links f a l` says that `l` is met along the links `f` from the node `a` to the head. A
doubly linked list of `l` is one of `l` along `next` and one of its reverse along `prev`
(`Dlist.Circ`), so that each operation is two facts about single links.
-/

namespace Xv6

open Function (update update_self update_of_ne)

variable {β : Type} {f g : Option β → Option β} {a : Option β} {b c : β} {l l1 l2 : List β}

/-- The elements between a node and the head. -/
def Links (f : Option β → Option β) : Option β → List β → Prop
  | a, [] => f a = none
  | a, b :: l => f a = some b ∧ Links f (some b) l

/-- The last node. -/
def lastNode : Option β → List β → Option β
  | a, [] => a
  | _, b :: l => lastNode (some b) l

theorem Links.head (h : Links f a l) : f a = l.head? := by
  cases l with
  | nil => exact h
  | cons b l => exact h.1

theorem Links.congr (h : Links f a l) (ha : g a = f a) (hl : ∀ b ∈ l, g (some b) = f (some b)) :
    Links g a l := by
  induction l generalizing a with
  | nil => exact ha.trans h
  | cons b l ih =>
    exact ⟨ha.trans h.1, ih h.2 (hl b List.mem_cons_self)
      fun c hc => hl c (List.mem_cons_of_mem _ hc)⟩

theorem Links.after (h : Links f a (l1 ++ b :: l2)) : Links f (some b) l2 := by
  induction l1 generalizing a with
  | nil => exact h.2
  | cons c l1 ih => exact ih h.2

theorem lastNode_append (a : Option β) (l1 : List β) (b : β) (l2 : List β) :
    lastNode a (l1 ++ b :: l2) = lastNode (some b) l2 := by
  induction l1 generalizing a with
  | nil => rfl
  | cons c l1 ih => exact ih (some c)

theorem lastNode_reverse (l : List β) : lastNode none l.reverse = l.head? := by
  cases l with
  | nil => rfl
  | cons b l =>
    rw [List.reverse_cons, lastNode_append]
    rfl

theorem lastNode_eq_getLast? (l : List β) : lastNode none l = l.reverse.head? := by
  rw [← lastNode_reverse, List.reverse_reverse]

theorem lastNode_mem (a : Option β) (l : List β) :
    lastNode a l = a ∨ ∃ b ∈ l, lastNode a l = some b := by
  induction l generalizing a with
  | nil => exact .inl rfl
  | cons b l ih =>
    right
    rcases ih (some b) with h | ⟨c, hc, h⟩
    · exact ⟨b, List.mem_cons_self, h⟩
    · exact ⟨c, List.mem_cons_of_mem _ hc, h⟩

section
variable [DecidableEq β]

theorem Links.skip (h : Links f (some b) l) (ha : ∀ c ∈ l, a ≠ some c) :
    Links (update f a (f (some b))) a l := by
  cases l with
  | nil => exact (update_self ..).trans h
  | cons c l =>
    refine ⟨(update_self ..).trans h.1, h.2.congr ?_ fun d hd => ?_⟩
    · exact update_of_ne (ha c List.mem_cons_self).symm ..
    · exact update_of_ne (ha d (List.mem_cons_of_mem _ hd)).symm ..

theorem Links.remove (h : Links f a (l1 ++ b :: l2)) (hnd : (l1 ++ b :: l2).Nodup)
    (ha : ∀ c ∈ l1 ++ b :: l2, a ≠ some c) :
    Links (update f (lastNode a l1) (f (some b))) a (l1 ++ l2) := by
  induction l1 generalizing a with
  | nil => exact h.2.skip fun c hc => ha c (List.mem_cons_of_mem _ hc)
  | cons c l1 ih =>
    obtain ⟨hc, hnd⟩ := List.nodup_cons.mp hnd
    refine ⟨?_, ih h.2 hnd fun d hd hcd => hc (Option.some.inj hcd ▸ hd)⟩
    -- the last node is not `a`, which has `c` behind it
    have hne : a ≠ lastNode (some c) l1 := by
      rcases lastNode_mem (some c) l1 with hl | ⟨d, hd, hl⟩
      · rw [hl]
        exact ha c List.mem_cons_self
      · rw [hl]
        exact ha d (List.mem_cons_of_mem _ (List.mem_append_left _ hd))
    exact (update_of_ne hne ..).trans h.1

theorem Links.cons (h : Links f none l) (hb : b ∉ l) :
    Links (update (update f (some b) (f none)) none (some b)) none (b :: l) := by
  have hne : ∀ {c}, c ∈ l → some c ≠ some b := fun hc hcb => hb (Option.some.inj hcb ▸ hc)
  refine ⟨update_self .., ?_⟩
  have hfirst : update (update f (some b) (f none)) none (some b) (some b) = f none := by
    rw [update_of_ne (Option.some_ne_none b), update_self]
  cases l with
  | nil => exact hfirst.trans h
  | cons c l =>
    have hsame : ∀ d ∈ c :: l, update (update f (some b) (f none)) none (some b) (some d) =
        f (some d) := fun d hd => by
      rw [update_of_ne (Option.some_ne_none d), update_of_ne (hne hd)]
    exact ⟨hfirst.trans h.1, h.2.congr (hsame c List.mem_cons_self)
      fun d hd => hsame d (List.mem_cons_of_mem _ hd)⟩

theorem Links.concat (h : Links f a l) (hb : b ∉ l) (hab : a ≠ some b) (hnd : l.Nodup)
    (ha : ∀ c ∈ l, a ≠ some c) :
    Links (update (update f (some b) none) (lastNode a l) (some b)) a (l ++ [b]) := by
  induction l generalizing a with
  | nil =>
    refine ⟨update_self .., ?_⟩
    show update (update f (some b) none) a (some b) (some b) = none
    rw [update_of_ne hab.symm, update_self]
  | cons c l ih =>
    obtain ⟨hc, hnd⟩ := List.nodup_cons.mp hnd
    have hcb : some c ≠ some b := fun hcb => hb (Option.some.inj hcb ▸ List.mem_cons_self)
    refine ⟨?_, ih h.2 (fun hm => hb (List.mem_cons_of_mem _ hm)) hcb hnd
      fun d hd hcd => hc (Option.some.inj hcd ▸ hd)⟩
    have hne : a ≠ lastNode (some c) l := by
      rcases lastNode_mem (some c) l with hl | ⟨d, hd, hl⟩
      · rw [hl]
        exact ha c List.mem_cons_self
      · rw [hl]
        exact ha d (List.mem_cons_of_mem _ hd)
    show update (update f (some b) none) (lastNode (some c) l) (some b) a = some c
    rw [update_of_ne hne, update_of_ne hab]
    exact h.1

end

/-- The first element along the links for which `p` holds, at most `fuel` links away. -/
def firstLink (f : Option β → Option β) (p : β → Bool) : Nat → Option β → Option β
  | 0, _ => none
  | fuel + 1, a =>
    match f a with
    | none => none
    | some b => if p b then some b else firstLink f p fuel (some b)

theorem Links.firstLink {p : β → Bool} {fuel : Nat} (h : Links f a l) (hlen : l.length ≤ fuel) :
    firstLink f p fuel a = l.find? p := by
  induction fuel generalizing a l with
  | zero =>
    cases List.length_eq_zero_iff.mp (Nat.le_zero.mp hlen)
    rfl
  | succ fuel ih =>
    rw [Xv6.firstLink]
    cases l with
    | nil =>
      have h : f a = none := h
      rw [h]
      rfl
    | cons b l =>
      rw [h.1, List.find?_cons]
      dsimp only
      cases p b with
      | true => rfl
      | false => exact ih h.2 (Nat.le_of_succ_le_succ hlen)

/-! ### Doubly linked lists -/

/-- The links of every node. -/
structure Dlist (β : Type) where
  next : Option β → Option β
  prev : Option β → Option β

namespace Dlist

/-- A circular list of `l`. -/
structure Circ (d : Dlist β) (l : List β) : Prop where
  next : Links d.next none l
  prev : Links d.prev none l.reverse
  nodup : l.Nodup

/-- The empty list. -/
def empty : Dlist β := ⟨fun _ => none, fun _ => none⟩

theorem circ_empty : Circ (empty : Dlist β) [] := ⟨rfl, rfl, List.nodup_nil⟩

variable [DecidableEq β]

/-- `b->next->prev = b->prev; b->prev->next = b->next`. -/
def unlink (d : Dlist β) (b : β) : Dlist β :=
  let d := { d with prev := update d.prev (d.next (some b)) (d.prev (some b)) }
  { d with next := update d.next (d.prev (some b)) (d.next (some b)) }

/-- `b->next = head.next; b->prev = &head; head.next->prev = b; head.next = b`. -/
def push (d : Dlist β) (b : β) : Dlist β :=
  let d := { d with next := update d.next (some b) (d.next none) }
  let d := { d with prev := update d.prev (some b) none }
  let d := { d with prev := update d.prev (d.next none) (some b) }
  { d with next := update d.next none (some b) }

variable {d : Dlist β}

theorem Circ.unlink (h : d.Circ (l1 ++ b :: l2)) : (d.unlink b).Circ (l1 ++ l2) := by
  have hrev : (l1 ++ b :: l2).reverse = l2.reverse ++ b :: l1.reverse := by simp
  have hprev := hrev ▸ h.prev
  -- the neighbours of `b`
  have hn : d.next (some b) = lastNode none l2.reverse := by
    rw [h.next.after.head, lastNode_reverse]
  have hp : d.prev (some b) = lastNode none l1 := by
    rw [hprev.after.head, lastNode_eq_getLast?]
  have hbn : some b ≠ d.next (some b) := by
    rw [h.next.after.head]
    intro hb
    exact (List.nodup_cons.mp h.nodup.of_append_right).1 (List.mem_of_mem_head? hb.symm)
  refine ⟨?_, ?_, ?_⟩
  · show Links (update d.next (update d.prev _ _ (some b)) _) none _
    rw [update_of_ne hbn, hp]
    exact h.next.remove h.nodup nofun
  · show Links (update d.prev (d.next (some b)) (d.prev (some b))) none _
    rw [hn, List.reverse_append]
    exact hprev.remove (hrev ▸ List.nodup_reverse.mpr h.nodup) nofun
  · exact h.nodup.sublist (List.Sublist.append_left (List.sublist_cons_self b l2) l1)

theorem Circ.push (h : d.Circ l) (hb : b ∉ l) : (d.push b).Circ (b :: l) := by
  refine ⟨h.next.cons hb, ?_, List.nodup_cons.mpr ⟨hb, h.nodup⟩⟩
  have hhead : update d.next (some b) (d.next none) none = lastNode none l.reverse := by
    rw [update_of_ne (Option.some_ne_none b).symm, h.next.head, lastNode_reverse]
  show Links (update (update d.prev (some b) none)
    (update d.next (some b) (d.next none) none) (some b)) none (b :: l).reverse
  rw [hhead, List.reverse_cons]
  exact h.prev.concat (by simpa using hb) nofun (List.nodup_reverse.mpr h.nodup) nofun

theorem Circ.foldl_push {bs : List β} (h : d.Circ l) (hnd : (bs.reverse ++ l).Nodup) :
    (bs.foldl Dlist.push d).Circ (bs.reverse ++ l) := by
  induction bs generalizing d l with
  | nil => exact h
  | cons b bs ih =>
    rw [List.reverse_cons, List.append_assoc] at hnd ⊢
    refine ih (h.push fun hb => ?_) hnd
    exact (List.nodup_cons.mp hnd.of_append_right).1 hb

end Dlist

end Xv6
