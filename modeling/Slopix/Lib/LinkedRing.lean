import Mathlib.Data.List.Perm.Basic

/-!
# Doubly linked rings

Circular doubly linked lists with a head node, over an arbitrary type of nodes. `IsRing L h l` says
that following `next` from the head `h` visits the nodes of `l` and comes back to `h`, and that
`prev` undoes `next`. `moveFront_isRing` is the list surgery of a least-recently-used list, and
`scan_next` and `scan_prev` turn a pointer-chasing search into `List.find?`.
-/

namespace Slopix.Lib

open Function List

universe u

/-- The `next` and `prev` fields of all nodes. -/
structure Links (α : Type u) where
  next : α → α
  prev : α → α

namespace Links

variable {α : Type u}

/-- `next` leads from `a` through `l` to `b`, and `prev` back. -/
def Linked (L : Links α) : α → List α → α → Prop
  | a, [], b => L.next a = b ∧ L.prev b = a
  | a, x :: xs, b => L.next a = x ∧ L.prev x = a ∧ Linked L x xs b

/-- A ring of distinct nodes with head `h`. -/
def IsRing (L : Links α) (h : α) (l : List α) : Prop := (h :: l).Nodup ∧ L.Linked h l h

/-- The same links read backwards. -/
def flip (L : Links α) : Links α := ⟨L.prev, L.next⟩

theorem linked_append (L : Links α) (a b c : α) (l1 l2 : List α) :
    L.Linked a (l1 ++ b :: l2) c ↔ L.Linked a l1 b ∧ L.Linked b l2 c := by
  induction l1 generalizing a with
  | nil => simp [Linked, and_assoc]
  | cons x xs ih => simp [Linked, ih, and_assoc]

variable {L : Links α}

theorem linked_flip {a b : α} {l : List α} (h : L.Linked a l b) :
    L.flip.Linked b l.reverse a := by
  induction l generalizing a with
  | nil => exact ⟨h.2, h.1⟩
  | cons x xs ih =>
    rw [reverse_cons, linked_append]
    exact ⟨ih h.2.2, h.2.1, h.1⟩

/-- A segment depends only on `next` at its sources and `prev` at its targets. -/
theorem linked_congr {L' : Links α} {a b : α} {l : List α} (h : L.Linked a l b)
    (hn : ∀ x ∈ a :: l, L'.next x = L.next x) (hp : ∀ x ∈ b :: l, L'.prev x = L.prev x) :
    L'.Linked a l b := by
  induction l generalizing a with
  | nil => exact ⟨by rw [hn a (by simp)]; exact h.1, by rw [hp b (by simp)]; exact h.2⟩
  | cons x xs ih =>
    refine ⟨by rw [hn a (by simp)]; exact h.1, by rw [hp x (by simp)]; exact h.2.1, ?_⟩
    refine ih h.2.2 (fun y hy => hn y (mem_cons_of_mem _ hy)) (fun y hy => hp y ?_)
    rcases mem_cons.1 hy with rfl | hy
    · simp
    · simp [hy]

/-- The predecessor of the end of a segment lies on the segment. -/
theorem prev_mem_of_linked {a b : α} {l : List α} (h : L.Linked a l b) :
    L.prev b ∈ a :: l := by
  induction l generalizing a with
  | nil => rw [h.2]; simp
  | cons x xs ih => exact mem_cons_of_mem _ (ih h.2.2)

/-- Redirecting the last edge of a segment from `b` to `c`. -/
theorem linked_retarget {L' : Links α} {a b c : α} {l : List α} (h : L.Linked a l b)
    (hnodup : (a :: l).Nodup) (hc : c ∉ l)
    (hn : ∀ x ∈ a :: l, x ≠ L.prev b → L'.next x = L.next x) (hnb : L'.next (L.prev b) = c)
    (hp : ∀ x, x ≠ c → L'.prev x = L.prev x) (hpc : L'.prev c = L.prev b) :
    L'.Linked a l c := by
  induction l generalizing a with
  | nil =>
    have ha : L.prev b = a := h.2
    exact ⟨by rw [← ha]; exact hnb, by rw [hpc]; exact ha⟩
  | cons x xs ih =>
    have hlast : L.prev b ∈ x :: xs := prev_mem_of_linked h.2.2
    have hane : a ≠ L.prev b := fun e => (nodup_cons.1 hnodup).1 (by rw [e]; exact hlast)
    refine ⟨by rw [hn a (by simp) hane]; exact h.1, ?_, ?_⟩
    · rw [hp x fun e => hc (by simp [e])]
      exact h.2.1
    · exact ih h.2.2 (nodup_cons.1 hnodup).2 (fun hm => hc (mem_cons_of_mem _ hm))
        fun y hy => hn y (mem_cons_of_mem _ hy)

/-! ## Searching along the ring -/

section

variable [DecidableEq α]

/-- Follow `step` from `x` until the head `h` or a node that satisfies `f`, for at most `fuel`
nodes. -/
def scan (step : α → α) (h : α) (f : α → Bool) : Nat → α → Option α
  | 0, _ => none
  | fuel + 1, x => if x = h then none else if f x then some x else scan step h f fuel (step x)

variable {L : Links α}

theorem scan_linked {h : α} (f : α → Bool) (l : List α) :
    ∀ (a : α) (fuel : Nat), L.Linked a l h → h ∉ l → l.length < fuel →
      scan L.next h f fuel (L.next a) = l.find? f := by
  induction l with
  | nil =>
    intro a fuel hl _ hf
    obtain ⟨n, rfl⟩ : ∃ n, fuel = n + 1 := ⟨fuel - 1, by simp at hf; omega⟩
    simp [scan, hl.1]
  | cons x xs ih =>
    intro a fuel hl hh hf
    obtain ⟨n, rfl⟩ : ∃ n, fuel = n + 1 := ⟨fuel - 1, by simp at hf; omega⟩
    have hx : x ≠ h := fun e => hh (by simp [e])
    rw [hl.1]
    simp only [scan, if_neg hx, List.find?_cons]
    cases hfx : f x with
    | true => simp
    | false =>
      exact ih x n hl.2.2 (fun hm => hh (mem_cons_of_mem _ hm)) (by simpa using hf)

theorem scan_next {h : α} {l : List α} (hr : L.IsRing h l) (f : α → Bool)
    {fuel : Nat} (hf : l.length < fuel) : scan L.next h f fuel (L.next h) = l.find? f :=
  scan_linked f l h fuel hr.2 (nodup_cons.1 hr.1).1 hf

/-- A backward search visits the nodes in reverse ring order. -/
theorem scan_prev {h : α} {l : List α} (hr : L.IsRing h l) (f : α → Bool)
    {fuel : Nat} (hf : l.length < fuel) : scan L.prev h f fuel (L.prev h) = l.reverse.find? f := by
  have hnot : h ∉ l.reverse := by simpa using (nodup_cons.1 hr.1).1
  exact scan_linked (L := L.flip) f l.reverse h fuel (linked_flip hr.2) hnot (by simpa using hf)

end

/-! ## List surgery -/

section

variable [DecidableEq α]

/-- Take node `b` out: `b->next->prev = b->prev; b->prev->next = b->next`. -/
def unlink (L : Links α) (b : α) : Links α :=
  let L1 : Links α := { L with prev := Function.update L.prev (L.next b) (L.prev b) }
  { L1 with next := Function.update L1.next (L1.prev b) (L1.next b) }

/-- Put node `b` after the head `h`: `b->next = h->next; b->prev = h; h->next->prev = b;
h->next = b`. -/
def pushFront (L : Links α) (h b : α) : Links α :=
  let L1 : Links α := { L with next := Function.update L.next b (L.next h) }
  let L2 : Links α := { L1 with prev := Function.update L1.prev b h }
  let L3 : Links α := { L2 with prev := Function.update L2.prev (L2.next h) b }
  { L3 with next := Function.update L3.next h b }

variable {L : Links α}

/-- A ring without one of its nodes. -/
theorem unlink_isRing {h b : α} {l1 l2 : List α}
    (hr : L.IsRing h (l1 ++ b :: l2)) : (L.unlink b).IsRing h (l1 ++ l2) := by
  obtain ⟨hnd, hl⟩ := hr
  rw [linked_append] at hl
  obtain ⟨h1, h2⟩ := hl
  have hnd' : (h :: (l1 ++ l2)).Nodup := by
    refine hnd.sublist (List.Sublist.cons_cons h ?_)
    exact (List.Sublist.refl l1).append (sublist_cons_self b l2)
  have hbh : b ≠ h := fun e => (nodup_cons.1 hnd).1 (by simp [e])
  have hb2 : b ∉ l2 := by
    have := (nodup_append.1 (nodup_cons.1 hnd).2).2.1
    exact (nodup_cons.1 this).1
  have hnd1 : (h :: l1).Nodup :=
    hnd.sublist (List.Sublist.cons_cons h (sublist_append_left _ _))
  -- `n` is the successor of `b`: the first node of `l2`, or the head
  have hnb : L.next b ≠ b := by
    cases l2 with
    | nil => rw [h2.1]; exact hbh.symm
    | cons n l3 => rw [h2.1]; exact fun e => hb2 (by simp [e])
  have hprev : (L.unlink b).prev = update L.prev (L.next b) (L.prev b) := rfl
  have hnext : (L.unlink b).next = update L.next (L.prev b) (L.next b) := by
    show update L.next (update L.prev (L.next b) (L.prev b) b) (L.next b) = _
    rw [update_of_ne hnb.symm]
  have hcut : ∀ c, c ∉ l1 → L.next b = c → (L.unlink b).Linked h l1 c := by
    intro c hc hbc
    refine linked_retarget h1 hnd1 hc (fun x _ hx => ?_) ?_ (fun x hx => ?_) ?_
    · rw [hnext, update_of_ne hx]
    · rw [hnext, update_self, hbc]
    · rw [hprev, hbc, update_of_ne hx]
    · rw [hprev, hbc, update_self]
  refine ⟨hnd', ?_⟩
  cases l2 with
  | nil =>
    rw [append_nil]
    exact hcut h (nodup_cons.1 hnd1).1 h2.1
  | cons n l3 =>
    have hdisj := nodup_append.1 (nodup_cons.1 hnd').2
    have hpb : L.prev b ∈ h :: l1 := prev_mem_of_linked h1
    rw [linked_append]
    refine ⟨hcut n (fun hm => hdisj.2.2 n hm n (by simp) rfl) h2.1, ?_⟩
    refine linked_congr h2.2.2 (fun x hx => ?_) (fun x hx => ?_)
    · rw [hnext, update_of_ne]
      rintro rfl
      rcases mem_cons.1 hpb with e | hm
      · exact (nodup_cons.1 hnd').1 (by rw [← e]; simp only [mem_append, hx, or_true])
      · exact hdisj.2.2 _ hm _ hx rfl
    rw [hprev, update_of_ne]
    rintro rfl
    rw [h2.1] at hx
    rcases mem_cons.1 hx with e | hm
    · exact (nodup_cons.1 hnd').1 (by rw [← e]; simp)
    · exact (nodup_cons.1 hdisj.2.1).1 hm

/-- A ring with a new node behind its head. -/
theorem pushFront_isRing {h b : α} {l : List α} (hr : L.IsRing h l)
    (hb : b ∉ h :: l) : (L.pushFront h b).IsRing h (b :: l) := by
  obtain ⟨hnd, hl⟩ := hr
  have hbh : b ≠ h := fun e => hb (by simp [e])
  have hbl : b ∉ l := fun hm => hb (mem_cons_of_mem _ hm)
  have hnext : (L.pushFront h b).next = update (update L.next b (L.next h)) h b :=
    rfl
  have hprev : (L.pushFront h b).prev = update (update L.prev b h) (L.next h) b := by
    show update (update L.prev b h) (update L.next b (L.next h) h) b = _
    rw [update_of_ne hbh.symm]
  refine ⟨?_, by rw [hnext, update_self], ?_, ?_⟩
  · refine nodup_cons.2 ⟨?_, nodup_cons.2 ⟨hbl, (nodup_cons.1 hnd).2⟩⟩
    intro hm
    rcases mem_cons.1 hm with e | hm
    · exact hbh e.symm
    · exact (nodup_cons.1 hnd).1 hm
  · have hne : b ≠ L.next h := by
      cases l with
      | nil => rw [hl.1]; exact hbh
      | cons n l3 => rw [hl.1]; exact fun e => hbl (by simp [e])
    rw [hprev, update_of_ne hne, update_self]
  cases l with
  | nil =>
    refine ⟨?_, ?_⟩
    · rw [hnext, update_of_ne hbh, update_self]
      exact hl.1
    · rw [hprev, hl.1, update_self]
  | cons n l3 =>
    refine ⟨?_, ?_, ?_⟩
    · rw [hnext, update_of_ne hbh, update_self]
      exact hl.1
    · rw [hprev, hl.1, update_self]
    have hnd3 := nodup_cons.1 (nodup_cons.1 hnd).2
    refine linked_congr hl.2.2 (fun x hx => ?_) (fun x hx => ?_)
    · have hxh : x ≠ h := fun e => (nodup_cons.1 hnd).1 (by rw [← e]; exact hx)
      have hxb : x ≠ b := fun e => hbl (by rw [← e]; exact hx)
      rw [hnext, update_of_ne hxh, update_of_ne hxb]
    have hxn : x ≠ L.next h := by
      rw [hl.1]
      rintro rfl
      rcases mem_cons.1 hx with e | hm
      · exact (nodup_cons.1 hnd).1 (by simp [e])
      · exact hnd3.1 hm
    have hxb : x ≠ b := by
      rintro rfl
      rcases mem_cons.1 hx with e | hm
      · exact hbh e
      · exact hbl (mem_cons_of_mem _ hm)
    rw [hprev, update_of_ne hxn, update_of_ne hxb]

/-- **Moving a node to the front of the ring.** -/
theorem moveFront_isRing {h b : α} {l : List α} (hr : L.IsRing h l) (hb : b ∈ l) :
    ((L.unlink b).pushFront h b).IsRing h (b :: l.erase b) := by
  obtain ⟨l1, l2, hb1, rfl, herase⟩ := exists_erase_eq hb
  have hnd := hr.1
  rw [herase]
  refine pushFront_isRing (unlink_isRing hr) fun hm => ?_
  rcases mem_cons.1 hm with e | hm
  · exact (nodup_cons.1 hnd).1 (by simp [← e])
  have h2 := (nodup_append.1 (nodup_cons.1 hnd).2).2.1
  rcases mem_append.1 hm with hm | hm
  · exact hb1 hm
  · exact (nodup_cons.1 h2).1 hm

end

end Links

end Slopix.Lib
