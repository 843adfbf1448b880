import Mathlib.Data.List.Basic
import Mathlib.Data.List.Induction
import Mathlib.Data.List.Nodup
import Mathlib.Logic.Function.Basic
import Mathlib.Tactic.Common

/-!
# Doubly linked rings

The nodes of a ring are linked to the next one and to the one before, and the ring closes at a head
that is no element of it, written `none`. `Linked` says that the links are those of a list; the
operations on links are operations on the list, and a loop along the links searches it.
-/

namespace SsuOs.Links

variable {α : Type*}

structure NodeRing (α : Type*) where
  next : Option α → Option α
  prev : Option α → Option α

namespace NodeRing

/-- The same ring, walked the other way. -/
def flip (r : NodeRing α) : NodeRing α := ⟨r.prev, r.next⟩

/-- From `x` the links lead over the elements of a list to `y`, and back. -/
def Segment (r : NodeRing α) : Option α → List α → Option α → Prop
  | x, [], y => r.next x = y ∧ r.prev y = x
  | x, a :: l, y => r.next x = some a ∧ r.prev (some a) = x ∧ Segment r (some a) l y

/-- The ring has the elements of the list, in this order. -/
structure Linked (r : NodeRing α) (l : List α) : Prop where
  segment : r.Segment none l none
  nodup : l.Nodup

/-- The loop that follows links until it comes to an element it looks for, or to the head. -/
def scan (link : Option α → Option α) (p : α → Bool) : ℕ → Option α → Option α
  | 0, _ => none
  | _ + 1, none => none
  | n + 1, some a => if p a then some a else scan link p n (link (some a))

variable {r : NodeRing α} {x y : Option α} {a : α} {l m : List α}

theorem segment_append_cons :
    r.Segment x (l ++ a :: m) y ↔ r.Segment x l (some a) ∧ r.Segment (some a) m y := by
  induction l generalizing x with
  | nil => simp [Segment, and_assoc]
  | cons b l ih => simp [Segment, ih, and_assoc]

theorem segment_append_singleton :
    r.Segment x (l ++ [a]) y ↔ r.Segment x l (some a) ∧ r.next (some a) = y ∧ r.prev y = some a := by
  rw [segment_append_cons]
  rfl

theorem Segment.flip (segment : r.Segment x l y) : r.flip.Segment y l.reverse x := by
  induction l generalizing x with
  | nil => exact ⟨segment.2, segment.1⟩
  | cons a l ih =>
    obtain ⟨next, prev, rest⟩ := segment
    rw [List.reverse_cons, segment_append_singleton]
    exact ⟨ih rest, prev, next⟩

theorem Linked.flip (linked : r.Linked l) : r.flip.Linked l.reverse :=
  ⟨linked.segment.flip, List.nodup_reverse.2 linked.nodup⟩

/-- A segment depends on the links after its start and before its end. -/
theorem Segment.congr {r' : NodeRing α} (segment : r.Segment x l y)
    (next : ∀ z ∈ x :: l.map some, r'.next z = r.next z)
    (prev : ∀ z ∈ l.map some ++ [y], r'.prev z = r.prev z) : r'.Segment x l y := by
  induction l generalizing x with
  | nil =>
    refine ⟨?_, ?_⟩
    · rw [next x (by simp), segment.1]
    · rw [prev y (by simp), segment.2]
  | cons a l ih =>
    obtain ⟨first, back, rest⟩ := segment
    refine ⟨?_, ?_, ih rest ?_ ?_⟩
    · rw [next x (by simp), first]
    · rw [prev (some a) (by simp), back]
    · intro z mem
      exact next z (List.mem_cons_of_mem x (by simpa using mem))
    · intro z mem
      exact prev z (by simpa using Or.inr (by simpa using mem))

/-- A loop stops at what it looks for. -/
theorem of_scan {link : Option α → Option α} {p : α → Bool} {n : ℕ}
    (found : scan link p n x = some a) : p a = true := by
  induction n generalizing x with
  | zero => simp [scan] at found
  | succ n ih =>
    cases x with
    | none => simp [scan] at found
    | some b =>
      rw [scan] at found
      split_ifs at found with here
      · obtain rfl := Option.some.inj found
        exact here
      · exact ih found

/-- A loop along the links searches the list. -/
theorem Segment.scan_eq (segment : r.Segment x l none) (p : α → Bool) {n : ℕ}
    (enough : l.length < n) : scan r.next p n (r.next x) = l.find? p := by
  induction l generalizing x n with
  | nil =>
    cases n with
    | zero => exact absurd enough (Nat.not_lt_zero _)
    | succ n =>
      rw [segment.1]
      rfl
  | cons a l ih =>
    obtain ⟨first, -, rest⟩ := segment
    cases n with
    | zero => exact absurd enough (Nat.not_lt_zero _)
    | succ n =>
      rw [first, scan, List.find?_cons]
      cases p a with
      | true => rfl
      | false => exact ih rest (Nat.lt_of_succ_lt_succ enough)

theorem Linked.scan_next (linked : r.Linked l) (p : α → Bool) {n : ℕ} (enough : l.length < n) :
    scan r.next p n (r.next none) = l.find? p :=
  linked.segment.scan_eq p enough

theorem Linked.scan_prev (linked : r.Linked l) (p : α → Bool) {n : ℕ} (enough : l.length < n) :
    scan r.prev p n (r.prev none) = l.reverse.find? p :=
  linked.flip.segment.scan_eq p (by simpa using enough)

theorem Segment.prev_mem (segment : r.Segment x l y) : r.prev y ∈ x :: l.map some := by
  induction l generalizing x with
  | nil => simp [segment.2]
  | cons a l ih => exact List.mem_cons_of_mem x (ih segment.2.2)

/-- The head alone. -/
def empty : NodeRing α := ⟨fun _ => none, fun _ => none⟩

theorem linked_empty : (empty : NodeRing α).Linked [] := ⟨⟨rfl, rfl⟩, List.nodup_nil⟩

section Update

variable [DecidableEq α]

def setNext (r : NodeRing α) (x y : Option α) : NodeRing α := { r with next := Function.update r.next x y }

def setPrev (r : NodeRing α) (x y : Option α) : NodeRing α := { r with prev := Function.update r.prev x y }

/-- The neighbours of an element are linked to each other. -/
def unlink (r : NodeRing α) (a : α) : NodeRing α :=
  let r := r.setPrev (r.next (some a)) (r.prev (some a))
  r.setNext (r.prev (some a)) (r.next (some a))

/-- An element is linked in after the head. -/
def pushFront (r : NodeRing α) (a : α) : NodeRing α :=
  let r := r.setNext (some a) (r.next none)
  let r := r.setPrev (some a) none
  let r := r.setPrev (r.next none) (some a)
  r.setNext none (some a)

theorem next_pushFront (r : NodeRing α) (a : α) (z : Option α) : (r.pushFront a).next z =
    if z = none then some a else if z = some a then r.next none else r.next z := by
  simp only [NodeRing.pushFront, setNext, setPrev, Function.update_apply]

theorem prev_pushFront (r : NodeRing α) (a : α) (z : Option α) : (r.pushFront a).prev z =
    if z = r.next none then some a else if z = some a then none else r.prev z := by
  simp [NodeRing.pushFront, setNext, setPrev, Function.update_apply]

theorem Linked.pushFront (linked : r.Linked l) (new : a ∉ l) : (r.pushFront a).Linked (a :: l) := by
  refine ⟨⟨by simp [next_pushFront], ?_, ?_⟩, List.nodup_cons.2 ⟨new, linked.nodup⟩⟩
  · rw [prev_pushFront, if_neg, if_pos rfl]
    intro first
    cases l with
    | nil => simp [linked.segment.1] at first
    | cons b l =>
      rw [linked.segment.1] at first
      exact new (by simp [Option.some.inj first])
  · cases l with
    | nil =>
      have first := linked.segment.1
      exact ⟨by simp [next_pushFront, first], by simp [prev_pushFront, first]⟩
    | cons b l =>
      obtain ⟨first, -, rest⟩ := linked.segment
      have apart : b ∉ l := (List.nodup_cons.1 linked.nodup).1
      refine ⟨by simp [next_pushFront, first], by simp [prev_pushFront, first], rest.congr ?_ ?_⟩
      · intro z mem
        rw [next_pushFront, if_neg, if_neg]
        · rintro rfl
          exact new (by simpa using mem)
        · rintro rfl
          simp at mem
      · intro z mem
        rw [prev_pushFront, first, if_neg, if_neg]
        · rintro rfl
          exact new (List.mem_cons_of_mem b (by simpa using mem))
        · rintro rfl
          exact apart (by simpa using mem)

/-- A ring that is built up from elements has them in the order from the last to the first. -/
theorem linked_foldl_pushFront (nodup : l.Nodup) :
    (l.foldl NodeRing.pushFront NodeRing.empty).Linked l.reverse := by
  induction l using List.reverseRecOn with
  | nil => exact linked_empty
  | append_singleton l a ih =>
    obtain ⟨before, -, apart⟩ := List.nodup_append.1 nodup
    rw [List.foldl_append, List.reverse_append]
    apply (ih before).pushFront
    rw [List.mem_reverse]
    intro mem
    exact apart a mem a (List.mem_singleton_self a) rfl

theorem next_unlink (r : NodeRing α) (a : α) (z : Option α) : (r.unlink a).next z =
    if z = r.prev (some a) then r.next (some a) else r.next z := by
  have same : (r.setPrev (r.next (some a)) (r.prev (some a))).prev (some a) = r.prev (some a) := by
    simp only [setPrev, Function.update_apply, ite_eq_right_iff, implies_true]
  simp only [NodeRing.unlink, same, setNext, Function.update_apply]
  rfl

theorem prev_unlink (r : NodeRing α) (a : α) (z : Option α) : (r.unlink a).prev z =
    if z = r.next (some a) then r.prev (some a) else r.prev z := by
  simp only [NodeRing.unlink, setNext, setPrev, Function.update_apply]

theorem Segment.unlink (before : r.Segment x l (some a)) (behind : r.Segment (some a) m y)
    (nodup : (l ++ a :: m).Nodup) (start : x ∉ (l ++ a :: m).map some)
    (stop : y ∉ (l ++ a :: m).map some) : (r.unlink a).Segment x (l ++ m) y := by
  induction l generalizing x with
  | nil =>
    obtain ⟨next, prev⟩ := before
    rw [List.nil_append] at nodup start stop ⊢
    cases m with
    | nil =>
      obtain ⟨last, back⟩ := behind
      exact ⟨by rw [next_unlink, prev, if_pos rfl, last], by rw [prev_unlink, last, if_pos rfl, prev]⟩
    | cons b m =>
      obtain ⟨second, -, rest⟩ := behind
      refine ⟨by rw [next_unlink, prev, if_pos rfl, second],
        by rw [prev_unlink, second, if_pos rfl, prev], rest.congr ?_ ?_⟩
      · intro z mem
        rw [next_unlink, prev, if_neg]
        rintro rfl
        exact start (List.mem_cons_of_mem _ mem)
      · intro z mem
        rw [prev_unlink, second, if_neg]
        rintro rfl
        grind
  | cons c l ih =>
    obtain ⟨first, back, rest⟩ := before
    have last := rest.prev_mem
    rw [List.cons_append] at nodup start stop ⊢
    have inner := ih rest (List.nodup_cons.1 nodup).2
      (by simpa using (List.nodup_cons.1 nodup).1)
      (fun mem => stop (List.mem_cons_of_mem _ mem))
    refine ⟨?_, ?_, inner⟩
    · rw [next_unlink, if_neg, first]
      rintro rfl
      grind
    · rw [prev_unlink, if_neg, back]
      intro same
      cases m with
      | nil =>
        rw [behind.1] at same
        grind
      | cons b m =>
        rw [behind.1] at same
        grind

theorem Linked.unlink (linked : r.Linked (l ++ a :: m)) : (r.unlink a).Linked (l ++ m) := by
  obtain ⟨before, behind⟩ := segment_append_cons.1 linked.segment
  have sub : (l ++ m).Sublist (l ++ a :: m) := (List.sublist_cons_self a m).append_left l
  exact ⟨before.unlink behind linked.nodup (by simp) (by simp), linked.nodup.sublist sub⟩

/-- An element moves to the front. -/
theorem Linked.moveFront (linked : r.Linked l) (mem : a ∈ l) :
    ((r.unlink a).pushFront a).Linked (a :: l.erase a) := by
  obtain ⟨k, m, rfl⟩ := List.append_of_mem mem
  have apart : a ∉ k := fun memk =>
    (List.nodup_append.1 linked.nodup).2.2 a memk a List.mem_cons_self rfl
  have erased : (k ++ a :: m).erase a = k ++ m := by
    rw [List.erase_append_right _ apart, List.erase_cons_head]
  rw [erased]
  apply linked.unlink.pushFront
  rw [← erased]
  exact linked.nodup.not_mem_erase

end Update

end NodeRing

end SsuOs.Links
