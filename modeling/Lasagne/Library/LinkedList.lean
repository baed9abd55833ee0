import Mathlib

namespace LinkedList

def Forward (next : Nat → Nat) : Nat → List Nat → Prop
  | p, [] => p = 0
  | p, x :: xs => p = x ∧ x ≠ 0 ∧ Forward next (next x) xs

def Backward (prev : Nat → Nat) (xs : List Nat) : Prop :=
  xs.IsChain (fun x y => prev y = x)

variable {next next' prev prev' : Nat → Nat}

theorem Forward.head {p : Nat} {xs : List Nat} (h : Forward next p xs) : p = xs.headD 0 := by
  cases xs with
  | nil => exact h
  | cons x xs => exact h.1

theorem Forward.tail {p x : Nat} {xs : List Nat} (h : Forward next p (x :: xs)) :
    Forward next (next x) xs := h.2.2

theorem Forward.nil_iff {p : Nat} {xs : List Nat} (h : Forward next p xs) : p = 0 ↔ xs = [] := by
  cases xs with
  | nil => simpa [Forward] using h
  | cons x xs => simp [h.1, h.2.1]

theorem Forward.congr {p : Nat} {xs : List Nat} (h : Forward next p xs)
    (hn : ∀ y ∈ xs, next' y = next y) : Forward next' p xs := by
  induction xs generalizing p with
  | nil => exact h
  | cons x xs ih =>
    refine ⟨h.1, h.2.1, ?_⟩
    rw [hn x (by simp)]
    exact ih h.tail (fun y hy => hn y (by simp [hy]))

theorem Forward.push {p x : Nat} {xs : List Nat} (h : Forward next p xs) (hx : x ≠ 0)
    (hnx : next' x = p) (hn : ∀ y ∈ xs, next' y = next y) : Forward next' x (x :: xs) := by
  refine ⟨rfl, hx, ?_⟩
  rw [hnx]
  exact h.congr hn

theorem Forward.split {p : Nat} {xs ys : List Nat} (h : Forward next p (xs ++ ys)) :
    ∃ q, Forward next q ys := by
  induction xs generalizing p with
  | nil => exact ⟨p, h⟩
  | cons x xs ih => exact ih h.tail

theorem Forward.next_eq {p b : Nat} {xs ys : List Nat} (h : Forward next p (xs ++ b :: ys)) :
    next b = ys.headD 0 := by
  obtain ⟨q, hq⟩ := h.split
  exact hq.tail.head

theorem Forward.remove {p a b : Nat} {xs ys : List Nat}
    (h : Forward next p (xs ++ a :: b :: ys)) (ha : next' a = next b)
    (hx : ∀ y ∈ xs, next' y = next y) (hy : ∀ y ∈ ys, next' y = next y) :
    Forward next' p (xs ++ a :: ys) := by
  induction xs generalizing p with
  | nil =>
    refine ⟨h.1, h.2.1, ?_⟩
    rw [ha]
    exact h.tail.tail.congr hy
  | cons x xs ih =>
    refine ⟨h.1, h.2.1, ?_⟩
    rw [hx x (by simp)]
    exact ih h.tail (fun y hy => hx y (by simp [hy]))

theorem Backward.tail {x : Nat} {xs : List Nat} (h : Backward prev (x :: xs)) :
    Backward prev xs := List.IsChain.tail h

theorem Backward.congr {x : Nat} {xs : List Nat} (h : Backward prev (x :: xs))
    (hp : ∀ y ∈ xs, prev' y = prev y) : Backward prev' (x :: xs) := by
  induction xs generalizing x with
  | nil => exact List.isChain_singleton x
  | cons y xs ih =>
    rw [Backward, List.isChain_cons_cons] at h ⊢
    refine ⟨?_, ih h.2 (fun z hz => hp z (by simp [hz]))⟩
    rw [hp y (by simp)]
    exact h.1

theorem Backward.push {x : Nat} {xs : List Nat} (h : Backward prev xs)
    (hh : ∀ y ∈ xs.head?, prev' y = x) (hp : ∀ y ∈ xs.tail, prev' y = prev y) :
    Backward prev' (x :: xs) := by
  cases xs with
  | nil => exact List.isChain_singleton x
  | cons y xs =>
    rw [Backward, List.isChain_cons_cons]
    exact ⟨hh y (by simp), Backward.congr h hp⟩

theorem Backward.prev_eq {a b : Nat} {xs ys : List Nat} (h : Backward prev (xs ++ a :: b :: ys)) :
    prev b = a := by
  induction xs with
  | nil => exact (List.isChain_cons_cons.mp h).1
  | cons x xs ih => exact ih h.tail

theorem Backward.remove {a b : Nat} {xs ys : List Nat} (h : Backward prev (xs ++ a :: b :: ys))
    (hh : ∀ y ∈ ys.head?, prev' y = a) (hx : ∀ y ∈ xs ++ [a], prev' y = prev y)
    (hy : ∀ y ∈ ys.tail, prev' y = prev y) : Backward prev' (xs ++ a :: ys) := by
  induction xs with
  | nil => exact Backward.push (Backward.tail (Backward.tail h)) hh hy
  | cons x xs ih =>
    have htail := ih h.tail (fun y hy => hx y (by simp at hy ⊢; tauto))
    cases xs with
    | nil =>
      rw [List.cons_append, List.nil_append, Backward, List.isChain_cons_cons]
      refine ⟨?_, htail⟩
      rw [hx a (by simp)]
      exact (List.isChain_cons_cons.mp h).1
    | cons z xs =>
      rw [List.cons_append, List.cons_append, Backward, List.isChain_cons_cons]
      refine ⟨?_, htail⟩
      rw [hx z (by simp)]
      exact (List.isChain_cons_cons.mp h).1

end LinkedList
