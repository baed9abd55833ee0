import Mathlib

namespace SelectionSort
variable {α β : Type*} [LinearOrder β] (key : α → β)

-- m is the smallest element met so far, with its index
def pick (m : α × Nat) : Nat → List α → α × Nat
  | _, [] => m
  | j, y :: ys => pick (if key y < key m.1 then (y, j) else m) (j + 1) ys

def exchange (x : α) (xs : List α) : List α :=
  let m := pick key (x, 0) 1 xs
  ((x :: xs).set m.2 x).set 0 m.1

def sort : Nat → List α → List α
  | 0, xs => xs
  | _ + 1, [] => []
  | n + 1, x :: xs =>
    match exchange key x xs with
    | [] => []
    | y :: ys => y :: sort n ys

section pick
variable {x v : α} {m : α × Nat} {xs ys : List α} {j : Nat}

theorem pick_le (m : α × Nat) (j : Nat) (xs : List α) :
    key (pick key m j xs).1 ≤ key m.1 ∧ ∀ y ∈ xs, key (pick key m j xs).1 ≤ key y := by
  induction xs generalizing m j with
  | nil => exact ⟨le_rfl, by simp⟩
  | cons y ys ih =>
    rw [pick]
    split
    next h =>
      obtain ⟨h1, h2⟩ := ih (y, j) (j + 1)
      refine ⟨h1.trans h.le, fun z hz => ?_⟩
      rcases List.mem_cons.mp hz with rfl | hz
      · exact h1
      · exact h2 z hz
    next h =>
      obtain ⟨h1, h2⟩ := ih m (j + 1)
      refine ⟨h1, fun z hz => ?_⟩
      rcases List.mem_cons.mp hz with rfl | hz
      · exact h1.trans (not_lt.mp h)
      · exact h2 z hz

theorem pick_cases (m : α × Nat) (j : Nat) (xs : List α) :
    pick key m j xs = m ∨
      ∃ ys z zs, xs = ys ++ z :: zs ∧ pick key m j xs = (z, j + ys.length) := by
  induction xs generalizing m j with
  | nil => exact .inl rfl
  | cons y ys ih =>
    rw [pick]
    split
    next h =>
      rcases ih (y, j) (j + 1) with hm | ⟨zs, z, ws, rfl, hm⟩
      · exact .inr ⟨[], y, ys, rfl, hm⟩
      · exact .inr ⟨y :: zs, z, ws, rfl, by rw [hm, List.length_cons]; congr 1; omega⟩
    next h =>
      rcases ih m (j + 1) with hm | ⟨zs, z, ws, rfl, hm⟩
      · exact .inl hm
      · exact .inr ⟨y :: zs, z, ws, rfl, by rw [hm, List.length_cons]; congr 1; omega⟩

theorem exchange_spec (key : α → β) (x : α) (xs : List α) :
    ∃ y ys, exchange key x xs = y :: ys ∧ (y :: ys).Perm (x :: xs) ∧ ∀ z ∈ ys, key y ≤ key z := by
  obtain ⟨h1, h2⟩ := pick_le key (x, 0) 1 xs
  rw [exchange]
  rcases pick_cases key (x, 0) 1 xs with hm | ⟨ys, z, zs, rfl, hm⟩
  · rw [hm] at h1 h2 ⊢
    exact ⟨x, xs, rfl, .refl _, h2⟩
  · rw [hm] at h1 h2 ⊢
    simp only at h1 h2 ⊢
    rw [Nat.add_comm, List.set_cons_succ, List.set_cons_zero, List.set_append_right _ _ le_rfl,
      Nat.sub_self, List.set_cons_zero]
    refine ⟨z, ys ++ x :: zs, rfl, ?_, fun w hw => ?_⟩
    · have hswap : (z :: x :: (ys ++ zs)).Perm (x :: z :: (ys ++ zs)) := List.Perm.swap _ _ _
      exact (List.perm_middle.cons z).trans (hswap.trans (List.perm_middle.symm.cons x))
    · rcases List.mem_append.mp hw with hw | hw
      · exact h2 w (by simp [hw])
      · rcases List.mem_cons.mp hw with rfl | hw
        · exact h1
        · exact h2 w (by simp [hw])

end pick

theorem sort_perm (n : Nat) (xs : List α) : (sort key n xs).Perm xs := by
  induction n generalizing xs with
  | zero => exact .refl _
  | succ n ih =>
    cases xs with
    | nil => exact .refl _
    | cons x xs =>
      obtain ⟨y, ys, he, hp, -⟩ := exchange_spec key x xs
      rw [sort, he]
      exact ((ih ys).cons y).trans hp

theorem sort_sorted {n : Nat} {xs : List α} (h : xs.length ≤ n) :
    (sort key n xs).Pairwise fun a b => key a ≤ key b := by
  induction n generalizing xs with
  | zero =>
    obtain rfl := List.length_eq_zero_iff.mp (Nat.le_zero.mp h)
    exact .nil
  | succ n ih =>
    cases xs with
    | nil => exact .nil
    | cons x xs =>
      obtain ⟨y, ys, he, hp, hle⟩ := exchange_spec key x xs
      have hlen := hp.length_eq
      rw [sort, he]
      refine List.pairwise_cons.mpr ⟨fun z hz => hle z ((sort_perm key n ys).mem_iff.mp hz), ih ?_⟩
      simp only [List.length_cons] at h hlen
      omega

end SelectionSort
