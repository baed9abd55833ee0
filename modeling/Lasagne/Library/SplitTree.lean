import Mathlib

namespace SplitTree

inductive Kind where
  | absent
  | free
  | live
  | split
  deriving DecidableEq, Repr

def Kind.used : Kind → Bool
  | .live => true
  | .split => true
  | _ => false

def Kind.isLeaf : Kind → Bool
  | .free => true
  | .live => true
  | _ => false

abbrev Labels := Nat → Nat → Kind

def set (k : Labels) (l i : Nat) (v : Kind) : Labels :=
  fun m j => if m = l ∧ j = i then v else k m j

@[simp] theorem set_same (k : Labels) (l i : Nat) (v : Kind) : set k l i v l i = v := by
  simp [set]

theorem set_other (k : Labels) {l i m j : Nat} (v : Kind) (h : ¬ (m = l ∧ j = i)) :
    set k l i v m j = k m j := if_neg h

def divide (k : Labels) (l i : Nat) : Labels :=
  set (set (set k l i .split) (l + 1) (2 * i) .live) (l + 1) (2 * i + 1) .free

def merge (k : Labels) (l i : Nat) : Labels :=
  set (set (set k l i .live) (l + 1) (2 * i) .absent) (l + 1) (2 * i + 1) .absent

theorem live_set_free (k : Labels) (l i m j : Nat) :
    set k l i .free m j = .live ↔ k m j = .live ∧ ¬ (m = l ∧ j = i) := by
  rw [set]
  split
  next h => simp [h]
  next h => simp [h]

theorem free_set_free (k : Labels) (l i m j : Nat) :
    set k l i .free m j = .free ↔ (m = l ∧ j = i) ∨ k m j = .free := by
  rw [set]
  split
  next h => simp [h]
  next h => simp [h]

theorem live_set_live (k : Labels) (l i m j : Nat) :
    set k l i .live m j = .live ↔ (m = l ∧ j = i) ∨ k m j = .live := by
  rw [set]
  split
  next h => simp [h]
  next h => simp [h]

theorem divide_apply (k : Labels) (l i m j : Nat) :
    divide k l i m j = if m = l ∧ j = i then .split
      else if m = l + 1 ∧ j = 2 * i then .live
      else if m = l + 1 ∧ j = 2 * i + 1 then .free else k m j := by
  simp only [divide, set]
  split_ifs <;> first | rfl | omega

theorem merge_apply (k : Labels) (l i m j : Nat) :
    merge k l i m j = if m = l ∧ j = i then .live
      else if m = l + 1 ∧ j / 2 = i then .absent else k m j := by
  simp only [merge, set]
  split_ifs <;> first | rfl | omega

def divideDown (k : Labels) (l i : Nat) : Nat → Labels
  | 0 => k
  | n + 1 => divideDown (divide k l i) (l + 1) (2 * i) n

structure Tiling (d : Nat) (k : Labels) : Prop where
  root : ∀ i, k 0 i ≠ .absent ↔ i = 0
  child : ∀ l i, k (l + 1) i ≠ .absent ↔ k l (i / 2) = .split
  depth : ∀ l i, k l i = .split → l < d

def Coalesced (k : Labels) : Prop :=
  ∀ l i, k (l + 1) (2 * i) = .free → k (l + 1) (2 * i + 1) ≠ .free

def parity (k : Labels) (l i : Nat) : Bool :=
  decide (k l i = .split) && xor (k (l + 1) (2 * i)).used (k (l + 1) (2 * i + 1)).used

def isSplit (k : Labels) (l i : Nat) : Bool := decide (k l i = .split)

def toggle (b : Nat → Nat → Bool) (l i : Nat) : Nat → Nat → Bool :=
  fun m j => if m = l ∧ j = i then !b m j else b m j

def toggleParent (b : Nat → Nat → Bool) : Nat → Nat → Nat → Nat → Bool
  | 0, _ => b
  | l + 1, i => toggle b l (i / 2)

theorem toggle_toggle (b : Nat → Nat → Bool) (l i : Nat) : toggle (toggle b l i) l i = b := by
  funext m j
  simp only [toggle]
  split <;> simp

theorem toggleParent_toggleParent (b : Nat → Nat → Bool) (l i : Nat) :
    toggleParent (toggleParent b l i) l i = b := by
  cases l with
  | zero => rfl
  | succ l => exact toggle_toggle b l (i / 2)

namespace Tiling
variable {d : Nat} {k : Labels}

theorem index_lt (h : Tiling d k) {l i : Nat} (hk : k l i ≠ .absent) : i < 2 ^ l := by
  induction l generalizing i with
  | zero => simp [(h.root i).mp hk]
  | succ l ih =>
    have hp : k l (i / 2) = .split := (h.child l i).mp hk
    have hi : i / 2 < 2 ^ l := ih (by simp [hp])
    rw [pow_succ]
    omega

theorem level_le (h : Tiling d k) {l i : Nat} (hk : k l i ≠ .absent) : l ≤ d := by
  cases l with
  | zero => exact Nat.zero_le d
  | succ l => exact h.depth l _ ((h.child l i).mp hk)

theorem parent_split (h : Tiling d k) {l i : Nat} (hk : k (l + 1) i ≠ .absent) :
    k l (i / 2) = .split := (h.child l i).mp hk

theorem children_present (h : Tiling d k) {l i : Nat} (hk : k l i = .split) :
    k (l + 1) (2 * i) ≠ .absent ∧ k (l + 1) (2 * i + 1) ≠ .absent := by
  constructor
  · rw [h.child, show 2 * i / 2 = i by omega]; exact hk
  · rw [h.child, show (2 * i + 1) / 2 = i by omega]; exact hk

theorem children_absent (h : Tiling d k) {l i : Nat} (hk : k l (i / 2) ≠ .split) :
    k (l + 1) i = .absent := by
  by_contra hc
  exact hk ((h.child l i).mp hc)

theorem ancestor_split (h : Tiling d k) {l n i : Nat} (hk : k (l + n) i ≠ .absent) (hn : 0 < n) :
    k l (i / 2 ^ n) = .split := by
  induction n generalizing i with
  | zero => omega
  | succ n ih =>
    have hp : k (l + n) (i / 2) = .split := h.parent_split hk
    rcases Nat.eq_zero_or_pos n with rfl | hpos
    · simpa using hp
    · have hd : i / 2 ^ (n + 1) = i / 2 / 2 ^ n := by
        rw [Nat.div_div_eq_div_mul, pow_succ, Nat.mul_comm]
      rw [hd]
      exact ih (by simp [hp]) hpos

theorem set_leaf (h : Tiling d k) {l i : Nat} {v : Kind} (hk : (k l i).isLeaf)
    (hv : v.isLeaf) : Tiling d (set k l i v) := by
  have hka : k l i ≠ .absent := by intro hc; simp [hc, Kind.isLeaf] at hk
  have hks : k l i ≠ .split := by intro hc; simp [hc, Kind.isLeaf] at hk
  have hva : v ≠ .absent := by rintro rfl; simp [Kind.isLeaf] at hv
  have hvs : v ≠ .split := by rintro rfl; simp [Kind.isLeaf] at hv
  have habsent (m j : Nat) : set k l i v m j ≠ .absent ↔ k m j ≠ .absent := by
    by_cases hm : m = l ∧ j = i
    · obtain ⟨rfl, rfl⟩ := hm; simp [hva, hka]
    · rw [set_other _ _ hm]
  have hsplit (m j : Nat) : set k l i v m j = .split ↔ k m j = .split := by
    by_cases hm : m = l ∧ j = i
    · obtain ⟨rfl, rfl⟩ := hm; simp [hvs, hks]
    · rw [set_other _ _ hm]
  refine ⟨fun j => ?_, fun m j => ?_, fun m j hj => ?_⟩
  · rw [habsent]; exact h.root j
  · rw [habsent, hsplit]; exact h.child m j
  · exact h.depth m j ((hsplit m j).mp hj)

theorem divide (h : Tiling d k) {l i : Nat} (hk : k l i = .live) (hl : l < d) :
    Tiling d (divide k l i) := by
  have hc (j : Nat) (hj : j / 2 = i) : k (l + 1) j = .absent :=
    h.children_absent (by rw [hj, hk]; simp)
  refine ⟨fun j => ?_, fun m j => ?_, fun m j hj => ?_⟩
  · rw [divide_apply, ← h.root j, if_neg (show ¬ (0 = l + 1 ∧ j = 2 * i) by omega),
      if_neg (show ¬ (0 = l + 1 ∧ j = 2 * i + 1) by omega)]
    split
    next h1 => obtain ⟨rfl, rfl⟩ := h1; simp [hk]
    next => rfl
  · have hm := h.child m j
    simp only [divide_apply]
    by_cases hp : m = l ∧ j / 2 = i
    · obtain ⟨rfl, rfl⟩ := hp
      rw [if_neg (show ¬ (m + 1 = m ∧ j = j / 2) by omega), if_pos (show m = m ∧ j / 2 = j / 2 by simp)]
      rcases (show j = 2 * (j / 2) ∨ j = 2 * (j / 2) + 1 by omega) with h0 | h1
      · rw [if_pos ⟨rfl, h0⟩]; simp
      · rw [if_neg (by omega), if_pos ⟨rfl, h1⟩]; simp
    · rw [if_neg (show ¬ (m + 1 = l + 1 ∧ j = 2 * i) by omega),
        if_neg (show ¬ (m + 1 = l + 1 ∧ j = 2 * i + 1) by omega), if_neg hp]
      by_cases hs : m + 1 = l ∧ j = i
      · obtain ⟨rfl, rfl⟩ := hs
        rw [if_pos ⟨rfl, rfl⟩, if_neg (by omega), if_neg (by omega), ← hm, hk]
        simp
      · rw [if_neg hs]
        split_ifs with h1 h2
        · rw [hm, h1.1, h1.2, hc (2 * i) (by omega)]
          simp
        · rw [hm, h2.1, h2.2, hc (2 * i + 1) (by omega)]
          simp
        · exact hm
  · rw [divide_apply] at hj
    split_ifs at hj with h1
    · rw [h1.1]; exact hl
    · exact h.depth m j hj

theorem merge (h : Tiling d k) {l i : Nat} (hk : k l i = .split)
    (h0 : (k (l + 1) (2 * i)).isLeaf) (h1 : (k (l + 1) (2 * i + 1)).isLeaf) :
    Tiling d (merge k l i) := by
  have hns (j : Nat) (hj : j / 2 = i) : k (l + 1) j ≠ .split := by
    rcases (show j = 2 * i ∨ j = 2 * i + 1 by omega) with rfl | rfl
    · intro hc; simp [hc, Kind.isLeaf] at h0
    · intro hc; simp [hc, Kind.isLeaf] at h1
  refine ⟨fun j => ?_, fun m j => ?_, fun m j hj => ?_⟩
  · rw [merge_apply, ← h.root j, if_neg (show ¬ (0 = l + 1 ∧ j / 2 = i) by omega)]
    split
    next h2 => obtain ⟨rfl, rfl⟩ := h2; simp [hk]
    next => rfl
  · have hm := h.child m j
    simp only [merge_apply]
    by_cases hp : m = l ∧ j / 2 = i
    · rw [if_neg (by omega), if_pos (by omega), if_pos hp]
      simp
    · rw [if_neg (show ¬ (m + 1 = l + 1 ∧ j / 2 = i) by omega), if_neg hp]
      by_cases hs : m + 1 = l ∧ j = i
      · obtain ⟨rfl, rfl⟩ := hs
        rw [if_pos ⟨rfl, rfl⟩, if_neg (by omega), ← hm, hk]
        simp
      · rw [if_neg hs]
        split_ifs with h2
        · rw [hm, h2.1]
          simp [hns (j / 2) h2.2]
        · exact hm
  · rw [merge_apply] at hj
    split_ifs at hj
    exact h.depth m j hj

end Tiling

section live
variable {d : Nat} {k : Labels} {l i : Nat}

theorem live_divide (h : Tiling d k) (hk : k l i = .live) (m j : Nat) :
    divide k l i m j = .live ↔
      (m = l + 1 ∧ j = 2 * i) ∨ (k m j = .live ∧ ¬ (m = l ∧ j = i)) := by
  have hc (j : Nat) (hj : j / 2 = i) : k (l + 1) j = .absent :=
    h.children_absent (by rw [hj, hk]; simp)
  rw [divide_apply]
  split_ifs with h1 h2 h3
  · simp only [h1.1, h1.2]
    simp
  · simp [h2]
  · simp [h3, hc (2 * i + 1) (by omega)]
  · simp [h1, h2]

theorem live_divideDown (n : Nat) {k : Labels} {l i : Nat} (h : Tiling d k) (hk : k l i = .live)
    (hd : l + n ≤ d) (m j : Nat) :
    divideDown k l i n m j = .live ↔
      (m = l + n ∧ j = i * 2 ^ n) ∨ (k m j = .live ∧ ¬ (m = l ∧ j = i)) := by
  induction n generalizing k l i with
  | zero =>
    simp only [divideDown, Nat.add_zero, pow_zero, Nat.mul_one]
    by_cases hm : m = l ∧ j = i
    · simp [hm, hk]
    · simp [hm]
  | succ n ih =>
    rw [divideDown, ih (h.divide hk (by omega)) (by simp [divide_apply]) (by omega),
      live_divide h hk, show l + (n + 1) = l + 1 + n by omega,
      show i * 2 ^ (n + 1) = 2 * i * 2 ^ n by rw [pow_succ]; ring]
    have hc : k (l + 1) (2 * i) = .absent :=
      h.children_absent (by rw [show 2 * i / 2 = i by omega, hk]; simp)
    constructor
    · rintro (h1 | ⟨h1 | h1, h2⟩)
      · exact .inl h1
      · exact absurd h1 h2
      · exact .inr h1
    · rintro (h1 | h1)
      · exact .inl h1
      · refine .inr ⟨.inr h1, ?_⟩
        rintro ⟨rfl, rfl⟩
        simp [hc] at h1

theorem free_divide (h : Tiling d k) (hk : k l i = .live) (m j : Nat) :
    divide k l i m j = .free ↔ (m = l + 1 ∧ j = 2 * i + 1) ∨ k m j = .free := by
  have hc (j : Nat) (hj : j / 2 = i) : k (l + 1) j = .absent :=
    h.children_absent (by rw [hj, hk]; simp)
  rw [divide_apply]
  split_ifs with h1 h2 h3
  · simp [h1, hk]
  · simp [h2, hc (2 * i) (by omega)]
  · simp [h3]
  · simp [h3]

theorem free_divideDown (n : Nat) {k : Labels} {l i : Nat} (h : Tiling d k) (hk : k l i = .live)
    (hd : l + n ≤ d) (m j : Nat) :
    divideDown k l i n m j = .free ↔
      (l < m ∧ m ≤ l + n ∧ j = i * 2 ^ (m - l) + 1) ∨ k m j = .free := by
  induction n generalizing k l i with
  | zero =>
    rw [divideDown]
    exact (or_iff_right (by omega)).symm
  | succ n ih =>
    rw [divideDown, ih (h.divide hk (by omega)) (by simp [divide_apply]) (by omega),
      free_divide h hk, ← or_assoc]
    refine or_congr_left ?_
    have hpow (hm : l + 1 < m) : 2 * i * 2 ^ (m - (l + 1)) = i * 2 ^ (m - l) := by
      rw [show m - l = m - (l + 1) + 1 by omega, pow_succ]
      ring
    constructor
    · rintro (⟨h1, h2, h3⟩ | ⟨rfl, rfl⟩)
      · exact ⟨by omega, by omega, by rw [h3, hpow h1]⟩
      · exact ⟨by omega, by omega, by rw [show l + 1 - l = 1 by omega, pow_one, Nat.mul_comm]⟩
    · rintro ⟨h1, h2, h3⟩
      rcases Nat.lt_or_ge (l + 1) m with hlt | hge
      · exact .inl ⟨hlt, by omega, by rw [h3, hpow hlt]⟩
      · obtain rfl : m = l + 1 := by omega
        rw [show l + 1 - l = 1 by omega, pow_one, Nat.mul_comm] at h3
        exact .inr ⟨rfl, h3⟩

theorem free_set_live (k : Labels) (l i m j : Nat) :
    set k l i .live m j = .free ↔ k m j = .free ∧ ¬ (m = l ∧ j = i) := by
  rw [set]
  split
  next h => simp [h]
  next h => simp [h]

end live

section parity
variable {d : Nat} {k : Labels}

theorem parity_set_leaf (h : Tiling d k) {l i : Nat} {v : Kind} (hk : (k l i).isLeaf)
    (hv : v.isLeaf) (hu : v.used = !(k l i).used) :
    parity (set k l i v) = toggleParent (parity k) l i := by
  have hks : k l i ≠ .split := by intro hc; simp [hc, Kind.isLeaf] at hk
  have hka : k l i ≠ .absent := by intro hc; simp [hc, Kind.isLeaf] at hk
  have hvs : v ≠ .split := by rintro rfl; simp [Kind.isLeaf] at hv
  have hsplit (m j : Nat) : decide (set k l i v m j = .split) = decide (k m j = .split) := by
    by_cases hm : m = l ∧ j = i
    · obtain ⟨rfl, rfl⟩ := hm; simp [hvs, hks]
    · rw [set_other _ _ hm]
  funext m j
  simp only [parity, hsplit]
  cases l with
  | zero =>
    rw [set_other _ _ (by omega), set_other _ _ (by omega)]
    rfl
  | succ l =>
    have hp : k l (i / 2) = .split := h.parent_split hka
    simp only [toggleParent, toggle, parity]
    by_cases hm : m = l ∧ j = i / 2
    · obtain ⟨rfl, rfl⟩ := hm
      rw [if_pos ⟨rfl, rfl⟩]
      rcases (show i = 2 * (i / 2) ∨ i = 2 * (i / 2) + 1 by omega) with hi | hi
      · rw [← hi, set_same, set_other _ _ (by omega), hu]
        simp [hp]
      · rw [set_other _ _ (by omega), ← hi, set_same, hu]
        simp [hp]
    · rw [if_neg hm, set_other _ _ (by omega), set_other _ _ (by omega)]

theorem parity_divide (h : Tiling d k) {l i : Nat} (hk : k l i = .live) :
    parity (divide k l i) = toggle (parity k) l i := by
  have hc (j : Nat) (hj : j / 2 = i) : k (l + 1) j = .absent :=
    h.children_absent (by rw [hj, hk]; simp)
  have hother (m j : Nat) (hm : ¬ (m = l + 1 ∧ j / 2 = i)) :
      (divide k l i m j).used = (k m j).used := by
    rw [divide_apply]
    split_ifs with h1 h2 h3
    · rw [h1.1, h1.2, hk]; rfl
    · omega
    · omega
    · rfl
  funext m j
  simp only [parity, toggle]
  by_cases hm : m = l ∧ j = i
  · obtain ⟨rfl, rfl⟩ := hm
    rw [if_pos ⟨rfl, rfl⟩, hk]
    simp [divide_apply, Kind.used]
  · rw [if_neg hm]
    by_cases hn : m = l + 1 ∧ j / 2 = i
    · have hs : divide k l i m j ≠ .split := by
        rw [divide_apply, if_neg hm]
        split_ifs
        · simp
        · simp
        · rw [hn.1, hc j hn.2]; simp
      rw [hn.1, hc j hn.2, ← hn.1]
      simp [hs]
    · rw [hother (m + 1) _ (by omega), hother (m + 1) _ (by omega)]
      congr 2
      rw [divide_apply, if_neg hm, if_neg (by omega), if_neg (by omega)]

theorem parity_merge {l i : Nat} (hk : k l i = .split)
    (h0 : (k (l + 1) (2 * i)).isLeaf) (h1 : (k (l + 1) (2 * i + 1)).isLeaf)
    (hx : (k (l + 1) (2 * i)).used = !(k (l + 1) (2 * i + 1)).used) :
    parity (merge k l i) = toggle (parity k) l i := by
  have hother (m j : Nat) (hm : ¬ (m = l + 1 ∧ j / 2 = i)) :
      (merge k l i m j).used = (k m j).used := by
    rw [merge_apply]
    split_ifs with h2
    · rw [h2.1, h2.2, hk]; rfl
    · rfl
  funext m j
  simp only [parity, toggle]
  by_cases hm : m = l ∧ j = i
  · obtain ⟨rfl, rfl⟩ := hm
    rw [if_pos ⟨rfl, rfl⟩, hk, hx]
    simp [merge_apply]
  · rw [if_neg hm]
    by_cases hn : m = l + 1 ∧ j / 2 = i
    · have hs : k m j ≠ .split := by
        rw [hn.1]
        rcases (show j = 2 * i ∨ j = 2 * i + 1 by omega) with rfl | rfl
        · intro hc; simp [hc, Kind.isLeaf] at h0
        · intro hc; simp [hc, Kind.isLeaf] at h1
      have hs' : merge k l i m j ≠ .split := by
        rw [merge_apply, if_neg hm, if_pos hn]; simp
      simp [hs, hs']
    · rw [hother (m + 1) _ (by omega), hother (m + 1) _ (by omega)]
      congr 2
      rw [merge_apply, if_neg hm, if_neg hn]

end parity

section coalesced
variable {k : Labels}

theorem Coalesced.buddy (h : Coalesced k) {l i j : Nat} (hij : i / 2 = j / 2) (hne : i ≠ j)
    (hi : k (l + 1) i = .free) : k (l + 1) j ≠ .free := by
  rcases (show i = 2 * (i / 2) ∧ j = 2 * (i / 2) + 1 ∨
      j = 2 * (i / 2) ∧ i = 2 * (i / 2) + 1 by omega) with ⟨h1, h2⟩ | ⟨h1, h2⟩
  · rw [h1] at hi
    rw [h2]
    exact h l _ hi
  · intro hj
    rw [h1] at hj
    rw [h2] at hi
    exact h l _ hj hi

theorem Coalesced.set_live (h : Coalesced k) (l i : Nat) : Coalesced (set k l i .live) := by
  intro m j hm
  simp only [set] at hm ⊢
  split_ifs at hm ⊢
  · simp
  · exact h m j hm

theorem Coalesced.set_free (h : Coalesced k) {l i : Nat}
    (hb : ∀ m j, l = m + 1 → j / 2 = i / 2 → j ≠ i → k l j ≠ .free) :
    Coalesced (set k l i .free) := by
  intro m j hm
  simp only [set] at hm ⊢
  split_ifs at hm ⊢ with h1 h2 h2
  · omega
  · obtain ⟨rfl, rfl⟩ := h1
    exact absurd hm (hb m (2 * j) rfl (by omega) (by omega))
  · obtain ⟨rfl, rfl⟩ := h2
    exact hb m (2 * j + 1) rfl (by omega) (by omega)
  · exact h m j hm

theorem Coalesced.divide (h : Coalesced k) (l i : Nat) : Coalesced (divide k l i) := by
  intro m j hm
  rw [divide_apply] at hm ⊢
  split_ifs at hm ⊢ <;> first | exact h m j hm | omega | simp

theorem Coalesced.merge (h : Coalesced k) (l i : Nat) : Coalesced (merge k l i) := by
  intro m j hm
  rw [merge_apply] at hm ⊢
  split_ifs at hm ⊢ <;> first | exact h m j hm | omega | simp

-- a deepest split node above no live block would have two free children
theorem exists_live_below {d : Nat} (h : Tiling d k) (hc : Coalesced k) (n : Nat) {l i : Nat}
    (hd : d ≤ l + n) (hk : k l i = .split) :
    ∃ m j, 0 < m ∧ k (l + m) j = .live ∧ j / 2 ^ m = i := by
  induction n generalizing l i with
  | zero =>
    have := h.depth l i hk
    omega
  | succ n ih =>
    obtain ⟨h0, h1⟩ := h.children_present hk
    have hchild (j : Nat) (hj : j / 2 = i) (hs : k (l + 1) j = .live ∨ k (l + 1) j = .split) :
        ∃ m j, 0 < m ∧ k (l + m) j = .live ∧ j / 2 ^ m = i := by
      rcases hs with hs | hs
      · exact ⟨1, j, by omega, hs, by rw [pow_one, hj]⟩
      · obtain ⟨m, j', hm, hlive, hdiv⟩ := ih (by omega) hs
        refine ⟨m + 1, j', by omega, by rw [← hlive]; congr 1; omega, ?_⟩
        rw [pow_succ, ← Nat.div_div_eq_div_mul, hdiv, hj]
    have hcases (j : Nat) (hj : k (l + 1) j ≠ .absent) :
        k (l + 1) j = .free ∨ k (l + 1) j = .live ∨ k (l + 1) j = .split := by
      cases hv : k (l + 1) j <;> simp_all
    rcases hcases _ h0 with hl | hl
    · rcases hcases _ h1 with hr | hr
      · exact absurd hr (hc l i hl)
      · exact hchild _ (by omega) hr
    · exact hchild _ (by omega) hl

theorem root_free_of_no_live {d : Nat} (h : Tiling d k) (hc : Coalesced k)
    (hl : ∀ l i, k l i ≠ .live) : k 0 0 = .free := by
  have hroot : k 0 0 ≠ .absent := (h.root 0).mpr rfl
  have hlive := hl 0 0
  cases hk : k 0 0 with
  | absent => exact absurd hk hroot
  | free => rfl
  | live => exact absurd hk hlive
  | split =>
    obtain ⟨m, j, -, hlive, -⟩ := exists_live_below h hc d (by omega) hk
    exact absurd hlive (hl _ _)

theorem split_of_split {d : Nat} {k' : Labels} (h : Tiling d k) (h' : Tiling d k')
    (hc : Coalesced k) (hlive : ∀ l i, k l i = .live ↔ k' l i = .live) {l i : Nat}
    (hk : k l i = .split) : k' l i = .split := by
  obtain ⟨m, j, hm, hl, rfl⟩ := exists_live_below h hc d (by omega) hk
  exact h'.ancestor_split (by rw [(hlive _ _).mp hl]; simp) hm

theorem eq_of_live {d : Nat} {k' : Labels} (h : Tiling d k) (h' : Tiling d k') (hc : Coalesced k)
    (hc' : Coalesced k') (hlive : ∀ l i, k l i = .live ↔ k' l i = .live) : k = k' := by
  have hsplit (l i : Nat) : k l i = .split ↔ k' l i = .split :=
    ⟨split_of_split h h' hc hlive, split_of_split h' h hc' fun l i => (hlive l i).symm⟩
  have habsent (l i : Nat) : k l i = .absent ↔ k' l i = .absent := by
    cases l with
    | zero => rw [← not_iff_not, ← ne_eq, ← ne_eq, h.root, h'.root]
    | succ l => rw [← not_iff_not, ← ne_eq, ← ne_eq, h.child, h'.child, hsplit]
  funext l i
  have h1 := hlive l i
  have h2 := hsplit l i
  have h3 := habsent l i
  cases hk : k l i <;> cases hk' : k' l i <;> simp_all

theorem absent_of_root_free {d : Nat} (h : Tiling d k) (hr : k 0 0 = .free) {l i : Nat}
    (hne : ¬ (l = 0 ∧ i = 0)) : k l i = .absent := by
  have hroot (i : Nat) : k 0 i ≠ .split := by
    intro hs
    obtain rfl := (h.root i).mp (by simp [hs])
    simp [hr] at hs
  induction l generalizing i with
  | zero =>
    by_contra hc
    exact hne ⟨rfl, (h.root i).mp hc⟩
  | succ l ih =>
    refine h.children_absent fun hs => ?_
    by_cases hp : l = 0 ∧ i / 2 = 0
    · rw [hp.1] at hs
      exact hroot _ hs
    · rw [ih hp] at hs
      simp at hs

end coalesced

section span
variable {d : Nat} {k : Labels}

def Inside (d l i x : Nat) : Prop := i * 2 ^ (d - l) ≤ x ∧ x < (i + 1) * 2 ^ (d - l)

theorem pow_split {d l n : Nat} (h : l + n ≤ d) : 2 ^ (d - l) = 2 ^ n * 2 ^ (d - (l + n)) := by
  rw [← pow_add]; congr 1; omega

theorem inside_iff {d l i x : Nat} : Inside d l i x ↔ x / 2 ^ (d - l) = i := by
  have hp : 0 < 2 ^ (d - l) := by positivity
  rw [Inside, Nat.div_eq_iff hp, Nat.add_mul]
  omega

theorem inside_ancestor {l n i x : Nat} (hl : l + n ≤ d) (h : Inside d (l + n) i x) :
    Inside d l (i / 2 ^ n) x := by
  rw [inside_iff] at h ⊢
  rw [← h, pow_split hl, Nat.mul_comm, Nat.div_div_eq_div_mul]

theorem inside_children {l i x : Nat} (hl : l < d) :
    Inside d l i x ↔ Inside d (l + 1) (2 * i) x ∨ Inside d (l + 1) (2 * i + 1) x := by
  have hp : 2 ^ (d - l) = 2 * 2 ^ (d - (l + 1)) := by
    rw [pow_split (show l + 1 ≤ d by omega), pow_one]
  simp only [inside_iff, hp, Nat.mul_comm 2, ← Nat.div_div_eq_div_mul]
  omega

theorem leaf_unique (h : Tiling d k) {l i m j x : Nat} (hi : (k l i).isLeaf) (hj : (k m j).isLeaf)
    (hx : Inside d l i x) (hy : Inside d m j x) : l = m ∧ i = j := by
  wlog hle : l ≤ m generalizing l m i j
  · obtain ⟨h1, h2⟩ := this hj hi hy hx (by omega)
    exact ⟨h1.symm, h2.symm⟩
  obtain ⟨n, rfl⟩ := Nat.exists_eq_add_of_le hle
  have hja : k (l + n) j ≠ .absent := by intro hc; simp [hc, Kind.isLeaf] at hj
  have hd : l + n ≤ d := h.level_le hja
  have ha := inside_ancestor hd hy
  rw [inside_iff] at ha hx
  have hi' : i = j / 2 ^ n := hx.symm.trans ha
  rcases Nat.eq_zero_or_pos n with rfl | hn
  · exact ⟨rfl, by simpa using hi'⟩
  · have hs := h.ancestor_split hja hn
    rw [← hi'] at hs
    simp [hs, Kind.isLeaf] at hi

end span

-- the leaf after leaf x: j is the number of levels up to where the two paths part
section successor
variable {x j : Nat}

theorem exists_low_zero {x n : Nat} (h : x + 1 < 2 ^ n) :
    ∃ j < n, x / 2 ^ j % 2 = 0 ∧ ∀ i < j, x / 2 ^ i % 2 = 1 := by
  induction n generalizing x with
  | zero => omega
  | succ n ih =>
    by_cases hx : x % 2 = 0
    · exact ⟨0, by omega, by simpa using hx, fun i hi => absurd hi (by omega)⟩
    · obtain ⟨j, hj, h0, h1⟩ := ih (x := x / 2) (by rw [pow_succ] at h; omega)
      refine ⟨j + 1, by omega, by rw [pow_succ', ← Nat.div_div_eq_div_mul]; exact h0, fun i hi => ?_⟩
      cases i with
      | zero => rw [pow_zero, Nat.div_one]; omega
      | succ i =>
        rw [pow_succ', ← Nat.div_div_eq_div_mul]
        exact h1 i (by omega)

theorem succ_of_ones (h1 : ∀ i < j, x / 2 ^ i % 2 = 1) : x + 1 = (x / 2 ^ j + 1) * 2 ^ j := by
  induction j with
  | zero => simp
  | succ j ih =>
    have hj := ih fun i hi => h1 i (by omega)
    have hone := h1 j (by omega)
    rw [pow_succ, ← Nat.div_div_eq_div_mul]
    generalize x / 2 ^ j = z at *
    have : z + 1 = (z / 2 + 1) * 2 := by omega
    calc x + 1 = (z + 1) * 2 ^ j := hj
      _ = (z / 2 + 1) * (2 ^ j * 2) := by rw [this]; ring

theorem succ_div_low (h1 : ∀ i < j, x / 2 ^ i % 2 = 1) {i : Nat} (hi : i ≤ j) :
    (x + 1) / 2 ^ i = (x / 2 ^ j + 1) * 2 ^ (j - i) := by
  rw [succ_of_ones h1]
  generalize x / 2 ^ j = z
  rw [show 2 ^ j = 2 ^ (j - i) * 2 ^ i by rw [← pow_add]; congr 1; omega, ← Nat.mul_assoc,
    Nat.mul_div_cancel _ (Nat.two_pow_pos i)]

theorem succ_div_high (h1 : ∀ i < j, x / 2 ^ i % 2 = 1) (h0 : x / 2 ^ j % 2 = 0) {i : Nat}
    (hi : j < i) : (x + 1) / 2 ^ i = x / 2 ^ i := by
  have hj := succ_div_low h1 le_rfl
  rw [Nat.sub_self, pow_zero, Nat.mul_one] at hj
  rw [show i = j + 1 + (i - (j + 1)) by omega, pow_add, pow_succ, ← Nat.div_div_eq_div_mul,
    ← Nat.div_div_eq_div_mul, ← Nat.div_div_eq_div_mul, ← Nat.div_div_eq_div_mul, hj]
  congr 1
  omega

end successor

end SplitTree
