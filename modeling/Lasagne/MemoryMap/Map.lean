import Mathlib
import Lasagne.Library.CInt
import Lasagne.Library.SelectionSort
import Lasagne.Library.Span

namespace Lasagne.MemMap
open CInt

def mapMax : Nat := 32

abbrev Area := Span

-- area holds the first count entries of the array
structure MemoryMap where
  area : List Area
  physicalEnd : Nat
  deriving DecidableEq, Repr

def empty : MemoryMap := ⟨[], 0⟩

def overlaps (new area : Area) : Bool := new.begin ≤ area.stop && area.begin ≤ new.stop

-- removes entry i by moving the last one into its place
def moveLast (area : List Area) (i : Nat) : List Area :=
  let count := area.length - 1
  if count ≠ 0 then (area.set i (area.getD count ⟨0, 0⟩)).take count else area.take count

-- every merge starts the scan again with one entry less
def mergeAreas : Nat → List Area → Area → List Area
  | 0, area, new => area ++ [new]
  | n + 1, area, new =>
    match area.findIdx? (overlaps new) with
    | none => area ++ [new]
    | some i =>
      let old := area.getD i ⟨0, 0⟩
      mergeAreas n (moveLast area i)
        ⟨if new.begin < old.begin then new.begin else old.begin,
          if new.stop > old.stop then new.stop else old.stop⟩

-- a failed assertion stops the kernel
def addArea (m : MemoryMap) (begin stop : Nat) : Option MemoryMap :=
  if begin < stop then
    if m.area.length = mapMax then some m
    else some { m with area := mergeAreas m.area.length m.area ⟨begin, stop⟩ }
  else none

def alignArea (a : Area) : Option Area :=
  let begin := if a.begin % 4096 ≠ 0 then (a.begin + (4096 - a.begin % 4096)) % wordSize else a.begin
  let stop := if a.stop % 4096 ≠ 0 then a.stop - a.stop % 4096 else a.stop
  if begin < stop then some ⟨begin, stop⟩ else none

-- with no entry the last one would be read at index -1
def sanitize (m : MemoryMap) : Option MemoryMap := do
  let area ← (SelectionSort.sort Span.begin m.area.length m.area).mapM alignArea
  let last ← area.getLast?
  return ⟨area, last.stop⟩

def addAreas (m : MemoryMap) : List Area → Option MemoryMap
  | [] => some m
  | a :: as => (addArea m a.begin a.stop).bind fun m => addAreas m as

def build (as : List Area) : Option MemoryMap := (addAreas empty as).bind sanitize

section merge
variable {area : List Area} {new : Area} {i n x : Nat}

theorem overlaps_iff (a b : Area) : overlaps a b = true ↔ ¬ Span.Apart a b := by
  simp only [overlaps, Span.Apart, Bool.and_eq_true, decide_eq_true_eq]
  omega

theorem moveLast_perm (xs ys : List Area) (a : Area) :
    (moveLast (xs ++ a :: ys) xs.length).Perm (xs ++ ys) := by
  rcases List.eq_nil_or_concat ys with rfl | ⟨zs, z, rfl⟩
  · have hlen : (xs ++ [a]).length - 1 = xs.length := by simp
    rw [moveLast, hlen, List.append_nil]
    split
    next =>
      rw [List.take_set_of_le le_rfl, List.take_left]
    next => rw [List.take_left]
  · have hlen : (xs ++ a :: zs.concat z).length - 1 = xs.length + (zs.length + 1) := by
      simp [Nat.add_assoc]
    have hlast : (xs ++ a :: zs.concat z).getD (xs.length + (zs.length + 1)) ⟨0, 0⟩ = z := by
      simp [List.getD_eq_getElem?_getD]
    have hset : (xs ++ a :: zs.concat z).set xs.length z = (xs ++ z :: zs) ++ [z] := by
      simp
    rw [moveLast, hlen, if_pos (by omega), hlast, hset,
      show xs.length + (zs.length + 1) = (xs ++ z :: zs).length by simp, List.take_left,
      List.concat_eq_append]
    exact (List.perm_append_singleton z zs).symm.append_left xs

theorem hull_eq (a b : Area) :
    (⟨if a.begin < b.begin then a.begin else b.begin, if a.stop > b.stop then a.stop else b.stop⟩ :
      Area) = Span.hull a b := by
  rw [Span.hull]
  congr 1
  · split <;> omega
  · split <;> omega

theorem mergeAreas_found {xs ys : List Area} {a : Area}
    (hi : (xs ++ a :: ys).findIdx? (overlaps new) = some xs.length) :
    mergeAreas (n + 1) (xs ++ a :: ys) new =
      mergeAreas n (moveLast (xs ++ a :: ys) xs.length) (Span.hull new a) := by
  have hget : (xs ++ a :: ys).getD xs.length ⟨0, 0⟩ = a := by simp [List.getD_eq_getElem?_getD]
  rw [mergeAreas, hi]
  simp only [hget, hull_eq]

theorem mergeAreas_clear (h : area.findIdx? (overlaps new) = none) :
    mergeAreas n area new = area ++ [new] := by
  cases n with
  | zero => rfl
  | succ n => rw [mergeAreas, h]

theorem exists_split (h : area.findIdx? (overlaps new) = some i) :
    ∃ xs a ys, area = xs ++ a :: ys ∧ xs.length = i ∧ ¬ Span.Apart new a := by
  obtain ⟨hi, ha, -⟩ := List.findIdx?_eq_some_iff_getElem.mp h
  refine ⟨area.take i, area[i], area.drop (i + 1), ?_, ?_, (overlaps_iff _ _).mp ha⟩
  · rw [List.getElem_cons_drop, List.take_append_drop]
  · rw [List.length_take]
    omega

structure Canonical (area : List Area) : Prop where
  apart : area.Pairwise Span.Apart
  proper : ∀ a ∈ area, Span.Proper a

theorem Canonical.remove {xs ys : List Area} {a : Area} (c : Canonical (xs ++ a :: ys)) :
    Canonical (moveLast (xs ++ a :: ys) xs.length) := by
  have hp := moveLast_perm xs ys a
  have hsub : (xs ++ ys).Sublist (xs ++ a :: ys) := (List.sublist_cons_self a ys).append_left xs
  refine ⟨(hp.pairwise_iff Span.Apart.symm).mpr (c.apart.sublist hsub), fun b hb => ?_⟩
  exact c.proper b (hsub.subset (hp.mem_iff.mp hb))

theorem Canonical.mergeAreas (n : Nat) {area : List Area} {new : Area} (c : Canonical area)
    (hn : area.length ≤ n) (hnew : new.Proper) :
    Canonical (mergeAreas n area new) ∧ (MemMap.mergeAreas n area new).length ≤ area.length + 1 ∧
      ∀ x, Span.Covered (MemMap.mergeAreas n area new) x ↔
        Span.Covered area x ∨ Span.Mem x new := by
  induction n generalizing area new with
  | zero =>
    obtain rfl := List.length_eq_zero_iff.mp (Nat.le_zero.mp hn)
    exact ⟨⟨List.pairwise_singleton _ _, by simpa [MemMap.mergeAreas] using hnew⟩, by
      simp [MemMap.mergeAreas], fun x => by simp [MemMap.mergeAreas, Span.Covered]⟩
  | succ n ih =>
    cases hi : area.findIdx? (overlaps new) with
    | none =>
      rw [mergeAreas_clear hi]
      have hclear (a : Area) (ha : a ∈ area) : Span.Apart a new := by
        have := List.findIdx?_eq_none_iff.mp hi a ha
        rw [Bool.eq_false_iff, ne_eq, overlaps_iff, not_not] at this
        exact this.symm
      refine ⟨⟨List.pairwise_append.mpr ⟨c.apart, List.pairwise_singleton _ _, ?_⟩, ?_⟩, by simp, ?_⟩
      · intro a ha b hb
        rw [List.mem_singleton.mp hb]
        exact hclear a ha
      · intro a ha
        rcases List.mem_append.mp ha with ha | ha
        · exact c.proper a ha
        · rw [List.mem_singleton.mp ha]
          exact hnew
      · intro x
        rw [Span.covered_append]
        simp [Span.Covered]
    | some i =>
      obtain ⟨xs, a, ys, rfl, rfl, hover⟩ := exists_split hi
      have hp := moveLast_perm xs ys a
      have hlen : (moveLast (xs ++ a :: ys) xs.length).length + 1 = (xs ++ a :: ys).length := by
        rw [hp.length_eq]
        simp only [List.length_append, List.length_cons]
        omega
      obtain ⟨h1, h2, h3⟩ := ih c.remove (by omega) (Span.hull_proper (b := a) hnew)
      rw [mergeAreas_found hi]
      refine ⟨h1, by omega, fun x => ?_⟩
      rw [h3, Span.covered_perm hp, Span.mem_hull hover, Span.covered_append, Span.covered_append,
        Span.covered_cons]
      tauto

end merge

section add
variable {m m' : MemoryMap} {a : Area} {as : List Area}

theorem addArea_isSome (m : MemoryMap) (a : Area) :
    (∃ m', addArea m a.begin a.stop = some m') ↔ a.Proper := by
  rw [addArea, Span.Proper]
  split_ifs with hp hfull
  · exact iff_of_true ⟨m, rfl⟩ hp
  · exact iff_of_true ⟨_, rfl⟩ hp
  · exact iff_of_false (by rintro ⟨_, h⟩; cases h) hp

theorem addAreas_isSome (m : MemoryMap) (as : List Area) :
    (∃ m', addAreas m as = some m') ↔ ∀ a ∈ as, a.Proper := by
  induction as generalizing m with
  | nil => exact iff_of_true ⟨m, rfl⟩ fun a ha => absurd ha List.not_mem_nil
  | cons a as ih =>
    rw [List.forall_mem_cons, ← addArea_isSome m a]
    constructor
    · rintro ⟨m', h⟩
      obtain ⟨m₁, hadd, hrest⟩ := Option.bind_eq_some_iff.mp h
      exact ⟨⟨m₁, hadd⟩, (ih m₁).mp ⟨m', hrest⟩⟩
    · rintro ⟨⟨m₁, hadd⟩, hrest⟩
      obtain ⟨m', h⟩ := (ih m₁).mpr hrest
      exact ⟨m', by rw [addAreas, hadd, Option.bind_some, h]⟩

theorem mergeAreas_ne_nil (n : Nat) (area : List Area) (new : Area) :
    mergeAreas n area new ≠ [] := by
  induction n generalizing area new with
  | zero => exact List.append_ne_nil_of_right_ne_nil _ (List.cons_ne_nil _ _)
  | succ n ih =>
    rw [mergeAreas]
    split
    · exact List.append_ne_nil_of_right_ne_nil _ (List.cons_ne_nil _ _)
    · exact ih _ _

theorem addArea_ne_nil {begin stop : Nat} (h : addArea m begin stop = some m') : m'.area ≠ [] := by
  rw [addArea] at h
  split_ifs at h with hp hfull
  · obtain rfl : m = m' := Option.some.inj h
    exact fun hnil => absurd (hfull.symm.trans (congrArg List.length hnil)) (by decide)
  · obtain rfl := Option.some.inj h
    exact mergeAreas_ne_nil _ _ _

theorem addAreas_ne_nil (h : addAreas m as = some m') (hne : as ≠ []) : m'.area ≠ [] := by
  induction as generalizing m with
  | nil => exact absurd rfl hne
  | cons a as ih =>
    obtain ⟨m₁, hadd, hrest⟩ := Option.bind_eq_some_iff.mp h
    cases as with
    | nil =>
      obtain rfl : m₁ = m' := Option.some.inj hrest
      exact addArea_ne_nil hadd
    | cons b bs => exact ih hrest (List.cons_ne_nil b bs)

theorem mapM_alignArea_isSome (h : ∀ a ∈ as, (alignArea a).isSome) :
    ∃ bs, as.mapM alignArea = some bs ∧ bs.length = as.length := by
  induction as with
  | nil => exact ⟨[], rfl, rfl⟩
  | cons a as ih =>
    obtain ⟨b, hb⟩ := Option.isSome_iff_exists.mp (h a List.mem_cons_self)
    obtain ⟨bs, hbs, hlen⟩ := ih fun c hc => h c (List.mem_cons_of_mem a hc)
    refine ⟨b :: bs, ?_, congrArg (· + 1) hlen⟩
    rw [List.mapM_cons, hb, hbs]
    rfl

theorem sanitize_isSome (hne : m.area ≠ []) (h : ∀ a ∈ m.area, (alignArea a).isSome) :
    ∃ m', sanitize m = some m' := by
  have hp : (SelectionSort.sort Span.begin m.area.length m.area).Perm m.area :=
    SelectionSort.sort_perm _ _ _
  obtain ⟨bs, hbs, hlen⟩ := mapM_alignArea_isSome fun a ha => h a (hp.mem_iff.mp ha)
  have hnil : bs ≠ [] := by
    rintro rfl
    rw [hp.length_eq] at hlen
    exact hne (List.length_eq_zero_iff.mp hlen.symm)
  refine ⟨⟨bs, (bs.getLast hnil).stop⟩, ?_⟩
  rw [sanitize, hbs, Option.bind_eq_bind, Option.bind_some, List.getLast?_eq_some_getLast hnil]
  rfl

end add

end Lasagne.MemMap
