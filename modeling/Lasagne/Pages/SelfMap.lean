import Mathlib
import Lasagne.Pages.Machine

namespace Lasagne.Pages
open RadixTree StateRun
open X86 (canonical)

section address
variable (a : Word)

theorem index_entryAddress {s : Nat} (hs : s = 30 ∨ s = 21 ∨ s = 12 ∨ s = 3) :
    index (entryAddress a) s = index a (s + 9) := by
  refine BitVec.eq_of_getLsbD_eq fun i hi => ?_
  rcases hs with rfl | rfl | rfl | rfl <;> interval_cases i <;>
    simp [index, entryAddress, l4pteMask, pgSelf]

@[simp] theorem index39_entryAddress : index (entryAddress a) 39 = pgSelfIndex := by
  refine BitVec.eq_of_getLsbD_eq fun i hi => ?_
  interval_cases i <;> simp [index, entryAddress, l4pteMask, pgSelf, pgSelfIndex]

@[simp] theorem index30_entryAddress : index (entryAddress a) 30 = index a 39 :=
  index_entryAddress a (.inl rfl)

@[simp] theorem index21_entryAddress : index (entryAddress a) 21 = index a 30 :=
  index_entryAddress a (.inr (.inl rfl))

@[simp] theorem index12_entryAddress : index (entryAddress a) 12 = index a 21 :=
  index_entryAddress a (.inr (.inr (.inl rfl)))

@[simp] theorem index3_entryAddress : index (entryAddress a) 3 = index a 12 :=
  index_entryAddress a (.inr (.inr (.inr rfl)))

theorem high_entryAddress {i : Nat} (h : 47 ≤ i) (hi : i < 64) :
    (entryAddress a).getLsbD i = true := by
  interval_cases i <;> simp [entryAddress, l4pteMask, pgSelf]

theorem canonical_iff :
    canonical a ↔ ∀ i, 48 ≤ i → i < 64 → a.getLsbD i = a.getLsbD 47 := by
  have hmsb : (a.setWidth 48).msb = a.getLsbD 47 := by
    rw [BitVec.msb_eq_getLsbD_last, BitVec.getLsbD_setWidth]
    rfl
  have hbit (i : Nat) (hi : i < 64) : ((a.setWidth 48).signExtend 64).getLsbD i =
      if i < 48 then a.getLsbD i else a.getLsbD 47 := by
    rw [BitVec.getLsbD_signExtend, hmsb, BitVec.getLsbD_setWidth]
    by_cases h48 : i < 48 <;> simp [h48, hi]
  constructor
  · intro h i h48 hi
    have := hbit i hi
    rw [show (a.setWidth 48).signExtend 64 = a from h, if_neg (by omega)] at this
    exact this
  · intro h
    refine BitVec.eq_of_getLsbD_eq fun i hi => ?_
    rw [hbit i hi]
    by_cases h48 : i < 48
    · rw [if_pos h48]
    · rw [if_neg h48, h i (by omega) hi]

theorem canonical_entryAddress : canonical (entryAddress a) := by
  refine (canonical_iff _).mpr fun i h48 hi => ?_
  rw [high_entryAddress a (by omega) hi, high_entryAddress a (by omega) (by decide)]

def entryOf (k : Fin 4) : Word := Nat.iterate entryAddress (4 - k) a

def slot (k : Fin 4) : Index := (indices a)[k]

theorem indices_entryOf (k : Fin 4) : indices (entryOf a k) =
    List.replicate (4 - k) pgSelfIndex ++ (indices a).take k := by
  match k with
  | 0 | 1 | 2 | 3 => simp [entryOf, List.replicate, indices]

theorem word_entryOf (k : Fin 4) : index (entryOf a k) 3 = slot a k := by
  match k with
  | 0 | 1 | 2 | 3 => simp [entryOf, slot, indices]

theorem canonical_entryOf (k : Fin 4) : canonical (entryOf a k) := by
  have : entryOf a k = entryAddress (Nat.iterate entryAddress (3 - k) a) := by
    rw [entryOf, show 4 - k.val = 3 - k.val + 1 by omega, Function.iterate_succ_apply']
  rw [this]
  exact canonical_entryAddress _

theorem indices_take_succ (k : Fin 4) :
    (indices a).take (k + 1) = (indices a).take k ++ [slot a k] := by
  rw [List.take_succ_eq_append_getElem (by simp [indices])]
  rfl

end address

def entryLocation (m : Machine) (a : Word) (k : Fin 4) : Option (Word × Index) :=
  (tableAt m ((indices a).take k)).map fun f => (f, slot a k)

def entryPresent (m : Machine) (a : Word) (k : Fin 4) : Bool :=
  (entryLocation m a k).any fun l => present (m.mem l.1 l.2)

def depth (m : Machine) (a : Word) : Nat :=
  Nat.findGreatest (fun k => (tableAt m ((indices a).take k)).isSome) 4

section tables
variable {m : Machine} {a : Word}

theorem tableAt_succ (k : Fin 4) : tableAt m ((indices a).take (k + 1)) =
    (tableAt m ((indices a).take k)).bind fun f => child (m.mem f (slot a k)) := by
  rw [indices_take_succ]
  exact reach_concat

theorem tableAt_take_le {j k : Nat} (hjk : j ≤ k)
    (h : (tableAt m ((indices a).take k)).isSome = true) :
    (tableAt m ((indices a).take j)).isSome = true := by
  obtain ⟨f, hf⟩ := Option.isSome_iff_exists.mp h
  obtain ⟨g, hg⟩ := reach_prefix (List.take_prefix_take_left hjk) hf
  exact Option.isSome_iff_exists.mpr ⟨g, hg⟩

theorem tableAt_isSome_iff {k : Nat} (hk : k ≤ 4) :
    (tableAt m ((indices a).take k)).isSome = true ↔ k ≤ depth m a := by
  constructor
  · exact fun h => Nat.le_findGreatest hk h
  · intro h
    exact tableAt_take_le h
      (Nat.findGreatest_spec (P := fun k => (tableAt m ((indices a).take k)).isSome = true)
        (Nat.zero_le 4) rfl)

theorem depth_le : depth m a ≤ 4 := Nat.findGreatest_le 4

theorem entryPresent_iff {k : Fin 4} : entryPresent m a k = true ↔ k < depth m a := by
  rw [← Nat.succ_le_iff, ← tableAt_isSome_iff (by omega), tableAt_succ, entryPresent, entryLocation]
  cases tableAt m ((indices a).take k) with
  | none => simp
  | some f => simp [child_isSome]

end tables

section selfMap
variable {m : Machine} {a : Word} (hself : child (m.mem m.cr3 pgSelfIndex) = some m.cr3)
include hself

theorem walk_entryOf (k : Fin 4) : walk m (entryOf a k) = entryLocation m a k := by
  rw [walk, if_pos (canonical_entryOf a k), indices_entryOf, tableAt, reach_replicate hself,
    word_entryOf]
  rfl

theorem load_entryOf {k : Fin 4} {f : Word} (hf : tableAt m ((indices a).take k) = some f) :
    load (entryOf a k) m = .ok (m.mem f (slot a k)) m := by
  rw [load, walk_entryOf hself, entryLocation, hf]
  rfl

theorem store_entryOf {k : Fin 4} {f x : Word} (hf : tableAt m ((indices a).take k) = some f) :
    store (entryOf a k) x m = .ok () (m.withMem (RadixTree.store m.mem f (slot a k) x)) := by
  rw [store, walk_entryOf hself, entryLocation, hf]
  rfl

theorem markPresent_step {k : Fin 4} {is : List (Fin 4)} {mask : Nat} (hk : k ≤ depth m a) :
    markPresent (entryOf a) (k :: is) mask m =
      if k < depth m a then markPresent (entryOf a) is (mask ||| 1 <<< k.val) m
      else .ok mask m := by
  obtain ⟨f, hf⟩ := Option.isSome_iff_exists.mp ((tableAt_isSome_iff (by omega)).mpr hk)
  have hp : present (m.mem f (slot a k)) = true ↔ k < depth m a := by
    rw [← entryPresent_iff, entryPresent, entryLocation, hf]
    simp
  rw [markPresent, bind_ok (load_entryOf hself hf)]
  change (if present (m.mem f (slot a k)) = true then _ else _ : Kernel Nat) m = _
  by_cases hd : k < depth m a
  · rw [if_pos (hp.mpr hd), if_pos hd]
  · rw [if_neg (fun h => hd (hp.mp h)), if_neg hd]
    rfl

theorem ptes_eq : ptes a m = .ok ⟨entryOf a, 2 ^ depth m a - 1⟩ m := by
  have hmask : markPresent (entryOf a) [0, 1, 2, 3] 0 m = .ok (2 ^ depth m a - 1) m := by
    have hle : depth m a ≤ 4 := depth_le
    have hstep := fun k is mask => @markPresent_step m a hself k is mask
    generalize depth m a = d at hle hstep
    have hnil (mask : Nat) : markPresent (entryOf a) [] mask m = .ok mask m := rfl
    interval_cases d <;> simp [hstep, hnil]
  exact bind_ok hmask

end selfMap

theorem mask_level {d k : Nat} : (2 ^ d - 1) &&& 1 <<< k ≠ 0 ↔ k < d := by
  rw [Nat.one_shiftLeft, Nat.and_two_pow, Nat.testBit_two_pow_sub_one]
  by_cases h : k < d <;> simp [h]

theorem ptes_addresses (m : Machine) (a : Word)
    (hself : child (m.mem m.cr3 pgSelfIndex) = some m.cr3) :
    ∃ e, ptes a m = .ok e m ∧ e.presentMask < 16 ∧
      (∀ k : Fin 4, e.presentMask.testBit k = true ↔ ∀ j ≤ k, entryPresent m a j = true) ∧
      ∀ k : Fin 4, (∀ j < k, entryPresent m a j = true) →
        ∃ l, entryLocation m a k = some l ∧ walk m (e.entries k) = some l := by
  refine ⟨_, ptes_eq hself, ?_, fun k => ?_, fun k hk => ?_⟩
  · have : 2 ^ depth m a ≤ 2 ^ 4 := Nat.pow_le_pow_right (by decide) depth_le
    have : 0 < 2 ^ depth m a := Nat.two_pow_pos _
    change 2 ^ depth m a - 1 < 16
    omega
  · rw [Nat.testBit_two_pow_sub_one, decide_eq_true_iff]
    constructor
    · exact fun h j hj => entryPresent_iff.mpr (lt_of_le_of_lt hj h)
    · exact fun h => entryPresent_iff.mp (h k le_rfl)
  · have hd : k ≤ depth m a := by
      by_contra hlt
      have := entryPresent_iff.mp (hk ⟨depth m a, by omega⟩ (by simp [Fin.lt_def]; omega))
      simp at this
    obtain ⟨f, hf⟩ := Option.isSome_iff_exists.mp ((tableAt_isSome_iff (by omega)).mpr hd)
    have hl : entryLocation m a k = some (f, slot a k) := by
      rw [entryLocation, hf]
      rfl
    exact ⟨_, hl, (walk_entryOf hself k).trans hl⟩

def lowEntries (both : Bool) : List (Word × Index × Word) :=
  [(0x1000, 0, 0x0010000000002003), (0x1000, pgSelfIndex, 0x1003),
    (0x2000, 0, 0x0010000000003003),
    (0x3000, 0, if both then 0x0020000000004003 else 0x0010000000004003), (0x4000, 0, 0x5003),
    (0x4000, 1, if both then 0x6003 else 0)]

def lowPages (both : Bool) : Machine where
  mem f i := (((lowEntries both).find? fun e => e.1 == f && e.2.1 == i).map fun e => e.2.2).getD 0
  cr3 := 0x1000
  zeroPage := 0x8000
  frames t := BitVec.ofNat 64 (0x9000 + 0x1000 * t)
  calls := 0
  freed := []
  installed := []

def twoPages : Machine := lowPages true

theorem ptes_addresses_sample : ∃ e, ptes 0x1000 twoPages = .ok e twoPages ∧
    e.presentMask.testBit 3 = true ∧ walk twoPages (e.entries 3) = some (0x4000, 1) := by
  obtain ⟨e, hrun, -, hmask, haddress⟩ := ptes_addresses twoPages 0x1000 (by decide)
  have hpresent : ∀ j, entryPresent twoPages 0x1000 j = true := by decide
  obtain ⟨l, hl, hwalk⟩ := haddress 3 fun j _ => hpresent j
  have hloc : entryLocation twoPages 0x1000 3 = some (0x4000, 1) := by decide
  exact ⟨e, hrun, (hmask 3).mpr fun j _ => hpresent j, hwalk.trans (hl.symm.trans hloc)⟩

end Lasagne.Pages
