import Mathlib
import Lasagne.Buddy.Invariant

namespace Lasagne.Buddy
open ByteMemory CInt SplitTree LinkedList Bitmap

def rootTree : Labels := set (fun _ _ => .absent) 0 0 .free

def rootLists : Nat → List Nat := fun level => if level = 0 then [0] else []

def ZeroFilled (r : Region) (m : Memory) : Prop :=
  ∀ x, r.base ≤ x → x < r.base + r.size → m x = 0#8

theorem rootTree_eq (l i : Nat) : rootTree l i = if l = 0 ∧ i = 0 then .free else .absent := rfl

theorem rootTree_not_split (l i : Nat) : rootTree l i ≠ .split := by
  rw [rootTree_eq]
  split <;> simp

theorem rootTree_not_live (l i : Nat) : rootTree l i ≠ .live := by
  rw [rootTree_eq]
  split <;> simp

theorem tiling_rootTree (d : Nat) : Tiling d rootTree where
  root i := by simp [rootTree_eq]
  child l i := by
    rw [rootTree_eq, if_neg (by omega)]
    simp [rootTree_not_split]
  depth l i h := absurd h (rootTree_not_split l i)

theorem coalesced_rootTree : Coalesced rootTree := by
  intro l i h
  rw [rootTree_eq, if_neg (by omega)] at h
  simp at h

theorem isSplit_rootTree : isSplit rootTree = fun _ _ => false := by
  funext l i
  simp [isSplit, rootTree_not_split]

theorem parity_rootTree : parity rootTree = fun _ _ => false := by
  funext l i
  simp [parity, rootTree_not_split]

theorem listed_rootTree (l i : Nat) : i ∈ rootLists l ↔ rootTree l i = .free := by
  rw [rootLists, rootTree_eq]
  cases l with
  | zero => simp
  | succ l => simp

theorem pow_depth_le {d : Nat} (hd : d ≤ 30) : 2 ^ d ≤ 1073741824 := by
  calc 2 ^ d ≤ 2 ^ 30 := Nat.pow_le_pow_right (by omega) hd
    _ = 1073741824 := by norm_num

theorem Blocks.bitmapSize_entries (y : Blocks) (hd : y.depth ≤ 30) :
    toSize (((2 ^ y.depth - 1 : Nat) : Int).tdiv 8 + 1) = y.bitmapSize := by
  have hpow := pow_depth_le hd
  rw [bitmapSize, Int.tdiv_eq_ediv_of_nonneg (by omega)]
  generalize 2 ^ y.depth = n at *
  rw [show ((n - 1 : Nat) : Int) / 8 + 1 = (((n - 1) / 8 + 1 : Nat) : Int) by omega,
    toSize_ofNat (by omega)]

theorem Blocks.allocatorBitmapsSize_eq (y : Blocks) (hd : y.depth ≤ 30) :
    allocatorBitmapsSize y.size y.leafSize = 2 ^ y.depth * 2 := by
  have hpow := pow_depth_le hd
  rw [allocatorBitmapsSize, y.size_div_leafSize]
  exact Nat.mod_eq_of_lt (by simp only [wordSize]; omega)

namespace Managed

def initialAllocator (y : Managed) : Allocator where
  memory := y.base
  size := y.size
  freeSize := y.size
  leafSize := y.leafSize
  maxLevel := y.depth
  bitmapEntries := ((2 ^ y.depth - 1 : Nat) : Int)
  freeBlocks := fun level => if level = 0 then y.base else allocatorEmpty
  freeCount := fun level => if level = 0 then 1 else 0
  splitBitmap := y.splitBitmap
  allocationBitmap := y.first

def initialMemory (y : Managed) (m : Memory) : Memory :=
  fill (fill m y.first y.bitmapSize 0#8) y.splitBitmap y.bitmapSize 0#8

def initialHeap (y : Managed) (m : Memory) : Heap := ⟨y.initialAllocator, y.initialMemory m⟩

theorem shape_initialAllocator (y : Managed) : Shape y y.initialAllocator :=
  ⟨rfl, rfl, rfl, rfl, rfl, rfl, rfl⟩

theorem allocatorInit_eq (y : Managed) (hd : y.depth ≤ 30)
    (hfit : y.first + 2 * y.bitmapSize ≤ 18446744073709551616) (m : Memory) :
    allocatorInit m y.base y.size y.leafSize y.bitmaps = some (y.initialHeap m) := by
  have hpow := pow_depth_le hd
  have hpos : 0 < 2 ^ y.depth := Nat.two_pow_pos _
  have hentries : ((2 ^ y.depth : Nat) : Int) - 1 = ((2 ^ y.depth - 1 : Nat) : Int) := by omega
  have hfirst : (if empty y.bitmaps = true then y.base else y.bitmaps) = y.first := rfl
  have hsplit : addSize y.first y.bitmapSize = y.splitBitmap := by
    have : 0 < y.bitmapSize := Nat.succ_pos _
    exact Nat.mod_eq_of_lt (by simp only [wordSize]; omega)
  rw [allocatorInit, y.size_div_leafSize, Math.log2_two_pow (by omega), Option.bind_eq_bind,
    Option.bind_some, shiftOne_of_lt (by omega), Option.bind_eq_bind, Option.bind_some,
    checked_of_range (by omega), Option.bind_some, hentries, y.bitmapSize_entries hd]
  simp only [hfirst, hsplit]
  rfl

end Managed

section init
variable {r : Region} {m : Memory}

theorem Region.allocatorInit_eq (r : Region) (m : Memory) :
    allocatorInit m r.base r.size r.leafSize r.bitmaps = some (r.initialHeap m) :=
  r.toManaged.allocatorInit_eq r.depth_le (by rw [r.first_eq]; exact r.bitmap_end_le) m

theorem initialMemory_bits (r : Region) (m : Memory) {x : Nat} (hx : r.InBitmaps x) :
    r.initialMemory m x = 0#8 := by
  simp only [Region.InBitmaps] at hx
  rw [Managed.initialMemory, r.splitBitmap_eq, r.first_eq]
  by_cases hs : r.bitmaps + r.bitmapSize ≤ x
  · exact fill_inside _ _ (by omega)
  · rw [fill_outside _ _ (by omega)]
    exact fill_inside _ _ (by omega)

theorem initialMemory_outside (r : Region) (m : Memory) {x : Nat} (hx : ¬ r.InBitmaps x) :
    r.initialMemory m x = m x := by
  simp only [Region.InBitmaps] at hx
  rw [Managed.initialMemory, r.splitBitmap_eq, r.first_eq, fill_outside _ _ (by omega),
    fill_outside _ _ (by omega)]

theorem bitAt_zero {m : Memory} {buffer bit : Nat} (h : m (buffer + bit / 8) = 0#8) :
    bitAt m buffer bit = false := by
  rw [bitAt, h]; simp

theorem loadWord_initial (hz : ZeroFilled r m) {p : Nat} (h1 : r.base ≤ p)
    (h2 : p + 8 ≤ r.base + r.size) : loadWord (r.initialMemory m) p = 0#64 := by
  refine loadWord_zero fun n hn => ?_
  rw [initialMemory_outside r m, hz (p + n) (by omega) (by omega)]
  have := r.bitmap_apart
  simp only [Region.InBitmaps]
  omega

theorem represents_init (hz : ZeroFilled r m) :
    Represents r (r.initialHeap m) rootTree rootLists := by
  have haddr : r.address 0 0 = r.base := by rw [Blocks.address]; omega
  have hsz := r.sixteen_le_blockSize 0
  rw [r.blockSize_zero] at hsz
  have hnext : nodeNext (r.initialMemory m) r.base = 0 := by
    rw [nodeNext, loadWord_initial hz (by omega) (by omega)]
    rfl
  refine ⟨⟨r.shape_initialAllocator, tiling_rootTree _, coalesced_rootTree, ?_, ?_,
    listed_rootTree⟩, ?_⟩
  · rw [isSplit_rootTree, parity_rootTree]
    constructor
    · intro l i hl hi
      have := Bits.split_byte hl hi
      refine bitAt_zero (initialMemory_bits r m ?_)
      simp only [Region.InBitmaps, Region.splitBitmap_eq]
      omega
    · intro l i hl hi
      have := Bits.allocation_byte hl hi
      refine bitAt_zero (initialMemory_bits r m ?_)
      simp only [Region.InBitmaps]
      omega
  · have hmem (l i : Nat) (h : i ∈ rootLists l) : l = 0 ∧ i = 0 := by
      rw [listed_rootTree, rootTree_eq] at h
      split at h
      next h0 => exact h0
      next => simp at h
    refine ⟨fun l i h => ?_, fun l i n j hi hj _ => ?_, fun l => ?_, fun l => ?_, fun l => ?_,
      fun l => ?_⟩
    · obtain ⟨rfl, rfl⟩ := hmem l i h
      exact ⟨Nat.zero_le _, by simp⟩
    · obtain ⟨rfl, rfl⟩ := hmem l i hi
      obtain ⟨rfl, rfl⟩ := hmem n j hj
      exact ⟨rfl, rfl⟩
    · rw [rootLists]
      split <;> simp
    · cases l with
      | zero => exact ⟨haddr.symm, (r.address_pos 0 0).ne', by rw [haddr]; exact hnext⟩
      | succ l => rfl
    · cases l with
      | zero => exact List.isChain_singleton _
      | succ l => exact List.isChain_nil
    · cases l with
      | zero => rfl
      | succ l => rfl
  · rw [freeTotal, Finset.sum_eq_single 0]
    · simp [rootLists, r.blockSize_zero, Managed.initialHeap, Managed.initialAllocator]
    · intro l _ hl
      simp [rootLists, hl]
    · simp

end init

end Lasagne.Buddy
