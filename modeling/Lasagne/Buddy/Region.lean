import Mathlib
import Lasagne.Buddy.Fixed
import Lasagne.Library.SplitTree

namespace Lasagne.Buddy
open ByteMemory CInt SplitTree

theorem xor_one_div_two (i : Nat) : (i ^^^ 1) / 2 = i / 2 := by
  rw [Nat.xor_div_two]; simp

theorem xor_one_cases (i : Nat) : i % 2 = 0 ∧ i ^^^ 1 = i + 1 ∨ i % 2 = 1 ∧ i ^^^ 1 = i - 1 := by
  have h1 := xor_one_div_two i
  have h2 : (i ^^^ 1) % 2 = (i + 1) % 2 := by rw [Nat.xor_mod_two_eq]
  omega

theorem xor_one_lt {l i : Nat} (h : i < 2 ^ (l + 1)) : i ^^^ 1 < 2 ^ (l + 1) := by
  have := xor_one_cases i
  rw [pow_succ] at h ⊢
  omega

structure Blocks where
  base : Nat
  leafSize : Nat
  depth : Nat
  leaf_pos : 0 < leafSize

def node (level index : Nat) : Nat := 2 ^ level + index - 1

theorem node_lt {d l i : Nat} (hl : l < d) (hi : i < 2 ^ l) : node l i < 2 ^ d - 1 := by
  have hp : 2 ^ (l + 1) ≤ 2 ^ d := Nat.pow_le_pow_right (by omega) hl
  rw [pow_succ] at hp
  have : 0 < 2 ^ l := by positivity
  rw [node]; omega

theorem node_inj {l i m j : Nat} (hi : i < 2 ^ l) (hj : j < 2 ^ m)
    (h : node l i = node m j) : l = m ∧ i = j := by
  have hl : 0 < 2 ^ l := by positivity
  have hm : 0 < 2 ^ m := by positivity
  simp only [node] at h
  have hlog (n k : Nat) (hk : k < 2 ^ n) : (2 ^ n + k).log2 = n := by
    have : 2 ^ (n + 1) = 2 ^ n + 2 ^ n := by rw [pow_succ]; omega
    rw [Nat.log2_eq_iff (by positivity)]
    omega
  have hlm : l = m := by rw [← hlog l i hi, ← hlog m j hj]; congr 1; omega
  subst hlm
  omega

namespace Blocks

def size (y : Blocks) : Nat := y.leafSize * 2 ^ y.depth

def blockSize (y : Blocks) (level : Nat) : Nat := y.leafSize * 2 ^ (y.depth - level)

def address (y : Blocks) (level index : Nat) : Nat := y.base + index * y.blockSize level

def bitmapSize (y : Blocks) : Nat := (2 ^ y.depth - 1) / 8 + 1

variable (y : Blocks)

theorem blockSize_pos (l : Nat) : 0 < y.blockSize l :=
  Nat.mul_pos y.leaf_pos (Nat.two_pow_pos _)

theorem blockSize_zero : y.blockSize 0 = y.size := by rw [blockSize, Nat.sub_zero, size]

theorem blockSize_depth : y.blockSize y.depth = y.leafSize := by
  rw [blockSize, Nat.sub_self, pow_zero, Nat.mul_one]

theorem leafSize_le_blockSize (l : Nat) : y.leafSize ≤ y.blockSize l :=
  Nat.le_mul_of_pos_right _ (Nat.two_pow_pos _)

theorem blockSize_add {l n : Nat} (hl : l + n ≤ y.depth) :
    y.blockSize l = 2 ^ n * y.blockSize (l + n) := by
  rw [blockSize, blockSize, Nat.mul_left_comm, ← pow_add]
  congr 2; omega

theorem blockSize_succ {l : Nat} (hl : l < y.depth) : y.blockSize l = 2 * y.blockSize (l + 1) :=
  y.blockSize_add (n := 1) hl

theorem size_eq_mul {l : Nat} (hl : l ≤ y.depth) : y.size = 2 ^ l * y.blockSize l := by
  have h := y.blockSize_add (l := 0) (n := l) (by omega)
  rw [y.blockSize_zero, Nat.zero_add] at h
  exact h

theorem size_div_leafSize : y.size / y.leafSize = 2 ^ y.depth :=
  Nat.mul_div_cancel_left _ y.leaf_pos

theorem block_end_le {l i : Nat} (hl : l ≤ y.depth) (hi : i < 2 ^ l) :
    i * y.blockSize l + y.blockSize l ≤ y.size := by
  rw [y.size_eq_mul hl, ← Nat.succ_mul]
  exact Nat.mul_le_mul_right _ hi

theorem address_end_le {l i : Nat} (hl : l ≤ y.depth) (hi : i < 2 ^ l) :
    y.address l i + y.blockSize l ≤ y.base + y.size := by
  have := y.block_end_le hl hi
  rw [address]; omega

theorem index_lt {l off : Nat} (hl : l ≤ y.depth) (ho : off < y.size) :
    off / y.blockSize l < 2 ^ l := by
  rw [Nat.div_lt_iff_lt_mul (y.blockSize_pos l), ← y.size_eq_mul hl]
  exact ho

theorem address_down {l n : Nat} (i : Nat) (hl : l + n ≤ y.depth) :
    y.address l i = y.address (l + n) (i * 2 ^ n) := by
  rw [address, address, y.blockSize_add hl, Nat.mul_assoc]

theorem address_left {l : Nat} (i : Nat) (hl : l < y.depth) :
    y.address (l + 1) (2 * i) = y.address l i := by
  rw [address, address, y.blockSize_succ hl]; ring

theorem address_right {l : Nat} (i : Nat) (hl : l < y.depth) :
    y.address (l + 1) (2 * i + 1) = y.address l i + y.blockSize l / 2 := by
  rw [address, address, y.blockSize_succ hl, Nat.mul_div_cancel_left _ (by omega)]; ring

theorem address_inj {l i j : Nat} (h : y.address l i = y.address l j) : i = j := by
  have := y.blockSize_pos l
  simp only [address, Nat.add_left_cancel_iff] at h
  exact Nat.eq_of_mul_eq_mul_right this h

theorem bitmap_byte_lt {n : Nat} (h : n < 2 ^ y.depth - 1) : n / 8 < y.bitmapSize := by
  rw [bitmapSize]; omega

end Blocks

-- as allocator_init takes it: bitmaps may be ALLOCATOR_EMPTY
structure Managed extends Blocks where
  bitmaps : Nat

namespace Managed

def first (y : Managed) : Nat := if empty y.bitmaps then y.base else y.bitmaps

def splitBitmap (y : Managed) : Nat := y.first + y.bitmapSize

end Managed

structure Arena extends Managed where
  leafBits : Nat
  leaf_eq : leafSize = 2 ^ leafBits
  depth_le : depth ≤ 30
  bits_lt : leafBits + depth < 63
  base_fits : base + 2 ^ (leafBits + depth) ≤ 2 ^ 64

namespace Arena
variable (y : Arena)

theorem blockSize_eq {l : Nat} (hl : l ≤ y.depth) :
    y.blockSize l = 2 ^ (y.leafBits + y.depth - l) := by
  rw [Blocks.blockSize, y.leaf_eq, ← pow_add]; congr 1; omega

theorem size_eq : y.size = 2 ^ (y.leafBits + y.depth) := by
  rw [← y.blockSize_zero, y.blockSize_eq (Nat.zero_le _), Nat.sub_zero]

theorem base_add_size_le : y.base + y.size ≤ 18446744073709551616 := by
  rw [size_eq]
  exact y.base_fits

theorem size_lt : y.size < 9223372036854775808 := by
  calc y.size = 2 ^ (y.leafBits + y.depth) := y.size_eq
    _ < 2 ^ 63 := Nat.pow_lt_pow_right (by omega) y.bits_lt
    _ = 9223372036854775808 := by norm_num

theorem clog_le {n : Nat} (h : n ≤ y.size) : Nat.clog 2 n ≤ y.leafBits + y.depth := by
  rw [size_eq] at h
  exact (Nat.clog_le_iff_le_pow (by omega)).mpr h

end Arena

structure Region extends Arena where
  leaf_ge : 4 ≤ leafBits
  size_le : leafBits + depth ≤ 30
  base_pos : 0 < base
  bitmaps_pos : 0 < bitmaps
  bitmaps_fit : bitmaps + 2 * ((2 ^ depth - 1) / 8 + 1) ≤ 2 ^ 64
  apart : bitmaps + 2 * ((2 ^ depth - 1) / 8 + 1) ≤ base ∨
    base + 2 ^ (leafBits + depth) ≤ bitmaps
  depth_le := by omega
  bits_lt := by omega

namespace Region
variable (r : Region)

theorem size_le_pow : r.size ≤ 2 ^ 30 := by
  rw [r.size_eq]
  exact Nat.pow_le_pow_right (by omega) r.size_le

theorem sixteen_le_leafSize : 16 ≤ r.leafSize := by
  have hpow : 2 ^ 4 ≤ 2 ^ r.leafBits := Nat.pow_le_pow_right (by omega) r.leaf_ge
  rw [r.leaf_eq]
  exact hpow

theorem sixteen_le_blockSize (l : Nat) : 16 ≤ r.blockSize l :=
  r.sixteen_le_leafSize.trans (r.leafSize_le_blockSize l)

theorem address_lt {l i : Nat} (hl : l ≤ r.depth) (hi : i < 2 ^ l) :
    r.address l i < 18446744073709551616 := by
  have := r.address_end_le hl hi
  have := r.blockSize_pos l
  have := r.base_add_size_le
  omega

theorem address_pos (l i : Nat) : 0 < r.address l i := by
  have := r.base_pos
  rw [Blocks.address]; omega

theorem first_eq : r.first = r.bitmaps := by
  have hne : ¬ empty r.bitmaps = true := by
    simpa [empty, allocatorEmpty] using r.bitmaps_pos.ne'
  exact if_neg hne

theorem splitBitmap_eq : r.splitBitmap = r.bitmaps + r.bitmapSize := by
  rw [Managed.splitBitmap, first_eq]

theorem bitmap_end_le : r.bitmaps + 2 * r.bitmapSize ≤ 18446744073709551616 := r.bitmaps_fit

theorem bitmap_apart : r.bitmaps + 2 * r.bitmapSize ≤ r.base ∨
    r.base + r.size ≤ r.bitmaps := by
  rw [r.size_eq]
  exact r.apart

def InBitmaps (x : Nat) : Prop := r.bitmaps ≤ x ∧ x < r.bitmaps + 2 * r.bitmapSize

-- the bytes of a block; offsets in leaves are those of the abstract tree
def InBlock (level index x : Nat) : Prop :=
  r.address level index ≤ x ∧ x < r.address level index + r.blockSize level

theorem inBlock_iff {l i x : Nat} :
    r.InBlock l i x ↔ r.base ≤ x ∧ Inside r.depth l i ((x - r.base) / r.leafSize) := by
  have hp := r.leaf_pos
  have hq : 0 < 2 ^ (r.depth - l) := by positivity
  rw [inside_iff, Nat.div_div_eq_div_mul, ← Blocks.blockSize, InBlock, Blocks.address,
    Nat.div_eq_iff (r.blockSize_pos l)]
  have := r.blockSize_pos l
  omega

theorem not_inBitmaps_of_inBlock {l i x : Nat} (hl : l ≤ r.depth) (hi : i < 2 ^ l)
    (hx : r.InBlock l i x) : ¬ r.InBitmaps x := by
  have h1 := r.address_end_le hl hi
  have h2 := r.bitmap_apart
  have h3 : r.base ≤ r.address l i := by rw [Blocks.address]; omega
  unfold InBlock at hx
  unfold InBitmaps
  omega

theorem header_inBlock {l i x : Nat} (h1 : r.address l i ≤ x) (h2 : x < r.address l i + 16) :
    r.InBlock l i x := by
  have := r.sixteen_le_blockSize l
  unfold InBlock; omega

theorem inBlock_children {l i x : Nat} (hl : l < r.depth) :
    r.InBlock l i x ↔ r.InBlock (l + 1) (2 * i) x ∨ r.InBlock (l + 1) (2 * i + 1) x := by
  rw [inBlock_iff, inBlock_iff, inBlock_iff, inside_children hl]
  tauto

theorem inBlock_unique {k : Labels} (h : Tiling r.depth k) {l i m j x : Nat}
    (hi : (k l i).isLeaf) (hj : (k m j).isLeaf) (hx : r.InBlock l i x) (hy : r.InBlock m j x) :
    l = m ∧ i = j := by
  rw [inBlock_iff] at hx hy
  exact leaf_unique h hi hj hx.2 hy.2

end Region

theorem levelIndex_of_lt {l : Nat} (h : l < 40) : levelIndex (l : Int) = some l := by
  rw [levelIndex, if_pos (by simp only [allocatorMaxLevels]; omega), Int.toNat_natCast]

theorem uniqueIndex_of_shift {level levelIndex one : Int} (h : shiftOne level = some one) :
    uniqueIndex level levelIndex =
      (checked (one + levelIndex)).bind (fun sum => checked (sum - 1)) := by
  rw [uniqueIndex, h]
  simp only [Option.bind_eq_bind, Option.bind_some]

theorem checked_node {n i : Nat} (hn : n ≤ 1073741824) (hi : i < n) :
    (checked ((n : Int) + (i : Int))).bind (fun sum => checked (sum - 1)) =
      some ((n + i - 1 : Nat) : Int) := by
  rw [checked_of_range (by omega), Option.bind_some, checked_of_range (by omega)]
  congr 1; omega

theorem uniqueIndex_eq {l i : Nat} (hl : l < 31) (hi : i < 2 ^ l) :
    uniqueIndex (l : Int) (i : Int) = some (node l i : Int) := by
  have hp : 2 ^ l ≤ 1073741824 := by
    calc 2 ^ l ≤ 2 ^ 30 := Nat.pow_le_pow_right (by omega) (by omega)
      _ = 1073741824 := by norm_num
  rw [uniqueIndex_of_shift (shiftOne_of_lt (by omega)), checked_node hp hi]
  rfl

theorem indexInLevel_offset {a : Allocator} {l off size : Nat}
    (hs : sizeFromLevel a (l : Int) = some size) (hpos : 0 < size) (ho : off < 18446744073709551616)
    (hi : off / size < 2147483648) :
    indexInLevel a (a.memory + off) (l : Int) = some ((off / size : Nat) : Int) := by
  have hsub : subSize (a.memory + off) a.memory = off := by
    simp only [subSize, wordSize]; omega
  rw [indexInLevel, hs, hsub]
  simp only [Option.bind_eq_bind, Option.bind_some, if_neg (show size ≠ 0 by omega)]
  rw [toInt_of_lt hi]
  rfl

structure Blocks.Spans (y : Blocks) (a : Allocator) : Prop where
  memory : a.memory = y.base
  size : a.size = y.size
  depth_le : y.depth ≤ 31
  size_le : y.size ≤ 18446744073709551616

namespace Blocks.Spans
variable {y : Blocks} {a : Allocator} (s : y.Spans a)
include s

theorem sizeFromLevel {l : Nat} (hl : l ≤ y.depth) :
    sizeFromLevel a (l : Int) = some (y.blockSize l) := by
  have := s.depth_le
  rw [Buddy.sizeFromLevel, s.size, shiftRight_of_lt _ (by omega), y.size_eq_mul hl,
    Nat.mul_div_cancel_left _ (by positivity)]

theorem indexInLevel {l off : Nat} (hl : l ≤ y.depth) (ho : off < y.size) :
    indexInLevel a (y.base + off) (l : Int) = some ((off / y.blockSize l : Nat) : Int) := by
  have hd := s.depth_le
  have hsize := s.size_le
  have hi := y.index_lt hl ho
  have hp : 2 ^ l ≤ 2 ^ 31 := Nat.pow_le_pow_right (by omega) (by omega)
  rw [← s.memory]
  exact indexInLevel_offset (s.sizeFromLevel hl) (y.blockSize_pos l) (by omega) (by omega)

theorem splitBitIndex {l off : Nat} (hl : l ≤ y.depth) (hl' : l < 31) (ho : off < y.size) :
    splitBitIndex a (y.base + off) (l : Int) = some (node l (off / y.blockSize l) : Int) := by
  rw [Buddy.splitBitIndex, s.indexInLevel hl ho, Option.bind_eq_bind, Option.bind_some,
    uniqueIndex_eq hl' (y.index_lt hl ho)]

theorem splitBitIndex_address {l n i : Nat} (hn : l + n ≤ y.depth) (hl : l < 31)
    (hi : i < 2 ^ (l + n)) :
    Buddy.splitBitIndex a (y.address (l + n) i) (l : Int) = some (node l (i / 2 ^ n) : Int) := by
  have hend := y.block_end_le hn hi
  have hp := y.blockSize_pos (l + n)
  rw [address, s.splitBitIndex (by omega) hl (by omega), y.blockSize_add hn, Nat.mul_comm (2 ^ n),
    ← Nat.div_div_eq_div_mul, Nat.mul_div_cancel _ hp]

theorem splitBitIndex_block {l i : Nat} (hl : l ≤ y.depth) (hl' : l < 31) (hi : i < 2 ^ l) :
    Buddy.splitBitIndex a (y.address l i) (l : Int) = some (node l i : Int) := by
  have h := s.splitBitIndex_address (n := 0) hl hl' hi
  rw [pow_zero, Nat.div_one] at h
  exact h

theorem allocationBitIndex {l i : Nat} (hl : l < y.depth) (hi : i < 2 ^ (l + 1)) :
    allocationBitIndex a (y.address (l + 1) i) ((l + 1 : Nat) : Int) =
      some (node l (i / 2) : Int) := by
  have hend := y.block_end_le (show l + 1 ≤ y.depth from hl) hi
  have hp := y.blockSize_pos (l + 1)
  have hd := s.depth_le
  rw [pow_succ] at hi
  rw [Buddy.allocationBitIndex, address, s.indexInLevel (show l + 1 ≤ y.depth from hl)
    (by omega), Option.bind_eq_bind, Option.bind_some, Nat.mul_div_cancel _ hp,
    show ((l + 1 : Nat) : Int) - 1 = (l : Int) by omega,
    show ((i : Nat) : Int).tdiv 2 = ((i / 2 : Nat) : Int) by
      rw [Int.tdiv_eq_ediv_of_nonneg (by omega)]; omega,
    uniqueIndex_eq (by omega) (by omega)]

end Blocks.Spans

structure Shape (y : Managed) (a : Allocator) : Prop where
  memory : a.memory = y.base
  size : a.size = y.size
  leafSize : a.leafSize = y.leafSize
  maxLevel : a.maxLevel = y.depth
  bitmapEntries : a.bitmapEntries = ((2 ^ y.depth - 1 : Nat) : Int)
  allocationBitmap : a.allocationBitmap = y.first
  splitBitmap : a.splitBitmap = y.splitBitmap

theorem Shape.congr {y : Managed} {a b : Allocator} (s : Shape y a) (f : Fixed a b) : Shape y b :=
  ⟨f.memory.trans s.memory, f.size.trans s.size, f.leafSize.trans s.leafSize,
    f.maxLevel.trans s.maxLevel, f.bitmapEntries.trans s.bitmapEntries,
    f.allocationBitmap.trans s.allocationBitmap, f.splitBitmap.trans s.splitBitmap⟩

theorem Shape.setFreeList {y : Managed} {a : Allocator} (s : Shape y a) (l head count : Nat) :
    Shape y (setFreeList a l head count) :=
  s.congr (fixed_setFreeList a l head count)

namespace Shape
variable {y : Arena} {a : Allocator} (s : Shape y.toManaged a)
include s

theorem spans : y.Spans a :=
  ⟨s.memory, s.size, y.depth_le.trans (by omega), y.size_lt.le.trans (by omega)⟩

theorem calculateBuddyAddress {l i : Nat} (hl : l < y.depth) (hi : i < 2 ^ (l + 1)) :
    calculateBuddyAddress a (y.address (l + 1) i) ((l + 1 : Nat) : Int) =
      some (y.address (l + 1) (i ^^^ 1)) := by
  have hb := y.base_add_size_le
  have hs := y.size_lt
  have hd := y.depth_le
  have hp := y.blockSize_pos (l + 1)
  have he := y.block_end_le (show l + 1 ≤ y.depth from hl) hi
  have hj := y.block_end_le (show l + 1 ≤ y.depth from hl) (xor_one_lt hi)
  have hmul : 2 ^ (y.depth - (l + 1)) * y.leafSize = y.blockSize (l + 1) := by
    rw [Blocks.blockSize, Nat.mul_comm]
  have hpow : 2 ^ (y.depth - (l + 1)) ≤ y.blockSize (l + 1) := by
    rw [← hmul]
    exact Nat.le_mul_of_pos_right _ y.leaf_pos
  have hsub : subSize (y.address (l + 1) i) y.base = i * y.blockSize (l + 1) := by
    simp only [subSize, wordSize, Blocks.address]; omega
  have hxor : i * y.blockSize (l + 1) ^^^ y.blockSize (l + 1) =
      (i ^^^ 1) * y.blockSize (l + 1) := by
    rw [y.blockSize_eq hl, ← Nat.shiftLeft_eq, ← Nat.shiftLeft_eq, Nat.shiftLeft_xor_distrib,
      Nat.one_shiftLeft]
  rw [Buddy.calculateBuddyAddress, s.maxLevel,
    show (y.depth : Int) - ((l + 1 : Nat) : Int) = ((y.depth - (l + 1) : Nat) : Int) by omega,
    shiftOne_of_lt (by omega)]
  simp only [Option.bind_eq_bind, Option.bind_some, Option.pure_def, Option.some.injEq]
  rw [toSize_ofNat (by omega), s.leafSize, hmul, s.memory, hsub,
    Nat.mod_eq_of_lt (by simp only [wordSize]; omega), hxor]
  simp only [addSize, wordSize, Blocks.address]; omega

theorem splitBitIndex_block {l i : Nat} (hl : l ≤ y.depth) (hi : i < 2 ^ l) :
    Buddy.splitBitIndex a (y.address l i) (l : Int) = some (node l i : Int) :=
  s.spans.splitBitIndex_block hl (by have := y.depth_le; omega) hi

theorem splitBitIndex_parent {l i : Nat} (hl : l < y.depth) (hi : i < 2 ^ (l + 1)) :
    Buddy.splitBitIndex a (y.address (l + 1) i) (l : Int) = some (node l (i / 2) : Int) := by
  have h := s.spans.splitBitIndex_address (n := 1) hl (by have := y.depth_le; omega) hi
  rw [pow_one] at h
  exact h

end Shape

theorem Shape.levelFromSize {r : Region} {a : Allocator} (s : Shape r.toManaged a) {n : Nat}
    (h : n ≤ r.leafBits + r.depth) :
    levelFromSize a (2 ^ n) = some ((r.leafBits + r.depth - n : Nat) : Int) := by
  have hd := r.size_le
  rw [Buddy.levelFromSize, s.size, r.size_eq, Math.log2_two_pow (by omega),
    Math.log2_two_pow (by omega)]
  simp only [Option.bind_eq_bind, Option.bind_some, Option.pure_def, Option.some.injEq]
  omega

end Lasagne.Buddy
