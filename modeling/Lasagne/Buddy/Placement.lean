import Mathlib
import Lasagne.Buddy.Index
import Lasagne.Buddy.Run

namespace Lasagne.Buddy
open ByteMemory CInt Bitmap

-- unit is the odd part of the leaf size; a leaf has room for the node of a free block
structure Layout extends Managed where
  unit : Nat
  leafBits : Nat
  leaf_eq : leafSize = unit * 2 ^ leafBits
  unit_odd : unit % 2 = 1
  leaf_ge : 16 ≤ leafSize
  size_lt : leafSize * 2 ^ depth < 2 ^ 64
  base_fits : base + leafSize * 2 ^ depth ≤ 2 ^ 64
  placed : bitmaps = allocatorEmpty ∨
    base ≤ bitmaps ∧ leafSize ∣ bitmaps - base ∧
      bitmaps + allocatorBitmapsSize (leafSize * 2 ^ depth) leafSize ≤ base + leafSize * 2 ^ depth

namespace Layout

-- what the runs below ask for: a leaf, or as much of it as can be asked for
def chunkBits (y : Layout) : Nat := min y.leafBits 30

def bottom (y : Layout) : Nat := y.leafBits + y.depth - y.chunkBits

theorem unit_pos (y : Layout) : 0 < y.unit := by
  have := y.unit_odd
  omega

def chunks (y : Layout) : Blocks where
  base := y.base
  leafSize := y.unit * 2 ^ y.chunkBits
  depth := y.bottom
  leaf_pos := Nat.mul_pos y.unit_pos (Nat.two_pow_pos _)

def taken (y : Layout) : Nat := (y.first - y.base) / y.chunks.leafSize

structure Usable (y : Layout) : Prop where
  base_pos : 0 < y.base
  depth_le : y.depth ≤ 30
  bits_le : y.leafBits + y.depth ≤ 61

section numbers
variable (y : Layout)

theorem size_eq : y.size = y.unit * 2 ^ (y.leafBits + y.depth) := by
  rw [Blocks.size, y.leaf_eq, Nat.mul_assoc, ← pow_add]

theorem pow_le_size {n : Nat} (hn : n ≤ y.leafBits + y.depth) : 2 ^ n ≤ y.size := by
  rw [size_eq]
  exact (Nat.pow_le_pow_right (by omega) hn).trans (Nat.le_mul_of_pos_left _ y.unit_pos)

theorem bits_lt : y.leafBits + y.depth < 64 :=
  (Nat.pow_lt_pow_iff_right (by omega)).mp ((y.pow_le_size le_rfl).trans_lt y.size_lt)

theorem chunkBits_le : y.chunkBits ≤ 30 ∧ y.chunkBits ≤ y.leafBits := by
  rw [chunkBits]
  omega

theorem bottom_add : y.chunkBits + y.bottom = y.leafBits + y.depth := by
  have := y.chunkBits_le
  rw [bottom]
  omega

theorem chunks_base : y.chunks.base = y.base := rfl

theorem chunks_leafSize : y.chunks.leafSize = y.unit * 2 ^ y.chunkBits := rfl

theorem chunks_size : y.chunks.size = y.size := by
  rw [size_eq, Blocks.size, chunks_leafSize, Nat.mul_assoc, ← y.bottom_add, pow_add]
  rfl

theorem sixteen_le_blockSize (l : Nat) : 16 ≤ y.chunks.blockSize l := by
  refine le_trans ?_ (y.chunks.leafSize_le_blockSize l)
  rw [chunks_leafSize]
  by_cases hb : y.leafBits ≤ 30
  · rw [show y.chunkBits = y.leafBits by rw [chunkBits]; omega, ← y.leaf_eq]
    exact y.leaf_ge
  · rw [show y.chunkBits = 30 by rw [chunkBits]; omega]
    have := y.unit_pos
    omega

theorem base_add_size_le : y.base + y.size ≤ 18446744073709551616 := y.base_fits

theorem address_pos (u : y.Usable) (l i : Nat) : 0 < y.chunks.address l i := by
  have := u.base_pos
  rw [Blocks.address, chunks_base]
  omega

theorem first_leaf (u : y.Usable) :
    (∃ j, y.first = y.base + j * y.leafSize) ∧ y.first + 2 ^ y.depth * 2 ≤ y.base + y.size := by
  have hpow : 0 < 2 ^ y.depth := Nat.two_pow_pos _
  have hroom : 2 ^ y.depth * 2 ≤ y.size := by
    rw [Blocks.size, Nat.mul_comm]
    exact Nat.mul_le_mul_right _ (by have := y.leaf_ge; omega)
  rcases y.placed with he | ⟨hle, hdvd, hin⟩
  · rw [Managed.first, he, if_pos (by decide)]
    exact ⟨⟨0, by omega⟩, Nat.add_le_add_left hroom _⟩
  · have hne : ¬ empty y.bitmaps = true := by
      have := u.base_pos
      simp only [empty, allocatorEmpty, beq_iff_eq]
      omega
    rw [Managed.first, if_neg hne]
    rw [← Blocks.size, y.allocatorBitmapsSize_eq u.depth_le] at hin
    obtain ⟨j, hj⟩ := hdvd
    refine ⟨⟨j, ?_⟩, hin⟩
    rw [Nat.mul_comm, ← hj]
    omega

theorem first_add_leaf_le (u : y.Usable) : y.first + y.leafSize ≤ y.base + y.size := by
  obtain ⟨⟨j, hj⟩, hin⟩ := y.first_leaf u
  have hpow : 0 < 2 ^ y.depth := Nat.two_pow_pos _
  have hsize : y.size = 2 ^ y.depth * y.leafSize := Nat.mul_comm _ _
  have hlt : j * y.leafSize < 2 ^ y.depth * y.leafSize := by omega
  have hjd : j < 2 ^ y.depth := Nat.lt_of_mul_lt_mul_right hlt
  have hend : (j + 1) * y.leafSize ≤ 2 ^ y.depth * y.leafSize := Nat.mul_le_mul_right _ hjd
  rw [hj, hsize, Nat.add_assoc, ← Nat.succ_mul]
  exact Nat.add_le_add_left hend _

theorem first_eq (u : y.Usable) : y.first = y.chunks.address y.bottom y.taken := by
  obtain ⟨⟨j, hj⟩, -⟩ := y.first_leaf u
  have hdvd : y.chunks.leafSize ∣ y.first - y.base := by
    rw [hj, Nat.add_sub_cancel_left, y.leaf_eq, chunks_leafSize]
    exact (Nat.mul_dvd_mul_left _ (Nat.pow_dvd_pow 2 y.chunkBits_le.2)).mul_left j
  rw [Blocks.address, show y.chunks.blockSize y.bottom = y.chunks.leafSize from
    y.chunks.blockSize_depth, taken, Nat.div_mul_cancel hdvd, chunks_base]
  omega

theorem taken_lt (u : y.Usable) : y.taken < 2 ^ y.bottom := by
  obtain ⟨⟨j, hj⟩, -⟩ := y.first_leaf u
  have hend := y.first_add_leaf_le u
  have hpos := y.leaf_pos
  have hlt : y.first - y.base < y.chunks.size := by
    rw [chunks_size]
    omega
  have hindex := y.chunks.index_lt le_rfl hlt
  rw [y.chunks.blockSize_depth] at hindex
  exact hindex

theorem bottom_le (u : y.Usable) : y.bottom ≤ 31 := by
  have h1 := u.depth_le
  have h2 := u.bits_le
  rw [bottom, chunkBits]
  omega

theorem bits_fit (u : y.Usable) :
    y.splitBitmap + 2 ^ y.bottom / 8 < 18446744073709551616 := by
  have hlim := y.base_add_size_le
  have hpow : 0 < 2 ^ y.depth := Nat.two_pow_pos _
  rw [Managed.splitBitmap, Blocks.bitmapSize]
  by_cases hb : y.leafBits ≤ 30
  · obtain ⟨-, hin⟩ := y.first_leaf u
    have hbot : y.bottom = y.depth := by
      rw [bottom, chunkBits]
      omega
    rw [hbot]
    omega
  · have hend := y.first_add_leaf_le u
    have h1 : 2 ^ y.depth ≤ 2 ^ 30 := Nat.pow_le_pow_right (by omega) u.depth_le
    have h2 : 2 ^ y.bottom ≤ 2 ^ 31 := Nat.pow_le_pow_right (by omega) (y.bottom_le u)
    have hleaf : 2 ^ 31 ≤ y.leafSize := by
      have hp : 2 ^ 31 ≤ 2 ^ y.leafBits := Nat.pow_le_pow_right (by omega) (by omega)
      rw [y.leaf_eq]
      exact hp.trans (Nat.le_mul_of_pos_left _ y.unit_pos)
    omega

end numbers

section shape
variable {y : Layout} {a : Allocator}

theorem spans (s : Shape y.toManaged a) (u : y.Usable) : y.chunks.Spans a :=
  ⟨s.memory, s.size.trans y.chunks_size.symm, y.bottom_le u, by
    have := y.base_add_size_le
    rw [chunks_size]
    omega⟩

theorem levelFromSize_chunk (hsize : a.size = y.size) :
    levelFromSize a (2 ^ y.chunkBits) = some (y.bottom : Int) := by
  have hadd := y.bottom_add
  have hchunk := y.chunkBits_le
  rw [levelFromSize, hsize, y.size_eq, Math.log2, countTrailingZeros_odd_mul y.unit_odd y.bits_lt,
    Math.log2_two_pow (by omega), ← hadd]
  refine congrArg some ?_
  omega

end shape

def Behind (y : Layout) (x : Nat) : Prop := y.first ≤ x

section bits
variable {y : Layout} {h : Heap} {l i : Nat}

theorem node_byte (u : y.Usable) (hl : l < y.bottom) (hi : i < 2 ^ l) :
    y.splitBitmap + node l i / 8 < 18446744073709551616 := by
  have hfit := y.bits_fit u
  have hpow : 2 ^ (l + 1) ≤ 2 ^ y.bottom := Nat.pow_le_pow_right (by omega) hl
  have hnode : node l i ≤ 2 ^ y.bottom := by
    rw [pow_succ] at hpow
    rw [node]
    omega
  have := Nat.div_le_div_right (c := 8) hnode
  omega

theorem setBit_split (s : Shape y.toManaged h.alloc) (u : y.Usable) (hl : l < y.bottom)
    (hi : i < 2 ^ l) :
    ∃ m, setBit h.mem h.alloc.splitBitmap (node l i : Int) = some m ∧
      SameOutside y.Behind h.mem m := by
  have hbyte := node_byte u hl hi
  rw [setBit, maskOf_ofNat, s.splitBitmap, byteOf_ofNat hbyte]
  refine ⟨_, rfl, sameOutside_storeByte ?_⟩
  rw [Behind, Managed.splitBitmap]
  omega

theorem flipAllocationBit_address (s : Shape y.toManaged h.alloc) (u : y.Usable) (hl : l ≤ y.bottom)
    (hi : i < 2 ^ l) :
    ∃ m, flipAllocationBit h (y.chunks.address l i) (l : Int) = some { h with mem := m } ∧
      SameOutside y.Behind h.mem m := by
  cases l with
  | zero => exact ⟨h.mem, rfl, .refl _ _⟩
  | succ l =>
    have hbyte := node_byte u hl (show i / 2 < 2 ^ l by rw [pow_succ] at hi; omega)
    rw [Managed.splitBitmap] at hbyte
    rw [flipAllocationBit, if_neg (by omega), (spans s u).allocationBitIndex hl hi, Option.bind_eq_bind,
      Option.bind_some, flipBit, maskOf_ofNat, s.allocationBitmap, byteOf_ofNat (by omega)]
    refine ⟨_, rfl, sameOutside_storeByte ?_⟩
    rw [Behind]
    omega

end bits

section nodes
variable {m m' : Memory} {p q v : Nat}

theorem nodeNext_setNext_same (hv : v < 18446744073709551616) : nodeNext (setNext m p v) p = v := by
  rw [nodeNext, setNext, loadWord_storeWord, BitVec.toNat_ofNat, Nat.mod_eq_of_lt hv]

end nodes

-- a block of level l cut n times, the left half further each time
structure Cut (y : Layout) (h h' : Heap) (l i n : Nat) : Prop where
  shape : Shape y.toManaged h'.alloc
  freeSize : h'.alloc.freeSize = h.alloc.freeSize
  halves : ∀ j, j < n →
    h'.alloc.freeBlocks (l + 1 + j) = y.chunks.address (l + 1 + j) (i * 2 ^ (1 + j) + 1)
  others : ∀ m, m ≤ l ∨ l + n < m → h'.alloc.freeBlocks m = h.alloc.freeBlocks m
  ends : ∀ j, j < n → y.chunks.address (l + 1 + j) (i * 2 ^ (1 + j) + 1) < y.first →
    nodeNext h'.mem (y.chunks.address (l + 1 + j) (i * 2 ^ (1 + j) + 1)) = allocatorEmpty
  mem : SameOutside (fun x => y.Behind x ∨
    y.chunks.address l i ≤ x ∧ x < y.chunks.address l i + y.chunks.blockSize l)
    h.mem h'.mem

section cut
variable {y : Layout} {h h' : Heap} {l i n : Nat}

theorem address_bottom (hl : l ≤ y.bottom) :
    y.chunks.address l i = y.chunks.address y.bottom (i * 2 ^ (y.bottom - l)) := by
  have h := y.chunks.address_down i (show l + (y.bottom - l) ≤ y.bottom by omega)
  rwa [show l + (y.bottom - l) = y.bottom by omega] at h

theorem header_before (u : y.Usable) (hl : l ≤ y.bottom) (hlt : y.chunks.address l i < y.first) :
    y.chunks.address l i + 16 ≤ y.first := by
  have hpos := y.sixteen_le_blockSize y.bottom
  rw [address_bottom hl, y.first_eq u, Blocks.address, Blocks.address] at *
  generalize i * 2 ^ (y.bottom - l) = j at *
  have hj : j < y.taken := Nat.lt_of_mul_lt_mul_right (Nat.lt_of_add_lt_add_left hlt)
  have hend : (j + 1) * y.chunks.blockSize y.bottom ≤ y.taken * y.chunks.blockSize y.bottom :=
    Nat.mul_le_mul_right _ hj
  rw [Nat.succ_mul] at hend
  omega

theorem nodeNext_congr {m m' : Memory} {p : Nat} {W : Nat → Prop} (hm : SameOutside W m m')
    (hw : ∀ x, p ≤ x → x < p + 16 → ¬ W x) : nodeNext m' p = nodeNext m p :=
  (node_congr fun x hx hx' => hm x (hw x hx hx')).1

theorem split_address (s : Shape y.toManaged h.alloc) (u : y.Usable) (hl : l < y.bottom)
    (hi : i < 2 ^ l) (hempty : h.alloc.freeBlocks (l + 1) = allocatorEmpty) :
    ∃ h', split h (y.chunks.address l i) l = some h' ∧ Cut y h h' l i 1 := by
  have hlim := y.base_add_size_le
  rw [← chunks_size, ← chunks_base] at hlim
  have hbot := y.bottom_le u
  have hend := y.chunks.address_end_le hl.le hi
  have hright := y.chunks.address_right i (show l < y.bottom by omega)
  have hhalf := y.chunks.blockSize_succ hl
  have hnode := y.sixteen_le_blockSize (l + 1)
  obtain ⟨m₁, hset, hm₁⟩ := setBit_split s u hl hi
  obtain ⟨m₂, hflip, hm₂⟩ :=
    flipAllocationBit_address (h := { h with mem := m₁ }) s u hl.le hi
  have hnew : addSize (y.chunks.address l i) (y.chunks.blockSize l / 2) =
      y.chunks.address (l + 1) (2 * i + 1) := by
    rw [hright, addSize]
    exact Nat.mod_eq_of_lt (by simp only [wordSize]; omega)
  rw [split, (spans s u).sizeFromLevel hl.le, Option.bind_eq_bind, Option.bind_some, hnew,
    (spans s u).splitBitIndex_block hl.le (by omega) hi, Option.bind_eq_bind, Option.bind_some,
    hset, Option.bind_eq_bind, Option.bind_some, hflip, Option.bind_eq_bind, Option.bind_some,
    hempty]
  set new := y.chunks.address (l + 1) (2 * i + 1) with hn
  refine ⟨⟨setFreeList h.alloc (l + 1) new (addSize (h.alloc.freeCount (l + 1)) 1),
    setNext (setPrev m₂ new allocatorEmpty) new allocatorEmpty⟩, rfl,
    s.setFreeList _ _ _, rfl, fun j hj => ?_, fun m hm => ?_, fun j hj _ => ?_, ?_⟩
  · obtain rfl : j = 0 := by omega
    rw [show i * 2 ^ (1 + 0) = 2 * i by ring]
    exact Function.update_self _ _ _
  · exact Function.update_of_ne (by omega) _ _
  · obtain rfl : j = 0 := by omega
    rw [show i * 2 ^ (1 + 0) = 2 * i by ring]
    exact nodeNext_setNext_same (by decide)
  · have hin (x : Nat) (h1 : new ≤ x) (h2 : x < new + 16) :
        y.Behind x ∨ y.chunks.address l i ≤ x ∧ x < y.chunks.address l i + y.chunks.blockSize l :=
      .inr ⟨by omega, by omega⟩
    have hbits : SameOutside (fun x => y.Behind x ∨
        y.chunks.address l i ≤ x ∧ x < y.chunks.address l i + y.chunks.blockSize l) h.mem m₂ :=
      (hm₁.trans hm₂).mono fun x hx => .inl hx
    exact (hbits.trans (sameOutside_setPrev hin)).trans (sameOutside_setNext hin)

theorem Cut.refl (s : Shape y.toManaged h.alloc) : Cut y h h l i 0 where
  shape := s
  freeSize := rfl
  halves j hj := absurd hj (by omega)
  others _ _ := rfl
  ends j hj := absurd hj (by omega)
  mem := .refl _ _

theorem Cut.step {h₁ : Heap} (u : y.Usable) (hl : l + (n + 1) ≤ y.bottom)
    (c₁ : Cut y h h₁ l i 1) (c : Cut y h₁ h' (l + 1) (2 * i) n) : Cut y h h' l i (n + 1) := by
  have hleft := y.chunks.address_left i (show l < y.bottom by omega)
  have hright := y.chunks.address_right i (show l < y.bottom by omega)
  have hhalf := y.chunks.blockSize_succ (show l < y.bottom by omega)
  have hfirst : i * 2 ^ (1 + 0) = 2 * i := by ring
  have hlater (j : Nat) : i * 2 ^ (1 + (j + 1)) = 2 * i * 2 ^ (1 + j) := by ring
  refine ⟨c.shape, c.freeSize.trans c₁.freeSize, fun j hj => ?_, fun m hm => ?_,
    fun j hj hlt => ?_, ?_⟩
  · cases j with
    | zero => rw [c.others _ (.inl (by omega))]; exact c₁.halves 0 (by omega)
    | succ j =>
      rw [hlater, show l + 1 + (j + 1) = l + 1 + 1 + j by omega]
      exact c.halves j (by omega)
  · rw [c.others m (by omega), c₁.others m (by omega)]
  · cases j with
    | zero =>
      have hend := c₁.ends 0 (by omega) hlt
      rw [hfirst, Nat.add_zero] at hlt hend ⊢
      have hbefore := header_before u (show l + 1 ≤ y.bottom by omega) hlt
      rw [nodeNext_congr c.mem fun x hx hx' => ?_, hend]
      rw [Behind, hleft]
      omega
    | succ j =>
      rw [hlater, show l + 1 + (j + 1) = l + 1 + 1 + j by omega] at hlt ⊢
      exact c.ends j (by omega) hlt
  · refine c₁.mem.trans (c.mem.mono fun x hx => ?_)
    rw [hleft] at hx
    exact hx.imp_right fun hin => ⟨hin.1, by omega⟩

theorem splitDown_address (u : y.Usable) (n : Nat) {h : Heap} {l i : Nat}
    (s : Shape y.toManaged h.alloc) (hl : l + n ≤ y.bottom) (hi : i < 2 ^ l)
    (hempty : ∀ m, l < m → m ≤ l + n → h.alloc.freeBlocks m = allocatorEmpty) :
    ∃ h', splitDown h (y.chunks.address l i) l n = some h' ∧ Cut y h h' l i n := by
  induction n generalizing h l i with
  | zero => exact ⟨h, rfl, .refl s⟩
  | succ n ih =>
    have hbot := y.bottom_add
    obtain ⟨h₁, hs, c₁⟩ := split_address s u (by omega) hi (hempty _ (by omega) (by omega))
    obtain ⟨h', hd, c⟩ := ih (l := l + 1) (i := 2 * i) c₁.shape (by omega)
      (by rw [pow_succ]; omega)
      fun m hm hm' => (c₁.others m (by omega)).trans (hempty m (by omega) (by omega))
    rw [y.chunks.address_left i (show l < y.bottom by omega)] at hd
    refine ⟨h', ?_, c₁.step u hl c⟩
    rw [splitDown, hs]
    exact hd

theorem obtainBlock_address (s : Shape y.toManaged h.alloc) (u : y.Usable) (hl : l ≤ y.bottom)
    (hi : i < 2 ^ l) (hhead : h.alloc.freeBlocks l = y.chunks.address l i)
    (hempty : ∀ m, l < m → m ≤ y.bottom → h.alloc.freeBlocks m = allocatorEmpty) :
    ∃ h₁, obtainBlock h y.bottom = some (y.chunks.address l i, h₁) ∧ Shape y.toManaged h₁.alloc ∧
      (l < y.bottom ∨ nodeNext h.mem (y.chunks.address l i) = allocatorEmpty →
        Cut y (unlisted h l) h₁ l i (y.bottom - l)) := by
  have hne : h.alloc.freeBlocks l ≠ allocatorEmpty := by
    rw [hhead]
    exact (y.address_pos u l i).ne'
  rw [obtainBlock]
  rcases Nat.lt_or_eq_of_le hl with hlt | rfl
  · obtain ⟨h₁, hd, c⟩ := splitDown_address (h := unlisted h l) u (y.bottom - l)
      (s.setFreeList l _ _) (by omega) hi
      fun m hm hm' => (Function.update_of_ne (by omega) _ _).trans (hempty m hm (by omega))
    rw [unlisted, hhead] at hd
    rw [hempty _ hlt le_rfl, if_neg (by decide), createBlock,
      findSource_eq_some_iff.mpr ⟨hlt, hne, fun m hm hm' => hempty m hm (by omega)⟩]
    dsimp only
    rw [hhead, hd]
    exact ⟨h₁, rfl, c.shape, fun _ => c⟩
  · rw [if_pos (by simpa [notEmpty] using hne), popBlock, hhead, Nat.sub_self]
    refine ⟨_, rfl, s.setFreeList _ _ _, fun hc => ?_⟩
    have hnext := hc.resolve_left (by omega)
    rw [unlisted, hhead, hnext]
    exact .refl (s.setFreeList _ _ _)

structure Served (y : Layout) (h h' : Heap) (l i : Nat) : Prop where
  shape : Shape y.toManaged h'.alloc
  freeSize : h'.alloc.freeSize = subSize h.alloc.freeSize (2 ^ y.chunkBits)
  cut : ∃ h₁, Cut y (unlisted h l) h₁ l i (y.bottom - l) ∧
    h'.alloc.freeBlocks = h₁.alloc.freeBlocks ∧ SameOutside y.Behind h₁.mem h'.mem

def charged (h : Heap) (v : Nat) : Heap := { h with alloc.freeSize := v }

theorem charged_freeSize (h : Heap) (v : Nat) : (charged h v).alloc.freeSize = v := rfl

theorem charged_freeBlocks (h : Heap) (v : Nat) :
    (charged h v).alloc.freeBlocks = h.alloc.freeBlocks := rfl

theorem charged_mem (h : Heap) (v : Nat) : (charged h v).mem = h.mem := rfl

theorem shape_charged (s : Shape y.toManaged h.alloc) (v : Nat) :
    Shape y.toManaged (charged h v).alloc :=
  s.congr (fixed_freeSize h.alloc v)

theorem chargeBlock_eq {block : Nat} (hne : notEmpty block = true) (n : Nat) :
    chargeBlock h block n = charged h (subSize h.alloc.freeSize n) :=
  if_pos hne

theorem Cut.served {h₁ : Heap} {m : Memory} {block : Nat}
    (c : Cut y (unlisted h l) h₁ l i (y.bottom - l)) (hm : SameOutside y.Behind h₁.mem m)
    (hne : notEmpty block = true) :
    Served y h (chargeBlock { h₁ with mem := m } block (2 ^ y.chunkBits)) l i := by
  have hsame : h₁.alloc.freeSize = h.alloc.freeSize := c.freeSize
  rw [chargeBlock_eq hne, hsame]
  refine ⟨shape_charged (h := { h₁ with mem := m }) c.shape _, charged_freeSize _ _, h₁, c,
    charged_freeBlocks _ _, ?_⟩
  rw [charged_mem]
  exact hm

theorem allocate_address (s : Shape y.toManaged h.alloc) (u : y.Usable)
    (hfree : 2 ^ y.chunkBits ≤ h.alloc.freeSize) (hl : l ≤ y.bottom) (hi : i < 2 ^ l)
    (hhead : h.alloc.freeBlocks l = y.chunks.address l i)
    (hempty : ∀ m, l < m → m ≤ y.bottom → h.alloc.freeBlocks m = allocatorEmpty) :
    ∃ h', allocatorAllocate h (2 ^ y.chunkBits) = some (y.chunks.address l i, h') ∧
      (l < y.bottom ∨ nodeNext h.mem (y.chunks.address l i) = allocatorEmpty →
        Served y h h' l i) := by
  obtain ⟨hk, -⟩ := y.chunkBits_le
  have hadd := y.bottom_add
  have hbot := y.bottom_le u
  have hround := Math.ceilToPowerOfTwo_two_pow hk
  have hi' : i * 2 ^ (y.bottom - l) < 2 ^ y.bottom := by
    calc i * 2 ^ (y.bottom - l) < 2 ^ l * 2 ^ (y.bottom - l) :=
          Nat.mul_lt_mul_of_pos_right hi (Nat.two_pow_pos _)
      _ = 2 ^ y.bottom := by rw [← pow_add]; congr 1; omega
  obtain ⟨h₁, ho, s₁, hcut⟩ := obtainBlock_address s u hl hi hhead hempty
  obtain ⟨m, hflip, hm⟩ := flipAllocationBit_address s₁ u le_rfl hi'
  rw [← address_bottom hl] at hflip
  have hne : notEmpty (y.chunks.address l i) = true := by
    simpa [notEmpty, allocatorEmpty] using (y.address_pos u l i).ne'
  rw [allocatorAllocate, hround, Option.bind_eq_bind, Option.bind_some,
    if_neg (Nat.not_lt.mpr hfree), levelFromSize_chunk s.size, Option.bind_eq_bind, Option.bind_some,
    levelIndex_of_lt (by omega), Option.bind_eq_bind, Option.bind_some, ho, Option.bind_eq_bind,
    Option.bind_some]
  dsimp only
  rw [hflip, Option.bind_some]
  exact ⟨_, rfl, fun hc => (hcut hc).served hm hne⟩

end cut

end Layout

end Lasagne.Buddy
