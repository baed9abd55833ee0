import Mathlib
import Lasagne.Buddy.Safety

namespace Lasagne.Buddy
open ByteMemory CInt Bitmap PartialRun

-- struct allocator in memory, as C lays it out
section layout
variable (m : Memory) (alloc : Nat)

def sizeofAllocator : Nat := 696

def field (offset : Nat) : Nat := (loadWord m (alloc + offset)).toNat

def fetch : Allocator where
  memory := field m alloc 0
  size := field m alloc 8
  freeSize := field m alloc 16
  leafSize := field m alloc 24
  maxLevel := ((loadWord m (alloc + 32)).extractLsb' 0 32).toNat
  bitmapEntries := ((loadWord m (alloc + 32)).extractLsb' 32 32).toInt
  freeBlocks := fun level =>
    if level < allocatorMaxLevels then field m alloc (40 + 8 * level) else allocatorEmpty
  freeCount := fun level => if level < allocatorMaxLevels then field m alloc (360 + 8 * level) else 0
  splitBitmap := field m alloc 680
  allocationBitmap := field m alloc 688

def Allocator.words (a : Allocator) : List (BitVec 64) :=
  [BitVec.ofNat 64 a.memory, BitVec.ofNat 64 a.size, BitVec.ofNat 64 a.freeSize,
    BitVec.ofNat 64 a.leafSize, BitVec.ofInt 32 a.bitmapEntries ++ BitVec.ofNat 32 a.maxLevel] ++
  (List.range allocatorMaxLevels).map (fun level => BitVec.ofNat 64 (a.freeBlocks level)) ++
  (List.range allocatorMaxLevels).map (fun level => BitVec.ofNat 64 (a.freeCount level)) ++
  [BitVec.ofNat 64 a.splitBitmap, BitVec.ofNat 64 a.allocationBitmap]

def storeWords (p : Nat) : List (BitVec 64) → Memory
  | [] => m
  | v :: vs => storeWord (storeWords (p + 8) vs) p v

end layout

def placed (alloc : Nat) (h : Heap) : Memory := storeWords h.mem alloc h.alloc.words

-- every field is a value of its C type
structure Allocator.Fits (a : Allocator) : Prop where
  memory : a.memory < 2 ^ 64
  size : a.size < 2 ^ 64
  freeSize : a.freeSize < 2 ^ 64
  leafSize : a.leafSize < 2 ^ 64
  maxLevel : a.maxLevel < 2 ^ 31
  bitmapEntries : -2 ^ 31 ≤ a.bitmapEntries ∧ a.bitmapEntries < 2 ^ 31
  freeBlocks : ∀ l < allocatorMaxLevels, a.freeBlocks l < 2 ^ 64
  freeCount : ∀ l < allocatorMaxLevels, a.freeCount l < 2 ^ 64
  above : ∀ l, allocatorMaxLevels ≤ l → a.freeBlocks l = allocatorEmpty ∧ a.freeCount l = 0
  splitBitmap : a.splitBitmap < 2 ^ 64
  allocationBitmap : a.allocationBitmap < 2 ^ 64

section placed
variable {alloc : Nat} {h : Heap}

theorem storeWords_below (m : Memory) (vs : List (BitVec 64)) {p x : Nat} (hx : x < p) :
    storeWords m p vs x = m x := by
  induction vs generalizing p with
  | nil => rfl
  | cons v vs ih =>
    rw [storeWords, storeWord_outside _ _ (.inl hx)]
    exact ih (by omega)

theorem holds_storeWords (m : Memory) (p : Nat) (vs : List (BitVec 64)) :
    Holds (storeWords m p vs) p vs := by
  induction vs generalizing p with
  | nil => trivial
  | cons v vs ih =>
    exact ⟨loadWord_storeWord _ _ _, (ih (p + 8)).congr fun x hx _ => storeWord_outside _ _ (.inr hx)⟩

theorem toNat_word {v : Nat} (hv : v < 2 ^ 64) : (BitVec.ofNat 64 v).toNat = v := by
  rw [BitVec.toNat_ofNat, Nat.mod_eq_of_lt hv]

theorem fetch_placed (hf : h.alloc.Fits) : fetch (placed alloc h) alloc = h.alloc := by
  have hw : Holds (placed alloc h) alloc h.alloc.words := holds_storeWords _ _ _
  generalize placed alloc h = m at *
  rw [Allocator.words, holds_append, holds_append, holds_append] at hw
  obtain ⟨⟨⟨⟨hmemory, hsize, hfree, hleaf, hints, -⟩, hblocks⟩, hcounts⟩, hsplit, hallocation, -⟩ := hw
  simp only [List.length_append, List.length_map, List.length_range, List.length_cons,
    List.length_nil, allocatorMaxLevels, Nat.add_assoc, Nat.reduceAdd, Nat.reduceMul] at *
  have hlow : (loadWord m (alloc + 32)).extractLsb' 0 32 = BitVec.ofNat 32 h.alloc.maxLevel := by
    rw [hints]
    exact BitVec.extractLsb'_append_eq_right
  have hhigh : (loadWord m (alloc + 32)).extractLsb' 32 32 = BitVec.ofInt 32 h.alloc.bitmapEntries := by
    rw [hints]
    exact BitVec.extractLsb'_append_eq_left
  have hfreeBlocks : (fetch m alloc).freeBlocks = h.alloc.freeBlocks := by
    funext l
    rw [fetch]
    dsimp only
    split
    next hl => rw [field, ← Nat.add_assoc, holds_map_range hblocks hl, toNat_word (hf.freeBlocks l hl)]
    next hl => exact (hf.above l (Nat.le_of_not_lt hl)).1.symm
  have hfreeCount : (fetch m alloc).freeCount = h.alloc.freeCount := by
    funext l
    rw [fetch]
    dsimp only
    split
    next hl => rw [field, ← Nat.add_assoc, holds_map_range hcounts hl, toNat_word (hf.freeCount l hl)]
    next hl => exact (hf.above l (Nat.le_of_not_lt hl)).2.symm
  have hword (offset : Nat) {v : Nat} (hv : v < 2 ^ 64) (hw : loadWord m (alloc + offset) = BitVec.ofNat 64 v) :
      field m alloc offset = v := by
    rw [field, hw, toNat_word hv]
  have hlevel : (BitVec.ofNat 32 h.alloc.maxLevel).toNat = h.alloc.maxLevel := by
    rw [BitVec.toNat_ofNat, Nat.mod_eq_of_lt (hf.maxLevel.trans (by norm_num))]
  have hentries : (BitVec.ofInt 32 h.alloc.bitmapEntries).toInt = h.alloc.bitmapEntries := by
    obtain ⟨hle, hlt⟩ := hf.bitmapEntries
    rw [BitVec.toInt_ofInt, Int.bmod_eq_of_le (by omega) (by omega)]
  calc fetch m alloc = ⟨field m alloc 0, field m alloc 8, field m alloc 16, field m alloc 24,
        ((loadWord m (alloc + 32)).extractLsb' 0 32).toNat,
        ((loadWord m (alloc + 32)).extractLsb' 32 32).toInt, (fetch m alloc).freeBlocks,
        (fetch m alloc).freeCount, field m alloc 680, field m alloc 688⟩ := rfl
    _ = h.alloc := by
      rw [hfreeBlocks, hfreeCount, hword 0 hf.memory hmemory, hword 8 hf.size hsize,
        hword 16 hf.freeSize hfree, hword 24 hf.leafSize hleaf, hlow, hhigh, hlevel, hentries,
        hword 680 hf.splitBitmap hsplit, hword 688 hf.allocationBitmap hallocation]

end placed

-- the bytes of the structure, of both bitmaps and of the managed memory
def Part (alloc : Nat) (a : Allocator) (x : Nat) : Prop :=
  (alloc ≤ x ∧ x < alloc + sizeofAllocator) ∨
  (a.allocationBitmap ≤ x ∧ x < a.allocationBitmap + toSize (a.bitmapEntries.tdiv 8 + 1)) ∨
  (a.splitBitmap ≤ x ∧ x < a.splitBitmap + toSize (a.bitmapEntries.tdiv 8 + 1)) ∨
  (a.memory ≤ x ∧ x < a.memory + a.size)

structure Unchanged (alloc : Nat) (m : Memory) (h' : Heap) : Prop where
  fields : h'.alloc = fetch m alloc
  bytes : ∀ x, Part alloc (fetch m alloc) x → h'.mem x = m x

-- the byte flip_allocation_bit reaches from the address ALLOCATOR_EMPTY
def strayByte (a : Allocator) (level : Int) : Option Nat :=
  (allocationBitIndex a allocatorEmpty level).map (byteOf a.allocationBitmap)

def RefusesCleanly (alloc : Nat) (a : Allocator) (n : Nat) : Prop :=
  ∀ size level, Math.ceilToPowerOfTwo n = some size → levelFromSize a size = some level →
    size > a.freeSize ∨ level = 0 ∨ ∀ x, strayByte a level = some x → ¬ Part alloc a x

section refusal
variable {r : Region} {h h' : Heap}

theorem obtainBlock_refused {level : Nat} (ho : obtainBlock h level = some (allocatorEmpty, h')) :
    h' = h ∧ ∀ l ≤ level, h.alloc.freeBlocks l = allocatorEmpty := by
  obtain ⟨hne, hp⟩ | ⟨hnone, -, rfl⟩ | ⟨source, -, hne, -, he, -⟩ := obtainBlock_cases ho
  · exact absurd (Prod.mk.inj hp).1 hne
  · exact ⟨rfl, hnone⟩
  · exact absurd he.symm hne

theorem chargeBlock_empty (h : Heap) (size : Nat) : chargeBlock h allocatorEmpty size = h :=
  if_neg (by decide)

theorem maskOf_ne_zero {bit : Int} {mask : BitVec 8} (hm : maskOf bit = some mask) :
    mask ≠ 0#8 := by
  obtain ⟨one, hone, hm⟩ := Option.bind_eq_some_iff.mp hm
  obtain rfl := Option.some.inj hm
  have hlt := Int.tmod_lt_of_pos bit (show (0 : Int) < 8 by decide)
  rw [shiftOne] at hone
  split at hone
  next h0 =>
    obtain rfl := Option.some.inj hone
    obtain ⟨j, hj⟩ := Int.eq_ofNat_of_zero_le h0.1
    rw [hj, Int.toNat_natCast]
    have hj8 : j < 8 := by omega
    interval_cases j <;> decide
  next =>
    rw [if_neg (by omega)] at hone
    simp at hone

theorem flipBit_changes {m m' : Memory} {buffer : Nat} {bit : Int}
    (hf : flipBit m buffer bit = some m') (x : Nat) : m' x = m x ↔ x ≠ byteOf buffer bit := by
  obtain ⟨mask, hmask, hf⟩ := Option.bind_eq_some_iff.mp hf
  obtain rfl := Option.some.inj hf
  constructor
  · rintro hx rfl
    rw [storeByte_same] at hx
    refine maskOf_ne_zero hmask ?_
    calc mask = m (byteOf buffer bit) ^^^ (m (byteOf buffer bit) ^^^ mask) := by
          rw [← BitVec.xor_assoc, BitVec.xor_self, BitVec.zero_xor]
      _ = 0#8 := by rw [hx, BitVec.xor_self]
  · exact fun hx => storeByte_other m _ hx

-- the flip is all that a refused call writes
theorem flip_unchanged_iff (m : Memory) (alloc : Nat) {level : Int}
    (hf : flipAllocationBit ⟨fetch m alloc, m⟩ allocatorEmpty level = some h') :
    Unchanged alloc m h' ↔ level = 0 ∨
      ∀ x, strayByte (fetch m alloc) level = some x → ¬ Part alloc (fetch m alloc) x := by
  rw [flipAllocationBit] at hf
  by_cases h0 : level = 0
  · rw [if_pos h0] at hf
    obtain rfl := Option.some.inj hf
    exact iff_of_true ⟨rfl, fun _ _ => rfl⟩ (.inl h0)
  · rw [if_neg h0] at hf
    obtain ⟨bit, hbit, hf⟩ := Option.bind_eq_some_iff.mp hf
    obtain ⟨m', hm', hf⟩ := Option.bind_eq_some_iff.mp hf
    obtain rfl := Option.some.inj hf
    have hchange := flipBit_changes hm'
    have hstray : strayByte (fetch m alloc) level =
        some (byteOf (fetch m alloc).allocationBitmap bit) := by
      rw [strayByte, hbit]
      rfl
    constructor
    · intro hu
      refine .inr fun x hx hin => ?_
      obtain rfl := Option.some.inj (hstray.symm.trans hx)
      exact (hchange _).mp (hu.bytes _ hin) rfl
    · intro hc
      refine ⟨rfl, fun x hx => (hchange x).mpr ?_⟩
      rintro rfl
      exact (hc.resolve_left h0) _ hstray hx

theorem refusesCleanly_iff {alloc n size : Nat} {a : Allocator} {level : Int}
    (hsize : Math.ceilToPowerOfTwo n = some size) (hlevel : levelFromSize a size = some level)
    (hle : size ≤ a.freeSize) : RefusesCleanly alloc a n ↔
      level = 0 ∨ ∀ x, strayByte a level = some x → ¬ Part alloc a x := by
  constructor
  · intro hc
    exact (hc size level hsize hlevel).resolve_left (Nat.not_lt.mpr hle)
  · intro hc size' level' hs hl
    obtain rfl := Option.some.inj (hsize.symm.trans hs)
    obtain rfl := Option.some.inj (hlevel.symm.trans hl)
    exact .inr hc

theorem refused_unchanged_iff (alloc : Nat) (m : Memory) (n : Nat) (h' : Heap)
    (ha : allocatorAllocate ⟨fetch m alloc, m⟩ n = some (allocatorEmpty, h')) :
    Unchanged alloc m h' ↔ RefusesCleanly alloc (fetch m alloc) n := by
  obtain ⟨size, hsize, hcase⟩ := allocate_cases ha
  obtain ⟨hgt, -, rfl⟩ | ⟨hle, level, index, h₁, h₂, hlevel, -, ho, hf, hcharge⟩ := hcase
  · refine iff_of_true ⟨rfl, fun _ _ => rfl⟩ fun size' level hs _ => .inl ?_
    rw [hsize] at hs
    exact Option.some.inj hs ▸ hgt
  obtain ⟨rfl, -⟩ := obtainBlock_refused ho
  rw [chargeBlock_empty] at hcharge
  subst hcharge
  rw [flip_unchanged_iff m alloc hf, refusesCleanly_iff hsize hlevel hle]

end refusal

def fragment (base : Nat) : List Call :=
  [.allocate 32, .allocate 32, .allocate 32, .allocate 32, .deallocate base, .deallocate (base + 64)]

structure Reached (r : Region) (alloc : Nat) (cs : List Call) (h : Heap) : Prop where
  run : ((allocatorInit zeroMemory r.base r.size r.leafSize r.bitmaps).bind fun h₀ =>
    run call h₀ cs) = some h
  apart : ∀ x, alloc ≤ x → x < alloc + sizeofAllocator → h.mem x = 0#8

def inMemory (alloc : Nat) (h : Heap) : Heap := ⟨fetch (placed alloc h) alloc, placed alloc h⟩

theorem Represents.fits {r : Region} {h : Heap} {k : SplitTree.Labels} {lists : Nat → List Nat}
    (c : Represents r h k lists) : h.alloc.Fits := by
  have s := c.core.shape
  have hL := c.core.linked
  have hdepth := r.depth_le
  have hpow := pow_depth_le hdepth
  have hpos : 0 < 2 ^ r.depth := Nat.two_pow_pos _
  have hend := r.base_add_size_le
  have hsize := r.size_lt
  have hleaf := r.leafSize_le_blockSize 0
  have hbits := r.bitmap_end_le
  have hfree := freeTotal_lt hL
  have hbits₀ : 0 < r.bitmapSize := Nat.succ_pos _
  rw [r.blockSize_zero] at hleaf
  have hleaf₀ := r.leaf_pos
  have hnil (l : Nat) (hl : r.depth < l) : lists l = [] :=
    List.eq_nil_iff_forall_not_mem.mpr fun i hi => absurd (hL.bound l i hi).1 (by omega)
  refine ⟨?_, ?_, ?_, ?_, ?_, ?_, fun l _ => ?_, fun l _ => ?_, fun l hl => ?_, ?_, ?_⟩
  · rw [s.memory]; omega
  · rw [s.size]; omega
  · rw [c.freeSize]; omega
  · rw [s.leafSize]; omega
  · rw [s.maxLevel]; omega
  · rw [s.bitmapEntries]; omega
  · by_cases hne : h.alloc.freeBlocks l = 0
    · rw [hne]; omega
    · obtain ⟨i, hl, hi, hhead⟩ := hL.exists_head hne
      rw [hhead]
      exact r.address_lt hl hi
  · rw [hL.count]
    exact (hL.length_lt l).trans_lt (by norm_num)
  · have hempty := hnil l (by rw [allocatorMaxLevels] at hl; omega)
    rw [hL.freeBlocks_eq, hL.count, hempty]
    exact ⟨rfl, rfl⟩
  · rw [s.splitBitmap, r.splitBitmap_eq]; omega
  · rw [s.allocationBitmap, r.first_eq]; omega

-- the structure in memory is the one the other results keep beside it
theorem Represents.inMemory_alloc {r : Region} {h : Heap} {k : SplitTree.Labels}
    {lists : Nat → List Nat} (c : Represents r h k lists) (alloc : Nat) :
    (inMemory alloc h).alloc = h.alloc :=
  fetch_placed c.fits

def Allocator.places (a : Allocator) : List Nat :=
  [a.freeSize, a.allocationBitmap, toSize (a.bitmapEntries.tdiv 8 + 1), a.splitBitmap, a.memory, a.size]

theorem reached_of_all {r : Region} {alloc : Nat} {cs : List Call} {h : Heap}
    (hrun : ((allocatorInit zeroMemory r.base r.size r.leafSize r.bitmaps).bind fun h₀ =>
      PartialRun.run call h₀ cs) = some h)
    (hall : ((List.range sizeofAllocator).all fun i => h.mem (alloc + i) == 0#8) = true) :
    Reached r alloc cs h := by
  refine ⟨hrun, fun x hx hlt => ?_⟩
  have hbyte := List.all_eq_true.mp hall (x - alloc) (List.mem_range.mpr (by omega))
  rw [show alloc + (x - alloc) = x by omega] at hbyte
  exact eq_of_beq hbyte

theorem refused_unchanged_smallRegion :
    ∃ h h₁ h₂, Reached smallRegion 8192 (fragment 4096) h ∧ h.alloc.freeSize = 64 ∧
      allocatorAllocate (inMemory 8192 h) 256 = some (allocatorEmpty, h₁) ∧
      Unchanged 8192 (placed 8192 h) h₁ ∧
      allocatorAllocate (inMemory 8192 h) 64 = some (allocatorEmpty, h₂) ∧
      Unchanged 8192 (placed 8192 h) h₂ := by
  have hobs : (((allocatorInit zeroMemory smallRegion.base smallRegion.size smallRegion.leafSize
      smallRegion.bitmaps).bind fun h₀ => run call h₀ (fragment 4096)).bind fun h =>
      (allocatorAllocate (inMemory 8192 h) 256).bind fun x =>
      (allocatorAllocate (inMemory 8192 h) 64).map fun y =>
        ((List.range sizeofAllocator).all fun i => h.mem (8192 + i) == 0#8,
          [h.alloc.freeSize, x.1, y.1], (inMemory 8192 h).alloc.places,
          levelFromSize (inMemory 8192 h).alloc 64, strayByte (inMemory 8192 h).alloc 1)) =
      some (true, [64, 0, 0], [64, 256, 1, 257, 4096, 128], some 1, some 252) := by
    decide +kernel
  obtain ⟨h, hrun, hobs⟩ := Option.bind_eq_some_iff.mp hobs
  obtain ⟨⟨p₁, h₁⟩, ha₁, hobs⟩ := Option.bind_eq_some_iff.mp hobs
  obtain ⟨⟨p₂, h₂⟩, ha₂, hobs⟩ := Option.map_eq_some_iff.mp hobs
  simp only [Prod.mk.injEq, List.cons.injEq, Allocator.places, and_true] at hobs
  obtain ⟨hapart, ⟨hfree, rfl, rfl⟩, ⟨hfetched, hallocation, hbytes, hsplit, hmemory, hsize⟩,
    hlevel, hstray⟩ := hobs
  have h256 : Math.ceilToPowerOfTwo 256 = some 256 := by decide +kernel
  have h64 : Math.ceilToPowerOfTwo 64 = some 64 := by decide +kernel
  refine ⟨h, h₁, h₂, reached_of_all hrun hapart, hfree, ha₁,
    (refused_unchanged_iff 8192 _ 256 h₁ ha₁).mpr ?_, ha₂,
    (refused_unchanged_iff 8192 _ 64 h₂ ha₂).mpr ?_⟩
  · intro size level hs _
    obtain rfl := Option.some.inj (h256.symm.trans hs)
    have hmore : 256 > (inMemory 8192 h).alloc.freeSize := by omega
    exact .inl hmore
  · intro size level hs hl
    obtain rfl := Option.some.inj (h64.symm.trans hs)
    obtain rfl := Option.some.inj (hlevel.symm.trans hl)
    refine .inr (.inr fun x hx => ?_)
    obtain rfl := Option.some.inj (hstray.symm.trans hx)
    have hout : ¬ Part 8192 (inMemory 8192 h).alloc 252 := by
      rw [Part, sizeofAllocator, hallocation, hsplit, hbytes, hmemory, hsize]
      omega
    exact hout

-- the refused 64 flips the bit of the second half
theorem refused_not_unchanged : ¬ ∀ (r : Region) (alloc : Nat) (cs : List Call) (h : Heap) (n : Nat)
    (h' : Heap), Reached r alloc cs h → 0 < n →
    allocatorAllocate (inMemory alloc h) n = some (allocatorEmpty, h') →
    Unchanged alloc (placed alloc h) h' := by
  intro hall
  have hobs : (((allocatorInit zeroMemory highRegion.base highRegion.size highRegion.leafSize
      highRegion.bitmaps).bind fun h₀ => run call h₀ (fragment highRegion.base)).bind fun h =>
      (allocatorAllocate (inMemory 8192 h) 64).map fun x =>
        ((List.range sizeofAllocator).all fun i => h.mem (8192 + i) == 0#8, x.1,
          (inMemory 8192 h).alloc.places.take 3, placed 8192 h 256, x.2.mem 256)) =
      some (true, 0, [64, 256, 1], 6#8, 2#8) := by
    decide +kernel
  obtain ⟨h, hrun, hobs⟩ := Option.bind_eq_some_iff.mp hobs
  obtain ⟨⟨p, h'⟩, ha, hobs⟩ := Option.map_eq_some_iff.mp hobs
  simp only [Prod.mk.injEq, Allocator.places, List.take_succ_cons, List.take_zero, List.cons.injEq,
    and_true] at hobs
  obtain ⟨hapart, rfl, ⟨-, hbitmap, hbytes⟩, hx, hx'⟩ := hobs
  have hpart : Part 8192 (inMemory 8192 h).alloc 256 := by
    rw [Part, hbitmap, hbytes]
    omega
  have hkeep := (hall highRegion 8192 (fragment highRegion.base) h 64 h'
    (reached_of_all hrun hapart) (by decide) ha).bytes 256 hpart
  rw [hx, hx'] at hkeep
  exact absurd hkeep (by decide)

end Lasagne.Buddy
