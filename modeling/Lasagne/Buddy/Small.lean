import Mathlib
import Lasagne.Buddy.Coalesce
import Lasagne.Buddy.Determined
import Lasagne.Buddy.Refusal

namespace Lasagne.Buddy
open ByteMemory CInt SplitTree Bitmap

inductive OnFreeList (h : Heap) : Nat → Prop where
  | head (level : Nat) : h.alloc.freeBlocks level ≠ allocatorEmpty →
      OnFreeList h (h.alloc.freeBlocks level)
  | next (block : Nat) : OnFreeList h block → nodeNext h.mem block ≠ allocatorEmpty →
      OnFreeList h (nodeNext h.mem block)

-- the indices set_bit and flip_bit are called with while block is cut down to the level
inductive TouchesBit (a : Allocator) (block level : Nat) : Int → Prop where
  | split (source l : Nat) (index : Int) : findSource a level = some source → source ≤ l →
      l < level → splitBitIndex a block l = some index → TouchesBit a block level index
  | allocation (source l : Nat) (index : Int) : findSource a level = some source → source ≤ l →
      l ≤ level → l ≠ 0 → allocationBitIndex a block l = some index →
      TouchesBit a block level index

-- h the state before a request of n bytes, h' the one after it has returned block
structure ServedSafely (r : Region) (h h' : Heap) (n block : Nat) : Prop where
  long : ∀ q, OnFreeList h' q → q < block ∨ block + r.leafSize ≤ q
  aligned : r.leafSize ∣ block - r.base
  bits : ∀ size (level : Nat) index, Math.ceilToPowerOfTwo n = some size →
    levelFromSize h.alloc size = some (level : Int) → TouchesBit h.alloc block level index →
    index < h.alloc.bitmapEntries
  undone : ∃ h'', allocatorDeallocate h' block = some h'' ∧
    h''.alloc.freeSize = h.alloc.freeSize ∧ SameBits r h''.mem h.mem ∧
    ∀ q, OnFreeList h'' q ↔ OnFreeList h q

section small
variable {r : Region} {h h' : Heap} {k : Labels} {lists : Nat → List Nat} {block level : Nat}

theorem split_freeBlocks (s : Shape r.toManaged h.alloc) (hl : level ≤ r.depth)
    (hs : split h block level = some h') :
    h'.alloc.freeBlocks (level + 1) = addSize block (r.blockSize level / 2) := by
  obtain ⟨size, hsize, halloc⟩ := split_alloc hs
  obtain rfl := Option.some.inj ((s.spans.sizeFromLevel hl).symm.trans hsize)
  rw [halloc]
  exact Function.update_self _ _ _

theorem split_keeps (hs : split h block level = some h') {n : Nat} (hn : n ≠ level + 1) :
    h'.alloc.freeBlocks n = h.alloc.freeBlocks n := by
  obtain ⟨size, -, halloc⟩ := split_alloc hs
  rw [halloc]
  exact Function.update_of_ne hn _ _

theorem splitDown_keeps (n : Nat) {h : Heap} (hs : splitDown h block level n = some h')
    {m : Nat} (hm : m ≤ level) : h'.alloc.freeBlocks m = h.alloc.freeBlocks m := by
  induction n generalizing h level with
  | zero => rw [Option.some.inj hs]
  | succ n ih =>
    obtain ⟨h₁, h1, hs⟩ := Option.bind_eq_some_iff.mp hs
    rw [ih hs (by omega), split_keeps h1 (by omega)]

theorem splitDown_freeBlocks (n : Nat) {h : Heap} (s : Shape r.toManaged h.alloc)
    (hs : splitDown h block level n = some h') {m : Nat} (hl : level ≤ m) (hm : m < level + n)
    (hd : m ≤ r.depth) : h'.alloc.freeBlocks (m + 1) = addSize block (r.blockSize m / 2) := by
  induction n generalizing h level with
  | zero => omega
  | succ n ih =>
    obtain ⟨h₁, h1, hs⟩ := Option.bind_eq_some_iff.mp hs
    rcases Nat.lt_or_eq_of_le hl with hlt | rfl
    · exact ih (s.congr (fixed_split h1)) hs hlt (by omega)
    · rw [splitDown_keeps n hs le_rfl, split_freeBlocks s hd h1]

theorem levelFromSize_small (s : Shape r.toManaged h.alloc) {n size : Nat} (hn : 0 < n)
    (hsmall : 2 * n ≤ r.leafSize) (hsize : Math.ceilToPowerOfTwo n = some size) :
    ∃ level : Nat, levelFromSize h.alloc size = some (level : Int) ∧ r.depth < level := by
  have hd := r.size_le
  have hg := r.leaf_ge
  have hle : n ≤ 2 ^ (r.leafBits - 1) := by
    rw [r.leaf_eq, show r.leafBits = r.leafBits - 1 + 1 by omega, pow_succ] at hsmall
    omega
  have hcl : Nat.clog 2 n ≤ r.leafBits - 1 := (Nat.clog_le_iff_le_pow (by omega)).mpr hle
  have h30 : n ≤ 2 ^ 30 := hle.trans (Nat.pow_le_pow_right (by omega) (by omega))
  rw [Math.ceilToPowerOfTwo_eq hn h30] at hsize
  obtain rfl := Option.some.inj hsize
  exact ⟨_, s.levelFromSize (by omega), by omega⟩

theorem small_right_half (c : Represents r h k lists) {n : Nat} (hn : 0 < n)
    (hsmall : 2 * n ≤ r.leafSize) (ha : allocatorAllocate h n = some (block, h'))
    (hp : block ≠ allocatorEmpty) :
    h'.alloc.freeBlocks (r.depth + 1) = block + r.leafSize / 2 := by
  have s := c.core.shape
  have hL := c.core.linked
  have hnil (m : Nat) (hm : r.depth < m) : lists m = [] := by
    refine List.eq_nil_iff_forall_not_mem.mpr fun i hi => ?_
    have := (hL.bound m i hi).1
    omega
  obtain ⟨size, hsize, ⟨-, hc, -⟩ | ⟨-, lv, index, h₁, h₂, hlevel, hindex, ho, hf, rfl⟩⟩ :=
    allocate_cases ha
  · exact absurd hc hp
  obtain ⟨level, hlevel', hdeep⟩ := levelFromSize_small s hn hsmall hsize
  obtain rfl := Option.some.inj (hlevel'.symm.trans hlevel)
  obtain rfl : level = index := by
    rw [levelIndex] at hindex
    split at hindex
    next => simpa using hindex
    next => simp at hindex
  have hempty : h.alloc.freeBlocks level = allocatorEmpty :=
    (freeBlocks_eq_empty_iff hL level).mpr (hnil level hdeep)
  obtain ⟨hne, -⟩ | ⟨-, hc, -⟩ | ⟨source, hlt, hne, -, rfl, hd⟩ := obtainBlock_cases ho
  · exact absurd hempty hne
  · exact absurd hc hp
  obtain ⟨i, hsource, hi, hhead⟩ := hL.exists_head hne
  rw [hhead] at hd hp ⊢
  have hhalf := splitDown_freeBlocks _ (s.setFreeList source _ _) hd hsource
    (show r.depth < source + (level - source) by omega) le_rfl
  have hend := r.address_end_le hsource hi
  have hsz := r.leafSize_le_blockSize source
  have hpos := r.sixteen_le_leafSize
  have hlim := r.base_add_size_le
  rw [chargeBlock, if_pos (by simpa [notEmpty] using hp)]
  change h₂.alloc.freeBlocks (r.depth + 1) = _
  rw [flipAllocationBit_alloc hf, hhalf, r.blockSize_depth, addSize]
  exact Nat.mod_eq_of_lt (by simp only [wordSize]; omega)

theorem small_requests_unsafe (c : WellFormed r h k lists) {n : Nat} (hn : 0 < n)
    (hsmall : 2 * n ≤ r.leafSize) (ha : allocatorAllocate h n = some (block, h'))
    (hp : block ≠ allocatorEmpty) : ¬ ServedSafely r h h' n block := by
  intro hsafe
  have hhalf := small_right_half c.represents hn hsmall ha hp
  have hpos := r.sixteen_le_leafSize
  have hne : h'.alloc.freeBlocks (r.depth + 1) ≠ allocatorEmpty := by
    rw [hhalf, allocatorEmpty]
    omega
  have := hsafe.long _ (.head (r.depth + 1) hne)
  rw [hhalf] at this
  omega

theorem small_requests_unsafe_smallRegion :
    ∃ h h', (boot smallRegion zeroMemory).map World.heap = some h ∧
      allocatorAllocate h 8 = some (4096, h') ∧ ¬ ServedSafely smallRegion h h' 8 4096 := by
  have hobs : ((boot smallRegion zeroMemory).bind fun w =>
      (allocatorAllocate w.heap 8).map Prod.fst) = some 4096 := by decide +kernel
  obtain ⟨w, hw, hobs⟩ := Option.bind_eq_some_iff.mp hobs
  obtain ⟨⟨p, h'⟩, ha, rfl⟩ := Option.map_eq_some_iff.mp hobs
  exact ⟨w.heap, h', by rw [hw]; rfl, ha, small_requests_unsafe
    (wellFormed_boot (zeroFilled_zeroMemory smallRegion) hw) (by decide) (by decide) ha (by decide)⟩

-- 8 bytes are taken from the first leaf; the other 8 of it, 4104 on, are put on a free list
theorem small_requests_not_safe : ¬ ∀ (r : Region) (h h' : Heap) (k : Labels)
    (lists : Nat → List Nat) (n block : Nat), WellFormed r h k lists → 0 < n → 2 * n ≤ r.leafSize →
    allocatorAllocate h n = some (block, h') → block ≠ allocatorEmpty →
    ServedSafely r h h' n block := by
  intro hall
  have hobs : ((boot smallRegion zeroMemory).bind fun w =>
      (allocatorAllocate w.heap 8).map fun x => (x.1, x.2.alloc.freeBlocks 4)) =
      some (4096, 4104) := by decide +kernel
  obtain ⟨w, hw, hobs⟩ := Option.bind_eq_some_iff.mp hobs
  obtain ⟨⟨p, h'⟩, ha, hobs⟩ := Option.map_eq_some_iff.mp hobs
  obtain ⟨rfl, hhead⟩ := Prod.mk.inj hobs
  have hsafe := hall smallRegion w.heap h' _ _ 8 4096
    (wellFormed_boot (zeroFilled_zeroMemory smallRegion) hw) (by decide) (by decide) ha (by decide)
  have hlong := hsafe.long _ (.head 4 (by rw [hhead]; decide))
  rw [hhead] at hlong
  exact absurd hlong (by decide)

end small

end Lasagne.Buddy
