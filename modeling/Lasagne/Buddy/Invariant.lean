import Mathlib
import Lasagne.Buddy.FreeLists

namespace Lasagne.Buddy
open ByteMemory CInt SplitTree Bitmap

-- al is the content of the allocation bitmap; between operations it is the parity of k
structure Core (r : Region) (h : Heap) (k : Labels) (lists : Nat → List Nat)
    (al : Nat → Nat → Bool) : Prop where
  shape : Shape r.toManaged h.alloc
  tiling : Tiling r.depth k
  coalesced : Coalesced k
  bits : Bits r h.mem (isSplit k) al
  linked : Lists r h lists
  listed : ∀ l i, i ∈ lists l ↔ k l i = .free

def freeTotal (r : Region) (lists : Nat → List Nat) : Nat :=
  ∑ l ∈ Finset.range (r.depth + 1), (lists l).length * r.blockSize l

structure Represents (r : Region) (h : Heap) (k : Labels) (lists : Nat → List Nat) : Prop where
  core : Core r h k lists (parity k)
  freeSize : h.alloc.freeSize = freeTotal r lists

def Spare (r : Region) (lists : Nat → List Nat) (l i x : Nat) : Prop :=
  r.InBitmaps x ∨ FreeBytes r lists x ∨ r.InBlock l i x

theorem freeTotal_update (r : Region) (lists : Nat → List Nat) {l : Nat} (hl : l ≤ r.depth)
    (ls : List Nat) :
    freeTotal r (Function.update lists l ls) + (lists l).length * r.blockSize l =
      freeTotal r lists + ls.length * r.blockSize l := by
  have hmem : l ∈ Finset.range (r.depth + 1) := Finset.mem_range.mpr (by omega)
  have hrest : ∑ n ∈ (Finset.range (r.depth + 1)).erase l,
      (Function.update lists l ls n).length * r.blockSize n =
      ∑ n ∈ (Finset.range (r.depth + 1)).erase l, (lists n).length * r.blockSize n :=
    Finset.sum_congr rfl fun n hn => by rw [Function.update_of_ne (Finset.ne_of_mem_erase hn)]
  rw [freeTotal, freeTotal, ← Finset.add_sum_erase _ _ hmem, ← Finset.add_sum_erase _ _ hmem,
    hrest, Function.update_self]
  ring

theorem freeTotal_lt {r : Region} {h : Heap} {lists : Nat → List Nat} (hL : Lists r h lists) :
    freeTotal r lists ≤ 31 * 1073741824 := by
  have hterm (l : Nat) (hl : l ∈ Finset.range (r.depth + 1)) :
      (lists l).length * r.blockSize l ≤ 1073741824 := by
    have hle : l ≤ r.depth := by have := Finset.mem_range.mp hl; omega
    calc (lists l).length * r.blockSize l ≤ 2 ^ l * r.blockSize l :=
          Nat.mul_le_mul_right _ (hL.length_le l)
      _ = r.size := (r.size_eq_mul hle).symm
      _ ≤ 1073741824 := r.size_le_pow
  have hsum := Finset.sum_le_card_nsmul _ _ _ hterm
  rw [Finset.card_range, smul_eq_mul] at hsum
  have := r.size_le
  rw [freeTotal]
  nlinarith

section flip
variable {r : Region} {h : Heap} {sp al : Nat → Nat → Bool} {l i : Nat}

theorem flipAllocationBit_spec (s : Shape r.toManaged h.alloc) (hb : Bits r h.mem sp al)
    (hl : l ≤ r.depth) (hi : i < 2 ^ l) :
    ∃ m, flipAllocationBit h (r.address l i) l = some { h with mem := m } ∧
      Bits r m sp (toggleParent al l i) ∧ SameOutside r.InBitmaps h.mem m := by
  cases l with
  | zero => exact ⟨h.mem, rfl, hb, SameOutside.refl _ _⟩
  | succ l =>
    have hp : i / 2 < 2 ^ l := by rw [pow_succ] at hi; omega
    refine ⟨_, ?_, hb.flip hl hp, Bits.write_outside _ (.inl rfl) hl hp⟩
    rw [flipAllocationBit, if_neg (by omega), s.spans.allocationBitIndex hl hi, s.allocationBitmap,
      r.first_eq]
    simp only [Option.bind_eq_bind, Option.bind_some]
    rw [flipBit_ofNat (Bits.allocation_byte hl hp).2]
    rfl

theorem getAllocationBit_spec (s : Shape r.toManaged h.alloc) (hb : Bits r h.mem sp al)
    (hl : l < r.depth) (hi : i < 2 ^ (l + 1)) :
    getAllocationBit h (r.address (l + 1) i) (l + 1 : Nat) = some (al l (i / 2)).toNat := by
  have hp : i / 2 < 2 ^ l := by rw [pow_succ] at hi; omega
  rw [getAllocationBit, s.spans.allocationBitIndex hl hi, s.allocationBitmap, r.first_eq]
  simp only [Option.bind_eq_bind, Option.bind_some]
  exact hb.getAllocation hl hp

end flip

namespace Core
variable {r : Region} {h : Heap} {k : Labels} {lists : Nat → List Nat} {al : Nat → Nat → Bool}
  {l i : Nat}

theorem present (c : Core r h k lists al) (hk : k l i ≠ .absent) : l ≤ r.depth ∧ i < 2 ^ l :=
  ⟨c.tiling.level_le hk, c.tiling.index_lt hk⟩

theorem listed_leaf (c : Core r h k lists al) (hi : i ∈ lists l) : (k l i).isLeaf := by
  rw [(c.listed l i).mp hi]; rfl

theorem fresh_inside (c : Core r h k lists al) (hk : k l i = .live) {n j x : Nat}
    (hj : j ∈ lists n) (hx : r.InBlock l i x) : r.address n j ≠ x := by
  rintro rfl
  have hleaf : (k l i).isLeaf := by rw [hk]; rfl
  have hy : r.InBlock n j (r.address n j) :=
    ⟨le_refl _, Nat.lt_add_of_pos_right (r.blockSize_pos n)⟩
  obtain ⟨rfl, rfl⟩ := r.inBlock_unique c.tiling hleaf (c.listed_leaf hj) hx hy
  rw [c.listed, hk] at hj
  simp at hj

theorem not_inBitmaps (c : Core r h k lists al) {x : Nat} (hx : FreeBytes r lists x) :
    ¬ r.InBitmaps x := by
  obtain ⟨l, i, hi, hx⟩ := hx
  have hb := c.linked.bound l i hi
  exact r.not_inBitmaps_of_inBlock hb.1 hb.2 hx

theorem lists_bitmaps (c : Core r h k lists al) {h' : Heap} {m : Memory}
    (hb : h'.alloc.freeBlocks = h.alloc.freeBlocks) (hc : h'.alloc.freeCount = h.alloc.freeCount)
    (hm : SameOutside r.InBitmaps h.mem m) (hm' : h'.mem = m) : Lists r h' lists :=
  c.linked.congr hb hc fun x hx => by rw [hm']; exact hm x (c.not_inBitmaps hx)

theorem withFreeSize (c : Core r h k lists al) (v : Nat) :
    Core r { h with alloc.freeSize := v } k lists al where
  shape := c.shape.congr (fixed_freeSize h.alloc v)
  tiling := c.tiling
  coalesced := c.coalesced
  bits := c.bits
  linked := c.linked.congr rfl rfl fun _ _ => rfl
  listed := c.listed

end Core

theorem bits_of_blocks {r : Region} {m m' : Memory} {sp al : Nat → Nat → Bool} {W : Nat → Prop}
    (hb : Bits r m sp al) (hm : SameOutside W m m') (hw : ∀ x, W x → ¬ r.InBitmaps x) :
    Bits r m' sp al :=
  hb.congr fun x hx => hm x fun hc => hw x hc hx

theorem isSplit_set_leaf (k : Labels) {l i : Nat} {v : Kind} (hk : (k l i).isLeaf)
    (hv : v.isLeaf) : isSplit (set k l i v) = isSplit k := by
  funext m j
  by_cases hm : m = l ∧ j = i
  · obtain ⟨rfl, rfl⟩ := hm
    have h1 : k m j ≠ .split := by intro hc; simp [hc, Kind.isLeaf] at hk
    have h2 : v ≠ .split := by rintro rfl; simp [Kind.isLeaf] at hv
    simp [isSplit, h1, h2]
  · rw [isSplit, isSplit, set_other _ _ hm]

theorem listed_set {k : Labels} {lists : Nat → List Nat} {l i : Nat} {v : Kind} {ls : List Nat}
    (hlist : ∀ l i, i ∈ lists l ↔ k l i = .free)
    (hls : ∀ j, j ∈ ls ↔ (if j = i then v = .free else j ∈ lists l)) (n j : Nat) :
    j ∈ Function.update lists l ls n ↔ set k l i v n j = .free := by
  by_cases hn : n = l
  · subst hn
    rw [Function.update_self, hls, hlist]
    by_cases hj : j = i
    · subst hj; simp
    · rw [if_neg hj, set_other _ _ (by tauto)]
  · rw [Function.update_of_ne hn, hlist, set_other _ _ (by tauto)]

end Lasagne.Buddy
