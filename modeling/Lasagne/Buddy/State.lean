import Mathlib
import Lasagne.Buddy.Region
import Lasagne.Library.LinkedList

namespace Lasagne.Buddy
open ByteMemory CInt SplitTree LinkedList Bitmap

namespace Region
variable (r : Region)

def Aligned (p : Nat) : Prop := ∃ k, p = r.base + 16 * k

theorem address_aligned (l i : Nat) : r.Aligned (r.address l i) := by
  have h : r.blockSize l = 16 * (2 ^ (r.leafBits - 4) * 2 ^ (r.depth - l)) := by
    have hl : 2 ^ r.leafBits = 16 * 2 ^ (r.leafBits - 4) := by
      have := r.leaf_ge
      rw [show (16 : Nat) = 2 ^ 4 by norm_num, ← pow_add]; congr 1; omega
    rw [Blocks.blockSize, r.leaf_eq, hl]; ring
  exact ⟨i * (2 ^ (r.leafBits - 4) * 2 ^ (r.depth - l)), by rw [Blocks.address, h]; ring⟩

end Region

section nodes
variable {r : Region} {p q v : Nat} {m : Memory}

theorem nodeNext_setNext (hp : r.Aligned p) (hq : r.Aligned q) (hv : v < 18446744073709551616) :
    nodeNext (setNext m p v) q = if q = p then v else nodeNext m q := by
  obtain ⟨a, rfl⟩ := hp
  obtain ⟨b, rfl⟩ := hq
  rw [nodeNext, setNext]
  split
  next h => rw [h, loadWord_storeWord, BitVec.toNat_ofNat, Nat.mod_eq_of_lt hv]
  next h => rw [loadWord_storeWord_apart _ _ (by omega), nodeNext]

theorem nodePrev_setPrev (hp : r.Aligned p) (hq : r.Aligned q) (hv : v < 18446744073709551616) :
    nodePrev (setPrev m p v) q = if q = p then v else nodePrev m q := by
  obtain ⟨a, rfl⟩ := hp
  obtain ⟨b, rfl⟩ := hq
  rw [nodePrev, setPrev]
  split
  next h => rw [h, loadWord_storeWord, BitVec.toNat_ofNat, Nat.mod_eq_of_lt hv]
  next h => rw [loadWord_storeWord_apart _ _ (by omega), nodePrev]

theorem nodeNext_setPrev (hp : r.Aligned p) (hq : r.Aligned q) :
    nodeNext (setPrev m p v) q = nodeNext m q := by
  obtain ⟨a, rfl⟩ := hp
  obtain ⟨b, rfl⟩ := hq
  rw [nodeNext, setPrev, loadWord_storeWord_apart _ _ (by omega), nodeNext]

theorem nodePrev_setNext (hp : r.Aligned p) (hq : r.Aligned q) :
    nodePrev (setNext m p v) q = nodePrev m q := by
  obtain ⟨a, rfl⟩ := hp
  obtain ⟨b, rfl⟩ := hq
  rw [nodePrev, setNext, loadWord_storeWord_apart _ _ (by omega), nodePrev]

theorem nodeNext_lt (m : Memory) (p : Nat) : nodeNext m p < 18446744073709551616 :=
  (loadWord m (p + 8)).isLt

theorem nodePrev_lt (m : Memory) (p : Nat) : nodePrev m p < 18446744073709551616 :=
  (loadWord m p).isLt

theorem sameOutside_setPrev {W : Nat → Prop} (h : ∀ x, p ≤ x → x < p + 16 → W x) :
    SameOutside W m (setPrev m p v) :=
  sameOutside_storeWord fun x hx hx' => h x hx (by omega)

theorem sameOutside_setNext {W : Nat → Prop} (h : ∀ x, p ≤ x → x < p + 16 → W x) :
    SameOutside W m (setNext m p v) :=
  sameOutside_storeWord fun x hx hx' => h x (by omega) (by omega)

theorem node_congr {m' : Memory} (h : ∀ x, p ≤ x → x < p + 16 → m' x = m x) :
    nodeNext m' p = nodeNext m p ∧ nodePrev m' p = nodePrev m p := by
  constructor
  · rw [nodeNext, nodeNext, loadWord_congr fun x hx hx' => h x (by omega) (by omega)]
  · rw [nodePrev, nodePrev, loadWord_congr fun x hx hx' => h x hx (by omega)]

end nodes

structure Bits (r : Region) (m : Memory) (sp al : Nat → Nat → Bool) : Prop where
  split : ∀ l i, l < r.depth → i < 2 ^ l →
    bitAt m r.splitBitmap (node l i) = sp l i
  allocation : ∀ l i, l < r.depth → i < 2 ^ l →
    bitAt m r.bitmaps (node l i) = al l i

namespace Bits
variable {r : Region} {m m' : Memory} {sp al : Nat → Nat → Bool} {l i : Nat}

theorem allocation_byte (hl : l < r.depth) (hi : i < 2 ^ l) :
    node l i / 8 < r.bitmapSize ∧ r.bitmaps + node l i / 8 < 18446744073709551616 := by
  have := r.bitmap_byte_lt (node_lt hl hi)
  have := r.bitmap_end_le
  omega

theorem split_byte (hl : l < r.depth) (hi : i < 2 ^ l) :
    node l i / 8 < r.bitmapSize ∧
      r.splitBitmap + node l i / 8 < 18446744073709551616 := by
  have := r.bitmap_byte_lt (node_lt hl hi)
  have := r.bitmap_end_le
  simp only [Region.splitBitmap_eq]
  omega

theorem congr (hb : Bits r m sp al) (h : ∀ x, r.InBitmaps x → m' x = m x) : Bits r m' sp al := by
  constructor
  · intro l i hl hi
    have := split_byte hl hi
    rw [← hb.split l i hl hi]
    apply bitAt_congr (h _ _)
    simp only [Region.InBitmaps, Region.splitBitmap_eq]
    omega
  · intro l i hl hi
    have := allocation_byte hl hi
    rw [← hb.allocation l i hl hi]
    apply bitAt_congr (h _ _)
    simp only [Region.InBitmaps]
    omega

theorem getAllocation (hb : Bits r m sp al) (hl : l < r.depth) (hi : i < 2 ^ l) :
    getBit m r.bitmaps (node l i : Int) = some (al l i).toNat := by
  rw [getBit_ofNat (allocation_byte hl hi).2, hb.allocation l i hl hi]

theorem getSplit (hb : Bits r m sp al) (hl : l < r.depth) (hi : i < 2 ^ l) :
    getBit m r.splitBitmap (node l i : Int) = some (sp l i).toNat := by
  rw [getBit_ofNat (split_byte hl hi).2, hb.split l i hl hi]

theorem write_outside (f : BitVec 8 → BitVec 8 → BitVec 8) {buffer : Nat}
    (hbuf : buffer = r.bitmaps ∨ buffer = r.splitBitmap) (hl : l < r.depth) (hi : i < 2 ^ l) :
    SameOutside r.InBitmaps m (writeBit m buffer (node l i) f) := by
  have := split_byte hl hi
  intro x hx
  apply writeBit_outside
  rintro rfl
  apply hx
  simp only [Region.InBitmaps, Region.splitBitmap_eq] at *
  omega

theorem flip (hb : Bits r m sp al) (hl : l < r.depth) (hi : i < 2 ^ l) :
    Bits r (writeBit m r.bitmaps (node l i) (· ^^^ ·)) sp (toggle al l i) := by
  constructor
  · intro m' j hm hj
    have h1 := split_byte hm hj
    have h2 := allocation_byte hl hi
    rw [← hb.split m' j hm hj]
    apply bitAt_congr (writeBit_outside _ _ _ _ _)
    simp only [Region.splitBitmap_eq] at *
    omega
  · intro m' j hm hj
    rw [bitAt_flip, hb.allocation m' j hm hj, hb.allocation l i hl hi, toggle]
    by_cases h : m' = l ∧ j = i
    · obtain ⟨rfl, rfl⟩ := h; simp
    · rw [if_neg h, if_neg (fun hn => h (node_inj hj hi hn))]

theorem writeSplit (hb : Bits r m sp al) (f : BitVec 8 → BitVec 8 → BitVec 8) (b : Bool)
    (hf : ∀ k, bitAt (writeBit m r.splitBitmap (node l i) f) r.splitBitmap k =
      if k = node l i then b else bitAt m r.splitBitmap k)
    (hl : l < r.depth) (hi : i < 2 ^ l) :
    Bits r (writeBit m r.splitBitmap (node l i) f)
      (fun l' i' => if l' = l ∧ i' = i then b else sp l' i') al := by
  constructor
  · intro m' j hm hj
    rw [hf, hb.split m' j hm hj]
    by_cases h : m' = l ∧ j = i
    · obtain ⟨rfl, rfl⟩ := h; simp
    · rw [if_neg h, if_neg (fun hn => h (node_inj hj hi hn))]
  · intro m' j hm hj
    have h1 := allocation_byte hm hj
    rw [← hb.allocation m' j hm hj]
    apply bitAt_congr (writeBit_outside _ _ _ _ _)
    simp only [Region.splitBitmap_eq] at *
    omega

end Bits

end Lasagne.Buddy
