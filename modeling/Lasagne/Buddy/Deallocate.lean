import Mathlib
import Lasagne.Buddy.Allocate

namespace Lasagne.Buddy
open ByteMemory CInt SplitTree Bitmap

-- freeing block (l, i) in the tree and on the lists: merge with the buddy while it is free
def releaseTree (k : Labels) : Nat → Nat → Labels
  | 0, i => set k 0 i .free
  | l + 1, i =>
    if (k (l + 1) (i ^^^ 1)).used then set k (l + 1) i .free
    else releaseTree (merge k l (i / 2)) l (i / 2)

def stopLevel (k : Labels) : Nat → Nat → Nat
  | 0, _ => 0
  | l + 1, i =>
    if (k (l + 1) (i ^^^ 1)).used then l + 1 else stopLevel k l (i / 2)

def releaseLists (k : Labels) (lists : Nat → List Nat) : Nat → Nat → Nat → List Nat
  | 0, i => Function.update lists 0 (i :: lists 0)
  | l + 1, i =>
    if (k (l + 1) (i ^^^ 1)).used then Function.update lists (l + 1) (i :: lists (l + 1))
    else releaseLists (merge k l (i / 2))
      (Function.update lists (l + 1) ((lists (l + 1)).erase (i ^^^ 1))) l (i / 2)

-- no buddy the merge takes off its list is the list's head with a stale prev link
def CleanMerge (r : Region) (h : Heap) (k : Labels) : Nat → Nat → Prop
  | 0, _ => True
  | l + 1, i => (k (l + 1) (i ^^^ 1)).used = false →
      (r.address (l + 1) (i ^^^ 1) = h.alloc.freeBlocks (l + 1) →
        nodePrev h.mem (r.address (l + 1) (i ^^^ 1)) = 0) ∧ CleanMerge r h k l (i / 2)

def finish (x : Heap × Nat × Nat) : Heap := pushBlock x.1 x.2.1 x.2.2

section release
variable {r : Region} {h : Heap} {k : Labels} {lists : Nat → List Nat} {l i : Nat}

theorem eq_xor_one {i j : Nat} (h : j / 2 = i / 2) (hne : j ≠ i) : j = i ^^^ 1 := by
  have := xor_one_cases i
  omega

theorem xor_one_ne (i : Nat) : i ^^^ 1 ≠ i := by
  have := xor_one_cases i
  omega

theorem parity_parent (hp : k l (i / 2) = .split) (hu : (k (l + 1) i).used = true) :
    parity k l (i / 2) = !(k (l + 1) (i ^^^ 1)).used := by
  rcases xor_one_cases i with ⟨h0, hx⟩ | ⟨h1, hx⟩
  · rw [parity, show 2 * (i / 2) = i by omega, ← hx, hp, hu]; simp
  · rw [parity, show 2 * (i / 2) + 1 = i by omega, show 2 * (i / 2) = i ^^^ 1 by omega, hp, hu]
    simp

theorem buddy_free (c : Tiling r.depth k) (hp : k l (i / 2) = .split)
    (hu : (k (l + 1) (i ^^^ 1)).used = false) : k (l + 1) (i ^^^ 1) = .free := by
  have hpres : k (l + 1) (i ^^^ 1) ≠ .absent := by
    rw [c.child, xor_one_div_two]; exact hp
  cases hk : k (l + 1) (i ^^^ 1) <;> simp_all [Kind.used]

theorem leaves_of_buddy (ht : Tiling r.depth k) (hk : k (l + 1) i = .live)
    (hu : (k (l + 1) (i ^^^ 1)).used = false) :
    (k (l + 1) (2 * (i / 2))).isLeaf ∧ (k (l + 1) (2 * (i / 2) + 1)).isLeaf := by
  have hbuddy := buddy_free ht (ht.parent_split (by simp [hk])) hu
  rcases xor_one_cases i with ⟨he, hxor⟩ | ⟨ho, hxor⟩
  · rw [show 2 * (i / 2) = i by omega, ← hxor, hk, hbuddy]
    exact ⟨rfl, rfl⟩
  · rw [show 2 * (i / 2) + 1 = i by omega, show 2 * (i / 2) = i ^^^ 1 by omega, hk, hbuddy]
    exact ⟨rfl, rfl⟩

theorem min_address (hl : l < r.depth) :
    (if r.address (l + 1) i < r.address (l + 1) (i ^^^ 1) then r.address (l + 1) i
      else r.address (l + 1) (i ^^^ 1)) = r.address l (i / 2) := by
  have hp := r.blockSize_pos (l + 1)
  rcases xor_one_cases i with ⟨h0, hx⟩ | ⟨h1, hx⟩
  · have heq := r.address_left (i / 2) hl
    rw [show 2 * (i / 2) = i by omega] at heq
    rw [hx, if_pos (by simp only [Blocks.address]; nlinarith), heq]
  · have heq := r.address_left (i / 2) hl
    rw [show 2 * (i / 2) = i - 1 by omega] at heq
    obtain ⟨j, rfl⟩ : ∃ j, i = j + 1 := ⟨i - 1, by omega⟩
    rw [hx, if_neg (by simp only [Blocks.address, Nat.add_sub_cancel]; nlinarith), heq]

theorem isSplit_merge (h0 : (k (l + 1) (2 * i)).isLeaf) (h1 : (k (l + 1) (2 * i + 1)).isLeaf) :
    isSplit (merge k l i) = fun m j => if m = l ∧ j = i then false else isSplit k m j := by
  funext m j
  simp only [isSplit, merge_apply]
  split_ifs with h2 h3
  · rfl
  · rw [h3.1]
    rcases (show j = 2 * i ∨ j = 2 * i + 1 by omega) with rfl | rfl
    · cases hk : k (l + 1) (2 * i) <;> simp_all [Kind.isLeaf]
    · cases hk : k (l + 1) (2 * i + 1) <;> simp_all [Kind.isLeaf]
  · rfl

theorem listed_merge (hlist : ∀ l i, i ∈ lists l ↔ k l i = .free) (hnd : (lists (l + 1)).Nodup)
    (hk : k (l + 1) i = .live) (hp : k l (i / 2) = .split) (n j : Nat) :
    j ∈ Function.update lists (l + 1) ((lists (l + 1)).erase (i ^^^ 1)) n ↔
      merge k l (i / 2) n j = .free := by
  rw [merge_apply]
  by_cases hn : n = l + 1
  · subst hn
    rw [Function.update_self, hnd.mem_erase_iff, hlist, if_neg (by omega)]
    split
    next hj =>
      by_cases hji : j = i
      · subst hji; simp [hk]
      · simp [eq_xor_one hj.2 hji]
    next hj =>
      have hne : j ≠ i ^^^ 1 := by
        rintro rfl
        exact hj ⟨rfl, xor_one_div_two i⟩
      simp [hne]
  · rw [Function.update_of_ne hn, hlist, if_neg (show ¬ (n = l + 1 ∧ j / 2 = i / 2) by tauto)]
    split
    next hj => rw [hj.1, hj.2, hp]; simp
    next => rfl

theorem CleanMerge.congr {h' : Heap} {k' : Labels} (n i : Nat)
    (hb : ∀ m ≤ n, h'.alloc.freeBlocks m = h.alloc.freeBlocks m)
    (hk : ∀ m j, m ≤ n → ¬ (m = n ∧ j = i) → k' m j = k m j)
    (hn : ∀ m j, m ≤ n → k m j = .free →
      nodePrev h'.mem (r.address m j) = nodePrev h.mem (r.address m j))
    (ht : Tiling r.depth k) (hpres : k n i ≠ .absent) (hc : CleanMerge r h k n i) :
    CleanMerge r h' k' n i := by
  induction n generalizing i with
  | zero => trivial
  | succ n ih =>
    intro hu
    rw [hk (n + 1) _ le_rfl fun hj => xor_one_ne i hj.2] at hu
    have hp : k n (i / 2) = .split := ht.parent_split hpres
    obtain ⟨hhead, hrest⟩ := hc hu
    refine ⟨fun ha => ?_, ih (i / 2) (fun m hm => hb m (by omega))
      (fun m j hm _ => hk m j (by omega) (by omega)) (fun m j hm => hn m j (by omega))
      (by rw [hp]; simp) hrest⟩
    rw [hn (n + 1) _ le_rfl (buddy_free ht hp hu)]
    rw [hb (n + 1) le_rfl] at ha
    exact hhead ha

theorem stopLevel_congr {k' : Labels} (n i : Nat)
    (hk : ∀ m j, m ≤ n → ¬ (m = n ∧ j = i) → k' m j = k m j) : stopLevel k' n i = stopLevel k n i := by
  induction n generalizing i with
  | zero => rfl
  | succ n ih =>
    rw [stopLevel, stopLevel, hk (n + 1) _ le_rfl fun hj => xor_one_ne i hj.2,
      ih (i / 2) fun m j hm _ => hk m j (by omega) (by omega)]

theorem stopLevel_merge (k : Labels) (l i : Nat) : stopLevel (merge k l i) l i = stopLevel k l i :=
  stopLevel_congr l i fun m j hm hj => by rw [merge_apply, if_neg hj, if_neg (by omega)]

theorem removeFromList_shape (s : Shape r.toManaged h.alloc) (p n : Nat) :
    Shape r.toManaged (removeFromList h p n).alloc :=
  s.congr (fixed_removeFromList h p n)

theorem removeFromList_freeSize (h : Heap) (p n : Nat) :
    (removeFromList h p n).alloc.freeSize = h.alloc.freeSize := by
  rw [Lists.removeFromList_eq h p n rfl]
  split <;> rfl

theorem removeFromList_freeBlocks (h : Heap) (p : Nat) {n m : Nat} (hm : m ≠ n) :
    (removeFromList h p n).alloc.freeBlocks m = h.alloc.freeBlocks m := by
  rw [Lists.removeFromList_eq h p n rfl]
  split <;> exact Function.update_of_ne hm _ _

theorem spare_merge (hl : l < r.depth) (hb : i ^^^ 1 ∈ lists (l + 1)) {x : Nat}
    (hx : Spare r (Function.update lists (l + 1) ((lists (l + 1)).erase (i ^^^ 1))) l (i / 2) x) :
    Spare r lists (l + 1) i x := by
  have hchild {j : Nat} (hj : j / 2 = i / 2) (hy : r.InBlock (l + 1) j x) :
      Spare r lists (l + 1) i x := by
    by_cases hji : j = i
    · rw [hji] at hy
      exact .inr (.inr hy)
    · rw [eq_xor_one hj hji] at hy
      exact .inr (.inl ⟨l + 1, _, hb, hy⟩)
  rcases hx with hx | ⟨n, j, hj, hx⟩ | hx
  · exact .inl hx
  · by_cases hn : n = l + 1
    · subst hn
      rw [Function.update_self] at hj
      exact .inr (.inl ⟨_, j, List.mem_of_mem_erase hj, hx⟩)
    · rw [Function.update_of_ne hn] at hj
      exact .inr (.inl ⟨n, j, hj, hx⟩)
  · rcases (r.inBlock_children hl).mp hx with hx | hx
    · exact hchild (by omega) hx
    · exact hchild (by omega) hx

theorem Holding.push (c : Holding r h k lists l i)
    (hb : ∀ m j, l = m + 1 → j / 2 = i / 2 → j ≠ i → k l j ≠ .free) :
    Core r (pushBlock h (r.address l i) l) (set k l i .free)
        (Function.update lists l (i :: lists l)) (parity (set k l i .free)) ∧
      SameOutside (Spare r lists l i) h.mem (pushBlock h (r.address l i) l).mem ∧
      ∀ S, Heads r S h.mem lists → Heads r (fun n => S n ∨ n = l)
        (pushBlock h (r.address l i) l).mem (Function.update lists l (i :: lists l)) := by
  obtain ⟨c, hk⟩ := c
  have hleaf : (k l i).isLeaf := by rw [hk]; rfl
  have hbound := c.present (show k l i ≠ .absent by simp [hk])
  have hfresh (n j : Nat) (hj : j ∈ lists n) : r.address n j ≠ r.address l i :=
    c.fresh_inside hk hj (r.header_inBlock le_rfl (by omega))
  obtain ⟨hL, hout⟩ := c.linked.push_block hbound hfresh
  have hnb (x : Nat) (hx : Lists.NewBytes r lists l i x) : ¬ r.InBitmaps x := by
    rcases hx with hx | hx
    · exact c.not_inBitmaps hx
    · exact r.not_inBitmaps_of_inBlock hbound.1 hbound.2 hx
  refine ⟨⟨c.shape.setFreeList _ _ _, c.tiling.set_leaf hleaf rfl, c.coalesced.set_free hb, ?_, hL,
    listed_set c.listed fun j => ?_⟩, hout.mono fun x hx => .inr hx,
    fun S hh => c.linked.heads_push hbound hfresh hh⟩
  · rw [isSplit_set_leaf k hleaf rfl, parity_set_leaf c.tiling hleaf rfl (by rw [hk]; rfl)]
    exact bits_of_blocks c.bits hout hnb
  · rw [List.mem_cons]
    split
    next hj => simp [hj]
    next hj => simp [hj]

theorem Holding.absorb (c : Holding r h k lists (l + 1) i)
    (hu : (k (l + 1) (i ^^^ 1)).used = false)
    (hclean : r.address (l + 1) (i ^^^ 1) = h.alloc.freeBlocks (l + 1) →
      nodePrev h.mem (r.address (l + 1) (i ^^^ 1)) = 0) :
    ∃ m, Bitmap.resetBit (removeFromList h (r.address (l + 1) (i ^^^ 1)) (l + 1)).mem
        r.splitBitmap (node l (i / 2) : Int) = some m ∧
      Core r { removeFromList h (r.address (l + 1) (i ^^^ 1)) (l + 1) with mem := m }
        (merge k l (i / 2))
        (Function.update lists (l + 1) ((lists (l + 1)).erase (i ^^^ 1)))
        (parity (merge k l (i / 2))) ∧
      SameOutside (fun x => r.InBitmaps x ∨ LevelBytes r lists (l + 1) x) h.mem m ∧
      ∀ S, Heads r S h.mem lists → Heads r S m
        (Function.update lists (l + 1) ((lists (l + 1)).erase (i ^^^ 1))) := by
  obtain ⟨c, hk⟩ := c
  have hbound := c.present (show k (l + 1) i ≠ .absent by simp [hk])
  have hlt : l < r.depth := hbound.1
  have hp : k l (i / 2) = .split := c.tiling.parent_split (by simp [hk])
  have hbuddy := buddy_free c.tiling hp hu
  have hmem : i ^^^ 1 ∈ lists (l + 1) := (c.listed _ _).mpr hbuddy
  have hpi : i / 2 < 2 ^ l := c.tiling.index_lt (by simp [hp])
  obtain ⟨hL, hout⟩ := c.linked.remove hmem hclean
  have hbits := bits_of_blocks c.bits hout fun x hx => c.not_inBitmaps hx.free
  have hreset := hbits.writeSplit (fun x y => x &&& ~~~y) false
    (fun b => bitAt_reset _ _ _ b) hlt hpi
  have hwrite : SameOutside r.InBitmaps (removeFromList h (r.address (l + 1) (i ^^^ 1)) (l + 1)).mem
      (writeBit (removeFromList h (r.address (l + 1) (i ^^^ 1)) (l + 1)).mem r.splitBitmap
        (node l (i / 2)) (fun x y => x &&& ~~~y)) :=
    Bits.write_outside _ (.inr rfl) hlt hpi
  obtain ⟨h0, h1⟩ := leaves_of_buddy c.tiling hk hu
  have hx : (k (l + 1) (2 * (i / 2))).used = !(k (l + 1) (2 * (i / 2) + 1)).used := by
    rcases xor_one_cases i with ⟨he, hxor⟩ | ⟨ho, hxor⟩
    · rw [show 2 * (i / 2) = i by omega, ← hxor, hk, hbuddy]
      rfl
    · rw [show 2 * (i / 2) + 1 = i by omega, show 2 * (i / 2) = i ^^^ 1 by omega, hk, hbuddy]
      rfl
  have hnb (x : Nat) (hx : FreeBytes r (Function.update lists (l + 1)
      ((lists (l + 1)).erase (i ^^^ 1))) x) : ¬ r.InBitmaps x := by
    obtain ⟨n, j, hj, hx⟩ := hx
    have hb := hL.bound n j hj
    exact r.not_inBitmaps_of_inBlock hb.1 hb.2 hx
  refine ⟨_, resetBit_ofNat (Bits.split_byte hlt hpi).2, ⟨?_, c.tiling.merge hp h0 h1,
    c.coalesced.merge l (i / 2), ?_, ?_, ?_⟩, ?_,
    fun S hh => (c.linked.heads_remove hmem hclean hh).congr fun x hx => hwrite x (hnb x hx)⟩
  · exact removeFromList_shape c.shape _ _
  · rw [isSplit_merge h0 h1, parity_merge hp h0 h1 hx]
    exact hreset
  · exact hL.congr rfl rfl fun x hx => hwrite x (hnb x hx)
  · exact listed_merge c.listed (c.linked.nodup _) hk hp
  · exact (hout.mono fun x hx => .inr hx).trans (hwrite.mono fun x hx => .inl hx)

theorem mergeUp_step (c : Core r h k lists (parity k)) (hk : k (l + 1) i = .live) :
    ∃ m, Holding r { h with mem := m } k lists (l + 1) i ∧ SameOutside r.InBitmaps h.mem m ∧
      mergeUp h (r.address (l + 1) i) (l + 1) =
        if (k (l + 1) (i ^^^ 1)).used then some ({ h with mem := m }, r.address (l + 1) i, l + 1)
        else (Bitmap.resetBit (removeFromList { h with mem := m } (r.address (l + 1) (i ^^^ 1))
            (l + 1)).mem r.splitBitmap (node l (i / 2) : Int)).bind fun mem =>
          (fun h => if l > 0 then mergeUp h (r.address l (i / 2)) l
            else some (h, r.address l (i / 2), l))
          { removeFromList { h with mem := m } (r.address (l + 1) (i ^^^ 1)) (l + 1) with mem } := by
  have hbound := c.present (show k (l + 1) i ≠ .absent by simp [hk])
  have hlt : l < r.depth := hbound.1
  have hp : k l (i / 2) = .split := c.tiling.parent_split (by simp [hk])
  obtain ⟨m, hm, hbits, hout⟩ := flipAllocationBit_spec c.shape c.bits hbound.1 hbound.2
  have hbit : (toggleParent (parity k) (l + 1) i) l (i / 2) = (k (l + 1) (i ^^^ 1)).used := by
    rw [toggleParent, toggle, if_pos ⟨rfl, rfl⟩, parity_parent hp (by rw [hk]; rfl), Bool.not_not]
  refine ⟨m, ⟨⟨c.shape, c.tiling, c.coalesced, hbits, c.lists_bitmaps rfl rfl hout rfl,
    c.listed⟩, hk⟩, hout, ?_⟩
  rw [mergeUp, hm]
  simp only [Option.bind_eq_bind, Option.bind_some]
  rw [getAllocationBit_spec (h := { h with mem := m }) c.shape hbits hlt hbound.2, hbit,
    Option.bind_some]
  cases (k (l + 1) (i ^^^ 1)).used with
  | true => rfl
  | false =>
    have hs := removeFromList_shape (h := { h with mem := m }) c.shape
      (r.address (l + 1) (i ^^^ 1)) (l + 1)
    rw [if_neg (by decide), c.shape.calculateBuddyAddress hlt hbound.2, Option.bind_some,
      hs.splitBitIndex_parent hlt hbound.2, hs.splitBitmap, min_address hlt]
    rfl

-- after allocatorDeallocateLevel has found the level; at level 0 the loop is over
def release (h : Heap) (block : Nat) : Nat → Option Heap
  | 0 => some (pushBlock h block 0)
  | level + 1 => (mergeUp h block (level + 1)).map finish

theorem release_step (h : Heap) (block l : Nat) :
    (if l > 0 then mergeUp h block l else some (h, block, l)).map finish = release h block l := by
  cases l with
  | zero => rfl
  | succ l => rfl

theorem Core.release (l : Nat) {h : Heap} {k : Labels} {lists : Nat → List Nat} {i : Nat}
    (c : Core r h k lists (parity k)) (hk : k l i = .live) (hc : CleanMerge r h k l i) :
    ∃ h', Buddy.release h (r.address l i) l = some h' ∧
      Core r h' (releaseTree k l i) (releaseLists k lists l i) (parity (releaseTree k l i)) ∧
      SameOutside (Spare r lists l i) h.mem h'.mem ∧ h'.alloc.freeSize = h.alloc.freeSize ∧
      ∀ S, Heads r S h.mem lists →
        Heads r (fun n => S n ∨ n = stopLevel k l i) h'.mem (releaseLists k lists l i) := by
  induction l generalizing h k lists i with
  | zero =>
    have hold : Holding r h k lists 0 i := ⟨c, hk⟩
    obtain ⟨hcore, hout, hheads⟩ := hold.push fun m j hm => by omega
    exact ⟨_, rfl, hcore, hout, rfl, hheads⟩
  | succ l ih =>
    obtain ⟨m, hold, hflip, hstep⟩ := mergeUp_step c hk
    have hflip' : SameOutside (Spare r lists (l + 1) i) h.mem m := hflip.mono fun x hx => .inl hx
    have hkeep {S : Nat → Prop} (hh : Heads r S h.mem lists) : Heads r S m lists :=
      hh.congr fun x hx => hflip x (c.not_inBitmaps hx)
    rw [Buddy.release, hstep, releaseTree, releaseLists, stopLevel]
    cases hu : (k (l + 1) (i ^^^ 1)).used with
    | true =>
      have hnf (n j : Nat) (_ : l + 1 = n + 1) (hj : j / 2 = i / 2) (hne : j ≠ i) :
          k (l + 1) j ≠ .free := by
        rw [eq_xor_one hj hne]
        intro hf
        simp [hf, Kind.used] at hu
      obtain ⟨hcore, hout, hheads⟩ := hold.push hnf
      exact ⟨_, rfl, hcore, hflip'.trans hout, rfl, fun S hh => hheads S (hkeep hh)⟩
    | false =>
      have hbound := c.present (show k (l + 1) i ≠ .absent by simp [hk])
      have hp : k l (i / 2) = .split := c.tiling.parent_split (by simp [hk])
      have hbuddy := buddy_free c.tiling hp hu
      have hmem : i ^^^ 1 ∈ lists (l + 1) := (c.listed _ _).mpr hbuddy
      have hprev (n j : Nat) (hj : k n j = .free) :
          nodePrev m (r.address n j) = nodePrev h.mem (r.address n j) :=
        (node_congr fun x hx hx' => hflip x (c.not_inBitmaps
          ⟨n, j, (c.listed n j).mpr hj, r.header_inBlock hx hx'⟩)).2
      obtain ⟨m', hm', hcore, hout, hheads⟩ := hold.absorb hu fun ha => by
        have hz := (hc hu).1 ha
        rw [← hprev _ _ hbuddy] at hz
        exact hz
      have hclean : CleanMerge r { removeFromList { h with mem := m }
          (r.address (l + 1) (i ^^^ 1)) (l + 1) with mem := m' } (merge k l (i / 2)) l (i / 2) := by
        refine CleanMerge.congr (h := h) l (i / 2) (fun n hn => removeFromList_freeBlocks _ _ (by omega))
          (fun n j hn hj => by rw [merge_apply, if_neg hj, if_neg (by omega)])
          (fun n j hn hj => (node_congr fun x hx hx' => hout x ?_).2.trans (hprev n j hj))
          c.tiling (by simp [hp]) (hc hu).2
        have hx' := r.header_inBlock hx hx'
        have hmn : j ∈ lists n := (c.listed n j).mpr hj
        rintro (hb | ⟨j', hj', hb⟩)
        · exact c.not_inBitmaps ⟨n, j, hmn, hx'⟩ hb
        · have := (r.inBlock_unique c.tiling (c.listed_leaf hmn) (c.listed_leaf hj') hx' hb).1
          omega
      obtain ⟨h', hrel, hcore', hout', hfs, hheads'⟩ := ih hcore (by rw [merge_apply]; simp) hclean
      rw [stopLevel_merge] at hheads'
      refine ⟨h', ?_, hcore', hflip'.trans ((hout.mono fun x hx => ?_).trans
        (hout'.mono fun x hx => spare_merge hbound.1 hmem hx)), ?_,
        fun S hh => hheads' S (hheads S (hkeep hh))⟩
      · rw [if_neg (by decide), hm', Option.bind_some]
        exact (release_step _ _ l).trans hrel
      · rcases hx with hx | hx
        · exact .inl hx
        · exact .inr (.inl hx.free)
      · rw [hfs]
        exact removeFromList_freeSize _ _ _

theorem freeTotal_releaseLists (l : Nat) {k : Labels} {lists : Nat → List Nat} {i : Nat}
    (ht : Tiling r.depth k) (hlist : ∀ l i, i ∈ lists l ↔ k l i = .free)
    (hnd : ∀ l, (lists l).Nodup) (hk : k l i = .live) :
    freeTotal r (releaseLists k lists l i) = freeTotal r lists + r.blockSize l := by
  induction l generalizing k lists i with
  | zero =>
    have := freeTotal_update r lists (Nat.zero_le r.depth) (i :: lists 0)
    rw [List.length_cons, Nat.add_mul, Nat.one_mul] at this
    rw [releaseLists]
    omega
  | succ l ih =>
    have hlev : l + 1 ≤ r.depth := ht.level_le (by rw [hk]; simp)
    rw [releaseLists]
    split
    next =>
      have := freeTotal_update r lists hlev (i :: lists (l + 1))
      rw [List.length_cons, Nat.add_mul, Nat.one_mul] at this
      omega
    next hu =>
      rw [Bool.not_eq_true] at hu
      have hp : k l (i / 2) = .split := ht.parent_split (by simp [hk])
      have hmem : i ^^^ 1 ∈ lists (l + 1) := (hlist _ _).mpr (buddy_free ht hp hu)
      have hlen := List.length_erase_of_mem hmem
      have hpos := List.length_pos_of_mem hmem
      have herase := freeTotal_update r lists hlev ((lists (l + 1)).erase (i ^^^ 1))
      rw [show (lists (l + 1)).length = ((lists (l + 1)).erase (i ^^^ 1)).length + 1 by omega,
        Nat.add_mul, Nat.one_mul] at herase
      obtain ⟨h0, h1⟩ := leaves_of_buddy ht hk hu
      rw [ih (ht.merge hp h0 h1) (listed_merge hlist (hnd _) hk hp) (fun m => ?_)
        (by rw [merge_apply]; simp), r.blockSize_succ hlev]
      · omega
      · by_cases hm : m = l + 1
        · subst hm
          rw [Function.update_self]
          exact (hnd _).erase _
        · rw [Function.update_of_ne hm]
          exact hnd m

theorem live_releaseTree (l : Nat) {k : Labels} {i : Nat} (ht : Tiling r.depth k)
    (hk : k l i = .live) (m j : Nat) :
    releaseTree k l i m j = .live ↔ k m j = .live ∧ ¬ (m = l ∧ j = i) := by
  induction l generalizing k i with
  | zero => exact live_set_free k 0 i m j
  | succ l ih =>
    rw [releaseTree]
    split
    next => exact live_set_free k (l + 1) i m j
    next hu =>
      rw [Bool.not_eq_true] at hu
      have hp : k l (i / 2) = .split := ht.parent_split (by simp [hk])
      obtain ⟨h0, h1⟩ := leaves_of_buddy ht hk hu
      have hbud := buddy_free ht hp hu
      rw [ih (ht.merge hp h0 h1) (by rw [merge_apply]; simp), merge_apply]
      split_ifs with hm hc
      · simp [hm, hp]
      · have hj : j = i ∨ j = i ^^^ 1 := by
          by_cases hji : j = i
          · exact .inl hji
          · exact .inr (eq_xor_one hc.2 hji)
        rcases hj with rfl | rfl
        · simp [hc]
        · simp [hc, hbud]
      · have : ¬ (m = l + 1 ∧ j = i) := fun h => hc ⟨h.1, by rw [h.2]⟩
        simp [this, hm]

end release

section deallocate
variable {r : Region} {h : Heap} {k : Labels} {lists : Nat → List Nat} {l i : Nat}

theorem isSplit_below (ht : Tiling r.depth k) (hk : k l i = .live) (n : Nat) :
    isSplit k (l + n) (i * 2 ^ n) = false := by
  rcases Nat.eq_zero_or_pos n with rfl | hn
  · simp [isSplit, hk]
  · by_contra hc
    rw [isSplit, Bool.not_eq_false, decide_eq_true_eq] at hc
    have hs := ht.ancestor_split (show k (l + n) (i * 2 ^ n) ≠ .absent by simp [hc]) hn
    rw [Nat.mul_div_cancel _ (Nat.two_pow_pos n), hk] at hs
    simp at hs

theorem Core.findLevel (c : Core r h k lists (parity k)) (hk : k l i = .live) (n : Nat)
    (hn : l + n ≤ r.depth) : findLevel h (r.address l i) (l + n) = some l := by
  induction n with
  | zero =>
    cases l with
    | zero => rfl
    | succ l =>
      have hbound := c.present (show k (l + 1) i ≠ .absent by simp [hk])
      have hp : k l (i / 2) = .split := c.tiling.parent_split (by simp [hk])
      have hpi : i / 2 < 2 ^ l := c.tiling.index_lt (by simp [hp])
      rw [Nat.add_zero, Buddy.findLevel, c.shape.splitBitIndex_parent hbound.1 hbound.2,
        Option.bind_eq_bind, Option.bind_some, c.shape.splitBitmap,
        c.bits.getSplit hbound.1 hpi, isSplit, hp]
      rfl
  | succ n ih =>
    have hb : i * 2 ^ n < 2 ^ (l + n) := by
      rw [pow_add]
      exact Nat.mul_lt_mul_of_pos_right (c.tiling.index_lt (by simp [hk])) (Nat.two_pow_pos n)
    have hidx := c.shape.splitBitIndex_block (show l + n ≤ r.depth by omega) hb
    rw [← r.address_down i (by omega)] at hidx
    rw [show l + (n + 1) = l + n + 1 by omega, Buddy.findLevel, hidx, Option.bind_eq_bind,
      Option.bind_some, c.shape.splitBitmap, c.bits.getSplit (by omega) hb,
      isSplit_below c.tiling hk]
    exact ih (by omega)

theorem Core.allocationLevel (c : Core r h k lists (parity k)) (hk : k l i = .live) :
    allocationLevel h (r.address l i) = some l := by
  have hl := (c.present (show k l i ≠ .absent by simp [hk])).1
  rw [Buddy.allocationLevel, c.shape.maxLevel, show r.depth = l + (r.depth - l) by omega]
  exact c.findLevel hk _ (by omega)

theorem Represents.deallocateLevel (c : Represents r h k lists) (hk : k (l + 1) i = .live)
    (hc : CleanMerge r h k (l + 1) i) :
    ∃ h', allocatorDeallocateLevel h (r.address (l + 1) i) (l + 1 : Nat) = some h' ∧
      Represents r h' (releaseTree k (l + 1) i) (releaseLists k lists (l + 1) i) ∧
      SameOutside (Spare r lists (l + 1) i) h.mem h'.mem ∧
      ∀ S, Heads r S h.mem lists →
        Heads r (fun n => S n ∨ n = stopLevel k (l + 1) i) h'.mem
          (releaseLists k lists (l + 1) i) := by
  obtain ⟨c, hfree⟩ := c
  have hbound := c.present (show k (l + 1) i ≠ .absent by simp [hk])
  have hd := r.size_le
  have hg := r.leaf_ge
  set h1 : Heap := { h with alloc.freeSize := addSize h.alloc.freeSize (r.blockSize (l + 1)) }
    with hh1
  have hclean : CleanMerge r h1 k (l + 1) i :=
    CleanMerge.congr (h := h) (l + 1) i (fun _ _ => rfl) (fun _ _ _ _ => rfl)
      (fun _ _ _ _ => rfl) c.tiling (by simp [hk]) hc
  obtain ⟨h', hrel, hcore, hout, hfs, hheads⟩ := (c.withFreeSize _).release (l + 1) hk hclean
  refine ⟨h', ?_, ⟨hcore, ?_⟩, hout, hheads⟩
  · rw [allocatorDeallocateLevel, c.shape.spans.sizeFromLevel hbound.1, Option.bind_eq_bind,
      Option.bind_some, levelIndex_of_lt (by omega), Option.bind_some]
    rw [← hrel, Buddy.release, ← hh1]
    cases mergeUp h1 (r.address (l + 1) i) (l + 1) <;> rfl
  · have hsum := freeTotal_releaseLists (l + 1) c.tiling c.listed c.linked.nodup hk
    have hle := freeTotal_lt hcore.linked
    rw [hfs, hsum]
    rw [hsum] at hle
    change addSize h.alloc.freeSize _ = _
    rw [hfree, addSize]
    exact Nat.mod_eq_of_lt (by simp only [wordSize]; omega)

theorem Core.deallocate_eq (c : Core r h k lists (parity k)) (hk : k l i = .live) :
    allocatorDeallocate h (r.address l i) = allocatorDeallocateLevel h (r.address l i) (l : Nat) := by
  rw [allocatorDeallocate, c.allocationLevel hk]
  rfl

theorem Shape.deallocateFast_eq (s : Shape r.toManaged h.alloc) (block : Nat) {n size : Nat}
    (hn : 0 < n)
    (hle : n ≤ r.size) (hsize : Math.ceilToPowerOfTwo size = Math.ceilToPowerOfTwo n) :
    allocatorDeallocateFast h block size =
      allocatorDeallocateLevel h block (r.levelOf n : Nat) := by
  have hcl := r.clog_le hle
  rw [allocatorDeallocateFast, hsize, Math.ceilToPowerOfTwo_eq hn (hle.trans r.size_le_pow)]
  simp only [Option.bind_eq_bind, Option.bind_some, s.levelFromSize hcl]
  rfl

end deallocate

end Lasagne.Buddy
