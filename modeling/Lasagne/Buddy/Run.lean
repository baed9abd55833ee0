import Mathlib
import Lasagne.Buddy.Deallocate
import Lasagne.Buddy.Initial
import Lasagne.Library.PartialRun

namespace Lasagne.Buddy
open ByteMemory CInt SplitTree Bitmap

structure Block where
  start : Nat
  request : Nat
  deriving DecidableEq, Repr

def Block.size (b : Block) : Nat := (Math.ceilToPowerOfTwo b.request).getD 0

def Block.Covers (b : Block) (x : Nat) : Prop := b.start ≤ x ∧ x < b.start + b.size

instance (b : Block) (x : Nat) : Decidable (b.Covers x) :=
  inferInstanceAs (Decidable (_ ∧ _))

structure World where
  heap : Heap
  live : List Block

inductive Action where
  | allocate (size : Nat)
  | deallocate (block : Nat)
  | deallocateFast (block size : Nat)
  | store (address : Nat) (value : BitVec 8)
  deriving DecidableEq, Repr

def Action.isStore : Action → Bool
  | .store _ _ => true
  | _ => false

def owner (w : World) (block : Nat) : Option Block := w.live.find? fun b => b.start == block

def claim (w : World) (size : Nat) : Nat × Heap → Option World
  | (block, heap) => if empty block then none else some ⟨heap, ⟨block, size⟩ :: w.live⟩

-- only successful allocations and deallocations of live blocks are steps; a store is an owner's
def step (r : Region) (limit : Nat) (w : World) : Action → Option World
  | .allocate size =>
    if r.leafSize < 2 * size ∧ size ≤ limit then (allocatorAllocate w.heap size).bind (claim w size)
    else none
  | .deallocate block => do
    let b ← owner w block
    let heap ← allocatorDeallocate w.heap block
    return ⟨heap, w.live.erase b⟩
  | .deallocateFast block size => do
    let b ← owner w block
    if Math.ceilToPowerOfTwo size = Math.ceilToPowerOfTwo b.request then
      (allocatorDeallocateFast w.heap block size).map fun heap => ⟨heap, w.live.erase b⟩
    else none
  | .store address value =>
    if ∃ b ∈ w.live, b.Covers address then
      some ⟨{ w.heap with mem := storeByte w.heap.mem address value }, w.live⟩
    else none

-- follows the merges of a deallocation: a buddy that heads its free list must have no prev link
def mergesClean (h : Heap) (block : Nat) : Nat → Bool
  | 0 => true
  | level + 1 =>
    if getAllocationBit h block (level + 1 : Nat) = some 1 then
      match calculateBuddyAddress h.alloc block (level + 1 : Nat) with
      | none => true
      | some buddy =>
        (buddy != h.alloc.freeBlocks (level + 1) || empty (nodePrev h.mem buddy)) &&
          mergesClean h (min block buddy) level
    else true

def cleanRelease (h : Heap) (block : Nat) : Bool :=
  match allocationLevel h block with
  | none => true
  | some level => mergesClean h block level

def Action.released : Action → Option Nat
  | .deallocate block => some block
  | .deallocateFast block _ => some block
  | _ => none

def clean (w : World) (a : Action) : Bool :=
  match a.released with
  | none => true
  | some block => cleanRelease w.heap block

def keepsRoot (w : World) (a : Action) : Bool :=
  match a.released with
  | none => true
  | some block => allocationLevel w.heap block != some 0

def Placed (r : Region) (k : Labels) (b : Block) (level index : Nat) : Prop :=
  level = r.levelOf b.request ∧ k level index = .live ∧ b.start = r.address level index

structure Tracks (r : Region) (limit : Nat) (w : World) (k : Labels) (lists : Nat → List Nat) :
    Prop where
  represents : Represents r w.heap k lists
  fits : ∀ b ∈ w.live, r.leafSize < 2 * b.request ∧ b.request ≤ limit
  placed : ∀ b ∈ w.live, ∃ l i, Placed r k b l i
  owned : ∀ l i, k l i = .live → ∃ b ∈ w.live, Placed r k b l i
  distinct : (w.live.map Block.start).Nodup

theorem Represents.cleanMerge {r : Region} {h : Heap} {k : Labels} {lists : Nat → List Nat}
    (c : Represents r h k lists) (l : Nat) {i : Nat} (hu : (k l i).used = true)
    (hc : mergesClean h (r.address l i) l = true) : CleanMerge r h k l i := by
  induction l generalizing i with
  | zero => trivial
  | succ l ih =>
    have hk : k (l + 1) i ≠ .absent := by intro ha; simp [ha, Kind.used] at hu
    have hbound := c.core.present hk
    have hp : k l (i / 2) = .split := c.core.tiling.parent_split hk
    intro hfree
    rw [mergesClean, getAllocationBit_spec c.core.shape c.core.bits hbound.1 hbound.2,
      parity_parent hp hu, hfree, c.core.shape.calculateBuddyAddress hbound.1 hbound.2] at hc
    rw [if_pos (by decide), Bool.and_eq_true, Bool.or_eq_true] at hc
    have hmin : min (r.address (l + 1) i) (r.address (l + 1) (i ^^^ 1)) = r.address l (i / 2) := by
      rw [← min_address hbound.1]
      split <;> omega
    rw [hmin] at hc
    refine ⟨fun ha => ?_, ih (by rw [hp]; rfl) hc.2⟩
    simpa [ha, empty, allocatorEmpty] using hc.1

theorem Represents.cleanRelease {r : Region} {h : Heap} {k : Labels} {lists : Nat → List Nat}
    (c : Represents r h k lists) {l i : Nat} (hk : k l i = .live)
    (hc : cleanRelease h (r.address l i) = true) : CleanMerge r h k l i := by
  rw [Buddy.cleanRelease, c.core.allocationLevel hk] at hc
  exact c.cleanMerge l (by rw [hk]; rfl) hc

theorem Represents.congr {r : Region} {h : Heap} {k : Labels} {lists : Nat → List Nat}
    (c : Represents r h k lists) {m : Memory}
    (hm : SameOutside (fun x => ¬ r.InBitmaps x ∧ ¬ FreeBytes r lists x) h.mem m) :
    Represents r { h with mem := m } k lists where
  core := {
    shape := c.core.shape
    tiling := c.core.tiling
    coalesced := c.core.coalesced
    bits := c.core.bits.congr fun x hx => hm x fun hc => hc.1 hx
    linked := c.core.linked.congr rfl rfl fun x hx => hm x fun hc => hc.2 hx
    listed := c.core.listed }
  freeSize := c.freeSize

namespace Tracks
variable {r : Region} {limit : Nat} {w w' : World} {k : Labels} {lists : Nat → List Nat}
  {b : Block} {l i x : Nat}

theorem block_size (t : Tracks r limit w k lists) (hlim : limit ≤ r.size) (hb : b ∈ w.live)
    (hp : Placed r k b l i) : b.size = r.blockSize l := by
  obtain ⟨h1, h2⟩ := t.fits b hb
  have h30 : b.request ≤ 2 ^ 30 := (h2.trans hlim).trans r.size_le_pow
  rw [hp.1, r.blockSize_levelOf h1 (h2.trans hlim), Block.size,
    Math.ceilToPowerOfTwo_eq (by omega) h30]
  rfl

theorem covers_iff (t : Tracks r limit w k lists) (hlim : limit ≤ r.size) (hb : b ∈ w.live)
    (hp : Placed r k b l i) : b.Covers x ↔ r.InBlock l i x := by
  rw [Block.Covers, t.block_size hlim hb hp, hp.2.2, Region.InBlock]

theorem start_unique (t : Tracks r limit w k lists) {c : Block} (hb : b ∈ w.live) (hc : c ∈ w.live)
    (h : b.start = c.start) : b = c :=
  List.inj_on_of_nodup_map t.distinct hb hc h

theorem covered (t : Tracks r limit w k lists) (hlim : limit ≤ r.size) (hb : b ∈ w.live)
    (hx : b.Covers x) : ¬ r.InBitmaps x ∧ ¬ FreeBytes r lists x := by
  obtain ⟨l, i, hp⟩ := t.placed b hb
  rw [t.covers_iff hlim hb hp] at hx
  have hbound := t.represents.core.present (show k l i ≠ .absent by simp [hp.2.1])
  refine ⟨r.not_inBitmaps_of_inBlock hbound.1 hbound.2 hx, ?_⟩
  rintro ⟨m, j, hj, hy⟩
  obtain ⟨rfl, rfl⟩ := r.inBlock_unique t.represents.core.tiling (by rw [hp.2.1]; rfl)
    (t.represents.core.listed_leaf hj) hx hy
  rw [t.represents.core.listed, hp.2.1] at hj
  simp at hj

theorem apart (t : Tracks r limit w k lists) (hlim : limit ≤ r.size) (hb : b ∈ w.live)
    (hx : b.Covers x) (hl : (k l i).isLeaf) (hy : r.InBlock l i x) : Placed r k b l i := by
  obtain ⟨m, j, hp⟩ := t.placed b hb
  rw [t.covers_iff hlim hb hp] at hx
  obtain ⟨rfl, rfl⟩ := r.inBlock_unique t.represents.core.tiling (by rw [hp.2.1]; rfl) hl hx hy
  exact hp

theorem allocate (t : Tracks r limit w k lists) (hlim : limit ≤ r.size) {n p : Nat} {h' : Heap}
    (hn : r.leafSize < 2 * n ∧ n ≤ limit) (ha : allocatorAllocate w.heap n = some (p, h'))
    (hp : p ≠ allocatorEmpty) :
    (∃ k' lists', Tracks r limit ⟨h', ⟨p, n⟩ :: w.live⟩ k' lists') ∧
      ∀ b ∈ w.live, ∀ x, b.Covers x → h'.mem x = w.heap.mem x := by
  obtain ⟨-, hnone⟩ | ⟨s, i, rest, h1, ha', hserved⟩ :=
    t.represents.allocate hn.1 (hn.2.trans hlim)
  · exact absurd (hnone p h' ha) hp
  rw [ha, Option.some.injEq, Prod.mk.injEq] at ha'
  obtain ⟨hpa, rfl⟩ := ha'
  have hlev := r.levelOf_le hn.1
  have hle := hserved.level_le
  have hfree := hserved.source_free t.represents
  have hleaf : (k s i).isLeaf := by rw [hfree]; rfl
  have hstart : p = r.address s i := by
    rw [hpa, r.address_down i (hserved.level_bound hlev),
      show s + (r.levelOf n - s) = r.levelOf n by omega]
  have hiff := hserved.live_iff t.represents hlev
  obtain ⟨-, -, -, hrep, hout, -⟩ := hserved
  refine ⟨⟨_, _, hrep, ?_, ?_, ?_, ?_⟩, fun b hb x hx => hout x ?_⟩
  · intro b hb
    rcases List.mem_cons.mp hb with rfl | hb
    · exact hn
    · exact t.fits b hb
  · intro b hb
    rcases List.mem_cons.mp hb with rfl | hb
    · exact ⟨_, _, rfl, (hiff _ _).mpr (.inl ⟨rfl, rfl⟩), hpa⟩
    · obtain ⟨l, j, hp⟩ := t.placed b hb
      exact ⟨l, j, hp.1, (hiff _ _).mpr (.inr hp.2.1), hp.2.2⟩
  · intro m j hm
    rcases (hiff m j).mp hm with ⟨rfl, rfl⟩ | hm'
    · exact ⟨⟨p, n⟩, by simp, rfl, hm, hpa⟩
    · obtain ⟨b, hb, hp⟩ := t.owned m j hm'
      exact ⟨b, List.mem_cons_of_mem _ hb, hp.1, hm, hp.2.2⟩
  · rw [List.map_cons, List.nodup_cons]
    refine ⟨fun hmem => ?_, t.distinct⟩
    obtain ⟨b, hb, hbs⟩ := List.mem_map.mp hmem
    obtain ⟨l, j, hp⟩ := t.placed b hb
    have hx : b.Covers p := by
      rw [t.covers_iff hlim hb hp, show p = r.address l j from hbs.symm.trans hp.2.2]
      exact r.header_inBlock le_rfl (by omega)
    have := (t.apart hlim hb hx hleaf (hstart ▸ r.header_inBlock le_rfl (by omega))).2.1
    simp [hfree] at this
  · rintro (hc | hc)
    · exact (t.covered hlim hb hx).1 hc
    · exact (t.covered hlim hb hx).2 hc

theorem release (t : Tracks r limit w k lists) (hlim : limit ≤ r.size) (hb : b ∈ w.live)
    (hp : Placed r k b l i) {h' : Heap}
    (hrep : Represents r h' (releaseTree k l i) (releaseLists k lists l i))
    (hout : SameOutside (Spare r lists l i) w.heap.mem h'.mem) :
    Tracks r limit ⟨h', w.live.erase b⟩ (releaseTree k l i) (releaseLists k lists l i) ∧
      ∀ c ∈ w.live.erase b, ∀ x, c.Covers x → h'.mem x = w.heap.mem x := by
  have hnd : w.live.Nodup := t.distinct.of_map _
  have hiff := live_releaseTree l t.represents.core.tiling hp.2.1
  have hother {c : Block} (hc : c ∈ w.live.erase b) {m j : Nat} (hpc : Placed r k c m j) :
      ¬ (m = l ∧ j = i) := by
    rintro ⟨rfl, rfl⟩
    rw [hnd.mem_erase_iff] at hc
    exact hc.1 (t.start_unique hc.2 hb (hpc.2.2.trans hp.2.2.symm))
  refine ⟨⟨hrep, fun c hc => t.fits c (List.mem_of_mem_erase hc), ?_, ?_, ?_⟩,
    fun c hc x hx => hout x ?_⟩
  · intro c hc
    obtain ⟨m, j, hpc⟩ := t.placed c (List.mem_of_mem_erase hc)
    exact ⟨m, j, hpc.1, (hiff m j).mpr ⟨hpc.2.1, hother hc hpc⟩, hpc.2.2⟩
  · intro m j hm
    obtain ⟨hm', hne⟩ := (hiff m j).mp hm
    obtain ⟨c, hc, hpc⟩ := t.owned m j hm'
    refine ⟨c, hnd.mem_erase_iff.mpr ⟨?_, hc⟩, hpc.1, hm, hpc.2.2⟩
    rintro rfl
    have hlm : m = l := hpc.1.trans hp.1.symm
    subst hlm
    exact hne ⟨rfl, r.address_inj (hpc.2.2.symm.trans hp.2.2)⟩
  · exact t.distinct.sublist ((List.erase_sublist).map _)
  · have hcl := List.mem_of_mem_erase hc
    rintro (hy | hy | hy)
    · exact (t.covered hlim hcl hx).1 hy
    · exact (t.covered hlim hcl hx).2 hy
    · exact hother hc (t.apart hlim hcl hx (by rw [hp.2.1]; rfl) hy) ⟨rfl, rfl⟩

theorem write (t : Tracks r limit w k lists) (hlim : limit ≤ r.size) {m : Memory}
    (hm : SameOutside (fun x => ∃ b ∈ w.live, b.Covers x) w.heap.mem m) :
    Tracks r limit ⟨{ w.heap with mem := m }, w.live⟩ k lists where
  represents := t.represents.congr (hm.mono fun _ ⟨_, hb, hx⟩ => t.covered hlim hb hx)
  fits := t.fits
  placed := t.placed
  owned := t.owned
  distinct := t.distinct

theorem store (t : Tracks r limit w k lists) (hlim : limit ≤ r.size) (hb : b ∈ w.live)
    (hx : b.Covers x) (v : BitVec 8) :
    Tracks r limit ⟨{ w.heap with mem := storeByte w.heap.mem x v }, w.live⟩ k lists :=
  t.write hlim (sameOutside_storeByte ⟨b, hb, hx⟩)

theorem owner_spec (t : Tracks r limit w k lists) {block : Nat} (ho : owner w block = some b) :
    b ∈ w.live ∧ ∃ l i, Placed r k b l i ∧ block = r.address l i := by
  have hb := List.mem_of_find?_eq_some ho
  have hs := List.find?_some ho
  rw [beq_iff_eq] at hs
  obtain ⟨l, i, hp⟩ := t.placed b hb
  exact ⟨hb, l, i, hp, hs.symm.trans hp.2.2⟩

theorem deallocate (t : Tracks r limit w k lists) (hlim : limit ≤ r.size) {block : Nat}
    (ho : owner w block = some b) (hclean : cleanRelease w.heap block = true)
    (hroot : allocationLevel w.heap block ≠ some 0) :
    ∃ h', allocatorDeallocate w.heap block = some h' ∧
      (∀ size, Math.ceilToPowerOfTwo size = Math.ceilToPowerOfTwo b.request →
        allocatorDeallocateFast w.heap block size = some h') ∧
      (∃ k' lists', Tracks r limit ⟨h', w.live.erase b⟩ k' lists') ∧
      ∀ c ∈ w.live.erase b, ∀ x, c.Covers x → h'.mem x = w.heap.mem x := by
  obtain ⟨hb, l, i, hp, rfl⟩ := t.owner_spec ho
  have hfits := t.fits b hb
  have hk := hp.2.1
  have hl := t.represents.core.allocationLevel hk
  have hm := t.represents.cleanRelease hk hclean
  obtain ⟨l, rfl⟩ : ∃ n, l = n + 1 := by
    cases l with
    | zero => exact absurd hl hroot
    | succ n => exact ⟨n, rfl⟩
  obtain ⟨h', hd, hrep, hout, -⟩ := t.represents.deallocateLevel hk hm
  obtain ⟨ht, hkeep⟩ := t.release hlim hb hp hrep hout
  refine ⟨h', ?_, fun size hsize => ?_, ⟨_, _, ht⟩, hkeep⟩
  · rw [t.represents.core.deallocate_eq hk]
    exact hd
  · rw [t.represents.core.shape.deallocateFast_eq _ (show 0 < b.request by omega)
      (hfits.2.trans hlim) hsize, ← hp.1]
    exact hd

theorem step (t : Tracks r limit w k lists) (hlim : limit ≤ r.size) {a : Action}
    (hclean : clean w a = true) (hroot : keepsRoot w a = true) (hs : step r limit w a = some w') :
    (∃ k' lists', Tracks r limit w' k' lists') ∧
      (a.isStore = false → ∀ b ∈ w.live, b ∈ w'.live → ∀ x, b.Covers x →
        w'.heap.mem x = w.heap.mem x) := by
  cases a with
  | allocate size =>
    rw [Buddy.step] at hs
    split at hs
    next hn =>
      obtain ⟨⟨p, h'⟩, ha, hc⟩ := Option.bind_eq_some_iff.mp hs
      rw [claim] at hc
      split at hc
      next => simp at hc
      next hp =>
        obtain rfl := Option.some.inj hc
        obtain ⟨ht, hkeep⟩ := t.allocate hlim hn ha (by simpa [empty] using hp)
        exact ⟨ht, fun _ b hb _ => hkeep b hb⟩
    next => simp at hs
  | deallocate block =>
    obtain ⟨b, ho, hs⟩ := Option.bind_eq_some_iff.mp hs
    obtain ⟨h', hd, -, ht, hkeep⟩ := t.deallocate hlim ho hclean (bne_iff_ne.mp hroot)
    rw [hd] at hs
    obtain rfl := Option.some.inj hs
    exact ⟨ht, fun _ c _ hc => hkeep c hc⟩
  | deallocateFast block size =>
    obtain ⟨b, ho, hs⟩ := Option.bind_eq_some_iff.mp hs
    obtain ⟨h', -, hd, ht, hkeep⟩ := t.deallocate hlim ho hclean (bne_iff_ne.mp hroot)
    split at hs
    next hsize =>
      rw [hd size hsize] at hs
      obtain rfl := Option.some.inj hs
      exact ⟨ht, fun _ c _ hc => hkeep c hc⟩
    next => simp at hs
  | store address value =>
    rw [Buddy.step] at hs
    split at hs
    next hx =>
      obtain ⟨b, hb, hx⟩ := hx
      obtain rfl := Option.some.inj hs
      exact ⟨⟨k, lists, t.store hlim hb hx value⟩, fun hf => by simp [Action.isStore] at hf⟩
    next => simp at hs

end Tracks

end Lasagne.Buddy
