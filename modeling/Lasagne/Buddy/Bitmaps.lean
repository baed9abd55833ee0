import Mathlib
import Lasagne.Buddy.Placement

namespace Lasagne.Buddy
open ByteMemory CInt Bitmap PartialRun SplitTree

def use (w : World) : Action → Option World
  | .allocate size => (allocatorAllocate w.heap size).bind (claim w size)
  | .deallocate block => do
    let b ← owner w block
    let heap ← allocatorDeallocate w.heap block
    return ⟨heap, w.live.erase b⟩
  | .deallocateFast block size => do
    let b ← owner w block
    let heap ← allocatorDeallocateFast w.heap block size
    return ⟨heap, w.live.erase b⟩
  | .store _ _ => none

def InBitmap (a : Allocator) (x : Nat) : Prop :=
  a.allocationBitmap ≤ x ∧ x < a.allocationBitmap + bitmapBytes a ∨
    a.splitBitmap ≤ x ∧ x < a.splitBitmap + bitmapBytes a

def World.OffBitmaps (w : World) : Prop :=
  ∀ b ∈ w.live, ∀ x, InBitmap w.heap.alloc x → ¬ b.Covers x

namespace Layout

def boot (y : Layout) (m : Memory) : Option World :=
  (allocatorInit m y.base y.size y.leafSize y.bitmaps).map fun heap => ⟨heap, []⟩

def BitmapsReserved (y : Layout) (m : Memory) : Prop :=
  (y.boot m).isSome ∧ ∀ as w, (y.boot m).bind (run use · as) = some w →
    (allocatorAllocate w.heap (2 ^ y.chunkBits)).isSome ∧ w.OffBitmaps

section path
variable {y : Layout} {x l m : Nat}

def path (y : Layout) (x l : Nat) : Nat := x / 2 ^ (y.bottom - l)

theorem path_bottom : y.path x y.bottom = x := by
  rw [path, Nat.sub_self, pow_zero, Nat.div_one]

theorem path_up (hm : m ≤ l) (hl : l ≤ y.bottom) : y.path x l / 2 ^ (l - m) = y.path x m := by
  rw [path, path, Nat.div_div_eq_div_mul, ← pow_add]
  congr 2
  omega

theorem path_lt (hx : x < 2 ^ y.bottom) (hl : l ≤ y.bottom) : y.path x l < 2 ^ l := by
  rw [path, Nat.div_lt_iff_lt_mul (Nat.two_pow_pos _), ← pow_add]
  rwa [show l + (y.bottom - l) = y.bottom by omega]

structure Turn (y : Layout) (x l : Nat) : Prop where
  level_pos : 1 ≤ l
  level_le : l ≤ y.bottom
  even : y.path x l % 2 = 0
  odd : ∀ m, l < m → m ≤ y.bottom → y.path x m % 2 = 1
  above : ∀ m, m < l → y.path (x + 1) m = y.path x m
  below : ∀ m, l ≤ m → m ≤ y.bottom → y.path (x + 1) m = (y.path x l + 1) * 2 ^ (m - l)

theorem exists_turn (hx : x + 1 < 2 ^ y.bottom) : ∃ l, Turn y x l := by
  obtain ⟨j, hj, h0, h1⟩ := exists_low_zero hx
  have hlevel : y.path x (y.bottom - j) = x / 2 ^ j := by
    rw [path, show y.bottom - (y.bottom - j) = j by omega]
  refine ⟨y.bottom - j, by omega, by omega, by rw [hlevel]; exact h0, fun m hm hm' => ?_,
    fun m hm => ?_, fun m hm hm' => ?_⟩
  · exact h1 (y.bottom - m) (by omega)
  · exact succ_div_high h1 h0 (by omega)
  · rw [hlevel, path, succ_div_low h1 (by omega)]
    congr 2
    omega

theorem Turn.chunk (t : Turn y x l) :
    y.chunks.address l (y.path x l + 1) = y.chunks.address y.bottom (x + 1) := by
  rw [address_bottom t.level_le, ← t.below y.bottom t.level_le le_rfl, path_bottom]

theorem Turn.end_le (t : Turn y x l) (hm : m < l) :
    y.chunks.address l (y.path x l + 1) + y.chunks.blockSize l ≤
      y.chunks.address m (y.path x m + 1) := by
  have hbot := y.bottom_add
  have hle := t.level_le
  have hnext : y.path (x + 1) l = y.path x l + 1 := by
    rw [t.below l le_rfl hle, Nat.sub_self, pow_zero, Nat.mul_one]
  have hdiv : (y.path x l + 1) / 2 ^ (l - m) = y.path x m := by
    rw [← hnext, path_up hm.le hle, t.above m hm]
  have hlt : y.path x l + 1 < (y.path x m + 1) * 2 ^ (l - m) := by
    rw [← Nat.div_lt_iff_lt_mul (Nat.two_pow_pos _), hdiv]
    exact Nat.lt_succ_self _
  have hsize : y.chunks.blockSize m = 2 ^ (l - m) * y.chunks.blockSize l := by
    have h := y.chunks.blockSize_add (show m + (l - m) ≤ y.bottom by omega)
    rwa [show m + (l - m) = l by omega] at h
  rw [Blocks.address, Blocks.address, hsize, ← Nat.mul_assoc, Nat.add_assoc, ← Nat.succ_mul]
  exact Nat.add_le_add_left (Nat.mul_le_mul_right _ hlt) _

end path

-- chunks 0 to x are handed out; what is left are the right halves beside the way down to x
structure Piled (y : Layout) (x : Nat) (h : Heap) : Prop where
  shape : Shape y.toManaged h.alloc
  freeSize : h.alloc.freeSize = y.size - (x + 1) * 2 ^ y.chunkBits
  lists : ∀ l, 1 ≤ l → l ≤ y.bottom → h.alloc.freeBlocks l =
    if y.path x l % 2 = 0 then y.chunks.address l (y.path x l + 1) else allocatorEmpty
  ends : ∀ l, 1 ≤ l → l ≤ y.bottom → y.path x l % 2 = 0 →
    y.chunks.address l (y.path x l + 1) < y.first →
    nodeNext h.mem (y.chunks.address l (y.path x l + 1)) = allocatorEmpty

section served
variable {y : Layout} {h h' : Heap} {x l i m : Nat}

theorem Served.lists_above (s : Served y h h' l i) (hm : m < l) :
    h'.alloc.freeBlocks m = h.alloc.freeBlocks m := by
  obtain ⟨h₁, c, hblocks, -⟩ := s.cut
  rw [hblocks, c.others m (.inl hm.le)]
  exact Function.update_of_ne hm.ne _ _

theorem Served.list_at (s : Served y h h' l i) :
    h'.alloc.freeBlocks l = nodeNext h.mem (h.alloc.freeBlocks l) := by
  obtain ⟨h₁, c, hblocks, -⟩ := s.cut
  rw [hblocks, c.others l (.inl le_rfl)]
  exact Function.update_self _ _ _

theorem Served.lists_below (s : Served y h h' l i) (hl : l < m) (hm : m ≤ y.bottom) :
    h'.alloc.freeBlocks m = y.chunks.address m (i * 2 ^ (m - l) + 1) := by
  obtain ⟨h₁, c, hblocks, -⟩ := s.cut
  obtain ⟨j, rfl⟩ := Nat.exists_eq_add_of_le (show l + 1 ≤ m from hl)
  rw [hblocks, c.halves j (by omega), show l + 1 + j - l = 1 + j by omega]

theorem Served.ends_below (s : Served y h h' l i) (u : y.Usable) (hl : l < m) (hm : m ≤ y.bottom)
    (hlt : y.chunks.address m (i * 2 ^ (m - l) + 1) < y.first) :
    nodeNext h'.mem (y.chunks.address m (i * 2 ^ (m - l) + 1)) = allocatorEmpty := by
  obtain ⟨h₁, c, -, hmem⟩ := s.cut
  obtain ⟨j, rfl⟩ := Nat.exists_eq_add_of_le (show l + 1 ≤ m from hl)
  have hbefore := header_before u hm hlt
  rw [show l + 1 + j - l = 1 + j by omega] at hlt hbefore ⊢
  rw [nodeNext_congr hmem fun p hp hp' => ?_, c.ends j (by omega) hlt]
  rw [Behind]
  omega

theorem Served.kept (s : Served y h h' l i) {p : Nat} (hp : p + 16 ≤ y.first)
    (hend : y.chunks.address l i + y.chunks.blockSize l ≤ p) :
    nodeNext h'.mem p = nodeNext h.mem p := by
  obtain ⟨h₁, c, -, hmem⟩ := s.cut
  rw [nodeNext_congr hmem fun q hq hq' => ?_, nodeNext_congr c.mem fun q hq hq' => ?_]
  · rfl
  · rw [Behind]
    omega
  · rw [Behind]
    omega

theorem charge_le (hx : x < 2 ^ y.bottom) : (x + 1) * 2 ^ y.chunkBits ≤ y.size := by
  have hunit : 2 ^ y.chunkBits ≤ y.chunks.leafSize := Nat.le_mul_of_pos_left _ y.unit_pos
  rw [← chunks_size, Blocks.size, Nat.mul_comm y.chunks.leafSize]
  exact Nat.mul_le_mul hx hunit

theorem subSize_charge (hx : x + 1 < 2 ^ y.bottom) :
    subSize (y.size - (x + 1) * 2 ^ y.chunkBits) (2 ^ y.chunkBits) =
      y.size - (x + 1 + 1) * 2 ^ y.chunkBits := by
  have hle := charge_le hx
  have hlim : y.size < 18446744073709551616 := y.size_lt
  have hpos : 0 < 2 ^ y.chunkBits := Nat.two_pow_pos _
  rw [Nat.succ_mul (x + 1)] at hle ⊢
  simp only [subSize, wordSize]
  omega

theorem Served.piled_first (s : Served y h h' 0 0) (u : y.Usable)
    (hsize : h.alloc.freeSize = y.size) : Piled y 0 h' := by
  have hpath (m : Nat) : y.path 0 m = 0 := Nat.zero_div _
  refine ⟨s.shape, ?_, fun m hm hm' => ?_, fun m hm hm' _ hlt => ?_⟩
  · have hle := charge_le (y := y) (Nat.two_pow_pos y.bottom)
    have hlim : y.size < 18446744073709551616 := y.size_lt
    have hpos : 0 < 2 ^ y.chunkBits := Nat.two_pow_pos _
    rw [s.freeSize, hsize]
    simp only [subSize, wordSize]
    omega
  · have h := s.lists_below hm hm'
    rw [Nat.zero_mul] at h
    rw [hpath, if_pos rfl]
    exact h
  · have h := s.ends_below u hm hm'
    rw [Nat.zero_mul] at h
    rw [hpath] at hlt ⊢
    exact h hlt

theorem Piled.next (p : Piled y x h) (u : y.Usable) (hx : x + 1 < 2 ^ y.bottom) (t : Turn y x l)
    (s : Served y h h' l (y.path x l + 1))
    (hend : nodeNext h.mem (y.chunks.address l (y.path x l + 1)) = allocatorEmpty) :
    Piled y (x + 1) h' := by
  have hle := t.level_le
  have hhead := p.lists l t.level_pos hle
  rw [if_pos t.even] at hhead
  have hat : y.path (x + 1) l = y.path x l + 1 := by
    rw [t.below l le_rfl hle, Nat.sub_self, pow_zero, Nat.mul_one]
  have hodd : ¬ y.path (x + 1) l % 2 = 0 := by
    have := t.even
    omega
  have heven (m : Nat) (hm : l < m) (hm' : m ≤ y.bottom) : y.path (x + 1) m % 2 = 0 := by
    rw [t.below m hm.le hm', show m - l = m - l - 1 + 1 by omega, pow_succ, ← Nat.mul_assoc]
    exact Nat.mul_mod_left _ _
  refine ⟨s.shape, ?_, fun m hm hm' => ?_, fun m hm hm' heq hlt => ?_⟩
  · rw [s.freeSize, p.freeSize, subSize_charge hx]
  · rcases lt_trichotomy m l with hml | rfl | hml
    · rw [s.lists_above hml, p.lists m hm hm', t.above m hml]
    · rw [if_neg hodd, s.list_at, hhead, hend]
    · rw [if_pos (heven m hml hm'), s.lists_below hml hm', t.below m hml.le hm']
  · rcases lt_trichotomy m l with hml | rfl | hml
    · rw [t.above m hml] at heq hlt ⊢
      rw [s.kept (header_before u hm' hlt) (t.end_le hml)]
      exact p.ends m hm hm' heq hlt
    · exact absurd heq hodd
    · rw [t.below m hml.le hm'] at hlt ⊢
      exact s.ends_below u hml hm' hlt

theorem Piled.allocate (p : Piled y x h) (u : y.Usable) (hx : x < y.taken) :
    ∃ h', allocatorAllocate h (2 ^ y.chunkBits) = some (y.chunks.address y.bottom (x + 1), h') ∧
      Shape y.toManaged h'.alloc ∧ (x + 1 < y.taken → Piled y (x + 1) h') := by
  have htaken := y.taken_lt u
  have hx' : x + 1 < 2 ^ y.bottom := by omega
  have hpos : 0 < 2 ^ y.chunkBits := Nat.two_pow_pos _
  obtain ⟨l, t⟩ := exists_turn hx'
  have hle := t.level_le
  have hhead := p.lists l t.level_pos hle
  rw [if_pos t.even] at hhead
  have hfree : 2 ^ y.chunkBits ≤ h.alloc.freeSize := by
    have hcharge := charge_le hx'
    rw [Nat.succ_mul] at hcharge
    rw [p.freeSize]
    omega
  have hi : y.path x l + 1 < 2 ^ l := by
    have hlt := path_lt hx' hle
    rwa [t.below l le_rfl hle, Nat.sub_self, pow_zero, Nat.mul_one] at hlt
  obtain ⟨h', ha, hs⟩ := allocate_address p.shape u hfree hle hi hhead fun m hm hm' => by
    rw [p.lists m (by omega) hm', if_neg (by have := t.odd m hm hm'; omega)]
  rw [t.chunk] at ha
  refine ⟨h', ha, p.shape.congr (fixed_allocate ha), fun hlt => ?_⟩
  have hbefore : y.chunks.address l (y.path x l + 1) < y.first := by
    rw [t.chunk, y.first_eq u, Blocks.address, Blocks.address]
    exact Nat.add_lt_add_left (Nat.mul_lt_mul_of_pos_right hlt (y.chunks.blockSize_pos _)) _
  have hend := p.ends l t.level_pos hle t.even hbefore
  exact p.next u hx' t (hs (.inr hend)) hend

end served

section run
variable {y : Layout} {w w₀ : World} {m : Memory}

theorem boot_eq (u : y.Usable) (m : Memory) : y.boot m = some ⟨y.initialHeap m, []⟩ := by
  have hpow : 0 < 2 ^ y.depth := Nat.two_pow_pos _
  have hlim := y.base_add_size_le
  obtain ⟨-, hin⟩ := y.first_leaf u
  rw [boot, y.allocatorInit_eq u.depth_le (by rw [Blocks.bitmapSize]; omega), Option.map_some]

theorem allocate_first (u : y.Usable) (m : Memory) :
    ∃ h', allocatorAllocate (y.initialHeap m) (2 ^ y.chunkBits) =
        some (y.chunks.address y.bottom 0, h') ∧
      Shape y.toManaged h'.alloc ∧ (0 < y.taken → Piled y 0 h') := by
  have s : Shape y.toManaged (y.initialHeap m).alloc := y.shape_initialAllocator
  have hsize : (y.initialHeap m).alloc.freeSize = y.size := rfl
  have hfree : 2 ^ y.chunkBits ≤ (y.initialHeap m).alloc.freeSize := by
    have hle := charge_le (y := y) (Nat.two_pow_pos y.bottom)
    rw [hsize]
    omega
  have hroot : y.chunks.address 0 0 = y.base := by
    rw [Blocks.address, Nat.zero_mul, Nat.add_zero, chunks_base]
  have hchunk : y.chunks.address 0 0 = y.chunks.address y.bottom 0 := by
    rw [Blocks.address, Blocks.address, Nat.zero_mul, Nat.zero_mul]
  obtain ⟨h', ha, hs⟩ := allocate_address s u hfree (Nat.zero_le _) (by simp) hroot.symm
    fun l hl _ => if_neg (by omega)
  rw [hchunk] at ha
  refine ⟨h', ha, s.congr (fixed_allocate ha), fun hpos => ?_⟩
  have hbot : 0 < y.bottom := by
    by_contra hb
    have htaken := y.taken_lt u
    rw [show y.bottom = 0 by omega, pow_zero] at htaken
    omega
  exact (hs (.inl hbot)).piled_first u hsize

theorem use_allocate {h' : Heap} {n block : Nat}
    (ha : allocatorAllocate w.heap n = some (block, h')) (hne : block ≠ allocatorEmpty) :
    use w (.allocate n) = some ⟨h', ⟨block, n⟩ :: w.live⟩ := by
  rw [use, ha, Option.bind_some, claim, if_neg (by simpa [empty] using hne)]

theorem reach_chunk (u : y.Usable) (m : Memory) {x : Nat} (hx : x ≤ y.taken) :
    ∃ w, run use ⟨y.initialHeap m, []⟩ (List.replicate (x + 1) (.allocate (2 ^ y.chunkBits))) =
        some w ∧
      ⟨y.chunks.address y.bottom x, 2 ^ y.chunkBits⟩ ∈ w.live ∧ Shape y.toManaged w.heap.alloc ∧
      (x < y.taken → Piled y x w.heap) := by
  induction x with
  | zero =>
    obtain ⟨h', ha, s, hp⟩ := allocate_first u m
    refine ⟨_, run_cons.mpr ⟨_, use_allocate ha (y.address_pos u _ _).ne', rfl⟩, ?_, s, hp⟩
    exact List.mem_cons_self
  | succ x ih =>
    obtain ⟨w, hrun, -, -, hpiled⟩ := ih (by omega)
    obtain ⟨h', ha, s, hp⟩ := (hpiled (by omega)).allocate u (by omega)
    have hstep := use_allocate ha (y.address_pos u _ _).ne'
    refine ⟨⟨h', ⟨_, _⟩ :: w.live⟩, ?_, List.mem_cons_self, s, hp⟩
    rw [List.replicate_succ', run_append, hrun, Option.bind_some]
    exact run_cons.mpr ⟨_, hstep, rfl⟩

theorem not_reserved (u : y.Usable) (m : Memory) : ¬ y.BitmapsReserved m := by
  intro hall
  have hk := y.chunkBits_le
  obtain ⟨w, hrun, hlive, s, -⟩ := reach_chunk u m le_rfl
  have hround := Math.ceilToPowerOfTwo_two_pow hk.1
  have hboot : (y.boot m).bind (run use · (List.replicate (y.taken + 1)
      (.allocate (2 ^ y.chunkBits)))) = some w := by
    rw [boot_eq u m]
    exact hrun
  have hbytes : bitmapBytes w.heap.alloc = y.bitmapSize := by
    rw [bitmapBytes, s.bitmapEntries, y.bitmapSize_entries u.depth_le]
  refine (hall.2 _ w hboot).2 _ hlive y.first (.inl ?_) ?_
  · rw [s.allocationBitmap, hbytes, Blocks.bitmapSize]
    omega
  · rw [Block.Covers, Block.size, hround, Option.getD_some, ← y.first_eq u]
    exact ⟨le_rfl, Nat.lt_add_of_pos_right (Nat.two_pow_pos _)⟩

end run

section idle
variable {y : Layout} {m : Memory} {h h' : Heap}

def Idle (h : Heap) : Prop :=
  ∀ n block h', allocatorAllocate h n = some (block, h') → block = allocatorEmpty

theorem run_of_idle (hi : Idle h) {as : List Action} {w : World}
    (hrun : run use ⟨h, []⟩ as = some w) : w = ⟨h, []⟩ := by
  cases as with
  | nil => exact (Option.some.inj hrun).symm
  | cons a as =>
    obtain ⟨v, hv, -⟩ := run_cons.mp hrun
    exfalso
    cases a with
    | allocate n =>
      obtain ⟨⟨block, h'⟩, ha, hc⟩ := Option.bind_eq_some_iff.mp hv
      obtain rfl := hi n block h' ha
      exact absurd hc (by simp [claim, empty])
    | deallocate block =>
      rw [use] at hv
      obtain ⟨b, hb, -⟩ := Option.bind_eq_some_iff.mp hv
      exact absurd hb (by simp [owner])
    | deallocateFast block size =>
      rw [use] at hv
      obtain ⟨b, hb, -⟩ := Option.bind_eq_some_iff.mp hv
      exact absurd hb (by simp [owner])
    | store address value => exact absurd hv (by simp [use])

theorem init_fields {memory size leafSize bitmaps : Nat}
    (hinit : allocatorInit m memory size leafSize bitmaps = some h) :
    h.alloc.memory = memory ∧ h.alloc.size = size ∧ h.alloc.freeSize = size ∧
      h.alloc.freeBlocks = fun level => if level = 0 then memory else allocatorEmpty := by
  obtain ⟨maxLevel, -, hinit⟩ := Option.bind_eq_some_iff.mp hinit
  obtain ⟨one, -, hinit⟩ := Option.bind_eq_some_iff.mp hinit
  obtain ⟨entries, -, hinit⟩ := Option.bind_eq_some_iff.mp hinit
  obtain rfl := Option.some.inj hinit
  exact ⟨rfl, rfl, rfl, rfl⟩

theorem init_empty (hbase : y.base = 0)
    (hinit : allocatorInit m y.base y.size y.leafSize y.bitmaps = some h) (l : Nat) :
    h.alloc.freeBlocks l = allocatorEmpty := by
  obtain ⟨-, -, -, hblocks⟩ := init_fields hinit
  rw [hblocks, hbase]
  exact ite_self _

theorem idle_of_empty (hempty : ∀ l, h.alloc.freeBlocks l = allocatorEmpty) : Idle h := by
  intro n block h' ha
  obtain ⟨size, -, ⟨-, rfl, -⟩ | ⟨-, level, index, h₁, h₂, -, -, ho, -, -⟩⟩ := allocate_cases ha
  · rfl
  obtain ⟨hne, -⟩ | ⟨-, rfl, -⟩ | ⟨source, -, hne, -⟩ := obtainBlock_cases ho
  · exact absurd (hempty _) hne
  · rfl
  · exact absurd (hempty _) hne

theorem split_index {block level : Nat} (hs : split h block level = some h') :
    ∃ size index, (if size = 0 then none else some (toInt (subSize block h.alloc.memory / size))).bind
      (uniqueIndex level) = some index := by
  obtain ⟨_, -, hs⟩ := Option.bind_eq_some_iff.mp hs
  obtain ⟨index, hindex, -⟩ := Option.bind_eq_some_iff.mp hs
  obtain ⟨levelIndex, hlevel, hunique⟩ := Option.bind_eq_some_iff.mp hindex
  obtain ⟨size, -, hlevel⟩ := Option.bind_eq_some_iff.mp hlevel
  exact ⟨size, index, Option.bind_eq_some_iff.mpr ⟨levelIndex, hlevel, hunique⟩⟩

-- 1 << 31 is negative: the first block of level 31 has no split bit
theorem split_deep {block : Nat} (hm : h.alloc.memory = block) : split h block 31 ≠ some h' := by
  intro hs
  obtain ⟨size, index, hindex⟩ := split_index hs
  have hsub : subSize block h.alloc.memory = 0 := by
    simp only [hm, subSize, wordSize]
    omega
  have hunique : uniqueIndex ((31 : Nat) : Int) (toInt 0) = none := by decide
  rw [hsub, Nat.zero_div] at hindex
  split at hindex
  next => exact absurd hindex (by simp)
  next =>
    rw [Option.bind_some, hunique] at hindex
    exact absurd hindex (by simp)

theorem splitDown_deep {block : Nat} (n : Nat) {h : Heap} {l : Nat} (hm : h.alloc.memory = block)
    (hl : l ≤ 31) (hn : 31 < l + n) : splitDown h block l n = none := by
  induction n generalizing h l with
  | zero => omega
  | succ n ih =>
    rw [splitDown]
    rcases Nat.lt_or_eq_of_le hl with hlt | rfl
    · cases hs : split h block l with
      | none => rfl
      | some h₁ => exact ih ((fixed_split hs).memory.trans hm) hlt (by omega)
    · cases hs : split h block 31 with
      | none => rfl
      | some h₁ => exact absurd hs (split_deep hm)

theorem obtainBlock_deep {level block : Nat} (hm : h.alloc.memory = h.alloc.freeBlocks 0)
    (hroot : h.alloc.freeBlocks 0 ≠ allocatorEmpty)
    (hnone : ∀ l, 0 < l → h.alloc.freeBlocks l = allocatorEmpty) (hl : 31 < level) :
    obtainBlock h level ≠ some (block, h') := by
  intro ho
  obtain ⟨hne, -⟩ | ⟨hall, -, -⟩ | ⟨source, hlt, hne, -, -, hd⟩ := obtainBlock_cases ho
  · exact hne (hnone level (by omega))
  · exact hroot (hall 0 (by omega))
  · obtain rfl : source = 0 := by
      by_contra h0
      exact hne (hnone source (by omega))
    rw [splitDown_deep (h := unlisted h 0) (level - 0) hm (Nat.zero_le 31) (by omega)] at hd
    exact absurd hd (by simp)

theorem init_deep (hdepth : 30 < y.depth) :
    allocatorInit m y.base y.size y.leafSize y.bitmaps = none := by
  have hbits := y.bits_lt
  rw [allocatorInit, y.size_div_leafSize, Math.log2_two_pow (by omega), Option.bind_eq_bind,
    Option.bind_some, shiftOne, if_neg (by omega)]
  split
  · rfl
  · rfl

theorem init_shallow (hdepth : y.depth ≤ 30) :
    ∃ h, allocatorInit m y.base y.size y.leafSize y.bitmaps = some h := by
  have hpow := pow_depth_le hdepth
  rw [allocatorInit, y.size_div_leafSize, Math.log2_two_pow (by omega), Option.bind_eq_bind,
    Option.bind_some, shiftOne_of_lt (by omega), Option.bind_eq_bind, Option.bind_some,
    checked_of_range (by have := Nat.two_pow_pos y.depth; omega)]
  exact ⟨_, rfl⟩

theorem allocate_leaf (hsize : h.alloc.size = y.size) (hdepth : y.depth ≤ 30)
    (hfree : h.alloc.freeSize = y.size) :
    allocatorAllocate h (2 ^ y.chunkBits) =
      (obtainBlock h y.bottom).bind fun x =>
        (flipAllocationBit x.2 x.1 y.bottom).bind fun h' =>
          some (x.1, chargeBlock h' x.1 (2 ^ y.chunkBits)) := by
  have hchunk := y.chunkBits_le
  have hadd := y.bottom_add
  have hbits := y.bits_lt
  have hbot : y.bottom < 40 := by
    rw [bottom, chunkBits]
    omega
  have hle : 2 ^ y.chunkBits ≤ y.size := y.pow_le_size (by omega)
  rw [allocatorAllocate, Math.ceilToPowerOfTwo_two_pow hchunk.1, Option.bind_eq_bind,
    Option.bind_some, if_neg (by rw [hfree]; omega), levelFromSize_chunk hsize, Option.bind_eq_bind,
    Option.bind_some, levelIndex_of_lt hbot, Option.bind_eq_bind, Option.bind_some]
  rfl

theorem allocationBitIndex_zero (level : Nat) (hsize : h.alloc.size = y.size)
    (hmem : h.alloc.memory = 0) (hle : level + 1 ≤ y.leafBits + y.depth) :
    allocationBitIndex h.alloc allocatorEmpty ((level + 1 : Nat) : Int) =
      uniqueIndex (level : Int) 0 := by
  have hbits := y.bits_lt
  have hpos : 0 < y.size / 2 ^ (level + 1) := Nat.div_pos (y.pow_le_size hle) (Nat.two_pow_pos _)
  have hindex : indexInLevel h.alloc allocatorEmpty ((level + 1 : Nat) : Int) = some 0 := by
    rw [indexInLevel, sizeFromLevel, hsize, shiftRight_of_lt _ (by omega), hmem, Option.bind_eq_bind,
      Option.bind_some, if_neg hpos.ne', show subSize allocatorEmpty 0 = 0 from rfl, Nat.zero_div]
    rfl
  rw [allocationBitIndex, hindex, Option.bind_eq_bind, Option.bind_some, Int.zero_tdiv]
  congr 1
  omega

theorem obtainBlock_empty (hempty : ∀ l, h.alloc.freeBlocks l = allocatorEmpty) (level : Nat) :
    obtainBlock h level = some (allocatorEmpty, h) := by
  rw [obtainBlock, if_neg (by simp [notEmpty, hempty]), createBlock,
    findSource_eq_none_iff.mpr fun l _ => hempty l]

theorem leaf_deep (hdepth : y.depth ≤ 30) (hbits : 62 ≤ y.leafBits + y.depth)
    (hinit : allocatorInit m y.base y.size y.leafSize y.bitmaps = some h) :
    allocatorAllocate h (2 ^ y.chunkBits) = none := by
  obtain ⟨hmem, hsize, hfree, hblocks⟩ := init_fields hinit
  have hhead : h.alloc.freeBlocks 0 = y.base := congrFun hblocks 0
  have hlt := y.bits_lt
  have hbot : y.bottom = 32 ∨ y.bottom = 33 := by
    rw [bottom, chunkBits]
    omega
  rw [allocate_leaf hsize hdepth hfree]
  by_cases hbase : y.base = 0
  · rw [obtainBlock_empty (init_empty hbase hinit), Option.bind_some, flipAllocationBit,
      if_neg (by omega)]
    have hnone : allocationBitIndex h.alloc allocatorEmpty (y.bottom : Int) = none := by
      rcases hbot with hb | hb
      · rw [hb, allocationBitIndex_zero 31 hsize (hmem.trans hbase) (by omega)]
        decide
      · rw [hb, allocationBitIndex_zero 32 hsize (hmem.trans hbase) (by omega)]
        decide
    rw [hnone]
    rfl
  · cases ho : obtainBlock h y.bottom with
    | none => rfl
    | some x =>
      refine absurd ho (obtainBlock_deep (hmem.trans hhead.symm) (by rw [hhead]; exact hbase)
        (fun l hl => ?_) (by omega))
      rw [hblocks]
      exact if_neg (by omega)

theorem leaf_refused (hbase : y.base = 0) (hdepth : y.depth ≤ 30)
    (hbits : y.leafBits + y.depth ≤ 61)
    (hinit : allocatorInit m y.base y.size y.leafSize y.bitmaps = some h) :
    (allocatorAllocate h (2 ^ y.chunkBits)).isSome := by
  obtain ⟨hmem, hsize, hfree, -⟩ := init_fields hinit
  have hbot : y.bottom ≤ 31 := by
    rw [bottom, chunkBits]
    omega
  rw [allocate_leaf hsize hdepth hfree, obtainBlock_empty (init_empty hbase hinit), Option.bind_some,
    flipAllocationBit]
  cases hb : y.bottom with
  | zero => rfl
  | succ level =>
    have hadd := y.bottom_add
    have hindex := uniqueIndex_eq (show level < 31 by omega) (Nat.two_pow_pos level)
    rw [if_neg (by omega),
      allocationBitIndex_zero level hsize (hmem.trans hbase) (by omega),
      show (0 : Int) = ((0 : Nat) : Int) from rfl, hindex, Option.bind_eq_bind, Option.bind_some,
      flipBit, maskOf_ofNat]
    rfl

theorem bitmaps_reserved_iff (y : Layout) (m : Memory) :
    y.BitmapsReserved m ↔ y.base = 0 ∧ y.depth ≤ 30 ∧ y.leafBits + y.depth ≤ 61 := by
  constructor
  · intro hres
    have hdepth : y.depth ≤ 30 := by
      by_contra hc
      have hsome := hres.1
      rw [boot, init_deep (by omega)] at hsome
      exact absurd hsome (by simp)
    obtain ⟨h, hinit⟩ := init_shallow (y := y) (m := m) hdepth
    have hboot : y.boot m = some ⟨h, []⟩ := by rw [boot, hinit]; rfl
    have hbits : y.leafBits + y.depth ≤ 61 := by
      by_contra hc
      have hleaf := (hres.2 [] ⟨h, []⟩ (by rw [hboot]; rfl)).1
      rw [leaf_deep hdepth (by omega) hinit] at hleaf
      exact absurd hleaf (by simp)
    refine ⟨?_, hdepth, hbits⟩
    by_contra hbase
    exact not_reserved ⟨by omega, hdepth, hbits⟩ m hres
  · rintro ⟨hbase, hdepth, hbits⟩
    obtain ⟨h, hinit⟩ := init_shallow (y := y) (m := m) hdepth
    have hboot : y.boot m = some ⟨h, []⟩ := by rw [boot, hinit]; rfl
    refine ⟨by rw [hboot]; rfl, fun as w hrun => ?_⟩
    rw [hboot, Option.bind_some] at hrun
    obtain rfl := run_of_idle (idle_of_empty (init_empty hbase hinit)) hrun
    exact ⟨leaf_refused hbase hdepth hbits hinit, fun b hb => absurd hb List.not_mem_nil⟩

def smallLayout : Layout where
  base := 4096
  leafSize := 16
  depth := 3
  bitmaps := allocatorEmpty
  unit := 1
  leafBits := 4
  leaf_pos := Nat.succ_pos 15
  leaf_eq := by decide
  unit_odd := by decide
  leaf_ge := by decide
  size_lt := by decide
  base_fits := by decide
  placed := by decide

theorem bitmaps_not_reserved : ¬ ∀ (y : Layout) (m : Memory) (as : List Action) (w : World),
    (y.boot m).bind (run use · as) = some w → w.OffBitmaps := by
  intro hall
  have hobs : ((smallLayout.boot fun _ => 0#8).bind (run use · [.allocate 128])).map
      (fun w => (w.live, w.heap.alloc.allocationBitmap, bitmapBytes w.heap.alloc)) =
        some ([⟨4096, 128⟩], 4096, 1) := by
    decide +kernel
  obtain ⟨w, hrun, hobs⟩ := Option.map_eq_some_iff.mp hobs
  simp only [Prod.mk.injEq] at hobs
  obtain ⟨hlive, hbitmap, hbytes⟩ := hobs
  refine hall smallLayout _ _ w hrun ⟨4096, 128⟩ (by rw [hlive]; simp) 4096 (.inl ?_) (by decide)
  rw [hbitmap, hbytes]
  exact ⟨le_rfl, by omega⟩

end idle

end Layout

end Lasagne.Buddy
