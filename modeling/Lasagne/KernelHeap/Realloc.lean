import Mathlib
import Lasagne.Buddy.Large
import Lasagne.KernelHeap.Alloc

namespace Lasagne.KernelHeap
open ByteMemory CInt Buddy SplitTree PartialRun

inductive Action where
  | kalloc (size : Nat)
  | kzalloc (size : Nat)
  | krealloc (ptr size : Nat)
  | kfree (ptr : Nat)
  | store (address : Nat) (value : BitVec 8)
  deriving DecidableEq, Repr

def hand (w : World) (size : Nat) (x : Nat × Heap) : World :=
  ⟨x.2, if empty x.1 then w.live else ⟨x.1, size⟩ :: w.live⟩

-- a call that fails is a step too; only live blocks are freed or written to
def step (w : World) : Action → Option World
  | .kalloc size => (kalloc w.heap size).map (hand w size)
  | .kzalloc size => (kzalloc w.heap size).map (hand w size)
  | .krealloc ptr size => do
    let b ← owner w ptr
    let (p, heap) ← krealloc w.heap ptr size
    return ⟨heap, if p = ptr then w.live else ⟨p, size⟩ :: w.live.erase b⟩
  | .kfree ptr => do
    let b ← owner w ptr
    let heap ← kfree w.heap ptr
    return ⟨heap, w.live.erase b⟩
  | .store address value =>
    if ∃ b ∈ w.live, b.Covers address then
      some ⟨{ w.heap with mem := storeByte w.heap.mem address value }, w.live⟩
    else none

-- either free_size refuses the request or there is a free block to serve it from
def servable (h : Heap) (size : Nat) : Bool :=
  match Math.ceilToPowerOfTwo size with
  | none => true
  | some rounded =>
    h.alloc.freeSize < rounded ||
      match levelFromSize h.alloc rounded with
      | none => true
      | some level => (List.range (level.toNat + 1)).any fun l => notEmpty (h.alloc.freeBlocks l)

-- the state in which krealloc frees the old block
def reallocCopied (h : Heap) (ptr size : Nat) : Option Heap := do
  let currentSize ← allocatorAllocationSize h ptr
  let newSize ← Math.ceilToPowerOfTwo size
  let (newPtr, h) ← kalloc h newSize
  let mem ← memcpy h.mem newPtr ptr currentSize
  return { h with mem }

def grows (h : Heap) (ptr size : Nat) : Bool :=
  match allocatorAllocationSize h ptr, Math.ceilToPowerOfTwo size with
  | some currentSize, some newSize => currentSize ≤ newSize
  | _, _ => true

def reallocClean (h : Heap) (ptr size : Nat) : Bool :=
  grows h ptr size &&
    match reallocCopied h ptr size with
    | some h => cleanRelease h ptr
    | none => true

def clean (w : World) : Action → Bool
  | .kalloc size => kernelHeapLeaf < 2 * size && servable w.heap size
  | .kzalloc size => kernelHeapLeaf < 2 * size && servable w.heap size
  | .krealloc ptr size => kernelHeapLeaf < 2 * size && reallocClean w.heap ptr size
  | .kfree ptr => cleanRelease w.heap ptr
  | .store _ _ => true

def Sound (w : World) : Prop := ∃ k lists, Tracks heapRegion heapRegion.size w k lists

section sound
variable {w w' : World} {k : Labels} {lists : Nat → List Nat} {b : Block} {size p x : Nat}
  {h h' : Heap}

theorem refused_keeps (hserv : servable h size = true)
    (ha : kalloc h size = some (allocatorEmpty, h')) : h' = h := by
  obtain ⟨rounded, hr, ⟨-, -, rfl⟩ | ⟨hle, level, index, h₁, h₂, hlevel, hindex, ho, -, -⟩⟩ :=
    allocate_cases ha
  · rfl
  · obtain ⟨-, hnone⟩ := obtainBlock_refused ho
    have hidx : index = level.toNat := by
      rw [levelIndex] at hindex
      split at hindex
      next => exact (Option.some.inj hindex).symm
      next => exact absurd hindex (by simp)
    simp only [servable, hr, hlevel, Bool.or_eq_true, decide_eq_true_eq, List.any_eq_true,
      List.mem_range] at hserv
    rcases hserv with hlt | ⟨l, hl, hne⟩
    · omega
    · rw [hnone l (by omega)] at hne
      exact absurd hne (by decide)

theorem allocate_le (c : Represents heapRegion w.heap k lists) (hn : 0 < size)
    (ha : kalloc w.heap size = some (p, h')) (hp : p ≠ allocatorEmpty) :
    size ≤ heapRegion.size := by
  have hsize : w.heap.alloc.size = 2 ^ 23 := c.core.shape.size
  have hfree := freeTotal_lt c.core.linked
  rw [← c.freeSize] at hfree
  have hfits := served_fits hsize (by omega) (by omega) hn ha hp
  exact hfits.trans_eq c.core.shape.size

theorem half_leaf (h : decide (kernelHeapLeaf < 2 * size) = true) : heapRegion.leafSize < 2 * size :=
  of_decide_eq_true h

theorem kalloc_sound (hs : Sound w) (hn : heapRegion.leafSize < 2 * size)
    (ha : kalloc w.heap size = some (p, h')) (hp : p ≠ allocatorEmpty) :
    Sound ⟨h', ⟨p, size⟩ :: w.live⟩ ∧
      ∀ b ∈ w.live, ∀ x, b.Covers x → h'.mem x = w.heap.mem x := by
  obtain ⟨k, lists, t⟩ := hs
  exact t.allocate le_rfl ⟨hn, allocate_le t.represents (by omega) ha hp⟩ ha hp

theorem hand_sound (hs : Sound w) (hn : heapRegion.leafSize < 2 * size)
    (hserv : servable w.heap size = true) (ha : kalloc w.heap size = some (p, h')) :
    Sound (hand w size (p, h')) := by
  by_cases hp : p = allocatorEmpty
  · subst hp
    rw [refused_keeps hserv ha]
    exact hs
  · have hne : ¬ empty p = true := by simpa [empty] using hp
    rw [hand, if_neg hne]
    exact (kalloc_sound hs hn ha hp).1

theorem write_sound (hs : Sound w) {m : Memory}
    (hm : SameOutside (fun x => ∃ b ∈ w.live, b.Covers x) w.heap.mem m) :
    Sound ⟨{ w.heap with mem := m }, w.live⟩ := by
  obtain ⟨k, lists, t⟩ := hs
  exact ⟨k, lists, t.write le_rfl hm⟩

theorem free_sound (hs : Sound w) (ho : owner w p = some b) (hclean : cleanRelease w.heap p = true)
    (hroot : allocationLevel w.heap p ≠ some 0) :
    ∃ h', kfree w.heap p = some h' ∧
      (∀ n, Math.ceilToPowerOfTwo n = Math.ceilToPowerOfTwo b.request →
        allocatorDeallocateFast w.heap p n = some h') ∧
      Sound ⟨h', w.live.erase b⟩ ∧
      ∀ c ∈ w.live.erase b, ∀ x, c.Covers x → h'.mem x = w.heap.mem x := by
  obtain ⟨k, lists, t⟩ := hs
  exact t.deallocate le_rfl ho hclean hroot

theorem owner_eq (hs : Sound w) (hb : b ∈ w.live) : owner w b.start = some b := by
  obtain ⟨k, lists, t⟩ := hs
  obtain ⟨c, ho⟩ := owner_isSome hb
  have hstart := List.find?_some ho
  rw [beq_iff_eq] at hstart
  rw [ho, t.start_unique (List.mem_of_find?_eq_some ho) hb hstart]

theorem live_apart (hs : Sound w) {c d : Block} (hc : c ∈ w.live) (hd : d ∈ w.live)
    (hx : c.Covers x) (hy : d.Covers x) : c = d := by
  obtain ⟨k, lists, t⟩ := hs
  obtain ⟨l, i, hp⟩ := t.placed d hd
  have hleaf : (k l i).isLeaf := by rw [hp.2.1]; rfl
  have hq := t.apart le_rfl hc hx hleaf ((t.covers_iff le_rfl hd hp).mp hy)
  exact t.start_unique hc hd (hq.2.2.trans hp.2.2.symm)

theorem size_fits (hs : Sound w) (hb : b ∈ w.live) : b.request ≤ b.size ∧ 0 < b.size ∧
    Math.ceilToPowerOfTwo b.request = some b.size ∧ b.size ≤ heapRegion.size := by
  obtain ⟨k, lists, t⟩ := hs
  obtain ⟨hpos, hle⟩ := t.fits b hb
  have hwell := (t.isolated le_rfl).placed b hb
  have h30 : b.request ≤ 2 ^ 30 := hle.trans heapRegion.size_le_pow
  have hround := Math.ceilToPowerOfTwo_eq (show 0 < b.request by omega) h30
  have hsize : b.size = 2 ^ Nat.clog 2 b.request := by
    rw [Block.size, hround]
    rfl
  refine ⟨hwell.enough, ?_, ?_, ?_⟩
  · rw [hsize]
    exact Nat.two_pow_pos _
  · rw [hround, hsize]
  · have := hwell.inside
    omega

theorem allocation_size (hs : Sound w) (hb : b ∈ w.live) :
    allocatorAllocationSize w.heap b.start = some b.size := by
  obtain ⟨k, lists, t⟩ := hs
  obtain ⟨l, i, hp⟩ := t.placed b hb
  have hbound := t.represents.core.present (show k l i ≠ .absent by simp [hp.2.1])
  rw [t.block_size le_rfl hb hp, hp.2.2, allocatorAllocationSize,
    t.represents.core.allocationLevel hp.2.1]
  exact t.represents.core.shape.spans.sizeFromLevel hbound.1

theorem ceil_size (hs : Sound w) (hb : b ∈ w.live) :
    Math.ceilToPowerOfTwo b.size = some b.size := by
  obtain ⟨-, -, hround, hle⟩ := size_fits hs hb
  obtain ⟨k, lists, t⟩ := hs
  obtain ⟨n, hn⟩ := ((t.isolated le_rfl).placed b hb).power
  rw [hn] at hle ⊢
  have hn30 : n ≤ 30 :=
    (Nat.pow_le_pow_iff_right (by omega)).mp (hle.trans heapRegion.size_le_pow)
  exact Math.ceilToPowerOfTwo_two_pow hn30

theorem allocate_congr {m n : Nat} (h' : Heap)
    (hc : Math.ceilToPowerOfTwo m = Math.ceilToPowerOfTwo n) : kalloc h' m = kalloc h' n := by
  rw [kalloc, kalloc, allocatorAllocate, allocatorAllocate, hc]

theorem kalloc_rounded {new : Nat} (hnew : Math.ceilToPowerOfTwo size = some new)
    (ha : kalloc h new = some (p, h')) : kalloc h size = some (p, h') := by
  rcases Math.ceilToPowerOfTwo_again hnew with hsame | hnone
  · rw [← ha]
    exact allocate_congr h (hnew.trans hsame.symm)
  · rw [kalloc, allocatorAllocate, hnone] at ha
    exact absurd ha (by simp)

theorem not_root (hs : Sound w) {c : Block} (hb : b ∈ w.live) (hc : c ∈ w.live) (hne : c ≠ b) :
    allocationLevel w.heap b.start ≠ some 0 := by
  intro hroot
  have hapart := @live_apart w
  obtain ⟨-, hpos, -, -⟩ := size_fits hs hc
  obtain ⟨k, lists, t⟩ := id hs
  obtain ⟨l, i, hp⟩ := t.placed b hb
  rw [hp.2.2, t.represents.core.allocationLevel hp.2.1] at hroot
  obtain rfl := Option.some.inj hroot
  have hi := (t.represents.core.present (show k 0 i ≠ .absent by simp [hp.2.1])).2
  obtain rfl : i = 0 := by simpa using hi
  have hinside := ((t.isolated le_rfl).placed c hc).inside
  have hsize := t.block_size le_rfl hb hp
  rw [heapRegion.blockSize_zero] at hsize
  have hstart : b.start = heapRegion.base := by rw [hp.2.2, Blocks.address, Nat.zero_mul, Nat.add_zero]
  refine hne (hapart hs hc hb (x := c.start) ⟨le_rfl, by omega⟩ ⟨?_, ?_⟩) <;> omega

theorem krealloc_moved (hs : Sound w) (hb : b ∈ w.live) (hn : heapRegion.leafSize < 2 * size)
    {new : Nat} (hnew : Math.ceilToPowerOfTwo size = some new) (hlt : b.size < new)
    (ha : kalloc w.heap new = some (p, h)) (hp : p ≠ allocatorEmpty)
    (hclean : cleanRelease { h with mem := movsb h.mem p b.start b.size } b.start = true) :
    ∃ h', krealloc w.heap b.start size = some (p, h') ∧ p ≠ b.start ∧
      Sound ⟨h', ⟨p, size⟩ :: w.live.erase b⟩ ∧
      (∀ j < b.size, h'.mem (p + j) = w.heap.mem (b.start + j)) ∧
      ∀ d ∈ w.live, d ≠ b → ∀ x, d.Covers x → h'.mem x = w.heap.mem x := by
  have hround := size_fits hs hb
  have hcsize : Block.size ⟨p, size⟩ = new := by
    rw [Block.size, hnew]
    rfl
  obtain ⟨hs₁, hkeep₁⟩ := kalloc_sound hs hn (kalloc_rounded hnew ha) hp
  have hcm : (⟨p, size⟩ : Block) ∈ (⟨p, size⟩ : Block) :: w.live := by simp
  have hbm : b ∈ (⟨p, size⟩ : Block) :: w.live := by simp [hb]
  have hnd : ((⟨p, size⟩ : Block) :: w.live).Nodup := by
    obtain ⟨k, lists, t⟩ := hs₁
    exact t.distinct.of_map _
  have hcb : (⟨p, size⟩ : Block) ≠ b := by
    rintro rfl
    exact (List.nodup_cons.mp hnd).1 hb
  have hcov {j : Nat} (hj : j < b.size) : (⟨p, size⟩ : Block).Covers (p + j) :=
    ⟨by simp, by rw [hcsize]; simp only; omega⟩
  -- two live blocks do not meet, so the copy reads what it has not overwritten
  have hapart : p + b.size ≤ b.start ∨ b.start + b.size ≤ p := by
    by_contra hover
    have hx : b.Covers (max p b.start) := ⟨by omega, by omega⟩
    have hy : (⟨p, size⟩ : Block).Covers (max p b.start) := ⟨by simp, by rw [hcsize]; simp only; omega⟩
    exact hcb (live_apart hs₁ hcm hbm hy hx)
  have hout : SameOutside (fun x => ∃ d ∈ (⟨p, size⟩ : Block) :: w.live, d.Covers x) h.mem
      (movsb h.mem p b.start b.size) := by
    intro x hx
    refine movsb_outside ?_
    by_contra hin
    refine hx ⟨⟨p, size⟩, hcm, ?_⟩
    rw [show x = p + (x - p) by omega]
    exact hcov (by omega)
  have hs₂ := write_sound hs₁ hout
  have howner : owner ⟨{ h with mem := movsb h.mem p b.start b.size }, ⟨p, size⟩ :: w.live⟩ b.start =
      some b := owner_eq hs₂ hbm
  obtain ⟨h', -, hfree, hs₃, hkeep₃⟩ := free_sound hs₂ howner hclean (not_root hs₂ hbm hcm hcb)
  rw [List.erase_cons_tail (by simpa using hcb)] at hs₃ hkeep₃
  have hcall : krealloc w.heap b.start size = some (p, h') := by
    rw [krealloc, allocation_size hs hb, hnew]
    simp only [Option.bind_eq_bind, Option.bind_some]
    rw [if_neg (by omega), ha, Option.bind_some]
    simp only
    rw [memcpy, if_neg (by simp [empty, hp]), Option.bind_some,
      hfree b.size ((ceil_size hs hb).trans hround.2.2.1.symm)]
    rfl
  refine ⟨h', hcall, ?_, hs₃, fun j hj => ?_, fun d hd hdb x hx => ?_⟩
  · rintro rfl
    omega
  · rw [hkeep₃ ⟨p, size⟩ (by simp) _ (hcov hj)]
    change movsb h.mem p b.start b.size (p + j) = _
    rw [movsb_inside hapart hj]
    exact hkeep₁ b hb _ ⟨by omega, by omega⟩
  · have hde : d ∈ w.live.erase b := (List.mem_erase_of_ne hdb).mpr hd
    rw [hkeep₃ d (List.mem_cons_of_mem _ hde) x hx]
    change movsb h.mem p b.start b.size x = _
    rw [movsb_outside ?_]
    · exact hkeep₁ d hd x hx
    · by_contra hin
      have hcx : (⟨p, size⟩ : Block).Covers (p + (x - p)) := hcov (by omega)
      rw [show p + (x - p) = x by omega] at hcx
      have heq := live_apart hs₁ hcm (List.mem_cons_of_mem _ hd) hcx hx
      exact (List.nodup_cons.mp hnd).1 (heq ▸ hd)

theorem kfree_not_root (hf : kfree h p = some h') : allocationLevel h p ≠ some 0 := by
  intro hroot
  rw [kfree, allocatorDeallocate, hroot, Option.bind_eq_bind, Option.bind_some,
    allocatorDeallocateLevel, Option.bind_eq_bind] at hf
  obtain ⟨size, -, hf⟩ := Option.bind_eq_some_iff.mp hf
  obtain ⟨level, hlevel, hf⟩ := Option.bind_eq_some_iff.mp hf
  obtain rfl : 0 = level := Option.some.inj hlevel
  obtain ⟨x, hm, -⟩ := Option.bind_eq_some_iff.mp hf
  rw [mergeUp] at hm
  obtain ⟨h₁, -, hm⟩ := Option.bind_eq_some_iff.mp hm
  obtain ⟨bit, -, hm⟩ := Option.bind_eq_some_iff.mp hm
  exact absurd hm (by simp)

theorem kzalloc_sound (hs : Sound w) (hn : heapRegion.leafSize < 2 * size)
    (hz : kzalloc w.heap size = some (p, h')) : Sound (hand w size (p, h')) := by
  obtain ⟨⟨q, h₁⟩, ha, hz⟩ := Option.bind_eq_some_iff.mp hz
  obtain ⟨m, hm, hz⟩ := Option.bind_eq_some_iff.mp hz
  rw [Option.pure_def, Option.some.injEq, Prod.mk.injEq] at hz
  obtain ⟨rfl, rfl⟩ := hz
  rw [memset] at hm
  split at hm
  next => exact absurd hm (by simp)
  next hnull =>
    obtain rfl := Option.some.inj hm
    have hne : ¬ empty q = true := fun he => hnull ⟨by omega, he⟩
    have hs₁ := (kalloc_sound hs hn ha (by simpa [empty] using hne)).1
    have hfits := (size_fits hs₁ (b := ⟨q, size⟩) (by simp)).1
    rw [hand, if_neg hne]
    refine write_sound hs₁ fun x hx => fill_outside _ _ ?_
    by_contra hin
    refine hx ⟨⟨q, size⟩, by simp, ?_, ?_⟩
    · simp only
      omega
    · simp only at hfits ⊢
      omega

theorem krealloc_cases {ptr : Nat} (hs : Sound w) (ho : owner w ptr = some b)
    (hn : heapRegion.leafSize < 2 * size) (hclean : reallocClean w.heap ptr size = true)
    (hk : krealloc w.heap ptr size = some (p, h')) :
    p = ptr ∧ h' = w.heap ∧ Math.ceilToPowerOfTwo size = some b.size ∨
      p ≠ ptr ∧ Sound ⟨h', ⟨p, size⟩ :: w.live.erase b⟩ ∧
        (∀ j < b.size, h'.mem (p + j) = w.heap.mem (ptr + j)) ∧
        ∀ d ∈ w.live, d ≠ b → ∀ x, d.Covers x → h'.mem x = w.heap.mem x := by
  have hb := List.mem_of_find?_eq_some ho
  obtain rfl : b.start = ptr := by simpa using List.find?_some ho
  rw [krealloc, allocation_size hs hb, Option.bind_eq_bind, Option.bind_some] at hk
  obtain ⟨new, hnew, hk⟩ := Option.bind_eq_some_iff.mp hk
  split at hk
  next heq =>
    rw [Option.pure_def, Option.some.injEq, Prod.mk.injEq] at hk
    obtain ⟨rfl, rfl⟩ := hk
    exact .inl ⟨rfl, rfl, heq ▸ hnew⟩
  next hne =>
    obtain ⟨⟨q, h₁⟩, ha, hk⟩ := Option.bind_eq_some_iff.mp hk
    obtain ⟨m, hm, hk⟩ := Option.bind_eq_some_iff.mp hk
    obtain ⟨h₂, hd, hk⟩ := Option.bind_eq_some_iff.mp hk
    rw [Option.pure_def, Option.some.injEq, Prod.mk.injEq] at hk
    obtain ⟨rfl, rfl⟩ := hk
    have hcopy : reallocCopied w.heap b.start size = some { h₁ with mem := m } := by
      rw [reallocCopied, allocation_size hs hb, hnew]
      simp only [Option.bind_eq_bind, Option.bind_some]
      rw [ha, Option.bind_some]
      simp only
      rw [hm]
      rfl
    simp only [reallocClean, grows, allocation_size hs hb, hnew, hcopy, Bool.and_eq_true,
      decide_eq_true_eq] at hclean
    have hpos := (size_fits hs hb).2.1
    rw [memcpy] at hm
    split at hm
    next => exact absurd hm (by simp)
    next hnull =>
      obtain rfl := Option.some.inj hm
      have hq : q ≠ allocatorEmpty := by
        rintro rfl
        exact hnull ⟨by omega, by decide⟩
      obtain ⟨h₃, hcall, hqb, hmoved⟩ := krealloc_moved hs hb hn hnew (by omega) ha hq hclean.2
      have hsame : krealloc w.heap b.start size = some (q, h₂) := by
        rw [krealloc, allocation_size hs hb, hnew]
        simp only [Option.bind_eq_bind, Option.bind_some]
        rw [if_neg hne, ha, Option.bind_some]
        simp only
        rw [memcpy, if_neg hnull, Option.bind_some, hd]
        rfl
      rw [hcall, Option.some.injEq, Prod.mk.injEq] at hsame
      exact .inr ⟨hqb, hsame.2 ▸ hmoved⟩

theorem krealloc_sound {ptr : Nat} (hs : Sound w) (ho : owner w ptr = some b)
    (hn : heapRegion.leafSize < 2 * size) (hclean : reallocClean w.heap ptr size = true)
    (hk : krealloc w.heap ptr size = some (p, h')) :
    Sound ⟨h', if p = ptr then w.live else ⟨p, size⟩ :: w.live.erase b⟩ := by
  obtain ⟨rfl, rfl, -⟩ | ⟨hne, hs', -⟩ := krealloc_cases hs ho hn hclean hk
  · rwa [if_pos rfl]
  · rwa [if_neg hne]

theorem Sound.step {a : Action} (hs : Sound w) (hclean : clean w a = true)
    (hstep : KernelHeap.step w a = some w') : Sound w' := by
  cases a with
  | kalloc size =>
    rw [clean, Bool.and_eq_true] at hclean
    obtain ⟨⟨p, h'⟩, ha, rfl⟩ := Option.map_eq_some_iff.mp hstep
    exact hand_sound hs (half_leaf hclean.1) hclean.2 ha
  | kzalloc size =>
    rw [clean, Bool.and_eq_true] at hclean
    obtain ⟨⟨p, h'⟩, ha, rfl⟩ := Option.map_eq_some_iff.mp hstep
    exact kzalloc_sound hs (half_leaf hclean.1) ha
  | krealloc ptr size =>
    rw [clean, Bool.and_eq_true] at hclean
    obtain ⟨b, ho, hstep⟩ := Option.bind_eq_some_iff.mp hstep
    obtain ⟨⟨p, h'⟩, hk, hstep⟩ := Option.bind_eq_some_iff.mp hstep
    obtain rfl := Option.some.inj hstep
    exact krealloc_sound hs ho (half_leaf hclean.1) hclean.2 hk
  | kfree ptr =>
    obtain ⟨b, ho, hstep⟩ := Option.bind_eq_some_iff.mp hstep
    obtain ⟨h', hf, hstep⟩ := Option.bind_eq_some_iff.mp hstep
    obtain rfl := Option.some.inj hstep
    obtain ⟨h₁, hf', -, hs', -⟩ := free_sound hs ho hclean (kfree_not_root hf)
    rw [hf, Option.some.injEq] at hf'
    exact hf' ▸ hs'
  | store address value =>
    rw [KernelHeap.step] at hstep
    split at hstep
    next hx =>
      obtain rfl := Option.some.inj hstep
      exact write_sound hs (sameOutside_storeByte hx)
    next => exact absurd hstep (by simp)

theorem le_ceil {n new : Nat} (hn : 0 < n) (hnew : Math.ceilToPowerOfTwo n = some new)
    (hle : new ≤ 2 ^ 30) : n ≤ new := by
  by_cases h30 : n ≤ 2 ^ 30
  · obtain rfl := Option.some.inj ((Math.ceilToPowerOfTwo_eq hn h30).symm.trans hnew)
    exact Nat.le_pow_clog (by omega) n
  · by_cases h31 : n ≤ 2 ^ 31
    · obtain rfl := Option.some.inj ((Math.ceilToPowerOfTwo_negative (by omega) h31).symm.trans hnew)
      omega
    · rw [Math.ceilToPowerOfTwo_undefined (by omega)] at hnew
      exact absurd hnew (by simp)

theorem sound_initial {m : Memory} (hz : ZeroFilled heapRegion m)
    (hinit : initializeKernelHeap m = some h) : Sound ⟨h, []⟩ := by
  rw [initializeKernelHeap_eq] at hinit
  have hboot : boot heapRegion m = some ⟨h, []⟩ := by rw [boot, hinit, Option.map_some]
  exact ⟨rootTree, rootLists, tracks_boot hz hboot⟩

end sound

end Lasagne.KernelHeap
