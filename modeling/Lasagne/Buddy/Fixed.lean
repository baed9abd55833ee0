import Mathlib
import Lasagne.Buddy.Allocator
import Lasagne.Library.PartialRun

namespace Lasagne.Buddy
open ByteMemory CInt Bitmap PartialRun

inductive Call where
  | allocate (size : Nat)
  | deallocate (block : Nat)
  | deallocateFast (block size : Nat)
  | deallocateLevel (block : Nat) (level : Int)
  | store (address : Nat) (value : BitVec 8)

def call (h : Heap) : Call → Option Heap
  | .allocate size => (allocatorAllocate h size).map Prod.snd
  | .deallocate block => allocatorDeallocate h block
  | .deallocateFast block size => allocatorDeallocateFast h block size
  | .deallocateLevel block level => allocatorDeallocateLevel h block level
  | .store address value => some { h with mem := storeByte h.mem address value }

-- the fields allocator_init sets for good
structure Fixed (a b : Allocator) : Prop where
  memory : b.memory = a.memory
  size : b.size = a.size
  leafSize : b.leafSize = a.leafSize
  maxLevel : b.maxLevel = a.maxLevel
  bitmapEntries : b.bitmapEntries = a.bitmapEntries
  allocationBitmap : b.allocationBitmap = a.allocationBitmap
  splitBitmap : b.splitBitmap = a.splitBitmap

section search
variable {a : Allocator} {h h' : Heap} {level source block : Nat}

theorem findSource_eq_some_iff : findSource a level = some source ↔
    source < level ∧ a.freeBlocks source ≠ allocatorEmpty ∧
      ∀ m, source < m → m < level → a.freeBlocks m = allocatorEmpty := by
  induction level with
  | zero => simp [findSource]
  | succ level ih =>
    rw [findSource]
    by_cases he : a.freeBlocks level = allocatorEmpty
    · rw [if_pos (by simpa [empty] using he), ih]
      constructor
      · rintro ⟨hlt, hne, hbetween⟩
        refine ⟨by omega, hne, fun m hm hm' => ?_⟩
        rcases Nat.lt_succ_iff_lt_or_eq.mp hm' with hlt' | rfl
        · exact hbetween m hm hlt'
        · exact he
      · rintro ⟨hlt, hne, hbetween⟩
        have hsource : source ≠ level := by
          rintro rfl
          exact hne he
        exact ⟨by omega, hne, fun m hm hm' => hbetween m hm (by omega)⟩
    · rw [if_neg (by simpa [empty] using he), Option.some.injEq]
      constructor
      · rintro rfl
        exact ⟨Nat.lt_succ_self _, he, fun m hm hm' => by omega⟩
      · rintro ⟨hlt, -, hbetween⟩
        by_contra hne
        exact he (hbetween level (by omega) (Nat.lt_succ_self _))

theorem findSource_eq_none_iff :
    findSource a level = none ↔ ∀ l < level, a.freeBlocks l = allocatorEmpty := by
  induction level with
  | zero => simp [findSource]
  | succ level ih =>
    rw [findSource]
    by_cases he : a.freeBlocks level = allocatorEmpty
    · rw [if_pos (by simpa [empty] using he), ih]
      constructor
      · intro hall l hl
        rcases Nat.lt_succ_iff_lt_or_eq.mp hl with hlt | rfl
        · exact hall l hlt
        · exact he
      · exact fun hall l hl => hall l (by omega)
    · rw [if_neg (by simpa [empty] using he)]
      exact iff_of_false (by simp) fun hall => he (hall level (Nat.lt_succ_self _))

def unlisted (h : Heap) (level : Nat) : Heap :=
  ⟨setFreeList h.alloc level (nodeNext h.mem (h.alloc.freeBlocks level))
    (subSize (h.alloc.freeCount level) 1), h.mem⟩

theorem obtainBlock_cases (ho : obtainBlock h level = some (block, h')) :
    (h.alloc.freeBlocks level ≠ allocatorEmpty ∧ popBlock h level = (block, h')) ∨
    ((∀ l ≤ level, h.alloc.freeBlocks l = allocatorEmpty) ∧ block = allocatorEmpty ∧ h' = h) ∨
    ∃ source, source < level ∧ h.alloc.freeBlocks source ≠ allocatorEmpty ∧
      (∀ l, source < l → l ≤ level → h.alloc.freeBlocks l = allocatorEmpty) ∧
      block = h.alloc.freeBlocks source ∧
      splitDown (unlisted h source) (h.alloc.freeBlocks source) source (level - source) =
        some h' := by
  rw [obtainBlock] at ho
  by_cases hne : h.alloc.freeBlocks level = allocatorEmpty
  · rw [if_neg (by simpa [notEmpty] using hne), createBlock] at ho
    have hlast {P : Nat → Prop} (hP : ∀ l, P l → l < level → h.alloc.freeBlocks l = allocatorEmpty)
        (l : Nat) (hl : P l) (hle : l ≤ level) : h.alloc.freeBlocks l = allocatorEmpty := by
      rcases Nat.lt_or_eq_of_le hle with hlt | rfl
      · exact hP l hl hlt
      · exact hne
    split at ho
    next hs =>
      rw [Option.some.injEq, Prod.mk.injEq] at ho
      have hnone := findSource_eq_none_iff.mp hs
      exact .inr (.inl ⟨fun l hl => hlast (P := fun _ => True) (fun l _ hl => hnone l hl) l trivial hl,
        ho.1.symm, ho.2.symm⟩)
    next source hs =>
      obtain ⟨hlt, hsource, hbetween⟩ := findSource_eq_some_iff.mp hs
      obtain ⟨h₁, hd, ho⟩ := Option.bind_eq_some_iff.mp ho
      rw [Option.pure_def, Option.some.injEq, Prod.mk.injEq] at ho
      obtain ⟨rfl, rfl⟩ := ho
      exact .inr (.inr ⟨source, hlt, hsource, hlast hbetween, rfl, hd⟩)
  · rw [if_pos (by simpa [notEmpty] using hne)] at ho
    exact .inl ⟨hne, Option.some.inj ho⟩

end search

section fixed
variable {a b c : Allocator} {h h' : Heap} {block level : Nat}

theorem Fixed.refl (a : Allocator) : Fixed a a := ⟨rfl, rfl, rfl, rfl, rfl, rfl, rfl⟩

theorem Fixed.trans (f : Fixed a b) (g : Fixed b c) : Fixed a c :=
  ⟨g.memory.trans f.memory, g.size.trans f.size, g.leafSize.trans f.leafSize,
    g.maxLevel.trans f.maxLevel, g.bitmapEntries.trans f.bitmapEntries,
    g.allocationBitmap.trans f.allocationBitmap, g.splitBitmap.trans f.splitBitmap⟩

theorem fixed_setFreeList (a : Allocator) (level head count : Nat) :
    Fixed a (setFreeList a level head count) := ⟨rfl, rfl, rfl, rfl, rfl, rfl, rfl⟩

theorem fixed_freeSize (a : Allocator) (v : Nat) : Fixed a { a with freeSize := v } :=
  ⟨rfl, rfl, rfl, rfl, rfl, rfl, rfl⟩

theorem flipAllocationBit_alloc {level : Int} (hf : flipAllocationBit h block level = some h') :
    h'.alloc = h.alloc := by
  rw [flipAllocationBit] at hf
  split at hf
  next => rw [Option.some.inj hf]
  next =>
    obtain ⟨index, -, hf⟩ := Option.bind_eq_some_iff.mp hf
    obtain ⟨m, -, hf⟩ := Option.bind_eq_some_iff.mp hf
    obtain rfl := Option.some.inj hf
    rfl

theorem split_alloc (hs : split h block level = some h') :
    ∃ size, sizeFromLevel h.alloc level = some size ∧
      h'.alloc = setFreeList h.alloc (level + 1) (addSize block (size / 2))
        (addSize (h.alloc.freeCount (level + 1)) 1) := by
  obtain ⟨size, hsize, hs⟩ := Option.bind_eq_some_iff.mp hs
  obtain ⟨index, -, hs⟩ := Option.bind_eq_some_iff.mp hs
  obtain ⟨m, -, hs⟩ := Option.bind_eq_some_iff.mp hs
  obtain ⟨h₁, hf, hs⟩ := Option.bind_eq_some_iff.mp hs
  obtain rfl := Option.some.inj hs
  have halloc : h₁.alloc = h.alloc := flipAllocationBit_alloc (h := { h with mem := m }) hf
  exact ⟨size, hsize, by rw [halloc]⟩

theorem fixed_split (hs : split h block level = some h') : Fixed h.alloc h'.alloc := by
  obtain ⟨size, -, halloc⟩ := split_alloc hs
  rw [halloc]
  exact fixed_setFreeList _ _ _ _

theorem fixed_splitDown (n : Nat) {h : Heap} (hs : splitDown h block level n = some h') :
    Fixed h.alloc h'.alloc := by
  induction n generalizing h level with
  | zero => exact Option.some.inj hs ▸ .refl _
  | succ n ih =>
    obtain ⟨h₁, h1, hs⟩ := Option.bind_eq_some_iff.mp hs
    exact (fixed_split h1).trans (ih hs)

theorem fixed_obtainBlock (ho : obtainBlock h level = some (block, h')) :
    Fixed h.alloc h'.alloc := by
  obtain ⟨-, hp⟩ | ⟨-, -, rfl⟩ | ⟨source, -, -, -, -, hd⟩ := obtainBlock_cases ho
  · obtain ⟨-, rfl⟩ := Prod.mk.inj hp
    exact fixed_setFreeList h.alloc level _ _
  · exact .refl _
  · exact (fixed_setFreeList h.alloc source _ _).trans (fixed_splitDown _ hd)

theorem fixed_chargeBlock (h : Heap) (block size : Nat) :
    Fixed h.alloc (chargeBlock h block size).alloc := by
  by_cases hb : notEmpty block = true
  · rw [chargeBlock, if_pos hb]
    exact fixed_freeSize h.alloc _
  · rw [chargeBlock, if_neg hb]
    exact .refl _

theorem allocate_cases {n : Nat} (ha : allocatorAllocate h n = some (block, h')) :
    ∃ size, Math.ceilToPowerOfTwo n = some size ∧
      ((size > h.alloc.freeSize ∧ block = allocatorEmpty ∧ h' = h) ∨
      (size ≤ h.alloc.freeSize ∧ ∃ level index h₁ h₂, levelFromSize h.alloc size = some level ∧
        levelIndex level = some index ∧ obtainBlock h index = some (block, h₁) ∧
        flipAllocationBit h₁ block level = some h₂ ∧ h' = chargeBlock h₂ block size)) := by
  unfold allocatorAllocate at ha
  obtain ⟨size, hs, ha⟩ := Option.bind_eq_some_iff.mp ha
  refine ⟨size, hs, ?_⟩
  by_cases hlt : size > h.alloc.freeSize
  · have ha := (if_pos hlt).symm.trans ha
    rw [Option.pure_def, Option.some.injEq, Prod.mk.injEq] at ha
    exact .inl ⟨hlt, ha.1.symm, ha.2.symm⟩
  · have ha := (if_neg hlt).symm.trans ha
    obtain ⟨level, hlevel, ha⟩ := Option.bind_eq_some_iff.mp ha
    obtain ⟨index, hindex, ha⟩ := Option.bind_eq_some_iff.mp ha
    obtain ⟨⟨p, h₁⟩, ho, ha⟩ := Option.bind_eq_some_iff.mp ha
    obtain ⟨h₂, hf, ha⟩ := Option.bind_eq_some_iff.mp ha
    rw [Option.pure_def, Option.some.injEq, Prod.mk.injEq] at ha
    obtain ⟨rfl, rfl⟩ := ha
    exact .inr ⟨Nat.le_of_not_lt hlt, level, index, h₁, h₂, hlevel, hindex, ho, hf, rfl⟩

theorem fixed_allocate {n : Nat} (ha : allocatorAllocate h n = some (block, h')) :
    Fixed h.alloc h'.alloc := by
  obtain ⟨size, -, ⟨-, -, rfl⟩ | ⟨-, level, index, h₁, h₂, -, -, ho, hf, rfl⟩⟩ := allocate_cases ha
  · exact .refl _
  · have hflip : Fixed h₁.alloc h₂.alloc := flipAllocationBit_alloc hf ▸ .refl _
    exact ((fixed_obtainBlock ho).trans hflip).trans (fixed_chargeBlock h₂ block size)

theorem fixed_removeFromList (h : Heap) (block level : Nat) :
    Fixed h.alloc (removeFromList h block level).alloc := by
  simp only [removeFromList]
  generalize (if notEmpty (nodeNext h.mem block) = true then _ else h.mem) = m
  split
  · exact fixed_setFreeList h.alloc level _ _
  · exact fixed_setFreeList h.alloc level _ _

theorem fixed_mergeUp (level : Nat) {h : Heap} {block p l : Nat}
    (hm : mergeUp h block level = some (h', p, l)) : Fixed h.alloc h'.alloc := by
  induction level generalizing h block with
  | zero =>
    rw [mergeUp] at hm
    obtain ⟨h₁, -, hm⟩ := Option.bind_eq_some_iff.mp hm
    obtain ⟨b, -, hm⟩ := Option.bind_eq_some_iff.mp hm
    exact absurd hm (by simp)
  | succ level ih =>
    obtain ⟨h₁, hf, hm⟩ := Option.bind_eq_some_iff.mp hm
    obtain ⟨used, -, hm⟩ := Option.bind_eq_some_iff.mp hm
    have f₁ : Fixed h.alloc h₁.alloc := flipAllocationBit_alloc hf ▸ .refl _
    split at hm
    next =>
      rw [Option.pure_def, Option.some.injEq, Prod.mk.injEq] at hm
      exact hm.1 ▸ f₁
    next =>
      obtain ⟨buddy, -, hm⟩ := Option.bind_eq_some_iff.mp hm
      obtain ⟨bit, -, hm⟩ := Option.bind_eq_some_iff.mp hm
      obtain ⟨m, -, hm⟩ := Option.bind_eq_some_iff.mp hm
      have f₂ := f₁.trans (fixed_removeFromList h₁ buddy (level + 1))
      by_cases hl : level > 0
      · exact f₂.trans (ih (h := { removeFromList h₁ buddy (level + 1) with mem := m })
          ((if_pos hl).symm.trans hm))
      · have hm := (if_neg hl).symm.trans hm
        rw [Option.pure_def, Option.some.injEq, Prod.mk.injEq] at hm
        exact hm.1 ▸ f₂

theorem fixed_deallocateLevel {level : Int}
    (hd : allocatorDeallocateLevel h block level = some h') : Fixed h.alloc h'.alloc := by
  obtain ⟨size, -, hd⟩ := Option.bind_eq_some_iff.mp hd
  obtain ⟨index, -, hd⟩ := Option.bind_eq_some_iff.mp hd
  obtain ⟨⟨h₁, p, l⟩, hm, hd⟩ := Option.bind_eq_some_iff.mp hd
  obtain rfl := Option.some.inj hd
  have f₁ := fixed_mergeUp index (h := { h with alloc.freeSize := addSize h.alloc.freeSize size }) hm
  exact ((fixed_freeSize h.alloc _).trans f₁).trans (fixed_setFreeList h₁.alloc l _ _)

theorem fixed_call {c : Call} (hc : call h c = some h') : Fixed h.alloc h'.alloc := by
  cases c with
  | allocate size =>
    obtain ⟨⟨p, h₁⟩, ha, rfl⟩ := Option.map_eq_some_iff.mp hc
    exact fixed_allocate ha
  | deallocate block =>
    obtain ⟨level, -, hd⟩ := Option.bind_eq_some_iff.mp hc
    exact fixed_deallocateLevel hd
  | deallocateFast block size =>
    obtain ⟨rounded, -, hd⟩ := Option.bind_eq_some_iff.mp hc
    obtain ⟨level, -, hd⟩ := Option.bind_eq_some_iff.mp hd
    exact fixed_deallocateLevel hd
  | deallocateLevel block level => exact fixed_deallocateLevel hc
  | store address value =>
    obtain rfl := Option.some.inj hc
    exact .refl _

theorem fixed_of_calls {cs : List Call} (hrun : run call h cs = some h') :
    Fixed h.alloc h'.alloc :=
  preserved (I := fun s => Fixed h.alloc s.alloc) (fun _ _ _ f hc => f.trans (fixed_call hc))
    (.refl _) hrun

end fixed

end Lasagne.Buddy
