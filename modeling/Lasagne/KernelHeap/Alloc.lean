import Mathlib
import Lasagne.Buddy.Safety

namespace Lasagne.KernelHeap
open ByteMemory CInt Buddy

def kernelHeap : Nat := 0xffffffff81000000

def kernelHeapSize : Nat := 8 * 1024 * 1024

def kernelHeapLeaf : Nat := 64

-- rep movsb
def movsb (m : Memory) (dst src : Nat) : Nat → Memory
  | 0 => m
  | n + 1 => movsb (storeByte m dst (m src)) (dst + 1) (src + 1) n

-- through a null pointer there is nothing to write to
def memcpy (m : Memory) (dst src n : Nat) : Option Memory :=
  if n ≠ 0 ∧ empty dst then none else some (movsb m dst src n)

def memset (m : Memory) (dst : Nat) (value : BitVec 8) (n : Nat) : Option Memory :=
  if n ≠ 0 ∧ empty dst then none else some (fill m dst n value)

def initializeKernelHeap (m : Memory) : Option Heap :=
  let bitmapSize := allocatorBitmapsSize kernelHeapSize kernelHeapLeaf
  allocatorInit m (kernelHeap + bitmapSize) kernelHeapSize kernelHeapLeaf kernelHeap

def kalloc (h : Heap) (size : Nat) : Option (Nat × Heap) := allocatorAllocate h size

def krealloc (h : Heap) (ptr size : Nat) : Option (Nat × Heap) := do
  let currentSize ← allocatorAllocationSize h ptr
  let newSize ← Math.ceilToPowerOfTwo size
  if newSize = currentSize then return (ptr, h)
  let (newPtr, h) ← kalloc h newSize
  let mem ← memcpy h.mem newPtr ptr currentSize
  let h ← allocatorDeallocateFast { h with mem } ptr currentSize
  return (newPtr, h)

def kfree (h : Heap) (ptr : Nat) : Option Heap := allocatorDeallocate h ptr

def kzalloc (h : Heap) (size : Nat) : Option (Nat × Heap) := do
  let (ptr, h) ← kalloc h size
  let mem ← memset h.mem ptr 0 size
  return (ptr, { h with mem })

def heapRegion : Region where
  base := 0xffffffff81040000
  leafSize := kernelHeapLeaf
  leafBits := 6
  depth := 17
  bitmaps := 0xffffffff81000000
  leaf_pos := by decide
  leaf_eq := by decide
  leaf_ge := by decide
  size_le := by decide
  base_pos := by decide
  base_fits := by decide
  bitmaps_pos := by decide
  bitmaps_fit := by decide
  apart := by decide

theorem initializeKernelHeap_eq (m : Memory) : initializeKernelHeap m =
    allocatorInit m heapRegion.base heapRegion.size heapRegion.leafSize heapRegion.bitmaps := rfl

section copy
variable {m : Memory} {dst src n x : Nat}

theorem movsb_outside (h : x < dst ∨ dst + n ≤ x) : movsb m dst src n x = m x := by
  induction n generalizing m dst src with
  | zero => rfl
  | succ n ih =>
    rw [movsb, ih (by omega)]
    exact storeByte_other _ _ (by omega)

theorem movsb_inside (hapart : dst + n ≤ src ∨ src + n ≤ dst) {j : Nat} (hj : j < n) :
    movsb m dst src n (dst + j) = m (src + j) := by
  induction n generalizing m dst src j with
  | zero => omega
  | succ n ih =>
    rw [movsb]
    cases j with
    | zero =>
      rw [movsb_outside (by omega)]
      exact storeByte_same _ _ _
    | succ j =>
      have hstep : movsb (storeByte m dst (m src)) (dst + 1) (src + 1) n (dst + 1 + j) =
          storeByte m dst (m src) (src + 1 + j) := ih (by omega) (by omega)
      rw [show dst + (j + 1) = dst + 1 + j by omega, hstep, storeByte_other _ _ (by omega),
        show src + (j + 1) = src + 1 + j by omega]

end copy

end Lasagne.KernelHeap
