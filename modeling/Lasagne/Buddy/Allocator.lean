import Mathlib
import Lasagne.Library.ByteMemory
import Lasagne.Util.Bitmap
import Lasagne.Util.Math

namespace Lasagne.Buddy
open ByteMemory CInt

def allocatorMaxLevels : Nat := 40

def allocatorEmpty : Nat := 0

def addSize (x y : Nat) : Nat := (x + y) % wordSize

def subSize (x y : Nat) : Nat := (x + wordSize - y) % wordSize

structure Allocator where
  memory : Nat
  size : Nat
  freeSize : Nat
  leafSize : Nat
  maxLevel : Nat
  bitmapEntries : Int
  freeBlocks : Nat → Nat
  freeCount : Nat → Nat
  splitBitmap : Nat
  allocationBitmap : Nat

structure Heap where
  alloc : Allocator
  mem : Memory

-- struct allocator_node { prev; next; }, stored in the free block itself
def nodePrev (m : Memory) (p : Nat) : Nat := (loadWord m p).toNat

def nodeNext (m : Memory) (p : Nat) : Nat := (loadWord m (p + 8)).toNat

def setPrev (m : Memory) (p v : Nat) : Memory := storeWord m p (BitVec.ofNat 64 v)

def setNext (m : Memory) (p v : Nat) : Memory := storeWord m (p + 8) (BitVec.ofNat 64 v)

def empty (block : Nat) : Bool := block == allocatorEmpty

def notEmpty (block : Nat) : Bool := block != allocatorEmpty

def levelFromSize (a : Allocator) (size : Nat) : Option Int := do
  let whole ← Math.log2 a.size
  let part ← Math.log2 size
  return (whole : Int) - part

def sizeFromLevel (a : Allocator) (level : Int) : Option Nat := shiftRight a.size level

def uniqueIndex (level levelIndex : Int) : Option Int := do
  let one ← shiftOne level
  let sum ← checked (one + levelIndex)
  checked (sum - 1)

def indexInLevel (a : Allocator) (block : Nat) (level : Int) : Option Int := do
  let size ← sizeFromLevel a level
  if size = 0 then none
  else return toInt (subSize block a.memory / size)

def allocationBitIndex (a : Allocator) (block : Nat) (level : Int) : Option Int := do
  let levelIndex ← indexInLevel a block level
  uniqueIndex (level - 1) (levelIndex.tdiv 2)

def splitBitIndex (a : Allocator) (block : Nat) (level : Int) : Option Int := do
  let levelIndex ← indexInLevel a block level
  uniqueIndex level levelIndex

def calculateBuddyAddress (a : Allocator) (block : Nat) (level : Int) : Option Nat := do
  let one ← shiftOne ((a.maxLevel : Int) - level)
  let mask := toSize one * a.leafSize % wordSize
  return addSize (subSize block a.memory ^^^ mask) a.memory

def flipAllocationBit (h : Heap) (block : Nat) (level : Int) : Option Heap :=
  if level = 0 then some h
  else do
    let index ← allocationBitIndex h.alloc block level
    let mem ← Bitmap.flipBit h.mem h.alloc.allocationBitmap index
    return { h with mem }

def getAllocationBit (h : Heap) (block : Nat) (level : Int) : Option Nat := do
  let index ← allocationBitIndex h.alloc block level
  Bitmap.getBit h.mem h.alloc.allocationBitmap index

def allocatorInit (m : Memory) (memory size leafSize bitmaps : Nat) : Option Heap := do
  let maxLevel ← Math.log2 (size / leafSize)
  let one ← shiftOne maxLevel
  let bitmapEntries ← checked (one - 1)
  let bitmapSize := toSize (bitmapEntries.tdiv 8 + 1)
  let bitmaps := if empty bitmaps then memory else bitmaps
  let splitBitmap := addSize bitmaps bitmapSize
  return {
    alloc := {
      memory, size, leafSize, maxLevel, bitmapEntries, splitBitmap
      freeSize := size
      allocationBitmap := bitmaps
      freeBlocks := fun level => if level = 0 then memory else allocatorEmpty
      freeCount := fun level => if level = 0 then 1 else 0 }
    mem := fill (fill m bitmaps bitmapSize 0#8) splitBitmap bitmapSize 0#8 }

def allocatorBitmapsSize (memorySize leafSize : Nat) : Nat :=
  memorySize / leafSize * 2 % wordSize

def setFreeList (a : Allocator) (level head count : Nat) : Allocator :=
  { a with
    freeBlocks := Function.update a.freeBlocks level head
    freeCount := Function.update a.freeCount level count }

def split (h : Heap) (block level : Nat) : Option Heap := do
  let size ← sizeFromLevel h.alloc level
  let newBlock := addSize block (size / 2)
  let index ← splitBitIndex h.alloc block level
  let mem ← Bitmap.setBit h.mem h.alloc.splitBitmap index
  let h ← flipAllocationBit { h with mem } block level
  let next := h.alloc.freeBlocks (level + 1)
  let mem := setPrev h.mem newBlock allocatorEmpty
  let mem := setNext mem newBlock next
  let mem := if notEmpty next then setPrev mem next newBlock else mem
  return {
    alloc := setFreeList h.alloc (level + 1) newBlock (addSize (h.alloc.freeCount (level + 1)) 1)
    mem }

-- the do-while search of create_block, from level - 1 down to level 0
def findSource (a : Allocator) : Nat → Option Nat
  | 0 => none
  | level + 1 => if empty (a.freeBlocks level) then findSource a level else some level

def splitDown (h : Heap) (block level : Nat) : Nat → Option Heap
  | 0 => some h
  | n + 1 => do
    let h ← split h block level
    splitDown h block (level + 1) n

def createBlock (h : Heap) (level : Nat) : Option (Nat × Heap) :=
  match findSource h.alloc level with
  | none => some (allocatorEmpty, h)
  | some source => do
    let block := h.alloc.freeBlocks source
    let alloc := setFreeList h.alloc source (nodeNext h.mem block)
      (subSize (h.alloc.freeCount source) 1)
    let h ← splitDown { h with alloc } block source (level - source)
    return (block, h)

def popBlock (h : Heap) (level : Nat) : Nat × Heap :=
  let block := h.alloc.freeBlocks level
  let next := nodeNext h.mem block
  let mem := if notEmpty next then setPrev h.mem next allocatorEmpty else h.mem
  (block, { alloc := setFreeList h.alloc level next (subSize (h.alloc.freeCount level) 1), mem })

def obtainBlock (h : Heap) (level : Nat) : Option (Nat × Heap) :=
  if notEmpty (h.alloc.freeBlocks level) then some (popBlock h level) else createBlock h level

def chargeBlock (h : Heap) (block size : Nat) : Heap :=
  if notEmpty block then { h with alloc.freeSize := subSize h.alloc.freeSize size } else h

-- an index outside free_blocks is undefined
def levelIndex (level : Int) : Option Nat :=
  if 0 ≤ level ∧ level < allocatorMaxLevels then some level.toNat else none

def allocatorAllocate (h : Heap) (size : Nat) : Option (Nat × Heap) := do
  let size ← Math.ceilToPowerOfTwo size
  if size > h.alloc.freeSize then return (allocatorEmpty, h)
  let level ← levelFromSize h.alloc size
  let (block, h) ← obtainBlock h (← levelIndex level)
  let h ← flipAllocationBit h block level
  return (block, chargeBlock h block size)

def removeFromList (h : Heap) (block level : Nat) : Heap :=
  let next := nodeNext h.mem block
  let mem := if notEmpty next then setPrev h.mem next (nodePrev h.mem block) else h.mem
  let count := subSize (h.alloc.freeCount level) 1
  if notEmpty (nodePrev mem block) then
    { alloc := setFreeList h.alloc level (h.alloc.freeBlocks level) count
      mem := setNext mem (nodePrev mem block) (nodeNext mem block) }
  else { alloc := setFreeList h.alloc level (nodeNext mem block) count, mem }

def pushBlock (h : Heap) (block level : Nat) : Heap :=
  let head := h.alloc.freeBlocks level
  let mem := if notEmpty head then setPrev h.mem head block else h.mem
  let mem := setNext mem block head
  let mem := setPrev mem block allocatorEmpty
  { alloc := setFreeList h.alloc level block (addSize (h.alloc.freeCount level) 1), mem }

-- at level 0 the loop body ends in get_allocation_bit, whose index is computed with 1 << -1
def mergeUp (h : Heap) (block : Nat) : Nat → Option (Heap × Nat × Nat)
  | 0 => do
    let h ← flipAllocationBit h block 0
    let _ ← getAllocationBit h block 0
    none
  | level + 1 => do
    let h ← flipAllocationBit h block (level + 1 : Nat)
    let used ← getAllocationBit h block (level + 1 : Nat)
    if used ≠ 0 then return (h, block, level + 1)
    let buddy ← calculateBuddyAddress h.alloc block (level + 1 : Nat)
    let h := removeFromList h buddy (level + 1)
    let parentSplitBit ← splitBitIndex h.alloc block level
    let mem ← Bitmap.resetBit h.mem h.alloc.splitBitmap parentSplitBit
    let h := { h with mem }
    let block := if block < buddy then block else buddy
    if level > 0 then mergeUp h block level
    else return (h, block, level)

def allocatorDeallocateLevel (h : Heap) (block : Nat) (level : Int) : Option Heap := do
  let size ← sizeFromLevel h.alloc level
  let h := { h with alloc.freeSize := addSize h.alloc.freeSize size }
  let (h, block, level) ← mergeUp h block (← levelIndex level)
  return pushBlock h block level

def allocatorDeallocateFast (h : Heap) (block size : Nat) : Option Heap := do
  let size ← Math.ceilToPowerOfTwo size
  let level ← levelFromSize h.alloc size
  allocatorDeallocateLevel h block level

def findLevel (h : Heap) (block : Nat) : Nat → Option Nat
  | 0 => some 0
  | level + 1 => do
    let bit ← splitBitIndex h.alloc block level
    let isSplit ← Bitmap.getBit h.mem h.alloc.splitBitmap bit
    if isSplit ≠ 0 then return level + 1
    else findLevel h block level

def allocationLevel (h : Heap) (block : Nat) : Option Nat := findLevel h block h.alloc.maxLevel

def allocatorDeallocate (h : Heap) (block : Nat) : Option Heap := do
  let level ← allocationLevel h block
  allocatorDeallocateLevel h block level

def allocatorAllocationSize (h : Heap) (block : Nat) : Option Nat := do
  let level ← allocationLevel h block
  sizeFromLevel h.alloc level

end Lasagne.Buddy
