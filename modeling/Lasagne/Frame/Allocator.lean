import Mathlib
import Lasagne.Library.ByteMemory
import Lasagne.Library.CInt
import Lasagne.MemoryMap.Map

namespace Lasagne.Frame
open ByteMemory CInt MemMap

def pageSize : Nat := 4096

-- pte is the entry of the window the node is seen through; current tells it from NULL
structure Allocator where
  begin : Nat
  stop : Nat
  size : Nat
  capacity : Nat
  free : Nat
  current : Bool
  count : Nat
  currentMapPosition : Nat
  pte : Nat
  deriving DecidableEq, Repr

structure State where
  alloc : Allocator
  mem : Memory

def intersection (beginA stopA beginB stopB : Nat) : Nat :=
  let maxBegin := if beginA > beginB then beginA else beginB
  let minStop := if stopA < stopB then stopA else stopB
  let diff := (BitVec.ofNat 64 minStop - BitVec.ofNat 64 maxBegin).toInt
  if diff > 0 then diff.toNat else 0

-- position is what the structure held before, for a map without relevant entry
def allocInit (map : MemoryMap) (position begin stop : Nat) : Option Allocator :=
  if begin % pageSize = 0 ∧ stop % pageSize = 0 ∧ begin < stop then
    let free := map.area.foldl
      (fun free area => (free + intersection begin stop area.begin area.stop) % wordSize) 0
    let position := (map.area.findIdx? fun area => begin < area.stop).getD position
    let area := map.area.getD position ⟨0, 0⟩
    let begin := if begin < area.begin then area.begin else begin
    some {
      begin
      stop
      size := (stop + wordSize - begin) % wordSize
      capacity := free
      free
      current := false
      count := 0
      currentMapPosition := position
      pte := 3 }
  else none

def extend (map : MemoryMap) (a : Allocator) : Nat × Allocator :=
  let a :=
    if a.begin = (map.area.getD a.currentMapPosition ⟨0, 0⟩).stop then
      { a with
        currentMapPosition := a.currentMapPosition + 1
        begin := (map.area.getD (a.currentMapPosition + 1) ⟨0, 0⟩).begin }
    else a
  (a.begin, { a with begin := a.begin + pageSize })

def current (a : Allocator) : Nat := a.pte / pageSize * pageSize

def mapNode (a : Allocator) (addr : Nat) : Allocator :=
  if addr = 0 then { a with current := false }
  else { a with pte := (a.pte &&& 0xFFF) ||| addr, current := true }

def nodeNext (m : Memory) (node : Nat) : Nat := (loadWord m node).toNat

def nodeFrame (m : Memory) (node i : Nat) : Nat := (loadWord m (node + 8 + 8 * i)).toNat

def setNext (m : Memory) (node next : Nat) : Memory := storeWord m node (BitVec.ofNat 64 next)

def setFrame (m : Memory) (node i frame : Nat) : Memory :=
  storeWord m (node + 8 + 8 * i) (BitVec.ofNat 64 frame)

def zeroFrame (m : Memory) (frame : Nat) : Option Memory :=
  if frame % pageSize = 0 then some (fill m frame pageSize 0) else none

-- what is handed out, before it is zeroed
def takeFrame (map : MemoryMap) (s : State) : Nat × Allocator :=
  let a := s.alloc
  if a.count > 1 then
    (nodeFrame s.mem (current a) (a.count - 2), { a with count := a.count - 1 })
  else if a.count = 1 then
    let frame := current a
    let a := mapNode a (nodeNext s.mem (current a))
    (frame, if a.current then { a with count := 512 } else { a with count := 0 })
  else extend map a

-- a failed assertion stops the kernel
def allocFrame (map : MemoryMap) (s : State) : Option (Nat × State) :=
  if s.alloc.free = 0 then some (0, s)
  else
    let (frame, a) := takeFrame map s
    if frame = wordSize - 1 then none
    else
      (zeroFrame s.mem frame).map fun mem =>
        (frame, { alloc := { a with free := (a.free + wordSize - pageSize) % wordSize }, mem })

-- through a null pointer there is nothing to write to
def pushFrame (s : State) (frame : Nat) : Option State :=
  let a := s.alloc
  if a.count = 0 ∨ a.count = 512 then
    let next := current a
    let a := mapNode a frame
    if a.current then
      some { alloc := { a with count := 1 }, mem := setNext s.mem (current a) next }
    else none
  else if a.current then
    some {
      alloc := { a with count := a.count + 1 }
      mem := setFrame s.mem (current a) (a.count - 1) frame }
  else none

def deallocFrame (s : State) (frame : Nat) : Option State :=
  if frame % pageSize = 0 then
    (pushFrame s frame).bind fun s =>
      let free := (s.alloc.free + pageSize) % wordSize
      if free ≤ s.alloc.size then some { s with alloc := { s.alloc with free } } else none
  else none

end Lasagne.Frame
