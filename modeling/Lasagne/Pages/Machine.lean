import Mathlib
import Lasagne.Library.StateRun
import Lasagne.Library.X86
import Lasagne.Pages.Entry

namespace Lasagne.Pages
open RadixTree
open X86 (canonical)

-- frames holds the answers of get_frame, calls how many were taken; freed and installed are the
-- frames passed to free_frame and the entries written so far, latest first
structure Machine where
  mem : Word → Index → Word
  cr3 : Word
  zeroPage : Word
  frames : Nat → Word
  calls : Nat
  freed : List Word
  installed : List Word

def Machine.withMem (m : Machine) (mem : Word → Index → Word) : Machine := { m with mem }

@[simp] theorem Machine.withMem_mem (m : Machine) (mem : Word → Index → Word) :
    (m.withMem mem).mem = mem := rfl

@[simp] theorem Machine.withMem_cr3 (m : Machine) (mem : Word → Index → Word) :
    (m.withMem mem).cr3 = m.cr3 := rfl

inductive Stop where
  | fault (address : Word)
  | assertion
  | exception
  | running
  deriving DecidableEq, Repr

-- a run that stops keeps what it wrote
abbrev Kernel := EStateM Stop Machine

def index (address : Word) (shift : Nat) : Index := address.extractLsb' shift 9

def indices (address : Word) : List Index :=
  [index address 39, index address 30, index address 21, index address 12]

def tableAt (m : Machine) (path : List Index) : Option Word := reach child m.mem m.cr3 path

-- the frame and the word in it an address leads to, through tables without huge pages
def walk (m : Machine) (address : Word) : Option (Word × Index) :=
  if canonical address then (tableAt m (indices address)).map fun f => (f, index address 3)
  else none

def load (address : Word) : Kernel Word := fun m =>
  match walk m address with
  | some (f, i) => .ok (m.mem f i) m
  | none => .error (.fault address) m

def store (address value : Word) : Kernel Unit := fun m =>
  match walk m address with
  | some (f, i) => .ok () (m.withMem (RadixTree.store m.mem f i value))
  | none => .error (.fault address) m

def install (address value : Word) : Kernel Unit := do
  store address value
  modify fun m => { m with installed := value :: m.installed }

def memsetZero (page : Word) : Kernel Unit :=
  (List.finRange 512).forM fun i => store (page + BitVec.ofNat 64 (8 * i)) 0

def getFrame : Kernel Word := fun m => .ok (m.frames m.calls) { m with calls := m.calls + 1 }

def freeFrame (frame : Word) : Kernel Unit := modify fun m => { m with freed := frame :: m.freed }

-- accesses are translated by the tables as they stand
def invlpg (_ : Word) : Kernel Unit := pure ()

def genericExceptionHandler : Kernel Unit := throw .exception

def when (c : Prop) [Decidable c] (x : Kernel Unit) : Kernel Unit := if c then x else pure ()

structure PtEntries where
  entries : Fin 4 → Word
  presentMask : Nat

def entryAddress (address : Word) : Word :=
  address >>> 9 &&& ~~~(l4pteMask ||| 7) ||| (0xFFFF000000000000 ||| pgSelf <<< 39)

def markPresent (entries : Fin 4 → Word) : List (Fin 4) → Nat → Kernel Nat
  | [], mask => pure mask
  | i :: is, mask => do
    let entry ← load (entries i)
    if entry &&& pgPresent != 0 then markPresent entries is (mask ||| 1 <<< i.val) else pure mask

def ptes (address : Word) : Kernel PtEntries := do
  let entries := fun i : Fin 4 => Nat.iterate entryAddress (4 - i) address
  let presentMask ← markPresent entries [0, 1, 2, 3] 0
  pure ⟨entries, presentMask⟩

def increaseCounter (pte : Word) : Kernel Unit := do
  let entry ← load pte
  store pte (entry + oneReference)

def decreaseCounter (pte : Word) : Kernel Nat := do
  let entry ← load pte
  store pte (entry - oneReference)
  let entry ← load pte
  pure (refcount entry)

def ensureLevel (e : PtEntries) (i : Fin 3) : Kernel Unit :=
  if e.presentMask &&& 1 <<< i.val ≠ 0 then pure ()
  else do
    let frame ← getFrame
    install (e.entries i.castSucc) (frame ||| pgPresent ||| pgRw ||| pgUser)
    let newPt := e.entries i.succ &&& ~~~0xFFF
    invlpg newPt
    memsetZero newPt
    when (i > 0) (increaseCounter (e.entries (i.castSucc - 1)))

def ensurePtExists (e : PtEntries) : Kernel Unit := [0, 1, 2].forM (ensureLevel e)

def cleanLevels (e : PtEntries) : List (Fin 4) → Kernel Unit
  | [] => pure ()
  | i :: is => do
    let count ← decreaseCounter (e.entries i)
    if count ≠ 0 then pure ()
    else do
      let entry ← load (e.entries i)
      freeFrame (entry &&& physAddrMask)
      store (e.entries i) 0
      cleanLevels e is

def cleanPts (e : PtEntries) : Kernel Unit := cleanLevels e [2, 1, 0]

def convertFlags (flags : Word) : Word :=
  let output := flags &&& (mapUser ||| mapExe)
  let output := output ||| pgPresent
  let output := output ^^^ mapExe
  if flags &&& mapRw ≠ 0 then
    if flags &&& mapImmediate ≠ 0 then output ||| pgRw else output ||| pgLazy
  else output

theorem convertFlags_and {c : Word} (hc : (mapUser ||| mapExe) &&& c = 0) (flags : Word) :
    convertFlags flags &&& c = (pgPresent ||| if flags &&& mapRw ≠ 0 then
      if flags &&& mapImmediate ≠ 0 then pgRw else pgLazy else 0) &&& c := by
  have hexe : mapExe &&& c = 0 := (BitVec.or_eq_zero_iff.mp (BitVec.and_or_distrib_right ▸ hc)).2
  have hkept : flags &&& (mapUser ||| mapExe) &&& c = 0 := by
    rw [BitVec.and_assoc, hc]
    exact BitVec.and_zero
  have hxor (x y : Word) : (x ^^^ y) &&& c = (x &&& c) ^^^ (y &&& c) :=
    BitVec.eq_of_getLsbD_eq fun i _ => by simp [Bool.and_xor_distrib_right]
  have hbase : ((flags &&& (mapUser ||| mapExe) ||| pgPresent) ^^^ mapExe) &&& c = pgPresent &&& c := by
    rw [hxor, BitVec.and_or_distrib_right, hkept, hexe]
    simp
  rw [convertFlags]
  by_cases hrw : flags &&& mapRw ≠ 0
  · by_cases himm : flags &&& mapImmediate ≠ 0
    · rw [if_pos hrw, if_pos himm, if_pos hrw, if_pos himm, BitVec.and_or_distrib_right, hbase,
        BitVec.and_or_distrib_right]
    · rw [if_pos hrw, if_neg himm, if_pos hrw, if_neg himm, BitVec.and_or_distrib_right, hbase,
        BitVec.and_or_distrib_right]
  · rw [if_neg hrw, if_neg hrw, hbase]
    simp

theorem present_convertFlags (flags : Word) : present (convertFlags flags) = true := by
  have hand := convertFlags_and (c := pgPresent) (by decide) flags
  rw [present, hand]
  split_ifs <;> decide

theorem convertFlags_refcount (flags : Word) : convertFlags flags &&& pgRefcountMask = 0 := by
  rw [convertFlags_and (by decide)]
  split_ifs <;> decide

theorem frameOf_convertFlags (flags : Word) : frameOf (convertFlags flags) = 0 := by
  rw [frameOf, convertFlags_and (by decide)]
  split_ifs <;> decide

theorem convertFlags_lazy (flags : Word) : convertFlags flags &&& pgLazy ≠ 0 ↔
    flags &&& mapRw ≠ 0 ∧ flags &&& mapImmediate = 0 := by
  rw [convertFlags_and (by decide)]
  by_cases hrw : flags &&& mapRw ≠ 0
  · by_cases himm : flags &&& mapImmediate ≠ 0
    · rw [if_pos hrw, if_pos himm]
      exact ⟨fun h => absurd (by decide) h, fun h => absurd h.2 himm⟩
    · rw [if_pos hrw, if_neg himm]
      exact ⟨fun _ => ⟨hrw, not_not.mp himm⟩, fun _ => by decide⟩
  · rw [if_neg hrw]
    exact ⟨fun h => absurd (by decide) h, fun h => absurd h.1 hrw⟩

def assert (c : Prop) [Decidable c] : Kernel Unit := if c then pure () else throw .assertion

def mapPage (virt physical physicalFlags : Word) : Kernel Unit := do
  assert (virt % 4096 = 0)
  assert (physical % 4096 = 0)
  let e ← ptes virt
  when (e.presentMask &&& 1 <<< 2 = 0) (ensurePtExists e)
  when (e.presentMask &&& 1 <<< 3 = 0) (increaseCounter (e.entries 2))
  install (e.entries 3) (physical ||| physicalFlags)
  invlpg virt

-- e.entries[3] = 0 clears the pointer in the local copy, not the entry it points at
def unmapPage (virt : Word) (_flags : Word) : Kernel Word := do
  assert (virt % 4096 = 0)
  let e ← ptes virt
  let entry ← load (e.entries 3)
  let physical := entry &&& physAddrMask
  let e := { e with entries := Function.update e.entries 3 0 }
  cleanPts e
  pure physical

-- fuel bounds the iterations of a loop whose counter may wrap around
def mapLoop (start size flags mapFlags : Word) : Nat → Word → Word → Kernel Unit
  | 0, _, _ => throw .running
  | fuel + 1, i, physical =>
    if i < size then do
      let physical ← (if flags &&& mapImmediate ≠ 0 then getFrame else pure physical : Kernel Word)
      mapPage (start + i) physical mapFlags
      mapLoop start size flags mapFlags fuel (i + 4096) physical
    else pure ()

def mapRange (fuel : Nat) (start size flags : Word) : Kernel Unit := do
  let m ← get
  mapLoop start size flags (convertFlags flags) fuel 0 m.zeroPage

def unmapStep (address : Word) : Kernel Unit := do
  let e ← ptes address
  if e.presentMask = 0xF then do
    let entry ← load (e.entries 3)
    let frameAllocated := entry &&& pgLazy == 0
    let physical ← unmapPage address 0
    when frameAllocated (freeFrame physical)
  else pure ()

def unmapLoop (start size : Word) : Nat → Word → Kernel Unit
  | 0, _ => throw .running
  | fuel + 1, i =>
    if i < size then do
      unmapStep (start + i)
      unmapLoop start size fuel (i + 4096)
    else pure ()

def unmapRange (fuel : Nat) (start size : Word) : Kernel Unit := unmapLoop start size fuel 0

-- address is what cr2 holds
def pageFaultHandler (address errorCode : Word) : Kernel Unit := do
  let e ← ptes address
  if errorCode &&& pfProtViolation ≠ 0 ∧ errorCode &&& pfWrite ≠ 0 then do
    let entry ← load (e.entries 3)
    if entry &&& pgLazy ≠ 0 then do
      let flags := entry &&& ~~~(physAddrMask ||| pgLazy) ||| pgRw
      let frame ← getFrame
      install (e.entries 3) (frame ||| flags)
      invlpg address
    else genericExceptionHandler
  else genericExceptionHandler

end Lasagne.Pages
