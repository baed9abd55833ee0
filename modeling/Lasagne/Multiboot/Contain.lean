import Mathlib
import Lasagne.Multiboot.Parse

namespace Lasagne.Multiboot
open CInt MemMap ByteMemory LittleEndian StateRun

def totalSize (m : Memory) : Nat := load m 4 0

def header (m : Memory) : Nat → Nat × Nat
  | 0 => (8, totalSize m - 8)
  | k + 1 => ((header m k).1 + tagSize m (header m k).1,
      remainder m (header m k).1 (header m k).2)

def mapBefore (m : Memory) (map : MemoryMap) : Nat → Option MemoryMap
  | 0 => some map
  | k + 1 => (mapBefore m map k).bind (handleTag m (header m k).1)

def Ends (m : Memory) (map : MemoryMap) (k : Nat) : Prop :=
  (header m k).2 = 0 ∨ mapBefore m map (k + 1) = none

section run
variable {m : Memory} {map : MemoryMap} {n : Nat}

theorem exists_first {n : Nat} (h : Ends m map n) :
    ∃ k ≤ n, Ends m map k ∧ ∀ j < k, ¬ Ends m map j := by
  classical
  exact ⟨Nat.find ⟨n, h⟩, Nat.find_min' ⟨n, h⟩ h, Nat.find_spec ⟨n, h⟩, fun j => Nat.find_min ⟨n, h⟩⟩

end run

section sizes
variable {m : Memory} {map : MemoryMap} {k n : Nat}

end sizes

section sample

end sample

end Lasagne.Multiboot
