import Mathlib
import Lasagne.Frame.Boot
import Lasagne.MemoryMap.Canonical
import Lasagne.Multiboot.Encode

namespace Lasagne.Boot
open ByteMemory CInt Lasagne.Frame LittleEndian MemMap Multiboot Span StateRun

section parse
variable {m : Memory} {mb : Nat} {tags : List Tag} {s : Multiboot.State} {map : MemoryMap}
  {entries : List RawEntry}

end parse

section areas
variable {entries : List RawEntry}
  (hentries : ∀ e ∈ entries, e.entry.usable = true →
    0 < e.length.toNat ∧ e.base.toNat + e.length.toNat ≤ 2 ^ 52)

include hentries

end areas

section shrunk
variable {as cs : List Area}

end shrunk

section run
variable {map : MemoryMap} {s t : Frame.State} {f : Nat} {frames : List Nat}

end run

end Lasagne.Boot
