import Mathlib
import Lasagne.Multiboot.Parse

namespace Lasagne.Multiboot
open CInt MemMap ByteMemory LittleEndian

structure MapTag (m : Memory) (mb e n : Nat) : Prop where
  size : load m 4 (mb + 4) = 16 + n * e
  stride : load m 4 (mb + 8) = e
  multiple : 8 ∣ e
  least : 24 ≤ e

def Described (m : Memory) (mb e n : Nat) (s : State) : Prop :=
  ∃ map, fillMemoryMap m mb s =
      .ok () ⟨map, s.log ++ mapLoads mb ++ fillEvents m e n (mb + 16)⟩ ∧
    addAreas s.map (areasAt m e n (mb + 16)) = some map

section stride
variable {m : Memory} {mb e n a : Nat} {s : State}

theorem MapTag.entryCount (h : MapTag m mb e n) : entryCount m mb = n := by
  have hlt := load_lt m 4 (mb + 4)
  have hleast := h.least
  have hn : n * 24 ≤ n * e := Nat.mul_le_mul_left n hleast
  rw [h.size] at hlt
  have hsub : (16 + n * e + wordSize - sizeofMemmap) % wordSize = n * e := by
    simp only [wordSize, sizeofMemmap]
    omega
  rw [Multiboot.entryCount, h.size, h.stride, hsub, Nat.mul_div_cancel n (by omega),
    toInt_of_lt (by omega)]
  rfl

theorem fillEvents_head (m : Memory) (stride n a : Nat) :
    (fillEvents m stride (n + 1) a).head? = some (.load (a + 16) 4) := by
  rw [fillEvents_succ]
  cases hu : (entryAt m a).usable with
  | true =>
    rw [entryEvents_usable hu]
    rfl
  | false =>
    rw [entryEvents_unusable hu]
    rfl

theorem fillEvents_eq_iff : fillEvents m 24 n a = fillEvents m e n a ↔ n ≤ 1 ∨ e = 24 := by
  constructor
  · intro h
    rcases n with _ | _ | n
    · exact Or.inl (Nat.zero_le 1)
    · exact Or.inl le_rfl
    · have hrest := (fillEvents_succ 24).symm.trans (h.trans (fillEvents_succ e))
      have hhead := congrArg List.head? (List.append_cancel_left hrest)
      rw [fillEvents_head, fillEvents_head] at hhead
      have heq : Event.load (a + 24 + 16) 4 = .load (a + e + 16) 4 := Option.some.inj hhead
      injection heq with hload
      exact Or.inr (by omega)
  · rintro (h | rfl)
    · interval_cases n
      · rfl
      · rfl
    · rfl

theorem areasAt_congr (h : n ≤ 1 ∨ e = 24) : areasAt m 24 n a = areasAt m e n a := by
  rcases h with h | rfl
  · interval_cases n
    · rfl
    · rfl
  · rfl

theorem MapTag.fillMemoryMap (h : MapTag m mb e n) (s : State) : fillMemoryMap m mb s =
    fillEntries m n (mb + 16) ⟨s.map, s.log ++ mapLoads mb⟩ := by
  have hne : load m 4 (mb + 8) ≠ 0 := by
    rw [h.stride]
    exact Nat.ne_of_gt (lt_of_lt_of_le (by decide) h.least)
  rw [fillMemoryMap_pos hne, h.entryCount]

theorem MapTag.same_stride (h : MapTag m mb e n) (hd : Described m mb e n s) : n ≤ 1 ∨ e = 24 := by
  obtain ⟨map, hrun, -⟩ := hd
  rw [h.fillMemoryMap] at hrun
  cases hcode : addAreas s.map (areasAt m 24 n (mb + 16)) with
  | none =>
    obtain ⟨t, hstop, -⟩ := fillEntries_none (s := ⟨s.map, s.log ++ mapLoads mb⟩) hcode
    rw [hstop] at hrun
    cases hrun
  | some map' =>
    rw [fillEntries_some (s := ⟨s.map, s.log ++ mapLoads mb⟩) hcode] at hrun
    injection hrun with _ hstate
    exact fillEvents_eq_iff.mp (List.append_cancel_left (congrArg State.log hstate))

theorem fillMemoryMap_described_iff (m : Memory) (mb e n : Nat) (s : State)
    (h : MapTag m mb e n) : Described m mb e n s ↔
      (n ≤ 1 ∨ e = 24) ∧ ∀ a ∈ areasAt m e n (mb + 16), a.begin < a.stop := by
  constructor
  · intro hd
    obtain ⟨map, -, hadd⟩ := id hd
    exact ⟨h.same_stride hd, (addAreas_isSome s.map _).mp ⟨map, hadd⟩⟩
  · rintro ⟨hsame, hproper⟩
    obtain ⟨map, hadd⟩ := (addAreas_isSome s.map _).mpr hproper
    refine ⟨map, ?_, hadd⟩
    rw [← areasAt_congr hsame] at hadd
    rw [← fillEvents_eq_iff.mpr hsame, h.fillMemoryMap]
    exact fillEntries_some hadd

end stride

section sample

-- two entries of 32 bytes; the code takes bytes 40 to 63 for the second one
def longTag : Memory := fun a =>
  (bytes 4 6 ++ bytes 4 80 ++ bytes 4 32 ++ bytes 4 0 ++
    bytes 8 0 ++ bytes 8 4096 ++ bytes 4 1 ++ bytes 4 0 ++ bytes 8 0 ++
    bytes 8 0x100000 ++ bytes 8 1 ++ bytes 4 1 ++ bytes 4 0 ++ bytes 8 0).getD a 0

theorem longTag_mapTag : MapTag longTag 0 32 2 :=
  ⟨by decide, by decide, by decide, by decide⟩

def plainTag : Memory := fun a =>
  (bytes 4 6 ++ bytes 4 64 ++ bytes 4 24 ++ bytes 4 0 ++
    bytes 8 0 ++ bytes 8 4096 ++ bytes 4 1 ++ bytes 4 0 ++
    bytes 8 0x100000 ++ bytes 8 1 ++ bytes 4 1 ++ bytes 4 0).getD a 0

theorem fillMemoryMap_described_sample : Described plainTag 0 24 2 ⟨empty, []⟩ ∧
    ¬ Described longTag 0 32 2 ⟨empty, []⟩ := by
  constructor
  · exact (fillMemoryMap_described_iff plainTag 0 24 2 ⟨empty, []⟩
      ⟨by decide, by decide, by decide, by decide⟩).mpr ⟨.inr rfl, by decide⟩
  · rw [fillMemoryMap_described_iff longTag 0 32 2 ⟨empty, []⟩ longTag_mapTag]
    exact fun h => absurd h.1 (by decide)

theorem long_entries_misread :
    MapTag longTag 0 32 2 ∧ areasAt longTag 32 2 16 = [⟨0, 4096⟩, ⟨0x100000, 0x100001⟩] ∧
      areasAt longTag 24 2 16 = [⟨0, 4096⟩, ⟨0, 0x100000⟩] ∧
      ¬ Described longTag 0 32 2 ⟨empty, []⟩ := by
  refine ⟨longTag_mapTag, by decide, by decide, fun hd => ?_⟩
  exact absurd (longTag_mapTag.same_stride hd) (by decide)

end sample

end Lasagne.Multiboot
