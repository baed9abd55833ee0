import Mathlib
import Lasagne.Pages.Unmap

namespace Lasagne.Pages
open RadixTree StateRun
open X86 (canonical)

def pageAt (start : Word) (k : Nat) : Word := start + BitVec.ofNat 64 (4096 * k)

def pageCount (size : Word) : Nat := (size.toNat + 4095) / 4096

-- a page-aligned range outside the window through which the tables are seen
structure PageRange (start size : Word) : Prop where
  aligned : start % 4096 = 0
  canonical : ∀ k < pageCount size, canonical (pageAt start k)
  outside : ∀ k < pageCount size, index (pageAt start k) 39 ≠ pgSelfIndex

section address
variable {a b start size : Word} {j k : Nat}

theorem canonical_cases (h : canonical a) : a.toNat < 2 ^ 47 ∨ 2 ^ 64 - 2 ^ 47 ≤ a.toNat := by
  have hint := congrArg BitVec.toInt (show (a.setWidth 48).signExtend 64 = a from h)
  rw [BitVec.toInt_signExtend_of_le (by decide)] at hint
  have hlow := BitVec.le_two_mul_toInt (x := a.setWidth 48)
  have hhigh := BitVec.two_mul_toInt_lt (x := a.setWidth 48)
  rw [hint, BitVec.toInt_eq_toNat_cond] at hlow hhigh
  split at hlow <;> omega

theorem toNat_pageAt : (pageAt start k).toNat = (start.toNat + 4096 * k) % 2 ^ 64 := by
  rw [pageAt, BitVec.toNat_add, BitVec.toNat_ofNat, Nat.add_mod_mod]

theorem indices_of_page (h : a >>> 12 = b >>> 12) : indices a = indices b := by
  have hindex {s : Nat} (hs : 12 ≤ s) : index a s = index b s := by
    refine BitVec.eq_of_getLsbD_eq fun i _ => ?_
    have hbit := congrArg (fun w => w.getLsbD (s + i - 12)) h
    simp only [BitVec.getLsbD_ushiftRight, show 12 + (s + i - 12) = s + i by omega] at hbit
    rw [index, index, BitVec.getLsbD_extractLsb', BitVec.getLsbD_extractLsb', hbit]
  rw [indices, indices, hindex (by decide), hindex (by decide), hindex (by decide), hindex le_rfl]

theorem page_eq_iff : a >>> 12 = b >>> 12 ↔ a.toNat / 4096 = b.toNat / 4096 := by
  rw [← BitVec.toNat_inj, BitVec.toNat_ushiftRight, BitVec.toNat_ushiftRight,
    Nat.shiftRight_eq_div_pow, Nat.shiftRight_eq_div_pow]

theorem pageCount_eq_zero_iff : pageCount size = 0 ↔ size = 0 := by
  rw [← BitVec.toNat_inj, pageCount]
  change _ ↔ size.toNat = 0
  omega

namespace PageRange
variable (h : PageRange start size)
include h

theorem start_aligned : start.toNat % 4096 = 0 := by
  have := congrArg BitVec.toNat h.aligned
  simpa using this

theorem pageCount_le : pageCount size ≤ 2 ^ 50 := by
  by_contra hlt
  have hfirst := canonical_cases (h.canonical 0 (by omega))
  have hlast := canonical_cases (h.canonical (2 ^ 50) (by omega))
  rw [toNat_pageAt] at hfirst hlast
  have := start.isLt
  omega

theorem pageAt_aligned (k : Nat) : pageAt start k % 4096 = 0 := by
  rw [← BitVec.toNat_inj, BitVec.toNat_umod, toNat_pageAt]
  have := h.start_aligned
  change _ % 4096 = 0
  omega

theorem path_outside (hk : k < pageCount size) : Outside (indices (pageAt start k)) :=
  away_cons.mpr (h.outside k hk)

theorem indices_inj (hj : j < pageCount size) (hk : k < pageCount size)
    (he : indices (pageAt start j) = indices (pageAt start k)) : j = k := by
  have hpage := page_eq_iff.mp (page_of_indices (h.canonical j hj) (h.canonical k hk) he)
  rw [toNat_pageAt, toNat_pageAt] at hpage
  have := h.pageCount_le
  have := h.start_aligned
  omega

theorem pageAt_of (ha : (a - start).toNat < 4096 * pageCount size) :
    (a - start).toNat / 4096 < pageCount size ∧
      a >>> 12 = pageAt start ((a - start).toNat / 4096) >>> 12 := by
  refine ⟨by omega, page_eq_iff.mpr ?_⟩
  have hsub : a.toNat = (start.toNat + (a - start).toNat) % 2 ^ 64 := by
    rw [← BitVec.toNat_add, BitVec.add_comm, BitVec.sub_add_cancel]
  have := h.pageCount_le
  have := h.start_aligned
  rw [toNat_pageAt]
  omega

theorem exists_page (ha : (a - start).toNat < 4096 * pageCount size) :
    ∃ k < pageCount size, indices a = indices (pageAt start k) := by
  obtain ⟨hk, hpage⟩ := h.pageAt_of ha
  exact ⟨_, hk, indices_of_page hpage⟩

theorem inside_of (hk : k < pageCount size) (ha : a >>> 12 = pageAt start k >>> 12) :
    (a - start).toNat < 4096 * pageCount size := by
  have hpage := page_eq_iff.mp ha
  have hsub : a.toNat = (start.toNat + (a - start).toNat) % 2 ^ 64 := by
    rw [← BitVec.toNat_add, BitVec.add_comm, BitVec.sub_add_cancel]
  have hlt := (a - start).isLt
  have := h.pageCount_le
  have := h.start_aligned
  rw [toNat_pageAt] at hpage
  omega

theorem offset_lt_iff (hk : k ≤ pageCount size) :
    BitVec.ofNat 64 (4096 * k) < size ↔ k < pageCount size := by
  have := h.pageCount_le
  rw [BitVec.lt_def, BitVec.toNat_ofNat, Nat.mod_eq_of_lt (by omega), pageCount]
  omega

end PageRange

theorem offset_succ : BitVec.ofNat 64 (4096 * k) + 4096 = BitVec.ofNat 64 (4096 * (k + 1)) := by
  rw [Nat.mul_succ, BitVec.ofNat_add]
  rfl

end address

section loops
variable {start size flags mapFlags physical : Word} {fuel k : Nat}
  (h : PageRange start size) (hk : k ≤ pageCount size)
include h hk

theorem mapLoop_eq : mapLoop start size flags mapFlags (fuel + 1) (BitVec.ofNat 64 (4096 * k)) physical =
    if k < pageCount size then do
      let physical ← (if flags &&& mapImmediate ≠ 0 then getFrame else pure physical : Kernel Word)
      mapPage (pageAt start k) physical mapFlags
      mapLoop start size flags mapFlags fuel (BitVec.ofNat 64 (4096 * (k + 1))) physical
    else pure () := by
  rw [mapLoop, offset_succ]
  exact if_congr (h.offset_lt_iff hk) rfl rfl

theorem unmapLoop_eq : unmapLoop start size (fuel + 1) (BitVec.ofNat 64 (4096 * k)) =
    if k < pageCount size then do
      unmapStep (pageAt start k)
      unmapLoop start size fuel (BitVec.ofNat 64 (4096 * (k + 1)))
    else pure () := by
  rw [unmapLoop, offset_succ]
  exact if_congr (h.offset_lt_iff hk) rfl rfl

end loops

end Lasagne.Pages
