import Mathlib
import Lasagne.Library.RadixTree

namespace Lasagne.Pages

abbrev Word := BitVec 64

abbrev Index := BitVec 9

scoped instance levels : NeZero 4 := ⟨by decide⟩

def pgPresent : Word := 1 <<< 0
def pgRw : Word := 1 <<< 1
def pgUser : Word := 1 <<< 2
def pgNx : Word := 1 <<< 63

-- one of the bits the hardware ignores
def pgLazy : Word := 1 <<< 9

def pfProtViolation : Word := 1 <<< 0
def pfWrite : Word := 1 <<< 1

def mapRw : Word := pgRw
def mapExe : Word := pgNx
def mapImmediate : Word := 1 <<< 12
def mapUser : Word := pgUser

def pgRefcountOffset : Nat := 52
def pgRefcountMask : Word := 0x3FF <<< 52

-- what the counter of an entry goes up and down by
def oneReference : Word := 1 <<< pgRefcountOffset

def pgSelf : Word := 510

def pgSelfIndex : Index := pgSelf.setWidth 9

def l4pteMask : Word := 0x1FF <<< 39

def physAddrMask : Word := 0xFFFFFFFFFF000

def present (entry : Word) : Bool := entry &&& pgPresent != 0

def frameOf (entry : Word) : Word := entry &&& physAddrMask

def refcount (entry : Word) : Nat := ((entry &&& pgRefcountMask) >>> pgRefcountOffset).toNat

def child (entry : Word) : Option Word := if present entry then some (frameOf entry) else none

-- what the hardware sees of an entry: all but the counter of a present one
def view (entry : Word) : Option Word :=
  if present entry then some (entry &&& ~~~pgRefcountMask) else none

section fields
variable {e p x : Word}

theorem child_isSome : (child e).isSome = present e := by
  rw [child]
  cases present e <;> rfl

theorem child_eq_some {f : Word} : child e = some f ↔ present e = true ∧ frameOf e = f := by
  rw [child]
  cases present e <;> simp

theorem child_eq_none : child e = none ↔ present e = false := by
  rw [child]
  cases present e <;> simp

theorem view_eq_none : view e = none ↔ present e = false := by
  rw [view]
  cases present e <;> simp

theorem view_of_present (h : present e = true) : view e = some (e &&& ~~~pgRefcountMask) := by
  rw [view, if_pos h]

theorem present_of_view (h : view x = some e) : present x = true := by
  by_contra hne
  rw [view_eq_none.mpr (by simpa using hne)] at h
  exact absurd h (by simp)

theorem and_of_view (h : view x = some e) {c : Word} (hc : ~~~pgRefcountMask &&& c = c) :
    x &&& c = e &&& c := by
  obtain rfl := Option.some.inj ((view_of_present (present_of_view h)).symm.trans h)
  rw [BitVec.and_assoc, hc]

theorem frameOf_view : (view e).map frameOf = child e := by
  have hmask : ~~~pgRefcountMask &&& physAddrMask = physAddrMask := by decide
  rw [view, child]
  cases present e with
  | false => rfl
  | true => simp [frameOf, BitVec.and_assoc, hmask]

theorem present_eq : present e = e.getLsbD 0 := by
  have h1 : e &&& pgPresent = BitVec.setWidth 64 (BitVec.ofBool (e.getLsbD 0)) :=
    BitVec.and_one_eq_setWidth_ofBool_getLsbD
  rw [present, h1]
  cases e.getLsbD 0 <;> decide

theorem present_or : present (p ||| x) = (present p || present x) := by
  simp [present_eq]

theorem frameOf_or : frameOf (p ||| x) = frameOf p ||| frameOf x := by
  simp only [frameOf, BitVec.and_or_distrib_right]

theorem and_not_of_and (h : e &&& x = 0) : e &&& ~~~x = e := by
  have hsplit : e &&& (x ||| ~~~x) = e := by
    rw [BitVec.or_not_self]
    exact BitVec.and_allOnes
  rw [BitVec.and_or_distrib_left, h] at hsplit
  exact (BitVec.zero_or).symm.trans hsplit

theorem frame_refcount_zero (hp : frameOf p = p) : p &&& pgRefcountMask = 0 := by
  have hmask : physAddrMask &&& pgRefcountMask = 0 := by decide
  rw [← hp, frameOf, BitVec.and_assoc, hmask]
  exact BitVec.and_zero

theorem child_or (hp : frameOf p = p) (hx : present x = true) (hf : frameOf x = 0) :
    child (p ||| x) = some p := by
  rw [child_eq_some, present_or, frameOf_or, hx, hp, hf]
  simp

end fields

section low
variable {e x : Word}

theorem low_add (hx : x.setWidth 52 = 0) : (e + x).setWidth 52 = e.setWidth 52 := by
  rw [BitVec.setWidth_add _ _ (by decide), hx]
  exact BitVec.add_zero _

theorem low_sub (hx : x.setWidth 52 = 0) : (e - x).setWidth 52 = e.setWidth 52 := by
  have h := low_add (e := e - x) hx
  rw [BitVec.sub_add_cancel] at h
  exact h.symm

theorem frameOf_congr (h : e.setWidth 52 = x.setWidth 52) : frameOf e = frameOf x := by
  have hm : physAddrMask = (physAddrMask.setWidth 52).setWidth 64 := by decide
  have hz (y : Word) : frameOf y = ((y.setWidth 52) &&& physAddrMask.setWidth 52).setWidth 64 := by
    rw [frameOf]
    refine BitVec.eq_of_getLsbD_eq fun i hi => ?_
    rw [BitVec.getLsbD_and, hm]
    by_cases h52 : i < 52 <;> simp [h52, hi]
  rw [hz, hz, h]

theorem present_congr (h : e.setWidth 52 = x.setWidth 52) : present e = present x := by
  have h0 : (e.setWidth 52).getLsbD 0 = (x.setWidth 52).getLsbD 0 := by rw [h]
  simpa [present_eq] using h0

theorem child_congr (h : e.setWidth 52 = x.setWidth 52) : child e = child x := by
  rw [child, child, present_congr h, frameOf_congr h]

theorem refcount_eq : refcount e = e.toNat / 2 ^ 52 % 1024 := by
  have hm : (e &&& pgRefcountMask) >>> pgRefcountOffset = (e >>> 52) &&& 0x3FF := by
    rw [pgRefcountOffset, BitVec.ushiftRight_and_distrib]
    rfl
  rw [refcount, hm, BitVec.toNat_and, BitVec.toNat_ushiftRight, Nat.shiftRight_eq_div_pow]
  exact Nat.and_two_pow_sub_one_eq_mod _ 10

theorem low_oneReference : oneReference.setWidth 52 = 0 := by decide

theorem refcount_add (h : refcount e < 1023) : refcount (e + oneReference) = refcount e + 1 := by
  rw [refcount_eq] at h ⊢
  rw [refcount_eq, BitVec.toNat_add]
  have : oneReference.toNat = 2 ^ 52 := by decide
  have := e.isLt
  omega

theorem refcount_sub (h : refcount e ≠ 0) : refcount (e - oneReference) + 1 = refcount e := by
  have hadd := refcount_add (e := e - oneReference)
  rw [BitVec.sub_add_cancel] at hadd
  by_cases hlt : refcount (e - oneReference) < 1023
  · exact (hadd hlt).symm
  · rw [refcount_eq] at h hlt
    rw [BitVec.toNat_sub] at hlt
    have : oneReference.toNat = 2 ^ 52 := by decide
    have := e.isLt
    omega

theorem view_congr (h : e.setWidth 52 = x.setWidth 52) (hhigh : e >>> 62 = x >>> 62) :
    view e = view x := by
  have hsame : e &&& ~~~pgRefcountMask = x &&& ~~~pgRefcountMask := by
    refine BitVec.eq_of_getLsbD_eq fun i hi => ?_
    rw [BitVec.getLsbD_and, BitVec.getLsbD_and]
    by_cases h52 : i < 52
    · have hb : (e.setWidth 52).getLsbD i = (x.setWidth 52).getLsbD i := by rw [h]
      rw [BitVec.getLsbD_setWidth, BitVec.getLsbD_setWidth] at hb
      simp only [h52, decide_true, Bool.true_and] at hb
      rw [hb]
    · by_cases h62 : i < 62
      · have hmask : (~~~pgRefcountMask).getLsbD i = false := by
          interval_cases i <;> decide
        rw [hmask, Bool.and_false, Bool.and_false]
      · have hb : (e >>> 62).getLsbD (i - 62) = (x >>> 62).getLsbD (i - 62) := by rw [hhigh]
        rw [BitVec.getLsbD_ushiftRight, BitVec.getLsbD_ushiftRight,
          show 62 + (i - 62) = i by omega] at hb
        rw [hb]
  rw [view, view, present_congr h, hsame]

theorem view_add (h : refcount e < 1023) : view (e + oneReference) = view e := by
  refine view_congr (low_add low_oneReference) (BitVec.eq_of_toNat_eq ?_)
  rw [refcount_eq] at h
  rw [BitVec.toNat_ushiftRight, BitVec.toNat_ushiftRight, BitVec.toNat_add,
    Nat.shiftRight_eq_div_pow, Nat.shiftRight_eq_div_pow]
  have : oneReference.toNat = 2 ^ 52 := by decide
  have := e.isLt
  omega

theorem view_sub (h : refcount e ≠ 0) : view (e - oneReference) = view e := by
  have hadd := view_add (e := e - oneReference)
  rw [BitVec.sub_add_cancel] at hadd
  have := refcount_sub h
  have hlt : refcount e < 1024 := by
    rw [refcount_eq]
    omega
  exact (hadd (by omega)).symm

end low

def Aligned (p : Word) : Prop := p % 4096 = 0 ∧ p.toNat < 2 ^ 52

section aligned
variable {p x : Word}

theorem frameOf_aligned (h : Aligned p) : frameOf p = p := by
  have hlow : p.toNat % 4096 = 0 := by
    have := congrArg BitVec.toNat h.1
    simpa using this
  have hhigh : p.toNat < 2 ^ 52 := h.2
  refine BitVec.eq_of_getLsbD_eq fun i hi => ?_
  rw [frameOf, BitVec.getLsbD_and]
  by_cases h12 : i < 12
  · have hbit : p.getLsbD i = false := by
      have := Nat.testBit_mod_two_pow p.toNat 12 i
      rw [show p.toNat % 2 ^ 12 = 0 from hlow] at this
      simpa [h12, BitVec.getLsbD] using this.symm
    rw [hbit, Bool.false_and]
  · by_cases h52 : i < 52
    · have hmask : physAddrMask.getLsbD i = true := by interval_cases i <;> decide
      rw [hmask, Bool.and_true]
    · have hbit : p.getLsbD i = false :=
        Nat.testBit_lt_two_pow (hhigh.trans_le (Nat.pow_le_pow_right (by decide) (by omega)))
      rw [hbit, Bool.false_and]

end aligned

end Lasagne.Pages
