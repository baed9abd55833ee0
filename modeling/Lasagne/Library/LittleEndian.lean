import Mathlib
import Lasagne.Library.ByteMemory

namespace LittleEndian
open ByteMemory

def bytes : Nat → Nat → List (BitVec 8)
  | 0, _ => []
  | n + 1, v => BitVec.ofNat 8 v :: bytes n (v / 256)

def load (m : Memory) : Nat → Nat → Nat
  | 0, _ => 0
  | n + 1, a => (m a).toNat + 256 * load m n (a + 1)

def Spells (m : Memory) : Nat → List (BitVec 8) → Prop
  | _, [] => True
  | a, b :: bs => m a = b ∧ Spells m (a + 1) bs

section spelling
variable {m : Memory} {a n v : Nat} {bs cs : List (BitVec 8)}

@[simp] theorem length_bytes (n v : Nat) : (bytes n v).length = n := by
  induction n generalizing v with
  | zero => rfl
  | succ n ih => rw [bytes, List.length_cons, ih]

theorem load_lt (m : Memory) (n a : Nat) : load m n a < 256 ^ n := by
  induction n generalizing a with
  | zero => exact Nat.one_pos
  | succ n ih =>
    have hbyte := (m a).isLt
    have hrest := ih (a + 1)
    rw [load, Nat.pow_succ]
    omega

theorem spells_append :
    Spells m a (bs ++ cs) ↔ Spells m a bs ∧ Spells m (a + bs.length) cs := by
  induction bs generalizing a with
  | nil => exact ⟨fun h => ⟨trivial, h⟩, fun h => h.2⟩
  | cons b bs ih =>
    rw [List.cons_append, Spells, Spells, ih, List.length_cons, and_assoc, Nat.add_right_comm,
      Nat.add_assoc a bs.length 1]

theorem Spells.load (h : Spells m a (bytes n v)) (hv : v < 256 ^ n) : load m n a = v := by
  induction n generalizing a v with
  | zero =>
    rw [Nat.pow_zero] at hv
    exact (Nat.lt_one_iff.mp hv).symm
  | succ n ih =>
    obtain ⟨hbyte, hrest⟩ := h
    rw [Nat.pow_succ] at hv
    rw [LittleEndian.load, hbyte, ih hrest (by omega), BitVec.toNat_ofNat]
    omega

theorem spells_getD (bs cs : List (BitVec 8)) :
    Spells (fun x => (bs ++ cs).getD x 0) bs.length cs := by
  induction cs generalizing bs with
  | nil => trivial
  | cons c cs ih =>
    refine ⟨by simp [List.getD_eq_getElem?_getD], ?_⟩
    have h := ih (bs ++ [c])
    rwa [List.append_assoc, List.singleton_append, List.length_append, List.length_singleton] at h

end spelling

end LittleEndian
