import Mathlib

namespace ByteMemory

abbrev Memory := Nat → BitVec 8

def loadWord (m : Memory) (a : Nat) : BitVec 64 :=
  m (a + 7) ++ m (a + 6) ++ m (a + 5) ++ m (a + 4) ++ m (a + 3) ++ m (a + 2) ++ m (a + 1) ++ m a

def storeByte (m : Memory) (a : Nat) (b : BitVec 8) : Memory :=
  fun x => if x = a then b else m x

def storeWord (m : Memory) (a : Nat) (v : BitVec 64) : Memory :=
  fun x => if a ≤ x ∧ x < a + 8 then v.extractLsb' (8 * (x - a)) 8 else m x

def fill (m : Memory) (a n : Nat) (b : BitVec 8) : Memory :=
  fun x => if a ≤ x ∧ x < a + n then b else m x

def copy (m : Memory) (dst src n : Nat) : Memory :=
  fun x => if dst ≤ x ∧ x < dst + n then m (src + (x - dst)) else m x

def Holds (m : Memory) : Nat → List (BitVec 64) → Prop
  | _, [] => True
  | a, v :: vs => loadWord m a = v ∧ Holds m (a + 8) vs

theorem loadWord_congr {m m' : Memory} {a : Nat} (h : ∀ x, a ≤ x → x < a + 8 → m' x = m x) :
    loadWord m' a = loadWord m a := by
  have hx (i : Nat) (hi : i < 8) : m' (a + i) = m (a + i) := h _ (by omega) (by omega)
  simp only [loadWord, hx 7 (by omega), hx 6 (by omega), hx 5 (by omega), hx 4 (by omega),
    hx 3 (by omega), hx 2 (by omega), hx 1 (by omega), h a (by omega) (by omega)]

theorem storeWord_outside (m : Memory) {a x : Nat} (v : BitVec 64) (h : x < a ∨ a + 8 ≤ x) :
    storeWord m a v x = m x := by
  rw [storeWord, if_neg (by omega)]

theorem loadWord_storeWord (m : Memory) (a : Nat) (v : BitVec 64) :
    loadWord (storeWord m a v) a = v := by
  have hx (i : Nat) (hi : i < 8) : storeWord m a v (a + i) = v.extractLsb' (8 * i) 8 := by
    rw [storeWord, if_pos (by omega), Nat.add_sub_cancel_left]
  have h0 : storeWord m a v a = v.extractLsb' 0 8 := hx 0 (by omega)
  simp only [loadWord, hx 7 (by omega), hx 6 (by omega), hx 5 (by omega), hx 4 (by omega),
    hx 3 (by omega), hx 2 (by omega), hx 1 (by omega), h0]
  ext i hi
  simp only [BitVec.getElem_append, BitVec.getElem_extractLsb']
  repeat' split
  all_goals (rw [← BitVec.getLsbD_eq_getElem]; congr 1; omega)

theorem loadWord_storeWord_apart (m : Memory) {a b : Nat} (v : BitVec 64)
    (h : b + 8 ≤ a ∨ a + 8 ≤ b) : loadWord (storeWord m a v) b = loadWord m b :=
  loadWord_congr fun x hx hx' => storeWord_outside m v (by omega)

theorem loadWord_zero {m : Memory} {a : Nat} (h : ∀ i < 8, m (a + i) = 0#8) :
    loadWord m a = 0#64 := by
  have h0 : m a = 0#8 := h 0 (by omega)
  simp only [loadWord, h 7 (by omega), h 6 (by omega), h 5 (by omega), h 4 (by omega),
    h 3 (by omega), h 2 (by omega), h 1 (by omega), h0]
  rfl

theorem holds_append (m : Memory) (a : Nat) (vs ws : List (BitVec 64)) :
    Holds m a (vs ++ ws) ↔ Holds m a vs ∧ Holds m (a + 8 * vs.length) ws := by
  induction vs generalizing a with
  | nil => simp [Holds]
  | cons v vs ih =>
    rw [List.cons_append, Holds, Holds, ih, List.length_cons, and_assoc,
      show a + 8 + 8 * vs.length = a + 8 * (vs.length + 1) by omega]

theorem holds_map_range {m : Memory} {a n : Nat} {f : Nat → BitVec 64}
    (h : Holds m a ((List.range n).map f)) {i : Nat} (hi : i < n) : loadWord m (a + 8 * i) = f i := by
  induction n with
  | zero => omega
  | succ n ih =>
    rw [List.range_succ, List.map_append, holds_append, List.length_map, List.length_range] at h
    rcases Nat.lt_succ_iff_lt_or_eq.mp hi with hlt | rfl
    · exact ih h.1 hlt
    · exact h.2.1
theorem Holds.congr {m m' : Memory} {a : Nat} {vs : List (BitVec 64)} (hv : Holds m a vs)
    (h : ∀ x, a ≤ x → x < a + 8 * vs.length → m' x = m x) : Holds m' a vs := by
  induction vs generalizing a with
  | nil => trivial
  | cons v vs ih =>
    rw [List.length_cons] at h
    exact ⟨(loadWord_congr fun x hx hx' => h x hx (by omega)).trans hv.1,
      ih hv.2 fun x hx hx' => h x (by omega) (by omega)⟩

theorem storeByte_same (m : Memory) (a : Nat) (b : BitVec 8) : storeByte m a b a = b := by
  simp [storeByte]

theorem storeByte_other (m : Memory) {a x : Nat} (b : BitVec 8) (h : x ≠ a) :
    storeByte m a b x = m x := by
  simp [storeByte, h]

theorem fill_inside (m : Memory) {a n x : Nat} (b : BitVec 8) (h : a ≤ x ∧ x < a + n) :
    fill m a n b x = b := by
  simp [fill, h]

theorem fill_outside (m : Memory) {a n x : Nat} (b : BitVec 8) (h : x < a ∨ a + n ≤ x) :
    fill m a n b x = m x := by
  rw [fill, if_neg (by omega)]

def SameOutside (W : Nat → Prop) (m m' : Memory) : Prop := ∀ x, ¬ W x → m' x = m x

theorem SameOutside.refl (W : Nat → Prop) (m : Memory) : SameOutside W m m := fun _ _ => rfl

theorem SameOutside.trans {W : Nat → Prop} {m m' m'' : Memory} (h : SameOutside W m m')
    (h' : SameOutside W m' m'') : SameOutside W m m'' :=
  fun x hx => (h' x hx).trans (h x hx)

theorem SameOutside.mono {W W' : Nat → Prop} {m m' : Memory} (h : SameOutside W m m')
    (hw : ∀ x, W x → W' x) : SameOutside W' m m' :=
  fun x hx => h x fun hy => hx (hw x hy)

theorem sameOutside_storeWord {W : Nat → Prop} {m : Memory} {a : Nat} {v : BitVec 64}
    (h : ∀ x, a ≤ x → x < a + 8 → W x) : SameOutside W m (storeWord m a v) := by
  intro x hx
  by_cases hin : a ≤ x ∧ x < a + 8
  · exact absurd (h x hin.1 hin.2) hx
  · exact storeWord_outside m v (by omega)

theorem sameOutside_storeByte {W : Nat → Prop} {m : Memory} {a : Nat} {b : BitVec 8}
    (h : W a) : SameOutside W m (storeByte m a b) := by
  intro x hx
  exact storeByte_other m b (fun hxa => hx (hxa ▸ h))

end ByteMemory
