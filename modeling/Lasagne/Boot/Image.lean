import Mathlib
import Lasagne.Boot.Paging
import Lasagne.Pages.WellFormed

namespace Lasagne.Boot
open Pages

def kernelVma : Word := 0xFFFFFFFF80000000

-- what the hardware makes of a virtual address
structure Mapping where
  frame : Word
  writable : Bool
  noExecute : Bool

def indexAt (v : Word) (shift : Nat) : Nat := (v >>> shift).toNat % 512

def Mapping.below (r : Mapping) (entry : Word) : Mapping :=
  { r with
    writable := r.writable && entry &&& pgRw != 0
    noExecute := r.noExecute || entry &&& pgNx != 0 }

def walk (m : PhysMem) (v : Word) : List Nat → Word → Option Mapping
  | [], frame => some ⟨frame, true, false⟩
  | shift :: shifts, table =>
    let entry := m (table.toNat + 8 * indexAt v shift)
    if present entry then (walk m v shifts (frameOf entry)).map (·.below entry) else none

def translate (m : PhysMem) (pml4t : Nat) (v : Word) : Option Mapping :=
  walk m v [39, 30, 21, 12] (BitVec.ofNat 64 pml4t)

section entries
variable {e x y : Word} {t n : Nat}

theorem bit_eq (e : Word) (i : Nat) (hi : i < 64) : (e &&& (1 : Word) <<< i != 0) = e.getLsbD i := by
  have hbit : (1 : Word) <<< i = BitVec.twoPow 64 i := rfl
  rw [hbit, BitVec.and_twoPow]
  have hne : BitVec.twoPow 64 i ≠ 0 := by
    intro h
    have hz := congrArg (fun b => b.getLsbD i) h
    simp [hi] at hz
  cases e.getLsbD i with
  | false => rfl
  | true => exact bne_iff_ne.mpr hne

theorem rw_eq (e : Word) : (e &&& pgRw != 0) = e.getLsbD 1 := bit_eq e 1 (by decide)

theorem nx_eq (e : Word) : (e &&& pgNx != 0) = e.getLsbD 63 := bit_eq e 63 (by decide)

theorem references_low (n : Nat) : (references n).setWidth 52 = 0 := by
  refine BitVec.eq_of_getLsbD_eq fun i hi => ?_
  simp [references, pgRefcountOffset, hi]

theorem references_toNat (hn : n < 1024) : (references n).toNat = n * 2 ^ 52 := by
  rw [references, pgRefcountOffset, BitVec.toNat_shiftLeft, Nat.shiftLeft_eq, BitVec.toNat_ofNat]
  omega

theorem refcount_references (ht : x.toNat < 2 ^ 52) (hn : n < 1024) :
    refcount (x ||| references n) = n := by
  have hx : x.toNat / 2 ^ 52 = 0 := Nat.div_eq_of_lt ht
  rw [refcount_eq, BitVec.toNat_or, ← Nat.shiftRight_eq_div_pow, Nat.shiftRight_or_distrib,
    Nat.shiftRight_eq_div_pow, Nat.shiftRight_eq_div_pow, hx, references_toNat hn,
    Nat.mul_div_cancel _ (by decide), Nat.zero_or, Nat.mod_eq_of_lt hn]

theorem frameOf_ofNat (hd : 4096 ∣ t) (ht : t < 2 ^ 32) :
    frameOf (BitVec.ofNat 64 t) = BitVec.ofNat 64 t := by
  refine frameOf_aligned ⟨?_, ?_⟩
  · refine BitVec.eq_of_toNat_eq ?_
    rw [BitVec.toNat_umod, BitVec.toNat_ofNat]
    change t % 2 ^ 64 % 4096 = 0
    omega
  · rw [BitVec.toNat_ofNat]
    omega

theorem frameOf_references (n : Nat) : frameOf (references n) = 0 := by
  have h := frameOf_congr (e := references n) (x := 0) (references_low n)
  exact h.trans (by decide)

theorem table_entry (hd : 4096 ∣ t) (ht : t < 2 ^ 32) (hn : n ≤ 512) :
    child (dword t ||| rw ||| references n) = some (BitVec.ofNat 64 t) ∧
    (dword t ||| rw ||| references n).getLsbD 1 = true ∧
    (dword t ||| rw ||| references n).getLsbD 63 = false ∧
    refcount (dword t ||| rw ||| references n) = n := by
  have hw : dword t = BitVec.ofNat 64 t := by rw [dword, Nat.mod_eq_of_lt ht]
  have hrw : frameOf rw = 0 := by decide
  have hp : present rw = true := by decide
  rw [hw]
  refine ⟨?_, ?_, ?_, ?_⟩
  · rw [child_eq_some, present_or, present_or, hp, frameOf_or, frameOf_or, hrw,
      frameOf_references, frameOf_ofNat hd ht]
    simp
  · have h1 : rw.getLsbD 1 = true := by decide
    simp [h1]
  · have h63 : rw.getLsbD 63 = false := by decide
    have hr : (references n).getLsbD 63 = false := by
      refine Nat.testBit_lt_two_pow ?_
      rw [references_toNat (by omega)]
      omega
    have hx : (BitVec.ofNat 64 t).getLsbD 63 = false := by
      refine Nat.testBit_lt_two_pow ?_
      rw [BitVec.toNat_ofNat]
      omega
    rw [BitVec.getLsbD_or, BitVec.getLsbD_or, hx, h63, hr]
    rfl
  · refine refcount_references ?_ (by omega)
    rw [BitVec.toNat_or]
    refine Nat.or_lt_two_pow ?_ (by decide)
    rw [BitVec.toNat_ofNat]
    omega

end entries

section kernel
variable {l : Layout} {m m' : PhysMem} {p : Nat}

theorem kernel_indices (hp : p < 2 ^ 30) :
    indexAt (kernelVma + BitVec.ofNat 64 p) 39 = 511 ∧
    indexAt (kernelVma + BitVec.ofNat 64 p) 30 = 510 ∧
    indexAt (kernelVma + BitVec.ofNat 64 p) 21 = p / 2 ^ 21 ∧
    indexAt (kernelVma + BitVec.ofNat 64 p) 12 = p / 2 ^ 12 % 512 := by
  have hv : (kernelVma + BitVec.ofNat 64 p).toNat = 0xFFFFFFFF80000000 + p := by
    rw [BitVec.toNat_add, BitVec.toNat_ofNat]
    change (0xFFFFFFFF80000000 + p % 2 ^ 64) % 2 ^ 64 = 0xFFFFFFFF80000000 + p
    omega
  simp only [indexAt, BitVec.toNat_ushiftRight, Nat.shiftRight_eq_div_pow, hv]
  refine ⟨?_, ?_, ?_, rfl.trans ?_⟩ <;> omega

theorem walk_table {v : Word} {shift s t n : Nat} {shifts : List Nat} (hs : s < 2 ^ 32)
    (hd : 4096 ∣ t) (ht : t < 2 ^ 32) (hn : n ≤ 512)
    (he : m (s + 8 * indexAt v shift) = dword t ||| rw ||| references n) :
    walk m v (shift :: shifts) (BitVec.ofNat 64 s) = walk m v shifts (BitVec.ofNat 64 t) := by
  obtain ⟨hchild, h1, h63, -⟩ := table_entry hd ht hn
  obtain ⟨hp, hf⟩ := child_eq_some.mp hchild
  have hbelow (r : Mapping) : r.below (dword t ||| rw ||| references n) = r := by
    rw [Mapping.below, rw_eq, nx_eq, h1, h63, Bool.and_true, Bool.or_false]
  have hs' : (BitVec.ofNat 64 s).toNat = s := by
    rw [BitVec.toNat_ofNat]
    omega
  rw [walk, hs', he]
  simp only [hp, hf, if_true, hbelow]
  exact Option.map_id'

theorem translate_kernel (h : Booted l m m') (hp : p < 2097152 * l.pageTables) :
    translate m' l.pml4t (kernelVma + BitVec.ofNat 64 p) =
      if present (m' (l.kernelEnd + 8 * (p / 4096))) then
        some ⟨frameOf (m' (l.kernelEnd + 8 * (p / 4096))),
          (m' (l.kernelEnd + 8 * (p / 4096))).getLsbD 1,
          (m' (l.kernelEnd + 8 * (p / 4096))).getLsbD 63⟩
      else none := by
  obtain ⟨-, hmost, -, -⟩ := l.pageTables_spec
  have hmax : p < 2 ^ 30 := hp.trans_le (Nat.mul_le_mul_left 2097152 hmost)
  obtain ⟨h39, h30, h21, h12⟩ := kernel_indices hmax
  have hend := l.end_lt
  have hdiv := l.sections l.kernelEnd (by simp)
  obtain ⟨-, h4, -⟩ := l.tables l.pml4t (by simp)
  obtain ⟨hd3, h3, -⟩ := l.tables l.pdpt (by simp)
  obtain ⟨hd2, h2, -⟩ := l.tables l.kernelPd (by simp)
  have hi : p / 2 ^ 21 < l.pageTables := by omega
  have hcounted : counted l (p / 2 ^ 21) ≤ 512 := by
    rw [counted]
    split <;> omega
  rw [translate, walk_table h4 hd3 h3 (n := 1) (by decide) (by rw [h39]; exact h.top),
    walk_table h3 hd2 h2 hmost (by rw [h30]; exact h.middle),
    walk_table h2 (t := l.kernelEnd + 4096 * (p / 2 ^ 21)) (by omega) (by omega) hcounted
      (by rw [h21]; exact h.directory _ hi)]
  have hs : (BitVec.ofNat 64 (l.kernelEnd + 4096 * (p / 2 ^ 21))).toNat +
      8 * (p / 2 ^ 12 % 512) = l.kernelEnd + 8 * (p / 4096) := by
    rw [BitVec.toNat_ofNat]
    omega
  simp only [walk, h12, hs, Option.map_some, Mapping.below, rw_eq, nx_eq, Bool.true_and,
    Bool.false_or]

theorem page_entry (l : Layout) (k : Nat) (hk : 4096 * k < l.kernelEnd) :
    present (BitVec.ofNat 64 (4096 * k) ||| pageFlags l k) = true ∧
    frameOf (BitVec.ofNat 64 (4096 * k) ||| pageFlags l k) = BitVec.ofNat 64 (4096 * k) ∧
    (BitVec.ofNat 64 (4096 * k) ||| pageFlags l k).getLsbD 1 = (pageFlags l k).getLsbD 1 ∧
    (BitVec.ofNat 64 (4096 * k) ||| pageFlags l k).getLsbD 63 = (pageFlags l k).getLsbD 63 := by
  have hend := l.end_lt
  have hflags : present (pageFlags l k) = true ∧ frameOf (pageFlags l k) = 0 := by
    rw [pageFlags]
    split_ifs <;> exact ⟨by decide, by decide⟩
  have hbit {j : Nat} (hj : j ∈ [1, 63]) : (BitVec.ofNat 64 (4096 * k)).getLsbD j = false := by
    have hlow : (4096 * k).testBit j = false := by
      rcases List.mem_pair.mp hj with rfl | rfl
      · rw [Nat.testBit_eq_decide_div_mod_eq, decide_eq_false_iff_not]
        omega
      · exact Nat.testBit_lt_two_pow (by omega)
    rw [BitVec.getLsbD_ofNat, hlow, Bool.and_false]
  refine ⟨?_, ?_, ?_, ?_⟩
  · rw [present_or, hflags.1, Bool.or_true]
  · rw [frameOf_or, hflags.2, frameOf_ofNat (Dvd.intro k rfl) (by omega)]
    exact BitVec.or_zero
  · rw [BitVec.getLsbD_or, hbit (by simp), Bool.false_or]
  · rw [BitVec.getLsbD_or, hbit (by simp), Bool.false_or]

theorem pageFlags_writable (l : Layout) (k : Nat) :
    (pageFlags l k).getLsbD 1 = true ↔ 4096 * k < l.text ∨ l.data ≤ 4096 * k := by
  have htr := l.text_le
  have hrd := l.rodata_le
  rw [pageFlags]
  split_ifs with ht hr hd
  · exact iff_of_true (by decide) (Or.inl ht)
  · exact iff_of_false (by decide) (by omega)
  · exact iff_of_false (by decide) (by omega)
  · exact iff_of_true (by decide) (Or.inr (by omega))

theorem pageFlags_noExecute (l : Layout) (k : Nat) :
    (pageFlags l k).getLsbD 63 = true ↔ ¬(l.text ≤ 4096 * k ∧ 4096 * k < l.rodata) := by
  rw [pageFlags]
  split_ifs with ht hr hd
  · exact iff_of_true (by decide) (by omega)
  · exact iff_of_false (by decide) (by omega)
  · exact iff_of_true (by decide) (by omega)
  · exact iff_of_true (by decide) (by omega)

structure KernelMapped (l : Layout) (m : PhysMem) (stop : Nat) : Prop where
  pages : ∀ p, 4096 ∣ p → p < l.kernelEnd →
    ∃ r, translate m l.pml4t (kernelVma + BitVec.ofNat 64 p) = some r ∧
      r.frame = BitVec.ofNat 64 p ∧
      (r.writable = true ↔ p < l.text ∨ l.data ≤ p) ∧
      (r.noExecute = true ↔ ¬(l.text ≤ p ∧ p < l.rodata)) ∧
      (r.writable = true → r.noExecute = true)
  unmapped : ∀ p, l.kernelEnd ≤ p → p < 2097152 * l.pageTables →
    translate m l.pml4t (kernelVma + BitVec.ofNat 64 p) = none
  stop_eq : stop = l.kernelEnd + 4096 * l.pageTables
  above : ∀ i < l.pageTables, ∃ f, child (m (l.kernelPd + 8 * i)) = some f ∧
    f.toNat + 4096 ≤ stop

end kernel

theorem initializePaging_maps (l : Layout) (m : PhysMem) :
    ∃ m' stop, initializePaging l m = some (m', stop) ∧ KernelMapped l m' stop := by
  obtain ⟨-, hmost, hle, -⟩ := l.pageTables_spec
  have hend := l.end_lt
  obtain ⟨m', hrun, hbooted⟩ := initializePaging_spec l m
  refine ⟨m', _, hrun, fun p hd hp => ?_, fun p hp hp' => ?_, rfl, fun i hi => ?_⟩
  · obtain ⟨k, rfl⟩ := hd
    have hk : 4096 * k / 4096 = k := Nat.mul_div_cancel_left k (by decide)
    obtain ⟨hpresent, hframe, h1, h63⟩ := page_entry l k hp
    have hwalk := translate_kernel hbooted (p := 4096 * k) (by omega)
    rw [hk, hbooted.pages k hp, if_pos hpresent] at hwalk
    refine ⟨_, hwalk, hframe, ?_, ?_, ?_⟩
    · rw [h1, pageFlags_writable]
    · rw [h63, pageFlags_noExecute]
    · have htr := l.text_le
      have hrd := l.rodata_le
      rw [h1, h63, pageFlags_writable, pageFlags_noExecute]
      omega
  · have hdiv := l.sections l.kernelEnd (by simp)
    rw [translate_kernel hbooted hp', hbooted.tail (p / 4096) (by omega) (by omega)]
    rfl
  · have hdiv := l.sections l.kernelEnd (by simp)
    have hcounted : counted l i ≤ 512 := by
      rw [counted]
      split <;> omega
    obtain ⟨hchild, -⟩ := table_entry (t := l.kernelEnd + 4096 * i) (by omega) (by omega) hcounted
    refine ⟨_, (congrArg child (hbooted.directory i hi)).trans hchild, ?_⟩
    rw [BitVec.toNat_ofNat]
    omega

def image : Layout where
  pml4t := 0x102000
  pdpt := 0x103000
  kernelPd := 0x104000
  identityPd := 0x101000
  text := 0x105000
  rodata := 0x180000
  data := 0x1C0000
  bss := 0x1E0000
  kernelEnd := 0x200000
  text_le := by decide
  rodata_le := by decide
  data_le := by decide
  bss_le := by decide
  end_pos := by decide
  end_lt := by decide
  sections := by decide
  tables := by decide
  distinct := by decide

theorem initializePaging_maps_image :
    ∃ m' stop, initializePaging image (fun _ => 0) = some (m', stop) ∧
      (∃ r, translate m' 0x102000 (kernelVma + 0x180000) = some r ∧ r.writable = false) := by
  obtain ⟨m', stop, hrun, hmapped⟩ := initializePaging_maps image fun _ => 0
  obtain ⟨r, hr, -, hw, -⟩ := hmapped.pages 0x180000 (by decide) (by decide)
  exact ⟨m', stop, hrun, r, hr, Bool.eq_false_iff.mpr fun h => absurd (hw.mp h) (by decide)⟩

section counters
variable {l : Layout} {m m' : PhysMem} {n : Nat}

def tableOf (m : PhysMem) (base : Nat) : Index → Word := fun i => m (base + 8 * i.toNat)

-- boot.asm reserves the directory as zeroes
def Cleared (l : Layout) (m : PhysMem) : Prop := ∀ i < 512, m (l.kernelPd + 8 * i) = 0

structure CountsMatch (l : Layout) (m : PhysMem) : Prop where
  directory : refcount (m (l.pdpt + 8 * 510)) = presentCount (tableOf m l.kernelPd)
  pageTables : ∀ i f, child (tableOf m l.kernelPd i) = some f →
    refcount (tableOf m l.kernelPd i) = presentCount (tableOf m f.toNat)

theorem presentCount_eq_of_lt {table : Index → Word} (hn : n ≤ 512)
    (h : ∀ i, present (table i) = true ↔ i.toNat < n) : presentCount table = n := by
  have hcard : (Finset.univ.filter fun i : Index => present (table i) = true).card =
      (Finset.range n).card := by
    refine Finset.card_nbij' BitVec.toNat (BitVec.ofNat 9) ?_ ?_ ?_ ?_
    · intro i hi
      simpa [h] using hi
    · intro k hk
      have hlt : k < n := by simpa using hk
      simp only [Finset.coe_filter, Finset.mem_univ, true_and, Set.mem_ofPred_eq, h,
        BitVec.toNat_ofNat]
      omega
    · intro i _
      exact BitVec.eq_of_toNat_eq (by rw [BitVec.toNat_ofNat, Nat.mod_eq_of_lt i.isLt])
    · intro k hk
      have hlt : k < n := by simpa using hk
      rw [BitVec.toNat_ofNat]
      omega
  rw [presentCount, hcard, Finset.card_range]

theorem Booted.directory_entry (h : Booted l m m') {i : Nat} (hi : i < l.pageTables) :
    child (m' (l.kernelPd + 8 * i)) = some (BitVec.ofNat 64 (l.kernelEnd + 4096 * i)) ∧
      refcount (m' (l.kernelPd + 8 * i)) = counted l i := by
  obtain ⟨-, hmost, -, -⟩ := l.pageTables_spec
  have hend := l.end_lt
  have hdiv := l.sections l.kernelEnd (by simp)
  have hcounted : counted l i ≤ 512 := by
    rw [counted]
    split <;> omega
  obtain ⟨hchild, -, -, hcount⟩ :=
    table_entry (t := l.kernelEnd + 4096 * i) (by omega) (by omega) hcounted
  rw [h.directory i hi]
  exact ⟨hchild, hcount⟩

theorem Booted.directory_present (h : Booted l m m') (hz : Cleared l m) (i : Index) :
    present (tableOf m' l.kernelPd i) = true ↔ i.toNat < l.pageTables := by
  rw [tableOf]
  by_cases hi : i.toNat < l.pageTables
  · exact iff_of_true (child_eq_some.mp (h.directory_entry hi).1).1 hi
  · rw [h.unused _ (by omega) (by omega), hz _ (by omega)]
    exact iff_of_false (by decide) hi

theorem Booted.table_present (h : Booted l m m') {i : Nat} (hi : i < l.pageTables) (j : Index) :
    present (tableOf m' (l.kernelEnd + 4096 * i) j) = true ↔
      j.toNat < l.kernelEnd / 4096 - 512 * i := by
  have hj : l.kernelEnd + 4096 * i + 8 * j.toNat = l.kernelEnd + 8 * (512 * i + j.toNat) := by
    omega
  have hdiv := l.sections l.kernelEnd (by simp)
  rw [tableOf, hj]
  by_cases hlt : 4096 * (512 * i + j.toNat) < l.kernelEnd
  · rw [h.pages _ hlt]
    exact iff_of_true (page_entry l _ hlt).1 (by omega)
  · rw [h.tail _ (by omega) (by omega)]
    exact iff_of_false (by decide) (by omega)

theorem Booted.table_count (h : Booted l m m') {i : Nat} (hi : i < l.pageTables) :
    presentCount (tableOf m' (l.kernelEnd + 4096 * i)) =
      min 512 (l.kernelEnd / 4096 - 512 * i) := by
  refine presentCount_eq_of_lt (Nat.min_le_left _ _) fun j => ?_
  rw [h.table_present hi]
  omega

theorem Booted.counts_match_iff (h : Booted l m m') (hz : Cleared l m) :
    CountsMatch l m' ↔ l.kernelEnd < 2097152 := by
  obtain ⟨hpos, hmost, hle, hlt⟩ := l.pageTables_spec
  have hend := l.end_lt
  have hlow {i : Nat} (hi : i < l.pageTables) :
      (BitVec.ofNat 64 (l.kernelEnd + 4096 * i)).toNat = l.kernelEnd + 4096 * i := by
    rw [BitVec.toNat_ofNat]
    omega
  constructor
  · intro hmatch
    -- the first page table is full, but its counter is 0
    obtain ⟨hchild, hcount⟩ := h.directory_entry hpos
    have hfirst := hmatch.pageTables 0 _ hchild
    rw [hlow hpos, h.table_count hpos] at hfirst
    have h0 : tableOf m' l.kernelPd 0 = m' (l.kernelPd + 8 * 0) := rfl
    rw [h0, hcount, counted] at hfirst
    split_ifs at hfirst <;> omega
  · intro hsmall
    have hone : l.pageTables = 1 := by omega
    refine ⟨?_, fun i f hf => ?_⟩
    · obtain ⟨hd, hp, -⟩ := l.tables l.kernelPd (by simp)
      obtain ⟨-, -, -, hcount⟩ := table_entry hd hp hmost
      rw [h.middle, hcount, presentCount_eq_of_lt hmost (h.directory_present hz)]
    · have hi : i.toNat < l.pageTables :=
        (h.directory_present hz i).mp (child_eq_some.mp hf).1
      obtain ⟨hchild, hcount⟩ := h.directory_entry hi
      obtain rfl : f = _ := Option.some.inj (hf.symm.trans hchild)
      rw [hlow hi, h.table_count hi, tableOf, hcount, counted, if_pos (by omega)]
      omega

end counters

theorem initializePaging_counts_iff (l : Layout) (m : PhysMem) (hz : Cleared l m) :
    ∃ m' stop, initializePaging l m = some (m', stop) ∧
      (CountsMatch l m' ↔ l.kernelEnd < 2097152) := by
  obtain ⟨m', hrun, hbooted⟩ := initializePaging_spec l m
  exact ⟨m', _, hrun, hbooted.counts_match_iff hz⟩

def shortImage : Layout where
  pml4t := 0x102000
  pdpt := 0x103000
  kernelPd := 0x104000
  identityPd := 0x101000
  text := 0x105000
  rodata := 0x180000
  data := 0x1C0000
  bss := 0x1E0000
  kernelEnd := 0x1FF000
  text_le := by decide
  rodata_le := by decide
  data_le := by decide
  bss_le := by decide
  end_pos := by decide
  end_lt := by decide
  sections := by decide
  tables := by decide
  distinct := by decide

theorem initializePaging_counts_image :
    ∃ m' stop, initializePaging shortImage (fun _ => 0) = some (m', stop) ∧
      CountsMatch shortImage m' := by
  obtain ⟨m', stop, hrun, hiff⟩ := initializePaging_counts_iff shortImage (fun _ => 0) fun _ _ => rfl
  exact ⟨m', stop, hrun, hiff.mpr (by decide)⟩

theorem full_table_uncounted :
    ∃ m' stop, initializePaging image (fun _ => 0) = some (m', stop) ∧ ¬ CountsMatch image m' := by
  obtain ⟨m', hrun, hbooted⟩ := initializePaging_spec image fun _ => 0
  refine ⟨m', _, hrun, fun h => ?_⟩
  exact absurd ((hbooted.counts_match_iff fun _ _ => rfl).mp h) (by decide)

end Lasagne.Boot
