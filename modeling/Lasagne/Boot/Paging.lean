import Mathlib
import Lasagne.Pages.Entry

namespace Lasagne.Boot
open Pages

-- physical memory as the aligned words that paging reads
abbrev PhysMem := Nat → Word

def pgSize : Nat := 4096

def ptEntryCount : Nat := 512

def pgGlobal : Word := 1 <<< 8

def rw : Word := pgPresent ||| pgRw

def tablesFor (n : Nat) : Nat :=
  if n % (ptEntryCount * pgSize) ≠ 0 then n / (ptEntryCount * pgSize) + 1
  else n / (ptEntryCount * pgSize)

-- the tables are aligned and meet neither each other nor the page tables behind the kernel
structure Layout where
  pml4t : Nat
  pdpt : Nat
  kernelPd : Nat
  identityPd : Nat
  text : Nat
  rodata : Nat
  data : Nat
  bss : Nat
  kernelEnd : Nat
  text_le : text ≤ rodata
  rodata_le : rodata ≤ data
  data_le : data ≤ bss
  bss_le : bss ≤ kernelEnd
  end_pos : 0 < kernelEnd
  end_lt : kernelEnd < 2 ^ 30
  sections : ∀ b ∈ [text, rodata, data, bss, kernelEnd], 4096 ∣ b
  tables : ∀ t ∈ [pml4t, pdpt, kernelPd], 4096 ∣ t ∧ t < 2 ^ 32 ∧
    (t + 4096 ≤ kernelEnd ∨ kernelEnd + 4096 * tablesFor kernelEnd ≤ t)
  distinct : [pml4t, pdpt, kernelPd].Nodup

def Layout.pageTables (l : Layout) : Nat := tablesFor l.kernelEnd

-- a conversion to uint32_t
def dword (n : Nat) : Word := BitVec.ofNat 64 (n % 2 ^ 32)

def set (m : PhysMem) (a : Nat) (v : Word) : PhysMem := Function.update m a v

structure Cursor where
  mem : PhysMem
  pte : Nat
  page : Nat

def Cursor.fill (c : Cursor) (flags : Word) : Cursor :=
  ⟨set c.mem c.pte (BitVec.ofNat 64 c.page ||| flags), c.pte + 8, c.page + pgSize⟩

def Cursor.clear (c : Cursor) : Cursor := { c with mem := set c.mem c.pte 0, pte := c.pte + 8 }

-- while (current_page < limit)
def fillPages (limit : Nat) (flags : Word) : Nat → Cursor → Option Cursor
  | 0, _ => none
  | fuel + 1, c => if c.page < limit then fillPages limit flags fuel (c.fill flags) else some c

-- while (current_pte < limit)
def clearPtes (limit : Nat) : Nat → Cursor → Option Cursor
  | 0, _ => none
  | fuel + 1, c => if c.pte < limit then clearPtes limit fuel c.clear else some c

def fillPd (l : Layout) : Nat → PhysMem → PhysMem
  | 0, m => m
  | i + 1, m => set (fillPd l i m) (l.kernelPd + 8 * i) (dword (l.kernelEnd + i * pgSize) ||| rw)

def fuel : Nat := 2 ^ 20

def references (n : Nat) : Word := BitVec.ofNat 64 n <<< pgRefcountOffset

def linkTop (l : Layout) (m : PhysMem) : PhysMem :=
  let entry := dword l.pdpt ||| rw ||| references 1
  let m := set m (l.pml4t + 8 * 0) entry
  let m := set m (l.pml4t + 8 * 511) entry
  let m := set m (l.pml4t + 8 * pgSelf.toNat) (dword l.pml4t ||| rw)
  let m := set m (l.pdpt + 8 * 0) (dword l.identityPd ||| rw)
  let m := set m (l.pdpt + 8 * 510) (dword l.kernelPd ||| rw)
  set m (l.pdpt + 8 * 510) (m (l.pdpt + 8 * 510) ||| references l.pageTables)

def linkTables (l : Layout) (m : PhysMem) : PhysMem :=
  let m := fillPd l l.pageTables (linkTop l m)
  let bytesRemaining := l.kernelEnd % (ptEntryCount * pgSize)
  let last := l.kernelPd + 8 * (l.pageTables - 1)
  set m last (m last ||| references (bytesRemaining / pgSize))

def fillKernel (l : Layout) (m : PhysMem) : Option Cursor := do
  -- the first 1 MiB
  let c ← fillPages l.text (rw ||| pgGlobal ||| pgNx) fuel ⟨m, l.kernelEnd, 0⟩
  let c ← fillPages l.rodata (pgPresent ||| pgGlobal) fuel c
  let c ← fillPages l.data (pgPresent ||| pgGlobal ||| pgNx) fuel c
  let c ← fillPages l.bss (rw ||| pgGlobal ||| pgNx) fuel c
  fillPages l.kernelEnd (rw ||| pgGlobal ||| pgNx) fuel c

-- gives the memory and __kernel_end_phys
def initializePaging (l : Layout) (m : PhysMem) : Option (PhysMem × Nat) := do
  let c ← fillKernel l (linkTables l m)
  let c ← clearPtes (l.kernelEnd + l.pageTables * pgSize) fuel c
  return (c.mem, c.pte)

section loops
variable {base i j n : Nat} {flags : Word} {c : Cursor}

structure Filled (base i j : Nat) (entry : Nat → Word) (m m' : PhysMem) : Prop where
  written : ∀ k, i ≤ k → k < j → m' (base + 8 * k) = entry k
  kept : ∀ a, a < base + 8 * i ∨ base + 8 * j ≤ a → m' a = m a

theorem Filled.refl {entry : Nat → Word} {m : PhysMem} : Filled base i i entry m m :=
  ⟨fun _ h h' => absurd (h.trans_lt h') (lt_irrefl i), fun _ _ => rfl⟩

theorem Filled.first {entry : Nat → Word} {m m' : PhysMem} (hij : i < j)
    (h : Filled base (i + 1) j entry (set m (base + 8 * i) (entry i)) m') :
    Filled base i j entry m m' := by
  refine ⟨fun k hk hkj => ?_, fun a ha => ?_⟩
  · rcases hk.eq_or_lt with rfl | hlt
    · rw [h.kept _ (by omega), set, Function.update_self]
    · exact h.written k hlt hkj
  · rw [h.kept a (by omega), set, Function.update_of_ne (by omega)]

theorem Filled.trans {entry : Nat → Word} {m m' m'' : PhysMem} (hij : i ≤ j) (hjn : j ≤ n)
    (h : Filled base i j entry m m') (h' : Filled base j n entry m' m'') :
    Filled base i n entry m m'' := by
  refine ⟨fun k hk hkn => ?_, fun a ha => ?_⟩
  · by_cases hkj : k < j
    · rw [h'.kept _ (by omega), h.written k hk hkj]
    · exact h'.written k (by omega) hkn
  · rw [h'.kept a (by omega), h.kept a (by omega)]

theorem Filled.congr {entry entry' : Nat → Word} {m m' : PhysMem} (h : Filled base i j entry m m')
    (he : ∀ k, i ≤ k → k < j → entry k = entry' k) : Filled base i j entry' m m' :=
  ⟨fun k hk hkj => (h.written k hk hkj).trans (he k hk hkj), h.kept⟩

theorem fillPages_spec (base : Nat) (flags : Word) (n : Nat) {c : Cursor} {i : Nat}
    (hpage : c.page = 4096 * i) (hpte : c.pte = base + 8 * i) (hij : i ≤ j) (hn : j - i < n) :
    ∃ m', fillPages (4096 * j) flags n c = some ⟨m', base + 8 * j, 4096 * j⟩ ∧
      Filled base i j (fun k => BitVec.ofNat 64 (4096 * k) ||| flags) c.mem m' := by
  induction n generalizing c i with
  | zero => exact absurd hn (Nat.not_lt_zero _)
  | succ n ih =>
    obtain ⟨m, pte, page⟩ := c
    obtain rfl : page = 4096 * i := hpage
    obtain rfl : pte = base + 8 * i := hpte
    rw [fillPages]
    by_cases hlt : i < j
    · obtain ⟨m', hrun, hfill⟩ := ih (c := Cursor.fill ⟨m, base + 8 * i, 4096 * i⟩ flags) (i := i + 1)
        rfl rfl hlt (by omega)
      have hpos : 4096 * i < 4096 * j := by omega
      rw [if_pos hpos]
      exact ⟨m', hrun, hfill.first hlt⟩
    · obtain rfl : i = j := by omega
      rw [if_neg (lt_irrefl (4096 * i))]
      exact ⟨m, rfl, .refl⟩

theorem clearPtes_spec (base n : Nat) {c : Cursor} {i : Nat} (hpte : c.pte = base + 8 * i) (hij : i ≤ j)
    (hn : j - i < n) : ∃ m', clearPtes (base + 8 * j) n c = some ⟨m', base + 8 * j, c.page⟩ ∧
      Filled base i j (fun _ => 0) c.mem m' := by
  induction n generalizing c i with
  | zero => exact absurd hn (Nat.not_lt_zero _)
  | succ n ih =>
    obtain ⟨m, pte, page⟩ := c
    obtain rfl : pte = base + 8 * i := hpte
    rw [clearPtes]
    by_cases hlt : i < j
    · obtain ⟨m', hrun, hfill⟩ := ih (c := Cursor.clear ⟨m, base + 8 * i, page⟩) (i := i + 1)
        rfl hlt (by omega)
      have hpos : base + 8 * i < base + 8 * j := by omega
      rw [if_pos hpos]
      exact ⟨m', hrun, .first hlt hfill⟩
    · obtain rfl : i = j := by omega
      rw [if_neg (lt_irrefl (base + 8 * i))]
      exact ⟨m, rfl, .refl⟩

theorem fillPd_spec (l : Layout) (n : Nat) (m : PhysMem) :
    Filled l.kernelPd 0 n (fun i => dword (l.kernelEnd + 4096 * i) ||| rw) m (fillPd l n m) := by
  induction n with
  | zero => exact .refl
  | succ n ih =>
    refine ⟨fun k _ hk => ?_, fun a ha => ?_⟩
    · rw [fillPd, set]
      by_cases hkn : k = n
      · rw [hkn, Function.update_self, pgSize, Nat.mul_comm n]
      · rw [Function.update_of_ne (by omega)]
        exact ih.written k (Nat.zero_le _) (by omega)
    · rw [fillPd, set, Function.update_of_ne (by omega)]
      exact ih.kept a (by omega)

end loops

section spec
variable {l : Layout} {m m' : PhysMem}

def pageFlags (l : Layout) (k : Nat) : Word :=
  if 4096 * k < l.text then rw ||| pgGlobal ||| pgNx
  else if 4096 * k < l.rodata then pgPresent ||| pgGlobal
  else if 4096 * k < l.data then pgPresent ||| pgGlobal ||| pgNx
  else rw ||| pgGlobal ||| pgNx

def counted (l : Layout) (i : Nat) : Nat :=
  if i + 1 = l.pageTables then l.kernelEnd % 2097152 / 4096 else 0

structure Linked (l : Layout) (m m' : PhysMem) : Prop where
  top : m' (l.pml4t + 8 * 511) = dword l.pdpt ||| rw ||| references 1
  middle : m' (l.pdpt + 8 * 510) = dword l.kernelPd ||| rw ||| references l.pageTables
  directory : ∀ i < l.pageTables, m' (l.kernelPd + 8 * i) =
    dword (l.kernelEnd + 4096 * i) ||| rw ||| references (counted l i)
  unused : ∀ i, l.pageTables ≤ i → i < 512 → m' (l.kernelPd + 8 * i) = m (l.kernelPd + 8 * i)

structure Booted (l : Layout) (m m' : PhysMem) : Prop extends Linked l m m' where
  pages : ∀ k, 4096 * k < l.kernelEnd →
    m' (l.kernelEnd + 8 * k) = BitVec.ofNat 64 (4096 * k) ||| pageFlags l k
  tail : ∀ k, l.kernelEnd ≤ 4096 * k → k < 512 * l.pageTables → m' (l.kernelEnd + 8 * k) = 0

theorem Layout.pageTables_spec (l : Layout) : 0 < l.pageTables ∧ l.pageTables ≤ 512 ∧
    l.kernelEnd ≤ 2097152 * l.pageTables ∧ 2097152 * l.pageTables < l.kernelEnd + 2097152 := by
  have hpos := l.end_pos
  have hlt := l.end_lt
  rcases Nat.eq_zero_or_pos (l.kernelEnd % 2097152) with hz | hz
  · have heq : l.pageTables = l.kernelEnd / 2097152 := if_neg (not_not.mpr hz)
    omega
  · have heq : l.pageTables = l.kernelEnd / 2097152 + 1 := if_pos hz.ne'
    omega

theorem Layout.table_apart (l : Layout) {s t x : Nat} (hs : s ∈ [l.pml4t, l.pdpt, l.kernelPd])
    (ht : t ∈ [l.pml4t, l.pdpt, l.kernelPd]) (hne : s ≠ t) (hx : x < 512) :
    s + 8 * x < t ∨ t + 4096 ≤ s + 8 * x := by
  obtain ⟨hs, -⟩ := l.tables s hs
  obtain ⟨ht, -⟩ := l.tables t ht
  omega

theorem Layout.table_ne (l : Layout) {s t x y : Nat} (hs : s ∈ [l.pml4t, l.pdpt, l.kernelPd])
    (ht : t ∈ [l.pml4t, l.pdpt, l.kernelPd]) (hne : s ≠ t) (hx : x < 512) (hy : y < 512) :
    s + 8 * x ≠ t + 8 * y := by
  have h := l.table_apart hs ht hne hx
  omega

theorem Layout.tables_ne (l : Layout) :
    l.pml4t ≠ l.pdpt ∧ l.pml4t ≠ l.kernelPd ∧ l.pdpt ≠ l.kernelPd := by
  have h := l.distinct
  simp at h
  tauto

theorem references_zero (x : Word) : x ||| references 0 = x := by
  have h0 : references 0 = 0 := by decide
  rw [h0]
  exact BitVec.or_zero

theorem linkTop_spec (l : Layout) (m : PhysMem) :
    linkTop l m (l.pml4t + 8 * 511) = dword l.pdpt ||| rw ||| references 1 ∧
    linkTop l m (l.pdpt + 8 * 510) = dword l.kernelPd ||| rw ||| references l.pageTables ∧
    ∀ a, (∀ i < 512, a ≠ l.pml4t + 8 * i) → (∀ i < 512, a ≠ l.pdpt + 8 * i) →
      linkTop l m a = m a := by
  obtain ⟨h1, -, -⟩ := l.tables_ne
  have h43 (x y : Nat) (hx : x < 512) (hy : y < 512) : l.pml4t + 8 * x ≠ l.pdpt + 8 * y :=
    l.table_ne (by simp) (by simp) h1 hx hy
  have hself : pgSelf.toNat = 510 := rfl
  simp only [linkTop, set, hself]
  refine ⟨?_, ?_, fun a h4 h3 => ?_⟩
  · rw [Function.update_of_ne (h43 _ _ (by decide) (by decide)),
      Function.update_of_ne (h43 _ _ (by decide) (by decide)),
      Function.update_of_ne (h43 _ _ (by decide) (by decide)),
      Function.update_of_ne (by omega), Function.update_self]
  · rw [Function.update_self, Function.update_self]
  · rw [Function.update_of_ne (h3 _ (by decide)), Function.update_of_ne (h3 _ (by decide)),
      Function.update_of_ne (h3 _ (by decide)), Function.update_of_ne (h4 _ (by decide)),
      Function.update_of_ne (h4 _ (by decide)), Function.update_of_ne (h4 _ (by decide))]

theorem linkTables_linked (l : Layout) (m : PhysMem) : Linked l m (linkTables l m) := by
  obtain ⟨hpos, hle, -, -⟩ := l.pageTables_spec
  obtain ⟨-, h2, h3⟩ := l.tables_ne
  obtain ⟨htop, hmiddle, hrest⟩ := linkTop_spec l m
  have hfill := fillPd_spec l l.pageTables (linkTop l m)
  have hout {a : Nat} (ha : a < l.kernelPd ∨ l.kernelPd + 4096 ≤ a) :
      linkTables l m a = linkTop l m a := by
    have hne : a ≠ l.kernelPd + 8 * (l.pageTables - 1) := by omega
    exact (Function.update_of_ne hne _ _).trans (hfill.kept a (by omega))
  refine ⟨?_, ?_, fun i hi => ?_, fun i hi hi' => ?_⟩
  · rw [hout (l.table_apart (by simp) (by simp) h2 (by decide)), htop]
  · rw [hout (l.table_apart (by simp) (by simp) h3 (by decide)), hmiddle]
  · have hentry := hfill.written i (Nat.zero_le i) hi
    rw [linkTables, set, counted]
    by_cases hlast : i + 1 = l.pageTables
    · have heq : l.pageTables - 1 = i := by omega
      rw [if_pos hlast, heq, Function.update_self, hentry]
      rfl
    · rw [if_neg hlast, Function.update_of_ne (by omega), hentry, references_zero]
  · rw [linkTables, set, Function.update_of_ne (by omega), hfill.kept _ (by omega)]
    exact hrest _ (fun k hk => (l.table_ne (by simp) (by simp) h2 hk hi').symm)
      (fun k hk => (l.table_ne (by simp) (by simp) h3 hk hi').symm)

theorem Layout.table_outside (l : Layout) {t x : Nat} (ht : t ∈ [l.pml4t, l.pdpt, l.kernelPd])
    (hx : x < 512) : t + 8 * x < l.kernelEnd + 8 * 0 ∨
      l.kernelEnd + 8 * (512 * l.pageTables) ≤ t + 8 * x := by
  obtain ⟨-, -, ht⟩ := l.tables t ht
  rw [← Layout.pageTables] at ht
  omega

theorem fillKernel_spec (l : Layout) (m : PhysMem) : ∃ m',
    fillKernel l m = some ⟨m', l.kernelEnd + 8 * (l.kernelEnd / 4096), l.kernelEnd⟩ ∧
      Filled l.kernelEnd 0 (l.kernelEnd / 4096)
        (fun k => BitVec.ofNat 64 (4096 * k) ||| pageFlags l k) m m' := by
  obtain ⟨t, ht⟩ := l.sections l.text (by simp)
  obtain ⟨r, hr⟩ := l.sections l.rodata (by simp)
  obtain ⟨d, hd⟩ := l.sections l.data (by simp)
  obtain ⟨b, hb⟩ := l.sections l.bss (by simp)
  obtain ⟨e, he⟩ := l.sections l.kernelEnd (by simp)
  have hlt := l.end_lt
  have htr := l.text_le
  have hrd := l.rodata_le
  have hdb := l.data_le
  have hbe := l.bss_le
  have hfuel : fuel = 2 ^ 20 := rfl
  rw [ht, hr] at htr
  rw [hr, hd] at hrd
  rw [hd, hb] at hdb
  rw [hb, he] at hbe
  rw [he] at hlt
  obtain ⟨m₁, hrun₁, hfill₁⟩ := fillPages_spec (j := t) l.kernelEnd (rw ||| pgGlobal ||| pgNx) fuel
    (c := ⟨m, l.kernelEnd, 0⟩) (i := 0) rfl rfl (by omega) (by omega)
  obtain ⟨m₂, hrun₂, hfill₂⟩ := fillPages_spec (j := r) l.kernelEnd (pgPresent ||| pgGlobal) fuel
    (c := ⟨m₁, l.kernelEnd + 8 * t, 4096 * t⟩) (i := t) rfl rfl (by omega) (by omega)
  obtain ⟨m₃, hrun₃, hfill₃⟩ := fillPages_spec (j := d) l.kernelEnd (pgPresent ||| pgGlobal ||| pgNx)
    fuel (c := ⟨m₂, l.kernelEnd + 8 * r, 4096 * r⟩) (i := r) rfl rfl (by omega) (by omega)
  obtain ⟨m₄, hrun₄, hfill₄⟩ := fillPages_spec (j := b) l.kernelEnd (rw ||| pgGlobal ||| pgNx) fuel
    (c := ⟨m₃, l.kernelEnd + 8 * d, 4096 * d⟩) (i := d) rfl rfl (by omega) (by omega)
  obtain ⟨m₅, hrun₅, hfill₅⟩ := fillPages_spec (j := e) l.kernelEnd (rw ||| pgGlobal ||| pgNx) fuel
    (c := ⟨m₄, l.kernelEnd + 8 * b, 4096 * b⟩) (i := b) rfl rfl (by omega) (by omega)
  have hdiv : l.kernelEnd / 4096 = e := by omega
  refine ⟨m₅, ?_, ?_⟩
  · simp only [fillKernel, Option.bind_eq_bind]
    rw [ht, hr, hd, hb, hrun₁, Option.bind_some, hrun₂, Option.bind_some, hrun₃, Option.bind_some,
      hrun₄, Option.bind_some, hdiv]
    rw [← he] at hrun₅
    exact hrun₅
  · rw [hdiv]
    refine Filled.trans (j := b) (by omega) (by omega) (Filled.trans (j := d) (by omega) (by omega)
      (Filled.trans (j := r) (by omega) (by omega) (Filled.trans (j := t) (by omega) (by omega)
      (hfill₁.congr ?_) (hfill₂.congr ?_)) (hfill₃.congr ?_)) (hfill₄.congr ?_)) (hfill₅.congr ?_)
    all_goals
      intro k hk hk'
      rw [pageFlags]
      split_ifs <;> first | rfl | omega

theorem initializePaging_spec (l : Layout) (m : PhysMem) : ∃ m',
    initializePaging l m = some (m', l.kernelEnd + 4096 * l.pageTables) ∧ Booted l m m' := by
  obtain ⟨-, hmost, hle, -⟩ := l.pageTables_spec
  obtain ⟨e, he⟩ := l.sections l.kernelEnd (by simp)
  have hlt := l.end_lt
  have hfuel : fuel = 2 ^ 20 := rfl
  obtain ⟨m₁, hrun₁, hfill₁⟩ := fillKernel_spec l (linkTables l m)
  obtain ⟨m₂, hrun₂, hfill₂⟩ := clearPtes_spec (j := 512 * l.pageTables) l.kernelEnd fuel
    (c := ⟨m₁, l.kernelEnd + 8 * (l.kernelEnd / 4096), l.kernelEnd⟩) (i := l.kernelEnd / 4096)
    rfl (by omega) (by omega)
  have hend : l.kernelEnd + l.pageTables * pgSize = l.kernelEnd + 8 * (512 * l.pageTables) := by
    rw [pgSize]
    omega
  have hlinked := linkTables_linked l m
  have hkept {t x : Nat} (ht : t ∈ [l.pml4t, l.pdpt, l.kernelPd]) (hx : x < 512) :
      m₂ (t + 8 * x) = linkTables l m (t + 8 * x) := by
    have hout := l.table_outside ht hx
    exact (hfill₂.kept _ (by omega)).trans (hfill₁.kept _ (by omega))
  refine ⟨m₂, ?_, ⟨?_, ?_, fun i hi => ?_, fun i hi hi' => ?_⟩, fun k hk => ?_, fun k hk hk' => ?_⟩
  · rw [initializePaging, hrun₁, Option.bind_eq_bind, Option.bind_some, hend, hrun₂]
    have hstop : l.kernelEnd + 8 * (512 * l.pageTables) = l.kernelEnd + 4096 * l.pageTables := by
      omega
    rw [← hstop]
    rfl
  · rw [hkept (by simp) (by decide), hlinked.top]
  · rw [hkept (by simp) (by decide), hlinked.middle]
  · rw [hkept (by simp) (by omega), hlinked.directory i hi]
  · rw [hkept (by simp) hi', hlinked.unused i hi hi']
  · exact (hfill₂.kept _ (by omega)).trans (hfill₁.written k (Nat.zero_le k) (by omega))
  · exact hfill₂.written k (by omega) hk'

end spec

end Lasagne.Boot
