import Mathlib
import Lasagne.Buddy.State

namespace Lasagne.Buddy
open ByteMemory CInt LinkedList

-- lists l holds the indices of the free blocks of level l in list order; the prev link of a
-- list's first block is left open, because create_block does not maintain it
structure Lists (r : Region) (h : Heap) (lists : Nat → List Nat) : Prop where
  bound : ∀ l, ∀ i ∈ lists l, l ≤ r.depth ∧ i < 2 ^ l
  unique : ∀ l i m j, i ∈ lists l → j ∈ lists m → r.address l i = r.address m j → l = m ∧ i = j
  nodup : ∀ l, (lists l).Nodup
  forward : ∀ l, Forward (nodeNext h.mem) (h.alloc.freeBlocks l) ((lists l).map (r.address l))
  backward : ∀ l, Backward (nodePrev h.mem) ((lists l).map (r.address l))
  count : ∀ l, h.alloc.freeCount l = (lists l).length

def relink (m : Memory) (p v : Nat) : Memory := if notEmpty p then setPrev m p v else m

section relink
variable {r : Region} {p q v : Nat} {m : Memory}

theorem relink_next (hp : p = 0 ∨ r.Aligned p) (hq : r.Aligned q) :
    nodeNext (relink m p v) q = nodeNext m q := by
  rw [relink]
  split
  next h =>
    rcases hp with rfl | hp
    · simp [notEmpty, allocatorEmpty] at h
    · exact nodeNext_setPrev hp hq
  next => rfl

theorem relink_prev (hp : p = 0 ∨ r.Aligned p) (hq : r.Aligned q) (hv : v < 18446744073709551616) :
    nodePrev (relink m p v) q = if p ≠ 0 ∧ q = p then v else nodePrev m q := by
  rw [relink]
  rcases hp with rfl | hp
  · simp [notEmpty, allocatorEmpty]
  · by_cases h0 : p = 0
    · simp [h0, notEmpty, allocatorEmpty]
    · rw [if_pos (by simpa [notEmpty, allocatorEmpty] using h0), nodePrev_setPrev hp hq hv]
      simp [h0]

theorem relink_outside {W : Nat → Prop} (h : p ≠ 0 → ∀ x, p ≤ x → x < p + 16 → W x) :
    SameOutside W m (relink m p v) := by
  rw [relink]
  split
  next h0 => exact sameOutside_setPrev (h (by simpa [notEmpty, allocatorEmpty] using h0))
  next => exact SameOutside.refl W m

end relink

def FreeBytes (r : Region) (lists : Nat → List Nat) (x : Nat) : Prop :=
  ∃ l i, i ∈ lists l ∧ r.InBlock l i x

def LevelBytes (r : Region) (lists : Nat → List Nat) (l x : Nat) : Prop :=
  ∃ i, i ∈ lists l ∧ r.InBlock l i x

theorem LevelBytes.free {r : Region} {lists : Nat → List Nat} {l x : Nat}
    (h : LevelBytes r lists l x) : FreeBytes r lists x := by
  obtain ⟨i, hi, hx⟩ := h
  exact ⟨l, i, hi, hx⟩

namespace Lists
variable {r : Region} {h h' : Heap} {lists : Nat → List Nat} {l i : Nat}

theorem headD_map (f : Nat → Nat) (xs : List Nat) :
    (xs.map f).headD 0 = (xs.head?.map f).getD 0 := by
  cases xs <;> rfl

theorem length_le (hL : Lists r h lists) (l : Nat) : (lists l).length ≤ 2 ^ l := by
  have hsub : (lists l).toFinset ⊆ Finset.range (2 ^ l) := by
    intro i hi
    exact Finset.mem_range.mpr (hL.bound l i (List.mem_toFinset.mp hi)).2
  have := Finset.card_le_card hsub
  rwa [List.toFinset_card_of_nodup (hL.nodup l), Finset.card_range] at this

theorem length_lt (hL : Lists r h lists) (l : Nat) :
    (lists l).length ≤ 1073741824 := by
  rcases Nat.lt_or_ge r.depth l with hd | hd
  · have : lists l = [] := by
      rw [List.eq_nil_iff_forall_not_mem]
      intro i hi
      have := (hL.bound l i hi).1
      omega
    simp [this]
  · have h1 := hL.length_le l
    have h2 := r.size_le
    calc (lists l).length ≤ 2 ^ l := h1
      _ ≤ 2 ^ 30 := Nat.pow_le_pow_right (by omega) (by omega)
      _ = 1073741824 := by norm_num

theorem freeBlocks_eq (hL : Lists r h lists) (l : Nat) :
    h.alloc.freeBlocks l = ((lists l).head?.map (r.address l)).getD 0 := by
  rw [(hL.forward l).head, headD_map]

theorem exists_head (hL : Lists r h lists) {l : Nat} (hne : h.alloc.freeBlocks l ≠ 0) :
    ∃ i, l ≤ r.depth ∧ i < 2 ^ l ∧ h.alloc.freeBlocks l = r.address l i := by
  have hhead := hL.freeBlocks_eq l
  cases hl : lists l with
  | nil =>
    rw [hl] at hhead
    exact absurd hhead hne
  | cons i rest =>
    rw [hl] at hhead
    have hbound := hL.bound l i (by rw [hl]; exact List.mem_cons_self)
    exact ⟨i, hbound.1, hbound.2, hhead⟩

theorem notEmpty_iff (hL : Lists r h lists) (l : Nat) :
    notEmpty (h.alloc.freeBlocks l) = true ↔ lists l ≠ [] := by
  have := (hL.forward l).nil_iff
  rw [List.map_eq_nil_iff] at this
  simp only [notEmpty, allocatorEmpty, bne_iff_ne, ne_eq, this]

theorem next_eq (hL : Lists r h lists) {xs ys : List Nat} (hl : lists l = xs ++ i :: ys) :
    nodeNext h.mem (r.address l i) = (ys.head?.map (r.address l)).getD 0 := by
  have hf := hL.forward l
  rw [hl, List.map_append, List.map_cons] at hf
  rw [hf.next_eq, headD_map]

theorem head_lt (hL : Lists r h lists) (l : Nat) :
    h.alloc.freeBlocks l < 18446744073709551616 := by
  rw [hL.freeBlocks_eq]
  cases hh : (lists l).head? with
  | none => simp
  | some i =>
    have hi := hL.bound l i (List.mem_of_head? hh)
    exact r.address_lt hi.1 hi.2

theorem congr (hL : Lists r h lists) (hb : h'.alloc.freeBlocks = h.alloc.freeBlocks)
    (hc : h'.alloc.freeCount = h.alloc.freeCount)
    (hm : ∀ x, FreeBytes r lists x → h'.mem x = h.mem x) : Lists r h' lists := by
  have hnode (l i : Nat) (hi : i ∈ lists l) :=
    node_congr fun x hx hx' => hm x ⟨l, i, hi, r.header_inBlock hx hx'⟩
  refine ⟨hL.bound, hL.unique, hL.nodup, fun l => ?_, fun l => ?_, fun l => ?_⟩
  · rw [hb]
    refine (hL.forward l).congr fun y hy => ?_
    obtain ⟨i, hi, rfl⟩ := List.mem_map.mp hy
    exact (hnode l i hi).1
  · have hback := hL.backward l
    cases hl : lists l with
    | nil => exact List.isChain_nil
    | cons i is =>
      rw [hl, List.map_cons] at hback
      rw [List.map_cons]
      refine Backward.congr hback fun y hy => ?_
      obtain ⟨j, hj, rfl⟩ := List.mem_map.mp hy
      exact (hnode l j (by rw [hl]; exact List.mem_cons_of_mem _ hj)).2
  · rw [hc, hL.count]

section change
variable {ls : List Nat} {head count : Nat} {m : Memory}

theorem change (hL : Lists r h lists) (hbound : ∀ i ∈ ls, l ≤ r.depth ∧ i < 2 ^ l)
    (hunique : ∀ i ∈ ls, ∀ n j, n ≠ l → j ∈ lists n → r.address l i ≠ r.address n j)
    (hnodup : ls.Nodup)
    (hforward : Forward (nodeNext m) head (ls.map (r.address l)))
    (hbackward : Backward (nodePrev m) (ls.map (r.address l)))
    (hcount : count = ls.length)
    (hother : ∀ n j, n ≠ l → j ∈ lists n →
      nodeNext m (r.address n j) = nodeNext h.mem (r.address n j) ∧
      nodePrev m (r.address n j) = nodePrev h.mem (r.address n j)) :
    Lists r { alloc := setFreeList h.alloc l head count, mem := m } (Function.update lists l ls) := by
  refine ⟨?_, ?_, ?_, ?_, ?_, ?_⟩
  · intro n i hi
    by_cases hn : n = l
    · subst hn; rw [Function.update_self] at hi; exact hbound i hi
    · rw [Function.update_of_ne hn] at hi; exact hL.bound n i hi
  · intro n i n' j hi hj ha
    by_cases hn : n = l <;> by_cases hn' : n' = l
    · subst hn; subst hn'
      exact ⟨rfl, r.address_inj ha⟩
    · subst hn
      rw [Function.update_self] at hi
      rw [Function.update_of_ne hn'] at hj
      exact absurd ha (hunique i hi n' j hn' hj)
    · subst hn'
      rw [Function.update_self] at hj
      rw [Function.update_of_ne hn] at hi
      exact absurd ha.symm (hunique j hj n i hn hi)
    · rw [Function.update_of_ne hn] at hi
      rw [Function.update_of_ne hn'] at hj
      exact hL.unique n i n' j hi hj ha
  · intro n
    by_cases hn : n = l
    · subst hn; rwa [Function.update_self]
    · rw [Function.update_of_ne hn]; exact hL.nodup n
  · intro n
    by_cases hn : n = l
    · subst hn; simpa only [setFreeList, Function.update_self] using hforward
    · simp only [setFreeList, Function.update_of_ne hn]
      refine (hL.forward n).congr fun y hy => ?_
      obtain ⟨j, hj, rfl⟩ := List.mem_map.mp hy
      exact (hother n j hn hj).1
  · intro n
    by_cases hn : n = l
    · subst hn; simpa only [Function.update_self] using hbackward
    · rw [Function.update_of_ne hn]
      have hback := hL.backward n
      cases hl : lists n with
      | nil => exact List.isChain_nil
      | cons i is =>
        rw [hl, List.map_cons] at hback
        rw [List.map_cons]
        refine Backward.congr hback fun y hy => ?_
        obtain ⟨j, hj, rfl⟩ := List.mem_map.mp hy
        exact (hother n j hn (by rw [hl]; exact List.mem_cons_of_mem _ hj)).2
  · intro n
    by_cases hn : n = l
    · subst hn; simpa only [setFreeList, Function.update_self] using hcount
    · simp only [setFreeList, Function.update_of_ne hn]; exact hL.count n

end change

def headAddress (r : Region) (l : Nat) (is : List Nat) : Nat :=
  (is.head?.map (r.address l)).getD 0

theorem headAddress_cases (r : Region) (l : Nat) (is : List Nat) :
    headAddress r l is = 0 ∧ is = [] ∨
      ∃ j js, is = j :: js ∧ headAddress r l is = r.address l j := by
  cases is with
  | nil => exact .inl ⟨rfl, rfl⟩
  | cons j js => exact .inr ⟨j, js, rfl, rfl⟩

theorem headAddress_aligned (r : Region) (l : Nat) (is : List Nat) :
    headAddress r l is = 0 ∨ r.Aligned (headAddress r l is) := by
  rcases headAddress_cases r l is with ⟨h, -⟩ | ⟨j, js, rfl, h⟩
  · exact .inl h
  · rw [h]; exact .inr (r.address_aligned l j)

theorem address_ne (hL : Lists r h lists) {n j : Nat} (hi : i ∈ lists l) (hj : j ∈ lists n)
    (hne : ¬ (n = l ∧ j = i)) : r.address l i ≠ r.address n j := by
  intro ha
  obtain ⟨h1, h2⟩ := hL.unique l i n j hi hj ha
  exact hne ⟨h1.symm, h2.symm⟩

theorem relink_levelBytes {is : List Nat} (v : Nat)
    (hsub : ∀ j ∈ is, j ∈ lists l) :
    SameOutside (LevelBytes r lists l) h.mem (relink h.mem (headAddress r l is) v) := by
  apply relink_outside
  intro h0 x hx hx'
  rcases headAddress_cases r l is with ⟨hz, -⟩ | ⟨j, js, rfl, hj⟩
  · exact absurd hz h0
  · rw [hj] at hx hx'
    exact ⟨j, hsub j (by simp), r.header_inBlock hx hx'⟩

section pop
variable {rest : List Nat}

-- v is the EMPTY written by allocator_allocate, or nothing is written by create_block
theorem pop (hL : Lists r h lists) (hl : lists l = i :: rest) (m : Memory)
    (hm : m = h.mem ∨ m = relink h.mem (headAddress r l rest) 0) :
    Lists r { alloc := setFreeList h.alloc l (nodeNext h.mem (r.address l i))
                (subSize (h.alloc.freeCount l) 1), mem := m } (Function.update lists l rest) := by
  have hmem (j : Nat) (hj : j ∈ rest) : j ∈ lists l := by rw [hl]; exact List.mem_cons_of_mem _ hj
  have hnd := hL.nodup l
  rw [hl, List.nodup_cons] at hnd
  have hnext (q : Nat) (hq : r.Aligned q) : nodeNext m q = nodeNext h.mem q := by
    rcases hm with rfl | rfl
    · rfl
    · exact relink_next (headAddress_aligned r l rest) hq
  have hprev (q : Nat) (hq : r.Aligned q) (hne : q ≠ headAddress r l rest) :
      nodePrev m q = nodePrev h.mem q := by
    rcases hm with rfl | rfl
    · rfl
    · rw [relink_prev (headAddress_aligned r l rest) hq (by omega), if_neg (fun hc => hne hc.2)]
  have hfw := hL.forward l
  have hbw := hL.backward l
  rw [hl, List.map_cons] at hfw hbw
  refine hL.change (fun j hj => hL.bound l j (hmem j hj)) ?_ hnd.2 ?_ ?_ ?_ ?_
  · intro j hj n j' hn hj'
    exact hL.address_ne (hmem j hj) hj' (fun hc => hn hc.1)
  · refine hfw.tail.congr fun y hy => ?_
    obtain ⟨j, -, rfl⟩ := List.mem_map.mp hy
    exact hnext _ (r.address_aligned l j)
  · cases rest with
    | nil => exact List.isChain_nil
    | cons j js =>
      refine Backward.congr hbw.tail fun y hy => ?_
      obtain ⟨j', hj', rfl⟩ := List.mem_map.mp hy
      refine hprev _ (r.address_aligned l j') fun hc => ?_
      have := r.address_inj hc
      exact (List.nodup_cons.mp hnd.2).1 (this ▸ hj')
  · have := hL.length_lt l
    rw [hL.count, hl, List.length_cons] at *
    simp only [subSize, wordSize]
    omega
  · intro n j hn hj
    refine ⟨hnext _ (r.address_aligned n j), hprev _ (r.address_aligned n j) ?_⟩
    rcases headAddress_cases r l rest with ⟨hz, -⟩ | ⟨j', js, rfl, hj'⟩
    · rw [hz]; exact (r.address_pos n j).ne'
    · rw [hj']
      exact (hL.address_ne (hmem j' (by simp)) hj (fun hc => hn hc.1)).symm

end pop

theorem push (hL : Lists r h lists) (hb : l ≤ r.depth ∧ i < 2 ^ l)
    (hfresh : ∀ n j, j ∈ lists n → r.address n j ≠ r.address l i) {m : Memory}
    (hA : nodeNext m (r.address l i) = h.alloc.freeBlocks l)
    (hnext : ∀ q, r.Aligned q → q ≠ r.address l i → nodeNext m q = nodeNext h.mem q)
    (hhead : ∀ q, r.Aligned q → q = h.alloc.freeBlocks l → nodePrev m q = r.address l i)
    (hprev : ∀ q, r.Aligned q → q ≠ r.address l i → q ≠ h.alloc.freeBlocks l →
      nodePrev m q = nodePrev h.mem q) :
    Lists r { alloc := setFreeList h.alloc l (r.address l i) (addSize (h.alloc.freeCount l) 1)
              mem := m } (Function.update lists l (i :: lists l)) := by
  have hni : i ∉ lists l := fun hi => hfresh l i hi rfl
  have hnode (n j : Nat) (hj : j ∈ lists n) :
      nodeNext m (r.address n j) = nodeNext h.mem (r.address n j) :=
    hnext _ (r.address_aligned n j) (hfresh n j hj)
  refine hL.change ?_ ?_ (List.nodup_cons.mpr ⟨hni, hL.nodup l⟩) ?_ ?_ ?_ ?_
  · intro j hj
    rcases List.mem_cons.mp hj with rfl | hj
    · exact hb
    · exact hL.bound l j hj
  · intro j hj n j' hn hj'
    rcases List.mem_cons.mp hj with rfl | hj
    · exact (hfresh n j' hj').symm
    · exact hL.address_ne hj hj' (fun hc => hn hc.1)
  · refine (hL.forward l).push (r.address_pos l i).ne' hA fun y hy => ?_
    obtain ⟨j, hj, rfl⟩ := List.mem_map.mp hy
    exact hnode l j hj
  · have heq := hL.freeBlocks_eq l
    have hnd := hL.nodup l
    rw [List.map_cons]
    refine Backward.push (hL.backward l) ?_ ?_
    · intro y hy
      rw [List.head?_map] at hy
      obtain ⟨j, hj, rfl⟩ := Option.map_eq_some_iff.mp hy
      apply hhead _ (r.address_aligned l j)
      rw [heq, hj]; rfl
    · intro y hy
      cases hl : lists l with
      | nil => simp [hl] at hy
      | cons j0 js =>
        rw [hl, List.map_cons, List.tail_cons] at hy
        obtain ⟨j, hj, rfl⟩ := List.mem_map.mp hy
        have hjl : j ∈ lists l := by rw [hl]; exact List.mem_cons_of_mem _ hj
        refine hprev _ (r.address_aligned l j) (hfresh l j hjl) fun hc => ?_
        rw [heq, hl] at hc
        have := r.address_inj hc
        rw [hl, List.nodup_cons] at hnd
        exact hnd.1 (this ▸ hj)
  · have := hL.length_lt l
    rw [hL.count, List.length_cons]
    simp only [addSize, wordSize]
    omega
  · intro n j hn hj
    refine ⟨hnode n j hj, hprev _ (r.address_aligned n j) (hfresh n j hj) fun hc => ?_⟩
    rcases headAddress_cases r l (lists l) with ⟨hz, -⟩ | ⟨j', js, hls, hj'⟩
    · rw [hL.freeBlocks_eq] at hc
      exact (r.address_pos n j).ne' (hc.trans hz)
    · rw [hL.freeBlocks_eq] at hc
      have hmem : j' ∈ lists l := by rw [hls]; simp
      exact hL.address_ne hmem hj (fun hc => hn hc.1) (hc.trans hj').symm

section insert

theorem head_ne (hL : Lists r h lists)
    (hfresh : ∀ n j, j ∈ lists n → r.address n j ≠ r.address l i) :
    h.alloc.freeBlocks l ≠ r.address l i := by
  rw [hL.freeBlocks_eq]
  rcases headAddress_cases r l (lists l) with ⟨hz, -⟩ | ⟨j, js, hj, hj'⟩
  · exact fun hc => (r.address_pos l i).ne' (hc.symm.trans hz)
  · exact fun hc => hfresh l j (by rw [hj]; simp) (hj'.symm.trans hc)

theorem head_aligned (hL : Lists r h lists) (l : Nat) :
    h.alloc.freeBlocks l = 0 ∨ r.Aligned (h.alloc.freeBlocks l) := by
  rw [hL.freeBlocks_eq]
  exact headAddress_aligned r l _

theorem relink_head (hL : Lists r h lists) (m : Memory) (l v : Nat) :
    SameOutside (FreeBytes r lists) m (relink m (h.alloc.freeBlocks l) v) := by
  rw [hL.freeBlocks_eq]
  exact (relink_levelBytes (h := { h with mem := m }) (l := l) v (fun j hj => hj)).mono
    fun x hx => hx.free

def NewBytes (r : Region) (lists : Nat → List Nat) (l i x : Nat) : Prop :=
  FreeBytes r lists x ∨ r.InBlock l i x

-- the order of the writes in split
theorem push_split (hL : Lists r h lists) (hb : l ≤ r.depth ∧ i < 2 ^ l)
    (hfresh : ∀ n j, j ∈ lists n → r.address n j ≠ r.address l i) {A head : Nat}
    (hA : A = r.address l i) (hhead : head = h.alloc.freeBlocks l) {m : Memory}
    (hm : m = relink (setNext (setPrev h.mem A allocatorEmpty) A head) head A) :
    Lists r { alloc := setFreeList h.alloc l A (addSize (h.alloc.freeCount l) 1), mem := m }
        (Function.update lists l (i :: lists l)) ∧
      SameOutside (NewBytes r lists l i) h.mem m := by
  subst hA hhead hm
  have haA := r.address_aligned l i
  have hhA := hL.head_aligned l
  have hne := hL.head_ne hfresh
  have halt := r.address_lt hb.1 hb.2
  constructor
  · refine hL.push hb hfresh ?_ ?_ ?_ ?_
    · rw [relink_next hhA haA, nodeNext_setNext haA haA (hL.head_lt l), if_pos rfl]
    · intro q hq hqA
      rw [relink_next hhA hq, nodeNext_setNext haA hq (hL.head_lt l), if_neg hqA,
        nodeNext_setPrev haA hq]
    · rintro q hq rfl
      obtain ⟨n, hn⟩ := hq
      have := r.base_pos
      rw [relink_prev hhA ⟨n, hn⟩ halt, if_pos ⟨by omega, rfl⟩]
    · intro q hq hqA hqh
      rw [relink_prev hhA hq halt, if_neg fun hc => hqh hc.2, nodePrev_setNext haA hq,
        nodePrev_setPrev haA hq (by simp [allocatorEmpty]), if_neg hqA]
  · have hsub (x : Nat) (hx : r.address l i ≤ x) (hx' : x < r.address l i + 16) :
        NewBytes r lists l i x := .inr (r.header_inBlock hx hx')
    exact (sameOutside_setPrev hsub).trans ((sameOutside_setNext hsub).trans
      ((hL.relink_head _ l _).mono fun x hx => .inl hx))

-- the order of the writes at the end of allocator_deallocate_level
theorem push_block (hL : Lists r h lists) (hb : l ≤ r.depth ∧ i < 2 ^ l)
    (hfresh : ∀ n j, j ∈ lists n → r.address n j ≠ r.address l i) :
    Lists r (pushBlock h (r.address l i) l) (Function.update lists l (i :: lists l)) ∧
      SameOutside (NewBytes r lists l i) h.mem (pushBlock h (r.address l i) l).mem := by
  have haA := r.address_aligned l i
  have hhA := hL.head_aligned l
  have hne := hL.head_ne hfresh
  have halt := r.address_lt hb.1 hb.2
  change Lists r { alloc := setFreeList h.alloc l (r.address l i) (addSize (h.alloc.freeCount l) 1)
                   mem := setPrev (setNext (relink h.mem (h.alloc.freeBlocks l) (r.address l i))
                     (r.address l i) (h.alloc.freeBlocks l)) (r.address l i) allocatorEmpty } _ ∧
    SameOutside _ _ (setPrev (setNext (relink h.mem (h.alloc.freeBlocks l) (r.address l i))
      (r.address l i) (h.alloc.freeBlocks l)) (r.address l i) allocatorEmpty)
  constructor
  · refine hL.push hb hfresh ?_ ?_ ?_ ?_
    · rw [nodeNext_setPrev haA haA, nodeNext_setNext haA haA (hL.head_lt l), if_pos rfl]
    · intro q hq hqA
      rw [nodeNext_setPrev haA hq, nodeNext_setNext haA hq (hL.head_lt l), if_neg hqA,
        relink_next hhA hq]
    · rintro q hq rfl
      obtain ⟨n, hn⟩ := hq
      have := r.base_pos
      rw [nodePrev_setPrev haA ⟨n, hn⟩ (by simp [allocatorEmpty]), if_neg hne,
        nodePrev_setNext haA ⟨n, hn⟩, relink_prev hhA ⟨n, hn⟩ halt, if_pos ⟨by omega, rfl⟩]
    · intro q hq hqA hqh
      rw [nodePrev_setPrev haA hq (by simp [allocatorEmpty]), if_neg hqA,
        nodePrev_setNext haA hq, relink_prev hhA hq halt, if_neg fun hc => hqh hc.2]
  · have hsub (x : Nat) (hx : r.address l i ≤ x) (hx' : x < r.address l i + 16) :
        NewBytes r lists l i x := .inr (r.header_inBlock hx hx')
    exact ((hL.relink_head _ l _).mono fun x hx => .inl hx).trans
      ((sameOutside_setNext hsub).trans (sameOutside_setPrev hsub))

end insert

theorem erase_mid {xs ys : List Nat} (hnd : (xs ++ i :: ys).Nodup) :
    (xs ++ i :: ys).erase i = xs ++ ys := by
  have hni : i ∉ xs := by
    intro hi
    rw [List.nodup_append] at hnd
    exact hnd.2.2 i hi i (by simp) rfl
  rw [List.erase_append_right _ hni, List.erase_cons_head]

section remove

theorem removeFromList_eq (h : Heap) (p l : Nat) {m : Memory}
    (hm : m = relink h.mem (nodeNext h.mem p) (nodePrev h.mem p)) :
    removeFromList h p l =
      if notEmpty (nodePrev m p) then
        { alloc := setFreeList h.alloc l (h.alloc.freeBlocks l) (subSize (h.alloc.freeCount l) 1)
          mem := setNext m (nodePrev m p) (nodeNext m p) }
      else { alloc := setFreeList h.alloc l (nodeNext m p) (subSize (h.alloc.freeCount l) 1)
             mem := m } := by
  subst hm; rfl

variable {ys : List Nat}

theorem self_ne_next (hnd : (i :: ys).Nodup) : r.address l i ≠ headAddress r l ys := by
  rcases headAddress_cases r l ys with ⟨hz, -⟩ | ⟨j, js, rfl, hj⟩
  · rw [hz]; exact (r.address_pos l i).ne'
  · rw [hj]
    intro hc
    exact (List.nodup_cons.mp hnd).1 (by rw [r.address_inj hc]; simp)

theorem relink_prev_self (m : Memory) {v : Nat} (hv : v < 18446744073709551616)
    (hnd : (i :: ys).Nodup) :
    nodePrev (relink m (headAddress r l ys) v) (r.address l i) = nodePrev m (r.address l i) := by
  rw [relink_prev (headAddress_aligned r l ys) (r.address_aligned l i) hv,
    if_neg fun hc => self_ne_next hnd hc.2]

theorem remove_head (hL : Lists r h lists) (hl : lists l = i :: ys)
    (hprev : nodePrev h.mem (r.address l i) = 0) :
    Lists r (removeFromList h (r.address l i) l) (Function.update lists l ys) ∧
      SameOutside (LevelBytes r lists l) h.mem (removeFromList h (r.address l i) l).mem := by
  have hnext := hL.next_eq (show lists l = [] ++ i :: ys from hl)
  change nodeNext h.mem (r.address l i) = headAddress r l ys at hnext
  have hnd := hL.nodup l
  rw [hl] at hnd
  have heq := removeFromList_eq h (r.address l i) l rfl
  rw [hnext, hprev, relink_prev_self h.mem (by omega) hnd, hprev,
    if_neg (by simp [notEmpty, allocatorEmpty]),
    relink_next (headAddress_aligned r l ys) (r.address_aligned l i)] at heq
  rw [heq]
  refine ⟨hL.pop hl _ (.inr rfl), relink_levelBytes (l := l) (h := h) 0 fun j hj => ?_⟩
  rw [hl]
  exact List.mem_cons_of_mem _ hj

variable {xs : List Nat} {a : Nat}

theorem remove_inner (hL : Lists r h lists) (hl : lists l = xs ++ a :: i :: ys) :
    Lists r (removeFromList h (r.address l i) l) (Function.update lists l (xs ++ a :: ys)) ∧
      SameOutside (LevelBytes r lists l) h.mem (removeFromList h (r.address l i) l).mem := by
  have hl' : lists l = (xs ++ [a]) ++ i :: ys := by rw [hl]; simp
  have hnext := hL.next_eq hl'
  change nodeNext h.mem (r.address l i) = headAddress r l ys at hnext
  have hbw := hL.backward l
  have hfw := hL.forward l
  rw [hl, List.map_append, List.map_cons, List.map_cons] at hbw hfw
  have hpa : nodePrev h.mem (r.address l i) = r.address l a := hbw.prev_eq
  have hmem (j : Nat) (hj : j ∈ xs ++ a :: ys) : j ∈ lists l := by
    rw [hl]; simp at hj ⊢; tauto
  have haa := r.address_aligned l a
  have ha := hL.bound l a (hmem a (by simp))
  have halt := r.address_lt ha.1 ha.2
  have hnlt : headAddress r l ys < 18446744073709551616 := hnext ▸ nodeNext_lt _ _
  have hnd : (xs ++ a :: i :: ys).Nodup := hl ▸ hL.nodup l
  have hndi : (i :: ys).Nodup := by
    rw [List.nodup_append, List.nodup_cons] at hnd; exact hnd.2.1.2
  have hsub : (xs ++ a :: ys).Nodup :=
    hnd.sublist (List.Sublist.append_left ((List.sublist_cons_self i ys).cons_cons a) xs)
  have hsub' : (xs ++ [a] ++ ys).Nodup := by simpa using hsub
  rw [List.nodup_append] at hsub'
  have heq := removeFromList_eq h (r.address l i) l rfl
  rw [hnext, hpa, relink_prev_self h.mem halt hndi, hpa,
    if_pos (by simpa [notEmpty, allocatorEmpty] using (r.address_pos l a).ne'),
    relink_next (headAddress_aligned r l ys) (r.address_aligned l i), hnext] at heq
  rw [heq]
  set m := setNext (relink h.mem (headAddress r l ys) (r.address l a)) (r.address l a)
    (headAddress r l ys) with hm
  have hnx (q : Nat) (hq : r.Aligned q) :
      nodeNext m q = if q = r.address l a then headAddress r l ys else nodeNext h.mem q := by
    rw [hm, nodeNext_setNext haa hq hnlt, relink_next (headAddress_aligned r l ys) hq]
  have hpx (q : Nat) (hq : r.Aligned q) :
      nodePrev m q = if headAddress r l ys ≠ 0 ∧ q = headAddress r l ys then r.address l a
        else nodePrev h.mem q := by
    rw [hm, nodePrev_setNext haa hq, relink_prev (headAddress_aligned r l ys) hq halt]
  have hne (j : Nat) (hj : j ≠ a) : nodeNext m (r.address l j) = nodeNext h.mem (r.address l j) := by
    rw [hnx _ (r.address_aligned l j), if_neg fun hc => hj (r.address_inj hc)]
  have hpe (j : Nat) (hj : j ∉ ys.head?) :
      nodePrev m (r.address l j) = nodePrev h.mem (r.address l j) := by
    rw [hpx _ (r.address_aligned l j), if_neg fun hc => ?_]
    rcases headAddress_cases r l ys with ⟨hz, -⟩ | ⟨j', js, rfl, hj'⟩
    · exact hc.1 hz
    · rw [hj'] at hc
      exact hj (by rw [r.address_inj hc.2]; simp)
  constructor
  · refine hL.change (fun j hj => hL.bound l j (hmem j hj)) ?_ hsub ?_ ?_ ?_ ?_
    · intro j hj n j' hn hj'
      exact hL.address_ne (hmem j hj) hj' (fun hc => hn hc.1)
    · rw [List.map_append, List.map_cons]
      refine hfw.remove ?_ ?_ ?_
      · rw [hnx _ haa, if_pos rfl, hnext]
      · intro y hy
        obtain ⟨j, hj, rfl⟩ := List.mem_map.mp hy
        refine hne j fun hja => ?_
        rw [List.nodup_append] at hsub
        exact hsub.2.2 j hj a (by simp) hja
      · intro y hy
        obtain ⟨j, hj, rfl⟩ := List.mem_map.mp hy
        refine hne j fun hja => ?_
        exact hsub'.2.2 a (by simp) j hj hja.symm
    · rw [List.map_append, List.map_cons]
      refine hbw.remove ?_ ?_ ?_
      · intro y hy
        rw [List.head?_map] at hy
        obtain ⟨j, hj, rfl⟩ := Option.map_eq_some_iff.mp hy
        have hh : headAddress r l ys = r.address l j := by rw [headAddress, hj]; rfl
        rw [hpx _ (r.address_aligned l j), hh, if_pos ⟨(r.address_pos l j).ne', rfl⟩]
      · intro y hy
        rw [← List.map_singleton, ← List.map_append] at hy
        obtain ⟨j, hj, rfl⟩ := List.mem_map.mp hy
        exact hpe j fun hjy => hsub'.2.2 j hj j (List.mem_of_mem_head? hjy) rfl
      · intro y hy
        rw [← List.map_tail] at hy
        obtain ⟨j, hj, rfl⟩ := List.mem_map.mp hy
        refine hpe j fun hjy => ?_
        cases ys with
        | nil => simp at hjy
        | cons j' js =>
          obtain rfl : j' = j := by simpa using hjy
          exact (List.nodup_cons.mp hsub'.2.1).1 hj
    · have hlen := hL.length_lt l
      rw [hL.count, hl] at *
      simp only [List.length_append, List.length_cons, subSize, wordSize] at *
      omega
    · intro n j hn hj
      have hja (b : Nat) (hb : b ∈ lists l) : r.address n j ≠ r.address l b :=
        (hL.address_ne hb hj (fun hc => hn hc.1)).symm
      rw [hnx _ (r.address_aligned n j), hpx _ (r.address_aligned n j),
        if_neg (hja a (hmem a (by simp))), if_neg fun hc => ?_]
      · exact ⟨rfl, rfl⟩
      · rcases headAddress_cases r l ys with ⟨hz, -⟩ | ⟨j', js, rfl, hj'⟩
        · exact hc.1 hz
        · rw [hj'] at hc
          exact hja j' (hmem j' (by simp)) hc.2
  · refine (relink_levelBytes (l := l) (h := h) (r.address l a) fun j hj =>
      hmem j (by simp [hj])).trans (sameOutside_setNext fun x hx hx' => ?_)
    exact ⟨a, hmem a (by simp), r.header_inBlock hx hx'⟩

theorem remove (hL : Lists r h lists) (hi : i ∈ lists l)
    (hclean : r.address l i = h.alloc.freeBlocks l → nodePrev h.mem (r.address l i) = 0) :
    Lists r (removeFromList h (r.address l i) l) (Function.update lists l ((lists l).erase i)) ∧
      SameOutside (LevelBytes r lists l) h.mem (removeFromList h (r.address l i) l).mem := by
  obtain ⟨xs, ys, hl⟩ := List.append_of_mem hi
  have hnd := hL.nodup l
  rcases List.eq_nil_or_concat xs with rfl | ⟨xs, a, rfl⟩
  · have herase : (lists l).erase i = ys := by rw [hl, List.nil_append, List.erase_cons_head]
    rw [herase]
    exact hL.remove_head hl (hclean (by rw [hL.freeBlocks_eq, hl]; rfl))
  · have herase : (lists l).erase i = xs ++ a :: ys := by
      rw [hl] at hnd ⊢
      rw [erase_mid hnd, List.concat_eq_append, List.append_assoc, List.singleton_append]
    rw [herase]
    exact hL.remove_inner (by rw [hl]; simp)

end remove

end Lists

-- on the levels of S the first block's prev link is EMPTY too
def Heads (r : Region) (S : Nat → Prop) (m : Memory) (lists : Nat → List Nat) : Prop :=
  ∀ l i, S l → i ∈ (lists l).head? → nodePrev m (r.address l i) = allocatorEmpty

section heads
variable {r : Region} {h : Heap} {lists : Nat → List Nat} {l i : Nat} {S : Nat → Prop}

theorem Heads.congr {m m' : Memory} (hh : Heads r S m lists)
    (hm : ∀ x, FreeBytes r lists x → m' x = m x) : Heads r S m' lists := by
  intro l i hs hi
  rw [(node_congr fun x hx hx' =>
    hm x ⟨l, i, List.mem_of_mem_head? hi, r.header_inBlock hx hx'⟩).2]
  exact hh l i hs hi

theorem Heads.mono {T : Nat → Prop} {m : Memory} (hh : Heads r S m lists) (h : ∀ n, T n → S n) :
    Heads r T m lists :=
  fun l i hs hi => hh l i (h l hs) hi

theorem removeFromList_prev {p q : Nat} (hnext : nodeNext h.mem p = 0 ∨ r.Aligned (nodeNext h.mem p))
    (hprev : nodePrev h.mem p = 0 ∨ r.Aligned (nodePrev h.mem p)) (hp : r.Aligned p)
    (hne : p ≠ nodeNext h.mem p) (hq : r.Aligned q) :
    nodePrev (removeFromList h p l).mem q =
      if nodeNext h.mem p ≠ 0 ∧ q = nodeNext h.mem p then nodePrev h.mem p
      else nodePrev h.mem q := by
  have hself : nodePrev (relink h.mem (nodeNext h.mem p) (nodePrev h.mem p)) p =
      nodePrev h.mem p := by
    rw [relink_prev hnext hp (nodePrev_lt _ _), if_neg fun hc => hne hc.2]
  rw [Lists.removeFromList_eq h p l rfl, hself, ← relink_prev hnext hq (nodePrev_lt _ _)]
  split
  next hz =>
    refine nodePrev_setNext (hprev.resolve_left ?_) hq
    simpa [notEmpty, allocatorEmpty] using hz
  next => rfl

theorem Lists.heads_remove (hL : Lists r h lists) (hi : i ∈ lists l)
    (hclean : r.address l i = h.alloc.freeBlocks l → nodePrev h.mem (r.address l i) = 0)
    (hh : Heads r S h.mem lists) :
    Heads r S (removeFromList h (r.address l i) l).mem
      (Function.update lists l ((lists l).erase i)) := by
  obtain ⟨xs, ys, hl⟩ := List.append_of_mem hi
  have hnd := hL.nodup l
  rw [hl] at hnd
  have hnext : nodeNext h.mem (r.address l i) = headAddress r l ys := hL.next_eq hl
  have hndi : (i :: ys).Nodup := hnd.sublist (List.sublist_append_right xs _)
  have hfirst (hx : xs = []) : nodePrev h.mem (r.address l i) = 0 :=
    hclean (by rw [hL.freeBlocks_eq, hl, hx]; rfl)
  have hprev : nodePrev h.mem (r.address l i) = 0 ∨
      r.Aligned (nodePrev h.mem (r.address l i)) := by
    rcases List.eq_nil_or_concat xs with hx | ⟨xs, a, rfl⟩
    · exact .inl (hfirst hx)
    · have hback := hL.backward l
      rw [hl, List.concat_eq_append, List.append_assoc, List.map_append, List.singleton_append,
        List.map_cons, List.map_cons] at hback
      rw [hback.prev_eq]
      exact .inr (r.address_aligned l a)
  intro n j hs hj
  rw [removeFromList_prev (hnext ▸ headAddress_aligned r l ys) hprev (r.address_aligned l i)
    (hnext ▸ self_ne_next hndi) (r.address_aligned n j), hnext]
  by_cases hn : n = l
  · subst hn
    rw [Function.update_self, hl, erase_mid hnd] at hj
    cases xs with
    | nil =>
      rw [List.nil_append] at hj
      have hhead : headAddress r n ys = r.address n j := by
        rw [headAddress, Option.mem_def.mp hj]
        rfl
      rw [hhead, if_pos ⟨(r.address_pos n j).ne', rfl⟩]
      exact hfirst rfl
    | cons x xs =>
      obtain rfl : x = j := by simpa using hj
      rw [if_neg fun hc => ?_]
      · exact hh n x hs (by rw [hl]; simp)
      · rcases headAddress_cases r n ys with ⟨hz, -⟩ | ⟨y, zs, rfl, hy⟩
        · exact hc.1 hz
        · rw [hy] at hc
          obtain rfl := r.address_inj hc.2
          simp at hnd
  · rw [Function.update_of_ne hn] at hj
    rw [if_neg fun hc => ?_]
    · exact hh n j hs hj
    · rcases headAddress_cases r l ys with ⟨hz, -⟩ | ⟨y, zs, rfl, hy⟩
      · exact hc.1 hz
      · rw [hy] at hc
        have hmem : y ∈ lists l := by rw [hl]; simp
        exact hn (hL.unique n j l y (List.mem_of_mem_head? hj) hmem hc.2).1

theorem Lists.heads_first (hL : Lists r h lists)
    (hfresh : ∀ n j, j ∈ lists n → r.address n j ≠ r.address l i) {m : Memory}
    (hself : nodePrev m (r.address l i) = 0)
    (hprev : ∀ q, r.Aligned q → q ≠ r.address l i → q ≠ h.alloc.freeBlocks l →
      nodePrev m q = nodePrev h.mem q) (hh : Heads r S h.mem lists) :
    Heads r (fun n => S n ∨ n = l) m (Function.update lists l (i :: lists l)) := by
  intro n j hs hj
  by_cases hn : n = l
  · subst hn
    rw [Function.update_self, List.head?_cons, Option.mem_some_iff] at hj
    rw [← hj]
    exact hself
  · rw [Function.update_of_ne hn] at hj
    have hjn := List.mem_of_mem_head? hj
    rw [hprev _ (r.address_aligned n j) (hfresh n j hjn) fun hc => ?_]
    · exact hh n j (hs.resolve_right hn) hj
    · rw [hL.freeBlocks_eq] at hc
      rcases headAddress_cases r l (lists l) with ⟨hz, -⟩ | ⟨y, ys, hls, hy⟩
      · exact (r.address_pos n j).ne' (hc.trans hz)
      · have hmem : y ∈ lists l := by rw [hls]; simp
        exact hn (hL.unique n j l y hjn hmem (hc.trans hy)).1

theorem Lists.heads_push (hL : Lists r h lists) (hb : l ≤ r.depth ∧ i < 2 ^ l)
    (hfresh : ∀ n j, j ∈ lists n → r.address n j ≠ r.address l i) (hh : Heads r S h.mem lists) :
    Heads r (fun n => S n ∨ n = l) (pushBlock h (r.address l i) l).mem
      (Function.update lists l (i :: lists l)) := by
  have haA := r.address_aligned l i
  have hhA := hL.head_aligned l
  have halt := r.address_lt hb.1 hb.2
  have hpush : (pushBlock h (r.address l i) l).mem =
      setPrev (setNext (relink h.mem (h.alloc.freeBlocks l) (r.address l i)) (r.address l i)
        (h.alloc.freeBlocks l)) (r.address l i) allocatorEmpty := rfl
  refine hL.heads_first hfresh ?_ (fun q hq hqA hqh => ?_) hh
  · rw [hpush, nodePrev_setPrev haA haA (by simp [allocatorEmpty]), if_pos rfl]
    rfl
  · rw [hpush, nodePrev_setPrev haA hq (by simp [allocatorEmpty]), if_neg hqA,
      nodePrev_setNext haA hq, relink_prev hhA hq halt, if_neg fun hc => hqh hc.2]

theorem Lists.heads_split (hL : Lists r h lists) (hb : l ≤ r.depth ∧ i < 2 ^ l)
    (hfresh : ∀ n j, j ∈ lists n → r.address n j ≠ r.address l i) {A head : Nat}
    (hA : A = r.address l i) (hhead : head = h.alloc.freeBlocks l) {m : Memory}
    (hm : m = relink (setNext (setPrev h.mem A allocatorEmpty) A head) head A)
    (hh : Heads r S h.mem lists) :
    Heads r (fun n => S n ∨ n = l) m (Function.update lists l (i :: lists l)) := by
  subst hA hhead hm
  have haA := r.address_aligned l i
  have hhA := hL.head_aligned l
  have hne := hL.head_ne hfresh
  have halt := r.address_lt hb.1 hb.2
  refine hL.heads_first hfresh ?_ (fun q hq hqA hqh => ?_) hh
  · rw [relink_prev hhA haA halt, if_neg fun hc => hne hc.2.symm, nodePrev_setNext haA haA,
      nodePrev_setPrev haA haA (by simp [allocatorEmpty]), if_pos rfl]
    rfl
  · rw [relink_prev hhA hq halt, if_neg fun hc => hqh hc.2, nodePrev_setNext haA hq,
      nodePrev_setPrev haA hq (by simp [allocatorEmpty]), if_neg hqA]

-- a list that loses its first block: create_block leaves the new first block's prev link
theorem Heads.pop {m : Memory} (hh : Heads r S m lists) (l : Nat) (rest : List Nat) :
    Heads r (fun n => S n ∧ n ≠ l) m (Function.update lists l rest) ∧
      Heads r (fun n => S n ∨ n = l) (relink m (Lists.headAddress r l rest) 0)
        (Function.update lists l rest) := by
  have hother {n j : Nat} (hn : n ≠ l) (hs : S n) (hj : j ∈ (Function.update lists l rest n).head?) :
      nodePrev m (r.address n j) = 0 := by
    rw [Function.update_of_ne hn] at hj
    exact hh n j hs hj
  refine ⟨fun n j hs hj => hother hs.2 hs.1 hj, fun n j hs hj => ?_⟩
  rw [relink_prev (Lists.headAddress_aligned r l rest) (r.address_aligned n j) (by omega)]
  by_cases hn : n = l
  · subst hn
    rw [Function.update_self] at hj
    have hhead : Lists.headAddress r n rest = r.address n j := by
      rw [Lists.headAddress, Option.mem_def.mp hj]
      rfl
    rw [hhead, if_pos ⟨(r.address_pos n j).ne', rfl⟩]
    rfl
  · rw [hother hn (hs.resolve_right hn) hj]
    split <;> rfl

end heads

end Lasagne.Buddy
