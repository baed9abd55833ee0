import Mathlib
import Lasagne.Buddy.Invariant

namespace Lasagne.Buddy
open ByteMemory CInt SplitTree Bitmap

-- block (l, i) has been taken off its list and its parent's allocation bit is still to be flipped
structure Holding (r : Region) (h : Heap) (k : Labels) (lists : Nat → List Nat)
    (l i : Nat) : Prop where
  core : Core r h k lists (toggleParent (parity k) l i)
  held : k l i = .live

def pushDown (lists : Nat → List Nat) (l i : Nat) : Nat → Nat → List Nat
  | 0 => lists
  | n + 1 => pushDown (Function.update lists (l + 1) ((2 * i + 1) :: lists (l + 1))) (l + 1) (2 * i) n

theorem pushDown_above (n : Nat) (lists : Nat → List Nat) {l i m : Nat} (hm : m ≤ l) :
    pushDown lists l i n m = lists m := by
  induction n generalizing lists l i with
  | zero => rfl
  | succ n ih => rw [pushDown, ih _ (by omega), Function.update_of_ne (by omega)]

section take
variable {r : Region} {h : Heap} {k : Labels} {lists : Nat → List Nat} {l i : Nat}
  {rest : List Nat}

theorem Core.take (c : Core r h k lists (parity k)) (hl : lists l = i :: rest) (m : Memory)
    (hm : m = h.mem ∨ m = relink h.mem (Lists.headAddress r l rest) 0) :
    Holding r { alloc := setFreeList h.alloc l (nodeNext h.mem (r.address l i))
                  (subSize (h.alloc.freeCount l) 1), mem := m }
      (set k l i .live) (Function.update lists l rest) l i := by
  have hmem : i ∈ lists l := by rw [hl]; simp
  have hfree : k l i = .free := (c.listed l i).mp hmem
  have hleaf : (k l i).isLeaf := c.listed_leaf hmem
  have hnd := c.linked.nodup l
  rw [hl] at hnd
  have hout : SameOutside (FreeBytes r lists) h.mem m := by
    rcases hm with rfl | rfl
    · exact SameOutside.refl _ _
    · refine (Lists.relink_levelBytes (l := l) (h := h) 0 fun j hj => ?_).mono fun x hx => hx.free
      rw [hl]
      exact List.mem_cons_of_mem _ hj
  refine ⟨⟨c.shape.setFreeList _ _ _, c.tiling.set_leaf hleaf rfl, c.coalesced.set_live l i, ?_,
    c.linked.pop hl m hm, ?_⟩, set_same k l i .live⟩
  · rw [isSplit_set_leaf k hleaf rfl,
      parity_set_leaf c.tiling hleaf rfl (by rw [hfree]; rfl), toggleParent_toggleParent]
    exact bits_of_blocks c.bits hout fun x hx => c.not_inBitmaps hx
  · refine listed_set c.listed fun j => ?_
    rw [hl]
    split
    next hj => subst hj; simpa using (List.nodup_cons.mp hnd).1
    next hj => simp [hj]

end take

section split
variable {r : Region} {h : Heap} {k : Labels} {lists : Nat → List Nat} {l i : Nat}

theorem isSplit_divide (hk : k l i = .live) (ht : Tiling r.depth k) :
    isSplit (divide k l i) = fun m j => if m = l ∧ j = i then true else isSplit k m j := by
  have hc (j : Nat) (hj : j / 2 = i) : k (l + 1) j = .absent :=
    ht.children_absent (by rw [hj, hk]; simp)
  funext m j
  simp only [isSplit, divide_apply]
  split_ifs with h1 h2 h3
  · rfl
  · rw [h2.1, h2.2, hc _ (by omega)]; rfl
  · rw [h3.1, h3.2, hc _ (by omega)]; rfl
  · rfl

theorem listed_divide (c : Core r h k lists (toggleParent (parity k) l i)) (hk : k l i = .live)
    (n j : Nat) :
    j ∈ Function.update lists (l + 1) ((2 * i + 1) :: lists (l + 1)) n ↔
      divide k l i n j = .free := by
  have hc (j : Nat) (hj : j / 2 = i) : k (l + 1) j = .absent :=
    c.tiling.children_absent (by rw [hj, hk]; simp)
  rw [divide_apply]
  by_cases hn : n = l + 1
  · subst hn
    rw [Function.update_self, List.mem_cons, c.listed]
    split_ifs with h1 h2 h3
    · omega
    · rw [h2.2, hc _ (by omega)]; simp
    · simp [h3.2]
    · simp only [true_and] at h3
      simp [h3]
  · rw [Function.update_of_ne hn, c.listed]
    split_ifs with h1 h2 h3
    · rw [h1.1, h1.2, hk]; simp
    · omega
    · omega
    · rfl

theorem spare_split (hl : l < r.depth) {x : Nat}
    (hx : Spare r (Function.update lists (l + 1) ((2 * i + 1) :: lists (l + 1))) (l + 1) (2 * i) x) :
    Spare r lists l i x := by
  rcases hx with hx | ⟨n, j, hj, hx⟩ | hx
  · exact .inl hx
  · by_cases hn : n = l + 1
    · subst hn
      rw [Function.update_self, List.mem_cons] at hj
      rcases hj with rfl | hj
      · exact .inr (.inr ((r.inBlock_children hl).mpr (.inr hx)))
      · exact .inr (.inl ⟨_, j, hj, hx⟩)
    · rw [Function.update_of_ne hn] at hj
      exact .inr (.inl ⟨n, j, hj, hx⟩)
  · exact .inr (.inr ((r.inBlock_children hl).mpr (.inl hx)))

theorem Holding.split (c : Holding r h k lists l i) (hl : l < r.depth) :
    ∃ h', Buddy.split h (r.address l i) l = some h' ∧
      Holding r h' (divide k l i)
        (Function.update lists (l + 1) ((2 * i + 1) :: lists (l + 1))) (l + 1) (2 * i) ∧
      SameOutside (Spare r lists l i) h.mem h'.mem ∧ h'.alloc.freeSize = h.alloc.freeSize ∧
      ∀ S, Heads r S h.mem lists → Heads r S h'.mem
        (Function.update lists (l + 1) ((2 * i + 1) :: lists (l + 1))) := by
  obtain ⟨c, hk⟩ := c
  have hb := c.present (show k l i ≠ .absent by simp [hk])
  have hsucc : 2 * i + 1 < 2 ^ (l + 1) := by rw [pow_succ]; omega
  have hbase := r.base_add_size_le
  have hright := r.address_right i hl
  have hrlt := r.address_lt (show l + 1 ≤ r.depth from hl) hsucc
  have hin : r.InBlock l i (r.address (l + 1) (2 * i + 1)) := by
    have := r.blockSize_pos (l + 1)
    rw [Region.InBlock, hright, r.blockSize_succ hl]; omega
  have hfresh (n j : Nat) (hj : j ∈ lists n) : r.address n j ≠ r.address (l + 1) (2 * i + 1) :=
    c.fresh_inside hk hj hin
  have hset := c.bits.writeSplit (· ||| ·) true (fun b => bitAt_set _ _ _ b) hl hb.2
  rw [← isSplit_divide hk c.tiling] at hset
  set m0 := writeBit h.mem r.splitBitmap (node l i) (· ||| ·) with hm0
  have hout0 : SameOutside r.InBitmaps h.mem m0 := Bits.write_outside _ (.inr rfl) hl hb.2
  obtain ⟨m1, hflip, hbits, hout1⟩ := flipAllocationBit_spec (h := { h with mem := m0 }) c.shape
    hset hb.1 hb.2
  rw [toggleParent_toggleParent] at hbits
  have hout01 : SameOutside r.InBitmaps h.mem m1 := hout0.trans hout1
  have hL : Lists r { h with mem := m1 } lists := c.lists_bitmaps rfl rfl hout01 rfl
  obtain ⟨hpush, hout2⟩ := hL.push_split ⟨hl, hsucc⟩ hfresh rfl rfl rfl
  have hnb (x : Nat) (hx : Lists.NewBytes r lists (l + 1) (2 * i + 1) x) : ¬ r.InBitmaps x := by
    rcases hx with hx | hx
    · exact c.not_inBitmaps hx
    · exact r.not_inBitmaps_of_inBlock hl hsucc hx
  have hspare (x : Nat) (hx : Lists.NewBytes r lists (l + 1) (2 * i + 1) x) :
      Spare r lists l i x := by
    rcases hx with hx | hx
    · exact .inr (.inl hx)
    · exact .inr (.inr ((r.inBlock_children hl).mpr (.inr hx)))
  have hpar : toggleParent (parity (divide k l i)) (l + 1) (2 * i) = parity k := by
    rw [parity_divide c.tiling hk, toggleParent, show 2 * i / 2 = i by omega, toggle_toggle]
  refine ⟨_, ?_, ⟨⟨c.shape.setFreeList _ _ _, c.tiling.divide hk hl, c.coalesced.divide l i, ?_,
    hpush, listed_divide c hk⟩, ?_⟩, (hout01.mono fun x hx => .inl hx).trans (hout2.mono hspare), rfl,
    fun S hh => (hL.heads_split ⟨hl, hsucc⟩ hfresh rfl rfl rfl (hh.congr fun x hx =>
      hout01 x (c.not_inBitmaps hx))).mono fun n hn => .inl hn⟩
  · rw [Buddy.split, c.shape.spans.sizeFromLevel hb.1]
    simp only [Option.bind_eq_bind, Option.bind_some]
    rw [c.shape.splitBitIndex_block hl.le hb.2, c.shape.splitBitmap, Option.bind_some,
      setBit_ofNat (Bits.split_byte hl hb.2).2, Option.bind_some, hflip, Option.bind_some]
    have hadd : addSize (r.address l i) (r.blockSize l / 2) = r.address (l + 1) (2 * i + 1) := by
      rw [addSize, ← r.address_right i hl]
      exact Nat.mod_eq_of_lt hrlt
    rw [hadd]
    rfl
  · rw [hpar]
    exact bits_of_blocks hbits hout2 hnb
  · simp [divide_apply]

theorem Holding.splitDown (n : Nat) {h : Heap} {k : Labels} {lists : Nat → List Nat} {l i : Nat}
    (c : Holding r h k lists l i) (hl : l + n ≤ r.depth) :
    ∃ h', Buddy.splitDown h (r.address l i) l n = some h' ∧
      Holding r h' (divideDown k l i n) (pushDown lists l i n) (l + n) (i * 2 ^ n) ∧
      SameOutside (Spare r lists l i) h.mem h'.mem ∧ h'.alloc.freeSize = h.alloc.freeSize ∧
      ∀ S, Heads r S h.mem lists → Heads r S h'.mem (pushDown lists l i n) := by
  induction n generalizing h k lists l i with
  | zero =>
    rw [pow_zero, Nat.mul_one]
    exact ⟨h, rfl, c, SameOutside.refl _ _, rfl, fun S hh => hh⟩
  | succ n ih =>
    obtain ⟨h1, hs, c1, ho1, hf1, hh1⟩ := c.split (by omega)
    obtain ⟨h2, hd, c2, ho2, hf2, hh2⟩ := ih c1 (by omega)
    refine ⟨h2, ?_, ?_, ho1.trans (ho2.mono fun x hx => spare_split (by omega) hx), hf2.trans hf1,
      fun S hh => hh2 S (hh1 S hh)⟩
    · rw [Buddy.splitDown, hs, Option.bind_eq_bind, Option.bind_some, ← r.address_left i (by omega)]
      exact hd
    · rw [show l + (n + 1) = l + 1 + n by omega, show i * 2 ^ (n + 1) = 2 * i * 2 ^ n by
        rw [pow_succ]; ring]
      exact c2

end split

def Region.levelOf (r : Region) (size : Nat) : Nat := r.leafBits + r.depth - Nat.clog 2 size

theorem Region.levelOf_le (r : Region) {n : Nat} (hn : r.leafSize < 2 * n) :
    r.levelOf n ≤ r.depth := by
  have hlt : r.leafBits - 1 < Nat.clog 2 n := by
    rw [Nat.lt_clog_iff_pow_lt (by omega)]
    have := r.leaf_ge
    rw [r.leaf_eq, show r.leafBits = r.leafBits - 1 + 1 by omega, pow_succ] at hn
    omega
  rw [levelOf]; omega

theorem Region.blockSize_levelOf (r : Region) {n : Nat} (hn : r.leafSize < 2 * n)
    (h : n ≤ r.size) : r.blockSize (r.levelOf n) = 2 ^ Nat.clog 2 n := by
  have hc := r.clog_le h
  rw [r.blockSize_eq (r.levelOf_le hn), levelOf]
  congr 1; omega

theorem freeTotal_pushDown (r : Region) (n : Nat) (lists : Nat → List Nat) {l i : Nat}
    (hl : l + n ≤ r.depth) :
    freeTotal r (pushDown lists l i n) + r.blockSize (l + n) = freeTotal r lists + r.blockSize l := by
  induction n generalizing lists l i with
  | zero => rfl
  | succ n ih =>
    have h1 := ih (Function.update lists (l + 1) ((2 * i + 1) :: lists (l + 1)))
      (l := l + 1) (i := 2 * i) (by omega)
    have h2 := freeTotal_update r lists (show l + 1 ≤ r.depth by omega)
      ((2 * i + 1) :: lists (l + 1))
    rw [List.length_cons, Nat.add_mul, Nat.one_mul] at h2
    have h3 := r.blockSize_succ (show l < r.depth by omega)
    rw [pushDown, show l + (n + 1) = l + 1 + n by omega]
    omega

section findSource
variable {r : Region} {h : Heap} {lists : Nat → List Nat}

theorem empty_iff (hL : Lists r h lists) (l : Nat) :
    empty (h.alloc.freeBlocks l) = true ↔ lists l = [] := by
  have := (hL.forward l).nil_iff
  rw [List.map_eq_nil_iff] at this
  simp only [empty, allocatorEmpty, beq_iff_eq, this]

theorem freeBlocks_eq_empty_iff (hL : Lists r h lists) (l : Nat) :
    h.alloc.freeBlocks l = allocatorEmpty ↔ lists l = [] := by
  rw [← empty_iff hL, empty, beq_iff_eq]

theorem findSource_some (hL : Lists r h lists) {level s : Nat}
    (hs : findSource h.alloc level = some s) :
    s < level ∧ lists s ≠ [] ∧ ∀ m, s < m → m < level → lists m = [] := by
  obtain ⟨hlt, hne, hbetween⟩ := findSource_eq_some_iff.mp hs
  refine ⟨hlt, fun hnil => hne ((freeBlocks_eq_empty_iff hL s).mpr hnil), fun m hm hm' => ?_⟩
  exact (freeBlocks_eq_empty_iff hL m).mp (hbetween m hm hm')

theorem findSource_none (hL : Lists r h lists) {level : Nat}
    (hs : findSource h.alloc level = none) : ∀ m < level, lists m = [] :=
  fun m hm => (freeBlocks_eq_empty_iff hL m).mp (findSource_eq_none_iff.mp hs m hm)

end findSource

section allocate
variable {r : Region} {h : Heap} {k : Labels} {lists : Nat → List Nat}

theorem Core.popBlock {al : Nat → Nat → Bool} (c : Core r h k lists al) {l i : Nat}
    {rest : List Nat} (hl : lists l = i :: rest) :
    popBlock h l = (r.address l i,
      { alloc := setFreeList h.alloc l (nodeNext h.mem (r.address l i))
          (subSize (h.alloc.freeCount l) 1)
        mem := relink h.mem (Lists.headAddress r l rest) 0 }) := by
  have hhead : h.alloc.freeBlocks l = r.address l i := by
    rw [c.linked.freeBlocks_eq, hl]; rfl
  have hnext : nodeNext h.mem (r.address l i) = Lists.headAddress r l rest :=
    c.linked.next_eq (show lists l = [] ++ i :: rest from hl)
  rw [Buddy.popBlock, hhead]
  simp only [hnext]
  rfl

-- both ways to a block: s = level is the direct pop, s < level the search and the splits
theorem Core.obtain (c : Core r h k lists (parity k)) {level : Nat} (hlev : level ≤ r.depth) :
    ((∀ m ≤ level, lists m = []) ∧ obtainBlock h level = some (allocatorEmpty, h)) ∨
    ∃ s i rest h', s ≤ level ∧ lists s = i :: rest ∧ (∀ m, s < m → m ≤ level → lists m = []) ∧
      obtainBlock h level = some (r.address level (i * 2 ^ (level - s)), h') ∧
      Holding r h' (divideDown (set k s i .live) s i (level - s))
        (pushDown (Function.update lists s rest) s i (level - s)) level (i * 2 ^ (level - s)) ∧
      SameOutside (fun x => r.InBitmaps x ∨ FreeBytes r lists x) h.mem h'.mem ∧
      h'.alloc.freeSize = h.alloc.freeSize ∧
      ∀ S, Heads r S h.mem lists → Heads r (fun n => S n ∧ (n ≠ s ∨ s = level)) h'.mem
        (pushDown (Function.update lists s rest) s i (level - s)) := by
  by_cases hne : notEmpty (h.alloc.freeBlocks level) = true
  · have hnil := (c.linked.notEmpty_iff level).mp hne
    obtain ⟨i, rest, hl⟩ := List.exists_cons_of_ne_nil hnil
    have htake := c.take hl _ (.inr rfl)
    refine .inr ⟨level, i, rest,
      { alloc := setFreeList h.alloc level (nodeNext h.mem (r.address level i))
          (subSize (h.alloc.freeCount level) 1)
        mem := relink h.mem (Lists.headAddress r level rest) 0 },
      le_refl _, hl, fun m hm hm' => by omega, ?_, ?_, ?_, rfl, ?_⟩
    · rw [obtainBlock, if_pos hne, c.popBlock hl, Nat.sub_self, pow_zero, Nat.mul_one]
    · simpa only [Nat.sub_self, pow_zero, Nat.mul_one, divideDown, pushDown] using htake
    · refine SameOutside.mono (W := LevelBytes r lists level) ?_ fun x hx => .inr hx.free
      refine Lists.relink_levelBytes (h := h) 0 fun j hj => ?_
      rw [hl]
      exact List.mem_cons_of_mem _ hj
    · intro S hh
      rw [Nat.sub_self, pushDown]
      exact (hh.pop level rest).2.mono fun n hn => .inl hn.1
  · have hnil : lists level = [] := by
      by_contra hc
      exact hne ((c.linked.notEmpty_iff level).mpr hc)
    cases hs : findSource h.alloc level with
    | none =>
      refine .inl ⟨fun m hm => ?_, ?_⟩
      · rcases Nat.lt_or_eq_of_le hm with hlt | rfl
        · exact findSource_none c.linked hs m hlt
        · exact hnil
      · rw [obtainBlock, if_neg hne, createBlock, hs]
    | some s =>
      obtain ⟨hslt, hsne, hsmax⟩ := findSource_some c.linked hs
      obtain ⟨i, rest, hl⟩ := List.exists_cons_of_ne_nil hsne
      have hhead : h.alloc.freeBlocks s = r.address s i := by
        rw [c.linked.freeBlocks_eq, hl]; rfl
      obtain ⟨h1, hd, hold, hout, hfs, hheads⟩ :=
        (c.take hl _ (.inl rfl)).splitDown (level - s) (show s + (level - s) ≤ r.depth by omega)
      have haddr : r.address s i = r.address level (i * 2 ^ (level - s)) := by
        have h := r.address_down i (show s + (level - s) ≤ r.depth by omega)
        rwa [show s + (level - s) = level by omega] at h
      rw [show s + (level - s) = level by omega] at hold
      refine .inr ⟨s, i, rest, h1, hslt.le, hl, ?_, ?_, hold, ?_, hfs, ?_⟩
      · intro m hm hm'
        rcases Nat.lt_or_eq_of_le hm' with hlt | rfl
        · exact hsmax m hm hlt
        · exact hnil
      · rw [obtainBlock, if_neg hne, createBlock, hs, ← haddr]
        simp only [hhead, hd, Option.bind_eq_bind, Option.bind_some, Option.pure_def]
      · refine hout.mono fun x hx => ?_
        rcases hx with hx | ⟨n, j, hj, hx⟩ | hx
        · exact .inl hx
        · refine .inr ⟨n, j, ?_, hx⟩
          by_cases hn : n = s
          · subst hn
            rw [Function.update_self] at hj
            rw [hl]
            exact List.mem_cons_of_mem _ hj
          · rwa [Function.update_of_ne hn] at hj
        · exact .inr ⟨s, i, by rw [hl]; simp, hx⟩
      · intro S hh
        exact (hheads _ (hh.pop s rest).1).mono fun n hn => ⟨hn.1, hn.2.resolve_right hslt.ne⟩

theorem Holding.settle {l i : Nat} (c : Holding r h k lists l i) :
    ∃ m, flipAllocationBit h (r.address l i) l = some { h with mem := m } ∧
      Core r { h with mem := m } k lists (parity k) ∧ SameOutside r.InBitmaps h.mem m := by
  obtain ⟨c, hk⟩ := c
  have hb := c.present (show k l i ≠ .absent by simp [hk])
  obtain ⟨m, hm, hbits, hout⟩ := flipAllocationBit_spec c.shape c.bits hb.1 hb.2
  rw [toggleParent_toggleParent] at hbits
  exact ⟨m, hm, ⟨c.shape, c.tiling, c.coalesced, hbits, c.lists_bitmaps rfl rfl hout rfl,
    c.listed⟩, hout⟩

-- a block of the level is cut off block i of the deepest list s that has a block to offer
structure Served (r : Region) (h : Heap) (k : Labels) (lists : Nat → List Nat) (level : Nat)
    (h' : Heap) (s i : Nat) (rest : List Nat) : Prop where
  level_le : s ≤ level
  head : lists s = i :: rest
  deepest : ∀ m, s < m → m ≤ level → lists m = []
  represents : Represents r h' (divideDown (set k s i .live) s i (level - s))
    (pushDown (Function.update lists s rest) s i (level - s))
  outside : SameOutside (fun x => r.InBitmaps x ∨ FreeBytes r lists x) h.mem h'.mem
  heads : ∀ S, Heads r S h.mem lists → Heads r (fun n => S n ∧ (n ≠ s ∨ s = level)) h'.mem
    (pushDown (Function.update lists s rest) s i (level - s))

section served
variable {level s i : Nat} {h' : Heap} {rest : List Nat}

theorem Served.source_free (hs : Served r h k lists level h' s i rest)
    (c : Represents r h k lists) : k s i = .free :=
  (c.core.listed s i).mp (by rw [hs.head]; simp)

theorem Served.level_bound (hs : Served r h k lists level h' s i rest)
    (hlev : level ≤ r.depth) : s + (level - s) ≤ r.depth := by
  have := hs.level_le
  omega

theorem Served.live_iff (hs : Served r h k lists level h' s i rest) (c : Represents r h k lists)
    (hlev : level ≤ r.depth) (m j : Nat) :
    divideDown (set k s i .live) s i (level - s) m j = .live ↔
      (m = level ∧ j = i * 2 ^ (level - s)) ∨ k m j = .live := by
  have hfree := hs.source_free c
  have hle := hs.level_le
  rw [live_divideDown (level - s) (c.core.tiling.set_leaf (by rw [hfree]; rfl) rfl)
    (set_same k s i .live) (hs.level_bound hlev), live_set_live,
    show s + (level - s) = level by omega]
  constructor
  · rintro (h | ⟨h | h, hne⟩)
    · exact .inl h
    · exact absurd h hne
    · exact .inr h
  · rintro (h | h)
    · exact .inl h
    · refine .inr ⟨.inr h, ?_⟩
      rintro ⟨rfl, rfl⟩
      simp [hfree] at h

theorem Served.free_iff (hs : Served r h k lists level h' s i rest) (c : Represents r h k lists)
    (hlev : level ≤ r.depth) (m j : Nat) :
    divideDown (set k s i .live) s i (level - s) m j = .free ↔
      (s < m ∧ m ≤ level ∧ j = i * 2 ^ (m - s) + 1) ∨ (k m j = .free ∧ ¬ (m = s ∧ j = i)) := by
  have hle := hs.level_le
  rw [free_divideDown (level - s) (c.core.tiling.set_leaf (by rw [hs.source_free c]; rfl) rfl)
    (set_same k s i .live) (hs.level_bound hlev), free_set_live,
    show s + (level - s) = level by omega]

end served

theorem blockSize_le_freeTotal (r : Region) {l s : Nat} (hs : s ≤ l) (hd : s ≤ r.depth)
    (hne : lists s ≠ []) : r.blockSize l ≤ freeTotal r lists := by
  have hmem : s ∈ Finset.range (r.depth + 1) := Finset.mem_range.mpr (by omega)
  have hlen := List.length_pos_of_ne_nil hne
  calc r.blockSize l ≤ r.blockSize s :=
        Nat.mul_le_mul_left _ (Nat.pow_le_pow_right (by omega) (by omega))
    _ ≤ (lists s).length * r.blockSize s := Nat.le_mul_of_pos_left _ hlen
    _ ≤ freeTotal r lists :=
        Finset.single_le_sum (f := fun n => (lists n).length * r.blockSize n)
          (fun _ _ => Nat.zero_le _) hmem

theorem Shape.allocate_eq (s : Shape r.toManaged h.alloc) {n : Nat} (hn : r.leafSize < 2 * n)
    (hsize : n ≤ r.size) :
    allocatorAllocate h n =
      if r.blockSize (r.levelOf n) > h.alloc.freeSize then some (allocatorEmpty, h)
      else (obtainBlock h (r.levelOf n)).bind fun x =>
        (flipAllocationBit x.2 x.1 (r.levelOf n)).bind fun h' =>
          some (x.1, chargeBlock h' x.1 (r.blockSize (r.levelOf n))) := by
  have hlev := r.levelOf_le hn
  have hd := r.size_le
  have hg := r.leaf_ge
  have hcl := r.clog_le hsize
  rw [allocatorAllocate, Math.ceilToPowerOfTwo_eq (by omega) (hsize.trans r.size_le_pow)]
  simp only [Option.bind_eq_bind, Option.bind_some, s.levelFromSize hcl]
  change (if _ then _ else (levelIndex (r.levelOf n : Nat)).bind _) = _
  rw [← r.blockSize_levelOf hn hsize, levelIndex_of_lt (by omega), Option.bind_some]
  rfl

theorem Represents.allocate (c : Represents r h k lists) {n : Nat} (hn : r.leafSize < 2 * n)
    (hsize : n ≤ r.size) :
    ((∀ m ≤ r.levelOf n, lists m = []) ∧
      ∀ p h', allocatorAllocate h n = some (p, h') → p = allocatorEmpty) ∨
    ∃ s i rest h', allocatorAllocate h n =
        some (r.address (r.levelOf n) (i * 2 ^ (r.levelOf n - s)), h') ∧
      Served r h k lists (r.levelOf n) h' s i rest := by
  obtain ⟨c, hfree⟩ := c
  have hlev := r.levelOf_le hn
  rw [c.shape.allocate_eq hn hsize]
  rcases c.obtain hlev with ⟨hnil, hobt⟩ | ⟨s, i, rest, h1, hs, hl, hmax, hobt, hold, hout, hfs, hheads⟩
  · refine .inl ⟨hnil, fun p h' ha => ?_⟩
    rw [hobt, Option.bind_some] at ha
    split at ha
    next =>
      rw [Option.some.injEq, Prod.mk.injEq] at ha
      exact ha.1.symm
    next =>
      obtain ⟨h1, -, ha⟩ := Option.bind_eq_some_iff.mp ha
      rw [Option.some.injEq, Prod.mk.injEq] at ha
      exact ha.1.symm
  · have hle := blockSize_le_freeTotal r hs (by omega) (show lists s ≠ [] by simp [hl])
    obtain ⟨m, hm, hcore, hout2⟩ := hold.settle
    have hpos := (r.address_pos (r.levelOf n) (i * 2 ^ (r.levelOf n - s))).ne'
    refine .inr ⟨s, i, rest, { h1 with
        mem := m
        alloc.freeSize := subSize h1.alloc.freeSize (r.blockSize (r.levelOf n)) },
      ?_, hs, hl, hmax, ⟨hcore.withFreeSize _, ?_⟩,
      hout.trans (hout2.mono fun x hx => .inl hx), fun S hh => ?_⟩
    · rw [if_neg (by omega), hobt, Option.bind_some, hm, Option.bind_some, chargeBlock,
        if_pos (by simpa [notEmpty, allocatorEmpty] using hpos)]
    · have h1 := freeTotal_pushDown r (r.levelOf n - s) (Function.update lists s rest)
        (l := s) (i := i) (by omega)
      have h2 := freeTotal_update r lists (show s ≤ r.depth by omega) rest
      rw [hl, List.length_cons, Nat.add_mul, Nat.one_mul] at h2
      rw [show s + (r.levelOf n - s) = r.levelOf n by omega] at h1
      have h4 := freeTotal_lt c.linked
      change subSize _ _ = _
      rw [hfs, hfree]
      simp only [subSize, wordSize]
      omega
    · exact (hheads S hh).congr fun x hx => hout2 x (hold.core.not_inBitmaps hx)

end allocate

end Lasagne.Buddy
