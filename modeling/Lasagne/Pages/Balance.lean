import Mathlib
import Lasagne.Pages.Fault
import Lasagne.Pages.UnmapRange

namespace Lasagne.Pages
open RadixTree StateRun
open X86 (canonical)

def delivered (m m' : Machine) : List Word :=
  (List.range' m.calls (m'.calls - m.calls)).map m.frames

def Balanced (m m' : Machine) : Prop :=
  ∃ fs, m'.freed = fs ++ m.freed ∧ fs.Perm (delivered m m') ∧ m.zeroPage ∉ fs

theorem mem_delivered {m m' : Machine} {f : Word} (h : m.calls ≤ m'.calls) :
    f ∈ delivered m m' ↔ ∃ t, m.calls ≤ t ∧ t < m'.calls ∧ m.frames t = f := by
  rw [delivered, List.mem_map]
  refine exists_congr fun t => ?_
  rw [List.mem_range'_1, Nat.add_sub_cancel' h, and_assoc]

theorem Supply.delivered_nodup {m m' : Machine} {n : Nat} (hs : Supply m n) (h : m.calls ≤ m'.calls)
    (hn : m'.calls ≤ m.calls + n) : (delivered m m').Nodup := by
  refine List.Nodup.map_on (fun s hs1 t ht1 he => ?_) List.nodup_range'
  have hs1 := List.mem_range'_1.mp hs1
  have ht1 := List.mem_range'_1.mp ht1
  exact hs.frame_inj hs1.1 ht1.1 (by omega) (by omega) he

section leaves
variable {live : List Index → Word → Bool} {m : Machine} {q : List Index} {f : Word}

theorem isSome_concat {j : Index} (hf : tableAt m q = some f) :
    (tableAt m (q ++ [j])).isSome = present (m.mem f j) := by
  rw [tableAt, reach_concat_of_some hf, child_isSome]

theorem occupied_iff : Occupied m ↔ ∀ q f, Outside q → q ≠ [] → q.length ≤ 3 →
    tableAt m q = some f → ∃ j, (tableAt m (q ++ [j])).isSome = true := by
  have hpos (q : List Index) (f : Word) (hf : tableAt m q = some f) :
      count (fun _ => present) q (m.mem f) ≠ 0 ↔ ∃ j, (tableAt m (q ++ [j])).isSome = true := by
    rw [← Nat.pos_iff_ne_zero, count_pos_iff]
    exact exists_congr fun j => by rw [isSome_concat hf]
  constructor
  · exact fun ho q f hq hne hql hf => (hpos q f hf).mp (ho q f hq hne hql hne hf)
  · exact fun ho q f hq hne hql _ hf => (hpos q f hf).mpr (ho q f hq hne hql hf)

theorem exists_leaf (ho : OccupiedBut live m []) (hlive : ∀ q e, live q e = true → present e = true)
    (hq : Outside q) (hne : q ≠ []) (hql : q.length ≤ 3) (hf : tableAt m q = some f) :
    ∃ p j g, q <+: p ∧ Outside (p ++ [j]) ∧ p.length = 3 ∧ tableAt m p = some g ∧
      live (p ++ [j]) (m.mem g j) = true := by
  obtain ⟨n, hn⟩ : ∃ n, q.length + n = 3 := ⟨3 - q.length, by omega⟩
  induction n generalizing q f with
  | zero =>
    obtain ⟨j, hj⟩ := count_pos_iff.mp (Nat.pos_of_ne_zero (ho q f hq hne hql hne hf))
    exact ⟨q, j, f, List.prefix_refl q, hq.append hne, hn, hf, hj⟩
  | succ n ih =>
    obtain ⟨j, hj⟩ := count_pos_iff.mp (Nat.pos_of_ne_zero (ho q f hq hne hql hne hf))
    obtain ⟨g, hg⟩ := Option.isSome_iff_exists.mp ((isSome_concat hf).trans (hlive _ _ hj))
    obtain ⟨p, i, x, hpre, hrest⟩ := ih (hq.append hne) (List.concat_ne_nil _ _)
      (by rw [List.length_append, List.length_singleton]; omega) hg
      (by rw [List.length_append, List.length_singleton]; omega)
    exact ⟨p, i, x, (List.prefix_append q [j]).trans hpre, hrest⟩

end leaves

section occupied
variable {m m1 : Machine} {start size flags : Word} {j : Nat} {owner : Nat → List Index}

theorem RangeMapped.occupied (h : RangeMapped m m1 start flags j owner) (ho : Occupied m) :
    Occupied m1 := by
  refine occupied_iff.mpr fun q f hq hne hql hf => ?_
  cases hold : tableAt m q with
  | some g =>
    obtain ⟨i, hi⟩ := occupied_iff.mp ho q g hq hne hql hold
    obtain ⟨x, hx⟩ := Option.isSome_iff_exists.mp hi
    refine ⟨i, ?_⟩
    by_cases hpage : firstPages start j (q ++ [i])
    · obtain ⟨k, hk, hpath⟩ := hpage
      obtain ⟨e, he, -⟩ := h.leaves k hk
      rw [hpath, tableAt_leaf, he]
      rfl
    · have hkept := h.kept (q ++ [i]) x (hq.append hne) (by simp; omega)
        (fun hp => hpage hp.2) hx
      exact Option.isSome_iff_exists.mpr ⟨x, hkept⟩
  | none =>
    obtain ⟨k, hk, t, ht⟩ := (h.tables q hq hql hold).mp (Option.isSome_iff_exists.mpr ⟨f, hf⟩)
    obtain ⟨e, he, -⟩ := h.leaves k hk
    cases t with
    | nil =>
      have hlen := congrArg List.length ht
      rw [List.append_nil] at hlen
      change q.length = 4 at hlen
      omega
    | cons i t =>
      have hpage : tableAt m1 (indices (pageAt start k)) = some (frameOf e) := by
        rw [tableAt_leaf, he]
        rfl
      obtain ⟨x, hx⟩ := reach_prefix (p := q ++ [i]) ⟨t, by rw [← ht]; simp⟩ hpage
      exact ⟨i, Option.isSome_iff_exists.mpr ⟨x, hx⟩⟩

end occupied

section tables
variable {m m1 m2 : Machine} {start size flags : Word} {n : Nat} {owner : Nat → List Index}
  (ho : Occupied m) (h : RangeMapped m m1 start flags n owner)
  (hu : ∀ k < n, tableAt m (indices (pageAt start k)) = none)
  (h' : RangeUnmapped m1 m2 start n)
include h h'

omit h in
theorem RangeUnmapped.leaf_isSome {p : List Index} {j : Index} (hp : Outside (p ++ [j]))
    (hl : p.length = 3) (hne : ∀ k < n, p ++ [j] ≠ indices (pageAt start k)) :
    (tableAt m2 (p ++ [j])).isSome = (tableAt m1 (p ++ [j])).isSome := by
  rw [tableAt_concat, tableAt_concat, h'.stays p j hp.of_concat hl hne]

theorem root_eq : m2.cr3 = m.cr3 := by
  have hroot := h'.removed [] m2.cr3 away_nil (by simp) rfl
  exact (Option.some.inj hroot).symm.trans h.cr3

theorem table_before {q : List Index} {f : Word} (hq : Outside q) (hql : q.length ≤ 3)
    (hf : tableAt m2 q = some f) : tableAt m q = some f := by
  by_cases hne : q = []
  · subst hne
    rw [← hf, tableAt, tableAt, root_eq h h']
    rfl
  · have hnow := h'.removed q f hq hql hf
    obtain ⟨p, j, g, hpre, hp, hl, hg, hlive⟩ := exists_leaf h'.occupied
      (fun _ _ hl => (remaining_iff.mp hl).1) hq hne hql hf
    obtain ⟨hpresent, hout⟩ := remaining_iff.mp hlive
    have hleaf : (tableAt m (p ++ [j])).isSome = true := by
      rw [← h.others _ hp (by rw [List.length_append, hl]; rfl) hout, ← h'.leaf_isSome hp hl hout,
        isSome_concat hg, hpresent]
    obtain ⟨x, hx⟩ := Option.isSome_iff_exists.mp hleaf
    obtain ⟨f', hf'⟩ := reach_prefix (hpre.trans (List.prefix_append p [j])) hx
    have hkept := h.kept q f' hq (by omega) (by omega) hf'
    rw [hnow] at hkept
    exact hkept ▸ hf'

include ho hu

theorem table_after {q : List Index} {f : Word} (hq : Outside q) (hql : q.length ≤ 3)
    (hf : tableAt m q = some f) : tableAt m2 q = some f := by
  by_cases hne : q = []
  · subst hne
    rw [← hf, tableAt, tableAt, root_eq h h']
    rfl
  · obtain ⟨p, j, g, hpre, hp, hl, hg, hlive⟩ := exists_leaf ho (fun _ _ hl => hl) hq hne hql hf
    have hlen : (p ++ [j]).length = 4 := by rw [List.length_append, hl]; rfl
    have hleaf : (tableAt m (p ++ [j])).isSome = true := (isSome_concat hg).trans hlive
    have hout : ∀ k < n, p ++ [j] ≠ indices (pageAt start k) := fun k hk he => by
      rw [he, hu k hk] at hleaf
      exact absurd hleaf (by decide)
    rw [← h.others _ hp hlen hout, ← h'.leaf_isSome hp hl hout] at hleaf
    obtain ⟨x, hx⟩ := Option.isSome_iff_exists.mp hleaf
    obtain ⟨f', hf'⟩ := reach_prefix (hpre.trans (List.prefix_append p [j])) hx
    have hback := h'.removed q f' hq hql hf'
    rw [h.kept q f hq (by omega) (by omega) hf] at hback
    exact hback ▸ hf'

theorem isTable_iff {f : Word} : IsTable m2 f ↔ IsTable m f := by
  constructor
  · rintro ⟨q, hq, hql, hf⟩
    exact ⟨q, hq, hql, table_before h h' hq hql hf⟩
  · rintro ⟨q, hq, hql, hf⟩
    exact ⟨q, hq, hql, table_after ho h hu h' hq hql hf⟩

end tables

def privateFrames (m : Machine) (start : Word) (n : Nat) : List Word :=
  (List.range n).filterMap fun k => privateFrame m (pageAt start k)

section privateFrames
variable {m m1 : Machine} {start size flags f : Word} {n k : Nat} {owner : Nat → List Index}
  (h : RangeMapped m m1 start flags (pageCount size) owner)
include h

section kept
variable (hflags : flags &&& mapRw ≠ 0 ∨ flags &&& mapImmediate ≠ 0 ∨ size = 0)
include hflags

theorem privateFrame_iff (hk : k < pageCount size) : privateFrame m1 (pageAt start k) = some f ↔
    tableAt m1 (indices (pageAt start k)) = some f ∧ f ≠ m.zeroPage := by
  obtain ⟨e, he, hentry⟩ := h.leaves k hk
  rw [privateFrame, tableAt_leaf, he, Option.bind_some, Option.map_some, Option.some_inj]
  have hsize : size ≠ 0 := fun h0 => by
    rw [pageCount_eq_zero_iff.mpr h0] at hk
    exact absurd hk (Nat.not_lt_zero k)
  have hlazy := hentry.lazy_iff (hflags.imp_right fun h => h.resolve_right hsize)
  constructor
  · intro hf
    split at hf
    · rename_i h0
      obtain rfl := Option.some.inj hf
      exact ⟨rfl, hlazy.mp h0⟩
    · exact absurd hf (by simp)
  · rintro ⟨rfl, hne⟩
    rw [if_pos (hlazy.mpr hne)]

theorem mem_privateFrames : f ∈ privateFrames m1 start (pageCount size) ↔ f ≠ m.zeroPage ∧
    ∃ k < pageCount size, tableAt m1 (indices (pageAt start k)) = some f := by
  rw [privateFrames, List.mem_filterMap]
  constructor
  · rintro ⟨k, hk, hf⟩
    have hk := List.mem_range.mp hk
    obtain ⟨hf, hne⟩ := (privateFrame_iff h hflags hk).mp hf
    exact ⟨hne, k, hk, hf⟩
  · rintro ⟨hne, k, hk, hf⟩
    exact ⟨k, List.mem_range.mpr hk, (privateFrame_iff h hflags hk).mpr ⟨hf, hne⟩⟩

variable (hr : PageRange start size) (hs : Supply m n) (hn : m1.calls ≤ m.calls + n)
  (hu : ∀ k < pageCount size, tableAt m (indices (pageAt start k)) = none)
include hr hs hn hu

theorem privateFrames_nodup : (privateFrames m1 start (pageCount size)).Nodup := by
  refine List.pairwise_filterMap.mpr (List.Pairwise.imp_of_mem ?_ List.nodup_range)
  rintro i j hi hj hij f hf _ hg rfl
  have hi := List.mem_range.mp hi
  have hj := List.mem_range.mp hj
  obtain ⟨hf, hne⟩ := (privateFrame_iff h hflags hi).mp hf
  obtain ⟨hg, -⟩ := (privateFrame_iff h hflags hj).mp hg
  have hpath := h.once hs hn (hr.path_outside hi) (hr.path_outside hj) le_rfl le_rfl (.inl (hu i hi))
    (.inl (hu j hj)) hf hg hne
  exact hij (hr.indices_inj hi hj hpath)

theorem tables_privateFrames {ts : List Word} (hnodup : ts.Nodup)
    (hmem : ∀ f, f ∈ ts ↔ IsTable m1 f ∧ ¬ IsTable m f) :
    (ts ++ privateFrames m1 start (pageCount size)).Nodup ∧
      ∀ f, f ∈ ts ++ privateFrames m1 start (pageCount size) ↔ f ∈ delivered m m1 := by
  have hnew {q : List Index} {f : Word} (hq : Outside q) (hql : q.length ≤ 3)
      (hf : tableAt m1 q = some f) (hnot : ¬ IsTable m f) : tableAt m q = none :=
    Option.eq_none_iff_forall_ne_some.mpr fun g hg => by
      have hkept := h.kept q g hq (by omega) (by omega) hg
      obtain rfl : g = f := Option.some.inj (hkept.symm.trans hf)
      exact hnot ⟨q, hq, hql, hg⟩
  have hcovers {q : List Index} {f : Word} (hq : Outside q) (hql : q.length ≤ 4)
      (hnone : tableAt m q = none) (hf : tableAt m1 q = some f) (hne : q.length = 4 → f ≠ m.zeroPage) :
      f ∈ delivered m m1 := by
    obtain ⟨t, ht, htc, rfl⟩ := (h.covers q f hq hql (.inl hnone) hf).resolve_left fun hz => hne hz.1 hz.2
    refine (mem_delivered h.calls).mpr ⟨t, ht, htc, ?_⟩
    exact Option.some.inj ((h.placed t ht htc).2.2.2.symm.trans hf)
  refine ⟨hnodup.append (privateFrames_nodup h hflags hr hs hn hu) fun f hf hp => ?_, fun f => ?_⟩
  · obtain ⟨⟨q, hq, hql, hfq⟩, hnot⟩ := (hmem f).mp hf
    obtain ⟨hne, k, hk, hfk⟩ := (mem_privateFrames h hflags).mp hp
    have hpath := h.once hs hn hq (hr.path_outside hk) (by omega) le_rfl
      (.inl (hnew hq hql hfq hnot)) (.inl (hu k hk)) hfq hfk hne
    rw [hpath] at hql
    exact absurd hql (by change ¬ 4 ≤ 3; decide)
  · rw [List.mem_append, hmem, mem_privateFrames h hflags]
    constructor
    · rintro (⟨⟨q, hq, hql, hf⟩, hnot⟩ | ⟨hne, k, hk, hf⟩)
      · exact hcovers hq (by omega) (hnew hq hql hf hnot) hf fun hlen => by omega
      · exact hcovers (hr.path_outside hk) le_rfl (hu k hk) hf fun _ => hne
    · intro hf
      obtain ⟨t, ht, htc, rfl⟩ := (mem_delivered h.calls).mp hf
      obtain ⟨hq, hql, hnone, hft⟩ := h.placed t ht htc
      by_cases hlen : (owner t).length ≤ 3
      · refine .inl ⟨⟨_, hq, hlen, hft⟩, ?_⟩
        rintro ⟨q, hq, hql, hf⟩
        exact hs.frame_unused ht (by omega) hq hql hf
      · refine .inr ⟨hs.frame_zero ht (by omega), ?_⟩
        by_contra hnot
        rcases hnone with hnone | ⟨-, k, hk, hpath⟩
        · rw [h.others _ hq (by omega) fun k hk he => hnot ⟨k, hk, he ▸ hft⟩, hnone] at hft
          exact absurd hft (by simp)
        · exact hnot ⟨k, hk, hpath ▸ hft⟩

end kept

theorem zeroPage_mem (hrw : flags &&& mapRw = 0) (himm : flags &&& mapImmediate = 0)
    (hsize : size ≠ 0) : m.zeroPage ∈ privateFrames m1 start (pageCount size) := by
  have hpos : 0 < pageCount size := Nat.pos_of_ne_zero fun h0 => hsize (pageCount_eq_zero_iff.mp h0)
  obtain ⟨e, he, hentry⟩ := h.leaves 0 hpos
  obtain ⟨hlazy, hframe⟩ := hentry.readOnly hrw himm
  refine List.mem_filterMap.mpr ⟨0, List.mem_range.mpr hpos, ?_⟩
  rw [privateFrame, he, Option.bind_some, if_pos hlazy, hframe]

end privateFrames

section balance
variable {m m1 m2 : Machine} {start size flags : Word} {n : Nat} {owner : Nat → List Index}
  (ho : Occupied m) (hr : PageRange start size) (hs : Supply m n) (hn : m1.calls ≤ m.calls + n)
  (hu : ∀ k < pageCount size, tableAt m (indices (pageAt start k)) = none)
  (h : RangeMapped m m1 start flags (pageCount size) owner)
  (h' : RangeUnmapped m1 m2 start (pageCount size))
include ho hr hs hn hu h h'

theorem balanced_iff :
    Balanced m m2 ↔ flags &&& mapRw ≠ 0 ∨ flags &&& mapImmediate ≠ 0 ∨ size = 0 := by
  obtain ⟨fs, ts, hfreed, hperm, hnodup, hmem⟩ := h'.freed
  rw [h.freed] at hfreed
  have hsame : delivered m m2 = delivered m m1 := by rw [delivered, delivered, h'.calls]
  constructor
  · rintro ⟨fs', hfreed', -, hzero⟩
    obtain rfl : fs' = fs := List.append_cancel_right (hfreed'.symm.trans hfreed)
    by_contra hflags
    simp only [not_or, not_not] at hflags
    exact hzero (hperm.mem_iff.mpr (List.mem_append_right ts
      (zeroPage_mem h hflags.1 hflags.2.1 hflags.2.2)))
  · intro hflags
    obtain ⟨hboth, hiff⟩ := tables_privateFrames h hflags hr hs hn hu hnodup fun f =>
      (hmem f).trans (and_congr_right fun _ => not_congr (isTable_iff ho h hu h'))
    have hall : fs.Perm (delivered m m1) :=
      hperm.trans ((List.perm_ext_iff_of_nodup hboth (hs.delivered_nodup h.calls hn)).mpr hiff)
    refine ⟨fs, hfreed, hsame ▸ hall, fun hzero => ?_⟩
    obtain ⟨t, ht, htc, hframe⟩ := (mem_delivered h.calls).mp (hall.mem_iff.mp hzero)
    exact hs.frame_zero ht (by omega) hframe

end balance

theorem range_balanced_iff (m : Machine) (hw : WellFormed m) (ho : Occupied m)
    (start size flags : Word) (hr : PageRange start size)
    (hunmapped : ∀ k < pageCount size, walk m (pageAt start k) = none)
    (faults : List (Word × Word)) (hin : ∀ f ∈ faults, inRange start size f.1)
    (hs : Supply m (framesFor m start flags (pageCount size) + faults.length))
    (fuel : Nat) (hfuel : pageCount size < fuel) :
    ∃ m1, mapRange fuel start size flags m = .ok () m1 ∧ ∀ m2, serve faults m1 = .ok () m2 →
      ∃ m3, unmapRange fuel start size m2 = .ok () m3 ∧
        (Balanced m m3 ↔ flags &&& mapRw ≠ 0 ∨ flags &&& mapImmediate ≠ 0 ∨ size = 0) := by
  have hu : ∀ k < pageCount size, tableAt m (indices (pageAt start k)) = none := fun k hk => by
    have hnone := hunmapped k hk
    rw [walk, if_pos (hr.canonical k hk)] at hnone
    exact Option.map_eq_none_iff.mp hnone
  obtain ⟨m1, owner, hmap, h1, hcalls1⟩ := mapRange_maps hr hs (Nat.le_add_right _ _) hw hfuel
  refine ⟨m1, hmap, fun m2 hserve => ?_⟩
  obtain ⟨⟨owner', h2⟩, hcalls2⟩ := h1.serve hr hs hin (by omega) hserve
  obtain ⟨m3, hunmap, h3⟩ := unmapLoop_unmaps hr
    (fun k hk => (h2.leaves k hk).imp fun e he => he.1) fuel
    (RangeUnmapped.refl h2.wf (h2.occupied ho)) (Nat.zero_le _) (by omega)
  exact ⟨m3, hunmap, balanced_iff ho hr hs (by omega) hu h2 h3⟩

theorem onePage_range : PageRange 0x2000 0x1000 where
  aligned := by decide
  canonical := by decide
  outside := by decide

theorem twoPages_supply : Supply twoPages 3 where
  toFreshFrames := twoPages_fresh
  zeroAligned := ⟨by decide, by decide⟩
  zeroKept := by decide

theorem range_balanced_sample : ∃ m1 m2 m3, mapRange 2 0x2000 0x1000 mapRw twoPages = .ok () m1 ∧
    serve [(0x2008, 3)] m1 = .ok () m2 ∧ unmapRange 2 0x2000 0x1000 m2 = .ok () m3 ∧
      Balanced twoPages m3 := by
  obtain ⟨m1, hmap, hrest⟩ := range_balanced_iff twoPages twoPages_wellFormed twoPages_occupied
    0x2000 0x1000 mapRw onePage_range (by decide) [(0x2008, 3)] (fun f hf => by
      rw [List.mem_singleton.mp hf]
      decide)
    (twoPages_supply.mono (by decide)) 2 (by decide)
  have hserved : EStateM.run' (mapRange 2 0x2000 0x1000 mapRw >>= fun _ => serve [(0x2008, 3)])
      twoPages = some () := by
    decide
  rw [EStateM.run', EStateM.run, bind_ok hmap] at hserved
  cases hserve : serve [(0x2008, 3)] m1 with
  | error e m2 =>
    rw [hserve] at hserved
    exact absurd hserved (by simp)
  | ok u m2 =>
    obtain ⟨m3, hunmap, hiff⟩ := hrest m2 hserve
    exact ⟨m1, m2, m3, hmap, hserve, hunmap, hiff.mpr (.inl (by decide))⟩

theorem range_not_balanced : ¬ ∀ (m : Machine) (start size flags : Word), WellFormed m →
    Occupied m → PageRange start size →
    (∀ k < pageCount size, walk m (pageAt start k) = none) →
    ∀ faults : List (Word × Word), (∀ f ∈ faults, inRange start size f.1) →
    Supply m (framesFor m start flags (pageCount size) + faults.length) →
    ∀ fuel, pageCount size < fuel → ∃ m1, mapRange fuel start size flags m = .ok () m1 ∧
      ∀ m2, serve faults m1 = .ok () m2 →
        ∃ m3, unmapRange fuel start size m2 = .ok () m3 ∧ Balanced m m3 := by
  intro h
  obtain ⟨m1, hmap, hrest⟩ := h twoPages 0x2000 0x1000 0 twoPages_wellFormed twoPages_occupied
    onePage_range (by decide) [] (fun _ hf => absurd hf List.not_mem_nil)
    (twoPages_supply.mono (by decide)) 2 (by decide)
  obtain ⟨m3, hunmap, fs, hfreed, -, hzero⟩ := hrest m1 rfl
  have hrun : (ending ((mapRange 2 0x2000 0x1000 0 >>= fun _ => unmapRange 2 0x2000 0x1000)
      twoPages)).freed = [0x8000] := by
    decide
  rw [bind_ok hmap, hunmap] at hrun
  rw [show twoPages.freed = [] from rfl, List.append_nil] at hfreed
  exact hzero ((hfreed.symm.trans hrun) ▸ List.mem_singleton_self _)

end Lasagne.Pages
