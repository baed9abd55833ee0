import Mathlib
import Lasagne.Pages.SelfMap

namespace Lasagne.Pages
open RadixTree StateRun

-- paths of table frames that avoid the slot of the PML4 that points to itself
abbrev Outside (path : List Index) : Prop := Away pgSelfIndex path

def presentCount (table : Index → Word) : Nat :=
  (Finset.univ.filter fun i => present (table i) = true).card

structure WellFormed (m : Machine) : Prop where
  tree : Tree child m.mem m.cr3 pgSelfIndex 3
  counted : Counted child refcount (fun _ => present) m.mem m.cr3 pgSelfIndex 3 []

def seen (m : Machine) (path : List Index) (i : Index) : Option Word :=
  look child view m.mem m.cr3 path i

section refcounts
variable {m : Machine}

theorem WellFormed.refcount_eq (h : WellFormed m) {path : List Index} {i : Index} {f g : Word}
    (ho : Outside (path ++ [i])) (hl : path.length < 3) (hf : tableAt m path = some f)
    (hg : child (m.mem f i) = some g) : refcount (m.mem f i) = presentCount (m.mem g) :=
  h.counted path i f g ho hl (by simp) hf hg

theorem presentCount_le (table : Index → Word) : presentCount table ≤ 512 := by
  have hcard : Fintype.card Index = 512 := by
    rw [Fintype.card_congr (BitVec.equivFin (m := 9)).toEquiv, Fintype.card_fin]
    decide
  rw [← hcard]
  exact Finset.card_filter_le _ _

theorem presentCount_pos_iff {table : Index → Word} :
    0 < presentCount table ↔ ∃ i, present (table i) = true := by
  rw [presentCount, Finset.card_pos]
  simp [Finset.filter_nonempty_iff]

theorem presentCount_eq (path : List Index) (table : Index → Word) :
    presentCount table = count (fun _ => present) path table := rfl

theorem presentCount_update_on {table : Index → Word} {i : Index} {x : Word}
    (h : present (table i) = false) (hx : present x = true) :
    presentCount (Function.update table i x) = presentCount table + 1 := by
  rw [presentCount_eq [], presentCount_eq []]
  exact count_update_on h hx

theorem tableAt_concat (path : List Index) (i : Index) :
    tableAt m (path ++ [i]) = (seen m path i).map frameOf := by
  rw [tableAt, reach_concat, seen, look]
  cases reach child m.mem m.cr3 path with
  | none => rfl
  | some f => exact frameOf_view.symm

end refcounts

section entries
variable {m m' : Machine} {a : Word}

theorem seen_isSome_iff (k : Fin 4) :
    (seen m ((indices a).take k) (slot a k)).isSome = true ↔ k < depth m a := by
  rw [← entryPresent_iff, entryPresent, entryLocation, seen, look, tableAt]
  cases reach child m.mem m.cr3 ((indices a).take k) with
  | none => simp
  | some f =>
    have := @view_eq_none (m.mem f (slot a k))
    cases hv : view (m.mem f (slot a k)) with
    | none => simp [hv, this.mp hv]
    | some e =>
      rw [hv] at this
      simpa [hv] using this

theorem depth_of_seen {d : Nat} (hd : d ≤ 4)
    (h : ∀ k : Fin 4, (seen m ((indices a).take k) (slot a k)).isSome = true ↔ k < d) :
    depth m a = d := by
  have hle : depth m a ≤ 4 := depth_le
  have hiff (k : Fin 4) : k < depth m a ↔ k < d := (seen_isSome_iff k).symm.trans (h k)
  by_contra hne
  rcases Nat.lt_or_gt_of_ne hne with hlt | hlt
  · have := (hiff ⟨depth m a, by omega⟩).mpr hlt
    simp at this
  · have := (hiff ⟨d, by omega⟩).mp hlt
    simp at this

theorem outside_take (hs : index a 39 ≠ pgSelfIndex) (k : Nat) : Outside ((indices a).take k) :=
  Away.of_prefix (away_cons.mpr hs) (List.take_prefix k (indices a))

theorem outside_concat (hs : index a 39 ≠ pgSelfIndex) (k : Fin 4) :
    Outside ((indices a).take k ++ [slot a k]) := by
  rw [← indices_take_succ]
  exact outside_take hs _

theorem length_take {k : Nat} (hk : k ≤ 4) : ((indices a).take k).length = k := by
  rw [List.length_take]
  exact Nat.min_eq_left hk

theorem length_take_le {k : Nat} (hk : k ≤ 3) : ((indices a).take k).length ≤ 3 :=
  (length_take (hk.trans (by decide))).trans_le hk

theorem length_take_lt {k : Nat} (hk : k < 3) : ((indices a).take k).length < 3 :=
  (length_take (hk.le.trans (by decide))).trans_lt hk

theorem level_unique {s : Index} {i j : Nat} {f : Word} (ht : Tree child m.mem m.cr3 s 3)
    (hs : index a 39 ≠ s) (hi : i ≤ 3) (hj : j ≤ 3) (hf : tableAt m ((indices a).take i) = some f)
    (hg : tableAt m ((indices a).take j) = some f) : i = j := by
  have hout (k : Nat) : Away s ((indices a).take k) :=
    Away.of_prefix (away_cons.mpr hs) (List.take_prefix k (indices a))
  have hpath := congrArg List.length
    (ht.unique _ _ f (hout i) (hout j) (length_take_le hi) (length_take_le hj) hf hg)
  rwa [length_take (by omega), length_take (by omega)] at hpath

theorem exists_tableAt {k : Nat} (hk : k ≤ depth m a) :
    ∃ f, tableAt m ((indices a).take k) = some f :=
  Option.isSome_iff_exists.mp ((tableAt_isSome_iff (hk.trans depth_le)).mpr hk)

theorem child_slot {k : Fin 4} {f : Word} (hf : tableAt m ((indices a).take k) = some f) :
    child (m.mem f (slot a k)) = tableAt m ((indices a).take (k + 1)) := by
  rw [tableAt_succ, hf]
  rfl

end entries

section raise
variable {mem : Word → Index → Word} {root f g : Word} {path q : List Index} {i j : Index}
  (h : Tree child mem root pgSelfIndex 3)
  (hc : Counted child refcount (fun _ => present) mem root pgSelfIndex 3 (path ++ [i]))
  (ho : Outside (path ++ [i])) (hl : path.length < 3) (hf : reach child mem root path = some f)
  (hg : child (mem f i) = some g)

include h hc ho hl hf hg

theorem store_counter {x : Word} (hlow : x.setWidth 52 = (mem f i).setWidth 52)
    (hrefs : refcount x = presentCount (mem g)) :
    Tree child (RadixTree.store mem f i x) root pgSelfIndex 3 ∧
      Counted child refcount (fun _ => present) (RadixTree.store mem f i x) root pgSelfIndex 3 [] :=
  ⟨h.store_same_next (child_congr hlow),
    hc.store_refs h ho hl hf hg ((child_congr hlow).trans hg) hrefs (present_congr hlow)⟩

theorem raise_counter (hrefs : refcount (mem f i) + 1 = presentCount (mem g)) :
    Tree child (RadixTree.store mem f i (mem f i + oneReference)) root pgSelfIndex 3 ∧
      Counted child refcount (fun _ => present)
        (RadixTree.store mem f i (mem f i + oneReference)) root pgSelfIndex 3 [] ∧
      look child view (RadixTree.store mem f i (mem f i + oneReference)) root q j =
        look child view mem root q j := by
  have hlt : refcount (mem f i) < 1023 := by
    have := presentCount_le (mem g)
    omega
  have hlow : (mem f i + oneReference).setWidth 52 = (mem f i).setWidth 52 :=
    low_add low_oneReference
  obtain ⟨ht, hcount⟩ := store_counter h hc ho hl hf hg hlow ((refcount_add hlt).trans hrefs)
  exact ⟨ht, hcount, look_same (child_congr hlow) (view_add hlt)⟩

end raise

section counters
variable {m : Machine} {a : Word} (hself : child (m.mem m.cr3 pgSelfIndex) = some m.cr3)
include hself

theorem increaseCounter_entryOf {k : Fin 4} {f : Word}
    (hf : tableAt m ((indices a).take k) = some f) :
    increaseCounter (entryOf a k) m = .ok () (m.withMem
      (RadixTree.store m.mem f (slot a k) (m.mem f (slot a k) + oneReference))) := by
  rw [increaseCounter, bind_ok (load_entryOf hself hf), store_entryOf hself hf]

theorem decreaseCounter_entryOf {k : Fin 4} {f : Word}
    (hf : tableAt m ((indices a).take k) = some f) :
    decreaseCounter (entryOf a k) m = .ok (refcount (m.mem f (slot a k) - oneReference))
      (m.withMem (RadixTree.store m.mem f (slot a k) (m.mem f (slot a k) - oneReference))) := by
  have hnext : child (m.mem f (slot a k) - oneReference) = child (m.mem f (slot a k)) :=
    child_congr (low_sub low_oneReference)
  have hload := load_entryOf
    (m := m.withMem (RadixTree.store m.mem f (slot a k) (m.mem f (slot a k) - oneReference)))
    ((next_store_same_next hnext).trans hself) ((reach_store_same_next hnext m.cr3 _).trans hf)
  rw [Machine.withMem_mem, store_same] at hload
  rw [decreaseCounter, bind_ok (load_entryOf hself hf), bind_ok (store_entryOf hself hf),
    bind_ok hload]
  rfl

end counters

section lowPages
variable {both : Bool} {f g : Word} {i : Index} {q : List Index}

theorem lowPages_entry (h : present ((lowPages both).mem f i) = true) :
    (f, i, (lowPages both).mem f i) ∈ lowEntries both := by
  have hmem : (lowPages both).mem f i =
      (((lowEntries both).find? fun e => e.1 == f && e.2.1 == i).map fun e => e.2.2).getD 0 := rfl
  cases he : (lowEntries both).find? fun e => e.1 == f && e.2.1 == i with
  | none =>
    rw [hmem, he] at h
    exact absurd h (by decide)
  | some e =>
    have hkey : e.1 = f ∧ e.2.1 = i := by simpa using List.find?_some he
    rw [hmem, he, ← hkey.1, ← hkey.2]
    exact List.mem_of_find?_eq_some he

theorem lowPages_child (h : child ((lowPages both).mem f i) = some g) :
    f = 0x1000 ∧ i = 0 ∧ g = 0x2000 ∨ f = 0x1000 ∧ i = pgSelfIndex ∧ g = 0x1000 ∨
      f = 0x2000 ∧ i = 0 ∧ g = 0x3000 ∨ f = 0x3000 ∧ i = 0 ∧ g = 0x4000 ∨
      f = 0x4000 ∧ i = 0 ∧ g = 0x5000 ∨ f = 0x4000 ∧ i = 1 ∧ g = 0x6000 ∧ both = true := by
  obtain ⟨hp, rfl⟩ := child_eq_some.mp h
  have hmem := lowPages_entry hp
  generalize (lowPages both).mem f i = x at hmem hp
  simp only [lowEntries, List.mem_cons, Prod.mk.injEq, List.not_mem_nil, or_false] at hmem
  cases both <;>
  rcases hmem with ⟨rfl, rfl, rfl⟩ | ⟨rfl, rfl, rfl⟩ | ⟨rfl, rfl, rfl⟩ | ⟨rfl, rfl, rfl⟩ |
    ⟨rfl, rfl, rfl⟩ | ⟨rfl, rfl, rfl⟩ <;> revert hp <;> decide

theorem lowPages_tableAt (hq : Outside q) (hl : q.length ≤ 3)
    (hf : tableAt (lowPages both) q = some f) :
    q = [] ∧ f = 0x1000 ∨ q = [0] ∧ f = 0x2000 ∨ q = [0, 0] ∧ f = 0x3000 ∨
      q = [0, 0, 0] ∧ f = 0x4000 := by
  induction q using List.reverseRecOn generalizing f with
  | nil => exact .inl ⟨rfl, (Option.some.inj hf).symm⟩
  | append_singleton q j ih =>
    have hlen : q.length + 1 ≤ 3 := by simpa using hl
    obtain ⟨g, hg, hj⟩ := Option.bind_eq_some_iff.mp (reach_concat.symm.trans hf)
    have hchild := lowPages_child hj
    rcases ih hq.of_concat (by omega) hg with ⟨rfl, rfl⟩ | ⟨rfl, rfl⟩ | ⟨rfl, rfl⟩ | ⟨rfl, rfl⟩
    · rcases hchild with ⟨-, rfl, rfl⟩ | ⟨-, rfl, -⟩ | ⟨h, -⟩ | ⟨h, -⟩ | ⟨h, -⟩ | ⟨h, -⟩
      · exact .inr (.inl ⟨rfl, rfl⟩)
      · exact absurd rfl (away_cons.mp hq)
      all_goals exact absurd h (by decide)
    · rcases hchild with ⟨h, -⟩ | ⟨h, -⟩ | ⟨-, rfl, rfl⟩ | ⟨h, -⟩ | ⟨h, -⟩ | ⟨h, -⟩
      on_goal 3 => exact .inr (.inr (.inl ⟨rfl, rfl⟩))
      all_goals exact absurd h (by decide)
    · rcases hchild with ⟨h, -⟩ | ⟨h, -⟩ | ⟨h, -⟩ | ⟨-, rfl, rfl⟩ | ⟨h, -⟩ | ⟨h, -⟩
      on_goal 4 => exact .inr (.inr (.inr ⟨rfl, rfl⟩))
      all_goals exact absurd h (by decide)
    · simp at hlen

theorem lowPages_presentCount (both : Bool) : presentCount ((lowPages both).mem 0x2000) = 1 ∧
    presentCount ((lowPages both).mem 0x3000) = 1 ∧
    presentCount ((lowPages both).mem 0x4000) = if both then 2 else 1 := by
  have hcount (f : Word) (js : Finset Index)
      (h : ∀ j, j ∈ js ↔ ∃ g, child ((lowPages both).mem f j) = some g) :
      presentCount ((lowPages both).mem f) = js.card := by
    refine congrArg Finset.card (Finset.ext fun j => ?_)
    rw [Finset.mem_filter, h j, ← Option.isSome_iff_exists, child_isSome]
    simp
  have hfirst (f g : Word) (hg : child ((lowPages both).mem f 0) = some g)
      (hother : ∀ j g', child ((lowPages both).mem f j) = some g' → j = 0) :
      presentCount ((lowPages both).mem f) = 1 := by
    refine hcount f {0} fun j => ⟨fun hj => ⟨g, Finset.mem_singleton.mp hj ▸ hg⟩, ?_⟩
    rintro ⟨g', hg'⟩
    exact Finset.mem_singleton.mpr (hother j g' hg')
  refine ⟨hfirst 0x2000 0x3000 (by cases both <;> decide) fun j g' hg' => ?_,
    hfirst 0x3000 0x4000 (by cases both <;> decide) fun j g' hg' => ?_, ?_⟩
  · have hj : j = 0 ∧ g' = 0x3000 := by simpa using lowPages_child hg'
    exact hj.1
  · have hj : j = 0 ∧ g' = 0x4000 := by simpa using lowPages_child hg'
    exact hj.1
  cases both with
  | false =>
    refine hfirst 0x4000 0x5000 (by decide) fun j g' hg' => ?_
    have hj : j = 0 ∧ g' = 0x5000 := by simpa using lowPages_child hg'
    exact hj.1
  | true =>
    refine hcount 0x4000 {0, 1} fun j => ⟨fun hj => ?_, ?_⟩
    · rcases Finset.mem_insert.mp hj with rfl | hj
      · exact ⟨0x5000, by decide⟩
      · exact ⟨0x6000, by rw [Finset.mem_singleton.mp hj]; decide⟩
    · rintro ⟨g, hg⟩
      have hj : j = 0 ∧ g = 0x5000 ∨ j = 1 ∧ g = 0x6000 := by simpa using lowPages_child hg
      exact hj.elim (fun h => Finset.mem_insert.mpr (.inl h.1))
        fun h => Finset.mem_insert_of_mem (Finset.mem_singleton.mpr h.1)

theorem lowPages_wellFormed (both : Bool) : WellFormed (lowPages both) where
  tree := {
    self := by cases both <;> decide
    unique := fun p q f hp hq hpl hql hrp hrq => by
      rcases lowPages_tableAt hp hpl hrp with ⟨rfl, hf⟩ | ⟨rfl, hf⟩ | ⟨rfl, hf⟩ | ⟨rfl, hf⟩ <;>
      rcases lowPages_tableAt hq hql hrq with ⟨rfl, hg⟩ | ⟨rfl, hg⟩ | ⟨rfl, hg⟩ | ⟨rfl, hg⟩ <;>
      first | rfl | exact absurd (hf.symm.trans hg) (by decide) }
  counted := fun p i f g hp hl _ hf hg => by
    obtain ⟨h2, h3, h4⟩ := lowPages_presentCount both
    rcases lowPages_child hg with ⟨rfl, rfl, rfl⟩ | ⟨rfl, rfl, rfl⟩ | ⟨rfl, rfl, rfl⟩ |
      ⟨rfl, rfl, rfl⟩ | ⟨rfl, -⟩ | ⟨rfl, -⟩
    · exact (show refcount _ = 1 by cases both <;> decide).trans h2.symm
    · rcases lowPages_tableAt hp.of_concat (by omega) hf with ⟨rfl, -⟩ | ⟨-, h⟩ | ⟨-, h⟩ | ⟨-, h⟩
      · exact absurd rfl (away_cons.mp hp)
      all_goals exact absurd h (by decide)
    · exact (show refcount _ = 1 by cases both <;> decide).trans h3.symm
    · exact (show refcount _ = if both then 2 else 1 by cases both <;> decide).trans h4.symm
    all_goals
      rcases lowPages_tableAt hp.of_concat (by omega) hf with ⟨-, h⟩ | ⟨-, h⟩ | ⟨-, h⟩ | ⟨rfl, -⟩
      on_goal 4 => simp at hl
      all_goals exact absurd h (by decide)

end lowPages

theorem twoPages_wellFormed : WellFormed twoPages := lowPages_wellFormed true

end Lasagne.Pages
