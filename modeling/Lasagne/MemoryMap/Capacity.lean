import Mathlib
import Lasagne.MemoryMap.Canonical

namespace Lasagne.MemMap
open Span

def Complete (m : MemoryMap) (as : List Area) : Prop := ∀ x, Covered m.area x ↔ Covered as x

-- a full map turns every area away, one that would merge with an entry too
def Fits (m : MemoryMap) (a : Area) : Prop :=
  m.area.length = mapMax → ∀ x, Mem x a → Covered m.area x

def AllFit (m : MemoryMap) (as : List Area) : Prop :=
  ∀ bs a cs m', as = bs ++ a :: cs → addAreas m bs = some m' → Fits m' a

section capacity
variable {m m' : MemoryMap} {as bs : List Area} {a : Area}

theorem addArea_full (ha : a.Proper) (hfull : m.area.length = mapMax) :
    addArea m a.begin a.stop = some m := by
  have hlt : a.begin < a.stop := ha
  rw [addArea, if_pos hlt, if_pos hfull]

theorem addAreas_full (hprop : ∀ a ∈ as, Proper a) (hfull : m.area.length = mapMax) :
    addAreas m as = some m := by
  induction as with
  | nil => rfl
  | cons a as ih =>
    rw [addAreas, addArea_full (hprop a (by simp)) hfull]
    exact ih fun b hb => hprop b (by simp [hb])

theorem addArea_room (hc : Canonical m.area) (ha : a.Proper) (hroom : m.area.length < mapMax) :
    ∃ m', addArea m a.begin a.stop = some m' ∧ Canonical m'.area ∧ m'.area.length ≤ mapMax ∧
      ∀ x, Covered m'.area x ↔ Covered m.area x ∨ Mem x a := by
  obtain ⟨h1, h2, h3⟩ := hc.mergeAreas m.area.length le_rfl ha
  have hlt : a.begin < a.stop := ha
  refine ⟨{ m with area := mergeAreas m.area.length m.area a }, ?_, h1, ?_, h3⟩
  · rw [addArea, if_pos hlt, if_neg hroom.ne]
  · exact h2.trans hroom

theorem allFit_full (hprop : ∀ a ∈ as, Proper a) (hfull : m.area.length = mapMax) :
    AllFit m as ↔ ∀ x, Covered as x → Covered m.area x := by
  constructor
  · rintro h x ⟨a, ha, hx⟩
    obtain ⟨bs, cs, rfl⟩ := List.append_of_mem ha
    have hbs : addAreas m bs = some m := addAreas_full (fun b hb => hprop b (by simp [hb])) hfull
    exact h bs a cs m rfl hbs hfull x hx
  · rintro h bs a cs m' rfl hbs - x hx
    have hm : m = m' := by
      rw [addAreas_full (fun b hb => hprop b (by simp [hb])) hfull] at hbs
      exact Option.some.inj hbs
    rw [← hm]
    exact h x ⟨a, by simp, hx⟩

theorem allFit_room {m₁ : MemoryMap} (hroom : m.area.length < mapMax)
    (hadd : addArea m a.begin a.stop = some m₁) : AllFit m (a :: as) ↔ AllFit m₁ as := by
  constructor
  · rintro h bs b cs m' rfl hbs
    refine h (a :: bs) b cs m' rfl ?_
    rw [addAreas, hadd]
    exact hbs
  · intro h bs b cs m' heq hbs
    cases bs with
    | nil =>
      obtain rfl : m = m' := Option.some.inj hbs
      exact fun hfull => absurd hfull hroom.ne
    | cons c bs =>
      obtain ⟨rfl, rfl⟩ : a = c ∧ as = bs ++ b :: cs := by simpa using heq
      rw [addAreas, hadd] at hbs
      exact h bs b cs m' rfl hbs

theorem addAreas_complete (hc : Canonical m.area) (hle : m.area.length ≤ mapMax)
    (hprop : ∀ a ∈ as, Proper a) :
    ∃ m', addAreas m as = some m' ∧
      ((∀ x, Covered m'.area x ↔ Covered m.area x ∨ Covered as x) ↔ AllFit m as) := by
  induction as generalizing m with
  | nil => exact ⟨m, rfl, by simp [AllFit, Covered]⟩
  | cons a as ih =>
    rcases hle.eq_or_lt with hfull | hroom
    · refine ⟨m, addAreas_full hprop hfull, ?_⟩
      rw [allFit_full hprop hfull]
      exact forall_congr' fun x => ⟨fun h hx => h.mpr (.inr hx), fun h => ⟨.inl, fun hx => hx.elim id h⟩⟩
    · obtain ⟨m₁, hadd, hc₁, hle₁, hcov⟩ := addArea_room hc (hprop a (by simp)) hroom
      obtain ⟨m₂, hrun, hiff⟩ := ih hc₁ hle₁ fun b hb => hprop b (by simp [hb])
      refine ⟨m₂, ?_, ?_⟩
      · rw [addAreas, hadd]
        exact hrun
      · rw [allFit_room hroom hadd, ← hiff]
        refine forall_congr' fun x => ?_
        rw [hcov, covered_cons, or_assoc]

theorem complete_iff (as : List Area) (hprop : ∀ a ∈ as, a.begin < a.stop) :
    ∃ m, addAreas empty as = some m ∧ (Complete m as ↔
      ∀ bs a cs m', as = bs ++ a :: cs → addAreas empty bs = some m' → Fits m' a) := by
  obtain ⟨m, hrun, hiff⟩ := addAreas_complete (m := empty) holds_empty.1 (by decide) hprop
  refine ⟨m, hrun, Iff.trans (forall_congr' fun x => ?_) hiff⟩
  rw [show Covered empty.area x ↔ False by simp [empty, Covered], false_or]

theorem complete_iff_sample :
    ∃ m, addAreas empty [⟨4096, 8192⟩, ⟨6000, 12288⟩] = some m ∧
      Complete m [⟨4096, 8192⟩, ⟨6000, 12288⟩] := by
  obtain ⟨m, hrun, hiff⟩ := complete_iff [⟨4096, 8192⟩, ⟨6000, 12288⟩] (by simp)
  have hone : (addAreas empty [⟨4096, 8192⟩]).map (fun m => m.area.length) = some 1 := by decide
  refine ⟨m, hrun, hiff.mpr fun bs a cs m' has hadd hfull => ?_⟩
  match bs with
  | [] =>
    obtain rfl := Option.some.inj hadd
    exact absurd hfull (by decide)
  | [b] =>
    obtain ⟨rfl, -⟩ := List.cons.inj has
    rw [hadd, Option.map_some, hfull] at hone
    exact absurd hone (by decide)
  | b :: c :: bs => simp at has

end capacity

section full
variable {as bs : List Area}

theorem lists_self (hp : as.Pairwise Before) (hprop : ∀ a ∈ as, Proper a) : Lists as as :=
  ⟨hp, fun _ => (isRun_iff_mem (hp.imp .inl) hprop).symm⟩

def spaced (i : Nat) : Area := ⟨8192 * i, 8192 * i + 4096⟩

def spacedAreas : List Area := (List.range mapMax).map spaced

theorem spacedAreas_before : spacedAreas.Pairwise Before := by
  refine List.pairwise_map.mpr (List.pairwise_lt_range.imp fun h => ?_)
  simp only [Before, spaced]
  omega

theorem spacedAreas_proper : ∀ a ∈ spacedAreas, Proper a := by
  intro a ha
  obtain ⟨i, -, rfl⟩ := List.mem_map.mp ha
  simp only [Proper, spaced]
  omega

def crowded : List Area := spacedAreas ++ [⟨2048, 6144⟩]

def crowdedRuns : List Area := ⟨0, 6144⟩ :: spacedAreas.tail

theorem crowded_lists : Lists crowdedRuns crowded := by
  have hcov (x : Nat) : Covered crowdedRuns x ↔ Covered crowded x := by
    rw [crowded, covered_append, crowdedRuns, show spacedAreas = spaced 0 :: spacedAreas.tail from rfl,
      covered_cons, covered_cons, List.tail_cons]
    have hfirst : Mem x ⟨0, 6144⟩ ↔ Mem x (spaced 0) ∨ Covered [⟨2048, 6144⟩] x := by
      simp only [Mem, spaced, Covered, List.mem_singleton, exists_eq_left]
      omega
    rw [hfirst]
    tauto
  have hb : crowdedRuns.Pairwise fun a b => a.stop < b.begin := by decide +kernel
  have hp : ∀ a ∈ crowdedRuns, a.begin < a.stop := by decide +kernel
  refine ⟨hb, fun c => ?_⟩
  rw [← IsRun.congr hcov, isRun_iff_mem (hb.imp .inl) hp]

theorem not_complete : ¬ ∀ (as : List Area), (∀ a ∈ as, a.begin < a.stop) →
    (∀ bs, bs <+: as → ∃ cs, Lists cs bs ∧ cs.length ≤ mapMax) →
    ∀ m, addAreas empty as = some m → Complete m as := by
  intro h
  have hrun : addAreas empty crowded = some ⟨spacedAreas, 0⟩ := by decide +kernel
  have hprop : ∀ a ∈ crowded, a.begin < a.stop := by decide +kernel
  refine absurd ((h crowded hprop ?_ _ hrun 5000).mpr ⟨⟨2048, 6144⟩, by simp [crowded], by decide, by decide⟩) ?_
  · intro bs hbs
    rcases List.prefix_concat_iff.mp hbs with rfl | hbs
    · exact ⟨crowdedRuns, crowded_lists, by decide⟩
    · refine ⟨bs, lists_self (spacedAreas_before.sublist hbs.sublist)
        fun a ha => spacedAreas_proper a (hbs.subset ha), ?_⟩
      exact hbs.length_le.trans (by simp [spacedAreas])
  · rintro ⟨a, ha, hx⟩
    obtain ⟨i, -, rfl⟩ := List.mem_map.mp ha
    simp only [Mem, spaced] at hx
    omega

end full

end Lasagne.MemMap
