import Mathlib
import Lasagne.MemoryMap.Map

namespace Lasagne.MemMap
open CInt Span

def Holds (m : MemoryMap) (as : List Area) : Prop :=
  Canonical m.area ∧ m.area.length ≤ as.length ∧ ∀ x, Covered m.area x ↔ Covered as x

def WholePage (a : Area) : Prop := ∃ p, a.begin ≤ 4096 * p ∧ 4096 * p + 4096 ≤ a.stop

def shrink (a : Area) : Area := ⟨4096 * ((a.begin + 4095) / 4096), 4096 * (a.stop / 4096)⟩

section add
variable {m : MemoryMap} {as bs : List Area} {a : Area}

theorem holds_empty : Holds empty [] :=
  ⟨⟨.nil, by simp [empty]⟩, le_rfl, fun _ => Iff.rfl⟩

theorem addArea_holds (h : Holds m as) (ha : a.Proper) (hlen : as.length < mapMax) :
    ∃ m', addArea m a.begin a.stop = some m' ∧ Holds m' (as ++ [a]) := by
  obtain ⟨hc, hl, hu⟩ := h
  obtain ⟨h1, h2, h3⟩ := hc.mergeAreas m.area.length le_rfl ha
  have hlt : a.begin < a.stop := ha
  rw [addArea, if_pos hlt, if_neg (by omega)]
  refine ⟨_, rfl, h1, ?_, fun x => ?_⟩
  · rw [List.length_append]
    exact h2.trans (Nat.succ_le_succ hl)
  · rw [h3, hu, covered_append, covered_cons]
    simp [Covered]

theorem addAreas_holds (h : Holds m as) (hbs : ∀ b ∈ bs, Proper b)
    (hlen : as.length + bs.length ≤ mapMax) :
    ∃ m', addAreas m bs = some m' ∧ Holds m' (as ++ bs) := by
  induction bs generalizing m as with
  | nil => exact ⟨m, rfl, by rwa [List.append_nil]⟩
  | cons b bs ih =>
    rw [List.length_cons] at hlen
    obtain ⟨m₁, h1, hh⟩ := addArea_holds h (hbs b (by simp)) (by omega)
    obtain ⟨m₂, h2, hh⟩ := ih hh (fun c hc => hbs c (by simp [hc]))
      (by simp only [List.length_append, List.length_cons, List.length_nil]; omega)
    refine ⟨m₂, ?_, by simpa using hh⟩
    rw [addAreas, h1]
    exact h2

end add

section align
variable {a b : Area} {as : List Area}

theorem alignArea_eq (hw : WholePage a) (hs : a.stop ≤ 2 ^ 52) : alignArea a = some (shrink a) := by
  obtain ⟨p, h1, h2⟩ := hw
  have hbegin : (if a.begin % 4096 ≠ 0 then (a.begin + (4096 - a.begin % 4096)) % wordSize
      else a.begin) = 4096 * ((a.begin + 4095) / 4096) := by
    split
    next =>
      rw [Nat.mod_eq_of_lt (by simp only [wordSize]; omega)]
      omega
    next => omega
  have hstop : (if a.stop % 4096 ≠ 0 then a.stop - a.stop % 4096 else a.stop) =
      4096 * (a.stop / 4096) := by
    split <;> omega
  simp only [alignArea, hbegin, hstop]
  rw [if_pos (by omega)]
  rfl

theorem shrink_before (h : Before a b) : Before (shrink a) (shrink b) := by
  simp only [Before, shrink] at *
  omega

theorem shrink_proper (hw : WholePage a) : (shrink a).Proper := by
  obtain ⟨p, h1, h2⟩ := hw
  simp only [Proper, shrink]
  omega

theorem mapM_alignArea (h : ∀ a ∈ as, alignArea a = some (shrink a)) :
    as.mapM alignArea = some (as.map shrink) := by
  induction as with
  | nil => rfl
  | cons a as ih =>
    rw [List.mapM_cons, h a (by simp), ih fun b hb => h b (by simp [hb])]
    rfl

theorem le_getLast (hp : as.Pairwise Before) (hprop : ∀ a ∈ as, Proper a)
    (hl : as.getLast? = some b) : ∀ a ∈ as, a.stop ≤ b.stop := by
  obtain ⟨bs, rfl⟩ := List.getLast?_eq_some_iff.mp hl
  intro a ha
  rcases List.mem_append.mp ha with ha' | ha'
  · have hab := (List.pairwise_append.mp hp).2.2 a ha' b (by simp)
    have hb := hprop b (by simp)
    simp only [Before, Proper] at *
    omega
  · rw [List.mem_singleton.mp ha']

end align

def Lists (cs as : List Area) : Prop :=
  cs.Pairwise Before ∧ ∀ c, c ∈ cs ↔ IsRun (Covered as) c

section sanitize
variable {m : MemoryMap} {as bs cs ds : List Area}

theorem Lists.unique (hc : Lists cs as) (hd : Lists ds as) : cs = ds := by
  refine eq_of_before hc.1 hd.1 (fun c h => ((hc.2 c).mp h).proper) fun c => ?_
  rw [hc.2, hd.2]

theorem Lists.perm (hc : Lists cs as) (h : as.Perm bs) : Lists cs bs := by
  refine ⟨hc.1, fun c => ?_⟩
  rw [hc.2, IsRun.congr fun x => covered_perm h]

theorem Holds.lists (h : Holds m as) :
    Lists (SelectionSort.sort Span.begin m.area.length m.area) as := by
  obtain ⟨hc, -, hu⟩ := h
  have hp := SelectionSort.sort_perm Span.begin m.area.length m.area
  have hprop : ∀ a ∈ SelectionSort.sort Span.begin m.area.length m.area, Proper a :=
    fun a ha => hc.proper a (hp.mem_iff.mp ha)
  have hapart := (hp.pairwise_iff Apart.symm).mpr hc.apart
  refine ⟨before_of_sorted hapart hprop (SelectionSort.sort_sorted _ le_rfl), fun c => ?_⟩
  rw [← IsRun.congr hu, isRun_iff_mem hc.apart hc.proper, hp.mem_iff]

theorem isRun_stop_le {c : Area} {n : Nat} (hc : IsRun (Covered as) c) (hs : ∀ a ∈ as, a.stop ≤ n) :
    c.stop ≤ n := by
  have hp : c.begin < c.stop := hc.proper
  obtain ⟨a, ha, hx⟩ := hc.inside (c.stop - 1) (by simp only [Mem]; omega)
  have := hs a ha
  simp only [Mem] at hx
  omega

theorem Lists.ne_nil (hc : Lists cs as) (hm : Holds m as) (hne : as ≠ [])
    (hprop : ∀ a ∈ as, Proper a) : cs ≠ [] := by
  obtain ⟨a, as', rfl⟩ := List.exists_cons_of_ne_nil hne
  obtain ⟨b, hb, -⟩ := (hm.2.2 a.begin).mpr ⟨a, by simp, le_rfl, hprop a (by simp)⟩
  have hrun := (IsRun.congr hm.2.2).mp (isRun_of_mem hm.1.apart hm.1.proper hb)
  exact List.ne_nil_of_mem ((hc.2 b).mpr hrun)

theorem sanitize_holds (hm : Holds m as) (hne : as ≠ []) (hprop : ∀ a ∈ as, Proper a)
    (hs : ∀ a ∈ as, a.stop ≤ 2 ^ 52) (hw : ∀ c, IsRun (Covered as) c → WholePage c)
    (hc : Lists cs as) :
    ∃ last, (cs.map shrink).getLast? = some last ∧ sanitize m = some ⟨cs.map shrink, last.stop⟩ := by
  have halign : ∀ c ∈ cs, alignArea c = some (shrink c) := fun c h =>
    alignArea_eq (hw c ((hc.2 c).mp h)) (isRun_stop_le ((hc.2 c).mp h) hs)
  have hnil : cs.map shrink ≠ [] := by simpa using hc.ne_nil hm hne hprop
  refine ⟨_, List.getLast?_eq_some_getLast hnil, ?_⟩
  rw [sanitize, hm.lists.unique hc, mapM_alignArea halign, Option.bind_eq_bind, Option.bind_some,
    List.getLast?_eq_some_getLast hnil]
  rfl

theorem build_eq (hne : as ≠ []) (hlen : as.length ≤ mapMax) (hprop : ∀ a ∈ as, Proper a)
    (hs : ∀ a ∈ as, a.stop ≤ 2 ^ 52) (hw : ∀ c, IsRun (Covered as) c → WholePage c)
    (hc : Lists cs as) :
    ∃ last, (cs.map shrink).getLast? = some last ∧ build as = some ⟨cs.map shrink, last.stop⟩ := by
  obtain ⟨m, hadd, hm⟩ := addAreas_holds holds_empty hprop (by simpa using hlen)
  obtain ⟨last, hl, hsan⟩ := sanitize_holds hm hne hprop hs hw hc
  refine ⟨last, hl, ?_⟩
  rw [build, hadd]
  exact hsan

theorem exists_lists (hlen : as.length ≤ mapMax) (hprop : ∀ a ∈ as, Proper a) :
    ∃ cs, Lists cs as := by
  obtain ⟨m, -, hm⟩ := addAreas_holds holds_empty hprop (by simpa using hlen)
  exact ⟨_, hm.lists⟩

end sanitize

theorem build_canonical (as : List Area) (hne : as ≠ []) (hlen : as.length ≤ mapMax)
    (hprop : ∀ a ∈ as, a.begin < a.stop) (hs : ∀ a ∈ as, a.stop ≤ 2 ^ 52)
    (hw : ∀ c, IsRun (Covered as) c → WholePage c) :
    ∃ cs m, Lists cs as ∧ build as = some m ∧ m.area = cs.map shrink ∧
      m.area.Pairwise Before ∧ (∀ a ∈ m.area, a.begin < a.stop) ∧
      (∃ a ∈ m.area, a.stop = m.physicalEnd) ∧ (∀ a ∈ m.area, a.stop ≤ m.physicalEnd) ∧
      ∀ bs, bs.Perm as → build bs = some m := by
  obtain ⟨cs, hc⟩ := exists_lists hlen hprop
  obtain ⟨last, hl, hb⟩ := build_eq hne hlen hprop hs hw hc
  have hbefore : (cs.map shrink).Pairwise Before :=
    List.pairwise_map.mpr (hc.1.imp fun h => shrink_before h)
  have hproper : ∀ a ∈ cs.map shrink, Proper a := by
    intro a ha
    obtain ⟨c, h, rfl⟩ := List.mem_map.mp ha
    exact shrink_proper (hw c ((hc.2 c).mp h))
  refine ⟨cs, ⟨cs.map shrink, last.stop⟩, hc, hb, rfl, hbefore, hproper,
    ⟨last, List.mem_of_getLast? hl, rfl⟩, le_getLast hbefore hproper hl, fun bs hp => ?_⟩
  obtain ⟨last', hl', hb'⟩ := build_eq (fun h => hne (List.nil_perm.mp (h ▸ hp))) (hp.length_eq.trans_le hlen)
    (fun a ha => hprop a (hp.mem_iff.mp ha)) (fun a ha => hs a (hp.mem_iff.mp ha))
    (fun c h => hw c ((IsRun.congr fun x => covered_perm hp).mp h)) (hc.perm hp.symm)
  obtain rfl : last = last' := Option.some.inj (hl.symm.trans hl')
  exact hb'

theorem build_canonical_sample :
    ∃ cs m, Lists cs [⟨4096, 8192⟩, ⟨20000, 40000⟩, ⟨8192, 12288⟩] ∧
      build [⟨4096, 8192⟩, ⟨20000, 40000⟩, ⟨8192, 12288⟩] = some m ∧ m.area = cs.map shrink ∧
      build [⟨8192, 12288⟩, ⟨4096, 8192⟩, ⟨20000, 40000⟩] = some m := by
  have hcov (x : Nat) : Covered [⟨4096, 8192⟩, ⟨20000, 40000⟩, ⟨8192, 12288⟩] x ↔
      Covered [⟨4096, 12288⟩, ⟨20000, 40000⟩] x := by
    simp only [Covered, Mem, List.mem_cons, List.not_mem_nil, or_false, exists_eq_or_imp,
      exists_eq_left]
    omega
  have hw (c : Span) (hc : IsRun (Covered [⟨4096, 8192⟩, ⟨20000, 40000⟩, ⟨8192, 12288⟩]) c) :
      WholePage c := by
    rw [IsRun.congr hcov, isRun_iff_mem (by simp [Apart]) (by simp [Proper])] at hc
    rcases List.mem_cons.mp hc with rfl | hc
    · exact ⟨1, by decide, by decide⟩
    · rw [List.mem_singleton.mp hc]
      exact ⟨5, by decide, by decide⟩
  obtain ⟨cs, m, h1, h2, h3, -, -, -, -, h4⟩ :=
    build_canonical [⟨4096, 8192⟩, ⟨20000, 40000⟩, ⟨8192, 12288⟩] (by simp) (by decide) (by simp)
      (by simp) hw
  exact ⟨cs, m, h1, h2, h3, h4 _ (by decide)⟩

end Lasagne.MemMap
