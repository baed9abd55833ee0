import Mathlib

namespace RadixTree
variable {F I W : Type*}

section reach
variable (next : W → Option F) (mem : F → I → W)

def reach : F → List I → Option F
  | f, [] => some f
  | f, i :: is => (next (mem f i)).bind fun g => reach g is

variable {next mem} {f g r : F} {i s : I} {p q : List I}

theorem reach_cons : reach next mem f (i :: p) = (next (mem f i)).bind fun g => reach next mem g p :=
  rfl

theorem reach_append : reach next mem f (p ++ q) =
    (reach next mem f p).bind fun g => reach next mem g q := by
  induction p generalizing f with
  | nil => rfl
  | cons i p ih =>
    rw [List.cons_append, reach_cons, reach_cons, Option.bind_assoc]
    exact congrArg _ (funext fun g => ih)

theorem reach_concat : reach next mem f (p ++ [i]) =
    (reach next mem f p).bind fun g => next (mem g i) := by
  rw [reach_append]
  refine congrArg _ (funext fun g => ?_)
  rw [reach_cons]
  cases next (mem g i) <;> rfl

theorem reach_concat_of_some (h : reach next mem f p = some g) :
    reach next mem f (p ++ [i]) = next (mem g i) := by
  rw [reach_concat, h]
  rfl

theorem reach_replicate (h : next (mem r s) = some r) (n : Nat) :
    reach next mem r (List.replicate n s ++ p) = reach next mem r p := by
  induction n with
  | zero => rfl
  | succ n ih =>
    rw [List.replicate_succ, List.cons_append, reach_cons, h]
    exact ih

theorem reach_prefix (hpq : p <+: q) (h : reach next mem f q = some g) :
    ∃ g', reach next mem f p = some g' := by
  obtain ⟨t, rfl⟩ := hpq
  rw [reach_append] at h
  obtain ⟨g', hg', -⟩ := Option.bind_eq_some_iff.mp h
  exact ⟨g', hg'⟩

end reach

-- paths that do not start with the slot the root keeps for itself
def Away (s : I) (p : List I) : Prop := p.head? ≠ some s

section away
variable {s i : I} {p q : List I}

theorem away_nil : Away s [] := by simp [Away]

theorem away_cons : Away s (i :: p) ↔ i ≠ s := by simp [Away]

theorem Away.of_prefix (h : Away s q) (hpq : p <+: q) : Away s p := by
  obtain ⟨t, rfl⟩ := hpq
  cases p with
  | nil => exact away_nil
  | cons i p => exact away_cons.mpr (away_cons.mp h)

theorem Away.of_concat (h : Away s (p ++ [i])) : Away s p := h.of_prefix (List.prefix_append p [i])

theorem Away.append (h : Away s p) (hp : p ≠ []) : Away s (p ++ q) := by
  cases p with
  | nil => exact absurd rfl hp
  | cons i p => exact away_cons.mpr (away_cons.mp h)

theorem not_concat_prefix : ¬ p ++ [i] <+: p := fun h => by
  have := h.length_le
  simp at this

theorem prefix_concat_cases {t : List I} (h : t <+: p ++ [i]) : t = p ++ [i] ∨ t <+: p := by
  rcases List.prefix_concat_iff.mp h with h | h
  · exact .inl h
  · exact .inr h

end away

section store
variable [DecidableEq F] [DecidableEq I]

def store (mem : F → I → W) (f : F) (i : I) (x : W) : F → I → W :=
  Function.update mem f (Function.update (mem f) i x)

variable {mem : F → I → W} {f g : F} {i j : I} {x y : W}

@[simp] theorem store_same : store mem f i x f i = x := by simp [store]

theorem store_table : store mem f i x f = Function.update (mem f) i x := by simp [store]

theorem store_of_frame_ne (h : g ≠ f) : store mem f i x g = mem g := by simp [store, h]

theorem store_of_ne (h : ¬ (g = f ∧ j = i)) : store mem f i x g j = mem g j := by
  by_cases hg : g = f
  · subst hg
    rw [store_table, Function.update_of_ne fun hj => h ⟨rfl, hj⟩]
  · rw [store_of_frame_ne hg]

theorem store_store : store (store mem f i x) f i y = store mem f i y := by
  rw [store, store_table, store, Function.update_idem, Function.update_idem, store]

theorem store_comm (h : f ≠ g) : store (store mem f i x) g j y = store (store mem g j y) f i x := by
  funext k l
  by_cases hf : k = f
  · subst hf
    rw [store_of_frame_ne h, store_table, store_table, store_of_frame_ne h]
  · rw [store_of_frame_ne hf]
    by_cases hg : k = g
    · subst hg
      rw [store_table, store_table, store_of_frame_ne hf]
    · rw [store_of_frame_ne hg, store_of_frame_ne hg, store_of_frame_ne hf]

variable {next : W → Option F}

theorem next_store_same_next (h : next x = next (mem f i)) :
    next (store mem f i x g j) = next (mem g j) := by
  by_cases hs : g = f ∧ j = i
  · obtain ⟨rfl, rfl⟩ := hs
    rw [store_same, h]
  · rw [store_of_ne hs]

theorem reach_store_same_next (h : next x = next (mem f i)) (r : F) (p : List I) :
    reach next (store mem f i x) r p = reach next mem r p := by
  induction p generalizing r with
  | nil => rfl
  | cons j p ih =>
    rw [reach_cons, reach_cons, next_store_same_next h]
    exact congrArg _ (funext ih)

end store

-- tables down to depth d, each on one path from the root, whose slot s points back to itself
structure Tree (next : W → Option F) (mem : F → I → W) (root : F) (s : I) (d : Nat) : Prop where
  self : next (mem root s) = some root
  unique : ∀ p q f, Away s p → Away s q → p.length ≤ d → q.length ≤ d →
    reach next mem root p = some f → reach next mem root q = some f → p = q

namespace Tree
variable {next : W → Option F} {mem : F → I → W} {root f n : F} {s i : I} {d : Nat} {x : W}
  {p q : List I}

theorem ne_root (h : Tree next mem root s d) (hp : Away s p) (hl : p.length ≤ d) (hne : p ≠ [])
    (hr : reach next mem root p = some f) : f ≠ root := fun hf =>
  hne (h.unique p [] f hp away_nil hl (by simp) hr (by rw [hf]; rfl))

-- what the new entry points at: nothing, a frame below the tables, or a new empty table
structure Grafts (next : W → Option F) (mem : F → I → W) (root : F) (s : I) (d : Nat) (p : List I)
    (x : W) : Prop where
  fresh : ∀ n q, next x = some n → p.length < d → Away s q → q.length ≤ d →
    reach next mem root q ≠ some n
  empty : ∀ n j, next x = some n → p.length < d → next (mem n j) = none

theorem grafts_none (hx : next x = none) : Grafts next mem root s d p x :=
  ⟨fun n _ hn => by simp [hx] at hn, fun n _ hn => by simp [hx] at hn⟩

theorem grafts_bottom (hl : p.length = d) : Grafts next mem root s d p x :=
  ⟨fun _ _ _ hlt => by omega, fun _ _ _ hlt => by omega⟩

section store
variable [DecidableEq F] [DecidableEq I]

theorem reach_store (h : Tree next mem root s d) (hp : Away s p) (hl : p.length ≤ d)
    (hr : reach next mem root p = some f) (hq : Away s q) (hql : q.length ≤ d + 1)
    (hpq : ¬ p ++ [i] <+: q) : reach next (store mem f i x) root q = reach next mem root q := by
  induction q using List.reverseRecOn with
  | nil => rfl
  | append_singleton q j ih =>
    have hlen : q.length ≤ d := by simpa using hql
    have hprev := ih hq.of_concat (by omega) fun hpre => hpq (hpre.trans (List.prefix_append q [j]))
    rw [reach_concat, reach_concat, hprev]
    cases hg : reach next mem root q with
    | none => rfl
    | some g =>
      have hne : ¬ (g = f ∧ j = i) := by
        rintro ⟨rfl, rfl⟩
        exact hpq (h.unique p q g hp hq.of_concat hl hlen hr hg ▸ List.prefix_refl _)
      simp only [Option.bind_some, store_of_ne hne]

theorem reach_store_self (h : Tree next mem root s d) (hp : Away s p) (hl : p.length ≤ d)
    (hr : reach next mem root p = some f) :
    reach next (store mem f i x) root (p ++ [i]) = next x := by
  rw [reach_concat, h.reach_store hp hl hr hp (by omega) not_concat_prefix, hr]
  simp

theorem self_store (h : Tree next mem root s d) (hp : Away s (p ++ [i])) (hl : p.length ≤ d)
    (hr : reach next mem root p = some f) : next (store mem f i x root s) = some root := by
  rw [store_of_ne, h.self]
  rintro ⟨rfl, rfl⟩
  obtain rfl : p = [] := h.unique p [] root hp.of_concat away_nil hl (by simp) hr rfl
  exact away_cons.mp hp rfl

theorem reach_store_below (h : Tree next mem root s d) (hp : Away s p) (hl : p.length ≤ d)
    (hr : reach next mem root p = some f) (hx : Grafts next mem root s d p x)
    (hql : q.length ≤ d + 1) (hpq : p ++ [i] <+: q) (hne : q ≠ p ++ [i]) :
    reach next (store mem f i x) root q = none := by
  obtain ⟨t, rfl⟩ := hpq
  cases t with
  | nil => simp at hne
  | cons j t =>
    have hlt : p.length < d := by
      simp at hql
      omega
    rw [reach_append, h.reach_store_self hp hl hr]
    cases hn : next x with
    | none => rfl
    | some n =>
      have hnf : n ≠ f := fun hnf => hx.fresh n p hn hlt hp hl (hnf ▸ hr)
      simp only [Option.bind_some, reach_cons, store_of_frame_ne hnf, hx.empty n j hn hlt,
        Option.bind_none]

theorem reach_store_cases {g : F} (h : Tree next mem root s d) (hp : Away s p)
    (hl : p.length ≤ d) (hr : reach next mem root p = some f) (hx : Grafts next mem root s d p x)
    (hq : Away s q) (hql : q.length ≤ d + 1) (hg : reach next (store mem f i x) root q = some g) :
    q = p ++ [i] ∧ next x = some g ∨ ¬ p ++ [i] <+: q ∧ reach next mem root q = some g := by
  by_cases hpq : p ++ [i] <+: q
  · by_cases hqe : q = p ++ [i]
    · subst hqe
      rw [h.reach_store_self hp hl hr] at hg
      exact .inl ⟨rfl, hg⟩
    · rw [h.reach_store_below hp hl hr hx hql hpq hqe] at hg
      exact absurd hg (by simp)
  · rw [h.reach_store hp hl hr hq hql hpq] at hg
    exact .inr ⟨hpq, hg⟩

theorem store_graft (h : Tree next mem root s d) (hp : Away s (p ++ [i])) (hl : p.length ≤ d)
    (hr : reach next mem root p = some f) (hx : Grafts next mem root s d p x) :
    Tree next (store mem f i x) root s d where
  self := h.self_store hp hl hr
  unique q q' g hq hq' hql hql' hg hg' := by
    have hlt {q : List I} (hql : q.length ≤ d) (he : q = p ++ [i]) : p.length < d := by
      subst he
      simp at hql
      omega
    rcases h.reach_store_cases hp.of_concat hl hr hx hq (by omega) hg with
      ⟨hqe, hn⟩ | ⟨-, hold⟩ <;>
    rcases h.reach_store_cases hp.of_concat hl hr hx hq' (by omega) hg' with
      ⟨hqe', hn'⟩ | ⟨-, hold'⟩
    · rw [hqe, hqe']
    · exact absurd hold' (hx.fresh g q' hn (hlt hql hqe) hq' hql')
    · exact absurd hold (hx.fresh g q hn' (hlt hql' hqe') hq hql)
    · exact h.unique q q' g hq hq' hql hql' hold hold'

theorem store_same_next (h : Tree next mem root s d) (hx : next x = next (mem f i)) :
    Tree next (store mem f i x) root s d where
  self := by rw [next_store_same_next hx, h.self]
  unique q q' g hq hq' hql hql' hg hg' := by
    rw [reach_store_same_next hx] at hg hg'
    exact h.unique q q' g hq hq' hql hql' hg hg'

end store

section fill
variable [DecidableEq F] {t : I → W}

theorem reach_fill (hn : ∀ q, Away s q → q.length ≤ d → reach next mem root q ≠ some n)
    (hq : Away s q) (hql : q.length ≤ d + 1) :
    reach next (Function.update mem n t) root q = reach next mem root q := by
  induction q using List.reverseRecOn with
  | nil => rfl
  | append_singleton q j ih =>
    have hlen : q.length ≤ d := by simpa using hql
    rw [reach_concat, reach_concat, ih hq.of_concat (by omega)]
    cases hg : reach next mem root q with
    | none => rfl
    | some g =>
      have hne : g ≠ n := fun he => hn q hq.of_concat hlen (he ▸ hg)
      simp only [Option.bind_some, Function.update_of_ne hne]

theorem fill (h : Tree next mem root s d)
    (hn : ∀ q, Away s q → q.length ≤ d → reach next mem root q ≠ some n) :
    Tree next (Function.update mem n t) root s d where
  self := by
    have hroot : root ≠ n := fun he => hn [] away_nil (by simp) (by rw [he]; rfl)
    rw [Function.update_of_ne hroot, h.self]
  unique q q' g hq hq' hql hql' hg hg' := by
    rw [reach_fill hn hq (by omega)] at hg
    rw [reach_fill hn hq' (by omega)] at hg'
    exact h.unique q q' g hq hq' hql hql' hg hg'

end fill

end Tree

def look {V : Type*} (next : W → Option F) (view : W → Option V) (mem : F → I → W) (root : F)
    (p : List I) (i : I) : Option V := (reach next mem root p).bind fun f => view (mem f i)

section look
variable {V : Type*} {next : W → Option F} {view : W → Option V} {mem : F → I → W} {root f n : F}
  {s i j : I} {d : Nat} {x : W} {p q : List I} [DecidableEq F]

theorem look_fill {t : I → W}
    (hn : ∀ q, Away s q → q.length ≤ d → reach next mem root q ≠ some n) (hq : Away s q)
    (hql : q.length ≤ d) :
    look next view (Function.update mem n t) root q j = look next view mem root q j := by
  rw [look, look, Tree.reach_fill hn hq (by omega)]
  cases hg : reach next mem root q with
  | none => rfl
  | some g =>
    have hne : g ≠ n := fun he => hn q hq hql (he ▸ hg)
    simp only [Option.bind_some, Function.update_of_ne hne]

variable [DecidableEq I]

theorem look_same (hnext : next x = next (mem f i)) (hview : view x = view (mem f i)) :
    look next view (store mem f i x) root q j = look next view mem root q j := by
  rw [look, look, reach_store_same_next hnext]
  refine congrArg _ (funext fun g => ?_)
  by_cases hs : g = f ∧ j = i
  · obtain ⟨rfl, rfl⟩ := hs
    rw [store_same, hview]
  · rw [store_of_ne hs]

theorem look_beside (h : Tree next mem root s d) (hp : Away s p) (hl : p.length ≤ d)
    (hr : reach next mem root p = some f) (hq : Away s q) (hql : q.length ≤ d)
    (hpq : ¬ p ++ [i] <+: q) :
    look next view (store mem f i x) root q j =
      if q = p ∧ j = i then view x else look next view mem root q j := by
  rw [look, look, h.reach_store hp hl hr hq (by omega) hpq]
  cases hg : reach next mem root q with
  | none =>
    have hne : ¬ (q = p ∧ j = i) := by
      rintro ⟨rfl, -⟩
      rw [hg] at hr
      exact absurd hr (by simp)
    rw [if_neg hne]
    rfl
  | some g =>
    by_cases hs : q = p ∧ j = i
    · obtain ⟨rfl, rfl⟩ := hs
      obtain rfl : g = f := Option.some.inj (hg.symm.trans hr)
      simp
    · have hne : ¬ (g = f ∧ j = i) := by
        rintro ⟨rfl, rfl⟩
        exact hs ⟨h.unique q p g hq hp hql hl hg hr, rfl⟩
      simp only [Option.bind_some, store_of_ne hne, if_neg hs]

theorem look_graft (h : Tree next mem root s d) (hp : Away s p) (hl : p.length ≤ d)
    (hr : reach next mem root p = some f) (hx : Tree.Grafts next mem root s d p x)
    (hold : p.length < d → next (mem f i) = none) (hview : ∀ y, next y = none → view y = none)
    (hq : Away s q) (hql : q.length ≤ d) :
    look next view (store mem f i x) root q j =
      if q = p ∧ j = i then view x else look next view mem root q j := by
  by_cases hpq : p ++ [i] <+: q
  · have hlt : p.length < d := by
      have := hpq.length_le
      simp at this
      omega
    have hqp : q ≠ p := by
      rintro rfl
      exact not_concat_prefix hpq
    have hbefore : reach next mem root q = none := by
      obtain ⟨t, rfl⟩ := hpq
      rw [reach_append, reach_concat_of_some hr, hold hlt]
      rfl
    rw [if_neg fun hs => hqp hs.1, look, look, hbefore]
    by_cases hqe : q = p ++ [i]
    · subst hqe
      rw [h.reach_store_self hp hl hr]
      cases hn : next x with
      | none => rfl
      | some n =>
        have hnf : n ≠ f := fun hnf => hx.fresh n p hn hlt hp hl (hnf ▸ hr)
        simp only [Option.bind_some, store_of_frame_ne hnf, hview _ (hx.empty n j hn hlt)]
        rfl
    · rw [h.reach_store_below hp hl hr hx (by omega) hpq hqe]
      rfl
  · exact look_beside h hp hl hr hq hql hpq

theorem look_prune (h : Tree next mem root s d) (hp : Away s p) (hl : p.length ≤ d)
    (hr : reach next mem root p = some f) (hx : next x = none) (hview : view x = none)
    (hq : Away s q) (hql : q.length ≤ d) :
    look next view (store mem f i x) root q j = none ∧ p ++ [i] <+: q ++ [j] ∨
      look next view (store mem f i x) root q j = look next view mem root q j ∧
        ¬ p ++ [i] <+: q ++ [j] := by
  by_cases hpq : p ++ [i] <+: q
  · refine .inl ⟨?_, hpq.trans (List.prefix_append q [j])⟩
    obtain ⟨t, rfl⟩ := hpq
    rw [look, reach_append, h.reach_store_self hp hl hr, hx]
    rfl
  · rw [look_beside h hp hl hr hq hql hpq]
    by_cases hs : q = p ∧ j = i
    · rw [if_pos hs, hs.1, hs.2]
      exact .inl ⟨hview, List.prefix_refl _⟩
    · rw [if_neg hs]
      refine .inr ⟨rfl, fun hpre => ?_⟩
      rcases prefix_concat_cases hpre with he | hpre
      · obtain ⟨rfl, rfl⟩ : p = q ∧ i = j := by simpa using List.append_inj' he rfl
        exact hs ⟨rfl, rfl⟩
      · exact hpq hpre

end look

section count
variable [Fintype I]

def count (live : List I → W → Bool) (p : List I) (t : I → W) : Nat :=
  (Finset.univ.filter fun j => live (p ++ [j]) (t j) = true).card

variable {live : List I → W → Bool} {p : List I} {t : I → W} {i : I} {y : W}

theorem count_pos_iff : 0 < count live p t ↔ ∃ j, live (p ++ [j]) (t j) = true := by
  simp [count, Finset.card_pos, Finset.filter_nonempty_iff]

theorem count_eq_zero_iff : count live p t = 0 ↔ ∀ j, live (p ++ [j]) (t j) = false := by
  simp [count, Finset.filter_eq_empty_iff]

theorem count_congr {live' : List I → W → Bool} (h : ∀ j, live (p ++ [j]) (t j) = live' (p ++ [j]) (t j)) :
    count live p t = count live' p t :=
  congrArg Finset.card (Finset.filter_congr fun j _ => by rw [h j])

variable [DecidableEq I]

theorem count_succ {live' : List I → W → Bool} {t' : I → W}
    (h : ∀ j, j ≠ i → live (p ++ [j]) (t j) = live' (p ++ [j]) (t' j))
    (hoff : live (p ++ [i]) (t i) = false) (hon : live' (p ++ [i]) (t' i) = true) :
    count live' p t' = count live p t + 1 := by
  have hset : (Finset.univ.filter fun j => live' (p ++ [j]) (t' j) = true) =
      insert i (Finset.univ.filter fun j => live (p ++ [j]) (t j) = true) := by
    ext j
    by_cases hj : j = i
    · subst hj
      simp [hon]
    · simp [hj, h j hj]
  rw [count, hset, Finset.card_insert_of_notMem (by simp [hoff])]
  rfl

theorem count_update_same (h : live (p ++ [i]) y = live (p ++ [i]) (t i)) :
    count live p (Function.update t i y) = count live p t := by
  refine congrArg Finset.card (Finset.filter_congr fun j _ => ?_)
  by_cases hj : j = i
  · subst hj
    rw [Function.update_self, h]
  · rw [Function.update_of_ne hj]

theorem count_update_on (h : live (p ++ [i]) (t i) = false) (hy : live (p ++ [i]) y = true) :
    count live p (Function.update t i y) = count live p t + 1 :=
  count_succ (fun j hj => by rw [Function.update_of_ne hj]) h (by rwa [Function.update_self])

theorem count_update_off (h : live (p ++ [i]) (t i) = true) (hy : live (p ++ [i]) y = false) :
    count live p (Function.update t i y) + 1 = count live p t := by
  have hback := count_update_on (t := Function.update t i y) (y := t i) (by simpa using hy) h
  rw [Function.update_idem, Function.update_eq_self] at hback
  exact hback.symm

end count

-- every table entry but the one at path e counts the live entries of the table it points at
def Counted [Fintype I] (next : W → Option F) (refs : W → Nat) (live : List I → W → Bool)
    (mem : F → I → W) (root : F) (s : I) (d : Nat) (e : List I) : Prop :=
  ∀ p i f g, Away s (p ++ [i]) → p.length < d → p ++ [i] ≠ e → reach next mem root p = some f →
    next (mem f i) = some g → refs (mem f i) = count live (p ++ [i]) (mem g)

namespace Counted
variable [Fintype I] {next : W → Option F} {refs : W → Nat} {live : List I → W → Bool}
  {mem : F → I → W} {root f g n : F} {s i : I} {d : Nat} {x : W} {p e : List I}

theorem all (hc : Counted next refs live mem root s d []) :
    Counted next refs live mem root s d e := fun p i f g ha hl _ =>
  hc p i f g ha hl (by simp)

variable [DecidableEq F]

theorem fill {t : I → W} (hc : Counted next refs live mem root s d e)
    (hn : ∀ q, Away s q → q.length ≤ d → reach next mem root q ≠ some n) :
    Counted next refs live (Function.update mem n t) root s d e := by
  intro q j k g ha hql hne hk hg
  rw [Tree.reach_fill hn ha.of_concat (by omega)] at hk
  have hkn : k ≠ n := fun he => hn q ha.of_concat (by omega) (he ▸ hk)
  rw [Function.update_of_ne hkn] at hg ⊢
  have hgn : g ≠ n := by
    rintro rfl
    refine hn (q ++ [j]) ha (by simp; omega) ?_
    rw [reach_concat_of_some hk, hg]
  rw [Function.update_of_ne hgn]
  exact hc q j k g ha hql hne hk hg

variable [DecidableEq I]

theorem store_graft (hc : Counted next refs live mem root s d (p ++ [i]))
    (h : Tree next mem root s d) (hp : Away s (p ++ [i])) (hl : p.length ≤ d)
    (hr : reach next mem root p = some f) (hx : Tree.Grafts next mem root s d p x)
    (hrefs : ∀ n, next x = some n → p.length < d → refs x = count live (p ++ [i]) (mem n)) :
    Counted next refs live (store mem f i x) root s d p := by
  intro q j k g ha hql hne hk hg
  rcases h.reach_store_cases hp.of_concat hl hr hx ha.of_concat (by omega) hk with
    ⟨rfl, hn⟩ | ⟨-, hold⟩
  · have hlt : p.length < d := by
      simp at hql
      omega
    have hkf : k ≠ f := fun he => hx.fresh k p hn hlt hp.of_concat hl (he ▸ hr)
    rw [store_of_frame_ne hkf, hx.empty k j hn hlt] at hg
    exact absurd hg (by simp)
  · by_cases hs : k = f ∧ j = i
    · obtain ⟨rfl, rfl⟩ := hs
      obtain rfl : q = p := h.unique q p k ha.of_concat hp.of_concat (by omega) hl hold hr
      rw [store_same] at hg ⊢
      have hgk : g ≠ k := fun he => hx.fresh g q hg hql ha.of_concat (by omega) (he ▸ hr)
      rw [store_of_frame_ne hgk]
      exact hrefs g hg hql
    · rw [store_of_ne hs] at hg ⊢
      have hgf : g ≠ f := by
        rintro rfl
        refine hne (h.unique (q ++ [j]) p g ha hp.of_concat (by simp; omega) hl ?_ hr)
        rw [reach_concat_of_some hold, hg]
      rw [store_of_frame_ne hgf]
      refine hc q j k g ha hql (fun he => hs ?_) hold hg
      obtain ⟨rfl, rfl⟩ : q = p ∧ j = i := by simpa using List.append_inj' he rfl
      exact ⟨Option.some.inj (hold.symm.trans hr), rfl⟩

theorem store_refs (hc : Counted next refs live mem root s d (p ++ [i]))
    (h : Tree next mem root s d) (hp : Away s (p ++ [i])) (hl : p.length < d)
    (hr : reach next mem root p = some f) (hg : next (mem f i) = some g) (hx : next x = some g)
    (hrefs : refs x = count live (p ++ [i]) (mem g))
    (hlive : live (p ++ [i]) x = live (p ++ [i]) (mem f i)) :
    Counted next refs live (store mem f i x) root s d [] := by
  have hself : reach next mem root (p ++ [i]) = some g := by rw [reach_concat_of_some hr, hg]
  have hgf : g ≠ f := by
    rintro rfl
    have := h.unique (p ++ [i]) p g hp hp.of_concat (by simp; omega) (by omega) hself hr
    simp at this
  intro q j k l ha hql _ hk hn
  rw [reach_store_same_next (hx.trans hg.symm)] at hk
  by_cases hs : k = f ∧ j = i
  · obtain ⟨rfl, rfl⟩ := hs
    obtain rfl : q = p :=
      h.unique q p k ha.of_concat hp.of_concat (by omega) (by omega) hk hr
    rw [store_same] at hn ⊢
    obtain rfl : g = l := Option.some.inj (hx.symm.trans hn)
    rw [store_of_frame_ne hgf]
    exact hrefs
  · rw [store_of_ne hs] at hn ⊢
    have hne : q ++ [j] ≠ p ++ [i] := fun he => hs (by
      obtain ⟨rfl, rfl⟩ : q = p ∧ j = i := by simpa using List.append_inj' he rfl
      exact ⟨Option.some.inj (hk.symm.trans hr), rfl⟩)
    rw [hc q j k l ha hql hne hk hn]
    by_cases hlf : l = f
    · subst hlf
      have hql' : reach next mem root (q ++ [j]) = some l := by rw [reach_concat_of_some hk, hn]
      obtain rfl : q ++ [j] = p :=
        h.unique (q ++ [j]) p l ha hp.of_concat (by simp; omega) (by omega) hql' hr
      rw [store_table, count_update_same hlive]
    · rw [store_of_frame_ne hlf]

theorem store_bottom (hc : Counted next refs live mem root s d e) (h : Tree next mem root s d)
    (hp : Away s (p ++ [i])) (hl : p.length = d) (hr : reach next mem root p = some f)
    (hlive : live (p ++ [i]) x = live (p ++ [i]) (mem f i)) :
    Counted next refs live (store mem f i x) root s d e := by
  intro q j k g ha hql hne hk hg
  rw [h.reach_store hp.of_concat hl.le hr ha.of_concat (by omega) (fun hpre => by
    have := hpre.length_le
    simp at this
    omega)] at hk
  have hkf : k ≠ f := by
    rintro rfl
    obtain rfl : q = p := h.unique q p k ha.of_concat hp.of_concat (by omega) hl.le hk hr
    omega
  rw [store_of_frame_ne hkf] at hg ⊢
  rw [hc q j k g ha hql hne hk hg]
  by_cases hgf : g = f
  · subst hgf
    obtain rfl : q ++ [j] = p := h.unique (q ++ [j]) p g ha hp.of_concat (by simp; omega) hl.le
      (by rw [reach_concat_of_some hk, hg]) hr
    rw [store_table, count_update_same hlive]
  · rw [store_of_frame_ne hgf]

end Counted

-- the tables behind entry i of the root, under other contents of the rest
section swap
variable [DecidableEq F] [DecidableEq I] {next : W → Option F} {mem mem' : F → I → W} {root : F}
  {s i : I} {d : Nat} {x : W} (his : i ≠ s) (h : Tree next mem root s d)
  (h' : Tree next (store mem' root i x) root s d)
  (hkeep : ∀ q f, q.length < d → reach next (store mem' root i x) root (i :: q) = some f →
    mem f = mem' f)

include his h' hkeep in
theorem Tree.reach_swap {q : List I} (hq : q.length ≤ d) :
    reach next (store mem root i x) root (i :: q) = reach next (store mem' root i x) root (i :: q) := by
  induction q using List.reverseRecOn with
  | nil => simp only [reach_cons, store_same]; rfl
  | append_singleton q j ih =>
    have hlen : q.length < d := by simpa using hq
    have hstep := ih hlen.le
    rw [← List.cons_append, reach_concat, reach_concat, hstep]
    cases hf : reach next (store mem' root i x) root (i :: q) with
    | none => rfl
    | some f =>
      have hne : f ≠ root := h'.ne_root (away_cons.mpr his) hlen (by simp) hf
      simp only [Option.bind_some, store_of_frame_ne hne, hkeep q f hlen hf]

include h in
theorem Tree.reach_rest {q : List I} (hs : Away s q) (hi : Away i q) (hq : q.length ≤ d + 1) :
    reach next (store mem root i x) root q = reach next mem root q := by
  refine h.reach_store (p := []) away_nil (Nat.zero_le _) rfl hs hq fun hpre => hi ?_
  obtain ⟨r, rfl⟩ := hpre
  rfl

variable (hapart : ∀ q p f, Away s q → Away i q → q.length ≤ d → p.length < d →
  reach next mem root q = some f → reach next (store mem' root i x) root (i :: p) ≠ some f)

theorem away_or_cons (i : I) (q : List I) : Away i q ∨ ∃ p, q = i :: p := by
  cases q with
  | nil => exact .inl away_nil
  | cons j p =>
    by_cases hj : j = i
    · exact .inr ⟨p, by rw [hj]⟩
    · exact .inl (away_cons.mpr hj)

include his h h' hkeep hapart

theorem Tree.swap : Tree next (store mem root i x) root s d where
  self := by
    rw [store_of_ne fun hs => his hs.2.symm]
    exact h.self
  unique p q f hp hq hpl hql hpf hqf := by
    rcases away_or_cons i p with hpi | ⟨p, rfl⟩ <;> rcases away_or_cons i q with hqi | ⟨q, rfl⟩
    · rw [h.reach_rest hp hpi (by omega)] at hpf
      rw [h.reach_rest hq hqi (by omega)] at hqf
      exact h.unique p q f hp hq hpl hql hpf hqf
    · rw [h.reach_rest hp hpi (by omega)] at hpf
      rw [h'.reach_swap his hkeep (Nat.le_of_succ_le hql)] at hqf
      exact absurd hqf (hapart p q f hp hpi hpl hql hpf)
    · rw [h'.reach_swap his hkeep (Nat.le_of_succ_le hpl)] at hpf
      rw [h.reach_rest hq hqi (by omega)] at hqf
      exact absurd hpf (hapart q p f hq hqi hql hpl hqf)
    · rw [h'.reach_swap his hkeep (Nat.le_of_succ_le hpl)] at hpf
      rw [h'.reach_swap his hkeep (Nat.le_of_succ_le hql)] at hqf
      exact h'.unique _ _ f hp hq hpl hql hpf hqf

omit hapart in
theorem Counted.swap [Fintype I] {refs : W → Nat} {live : List I → W → Bool}
    (hc : Counted next refs live mem root s d [])
    (hc' : Counted next refs live (store mem' root i x) root s d []) :
    Counted next refs live (store mem root i x) root s d [] := by
  intro q j f g ha hql hne hf hg
  rcases away_or_cons i (q ++ [j]) with hi | ⟨p, hp⟩
  · have hqi : Away i q := hi.of_concat
    rw [h.reach_rest ha.of_concat hqi (by omega)] at hf
    have hentry : store mem root i x f j = mem f j := by
      refine store_of_ne ?_
      rintro ⟨rfl, rfl⟩
      obtain rfl : q = [] := h.unique q [] f ha.of_concat away_nil hql.le (Nat.zero_le _) hf rfl
      exact hi rfl
    rw [hentry] at hg ⊢
    have hroot : g ≠ root :=
      h.ne_root ha (by simpa using hql) (by simp) (by rw [reach_concat_of_some hf, hg])
    rw [store_of_frame_ne hroot]
    exact hc q j f g ha hql hne hf hg
  · have htable {k : F} {r : List I} (hr : r.length < d)
        (hk : reach next (store mem' root i x) root (i :: r) = some k) :
        store mem root i x k = store mem' root i x k := by
      have hne : k ≠ root := h'.ne_root (away_cons.mpr his) hr (by simp) hk
      rw [store_of_frame_ne hne, store_of_frame_ne hne, hkeep r k hr hk]
    obtain ⟨hf', hentry⟩ : reach next (store mem' root i x) root q = some f ∧
        store mem root i x f j = store mem' root i x f j := by
      cases q with
      | nil =>
        obtain rfl : root = f := Option.some.inj hf
        obtain rfl : j = i := (List.cons.inj hp).1
        exact ⟨rfl, by rw [store_same, store_same]⟩
      | cons k r =>
        obtain rfl : k = i := (List.cons.inj hp).1
        have hr : r.length < d := Nat.lt_of_succ_lt hql
        rw [h'.reach_swap his hkeep hr.le] at hf
        exact ⟨hf, by rw [htable hr hf]⟩
    have hlen : p.length = q.length := by simpa using congrArg List.length hp.symm
    rw [hentry] at hg ⊢
    rw [htable (hlen ▸ hql) (by rw [← hp, reach_concat_of_some hf', hg])]
    exact hc' q j f g ha hql hne hf' hg

end swap

end RadixTree
