import Mathlib

namespace CyclicList
variable {α : Type*}

theorem mem_inserted {a x y : α} {xs : List α} : y ∈ xs ++ [a, x] ↔ y = a ∨ y ∈ xs ++ [x] := by
  rw [← List.singleton_append, List.mem_append, List.mem_append, List.mem_append, List.mem_singleton,
    or_left_comm]

theorem iterate_of_chain {next : α → α} {c : α} {l : List α}
    (h : List.IsChain (fun a b => next a = b) (c :: l)) :
    List.iterate next (next c) l.length = l := by
  induction l generalizing c with
  | nil => rfl
  | cons a l ih =>
    obtain ⟨ha, hl⟩ := List.isChain_cons_cons.mp h
    rw [List.length_cons, List.iterate, ha, ih hl]

-- l lists every node once, from the successor of cur round to cur itself
structure Around (next : α → α) (cur : α) (l : List α) : Prop where
  links : List.IsChain (fun a b => next a = b) (cur :: l)
  last : l.getLast? = some cur
  nodup : l.Nodup

namespace Around
variable {next next' : α → α} {cur a : α} {l xs ys : List α}

theorem ne_nil (h : Around next cur l) : l ≠ [] := by
  rintro rfl
  simpa using h.last

theorem cur_mem (h : Around next cur l) : cur ∈ l := List.mem_of_getLast? h.last

theorem cur_not_mem_left (h : Around next cur (xs ++ a :: ys)) : cur ∉ xs := by
  intro hc
  have hnd := h.nodup
  have hlast := h.last
  rw [List.getLast?_append_of_ne_nil _ (by simp)] at hlast
  rw [List.nodup_append] at hnd
  exact hnd.2.2 cur hc cur (List.mem_of_getLast? hlast) rfl

theorem congr (h : Around next cur l) (hn : ∀ x ∈ l, next' x = next x) : Around next' cur l := by
  refine ⟨h.links.imp_of_mem_imp fun x y hx _ hxy => ?_, h.last, h.nodup⟩
  rw [hn x, hxy]
  rcases List.mem_cons.mp hx with rfl | hx
  · exact h.cur_mem
  · exact hx

theorem rotate (h : Around next cur (xs ++ a :: ys)) : Around next a (ys ++ xs ++ [a]) := by
  have hl := h.links
  have hlast := h.last
  rw [List.getLast?_append_of_ne_nil _ (by simp)] at hlast
  rw [← List.cons_append, List.isChain_append] at hl
  have hfront : List.IsChain (fun a b => next a = b) ((cur :: xs) ++ [a]) := by
    refine List.isChain_append.mpr ⟨hl.1, List.isChain_singleton a, fun x hx y hy => ?_⟩
    obtain rfl : a = y := by simpa using hy
    exact hl.2.2 x hx a (by simp)
  refine ⟨?_, by simp, ?_⟩
  · rw [List.append_assoc, ← List.cons_append]
    refine List.isChain_append.mpr ⟨hl.2.1, List.IsChain.tail hfront, fun x hx y hy => ?_⟩
    obtain rfl : cur = x := Option.some.inj (hlast.symm.trans hx)
    exact (List.isChain_cons.mp hfront).1 y hy
  · refine (List.Perm.nodup_iff ?_).mp h.nodup
    exact (List.perm_append_comm.trans (List.perm_append_singleton a (ys ++ xs)).symm)

theorem eq_append (h : Around next cur l) : ∃ xs, l = xs ++ [cur] := List.getLast?_eq_some_iff.mp h.last

theorem visits (h : Around next cur l) {x : α} (hx : x ∈ l) :
    next^[l.length] x = x ∧ (List.iterate next x l.length).Perm l := by
  obtain ⟨xs, ys, rfl⟩ := List.append_of_mem hx
  have hround := iterate_of_chain h.rotate.links
  have hperm : (x :: (ys ++ xs)).Perm (xs ++ x :: ys) :=
    (List.perm_append_comm.cons x).trans List.perm_middle.symm
  rw [← hperm.length_eq, List.length_cons]
  rw [List.length_append, List.length_singleton, List.iterate_add] at hround
  obtain ⟨hrest, hlast⟩ := List.append_inj' hround rfl
  refine ⟨List.singleton_injective hlast, ?_⟩
  rw [List.iterate, hrest]
  exact hperm

theorem insert {p : α} {zs : List α} (h : Around next cur (xs ++ [cur])) (hz : cur :: xs = zs ++ [p])
    (ha : a ∉ xs ++ [cur]) (hp : next' p = a) (hn : next' a = cur)
    (ho : ∀ x ∈ zs, next' x = next x) : Around next' cur (xs ++ [a, cur]) := by
  have hl := h.links
  rw [← List.cons_append, hz, List.isChain_append] at hl
  have hzs : List.IsChain (fun x y => next' x = y) (zs ++ [p]) := by
    refine List.isChain_append.mpr ⟨?_, List.isChain_singleton p, fun x hx y hy => ?_⟩
    · refine (List.isChain_append.mp hl.1).1.imp_of_mem_imp fun x y hx _ hxy => ?_
      rw [ho x hx, hxy]
    · rw [ho x (List.mem_of_getLast? hx)]
      exact (List.isChain_append.mp hl.1).2.2 x hx y hy
  refine ⟨?_, by simp, ?_⟩
  · rw [← List.cons_append, hz]
    refine List.isChain_append.mpr ⟨hzs, List.isChain_pair.mpr hn, fun x hx y hy => ?_⟩
    obtain rfl : p = x := by simpa using hx
    obtain rfl : a = y := by simpa using hy
    exact hp
  · refine (List.Perm.nodup_iff ?_).mpr (List.nodup_cons.mpr ⟨ha, h.nodup⟩)
    exact List.perm_middle

theorem next_eq {cur' : α} (h : Around next cur l) (h' : Around next' cur' l) {x : α} (hx : x ∈ l) :
    next' x = next x := by
  obtain ⟨xs, ys, rfl⟩ := List.append_of_mem hx
  have hl := h.rotate.links
  have hl' := h'.rotate.links
  obtain ⟨z, zs, hz⟩ := List.exists_cons_of_ne_nil
    (show ys ++ xs ++ [x] ≠ [] from List.append_ne_nil_of_right_ne_nil _ (by simp))
  rw [hz] at hl hl'
  rw [(List.isChain_cons_cons.mp hl).1, (List.isChain_cons_cons.mp hl').1]

theorem next_insert [DecidableEq α] (h : Around next cur (xs ++ [cur]))
    (h' : Around next' cur (xs ++ [a, cur])) :
    next' a = cur ∧ ∀ x ∈ xs ++ [cur], next' x = if next x = cur then a else next x := by
  have hl := h.links
  have hl' := h'.links
  have hnd : (cur :: xs).Nodup := (List.perm_append_singleton cur xs).nodup_iff.mp h.nodup
  rw [← List.cons_append] at hl hl'
  refine ⟨(List.isChain_cons_cons.mp (List.isChain_append.mp hl').2.1).1, fun x hx => ?_⟩
  obtain ⟨us, vs, hsplit⟩ := List.append_of_mem (show x ∈ cur :: xs by simpa [or_comm] using hx)
  rw [hsplit, List.append_assoc] at hl hl'
  have hchain := (List.isChain_append.mp hl).2.1
  have hchain' := (List.isChain_append.mp hl').2.1
  cases vs with
  | nil =>
    rw [(List.isChain_cons_cons.mp hchain).1, (List.isChain_cons_cons.mp hchain').1, if_pos rfl]
  | cons v vs =>
    have hv : v ≠ cur := by
      rintro rfl
      cases us with
      | nil =>
        obtain ⟨rfl, rfl⟩ := List.cons.inj hsplit
        simp at hnd
      | cons u us =>
        obtain ⟨rfl, rfl⟩ := List.cons.inj hsplit
        simp at hnd
    rw [(List.isChain_cons_cons.mp hchain).1, (List.isChain_cons_cons.mp hchain').1, if_neg hv]

end Around

structure Linked (next prev : α → α) (cur : α) (l : List α) : Prop extends Around next cur l where
  back : ∀ x ∈ l, prev (next x) = x

namespace Linked
variable {next prev next' prev' : α → α} {cur a : α} {l xs ys : List α}

theorem single (hn : next a = a) (hp : prev a = a) : Linked next prev a [a] where
  links := List.isChain_pair.mpr hn
  last := rfl
  nodup := List.nodup_singleton a
  back x hx := by
    obtain rfl := List.mem_singleton.mp hx
    rw [hn, hp]

theorem rotate (h : Linked next prev cur (xs ++ a :: ys)) : Linked next prev a (ys ++ xs ++ [a]) where
  toAround := h.toAround.rotate
  back x hx := h.back x (by simp at hx ⊢; tauto)

theorem prev_cur (h : Linked next prev cur (xs ++ [cur])) :
    ∃ zs, cur :: xs = zs ++ [prev cur] ∧ next (prev cur) = cur ∧ prev cur ∈ xs ++ [cur] := by
  obtain ⟨zs, p, hz⟩ := (List.eq_nil_or_concat' (cur :: xs)).resolve_left (List.cons_ne_nil _ _)
  have hp : p ∈ xs ++ [cur] := by
    have : p ∈ cur :: xs := hz ▸ by simp
    simpa [or_comm] using this
  have hl := h.links
  rw [← List.cons_append, hz, List.append_assoc] at hl
  have hnext : next p = cur := by
    simpa using (List.isChain_append.mp hl).2.1
  have hprev : prev cur = p := by
    rw [← hnext, h.back p hp]
  exact ⟨zs, hprev ▸ hz, hprev ▸ hnext, hprev ▸ hp⟩

theorem next_mem (h : Linked next prev cur l) {x : α} (hx : x ∈ l) : next x ∈ l := by
  obtain ⟨xs, ys, rfl⟩ := List.append_of_mem hx
  have hc := h.toAround.rotate.links
  cases hys : ys ++ xs with
  | nil =>
    rw [hys] at hc
    have := (List.isChain_cons_cons.mp hc).1
    simp [this]
  | cons y zs =>
    rw [hys] at hc
    have := (List.isChain_cons_cons.mp hc).1
    have hy : y ∈ ys ++ xs := hys ▸ List.mem_cons_self
    simp at hy ⊢
    rw [this]
    tauto

theorem prev_spec (h : Linked next prev cur l) {x : α} (hx : x ∈ l) :
    next (prev x) = x ∧ prev x ∈ l := by
  obtain ⟨xs, ys, rfl⟩ := List.append_of_mem hx
  obtain ⟨-, -, hnext, hmem⟩ := h.rotate.prev_cur
  refine ⟨hnext, ?_⟩
  simp at hmem ⊢
  tauto

theorem congr (h : Linked next prev cur l) (hn : ∀ x ∈ l, next' x = next x)
    (hp : ∀ x ∈ l, prev' x = prev x) : Linked next' prev' cur l where
  toAround := h.toAround.congr hn
  back x hx := by rw [hn x hx, hp (next x) (h.next_mem hx), h.back x hx]

theorem insert (h : Linked next prev cur (xs ++ [cur])) (ha : a ∉ xs ++ [cur])
    (hpa : next' (prev cur) = a) (hac : next' a = cur) (hca : prev' cur = a)
    (hap : prev' a = prev cur) (hn : ∀ x ∈ xs ++ [cur], x ≠ prev cur → next' x = next x)
    (hp : ∀ x ∈ xs ++ [cur], x ≠ cur → prev' x = prev x) : Linked next' prev' cur (xs ++ [a, cur]) := by
  obtain ⟨zs, hz, hlast, hmem⟩ := h.prev_cur
  have hzs (x : α) (hx : x ∈ zs) : x ∈ xs ++ [cur] ∧ x ≠ prev cur := by
    have hnd : (cur :: xs).Nodup := (List.perm_append_singleton cur xs).nodup_iff.mp h.nodup
    have hx' : x ∈ cur :: xs := hz ▸ List.mem_append_left _ hx
    refine ⟨by simpa [or_comm] using hx', ?_⟩
    rintro rfl
    rw [hz, List.nodup_append] at hnd
    exact hnd.2.2 _ hx _ (by simp) rfl
  refine ⟨h.toAround.insert hz ha hpa hac fun x hx => hn x (hzs x hx).1 (hzs x hx).2, fun x hx => ?_⟩
  by_cases hxa : x = a
  · subst hxa
    rw [hac, hca]
  have hx' : x ∈ xs ++ [cur] := by
    simp at hx ⊢
    tauto
  by_cases hxp : x = prev cur
  · subst hxp
    rw [hpa, hap]
  · rw [hn x hx' hxp, hp (next x) (h.next_mem hx'), h.back x hx']
    intro hc
    rw [← hc, h.back x hx'] at hxp
    exact hxp rfl

end Linked

end CyclicList
