import Mathlib

namespace RoundRobin
variable {τ θ : Type*}

-- two nested rotating queues: of groups, and of the members of each group
structure Queues (τ θ : Type*) where
  groups : List τ
  members : τ → List θ

structure Fair (owner : θ → τ) (q : Queues τ θ) : Prop where
  distinct : q.groups.Nodup
  filled : ∀ t ∈ q.groups, q.members t ≠ []
  nodup : ∀ t ∈ q.groups, (q.members t).Nodup
  owned : ∀ t ∈ q.groups, ∀ x ∈ q.members t, owner x = t

structure SameUpToOrder (q q' : Queues τ θ) : Prop where
  groups : q'.groups.Perm q.groups
  members : ∀ t, (q'.members t).Perm (q.members t)

section order
variable {owner : θ → τ} {q q' q'' : Queues τ θ} {x : θ} {t : τ} {ts : List τ} {xs : List θ}

theorem SameUpToOrder.refl (q : Queues τ θ) : SameUpToOrder q q :=
  ⟨.refl _, fun _ => .refl _⟩

theorem SameUpToOrder.trans (h : SameUpToOrder q q') (h' : SameUpToOrder q' q'') :
    SameUpToOrder q q'' :=
  ⟨h'.groups.trans h.groups, fun t => (h'.members t).trans (h.members t)⟩

theorem Fair.congr (h : Fair owner q) (hs : SameUpToOrder q q') : Fair owner q' := by
  refine ⟨hs.groups.nodup_iff.mpr h.distinct, fun t ht => ?_, fun t ht => ?_, fun t ht x hx => ?_⟩
  · intro hn
    have hp := hs.members t
    rw [hn] at hp
    exact h.filled t (hs.groups.mem_iff.mp ht) (List.nil_perm.mp hp)
  · exact (hs.members t).nodup_iff.mpr (h.nodup t (hs.groups.mem_iff.mp ht))
  · exact h.owned t (hs.groups.mem_iff.mp ht) x ((hs.members t).mem_iff.mp hx)

theorem map_owner (h : Fair owner q) (ht : ∀ t ∈ ts, t ∈ q.groups)
    (hxs : xs.map some = ts.map fun t => (q.members t).head?) : xs.map owner = ts := by
  have hmap : ts.map (fun t => ((q.members t).head?).map owner) = ts.map some := by
    refine List.map_congr_left fun t hts => ?_
    obtain ⟨x, xs, hm⟩ := List.exists_cons_of_ne_nil (h.filled t (ht t hts))
    rw [hm, List.head?_cons, Option.map_some, h.owned t (ht t hts) x (by rw [hm]; simp)]
  refine List.map_injective_iff.mpr (Option.some_injective τ) ?_
  rw [← hmap, List.map_map]
  calc (xs.map (some ∘ owner)) = (xs.map some).map (Option.map owner) := by
        rw [List.map_map]; rfl
    _ = ts.map (fun t => ((q.members t).head?).map owner) := by
        rw [hxs, List.map_map]; rfl

theorem map_rotate_head (l : List θ) :
    ((List.range l.length).map fun i => (l.rotate i).head?) = l.map some := by
  refine List.ext_getElem (by simp) fun i h1 h2 => ?_
  simp only [List.length_map, List.length_range] at h1
  rw [List.getElem_map, List.getElem_range, List.getElem_map, List.head?_rotate h1,
    List.getElem?_eq_getElem h1]

variable [DecidableEq θ]

theorem count_heads (h : Fair owner q) (ht : t ∈ q.groups) (hx : x ∈ q.members t)
    (hxs : xs.map some = q.groups.map fun t => (q.members t).head?) :
    xs.count x = [(q.members t).head?].count (some x) := by
  have hother (s : τ) (hs : s ∈ q.groups) (hst : s ≠ t) : (q.members s).head? ≠ some x := by
    intro hc
    have h1 := h.owned s hs x (List.mem_of_head? hc)
    exact hst (h1.symm.trans (h.owned t ht x hx))
  have hcount : xs.count x = (q.groups.map fun t => (q.members t).head?).count (some x) := by
    rw [← hxs, List.count_map_of_injective xs some (Option.some_injective θ)]
  obtain ⟨as, bs, hg⟩ := List.append_of_mem ht
  have hnd := h.distinct
  have hclear (cs : List τ) (hcs : ∀ s ∈ cs, s ∈ q.groups ∧ s ≠ t) :
      (cs.map fun t => (q.members t).head?).count (some x) = 0 := by
    refine List.count_eq_zero.mpr fun hmem => ?_
    obtain ⟨s, hs, he⟩ := List.mem_map.mp hmem
    exact hother s (hcs s hs).1 (hcs s hs).2 he
  rw [hg, List.nodup_append, List.nodup_cons] at hnd
  rw [hcount, hg, List.map_append, List.map_cons, List.count_append, List.count_cons,
    hclear as (fun s hs => ⟨by rw [hg]; simp [hs], fun hc => hnd.2.2 s hs t (by simp) hc⟩),
    hclear bs (fun s hs => ⟨by rw [hg]; simp [hs], fun hc => hnd.2.1.1 (hc ▸ hs)⟩),
    List.count_singleton]
  omega

end order

variable [DecidableEq τ]

def serve (q : Queues τ θ) : Option (θ × Queues τ θ) :=
  match q.groups with
  | [] => none
  | t :: ts =>
    match q.members t with
    | [] => none
    | x :: xs => some (x, ⟨ts ++ [t], Function.update q.members t (xs ++ [x])⟩)

def serves : Nat → Queues τ θ → Option (List θ × Queues τ θ)
  | 0, q => some ([], q)
  | n + 1, q => (serve q).bind fun s => (serves n s.2).map fun r => (s.1 :: r.1, r.2)

section steps
variable {owner : θ → τ} {q q' q'' : Queues τ θ} {x : θ} {t : τ} {ts : List τ} {xs ys : List θ}
  {m n : Nat}

theorem serve_eq (hg : q.groups = t :: ts) (hm : q.members t = x :: xs) :
    serve q = some (x, ⟨ts ++ [t], Function.update q.members t (xs ++ [x])⟩) := by
  rw [serve, hg]
  simp only [hm]

theorem serve_same (hs : serve q = some (x, q')) :
    SameUpToOrder q q' ∧ ∃ t ∈ q.groups, x ∈ q.members t := by
  rw [serve] at hs
  split at hs
  next => simp at hs
  next t ts hg =>
    split at hs
    next => simp at hs
    next y ys hm =>
      obtain ⟨rfl, rfl⟩ := Prod.mk.inj (Option.some.inj hs)
      refine ⟨⟨?_, fun s => ?_⟩, t, by rw [hg]; simp, by rw [hm]; simp⟩
      · rw [hg]
        exact List.perm_append_singleton t ts
      · by_cases hst : s = t
        · subst hst
          simp only [Function.update_self, hm]
          exact List.perm_append_singleton y ys
        · simp only [Function.update_of_ne hst]
          exact .refl _

theorem serves_succ : serves (n + 1) q = some (xs, q') ↔
    ∃ x ys q₁, serve q = some (x, q₁) ∧ serves n q₁ = some (ys, q') ∧ xs = x :: ys := by
  rw [serves, Option.bind_eq_some_iff]
  constructor
  · rintro ⟨⟨x, q₁⟩, h1, h2⟩
    obtain ⟨⟨ys, q₂⟩, h3, h4⟩ := Option.map_eq_some_iff.mp h2
    obtain ⟨rfl, rfl⟩ := Prod.mk.inj h4
    exact ⟨x, ys, q₁, h1, h3, rfl⟩
  · rintro ⟨x, ys, q₁, h1, h2, rfl⟩
    refine ⟨(x, q₁), h1, ?_⟩
    rw [h2]
    rfl

theorem serves_same (hs : serves n q = some (xs, q')) :
    SameUpToOrder q q' ∧ xs.length = n ∧ ∀ x ∈ xs, ∃ t ∈ q.groups, x ∈ q.members t := by
  induction n generalizing q xs with
  | zero =>
    obtain ⟨rfl, rfl⟩ := Prod.mk.inj (Option.some.inj hs)
    exact ⟨.refl q, rfl, by simp⟩
  | succ n ih =>
    obtain ⟨x, ys, q₁, h1, h2, rfl⟩ := serves_succ.mp hs
    obtain ⟨hsame, hx⟩ := serve_same h1
    obtain ⟨hsame', hlen, hys⟩ := ih h2
    refine ⟨hsame.trans hsame', by rw [List.length_cons, hlen], fun y hy => ?_⟩
    rcases List.mem_cons.mp hy with rfl | hy
    · exact hx
    · obtain ⟨t, ht, hyt⟩ := hys y hy
      exact ⟨t, hsame.groups.mem_iff.mp ht, (hsame.members t).mem_iff.mp hyt⟩

theorem serves_total (h : Fair owner q) (hne : q.groups ≠ []) (n : Nat) :
    ∃ xs q', serves n q = some (xs, q') := by
  induction n generalizing q with
  | zero => exact ⟨[], q, rfl⟩
  | succ n ih =>
    obtain ⟨t, ts, hg⟩ := List.exists_cons_of_ne_nil hne
    obtain ⟨x, xs, hm⟩ := List.exists_cons_of_ne_nil (h.filled t (by rw [hg]; simp))
    have hserve := serve_eq hg hm
    have hsame := (serve_same hserve).1
    obtain ⟨ys, q', hs⟩ := ih (h.congr hsame) (by simp)
    exact ⟨x :: ys, q', serves_succ.mpr ⟨x, ys, _, hserve, hs, rfl⟩⟩

theorem serves_add : serves (m + n) q = some (xs, q') ↔
    ∃ ys zs q₁, serves m q = some (ys, q₁) ∧ serves n q₁ = some (zs, q') ∧ xs = ys ++ zs := by
  induction m generalizing q xs with
  | zero =>
    rw [Nat.zero_add]
    constructor
    · intro h
      exact ⟨[], xs, q, rfl, h, rfl⟩
    · rintro ⟨ys, zs, q₁, h1, h2, rfl⟩
      obtain ⟨rfl, rfl⟩ := Prod.mk.inj (Option.some.inj h1)
      exact h2
  | succ m ih =>
    rw [show m + 1 + n = m + n + 1 by omega, serves_succ]
    constructor
    · rintro ⟨x, ws, q₁, h1, h2, rfl⟩
      obtain ⟨ys, zs, q₂, h3, h4, rfl⟩ := ih.mp h2
      exact ⟨x :: ys, zs, q₂, serves_succ.mpr ⟨x, ys, q₁, h1, h3, rfl⟩, h4, rfl⟩
    · rintro ⟨ys, zs, q₂, h1, h2, rfl⟩
      obtain ⟨x, ws, q₁, h3, h4, rfl⟩ := serves_succ.mp h1
      exact ⟨x, ws ++ zs, q₁, h3, ih.mpr ⟨ws, zs, q₂, h4, h2, rfl⟩, rfl⟩

end steps

section rounds
variable {owner : θ → τ} {q q' : Queues τ θ} {x : θ} {t : τ} {as bs : List τ} {xs : List θ}

def turn (members : τ → List θ) (ts : List τ) (n : Nat) : τ → List θ :=
  fun t => if t ∈ ts then (members t).rotate n else members t

theorem serves_prefix (as : List τ) {q : Queues τ θ} (h : Fair owner q)
    (hg : q.groups = as ++ bs) :
    ∃ xs, serves as.length q = some (xs, ⟨bs ++ as, turn q.members as 1⟩) ∧
      xs.map some = as.map fun t => (q.members t).head? := by
  induction as generalizing bs q with
  | nil =>
    refine ⟨[], ?_, rfl⟩
    rw [List.nil_append] at hg
    rw [List.append_nil, ← hg]
    rfl
  | cons t as ih =>
    obtain ⟨x, xs, hm⟩ := List.exists_cons_of_ne_nil (h.filled t (by rw [hg]; simp))
    have hserve := serve_eq hg hm
    have hnd := h.distinct
    rw [hg, List.cons_append, List.nodup_cons, List.mem_append] at hnd
    have hne (s : τ) (hs : s ∈ as) : s ≠ t := by
      rintro rfl
      exact hnd.1 (.inl hs)
    obtain ⟨ys, hs, hys⟩ := ih (h.congr (serve_same hserve).1)
      (List.append_assoc as bs [t])
    refine ⟨x :: ys, serves_succ.mpr ⟨x, ys, _, hserve, ?_, rfl⟩, ?_⟩
    · rw [hs, List.append_assoc]
      congr 3
      funext s
      simp only [turn, List.mem_cons]
      by_cases hst : s = t
      · subst hst
        rw [if_neg (fun hc => hnd.1 (.inl hc)), Function.update_self, if_pos (.inl rfl), hm]
        simp
      · simp [hst]
    · rw [List.map_cons, List.map_cons, hys, hm]
      congr 1
      refine List.map_congr_left fun s hs => ?_
      simp only [Function.update_of_ne (hne s hs)]

theorem serves_round (h : Fair owner q) :
    ∃ xs, serves q.groups.length q = some (xs, ⟨q.groups, turn q.members q.groups 1⟩) ∧
      xs.map some = q.groups.map fun t => (q.members t).head? := by
  obtain ⟨xs, hs, hxs⟩ := serves_prefix q.groups h (List.append_nil _).symm
  exact ⟨xs, hs, hxs⟩

theorem turn_turn (members : τ → List θ) (ts : List τ) (m n : Nat) :
    turn (turn members ts m) ts n = turn members ts (m + n) := by
  funext t
  simp only [turn]
  split
  next => rw [List.rotate_rotate]
  next => rfl

theorem turn_zero (members : τ → List θ) (ts : List τ) : turn members ts 0 = members := by
  funext t
  simp [turn]

variable [DecidableEq θ]

theorem serves_rounds (h : Fair owner q) (ht : t ∈ q.groups) (hx : x ∈ q.members t) (j : Nat) :
    ∃ xs, serves (q.groups.length * j) q = some (xs, ⟨q.groups, turn q.members q.groups j⟩) ∧
      xs.count x = ((List.range j).map fun i => ((q.members t).rotate i).head?).count (some x) := by
  induction j with
  | zero =>
    refine ⟨[], ?_, rfl⟩
    rw [turn_zero]
    rfl
  | succ j ih =>
    obtain ⟨xs, hs, hc⟩ := ih
    have hfair := h.congr (serves_same hs).1
    have hmem : turn q.members q.groups j t = (q.members t).rotate j := by rw [turn, if_pos ht]
    obtain ⟨ys, hs', hys⟩ := serves_round hfair
    have hcy := count_heads hfair ht (x := x) (by simpa [hmem] using hx) hys
    refine ⟨xs ++ ys, ?_, ?_⟩
    · rw [Nat.mul_succ]
      refine serves_add.mpr ⟨xs, ys, _, hs, ?_, rfl⟩
      rw [hs']
      simp only [turn_turn]
    · rw [List.count_append, hc, hcy, List.range_succ, List.map_append, List.count_append]
      simp [hmem]

theorem serves_all (h : Fair owner q) (ht : t ∈ q.groups) (hx : x ∈ q.members t) :
    ∃ xs q', serves (q.groups.length * (q.members t).length) q = some (xs, q') ∧ xs.count x = 1 := by
  obtain ⟨xs, hs, hc⟩ := serves_rounds h ht hx (q.members t).length
  refine ⟨xs, _, hs, ?_⟩
  rw [hc, map_rotate_head, List.count_map_of_injective _ some (Option.some_injective θ)]
  exact List.count_eq_one_of_mem (h.nodup t ht) hx

end rounds

section windows
variable {owner : θ → τ} {q q' : Queues τ θ} {x : θ} {t : τ} {xs : List θ} {n p w : Nat}

theorem window (hs : serves n q = some (xs, q')) (hp : p + w ≤ n) :
    ∃ q₁ q₂, SameUpToOrder q q₁ ∧ serves w q₁ = some ((xs.drop p).take w, q₂) := by
  obtain ⟨r, rfl⟩ := Nat.exists_eq_add_of_le hp
  rw [Nat.add_assoc] at hs
  obtain ⟨ys, zs, q₁, h1, h2, rfl⟩ := serves_add.mp hs
  obtain ⟨us, vs, q₂, h3, h4, rfl⟩ := serves_add.mp h2
  obtain ⟨hsame, hlen, -⟩ := serves_same h1
  obtain ⟨-, hlen', -⟩ := serves_same h3
  refine ⟨q₁, q₂, hsame, ?_⟩
  rw [← hlen, List.drop_left, ← hlen', List.take_left, hlen']
  exact h3

theorem window_groups (h : Fair owner q) (hs : serves n q = some (xs, q'))
    (hp : p + q.groups.length ≤ n) (ht : t ∈ q.groups) :
    (((xs.drop p).take q.groups.length).map owner).count t = 1 := by
  obtain ⟨q₁, q₂, hsame, hw⟩ := window hs hp
  have hfair := h.congr hsame
  obtain ⟨ys, hr, hys⟩ := serves_round hfair
  rw [hsame.groups.length_eq] at hr
  obtain ⟨hyx, -⟩ := Prod.mk.inj (Option.some.inj (hw.symm.trans hr))
  rw [hyx, map_owner hfair (fun _ h => h) hys]
  exact List.count_eq_one_of_mem hfair.distinct (hsame.groups.mem_iff.mpr ht)

theorem window_members [DecidableEq θ] (h : Fair owner q) (hs : serves n q = some (xs, q'))
    (ht : t ∈ q.groups) (hp : p + q.groups.length * (q.members t).length ≤ n)
    (hx : x ∈ q.members t) :
    ((xs.drop p).take (q.groups.length * (q.members t).length)).count x = 1 := by
  obtain ⟨q₁, q₂, hsame, hw⟩ := window hs hp
  obtain ⟨ys, q₃, hr, hys⟩ := serves_all (h.congr hsame) (hsame.groups.mem_iff.mpr ht)
    ((hsame.members t).mem_iff.mpr hx)
  rw [hsame.groups.length_eq, (hsame.members t).length_eq] at hr
  obtain ⟨hyx, -⟩ := Prod.mk.inj (Option.some.inj (hw.symm.trans hr))
  rw [hyx, hys]

end windows

end RoundRobin
