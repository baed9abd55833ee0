import Mathlib
import Lasagne.Pages.Range

namespace Lasagne.Pages
open RadixTree StateRun

-- the next answers of get_frame are new frames, and the zero page is none of them
structure Supply (m : Machine) (count : Nat) : Prop extends FreshFrames m count where
  zeroAligned : Aligned m.zeroPage
  zeroKept : ∀ t < count, m.frames (m.calls + t) ≠ m.zeroPage

def Machine.fetched (m : Machine) (count : Nat) : Machine := { m with calls := m.calls + count }

theorem tableAt_fetched (m : Machine) (c : Nat) (q : List Index) :
    tableAt (m.fetched c) q = tableAt m q := rfl

theorem depth_fetched (m : Machine) (c : Nat) (v : Word) : depth (m.fetched c) v = depth m v := rfl

-- q led nowhere in m, or it is the path of a page that was mapped anew since
def New (m : Machine) (pages : List Index → Prop) (q : List Index) : Prop :=
  tableAt m q = none ∨ q.length = 4 ∧ pages q

-- the frames delivered since m lie each at the end of one new path
structure Ledger (m m' : Machine) (pages : List Index → Prop) (owner : Nat → List Index) : Prop where
  calls : m.calls ≤ m'.calls
  frames : m'.frames = m.frames
  zeroPage : m'.zeroPage = m.zeroPage
  freed : m'.freed = m.freed
  kept : ∀ q f, Outside q → q.length ≤ 4 → ¬ (q.length = 4 ∧ pages q) → tableAt m q = some f →
    tableAt m' q = some f
  placed : ∀ t, m.calls ≤ t → t < m'.calls → Outside (owner t) ∧ (owner t).length ≤ 4 ∧
    New m pages (owner t) ∧ tableAt m' (owner t) = some (m.frames t)
  covers : ∀ q f, Outside q → q.length ≤ 4 → New m pages q → tableAt m' q = some f →
    q.length = 4 ∧ f = m.zeroPage ∨ ∃ t, m.calls ≤ t ∧ t < m'.calls ∧ owner t = q

section supply
variable {m : Machine} {n s t count : Nat}

theorem Supply.mono (h : Supply m n) (hle : count ≤ n) : Supply m count where
  toFreshFrames := h.toFreshFrames.mono hle
  zeroAligned := h.zeroAligned
  zeroKept t ht := h.zeroKept t (by omega)

variable (hs : Supply m n)
include hs

theorem Supply.frame_inj (hs1 : m.calls ≤ s) (ht1 : m.calls ≤ t) (hsn : s < m.calls + n)
    (htn : t < m.calls + n) (he : m.frames s = m.frames t) : s = t := by
  by_contra hne
  have hd (a b : Nat) (hab : a < b) (ha : m.calls ≤ a) (hb : b < m.calls + n) :
      m.frames a ≠ m.frames b := by
    have := hs.distinct (a - m.calls) (b - m.calls) (by omega) (by omega)
    rwa [Nat.add_sub_cancel' ha, Nat.add_sub_cancel' (ha.trans hab.le)] at this
  rcases Nat.lt_or_gt_of_ne hne with hlt | hlt
  · exact hd s t hlt hs1 htn he
  · exact hd t s hlt ht1 hsn he.symm

theorem Supply.frame_zero (ht1 : m.calls ≤ t) (htn : t < m.calls + n) :
    m.frames t ≠ m.zeroPage := by
  have := hs.zeroKept (t - m.calls) (by omega)
  rwa [Nat.add_sub_cancel' ht1] at this

theorem Supply.frame_aligned (ht1 : m.calls ≤ t) (htn : t < m.calls + n) :
    Aligned (m.frames t) := by
  have := hs.aligned (t - m.calls) (by omega)
  rwa [Nat.add_sub_cancel' ht1] at this

theorem Supply.frame_unused (ht1 : m.calls ≤ t) (htn : t < m.calls + n) {q : List Index}
    (hq : Outside q) (hql : q.length ≤ 3) : tableAt m q ≠ some (m.frames t) := by
  have := hs.unused (t - m.calls) (by omega) q hq hql
  rwa [Nat.add_sub_cancel' ht1] at this

theorem Supply.frame_notTable (ht1 : m.calls ≤ t) (htn : t < m.calls + n) :
    ¬ IsTable m (m.frames t) := by
  rintro ⟨q, hq, hql, hf⟩
  exact hs.frame_unused ht1 htn hq hql hf

end supply

section new
variable {m : Machine} {pages pages' : List Index → Prop} {q : List Index}

theorem New.mono (hsub : ∀ q, pages q → pages' q) (h : New m pages q) : New m pages' q :=
  h.imp_right fun hp => ⟨hp.1, hsub q hp.2⟩

end new

namespace Ledger
variable {m m1 m2 : Machine} {pages : List Index → Prop} {owner : Nat → List Index} {n : Nat}

theorem refl (m : Machine) (hp : ∀ q, ¬ pages q) : Ledger m m pages fun _ => [] where
  calls := le_rfl
  frames := rfl
  zeroPage := rfl
  freed := rfl
  kept _ _ _ _ _ hf := hf
  placed t ht ht' := absurd ht' (by omega)
  covers q f _ _ hnew hf := by
    rw [hnew.resolve_right fun hpage => hp q hpage.2] at hf
    exact absurd hf (by simp)

variable (h : Ledger m m1 pages owner) (hs : Supply m n)
include h

theorem cr3 : m1.cr3 = m.cr3 :=
  Option.some.inj (h.kept [] m.cr3 away_nil (by simp) (by simp) rfl)

theorem before {q : List Index} (hq : Outside q) (hql : q.length ≤ 3) (hnone : tableAt m1 q = none) :
    tableAt m q = none :=
  Option.eq_none_iff_forall_ne_some.mpr fun f hf => by
    rw [h.kept q f hq (by omega) (by omega) hf] at hnone
    exact absurd hnone (by simp)

theorem page_frame {q : List Index} {f : Word} (hq : Outside q) (hql : q.length ≤ 4)
    (hnew : New m pages q) (hf : tableAt m1 q = some f) (hzero : f ≠ m.zeroPage) :
    ∃ t, m.calls ≤ t ∧ t < m1.calls ∧ owner t = q ∧ m.frames t = f := by
  obtain ⟨t, ht, htc, rfl⟩ := (h.covers q f hq hql hnew hf).resolve_left fun hz => hzero hz.2
  exact ⟨t, ht, htc, rfl, Option.some.inj ((h.placed t ht htc).2.2.2.symm.trans hf)⟩

theorem table_cases {f : Word} (hf : IsTable m1 f) : IsTable m f ∨
    ∃ t, m.calls ≤ t ∧ t < m1.calls ∧ (owner t).length ≤ 3 ∧ m.frames t = f := by
  obtain ⟨q, hq, hql, hfq⟩ := hf
  cases hold : tableAt m q with
  | some g =>
    have hkept := h.kept q g hq (by omega) (by omega) hold
    obtain rfl : g = f := Option.some.inj (hkept.symm.trans hfq)
    exact .inl ⟨q, hq, hql, hold⟩
  | none =>
    obtain ⟨t, ht, htc, rfl⟩ :=
      (h.covers q f hq (by omega) (.inl hold) hfq).resolve_left fun hz => by omega
    exact .inr ⟨t, ht, htc, hql, Option.some.inj ((h.placed t ht htc).2.2.2.symm.trans hfq)⟩

include hs

theorem once (hn : m1.calls ≤ m.calls + n) {q q' : List Index} {f : Word} (hq : Outside q)
    (hq' : Outside q') (hql : q.length ≤ 4) (hql' : q'.length ≤ 4) (hnew : New m pages q)
    (hnew' : New m pages q') (hf : tableAt m1 q = some f) (hf' : tableAt m1 q' = some f)
    (hzero : f ≠ m.zeroPage) : q = q' := by
  obtain ⟨t, ht, htc, rfl, hframe⟩ := h.page_frame hq hql hnew hf hzero
  obtain ⟨t', ht', htc', rfl, hframe'⟩ := h.page_frame hq' hql' hnew' hf' hzero
  rw [hs.frame_inj ht ht' (by omega) (by omega) (hframe.trans hframe'.symm)]

theorem next_notTable {t : Nat} (ht : m1.calls ≤ t) (htn : t < m.calls + n) :
    ¬ IsTable m1 (m.frames t) := fun hf => by
  have hc := h.calls
  rcases h.table_cases hf with hold | ⟨s, hs1, hsc, -, hframe⟩
  · exact hs.frame_notTable (by omega) htn hold
  · have := hs.frame_inj hs1 (by omega) (by omega) htn hframe
    omega

theorem zero_notTable (hn : m1.calls ≤ m.calls + n) (hzero : ¬ IsTable m m.zeroPage) :
    ¬ IsTable m1 m.zeroPage := fun hf => by
  rcases h.table_cases hf with hold | ⟨t, ht, htc, -, hframe⟩
  · exact hzero hold
  · exact hs.frame_zero ht (by omega) hframe

theorem page_notTable (hn : m1.calls ≤ m.calls + n) {q : List Index} {f : Word} (hq : Outside q)
    (hql : q.length = 4) (hnew : New m pages q) (hf : tableAt m1 q = some f)
    (hzero : f ≠ m.zeroPage) : ¬ IsTable m1 f := fun hft => by
  obtain ⟨t, ht, htc, rfl, hframe⟩ := h.page_frame hq hql.le hnew hf hzero
  rcases h.table_cases hft with hold | ⟨s, hs1, hsc, hl, hframe'⟩
  · exact hs.frame_notTable ht (by omega) (hframe ▸ hold)
  · have := hs.frame_inj hs1 ht (by omega) (by omega) (hframe'.trans hframe.symm)
    rw [this] at hl
    omega

theorem fresh {c count : Nat} (hn : m1.calls + c + count ≤ m.calls + n) :
    FreshFrames (m1.fetched c) count := by
  have hc := h.calls
  refine ⟨fun t ht => ?_, fun t ht => ?_, fun s t hst ht he => ?_, fun t ht q hq hql hf => ?_⟩
  · change Aligned (m1.frames (m1.calls + c + t))
    rw [h.frames]
    exact hs.frame_aligned (by omega) (by omega)
  · change m1.frames (m1.calls + c + t) ≠ 0
    rw [h.frames]
    have := hs.nonzero (m1.calls + c + t - m.calls) (by omega)
    rwa [Nat.add_sub_cancel' (by omega)] at this
  · change m1.frames (m1.calls + c + s) = m1.frames (m1.calls + c + t) at he
    rw [h.frames] at he
    have := hs.frame_inj (by omega) (by omega) (by omega) (by omega) he
    omega
  · change tableAt m1 q = some (m1.frames (m1.calls + c + t)) at hf
    rw [h.frames] at hf
    exact h.next_notTable hs (by omega) (by omega) ⟨q, hq, hql, hf⟩

omit hs in
theorem step {pages' : List Index → Prop} (own : Nat → List Index)
    (hcalls : m1.calls ≤ m2.calls) (hframes : m2.frames = m1.frames)
    (hzero : m2.zeroPage = m1.zeroPage) (hfreed : m2.freed = m1.freed)
    (hsub : ∀ q, pages q → pages' q)
    (hown : ∀ t, m1.calls ≤ t → t < m2.calls → Outside (own t) ∧ (own t).length ≤ 4 ∧
      New m pages' (own t) ∧ tableAt m2 (own t) = some (m.frames t))
    (hchange : ∀ q, Outside q → q.length ≤ 4 →
      (tableAt m2 q = tableAt m1 q ∧ (pages' q → pages q)) ∨
      New m pages' q ∧ (∀ t, m.calls ≤ t → t < m1.calls → owner t ≠ q) ∧
        (q.length = 4 ∧ tableAt m2 q = some m.zeroPage ∨
          ∃ t, m1.calls ≤ t ∧ t < m2.calls ∧ own t = q)) :
    Ledger m m2 pages' fun t => if t < m1.calls then owner t else own t where
  calls := h.calls.trans hcalls
  frames := hframes.trans h.frames
  zeroPage := hzero.trans h.zeroPage
  freed := hfreed.trans h.freed
  kept q f hq hql hpage hf := by
    rcases hchange q hq hql with ⟨hsame, -⟩ | ⟨hnone | hanew, -⟩
    · exact hsame.trans (h.kept q f hq hql (fun hp => hpage ⟨hp.1, hsub q hp.2⟩) hf)
    · rw [hnone] at hf
      exact absurd hf (by simp)
    · exact absurd hanew hpage
  placed t ht htc := by
    by_cases ht1 : t < m1.calls
    · rw [if_pos ht1]
      obtain ⟨hq, hql, hnew, hf⟩ := h.placed t ht ht1
      refine ⟨hq, hql, hnew.mono hsub, ?_⟩
      rcases hchange _ hq hql with ⟨hsame, -⟩ | ⟨-, hother, -⟩
      · exact hsame.trans hf
      · exact absurd rfl (hother t ht ht1)
    · rw [if_neg ht1]
      exact hown t (by omega) htc
  covers q f hq hql hnew hf := by
    rcases hchange q hq hql with ⟨hsame, hback⟩ | ⟨-, -, ⟨hlen, hshared⟩ | ⟨t, ht, htc, rfl⟩⟩
    · have hold : New m pages q := hnew.imp_right fun hp => ⟨hp.1, hback hp.2⟩
      refine (h.covers q f hq hql hold (hsame.symm.trans hf)).imp_right ?_
      rintro ⟨t, ht, htc, rfl⟩
      exact ⟨t, ht, by omega, if_pos htc⟩
    · exact .inl ⟨hlen, Option.some.inj (hf.symm.trans hshared)⟩
    · exact .inr ⟨t, h.calls.trans ht, htc, if_neg (by omega)⟩

end Ledger

end Lasagne.Pages
