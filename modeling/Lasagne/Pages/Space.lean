import Mathlib
import Lasagne.Pages.Lazy

namespace Lasagne.Pages
open RadixTree StateRun
open X86 (canonical)

-- the slot of the PML4 that an address space has for itself
def userIndex : Index := 0

def Machine.loaded (m : Machine) (entry : Word) : Machine :=
  m.withMem (RadixTree.store m.mem m.cr3 userIndex entry)

abbrev IsKernel (m₀ : Machine) (f : Word) : Prop := IsTable (m₀.loaded 0) f

-- m goes on with the frames that m₀ has left
structure Later (m₀ : Machine) (n : Nat) (m : Machine) : Prop where
  cr3 : m.cr3 = m₀.cr3
  zeroPage : m.zeroPage = m₀.zeroPage
  frames : m.frames = m₀.frames
  calls : m₀.calls ≤ m.calls ∧ m.calls ≤ m₀.calls + n
  zeroClear : ∀ i, m.mem m₀.zeroPage i = 0
  framesClear : ∀ t, m.calls ≤ t → t < m₀.calls + n → ∀ i, m.mem (m₀.frames t) i = 0

-- the tables of m are those of the kernel and, below the user's slot, frames of its own
structure Owns (m₀ m : Machine) (own : Nat → Prop) : Prop where
  wf : WellFormed m
  kernel : ∀ q, Outside q → Away userIndex q → q.length ≤ 3 → tableAt m q = tableAt (m₀.loaded 0) q
  owned : ∀ q f, q.length ≤ 3 → tableAt m (userIndex :: q) = some f →
    q.length = 3 ∧ f = m₀.zeroPage ∨ ∃ t, own t ∧ m₀.frames t = f
  once : ∀ p q f, p.length ≤ 3 → q.length ≤ 3 → tableAt m (userIndex :: p) = some f →
    tableAt m (userIndex :: q) = some f → f ≠ m₀.zeroPage → p = q
  taken : ∀ t, own t → m₀.calls ≤ t ∧ t < m.calls

def idle (m : Machine) (pages : List Word) : Nat :=
  pages.countP fun v => decide (tableAt m (indices v) = some m.zeroPage)

structure Space (m₀ m : Machine) (flags : Word) (pages : List Word) (memory : Word → Byte)
    (own : Nat → Prop) : Prop extends Owns m₀ m own where
  leaves : ∀ v ∈ pages, ∃ e, leaf m v = some e ∧ RangeEntry m flags e
  contents : ∀ v ∈ pages, ∀ (a f : Word) (i : Index), a >>> 12 = v >>> 12 →
    walk m a = some (f, i) → byteOf (m.mem f i) a = memory a

def Writes (m₀ : Machine) (own : Nat → Prop) (m m' : Machine) : Prop :=
  ∀ f, ¬ IsKernel m₀ f → (∀ t, own t → m₀.frames t ≠ f) → m'.mem f = m.mem f

-- what an access by the owner of own, from m to m', does to the rest; left counts the frames that
-- its idle pages may still ask for
structure Serves (m₀ : Machine) (n : Nat) (own own' : Nat → Prop) (m m' : Machine)
    (left left' : Nat) : Prop where
  later : Later m₀ n m'
  writes : Writes m₀ own' m m'
  kept : ∀ t, own t → own' t
  fresh : ∀ t, own' t → own t ∨ m.calls ≤ t
  root : m'.mem m₀.cr3 userIndex = m.mem m₀.cr3 userIndex
  calls : m'.calls + left' = m.calls + left ∧ m.calls ≤ m'.calls

def OnPage (pages : List Word) (a : Word) : Prop := ∃ v ∈ pages, a >>> 12 = v >>> 12

structure UserPage (v : Word) : Prop where
  canonical : canonical v
  slot : index v 39 = userIndex

theorem user_ne_self : userIndex ≠ pgSelfIndex := by decide

theorem user_outside (q : List Index) : Outside (userIndex :: q) := away_cons.mpr user_ne_self

section owns
variable {m₀ m m' : Machine} {n : Nat} {own own' : Nat → Prop} {f a v : Word}

theorem Writes.trans {m'' : Machine} (h : Writes m₀ own m m') (h' : Writes m₀ own' m' m'')
    (hle : ∀ t, own t → own' t) : Writes m₀ own' m m'' := fun f hf hown =>
  (h' f hf hown).trans (h f hf fun t ht => hown t (hle t ht))

theorem Writes.refl (m₀ : Machine) (own : Nat → Prop) (m : Machine) : Writes m₀ own m m :=
  fun _ _ _ => rfl

theorem Serves.refl (hm : Later m₀ n m) (own : Nat → Prop) (left : Nat) :
    Serves m₀ n own own m m left left :=
  ⟨hm, .refl m₀ own m, fun _ ht => ht, fun _ ht => .inl ht, rfl, rfl, le_rfl⟩

theorem Serves.trans {m'' : Machine} {own'' : Nat → Prop} {x y z : Nat}
    (h : Serves m₀ n own own' m m' x y) (h' : Serves m₀ n own' own'' m' m'' y z) :
    Serves m₀ n own own'' m m'' x z where
  later := h'.later
  writes := h.writes.trans h'.writes h'.kept
  kept t ht := h'.kept t (h.kept t ht)
  fresh t ht := by
    have := h.calls.2
    rcases h'.fresh t ht with ht | ht
    · exact h.fresh t ht
    · exact .inr (by omega)
  root := h'.root.trans h.root
  calls := ⟨h'.calls.1.trans h.calls.1, h.calls.2.trans h'.calls.2⟩

theorem UserPage.path (hv : UserPage v) : ∃ q, q.length = 3 ∧ indices v = userIndex :: q :=
  ⟨[index v 30, index v 21, index v 12], rfl, by rw [indices, hv.slot]⟩

theorem UserPage.outside (hv : UserPage v) : index v 39 ≠ pgSelfIndex := hv.slot ▸ user_ne_self

theorem UserPage.path_outside (hv : UserPage v) : Outside (indices v) := away_cons.mpr hv.outside

theorem UserPage.congr (hv : UserPage v) (ha : a >>> 12 = v >>> 12) :
    indices a = indices v ∧ UserPage a := by
  have hpath := indices_of_page ha
  exact ⟨hpath, canonical_congr ha hv.canonical, ((List.cons.inj hpath).1).trans hv.slot⟩

variable (hs : ClearSupply (m₀.loaded 0) n)
include hs

theorem ClearSupply.inj {s t : Nat} (hs0 : m₀.calls ≤ s) (ht0 : m₀.calls ≤ t)
    (hsn : s < m₀.calls + n) (htn : t < m₀.calls + n) (he : m₀.frames s = m₀.frames t) : s = t :=
  hs.toSupply.frame_inj hs0 ht0 hsn htn he

theorem ClearSupply.zero {t : Nat} (ht0 : m₀.calls ≤ t) (htn : t < m₀.calls + n) :
    m₀.frames t ≠ m₀.zeroPage := hs.toSupply.frame_zero ht0 htn

theorem ClearSupply.user {t : Nat} (ht0 : m₀.calls ≤ t) (htn : t < m₀.calls + n) :
    ¬ IsKernel m₀ (m₀.frames t) := hs.toSupply.frame_notTable ht0 htn

omit hs in
theorem Owns.table_cases (h : Owns m₀ m own) (hf : IsTable m f) :
    IsKernel m₀ f ∨ ∃ t, own t ∧ m₀.frames t = f := by
  obtain ⟨q, hq, hql, hfq⟩ := hf
  rcases away_or_cons userIndex q with hi | ⟨p, rfl⟩
  · exact .inl ⟨q, hq, hql, (h.kernel q hq hi hql).symm.trans hfq⟩
  · rw [List.length_cons] at hql
    refine .inr ((h.owned p f (by omega) hfq).resolve_left ?_)
    rintro ⟨hlen, -⟩
    omega

omit hs in
theorem Owns.writes (h : Owns m₀ m' own) (hw : TableWrites m m') : Writes m₀ own m m' := by
  intro f hf hown
  refine hw.rest f fun ht => ?_
  rcases h.table_cases ht with hk | ⟨t, ht, he⟩
  · exact hf hk
  · exact hown t ht he

variable (h : Owns m₀ m own)
include h

omit hs in
theorem Owns.bounds (hc : m.calls ≤ m₀.calls + n) {t : Nat} (ht : own t) :
    m₀.calls ≤ t ∧ t < m₀.calls + n := ⟨(h.taken t ht).1, (h.taken t ht).2.trans_le hc⟩

theorem Owns.supply (hm : Later m₀ n m) : Supply m (m₀.calls + n - m.calls) := by
  have hcalls := hm.calls
  have hin {t : Nat} (ht : t < m₀.calls + n - m.calls) :
      m₀.calls ≤ m.calls + t ∧ m.calls + t < m₀.calls + n := by omega
  refine ⟨⟨fun t ht => ?_, fun t ht => ?_, fun s _ hst ht he => ?_, fun _ ht q hq hql hf => ?_⟩, ?_,
    fun t ht => ?_⟩
  · rw [hm.frames]
    exact hs.toSupply.frame_aligned (hin ht).1 (hin ht).2
  · have hnonzero := hs.nonzero (m.calls + t - m₀.calls) (by omega)
    change m₀.frames (m₀.calls + _) ≠ 0 at hnonzero
    rwa [Nat.add_sub_cancel' (hin ht).1, ← hm.frames] at hnonzero
  · rw [hm.frames] at he
    have := hs.inj (hin (hst.trans ht)).1 (hin ht).1 (hin (hst.trans ht)).2 (hin ht).2 he
    omega
  · rw [hm.frames] at hf
    rcases h.table_cases ⟨q, hq, hql, hf⟩ with hk | ⟨s, hs', he⟩
    · exact hs.user (hin ht).1 (hin ht).2 hk
    · have hb := h.bounds hm.calls.2 hs'
      have := hs.inj hb.1 (hin ht).1 hb.2 (hin ht).2 he
      have := (h.taken s hs').2
      omega
  · rw [hm.zeroPage]
    exact hs.zeroAligned
  · rw [hm.frames, hm.zeroPage]
    exact hs.zero (hin ht).1 (hin ht).2

variable (hc : m.calls ≤ m₀.calls + n)
include hc

theorem Owns.zero_notTable : ¬ IsTable m m₀.zeroPage := fun hz => by
  rcases h.table_cases hz with hk | ⟨t, ht, he⟩
  · exact hs.zeroNoTable hk
  · exact hs.zero (h.bounds hc ht).1 (h.bounds hc ht).2 he

theorem Owns.next_notTable {t : Nat} (ht : m.calls ≤ t) (htn : t < m₀.calls + n)
    (h0 : m₀.calls ≤ t) : ¬ IsTable m (m₀.frames t) := fun hf => by
  rcases h.table_cases hf with hk | ⟨s, hs', he⟩
  · exact hs.user h0 htn hk
  · have hb := h.bounds hc hs'
    obtain rfl := hs.inj hb.1 h0 hb.2 htn he
    have := (h.taken s hs').2
    omega

theorem Owns.page_notTable (ha : UserPage a) (hf : tableAt m (indices a) = some f) :
    ¬ IsTable m f := by
  obtain ⟨p, hp, hpath⟩ := ha.path
  rw [hpath] at hf
  rintro ⟨q, hq, hql, hfq⟩
  rcases h.owned p f hp.le hf with ⟨-, rfl⟩ | ⟨t, ht, rfl⟩
  · exact h.zero_notTable hs hc ⟨q, hq, hql, hfq⟩
  · have hb := h.bounds hc ht
    rcases away_or_cons userIndex q with hi | ⟨r, rfl⟩
    · exact hs.user hb.1 hb.2 ⟨q, hq, hql, (h.kernel q hq hi hql).symm.trans hfq⟩
    · have hr : r.length + 1 ≤ 3 := hql
      obtain rfl := h.once p r _ hp.le (by omega) hf hfq (hs.zero hb.1 hb.2)
      omega

omit hs hc in
theorem Owns.page_unique (ha : UserPage a) (hv : UserPage v) (hfa : tableAt m (indices a) = some f)
    (hfv : tableAt m (indices v) = some f) (hz : f ≠ m₀.zeroPage) : a >>> 12 = v >>> 12 := by
  obtain ⟨p, hp, hpa⟩ := ha.path
  obtain ⟨q, hq, hqv⟩ := hv.path
  rw [hpa] at hfa
  rw [hqv] at hfv
  obtain rfl := h.once p q f hp.le hq.le hfa hfv hz
  exact page_of_indices ha.canonical hv.canonical (hpa.trans hqv.symm)

end owns

theorem FreshFrames.fetched {m : Machine} {c k : Nat} (h : FreshFrames m (c + k)) :
    FreshFrames (m.fetched c) k := by
  have hframe (t : Nat) :
      (m.fetched c).frames ((m.fetched c).calls + t) = m.frames (m.calls + (c + t)) := by
    rw [← Nat.add_assoc]
    rfl
  refine ⟨fun t ht => ?_, fun t ht => ?_, fun s t hst ht => ?_, fun t ht q hq hql => ?_⟩
  · rw [hframe]
    exact h.aligned _ (by omega)
  · rw [hframe]
    exact h.nonzero _ (by omega)
  · rw [hframe, hframe]
    exact h.distinct _ _ (by omega) (by omega)
  · rw [hframe]
    exact h.unused _ (by omega) q hq hql

def taking (own : Nat → Prop) (m m' : Machine) (t : Nat) : Prop :=
  own t ∨ m.calls ≤ t ∧ t < m'.calls

section mapped
variable {m₀ m m' : Machine} {n c : Nat} {own : Nat → Prop} {v e : Word} {q : List Index}
  (hs : ClearSupply (m₀.loaded 0) n) (hm : Later m₀ n m) (h : Owns m₀ m own) (hv : UserPage v)
  (hmap : Mapped (m.fetched c) m' v e) (hcount : m.calls + c + (3 - depth m v) ≤ m₀.calls + n)
  (he : present e = true)
include hs hm h hmap hcount he

theorem Owns.tableAt_mapped (hq : Outside q) (hql : q.length ≤ 4) : tableAt m' q =
    if q = indices v then some (frameOf e)
    else if depth m v < q.length ∧ q = (indices v).take q.length then
      some (m₀.frames (m.calls + c + (q.length - 1 - depth m v))) else tableAt m q := by
  have hfresh : FreshFrames (m.fetched c) (3 - depth (m.fetched c) v) :=
    ((h.supply hs hm).toFreshFrames.mono (by rw [depth_fetched]; omega)).fetched
  rw [hmap.tableAt_full hfresh he hq hql, depth_fetched, tableAt_fetched, ← hm.frames]
  rfl

theorem Owns.origin (hframe : frameOf e = m₀.zeroPage ∨ 0 < c ∧ frameOf e = m₀.frames m.calls)
    {p : List Index} {f : Word} (hp : p.length ≤ 3) (hf : tableAt m' (userIndex :: p) = some f)
    (hz : f ≠ m₀.zeroPage) : ∃ t, m₀.frames t = f ∧ m₀.calls ≤ t ∧ t < m'.calls ∧
      (own t ∧ t < m.calls ∧ tableAt m (userIndex :: p) = some f ∨
        t = m.calls ∧ 0 < c ∧ userIndex :: p = indices v ∨
        t = m.calls + c + (p.length - depth m v) ∧ depth m v ≤ p.length ∧
          userIndex :: p = (indices v).take (p.length + 1)) := by
  have hcalls : m'.calls = m.calls + c + (3 - depth m v) := hmap.calls
  have hlater := hm.calls
  rw [h.tableAt_mapped hs hm hmap hcount he (user_outside p) (Nat.succ_le_succ hp)] at hf
  by_cases hpath : userIndex :: p = indices v
  · rw [if_pos hpath] at hf
    obtain rfl := Option.some.inj hf
    obtain ⟨hc, hfe⟩ := hframe.resolve_left hz
    exact ⟨m.calls, hfe.symm, by omega, by omega, .inr (.inl ⟨rfl, hc, hpath⟩)⟩
  · rw [if_neg hpath] at hf
    split at hf
    · rename_i hnew
      obtain ⟨hdepth, htake⟩ := hnew
      rw [List.length_cons] at hdepth htake
      have hlen : p.length ≠ 3 := fun h3 => hpath (by rw [htake, h3]; rfl)
      have hindex : m.calls + c + ((userIndex :: p).length - 1 - depth m v) =
          m.calls + c + (p.length - depth m v) := rfl
      rw [hindex] at hf
      exact ⟨_, Option.some.inj hf, by omega, by omega, .inr (.inr ⟨rfl, by omega, htake⟩)⟩
    · obtain ⟨t, ht, he⟩ := (h.owned p f hp hf).resolve_left fun hc => hz hc.2
      have := h.taken t ht
      exact ⟨t, he, this.1, by omega, .inl ⟨ht, this.2, hf⟩⟩

include hv

theorem Owns.mapped (hframe : frameOf e = m₀.zeroPage ∨ 0 < c ∧ frameOf e = m₀.frames m.calls) :
    Owns m₀ m' (taking own m m') := by
  have hcalls : m'.calls = m.calls + c + (3 - depth m v) := hmap.calls
  have hlater := hm.calls
  have hhead {q : List Index} {k : Nat} (hq : Away userIndex q) (hpos : 0 < q.length) :
      q ≠ (indices v).take (k + 1) := fun heq => by
    rw [heq, indices, List.take_succ_cons, hv.slot] at hq
    exact away_cons.mp hq rfl
  refine ⟨hmap.wf, fun q hq hi hql => ?_, fun q f hql hf => ?_, fun p q f hpl hql hfp hfq hz => ?_,
    fun t ht => ?_⟩
  · rw [h.tableAt_mapped hs hm hmap hcount he hq (by omega), ← h.kernel q hq hi hql, if_neg, if_neg]
    · rintro ⟨hdepth, htake⟩
      obtain ⟨k, hk⟩ : ∃ k, q.length = k + 1 := ⟨q.length - 1, by omega⟩
      exact hhead hi (by omega) (hk ▸ htake)
    · rintro rfl
      exact hhead (k := 3) hi (Nat.succ_pos 3) rfl
  · by_cases hz : f = m₀.zeroPage
    · refine .inl ⟨?_, hz⟩
      by_contra hlen
      rw [h.tableAt_mapped hs hm hmap hcount he (user_outside q) (Nat.succ_le_succ hql), if_neg] at hf
      · split at hf
        · rename_i hnew
          obtain ⟨hdepth, -⟩ := hnew
          have hindex := Option.some.inj hf
          rw [List.length_cons] at hdepth hindex
          exact hs.zero (by omega) (by omega) (hindex.trans hz)
        · rcases h.owned q f hql hf with ⟨hlen', -⟩ | ⟨t, ht, he⟩
          · exact hlen hlen'
          · exact hs.zero (h.bounds hm.calls.2 ht).1 (h.bounds hm.calls.2 ht).2 (he.trans hz)
      · intro heq
        have := congrArg List.length heq
        exact hlen (Nat.succ.inj this)
    · obtain ⟨t, hft, -, hlt, hcase⟩ := h.origin hs hm hmap hcount he hframe hql hf hz
      refine .inr ⟨t, ?_, hft⟩
      rcases hcase with ⟨ht, -, -⟩ | ⟨rfl, -, -⟩ | ⟨rfl, -, -⟩
      · exact .inl ht
      · exact .inr ⟨le_rfl, hlt⟩
      · exact .inr ⟨by omega, hlt⟩
  · obtain ⟨s, hfs, hs0, hsn, hcs⟩ := h.origin hs hm hmap hcount he hframe hpl hfp hz
    obtain ⟨t, hft, ht0, htn, hct⟩ := h.origin hs hm hmap hcount he hframe hql hfq hz
    obtain rfl : s = t := hs.inj hs0 ht0 (by omega) (by omega) (hfs.trans hft.symm)
    rcases hcs with ⟨-, hlt, hold⟩ | ⟨hst, hc, hpath⟩ | ⟨hst, hdepth, htake⟩ <;>
      rcases hct with ⟨-, hlt', hold'⟩ | ⟨hst', hc', hpath'⟩ | ⟨hst', hdepth', htake'⟩
    · exact h.once p q f hpl hql hold hold' hz
    · omega
    · omega
    · omega
    · exact (List.cons.inj (hpath.trans hpath'.symm)).2
    · omega
    · omega
    · omega
    · have hlen : p.length = q.length := by omega
      rw [← hlen] at htake'
      exact (List.cons.inj (htake.trans htake'.symm)).2
  · rcases ht with ht | ht
    · have := h.taken t ht
      omega
    · omega

omit h hv he in
theorem Later.mapped (h' : Owns m₀ m' own) (hwrites : TableWrites m m') : Later m₀ n m' := by
  have hcalls : m'.calls = m.calls + c + (3 - depth m v) := hmap.calls
  have hlater := hm.calls
  have hc : m'.calls ≤ m₀.calls + n := by omega
  refine ⟨hmap.cr3.trans hm.cr3, hmap.zeroPage.trans hm.zeroPage, hmap.frames.trans hm.frames,
    ⟨by omega, hc⟩, fun i => ?_, fun t ht htn i => ?_⟩
  · rw [hwrites.rest _ (h'.zero_notTable hs hc), hm.zeroClear]
  · rw [hwrites.rest _ (h'.next_notTable hs hc ht htn (by omega)),
      hm.framesClear t (by omega) htn]

end mapped

theorem walk_eq_some {m : Machine} {a f : Word} {i : Index} :
    walk m a = some (f, i) ↔ canonical a ∧ tableAt m (indices a) = some f ∧ i = index a 3 := by
  rw [walk]
  by_cases hc : canonical a
  · rw [if_pos hc]
    simp [hc, eq_comm]
  · simp [hc]

theorem RangeEntry.congr {m m' : Machine} {flags e : Word} (h : RangeEntry m flags e)
    (hz : m'.zeroPage = m.zeroPage) : RangeEntry m' flags e := by
  obtain ⟨p, hp, hcase⟩ := h
  exact ⟨p, hp, hz ▸ hcase⟩

theorem mapRange_page {m : Machine} {v flags : Word} (hlazy : flags &&& mapImmediate = 0)
    (fuel : Nat) :
    mapRange (fuel + 2) v 0x1000 flags m = mapPage v m.zeroPage (convertFlags flags) m := by
  have hget : (get : Kernel Machine) m = .ok m m := rfl
  have hfirst : mapLoop v 0x1000 flags (convertFlags flags) (fuel + 2) 0 m.zeroPage = (do
      mapPage v m.zeroPage (convertFlags flags)
      pure () : Kernel Unit) := by
    rw [mapLoop, if_pos (by decide), if_neg (not_not.mpr hlazy)]
    have hadd : v + 0 = v := BitVec.add_zero v
    rw [pure_bind, hadd]
    rfl
  rw [mapRange, bind_ok hget, hfirst, bind_pure]

theorem countP_lt {α : Type} {p q : α → Bool} {l : List α} (h : ∀ x ∈ l, p x = true → q x = true)
    {x : α} (hx : x ∈ l) (hq : q x = true) (hp : p x = false) : l.countP p < l.countP q := by
  induction l with
  | nil => exact absurd hx List.not_mem_nil
  | cons y l ih =>
    have hrest : ∀ x ∈ l, p x = true → q x = true := fun x hx => h x (List.mem_cons_of_mem y hx)
    rcases List.mem_cons.mp hx with rfl | hx
    · rw [List.countP_cons_of_pos hq, List.countP_cons_of_neg (by simp [hp])]
      exact Nat.lt_succ_of_le (List.countP_mono_left hrest)
    · have hlt := ih hrest hx
      have hy := h y List.mem_cons_self
      rw [List.countP_cons, List.countP_cons]
      by_cases hpy : p y = true
      · rw [if_pos hpy, if_pos (hy hpy)]
        omega
      · rw [if_neg hpy]
        omega

section space
variable {m₀ m m' : Machine} {n c : Nat} {own : Nat → Prop} {v e flags : Word}
  {pages pages' : List Word} {memory : Word → Byte} (hs : ClearSupply (m₀.loaded 0) n)
  (hm : Later m₀ n m) (h : Space m₀ m flags pages memory own) (hpages : ∀ w ∈ pages, UserPage w)
include hs hm h hpages

theorem Space.mapped (hv : UserPage v) (hmap : Mapped (m.fetched c) m' v e)
    (hcount : m.calls + c + (3 - depth m v) ≤ m₀.calls + n) (hwrites : TableWrites m m')
    (he : present e = true)
    (hframe : frameOf e = m₀.zeroPage ∨ 0 < c ∧ frameOf e = m₀.frames m.calls)
    {x : Word} (hview : view e = some x) (hentry : RangeEntry m flags x)
    (hnew : ∀ a : Word, a >>> 12 = v >>> 12 → byteOf (m'.mem (frameOf e) (index a 3)) a = memory a)
    (hsub : ∀ w ∈ pages', w = v ∨ w ∈ pages) :
    Space m₀ m' flags pages' memory (taking own m m') ∧ Later m₀ n m' := by
  have howns : Owns m₀ m' (taking own m m') := h.toOwns.mapped hs hm hv hmap hcount he hframe
  have hlater : Later m₀ n m' := hm.mapped hs hmap hcount howns hwrites
  refine ⟨⟨howns, fun w hw => ?_, fun w hw a f i ha hwalk => ?_⟩, hlater⟩
  · have huser : UserPage w := (hsub w hw).elim (fun hwv => hwv ▸ hv) fun hw => hpages w hw
    rw [hmap.leaf_eq huser.outside]
    by_cases hpath : indices w = indices v
    · rw [if_pos hpath]
      exact ⟨x, hview, hentry.congr hmap.zeroPage⟩
    · rw [if_neg hpath]
      obtain ⟨e', he', hentry'⟩ := h.leaves w ((hsub w hw).resolve_left fun hwv => hpath (hwv ▸ rfl))
      exact ⟨e', he', hentry'.congr hmap.zeroPage⟩
  · have huser : UserPage w := (hsub w hw).elim (fun hwv => hwv ▸ hv) fun hw => hpages w hw
    obtain ⟨hpath, hauser⟩ := huser.congr ha
    obtain ⟨hcan, htable, rfl⟩ := walk_eq_some.mp hwalk
    have hnot : ¬ IsTable m' f := howns.page_notTable hs hlater.calls.2 hauser htable
    rw [h.toOwns.tableAt_mapped hs hm hmap hcount he hauser.path_outside le_rfl] at htable
    by_cases hav : indices a = indices v
    · rw [if_pos hav] at htable
      obtain rfl := Option.some.inj htable
      exact hnew a (page_of_indices hcan hv.canonical hav)
    · rw [if_neg hav, if_neg fun hc => hav hc.2] at htable
      rw [hwrites.rest f hnot]
      have hwpages : w ∈ pages := (hsub w hw).resolve_left fun hwv => hav (hwv ▸ hpath)
      exact h.contents w hwpages a f _ ha (walk_eq_some.mpr ⟨hcan, htable, rfl⟩)

theorem Space.map (fuel : Nat) (hv : UserPage v) (haligned : v % 4096 = 0)
    (hcount : m.calls + (3 - depth m v) ≤ m₀.calls + n) (hlazy : flags &&& mapImmediate = 0)
    (hnew : ∀ w ∈ pages, indices w ≠ indices v)
    (hzero : ∀ a : Word, a >>> 12 = v >>> 12 → memory a = 0) :
    ∃ m', mapRange (fuel + 2) v 0x1000 flags m = .ok () m' ∧
      Space m₀ m' flags (v :: pages) memory (taking own m m') ∧ Later m₀ n m' ∧
      Writes m₀ (taking own m m') m m' ∧ m'.calls = m.calls + (3 - depth m v) ∧
      idle m' (v :: pages) ≤ idle m pages + 1 := by
  have halign : Aligned m.zeroPage := hm.zeroPage ▸ hs.zeroAligned
  have hfresh : FreshFrames m (3 - depth m v) :=
    (h.toOwns.supply hs hm).toFreshFrames.mono (by omega)
  have hpresent : present (m.zeroPage ||| convertFlags flags) = true := by
    rw [present_or, present_convertFlags, Bool.or_true]
  obtain ⟨m', hrun, hmap, hwrites⟩ :=
    mapPage_writes hv.outside hpresent hfresh h.wf haligned halign.1
  have hframe : frameOf (m.zeroPage ||| convertFlags flags) = m₀.zeroPage :=
    (frameOf_or_aligned halign (frameOf_convertFlags flags)).trans hm.zeroPage
  have howns : Owns m₀ m' (taking own m m') :=
    h.toOwns.mapped hs hm hv (c := 0) hmap (by omega) hpresent (.inl hframe)
  have hlater : Later m₀ n m' := hm.mapped hs (c := 0) hmap (by omega) howns hwrites
  have hspace : Space m₀ m' flags (v :: pages) memory (taking own m m') ∧ Later m₀ n m' :=
    h.mapped hs hm hpages (c := 0) hv hmap (by omega) hwrites hpresent (.inl hframe)
      (view_or halign (convertFlags_refcount flags) (present_convertFlags flags))
      ⟨_, halign, .inl ⟨rfl, iff_of_true rfl hlazy⟩⟩
      (fun a ha => by rw [hframe, hlater.zeroClear, hzero a ha, byteOf_zero])
      fun w hw => List.mem_cons.mp hw
  have hidle : idle m' pages = idle m pages := by
    refine List.countP_congr fun w hw => ?_
    rw [h.toOwns.tableAt_mapped hs hm (c := 0) hmap (by omega) hpresent
      (hpages w hw).path_outside le_rfl, if_neg (hnew w hw), if_neg fun hc => hnew w hw hc.2, hlater.zeroPage, hm.zeroPage]
  have hcons : idle m' (v :: pages) ≤ idle m' pages + 1 := by
    rw [idle, List.countP_cons]
    split <;> simp [idle]
  exact ⟨m', (mapRange_page hlazy fuel).trans hrun, hspace.1, hlater, howns.writes hwrites, hmap.calls,
    hidle ▸ hcons⟩

omit hs hm in
theorem Space.page {a : Word} (ha : OnPage pages a) : UserPage a ∧ ∃ e, leaf m a = some e ∧
    RangeEntry m flags e ∧ tableAt m (indices a) = some (frameOf e) ∧
      walk m a = some (frameOf e, index a 3) := by
  obtain ⟨w, hw, hpage⟩ := ha
  obtain ⟨hpath, huser⟩ := (hpages w hw).congr hpage
  obtain ⟨e, he, hentry⟩ := h.leaves w hw
  have hleaf : leaf m a = some e := (leaf_congr m hpath).trans he
  have htable : tableAt m (indices a) = some (frameOf e) := by
    rw [tableAt_leaf, hleaf]
    rfl
  exact ⟨huser, e, hleaf, hentry, htable, walk_eq_some.mpr ⟨huser.canonical, htable, rfl⟩⟩

omit hs hm in
theorem Space.load {a : Word} (ha : OnPage pages a) : loadByte a m = .ok (memory a) m := by
  obtain ⟨-, e, -, -, -, hwalk⟩ := h.page hpages ha
  have hload : Pages.load a m = .ok (m.mem (frameOf e) (index a 3)) m := by rw [Pages.load, hwalk]
  obtain ⟨w, hw, hpage⟩ := ha
  rw [loadByte, bind_ok hload, ← h.contents w hw a _ _ hpage hwalk]
  rfl

end space

section store
variable {m₀ m : Machine} {n : Nat} {own : Nat → Prop} {f : Word} (i : Index) (x : Word)

theorem Owns.store (h : Owns m₀ m own) (hf : ¬ IsTable m f) :
    Owns m₀ (m.withMem (RadixTree.store m.mem f i x)) own := by
  have hno (q : List Index) (hq : Outside q) (hql : q.length ≤ 3) : tableAt m q ≠ some f :=
    fun hfq => hf ⟨q, hq, hql, hfq⟩
  have htable {q : List Index} (hq : Outside q) (hql : q.length ≤ 4) :
      tableAt (m.withMem (RadixTree.store m.mem f i x)) q = tableAt m q := tableAt_store hf i x hq hql
  have huser {q : List Index} (hql : q.length ≤ 3) :
      tableAt (m.withMem (RadixTree.store m.mem f i x)) (userIndex :: q) = tableAt m (userIndex :: q) :=
    htable (user_outside q) (Nat.succ_le_succ hql)
  exact {
    wf := ⟨h.wf.tree.fill hno, h.wf.counted.fill hno⟩
    kernel := fun q hq hi hql => (htable hq (by omega)).trans (h.kernel q hq hi hql)
    owned := fun q g hql hg => h.owned q g hql ((huser hql).symm.trans hg)
    once := fun p q g hpl hql hp hq hz =>
      h.once p q g hpl hql ((huser hpl).symm.trans hp) ((huser hql).symm.trans hq) hz
    taken := h.taken }

end store

section accesses
variable {m₀ m : Machine} {n left : Nat} {own : Nat → Prop} {a e flags : Word} {pages : List Word}
  {memory : Word → Byte} (hs : ClearSupply (m₀.loaded 0) n) (hm : Later m₀ n m)
  (h : Space m₀ m flags pages memory own) (hpages : ∀ w ∈ pages, UserPage w)
  (ha : OnPage pages a) (he : leaf m a = some e)
include hs hm h hpages ha he

theorem Space.store (left : Nat) (hz : frameOf e ≠ m₀.zeroPage) (x : Byte) :
    ∃ m', storeByte a x m = .ok () m' ∧
    Space m₀ m' flags pages (Function.update memory a x) own ∧
      Serves m₀ n own own m m' left left ∧ idle m' pages = idle m pages := by
  obtain ⟨huser, e', he', -, htable, hwalk⟩ := h.page hpages ha
  obtain rfl : e = e' := Option.some.inj (he.symm.trans he')
  have hnot : ¬ IsTable m (frameOf e) := h.toOwns.page_notTable hs hm.calls.2 huser htable
  obtain ⟨p, hp, hpath⟩ := huser.path
  obtain ⟨t, ht, hft⟩ := (h.owned p _ hp.le (hpath ▸ htable)).resolve_left fun hc => hz hc.2
  have hb := h.toOwns.bounds hm.calls.2 ht
  have hload : Pages.load a m = .ok (m.mem (frameOf e) (index a 3)) m := by rw [Pages.load, hwalk]
  have hrest (g : Word) (hg : g ≠ frameOf e) (y : Word) :
      RadixTree.store m.mem (frameOf e) (index a 3) y g = m.mem g := store_of_frame_ne hg
  have hroot : m₀.cr3 ≠ frameOf e := fun heq =>
    hnot ⟨[], away_nil, Nat.zero_le _, by rw [← heq, ← hm.cr3]; rfl⟩
  refine ⟨m.withMem (RadixTree.store m.mem (frameOf e) (index a 3)
    (withByte (m.mem (frameOf e) (index a 3)) a x)), ?_, ⟨h.toOwns.store _ _ hnot, fun w hw => ?_,
      fun w hw b g j hbw hwb => ?_⟩, ⟨⟨hm.cr3, hm.zeroPage, hm.frames, hm.calls, fun i => ?_,
        fun s hs1 hsn i => ?_⟩, fun g _ hg => hrest g (fun heq => hg t ht (hft.trans heq.symm)) _,
          fun _ hs => hs, fun _ hs => .inl hs, congrFun (hrest _ hroot _) _, rfl, le_rfl⟩, ?_⟩
  · rw [storeByte, bind_ok hload, Pages.store, hwalk]
  · obtain ⟨e', he', hentry⟩ := h.leaves w hw
    have hno (q : List Index) (hq : Outside q) (hql : q.length ≤ 3) : tableAt m q ≠ some (frameOf e) :=
      fun hfq => hnot ⟨q, hq, hql, hfq⟩
    exact ⟨e', (look_fill hno (outside_take (hpages w hw).outside 3) (length_take_le le_rfl)).trans he',
      hentry⟩
  · obtain ⟨hbuser, eb, -, -, htableb, hwalkb⟩ := h.page hpages ⟨w, hw, hbw⟩
    have hsame : walk (m.withMem (RadixTree.store m.mem (frameOf e) (index a 3)
        (withByte (m.mem (frameOf e) (index a 3)) a x))) b = walk m b := by
      rw [walk, walk, tableAt_store hnot _ _ hbuser.path_outside le_rfl]
    rw [hsame] at hwb
    have hold := h.contents w hw b g j hbw hwb
    obtain ⟨rfl, rfl⟩ := Prod.mk.inj (Option.some.inj (hwb.symm.trans hwalkb))
    by_cases hab : b = a
    · subst hab
      obtain ⟨hee, -⟩ := Prod.mk.inj (Option.some.inj (hwalkb.symm.trans hwalk))
      rw [Function.update_self, hee, Machine.withMem_mem, store_same, byteOf_withByte rfl]
    · rw [Function.update_of_ne hab, ← hold, Machine.withMem_mem]
      by_cases hword : frameOf eb = frameOf e ∧ index b 3 = index a 3
      · have hpage := h.toOwns.page_unique hbuser huser htableb (hword.1 ▸ htable) (hword.1 ▸ hz)
        rw [hword.1, hword.2, store_same, byteOf_withByte_other]
        exact fun hbyte => hab (address_ext hpage hword.2 hbyte.symm)
      · rw [store_of_ne hword]
  · exact (congrFun (hrest _ hz.symm _) i).trans (hm.zeroClear i)
  · have hne : m₀.frames s ≠ frameOf e := fun heq => by
      have hnext : m.calls ≤ s := hs1
      obtain rfl := hs.inj hb.1 (hm.calls.1.trans hnext) hb.2 hsn (hft.trans heq.symm)
      exact absurd (h.taken t ht).2 (Nat.not_lt.mpr hnext)
    exact (congrFun (hrest _ hne _) i).trans (hm.framesClear s hs1 hsn i)
  · refine List.countP_congr fun w hw => ?_
    rw [tableAt_store hnot _ _ (hpages w hw).path_outside le_rfl]
    rfl

theorem Space.fault {errorCode : Word} (hlazy : e &&& pgLazy ≠ 0)
    (hcode : errorCode &&& pfProtViolation ≠ 0 ∧ errorCode &&& pfWrite ≠ 0)
    (hidle : idle m pages ≤ left) (hbudget : m.calls + left ≤ m₀.calls + n) :
    ∃ m' own' left' e', pageFaultHandler a errorCode m = .ok () m' ∧
      Space m₀ m' flags pages memory own' ∧ Serves m₀ n own own' m m' left left' ∧
      idle m' pages ≤ left' ∧ leaf m' a = some e' ∧ e' &&& pgRw ≠ 0 ∧ frameOf e' ≠ m₀.zeroPage := by
  obtain ⟨huser, e', he', hentry, htable, hwalk⟩ := h.page hpages ha
  obtain rfl : e = e' := Option.some.inj (he.symm.trans he')
  obtain ⟨rfl, hflags⟩ := hentry.of_lazy hlazy
  have halign : Aligned m.zeroPage := hm.zeroPage ▸ hs.zeroAligned
  rw [frameOf_or_aligned halign (frameOf_convertFlags flags)] at htable hwalk
  obtain ⟨w, hw, hpage⟩ := id ha
  obtain ⟨hpath, -⟩ := (hpages w hw).congr hpage
  have hpos : 0 < idle m pages :=
    List.countP_pos_iff.mpr ⟨w, hw, decide_eq_true (hpath ▸ htable)⟩
  have hlater := hm.calls
  obtain ⟨hd, pt, hpt, hview⟩ := leaf_cases he
  have hbit : m.mem pt (slot a 3) &&& pgLazy ≠ 0 := by
    rw [and_of_view hview (by decide)]
    exact hlazy
  obtain ⟨m', hrun, hmap, hwrites, hmem⟩ := pageFaultHandler_grants h.wf huser.outside hd hpt hcode hbit
  have hframe : Aligned (m.frames m.calls) := hm.frames ▸ hs.toSupply.frame_aligned hlater.1 (by
    change m.calls < m₀.calls + n
    omega)
  have hzero : m.frames m.calls ≠ m₀.zeroPage := hm.frames ▸ hs.zero hlater.1 (by omega)
  have hnew := view_granted hframe halign hview
  generalize m.frames m.calls ||| (m.mem pt (slot a 3) &&& ~~~(physAddrMask ||| pgLazy) ||| pgRw) = e
    at hmap hmem hnew
  have hfe : frameOf e = m.frames m.calls :=
    (and_of_view hnew (by decide)).trans (frameOf_or_aligned hframe (frameOf_grantedFlags flags))
  have hcount : m.calls + 1 + (3 - depth m a) ≤ m₀.calls + n := by omega
  have hcalls : m'.calls = m.calls + 1 := by
    have := hmap.calls
    rw [depth_fetched, hd] at this
    exact this
  have hpresent := present_of_view hnew
  have hown : frameOf e = m₀.zeroPage ∨ 0 < 1 ∧ frameOf e = m₀.frames m.calls :=
    .inr ⟨Nat.one_pos, hfe.trans (congrFun hm.frames _)⟩
  have howns := h.toOwns.mapped hs hm huser hmap hcount hpresent hown
  have htable' {q : List Index} (hq : Outside q) (hql : q.length ≤ 4) : tableAt m' q =
      if q = indices a then some (m.frames m.calls) else tableAt m q := by
    rw [h.toOwns.tableAt_mapped hs hm hmap hcount hpresent hq hql, hfe, if_neg (c := _ ∧ _)]
    omega
  have hself : tableAt m' (indices a) = some (m.frames m.calls) := by
    rw [htable' huser.path_outside le_rfl, if_pos rfl]
  have hnot := howns.page_notTable hs (by omega) huser hself
  have hclear (b : Word) (hb : b >>> 12 = a >>> 12) :
      byteOf (m'.mem (frameOf e) (index b 3)) b = memory b := by
    obtain ⟨hpathb, hbuser⟩ := huser.congr hb
    have hwalkb : walk m b = some (m.zeroPage, index b 3) :=
      walk_eq_some.mpr ⟨hbuser.canonical, hpathb ▸ htable, rfl⟩
    have hold := h.contents w hw b _ _ (hb.trans hpage) hwalkb
    rw [hm.zeroPage, hm.zeroClear] at hold
    rw [hfe, hwrites.rest _ hnot, congrFun hm.frames, hm.framesClear _ le_rfl (by omega), hold]
  obtain ⟨hspace, hlater'⟩ : Space m₀ m' flags pages memory (taking own m m') ∧ Later m₀ n m' :=
    h.mapped hs hm hpages huser hmap hcount hwrites hpresent hown hnew
      ⟨_, hframe, .inr ⟨hflags, rfl, hm.zeroPage ▸ hzero⟩⟩ hclear fun _ hw => .inr hw
  have hidle' : idle m' pages < idle m pages := by
    refine countP_lt (fun u hu hp => ?_) hw (decide_eq_true (hpath ▸ htable)) (decide_eq_false ?_)
    · have hz := of_decide_eq_true hp
      rw [htable' (hpages u hu).path_outside le_rfl, hlater'.zeroPage, ← hm.zeroPage] at hz
      split at hz
      · exact absurd ((Option.some.inj hz).trans hm.zeroPage) hzero
      · exact decide_eq_true hz
    · rw [← hpath, hself, hlater'.zeroPage]
      exact fun hz => hzero (Option.some.inj hz)
  refine ⟨m', _, left - 1, m.frames m.calls ||| grantedFlags flags, hrun, hspace,
    ⟨hlater', howns.writes hwrites, fun _ ht => .inl ht, fun _ ht => ht.imp_right fun ht => ht.1, ?_, by omega, by omega⟩, by omega, ?_, ?_, ?_⟩
  · have hne : m₀.cr3 ≠ pt := fun heq =>
      h.wf.tree.ne_root (outside_take huser.outside 3) (length_take_le le_rfl)
        (List.ne_nil_of_length_pos (by rw [length_take (by decide)]; decide)) hpt
        (heq.symm.trans hm.cr3.symm)
    rw [hmem, store_of_frame_ne hne]
  · rw [hmap.leaf_eq huser.outside, if_pos rfl, hnew]
  · rw [grantedFlags, ← BitVec.or_assoc, BitVec.and_or_distrib_right]
    exact fun h0 => absurd (BitVec.or_eq_zero_iff.mp h0).2 (by decide)
  · rw [frameOf_or_aligned hframe (frameOf_grantedFlags flags)]
    exact hzero

omit he in
theorem Space.storeAccess {errorCode : Word} (hrw : flags &&& mapRw ≠ 0)
    (hcode : errorCode &&& pfProtViolation ≠ 0 ∧ errorCode &&& pfWrite ≠ 0)
    (hidle : idle m pages ≤ left) (hbudget : m.calls + left ≤ m₀.calls + n) (x : Byte) :
    ∃ m' own' left', storeAccess a x errorCode m = .ok () m' ∧
      Space m₀ m' flags pages (Function.update memory a x) own' ∧
        Serves m₀ n own own' m m' left left' ∧ idle m' pages ≤ left' := by
  obtain ⟨-, e, he, hentry, -, -⟩ := h.page hpages ha
  have hget {m' : Machine} : (get : Kernel Machine) m' = .ok m' m' := rfl
  have hwritable {m' : Machine} {e' : Word} (he' : leaf m' a = some e') :
      writable m' a = (e' &&& pgRw != 0) := by
    rw [writable, he']
    rfl
  rcases hentry.rw_cases hrw with ⟨hbit, hpriv⟩ | ⟨hbit, hlazy⟩
  · obtain ⟨m', hstore, hspace, hserves, hsame⟩ :=
      h.store hs hm hpages ha he left (hm.zeroPage ▸ hpriv) x
    refine ⟨m', own, left, ?_, hspace, hserves, hsame.trans_le hidle⟩
    rw [Pages.storeAccess, bind_ok hget, hwritable he, if_pos (by simpa using hbit), hstore]
  · obtain ⟨m1, own1, left1, e1, hfault, hspace, hserves, hidle1, he1, hbit1, hpriv⟩ :=
      h.fault hs hm hpages ha he hlazy hcode hidle hbudget
    obtain ⟨m', hstore, hspace', hserves', hsame⟩ :=
      hspace.store hs hserves.later hpages ha he1 left1 hpriv x
    refine ⟨m', own1, left1, ?_, hspace', hserves.trans hserves', hsame.trans_le hidle1⟩
    rw [Pages.storeAccess, bind_ok hget, hwritable he, if_neg (by simp [hbit]), bind_ok hfault,
      bind_ok hget, hwritable he1, if_pos (by simpa using hbit1), hstore]

end accesses

def Access.On (pages : List Word) : Access → Prop
  | .load address => OnPage pages address
  | .store address _ errorCode => OnPage pages address ∧
    errorCode &&& pfProtViolation ≠ 0 ∧ errorCode &&& pfWrite ≠ 0

theorem Space.perform {m₀ m : Machine} {n left : Nat} {own : Nat → Prop} {flags : Word}
    {pages : List Word} {memory : Word → Byte} (hs : ClearSupply (m₀.loaded 0) n)
    (hm : Later m₀ n m) (h : Space m₀ m flags pages memory own) (hpages : ∀ w ∈ pages, UserPage w)
    (hrw : flags &&& mapRw ≠ 0) (hidle : idle m pages ≤ left)
    (hbudget : m.calls + left ≤ m₀.calls + n) {accesses : List Access}
    (hon : ∀ access ∈ accesses, access.On pages) :
    ∃ m' own' left', perform accesses m = .ok (answers accesses memory) m' ∧
      Space m₀ m' flags pages (after accesses memory) own' ∧
        Serves m₀ n own own' m m' left left' ∧ idle m' pages ≤ left' := by
  induction accesses generalizing m memory own left with
  | nil => exact ⟨m, own, left, rfl, h, .refl hm own left, hidle⟩
  | cons access rest ih =>
    have hrest : ∀ access ∈ rest, access.On pages :=
      fun access hmem => hon access (List.mem_cons_of_mem _ hmem)
    have hfirst := hon access List.mem_cons_self
    cases access with
    | load address =>
      obtain ⟨m', own', left', hrun, hspace, hserves, hidle'⟩ := ih hm h hidle hbudget hrest
      refine ⟨m', own', left', ?_, hspace, hserves, hidle'⟩
      rw [Pages.perform, bind_ok (h.load hpages hfirst), bind_ok hrun, answers]
      rfl
    | store address value errorCode =>
      obtain ⟨ha, hcode⟩ := hfirst
      obtain ⟨m1, own1, left1, hstore, hspace, hserves, hidle1⟩ :=
        h.storeAccess hs hm hpages ha hrw hcode hidle hbudget value
      have hbudget1 : m1.calls + left1 ≤ m₀.calls + n := hserves.calls.1.trans_le hbudget
      obtain ⟨m', own', left', hrun, hspace', hserves', hidle'⟩ :=
        ih hserves.later hspace hidle1 hbudget1 hrest
      refine ⟨m', own', left', ?_, hspace', hserves.trans hserves', hidle'⟩
      rw [Pages.perform, bind_ok hstore, hrun, answers]

theorem Owns.tableAt_loaded {m₀ m : Machine} {own : Nat → Prop} (h : Owns m₀ m own) (e : Word)
    {q : List Index} (hq : Outside q) (hi : Away userIndex q) (hql : q.length ≤ 4) :
    tableAt (m.loaded e) q = tableAt m q := h.wf.tree.reach_rest hq hi hql

-- the slot of the user holds the entry of another space while an owner of other frames runs
section frame
variable {m₀ m m' : Machine} {n : Nat} {own own' : Nat → Prop} {e flags : Word} {pages : List Word}
  {memory : Word → Byte} (hs : ClearSupply (m₀.loaded 0) n) (hm : Later m₀ n m) (hm' : Later m₀ n m')
  (h : Space m₀ (m.loaded e) flags pages memory own) (hpages : ∀ w ∈ pages, UserPage w)
  (h' : Owns m₀ m' own') (hwrites : Writes m₀ own' m m') (hapart : ∀ t, own t → ¬ own' t)
  (hcalls : m.calls ≤ m'.calls)
include hs hm h hwrites hapart

theorem Space.frame_kept {t : Nat} (ht : own t) (hcalls' : m'.calls ≤ m₀.calls + n)
    (htaken : ∀ s, own' s → m₀.calls ≤ s ∧ s < m'.calls) :
    m'.mem (m₀.frames t) = m.mem (m₀.frames t) := by
  have hb := h.toOwns.bounds hm.calls.2 ht
  refine hwrites _ (hs.user hb.1 hb.2) fun s hs' he => ?_
  have hbs := htaken s hs'
  obtain rfl := hs.inj hbs.1 hb.1 (hbs.2.trans_le hcalls') hb.2 he
  exact hapart s ht hs'

include hm' h'

theorem Space.table_kept (q : List Index) (f : Word) (hq : q.length < 3)
    (hf : reach child (RadixTree.store m.mem m'.cr3 userIndex e) m'.cr3 (userIndex :: q) = some f) :
    m'.mem f = m.mem f := by
  have hf' : tableAt (m.loaded e) (userIndex :: q) = some f := by
    rw [hm'.cr3, ← hm.cr3] at hf
    exact hf
  rcases h.owned q f hq.le hf' with ⟨hlen, -⟩ | ⟨t, ht, rfl⟩
  · omega
  · exact h.frame_kept hs hm hwrites hapart ht hm'.calls.2 h'.taken

theorem Space.tableAt_swap {q : List Index} (hq : q.length ≤ 3) :
    tableAt (m'.loaded e) (userIndex :: q) = tableAt (m.loaded e) (userIndex :: q) := by
  have hcr : m'.cr3 = m.cr3 := hm'.cr3.trans hm.cr3.symm
  have hold : Tree child (RadixTree.store m.mem m'.cr3 userIndex e) m'.cr3 pgSelfIndex 3 := by
    rw [hcr]
    exact h.wf.tree
  rw [tableAt, tableAt, Machine.loaded, Machine.loaded, Machine.withMem_mem, Machine.withMem_mem,
    Machine.withMem_cr3, Machine.withMem_cr3, ← hcr]
  exact Tree.reach_swap user_ne_self hold (h.table_kept hs hm hm' h' hwrites hapart) hq

theorem Space.wellFormed_swap : WellFormed (m'.loaded e) := by
  have hcr : m'.cr3 = m.cr3 := hm'.cr3.trans hm.cr3.symm
  have hold : WellFormed (m.loaded e) := h.wf
  have htree : Tree child (RadixTree.store m.mem m'.cr3 userIndex e) m'.cr3 pgSelfIndex 3 := by
    rw [hcr]
    exact hold.tree
  have hcounted : Counted child refcount (fun _ => present) (RadixTree.store m.mem m'.cr3 userIndex e)
      m'.cr3 pgSelfIndex 3 [] := by
    rw [hcr]
    exact hold.counted
  have hkeep := h.table_kept hs hm hm' h' hwrites hapart
  refine ⟨Tree.swap user_ne_self h'.wf.tree htree hkeep fun q p f hq hi hql hpl hf hp => ?_,
    Counted.swap user_ne_self h'.wf.tree htree hkeep h'.wf.counted hcounted⟩
  have hkernel : IsKernel m₀ f := ⟨q, hq, hql, (h'.kernel q hq hi hql).symm.trans hf⟩
  rw [hcr] at hp
  rcases h.owned p f hpl.le hp with ⟨hlen, -⟩ | ⟨t, ht, rfl⟩
  · omega
  · have hb := h.toOwns.bounds hm.calls.2 ht
    exact hs.user hb.1 hb.2 hkernel

theorem Space.leaf_swap {v : Word} (hv : UserPage v) : leaf (m'.loaded e) v = leaf (m.loaded e) v := by
  have htable := h.tableAt_swap hs hm hm' h' hwrites hapart (q := [index v 30, index v 21])
    (Nat.le_succ 2)
  have hpath : (indices v).take 3 = userIndex :: [index v 30, index v 21] := by
    rw [indices, hv.slot]
    rfl
  have hlook (k : Machine) : leaf k v =
      (tableAt k ((indices v).take 3)).bind fun f => view (k.mem f (slot v 3)) := rfl
  rw [hlook, hlook, hpath, htable]
  cases hf : tableAt (m.loaded e) [userIndex, index v 30, index v 21] with
  | none => rfl
  | some f =>
    rcases h.owned [index v 30, index v 21] f (Nat.le_succ 2) hf with ⟨hlen, -⟩ | ⟨t, ht, rfl⟩
    · exact absurd hlen (by simp)
    · have hb := h.toOwns.bounds hm.calls.2 ht
      have hne : m₀.frames t ≠ m₀.cr3 := fun heq =>
        hs.user hb.1 hb.2 ⟨[], away_nil, Nat.zero_le _, heq ▸ rfl⟩
      have hkept := h.frame_kept hs hm hwrites hapart ht hm'.calls.2 h'.taken
      rw [Option.bind_some, Option.bind_some, Machine.loaded, Machine.loaded, Machine.withMem_mem,
        Machine.withMem_mem, store_of_frame_ne (hm'.cr3 ▸ hne), store_of_frame_ne (hm.cr3 ▸ hne), hkept]

include hcalls hpages

theorem Space.swap : Space m₀ (m'.loaded e) flags pages memory own ∧
    idle (m'.loaded e) pages = idle (m.loaded e) pages := by
  have htable {q : List Index} (hq : q.length ≤ 3) :
      tableAt (m'.loaded e) (userIndex :: q) = tableAt (m.loaded e) (userIndex :: q) :=
    h.tableAt_swap hs hm hm' h' hwrites hapart hq
  have hzero : (m'.loaded e).zeroPage = (m.loaded e).zeroPage := hm'.zeroPage.trans hm.zeroPage.symm
  have huser {v : Word} (hv : UserPage v) :
      tableAt (m'.loaded e) (indices v) = tableAt (m.loaded e) (indices v) := by
    obtain ⟨p, hp, hpath⟩ := hv.path
    rw [hpath]
    exact htable hp.le
  refine ⟨⟨⟨h.wellFormed_swap hs hm hm' h' hwrites hapart, fun q hq hi hql => ?_, fun q f hql hf => ?_,
    fun p q f hpl hql hp hq => ?_, fun t ht => ?_⟩, fun v hv => ?_, fun v hv a f i ha hwalk => ?_⟩, ?_⟩
  · exact (h'.tableAt_loaded e hq hi (by omega)).trans (h'.kernel q hq hi hql)
  · exact h.owned q f hql ((htable hql).symm.trans hf)
  · exact h.once p q f hpl hql ((htable hpl).symm.trans hp) ((htable hql).symm.trans hq)
  · exact ⟨(h.taken t ht).1, (h.taken t ht).2.trans_le hcalls⟩
  · obtain ⟨x, hx, hentry⟩ := h.leaves v hv
    exact ⟨x, (h.leaf_swap hs hm hm' h' hwrites hapart (hpages v hv)).trans hx, hentry.congr hzero⟩
  · obtain ⟨hpath, hauser⟩ := (hpages v hv).congr ha
    obtain ⟨hcan, hf, rfl⟩ := walk_eq_some.mp hwalk
    rw [huser hauser] at hf
    have hold := h.contents v hv a f _ ha (walk_eq_some.mpr ⟨hcan, hf, rfl⟩)
    have hne : f ≠ m₀.cr3 := fun heq => h.toOwns.page_notTable hs hm.calls.2 hauser hf
      ⟨[], away_nil, Nat.zero_le _, by rw [heq, ← hm.cr3]; rfl⟩
    have hmem (k : Machine) (hk : k.cr3 = m₀.cr3) : (k.loaded e).mem f = k.mem f :=
      store_of_frame_ne (hk ▸ hne)
    rw [hmem m hm.cr3] at hold
    rw [hmem m' hm'.cr3, ← hold]
    obtain ⟨p, hp, hap⟩ := hauser.path
    rw [hap] at hf
    rcases h.owned p f hp.le hf with ⟨-, rfl⟩ | ⟨t, ht, rfl⟩
    · rw [hm'.zeroClear, hm.zeroClear]
    · rw [h.frame_kept hs hm hwrites hapart ht hm'.calls.2 h'.taken]
  · refine List.countP_congr fun v hv => ?_
    rw [huser (hpages v hv), hzero]

end frame

end Lasagne.Pages
