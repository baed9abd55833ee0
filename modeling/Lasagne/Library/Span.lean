import Mathlib

structure Span where
  begin : Nat
  stop : Nat
  deriving DecidableEq, Repr

namespace Span

def Proper (a : Span) : Prop := a.begin < a.stop

def Mem (x : Nat) (a : Span) : Prop := a.begin ≤ x ∧ x < a.stop

-- neither overlapping nor touching
def Apart (a b : Span) : Prop := a.stop < b.begin ∨ b.stop < a.begin

def Before (a b : Span) : Prop := a.stop < b.begin

def Covered (as : List Span) (x : Nat) : Prop := ∃ a ∈ as, Mem x a

def hull (a b : Span) : Span := ⟨min a.begin b.begin, max a.stop b.stop⟩

structure IsRun (U : Nat → Prop) (a : Span) : Prop where
  proper : a.Proper
  inside : ∀ x, Mem x a → U x
  left : ∀ x, x + 1 = a.begin → ¬ U x
  right : ¬ U a.stop

variable {a b c : Span} {as bs : List Span} {U V : Nat → Prop} {x : Nat}

theorem Apart.symm (h : Apart a b) : Apart b a := Or.symm h

instance : Std.Symm Apart := ⟨fun _ _ => Apart.symm⟩

theorem covered_perm (h : as.Perm bs) : Covered as x ↔ Covered bs x := by
  simp only [Covered, h.mem_iff]

theorem covered_append : Covered (as ++ bs) x ↔ Covered as x ∨ Covered bs x := by
  simp only [Covered, List.mem_append, or_and_right, exists_or]

theorem covered_cons : Covered (a :: as) x ↔ Mem x a ∨ Covered as x := by
  simp [Covered]

theorem IsRun.congr (h : ∀ x, U x ↔ V x) : IsRun U a ↔ IsRun V a := by
  obtain rfl : U = V := funext fun x => propext (h x)
  rfl

theorem hull_proper (ha : a.Proper) : (hull a b).Proper := by
  simp only [Proper, hull] at *
  omega

theorem mem_hull (h : ¬ Apart a b) : Mem x (hull a b) ↔ Mem x a ∨ Mem x b := by
  simp only [Apart, Mem, hull] at *
  omega

section separated

theorem apart_of_ne (hp : as.Pairwise Apart) (ha : a ∈ as) (hb : b ∈ as) (hne : a ≠ b) :
    Apart a b :=
  hp.forall ha hb hne

theorem isRun_of_mem (hp : as.Pairwise Apart) (hprop : ∀ a ∈ as, Proper a) (ha : a ∈ as) :
    IsRun (Covered as) a := by
  have hcase (b : Span) (hb : b ∈ as) : b = a ∨ Apart a b := by
    by_cases h : b = a
    · exact .inl h
    · exact .inr (apart_of_ne hp ha hb (Ne.symm h))
  have hpa := hprop a ha
  refine ⟨hpa, fun x hx => ⟨a, ha, hx⟩, ?_, ?_⟩
  · rintro x hx ⟨b, hb, hxb⟩
    rcases hcase b hb with rfl | h
    · simp only [Mem] at hxb
      omega
    · simp only [Apart, Mem, Proper] at *
      omega
  · rintro ⟨b, hb, hxb⟩
    rcases hcase b hb with rfl | h
    · simp only [Mem] at hxb
      omega
    · simp only [Apart, Mem, Proper] at *
      omega

theorem IsRun.eq_of_mem (ha : IsRun U a) (hb : IsRun U b) (hxa : Mem x a) (hxb : Mem x b) :
    a = b := by
  have hbegin (c d : Span) (hc : IsRun U c) (hd : IsRun U d) (hxc : Mem x c) (hxd : Mem x d) :
      c.begin ≤ d.begin := by
    by_contra hlt
    refine hc.left (c.begin - 1) (by omega) (hd.inside _ ?_)
    simp only [Mem] at *
    omega
  have hstop (c d : Span) (hc : IsRun U c) (hd : IsRun U d) (hxc : Mem x c) (hxd : Mem x d) :
      c.stop ≤ d.stop := by
    by_contra hlt
    refine hd.right (hc.inside _ ?_)
    simp only [Mem] at *
    omega
  have h1 := le_antisymm (hbegin a b ha hb hxa hxb) (hbegin b a hb ha hxb hxa)
  have h2 := le_antisymm (hstop a b ha hb hxa hxb) (hstop b a hb ha hxb hxa)
  cases a
  cases b
  exact congrArg₂ Span.mk h1 h2

theorem isRun_iff_mem (hp : as.Pairwise Apart) (hprop : ∀ a ∈ as, Proper a) :
    IsRun (Covered as) c ↔ c ∈ as := by
  refine ⟨fun hc => ?_, isRun_of_mem hp hprop⟩
  obtain ⟨a, ha, hx⟩ := hc.inside c.begin ⟨le_rfl, hc.proper⟩
  have hxc : Mem c.begin c := ⟨le_rfl, hc.proper⟩
  rw [hc.eq_of_mem (isRun_of_mem hp hprop ha) hxc hx]
  exact ha

theorem before_of_sorted (hp : as.Pairwise Apart) (hprop : ∀ a ∈ as, Proper a)
    (hs : as.Pairwise fun a b => a.begin ≤ b.begin) : as.Pairwise Before := by
  refine List.Pairwise.imp_of_mem ?_ (hp.and hs)
  rintro a b ha hb ⟨hab, hle⟩
  have := hprop b hb
  simp only [Apart, Before, Proper] at *
  omega

theorem eq_of_before (ha : as.Pairwise Before) (hb : bs.Pairwise Before)
    (hprop : ∀ a ∈ as, Proper a) (hmem : ∀ a, a ∈ as ↔ a ∈ bs) : as = bs := by
  have hirr (a : Span) (hp : a.Proper) : ¬ Before a a := by
    simp only [Before, Proper] at *
    omega
  have hnd (cs : List Span) (hc : cs.Pairwise Before) (hp : ∀ a ∈ cs, Proper a) : cs.Nodup := by
    refine List.Pairwise.imp_of_mem ?_ hc
    rintro x y hx - h rfl
    exact hirr x (hp x hx) h
  have hprop' : ∀ a ∈ bs, Proper a := fun a h => hprop a ((hmem a).mpr h)
  refine ((List.perm_ext_iff_of_nodup (hnd as ha hprop) (hnd bs hb hprop')).mpr hmem).eq_of_pairwise
    ?_ ha hb
  intro a b ha hb h1 h2
  have hpa := hprop a ha
  have hpb := hprop' b hb
  simp only [Before, Proper] at *
  omega

end separated

end Span
