import Mathlib
import Lasagne.Pages.WellFormed

namespace Lasagne.Pages
open RadixTree StateRun

inductive Event where
  | mapRange (fuel : Nat) (start size flags : Word)
  | unmapRange (fuel : Nat) (start size : Word)
  | pageFault (address errorCode : Word)

def call : Event → Kernel Unit
  | .mapRange fuel start size flags => mapRange fuel start size flags
  | .unmapRange fuel start size => unmapRange fuel start size
  | .pageFault address errorCode => pageFaultHandler address errorCode

def run (m : Machine) (es : List Event) : Machine := es.foldl (fun m e => ending (call e m)) m

def mapsZeroPage : Event → Prop
  | .mapRange _ _ size flags => 0 < size ∧ flags &&& mapImmediate = 0
  | _ => False

-- every entry written since m holds a frame of p or one get_frame delivered since m
structure Installs (p : Word → Prop) (m m' : Machine) : Prop where
  frames : m'.frames = m.frames
  zeroPage : m'.zeroPage = m.zeroPage
  calls : m.calls ≤ m'.calls
  installed : ∃ es, m'.installed = es ++ m.installed ∧ ∀ e ∈ es, p (frameOf e) ∨
    ∃ n, m.calls ≤ n ∧ n < m'.calls ∧ frameOf e = frameOf (m.frames n)

instance (p : Word → Prop) : Std.Refl (Installs p) where
  refl _ := ⟨rfl, rfl, le_rfl, [], rfl, fun _ h => absurd h List.not_mem_nil⟩

instance (p : Word → Prop) : IsTrans Machine (Installs p) where
  trans a b c := by
    rintro ⟨hf, hz, hc, es, he, hes⟩ ⟨hf', hz', hc', es', he', hes'⟩
    refine ⟨hf'.trans hf, hz'.trans hz, hc.trans hc', es' ++ es, ?_, fun e hmem => ?_⟩
    · rw [he', he, List.append_assoc]
    · rcases List.mem_append.mp hmem with hmem | hmem
      · refine (hes' e hmem).imp_right ?_
        rintro ⟨n, h1, h2, h3⟩
        exact ⟨n, hc.trans h1, h2, hf ▸ h3⟩
      · refine (hes e hmem).imp_right ?_
        rintro ⟨n, h1, h2, h3⟩
        exact ⟨n, h1, h2.trans_le hc', h3⟩

section keeps
variable {p : Word → Prop} {m m' : Machine} {α : Type}

theorem Installs.mono {q : Word → Prop} (h : Installs p m m') (hpq : ∀ f, p f → q f) :
    Installs q m m' := by
  obtain ⟨es, he, hes⟩ := h.installed
  exact ⟨h.frames, h.zeroPage, h.calls, es, he, fun e hmem => (hes e hmem).imp_left (hpq _)⟩

theorem installs_of_log (hf : m'.frames = m.frames) (hz : m'.zeroPage = m.zeroPage)
    (hc : m'.calls = m.calls) (hi : m'.installed = m.installed) : Installs p m m' :=
  ⟨hf, hz, hc.ge, [], hi, fun _ h => absurd h List.not_mem_nil⟩

theorem load_installs (a : Word) : Keeps (Installs p) (load a) := fun m => by
  rw [load]
  cases walk m a <;> exact installs_of_log rfl rfl rfl rfl

theorem store_installs (a x : Word) : Keeps (Installs p) (store a x) := fun m => by
  rw [store]
  cases walk m a <;> exact installs_of_log rfl rfl rfl rfl

theorem freeFrame_installs (f : Word) : Keeps (Installs p) (freeFrame f) := fun _ =>
  installs_of_log rfl rfl rfl rfl

theorem install_installs {a x : Word} (hx : p (frameOf x)) : Keeps (Installs p) (install a x) :=
  (store_installs a x).bind fun _ _ =>
    ⟨rfl, rfl, le_rfl, [x], rfl, fun _ he => .inl (List.mem_singleton.mp he ▸ hx)⟩

theorem getFrame_installs {f : Word → Kernel α}
    (hf : ∀ frame, Keeps (Installs fun g => p g ∨ g = frameOf frame) (f frame)) :
    Keeps (Installs p) (getFrame >>= f) := fun m => by
  rw [bind_ok (show getFrame m = .ok (m.frames m.calls) { m with calls := m.calls + 1 } from rfl)]
  obtain ⟨hfr, hz, hc, es, he, hes⟩ := hf (m.frames m.calls) { m with calls := m.calls + 1 }
  have hlt : m.calls < _ := hc
  refine ⟨hfr, hz, hlt.le, es, he, fun e hmem => ?_⟩
  rcases hes e hmem with (h | h) | ⟨n, h1, h2, h3⟩
  · exact .inl h
  · exact .inr ⟨m.calls, le_rfl, hlt, h⟩
  · exact .inr ⟨n, (Nat.le_succ _).trans h1, h2, h3⟩

theorem ptes_installs (a : Word) : Keeps (Installs p) (ptes a) := by
  have hmark (entries : Fin 4 → Word) (is : List (Fin 4)) (mask : Nat) :
      Keeps (Installs p) (markPresent entries is mask) := by
    induction is generalizing mask with
    | nil => exact Keeps.pure _
    | cons i is ih => exact (load_installs _).bind fun _ => Keeps.ite (ih _) (Keeps.pure _)
  exact (hmark _ _ _).bind fun _ => Keeps.pure _

theorem when_installs {c : Prop} [Decidable c] {x : Kernel Unit} (hx : Keeps (Installs p) x) :
    Keeps (Installs p) (when c x) := Keeps.ite hx (Keeps.pure _)

theorem assert_installs (c : Prop) [Decidable c] : Keeps (Installs p) (assert c) :=
  Keeps.ite (Keeps.pure _) (Keeps.throw _)

theorem increaseCounter_installs (a : Word) : Keeps (Installs p) (increaseCounter a) :=
  (load_installs _).bind fun _ => store_installs _ _

theorem ensurePtExists_installs (e : PtEntries) : Keeps (Installs p) (ensurePtExists e) := by
  refine Keeps.forM (fun i => Keeps.ite (Keeps.pure _) (getFrame_installs fun frame => ?_)) _
  have hframe : frameOf (frame ||| pgPresent ||| pgRw ||| pgUser) = frameOf frame := by
    have hlow : frameOf (pgPresent ||| pgRw ||| pgUser) = 0 := by decide
    rw [BitVec.or_assoc, BitVec.or_assoc, ← BitVec.or_assoc pgPresent, frameOf_or, hlow]
    exact BitVec.or_zero
  refine (install_installs (.inr hframe)).bind fun _ => (Keeps.pure _).bind fun _ => ?_
  exact (Keeps.forM (fun _ => store_installs _ _) _).bind fun _ =>
    when_installs (increaseCounter_installs _)

theorem frameOf_or_flags {f flags : Word} (h : frameOf flags = 0) :
    frameOf (f ||| flags) = frameOf f := by
  rw [frameOf_or, h]
  exact BitVec.or_zero

theorem mapPage_installs {v f flags : Word} (hflags : frameOf flags = 0) (hf : p (frameOf f)) :
    Keeps (Installs p) (mapPage v f flags) := by
  refine (assert_installs _).bind fun _ => (assert_installs _).bind fun _ =>
    (ptes_installs v).bind fun e => (when_installs (ensurePtExists_installs e)).bind fun _ =>
      (when_installs (increaseCounter_installs _)).bind fun _ =>
        (install_installs ?_).bind fun _ => Keeps.pure _
  rwa [frameOf_or_flags hflags]

theorem mapLoop_installs {start size flags mapFlags physical : Word} (hflags : frameOf mapFlags = 0)
    (hp : flags &&& mapImmediate = 0 → p (frameOf physical)) (fuel : Nat) (i : Word) :
    Keeps (Installs p) (mapLoop start size flags mapFlags fuel i physical) := by
  induction fuel generalizing p i physical with
  | zero => exact Keeps.throw _
  | succ fuel ih =>
    refine Keeps.ite ?_ (Keeps.pure _)
    by_cases himm : flags &&& mapImmediate = 0
    · rw [if_neg (not_not.mpr himm)]
      exact (mapPage_installs hflags (hp himm)).bind fun _ => ih hp _
    · rw [if_pos himm]
      exact getFrame_installs fun frame => (mapPage_installs hflags (.inr rfl)).bind fun _ =>
        ih (fun h => absurd h himm) _

theorem cleanLevels_installs (e : PtEntries) (is : List (Fin 4)) :
    Keeps (Installs p) (cleanLevels e is) := by
  induction is with
  | nil => exact Keeps.pure _
  | cons i is ih =>
    have hdecrease : Keeps (Installs p) (decreaseCounter (e.entries i)) :=
      (load_installs _).bind fun _ => (store_installs _ _).bind fun _ =>
        (load_installs _).bind fun _ => Keeps.pure _
    exact hdecrease.bind fun _ => Keeps.ite (Keeps.pure _) ((load_installs _).bind fun _ =>
      (freeFrame_installs _).bind fun _ => (store_installs _ _).bind fun _ => ih)

theorem unmapPage_installs (v flags : Word) : Keeps (Installs p) (unmapPage v flags) :=
  (assert_installs _).bind fun _ => (ptes_installs _).bind fun _ => (load_installs _).bind fun _ =>
    (cleanLevels_installs _ _).bind fun _ => Keeps.pure _

theorem unmapRange_installs (fuel : Nat) (start size : Word) :
    Keeps (Installs p) (unmapRange fuel start size) := by
  have hstep (a : Word) : Keeps (Installs p) (unmapStep a) :=
    (ptes_installs _).bind fun _ => Keeps.ite ((load_installs _).bind fun _ =>
      (unmapPage_installs _ _).bind fun _ => when_installs (freeFrame_installs _)) (Keeps.pure _)
  have hloop (i : Word) : Keeps (Installs p) (unmapLoop start size fuel i) := by
    induction fuel generalizing i with
    | zero => exact Keeps.throw _
    | succ fuel ih => exact Keeps.ite ((hstep _).bind fun _ => ih _) (Keeps.pure _)
  exact hloop 0

theorem pageFaultHandler_installs (a errorCode : Word) :
    Keeps (Installs p) (pageFaultHandler a errorCode) := by
  have hexception : Keeps (Installs p) genericExceptionHandler := Keeps.throw _
  refine (ptes_installs _).bind fun e => Keeps.ite ((load_installs _).bind fun entry =>
    Keeps.ite (getFrame_installs fun frame => ?_) hexception) hexception
  refine (install_installs (.inr (frameOf_or_flags ?_))).bind fun _ => Keeps.pure _
  have hmask : ~~~(physAddrMask ||| pgLazy) &&& physAddrMask = 0 := by decide
  rw [frameOf_or, frameOf, BitVec.and_assoc, hmask, show frameOf pgRw = 0 by decide]
  simp

theorem call_installs (m : Machine) (e : Event)
    (hp : mapsZeroPage e → p (frameOf m.zeroPage)) : Installs p m (ending (call e m)) := by
  cases e with
  | mapRange fuel start size flags =>
    change Installs p m (ending (mapLoop start size flags (convertFlags flags) fuel 0 m.zeroPage m))
    by_cases hs : 0 < size
    · exact mapLoop_installs (frameOf_convertFlags flags) (fun himm => hp ⟨hs, himm⟩) fuel 0 m
    · cases fuel with
      | zero => exact refl_of (Installs p) m
      | succ fuel =>
        rw [mapLoop, if_neg hs]
        exact refl_of (Installs p) m
  | unmapRange fuel start size => exact unmapRange_installs fuel start size m
  | pageFault address errorCode => exact pageFaultHandler_installs address errorCode m

theorem run_installs (m : Machine) (es : List Event) :
    Installs (fun f => (∃ e ∈ es, mapsZeroPage e) ∧ f = frameOf m.zeroPage) m (run m es) := by
  induction es generalizing m with
  | nil => exact refl_of (Installs _) m
  | cons e es ih =>
    have hfirst := call_installs (p := fun f => (∃ e' ∈ e :: es, mapsZeroPage e') ∧
      f = frameOf m.zeroPage) m e fun h => ⟨⟨e, List.mem_cons_self, h⟩, rfl⟩
    have hrest := ih (ending (call e m))
    rw [hfirst.zeroPage] at hrest
    refine trans_of (Installs _) hfirst (hrest.mono ?_)
    rintro f ⟨⟨e', he', hz⟩, hf⟩
    exact ⟨⟨e', List.mem_cons_of_mem _ he', hz⟩, hf⟩

end keeps

theorem exhaustion_installs (m : Machine) (es : List Event) (hstart : m.installed = [])
    (hzero : Aligned m.zeroPage) (hframes : ∀ n, Aligned (m.frames n))
    (hanswers : ∀ n, m.calls ≤ n → n < (run m es).calls → m.frames n ≠ 0)
    (hlazy : (∃ e ∈ es, mapsZeroPage e) → m.zeroPage ≠ 0) :
    ∀ e ∈ (run m es).installed, present e = true → frameOf e ≠ 0 := by
  intro e he _
  obtain ⟨-, -, -, new, hnew, hsource⟩ := run_installs m es
  rw [hnew, hstart, List.append_nil] at he
  rcases hsource e he with ⟨hmaps, hf⟩ | ⟨n, h1, h2, hf⟩
  · rw [hf, frameOf_aligned hzero]
    exact hlazy hmaps
  · rw [hf, frameOf_aligned (hframes n)]
    exact hanswers n h1 h2

theorem exhaustion_installs_sample : (run { twoPages with frames := fun _ => 0x9000 }
      [.mapRange 2 0x2000 0x1000 mapImmediate, .unmapRange 2 0x2000 0x1000]).installed =
      [0x8000000000009001] ∧ frameOf 0x8000000000009001 ≠ 0 := by
  have hrun : (run { twoPages with frames := fun _ => 0x9000 }
      [.mapRange 2 0x2000 0x1000 mapImmediate, .unmapRange 2 0x2000 0x1000]).installed =
      [0x8000000000009001] := by
    decide
  refine ⟨hrun, exhaustion_installs { twoPages with frames := fun _ => 0x9000 }
    [.mapRange 2 0x2000 0x1000 mapImmediate, .unmapRange 2 0x2000 0x1000] rfl ⟨by decide, by decide⟩
    (fun n => show Aligned 0x9000 from ⟨by decide, by decide⟩)
    (fun n _ _ => show (0x9000 : Word) ≠ 0 by decide) (fun _ => by decide) _ ?_ (by decide)⟩
  rw [hrun]
  exact List.mem_singleton_self _

-- get_frame answers 0 to map_range, and the page at 0x2000 is mapped to frame 0
theorem exhaustion_installs_zero : ¬ ∀ (m : Machine) (es : List Event), WellFormed m →
    m.installed = [] → Aligned m.zeroPage → m.zeroPage ≠ 0 → (∀ n, Aligned (m.frames n)) →
    ∀ e ∈ (run m es).installed, present e = true → frameOf e ≠ 0 := by
  intro h
  have hrun : (run { twoPages with frames := fun _ => 0 }
      [.mapRange 2 0x2000 0x1000 mapImmediate]).installed = [0x8000000000000001] := by
    decide
  exact h { twoPages with frames := fun _ => 0 } [.mapRange 2 0x2000 0x1000 mapImmediate]
    ⟨twoPages_wellFormed.tree, twoPages_wellFormed.counted⟩ rfl ⟨by decide, by decide⟩ (by decide)
    (fun n => show Aligned 0 from ⟨by decide, by decide⟩) 0x8000000000000001
    (by rw [hrun]; decide) (by decide) (by decide)

end Lasagne.Pages
