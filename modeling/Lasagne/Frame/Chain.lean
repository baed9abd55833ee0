import Mathlib
import Lasagne.Frame.Stack
import Lasagne.Library.PartialRun

namespace Lasagne.Frame
open ByteMemory CInt

inductive Call where
  | alloc
  | dealloc (frame : Nat)
  deriving DecidableEq, Repr

def call (map : MemMap.MemoryMap) (s : State) : Call → Option State
  | .alloc => (allocFrame map s).map (·.2)
  | .dealloc frame => deallocFrame s frame

-- last pushed first
structure Represents (s : State) (frames : List Nat) : Prop where
  chain : ∃ nodes, Stacked s.alloc s.mem nodes ∧ freeFrames s.mem s.alloc.count nodes = frames
  distinct : frames.Nodup
  aligned : ∀ f ∈ frames, Aligned f
  nonempty : frames ≠ []
  free : pageSize * frames.length ≤ s.alloc.free
  size : s.alloc.free ≤ s.alloc.size
  word : s.alloc.size < wordSize

structure Pushed where
  frames : List Nat
  free : Nat
  deriving DecidableEq, Repr

-- the abstract stack; it refuses the calls that would empty it or that the owner may not make
def pushedCall (size : Nat) (t : Pushed) : Call → Option Pushed
  | .alloc =>
    match t.frames with
    | _ :: next :: rest => some ⟨next :: rest, t.free - pageSize⟩
    | _ => none
  | .dealloc frame =>
    if frame % pageSize = 0 ∧ frame ≠ 0 ∧ frame < wordSize ∧ frame ∉ t.frames ∧
        t.free + pageSize ≤ size then
      some ⟨frame :: t.frames, t.free + pageSize⟩
    else none

section steps
variable {s : State} {f g size : Nat} {frames : List Nat} {t t' : Pushed}
  {c : Call}

theorem Represents.alloc (map : MemMap.MemoryMap) (h : Represents s (f :: g :: frames)) :
    ∃ s', allocFrame map s = some (f, s') ∧ Represents s' (g :: frames) ∧
      s'.alloc.free + pageSize = s.alloc.free ∧ s'.alloc.size = s.alloc.size ∧
      s'.mem = fill s.mem f pageSize 0 := by
  obtain ⟨nodes, hstack, hframes⟩ := h.chain
  have hfree := h.free
  have hsize := h.size
  have hword := h.word
  rw [List.length_cons, Nat.mul_succ] at hfree
  have hpos : 0 < s.alloc.count := by
    by_contra h0
    rw [hstack.empty.mp (by omega)] at hframes
    exact absurd hframes (by simp [freeFrames])
  obtain ⟨frame, s', nodes', hcall, hstack', hpop, hless, hb, hmem⟩ := hstack.alloc map hpos
    (hframes ▸ h.aligned) (hframes ▸ h.distinct) (by omega) (by omega)
  rw [hframes] at hpop
  obtain ⟨rfl, hrest⟩ := List.cons.inj hpop
  refine ⟨s', hcall, ⟨⟨nodes', hstack', hrest.symm⟩, (List.nodup_cons.mp h.distinct).2,
    fun x hx => h.aligned x (by simp [hx]), by simp, by omega, ?_, ?_⟩, hless, hb.size, hmem⟩
  · rw [hb.size]
    omega
  · rw [hb.size]
    exact hword

theorem Represents.dealloc (h : Represents s frames) (hf : Aligned f) (hnew : f ∉ frames)
    (hroom : s.alloc.free + pageSize ≤ s.alloc.size) :
    ∃ s', deallocFrame s f = some s' ∧ Represents s' (f :: frames) ∧
      s'.alloc.free = s.alloc.free + pageSize ∧ s'.alloc.size = s.alloc.size ∧
      SameOutside (OnPages (f :: frames)) s.mem s'.mem := by
  obtain ⟨nodes, hstack, hframes⟩ := h.chain
  have hnonempty := h.nonempty
  have hfree := h.free
  have hstale (h0 : s.alloc.count = 0) : current s.alloc = 0 := by
    rw [hstack.empty.mp h0] at hframes
    exact absurd hframes.symm hnonempty
  obtain ⟨s', nodes', hcall, hstack', hpush, hmore, hb, hmem⟩ := hstack.dealloc
    (hframes ▸ h.aligned) hf (hframes ▸ List.nodup_cons.mpr ⟨hnew, h.distinct⟩) hstale hroom h.word
  rw [hframes] at hpush hmem
  refine ⟨s', hcall, ⟨⟨nodes', hstack', hpush⟩, List.nodup_cons.mpr ⟨hnew, h.distinct⟩, ?_,
    by simp, ?_, ?_, ?_⟩, hmore, hb.size, hmem⟩
  · intro x hx
    rcases List.mem_cons.mp hx with rfl | hx
    · exact hf
    · exact h.aligned x hx
  · rw [List.length_cons, Nat.mul_succ]
    omega
  · rw [hb.size]
    omega
  · rw [hb.size]
    exact h.word

def Tracks (size : Nat) (s : State) (t : Pushed) : Prop :=
  Represents s t.frames ∧ s.alloc.free = t.free ∧ s.alloc.size = size

theorem Tracks.call (map : MemMap.MemoryMap) (h : Tracks size s t) (hc : pushedCall size t c = some t') :
    ∃ s', Frame.call map s c = some s' ∧ Tracks size s' t' := by
  obtain ⟨hrep, hfree, hsize⟩ := h
  cases c with
  | alloc =>
    obtain ⟨frames, free⟩ := t
    match frames with
    | [] => exact absurd hc (by simp [pushedCall])
    | [f] => exact absurd hc (by simp [pushedCall])
    | f :: g :: frames =>
      obtain rfl := Option.some.inj hc
      obtain ⟨s', hcall, hrep', hless, hsize', -⟩ := hrep.alloc map
      refine ⟨s', by rw [Frame.call, hcall]; rfl, hrep', ?_, hsize'.trans hsize⟩
      simp only at hfree ⊢
      omega
  | dealloc frame =>
    rw [pushedCall] at hc
    split at hc
    next hg =>
      obtain rfl := Option.some.inj hc
      obtain ⟨h1, h2, h3, h4, h5⟩ := hg
      obtain ⟨s', hcall, hrep', hmore, hsize', -⟩ := hrep.dealloc ⟨h1, h2, h3⟩ h4
        (by rw [hfree, hsize]; exact h5)
      exact ⟨s', hcall, hrep', by rw [hmore, hfree], hsize'.trans hsize⟩
    next => exact absurd hc (by simp)

end steps

theorem free_chain_is_stack (map : MemMap.MemoryMap) {s : State} {frames : List Nat} {t : Pushed}
    {cs : List Call} (h : Represents s frames)
    (hrun : PartialRun.run (pushedCall s.alloc.size) ⟨frames, s.alloc.free⟩ cs = some t) :
    ∃ s', PartialRun.run (call map) s cs = some s' ∧ Represents s' t.frames ∧
      s'.alloc.free = t.free ∧ s'.alloc.size = s.alloc.size ∧
      (∀ f g rest, t.frames = f :: g :: rest → ∃ u, allocFrame map s' = some (f, u) ∧
        Represents u (g :: rest) ∧ u.alloc.free + pageSize = s'.alloc.free ∧
        u.mem = fill s'.mem f pageSize 0) ∧
      ∀ f, f % pageSize = 0 → f ≠ 0 → f < wordSize → f ∉ t.frames →
        s'.alloc.free + pageSize ≤ s'.alloc.size → ∃ u, deallocFrame s' f = some u ∧
          Represents u (f :: t.frames) ∧ u.alloc.free = s'.alloc.free + pageSize ∧
          SameOutside (OnPages (f :: t.frames)) s'.mem u.mem := by
  have hstep (u : State) (p : Pushed) (c : Call) (q : Pushed) (hr : Tracks s.alloc.size u p)
      (hc : pushedCall s.alloc.size p c = some q) :
      ∃ v, call map u c = some v ∧ Tracks s.alloc.size v q := hr.call map hc
  obtain ⟨s', hrun', hrep, hfree, hsize⟩ := PartialRun.follows hstep ⟨h, rfl, rfl⟩ hrun
  refine ⟨s', hrun', hrep, hfree, hsize, fun f g rest heq => ?_, fun f h1 h2 h3 hnew hroom => ?_⟩
  · obtain ⟨u, hcall, hrep', hless, -, hmem⟩ := (heq ▸ hrep).alloc map
    exact ⟨u, hcall, hrep', hless, hmem⟩
  · obtain ⟨u, hcall, hrep', hmore, -, hmem⟩ := hrep.dealloc ⟨h1, h2, h3⟩ hnew hroom
    exact ⟨u, hcall, hrep', hmore, hmem⟩

def oneNode : State := {
  alloc := {
    begin := 0x8000, stop := 0x10000, size := 0x10000, capacity := 0x8000, free := 0x2000
    current := true, count := 2, currentMapPosition := 0, pte := 0x1003 }
  mem := fun x => if x = 0x1009 then 0x20 else 0 }

theorem oneNode_represents : Represents oneNode [0x2000, 0x1000] := by
  refine ⟨⟨[0x1000], ⟨by decide, by decide, ?_, ?_⟩, by decide⟩, by decide, ?_, by decide, by decide,
    by decide, by decide⟩
  · intro node hn
    obtain rfl : 0x1000 = node := by simpa using hn
    exact ⟨by decide, by decide⟩
  · exact ⟨rfl, by decide, (by decide : nodeNext oneNode.mem 0x1000 = 0)⟩
  · intro f hf
    simp only [List.mem_cons, List.not_mem_nil, or_false] at hf
    rcases hf with rfl | rfl
    · exact ⟨by decide, by decide, by decide⟩
    · exact ⟨by decide, by decide, by decide⟩

theorem free_chain_is_stack_sample : ∃ s',
    PartialRun.run (call MemMap.empty) oneNode [.dealloc 0x3000, .dealloc 0x4000, .alloc] = some s' ∧
      Represents s' [0x3000, 0x2000, 0x1000] ∧ s'.alloc.free = 0x3000 := by
  have hrun : PartialRun.run (pushedCall oneNode.alloc.size) ⟨[0x2000, 0x1000], oneNode.alloc.free⟩
      [.dealloc 0x3000, .dealloc 0x4000, .alloc] = some ⟨[0x3000, 0x2000, 0x1000], 0x3000⟩ := by
    decide
  obtain ⟨s', hrun, hrep, hfree, -⟩ := free_chain_is_stack MemMap.empty oneNode_represents hrun
  exact ⟨s', hrun, hrep, hfree⟩

end Lasagne.Frame
