import Mathlib
import Lasagne.Frame.Boot
import Lasagne.Library.PartialRun

namespace Lasagne.Frame
open ByteMemory CInt MemMap

structure World where
  state : State
  live : List Nat

inductive Action where
  | alloc
  | dealloc (frame : Nat)
  | write (addr : Nat) (byte : BitVec 8)
  deriving DecidableEq, Repr

-- an owner writes to and frees only what it holds
def step (map : MemoryMap) (w : World) : Action → Option World
  | .alloc => (allocFrame map w.state).map fun (frame, s) =>
    ⟨s, if w.state.alloc.free = 0 then w.live else frame :: w.live⟩
  | .dealloc frame =>
    if frame ∈ w.live then
      (deallocFrame w.state frame).map fun s => ⟨s, w.live.erase frame⟩
    else none
  | .write addr byte =>
    if ∃ f ∈ w.live, f ≤ addr ∧ addr < f + pageSize then
      some { w with state := { w.state with mem := storeByte w.state.mem addr byte } }
    else none

-- the free list is empty and the window still shows the frame it was drained of
def staleWindow (a : Allocator) : Bool := a.count = 0 && current a ≠ 0

def cleanFree (w : World) : Action → Bool
  | .dealloc _ => !staleWindow w.state.alloc
  | _ => true

structure Sound (map : MemoryMap) (all nodes : List Nat) (w : World) : Prop where
  stacked : Stacked w.state.alloc w.state.mem nodes
  split : (freeFrames w.state.mem w.state.alloc.count nodes ++
    (w.live ++ ahead map.area w.state.alloc)).Perm all
  free : ∃ k, k ≤ (ahead map.area w.state.alloc).length ∧ w.state.alloc.free =
    pageSize * ((freeFrames w.state.mem w.state.alloc.count nodes).length + k)
  bump : ahead map.area w.state.alloc ≠ [] → Bump map.area w.state.alloc
  stop : w.state.alloc.stop % pageSize = 0
  size : pageSize * all.length ≤ w.state.alloc.size
  word : w.state.alloc.size < wordSize

section same
variable {map : MemoryMap} {a b : Allocator}

theorem SameBump.ahead (h : SameBump a b) : ahead map.area b = ahead map.area a := by
  rw [Frame.ahead, Frame.ahead, h.begin, h.stop, h.position]

theorem SameBump.bump (h : SameBump a b) (hb : Bump map.area a) : Bump map.area b :=
  ⟨h.begin ▸ hb.aligned, by rw [h.position, h.begin]; exact hb.inside⟩

end same

section sound
variable {map : MemoryMap} {all nodes : List Nat} {w w' : World} {frame : Nat}

theorem Sound.nodup (h : Sound map all nodes w) (hnd : all.Nodup) :
    (freeFrames w.state.mem w.state.alloc.count nodes ++
      (w.live ++ ahead map.area w.state.alloc)).Nodup :=
  h.split.nodup_iff.mpr hnd

theorem Sound.mem (h : Sound map all nodes w) {f : Nat}
    (hf : f ∈ freeFrames w.state.mem w.state.alloc.count nodes ∨ f ∈ w.live ∨
      f ∈ ahead map.area w.state.alloc) : f ∈ all := by
  refine h.split.mem_iff.mp ?_
  rw [List.mem_append, List.mem_append]
  exact hf

theorem Sound.free_le (h : Sound map all nodes w) :
    w.state.alloc.free + pageSize * w.live.length ≤ w.state.alloc.size := by
  obtain ⟨k, hk, hfree⟩ := h.free
  have hlen := h.split.length_eq
  rw [List.length_append, List.length_append] at hlen
  refine le_trans ?_ h.size
  rw [hfree, ← Nat.mul_add]
  exact Nat.mul_le_mul_left _ (by omega)

theorem Sound.pop (h : Sound map all nodes w) (hnd : all.Nodup) (hal : ∀ f ∈ all, Aligned f)
    (hc : 0 < w.state.alloc.count) : ∃ frame s nodes', allocFrame map w.state = some (frame, s) ∧
      Sound map all nodes' ⟨s, frame :: w.live⟩ := by
  have hle := h.free_le
  have hword := h.word
  obtain ⟨k, hk, hcount⟩ := h.free
  have hpage : pageSize ≤ w.state.alloc.free := by
    cases nodes with
    | nil => exact absurd (h.stacked.empty.mpr rfl) (by omega)
    | cons node nodes =>
      rw [hcount, freeFrames, List.length_append, List.length_cons]
      exact Nat.le_mul_of_pos_right _ (by omega)
  obtain ⟨frame, s, nodes', hcall, hstack, hpop, hless, hb, -⟩ := h.stacked.alloc map hc
    (fun f hf => hal f (h.mem (.inl hf))) (List.nodup_append.mp (h.nodup hnd)).1 hpage (by omega)
  have hsplit := h.split
  rw [hpop, List.length_cons] at hcount
  rw [hpop, List.cons_append] at hsplit
  refine ⟨frame, s, nodes', hcall, hstack, ?_, ⟨k, ?_, ?_⟩, fun hne => ?_, ?_, ?_, ?_⟩
  · rw [hb.ahead]
    exact List.perm_middle.trans hsplit
  · rw [hb.ahead]
    exact hk
  · rw [Nat.add_right_comm, Nat.mul_succ] at hcount
    exact Nat.add_right_cancel (hless.trans hcount)
  · rw [hb.ahead] at hne
    exact hb.bump (h.bump hne)
  · rw [hb.stop]
    exact h.stop
  · rw [hb.size]
    exact h.size
  · rw [hb.size]
    exact hword

theorem Sound.extend (h : Sound map all nodes w) (hreg : Regular map.area)
    (hal : ∀ f ∈ all, Aligned f) (hc : w.state.alloc.count = 0) (hfree : w.state.alloc.free ≠ 0) :
    ∃ frame s nodes', allocFrame map w.state = some (frame, s) ∧
      Sound map all nodes' ⟨s, frame :: w.live⟩ := by
  have hle := h.free_le
  have hword := h.word
  have hsplit := h.split
  obtain ⟨k, hk, hcount⟩ := h.free
  obtain rfl := h.stacked.empty.mp hc
  cases hahead : ahead map.area w.state.alloc with
  | nil =>
    rw [hahead] at hk
    obtain rfl : k = 0 := Nat.le_zero.mp hk
    exact absurd hcount hfree
  | cons frame fs =>
    have hframe := hal frame (h.mem (.inr (.inr (by simp [hahead]))))
    rw [freeFrames, List.length_nil, Nat.zero_add] at hcount
    obtain ⟨j, rfl⟩ : ∃ j, k = j + 1 := ⟨k - 1, by
      have : k ≠ 0 := by
        rintro rfl
        exact hfree hcount
      omega⟩
    rw [Nat.mul_succ] at hcount
    obtain ⟨s, hcall, hb, hrest, hless, hzero, hstop, hsize⟩ :=
      (h.bump (by simp [hahead])).alloc hreg h.stop hc hahead hframe (by omega) (by omega)
    rw [hahead] at hsplit hk
    refine ⟨frame, s, [], hcall, ⟨?_, ?_, ?_, rfl⟩, ?_, ⟨j, ?_, ?_⟩, fun _ => hb, ?_, ?_, ?_⟩
    · simp only [hzero]
      omega
    · simp [hzero]
    · simp
    · rw [hrest]
      exact List.perm_middle.symm.trans hsplit
    · rw [hrest]
      exact Nat.le_of_succ_le_succ hk
    · rw [freeFrames, List.length_nil, Nat.zero_add]
      exact Nat.add_right_cancel (hless.trans hcount)
    · rw [hstop]
      exact h.stop
    · rw [hsize]
      exact h.size
    · rw [hsize]
      exact hword

theorem Sound.alloc (h : Sound map all nodes w) (hreg : Regular map.area) (hnd : all.Nodup)
    (hal : ∀ f ∈ all, Aligned f) (hfree : w.state.alloc.free ≠ 0) :
    ∃ frame s nodes', allocFrame map w.state = some (frame, s) ∧
      Sound map all nodes' ⟨s, frame :: w.live⟩ := by
  by_cases hc : 0 < w.state.alloc.count
  · exact h.pop hnd hal hc
  · exact h.extend hreg hal (by omega) hfree

theorem Sound.dealloc (h : Sound map all nodes w) (hnd : all.Nodup) (hal : ∀ f ∈ all, Aligned f)
    (hlive : frame ∈ w.live) (hclean : cleanFree w (.dealloc frame) = true) :
    ∃ s nodes', deallocFrame w.state frame = some s ∧
      Sound map all nodes' ⟨s, w.live.erase frame⟩ := by
  have hle := h.free_le
  have hall := h.nodup hnd
  obtain ⟨k, hk, hcount⟩ := h.free
  have hperm := List.perm_cons_erase hlive
  have hnew : (frame :: freeFrames w.state.mem w.state.alloc.count nodes).Nodup := by
    obtain ⟨h1, -, h2⟩ := List.nodup_append.mp hall
    exact List.nodup_cons.mpr ⟨fun hf => h2 frame hf frame (by simp [hlive]) rfl, h1⟩
  have hstale (h0 : w.state.alloc.count = 0) : current w.state.alloc = 0 := by
    simpa [cleanFree, staleWindow, h0] using hclean
  have hroom : w.state.alloc.free + pageSize ≤ w.state.alloc.size := by
    rw [hperm.length_eq, List.length_cons, Nat.mul_succ] at hle
    omega
  obtain ⟨s, nodes', hcall, hstack, hpush, hmore, hb, -⟩ := h.stacked.dealloc
    (fun f hf => hal f (h.mem (.inl hf))) (hal frame (h.mem (.inr (.inl hlive)))) hnew hstale hroom
    h.word
  refine ⟨s, nodes', hcall, hstack, ?_, ⟨k, ?_, ?_⟩, fun hne => ?_, ?_, ?_, ?_⟩
  · rw [hpush, hb.ahead]
    refine .trans ?_ h.split
    rw [List.cons_append]
    refine List.perm_middle.symm.trans (.append_left _ ?_)
    rw [← List.cons_append]
    exact hperm.symm.append_right _
  · rw [hb.ahead]
    exact hk
  · rw [hpush, List.length_cons, hmore, hcount, Nat.add_right_comm, Nat.mul_succ]
  · rw [hb.ahead] at hne
    exact hb.bump (h.bump hne)
  · rw [hb.stop]
    exact h.stop
  · rw [hb.size]
    exact h.size
  · rw [hb.size]
    exact h.word

theorem Sound.write (h : Sound map all nodes w) (hnd : all.Nodup) (hal : ∀ f ∈ all, Aligned f)
    {addr : Nat} {byte : BitVec 8} (hlive : ∃ f ∈ w.live, f ≤ addr ∧ addr < f + pageSize) :
    Sound map all nodes
      { w with state := { w.state with mem := storeByte w.state.mem addr byte } } := by
  obtain ⟨f, hf, h1, h2⟩ := hlive
  have hpages (node : Nat) (hn : node ∈ nodes) :
      SamePage w.state.mem (storeByte w.state.mem addr byte) node := by
    have hmem : node ∈ freeFrames w.state.mem w.state.alloc.count nodes := mem_freeFrames hn
    have hne : node ≠ f := by
      rintro rfl
      exact (List.nodup_append.mp (h.nodup hnd)).2.2 node hmem node (by simp [hf]) rfl
    have hap := pages_apart (hal node (h.mem (.inl hmem))).1 (hal f (h.mem (.inr (.inl hf)))).1 hne
    intro x hx hx'
    exact storeByte_other _ _ (by omega)
  have hsame := freeFrames_congr h.stacked.count hpages
  refine ⟨h.stacked.congr hpages, ?_, ?_, h.bump, h.stop, h.size, h.word⟩
  · simp only [hsame]
    exact h.split
  · simp only [hsame]
    exact h.free

theorem Sound.step (hreg : Regular map.area) (hnd : all.Nodup) (hal : ∀ f ∈ all, Aligned f)
    {a : Action} (h : ∃ nodes, Sound map all nodes w) (hclean : cleanFree w a = true)
    (hs : Frame.step map w a = some w') : ∃ nodes, Sound map all nodes w' := by
  obtain ⟨nodes, h⟩ := h
  cases a with
  | alloc =>
    by_cases hfree : w.state.alloc.free = 0
    · have hcall : allocFrame map w.state = some (0, w.state) := by rw [allocFrame, if_pos hfree]
      rw [Frame.step, hcall] at hs
      simp only [Option.map_some, hfree, if_true, Option.some.injEq] at hs
      subst hs
      exact ⟨nodes, h⟩
    · obtain ⟨frame, s, nodes', hcall, hsound⟩ := h.alloc hreg hnd hal hfree
      rw [Frame.step, hcall] at hs
      simp only [Option.map_some, hfree, if_false, Option.some.injEq] at hs
      subst hs
      exact ⟨nodes', hsound⟩
  | dealloc frame =>
    rw [Frame.step] at hs
    split at hs
    next hlive =>
      obtain ⟨s, nodes', hcall, hsound⟩ := h.dealloc hnd hal hlive hclean
      rw [hcall] at hs
      obtain rfl := Option.some.inj hs
      exact ⟨nodes', hsound⟩
    next => exact absurd hs (by simp)
  | write addr byte =>
    rw [Frame.step] at hs
    split at hs
    next hlive =>
      obtain rfl := Option.some.inj hs
      exact ⟨nodes, h.write hnd hal hlive⟩
    next => exact absurd hs (by simp)

theorem sound_initial {begin stop : Nat} {a : Allocator} {mem : Memory}
    (h : Initial map begin stop a) :
    Sound map (usable begin stop map.area) [] ⟨⟨a, mem⟩, []⟩ := by
  obtain ⟨k, hk, hle, -⟩ := h.free
  refine ⟨⟨?_, ?_, by simp, rfl⟩, ?_, ⟨k, hle, ?_⟩, h.bump, ?_, ?_, h.word⟩
  · rw [h.count]
    omega
  · simp [h.count]
  · rw [← h.whole]
    exact .refl _
  · rw [hk, freeFrames, List.length_nil, Nat.zero_add]
  · rw [h.same]
    exact h.high
  · rw [← h.whole]
    exact h.size

end sound

theorem handed_out_once {map : MemoryMap} {position begin stop : Nat} {a : Allocator} {mem : Memory}
    {as : List Action} {w : World} (h : Regular map.area) (hpos : 0 < begin) (hstop : stop < wordSize)
    (hnear : ∀ x ∈ map.area, Near begin stop x) (hinit : allocInit map position begin stop = some a)
    (hrun : PartialRun.run (step map) ⟨⟨a, mem⟩, []⟩ as = some w)
    (hclean : PartialRun.throughout (step map) cleanFree ⟨⟨a, mem⟩, []⟩ as = true) :
    (w.state.alloc.free ≠ 0 → ∃ frame s, allocFrame map w.state = some (frame, s) ∧ frame ≠ 0 ∧
      frame % pageSize = 0 ∧ begin ≤ frame ∧ frame < stop ∧
      (∃ area ∈ map.area, area.begin ≤ frame ∧ frame + pageSize ≤ area.stop) ∧ frame ∉ w.live) ∧
    ∀ frame ∈ w.live, cleanFree w (.dealloc frame) = true → ∃ s, deallocFrame w.state frame = some s := by
  have hi := allocInit_initial h hstop hnear hinit
  have hnd : (usable begin stop map.area).Nodup := (usable_sorted h).imp fun hlt => hlt.ne
  have hal (f : Nat) (hf : f ∈ usable begin stop map.area) : Aligned f :=
    usable_frame h hi.low hpos hstop hf
  obtain ⟨nodes, hsound⟩ := PartialRun.invariant
    (fun _ _ _ hs hg hstep => Sound.step h hnd hal hs hg hstep) ⟨[], sound_initial hi⟩ hrun hclean
  refine ⟨fun hfree => ?_, fun frame hlive hc => ?_⟩
  · obtain ⟨frame, s, nodes', hcall, hsound'⟩ := hsound.alloc h hnd hal hfree
    have hmem := hsound'.mem (f := frame) (.inr (.inl (by simp)))
    obtain ⟨h1, h2, h3, h4⟩ := usable_inside h hi.low hmem
    have hfresh := (List.nodup_append.mp (hsound'.nodup hnd)).2.1
    rw [List.cons_append] at hfresh
    exact ⟨frame, s, hcall, (hal frame hmem).2.1, h1, h2, h3, h4, fun hin =>
      (List.nodup_cons.mp hfresh).1 (List.mem_append_left _ hin)⟩
  · obtain ⟨s, nodes', hcall, -⟩ := hsound.dealloc hnd hal hlive hc
    exact ⟨s, hcall⟩

def oneArea : MemoryMap := ⟨[⟨0x1000, 0x10000⟩], 0x10000⟩

theorem oneArea_regular : Regular oneArea.area :=
  ⟨by simp [oneArea], by simp [oneArea], by simp [oneArea, pageSize], by simp [oneArea, wordSize]⟩

theorem oneArea_near : ∀ x ∈ oneArea.area, Near 0x1000 0x9000 x := by
  intro x hx
  obtain rfl : x = ⟨0x1000, 0x10000⟩ := by simpa [oneArea] using hx
  change max 0x1000 0x1000 ≤ min 0x9000 0x10000 + 2 ^ 63
  omega

theorem handed_out_once_sample : ∃ (a : Allocator) (w : World),
    allocInit oneArea 0 0x1000 0x9000 = some a ∧ PartialRun.run (step oneArea) ⟨⟨a, fun _ => 0⟩, []⟩
      [.alloc, .alloc, .write 0x1ff9 0x10, .dealloc 0x1000] = some w ∧
    ∃ frame s, allocFrame oneArea w.state = some (frame, s) ∧ frame ∉ w.live := by
  have hobs : ((allocInit oneArea 0 0x1000 0x9000).bind fun a =>
      (PartialRun.run (step oneArea) ⟨⟨a, fun _ => 0⟩, []⟩
        [.alloc, .alloc, .write 0x1ff9 0x10, .dealloc 0x1000]).map fun w =>
        (w.state.alloc.free, PartialRun.throughout (step oneArea) cleanFree ⟨⟨a, fun _ => 0⟩, []⟩
          [.alloc, .alloc, .write 0x1ff9 0x10, .dealloc 0x1000])) = some (0x7000, true) := by
    decide +kernel
  obtain ⟨a, ha, hobs⟩ := Option.bind_eq_some_iff.mp hobs
  obtain ⟨w, hrun, hobs⟩ := Option.map_eq_some_iff.mp hobs
  simp only [Prod.mk.injEq] at hobs
  obtain ⟨hfree, hclean⟩ := hobs
  obtain ⟨frame, s, hcall, -, -, -, -, -, hfresh⟩ := (handed_out_once oneArea_regular (by decide)
    (by decide) oneArea_near ha hrun hclean).1 (by rw [hfree]; decide)
  exact ⟨a, w, ha, hrun, frame, s, hcall, hfresh⟩

-- the owner of 0x1000 writes where a full node keeps its last frame
def drainedRun : List Action :=
  [.alloc, .dealloc 0x1000, .alloc, .write 0x1ff9 0x10, .alloc, .dealloc 0x2000, .alloc]

theorem not_handed_out_once : ¬ ∀ (map : MemoryMap) (position begin stop : Nat) (a : Allocator)
    (mem : Memory) (as : List Action) (w : World), Regular map.area → 0 < begin → stop < wordSize →
    (∀ x ∈ map.area, Near begin stop x) → allocInit map position begin stop = some a →
    PartialRun.run (step map) ⟨⟨a, mem⟩, []⟩ as = some w → w.state.alloc.free ≠ 0 →
    ∃ frame s, allocFrame map w.state = some (frame, s) ∧ frame ∉ w.live := by
  intro h
  have hobs : ((allocInit oneArea 0 0x1000 0x9000).bind fun a =>
      (PartialRun.run (step oneArea) ⟨⟨a, fun _ => 0⟩, []⟩ drainedRun).map fun w =>
        (w.live, w.state.alloc.free, (allocFrame oneArea w.state).map (·.1))) =
      some ([0x2000, 0x1000], 0x6000, some 0x1000) := by
    decide +kernel
  obtain ⟨a, ha, hobs⟩ := Option.bind_eq_some_iff.mp hobs
  obtain ⟨w, hrun, hobs⟩ := Option.map_eq_some_iff.mp hobs
  simp only [Prod.mk.injEq] at hobs
  obtain ⟨hlive, hfree, hagain⟩ := hobs
  obtain ⟨frame, s, hcall, hfresh⟩ := h oneArea 0 0x1000 0x9000 a (fun _ => 0) drainedRun w
    oneArea_regular (by decide) (by decide) oneArea_near ha hrun (by rw [hfree]; decide)
  rw [hcall] at hagain
  obtain rfl : frame = 0x1000 := Option.some.inj hagain
  exact hfresh (by rw [hlive]; decide)

end Lasagne.Frame
