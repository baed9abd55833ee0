import Mathlib
import Lasagne.Frame.Allocator
import Lasagne.Library.LinkedList

namespace Lasagne.Frame
open ByteMemory LinkedList

-- last pushed first
def nodeFrames (m : Memory) (node n : Nat) : List Nat :=
  ((List.range n).map (nodeFrame m node)).reverse

def chainFrames (m : Memory) : List Nat → List Nat
  | [] => []
  | node :: nodes => nodeFrames m node 511 ++ node :: chainFrames m nodes

def freeFrames (m : Memory) (count : Nat) : List Nat → List Nat
  | [] => []
  | node :: nodes => nodeFrames m node (count - 1) ++ node :: chainFrames m nodes

structure Stacked (a : Allocator) (m : Memory) (nodes : List Nat) : Prop where
  count : a.count ≤ 512
  empty : a.count = 0 ↔ nodes = []
  window : ∀ node ∈ nodes.head?, current a = node ∧ a.current = true
  links : Forward (nodeNext m) (nodes.headD 0) nodes

def Aligned (frame : Nat) : Prop := frame % pageSize = 0 ∧ frame ≠ 0 ∧ frame < CInt.wordSize

section memory
variable {m m' : Memory} {node n count : Nat} {nodes : List Nat}

def SamePage (m m' : Memory) (frame : Nat) : Prop :=
  ∀ x, frame ≤ x → x < frame + pageSize → m' x = m x

theorem SamePage.nodeNext (h : SamePage m m' node) : nodeNext m' node = nodeNext m node := by
  rw [Frame.nodeNext, Frame.nodeNext,
    loadWord_congr fun x hx hx' => h x hx (by rw [pageSize]; omega)]

theorem SamePage.nodeFrame (h : SamePage m m' node) {i : Nat} (hi : i < 511) :
    nodeFrame m' node i = nodeFrame m node i := by
  rw [Frame.nodeFrame, Frame.nodeFrame,
    loadWord_congr fun x hx hx' => h x (by omega) (by rw [pageSize]; omega)]

theorem SamePage.nodeFrames (h : SamePage m m' node) (hn : n ≤ 511) :
    nodeFrames m' node n = nodeFrames m node n := by
  rw [Frame.nodeFrames, Frame.nodeFrames]
  congr 1
  refine List.map_congr_left fun i hi => h.nodeFrame ?_
  rw [List.mem_range] at hi
  omega

theorem chainFrames_congr (h : ∀ node ∈ nodes, SamePage m m' node) :
    chainFrames m' nodes = chainFrames m nodes := by
  induction nodes with
  | nil => rfl
  | cons node nodes ih =>
    rw [chainFrames, chainFrames, (h node (by simp)).nodeFrames le_rfl,
      ih fun x hx => h x (by simp [hx])]

theorem freeFrames_congr (hc : count ≤ 512) (h : ∀ node ∈ nodes, SamePage m m' node) :
    freeFrames m' count nodes = freeFrames m count nodes := by
  cases nodes with
  | nil => rfl
  | cons node nodes =>
    rw [freeFrames, freeFrames, (h node (by simp)).nodeFrames (by omega),
      chainFrames_congr fun x hx => h x (by simp [hx])]

theorem mem_chainFrames (h : node ∈ nodes) : node ∈ chainFrames m nodes := by
  induction nodes with
  | nil => simp at h
  | cons x xs ih =>
    rcases List.mem_cons.mp h with rfl | h
    · simp [chainFrames]
    · simp [chainFrames, ih h]

theorem mem_freeFrames (h : node ∈ nodes) : node ∈ freeFrames m count nodes := by
  cases nodes with
  | nil => simp at h
  | cons x xs =>
    rcases List.mem_cons.mp h with rfl | h
    · simp [freeFrames]
    · simp [freeFrames, mem_chainFrames h]

theorem nodeFrames_succ : nodeFrames m node (n + 1) = nodeFrame m node n :: nodeFrames m node n := by
  rw [nodeFrames, List.range_succ, List.map_append, List.reverse_append]
  rfl

theorem pages_apart {f g : Nat} (hf : f % pageSize = 0) (hg : g % pageSize = 0) (hne : f ≠ g) :
    f + pageSize ≤ g ∨ g + pageSize ≤ f := by
  rw [pageSize] at *
  omega

end memory

section window
variable {a : Allocator} {addr : Nat}

theorem current_mapNode (h : Aligned addr) : current (mapNode a addr) = addr ∧
    (mapNode a addr).current = true := by
  obtain ⟨ha, h0, -⟩ := h
  rw [pageSize] at ha
  rw [mapNode, if_neg h0]
  refine ⟨?_, rfl⟩
  obtain ⟨k, rfl⟩ : ∃ k, addr = 4096 * k := ⟨addr / 4096, by omega⟩
  have hlow : (a.pte &&& 0xFFF) < 2 ^ 12 := Nat.and_lt_two_pow _ (by decide)
  have hor : (a.pte &&& 0xFFF) ||| 4096 * k = 2 ^ 12 * k + (a.pte &&& 0xFFF) := by
    rw [Nat.or_comm]
    exact (Nat.two_pow_add_eq_or_of_lt hlow k).symm
  rw [current, pageSize]
  simp only [hor]
  omega

end window

structure SameBump (a b : Allocator) : Prop where
  begin : b.begin = a.begin
  stop : b.stop = a.stop
  size : b.size = a.size
  position : b.currentMapPosition = a.currentMapPosition

theorem sameBump_mapNode (a : Allocator) (addr : Nat) : SameBump a (mapNode a addr) := by
  rw [mapNode]
  split <;> exact ⟨rfl, rfl, rfl, rfl⟩

theorem mapNode_free (a : Allocator) (addr : Nat) : (mapNode a addr).free = a.free := by
  rw [mapNode]
  split <;> rfl

section stacked
variable {map : MemMap.MemoryMap} {a : Allocator} {m m' : Memory} {nodes : List Nat} {s : State} {frame : Nat}

theorem Stacked.congr (h : Stacked a m nodes) (hm : ∀ node ∈ nodes, SamePage m m' node) :
    Stacked a m' nodes :=
  ⟨h.count, h.empty, h.window, h.links.congr fun node hn => (hm node hn).nodeNext⟩

theorem Stacked.pop (map : MemMap.MemoryMap) (h : Stacked s.alloc s.mem nodes) (hc : 0 < s.alloc.count)
    (hf : ∀ x ∈ freeFrames s.mem s.alloc.count nodes, Aligned x) :
    ∃ frame a nodes', takeFrame map s = (frame, a) ∧ Stacked a s.mem nodes' ∧
      freeFrames s.mem s.alloc.count nodes = frame :: freeFrames s.mem a.count nodes' ∧
      a.free = s.alloc.free ∧ SameBump s.alloc a := by
  cases nodes with
  | nil => exact absurd (h.empty.mpr rfl) (by omega)
  | cons node nodes =>
    obtain ⟨hcur, hset⟩ := h.window node rfl
    by_cases h1 : s.alloc.count > 1
    · have htake : takeFrame map s = (nodeFrame s.mem (current s.alloc) (s.alloc.count - 2),
          { s.alloc with count := s.alloc.count - 1 }) := by
        rw [takeFrame, if_pos h1]
      refine ⟨_, _, node :: nodes, htake, ⟨?_, ?_, ?_, h.links⟩, ?_, rfl, ⟨rfl, rfl, rfl, rfl⟩⟩
      · have := h.count
        simp only
        omega
      · simp only [reduceCtorEq, iff_false]
        omega
      · intro x hx
        obtain rfl : node = x := by simpa using hx
        exact ⟨hcur, hset⟩
      · obtain ⟨k, hk⟩ : ∃ k, s.alloc.count = k + 2 := ⟨s.alloc.count - 2, by omega⟩
        rw [freeFrames, freeFrames, hcur, hk, show k + 2 - 1 = k + 1 by omega, nodeFrames_succ]
        rfl
    · have h1' : s.alloc.count = 1 := by omega
      have hfree : freeFrames s.mem s.alloc.count (node :: nodes) = node :: chainFrames s.mem nodes := by
        rw [h1']
        rfl
      have hlinks := h.links.tail
      have htake : takeFrame map s = (node, if (mapNode s.alloc (nodeNext s.mem node)).current then
          { mapNode s.alloc (nodeNext s.mem node) with count := 512 }
          else { mapNode s.alloc (nodeNext s.mem node) with count := 0 }) := by
        rw [takeFrame, if_neg h1, if_pos h1', hcur]
      have hsame := sameBump_mapNode s.alloc (nodeNext s.mem node)
      cases nodes with
      | nil =>
        have h0 : nodeNext s.mem node = 0 := hlinks
        rw [h0] at htake hsame
        refine ⟨node, _, [], htake, ⟨by simp [mapNode], by simp [mapNode], by simp, rfl⟩, hfree, ?_⟩
        exact ⟨mapNode_free _ _, hsame.begin, hsame.stop, hsame.size, hsame.position⟩
      | cons next nodes =>
        have hnext : nodeNext s.mem node = next := hlinks.1
        have hal : Aligned next := hf next (mem_freeFrames (by simp))
        rw [hnext] at htake hsame
        obtain ⟨hw, hset'⟩ := current_mapNode (a := s.alloc) hal
        rw [hset', if_pos rfl] at htake
        refine ⟨node, _, next :: nodes, htake, ⟨le_rfl, by simp, ?_, ?_⟩, hfree, ?_⟩
        · intro x hx
          obtain rfl : next = x := by simpa using hx
          exact ⟨hw, hset'⟩
        · exact hnext ▸ hlinks
        · exact ⟨mapNode_free _ _, hsame.begin, hsame.stop, hsame.size, hsame.position⟩

theorem toNat_frame (h : Aligned frame) : (BitVec.ofNat 64 frame).toNat = frame := by
  rw [BitVec.toNat_ofNat]
  exact Nat.mod_eq_of_lt h.2.2

theorem Stacked.push_node (h : Stacked s.alloc s.mem nodes)
    (hf : ∀ x ∈ freeFrames s.mem s.alloc.count nodes, Aligned x) (hframe : Aligned frame)
    (hnew : frame ∉ freeFrames s.mem s.alloc.count nodes)
    (hstale : s.alloc.count = 0 → current s.alloc = 0) (hfull : s.alloc.count = 0 ∨ s.alloc.count = 512) :
    ∃ s' nodes', pushFrame s frame = some s' ∧ Stacked s'.alloc s'.mem nodes' ∧
      freeFrames s'.mem s'.alloc.count nodes' = frame :: freeFrames s.mem s.alloc.count nodes ∧
      s'.alloc.free = s.alloc.free ∧ SameBump s.alloc s'.alloc := by
  obtain ⟨hw, hset⟩ := current_mapNode (a := s.alloc) hframe
  have hpush : pushFrame s frame = some ⟨{ mapNode s.alloc frame with count := 1 },
      setNext s.mem frame (current s.alloc)⟩ := by
    rw [pushFrame, if_pos hfull]
    simp only [hset, if_true, hw]
  have hsame := sameBump_mapNode s.alloc frame
  have hpages (node : Nat) (hn : node ∈ nodes) :
      SamePage s.mem (setNext s.mem frame (current s.alloc)) node := by
    have hmem : node ∈ freeFrames s.mem s.alloc.count nodes := mem_freeFrames hn
    have hap := pages_apart hframe.1 (hf node hmem).1 fun heq => hnew (heq ▸ hmem)
    rw [pageSize] at hap
    intro x hx hx'
    rw [pageSize] at hx'
    exact storeWord_outside _ _ (by omega)
  have hnext : nodeNext (setNext s.mem frame (current s.alloc)) frame = nodes.headD 0 := by
    rw [nodeNext, setNext, loadWord_storeWord]
    cases nodes with
    | nil =>
      rw [hstale (h.empty.mpr rfl)]
      rfl
    | cons node nodes =>
      rw [(h.window node rfl).1]
      exact toNat_frame (hf node (mem_freeFrames (by simp)))
  refine ⟨_, frame :: nodes, hpush, ⟨by simp, by simp, ?_, ?_⟩, ?_,
    mapNode_free _ _, ⟨hsame.begin, hsame.stop, hsame.size, hsame.position⟩⟩
  · intro x hx
    obtain rfl : frame = x := by simpa using hx
    exact ⟨hw, hset⟩
  · refine ⟨rfl, hframe.2.1, ?_⟩
    rw [hnext]
    exact h.links.congr fun node hn => (hpages node hn).nodeNext
  · change frame :: chainFrames (setNext s.mem frame (current s.alloc)) nodes = _
    rw [chainFrames_congr hpages]
    cases nodes with
    | nil => rfl
    | cons node nodes =>
      have h512 : s.alloc.count = 512 := hfull.resolve_left fun h0 => by simpa using h.empty.mp h0
      rw [h512]
      rfl

theorem Stacked.push_frame (h : Stacked s.alloc s.mem nodes)
    (hf : ∀ x ∈ freeFrames s.mem s.alloc.count nodes, Aligned x) (hframe : Aligned frame)
    (hnd : (freeFrames s.mem s.alloc.count nodes).Nodup)
    (hfull : ¬ (s.alloc.count = 0 ∨ s.alloc.count = 512)) :
    ∃ s' nodes', pushFrame s frame = some s' ∧ Stacked s'.alloc s'.mem nodes' ∧
      freeFrames s'.mem s'.alloc.count nodes' = frame :: freeFrames s.mem s.alloc.count nodes ∧
      s'.alloc.free = s.alloc.free ∧ SameBump s.alloc s'.alloc := by
  have hcount := h.count
  cases nodes with
  | nil => exact absurd (.inl (h.empty.mpr rfl)) hfull
  | cons node nodes =>
    obtain ⟨hcur, hset⟩ := h.window node rfl
    set m := setFrame s.mem node (s.alloc.count - 1) frame with hm
    have hpush : pushFrame s frame = some ⟨{ s.alloc with count := s.alloc.count + 1 }, m⟩ := by
      rw [pushFrame, if_neg hfull, if_pos hset, hcur]
    have hnode := hf node (mem_freeFrames (by simp))
    have hpages (x : Nat) (hx : x ∈ nodes) : SamePage s.mem m x := by
      have hxf : x ∈ chainFrames s.mem nodes := mem_chainFrames hx
      have hne : node ≠ x := by
        rintro rfl
        have hnd' := (List.nodup_append.mp hnd).2.1
        exact (List.nodup_cons.mp hnd').1 hxf
      have hap := pages_apart hnode.1 (hf x (mem_freeFrames (by simp [hx]))).1 hne
      rw [pageSize] at hap
      intro y hy hy'
      rw [pageSize] at hy'
      exact storeWord_outside _ _ (by omega)
    have hnext : nodeNext m node = nodeNext s.mem node := by
      rw [nodeNext, hm, setFrame, loadWord_storeWord_apart _ _ (by omega), nodeNext]
    have hold : nodeFrames m node (s.alloc.count - 1) = nodeFrames s.mem node (s.alloc.count - 1) := by
      rw [nodeFrames, nodeFrames]
      congr 1
      refine List.map_congr_left fun i hi => ?_
      rw [List.mem_range] at hi
      rw [nodeFrame, hm, setFrame, loadWord_storeWord_apart _ _ (by omega), nodeFrame]
    have hnewest : nodeFrame m node (s.alloc.count - 1) = frame := by
      rw [nodeFrame, hm, setFrame, loadWord_storeWord, toNat_frame hframe]
    refine ⟨_, node :: nodes, hpush, ⟨by simp only; omega, by simp, ?_, ?_⟩, ?_,
      rfl, ⟨rfl, rfl, rfl, rfl⟩⟩
    · intro x hx
      obtain rfl : node = x := by simpa using hx
      exact ⟨hcur, hset⟩
    · refine ⟨rfl, h.links.2.1, ?_⟩
      rw [hnext]
      exact h.links.tail.congr fun x hx => (hpages x hx).nodeNext
    · rw [freeFrames, freeFrames, chainFrames_congr hpages,
        show s.alloc.count + 1 - 1 = s.alloc.count - 1 + 1 by omega, nodeFrames_succ, hold, hnewest]
      rfl

theorem Stacked.push (h : Stacked s.alloc s.mem nodes)
    (hf : ∀ x ∈ freeFrames s.mem s.alloc.count nodes, Aligned x) (hframe : Aligned frame)
    (hnew : (frame :: freeFrames s.mem s.alloc.count nodes).Nodup)
    (hstale : s.alloc.count = 0 → current s.alloc = 0) :
    ∃ s' nodes', pushFrame s frame = some s' ∧ Stacked s'.alloc s'.mem nodes' ∧
      freeFrames s'.mem s'.alloc.count nodes' = frame :: freeFrames s.mem s.alloc.count nodes ∧
      s'.alloc.free = s.alloc.free ∧ SameBump s.alloc s'.alloc := by
  obtain ⟨hnew, hnd⟩ := List.nodup_cons.mp hnew
  by_cases hfull : s.alloc.count = 0 ∨ s.alloc.count = 512
  · exact h.push_node hf hframe hnew hstale hfull
  · exact h.push_frame hf hframe hnd hfull

theorem Stacked.free (h : Stacked a m nodes) (n : Nat) : Stacked { a with free := n } m nodes :=
  ⟨h.count, h.empty, h.window, h.links⟩

theorem sub_page {n : Nat} (h : pageSize ≤ n) (hw : n < CInt.wordSize) :
    (n + CInt.wordSize - pageSize) % CInt.wordSize + pageSize = n := by
  rw [show n + CInt.wordSize - pageSize = n - pageSize + CInt.wordSize by omega,
    Nat.add_mod_right, Nat.mod_eq_of_lt (by omega)]
  omega

theorem allocFrame_take (htake : takeFrame map s = (frame, a)) (hframe : Aligned frame)
    (hsame : a.free = s.alloc.free) (hfree : pageSize ≤ s.alloc.free)
    (hword : s.alloc.free < CInt.wordSize) : ∃ n, n + pageSize = s.alloc.free ∧
      allocFrame map s = some (frame, ⟨{ a with free := n }, fill s.mem frame pageSize 0⟩) := by
  have hne : frame ≠ CInt.wordSize - 1 := by
    have := hframe.1
    rw [CInt.wordSize]
    rw [pageSize] at this
    omega
  have h0 : s.alloc.free ≠ 0 := by
    rw [pageSize] at hfree
    omega
  refine ⟨_, sub_page hfree hword, ?_⟩
  rw [allocFrame, if_neg h0, htake]
  simp only
  rw [if_neg hne, zeroFrame, if_pos hframe.1, hsame]
  rfl

theorem samePage_fill {f g : Nat} (hf : f % pageSize = 0) (hg : g % pageSize = 0) (hne : f ≠ g) :
    SamePage m (fill m f pageSize 0) g := by
  have hap := pages_apart hf hg hne
  intro x hx hx'
  exact fill_outside m 0 (by omega)

theorem Stacked.alloc (map : MemMap.MemoryMap) (h : Stacked s.alloc s.mem nodes) (hc : 0 < s.alloc.count)
    (hf : ∀ x ∈ freeFrames s.mem s.alloc.count nodes, Aligned x)
    (hnd : (freeFrames s.mem s.alloc.count nodes).Nodup)
    (hfree : pageSize ≤ s.alloc.free) (hword : s.alloc.free < CInt.wordSize) :
    ∃ frame s' nodes', allocFrame map s = some (frame, s') ∧ Stacked s'.alloc s'.mem nodes' ∧
      freeFrames s.mem s.alloc.count nodes = frame :: freeFrames s'.mem s'.alloc.count nodes' ∧
      s'.alloc.free + pageSize = s.alloc.free ∧ SameBump s.alloc s'.alloc ∧
      s'.mem = fill s.mem frame pageSize 0 := by
  obtain ⟨frame, a, nodes', htake, hs, hfrees, hsame, hb⟩ := h.pop map hc hf
  rw [hfrees] at hf hnd
  have hframe := hf frame (by simp)
  have hpages (node : Nat) (hn : node ∈ nodes') :
      SamePage s.mem (fill s.mem frame pageSize 0) node := by
    have hmem : node ∈ freeFrames s.mem a.count nodes' := mem_freeFrames hn
    refine samePage_fill hframe.1 (hf node (by simp [hmem])).1 ?_
    rintro rfl
    exact (List.nodup_cons.mp hnd).1 hmem
  obtain ⟨n, hn, hcall⟩ := allocFrame_take htake hframe hsame hfree hword
  refine ⟨frame, _, nodes', hcall, (hs.congr hpages).free n, ?_, hn,
    ⟨hb.begin, hb.stop, hb.size, hb.position⟩, rfl⟩
  change _ = frame :: freeFrames (fill s.mem frame pageSize 0) a.count nodes'
  rw [hfrees, freeFrames_congr hs.count hpages]

def OnPages (frames : List Nat) (x : Nat) : Prop := ∃ f ∈ frames, f ≤ x ∧ x < f + pageSize

theorem Stacked.push_mem {s' : State} (h : Stacked s.alloc s.mem nodes) (hframe : Aligned frame)
    (hpush : pushFrame s frame = some s') :
    SameOutside (OnPages (frame :: freeFrames s.mem s.alloc.count nodes)) s.mem s'.mem := by
  have hcount := h.count
  by_cases hfull : s.alloc.count = 0 ∨ s.alloc.count = 512
  · obtain ⟨hw, hset⟩ := current_mapNode (a := s.alloc) hframe
    rw [pushFrame, if_pos hfull] at hpush
    simp only [hset, if_true, hw] at hpush
    obtain rfl := Option.some.inj hpush
    refine sameOutside_storeWord fun x hx hx' => ⟨frame, by simp, hx, ?_⟩
    rw [pageSize]
    omega
  · rw [pushFrame, if_neg hfull] at hpush
    cases nodes with
    | nil => exact absurd (.inl (h.empty.mpr rfl)) hfull
    | cons node nodes =>
      obtain ⟨hcur, hset⟩ := h.window node rfl
      simp only [hset, if_true, hcur] at hpush
      obtain rfl := Option.some.inj hpush
      refine sameOutside_storeWord fun x hx hx' =>
        ⟨node, List.mem_cons_of_mem _ (mem_freeFrames (by simp)), by omega, ?_⟩
      rw [pageSize]
      omega

theorem Stacked.dealloc (h : Stacked s.alloc s.mem nodes)
    (hf : ∀ x ∈ freeFrames s.mem s.alloc.count nodes, Aligned x) (hframe : Aligned frame)
    (hnew : (frame :: freeFrames s.mem s.alloc.count nodes).Nodup)
    (hstale : s.alloc.count = 0 → current s.alloc = 0)
    (hfree : s.alloc.free + pageSize ≤ s.alloc.size) (hword : s.alloc.size < CInt.wordSize) :
    ∃ s' nodes', deallocFrame s frame = some s' ∧ Stacked s'.alloc s'.mem nodes' ∧
      freeFrames s'.mem s'.alloc.count nodes' = frame :: freeFrames s.mem s.alloc.count nodes ∧
      s'.alloc.free = s.alloc.free + pageSize ∧ SameBump s.alloc s'.alloc ∧
      SameOutside (OnPages (frame :: freeFrames s.mem s.alloc.count nodes)) s.mem s'.mem := by
  obtain ⟨s', nodes', hpush, hs, hfrees, hsame, hb⟩ := h.push hf hframe hnew hstale
  have hmem := h.push_mem hframe hpush
  obtain ⟨n, hn⟩ : ∃ n, n = s.alloc.free + pageSize := ⟨_, rfl⟩
  have hadd : (s'.alloc.free + pageSize) % CInt.wordSize = n := by
    rw [hsame, ← hn, Nat.mod_eq_of_lt (by omega)]
  refine ⟨{ s' with alloc := { s'.alloc with free := n } }, nodes', ?_, hs.free n, hfrees, hn,
    ⟨hb.begin, hb.stop, hb.size, hb.position⟩, hmem⟩
  rw [deallocFrame, if_pos hframe.1, hpush, Option.bind_some]
  simp only [hadd]
  rw [if_pos (by rw [hb.size, hn]; exact hfree)]

end stacked

end Lasagne.Frame
