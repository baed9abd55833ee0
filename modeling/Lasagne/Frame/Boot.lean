import Mathlib
import Lasagne.Frame.Bump
import Lasagne.Frame.Stack

namespace Lasagne.Frame
open ByteMemory CInt MemMap

def allocFrames (map : MemoryMap) : Nat → State → Option (List Nat × State)
  | 0, s => some ([], s)
  | n + 1, s => (allocFrame map s).bind fun (frame, s) =>
    (allocFrames map n s).map fun (frames, s) => (frame :: frames, s)

section alloc
variable {map : MemoryMap} {s : State} {f : Nat} {fs : List Nat}

theorem usable_frame {areas : List Area} {begin stop : Nat} (h : Regular areas)
    (hb : begin % pageSize = 0) (hpos : 0 < begin) (hs : stop < wordSize)
    (hf : f ∈ usable begin stop areas) : Aligned f := by
  obtain ⟨h1, h2, h3, -⟩ := usable_inside h hb hf
  exact ⟨h1, by omega, h3.trans hs⟩

theorem Bump.alloc (b : Bump map.area s.alloc) (h : Regular map.area)
    (hs : s.alloc.stop % pageSize = 0) (hcount : s.alloc.count = 0)
    (hahead : ahead map.area s.alloc = f :: fs) (hf : Aligned f) (hfree : pageSize ≤ s.alloc.free)
    (hword : s.alloc.free < wordSize) : ∃ s', allocFrame map s = some (f, s') ∧
      Bump map.area s'.alloc ∧ ahead map.area s'.alloc = fs ∧
      s'.alloc.free + pageSize = s.alloc.free ∧ s'.alloc.count = 0 ∧
      s'.alloc.stop = s.alloc.stop ∧ s'.alloc.size = s.alloc.size := by
  obtain ⟨begin, position, hext, hb, hrest⟩ := b.extend h hs hahead
  have htake : takeFrame map s =
      (f, { s.alloc with begin := begin, currentMapPosition := position }) := by
    rw [takeFrame, if_neg (by omega), if_neg (by omega), hext]
  obtain ⟨n, hn, hcall⟩ := allocFrame_take htake hf rfl hfree hword
  exact ⟨_, hcall, ⟨hb.aligned, hb.inside⟩, hrest, hn, hcount, rfl, rfl⟩

end alloc

-- no frame was freed yet and these are still to come
structure Booted (map : MemoryMap) (frames : List Nat) (s : State) : Prop where
  bump : frames ≠ [] → Bump map.area s.alloc
  ahead : ahead map.area s.alloc = frames
  free : s.alloc.free = pageSize * frames.length
  word : s.alloc.free < wordSize
  count : s.alloc.count = 0
  stop : s.alloc.stop % pageSize = 0

section boot
variable {map : MemoryMap} {s : State} {f : Nat} {frames : List Nat}

theorem Booted.alloc (b : Booted map (f :: frames) s) (h : Regular map.area) (hf : Aligned f) :
    ∃ s', allocFrame map s = some (f, s') ∧ Booted map frames s' := by
  have hfree := b.free
  rw [List.length_cons, Nat.mul_succ] at hfree
  obtain ⟨s', hcall, hb, hahead, hsame, hcount, hstop, -⟩ :=
    (b.bump (by simp)).alloc h b.stop b.count b.ahead hf (by omega) b.word
  have hword := b.word
  exact ⟨s', hcall, fun _ => hb, hahead, by omega, by omega, hcount, by rw [hstop]; exact b.stop⟩

theorem Booted.empty (b : Booted map [] s) : allocFrame map s = some (0, s) := by
  have hfree : s.alloc.free = 0 := b.free
  rw [allocFrame, if_pos hfree]

theorem allocFrames_succ {t : State} (n : Nat) (h : allocFrame map s = some (f, t)) :
    allocFrames map (n + 1) s = (allocFrames map n t).map fun r => (f :: r.1, r.2) := by
  rw [allocFrames, h]
  rfl

theorem Booted.run (n : Nat) (b : Booted map frames s) (h : Regular map.area)
    (hf : ∀ f ∈ frames, Aligned f) : ∃ s', allocFrames map n s =
      some (frames.take n ++ List.replicate (n - frames.length) 0, s') ∧
      Booted map (frames.drop n) s' := by
  induction n generalizing s frames with
  | zero => exact ⟨s, by simp [allocFrames], b⟩
  | succ n ih =>
    cases frames with
    | nil =>
      obtain ⟨s', hrun, hb⟩ := ih b hf
      refine ⟨s', ?_, by simpa using hb⟩
      rw [allocFrames_succ n b.empty, hrun]
      simp [List.replicate_succ]
    | cons f frames =>
      obtain ⟨t, hcall, hb⟩ := b.alloc h (hf f (by simp))
      obtain ⟨s', hrun, hb'⟩ := ih hb fun x hx => hf x (by simp [hx])
      refine ⟨s', ?_, hb'⟩
      rw [allocFrames_succ n hcall, hrun]
      simp

theorem Booted.reads (b : Booted map frames s) (h : Regular map.area) (hfree : s.alloc.free ≠ 0) :
    (extend map s.alloc).2.currentMapPosition < map.area.length := by
  cases frames with
  | nil => exact absurd b.free hfree
  | cons f frames =>
    obtain ⟨begin, position, hext, hb, -⟩ := (b.bump (by simp)).extend h b.stop b.ahead
    obtain ⟨area, rest, hdrop, -⟩ := hb.inside
    rw [hext]
    by_contra hge
    rw [List.drop_eq_nil_of_le (not_lt.mp hge)] at hdrop
    exact absurd hdrop (by simp)

end boot

-- the map position extend leaves is the last one it has read
theorem boot_exact (map : MemoryMap) (position begin stop : Nat) (mem : Memory)
    (h : Regular map.area) (hpos : 0 < begin) (hb : begin % pageSize = 0) (hs : stop % pageSize = 0)
    (hlt : begin < stop) (hword : stop < wordSize) (hnear : ∀ x ∈ map.area, Near begin stop x)
    (hshort : ∀ x ∈ map.area, Short begin stop x) :
    ∃ (a : Allocator) (frames : List Nat), allocInit map position begin stop = some a ∧ frames.Pairwise (· < ·) ∧
      (∀ f, f ∈ frames ↔ f % pageSize = 0 ∧ begin ≤ f ∧ f < stop ∧
        ∃ area ∈ map.area, area.begin ≤ f ∧ f < area.stop) ∧
      a.capacity = pageSize * frames.length ∧
      ∀ n, ∃ s, allocFrames map n ⟨a, mem⟩ =
        some (frames.take n ++ List.replicate (n - frames.length) 0, s) ∧
        (s.alloc.free ≠ 0 → (extend map s.alloc).2.currentMapPosition < map.area.length) := by
  obtain ⟨a, ha⟩ : ∃ a, allocInit map position begin stop = some a := by
    rw [allocInit, if_pos ⟨hb, hs, hlt⟩]
    exact ⟨_, rfl⟩
  have hi := allocInit_initial h hword hnear ha
  obtain ⟨k, hk, -, hexact⟩ := hi.free
  rw [hexact hshort] at hk
  have hsize := hi.size
  have hsword := hi.word
  have hfree : a.free < wordSize := by omega
  have hbooted : Booted map (ahead map.area a) ⟨a, mem⟩ :=
    ⟨hi.bump, rfl, hk, hfree, hi.count, by rw [hi.same]; exact hs⟩
  have hframes : ∀ f ∈ ahead map.area a, Aligned f := by
    rw [hi.whole]
    exact fun f hf => usable_frame h hb hpos hword hf
  refine ⟨a, ahead map.area a, ha, ?_, fun f => ?_, hi.capacity.trans hk, fun n => ?_⟩
  · rw [hi.whole]
    exact usable_sorted h
  · rw [hi.whole]
    constructor
    · intro hf
      obtain ⟨h1, h2, h3, area, h4, h5, h6⟩ := usable_inside h hb hf
      exact ⟨h1, h2, h3, area, h4, h5, lt_of_lt_of_le (Nat.lt_add_of_pos_right (by decide)) h6⟩
    · rintro ⟨h1, h2, h3, h4⟩
      exact usable_complete h hb hs h1 h2 h3 h4
  · obtain ⟨s, hrun, hbooted'⟩ := hbooted.run n h hframes
    exact ⟨s, hrun, hbooted'.reads h⟩

def twoAreas : MemoryMap := ⟨[⟨0x1000, 0x3000⟩, ⟨0x5000, 0x7000⟩], 0x7000⟩

theorem twoAreas_regular : Regular twoAreas.area :=
  ⟨by simp [twoAreas], by simp [twoAreas], by simp [twoAreas, pageSize],
    by simp [twoAreas, wordSize]⟩

theorem boot_exact_sample : ∃ (a : Allocator) (frames : List Nat),
    allocInit twoAreas 0 0x2000 0x6000 = some a ∧ a.capacity = pageSize * frames.length ∧
    0x5000 ∈ frames := by
  have hbound (x : Area) (hx : x ∈ twoAreas.area) :
      0x1000 ≤ x.begin ∧ x.begin ≤ 0x5000 ∧ 0x3000 ≤ x.stop ∧ x.stop ≤ 0x7000 := by
    simp only [twoAreas, List.mem_cons, List.not_mem_nil, or_false] at hx
    rcases hx with rfl | rfl <;> decide
  have hnear (x : Area) (hx : x ∈ twoAreas.area) : Near 0x2000 0x6000 x := by
    have := hbound x hx
    rw [Near]
    omega
  have hshort (x : Area) (hx : x ∈ twoAreas.area) : Short 0x2000 0x6000 x := by
    have := hbound x hx
    rw [Short]
    omega
  obtain ⟨a, frames, ha, -, hmem, hcapacity, -⟩ := boot_exact twoAreas 0 0x2000 0x6000 (fun _ => 0)
    twoAreas_regular (by decide) (by decide) (by decide) (by decide) (by decide) hnear hshort
  exact ⟨a, frames, ha, hcapacity, (hmem _).mpr ⟨by decide, by decide, by decide, by simp [twoAreas]⟩⟩

def longArea : MemoryMap := ⟨[⟨0x1000, 0x8000000000003000⟩], 0x8000000000003000⟩

-- the size of this area is negative as a signed word
theorem boot_not_exact : Regular longArea.area ∧
    (∃ area ∈ longArea.area, area.begin ≤ 0x1000 ∧ 0x1000 < area.stop) ∧
    ∃ a, allocInit longArea 0 0x1000 0x8000000000003000 = some a ∧ a.capacity = 0 ∧
      ∀ mem, allocFrame longArea ⟨a, mem⟩ = some (0, ⟨a, mem⟩) := by
  refine ⟨⟨?_, ?_, ?_, ?_⟩, ?_, _, rfl, by decide, fun mem => rfl⟩
  · simp [longArea]
  · simp [longArea]
  · simp [longArea, pageSize]
  · simp [longArea, wordSize]
  · simp [longArea]

end Lasagne.Frame
