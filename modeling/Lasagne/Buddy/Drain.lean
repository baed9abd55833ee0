import Mathlib
import Lasagne.Buddy.Safety
import Lasagne.Buddy.Determined

namespace Lasagne.Buddy
open ByteMemory CInt SplitTree Bitmap PartialRun

-- the state allocator_init leaves, up to bytes it does not look at
structure Drained (r : Region) (h : Heap) : Prop where
  alloc : h.alloc = r.initialAllocator
  last : nodeNext h.mem r.base = allocatorEmpty
  split : ∀ n < 2 ^ r.depth - 1, bitAt h.mem r.splitBitmap n = false
  allocation : ∀ n < 2 ^ r.depth - 1, bitAt h.mem r.bitmaps n = false

def settled (w : World) (a : Action) : Bool := clean w a && keepsRoot w a

section drain
variable {r : Region} {limit : Nat} {w : World} {k : Labels} {lists : Nat → List Nat} {m : Memory}

theorem drained_boot (hz : ZeroFilled r m) (hb : boot r m = some w) : Drained r w.heap := by
  have ht : Tracks r r.size w rootTree rootLists := tracks_boot hz hb
  have hrep := ht.represents
  rw [boot, r.allocatorInit_eq, Option.map_some, Option.some.injEq] at hb
  subst hb
  have hnext := hrep.core.linked.next_eq (show rootLists 0 = [] ++ 0 :: [] from rfl)
  rw [show r.address 0 0 = r.base by rw [Blocks.address]; omega] at hnext
  refine ⟨rfl, hnext, fun n hn => ?_, fun n hn => ?_⟩
  · obtain ⟨l, i, hl, hi, rfl⟩ := exists_node hn
    rw [hrep.core.bits.split l i hl hi, isSplit_rootTree]
  · obtain ⟨l, i, hl, hi, rfl⟩ := exists_node hn
    rw [hrep.core.bits.allocation l i hl hi, parity_rootTree]

theorem Represents.drained {h : Heap} (c : Represents r h k lists) (hroot : k 0 0 = .free) :
    Drained r h := by
  have habs (l i : Nat) (hne : ¬ (l = 0 ∧ i = 0)) : k l i = .absent :=
    absent_of_root_free c.core.tiling hroot hne
  have hk : k = rootTree := by
    funext l i
    rw [rootTree_eq]
    split
    next h0 => rw [h0.1, h0.2, hroot]
    next h0 => exact habs l i h0
  have hlists : lists = rootLists := by
    funext l
    have hmem (i : Nat) : i ∈ lists l ↔ i ∈ rootLists l := by
      rw [c.core.listed, listed_rootTree, hk]
    have hnd := c.core.linked.nodup l
    rw [rootLists] at hmem ⊢
    split
    next h0 =>
      rw [if_pos h0] at hmem
      refine List.perm_singleton.mp ((List.perm_ext_iff_of_nodup hnd (by simp)).mpr hmem)
    next h0 =>
      rw [if_neg h0] at hmem
      exact List.eq_nil_iff_forall_not_mem.mpr fun i hi => by simpa using (hmem i).mp hi
  have haddr : r.address 0 0 = r.base := by rw [Blocks.address]; omega
  subst hk hlists
  obtain ⟨-, -, -, hbits, hL, -⟩ := c.core
  have hnext := hL.next_eq (show rootLists 0 = [] ++ 0 :: [] from rfl)
  rw [haddr] at hnext
  refine ⟨?_, hnext, fun n hn => ?_, fun n hn => ?_⟩
  · exact c.alloc_eq (represents_init (zeroFilled_zeroMemory r))
  · obtain ⟨l, i, hl, hi, rfl⟩ := exists_node hn
    rw [hbits.split l i hl hi, isSplit_rootTree]
  · obtain ⟨l, i, hl, hi, rfl⟩ := exists_node hn
    rw [hbits.allocation l i hl hi, parity_rootTree]

theorem Tracks.drained (t : Tracks r limit w k lists) (hempty : w.live = []) : Drained r w.heap := by
  refine t.represents.drained (root_free_of_no_live t.represents.core.tiling
    t.represents.core.coalesced fun l i hl => ?_)
  obtain ⟨b, hb, -⟩ := t.owned l i hl
  rw [hempty] at hb
  simp at hb

theorem Tracks.run_settled {as : List Action} {w' : World} (t : Tracks r limit w k lists)
    (hlim : limit ≤ r.size) (hrun : run (Buddy.step r limit) w as = some w')
    (hgood : throughout (Buddy.step r limit) settled w as = true) :
    ∃ k' lists', Tracks r limit w' k' lists' := by
  refine invariant (I := fun w => ∃ k lists, Tracks r limit w k lists) ?_ ⟨k, lists, t⟩ hrun hgood
  rintro w a w' ⟨k, lists, t⟩ hg hs
  rw [settled, Bool.and_eq_true] at hg
  exact (t.step hlim hg.1 hg.2 hs).1

theorem drained_of_no_live (r : Region) (m : Memory) (hz : ZeroFilled r m) (w₀ w : World)
    (hboot : boot r m = some w₀) (as : List Action)
    (hrun : run (Buddy.step r r.size) w₀ as = some w)
    (hgood : throughout (Buddy.step r r.size) settled w₀ as = true) :
    (w.live = [] → Drained r w.heap ∧ w.heap.alloc = w₀.heap.alloc) ∧
      ∀ b ∈ w.live, settled w (.deallocate b.start) = true →
        (Buddy.step r r.size w (.deallocate b.start)).isSome := by
  obtain ⟨k, lists, t⟩ := (tracks_boot hz hboot).run_settled le_rfl hrun hgood
  refine ⟨fun hempty => ?_, fun b hb hg => ?_⟩
  · have hd := t.drained hempty
    exact ⟨hd, hd.alloc.trans (drained_boot hz hboot).alloc.symm⟩
  · rw [settled, Bool.and_eq_true] at hg
    exact t.deallocate_isSome le_rfl hb hg.1 hg.2

end drain

section leak

theorem drained_smallRegion :
    ∃ w, (boot smallRegion zeroMemory).bind (fun w => run (step smallRegion 128) w
        [.allocate 32, .allocate 9, .deallocate 4096, .deallocate 4128]) = some w ∧
      Drained smallRegion w.heap := by
  have hsome : ((boot smallRegion zeroMemory).bind fun w => run (step smallRegion 128) w
      [.allocate 32, .allocate 9, .deallocate 4096, .deallocate 4128]).map World.live =
      some [] := by decide +kernel
  have hgood : (boot smallRegion zeroMemory).all (fun w => throughout (step smallRegion 128) settled w
      [.allocate 32, .allocate 9, .deallocate 4096, .deallocate 4128]) = true := by decide +kernel
  obtain ⟨w, hw, hlive⟩ := Option.map_eq_some_iff.mp hsome
  obtain ⟨w₀, hboot, hrun⟩ := Option.bind_eq_some_iff.mp hw
  rw [hboot, Option.all_some] at hgood
  exact ⟨w, hw, (drained_of_no_live smallRegion zeroMemory (zeroFilled_zeroMemory _) w₀ w hboot _
    hrun hgood).1 hlive |>.1⟩

-- the stale link leaves 4128 on the level 2 list of a drained allocator, and freeing a block that
-- is the whole region computes 1 << -1
theorem not_always_drained :
    (¬ ∀ (r : Region) (m : Memory) (w₀ w : World) (as : List Action), ZeroFilled r m →
      boot r m = some w₀ → run (step r r.size) w₀ as = some w → w.live = [] → Drained r w.heap) ∧
    ((boot smallRegion zeroMemory).bind fun w => run (step smallRegion 128) w
      [.allocate 128]).map World.live = some [⟨4096, 128⟩] ∧
    ((boot smallRegion zeroMemory).bind fun w => run (step smallRegion 128) w
      [.allocate 128, .deallocate 4096]).map World.live = none := by
  refine ⟨fun h => ?_, by decide +kernel, by decide +kernel⟩
  have hobs : ((boot smallRegion zeroMemory).bind fun w₀ =>
      (run (step smallRegion 128) w₀ (staleRun ++ [.deallocate 4096, .deallocate 4160,
        .deallocate 4192])).map fun w => (w.live, w.heap.alloc.freeBlocks 2)) =
      some ([], 4128) := by decide +kernel
  obtain ⟨w₀, hboot, hobs⟩ := Option.bind_eq_some_iff.mp hobs
  obtain ⟨w, hrun, hobs⟩ := Option.map_eq_some_iff.mp hobs
  rw [Prod.mk.injEq] at hobs
  have hd := h smallRegion zeroMemory w₀ w _ (zeroFilled_zeroMemory _) hboot hrun hobs.1
  have hb := congrArg (fun a => a.freeBlocks 2) hd.alloc
  simp only [hobs.2] at hb
  exact absurd hb (by decide)

end leak

end Lasagne.Buddy
