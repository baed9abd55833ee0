import Mathlib
import Lasagne.Buddy.Drain

namespace Lasagne.Buddy
open ByteMemory CInt SplitTree Bitmap PartialRun

structure FreesAgree (h : Heap) (b : Block) (size level : Nat) : Prop where
  rounded : Math.ceilToPowerOfTwo b.request = some size
  level_eq : levelFromSize h.alloc size = some (level : Int)
  found : allocationLevel h b.start = some level
  allocationSize : allocatorAllocationSize h b.start = some size
  deallocate : allocatorDeallocate h b.start = allocatorDeallocateFast h b.start b.request

section level
variable {r : Region} {limit : Nat} {w w₀ : World} {k : Labels} {lists : Nat → List Nat} {b : Block}

theorem Represents.freesAgree {h : Heap} (c : Represents r h k lists) {l i : Nat}
    (hp : Placed r k b l i) (hn : r.leafSize < 2 * b.request) (hsize : b.request ≤ r.size) :
    FreesAgree h b (r.blockSize l) l := by
  obtain ⟨rfl, hk, hstart⟩ := hp
  have hlev := r.levelOf_le hn
  have hcl := r.clog_le hsize
  have hfound := c.core.allocationLevel hk
  rw [← hstart] at hfound
  refine ⟨?_, ?_, hfound, ?_, ?_⟩
  · rw [Math.ceilToPowerOfTwo_eq (by omega) (hsize.trans r.size_le_pow),
      r.blockSize_levelOf hn hsize]
  · rw [r.blockSize_levelOf hn hsize, c.core.shape.levelFromSize hcl]
    rfl
  · rw [allocatorAllocationSize, hfound]
    exact c.core.shape.spans.sizeFromLevel hlev
  · rw [c.core.shape.deallocateFast_eq _ (show 0 < b.request by omega) hsize rfl, hstart]
    exact c.core.deallocate_eq hk

theorem Tracks.freesAgree (t : Tracks r limit w k lists) (hlim : limit ≤ r.size)
    (hb : b ∈ w.live) : ∃ size level, FreesAgree w.heap b size level := by
  obtain ⟨l, i, hp⟩ := t.placed b hb
  obtain ⟨hn, hsize⟩ := t.fits b hb
  exact ⟨_, l, t.represents.freesAgree hp hn (hsize.trans hlim)⟩

theorem slow_free_agrees (t : Tracks r limit w₀ k lists) (hlim : limit ≤ r.size)
    (as : List Action) (hrun : run (Buddy.step r limit) w₀ as = some w)
    (hgood : throughout (Buddy.step r limit) settled w₀ as = true) (hb : b ∈ w.live) :
    ∃ size level, FreesAgree w.heap b size level := by
  obtain ⟨k', lists', t'⟩ := t.run_settled hlim hrun hgood
  exact t'.freesAgree hlim hb

theorem slow_free_agrees_smallRegion :
    ∃ w, (boot smallRegion zeroMemory).bind (fun w => run (step smallRegion 128) w
        [.allocate 32, .allocate 9, .deallocate 4096, .allocate 9]) = some w ∧
      ∀ b ∈ w.live, ∃ size level, FreesAgree w.heap b size level := by
  have hsome : ((boot smallRegion zeroMemory).bind fun w => run (step smallRegion 128) w
      [.allocate 32, .allocate 9, .deallocate 4096, .allocate 9]).isSome := by decide +kernel
  have hgood : (boot smallRegion zeroMemory).all (fun w => throughout (step smallRegion 128) settled w
      [.allocate 32, .allocate 9, .deallocate 4096, .allocate 9]) = true := by decide +kernel
  obtain ⟨w, hw⟩ := Option.isSome_iff_exists.mp hsome
  obtain ⟨w₀, hboot, hrun⟩ := Option.bind_eq_some_iff.mp hw
  rw [hboot, Option.all_some] at hgood
  exact ⟨w, hw, fun b hb => slow_free_agrees
    (tracks_boot (zeroFilled_zeroMemory smallRegion) hboot) le_rfl _ hrun hgood hb⟩

end level

end Lasagne.Buddy
