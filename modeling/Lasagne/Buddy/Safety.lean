import Mathlib
import Lasagne.Buddy.Run

namespace Lasagne.Buddy
open ByteMemory CInt SplitTree Bitmap PartialRun

def Separated (b c : Block) : Prop := b.start + b.size ≤ c.start ∨ c.start + c.size ≤ b.start

structure WellPlaced (r : Region) (b : Block) : Prop where
  inside : r.base ≤ b.start ∧ b.start + b.size ≤ r.base + r.size
  power : ∃ n, b.size = 2 ^ n
  aligned : b.size ∣ b.start - r.base
  enough : b.request ≤ b.size

structure Isolated (r : Region) (w : World) : Prop where
  disjoint : w.live.Pairwise Separated
  placed : ∀ b ∈ w.live, WellPlaced r b

def Untouched (w w' : World) : Prop :=
  ∀ b ∈ w.live, b ∈ w'.live → ∀ x, b.Covers x → w'.heap.mem x = w.heap.mem x

def boot (r : Region) (m : Memory) : Option World :=
  (allocatorInit m r.base r.size r.leafSize r.bitmaps).map fun heap => ⟨heap, []⟩

section isolation
variable {r : Region} {limit : Nat} {w : World} {k : Labels} {lists : Nat → List Nat} {m : Memory}

theorem tracks_boot (hz : ZeroFilled r m) (hb : boot r m = some w) :
    Tracks r limit w rootTree rootLists := by
  rw [boot, r.allocatorInit_eq, Option.map_some, Option.some.injEq] at hb
  subst hb
  refine ⟨represents_init hz, by simp, by simp, fun l i h => ?_, by simp⟩
  exact absurd h (rootTree_not_live l i)

theorem Tracks.isolated (t : Tracks r limit w k lists) (hlim : limit ≤ r.size) :
    Isolated r w := by
  constructor
  · refine List.Pairwise.imp_of_mem ?_ (List.pairwise_map.mp t.distinct)
    intro b c hb hc hne
    obtain ⟨l, i, hp⟩ := t.placed b hb
    obtain ⟨m, j, hq⟩ := t.placed c hc
    have h1 := t.block_size hlim hb hp
    have h2 := t.block_size hlim hc hq
    have hpos1 := r.blockSize_pos l
    have hpos2 := r.blockSize_pos m
    by_contra hover
    rw [Separated, not_or, Nat.not_le, Nat.not_le] at hover
    have hx : b.Covers (max b.start c.start) := by rw [Block.Covers]; omega
    have hy : c.Covers (max b.start c.start) := by rw [Block.Covers]; omega
    rw [t.covers_iff hlim hc hq] at hy
    have := (t.apart hlim hb hx (by rw [hq.2.1]; rfl) hy).2.2
    exact hne (this.trans hq.2.2.symm)
  · intro b hb
    obtain ⟨l, i, hp⟩ := t.placed b hb
    obtain ⟨hf1, hf2⟩ := t.fits b hb
    have hbound := t.represents.core.present (show k l i ≠ .absent by simp [hp.2.1])
    have hend := r.address_end_le hbound.1 hbound.2
    have hsize := t.block_size hlim hb hp
    have hpow := r.blockSize_levelOf hf1 (hf2.trans hlim)
    rw [← hp.1] at hpow
    refine ⟨⟨?_, ?_⟩, ⟨_, hsize.trans hpow⟩, ?_, ?_⟩
    · rw [hp.2.2, Blocks.address]
      omega
    · rw [hp.2.2, hsize]
      exact hend
    · rw [hp.2.2, hsize, Blocks.address, Nat.add_sub_cancel_left]
      exact Nat.dvd_mul_left _ _
    · rw [hsize, hpow]
      exact Nat.le_pow_clog (by omega) _

theorem Tracks.keepsRoot_of_half (t : Tracks r limit w k lists) (hhalf : 2 * limit ≤ r.size)
    {a : Action} {block : Nat} {b : Block} (ha : a.released = some block)
    (ho : owner w block = some b) : keepsRoot w a = true := by
  obtain ⟨hb, l, i, hp, rfl⟩ := t.owner_spec ho
  obtain ⟨hf1, hf2⟩ := t.fits b hb
  rw [keepsRoot, ha]
  simp only [t.represents.core.allocationLevel hp.2.1, bne_iff_ne, ne_eq, Option.some.injEq]
  have hg := r.leaf_ge
  have hcl : Nat.clog 2 b.request ≤ r.leafBits + r.depth - 1 := by
    refine (Nat.clog_le_iff_le_pow (by omega)).mpr ?_
    have hs : r.size = 2 * 2 ^ (r.leafBits + r.depth - 1) := by
      rw [r.size_eq, ← pow_succ']
      congr 1
      omega
    omega
  rw [hp.1, Region.levelOf]
  omega

theorem owner_isSome {b : Block} (hb : b ∈ w.live) : ∃ c, owner w b.start = some c := by
  rw [← Option.isSome_iff_exists, owner, List.find?_isSome]
  exact ⟨b, hb, by simp⟩

theorem Tracks.deallocate_isSome (t : Tracks r limit w k lists) (hlim : limit ≤ r.size) {b : Block}
    (hb : b ∈ w.live) (hclean : clean w (.deallocate b.start) = true)
    (hroot : keepsRoot w (.deallocate b.start) = true) :
    (Buddy.step r limit w (.deallocate b.start)).isSome := by
  obtain ⟨c, ho⟩ := owner_isSome hb
  obtain ⟨h', hd, -⟩ := t.deallocate hlim ho hclean (bne_iff_ne.mp hroot)
  simp only [Buddy.step, ho, hd, Option.bind_eq_bind, Option.bind_some]
  rfl

theorem Tracks.step_of_half (t : Tracks r limit w k lists) (hhalf : 2 * limit ≤ r.size)
    {a : Action} {w' : World} (hclean : clean w a = true) (hs : Buddy.step r limit w a = some w') :
    (∃ k' lists', Tracks r limit w' k' lists') ∧ (a.isStore = false → Untouched w w') := by
  refine t.step (by omega) hclean ?_ hs
  cases a with
  | allocate size => rfl
  | deallocate block =>
    obtain ⟨b, ho, -⟩ := Option.bind_eq_some_iff.mp hs
    exact t.keepsRoot_of_half hhalf rfl ho
  | deallocateFast block size =>
    obtain ⟨b, ho, -⟩ := Option.bind_eq_some_iff.mp hs
    exact t.keepsRoot_of_half hhalf rfl ho
  | store address value => rfl

theorem Tracks.run_of_half {as : List Action} {w' : World} (t : Tracks r limit w k lists)
    (hhalf : 2 * limit ≤ r.size) (hrun : run (Buddy.step r limit) w as = some w')
    (hclean : throughout (Buddy.step r limit) clean w as = true) :
    ∃ k' lists', Tracks r limit w' k' lists' := by
  refine invariant (I := fun w => ∃ k lists, Tracks r limit w k lists) ?_ ⟨k, lists, t⟩ hrun hclean
  rintro w a w' ⟨k, lists, t⟩ hc hs
  exact (t.step_of_half hhalf hc hs).1

theorem live_blocks_isolated (r : Region) (m : Memory) (hz : ZeroFilled r m) (w₀ w : World)
    (hboot : boot r m = some w₀) (as : List Action)
    (hrun : run (Buddy.step r (r.size / 2)) w₀ as = some w)
    (hclean : throughout (Buddy.step r (r.size / 2)) clean w₀ as = true) :
    Isolated r w ∧
      (∀ a w', clean w a = true → Buddy.step r (r.size / 2) w a = some w' →
        a.isStore = false → Untouched w w') ∧
      ∀ b ∈ w.live, clean w (.deallocate b.start) = true →
        (Buddy.step r (r.size / 2) w (.deallocate b.start)).isSome := by
  have hhalf : 2 * (r.size / 2) ≤ r.size := Nat.mul_div_le _ _
  obtain ⟨k, lists, t⟩ := (tracks_boot hz hboot).run_of_half hhalf hrun hclean
  refine ⟨t.isolated (by omega), fun a w' hc hs => (t.step_of_half hhalf hc hs).2, ?_⟩
  intro b hb hc
  obtain ⟨c, ho⟩ := owner_isSome hb
  exact t.deallocate_isSome (by omega) hb hc (t.keepsRoot_of_half hhalf rfl ho)

end isolation

section stale

def smallRegion : Region where
  base := 4096
  leafSize := 16
  leafBits := 4
  depth := 3
  bitmaps := 256
  leaf_pos := by decide
  leaf_eq := by decide
  leaf_ge := by decide
  size_le := by decide
  base_pos := by decide
  base_fits := by decide
  bitmaps_pos := by decide
  bitmaps_fit := by decide
  apart := by decide

def highRegion : Region where
  base := 18446744073709551360
  leafSize := 16
  leafBits := 4
  depth := 3
  bitmaps := 256
  leaf_pos := by decide
  leaf_eq := by decide
  leaf_ge := by decide
  size_le := by decide
  base_pos := by decide
  base_fits := by decide
  bitmaps_pos := by decide
  bitmaps_fit := by decide
  apart := by decide

def zeroMemory : Memory := fun _ => 0#8

theorem zeroFilled_zeroMemory (r : Region) : ZeroFilled r zeroMemory := fun _ _ _ => rfl

theorem live_blocks_isolated_smallRegion :
    ∃ w, (boot smallRegion zeroMemory).bind (fun w => run (step smallRegion 64) w
        [.allocate 32, .allocate 16, .store 4100 7, .deallocate 4096]) = some w ∧
      Isolated smallRegion w ∧ w.live = [⟨4128, 16⟩] := by
  have hsome : ((boot smallRegion zeroMemory).bind fun w => run (step smallRegion 64) w
      [.allocate 32, .allocate 16, .store 4100 7, .deallocate 4096]).map World.live =
      some [⟨4128, 16⟩] := by decide +kernel
  have hgood : (boot smallRegion zeroMemory).all (fun w => throughout (step smallRegion 64) clean w
      [.allocate 32, .allocate 16, .store 4100 7, .deallocate 4096]) = true := by decide +kernel
  obtain ⟨w, hw, hlive⟩ := Option.map_eq_some_iff.mp hsome
  obtain ⟨w₀, hboot, hrun⟩ := Option.bind_eq_some_iff.mp hw
  rw [hboot, Option.all_some] at hgood
  exact ⟨w, hw, (live_blocks_isolated smallRegion zeroMemory (zeroFilled_zeroMemory _) w₀ w hboot _
    hrun hgood).1, hlive⟩

-- create_block takes 4192 off its list and leaves it as prev link of 4128, the new head; freeing
-- 4096 then merges with 4128 and writes the next link of 4192, now live
def staleRun : List Action :=
  [.allocate 32, .allocate 32, .allocate 32, .allocate 32, .deallocate 4128, .deallocate 4192,
    .allocate 16]

theorem live_blocks_not_isolated : ¬ ∀ (r : Region) (m : Memory) (w₀ w w' : World)
    (as : List Action) (a : Action), ZeroFilled r m → boot r m = some w₀ →
    run (step r (r.size / 2)) w₀ as = some w → step r (r.size / 2) w a = some w' →
    a.isStore = false → Isolated r w ∧ Untouched w w' := by
  intro h
  have hobs : ((boot smallRegion zeroMemory).bind fun w₀ =>
      (run (step smallRegion 64) w₀ staleRun).bind fun w =>
      (step smallRegion 64 w (.deallocate 4096)).map fun w' =>
        (w.live, w'.live, w.heap.mem 4200, w'.heap.mem 4200)) =
      some ([⟨4192, 16⟩, ⟨4160, 32⟩, ⟨4096, 32⟩], [⟨4192, 16⟩, ⟨4160, 32⟩], 32#8, 0#8) := by
    decide +kernel
  obtain ⟨w₀, hboot, hobs⟩ := Option.bind_eq_some_iff.mp hobs
  obtain ⟨w, hrun, hobs⟩ := Option.bind_eq_some_iff.mp hobs
  obtain ⟨w', hstep, hobs⟩ := Option.map_eq_some_iff.mp hobs
  simp only [Prod.mk.injEq] at hobs
  obtain ⟨hl, hl', hx, hx'⟩ := hobs
  have hkeep := (h smallRegion zeroMemory w₀ w w' staleRun _ (zeroFilled_zeroMemory _) hboot hrun
    hstep rfl).2
  have heq := hkeep ⟨4192, 16⟩ (by rw [hl]; decide) (by rw [hl']; decide) 4200 (by decide)
  rw [hx, hx'] at heq
  exact absurd heq (by decide)

end stale

end Lasagne.Buddy
