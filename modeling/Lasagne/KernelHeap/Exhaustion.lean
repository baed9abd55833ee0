import Mathlib
import Lasagne.KernelHeap.Realloc

namespace Lasagne.KernelHeap
open ByteMemory CInt Buddy PartialRun

-- the caller learns that there is no memory, and its old block is as before
structure Reported (h : Heap) (ptr size n : Nat) : Prop where
  krealloc : ∃ h', KernelHeap.krealloc h ptr n = some (allocatorEmpty, h') ∧
    ∀ x, ptr ≤ x → x < ptr + size → h'.mem x = h.mem x
  kzalloc : ∃ h', KernelHeap.kzalloc h n = some (allocatorEmpty, h')

section exhaustion
variable {h h₁ : Heap} {n ptr : Nat}

theorem kzalloc_null (ha : kalloc h n = some (allocatorEmpty, h₁)) : kzalloc h n = none := by
  have hn : n ≠ 0 := by
    rintro rfl
    rw [kalloc, allocatorAllocate, Math.ceilToPowerOfTwo,
      show countTrailingZeros 0 = none by decide] at ha
    exact absurd ha (by simp)
  rw [kzalloc, ha, Option.bind_eq_bind, Option.bind_some]
  simp only
  rw [memset, if_pos ⟨hn, by decide⟩]
  rfl

theorem krealloc_null (ha : kalloc h n = some (allocatorEmpty, h₁))
    (hsize : allocatorAllocationSize h ptr ≠ some 0) :
    krealloc h ptr n = some (ptr, h) ∨ krealloc h ptr n = none := by
  rw [krealloc]
  cases hcur : allocatorAllocationSize h ptr with
  | none => exact .inr rfl
  | some cur =>
    cases hnew : Math.ceilToPowerOfTwo n with
    | none => exact .inr rfl
    | some new =>
      simp only [Option.bind_eq_bind, Option.bind_some]
      by_cases hsame : new = cur
      · exact .inl (if_pos hsame)
      · rw [if_neg hsame]
        right
        cases hinner : kalloc h new with
        | none => rfl
        | some x =>
          obtain ⟨p, h₂⟩ := x
          have hcall := kalloc_rounded hnew hinner
          rw [ha, Option.some.injEq, Prod.mk.injEq] at hcall
          obtain ⟨rfl, rfl⟩ := hcall
          have hne : cur ≠ 0 := fun h0 => hsize (h0 ▸ hcur)
          rw [Option.bind_some]
          simp only
          rw [memcpy, if_pos ⟨hne, by decide⟩]
          rfl

theorem exhaustion_never_reported (size : Nat) (ha : kalloc h n = some (allocatorEmpty, h₁))
    (hptr : ptr ≠ allocatorEmpty) (hsize : allocatorAllocationSize h ptr ≠ some 0) :
    ¬ Reported h ptr size n ∧ kzalloc h n = none ∧ ∀ h', krealloc h ptr n ≠ some (allocatorEmpty, h') := by
  have hz := kzalloc_null ha
  refine ⟨fun hr => ?_, hz, fun h' hk => ?_⟩
  · obtain ⟨h', hk⟩ := hr.kzalloc
    rw [hz] at hk
    exact absurd hk (by simp)
  · rcases krealloc_null ha hsize with heq | heq
    · rw [heq, Option.some.injEq, Prod.mk.injEq] at hk
      exact hptr hk.1
    · rw [heq] at hk
      exact absurd hk (by simp)

theorem exhaustion_never_reported_sample : ∃ w h₁,
    ((initializeKernelHeap zeroMemory).bind fun h => run step ⟨h, []⟩ [.kalloc 0x800000]) = some w ∧
    kalloc w.heap 64 = some (allocatorEmpty, h₁) ∧ kzalloc w.heap 64 = none := by
  have hobs : ((initializeKernelHeap zeroMemory).bind fun h =>
      (run step ⟨h, []⟩ [.kalloc 0x800000]).bind fun w => (kalloc w.heap 64).map fun x =>
        (x.1, allocatorAllocationSize w.heap 0xffffffff81040000)) =
      some (allocatorEmpty, some 0x800000) := by decide +kernel
  obtain ⟨h, hinit, hobs⟩ := Option.bind_eq_some_iff.mp hobs
  obtain ⟨w, hrun, hobs⟩ := Option.bind_eq_some_iff.mp hobs
  obtain ⟨⟨p, h₁⟩, ha, hobs⟩ := Option.map_eq_some_iff.mp hobs
  rw [Prod.mk.injEq] at hobs
  obtain ⟨rfl, hsize⟩ := hobs
  refine ⟨w, h₁, by rw [hinit, Option.bind_some, hrun], ha, ?_⟩
  have hptr : 0xffffffff81040000 ≠ allocatorEmpty := by decide
  exact (exhaustion_never_reported 0x800000 ha hptr (by rw [hsize]; decide)).2.1

theorem exhaustion_not_reported : ¬ ∀ (m : Memory) (h h₁ : Heap) (as : List Action) (w : World)
    (b : Block) (n : Nat), ZeroFilled heapRegion m → initializeKernelHeap m = some h →
    run step ⟨h, []⟩ as = some w → b ∈ w.live → kalloc w.heap n = some (allocatorEmpty, h₁) →
    Reported w.heap b.start b.size n := by
  intro hall
  have hobs : ((initializeKernelHeap zeroMemory).bind fun h =>
      (run step ⟨h, []⟩ [.kalloc 0x800000]).bind fun w => (kalloc w.heap 64).map fun x =>
        (w.live, x.1)) = some ([⟨0xffffffff81040000, 0x800000⟩], allocatorEmpty) := by
    decide +kernel
  obtain ⟨h, hinit, hobs⟩ := Option.bind_eq_some_iff.mp hobs
  obtain ⟨w, hrun, hobs⟩ := Option.bind_eq_some_iff.mp hobs
  obtain ⟨⟨p, h₁⟩, ha, hobs⟩ := Option.map_eq_some_iff.mp hobs
  rw [Prod.mk.injEq] at hobs
  obtain ⟨hlive, rfl⟩ := hobs
  obtain ⟨h', hk⟩ := (hall zeroMemory h h₁ _ w ⟨0xffffffff81040000, 0x800000⟩ 64
    (zeroFilled_zeroMemory _) hinit hrun (by rw [hlive]; simp) ha).kzalloc
  rw [kzalloc_null ha] at hk
  exact absurd hk (by simp)

end exhaustion

end Lasagne.KernelHeap
