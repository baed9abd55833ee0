import Mathlib
import Lasagne.Task.Fairness

namespace Lasagne.Scheduler
open CyclicList

-- what one call of schedule may do: move the cursor of one task
structure MovesCursor (k k' : Kernel) (t x : Nat) : Prop where
  thread : k'.thread = k.thread
  links : ∀ s, (k'.task s).next = (k.task s).next ∧ (k'.task s).prev = (k.task s).prev
  others : ∀ s, s ≠ t → k'.task s = k.task s
  cursor : (k'.task t).threads = x
  current : k'.currentTask = k.currentTask ∧ k'.currentThread = k.currentThread ∧
    k'.kernelIdleThread = k.kernelIdleThread

theorem movesCursor_setThreads (k : Kernel) (t x : Nat) : MovesCursor k (setThreads k t x) t x :=
  ⟨rfl, fun _ => ⟨setThreads_next, setThreads_prev⟩, fun _ hs => setThreads_other hs,
    setThreads_threads, rfl, rfl, rfl⟩

-- ts starts after current_task and ends with it, ths t starts after the cursor of t and ends with it
theorem schedule_complete (k : Kernel) (ts : List Nat) (ths : Nat → List Nat)
    (htasks : Around (fun t => (k.task t).next) k.currentTask ts)
    (hthreads : ∀ t ∈ ts, Around (fun x => (k.thread x).next) (k.task t).threads (ths t)) :
    ∃ steps, ∀ fuel ≥ steps,
      (∃ ss t rs xs x ys k', ts = ss ++ t :: rs ∧ (∀ s ∈ ss, ∀ y ∈ ths s, isRunning k y = false) ∧
        ths t = xs ++ x :: ys ∧ (∀ y ∈ xs, isRunning k y = false) ∧ isRunning k x = true ∧
        schedule fuel k = some (x, k') ∧ MovesCursor k k' t x) ∨
      (∀ t ∈ ts, ∀ x ∈ ths t, isRunning k x = false) ∧
        schedule fuel k = some (k.kernelIdleThread, k) := by
  have hbound (t : Nat) (ht : t ∈ ts) : (ths t).length ≤ (ts.map fun t => (ths t).length).sum :=
    List.single_le_sum (by simp) _ (List.mem_map_of_mem ht)
  have hnone {threads : List Nat} : hasRunning k threads = false ↔
      ∀ y ∈ threads, isRunning k y = false := by
    rw [hasRunning, List.any_eq_false]
    simp only [Bool.not_eq_true]
  refine ⟨ts.length + (ts.map fun t => (ths t).length).sum, fun fuel hfuel => ?_⟩
  have hths (t : Nat) (ht : t ∈ ts) :
      Around (fun x => (k.thread x).next) (k.task t).threads (ths t) ∧ (ths t).length ≤ fuel := by
    have := hbound t ht
    exact ⟨hthreads t ht, by omega⟩
  cases hany : ts.any fun t => hasRunning k (ths t) with
  | true =>
    obtain ⟨ss, t, rs, rfl, ht, hss⟩ := exists_first hany
    obtain ⟨xs, x, ys, hxs, hx, hidle⟩ := exists_first ht
    exact .inl ⟨ss, t, rs, xs, x, ys, _, rfl, fun s hs => hnone.mp (hss s hs), hxs, hidle, hx,
      schedule_found htasks hths (by omega) hss hxs hx hidle, movesCursor_setThreads k t x⟩
  | false =>
    have hall (t : Nat) (ht : t ∈ ts) : hasRunning k (ths t) = false := by
      simpa using List.any_eq_false.mp hany t ht
    exact .inr ⟨fun t ht => hnone.mp (hall t ht), schedule_idle htasks hths (by omega) hall⟩

theorem schedule_complete_sample : ∃ steps, ∀ fuel ≥ steps, ∃ k',
    schedule fuel sampleKernel = some (20, k') ∧ MovesCursor sampleKernel k' 2 20 := by
  obtain ⟨steps, hsteps⟩ := schedule_complete sampleKernel [2, 1] sampleThreads
    sampleKernel_rings.tasks sampleKernel_rings.threads
  refine ⟨steps, fun fuel hfuel => ?_⟩
  obtain ⟨ss, t, rs, xs, x, ys, k', hts, hidle, hths, hbefore, hx, hs, hmoves⟩ | ⟨hnone, -⟩ :=
    hsteps fuel hfuel
  · have hrunning : isRunning sampleKernel 20 = true := by decide
    obtain rfl : t = 2 := by
      cases ss with
      | nil => exact (List.cons.inj hts).1.symm
      | cons s ss =>
        obtain ⟨rfl, -⟩ := List.cons.inj hts
        have hoff := hidle 2 List.mem_cons_self 20 (by decide)
        rw [hrunning] at hoff
        cases hoff
    obtain rfl : x = 20 := by
      cases xs with
      | nil => exact (List.cons.inj hths).1.symm
      | cons y xs =>
        obtain ⟨rfl, -⟩ := List.cons.inj hths
        have hoff := hbefore 20 List.mem_cons_self
        rw [hrunning] at hoff
        cases hoff
    exact ⟨k', hs, hmoves⟩
  · exact absurd (hnone 2 (by decide) 20 (by decide)) (by decide)

end Lasagne.Scheduler
