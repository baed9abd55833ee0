import Mathlib
import Lasagne.Library.RoundRobin
import Lasagne.Task.Scheduler

namespace Lasagne.Scheduler
open CyclicList RoundRobin

-- what the scheduler serves: the runnable tasks and their running threads, in ring order
def queues (k : Kernel) (ts : List Nat) (ths : Nat → List Nat) : Queues Nat Nat where
  groups := ts.filter fun t => hasRunning k (ths t)
  members := fun t => (ths t).filter (isRunning k)

def taskOf (k : Kernel) (thread : Nat) : Nat := (k.thread thread).task

section refinement
variable {k : Kernel} {fuel n x : Nat} {ts : List Nat} {ths : Nat → List Nat}
  {q' : Queues Nat Nat} {picks : List Nat}

structure Bounded (fuel : Nat) (ts : List Nat) (ths : Nat → List Nat) : Prop where
  tasks : ts.length ≤ fuel
  threads : ∀ t ∈ ts, (ths t).length ≤ fuel

theorem Rings.fair (h : Rings k ts ths) : Fair (taskOf k) (queues k ts ths) where
  distinct := h.tasks.nodup.filter _
  filled t ht := by
    obtain ⟨x, hx, hr⟩ := List.any_eq_true.mp (List.mem_filter.mp ht).2
    exact List.ne_nil_of_mem (List.mem_filter.mpr ⟨hx, hr⟩)
  nodup t ht := (h.threads t (List.mem_filter.mp ht).1).nodup.filter _
  owned t ht x hx := h.owner t (List.mem_filter.mp ht).1 x (List.mem_filter.mp hx).1

theorem queues_next {ss rs xs ys : List Nat} {t : Nat} (h : Rings k (ss ++ t :: rs) ths)
    (hss : ∀ s ∈ ss, hasRunning k (ths s) = false) (hxs : ths t = xs ++ x :: ys)
    (hx : isRunning k x = true) (hidle : ∀ y ∈ xs, isRunning k y = false) (k' : Kernel)
    (hk : k'.thread = k.thread) :
    queues k' (rs ++ ss ++ [t]) (Function.update ths t (ys ++ xs ++ [x])) =
      ⟨rs.filter (fun t => hasRunning k (ths t)) ++ [t],
        Function.update (queues k (ss ++ t :: rs) ths).members t
          (ys.filter (isRunning k) ++ [x])⟩ := by
  have hrun : isRunning k' = isRunning k := by
    funext y
    rw [isRunning, isRunning, hk]
  have hhas : hasRunning k' = hasRunning k := by
    funext l
    rw [hasRunning, hasRunning, hrun]
  have hnd := h.tasks.nodup
  rw [List.nodup_append, List.nodup_cons] at hnd
  have hne (s : Nat) (hs : s ∈ ss ∨ s ∈ rs) : s ≠ t := by
    rintro rfl
    rcases hs with hs | hs
    · exact hnd.2.2 s hs s (by simp) rfl
    · exact hnd.2.1.1 hs
  have hxs' : xs.filter (isRunning k) = [] := by
    rw [List.filter_eq_nil_iff]
    simpa using hidle
  rw [queues, hhas, hrun]
  congr 1
  · rw [List.filter_append, List.filter_append]
    have h1 : rs.filter (fun s => hasRunning k (Function.update ths t (ys ++ xs ++ [x]) s)) =
        rs.filter fun s => hasRunning k (ths s) :=
      List.filter_congr fun s hs => by rw [Function.update_of_ne (hne s (.inr hs))]
    have h2 : ss.filter (fun s => hasRunning k (Function.update ths t (ys ++ xs ++ [x]) s)) = [] := by
      rw [List.filter_eq_nil_iff]
      intro s hs
      rw [Function.update_of_ne (hne s (.inl hs)), hss s hs]
      simp
    have h3 : [t].filter (fun s => hasRunning k (Function.update ths t (ys ++ xs ++ [x]) s)) = [t] := by
      simp [hasRunning, hx]
    rw [h1, h2, h3, List.append_nil]
  · funext s
    by_cases hst : s = t
    · subst hst
      simp [Function.update_self, List.filter_append, hxs', hx]
    · simp [Function.update_of_ne hst, queues]

theorem Rings.serve (h : Rings k ts ths) (hb : Bounded fuel ts ths)
    (hs : RoundRobin.serve (queues k ts ths) = some (x, q')) :
    ∃ k' ts' ths', Scheduler.preempt fuel k = some (x, k') ∧ Rings k' ts' ths' ∧
      Bounded fuel ts' ths' ∧ queues k' ts' ths' = q' ∧ k'.thread = k.thread := by
  rw [RoundRobin.serve] at hs
  split at hs
  next => simp at hs
  next t groups hg =>
    obtain ⟨ss, rs, rfl, hss, ht, rfl⟩ := List.filter_eq_cons_iff.mp hg
    split at hs
    next => simp at hs
    next y members hm =>
      obtain ⟨xs, ys, hxs, hidle, hx, rfl⟩ := List.filter_eq_cons_iff.mp hm
      obtain ⟨rfl, rfl⟩ := Prod.mk.inj (Option.some.inj hs)
      have hss' : ∀ s ∈ ss, hasRunning k (ths s) = false := by simpa using hss
      have hidle' : ∀ z ∈ xs, isRunning k z = false := by simpa using hidle
      refine ⟨_, _, _, h.preempt hb.tasks hb.threads rfl hss' hxs hx hidle', h.next hxs, ?_,
        queues_next h hss' hxs hx hidle' _ rfl, rfl⟩
      refine ⟨?_, fun s hs => ?_⟩
      · have := hb.tasks
        simp only [List.length_append, List.length_cons, List.length_nil] at this ⊢
        omega
      · have hmem : s ∈ ss ++ t :: rs := by
          simp at hs ⊢
          tauto
        have := hb.threads s hmem
        by_cases hst : s = t
        · subst hst
          rw [Function.update_self]
          rw [hxs] at this
          simp only [List.length_append, List.length_cons, List.length_nil] at this ⊢
          omega
        · rwa [Function.update_of_ne hst]

theorem Rings.serves (h : Rings k ts ths) (hb : Bounded fuel ts ths)
    (hs : RoundRobin.serves n (queues k ts ths) = some (picks, q')) :
    ∃ k', preemptions fuel n k = some (picks, k') ∧ k'.thread = k.thread := by
  induction n generalizing k ts ths picks with
  | zero =>
    obtain ⟨rfl, rfl⟩ := Prod.mk.inj (Option.some.inj hs)
    exact ⟨k, rfl, rfl⟩
  | succ n ih =>
    obtain ⟨x, xs, q₁, h1, h2, rfl⟩ := serves_succ.mp hs
    obtain ⟨k₁, ts₁, ths₁, hp, hr, hb₁, hq, ht⟩ := h.serve hb h1
    rw [← hq] at h2
    obtain ⟨k₂, hps, ht₂⟩ := ih hr hb₁ h2
    refine ⟨k₂, ?_, ht₂.trans ht⟩
    rw [preemptions, hp, Option.bind_some, hps]
    rfl

end refinement

theorem round_robin (k : Kernel) (ts : List Nat) (ths : Nat → List Nat) (h : Rings k ts ths)
    (fuel : Nat) (hb : Bounded fuel ts ths) (R : Nat)
    (hR : (ts.filter fun t => hasRunning k (ths t)).length = R) (hpos : 1 ≤ R) (n : Nat) :
    ∃ picks k', preemptions fuel n k = some (picks, k') ∧ picks.length = n ∧
      (∀ x ∈ picks, isRunning k x = true) ∧
      (∀ p, p + R ≤ n → ∀ t ∈ ts, hasRunning k (ths t) = true →
        (((picks.drop p).take R).map (taskOf k)).count t = 1) ∧
      ∀ t ∈ ts, ∀ m, ((ths t).filter (isRunning k)).length = m → 1 ≤ m → ∀ p, p + R * m ≤ n →
        ∀ x ∈ ths t, isRunning k x = true → ((picks.drop p).take (R * m)).count x = 1 := by
  subst hR
  have hfair := h.fair
  have hne : (queues k ts ths).groups ≠ [] := List.length_pos_iff.mp hpos
  obtain ⟨picks, q', hs⟩ := serves_total hfair hne n
  obtain ⟨k', hp, -⟩ := h.serves hb hs
  obtain ⟨-, hlen, hmem⟩ := serves_same hs
  refine ⟨picks, k', hp, hlen, fun x hx => ?_, fun p hle t ht hr => ?_, ?_⟩
  · obtain ⟨t, -, hxt⟩ := hmem x hx
    exact (List.mem_filter.mp hxt).2
  · exact window_groups hfair hs hle (List.mem_filter.mpr ⟨ht, hr⟩)
  · rintro t ht m rfl hm p hle x hx hr
    have hxm : x ∈ (queues k ts ths).members t := List.mem_filter.mpr ⟨hx, hr⟩
    refine window_members hfair hs (List.mem_filter.mpr ⟨ht, ?_⟩) hle hxm
    exact List.any_eq_true.mpr ⟨x, hx, hr⟩

def sampleKernel : Kernel where
  task t := if t = 1 then ⟨10, 2, 2⟩ else ⟨21, 1, 1⟩
  thread x :=
    if x = 10 then ⟨.running, 1, 11, 11⟩
    else if x = 11 then ⟨.running, 1, 10, 10⟩
    else if x = 20 then ⟨.running, 2, 21, 21⟩
    else ⟨.waiting, 2, 20, 20⟩
  currentTask := 1
  currentThread := 10
  kernelIdleThread := 21

def sampleThreads (t : Nat) : List Nat := if t = 1 then [11, 10] else [20, 21]

theorem sampleKernel_rings : Rings sampleKernel [2, 1] sampleThreads := by
  refine ⟨⟨by simp [sampleKernel], rfl, by simp⟩, fun t ht => ?_, fun t ht x hx => ?_⟩
  · rcases (show t = 2 ∨ t = 1 by simpa using ht) with rfl | rfl
    · exact ⟨by simp [sampleKernel, sampleThreads], rfl, by simp [sampleThreads]⟩
    · exact ⟨by simp [sampleKernel, sampleThreads], rfl, by simp [sampleThreads]⟩
  · rcases (show t = 2 ∨ t = 1 by simpa using ht) with rfl | rfl
    · rcases (show x = 20 ∨ x = 21 by simpa [sampleThreads] using hx) with rfl | rfl <;> rfl
    · rcases (show x = 11 ∨ x = 10 by simpa [sampleThreads] using hx) with rfl | rfl <;> rfl

theorem round_robin_sample :
    ∃ picks k', preemptions 2 5 sampleKernel = some (picks, k') ∧
      ((picks.drop 1).take 4).count 11 = 1 ∧
      (((picks.drop 3).take 2).map (taskOf sampleKernel)).count 2 = 1 := by
  have hb : Bounded 2 [2, 1] sampleThreads := by
    refine ⟨le_rfl, fun t ht => ?_⟩
    rcases (show t = 2 ∨ t = 1 by simpa using ht) with rfl | rfl <;> decide
  obtain ⟨picks, k', h1, -, -, h2, h3⟩ := round_robin sampleKernel [2, 1] sampleThreads
    sampleKernel_rings 2 hb 2 (by decide) (by decide) 5
  exact ⟨picks, k', h1, h3 1 (by decide) 2 (by decide) (by decide) 1 (by decide) 11 (by decide)
    (by decide), h2 3 (by decide) 2 (by decide) (by decide)⟩

end Lasagne.Scheduler
