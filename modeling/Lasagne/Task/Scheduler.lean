import Mathlib
import Lasagne.Library.CyclicList

namespace Lasagne.Scheduler
open CyclicList

inductive ThreadState where
  | running
  | waiting
  | idle
  deriving DecidableEq, Repr

structure Thread where
  state : ThreadState
  task : Nat
  next : Nat
  prev : Nat
  deriving DecidableEq, Repr

structure Task where
  threads : Nat
  next : Nat
  prev : Nat
  deriving DecidableEq, Repr

-- task and thread read the structure a pointer designates
structure Kernel where
  task : Nat → Task
  thread : Nat → Thread
  currentTask : Nat
  currentThread : Nat
  kernelIdleThread : Nat

def setThreads (k : Kernel) (task threads : Nat) : Kernel :=
  { k with task := Function.update k.task task { k.task task with threads } }

def isRunning (k : Kernel) (thread : Nat) : Bool := (k.thread thread).state == .running

-- the inner do-while of schedule; none is fuel that does not reach the end of the loop
def searchThreads (k : Kernel) (newTask firstThread : Nat) : Nat → Option (Option Nat × Kernel)
  | 0 => none
  | n + 1 =>
    let k := setThreads k newTask (k.thread (k.task newTask).threads).next
    let thread := (k.task newTask).threads
    if isRunning k thread then some (some thread, k)
    else if thread ≠ firstThread then searchThreads k newTask firstThread n
    else some (none, k)

-- the outer do-while
def searchTasks (fuel : Nat) (k : Kernel) (oldTask newTask : Nat) : Nat → Option (Nat × Kernel)
  | 0 => none
  | n + 1 =>
    let newTask := (k.task newTask).next
    match searchThreads k newTask (k.task newTask).threads fuel with
    | none => none
    | some (some thread, k) => some (thread, k)
    | some (none, k) =>
      if newTask ≠ oldTask then searchTasks fuel k oldTask newTask n
      else some (k.kernelIdleThread, k)

def schedule (fuel : Nat) (k : Kernel) : Option (Nat × Kernel) :=
  searchTasks fuel k k.currentTask k.currentTask fuel

-- what preempt_int and preempt_syscall do before they switch
def preempt (fuel : Nat) (k : Kernel) : Option (Nat × Kernel) :=
  (schedule fuel k).map fun (thread, k) =>
    (thread, { k with currentThread := thread, currentTask := (k.thread thread).task })

def preemptions (fuel : Nat) : Nat → Kernel → Option (List Nat × Kernel)
  | 0, k => some ([], k)
  | n + 1, k => (preempt fuel k).bind fun s =>
    (preemptions fuel n s.2).map fun r => (s.1 :: r.1, r.2)

section setThreads
variable {k : Kernel} {t s x y : Nat}

@[simp] theorem setThreads_thread : (setThreads k t x).thread = k.thread := rfl

@[simp] theorem setThreads_next : ((setThreads k t x).task s).next = (k.task s).next := by
  by_cases h : s = t
  · subst h
    simp [setThreads]
  · simp [setThreads, Function.update_of_ne h]

@[simp] theorem setThreads_prev : ((setThreads k t x).task s).prev = (k.task s).prev := by
  by_cases h : s = t
  · subst h
    simp [setThreads]
  · simp [setThreads, Function.update_of_ne h]

@[simp] theorem setThreads_threads : ((setThreads k t x).task t).threads = x := by
  simp [setThreads]

theorem setThreads_other (h : s ≠ t) : (setThreads k t x).task s = k.task s := by
  simp [setThreads, Function.update_of_ne h]

@[simp] theorem isRunning_setThreads : isRunning (setThreads k t x) y = isRunning k y := rfl

@[simp] theorem setThreads_setThreads : setThreads (setThreads k t x) t y = setThreads k t y := by
  simp [setThreads]

theorem setThreads_self (h : (k.task t).threads = x) : setThreads k t x = k := by
  subst h
  simp [setThreads]

end setThreads

-- ts lists the tasks from the one after current_task, ths t the threads of t from the one after
-- its cursor
structure Rings (k : Kernel) (ts : List Nat) (ths : Nat → List Nat) : Prop where
  tasks : Around (fun t => (k.task t).next) k.currentTask ts
  threads : ∀ t ∈ ts, Around (fun x => (k.thread x).next) (k.task t).threads (ths t)
  owner : ∀ t ∈ ts, ∀ x ∈ ths t, (k.thread x).task = t

def hasRunning (k : Kernel) (threads : List Nat) : Bool := threads.any (isRunning k)

section searchThreads
variable {k : Kernel} {t first x : Nat}

-- the cursor stands before xs; induction on the threads the loop passes over
theorem searchThreads_stops (cur : Nat) (xs : List Nat) (n : Nat)
    (hl : List.IsChain (fun a b => (k.thread a).next = b) (cur :: (xs ++ [x])))
    (hcur : (k.task t).threads = cur) (hxs : ∀ y ∈ xs, isRunning k y = false ∧ y ≠ first)
    (hx : isRunning k x = false → x = first) (hn : xs.length < n) :
    searchThreads k t first n = some (if isRunning k x then some x else none, setThreads k t x) := by
  induction xs generalizing k cur n with
  | nil =>
    obtain ⟨n, rfl⟩ : ∃ m, n = m + 1 := ⟨n - 1, by omega⟩
    rw [List.nil_append, List.isChain_cons_cons] at hl
    cases hrun : isRunning k x with
    | true => simp [searchThreads, hcur, hl.1, hrun]
    | false =>
      obtain rfl := hx hrun
      simp [searchThreads, hcur, hl.1, hrun]
  | cons y ys ih =>
    obtain ⟨n, rfl⟩ : ∃ m, n = m + 1 := ⟨n - 1, by omega⟩
    rw [List.cons_append, List.isChain_cons_cons] at hl
    obtain ⟨hy, hne⟩ := hxs y (by simp)
    have hrest := ih (k := setThreads k t y) y n hl.2 (by simp)
      (fun z hz => hxs z (by simp [hz])) hx (by simpa using hn)
    rw [isRunning_setThreads] at hrest
    simp only [searchThreads, hcur, hl.1, setThreads_threads, isRunning_setThreads, hy,
      Bool.false_eq_true, if_false, if_pos hne, hrest, setThreads_setThreads]

end searchThreads

theorem exists_first {p : Nat → Bool} {l : List Nat} (h : l.any p = true) :
    ∃ xs x ys, l = xs ++ x :: ys ∧ p x = true ∧ ∀ y ∈ xs, p y = false := by
  induction l with
  | nil => simp at h
  | cons a l ih =>
    cases ha : p a with
    | true => exact ⟨[], a, l, rfl, ha, by simp⟩
    | false =>
      rw [List.any_cons, ha, Bool.false_or] at h
      obtain ⟨xs, x, ys, rfl, hx, hxs⟩ := ih h
      refine ⟨a :: xs, x, ys, rfl, hx, fun y hy => ?_⟩
      rcases List.mem_cons.mp hy with rfl | hy
      · exact ha
      · exact hxs y hy

section ring
variable {k : Kernel} {t x n : Nat} {l xs ys : List Nat}

theorem searchThreads_ring (ha : Around (fun x => (k.thread x).next) (k.task t).threads l)
    (hl : l = xs ++ x :: ys) (hx : isRunning k x = true) (hxs : ∀ y ∈ xs, isRunning k y = false)
    (hn : l.length ≤ n) :
    searchThreads k t (k.task t).threads n = some (some x, setThreads k t x) := by
  subst hl
  have hlinks := ha.links
  rw [← List.singleton_append (l := ys), ← List.append_assoc, ← List.cons_append] at hlinks
  rw [searchThreads_stops _ xs n (List.isChain_append.mp hlinks).1 rfl
    (fun y hy => ⟨hxs y hy, ?_⟩) (by simp [hx]) (by simp at hn; omega), if_pos hx]
  rintro rfl
  exact ha.cur_not_mem_left hy

theorem searchThreads_idle (ha : Around (fun x => (k.thread x).next) (k.task t).threads l)
    (hl : hasRunning k l = false) (hn : l.length ≤ n) :
    searchThreads k t (k.task t).threads n = some (none, k) := by
  obtain ⟨xs, rfl⟩ := List.getLast?_eq_some_iff.mp ha.last
  rw [hasRunning, List.any_eq_false] at hl
  have hrun (y : Nat) (hy : y ∈ xs ++ [(k.task t).threads]) : isRunning k y = false := by
    simpa using hl y hy
  rw [searchThreads_stops _ xs n ha.links rfl (fun y hy => ⟨hrun y (by simp [hy]), ?_⟩)
    (fun _ => rfl) (by simp at hn; omega), if_neg (by simp [hrun]), setThreads_self rfl]
  rintro rfl
  exact ha.cur_not_mem_left hy

end ring

section searchTasks
variable {k : Kernel} {t x old fuel : Nat} {ts ss rs : List Nat} {ths : Nat → List Nat}

theorem searchTasks_found (cur : Nat) (ss : List Nat) (n : Nat)
    (hl : List.IsChain (fun a b => (k.task a).next = b) (cur :: (ss ++ [t])))
    (hths : ∀ s ∈ ss ++ [t], Around (fun x => (k.thread x).next) (k.task s).threads (ths s) ∧
      (ths s).length ≤ fuel)
    (hss : ∀ s ∈ ss, hasRunning k (ths s) = false ∧ s ≠ old)
    (hx : searchThreads k t (k.task t).threads fuel = some (some x, setThreads k t x))
    (hn : ss.length < n) :
    searchTasks fuel k old cur n = some (x, setThreads k t x) := by
  induction ss generalizing cur n with
  | nil =>
    obtain ⟨n, rfl⟩ : ∃ m, n = m + 1 := ⟨n - 1, by omega⟩
    rw [List.nil_append, List.isChain_cons_cons] at hl
    simp only [searchTasks, hl.1, hx]
  | cons s ss ih =>
    obtain ⟨n, rfl⟩ : ∃ m, n = m + 1 := ⟨n - 1, by omega⟩
    rw [List.cons_append, List.isChain_cons_cons] at hl
    obtain ⟨hs, hne⟩ := hss s (by simp)
    obtain ⟨ha, hlen⟩ := hths s (by simp)
    have hrest := ih s n hl.2 (fun r hr => hths r (by simp at hr ⊢; tauto))
      (fun r hr => hss r (by simp [hr])) (by simpa using hn)
    simp only [searchTasks, hl.1, searchThreads_idle ha hs hlen, if_pos hne, hrest]

theorem searchTasks_idle (cur : Nat) (ss : List Nat) (n : Nat)
    (hl : List.IsChain (fun a b => (k.task a).next = b) (cur :: (ss ++ [old])))
    (hths : ∀ s ∈ ss ++ [old], Around (fun x => (k.thread x).next) (k.task s).threads (ths s) ∧
      (ths s).length ≤ fuel)
    (hss : ∀ s ∈ ss ++ [old], hasRunning k (ths s) = false) (hold : old ∉ ss)
    (hn : ss.length < n) :
    searchTasks fuel k old cur n = some (k.kernelIdleThread, k) := by
  induction ss generalizing cur n with
  | nil =>
    obtain ⟨n, rfl⟩ : ∃ m, n = m + 1 := ⟨n - 1, by omega⟩
    rw [List.nil_append, List.isChain_cons_cons] at hl
    obtain ⟨ha, hlen⟩ := hths old (by simp)
    simp [searchTasks, hl.1, searchThreads_idle ha (hss old (by simp)) hlen]
  | cons s ss ih =>
    obtain ⟨n, rfl⟩ : ∃ m, n = m + 1 := ⟨n - 1, by omega⟩
    rw [List.cons_append, List.isChain_cons_cons] at hl
    rw [List.mem_cons, not_or] at hold
    obtain ⟨ha, hlen⟩ := hths s (by simp)
    have hrest := ih s n hl.2 (fun r hr => hths r (by simp at hr ⊢; tauto))
      (fun r hr => hss r (by simp at hr ⊢; tauto)) hold.2 (by simpa using hn)
    simp only [searchTasks, hl.1, searchThreads_idle ha (hss s (by simp)) hlen,
      if_pos (Ne.symm hold.1), hrest]

theorem Rings.next (h : Rings k (ss ++ t :: rs) ths) {xs ys : List Nat} (ht : ths t = xs ++ x :: ys) :
    Rings { setThreads k t x with currentThread := x, currentTask := t } (rs ++ ss ++ [t])
      (Function.update ths t (ys ++ xs ++ [x])) := by
  have hmem (s : Nat) (hs : s ∈ rs ++ ss ++ [t]) : s ∈ ss ++ t :: rs := by
    simp at hs ⊢
    tauto
  refine ⟨h.tasks.rotate.congr fun s _ => setThreads_next, fun s hs => ?_, fun s hs y hy => ?_⟩
  · by_cases hst : s = t
    · subst hst
      have ha := h.threads s (by simp)
      rw [ht] at ha
      simpa using ha.rotate
    · rw [Function.update_of_ne hst]
      have ha := h.threads s (hmem s hs)
      simpa [setThreads_other hst] using ha
  · by_cases hst : s = t
    · subst hst
      rw [Function.update_self] at hy
      exact h.owner s (by simp) y (by rw [ht]; simp at hy ⊢; tauto)
    · rw [Function.update_of_ne hst] at hy
      exact h.owner s (hmem s hs) y hy

theorem schedule_found (htasks : Around (fun t => (k.task t).next) k.currentTask (ss ++ t :: rs))
    (hths : ∀ s ∈ ss ++ t :: rs, Around (fun x => (k.thread x).next) (k.task s).threads (ths s) ∧
      (ths s).length ≤ fuel) (hlen : (ss ++ t :: rs).length ≤ fuel)
    (hss : ∀ s ∈ ss, hasRunning k (ths s) = false) {xs ys : List Nat} (hxs : ths t = xs ++ x :: ys)
    (hx : isRunning k x = true) (hidle : ∀ y ∈ xs, isRunning k y = false) :
    schedule fuel k = some (x, setThreads k t x) := by
  have hlinks := htasks.links
  rw [← List.singleton_append (l := rs), ← List.append_assoc, ← List.cons_append] at hlinks
  obtain ⟨ha, hfuel⟩ := hths t (by simp)
  refine searchTasks_found _ ss fuel (List.isChain_append.mp hlinks).1
    (fun s hs => hths s (by simp at hs ⊢; tauto)) (fun s hs => ⟨hss s hs, ?_⟩)
    (searchThreads_ring ha hxs hx hidle hfuel) (by simp at hlen; omega)
  rintro rfl
  exact htasks.cur_not_mem_left hs

theorem schedule_idle (htasks : Around (fun t => (k.task t).next) k.currentTask ts)
    (hths : ∀ s ∈ ts, Around (fun x => (k.thread x).next) (k.task s).threads (ths s) ∧
      (ths s).length ≤ fuel) (hlen : ts.length ≤ fuel)
    (hts : ∀ s ∈ ts, hasRunning k (ths s) = false) :
    schedule fuel k = some (k.kernelIdleThread, k) := by
  obtain ⟨ss, rfl⟩ := htasks.eq_append
  have hold := (List.nodup_append.mp htasks.nodup).2.2
  exact searchTasks_idle _ ss fuel htasks.links hths hts (fun hs => hold _ hs _ (by simp) rfl)
    (by simp at hlen; omega)

theorem Rings.preempt (h : Rings k ts ths) (hlen : ts.length ≤ fuel)
    (hlens : ∀ t ∈ ts, (ths t).length ≤ fuel) (hts : ts = ss ++ t :: rs)
    (hss : ∀ s ∈ ss, hasRunning k (ths s) = false)
    {xs ys : List Nat} (hxs : ths t = xs ++ x :: ys) (hx : isRunning k x = true)
    (hidle : ∀ y ∈ xs, isRunning k y = false) :
    preempt fuel k =
      some (x, { setThreads k t x with currentThread := x, currentTask := t }) := by
  subst hts
  have hsched := schedule_found h.tasks (fun s hs => ⟨h.threads s hs, hlens s hs⟩) hlen hss hxs hx hidle
  have hown := h.owner t (by simp) x (by rw [hxs]; simp)
  rw [Scheduler.preempt, hsched, Option.map_some]
  simp [hown]

theorem Rings.preempt_idle (h : Rings k ts ths) (hlen : ts.length ≤ fuel)
    (hlens : ∀ t ∈ ts, (ths t).length ≤ fuel) (hts : ∀ s ∈ ts, hasRunning k (ths s) = false) :
    Scheduler.preempt fuel k = some (k.kernelIdleThread,
      { k with
        currentThread := k.kernelIdleThread
        currentTask := (k.thread k.kernelIdleThread).task }) := by
  have hsched := schedule_idle h.tasks (fun s hs => ⟨h.threads s hs, hlens s hs⟩) hlen hts
  rw [Scheduler.preempt, hsched, Option.map_some]

theorem Rings.rotate (h : Rings k (ss ++ t :: rs) ths) (c : Nat) :
    Rings { k with currentThread := c, currentTask := t } (rs ++ ss ++ [t]) ths := by
  have hmem (s : Nat) (hs : s ∈ rs ++ ss ++ [t]) : s ∈ ss ++ t :: rs := by
    simp at hs ⊢
    tauto
  exact ⟨h.tasks.rotate, fun s hs => h.threads s (hmem s hs), fun s hs => h.owner s (hmem s hs)⟩

theorem Rings.preempt_total (h : Rings k ts ths) (hlen : ts.length ≤ fuel)
    (hlens : ∀ t ∈ ts, (ths t).length ≤ fuel)
    (hi : k.kernelIdleThread ∈ ths (k.thread k.kernelIdleThread).task)
    (hit : (k.thread k.kernelIdleThread).task ∈ ts) :
    ∃ k' ts' ths', Scheduler.preempt fuel k = some (k'.currentThread, k') ∧ Rings k' ts' ths' ∧
      k'.thread = k.thread ∧ k'.kernelIdleThread = k.kernelIdleThread ∧
      k'.currentTask = (k'.thread k'.currentThread).task ∧ k'.currentTask ∈ ts ∧
      k'.currentThread ∈ ths k'.currentTask ∧ ts'.Perm ts ∧ ∀ t, (ths' t).Perm (ths t) := by
  have hrot (ss rs : List Nat) (t : Nat) : (rs ++ ss ++ [t]).Perm (ss ++ t :: rs) :=
    (List.perm_append_comm.append_right [t]).trans
      ((List.append_assoc ss rs [t]).symm ▸ (List.perm_append_singleton t rs).append_left ss)
  cases hany : ts.any fun t => hasRunning k (ths t) with
  | true =>
    obtain ⟨ss, t, rs, rfl, ht, hss⟩ := exists_first hany
    obtain ⟨xs, x, ys, hxs, hx, hidle⟩ := exists_first ht
    have hown := h.owner t (by simp) x (by rw [hxs]; simp)
    refine ⟨_, _, _, h.preempt hlen hlens rfl hss hxs hx hidle, h.next hxs, rfl, rfl, hown.symm,
      by simp, ?_, hrot ss rs t, fun s => ?_⟩
    · change x ∈ ths t
      rw [hxs]
      simp
    · by_cases hs : s = t
      · subst hs
        rw [Function.update_self, hxs]
        exact hrot xs ys x
      · rw [Function.update_of_ne hs]
  | false =>
    have hnone : ∀ s ∈ ts, hasRunning k (ths s) = false := by
      simpa using List.any_eq_false.mp hany
    have hp := h.preempt_idle hlen hlens hnone
    obtain ⟨ss, rs, rfl⟩ := List.append_of_mem hit
    exact ⟨_, _, _, hp, h.rotate _, rfl, rfl, rfl, hit, hi, hrot ss rs _, fun _ => .refl _⟩

end searchTasks

end Lasagne.Scheduler
