import Mathlib
import Lasagne.Task.Environment

namespace Lasagne.Scheduler
open CyclicList Ds PartialRun

structure Owns (k : Kernel) (t : Nat) (l : List Nat) : Prop where
  linked : Linked (threadLinks k).next (threadLinks k).prev (k.task t).threads l
  owner : ∀ x ∈ l, (k.thread x).task = t
  nonzero : 0 ∉ l

theorem linkThreads_same {k : Kernel} {l : Links} {xs : List Nat} {x : Nat}
    (h : (threadLinks k).SameOutside l xs) (hx : x ∉ xs) : (linkThreads k l).thread x = k.thread x := by
  obtain ⟨hn, hp⟩ := h x hx
  simp only [linkThreads, hn, hp, threadLinks]

section setState
variable {k : Kernel} {x y t : Nat} {state : ThreadState} {l : List Nat}

theorem setState_owner : ((setState k x state).thread y).task = (k.thread y).task := by
  by_cases h : y = x
  · subst h
    simp [setState]
  · simp [setState, Function.update_of_ne h]

theorem setState_links : threadLinks (setState k x state) = threadLinks k := by
  rw [threadLinks, threadLinks, Links.mk.injEq]
  constructor
  all_goals
    funext y
    by_cases h : y = x
    · subst h
      simp [setState]
    · simp [setState, Function.update_of_ne h]

theorem Owns.setState (h : Owns k t l) : Owns (setState k x state) t l := by
  refine ⟨?_, fun y hy => setState_owner.trans (h.owner y hy), h.nonzero⟩
  rw [setState_links]
  exact h.linked

end setState

section createThread
variable {s : System} {k k' : Kernel} {t x thread : Nat} {l xs : List Nat}

theorem Owns.congr (h : Owns k t l) (ht : (k'.task t).threads = (k.task t).threads)
    (hx : ∀ x ∈ l, k'.thread x = k.thread x) : Owns k' t l := by
  refine ⟨?_, fun x hxl => ?_, h.nonzero⟩
  · rw [ht]
    exact h.linked.congr (fun x hxl => by simp only [threadLinks, hx x hxl])
      fun x hxl => by simp only [threadLinks, hx x hxl]
  · rw [hx x hxl]
    exact h.owner x hxl

structure Created (k k' : Kernel) (t thread : Nat) (l l' : List Nat) : Prop where
  owns : Owns k' t l'
  task : ∀ s, s ≠ t → k'.task s = k.task s
  links : taskLinks k' = taskLinks k
  thread : ∀ x, x ∉ thread :: l → k'.thread x = k.thread x
  currentTask : k'.currentTask = k.currentTask

theorem createThread_ring (stack : Nat) (h : Owns s.kernel t (xs ++ [x])) (hnew : thread ∉ 0 :: (xs ++ [x])) :
    Created s.kernel (createThread s t thread stack).kernel t thread (xs ++ [x])
      (xs ++ [thread, x]) := by
  rw [List.mem_cons, not_or] at hnew
  set k := setTask (setState s.kernel thread .running) thread t with hk
  have hsame (y : Nat) (hy : y ≠ thread) : k.thread y = s.kernel.thread y := by
    simp [hk, setTask, setState, Function.update_of_ne hy]
  have hcur : (k.task t).threads = x := by
    have := h.linked.last
    rw [List.getLast?_append_of_ne_nil _ (by simp)] at this
    exact (Option.some.inj this).symm
  have hk' : Owns k t (xs ++ [x]) :=
    h.congr rfl fun y hy => hsame y (ne_of_mem_of_not_mem hy hnew.2)
  obtain ⟨r, hr, hring, hout⟩ := clistAdd_ring thread (hcur ▸ hk'.linked) hnew.2 h.nonzero
  have hne : x ≠ 0 := by
    rintro rfl
    exact h.nonzero (by simp)
  have heq : (createThread s t thread stack).kernel = linkThreads k r := by
    simp only [createThread, ← hk, hcur, if_pos hne, hr]
  rw [heq]
  refine ⟨⟨hcur.symm ▸ hring, fun y hy => ?_, ?_⟩, fun _ _ => rfl, rfl, fun y hy => ?_, rfl⟩
  · by_cases hy' : y = thread
    · simp [linkThreads, hy', hk, setTask]
    · exact hk'.owner y ((mem_inserted.mp hy).resolve_left hy')
  · rw [mem_inserted, not_or]
    exact ⟨Ne.symm hnew.1, h.nonzero⟩
  · rw [linkThreads_same hout (by simpa using hy), hsame y (List.ne_of_not_mem_cons hy)]

theorem createThread_first (stack : Nat) (h : (s.kernel.task t).threads = 0) (hnew : thread ≠ 0) :
    Created s.kernel (createThread s t thread stack).kernel t thread [] [thread] := by
  set k := setTask (setState s.kernel thread .running) thread t with hk
  have hsame (y : Nat) (hy : y ≠ thread) : k.thread y = s.kernel.thread y := by
    simp [hk, setTask, setState, Function.update_of_ne hy]
  obtain ⟨r, hr, hring, hout⟩ := clistAdd_empty (threadLinks k) thread
  have h0 : (k.task t).threads = 0 := h
  have heq : (createThread s t thread stack).kernel = setThreads (linkThreads k r) t thread := by
    simp only [createThread, ← hk, h0, ne_eq, not_true_eq_false, if_false, hr]
  rw [heq]
  refine ⟨⟨?_, fun y hy => ?_, ?_⟩, fun u hu => setThreads_other hu, ?_, fun y hy => ?_, rfl⟩
  · rw [setThreads_threads]
    exact hring
  · obtain rfl := List.mem_singleton.mp hy
    simp [linkThreads, hk, setTask]
  · simpa using hnew.symm
  · simp only [taskLinks, setThreads_next, setThreads_prev, linkThreads, hk, setTask, setState]
  · rw [setThreads_thread, linkThreads_same hout (by simpa using hy), hsame y (by simpa using hy)]

end createThread

-- the nodes of each list in the order of next, last the one its pointer designates
structure Lists where
  known : List Nat
  tasks : List Nat
  threads : Nat → List Nat

structure World where
  system : System
  lists : Lists

inductive Creation where
  | zeroedTask (task : Nat)
  | createThread (task thread stack : Nat)
  | addThread (task thread : Nat)
  | createUsermodeTask (new : NewTask)
  | addTask (task : Nat)

-- CLIST_ADD on task->threads itself, as for kernel_main_thread
def addThread (s : System) (task thread : Nat) : System :=
  let k := setTask (setState s.kernel thread .running) thread task
  let r := clistAdd (threadLinks k) (k.task task).threads thread
  { s with kernel := setThreads (linkThreads k r.1) task r.2 }

-- CLIST_ADD on current_task itself, as for kernel_task
def addTask (s : System) (task : Nat) : System :=
  let k := s.kernel
  let r := clistAdd (taskLinks k) k.currentTask task
  { s with kernel := { linkTasks k r.1 with currentTask := r.2 } }

-- directly before the node the pointer designates, which stays
def joined (l : List Nat) (node : Nat) : List Nat := l.dropLast ++ node :: l.getLast?.toList

-- the pointer moves on to the new node
def advanced (l : List Nat) (node : Nat) : List Nat := l.getLast?.toList ++ l.dropLast ++ [node]

namespace Lists

-- kalloc and the linker give out nodes that are in no list
def freshThread (ls : Lists) (thread : Nat) : Prop :=
  thread ≠ 0 ∧ ∀ t ∈ ls.known, thread ∉ ls.threads t

def freshTask (ls : Lists) (task : Nat) : Prop := task ≠ 0 ∧ task ∉ ls.known

instance (ls : Lists) (thread : Nat) : Decidable (ls.freshThread thread) :=
  inferInstanceAs (Decidable (_ ∧ _))

instance (ls : Lists) (task : Nat) : Decidable (ls.freshTask task) :=
  inferInstanceAs (Decidable (_ ∧ _))

def setThreads (ls : Lists) (task : Nat) (l : List Nat) : Lists :=
  { ls with threads := Function.update ls.threads task l }

@[simp] theorem setThreads_self (ls : Lists) (t : Nat) (l : List Nat) :
    (ls.setThreads t l).threads t = l :=
  Function.update_self _ _ _

theorem setThreads_other (ls : Lists) {u t : Nat} (h : u ≠ t) (l : List Nat) :
    (ls.setThreads t l).threads u = ls.threads u :=
  Function.update_of_ne h _ _

end Lists

def create (w : World) : Creation → Option World
  | .zeroedTask task =>
    if w.lists.freshTask task ∧ (w.system.kernel.task task).threads = 0 then
      some ⟨w.system, { w.lists with known := task :: w.lists.known }.setThreads task []⟩
    else none
  | .createThread task thread stack =>
    if task ∈ w.lists.known ∧ w.lists.freshThread thread then
      some ⟨createThread w.system task thread stack,
        w.lists.setThreads task (joined (w.lists.threads task) thread)⟩
    else none
  | .addThread task thread =>
    if task ∈ w.lists.known ∧ w.lists.freshThread thread then
      some ⟨addThread w.system task thread,
        w.lists.setThreads task (advanced (w.lists.threads task) thread)⟩
    else none
  | .createUsermodeTask new =>
    if w.lists.freshTask new.task ∧ w.lists.freshThread new.thread then
      some ⟨createUsermodeTask w.system new,
        { w.lists with known := new.task :: w.lists.known
                       tasks := joined w.lists.tasks new.task }.setThreads new.task [new.thread]⟩
    else none
  | .addTask task =>
    if task ∈ w.lists.known ∧ task ∉ w.lists.tasks then
      some ⟨addTask w.system task, { w.lists with tasks := advanced w.lists.tasks task }⟩
    else none

def Boot.world (b : Boot) : World where
  system := b.initKernelTask b.before
  lists := ⟨[b.kernelTask], [b.kernelTask], fun _ => [b.idle.thread, b.kernelMainThread]⟩

structure Shown (k : Kernel) (ls : Lists) : Prop where
  tasks : Linked (taskLinks k).next (taskLinks k).prev k.currentTask ls.tasks
  known : ls.tasks ⊆ ls.known
  nonzero : 0 ∉ ls.known
  first : ∀ t ∈ ls.known, ls.threads t = [] → (k.task t).threads = 0
  owns : ∀ t ∈ ls.known, ls.threads t ≠ [] → Owns k t (ls.threads t)

section joined
variable {l xs : List Nat} {x node : Nat}

@[simp] theorem joined_nil : joined [] node = [node] := rfl

@[simp] theorem joined_concat : joined (xs ++ [x]) node = xs ++ [node, x] := by
  simp [joined]

@[simp] theorem advanced_concat : advanced (xs ++ [x]) node = x :: xs ++ [node] := by
  simp [advanced]

theorem perm_joined : (joined l node).Perm (node :: l) := by
  rcases List.eq_nil_or_concat' l with rfl | ⟨xs, x, rfl⟩
  · exact .refl _
  · rw [joined_concat]
    exact List.perm_middle

theorem perm_advanced : (advanced l node).Perm (node :: l) := by
  rcases List.eq_nil_or_concat' l with rfl | ⟨xs, x, rfl⟩
  · exact .refl _
  · rw [advanced_concat]
    exact (List.perm_append_singleton node (x :: xs)).trans
      ((List.perm_append_singleton x xs).symm.cons node)

end joined

section addThread
variable {s : System} {k k' : Kernel} {t x thread : Nat} {l xs : List Nat}

theorem addThread_kernel (s : System) (t thread stack : Nat) :
    (addThread s t thread).kernel = setThreads (createThread s t thread stack).kernel t thread := by
  simp only [addThread, createThread, clistAdd_pointer, ne_eq, ite_not]
  split
  next h => rw [h, setThreads_setThreads]
  next => rfl

theorem Created.advance (hc : Created k k' t thread (xs ++ [x]) (xs ++ [thread, x])) :
    Created k (setThreads k' t thread) t thread (xs ++ [x]) (x :: xs ++ [thread]) := by
  have hmem (y : Nat) : y ∈ x :: xs ++ [thread] ↔ y ∈ xs ++ [thread, x] := by
    simp
    tauto
  have hcur : (k'.task t).threads = x := by
    have := hc.owns.linked.last
    rw [List.getLast?_append_of_ne_nil _ (by simp)] at this
    exact (Option.some.inj this).symm
  refine ⟨⟨?_, fun y hy => ?_, ?_⟩, fun u hu => ?_, ?_, hc.thread, hc.currentTask⟩
  · have hrot := hc.owns.linked
    rw [hcur] at hrot
    rw [setThreads_threads]
    exact hrot.rotate
  · exact hc.owns.owner y ((hmem y).mp hy)
  · rw [hmem]
    exact hc.owns.nonzero
  · rw [setThreads_other hu, hc.task u hu]
  · rw [← hc.links]
    simp only [taskLinks, setThreads_next, setThreads_prev]

theorem createThread_created (stack : Nat) (hfirst : l = [] → (s.kernel.task t).threads = 0)
    (howns : l ≠ [] → Owns s.kernel t l) (h0 : thread ≠ 0) (hnew : thread ∉ l) :
    Created s.kernel (createThread s t thread stack).kernel t thread l (joined l thread) := by
  rcases List.eq_nil_or_concat' l with rfl | ⟨xs, x, rfl⟩
  · exact createThread_first stack (hfirst rfl) h0
  · rw [joined_concat]
    exact createThread_ring stack (howns (by simp)) (List.not_mem_cons_of_ne_of_not_mem h0 hnew)

theorem addThread_created (hfirst : l = [] → (s.kernel.task t).threads = 0)
    (howns : l ≠ [] → Owns s.kernel t l) (h0 : thread ≠ 0) (hnew : thread ∉ l) :
    Created s.kernel (addThread s t thread).kernel t thread l (advanced l thread) := by
  have hc := createThread_created 0 hfirst howns h0 hnew
  rw [addThread_kernel s t thread 0]
  rcases List.eq_nil_or_concat' l with rfl | ⟨xs, x, rfl⟩
  · have hcur : ((createThread s t thread 0).kernel.task t).threads = thread :=
      (Option.some.inj hc.owns.linked.last).symm
    rw [setThreads_self hcur]
    exact hc
  · rw [joined_concat] at hc
    rw [advanced_concat]
    exact hc.advance

end addThread

section shown
variable {s : System} {k k' : Kernel} {ls : Lists} {t thread : Nat} {l' : List Nat}

theorem Shown.grow (h : Shown k ls) (ht : t ∈ ls.known)
    (hc : Created k k' t thread (ls.threads t) l') (hnew : ∀ u ∈ ls.known, thread ∉ ls.threads u) :
    Shown k' (ls.setThreads t l') := by
  have hne : l' ≠ [] := hc.owns.linked.ne_nil
  refine ⟨?_, h.known, h.nonzero, fun u hu hnil => ?_, fun u hu hnil => ?_⟩
  · rw [hc.links, hc.currentTask]
    exact h.tasks
  · by_cases hut : u = t
    · subst hut
      rw [Lists.setThreads_self] at hnil
      exact absurd hnil hne
    · rw [Lists.setThreads_other _ hut] at hnil
      rw [hc.task u hut]
      exact h.first u hu hnil
  · by_cases hut : u = t
    · subst hut
      rw [Lists.setThreads_self]
      exact hc.owns
    · rw [Lists.setThreads_other _ hut] at hnil ⊢
      have howns := h.owns u hu hnil
      refine howns.congr (by rw [hc.task u hut]) fun y hy => hc.thread y ?_
      rw [List.mem_cons, not_or]
      refine ⟨ne_of_mem_of_not_mem hy (hnew u hu), fun hyt => hut ?_⟩
      rw [← howns.owner y hy, (h.owns t ht (List.ne_nil_of_mem hyt)).owner y hyt]

theorem Shown.createThread (h : Shown s.kernel ls) (ht : t ∈ ls.known) (hf : ls.freshThread thread)
    (stack : Nat) :
    Shown (createThread s t thread stack).kernel
      (ls.setThreads t (joined (ls.threads t) thread)) :=
  h.grow ht (createThread_created stack (h.first t ht) (h.owns t ht) hf.1 (hf.2 t ht)) hf.2

theorem Shown.addThread (h : Shown s.kernel ls) (ht : t ∈ ls.known) (hf : ls.freshThread thread) :
    Shown (addThread s t thread).kernel (ls.setThreads t (advanced (ls.threads t) thread)) :=
  h.grow ht (addThread_created (h.first t ht) (h.owns t ht) hf.1 (hf.2 t ht)) hf.2

theorem Shown.newTask {new : Task} (h : Shown k ls) (hf : ls.freshTask t) (hnew : new.threads = 0) :
    Shown { k with task := Function.update k.task t new }
      ({ ls with known := t :: ls.known }.setThreads t []) := by
  have hsame (u : Nat) (hu : u ∈ ls.known) : Function.update k.task t new u = k.task u :=
    Function.update_of_ne (ne_of_mem_of_not_mem hu hf.2) _ _
  have hother (u : Nat) (hu : u ∈ t :: ls.known) (hut : u ≠ t) : u ∈ ls.known :=
    (List.mem_cons.mp hu).resolve_left hut
  refine ⟨?_, fun u hu => List.mem_cons_of_mem _ (h.known hu), ?_, fun u hu hnil => ?_,
    fun u hu hnil => ?_⟩
  · exact h.tasks.congr (fun u hu => by simp only [taskLinks, hsame u (h.known hu)])
      fun u hu => by simp only [taskLinks, hsame u (h.known hu)]
  · exact List.not_mem_cons_of_ne_of_not_mem (Ne.symm hf.1) h.nonzero
  · by_cases hut : u = t
    · subst hut
      exact (congrArg Task.threads (Function.update_self _ _ _)).trans hnew
    · rw [Lists.setThreads_other _ hut] at hnil
      exact (congrArg Task.threads (hsame u (hother u hu hut))).trans
        (h.first u (hother u hu hut) hnil)
  · by_cases hut : u = t
    · subst hut
      rw [Lists.setThreads_self] at hnil
      exact absurd rfl hnil
    · rw [Lists.setThreads_other _ hut] at hnil ⊢
      exact (h.owns u (hother u hu hut) hnil).congr
        (congrArg Task.threads (hsame u (hother u hu hut))) fun _ _ => rfl

theorem Shown.linkTask (h : Shown k ls) (ht : t ∈ ls.known) (hnew : t ∉ ls.tasks) :
    ∃ r, clistAdd (taskLinks k) k.currentTask t = (r, t) ∧
      Shown (linkTasks k r) { ls with tasks := joined ls.tasks t } ∧
      Shown { linkTasks k r with currentTask := t } { ls with tasks := advanced ls.tasks t } := by
  obtain ⟨xs, hxs⟩ := h.tasks.eq_append
  have hlinked := h.tasks
  rw [hxs] at hlinked hnew
  have h0 : 0 ∉ xs ++ [k.currentTask] := hxs ▸ fun hc => h.nonzero (h.known hc)
  obtain ⟨r, hr, hring, -⟩ := clistAdd_ring t hlinked hnew h0
  have howns (u : Nat) (hu : u ∈ ls.known) (hnil : ls.threads u ≠ []) :
      Owns (linkTasks k r) u (ls.threads u) :=
    (h.owns u hu hnil).congr rfl fun _ _ => rfl
  have hknown {l : List Nat} (hl : l.Perm (t :: ls.tasks)) : l ⊆ ls.known := fun u hu =>
    (List.mem_cons.mp (hl.mem_iff.mp hu)).elim (fun he => he ▸ ht) fun hu => h.known hu
  refine ⟨r, hr, ⟨?_, hknown perm_joined, h.nonzero, h.first, howns⟩,
    ⟨?_, hknown perm_advanced, h.nonzero, h.first, fun u hu hnil => (howns u hu hnil).congr rfl
      fun _ _ => rfl⟩⟩
  · rw [hxs, joined_concat]
    exact hring
  · rw [hxs, advanced_concat]
    exact hring.rotate

theorem Shown.addTask (h : Shown s.kernel ls) (ht : t ∈ ls.known) (hnew : t ∉ ls.tasks) :
    Shown (addTask s t).kernel { ls with tasks := advanced ls.tasks t } := by
  obtain ⟨r, hr, -, hadv⟩ := h.linkTask ht hnew
  rw [Scheduler.addTask, hr]
  exact hadv

theorem Shown.createUsermodeTask {new : NewTask} (h : Shown s.kernel ls)
    (hf : ls.freshTask new.task) (hf' : ls.freshThread new.thread) :
    Shown (createUsermodeTask s new).kernel
      ({ ls with known := new.task :: ls.known
                 tasks := joined ls.tasks new.task }.setThreads new.task [new.thread]) := by
  set s₁ : System := { newAddressSpace s with
    root := new.mapped
    kernel := { s.kernel with task := Function.update s.kernel.task new.task ⟨0, 0, 0⟩ }
    memory := Function.update s.memory new.task new.mapped } with hs₁
  set ls₁ : Lists := { ls with known := new.task :: ls.known }.setThreads new.task [] with hls₁
  have h₁ : Shown s₁.kernel ls₁ := h.newTask hf rfl
  have hnil : ls₁.threads new.task = [] := by
    rw [hls₁, Lists.setThreads_self]
  have hfresh : ls₁.freshThread new.thread := by
    refine ⟨hf'.1, fun u hu => ?_⟩
    by_cases hut : u = new.task
    · rw [hut, hnil]
      simp
    · rw [hls₁, Lists.setThreads_other _ hut]
      exact hf'.2 u ((List.mem_cons.mp hu).resolve_left hut)
  have h₂ := h₁.createThread (t := new.task) List.mem_cons_self hfresh new.stack
  rw [hnil, joined_nil] at h₂
  set k := (Scheduler.createThread s₁ new.task new.thread new.stack).kernel with hk
  obtain ⟨r, hr, hjoin, -⟩ := h₂.linkTask (t := new.task) List.mem_cons_self
    fun hc => hf.2 (h.known hc)
  have hcur : k.currentTask ≠ 0 := fun hc =>
    h₂.nonzero (h₂.known (hc ▸ h₂.tasks.cur_mem))
  have heq : (Scheduler.createUsermodeTask s new).kernel = linkTasks k r := by
    change (if k.currentTask ≠ 0 then linkTasks k (clistAdd (taskLinks k) k.currentTask new.task).1
      else _) = _
    rw [if_pos hcur, hr]
  rw [heq]
  simpa only [hls₁, Lists.setThreads, Function.update_idem] using hjoin

theorem Shown.creation {w w' : World} {c : Creation} (h : Shown w.system.kernel w.lists)
    (hc : create w c = some w') : Shown w'.system.kernel w'.lists := by
  cases c with
  | zeroedTask task =>
    obtain ⟨⟨hf, h0⟩, hw⟩ := Option.ite_none_right_eq_some.mp hc
    have hnew := h.newTask hf h0
    rw [Function.update_eq_self] at hnew
    obtain rfl := Option.some.inj hw
    exact hnew
  | createThread task thread stack =>
    obtain ⟨⟨ht, hf⟩, hw⟩ := Option.ite_none_right_eq_some.mp hc
    obtain rfl := Option.some.inj hw
    exact h.createThread ht hf stack
  | addThread task thread =>
    obtain ⟨⟨ht, hf⟩, hw⟩ := Option.ite_none_right_eq_some.mp hc
    obtain rfl := Option.some.inj hw
    exact h.addThread ht hf
  | createUsermodeTask new =>
    obtain ⟨⟨hf, hf'⟩, hw⟩ := Option.ite_none_right_eq_some.mp hc
    obtain rfl := Option.some.inj hw
    exact h.createUsermodeTask hf hf'
  | addTask task =>
    obtain ⟨⟨ht, hnew⟩, hw⟩ := Option.ite_none_right_eq_some.mp hc
    obtain rfl := Option.some.inj hw
    exact h.addTask ht hnew

end shown

namespace Boot
variable (b : Boot)

theorem initKernelTask_shown :
    Shown (b.initKernelTask b.before).kernel b.world.lists ∧
      (b.initKernelTask b.before).kernel.kernelIdleThread = b.idle.thread := by
  have hthreads := b.threads
  have htasks := b.tasks
  simp only [List.nodup_cons, List.mem_cons, List.not_mem_nil, or_false, not_or] at hthreads htasks
  obtain ⟨⟨hm0, hi0, -⟩, ⟨hmi, -⟩, -⟩ := hthreads
  set s₁ : System := b.initKernelMainThread
    { b.before with memory := Function.update b.before.memory b.kernelTask 0 } with hs₁
  have hc := createThread_first (s := s₁) (t := b.kernelTask) b.idle.stack b.kernelThreads
    (Ne.symm hi0)
  set s₂ := createThread s₁ b.kernelTask b.idle.thread b.idle.stack
  set k₃ := setState { s₂.kernel with kernelIdleThread := b.idle.thread } b.idle.thread .waiting
    with hk₃
  have howns : Owns k₃ b.kernelTask [b.idle.thread] := Owns.setState (hc.owns.congr rfl fun _ _ => rfl)
  have hcur : (k₃.task b.kernelTask).threads = b.idle.thread := by
    have := howns.linked.last
    exact (Option.some.inj this).symm
  have hmain : (k₃.thread b.kernelMainThread).task = b.kernelTask := by
    rw [hk₃, setState_owner, hc.thread _ (by simpa using hmi)]
    simp [hs₁, initKernelMainThread, setTask]
  have hlinked : Linked (threadLinks k₃).next (threadLinks k₃).prev b.idle.thread
      ([] ++ [b.idle.thread]) := hcur ▸ howns.linked
  obtain ⟨r, hr, hring, hout⟩ := clistAdd_ring b.kernelMainThread hlinked (by simpa using hmi)
    howns.nonzero
  obtain ⟨r', hr', htask, -⟩ := clistAdd_empty
    (taskLinks (setThreads (linkThreads k₃ r) b.kernelTask b.kernelMainThread)) b.kernelTask
  have h0 : k₃.currentTask = 0 := hc.currentTask.trans b.currentTask
  have heq : (b.initKernelTask b.before).kernel =
      { linkTasks (setThreads (linkThreads k₃ r) b.kernelTask b.kernelMainThread) r' with
        currentTask := b.kernelTask } := by
    change (let r := clistAdd (threadLinks k₃) (k₃.task b.kernelTask).threads b.kernelMainThread
      let k := setThreads (linkThreads k₃ r.1) b.kernelTask r.2
      let r := clistAdd (taskLinks k) k.currentTask b.kernelTask
      ({ linkTasks k r.1 with currentTask := r.2 } : Kernel)) = _
    simp only [hcur, hr]
    rw [show (setThreads (linkThreads k₃ r) b.kernelTask b.kernelMainThread).currentTask = 0 from h0, hr']
  rw [heq]
  refine ⟨⟨htask, List.Subset.refl _, by simpa [world] using htasks.1.1,
    fun t _ hnil => absurd hnil (by simp [world]), fun t ht _ => ?_⟩, rfl⟩
  obtain rfl := List.mem_singleton.mp ht
  have hthreads : ((setThreads (linkThreads k₃ r) b.kernelTask b.kernelMainThread).task
      b.kernelTask).threads = b.kernelMainThread := setThreads_threads
  refine ⟨?_, fun x hx => ?_, by simp [world, hm0, hi0]⟩
  · have hrot := Linked.rotate (show Linked _ _ _ ([] ++ b.kernelMainThread :: [_]) from hring)
    exact hthreads.symm ▸ hrot
  · rcases (show x = b.idle.thread ∨ x = b.kernelMainThread by simpa [world] using hx) with rfl | rfl
    · exact howns.owner _ (by simp)
    · exact hmain

end Boot

structure IsRing (next prev : Nat → Nat) (cur : Nat) (l : List Nat) : Prop where
  designated : cur ∈ l
  distinct : l.Nodup
  inverse : ∀ x ∈ l, prev (next x) = x ∧ next (prev x) = x
  visits : ∀ x ∈ l, next^[l.length] x = x ∧ (List.iterate next x l.length).Perm l

structure AllRings (w : World) : Prop where
  tasks : IsRing (taskLinks w.system.kernel).next (taskLinks w.system.kernel).prev
    w.system.kernel.currentTask w.lists.tasks
  threads : ∀ t ∈ w.lists.known,
    if w.lists.threads t = [] then (w.system.kernel.task t).threads = 0
    else IsRing (threadLinks w.system.kernel).next (threadLinks w.system.kernel).prev
      (w.system.kernel.task t).threads (w.lists.threads t)

structure Inserted (next next' : Nat → Nat) (cur node : Nat) (l l' : List Nat) : Prop where
  nodes : l'.Perm (node :: l)
  before : next' node = if l = [] then node else cur
  order : ∀ x ∈ l, next' x = if next x = cur then node else next x

structure Kept (next next' : Nat → Nat) (l l' : List Nat) : Prop where
  nodes : l' = l
  order : ∀ x ∈ l, next' x = next x

def Creation.newThread : Creation → Option (Nat × Nat)
  | .createThread task thread _ => some (task, thread)
  | .addThread task thread => some (task, thread)
  | .createUsermodeTask new => some (new.task, new.thread)
  | _ => none

def Creation.newTask : Creation → Option Nat
  | .createUsermodeTask new => some new.task
  | .addTask task => some task
  | _ => none

def Lists.threadsOf (ls : Lists) (task : Nat) : List Nat :=
  if task ∈ ls.known then ls.threads task else []

structure Grown (w : World) (c : Creation) (w' : World) : Prop where
  task : ∀ t, c.newTask = some t → Inserted (taskLinks w.system.kernel).next
    (taskLinks w'.system.kernel).next w.system.kernel.currentTask t w.lists.tasks w'.lists.tasks
  tasks : c.newTask = none → Kept (taskLinks w.system.kernel).next
    (taskLinks w'.system.kernel).next w.lists.tasks w'.lists.tasks
  thread : ∀ t x, c.newThread = some (t, x) → Inserted (threadLinks w.system.kernel).next
    (threadLinks w'.system.kernel).next (w.system.kernel.task t).threads x
    (w.lists.threadsOf t) (w'.lists.threadsOf t)
  threads : ∀ t, (∀ x, c.newThread ≠ some (t, x)) → Kept (threadLinks w.system.kernel).next
    (threadLinks w'.system.kernel).next (w.lists.threadsOf t) (w'.lists.threadsOf t)

section grown
variable {next next' prev : Nat → Nat} {cur cur' node : Nat} {l l' : List Nat} {w w' : World}
  {c : Creation}

theorem isRing_of_linked (h : Linked next prev cur l) : IsRing next prev cur l where
  designated := h.cur_mem
  distinct := h.nodup
  inverse x hx := ⟨h.back x hx, (h.prev_spec hx).1⟩
  visits _ hx := h.visits hx

theorem inserted_of_around (h : l ≠ [] → Around next cur l) (h' : Around next' cur' l')
    (hl : l' = joined l node ∨ l' = advanced l node) : Inserted next next' cur node l l' := by
  have hperm : l'.Perm (node :: l) := by
    rcases hl with rfl | rfl
    · exact perm_joined
    · exact perm_advanced
  rcases List.eq_nil_or_concat' l with rfl | ⟨xs, x, rfl⟩
  · have hl' : l' = [node] := by
      rcases hl with rfl | rfl <;> rfl
    subst hl'
    obtain rfl : node = cur' := by simpa using h'.last
    exact ⟨hperm, by simpa using (List.isChain_cons_cons.mp h'.links).1, by simp⟩
  · have hold := h (by simp)
    obtain rfl : x = cur := by simpa using hold.last
    have hnew : Around next' x (xs ++ [node, x]) := by
      rcases hl with rfl | rfl
      · rw [joined_concat] at h'
        obtain rfl : x = cur' := by simpa using h'.last
        exact h'
      · rw [advanced_concat] at h'
        have hturn : Around next' cur' ([] ++ x :: (xs ++ [node])) := h'
        simpa using hturn.rotate
    obtain ⟨hbefore, horder⟩ := hold.next_insert hnew
    exact ⟨hperm, by rw [if_neg (by simp), hbefore], horder⟩

theorem Shown.around (h : Shown w.system.kernel w.lists) (t : Nat) (hne : w.lists.threadsOf t ≠ []) :
    Around (threadLinks w.system.kernel).next (w.system.kernel.task t).threads
      (w.lists.threadsOf t) := by
  rw [Lists.threadsOf] at hne ⊢
  split at hne
  next ht =>
    rw [if_pos ht]
    exact (h.owns t ht hne).linked.toAround
  next => exact absurd rfl hne

theorem kept_of_around (h : l ≠ [] → Around next cur l) (h' : l' ≠ [] → Around next' cur' l')
    (hl : l' = l) : Kept next next' l l' := by
  subst hl
  exact ⟨rfl, fun x hx => (h (List.ne_nil_of_mem hx)).next_eq (h' (List.ne_nil_of_mem hx)) hx⟩

theorem threadsOf_setThreads (ls : Lists) {t u : Nat} (ht : t ∈ ls.known) :
    (ls.setThreads t l).threadsOf u = if u = t then l else ls.threadsOf u := by
  by_cases hut : u = t
  · subst hut
    rw [Lists.threadsOf, if_pos (show u ∈ (ls.setThreads u l).known from ht), if_pos rfl,
      Lists.setThreads_self]
  · rw [Lists.threadsOf, Lists.setThreads_other _ hut, if_neg hut]
    rfl

theorem threadsOf_newTask (ls : Lists) (tasks : List Nat) {t u : Nat} :
    (Lists.setThreads ⟨t :: ls.known, tasks, ls.threads⟩ t l).threadsOf u =
      if u = t then l else ls.threadsOf u := by
  rw [threadsOf_setThreads _ List.mem_cons_self]
  by_cases hut : u = t
  · rw [if_pos hut, if_pos hut]
  · rw [if_neg hut, if_neg hut]
    simp only [Lists.threadsOf, List.mem_cons, hut, false_or]

theorem create_tasks (hc : create w c = some w') :
    (∀ t, c.newTask = some t → w'.lists.tasks = joined w.lists.tasks t ∨
        w'.lists.tasks = advanced w.lists.tasks t) ∧
      (c.newTask = none → w'.lists.tasks = w.lists.tasks) := by
  cases c with
  | zeroedTask task =>
    obtain rfl := Option.some.inj (Option.ite_none_right_eq_some.mp hc).2
    exact ⟨fun _ ht => absurd ht (by simp [Creation.newTask]), fun _ => rfl⟩
  | createThread task thread stack =>
    obtain rfl := Option.some.inj (Option.ite_none_right_eq_some.mp hc).2
    exact ⟨fun _ ht => absurd ht (by simp [Creation.newTask]), fun _ => rfl⟩
  | addThread task thread =>
    obtain rfl := Option.some.inj (Option.ite_none_right_eq_some.mp hc).2
    exact ⟨fun _ ht => absurd ht (by simp [Creation.newTask]), fun _ => rfl⟩
  | createUsermodeTask new =>
    obtain rfl := Option.some.inj (Option.ite_none_right_eq_some.mp hc).2
    refine ⟨fun t ht => .inl ?_, fun ht => absurd ht (by simp [Creation.newTask])⟩
    obtain rfl := Option.some.inj ht
    rfl
  | addTask task =>
    obtain rfl := Option.some.inj (Option.ite_none_right_eq_some.mp hc).2
    refine ⟨fun t ht => .inr ?_, fun ht => absurd ht (by simp [Creation.newTask])⟩
    obtain rfl := Option.some.inj ht
    rfl

theorem grows_of_update {t thread : Nat} (hn : c.newThread = some (t, thread))
    (hu : ∀ u, w'.lists.threadsOf u = if u = t then l else w.lists.threadsOf u)
    (hl : l = joined (w.lists.threadsOf t) thread ∨ l = advanced (w.lists.threadsOf t) thread) :
    (∀ t x, c.newThread = some (t, x) → w'.lists.threadsOf t = joined (w.lists.threadsOf t) x ∨
        w'.lists.threadsOf t = advanced (w.lists.threadsOf t) x) ∧
      ∀ t, (∀ x, c.newThread ≠ some (t, x)) → w'.lists.threadsOf t = w.lists.threadsOf t := by
  refine ⟨fun u x hx => ?_, fun u hx => ?_⟩
  · obtain ⟨rfl, rfl⟩ := Prod.mk.inj (Option.some.inj (hn.symm.trans hx))
    rw [hu, if_pos rfl]
    exact hl
  · rw [hu, if_neg fun h => hx thread (by rw [h, hn])]

theorem create_threads (hc : create w c = some w') :
    (∀ t x, c.newThread = some (t, x) → w'.lists.threadsOf t = joined (w.lists.threadsOf t) x ∨
        w'.lists.threadsOf t = advanced (w.lists.threadsOf t) x) ∧
      ∀ t, (∀ x, c.newThread ≠ some (t, x)) → w'.lists.threadsOf t = w.lists.threadsOf t := by
  cases c with
  | zeroedTask task =>
    obtain ⟨⟨hf, -⟩, hw⟩ := Option.ite_none_right_eq_some.mp hc
    obtain rfl := Option.some.inj hw
    refine ⟨fun _ _ ht => absurd ht (by simp [Creation.newThread]), fun t _ => ?_⟩
    refine (threadsOf_newTask w.lists w.lists.tasks).trans ?_
    split
    next h => rw [h, Lists.threadsOf, if_neg hf.2]
    next => rfl
  | createThread task thread stack =>
    obtain ⟨⟨ht, -⟩, hw⟩ := Option.ite_none_right_eq_some.mp hc
    obtain rfl := Option.some.inj hw
    refine grows_of_update rfl (fun u => threadsOf_setThreads w.lists ht) (.inl ?_)
    rw [Lists.threadsOf, if_pos ht]
  | addThread task thread =>
    obtain ⟨⟨ht, -⟩, hw⟩ := Option.ite_none_right_eq_some.mp hc
    obtain rfl := Option.some.inj hw
    refine grows_of_update rfl (fun u => threadsOf_setThreads w.lists ht) (.inr ?_)
    rw [Lists.threadsOf, if_pos ht]
  | createUsermodeTask new =>
    obtain ⟨⟨hf, -⟩, hw⟩ := Option.ite_none_right_eq_some.mp hc
    obtain rfl := Option.some.inj hw
    refine grows_of_update rfl (fun u => threadsOf_newTask w.lists _) (.inl ?_)
    rw [Lists.threadsOf, if_neg hf.2, joined_nil]
  | addTask task =>
    obtain rfl := Option.some.inj (Option.ite_none_right_eq_some.mp hc).2
    exact ⟨fun _ _ ht => absurd ht (by simp [Creation.newThread]), fun _ _ => rfl⟩

theorem Shown.grown (h : Shown w.system.kernel w.lists) (hc : create w c = some w') :
    Grown w c w' := by
  have h' := h.creation hc
  obtain ⟨htask, htasks⟩ := create_tasks hc
  obtain ⟨hthread, hthreads⟩ := create_threads hc
  refine ⟨fun t ht => ?_, fun hn => ?_, fun t x hx => ?_, fun t hn => ?_⟩
  · exact inserted_of_around (fun _ => h.tasks.toAround) h'.tasks.toAround (htask t ht)
  · exact kept_of_around (fun _ => h.tasks.toAround) (fun _ => h'.tasks.toAround) (htasks hn)
  · have hl := hthread t x hx
    have hne : w'.lists.threadsOf t ≠ [] := by
      rcases hl with hl | hl <;> rw [hl]
      · exact List.ne_nil_of_mem (perm_joined.mem_iff.mpr List.mem_cons_self)
      · exact List.ne_nil_of_mem (perm_advanced.mem_iff.mpr List.mem_cons_self)
    exact inserted_of_around (h.around t) (h'.around t hne) hl
  · exact kept_of_around (h.around t) (h'.around t) (hthreads t hn)

theorem Shown.allRings (h : Shown w.system.kernel w.lists) : AllRings w := by
  refine ⟨isRing_of_linked h.tasks, fun t ht => ?_⟩
  split
  next hnil => exact h.first t ht hnil
  next hne => exact isRing_of_linked (h.owns t ht hne).linked

theorem rings_stay_rings (b : Boot) (cs : List Creation) (w : World)
    (hrun : run create b.world cs = some w) :
    AllRings w ∧ ∀ c w', create w c = some w' → Grown w c w' := by
  have h : Shown w.system.kernel w.lists :=
    preserved (I := fun w => Shown w.system.kernel w.lists) (fun _ _ _ h hc => h.creation hc)
      b.initKernelTask_shown.1 hrun
  exact ⟨h.allRings, fun c w' hc => h.grown hc⟩

def sampleBoot : Boot where
  before :=
    ⟨⟨fun _ => ⟨0, 0, 0⟩, fun _ => ⟨.running, 0, 0, 0⟩, 0, 0, 0⟩, fun _ => 0, fun _ => 0, 0, 0, 0⟩
  kernelTask := 0x100
  kernelMainThread := 0x200
  idle := ⟨0x300, 0x10000⟩
  sth := ⟨0x400, 0x20000⟩
  user₁ := ⟨⟨0x500, 0x30000⟩, 0x600, 0x7007⟩
  user₀ := ⟨⟨0x700, 0x40000⟩, 0x800, 0x9007⟩
  threads := by decide
  tasks := by decide
  kernelThreads := rfl
  currentTask := rfl

def sampleCreations : List Creation :=
  [.createThread 0x100 0x400 0x20000, .addThread 0x100 0x410, .zeroedTask 0x900,
    .addThread 0x900 0xA00, .addTask 0x900, .createUsermodeTask ⟨⟨0x500, 0x30000⟩, 0x600, 0x7007⟩,
    .createThread 0x900 0xA10 0x50000]

theorem rings_stay_rings_sample :
    ∃ w, run create sampleBoot.world sampleCreations = some w ∧
      w.lists.tasks = [0x100, 0x600, 0x900] ∧
      w.lists.threads 0x100 = [0x200, 0x300, 0x400, 0x410] ∧
      AllRings w ∧ ∀ c w', create w c = some w' → Grown w c w' := by
  have hobs : (run create sampleBoot.world sampleCreations).map
      (fun w => (w.lists.tasks, w.lists.threads 0x100)) =
        some ([0x100, 0x600, 0x900], [0x200, 0x300, 0x400, 0x410]) := by decide
  obtain ⟨w, hrun, hw⟩ := Option.map_eq_some_iff.mp hobs
  obtain ⟨htasks, hthreads⟩ := Prod.mk.inj hw
  exact ⟨w, hrun, htasks, hthreads, rings_stay_rings sampleBoot sampleCreations w hrun⟩

end grown

end Lasagne.Scheduler
