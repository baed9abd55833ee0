import Mathlib
import Lasagne.Pages.Space

namespace Lasagne.Spaces
open Pages RadixTree StateRun

def getAddressSpacePtr : Kernel Word := do
  let e ← ptes 0
  pure (e.entries 0)

-- accesses are translated by the tables as they stand
def reloadPaging : Kernel Unit := pure ()

def newAddressSpace : Kernel Unit := do
  let ptr ← getAddressSpacePtr
  Pages.store ptr 0
  reloadPaging

def setAddressSpace (pdpt : Word) : Kernel Unit := do
  let old ← getAddressSpacePtr
  let entry ← Pages.load old
  when (entry ≠ pdpt) do
    Pages.store old pdpt
    reloadPaging

def virtualMemoryStart : Word := 1024 * 1024

def stack : Word := 2 * 1024 * 1024

def userFlags : Word := mapRw ||| mapExe ||| mapUser

-- in kernel mode, so that a store to the zero page faults as a write to a present page
def memcpy (dest : Word) (src : Nat → Byte) (count : Nat) : Kernel Unit :=
  (List.range count).forM fun i =>
    storeAccess (dest + BitVec.ofNat 64 i) (src i) (pfProtViolation ||| pfWrite)

-- program is usermode_function or usermode_function2; returned is task->memory
def createUsermodeTask (fuel : Nat) (program : Nat → Byte) : Kernel Word := do
  newAddressSpace
  mapRange fuel virtualMemoryStart 4096 userFlags
  memcpy virtualMemoryStart program 1000
  mapRange fuel stack 4096 userFlags
  let e ← ptes 0
  Pages.load (e.entries 0)

-- memory is the field of the user tasks in the order of their creation, current the one whose
-- thread is current_thread, none while that is a thread of the kernel
structure Tasks where
  memory : Nat → Word
  count : Nat
  current : Option Nat

def switchEnvironment (t : Tasks) (oldThread newThread : Option Nat) : Kernel Unit :=
  if oldThread = newThread then pure ()
  else
    let memory := newThread.elim 0 t.memory
    when (memory ≠ 0) (setAddressSpace memory)

inductive Event where
  | create (program : Nat → Byte)
  | preempt (thread : Option Nat)
  | access (accesses : List Access)

def step (fuel : Nat) (t : Tasks) : Event → Kernel (List Byte × Tasks)
  | .create program => do
    let memory ← createUsermodeTask fuel program
    pure ([], { t with memory := Function.update t.memory t.count memory, count := t.count + 1 })
  | .preempt thread => do
    switchEnvironment t t.current thread
    pure ([], { t with current := thread })
  | .access accesses => do
    let values ← perform accesses
    pure (values, t)

def run (fuel : Nat) : List Event → Tasks → Kernel (List (List Byte))
  | [], _ => pure []
  | event :: rest, t => do
    let (values, t) ← step fuel t event
    let answers ← run fuel rest t
    pure (values :: answers)

def initialMemory (program : Nat → Byte) (a : Word) : Byte :=
  if virtualMemoryStart.toNat ≤ a.toNat ∧ a.toNat < virtualMemoryStart.toNat + 1000 then
    program (a.toNat - virtualMemoryStart.toNat)
  else 0

-- what the tasks are for: each has a memory that no other task reads or writes
structure Private where
  memory : Nat → Word → Byte
  count : Nat
  current : Option Nat

def Private.step (s : Private) : Event → List Byte × Private
  | .create program =>
    ([], { s with memory := Function.update s.memory s.count (initialMemory program),
                  count := s.count + 1 })
  | .preempt thread => ([], { s with current := thread })
  | .access accesses =>
    match s.current with
    | none => ([], s)
    | some k => (answers accesses (s.memory k),
        { s with memory := Function.update s.memory k (after accesses (s.memory k)) })

def Private.run : List Event → Private → List (List Byte)
  | [], _ => []
  | event :: rest, s => (s.step event).1 :: Private.run rest (s.step event).2

def userPages : List Word := [stack, virtualMemoryStart]

-- tasks are created by the kernel, threads of created tasks are scheduled, and a user task accesses
-- its own pages
def Private.Permits (s : Private) : Event → Prop
  | .create _ => s.current = none
  | .preempt thread => ∀ k, thread = some k → k < s.count
  | .access accesses => s.current ≠ none ∧ ∀ access ∈ accesses, access.On userPages

def Private.Proper : List Event → Private → Prop
  | [], _ => True
  | event :: rest, s => s.Permits event ∧ Private.Proper rest (s.step event).2

-- four tables and a frame for each of the two pages
def framesPerTask : Nat := 6

def Event.frames : Event → Nat
  | .create _ => framesPerTask
  | _ => 0

section spaces
variable {m : Machine} {e e' : Word}

@[simp] theorem loaded_loaded : (m.loaded e).loaded e' = m.loaded e' := by
  simp only [Machine.loaded, Machine.withMem, store_store]

theorem loaded_self (h : m.mem m.cr3 userIndex = e) : m.loaded e = m := by
  rw [Machine.loaded, Machine.withMem, ← h, RadixTree.store, Function.update_eq_self,
    Function.update_eq_self]

variable (hself : child (m.mem m.cr3 pgSelfIndex) = some m.cr3)
include hself

theorem getAddressSpacePtr_eq : getAddressSpacePtr m = .ok (entryOf 0 0) m := bind_ok (ptes_eq hself)

theorem load_root : Pages.load (entryOf 0 0) m = .ok (m.mem m.cr3 userIndex) m :=
  load_entryOf (k := 0) hself rfl

theorem store_root (x : Word) : Pages.store (entryOf 0 0) x m = .ok () (m.loaded x) :=
  store_entryOf (k := 0) hself rfl

theorem newAddressSpace_eq : newAddressSpace m = .ok () (m.loaded 0) := by
  rw [newAddressSpace, bind_ok (getAddressSpacePtr_eq hself), bind_ok (store_root hself 0)]
  rfl

theorem setAddressSpace_eq (pdpt : Word) : setAddressSpace pdpt m = .ok () (m.loaded pdpt) := by
  rw [setAddressSpace, bind_ok (getAddressSpacePtr_eq hself), bind_ok (load_root hself), when]
  by_cases he : m.mem m.cr3 userIndex = pdpt
  · rw [if_neg (not_not.mpr he), loaded_self he]
    rfl
  · rw [if_pos he, bind_ok (store_root hself pdpt)]
    rfl

theorem switchEnvironment_eq {t : Tasks} {k : Nat} (hnonzero : t.memory k ≠ 0)
    (hcurrent : t.current = some k → m.loaded (t.memory k) = m) :
    switchEnvironment t t.current (some k) m = .ok () (m.loaded (t.memory k)) := by
  rw [switchEnvironment]
  by_cases hk : t.current = some k
  · rw [if_pos hk, hcurrent hk]
    rfl
  · rw [if_neg hk, Option.elim_some, when, if_pos hnonzero, setAddressSpace_eq hself]

end spaces

section memcpy
variable {f : Nat → Word} {g : Nat → Byte} {c : Word} {m m' : Machine}

theorem forM_of_perform (is : List Nat) {values : List Byte}
    (h : perform (is.map fun i => .store (f i) (g i) c) m = .ok values m') :
    (is.forM fun i => storeAccess (f i) (g i) c) m = .ok () m' := by
  induction is generalizing m with
  | nil =>
    obtain ⟨-, rfl⟩ := EStateM.Result.ok.inj h
    rfl
  | cons i is ih =>
    rw [List.map_cons, perform] at h
    change (storeAccess (f i) (g i) c >>= fun _ => is.forM fun i => storeAccess (f i) (g i) c) m = _
    cases hi : storeAccess (f i) (g i) c m with
    | ok u m1 =>
      rw [bind_ok hi] at h ⊢
      exact ih h
    | error stop m1 =>
      rw [bind_error hi] at h
      exact absurd h (by simp)

theorem after_append (l l' : List Access) (memory : Word → Byte) :
    after (l ++ l') memory = after l' (after l memory) := by
  induction l generalizing memory with
  | nil => rfl
  | cons access l ih => cases access <;> exact ih _

theorem after_copy (dest : Word) (src : Nat → Byte) (n : Nat) (hn : dest.toNat + n < 2 ^ 64)
    (a : Word) :
    after ((List.range n).map fun i => .store (dest + BitVec.ofNat 64 i) (src i) c) (fun _ => 0) a =
      if dest.toNat ≤ a.toNat ∧ a.toNat < dest.toNat + n then src (a.toNat - dest.toNat) else 0 := by
  induction n with
  | zero =>
    rw [if_neg (by omega)]
    rfl
  | succ n ih =>
    have hlast : (dest + BitVec.ofNat 64 n).toNat = dest.toNat + n := by
      rw [BitVec.toNat_add, BitVec.toNat_ofNat]
      omega
    rw [List.range_succ, List.map_append, after_append, List.map_singleton, after, after]
    by_cases ha : a = dest + BitVec.ofNat 64 n
    · rw [ha, Function.update_self, if_pos (by omega), hlast, Nat.add_sub_cancel_left]
    · have hne : a.toNat ≠ dest.toNat + n := fun h => ha (BitVec.eq_of_toNat_eq (h.trans hlast.symm))
      rw [Function.update_of_ne ha, ih (by omega)]
      by_cases hin : dest.toNat ≤ a.toNat ∧ a.toNat < dest.toNat + n
      · rw [if_pos hin, if_pos (by omega)]
      · rw [if_neg hin, if_neg (by omega)]

end memcpy

theorem userPages_user : ∀ v ∈ userPages, UserPage v := by
  simp only [userPages, List.mem_cons, List.not_mem_nil, or_false, forall_eq_or_imp, forall_eq]
  exact ⟨⟨by decide, by decide⟩, ⟨by decide, by decide⟩⟩

theorem mem_userPages {v : Word} : v ∈ userPages ↔ v = stack ∨ v = virtualMemoryStart := by
  rw [userPages, List.mem_cons, List.mem_singleton]

theorem initialMemory_eq (program : Nat → Byte) {c : Word} :
    after ((List.range 1000).map fun i => .store (virtualMemoryStart + BitVec.ofNat 64 i) (program i) c)
      (fun _ => 0) = initialMemory program :=
  funext fun a => after_copy virtualMemoryStart program 1000 (by decide) a

theorem initialMemory_stack (program : Nat → Byte) {a : Word} (ha : a >>> 12 = stack >>> 12) :
    initialMemory program a = 0 := by
  have hpage : a.toNat / 4096 = stack.toNat / 4096 := page_eq_iff.mp ha
  have hstack : stack.toNat = 0x200000 := rfl
  have hstart : virtualMemoryStart.toNat = 0x100000 := rfl
  rw [initialMemory, if_neg (by omega)]

theorem copy_on (program : Nat → Byte) (access : Access)
    (h : access ∈ (List.range 1000).map fun i =>
      .store (virtualMemoryStart + BitVec.ofNat 64 i) (program i) (pfProtViolation ||| pfWrite)) :
    access.On [virtualMemoryStart] := by
  obtain ⟨i, hi, rfl⟩ := List.mem_map.mp h
  have hstart : virtualMemoryStart.toNat = 0x100000 := rfl
  have hlt : i < 1000 := List.mem_range.mp hi
  refine ⟨⟨virtualMemoryStart, List.mem_singleton_self _, page_eq_iff.mpr ?_⟩, by decide, by decide⟩
  rw [BitVec.toNat_add, BitVec.toNat_ofNat]
  omega

theorem depth_stack {m₀ m : Machine} {memory : Word → Byte} {own : Nat → Prop}
    (h : Space m₀ m userFlags [virtualMemoryStart] memory own) : 2 ≤ depth m stack := by
  obtain ⟨e, he, -⟩ := h.leaves virtualMemoryStart (List.mem_singleton_self _)
  have hcode : 2 ≤ depth m virtualMemoryStart := by
    rw [(leaf_cases he).1]
    decide
  have hpath : (indices stack).take 2 = (indices virtualMemoryStart).take 2 := by decide
  rw [← tableAt_isSome_iff (by decide), hpath]
  exact (tableAt_isSome_iff (by decide)).mpr hcode

theorem loaded_mem {m₀ m : Machine} {f : Word} (e : Word) (hcr : m.cr3 = m₀.cr3)
    (hf : ¬ IsKernel m₀ f) : (m.loaded e).mem f = m.mem f :=
  store_of_frame_ne fun h => hf ⟨[], away_nil, Nat.zero_le _, by rw [h, hcr]; rfl⟩

section create
variable {m₀ m : Machine} {n : Nat} (hs : ClearSupply (m₀.loaded 0) n) (hm : Later m₀ n m)
include hs hm

theorem later_loaded (e : Word) : Later m₀ n (m.loaded e) := by
  refine ⟨hm.cr3, hm.zeroPage, hm.frames, hm.calls, fun i => ?_, fun t ht htn i => ?_⟩
  · exact (congrFun (loaded_mem e hm.cr3 hs.zeroNoTable) i).trans (hm.zeroClear i)
  · rw [loaded_mem e hm.cr3 (hs.user (hm.calls.1.trans ht) htn), hm.framesClear t ht htn]

theorem createUsermodeTask_space (hself : child (m.mem m.cr3 pgSelfIndex) = some m.cr3)
    (h : Space m₀ (m.loaded 0) userFlags [] (fun _ => 0) fun _ => False)
    (hcount : m.calls + framesPerTask ≤ m₀.calls + n) (fuel : Nat) (program : Nat → Byte) :
    ∃ m' e own left, createUsermodeTask (fuel + 2) program m = .ok e m' ∧
      Space m₀ m' userFlags userPages (initialMemory program) own ∧ Later m₀ n m' ∧
      Writes m₀ own (m.loaded 0) m' ∧ (∀ t, own t → m.calls ≤ t) ∧ m.calls ≤ m'.calls ∧
      m'.calls + left ≤ m.calls + framesPerTask ∧ idle m' userPages ≤ left ∧
      m'.mem m'.cr3 userIndex = e ∧ e ≠ 0 := by
  have hcode : UserPage virtualMemoryStart := userPages_user _ (mem_userPages.mpr (.inr rfl))
  have hstack : UserPage stack := userPages_user _ (mem_userPages.mpr (.inl rfl))
  have hone : ∀ v ∈ [virtualMemoryStart], UserPage v := fun v hv => List.mem_singleton.mp hv ▸ hcode
  have hcount6 : m.calls + 6 ≤ m₀.calls + n := hcount
  have hstart : (m.loaded 0).calls = m.calls := rfl
  obtain ⟨m2, hrun2, hspace2, hm2, hwrites2, hcalls2, hidle2⟩ :=
    h.map hs (later_loaded hs hm 0) (by simp) fuel hcode (by decide) (by omega) (by decide) (by simp)
      fun _ _ => rfl
  have hidle1 : idle m2 [virtualMemoryStart] ≤ 1 := hidle2
  obtain ⟨m3, own3, left3, hrun3, hspace3, hserves3, hidle3⟩ :=
    hspace2.perform hs hm2 hone (by decide) hidle1 (by omega) (copy_on program)
  have hcopy := forM_of_perform _ hrun3
  rw [initialMemory_eq] at hspace3
  have hcalls3 := hserves3.calls
  have hdepth := depth_stack hspace3
  obtain ⟨m4, hrun4, hspace4, hm4, hwrites4, hcalls4, hidle4⟩ :=
    hspace3.map hs hserves3.later hone fuel hstack (by decide) (by omega) (by decide)
      (fun w hw => by rw [List.mem_singleton.mp hw]; decide) fun a ha => initialMemory_stack program ha
  have hidle : idle m4 userPages ≤ idle m3 [virtualMemoryStart] + 1 := hidle4
  obtain ⟨e, he, -⟩ := hspace4.leaves stack List.mem_cons_self
  have hself4 : child (m4.mem m4.cr3 pgSelfIndex) = some m4.cr3 := hspace4.wf.tree.self
  have hlast : createUsermodeTask (fuel + 2) program m = .ok (m4.mem m4.cr3 userIndex) m4 := by
    rw [createUsermodeTask, bind_ok (newAddressSpace_eq hself), bind_ok hrun2, memcpy, bind_ok hcopy,
      bind_ok hrun4, bind_ok (ptes_eq hself4)]
    exact load_root hself4
  refine ⟨m4, _, taking own3 m3 m4, left3 + 1, hlast, hspace4, hm4, ?_, fun t ht => ?_, by omega,
    ?_, by omega, rfl, fun h0 => ?_⟩
  · exact (hwrites2.trans hserves3.writes hserves3.kept).trans hwrites4 fun t ht => .inl ht
  · rcases ht with ht | ht
    · rcases hserves3.fresh t ht with ht | ht
      · exact (ht.resolve_left id).1
      · omega
    · omega
  · rw [framesPerTask]
    omega
  · have hd := (leaf_cases he).1
    have hp := (entryPresent_iff (m := m4) (a := stack) (k := 0)).mpr (by rw [hd]; decide)
    change present (m4.mem m4.cr3 userIndex) = true at hp
    rw [h0] at hp
    exact absurd hp (by decide)

end create

theorem Private.step_access {s : Private} {k : Nat} (hk : s.current = some k) (accesses : List Access) :
    s.step (.access accesses) = (answers accesses (s.memory k),
      { s with memory := Function.update s.memory k (after accesses (s.memory k)) }) := by
  obtain ⟨memory, count, current⟩ := s
  obtain rfl := hk
  rfl

-- every task finds the memory it should have behind its entry; left k counts the frames that task k
-- may still ask for
structure Isolated (m₀ : Machine) (n : Nat) (m : Machine) (t : Tasks) (s : Private)
    (own : Nat → Nat → Prop) (left : Nat → Nat) : Prop where
  later : Later m₀ n m
  count : s.count = t.count
  current : s.current = t.current
  empty : Space m₀ (m.loaded 0) userFlags [] (fun _ => 0) fun _ => False
  spaces : ∀ k < t.count, Space m₀ (m.loaded (t.memory k)) userFlags userPages (s.memory k) (own k)
  nonzero : ∀ k < t.count, t.memory k ≠ 0
  waiting : ∀ k < t.count, idle (m.loaded (t.memory k)) userPages ≤ left k
  apart : ∀ j < t.count, ∀ k < t.count, j ≠ k → ∀ i, own j i → ¬ own k i
  inUse : ∀ k, t.current = some k → k < t.count ∧ m.loaded (t.memory k) = m

def claimed (m : Machine) (t : Tasks) (left : Nat → Nat) : Nat :=
  m.calls + ∑ k ∈ Finset.range t.count, left k

section isolated
variable {m₀ m m' : Machine} {n : Nat} {t : Tasks} {s : Private} {own : Nat → Nat → Prop}
  {left : Nat → Nat} {own' : Nat → Prop} {e : Word} (hs : ClearSupply (m₀.loaded 0) n)
  (h : Isolated m₀ n m t s own left)
include h

theorem Isolated.self : child (m.mem m.cr3 pgSelfIndex) = some m.cr3 := by
  have hself := h.empty.wf.tree.self
  rwa [Machine.loaded, Machine.withMem_mem, Machine.withMem_cr3,
    store_of_ne fun hc => user_ne_self hc.2.symm] at hself

include hs

theorem Isolated.kept {flags : Word} {pages : List Word} {memory : Word → Byte} {own₁ : Nat → Prop}
    {e₁ : Word} (h₁ : Space m₀ (m.loaded e₁) flags pages memory own₁) (hpages : ∀ w ∈ pages, UserPage w)
    (hm' : Later m₀ n m') (h' : Owns m₀ m' own') (hwrites : Writes m₀ own' (m.loaded e) m')
    (hcalls : m.calls ≤ m'.calls) (hapart : ∀ i, own₁ i → ¬ own' i) :
    Space m₀ (m'.loaded e₁) flags pages memory own₁ ∧
      idle (m'.loaded e₁) pages = idle (m.loaded e₁) pages := by
  have h₂ : Space m₀ ((m.loaded e).loaded e₁) flags pages memory own₁ := by rwa [loaded_loaded]
  have hswap := h₂.swap hs (later_loaded hs h.later e) hm' hpages h' hwrites hapart hcalls
  rwa [loaded_loaded] at hswap

theorem Isolated.become {t' : Tasks} {s' : Private} {k left₁ : Nat}
    (hothers : ∀ j < t'.count, j ≠ k →
      j < t.count ∧ t'.memory j = t.memory j ∧ s'.memory j = s.memory j)
    (hcount : s'.count = t'.count) (hcurrent : s'.current = t'.current)
    (hspace : Space m₀ m' userFlags userPages (s'.memory k) own') (hm' : Later m₀ n m')
    (hentry : m'.mem m'.cr3 userIndex = t'.memory k) (hnonzero : t'.memory k ≠ 0)
    (hwrites : Writes m₀ own' (m.loaded e) m') (hcalls : m.calls ≤ m'.calls)
    (hapart : ∀ j < t.count, j ≠ k → ∀ i, own j i → ¬ own' i) (hidle : idle m' userPages ≤ left₁)
    (hinUse : ∀ j, t'.current = some j → j = k ∧ k < t'.count) :
    Isolated m₀ n m' t' s' (Function.update own k own') (Function.update left k left₁) := by
  have hself : m'.loaded (t'.memory k) = m' := loaded_self hentry
  have hkept {j : Nat} (hj : j < t'.count) (hne : j ≠ k) := by
    obtain ⟨hlt, ht, hs'⟩ := hothers j hj hne
    exact ht ▸ hs' ▸ h.kept hs (h.spaces j hlt) userPages_user hm' hspace.toOwns hwrites hcalls
      (hapart j hlt hne)
  exact {
    later := hm'
    count := hcount
    current := hcurrent
    empty := (h.kept hs h.empty (by simp) hm' hspace.toOwns hwrites hcalls fun _ hf => hf.elim).1
    spaces := fun j hj => by
      by_cases hne : j = k
      · rw [hne, hself, Function.update_self]
        exact hspace
      · rw [Function.update_of_ne hne]
        exact (hkept hj hne).1
    nonzero := fun j hj => by
      by_cases hne : j = k
      · rwa [hne]
      · rw [(hothers j hj hne).2.1]
        exact h.nonzero j (hothers j hj hne).1
    waiting := fun j hj => by
      by_cases hne : j = k
      · rwa [hne, hself, Function.update_self]
      · rw [Function.update_of_ne hne, (hkept hj hne).2, (hothers j hj hne).2.1]
        exact h.waiting j (hothers j hj hne).1
    apart := fun i hi j hj hij x hx hx' => by
      by_cases hik : i = k
      · subst hik
        rw [Function.update_self] at hx
        rw [Function.update_of_ne hij.symm] at hx'
        exact hapart j (hothers j hj hij.symm).1 hij.symm x hx' hx
      · rw [Function.update_of_ne hik] at hx
        by_cases hjk : j = k
        · subst hjk
          rw [Function.update_self] at hx'
          exact hapart i (hothers i hi hij).1 hij x hx hx'
        · rw [Function.update_of_ne hjk] at hx'
          exact h.apart i (hothers i hi hik).1 j (hothers j hj hjk).1 hij x hx hx'
    inUse := fun j hj => by
      obtain ⟨rfl, hlt⟩ := hinUse j hj
      exact ⟨hlt, hself⟩ }

theorem Isolated.preempt {thread : Option Nat} (hthread : ∀ k, thread = some k → k < t.count) :
    ∃ m', switchEnvironment t t.current thread m = .ok () m' ∧
      Isolated m₀ n m' { t with current := thread } { s with current := thread } own left ∧
      m'.calls = m.calls := by
  cases thread with
  | none =>
    have hrun : switchEnvironment t t.current none m = .ok () m := by
      rw [switchEnvironment, when]
      split <;> rfl
    exact ⟨m, hrun, { h with
      current := rfl
      inUse := fun k hk => absurd hk (by simp) }, rfl⟩
  | some k =>
    have hk : k < t.count := hthread k rfl
    have hloaded (e : Word) : (m.loaded (t.memory k)).loaded e = m.loaded e := loaded_loaded
    refine ⟨_, switchEnvironment_eq h.self (h.nonzero k hk) fun hc => (h.inUse k hc).2, ?_, rfl⟩
    exact {
      later := later_loaded hs h.later _
      count := h.count
      current := rfl
      empty := (hloaded 0).symm ▸ h.empty
      spaces := fun j hj => (hloaded _).symm ▸ h.spaces j hj
      nonzero := h.nonzero
      waiting := fun j hj => (hloaded _).symm ▸ h.waiting j hj
      apart := h.apart
      inUse := fun j hj => by
        obtain rfl := Option.some.inj hj
        exact ⟨hk, hloaded _⟩ }

theorem Isolated.create (hcurrent : t.current = none)
    (hbudget : claimed m t left + framesPerTask ≤ m₀.calls + n) (fuel : Nat) (program : Nat → Byte) :
    ∃ m' e own₁ left₁, createUsermodeTask (fuel + 2) program m = .ok e m' ∧
      Isolated m₀ n m' { t with memory := Function.update t.memory t.count e, count := t.count + 1 }
        { s with
          memory := Function.update s.memory s.count (initialMemory program)
          count := s.count + 1 }
        (Function.update own t.count own₁) (Function.update left t.count left₁) ∧
      m'.calls + left₁ ≤ m.calls + framesPerTask := by
  have hcount : m.calls + framesPerTask ≤ m₀.calls + n := by
    rw [claimed] at hbudget
    omega
  obtain ⟨m', e, own₁, left₁, hrun, hspace, hm', hwrites, hfresh, hcalls, hleft, hidle, hentry,
      hnonzero⟩ :=
    createUsermodeTask_space hs h.later h.self h.empty hcount fuel program
  refine ⟨m', e, own₁, left₁, hrun, ?_, hleft⟩
  refine h.become hs (fun j hj hne => ?_) (congrArg (· + 1) h.count) h.current ?_ hm' ?_ ?_ hwrites
    hcalls (fun j hj _ i hi hi' => ?_) hidle fun j hj => absurd (hcurrent.symm.trans hj) (by simp)
  · have hj : j < t.count + 1 := hj
    exact ⟨by omega, Function.update_of_ne hne _ _, Function.update_of_ne (h.count ▸ hne) _ _⟩
  · simpa only [h.count, Function.update_self] using hspace
  · simpa only [Function.update_self] using hentry
  · simpa only [Function.update_self] using hnonzero
  · have hlt : i < m.calls := ((h.spaces j hj).taken i hi).2
    exact absurd (hfresh i hi') (Nat.not_le.mpr hlt)

theorem Isolated.access {k : Nat} (hk : t.current = some k)
    (hbudget : m.calls + left k ≤ m₀.calls + n) {accesses : List Access}
    (hon : ∀ access ∈ accesses, access.On userPages) :
    ∃ m' own₁ left₁, perform accesses m = .ok (answers accesses (s.memory k)) m' ∧
      Isolated m₀ n m' t
        { s with memory := Function.update s.memory k (after accesses (s.memory k)) }
        (Function.update own k own₁) (Function.update left k left₁) ∧
      m'.calls + left₁ = m.calls + left k := by
  obtain ⟨hlt, hself⟩ := h.inUse k hk
  have hspace := h.spaces k hlt
  have hidle := h.waiting k hlt
  rw [hself] at hspace hidle
  obtain ⟨m', own₁, left₁, hrun, hspace', hserves, hidle'⟩ :=
    hspace.perform hs h.later userPages_user (by decide) hidle hbudget hon
  refine ⟨m', own₁, left₁, hrun, ?_, hserves.calls.1⟩
  have hentry : m'.mem m'.cr3 userIndex = t.memory k := by
    rw [hserves.later.cr3, hserves.root, ← hself, Machine.loaded, Machine.withMem_mem, ← h.later.cr3,
      store_same]
  refine h.become hs (fun j hj hne => ⟨hj, rfl, Function.update_of_ne hne _ _⟩) h.count h.current ?_
    hserves.later hentry (h.nonzero k hlt) (hself.symm ▸ hserves.writes) hserves.calls.2
    (fun j hj hne i hi hi' => ?_) hidle' fun j hj => ⟨Option.some.inj (hj.symm.trans hk), hlt⟩
  · simpa only [Function.update_self] using hspace'
  · rcases hserves.fresh i hi' with ho | hle
    · exact h.apart j hj k hlt hne i hi ho
    · exact absurd hle (Nat.not_le.mpr ((h.spaces j hj).taken i hi).2)

theorem Isolated.step {event : Event} (hp : s.Permits event) (fuel : Nat)
    (hbudget : claimed m t left + event.frames ≤ m₀.calls + n) :
    ∃ m' t' own' left', step (fuel + 2) t event m = .ok ((s.step event).1, t') m' ∧
      Isolated m₀ n m' t' (s.step event).2 own' left' ∧
      claimed m' t' left' ≤ claimed m t left + event.frames := by
  cases event with
  | create program =>
    obtain ⟨m', e, own₁, left₁, hrun, h', hleft⟩ :=
      h.create hs (h.current ▸ hp) hbudget fuel program
    refine ⟨m', _, _, _, ?_, h', ?_⟩
    · rw [Spaces.step, bind_ok hrun]
      rfl
    · have hsum : ∑ j ∈ Finset.range t.count, Function.update left t.count left₁ j =
          ∑ j ∈ Finset.range t.count, left j :=
        Finset.sum_congr rfl fun j hj => Function.update_of_ne (Finset.mem_range.mp hj).ne _ _
      rw [claimed, claimed, Finset.sum_range_succ, hsum, Function.update_self, Event.frames]
      omega
  | preempt thread =>
    obtain ⟨m', hrun, h', hcalls⟩ := h.preempt hs fun k hk => h.count ▸ hp k hk
    refine ⟨m', _, _, _, ?_, h', ?_⟩
    · rw [Spaces.step, bind_ok hrun]
      rfl
    · rw [claimed, claimed, hcalls]
      exact Nat.le_add_right _ _
  | access accesses =>
    obtain ⟨hcurrent, hon⟩ := hp
    obtain ⟨k, hk⟩ := Option.ne_none_iff_exists'.mp hcurrent
    have htk : t.current = some k := h.current ▸ hk
    have hlt : k < t.count := (h.inUse k htk).1
    have hsum : ∑ j ∈ (Finset.range t.count).erase k, left j + left k =
        ∑ j ∈ Finset.range t.count, left j :=
      Finset.sum_erase_add _ _ (Finset.mem_range.mpr hlt)
    rw [claimed] at hbudget
    obtain ⟨m', own₁, left₁, hrun, h', hcalls⟩ := h.access hs htk (by omega) hon
    refine ⟨m', t, Function.update own k own₁, Function.update left k left₁, ?_, ?_, ?_⟩
    · rw [Spaces.step, bind_ok hrun, Private.step_access hk]
      rfl
    · rw [Private.step_access hk]
      exact h'
    · have hsum' : ∑ j ∈ (Finset.range t.count).erase k, Function.update left k left₁ j =
          ∑ j ∈ (Finset.range t.count).erase k, left j :=
        Finset.sum_congr rfl fun j hj => Function.update_of_ne (Finset.ne_of_mem_erase hj) _ _
      have htotal : ∑ j ∈ (Finset.range t.count).erase k, Function.update left k left₁ j +
          Function.update left k left₁ k =
          ∑ j ∈ Finset.range t.count, Function.update left k left₁ j :=
        Finset.sum_erase_add _ _ (Finset.mem_range.mpr hlt)
      rw [Function.update_self] at htotal
      rw [claimed, claimed]
      omega

theorem Isolated.run {events : List Event} (hp : Private.Proper events s) (fuel : Nat)
    (hbudget : claimed m t left + (events.map Event.frames).sum ≤ m₀.calls + n) :
    ∃ m', run (fuel + 2) events t m = .ok (Private.run events s) m' := by
  induction events generalizing m t s own left with
  | nil => exact ⟨m, rfl⟩
  | cons event rest ih =>
    rw [List.map_cons, List.sum_cons] at hbudget
    obtain ⟨m1, t1, own1, left1, hstep, h1, hclaimed⟩ := h.step hs hp.1 fuel (by omega)
    obtain ⟨m', hrun⟩ := ih h1 hp.2 (by omega)
    refine ⟨m', ?_⟩
    rw [Spaces.run, bind_ok hstep]
    exact bind_ok hrun

end isolated

section initial
variable {m₀ : Machine} {n : Nat} (hw : WellFormed (m₀.loaded 0)) (hs : ClearSupply (m₀.loaded 0) n)
include hw hs

end initial

end Lasagne.Spaces
