import Mathlib
import Lasagne.Switch.Resume

namespace Lasagne.Switch
open ByteMemory X86 PartialRun

section parked
variable {p : Placement code} {m m' : Memory} {x : Nat} {th : Thread}

structure Parked (p : Placement code) (m : Memory) (x : Nat) (th : Thread) : Prop where
  slot : (loadWord m (x + rspField)).toNat = savedSp p th
  low : th.stack + 8 * (frame p th).length ≤ th.base
  high : th.base ≤ th.stackTop
  words : Holds m (savedSp p th) (frame p th)
  outside : outside p th.saved.target

theorem Parked.congr (h : Parked p m x th)
    (hslot : ∀ a, x + rspField ≤ a → a < x + rspField + 8 → m' a = m a)
    (hstack : ∀ a, th.stack ≤ a → a < th.stackTop → m' a = m a) : Parked p m' x th := by
  have hlow := h.low
  have hhigh := h.high
  refine ⟨?_, hlow, hhigh, ?_, h.outside⟩
  · rw [loadWord_congr hslot, h.slot]
  · refine h.words.congr fun a ha ha' => hstack a ?_ ?_
    · rw [savedSp] at ha
      omega
    · rw [savedSp] at ha'
      omega

end parked

section create
variable {p : Placement code} {m : Memory} {self a : Nat}

theorem pushWords_spec (self : Nat) (vs : List (BitVec 64)) {m : Memory} {a : Nat}
    (hslot : (loadWord m (self + rspField)).toNat = a) (ha : 8 * vs.length ≤ a)
    (hself : self + rspField + 8 ≤ a - 8 * vs.length ∨ a ≤ self + rspField) :
    (loadWord (vs.foldl (pushWord self) m) (self + rspField)).toNat = a - 8 * vs.length ∧
      Holds (vs.foldl (pushWord self) m) (a - 8 * vs.length) vs.reverse ∧
      ∀ x, x < self + rspField ∨ self + rspField + 8 ≤ x → x < a - 8 * vs.length ∨ a ≤ x →
        vs.foldl (pushWord self) m x = m x := by
  induction vs generalizing m a with
  | nil => exact ⟨hslot, trivial, fun _ _ _ => rfl⟩
  | cons v vs ih =>
    rw [List.length_cons] at ha hself ⊢
    have hsp : (loadWord m (self + rspField) - 8).toNat = a - 8 := by
      bv_omega
    have hm : pushWord self m v = storeWord (storeWord m (self + rspField)
        (loadWord m (self + rspField) - 8)) (a - 8) v := by
      rw [pushWord, hsp]
    have hnew : (loadWord (pushWord self m v) (self + rspField)).toNat = a - 8 := by
      rw [hm, loadWord_storeWord_apart _ _ (by omega), loadWord_storeWord, hsp]
    obtain ⟨hs, hv, hout⟩ := ih hnew (by omega) (by omega)
    rw [show a - 8 * (vs.length + 1) = a - 8 - 8 * vs.length by omega, List.foldl_cons]
    refine ⟨hs, ?_, fun x hx hx' => ?_⟩
    · rw [List.reverse_cons, holds_append]
      refine ⟨hv, ?_, trivial⟩
      rw [List.length_reverse, show a - 8 - 8 * vs.length + 8 * vs.length = a - 8 by omega,
        loadWord_congr fun x hx hx' => hout x (by omega) (by omega), hm, loadWord_storeWord]
    · rw [hout x hx (by omega), hm, storeWord_outside _ _ (by omega), storeWord_outside _ _ hx]

theorem createThread_eq (m : Memory) (self stack : Nat) (main cs ss usermodeStack : BitVec 64) :
    createThread p m self stack main cs ss usermodeStack =
      (frame p (Thread.new stack main cs ss usermodeStack)).reverse.foldl (pushWord self)
        (storeWord (storeWord m (self + rspField)
          (BitVec.ofNat 64 (stack + defaultStackSize))) (self + stackTopField)
          (BitVec.ofNat 64 (stack + defaultStackSize))) := by
  simp only [frame, createThread, Thread.new]
  by_cases hu : usermodeStack = 0
  · simp only [if_pos hu]
    rfl
  · simp only [if_neg hu]
    rfl

theorem createThread_spec (m : Memory) {self stack : Nat} {main : BitVec 64}
    (cs ss usermodeStack : BitVec 64)
    (hstack : stack + defaultStackSize < 2 ^ 64)
    (hself : Apart self threadSize stack defaultStackSize) (hmain : outside p main) :
    Parked p (createThread p m self stack main cs ss usermodeStack) self
        (Thread.new stack main cs ss usermodeStack) ∧
      ∀ x, x < self ∨ self + threadSize ≤ x → x < stack ∨ stack + defaultStackSize ≤ x →
        createThread p m self stack main cs ss usermodeStack x = m x := by
  have htop : (BitVec.ofNat 64 (stack + defaultStackSize)).toNat = stack + defaultStackSize := by
    rw [BitVec.toNat_ofNat, Nat.mod_eq_of_lt hstack]
  rw [createThread_eq]
  have hlen : (frame p (Thread.new stack main cs ss usermodeStack)).length = 23 := by
    simp [frame, Thread.new]
  have hbase : (Thread.new stack main cs ss usermodeStack).base = stack + defaultStackSize := rfl
  have hbottom : (Thread.new stack main cs ss usermodeStack).stack = stack := rfl
  have hend : (Thread.new stack main cs ss usermodeStack).stackTop = stack + defaultStackSize := rfl
  have htarget : (Thread.new stack main cs ss usermodeStack).saved.target = main := rfl
  generalize Thread.new stack main cs ss usermodeStack = th at *
  simp only [Apart, threadSize, defaultStackSize] at hself hbase hend htop ⊢
  obtain ⟨hslot, hwords, hout⟩ := pushWords_spec self (frame p th).reverse
    (m := storeWord (storeWord m (self + rspField) (BitVec.ofNat 64 (stack + 8192)))
      (self + stackTopField) (BitVec.ofNat 64 (stack + 8192))) (a := stack + 8192)
    (by
      simp only [rspField, stackTopField]
      rw [loadWord_storeWord_apart _ _ (by omega), loadWord_storeWord, htop])
    (by rw [List.length_reverse, hlen]; omega)
    (by rw [List.length_reverse, hlen, rspField]; omega)
  rw [List.reverse_reverse] at hwords
  rw [List.length_reverse, hlen] at hslot hwords hout
  refine ⟨⟨?_, ?_, ?_, ?_, htarget ▸ hmain⟩, fun x hx hx' => ?_⟩
  · rw [savedSp, hlen, hbase]
    exact hslot
  · omega
  · omega
  · rw [savedSp, hlen, hbase]
    exact hwords
  · simp only [rspField, stackTopField] at hout ⊢
    rw [hout x (by omega) (by omega), storeWord_outside _ _ (by omega),
      storeWord_outside _ _ (by omega)]

theorem createThread_top (m : Memory) {self stack : Nat} (main cs ss usermodeStack : BitVec 64)
    (hstack : stack + defaultStackSize < 2 ^ 64)
    (hself : Apart self threadSize stack defaultStackSize) :
    loadWord (createThread p m self stack main cs ss usermodeStack) (self + stackTopField) =
      BitVec.ofNat 64 (stack + defaultStackSize) := by
  have hlen : (frame p (Thread.new stack main cs ss usermodeStack)).length = 23 := by
    simp [frame, Thread.new]
  have htop : (BitVec.ofNat 64 (stack + defaultStackSize)).toNat = stack + defaultStackSize :=
    (BitVec.toNat_ofNat _ _).trans (Nat.mod_eq_of_lt hstack)
  simp only [Apart, threadSize, defaultStackSize] at hself htop ⊢
  rw [createThread_eq]
  simp only [defaultStackSize]
  generalize hm : storeWord (storeWord m (self + rspField)
    (BitVec.ofNat 64 (stack + 8192))) (self + stackTopField) (BitVec.ofNat 64 (stack + 8192)) = m₁
  have hslot : (loadWord m₁ (self + rspField)).toNat = stack + 8192 := by
    rw [← hm, rspField, stackTopField, loadWord_storeWord_apart _ _ (by omega), loadWord_storeWord,
      htop]
  obtain ⟨-, -, hpush⟩ := pushWords_spec self
    (frame p (Thread.new stack main cs ss usermodeStack)).reverse hslot
    (by rw [List.length_reverse, hlen]; omega)
    (by rw [List.length_reverse, hlen, rspField]; omega)
  rw [List.length_reverse, hlen] at hpush
  rw [loadWord_congr fun x hx hx' => hpush x (by rw [rspField]; rw [stackTopField] at hx'; omega)
    (by rw [stackTopField] at hx hx'; omega), ← hm, loadWord_storeWord]

end create

section world
variable {p : Placement code} {w w' : World}

structure Coherent (p : Placement code) (w : World) : Prop where
  running : w.current ∈ w.threads
  bound : ∀ x ∈ w.threads, x + threadSize ≤ 2 ^ 64 ∧ (w.thread x).stackTop < 2 ^ 64
  own : ∀ x ∈ w.threads, Apart x threadSize (w.thread x).stack (w.thread x).size
  separate : ∀ x ∈ w.threads, ∀ y ∈ w.threads, x ≠ y → Separate x (w.thread x) y (w.thread y)
  parked : ∀ x ∈ w.threads, x ≠ w.current → Parked p w.machine.mem x (w.thread x)

theorem Start.coherent (h : Start w) : Coherent p w := by
  have heq (x : Nat) (hx : x ∈ w.threads) : x = w.current := by
    rw [h.threads] at hx
    simpa using hx
  refine ⟨by simp [h.threads], fun x hx => ?_, fun x hx => ?_, fun x hx y hy hne => ?_,
    fun x hx hne => absurd (heq x hx) hne⟩
  · rw [heq x hx]
    exact h.bound
  · rw [heq x hx]
    exact h.apart
  · exact absurd ((heq x hx).trans (heq y hy).symm) hne

theorem Coherent.write (h : Coherent p w) {a : Nat} (ha : w.MayWrite a) (b : BitVec 8) :
    Coherent p { w with machine := ⟨w.machine.toCpu, storeByte w.machine.mem a b⟩ } := by
  refine ⟨h.running, h.bound, h.own, h.separate, fun x hx hne => ?_⟩
  obtain ⟨hslot, hstack⟩ := ha x hx
  refine (h.parked x hx hne).congr (fun c hc hc' => storeByte_other _ _ (by omega))
    (fun c hc hc' => storeByte_other _ _ ?_)
  rcases hstack with hcur | hstack
  · exact absurd hcur hne
  · omega

theorem Separate.symm {x y : Nat} {a b : Thread} (h : Separate x a y b) : Separate y b x a :=
  ⟨h.1.symm, h.2.1.symm, h.2.2.2, h.2.2.1⟩

theorem Coherent.create (h : Coherent p w) {self stack : Nat} {main cs ss usermodeStack : BitVec 64}
    (ha : w.Available self (Thread.new stack main cs ss usermodeStack))
    (hmain : outside p main) :
    Coherent p { w with
      machine := ⟨w.machine.toCpu, createThread p w.machine.mem self stack main cs ss usermodeStack⟩
      threads := self :: w.threads
      thread := Function.update w.thread self
        (Thread.new stack main cs ss usermodeStack) } := by
  obtain ⟨hself, hstack, hown, hsep⟩ := ha
  obtain ⟨hpark, hout⟩ := createThread_spec (p := p) w.machine.mem cs ss usermodeStack
    hstack hown hmain
  have hne (x : Nat) (hx : x ∈ w.threads) : x ≠ self := by
    rintro rfl
    have := (hsep x hx).1
    simp only [Apart, threadSize] at this
    omega
  have hold (x : Nat) (hx : x ∈ w.threads) : Function.update w.thread self
      (Thread.new stack main cs ss usermodeStack) x = w.thread x :=
    Function.update_of_ne (hne x hx) _ _
  refine ⟨List.mem_cons_of_mem _ h.running, fun x hx => ?_, fun x hx => ?_, fun x hx y hy hxy => ?_,
    fun x hx hcur => ?_⟩
  · rcases List.mem_cons.mp hx with rfl | hx
    · simp only [Function.update_self]
      exact ⟨hself, hstack⟩
    · simp only [hold x hx]
      exact h.bound x hx
  · rcases List.mem_cons.mp hx with rfl | hx
    · simp only [Function.update_self]
      exact hown
    · simp only [hold x hx]
      exact h.own x hx
  · rcases List.mem_cons.mp hx with rfl | hx'
    · rcases List.mem_cons.mp hy with rfl | hy'
      · exact absurd rfl hxy
      · simp only [Function.update_self, hold y hy']
        exact hsep y hy'
    · rcases List.mem_cons.mp hy with rfl | hy'
      · simp only [Function.update_self, hold x hx']
        exact (hsep x hx').symm
      · simp only [hold x hx', hold y hy']
        exact h.separate x hx' y hy' hxy
  · rcases List.mem_cons.mp hx with rfl | hx
    · simp only [Function.update_self]
      exact hpark
    · simp only [hold x hx]
      obtain ⟨h1, h2, h3, h4⟩ := hsep x hx
      have hxb := (h.bound x hx).2
      simp only [Apart, threadSize] at h1 h2 h3 h4
      simp only [Thread.stackTop] at hxb
      refine (h.parked x hx hcur).congr (fun c hc hc' => hout c ?_ ?_) fun c hc hc' => hout c ?_ ?_
      all_goals
        simp only [Thread.new, rspField, threadSize, Thread.stackTop, defaultStackSize] at *
        omega

theorem called_reg (kind : Kind) (ret : BitVec 64) (target : Nat) (r : Reg)
    (h : r ∉ [Reg.rdi, .rsi, .rsp]) : (w.called p kind ret target).reg r = w.machine.reg r := by
  simp only [List.mem_cons, List.not_mem_nil, or_false, not_or] at h
  rw [World.called, jump_reg, push_reg h.2.2, set_reg, Function.update_of_ne h.2.1, set_reg,
    Function.update_of_ne h.1]

theorem saves_called (kind : Kind) (ret : BitVec 64) (target : Nat) :
    saves p (w.called p kind ret target).reg kind = saves p w.machine.reg kind := by
  have hreg := called_reg (p := p) (w := w) kind ret target
  cases kind with
  | int => simp only [saves, hreg .rbp (by decide)]
  | sys =>
    simp only [saves, hreg .rbp (by decide), hreg .rbx (by decide), hreg .r12 (by decide),
      hreg .r13 (by decide), hreg .r14 (by decide), hreg .r15 (by decide)]

theorem Coherent.suspend (h : Coherent p w) {kind : Kind} {ret : BitVec 64} {target : Nat}
    (hc : w.CanSwitch p kind ret target) :
    ∃ n ≤ 9, ∃ t, steps p n (w.called p kind ret target) = some t ∧ t.rip = p.addr 3 ∧
      t.reg .rsp = loadWord w.machine.mem (target + rspField) ∧
      (∀ x ∈ w.threads, Parked p t.mem x (Function.update w.thread w.current
        { w.thread w.current with saved := .suspended kind ret w.machine.reg } x)) ∧
      (∀ x, x < (w.thread w.current).stack ∨ (w.thread w.current).stackTop ≤ x →
        x < w.current + rspField ∨ w.current + rspField + 8 ≤ x → t.mem x = w.machine.mem x) ∧
      ∀ r, r ∉ [Reg.rdi, .rsi, .rsp] → t.reg r = w.machine.reg r := by
  obtain ⟨htarget, hret, hlow, hhigh⟩ := hc
  have hown := h.own w.current h.running
  have hbound := h.bound w.current h.running
  simp only [Apart, threadSize, Thread.stackTop] at hown hbound hhigh
  have hlen : 8 * (saves p w.machine.reg kind).length + 8 = 8 * World.frameLength kind := by
    cases kind <;> rfl
  have hsp : (w.called p kind ret target).sp = w.machine.sp - 8 := by
    rw [World.called, jump_sp, push_sp, set_sp (by decide), set_sp (by decide)]
    rw [set_sp (by decide), set_sp (by decide)]
    omega
  have hmem : (w.called p kind ret target).mem =
      storeWord w.machine.mem (w.machine.sp - 8) ret := by
    rw [World.called, jump_mem, push_mem, set_sp (by decide), set_sp (by decide)]
    · rfl
    · rw [set_sp (by decide), set_sp (by decide)]
      omega
  have hdi : ((w.called p kind ret target).reg .rdi).toNat = w.current + rspField := by
    rw [World.called, jump_reg, push_reg (by decide), set_reg, Function.update_of_ne (by decide),
      set_reg, Function.update_self, BitVec.toNat_ofNat, Nat.mod_eq_of_lt (by rw [rspField]; omega)]
  have hsi : (w.called p kind ret target).reg .rsi =
      loadWord w.machine.mem (target + rspField) := by
    rw [World.called, jump_reg, push_reg (by decide), set_reg, Function.update_self]
  have hsaves := saves_called (p := p) (w := w) kind ret target
  obtain ⟨n, hn, t, ht, hs⟩ := suspend_spec (p := p) (s := w.called p kind ret target) rfl
    (by rw [hsaves, hsp]; omega) (by rw [hsaves, hsp, hdi, rspField]; omega)
  have hslot := hs.slot
  have hsaved := hs.saved
  have hframe := hs.frame
  rw [hsaves, hsp, hdi] at hslot hframe
  rw [hsaves, hsp] at hsaved
  have hout (x : Nat) (hx : x < (w.thread w.current).stack ∨
      (w.thread w.current).stack + (w.thread w.current).size ≤ x)
      (hx' : x < w.current + rspField ∨ w.current + rspField + 8 ≤ x) :
      t.mem x = w.machine.mem x := by
    rw [hframe x (by omega) hx', hmem, storeWord_outside _ _ (by omega)]
  refine ⟨n, hn, t, ht, hs.rip, hs.rsp.trans hsi, fun x hx => ?_, hout, fun r hr => ?_⟩
  rotate_left
  · exact (hs.kept r fun h => hr (by simp [h])).trans (called_reg kind ret target r hr)
  by_cases hcur : x = w.current
  · subst hcur
    rw [Function.update_self]
    have hsp' : w.machine.sp - 8 * (saves p w.machine.reg kind ++ [ret]).length =
        w.machine.sp - 8 - 8 * (saves p w.machine.reg kind).length := by
      rw [List.length_append, List.length_singleton]
      omega
    refine ⟨hslot.trans hsp'.symm, ?_, hhigh, ?_, hret⟩
    · change (w.thread w.current).stack + 8 * (saves p w.machine.reg kind ++ [ret]).length ≤ w.machine.sp
      rw [List.length_append, List.length_singleton]
      omega
    · change Holds t.mem (w.machine.sp - 8 * (saves p w.machine.reg kind ++ [ret]).length)
        (saves p w.machine.reg kind ++ [ret])
      rw [hsp', holds_append]
      refine ⟨hsaved, ?_, trivial⟩
      rw [show w.machine.sp - 8 - 8 * (saves p w.machine.reg kind).length +
          8 * (saves p w.machine.reg kind).length = w.machine.sp - 8 by omega,
        loadWord_congr fun x hx hx' => hframe x (by omega) ?_, hmem, loadWord_storeWord]
      simp only [rspField]
      omega
  · rw [Function.update_of_ne hcur]
    obtain ⟨h1, h2, h3, h4⟩ := h.separate x hx _ h.running hcur
    have hxb := (h.bound x hx).2
    simp only [Apart, threadSize] at h1 h2 h3 h4
    simp only [Thread.stackTop] at hxb
    refine (h.parked x hx hcur).congr (fun c hc hc' => hout c ?_ ?_) fun c hc hc' => hout c ?_ ?_
    all_goals
      simp only [rspField, Thread.stackTop] at *
      omega

def World.suspended (w : World) (kind : Kind) (ret : BitVec 64) : Nat → Thread :=
  Function.update w.thread w.current { w.thread w.current with
    saved := .suspended kind ret w.machine.reg }

theorem suspended_stack (kind : Kind) (ret : BitVec 64) (x : Nat) :
    (w.suspended kind ret x).stack = (w.thread x).stack ∧
      (w.suspended kind ret x).size = (w.thread x).size := by
  by_cases hx : x = w.current
  · subst hx
    simp [World.suspended]
  · simp [World.suspended, hx]

theorem switch_world {kind : Kind} {ret : BitVec 64} {target : Nat}
    (hs : step p w (.switch kind ret target) = some w') :
    w'.current = target ∧ w'.threads = w.threads ∧ w'.thread = w.suspended kind ret := by
  rw [step, Option.ite_none_right_eq_some, Option.map_eq_some_iff] at hs
  obtain ⟨-, s, -, rfl⟩ := hs
  exact ⟨rfl, rfl, rfl⟩

theorem Coherent.exchange (h : Coherent p w) {kind : Kind} {ret : BitVec 64} {target : Nat}
    (hc : w.CanSwitch p kind ret target)
    (hslot : (loadWord w.machine.mem (target + rspField)).toNat =
      savedSp p (w.suspended kind ret target)) :
    ∃ w', step p w (.switch kind ret target) = some w' ∧ Coherent p w' ∧ w'.current = target ∧
      w'.threads = w.threads ∧ Resumed (w.suspended kind ret target) w'.machine.toCpu ∧
      ((w.suspended kind ret target).saved.isFresh →
        Visits p leaveEntry (w.called p kind ret target) w'.machine) ∧
      Parked p w'.machine.mem target (w.suspended kind ret target) := by
  obtain ⟨n, hn, t, ht, hrip, hrsp, hpark, -⟩ := h.suspend hc
  have htarget := hpark target hc.1
  change Parked p t.mem target (w.suspended kind ret target) at htarget
  have hsp : t.sp = savedSp p (w.suspended kind ret target) := by
    rw [Machine.sp, hrsp, hslot]
  have hlow := htarget.low
  have hhigh := htarget.high
  have hbound := (h.bound target hc.1).2
  simp only [Thread.stackTop, suspended_stack] at hhigh hbound
  obtain ⟨k, hk, u, hu, hres, hurip, humem, hvisit⟩ := resume_spec (w.suspended kind ret target)
    hrip (hsp ▸ htarget.words) (by rw [hsp, savedSp]; omega) (by omega)
  have hfin : finish p fuel (w.called p kind ret target) = some u :=
    finish_steps (steps_trans ht hu) (hurip ▸ htarget.outside) (by rw [fuel]; omega)
  refine ⟨{ w with machine := u, thread := w.suspended kind ret, current := target },
    by rw [step, if_pos hc, hfin]; rfl, ?_, rfl, rfl, hres, fun hf => (hvisit hf).after ht,
    by simp only [humem]; exact htarget⟩
  refine ⟨hc.1, fun x hx => ?_, fun x hx => ?_, fun x hx y hy hxy => ?_, fun x hx _ => ?_⟩
  · simp only [Thread.stackTop, suspended_stack]
    exact h.bound x hx
  · simp only [suspended_stack]
    exact h.own x hx
  · simp only [Separate, suspended_stack]
    exact h.separate x hx y hy hxy
  · simp only [humem]
    exact hpark x hx

theorem Coherent.switch (h : Coherent p w) {kind : Kind} {ret : BitVec 64} {target : Nat}
    (hc : w.CanSwitch p kind ret target) (hne : target ≠ w.current) :
    ∃ w', step p w (.switch kind ret target) = some w' ∧ Coherent p w' ∧ w'.current = target ∧
      w'.threads = w.threads ∧ Resumed (w.thread target) w'.machine.toCpu ∧
      ((w.thread target).saved.isFresh →
        Visits p leaveEntry (w.called p kind ret target) w'.machine) ∧
      Parked p w'.machine.mem target (w.thread target) := by
  have hth : w.suspended kind ret target = w.thread target := Function.update_of_ne hne _ _
  have hex := h.exchange hc (by rw [hth]; exact (h.parked target hc.1 hne).slot)
  rwa [hth] at hex

theorem Coherent.step (h : Coherent p w) {a : Action} (ha : toOther w a = true)
    (hs : step p w a = some w') : Coherent p w' := by
  cases a with
  | compute cpu =>
    obtain rfl := Option.some.inj hs
    exact ⟨h.running, h.bound, h.own, h.separate, h.parked⟩
  | write a b =>
    rw [Switch.step, Option.ite_none_right_eq_some] at hs
    obtain ⟨hw, hs⟩ := hs
    obtain rfl := Option.some.inj hs
    exact h.write hw b
  | create self stack main cs ss usermodeStack =>
    simp only [Switch.step, Option.ite_none_right_eq_some] at hs
    obtain ⟨⟨hav, hmain⟩, hs⟩ := hs
    obtain rfl := Option.some.inj hs
    exact h.create hav hmain
  | switch kind ret target =>
    have hs' := hs
    rw [Switch.step, Option.ite_none_right_eq_some] at hs'
    obtain ⟨u, hu, hco, -⟩ := h.switch hs'.1 (by simpa [toOther] using ha)
    obtain rfl := Option.some.inj (hs.symm.trans hu)
    exact hco

theorem switch_resumes (p : Placement code) {w₀ w : World} {acts : List Action} (h₀ : Start w₀)
    (hrun : run (step p) w₀ acts = some w) (hother : throughout (step p) toOther w₀ acts = true)
    {kind : Kind} {ret : BitVec 64} {target : Nat} (hc : w.CanSwitch p kind ret target)
    (hne : target ≠ w.current) :
    ∃ w', step p w (.switch kind ret target) = some w' ∧ w'.current = target ∧
      Resumed (w.thread target) w'.machine.toCpu ∧
      ((w.thread target).saved.isFresh →
        Visits p leaveEntry (w.called p kind ret target) w'.machine) := by
  have hco : Coherent p w := invariant (fun s a t hs ha ht => hs.step ha ht) h₀.coherent hrun hother
  obtain ⟨w', hs, -, hcur, -, hres, hvisit, -⟩ := hco.switch hc hne
  exact ⟨w', hs, hcur, hres, hvisit⟩

end world

def samplePlacement : Placement code where
  addr i := BitVec.ofNat 64 (0x100000 + 16 * i)
  distinct i hi j hj h := by
    have hlen : code.length = 45 := rfl
    have := congrArg BitVec.toNat h
    rw [BitVec.toNat_ofNat, BitVec.toNat_ofNat, Nat.mod_eq_of_lt (by omega),
      Nat.mod_eq_of_lt (by omega)] at this
    omega

def sampleBoot : World where
  machine := ⟨⟨fun _ => 0x7000, 0x300000, 0, 8, 16⟩, fun _ => 0⟩
  threads := [0x1000]
  thread _ := ⟨0x4000, 0x4000, .fresh 0 0 0 0⟩
  current := 0x1000

def sampleCreated : World :=
  { sampleBoot with
    machine := ⟨sampleBoot.machine.toCpu,
      createThread samplePlacement sampleBoot.machine.mem 0x2000 0xa000 0x200000 8 16 0⟩
    threads := [0x2000, 0x1000]
    thread := Function.update sampleBoot.thread 0x2000 (Thread.new 0xa000 0x200000 8 16 0) }

section history
variable {p : Placement code} {w₀ u v w : World} {acts acts' : List Action} {t : Nat}

theorem saved_kept {a : Action} (ht : t ∈ v.threads) (hv : t ≠ v.current)
    (hs : step p v a = some w) : t ∈ w.threads ∧ w.thread t = v.thread t := by
  cases a with
  | compute cpu =>
    obtain rfl := Option.some.inj hs
    exact ⟨ht, rfl⟩
  | write a b =>
    rw [Switch.step, Option.ite_none_right_eq_some] at hs
    obtain rfl := Option.some.inj hs.2
    exact ⟨ht, rfl⟩
  | create self stack main cs ss usermodeStack =>
    simp only [Switch.step, Option.ite_none_right_eq_some] at hs
    obtain ⟨⟨hav, -⟩, hs⟩ := hs
    obtain rfl := Option.some.inj hs
    refine ⟨List.mem_cons_of_mem _ ht, Function.update_of_ne ?_ _ _⟩
    rintro rfl
    have := (hav.2.2.2 t ht).1
    simp only [Apart, threadSize] at this
    omega
  | switch kind ret target =>
    obtain ⟨-, hthreads, hthread⟩ := switch_world hs
    rw [hthreads, hthread]
    exact ⟨ht, Function.update_of_ne hv _ _⟩

theorem suspended_kept {kind : Kind} {ret : BitVec 64} {target : Nat} (hu : Coherent p u)
    (hne : target ≠ u.current) (hcall : step p u (.switch kind ret target) = some v)
    (hrun : run (step p) v acts = some w)
    (hother : throughout (step p)
      (fun w a => toOther w a && decide (u.current ≠ w.current)) v acts = true) :
    Coherent p w ∧ w.thread u.current =
      { u.thread u.current with saved := .suspended kind ret u.machine.reg } := by
  have hv : Coherent p v := hu.step (by simpa [toOther] using hne) hcall
  have hsaved : u.current ∈ v.threads ∧ v.thread u.current =
      { u.thread u.current with saved := .suspended kind ret u.machine.reg } := by
    obtain ⟨-, hthreads, hthread⟩ := switch_world hcall
    rw [hthreads, hthread]
    exact ⟨hu.running, Function.update_self _ _ _⟩
  have hkept : Coherent p w ∧ u.current ∈ w.threads ∧ w.thread u.current = v.thread u.current := by
    refine invariant (I := fun w => Coherent p w ∧ u.current ∈ w.threads ∧
      w.thread u.current = v.thread u.current) (fun s a t hs ha ht => ?_) ⟨hv, hsaved.1, rfl⟩ hrun
      hother
    obtain ⟨hco, hmem, heq⟩ := hs
    rw [Bool.and_eq_true, decide_eq_true_eq] at ha
    obtain ⟨hmem', heq'⟩ := saved_kept hmem ha.2 ht
    exact ⟨hco.step ha.1 ht, hmem', heq'.trans heq⟩
  exact ⟨hkept.1, hkept.2.2.trans hsaved.2⟩

theorem call_returns (p : Placement code) (h₀ : Start w₀) (hrun : run (step p) w₀ acts = some u)
    (hother : throughout (step p) toOther w₀ acts = true) {kind kind' : Kind}
    {ret ret' : BitVec 64} {target : Nat} (hne : target ≠ u.current)
    (hcall : step p u (.switch kind ret target) = some v) (hrun' : run (step p) v acts' = some w)
    (hother' : throughout (step p)
      (fun w a => toOther w a && decide (u.current ≠ w.current)) v acts' = true)
    (hback : w.CanSwitch p kind' ret' u.current) (hw : u.current ≠ w.current) :
    ∃ w', step p w (.switch kind' ret' u.current) = some w' ∧ w'.machine.rip = ret ∧
      w'.machine.reg .rsp = u.machine.reg .rsp ∧ w'.machine.reg .rbp = u.machine.reg .rbp ∧
      (kind = .sys → ∀ r ∈ [Reg.rbx, .r12, .r13, .r14, .r15],
        w'.machine.reg r = u.machine.reg r) := by
  have hu : Coherent p u := invariant (fun s a t hs ha ht => hs.step ha ht) h₀.coherent hrun hother
  obtain ⟨hco, heq⟩ := suspended_kept hu hne hcall hrun' hother'
  obtain ⟨w', hs, -, -, -, hres, -⟩ := hco.switch hback hw
  rw [heq] at hres
  exact ⟨w', hs, hres⟩

end history

theorem run_sampleCreated : run (step samplePlacement) sampleBoot
    [.create 0x2000 0xa000 0x200000 8 16 0] = some sampleCreated := by
  rw [run, step, if_pos (by decide)]
  rfl

theorem switch_resumes_sample :
    ∃ v w, step samplePlacement sampleCreated (.switch .int 0x300000 0x2000) = some v ∧
      v.current = 0x2000 ∧ v.machine.rip = 0x200000 ∧ v.machine.reg .rsp = 0xc000 ∧
      step samplePlacement v (.switch .int 0x200010 0x1000) = some w ∧ w.current = 0x1000 ∧
      w.machine.rip = 0x300000 ∧ w.machine.reg .rsp = 0x7000 ∧ w.machine.reg .rbp = 0x7000 := by
  have hstart : Start sampleBoot := ⟨rfl, by decide, by decide⟩
  obtain ⟨v, hv, hcur, hres, -⟩ := switch_resumes samplePlacement hstart run_sampleCreated rfl
    (show sampleCreated.CanSwitch samplePlacement .int 0x300000 0x2000 by decide) (by decide)
  obtain ⟨hrip, -, -, -, hrsp, -⟩ := hres
  have hback : v.CanSwitch samplePlacement .int 0x200010 0x1000 := by
    obtain ⟨-, hthreads, hthread⟩ := switch_world hv
    have hnew : v.thread 0x2000 = Thread.new 0xa000 0x200000 8 16 0 := by
      rw [hthread]
      rfl
    rw [World.CanSwitch, hthreads, hcur, hnew, Machine.sp, hrsp]
    decide
  obtain ⟨w, hw, hreturn, hrsp', hrbp', -⟩ := call_returns samplePlacement hstart run_sampleCreated rfl
    (by decide) hv (show run (step samplePlacement) v [] = some v from rfl) rfl hback
    (by rw [hcur]; decide)
  exact ⟨v, w, hv, hcur, hrip, hrsp, hw, (switch_world hw).1, hreturn, hrsp', hrbp'⟩

end Lasagne.Switch
