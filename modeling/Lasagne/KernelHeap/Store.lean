import Mathlib
import Lasagne.KernelHeap.Realloc

namespace Lasagne.KernelHeap
open ByteMemory Buddy SplitTree

inductive Op where
  | kalloc (x size : Nat)
  | kzalloc (x size : Nat)
  | krealloc (x size : Nat)
  | kfree (x : Nat)
  | write (x offset : Nat) (value : BitVec 8)
  | read (x offset : Nat)
  deriving DecidableEq, Repr

inductive Outcome where
  | pointer (p : Nat)
  | byte (value : BitVec 8)
  | done
  deriving DecidableEq, Repr

structure Client where
  world : World
  ptr : Nat → Nat

def Client.step (c : Client) : Op → Option (Outcome × Client)
  | .kalloc x size => do
    let (p, heap) ← kalloc c.world.heap size
    return (.pointer p, ⟨hand c.world size (p, heap), Function.update c.ptr x p⟩)
  | .kzalloc x size => do
    let (p, heap) ← kzalloc c.world.heap size
    return (.pointer p, ⟨hand c.world size (p, heap), Function.update c.ptr x p⟩)
  | .krealloc x size => do
    let b ← owner c.world (c.ptr x)
    let (p, heap) ← krealloc c.world.heap (c.ptr x) size
    let live := if p = c.ptr x then c.world.live else ⟨p, size⟩ :: c.world.live.erase b
    return (.pointer p, ⟨⟨heap, live⟩, Function.update c.ptr x p⟩)
  | .kfree x => do
    let b ← owner c.world (c.ptr x)
    let heap ← kfree c.world.heap (c.ptr x)
    return (.done, ⟨⟨heap, c.world.live.erase b⟩, c.ptr⟩)
  | .write x offset value =>
    let mem := storeByte c.world.heap.mem (c.ptr x + offset) value
    some (.done, ⟨⟨{ c.world.heap with mem }, c.world.live⟩, c.ptr⟩)
  | .read x offset => some (.byte (c.world.heap.mem (c.ptr x + offset)), c)

def Client.clean (c : Client) : Op → Bool
  | .kalloc _ size => KernelHeap.clean c.world (.kalloc size)
  | .kzalloc _ size => KernelHeap.clean c.world (.kzalloc size)
  | .krealloc x size => KernelHeap.clean c.world (.krealloc (c.ptr x) size)
  | .kfree x => KernelHeap.clean c.world (.kfree (c.ptr x))
  | _ => true

def Client.run : List Op → Client → Option (List Outcome × Client)
  | [], c => some ([], c)
  | op :: ops, c => do
    let (outcome, c) ← c.step op
    let (outcomes, c) ← Client.run ops c
    return (outcome :: outcomes, c)

def Client.cleanRun : List Op → Client → Bool
  | [], _ => true
  | op :: ops, c => c.clean op &&
    match c.step op with
    | none => true
    | some (_, c) => Client.cleanRun ops c

-- what the heap is for: a variable stands for an object of its own, whose bytes are unknown until
-- they are written
structure Object where
  size : Nat
  byte : Nat → Option (BitVec 8)

abbrev Objects := Nat → Option Object

def Objects.step (s : Objects) : Op → Outcome → Objects
  | .kalloc x size, .pointer p =>
    Function.update s x (if empty p then none else some ⟨size, fun _ => none⟩)
  | .kzalloc x size, _ =>
    Function.update s x (some ⟨size, fun i => if i < size then some 0 else none⟩)
  | .krealloc x size, _ => Function.update s x
    ((s x).map fun o => ⟨size, fun i => if i < size then o.byte i else none⟩)
  | .kfree x, _ => Function.update s x none
  | .write x offset value, _ => Function.update s x
    ((s x).map fun o => { o with byte := Function.update o.byte offset (some value) })
  | _, _ => s

def Objects.Permits (s : Objects) : Op → Prop
  | .krealloc x _ => s x ≠ none
  | .kfree x => s x ≠ none
  | .write x offset _ => ∃ o, s x = some o ∧ offset < o.size
  | _ => True

def Objects.Explains (s : Objects) : Op → Outcome → Prop
  | .read x offset, .byte value =>
    ∀ o, s x = some o → ∀ known, o.byte offset = some known → value = known
  | _, _ => True

def Objects.Permitted : List Op → List Outcome → Objects → Prop
  | op :: ops, outcome :: outcomes, s =>
    s.Permits op ∧ Objects.Permitted ops outcomes (s.step op outcome)
  | _, _, _ => True

def Objects.Explained : List Op → List Outcome → Objects → Prop
  | op :: ops, outcome :: outcomes, s =>
    s.Explains op outcome ∧ Objects.Explained ops outcomes (s.step op outcome)
  | _, _, _ => True

structure Stores (c : Client) (s : Objects) : Prop where
  sound : Sound c.world
  block : ∀ x o, s x = some o → ∃ b ∈ c.world.live, b.start = c.ptr x ∧ o.size ≤ b.size
  bytes : ∀ x o, s x = some o → ∀ i v, o.byte i = some v →
    i < o.size ∧ c.world.heap.mem (c.ptr x + i) = v
  apart : ∀ x y, s x ≠ none → s y ≠ none → c.ptr x = c.ptr y → x = y

section stores
variable {c c' : Client} {s : Objects} {x : Nat} {b : Block} {w : World} {h : Heap}

theorem distinct_start {n : Block} (hs : Sound ⟨h, n :: w.live⟩) (hb : b ∈ w.live) :
    b.start ≠ n.start := by
  obtain ⟨k, lists, t⟩ := hs
  have hnodup := t.distinct
  rw [List.map_cons, List.nodup_cons] at hnodup
  exact fun heq => hnodup.1 (heq ▸ List.mem_map_of_mem hb)

theorem Stores.become {obj : Option Object} {p : Nat} (hc : Stores c s) (hs : Sound c'.world)
    (hp : c'.ptr x = p) (hptr : ∀ y, y ≠ x → c'.ptr y = c.ptr y)
    (hothers : ∀ b ∈ c.world.live, (s x ≠ none → b.start ≠ c.ptr x) → b ∈ c'.world.live ∧
      (∀ a, b.Covers a → c'.world.heap.mem a = c.world.heap.mem a) ∧
      (obj ≠ none → b.start ≠ p))
    (hblock : ∀ o, obj = some o → ∃ b ∈ c'.world.live, b.start = p ∧ o.size ≤ b.size)
    (hbytes : ∀ o, obj = some o → ∀ i v, o.byte i = some v →
      i < o.size ∧ c'.world.heap.mem (p + i) = v) :
    Stores c' (Function.update s x obj) := by
  subst hp
  have hkept {y : Nat} {o : Object} (hy : y ≠ x) (ho : s y = some o) : ∃ b ∈ c'.world.live,
      b.start = c.ptr y ∧ o.size ≤ b.size ∧
      (∀ a, b.Covers a → c'.world.heap.mem a = c.world.heap.mem a) ∧
      (obj ≠ none → b.start ≠ c'.ptr x) := by
    obtain ⟨b, hb, hstart, hsize⟩ := hc.block y o ho
    obtain ⟨hb', hmem, hne⟩ := hothers b hb fun hx heq =>
      hy (hc.apart y x (by simp [ho]) hx (hstart.symm.trans heq))
    exact ⟨b, hb', hstart, hsize, hmem, hne⟩
  refine ⟨hs, fun y o ho => ?_, fun y o ho i v hv => ?_, fun y z hy hz heq => ?_⟩
  · by_cases hyx : y = x
    · subst hyx
      rw [Function.update_self] at ho
      exact hblock o ho
    · rw [Function.update_of_ne hyx] at ho
      obtain ⟨b, hb, hstart, hsize, -⟩ := hkept hyx ho
      exact ⟨b, hb, by rw [hptr y hyx, hstart], hsize⟩
  · by_cases hyx : y = x
    · subst hyx
      rw [Function.update_self] at ho
      exact hbytes o ho i v hv
    · rw [Function.update_of_ne hyx] at ho
      obtain ⟨hi, hmem⟩ := hc.bytes y o ho i v hv
      obtain ⟨b, -, hstart, hsize, hsame, -⟩ := hkept hyx ho
      refine ⟨hi, ?_⟩
      rw [hptr y hyx, hsame _ ⟨by omega, by omega⟩, hmem]
  · by_cases hyx : y = x <;> by_cases hzx : z = x
    · rw [hyx, hzx]
    · subst hyx
      rw [Function.update_self] at hy
      rw [Function.update_of_ne hzx] at hz
      obtain ⟨o, ho⟩ := Option.ne_none_iff_exists'.mp hz
      obtain ⟨b, -, hstart, -, -, hne⟩ := hkept hzx ho
      exact absurd (hstart.trans ((hptr z hzx).symm.trans heq.symm)) (hne hy)
    · subst hzx
      rw [Function.update_self] at hz
      rw [Function.update_of_ne hyx] at hy
      obtain ⟨o, ho⟩ := Option.ne_none_iff_exists'.mp hy
      obtain ⟨b, -, hstart, -, -, hne⟩ := hkept hyx ho
      exact absurd (hstart.trans ((hptr y hyx).symm.trans heq)) (hne hz)
    · rw [Function.update_of_ne hyx] at hy
      rw [Function.update_of_ne hzx] at hz
      rw [hptr y hyx, hptr z hzx] at heq
      exact hc.apart y z hy hz heq

theorem kzalloc_filled {size p : Nat} {h' : Heap} (hs : Sound w) (hn : heapRegion.leafSize < 2 * size)
    (hz : kzalloc w.heap size = some (p, h')) : ¬ empty p = true ∧ Sound ⟨h', ⟨p, size⟩ :: w.live⟩ ∧
      (∀ b ∈ w.live, ∀ x, b.Covers x → h'.mem x = w.heap.mem x) ∧
      ∀ i < size, h'.mem (p + i) = 0 := by
  have hsound := kzalloc_sound hs hn hz
  obtain ⟨⟨q, h₁⟩, ha, hz⟩ := Option.bind_eq_some_iff.mp hz
  obtain ⟨m, hm, hz⟩ := Option.bind_eq_some_iff.mp hz
  rw [Option.pure_def, Option.some.injEq, Prod.mk.injEq] at hz
  obtain ⟨rfl, rfl⟩ := hz
  rw [memset] at hm
  split at hm
  next => exact absurd hm (by simp)
  next hnull =>
    obtain rfl := Option.some.inj hm
    have hne : ¬ empty q = true := fun he => hnull ⟨by omega, he⟩
    rw [hand, if_neg hne] at hsound
    obtain ⟨hs₁, hkeep⟩ := kalloc_sound hs hn ha (by simpa [empty] using hne)
    refine ⟨hne, hsound, fun b hb x hx => ?_, fun i hi => fill_inside _ _ ⟨by omega, by omega⟩⟩
    have hfits := (size_fits hs₁ (b := ⟨q, size⟩) (by simp)).1
    refine (fill_outside _ _ ?_).trans (hkeep b hb x hx)
    by_contra hin
    have heq := live_apart hs₁ (c := ⟨q, size⟩) (by simp) (List.mem_cons_of_mem _ hb)
      ⟨by simp only; omega, by simp only at hfits ⊢; omega⟩ hx
    exact distinct_start hs₁ hb (heq ▸ rfl)

theorem Stores.fresh {p size : Nat} {h' : Heap} {o : Object} (hc : Stores c s)
    (hs : Sound ⟨h', ⟨p, size⟩ :: c.world.live⟩) (hsize : o.size = size)
    (hkeep : ∀ b ∈ c.world.live, ∀ a, b.Covers a → h'.mem a = c.world.heap.mem a)
    (hbytes : ∀ i v, o.byte i = some v → i < size ∧ h'.mem (p + i) = v) :
    Stores ⟨⟨h', ⟨p, size⟩ :: c.world.live⟩, Function.update c.ptr x p⟩
      (Function.update s x (some o)) := by
  refine hc.become hs (Function.update_self ..) (fun y hy => Function.update_of_ne hy _ _)
    (fun b hb _ => ⟨List.mem_cons_of_mem _ hb, hkeep b hb, fun _ => distinct_start hs hb⟩)
    (fun o' ho' => ⟨⟨p, size⟩, by simp, rfl, ?_⟩) fun o' ho' i v hv => ?_
  · obtain rfl := Option.some.inj ho'
    exact hsize.trans_le (size_fits hs (b := ⟨p, size⟩) (by simp)).1
  · obtain rfl := Option.some.inj ho'
    rw [hsize]
    exact hbytes i v hv

theorem Stores.kalloc {size p : Nat} {h' : Heap} (hc : Stores c s)
    (hn : heapRegion.leafSize < 2 * size) (hserv : servable c.world.heap size = true)
    (ha : KernelHeap.kalloc c.world.heap size = some (p, h')) :
    Stores ⟨hand c.world size (p, h'), Function.update c.ptr x p⟩
      (s.step (.kalloc x size) (.pointer p)) := by
  rw [Objects.step]
  by_cases hp : empty p = true
  · obtain rfl : p = allocatorEmpty := by simpa [empty] using hp
    obtain rfl := refused_keeps hserv ha
    rw [if_pos hp, hand, if_pos hp]
    exact hc.become hc.sound (Function.update_self ..) (fun y hy => Function.update_of_ne hy _ _)
      (fun b hb _ => ⟨hb, fun _ _ => rfl, fun hne => absurd rfl hne⟩) (by simp) (by simp)
  · obtain ⟨hs, hkeep⟩ := kalloc_sound hc.sound hn ha (by simpa [empty] using hp)
    rw [if_neg hp, hand, if_neg hp]
    exact hc.fresh hs rfl hkeep (by simp)

theorem Stores.kzalloc {size p : Nat} {h' : Heap} (hc : Stores c s)
    (hn : heapRegion.leafSize < 2 * size)
    (hz : KernelHeap.kzalloc c.world.heap size = some (p, h')) :
    Stores ⟨hand c.world size (p, h'), Function.update c.ptr x p⟩
      (s.step (.kzalloc x size) (.pointer p)) := by
  obtain ⟨hp, hs, hkeep, hzero⟩ := kzalloc_filled hc.sound hn hz
  rw [Objects.step, hand, if_neg hp]
  refine hc.fresh hs rfl hkeep fun i v hv => ?_
  rw [Option.ite_none_right_eq_some] at hv
  obtain ⟨hi, hv⟩ := hv
  exact ⟨hi, (hzero i hi).trans (Option.some.inj hv)⟩

theorem Stores.krealloc {size p : Nat} {h' : Heap} (hc : Stores c s)
    (ho : owner c.world (c.ptr x) = some b) (hn : heapRegion.leafSize < 2 * size)
    (hclean : reallocClean c.world.heap (c.ptr x) size = true) (hx : s x ≠ none)
    (hk : KernelHeap.krealloc c.world.heap (c.ptr x) size = some (p, h')) :
    Stores ⟨⟨h', if p = c.ptr x then c.world.live else ⟨p, size⟩ :: c.world.live.erase b⟩,
      Function.update c.ptr x p⟩ (s.step (.krealloc x size) (.pointer p)) := by
  have hb := List.mem_of_find?_eq_some ho
  have hstart : b.start = c.ptr x := by simpa using List.find?_some ho
  obtain ⟨o, hox⟩ := Option.ne_none_iff_exists'.mp hx
  have hsize : o.size ≤ b.size := by
    obtain ⟨d, hd, hdstart, hle⟩ := hc.block x o hox
    rw [← hdstart, owner_eq hc.sound hd, Option.some.injEq] at ho
    exact ho ▸ hle
  rw [Objects.step, hox, Option.map_some]
  obtain ⟨rfl, rfl, hround⟩ | ⟨hne, hs, hbytes, hothers⟩ :=
    krealloc_cases hc.sound ho hn hclean hk
  · rw [if_pos rfl, Function.update_eq_self]
    refine hc.become hc.sound rfl (fun _ _ => rfl)
      (fun d hd hdx => ⟨hd, fun _ _ => rfl, fun _ => hdx hx⟩)
      (fun o' ho' => ⟨b, hb, hstart, ?_⟩) fun o' ho' i v hv => ?_
    · obtain rfl := Option.some.inj ho'
      have hlim := (size_fits hc.sound hb).2.2.2.trans heapRegion.size_le_pow
      exact le_ceil (show 0 < size by omega) hround hlim
    · obtain rfl := Option.some.inj ho'
      obtain ⟨hi, hv⟩ := Option.ite_none_right_eq_some.mp hv
      exact ⟨hi, (hc.bytes x o hox i v hv).2⟩
  · rw [if_neg hne]
    refine hc.become hs (Function.update_self ..) (fun y hy => Function.update_of_ne hy _ _)
      (fun d hd hdx => ?_)
      (fun o' ho' => ⟨⟨p, size⟩, by simp, rfl, ?_⟩) fun o' ho' i v hv => ?_
    · have hdb : d ≠ b := fun heq => hdx hx (heq ▸ hstart)
      have hde : d ∈ c.world.live.erase b := (List.mem_erase_of_ne hdb).mpr hd
      exact ⟨List.mem_cons_of_mem _ hde, hothers d hd hdb,
        fun _ => distinct_start (w := ⟨h', c.world.live.erase b⟩) hs hde⟩
    · obtain rfl := Option.some.inj ho'
      exact (size_fits hs (b := ⟨p, size⟩) (by simp)).1
    · obtain rfl := Option.some.inj ho'
      obtain ⟨hi, hv⟩ := Option.ite_none_right_eq_some.mp hv
      obtain ⟨hio, hmem⟩ := hc.bytes x o hox i v hv
      exact ⟨hi, (hbytes i (by omega)).trans hmem⟩

theorem Stores.kfree {h' : Heap} (hc : Stores c s) (ho : owner c.world (c.ptr x) = some b)
    (hclean : cleanRelease c.world.heap (c.ptr x) = true) (hx : s x ≠ none)
    (hf : KernelHeap.kfree c.world.heap (c.ptr x) = some h') :
    Stores ⟨⟨h', c.world.live.erase b⟩, c.ptr⟩ (s.step (.kfree x) .done) := by
  have hstart : b.start = c.ptr x := by simpa using List.find?_some ho
  obtain ⟨h₁, hf', -, hs, hkeep⟩ := free_sound hc.sound ho hclean (kfree_not_root hf)
  rw [hf, Option.some.injEq] at hf'
  subst hf'
  rw [Objects.step]
  refine hc.become hs rfl (fun _ _ => rfl) (fun d hd hdx => ?_) (by simp) (by simp)
  have hdb : d ≠ b := fun heq => hdx hx (heq ▸ hstart)
  have hde : d ∈ c.world.live.erase b := (List.mem_erase_of_ne hdb).mpr hd
  exact ⟨hde, hkeep d hde, fun hne => absurd rfl hne⟩

theorem Stores.write {o : Object} {offset : Nat} {value : BitVec 8} (hc : Stores c s)
    (ho : s x = some o) (hoff : offset < o.size) :
    Stores ⟨⟨{ c.world.heap with mem := storeByte c.world.heap.mem (c.ptr x + offset) value },
      c.world.live⟩, c.ptr⟩ (s.step (.write x offset value) .done) := by
  obtain ⟨b, hb, hstart, hsize⟩ := hc.block x o ho
  have hcov : b.Covers (c.ptr x + offset) := ⟨by omega, by omega⟩
  have hs := write_sound hc.sound (sameOutside_storeByte (b := value)
    (show ∃ b ∈ c.world.live, b.Covers (c.ptr x + offset) from ⟨b, hb, hcov⟩))
  rw [Objects.step, ho, Option.map_some]
  refine hc.become hs rfl (fun _ _ => rfl) (fun d hd hdx => ⟨hd, fun a ha => ?_, fun _ => ?_⟩)
    (fun o' ho' => ⟨b, hb, hstart, ?_⟩) fun o' ho' i v hv => ?_
  · refine storeByte_other _ _ fun heq => ?_
    have hdb := live_apart hc.sound hd hb ha (heq ▸ hcov)
    exact hdx (by simp [ho]) (hdb ▸ hstart)
  · exact hdx (by simp [ho])
  · obtain rfl := Option.some.inj ho'
    exact hsize
  · obtain rfl := Option.some.inj ho'
    change Function.update o.byte offset (some value) i = some v at hv
    by_cases hi : i = offset
    · subst hi
      rw [Function.update_self] at hv
      exact ⟨hoff, (storeByte_same _ _ _).trans (Option.some.inj hv)⟩
    · rw [Function.update_of_ne hi] at hv
      obtain ⟨hio, hmem⟩ := hc.bytes x o ho i v hv
      have hne : c.ptr x + i ≠ c.ptr x + offset := by omega
      exact ⟨hio, (storeByte_other _ _ hne).trans hmem⟩

theorem Stores.step {op : Op} {outcome : Outcome} (hc : Stores c s) (hclean : c.clean op = true)
    (hperm : s.Permits op) (hstep : c.step op = some (outcome, c')) :
    s.Explains op outcome ∧ Stores c' (s.step op outcome) := by
  cases op with
  | kalloc x size =>
    rw [Client.clean, clean, Bool.and_eq_true] at hclean
    obtain ⟨⟨p, h'⟩, ha, hstep⟩ := Option.bind_eq_some_iff.mp hstep
    obtain ⟨rfl, rfl⟩ := Prod.mk.inj (Option.some.inj hstep)
    exact ⟨trivial, hc.kalloc (half_leaf hclean.1) hclean.2 ha⟩
  | kzalloc x size =>
    rw [Client.clean, clean, Bool.and_eq_true] at hclean
    obtain ⟨⟨p, h'⟩, hz, hstep⟩ := Option.bind_eq_some_iff.mp hstep
    obtain ⟨rfl, rfl⟩ := Prod.mk.inj (Option.some.inj hstep)
    exact ⟨trivial, hc.kzalloc (half_leaf hclean.1) hz⟩
  | krealloc x size =>
    rw [Client.clean, clean, Bool.and_eq_true] at hclean
    obtain ⟨b, ho, hstep⟩ := Option.bind_eq_some_iff.mp hstep
    obtain ⟨⟨p, h'⟩, hk, hstep⟩ := Option.bind_eq_some_iff.mp hstep
    obtain ⟨rfl, rfl⟩ := Prod.mk.inj (Option.some.inj hstep)
    exact ⟨trivial, hc.krealloc ho (half_leaf hclean.1) hclean.2 hperm hk⟩
  | kfree x =>
    obtain ⟨b, ho, hstep⟩ := Option.bind_eq_some_iff.mp hstep
    obtain ⟨h', hf, hstep⟩ := Option.bind_eq_some_iff.mp hstep
    obtain ⟨rfl, rfl⟩ := Prod.mk.inj (Option.some.inj hstep)
    exact ⟨trivial, hc.kfree ho hclean hperm hf⟩
  | write x offset value =>
    obtain ⟨rfl, rfl⟩ := Prod.mk.inj (Option.some.inj hstep)
    obtain ⟨o, ho, hoff⟩ := hperm
    exact ⟨trivial, hc.write ho hoff⟩
  | read x offset =>
    obtain ⟨rfl, rfl⟩ := Prod.mk.inj (Option.some.inj hstep)
    exact ⟨fun o ho known hknown => (hc.bytes x o ho offset known hknown).2, hc⟩

theorem Stores.run {ops : List Op} {outcomes : List Outcome} (hc : Stores c s)
    (hrun : Client.run ops c = some (outcomes, c')) (hclean : Client.cleanRun ops c = true)
    (hperm : Objects.Permitted ops outcomes s) : Objects.Explained ops outcomes s := by
  induction ops generalizing c s outcomes with
  | nil =>
    obtain ⟨rfl, -⟩ := Prod.mk.inj (Option.some.inj hrun)
    trivial
  | cons op ops ih =>
    obtain ⟨⟨outcome, c₁⟩, hstep, hrun⟩ := Option.bind_eq_some_iff.mp hrun
    obtain ⟨⟨rest, c₂⟩, hrest, hrun⟩ := Option.bind_eq_some_iff.mp hrun
    obtain ⟨rfl, rfl⟩ := Prod.mk.inj (Option.some.inj hrun)
    rw [Client.cleanRun, Bool.and_eq_true, hstep] at hclean
    obtain ⟨hexplains, hc₁⟩ := hc.step hclean.1 hperm.1 hstep
    exact ⟨hexplains, ih hc₁ hrest hclean.2 hperm.2⟩

end stores

end Lasagne.KernelHeap
