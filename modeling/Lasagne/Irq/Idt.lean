import Mathlib
import Lasagne.Library.BitFields
import Lasagne.Library.PartialRun

namespace Lasagne.Irq
open BitFields PartialRun

abbrev Word := BitVec 64

def intVectorsNumber : Nat := 80

def intWrapperAlign : Nat := 8

def intHandlerErrorcode : Word := 1 <<< 0

def intHandlerRetval : Word := 1 <<< 1

def intHandlerUser : Word := 1 <<< 2

structure IdtEntry where
  offsetLow : BitVec 16
  selector : BitVec 16
  ist : BitVec 8
  type : BitVec 5
  dpl : BitVec 2
  present : BitVec 1
  offsetMiddle : BitVec 16
  offsetHigh : BitVec 32
  reserved : BitVec 32

structure IdtModel where
  offset : Word
  selector : BitVec 16
  ist : BitVec 8
  type : BitVec 8
  dpl : BitVec 8
  present : BitVec 8

structure IdtHandler where
  address : Word
  flags : Word

def compileIdt (src : IdtModel) : IdtEntry where
  offsetLow := src.offset.setWidth 16
  offsetMiddle := (src.offset >>> 16).setWidth 16
  offsetHigh := (src.offset >>> 32).setWidth 32
  selector := src.selector
  ist := src.ist
  type := src.type.setWidth 5
  dpl := src.dpl.setWidth 2
  present := src.present.setWidth 1
  reserved := 0

def IdtEntry.packed (e : IdtEntry) : Nat :=
  pack [(16, e.offsetLow.toNat), (16, e.selector.toNat), (8, e.ist.toNat), (5, e.type.toNat),
    (2, e.dpl.toNat), (1, e.present.toNat), (16, e.offsetMiddle.toNat), (32, e.offsetHigh.toNat),
    (32, e.reserved.toNat)]

structure Tables where
  idt : Nat → IdtEntry
  handler : Nat → IdtHandler

section source
variable (interruptWrapper : Word)

def idtModel (i : Nat) : IdtModel where
  offset := interruptWrapper + BitVec.ofNat 64 (intWrapperAlign * i)
  selector := 0x08
  ist := 0
  type := 0xE
  dpl := 0
  present := 0

def createIdt (t : Tables) : Tables :=
  (List.range intVectorsNumber).foldl (fun t i =>
    { t with idt := Function.update t.idt i (compileIdt (idtModel interruptWrapper i)) }) t

end source

-- a number past the end of the two arrays is undefined
def setIrqHandler (t : Tables) (irqNumber : Nat) (address flags : Word) : Option Tables :=
  if irqNumber < intVectorsNumber then some {
    handler := Function.update t.handler irqNumber ⟨address, flags⟩
    idt := Function.update t.idt irqNumber { t.idt irqNumber with
      present := 1
      dpl := if flags &&& intHandlerUser ≠ 0 then 3 else 0 } }
  else none

def resetIrqHandler (t : Tables) (irqNumber : Nat) : Option Tables :=
  if irqNumber < intVectorsNumber then
    some { t with idt := Function.update t.idt irqNumber { t.idt irqNumber with present := 0 } }
  else none

inductive Op where
  | set (irqNumber : Nat) (address flags : Word)
  | reset (irqNumber : Nat)

def Tables.step (t : Tables) : Op → Option Tables
  | .set irqNumber address flags => setIrqHandler t irqNumber address flags
  | .reset irqNumber => resetIrqHandler t irqNumber

def setHandlers (genericExceptionHandler spuriousInterruptHandler : Word) : List Op :=
  (List.range' 0 8).map (fun i => .set i genericExceptionHandler 0) ++
    (List.range' 8 7).map (fun i => .set i genericExceptionHandler intHandlerErrorcode) ++
    (List.range' 16 64).map (fun i => .set i genericExceptionHandler 0) ++
    [.set 0x27 spuriousInterruptHandler 0]

-- a gate as the processor reads it; the type has the bit after it
structure Gate where
  offset : Nat
  selector : Nat
  ist : Nat
  type : Nat
  dpl : Nat
  deriving DecidableEq, Repr

def Gate.read (x : Nat) : Option Gate :=
  if field x 47 1 = 1 then some {
    offset := field x 0 16 + 2 ^ 16 * field x 48 16 + 2 ^ 32 * field x 64 32
    selector := field x 16 16
    ist := field x 32 3
    type := field x 40 5
    dpl := field x 45 2 }
  else none

abbrev Installed := Nat → Option IdtHandler

def Installed.next (h : Installed) : Op → Installed
  | .set irqNumber address flags => Function.update h irqNumber (some ⟨address, flags⟩)
  | .reset irqNumber => Function.update h irqNumber none

def installed (ops : List Op) : Installed := ops.foldl Installed.next fun _ => none

section fields
variable (e : IdtEntry)

theorem read_packed : Gate.read e.packed = if e.present = 1 then some {
    offset := e.offsetLow.toNat + 2 ^ 16 * e.offsetMiddle.toNat + 2 ^ 32 * e.offsetHigh.toNat
    selector := e.selector.toNat
    ist := e.ist.toNat % 8
    type := e.type.toNat
    dpl := e.dpl.toNat }
  else none := by
  have hlow : field e.packed 0 16 = e.offsetLow.toNat :=
    (field_pack (k := 0) (w := 16) [] _ le_rfl).trans (field_zero e.offsetLow.isLt)
  have hselector : field e.packed 16 16 = e.selector.toNat :=
    (field_pack (k := 0) (w := 16) [(16, _)] _ le_rfl).trans (field_zero e.selector.isLt)
  have hist : field e.packed 32 3 = e.ist.toNat % 8 :=
    (field_pack (k := 0) (n := 3) (w := 8) [(16, _), (16, _)] _ (by decide)).trans (by
      rw [field, Nat.pow_zero, Nat.div_one]
      rfl)
  have htype : field e.packed 40 5 = e.type.toNat :=
    (field_pack (k := 0) (w := 5) [(16, _), (16, _), (8, _)] _ le_rfl).trans
      (field_zero e.type.isLt)
  have hdpl : field e.packed 45 2 = e.dpl.toNat :=
    (field_pack (k := 0) (w := 2) [(16, _), (16, _), (8, _), (5, _)] _ le_rfl).trans
      (field_zero e.dpl.isLt)
  have hpresent : field e.packed 47 1 = e.present.toNat :=
    (field_pack (k := 0) (w := 1) [(16, _), (16, _), (8, _), (5, _), (2, _)] _ le_rfl).trans
      (field_zero e.present.isLt)
  have hmiddle : field e.packed 48 16 = e.offsetMiddle.toNat :=
    (field_pack (k := 0) (w := 16) [(16, _), (16, _), (8, _), (5, _), (2, _), (1, _)] _
      le_rfl).trans (field_zero e.offsetMiddle.isLt)
  have hhigh : field e.packed 64 32 = e.offsetHigh.toNat :=
    (field_pack (k := 0) (w := 32) [(16, _), (16, _), (8, _), (5, _), (2, _), (1, _), (16, _)] _
      le_rfl).trans (field_zero e.offsetHigh.isLt)
  have hiff : e.present.toNat = 1 ↔ e.present = 1 := by
    rw [← BitVec.toNat_inj]
    rfl
  rw [Gate.read, hlow, hselector, hist, htype, hdpl, hpresent, hmiddle, hhigh]
  exact if_congr hiff rfl rfl

end fields

def gateOf (interruptWrapper : Word) (i : Nat) (h : IdtHandler) : Gate where
  offset := (interruptWrapper + BitVec.ofNat 64 (intWrapperAlign * i)).toNat
  selector := 0x08
  ist := 0
  type := 0xE
  dpl := if h.flags &&& intHandlerUser ≠ 0 then 3 else 0

structure Reflects (interruptWrapper : Word) (t : Tables) (h : Installed) (i : Nat) : Prop where
  base : t.idt i = { compileIdt (idtModel interruptWrapper i) with
    present := (t.idt i).present
    dpl := (t.idt i).dpl }
  absent : h i = none → (t.idt i).present = 0
  inForce : ∀ f, h i = some f → (t.idt i).present = 1 ∧ t.handler i = f ∧
    (t.idt i).dpl = if f.flags &&& intHandlerUser ≠ 0 then 3 else 0

section runs
variable {interruptWrapper : Word} {t t' : Tables} {h : Installed} {i : Nat}

theorem createIdt_idt (t : Tables) (hi : i < intVectorsNumber) :
    (createIdt interruptWrapper t).idt i = compileIdt (idtModel interruptWrapper i) := by
  have hfold (n : Nat) : i < n → (((List.range n).foldl (fun t i =>
      { t with idt := Function.update t.idt i (compileIdt (idtModel interruptWrapper i)) }) t :
        Tables).idt i) = compileIdt (idtModel interruptWrapper i) := by
    induction n with
    | zero => exact fun h => absurd h (Nat.not_lt_zero _)
    | succ n ih =>
      intro hlt
      rw [List.range_succ, List.foldl_append, List.foldl_cons, List.foldl_nil]
      by_cases hn : i = n
      · subst hn
        exact Function.update_self _ _ _
      · exact (Function.update_of_ne hn _ _).trans (ih (by omega))
  exact hfold _ hi

theorem reflects_createIdt (t : Tables) (hi : i < intVectorsNumber) :
    Reflects interruptWrapper (createIdt interruptWrapper t) (fun _ => none) i where
  base := by rw [createIdt_idt t hi]
  absent _ := by rw [createIdt_idt t hi]; rfl
  inForce _ hf := absurd hf (by simp)

theorem Reflects.other {h' : Installed} (hr : Reflects interruptWrapper t h i)
    (hidt : t'.idt i = t.idt i) (hhandler : t'.handler i = t.handler i) (hh : h' i = h i) :
    Reflects interruptWrapper t' h' i where
  base := by rw [hidt]; exact hr.base
  absent hnone := by rw [hidt]; exact hr.absent (hh ▸ hnone)
  inForce f hf := by rw [hidt, hhandler]; exact hr.inForce f (hh ▸ hf)

theorem Reflects.step (hr : Reflects interruptWrapper t h i) {op : Op} (hs : t.step op = some t') :
    Reflects interruptWrapper t' (h.next op) i := by
  cases op with
  | set n address flags =>
    rw [Tables.step, setIrqHandler] at hs
    by_cases hn : n < intVectorsNumber
    · rw [if_pos hn] at hs
      obtain rfl := Option.some.inj hs
      by_cases hi : i = n
      · subst hi
        refine ⟨?_, fun hnone => ?_, fun f hf => ?_⟩
        · simp only [Function.update_self]
          rw [hr.base]
        · rw [Installed.next, Function.update_self] at hnone
          exact absurd hnone (by simp)
        · rw [Installed.next, Function.update_self] at hf
          obtain rfl := Option.some.inj hf
          simp only [Function.update_self, and_self]
      · exact hr.other (Function.update_of_ne hi _ _) (Function.update_of_ne hi _ _)
          (Function.update_of_ne hi _ _)
    · rw [if_neg hn] at hs
      exact absurd hs (by simp)
  | reset n =>
    rw [Tables.step, resetIrqHandler] at hs
    by_cases hn : n < intVectorsNumber
    · rw [if_pos hn] at hs
      obtain rfl := Option.some.inj hs
      by_cases hi : i = n
      · subst hi
        refine ⟨?_, fun _ => ?_, fun f hf => ?_⟩
        · simp only [Function.update_self]
          rw [hr.base]
        · simp only [Function.update_self]
        · rw [Installed.next, Function.update_self] at hf
          exact absurd hf (by simp)
      · exact hr.other (Function.update_of_ne hi _ _) rfl (Function.update_of_ne hi _ _)
    · rw [if_neg hn] at hs
      exact absurd hs (by simp)

theorem toNat_parts (a : Word) : (a.setWidth 16).toNat + 2 ^ 16 * ((a >>> 16).setWidth 16).toNat +
    2 ^ 32 * ((a >>> 32).setWidth 32).toNat = a.toNat := by
  have := a.isLt
  simp only [BitVec.toNat_setWidth, BitVec.toNat_ushiftRight, Nat.shiftRight_eq_div_pow]
  omega

theorem Reflects.gate (hr : Reflects interruptWrapper t h i) :
    Gate.read (t.idt i).packed = (h i).map (gateOf interruptWrapper i) := by
  rw [read_packed, hr.base]
  cases hf : h i with
  | none =>
    rw [if_neg (by rw [hr.absent hf]; decide)]
    rfl
  | some f =>
    obtain ⟨hpresent, -, hdpl⟩ := hr.inForce f hf
    rw [if_pos hpresent, hdpl, Option.map_some, gateOf, ← toNat_parts]
    split_ifs <;> rfl

end runs

theorem reflects_run (interruptWrapper : Word) {t t' : Tables} {ops : List Op}
    (hrun : run Tables.step (createIdt interruptWrapper t) ops = some t') {i : Nat}
    (hi : i < intVectorsNumber) : Reflects interruptWrapper t' (installed ops) i := by
  have hstep : ∀ (s : Tables) (h : Installed) (op : Op) (s' : Tables),
      Reflects interruptWrapper s h i → s.step op = some s' →
        Reflects interruptWrapper s' (h.next op) i := fun _ _ _ _ hr hs => hr.step hs
  exact tracks hstep (reflects_createIdt t hi) hrun

theorem gates_of_run (interruptWrapper : Word) (t t' : Tables) (ops : List Op)
    (hrun : run Tables.step (createIdt interruptWrapper t) ops = some t') (i : Nat)
    (hi : i < intVectorsNumber) :
    Gate.read (t'.idt i).packed = (installed ops i).map (gateOf interruptWrapper i) ∧
      ∀ f, installed ops i = some f → t'.handler i = f := by
  have hr := reflects_run interruptWrapper hrun hi
  exact ⟨hr.gate, fun f hf => (hr.inForce f hf).2.1⟩

def Op.irqNumber : Op → Nat
  | .set irqNumber _ _ => irqNumber
  | .reset irqNumber => irqNumber

theorem run_total (ops : List Op) (h : ∀ op ∈ ops, op.irqNumber < intVectorsNumber) (t : Tables) :
    ∃ t', run Tables.step t ops = some t' := by
  induction ops generalizing t with
  | nil => exact ⟨t, rfl⟩
  | cons op ops ih =>
    have hrest : ∀ op ∈ ops, op.irqNumber < intVectorsNumber :=
      fun op hop => h op (List.mem_cons_of_mem _ hop)
    have hop : op.irqNumber < intVectorsNumber := h op List.mem_cons_self
    obtain ⟨t₁, ht₁⟩ : ∃ t₁, t.step op = some t₁ := by
      cases op with
      | set n address flags => exact ⟨_, if_pos hop⟩
      | reset n => exact ⟨_, if_pos hop⟩
    obtain ⟨t', ht'⟩ := ih hrest t₁
    exact ⟨t', by rw [run, ht₁]; exact ht'⟩

-- the handlers set up to the end of initialize, in their order
def bootOps (genericExceptionHandler spuriousInterruptHandler pageFaultHandler syscallIntHandler
    pitHandler : Word) : List Op :=
  setHandlers genericExceptionHandler spuriousInterruptHandler ++
    [.set 14 pageFaultHandler intHandlerErrorcode,
      .set 0x30 syscallIntHandler (intHandlerRetval ||| intHandlerUser), .set 0x20 pitHandler 0]

theorem gates_of_run_sample : ∃ t', run Tables.step
    (createIdt 0xffffffff80100000 ⟨fun _ => compileIdt ⟨0, 0, 0, 0, 0, 0⟩, fun _ => ⟨0, 0⟩⟩)
      (bootOps 0xffffffff80101000 0xffffffff80102000 0xffffffff80103000 0xffffffff80104000
        0xffffffff80105000) = some t' ∧
    Gate.read (t'.idt 0x30).packed = some ⟨0xffffffff80100180, 0x08, 0, 0xE, 3⟩ ∧
      t'.handler 0x30 = ⟨0xffffffff80104000, 6⟩ := by
  obtain ⟨t', ht'⟩ := run_total (bootOps 0xffffffff80101000 0xffffffff80102000
    0xffffffff80103000 0xffffffff80104000 0xffffffff80105000) (by decide)
    (createIdt 0xffffffff80100000 ⟨fun _ => compileIdt ⟨0, 0, 0, 0, 0, 0⟩, fun _ => ⟨0, 0⟩⟩)
  obtain ⟨hgate, hhandler⟩ := gates_of_run 0xffffffff80100000 _ _ _ ht' 0x30 (by decide)
  exact ⟨t', ht', hgate, hhandler _ rfl⟩

end Lasagne.Irq
