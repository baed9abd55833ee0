import Mathlib
import Lasagne.Printk.Format
import Lasagne.Tty.Refinement

namespace Lasagne.Printk
open Console PartialRun

-- port holds what was written to port 0xe9 so far
structure Devices where
  port : List Char
  tty : Tty

-- char is signed
def backend (d : Devices) (c : Char) : Option Devices :=
  (ttyPutchar d.tty (c.signExtend 32).toNat).map fun tty => ⟨d.port ++ [c], tty⟩

inductive Event where
  | print (fmt : List Char) (args : List Word)
  | tty (c : Call)

section events
variable (memory : Word → Char) (fuel : Nat)

def Devices.step (d : Devices) : Event → Option Devices
  | .print fmt args => (printk memory fuel fmt args).bind (run backend d)
  | .tty c => (call d.tty c).map fun tty => { d with tty }

def Event.text : Event → Output
  | .print fmt args => printk memory fuel fmt args
  | .tty _ => some []

-- an ideal terminal that is given the characters of ASCII only
def put (s : Terminal) (c : Char) : Terminal := if c < 0x80 then s.putchar c.toNat else s

def Event.next (s : Terminal) (e : Event) : Terminal :=
  match e with
  | .print fmt args => ((printk memory fuel fmt args).getD []).foldl put s
  | .tty c => s.next c

end events

section backend
variable {d : Devices} {s : Terminal}

theorem toNat_signExtend_ascii {c : Char} (h : c < 0x80) : (c.signExtend 32).toNat = c.toNat := by
  have hc : c.toNat < 128 := h
  have hmsb : c.msb = false := by
    rw [BitVec.msb_eq_decide]
    exact decide_eq_false (by omega)
  rw [BitVec.toNat_signExtend, hmsb, BitVec.toNat_setWidth]
  simp
  omega

theorem toNat_signExtend_high {c : Char} (h : ¬ c < 0x80) : (c.signExtend 32).toNat > 0xff := by
  have hc : ¬ c.toNat < 128 := h
  have hmsb : c.msb = true := by
    rw [BitVec.msb_eq_decide]
    exact decide_eq_true (by omega)
  rw [BitVec.toNat_signExtend, hmsb]
  simp

theorem backend_spec (h : Refines d.tty s) (c : Char) : ∃ d', backend d c = some d' ∧
    d'.port = d.port ++ [c] ∧ Refines d'.tty (put s c) := by
  obtain ⟨t, ht, hr⟩ := call_spec d.tty s (.putchar (c.signExtend 32)) h
  have hcall : ttyPutchar d.tty (c.signExtend 32).toNat = some t := ht
  refine ⟨⟨d.port ++ [c], t⟩, by rw [backend, hcall]; rfl, rfl, ?_⟩
  by_cases hc : c < 0x80
  · rw [put, if_pos hc, ← toNat_signExtend_ascii hc]
    exact hr
  · have hsame : s.next (.putchar (c.signExtend 32)) = s := if_pos (toNat_signExtend_high hc)
    rw [put, if_neg hc]
    exact hsame ▸ hr

theorem print_spec (h : Refines d.tty s) (cs : List Char) : ∃ d', run backend d cs = some d' ∧
    d'.port = d.port ++ cs ∧ Refines d'.tty (cs.foldl put s) := by
  induction cs generalizing d s with
  | nil => exact ⟨d, rfl, (List.append_nil _).symm, h⟩
  | cons c cs ih =>
    obtain ⟨d1, hrun1, hport1, hr1⟩ := backend_spec h c
    obtain ⟨d2, hrun2, hport2, hr2⟩ := ih hr1
    refine ⟨d2, run_cons.mpr ⟨d1, hrun1, hrun2⟩, ?_, hr2⟩
    rw [hport2, hport1, List.append_assoc]
    rfl

variable {memory : Word → Char} {fuel : Nat}

theorem step_spec (h : Refines d.tty s) {e : Event} {out : List Char}
    (he : e.text memory fuel = some out) : ∃ d', d.step memory fuel e = some d' ∧
      d'.port = d.port ++ out ∧ Refines d'.tty (e.next memory fuel s) := by
  cases e with
  | print fmt args =>
    have hprint : printk memory fuel fmt args = some out := he
    obtain ⟨d', hrun, hport, hr⟩ := print_spec h out
    refine ⟨d', ?_, hport, ?_⟩
    · rw [Devices.step, hprint]
      exact hrun
    · rw [Event.next, hprint]
      exact hr
  | tty c =>
    obtain rfl : [] = out := Option.some.inj he
    obtain ⟨t, ht, hr⟩ := call_spec d.tty s c h
    refine ⟨{ d with tty := t }, ?_, (List.append_nil _).symm, hr⟩
    rw [Devices.step, ht]
    rfl

theorem run_spec (h : Refines d.tty s) {events : List Event} {outs : List (List Char)}
    (he : events.map (Event.text memory fuel) = outs.map some) :
    ∃ d', run (Devices.step memory fuel) d events = some d' ∧ d'.port = d.port ++ outs.flatten ∧
      Refines d'.tty (events.foldl (Event.next memory fuel) s) := by
  induction events generalizing d s outs with
  | nil =>
    obtain rfl : outs = [] := by simpa using he.symm
    exact ⟨d, rfl, by simp, h⟩
  | cons e events ih =>
    cases outs with
    | nil => simp at he
    | cons out outs =>
      obtain ⟨hfirst, hrest⟩ := List.cons.inj he
      obtain ⟨d1, hrun1, hport1, hr1⟩ := step_spec h hfirst
      obtain ⟨d2, hrun2, hport2, hr2⟩ := ih hr1 hrest
      refine ⟨d2, run_cons.mpr ⟨d1, hrun1, hrun2⟩, ?_, hr2⟩
      rw [hport2, hport1, List.append_assoc, List.flatten_cons]

end backend

theorem printk_on_console (memory : Word → Char) (fuel : Nat) (t : Tty) (events : List Event)
    (outs : List (List Char)) (h : events.map (Event.text memory fuel) = outs.map some) :
    ∃ d, ((ttyInitialize t).bind fun tty => run (Devices.step memory fuel) ⟨[], tty⟩ events) = some d ∧
      d.port = outs.flatten ∧
      OnScreen d.tty (events.foldl (Event.next memory fuel) Terminal.start) := by
  obtain ⟨t', hinit, hr⟩ := initialize_spec t
  obtain ⟨d, hrun, hport, hr'⟩ := run_spec (d := ⟨[], t'⟩) hr h
  exact ⟨d, by rw [hinit]; exact hrun, hport, onScreen_of_refines hr'⟩

def sampleEvents : List Event :=
  [.print [percent, letterL, letterD, percent, percent] [-7], .tty (.setTabSize 4),
    .print [0xe4, 0x0a] []]

def zeroTty : Tty where
  row := 0
  col := 0
  width := 0
  height := 0
  bufferRow := 0
  bufferHeight := 0
  tab := 0
  style := ⟨.black, .black⟩
  buffer _ _ := 0
  ttyBuffer _ := 0

theorem printk_on_console_sample : ∃ d, ((ttyInitialize zeroTty).bind fun tty =>
    run (Devices.step (fun _ => 0) 1) ⟨[], tty⟩ sampleEvents) = some d ∧
      d.port = [minusChar, 0x37, percent, 0xe4, 0x0a] ∧ d.tty.row = 1 ∧
      Depicts (d.tty.ttyBuffer 0) (some ⟨minusChar, .white, .black⟩) ∧
      d.tty.ttyBuffer 80 = 0 := by
  obtain ⟨d, hrun, hport, -, r, hrow, hcount, hshown, -⟩ := printk_on_console (fun _ => 0) 1
    zeroTty sampleEvents [[minusChar, 0x37, percent], [], [0xe4, 0x0a]] (by decide)
  obtain rfl : r = 1 := by
    have hlines : (sampleEvents.foldl (Event.next (fun _ => 0) 1) Terminal.start).lines.length = 2 :=
      by decide
    rw [hlines] at hcount
    omega
  exact ⟨d, hrun, hport, hrow, hshown 0 (by omega) 0 (by omega), hshown 1 le_rfl 0 (by omega)⟩

end Lasagne.Printk
