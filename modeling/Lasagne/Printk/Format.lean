import Mathlib
import Lasagne.Printk.Numbers

namespace Lasagne.Printk
open Numeral

abbrev Word := BitVec 64

def percent : Char := 0x25
def letterD : Char := 0x64
def letterL : Char := 0x6c
def letterS : Char := 0x73
def letterU : Char := 0x75
def letterX : Char := 0x78

-- print_string of what lies at s; fuel bounds how far the end may be
def printStringAt (memory : Word → Char) : Nat → Word → Output
  | 0, _ => none
  | fuel + 1, s =>
    if memory s ≠ 0 then (printStringAt memory fuel (s + 1)).map fun cs => memory s :: cs
    else some []

-- the variables of printk: each argument takes a word, of which an int is the low half
structure Scan where
  specifier : Bool
  l : Bool
  args : List Word

-- va_arg and the function its value goes to; past the last argument there is no result
def withArg (s : Scan) (print : Word → Output) : Option (List Char × Scan) :=
  match s.args with
  | [] => none
  | arg :: args => (print arg).map fun out => (out, { s with args })

section printk
variable (memory : Word → Char) (fuel : Nat)

def specified (s : Scan) (c : Char) : Option (List Char × Scan) :=
  if c = letterD then
    withArg s fun arg => printLong (if s.l then arg else (arg.setWidth 32).signExtend 64)
  else if c = letterU then
    withArg s fun arg => printUlong (if s.l then arg else (arg.setWidth 32).setWidth 64)
  else if c = letterX then
    withArg s fun arg =>
      if s.l then printHex arg 16 else printHex ((arg.setWidth 32).setWidth 64) 8
  else if c = letterS then withArg s fun arg => printStringAt memory fuel arg
  else if c = percent then some ([percent], s)
  else if c = letterL then some ([], { s with specifier := true, l := true })
  else some ([], s)

def scanChar (s : Scan) (c : Char) : Option (List Char × Scan) :=
  if s.specifier then specified memory fuel { s with specifier := false } c
  else if c = percent then some ([], { s with specifier := true, l := false })
  else some ([c], s)

def scanFormat : List Char → Scan → Output
  | [], _ => some []
  | c :: fmt, s =>
    if c = 0 then some []
    else (scanChar memory fuel s c).bind fun r => (scanFormat fmt r.2).map fun rest => r.1 ++ rest

def printk (fmt : List Char) (args : List Word) : Output :=
  scanFormat memory fuel fmt ⟨false, false, args⟩

end printk

-- what a format is made of: text, and conversions with how many l stand before the letter
inductive Directive where
  | text (c : Char)
  | convert (ls : Nat) (c : Char)

namespace Directive

def spelled : Directive → List Char
  | text c => [c]
  | convert ls c => percent :: (List.replicate ls letterL ++ [c])

def Valid : Directive → Prop
  | text c => c ≠ 0 ∧ c ≠ percent
  | convert _ c => c ≠ 0 ∧ c ≠ letterL

def takesArg : Directive → Bool
  | text _ => false
  | convert _ c => c = letterD ∨ c = letterU ∨ c = letterX ∨ c = letterS

def fixed : Directive → List Char
  | text c => [c]
  | convert _ c => if c = percent then [percent] else []

end Directive

def signed (z : Int) : List Char :=
  (if z < 0 then [minusChar] else []) ++ (numeral 10 z.natAbs).map decimalDigit

def hexDigits (len n : Nat) : List Char :=
  zeroChar :: letterX :: (lowDigits 16 len n).reverse.map hexDigit

def shown (memory : Word → Char) (fuel : Nat) (arg : Word) : Directive → Output
  | .text _ => none
  | .convert ls c =>
    if c = letterD then some (signed (if ls = 0 then (arg.setWidth 32).toInt else arg.toInt))
    else if c = letterU then
      some ((numeral 10 (if ls = 0 then arg.toNat % 2 ^ 32 else arg.toNat)).map decimalDigit)
    else if c = letterX then
      some (if ls = 0 then hexDigits 8 (arg.toNat % 2 ^ 32) else hexDigits 16 arg.toNat)
    else printStringAt memory fuel arg

def render (memory : Word → Char) (fuel : Nat) : List Directive → List Word → Output
  | [], _ => some []
  | d :: ds, args =>
    if d.takesArg then
      match args with
      | [] => none
      | arg :: args => (shown memory fuel arg d).bind fun out =>
        (render memory fuel ds args).map fun rest => out ++ rest
    else (render memory fuel ds args).map fun rest => d.fixed ++ rest

-- a conversion that the end of the format cuts off
def Dangling (tail : List Char) : Prop :=
  tail = [] ∨ ∃ ls, tail = percent :: List.replicate ls letterL

structure Spells (fmt : List Char) (ds : List Directive) (tail : List Char) : Prop where
  valid : ∀ d ∈ ds, d.Valid
  dangling : Dangling tail
  spelled : (fmt.takeWhile fun c => c ≠ 0) = ds.flatMap Directive.spelled ++ tail

section numbers
variable {n : Word} {len : Nat}

theorem printHex_digits (h : len ≤ hexStr) : printHex n len = some (hexDigits len n.toNat) := by
  have hlt := lowDigits_lt (b := 16) (k := len) (n := n.toNat) (by decide)
  have hmap : ((lowDigits 16 len n.toNat).map (BitVec.ofNat 8)).reverse.map hexChar =
      (lowDigits 16 len n.toNat).reverse.map hexDigit := by
    rw [← List.map_reverse, List.map_map]
    exact List.map_congr_left fun d hd => hexChar_digit (hlt d (List.mem_reverse.mp hd))
  rw [printHex, fillHex_eq len h, Option.bind_eq_bind, Option.bind_some, hmap]
  rfl

theorem printLong_signed (n : Word) : printLong n = some (signed n.toInt) := printLong_eq n

theorem toNat_low (n : Word) : ((n.setWidth 32).setWidth 64).toNat = n.toNat % 2 ^ 32 := by
  rw [BitVec.toNat_setWidth, BitVec.toNat_setWidth]
  omega

theorem toInt_low (n : Word) : ((n.setWidth 32).signExtend 64).toInt = (n.setWidth 32).toInt :=
  BitVec.toInt_signExtend_of_le (by decide)

end numbers

section scan
variable {memory : Word → Char} {fuel : Nat} {fmt : List Char} {l : Bool} {args : List Word} {c : Char}

theorem shown_d (arg : Word) (ls : Nat) : shown memory fuel arg (.convert ls letterD) =
    some (signed (if ls = 0 then (arg.setWidth 32).toInt else arg.toInt)) := rfl

theorem shown_u (arg : Word) (ls : Nat) : shown memory fuel arg (.convert ls letterU) =
    some ((numeral 10 (if ls = 0 then arg.toNat % 2 ^ 32 else arg.toNat)).map decimalDigit) := rfl

theorem shown_x (arg : Word) (ls : Nat) : shown memory fuel arg (.convert ls letterX) =
    some (if ls = 0 then hexDigits 8 (arg.toNat % 2 ^ 32) else hexDigits 16 arg.toNat) := rfl

theorem specified_eq {ls : Nat} (hc : c ≠ letterL) :
    specified memory fuel ⟨false, decide (ls ≠ 0), args⟩ c =
      if (Directive.convert ls c).takesArg then
        withArg ⟨false, decide (ls ≠ 0), args⟩ fun arg => shown memory fuel arg (.convert ls c)
      else some ((Directive.convert ls c).fixed, ⟨false, decide (ls ≠ 0), args⟩) := by
  by_cases hd : c = letterD
  · subst hd
    refine congrArg (withArg _) (funext fun arg => ?_)
    rw [shown_d]
    by_cases h0 : ls = 0
    · rw [if_neg (by simp [h0]), if_pos h0, printLong_signed, toInt_low]
    · rw [if_pos (by simp [h0]), if_neg h0, printLong_signed]
  by_cases hu : c = letterU
  · subst hu
    refine congrArg (withArg _) (funext fun arg => ?_)
    rw [shown_u, printUlong_eq]
    by_cases h0 : ls = 0
    · rw [if_neg (by simp [h0]), if_pos h0, toNat_low]
    · rw [if_pos (by simp [h0]), if_neg h0]
  by_cases hx : c = letterX
  · subst hx
    refine congrArg (withArg _) (funext fun arg => ?_)
    rw [shown_x]
    by_cases h0 : ls = 0
    · rw [if_neg (by simp [h0]), if_pos h0, printHex_digits (by decide), toNat_low]
    · rw [if_pos (by simp [h0]), if_neg h0, printHex_digits (by decide)]
  by_cases hs : c = letterS
  · subst hs
    rfl
  have harg : (Directive.convert ls c).takesArg = false :=
    decide_eq_false (by simp only [hd, hu, hx, hs, or_self, not_false_iff])
  rw [specified, if_neg hd, if_neg hu, if_neg hx, if_neg hs, harg, if_neg Bool.false_ne_true,
    if_neg hc, Directive.fixed]
  split <;> rfl

theorem scanFormat_cons (hc : c ≠ 0) (s : Scan) : scanFormat memory fuel (c :: fmt) s =
    (scanChar memory fuel s c).bind fun r => (scanFormat memory fuel fmt r.2).map fun rest =>
      r.1 ++ rest := by
  rw [scanFormat, if_neg hc]

theorem scanFormat_ls (ls : Nat) : scanFormat memory fuel (List.replicate ls letterL ++ fmt)
    ⟨true, l, args⟩ = scanFormat memory fuel fmt ⟨true, l || decide (ls ≠ 0), args⟩ := by
  induction ls generalizing l with
  | zero => simp
  | succ ls ih =>
    have hstep : scanChar memory fuel ⟨true, l, args⟩ letterL = some ([], ⟨true, true, args⟩) := rfl
    rw [List.replicate_succ, List.cons_append, scanFormat_cons (by decide), hstep, Option.bind_some,
      ih]
    simp

theorem scanFormat_directive {d : Directive} (hd : d.Valid) : ∃ l',
    scanFormat memory fuel (d.spelled ++ fmt) ⟨false, l, args⟩ =
      if d.takesArg then
        match args with
        | [] => none
        | arg :: args => (shown memory fuel arg d).bind fun out =>
          (scanFormat memory fuel fmt ⟨false, l', args⟩).map fun rest => out ++ rest
      else (scanFormat memory fuel fmt ⟨false, l', args⟩).map fun rest => d.fixed ++ rest := by
  cases d with
  | text c =>
    refine ⟨l, ?_⟩
    have hstep : scanChar memory fuel ⟨false, l, args⟩ c = some ([c], ⟨false, l, args⟩) :=
      if_neg hd.2
    rw [Directive.spelled, List.singleton_append, scanFormat_cons hd.1, hstep]
    rfl
  | convert ls c =>
    refine ⟨decide (ls ≠ 0), ?_⟩
    have hstep : scanChar memory fuel ⟨false, l, args⟩ percent = some ([], ⟨true, false, args⟩) := rfl
    have hlast (s : Scan) : scanChar memory fuel { s with specifier := true } c =
        specified memory fuel { s with specifier := false } c := rfl
    rw [Directive.spelled, List.cons_append, List.append_assoc, scanFormat_cons (by decide), hstep,
      Option.bind_some, scanFormat_ls, List.singleton_append, scanFormat_cons hd.1, Bool.false_or,
      hlast ⟨true, _, args⟩, specified_eq hd.2]
    simp only [List.nil_append, Option.map_id']
    split
    · cases args with
      | nil => rfl
      | cons arg args =>
        rw [withArg, Option.bind_map]
        rfl
    · rfl

theorem scanFormat_dangling {tail : List Char} (h : Dangling tail) :
    scanFormat memory fuel tail ⟨false, l, args⟩ = some [] := by
  obtain rfl | ⟨ls, rfl⟩ := h
  · rfl
  · have hstep : scanChar memory fuel ⟨false, l, args⟩ percent = some ([], ⟨true, false, args⟩) := rfl
    have hls : scanFormat memory fuel (List.replicate ls letterL ++ []) ⟨true, false, args⟩ =
        scanFormat memory fuel [] ⟨true, false || decide (ls ≠ 0), args⟩ := scanFormat_ls ls
    rw [List.append_nil] at hls
    rw [scanFormat_cons (by decide), hstep, Option.bind_some, hls]
    rfl

theorem scanFormat_takeWhile (fmt : List Char) (s : Scan) :
    scanFormat memory fuel (fmt.takeWhile fun c => c ≠ 0) s = scanFormat memory fuel fmt s := by
  induction fmt generalizing s with
  | nil => rfl
  | cons c fmt ih =>
    by_cases hc : c = 0
    · rw [List.takeWhile_cons_of_neg (by simpa using hc), scanFormat, scanFormat, if_pos hc]
    · rw [List.takeWhile_cons_of_pos (by simpa using hc), scanFormat_cons hc, scanFormat_cons hc]
      simp only [ih]

theorem scanFormat_spelled {ds : List Directive} {tail : List Char} (hd : ∀ d ∈ ds, d.Valid)
    (ht : Dangling tail) : scanFormat memory fuel (ds.flatMap Directive.spelled ++ tail)
      ⟨false, l, args⟩ = render memory fuel ds args := by
  induction ds generalizing l args with
  | nil => exact scanFormat_dangling ht
  | cons d ds ih =>
    have hrest : ∀ d ∈ ds, d.Valid := fun d hmem => hd d (List.mem_cons_of_mem _ hmem)
    obtain ⟨l', hfirst⟩ := scanFormat_directive (hd d List.mem_cons_self)
    rw [List.flatMap_cons, List.append_assoc, hfirst]
    simp only [ih hrest]
    cases args <;> rfl

theorem shown_isSome {arg : Word} {d : Directive} (hd : d.takesArg = true)
    (hs : (printStringAt memory fuel arg).isSome = true) : (shown memory fuel arg d).isSome = true := by
  cases d with
  | text c => exact absurd hd Bool.false_ne_true
  | convert ls c =>
    rw [shown]
    split
    · rfl
    split
    · rfl
    split
    · rfl
    · exact hs

theorem render_isSome_iff {ds : List Directive}
    (hs : ∀ arg ∈ args, (printStringAt memory fuel arg).isSome = true) :
    (render memory fuel ds args).isSome = true ↔ ds.countP Directive.takesArg ≤ args.length := by
  induction ds generalizing args with
  | nil => simp [render]
  | cons d ds ih =>
    by_cases hd : d.takesArg = true
    · rw [List.countP_cons_of_pos hd]
      cases args with
      | nil => simp [render, hd]
      | cons arg args =>
        obtain ⟨out, hout⟩ := Option.isSome_iff_exists.mp (shown_isSome hd (hs arg List.mem_cons_self))
        rw [render, if_pos hd, hout, Option.bind_some, Option.isSome_map,
          ih fun arg hmem => hs arg (List.mem_cons_of_mem _ hmem), List.length_cons]
        omega
    · rw [List.countP_cons_of_neg hd, ← ih hs]
      cases args <;> simp [render, hd]

end scan

theorem exists_spelling (cs : List Char) (hcs : ∀ c ∈ cs, c ≠ 0) :
    ∃ (ds : List Directive) (tail : List Char),
      (∀ d ∈ ds, d.Valid) ∧ Dangling tail ∧ cs = ds.flatMap Directive.spelled ++ tail := by
  induction hn : cs.length using Nat.strong_induction_on generalizing cs with
  | _ n ih =>
    subst hn
    cases cs with
    | nil => exact ⟨[], [], by simp, .inl rfl, rfl⟩
    | cons c cs =>
      have hrest : ∀ c ∈ cs, c ≠ 0 := fun c hmem => hcs c (List.mem_cons_of_mem _ hmem)
      by_cases hp : c = percent
      · subst hp
        have hsplit := List.takeWhile_append_dropWhile (p := fun c => decide (c = letterL)) (l := cs)
        have hls : cs.takeWhile (fun c => decide (c = letterL)) =
            List.replicate (cs.takeWhile fun c => decide (c = letterL)).length letterL :=
          List.eq_replicate_iff.mpr ⟨rfl, fun c hmem => by simpa using List.mem_takeWhile_imp hmem⟩
        generalize (cs.takeWhile fun c => decide (c = letterL)).length = ls at hls
        rw [hls] at hsplit
        cases hdrop : cs.dropWhile fun c => decide (c = letterL) with
        | nil =>
          rw [hdrop, List.append_nil] at hsplit
          exact ⟨[], percent :: cs, by simp, .inr ⟨ls, by rw [hsplit]⟩, rfl⟩
        | cons c' cs' =>
          rw [hdrop] at hsplit
          have hne : c' ≠ letterL := by
            have := List.head_dropWhile_not (fun c => decide (c = letterL)) (hdrop ▸ List.cons_ne_nil c' cs')
            simpa [hdrop] using this
          have hlen : cs'.length < (percent :: cs).length := by
            rw [← hsplit]
            simp
            omega
          obtain ⟨ds, tail, hd, ht, heq⟩ := ih _ hlen cs' (fun c hmem => hrest c (by
            rw [← hsplit]
            simp [hmem])) rfl
          refine ⟨.convert ls c' :: ds, tail, ?_, ht, ?_⟩
          · rintro d hmem
            rcases List.mem_cons.mp hmem with rfl | hmem
            · exact ⟨hrest c' (by rw [← hsplit]; simp), hne⟩
            · exact hd d hmem
          · rw [← hsplit, heq]
            simp [Directive.spelled]
      · obtain ⟨ds, tail, hd, ht, heq⟩ := ih _ (Nat.lt_succ_self _) cs hrest rfl
        refine ⟨.text c :: ds, tail, ?_, ht, ?_⟩
        · rintro d hmem
          rcases List.mem_cons.mp hmem with rfl | hmem
          · exact ⟨hcs c List.mem_cons_self, hp⟩
          · exact hd d hmem
        · rw [heq]
          rfl

theorem printk_renders (memory : Word → Char) (fuel : Nat) (fmt : List Char) (args : List Word) :
    (∃ ds tail, Spells fmt ds tail) ∧ ∀ ds tail, Spells fmt ds tail →
      printk memory fuel fmt args = render memory fuel ds args ∧
      ((∀ arg ∈ args, (printStringAt memory fuel arg).isSome = true) →
        ((printk memory fuel fmt args).isSome = true ↔
          ds.countP Directive.takesArg ≤ args.length)) := by
  constructor
  · obtain ⟨ds, tail, hd, ht, heq⟩ := exists_spelling (fmt.takeWhile fun c => c ≠ 0)
      fun c hmem => by simpa using List.mem_takeWhile_imp hmem
    exact ⟨ds, tail, hd, ht, heq⟩
  · intro ds tail h
    have heq : printk memory fuel fmt args = render memory fuel ds args := by
      rw [printk, ← scanFormat_takeWhile, h.spelled, scanFormat_spelled h.valid h.dangling]
    exact ⟨heq, fun hs => heq ▸ render_isSome_iff hs⟩

end Lasagne.Printk
