import Mathlib
import Lasagne.Library.CyclicList

namespace Lasagne.Ds
open CyclicList

structure Links where
  next : Nat → Nat
  prev : Nat → Nat

-- the second component is the list pointer after the macro
def listAdd (l : Links) (list value : Nat) : Links × Nat :=
  let l : Links :=
    if list = 0 then { l with prev := Function.update l.prev value 0 }
    else
      let l : Links := { l with prev := Function.update l.prev value (l.prev list) }
      let l : Links :=
        if l.prev list ≠ 0 then { l with next := Function.update l.next (l.prev list) value } else l
      { l with prev := Function.update l.prev list value }
  ({ l with next := Function.update l.next value list }, value)

def clistAdd (l : Links) (list value : Nat) : Links × Nat :=
  let r := listAdd l list value
  if r.1.next value = 0 ∧ r.1.prev value = 0 then
    ({ next := Function.update r.1.next value value
       prev := Function.update r.1.prev value value }, r.2)
  else r

def Links.SameOutside (a b : Links) (l : List Nat) : Prop :=
  ∀ x, x ∉ l → b.next x = a.next x ∧ b.prev x = a.prev x

section clistAdd
variable {l : Links} {list : Nat} {xs : List Nat}

theorem clistAdd_pointer (l : Links) (list value : Nat) : (clistAdd l list value).2 = value := by
  rw [clistAdd]
  split <;> rfl

theorem clistAdd_empty (l : Links) (value : Nat) :
    ∃ l', clistAdd l 0 value = (l', value) ∧ Linked l'.next l'.prev value [value] ∧
      l.SameOutside l' [value] := by
  refine ⟨_, by simp [clistAdd, listAdd]; rfl, .single (by simp) (by simp),
    fun x hx => ?_⟩
  have hne : x ≠ value := by simpa using hx
  simp [Function.update_of_ne hne]

theorem clistAdd_ring (value : Nat) (h : Linked l.next l.prev list (xs ++ [list])) (hv : value ∉ xs ++ [list])
    (h0 : 0 ∉ xs ++ [list]) :
    ∃ l', clistAdd l list value = (l', value) ∧ Linked l'.next l'.prev list (xs ++ [value, list]) ∧
      l.SameOutside l' (value :: xs ++ [list]) := by
  obtain ⟨zs, -, hnext, hmem⟩ := h.prev_cur
  have hlist : list ≠ 0 := by
    rintro rfl
    exact h0 (by simp)
  have hprev : l.prev list ≠ 0 := fun h => h0 (h ▸ hmem)
  have hvl : list ≠ value := by
    rintro rfl
    exact hv (by simp)
  have hvp : l.prev list ≠ value := fun h => hv (h ▸ hmem)
  have hadd : listAdd l list value =
      (⟨Function.update (Function.update l.next (l.prev list) value) value list,
        Function.update (Function.update l.prev value (l.prev list)) list value⟩, value) := by
    simp [listAdd, hlist, Function.update_of_ne hvl, hprev]
  refine ⟨_, by rw [clistAdd, hadd, if_neg (by simp [hlist])], ?_, fun x hx => ?_⟩
  · refine h.insert hv ?_ (by simp) (by simp) ?_ (fun x hx hne => ?_) fun x hx hne => ?_
    · simp [Function.update_of_ne hvp]
    · simp [Function.update_of_ne hvl.symm]
    · simp [Function.update_of_ne (ne_of_mem_of_not_mem hx hv), Function.update_of_ne hne]
    · simp [Function.update_of_ne (ne_of_mem_of_not_mem hx hv), Function.update_of_ne hne]
  · have hxv : x ≠ value := by
      rintro rfl
      exact hx (by simp)
    have hxl : x ≠ list := by
      rintro rfl
      exact hx (by simp)
    have hxp : x ≠ l.prev list := by
      rintro rfl
      exact hx (List.mem_cons_of_mem _ hmem)
    simp [Function.update_of_ne hxv, Function.update_of_ne hxp, Function.update_of_ne hxl]

end clistAdd

end Lasagne.Ds
