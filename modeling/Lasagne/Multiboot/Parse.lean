import Mathlib
import Lasagne.Library.LittleEndian
import Lasagne.Library.StateRun
import Lasagne.MemoryMap.Map

namespace Lasagne.Multiboot
open CInt MemMap ByteMemory LittleEndian StateRun

def mbMemoryMap : Nat := 6

def mbRamAvailable : Nat := 1

def mbRamAcpi : Nat := 3

-- what a run does, in order; tag marks the start of a pass of the tag loop
inductive Event where
  | tag (mb : Nat)
  | load (a width : Nat)
  | addArea (begin stop : Nat)
  | sanitize
  deriving DecidableEq, Repr

inductive Fault where
  | assertion
  | divideError
  | outOfFuel
  deriving DecidableEq, Repr

structure State where
  map : MemoryMap
  log : List Event

-- addresses count from the start of the multiboot block
abbrev Parse := EStateM Fault State

def State.note (s : State) (e : Event) : State := { s with log := s.log ++ [e] }

def note (e : Event) : Parse Unit := modify (·.note e)

def load32 (m : Memory) (a : Nat) : Parse Nat := do
  note (.load a 4)
  return load m 4 a

def load64 (m : Memory) (a : Nat) : Parse Nat := do
  note (.load a 8)
  return load m 8 a

def update (f : MemoryMap → Option MemoryMap) : Parse Unit := do
  let s ← get
  match f s.map with
  | some map => set { s with map }
  | none => throw .assertion

def memMapAddArea (begin stop : Nat) : Parse Unit := do
  note (.addArea begin stop)
  update (MemMap.addArea · begin stop)

def memMapSanitize : Parse Unit := do
  note .sanitize
  update MemMap.sanitize

def sizeofMemmap : Nat := 16

def sizeofEntry : Nat := 24

-- for (int i = 0; i < entries; ++i), with ++entry at the end
def fillEntries (m : Memory) : Nat → Nat → Parse Unit
  | 0, _ => pure ()
  | n + 1, entry => do
    let type ← load32 m (entry + 16)
    if type = mbRamAvailable ∨ type = mbRamAcpi then
      let length ← load64 m (entry + 8)
      let base ← load64 m entry
      memMapAddArea base ((base + length) % wordSize)
    fillEntries m n (entry + sizeofEntry)

-- the subtraction is one of size_t, the quotient becomes an int
def fillMemoryMap (m : Memory) (mb : Nat) : Parse Unit := do
  let size ← load32 m (mb + 4)
  let entrySize ← load32 m (mb + 8)
  if entrySize = 0 then throw .divideError
  let entries := toInt ((size + wordSize - sizeofMemmap) % wordSize / entrySize)
  fillEntries m entries.toNat (mb + sizeofMemmap)

def parseMemoryMap (m : Memory) (mb : Nat) : Parse Unit := do
  fillMemoryMap m mb
  memMapSanitize

-- in uint32_t
def padded (size : Nat) : Nat :=
  if size % 8 ≠ 0 then (size + (8 - size % 8)) % 2 ^ 32 else size

def parseTags (m : Memory) : Nat → Nat → Nat → Parse Unit
  | 0, _, _ => throw .outOfFuel
  | n + 1, mb, size => do
    if size > 0 then
      note (.tag mb)
      let tagSize := padded (← load32 m (mb + 4))
      let type ← load32 m mb
      if type = mbMemoryMap then parseMemoryMap m mb
      parseTags m n (mb + tagSize) ((size + 2 ^ 32 - tagSize) % 2 ^ 32)

def parseMultiboot (m : Memory) (fuel : Nat) : Parse Unit := do
  let size ← load32 m 0
  parseTags m fuel 8 ((size + 2 ^ 32 - 8) % 2 ^ 32)

structure Entry where
  base : Nat
  length : Nat
  type : Nat
  deriving DecidableEq, Repr

def Entry.usable (e : Entry) : Bool := e.type = mbRamAvailable ∨ e.type = mbRamAcpi

def Entry.area (e : Entry) : Area := ⟨e.base, (e.base + e.length) % wordSize⟩

def entryAt (m : Memory) (a : Nat) : Entry := ⟨load m 8 a, load m 8 (a + 8), load m 4 (a + 16)⟩

def entriesAt (m : Memory) (stride : Nat) : Nat → Nat → List (Nat × Entry)
  | 0, _ => []
  | n + 1, a => (a, entryAt m a) :: entriesAt m stride n (a + stride)

def entryLoads (a : Nat) : List Event := [.load (a + 16) 4, .load (a + 8) 8, .load a 8]

def areaEvent (a : Area) : Event := .addArea a.begin a.stop

def entryEvents (e : Nat × Entry) : List Event :=
  if e.2.usable then entryLoads e.1 ++ [areaEvent e.2.area] else [Event.load (e.1 + 16) 4]

def usableAreas (es : List Entry) : List Area := (es.filter Entry.usable).map Entry.area

def visited (log : List Event) : List Nat :=
  log.filterMap fun
    | .tag mb => some mb
    | _ => none

section fill
variable {m : Memory} {s : State} {map : MemoryMap} {a n : Nat}

theorem load32_eq (m : Memory) (a : Nat) (s : State) :
    load32 m a s = .ok (load m 4 a) (s.note (.load a 4)) := rfl

theorem load64_eq (m : Memory) (a : Nat) (s : State) :
    load64 m a s = .ok (load m 8 a) (s.note (.load a 8)) := rfl

theorem get_eq (s : State) : (get : Parse State) s = .ok s s := rfl

theorem note_eq (e : Event) (s : State) : note e s = .ok () (s.note e) := rfl

theorem update_some {f : MemoryMap → Option MemoryMap} (h : f s.map = some map) :
    update f s = .ok () { s with map } := by
  rw [update, bind_ok (get_eq s), h]
  rfl

theorem update_none {f : MemoryMap → Option MemoryMap} (h : f s.map = none) :
    update f s = .error .assertion s := by
  rw [update, bind_ok (get_eq s), h]
  rfl

theorem memMapAddArea_some {map₀ : MemoryMap} {log : List Event} {begin stop : Nat}
    (h : MemMap.addArea map₀ begin stop = some map) :
    memMapAddArea begin stop ⟨map₀, log⟩ = .ok () ⟨map, log ++ [Event.addArea begin stop]⟩ := by
  rw [memMapAddArea, bind_ok (note_eq _ _)]
  exact update_some h

theorem memMapAddArea_none {map₀ : MemoryMap} {log : List Event} {begin stop : Nat}
    (h : MemMap.addArea map₀ begin stop = none) :
    memMapAddArea begin stop ⟨map₀, log⟩ =
      .error .assertion ⟨map₀, log ++ [Event.addArea begin stop]⟩ := by
  rw [memMapAddArea, bind_ok (note_eq _ _)]
  exact update_none h

theorem memMapSanitize_some {map₀ : MemoryMap} {log : List Event}
    (h : MemMap.sanitize map₀ = some map) :
    memMapSanitize ⟨map₀, log⟩ = .ok () ⟨map, log ++ [Event.sanitize]⟩ := by
  rw [memMapSanitize, bind_ok (note_eq _ _)]
  exact update_some h

theorem usableAreas_cons (e : Entry) (es : List Entry) :
    usableAreas (e :: es) = if e.usable then e.area :: usableAreas es else usableAreas es := by
  rw [usableAreas, List.filter_cons]
  split <;> rfl

theorem usable_entryAt : (entryAt m a).usable = true ↔
    load m 4 (a + 16) = mbRamAvailable ∨ load m 4 (a + 16) = mbRamAcpi := decide_eq_true_iff

theorem fillEntries_usable (h : (entryAt m a).usable = true) : fillEntries m (n + 1) a s =
    (memMapAddArea (entryAt m a).area.begin (entryAt m a).area.stop >>= fun _ =>
      fillEntries m n (a + 24))
        ⟨s.map, s.log ++ entryLoads a⟩ := by
  have hlog : ((s.note (.load (a + 16) 4)).note (.load (a + 8) 8)).note (.load a 8) =
      ⟨s.map, s.log ++ entryLoads a⟩ := by
    simp [State.note, entryLoads]
  rw [fillEntries, bind_ok (load32_eq m (a + 16) s), if_pos (usable_entryAt.mp h),
    bind_ok (load64_eq m (a + 8) _), bind_ok (load64_eq m a _), hlog]
  rfl

theorem fillEntries_unusable (h : (entryAt m a).usable = false) :
    fillEntries m (n + 1) a s = fillEntries m n (a + 24) (s.note (.load (a + 16) 4)) := by
  have htype : ¬(load m 4 (a + 16) = mbRamAvailable ∨ load m 4 (a + 16) = mbRamAcpi) :=
    fun ht => Bool.false_ne_true (h.symm.trans (usable_entryAt.mpr ht))
  rw [fillEntries, bind_ok (load32_eq m (a + 16) s), if_neg htype]
  rfl

def areasAt (m : Memory) (stride n a : Nat) : List Area :=
  usableAreas ((entriesAt m stride n a).map Prod.snd)

def fillEvents (m : Memory) (stride n a : Nat) : List Event :=
  (entriesAt m stride n a).flatMap entryEvents

theorem areasAt_usable {stride : Nat} (h : (entryAt m a).usable = true) :
    areasAt m stride (n + 1) a = (entryAt m a).area :: areasAt m stride n (a + stride) := by
  rw [areasAt, entriesAt, List.map_cons, usableAreas_cons, if_pos h, areasAt]

theorem areasAt_unusable {stride : Nat} (h : (entryAt m a).usable = false) :
    areasAt m stride (n + 1) a = areasAt m stride n (a + stride) := by
  rw [areasAt, entriesAt, List.map_cons, usableAreas_cons, if_neg (Bool.eq_false_iff.mp h), areasAt]

theorem fillEvents_succ (stride : Nat) : fillEvents m stride (n + 1) a =
    entryEvents (a, entryAt m a) ++ fillEvents m stride n (a + stride) := rfl

theorem entryEvents_usable (h : (entryAt m a).usable = true) :
    entryEvents (a, entryAt m a) = entryLoads a ++ [areaEvent (entryAt m a).area] := if_pos h

theorem entryEvents_unusable (h : (entryAt m a).usable = false) :
    entryEvents (a, entryAt m a) = [Event.load (a + 16) 4] := if_neg (Bool.eq_false_iff.mp h)

theorem fillEntries_some (h : addAreas s.map (areasAt m 24 n a) = some map) :
    fillEntries m n a s = .ok () ⟨map, s.log ++ fillEvents m 24 n a⟩ := by
  induction n generalizing a s with
  | zero =>
    obtain rfl : s.map = map := Option.some.inj h
    rw [fillEvents, entriesAt, List.flatMap_nil, List.append_nil]
    rfl
  | succ n ih =>
    rw [fillEvents_succ]
    cases hu : (entryAt m a).usable with
    | true =>
      rw [areasAt_usable hu, addAreas] at h
      obtain ⟨map₁, hadd, hrest⟩ := Option.bind_eq_some_iff.mp h
      rw [fillEntries_usable hu, bind_ok (memMapAddArea_some hadd), entryEvents_usable hu,
        ← List.append_assoc, ← List.append_assoc]
      exact ih hrest
    | false =>
      rw [areasAt_unusable hu] at h
      rw [fillEntries_unusable hu, entryEvents_unusable hu, ← List.append_assoc]
      exact ih h

theorem visited_append (log log' : List Event) :
    visited (log ++ log') = visited log ++ visited log' := List.filterMap_append

theorem visited_entryEvents (e : Nat × Entry) : visited (entryEvents e) = [] := by
  rw [entryEvents]
  split <;> rfl

theorem visited_fillEvents (stride : Nat) : visited (fillEvents m stride n a) = [] := by
  induction n generalizing a with
  | zero => rfl
  | succ n ih => rw [fillEvents_succ, visited_append, visited_entryEvents, ih, List.nil_append]

theorem fillEntries_none (h : addAreas s.map (areasAt m 24 n a) = none) :
    ∃ t, fillEntries m n a s = .error .assertion t ∧ visited t.log = visited s.log := by
  induction n generalizing a s with
  | zero => exact absurd h (Option.some_ne_none _)
  | succ n ih =>
    cases hu : (entryAt m a).usable with
    | true =>
      rw [areasAt_usable hu, addAreas] at h
      rw [fillEntries_usable hu]
      cases hadd : MemMap.addArea s.map (entryAt m a).area.begin (entryAt m a).area.stop with
      | none =>
        refine ⟨_, bind_error (memMapAddArea_none hadd), ?_⟩
        rw [visited_append, visited_append]
        exact (List.append_nil _).trans (List.append_nil _)
      | some map₁ =>
        rw [hadd] at h
        rw [bind_ok (memMapAddArea_some hadd)]
        obtain ⟨t, hrun, ht⟩ := ih (s := ⟨map₁, _⟩) h
        refine ⟨t, hrun, ht.trans ?_⟩
        rw [visited_append, visited_append]
        exact (List.append_nil _).trans (List.append_nil _)
    | false =>
      rw [areasAt_unusable hu] at h
      rw [fillEntries_unusable hu]
      obtain ⟨t, hrun, ht⟩ := ih (s := s.note (.load (a + 16) 4)) h
      refine ⟨t, hrun, ht.trans ?_⟩
      rw [State.note, visited_append]
      exact List.append_nil _

end fill

section tags
variable {m : Memory} {s : State} {map : MemoryMap} {mb n size : Nat}

def mapLoads (mb : Nat) : List Event := [.load (mb + 4) 4, .load (mb + 8) 4]

def entryCount (m : Memory) (mb : Nat) : Nat :=
  (toInt ((load m 4 (mb + 4) + wordSize - sizeofMemmap) % wordSize / load m 4 (mb + 8))).toNat

theorem fillMemoryMap_pos (h : load m 4 (mb + 8) ≠ 0) : fillMemoryMap m mb s =
    fillEntries m (entryCount m mb) (mb + 16)
      ⟨s.map, s.log ++ mapLoads mb⟩ := by
  have hlog : (s.note (.load (mb + 4) 4)).note (.load (mb + 8) 4) =
      ⟨s.map, s.log ++ mapLoads mb⟩ := by
    simp [State.note, mapLoads]
  rw [fillMemoryMap, bind_ok (load32_eq m _ s), bind_ok (load32_eq m _ _), if_neg h, hlog]
  rfl

def mapAfter (m : Memory) (mb : Nat) (map : MemoryMap) : Option MemoryMap :=
  if load m 4 (mb + 8) = 0 then none
  else (addAreas map (areasAt m 24 (entryCount m mb) (mb + 16))).bind MemMap.sanitize

def mapEvents (m : Memory) (mb : Nat) : List Event :=
  mapLoads mb ++ fillEvents m 24 (entryCount m mb) (mb + 16) ++ [Event.sanitize]

theorem parseMemoryMap_some (h : mapAfter m mb s.map = some map) :
    parseMemoryMap m mb s = .ok () ⟨map, s.log ++ mapEvents m mb⟩ := by
  rw [mapAfter] at h
  split at h
  next => exact absurd h (Option.some_ne_none _).symm
  next hne =>
    obtain ⟨map₁, hadd, hsan⟩ := Option.bind_eq_some_iff.mp h
    rw [parseMemoryMap, bind_ok ((fillMemoryMap_pos hne).trans (fillEntries_some hadd)), mapEvents,
      ← List.append_assoc, ← List.append_assoc]
    exact memMapSanitize_some hsan

def handleTag (m : Memory) (mb : Nat) (map : MemoryMap) : Option MemoryMap :=
  if load m 4 mb = mbMemoryMap then mapAfter m mb map else some map

def tagLoads (mb : Nat) : List Event := [.tag mb, .load (mb + 4) 4, .load mb 4]

def tagEvents (m : Memory) (mb : Nat) : List Event :=
  tagLoads mb ++ if load m 4 mb = mbMemoryMap then mapEvents m mb else []

def tagSize (m : Memory) (mb : Nat) : Nat := padded (load m 4 (mb + 4))

def remainder (m : Memory) (mb size : Nat) : Nat := (size + 2 ^ 32 - tagSize m mb) % 2 ^ 32

theorem parseTags_succ (hs : 0 < size) : parseTags m (n + 1) mb size s =
    ((if load m 4 mb = mbMemoryMap then parseMemoryMap m mb else pure ()) >>= fun _ =>
      parseTags m n (mb + tagSize m mb) (remainder m mb size))
        ⟨s.map, s.log ++ tagLoads mb⟩ := by
  have hlog : ((s.note (.tag mb)).note (.load (mb + 4) 4)).note (.load mb 4) =
      ⟨s.map, s.log ++ tagLoads mb⟩ := by
    simp [State.note, tagLoads]
  rw [parseTags, if_pos hs, bind_ok (note_eq _ s), bind_ok (load32_eq m (mb + 4) _),
    bind_ok (load32_eq m mb _), hlog]
  split <;> rfl

theorem parseTags_some (hs : 0 < size) (h : handleTag m mb s.map = some map) :
    parseTags m (n + 1) mb size s =
      parseTags m n (mb + tagSize m mb) (remainder m mb size) ⟨map, s.log ++ tagEvents m mb⟩ := by
  rw [parseTags_succ hs, tagEvents]
  rw [handleTag] at h
  split at h
  next ht =>
    rw [if_pos ht, if_pos ht, ← List.append_assoc]
    exact bind_ok (parseMemoryMap_some h)
  next ht =>
    obtain rfl : s.map = map := Option.some.inj h
    rw [if_neg ht, if_neg ht, List.append_nil]
    rfl

theorem visited_tagEvents (m : Memory) (mb : Nat) : visited (tagEvents m mb) = [mb] := by
  rw [tagEvents, visited_append]
  split
  next =>
    rw [mapEvents, visited_append, visited_append, visited_fillEvents]
    rfl
  next => rfl

end tags

end Lasagne.Multiboot
