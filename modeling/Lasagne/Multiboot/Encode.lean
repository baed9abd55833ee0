import Mathlib
import Lasagne.Multiboot.Parse

namespace Lasagne.Multiboot
open CInt MemMap ByteMemory LittleEndian StateRun

structure RawEntry where
  base : BitVec 64
  length : BitVec 64
  type : BitVec 32
  reserved : BitVec 32
  deriving DecidableEq, Repr

-- the bytes after the size field, with the padding behind a tag of another type
inductive Tag where
  | memoryMap (version : BitVec 32) (entries : List RawEntry)
  | other (type : BitVec 32) (body padding : List (BitVec 8))
  deriving DecidableEq, Repr

def RawEntry.entry (e : RawEntry) : Entry := ⟨e.base.toNat, e.length.toNat, e.type.toNat⟩

def RawEntry.encode (e : RawEntry) : List (BitVec 8) :=
  bytes 8 e.base.toNat ++ bytes 8 e.length.toNat ++ bytes 4 e.type.toNat ++
    bytes 4 e.reserved.toNat

def Tag.encode : Tag → List (BitVec 8)
  | .memoryMap version entries =>
    bytes 4 mbMemoryMap ++ bytes 4 (16 + 24 * entries.length) ++ bytes 4 24 ++
      bytes 4 version.toNat ++ entries.flatMap RawEntry.encode
  | .other type body padding => bytes 4 type.toNat ++ bytes 4 (8 + body.length) ++ body ++ padding

def Tag.Padded : Tag → Prop
  | .memoryMap _ _ => True
  | .other type body padding =>
    type.toNat ≠ mbMemoryMap ∧ padding.length < 8 ∧ 8 ∣ 8 + body.length + padding.length

def totalOf (tags : List Tag) : Nat := 8 + (tags.map fun t => t.encode.length).sum

def encodeBlock (reserved : BitVec 32) (tags : List Tag) : List (BitVec 8) :=
  bytes 4 (totalOf tags) ++ bytes 4 reserved.toNat ++ tags.flatMap Tag.encode

def offsets : Nat → List Tag → List Nat
  | _, [] => []
  | mb, t :: ts => mb :: offsets (mb + t.encode.length) ts

def Tag.areas : Tag → List Area
  | .memoryMap _ entries => usableAreas (entries.map RawEntry.entry)
  | .other _ _ _ => []

def Tag.calls : Tag → List Event
  | .memoryMap version entries =>
    (Tag.memoryMap version entries).areas.map areaEvent ++ [Event.sanitize]
  | .other _ _ _ => []

def isCall : Event → Bool
  | .addArea _ _ => true
  | .sanitize => true
  | _ => false

def calls (log : List Event) : List Event := log.filter isCall

def Inside (n : Nat) (log : List Event) : Prop := ∀ a width, .load a width ∈ log → a + width ≤ n

def Tag.handle : Tag → MemoryMap → Option MemoryMap
  | .memoryMap version entries, map =>
    (addAreas map (Tag.memoryMap version entries).areas).bind MemMap.sanitize
  | .other _ _ _, map => some map

def Tag.Usable : Tag → Prop
  | .memoryMap _ entries =>
    (∀ e ∈ entries, e.entry.usable = true →
      0 < e.length.toNat ∧ e.base.toNat + e.length.toNat < 2 ^ 64) ∧
    ∃ e ∈ entries, e.entry.usable = true
  | .other _ _ _ => True

def LongEnough : MemoryMap → List Tag → Prop
  | _, [] => True
  | map, t :: ts =>
    (∀ map', addAreas map t.areas = some map' → ∀ a ∈ map'.area, (alignArea a).isSome) ∧
      ∀ map', t.handle map = some map' → LongEnough map' ts

section entries
variable {m : Memory} {a : Nat} {es : List RawEntry}

theorem length_encode_entry (e : RawEntry) : e.encode.length = 24 := by
  simp [RawEntry.encode]

theorem length_encode_entries (es : List RawEntry) :
    (es.flatMap RawEntry.encode).length = 24 * es.length := by
  induction es with
  | nil => rfl
  | cons e es ih =>
    rw [List.flatMap_cons, List.length_append, ih, length_encode_entry, List.length_cons]
    omega

theorem entryAt_encode {e : RawEntry} (h : Spells m a e.encode) : entryAt m a = e.entry := by
  simp only [RawEntry.encode, spells_append, List.length_append, length_bytes] at h
  obtain ⟨⟨⟨hbase, hlength⟩, htype⟩, -⟩ := h
  rw [entryAt, hbase.load e.base.isLt, hlength.load e.length.isLt, htype.load e.type.isLt]
  rfl

theorem entriesAt_encode (h : Spells m a (es.flatMap RawEntry.encode)) :
    (entriesAt m 24 es.length a).map Prod.snd = es.map RawEntry.entry := by
  induction es generalizing a with
  | nil => rfl
  | cons e es ih =>
    rw [List.flatMap_cons, spells_append, length_encode_entry] at h
    rw [List.length_cons, entriesAt, List.map_cons, List.map_cons, ih h.2, entryAt_encode h.1]

end entries

section events
variable {m : Memory} {stride n k a mb : Nat} {log log' : List Event}

theorem calls_append : calls (log ++ log') = calls log ++ calls log' := List.filter_append _ _

theorem Inside.append (h : Inside n log) (h' : Inside n log') : Inside n (log ++ log') := by
  intro a width ha
  rcases List.mem_append.mp ha with ha | ha
  · exact h a width ha
  · exact h' a width ha

theorem Inside.mono (h : Inside n log) (hk : n ≤ k) : Inside k log :=
  fun a width ha => (h a width ha).trans hk

theorem calls_fillEvents (stride n a : Nat) :
    calls (fillEvents m stride n a) = (areasAt m stride n a).map areaEvent := by
  induction n generalizing a with
  | zero => rfl
  | succ n ih =>
    rw [fillEvents_succ, calls_append, ih]
    cases hu : (entryAt m a).usable with
    | true =>
      rw [entryEvents_usable hu, areasAt_usable hu]
      rfl
    | false =>
      rw [entryEvents_unusable hu, areasAt_unusable hu]
      rfl

theorem inside_entryEvents (a : Nat) : Inside (a + 24) (entryEvents (a, entryAt m a)) := by
  intro x width hx
  cases hu : (entryAt m a).usable with
  | true =>
    rw [entryEvents_usable hu] at hx
    simp only [entryLoads, areaEvent, List.cons_append, List.nil_append, List.mem_cons,
      Event.load.injEq, reduceCtorEq, List.not_mem_nil, or_false] at hx
    omega
  | false =>
    rw [entryEvents_unusable hu] at hx
    simp only [List.mem_singleton, Event.load.injEq] at hx
    omega

theorem inside_fillEvents (n a : Nat) : Inside (a + 24 * n) (fillEvents m 24 n a) := by
  induction n generalizing a with
  | zero => exact fun x width hx => absurd hx List.not_mem_nil
  | succ n ih =>
    rw [fillEvents_succ]
    exact ((inside_entryEvents a).mono (by omega)).append ((ih (a + 24)).mono (by omega))

theorem inside_tagLoads (mb : Nat) : Inside (mb + 8) (tagLoads mb) := by
  intro x width hx
  simp only [tagLoads, List.mem_cons, Event.load.injEq, reduceCtorEq, List.not_mem_nil, or_false,
    false_or] at hx
  omega

theorem inside_mapEvents (m : Memory) (mb : Nat) :
    Inside (mb + 16 + 24 * entryCount m mb) (mapEvents m mb) := by
  rw [mapEvents]
  refine .append (.append ?_ (inside_fillEvents _ _)) ?_
  · intro x width hx
    simp only [mapLoads, List.mem_cons, Event.load.injEq, List.not_mem_nil, or_false] at hx
    omega
  · intro x width hx
    cases List.mem_singleton.mp hx

theorem calls_mapEvents (m : Memory) (mb : Nat) : calls (mapEvents m mb) =
    (areasAt m 24 (entryCount m mb) (mb + 16)).map areaEvent ++ [Event.sanitize] := by
  have hloads : calls (mapLoads mb) = [] := rfl
  have hsanitize : calls [Event.sanitize] = [Event.sanitize] := rfl
  rw [mapEvents, calls_append, calls_append, calls_fillEvents, hloads, hsanitize, List.nil_append]

end events

structure Read (m : Memory) (mb : Nat) (t : Tag) : Prop where
  size : tagSize m mb = t.encode.length
  handled : ∀ map, handleTag m mb map = t.handle map
  called : calls (tagEvents m mb) = t.calls
  inside : Inside (mb + t.encode.length) (tagEvents m mb)

section tags
variable {m : Memory} {mb : Nat} {version : BitVec 32} {entries : List RawEntry}

theorem length_encode_memoryMap :
    (Tag.memoryMap version entries).encode.length = 16 + 24 * entries.length := by
  simp only [Tag.encode, List.length_append, length_bytes, length_encode_entries]

theorem padded_of_dvd {n : Nat} (h : 8 ∣ n) : padded n = n := by
  rw [padded, if_neg (by omega)]

theorem padded_of_padding {n p : Nat} (hp : p < 8) (h : 8 ∣ n + p) (hlt : n + p < 2 ^ 32) :
    padded n = n + p := by
  rw [padded]
  split <;> omega

theorem read_memoryMap (hlt : 16 + 24 * entries.length < 2 ^ 32)
    (h : Spells m mb (Tag.memoryMap version entries).encode) :
    Read m mb (.memoryMap version entries) := by
  simp only [Tag.encode, spells_append, List.length_append, length_bytes] at h
  obtain ⟨⟨⟨⟨htype, hsize⟩, hentry⟩, -⟩, hentries⟩ := h
  have htype := htype.load (by decide)
  have hsize := hsize.load hlt
  have hentry := hentry.load (by decide)
  have hcount : entryCount m mb = entries.length := by
    have hsub : (16 + 24 * entries.length + wordSize - sizeofMemmap) % wordSize / 24 =
        entries.length := by
      simp only [wordSize, sizeofMemmap]
      omega
    rw [entryCount, hsize, hentry, hsub, toInt_of_lt (by omega), Int.toNat_natCast]
  have hareas : areasAt m 24 (entryCount m mb) (mb + 16) = (Tag.memoryMap version entries).areas := by
    rw [areasAt, hcount, entriesAt_encode hentries, Tag.areas]
  refine ⟨?_, fun map => ?_, ?_, ?_⟩
  · rw [tagSize, hsize, padded_of_dvd (by omega), length_encode_memoryMap]
  · rw [handleTag, if_pos htype, mapAfter, hentry, if_neg (by decide), hareas, Tag.handle]
  · have hloads : calls (tagLoads mb) = [] := rfl
    rw [tagEvents, if_pos htype, calls_append, calls_mapEvents, hareas, Tag.calls, hloads,
      List.nil_append]
  · rw [tagEvents, if_pos htype, length_encode_memoryMap]
    have hmap := inside_mapEvents m mb
    rw [hcount] at hmap
    exact ((inside_tagLoads mb).mono (by omega)).append (hmap.mono (by omega))

theorem read_other {type : BitVec 32} {body padding : List (BitVec 8)}
    (hp : (Tag.other type body padding).Padded)
    (hlt : (Tag.other type body padding).encode.length < 2 ^ 32)
    (h : Spells m mb (Tag.other type body padding).encode) :
    Read m mb (.other type body padding) := by
  obtain ⟨hne, hpad, hdvd⟩ := hp
  have hlength : (Tag.other type body padding).encode.length =
      8 + body.length + padding.length := by
    simp only [Tag.encode, List.length_append, length_bytes]
  rw [hlength] at hlt
  simp only [Tag.encode, spells_append, List.length_append, length_bytes] at h
  obtain ⟨⟨⟨htype, hsize⟩, -⟩, -⟩ := h
  have htype := htype.load type.isLt
  have hsize := hsize.load (by omega)
  rw [← htype] at hne
  refine ⟨?_, fun map => ?_, ?_, ?_⟩
  · rw [tagSize, hsize, padded_of_padding hpad hdvd hlt, hlength]
  · rw [handleTag, if_neg hne, Tag.handle]
  · rw [tagEvents, if_neg hne, Tag.calls]
    rfl
  · rw [tagEvents, if_neg hne, List.append_nil, hlength]
    exact (inside_tagLoads mb).mono (by omega)

end tags

section walk
variable {m : Memory} {mb : Nat} {t : Tag} {tags : List Tag} {s : State} {map : MemoryMap}

theorem length_encode_pos (t : Tag) : 8 ≤ t.encode.length := by
  cases t with
  | memoryMap version entries =>
    rw [length_encode_memoryMap]
    omega
  | other type body padding =>
    simp only [Tag.encode, List.length_append, length_bytes]
    omega

theorem read_tag (hp : t.Padded) (hlt : t.encode.length < 2 ^ 32) (h : Spells m mb t.encode) :
    Read m mb t := by
  cases t with
  | memoryMap version entries =>
    rw [length_encode_memoryMap] at hlt
    exact read_memoryMap hlt h
  | other type body padding => exact read_other hp hlt h

theorem mem_areas {version : BitVec 32} {entries : List RawEntry} {a : Area} :
    a ∈ (Tag.memoryMap version entries).areas ↔
      ∃ e ∈ entries, e.entry.usable = true ∧ e.entry.area = a := by
  simp only [Tag.areas, usableAreas, List.mem_map, List.mem_filter]
  constructor
  · rintro ⟨_, ⟨⟨e, he, rfl⟩, hu⟩, ha⟩
    exact ⟨e, he, hu, ha⟩
  · rintro ⟨e, he, hu, ha⟩
    exact ⟨e.entry, ⟨⟨e, he, rfl⟩, hu⟩, ha⟩

theorem Tag.handle_isSome (hu : t.Usable)
    (hlong : ∀ map', addAreas map t.areas = some map' → ∀ a ∈ map'.area, (alignArea a).isSome) :
    ∃ map', t.handle map = some map' := by
  cases t with
  | other type body padding => exact ⟨map, rfl⟩
  | memoryMap version entries =>
    obtain ⟨hproper, e, he, heu⟩ := hu
    have hall : ∀ a ∈ (Tag.memoryMap version entries).areas, a.Proper := by
      intro a ha
      obtain ⟨e, he, heu, rfl⟩ := mem_areas.mp ha
      obtain ⟨hpos, hwrap⟩ := hproper e he heu
      change e.base.toNat < (e.base.toNat + e.length.toNat) % wordSize
      rw [wordSize, Nat.mod_eq_of_lt hwrap]
      omega
    obtain ⟨map₁, hadd⟩ := (addAreas_isSome map _).mpr hall
    have hne : (Tag.memoryMap version entries).areas ≠ [] :=
      List.ne_nil_of_mem (mem_areas.mpr ⟨e, he, heu, rfl⟩)
    obtain ⟨map', hsan⟩ := sanitize_isSome (addAreas_ne_nil hadd hne) (hlong map₁ hadd)
    exact ⟨map', by rw [Tag.handle, hadd, Option.bind_some, hsan]⟩

theorem parseTags_walks (hpad : ∀ t ∈ tags, t.Padded) (hu : ∀ t ∈ tags, t.Usable)
    (hlong : LongEnough s.map tags) (hlt : (tags.map fun t => t.encode.length).sum < 2 ^ 32)
    (hm : Spells m mb (tags.flatMap Tag.encode)) :
    ∃ map log, parseTags m (tags.length + 1) mb (tags.map fun t => t.encode.length).sum s =
        .ok () ⟨map, s.log ++ log⟩ ∧
      visited log = offsets mb tags ∧ calls log = tags.flatMap Tag.calls ∧
      Inside (mb + (tags.map fun t => t.encode.length).sum) log := by
  induction tags generalizing mb s with
  | nil =>
    refine ⟨s.map, [], ?_, rfl, rfl, fun a width ha => absurd ha List.not_mem_nil⟩
    rw [List.append_nil]
    rfl
  | cons t ts ih =>
    rw [List.flatMap_cons, spells_append] at hm
    rw [List.map_cons, List.sum_cons] at hlt ⊢
    have hpos := length_encode_pos t
    have hread := read_tag (hpad t List.mem_cons_self) (by omega) hm.1
    obtain ⟨map₁, hhandle⟩ := Tag.handle_isSome (hu t List.mem_cons_self) hlong.1
    have hrest : remainder m mb (t.encode.length + (ts.map fun t => t.encode.length).sum) =
        (ts.map fun t => t.encode.length).sum := by
      rw [remainder, hread.size]
      omega
    obtain ⟨map, log, hrun, hvisited, hcalls, hinside⟩ := ih (s := ⟨map₁, s.log ++ tagEvents m mb⟩)
      (fun u h => hpad u (List.mem_cons_of_mem t h)) (fun u h => hu u (List.mem_cons_of_mem t h))
      (hlong.2 map₁ hhandle) (by omega) hm.2
    refine ⟨map, tagEvents m mb ++ log, ?_, ?_, ?_, ?_⟩
    · rw [List.length_cons, parseTags_some (by omega) ((hread.handled s.map).trans hhandle), hrest,
        hread.size, hrun, List.append_assoc]
    · rw [visited_append, visited_tagEvents, hvisited]
      rfl
    · rw [calls_append, hread.called, hcalls]
      rfl
    · exact (hread.inside.mono (by omega)).append (hinside.mono (by omega))

theorem parseMultiboot_walks (m : Memory) (map : MemoryMap) (reserved : BitVec 32)
    (tags : List Tag) (hpad : ∀ t ∈ tags, t.Padded) (htotal : totalOf tags < 2 ^ 32)
    (hm : Spells m 0 (encodeBlock reserved tags)) (hu : ∀ t ∈ tags, t.Usable)
    (hlong : LongEnough map tags) :
    ∃ map' log, parseMultiboot m (tags.length + 1) ⟨map, []⟩ = .ok () ⟨map', log⟩ ∧
      visited log = offsets 8 tags ∧ calls log = tags.flatMap Tag.calls ∧
      ∀ a width, .load a width ∈ log → a + width ≤ totalOf tags := by
  simp only [encodeBlock, spells_append, List.length_append, length_bytes] at hm
  obtain ⟨⟨htot, -⟩, htags⟩ := hm
  have htot : load m 4 0 = totalOf tags := htot.load htotal
  have hsize : (totalOf tags + 2 ^ 32 - 8) % 2 ^ 32 = (tags.map fun t => t.encode.length).sum := by
    rw [totalOf] at htotal ⊢
    omega
  obtain ⟨map', log, hrun, hvisited, hcalls, hinside⟩ := parseTags_walks
    (s := ⟨map, [Event.load 0 4]⟩) hpad hu hlong (by rw [totalOf] at htotal; omega) htags
  refine ⟨map', [Event.load 0 4] ++ log, ?_, ?_, ?_, ?_⟩
  · rw [parseMultiboot, bind_ok (load32_eq m 0 _), htot, hsize]
    exact hrun
  · rw [visited_append, hvisited]
    rfl
  · rw [calls_append, hcalls]
    rfl
  · refine Inside.append (fun a width ha => ?_) hinside
    simp only [List.mem_singleton, Event.load.injEq] at ha
    rw [totalOf]
    omega

end walk

section sample

def sampleTags : List Tag :=
  [.other 1 [0x6C, 0x61, 0] [0, 0, 0, 0, 0],
    .memoryMap 0 [⟨0, 0x9F000, 1, 0⟩, ⟨0x9F000, 0x61000, 2, 0⟩, ⟨0x100000, 0x7EE0000, 3, 0⟩],
    .other 0 [] []]

def sampleBlock : Memory := fun a => (encodeBlock 0 sampleTags).getD a 0

theorem LongEnough.cons {map : MemoryMap} {t : Tag} {ts : List Tag} (map₁ map₂ : MemoryMap)
    (hadd : addAreas map t.areas = some map₁) (hlong : ∀ a ∈ map₁.area, (alignArea a).isSome)
    (hhandle : t.handle map = some map₂) (h : LongEnough map₂ ts) : LongEnough map (t :: ts) := by
  constructor
  · intro map' h'
    obtain rfl : map₁ = map' := Option.some.inj (hadd.symm.trans h')
    exact hlong
  · intro map' h'
    obtain rfl : map₂ = map' := Option.some.inj (hhandle.symm.trans h')
    exact h

theorem sampleTags_longEnough : LongEnough empty sampleTags := by
  refine .cons empty empty rfl (by decide) rfl ?_
  refine .cons ⟨[⟨0, 0x9F000⟩, ⟨0x100000, 0x7FE0000⟩], 0⟩
    ⟨[⟨0, 0x9F000⟩, ⟨0x100000, 0x7FE0000⟩], 0x7FE0000⟩ (by decide) (by decide) (by decide) ?_
  exact .cons _ _ rfl (by decide) rfl trivial

theorem parseMultiboot_walks_sample :
    ∃ map' log, parseMultiboot sampleBlock 4 ⟨empty, []⟩ = .ok () ⟨map', log⟩ ∧
      visited log = offsets 8 sampleTags ∧ calls log = sampleTags.flatMap Tag.calls ∧
      ∀ a width, .load a width ∈ log → a + width ≤ totalOf sampleTags := by
  refine parseMultiboot_walks sampleBlock empty 0 sampleTags ?_ (by decide)
    (spells_getD [] (encodeBlock 0 sampleTags)) ?_ sampleTags_longEnough
  · intro t ht
    simp only [sampleTags, List.mem_cons, List.not_mem_nil, or_false] at ht
    rcases ht with rfl | rfl | rfl
    · exact ⟨by decide, by decide, by decide⟩
    · trivial
    · exact ⟨by decide, by decide, by decide⟩
  · intro t ht
    simp only [sampleTags, List.mem_cons, List.not_mem_nil, or_false] at ht
    rcases ht with rfl | rfl | rfl
    · trivial
    · exact ⟨by decide, _, List.mem_cons_self, by decide⟩
    · trivial

end sample

end Lasagne.Multiboot
