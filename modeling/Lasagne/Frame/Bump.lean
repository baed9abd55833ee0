import Mathlib
import Lasagne.Frame.Allocator

namespace Lasagne.Frame
open CInt MemMap

def pages (lo hi : Nat) : List Nat := (List.range ((hi - lo) / pageSize)).map (lo + pageSize * ·)

-- the pages of [begin, stop) that the map calls usable, in rising order
def usable (begin stop : Nat) (areas : List Area) : List Nat :=
  areas.flatMap fun area => pages (max begin area.begin) (min stop area.stop)

structure Regular (areas : List Area) : Prop where
  sorted : areas.Pairwise fun a b => a.stop ≤ b.begin
  proper : ∀ a ∈ areas, a.begin < a.stop
  aligned : ∀ a ∈ areas, a.begin % pageSize = 0 ∧ a.stop % pageSize = 0
  word : ∀ a ∈ areas, a.stop < wordSize

-- what a 64-bit difference read as signed still gets right
def Near (begin stop : Nat) (area : Area) : Prop := max begin area.begin ≤ min stop area.stop + 2 ^ 63

def Short (begin stop : Nat) (area : Area) : Prop := min stop area.stop < max begin area.begin + 2 ^ 63

section pages
variable {lo hi f : Nat}

theorem mem_pages : f ∈ pages lo hi ↔ lo ≤ f ∧ f + pageSize ≤ hi ∧ (f - lo) % pageSize = 0 := by
  rw [pages, pageSize, List.mem_map]
  constructor
  · rintro ⟨i, hi, rfl⟩
    rw [List.mem_range] at hi
    omega
  · rintro ⟨h1, h2, h3⟩
    refine ⟨(f - lo) / 4096, List.mem_range.mpr ?_, ?_⟩ <;> omega

theorem pages_nil (h : hi ≤ lo) : pages lo hi = [] := by
  rw [pages, Nat.sub_eq_zero_of_le h]
  rfl

theorem pages_cons (h : lo + pageSize ≤ hi) : pages lo hi = lo :: pages (lo + pageSize) hi := by
  have hlen : (hi - lo) / pageSize = (hi - (lo + pageSize)) / pageSize + 1 := by
    rw [pageSize] at *
    omega
  rw [pages, hlen, List.range_succ_eq_map, List.map_cons, List.map_map, pages]
  congr 1
  refine List.map_congr_left fun i _ => ?_
  rw [Function.comp, pageSize]
  omega

theorem pages_sorted : (pages lo hi).Pairwise (· < ·) := by
  rw [pages, List.pairwise_map]
  refine List.Pairwise.imp ?_ List.pairwise_lt_range
  intro i j hij
  rw [pageSize]
  omega

theorem length_pages : (pages lo hi).length = (hi - lo) / pageSize := by
  rw [pages, List.length_map, List.length_range]

end pages

section usable
variable {areas : List Area} {area : Area} {begin begin' stop f : Nat}

theorem Regular.tail (h : Regular (area :: areas)) : Regular areas :=
  ⟨(List.pairwise_cons.mp h.sorted).2, fun a ha => h.proper a (by simp [ha]),
    fun a ha => h.aligned a (by simp [ha]), fun a ha => h.word a (by simp [ha])⟩

theorem Regular.drop (h : Regular areas) (n : Nat) : Regular (areas.drop n) :=
  ⟨h.sorted.sublist (List.drop_sublist n areas), fun a ha => h.proper a (List.mem_of_mem_drop ha),
    fun a ha => h.aligned a (List.mem_of_mem_drop ha), fun a ha => h.word a (List.mem_of_mem_drop ha)⟩

theorem Regular.after (h : Regular (area :: areas)) : ∀ a ∈ areas, area.stop ≤ a.begin :=
  (List.pairwise_cons.mp h.sorted).1

theorem usable_cons : usable begin stop (area :: areas) =
    pages (max begin area.begin) (min stop area.stop) ++ usable begin stop areas := by
  rw [usable, List.flatMap_cons, usable]

theorem mem_usable : f ∈ usable begin stop areas ↔
    ∃ area ∈ areas, f ∈ pages (max begin area.begin) (min stop area.stop) :=
  List.mem_flatMap

theorem usable_raise (h : ∀ a ∈ areas, begin ≤ a.begin) (h' : ∀ a ∈ areas, begin' ≤ a.begin) :
    usable begin stop areas = usable begin' stop areas := by
  induction areas with
  | nil => rfl
  | cons a areas ih =>
    rw [usable_cons, usable_cons, max_eq_right (h a (by simp)), max_eq_right (h' a (by simp)),
      ih (fun x hx => h x (by simp [hx])) fun x hx => h' x (by simp [hx])]

theorem usable_nil (h : ∀ a ∈ areas, min stop a.stop ≤ max begin a.begin) :
    usable begin stop areas = [] := by
  rw [usable, List.flatMap_eq_nil_iff]
  exact fun a ha => pages_nil (h a ha)

theorem usable_sorted (h : Regular areas) : (usable begin stop areas).Pairwise (· < ·) := by
  induction areas with
  | nil => exact .nil
  | cons a areas ih =>
    rw [usable_cons, List.pairwise_append]
    refine ⟨pages_sorted, ih h.tail, fun f hf g hg => ?_⟩
    obtain ⟨b, hb, hg⟩ := mem_usable.mp hg
    have hab := h.after b hb
    rw [mem_pages, pageSize] at hf hg
    omega

theorem usable_length (h : Regular areas) :
    pageSize * (usable begin stop areas).length ≤ stop - begin := by
  induction areas generalizing begin with
  | nil => simp [usable]
  | cons a areas ih =>
    rw [usable_cons, List.length_append, length_pages, pageSize]
    have hpages := Nat.mul_div_le (min stop a.stop - max begin a.begin) 4096
    by_cases hb : begin ≤ a.stop
    · rw [usable_raise (fun x hx => hb.trans (h.after x hx)) h.after]
      have : pageSize * (usable a.stop stop areas).length ≤ stop - a.stop := ih h.tail
      rw [pageSize] at this
      omega
    · have : pageSize * (usable begin stop areas).length ≤ stop - begin := ih h.tail
      rw [pageSize] at this
      omega

theorem usable_inside (h : Regular areas) (hb : begin % pageSize = 0) (hf : f ∈ usable begin stop areas) :
    f % pageSize = 0 ∧ begin ≤ f ∧ f < stop ∧ ∃ a ∈ areas, a.begin ≤ f ∧ f + pageSize ≤ a.stop := by
  obtain ⟨a, ha, hf⟩ := mem_usable.mp hf
  obtain ⟨h1, h2, h3⟩ := mem_pages.mp hf
  have hal := (h.aligned a ha).1
  refine ⟨?_, ?_, ?_, a, ha, ?_, ?_⟩ <;> rw [pageSize] at * <;> omega

theorem usable_complete (h : Regular areas) (hb : begin % pageSize = 0) (hs : stop % pageSize = 0)
    (hf : f % pageSize = 0) (h1 : begin ≤ f) (h2 : f < stop)
    (ha : ∃ a ∈ areas, a.begin ≤ f ∧ f < a.stop) : f ∈ usable begin stop areas := by
  obtain ⟨a, ha, h3, h4⟩ := ha
  obtain ⟨h5, h6⟩ := h.aligned a ha
  refine mem_usable.mpr ⟨a, ha, mem_pages.mpr ⟨?_, ?_, ?_⟩⟩ <;> rw [pageSize] at * <;> omega

end usable

section counter
variable {areas : List Area} {area : Area} {begin stop : Nat}

theorem signed_diff {x y : Nat} (hx : x < wordSize) (hy : y < wordSize) (h : y ≤ x + 2 ^ 63) :
    x < y + 2 ^ 63 ∧ (BitVec.ofNat 64 x - BitVec.ofNat 64 y).toInt = (x : Int) - y ∨
      y + 2 ^ 63 ≤ x ∧ (BitVec.ofNat 64 x - BitVec.ofNat 64 y).toInt ≤ 0 := by
  rw [wordSize] at hx hy
  rw [BitVec.toInt_eq_toNat_cond, BitVec.toNat_sub, BitVec.toNat_ofNat, BitVec.toNat_ofNat,
    Nat.mod_eq_of_lt hx, Nat.mod_eq_of_lt hy]
  split <;> omega

theorem intersection_cases (hb : begin < wordSize) (hs : stop < wordSize) (ha : area.begin < wordSize)
    (he : area.stop < wordSize) (hn : Near begin stop area) :
    intersection begin stop area.begin area.stop = min stop area.stop - max begin area.begin ∨
      ¬ Short begin stop area ∧ intersection begin stop area.begin area.stop = 0 := by
  have hmax : (if begin > area.begin then begin else area.begin) = max begin area.begin := by
    split <;> omega
  have hmin : (if stop < area.stop then stop else area.stop) = min stop area.stop := by
    split <;> omega
  rw [intersection, hmax, hmin]
  rcases signed_diff (by omega) (by omega) hn with ⟨-, hdiff⟩ | ⟨hlong, hdiff⟩
  · refine .inl ?_
    simp only [hdiff]
    split <;> omega
  · exact .inr ⟨not_lt.mpr hlong, if_neg (not_lt.mpr hdiff)⟩

-- the byte counter never exceeds what the map has; it is exact unless an area is too long
theorem counted (acc : Nat) (h : Regular areas) (hb : begin % pageSize = 0) (hs : stop % pageSize = 0)
    (hbw : begin < wordSize) (hsw : stop < wordSize) (hn : ∀ a ∈ areas, Near begin stop a)
    (hacc : acc + pageSize * (usable begin stop areas).length < wordSize) :
    ∃ k, areas.foldl (fun free area =>
        (free + intersection begin stop area.begin area.stop) % wordSize) acc = acc + pageSize * k ∧
      k ≤ (usable begin stop areas).length ∧
      ((∀ a ∈ areas, Short begin stop a) → k = (usable begin stop areas).length) := by
  induction areas generalizing acc with
  | nil => exact ⟨0, rfl, le_rfl, fun _ => rfl⟩
  | cons a areas ih =>
    have hproper := h.proper a (by simp)
    have hword := h.word a (by simp)
    obtain ⟨h1, h2⟩ := h.aligned a (by simp)
    have hlen : (usable begin stop (a :: areas)).length =
        (min stop a.stop - max begin a.begin) / pageSize + (usable begin stop areas).length := by
      rw [usable_cons, List.length_append, length_pages]
    have hwhole : pageSize * ((min stop a.stop - max begin a.begin) / pageSize) =
        min stop a.stop - max begin a.begin := by
      rw [pageSize] at *
      omega
    rw [hlen, Nat.mul_add, hwhole] at hacc
    rw [List.foldl_cons, hlen]
    rcases intersection_cases hbw hsw (by omega) hword (hn a (by simp)) with heq | ⟨hlong, heq⟩
    · rw [heq, Nat.mod_eq_of_lt (by omega)]
      obtain ⟨k, hk, hle, hexact⟩ := ih (acc + (min stop a.stop - max begin a.begin)) h.tail
        (fun x hx => hn x (by simp [hx])) (by omega)
      refine ⟨(min stop a.stop - max begin a.begin) / pageSize + k, ?_, by omega, fun hall => ?_⟩
      · rw [hk, Nat.mul_add, hwhole, Nat.add_assoc]
      · rw [hexact fun x hx => hall x (by simp [hx])]
    · rw [heq, Nat.add_zero, Nat.mod_eq_of_lt (by omega)]
      obtain ⟨k, hk, hle, -⟩ := ih acc h.tail (fun x hx => hn x (by simp [hx])) (by omega)
      exact ⟨k, hk, hle.trans (Nat.le_add_left _ _), fun hall => absurd (hall a (by simp)) hlong⟩

end counter

def ahead (areas : List Area) (a : Allocator) : List Nat :=
  usable a.begin a.stop (areas.drop a.currentMapPosition)

structure Bump (areas : List Area) (a : Allocator) : Prop where
  aligned : a.begin % pageSize = 0
  inside : ∃ area rest, areas.drop a.currentMapPosition = area :: rest ∧ area.begin ≤ a.begin ∧
    a.begin ≤ area.stop

section bump
variable {map : MemoryMap} {areas rest : List Area} {area : Area} {a : Allocator}
  {begin stop position f : Nat} {fs : List Nat}

theorem usable_step (h : Regular (area :: rest)) (hb : begin % pageSize = 0) (hs : stop % pageSize = 0)
    (h1 : area.begin ≤ begin) (h2 : begin < area.stop) (h3 : begin < stop) :
    usable begin stop (area :: rest) = begin :: usable (begin + pageSize) stop (area :: rest) := by
  have hal := (h.aligned area (by simp)).2
  have hroom : begin + pageSize ≤ min stop area.stop := by
    rw [pageSize] at *
    omega
  have hpast : begin + pageSize ≤ area.stop := by omega
  rw [usable_cons, usable_cons, max_eq_left h1, max_eq_left (by omega), pages_cons hroom,
    List.cons_append, usable_raise (fun x hx => h2.le.trans (h.after x hx))
      fun x hx => hpast.trans (h.after x hx)]

theorem drop_cons (h : areas.drop position = area :: rest) :
    areas.getD position ⟨0, 0⟩ = area ∧ areas.drop (position + 1) = rest := by
  constructor
  · rw [List.getD_eq_getElem?_getD, ← List.head?_drop, h]
    rfl
  · rw [← List.tail_drop, h]
    rfl

theorem Bump.extend (b : Bump map.area a) (h : Regular map.area) (hs : a.stop % pageSize = 0)
    (hf : ahead map.area a = f :: fs) : ∃ begin position,
      extend map a = (f, { a with begin := begin, currentMapPosition := position }) ∧
      Bump map.area { a with begin := begin, currentMapPosition := position } ∧
      ahead map.area { a with begin := begin, currentMapPosition := position } = fs := by
  obtain ⟨hal, area, rest, hdrop, h1, h2⟩ := b
  obtain ⟨hget, hnext⟩ := drop_cons hdrop
  have hreg := h.drop a.currentMapPosition
  rw [hdrop] at hreg
  rw [ahead, hdrop] at hf
  have hbegin : a.begin < a.stop := by
    by_contra hge
    rw [usable_nil fun x _ => by omega] at hf
    exact absurd hf (by simp)
  by_cases hend : a.begin = area.stop
  · -- the pointer is at the end of its area and moves to the next one
    rw [usable_cons, pages_nil (by omega), List.nil_append] at hf
    cases rest with
    | nil => exact absurd hf (by simp [usable])
    | cons next rest =>
      obtain ⟨hget', -⟩ := drop_cons hnext
      have hproper := hreg.tail.proper next (by simp)
      have hsorted (x : Area) (hx : x ∈ next :: rest) : next.begin ≤ x.begin := by
        rcases List.mem_cons.mp hx with rfl | hx
        · exact le_rfl
        · exact hproper.le.trans (hreg.tail.after x hx)
      have hroom : next.begin < a.stop := by
        by_contra hge
        rw [usable_nil fun x hx => ?_] at hf
        · exact absurd hf (by simp)
        · have := hsorted x hx
          omega
      have hnal := hreg.tail.aligned next (by simp)
      rw [usable_raise (fun x hx => hend ▸ hreg.after x hx) hsorted,
        usable_step hreg.tail hnal.1 hs le_rfl hproper hroom] at hf
      obtain ⟨rfl, rfl⟩ := List.cons.inj hf
      refine ⟨next.begin + pageSize, a.currentMapPosition + 1, ?_, ⟨?_, next, rest, hnext, ?_, ?_⟩, ?_⟩
      · rw [Frame.extend, hget, if_pos hend, hget']
      · simp only [Nat.add_mod_right, hnal.1]
      · simp only [Nat.le_add_right]
      · simp only
        rw [pageSize] at *
        omega
      · rw [ahead, hnext]
  · have hlt : a.begin < area.stop := by omega
    rw [usable_step hreg hal hs h1 hlt hbegin] at hf
    obtain ⟨rfl, rfl⟩ := List.cons.inj hf
    have hsal := (hreg.aligned area (by simp)).2
    refine ⟨a.begin + pageSize, a.currentMapPosition, ?_, ⟨?_, area, rest, hdrop, ?_, ?_⟩, ?_⟩
    · rw [Frame.extend, hget, if_neg hend]
    · simp only [Nat.add_mod_right, hal]
    · simp only
      omega
    · simp only
      rw [pageSize] at *
      omega
    · rw [ahead, hdrop]

structure Initial (map : MemoryMap) (begin stop : Nat) (a : Allocator) : Prop where
  low : begin % pageSize = 0
  high : stop % pageSize = 0
  same : a.stop = stop
  count : a.count = 0
  window : current a = 0
  whole : ahead map.area a = usable begin stop map.area
  bump : ahead map.area a ≠ [] → Bump map.area a
  size : pageSize * (ahead map.area a).length ≤ a.size
  word : a.size < wordSize
  capacity : a.capacity = a.free
  free : ∃ k, a.free = pageSize * k ∧ k ≤ (ahead map.area a).length ∧
    ((∀ x ∈ map.area, Short begin stop x) → k = (ahead map.area a).length)

theorem findIdx_split (h : areas.findIdx? (fun area => begin < area.stop) = some position) :
    ∃ area rest, areas.drop position = area :: rest ∧ begin < area.stop ∧
      ∀ x ∈ areas.take position, x.stop ≤ begin := by
  obtain ⟨hlt, ha, hbefore⟩ := List.findIdx?_eq_some_iff_getElem.mp h
  refine ⟨areas[position], areas.drop (position + 1), List.drop_eq_getElem_cons hlt,
    of_decide_eq_true ha, fun x hx => ?_⟩
  obtain ⟨j, hj, rfl⟩ := List.mem_iff_getElem.mp hx
  rw [List.length_take] at hj
  have := hbefore j (by omega)
  rw [List.getElem_take]
  simpa using this

theorem usable_append {as bs : List Area} :
    usable begin stop (as ++ bs) = usable begin stop as ++ usable begin stop bs := by
  rw [usable, List.flatMap_append, usable, usable]

theorem ahead_initial (h : Regular map.area) (hb : begin % pageSize = 0)
    (hpos : a.currentMapPosition =
      (map.area.findIdx? fun area => begin < area.stop).getD position)
    (hbegin : a.begin = if begin < (map.area.getD a.currentMapPosition ⟨0, 0⟩).begin then
      (map.area.getD a.currentMapPosition ⟨0, 0⟩).begin else begin) :
    ahead map.area a = usable begin a.stop map.area ∧ (ahead map.area a ≠ [] → Bump map.area a) := by
  cases hfind : map.area.findIdx? (fun area => begin < area.stop) with
  | none =>
    have hall (x : Area) (hx : x ∈ map.area) : x.stop ≤ begin := by
      have := List.findIdx?_eq_none_iff.mp hfind x hx
      simpa using this
    have hle : begin ≤ a.begin := by
      rw [hbegin]
      split <;> omega
    have hnil : ahead map.area a = [] := by
      refine usable_nil fun x hx => ?_
      have := hall x (List.mem_of_mem_drop hx)
      omega
    refine ⟨?_, fun hne => absurd hnil hne⟩
    rw [hnil, usable_nil fun x hx => ?_]
    have := hall x hx
    omega
  | some p =>
    rw [hfind, Option.getD_some] at hpos
    obtain ⟨area, rest, hdrop, hlt, hbefore⟩ := findIdx_split hfind
    have hreg := h.drop p
    rw [hdrop] at hreg
    have hproper := hreg.proper area (by simp)
    have hbegin' : a.begin = max begin area.begin := by
      rw [hbegin, hpos, (drop_cons hdrop).1]
      split <;> omega
    have hmax : max (max begin area.begin) area.begin = max begin area.begin := by omega
    have hsplit : usable begin a.stop map.area = usable begin a.stop (area :: rest) := by
      rw [← List.take_append_drop p map.area, usable_append, usable_nil fun x hx => ?_, hdrop,
        List.nil_append]
      have := hbefore x hx
      omega
    refine ⟨?_, fun _ => ⟨?_, area, rest, hpos ▸ hdrop, by omega, by omega⟩⟩
    · rw [ahead, hpos, hdrop, hsplit, usable_cons, usable_cons, hbegin', hmax,
        usable_raise (fun x hx => ?_) fun x hx => hlt.le.trans (hreg.after x hx)]
      have := hreg.after x hx
      omega
    · have := (hreg.aligned area (by simp)).1
      rw [hbegin']
      rcases max_choice begin area.begin with heq | heq <;> rw [heq]
      · exact hb
      · exact this

theorem allocInit_initial (h : Regular map.area) (hs : stop < wordSize)
    (hn : ∀ x ∈ map.area, Near begin stop x) (hinit : allocInit map position begin stop = some a) :
    Initial map begin stop a := by
  by_cases hg : begin % pageSize = 0 ∧ stop % pageSize = 0 ∧ begin < stop
  · rw [allocInit, if_pos hg] at hinit
    obtain ⟨hb, hs', hlt⟩ := hg
    have hwhole : pageSize * (usable begin stop map.area).length ≤ stop - begin := usable_length h
    obtain ⟨k, hk, hle, hexact⟩ := counted 0 h hb hs' (hlt.trans hs) hs hn (by omega)
    rw [Nat.zero_add] at hk
    rw [hk] at hinit
    have ha := Option.some.inj hinit
    have hpos : a.currentMapPosition =
        (map.area.findIdx? fun area => begin < area.stop).getD position := by rw [← ha]
    obtain ⟨hahead, hbump⟩ := ahead_initial h hb hpos (by rw [← ha])
    have hstop : a.stop = stop := by rw [← ha]
    have hpte : a.pte = 3 := by rw [← ha]
    rw [hstop] at hahead
    have hsize : a.size = (stop + wordSize - a.begin) % wordSize := by rw [← ha]
    have hlen : pageSize * (ahead map.area a).length ≤ stop - a.begin :=
      hstop ▸ usable_length (h.drop a.currentMapPosition)
    refine ⟨hb, hs', hstop, by rw [← ha], by rw [current, hpte]; decide, hahead, hbump, ?_, ?_, by rw [← ha],
      k, by rw [← ha], hahead ▸ hle, hahead ▸ hexact⟩
    · rw [hsize]
      by_cases hroom : a.begin ≤ stop
      · rw [show stop + wordSize - a.begin = stop - a.begin + wordSize by omega, Nat.add_mod_right,
          Nat.mod_eq_of_lt (by omega)]
        exact hlen
      · omega
    · rw [hsize]
      exact Nat.mod_lt _ (by decide)
  · rw [allocInit, if_neg hg] at hinit
    exact absurd hinit (by simp)

end bump

end Lasagne.Frame
