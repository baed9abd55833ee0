import Mathlib
import Lasagne.Library.PartialRun
import Lasagne.Tty.Ideal

namespace Lasagne.Console
open CInt PartialRun

def Terminal.nth (s : Terminal) (j : Nat) : Line := s.lines.getD j Terminal.blank

def cellOf : Option Glyph → Cell
  | none => 0
  | some g => styled g.style g.char.toNat

section cell
variable (color : TtyColor) (style : TtyStyle) {c : Nat}

theorem value_lt : color.value < 16 := by
  cases color <;> decide

theorem palette_value : palette[color.value]? = some color := by
  cases color <;> rfl

theorem styled_toNat (hc : c < 256) :
    (styled style c).toNat = 4096 * style.bg.value + 256 * style.fg.value + c := by
  have hfg := value_lt style.fg
  have hbg := value_lt style.bg
  have hattribute : style.fg.value <<< 8 ||| style.bg.value <<< 12 =
      (16 * style.bg.value + style.fg.value) <<< 8 := by
    rw [Nat.lor_comm, ← Nat.shiftLeft_add_eq_or_of_lt (by rw [Nat.shiftLeft_eq]; omega),
      Nat.shiftLeft_eq, Nat.shiftLeft_eq, Nat.shiftLeft_eq]
    omega
  rw [styled, hattribute, ← Nat.shiftLeft_add_eq_or_of_lt hc, BitVec.toNat_ofNat, Nat.shiftLeft_eq]
  omega

theorem depicts_cellOf (g : Option Glyph) : Depicts (cellOf g) g := by
  cases g with
  | none => rfl
  | some g =>
    have hfg := value_lt g.style.fg
    have hbg := value_lt g.style.bg
    have hchar : g.char.toNat < 256 := g.char.isLt
    have hcell := styled_toNat g.style hchar
    refine ⟨BitVec.eq_of_toNat_eq ?_, ?_, ?_⟩
    · rw [BitVec.extractLsb'_toNat, cellOf, hcell, Nat.shiftRight_eq_div_pow]
      omega
    · rw [← palette_value g.style.fg, BitVec.extractLsb'_toNat, cellOf, hcell,
        Nat.shiftRight_eq_div_pow]
      congr 1
      omega
    · rw [← palette_value g.style.bg, BitVec.extractLsb'_toNat, cellOf, hcell,
        Nat.shiftRight_eq_div_pow]
      congr 1
      omega

end cell

-- r is the cursor's row on the screen, b the ring index of the current line
structure Shows (t : Tty) (s : Terminal) (r b : Nat) : Prop where
  width : t.width = 80
  height : t.height = 25
  bufferHeight : t.bufferHeight = 30
  tab : t.tab = s.tab
  tabRange : 0 < s.tab ∧ s.tab < 80
  style : t.style = s.style
  col : t.col = s.col
  colRange : s.col ≤ 80
  row : t.row = r
  rowCount : r + 1 = min s.lines.length 25
  bufferRow : t.bufferRow = b
  bufferRange : b < 30
  ring : ∀ j ≤ r, ∀ c < 80, t.buffer ((b + 30 - j) % 30) c = cellOf (s.nth j c)
  screen : ∀ i ≤ r, ∀ c < 80, t.ttyBuffer (80 * i + c) = cellOf (s.nth (r - i) c)
  below : ∀ i, r < i → i < 25 → ∀ c < 80, t.ttyBuffer (80 * i + c) = 0

section lines
variable {t : Tty} {s : Terminal} {r b c i : Nat}

theorem nth_zero (s : Terminal) : s.nth 0 = s.line := rfl

theorem nth_succ (s : Terminal) (j : Nat) : s.nth (j + 1) = s.earlier.getD j Terminal.blank := by
  simp [Terminal.nth, Terminal.lines]

theorem newline_nth (s : Terminal) (j : Nat) : s.newline.nth (j + 1) = s.nth j := by
  rw [nth_succ]
  rfl

theorem Shows.row_lt (h : Shows t s r b) : r < 25 := by
  have := h.rowCount
  omega

theorem Shows.setCol (h : Shows t s r b) {c : Nat} (hc : c ≤ 80) :
    Shows { t with col := (c : Int) } { s with col := c } r b :=
  { h with col := rfl, colRange := hc }

end lines

section scroll
variable {t : Tty} {b : Nat}

theorem overwrite_inside {cells f : Nat → Cell} {start count c : Nat} (hc : c < count) :
    overwrite cells start count f (start + c) = f c := by
  rw [overwrite, if_pos (by omega), Nat.add_sub_cancel_left]

theorem overwrite_outside {cells f : Nat → Cell} {start count x : Nat}
    (h : x < start ∨ start + count ≤ x) : overwrite cells start count f x = cells x := by
  rw [overwrite, if_neg (by omega)]

theorem copyCells_spec {row i : Nat} (hr : row < 25) (hi : i < 30) :
    copyCells t (80 * (row : Int)) i =
      some { t with ttyBuffer := overwrite t.ttyBuffer (80 * row) 80 (t.buffer i) } := by
  rw [copyCells, index_ofNat (by rw [bufferRows]; omega), Option.bind_eq_bind, Option.bind_some,
    if_pos (by simp only [bufferColumns, screenCells]; omega),
    show (80 * (row : Int)).toNat = 80 * row by omega]
  rfl

theorem clearCells_spec {start count : Nat} (h : start + count ≤ 2000) :
    clearCells t start count =
      some { t with ttyBuffer := overwrite t.ttyBuffer start count fun _ => 0 } := by
  rw [clearCells, if_pos (by simp only [screenCells]; omega), Int.toNat_natCast, Int.toNat_natCast]

-- m lines are still to be copied, so i is m steps behind the current line of the ring
theorem copyLines_spec (m : Nat) {n : Nat} {t : Tty} (hw : t.width = 80)
    (hbh : t.bufferHeight = 30) (hb : t.bufferRow = b) (hb30 : b < 30) (hm : m ≤ 24) (hn : m < n) :
    ∃ f, copyLines n t (((b + 30 - m) % 30 : Nat) : Int) ((24 - m : Nat) : Int) =
        some ({ t with ttyBuffer := f }, 24) ∧
      (∀ x, x < 80 * (24 - m) → f x = t.ttyBuffer x) ∧
      ∀ i, 24 - m ≤ i → i < 24 → ∀ c < 80,
        f (80 * i + c) = t.buffer ((b + 30 - (24 - i)) % 30) c := by
  induction m generalizing n t with
  | zero =>
    obtain ⟨n, rfl⟩ : ∃ k, n = k + 1 := ⟨n - 1, by omega⟩
    refine ⟨t.ttyBuffer, ?_, fun x _ => rfl, fun i h1 h2 => by omega⟩
    rw [copyLines, if_neg (by rw [hb]; omega)]
    rfl
  | succ m ih =>
    obtain ⟨n, rfl⟩ : ∃ k, n = k + 1 := ⟨n - 1, by omega⟩
    have hcopy : copyCells t (t.width * ((24 - (m + 1) : Nat) : Int))
        (((b + 30 - (m + 1)) % 30 : Nat) : Int) = some { t with
          ttyBuffer := overwrite t.ttyBuffer (80 * (24 - (m + 1))) 80
            (t.buffer ((b + 30 - (m + 1)) % 30)) } :=
      (congrArg (fun w => copyCells t (w * ((24 - (m + 1) : Nat) : Int)) _) hw).trans
        (copyCells_spec (by omega) (by omega))
    have hnext : remainder ((((b + 30 - (m + 1)) % 30 : Nat) : Int) + 1) t.bufferHeight =
        some (((b + 30 - m) % 30 : Nat) : Int) := by
      have := remainder_ofNat ((b + 30 - (m + 1)) % 30 + 1) (b := 30) (by omega)
      rw [show ((b + 30 - (m + 1)) % 30 + 1) % 30 = (b + 30 - m) % 30 by omega] at this
      rw [hbh]
      exact this
    obtain ⟨f, hf, hlow, hhigh⟩ := ih (n := n) (t := { t with
      ttyBuffer := overwrite t.ttyBuffer (80 * (24 - (m + 1))) 80
        (t.buffer ((b + 30 - (m + 1)) % 30)) }) hw hbh hb (by omega) (by omega)
    refine ⟨f, ?_, fun x hx => ?_, fun i hi hi' c hc => ?_⟩
    · rw [copyLines, if_pos (by rw [hb]; omega), hcopy, Option.bind_eq_bind, Option.bind_some,
        Option.bind_eq_bind, hnext, Option.bind_some,
        show ((24 - (m + 1) : Nat) : Int) + 1 = ((24 - m : Nat) : Int) by omega]
      exact hf
    · rw [hlow x (by omega)]
      exact overwrite_outside (by omega)
    · rcases Nat.lt_or_ge i (24 - m) with hlt | hge
      · obtain rfl : i = 24 - (m + 1) := by omega
        rw [hlow _ (by omega)]
        refine (overwrite_inside hc).trans ?_
        rw [show 24 - (24 - (m + 1)) = m + 1 by omega]
      · exact hhigh i hge hi' c hc

theorem startLine (hh : t.height = 25) (hbh : t.bufferHeight = 30) (hb : t.bufferRow = b)
    (hb30 : b < 30) : ∃ i, remainder (t.bufferRow - t.height + 1) t.bufferHeight = some i ∧
      (if i < 0 then i + t.bufferHeight else i) = (((b + 30 - 24) % 30 : Nat) : Int) := by
  rw [hb, hh, hbh, remainder, if_neg (by omega)]
  rcases Nat.lt_or_ge b 24 with hlt | hge
  · refine ⟨_, rfl, ?_⟩
    rw [show (b : Int) - 25 + 1 = -((24 - b : Nat) : Int) by omega, Int.neg_tmod,
      Int.tmod_eq_emod_of_nonneg (by omega), if_pos (by omega)]
    omega
  · refine ⟨_, rfl, ?_⟩
    rw [show (b : Int) - 25 + 1 = ((b - 24 : Nat) : Int) by omega,
      Int.tmod_eq_emod_of_nonneg (by omega), if_neg (by omega)]
    omega

theorem scroll_spec (hw : t.width = 80) (hh : t.height = 25) (hbh : t.bufferHeight = 30)
    (hb : t.bufferRow = b) (hb30 : b < 30) :
    ∃ f, scroll t = some { t with ttyBuffer := f } ∧
      (∀ i < 24, ∀ c < 80, f (80 * i + c) = t.buffer ((b + 30 - (24 - i)) % 30) c) ∧
      ∀ c < 80, f (80 * 24 + c) = 0 := by
  obtain ⟨f, hf, -, hcopy⟩ := copyLines_spec 24 (n := bufferRows + 1) hw hbh hb hb30 le_rfl
    (by rw [bufferRows]; omega)
  obtain ⟨i, hi, hline⟩ := startLine hh hbh hb hb30
  have hclear := clearCells_spec (t := { t with ttyBuffer := f }) (show 1920 + 80 ≤ 2000 by omega)
  refine ⟨overwrite f 1920 80 fun _ => 0, ?_, fun i hi c hc => ?_, fun c hc => ?_⟩
  · rw [scroll, hi, Option.bind_eq_bind, Option.bind_some]
    simp only [hline]
    rw [show (0 : Int) = ((24 - 24 : Nat) : Int) by omega, hf, Option.bind_eq_bind,
      Option.bind_some]
    have hstart : t.width * (24 : Int) = ((1920 : Nat) : Int) := by rw [hw]; rfl
    have hcount : t.width = ((80 : Nat) : Int) := hw
    change clearCells { t with ttyBuffer := f } (t.width * 24) t.width = _
    rw [hstart]
    exact (congrArg (clearCells _ _) hcount).trans hclear
  · rw [overwrite_outside (by omega)]
    exact hcopy i (by omega) hi c hc
  · exact overwrite_inside hc

end scroll

section newline
variable {t : Tty} {s : Terminal} {r b : Nat}

theorem bufferRowUp_spec (hb : t.bufferRow = b) (hbh : t.bufferHeight = 30) : bufferRowUp t =
    some { t with
      bufferRow := ((b + 1) % 30 : Nat)
      buffer := Function.update t.buffer ((b + 1) % 30) fun _ => 0 } := by
  have hnext := remainder_ofNat (b + 1) (b := 30) (by omega)
  rw [bufferRowUp, hb, hbh]
  change ((remainder ((b + 1 : Nat) : Int) ((30 : Nat) : Int)).bind _) = _
  rw [hnext, Option.bind_some,
    index_ofNat (show (b + 1) % 30 < bufferRows from Nat.mod_lt _ (by omega))]
  rfl

theorem ring_newline (h : Shows t s r b) {j : Nat} (hj : j ≤ r + 1) (hj' : j ≤ 24) {c : Nat}
    (hc : c < 80) :
    Function.update t.buffer ((b + 1) % 30) (fun _ => 0) (((b + 1) % 30 + 30 - j) % 30) c =
      cellOf (s.newline.nth j c) := by
  have hb := h.bufferRange
  cases j with
  | zero =>
    rw [show ((b + 1) % 30 + 30 - 0) % 30 = (b + 1) % 30 by omega, Function.update_self]
    rfl
  | succ j =>
    rw [Function.update_of_ne (by omega), newline_nth,
      show ((b + 1) % 30 + 30 - (j + 1)) % 30 = (b + 30 - j) % 30 by omega]
    exact h.ring j (by omega) c hc

theorem Shows.lineUp (h : Shows t s r b) :
    ∃ t' r' b', Console.lineUp t = some t' ∧ Shows t' s.newline r' b' := by
  have hb := h.bufferRange
  have hcount := h.rowCount
  have hlen : s.newline.lines.length = s.lines.length + 1 := rfl
  have hmod : (b + 1) % 30 < 30 := Nat.mod_lt _ (by omega)
  rw [Console.lineUp, bufferRowUp_spec h.bufferRow h.bufferHeight, Option.bind_eq_bind, Option.bind_some]
  rcases Nat.lt_or_ge r 24 with hr | hr
  · refine ⟨_, r + 1, (b + 1) % 30, if_pos (by simp only [h.row, h.height]; omega), ?_⟩
    exact {
      width := h.width, height := h.height, bufferHeight := h.bufferHeight, tab := h.tab
      tabRange := h.tabRange, style := h.style, col := h.col, colRange := h.colRange
      row := by simp only [h.row]; omega
      rowCount := by rw [hlen]; omega
      bufferRow := rfl
      bufferRange := hmod
      ring := fun j hj c hc => ring_newline h hj (by omega) hc
      screen := fun i hi c hc => by
        rcases Nat.lt_or_ge r i with hlt | hge
        · obtain rfl : i = r + 1 := by omega
          rw [Nat.sub_self]
          exact h.below _ hlt (by omega) c hc
        · rw [show r + 1 - i = r - i + 1 by omega, newline_nth]
          exact h.screen i hge c hc
      below := fun i hi hi' c hc => h.below i (by omega) hi' c hc }
  · have hr24 : r = 24 := by omega
    subst hr24
    obtain ⟨f, hf, hcopy, hlast⟩ := scroll_spec (t := { t with
      bufferRow := ((b + 1) % 30 : Nat)
      buffer := Function.update t.buffer ((b + 1) % 30) fun _ => 0 })
      h.width h.height h.bufferHeight rfl hmod
    refine ⟨_, 24, (b + 1) % 30, (if_neg (by simp only [h.row, h.height]; omega)).trans hf, ?_⟩
    exact {
      width := h.width, height := h.height, bufferHeight := h.bufferHeight, tab := h.tab
      tabRange := h.tabRange, style := h.style, col := h.col, colRange := h.colRange
      row := h.row
      rowCount := by rw [hlen]; omega
      bufferRow := rfl
      bufferRange := hmod
      ring := fun j hj c hc => ring_newline h (by omega) hj hc
      screen := fun i hi c hc => by
        rcases Nat.lt_or_ge i 24 with hlt | hge
        · exact (hcopy i hlt c hc).trans (ring_newline h (by omega) (by omega) hc)
        · obtain rfl : i = 24 := by omega
          exact hlast c hc
      below := fun i hi hi' => by omega }

end newline

section calls
variable {t : Tty} {s : Terminal} {r b : Nat}

def Refines (t : Tty) (s : Terminal) : Prop := ∃ r b, Shows t s r b

theorem write_cell (s : Terminal) {c : Nat} (hc : c < 256) (j x : Nat) :
    cellOf ((s.write c).nth j x) =
      if j = 0 ∧ x = s.col then styled s.style c else cellOf (s.nth j x) := by
  cases j with
  | zero =>
    by_cases hx : x = s.col
    · subst hx
      simp [nth_zero, Terminal.write, cellOf, Nat.mod_eq_of_lt hc]
    · simp [nth_zero, Terminal.write, hx]
  | succ j => rfl

theorem Shows.write (h : Shows t s r b) (hc : s.col < 80) {c : Nat} (hbyte : c < 256) :
    ∃ t', writeCell t c = some t' ∧ Shows t' (s.write c) r b := by
  have hr := h.row_lt
  have hcell : index (t.row * t.width + t.col) screenCells = some (80 * r + s.col) := by
    rw [h.row, h.width, h.col,
      show (r : Int) * 80 + (s.col : Int) = ((80 * r + s.col : Nat) : Int) by omega]
    exact index_ofNat (by rw [screenCells]; omega)
  have hline : index t.bufferRow bufferRows = some b := by
    rw [h.bufferRow]
    exact index_ofNat h.bufferRange
  have hcol : index t.col bufferColumns = some s.col := by
    rw [h.col]
    exact index_ofNat hc
  rw [writeCell, hcell, hline, hcol, h.style]
  simp only [Option.bind_eq_bind, Option.bind_some]
  refine ⟨_, rfl, ?_⟩
  exact {
    width := h.width, height := h.height, bufferHeight := h.bufferHeight, tab := h.tab
    tabRange := h.tabRange, style := rfl
    col := by simp only [h.col, Terminal.write]; omega
    colRange := hc
    row := h.row
    rowCount := h.rowCount
    bufferRow := h.bufferRow
    bufferRange := h.bufferRange
    ring := fun j hj x hx => by
      have hb := h.bufferRange
      rw [write_cell s hbyte, ← h.ring j hj x hx]
      simp only
      by_cases hj0 : j = 0
      · subst hj0
        rw [show (b + 30 - 0) % 30 = b by omega, Function.update_self]
        by_cases hxc : x = s.col
        · rw [hxc, Function.update_self, if_pos ⟨rfl, rfl⟩]
        · rw [Function.update_of_ne hxc, if_neg fun hc => hxc hc.2]
      · rw [Function.update_of_ne (by omega), if_neg fun hc => hj0 hc.1]
    screen := fun i hi x hx => by
      rw [write_cell s hbyte, ← h.screen i hi x hx]
      simp only
      by_cases hcur : i = r ∧ x = s.col
      · rw [hcur.1, hcur.2, Function.update_self, if_pos ⟨by omega, rfl⟩]
      · rw [if_neg (show ¬ (r - i = 0 ∧ x = s.col) by omega)]
        exact Function.update_of_ne (show 80 * i + x ≠ 80 * r + s.col by omega) _ _
    below := fun i hi hi' x hx =>
      (Function.update_of_ne (by omega) _ _).trans (h.below i hi hi' x hx) }

theorem Shows.newlineAt (h : Shows t s r b) {c : Nat} (hc : c ≤ 80) :
    ∃ t' r' b', (Console.lineUp t).map (fun t => { t with col := (c : Int) }) = some t' ∧
      Shows t' { s.newline with col := c } r' b' := by
  obtain ⟨t', r', b', hl, hs⟩ := h.lineUp
  exact ⟨_, r', b', by rw [hl]; rfl, hs.setCol hc⟩

theorem Shows.tabulate (h : Shows t s r b) : ∃ t', Console.tabulate t = some t' ∧
    Refines t' s.tabulate := by
  obtain ⟨h0, h80⟩ := h.tabRange
  have hcol := h.colRange
  have hpast : s.col % s.tab < s.tab := Nat.mod_lt _ h0
  have hrem : remainder t.col t.tab = some ((s.col % s.tab : Nat) : Int) := by
    rw [h.col, h.tab]
    exact remainder_ofNat _ h0
  have hto : t.col + (t.tab - ((s.col % s.tab : Nat) : Int)) =
      ((s.col + (s.tab - s.col % s.tab) : Nat) : Int) := by
    rw [h.col, h.tab]
    omega
  rw [Console.tabulate, hrem, Option.bind_eq_bind, Option.bind_some, hto, Terminal.tabulate]
  generalize s.col + (s.tab - s.col % s.tab) = col
  rcases Nat.lt_or_ge col 80 with hlt | hge
  · rw [if_pos hlt]
    exact ⟨_, if_neg (by simp only [h.width]; omega), r, b, h.setCol hlt.le⟩
  · have hwrap : remainder (col : Int) t.width = some ((col % 80 : Nat) : Int) := by
      rw [h.width]
      exact remainder_ofNat col (b := 80) (by omega)
    obtain ⟨t', r', b', hl, hs⟩ := (h.setCol (show col % 80 ≤ 80 by omega)).lineUp
    rw [if_neg (show ¬ col < 80 by omega)]
    refine ⟨t', (if_pos (by simp only [h.width]; omega)).trans ?_, r', b', hs⟩
    simp only [hwrap]
    exact hl

theorem Shows.put (h : Shows t s r b) {c : Nat} (hbyte : c < 256) : ∃ t', putChar t c = some t' ∧
    Refines t' (if s.col = 80 then { s.newline with col := 0 }.write c else s.write c) := by
  have hcol := h.colRange
  rw [putChar, h.col, h.width]
  rcases Nat.lt_or_ge s.col 80 with hlt | hge
  · rw [if_neg (by omega), if_neg (by omega)]
    obtain ⟨t', hw, hs⟩ := h.write hlt hbyte
    exact ⟨t', hw, r, b, hs⟩
  · rw [if_pos (by omega), if_pos (by omega)]
    obtain ⟨t₁, r₁, b₁, hl, h₁⟩ := h.lineUp
    obtain ⟨t', hw, hs⟩ := (h₁.setCol (Nat.zero_le 80)).write (by simp) hbyte
    exact ⟨t', by rw [hl]; exact hw, r₁, b₁, hs⟩

theorem Shows.putchar (h : Shows t s r b) (c : Nat) :
    ∃ t', ttyPutchar t c = some t' ∧ Refines t' (s.putchar c) := by
  rw [ttyPutchar, Terminal.putchar]
  split
  next => exact ⟨t, rfl, r, b, h⟩
  next hbyte =>
    rw [specialChar]
    by_cases h10 : c = 10
    · rw [if_pos h10, if_pos (by omega), if_pos h10]
      obtain ⟨t', r', b', hl, hs⟩ := h.newlineAt (Nat.zero_le 80)
      exact ⟨t', hl, r', b', hs⟩
    by_cases h13 : c = 13
    · rw [if_neg h10, if_pos h13, if_pos (by omega), if_neg h10, if_pos h13]
      exact ⟨_, rfl, r, b, h.setCol (Nat.zero_le 80)⟩
    by_cases h9 : c = 9
    · rw [if_neg h10, if_neg h13, if_pos h9, if_pos (by omega), if_neg h10, if_neg h13, if_pos h9]
      exact h.tabulate
    rw [if_neg h10, if_neg h13, if_neg h9, if_neg h10, if_neg h13, if_neg h9]
    split
    next => exact ⟨t, rfl, r, b, h⟩
    next => exact h.put (by omega)

theorem clear_spec {t : Tty} {b : Nat} (s : Terminal) (hw : t.width = 80) (hh : t.height = 25)
    (hbh : t.bufferHeight = 30) (hb : t.bufferRow = b) (htab : t.tab = s.tab)
    (hrange : 0 < s.tab ∧ s.tab < 80) (hstyle : t.style = s.style) :
    ∃ t', ttyClear t = some t' ∧
      Shows t' { s with line := Terminal.blank, earlier := [], col := 0 } 0 ((b + 1) % 30) := by
  have hmod : (b + 1) % 30 < 30 := Nat.mod_lt _ (by omega)
  have hup := bufferRowUp_spec hb hbh
  have hclear := clearCells_spec (t := { t with
      bufferRow := ((b + 1) % 30 : Nat)
      buffer := Function.update t.buffer ((b + 1) % 30) fun _ => 0 })
    (show 0 + 2000 ≤ 2000 by omega)
  have hcount : t.width * t.height = ((2000 : Nat) : Int) := by rw [hw, hh]; rfl
  rw [ttyClear, hup, Option.bind_eq_bind, Option.bind_some]
  simp only [hcount]
  refine ⟨_, by rw [show (0 : Int) = ((0 : Nat) : Int) from rfl, hclear]; rfl, ?_⟩
  exact {
    width := hw, height := hh, bufferHeight := hbh, tab := htab, tabRange := hrange
    style := hstyle, col := rfl, colRange := Nat.zero_le 80, row := rfl, rowCount := rfl
    bufferRow := rfl
    bufferRange := hmod
    ring := fun j hj c hc => by
      obtain rfl : j = 0 := by omega
      rw [show ((b + 1) % 30 + 30 - 0) % 30 = (b + 1) % 30 by omega]
      simp only [Function.update_self]
      rfl
    screen := fun i hi c hc => by
      obtain rfl : i = 0 := by omega
      exact if_pos (by omega)
    below := fun i hi hi' c hc => if_pos (by omega) }

theorem initialize_spec (t : Tty) : ∃ t', ttyInitialize t = some t' ∧ Refines t' Terminal.start := by
  obtain ⟨t', h, hs⟩ := clear_spec (t := { t with
      row := 0, col := 0, bufferRow := 0, bufferHeight := 30, width := 80, height := 25, tab := 8
      style := ⟨.white, .black⟩
      buffer := fun _ _ => 0 }) (b := 0) Terminal.start rfl rfl rfl rfl rfl
    (by simp [Terminal.start]) rfl
  exact ⟨t', h, 0, _, hs⟩

theorem call_spec (t : Tty) (s : Terminal) (a : Call) (h : Refines t s) :
    ∃ t', call t a = some t' ∧ Refines t' (s.next a) := by
  obtain ⟨r, b, h⟩ := h
  cases a with
  | putchar c => exact h.putchar c.toNat
  | setColor foreground background => exact ⟨_, rfl, r, b, { h with style := rfl }⟩
  | setTabSize size =>
    refine ⟨_, rfl, ?_⟩
    have hiff : size.toInt > 0 ∧ size.toInt < t.width ↔ 0 < size.toInt ∧ size.toInt < 80 := by
      rw [h.width]
    rw [ttySetTabSize, Terminal.next]
    by_cases hs : 0 < size.toInt ∧ size.toInt < 80
    · rw [if_pos (hiff.mpr hs), if_pos hs]
      exact ⟨r, b, { h with
        tab := (Int.toNat_of_nonneg hs.1.le).symm
        tabRange := by simp only; omega }⟩
    · rw [if_neg (mt hiff.mp hs), if_neg hs]
      exact ⟨r, b, h⟩
  | clear =>
    obtain ⟨t', hc, hs⟩ := clear_spec s h.width h.height h.bufferHeight h.bufferRow h.tab h.tabRange
      h.style
    exact ⟨t', hc, 0, _, hs⟩

end calls

def OnScreen (t : Tty) (s : Terminal) : Prop := t.col = s.col ∧ ∃ r : Nat, t.row = r ∧
  r + 1 = min s.lines.length 25 ∧
  (∀ i ≤ r, ∀ c < 80, Depicts (t.ttyBuffer (80 * i + c)) (s.nth (r - i) c)) ∧
  ∀ i, r < i → i < 25 → ∀ c < 80, t.ttyBuffer (80 * i + c) = 0

theorem onScreen_of_refines {t : Tty} {s : Terminal} (h : Refines t s) : OnScreen t s := by
  obtain ⟨r, b, h⟩ := h
  refine ⟨h.col, r, h.row, h.rowCount, fun i hi c hc => ?_, h.below⟩
  rw [h.screen i hi c hc]
  exact depicts_cellOf _

-- a call that touched a cell outside the screen or the ring would have no result
theorem shows_ideal (t : Tty) (calls : List Call) :
    ∃ t', (ttyInitialize t).bind (fun t => run call t calls) = some t' ∧
      0 ≤ t'.row ∧ t'.row < t'.height ∧ 0 ≤ t'.col ∧ t'.col ≤ t'.width ∧
      0 ≤ t'.bufferRow ∧ t'.bufferRow < t'.bufferHeight ∧ t'.width = 80 ∧ t'.height = 25 ∧
      t'.bufferHeight = 30 ∧
      OnScreen t' (calls.foldl Terminal.next Terminal.start) := by
  obtain ⟨t₀, h₀, hr₀⟩ := initialize_spec t
  have hsim : ∃ t', run call t₀ calls = some t' ∧ Refines t' (calls.foldl Terminal.next .start) :=
    simulates call_spec hr₀
  obtain ⟨t', hrun, hr⟩ := hsim
  obtain ⟨r, b, h⟩ := hr
  have hlt := h.row_lt
  have hcol := h.colRange
  have hb := h.bufferRange
  refine ⟨t', by rw [h₀]; exact hrun, ?_, ?_, ?_, ?_, ?_, ?_, h.width, h.height, h.bufferHeight,
    onScreen_of_refines ⟨r, b, h⟩⟩
  · rw [h.row]; omega
  · rw [h.row, h.height]; omega
  · rw [h.col]; omega
  · rw [h.col, h.width]; omega
  · rw [h.bufferRow]; omega
  · rw [h.bufferRow, h.bufferHeight]; omega

end Lasagne.Console
