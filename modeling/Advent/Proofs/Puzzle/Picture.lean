/-
What a picture shows.

The pixels of a picture are those of its stack of layers, cut into rows, and a pixel is marked
just if the first digit at its place that is not transparent is white.  Digits that leave a layer
unfinished have no picture.  The fault says how large a layer is, so it takes another one's place
where that size is too long to be written.
-/
import Advent.Proofs.CommandLine.Indent
import Advent.Proofs.Numeral
import Advent.Proofs.Puzzle.Layers

namespace Advent.Puzzle.Image

open CommandLine

/-! ### Pixels -/

/-- The pixels that show of the layers, one row after another. -/
def pixels (size : Nat) (digits : List Nat) : List Nat :=
  (blocks size (digits.length / size) digits).foldl overlay (List.replicate size transparent)

variable {size place : Nat} {digits digits' : List Nat}

theorem length_pixels (h : Whole size digits) : (pixels size digits).length = size :=
  length_foldl_overlay List.length_replicate fun _ =>
    length_of_mem_blocks (Nat.div_mul_cancel h.2).symm

/-- A pixel is what the layers show at its place. -/
theorem pixels_shows (h : Whole size digits) (hplace : place < size) :
    ∃ d, (pixels size digits)[place]? = some d ∧ Shows size digits place d := by
  have htop : (List.replicate size transparent)[place]? = some transparent :=
    List.getElem?_replicate_of_lt hplace
  obtain ⟨d, hd, hshows⟩ := foldl_overlay_blocks hplace (Nat.div_mul_cancel h.2).symm htop
  exact ⟨d, hd, by rwa [if_pos rfl] at hshows⟩

/-- Layers under others show through where these are transparent. -/
theorem pixels_append (hsize : 0 < size) (h : Whole size digits) (h' : Whole size digits') :
    pixels size (digits ++ digits') = overlay (pixels size digits) (pixels size digits') := by
  have hcount : (digits ++ digits').length / size = digits.length / size + digits'.length / size := by
    obtain ⟨count, hcount⟩ := h.2
    obtain ⟨count', hcount'⟩ := h'.2
    rw [List.length_append, hcount, hcount', ← Nat.mul_add, Nat.mul_div_cancel_left _ hsize,
      Nat.mul_div_cancel_left _ hsize, Nat.mul_div_cancel_left _ hsize]
  rw [pixels, hcount, blocks_append _ _ (Nat.div_mul_cancel h.2).symm]
  exact foldl_overlay_append _ _ (length_pixels h)

theorem blocks_overlay (width height : Nat) (top bottom : List Nat) :
    blocks width height (overlay top bottom) =
      (blocks width height top).zipWith overlay (blocks width height bottom) := by
  induction height generalizing top bottom with
  | zero => rfl
  | succ height ih =>
      rw [blocks, blocks, blocks, List.zipWith_cons_cons, ← ih]
      exact congrArg₂ List.cons List.take_zipWith (congrArg _ List.drop_zipWith)

/-! ### Rows

Cutting pixels into rows does not change what shows at a place; row and column together are the
place.
-/

section

variable {width height : Nat}

theorem composite_of_whole (hsize : 0 < width * height) (h : Whole (width * height) digits) :
    composite width height digits = .ok (blocks width height (pixels (width * height) digits)) := by
  have hlayers := layers_of_whole hsize h
  rw [Int.natCast_mul] at hlayers
  rw [composite, hlayers, ← Int.natCast_mul]
  rfl

theorem composite_of_not_whole (h : ¬ Whole (width * height) digits) :
    composite width height digits =
      .error (Fault.unevenLayers (width * height) digits.length).reported := by
  have hlayers := layers_of_not_whole h
  rw [Int.natCast_mul] at hlayers
  rw [composite, hlayers]
  rfl

theorem whole_of_composite {rows : List (List Nat)} (h : composite width height digits = .ok rows) :
    Whole (width * height) digits := by
  by_contra hnot
  rw [composite_of_not_whole hnot] at h
  cases h

/-- Rows of pixels as high and as wide as the picture, each pixel showing what the layers show at
its place. -/
structure Composed (width height : Nat) (digits : List Nat) (rows : List (List Nat)) : Prop where
  length : rows.length = height
  length_row : ∀ row ∈ rows, row.length = width
  shows : ∀ r c, r < height → c < width → ∃ row d, rows[r]? = some row ∧ row[c]? = some d ∧
    Shows (width * height) digits (r * width + c) d

theorem composed_of_whole (h : Whole (width * height) digits) :
    Composed width height digits (blocks width height (pixels (width * height) digits)) where
  length := length_blocks _ _ _
  length_row := fun row hrow =>
    length_of_mem_blocks ((length_pixels h).trans (Nat.mul_comm _ _)) hrow
  shows := by
    intro r c hr hc
    have hplace : r * width + c < width * height := by
      have hrow := Nat.mul_le_mul_left width hr
      rw [Nat.mul_succ] at hrow
      rw [Nat.mul_comm r]
      omega
    obtain ⟨d, hd, hshows⟩ := pixels_shows h hplace
    refine ⟨_, d, getElem?_blocks hr _, ?_, hshows⟩
    rw [List.getElem?_take_of_lt hc, List.getElem?_drop, hd]

/-- Two pictures laid on one another are the picture of both stacks. -/
theorem composite_append {rows rows' : List (List Nat)} (hsize : 0 < width * height)
    (h : composite width height digits = .ok rows) (h' : composite width height digits' = .ok rows') :
    composite width height (digits ++ digits') = .ok (rows.zipWith overlay rows') := by
  have hwhole := whole_of_composite h
  have hwhole' := whole_of_composite h'
  rw [composite_of_whole hsize hwhole] at h
  rw [composite_of_whole hsize hwhole'] at h'
  cases h
  cases h'
  rw [composite_of_whole hsize (hwhole.append hwhole'), pixels_append hsize hwhole hwhole',
    blocks_overlay]

/-! ### Lines

A pixel is drawn as one of two marks, so a line is as long as its row.  It has no line end in it,
and as the rows have at least one pixel each it can be told from the other lines.
-/

/-- Rows of pixels as they are drawn. -/
def drawn (rows : List (List Nat)) : List (List Char) := rows.map fun row => row.map mark

/-- Lines as many as the picture is high, each as long as it is wide, and marked where white is
the first colour that is not transparent. -/
structure Pictured (width height : Nat) (digits : List Nat) (lines : List (List Char)) : Prop where
  length : lines.length = height
  length_line : ∀ line ∈ lines, line.length = width
  marked : ∀ r c, r < height → c < width → FirstOpaque (width * height) digits (r * width + c) white →
    ∃ chars, lines[r]? = some chars ∧ chars[c]? = some '#'
  blank : ∀ r c, r < height → c < width → ¬ FirstOpaque (width * height) digits (r * width + c) white →
    ∃ chars, lines[r]? = some chars ∧ chars[c]? = some ' '

theorem Composed.pictured {rows : List (List Nat)} (h : Composed width height digits rows) :
    Pictured width height digits (drawn rows) := by
  have hmark : ∀ r c, r < height → c < width → ∃ d chars, (drawn rows)[r]? = some chars ∧
      chars[c]? = some (mark d) ∧
        (d = white ↔ FirstOpaque (width * height) digits (r * width + c) white) := by
    intro r c hr hc
    obtain ⟨row, d, hrow, hd, hshows⟩ := h.shows r c hr hc
    refine ⟨d, row.map mark, ?_, ?_, hshows.eq_iff (by decide)⟩
    · rw [drawn, List.getElem?_map, hrow, Option.map_some]
    · rw [List.getElem?_map, hd, Option.map_some]
  refine ⟨by rw [drawn, List.length_map, h.length], fun line hline => ?_, fun r c hr hc hwhite => ?_,
    fun r c hr hc hblank => ?_⟩
  · obtain ⟨row, hrow, rfl⟩ := List.mem_map.mp hline
    rw [List.length_map, h.length_row row hrow]
  · obtain ⟨d, chars, hchars, hc, hd⟩ := hmark r c hr hc
    exact ⟨chars, hchars, hc.trans (congrArg some (if_pos (hd.mpr hwhite)))⟩
  · obtain ⟨d, chars, hchars, hc, hd⟩ := hmark r c hr hc
    exact ⟨chars, hchars, hc.trans (congrArg some (if_neg fun hwhite => hblank (hd.mp hwhite)))⟩

theorem Composed.displayLine {rows : List (List Nat)} (h : Composed width height digits rows)
    (hwidth : 0 < width) : ∀ line ∈ drawn rows, Text.DisplayLine line := by
  intro line hline
  obtain ⟨row, hrow, rfl⟩ := List.mem_map.mp hline
  refine ⟨?_, fun c hc => ?_⟩
  · intro hempty
    have hlength := h.length_row row hrow
    rw [List.map_eq_nil_iff.mp hempty, List.length_nil] at hlength
    omega
  · obtain ⟨d, -, rfl⟩ := List.mem_map.mp hc
    unfold mark
    split <;> decide

theorem render_of_composite {rows : List (List Nat)} (h : composite width height digits = .ok rows) :
    render width height digits = .ok (String.ofList (['\n'].intercalate (drawn rows))) := by
  rw [render, h]
  refine congrArg Except.ok (String.toList_inj.mp ?_)
  rw [String.toList_intercalate, String.toList_ofList, List.map_map]
  simp [drawn, Function.comp_def]

theorem render_of_not_whole (h : ¬ Whole (width * height) digits) :
    render width height digits =
      .error (Fault.unevenLayers (width * height) digits.length).reported := by
  rw [render, composite_of_not_whole h]
  rfl

/-- The fault names the size of a layer, if that is not too long. -/
theorem reported_unevenLayers (size : Int) (count : Nat) :
    (Fault.unevenLayers size count).reported =
      if (Nat.toDigits 10 size.natAbs).length ≤ 4300 then .unevenLayers size count else .unwritable := by
  simp [Fault.reported, Fault.integers, Numeral.fits_iff_length_toDigits, Numeral.maxDigits]

/-- **A picture shows at every place the first layer that is not transparent there.**  Digits make
a picture unless they are none or leave a layer unfinished, and then the fault says so, or it is
that the size of a layer is too long to be written.  The picture has its height in lines of its
width, it is composed of two stacks of layers as of the picture of one on top of that of the other,
and indenting it can be undone. -/
theorem picture_shows_first_opaque (width height : Nat) (hwidth : 0 < width) (hheight : 0 < height)
    (digits : List Nat) :
    ((∃ fault, render width height digits = .error fault) ↔
      digits = [] ∨ ¬ width * height ∣ digits.length) ∧
    (∀ fault, render width height digits = .error fault →
      ((Nat.toDigits 10 (width * height)).length ≤ 4300 →
        fault = .unevenLayers (width * height) digits.length ∧ fault.kind = .puzzleInput) ∧
      (4300 < (Nat.toDigits 10 (width * height)).length →
        fault = .unwritable ∧ fault.kind = .value)) ∧
    (digits ≠ [] → width * height ∣ digits.length → ∃ rows lines,
      composite width height digits = .ok rows ∧ Composed width height digits rows ∧
      render width height digits = .ok (String.ofList (['\n'].intercalate lines)) ∧
      Pictured width height digits lines) ∧
    (∀ digits' rows rows', composite width height digits = .ok rows →
      composite width height digits' = .ok rows' →
      composite width height (digits ++ digits') = .ok (rows.zipWith
        (List.zipWith fun above below => if above = transparent then below else above) rows')) ∧
    ∀ text, render width height digits = .ok text → outdent (indent text).toList = text.toList := by
  have hsize : 0 < width * height := Nat.mul_pos hwidth hheight
  have hnot : ¬ Whole (width * height) digits ↔ digits = [] ∨ ¬ width * height ∣ digits.length := by
    rw [Whole, not_and_or, not_not]
  have hok : Whole (width * height) digits → ∃ rows, composite width height digits = .ok rows ∧
      Composed width height digits rows := fun h =>
    ⟨_, composite_of_whole hsize h, composed_of_whole h⟩
  have hwhole : ∀ {fault}, render width height digits = .error fault →
      ¬ Whole (width * height) digits := by
    intro fault hfault h
    obtain ⟨rows, hrows, -⟩ := hok h
    rw [render_of_composite hrows] at hfault
    cases hfault
  refine ⟨?_, fun fault hfault => ?_, fun hne hdvd => ?_, fun digits' rows rows' h h' => ?_,
    fun text htext => ?_⟩
  · rw [← hnot]
    exact ⟨fun ⟨_, hfault⟩ => hwhole hfault, fun h => ⟨_, render_of_not_whole h⟩⟩
  · rw [render_of_not_whole (hwhole hfault), reported_unevenLayers, ← Int.natCast_mul,
      Int.natAbs_natCast] at hfault
    cases hfault
    refine ⟨fun hshort => ?_, fun hlong => ?_⟩
    · rw [if_pos hshort, Int.natCast_mul]
      exact ⟨rfl, rfl⟩
    · rw [if_neg (Nat.not_le_of_lt hlong)]
      exact ⟨rfl, rfl⟩
  · obtain ⟨rows, hrows, hcomposed⟩ := hok ⟨hne, hdvd⟩
    exact ⟨rows, drawn rows, hrows, hcomposed, render_of_composite hrows, hcomposed.pictured⟩
  · exact composite_append hsize h h'
  · have h : Whole (width * height) digits := by
      by_contra h
      rw [render_of_not_whole h] at htext
      cases htext
    obtain ⟨rows, hrows, hcomposed⟩ := hok h
    rw [render_of_composite hrows] at htext
    cases htext
    exact outdent_indent (hcomposed.displayLine hwidth) String.toList_ofList

end

/-- The first of four layers leaves three places to the others, and two of them show white. -/
theorem four_layers_show_two_marks :
    let digits := [0, 2, 2, 2, 1, 1, 2, 2, 2, 2, 1, 2, 0, 0, 0, 0]
    0 < 2 ∧ render 2 2 digits = .ok " #\n# " ∧
      (∃ lines, Pictured 2 2 digits lines ∧ String.ofList (['\n'].intercalate lines) = " #\n# ") ∧
      outdent (indent " #\n# ").toList = " #\n# ".toList := by
  intro digits
  have hrender : render 2 2 digits = .ok " #\n# " := by decide +kernel
  obtain ⟨-, -, hpicture, -, hindent⟩ := picture_shows_first_opaque 2 2 (by decide) (by decide) digits
  obtain ⟨rows, lines, -, -, hlines, hpictured⟩ := hpicture (by decide) (by decide)
  have hsame := Except.ok.inj (hlines.symm.trans hrender)
  exact ⟨by decide, hrender, ⟨lines, hpictured, hsame⟩, hindent _ hrender⟩

/-- Layers whose size is too long to be written are not reported as uneven. -/
theorem vast_layer_is_unwritable :
    render (10 ^ 2200 : Nat) (10 ^ 2200 : Nat) [] = .error .unwritable ∧
    ¬ ∀ (width height : Nat) (digits : List Nat), 0 < width → 0 < height → (∀ d ∈ digits, d ≤ 9) →
      ((∃ fault, render width height digits = .error fault ∧ fault.kind = .puzzleInput) ↔
        digits = [] ∨ ¬ width * height ∣ digits.length) := by
  have hsquare : ∀ k l, 0 < k → k ≤ l + l → ¬ (Nat.toDigits 10 (10 ^ l * 10 ^ l)).length ≤ k := by
    intro k l hk hkl
    rw [Nat.length_toDigits_le_iff (by decide) hk, Nat.not_lt, ← Nat.pow_add]
    exact Nat.pow_le_pow_right (by decide) hkl
  have hlong := hsquare 4300 2200 (by decide) (by decide)
  have hrender : render (10 ^ 2200 : Nat) (10 ^ 2200 : Nat) [] = .error .unwritable := by
    rw [render_of_not_whole fun h => h.1 rfl, reported_unevenLayers, ← Int.natCast_mul,
      Int.natAbs_natCast, if_neg hlong]
  refine ⟨hrender, fun hall => ?_⟩
  have hside : ∀ l, 0 < 10 ^ l := fun l => Nat.pow_pos (by decide)
  obtain ⟨fault, hfault, hkind⟩ := (hall _ _ [] (hside 2200) (hside 2200) nofun).mpr (Or.inl rfl)
  rw [hrender] at hfault
  cases hfault
  cases hkind

end Advent.Puzzle.Image
