import FiniteState.Text.Numeral
import FiniteState.Text.Pieces
import Mathlib.Data.List.Basic

/-!
# What is written apart is read apart

Cutting is described by what it does at a cut: what stands on either side is cut on its own
(`pieces_append_cons`). Lines and fields inherit that equation, so a row that is put together from
fields comes apart into the same fields (`rows_row_append`). Blanks are lost at the end of a line
(`rows_append_blanks`).

The decimal form of a number within the bound is a numeral of that number (`numeral?_toString`).
-/

namespace FiniteState.Text

variable {cut : Char → Bool} {u v : List Char} {c : Char}

/-! ## Pieces -/

theorem pieces_cons_of_cut (h : cut c = true) (text : List Char) :
    pieces cut (c :: text) = [] :: pieces cut text := by
  show (if cut c then [] :: pieces cut text else _) = _
  rw [if_pos h]

theorem pieces_cons_of_not_cut (h : cut c = false) {piece : List Char} {more : List (List Char)}
    {text : List Char} (htext : pieces cut text = piece :: more) :
    pieces cut (c :: text) = (c :: piece) :: more := by
  rw [pieces] at htext ⊢
  rw [List.foldr_cons, if_neg (by simp [h]), htext]

theorem pieces_eq_singleton (hu : ∀ d ∈ u, cut d = false) : pieces cut u = [u] := by
  induction u with
  | nil => rfl
  | cons d u ih =>
    exact pieces_cons_of_not_cut (hu d (by simp)) (ih fun d' hd' => hu d' (by simp [hd']))

/-- What stands before a cut and what stands behind it are cut on their own. -/
theorem pieces_append_cons (hc : cut c = true) (u v : List Char) :
    pieces cut (u ++ c :: v) = pieces cut u ++ pieces cut v := by
  induction u with
  | nil => exact pieces_cons_of_cut hc v
  | cons d u ih =>
    cases hd : cut d with
    | true => rw [List.cons_append, pieces_cons_of_cut hd, ih, pieces_cons_of_cut hd]; rfl
    | false =>
      obtain ⟨piece, more, hu⟩ := List.exists_cons_of_ne_nil (pieces_ne_nil cut u)
      rw [hu, List.cons_append] at ih
      rw [List.cons_append, pieces_cons_of_not_cut hd ih, pieces_cons_of_not_cut hd hu]
      rfl

/-- No piece has the character in it at which the text is cut. -/
theorem not_mem_of_mem_pieces (hc : cut c = true) {piece text : List Char}
    (h : piece ∈ pieces cut text) : c ∉ piece := by
  induction text generalizing piece with
  | nil => rw [List.mem_singleton.1 h]; exact List.not_mem_nil
  | cons d text ih =>
    -- a cut closes a piece, any other character joins the first one
    cases hd : cut d with
    | true =>
      rw [pieces_cons_of_cut hd] at h
      rcases List.mem_cons.1 h with rfl | h
      · exact List.not_mem_nil
      · exact ih h
    | false =>
      obtain ⟨first, more, htext⟩ := List.exists_cons_of_ne_nil (pieces_ne_nil cut text)
      rw [htext] at ih
      rw [pieces_cons_of_not_cut hd htext] at h
      rcases List.mem_cons.1 h with rfl | h
      · intro hmem
        rcases List.mem_cons.1 hmem with rfl | hmem
        · rw [hc] at hd
          cases hd
        · exact ih List.mem_cons_self hmem
      · exact ih (List.mem_cons_of_mem _ h)

/-! ## Fields and lines -/

/-- A text that is read as one field. -/
def IsField (f : List Char) : Prop := f ≠ [] ∧ ∀ d ∈ f, isBlank d = false

theorem all_not_isBlank_iff (f : List Char) :
    f.all (!isBlank ·) = true ↔ ∀ d ∈ f, isBlank d = false := by
  simp only [List.all_eq_true, Bool.not_eq_true']

-- goes through the text, not through all characters there are
instance (f : List Char) : Decidable (IsField f) :=
  decidable_of_iff _ (and_congr_right fun _ : f ≠ [] => all_not_isBlank_iff f)

theorem IsField.fields_eq (hu : IsField u) : fields u = [u] := by
  rw [fields, pieces_eq_singleton hu.2, List.filter_cons_of_pos (by simpa using hu.1),
    List.filter_nil]

/-- A blank separates the fields before it from those after it. -/
theorem fields_append_cons (hc : isBlank c = true) (u v : List Char) :
    fields (u ++ c :: v) = fields u ++ fields v := by
  rw [fields, pieces_append_cons hc, List.filter_append, fields, fields]

theorem IsField.not_mem (hu : IsField u) (hc : isBlank c = true) : c ∉ u := by
  intro hmem
  rw [hu.2 c hmem] at hc
  cases hc

/-- A line of fields with tabs between them. -/
def row (fs : List (List Char)) : List Char := ['\t'].intercalate fs

theorem row_cons_cons (f f' : List Char) (fs : List (List Char)) :
    row (f :: f' :: fs) = f ++ '\t' :: row (f' :: fs) := by
  rw [row, row, List.intercalate_cons_cons, List.append_assoc, List.singleton_append]

theorem row_singleton (f : List Char) : row [f] = f := List.intercalate_singleton

/-- The fields of a row are read back. -/
theorem fields_row {fs : List (List Char)} (h : ∀ f ∈ fs, IsField f) : fields (row fs) = fs := by
  induction fs with
  | nil => rfl
  | cons f fs ih =>
    have ih := ih fun f' hf' => h f' (by simp [hf'])
    cases fs with
    | nil => rw [row_singleton, (h f (by simp)).fields_eq]
    | cons f' fs =>
      rw [row_cons_cons, fields_append_cons (by decide), (h f (by simp)).fields_eq, ih]
      rfl

/-- The only blanks of a row are its tabs. -/
theorem eq_tab_of_mem_row {fs : List (List Char)} (h : ∀ f ∈ fs, IsField f) {d : Char}
    (hd : d ∈ row fs) (hblank : isBlank d = true) : d = '\t' := by
  have hfield : ∀ f ∈ fs, d ∉ f := fun f hf hd => by simp [(h f hf).2 d hd] at hblank
  induction fs with
  | nil => exact absurd hd List.not_mem_nil
  | cons f fs ih =>
    cases fs with
    | nil => exact absurd (row_singleton f ▸ hd) (hfield f (by simp))
    | cons f' fs =>
      rw [row_cons_cons, List.mem_append, List.mem_cons] at hd
      rcases hd with hd | hd | hd
      · exact absurd hd (hfield f (by simp))
      · exact hd
      · exact ih (fun f hf => h f (by simp [hf])) hd fun f hf => hfield f (by simp [hf])

/-- A line ends at the first line feed. -/
theorem lines_append_cons (hu : '\n' ∉ u) (v : List Char) :
    lines (u ++ '\n' :: v) = dropReturn u :: lines v := by
  have hpiece : pieces (· == '\n') u = [u] :=
    pieces_eq_singleton fun d hd => by simpa using fun h : d = '\n' => hu (h ▸ hd)
  rw [lines, lines, pieces_append_cons (by decide), hpiece]
  -- the cut of the rest has a piece, so `u` is not the last one
  cases hv : pieces (· == '\n') v with
  | nil => exact absurd hv (pieces_ne_nil _ _)
  | cons piece more => rfl

/-- Lines that are ended by line feeds are the lines of the text, but for carriage returns. -/
theorem lines_flatMap {us : List (List Char)} (hus : ∀ u ∈ us, '\n' ∉ u) :
    lines (us.flatMap (· ++ ['\n'])) = us.map dropReturn := by
  induction us with
  | nil => rfl
  | cons u us ih =>
    obtain ⟨hu, hus⟩ := List.forall_mem_cons.1 hus
    rw [List.flatMap_cons, List.append_assoc, List.singleton_append, lines_append_cons hu, ih hus,
      List.map_cons]

/-- Dropping a return leaves part of the line. -/
theorem dropReturn_sublist (u : List Char) : (dropReturn u).Sublist u := by
  unfold dropReturn
  split
  · exact List.dropLast_sublist u
  · exact List.Sublist.refl u

theorem exists_piece_of_mem_linesOfPieces {ps : List (List Char)} (h : u ∈ linesOfPieces ps) :
    ∃ p ∈ ps, u.Sublist p := by
  fun_induction linesOfPieces ps with
  | case1 => cases h
  | case2 => cases h
  | case3 last => exact ⟨last, List.mem_cons_self, List.mem_singleton.1 h ▸ .refl _⟩
  | case4 p more hmore ih =>
    rcases List.mem_cons.1 h with rfl | h
    · exact ⟨p, List.mem_cons_self, dropReturn_sublist p⟩
    · obtain ⟨p', hp', hu⟩ := ih h
      exact ⟨p', List.mem_cons_of_mem _ hp', hu⟩

/-- There is no line feed in a line. -/
theorem not_mem_of_mem_lines {text : List Char} (h : u ∈ lines text) : '\n' ∉ u := by
  obtain ⟨p, hp, hu⟩ := exists_piece_of_mem_linesOfPieces h
  exact fun hfeed => not_mem_of_mem_pieces (by decide) hp (hu.subset hfeed)

/-- A carriage return at the end of a line is in none of its fields. -/
theorem fields_dropReturn (u : List Char) : fields (dropReturn u) = fields u := by
  unfold dropReturn
  split
  · next hlast =>
    obtain ⟨v, rfl⟩ := List.getLast?_eq_some_iff.1 hlast
    rw [List.dropLast_concat, fields_append_cons (by decide)]
    exact (List.append_nil _).symm
  · rfl

/-- A character that is not blank survives when blanks are dropped in front. -/
theorem mem_dropWhile_isBlank (hc : isBlank c = false) (h : c ∈ u) : c ∈ u.dropWhile isBlank := by
  rw [← List.takeWhile_append_dropWhile (p := isBlank) (l := u), List.mem_append] at h
  refine h.resolve_left fun htake => ?_
  rw [List.all_eq_true.1 List.all_takeWhile c htake] at hc
  cases hc

/-- Only blanks are dropped at the ends. -/
theorem mem_trimBlank (hc : isBlank c = false) (h : c ∈ u) : c ∈ trimBlank u := by
  rw [trimBlank, List.mem_reverse]
  exact mem_dropWhile_isBlank hc (List.mem_reverse.2 (mem_dropWhile_isBlank hc h))

/-! ## Rows

What a reader sees of a text are the fields of its lines. These are followed through the written
form, with and without blanks among the symbols. -/

/-- The fields of the lines that are not blank. -/
def rows (text : List Char) : List (List (List Char)) :=
  ((lines text).map fields).filter (! ·.isEmpty)

/-- A line break closes a row, which counts if it has fields. -/
theorem rows_append_cons (hu : '\n' ∉ u) (v : List Char) :
    rows (u ++ '\n' :: v) = (if fields u = [] then [] else [fields u]) ++ rows v := by
  rw [rows, lines_append_cons hu, List.map_cons, fields_dropReturn]
  split
  · next hfields => rw [hfields]; rfl
  · next hfields => rw [List.filter_cons_of_pos (by simpa using hfields)]; rfl

/-- A row comes apart into the fields that it was put together from. -/
theorem rows_row_append {fs : List (List Char)} (h : ∀ f ∈ fs, IsField f) (hne : fs ≠ [])
    (v : List Char) : rows (row fs ++ '\n' :: v) = fs :: rows v := by
  have hfeed : '\n' ∉ row fs := fun hmem =>
    absurd (eq_tab_of_mem_row h hmem (by decide)) (by decide)
  rw [rows_append_cons hfeed, fields_row h, if_neg hne]
  rfl

/-- Blanks at the end of a line are lost, also those that end the line themselves. -/
theorem rows_append_blanks (hu : '\n' ∉ u) {blanks : List Char}
    (hblanks : ∀ d ∈ blanks, isBlank d = true) (v : List Char) :
    rows (u ++ (blanks ++ '\n' :: v)) = (if fields u = [] then [] else [fields u]) ++ rows v := by
  induction blanks generalizing u with
  | nil => exact rows_append_cons hu v
  | cons d blanks ih =>
    obtain ⟨hd, hblanks⟩ := List.forall_mem_cons.1 hblanks
    by_cases hfeed : d = '\n'
    · -- the line ends here, and what follows up to the line feed is a blank line
      have hrest : rows ([] ++ (blanks ++ '\n' :: v)) = rows v := ih List.not_mem_nil hblanks
      rw [hfeed, List.cons_append, rows_append_cons hu]
      exact congrArg (_ ++ ·) hrest
    · have hfields : fields (u ++ [d]) = fields u := by
        rw [fields_append_cons hd]
        exact List.append_nil _
      have hud : '\n' ∉ u ++ [d] := by simp [hu, Ne.symm hfeed]
      rw [List.cons_append, List.append_cons u d, ih hud hblanks, hfields]

/-- Fields that are blanks are lost. -/
theorem rows_row_blank_append {f g : List Char} (hf : IsField f) (hg : IsField g)
    (hc : isBlank c = true) (v : List Char) :
    rows (row [f, g, [c], [c]] ++ '\n' :: v) = [f, g] :: rows v := by
  have hrow : row [f, g, [c], [c]] ++ '\n' :: v
      = (f ++ '\t' :: g) ++ (['\t', c, '\t', c] ++ '\n' :: v) := by
    simp only [row_cons_cons, row_singleton, List.append_assoc, List.cons_append, List.nil_append]
  have hfeed : '\n' ∉ f ++ '\t' :: g := by
    simp [hf.not_mem (c := '\n') (by decide), hg.not_mem (c := '\n') (by decide)]
  have hfields : fields (f ++ '\t' :: g) = [f, g] := by
    rw [fields_append_cons (by decide), hf.fields_eq, hg.fields_eq]
    rfl
  have htab : isBlank '\t' = true := by decide
  rw [hrow, rows_append_blanks hfeed (by simp [htab, hc]), hfields]
  rfl

/-! ## Numerals -/

/-- A number is written with its decimal digits. -/
theorem toList_toString (n : Nat) : (toString n).toList = Nat.toDigits 10 n := by
  rw [Nat.toString_eq_repr, Nat.toList_repr]

theorem isDigit_of_mem_toString {n : Nat} (h : c ∈ (toString n).toList) : c.isDigit = true := by
  rw [toList_toString] at h
  exact Nat.isDigit_of_mem_toDigits (by decide) (by decide) h

theorem toString_ne_nil (n : Nat) : (toString n).toList ≠ [] := by
  rw [toList_toString]
  exact Nat.toDigits_ne_nil

theorem isBlank_of_isDigit (h : c.isDigit = true) : isBlank c = false := by
  have hrange : 48 ≤ c.toNat ∧ c.toNat ≤ 57 := by
    simpa [Char.isDigit, Char.le_def, UInt32.le_iff_toNat_le] using h
  simp only [isBlank, Bool.or_eq_false_iff, Bool.and_eq_false_iff, decide_eq_false_iff_not,
    beq_eq_false_iff_ne]
  omega

theorem isField_toString (n : Nat) : IsField (toString n).toList :=
  ⟨toString_ne_nil n, fun _ hd => isBlank_of_isDigit (isDigit_of_mem_toString hd)⟩

theorem valueOfDigits_toDigits (n : Nat) : valueOfDigits (Nat.toDigits 10 n) = n :=
  Nat.ofDigitChars_ten_toDigits

/-- There is a plus sign to drop only if the text has one. -/
theorem dropPlus_of_ne {text : List Char} (h : '+' ∉ text) : dropPlus text = text := by
  cases text with
  | nil => rfl
  | cons d text =>
    rw [dropPlus]
    rintro rest ⟨⟩
    simp at h

/-- A number reads back from its decimal form. -/
theorem numeral?_toString {bound n : Nat} (h : n ≤ bound) :
    numeral? bound (toString n).toList = some n := by
  have hplus : '+' ∉ (toString n).toList := fun hmem =>
    absurd (isDigit_of_mem_toString hmem) (by decide)
  have hdigits : ((toString n).toList.all Char.isDigit) = true :=
    List.all_eq_true.2 fun d hd => isDigit_of_mem_toString hd
  have hvalue : valueOfDigits (toString n).toList = n := by
    rw [toList_toString, valueOfDigits_toDigits]
  rw [numeral?, dropPlus_of_ne hplus]
  simp only [hdigits, hvalue, h, if_true, Bool.not_true, Bool.or_false, List.isEmpty_iff,
    toString_ne_nil, if_false]

end FiniteState.Text
