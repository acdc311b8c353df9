import FiniteState.Dataset.Example
import FiniteState.Proofs.Computation
import FiniteState.Proofs.Lists
import FiniteState.Proofs.Text

/-!
# Splits are read back

The line of an example is cut at its first tab and ends at its line feed, so an example is read back
if its word has neither character; and no other word is ever read, whatever the text. Nothing else
about a word matters: a line is never blank, since it has a verdict, and it never ends in a carriage
return, since it ends in its verdict.

* `Example.ofLine_line`: a line without a tab in its word is read back.
* `Split.lines_text`: the lines of a split are those of its examples.
* `Split.ofText_text_iff`: which splits are read back.
-/

namespace FiniteState

/-- The name of a verdict is read as that verdict, though names are read in any case. -/
theorem Verdict.parse?_name (v : Verdict) :
    parse? (String.ofList (Text.trimBlank v.name.toList)) = some v := by
  have htrim : Text.trimBlank v.name.toList = v.name.toList := by cases v <;> decide
  have hlower : ∀ s : String, s.toLower.toList = s.toList.map Char.toLower :=
    fun s => String.toList_map
  rw [htrim, String.ofList_toList, parse?]
  simp only [← String.toList_inj, hlower]
  cases v <;> decide

namespace Example

variable {e : Example} {number : Nat} {line before after : List Char}

/-- The cut is at the first tab. -/
theorem cutAtTab?_eq_some_iff :
    cutAtTab? line = some (before, after) ↔ line = before ++ '\t' :: after ∧ '\t' ∉ before := by
  -- by induction on the line: the cut is here, or in the rest
  induction line generalizing before with
  | nil => simp [cutAtTab?]
  | cons c rest ih =>
    unfold cutAtTab?
    by_cases hc : c = '\t'
    · subst hc
      rw [if_pos rfl, Option.some.injEq, Prod.mk.injEq]
      constructor
      · rintro ⟨rfl, rfl⟩
        exact ⟨rfl, List.not_mem_nil⟩
      · rintro ⟨hrest, hbefore⟩
        cases before with
        | nil => exact ⟨rfl, (List.cons.inj hrest).2⟩
        | cons d before =>
          rw [List.cons_append, List.cons.injEq] at hrest
          exact absurd (hrest.1 ▸ List.mem_cons_self) hbefore
    · rw [if_neg hc, Option.map_eq_some_iff]
      constructor
      · rintro ⟨⟨before', after'⟩, hcut, heq⟩
        obtain ⟨rfl, rfl⟩ := Prod.mk.inj heq
        obtain ⟨rfl, hbefore⟩ := ih.1 hcut
        refine ⟨rfl, fun hmem => ?_⟩
        exact (List.mem_cons.1 hmem).elim (fun h => hc h.symm) hbefore
      · rintro ⟨hrest, hbefore⟩
        cases before with
        | nil => exact absurd (List.cons.inj hrest).1 hc
        | cons d before =>
          rw [List.cons_append, List.cons.injEq] at hrest
          obtain ⟨rfl, rfl⟩ := hrest
          exact ⟨(before, after), ih.2 ⟨rfl, fun h => hbefore (List.mem_cons_of_mem _ h)⟩, rfl⟩

theorem toList_line (e : Example) :
    e.line.toList = e.word.toList ++ '\t' :: e.verdict.name.toList := by
  rw [line, String.toList_append, String.toList_append, List.append_assoc]
  rfl

/-- A line without a tab in its word is read back. -/
theorem ofLine_line (h : '\t' ∉ e.word.toList) (number : Nat) :
    ofLine number e.line.toList = .ok e := by
  have hcut : cutAtTab? e.line.toList = some (e.word.toList, e.verdict.name.toList) :=
    cutAtTab?_eq_some_iff.2 ⟨e.toList_line, h⟩
  rw [ofLine, hcut]
  dsimp only
  rw [Verdict.parse?_name]
  dsimp only
  rw [String.ofList_toList]

/-- The word that is read is what stands before the first tab. -/
theorem word_of_ofLine (h : ofLine number line = .ok e) :
    '\t' ∉ e.word.toList ∧ e.word.toList ⊆ line := by
  unfold ofLine at h
  split at h
  · cases h
  next before after hcut =>
    obtain ⟨rfl, hbefore⟩ := cutAtTab?_eq_some_iff.1 hcut
    dsimp only at h
    split at h
    · rw [← Except.ok.inj h, String.toList_ofList]
      exact ⟨hbefore, List.subset_append_left _ _⟩
    · cases h

/-- The verdict is not blank, so the line is not. -/
theorem trimBlank_line_ne_nil (e : Example) : Text.trimBlank e.line.toList ≠ [] := by
  obtain ⟨c, hc, hblank⟩ : ∃ c ∈ e.verdict.name.toList, Text.isBlank c = false := by
    cases e.verdict <;> exact ⟨'E', by decide, by decide⟩
  refine List.ne_nil_of_mem (Text.mem_trimBlank hblank ?_)
  rw [toList_line]
  exact List.mem_append_right _ (List.mem_cons_of_mem _ hc)

/-- The line ends in its verdict. -/
theorem dropReturn_line (e : Example) : Text.dropReturn e.line.toList = e.line.toList := by
  have hlast : e.line.toList.getLast? = some 'E' := by
    rw [toList_line, List.getLast?_append]
    cases e.verdict <;> rfl
  rw [Text.dropReturn, hlast, if_neg (by decide)]

end Example

namespace Split

variable {p : Split}

/-- The text of a split, as characters: each line is closed. -/
theorem toList_text (p : Split) :
    p.text.toList = (p.examples.map fun e => e.line.toList).flatMap (· ++ ['\n']) := by
  simp only [text, String.toList_join, List.flatMap_map, String.toList_append]
  rfl

/-- Words without line feeds do not end a line. -/
theorem lines_text (h : ∀ e ∈ p.examples, '\n' ∉ e.word.toList) :
    Text.lines p.text.toList = p.examples.map fun e => e.line.toList := by
  have hfeed : ∀ u ∈ p.examples.map fun e => e.line.toList, '\n' ∉ u := by
    intro u hu
    obtain ⟨e, he, rfl⟩ := List.mem_map.1 hu
    have hverdict : '\n' ∉ '\t' :: e.verdict.name.toList := by cases e.verdict <;> decide
    rw [Example.toList_line, List.mem_append, not_or]
    exact ⟨h e he, hverdict⟩
  rw [toList_text, Text.lines_flatMap hfeed, List.map_map]
  exact List.map_congr_left fun e _ => e.dropReturn_line

/-- A split whose words have neither a tab nor a line break in them is read back from its text. -/
theorem ofText_text (h : ∀ e ∈ p.examples, '\t' ∉ e.word.toList ∧ '\n' ∉ e.word.toList) :
    ofText p.name p.text = .ok p := by
  have hlines := lines_text fun e he => (h e he).2
  have hnumbered : numberedLines p.text.toList
      = (p.examples.map fun e => e.line.toList).zipIdx 1 := by
    rw [numberedLines, hlines, List.filter_eq_self]
    rintro ⟨u, number⟩ hu
    obtain ⟨e, -, rfl⟩ := List.mem_map.1 (List.fst_mem_of_mem_zipIdx hu)
    simpa using e.trimBlank_line_ne_nil
  have hread : List.Forall₂ (fun u e => ∀ number, Example.ofLine number u = .ok e)
      ((numberedLines p.text.toList).map Prod.fst) p.examples := by
    rw [hnumbered, List.zipIdx_map_fst, List.forall₂_map_left_iff, List.forall₂_same]
    exact fun e he => Example.ofLine_line (h e he).1
  exact Except.bind_eq_ok.2 ⟨_, Except.mapM_numbered (f := Example.ofLine) hread, rfl⟩

/-- Whatever is read, there is no tab and no line feed in a word. -/
theorem word_of_ofText {name text : String} (h : ofText name text = .ok p) :
    ∀ e ∈ p.examples, '\t' ∉ e.word.toList ∧ '\n' ∉ e.word.toList := by
  obtain ⟨examples, hexamples, hp⟩ := Except.bind_eq_ok.1 h
  rw [← Except.ok.inj hp]
  intro e he
  obtain ⟨⟨u, number⟩, hu, hread⟩ :=
    exists_left_of_forall₂ (Except.forall₂_of_mapM hexamples) he
  obtain ⟨htab, hsubset⟩ := Example.word_of_ofLine hread
  have hline : u ∈ Text.lines text.toList :=
    List.fst_mem_of_mem_zipIdx (List.mem_filter.1 hu).1
  exact ⟨htab, fun hfeed => Text.not_mem_of_mem_lines hline (hsubset hfeed)⟩

/-- A split is read back, as a value, exactly if no word in it contains a tab or a line feed. -/
theorem ofText_text_iff (p : Split) :
    ofText p.name p.text = .ok p
      ↔ ∀ e ∈ p.examples, '\t' ∉ e.word.toList ∧ '\n' ∉ e.word.toList :=
  ⟨word_of_ofText, ofText_text⟩

end Split

end FiniteState
