import FiniteState.Automaton.Listing
import FiniteState.Proofs.Blueprint
import FiniteState.Proofs.Construct
import FiniteState.Proofs.Text

/-!
# Listings are read back

Writing and reading go through the same lines. The lines of a listing are read as what is seen of
them, and that is what they say unless there are blanks among the symbols (`read_write`,
`read_eq_build`). What all the lines say is a blueprint of the automaton that they were written for
(`LinesFor.describes`). The second part needs a trimmed automaton: a reader learns of a state only
if it has a line. Every state of a trimmed automaton has one, since it accepts or has a transition
on the way to a state that does, unless nothing is accepted; then there is only the start state.
-/

namespace FiniteState

/-! ## Names -/

/-- A marker is found by its name, as the names differ. -/
theorem EditMarker.find?_name (m : EditMarker) :
    all.find? (fun m' => m'.name == m.name) = some m := by
  cases m <;> decide

namespace Alphabet

variable {S : Alphabet}

/-- A marker is found by its symbol, as the symbols differ. -/
theorem find?_marker (S : Alphabet) (m : EditMarker) :
    EditMarker.all.find? (fun m' => S.marker m' == S.marker m) = some m := by
  have hmarker : ∀ m', (S.marker m' == S.marker m) = (m'.offset == m.offset) := by
    intro m'
    simp [marker, Bool.beq_eq_decide_eq]
  simp only [hmarker]
  cases m <;> decide

/-- A declared symbol is a character of Σ or an edit marker. -/
theorem char_or_marker_of_mem {s : Symbol} (hs : s ∈ S.sigmaWithMarkers) :
    (∃ c, S.symbols[s.code]? = some c) ∨ ∃ m, s = S.marker m := by
  refine (mem_sigmaWithMarkers_iff.1 hs).imp_left fun hs => ?_
  exact ⟨_, List.getElem?_eq_getElem (of_decide_eq_true hs)⟩

theorem toList_name {s : Symbol} {c : Char} (h : S.symbols[s.code]? = some c) :
    (S.name s).toList = [c] := by
  rw [name, h]
  exact String.toList_singleton c

/-- A marker's symbol has the name of the marker. -/
theorem name_marker (S : Alphabet) (m : EditMarker) : S.name (S.marker m) = m.name := by
  have hnone : S.symbols[(S.marker m).code]? = none :=
    List.getElem?_eq_none (Nat.le_add_right _ _)
  rw [name, hnone, find?_marker]

/-- No character has the name of a marker, or of epsilon. -/
theorem name_ne_of_getElem? {s : Symbol} {c : Char} (h : S.symbols[s.code]? = some c)
    {other : String} (hother : other.toList.length ≠ 1) : S.name s ≠ other := by
  intro heq
  rw [← heq, toList_name h] at hother
  exact hother rfl

/-- The name of a declared symbol names it. -/
theorem symbolByName?_name {s : Symbol} (hs : s ∈ S.sigmaWithMarkers) :
    S.symbolByName? (S.name s) = some s := by
  rcases char_or_marker_of_mem hs with ⟨c, hc⟩ | ⟨m, rfl⟩
  · have hnone : EditMarker.all.find? (fun m => m.name == S.name s) = none := by
      apply List.find?_eq_none.2
      intro m _ hname
      exact name_ne_of_getElem? hc (by cases m <;> decide) (eq_of_beq hname).symm
    rw [symbolByName?, hnone, toList_name hc]
    exact symbol?_of_getElem? hc
  · rw [name_marker, symbolByName?, EditMarker.find?_name]

end Alphabet

namespace Label

variable {S : Alphabet} {l : Label}

/-- The label is epsilon, a symbol of Σ or an edit marker. -/
def Declared (S : Alphabet) : Label → Prop
  | epsilon => True
  | symbol s => s ∈ S.sigmaWithMarkers

instance (S : Alphabet) : (l : Label) → Decidable (l.Declared S)
  | epsilon => .isTrue trivial
  | symbol s => inferInstanceAs (Decidable (s ∈ S.sigmaWithMarkers))

/-- A declared label is read back from its text. -/
theorem readLabel_render (hl : l.Declared S) (line : Nat) :
    Listing.readLabel S line (l.render S).toList = .ok l := by
  unfold Listing.readLabel
  rw [String.ofList_toList]
  cases l with
  | epsilon => exact if_pos rfl
  | symbol s =>
    have hname : S.name s ≠ epsilonName := by
      rcases Alphabet.char_or_marker_of_mem hl with ⟨c, hc⟩ | ⟨m, rfl⟩
      · exact Alphabet.name_ne_of_getElem? hc (by decide)
      · rw [Alphabet.name_marker]
        cases m <;> decide
    rw [render, if_neg hname, Alphabet.symbolByName?_name hl]

/-- The label is a symbol whose character is a blank. -/
def isBlank (S : Alphabet) : Label → Bool
  | epsilon => false
  | symbol s => S.symbols[s.code]?.any Text.isBlank

theorem isBlank_eq_false (hS : ∀ c ∈ S.symbols, Text.isBlank c = false) (l : Label) :
    l.isBlank S = false := by
  cases l with
  | epsilon => rfl
  | symbol s =>
    show S.symbols[s.code]?.any Text.isBlank = false
    cases hc : S.symbols[s.code]? with
    | none => rfl
    | some c => exact hS c (List.mem_of_getElem? hc)

/-- A blank is written as such. -/
theorem toList_render_of_isBlank (h : l.isBlank S = true) :
    ∃ c, Text.isBlank c = true ∧ (l.render S).toList = [c] := by
  cases l with
  | epsilon => cases h
  | symbol s =>
    obtain ⟨c, hc, hblank⟩ := (Option.any_eq_true _ _).1 h
    exact ⟨c, hblank, Alphabet.toList_name hc⟩

/-- The text of a label that is not blank is a field. -/
theorem isField_render (hl : l.Declared S) (hblank : l.isBlank S = false) :
    Text.IsField (l.render S).toList := by
  cases l with
  | epsilon =>
    show Text.IsField epsilonName.toList
    decide
  | symbol s =>
    show Text.IsField (S.name s).toList
    rcases Alphabet.char_or_marker_of_mem hl with ⟨c, hc⟩ | ⟨m, rfl⟩
    · rw [Alphabet.toList_name hc]
      refine ⟨List.cons_ne_nil _ _, fun d hd => ?_⟩
      simp only [isBlank, hc, Option.any_some] at hblank
      rw [List.mem_singleton.1 hd, hblank]
    · rw [Alphabet.name_marker]
      cases m <;> decide

end Label

/-! ## Lines

What is written and what is read are compared line by line. A line with blanks for labels is read as
another line, which is what `seen` is for. -/

namespace Listing

variable {S : Alphabet}

/-- The fields in which a line is written. -/
def Line.fields (S : Alphabet) : Line → List (List Char)
  | link ⟨q, t⟩ => [(toString q).toList, (toString t.target).toList, (t.input.render S).toList,
      (t.output.render S).toList]
  | accepting q => [(toString q).toList, ['0']]

/-- What a line needs in order to be read: state numbers within their bound, and labels with
names. -/
def Line.Readable (S : Alphabet) : Line → Prop
  | link ⟨q, t⟩ => q ≤ Text.maxState ∧ t.target ≤ Text.maxState
      ∧ t.input.Declared S ∧ t.output.Declared S
  | accepting q => q ≤ Text.maxState

/-- A number in range is read back from its decimal digits. -/
theorem readState_toString {q : Nat} (hq : q ≤ Text.maxState) (line : Nat) :
    readState line (toString q).toList = .ok q := by
  rw [readState, Text.numeral?_toString hq]

/-- A line is read as what it says. -/
theorem readLine_fields {l : Line} (hl : l.Readable S) (line : Nat) :
    readLine S line (l.fields S) = .ok l := by
  cases l with
  | link l =>
    obtain ⟨hsource, htarget, hinput, houtput⟩ := hl
    show readTransition S line _ _ _ _ = _
    unfold readTransition
    rw [readState_toString hsource, readState_toString htarget, Label.readLabel_render hinput,
      Label.readLabel_render houtput]
    rfl
  | accepting q =>
    show (readState line (toString q).toList >>= fun q => pure (Line.accepting q)) = _
    rw [readState_toString hl]
    rfl

/-- What keeps the fields of a line apart: blanks are on no tape, or on both. -/
def Line.Apart (S : Alphabet) : Line → Prop
  | link ⟨_, t⟩ => t.input.isBlank S = true ∧ t.output = t.input
      ∨ t.input.isBlank S = false ∧ t.output.isBlank S = false
  | accepting _ => True

/-- What a reader sees of a line. Of a transition with blanks for labels, the fields of the states
are left, and these are read as a final state with its weight. -/
def Line.seen (S : Alphabet) : Line → Line
  | link l => if l.arc.input.isBlank S then accepting l.source else link l
  | accepting q => accepting q

/-- Every line has a first field, for its state. -/
theorem fields_ne_nil (S : Alphabet) (l : Line) : l.fields S ≠ [] := by
  cases l <;> exact List.cons_ne_nil _ _

/-- The written form of lines. -/
def write (S : Alphabet) (ls : List Line) : List Char :=
  ls.flatMap fun l => Text.row (l.fields S) ++ ['\n']

/-- A written line is read as what is seen of it, whatever its number. -/
theorem exists_rows_eq_cons {l : Line} (hl : l.Readable S) (hapart : l.Apart S) (v : List Char) :
    ∃ fs, Text.rows (Text.row (l.fields S) ++ '\n' :: v) = fs :: Text.rows v
      ∧ ∀ line, readLine S line fs = .ok (l.seen S) := by
  cases l with
  | link l =>
    obtain ⟨q, t⟩ := l
    obtain ⟨hsource, -, hinput, houtput⟩ := id hl
    rcases hapart with ⟨hblank, hcopying⟩ | ⟨hblank, hblank'⟩
    · -- both labels are the blank, so the fields after the target are lost in the separators
      obtain ⟨c, hc, hrender⟩ := Label.toList_render_of_isBlank hblank
      refine ⟨[(toString q).toList, (toString t.target).toList], ?_, fun line => ?_⟩
      · show Text.rows
          (Text.row [_, _, (t.input.render S).toList, (t.output.render S).toList] ++ _) = _
        rw [hcopying, hrender]
        exact Text.rows_row_blank_append (Text.isField_toString _) (Text.isField_toString _) hc v
      · show (readState line (toString q).toList >>= fun q => pure (Line.accepting q)) = _
        rw [readState_toString hsource, Line.seen, if_pos hblank]
        rfl
    · -- neither label is a blank, so all four fields are read
      refine ⟨_, Text.rows_row_append ?_ (fields_ne_nil S _) v, fun line => ?_⟩
      · simp only [Line.fields, List.forall_mem_cons, List.not_mem_nil, IsEmpty.forall_iff,
          implies_true, and_true]
        exact ⟨Text.isField_toString _, Text.isField_toString _,
          Label.isField_render hinput hblank, Label.isField_render houtput hblank'⟩
      · rw [readLine_fields hl, Line.seen, if_neg (by simp [hblank])]
  | accepting q =>
    refine ⟨_, Text.rows_row_append ?_ (fields_ne_nil S _) v, fun line => readLine_fields hl line⟩
    simp only [Line.fields, List.forall_mem_cons, List.not_mem_nil, IsEmpty.forall_iff,
      implies_true, and_true]
    exact ⟨Text.isField_toString _, by decide⟩

/-- Each written line is read back as it is seen. -/
theorem forall₂_rows_write {ls : List Line} (hls : ∀ l ∈ ls, l.Readable S ∧ l.Apart S) :
    List.Forall₂ (fun fs l => ∀ line, readLine S line fs = .ok l) (Text.rows (write S ls))
      (ls.map (Line.seen S)) := by
  induction ls with
  | nil => exact .nil
  | cons l ls ih =>
    obtain ⟨⟨hl, hapart⟩, hls⟩ := List.forall_mem_cons.1 hls
    obtain ⟨fs, hrows, hread⟩ := exists_rows_eq_cons hl hapart (write S ls)
    have hwrite : write S (l :: ls) = Text.row (l.fields S) ++ '\n' :: write S ls := by
      simp [write]
    rw [hwrite, hrows]
    exact .cons hread (ih hls)

theorem map_fst_numberedFields (text : List Char) :
    (numberedFields text).map Prod.fst = Text.rows text := by
  have hfilter : numberedFields text
      = (((Text.lines text).map Text.fields).zipIdx 1).filter ((!·.isEmpty) ∘ Prod.fst) := rfl
  rw [hfilter, ← List.filter_map, List.zipIdx_map_fst]
  rfl

/-- A text is read as a blueprint of what its rows say. -/
theorem read_of_rows {ls : List Line} {text : String}
    (hrows : List.Forall₂ (fun fs l => ∀ line, readLine S line fs = .ok l)
      (Text.rows text.toList) ls) : read S text = (blueprint ls).build S := by
  rw [← map_fst_numberedFields] at hrows
  rw [read, Except.mapM_numbered (f := readLine S) hrows]
  rfl

/-- What is written is read as a blueprint of what is seen of it. -/
theorem read_write {ls : List Line} (hls : ∀ l ∈ ls, l.Readable S ∧ l.Apart S) {text : String}
    (htext : text.toList = write S ls) :
    read S text = (blueprint (ls.map (Line.seen S))).build S :=
  read_of_rows (htext ▸ forall₂_rows_write hls)

/-- Without blanks among the symbols, that is a blueprint of what is written. -/
theorem read_eq_build (hS : ∀ c ∈ S.symbols, Text.isBlank c = false) {ls : List Line}
    (hls : ∀ l ∈ ls, l.Readable S) {text : String} (htext : text.toList = write S ls) :
    read S text = (blueprint ls).build S := by
  have hblank := Label.isBlank_eq_false hS
  have hapart : ∀ l ∈ ls, l.Readable S ∧ l.Apart S := by
    intro l hl
    cases l with
    | link l => exact ⟨hls _ hl, .inr ⟨hblank _, hblank _⟩⟩
    | accepting q => exact ⟨hls _ hl, trivial⟩
  have hseen : ls.map (Line.seen S) = ls := by
    refine List.map_id'' (fun l => ?_) ls
    cases l with
    | link l => exact if_neg (by simp [hblank])
    | accepting q => rfl
  rw [read_write hapart htext, hseen]

end Listing

namespace Automaton

variable {A : Automaton}

/-! ## The lines of an automaton -/

/-- What the listing says of a state. -/
def linesOf (A : Automaton) (q : Nat) : List Listing.Line :=
  (A.transitions q).map (fun t => .link ⟨q, t⟩) ++ if A.isFinal q then [.accepting q] else []

/-- What the listing of a trimmed automaton says. -/
def lines (A : Automaton) : List Listing.Line := A.startFirst.flatMap A.linesOf

/-- A state's lines have a link for each of its transitions. -/
theorem link_mem_linesOf_iff {l : Link} {q : Nat} :
    .link l ∈ A.linesOf q ↔ l.source = q ∧ l.arc ∈ A.transitions q := by
  have hfinal : .link l ∉ (if A.isFinal q then [.accepting q] else [] : List Listing.Line) := by
    split <;> simp
  simp only [linesOf, List.mem_append, hfinal, or_false, List.mem_map, Listing.Line.link.injEq]
  constructor
  · rintro ⟨t, ht, rfl⟩
    exact ⟨rfl, ht⟩
  · rintro ⟨rfl, ht⟩
    exact ⟨l.arc, ht, rfl⟩

/-- A state's lines say that it accepts if it does. -/
theorem accepting_mem_linesOf_iff {p q : Nat} :
    .accepting p ∈ A.linesOf q ↔ p = q ∧ A.isFinal q = true := by
  simp only [linesOf, List.mem_append, List.mem_map, reduceCtorEq, and_false, exists_false,
    false_or]
  split <;> simp [*]

/-- The lines of a state have that state in front. -/
theorem source_of_mem_linesOf {l : Listing.Line} {q : Nat} (hl : l ∈ A.linesOf q) :
    l.source = q := by
  cases l with
  | link l => exact (link_mem_linesOf_iff.1 hl).1
  | accepting p => exact (accepting_mem_linesOf_iff.1 hl).1

/-- Every state is listed. -/
@[simp] theorem mem_startFirst_iff {q : Nat} : q ∈ A.startFirst ↔ q < A.size := by
  rw [startFirst, List.mem_cons, List.mem_filter, mem_stateNumbers]
  have := A.start_lt_size
  by_cases hq : q = A.start <;> simp [hq, this]

theorem nodup_startFirst (A : Automaton) : A.startFirst.Nodup :=
  List.nodup_cons.2 ⟨by simp [List.mem_filter], List.nodup_range.filter _⟩

/-- Lines that belong to states are found with their states. -/
theorem mem_flatMap_startFirst_iff {linesOf : Nat → List Listing.Line}
    (hsource : ∀ q, ∀ l ∈ linesOf q, l.source = q) {l : Listing.Line} :
    l ∈ A.startFirst.flatMap linesOf ↔ l.source < A.size ∧ l ∈ linesOf l.source := by
  rw [List.mem_flatMap]
  constructor
  · rintro ⟨q, hq, hl⟩
    rw [hsource q l hl]
    exact ⟨mem_startFirst_iff.1 hq, hl⟩
  · rintro ⟨hq, hl⟩
    exact ⟨_, mem_startFirst_iff.2 hq, hl⟩

/-- A line of the automaton is a line of its state. -/
theorem mem_lines_iff {l : Listing.Line} :
    l ∈ A.lines ↔ l.source < A.size ∧ l ∈ A.linesOf l.source :=
  mem_flatMap_startFirst_iff fun _ _ => source_of_mem_linesOf

/-- The text of a transition is the row of its fields. -/
theorem toList_transitionLine (S : Alphabet) (q : Nat) (t : Transition) :
    (transitionLine S q t).toList
      = Text.row ((Listing.Line.link ⟨q, t⟩).fields S) ++ ['\n'] := by
  simp only [transitionLine, Listing.Line.fields, Text.row_cons_cons, Text.row_singleton,
    String.toList_append, List.append_assoc, List.cons_append]
  rfl

/-- The text of an accepting state is the row of its field. -/
theorem toList_finalLine (S : Alphabet) (q : Nat) :
    (finalLine q).toList = Text.row ((Listing.Line.accepting q).fields S) ++ ['\n'] := by
  simp only [finalLine, Listing.Line.fields, Text.row_cons_cons, Text.row_singleton,
    String.toList_append, List.append_assoc, List.cons_append]
  rfl

/-- The text of a state is what its lines are written as. -/
theorem toList_stateLines (A : Automaton) (q : Nat) :
    (A.stateLines q).toList = Listing.write A.alphabet (A.linesOf q) := by
  have hlinks : (String.join ((A.transitions q).map (transitionLine A.alphabet q))).toList
      = Listing.write A.alphabet ((A.transitions q).map fun t => .link ⟨q, t⟩) := by
    simp only [String.toList_join, Listing.write, List.flatMap_map, toList_transitionLine]
  have hfinal : (if A.isFinal q then finalLine q else "").toList
      = Listing.write A.alphabet (if A.isFinal q then [.accepting q] else []) := by
    split
    · simp only [Listing.write, List.flatMap_cons, List.flatMap_nil, List.append_nil,
        toList_finalLine A.alphabet]
    · rfl
  rw [stateLines, String.toList_append, hlinks, hfinal]
  simp only [Listing.write, linesOf, List.flatMap_append]

/-- The listing consists of the lines of the trimmed automaton. -/
theorem toList_listing (A : Automaton) :
    A.listing.toList = Listing.write A.alphabet A.trim.lines := by
  show (String.join (A.trim.startFirst.map A.trim.stateLines)).toList = _
  simp only [String.toList_join, List.flatMap_map, toList_stateLines, Listing.write, lines,
    List.flatMap_assoc, alphabet_trim]

/-- A state of a trimmed automaton has a line, unless the start state is all there is. -/
theorem linesOf_trim_ne_nil (h : 1 < A.trim.size) {q : Nat} (hq : q < A.trim.size) :
    A.trim.linesOf q ≠ [] := by
  have hne : ∃ ls, A.Carries ls := by
    by_contra hne
    rw [size_trim_of_not_carries hne] at h
    omega
  obtain ⟨-, vs, f, hvs, hf⟩ := useful_trim hne hq
  -- a path to an accepting state ends here or goes on
  cases hvs with
  | nil => exact List.ne_nil_of_mem (accepting_mem_linesOf_iff.2 ⟨rfl, hf⟩)
  | cons ht _ => exact List.ne_nil_of_mem (link_mem_linesOf_iff (l := ⟨q, _⟩).2 ⟨rfl, ht⟩)

/-- The links among the lines of a state are its transitions, in order. -/
theorem filterMap_link?_linesOf (A : Automaton) (q : Nat) :
    (A.linesOf q).filterMap Listing.Line.link? = (A.transitions q).map (Link.mk q) := by
  have hfinal : (if A.isFinal q then [.accepting q] else [] : List Listing.Line).filterMap
      Listing.Line.link? = [] := by
    split <;> rfl
  rw [linesOf, List.filterMap_append, hfinal, List.append_nil, List.filterMap_map]
  exact congrFun (List.filterMap_eq_map (f := Link.mk q)) (A.transitions q)

theorem mem_filterMap_link?_iff {l : Link} {ls : List Listing.Line} :
    l ∈ ls.filterMap Listing.Line.link? ↔ .link l ∈ ls := by
  rw [List.mem_filterMap]
  constructor
  · rintro ⟨l', hl', h⟩
    cases l' with
    | link l' => exact Option.some.inj h ▸ hl'
    | accepting q => cases h
  · exact fun hl => ⟨_, hl, rfl⟩

theorem mem_filterMap_accepting?_iff {q : Nat} {ls : List Listing.Line} :
    q ∈ ls.filterMap Listing.Line.accepting? ↔ .accepting q ∈ ls := by
  rw [List.mem_filterMap]
  constructor
  · rintro ⟨l, hl, h⟩
    cases l with
    | link l => cases h
    | accepting q' => exact Option.some.inj h ▸ hl
  · exact fun hq => ⟨_, hq, rfl⟩

/-- Lines for each state from which an automaton can be told: those of its transitions in their
order, and any number of lines that say that it accepts, if it does. -/
structure LinesFor (A : Automaton) (linesOf : Nat → List Listing.Line) : Prop where
  source_eq : ∀ q, ∀ l ∈ linesOf q, l.source = q
  links : ∀ q, (linesOf q).filterMap Listing.Line.link? = (A.transitions q).map (Link.mk q)
  accepting_iff : ∀ q, .accepting q ∈ linesOf q ↔ A.isFinal q = true
  /-- A reader learns of no state without lines. -/
  ne_nil : 1 < A.size → ∀ q < A.size, linesOf q ≠ []

namespace LinesFor

variable {linesOf : Nat → List Listing.Line}

/-- The state of the first line is the start state, if the start state has a line. -/
theorem head?_flatMap (h : A.LinesFor linesOf) (hstart : linesOf A.start ≠ []) :
    (A.startFirst.flatMap linesOf).head?.map Listing.Line.source = some A.start := by
  obtain ⟨l, ls, hlines⟩ := List.exists_cons_of_ne_nil hstart
  have hl : l.source = A.start := h.source_eq _ _ (hlines ▸ List.mem_cons_self)
  show ((linesOf A.start ++ _).head?).map _ = _
  rw [hlines]
  exact congrArg some hl

/-- The lines describe the automaton. -/
theorem describes (h : A.LinesFor linesOf) :
    (Listing.blueprint (A.startFirst.flatMap linesOf)).Describes A where
  edges := rfl
  states := rfl
  start := by
    show ((A.startFirst.flatMap linesOf).head?.map Listing.Line.source).getD 0 = A.start
    by_cases hstart : linesOf A.start = []
    · -- then there is one state, and the line that is first, if any, is its line
      have hone : A.size = 1 := by
        by_contra hne
        exact h.ne_nil (by have := A.size_pos; omega) _ A.start_lt_size hstart
      have hzero := A.start_lt_size
      cases hhead : (A.startFirst.flatMap linesOf).head? with
      | none =>
        show 0 = A.start
        omega
      | some l =>
        have hl := ((mem_flatMap_startFirst_iff h.source_eq).1 (List.mem_of_head? hhead)).1
        show l.source = A.start
        omega
    · rw [h.head?_flatMap hstart]
      rfl
  source_lt := by
    intro l hl
    exact ((mem_flatMap_startFirst_iff h.source_eq).1 (mem_filterMap_link?_iff.1 hl)).1
  accepting_iff := by
    intro q
    show q ∈ (A.startFirst.flatMap linesOf).filterMap Listing.Line.accepting? ↔ _
    rw [mem_filterMap_accepting?_iff, mem_flatMap_startFirst_iff h.source_eq]
    show q < A.size ∧ .accepting q ∈ linesOf q ↔ _
    rw [h.accepting_iff]
    exact and_iff_right_of_imp lt_size_of_isFinal
  arcs := by
    intro q hq
    show Blueprint.arcsFrom ((A.startFirst.flatMap linesOf).filterMap Listing.Line.link?) q = _
    rw [List.filterMap_flatMap]
    simp only [h.links]
    exact Blueprint.arcsFrom_flatMap A.nodup_startFirst A.transitions (mem_startFirst_iff.2 hq)
  mentioned := by
    intro hone
    -- the number of states is read off the greatest one, which has a line
    have hlast : A.size - 1 < A.size := by omega
    obtain ⟨l, hl⟩ := List.exists_mem_of_ne_nil _ (h.ne_nil hone _ hlast)
    have hsource := h.source_eq _ _ hl
    have hmem : l ∈ A.startFirst.flatMap linesOf :=
      (mem_flatMap_startFirst_iff h.source_eq).2 (hsource.symm ▸ ⟨hlast, hl⟩)
    rw [← hsource, Blueprint.mentioned, List.mem_append, List.mem_append, List.mem_flatMap]
    cases l with
    | link l => exact .inl (.inl ⟨l, mem_filterMap_link?_iff.2 hmem, List.mem_cons_self⟩)
    | accepting q => exact .inl (.inr (mem_filterMap_accepting?_iff.2 hmem))

end LinesFor

/-- The lines of an automaton describe it, if no state is without one. -/
theorem describes_lines (hlines : 1 < A.size → ∀ q < A.size, A.linesOf q ≠ []) :
    (Listing.blueprint A.lines).Describes A :=
  LinesFor.describes
    { source_eq := fun _ _ => source_of_mem_linesOf
      links := A.filterMap_link?_linesOf
      accepting_iff := fun _ => accepting_mem_linesOf_iff.trans (and_iff_right rfl)
      ne_nil := hlines }

/-! ## Reading a listing -/

/-- The labels of an automaton have names. -/
theorem readable_lines (hlabels : ∀ q, ∀ t ∈ A.transitions q,
      t.input.Declared A.alphabet ∧ t.output.Declared A.alphabet)
    (hsize : A.size ≤ UInt32.size) : ∀ l ∈ A.lines, l.Readable A.alphabet := by
  have hnumber : ∀ q < A.size, q ≤ Text.maxState := fun q hq =>
    Nat.le_sub_one_of_lt (Nat.lt_of_lt_of_le hq hsize)
  intro l hl
  obtain ⟨hsource, hl⟩ := mem_lines_iff.1 hl
  cases l with
  | link l =>
    obtain ⟨-, ht⟩ := link_mem_linesOf_iff.1 hl
    obtain ⟨hinput, houtput⟩ := hlabels _ _ ht
    exact ⟨hnumber _ hsource, hnumber _ (target_lt_size ht), hinput, houtput⟩
  | accepting q => exact hnumber _ hsource

/-- An automaton whose symbols are no blanks and whose labels have names is read back, as a value,
from its listing: what is read is its trimmed form. The alphabet must admit the states of that form;
their numbers must be state numbers, which have 32 bits. -/
theorem read_listing (A : Automaton) (hblank : ∀ c ∈ A.alphabet.symbols, Text.isBlank c = false)
    (hlabels : ∀ s ∈ A.states, ∀ t ∈ s.transitions,
      t.input.Declared A.alphabet ∧ t.output.Declared A.alphabet)
    (hroom : A.trim.size ≤ A.alphabet.stateLimit) (hnumbers : A.trim.size ≤ UInt32.size) :
    Listing.read A.alphabet A.listing = .ok A.trim := by
  have htrim : ∀ q, ∀ t ∈ A.trim.transitions q,
      t.input.Declared A.alphabet ∧ t.output.Declared A.alphabet := by
    intro q t ht
    obtain ⟨p, u, hu, heq⟩ := exists_transition_of_trim ht
    obtain ⟨hinput, houtput⟩ := Prod.mk.inj heq
    rw [← hinput, ← houtput]
    exact hlabels _ (mem_states_of_mem_transitions hu) u hu
  have hread := Listing.read_eq_build hblank (readable_lines (A := A.trim) htrim hnumbers)
    A.toList_listing
  rw [hread]
  exact (describes_lines fun hone _ => linesOf_trim_ne_nil hone).build_eq_ok hroom

/-- A transducer with the start in the middle, a state that is not reached, a state without a way
out, a transition that is there twice, and labels of every kind. -/
def crooked : Automaton where
  alphabet := .abcd
  states := #[
    { accepting := true, transitions := [⟨.symbol ⟨3⟩, .epsilon, 2⟩] },
    { transitions := [⟨.symbol ⟨0⟩, .symbol ⟨4⟩, 4⟩, ⟨.symbol ⟨0⟩, .symbol ⟨4⟩, 4⟩] },
    { transitions := [⟨.symbol ⟨1⟩, .symbol ⟨1⟩, 1⟩, ⟨.epsilon, .symbol ⟨6⟩, 3⟩,
        ⟨.epsilon, .epsilon, 2⟩] },
    { transitions := [⟨.symbol ⟨2⟩, .symbol ⟨2⟩, 3⟩] },
    { accepting := true, transitions := [⟨.symbol ⟨5⟩, .epsilon, 2⟩] }]
  start := 2
  start_lt := by decide
  target_lt := by decide

/-- What is left of it once it is trimmed. -/
def crookedTrimmed : Automaton where
  alphabet := .abcd
  states := #[
    { transitions := [⟨.symbol ⟨0⟩, .symbol ⟨4⟩, 2⟩, ⟨.symbol ⟨0⟩, .symbol ⟨4⟩, 2⟩] },
    { transitions := [⟨.symbol ⟨1⟩, .symbol ⟨1⟩, 0⟩, ⟨.epsilon, .epsilon, 1⟩] },
    { accepting := true, transitions := [⟨.symbol ⟨5⟩, .epsilon, 1⟩] }]
  start := 1
  start_lt := by decide
  target_lt := by decide

/-- The trimmed automaton has its start first. -/
theorem trim_crooked : crooked.trim = crookedTrimmed := by cbv

/-- The trimmed automaton is read back from the listing of the other. -/
theorem read_listing_crooked : Listing.read .abcd crooked.listing = .ok crookedTrimmed := by
  have hread := read_listing crooked ((Text.all_not_isBlank_iff _).1 (by decide)) (by decide)
    (by rw [trim_crooked]; decide) (by rw [trim_crooked]; decide)
  rw [trim_crooked] at hread
  exact hread

end Automaton

end FiniteState
