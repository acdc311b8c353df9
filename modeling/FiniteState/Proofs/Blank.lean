import FiniteState.Proofs.Canonical
import FiniteState.Proofs.Difference
import FiniteState.Proofs.Listing

/-!
# Listings with blanks among the symbols

A symbol is written as its character, and a reader takes blanks for what is between fields. So of a
transition that copies a blank only the numbers of two states are left, and a line with two fields
says that the first of them accepts. The automaton that is read back stops where the one that was
written would have read a blank.

* `read_listing_eq`: what is read back.
* `accepts_stopAtBlanks_iff`: the words of an automaton that stops are cut at their first blanks.
* `read_listing_cuts`: the language is read back if trimming leaves no blank, and only then.
-/

namespace FiniteState

/-- The word up to the first symbol that is a blank. -/
def Word.untilBlank (S : Alphabet) (w : Word) : Word :=
  w.takeWhile fun s => !(Label.symbol s).isBlank S

/-- The state that stops instead of reading a blank. -/
def State.stopAtBlanks (S : Alphabet) (s : State) : State where
  accepting := s.accepting || s.transitions.any (·.input.isBlank S)
  transitions := s.transitions.filter (! ·.input.isBlank S)

namespace Word

variable {S : Alphabet}

/-- What stands before the first blank is kept. -/
theorem untilBlank_append {v : Word} (hv : ∀ s ∈ v, (Label.symbol s).isBlank S = false) (w : Word) :
    (v ++ w).untilBlank S = v ++ w.untilBlank S :=
  List.takeWhile_append_of_pos fun s hs => by rw [hv s hs]; rfl

theorem untilBlank_eq_self {v : Word} (hv : ∀ s ∈ v, (Label.symbol s).isBlank S = false) :
    v.untilBlank S = v := by
  have happend := untilBlank_append hv []
  rw [List.append_nil] at happend
  exact happend.trans (List.append_nil v)

/-- A blank label ends the word, and any other is kept. -/
theorem untilBlank_toWord_append (l : Label) (w : Word) :
    (l.toWord ++ w).untilBlank S = if l.isBlank S then [] else l.toWord ++ w.untilBlank S := by
  cases l with
  | epsilon => rfl
  | symbol s =>
    show List.takeWhile _ (s :: w) = _
    rw [List.takeWhile_cons]
    cases (Label.symbol s).isBlank S <;> rfl

end Word

namespace Listing

variable {S : Alphabet}

/-- A transition with a blank input is taken for the mark of an accepting state, and any other is
seen as it is. -/
theorem Line.seen_link (S : Alphabet) (l : Link) :
    (link l).seen S = if l.arc.input.isBlank S then accepting l.source else link l := rfl

/-- The state in front of a line is seen in either case. -/
theorem Line.source_seen (S : Alphabet) (l : Line) : (l.seen S).source = l.source := by
  cases l with
  | link l =>
    rw [seen_link]
    split <;> rfl
  | accepting q => rfl

/-- The transitions that are seen are those without blanks. -/
theorem Line.link?_seen (S : Alphabet) (l : Line) :
    (l.seen S).link? = l.link?.filter (! ·.arc.input.isBlank S) := by
  cases l with
  | link l =>
    rw [seen_link]
    split
    · next hblank =>
      show none = if (!l.arc.input.isBlank S) = true then some l else none
      rw [hblank]
      rfl
    · next hblank =>
      show some l = if (!l.arc.input.isBlank S) = true then some l else none
      rw [Bool.eq_false_iff.2 hblank]
      rfl
  | accepting q => rfl

/-- The transitions that are read back are those whose input is no blank. -/
theorem filterMap_link?_map_seen (ls : List Line) :
    (ls.map (Line.seen S)).filterMap Line.link?
      = (ls.filterMap Line.link?).filter (! ·.arc.input.isBlank S) := by
  rw [List.filterMap_map, List.filter_filterMap]
  exact congrArg (ls.filterMap ·) (funext (Line.link?_seen S))

/-- A state is said to accept by its own line, and by those of the blanks that it reads. -/
theorem accepting_mem_map_seen_iff {ls : List Line} {q : Nat} :
    .accepting q ∈ ls.map (Line.seen S)
      ↔ .accepting q ∈ ls ∨ ∃ t, .link ⟨q, t⟩ ∈ ls ∧ t.input.isBlank S = true := by
  rw [List.mem_map]
  constructor
  · intro ⟨l, hl, hseen⟩
    cases l with
    | link l =>
      rw [Line.seen_link] at hseen
      split at hseen
      · next hblank =>
        obtain rfl := Line.accepting.inj hseen
        exact .inr ⟨l.arc, hl, hblank⟩
      · cases hseen
    | accepting p => exact .inl (hseen ▸ hl)
  · intro h
    rcases h with hq | ⟨t, ht, hblank⟩
    · exact ⟨_, hq, rfl⟩
    · exact ⟨_, ht, if_pos hblank⟩

end Listing

/-- The alphabet of a letter and a blank. -/
def Alphabet.spaced : Alphabet := { symbols := ['a', ' '] }

namespace Automaton

variable {A : Automaton} {q : Nat}

/-! ## Stopping at blanks

A line that has lost its labels looks like the line of a final state. What is read back accepts
where it would read a blank. -/

/-- The automaton that accepts where it would read a blank, and does not go on. -/
def stopAtBlanks (A : Automaton) : Automaton where
  alphabet := A.alphabet
  states := A.states.map (State.stopAtBlanks A.alphabet)
  start := A.start
  start_lt := by simpa using A.start_lt
  target_lt := by
    intro s hs t ht
    obtain ⟨s', hs', rfl⟩ := Array.mem_map.1 hs
    rw [Array.size_map]
    exact A.target_lt s' hs' t (List.mem_of_mem_filter ht)

@[simp] theorem size_stopAtBlanks (A : Automaton) : A.stopAtBlanks.size = A.size := Array.size_map

theorem startFirst_stopAtBlanks (A : Automaton) : A.stopAtBlanks.startFirst = A.startFirst := by
  rw [startFirst, stateNumbers, size_stopAtBlanks]
  rfl

@[simp] theorem state_stopAtBlanks (A : Automaton) (q : Nat) :
    A.stopAtBlanks.state q = (A.state q).stopAtBlanks A.alphabet := by
  rw [state, stopAtBlanks, Array.getD_eq_getD_getElem?, Array.getElem?_map, state,
    Array.getD_eq_getD_getElem?]
  cases A.states[q]? <;> rfl

@[simp] theorem transitions_stopAtBlanks (A : Automaton) (q : Nat) :
    A.stopAtBlanks.transitions q = (A.transitions q).filter (! ·.input.isBlank A.alphabet) := by
  rw [transitions, state_stopAtBlanks]
  rfl

/-- The transitions that are left are those whose input is no blank. -/
theorem mem_transitions_stopAtBlanks_iff {t : Transition} :
    t ∈ A.stopAtBlanks.transitions q
      ↔ t ∈ A.transitions q ∧ t.input.isBlank A.alphabet = false := by
  rw [transitions_stopAtBlanks, List.mem_filter, Bool.not_eq_true']

/-- A state accepts if it did, or if a transition with a blank input left it. -/
theorem isFinal_stopAtBlanks_iff :
    A.stopAtBlanks.isFinal q = true
      ↔ A.isFinal q = true ∨ ∃ t ∈ A.transitions q, t.input.isBlank A.alphabet = true := by
  rw [isFinal, state_stopAtBlanks]
  show (A.isFinal q || (A.transitions q).any (·.input.isBlank A.alphabet)) = true ↔ _
  rw [Bool.or_eq_true, List.any_eq_true]

/-- An automaton without blanks never stops. -/
theorem stopAtBlanks_eq_self
    (hA : ∀ q, ∀ t ∈ A.transitions q, t.input.isBlank A.alphabet = false) :
    A.stopAtBlanks = A := by
  have hstate : ∀ q, A.stopAtBlanks.state q = A.state q := by
    intro q
    have hany : (A.transitions q).any (·.input.isBlank A.alphabet) = false := by
      simpa only [List.any_eq_false, Bool.not_eq_true] using hA q
    have hfilter : (A.transitions q).filter (! ·.input.isBlank A.alphabet) = A.transitions q := by
      simpa only [List.filter_eq_self, Bool.not_eq_true'] using hA q
    rw [state_stopAtBlanks]
    show State.mk (A.isFinal q || (A.transitions q).any (·.input.isBlank A.alphabet))
      ((A.transitions q).filter (! ·.input.isBlank A.alphabet)) = A.state q
    rw [hany, hfilter, Bool.or_false]
    rfl
  refine eq_of_states_eq rfl (Array.ext A.size_stopAtBlanks fun q hq hq' => ?_) rfl
  rw [← state_eq_getElem hq, ← state_eq_getElem hq', hstate]

/-! ## What is read back -/

/-- What is seen of the lines of an automaton tells the one that stops at blanks. -/
theorem linesFor_stopAtBlanks (hlines : 1 < A.size → ∀ q < A.size, A.linesOf q ≠ []) :
    A.stopAtBlanks.LinesFor fun q => (A.linesOf q).map (Listing.Line.seen A.alphabet) where
  source_eq := by
    intro q l hl
    obtain ⟨l', hl', rfl⟩ := List.mem_map.1 hl
    rw [Listing.Line.source_seen, source_of_mem_linesOf hl']
  links := by
    intro q
    rw [Listing.filterMap_link?_map_seen, filterMap_link?_linesOf, transitions_stopAtBlanks,
      List.filter_map]
    rfl
  accepting_iff := by
    intro q
    rw [Listing.accepting_mem_map_seen_iff, accepting_mem_linesOf_iff, isFinal_stopAtBlanks_iff]
    simp only [link_mem_linesOf_iff, true_and]
  ne_nil := by
    intro hone q hq hnil
    rw [size_stopAtBlanks] at hone hq
    exact hlines hone q hq (List.map_eq_nil_iff.1 hnil)

/-- The labels of an acceptor over its alphabet have names. -/
theorem OverAlphabet.labels_declared (hA : A.OverAlphabet) :
    ∀ q, ∀ t ∈ A.transitions q, t.input.Declared A.alphabet ∧ t.output.Declared A.alphabet := by
  intro q t ht
  have hinput : t.input.Declared A.alphabet := by
    cases hlabel : t.input with
    | epsilon => trivial
    | symbol s => exact Alphabet.mem_sigmaWithMarkers_iff.2 (.inl (hA.declared q t ht s hlabel))
  exact ⟨hinput, hA.copies q t ht ▸ hinput⟩

/-- A line has its blanks on both tapes, since transitions copy what they read. -/
theorem OverAlphabet.apart (hA : A.OverAlphabet) : ∀ l ∈ A.lines, l.Apart A.alphabet := by
  intro l hl
  cases l with
  | link l =>
    have hcopies := hA.copies _ _ (link_mem_linesOf_iff.1 (mem_lines_iff.1 hl).2).2
    show l.arc.input.isBlank A.alphabet = true ∧ l.arc.output = l.arc.input
      ∨ l.arc.input.isBlank A.alphabet = false ∧ l.arc.output.isBlank A.alphabet = false
    rw [← hcopies]
    cases l.arc.input.isBlank A.alphabet <;> simp
  | accepting q => trivial

/-- The listing of an acceptor over its alphabet can be read. What is read is the trimmed form,
which stops at blanks. -/
theorem read_listing_eq (hA : A.OverAlphabet) (hroom : A.trim.size ≤ A.alphabet.stateLimit)
    (hnumbers : A.trim.size ≤ UInt32.size) :
    Listing.read A.alphabet A.listing = .ok A.trim.stopAtBlanks := by
  have hlines : ∀ l ∈ A.trim.lines, l.Readable A.alphabet ∧ l.Apart A.alphabet := fun l hl =>
    ⟨readable_lines hA.trim.labels_declared hnumbers l hl, hA.trim.apart l hl⟩
  have hseen : A.trim.lines.map (Listing.Line.seen A.alphabet)
      = A.trim.stopAtBlanks.startFirst.flatMap
        fun q => (A.trim.linesOf q).map (Listing.Line.seen A.alphabet) := by
    rw [startFirst_stopAtBlanks]
    exact List.map_flatMap
  have hdescribes := (linesFor_stopAtBlanks fun hone _ => A.linesOf_trim_ne_nil hone).describes
  rw [Listing.read_write hlines A.toList_listing, hseen]
  exact hdescribes.build_eq_ok (A.trim.size_stopAtBlanks.le.trans hroom)

/-! ## The words that are left

Up to its first blank a run is a run of the automaton that stops. Conversely, where that one stops,
a blank could have been read and the run completed, since no state is useless. -/

/-- A run of what is left is a run of the automaton, and it reads no blank. -/
theorem runs_of_stopAtBlanks {p : Nat} {x y : Word} (h : A.stopAtBlanks.system.Runs p x y q) :
    A.system.Runs p x y q ∧ ∀ s ∈ x, (Label.symbol s).isBlank A.alphabet = false := by
  induction h with
  | nil p => exact ⟨.nil p, by simp⟩
  | @cons p q t x y ht _ ih =>
    obtain ⟨ht, hblank⟩ := mem_transitions_stopAtBlanks_iff.1 ht
    obtain ⟨hrun, hx⟩ := ih
    refine ⟨.cons ht hrun, fun s hs => ?_⟩
    rcases List.mem_append.1 hs with hs | hs
    · rw [← Label.mem_toWord_iff.1 hs]
      exact hblank
    · exact hx s hs

/-- A run is followed up to its first blank, and there it may stop. -/
theorem exists_run_untilBlank {p : Nat} {x y : Word} (h : A.system.Runs p x y q)
    (hq : A.isFinal q = true) :
    ∃ y' r, A.stopAtBlanks.system.Runs p (x.untilBlank A.alphabet) y' r
      ∧ A.stopAtBlanks.isFinal r = true := by
  induction h with
  | nil p => exact ⟨[], p, .nil p, isFinal_stopAtBlanks_iff.2 (.inl hq)⟩
  | @cons p q t x y ht _ ih =>
    rw [Word.untilBlank_toWord_append]
    split
    · next hblank => exact ⟨[], p, .nil p, isFinal_stopAtBlanks_iff.2 (.inr ⟨t, ht, hblank⟩)⟩
    · next hblank =>
      obtain ⟨y', r, hrun, hr⟩ := ih hq
      have ht' : t ∈ A.stopAtBlanks.transitions p :=
        mem_transitions_stopAtBlanks_iff.2 ⟨ht, Bool.eq_false_iff.2 hblank⟩
      exact ⟨_, r, .cons ht' hrun, hr⟩

/-- No word that is left has a blank in it. -/
theorem isBlank_of_accepts_stopAtBlanks {w : Word} (hw : A.stopAtBlanks.accepts w = true) :
    ∀ s ∈ w, (Label.symbol s).isBlank A.alphabet = false := by
  obtain ⟨y, q, hrun, -⟩ := accepts_iff_exists_run.1 hw
  exact (runs_of_stopAtBlanks hrun).2

/-- Without useless states, what is accepted is what was accepted, cut at the first blank. -/
theorem accepts_stopAtBlanks_iff (hA : ∀ q < A.size, A.Useful q) {w : Word} :
    A.stopAtBlanks.accepts w = true
      ↔ ∃ v, A.accepts v = true ∧ v.untilBlank A.alphabet = w := by
  constructor
  · intro hw
    -- an accepting state here accepts there, or reads a blank
    obtain ⟨y, q, hrun, hq⟩ := accepts_iff_exists_run.1 hw
    obtain ⟨hrun, hblank⟩ := runs_of_stopAtBlanks hrun
    rcases isFinal_stopAtBlanks_iff.1 hq with hq | ⟨t, ht, htblank⟩
    · exact ⟨w, accepts_iff_exists_run.2 ⟨y, q, hrun, hq⟩, Word.untilBlank_eq_self hblank⟩
    · -- the run can go on, and the word can be cut where it does
      obtain ⟨-, ls, f, hls, hf⟩ := hA t.target (target_lt_size ht)
      have hrest := TransitionSystem.runs_iff_trace.2 ⟨ls, hls, rfl, rfl⟩
      refine ⟨_, accepts_iff_exists_run.2 ⟨_, f, hrun.append (.cons ht hrest), hf⟩, ?_⟩
      rw [Word.untilBlank_append hblank, Word.untilBlank_toWord_append, if_pos htblank,
        List.append_nil]
  · intro ⟨v, hv, hcut⟩
    obtain ⟨y, q, hrun, hq⟩ := accepts_iff_exists_run.1 hv
    obtain ⟨y', r, hrun', hr⟩ := exists_run_untilBlank hrun hq
    rw [hcut] at hrun'
    exact accepts_iff_exists_run.2 ⟨y', r, hrun', hr⟩

/-- Where nothing is accepted, a blank that is left is read at the start. To stop there is to accept
the empty word. -/
theorem accepts_nil_of_not_carries (h : ¬ ∃ ls, A.Carries ls) {t : Transition}
    (ht : t ∈ A.trim.transitions q) (hblank : t.input.isBlank A.alphabet = true) :
    A.trim.stopAtBlanks.accepts [] = true := by
  have hq := lt_size_of_mem_transitions ht
  have hone := size_trim_of_not_carries h
  have hstart := A.trim.start_lt_size
  obtain rfl : q = A.trim.start := by omega
  exact accepts_iff_exists_run.2 ⟨[], _, .nil _, isFinal_stopAtBlanks_iff.2 (.inr ⟨t, ht, hblank⟩)⟩

/-- If the language is the same, no blank is left. -/
theorem isBlank_eq_false_of_accepts_eq
    (hsame : ∀ w, A.trim.stopAtBlanks.accepts w = A.accepts w) {t : Transition}
    (ht : t ∈ A.trim.transitions q) : t.input.isBlank A.alphabet = false := by
  by_contra hblank
  rw [Bool.not_eq_false] at hblank
  -- if nothing were accepted, a blank at the start would make the empty word accepted
  have hne : ∃ ls, A.Carries ls := by
    by_contra hnone
    have hnil := accepts_nil_of_not_carries hnone ht hblank
    rw [hsame, isEmpty_iff_rejects.1 (isEmpty_iff.2 fun ls hls => hnone ⟨ls, hls⟩)] at hnil
    cases hnil
  have hq := lt_size_of_mem_transitions ht
  -- a blank that is left is in some word, and that word would be lost
  cases hinput : t.input with
  | epsilon =>
    rw [hinput] at hblank
    cases hblank
  | symbol s =>
    obtain ⟨w, hw, hs⟩ := exists_accepts_of_useful (useful_trim hne hq) ht
      (useful_trim hne (target_lt_size ht)) hinput
    have hread : A.trim.stopAtBlanks.accepts w = true := by
      rw [hsame, ← accepts_trim]
      exact hw
    rw [hinput] at hblank
    exact Bool.eq_false_iff.1 (isBlank_of_accepts_stopAtBlanks hread s hs) hblank

/-- The listing of an acceptor over its alphabet can be read. The words that are accepted then are
those that were, cut at their first blanks, if there were any words; and they are the same words if
trimming leaves no transition that reads a blank, and only then. -/
theorem read_listing_cuts (A : Automaton) (hA : A.OverAlphabet)
    (hroom : A.trim.size ≤ A.alphabet.stateLimit) (hnumbers : A.trim.size ≤ UInt32.size) :
    ∃ B, Listing.read A.alphabet A.listing = .ok B
      ∧ (A.isEmpty = false → ∀ w, B.accepts w = true
          ↔ ∃ v, A.accepts v = true ∧ v.untilBlank A.alphabet = w)
      ∧ ((∀ w, B.accepts w = A.accepts w)
          ↔ ∀ q, ∀ t ∈ A.trim.transitions q, t.input.isBlank A.alphabet = false) := by
  refine ⟨_, read_listing_eq hA hroom hnumbers, ?_, ?_⟩
  · intro hempty w
    have hne := exists_carries_of_not_isEmpty (Bool.eq_false_iff.1 hempty)
    rw [accepts_stopAtBlanks_iff fun q hq => useful_trim hne hq]
    simp only [accepts_trim]
    rfl
  · constructor
    · intro hsame q t ht
      exact isBlank_eq_false_of_accepts_eq hsame ht
    · intro hnone w
      rw [stopAtBlanks_eq_self hnone]
      exact A.accepts_trim w

/-- The acceptor of an a, a blank and an a. -/
def aBlankA : Automaton := word .spaced [⟨0⟩, ⟨1⟩, ⟨0⟩]

/-- Of its word the first a is read back. -/
theorem read_listing_cuts_aBlankA :
    aBlankA.OverAlphabet
      ∧ aBlankA.trim.size ≤ aBlankA.alphabet.stateLimit ∧ aBlankA.trim.size ≤ UInt32.size
      ∧ ∃ B, Listing.read .spaced aBlankA.listing = .ok B
          ∧ B.accepts [⟨0⟩] = true ∧ ¬ ∀ w, B.accepts w = aBlankA.accepts w := by
  have hover : aBlankA.OverAlphabet := by decide +kernel
  have hroom : aBlankA.trim.size ≤ aBlankA.alphabet.stateLimit := by cbv
  have hnumbers : aBlankA.trim.size ≤ UInt32.size := by cbv
  have hword : aBlankA.accepts [⟨0⟩, ⟨1⟩, ⟨0⟩] = true := by cbv
  have hblank : ⟨.symbol ⟨1⟩, .symbol ⟨1⟩, 2⟩ ∈ aBlankA.trim.transitions 1 := by decide +kernel
  obtain ⟨B, hread, hcut, hiff⟩ := read_listing_cuts aBlankA hover hroom hnumbers
  refine ⟨hover, hroom, hnumbers, B, hread, ?_, fun hsame => ?_⟩
  · exact (hcut (by cbv) _).2 ⟨_, hword, by decide⟩
  · exact absurd (hiff.1 hsame 1 _ hblank) (by decide)

/-- The acceptor of a blank is read back as one that accepts the empty word instead. -/
theorem read_listing_loses_blank :
    Alphabet.ofList ['a', ' '] = .ok .spaced
      ∧ (word .spaced [⟨1⟩]).OverAlphabet
      ∧ (word .spaced [⟨1⟩]).trim.size ≤ Alphabet.spaced.stateLimit
      ∧ (word .spaced [⟨1⟩]).accepts [⟨1⟩] = true
      ∧ ∃ B, Listing.read .spaced (word .spaced [⟨1⟩]).listing = .ok B
          ∧ B.accepts [⟨1⟩] = false ∧ B.accepts [] = true := by
  have hover : (word .spaced [⟨1⟩]).OverAlphabet := by decide +kernel
  have hroom : (word .spaced [⟨1⟩]).trim.size ≤ Alphabet.spaced.stateLimit := by cbv
  have hread := read_listing_eq hover hroom (by cbv)
  exact ⟨by cbv, hover, hroom, by cbv, _, hread, by cbv, by cbv⟩

end Automaton

end FiniteState
