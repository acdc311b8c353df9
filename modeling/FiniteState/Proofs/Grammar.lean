import FiniteState.Proofs.Listing

/-!
# The grammar of listings

Which texts are listings, and what they say, is told here without the reader. Fields are the numbers
of states (`IsState`) or the names of labels (`Label.Named`); what a line says depends on how many
fields it has (`Written`). A reader goes through the lines in order, so it reports the first line
that is neither blank nor in the grammar, and otherwise builds what the lines say, if there is room
for every state that they mention.

* `recognizes_readLine`: a line is read as the grammar has it, or else reported.
* `read_of_firstInvalid`, `read_of_lines`: what comes of a text.
* `read_exact`: both, and there is no third case.
-/

namespace FiniteState

/-! ## Fields -/

/-- The text consists of decimal digits, at least one, after an optional plus sign, and they denote
the number. -/
def Text.Denotes (f : List Char) (n : Nat) : Prop :=
  ∃ digits, (f = digits ∨ f = '+' :: digits) ∧ digits ≠ []
    ∧ (∀ c ∈ digits, c.isDigit = true) ∧ Nat.ofDigitChars 10 digits 0 = n

/-- A field is its digits, with or without a plus sign in front. -/
theorem Text.eq_or_eq_cons_dropPlus (f : List Char) :
    f = dropPlus f ∨ f = '+' :: dropPlus f := by
  unfold dropPlus
  split
  · exact .inr rfl
  · exact .inl rfl

/-- A numeral is read as the number that it denotes, if that is within the bound. -/
theorem Text.numeral?_eq_some_iff {bound n : Nat} {f : List Char} :
    numeral? bound f = some n ↔ Denotes f n ∧ n ≤ bound := by
  constructor
  · intro h
    refine ⟨?_, numeral?_le h⟩
    unfold numeral? at h
    dsimp only at h
    split at h
    · cases h
    next hdigits =>
      split at h
      · simp only [Bool.or_eq_true, not_or, List.isEmpty_iff, Bool.not_eq_true',
          Bool.not_eq_false, List.all_eq_true] at hdigits
        exact ⟨_, eq_or_eq_cons_dropPlus f, hdigits.1, hdigits.2, Option.some.inj h⟩
      · cases h
  · rintro ⟨⟨digits, hf, hne, hdigits, rfl⟩, hle⟩
    -- a plus sign is dropped once, and digits do not begin with another
    have hdrop : dropPlus f = digits := by
      rcases hf with rfl | rfl
      · exact dropPlus_of_ne fun hplus => absurd (hdigits _ hplus) (by decide)
      · rfl
    have hall : digits.all Char.isDigit = true := List.all_eq_true.2 hdigits
    have hvalue : valueOfDigits digits ≤ bound := hle
    simp only [numeral?, hdrop, hall, List.isEmpty_iff, hne, hvalue, if_true, if_false,
      Bool.not_true, Bool.or_false]
    rfl

/-- The field names the label: as epsilon, as an edit marker, or by its character. -/
inductive Label.Named (S : Alphabet) : List Char → Label → Prop
  | epsilon : Named S epsilonName.toList .epsilon
  | marker (m : EditMarker) : Named S m.name.toList (.symbol (S.marker m))
  | char {s : Symbol} {c : Char} (h : S.symbols[s.code]? = some c) : Named S [c] (.symbol s)

namespace Listing

variable {S : Alphabet}

/-- The field is the number of a state, which has 32 bits. -/
def IsState (f : List Char) (q : Nat) : Prop := Text.Denotes f q ∧ q ≤ 4294967295

/-! ## Lines -/

/-- What the fields of a line say. Transitions with labels for both tapes and accepting states may
have a weight after them, which is any field at all. -/
inductive Written (S : Alphabet) : List (List Char) → Line → Prop
  | link {source target input output : List Char} {weight : List (List Char)} {p q : Nat}
      {a b : Label} (hweight : weight.length ≤ 1) (hp : IsState source p) (hq : IsState target q)
      (ha : a.Named S input) (hb : b.Named S output) :
      Written S (source :: target :: input :: output :: weight) (.link ⟨p, ⟨a, b, q⟩⟩)
  | copying {source target label : List Char} {p q : Nat} {a : Label} (hp : IsState source p)
      (hq : IsState target q) (ha : a.Named S label) :
      Written S [source, target, label] (.link ⟨p, .copying a q⟩)
  | accepting {state : List Char} {weight : List (List Char)} {q : Nat}
      (hweight : weight.length ≤ 1) (hq : IsState state q) :
      Written S (state :: weight) (.accepting q)

/-- What is read from a part of the line is what `R` says of it, and if `R` says nothing, the error
is one of the line. -/
structure Recognizes {α : Type} (line : Nat) (x : Except Error α) (R : α → Prop) : Prop where
  eq_ok_iff : ∀ a, x = .ok a ↔ R a
  exists_fault : ∀ e, x = .error e → ∃ fault, e = .parse line fault

namespace Recognizes

variable {α β : Type} {line : Nat} {x : Except Error α} {R : α → Prop}

theorem pure (a : α) : Recognizes line (Pure.pure a) (a = ·) :=
  ⟨fun _ => Except.pure_eq_ok, fun _ he => by cases he⟩

/-- A field that says nothing is an error of its line. -/
theorem parse {fault : ParseFault} (hR : ∀ a, ¬ R a) :
    Recognizes line (.error (.parse line fault)) R where
  eq_ok_iff a := ⟨fun h => (nomatch h), fun ha => absurd ha (hR a)⟩
  exists_fault _ he := ⟨fault, (Except.error.inj he).symm⟩

/-- Two fields one after the other say what both say. -/
theorem bind {f : α → Except Error β} {Q : α → β → Prop} (hx : Recognizes line x R)
    (hf : ∀ a, Recognizes line (f a) (Q a)) :
    Recognizes line (x >>= f) fun b => ∃ a, R a ∧ Q a b where
  eq_ok_iff b := by
    rw [Except.bind_eq_ok]
    exact exists_congr fun a => and_congr (hx.eq_ok_iff a) ((hf a).eq_ok_iff b)
  exists_fault e he := by
    rcases Except.bind_eq_error.1 he with he | ⟨a, -, he⟩
    · exact hx.exists_fault e he
    · exact (hf a).exists_fault e he

theorem congr {Q : α → Prop} (h : Recognizes line x R) (hRQ : ∀ a, R a ↔ Q a) :
    Recognizes line x Q :=
  ⟨fun a => (h.eq_ok_iff a).trans (hRQ a), h.exists_fault⟩

/-- What says nothing is refused, with the number of its line. -/
theorem exists_eq_error (h : Recognizes line x R) (hR : ¬ ∃ a, R a) :
    ∃ fault, x = .error (.parse line fault) := by
  cases hx : x with
  | ok a => exact absurd ⟨a, (h.eq_ok_iff a).1 hx⟩ hR
  | error e =>
    obtain ⟨fault, rfl⟩ := h.exists_fault e hx
    exact ⟨fault, rfl⟩

end Recognizes

/-- A field is read as a state just if it is a numeral in range. -/
theorem recognizes_readState (line : Nat) (f : List Char) :
    Recognizes line (readState line f) (IsState f) := by
  have hread : ∀ q, Text.numeral? Text.maxState f = some q ↔ IsState f q :=
    fun q => Text.numeral?_eq_some_iff
  unfold readState
  cases hf : Text.numeral? Text.maxState f with
  | some q =>
    rw [hf] at hread
    exact (Recognizes.pure q).congr fun a => Option.some_inj.symm.trans (hread a)
  | none =>
    rw [hf] at hread
    exact .parse fun q hq => nomatch (hread q).2 hq

end Listing

namespace Label

variable {S : Alphabet} {f : List Char} {l : Label}

/-- A name is what is written for the label. -/
theorem Named.eq_render (h : l.Named S f) : l.Declared S ∧ f = (l.render S).toList := by
  cases h with
  | epsilon => exact ⟨trivial, rfl⟩
  | marker m =>
    refine ⟨Alphabet.mem_sigmaWithMarkers_iff.2 (.inr ⟨m, rfl⟩), ?_⟩
    rw [render, Alphabet.name_marker]
  | @char s c hc =>
    refine ⟨Alphabet.mem_sigmaWithMarkers_iff.2 (.inl ?_), (Alphabet.toList_name hc).symm⟩
    exact decide_eq_true (List.getElem?_eq_some_iff.1 hc).1

theorem named_of_symbolByName? {name : String} {s : Symbol} (h : S.symbolByName? name = some s) :
    (symbol s).Named S name.toList := by
  unfold Alphabet.symbolByName? at h
  split at h
  next m hm =>
    have hname : m.name = name := by simpa using List.find?_some hm
    rw [← Option.some.inj h, ← hname]
    exact .marker m
  · split at h
    next c hc =>
      obtain ⟨code, hcode, rfl⟩ := Option.map_eq_some_iff.1 h
      obtain ⟨hlt, hget, -⟩ := List.idxOf?_eq_some_iff.1 hcode
      rw [hc]
      exact .char (List.getElem?_eq_some_iff.2 ⟨hlt, hget⟩)
    · cases h

/-- A field is read as the label that it names. -/
theorem recognizes_readLabel (S : Alphabet) (line : Nat) (f : List Char) :
    Listing.Recognizes line (Listing.readLabel S line f) (Named S f) where
  eq_ok_iff l := by
    constructor
    · intro h
      unfold Listing.readLabel at h
      split at h
      next hname =>
        rw [← Except.ok.inj h, ← String.toList_ofList (l := f), hname]
        exact .epsilon
      · split at h
        next s hs =>
          rw [← Except.ok.inj h, ← String.toList_ofList (l := f)]
          exact named_of_symbolByName? hs
        · cases h
    · intro h
      -- every name of the grammar is what a label is rendered to
      obtain ⟨hdeclared, rfl⟩ := h.eq_render
      exact readLabel_render hdeclared line
  exists_fault e he := by
    unfold Listing.readLabel at he
    split at he
    · cases he
    · split at he
      · cases he
      · exact ⟨_, (Except.error.inj he).symm⟩

end Label

namespace Listing

variable {S : Alphabet}

section

variable {source target input output label state : List Char} {weight : List (List Char)} {l : Line}

/-- Four or five fields are a transition: its states, its labels, and a weight that is not looked
at. -/
theorem written_link_iff (hweight : weight.length ≤ 1) :
    Written S (source :: target :: input :: output :: weight) l
      ↔ ∃ p, IsState source p ∧ ∃ a, Label.Named S input a ∧ ∃ b, Label.Named S output b
        ∧ ∃ q, IsState target q ∧ .link ⟨p, ⟨a, b, q⟩⟩ = l := by
  constructor
  · intro h
    cases h with
    | link _ hp hq ha hb => exact ⟨_, hp, _, ha, _, hb, _, hq, rfl⟩
    | accepting hweight => simp at hweight
  · rintro ⟨p, hp, a, ha, b, hb, q, hq, rfl⟩
    exact .link hweight hp hq ha hb

/-- Three fields are a transition that copies its label. -/
theorem written_copying_iff :
    Written S [source, target, label] l
      ↔ ∃ p, IsState source p ∧ ∃ a, Label.Named S label a
        ∧ ∃ q, IsState target q ∧ .link ⟨p, .copying a q⟩ = l := by
  constructor
  · intro h
    cases h with
    | copying hp hq ha => exact ⟨_, hp, _, ha, _, hq, rfl⟩
    | accepting hweight => simp at hweight
  · rintro ⟨p, hp, a, ha, q, hq, rfl⟩
    exact .copying hp hq ha

theorem written_accepting_iff (hweight : weight.length ≤ 1) :
    Written S (state :: weight) l ↔ ∃ q, IsState state q ∧ .accepting q = l := by
  constructor
  · intro h
    cases h with
    | link => simp at hweight
    | copying => simp at hweight
    | accepting _ hq => exact ⟨_, hq, rfl⟩
  · rintro ⟨q, hq, rfl⟩
    exact .accepting hweight hq

end

/-- The fields of a transition are read one after the other. -/
theorem recognizes_readTransition (S : Alphabet) (line : Nat)
    (source target input output : List Char) {weight : List (List Char)}
    (hweight : weight.length ≤ 1) :
    Recognizes line (readTransition S line source target input output)
      (Written S (source :: target :: input :: output :: weight)) := by
  refine Recognizes.congr ?_ fun l => (written_link_iff hweight).symm
  exact (recognizes_readState line source).bind fun _ =>
    (Label.recognizes_readLabel S line input).bind fun _ =>
      (Label.recognizes_readLabel S line output).bind fun _ =>
        (recognizes_readState line target).bind fun _ => .pure _

theorem recognizes_readCopying (S : Alphabet) (line : Nat) (source target label : List Char) :
    Recognizes line (readCopying S line source target label)
      (Written S [source, target, label]) := by
  refine Recognizes.congr ?_ fun l => written_copying_iff.symm
  exact (recognizes_readState line source).bind fun _ =>
    (Label.recognizes_readLabel S line label).bind fun _ =>
      (recognizes_readState line target).bind fun _ => .pure _

theorem recognizes_readAccepting (S : Alphabet) (line : Nat) (state : List Char)
    {weight : List (List Char)} (hweight : weight.length ≤ 1) :
    Recognizes line (do return Line.accepting (← readState line state))
      (Written S (state :: weight)) := by
  refine Recognizes.congr ?_ fun l => (written_accepting_iff hweight).symm
  exact (recognizes_readState line state).bind fun _ => .pure _

/-- A line is read as the grammar has it, and a line that is not in the grammar is reported. -/
theorem recognizes_readLine (S : Alphabet) (line : Nat) (fs : List (List Char)) :
    Recognizes line (readLine S line fs) (Written S fs) := by
  unfold readLine
  split
  · exact recognizes_readTransition S line _ _ _ _ (Nat.zero_le 1)
  · exact recognizes_readTransition S line _ _ _ _ (Nat.le_refl 1)
  · exact recognizes_readCopying S line _ _ _
  · exact recognizes_readAccepting S line _ (Nat.zero_le 1)
  · exact recognizes_readAccepting S line _ (Nat.le_refl 1)
  next hfour hfive hthree hone htwo =>
    -- any other number of fields is in no rule of the grammar
    refine .parse fun l h => ?_
    cases h with
    | @link _ _ _ _ weight _ _ _ _ hweight =>
      match weight, hweight with
      | [], _ => exact hfour _ _ _ _ rfl
      | [w], _ => exact hfive _ _ _ _ _ rfl
    | copying => exact hthree _ _ _ rfl
    | @accepting _ weight _ hweight =>
      match weight, hweight with
      | [], _ => exact hone _ rfl
      | [w], _ => exact htwo _ _ rfl

/-! ## Texts -/

/-- The fields of every line of a text; a blank line has none. -/
def lineFields (text : String) : List (List (List Char)) :=
  (Text.lines text.toList).map Text.fields

/-- The line with this number, counted from one, is neither blank nor in the grammar, and no line
before it is like that. -/
def FirstInvalid (S : Alphabet) (text : String) (line : Nat) : Prop :=
  ∃ before fs after, lineFields text = before ++ fs :: after ∧ before.length + 1 = line
    ∧ (∀ gs ∈ before, gs = [] ∨ ∃ l, Written S gs l) ∧ fs ≠ [] ∧ ¬ ∃ l, Written S fs l

/-- What the lines of a text say, one after the other, without the blank ones. -/
def Says (S : Alphabet) (text : String) (ls : List Line) : Prop :=
  List.Forall₂ (Written S) ((lineFields text).filter (!·.isEmpty)) ls

/-- The states that a line mentions. -/
def Line.states : Line → List Nat
  | link l => [l.source, l.arc.target]
  | accepting q => [q]

/-- One more than the greatest state that is mentioned, and one if there is none. -/
def stateCount (ls : List Line) : Nat := Blueprint.greatest (ls.flatMap Line.states) + 1

/-- The automaton that the lines list, with the state of the first line as its start. -/
structure IsListed (S : Alphabet) (ls : List Line) (A : Automaton) : Prop where
  alphabet : A.alphabet = S
  size : A.size = stateCount ls
  start : A.start = (ls.head?.map Line.source).getD 0
  isFinal_iff : ∀ q, A.isFinal q = true ↔ .accepting q ∈ ls
  transitions : ∀ q,
    A.transitions q = ((ls.filterMap Line.link?).filter (·.source == q)).map Link.arc

/-! ### Reading -/

/-- Lines keep their numbers when blank ones are dropped. -/
theorem numberedFields_eq_of_append {text : String} {before after : List (List (List Char))}
    {fs : List (List Char)} (htext : lineFields text = before ++ fs :: after) (hfs : fs ≠ []) :
    ∃ pre post, numberedFields text.toList = pre ++ (fs, before.length + 1) :: post
      ∧ ∀ g ∈ pre, g.1 ∈ before ∧ g.1 ≠ [] := by
  refine ⟨(before.zipIdx 1).filter (!·.1.isEmpty),
    (after.zipIdx (before.length + 2)).filter (!·.1.isEmpty), ?_, fun g hg => ?_⟩
  · show ((lineFields text).zipIdx 1).filter (!·.1.isEmpty) = _
    rw [htext, List.zipIdx_append, List.filter_append, List.zipIdx_cons,
      List.filter_cons_of_pos (by simpa using hfs), Nat.add_comm 1 before.length]
  · obtain ⟨hg, hne⟩ := List.mem_filter.1 hg
    exact ⟨List.fst_mem_of_mem_zipIdx hg, by simpa using hne⟩

/-- The first line that is not in the grammar is reported. -/
theorem read_of_firstInvalid {text : String} {line : Nat} (h : FirstInvalid S text line) :
    ∃ fault, read S text = .error (.parse line fault) := by
  obtain ⟨before, fs, after, htext, rfl, hbefore, hfs, hinvalid⟩ := h
  obtain ⟨pre, post, hnumbered, hpre⟩ := numberedFields_eq_of_append htext hfs
  obtain ⟨fault, hfault⟩ :=
    (recognizes_readLine S (before.length + 1) fs).exists_eq_error hinvalid
  refine ⟨fault, Except.bind_eq_error.2 (.inl ?_)⟩
  rw [hnumbered]
  refine Except.mapM_eq_error (fun g hg => ?_) hfault
  obtain ⟨hmem, hne⟩ := hpre g hg
  obtain ⟨l, hl⟩ := (hbefore _ hmem).resolve_left hne
  exact ⟨l, ((recognizes_readLine S g.2 g.1).eq_ok_iff l).2 hl⟩

/-- A text whose lines can all be read is built as their blueprint. -/
theorem read_of_lines {text : String} {ls : List Line} (h : Says S text ls) :
    read S text = (blueprint ls).build S :=
  read_of_rows (h.imp fun fs l hl line => ((recognizes_readLine S line fs).eq_ok_iff l).2 hl)

/-- A text has a first line that is not in the grammar, or it says something. -/
theorem firstInvalid_or_exists_lines (S : Alphabet) (text : String) :
    (∃ line, FirstInvalid S text line) ∨ ∃ ls, Says S text ls := by
  unfold FirstInvalid Says
  -- by induction on the lines: the first one is invalid, blank, or says something
  induction lineFields text with
  | nil => exact .inr ⟨[], .nil⟩
  | cons fs rest ih =>
    by_cases hvalid : fs = [] ∨ ∃ l, Written S fs l
    · rcases ih with ⟨-, before, gs, after, rfl, rfl, hbefore, hinvalid⟩ | ⟨ls, hls⟩
      · exact .inl ⟨_, fs :: before, gs, after, rfl, rfl,
          List.forall_mem_cons.2 ⟨hvalid, hbefore⟩, hinvalid⟩
      · by_cases hfs : fs = []
        · exact .inr ⟨ls, by rwa [List.filter_cons_of_neg (by simp [hfs])]⟩
        · obtain ⟨l, hl⟩ := hvalid.resolve_left hfs
          refine .inr ⟨l :: ls, ?_⟩
          rw [List.filter_cons_of_pos (by simpa using hfs)]
          exact .cons hl hls
    · rw [not_or] at hvalid
      exact .inl ⟨1, [], fs, rest, rfl, rfl, by simp, hvalid⟩

/-! ### Building -/

/-- The state in front of a line is one that it mentions. -/
theorem Line.source_mem_states (l : Line) : l.source ∈ l.states := by
  cases l with
  | link l => exact List.mem_cons_self
  | accepting q => exact List.mem_cons_self

/-- Without lines, the start is mentioned all the same. -/
theorem mem_mentioned_blueprint_iff {ls : List Line} {n : Nat} :
    n ∈ Blueprint.mentioned (blueprint ls).links (blueprint ls).accepting (blueprint ls).start
      ↔ n ∈ ls.flatMap Line.states ∨ (ls = [] ∧ n = 0) := by
  rw [Blueprint.mentioned, List.mem_append, List.mem_append, List.mem_flatMap, List.mem_singleton,
    List.mem_flatMap]
  constructor
  · rintro ((⟨l, hl, hn⟩ | hn) | rfl)
    · exact .inl ⟨.link l, Automaton.mem_filterMap_link?_iff.1 hl, hn⟩
    · exact .inl ⟨.accepting n, Automaton.mem_filterMap_accepting?_iff.1 hn, List.mem_cons_self⟩
    · cases ls with
      | nil => exact .inr ⟨rfl, rfl⟩
      | cons l ls => exact .inl ⟨l, List.mem_cons_self, l.source_mem_states⟩
  · rintro (⟨l, hl, hn⟩ | ⟨rfl, rfl⟩)
    · cases l with
      | link l => exact .inl (.inl ⟨l, Automaton.mem_filterMap_link?_iff.2 hl, hn⟩)
      | accepting q =>
        rw [Line.states, List.mem_singleton] at hn
        exact .inl (.inr (Automaton.mem_filterMap_accepting?_iff.2 (hn ▸ hl)))
    · exact .inr rfl

theorem lt_stateCount {ls : List Line} {l : Line} (hl : l ∈ ls) {q : Nat} (hq : q ∈ l.states) :
    q < stateCount ls :=
  Nat.lt_succ_of_le (Blueprint.le_greatest (List.mem_flatMap.2 ⟨l, hl, hq⟩))

/-- The blueprint of some lines has a state for every number up to the greatest one mentioned. -/
theorem count_blueprint (ls : List Line) :
    Nat.max 1 (Blueprint.greatest (Blueprint.mentioned (blueprint ls).links
      (blueprint ls).accepting (blueprint ls).start) + 1) = stateCount ls := by
  have hgreatest : Blueprint.greatest (Blueprint.mentioned (blueprint ls).links
      (blueprint ls).accepting (blueprint ls).start) + 1 = stateCount ls := by
    refine Nat.le_antisymm (Blueprint.greatest_lt (Nat.succ_pos _) fun n hn => ?_)
      (Blueprint.greatest_lt (Nat.succ_pos _) fun n hn => ?_)
    · rcases mem_mentioned_blueprint_iff.1 hn with hn | ⟨-, rfl⟩
      · exact Nat.lt_succ_of_le (Blueprint.le_greatest hn)
      · exact Nat.succ_pos _
    · exact Nat.lt_succ_of_le (Blueprint.le_greatest (mem_mentioned_blueprint_iff.2 (.inl hn)))
  rw [hgreatest]
  exact Nat.max_eq_right (Nat.succ_pos _)

/-- What the lines list is built, if there is room for it. -/
theorem exists_build_blueprint {ls : List Line} (hroom : stateCount ls ≤ S.stateLimit) :
    ∃ A, (blueprint ls).build S = .ok A ∧ IsListed S ls A := by
  obtain ⟨A, hbuild, halphabet, hstates, hstart⟩ :=
    Blueprint.exists_build_eq_ok (p := blueprint ls) (S := S) rfl (count_blueprint ls ▸ hroom)
  replace hstates : A.states = Blueprint.statesOfLinks (stateCount ls) (blueprint ls).accepting
      (blueprint ls).links := count_blueprint ls ▸ hstates
  have hsize : A.size = stateCount ls := by
    rw [Automaton.size, hstates, Blueprint.size_statesOfLinks]
  -- a state is as the lines have it, and does nothing if it is mentioned only as a target
  have hstate : ∀ q, A.state q = ⟨decide (q ∈ (blueprint ls).accepting),
      Blueprint.arcsFrom (blueprint ls).links q⟩ := by
    intro q
    by_cases hq : q < stateCount ls
    · rw [Automaton.state, Array.getD_eq_getD_getElem?, hstates,
        Blueprint.getElem?_statesOfLinks hq, Option.getD_some]
    · -- a state that is not there is not mentioned either
      have hle : A.size ≤ q := hsize ▸ Nat.le_of_not_lt hq
      have haccepting : q ∉ (blueprint ls).accepting := fun hmem =>
        hq (lt_stateCount (Automaton.mem_filterMap_accepting?_iff.1 hmem) List.mem_cons_self)
      have harcs : Blueprint.arcsFrom (blueprint ls).links q = [] := by
        refine Blueprint.arcsFrom_eq_nil fun l hl hsource => hq ?_
        rw [← hsource]
        exact lt_stateCount (Automaton.mem_filterMap_link?_iff.1 hl) List.mem_cons_self
      rw [Automaton.state_of_size_le hle, harcs]
      simp [haccepting]
  refine ⟨A, hbuild, halphabet, hsize, hstart, fun q => ?_, fun q => ?_⟩
  · rw [Automaton.isFinal, hstate, decide_eq_true_iff]
    exact Automaton.mem_filterMap_accepting?_iff
  · rw [Automaton.transitions, hstate]
    rfl

/-- A text whose lines are not all blank or in the grammar is reported with the number of the first
line that is neither. Any other text says what its lines say; it is read as the automaton that they
list, unless that has more states than the alphabet admits. -/
theorem read_exact (S : Alphabet) (text : String) :
    (∀ line, FirstInvalid S text line → ∃ fault, read S text = .error (.parse line fault))
      ∧ (∀ ls, Says S text ls →
          if stateCount ls ≤ S.stateLimit then ∃ A, read S text = .ok A ∧ IsListed S ls A
          else read S text = .error (.stateExplosion .build S.stateLimit))
      ∧ ((∃ line, FirstInvalid S text line) ∨ ∃ ls, Says S text ls) := by
  refine ⟨fun _ => read_of_firstInvalid, fun ls hls => ?_, firstInvalid_or_exists_lines S text⟩
  rw [read_of_lines hls]
  split
  next hroom => exact exists_build_blueprint hroom
  next hroom =>
    refine Blueprint.build_eq_error rfl ?_
    show S.stateLimit < Nat.max 1 _
    rw [count_blueprint]
    exact Nat.lt_of_not_le hroom

/-- A listing with blank lines, a carriage return and lines of different layouts. -/
def mixedListing : String := "2 +0 c <eps> 0.5\r\n\n\t0\t2  [I]\n2\n"

/-- What it says. -/
def mixedLines : List Line :=
  [.link ⟨2, ⟨.symbol ⟨2⟩, .epsilon, 0⟩⟩, .link ⟨0, .copying (.symbol ⟨4⟩) 2⟩, .accepting 2]

theorem says_mixedListing : Says .abcd mixedListing mixedLines := by
  have hfields : (lineFields mixedListing).filter (!·.isEmpty)
      = [["2".toList, "+0".toList, "c".toList, "<eps>".toList, "0.5".toList],
          ["0".toList, "2".toList, "[I]".toList], ["2".toList]] := by cbv
  have hzero : IsState "+0".toList 0 ∧ IsState "0".toList 0 :=
    ⟨Text.numeral?_eq_some_iff.1 (by decide), Text.numeral?_eq_some_iff.1 (by decide)⟩
  have htwo : IsState "2".toList 2 := Text.numeral?_eq_some_iff.1 (by decide)
  rw [Says, hfields]
  exact .cons (.link (Nat.le_refl 1) htwo hzero.1 (.char (s := ⟨2⟩) rfl) .epsilon)
    (.cons (.copying hzero.2 htwo (.marker .insert))
      (.cons (.accepting (Nat.zero_le 1) htwo) .nil))

/-- Has a blank line, a line in the grammar and one whose second field is no number. -/
def brokenListing : String := "\n0 1 a\n0 x a\n"

/-- The third line of the second text is the first that says nothing. -/
theorem firstInvalid_brokenListing : FirstInvalid .abcd brokenListing 3 := by
  have hfields : lineFields brokenListing
      = [[], ["0".toList, "1".toList, "a".toList], ["0".toList, "x".toList, "a".toList]] := by cbv
  have hzero : IsState "0".toList 0 := Text.numeral?_eq_some_iff.1 (by decide)
  have hone : IsState "1".toList 1 := Text.numeral?_eq_some_iff.1 (by decide)
  refine ⟨[[], ["0".toList, "1".toList, "a".toList]], _, [], hfields, rfl, fun gs hgs => ?_,
    List.cons_ne_nil _ _, ?_⟩
  · rcases List.mem_pair.1 hgs with rfl | rfl
    · exact .inl rfl
    · exact .inr ⟨_, .copying hzero hone (.char (s := ⟨0⟩) rfl)⟩
  · rintro ⟨l, hl⟩
    cases hl with
    | copying _ hq =>
      have hread := Text.numeral?_eq_some_iff.2 hq
      have hnone : Text.numeral? 4294967295 "x".toList = none := by decide
      cases hread.symm.trans hnone
    | accepting hweight => exact absurd hweight (by decide)

/-- The first text is read as the automaton that it lists, and the second is refused at its third
line. -/
theorem read_exact_mixedListing :
    (Says .abcd mixedListing mixedLines ∧ stateCount mixedLines = 3
      ∧ ∃ A, read .abcd mixedListing = .ok A ∧ IsListed .abcd mixedLines A)
    ∧ FirstInvalid .abcd brokenListing 3
      ∧ ∃ fault, read .abcd brokenListing = .error (.parse 3 fault) := by
  have hroom : stateCount mixedLines ≤ Alphabet.abcd.stateLimit := by decide
  have hread := (read_exact .abcd mixedListing).2.1 mixedLines says_mixedListing
  rw [if_pos hroom] at hread
  exact ⟨⟨says_mixedListing, by decide, hread⟩, firstInvalid_brokenListing,
    (read_exact .abcd brokenListing).1 3 firstInvalid_brokenListing⟩

end Listing

end FiniteState
