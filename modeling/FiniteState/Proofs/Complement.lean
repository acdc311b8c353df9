import FiniteState.Automaton.Complement
import FiniteState.Proofs.Construct
import FiniteState.Proofs.Determinize

/-!
# Complement and difference

In a deterministic automaton whose transitions copy letters of Σ, and that reads every letter in
every state, a word over Σ has exactly one run from the start. So it is accepted by the automaton or
by the flipped one, and not by both.

* `Total.exists_run`, `Lettered.run_unique`: the run of a word.
* `OverAlphabet`: the operands that have a complement, if their alphabet has any letters.
* `relates_withSink_iff`: completing an automaton does not change what it accepts.
* `requireComplementable_cases`: what is required of an operand, and what is reported otherwise.
* `accepts_complement_iff`, `relates_difference_iff`: the two operations.
-/

namespace FiniteState

namespace Automaton

variable {A B C D : Automaton} {S : Alphabet}

/-! ## Automata over letters

The subset construction leaves no silent transitions. An acceptor over Σ then copies a letter with
every transition, so a word has one run at most, and exactly one if the automaton is complete. -/

/-- The labels of a transition that copies a symbol. -/
def letter (s : Symbol) : Label × Label := (.symbol s, .symbol s)

theorem letter_injective : Function.Injective letter := fun _ _ h =>
  Label.symbol.inj (Prod.mk.inj h).1

/-- Every transition copies a letter of Σ. -/
def Lettered (S : Alphabet) (A : Automaton) : Prop :=
  ∀ q, ∀ t ∈ A.transitions q, ∃ s, S.contains s = true ∧ t.labels = letter s

/-- A run of letters copies its input, and its labels are those of the word. -/
theorem Lettered.trace_of_runs (hA : A.Lettered S) {p q : Nat} {x y : Word}
    (h : A.system.Runs p x y q) : x = y ∧ x.Over S ∧ A.system.Trace p (x.map letter) q := by
  induction h with
  | nil p => exact ⟨rfl, Word.over_nil S, .nil p⟩
  | @cons p q t x y ht _ ih =>
    obtain ⟨s, hs, hlabels⟩ := hA p t ht
    obtain ⟨rfl, hover, htrace⟩ := ih
    rw [(Prod.mk.inj hlabels).1, (Prod.mk.inj hlabels).2]
    refine ⟨rfl, Word.over_cons_iff.2 ⟨hs, hover⟩, ?_⟩
    show A.system.Trace p (letter s :: x.map letter) q
    rw [← hlabels]
    exact .cons ht htrace

/-- A deterministic automaton over letters takes a word to one state at most. -/
theorem Lettered.run_unique (hA : A.Lettered S) (hdeterministic : A.system.Deterministic)
    {p q q' : Nat} {x y y' : Word} (h : A.system.Runs p x y q) (h' : A.system.Runs p x y' q') :
    q = q' :=
  hdeterministic.trace_unique (hA.trace_of_runs h).2.2 (hA.trace_of_runs h').2.2

/-- Over letters, it is enough that no state reads a letter twice. -/
theorem Lettered.deterministic (hA : A.Lettered S)
    (hnodup : ∀ q < A.size, ((A.transitions q).map Arc.labels).Nodup) :
    A.system.Deterministic := by
  refine ⟨fun q t ht => ?_, fun q => ?_⟩
  · obtain ⟨s, -, hlabels⟩ := hA q t ht
    rw [Arc.isSilent_eq, hlabels]
    rfl
  · show ((A.transitions q).map Arc.labels).Nodup
    by_cases hq : q < A.size
    · exact hnodup q hq
    · rw [transitions, state_of_size_le (Nat.le_of_not_lt hq)]
      exact List.nodup_nil

/-- Every state reads every letter of Σ. -/
def Total (S : Alphabet) (A : Automaton) : Prop :=
  ∀ q < A.size, ∀ s, S.contains s = true → ∃ t ∈ A.transitions q, t.labels = letter s

/-- Where every state reads every letter, every word over Σ can be read from every state. -/
theorem Total.exists_run (hA : A.Total S) {p : Nat} (hp : p < A.size) {x : Word}
    (hx : x.Over S) : ∃ q < A.size, A.system.Runs p x x q := by
  induction x generalizing p with
  | nil => exact ⟨p, hp, .nil p⟩
  | cons s x ih =>
    obtain ⟨hs, hx⟩ := Word.over_cons_iff.1 hx
    obtain ⟨t, ht, hlabels⟩ := hA p hp s hs
    obtain ⟨q, hq, hrun⟩ := ih (target_lt_size ht) hx
    have hstep : A.system.Runs p (t.input.toWord ++ x) (t.output.toWord ++ x) q := .cons ht hrun
    rw [(Prod.mk.inj hlabels).1, (Prod.mk.inj hlabels).2] at hstep
    exact ⟨q, hq, hstep⟩

/-- A lettered automaton accepts what some run leads to an accepting state. -/
theorem Lettered.accepts_iff (hA : A.Lettered S) {w : Word} :
    A.accepts w = true ↔ ∃ q, A.system.Runs A.start w w q ∧ A.isFinal q = true := by
  rw [accepts_iff_exists_relates]
  simp only [relates_iff_maps]
  constructor
  · rintro ⟨y, q, hrun, hq⟩
    obtain ⟨rfl, -⟩ := hA.trace_of_runs hrun
    exact ⟨q, hrun, hq⟩
  · rintro ⟨q, hrun, hq⟩
    exact ⟨w, q, hrun, hq⟩

/-! ## Flipping -/

@[simp]
theorem transitions_flip (A : Automaton) (q : Nat) : A.flip.transitions q = A.transitions q := by
  rw [transitions, state, flip, Array.getD_eq_getD_getElem?, Array.getElem?_map, transitions,
    state, Array.getD_eq_getD_getElem?]
  cases A.states[q]? <;> rfl

/-- Flipping swaps accepting and other states. -/
@[simp] theorem isFinal_flip {q : Nat} (hq : q < A.size) : A.flip.isFinal q = !A.isFinal q := by
  rw [isFinal, state, flip, Array.getD_eq_getD_getElem?, Array.getElem?_map, isFinal,
    state_eq_getElem hq, Array.getElem?_eq_getElem hq]
  rfl

@[simp] theorem size_flip (A : Automaton) : A.flip.size = A.size := by
  simp [size, flip]

@[simp] theorem runs_flip_iff {p q : Nat} {x y : Word} :
    A.flip.system.Runs p x y q ↔ A.system.Runs p x y q := by
  have harcs : A.flip.system.arcs = A.system.arcs := funext A.transitions_flip
  constructor
  · intro h
    exact h.map (f := id) fun k t ht => by rwa [harcs] at ht
  · intro h
    exact h.map (f := id) fun k t ht => by rw [harcs]; exact ht

/-- Flipping changes no arc, so it keeps determinism. -/
theorem deterministic_flip (hA : A.system.Deterministic) : A.flip.system.Deterministic := by
  have harcs : A.flip.system.arcs = A.system.arcs := funext A.transitions_flip
  exact ⟨harcs ▸ hA.isSilent_eq_false, harcs ▸ hA.nodup⟩

theorem Lettered.flip (hA : A.Lettered S) : A.flip.Lettered S := by
  intro q t ht
  rw [transitions_flip] at ht
  exact hA q t ht

/-- Flipping a complete deterministic automaton gives the other words over Σ. -/
theorem Lettered.accepts_flip_iff (hA : A.Lettered S) (hdeterministic : A.system.Deterministic)
    (htotal : A.Total S) {w : Word} :
    A.flip.accepts w = true ↔ w.Over S ∧ A.accepts w = false := by
  rw [hA.flip.accepts_iff, Bool.eq_false_iff, ne_eq, hA.accepts_iff]
  constructor
  · rintro ⟨q, hrun, hq⟩
    -- an accepting run there would end in the same state as this one
    rw [runs_flip_iff] at hrun
    rw [isFinal_flip (runs_lt_size hrun A.start_lt_size), Bool.not_eq_true'] at hq
    refine ⟨(hA.trace_of_runs hrun).2.1, ?_⟩
    rintro ⟨q', hrun', hq'⟩
    rw [hA.run_unique hdeterministic hrun hrun', hq'] at hq
    cases hq
  · rintro ⟨hover, hrejects⟩
    -- the run that every word has ends in a state that does not accept
    obtain ⟨q, hq, hrun⟩ := htotal.exists_run A.start_lt_size hover
    refine ⟨q, runs_flip_iff.2 hrun, ?_⟩
    rw [isFinal_flip hq, Bool.not_eq_true', Bool.eq_false_iff]
    exact fun hfinal => hrejects ⟨q, hrun, hfinal⟩

/-! ## The sink

Each letter that a state does not read leads to one more state, which is never left. No accepting
run goes there, so the language remains the same. -/

/-- The letters without a transition. -/
@[simp] theorem mem_missingLetters_iff {s : State} {c : Symbol} :
    c ∈ missingLetters S s ↔ S.contains c = true ∧ ∀ t ∈ s.transitions, t.input ≠ .symbol c := by
  rw [missingLetters, List.mem_filter, Alphabet.mem_sigma_iff, Bool.not_eq_true', List.any_eq_false]
  simp

/-- The state with its missing letters, which lead to the sink. -/
def completed (A : Automaton) (s : State) : State :=
  { s with
    transitions := s.transitions
      ++ (missingLetters A.alphabet s).map fun c => .copying (.symbol c) A.size }

/-- The states of the automaton get the transitions that they lack. -/
theorem state_withSink {q : Nat} (hq : q < A.size) :
    A.withSink.state q = A.completed (A.state q) := by
  rw [state, withSink, Array.getD_eq_getD_getElem?, Array.getElem?_append_left
    (by rwa [Array.size_map]), Array.getElem?_map, state_eq_getElem hq,
    Array.getElem?_eq_getElem hq]
  rfl

/-- The sink reads every letter and stays where it is. -/
@[simp] theorem state_withSink_sink (A : Automaton) :
    A.withSink.state A.size
      = { transitions := A.alphabet.sigma.map fun c => .copying (.symbol c) A.size } := by
  rw [state, withSink, Array.getD_eq_getD_getElem?, Array.getElem?_append_right
    (by rw [Array.size_map]; exact Nat.le_refl _), Array.size_map, size, Nat.sub_self]
  rfl

@[simp] theorem size_withSink (A : Automaton) : A.withSink.size = A.size + 1 := by
  simp [size, withSink]

/-- A completed state has its old transitions, and for each missing letter one to the sink. -/
theorem mem_transitions_withSink_iff {q : Nat} (hq : q < A.size) {t : Transition} :
    t ∈ A.withSink.transitions q
      ↔ t ∈ A.transitions q ∨ ∃ c, A.alphabet.contains c = true
          ∧ (∀ u ∈ A.transitions q, u.input ≠ .symbol c) ∧ t = .copying (.symbol c) A.size := by
  rw [transitions, state_withSink hq, completed, List.mem_append, List.mem_map]
  simp only [mem_missingLetters_iff, and_assoc, eq_comm]
  rfl

/-- The transitions of the sink are loops, one for each letter. -/
theorem mem_transitions_sink_iff {t : Transition} :
    t ∈ A.withSink.transitions A.size
      ↔ ∃ c, A.alphabet.contains c = true ∧ t = .copying (.symbol c) A.size := by
  rw [transitions, state_withSink_sink, List.mem_map]
  simp only [Alphabet.mem_sigma_iff, eq_comm]

/-- Only the states of the automaton and the sink have transitions. -/
theorem state_or_sink {q : Nat} {t : Transition} (ht : t ∈ A.withSink.transitions q) :
    q < A.size ∨ q = A.size := by
  have hlt := lt_size_of_mem_transitions ht
  rw [size_withSink] at hlt
  omega

theorem lettered_withSink (hA : A.Lettered A.alphabet) : A.withSink.Lettered A.alphabet := by
  intro q t ht
  rcases state_or_sink ht with hq | rfl
  · rcases (mem_transitions_withSink_iff hq).1 ht with ht | ⟨c, hc, -, rfl⟩
    · exact hA q t ht
    · exact ⟨c, hc, rfl⟩
  · obtain ⟨c, hc, rfl⟩ := mem_transitions_sink_iff.1 ht
    exact ⟨c, hc, rfl⟩

/-- With the sink every state reads every letter. -/
theorem total_withSink (hA : A.Lettered A.alphabet) : A.withSink.Total A.alphabet := by
  intro q hq c hc
  rw [size_withSink] at hq
  rcases Nat.lt_succ_iff_lt_or_eq.1 hq with hq | rfl
  · by_cases hread : ∃ u ∈ A.transitions q, u.input = .symbol c
    · obtain ⟨u, hu, hinput⟩ := hread
      obtain ⟨s, -, hlabels⟩ := hA q u hu
      have hs : s = c := Label.symbol.inj ((Prod.mk.inj hlabels).1.symm.trans hinput)
      exact ⟨u, (mem_transitions_withSink_iff hq).2 (.inl hu), hs ▸ hlabels⟩
    · refine ⟨.copying (.symbol c) A.size, (mem_transitions_withSink_iff hq).2 (.inr ?_), rfl⟩
      exact ⟨c, hc, fun u hu hinput => hread ⟨u, hu, hinput⟩, rfl⟩
  · exact ⟨_, mem_transitions_sink_iff.2 ⟨c, hc, rfl⟩, rfl⟩

/-- The sink is entered by missing letters only, so determinism is kept. -/
theorem deterministic_withSink (hA : A.Lettered A.alphabet)
    (hdeterministic : A.system.Deterministic) : A.withSink.system.Deterministic := by
  have hletters : ∀ cs : List Symbol,
      (cs.map fun c => (.copying (.symbol c) A.size : Transition)).map Arc.labels
        = cs.map letter := by
    intro cs
    rw [List.map_map]
    rfl
  refine (lettered_withSink hA).deterministic fun q hq => ?_
  rw [size_withSink] at hq
  rcases Nat.lt_succ_iff_lt_or_eq.1 hq with hq | rfl
  · rw [transitions, state_withSink hq, completed, List.map_append, hletters]
    refine List.nodup_append'.2 ⟨hdeterministic.nodup q, ?_, ?_⟩
    · exact ((Alphabet.nodup_sigma _).filter _).map letter_injective
    · intro p hp hp'
      obtain ⟨t, ht, rfl⟩ := List.mem_map.1 hp
      obtain ⟨c, hc, hlabels⟩ := List.mem_map.1 hp'
      exact (mem_missingLetters_iff.1 hc).2 t ht (Prod.mk.inj hlabels).1.symm
  · rw [transitions, state_withSink_sink, hletters]
    exact (Alphabet.nodup_sigma _).map letter_injective

@[simp]
theorem isFinal_withSink {q : Nat} (hq : q < A.size) : A.withSink.isFinal q = A.isFinal q := by
  rw [isFinal, state_withSink hq]
  rfl

/-- No run leaves the sink, so a run to an accepting state avoids it. -/
theorem runs_withSink_iff {p q : Nat} (hp : p < A.size) (hq : A.withSink.isFinal q = true)
    {x y : Word} : A.withSink.system.Runs p x y q ↔ A.system.Runs p x y q := by
  -- every transition of the sink leads back to it
  have hsink : ∀ {p q : Nat} {x y : Word}, A.withSink.system.Runs p x y q → p = A.size →
      q = A.size := by
    intro p q x y h
    induction h with
    | nil => exact id
    | cons ht _ ih =>
      rintro rfl
      obtain ⟨c, -, rfl⟩ := mem_transitions_sink_iff.1 ht
      exact ih rfl
  constructor
  · intro h
    induction h with
    | nil p => exact .nil p
    | @cons p q t x y ht hrest ih =>
      rcases (mem_transitions_withSink_iff hp).1 ht with ht | ⟨c, -, -, rfl⟩
      · exact .cons ht (ih (target_lt_size ht) hq)
      · -- a run through the sink ends in it, and it does not accept
        rw [hsink hrest rfl, isFinal, state_withSink_sink] at hq
        cases hq
  · intro h
    refine h.map (f := id) fun r t ht => ?_
    exact (mem_transitions_withSink_iff (lt_size_of_mem_transitions ht)).2 (.inl ht)

/-- The sink never accepts, so the relation stays the same. -/
theorem relates_withSink_iff {x y : Word} : A.withSink.Relates x y ↔ A.Relates x y := by
  simp only [relates_iff_maps]
  constructor
  · rintro ⟨q, hrun, hq⟩
    have hrun' := (runs_withSink_iff A.start_lt_size hq).1 hrun
    have hlt := runs_lt_size hrun' A.start_lt_size
    exact ⟨q, hrun', (isFinal_withSink hlt).symm.trans hq⟩
  · rintro ⟨q, hrun, hq⟩
    have hlt := runs_lt_size hrun A.start_lt_size
    have hq' : A.withSink.isFinal q = true := (isFinal_withSink hlt).trans hq
    exact ⟨q, (runs_withSink_iff A.start_lt_size hq').2 hrun, hq'⟩

/-! ## Acceptors over an alphabet

A complement asks for copying transitions and for symbols of Σ. It is the symbols that are looked
at, while the proofs need to know about the transitions. -/

/-- The input symbols are those on the input tape of some transition. -/
theorem mem_inputSymbols_iff {s : Symbol} :
    s ∈ A.inputSymbols ↔ ∃ q, ∃ t ∈ A.transitions q, t.input = .symbol s := by
  rw [inputSymbols, List.mem_flatMap]
  constructor
  · rintro ⟨q, -, hs⟩
    obtain ⟨t, ht, hinput⟩ := List.mem_filterMap.1 hs
    refine ⟨q, t, ht, ?_⟩
    cases hlabel : t.input with
    | epsilon =>
      rw [hlabel] at hinput
      cases hinput
    | symbol s' =>
      rw [hlabel] at hinput
      rw [Option.some.inj hinput]
  · rintro ⟨q, t, ht, hinput⟩
    refine ⟨q, mem_stateNumbers.2 (lt_size_of_mem_transitions ht), ?_⟩
    exact List.mem_filterMap.2 ⟨t, ht, by rw [hinput]; rfl⟩

/-- Some transition writes something else than it reads. -/
def Rewrites (A : Automaton) : Prop := ∃ q, ∃ t ∈ A.transitions q, t.input ≠ t.output

/-- Some transition carries a symbol outside of Σ. -/
def Strays (A : Automaton) : Prop :=
  ∃ q, ∃ t ∈ A.transitions q, ∃ tape s, t.label tape = .symbol s ∧ A.alphabet.contains s = false

/-- Every transition copies a letter of Σ, or is silent. -/
structure OverAlphabet (A : Automaton) : Prop where
  copies : ∀ q, ∀ t ∈ A.transitions q, t.input = t.output
  declared : ∀ q, ∀ t ∈ A.transitions q, ∀ s, t.input = .symbol s → A.alphabet.contains s = true

/-- An automaton over its alphabet is an acceptor. -/
theorem OverAlphabet.isAcceptor (hA : A.OverAlphabet) : A.isAcceptor = true :=
  isAcceptor_iff.2 hA.copies

/-- An automaton rewrites if the check for acceptors says that it is none. -/
theorem rewrites_iff : A.Rewrites ↔ A.isAcceptor = false := by
  rw [← Bool.not_eq_true, isAcceptor_iff, Rewrites]
  push Not
  rfl

/-- An acceptor strays if one of its input symbols does. -/
theorem strays_iff (hA : A.isAcceptor = true) :
    A.Strays ↔ ∃ s ∈ A.inputSymbols, A.alphabet.contains s = false := by
  simp only [mem_inputSymbols_iff]
  constructor
  · rintro ⟨q, t, ht, tape, s, hlabel, hs⟩
    have hcopies : t.input = t.output := isAcceptor_iff.1 hA q t ht
    refine ⟨s, ⟨q, t, ht, ?_⟩, hs⟩
    cases tape with
    | input => exact hlabel
    | output => exact hcopies.trans hlabel
  · rintro ⟨s, ⟨q, t, ht, hinput⟩, hs⟩
    exact ⟨q, t, ht, .input, s, hinput, hs⟩

/-- Labels in Σ are an acceptor's input symbols in Σ, which is how it is checked. -/
theorem overAlphabet_iff_symbols :
    A.OverAlphabet
      ↔ A.isAcceptor = true ∧ ∀ s ∈ A.inputSymbols, A.alphabet.contains s = true := by
  simp only [mem_inputSymbols_iff]
  constructor
  · intro hA
    refine ⟨hA.isAcceptor, ?_⟩
    rintro s ⟨q, t, ht, hinput⟩
    exact hA.declared q t ht s hinput
  · rintro ⟨hacceptor, hsymbols⟩
    exact ⟨isAcceptor_iff.1 hacceptor, fun q t ht s hinput => hsymbols s ⟨q, t, ht, hinput⟩⟩

instance : Decidable A.OverAlphabet := decidable_of_iff _ overAlphabet_iff_symbols.symm

/-- An automaton is over its alphabet if it neither rewrites nor strays. -/
theorem overAlphabet_iff : A.OverAlphabet ↔ ¬ A.Rewrites ∧ ¬ A.Strays := by
  rw [overAlphabet_iff_symbols, rewrites_iff, Bool.not_eq_false]
  refine and_congr_right fun hA => ?_
  rw [strays_iff hA]
  push Not
  simp only [ne_eq, Bool.not_eq_false]

/-- An acceptor over its alphabet copies words over the alphabet. -/
theorem OverAlphabet.copies_of_relates (hA : A.OverAlphabet) {x y : Word} (h : A.Relates x y) :
    x = y ∧ x.Over A.alphabet := by
  refine ⟨eq_of_relates hA.isAcceptor h, ?_⟩
  obtain ⟨ts, ⟨q, hpath, -⟩, rfl, -⟩ := h
  -- what is spelled along any path is over Σ, wherever it begins and ends
  generalize A.start = p at hpath
  induction hpath with
  | nil => exact Word.over_nil _
  | @cons p q t ts ht _ ih =>
    rw [spell_cons]
    apply Word.over_append_iff.2
    refine ⟨fun s hs => ?_, ih⟩
    have hs' : s ∈ t.input.toWord := hs
    cases hinput : t.input with
    | epsilon =>
      -- a silent transition spells nothing
      rw [hinput] at hs'
      cases hs'
    | symbol s' =>
      rw [hinput] at hs'
      rw [List.mem_singleton.1 hs']
      exact hA.declared p t ht s' hinput

theorem OverAlphabet.over_of_accepts (hA : A.OverAlphabet) {w : Word} (hw : A.accepts w = true) :
    w.Over A.alphabet := by
  obtain ⟨y, hy⟩ := accepts_iff_exists_relates.1 hw
  exact (hA.copies_of_relates hy).2

/-! ## The operations -/

/-- The requirements of a complement, in the order in which they are checked: letters, then copying
transitions, then symbols of Σ. -/
theorem requireComplementable_cases (A : Automaton) :
    (A.alphabet.symbols = []
        ∧ A.requireComplementable = .error (.undeclaredAlphabet .complement .noSymbols))
      ∨ (A.alphabet.symbols ≠ [] ∧ A.Rewrites
          ∧ A.requireComplementable = .error (.notAnAcceptor .complement))
      ∨ (A.alphabet.symbols ≠ [] ∧ ¬ A.Rewrites ∧ A.Strays ∧ ∃ name,
          A.requireComplementable = .error (.undeclaredAlphabet .complement (.outside name)))
      ∨ (A.alphabet.symbols ≠ [] ∧ A.OverAlphabet ∧ A.requireComplementable = .ok ()) := by
  unfold requireComplementable
  by_cases hempty : A.alphabet.symbols = []
  case pos => exact .inl ⟨hempty, if_pos (List.isEmpty_iff.2 hempty)⟩
  have hletters : ¬ A.alphabet.isEmpty = true := fun h => hempty (List.isEmpty_iff.1 h)
  rw [if_neg hletters]
  by_cases hacceptor : A.isAcceptor = true
  case neg =>
    have hrewrites : A.Rewrites := rewrites_iff.2 (Bool.eq_false_iff.2 hacceptor)
    exact .inr (.inl ⟨hempty, hrewrites, if_pos (by simpa using hacceptor)⟩)
  have hcopies : ¬ A.Rewrites := by
    rw [rewrites_iff, hacceptor]
    exact Bool.noConfusion
  rw [if_neg (by simp [hacceptor])]
  -- of an acceptor it is enough to look at the input symbols
  cases hfind : A.inputSymbols.find? (!A.alphabet.contains ·) with
  | some s =>
    have hforeign : A.alphabet.contains s = false := by simpa using List.find?_some hfind
    have hstrays : A.Strays :=
      (strays_iff hacceptor).2 ⟨s, List.mem_of_find?_eq_some hfind, hforeign⟩
    exact .inr (.inr (.inl ⟨hempty, hcopies, hstrays, _, rfl⟩))
  | none =>
    have hdeclared : ¬ A.Strays := by
      rw [strays_iff hacceptor]
      rintro ⟨s, hs, hforeign⟩
      have hfound := List.find?_eq_none.1 hfind s hs
      rw [hforeign] at hfound
      exact hfound rfl
    exact .inr (.inr (.inr ⟨hempty, overAlphabet_iff.2 ⟨hcopies, hdeclared⟩, rfl⟩))

/-- Over an alphabet with a letter the check passes. -/
theorem requireComplementable_of_overAlphabet (hA : A.OverAlphabet)
    (hsymbols : A.alphabet.symbols ≠ []) : A.requireComplementable = .ok () := by
  rcases A.requireComplementable_cases with ⟨hempty, -⟩ | ⟨-, hrewrites, -⟩ | ⟨-, -, hstrays, -⟩
    | ⟨-, -, h⟩
  · exact absurd hempty hsymbols
  · exact absurd hrewrites (overAlphabet_iff.1 hA).1
  · exact absurd hstrays (overAlphabet_iff.1 hA).2
  · exact h

/-- What passes the check is over an alphabet with a letter. -/
theorem requireComplementable_eq_ok {u : Unit} (h : A.requireComplementable = .ok u) :
    A.alphabet.symbols ≠ [] ∧ A.OverAlphabet := by
  rcases A.requireComplementable_cases with ⟨-, he⟩ | ⟨-, -, he⟩ | ⟨-, -, -, _, he⟩
    | ⟨hsymbols, hover, -⟩
  · cases he.symm.trans h
  · cases he.symm.trans h
  · cases he.symm.trans h
  · exact ⟨hsymbols, hover⟩

/-- A transition of an acceptor over its alphabet that is not silent copies a letter of Σ. -/
theorem OverAlphabet.exists_letter (hA : A.OverAlphabet) {q : Nat} {t : Transition}
    (ht : t ∈ A.transitions q) (haudible : t.isSilent = false) :
    ∃ s, A.alphabet.contains s = true ∧ t.labels = letter s := by
  have hcopies : t.input = t.output := hA.copies q t ht
  rw [Arc.isSilent_eq, Arc.labels, ← hcopies] at haudible
  cases hinput : t.input with
  | epsilon =>
    rw [hinput] at haudible
    cases haudible
  | symbol s =>
    refine ⟨s, hA.declared q t ht s hinput, ?_⟩
    rw [Arc.labels, ← hcopies, hinput]
    rfl

/-- Determinization removes the silent transitions, so that only letters are left. -/
theorem lettered_determinize (hA : A.OverAlphabet) (hD : A.determinize = .ok D) :
    D.Lettered A.alphabet := by
  intro q t ht
  obtain ⟨p, u, hu, hlabels⟩ := exists_transition_of_determinize hD ht
  have haudible := (deterministic_determinize hD).isSilent_eq_false q t ht
  rw [← isSilent_of_labels_eq hlabels] at haudible
  rw [← hlabels]
  exact hA.exists_letter hu haudible

/-- An automaton found complete reads every letter in every state. -/
theorem total_of_isComplete (hA : A.Lettered A.alphabet) (hcomplete : A.isComplete = true) :
    A.Total A.alphabet := by
  intro q hq c hc
  have hstate : A.state q ∈ A.states := by
    rw [state_eq_getElem hq]
    exact Array.getElem_mem hq
  have hmissing := Array.all_eq_true_iff_forall_mem.1 hcomplete _ hstate
  rw [List.isEmpty_iff] at hmissing
  -- a letter that is not read would be listed as missing
  by_contra hread
  have hmem : c ∈ missingLetters A.alphabet (A.state q) := by
    refine mem_missingLetters_iff.2 ⟨hc, fun t ht hinput => hread ⟨t, ht, ?_⟩⟩
    obtain ⟨s, -, hlabels⟩ := hA q t ht
    have hs : s = c := Label.symbol.inj ((Prod.mk.inj hlabels).1.symm.trans hinput)
    exact hs ▸ hlabels
  rw [hmissing] at hmem
  exact List.not_mem_nil hmem

/-- What completion makes of a deterministic automaton over letters. -/
theorem complete_eq_ok (hA : A.Lettered A.alphabet) (hdeterministic : A.system.Deterministic)
    (h : A.complete = .ok C) :
    C.Lettered A.alphabet ∧ C.system.Deterministic ∧ C.Total A.alphabet
      ∧ (∀ x y, C.Relates x y ↔ A.Relates x y) ∧ C.alphabet = A.alphabet := by
  unfold complete at h
  split at h
  next hcomplete =>
    cases h
    exact ⟨hA, hdeterministic, total_of_isComplete hA hcomplete, fun _ _ => Iff.rfl, rfl⟩
  · obtain ⟨-, -, h⟩ := Except.bind_eq_ok.1 h
    rw [← Except.pure_eq_ok.1 h]
    exact ⟨lettered_withSink hA, deterministic_withSink hA hdeterministic, total_withSink hA,
      fun _ _ => relates_withSink_iff, rfl⟩

/-- The complement has the words over Σ that are rejected. -/
theorem accepts_complement_iff (h : A.complement = .ok C) {w : Word} :
    C.accepts w = true ↔ w.Over A.alphabet ∧ A.accepts w = false := by
  obtain ⟨_, hrequire, h⟩ := Except.bind_eq_ok.1 h
  obtain ⟨D, hD, h⟩ := Except.bind_eq_ok.1 h
  obtain ⟨E, hE, h⟩ := Except.bind_eq_ok.1 h
  obtain ⟨-, hover⟩ := requireComplementable_eq_ok hrequire
  have hlettered := lettered_determinize hover hD
  rw [← alphabet_determinize hD] at hlettered
  obtain ⟨hElettered, hEdeterministic, hEtotal, hErelates, -⟩ :=
    complete_eq_ok hlettered (deterministic_determinize hD) hE
  have haccepts : E.accepts w = A.accepts w :=
    (accepts_congr hErelates w).trans
      (accepts_congr (relates_congr fun _ => hasLabels_determinize_iff hD) w)
  rw [← Except.pure_eq_ok.1 h, hElettered.accepts_flip_iff hEdeterministic hEtotal, haccepts,
    alphabet_determinize hD]

/-- What has a complement has an alphabet with letters. -/
theorem symbols_ne_nil_of_complement (h : A.complement = .ok C) : A.alphabet.symbols ≠ [] := by
  obtain ⟨_, hrequire, -⟩ := Except.bind_eq_ok.1 h
  exact (requireComplementable_eq_ok hrequire).1

/-- A difference is an intersection with a complement. -/
theorem difference_eq_ok (h : A.difference B = .ok C) :
    ∃ D, B.complement = .ok D ∧ A.intersection D = .ok C := by
  obtain ⟨-, -, h⟩ := Except.bind_eq_ok.1 h
  exact Except.bind_eq_ok.1 h

/-- The difference copies the words over Σ that the first acceptor accepts and the second rejects.
-/
theorem relates_difference_iff (h : A.difference B = .ok C) {x y : Word} :
    C.Relates x y
      ↔ x = y ∧ A.accepts x = true ∧ x.Over B.alphabet ∧ B.accepts x = false := by
  obtain ⟨D, hD, hC⟩ := difference_eq_ok h
  rw [relates_intersection_iff hC, accepts_complement_iff hD]

/-- Taking the words of a list away. -/
theorem relates_difference_words_iff {ws : List Word} (h : A.difference (words S ws) = .ok C)
    {x y : Word} : C.Relates x y ↔ x = y ∧ A.accepts x = true ∧ x.Over S ∧ x ∉ ws := by
  have hrejects : (words S ws).accepts x = false ↔ x ∉ ws := by
    rw [← Bool.not_eq_true, accepts_words_iff]
  rw [relates_difference_iff h, alphabet_words, hrejects]

/-- A difference is over the alphabet of the first operand. -/
@[grind →] theorem alphabet_difference (h : A.difference B = .ok C) : C.alphabet = A.alphabet := by
  obtain ⟨D, -, hC⟩ := difference_eq_ok h
  exact alphabet_intersection hC

end Automaton

end FiniteState
