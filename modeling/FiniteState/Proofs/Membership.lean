import FiniteState.Automaton.Membership
import FiniteState.Proofs.DepthFirst
import FiniteState.Proofs.Trace
import Mathlib.Data.List.Induction
import Mathlib.Data.List.Permutation

/-!
# Membership and paths

* `mem_closure_iff`: a closure holds the states at the end of paths whose transitions satisfy the
  condition.
* `accepts_iff_exists_relates`: a word is accepted if some path from the start to an accepting state
  reads it, whatever the path writes.
* `transduces_iff_relates`: a pair of words is found if such a path reads the first and writes the
  second.
* `overflow_configurationSearch`: the search for a pair of words is never cut short.
* `depthFirst_iff_eq_transduces`: a loop over a stack finds the same pairs, and ends.
-/

namespace FiniteState

/-! ## Words along paths -/

@[simp] theorem spell_singleton (tape : Tape) (t : Transition) :
    spell tape [t] = (t.label tape).toWord := by
  rw [spell_cons, spell_nil, List.append_nil]

theorem Label.toWord_eq_nil_iff {l : Label} : l.toWord = [] ↔ l.isEpsilon = true := by
  cases l <;> simp [toWord, isEpsilon]

theorem Label.mem_toWord_iff {l : Label} {s : Symbol} : s ∈ l.toWord ↔ l = .symbol s := by
  cases l <;> simp [toWord, eq_comm]

/-- Nothing is spelled along transitions that are empty on the tape. -/
theorem spell_eq_nil_iff {tape : Tape} {ts : List Transition} :
    spell tape ts = [] ↔ ∀ t ∈ ts, (t.label tape).isEpsilon = true := by
  simp only [spell, List.flatMap_eq_nil_iff, Label.toWord_eq_nil_iff]

/-- Transitions that spell a word have one that spells its last symbol, and spell nothing after
it. -/
theorem exists_of_spell_eq_concat {tape : Tape} {ts : List Transition} {w : Word} {s : Symbol}
    (h : spell tape ts = w ++ [s]) :
    ∃ us t vs, ts = us ++ t :: vs ∧ spell tape us = w ∧ t.label tape = .symbol s
      ∧ spell tape vs = [] := by
  -- by induction from the back: silent transitions are passed over until one reads the symbol
  induction ts using List.reverseRecOn with
  | nil => simp [spell] at h
  | append_singleton ts t ih =>
    rw [spell_append, spell_singleton] at h
    cases hlabel : t.label tape with
    | epsilon =>
      rw [hlabel] at h
      obtain ⟨us, u, vs, rfl, hus, hu, hvs⟩ := ih (by simpa [Label.toWord] using h)
      refine ⟨us, u, vs ++ [t], by simp, hus, hu, ?_⟩
      rw [spell_append, spell_singleton, hvs, hlabel]
      rfl
    | symbol s' =>
      rw [hlabel] at h
      have hlast := List.append_inj' h rfl
      have hs : s' = s := by simpa [Label.toWord] using hlast.2
      exact ⟨ts, t, [], rfl, hlast.1, by rw [hlabel, hs], rfl⟩

namespace Automaton

variable {A : Automaton}

theorem Path.snoc {p q : Nat} {ts : List Transition} (h : A.Path p ts q) {t : Transition}
    (ht : t ∈ A.transitions q) : A.Path p (ts ++ [t]) t.target :=
  h.append (.cons ht (.nil _))

/-! ## Closures

Sets of states are closed under the transitions that leave the tape alone. By induction on the word,
they hold the ends of the paths that spell what has been read. -/

/-- Reaching along chosen transitions is having a path of them. -/
theorem reaches_filter_iff {p : Transition → Bool} {states : List Nat} {q : Nat} :
    Reaches (fun q => ((A.transitions q).filter p).map (·.target)) states q
      ↔ ∃ q₀ ∈ states, ∃ ts, A.Path q₀ ts q ∧ ∀ t ∈ ts, p t = true := by
  constructor
  · intro h
    induction h with
    | start h => exact ⟨_, h, [], .nil _, by simp⟩
    | step _ h' ih =>
      obtain ⟨q₀, hq₀, ts, hpath, hts⟩ := ih
      obtain ⟨t, ht, rfl⟩ := List.mem_map.1 h'
      obtain ⟨ht, hp⟩ := List.mem_filter.1 ht
      refine ⟨q₀, hq₀, ts ++ [t], hpath.snoc ht, fun u hu => ?_⟩
      rcases List.mem_append.1 hu with hu | hu
      · exact hts u hu
      · rw [List.mem_singleton.1 hu]
        exact hp
  · rintro ⟨q₀, hq₀, ts, hpath, hts⟩
    -- the start has to vary along the path, so only that it is reached is kept
    have hstart : Reaches (fun q => ((A.transitions q).filter p).map (·.target)) states q₀ :=
      .start hq₀
    clear hq₀
    induction hpath with
    | nil => exact hstart
    | @cons p' q t ts ht hpath ih =>
      refine ih (fun u hu => hts u (by simp [hu])) (.step hstart ?_)
      exact List.mem_map.2 ⟨t, List.mem_filter.2 ⟨ht, hts t (by simp)⟩, rfl⟩

/-- The closure of states that exist is what paths along the admitted transitions lead to. -/
theorem mem_closure_iff {p : Transition → Bool} {states : List Nat}
    (hstates : ∀ q ∈ states, q < A.size) {q : Nat} :
    q ∈ A.closure p states ↔ ∃ q₀ ∈ states, ∃ ts, A.Path q₀ ts q ∧ ∀ t ∈ ts, p t = true := by
  have hover : (Search.run (fun q => ((A.transitions q).filter p).map (·.target)) A.size
      states).overflow = false := by
    refine Search.overflow_eq_false_of_subset A.stateNumbers ?_ fun k hk => ?_
    · exact Nat.le_of_eq length_stateNumbers
    · obtain ⟨q₀, hq₀, ts, hpath, -⟩ := reaches_filter_iff.1 hk
      rw [mem_stateNumbers]
      exact hpath.lt_size (hstates q₀ hq₀)
  rw [closure, List.mem_mergeSort, ← Numbering.mem_iff_mem_toList, Search.mem_run_iff hover,
    reaches_filter_iff]

/-- The closure on a tape holds what is reached without spelling anything there. -/
theorem mem_tapeClosure_iff {tape : Tape} {states : List Nat} (hstates : ∀ q ∈ states, q < A.size)
    {q : Nat} :
    q ∈ A.tapeClosure tape states ↔ ∃ q₀ ∈ states, ∃ ts, A.Path q₀ ts q ∧ spell tape ts = [] := by
  simp only [tapeClosure, mem_closure_iff hstates, spell_eq_nil_iff]

/-- One step reads the symbol and then goes on without spelling anything. -/
theorem mem_step_iff {tape : Tape} {set : StateSet} {s : Symbol} {q : Nat} :
    q ∈ A.step tape set s
      ↔ ∃ p ∈ set, ∃ t ∈ A.transitions p, t.label tape = .symbol s
        ∧ ∃ ts, A.Path t.target ts q ∧ spell tape ts = [] := by
  have htargets : ∀ q ∈ ((set.flatMap A.transitions).filter
      fun t => t.label tape == .symbol s).map (·.target), q < A.size := by
    intro q hq
    obtain ⟨t, ht, rfl⟩ := List.mem_map.1 hq
    obtain ⟨p, -, ht⟩ := List.mem_flatMap.1 (List.mem_filter.1 ht).1
    exact target_lt_size ht
  rw [step, mem_tapeClosure_iff htargets]
  constructor
  · rintro ⟨q₀, hq₀, ts, hts⟩
    obtain ⟨t, ht, rfl⟩ := List.mem_map.1 hq₀
    obtain ⟨ht, hlabel⟩ := List.mem_filter.1 ht
    obtain ⟨p, hp, ht⟩ := List.mem_flatMap.1 ht
    exact ⟨p, hp, t, ht, eq_of_beq hlabel, ts, hts⟩
  · rintro ⟨p, hp, t, ht, hlabel, ts, hts⟩
    refine ⟨t.target, List.mem_map.2 ⟨t, List.mem_filter.2 ⟨?_, ?_⟩, rfl⟩, ts, hts⟩
    · exact List.mem_flatMap.2 ⟨p, hp, ht⟩
    · rw [hlabel]
      exact beq_self_eq_true _

/-- After reading a word, the set holds the states at the end of the paths that spell it. -/
theorem mem_foldl_step_iff {tape : Tape} {w : Word} {q : Nat} :
    q ∈ w.foldl (A.step tape) (A.initialSet tape)
      ↔ ∃ ts, A.Path A.start ts q ∧ spell tape ts = w := by
  -- by induction from the back, as the last symbol is read last
  induction w using List.reverseRecOn generalizing q with
  | nil =>
    have hstart : ∀ q ∈ [A.start], q < A.size := by
      intro q hq
      rw [List.mem_singleton.1 hq]
      exact A.start_lt_size
    rw [List.foldl_nil, initialSet, mem_tapeClosure_iff hstart]
    simp
  | append_singleton w s ih =>
    rw [List.foldl_append, List.foldl_cons, List.foldl_nil, mem_step_iff]
    constructor
    · rintro ⟨p, hp, t, ht, hlabel, vs, hvs, hspell⟩
      obtain ⟨us, hus, rfl⟩ := ih.1 hp
      refine ⟨us ++ t :: vs, hus.append (.cons ht hvs), ?_⟩
      rw [spell_append, spell_cons, hspell, hlabel]
      rfl
    · rintro ⟨ts, hpath, hspell⟩
      obtain ⟨us, t, vs, rfl, hus, hlabel, hvs⟩ := exists_of_spell_eq_concat hspell
      obtain ⟨p, hp, hrest⟩ := path_append_iff.1 hpath
      obtain ⟨ht, hrest⟩ := path_cons_iff.1 hrest
      exact ⟨p, ih.2 ⟨us, hp, hus⟩, t, ht, hlabel, vs, hrest, hvs⟩

/-- A state set accepts if a state of it does. -/
theorem anyFinal_iff {set : StateSet} : A.anyFinal set = true ↔ ∃ q ∈ set, A.isFinal q = true := by
  rw [anyFinal, List.any_eq_true]

/-- A word is accepted if it is related to some word. -/
theorem accepts_iff_exists_relates {w : Word} : A.accepts w = true ↔ ∃ y, A.Relates w y := by
  rw [accepts, anyFinal_iff]
  constructor
  · rintro ⟨q, hq, hfinal⟩
    obtain ⟨ts, hpath, hspell⟩ := mem_foldl_step_iff.1 hq
    exact ⟨_, ts, ⟨q, hpath, hfinal⟩, hspell, rfl⟩
  · rintro ⟨y, ts, ⟨q, hpath, hfinal⟩, hx, -⟩
    exact ⟨q, mem_foldl_step_iff.2 ⟨ts, hpath, hx⟩, hfinal⟩

/-- What relates words to themselves only accepts the words that it relates. -/
theorem accepts_iff_of_copies {P : Word → Prop} (h : ∀ x y, A.Relates x y ↔ x = y ∧ P x)
    {w : Word} : A.accepts w = true ↔ P w := by
  rw [accepts_iff_exists_relates]
  constructor
  · rintro ⟨y, hy⟩
    exact ((h w y).1 hy).2
  · exact fun hw => ⟨w, (h w w).2 ⟨rfl, hw⟩⟩

/-- Automata that define the same relation accept the same words. -/
theorem accepts_congr {B : Automaton} (h : ∀ x y, A.Relates x y ↔ B.Relates x y) (w : Word) :
    A.accepts w = B.accepts w := by
  rw [Bool.eq_iff_iff, accepts_iff_exists_relates, accepts_iff_exists_relates]
  exact exists_congr fun y => h w y

/-- The check for acceptors compares the labels of every transition. -/
theorem isAcceptor_iff : A.isAcceptor = true ↔ ∀ q, ∀ t ∈ A.transitions q, t.input = t.output := by
  rw [isAcceptor, Array.all_eq_true_iff_forall_mem]
  constructor
  · intro h q t ht
    exact eq_of_beq (List.all_eq_true.1 (h _ (mem_states_of_mem_transitions ht)) t ht)
  · intro h s hs
    obtain ⟨q, hq, rfl⟩ := Array.mem_iff_getElem.1 hs
    rw [← state_eq_getElem hq]
    exact List.all_eq_true.2 fun t ht => beq_iff_eq.2 (h q t ht)

/-- The label pairs of an acceptor's path are those of the word that it spells. -/
theorem labelPairs_of_isAcceptor (hA : A.isAcceptor = true) {p q : Nat} {ts : List Transition}
    (h : A.Path p ts q) :
    labelPairs ts = (spell .input ts).map fun s => (.symbol s, .symbol s) := by
  rw [isAcceptor_iff] at hA
  induction h with
  | nil => rfl
  | @cons p q t ts ht _ ih =>
    have hcopy := hA p t ht
    rw [spell_cons, List.map_append, ← ih]
    obtain ⟨input, output, target⟩ := t
    cases hcopy
    cases input <;> rfl

/-- The pair language of an acceptor consists of the words that it accepts. -/
theorem hasLabels_iff_accepts (hA : A.isAcceptor = true) {ls : List (Label × Label)} :
    A.HasLabels ls
      ↔ ∃ w, A.accepts w = true ∧ w.map (fun s => (Label.symbol s, Label.symbol s)) = ls := by
  constructor
  · rintro ⟨ts, hts, rfl⟩
    obtain ⟨q, hpath, -⟩ := id hts
    refine ⟨spell .input ts, accepts_iff_exists_relates.2 ⟨_, ts, hts, rfl, rfl⟩, ?_⟩
    exact (labelPairs_of_isAcceptor hA hpath).symm
  · rintro ⟨w, hw, rfl⟩
    obtain ⟨y, ts, hts, rfl, -⟩ := accepts_iff_exists_relates.1 hw
    obtain ⟨q, hpath, -⟩ := id hts
    exact ⟨ts, hts, labelPairs_of_isAcceptor hA hpath⟩

/-! ## Pairs of words

The search among configurations follows the paths whose words are initial segments of the two words
given. -/

/-- The next symbol of a word is read, and an empty label reads nothing. -/
theorem advance_eq_some {w rest : Word} {i : Nat} {l : Label} (h : w.drop i = l.toWord ++ rest) :
    advance w i l = some (i + l.toWord.length) := by
  cases l with
  | epsilon => rfl
  | symbol s =>
    have hget : w[i]? = some s := by
      rw [← List.head?_drop, h]
      rfl
    rw [advance, if_pos hget]
    rfl

/-- What was read gets longer by what the label spells. -/
theorem take_of_advance {w : Word} {i j : Nat} {l : Label} (hi : i ≤ w.length)
    (h : advance w i l = some j) : w.take j = w.take i ++ l.toWord ∧ j ≤ w.length := by
  cases l with
  | epsilon =>
    cases h
    exact ⟨(List.append_nil _).symm, hi⟩
  | symbol s =>
    rw [advance] at h
    split at h
    next hget =>
      cases h
      have hlt := (List.getElem?_eq_some_iff.1 hget).1
      rw [List.take_add_one, hget]
      exact ⟨rfl, hlt⟩
    · cases h

/-- A configuration goes on along a transition whose labels are next on both tapes. -/
theorem mem_nextConfigurations_iff {x y : Word} {c d : Configuration} :
    d ∈ A.nextConfigurations x y c
      ↔ ∃ t ∈ A.transitions c.state, t.target = d.state ∧ advance x c.read t.input = some d.read
        ∧ advance y c.written t.output = some d.written := by
  simp only [nextConfigurations, List.mem_filterMap]
  refine exists_congr fun t => and_congr_right fun _ => ?_
  cases hread : advance x c.read t.input with
  | none => simp
  | some i =>
    cases hwritten : advance y c.written t.output with
    | none => simp
    | some j =>
      cases d
      simp

/-- A configuration that is reached has a path behind it, which spells what was read and
written. -/
theorem path_of_reaches {x y : Word} {c : Configuration}
    (h : Reaches (A.nextConfigurations x y) [⟨A.start, 0, 0⟩] c) :
    ∃ ts, A.Path A.start ts c.state ∧ spell .input ts = x.take c.read
      ∧ spell .output ts = y.take c.written ∧ c.read ≤ x.length ∧ c.written ≤ y.length := by
  induction h with
  | start h =>
    rw [List.mem_singleton.1 h]
    exact ⟨[], .nil _, rfl, rfl, Nat.zero_le _, Nat.zero_le _⟩
  | step _ h' ih =>
    obtain ⟨ts, hpath, hx, hy, hread, hwritten⟩ := ih
    obtain ⟨t, ht, htarget, hadvance, hadvance'⟩ := mem_nextConfigurations_iff.1 h'
    have hx' := take_of_advance hread hadvance
    have hy' := take_of_advance hwritten hadvance'
    refine ⟨ts ++ [t], htarget ▸ hpath.snoc ht, ?_, ?_, hx'.2, hy'.2⟩
    · rw [spell_append, spell_singleton, hx, hx'.1]
      rfl
    · rw [spell_append, spell_singleton, hy, hy'.1]
      rfl

/-- A path that spells what comes next leads to the configuration behind it. -/
theorem reaches_of_path {x y : Word} {starts : List Configuration} {p q : Nat}
    {ts : List Transition} (hpath : A.Path p ts q) {i j : Nat} {x' y' : Word}
    (hx : x.drop i = spell .input ts ++ x') (hy : y.drop j = spell .output ts ++ y')
    (hstart : Reaches (A.nextConfigurations x y) starts ⟨p, i, j⟩) :
    Reaches (A.nextConfigurations x y) starts
      ⟨q, i + (spell .input ts).length, j + (spell .output ts).length⟩ := by
  induction hpath generalizing i j with
  | nil => exact hstart
  | @cons p q t ts ht _ ih =>
    rw [spell_cons, List.append_assoc] at hx hy
    -- the transition advances by what it reads and writes, which the words go on with
    have hstep : Reaches (A.nextConfigurations x y) starts
        ⟨t.target, i + t.input.toWord.length, j + t.output.toWord.length⟩ := by
      refine .step hstart (mem_nextConfigurations_iff.2 ⟨t, ht, rfl, ?_, ?_⟩)
      · exact advance_eq_some hx
      · exact advance_eq_some hy
    have hx' : x.drop (i + t.input.toWord.length) = spell .input ts ++ x' := by
      rw [← List.drop_drop, hx]
      exact List.drop_left
    have hy' : y.drop (j + t.output.toWord.length) = spell .output ts ++ y' := by
      rw [← List.drop_drop, hy]
      exact List.drop_left
    have h := ih hx' hy' hstep
    rw [spell_cons, spell_cons, List.length_append, List.length_append, ← Nat.add_assoc,
      ← Nat.add_assoc]
    exact h

/-- All configurations for words of the given lengths. -/
def configurations (A : Automaton) (m n : Nat) : List Configuration :=
  A.stateNumbers.flatMap fun q =>
    (List.range (m + 1)).flatMap fun i => (List.range (n + 1)).map fun j => ⟨q, i, j⟩

/-- There are as many configurations as states and positions in both words. -/
@[simp] theorem length_configurations (A : Automaton) (m n : Nat) :
    (A.configurations m n).length = A.size * (m + 1) * (n + 1) := by
  simp [configurations, List.length_flatMap, length_stateNumbers, Nat.mul_assoc]

/-- Every configuration with a state and two positions in range is listed. -/
theorem mem_configurations {m n : Nat} {c : Configuration} (hstate : c.state < A.size)
    (hread : c.read ≤ m) (hwritten : c.written ≤ n) : c ∈ A.configurations m n := by
  simp only [configurations, List.mem_flatMap, List.mem_map, List.mem_range]
  exact ⟨c.state, mem_stateNumbers.2 hstate, c.read, by omega, c.written, by omega, rfl⟩

/-- The search by which a pair of words is decided. -/
def configurationSearch (A : Automaton) (x y : Word) : Search Configuration :=
  Search.run (A.nextConfigurations x y) (A.size * (x.length + 1) * (y.length + 1))
    [⟨A.start, 0, 0⟩]

/-- Whether both words are used up in an accepting state. -/
def isGoal (A : Automaton) (x y : Word) (c : Configuration) : Bool :=
  c.read == x.length && c.written == y.length && A.isFinal c.state

/-- The pair is related if the search finds a goal. -/
theorem transduces_eq (A : Automaton) (x y : Word) :
    A.transduces x y = (A.configurationSearch x y).found.toList.any (A.isGoal x y) := rfl

/-- Every configuration that is reached is one of them, so the search has room. -/
theorem mem_configurations_of_reaches {x y : Word} {c : Configuration}
    (h : Reaches (A.nextConfigurations x y) [⟨A.start, 0, 0⟩] c) :
    c ∈ A.configurations x.length y.length := by
  obtain ⟨ts, hpath, -, -, hread, hwritten⟩ := path_of_reaches h
  exact mem_configurations (hpath.lt_size A.start_lt_size) hread hwritten

/-- The limit of the search admits all configurations, so it is never met. -/
theorem overflow_configurationSearch (A : Automaton) (x y : Word) :
    (A.configurationSearch x y).overflow = false := by
  apply Search.overflow_eq_false_of_subset (A.configurations x.length y.length)
  · exact Nat.le_of_eq (length_configurations A _ _)
  · exact fun c hc => mem_configurations_of_reaches hc

theorem mem_configurationSearch_iff {x y : Word} {c : Configuration} :
    c ∈ (A.configurationSearch x y).found
      ↔ Reaches (A.nextConfigurations x y) [⟨A.start, 0, 0⟩] c :=
  Search.mem_run_iff (A.overflow_configurationSearch x y)

/-- The answer is yes if a goal is reached. -/
theorem transduces_iff_reaches {x y : Word} :
    A.transduces x y = true
      ↔ ∃ c, Reaches (A.nextConfigurations x y) [⟨A.start, 0, 0⟩] c ∧ A.isGoal x y c = true := by
  simp only [transduces_eq, List.any_eq_true, ← Numbering.mem_iff_mem_toList,
    mem_configurationSearch_iff]

/-- The answer is yes if the words are related. -/
theorem transduces_iff_relates {x y : Word} : A.transduces x y = true ↔ A.Relates x y := by
  simp only [transduces_iff_reaches, isGoal, Bool.and_eq_true, beq_iff_eq]
  constructor
  · rintro ⟨c, hc, ⟨hread, hwritten⟩, hfinal⟩
    obtain ⟨ts, hpath, hx, hy, -, -⟩ := path_of_reaches hc
    refine ⟨ts, ⟨c.state, hpath, hfinal⟩, ?_, ?_⟩
    · rw [hx, hread, List.take_length]
    · rw [hy, hwritten, List.take_length]
  · rintro ⟨ts, ⟨q, hpath, hfinal⟩, rfl, rfl⟩
    have hreach := reaches_of_path hpath (i := 0) (j := 0) (List.append_nil _).symm
      (List.append_nil _).symm (.start (List.mem_singleton_self _))
    exact ⟨_, hreach, ⟨Nat.zero_add _, Nat.zero_add _⟩, hfinal⟩

/-- A loop over a stack of configurations ends, in one way, and with what the search tells. -/
theorem depthFirst_iff_eq_transduces {x y : Word} {result : Bool} :
    DepthFirst (A.nextConfigurations x y) (A.isGoal x y) ∅ [⟨A.start, 0, 0⟩] result
      ↔ result = A.transduces x y := by
  have hends : ∃ final,
      DepthFirst (A.nextConfigurations x y) (A.isGoal x y) ∅ [⟨A.start, 0, 0⟩] final :=
    exists_depthFirst (A.configurations x.length y.length).finite_toSet
      fun _ => mem_configurations_of_reaches
  obtain ⟨final, hfinal⟩ := hends
  have hvalue : final = A.transduces x y := by
    rw [Bool.eq_iff_iff, hfinal.eq_true_iff, transduces_iff_reaches]
  constructor
  · intro h
    exact (h.unique hfinal).trans hvalue
  · rintro rfl
    rw [← hvalue]
    exact hfinal

/-- Automata with the same relation give the same answers. -/
theorem transduces_congr {B : Automaton} (h : ∀ x y, A.Relates x y ↔ B.Relates x y) (x y : Word) :
    A.transduces x y = B.transduces x y := by
  rw [Bool.eq_iff_iff, transduces_iff_relates, transduces_iff_relates]
  exact h x y

/-! ## Both algorithms

One follows sets of states along a word on the input tape, the other single states along two words.
Both go around silent cycles, so neither the paths nor what they write is bounded by the words. -/

/-- An acceptor copies the words that it accepts. -/
theorem relates_iff_accepts (hA : A.isAcceptor = true) {x y : Word} :
    A.Relates x y ↔ x = y ∧ A.accepts x = true := by
  rw [accepts_iff_exists_relates]
  constructor
  · intro h
    exact ⟨eq_of_relates hA h, y, h⟩
  · rintro ⟨rfl, z, h⟩
    obtain rfl : x = z := eq_of_relates hA h
    exact h

/-- The search for a pair of words comes to its end: it never meets its limit, and whatever it has
found is expanded. A loop over a stack comes to an end as well, with the same result. They find the
pairs that are spelled along accepting paths. A word is accepted if it is in such a pair, and an
acceptor pairs a word that it accepts with itself only. -/
theorem transduces_accepts_agree (A : Automaton) (x y : Word) :
    (∀ result,
        DepthFirst (A.nextConfigurations x y) (A.isGoal x y) ∅ [⟨A.start, 0, 0⟩] result
          ↔ result = A.transduces x y)
      ∧ (A.configurationSearch x y).overflow = false
      ∧ (∀ c ∈ (A.configurationSearch x y).found, ∀ d ∈ A.nextConfigurations x y c,
          d ∈ (A.configurationSearch x y).found)
      ∧ (A.transduces x y = true
          ↔ ∃ ts, A.AcceptingPath ts ∧ spell .input ts = x ∧ spell .output ts = y)
      ∧ (A.accepts x = true ↔ ∃ z, A.transduces x z = true)
      ∧ (A.isAcceptor = true → (A.transduces x y = true ↔ x = y ∧ A.accepts x = true)) := by
  refine ⟨fun _ => depthFirst_iff_eq_transduces, A.overflow_configurationSearch x y, ?_, ?_⟩
  · intro c hc d hd
    rw [mem_configurationSearch_iff] at hc ⊢
    exact .step hc hd
  · simp only [transduces_iff_relates]
    exact ⟨Iff.rfl, accepts_iff_exists_relates, fun hA => relates_iff_accepts hA⟩

/-- Accepts the words that end in a, with a silent cycle through its start. -/
def circling : Automaton where
  alphabet := .abcd
  states := #[
    { transitions := [.silent 1, .copying (.symbol ⟨1⟩) 0] },
    { transitions := [.silent 0, .copying (.symbol ⟨0⟩) 2] },
    { accepting := true, transitions := [.silent 1] }]
  start := 0
  start_lt := by decide
  target_lt := by decide

/-- The word ba is accepted, so it is copied, and it is not mapped to b. A loop over a stack ends in
spite of the silent cycle. -/
theorem transduces_circling :
    circling.isAcceptor = true
      ∧ DepthFirst (circling.nextConfigurations [⟨1⟩, ⟨0⟩] [⟨1⟩]) (circling.isGoal [⟨1⟩, ⟨0⟩] [⟨1⟩])
          ∅ [⟨circling.start, 0, 0⟩] false
      ∧ (circling.configurationSearch [⟨1⟩, ⟨0⟩] [⟨1⟩]).overflow = false
      ∧ circling.transduces [⟨1⟩, ⟨0⟩] [⟨1⟩, ⟨0⟩] = true
      ∧ circling.transduces [⟨1⟩, ⟨0⟩] [⟨1⟩] = false := by
  have hacceptor : circling.isAcceptor = true := by cbv
  have haccepts : circling.accepts [⟨1⟩, ⟨0⟩] = true := by cbv
  obtain ⟨-, -, -, -, -, hself⟩ := transduces_accepts_agree circling [⟨1⟩, ⟨0⟩] [⟨1⟩, ⟨0⟩]
  obtain ⟨hloop, hover, -, -, -, hother⟩ := transduces_accepts_agree circling [⟨1⟩, ⟨0⟩] [⟨1⟩]
  have hrejects : circling.transduces [⟨1⟩, ⟨0⟩] [⟨1⟩] = false := by
    rw [Bool.eq_false_iff, ne_eq, hother hacceptor]
    rintro ⟨h, -⟩
    cases h
  exact ⟨hacceptor, (hloop false).2 hrejects.symm, hover, (hself hacceptor).2 ⟨rfl, haccepts⟩,
    hrejects⟩

end Automaton

end FiniteState
