import FiniteState.Automaton.Construct
import FiniteState.Proofs.Product

/-!
# Elementary automata

What the elementary automata relate, and that a trie accepts the words it was made of. Every state
of a trie is reached by one word only, so a state can be named by its word: adding a word follows
the states of its initial segments, and makes new ones accepting no other word.

* `relates_pair_iff`, `relates_sigma_iff`, `relates_project_output_iff`: the elementary automata.
* `relates_words_iff`: a trie copies exactly its words.
-/

namespace FiniteState

/-! ## Words over Σ -/

namespace Alphabet

variable {S : Alphabet}

/-- The letters of Σ are the symbols of the alphabet. -/
@[simp] theorem mem_sigma_iff {s : Symbol} : s ∈ S.sigma ↔ S.contains s = true := by
  rw [sigma, List.mem_map, contains, decide_eq_true_eq]
  constructor
  · rintro ⟨i, hi, rfl⟩
    exact List.mem_range.1 hi
  · intro hs
    exact ⟨s.code, List.mem_range.2 hs, rfl⟩

/-- The symbols with a name are those of Σ and the edit markers. -/
@[simp] theorem mem_sigmaWithMarkers_iff {s : Symbol} :
    s ∈ S.sigmaWithMarkers ↔ S.contains s = true ∨ ∃ m, s = S.marker m := by
  have hmem : s ∈ S.sigmaWithMarkers ↔ s.code < S.size + 3 := by
    constructor
    · intro hs
      obtain ⟨code, hcode, rfl⟩ := List.mem_map.1 hs
      exact List.mem_range.1 hcode
    · exact fun hs => List.mem_map.2 ⟨s.code, List.mem_range.2 hs, rfl⟩
  rw [hmem, contains, decide_eq_true_eq]
  constructor
  · intro hs
    by_cases hsigma : s.code < S.size
    · exact .inl hsigma
    · -- there are three numbers past those of Σ, one for each marker
      have hmarker : s.code = S.size ∨ s.code = S.size + 1 ∨ s.code = S.size + 2 := by omega
      rcases hmarker with h | h | h
      · exact .inr ⟨.insert, congrArg Symbol.mk h⟩
      · exact .inr ⟨.delete, congrArg Symbol.mk h⟩
      · exact .inr ⟨.substitute, congrArg Symbol.mk h⟩
  · rintro (hs | ⟨m, rfl⟩)
    · omega
    · have hoffset : m.offset < 3 := by cases m <;> decide
      exact Nat.add_lt_add_left hoffset S.size

/-- Which symbols belong to an alphabet is settled by its list of symbols. -/
theorem contains_congr {T : Alphabet} (h : S.symbols = T.symbols) (s : Symbol) :
    S.contains s = T.contains s :=
  congrArg (fun symbols : List Char => decide (s.code < symbols.length)) h

theorem nodup_sigma (S : Alphabet) : S.sigma.Nodup := by
  refine List.nodup_range.map fun i j hij => ?_
  exact Symbol.mk.inj hij

end Alphabet

/-- All symbols of the word belong to Σ. -/
def Word.Over (S : Alphabet) (w : Word) : Prop := ∀ s ∈ w, S.contains s = true

theorem Word.over_nil (S : Alphabet) : Word.Over S [] := fun _ hs => absurd hs List.not_mem_nil

theorem Word.over_cons_iff {S : Alphabet} {s : Symbol} {w : Word} :
    Word.Over S (s :: w) ↔ S.contains s = true ∧ Word.Over S w := by
  rw [Over, Over, List.forall_mem_cons]

theorem Word.over_append_iff {S : Alphabet} {u v : Word} :
    Word.Over S (u ++ v) ↔ Word.Over S u ∧ Word.Over S v := by
  rw [Over, Over, Over, List.forall_mem_append]

/-- Being over Σ does not depend on the limit of an alphabet. -/
theorem Word.over_congr {S T : Alphabet} (h : S.symbols = T.symbols) {w : Word} :
    w.Over S ↔ w.Over T := by
  simp only [Over, Alphabet.contains_congr h]

/-! ## Rendered words

Different symbols have different characters, so a word over Σ can be read back from what is
rendered. -/

namespace Alphabet

variable {S : Alphabet}

/-- No other symbol has the character of a symbol. -/
theorem symbol?_of_getElem? {s : Symbol} {c : Char} (h : S.symbols[s.code]? = some c) :
    S.symbol? c = some s := by
  obtain ⟨hlt, hget⟩ := List.getElem?_eq_some_iff.1 h
  have hindex : S.symbols.idxOf? c = some s.code := by
    rw [List.idxOf?_eq_some_iff]
    refine ⟨hlt, hget, fun j hj heq => ?_⟩
    have := (List.Nodup.getElem_inj_iff S.nodup).1 (heq.trans hget.symm)
    omega
  rw [symbol?, hindex]
  rfl

/-- A symbol of Σ is named by its character, which is read back as that symbol. -/
theorem exists_char_of_contains {s : Symbol} (hs : S.contains s = true) :
    ∃ c : Char, S.name s = c.toString ∧ S.symbol c = .ok s := by
  have hlt : s.code < S.symbols.length := of_decide_eq_true hs
  have hget : S.symbols[s.code]? = some S.symbols[s.code] := List.getElem?_eq_getElem hlt
  refine ⟨S.symbols[s.code], ?_, ?_⟩
  · rw [name, hget]
  · rw [symbol, symbol?_of_getElem? hget]

theorem render_cons (S : Alphabet) (s : Symbol) (w : Word) :
    S.render (s :: w) = S.name s ++ S.render w := by
  rw [render, List.map_cons, String.join_cons]
  rfl

/-- A word over Σ is read back from its written form. -/
theorem parseWord_render {w : Word} (hw : w.Over S) : S.parseWord (S.render w) = .ok w := by
  induction w with
  | nil => rfl
  | cons s w ih =>
    obtain ⟨hs, hw⟩ := Word.over_cons_iff.1 hw
    obtain ⟨c, hname, hsymbol⟩ := exists_char_of_contains hs
    have hparse : (S.render w).toList.mapM S.symbol = .ok w := ih hw
    have htext : (S.render (s :: w)).toList = c :: (S.render w).toList := by
      rw [render_cons, hname, String.toList_append]
      exact congrArg (· ++ (S.render w).toList) (String.toList_singleton c)
    rw [parseWord, htext, List.mapM_cons, hsymbol, hparse]
    rfl

/-- Words over Σ with the same text are equal, since a text is parsed in one way. -/
theorem render_inj {u v : Word} (hu : u.Over S) (hv : v.Over S) (h : S.render u = S.render v) :
    u = v := by
  have hparse := parseWord_render hu
  rw [h, parseWord_render hv] at hparse
  exact (Except.ok.inj hparse).symm

/-- The text of a word depends on the symbols of the alphabet only. -/
theorem render_congr {T : Alphabet} (h : S.symbols = T.symbols) (w : Word) :
    S.render w = T.render w := by
  obtain ⟨symbols, limit, hS⟩ := S
  obtain ⟨symbols', limit', hT⟩ := T
  obtain rfl : symbols = symbols' := h
  rfl

end Alphabet

namespace Automaton

variable {A : Automaton} {S : Alphabet}

/-! ## Single transitions -/

@[simp] theorem transitions_empty (S : Alphabet) (q : Nat) : (empty S).transitions q = [] := by
  cases q <;> rfl

@[simp] theorem not_relates_empty {x y : Word} : ¬ (empty S).Relates x y := by
  rintro ⟨ts, ⟨q, -, hq⟩, -⟩
  have hlt := lt_size_of_isFinal hq
  have hq0 : q = 0 := by
    simp only [size, empty, List.size_toArray, List.length_singleton] at hlt
    omega
  subst hq0
  cases hq

/-- The automaton of the empty word relates that word to itself. -/
@[simp] theorem relates_epsilon_iff {x y : Word} : (epsilon S).Relates x y ↔ x = [] ∧ y = [] := by
  rw [relates_iff_maps]
  constructor
  · rintro ⟨q, hrun, -⟩
    have harcs : (epsilon S).system.arcs (epsilon S).system.start = [] := rfl
    cases hrun with
    | nil => exact ⟨rfl, rfl⟩
    | cons ht _ =>
      rw [harcs] at ht
      exact absurd ht List.not_mem_nil
  · rintro ⟨rfl, rfl⟩
    exact ⟨0, .nil 0, rfl⟩

/-- An automaton of two states, whose transitions lead from the first to the accepting second. -/
theorem relates_of_two_states (ts : List Transition) (harcs : A.system.arcs 0 = ts)
    (htargets : ∀ t ∈ ts, t.target = 1) (hlast : A.system.arcs 1 = []) (hstart : A.start = 0)
    (hfinal : A.isFinal 0 = false) (hfinal' : A.isFinal 1 = true) {x y : Word} :
    A.Relates x y ↔ ∃ t ∈ ts, x = t.input.toWord ∧ y = t.output.toWord := by
  have hmaps : A.Relates x y ↔ ∃ l, A.system.Runs 0 x y l ∧ A.isFinal l = true := by
    rw [relates_iff_maps, ← hstart]
    rfl
  rw [hmaps]
  constructor
  · rintro ⟨l, hrun, hl⟩
    -- no transition leaves the second state, so there is no second step
    cases hrun with
    | nil =>
      rw [hfinal] at hl
      cases hl
    | @cons _ _ t x y ht hrun =>
      rw [harcs] at ht
      rw [htargets t ht] at hrun
      cases hrun with
      | nil => exact ⟨t, ht, List.append_nil _, List.append_nil _⟩
      | cons ht' _ =>
        rw [hlast] at ht'
        exact absurd ht' List.not_mem_nil
  · rintro ⟨t, ht, rfl, rfl⟩
    have hstep : A.system.Runs 0 t.input.toWord t.output.toWord t.target :=
      TransitionSystem.Runs.step (harcs ▸ ht)
    rw [htargets t ht] at hstep
    exact ⟨1, hstep, hfinal'⟩

/-- One transition relates what its labels spell. -/
theorem relates_pair_iff {input output : Label} {x y : Word} :
    (pair S input output).Relates x y ↔ x = input.toWord ∧ y = output.toWord := by
  rw [relates_of_two_states (A := pair S input output) [⟨input, output, 1⟩] rfl (by simp) rfl rfl
    rfl rfl]
  simp

/-- The automaton of Σ relates every letter to itself. -/
theorem relates_sigma_iff {x y : Word} :
    (sigma S).Relates x y ↔ x = y ∧ ∃ s, S.contains s = true ∧ x = [s] := by
  rw [relates_of_two_states (A := sigma S) (S.sigma.map fun s => .copying (.symbol s) 1) rfl
    (by simp [Arc.copying]) rfl rfl rfl rfl]
  simp only [List.mem_map, Alphabet.mem_sigma_iff]
  constructor
  · rintro ⟨_, ⟨s, hs, rfl⟩, rfl, rfl⟩
    exact ⟨rfl, s, hs, rfl⟩
  · rintro ⟨rfl, s, hs, rfl⟩
    exact ⟨_, ⟨s, hs, rfl⟩, rfl, rfl⟩

theorem relates_sigma_singleton {s : Symbol} (hs : S.contains s = true) :
    (sigma S).Relates [s] [s] := relates_sigma_iff.2 ⟨rfl, s, hs, rfl⟩

/-! ## Projection

A projection has the same paths, with the label of the chosen tape on both tapes. -/

/-- A projection keeps the transitions and copies one tape. -/
@[simp] theorem transitions_project (A : Automaton) (tape : Tape) (q : Nat) :
    (A.project tape).transitions q = (A.transitions q).map (·.project tape) := by
  rw [transitions, state, project, Array.getD_eq_getD_getElem?, Array.getElem?_map, transitions,
    state, Array.getD_eq_getD_getElem?]
  cases A.states[q]? <;> rfl

@[simp] theorem isFinal_project (A : Automaton) (tape : Tape) (q : Nat) :
    (A.project tape).isFinal q = A.isFinal q := by
  rw [isFinal, state, project, Array.getD_eq_getD_getElem?, Array.getElem?_map, isFinal,
    state, Array.getD_eq_getD_getElem?]
  cases A.states[q]? <;> rfl

/-- The paths of a projection are those of the automaton, projected. -/
theorem path_project_iff {tape : Tape} {p q : Nat} {ts : List Transition} :
    (A.project tape).Path p ts q
      ↔ ∃ us, A.Path p us q ∧ us.map (Arc.project · tape) = ts := by
  constructor
  · intro h
    -- both directions by induction on the path
    induction h with
    | nil q => exact ⟨[], .nil q, rfl⟩
    | cons ht _ ih =>
      obtain ⟨us, hus, rfl⟩ := ih
      rw [transitions_project] at ht
      obtain ⟨u, hu, rfl⟩ := List.mem_map.1 ht
      exact ⟨u :: us, .cons hu hus, rfl⟩
  · rintro ⟨us, hus, rfl⟩
    induction hus with
    | nil q => exact .nil q
    | cons hu _ ih =>
      refine .cons ?_ ih
      rw [transitions_project]
      exact List.mem_map_of_mem hu

/-- Both tapes of a projected path spell what the chosen tape did. -/
theorem spell_map_project (tape tape' : Tape) (ts : List Transition) :
    spell tape' (ts.map (Arc.project · tape)) = spell tape ts := by
  induction ts with
  | nil => rfl
  | cons t ts ih =>
    rw [List.map_cons, spell_cons, spell_cons, ih]
    cases tape' <;> rfl

/-- The output projection copies what some word is mapped to. -/
theorem relates_project_output_iff {x y : Word} :
    (A.project .output).Relates x y ↔ x = y ∧ ∃ w, A.Relates w x := by
  constructor
  · rintro ⟨_, ⟨q, hpath, hq⟩, rfl, rfl⟩
    obtain ⟨us, hus, rfl⟩ := path_project_iff.1 hpath
    rw [isFinal_project] at hq
    refine ⟨by rw [spell_map_project, spell_map_project], _, us, ⟨q, hus, hq⟩, rfl, ?_⟩
    rw [spell_map_project]
  · rintro ⟨rfl, w, us, ⟨q, hus, hq⟩, -, rfl⟩
    rw [← isFinal_project A .output] at hq
    exact ⟨_, ⟨q, path_project_iff.2 ⟨us, hus, rfl⟩, hq⟩, spell_map_project .output .input us,
      spell_map_project .output .output us⟩

/-! ## Tries

A trie is told from the access words of its states. Adding a word follows the states that are there,
and gives a new access word to each state that it adds. -/

/-- Every state has an access word of its own, and each but the start is entered from the state
whose word is one symbol shorter. -/
structure Trie (A : Automaton) (access : Nat → Word) : Prop where
  access_start : access A.start = []
  access_target : ∀ q, ∀ t ∈ A.transitions q, ∃ s,
    t.labels = (.symbol s, .symbol s) ∧ access t.target = access q ++ [s]
  injective : ∀ p q, p < A.size → q < A.size → access p = access q → p = q
  parent : ∀ q < A.size, q = A.start ∨ ∃ p, ∃ t ∈ A.transitions p, t.target = q

/-- A run in a trie adds what it reads to the access word. -/
theorem Trie.access_of_runs {access : Nat → Word} (h : A.Trie access) {p q : Nat} {x y : Word}
    (hrun : A.system.Runs p x y q) : x = y ∧ access q = access p ++ x := by
  induction hrun with
  | nil => exact ⟨rfl, (List.append_nil _).symm⟩
  | cons ht _ ih =>
    obtain ⟨s, hlabels, htarget⟩ := h.access_target _ _ ht
    obtain ⟨hinput, houtput⟩ := Prod.mk.inj hlabels
    rw [hinput, houtput, ih.2, ih.1, htarget, List.append_assoc]
    exact ⟨rfl, rfl⟩

/-- Every state is reached by its access word. -/
theorem Trie.runs_access {access : Nat → Word} (h : A.Trie access) {n q : Nat}
    (hn : (access q).length = n) (hq : q < A.size) :
    A.system.Runs A.start (access q) (access q) q := by
  -- by induction on the length of the access word, as the parent has a shorter one
  induction n generalizing q with
  | zero =>
    rw [List.length_eq_zero_iff] at hn
    have hstart : A.start = q := h.injective _ _ A.start_lt_size hq (h.access_start.trans hn.symm)
    rw [hn, hstart]
    exact .nil q
  | succ n ih =>
    rcases h.parent q hq with rfl | ⟨p, t, ht, rfl⟩
    · rw [h.access_start] at hn
      cases hn
    · obtain ⟨s, hlabels, htarget⟩ := h.access_target p t ht
      obtain ⟨hinput, houtput⟩ := Prod.mk.inj hlabels
      have hlength : (access p).length = n := by
        rw [htarget, List.length_append, List.length_singleton] at hn
        omega
      have hstep : A.system.Runs p t.input.toWord t.output.toWord t.target :=
        TransitionSystem.Runs.step ht
      rw [hinput, houtput] at hstep
      rw [htarget]
      exact (ih hlength (lt_size_of_mem_transitions ht)).append hstep

/-- What a trie copies can be read off its states. -/
theorem Trie.relates_iff {access : Nat → Word} (h : A.Trie access) {x y : Word} :
    A.Relates x y ↔ x = y ∧ ∃ q, A.isFinal q = true ∧ access q = x := by
  rw [relates_iff_maps]
  constructor
  · rintro ⟨q, hrun, hq⟩
    obtain ⟨rfl, haccess⟩ := h.access_of_runs hrun
    have haccess' : access q = access A.start ++ x := haccess
    rw [h.access_start, List.nil_append] at haccess'
    exact ⟨rfl, q, hq, haccess'⟩
  · rintro ⟨rfl, q, hq, rfl⟩
    exact ⟨q, h.runs_access rfl (lt_size_of_isFinal hq), hq⟩

/-! ### Accepting one more state -/

/-- One state becomes accepting, and the others stay as they are. -/
theorem state_acceptAt {q : Nat} (hq : q < A.size) (p : Nat) :
    (A.acceptAt q).state p = if p = q then { A.state q with accepting := true } else A.state p := by
  rw [state, acceptAt, modifyState, Array.getD_eq_getD_getElem?, Array.getElem?_modify]
  by_cases hpq : p = q
  · subst hpq
    rw [if_pos rfl, if_pos rfl, Array.getElem?_eq_getElem hq, state_eq_getElem hq]
    rfl
  · rw [if_neg (Ne.symm hpq), if_neg hpq, state, Array.getD_eq_getD_getElem?]

theorem transitions_acceptAt {q : Nat} (hq : q < A.size) (p : Nat) :
    (A.acceptAt q).transitions p = A.transitions p := by
  rw [transitions, state_acceptAt hq]
  split
  next hpq => rw [hpq]; rfl
  · rfl

theorem isFinal_acceptAt_iff {q : Nat} (hq : q < A.size) {p : Nat} :
    (A.acceptAt q).isFinal p = true ↔ p = q ∨ A.isFinal p = true := by
  rw [isFinal, state_acceptAt hq]
  split
  next hpq => simp [hpq]
  next hpq => simp [hpq, isFinal]

@[simp] theorem size_acceptAt (A : Automaton) (q : Nat) : (A.acceptAt q).size = A.size := by
  simp [size, acceptAt, modifyState]

/-- Accepting one more state keeps the shape of a trie. -/
theorem Trie.acceptAt {access : Nat → Word} (h : A.Trie access) {q : Nat} (hq : q < A.size) :
    (A.acceptAt q).Trie access := by
  constructor
  case access_start => exact h.access_start
  case access_target =>
    intro p t ht
    rw [transitions_acceptAt hq] at ht
    exact h.access_target p t ht
  case injective =>
    intro p r hp hr
    rw [size_acceptAt] at hp hr
    exact h.injective p r hp hr
  case parent =>
    intro p hp
    rw [size_acceptAt] at hp
    simp only [transitions_acceptAt hq]
    exact h.parent p hp

/-! ### Branching off -/

@[simp]
theorem size_branch (A : Automaton) (q : Nat) (s : Symbol) : (A.branch q s).size = A.size + 1 := by
  simp [size, branch, modifyState, addState]

/-- A new transition leads from one state to a new one. -/
theorem state_branch {q : Nat} (hq : q < A.size) (s : Symbol) (p : Nat) :
    (A.branch q s).state p
      = if p = q then (A.state q).addTransition (.copying (.symbol s) A.size) else A.state p := by
  have hpush : ∀ r, A.addState.state r = A.state r := by
    intro r
    rw [state, addState, Array.getD_eq_getD_getElem?, Array.getElem?_push, state,
      Array.getD_eq_getD_getElem?]
    split
    next hr =>
      rw [hr, Array.getElem?_eq_none (Nat.le_refl _)]
      rfl
    · rfl
  rw [← hpush p, ← hpush q, state, branch, modifyState, Array.getD_eq_getD_getElem?,
    Array.getElem?_modify]
  by_cases hpq : p = q
  · subst hpq
    have hlt : p < A.addState.states.size := by
      rw [addState, Array.size_push]
      exact Nat.lt_succ_of_lt hq
    rw [if_pos rfl, if_pos rfl, Array.getElem?_eq_getElem hlt, state_eq_getElem hlt]
    rfl
  · rw [if_neg (Ne.symm hpq), if_neg hpq, state, Array.getD_eq_getD_getElem?]

theorem mem_transitions_branch_iff {q : Nat} (hq : q < A.size) {s : Symbol} {p : Nat}
    {t : Transition} :
    t ∈ (A.branch q s).transitions p
      ↔ t ∈ A.transitions p ∨ (p = q ∧ t = .copying (.symbol s) A.size) := by
  rw [transitions, state_branch hq]
  split
  next hpq =>
    rw [hpq, State.addTransition, List.mem_append, List.mem_singleton]
    simp [transitions]
  next hpq => simp [hpq, transitions]

theorem isFinal_branch {q : Nat} (hq : q < A.size) (s : Symbol) (p : Nat) :
    (A.branch q s).isFinal p = A.isFinal p := by
  rw [isFinal, state_branch hq]
  split
  next hpq => rw [hpq]; rfl
  · rfl

/-- The access words after branching off. -/
def branchAccess (A : Automaton) (access : Nat → Word) (q : Nat) (s : Symbol) (p : Nat) : Word :=
  if p = A.size then access q ++ [s] else access p

theorem branchAccess_of_lt {access : Nat → Word} {q p : Nat} (hp : p < A.size) (s : Symbol) :
    A.branchAccess access q s p = access p := by
  rw [branchAccess, if_neg (by omega)]

/-- The new state is reached by one more letter. -/
theorem branchAccess_size (A : Automaton) (access : Nat → Word) (q : Nat) (s : Symbol) :
    A.branchAccess access q s A.size = access q ++ [s] := if_pos rfl

/-- The new access word was free, since no transition with the symbol left the state. -/
theorem Trie.access_ne {access : Nat → Word} (h : A.Trie access) {q r : Nat} {s : Symbol}
    (hq : q < A.size) (hr : r < A.size) (hs : ∀ t ∈ A.transitions q, t.input ≠ .symbol s) :
    access r ≠ access q ++ [s] := by
  intro haccess
  rcases h.parent r hr with rfl | ⟨p, t, ht, rfl⟩
  · rw [h.access_start] at haccess
    exact List.append_ne_nil_of_right_ne_nil _ (List.cons_ne_nil s []) haccess.symm
  · obtain ⟨s', hlabels, htarget⟩ := h.access_target p t ht
    rw [htarget] at haccess
    obtain ⟨hpq, hss⟩ := List.append_inj' haccess rfl
    have hsame := h.injective p q (lt_size_of_mem_transitions ht) hq hpq
    have hinput : t.input = .symbol s := by
      rw [← (List.cons.inj hss).1]
      exact (Prod.mk.inj hlabels).1
    exact hs t (hsame ▸ ht) hinput

/-- Branching off at a letter that has no transition yet keeps the shape of a trie. -/
theorem Trie.branch {access : Nat → Word} (h : A.Trie access) {q : Nat} (hq : q < A.size)
    {s : Symbol} (hs : ∀ t ∈ A.transitions q, t.input ≠ .symbol s) :
    (A.branch q s).Trie (A.branchAccess access q s) := by
  have hold : ∀ p < A.size, A.branchAccess access q s p = access p := fun p hp =>
    branchAccess_of_lt hp s
  constructor
  case access_start => exact (hold _ A.start_lt_size).trans h.access_start
  case access_target =>
    intro p t ht
    rcases (mem_transitions_branch_iff hq).1 ht with ht | ⟨rfl, rfl⟩
    · obtain ⟨s', hlabels, htarget⟩ := h.access_target p t ht
      rw [hold _ (target_lt_size ht), hold _ (lt_size_of_mem_transitions ht)]
      exact ⟨s', hlabels, htarget⟩
    · rw [hold p hq]
      exact ⟨s, rfl, branchAccess_size A access p s⟩
  case injective =>
    intro p r hp hr hpr
    rw [size_branch] at hp hr
    -- no old state has the new word, or there would be a transition to it already
    have hne : ∀ r < A.size, A.branchAccess access q s r ≠ A.branchAccess access q s A.size := by
      intro r hr
      rw [hold r hr, branchAccess_size]
      exact h.access_ne hq hr hs
    rcases Nat.lt_succ_iff_lt_or_eq.1 hp with hp | rfl <;>
      rcases Nat.lt_succ_iff_lt_or_eq.1 hr with hr | rfl
    · rw [hold p hp, hold r hr] at hpr
      exact h.injective p r hp hr hpr
    · exact absurd hpr (hne p hp)
    · exact absurd hpr.symm (hne r hr)
    · rfl
  case parent =>
    intro p hp
    rw [size_branch] at hp
    rcases Nat.lt_succ_iff_lt_or_eq.1 hp with hp | rfl
    · rcases h.parent p hp with hstart | ⟨r, t, ht, htarget⟩
      · exact .inl hstart
      · exact .inr ⟨r, t, (mem_transitions_branch_iff hq).2 (.inl ht), htarget⟩
    · exact .inr ⟨q, _, (mem_transitions_branch_iff hq).2 (.inr ⟨rfl, rfl⟩), rfl⟩

/-! ### Words -/

/-- Adding a word follows a transition or branches off, one symbol at a time, and then makes the
state accepting that it has come to. `P B r u` is to hold on the way, when `B` has been made and the
rest `u` of the word is to be added below `r`. -/
theorem addWord_induction {P : Automaton → Nat → Word → Prop} {Q : Automaton → Prop}
    (follow : ∀ B r s u, ∀ t ∈ B.transitions r, t.input = .symbol s → P B r (s :: u) →
      P B t.target u)
    (branch : ∀ B r s u, r < B.size → (∀ t ∈ B.transitions r, t.input ≠ .symbol s) →
      P B r (s :: u) → P (B.branch r s) B.size u)
    (accept : ∀ B r, r < B.size → P B r [] → Q (B.acceptAt r))
    {q : Nat} (hq : q < A.size) {w : Word} (h : P A q w) : Q (A.addWord q w) := by
  -- by induction on the rest of the word: the automaton grows as it gets shorter
  induction w generalizing A q with
  | nil => exact accept A q hq h
  | cons s w ih =>
    unfold addWord
    cases hfind : (A.transitions q).find? (·.input == .symbol s) with
    | some t =>
      have ht := List.mem_of_find?_eq_some hfind
      have hinput := List.find?_some hfind
      exact ih (target_lt_size ht) (follow A q s w t ht (eq_of_beq hinput) h)
    | none =>
      have hfree : ∀ t ∈ A.transitions q, t.input ≠ .symbol s := by
        intro t ht hinput
        have hne := List.find?_eq_none.1 hfind t ht
        exact hne (beq_iff_eq.2 hinput)
      have hnew : A.size < (A.branch q s).size := by
        rw [size_branch]
        omega
      exact ih hnew (branch A q s w hq hfree h)

/-- What adding a word keeps holds of every trie. -/
theorem words_induction {P : Automaton → Prop} {ws : List Word} (hempty : P (empty S))
    (haddWord : ∀ A, P A → ∀ w ∈ ws, P (A.addWord A.start w)) : P (words S ws) :=
  List.foldlRecOn ws _ hempty haddWord

/-- Accepting one more state adds its access word. -/
theorem Trie.exists_final_acceptAt_iff {access : Nat → Word} {q : Nat} (hq : q < A.size)
    {v : Word} :
    (∃ r, (A.acceptAt q).isFinal r = true ∧ access r = v)
      ↔ v = access q ∨ ∃ r, A.isFinal r = true ∧ access r = v := by
  constructor
  · rintro ⟨r, hr, rfl⟩
    rcases (isFinal_acceptAt_iff hq).1 hr with rfl | hr
    · exact .inl rfl
    · exact .inr ⟨r, hr, rfl⟩
  · rintro (rfl | ⟨r, hr, rfl⟩)
    · exact ⟨q, (isFinal_acceptAt_iff hq).2 (.inl rfl), rfl⟩
    · exact ⟨r, (isFinal_acceptAt_iff hq).2 (.inr hr), rfl⟩

/-- A branch alone adds no word. -/
theorem Trie.exists_final_branch_iff {access : Nat → Word} {q : Nat} (hq : q < A.size)
    {s : Symbol} {v : Word} :
    (∃ r, (A.branch q s).isFinal r = true ∧ A.branchAccess access q s r = v)
      ↔ ∃ r, A.isFinal r = true ∧ access r = v := by
  refine exists_congr fun r => ?_
  rw [isFinal_branch hq]
  refine and_congr_right fun hr => ?_
  rw [branchAccess_of_lt (lt_size_of_isFinal hr)]

/-- On the way from `A` along a word: `B` is a trie that accepts what `A` accepts, and the whole
word is the access word of the state `r` with the rest `u`. -/
def Trie.Along (A : Automaton) (access : Nat → Word) (whole : Word) (B : Automaton) (r : Nat)
    (u : Word) : Prop :=
  ∃ access', B.Trie access' ∧ access' r ++ u = whole ∧ ∀ v,
    (∃ p, B.isFinal p = true ∧ access' p = v) ↔ ∃ p, A.isFinal p = true ∧ access p = v

/-- A letter that has a transition is followed to its target. -/
theorem Trie.Along.follow {access : Nat → Word} {whole u : Word} {B : Automaton} {r : Nat}
    {s : Symbol} (h : Along A access whole B r (s :: u)) {t : Transition}
    (ht : t ∈ B.transitions r) (hinput : t.input = .symbol s) :
    Along A access whole B t.target u := by
  obtain ⟨access', htrie, hword, hfinal⟩ := h
  obtain ⟨s', hlabels, htarget⟩ := htrie.access_target r t ht
  have hs : s' = s := Label.symbol.inj ((Prod.mk.inj hlabels).1.symm.trans hinput)
  refine ⟨access', htrie, ?_, hfinal⟩
  rw [htarget, hs, List.append_assoc]
  exact hword

/-- A letter that has none branches off to the new state. -/
theorem Trie.Along.branch {access : Nat → Word} {whole u : Word} {B : Automaton} {r : Nat}
    {s : Symbol} (h : Along A access whole B r (s :: u)) (hr : r < B.size)
    (hfree : ∀ t ∈ B.transitions r, t.input ≠ .symbol s) :
    Along A access whole (B.branch r s) B.size u := by
  obtain ⟨access', htrie, hword, hfinal⟩ := h
  refine ⟨_, htrie.branch hr hfree, ?_, fun v => ?_⟩
  · rw [branchAccess_size, List.append_assoc]
    exact hword
  · rw [Trie.exists_final_branch_iff hr, hfinal v]

/-- Adding a word below a state adds the word that begins with the access word of the state. -/
theorem Trie.addWord {access : Nat → Word} (h : A.Trie access) {q : Nat} (hq : q < A.size)
    (w : Word) :
    ∃ access', (A.addWord q w).Trie access' ∧ ∀ v,
      (∃ r, (A.addWord q w).isFinal r = true ∧ access' r = v)
        ↔ v = access q ++ w ∨ ∃ r, A.isFinal r = true ∧ access r = v := by
  refine addWord_induction (P := Trie.Along A access (access q ++ w))
    (Q := fun C => ∃ access', C.Trie access' ∧ ∀ v,
      (∃ r, C.isFinal r = true ∧ access' r = v)
        ↔ v = access q ++ w ∨ ∃ r, A.isFinal r = true ∧ access r = v)
    ?follow ?branch ?accept hq ⟨access, h, rfl, fun _ => Iff.rfl⟩
  case follow =>
    intro B r s u t ht hinput hB
    exact hB.follow ht hinput
  case branch =>
    intro B r s u hr hfree hB
    exact hB.branch hr hfree
  case accept =>
    intro B r hr ⟨access', htrie, hword, hfinal⟩
    refine ⟨access', htrie.acceptAt hr, fun v => ?_⟩
    rw [Trie.exists_final_acceptAt_iff hr, hfinal v, ← hword, List.append_nil]

theorem trie_empty (S : Alphabet) : (empty S).Trie fun _ => [] := by
  have hsize : (empty S).size = 1 := rfl
  refine ⟨rfl, fun q t ht => ?_, fun p q hp hq _ => by omega, fun q hq => .inl ?_⟩
  · rw [transitions_empty] at ht
    exact absurd ht List.not_mem_nil
  · show q = 0
    omega

/-- Adding words from the start adds these words. -/
theorem Trie.foldl_addWord {access : Nat → Word} (h : A.Trie access) (ws : List Word) :
    ∃ access', (ws.foldl (fun A w => A.addWord A.start w) A).Trie access' ∧ ∀ v,
      (∃ r, (ws.foldl (fun A w => A.addWord A.start w) A).isFinal r = true ∧ access' r = v)
        ↔ v ∈ ws ∨ ∃ r, A.isFinal r = true ∧ access r = v := by
  induction ws generalizing A access with
  | nil => exact ⟨access, h, fun v => by simp⟩
  | cons w ws ih =>
    obtain ⟨access₁, h₁, hfinal₁⟩ := h.addWord A.start_lt_size w
    obtain ⟨access₂, h₂, hfinal₂⟩ := ih h₁
    refine ⟨access₂, h₂, fun v => ?_⟩
    rw [List.foldl_cons, hfinal₂ v, hfinal₁ v, h.access_start, List.nil_append, List.mem_cons]
    tauto

/-- Words added one after the other to the empty automaton give a trie that holds just them. -/
theorem trie_words (S : Alphabet) (ws : List Word) :
    ∃ access, (words S ws).Trie access
      ∧ ∀ v, (∃ r, (words S ws).isFinal r = true ∧ access r = v) ↔ v ∈ ws := by
  obtain ⟨access, htrie, hfinal⟩ := (trie_empty S).foldl_addWord ws
  refine ⟨access, htrie, fun v => (hfinal v).trans (or_iff_left ?_)⟩
  -- the only state of the trie of no words does not accept
  rintro ⟨r, hr, -⟩
  have hr0 : r = 0 := Nat.lt_one_iff.1 (lt_size_of_isFinal hr)
  subst hr0
  cases hr

/-- A trie copies exactly its words. -/
theorem relates_words_iff {S : Alphabet} {ws : List Word} {x y : Word} :
    (words S ws).Relates x y ↔ x = y ∧ x ∈ ws := by
  obtain ⟨access, htrie, hfinal⟩ := trie_words S ws
  rw [htrie.relates_iff, hfinal]

/-- The automaton of a list of words accepts them and no others. -/
theorem accepts_words_iff {S : Alphabet} {ws : List Word} {w : Word} :
    (words S ws).accepts w = true ↔ w ∈ ws :=
  accepts_iff_of_copies fun _ _ => relates_words_iff

/-- The automaton of one word relates it to itself. -/
theorem relates_word_iff {S : Alphabet} {w x y : Word} :
    (word S w).Relates x y ↔ x = y ∧ x = w := by
  rw [word, relates_words_iff, List.mem_singleton]

theorem alphabet_addWord {q : Nat} (hq : q < A.size) (w : Word) :
    (A.addWord q w).alphabet = A.alphabet := by
  refine addWord_induction (P := fun B _ _ => B.alphabet = A.alphabet)
    (Q := fun B => B.alphabet = A.alphabet) ?follow ?branch ?accept hq rfl
  case follow => exact fun _ _ _ _ _ _ _ hB => hB
  case branch => exact fun _ _ _ _ _ _ hB => hB
  case accept => exact fun _ _ _ hB => hB

@[simp] theorem alphabet_words (S : Alphabet) (ws : List Word) : (words S ws).alphabet = S := by
  refine words_induction (P := fun A => A.alphabet = S) rfl fun A hA w _ => ?_
  exact (alphabet_addWord A.start_lt_size w).trans hA

end Automaton

end FiniteState
