import FiniteState.Automaton.Path
import FiniteState.TransitionSystem
import FiniteState.Proofs.Search

/-!
# Traces

A trace of a transition system is the list of the labels along some arcs, silent ones included. All
constructions are compared by the traces that lead from the start to an accepting key: which pairs
of labels an automaton has, and which words it relates, depends on these traces only.

* `hasLabels_iff_carries`, `relates_iff_carries`: pair language and relation from traces.
* `carries_tabulate_iff`: a tabulated system has the traces of the system, if every key on the way
  to an accepting one is numbered.
* `carries_explore_iff`: so has an explored one.
-/

namespace FiniteState

/-- The labels of an arc. -/
def Arc.labels {κ : Type} (a : Arc κ) : Label × Label := (a.input, a.output)

/-! ## Lists of labels -/

/-- The labels but for silent ones. -/
def audible (ls : List (Label × Label)) : List (Label × Label) :=
  ls.filter fun l => !(l.1.isEpsilon && l.2.isEpsilon)

/-- The label of a pair on a tape. -/
def Tape.side (l : Label × Label) : Tape → Label
  | .input => l.1
  | .output => l.2

/-- The word that labels spell on a tape. -/
def spellLabels (tape : Tape) (ls : List (Label × Label)) : Word :=
  ls.flatMap fun l => (tape.side l).toWord

@[simp] theorem spellLabels_cons (tape : Tape) (l : Label × Label) (ls : List (Label × Label)) :
    spellLabels tape (l :: ls) = (tape.side l).toWord ++ spellLabels tape ls := rfl

theorem Label.toWord_of_isEpsilon {l : Label} (h : l.isEpsilon = true) : l.toWord = [] := by
  cases l with
  | epsilon => rfl
  | symbol s => cases h

/-- What is heard of two lists is heard one after the other. -/
@[simp] theorem audible_append (ls ms : List (Label × Label)) :
    audible (ls ++ ms) = audible ls ++ audible ms :=
  List.filter_append ls ms

/-- Silent labels spell nothing, so leaving them out changes no word. -/
theorem spellLabels_audible (tape : Tape) (ls : List (Label × Label)) :
    spellLabels tape (audible ls) = spellLabels tape ls := by
  induction ls with
  | nil => rfl
  | cons l ls ih =>
    rw [audible, List.filter_cons]
    by_cases hl : (l.1.isEpsilon && l.2.isEpsilon) = true
    · have hsides := Bool.and_eq_true_iff.1 hl
      have hside : (tape.side l).toWord = [] := by
        cases tape with
        | input => exact Label.toWord_of_isEpsilon hsides.1
        | output => exact Label.toWord_of_isEpsilon hsides.2
      rw [if_neg (by simp [hl]), spellLabels_cons, hside, List.nil_append]
      exact ih
    · rw [if_pos (by rw [Bool.not_eq_true] at hl; rw [hl]; rfl), spellLabels_cons, spellLabels_cons]
      exact congrArg ((tape.side l).toWord ++ ·) ih

theorem spell_eq_spellLabels (tape : Tape) (ts : List Transition) :
    spell tape ts = spellLabels tape (ts.map Arc.labels) := by
  induction ts with
  | nil => rfl
  | cons t ts ih =>
    rw [spell_cons, List.map_cons, spellLabels_cons, ih]
    cases tape <;> rfl

/-- The label pairs of a path are the labels that are heard on it. -/
theorem labelPairs_eq_audible (ts : List Transition) :
    labelPairs ts = audible (ts.map Arc.labels) := by
  rw [labelPairs, audible, List.filter_map]
  rfl

namespace TransitionSystem

variable {κ : Type} {M : TransitionSystem κ}

/-- Arcs with the labels lead from the first key to the second one. -/
inductive Trace (M : TransitionSystem κ) : κ → List (Label × Label) → κ → Prop
  | nil (k : κ) : Trace M k [] k
  | cons {k l : κ} {a : Arc κ} {ls : List (Label × Label)} (ha : a ∈ M.arcs k)
      (h : Trace M a.target ls l) : Trace M k (a.labels :: ls) l

/-- Some trace with the labels leads from the key to an accepting one. -/
def AcceptsFrom (M : TransitionSystem κ) (k : κ) (ls : List (Label × Label)) : Prop :=
  ∃ l, M.Trace k ls l ∧ M.accepting l = true

@[simp] theorem trace_nil_iff {k l : κ} : M.Trace k [] l ↔ k = l :=
  ⟨fun h => by cases h; rfl, fun h => h ▸ .nil k⟩

theorem trace_cons_iff {k l : κ} {p : Label × Label} {ls : List (Label × Label)} :
    M.Trace k (p :: ls) l ↔ ∃ a ∈ M.arcs k, a.labels = p ∧ M.Trace a.target ls l := by
  constructor
  · intro h
    cases h with
    | cons ha h => exact ⟨_, ha, rfl, h⟩
  · rintro ⟨a, ha, rfl, h⟩
    exact .cons ha h

/-- A trace along two lists passes a state between them. -/
theorem trace_append_iff {k m : κ} {ls ms : List (Label × Label)} :
    M.Trace k (ls ++ ms) m ↔ ∃ l, M.Trace k ls l ∧ M.Trace l ms m := by
  induction ls generalizing k with
  | nil => simp [trace_nil_iff]
  | cons p ls ih =>
    rw [List.cons_append, trace_cons_iff]
    constructor
    · rintro ⟨a, ha, hp, h⟩
      obtain ⟨l, hl, hm⟩ := ih.1 h
      exact ⟨l, trace_cons_iff.2 ⟨a, ha, hp, hl⟩, hm⟩
    · rintro ⟨l, hl, hm⟩
      obtain ⟨a, ha, hp, h⟩ := trace_cons_iff.1 hl
      exact ⟨a, ha, hp, ih.2 ⟨l, h, hm⟩⟩

theorem Trace.append {k l m : κ} {ls ms : List (Label × Label)} (h : M.Trace k ls l)
    (h' : M.Trace l ms m) : M.Trace k (ls ++ ms) m :=
  trace_append_iff.2 ⟨l, h, h'⟩

theorem Trace.snoc {k l : κ} {ls : List (Label × Label)} (h : M.Trace k ls l) {a : Arc κ}
    (ha : a ∈ M.arcs l) : M.Trace k (ls ++ [a.labels]) a.target :=
  h.append (.cons ha (.nil _))

theorem Trace.mono {N : TransitionSystem κ} (hMN : ∀ k, ∀ a ∈ M.arcs k, a ∈ N.arcs k) {k l : κ}
    {ls : List (Label × Label)} (h : M.Trace k ls l) : N.Trace k ls l := by
  induction h with
  | nil k => exact .nil k
  | cons ha _ ih => exact .cons (hMN _ _ ha) ih

@[simp] theorem acceptsFrom_nil_iff {k : κ} : M.AcceptsFrom k [] ↔ M.accepting k = true := by
  simp [AcceptsFrom, trace_nil_iff]

theorem acceptsFrom_cons_iff {k : κ} {p : Label × Label} {ls : List (Label × Label)} :
    M.AcceptsFrom k (p :: ls) ↔ ∃ a ∈ M.arcs k, a.labels = p ∧ M.AcceptsFrom a.target ls := by
  constructor
  · rintro ⟨l, h, hl⟩
    obtain ⟨a, ha, hp, h⟩ := trace_cons_iff.1 h
    exact ⟨a, ha, hp, l, h, hl⟩
  · rintro ⟨a, ha, hp, l, h, hl⟩
    exact ⟨l, trace_cons_iff.2 ⟨a, ha, hp, h⟩, hl⟩

/-- The keys that the exploration of a system looks for are those at the end of traces. -/
theorem reaches_iff_trace {starts : List κ} {l : κ} :
    Reaches (fun k => (M.arcs k).map (·.target)) starts l ↔ ∃ k ∈ starts, ∃ ls, M.Trace k ls l := by
  constructor
  · intro h
    induction h with
    | start h => exact ⟨_, h, [], .nil _⟩
    | step _ h' ih =>
      obtain ⟨k, hk, ls, hls⟩ := ih
      obtain ⟨a, ha, rfl⟩ := List.mem_map.1 h'
      exact ⟨k, hk, _, hls.snoc ha⟩
  · rintro ⟨k, hk, ls, h⟩
    have hstart : Reaches (fun k => (M.arcs k).map (·.target)) starts k := .start hk
    clear hk
    induction h with
    | nil => exact hstart
    | cons ha _ ih => exact ih (.step hstart (List.mem_map.2 ⟨_, ha, rfl⟩))

end TransitionSystem

/-! ## Automata

The system of an automaton has the same traces as its paths. -/

namespace Automaton

variable {A B : Automaton}

/-- A trace of an automaton is a path seen from its labels. -/
theorem trace_iff_path {p q : Nat} {ls : List (Label × Label)} :
    A.system.Trace p ls q ↔ ∃ ts, A.Path p ts q ∧ ts.map Arc.labels = ls := by
  constructor
  · intro h
    induction h with
    | nil k => exact ⟨[], .nil k, rfl⟩
    | cons ha _ ih =>
      obtain ⟨ts, hts, rfl⟩ := ih
      exact ⟨_ :: ts, .cons ha hts, rfl⟩
  · rintro ⟨ts, hts, rfl⟩
    induction hts with
    | nil q => exact .nil q
    | cons ht _ ih => exact .cons ht ih

/-- Some accepting path has exactly these labels, silent ones included. -/
def Carries (A : Automaton) (ls : List (Label × Label)) : Prop := A.system.AcceptsFrom A.start ls

/-- An automaton carries the labels of its accepting paths. -/
theorem carries_iff_path {ls : List (Label × Label)} :
    A.Carries ls ↔ ∃ ts, A.AcceptingPath ts ∧ ts.map Arc.labels = ls := by
  constructor
  · rintro ⟨q, h, hq⟩
    obtain ⟨ts, hts, hls⟩ := trace_iff_path.1 h
    exact ⟨ts, ⟨q, hts, hq⟩, hls⟩
  · rintro ⟨ts, ⟨q, hts, hq⟩, hls⟩
    exact ⟨q, trace_iff_path.2 ⟨ts, hts, hls⟩, hq⟩

/-- The label pairs of an automaton are what is heard of the labels it carries. -/
theorem hasLabels_iff_carries {ls : List (Label × Label)} :
    A.HasLabels ls ↔ ∃ raw, A.Carries raw ∧ audible raw = ls := by
  simp only [HasLabels, carries_iff_path, labelPairs_eq_audible]
  constructor
  · rintro ⟨ts, hts, h⟩
    exact ⟨_, ⟨ts, hts, rfl⟩, h⟩
  · rintro ⟨_, ⟨ts, hts, rfl⟩, h⟩
    exact ⟨ts, hts, h⟩

/-- The words that an automaton relates are spelled by labels that it carries. -/
theorem relates_iff_carries {x y : Word} :
    A.Relates x y
      ↔ ∃ raw, A.Carries raw ∧ spellLabels .input raw = x ∧ spellLabels .output raw = y := by
  simp only [Relates, carries_iff_path, spell_eq_spellLabels]
  constructor
  · rintro ⟨ts, hts, h⟩
    exact ⟨_, ⟨ts, hts, rfl⟩, h⟩
  · rintro ⟨_, ⟨ts, hts, rfl⟩, h⟩
    exact ⟨ts, hts, h⟩

/-- The related words are spelled by label pairs as well, since silent labels add nothing. -/
theorem relates_iff_hasLabels {x y : Word} :
    A.Relates x y
      ↔ ∃ ls, A.HasLabels ls ∧ spellLabels .input ls = x ∧ spellLabels .output ls = y := by
  simp only [relates_iff_carries, hasLabels_iff_carries]
  constructor
  · rintro ⟨raw, hraw, hx, hy⟩
    exact ⟨_, ⟨raw, hraw, rfl⟩, by rwa [spellLabels_audible], by rwa [spellLabels_audible]⟩
  · rintro ⟨_, ⟨raw, hraw, rfl⟩, hx, hy⟩
    exact ⟨raw, hraw, by rwa [spellLabels_audible] at hx, by rwa [spellLabels_audible] at hy⟩

/-- Automata with the same pair language define the same relation. -/
theorem relates_congr (h : ∀ ls, A.HasLabels ls ↔ B.HasLabels ls) (x y : Word) :
    A.Relates x y ↔ B.Relates x y := by
  simp only [relates_iff_hasLabels, h]

theorem start_lt_size (A : Automaton) : A.start < A.size := A.start_lt

/-- The numbers of the states are those below the size. -/
@[simp] theorem mem_stateNumbers {q : Nat} : q ∈ A.stateNumbers ↔ q < A.size := by
  rw [stateNumbers, List.mem_range]

@[simp] theorem length_stateNumbers : A.stateNumbers.length = A.size := by
  rw [stateNumbers, List.length_range]

theorem trace_lt_size {p q : Nat} {ls : List (Label × Label)} (h : A.system.Trace p ls q)
    (hp : p < A.size) : q < A.size := by
  obtain ⟨ts, hts, -⟩ := trace_iff_path.1 h
  exact hts.lt_size hp

theorem state_eq_getElem {q : Nat} (h : q < A.states.size) : A.state q = A.states[q] := by
  rw [state, Array.getD_eq_getD_getElem?, Array.getElem?_eq_getElem h, Option.getD_some]

/-- Beyond the size there is a state without transitions. -/
theorem state_of_size_le {q : Nat} (h : A.states.size ≤ q) : A.state q = {} := by
  rw [state, Array.getD_eq_getD_getElem?, Array.getElem?_eq_none h, Option.getD_none]

theorem lt_size_of_isFinal {q : Nat} (h : A.isFinal q = true) : q < A.size := by
  by_contra hq
  rw [isFinal, state_of_size_le (by rw [size] at hq; omega)] at h
  cases h

theorem lt_size_of_mem_transitions {q : Nat} {t : Transition} (h : t ∈ A.transitions q) :
    q < A.size := by
  by_contra hq
  rw [transitions, state_of_size_le (by rw [size] at hq; omega)] at h
  cases h

end Automaton

/-! ## Tabulation

The states of a tabulated system stand for the numbered keys. Arcs to keys without a number are left
out, so a trace survives if all keys along it are numbered. -/

namespace TransitionSystem

variable {κ : Type} [Ord κ] {M : TransitionSystem κ} {S : Alphabet} {m : Numbering κ}
  {h : M.start ∈ m}

/-- The state with a key's number is the key's row. -/
theorem state_tabulate {i : Nat} {k : κ} (hk : m.toList[i]? = some k) :
    (M.tabulate S m h).state i = M.row m k := by
  rw [Numbering.toList, Array.getElem?_toList] at hk
  rw [Automaton.state, tabulate, Array.getD_eq_getD_getElem?, Array.getElem?_map, hk,
    Option.map_some, Option.getD_some]

theorem isFinal_tabulate {i : Nat} {k : κ} (hk : m.toList[i]? = some k) :
    (M.tabulate S m h).isFinal i = M.accepting k := by
  rw [Automaton.isFinal, state_tabulate hk, row]

/-- The transitions of a tabulated key are its arcs whose targets have numbers. -/
theorem mem_transitions_tabulate {i : Nat} {k : κ} (hk : m.toList[i]? = some k) {t : Transition} :
    t ∈ (M.tabulate S m h).transitions i
      ↔ ∃ a ∈ M.arcs k, a.labels = t.labels ∧ m.toList[t.target]? = some a.target := by
  rw [Automaton.transitions, state_tabulate hk, row]
  simp only [List.mem_filterMap, Option.map_eq_some_iff, Numbering.number?_eq_some_iff_getElem?]
  constructor
  · rintro ⟨a, ha, j, hj, rfl⟩
    exact ⟨a, ha, rfl, hj⟩
  · rintro ⟨a, ha, hlabels, ht⟩
    refine ⟨a, ha, t.target, ht, ?_⟩
    obtain ⟨hin, hout⟩ := Prod.mk.inj hlabels
    cases t
    simp_all [Arc.withTarget]

@[simp] theorem size_tabulate : (M.tabulate S m h).size = m.size := by
  rw [Automaton.size, tabulate, Array.size_map, Numbering.size]

/-- A transition of a tabulated system stands for an arc between the keys of its ends. -/
theorem exists_arc_of_mem_tabulate {i : Nat} {t : Transition}
    (ht : t ∈ (M.tabulate S m h).transitions i) :
    ∃ k, m.toList[i]? = some k ∧ ∃ a ∈ M.arcs k, a.labels = t.labels
      ∧ m.toList[t.target]? = some a.target := by
  cases hk : m.toList[i]? with
  | some k => exact ⟨k, rfl, (mem_transitions_tabulate hk).1 ht⟩
  | none =>
    -- a number without a key has no transitions
    have hi := Automaton.lt_size_of_mem_transitions ht
    rw [List.getElem?_eq_none_iff, Numbering.length_toList, ← size_tabulate (M := M) (S := S)
      (h := h)] at hk
    omega

/-- The start has the number of the start's key. -/
theorem getElem?_start_tabulate : m.toList[(M.tabulate S m h).start]? = some M.start :=
  Numbering.number?_eq_some_iff_getElem?.1 (Option.some_get h).symm

/-- A trace between numbers is a trace between their keys. -/
theorem trace_of_tabulate {i j : Nat} {ls : List (Label × Label)}
    (htrace : (M.tabulate S m h).system.Trace i ls j) {k : κ} (hk : m.toList[i]? = some k) :
    ∃ l, m.toList[j]? = some l ∧ M.Trace k ls l := by
  induction htrace generalizing k with
  | nil => exact ⟨k, hk, .nil k⟩
  | cons ht _ ih =>
    obtain ⟨a, ha, hlabels, htarget⟩ := (mem_transitions_tabulate hk).1 ht
    obtain ⟨l, hl, htrace⟩ := ih htarget
    exact ⟨l, hl, hlabels ▸ .cons ha htrace⟩

/-- A trace whose keys are all numbered is a trace between their numbers. -/
theorem Trace.tabulate {k l : κ} {ls : List (Label × Label)} (htrace : M.Trace k ls l)
    (hkeys : ∀ us vs k', ls = us ++ vs → M.Trace k us k' → M.Trace k' vs l → k' ∈ m)
    {i : Nat} (hk : m.toList[i]? = some k) :
    ∃ j, m.toList[j]? = some l ∧ (M.tabulate S m h).system.Trace i ls j := by
  induction htrace generalizing i with
  | nil k => exact ⟨i, hk, .nil i⟩
  | @cons k l a ls ha htrace ih =>
    have htarget : a.target ∈ m := hkeys [a.labels] ls _ rfl (.cons ha (.nil _)) htrace
    obtain ⟨j, hj⟩ := Numbering.mem_iff_exists_number.1 htarget
    rw [Numbering.number?_eq_some_iff_getElem?] at hj
    have hkeys' : ∀ us vs k', ls = us ++ vs → M.Trace a.target us k' → M.Trace k' vs l →
        k' ∈ m := by
      intro us vs k' hls hus hvs
      exact hkeys (a.labels :: us) vs k' (by rw [hls, List.cons_append]) (.cons ha hus) hvs
    obtain ⟨j', hj', htrace'⟩ := ih hkeys' hj
    have ht : a.withTarget j ∈ (M.tabulate S m h).system.arcs i :=
      (mem_transitions_tabulate hk).2 ⟨a, ha, rfl, hj⟩
    exact ⟨j', hj', .cons ht htrace'⟩

/-- If all keys on accepted traces are numbered, tabulation keeps what is carried. -/
theorem carries_tabulate_iff
    (hkeys : ∀ us vs k, M.Trace M.start us k → M.AcceptsFrom k vs → k ∈ m)
    {ls : List (Label × Label)} :
    (M.tabulate S m h).Carries ls ↔ M.AcceptsFrom M.start ls := by
  constructor
  · rintro ⟨j, htrace, hj⟩
    obtain ⟨l, hl, htrace⟩ := trace_of_tabulate htrace getElem?_start_tabulate
    exact ⟨l, htrace, by rw [← isFinal_tabulate hl]; exact hj⟩
  · rintro ⟨l, htrace, hl⟩
    obtain ⟨j, hj, htrace'⟩ := htrace.tabulate (S := S) (h := h)
      (fun us vs k' _ hus hvs => hkeys us vs k' hus ⟨l, hvs, hl⟩) getElem?_start_tabulate
    exact ⟨j, htrace', (isFinal_tabulate hj).trans hl⟩

/-! ## Exploration -/

variable [Std.TransOrd κ] [Std.LawfulEqOrd κ] {operation : Operation} {A : Automaton}

/-- The search finds what some trace leads to. -/
theorem mem_search_iff {limit : Nat} (hover : (M.search limit).overflow = false) {k : κ} :
    k ∈ (M.search limit).found ↔ ∃ ls, M.Trace M.start ls k := by
  rw [search, Search.mem_run_iff hover, reaches_iff_trace]
  simp

/-- A successful exploration is the tabulation of all keys that can be reached. -/
theorem explore_eq_ok (hA : M.explore S operation = .ok A) :
    ∃ h, (M.search S.stateLimit).overflow = false
      ∧ A = M.tabulate S (M.search S.stateLimit).found h := by
  unfold explore at hA
  simp only at hA
  split at hA
  next hfound =>
    cases hA
    exact ⟨hfound.2, hfound.1, rfl⟩
  · cases hA

/-- The labels of an explored automaton are those of arcs. -/
theorem exists_arc_of_mem_explore (hA : M.explore S operation = .ok A) {i : Nat} {t : Transition}
    (ht : t ∈ A.transitions i) : ∃ k, ∃ a ∈ M.arcs k, a.labels = t.labels := by
  obtain ⟨h, -, rfl⟩ := explore_eq_ok hA
  obtain ⟨k, -, a, ha, hlabels, -⟩ := exists_arc_of_mem_tabulate ht
  exact ⟨k, a, ha, hlabels⟩

/-- Exploration fails for lack of room only. -/
theorem explore_eq_error {e : Error} (he : M.explore S operation = .error e) :
    e = .stateExplosion operation S.stateLimit := by
  unfold explore at he
  simp only at he
  split at he
  · cases he
  · exact (Except.error.inj he).symm

/-- An explored automaton carries what the system accepts. -/
theorem carries_explore_iff (hA : M.explore S operation = .ok A) {ls : List (Label × Label)} :
    A.Carries ls ↔ M.AcceptsFrom M.start ls := by
  obtain ⟨h, hover, rfl⟩ := explore_eq_ok hA
  exact carries_tabulate_iff fun us _ k hus _ => (mem_search_iff hover).2 ⟨us, hus⟩

/-- An explored automaton is over the given alphabet. -/
@[grind →] theorem alphabet_explore (hA : M.explore S operation = .ok A) : A.alphabet = S := by
  obtain ⟨h, -, rfl⟩ := explore_eq_ok hA
  rfl

end TransitionSystem

end FiniteState
