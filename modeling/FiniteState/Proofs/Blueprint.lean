import FiniteState.Automaton.Blueprint
import FiniteState.Proofs.Canonical
import FiniteState.Proofs.Run

/-!
# What a blueprint builds

The built states are described one at a time: a state accepts if it is listed as accepting, and its
transitions are the arcs of its own links in the order of the links (`getElem?_statesOfLinks`). An
automaton is therefore built by any blueprint that lists its links grouped by their sources, in
whatever order the groups come, as long as its last state is mentioned (`build_eq_ok`).
-/

namespace FiniteState.Blueprint

open Automaton

variable {count : Nat} {accepting : List Nat} {links : List Link}

/-! ## States of links

Links are added one at a time, in any order of their sources. In the end a state has the links that
leave it, in their order. -/

/-- The arcs of the links that leave a state. -/
def arcsFrom (links : List Link) (q : Nat) : List Transition :=
  (links.filter (·.source == q)).map Link.arc

theorem arcsFrom_cons_self (l : Link) (links : List Link) :
    arcsFrom (l :: links) l.source = l.arc :: arcsFrom links l.source := by
  rw [arcsFrom, List.filter_cons_of_pos (by simp), List.map_cons, arcsFrom]

theorem arcsFrom_cons_of_ne {l : Link} {q : Nat} (h : l.source ≠ q) (links : List Link) :
    arcsFrom (l :: links) q = arcsFrom links q := by
  rw [arcsFrom, List.filter_cons_of_neg (by simpa using h), arcsFrom]

/-- Links of two lists give the arcs of the one before those of the other. -/
theorem arcsFrom_append (links links' : List Link) (q : Nat) :
    arcsFrom (links ++ links') q = arcsFrom links q ++ arcsFrom links' q := by
  rw [arcsFrom, List.filter_append, List.map_append, arcsFrom, arcsFrom]

theorem arcsFrom_eq_nil {q : Nat} (h : ∀ l ∈ links, l.source ≠ q) : arcsFrom links q = [] := by
  rw [arcsFrom, List.map_eq_nil_iff, List.filter_eq_nil_iff]
  exact fun l hl => by simpa using h l hl

/-- Links made from the transitions of one state give them back. -/
theorem arcsFrom_map_mk (ts : List Transition) (q : Nat) :
    arcsFrom (ts.map (Link.mk q)) q = ts := by
  have hall : (ts.map (Link.mk q)).filter (·.source == q) = ts.map (Link.mk q) :=
    List.filter_eq_self.2 fun l hl => by
      obtain ⟨t, -, rfl⟩ := List.mem_map.1 hl
      exact beq_self_eq_true q
  rw [arcsFrom, hall, List.map_map]
  exact List.map_id _

/-- Where the links are grouped by their sources, a group has the arcs of its source. -/
theorem arcsFrom_flatMap {qs : List Nat} (hqs : qs.Nodup) (arcs : Nat → List Transition)
    {q : Nat} (hq : q ∈ qs) :
    arcsFrom (qs.flatMap fun p => (arcs p).map (Link.mk p)) q = arcs q := by
  induction qs with
  | nil => exact absurd hq List.not_mem_nil
  | cons p qs ih =>
    obtain ⟨hp, hqs⟩ := List.nodup_cons.1 hqs
    rw [List.flatMap_cons, arcsFrom_append]
    by_cases hpq : p = q
    · subst hpq
      -- no later group has links of this source
      have hrest : arcsFrom (qs.flatMap fun p => (arcs p).map (Link.mk p)) p = [] := by
        refine arcsFrom_eq_nil fun l hl heq => hp ?_
        obtain ⟨p', hp', hl⟩ := List.mem_flatMap.1 hl
        obtain ⟨t, -, rfl⟩ := List.mem_map.1 hl
        exact heq ▸ hp'
      rw [arcsFrom_map_mk, hrest, List.append_nil]
    · have hgroup : arcsFrom ((arcs p).map (Link.mk p)) q = [] := by
        refine arcsFrom_eq_nil fun l hl => ?_
        obtain ⟨t, -, rfl⟩ := List.mem_map.1 hl
        exact hpq
      rw [hgroup, List.nil_append, ih hqs ((List.mem_cons.1 hq).resolve_left (Ne.symm hpq))]

/-- Marking states as accepting changes nothing else. -/
theorem getElem?_markAccepting (accepting : List Nat) (states : Array State) (q : Nat) :
    (accepting.foldl (fun states q => states.modify q fun s => { s with accepting := true })
      states)[q]?
      = states[q]?.map fun s => { s with accepting := s.accepting || decide (q ∈ accepting) } := by
  induction accepting generalizing states with
  | nil => simp
  | cons p accepting ih =>
    rw [List.foldl_cons, ih, Array.getElem?_modify]
    by_cases hp : p = q
    · simp [hp, Function.comp_def]
    · simp [hp, Ne.symm hp]

/-- A link adds its arc at the end of its source's transitions and changes no other state. -/
theorem getElem?_addLink (l : Link) (states : Array State) (q : Nat) :
    (addLink l states)[q]?
      = if l.source = q
        then states[q]?.map fun s => { s with transitions := l.arc :: s.transitions }
        else states[q]? :=
  Array.getElem?_modify

/-- A state built from links accepts if it is listed and has the arcs from it, in the order of the
links. -/
theorem getElem?_statesOfLinks {q : Nat} (hq : q < count) :
    (statesOfLinks count accepting links)[q]?
      = some ⟨decide (q ∈ accepting), arcsFrom links q⟩ := by
  -- by induction on the links, which are added from the back
  induction links with
  | nil =>
    rw [statesOfLinks, List.foldr_nil, getElem?_markAccepting, Array.getElem?_replicate,
      if_pos hq]
    simp [arcsFrom]
  | cons l links ih =>
    show (addLink l (statesOfLinks count accepting links))[q]? = _
    rw [getElem?_addLink, ih]
    split
    · next hsource =>
      subst hsource
      rw [arcsFrom_cons_self]
      rfl
    · next hsource => rw [arcsFrom_cons_of_ne hsource]

/-! ## Building an automaton -/

/-- The greatest of some numbers is below any bound that they all are below. -/
theorem greatest_lt {ns : List Nat} {bound : Nat} (hpos : 0 < bound)
    (h : ∀ n ∈ ns, n < bound) : greatest ns < bound := by
  induction ns with
  | nil => exact hpos
  | cons n ns ih =>
    exact Nat.max_lt.2 ⟨h n (by simp), ih fun n' hn' => h n' (by simp [hn'])⟩

/-- If there is room for the states that a blueprint without edges mentions, they are built. -/
theorem exists_build_eq_ok {p : Blueprint} {S : Alphabet} (hedges : p.edges = [])
    (hroom : Nat.max p.states (greatest (mentioned p.links p.accepting p.start) + 1)
      ≤ S.stateLimit) :
    ∃ B, p.build S = .ok B ∧ B.alphabet = S
      ∧ B.states = statesOfLinks
          (Nat.max p.states (greatest (mentioned p.links p.accepting p.start) + 1))
          p.accepting p.links
      ∧ B.start = p.start := by
  have hlinks : p.edges.mapM (linkOfEdge S) = .ok [] := by
    rw [hedges]
    rfl
  rw [← List.append_nil p.links] at hroom
  refine ⟨_, Except.bind_eq_ok.2 ⟨[], hlinks, Except.bind_eq_ok.2 ⟨(), if_pos hroom, rfl⟩⟩,
    rfl, ?_, rfl⟩
  simp only [List.append_nil]

/-- A blueprint with more states than the limit is refused, whatever its arcs are. -/
theorem build_eq_error {p : Blueprint} {S : Alphabet} (hedges : p.edges = [])
    (hroom : S.stateLimit
      < Nat.max p.states (greatest (mentioned p.links p.accepting p.start) + 1)) :
    p.build S = .error (.stateExplosion .build S.stateLimit) := by
  have hlinks : p.edges.mapM (linkOfEdge S) = .ok [] := by
    rw [hedges]
    rfl
  rw [← List.append_nil p.links] at hroom
  refine Except.bind_eq_error.2 (.inr ⟨[], hlinks, Except.bind_eq_error.2 (.inl ?_)⟩)
  exact if_neg (Nat.not_le_of_lt hroom)

/-- A blueprint describes an automaton: it has the same states with the same contents, the last of
which it mentions. -/
structure Describes (p : Blueprint) (A : Automaton) : Prop where
  edges : p.edges = []
  states : p.states = 1
  start : p.start = A.start
  /-- No other states are mentioned. -/
  source_lt : ∀ l ∈ p.links, l.source < A.size
  accepting_iff : ∀ q, q ∈ p.accepting ↔ A.isFinal q = true
  arcs : ∀ q < A.size, arcsFrom p.links q = A.transitions q
  /-- Unless there is one state only. -/
  mentioned : 1 < A.size → A.size - 1 ∈ mentioned p.links p.accepting p.start

namespace Describes

variable {p : Blueprint} {A : Automaton}

/-- The states mentioned in a description exist. -/
theorem mentioned_lt (h : p.Describes A) {q : Nat}
    (hq : q ∈ Blueprint.mentioned p.links p.accepting p.start) : q < A.size := by
  simp only [Blueprint.mentioned, List.mem_append, List.mem_flatMap, List.mem_cons,
    List.not_mem_nil, or_false] at hq
  rcases hq with (⟨l, hl, rfl | rfl⟩ | hq) | rfl
  · exact h.source_lt l hl
  · refine target_lt_size (q := l.source) ?_
    rw [← h.arcs _ (h.source_lt l hl)]
    exact List.mem_map.2 ⟨l, List.mem_filter.2 ⟨hl, by simp⟩, rfl⟩
  · exact lt_size_of_isFinal ((h.accepting_iff q).1 hq)
  · rw [h.start]
    exact A.start_lt

/-- A blueprint that describes an automaton is built with as many states. -/
theorem count_eq (h : p.Describes A) :
    Nat.max p.states (greatest (Blueprint.mentioned p.links p.accepting p.start) + 1)
      = A.size := by
  have hlt := greatest_lt A.size_pos fun _ hq => h.mentioned_lt hq
  have hpos := A.size_pos
  rw [h.states]
  refine Nat.le_antisymm (Nat.max_le.2 ⟨hpos, hlt⟩) ?_
  by_cases hone : 1 < A.size
  · have := le_greatest (h.mentioned hone)
    exact Nat.le_trans (by omega) (Nat.le_max_right _ _)
  · exact Nat.le_trans (by omega) (Nat.le_max_left _ _)

/-- The automaton that a blueprint describes is the one that it builds, if there is room. -/
theorem build_eq_ok (h : p.Describes A) (hroom : A.size ≤ A.alphabet.stateLimit) :
    p.build A.alphabet = .ok A := by
  obtain ⟨B, hbuild, halphabet, hstates, hstart⟩ :=
    exists_build_eq_ok (S := A.alphabet) h.edges (h.count_eq.symm ▸ hroom)
  rw [h.count_eq] at hstates
  rw [hbuild, eq_of_states_eq halphabet (hstates.trans ?_) (hstart.trans h.start)]
  refine Array.ext (size_statesOfLinks ..) fun q hq hq' => ?_
  have hget : (statesOfLinks A.size p.accepting p.links)[q]? = _ := getElem?_statesOfLinks hq'
  rw [Array.getElem?_eq_getElem hq, Option.some.injEq] at hget
  have haccepting : decide (q ∈ p.accepting) = A.isFinal q := by
    simp only [h.accepting_iff, Bool.decide_eq_true]
  rw [hget, haccepting, h.arcs q hq']
  exact state_eq_getElem hq'

end Describes

end FiniteState.Blueprint
