import FiniteState.Automaton.Rational
import FiniteState.Proofs.Construct

/-!
# Rational operations

Union, concatenation and repetition put shifted copies of automata side by side. A run inside a copy
is a run of the automaton, and a run that changes copies takes a silent link from an accepting state
of one to the start of the other, so it falls into runs of the automata.

* `relates_sum_iff`, `relates_sequence_iff`, `relates_loop_iff`: the runs of the composed automata.
* `Repeated`: any number of pairs of a relation, one after the other.
* `relates_union_iff`, `relates_concat_iff`, `relates_star_iff`, `relates_plus_iff`: the operations.
-/

namespace FiniteState

namespace TransitionSystem

variable {κ ι : Type} {M : TransitionSystem κ} {N : TransitionSystem ι}

/-- Traces in a part of a system that no arc leaves. -/
theorem Trace.of_map {f : κ → ι} {P : κ → Prop}
    (hP : ∀ k, P k → ∀ b ∈ N.arcs (f k), ∃ a ∈ M.arcs k, P a.target ∧ b = a.withTarget (f a.target))
    {k : κ} (hk : P k) {l : ι} {ls : List (Label × Label)} (h : N.Trace (f k) ls l) :
    ∃ l', P l' ∧ l = f l' ∧ M.Trace k ls l' := by
  generalize hfk : f k = k' at h
  induction h generalizing k with
  | nil => exact ⟨k, hk, hfk.symm, .nil k⟩
  | cons hb _ ih =>
    subst hfk
    obtain ⟨a, ha, hPa, rfl⟩ := hP k hk _ hb
    obtain ⟨l', hPl, hl, htrace⟩ := ih hPa rfl
    exact ⟨l', hPl, hl, .cons ha htrace⟩

end TransitionSystem

/-- Pairs of words that fall into pairs that are related, one after the other. -/
inductive Repeated (R : Word → Word → Prop) : Word → Word → Prop
  | nil : Repeated R [] []
  | cons {x y x' y' : Word} (h : R x y) (h' : Repeated R x' y') : Repeated R (x ++ x') (y ++ y')

/-- `n` pairs of words that are related, one after the other. -/
inductive Copies (R : Word → Word → Prop) : Nat → Word → Word → Prop
  | nil : Copies R 0 [] []
  | cons {n : Nat} {x y x' y' : Word} (h : R x y) (hrest : Copies R n x' y') :
      Copies R (n + 1) (x ++ x') (y ++ y')

/-- A repetition is some number of copies. -/
theorem repeated_iff_exists_copies {R : Word → Word → Prop} {x y : Word} :
    Repeated R x y ↔ ∃ n, Copies R n x y := by
  constructor
  · intro h
    induction h with
    | nil => exact ⟨0, .nil⟩
    | cons h _ ih =>
      obtain ⟨n, hcopies⟩ := ih
      exact ⟨n + 1, .cons h hcopies⟩
  · rintro ⟨n, h⟩
    induction h with
    | nil => exact .nil
    | cons h _ ih => exact .cons h ih

/-- The pairs that are put together may be listed. -/
theorem repeated_iff_exists_pairs {R : Word → Word → Prop} {x y : Word} :
    Repeated R x y
      ↔ ∃ ps : List (Word × Word), (∀ p ∈ ps, R p.1 p.2) ∧ x = ps.flatMap Prod.fst
          ∧ y = ps.flatMap Prod.snd := by
  constructor
  · intro h
    induction h with
    | nil => exact ⟨[], fun _ hp => absurd hp List.not_mem_nil, rfl, rfl⟩
    | @cons x y _ _ h _ ih =>
      obtain ⟨ps, hps, rfl, rfl⟩ := ih
      exact ⟨(x, y) :: ps, List.forall_mem_cons.2 ⟨h, hps⟩, rfl, rfl⟩
  · rintro ⟨ps, hps, rfl, rfl⟩
    induction ps with
    | nil => exact .nil
    | cons p ps ih =>
      rw [List.forall_mem_cons] at hps
      exact .cons hps.1 (ih hps.2)

namespace Automaton

variable {A B C : Automaton}

theorem state_of_getElem? {q : Nat} {s : State} (h : A.states[q]? = some s) : A.state q = s := by
  rw [state, Array.getD_eq_getD_getElem?, h, Option.getD_some]

/-! ## Shifted states -/

theorem getElem?_states {q : Nat} (hq : q < A.size) : A.states[q]? = some (A.state q) := by
  rw [state_eq_getElem hq]
  exact Array.getElem?_eq_getElem hq

/-- A shifted state is found at its own place, with its targets moved. -/
theorem getElem?_shiftedStates {q k : Nat} (hq : q < A.size) :
    (A.shiftedStates k)[q]? = some ((A.state q).shift k) := by
  rw [shiftedStates, Array.getElem?_map, getElem?_states hq, Option.map_some]

/-- A shifted transition is a transition with its target moved. -/
theorem mem_transitions_shift_iff {s : State} {k : Nat} {t : Transition} :
    t ∈ (s.shift k).transitions ↔ ∃ u ∈ s.transitions, t = u.withTarget (u.target + k) := by
  rw [State.shift, List.mem_map]
  simp only [eq_comm]

/-- Accepting states get the link, and may stop accepting. -/
theorem getElem?_linkFinal {t : Transition} {keep : Bool} {states : Array State} {q : Nat}
    {s : State} (h : states[q]? = some s) :
    (linkFinal t keep states)[q]?
      = some (if s.accepting then { s.addTransition t with accepting := keep } else s) := by
  rw [linkFinal, Array.getElem?_map, h, Option.map_some]

theorem mem_transitions_link_iff {t u : Transition} {keep : Bool} {s : State} :
    u ∈ (if s.accepting then { s.addTransition t with accepting := keep } else s).transitions
      ↔ u ∈ s.transitions ∨ (s.accepting = true ∧ u = t) := by
  cases hs : s.accepting with
  | true => simp [State.addTransition]
  | false => simp

theorem accepting_link {t : Transition} {keep : Bool} {s : State} :
    (if s.accepting then { s.addTransition t with accepting := keep } else s).accepting
      = (s.accepting && keep) := by
  cases hs : s.accepting with
  | true => simp
  | false => simp [hs]

/-! ## Copies

The states of the operands are put side by side, with their numbers shifted. Where no link leaves
such a copy, it has the runs of its operand. -/

/-- The states of `D` are states of `C`, with `k` added to their numbers. -/
def HasCopy (C D : Automaton) (k : Nat) : Prop :=
  ∀ q < D.size, C.state (q + k) = (D.state q).shift k

/-- A copied state accepts if the state does. -/
theorem HasCopy.isFinal {D : Automaton} {k q : Nat} (h : C.HasCopy D k) (hq : q < D.size) :
    C.isFinal (q + k) = D.isFinal q := by
  rw [Automaton.isFinal, h q hq]
  rfl

/-- No transition leaves a copy. -/
theorem HasCopy.exists_trace {D : Automaton} {k p l : Nat} (h : C.HasCopy D k) (hp : p < D.size)
    {ls : List (Label × Label)} (htrace : C.system.Trace (p + k) ls l) :
    ∃ q < D.size, l = q + k ∧ D.system.Trace p ls q := by
  refine TransitionSystem.Trace.of_map (M := D.system) (f := fun q => q + k)
    (P := fun q => q < D.size) (fun r hr t ht => ?_) hp htrace
  have ht' : t ∈ (C.state (r + k)).transitions := ht
  rw [h r hr, mem_transitions_shift_iff] at ht'
  obtain ⟨u, hu, rfl⟩ := ht'
  exact ⟨u, hu, target_lt_size hu, rfl⟩

/-- From a copied state on, all runs are copies. -/
theorem HasCopy.runs_iff {D : Automaton} {k p l : Nat} (h : C.HasCopy D k) (hp : p < D.size)
    {x y : Word} :
    C.system.Runs (p + k) x y l ↔ ∃ q < D.size, l = q + k ∧ D.system.Runs p x y q := by
  constructor
  · intro hrun
    obtain ⟨ls, htrace, hx, hy⟩ := TransitionSystem.runs_iff_trace.1 hrun
    obtain ⟨q, hq, hl, hcopy⟩ := h.exists_trace hp htrace
    exact ⟨q, hq, hl, TransitionSystem.runs_iff_trace.2 ⟨ls, hcopy, hx, hy⟩⟩
  · rintro ⟨q, -, rfl, hrun⟩
    refine hrun.map (f := fun q => q + k) fun r t ht => ?_
    show _ ∈ (C.state (r + k)).transitions
    rw [h r (lt_size_of_mem_transitions ht), mem_transitions_shift_iff]
    exact ⟨t, ht, rfl⟩

/-- A copy relates from its own start what the automaton does. -/
theorem HasCopy.relates_iff {D : Automaton} {k : Nat} (h : C.HasCopy D k) {x y : Word} :
    (∃ l, C.system.Runs (D.start + k) x y l ∧ C.isFinal l = true) ↔ D.Relates x y := by
  rw [relates_iff_maps]
  constructor
  · rintro ⟨l, hrun, hl⟩
    obtain ⟨q, hq, rfl, hcopy⟩ := (h.runs_iff D.start_lt_size).1 hrun
    rw [h.isFinal hq] at hl
    exact ⟨q, hcopy, hl⟩
  · rintro ⟨q, hrun, hq⟩
    have hlt := runs_lt_size hrun D.start_lt_size
    refine ⟨q + k, (h.runs_iff D.start_lt_size).2 ⟨q, hlt, rfl, hrun⟩, ?_⟩
    rw [h.isFinal hlt]
    exact hq

/-! ## Union -/

/-- The start of a union, which only enters the copies. -/
def sumStart (A B : Automaton) : State where
  transitions := [.silent (A.start + 1), .silent (B.start + (A.size + 1))]

theorem states_sum (A B : Automaton) :
    (A.sum B).states = #[A.sumStart B] ++ A.shiftedStates 1 ++ B.shiftedStates (A.size + 1) := rfl

@[simp] theorem size_sum (A B : Automaton) : (A.sum B).size = 1 + A.size + B.size := by
  rw [size, sum, Array.size_append, Array.size_append, size_shiftedStates, size_shiftedStates]
  rfl

@[simp] theorem state_sum_zero (A B : Automaton) : (A.sum B).state 0 = A.sumStart B := by
  refine state_of_getElem? ?_
  rw [states_sum, Array.append_assoc, Array.getElem?_append_left Nat.zero_lt_one]
  rfl

/-- A union holds a copy of the first operand behind the new start. -/
theorem hasCopy_sum_left (A B : Automaton) : (A.sum B).HasCopy A 1 := by
  intro q hq
  refine state_of_getElem? ?_
  rw [states_sum, Array.append_assoc, Array.getElem?_append_right (Nat.le_add_left 1 q)]
  show (A.shiftedStates 1 ++ B.shiftedStates (A.size + 1))[q]? = _
  rw [Array.getElem?_append_left (by simpa using hq), getElem?_shiftedStates hq]

/-- A union holds a copy of the second operand behind that of the first. -/
theorem hasCopy_sum_right (A B : Automaton) : (A.sum B).HasCopy B (A.size + 1) := by
  intro q hq
  have hsize : (#[A.sumStart B] ++ A.shiftedStates 1).size = A.size + 1 := by
    simp [Nat.add_comm]
  refine state_of_getElem? ?_
  rw [states_sum, Array.getElem?_append_right (by omega), hsize, Nat.add_sub_cancel,
    getElem?_shiftedStates hq]

/-- The new start leads silently to both copies. -/
theorem arcs_start_sum (A B : Automaton) :
    (A.sum B).system.arcs (A.sum B).start
      = [.silent (A.start + 1), .silent (B.start + (A.size + 1))] :=
  congrArg State.transitions (A.state_sum_zero B)

/-- A run of the union stays at its start, or enters one of the copies. -/
theorem runs_start_sum_iff {x y : Word} {l : Nat} :
    (A.sum B).system.Runs (A.sum B).start x y l
      ↔ (x = [] ∧ y = [] ∧ l = (A.sum B).start)
        ∨ (A.sum B).system.Runs (A.start + 1) x y l
        ∨ (A.sum B).system.Runs (B.start + (A.size + 1)) x y l := by
  constructor
  · intro h
    cases h with
    | nil => exact .inl ⟨rfl, rfl, rfl⟩
    | @cons _ _ t x y ht hrun =>
      rw [arcs_start_sum, List.mem_cons, List.mem_singleton] at ht
      rcases ht with rfl | rfl
      · exact .inr (.inl hrun)
      · exact .inr (.inr hrun)
  · rintro (⟨rfl, rfl, rfl⟩ | hrun | hrun)
    · exact .nil _
    · have hlink : .silent (A.start + 1) ∈ (A.sum B).system.arcs (A.sum B).start := by
        rw [arcs_start_sum]
        exact List.mem_cons_self
      exact .cons hlink hrun
    · have hlink :
          .silent (B.start + (A.size + 1)) ∈ (A.sum B).system.arcs (A.sum B).start := by
        rw [arcs_start_sum]
        exact List.mem_cons_of_mem _ List.mem_cons_self
      exact .cons hlink hrun

/-- The same, with the states of the copies given by those of the operands. -/
theorem runs_sum_iff {x y : Word} {l : Nat} :
    (A.sum B).system.Runs (A.sum B).start x y l
      ↔ (x = [] ∧ y = [] ∧ l = (A.sum B).start)
        ∨ (∃ q < A.size, l = q + 1 ∧ A.system.Runs A.start x y q)
        ∨ ∃ q < B.size, l = q + (A.size + 1) ∧ B.system.Runs B.start x y q := by
  rw [← (A.hasCopy_sum_left B).runs_iff A.start_lt_size,
    ← (A.hasCopy_sum_right B).runs_iff B.start_lt_size]
  exact runs_start_sum_iff

/-- The start of a union does not accept, so its relation is that of the two copies. -/
theorem relates_sum_iff {x y : Word} : (A.sum B).Relates x y ↔ A.Relates x y ∨ B.Relates x y := by
  have hstart : (A.sum B).isFinal (A.sum B).start = false :=
    congrArg State.accepting (A.state_sum_zero B)
  rw [← (A.hasCopy_sum_left B).relates_iff, ← (A.hasCopy_sum_right B).relates_iff,
    relates_iff_maps]
  constructor
  · rintro ⟨l, hrun, hl⟩
    rcases runs_start_sum_iff.1 hrun with ⟨-, -, rfl⟩ | hcopy | hcopy
    · exact absurd (hstart.symm.trans hl) Bool.false_ne_true
    · exact .inl ⟨l, hcopy, hl⟩
    · exact .inr ⟨l, hcopy, hl⟩
  · rintro (⟨l, hcopy, hl⟩ | ⟨l, hcopy, hl⟩)
    · exact ⟨l, runs_start_sum_iff.2 (.inr (.inl hcopy)), hl⟩
    · exact ⟨l, runs_start_sum_iff.2 (.inr (.inr hcopy)), hl⟩

/-! ## Concatenation -/

/-- The link from an accepting state of the first automaton to the second one. -/
def sequenceLink (A B : Automaton) : Transition := .silent (B.start + A.size)

theorem states_sequence (A B : Automaton) (keep : Bool) :
    (A.sequence B keep).states
      = linkFinal (A.sequenceLink B) keep A.states ++ B.shiftedStates A.size := rfl

@[simp] theorem size_sequence (A B : Automaton) (keep : Bool) :
    (A.sequence B keep).size = A.size + B.size := by
  simp [size, sequence]

/-- The accepting states of the first operand are linked to the second, and accept only if they
are to be kept. -/
theorem state_sequence_left {q : Nat} (hq : q < A.size) (keep : Bool) :
    (A.sequence B keep).state q
      = if (A.state q).accepting then
          { (A.state q).addTransition (A.sequenceLink B) with accepting := keep }
        else A.state q := by
  refine state_of_getElem? ?_
  rw [states_sequence, Array.getElem?_append_left (by rwa [size_linkFinal]),
    getElem?_linkFinal (getElem?_states hq)]

/-- A concatenation holds a copy of the second operand behind the first. -/
theorem hasCopy_sequence (A B : Automaton) (keep : Bool) :
    (A.sequence B keep).HasCopy B A.size := by
  intro q hq
  have hsize : (linkFinal (A.sequenceLink B) keep A.states).size = A.size := size_linkFinal ..
  refine state_of_getElem? ?_
  rw [states_sequence, Array.getElem?_append_right (by omega), hsize, Nat.add_sub_cancel,
    getElem?_shiftedStates hq]

/-- The links are the only transitions that are added. -/
theorem mem_transitions_sequence_iff {q : Nat} (hq : q < A.size) {keep : Bool} {t : Transition} :
    t ∈ (A.sequence B keep).system.arcs q
      ↔ t ∈ A.transitions q ∨ (A.isFinal q = true ∧ t = A.sequenceLink B) := by
  show t ∈ ((A.sequence B keep).state q).transitions ↔ _
  rw [state_sequence_left hq, mem_transitions_link_iff]
  rfl

/-- The states of the first operand accept as before, if they are to be kept. -/
theorem isFinal_sequence_left {q : Nat} (hq : q < A.size) (keep : Bool) :
    (A.sequence B keep).isFinal q = (A.isFinal q && keep) := by
  rw [isFinal, state_sequence_left hq, accepting_link]
  rfl

/-- A run from a state of the first automaton stays there, or crosses the link once. -/
theorem runs_sequence_left {keep : Bool} {p l : Nat} (hp : p < A.size) {x y : Word}
    (h : (A.sequence B keep).system.Runs p x y l) :
    (l < A.size ∧ A.system.Runs p x y l)
      ∨ ∃ f x₁ y₁ x₂ y₂ q, A.system.Runs p x₁ y₁ f ∧ A.isFinal f = true
          ∧ B.system.Runs B.start x₂ y₂ q ∧ q < B.size ∧ l = q + A.size
          ∧ x = x₁ ++ x₂ ∧ y = y₁ ++ y₂ := by
  induction h with
  | nil p => exact .inl ⟨hp, .nil p⟩
  | @cons p l t x y ht hrun ih =>
    rcases (mem_transitions_sequence_iff hp).1 ht with ht | ⟨hfinal, rfl⟩
    · rcases ih (target_lt_size ht) with ⟨hl, hrun⟩ | ⟨f, x₁, y₁, x₂, y₂, q, hfirst, hrest⟩
      · exact .inl ⟨hl, .cons ht hrun⟩
      · obtain ⟨hf, hsecond, hq, hl, rfl, rfl⟩ := hrest
        exact .inr ⟨f, _, _, x₂, y₂, q, .cons ht hfirst, hf, hsecond, hq, hl,
          (List.append_assoc ..).symm, (List.append_assoc ..).symm⟩
    · obtain ⟨q, hq, rfl, hsecond⟩ := ((A.hasCopy_sequence B keep).runs_iff B.start_lt_size).1 hrun
      exact .inr ⟨p, [], [], x, y, q, .nil p, hfinal, hsecond, hq, rfl, rfl, rfl⟩

/-- A run of the concatenation stays in the first automaton, or consists of a run that it accepts
and a run of the second one. -/
theorem runs_sequence_iff {keep : Bool} {x y : Word} {l : Nat} :
    (A.sequence B keep).system.Runs A.start x y l
      ↔ (l < A.size ∧ A.system.Runs A.start x y l)
        ∨ ∃ x₁ y₁ x₂ y₂, x = x₁ ++ x₂ ∧ y = y₁ ++ y₂ ∧ A.Relates x₁ y₁
          ∧ ∃ q < B.size, l = q + A.size ∧ B.system.Runs B.start x₂ y₂ q := by
  simp only [relates_iff_maps]
  have hleft : ∀ {p q x y}, A.system.Runs p x y q →
      (A.sequence B keep).system.Runs p x y q := fun h =>
    h.map (f := id) fun r t ht =>
      (mem_transitions_sequence_iff (lt_size_of_mem_transitions ht)).2 (.inl ht)
  constructor
  · intro hrun
    rcases runs_sequence_left A.start_lt_size hrun with
      hstays | ⟨f, x₁, y₁, x₂, y₂, q, hfirst, hf, hsecond, hq, hl, hx, hy⟩
    · exact .inl hstays
    · exact .inr ⟨x₁, y₁, x₂, y₂, hx, hy, ⟨f, hfirst, hf⟩, q, hq, hl, hsecond⟩
  · rintro (⟨-, hrun⟩ | ⟨x₁, y₁, x₂, y₂, rfl, rfl, ⟨f, hfirst, hf⟩, q, hq, rfl, hsecond⟩)
    · exact hleft hrun
    · -- the run of the first automaton is followed by the link to the start of the second one
      have hlink : A.sequenceLink B ∈ (A.sequence B keep).system.arcs f :=
        (mem_transitions_sequence_iff (runs_lt_size hfirst A.start_lt_size)).2 (.inr ⟨hf, rfl⟩)
      have hcopy : (A.sequence B keep).system.Runs (B.start + A.size) x₂ y₂ (q + A.size) :=
        ((A.hasCopy_sequence B keep).runs_iff B.start_lt_size).2 ⟨q, hq, rfl, hsecond⟩
      exact (hleft hfirst).append (.cons hlink hcopy)

/-- A run of the concatenation falls into one of each automaton. It may end after the first if the
accepting states were kept. -/
theorem relates_sequence_iff {keep : Bool} {x y : Word} :
    (A.sequence B keep).Relates x y
      ↔ (keep = true ∧ A.Relates x y)
        ∨ ∃ x₁ y₁ x₂ y₂, A.Relates x₁ y₁ ∧ B.Relates x₂ y₂ ∧ x = x₁ ++ x₂ ∧ y = y₁ ++ y₂ := by
  rw [relates_iff_maps]
  constructor
  · rintro ⟨l, hrun, hl⟩
    rcases runs_sequence_iff.1 hrun with
      ⟨hlt, hrun⟩ | ⟨x₁, y₁, x₂, y₂, hx, hy, hfirst, q, hq, rfl, hsecond⟩
    · -- the run has stayed in the first automaton, so it ends in a state that was kept accepting
      have hl' := (isFinal_sequence_left hlt keep).symm.trans hl
      rw [Bool.and_eq_true] at hl'
      exact .inl ⟨hl'.2, relates_iff_maps.2 ⟨l, hrun, hl'.1⟩⟩
    · have hq' := ((A.hasCopy_sequence B keep).isFinal hq).symm.trans hl
      exact .inr ⟨x₁, y₁, x₂, y₂, hfirst, relates_iff_maps.2 ⟨q, hsecond, hq'⟩, hx, hy⟩
  · rintro (⟨rfl, hrelates⟩ | ⟨x₁, y₁, x₂, y₂, hfirst, hrelates, rfl, rfl⟩)
    · obtain ⟨q, hrun, hq⟩ := relates_iff_maps.1 hrelates
      have hlt := runs_lt_size hrun A.start_lt_size
      refine ⟨q, runs_sequence_iff.2 (.inl ⟨hlt, hrun⟩), (isFinal_sequence_left hlt true).trans ?_⟩
      rw [Bool.and_true]
      exact hq
    · obtain ⟨q, hsecond, hq⟩ := relates_iff_maps.1 hrelates
      have hlt := runs_lt_size hsecond B.start_lt_size
      exact ⟨q + A.size,
        runs_sequence_iff.2 (.inr ⟨x₁, y₁, x₂, y₂, rfl, rfl, hfirst, q, hlt, rfl, hsecond⟩),
        ((A.hasCopy_sequence B keep).isFinal hlt).trans hq⟩

/-! ## Repetition -/

/-- The link from an accepting state back to the start. -/
def loopLink (A : Automaton) : Transition := .silent (A.start + 1)

/-- The start of a repetition. -/
def loopStart (A : Automaton) (acceptEmpty : Bool) : State where
  accepting := acceptEmpty
  transitions := [A.loopLink]

theorem states_loop (A : Automaton) (acceptEmpty : Bool) :
    (A.loop acceptEmpty).states
      = #[A.loopStart acceptEmpty] ++ linkFinal A.loopLink true (A.shiftedStates 1) := rfl

@[simp] theorem size_loop (A : Automaton) (acceptEmpty : Bool) :
    (A.loop acceptEmpty).size = 1 + A.size := by
  simp [size, loop]

@[simp] theorem state_loop_zero (A : Automaton) (acceptEmpty : Bool) :
    (A.loop acceptEmpty).state 0 = A.loopStart acceptEmpty := by
  refine state_of_getElem? ?_
  rw [states_loop, Array.getElem?_append_left Nat.zero_lt_one]
  rfl

/-- The accepting states are linked back to where a copy begins. -/
theorem state_loop_succ {q : Nat} (hq : q < A.size) (acceptEmpty : Bool) :
    (A.loop acceptEmpty).state (q + 1)
      = if ((A.state q).shift 1).accepting then
          { ((A.state q).shift 1).addTransition A.loopLink with accepting := true }
        else (A.state q).shift 1 := by
  refine state_of_getElem? ?_
  rw [states_loop, Array.getElem?_append_right (Nat.le_add_left 1 q)]
  exact getElem?_linkFinal (getElem?_shiftedStates hq)

theorem isFinal_loop_succ {q : Nat} (hq : q < A.size) (acceptEmpty : Bool) :
    (A.loop acceptEmpty).isFinal (q + 1) = A.isFinal q := by
  rw [isFinal, state_loop_succ hq, accepting_link, Bool.and_true]
  rfl

/-- The links back are the only transitions that are added. -/
theorem mem_transitions_loop_iff {q : Nat} (hq : q < A.size) {acceptEmpty : Bool}
    {t : Transition} :
    t ∈ (A.loop acceptEmpty).system.arcs (q + 1)
      ↔ (∃ u ∈ A.transitions q, t = u.withTarget (u.target + 1))
        ∨ (A.isFinal q = true ∧ t = A.loopLink) := by
  show t ∈ ((A.loop acceptEmpty).state (q + 1)).transitions ↔ _
  rw [state_loop_succ hq, mem_transitions_link_iff, mem_transitions_shift_iff]
  rfl

/-- A run of the automaton is a run of the closure, behind the new start. -/
theorem Runs.loop {p q : Nat} {x y : Word} (acceptEmpty : Bool) (h : A.system.Runs p x y q) :
    (A.loop acceptEmpty).system.Runs (p + 1) x y (q + 1) :=
  h.map (f := fun q => q + 1) fun _ t ht =>
    (mem_transitions_loop_iff (lt_size_of_mem_transitions ht)).2 (.inl ⟨t, ht, rfl⟩)

/-- A run to an accepting state ends its first round, then takes some more. -/
theorem exists_of_runs_loop {acceptEmpty : Bool} {p l : Nat} (hp : p < A.size) {x y : Word}
    (h : (A.loop acceptEmpty).system.Runs (p + 1) x y l)
    (hl : (A.loop acceptEmpty).isFinal l = true) :
    ∃ f x₁ y₁ x₂ y₂, A.system.Runs p x₁ y₁ f ∧ A.isFinal f = true
      ∧ Repeated A.Relates x₂ y₂ ∧ x = x₁ ++ x₂ ∧ y = y₁ ++ y₂ := by
  generalize hk : p + 1 = k at h
  -- by induction on the run: the round goes on, or the next one begins
  induction h generalizing p with
  | nil k =>
    subst hk
    rw [isFinal_loop_succ hp] at hl
    exact ⟨p, [], [], [], [], .nil p, hl, .nil, rfl, rfl⟩
  | @cons k l t x y ht _ ih =>
    subst hk
    rcases (mem_transitions_loop_iff hp).1 ht with ⟨u, hu, rfl⟩ | ⟨hfinal, rfl⟩
    · obtain ⟨f, x₁, y₁, x₂, y₂, hfirst, hf, hrest, rfl, rfl⟩ := ih (target_lt_size hu) hl rfl
      exact ⟨f, _, _, x₂, y₂, .cons hu hfirst, hf, hrest, (List.append_assoc ..).symm,
        (List.append_assoc ..).symm⟩
    · -- the round is over at `p`, what follows is another one
      obtain ⟨f, x₁, y₁, x₂, y₂, hfirst, hf, hrest, rfl, rfl⟩ := ih A.start_lt_size hl rfl
      have hround : A.Relates x₁ y₁ := relates_iff_maps.2 ⟨f, hfirst, hf⟩
      exact ⟨p, [], [], _, _, .nil p, hfinal, .cons hround hrest, rfl, rfl⟩

/-- Copies one after the other are a run of the closure, by one link between each two. -/
theorem exists_runs_loop_of_repeated {acceptEmpty : Bool} {x₁ y₁ x₂ y₂ : Word}
    (h : A.Relates x₁ y₁) (hrest : Repeated A.Relates x₂ y₂) :
    ∃ q < A.size, (A.loop acceptEmpty).system.Runs (A.start + 1) (x₁ ++ x₂) (y₁ ++ y₂) (q + 1)
      ∧ A.isFinal q = true := by
  induction hrest generalizing x₁ y₁ with
  | nil =>
    obtain ⟨q, hrun, hq⟩ := relates_iff_maps.1 h
    rw [List.append_nil, List.append_nil]
    exact ⟨q, runs_lt_size hrun A.start_lt_size, Runs.loop acceptEmpty hrun, hq⟩
  | cons hnext _ ih =>
    obtain ⟨f, hrun, hf⟩ := relates_iff_maps.1 h
    obtain ⟨q, hq, hrest, hfinal⟩ := ih hnext
    have hlink : A.loopLink ∈ (A.loop acceptEmpty).system.arcs (f + 1) :=
      (mem_transitions_loop_iff (runs_lt_size hrun A.start_lt_size)).2 (.inr ⟨hf, rfl⟩)
    exact ⟨q, hq, (Runs.loop acceptEmpty hrun).append (.cons hlink hrest), hfinal⟩

/-- A run of the repetition falls into rounds, at least one unless the empty word is accepted. -/
theorem relates_loop_iff {acceptEmpty : Bool} {x y : Word} :
    (A.loop acceptEmpty).Relates x y
      ↔ (acceptEmpty = true ∧ x = [] ∧ y = [])
        ∨ ∃ x₁ y₁ x₂ y₂, A.Relates x₁ y₁ ∧ Repeated A.Relates x₂ y₂
            ∧ x = x₁ ++ x₂ ∧ y = y₁ ++ y₂ := by
  have hlinks : (A.loop acceptEmpty).system.arcs (A.loop acceptEmpty).system.start = [A.loopLink] :=
    congrArg State.transitions (A.state_loop_zero acceptEmpty)
  have hstart : (A.loop acceptEmpty).isFinal (A.loop acceptEmpty).start = acceptEmpty :=
    congrArg State.accepting (A.state_loop_zero acceptEmpty)
  rw [relates_iff_maps]
  constructor
  · rintro ⟨l, hrun, hl⟩
    -- the start has the link to the first round as its only transition
    cases hrun with
    | nil => exact .inl ⟨hstart.symm.trans hl, rfl, rfl⟩
    | @cons _ _ t x y ht hrun =>
      rw [hlinks, List.mem_singleton] at ht
      subst ht
      obtain ⟨f, x₁, y₁, x₂, y₂, hfirst, hf, hrest, hx, hy⟩ :=
        exists_of_runs_loop A.start_lt_size hrun hl
      exact .inr ⟨x₁, y₁, x₂, y₂, relates_iff_maps.2 ⟨f, hfirst, hf⟩, hrest, hx, hy⟩
  · rintro (⟨rfl, rfl, rfl⟩ | ⟨x₁, y₁, x₂, y₂, hfirst, hrest, rfl, rfl⟩)
    · exact ⟨_, .nil _, hstart⟩
    · obtain ⟨q, hq, hrun, hfinal⟩ := exists_runs_loop_of_repeated hfirst hrest
      have hlink : A.loopLink
          ∈ (A.loop acceptEmpty).system.arcs (A.loop acceptEmpty).system.start := by
        rw [hlinks]
        exact List.mem_singleton_self _
      exact ⟨q + 1, .cons hlink hrun, (isFinal_loop_succ hq acceptEmpty).trans hfinal⟩

/-! ## The operations -/

/-- A union relates what either operand relates. -/
theorem relates_union_iff (h : A.union B = .ok C) {x y : Word} :
    C.Relates x y ↔ A.Relates x y ∨ B.Relates x y := by
  obtain ⟨-, -, h⟩ := Except.bind_eq_ok.1 h
  obtain ⟨-, -, h⟩ := Except.bind_eq_ok.1 h
  rw [← Except.pure_eq_ok.1 h, relates_sum_iff]

/-- A union accepts what either operand accepts. -/
theorem accepts_union_iff (h : A.union B = .ok C) {w : Word} :
    C.accepts w = true ↔ A.accepts w = true ∨ B.accepts w = true := by
  simp only [accepts_iff_exists_relates, relates_union_iff h, exists_or]

/-- A concatenation relates pairs put together from both operands. -/
theorem relates_concat_iff (h : A.concat B = .ok C) {x y : Word} :
    C.Relates x y
      ↔ ∃ x₁ y₁ x₂ y₂, A.Relates x₁ y₁ ∧ B.Relates x₂ y₂ ∧ x = x₁ ++ x₂ ∧ y = y₁ ++ y₂ := by
  obtain ⟨-, -, h⟩ := Except.bind_eq_ok.1 h
  obtain ⟨-, -, h⟩ := Except.bind_eq_ok.1 h
  rw [← Except.pure_eq_ok.1 h, relates_sequence_iff]
  simp

/-- Appending copies puts pairs of the one automaton after those of the other. -/
theorem relates_appendCopies_iff {n : Nat} {acc : Automaton}
    (h : A.appendCopies false n acc = .ok C) {x y : Word} :
    C.Relates x y
      ↔ ∃ x₁ y₁ x₂ y₂, acc.Relates x₁ y₁ ∧ Copies A.Relates n x₂ y₂
          ∧ x = x₁ ++ x₂ ∧ y = y₁ ++ y₂ := by
  induction n generalizing acc x y with
  | zero =>
    obtain rfl := Except.ok.inj h
    constructor
    · exact fun h => ⟨x, y, [], [], h, .nil, (List.append_nil x).symm, (List.append_nil y).symm⟩
    · rintro ⟨x₁, y₁, x₂, y₂, hacc, hcopies, rfl, rfl⟩
      cases hcopies
      rwa [List.append_nil, List.append_nil]
  | succ n ih =>
    obtain ⟨D, hD, h⟩ := Except.bind_eq_ok.1 h
    -- the first copy goes to what there is already, and the rest is appended to both
    rw [ih h]
    constructor
    · rintro ⟨x₁, y₁, x₂, y₂, hD', hcopies, rfl, rfl⟩
      obtain ⟨u, v, u', v', hacc, hA, rfl, rfl⟩ := (relates_concat_iff hD).1 hD'
      exact ⟨u, v, _, _, hacc, .cons hA hcopies, List.append_assoc .., List.append_assoc ..⟩
    · rintro ⟨x₁, y₁, x₂, y₂, hacc, hcopies, rfl, rfl⟩
      cases hcopies with
      | @cons _ u v u' v' hA hcopies =>
        have hD' : D.Relates (x₁ ++ u) (y₁ ++ v) :=
          (relates_concat_iff hD).2 ⟨x₁, y₁, u, v, hacc, hA, rfl, rfl⟩
        exact ⟨x₁ ++ u, y₁ ++ v, u', v', hD', hcopies, (List.append_assoc ..).symm,
          (List.append_assoc ..).symm⟩

/-- From the empty word on, only the copies are left. -/
theorem relates_required_iff {S : Alphabet} {n : Nat}
    (h : A.appendCopies false n (epsilon S) = .ok C) {x y : Word} :
    C.Relates x y ↔ Copies A.Relates n x y := by
  rw [relates_appendCopies_iff h]
  constructor
  · rintro ⟨x₁, y₁, x₂, y₂, hepsilon, hcopies, rfl, rfl⟩
    obtain ⟨rfl, rfl⟩ := relates_epsilon_iff.1 hepsilon
    exact hcopies
  · exact fun hcopies => ⟨[], [], x, y, relates_epsilon_iff.2 ⟨rfl, rfl⟩, hcopies, rfl, rfl⟩

/-- A power with equal bounds takes that many copies. -/
theorem relates_power_iff {n : Nat} (h : A.power n (some n) = .ok C) {x y : Word} :
    C.Relates x y ↔ Copies A.Relates n x y := by
  have hpower : A.power n (some n) = if n < n then .ok (empty A.alphabet)
      else A.appendCopies false n (epsilon A.alphabet) >>= A.appendCopies true (n - n) := rfl
  rw [hpower, if_neg (Nat.lt_irrefl n), Except.bind_eq_ok] at h
  obtain ⟨D, hD, h⟩ := h
  rw [Nat.sub_self] at h
  obtain rfl := Except.ok.inj h
  exact relates_required_iff hD

/-- The star relates repetitions of any number of pairs, none included. -/
theorem relates_star_iff (h : A.star = .ok C) {x y : Word} :
    C.Relates x y ↔ Repeated A.Relates x y := by
  obtain ⟨-, -, h⟩ := Except.bind_eq_ok.1 h
  rw [← Except.pure_eq_ok.1 h, relates_loop_iff]
  constructor
  · rintro (⟨-, rfl, rfl⟩ | ⟨x₁, y₁, x₂, y₂, hfirst, hrest, rfl, rfl⟩)
    · exact .nil
    · exact .cons hfirst hrest
  · intro hrepeated
    cases hrepeated with
    | nil => exact .inl ⟨rfl, rfl, rfl⟩
    | cons hfirst hrest => exact .inr ⟨_, _, _, _, hfirst, hrest, rfl, rfl⟩

/-- One copy, then any number of them. -/
theorem relates_plus_iff (h : A.plus = .ok C) {x y : Word} :
    C.Relates x y
      ↔ ∃ x₁ y₁ x₂ y₂, A.Relates x₁ y₁ ∧ Repeated A.Relates x₂ y₂ ∧ x = x₁ ++ x₂
          ∧ y = y₁ ++ y₂ := by
  obtain ⟨-, -, h⟩ := Except.bind_eq_ok.1 h
  rw [← Except.pure_eq_ok.1 h, relates_loop_iff]
  simp

/-- A repetition by a list of pairs, of which there is at least one. -/
theorem relates_plus_iff_exists_pairs (h : A.plus = .ok C) {x y : Word} :
    C.Relates x y
      ↔ ∃ ps : List (Word × Word), ps ≠ [] ∧ (∀ p ∈ ps, A.Relates p.1 p.2)
          ∧ x = ps.flatMap Prod.fst ∧ y = ps.flatMap Prod.snd := by
  rw [relates_plus_iff h]
  simp only [repeated_iff_exists_pairs]
  constructor
  · rintro ⟨x₁, y₁, _, _, hfirst, ⟨ps, hps, rfl, rfl⟩, rfl, rfl⟩
    exact ⟨(x₁, y₁) :: ps, List.cons_ne_nil _ _, List.forall_mem_cons.2 ⟨hfirst, hps⟩, rfl, rfl⟩
  · rintro ⟨ps, hne, hps, rfl, rfl⟩
    cases ps with
    | nil => exact absurd rfl hne
    | cons p ps =>
      rw [List.forall_mem_cons] at hps
      exact ⟨p.1, p.2, _, _, hps.1, ⟨ps, hps.2, rfl, rfl⟩, rfl, rfl⟩

/-- Unions one after the other collect what each relates. -/
theorem relates_foldlM_union_iff {As : List Automaton} (h : As.foldlM union B = .ok C)
    {x y : Word} : C.Relates x y ↔ B.Relates x y ∨ ∃ A ∈ As, A.Relates x y := by
  induction As generalizing B with
  | nil =>
    rw [List.foldlM_nil, Except.pure_eq_ok] at h
    simp [h]
  | cons A As ih =>
    rw [List.foldlM_cons, Except.bind_eq_ok] at h
    obtain ⟨D, hD, h⟩ := h
    rw [ih h, relates_union_iff hD, List.exists_mem_cons_iff, or_assoc]

/-- The union of a list relates what any of them relates. -/
theorem relates_unionAll_iff {S : Alphabet} {As : List Automaton} (h : unionAll S As = .ok C)
    {x y : Word} : C.Relates x y ↔ ∃ A ∈ As, A.Relates x y := by
  rw [relates_foldlM_union_iff h]
  exact or_iff_right not_relates_empty

/-! ## Powers of Σ -/

/-- Copies of Σ make up the words over Σ, by their length. -/
theorem copies_sigma_iff {S : Alphabet} {n : Nat} {x y : Word} :
    Copies (sigma S).Relates n x y ↔ x = y ∧ x.Over S ∧ x.length = n := by
  constructor
  · intro h
    induction h with
    | nil => exact ⟨rfl, Word.over_nil S, rfl⟩
    | cons h _ ih =>
      obtain ⟨rfl, s, hs, rfl⟩ := relates_sigma_iff.1 h
      obtain ⟨rfl, hover, rfl⟩ := ih
      exact ⟨rfl, Word.over_cons_iff.2 ⟨hs, hover⟩, rfl⟩
  · rintro ⟨rfl, hover, rfl⟩
    induction x with
    | nil => exact .nil
    | cons s x ih =>
      obtain ⟨hs, hx⟩ := Word.over_cons_iff.1 hover
      exact .cons (relates_sigma_singleton hs) (ih hx)

theorem repeated_sigma_iff {S : Alphabet} {x y : Word} :
    Repeated (sigma S).Relates x y ↔ x = y ∧ x.Over S := by
  rw [repeated_iff_exists_copies]
  constructor
  · rintro ⟨n, h⟩
    obtain ⟨hxy, hover, -⟩ := copies_sigma_iff.1 h
    exact ⟨hxy, hover⟩
  · rintro ⟨hxy, hover⟩
    exact ⟨x.length, copies_sigma_iff.2 ⟨hxy, hover, rfl⟩⟩

/-! ## Transducers

A transducer may have loops through its start and accept there; the links between copies still cut a
run at the right places. -/

/-- Union, concatenation and repetition are exact on the pairs that transducers relate, whatever
loops lead back to the starts and whether these accept. -/
theorem transduces_rational_iff (S : Alphabet) (A B C : Automaton) (As : List Automaton)
    (x y : Word) :
    (A.union B = .ok C →
      (C.transduces x y = true ↔ A.transduces x y = true ∨ B.transduces x y = true))
    ∧ (A.concat B = .ok C →
      (C.transduces x y = true
        ↔ ∃ x₁ x₂ y₁ y₂, x = x₁ ++ x₂ ∧ y = y₁ ++ y₂ ∧ A.transduces x₁ y₁ = true
            ∧ B.transduces x₂ y₂ = true))
    ∧ (A.star = .ok C →
      (C.transduces x y = true
        ↔ ∃ ps : List (Word × Word), (∀ p ∈ ps, A.transduces p.1 p.2 = true)
            ∧ x = ps.flatMap Prod.fst ∧ y = ps.flatMap Prod.snd))
    ∧ (A.plus = .ok C →
      (C.transduces x y = true
        ↔ ∃ ps : List (Word × Word), ps ≠ [] ∧ (∀ p ∈ ps, A.transduces p.1 p.2 = true)
            ∧ x = ps.flatMap Prod.fst ∧ y = ps.flatMap Prod.snd))
    ∧ (unionAll S As = .ok C →
      (C.transduces x y = true ↔ ∃ D ∈ As, D.transduces x y = true)) := by
  simp only [transduces_iff_relates]
  refine ⟨?union, ?concat, ?star, ?plus, ?unionAll⟩
  case union => exact fun h => relates_union_iff h
  case concat =>
    intro h
    rw [relates_concat_iff h]
    constructor
    · rintro ⟨x₁, y₁, x₂, y₂, hA, hB, hx, hy⟩
      exact ⟨x₁, x₂, y₁, y₂, hx, hy, hA, hB⟩
    · rintro ⟨x₁, x₂, y₁, y₂, hx, hy, hA, hB⟩
      exact ⟨x₁, y₁, x₂, y₂, hA, hB, hx, hy⟩
  case star =>
    intro h
    rw [relates_star_iff h, repeated_iff_exists_pairs]
  case plus => exact fun h => relates_plus_iff_exists_pairs h
  case unionAll => exact fun h => relates_unionAll_iff h

/-- Maps a to ba any number of times. The start accepts, and a loop leads back to it. -/
def doubling : Automaton where
  alphabet := .abcd
  states := #[
    { accepting := true, transitions := [⟨.symbol ⟨0⟩, .symbol ⟨1⟩, 1⟩] },
    { transitions := [⟨.epsilon, .symbol ⟨0⟩, 0⟩] }]
  start := 0
  start_lt := by decide
  target_lt := by decide

/-- Erases any number of a in front of a b. -/
def erasing : Automaton where
  alphabet := .abcd
  states := #[
    { transitions := [⟨.symbol ⟨0⟩, .epsilon, 0⟩, ⟨.symbol ⟨1⟩, .symbol ⟨1⟩, 1⟩] },
    { accepting := true }]
  start := 0
  start_lt := by decide
  target_lt := by decide

/-- The word ab is mapped to b alone by the union, and also to bab by the concatenation; the
repetition of `erasing` cuts aabb into aab and b. -/
theorem transduces_doubling :
    (doubling.union erasing = .ok (doubling.sum erasing)
        ∧ (doubling.sum erasing).transduces [⟨0⟩, ⟨1⟩] [⟨1⟩] = true)
      ∧ (doubling.concat erasing = .ok (doubling.sequence erasing false)
        ∧ (doubling.sequence erasing false).transduces [⟨0⟩, ⟨1⟩] [⟨1⟩, ⟨0⟩, ⟨1⟩] = true)
      ∧ (erasing.star = .ok (erasing.loop true) ∧ (erasing.loop true).transduces [] [] = true)
      ∧ (erasing.plus = .ok (erasing.loop false)
        ∧ (erasing.loop false).transduces [⟨0⟩, ⟨0⟩, ⟨1⟩, ⟨1⟩] [⟨1⟩, ⟨1⟩] = true)
      ∧ ∃ C, unionAll .abcd [doubling, erasing] = .ok C ∧ C.transduces [⟨0⟩, ⟨1⟩] [⟨1⟩] = true := by
  have hunion : doubling.union erasing = .ok (doubling.sum erasing) := by rfl
  have hconcat : doubling.concat erasing = .ok (doubling.sequence erasing false) := by rfl
  have hstar : erasing.star = .ok (erasing.loop true) := by rfl
  have hplus : erasing.plus = .ok (erasing.loop false) := by rfl
  have hall : unionAll .abcd [doubling, erasing]
      = .ok (((empty .abcd).sum doubling).sum erasing) := by cbv
  have hdouble : doubling.transduces [⟨0⟩] [⟨1⟩, ⟨0⟩] = true := by cbv
  have herase : erasing.transduces [⟨0⟩, ⟨1⟩] [⟨1⟩] = true := by cbv
  have hone : erasing.transduces [⟨1⟩] [⟨1⟩] = true := by cbv
  have htwo : erasing.transduces [⟨0⟩, ⟨0⟩, ⟨1⟩] [⟨1⟩] = true := by cbv
  refine ⟨⟨hunion, ?_⟩, ⟨hconcat, ?_⟩, ⟨hstar, ?_⟩, ⟨hplus, ?_⟩, _, hall, ?_⟩
  · exact ((transduces_rational_iff .abcd _ _ _ [] _ _).1 hunion).2 (.inr herase)
  · apply ((transduces_rational_iff .abcd _ _ _ [] _ _).2.1 hconcat).2
    exact ⟨[⟨0⟩], [⟨1⟩], [⟨1⟩, ⟨0⟩], [⟨1⟩], rfl, rfl, hdouble, hone⟩
  · apply ((transduces_rational_iff .abcd _ erasing _ [] _ _).2.2.1 hstar).2
    exact ⟨[], fun _ hp => absurd hp List.not_mem_nil, rfl, rfl⟩
  · apply ((transduces_rational_iff .abcd _ erasing _ [] _ _).2.2.2.1 hplus).2
    exact ⟨[([⟨0⟩, ⟨0⟩, ⟨1⟩], [⟨1⟩]), ([⟨1⟩], [⟨1⟩])], List.cons_ne_nil _ _,
      List.forall_mem_cons.2 ⟨htwo, List.forall_mem_singleton.2 hone⟩, rfl, rfl⟩
  · apply ((transduces_rational_iff .abcd erasing erasing _ _ _ _).2.2.2.2 hall).2
    exact ⟨erasing, List.mem_cons_of_mem _ List.mem_cons_self, herase⟩

end Automaton

end FiniteState
