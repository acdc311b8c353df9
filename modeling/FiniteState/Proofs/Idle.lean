import FiniteState.Proofs.Canonical

/-!
# Idle automata

An automaton that accepts nothing has no useful state, and trimming leaves the start only; but the
transitions from the start back to it are between states that are kept, so they are left as well.
What comes out is idle: one state that does not accept, with a loop for each pair of labels. An
idle automaton can be minimal, and it is the automaton of nothing only if it has no loops.

* `trim_eq_idle`: what trimming leaves of an automaton that accepts nothing.
* `exists_idle_of_minimize`: what minimization makes of it.
* `mem_startLoops_explore_iff`: loops at the start of an explored automaton.
-/

namespace FiniteState

namespace Automaton

variable {A B C M N : Automaton} {S : Alphabet} {l : Label × Label} {ls ms : List (Label × Label)}

/-- A single state that does not accept, with a loop for each pair of labels. -/
def idle (S : Alphabet) (ls : List (Label × Label)) : Automaton where
  alphabet := S
  states := #[{ transitions := ls.map fun l => ⟨l.1, l.2, 0⟩ }]
  start := 0
  start_lt := by simp
  target_lt := by
    intro s hs t ht
    rw [Array.mem_singleton.1 hs] at ht
    obtain ⟨l, -, rfl⟩ := List.mem_map.1 ht
    exact Nat.one_pos

/-- The labels of the transitions from the start back to it. -/
def startLoops (A : Automaton) : List (Label × Label) :=
  ((A.transitions A.start).filter (·.target == A.start)).map Arc.labels

theorem idle_nil (S : Alphabet) : idle S [] = empty S := rfl

/-- An idle automaton has a loop for each of the labels. -/
@[simp] theorem transitions_idle (S : Alphabet) (ls : List (Label × Label)) :
    (idle S ls).transitions 0 = ls.map fun l => ⟨l.1, l.2, 0⟩ := rfl

/-- The labels of these loops are those given, in order. -/
theorem map_labels_idle (S : Alphabet) (ls : List (Label × Label)) :
    ((idle S ls).transitions 0).map Arc.labels = ls := by
  rw [transitions_idle, List.map_map]
  exact List.map_id ls

/-- An idle automaton has no other transition. -/
theorem labels_mem_of_idle {q : Nat} {t : Transition} (ht : t ∈ (idle S ls).transitions q) :
    t.labels ∈ ls := by
  have hq : q = 0 := Nat.lt_one_iff.1 (lt_size_of_mem_transitions ht)
  subst hq
  rw [← map_labels_idle S ls]
  exact List.mem_map_of_mem ht

/-- Idle automata differ if their labels do, also in order. -/
theorem idle_eq_idle_iff : idle S ls = idle S ms ↔ ls = ms := by
  refine ⟨fun h => ?_, congrArg _⟩
  rw [← map_labels_idle S ls, h, map_labels_idle]

/-- Only without labels is it the empty automaton. -/
theorem idle_eq_empty_iff : idle S ls = empty S ↔ ls = [] := by
  rw [← idle_nil, idle_eq_idle_iff]

/-- The loops at the start are its transitions to itself. -/
theorem mem_startLoops_iff :
    l ∈ A.startLoops ↔ ∃ t ∈ A.transitions A.start, t.labels = l ∧ t.target = A.start := by
  simp only [startLoops, List.mem_map, List.mem_filter, beq_iff_eq]
  constructor
  · rintro ⟨t, ⟨ht, hloop⟩, hlabels⟩
    exact ⟨t, ht, hlabels, hloop⟩
  · rintro ⟨t, ht, hlabels, hloop⟩
    exact ⟨t, ⟨ht, hloop⟩, hlabels⟩

/-! ## Trimming

The start is kept whether it is useful or not. Where nothing is accepted it is the only state that
is left, with the transitions from there back to it. -/

/-- If nothing is accepted, the transitions that are kept are the loops of the start. -/
theorem row_kept_start (h : ¬ ∃ ls, A.Carries ls) :
    A.system.row A.kept A.start = { transitions := A.startLoops.map fun l => ⟨l.1, l.2, 0⟩ } := by
  have hfinal : A.isFinal A.start = false :=
    Bool.eq_false_iff.2 fun hf => h ⟨[], TransitionSystem.acceptsFrom_nil_iff.2 hf⟩
  -- nothing but the start is kept
  have hnumber : ∀ q, A.kept.number? q = if q = A.start then some 0 else none := by
    intro q
    refine Option.ext fun i => ?_
    rw [Numbering.number?_eq_some_iff_getElem?, toList_kept_of_not_carries h]
    by_cases hq : q = A.start
    · rw [if_pos hq, hq, List.getElem?_singleton]
      simp [eq_comm]
    · rw [if_neg hq, List.getElem?_singleton]
      simp [Ne.symm hq]
  show State.mk (A.isFinal A.start) ((A.transitions A.start).filterMap _) = _
  rw [hfinal, startLoops, List.map_map]
  congr 1
  induction A.transitions A.start with
  | nil => rfl
  | cons t ts ih =>
    rw [List.filterMap_cons, hnumber, List.filter_cons]
    by_cases hloop : t.target = A.start
    · rw [if_pos hloop, if_pos (beq_iff_eq.2 hloop), List.map_cons, ← ih]
      rfl
    · rw [if_neg hloop, if_neg (by simpa using hloop), ← ih]
      rfl

/-- Trimming an automaton that accepts nothing leaves the loops at its start. -/
theorem trim_eq_idle (h : ¬ ∃ ls, A.Carries ls) : A.trim = idle A.alphabet A.startLoops := by
  have hkeys : A.kept.keys.toList = [A.start] := toList_kept_of_not_carries h
  have hstates : A.trim.states = (idle A.alphabet A.startLoops).states := by
    apply Array.toList_inj.1
    show (A.kept.keys.map (A.system.row A.kept)).toList = [_]
    rw [Array.toList_map, hkeys, List.map_singleton, row_kept_start h]
  have hstart : A.trim.start < 1 := size_trim_of_not_carries h ▸ A.trim.start_lt_size
  exact eq_of_states_eq rfl hstates (Nat.lt_one_iff.1 hstart)

/-! ## Minimization -/

/-- Sorting the loops of an idle automaton permutes their labels. -/
theorem exists_idle_of_sortTransitions (S : Alphabet) (ls : List (Label × Label)) :
    ∃ ms, ms.Perm ls ∧ (idle S ls).sortTransitions = idle S ms := by
  let ts := ((idle S ls).transitions 0).mergeSort Arc.leLabels
  have hperm : ts.Perm ((idle S ls).transitions 0) := List.mergeSort_perm _ _
  have hloops : (ts.map Arc.labels).map (fun l => (⟨l.1, l.2, 0⟩ : Transition)) = ts := by
    rw [List.map_map, List.map_congr_left (g := id), List.map_id]
    intro t ht
    obtain ⟨l, -, rfl⟩ := List.mem_map.1 (hperm.mem_iff.1 ht)
    rfl
  refine ⟨ts.map Arc.labels, ?_, eq_of_states_eq rfl ?_ rfl⟩
  · exact (hperm.map Arc.labels).trans (.of_eq (map_labels_idle S ls))
  · show Array.map _ #[_] = #[State.mk false _]
    rw [hloops, List.map_toArray]
    rfl

/-- Of an automaton that accepts nothing, minimization leaves the loops that a deterministic
automaton with the same traces has at its start. -/
theorem exists_idle_of_minimize (hM : A.minimize = .ok M) (h : ¬ ∃ ls, A.HasLabels ls) :
    ∃ B ls, A.Determinized B ∧ ls.Perm B.startLoops ∧ M = idle A.alphabet ls := by
  obtain ⟨B, hB, rfl⟩ := minimize_eq_ok hM
  have hcarries : ¬ ∃ ls, B.Carries ls := fun ⟨ls, hls⟩ => h ⟨ls, hB.carries_iff.1 hls⟩
  have hordered := ordered_sortTransitions (deterministic_trim hB.deterministic)
  obtain ⟨ls, hperm, hsort⟩ := exists_idle_of_sortTransitions B.alphabet B.startLoops
  rw [trim_eq_idle hcarries, hsort] at hordered ⊢
  refine ⟨B, ls, hB, hperm, ?_⟩
  rw [(canonical_of_size_eq_one hordered rfl).numberedQuotient_eq, hB.alphabet_eq]

theorem not_hasLabels_of_rejects (hrejects : ∀ w, A.accepts w = false) :
    ¬ ∃ ls, A.HasLabels ls := by
  rintro ⟨ls, hls⟩
  have haccepts : A.accepts (spellLabels .input ls) = true :=
    accepts_iff_exists_relates.2 ⟨_, relates_iff_hasLabels.2 ⟨ls, hls, rfl, rfl⟩⟩
  rw [hrejects] at haccepts
  cases haccepts

/-- Without words and without symbols, nothing but the start is left. -/
theorem minimize_eq_empty (hM : A.minimize = .ok M) (hrejects : ∀ w, A.accepts w = false)
    (hsilent : ∀ q, ∀ t ∈ A.transitions q, t.isSilent = true) : M = empty A.alphabet := by
  obtain ⟨-, ls, -, -, rfl⟩ := exists_idle_of_minimize hM (not_hasLabels_of_rejects hrejects)
  rw [idle_eq_empty_iff]
  refine List.eq_nil_iff_forall_not_mem.2 fun l hl => ?_
  -- a loop would be silent like all other transitions, but a minimal automaton has none of those
  have ht := List.mem_map_of_mem (f := fun l => (⟨l.1, l.2, 0⟩ : Transition)) hl
  rw [← transitions_idle A.alphabet] at ht
  obtain ⟨q, u, hu, hulabels⟩ := exists_transition_of_minimize hM ht
  have hloud := (ordered_minimize hM).deterministic.isSilent_eq_false 0 _ ht
  rw [← isSilent_of_labels_eq hulabels, hsilent q u hu] at hloud
  cases hloud

/-! ## Explorations -/

/-- The start of an explored automaton has the loops of the start that was explored. -/
theorem mem_startLoops_explore_iff {κ : Type} [Ord κ] [Std.TransOrd κ] [Std.LawfulEqOrd κ]
    {T : TransitionSystem κ} {operation : Operation} (hA : T.explore S operation = .ok A) :
    l ∈ A.startLoops ↔ ∃ a ∈ T.arcs T.start, a.labels = l ∧ a.target = T.start := by
  obtain ⟨h, -, rfl⟩ := TransitionSystem.explore_eq_ok hA
  have hstart := TransitionSystem.getElem?_start_tabulate (M := T) (S := S) (h := h)
  rw [mem_startLoops_iff]
  constructor
  · rintro ⟨t, ht, hlabels, hloop⟩
    obtain ⟨a, ha, hsame, htarget⟩ := (TransitionSystem.mem_transitions_tabulate hstart).1 ht
    rw [hloop, hstart] at htarget
    exact ⟨a, ha, hsame.trans hlabels, (Option.some.inj htarget).symm⟩
  · rintro ⟨a, ha, hlabels, htarget⟩
    refine ⟨a.withTarget _, (TransitionSystem.mem_transitions_tabulate hstart).2
      ⟨a, ha, rfl, ?_⟩, hlabels, rfl⟩
    rw [htarget]
    exact hstart

end Automaton

end FiniteState
