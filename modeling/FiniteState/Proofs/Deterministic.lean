import FiniteState.Automaton.Determinize
import FiniteState.Proofs.Trace

/-!
# Deterministic systems

A system is deterministic if no arc is silent and no key has two arcs with the same labels. Then a
key and a list of labels determine the trace, and the pair language consists of the traces.

* `isDeterministic_iff`: the test on automata decides this.
* `Deterministic.tabulate`: tabulation keeps it.
-/

namespace FiniteState

theorem Arc.sameLabels_iff {κ ι : Type} {a : Arc κ} {b : Arc ι} :
    a.sameLabels b = true ↔ a.labels = b.labels := by
  simp [sameLabels, labels]

/-- An arc is silent if it is so on both tapes. -/
theorem Arc.isSilent_eq {κ : Type} (a : Arc κ) :
    a.isSilent = (a.labels.1.isEpsilon && a.labels.2.isEpsilon) := rfl

namespace TransitionSystem

variable {κ : Type} {M : TransitionSystem κ}

/-- No arc is silent, and arcs of one key have different labels. -/
structure Deterministic (M : TransitionSystem κ) : Prop where
  isSilent_eq_false : ∀ k, ∀ a ∈ M.arcs k, a.isSilent = false
  nodup : ∀ k, ((M.arcs k).map Arc.labels).Nodup

/-- In a deterministic system arcs of one state with the same labels are one arc. -/
theorem Deterministic.eq_of_labels (hM : M.Deterministic) {k : κ} {a b : Arc κ} (ha : a ∈ M.arcs k)
    (hb : b ∈ M.arcs k) (h : a.labels = b.labels) : a = b :=
  List.inj_on_of_nodup_map (hM.nodup k) ha hb h

/-- A deterministic system has one state after given labels. -/
theorem Deterministic.trace_unique (hM : M.Deterministic) {k l l' : κ} {ls : List (Label × Label)}
    (h : M.Trace k ls l) (h' : M.Trace k ls l') : l = l' := by
  induction h with
  | nil => exact trace_nil_iff.1 h'
  | cons ha _ ih =>
    obtain ⟨b, hb, hlabels, h'⟩ := trace_cons_iff.1 h'
    rw [hM.eq_of_labels hb ha hlabels] at h'
    exact ih h'

/-- No label along a trace is left out where no arc is silent. -/
theorem audible_eq (hM : ∀ k, ∀ a ∈ M.arcs k, a.isSilent = false) {k l : κ}
    {ls : List (Label × Label)} (h : M.Trace k ls l) : audible ls = ls := by
  induction h with
  | nil => rfl
  | cons ha _ ih =>
    have hsilent := hM _ _ ha
    rw [Arc.isSilent_eq] at hsilent
    rw [audible, List.filter_cons_of_pos (by rw [hsilent]; rfl)]
    exact congrArg (_ :: ·) ih

/-- In a deterministic system, what is accepted after an initial segment is accepted from the key
that the segment leads to. -/
theorem Deterministic.acceptsFrom_append_iff (hM : M.Deterministic) {k l : κ}
    {us vs : List (Label × Label)} (h : M.Trace k us l) :
    M.AcceptsFrom k (us ++ vs) ↔ M.AcceptsFrom l vs := by
  constructor
  · rintro ⟨m, hm, hfinal⟩
    obtain ⟨l', hl', hvs⟩ := trace_append_iff.1 hm
    rw [hM.trace_unique h hl']
    exact ⟨m, hvs, hfinal⟩
  · rintro ⟨m, hm, hfinal⟩
    exact ⟨m, h.append hm, hfinal⟩

/-! ## Tabulation -/

variable [Ord κ] {S : Alphabet} {m : Numbering κ} {h : M.start ∈ m}

/-- A row has the labels of the arcs, less those that lead out of the numbering. -/
theorem map_labels_row_sublist (M : TransitionSystem κ) (m : Numbering κ) (k : κ) :
    List.Sublist ((M.row m k).transitions.map Arc.labels) ((M.arcs k).map Arc.labels) := by
  rw [row]
  induction M.arcs k with
  | nil => exact List.Sublist.slnil
  | cons a as ih =>
    rw [List.filterMap_cons]
    cases m.number? a.target with
    | none => exact ih.cons _
    | some i => exact ih.cons_cons _

/-- The transitions of a tabulated state are a row, and there are none outside the table. -/
theorem transitions_tabulate_eq_nil_or_row (q : Nat) :
    (M.tabulate S m h).transitions q = []
      ∨ ∃ k, (M.tabulate S m h).transitions q = (M.row m k).transitions := by
  cases hk : m.toList[q]? with
  | none =>
    left
    rw [List.getElem?_eq_none_iff, Numbering.length_toList, ← size_tabulate (M := M) (S := S)
      (h := h)] at hk
    rw [Automaton.transitions, Automaton.state_of_size_le hk]
  | some k => exact .inr ⟨k, by rw [Automaton.transitions, state_tabulate hk]⟩

/-- The automaton written down for a deterministic system is deterministic. -/
theorem Deterministic.tabulate (hM : M.Deterministic) :
    (M.tabulate S m h).system.Deterministic := by
  -- a row has some of the arcs of its key, so what holds of these holds of it
  have hrow := transitions_tabulate_eq_nil_or_row (M := M) (S := S) (m := m) (h := h)
  constructor
  · intro q t ht
    rcases hrow q with hq | ⟨k, hq⟩
    · have ht' : t ∈ (M.tabulate S m h).transitions q := ht
      rw [hq] at ht'
      exact absurd ht' List.not_mem_nil
    · have hmem : t.labels ∈ (M.arcs k).map Arc.labels := by
        refine (map_labels_row_sublist M m k).subset (List.mem_map_of_mem ?_)
        rw [← hq]
        exact ht
      obtain ⟨a, ha, hlabels⟩ := List.mem_map.1 hmem
      rw [Arc.isSilent_eq, ← hlabels]
      exact hM.isSilent_eq_false k a ha
  · intro q
    show (((M.tabulate S m h).transitions q).map Arc.labels).Nodup
    rcases hrow q with hq | ⟨k, hq⟩
    · rw [hq]
      exact List.nodup_nil
    · rw [hq]
      exact (hM.nodup k).sublist (map_labels_row_sublist M m k)

theorem Deterministic.explore [Std.TransOrd κ] [Std.LawfulEqOrd κ] {S : Alphabet}
    {operation : Operation} {A : Automaton} (hM : M.Deterministic)
    (hA : M.explore S operation = .ok A) : A.system.Deterministic := by
  obtain ⟨hstart, -, rfl⟩ := explore_eq_ok hA
  exact hM.tabulate

end TransitionSystem

namespace Automaton

variable {A : Automaton}

/-- The check for distinct labels finds any repetition. -/
theorem distinctLabels_iff {ts : List Transition} :
    distinctLabels ts = true ↔ (ts.map Arc.labels).Nodup := by
  induction ts with
  | nil => simp [distinctLabels]
  | cons t ts ih =>
    rw [distinctLabels, Bool.and_eq_true, ih, List.map_cons, List.nodup_cons, List.all_eq_true]
    refine and_congr_left fun _ => ?_
    constructor
    · intro h hmem
      obtain ⟨u, hu, hlabels⟩ := List.mem_map.1 hmem
      have hne := h u hu
      rw [Arc.sameLabels_iff.2 hlabels.symm] at hne
      cases hne
    · intro h u hu
      rw [Bool.not_eq_true', Bool.eq_false_iff]
      exact fun hsame => h (List.mem_map.2 ⟨u, hu, (Arc.sameLabels_iff.1 hsame).symm⟩)

/-- A number outside the table names a state without transitions. -/
theorem transitions_eq_nil_or_mem (A : Automaton) (q : Nat) :
    A.transitions q = [] ∨ A.state q ∈ A.states := by
  by_cases hq : q < A.states.size
  · exact .inr (state_eq_getElem hq ▸ Array.getElem_mem hq)
  · exact .inl (by rw [transitions, state_of_size_le (by omega)])

/-- The check for determinism looks at every state, which is what determinism says. -/
theorem isDeterministic_iff : A.isDeterministic = true ↔ A.system.Deterministic := by
  rw [isDeterministic, Array.all_eq_true_iff_forall_mem]
  constructor
  · intro h
    constructor
    · intro q t ht
      have hs := h _ (mem_states_of_mem_transitions ht)
      have ht' := List.all_eq_true.1 (Bool.and_eq_true_iff.1 hs).1 t ht
      simpa using ht'
    · intro q
      show ((A.transitions q).map Arc.labels).Nodup
      rcases A.transitions_eq_nil_or_mem q with hq | hq
      · rw [hq]
        exact List.nodup_nil
      · exact distinctLabels_iff.1 (Bool.and_eq_true_iff.1 (h _ hq)).2
  · intro h s hs
    obtain ⟨q, hq, rfl⟩ := Array.mem_iff_getElem.1 hs
    rw [← state_eq_getElem hq, Bool.and_eq_true]
    refine ⟨List.all_eq_true.2 fun t ht => ?_, distinctLabels_iff.2 (h.nodup q)⟩
    rw [h.isSilent_eq_false q t ht]
    rfl

/-- Without silent transitions, the pair language consists of the labels of the accepting paths as
they are. -/
theorem hasLabels_iff_carries_of_audible (hA : ∀ q, ∀ t ∈ A.transitions q, t.isSilent = false)
    {ls : List (Label × Label)} : A.HasLabels ls ↔ A.Carries ls := by
  rw [hasLabels_iff_carries]
  constructor
  · rintro ⟨raw, hraw, rfl⟩
    obtain ⟨q, htrace, -⟩ := id hraw
    rwa [TransitionSystem.audible_eq hA htrace]
  · intro hls
    obtain ⟨q, htrace, -⟩ := id hls
    exact ⟨ls, hls, TransitionSystem.audible_eq hA htrace⟩

/-- A deterministic automaton has no silent arc, so its label pairs are those on its traces. -/
theorem hasLabels_iff_carries_of_deterministic (hA : A.system.Deterministic)
    {ls : List (Label × Label)} : A.HasLabels ls ↔ A.Carries ls :=
  hasLabels_iff_carries_of_audible hA.isSilent_eq_false

end Automaton

end FiniteState
