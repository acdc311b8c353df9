import FiniteState.Proofs.Lists
import FiniteState.Proofs.Ceiling

/-!
# Removing silent transitions

A state takes over what its closure under silent transitions can do: it accepts if a state of the
closure does, and it has the transitions of the closure that are not silent, each of them once. What
it accepts is then what it accepted before, silent labels left out. Trimming drops the states that
were entered by silent transitions only, and keeps the others in their order.

* `acceptsFrom_withoutSilent_iff`: what a state accepts without silent transitions.
* `standsFor_trim_withoutSilent`: what is left are states of the automaton, and transitions of it.
* `removeEpsilon_exact`: nothing but the silent transitions is removed.
-/

namespace FiniteState

namespace Automaton

variable {A : Automaton} {q : Nat}

/-! ## Closures of single states -/

/-- The union of closures of one state is its closure. -/
theorem unionOfClosures_singleton (hq : q < A.size) :
    unionOfClosures A.silentClosures [q] = A.silentClosure [q] := by
  rw [unionOfClosures, get_silentClosures, if_pos hq]

/-- The closure of a state holds what is reached from it by silent paths. -/
theorem mem_silentClosure_iff (hq : q < A.size) {p : Nat} :
    p ∈ A.silentClosure [q] ↔ ∃ ts, A.Path q ts p ∧ ∀ t ∈ ts, t.isSilent = true := by
  rw [← unionOfClosures_singleton hq, mem_unionOfClosures_iff]
  simp [hq]

/-- No silent transition leads out of a closure. -/
theorem silentlyClosed_silentClosure (hq : q < A.size) :
    A.SilentlyClosed (A.silentClosure [q]) := by
  rw [← unionOfClosures_singleton hq]
  exact A.silentlyClosed_unionOfClosures [q]

theorem self_mem_silentClosure (hq : q < A.size) : q ∈ A.silentClosure [q] :=
  (mem_silentClosure_iff hq).2 ⟨[], .nil q, by simp⟩

/-! ## Merged states -/

@[simp] theorem size_withoutSilent (A : Automaton) : A.withoutSilent.size = A.size := by
  simp [size, withoutSilent, stateNumbers]

/-- A state is merged with the states of its closure. -/
theorem state_withoutSilent (hq : q < A.size) :
    A.withoutSilent.state q = A.mergedState (A.silentClosure [q]) := by
  rw [state_eq_getElem (A.size_withoutSilent.symm ▸ hq : q < A.withoutSilent.size)]
  simp [withoutSilent, stateNumbers]

/-- A merged state accepts if a state of the closure does. -/
theorem isFinal_withoutSilent_iff (hq : q < A.size) :
    A.withoutSilent.isFinal q = true ↔ ∃ p ∈ A.silentClosure [q], A.isFinal p = true := by
  rw [isFinal, state_withoutSilent hq, mergedState, anyFinal_iff]

/-- A merged state has the transitions of the closure, less the silent ones. -/
theorem mem_transitions_withoutSilent_iff (hq : q < A.size) {t : Transition} :
    t ∈ A.withoutSilent.transitions q
      ↔ t.isSilent = false ∧ ∃ p ∈ A.silentClosure [q], t ∈ A.transitions p := by
  rw [transitions, state_withoutSilent hq, mergedState, List.mem_eraseDups, List.mem_filter,
    List.mem_flatMap, Bool.not_eq_true', and_comm]

theorem isSilent_of_withoutSilent {t : Transition} (ht : t ∈ A.withoutSilent.transitions q) :
    t.isSilent = false := by
  have hq : q < A.size := A.size_withoutSilent ▸ lt_size_of_mem_transitions ht
  exact ((mem_transitions_withoutSilent_iff hq).1 ht).1

/-- Merging repeats no transition, though closures overlap. -/
theorem nodup_transitions_withoutSilent (A : Automaton) (q : Nat) :
    (A.withoutSilent.transitions q).Nodup := by
  by_cases hq : q < A.size
  · rw [transitions, state_withoutSilent hq]
    exact nodup_eraseDups _
  · rw [transitions, state_of_size_le (A.size_withoutSilent.le.trans (Nat.le_of_not_lt hq))]
    exact List.nodup_nil

/-- A state accepts what it accepted before, silent labels left out. -/
theorem acceptsFrom_withoutSilent_iff (hq : q < A.size) {ls : List (Label × Label)} :
    A.withoutSilent.system.AcceptsFrom q ls
      ↔ ∃ raw, A.system.AcceptsFrom q raw ∧ audible raw = ls := by
  -- by induction on what is heard: each merged transition stands for a silent path and one step
  induction ls generalizing q with
  | nil =>
    rw [TransitionSystem.acceptsFrom_nil_iff]
    show A.withoutSilent.isFinal q = true ↔ _
    rw [isFinal_withoutSilent_iff hq]
    constructor
    · rintro ⟨p, hp, hfinal⟩
      obtain ⟨ts, hpath, hts⟩ := (mem_silentClosure_iff hq).1 hp
      obtain ⟨silent, hsilent, haudible⟩ := trace_of_silent_path hpath hts
      exact ⟨silent, ⟨p, hsilent, hfinal⟩, haudible⟩
    · rintro ⟨raw, ⟨p, htrace, hfinal⟩, hraw⟩
      refine ⟨p, ?_, hfinal⟩
      exact (silentlyClosed_silentClosure hq).mem_of_trace htrace hraw (self_mem_silentClosure hq)
  | cons l ls ih =>
    rw [TransitionSystem.acceptsFrom_cons_iff]
    constructor
    · rintro ⟨t, ht, rfl, haccepts⟩
      obtain ⟨haudible, p, hp, ht⟩ := (mem_transitions_withoutSilent_iff hq).1 ht
      obtain ⟨raw, ⟨f, htrace, hfinal⟩, rfl⟩ := (ih (target_lt_size ht)).1 haccepts
      obtain ⟨ts, hpath, hts⟩ := (mem_silentClosure_iff hq).1 hp
      obtain ⟨silent, hsilent, hnone⟩ := trace_of_silent_path hpath hts
      refine ⟨silent ++ t.labels :: raw, ⟨f, hsilent.append (.cons ht htrace), hfinal⟩, ?_⟩
      rw [audible_append, hnone, List.nil_append, audible_cons_of_not_silent haudible]
    · rintro ⟨raw, ⟨f, htrace, hfinal⟩, hraw⟩
      obtain ⟨p, hp, t, ht, haudible, hlabels, raw', htrace', hraw'⟩ :=
        (silentlyClosed_silentClosure hq).exists_transition htrace hraw (self_mem_silentClosure hq)
      refine ⟨t, (mem_transitions_withoutSilent_iff hq).2 ⟨haudible, p, hp, ht⟩, hlabels, ?_⟩
      exact (ih (target_lt_size ht)).2 ⟨raw', ⟨f, htrace', hfinal⟩, hraw'⟩

/-- Merging states keeps the label pairs. -/
theorem hasLabels_withoutSilent_iff {ls : List (Label × Label)} :
    A.withoutSilent.HasLabels ls ↔ A.HasLabels ls := by
  rw [hasLabels_iff_carries_of_audible fun _ _ => isSilent_of_withoutSilent, hasLabels_iff_carries]
  exact acceptsFrom_withoutSilent_iff A.start_lt_size

/-! ## The result -/

/-- The states of `B` stand for states of `A`, in their order, and can do what these can once they
have gone along silent transitions. -/
structure StandsFor (B A : Automaton) (origin : Nat → Nat) : Prop where
  start : origin B.start = A.start
  lt : ∀ i j, i < j → j < B.size → origin i < origin j
  isFinal_iff : ∀ i < B.size, B.isFinal i = true
    ↔ ∃ ts p, A.Path (origin i) ts p ∧ (∀ u ∈ ts, u.isSilent = true) ∧ A.isFinal p = true
  /-- There are no other transitions than those of `A`. -/
  exists_transition : ∀ i < B.size, ∀ t ∈ B.transitions i,
    ∃ ts p, A.Path (origin i) ts p ∧ (∀ u ∈ ts, u.isSilent = true)
      ∧ t.withTarget (origin t.target) ∈ A.transitions p
  /-- A transition that is not silent, one with epsilon on a single tape among them, is kept if an
  accepting state can be reached by it. -/
  kept : ∀ i < B.size, ∀ ts p, A.Path (origin i) ts p → (∀ u ∈ ts, u.isSilent = true) →
    ∀ t ∈ A.transitions p, t.isSilent = false →
      (∃ us f, A.Path t.target us f ∧ A.isFinal f = true) →
        ∃ j < B.size, origin j = t.target ∧ t.withTarget j ∈ B.transitions i

/-- Each remaining state stands for the state that it was merged from. -/
theorem standsFor_trim_withoutSilent (A : Automaton) :
    A.withoutSilent.trim.StandsFor A A.withoutSilent.origin := by
  have hlt : ∀ {i}, i < A.withoutSilent.trim.size → A.withoutSilent.origin i < A.size := by
    intro i hi
    rw [← A.size_withoutSilent]
    exact origin_lt_size hi
  constructor
  case start => exact A.withoutSilent.origin_start
  case lt => exact fun _ _ => origin_lt_origin
  case isFinal_iff =>
    intro i hi
    rw [isFinal_trim hi, isFinal_withoutSilent_iff (hlt hi)]
    constructor
    · intro ⟨p, hp, hfinal⟩
      obtain ⟨ts, hpath, hts⟩ := (mem_silentClosure_iff (hlt hi)).1 hp
      exact ⟨ts, p, hpath, hts, hfinal⟩
    · intro ⟨ts, p, hpath, hts, hfinal⟩
      exact ⟨p, (mem_silentClosure_iff (hlt hi)).2 ⟨ts, hpath, hts⟩, hfinal⟩
  case exists_transition =>
    intro i hi t ht
    have hmem := ((mem_transitions_trim_iff hi).1 ht).2
    obtain ⟨-, p, hp, hmem⟩ := (mem_transitions_withoutSilent_iff (hlt hi)).1 hmem
    obtain ⟨ts, hpath, hts⟩ := (mem_silentClosure_iff (hlt hi)).1 hp
    exact ⟨ts, p, hpath, hts, hmem⟩
  case kept =>
    intro i hi ts p hpath hts t ht haudible hends
    have hp := (mem_silentClosure_iff (hlt hi)).2 ⟨ts, hpath, hts⟩
    have hmem := (mem_transitions_withoutSilent_iff (hlt hi)).2 ⟨haudible, p, hp, ht⟩
    -- the target is on the way to an accepting state, so trimming leaves it
    have huseful : A.withoutSilent.Useful t.target := by
      obtain ⟨us, hus⟩ := exists_trace_origin hi
      obtain ⟨raw, hraw⟩ := acceptsFrom_iff_path.2 hends
      refine ⟨⟨_, hus.snoc hmem⟩, audible raw, ?_⟩
      exact (acceptsFrom_withoutSilent_iff (target_lt_size ht)).2 ⟨raw, hraw, rfl⟩
    obtain ⟨j, hj, horigin⟩ := exists_origin_eq_iff.2 (.inr huseful)
    refine ⟨j, hj, horigin, (mem_transitions_trim_iff hi).2 ⟨hj, ?_⟩⟩
    show t.withTarget (A.withoutSilent.origin j) ∈ _
    rw [horigin]
    exact hmem

/-- Within the state limit, removing the silent transitions succeeds. What is left has no silent
transition, none that is there twice, and no useless state but possibly the start; it relates the
same words, with the same pairs of labels along its accepting paths, and keeps all transitions that
are not silent. -/
theorem removeEpsilon_exact (A : Automaton) (hroom : A.size ≤ A.alphabet.stateLimit) :
    ∃ B, A.removeEpsilon = .ok B
      ∧ (∀ q, ∀ t ∈ B.transitions q, t.isSilent = false)
      ∧ (∀ q, (B.transitions q).Nodup)
      ∧ (∀ q < B.size, q ≠ B.start →
          (∃ ts, B.Path B.start ts q) ∧ ∃ ts f, B.Path q ts f ∧ B.isFinal f = true)
      ∧ (∀ x y, B.transduces x y = A.transduces x y)
      ∧ (∀ ls, B.HasLabels ls ↔ A.HasLabels ls)
      ∧ ∃ origin, B.StandsFor A origin := by
  have hsilent : ∀ q, ∀ t ∈ A.withoutSilent.trim.transitions q, t.isSilent = false := by
    intro q t ht
    obtain ⟨p, u, hu, hlabels⟩ := exists_transition_of_trim ht
    rw [← isSilent_of_labels_eq hlabels]
    exact isSilent_of_withoutSilent hu
  -- where nothing is silent all labels are heard, and trimming keeps those of accepting paths
  have hlabels : ∀ ls, A.withoutSilent.trim.HasLabels ls ↔ A.HasLabels ls := by
    intro ls
    rw [hasLabels_iff_carries_of_audible hsilent, carries_trim_iff,
      ← hasLabels_iff_carries_of_audible fun _ _ => isSilent_of_withoutSilent,
      hasLabels_withoutSilent_iff]
  refine ⟨_, Except.bind_eq_ok.2 ⟨(), requireRoom_of_le hroom, rfl⟩, hsilent,
    nodup_transitions_trim A.nodup_transitions_withoutSilent, ?_, ?_, hlabels,
    _, A.standsFor_trim_withoutSilent⟩
  · intro q hq hne
    exact useful_iff_path.1 (useful_trim_of_ne_start hq hne)
  · intro x y
    rw [Bool.eq_iff_iff, transduces_iff_relates, transduces_iff_relates]
    exact relates_congr hlabels x y

/-- Reads an a and writes a b, again and again. The start lies on a silent cycle, and the accepting
state is entered silently. -/
def lagging : Automaton where
  alphabet := .abcd
  states := #[
    { transitions := [.silent 1] },
    { transitions := [⟨.symbol ⟨0⟩, .epsilon, 2⟩, .silent 0] },
    { transitions := [⟨.epsilon, .symbol ⟨1⟩, 0⟩, ⟨.epsilon, .symbol ⟨1⟩, 3⟩] },
    { transitions := [.silent 0, .silent 4] },
    { accepting := true }]
  start := 0
  start_lt := by decide
  target_lt := by decide

/-- What is left of it without silent transitions. -/
def laggingAudibly : Automaton where
  alphabet := .abcd
  states := #[
    { transitions := [⟨.symbol ⟨0⟩, .epsilon, 1⟩] },
    { transitions := [⟨.epsilon, .symbol ⟨1⟩, 0⟩, ⟨.epsilon, .symbol ⟨1⟩, 2⟩] },
    { accepting := true, transitions := [⟨.symbol ⟨0⟩, .epsilon, 1⟩] }]
  start := 0
  start_lt := by decide
  target_lt := by decide

/-- The transitions with epsilon on a single tape are still there, and aa is related to bb. -/
theorem removeEpsilon_lagging :
    lagging.size ≤ lagging.alphabet.stateLimit
      ∧ lagging.removeEpsilon = .ok laggingAudibly
      ∧ laggingAudibly.transduces [⟨0⟩, ⟨0⟩] [⟨1⟩, ⟨1⟩] = true := by
  have hroom : lagging.size ≤ lagging.alphabet.stateLimit := by decide
  have hremoved : lagging.removeEpsilon = .ok laggingAudibly := by cbv
  obtain ⟨B, hB, -, -, -, htransduces, -⟩ := removeEpsilon_exact lagging hroom
  obtain rfl := Except.ok.inj (hremoved.symm.trans hB)
  refine ⟨hroom, hremoved, (htransduces _ _).trans ?_⟩
  cbv

end Automaton

end FiniteState
