import FiniteState.Proofs.Explosion
import FiniteState.Proofs.Idle
import FiniteState.Proofs.Sampling
import Mathlib.Logic.Function.Iterate

/-!
# Automata that accept nothing

What trimming and minimization make of an automaton that accepts nothing is idle. Trimming leaves
the loops of the start. Minimization determinizes first, and leaves a loop for each pair of labels
that stays among the states where silent transitions lead from the start. So there is one form for
all automata of nothing only as far as they agree on these loops: different ones are told apart
when they are minimized, and a sampler walks in circles until it has taken all steps that it may.

* `Stays`, `Determinized.mem_startLoops_iff`: which loops are left.
* `Sampler.walk_idle`: a walk in an idle automaton.
* `eq_idle_of_not_acceptingPath`: trimming, minimization and walks.
-/

namespace FiniteState

/-! ## Walks -/

namespace Sampler

variable {ρ : Type} [RandomSource ρ] {S : Alphabet} {ls : List (Label × Label)}

/-- With loops to choose from, every step goes around one of them. -/
theorem walkFrom_idle (hls : ls ≠ []) (steps : Nat) (written : Word) (s : Sampler ρ) :
    walkFrom (Automaton.idle S ls) steps 0 written s
      = (none, (afterBelow ls.length)^[steps] s) := by
  induction steps generalizing written s with
  | zero => rfl
  | succ steps ih =>
    have hchoices : choices (Automaton.idle S ls) 0 = ls.length := List.length_map _
    have hstep := walkFrom_step (Automaton.idle S ls) steps 0 written s
    rw [hchoices] at hstep
    -- there are only the loops to choose from, since the state does not accept
    rcases hstep with ⟨hnone, -, -⟩ | ⟨hfinal, -⟩ | ⟨t, ht, hon⟩
    · exact absurd (List.map_eq_nil_iff.1 hnone) hls
    · cases hfinal
    · obtain ⟨l, -, rfl⟩ := List.mem_map.1 ht
      rw [hon, Function.iterate_succ_apply]
      exact ih _ _

/-- A walk in an idle automaton with loops goes around until its steps are used up, and draws a
number for each of them. Without loops it draws none. -/
theorem walk_idle (S : Alphabet) (ls : List (Label × Label)) (s : Sampler ρ) :
    walk (Automaton.idle S ls) s
      = (none, if ls = [] then s else (afterBelow ls.length)^[s.maxLength + 1] s) := by
  by_cases hls : ls = []
  · rw [if_pos hls, hls]
    rfl
  · rw [if_neg hls]
    exact walkFrom_idle hls (s.maxLength + 1) [] s

end Sampler

namespace Automaton

variable {A B M N : Automaton} {l : Label × Label}

/-! ## Loops of sets

Which loops minimization leaves is decided at the start of a deterministic automaton. In terms of
the automaton itself, their labels lead from the set of states at the start back to the same set. -/

/-- The labels, which are not silent, lead from the states where silent transitions lead from the
start to these states and no others. -/
def Stays (A : Automaton) (l : Label × Label) : Prop :=
  (l.1.isEpsilon && l.2.isEpsilon) = false
    ∧ A.successor (A.silentReach {A.start}) l = A.silentReach {A.start}

/-- A deterministic automaton has no silent transition, so that nothing more is reached. -/
theorem silentReach_eq_self (hA : A.system.Deterministic) (X : Set Nat) : A.silentReach X = X := by
  ext q
  constructor
  · rintro ⟨p, hp, ts, hpath, hsilent⟩
    cases hpath with
    | nil => exact hp
    | cons ht _ =>
      have hloud := hA.isSilent_eq_false _ _ ht
      rw [hsilent _ List.mem_cons_self] at hloud
      cases hloud
  · exact fun hq => ⟨q, hq, [], .nil q, nofun⟩

/-- In a deterministic automaton the loops at the start are the labels that the start stays
for. -/
theorem mem_startLoops_iff_stays (hA : A.system.Deterministic) :
    l ∈ A.startLoops ↔ A.Stays l := by
  rw [mem_startLoops_iff, Stays, successor, silentReach_eq_self hA, silentReach_eq_self hA]
  constructor
  · rintro ⟨t, ht, rfl, hloop⟩
    refine ⟨hA.isSilent_eq_false _ t ht, Set.ext fun q => ?_⟩
    constructor
    · rintro ⟨_, rfl, u, hu, hlabels, rfl⟩
      rw [hA.eq_of_labels hu ht hlabels]
      exact hloop
    · rintro rfl
      exact ⟨_, rfl, t, ht, rfl, hloop⟩
  · rintro ⟨-, hsets⟩
    obtain ⟨_, rfl, t, ht, hlabels, hloop⟩ := (Set.ext_iff.1 hsets A.start).2 rfl
    exact ⟨t, ht, hlabels, hloop⟩

/-- An arc of the subset construction from the start back to it. -/
theorem exists_loop_subsets_iff :
    (∃ a ∈ A.subsets.arcs A.subsets.start, a.labels = l ∧ a.target = A.subsets.start)
      ↔ A.Stays l := by
  rw [Stays, ← setOf_mem_start_subsets]
  constructor
  · rintro ⟨a, ha, rfl, hloop⟩
    refine ⟨A.deterministic_subsets.isSilent_eq_false _ a ha, ?_⟩
    obtain ⟨g, hg, rfl⟩ := mem_arcs_subsets_iff.1 ha
    rw [labels_withTarget, ← setOf_mem_target_subsets hg]
    exact congrArg (fun set : StateSet => {q | q ∈ set}) hloop
  · rintro ⟨hloud, hsets⟩
    -- the start stays in the set, so some member reads the labels
    have hstart : A.start ∈ A.successor {q | q ∈ A.subsets.start} l := by
      rw [hsets, setOf_mem_start_subsets]
      exact ⟨A.start, rfl, [], .nil _, nofun⟩
    obtain ⟨p, hp, t, ht, rfl⟩ := successor_nonempty_iff.1 ⟨_, hstart⟩
    obtain ⟨g, hg, hlabels⟩ :=
      exists_mem_groupByLabels (List.mem_flatMap.2 ⟨p, hp, ht⟩) hloud
    have ha := mem_arcs_subsets_iff.2 ⟨g, hg, rfl⟩
    refine ⟨_, ha, hlabels, ?_⟩
    -- both are reached, so they are equal if they have the same members
    refine A.injOn_reached_subsets
      (TransitionSystem.target_mem_reached (TransitionSystem.start_mem_reached _) ha)
      (TransitionSystem.start_mem_reached _) ?_
    exact (setOf_mem_target_subsets hg).trans (hlabels ▸ hsets)

/-- The loops at the start after determinization, said of the automaton itself. -/
theorem Determinized.mem_startLoops_iff (h : A.Determinized B) : l ∈ B.startLoops ↔ A.Stays l := by
  cases h with
  | self hA => exact mem_startLoops_iff_stays hA
  | subsets hB => exact (mem_startLoops_explore_iff hB).trans exists_loop_subsets_iff

/-! ## Nothing -/

/-- The minimal automaton has the loops that stay, in the order of their labels. -/
theorem exists_loops_of_minimize (hM : A.minimize = .ok M) (h : ¬ ∃ ls, A.HasLabels ls) :
    ∃ ls, M = idle A.alphabet ls ∧ ls.Pairwise LabelsLE ∧ ls.Nodup ∧ ∀ l, l ∈ ls ↔ A.Stays l := by
  obtain ⟨B, ls, hB, hperm, rfl⟩ := exists_idle_of_minimize hM h
  have hordered := ordered_minimize hM
  have hsorted := List.pairwise_map.2 (hordered.sorted 0)
  have hnodup := hordered.deterministic.nodup 0
  rw [show (idle A.alphabet ls).system.arcs 0 = (idle A.alphabet ls).transitions 0 from rfl,
    map_labels_idle] at hsorted hnodup
  exact ⟨ls, rfl, hsorted, hnodup, fun l => hperm.mem_iff.trans hB.mem_startLoops_iff⟩

/-- Automata that accept nothing have the same minimal automaton if the same labels stay. -/
theorem minimize_eq_iff_stays (hAB : B.alphabet = A.alphabet) (hA : ¬ ∃ ls, A.HasLabels ls)
    (hB : ¬ ∃ ls, B.HasLabels ls) (hM : A.minimize = .ok M) (hN : B.minimize = .ok N) :
    M = N ↔ ∀ l, A.Stays l ↔ B.Stays l := by
  obtain ⟨ls, rfl, hsorted, hnodup, hls⟩ := exists_loops_of_minimize hM hA
  obtain ⟨ms, rfl, hsorted', hnodup', hms⟩ := exists_loops_of_minimize hN hB
  rw [hAB, idle_eq_idle_iff]
  constructor
  · rintro rfl l
    exact (hls l).symm.trans (hms l)
  · intro hstays
    exact List.eq_of_sorted_of_mem_iff (fun _ _ => LabelsLE.antisymm) hsorted hsorted' hnodup
      hnodup' fun l => (hls l).trans ((hstays l).trans (hms l).symm)

/-- There are no loops if no transition leads from the start back to it. -/
theorem startLoops_eq_nil_iff :
    A.startLoops = [] ↔ ∀ t ∈ A.transitions A.start, t.target ≠ A.start := by
  simp only [List.eq_nil_iff_forall_not_mem, mem_startLoops_iff]
  constructor
  · exact fun h t ht hloop => h t.labels ⟨t, ht, rfl, hloop⟩
  · rintro h _ ⟨t, ht, -, hloop⟩
    exact h t ht hloop

/-- An automaton without accepting paths is trimmed to a single state with the loops of its start,
where walks go around, and minimized to a single state with the loops that stay. So it is trimmed
to the automaton of nothing exactly if its start has no loop, and minimized to it exactly if no
labels stay; minimal automata of two such automata are equal if the same labels stay. -/
theorem eq_idle_of_not_acceptingPath (A : Automaton) (h : ∀ ts, ¬ A.AcceptingPath ts) :
    A.trim = idle A.alphabet A.startLoops
      ∧ (A.trim = empty A.alphabet ↔ ∀ t ∈ A.transitions A.start, t.target ≠ A.start)
      ∧ (∀ (ρ : Type) [RandomSource ρ] (s : Sampler ρ),
          Sampler.walk A.trim s = (none, if A.trim = empty A.alphabet then s
            else (Sampler.afterBelow A.startLoops.length)^[s.maxLength + 1] s))
      ∧ ∀ M, A.minimize = .ok M →
          (∃ ls, M = idle A.alphabet ls ∧ ls.Pairwise LabelsLE ∧ ls.Nodup
              ∧ ∀ l, l ∈ ls ↔ A.Stays l)
            ∧ (M = empty A.alphabet ↔ ∀ l, ¬ A.Stays l)
            ∧ ∀ B N : Automaton, B.alphabet = A.alphabet → (∀ ts, ¬ B.AcceptingPath ts) →
              B.minimize = .ok N → (M = N ↔ ∀ l, A.Stays l ↔ B.Stays l) := by
  have hlabels : ∀ B : Automaton, (∀ ts, ¬ B.AcceptingPath ts) → ¬ ∃ ls, B.HasLabels ls :=
    fun B hB ⟨_, ts, hts, _⟩ => hB ts hts
  have hcarries : ¬ ∃ ls, A.Carries ls := by
    rintro ⟨ls, hls⟩
    obtain ⟨ts, hts, -⟩ := carries_iff_path.1 hls
    exact h ts hts
  have htrim := trim_eq_idle hcarries
  refine ⟨htrim, ?_, fun _ _ s => ?_,
    fun M hM => ⟨exists_loops_of_minimize hM (hlabels A h), ?_, ?_⟩⟩
  · rw [htrim, idle_eq_empty_iff, startLoops_eq_nil_iff]
  · simp only [htrim, idle_eq_empty_iff]
    exact Sampler.walk_idle _ _ s
  · obtain ⟨ls, rfl, -, -, hls⟩ := exists_loops_of_minimize hM (hlabels A h)
    simp only [idle_eq_empty_iff, List.eq_nil_iff_forall_not_mem, hls]
  · intro B N hB hnothing hN
    exact minimize_eq_iff_stays hB (hlabels A h) (hlabels B hnothing) hM hN

/-- Goes back and forth between two states that do not accept: by a silent transition, and by an a
on the way back. -/
def roundTrip : Automaton where
  alphabet := .abcd
  states := #[
    { transitions := [⟨.epsilon, .epsilon, 1⟩] },
    { transitions := [⟨.symbol ⟨0⟩, .symbol ⟨0⟩, 0⟩] }]
  start := 0
  start_lt := by decide
  target_lt := by decide

/-- An automaton found empty has no accepting path. -/
theorem not_acceptingPath_of_isEmpty (h : A.isEmpty = true) (ts : List Transition) :
    ¬ A.AcceptingPath ts :=
  fun hts => isEmpty_iff.1 h _ (carries_iff_path.2 ⟨ts, hts, rfl⟩)

/-- Trimming leaves nothing of `roundTrip`, but minimization leaves a loop that reads an a. -/
theorem roundTrip_idle :
    (∀ ts, ¬ roundTrip.AcceptingPath ts) ∧ roundTrip.trim = empty .abcd
      ∧ (∀ s : Sampler, Sampler.walk roundTrip.trim s = (none, s))
      ∧ roundTrip.minimize = .ok (idle .abcd [letter ⟨0⟩])
      ∧ ∀ l, roundTrip.Stays l ↔ l = letter ⟨0⟩ := by
  have hnothing := not_acceptingPath_of_isEmpty (A := roundTrip) (by cbv)
  have hminimize : roundTrip.minimize = .ok (idle .abcd [letter ⟨0⟩]) := by cbv
  obtain ⟨-, htrim, hwalk, hmin⟩ := eq_idle_of_not_acceptingPath roundTrip hnothing
  have hempty : roundTrip.trim = empty .abcd := htrim.2 (by decide)
  refine ⟨hnothing, hempty, fun s => (hwalk _ s).trans ?_, hminimize, fun l => ?_⟩
  · exact congrArg (Prod.mk none) (if_pos hempty)
  · obtain ⟨⟨ls, hidle, -, -, hls⟩, -⟩ := hmin _ hminimize
    rw [← hls, ← idle_eq_idle_iff.1 hidle, List.mem_singleton]

/-- Reads any word, but does not accept. -/
def idleOverLetters : Automaton := idle .abcd [letter ⟨0⟩, letter ⟨1⟩, letter ⟨2⟩, letter ⟨3⟩]

/-- All words without all words are nothing, but what is left has a loop for every letter, also when
it is trimmed and when it is minimized, and a walk goes around in it. -/
theorem sigmaStar_difference_self_ne_empty :
    (sigmaStar .abcd).difference (sigmaStar .abcd) = .ok idleOverLetters
      ∧ (∀ ts, ¬ idleOverLetters.AcceptingPath ts)
      ∧ idleOverLetters.trim = idleOverLetters
      ∧ idleOverLetters.minimize = .ok idleOverLetters
      ∧ idleOverLetters ≠ empty .abcd
      ∧ ∃ s : Sampler, Sampler.walk idleOverLetters.trim s ≠ (none, s) := by
  have htrim : idleOverLetters.trim = idleOverLetters := by cbv
  refine ⟨by cbv, not_acceptingPath_of_isEmpty (by cbv), htrim, by cbv, fun h => ?_,
    ⟨.ofSeed 1, 0⟩, ?_⟩
  · exact List.cons_ne_nil _ _ (idle_eq_empty_iff.1 h)
  · rw [htrim, idleOverLetters, Sampler.walk_idle, ne_eq, Prod.mk.injEq]
    decide +kernel

end Automaton

end FiniteState
