import FiniteState.Proofs.Removal
import Mathlib.Data.Set.Card

/-!
# State explosion

A construction fails because of the state limit exactly if it needs more states than the limit
admits. For disjoint unions the number of states is a sum. For a product it is the number of pairs
that can be reached, and for a subset construction the number of sets: a search numbers each key
once when it meets it, in whatever order, so it overflows exactly if there are more keys than it may
number.

* `Search.overflow_iff`, `Search.ends_run`: when a search overflows, and that it ends.
* `reached_product`, `image_reached_subsets`: the keys of the two explorations.
* `Needs`: a construction that explodes exactly beyond a number of states.
* `needs_states`: the numbers of all operations.
-/

namespace FiniteState

/-! ## Searches

A search has fuel and a limit. There is fuel for all keys that the limit admits, so the limit alone
decides how it ends. -/

/-- A list without repetitions has as many members as its length. -/
theorem encard_setOf_mem {α : Type} {as : List α} (h : as.Nodup) :
    {a | a ∈ as}.encard = (as.length : ℕ∞) := by
  classical
  rw [← List.coe_toFinset, Set.encard_coe_eq_coe_finsetCard, List.toFinset_card_of_nodup h]

namespace Search

variable {κ : Type} [Ord κ] [Std.TransOrd κ] [Std.LawfulEqOrd κ]
variable {next : κ → List κ} {starts : List κ} {limit : Nat}

/-- A search that does not overflow numbers every key that can be reached. -/
theorem encard_reaches (h : (run next limit starts).overflow = false) :
    {k | Reaches next starts k}.encard = ((run next limit starts).found.size : ℕ∞) := by
  rw [← Numbering.length_toList, ← encard_setOf_mem (Numbering.nodup_toList _)]
  congr 1
  ext k
  exact (mem_run_iff h).symm.trans Numbering.mem_iff_mem_toList

/-- A search overflows exactly if there are more keys to find than it may number. -/
theorem overflow_iff :
    (run next limit starts).overflow = true
      ↔ (limit : ℕ∞) < {k | Reaches next starts k}.encard := by
  constructor
  · intro h
    obtain ⟨ks, hnodup, hlength, hks⟩ := exists_nodup_of_overflow h
    calc (limit : ℕ∞) < (ks.length : ℕ∞) := by rw [hlength]; exact_mod_cast Nat.lt_succ_self limit
      _ = {k | k ∈ ks}.encard := (encard_setOf_mem hnodup).symm
      _ ≤ {k | Reaches next starts k}.encard := Set.encard_le_encard hks
  · intro h
    by_contra hover
    -- without overflow all keys are numbered, and no more than the limit are
    rw [encard_reaches (Bool.eq_false_iff.2 hover)] at h
    exact absurd (Nat.cast_lt.1 h) (Nat.not_lt.2 size_run_le)

/-- A search ends by itself: it has overflowed or expanded all keys that it found, so that it would
do nothing with more fuel. -/
structure Ends (next : κ → List κ) (limit : Nat) (starts : List κ) : Prop where
  stops : (run next limit starts).overflow = true
    ∨ ∀ k ∈ (run next limit starts).found, ∀ k' ∈ next k, k' ∈ (run next limit starts).found
  more_fuel : ∀ fuel, limit ≤ fuel →
    expandFrom next limit fuel 0 (visitAll limit ⟨.empty, false⟩ starts) = run next limit starts

/-- Beyond the last key found there is nothing to expand. -/
theorem expandFrom_of_size_le {i : Nat} {s : Search κ} (h : s.found.size ≤ i) (fuel : Nat) :
    expandFrom next limit fuel i s = s := by
  cases fuel with
  | zero => rfl
  | succ fuel =>
    have hkey : s.found.key? i = none := by
      rw [Numbering.key?_eq_getElem?, List.getElem?_eq_none_iff, Numbering.length_toList]
      exact h
    unfold expandFrom
    rw [hkey, ite_self]

/-- Fuel for all keys that the limit admits is enough. -/
theorem expandFrom_eq_of_fuel {fuel fuel' i : Nat} {s : Search κ} (hsize : s.found.size ≤ limit)
    (hfuel : limit ≤ i + fuel) (hfuel' : limit ≤ i + fuel') :
    expandFrom next limit fuel i s = expandFrom next limit fuel' i s := by
  -- by induction on the fuel: a key is expanded with each step, and there are at most `limit`
  induction fuel generalizing fuel' i s with
  | zero =>
    have hdone : s.found.size ≤ i := by omega
    rw [expandFrom_of_size_le hdone, expandFrom_of_size_le hdone]
  | succ fuel ih =>
    cases fuel' with
    | zero =>
      have hdone : s.found.size ≤ i := by omega
      rw [expandFrom_of_size_le hdone, expandFrom_of_size_le hdone]
    | succ fuel' =>
      unfold expandFrom
      split
      · rfl
      · split
        · rfl
        · exact ih (size_visitAll_le hsize _) (by omega) (by omega)

/-- Every search comes to an end within its fuel. -/
theorem ends_run (next : κ → List κ) (limit : Nat) (starts : List κ) :
    Ends next limit starts := by
  constructor
  · by_cases hover : (run next limit starts).overflow = true
    · exact .inl hover
    · refine .inr fun k hk k' hk' => ?_
      rw [mem_run_iff (Bool.eq_false_iff.2 hover)] at hk ⊢
      exact .step hk hk'
  · intro fuel hfuel
    have hsize : (visitAll limit ⟨.empty, false⟩ starts : Search κ).found.size ≤ limit :=
      size_visitAll_le (Nat.zero_le limit) starts
    exact expandFrom_eq_of_fuel hsize (by omega) (by omega)

end Search

/-! ## Explorations

An exploration fails exactly if there are more keys to reach than the alphabet admits states, and
otherwise has one state for each of them. -/

/-- The keys that can be reached from the start. -/
def TransitionSystem.reached {κ : Type} (M : TransitionSystem κ) : Set κ :=
  {k | Reaches (fun k => (M.arcs k).map (·.target)) [M.start] k}

namespace TransitionSystem

variable {κ : Type} {M : TransitionSystem κ}

theorem start_mem_reached (M : TransitionSystem κ) : M.start ∈ M.reached :=
  Reaches.start List.mem_cons_self

theorem target_mem_reached {k : κ} (hk : k ∈ M.reached) {a : Arc κ} (ha : a ∈ M.arcs k) :
    a.target ∈ M.reached :=
  Reaches.step hk (List.mem_map_of_mem ha)

/-- What holds of the start and goes along arcs holds of every reached state. -/
theorem reached_induction {P : κ → Prop} (hstart : P M.start)
    (harc : ∀ k, P k → ∀ a ∈ M.arcs k, P a.target) {k : κ} (hk : k ∈ M.reached) : P k := by
  induction hk with
  | start hk => exact List.mem_singleton.1 hk ▸ hstart
  | step _ hk' ih =>
    obtain ⟨a, ha, rfl⟩ := List.mem_map.1 hk'
    exact harc _ ih a ha

end TransitionSystem

/-- A construction that may have `limit` states and needs `n`: it explodes, in one of the given
operations, exactly if it needs more than it may have; nothing else fails, and what it makes is
within the limit. -/
structure Needs (limit : Nat) (n : ℕ∞) (operations : List Operation)
    (x : Except Error Automaton) : Prop where
  explodes_iff : (∃ operation ∈ operations, x = .error (.stateExplosion operation limit))
    ↔ (limit : ℕ∞) < n
  error_eq : ∀ e, x = .error e → ∃ operation ∈ operations, e = .stateExplosion operation limit
  size_le : ∀ C, x = .ok C → C.size ≤ limit

namespace Needs

variable {limit : Nat} {n : ℕ∞} {operations : List Operation} {x : Except Error Automaton}
variable {C : Automaton}

/-- A success within the limit, with as many states as are needed at most. -/
theorem of_ok (hx : x = .ok C) (hn : n ≤ limit) (hsize : C.size ≤ limit) :
    Needs limit n operations x := by
  subst hx
  refine ⟨⟨?_, fun h => absurd h (not_lt.2 hn)⟩, nofun, fun D hD => ?_⟩
  · rintro ⟨_, -, h⟩
    cases h
  · cases hD
    exact hsize

/-- An explosion that is due to a need for more states than the limit. -/
theorem of_error {operation : Operation} (hx : x = .error (.stateExplosion operation limit))
    (hoperation : operation ∈ operations) (hn : (limit : ℕ∞) < n) :
    Needs limit n operations x := by
  subst hx
  refine ⟨⟨fun _ => hn, fun _ => ⟨operation, hoperation, rfl⟩⟩, fun e he => ?_, nofun⟩
  cases he
  exact ⟨operation, hoperation, rfl⟩

theorem of_subset {operations' : List Operation} (h : Needs limit n operations x)
    (hsubset : operations ⊆ operations') : Needs limit n operations' x := by
  refine ⟨⟨fun ⟨_, _, hx⟩ => ?_, fun hn => ?_⟩, fun e he => ?_, h.size_le⟩
  · obtain ⟨operation, hoperation, he⟩ := h.error_eq _ hx
    exact h.explodes_iff.1 ⟨operation, hoperation, hx.trans (congrArg _ he)⟩
  · obtain ⟨operation, hoperation, hx⟩ := h.explodes_iff.2 hn
    exact ⟨operation, hsubset hoperation, hx⟩
  · obtain ⟨operation, hoperation, he⟩ := h.error_eq e he
    exact ⟨operation, hsubset hoperation, he⟩

/-- What needs no more states than it may have succeeds. -/
theorem exists_ok (h : Needs limit n operations x) (hn : n ≤ limit) : ∃ C, x = .ok C := by
  cases hx : x with
  | ok C => exact ⟨C, rfl⟩
  | error e =>
    obtain ⟨operation, hoperation, rfl⟩ := h.error_eq e hx
    exact absurd (h.explodes_iff.1 ⟨operation, hoperation, hx⟩) (not_lt.2 hn)

/-- What is done with the result makes it no larger. -/
theorem map (h : Needs limit n operations x) {f : Automaton → Automaton}
    (hf : ∀ C, (f C).size ≤ C.size) :
    Needs limit n operations (x >>= fun C => pure (f C)) := by
  cases hx : x with
  | ok C =>
    refine of_ok rfl (not_lt.1 fun hn => ?_) ((hf C).trans (h.size_le C hx))
    obtain ⟨_, -, he⟩ := h.explodes_iff.2 hn
    cases hx.symm.trans he
  | error e =>
    obtain ⟨operation, hoperation, rfl⟩ := h.error_eq e hx
    exact of_error rfl hoperation (h.explodes_iff.1 ⟨operation, hoperation, hx⟩)

end Needs

/-- An operation that checks for room first needs the states that it asks for. -/
theorem needs_requireRoom (operation : Operation) (S : Alphabet) {n : Nat} {C : Automaton}
    (hsize : C.size ≤ n) :
    Needs S.stateLimit n [operation]
      (Automaton.requireRoom operation S n >>= fun _ => pure C) := by
  by_cases hroom : n ≤ S.stateLimit
  · rw [Automaton.requireRoom_of_le hroom]
    exact .of_ok rfl (Nat.cast_le.2 hroom) (hsize.trans hroom)
  · rw [Automaton.requireRoom, if_neg hroom]
    exact .of_error rfl List.mem_cons_self (Nat.cast_lt.2 (Nat.lt_of_not_le hroom))

namespace TransitionSystem

variable {κ : Type} [Ord κ] [Std.TransOrd κ] [Std.LawfulEqOrd κ]
variable {M : TransitionSystem κ} {S : Alphabet} {operation : Operation} {C : Automaton}

/-- The result of an exploration has as many states as are reached. -/
theorem size_of_explore (h : M.explore S operation = .ok C) : M.reached.encard = (C.size : ℕ∞) := by
  obtain ⟨hstart, hover, rfl⟩ := explore_eq_ok h
  rw [size_tabulate]
  exact Search.encard_reaches hover

/-- An exploration needs as many states as are reached. -/
theorem needs_explore (M : TransitionSystem κ) (S : Alphabet) (operation : Operation) :
    Needs S.stateLimit M.reached.encard [operation] (M.explore S operation) := by
  cases hx : M.explore S operation with
  | ok C =>
    obtain ⟨hstart, hover, rfl⟩ := explore_eq_ok hx
    have hsize : (M.tabulate S _ hstart).size ≤ S.stateLimit := by
      rw [size_tabulate]
      exact Search.size_run_le
    refine .of_ok rfl ?_ hsize
    rw [size_of_explore hx]
    exact Nat.cast_le.2 hsize
  | error e =>
    refine .of_error (congrArg _ (explore_eq_error hx)) List.mem_cons_self
      (Search.overflow_iff.1 ?_)
    -- the only other thing that could fail is that the start has no number
    by_contra hover
    have hover : (M.search S.stateLimit).overflow = false := Bool.eq_false_iff.2 hover
    rw [explore, dif_pos ⟨hover, (numbers_search hover).1⟩] at hx
    cases hx

/-- The explored automaton reads every letter in every state exactly if every key does. -/
theorem total_explore_iff {T : Alphabet} (h : M.explore S operation = .ok C) :
    C.Total T ↔ ∀ k ∈ M.reached, ∀ c, T.contains c = true →
      ∃ a ∈ M.arcs k, a.labels = Automaton.letter c := by
  obtain ⟨hstart, hover, rfl⟩ := explore_eq_ok h
  -- the keys that are reached are those with a number, that is, with a state
  have hnumber {k : κ} : k ∈ M.reached
      ↔ ∃ i : Nat, (M.search S.stateLimit).found.toList[i]? = some k := by
    rw [← List.mem_iff_getElem?, ← Numbering.mem_iff_mem_toList]
    exact (Search.mem_run_iff hover).symm
  constructor
  · intro htotal k hk c hc
    obtain ⟨i, hi⟩ := hnumber.1 hk
    have hlt : i < (M.tabulate S _ hstart).size := by
      rw [size_tabulate, ← Numbering.length_toList]
      exact (List.getElem?_eq_some_iff.1 hi).1
    obtain ⟨t, ht, hlabels⟩ := htotal i hlt c hc
    obtain ⟨a, ha, hsame, -⟩ := (mem_transitions_tabulate hi).1 ht
    exact ⟨a, ha, hsame.trans hlabels⟩
  · intro hkeys i hlt c hc
    rw [size_tabulate, ← Numbering.length_toList] at hlt
    have hi := List.getElem?_eq_getElem hlt
    have hk := hnumber.2 ⟨i, hi⟩
    obtain ⟨a, ha, hlabels⟩ := hkeys _ hk c hc
    obtain ⟨j, hj⟩ := hnumber.1 (target_mem_reached hk ha)
    exact ⟨a.withTarget j, (mem_transitions_tabulate hi).2 ⟨a, ha, rfl, hj⟩, hlabels⟩

end TransitionSystem

namespace Automaton

variable {A B C D : Automaton}

/-! ## Pairs of states -/

/-- The pairs of states that the automata reach side by side: alone by a transition that writes
nothing, or reads nothing, and together where one reads what the other writes. -/
inductive ReachablePair (A B : Automaton) : StatePair → Prop
  | start : ReachablePair A B ⟨A.start, B.start⟩
  | left {p q : Nat} {t : Transition} (h : ReachablePair A B ⟨p, q⟩) (ht : t ∈ A.transitions p)
      (hwrites : t.output = .epsilon) : ReachablePair A B ⟨t.target, q⟩
  | right {p q : Nat} {u : Transition} (h : ReachablePair A B ⟨p, q⟩) (hu : u ∈ B.transitions q)
      (hreads : u.input = .epsilon) : ReachablePair A B ⟨p, u.target⟩
  | both {p q : Nat} {t u : Transition} {s : Symbol} (h : ReachablePair A B ⟨p, q⟩)
      (ht : t ∈ A.transitions p) (hu : u ∈ B.transitions q) (hwrites : t.output = .symbol s)
      (hreads : u.input = .symbol s) : ReachablePair A B ⟨t.target, u.target⟩

/-- The product reaches the reachable pairs. -/
theorem reached_product (A B : Automaton) :
    (A.product B).reached = {k | A.ReachablePair B k} := by
  ext k
  constructor
  · -- by induction on the search one way and on the derivation the other
    refine TransitionSystem.reached_induction .start fun k hk a ha => ?_
    rcases mem_arcs_product_iff.1 ha with ⟨t, ht, ha⟩ | ha
    · rcases mem_leftArcs_iff.1 ha with ⟨hwrites, rfl⟩ | ⟨s, hwrites, u, hu, hreads, rfl⟩
      · exact .left hk ht hwrites
      · exact .both hk ht hu hwrites hreads
    · obtain ⟨u, hu, hreads, rfl⟩ := mem_rightArcs_iff.1 ha
      exact .right hk hu hreads
  · intro h
    induction h with
    | start => exact TransitionSystem.start_mem_reached _
    | left _ ht hwrites ih =>
      exact TransitionSystem.target_mem_reached ih
        (mem_arcs_product_iff.2 (.inl ⟨_, ht, mem_leftArcs_iff.2 (.inl ⟨hwrites, rfl⟩)⟩))
    | right _ hu hreads ih =>
      exact TransitionSystem.target_mem_reached ih
        (mem_arcs_product_iff.2 (.inr (mem_rightArcs_iff.2 ⟨_, hu, hreads, rfl⟩)))
    | both _ ht hu hwrites hreads ih =>
      exact TransitionSystem.target_mem_reached ih (mem_arcs_product_iff.2
        (.inl ⟨_, ht, mem_leftArcs_iff.2 (.inr ⟨_, hwrites, _, hu, hreads, rfl⟩)⟩))

/-! ## Sets of states

The keys of the subset construction are lists. They are ascending and without repetitions, so there
are as many of them as sets. -/

/-- The states that silent transitions lead to from those of a set. -/
def silentReach (A : Automaton) (X : Set Nat) : Set Nat :=
  {q | ∃ p ∈ X, ∃ ts, A.Path p ts q ∧ ∀ t ∈ ts, t.isSilent = true}

/-- The states that one transition with the labels leads to from those of a set, possibly followed
by silent transitions. -/
def successor (A : Automaton) (X : Set Nat) (l : Label × Label) : Set Nat :=
  A.silentReach {q | ∃ p ∈ X, ∃ t ∈ A.transitions p, t.labels = l ∧ t.target = q}

/-- The sets of states that are reached by sequences of labels. -/
inductive ReachableSet (A : Automaton) : Set Nat → Prop
  | start : ReachableSet A (A.silentReach {A.start})
  | step {X : Set Nat} {p : Nat} {t : Transition} (h : ReachableSet A X) (hp : p ∈ X)
      (ht : t ∈ A.transitions p) (haudible : t.isSilent = false) :
      ReachableSet A (A.successor X t.labels)

/-- Some set that is reached has no successor by some letter of Σ. -/
def Lacks (A : Automaton) : Prop :=
  ∃ X, A.ReachableSet X ∧ ∃ c, A.alphabet.contains c = true ∧ A.successor X (letter c) = ∅

/-- A union of closures is what the states reach silently. -/
theorem setOf_mem_unionOfClosures {states : List Nat} (hlt : ∀ q ∈ states, q < A.size) :
    {q | q ∈ unionOfClosures A.silentClosures states} = A.silentReach {q | q ∈ states} := by
  ext q
  rw [Set.mem_ofPred_eq, mem_unionOfClosures_iff]
  constructor
  · rintro ⟨p, hp, -, hpath⟩
    exact ⟨p, hp, hpath⟩
  · rintro ⟨p, hp, hpath⟩
    exact ⟨p, hp, hlt p hp, hpath⟩

/-- The subset construction starts from what the start reaches silently. -/
theorem setOf_mem_start_subsets (A : Automaton) :
    {q | q ∈ A.subsets.start} = A.silentReach {A.start} := by
  have hstart : {q | q ∈ A.subsets.start} = A.silentReach {q | q ∈ [A.start]} :=
    setOf_mem_unionOfClosures (List.forall_mem_singleton.2 A.start_lt_size)
  simp only [List.mem_singleton] at hstart
  exact hstart

/-- The set that an arc leads to. -/
theorem setOf_mem_target_subsets {set : StateSet} {g : Arc (List Nat)}
    (hg : g ∈ groupByLabels (set.flatMap A.transitions)) :
    {q | q ∈ unionOfClosures A.silentClosures g.target}
      = A.successor {q | q ∈ set} g.labels := by
  have hmem (q : Nat) : q ∈ g.target
      ↔ ∃ p ∈ set, ∃ t ∈ A.transitions p, t.labels = g.labels ∧ t.target = q := by
    simp only [mem_target_groupByLabels_iff hg, List.mem_flatMap]
    constructor
    · rintro ⟨t, ⟨p, hp, ht⟩, ht'⟩
      exact ⟨p, hp, t, ht, ht'⟩
    · rintro ⟨p, hp, t, ht, ht'⟩
      exact ⟨t, ⟨p, hp, ht⟩, ht'⟩
  rw [setOf_mem_unionOfClosures]
  · exact congrArg A.silentReach (Set.ext hmem)
  · intro q hq
    obtain ⟨_, -, _, ht, -, rfl⟩ := (hmem q).1 hq
    exact target_lt_size ht

/-- The state sets that are reached, as sets, are the reachable ones. -/
theorem image_reached_subsets (A : Automaton) :
    (fun set : StateSet => {q | q ∈ set}) '' A.subsets.reached = {X | A.ReachableSet X} := by
  ext X
  constructor
  · rintro ⟨set, hset, rfl⟩
    refine TransitionSystem.reached_induction (P := fun set => A.ReachableSet {q | q ∈ set})
      ?_ (fun set ih a ha => ?_) hset
    · exact A.setOf_mem_start_subsets ▸ .start
    · obtain ⟨g, hg, rfl⟩ := mem_arcs_subsets_iff.1 ha
      obtain ⟨t, ht, hlabels, haudible⟩ := exists_transition_of_mem_groupByLabels hg
      obtain ⟨p, hp, ht⟩ := List.mem_flatMap.1 ht
      show A.ReachableSet {q | q ∈ unionOfClosures A.silentClosures g.target}
      rw [setOf_mem_target_subsets hg, ← hlabels]
      exact .step ih hp ht haudible
  · intro h
    induction h with
    | start => exact ⟨_, TransitionSystem.start_mem_reached _, A.setOf_mem_start_subsets⟩
    | @step X p t _ hp ht haudible ih =>
      -- the set stands for X, and its group of the labels of t for what can be read next
      obtain ⟨set, hset, rfl⟩ := ih
      obtain ⟨g, hg, hlabels⟩ :=
        exists_mem_groupByLabels (List.mem_flatMap.2 ⟨p, hp, ht⟩) haudible
      refine ⟨_, TransitionSystem.target_mem_reached hset (mem_arcs_subsets_iff.2 ⟨g, hg, rfl⟩), ?_⟩
      rw [← hlabels]
      exact setOf_mem_target_subsets hg

/-- A set that determinization meets is an ascending list of distinct states. -/
theorem ascending_unionOfClosures (A : Automaton) (states : List Nat) :
    (unionOfClosures A.silentClosures states).Pairwise (· ≤ ·)
      ∧ (unionOfClosures A.silentClosures states).Nodup := by
  unfold unionOfClosures
  split
  · rw [get_silentClosures]
    split
    · refine ⟨pairwise_mergeSort_ble _, ?_⟩
      exact (List.mergeSort_perm _ Nat.ble).nodup_iff.2 (Numbering.nodup_toList _)
    · exact ⟨List.Pairwise.nil, List.nodup_nil⟩
  · have hsorted := pairwise_mergeSort_ble
      (states.flatMap fun q => (A.silentClosures.getD q (.pure [])).get)
    refine ⟨hsorted.sublist (List.eraseReps_sublist _), ?_⟩
    exact List.nodup_eraseReps (fun _ _ => Nat.le_antisymm) hsorted

/-- Sets are kept in ascending order, so different lists are different sets. -/
theorem injOn_reached_subsets (A : Automaton) :
    Set.InjOn (fun set : StateSet => {q | q ∈ set}) A.subsets.reached := by
  have hunion {set : StateSet} (h : set ∈ A.subsets.reached) :
      ∃ states, set = unionOfClosures A.silentClosures states := by
    obtain ⟨_, hstart, ls, hls⟩ := TransitionSystem.reaches_iff_trace.1 h
    exact exists_union_of_trace_subsets hls ⟨[A.start], List.mem_singleton.1 hstart⟩
  intro set hset set' hset' heq
  obtain ⟨states, rfl⟩ := hunion hset
  obtain ⟨states', rfl⟩ := hunion hset'
  obtain ⟨hsorted, hnodup⟩ := ascending_unionOfClosures A states
  obtain ⟨hsorted', hnodup'⟩ := ascending_unionOfClosures A states'
  have hperm := (List.perm_ext_iff_of_nodup hnodup hnodup').2 fun q => Set.ext_iff.1 heq q
  exact hperm.eq_of_pairwise (fun _ _ _ _ => Nat.le_antisymm) hsorted hsorted'

/-- Different state sets are different as sets, since they are sorted, so the reachable sets count
them. -/
theorem encard_reached_subsets (A : Automaton) :
    A.subsets.reached.encard = {X | A.ReachableSet X}.encard := by
  rw [← image_reached_subsets, A.injOn_reached_subsets.encard_image]

/-- The subset construction has a state for each set that is reached. -/
theorem encard_reachableSet (hD : A.determinize = .ok D) :
    {X | A.ReachableSet X}.encard = (D.size : ℕ∞) := by
  rw [← encard_reached_subsets]
  exact TransitionSystem.size_of_explore hD

/-! ## Complements

Whether a sink is needed can be told from the sets of states: one of them lacks a successor by a
letter. -/

/-- A set has a successor if some state of it has a transition with the labels. -/
theorem successor_nonempty_iff {X : Set Nat} {l : Label × Label} :
    (A.successor X l).Nonempty ↔ ∃ p ∈ X, ∃ t ∈ A.transitions p, t.labels = l := by
  constructor
  · rintro ⟨q, _, ⟨p, hp, t, ht, hlabels, -⟩, -⟩
    exact ⟨p, hp, t, ht, hlabels⟩
  · rintro ⟨p, hp, t, ht, hlabels⟩
    exact ⟨t.target, t.target, ⟨p, hp, t, ht, hlabels, rfl⟩, [], .nil _, nofun⟩

/-- A state set reads a letter if its set of states has a successor for it. -/
theorem exists_arc_subsets_iff {set : StateSet} {c : Symbol} :
    (∃ a ∈ A.subsets.arcs set, a.labels = letter c)
      ↔ (A.successor {q | q ∈ set} (letter c)).Nonempty := by
  rw [successor_nonempty_iff]
  constructor
  · rintro ⟨a, ha, hlabels⟩
    obtain ⟨g, hg, rfl⟩ := mem_arcs_subsets_iff.1 ha
    obtain ⟨t, ht, hsame, -⟩ := exists_transition_of_mem_groupByLabels hg
    obtain ⟨p, hp, ht⟩ := List.mem_flatMap.1 ht
    exact ⟨p, hp, t, ht, hsame.trans hlabels⟩
  · rintro ⟨p, hp, t, ht, hlabels⟩
    have haudible : t.isSilent = false := by
      rw [Arc.isSilent_eq, hlabels]
      rfl
    obtain ⟨g, hg, hsame⟩ := exists_mem_groupByLabels (List.mem_flatMap.2 ⟨p, hp, ht⟩) haudible
    exact ⟨_, mem_arcs_subsets_iff.2 ⟨g, hg, rfl⟩, hsame.trans hlabels⟩

/-- The subset construction is incomplete exactly if some set lacks a successor. -/
theorem total_determinize_iff (hD : A.determinize = .ok D) :
    D.Total A.alphabet ↔ ¬ A.Lacks := by
  rw [TransitionSystem.total_explore_iff hD, Lacks]
  simp only [exists_arc_subsets_iff, not_exists, not_and, ← ne_eq, ← Set.nonempty_iff_ne_empty]
  constructor
  · intro h X hX c hc
    obtain ⟨set, hset, rfl⟩ := (Set.ext_iff.1 A.image_reached_subsets X).2 hX
    exact h set hset c hc
  · intro h set hset c hc
    exact h _ ((Set.ext_iff.1 A.image_reached_subsets _).1 ⟨set, hset, rfl⟩) c hc

/-- An automaton that reads every letter in every state is found complete. -/
theorem isComplete_of_total (hA : A.Total A.alphabet) : A.isComplete = true := by
  refine Array.all_eq_true_iff_forall_mem.2 fun s hs => ?_
  obtain ⟨q, hq, rfl⟩ := Array.mem_iff_getElem.1 hs
  rw [List.isEmpty_iff, ← state_eq_getElem hq, List.eq_nil_iff_forall_not_mem]
  intro c hc
  obtain ⟨hc, hmissing⟩ := mem_missingLetters_iff.1 hc
  obtain ⟨t, ht, hlabels⟩ := hA q hq c hc
  exact hmissing t ht (Prod.mk.inj hlabels).1

/-! ## All operations -/

/-- Determinization needs a state for each reachable set. -/
theorem needs_determinize (A : Automaton) :
    Needs A.alphabet.stateLimit {X | A.ReachableSet X}.encard [.determinize] A.determinize := by
  rw [← encard_reached_subsets]
  exact A.subsets.needs_explore A.alphabet .determinize

/-- A product needs a state for each reachable pair, before it is trimmed. -/
theorem needs_product (A B : Automaton) (operation : Operation) :
    Needs A.alphabet.stateLimit {k | A.ReachablePair B k}.encard [operation]
      ((A.product B).explore A.alphabet operation >>= fun P => pure P.trim) := by
  rw [← reached_product]
  exact ((A.product B).needs_explore A.alphabet operation).map size_trim_le

/-- The sets read every letter unless some set lacks one, so that is when no sink is needed. -/
theorem isComplete_determinize_iff (hA : A.OverAlphabet) {D : Automaton}
    (hD : A.determinize = .ok D) : D.isComplete = true ↔ ¬ A.Lacks := by
  have halphabet := alphabet_determinize hD
  have hlettered : D.Lettered D.alphabet := halphabet ▸ lettered_determinize hA hD
  rw [← total_determinize_iff hD, ← halphabet]
  exact ⟨total_of_isComplete hlettered, isComplete_of_total⟩

open scoped Classical in
/-- A complement needs the determinized automaton, and a sink if some letter is missing there. -/
theorem needs_complement (hA : A.OverAlphabet) (hsymbols : A.alphabet.symbols ≠ []) :
    Needs A.alphabet.stateLimit ({X | A.ReachableSet X}.encard + if A.Lacks then 1 else 0)
      [.determinize, .complement] A.complement := by
  have hcomplement : A.complement
      = A.determinize >>= fun D => D.complete >>= fun C => pure C.flip := by
    unfold complement
    rw [requireComplementable_of_overAlphabet hA hsymbols]
    rfl
  rw [hcomplement]
  have hneeds := A.needs_determinize
  cases hD : A.determinize with
  | error e =>
    -- there are too many sets already, whether or not a sink is needed
    obtain ⟨operation, hoperation, rfl⟩ := hneeds.error_eq e hD
    obtain rfl := List.mem_singleton.1 hoperation
    refine .of_error rfl List.mem_cons_self ?_
    exact (hneeds.explodes_iff.1 ⟨_, hoperation, hD⟩).trans_le le_self_add
  | ok D =>
    -- the subset construction fits, so the sink decides
    rw [encard_reachableSet hD]
    show Needs _ _ _ (D.complete >>= fun C => pure C.flip)
    by_cases hlacks : A.Lacks
    · have hincomplete : ¬ D.isComplete = true := fun hcomplete =>
        (isComplete_determinize_iff hA hD).1 hcomplete hlacks
      rw [if_pos hlacks, complete, if_neg hincomplete, ← alphabet_determinize hD]
      have hroom := needs_requireRoom .complement D.alphabet D.size_withSink.le
      exact (hroom.map fun C => C.size_flip.le).of_subset (List.subset_cons_self _ _)
    · have hcomplete := (isComplete_determinize_iff hA hD).2 hlacks
      rw [if_neg hlacks, complete, if_pos hcomplete, add_zero]
      have hle := hneeds.size_le D hD
      exact .of_ok rfl (Nat.cast_le.2 hle) (D.size_flip.trans_le hle)

open scoped Classical in
/-- The number of states that decides whether an operation explodes: sums for disjoint unions, the
number of pairs or sets that are reached for explorations, before anything is trimmed, and one more
than the number of sets for a complement that needs a sink. All searches end. -/
theorem needs_states (A B : Automaton) (hAB : A.alphabet.symbols = B.alphabet.symbols) :
    Needs A.alphabet.stateLimit (1 + A.size + B.size : ℕ) [.union] (A.union B)
      ∧ Needs A.alphabet.stateLimit (A.size + B.size : ℕ) [.concat] (A.concat B)
      ∧ Needs A.alphabet.stateLimit (1 + A.size : ℕ) [.closure] A.star
      ∧ Needs A.alphabet.stateLimit (1 + A.size : ℕ) [.closure] A.plus
      ∧ Needs A.alphabet.stateLimit A.size [.removeEpsilon] A.removeEpsilon
      ∧ Needs A.alphabet.stateLimit {X | A.ReachableSet X}.encard [.determinize] A.determinize
      ∧ Needs A.alphabet.stateLimit {k | A.ReachablePair B k}.encard [.compose] (A.compose B)
      ∧ (A.isAcceptor = true → B.isAcceptor = true →
        Needs A.alphabet.stateLimit {k | A.ReachablePair B k}.encard [.intersection]
          (A.intersection B))
      ∧ (A.alphabet.symbols ≠ [] → A.OverAlphabet →
        Needs A.alphabet.stateLimit ({X | A.ReachableSet X}.encard + if A.Lacks then 1 else 0)
          [.determinize, .complement] A.complement)
      ∧ ∀ (κ : Type) [Ord κ] [Std.TransOrd κ] [Std.LawfulEqOrd κ] (next : κ → List κ)
        (limit : Nat) (starts : List κ), Search.Ends next limit starts := by
  have hclosure (acceptEmpty : Bool) :
      Needs A.alphabet.stateLimit (1 + A.size : ℕ) [.closure] (A.closureWith acceptEmpty) :=
    needs_requireRoom .closure A.alphabet (A.size_loop acceptEmpty).le
  refine ⟨?union, ?concat, hclosure true, hclosure false, ?removeEpsilon, A.needs_determinize,
    ?compose, fun hA hB => ?intersection, fun hsymbols hA => needs_complement hA hsymbols,
    fun κ _ _ _ next limit starts => Search.ends_run next limit starts⟩
  case union =>
    rw [union, requireCompatible_of_eq hAB]
    exact needs_requireRoom .union A.alphabet (size_sum A B).le
  case concat =>
    rw [concat, concatWith, requireCompatible_of_eq hAB]
    exact needs_requireRoom .concat A.alphabet (size_sequence A B false).le
  case removeEpsilon =>
    exact needs_requireRoom .removeEpsilon A.alphabet
      (A.withoutSilent.size_trim_le.trans A.size_withoutSilent.le)
  case compose =>
    rw [compose, requireCompatible_of_eq hAB]
    exact needs_product A B .compose
  case intersection =>
    rw [intersection, requireCompatible_of_eq hAB, hA, hB]
    exact needs_product A B .intersection

/-- Accepts the words of a and b whose last letter but one is a. Which of the last two letters are a
is told apart by four sets of its three states. -/
def lastButOneA : Automaton where
  alphabet := Alphabet.abcd.withStateLimit 3
  states := #[
    { transitions := [⟨.symbol ⟨0⟩, .symbol ⟨0⟩, 0⟩, ⟨.symbol ⟨1⟩, .symbol ⟨1⟩, 0⟩,
        ⟨.symbol ⟨0⟩, .symbol ⟨0⟩, 1⟩] },
    { transitions := [⟨.symbol ⟨0⟩, .symbol ⟨0⟩, 2⟩, ⟨.symbol ⟨1⟩, .symbol ⟨1⟩, 2⟩] },
    { accepting := true }]
  start := 0
  start_lt := by decide
  target_lt := by decide

/-- With room for three states, `lastButOneA` can neither be determinized nor complemented, as it
has more sets, nor repeated, which takes one more state. It can be intersected with all words, which
takes a pair for each of its states. -/
theorem needs_states_lastButOneA :
    lastButOneA.alphabet.symbols = (sigmaStar .abcd).alphabet.symbols
      ∧ lastButOneA.isAcceptor = true ∧ (sigmaStar .abcd).isAcceptor = true
      ∧ lastButOneA.alphabet.symbols ≠ [] ∧ lastButOneA.OverAlphabet
      ∧ (3 : ℕ∞) < {X | lastButOneA.ReachableSet X}.encard
      ∧ (∃ operation ∈ [Operation.determinize, .complement],
        lastButOneA.complement = .error (.stateExplosion operation 3))
      ∧ lastButOneA.star = .error (.stateExplosion .closure 3)
      ∧ {k | lastButOneA.ReachablePair (sigmaStar .abcd) k}.encard ≤ 3 := by
  have hover : lastButOneA.OverAlphabet := by decide +kernel
  have hall : (sigmaStar .abcd).isAcceptor = true := by decide +kernel
  have hexplodes : lastButOneA.determinize = .error (.stateExplosion .determinize 3) := by cbv
  have hfits : (lastButOneA.intersection (sigmaStar .abcd)).isOk = true := by cbv
  obtain ⟨-, -, hstar, -, -, hdeterminize, -, hintersection, hcomplement, -⟩ :=
    needs_states lastButOneA (sigmaStar .abcd) rfl
  have hsets := hdeterminize.explodes_iff.1 ⟨_, List.mem_cons_self, hexplodes⟩
  refine ⟨rfl, hover.isAcceptor, hall, by decide, hover, hsets, ?_, ?_, ?_⟩
  · refine (hcomplement (by decide) hover).explodes_iff.2 ?_
    exact hsets.trans_le le_self_add
  · obtain ⟨operation, hoperation, he⟩ := hstar.explodes_iff.2 (by decide)
    rwa [List.mem_singleton.1 hoperation] at he
  · refine not_lt.1 fun hmany => ?_
    obtain ⟨_, -, he⟩ := (hintersection hover.isAcceptor hall).explodes_iff.2 hmany
    rw [he] at hfits
    cases hfits

end Automaton

end FiniteState
