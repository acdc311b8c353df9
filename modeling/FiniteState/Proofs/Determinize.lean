import FiniteState.Proofs.Deterministic
import FiniteState.Proofs.Membership
import FiniteState.Proofs.Order

/-!
# The subset construction

The arcs of a set of states group the transitions of its members by their labels. What is accepted
from a set that is closed under silent transitions is what is accepted from some member, silent
labels left out; so determinization keeps the pair language.

* `mem_target_groupByLabels_iff`, `pairwise_groupByLabels`: the groups.
* `acceptsFrom_subsets_iff`: what a closed set accepts.
* `hasLabels_determinize_iff`, `deterministic_determinize`: the subset construction.
-/

namespace FiniteState

/-- Arcs with the same labels are silent together. -/
theorem isSilent_of_labels_eq {κ ι : Type} {a : Arc κ} {b : Arc ι} (h : a.labels = b.labels) :
    a.isSilent = b.isSilent := by
  rw [Arc.isSilent_eq, Arc.isSilent_eq, h]

theorem audible_cons_of_silent {κ : Type} {a : Arc κ} (h : a.isSilent = true)
    (ls : List (Label × Label)) : audible (a.labels :: ls) = audible ls := by
  rw [Arc.isSilent_eq] at h
  rw [audible, List.filter_cons_of_neg (by rw [h]; decide)]
  rfl

theorem audible_cons_of_not_silent {κ : Type} {a : Arc κ} (h : a.isSilent = false)
    (ls : List (Label × Label)) : audible (a.labels :: ls) = a.labels :: audible ls := by
  rw [Arc.isSilent_eq] at h
  rw [audible, List.filter_cons_of_pos (by rw [h]; decide)]
  rfl

namespace Automaton

variable {A : Automaton}

/-! ## Groups

Transitions in the order of their labels come in runs with the same labels, and each run becomes one
group. -/

@[simp] theorem labels_withTarget {κ ι : Type} (a : Arc κ) (target : ι) :
    (a.withTarget target).labels = a.labels := rfl

/-- The groups are those of the transitions: every transition is in the group of its labels, and
groups stand in strict order. -/
structure Groups (ts : List Transition) (gs : List (Arc (List Nat))) : Prop where
  exists_transition : ∀ g ∈ gs, ∃ t ∈ ts, t.labels = g.labels
  exists_group : ∀ t ∈ ts, ∃ g ∈ gs, g.labels = t.labels
  mem_target : ∀ g ∈ gs, ∀ q, q ∈ g.target ↔ ∃ t ∈ ts, t.labels = g.labels ∧ t.target = q
  sorted : gs.Pairwise fun g h => LabelsLE g.labels h.labels ∧ g.labels ≠ h.labels

/-- A transition that comes first adds its target to the targets with its own labels. -/
theorem exists_cons_of_labels_eq {t : Transition} {ts : List Transition} {ls : Label × Label}
    {q : Nat} (h : t.labels = ls) :
    (∃ u ∈ t :: ts, u.labels = ls ∧ u.target = q)
      ↔ q = t.target ∨ ∃ u ∈ ts, u.labels = ls ∧ u.target = q := by
  rw [List.exists_mem_cons_iff, and_iff_right h, eq_comm]

/-- It adds nothing to the targets with other labels. -/
theorem exists_cons_of_labels_ne {t : Transition} {ts : List Transition} {ls : Label × Label}
    {q : Nat} (h : t.labels ≠ ls) :
    (∃ u ∈ t :: ts, u.labels = ls ∧ u.target = q) ↔ ∃ u ∈ ts, u.labels = ls ∧ u.target = q := by
  rw [List.exists_mem_cons_iff]
  exact or_iff_right fun ht => h ht.1

/-- A transition with the labels of the first group joins it. -/
theorem Groups.join {t : Transition} {ts : List Transition} {g : Arc (List Nat)}
    {gs : List (Arc (List Nat))} (h : Groups ts (g :: gs)) (hg : t.labels = g.labels) :
    Groups (t :: ts) (g.withTarget (t.target :: g.target) :: gs) := by
  obtain ⟨hfirst, hrest⟩ := List.pairwise_cons.1 h.sorted
  constructor
  case exists_transition =>
    refine List.forall_mem_cons.2 ⟨⟨t, List.mem_cons_self, hg⟩, fun g' hg' => ?_⟩
    obtain ⟨u, hu, hlabels⟩ := h.exists_transition g' (List.mem_cons_of_mem g hg')
    exact ⟨u, List.mem_cons_of_mem t hu, hlabels⟩
  case exists_group =>
    refine List.forall_mem_cons.2 ⟨⟨_, List.mem_cons_self, hg.symm⟩, fun u hu => ?_⟩
    obtain ⟨g', hg', hlabels⟩ := h.exists_group u hu
    rcases List.mem_cons.1 hg' with rfl | hg'
    · exact ⟨_, List.mem_cons_self, hlabels⟩
    · exact ⟨g', List.mem_cons_of_mem _ hg', hlabels⟩
  case mem_target =>
    refine List.forall_mem_cons.2 ⟨fun q => ?_, fun g' hg' q => ?_⟩
    · show q ∈ t.target :: g.target ↔ ∃ u ∈ t :: ts, u.labels = g.labels ∧ u.target = q
      rw [exists_cons_of_labels_eq hg, List.mem_cons, h.mem_target g List.mem_cons_self]
    · -- the later groups have other labels than the first one
      rw [exists_cons_of_labels_ne (hg ▸ (hfirst g' hg').2),
        h.mem_target g' (List.mem_cons_of_mem g hg')]
  case sorted => exact List.pairwise_cons.2 ⟨hfirst, hrest⟩

/-- A transition with labels before those of all groups opens a group of its own. -/
theorem Groups.open {t : Transition} {ts : List Transition} {gs : List (Arc (List Nat))}
    (h : Groups ts gs) (hle : ∀ g ∈ gs, LabelsLE t.labels g.labels ∧ t.labels ≠ g.labels) :
    Groups (t :: ts) (t.withTarget [t.target] :: gs) := by
  constructor
  case exists_transition =>
    refine List.forall_mem_cons.2 ⟨⟨t, List.mem_cons_self, rfl⟩, fun g hg => ?_⟩
    obtain ⟨u, hu, hlabels⟩ := h.exists_transition g hg
    exact ⟨u, List.mem_cons_of_mem t hu, hlabels⟩
  case exists_group =>
    refine List.forall_mem_cons.2 ⟨⟨_, List.mem_cons_self, rfl⟩, fun u hu => ?_⟩
    obtain ⟨g, hg, hlabels⟩ := h.exists_group u hu
    exact ⟨g, List.mem_cons_of_mem _ hg, hlabels⟩
  case mem_target =>
    -- no transition of an old group has the new labels, and the new one has no old labels
    have hnone : ∀ q, ¬ ∃ u ∈ ts, u.labels = t.labels ∧ u.target = q := by
      rintro q ⟨u, hu, hlabels, -⟩
      obtain ⟨g, hg, hg'⟩ := h.exists_group u hu
      exact (hle g hg).2 (hlabels.symm.trans hg'.symm)
    refine List.forall_mem_cons.2 ⟨fun q => ?_, fun g hg q => ?_⟩
    · show q ∈ [t.target] ↔ ∃ u ∈ t :: ts, u.labels = t.labels ∧ u.target = q
      rw [exists_cons_of_labels_eq rfl, List.mem_singleton]
      exact (or_iff_left (hnone q)).symm
    · rw [exists_cons_of_labels_ne (hle g hg).2, h.mem_target g hg]
  case sorted => exact List.pairwise_cons.2 ⟨hle, h.sorted⟩

/-- The groups are made from the back, so the transition that comes next has the labels of the first
group or opens a group before it. -/
theorem groups_foldr {ts : List Transition}
    (hts : ts.Pairwise fun t u => LabelsLE t.labels u.labels) :
    Groups ts (ts.foldr addToGroups []) := by
  induction ts with
  | nil => exact ⟨by simp, by simp, by simp, List.Pairwise.nil⟩
  | cons t ts ih =>
    obtain ⟨hle, hts⟩ := List.pairwise_cons.1 hts
    have hgroups := ih hts
    have hleGroup : ∀ g ∈ ts.foldr addToGroups [], LabelsLE t.labels g.labels := by
      intro g hg
      obtain ⟨u, hu, hlabels⟩ := hgroups.exists_transition g hg
      exact hlabels ▸ hle u hu
    rw [List.foldr_cons]
    cases hgs : ts.foldr addToGroups [] with
    | nil =>
      rw [hgs] at hgroups
      exact hgroups.open (by simp)
    | cons g gs =>
      rw [hgs] at hgroups hleGroup
      rw [addToGroups]
      by_cases hg : t.labels = g.labels
      · rw [if_pos (Arc.sameLabels_iff.2 hg)]
        exact hgroups.join hg
      · rw [if_neg (fun h => hg (Arc.sameLabels_iff.1 h))]
        refine hgroups.open fun g' hg' => ⟨hleGroup g' hg', fun hlabels => hg ?_⟩
        -- the first group stands between `t` and every other one
        rcases List.mem_cons.1 hg' with rfl | hg'
        · exact hlabels
        · have hle' := ((List.pairwise_cons.1 hgroups.sorted).1 g' hg').1
          exact (hleGroup g (by simp)).antisymm (hlabels ▸ hle')

/-- The transitions of a state set are sorted and then cut where the labels change. -/
theorem groups_groupByLabels (ts : List Transition) :
    Groups ((ts.filter (!·.isSilent)).mergeSort Arc.leLabels) (groupByLabels ts) :=
  groups_foldr (Arc.pairwise_mergeSort _)

/-- The silent transitions are left out before sorting, and no other. -/
@[simp] theorem mem_sorted_iff {ts : List Transition} {t : Transition} :
    t ∈ (ts.filter (!·.isSilent)).mergeSort Arc.leLabels ↔ t ∈ ts ∧ t.isSilent = false := by
  rw [List.mem_mergeSort, List.mem_filter, Bool.not_eq_true']

/-- A group holds the targets of the transitions with its labels. -/
theorem mem_target_groupByLabels_iff {ts : List Transition} {g : Arc (List Nat)}
    (hg : g ∈ groupByLabels ts) {q : Nat} :
    q ∈ g.target ↔ ∃ t ∈ ts, t.labels = g.labels ∧ t.target = q := by
  obtain ⟨u, hu, hlabels⟩ := (groups_groupByLabels ts).exists_transition g hg
  rw [(groups_groupByLabels ts).mem_target g hg]
  refine exists_congr fun t => ?_
  rw [mem_sorted_iff]
  constructor
  · rintro ⟨⟨ht, -⟩, h⟩
    exact ⟨ht, h⟩
  · rintro ⟨ht, h⟩
    refine ⟨⟨ht, ?_⟩, h⟩
    rw [isSilent_of_labels_eq (h.1.trans hlabels.symm)]
    exact (mem_sorted_iff.1 hu).2

/-- Every group comes from some transition, which is not silent. -/
theorem exists_transition_of_mem_groupByLabels {ts : List Transition} {g : Arc (List Nat)}
    (hg : g ∈ groupByLabels ts) : ∃ t ∈ ts, t.labels = g.labels ∧ t.isSilent = false := by
  obtain ⟨t, ht, hlabels⟩ := (groups_groupByLabels ts).exists_transition g hg
  exact ⟨t, (mem_sorted_iff.1 ht).1, hlabels, (mem_sorted_iff.1 ht).2⟩

/-- Every transition that is not silent has a group. -/
theorem exists_mem_groupByLabels {ts : List Transition} {t : Transition} (ht : t ∈ ts)
    (hsilent : t.isSilent = false) : ∃ g ∈ groupByLabels ts, g.labels = t.labels :=
  (groups_groupByLabels ts).exists_group t (mem_sorted_iff.2 ⟨ht, hsilent⟩)

/-- The groups come in order, and no two have the same labels. -/
theorem pairwise_groupByLabels (ts : List Transition) :
    (groupByLabels ts).Pairwise fun g h => LabelsLE g.labels h.labels ∧ g.labels ≠ h.labels :=
  (groups_groupByLabels ts).sorted

/-! ## Unions of closures -/

/-- The table of closures holds the closure of each state. -/
theorem get_silentClosures (A : Automaton) (q : Nat) :
    (A.silentClosures.getD q (.pure [])).get = if q < A.size then A.silentClosure [q] else [] := by
  rw [silentClosures, Array.getD_eq_getD_getElem?, Array.getElem?_map, List.getElem?_toArray,
    stateNumbers]
  by_cases hq : q < A.size
  · rw [if_pos hq, List.getElem?_range hq]
    rfl
  · rw [if_neg hq, List.getElem?_eq_none (by rw [List.length_range]; omega)]
    rfl

/-- The union of closures holds what is reached silently from one of the states. -/
theorem mem_unionOfClosures_iff {states : List Nat} {q : Nat} :
    q ∈ unionOfClosures A.silentClosures states
      ↔ ∃ p ∈ states, p < A.size ∧ ∃ ts, A.Path p ts q ∧ ∀ t ∈ ts, t.isSilent = true := by
  have hclosure : ∀ p, q ∈ (A.silentClosures.getD p (.pure [])).get
      ↔ p < A.size ∧ ∃ ts, A.Path p ts q ∧ ∀ t ∈ ts, t.isSilent = true := by
    intro p
    rw [get_silentClosures]
    by_cases hp : p < A.size
    · rw [if_pos hp, silentClosure, mem_closure_iff (by simpa using hp)]
      simp [hp]
    · rw [if_neg hp]
      simp [hp]
  unfold unionOfClosures
  split
  next p =>
    rw [hclosure]
    simp
  · rw [List.mem_eraseReps, List.mem_mergeSort, List.mem_flatMap]
    simp only [hclosure]

/-! ## Closed sets

The sets of the subset construction are closed under silent transitions. So a trace that is not
silent leaves a set by a transition with its first labels, which is what an arc of the construction
stands for. -/

/-- No silent transition leaves the set. -/
def SilentlyClosed (A : Automaton) (set : StateSet) : Prop :=
  ∀ p ∈ set, ∀ t ∈ A.transitions p, t.isSilent = true → t.target ∈ set

/-- No silent transition leads out of a union of closures. -/
theorem silentlyClosed_unionOfClosures (A : Automaton) (states : List Nat) :
    A.SilentlyClosed (unionOfClosures A.silentClosures states) := by
  intro q hq t ht hsilent
  obtain ⟨p, hp, hlt, ts, hpath, hts⟩ := mem_unionOfClosures_iff.1 hq
  refine mem_unionOfClosures_iff.2 ⟨p, hp, hlt, ts ++ [t], hpath.snoc ht, fun u hu => ?_⟩
  rcases List.mem_append.1 hu with hu | hu
  · exact hts u hu
  · rw [List.mem_singleton.1 hu]
    exact hsilent

theorem mem_unionOfClosures_of_mem {states : List Nat} {q : Nat} (hq : q ∈ states)
    (hlt : q < A.size) : q ∈ unionOfClosures A.silentClosures states :=
  mem_unionOfClosures_iff.2 ⟨q, hq, hlt, [], .nil q, by simp⟩

/-- A silent path is a trace on which nothing is heard. -/
theorem trace_of_silent_path {p q : Nat} {ts : List Transition} (h : A.Path p ts q)
    (hts : ∀ t ∈ ts, t.isSilent = true) : ∃ ls, A.system.Trace p ls q ∧ audible ls = [] := by
  refine ⟨ts.map Arc.labels, trace_iff_path.2 ⟨ts, h, rfl⟩, ?_⟩
  rw [← labelPairs_eq_audible, labelPairs, List.map_eq_nil_iff, List.filter_eq_nil_iff]
  intro t ht
  rw [hts t ht]
  decide

/-- A silent trace from a closed set ends in it. -/
theorem SilentlyClosed.mem_of_trace {set : StateSet} (hset : A.SilentlyClosed set) {p q : Nat}
    {ls : List (Label × Label)} (htrace : A.system.Trace p ls q) (hls : audible ls = [])
    (hp : p ∈ set) : q ∈ set := by
  induction htrace with
  | nil => exact hp
  | @cons p q t ls ht _ ih =>
    cases hsilent : t.isSilent with
    | true =>
      rw [audible_cons_of_silent hsilent] at hls
      exact ih hls (hset p hp t ht hsilent)
    | false =>
      rw [audible_cons_of_not_silent hsilent] at hls
      cases hls

/-- A trace from a closed set that is not silent leaves it by a transition with the first labels. -/
theorem SilentlyClosed.exists_transition {set : StateSet} (hset : A.SilentlyClosed set) {p q : Nat}
    {raw ls : List (Label × Label)} {l : Label × Label} (htrace : A.system.Trace p raw q)
    (hraw : audible raw = l :: ls) (hp : p ∈ set) :
    ∃ p' ∈ set, ∃ t ∈ A.transitions p', t.isSilent = false ∧ t.labels = l
      ∧ ∃ raw', A.system.Trace t.target raw' q ∧ audible raw' = ls := by
  induction htrace with
  | nil => cases hraw
  | @cons p q t raw ht htail ih =>
    cases hsilent : t.isSilent with
    | true =>
      rw [audible_cons_of_silent hsilent] at hraw
      exact ih hraw (hset p hp t ht hsilent)
    | false =>
      rw [audible_cons_of_not_silent hsilent, List.cons.injEq] at hraw
      exact ⟨p, hp, t, ht, hsilent, hraw.1, raw, htail, hraw.2⟩

/-- The arcs of a state set are the groups of its transitions, each led to the closure of its
targets. -/
theorem mem_arcs_subsets_iff {set : StateSet} {a : Arc StateSet} :
    a ∈ A.subsets.arcs set
      ↔ ∃ g ∈ groupByLabels (set.flatMap A.transitions),
        a = g.withTarget (unionOfClosures A.silentClosures g.target) := by
  rw [subsets, List.mem_map]
  exact exists_congr fun g => and_congr_right fun _ => eq_comm

/-- A closed set accepts what some member accepts, silent labels left out. -/
theorem acceptsFrom_subsets_iff {set : StateSet} (hset : A.SilentlyClosed set)
    {ls : List (Label × Label)} :
    A.subsets.AcceptsFrom set ls
      ↔ ∃ q ∈ set, ∃ raw, A.system.AcceptsFrom q raw ∧ audible raw = ls := by
  -- by induction on what is heard; the sets along the way are unions of closures, hence closed
  induction ls generalizing set with
  | nil =>
    rw [TransitionSystem.acceptsFrom_nil_iff]
    show A.anyFinal set = true ↔ _
    rw [anyFinal_iff]
    constructor
    · rintro ⟨q, hq, hfinal⟩
      exact ⟨q, hq, [], TransitionSystem.acceptsFrom_nil_iff.2 hfinal, rfl⟩
    · rintro ⟨q, hq, raw, ⟨f, htrace, hfinal⟩, hraw⟩
      exact ⟨f, hset.mem_of_trace htrace hraw hq, hfinal⟩
  | cons l ls ih =>
    rw [TransitionSystem.acceptsFrom_cons_iff]
    constructor
    · -- the member that the rest starts from has a silent path from the target of a transition
      rintro ⟨a, ha, rfl, haccepts⟩
      obtain ⟨g, hg, rfl⟩ := mem_arcs_subsets_iff.1 ha
      obtain ⟨q, hq, raw, hraw, rfl⟩ := (ih (silentlyClosed_unionOfClosures A _)).1 haccepts
      obtain ⟨p', hp', -, ts, hpath, hts⟩ := mem_unionOfClosures_iff.1 hq
      obtain ⟨t, ht, hlabels, rfl⟩ := (mem_target_groupByLabels_iff hg).1 hp'
      obtain ⟨p, hp, ht⟩ := List.mem_flatMap.1 ht
      obtain ⟨silent, hsilent, haudible⟩ := trace_of_silent_path hpath hts
      obtain ⟨f, htrace, hfinal⟩ := hraw
      obtain ⟨u, -, hu, hloud⟩ := exists_transition_of_mem_groupByLabels hg
      refine ⟨p, hp, t.labels :: (silent ++ raw), ⟨f, .cons ht (hsilent.append htrace), hfinal⟩, ?_⟩
      have hloud' : t.isSilent = false := by
        rw [isSilent_of_labels_eq (hlabels.trans hu.symm)]
        exact hloud
      rw [audible_cons_of_not_silent hloud', audible_append, haudible, List.nil_append, hlabels,
        labels_withTarget]
    · -- the silent transitions before the first loud one stay in the set, as it is closed
      rintro ⟨q, hq, raw, ⟨f, htrace, hfinal⟩, hraw⟩
      obtain ⟨p, hp, t, ht, hloud, hlabels, raw', htrace', rfl⟩ :=
        hset.exists_transition htrace hraw hq
      have hmem : t ∈ set.flatMap A.transitions := List.mem_flatMap.2 ⟨p, hp, ht⟩
      obtain ⟨g, hg, hglabels⟩ := exists_mem_groupByLabels hmem hloud
      refine ⟨_, mem_arcs_subsets_iff.2 ⟨g, hg, rfl⟩, ?_, ?_⟩
      · simp [hglabels, hlabels]
      · refine (ih (silentlyClosed_unionOfClosures A _)).2
          ⟨t.target, ?_, raw', ⟨f, htrace', hfinal⟩, rfl⟩
        refine mem_unionOfClosures_of_mem ?_ (target_lt_size ht)
        exact (mem_target_groupByLabels_iff hg).2 ⟨t, hmem, hglabels.symm, rfl⟩

/-- The system of state sets is deterministic, since groups have distinct labels. -/
theorem deterministic_subsets (A : Automaton) : A.subsets.Deterministic := by
  constructor
  · intro set a ha
    obtain ⟨g, hg, rfl⟩ := mem_arcs_subsets_iff.1 ha
    obtain ⟨t, -, hlabels, hloud⟩ := exists_transition_of_mem_groupByLabels hg
    rw [← hloud]
    exact isSilent_of_labels_eq hlabels.symm
  · intro set
    have hlabels : (A.subsets.arcs set).map Arc.labels
        = (groupByLabels (set.flatMap A.transitions)).map Arc.labels := by
      rw [subsets, List.map_map]
      rfl
    rw [hlabels, List.Nodup, List.pairwise_map]
    exact (pairwise_groupByLabels _).imp And.right

/-! ## The result -/

variable {D : Automaton}

/-- The result of determinization is deterministic. -/
theorem deterministic_determinize (hD : A.determinize = .ok D) : D.system.Deterministic :=
  A.deterministic_subsets.explore hD

/-- Determinization keeps the pair language. -/
theorem hasLabels_determinize_iff (hD : A.determinize = .ok D) {ls : List (Label × Label)} :
    D.HasLabels ls ↔ A.HasLabels ls := by
  rw [hasLabels_iff_carries_of_deterministic (deterministic_determinize hD),
    TransitionSystem.carries_explore_iff hD, hasLabels_iff_carries]
  show A.subsets.AcceptsFrom (unionOfClosures A.silentClosures [A.start]) ls ↔ _
  rw [acceptsFrom_subsets_iff (silentlyClosed_unionOfClosures A _)]
  constructor
  · rintro ⟨q, hq, raw, ⟨f, htrace, hfinal⟩, hraw⟩
    obtain ⟨p, hp, -, ts, hpath, hts⟩ := mem_unionOfClosures_iff.1 hq
    rw [List.mem_singleton.1 hp] at hpath
    obtain ⟨silent, hsilent, haudible⟩ := trace_of_silent_path hpath hts
    refine ⟨silent ++ raw, ⟨f, hsilent.append htrace, hfinal⟩, ?_⟩
    rw [audible_append, haudible, List.nil_append, hraw]
  · rintro ⟨raw, hraw, rfl⟩
    have hstart : A.start ∈ unionOfClosures A.silentClosures [A.start] :=
      mem_unionOfClosures_of_mem (List.mem_singleton_self _) A.start_lt
    exact ⟨A.start, hstart, raw, hraw, rfl⟩

@[grind →] theorem alphabet_determinize (hD : A.determinize = .ok D) : D.alphabet = A.alphabet :=
  TransitionSystem.alphabet_explore hD

/-- The labels of a determinized automaton are labels of the automaton. -/
theorem exists_transition_of_determinize (hD : A.determinize = .ok D) {i : Nat} {t : Transition}
    (ht : t ∈ D.transitions i) : ∃ q, ∃ u ∈ A.transitions q, u.labels = t.labels := by
  obtain ⟨_, a, ha, hlabels⟩ := TransitionSystem.exists_arc_of_mem_explore hD ht
  obtain ⟨g, hg, rfl⟩ := mem_arcs_subsets_iff.1 ha
  obtain ⟨u, hu, hulabels, -⟩ := exists_transition_of_mem_groupByLabels hg
  obtain ⟨q, -, hu⟩ := List.mem_flatMap.1 hu
  exact ⟨q, u, hu, hulabels.trans hlabels⟩

end Automaton

end FiniteState
