import FiniteState.Proofs.Deterministic
import FiniteState.Proofs.Lists
import FiniteState.Proofs.Order

/-!
# Bisimulations

A bisimulation relates keys of two systems that agree on acceptance and whose arcs correspond, one
by one and in order. Related keys accept the same traces. If moreover the relation is one to one,
both systems are explored in the same order and tabulate to the same automaton.

* `Bisimulation.acceptsFrom_iff`: related keys accept the same.
* `bisimulation_sameLanguage`: accepting the same is a bisimulation of ordered systems.
* `Bisimulation.tabulate_search_eq`: the same automaton comes out.
-/

namespace FiniteState

namespace TransitionSystem

variable {κ ι : Type} {M : TransitionSystem κ} {N : TransitionSystem ι} {R : κ → ι → Prop}

/-- Related keys agree on acceptance, and their arcs have the same labels and related targets. -/
structure Bisimulation (R : κ → ι → Prop) (M : TransitionSystem κ) (N : TransitionSystem ι) :
    Prop where
  accepting : ∀ k l, R k l → M.accepting k = N.accepting l
  arcs : ∀ k l, R k l →
    List.Forall₂ (fun a b => a.labels = b.labels ∧ R a.target b.target) (M.arcs k) (N.arcs l)

/-- Related states accept the same label pairs. -/
theorem Bisimulation.acceptsFrom_iff (h : Bisimulation R M N) {k : κ} {l : ι} (hkl : R k l)
    {ls : List (Label × Label)} : M.AcceptsFrom k ls ↔ N.AcceptsFrom l ls := by
  induction ls generalizing k l with
  | nil => rw [acceptsFrom_nil_iff, acceptsFrom_nil_iff, h.accepting k l hkl]
  | cons p ls ih =>
    rw [acceptsFrom_cons_iff, acceptsFrom_cons_iff]
    constructor
    · rintro ⟨a, ha, hp, haccepts⟩
      obtain ⟨b, hb, hlabels, htarget⟩ := exists_right_of_forall₂ (h.arcs k l hkl) ha
      exact ⟨b, hb, hlabels.symm.trans hp, (ih htarget).1 haccepts⟩
    · rintro ⟨b, hb, hp, haccepts⟩
      obtain ⟨a, ha, hlabels, htarget⟩ := exists_left_of_forall₂ (h.arcs k l hkl) hb
      exact ⟨a, ha, hlabels.trans hp, (ih htarget).2 haccepts⟩

/-- A trace of one system has a trace of the other beside it. -/
theorem Bisimulation.exists_trace_left (h : Bisimulation R M N) {k : κ} {l l' : ι} (hkl : R k l)
    {ls : List (Label × Label)} (htrace : N.Trace l ls l') : ∃ k', M.Trace k ls k' ∧ R k' l' := by
  induction htrace generalizing k with
  | nil => exact ⟨k, .nil k, hkl⟩
  | cons hb _ ih =>
    obtain ⟨a, ha, hlabels, htarget⟩ := exists_left_of_forall₂ (h.arcs k _ hkl) hb
    obtain ⟨k', htrace, hk'⟩ := ih htarget
    exact ⟨k', hlabels ▸ .cons ha htrace, hk'⟩

/-! ## Ordered systems

If no two arcs of a key have the same labels, what a key accepts determines what the targets of its
arcs accept. To accept the same is then a bisimulation itself. -/

/-- The system is deterministic, and the arcs of each key are in the order of their labels. -/
structure Ordered (M : TransitionSystem κ) : Prop where
  deterministic : M.Deterministic
  sorted : ∀ k, (M.arcs k).Pairwise fun a b => LabelsLE a.labels b.labels

/-- The keys accept the same traces. -/
def SameLanguage (M : TransitionSystem κ) (k : κ) (N : TransitionSystem ι) (l : ι) : Prop :=
  ∀ ls, M.AcceptsFrom k ls ↔ N.AcceptsFrom l ls

/-- Every key at the end of a trace from `k` has an accepted trace. -/
def Coaccessible (M : TransitionSystem κ) (k : κ) : Prop :=
  ∀ us l, M.Trace k us l → ∃ vs, M.AcceptsFrom l vs

/-- Where every trace can be completed, it can be completed after any arc. -/
theorem Coaccessible.target {k : κ} (h : M.Coaccessible k) {a : Arc κ} (ha : a ∈ M.arcs k) :
    M.Coaccessible a.target :=
  fun us l hus => h (a.labels :: us) l (.cons ha hus)

/-- States with the same language go on to states with the same language, along arcs that agree on
labels. Determinism is needed on both sides: no other arc can carry the rest of a word. -/
theorem SameLanguage.target {k : κ} {l : ι} (h : SameLanguage M k N l) (hM : M.Deterministic)
    (hN : N.Deterministic) {a : Arc κ} {b : Arc ι} (ha : a ∈ M.arcs k) (hb : b ∈ N.arcs l)
    (hlabels : a.labels = b.labels) : SameLanguage M a.target N b.target := by
  intro ls
  have hleft : M.AcceptsFrom k (a.labels :: ls) ↔ M.AcceptsFrom a.target ls :=
    hM.acceptsFrom_append_iff (.cons ha (.nil _))
  have hright : N.AcceptsFrom l (b.labels :: ls) ↔ N.AcceptsFrom b.target ls :=
    hN.acceptsFrom_append_iff (.cons hb (.nil _))
  rw [← hleft, ← hright, hlabels]
  exact h _

/-- The labels on the arcs of a state are the first labels of what it accepts, if every trace from
it can be completed. -/
theorem mem_map_labels_iff {k : κ} (hk : M.Coaccessible k) {p : Label × Label} :
    p ∈ (M.arcs k).map Arc.labels ↔ ∃ ls, M.AcceptsFrom k (p :: ls) := by
  rw [List.mem_map]
  constructor
  · rintro ⟨a, ha, rfl⟩
    obtain ⟨vs, hvs⟩ := hk.target ha [] _ (.nil _)
    exact ⟨vs, acceptsFrom_cons_iff.2 ⟨a, ha, rfl, hvs⟩⟩
  · rintro ⟨ls, hls⟩
    obtain ⟨a, ha, hp, -⟩ := acceptsFrom_cons_iff.1 hls
    exact ⟨a, ha, hp⟩

/-- Which labels leave a key can be read off what it accepts. -/
theorem Ordered.map_labels_eq (hM : M.Ordered) (hN : N.Ordered) {k : κ} {l : ι}
    (hk : M.Coaccessible k) (hl : N.Coaccessible l) (hkl : SameLanguage M k N l) :
    (M.arcs k).map Arc.labels = (N.arcs l).map Arc.labels := by
  refine List.eq_of_sorted_of_mem_iff (r := LabelsLE) (fun _ _ => LabelsLE.antisymm)
    (List.pairwise_map.2 (hM.sorted k)) (List.pairwise_map.2 (hN.sorted l))
    (hM.deterministic.nodup k) (hN.deterministic.nodup l) fun p => ?_
  rw [mem_map_labels_iff hk, mem_map_labels_iff hl]
  exact exists_congr fun ls => hkl (p :: ls)

/-- In ordered systems without dead keys, accepting the same is a bisimulation. -/
theorem bisimulation_sameLanguage (hM : M.Ordered) (hN : N.Ordered) :
    Bisimulation (fun k l => M.Coaccessible k ∧ N.Coaccessible l ∧ SameLanguage M k N l) M N := by
  constructor
  · rintro k l ⟨-, -, hkl⟩
    rw [Bool.eq_iff_iff, ← acceptsFrom_nil_iff, ← acceptsFrom_nil_iff]
    exact hkl []
  · rintro k l ⟨hk, hl, hkl⟩
    refine forall₂_of_map_eq (hM.map_labels_eq hN hk hl hkl) fun a ha b hb hlabels => ?_
    exact ⟨hlabels, hk.target ha, hl.target hb,
      hkl.target hM.deterministic hN.deterministic ha hb hlabels⟩

/-! ## Equal automata

A search numbers related keys alike, so systems that correspond one to one are tabulated to equal
automata: the numbers of the states and the order of the transitions agree as well. -/

variable [Ord κ] [Ord ι] {S : Alphabet} {m : Numbering κ} {n : Numbering ι}

/-- The automaton written down for an ordered system is ordered. -/
theorem Ordered.tabulate (hM : M.Ordered) {h : M.start ∈ m} :
    (M.tabulate S m h).system.Ordered := by
  refine ⟨hM.deterministic.tabulate, fun i => ?_⟩
  show ((M.tabulate S m h).transitions i).Pairwise _
  cases hi : m.toList[i]? with
  | none =>
    rw [List.getElem?_eq_none_iff, Numbering.length_toList, ← size_tabulate (M := M) (S := S)
      (h := h)] at hi
    rw [Automaton.transitions, Automaton.state_of_size_le hi]
    exact .nil
  | some k =>
    rw [Automaton.transitions, state_tabulate hi, ← List.pairwise_map (R := LabelsLE)]
    exact (List.pairwise_map.2 (hM.sorted k)).sublist (map_labels_row_sublist M m k)

/-- Related keys have the same number in numberings that list related keys in the same order. -/
theorem number?_eq_of_forall₂ (hR : Search.OneToOne R)
    (hmn : List.Forall₂ R m.toList n.toList) {k : κ} {l : ι} (hkl : R k l) :
    m.number? k = n.number? l := by
  refine Option.ext fun i => ?_
  rw [Numbering.number?_eq_some_iff_getElem?, Numbering.number?_eq_some_iff_getElem?]
  have hlength := hmn.length_eq
  by_cases hi : i < m.toList.length
  · have hget := hmn.get hi (by omega)
    rw [List.getElem?_eq_getElem hi, List.getElem?_eq_getElem (by omega), Option.some.injEq,
      Option.some.injEq]
    exact hR _ _ _ _ hget hkl
  · rw [List.getElem?_eq_none (by omega), List.getElem?_eq_none (by omega)]
    simp

/-- Related states have equal rows, since their targets have equal numbers. -/
theorem Bisimulation.row_eq (h : Bisimulation R M N) (hR : Search.OneToOne R)
    (hmn : List.Forall₂ R m.toList n.toList) {k : κ} {l : ι} (hkl : R k l) :
    M.row m k = N.row n l := by
  rw [row, row, h.accepting k l hkl]
  have harcs := h.arcs k l hkl
  congr 1
  generalize M.arcs k = as, N.arcs l = bs at harcs
  -- the arcs agree one by one, and so do the numbers of their targets
  induction harcs with
  | nil => rfl
  | @cons a b as bs hab _ ih =>
    have hnumber : (m.number? a.target).map a.withTarget
        = (n.number? b.target).map b.withTarget := by
      rw [number?_eq_of_forall₂ hR hmn hab.2]
      have hlabels : ∀ i : Nat, a.withTarget i = b.withTarget i := by
        intro i
        rw [Arc.withTarget, Arc.withTarget, (Prod.mk.inj hab.1).1, (Prod.mk.inj hab.1).2]
      exact congrArg (Option.map · _) (funext hlabels)
    rw [List.filterMap_cons, List.filterMap_cons, hnumber, ih]

/-- Systems that correspond one to one are written down as equal automata. -/
theorem Bisimulation.tabulate_eq (h : Bisimulation R M N) (hR : Search.OneToOne R)
    (hstart : R M.start N.start) (hmn : List.Forall₂ R m.toList n.toList) (hm : M.start ∈ m)
    (hn : N.start ∈ n) : M.tabulate S m hm = N.tabulate S n hn := by
  have hstates : m.keys.map (M.row m) = n.keys.map (N.row n) := by
    apply Array.toList_inj.1
    rw [Array.toList_map, Array.toList_map]
    have hrows : List.Forall₂ (fun k l => M.row m k = N.row n l) m.toList n.toList :=
      hmn.imp fun _ _ hkl => h.row_eq hR hmn hkl
    exact List.forall₂_eq_eq_eq ▸ List.forall₂_map_left_iff.2 (List.forall₂_map_right_iff.2 hrows)
  have hnumber := number?_eq_of_forall₂ hR hmn hstart
  simp only [tabulate, hstates, hnumber]

variable [Std.TransOrd κ] [Std.LawfulEqOrd κ] [Std.TransOrd ι] [Std.LawfulEqOrd ι]

/-- A number and its key correspond, if the keys are those that can be reached. -/
theorem bisimulation_tabulate {limit : Nat} (hover : (M.search limit).overflow = false)
    (h : M.start ∈ (M.search limit).found) :
    Bisimulation (fun i k => (M.search limit).found.toList[i]? = some k)
      (M.tabulate S (M.search limit).found h).system M := by
  refine ⟨fun i k hk => isFinal_tabulate hk, fun i k hk => ?_⟩
  -- what can be reached is closed under arcs, so no arc is dropped for want of a number
  have htargets : ∀ a ∈ M.arcs k, a.target ∈ (M.search limit).found := by
    intro a ha
    obtain ⟨ls, htrace⟩ := (mem_search_iff hover).1
      (Numbering.mem_iff_mem_toList.2 (List.mem_of_getElem? hk))
    exact (mem_search_iff hover).2 ⟨_, htrace.snoc ha⟩
  show List.Forall₂ _ ((M.tabulate S _ h).transitions i) (M.arcs k)
  rw [Automaton.transitions, state_tabulate hk, row]
  dsimp only
  generalize M.arcs k = as at htargets
  induction as with
  | nil => exact .nil
  | cons a as ih =>
    obtain ⟨j, hj⟩ := Numbering.mem_iff_exists_number.1 (htargets a (by simp))
    rw [List.filterMap_cons, hj]
    refine .cons ⟨rfl, Numbering.number?_eq_some_iff_getElem?.1 hj⟩ (ih fun b hb => ?_)
    exact htargets b (by simp [hb])

/-- Systems that correspond one to one are explored in the same order, under any limits that are
great enough. -/
theorem Bisimulation.alike_search (h : Bisimulation R M N) (hR : Search.OneToOne R)
    (hstart : R M.start N.start) {limit limit' : Nat} (hM : (M.search limit).overflow = false)
    (hN : (N.search limit').overflow = false) :
    Search.Alike R (M.search limit) (N.search limit') := by
  -- under one limit for both they go side by side, and more room changes neither of them
  have hMle : M.search (limit + limit') = M.search limit :=
    Search.run_eq_of_le (Nat.le_add_right _ _) hM
  have hNle : N.search (limit + limit') = N.search limit' :=
    Search.run_eq_of_le (Nat.le_add_left _ _) hN
  rw [← hMle, ← hNle]
  refine Search.alike_run hR (fun k l hkl => ?_) (.cons hstart .nil) _
  exact List.forall₂_map_left_iff.2 (List.forall₂_map_right_iff.2
    ((h.arcs k l hkl).imp fun _ _ hab => hab.2))

/-- So they tabulate to the same automaton. -/
theorem Bisimulation.tabulate_search_eq (h : Bisimulation R M N) (hR : Search.OneToOne R)
    (hstart : R M.start N.start) {limit limit' : Nat} (hM : (M.search limit).overflow = false)
    (hN : (N.search limit').overflow = false) (hm : M.start ∈ (M.search limit).found)
    (hn : N.start ∈ (N.search limit').found) :
    M.tabulate S (M.search limit).found hm = N.tabulate S (N.search limit').found hn :=
  h.tabulate_eq hR hstart (h.alike_search hR hstart hM hN).keys hm hn

end TransitionSystem

end FiniteState
