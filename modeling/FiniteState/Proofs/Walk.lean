import FiniteState.Proofs.Bound

/-!
# Walks that are sure to end

A walk fails if it comes to a state from which it cannot go on, or if it has taken as many steps as
the sampler allows. In a trimmed automaton the first cannot happen: whatever is drawn, an accepting
state can still be reached from the state that the walk is in. The second cannot happen if no
accepted trace is longer than the bound, since every walk is the beginning of such a trace.

* `exists_walkFrom`: the invariant along a walk.
* `length_sampleWithDuplicates`: as many words as requested are drawn, if there is any word.
* `drawn_along_paths`: the words that are drawn, and how many.
* `Deterministic.length_le_of_trace`: a bound on traces from the words that they spell.
-/

namespace FiniteState

namespace Automaton

variable {A : Automaton} {m n : Nat}

/-- No accepting path has more than `n` transitions. -/
def Spans (n : Nat) (A : Automaton) : Prop := ∀ ls, A.Carries ls → ls.length ≤ n

theorem Spans.mono (hA : A.Spans m) (h : m ≤ n) : A.Spans n := fun ls hls => (hA ls hls).trans h

theorem Spans.trim (hA : A.Spans n) : A.trim.Spans n := fun ls hls => hA ls (carries_trim_iff.1 hls)

/-- A walk in a trimmed automaton can always be completed, if anything is accepted. -/
theorem coaccessible_trim (hne : ∃ ls, A.Carries ls) :
    A.trim.system.Coaccessible A.trim.start :=
  fun _ _ hus => (useful_trim hne (trace_lt_size hus A.trim.start_lt_size)).2

end Automaton

namespace Sampler

variable {ρ : Type} [RandomSource ρ] {A : Automaton} {s s' : Sampler ρ}

/-! ## Walks

In a trimmed automaton a walk never gets stuck. It is lost only if its steps are used up, which
cannot happen when they suffice for the longest accepting path. -/

/-- From a state that always leaves a way to an accepting one, a walk is completed in any number of
steps that is enough for the accepted traces. -/
theorem exists_walkFrom {steps q : Nat} (hlive : A.system.Coaccessible q)
    (hsteps : ∀ ls, A.system.AcceptsFrom q ls → ls.length < steps) (written : Word)
    (s : Sampler ρ) : ∃ w s', walkFrom A steps q written s = (some w, s') := by
  obtain ⟨vs, hvs⟩ := hlive [] q (.nil q)
  -- the induction is on the steps that are left; both hypotheses pass on to the target of an arc
  induction steps generalizing q written s vs with
  | zero => exact absurd (hsteps vs hvs) (Nat.not_lt_zero _)
  | succ steps ih =>
    rcases walkFrom_step A steps q written s with
      ⟨hnone, hreject, -⟩ | ⟨-, hend⟩ | ⟨t, ht, hon⟩
    · -- no state from which something is accepted is a dead end
      cases vs with
      | nil =>
        have haccept : A.isFinal q = true := TransitionSystem.acceptsFrom_nil_iff.1 hvs
        exact absurd haccept (Bool.eq_false_iff.1 hreject)
      | cons p vs =>
        obtain ⟨t, ht, -⟩ := TransitionSystem.acceptsFrom_cons_iff.1 hvs
        exact absurd (show t ∈ A.transitions q from ht) (hnone ▸ List.not_mem_nil)
    · exact ⟨written.reverse, _, hend⟩
    · have htlive : A.system.Coaccessible t.target := hlive.target ht
      obtain ⟨us, hus⟩ := htlive [] _ (.nil _)
      have htsteps : ∀ ls, A.system.AcceptsFrom t.target ls → ls.length < steps := by
        intro ls hls
        have hlonger := hsteps _ (TransitionSystem.acceptsFrom_cons_iff.2 ⟨t, ht, rfl, hls⟩)
        exact Nat.lt_of_succ_lt_succ hlonger
      obtain ⟨w, s', hwalk⟩ := ih htlive htsteps (t.output.toWord ++ written) _ us hus
      exact ⟨w, s', hon.trans hwalk⟩

/-- From a live start a walk ends in time, if no path is longer than the bound. -/
theorem exists_walk (hlive : A.system.Coaccessible A.start) (hspans : A.Spans s.maxLength) :
    ∃ w s', walk A s = (some w, s') :=
  exists_walkFrom hlive (fun ls hls => Nat.lt_succ_of_le (hspans ls hls)) [] s

/-- If the first walk ends in time it is the one that counts. -/
theorem firstWalk_of_walk {tries : Nat} {w : Word} (h : walk A s = (some w, s')) :
    firstWalk A (tries + 1) s = (some w, s') :=
  StateM.bind_eq_iff.2 ⟨some w, s', h, rfl⟩

/-- If every walk ends in time, there are as many words as walks. -/
theorem length_walks {n : Nat} {ws : List Word} (hlive : A.system.Coaccessible A.start)
    (hspans : A.Spans s.maxLength) (h : walks A n s = (ws, s')) : ws.length = n := by
  induction n generalizing s s' ws with
  | zero =>
    obtain ⟨rfl, -⟩ := StateM.pure_eq_iff.1 h
    rfl
  | succ n ih =>
    obtain ⟨found, t, hwalk, h⟩ := StateM.bind_eq_iff.1 h
    obtain ⟨rest, u, hrest, h⟩ := StateM.bind_eq_iff.1 h
    obtain ⟨rfl, -⟩ := StateM.pure_eq_iff.1 h
    obtain ⟨w, s'', hsome⟩ := exists_walk hlive hspans
    obtain ⟨rfl, rfl⟩ := Prod.mk.inj (hsome.symm.trans hwalk)
    rw [← (keepsBound_walk A).eq hwalk] at hspans
    show (w :: rest).length = n + 1
    rw [List.length_cons, ih hspans hrest]

/-- As many words are drawn as requested, if there is any word and the sampler admits the lengths of
all accepted traces. -/
theorem length_sampleWithDuplicates {n : Nat} {ws : List Word} (hspans : A.Spans s.maxLength)
    (h : sampleWithDuplicates A n s = (ws, s')) : ws.length = if A.isEmpty then 0 else n := by
  unfold sampleWithDuplicates at h
  split at h
  next hempty =>
    obtain ⟨rfl, -⟩ := StateM.pure_eq_iff.1 h
    rw [if_pos hempty]
    rfl
  next hempty =>
    obtain ⟨drawn, t, hdrawn, h⟩ := StateM.bind_eq_iff.1 h
    obtain ⟨rfl, -⟩ := StateM.pure_eq_iff.1 h
    have hne := Automaton.exists_carries_of_not_isEmpty hempty
    rw [if_neg hempty, Word.sortByLength, List.length_mergeSort]
    exact length_walks (Automaton.coaccessible_trim hne) hspans.trim hdrawn

/-- A word is picked, if there is any and the sampler admits the lengths of all accepted traces: the
first walk succeeds, so there is no need for another one. -/
theorem exists_pick (hne : ∃ ls, A.Carries ls) (hspans : A.Spans s.maxLength) :
    ∃ w s', pick A s = (some w, s') := by
  obtain ⟨w, s', hwalk⟩ := exists_walk (Automaton.coaccessible_trim hne) hspans.trim
  exact ⟨w, s', firstWalk_of_walk hwalk⟩

theorem pairwise_sampleWithDuplicates {n : Nat} {ws : List Word}
    (h : sampleWithDuplicates A n s = (ws, s')) :
    ws.Pairwise fun u v => u.length ≤ v.length := by
  unfold sampleWithDuplicates at h
  split at h
  · obtain ⟨rfl, -⟩ := StateM.pure_eq_iff.1 h
    exact .nil
  · obtain ⟨drawn, t, -, h⟩ := StateM.bind_eq_iff.1 h
    obtain ⟨rfl, -⟩ := StateM.pure_eq_iff.1 h
    exact Word.pairwise_sortByLength drawn

end Sampler

/-! ## The length of paths -/

namespace Automaton

variable {A : Automaton}

/-- Every accepting path is one of the trimmed automaton. -/
theorem spans_of_path_trim {n : Nat}
    (hpaths : ∀ ts q, A.trim.Path A.trim.start ts q → ts.length ≤ n) : A.Spans n := by
  intro ls hls
  obtain ⟨ts, ⟨q, hpath, -⟩, rfl⟩ := carries_iff_path.1 (carries_trim_iff.2 hls)
  rw [List.length_map]
  exact hpaths ts q hpath

/-- A path on which the states have larger and larger numbers is shorter than the automaton. -/
theorem Path.add_length_lt_size (hup : ∀ p < A.size, ∀ t ∈ A.transitions p, p < t.target)
    {p q : Nat} {ts : List Transition} (h : A.Path p ts q) (hp : p < A.size) :
    p + ts.length < A.size := by
  induction h with
  | nil p => exact hp
  | @cons p q t ts ht _ ih =>
    have hlt := hup p hp t ht
    have hrest := ih (target_lt_size ht)
    rw [List.length_cons]
    omega

end Automaton

/-- Every arc of a deterministic system reads or writes a symbol. -/
theorem TransitionSystem.Deterministic.length_le_of_trace {κ : Type} {M : TransitionSystem κ}
    (hM : M.Deterministic) {k l : κ} {ls : List (Label × Label)} (h : M.Trace k ls l) :
    ls.length ≤ (spellLabels .input ls).length + (spellLabels .output ls).length := by
  induction h with
  | nil => exact Nat.zero_le _
  | @cons k l a ls ha _ ih =>
    have hloud : 1 ≤ a.input.toWord.length + a.output.toWord.length := by
      have hsilent := hM.isSilent_eq_false _ _ ha
      cases hinput : a.input with
      | symbol s => exact Nat.le_add_right 1 _
      | epsilon =>
        cases houtput : a.output with
        | symbol s => exact Nat.le_refl 1
        | epsilon => rw [Arc.isSilent, hinput, houtput] at hsilent; cases hsilent
    simp only [List.length_cons, spellLabels_cons, List.length_append]
    show _ ≤ a.input.toWord.length + _ + (a.output.toWord.length + _)
    omega

/-- The accepted traces of a deterministic automaton are no longer than the words that it
relates are together. -/
theorem Automaton.spans_of_relates {A : Automaton} (hA : A.system.Deterministic) {n : Nat}
    (hlength : ∀ x y, A.Relates x y → x.length + y.length ≤ n) : A.Spans n := by
  intro ls hls
  obtain ⟨q, htrace, -⟩ := id hls
  calc ls.length
      ≤ (spellLabels .input ls).length + (spellLabels .output ls).length :=
        hA.length_le_of_trace htrace
    _ ≤ n := hlength _ _ (relates_iff_carries.2 ⟨ls, hls, rfl, rfl⟩)

/-! ## What is drawn -/

namespace Sampler

variable {ρ : Type} [RandomSource ρ]

/-- Whatever is drawn, a word comes from an accepting path that the sampler admits; and if it
admits all the paths of the trimmed automaton, no walk is lost. -/
theorem drawn_along_paths (A : Automaton) (n : Nat) (s : Sampler ρ) :
    (∀ w, (pick A s).1 = some w → A.Writes s.maxLength w)
      ∧ (∀ w ∈ (sampleWithDuplicates A n s).1, A.Writes s.maxLength w)
      ∧ (sampleWithDuplicates A n s).1.Pairwise (fun u v => u.length ≤ v.length)
      ∧ ((∃ ts, A.AcceptingPath ts) →
          (∀ ts q, A.trim.Path A.trim.start ts q → ts.length ≤ s.maxLength) →
          (∃ w, (pick A s).1 = some w) ∧ (sampleWithDuplicates A n s).1.length = n) := by
  refine ⟨fun w hw => writes_of_pick (Prod.ext hw rfl),
    fun w hw => writes_of_mem_sampleWithDuplicates Prod.mk.eta.symm hw,
    pairwise_sampleWithDuplicates Prod.mk.eta.symm, ?_⟩
  rintro ⟨ts, hts⟩ hpaths
  have hne : ∃ ls, A.Carries ls := ⟨_, Automaton.carries_iff_path.2 ⟨ts, hts, rfl⟩⟩
  have hspans : A.Spans s.maxLength := Automaton.spans_of_path_trim hpaths
  have hnonempty : ¬ A.isEmpty = true := fun hempty =>
    hne.elim (Automaton.isEmpty_iff.1 hempty)
  constructor
  · obtain ⟨w, s', hpick⟩ := exists_pick hne hspans
    exact ⟨w, congrArg Prod.fst hpick⟩
  · exact (length_sampleWithDuplicates hspans Prod.mk.eta.symm).trans (if_neg hnonempty)

/-- Rewrites an a as a b, which a c may follow that is inserted. From the other target of an a
nothing can be accepted, but one may go around there for ever. -/
def detour : Automaton where
  alphabet := .abcd
  states := #[
    { transitions := [⟨.symbol ⟨0⟩, .symbol ⟨0⟩, 1⟩, ⟨.symbol ⟨0⟩, .symbol ⟨1⟩, 2⟩] },
    { transitions := [⟨.symbol ⟨0⟩, .symbol ⟨0⟩, 1⟩] },
    { transitions := [⟨.epsilon, .symbol ⟨2⟩, 3⟩], accepting := true },
    { accepting := true }]
  start := 0
  start_lt := by decide
  target_lt := by decide

/-- A sampler for walks of at most two steps. -/
def twoSteps : Sampler := { random := .ofSeed 0, maxLength := 2 }

/-- With two steps to go, every walk in what is left of `detour` is completed. -/
theorem drawn_from_detour :
    (∃ w, (pick detour twoSteps).1 = some w ∧ detour.Writes 2 w)
      ∧ (sampleWithDuplicates detour 5 twoSteps).1.length = 5
      ∧ ∀ w ∈ (sampleWithDuplicates detour 5 twoSteps).1, detour.Writes 2 w := by
  obtain ⟨hpicked, hsampled, -, hdrawn⟩ := drawn_along_paths detour 5 twoSteps
  have haccepting : ∃ ts, detour.AcceptingPath ts :=
    ⟨_, _, .cons (.tail _ (.head _)) (.nil _), rfl⟩
  have hpaths : ∀ ts q, detour.trim.Path detour.trim.start ts q → ts.length ≤ 2 := by
    intro ts q hpath
    have hup : ∀ p < detour.trim.size, ∀ t ∈ detour.trim.transitions p, p < t.target := by
      decide +kernel
    have hlt := hpath.add_length_lt_size hup (Automaton.start_lt_size _)
    have hsize : detour.trim.size = 3 := by cbv
    omega
  obtain ⟨⟨w, hw⟩, hlength⟩ := hdrawn haccepting hpaths
  exact ⟨⟨w, hw, hpicked w hw⟩, hlength, hsampled⟩

end Sampler

end FiniteState
