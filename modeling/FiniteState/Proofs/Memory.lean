import FiniteState.Proofs.Explosion
import Mathlib.Data.Fintype.Option

/-!
# What an automaton remembers of a word

The subset construction meets the sets of states that words lead to. If a summary of a word tells
which states it leads to, there are no more sets than summaries, however many states there are.

* `ReachableSet.exists_word`: the sets are those that words lead to.
* `Remembers`: nothing but the summary of a word decides which states it leads to.
* `Remembers.encard_le`: no more sets than summaries.
* `Remembers.sum`, `Remembers.sequence`: the summaries of composed automata.
-/

namespace FiniteState

namespace Automaton

variable {A B : Automaton} {S : Alphabet} {p q : Nat} {u v w : Word}

/-! ## Words and states

An acceptor writes what it reads, so its runs are told by one word. Since there may be silent
transitions in between, a word leads to many states. -/

/-- The word leads from the start to the state. -/
def Meets (A : Automaton) (w : Word) (q : Nat) : Prop := A.system.Runs A.start w w q

theorem eq_of_runs (hA : A.AllLabels Copying) (h : A.system.Runs p u v q) : u = v := by
  induction h with
  | nil => rfl
  | cons ht _ ih =>
    have hcopies : _ = _ := allLabels_iff.1 hA _ _ ht
    exact congrArg₂ (· ++ ·) (congrArg Label.toWord hcopies) ih

/-- A word is accepted if it meets an accepting state. -/
theorem accepts_iff_meets (hA : A.AllLabels Copying) :
    A.accepts w = true ↔ ∃ q, A.Meets w q ∧ A.isFinal q = true := by
  rw [accepts_iff_relates_self (allLabels_copying_iff.1 hA), relates_iff_maps]
  rfl

theorem meets_lt_size (h : A.Meets w q) : q < A.size := runs_lt_size h A.start_lt_size

/-- A run along a word in two parts passes a state in between. -/
theorem runs_append_iff (hA : A.AllLabels Copying) :
    A.system.Runs p (u ++ v) (u ++ v) q ↔ ∃ m, A.system.Runs p u u m ∧ A.system.Runs m v v q := by
  constructor
  · intro h
    induction u generalizing p with
    | nil => exact ⟨p, .nil p, h⟩
    | cons s u ih =>
      obtain ⟨m, y₁, y₂, t, ht, hsilent, hinput, hrest, -⟩ := h.exists_of_cons
      -- silent transitions up to one that reads the symbol, and then the rest of the word
      obtain rfl := eq_of_runs hA hsilent
      obtain rfl := eq_of_runs hA hrest
      obtain ⟨l, hu, hv⟩ := ih hrest
      have hcopies : t.input = t.output := allLabels_iff.1 hA m t ht
      have hfirst := hsilent.append (.cons ht hu)
      rw [← hcopies, hinput] at hfirst
      exact ⟨l, hfirst, hv⟩
  · rintro ⟨m, hu, hv⟩
    exact hu.append hv

/-- A run is a path seen from the words on its tapes. -/
theorem runs_iff_path : A.system.Runs p u v q
    ↔ ∃ ts, A.Path p ts q ∧ spell .input ts = u ∧ spell .output ts = v := by
  rw [TransitionSystem.runs_iff_trace]
  constructor
  · rintro ⟨ls, htrace, rfl, rfl⟩
    obtain ⟨ts, hpath, rfl⟩ := trace_iff_path.1 htrace
    exact ⟨ts, hpath, spell_eq_spellLabels .input ts, spell_eq_spellLabels .output ts⟩
  · rintro ⟨ts, hpath, rfl, rfl⟩
    exact ⟨_, trace_iff_path.2 ⟨ts, hpath, rfl⟩, (spell_eq_spellLabels .input ts).symm,
      (spell_eq_spellLabels .output ts).symm⟩

/-- Silent transitions are what is left between the letters of a word. -/
theorem mem_silentReach_iff {X : Set Nat} :
    q ∈ A.silentReach X ↔ ∃ p ∈ X, A.system.Runs p [] [] q := by
  simp only [runs_iff_path, spell_eq_nil_iff, ← forall₂_and]
  refine exists_congr fun p => and_congr_right fun _ => exists_congr fun ts => ?_
  refine and_congr_right fun _ => forall₂_congr fun t _ => ?_
  exact Bool.and_eq_true_iff

/-- A word and one more symbol lead to what the word leads to, then a transition that copies the
symbol, then silent transitions. -/
theorem setOf_meets_concat (hA : A.AllLabels Copying) (w : Word) (s : Symbol) :
    {q | A.Meets (w ++ [s]) q} = A.successor {q | A.Meets w q} (letter s) := by
  ext q
  rw [successor, mem_silentReach_iff, Set.mem_ofPred_eq, Meets, runs_append_iff hA]
  constructor
  · rintro ⟨p, hw, hs⟩
    obtain ⟨m, y₁, y₂, t, ht, hsilent, hinput, hrest, -⟩ := hs.exists_of_cons
    obtain rfl := eq_of_runs hA hsilent
    obtain rfl := eq_of_runs hA hrest
    have hm : A.Meets w m := by
      have h := hw.append hsilent
      rwa [List.append_nil] at h
    have hcopies : t.input = t.output := allLabels_iff.1 hA m t ht
    exact ⟨t.target, ⟨m, hm, t, ht, Prod.ext hinput (hcopies.symm.trans hinput), rfl⟩, hrest⟩
  · rintro ⟨_, ⟨p, hp, t, ht, hlabels, rfl⟩, hsilent⟩
    have hstep := TransitionSystem.Runs.cons (M := A.system) ht hsilent
    rw [(Prod.mk.inj hlabels).1, (Prod.mk.inj hlabels).2] at hstep
    exact ⟨p, hp, hstep⟩

/-- In a proper automaton a transition that is not silent copies a letter of Σ. -/
theorem Proper.exists_letter (hA : A.Proper S) {t : Transition} (ht : t ∈ A.transitions q)
    (haudible : t.isSilent = false) : ∃ s, S.contains s = true ∧ t.labels = letter s := by
  obtain ⟨s, hs, hlabels⟩ := hA.overAlphabet.exists_letter ht haudible
  exact ⟨s, (Alphabet.contains_congr hA.symbols s).symm.trans hs, hlabels⟩

/-- The sets that determinization meets are those that words over Σ lead to. -/
theorem ReachableSet.exists_word (hA : A.Proper S) {X : Set Nat} (h : A.ReachableSet X) :
    ∃ w : Word, w.Over S ∧ X = {q | A.Meets w q} := by
  have hcopying : A.AllLabels Copying := hA.plain.mono fun _ => And.left
  induction h with
  | start =>
    refine ⟨[], Word.over_nil S, Set.ext fun q => ?_⟩
    rw [mem_silentReach_iff]
    simp [Meets]
  | @step X p t _ hp ht haudible ih =>
    obtain ⟨w, hw, rfl⟩ := ih
    obtain ⟨s, hs, hlabels⟩ := hA.exists_letter ht haudible
    refine ⟨w ++ [s], Word.over_append_iff.2 ⟨hw, Word.over_cons_iff.2 ⟨hs, Word.over_nil S⟩⟩, ?_⟩
    rw [hlabels, setOf_meets_concat hcopying]

/-! ## Summaries of words

A summary says of a word what an automaton needs to know. The states that the word leads to must be
the same for all words over Σ with this summary. -/

/-- Words over Σ with the same summary lead to the same states. -/
def Remembers {κ : Type} (S : Alphabet) (A : Automaton) (f : Word → κ) : Prop :=
  ∀ u v : Word, u.Over S → v.Over S → f u = f v → ∀ q, A.Meets u q → A.Meets v q

/-- A function takes no more values than there are arguments. -/
theorem encard_range_le {ι α : Type} [Fintype ι] (f : ι → α) :
    (Set.range f).encard ≤ (Fintype.card ι : ℕ∞) := by
  rw [← Set.image_univ]
  calc (f '' Set.univ).encard ≤ (Set.univ : Set ι).encard := Set.encard_image_le f Set.univ
    _ = (Fintype.card ι : ℕ∞) := by rw [Set.encard_univ, ENat.card_eq_coe_fintype_card]

/-- Each summary stands for one set of states, so there are no more sets than summaries. -/
theorem Remembers.encard_le {κ : Type} [Fintype κ] {f : Word → κ} (h : A.Remembers S f)
    (hA : A.Proper S) : {X | A.ReachableSet X}.encard ≤ (Fintype.card κ : ℕ∞) := by
  let states (k : κ) : Set Nat := {q | ∃ w : Word, w.Over S ∧ f w = k ∧ A.Meets w q}
  have hsubset : {X | A.ReachableSet X} ⊆ Set.range states := by
    intro X hX
    obtain ⟨w, hw, rfl⟩ := ReachableSet.exists_word hA hX
    refine ⟨f w, Set.ext fun q => ⟨?_, fun hq => ⟨w, hw, rfl, hq⟩⟩⟩
    rintro ⟨v, hv, hsame, hq⟩
    exact h v w hv hw hsame q hq
  calc {X | A.ReachableSet X}.encard
      ≤ (Set.range states).encard := Set.encard_le_encard hsubset
    _ ≤ (Fintype.card κ : ℕ∞) := encard_range_le states

/-- A coarser summary may be made finer. -/
theorem Remembers.of_comp {κ ι : Type} {f : Word → κ} {g : Word → ι} (h : A.Remembers S g)
    (hfg : ∀ u v, f u = f v → g u = g v) : A.Remembers S f :=
  fun u v hu hv hsame => h u v hu hv (hfg u v hsame)

/-! ## Deterministic automata

A word leads a deterministic automaton to one state at most, which is all that there is to
remember. -/

/-- A proper automaton that is deterministic has no silent transition, so it is lettered. -/
theorem Proper.lettered (hA : A.Proper S) (hdeterministic : A.system.Deterministic) :
    A.Lettered S :=
  fun q _ ht => hA.exists_letter ht (hdeterministic.isSilent_eq_false q _ ht)

/-- A deterministic automaton needs to remember nothing but the one state that a word meets, if it
meets any. -/
theorem Lettered.exists_remembers (hA : A.Lettered S) (hdeterministic : A.system.Deterministic) :
    ∃ f : Word → Option (Fin A.size), A.Remembers S f := by
  have hstate (w : Word) : ∃ o : Option (Fin A.size), ∀ q, o = some q ↔ A.Meets w q := by
    by_cases h : ∃ q : Fin A.size, A.Meets w q
    · obtain ⟨p, hp⟩ := h
      refine ⟨some p, fun q => ?_⟩
      rw [Option.some_inj]
      exact ⟨fun heq => heq ▸ hp, fun hq => Fin.ext (hA.run_unique hdeterministic hp hq)⟩
    · exact ⟨none, fun q => iff_of_false nofun fun hq => h ⟨q, hq⟩⟩
  choose f hf using hstate
  refine ⟨f, fun u v _ _ hsame q hq => ?_⟩
  have hu : f u = some ⟨q, meets_lt_size hq⟩ := (hf u _).2 hq
  exact (hf v _).1 (hsame.symm.trans hu)

/-! ## Unions and concatenations

A union remembers for each operand what it remembers, and whether anything has been read. In a
concatenation, what matters is where a word may be divided. -/

/-- In a union the empty word meets the new start, and every word meets what it meets in either
operand. -/
theorem meets_sum_iff : (A.sum B).Meets w p
    ↔ (w = [] ∧ p = (A.sum B).start) ∨ (∃ q, p = q + 1 ∧ A.Meets w q)
      ∨ ∃ q, p = q + (A.size + 1) ∧ B.Meets w q := by
  rw [Meets, runs_sum_iff]
  refine or_congr ?_ (or_congr ?_ ?_)
  · exact ⟨fun ⟨h, _, h'⟩ => ⟨h, h'⟩, fun ⟨h, h'⟩ => ⟨h, h, h'⟩⟩
  · exact ⟨fun ⟨q, _, h⟩ => ⟨q, h⟩, fun ⟨q, h, h'⟩ => ⟨q, meets_lt_size h', h, h'⟩⟩
  · exact ⟨fun ⟨q, _, h⟩ => ⟨q, h⟩, fun ⟨q, h, h'⟩ => ⟨q, meets_lt_size h', h, h'⟩⟩

/-- A union remembers what its operands do, and whether anything was read. -/
theorem Remembers.sum {κ ι : Type} {f : Word → κ} {g : Word → ι} (hA : A.Remembers S f)
    (hB : B.Remembers S g) : (A.sum B).Remembers S fun w => (w.isEmpty, f w, g w) := by
  intro u v hu hv hsame p hp
  obtain ⟨hempty, hf, hg⟩ : u.isEmpty = v.isEmpty ∧ f u = f v ∧ g u = g v := by
    simpa only [Prod.mk.injEq] using hsame
  rw [meets_sum_iff] at hp ⊢
  refine hp.imp (fun ⟨h, hstart⟩ => ?_) (Or.imp (fun ⟨q, hq, h⟩ => ?_) fun ⟨q, hq, h⟩ => ?_)
  · rw [h] at hempty
    exact ⟨List.isEmpty_iff.1 hempty.symm, hstart⟩
  · exact ⟨q, hq, hA u v hu hv hf q h⟩
  · exact ⟨q, hq, hB u v hu hv hg q h⟩

/-- The first automaton accepts a part of the word, and the rest leads the second one to the
state. -/
def Crosses (A B : Automaton) (w : Word) (q : Nat) : Prop :=
  ∃ u v, w = u ++ v ∧ A.accepts u = true ∧ B.Meets v q

/-- In a concatenation a word meets what it meets in the first operand, and what the rest of it
meets in the second after a part that is accepted. -/
theorem meets_sequence_iff {keep : Bool} (hA : A.AllLabels Copying) (hB : B.AllLabels Copying) :
    (A.sequence B keep).Meets w p
      ↔ A.Meets w p ∨ ∃ q, p = q + A.size ∧ A.Crosses B w q := by
  rw [Meets]
  refine runs_sequence_iff.trans (or_congr ?_ ?_)
  · exact ⟨And.right, fun h => ⟨meets_lt_size h, h⟩⟩
  · constructor
    · rintro ⟨u, u', v, v', rfl, hsame, hfirst, q, -, hp, hsecond⟩
      obtain rfl := eq_of_relates (allLabels_copying_iff.1 hA) hfirst
      obtain rfl := eq_of_runs hB hsecond
      exact ⟨q, hp, u, v, rfl, accepts_iff_exists_relates.2 ⟨u, hfirst⟩, hsecond⟩
    · rintro ⟨q, hp, u, v, rfl, haccepts, hsecond⟩
      have hfirst := (accepts_iff_relates_self (allLabels_copying_iff.1 hA)).1 haccepts
      exact ⟨u, u, v, v, rfl, rfl, hfirst, q, meets_lt_size hsecond, hp, hsecond⟩

/-- A concatenation accepts the words that can be cut in two. -/
theorem accepts_sequence_iff (hA : A.AllLabels Copying) (hB : B.AllLabels Copying) :
    (A.sequence B false).accepts w = true
      ↔ ∃ u v, w = u ++ v ∧ A.accepts u = true ∧ B.accepts v = true := by
  have hAacceptor := allLabels_copying_iff.1 hA
  have hBacceptor := allLabels_copying_iff.1 hB
  rw [accepts_iff_relates_self (allLabels_copying_iff.1 (hA.sequence hB copying_silent false)),
    relates_sequence_iff]
  simp only [Bool.false_eq_true, false_and, false_or, accepts_iff_relates_self hAacceptor,
    accepts_iff_relates_self hBacceptor]
  constructor
  · rintro ⟨u, u', v, v', hu, hv, rfl, -⟩
    obtain rfl := eq_of_relates hAacceptor hu
    obtain rfl := eq_of_relates hBacceptor hv
    exact ⟨u, v, rfl, hu, hv⟩
  · rintro ⟨u, v, rfl, hu, hv⟩
    exact ⟨u, u, v, v, hu, hv, rfl, rfl⟩

/-- The summary must tell what the first automaton remembers, and where the second one can be after
words that the first one accepts. -/
theorem Remembers.sequence {κ : Type} {f : Word → κ} {keep : Bool} (hf : A.Remembers S f)
    (hA : A.AllLabels Copying) (hB : B.AllLabels Copying)
    (hcrosses : ∀ u v : Word, u.Over S → v.Over S → f u = f v →
      ∀ q, A.Crosses B u q → A.Crosses B v q) :
    (A.sequence B keep).Remembers S f := by
  intro u v hu hv hsame p hp
  rw [meets_sequence_iff hA hB] at hp ⊢
  rcases hp with hp | ⟨q, hq, hp⟩
  · exact .inl (hf u v hu hv hsame p hp)
  · exact .inr ⟨q, hq, hcrosses u v hu hv hsame q hp⟩

end Automaton

end FiniteState
