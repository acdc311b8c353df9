import FiniteState.Proofs.Accounting

/-!
# The two halves of a run

The splits of short words are drawn from the same buckets one after the other, and so are those of
long words: within a half, words that were removed do not come back. The buckets of the second half
are built for the target anew, as if nothing had been drawn. What keeps the halves apart is the
length of their words, and nothing else does: a word whose length lies in both ranges can be drawn
again.

* `Session.Performs`: calls of a session, one after the other.
* `run_halves`: which words two splits of a run can share.
* `run_shares_word`: a word of the development split that is also in the last test.
-/

namespace FiniteState

open LengthBuckets

/-- The words of the examples. -/
def Split.words (p : Split) : List String := p.examples.map (·.word)

namespace Session

/-- The name of the split that is asked for. -/
def Call.name : Call → String
  | .withDuplicates name _ _ => name
  | .withoutDuplicates name _ => name
  | .adversarial name _ => name

variable {ρ : Type} [RandomSource ρ] {s t : Session ρ} {target : Automaton} {least most : Nat}
  {split : Split}

/-- A split has the name that was asked for. -/
theorem Call.name_of_perform {call : Call} (h : call.perform s = (.ok split, t)) :
    split.name = call.name := by
  cases call with
  | withDuplicates name n shrinking =>
    obtain ⟨_, rfl, -⟩ := withDuplicates_eq_ok h
    rfl
  | withoutDuplicates name n =>
    obtain ⟨_, rfl, -⟩ := withoutDuplicates_eq_ok h
    rfl
  | adversarial name n =>
    obtain ⟨_, _, -, -, rfl⟩ := adversarial_eq_ok h
    rfl

/-- The session makes the calls, one after the other, and draws the splits. -/
inductive Performs : Session ρ → List (Call × Split) → Session ρ → Prop
  | nil (s : Session ρ) : Performs s [] s
  | cons {s t u : Session ρ} {call : Call} {split : Split} {rest : List (Call × Split)}
      (hcall : call.perform s = (.ok split, t)) (hrest : Performs t rest u) :
      Performs s ((call, split) :: rest) u

variable {ps : List (Call × Split)}

/-- The calls of a session are a history of its buckets. -/
theorem Performs.exists_history (h : Performs s ps t) (hs : s.Serves target least most) :
    ∃ outcomes, History target.alphabet s.buckets outcomes
      ∧ outcomes.map (fun o => (o.call, o.split)) = ps := by
  induction h with
  | nil s => exact ⟨[], .nil _, rfl⟩
  | @cons s t u call split rest hcall hrest ih =>
    obtain ⟨outcomes, hhistory, hps⟩ := ih (hs.perform call hcall).1
    refine ⟨⟨call, split, s.buckets, t.buckets⟩ :: outcomes, ?_, ?_⟩
    · exact .cons hs.symbols hcall hhistory
    · rw [List.map_cons, hps]

/-- No later split has a word that was removed with an earlier one. -/
theorem Performs.pairwise (h : Performs s ps t) (hs : s.Serves target least most) :
    ps.Pairwise fun c d => c.1.removes = true → c.2.words.Disjoint d.2.words := by
  obtain ⟨outcomes, hhistory, rfl⟩ := h.exists_history hs
  refine List.pairwise_map.2 ((hhistory.pairwise hs.legal).imp fun h hremoves word hw hw' => ?_)
  obtain ⟨e, he, rfl⟩ := List.mem_map.1 hw
  obtain ⟨e', he', heq⟩ := List.mem_map.1 hw'
  exact h hremoves e he e' he' heq.symm

/-- Every split holds words of the lengths in the range. -/
theorem Performs.has_length (h : Performs s ps t) (hs : s.Serves target least most) :
    ∀ c ∈ ps, ∀ word ∈ c.2.words, (LengthRange.mk least most).Has word.length := by
  induction h with
  | nil s => exact fun _ hc => absurd hc List.not_mem_nil
  | cons hcall hrest ih =>
    obtain ⟨hs', hrange⟩ := hs.perform _ hcall
    refine List.forall_mem_cons.2 ⟨fun word hw => ?_, ih hs'⟩
    obtain ⟨e, he, rfl⟩ := List.mem_map.1 hw
    exact hrange e he

/-- Splits come with the names of their calls. -/
theorem Performs.map_name (h : Performs s ps t) :
    ps.map (·.2.name) = ps.map (·.1.name) := by
  induction h with
  | nil s => rfl
  | cons hcall hrest ih => rw [List.map_cons, List.map_cons, ih, Call.name_of_perform hcall]

/-- The calls keep the alphabet of the generator. -/
theorem Performs.alphabet (h : Performs s ps t) (hs : s.Serves target least most) :
    t.generator.alphabet.symbols = target.alphabet.symbols := by
  induction h with
  | nil s => exact hs.symbols
  | cons hcall hrest ih => exact ih (hs.perform _ hcall).1

end Session

namespace Generator

open Session

variable {ρ : Type} [RandomSource ρ] {target : Automaton} {config : DatasetConfig}
  {s t : Session ρ} {splits : List Split}

/-- The short half performs its five calls in order. -/
theorem performs_shortSplits (h : shortSplits config s = (.ok splits, t)) :
    ∃ training dupDev dupTest dev test, splits = [training, dupDev, dupTest, dev, test]
      ∧ Performs s [(.withDuplicates "Training.txt" config.train true, training),
          (.withDuplicates "dup_d.txt" config.dupDev false, dupDev),
          (.withDuplicates "dup_t.txt" config.dupTest false, dupTest),
          (.withoutDuplicates "Dev.txt" config.dev, dev),
          (.withoutDuplicates "Test1.txt" config.test, test)] t := by
  obtain ⟨training, dupDev, dupTest, dev, test, s₁, s₂, s₃, s₄, h₁, h₂, h₃, h₄, h₅, rfl⟩ :=
    shortSplits_eq_ok h
  exact ⟨training, dupDev, dupTest, dev, test, rfl,
    .cons h₁ (.cons h₂ (.cons h₃ (.cons h₄ (.cons h₅ (.nil t)))))⟩

/-- The long half performs its two calls in order. -/
theorem performs_longSplits (h : longSplits config s = (.ok splits, t)) :
    ∃ pairs longTest, splits = [pairs, longTest]
      ∧ Performs s [(.adversarial "Test3.txt" config.adversarial, pairs),
          (.withoutDuplicates "Test2.txt" config.longTest, longTest)] t := by
  obtain ⟨pairs, longTest, s₁, h₁, h₂, rfl⟩ := longSplits_eq_ok h
  exact ⟨pairs, longTest, rfl, .cons h₁ (.cons h₂ (.nil t))⟩

/-- The splits for training, development and the first test share no words, nor do the two tests of
long words. A word can only be in splits of both halves if its length is in both ranges. -/
theorem run_halves (target : Automaton) (config : DatasetConfig) (g g' : Generator ρ)
    (r : DatasetRun) (hsymbols : g.alphabet.symbols = target.alphabet.symbols)
    (hrun : run target config g = (.ok r, g')) :
    ∃ training dupDev dupTest dev test pairs longTest,
      r.splits = [training, dupDev, dupTest, dev, test, pairs, longTest]
      ∧ r.splits.map Split.name = ["Training.txt", "dup_d.txt", "dup_t.txt", "Dev.txt",
          "Test1.txt", "Test3.txt", "Test2.txt"]
      ∧ training.words.Disjoint dev.words ∧ training.words.Disjoint test.words
      ∧ dev.words.Disjoint test.words ∧ pairs.words.Disjoint longTest.words
      ∧ ∀ p ∈ [training, dev, test], ∀ q ∈ [pairs, longTest], ∀ word ∈ p.words, word ∈ q.words →
          config.short.Has word.length ∧ config.long.Has word.length := by
  obtain ⟨B, L, short, long, s, t, hB, hL, hshort, hlong, rfl, rfl⟩ := run_eq_ok hrun
  obtain ⟨training, dupDev, dupTest, dev, test, rfl, hperforms⟩ := performs_shortSplits hshort
  obtain ⟨pairs, longTest, rfl, hperforms'⟩ := performs_longSplits hlong
  have hserves : Serves ⟨g, B⟩ target config.short.first config.short.last :=
    ⟨legal_build hB, hsymbols⟩
  have hserves' : Serves ⟨s.generator, L⟩ target config.long.first config.long.last :=
    ⟨legal_build hL, hperforms.alphabet hserves⟩
  have hpairwise := hperforms.pairwise hserves
  simp only [List.pairwise_cons, List.forall_mem_cons, Call.removes, true_implies] at hpairwise
  -- the splits with duplicates that remove nothing stand between these three
  obtain ⟨⟨-, -, hdev, htest, -⟩, -, -, ⟨hdevTest, -⟩, -⟩ := hpairwise
  -- both tests of long words remove what they take, so the second cannot take it again
  have hpairs := (List.pairwise_cons.1 (hperforms'.pairwise hserves')).1 _
    (List.mem_singleton_self _) rfl
  have hshort : ∀ p ∈ [training, dev, test], ∀ word ∈ p.words, config.short.Has word.length := by
    have hlength := hperforms.has_length hserves
    simp only [List.forall_mem_cons] at hlength ⊢
    obtain ⟨htraining, -, -, hdev, htest, -⟩ := hlength
    exact ⟨htraining, hdev, htest, nofun⟩
  have hlong : ∀ q ∈ [pairs, longTest], ∀ word ∈ q.words, config.long.Has word.length := by
    have hlength := hperforms'.has_length hserves'
    simp only [List.forall_mem_cons] at hlength ⊢
    obtain ⟨hpairs, hlongTest, -⟩ := hlength
    exact ⟨hpairs, hlongTest, nofun⟩
  refine ⟨training, dupDev, dupTest, dev, test, pairs, longTest, rfl, ?_, hdev, htest, hdevTest,
    hpairs, fun p hp q hq word hw hw' => ⟨hshort p hp word hw, hlong q hq word hw'⟩⟩
  calc [training, dupDev, dupTest, dev, test, pairs, longTest].map Split.name
      = [training, dupDev, dupTest, dev, test].map Split.name
          ++ [pairs, longTest].map Split.name := rfl
    _ = _ := congrArg₂ (· ++ ·) hperforms.map_name hperforms'.map_name

/-! ## A word in both halves -/

section Example

open EditTransducers

/-- A word for development and one for the last test, both of length one. -/
def sameLengths : DatasetConfig where
  short := ⟨1, 1⟩
  long := ⟨1, 1⟩
  train := 0
  dupDev := 0
  dupTest := 0
  dev := 1
  test := 0
  longTest := 1
  adversarial := 0

/-- The only accepted word is drawn twice; there is no rejected word for either split. -/
def runOfSameLengths : DatasetRun where
  splits := [⟨"Training.txt", []⟩, ⟨"dup_d.txt", []⟩, ⟨"dup_t.txt", []⟩,
    ⟨"Dev.txt", [⟨"a", .accept⟩]⟩, ⟨"Test1.txt", []⟩, ⟨"Test3.txt", []⟩,
    ⟨"Test2.txt", [⟨"a", .accept⟩]⟩]
  warnings := [.insufficientSamples 1 0, .insufficientSamples 1 0]

/-- The short half draws the word, and its bucket is empty afterwards. -/
theorem shortSplits_sameLengths :
    shortSplits sameLengths ⟨generatorOnlyA 2 0, bucketOfA⟩
      = (.ok (runOfSameLengths.splits.take 5),
          ⟨generatorOnlyA 6515331631289004364 1, bucketOfNothing⟩) := by
  cbv

/-- The long half draws it again, from a bucket made afresh. -/
theorem longSplits_sameLengths :
    longSplits sameLengths ⟨generatorOnlyA 6515331631289004364 1, bucketOfA⟩
      = (.ok (runOfSameLengths.splits.drop 5),
          ⟨generatorOnlyA 13030663262578008726 2, bucketOfNothing⟩) := by
  cbv

theorem run_sameLengths :
    run wordA sameLengths (generatorOnlyA 2 0)
      = (.ok runOfSameLengths, generatorOnlyA 13030663262578008726 0) :=
  run_eq_ok_of_splits build_wordA build_wordA shortSplits_sameLengths longSplits_sameLengths

/-- Within either half the splits of this run are disjoint, and a word in both halves has one
letter. -/
theorem run_halves_sameLengths :
    ∃ training dupDev dupTest dev test pairs longTest,
      runOfSameLengths.splits = [training, dupDev, dupTest, dev, test, pairs, longTest]
      ∧ training.words.Disjoint dev.words ∧ training.words.Disjoint test.words
      ∧ dev.words.Disjoint test.words ∧ pairs.words.Disjoint longTest.words
      ∧ ∀ p ∈ [training, dev, test], ∀ q ∈ [pairs, longTest], ∀ word ∈ p.words, word ∈ q.words →
          word.length = 1 := by
  obtain ⟨training, dupDev, dupTest, dev, test, pairs, longTest, hsplits, -, h₁, h₂, h₃, h₄, h⟩ :=
    run_halves wordA sameLengths (generatorOnlyA 2 0) _ runOfSameLengths rfl run_sameLengths
  refine ⟨training, dupDev, dupTest, dev, test, pairs, longTest, hsplits, h₁, h₂, h₃, h₄, ?_⟩
  intro p hp q hq word hw hw'
  obtain ⟨hshort, -⟩ := h p hp q hq word hw hw'
  exact Nat.le_antisymm hshort.2 hshort.1

/-- The halves of a run may share words: nothing keeps the ranges of their lengths apart. -/
theorem run_shares_word :
    ¬ ∀ (target : Automaton) (config : DatasetConfig) (g g' : Generator) (r : DatasetRun),
      target.OverAlphabet → run target config g = (.ok r, g') →
        ∀ p ∈ r.splits, ∀ q ∈ r.splits, p.name ∈ ["Training.txt", "Dev.txt", "Test1.txt"] →
          q.name ∈ ["Test2.txt", "Test3.txt"] → p.words.Disjoint q.words := by
  intro h
  have hover : wordA.OverAlphabet := by decide +kernel
  have hdisjoint := h wordA sameLengths (generatorOnlyA 2 0) _ runOfSameLengths hover
    run_sameLengths ⟨"Dev.txt", [⟨"a", .accept⟩]⟩ (by decide)
    ⟨"Test2.txt", [⟨"a", .accept⟩]⟩ (by decide) (by decide) (by decide)
  exact hdisjoint (List.mem_singleton_self "a") (List.mem_singleton_self "a")

end Example

end Generator

end FiniteState
