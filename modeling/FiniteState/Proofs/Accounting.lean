import FiniteState.Proofs.Attempts
import FiniteState.Proofs.Invariance

/-!
# What becomes of the requested examples

A run loses nothing silently: each example that was requested is in its split, or there is a
warning. The splits with duplicates are different in that nothing is recorded for them; they have
all that was requested for a slot as long as there is a word for it.

* `shortSplits_accounts`, `longSplits_accounts`: the splits from the same buckets.
* `run_accounts`: the splits and warnings of a run.
-/

namespace FiniteState

open LengthBuckets

/-- Each slot of the range that has a word left has as many examples as requested, and the others
have none. -/
def Split.Fills (p : Split) (r : LengthRange) (n : Nat) (left : Nat × Verdict → Word → Prop) :
    Prop :=
  ∀ k, r.Has k.1 → ((∃ w, left k w) → p.count k.1 k.2 = n)
    ∧ ((¬ ∃ w, left k w) → p.count k.1 k.2 = 0)

/-- The warnings that a split without duplicates gives rise to. -/
def Split.shortfalls (p : Split) (r : LengthRange) (n : Nat) : List Error :=
  r.slots.filterMap fun k => Sampler.shortfall? n (p.count k.1 k.2)

/-- How many accepted words of a length were paired or skipped. -/
def Split.settled (p : Split) (warnings : List Error) (length : Nat) : Nat :=
  p.count length .accept + warnings.countP (Error.isSkip length)

/-- The warnings about missing words that a split of pairs gives rise to. -/
def Split.pairShortfalls (p : Split) (r : LengthRange) (n : Nat) (warnings : List Error) :
    List Error :=
  r.lengths.filterMap fun length => Sampler.shortfall? n (p.settled warnings length)

/-- The warnings that a split owes are all shortfalls. -/
theorem isShortfall_of_mem_shortfalls {p : Split} {r : LengthRange} {n : Nat} {e : Error}
    (he : e ∈ p.shortfalls r n) : e.isShortfall = true := by
  obtain ⟨k, -, hshort⟩ := List.mem_filterMap.1 he
  exact isShortfall_of_shortfall? hshort

/-! ## Sessions at work on splits

The splits of a run are drawn one after the other. What a split needs of its session is also what it
leaves to the next one. -/

namespace Session

variable {ρ : Type} {s t : Session ρ} {target : Automaton} {least most : Nat}

/-- The session has buckets of the target, and its generator the symbols of the target. -/
structure Serves (s : Session ρ) (target : Automaton) (least most : Nat) : Prop where
  legal : s.buckets.Legal target least most
  symbols : s.generator.alphabet.symbols = target.alphabet.symbols

/-- Every split leaves a session of the same kind to the next one, and its examples lie in the range
of the buckets. -/
theorem Serves.perform [RandomSource ρ] {split : Split} (hs : s.Serves target least most)
    (call : Call) (h : call.perform s = (.ok split, t)) :
    t.Serves target least most
      ∧ ∀ e ∈ split.examples, (LengthRange.mk least most).Has e.word.length := by
  obtain ⟨ps, hps, htakes⟩ := Call.takes hs.legal h
  refine ⟨⟨hs.legal.shrinks htakes.shrinks, by rw [htakes.alphabet, hs.symbols]⟩, fun e he => ?_⟩
  rw [hps] at he
  obtain ⟨p, hp, rfl⟩ := List.mem_map.1 he
  obtain ⟨A, hA, hw⟩ := htakes.held p hp
  have hover := (hs.legal.belongs _ _ A hA p.2 p.2 hw).2.1
  show (LengthRange.mk least most).Has (s.generator.alphabet.render p.2).length
  rw [Alphabet.length_render ((Word.over_congr hs.symbols).2 hover)]
  exact (hs.legal.isSome_iff p.2.length p.1).1 (Option.isSome_of_eq_some hA)

end Session

/-! ## Runs -/

namespace Generator

open Session

/-- The splits of short words, and the examples that each of their slots has. -/
structure ShortAccounts (target : Automaton) (S : Alphabet) (config : DatasetConfig)
    (training dupDev dupTest dev test : Split) : Prop where
  range : ∀ p ∈ [training, dupDev, dupTest, dev, test], ∀ e ∈ p.examples,
    config.short.Has e.word.length
  training_fills : training.Fills config.short config.train (Left target S [])
  dupDev_fills : dupDev.Fills config.short config.dupDev (Left target S training.examples)
  dupTest_fills : dupTest.Fills config.short config.dupTest (Left target S training.examples)
  dev_le : ∀ k : Nat × Verdict, dev.count k.1 k.2 ≤ config.dev
  test_le : ∀ k : Nat × Verdict, test.count k.1 k.2 ≤ config.test

/-- The splits of long words, and the examples that each of their slots has. -/
structure LongAccounts (config : DatasetConfig) (warnings : List Error) (pairs longTest : Split) :
    Prop where
  range : ∀ p ∈ [pairs, longTest], ∀ e ∈ p.examples, config.long.Has e.word.length
  paired : ∃ ps : List (String × String),
    pairs.examples = ps.flatMap fun p => [⟨p.1, .accept⟩, ⟨p.2, .reject⟩]
  skipped : ∀ e ∈ warnings, e.isShortfall = false →
    ∃ positive, e = .emptyAdversarialCandidate positive ∧ config.long.Has positive.length
  pairs_le : ∀ length, pairs.settled warnings length ≤ config.adversarial
  longTest_le : ∀ k : Nat × Verdict, longTest.count k.1 k.2 ≤ config.longTest

variable {ρ : Type} [RandomSource ρ] {target : Automaton} {config : DatasetConfig}
  {s t : Session ρ} {splits : List Split}

/-- The short half is five splits one after the other, each from the session that the last one
left. -/
theorem shortSplits_eq_ok (h : shortSplits config s = (.ok splits, t)) :
    ∃ training dupDev dupTest dev test s₁ s₂ s₃ s₄,
      withDuplicates "Training.txt" config.train true s = (.ok training, s₁)
        ∧ withDuplicates "dup_d.txt" config.dupDev false s₁ = (.ok dupDev, s₂)
        ∧ withDuplicates "dup_t.txt" config.dupTest false s₂ = (.ok dupTest, s₃)
        ∧ withoutDuplicates "Dev.txt" config.dev s₃ = (.ok dev, s₄)
        ∧ withoutDuplicates "Test1.txt" config.test s₄ = (.ok test, t)
        ∧ splits = [training, dupDev, dupTest, dev, test] := by
  obtain ⟨training, s₁, h₁, h⟩ := ExceptT.bind_eq_ok.1 h
  obtain ⟨dupDev, s₂, h₂, h⟩ := ExceptT.bind_eq_ok.1 h
  obtain ⟨dupTest, s₃, h₃, h⟩ := ExceptT.bind_eq_ok.1 h
  obtain ⟨dev, s₄, h₄, h⟩ := ExceptT.bind_eq_ok.1 h
  obtain ⟨test, s₅, h₅, h⟩ := ExceptT.bind_eq_ok.1 h
  obtain ⟨rfl, rfl⟩ := ExceptT.pure_eq_ok.1 h
  exact ⟨training, dupDev, dupTest, dev, test, s₁, s₂, s₃, s₄, h₁, h₂, h₃, h₄, h₅, rfl⟩

/-- The long half is the pairs and then one more split without duplicates. -/
theorem longSplits_eq_ok (h : longSplits config s = (.ok splits, t)) :
    ∃ pairs longTest s₁, adversarial "Test3.txt" config.adversarial s = (.ok pairs, s₁)
      ∧ withoutDuplicates "Test2.txt" config.longTest s₁ = (.ok longTest, t)
      ∧ splits = [pairs, longTest] := by
  obtain ⟨pairs, s₁, h₁, h⟩ := ExceptT.bind_eq_ok.1 h
  obtain ⟨longTest, s₂, h₂, h⟩ := ExceptT.bind_eq_ok.1 h
  obtain ⟨rfl, rfl⟩ := ExceptT.pure_eq_ok.1 h
  exact ⟨pairs, longTest, s₁, h₁, h₂, rfl⟩

/-- What the five splits of the short half hold, and the shortfalls that they add to the warnings.
The training split is the only one that shrinks buckets by duplicates, and the last two remove
what they draw. -/
theorem shortSplits_accounts
    (hbuild : build target config.short.first config.short.last = .ok s.buckets)
    (hsymbols : s.generator.alphabet.symbols = target.alphabet.symbols)
    (hbound : ∀ length, config.short.Has length → length + length ≤ s.bound)
    (h : shortSplits config s = (.ok splits, t)) :
    ∃ training dupDev dupTest dev test, splits = [training, dupDev, dupTest, dev, test]
      ∧ splits.map Split.name = ["Training.txt", "dup_d.txt", "dup_t.txt", "Dev.txt", "Test1.txt"]
      ∧ ShortAccounts target s.generator.alphabet config training dupDev dupTest dev test
      ∧ t.generator.alphabet = s.generator.alphabet
      ∧ t.generator.warnings = s.generator.warnings ++ dev.shortfalls config.short config.dev
          ++ test.shortfalls config.short config.test := by
  obtain ⟨training, dupDev, dupTest, dev, test, s₁, s₂, s₃, s₄, h₁, h₂, h₃, h₄, h₅, rfl⟩ :=
    shortSplits_eq_ok h
  -- every request leaves the session able to serve the next one, whatever it returned
  have hserves : s.Serves target config.short.first config.short.last :=
    ⟨legal_build hbuild, hsymbols⟩
  obtain ⟨hserves₁, hrange₁⟩ := hserves.perform (.withDuplicates ..) h₁
  obtain ⟨hserves₂, hrange₂⟩ := hserves₁.perform (.withDuplicates ..) h₂
  obtain ⟨hserves₃, hrange₃⟩ := hserves₂.perform (.withDuplicates ..) h₃
  obtain ⟨hserves₄, hrange₄⟩ := hserves₃.perform (.withoutDuplicates ..) h₄
  obtain ⟨-, hrange₅⟩ := hserves₄.perform (.withoutDuplicates ..) h₅
  -- what the sampler admits is the same for all draws, so one bound serves the three of them
  have hbound₁ : s₁.bound = s.bound := (keepsBound_withDuplicates _ _ _).eq h₁
  have hbound₂ : s₂.bound = s₁.bound := (keepsBound_withDuplicates _ _ _).eq h₂
  -- the training split removes its examples, and the next two leave the buckets alone
  obtain ⟨hname₁, halphabet₁, hwarnings₁, hholds₁, hfills₁⟩ :=
    withDuplicates_spec hserves.legal hsymbols hbound (holds_build hbuild) h₁
  obtain ⟨hname₂, halphabet₂, hwarnings₂, hholds₂, hfills₂⟩ :=
    withDuplicates_spec hserves₁.legal hserves₁.symbols (by rwa [hbound₁]) hholds₁ h₂
  obtain ⟨hname₃, halphabet₃, hwarnings₃, -, hfills₃⟩ :=
    withDuplicates_spec hserves₂.legal hserves₂.symbols (by rwa [hbound₂, hbound₁]) hholds₂ h₃
  obtain ⟨hname₄, halphabet₄, hwarnings₄, hle₄⟩ :=
    withoutDuplicates_spec hserves₃.legal hserves₃.symbols h₄
  obtain ⟨hname₅, halphabet₅, hwarnings₅, hle₅⟩ :=
    withoutDuplicates_spec hserves₄.legal hserves₄.symbols h₅
  rw [halphabet₁] at hfills₂
  rw [halphabet₂, halphabet₁] at hfills₃
  refine ⟨training, dupDev, dupTest, dev, test, rfl, ?_, ?_, ?_, ?_⟩
  · simp only [List.map_cons, List.map_nil, hname₁, hname₂, hname₃, hname₄, hname₅]
  · constructor
    case range =>
      simp only [List.forall_mem_cons]
      exact ⟨hrange₁, hrange₂, hrange₃, hrange₄, hrange₅, fun p hp => absurd hp List.not_mem_nil⟩
    case training_fills => exact hfills₁
    case dupDev_fills => exact hfills₂
    case dupTest_fills => exact hfills₃
    case dev_le => exact hle₄
    case test_le => exact hle₅
  · rw [halphabet₅, halphabet₄, halphabet₃, halphabet₂, halphabet₁]
  · rw [hwarnings₅, hwarnings₄, hwarnings₃, hwarnings₂, hwarnings₁]
    rfl

/-- What the two splits of the long half hold. Their shortfalls follow those of the short half in
the list of warnings. -/
theorem longSplits_accounts
    (hbuild : build target config.long.first config.long.last = .ok s.buckets)
    (hsymbols : s.generator.alphabet.symbols = target.alphabet.symbols)
    (hwarnings : ∀ e ∈ s.generator.warnings, e.isShortfall = true)
    (h : longSplits config s = (.ok splits, t)) :
    ∃ pairs longTest, splits = [pairs, longTest]
      ∧ splits.map Split.name = ["Test3.txt", "Test2.txt"]
      ∧ LongAccounts config t.generator.warnings pairs longTest
      ∧ t.generator.alphabet = s.generator.alphabet
      ∧ t.generator.warnings.filter (·.isShortfall) = s.generator.warnings
          ++ pairs.pairShortfalls config.long config.adversarial t.generator.warnings
          ++ longTest.shortfalls config.long config.longTest := by
  obtain ⟨pairs, longTest, s₁, h₁, h₂, rfl⟩ := longSplits_eq_ok h
  have hserves : s.Serves target config.long.first config.long.last :=
    ⟨legal_build hbuild, hsymbols⟩
  obtain ⟨hserves₁, hrange₁⟩ := hserves.perform (.adversarial ..) h₁
  obtain ⟨-, hrange₂⟩ := hserves₁.perform (.withoutDuplicates ..) h₂
  obtain ⟨hname₁, halphabet₁, as, hexamples, hskips, hshortfalls, hlengths, hle₁⟩ :=
    adversarial_spec hserves.legal hsymbols h₁
  obtain ⟨hname₂, halphabet₂, hwarnings₂, hle₂⟩ :=
    withoutDuplicates_spec hserves₁.legal hserves₁.symbols h₂
  change t.generator.warnings = s₁.generator.warnings
    ++ longTest.shortfalls config.long config.longTest at hwarnings₂
  obtain ⟨hold, hnoneOld⟩ := filter_of_isShortfall hwarnings
  have hshortfalls₂ : ∀ e ∈ longTest.shortfalls config.long config.longTest, e.isShortfall = true :=
    fun _ => isShortfall_of_mem_shortfalls
  obtain ⟨hnew, hnoneNew⟩ := filter_of_isShortfall hshortfalls₂
  -- the only warnings that are no shortfalls come from the pairs
  have hskipped : t.generator.warnings.filter (!·.isShortfall) = as.filterMap Attempt.warning? := by
    rw [hwarnings₂, List.filter_append, hskips, hnoneOld, hnoneNew, List.nil_append,
      List.append_nil]
  -- so a word of a length was either paired or skipped with a warning, once per attempt
  have hsettled : ∀ length, pairs.settled t.generator.warnings length
      = as.countP (·.1.length == length) := by
    intro length
    rw [Split.settled, Split.count, hexamples, ← countP_isSkip_filter, hskipped,
      Attempt.countP_add_countP]
  refine ⟨pairs, longTest, rfl, ?_, ?_, halphabet₂.trans halphabet₁, ?_⟩
  · simp only [List.map_cons, List.map_nil, hname₁, hname₂]
  · constructor
    case range =>
      simp only [List.forall_mem_cons]
      exact ⟨hrange₁, hrange₂, fun p hp => absurd hp List.not_mem_nil⟩
    case paired => exact hexamples ▸ Attempt.exists_pairs as
    case skipped =>
      intro e he hshortfall
      have hmem : e ∈ as.filterMap Attempt.warning? := by
        rw [← hskipped]
        exact List.mem_filter.2 ⟨he, by rw [hshortfall]; rfl⟩
      obtain ⟨a, ha, hwarning⟩ := List.mem_filterMap.1 hmem
      exact ⟨a.1, Attempt.eq_of_warning? hwarning, hlengths a ha⟩
    case pairs_le =>
      intro length
      rw [hsettled]
      exact hle₁ length
    case longTest_le => exact hle₂
  · rw [Split.pairShortfalls]
    simp only [hsettled]
    rw [hwarnings₂, List.filter_append, hshortfalls, hold, hnew]

/-- A run loses nothing silently. For splits without duplicates and for pairs a warning tells how
many examples of a slot are missing; these warnings are listed in order, and there are no others of
that kind. Pairs may also be missing because accepted words were skipped, for which there is a
warning each. Splits with duplicates lack examples only where no word is left: the walks that the
samplers of all generators admit suffice for words shorter than 2^30. Afterwards the generator is
again as it has to be before a run. -/
theorem run_accounts (target : Automaton) (config : DatasetConfig) (g g' : Generator ρ)
    (r : DatasetRun) (hsymbols : g.alphabet.symbols = target.alphabet.symbols)
    (hwarnings : g.warnings = []) (hbound : g.sampler.maxLength = 2147483647)
    (hlengths : ∀ length, config.short.Has length → length < 2 ^ 30)
    (hrun : run target config g = (.ok r, g')) :
    (∃ training dupDev dupTest dev test pairs longTest : Split,
        r.splits = [training, dupDev, dupTest, dev, test, pairs, longTest]
        ∧ r.splits.map Split.name = ["Training.txt", "dup_d.txt", "dup_t.txt", "Dev.txt",
            "Test1.txt", "Test3.txt", "Test2.txt"]
        ∧ ShortAccounts target g.alphabet config training dupDev dupTest dev test
        ∧ LongAccounts config r.warnings pairs longTest
        ∧ r.warnings.filter (·.isShortfall) = dev.shortfalls config.short config.dev
            ++ test.shortfalls config.short config.test
            ++ pairs.pairShortfalls config.long config.adversarial r.warnings
            ++ longTest.shortfalls config.long config.longTest)
      ∧ (config.short.last < config.short.first → ∀ p ∈ r.splits.take 5, p.examples = [])
      ∧ (config.long.last < config.long.first → ∀ p ∈ r.splits.drop 5, p.examples = [])
      ∧ g'.warnings = [] ∧ g'.alphabet = g.alphabet
      ∧ g'.sampler.maxLength = g.sampler.maxLength := by
  obtain ⟨B, L, short, long, s, t, hB, hL, hshort, hlong, rfl, rfl⟩ := run_eq_ok hrun
  have hwalks : ∀ length, config.short.Has length → length + length ≤ g.sampler.maxLength := by
    intro length hlength
    have hlt := hlengths length hlength
    omega
  obtain ⟨training, dupDev, dupTest, dev, test, rfl, hnames, haccounts, halphabet, hwarnings₁⟩ :=
    shortSplits_accounts (s := ⟨g, B⟩) hB hsymbols hwalks hshort
  change s.generator.warnings = g.warnings ++ dev.shortfalls config.short config.dev
    ++ test.shortfalls config.short config.test at hwarnings₁
  rw [hwarnings, List.nil_append] at hwarnings₁
  -- the short splits have left shortfalls only, which is what the long ones need to tell theirs
  have hshortfalls : ∀ e ∈ s.generator.warnings, e.isShortfall = true := by
    intro e he
    rw [hwarnings₁] at he
    rcases List.mem_append.1 he with he | he
    · exact isShortfall_of_mem_shortfalls he
    · exact isShortfall_of_mem_shortfalls he
  have hsymbols' : s.generator.alphabet.symbols = target.alphabet.symbols := by
    rw [halphabet]
    exact hsymbols
  obtain ⟨pairs, longTest, rfl, hnames', haccounts', halphabet', hwarnings₂⟩ :=
    longSplits_accounts (s := ⟨s.generator, L⟩) hL hsymbols' hshortfalls hlong
  refine ⟨⟨training, dupDev, dupTest, dev, test, pairs, longTest, rfl, ?_, haccounts, haccounts',
    ?_⟩, fun hrange p hp => ?_, fun hrange p hp => ?_, rfl, halphabet'.trans halphabet, ?_⟩
  · rw [List.map_append, hnames, hnames']
    rfl
  · rw [← hwarnings₁]
    exact hwarnings₂
  · -- an example of a split has a length of the range, and an empty range has none
    exact List.eq_nil_iff_forall_not_mem.2 fun e he =>
      LengthRange.not_has_of_lt hrange _ (haccounts.range p hp e he)
  · exact List.eq_nil_iff_forall_not_mem.2 fun e he =>
      LengthRange.not_has_of_lt hrange _ (haccounts'.range p hp e he)
  · show t.bound = Session.bound ⟨g, B⟩
    rw [(keepsBound_longSplits config).eq hlong, ← (keepsBound_shortSplits config).eq hshort]
    rfl

section Example

open EditTransducers

/-- Two words for development and an adversarial pair, where the only word is a. -/
def scarceLetters : DatasetConfig where
  short := ⟨1, 1⟩
  long := ⟨1, 1⟩
  train := 0
  dupDev := 0
  dupTest := 0
  dev := 2
  test := 0
  longTest := 1
  adversarial := 1

/-- One word is missing for development, and there is no rejected word. The accepted word is skipped
for want of a rival, and then it is missing in the last test. -/
def runOfScarceLetters : DatasetRun where
  splits := [⟨"Training.txt", []⟩, ⟨"dup_d.txt", []⟩, ⟨"dup_t.txt", []⟩,
    ⟨"Dev.txt", [⟨"a", .accept⟩]⟩, ⟨"Test1.txt", []⟩, ⟨"Test3.txt", []⟩, ⟨"Test2.txt", []⟩]
  warnings := [.insufficientSamples 2 1, .insufficientSamples 2 0, .emptyAdversarialCandidate "a",
    .insufficientSamples 1 0, .insufficientSamples 1 0]

theorem shortSplits_scarceLetters :
    shortSplits scarceLetters ⟨generatorOnlyA 2 0, bucketOfA⟩
      = (.ok (runOfScarceLetters.splits.take 5),
          ⟨{ generatorOnlyA 15309338192548696124 0 with
              warnings := runOfScarceLetters.warnings.take 2 }, bucketOfNothing⟩) := by
  cbv

theorem longSplits_scarceLetters :
    longSplits scarceLetters
        ⟨{ generatorOnlyA 15309338192548696124 0 with
            warnings := runOfScarceLetters.warnings.take 2 }, bucketOfA⟩
      = (.ok (runOfScarceLetters.splits.drop 5),
          ⟨{ generatorOnlyA 3377925750128148870 0 with
              warnings := runOfScarceLetters.warnings }, bucketOfNothing⟩) := by
  cbv

theorem run_scarceLetters :
    run wordA scarceLetters (generatorOnlyA 2 0)
      = (.ok runOfScarceLetters, generatorOnlyA 3377925750128148870 0) :=
  run_eq_ok_of_splits build_wordA build_wordA shortSplits_scarceLetters longSplits_scarceLetters

/-- The shortfalls of the development split and of the last test are recorded, and so is the
accepted word that was skipped; it counts as settled, so no pair is missing. -/
theorem run_accounts_wordA :
    (∃ training dupDev dupTest dev test pairs longTest : Split,
        runOfScarceLetters.splits = [training, dupDev, dupTest, dev, test, pairs, longTest]
        ∧ runOfScarceLetters.splits.map Split.name = ["Training.txt", "dup_d.txt", "dup_t.txt",
            "Dev.txt", "Test1.txt", "Test3.txt", "Test2.txt"]
        ∧ ShortAccounts wordA onlyA scarceLetters training dupDev dupTest dev test
        ∧ LongAccounts scarceLetters runOfScarceLetters.warnings pairs longTest
        ∧ runOfScarceLetters.warnings.filter (·.isShortfall)
          = dev.shortfalls ⟨1, 1⟩ 2 ++ test.shortfalls ⟨1, 1⟩ 0
            ++ pairs.pairShortfalls ⟨1, 1⟩ 1 runOfScarceLetters.warnings
            ++ longTest.shortfalls ⟨1, 1⟩ 1
        ∧ dev.shortfalls ⟨1, 1⟩ 2 = [.insufficientSamples 2 1, .insufficientSamples 2 0]
        ∧ pairs.settled runOfScarceLetters.warnings 1 = 1)
      ∧ .emptyAdversarialCandidate "a" ∈ runOfScarceLetters.warnings
      ∧ (generatorOnlyA 3377925750128148870 0).warnings = [] := by
  obtain ⟨⟨training, dupDev, dupTest, dev, test, pairs, longTest, hsplits, hnames, hshort, hlong,
    hwarnings⟩, -⟩ := run_accounts wordA scarceLetters (generatorOnlyA 2 0) _ runOfScarceLetters rfl
      rfl rfl (fun length hlength => Nat.lt_of_le_of_lt hlength.2 (by decide)) run_scarceLetters
  refine ⟨⟨training, dupDev, dupTest, dev, test, pairs, longTest, hsplits, hnames, hshort, hlong,
    hwarnings, ?_⟩, by decide, rfl⟩
  simp only [runOfScarceLetters, List.cons.injEq] at hsplits
  obtain ⟨-, -, -, rfl, -, rfl, -⟩ := hsplits
  decide

end Example

end Generator

end FiniteState
