import FiniteState.Proofs.Disjoint
import FiniteState.Proofs.Idle

/-!
# Independence of the presentation

A walk chooses transitions by their places, so what it draws depends on how states are numbered and
transitions are ordered. A dataset does not: its words are drawn from buckets, which are minimal,
and so two targets that accept the same words over Σ have equal buckets.

Minimal automata are canonical only if they accept anything. A bucket of nothing could still keep
a loop at its start, if all words of its length had one; but a loop that reads a letter would make
them longer.

* `Automaton.OfLength.loopless`: words of one length have no loop at the start.
* `Automaton.minimize_intersection_eq`: intersections are minimized to equal values, also if they
  are empty.
* `LengthBuckets.build_eq`: targets that accept the same words have equal buckets.
* `Generator.run_eq`: and give equal datasets.
-/

namespace FiniteState

namespace Automaton

variable {A A' B B' C C' M M' : Automaton} {S : Alphabet}

/-! ## Loops at the start

Where nothing is accepted, a minimal automaton still has loops at its start, and these are not
determined by the language. In the intersections for a bucket there are none but silent ones, since
one operand has words of one length only. -/

/-- No transition from the start back to it reads or writes a symbol. -/
def Loopless (A : Automaton) : Prop :=
  ∀ t ∈ A.transitions A.start, t.target = A.start → t.isSilent = true

/-- A loop before a word of the length would make it longer. -/
theorem OfLength.loopless {n : Nat} {w : Word} (h : A.OfLength S n) (hover : w.Over S)
    (hlength : w.length = n) : A.Loopless := by
  intro t ht hloop
  obtain ⟨f, hrun, hf⟩ := relates_iff_maps.1 ((h w w).2 ⟨rfl, hover, hlength⟩)
  -- going around the loop first is another way to an accepting state
  have hlonger : A.Relates (t.input.toWord ++ w) (t.output.toWord ++ w) := by
    have harc : t ∈ A.system.arcs A.start := ht
    have hrun' : A.system.Runs t.target w w f := by
      rw [hloop]
      exact hrun
    exact relates_iff_maps.2 ⟨f, .cons harc hrun', hf⟩
  obtain ⟨hsame, -, hlength'⟩ := (h _ _).1 hlonger
  have hinput : t.input.toWord = [] := by
    rw [List.length_append, hlength] at hlength'
    exact List.eq_nil_of_length_eq_zero (by omega)
  have houtput : t.output.toWord = [] := by
    rw [← List.append_cancel_right hsame]
    exact hinput
  exact Bool.and_eq_true_iff.2
    ⟨Label.toWord_eq_nil_iff.1 hinput, Label.toWord_eq_nil_iff.1 houtput⟩

/-- If there is a letter, there are words of every length. -/
theorem exists_over_of_length (hsymbols : S.symbols ≠ []) (n : Nat) :
    ∃ w : Word, w.Over S ∧ w.length = n := by
  refine ⟨List.replicate n ⟨0⟩, fun s hs => ?_, List.length_replicate⟩
  rw [List.eq_of_mem_replicate hs]
  exact decide_eq_true (List.length_pos_iff.2 hsymbols)

/-- What an intersection without words keeps are silent transitions, if one of the acceptors has
no loop at its start. -/
theorem isSilent_of_intersection (hC : A.intersection B = .ok C)
    (hloopless : A.Loopless ∨ B.Loopless) (hrejects : ∀ w, C.accepts w = false) {q : Nat}
    {t : Transition} (ht : t ∈ C.transitions q) : t.isSilent = true := by
  obtain ⟨hA, hB, P, hP, rfl⟩ := intersection_eq_ok hC
  have hcarries : ¬ ∃ ls, P.Carries ls := by
    rintro ⟨ls, hls⟩
    exact isEmpty_iff.1 (isEmpty_iff_rejects.2 hrejects) ls (carries_trim_iff.2 hls)
  -- only the loops at the start of the product are left
  rw [trim_eq_idle hcarries] at ht
  obtain ⟨a, ha, halabels, hatarget⟩ := (mem_startLoops_explore_iff hP).1 (labels_mem_of_idle ht)
  rw [← isSilent_of_labels_eq halabels]
  -- and if it is loud, it is a loop at the start of each acceptor
  rcases arc_product_of_acceptors hA hB ha with ⟨hinput, houtput⟩ | ⟨⟨v, hv, hvlabels, hvtarget⟩,
      ⟨v', hv', hvlabels', hvtarget'⟩⟩
  · exact Bool.and_eq_true_iff.2 ⟨by rw [hinput]; rfl, by rw [houtput]; rfl⟩
  · rcases hloopless with hloopless | hloopless
    · rw [← isSilent_of_labels_eq hvlabels]
      exact hloopless v hv (by rw [hvtarget, hatarget]; rfl)
    · rw [← isSilent_of_labels_eq hvlabels']
      exact hloopless v' hv' (by rw [hvtarget', hatarget]; rfl)

/-- Intersections over one alphabet that accept the same words are minimized to equal values, if
in each of them an acceptor has no loop at its start. -/
theorem minimize_intersection_eq (hC : A.intersection B = .ok C)
    (hC' : A'.intersection B' = .ok C') (hloopless : A.Loopless ∨ B.Loopless)
    (hloopless' : A'.Loopless ∨ B'.Loopless) (halphabet : A.alphabet = A'.alphabet)
    (haccepts : ∀ w, C.accepts w = C'.accepts w) (hM : C.minimize = .ok M)
    (hM' : C'.minimize = .ok M') : M = M' := by
  have halphabet' : C.alphabet = C'.alphabet := by
    rw [alphabet_intersection hC, alphabet_intersection hC', halphabet]
  by_cases hrejects : ∀ w, C.accepts w = false
  · -- canonicity does not help here, but there is only one automaton without words and symbols
    have hrejects' : ∀ w, C'.accepts w = false := fun w => (haccepts w).symm.trans (hrejects w)
    rw [minimize_eq_empty hM hrejects fun _ _ => isSilent_of_intersection hC hloopless hrejects,
      minimize_eq_empty hM' hrejects' fun _ _ => isSilent_of_intersection hC' hloopless' hrejects',
      halphabet']
  · obtain ⟨w, hw⟩ := not_forall.1 hrejects
    exact minimize_eq_of_accepts_eq halphabet' (isAcceptor_intersection hC)
      (isAcceptor_intersection hC') haccepts (Bool.eq_true_of_not_eq_false hw) hM hM'

end Automaton

/-! ## Buckets

The two targets are combined with the same acceptors, and minimization makes the results equal. -/

namespace LengthBuckets

open Automaton

/-- The targets are over the same alphabet and accept the same words over it. -/
structure SameWords (T T' : Automaton) : Prop where
  alphabet : T.alphabet = T'.alphabet
  accepts_eq : ∀ w : Word, w.Over T.alphabet → T.accepts w = T'.accepts w

variable {T T' exact : Automaton}

/-- Targets with the same words over Σ have equal buckets of one length. -/
theorem SameWords.bucketOf_eq {n : Nat} {b b' : Bucket} (hT : SameWords T T')
    (hexact : exact.OfLength T.alphabet n) (h : bucketOf T exact = .ok b)
    (h' : bucketOf T' exact = .ok b') : b = b' := by
  obtain ⟨⟨P, hP, hpositive⟩, N, hN, hnegative⟩ := bucketOf_eq_ok h
  obtain ⟨⟨P', hP', hpositive'⟩, N', hN', hnegative'⟩ := bucketOf_eq_ok h'
  obtain ⟨D, hD, hN⟩ := difference_eq_ok hN
  obtain ⟨D', hD', hN'⟩ := difference_eq_ok hN'
  -- there is a complement, so there are letters and words of every length
  obtain ⟨w, hover, hlength⟩ := exists_over_of_length (symbols_ne_nil_of_complement hD) n
  have hloopless : exact.Loopless := hexact.loopless hover hlength
  have hsame : ∀ w, exact.accepts w = true → T.accepts w = T'.accepts w := fun w hw =>
    hT.accepts_eq w (hexact.accepts_iff.1 hw).1
  have hpositives : b.positive = b'.positive := by
    refine minimize_intersection_eq hP hP' (.inr hloopless) (.inr hloopless) hT.alphabet
      (fun w => ?_) hpositive hpositive'
    rw [Bool.eq_iff_iff, accepts_intersection_iff hP, accepts_intersection_iff hP']
    exact and_congr_left fun hw => by rw [hsame w hw]
  have hnegatives : b.negative = b'.negative := by
    refine minimize_intersection_eq hN hN' (.inl hloopless) (.inl hloopless) rfl
      (fun w => ?_) hnegative hnegative'
    rw [Bool.eq_iff_iff, accepts_intersection_iff hN, accepts_intersection_iff hN',
      accepts_complement_iff hD, accepts_complement_iff hD', hT.alphabet]
    exact and_congr_right fun hw => by rw [hsame w hw]
  cases b
  cases b'
  exact congrArg₂ Bucket.mk hpositives hnegatives

theorem SameWords.bucketsFrom_eq {count n : Nat} {bs bs' : List Bucket} (hT : SameWords T T')
    (hexact : exact.OfLength T.alphabet n) (h : bucketsFrom T count exact = .ok bs)
    (h' : bucketsFrom T' count exact = .ok bs') : bs = bs' := by
  fun_induction bucketsFrom T count exact generalizing n bs bs' with
  | case1 exact => exact Except.ok.inj (h.symm.trans h')
  | case2 exact =>
    obtain ⟨b, hb, rfl⟩ := bucketsFrom_one_eq_ok h
    obtain ⟨b', hb', rfl⟩ := bucketsFrom_one_eq_ok h'
    rw [hT.bucketOf_eq hexact hb hb']
  | case3 exact count ih =>
    obtain ⟨b, C, longer, rest, hb, hC, hlonger, hrest, rfl⟩ := bucketsFrom_add_two_eq_ok h
    obtain ⟨b', C', longer', rest', hb', hC', hlonger', hrest', rfl⟩ :=
      bucketsFrom_add_two_eq_ok h'
    -- the words of the next length do not depend on the target
    rw [← hT.alphabet] at hC'
    obtain rfl := Except.ok.inj (hC.symm.trans hC')
    obtain rfl := Except.ok.inj (hlonger.symm.trans hlonger')
    rw [hT.bucketOf_eq hexact hb hb', ih longer (hexact.longer hC hlonger) hrest hrest']

/-- The whole table of buckets is the same. -/
theorem SameWords.build_eq {least most : Nat} {B B' : LengthBuckets} (hT : SameWords T T')
    (h : build T least most = .ok B) (h' : build T' least most = .ok B') : B = B' := by
  obtain ⟨P, exact, bs, hP, hexact, hbs, rfl⟩ := build_eq_ok h
  obtain ⟨P', exact', bs', hP', hexact', hbs', rfl⟩ := build_eq_ok h'
  rw [← hT.alphabet] at hP'
  obtain rfl := Except.ok.inj (hP.symm.trans hP')
  obtain rfl := Except.ok.inj (hexact.symm.trans hexact')
  rw [hT.bucketsFrom_eq (ofLength_power hP hexact) hbs hbs']

end LengthBuckets

/-! ## Runs

A run looks at its target in order to build buckets, and never again. -/

namespace Generator

open LengthBuckets

variable {ρ : Type} {T T' : Automaton} {config : DatasetConfig} {g g' : Generator ρ}

/-- What is drawn successfully is drawn from buckets. -/
theorem drawFrom_eq_ok {α : Type} {buckets : Except Error LengthBuckets} {draw : Drawing ρ α}
    {a : α} (h : drawFrom buckets draw g = (.ok a, g')) :
    ∃ B s, buckets = .ok B ∧ draw ⟨g, B⟩ = (.ok a, s) ∧ s.generator = g' := by
  cases buckets with
  | error e => cases (Prod.mk.inj h).1
  | ok B =>
    obtain ⟨ha, hg⟩ := Prod.mk.inj h
    exact ⟨B, (draw ⟨g, B⟩).2, rfl, Prod.ext ha rfl, hg⟩

/-- From buckets that have been built it is drawn as a session draws. -/
theorem drawFrom_ok_eq {α : Type} {B : LengthBuckets} {draw : Drawing ρ α} {a : α} {s : Session ρ}
    (h : draw ⟨g, B⟩ = (.ok a, s)) : drawFrom (.ok B) draw g = (.ok a, s.generator) := by
  show ((draw ⟨g, B⟩).1, (draw ⟨g, B⟩).2.generator) = _
  rw [h]

variable [RandomSource ρ]

/-- The steps of a run that succeeds: it draws from buckets for the short words, then from buckets
for the long words, and hands over the warnings. -/
theorem run_eq_ok {r : DatasetRun} (h : run T config g = (.ok r, g')) :
    ∃ B L short long s t, build T config.short.first config.short.last = .ok B
      ∧ build T config.long.first config.long.last = .ok L
      ∧ shortSplits config ⟨g, B⟩ = (.ok short, s)
      ∧ longSplits config ⟨s.generator, L⟩ = (.ok long, t)
      ∧ r = ⟨short ++ long, t.generator.warnings⟩
      ∧ g' = { t.generator with warnings := [] } := by
  obtain ⟨short, g₁, hdrawShort, h⟩ := ExceptT.bind_eq_ok.1 h
  obtain ⟨long, g₂, hdrawLong, h⟩ := ExceptT.bind_eq_ok.1 h
  obtain ⟨B, s, hB, hshort, rfl⟩ := drawFrom_eq_ok hdrawShort
  obtain ⟨L, t, hL, hlong, rfl⟩ := drawFrom_eq_ok hdrawLong
  obtain ⟨hr, hg⟩ := Prod.mk.inj h
  exact ⟨B, L, short, long, s, t, hB, hL, hshort, hlong, (Except.ok.inj hr).symm, hg.symm⟩

/-- A run succeeds if it can draw from buckets for both ranges. -/
theorem run_eq_ok_of_splits {B L : LengthBuckets} {short long : List Split} {s t : Session ρ}
    (hB : build T config.short.first config.short.last = .ok B)
    (hL : build T config.long.first config.long.last = .ok L)
    (hshort : shortSplits config ⟨g, B⟩ = (.ok short, s))
    (hlong : longSplits config ⟨s.generator, L⟩ = (.ok long, t)) :
    run T config g
      = (.ok ⟨short ++ long, t.generator.warnings⟩, { t.generator with warnings := [] }) := by
  have hdrawShort := drawFrom_ok_eq hshort
  have hdrawLong := drawFrom_ok_eq hlong
  rw [← hB] at hdrawShort
  rw [← hL] at hdrawLong
  apply ExceptT.bind_eq_ok.2 ⟨_, _, hdrawShort, ?_⟩
  apply ExceptT.bind_eq_ok.2 ⟨_, _, hdrawLong, ?_⟩
  rfl

/-- A run that succeeds has built buckets for both ranges. -/
theorem exists_buckets_of_run {r : DatasetRun} (h : run T config g = (.ok r, g')) :
    (∃ B, build T config.short.first config.short.last = .ok B)
      ∧ ∃ B, build T config.long.first config.long.last = .ok B := by
  obtain ⟨B, L, _, _, _, _, hB, hL, -⟩ := run_eq_ok h
  exact ⟨⟨B, hB⟩, L, hL⟩

/-- The target has an effect on a run by its buckets only. -/
theorem run_congr
    (hshort : build T config.short.first config.short.last
      = build T' config.short.first config.short.last)
    (hlong : build T config.long.first config.long.last
      = build T' config.long.first config.long.last) :
    (run T config : Running ρ DatasetRun) = run T' config := by
  unfold run
  simp only [hshort, hlong]

/-- Runs for targets that accept the same words over Σ draw the same splits, record the same
warnings and leave their generators in the same state. -/
theorem run_eq (T T' : Automaton) (config : DatasetConfig) (g g₁ g₁' : Generator ρ)
    (r r' : DatasetRun) (halphabet : T.alphabet = T'.alphabet)
    (haccepts : ∀ w : Word, w.Over T.alphabet → T.accepts w = T'.accepts w)
    (h : run T config g = (.ok r, g₁)) (h' : run T' config g = (.ok r', g₁')) :
    r.splits = r'.splits ∧ r.warnings = r'.warnings ∧ g₁ = g₁' := by
  have hT : SameWords T T' := ⟨halphabet, haccepts⟩
  obtain ⟨⟨B, hB⟩, L, hL⟩ := exists_buckets_of_run h
  obtain ⟨⟨B', hB'⟩, L', hL'⟩ := exists_buckets_of_run h'
  have hrun : (run T config : Running ρ DatasetRun) = run T' config := by
    apply run_congr
    · rw [hB, hB', hT.build_eq hB hB']
    · rw [hL, hL', hT.build_eq hL hL']
  rw [hrun, h'] at h
  obtain ⟨hr, hg⟩ := Prod.mk.inj h
  rw [Except.ok.inj hr]
  exact ⟨rfl, rfl, hg.symm⟩

/-! ## A run for two presentations of one word -/

section Example

open EditTransducers Session

/-- Accepts the word a behind a silent cycle, from which there is also a way into a dead state. -/
def silentlyA : Automaton where
  alphabet := onlyA
  states := #[
    { transitions := [⟨.epsilon, .epsilon, 3⟩] }, {}, { accepting := true },
    { transitions := [⟨.epsilon, .epsilon, 0⟩, ⟨.symbol ⟨0⟩, .symbol ⟨0⟩, 1⟩,
        ⟨.symbol ⟨0⟩, .symbol ⟨0⟩, 2⟩] }]
  start := 0
  start_lt := by decide
  target_lt := by decide

/-- A training word, and a word for the last test, all of length one. -/
def singleLetters : DatasetConfig where
  short := ⟨1, 1⟩
  long := ⟨1, 1⟩
  train := 1
  dupDev := 0
  dupTest := 0
  dev := 0
  test := 0
  longTest := 1
  adversarial := 0

/-- The buckets for words of length one. -/
def bucketOfA : LengthBuckets where
  first := 1
  buckets := #[⟨wordA, .empty onlyA⟩]

/-- What is left when the word has been drawn. -/
def bucketOfNothing : LengthBuckets where
  first := 1
  buckets := #[⟨.empty onlyA, .empty onlyA⟩]

/-- What is drawn; there is no rejected word for the last test. -/
def runOfA : DatasetRun where
  splits := [⟨"Training.txt", [⟨"a", .accept⟩]⟩, ⟨"dup_d.txt", []⟩, ⟨"dup_t.txt", []⟩,
    ⟨"Dev.txt", []⟩, ⟨"Test1.txt", []⟩, ⟨"Test3.txt", []⟩, ⟨"Test2.txt", [⟨"a", .accept⟩]⟩]
  warnings := [.insufficientSamples 1 0]

theorem build_wordA : build wordA 1 1 = .ok bucketOfA := by cbv

/-- The same buckets, from the other automaton. -/
theorem build_silentlyA : build silentlyA 1 1 = .ok bucketOfA := by cbv

/-- The short half of the run, as it is computed. -/
theorem shortSplits_bucketOfA :
    shortSplits singleLetters ⟨generatorOnlyA 2 0, bucketOfA⟩
      = (.ok (runOfA.splits.take 5), ⟨generatorOnlyA 6515331631289004364 0, bucketOfNothing⟩) := by
  cbv

/-- The long half of the run, as it is computed. -/
theorem longSplits_bucketOfA :
    longSplits singleLetters ⟨generatorOnlyA 6515331631289004364 0, bucketOfA⟩
      = (.ok (runOfA.splits.drop 5), ⟨generatorOnlyA 13030663262578008726 1, bucketOfNothing⟩) := by
  cbv

theorem run_wordA :
    run wordA singleLetters (generatorOnlyA 2 0)
      = (.ok runOfA, generatorOnlyA 13030663262578008726 0) :=
  run_eq_ok_of_splits build_wordA build_wordA shortSplits_bucketOfA longSplits_bucketOfA

theorem run_silentlyA :
    run silentlyA singleLetters (generatorOnlyA 2 0)
      = (.ok runOfA, generatorOnlyA 13030663262578008726 0) :=
  run_eq_ok_of_splits build_silentlyA build_silentlyA shortSplits_bucketOfA longSplits_bucketOfA

/-- The two acceptors have the same minimal automaton. -/
theorem accepts_silentlyA (w : Word) : wordA.accepts w = silentlyA.accepts w := by
  have hword : wordA.minimize = .ok wordA := by cbv
  have hsilently : silentlyA.minimize = .ok wordA := by cbv
  exact Automaton.accepts_congr (fun _ _ => Automaton.relates_minimize_iff hsilently) w

/-- The run for the acceptor with the silent cycle is a run for the plain one. -/
theorem run_eq_silentlyA :
    wordA.size ≠ silentlyA.size
      ∧ run silentlyA singleLetters (generatorOnlyA 2 0)
        = (.ok runOfA, generatorOnlyA 13030663262578008726 0)
      ∧ ∃ r g₁, run wordA singleLetters (generatorOnlyA 2 0) = (.ok r, g₁)
        ∧ r.splits = runOfA.splits ∧ r.warnings = runOfA.warnings
        ∧ g₁ = generatorOnlyA 13030663262578008726 0 := by
  have hsame := run_eq wordA silentlyA singleLetters (generatorOnlyA 2 0) _ _ _ _ rfl
    (fun w _ => accepts_silentlyA w) run_wordA run_silentlyA
  exact ⟨by cbv, run_silentlyA, runOfA, _, run_wordA, hsame⟩

end Example

end Generator

end FiniteState
