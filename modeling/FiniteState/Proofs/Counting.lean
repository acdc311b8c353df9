import FiniteState.Proofs.Room
import Mathlib.Data.Fintype.BigOperators

/-!
# Counting occurrences

The tests of the catalog are concatenations of all words with copies of a letter. They are not
deterministic, and have many sets of states. But all that they remember of a word is how much of the
power has been found: the longest power of the letter that the word ends in, or how often the letter
occurs. So there is a bound on the size of the tests that does not depend on the alphabet, and the
entries of the catalog that combine them are small as well.

* `remembers_substring`, `remembers_subsequence`: what the two kinds of tests remember.
* `testFits_substring`, `testFits_subsequence`: the tests exist and are small.
* `exists_build`: the catalog can be built.
-/

open scoped List

namespace FiniteState

namespace Automaton

variable {A B acc C : Automaton} {S : Alphabet} {s : Symbol} {u v w : Word} {q n : Nat}

/-! ## The parts of a test -/

/-- No word but the empty one can be read by a single state without arcs. -/
theorem eq_nil_of_meets_epsilon (h : (epsilon S).Meets w q) : w = [] := by
  have hrun : ∀ {x y}, (epsilon S).system.Runs 0 x y q → x = [] := by
    rintro x y (_ | ⟨ht, -⟩)
    · rfl
    · cases ht
  exact hrun h

/-- The automaton of one letter is at its start before it, and at its end after it. -/
theorem meets_symbol_iff :
    (symbol S s).Meets w q ↔ (w = [] ∧ q = 0) ∨ (w = [s] ∧ q = 1) := by
  have hrun : ∀ {x y}, (symbol S s).system.Runs 0 x y q →
      (x = [] ∧ q = 0) ∨ (x = [s] ∧ q = 1) := by
    rintro x y (_ | ⟨ht, hrest⟩)
    · exact .inl ⟨rfl, rfl⟩
    · -- after the only transition there is none
      obtain rfl := List.mem_singleton.1 ht
      rcases hrest with _ | ⟨ht', -⟩
      · exact .inr ⟨rfl, rfl⟩
      · cases ht'
  refine ⟨fun h => hrun h, ?_⟩
  rintro (⟨rfl, rfl⟩ | ⟨rfl, rfl⟩)
  · exact .nil 0
  · have ht : ⟨.symbol s, .symbol s, 1⟩ ∈ (symbol S s).system.arcs 0 := List.mem_cons_self
    exact .step ht

/-- All words over Σ meet the one state of `Σ*`. -/
theorem meets_sigmaStar_iff (hw : w.Over S) : (sigmaStar S).Meets w q ↔ q = 0 := by
  constructor
  · exact fun h => Nat.lt_one_iff.1 (meets_lt_size h)
  · rintro rfl
    obtain ⟨q, hq, hrun⟩ := (total_sigmaStar S).exists_run (sigmaStar S).start_lt_size hw
    obtain rfl : q = 0 := Nat.lt_one_iff.1 hq
    exact hrun

/-- There is nothing to remember for all words. -/
theorem remembers_sigmaStar {κ : Type} (f : Word → κ) : (sigmaStar S).Remembers S f :=
  fun _ _ hu hv _ _ hq => (meets_sigmaStar_iff hv).2 ((meets_sigmaStar_iff hu).1 hq)

theorem accepts_sigmaStar (hw : w.Over S) : (sigmaStar S).accepts w = true :=
  ((defines_sigmaStar S).accepts_iff w).2 ⟨hw, trivial⟩

theorem copying_sigmaStar (S : Alphabet) : (sigmaStar S).AllLabels Copying :=
  (defines_sigmaStar S).copying

theorem copying_symbol (S : Alphabet) (s : Symbol) : (symbol S s).AllLabels Copying :=
  allLabels_symbol rfl

/-- A power with one exponent appends copies to the empty word, and no state in between
accepts. -/
theorem power_self (A : Automaton) (n : Nat) :
    A.power n (some n) = A.appendCopies false n (epsilon A.alphabet) := by
  unfold power
  dsimp only
  rw [if_neg (Nat.lt_irrefl n), Nat.sub_self]
  exact bind_pure _

/-- Copies are appended one by one, so what one of them keeps all of them keep. -/
theorem appendCopies_induction {P : Nat → Automaton → Prop} {k m : Nat} (hacc : P k acc)
    (hstep : ∀ i B, i < k + m → P i B → P (i + 1) (B.sequence A false))
    (h : A.appendCopies false m acc = .ok C) : P (k + m) C := by
  induction m generalizing k acc with
  | zero =>
    cases h
    exact hacc
  | succ m ih =>
    obtain ⟨D, hD, h⟩ := Except.bind_eq_ok.1 h
    obtain ⟨-, rfl⟩ := concatWith_eq_ok hD
    have hsum : k + (m + 1) = k + 1 + m := by omega
    rw [hsum] at hstep ⊢
    exact ih (hstep k acc (by omega) hacc) hstep h

/-! ## Substrings

Copies of a letter read powers of it only. With all words before them, the exponents that matter are
those of the powers that a word ends in, and the longest of these has the others as ends. With all
words behind them as well, it matters whether the whole power has been found. -/

/-- All that is read are powers of the letter, up to an exponent. -/
structure ReadsPowers (s : Symbol) (n : Nat) (A : Automaton) : Prop where
  copying : A.AllLabels Copying
  exists_le : ∀ w q, A.Meets w q → ∃ j ≤ n, w = List.replicate j s

/-- One more copy of the letter raises the exponent by one. -/
theorem ReadsPowers.sequence (hA : A.ReadsPowers s n) :
    (A.sequence (symbol S s) false).ReadsPowers s (n + 1) := by
  refine ⟨hA.copying.sequence (copying_symbol S s) copying_silent false, fun w p hp => ?_⟩
  rcases (meets_sequence_iff hA.copying (copying_symbol S s)).1 hp with
    hp | ⟨q, -, u, v, rfl, hu, hv⟩
  · obtain ⟨j, hj, hw⟩ := hA.exists_le w p hp
    exact ⟨j, Nat.le_succ_of_le hj, hw⟩
  · obtain ⟨f, hf, -⟩ := (accepts_iff_meets hA.copying).1 hu
    obtain ⟨j, hj, rfl⟩ := hA.exists_le u f hf
    rcases meets_symbol_iff.1 hv with ⟨rfl, -⟩ | ⟨rfl, -⟩
    · exact ⟨j, Nat.le_succ_of_le hj, List.append_nil _⟩
    · exact ⟨j + 1, Nat.succ_le_succ hj, List.replicate_succ'.symm⟩

/-- The power of a letter reads the powers of that letter. -/
theorem readsPowers_power (h : (symbol S s).power n (some n) = .ok C) : C.ReadsPowers s n := by
  rw [power_self] at h
  have hepsilon : (epsilon S).ReadsPowers s 0 := by
    refine ⟨allLabels_epsilon S, fun w q hq => ⟨0, Nat.le_refl 0, ?_⟩⟩
    exact eq_nil_of_meets_epsilon hq
  have hpowers := appendCopies_induction (P := ReadsPowers s) hepsilon
    (fun _ _ _ hB => hB.sequence) h
  rwa [Nat.zero_add] at hpowers

/-- The exponent, up to a bound, of the longest power of a letter that a word ends in. -/
def endingPower (s : Symbol) (n : Nat) (w : Word) : Fin (n + 1) :=
  ⟨Nat.findGreatest (fun j => List.replicate j s <:+ w) n,
    Nat.lt_succ_of_le (Nat.findGreatest_le n)⟩

/-- Words with the same longest power end in the same powers. -/
theorem suffix_of_endingPower_eq (hsame : endingPower s n u = endingPower s n v) {j : Nat}
    (hj : j ≤ n) (hu : List.replicate j s <:+ u) : List.replicate j s <:+ v := by
  have hle : j ≤ (endingPower s n u).val :=
    Nat.le_findGreatest (P := fun j => List.replicate j s <:+ u) hj hu
  rw [hsame] at hle
  have hlongest : List.replicate (endingPower s n v).val s <:+ v :=
    Nat.findGreatest_spec (P := fun j => List.replicate j s <:+ v) (Nat.zero_le n)
      (List.nil_suffix)
  refine List.IsSuffix.trans ⟨List.replicate ((endingPower s n v).val - j) s, ?_⟩ hlongest
  rw [List.replicate_append_replicate, Nat.sub_add_cancel hle]

/-- Words that have anything before the power are told apart by how much of it stands at their
end. -/
theorem ReadsPowers.remembers_before (hA : A.ReadsPowers s n) :
    ((sigmaStar S).sequence A false).Remembers S (endingPower s n) := by
  refine (remembers_sigmaStar _).sequence (copying_sigmaStar S) hA.copying ?_
  rintro _ v hu hv hsame q ⟨u₁, u₂, rfl, -, hq⟩
  obtain ⟨j, hj, rfl⟩ := hA.exists_le u₂ q hq
  obtain ⟨v₁, rfl⟩ := suffix_of_endingPower_eq hsame hj (List.suffix_append u₁ _)
  exact ⟨v₁, _, rfl, accepts_sigmaStar (Word.over_append_iff.1 hv).1, hq⟩

/-- With anything allowed after the power as well, it matters in addition whether the power is
over. -/
theorem ReadsPowers.remembers_substring (hA : A.ReadsPowers s n) :
    (((sigmaStar S).sequence A false).sequence (sigmaStar S) false).Remembers S fun w =>
      (endingPower s n w,
        ∃ u v, w = u ++ v ∧ ((sigmaStar S).sequence A false).accepts u = true) := by
  have hbefore : ((sigmaStar S).sequence A false).AllLabels Copying :=
    (copying_sigmaStar S).sequence hA.copying copying_silent false
  refine (hA.remembers_before.of_comp fun u v h => (Prod.mk.inj h).1).sequence hbefore
    (copying_sigmaStar S) ?_
  rintro _ v hu hv hsame q ⟨u₁, u₂, rfl, hfound, hq⟩
  obtain ⟨v₁, v₂, rfl, hfound'⟩ := (Prod.mk.inj hsame).2.mp ⟨u₁, u₂, rfl, hfound⟩
  refine ⟨v₁, v₂, rfl, hfound', (meets_sigmaStar_iff (Word.over_append_iff.1 hv).2).2 ?_⟩
  exact (meets_sigmaStar_iff (Word.over_append_iff.1 hu).2).1 hq

/-! ## Subsequences

A copy of the words that contain a letter takes one occurrence. How far the copies have come is a
matter of how often the letter has occurred, and inside of a copy it matters besides whether it has
just been read. -/

/-- The words over Σ with the letter somewhere. -/
def once (S : Alphabet) (s : Symbol) : Automaton :=
  ((sigmaStar S).sequence (symbol S s) false).sequence (sigmaStar S) false

/-- What counts in a word: whether it is empty, whether it ends in the letter, and how often the
letter occurs, up to a bound. -/
def occurrences (s : Symbol) (n : Nat) (w : Word) : Bool × Bool × Fin (n + 1) :=
  (w.isEmpty, w.getLast? = some s, ⟨min (w.count s) n, Nat.lt_succ_of_le (Nat.min_le_right ..)⟩)

theorem copying_once (S : Alphabet) (s : Symbol) : (once S s).AllLabels Copying :=
  ((copying_sigmaStar S).sequence (copying_symbol S s) copying_silent false).sequence
    (copying_sigmaStar S) copying_silent false

theorem accepts_symbol_iff : (symbol S s).accepts w = true ↔ w = [s] := by
  rw [accepts_iff_relates_self (allLabels_copying_iff.1 (copying_symbol S s)), relates_symbol_iff]
  exact and_iff_right rfl

theorem accepts_sigmaStar_iff : (sigmaStar S).accepts w = true ↔ w.Over S :=
  ((defines_sigmaStar S).accepts_iff w).trans (and_iff_left trivial)

theorem accepts_before_iff :
    ((sigmaStar S).sequence (symbol S s) false).accepts w = true
      ↔ ∃ u : Word, u.Over S ∧ w = u ++ [s] := by
  rw [accepts_sequence_iff (copying_sigmaStar S) (copying_symbol S s)]
  simp only [accepts_sigmaStar_iff, accepts_symbol_iff]
  constructor
  · rintro ⟨u, _, rfl, hu, rfl⟩
    exact ⟨u, hu, rfl⟩
  · rintro ⟨u, hu, rfl⟩
    exact ⟨u, [s], rfl, hu, rfl⟩

theorem copying_before (S : Alphabet) (s : Symbol) :
    ((sigmaStar S).sequence (symbol S s) false).AllLabels Copying :=
  (copying_sigmaStar S).sequence (copying_symbol S s) copying_silent false

theorem accepts_once_iff (hs : S.contains s = true) :
    (once S s).accepts w = true ↔ w.Over S ∧ s ∈ w := by
  rw [once, accepts_sequence_iff (copying_before S s) (copying_sigmaStar S)]
  simp only [accepts_before_iff, accepts_sigmaStar_iff]
  constructor
  · rintro ⟨_, v, rfl, ⟨u, hu, rfl⟩, hv⟩
    have hletter : Word.Over S [s] := Word.over_cons_iff.2 ⟨hs, Word.over_nil S⟩
    exact ⟨Word.over_append_iff.2 ⟨Word.over_append_iff.2 ⟨hu, hletter⟩, hv⟩, by simp⟩
  · rintro ⟨hw, hmem⟩
    obtain ⟨u, v, rfl⟩ := List.append_of_mem hmem
    obtain ⟨hu, hv⟩ := Word.over_append_iff.1 hw
    exact ⟨u ++ [s], v, by simp, ⟨u, hu, rfl⟩, (Word.over_cons_iff.1 hv).2⟩

/-- A word leads into a copy wherever a word does that is no further on. -/
theorem meets_once_of_le (hu : u.Over S) (hv : v.Over S) (hmem : s ∈ u → s ∈ v)
    (hlast : u.getLast? = some s → v.getLast? = some s) (h : (once S s).Meets u q) :
    (once S s).Meets v q := by
  rw [once, meets_sequence_iff (copying_before S s) (copying_sigmaStar S),
    meets_sequence_iff (copying_sigmaStar S) (copying_symbol S s)] at h ⊢
  rcases h with (hq | ⟨p, hp, u₁, u₂, rfl, -, hq⟩) | ⟨p, hp, u₁, u₂, rfl, hbefore, hq⟩
  · exact .inl (.inl ((meets_sigmaStar_iff hv).2 ((meets_sigmaStar_iff hu).1 hq)))
  · -- the copy waits for the letter, or has just read it
    refine .inl (.inr ⟨p, hp, ?_⟩)
    rcases meets_symbol_iff.1 hq with ⟨rfl, rfl⟩ | ⟨rfl, rfl⟩
    · exact ⟨v, [], (List.append_nil v).symm, accepts_sigmaStar hv,
        meets_symbol_iff.2 (.inl ⟨rfl, rfl⟩)⟩
    · obtain ⟨v₁, rfl⟩ := List.getLast?_eq_some_iff.1 (hlast List.getLast?_concat)
      exact ⟨v₁, [s], rfl, accepts_sigmaStar (Word.over_append_iff.1 hv).1,
        meets_symbol_iff.2 (.inr ⟨rfl, rfl⟩)⟩
  · refine .inr ⟨p, hp, ?_⟩
    obtain ⟨u₀, -, rfl⟩ := accepts_before_iff.1 hbefore
    obtain ⟨v₁, v₂, rfl⟩ := List.append_of_mem (hmem (by simp))
    obtain ⟨hv₁, hv₂⟩ := Word.over_append_iff.1 hv
    have hover := (Word.over_cons_iff.1 hv₂).2
    refine ⟨v₁ ++ [s], v₂, by simp, accepts_before_iff.2 ⟨v₁, hv₁, rfl⟩, ?_⟩
    rw [meets_sigmaStar_iff hover]
    exact (meets_sigmaStar_iff (Word.over_append_iff.1 hu).2).1 hq

/-- The automaton accepts the words over Σ that can be divided so that the letter occurs just as
often in the part that is accepted as it should. -/
structure Takes (S : Alphabet) (s : Symbol) (k : Nat) (A : Automaton) : Prop where
  copying : A.AllLabels Copying
  le_count : ∀ w, A.accepts w = true → k ≤ w.count s
  exists_split : ∀ w : Word, w.Over S → k ≤ w.count s →
    ∃ u v, w = u ++ v ∧ A.accepts u = true ∧ u.count s = k

theorem takes_epsilon : (epsilon S).Takes S s 0 := by
  refine ⟨allLabels_epsilon S, fun _ _ => Nat.zero_le _, fun w _ _ => ⟨[], w, rfl, ?_, rfl⟩⟩
  exact accepts_iff_exists_relates.2 ⟨[], relates_epsilon_iff.2 ⟨rfl, rfl⟩⟩

/-- One more copy takes the words up to the next occurrence. -/
theorem Takes.sequence {k : Nat} (hA : A.Takes S s k) (hs : S.contains s = true) :
    (A.sequence (once S s) false).Takes S s (k + 1) := by
  have hcopying := copying_once S s
  refine ⟨hA.copying.sequence hcopying copying_silent false, fun w hw => ?_, fun w hw hcount => ?_⟩
  · obtain ⟨u, v, rfl, hu, hv⟩ := (accepts_sequence_iff hA.copying hcopying).1 hw
    have hmem := ((accepts_once_iff hs).1 hv).2
    rw [List.count_append]
    exact Nat.add_le_add (hA.le_count u hu) (List.one_le_count_iff.2 hmem)
  · obtain ⟨u, v, rfl, hu, rfl⟩ := hA.exists_split w hw (Nat.le_of_succ_le hcount)
    have hmem : s ∈ v := by
      rw [List.count_append] at hcount
      exact List.one_le_count_iff.1 (by omega)
    obtain ⟨v₁, v₂, rfl, hfirst⟩ := List.eq_append_cons_of_mem hmem
    have hv := (Word.over_append_iff.1 hw).2
    have hover : Word.Over S (v₁ ++ [s]) := Word.over_append_iff.2
      ⟨(Word.over_append_iff.1 hv).1, Word.over_cons_iff.2 ⟨hs, Word.over_nil S⟩⟩
    refine ⟨u ++ (v₁ ++ [s]), v₂, by simp, ?_, ?_⟩
    · exact (accepts_sequence_iff hA.copying hcopying).2
        ⟨u, _, rfl, hu, (accepts_once_iff hs).2 ⟨hover, by simp⟩⟩
    · rw [List.count_append, List.count_append, List.count_eq_zero_of_not_mem hfirst,
        List.count_singleton_self]

/-- The copies before decide where a word can be divided, and there are enough of the letter for
one more copy behind them in either word or in none. -/
theorem Takes.remembers_sequence {k : Nat} (hA : A.Takes S s k) (hk : k < n)
    (hremembers : A.Remembers S (occurrences s n)) :
    (A.sequence (once S s) false).Remembers S (occurrences s n) := by
  refine hremembers.sequence hA.copying (copying_once S s) ?_
  rintro _ v hu hv hsame q ⟨u₁, u₂, rfl, haccepts, hq⟩
  simp only [occurrences, Prod.mk.injEq, decide_eq_decide, Fin.mk.injEq] at hsame
  obtain ⟨-, hlast, hcount⟩ := hsame
  have hfirst := hA.le_count u₁ haccepts
  rw [List.count_append] at hcount
  obtain ⟨v₁, v₂, rfl, haccepts', hcount'⟩ := hA.exists_split v hv (by omega)
  rw [List.count_append, hcount'] at hcount
  have hmem : s ∈ u₂ → s ∈ v₂ := by
    rw [← List.one_le_count_iff, ← List.one_le_count_iff]
    omega
  refine ⟨v₁, v₂, rfl, haccepts', meets_once_of_le (Word.over_append_iff.1 hu).2
    (Word.over_append_iff.1 hv).2 hmem (fun hend => ?_) hq⟩
  have hlast' := hlast.1 (by rw [List.getLast?_append, hend]; rfl)
  have hne : v₂ ≠ [] := List.ne_nil_of_mem (hmem (List.mem_of_getLast? hend))
  rwa [List.getLast?_append_of_ne_nil _ hne] at hlast'

/-- Words are told apart by how often the letter occurs in them, up to the number asked for. -/
theorem remembers_subsequence (hs : S.contains s = true)
    (h : (once S s).power n (some n) = .ok C) : C.Remembers S (occurrences s n) := by
  rw [power_self] at h
  have hepsilon : (epsilon S).Remembers S (occurrences s n) := by
    intro u v _ _ hsame q hq
    obtain rfl := eq_nil_of_meets_epsilon hq
    obtain rfl := List.isEmpty_iff.1 (Prod.mk.inj hsame).1.symm
    exact hq
  exact (appendCopies_induction (k := 0)
    (P := fun k B => B.Takes S s k ∧ B.Remembers S (occurrences s n))
    ⟨takes_epsilon, hepsilon⟩ (fun k B hk ⟨htakes, hremembers⟩ =>
      ⟨htakes.sequence hs, htakes.remembers_sequence (by omega) hremembers⟩) h).2

end Automaton

open Automaton

namespace Catalog

variable {S : Alphabet} {a b : Symbol} {star : Automaton} {contains : OccurrenceTest}

/-! ## Room for the catalog

There are at most as many states as a test can remember, and what combines tests takes pairs of
their states. -/

/-- A test for at most eight occurrences succeeds, and has at most 36 states. -/
def TestFits (S : Alphabet) (contains : OccurrenceTest) : Prop :=
  ∀ x s n, S.symbol x = .ok s → n ≤ 8 → ∃ A, contains x n = .ok A ∧ A.Fits S 36

/-- The test for a substring fits: each state stands for a power at the end of a word, and whether
the power is over. -/
theorem testFits_substring (hroom : 36 ≤ S.stateLimit) : TestFits S (containingSubstring S) := by
  intro x s n hs hn
  have hletter := Small.symbol (Alphabet.contains_of_symbol hs)
  have hstar := (Fits.sigmaStar S).toSmall
  obtain ⟨block, hblock, hsmall⟩ := hletter.appendCopies n (.epsilon S) (by omega)
  have hpower := ((symbol S s).power_self n).trans hblock
  obtain ⟨hbefore, hbeforeSmall⟩ := hstar.concat hsmall (by omega)
  obtain ⟨hboth, hbothSmall⟩ := hbeforeSmall.concat hstar (by omega)
  -- nine powers, and whether the last of them has been found
  obtain ⟨A, hA, hfits⟩ := exists_minimize_of_remembers
    (readsPowers_power hpower).remembers_substring hbothSmall.alphabet hbothSmall.plain
    (n := 36) (by simp; omega) hroom
  refine ⟨A, Except.bind_eq_ok.2 ⟨s, hs, Except.bind_eq_ok.2 ⟨block, hpower, ?_⟩⟩, hfits⟩
  exact Except.bind_eq_ok.2 ⟨_, hbefore, Except.bind_eq_ok.2 ⟨_, hboth, hA⟩⟩

/-- The test for a subsequence fits: the states stand for numbers of occurrences. -/
theorem testFits_subsequence (hroom : 36 ≤ S.stateLimit) :
    TestFits S (containingSubsequence S) := by
  intro x s n hs hn
  have hcontains := Alphabet.contains_of_symbol hs
  have hletter := Small.symbol hcontains
  have hstar := (Fits.sigmaStar S).toSmall
  obtain ⟨hbefore, hbeforeSmall⟩ := hstar.concat hletter (by omega)
  obtain ⟨honce, honceSmall⟩ := hbeforeSmall.concat hstar (by omega)
  obtain ⟨power, hpower, hpowerSmall⟩ := honceSmall.appendCopies n (.epsilon S) (by omega)
  have hpower' := ((once S s).power_self n).trans hpower
  obtain ⟨A, hA, hfits⟩ := exists_minimize_of_remembers (remembers_subsequence hcontains hpower')
    hpowerSmall.alphabet hpowerSmall.plain (n := 36) (by simp; omega) hroom
  refine ⟨A, Except.bind_eq_ok.2 ⟨s, hs, Except.bind_eq_ok.2 ⟨_, hbefore, ?_⟩⟩, hfits⟩
  exact Except.bind_eq_ok.2 ⟨_, honce, Except.bind_eq_ok.2 ⟨power, hpower', hA⟩⟩

/-- The words without a power fit as well, in the two states more that a complement takes at
most. -/
theorem TestFits.avoiding (hcontains : TestFits S contains) (hb : S.symbol 'b' = .ok b)
    (hstar : star.Fits S 1) (hroom : 38 ≤ S.stateLimit) {n : Nat} (hn : n ≤ 8) :
    ∃ A, avoiding star contains n = .ok A ∧ A.Fits S 38 := by
  obtain ⟨B, hB, hBfits⟩ := hcontains _ _ _ hb hn
  have hsymbols := Alphabet.symbols_ne_nil (Alphabet.contains_of_symbol hb)
  obtain ⟨A, hA, hAfits⟩ := hstar.difference hBfits hsymbols hroom hroom
  exact ⟨A, Except.bind_eq_ok.2 ⟨B, hB, hA⟩, hAfits⟩

/-- The entries can be minimized. -/
def Minimizable (es : List CatalogEntry) : Prop :=
  ∀ e ∈ es, ∃ A, e.automaton.minimize = .ok A

theorem Minimizable.cons {e : CatalogEntry} {es : List CatalogEntry}
    (he : ∃ A, e.automaton.minimize = .ok A) (hes : Minimizable es) : Minimizable (e :: es) :=
  List.forall_mem_cons.2 ⟨he, hes⟩

/-- Lists of entries that can be minimized are put together. -/
theorem Minimizable.append {es fs : List CatalogEntry} (hes : Minimizable es)
    (hfs : Minimizable fs) : Minimizable (es ++ fs) :=
  List.forall_mem_append.2 ⟨hes, hfs⟩

/-- If every entry can be minimized, so can the whole list in one go. -/
theorem Minimizable.exists_mapM {es : List CatalogEntry} (hes : Minimizable es) :
    ∃ fs, es.mapM (·.minimize) = .ok fs := by
  induction es with
  | nil => exact ⟨[], rfl⟩
  | cons e es ih =>
    obtain ⟨⟨A, hA⟩, hes⟩ := List.forall_mem_cons.1 hes
    obtain ⟨fs, hfs⟩ := ih hes
    refine ⟨{ e with automaton := A } :: fs, ?_⟩
    rw [List.mapM_cons]
    refine Except.bind_eq_ok.2 ⟨_, Except.bind_eq_ok.2 ⟨A, hA, rfl⟩, ?_⟩
    exact Except.bind_eq_ok.2 ⟨fs, hfs, rfl⟩

/-- There is room for the classes that forbid a power, with thresholds up to eight. -/
theorem exists_forbidding (hsubstring : TestFits S (containingSubstring S))
    (hsubsequence : TestFits S (containingSubsequence S)) (hb : S.symbol 'b' = .ok b)
    (hstar : star.Fits S 1) (hroom : 38 ≤ S.stateLimit) (thresholds : List (Nat × Nat))
    (hthresholds : ∀ p ∈ thresholds, p.2 ≤ 8) :
    ∃ sl sp, forbidding star (containingSubstring S) (containingSubsequence S) thresholds
        = .ok (sl, sp) ∧ Minimizable sl ∧ Minimizable sp := by
  induction thresholds with
  | nil => exact ⟨[], [], rfl, nofun, nofun⟩
  | cons p rest ih =>
    obtain ⟨hp, hrest⟩ := List.forall_mem_cons.1 hthresholds
    obtain ⟨A, hA, hAfits⟩ := hsubstring.avoiding hb hstar hroom hp
    obtain ⟨B, hB, hBfits⟩ := hsubsequence.avoiding hb hstar hroom hp
    obtain ⟨sls, sps, hforbidding, hsls, hsps⟩ := ih hrest
    refine ⟨⟨.strictlyLocal, p.1, A⟩ :: sls, ⟨.strictlyPiecewise, p.1, B⟩ :: sps, ?_,
      .cons hAfits.exists_minimize hsls, .cons hBfits.exists_minimize hsps⟩
    exact Except.bind_eq_ok.2 ⟨A, hA, Except.bind_eq_ok.2 ⟨B, hB,
      Except.bind_eq_ok.2 ⟨(sls, sps), hforbidding, rfl⟩⟩⟩

/-- There is room for a class that counts two letters, with all products of its two tests. -/
theorem exists_testing (hcontains : TestFits S contains) (ha : S.symbol 'a' = .ok a)
    (hb : S.symbol 'b' = .ok b) (hstar : star.Fits S 1) (hroom : 4096 ≤ S.stateLimit)
    (cls : LanguageClass) : ∃ es, testing star cls contains = .ok es ∧ Minimizable es := by
  obtain ⟨two, htwo, htwoFits⟩ := hcontains _ _ 2 hb (by decide)
  obtain ⟨b₄, hb₄, hb₄Fits⟩ := hcontains _ _ 4 hb (by decide)
  obtain ⟨a₄, ha₄, ha₄Fits⟩ := hcontains _ _ 4 ha (by decide)
  obtain ⟨a₈, ha₈, ha₈Fits⟩ := hcontains _ _ 8 ha (by decide)
  obtain ⟨without, hwithout, hwithoutFits⟩ := hcontains.avoiding hb hstar (by omega) (Nat.le_refl 8)
  obtain ⟨either, _, heither, hminimize⟩ := hb₄Fits.exists_union ha₄Fits (by omega)
  obtain ⟨both, hboth, hbothFits⟩ := hb₄Fits.intersection ha₄Fits (by omega)
  obtain ⟨implied, _, himplied, hminimize'⟩ := hwithoutFits.exists_union ha₈Fits (by omega)
  refine ⟨[⟨cls, 0, two⟩, ⟨cls, 1, either⟩, ⟨cls, 2, both⟩, ⟨cls, 3, implied⟩], ?_,
    .cons htwoFits.exists_minimize <| .cons ⟨_, hminimize⟩ <| .cons hbothFits.exists_minimize <|
      .cons ⟨_, hminimize'⟩ nofun⟩
  refine Except.bind_eq_ok.2 ⟨two, htwo, Except.bind_eq_ok.2 ⟨b₄, hb₄, ?_⟩⟩
  refine Except.bind_eq_ok.2 ⟨a₄, ha₄, Except.bind_eq_ok.2 ⟨either, heither, ?_⟩⟩
  refine Except.bind_eq_ok.2 ⟨b₄, hb₄, Except.bind_eq_ok.2 ⟨a₄, ha₄, ?_⟩⟩
  refine Except.bind_eq_ok.2 ⟨both, hboth, Except.bind_eq_ok.2 ⟨without, hwithout, ?_⟩⟩
  exact Except.bind_eq_ok.2 ⟨a₈, ha₈, Except.bind_eq_ok.2 ⟨implied, himplied, rfl⟩⟩

/-- With room for 4096 states, nothing is missing but the two letters. -/
theorem exists_build (ha : S.symbol 'a' = .ok a) (hb : S.symbol 'b' = .ok b)
    (hroom : 4096 ≤ S.stateLimit) : ∃ C, build S = .ok C := by
  have hsubstring : TestFits S (containingSubstring S) := testFits_substring (by omega)
  have hsubsequence : TestFits S (containingSubsequence S) := testFits_subsequence (by omega)
  obtain ⟨star, hstar, hstarFits⟩ := (Fits.sigmaStar S).minimize
  obtain ⟨sl, sp, hforbidding, hsl, hsp⟩ := exists_forbidding hsubstring hsubsequence hb hstarFits
    (by omega) [(0, 2), (1, 4), (2, 8)] (by decide)
  obtain ⟨lt, hlt, hltMinimizable⟩ :=
    exists_testing hsubstring ha hb hstarFits hroom .locallyTestable
  obtain ⟨pt, hpt, hptMinimizable⟩ :=
    exists_testing hsubsequence ha hb hstarFits hroom .piecewiseTestable
  obtain ⟨entries, hentries⟩ :=
    (((hsl.append hsp).append hltMinimizable).append hptMinimizable).exists_mapM
  refine ⟨⟨S, entries⟩, ?_⟩
  refine Except.bind_eq_ok.2 ⟨star, hstar, Except.bind_eq_ok.2 ⟨(sl, sp), hforbidding, ?_⟩⟩
  refine Except.bind_eq_ok.2 ⟨lt, hlt, Except.bind_eq_ok.2 ⟨pt, hpt, ?_⟩⟩
  exact Except.bind_eq_ok.2 ⟨entries, hentries, rfl⟩

end Catalog

end FiniteState
