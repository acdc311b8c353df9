import FiniteState.Language.Catalog
import FiniteState.Proofs.Labels

/-!
# Words with repeated letters

The tests of the catalog look for a number of occurrences of a letter, side by side or with other
letters in between: a word passes if the power of the letter is a substring of it, or a subsequence.

* `Defines`: an acceptor of the words over Σ with a property, and how operations change it.
* `defines_containingSubstring`, `defines_containingSubsequence`: the two kinds of tests.
* `containingSubstring_exact`: substrings for every number of occurrences.
* `containingSubsequence_exact`: subsequences for every number of occurrences, none included.
-/

open scoped List

namespace FiniteState

namespace Automaton

variable {A B C : Automaton} {S : Alphabet} {P Q : Word → Prop}

/-! ## Languages over Σ -/

/-- An acceptor over an alphabet that accepts the words over Σ with a property. -/
structure Defines (S : Alphabet) (P : Word → Prop) (A : Automaton) : Prop where
  alphabet : A.alphabet = S
  isAcceptor : A.isAcceptor = true
  accepts_iff : ∀ w, A.accepts w = true ↔ w.Over S ∧ P w

/-- Words are related as by an acceptor of the words over Σ with a property. -/
theorem Defines.of_relates (halphabet : A.alphabet = S) (hcopying : A.AllLabels Copying)
    (h : ∀ x y, A.Relates x y ↔ x = y ∧ x.Over S ∧ P x) : A.Defines S P :=
  ⟨halphabet, allLabels_copying_iff.1 hcopying, fun _ => accepts_iff_of_copies h⟩

/-- What defines a language relates its words to themselves. -/
theorem Defines.relates_iff (hA : A.Defines S P) {x y : Word} :
    A.Relates x y ↔ x = y ∧ x.Over S ∧ P x := by
  rw [relates_iff_accepts hA.isAcceptor, hA.accepts_iff]

/-- A definition of a language is an acceptor, so each label copies. -/
theorem Defines.copying (hA : A.Defines S P) : A.AllLabels Copying :=
  allLabels_copying_iff.2 hA.isAcceptor

theorem Defines.congr (hA : A.Defines S P) (hPQ : ∀ w, w.Over S → (P w ↔ Q w)) :
    A.Defines S Q := by
  refine ⟨hA.alphabet, hA.isAcceptor, fun w => ?_⟩
  rw [hA.accepts_iff]
  exact and_congr_right (hPQ w)

theorem Defines.minimize (hA : A.Defines S P) (h : A.minimize = .ok C) : C.Defines S P := by
  refine .of_relates ((alphabet_minimize h).trans hA.alphabet) (hA.copying.minimize h) fun x y => ?_
  rw [relates_minimize_iff h, hA.relates_iff]

theorem Defines.union (hA : A.Defines S P) (hB : B.Defines S Q) (h : A.union B = .ok C) :
    C.Defines S fun w => P w ∨ Q w := by
  refine .of_relates ((alphabet_union h).trans hA.alphabet)
    (hA.copying.union hB.copying copying_silent h) fun x y => ?_
  rw [relates_union_iff h, hA.relates_iff, hB.relates_iff, ← and_or_left, ← and_or_left]

theorem Defines.intersection (hA : A.Defines S P) (hB : B.Defines S Q)
    (h : A.intersection B = .ok C) : C.Defines S fun w => P w ∧ Q w := by
  refine .of_relates ((alphabet_intersection h).trans hA.alphabet)
    (hA.copying.intersection_left copying_silent h) fun x y => ?_
  rw [relates_intersection_iff h, hA.accepts_iff, hB.accepts_iff, ← and_and_left]

/-- Differences are conjunctions with a negation. -/
theorem Defines.difference (hA : A.Defines S P) (hB : B.Defines S Q) (h : A.difference B = .ok C) :
    C.Defines S fun w => P w ∧ ¬ Q w := by
  refine .of_relates ((alphabet_difference h).trans hA.alphabet)
    (hA.copying.difference copying_silent h) fun x y => ?_
  rw [relates_difference_iff h, hA.accepts_iff, hB.alphabet, Bool.eq_false_iff, ne_eq,
    hB.accepts_iff]
  constructor
  · rintro ⟨rfl, ⟨hover, hP⟩, -, hQ⟩
    exact ⟨rfl, hover, hP, fun h => hQ ⟨hover, h⟩⟩
  · rintro ⟨rfl, hover, hP, hQ⟩
    exact ⟨rfl, ⟨hover, hP⟩, hover, fun h => hQ h.2⟩

/-! ## All words, and powers of a letter -/

theorem lettered_sigmaStar (S : Alphabet) : (sigmaStar S).Lettered S := by
  have hlabels : (sigmaStar S).AllLabels fun l => ∃ s, S.contains s = true ∧ l = letter s :=
    allLabels_sigmaStar fun s hs => ⟨s, hs, rfl⟩
  exact allLabels_iff.1 hlabels

theorem total_sigmaStar (S : Alphabet) : (sigmaStar S).Total S := by
  intro q hq s hs
  -- there is one state only
  obtain rfl : q = 0 := Nat.lt_one_iff.1 hq
  exact ⟨.copying (.symbol s) 0, List.mem_map_of_mem (Alphabet.mem_sigma_iff.2 hs), rfl⟩

theorem defines_sigmaStar (S : Alphabet) : (sigmaStar S).Defines S fun _ => True := by
  refine .of_relates rfl (allLabels_sigmaStar fun _ _ => rfl) fun x y => ?_
  rw [relates_iff_maps]
  constructor
  · rintro ⟨q, hruns, -⟩
    obtain ⟨hxy, hover, -⟩ := (lettered_sigmaStar S).trace_of_runs hruns
    exact ⟨hxy, hover, trivial⟩
  · rintro ⟨rfl, hover, -⟩
    obtain ⟨q, hq, hruns⟩ := (total_sigmaStar S).exists_run (sigmaStar S).start_lt_size hover
    obtain rfl : q = 0 := Nat.lt_one_iff.1 hq
    exact ⟨0, hruns, rfl⟩

/-- The automaton of one letter relates it to itself. -/
theorem relates_symbol_iff {s : Symbol} {x y : Word} :
    (symbol S s).Relates x y ↔ x = y ∧ x = [s] := by
  rw [symbol, relates_pair_iff]
  constructor
  · rintro ⟨rfl, rfl⟩
    exact ⟨rfl, rfl⟩
  · rintro ⟨rfl, rfl⟩
    exact ⟨rfl, rfl⟩

/-- Copies of a letter make up its power. -/
theorem copies_symbol_iff {s : Symbol} {n : Nat} {x y : Word} :
    Copies (symbol S s).Relates n x y ↔ x = y ∧ x = List.replicate n s := by
  induction n generalizing x y with
  | zero =>
    constructor
    · rintro ⟨⟩
      exact ⟨rfl, rfl⟩
    · rintro ⟨rfl, rfl⟩
      exact .nil
  | succ n ih =>
    constructor
    · rintro (_ | ⟨h, hrest⟩)
      obtain ⟨rfl, rfl⟩ := relates_symbol_iff.1 h
      obtain ⟨rfl, rfl⟩ := ih.1 hrest
      exact ⟨rfl, rfl⟩
    · rintro ⟨rfl, rfl⟩
      exact .cons (relates_symbol_iff.2 ⟨rfl, rfl⟩) (ih.2 ⟨rfl, rfl⟩)

/-- Words over Σ on both sides of a part that is one of its own. -/
theorem Defines.surrounded {R : Automaton} {block : Word} (hA : A.Defines S fun _ => True)
    (hblock : block.Over S) (hB : ∀ x y, B.Relates x y ↔ x = y ∧ x = block)
    (hcopying : B.AllLabels Copying) (hC : A.concat B = .ok C) (hR : C.concat A = .ok R) :
    R.Defines S (block <:+: ·) := by
  have hcopyingC := hA.copying.concatWith hcopying copying_silent hC
  have halphabet : R.alphabet = S := by grind [concat, Defines.alphabet]
  refine .of_relates halphabet
    (hcopyingC.concatWith hA.copying copying_silent hR) fun x y => ?_
  simp only [relates_concat_iff hR, relates_concat_iff hC, hA.relates_iff, hB, and_true]
  constructor
  · rintro ⟨_, _, v, _, ⟨u, _, _, _, ⟨rfl, hu⟩, ⟨rfl, rfl⟩, rfl, rfl⟩, ⟨rfl, hv⟩, rfl, rfl⟩
    refine ⟨rfl, ?_, u, v, rfl⟩
    exact Word.over_append_iff.2 ⟨Word.over_append_iff.2 ⟨hu, hblock⟩, hv⟩
  · rintro ⟨rfl, hover, u, v, rfl⟩
    obtain ⟨hublock, hv⟩ := Word.over_append_iff.1 hover
    have hu := (Word.over_append_iff.1 hublock).1
    exact ⟨_, _, v, v, ⟨u, u, block, block, ⟨rfl, hu⟩, ⟨rfl, rfl⟩, rfl, rfl⟩, ⟨rfl, hv⟩, rfl, rfl⟩

end Automaton

namespace Alphabet

/-- The symbol of a character of Σ belongs to Σ. -/
theorem contains_of_symbol {S : Alphabet} {x : Char} {s : Symbol} (h : S.symbol x = .ok s) :
    S.contains s = true := by
  unfold symbol symbol? at h
  cases hindex : S.symbols.idxOf? x with
  | none =>
    rw [hindex] at h
    cases h
  | some i =>
    rw [hindex] at h
    obtain rfl : (⟨i⟩ : Symbol) = s := Except.ok.inj h
    obtain ⟨hi, -⟩ := List.idxOf?_eq_some_iff.1 hindex
    exact decide_eq_true hi

theorem symbols_ne_nil {S : Alphabet} {s : Symbol} (h : S.contains s = true) : S.symbols ≠ [] :=
  List.ne_nil_of_length_pos (Nat.zero_lt_of_lt (of_decide_eq_true h))

end Alphabet

open Automaton

variable {S : Alphabet} {s : Symbol} {A B : Automaton}

theorem Word.over_replicate (hs : S.contains s = true) (n : Nat) :
    Word.Over S (List.replicate n s) := by
  intro r hr
  rw [List.eq_of_mem_replicate hr]
  exact hs

/-! ## Substrings -/

/-- The test for a substring, read as a definition of a language. -/
theorem defines_containingSubstring {x : Char} {i : Nat} (hs : S.symbol x = .ok s)
    (h : containingSubstring S x i = .ok A) : A.Defines S (List.replicate i s <:+: ·) := by
  unfold containingSubstring at h
  obtain ⟨s', hs', h⟩ := Except.bind_eq_ok.1 h
  obtain rfl : s = s' := Except.ok.inj (hs.symm.trans hs')
  obtain ⟨block, hblock, h⟩ := Except.bind_eq_ok.1 h
  obtain ⟨before, hbefore, h⟩ := Except.bind_eq_ok.1 h
  obtain ⟨both, hboth, h⟩ := Except.bind_eq_ok.1 h
  have hcopying : (Automaton.symbol S s).AllLabels Copying := allLabels_symbol rfl
  refine Defines.minimize (.surrounded (defines_sigmaStar S)
    (Word.over_replicate (Alphabet.contains_of_symbol hs) i) (fun x y => ?_)
    (hcopying.power copying_silent hblock) hbefore hboth) h
  rw [relates_power_iff hblock, copies_symbol_iff]

/-- The test for substrings lets the words over Σ pass in which the letter stands side by side as
often as it should, whatever comes before and behind. The test for no occurrences lets all of them
pass. -/
theorem containingSubstring_exact (S : Alphabet) (x : Char) (s : Symbol) (i : Nat) (A : Automaton)
    (hs : S.symbol x = .ok s) (h : containingSubstring S x i = .ok A) (w : Word) :
    (A.accepts w = true ↔ w.Over S ∧ List.replicate i s <:+: w)
      ∧ (w.Over S →
        (A.accepts w = true ↔ ∃ k, i + k ≤ w.length ∧ ∀ j < i, w[j + k]? = some s))
      ∧ (i = 0 → (A.accepts w = true ↔ w.Over S)) := by
  have haccepts := (defines_containingSubstring hs h).accepts_iff w
  refine ⟨haccepts, fun hover => ?_, fun hzero => ?_⟩
  · rw [haccepts, and_iff_right hover, List.infix_iff_getElem?]
    simp only [List.length_replicate, List.getElem_replicate]
  · rw [haccepts, hzero]
    exact and_iff_left List.nil_infix

/-- Two occurrences of a side by side are in baaa, but not in aba. -/
theorem containingSubstring_two :
    ∃ A, containingSubstring .abcd 'a' 2 = .ok A
      ∧ A.accepts [⟨1⟩, ⟨0⟩, ⟨0⟩, ⟨0⟩] = true ∧ A.accepts [⟨0⟩, ⟨1⟩, ⟨0⟩] = false := by
  have hok : (containingSubstring .abcd 'a' 2).isOk = true := by cbv
  obtain ⟨A, hA⟩ := Except.exists_eq_ok hok
  have hexact := containingSubstring_exact .abcd 'a' ⟨0⟩ 2 A (by decide) hA
  have hbaaa : ∀ s ∈ [⟨1⟩, ⟨0⟩, ⟨0⟩, ⟨0⟩], Alphabet.abcd.contains s = true := by decide
  refine ⟨A, hA, (hexact _).1.2 ⟨hbaaa, [⟨1⟩], [⟨0⟩], rfl⟩, Bool.eq_false_iff.2 fun hw => ?_⟩
  exact absurd ((hexact _).1.1 hw).2 (by decide)

/-! ## Subsequences -/

/-- A letter, and then more of them later on. -/
theorem replicate_succ_sublist_iff {n : Nat} {w : Word} :
    List.replicate (n + 1) s <+ w
      ↔ ∃ u v, w = u ++ v ∧ s ∈ u ∧ List.replicate n s <+ v := by
  rw [List.replicate_succ, List.cons_sublist_iff]

/-- Words with one occurrence each make up the words with as many occurrences as there are words. -/
theorem copies_containing_iff (hB : B.Defines S (s ∈ ·)) {n : Nat} {x y : Word} :
    Copies B.Relates (n + 1) x y ↔ x = y ∧ x.Over S ∧ List.replicate (n + 1) s <+ x := by
  induction n generalizing x y with
  | zero =>
    constructor
    · rintro (_ | ⟨h, ⟨⟩⟩)
      obtain ⟨rfl, hover, hmem⟩ := hB.relates_iff.1 h
      rw [List.append_nil]
      exact ⟨rfl, hover, List.singleton_sublist.2 hmem⟩
    · rintro ⟨rfl, hover, hsublist⟩
      have hx := hB.relates_iff.2 ⟨rfl, hover, List.singleton_sublist.1 hsublist⟩
      have hcopies := Copies.cons hx (Copies.nil (R := B.Relates))
      rwa [List.append_nil] at hcopies
  | succ n ih =>
    -- the first word takes one occurrence, and the others are left to the rest
    constructor
    · rintro (_ | ⟨h, hrest⟩)
      obtain ⟨rfl, hover, hmem⟩ := hB.relates_iff.1 h
      obtain ⟨rfl, hover', hsublist⟩ := ih.1 hrest
      refine ⟨rfl, Word.over_append_iff.2 ⟨hover, hover'⟩, ?_⟩
      exact replicate_succ_sublist_iff.2 ⟨_, _, rfl, hmem, hsublist⟩
    · rintro ⟨rfl, hover, hsublist⟩
      obtain ⟨u, v, rfl, hmem, hsublist⟩ := replicate_succ_sublist_iff.1 hsublist
      obtain ⟨hu, hv⟩ := Word.over_append_iff.1 hover
      exact .cons (hB.relates_iff.2 ⟨rfl, hu, hmem⟩) (ih.2 ⟨rfl, hv, hsublist⟩)

/-- The test puts words together that contain the letter. -/
theorem containingSubsequence_eq_ok {x : Char} {i : Nat} (hs : S.symbol x = .ok s)
    (h : containingSubsequence S x i = .ok A) :
    ∃ once power : Automaton, once.Defines S (s ∈ ·) ∧ once.power i (some i) = .ok power
      ∧ power.minimize = .ok A := by
  unfold containingSubsequence at h
  obtain ⟨s', hs', h⟩ := Except.bind_eq_ok.1 h
  obtain rfl : s = s' := Except.ok.inj (hs.symm.trans hs')
  obtain ⟨before, hbefore, h⟩ := Except.bind_eq_ok.1 h
  obtain ⟨once, honce, h⟩ := Except.bind_eq_ok.1 h
  obtain ⟨power, hpower, h⟩ := Except.bind_eq_ok.1 h
  have hletter := Word.over_replicate (Alphabet.contains_of_symbol hs) 1
  have hdefines : once.Defines S (s ∈ ·) := by
    refine (Defines.surrounded (defines_sigmaStar S) hletter (fun x y => relates_symbol_iff)
      (allLabels_symbol rfl) hbefore honce).congr fun w _ => ?_
    exact List.singleton_infix_iff ..
  exact ⟨once, power, hdefines, hpower, h⟩

/-- A power that repeats words of a language defines what the repetitions say. -/
theorem defines_power {P Q : Word → Prop} {i : Nat} {C : Automaton} (hB : B.Defines S P)
    (hcopies : ∀ x y, Copies B.Relates i x y ↔ x = y ∧ x.Over S ∧ Q x)
    (hC : B.power i (some i) = .ok C) : C.Defines S Q := by
  refine .of_relates ((alphabet_power hC).trans hB.alphabet)
    (hB.copying.power copying_silent hC) fun x y => ?_
  rw [relates_power_iff hC, hcopies]

/-- The test for a subsequence that is not empty, read as a definition of a language. -/
theorem defines_containingSubsequence {x : Char} {n : Nat} (hs : S.symbol x = .ok s)
    (h : containingSubsequence S x (n + 1) = .ok A) :
    A.Defines S (List.replicate (n + 1) s <+ ·) := by
  obtain ⟨once, power, honce, hpower, hA⟩ := containingSubsequence_eq_ok hs h
  exact (defines_power honce (fun _ _ => copies_containing_iff honce) hpower).minimize hA

/-- Without occurrences, only the empty word is put together. -/
theorem defines_containingSubsequence_zero {x : Char} (hs : S.symbol x = .ok s)
    (h : containingSubsequence S x 0 = .ok A) : A.Defines S (· = []) := by
  obtain ⟨once, power, honce, hpower, hA⟩ := containingSubsequence_eq_ok hs h
  refine (defines_power honce (fun x y => ?_) hpower).minimize hA
  constructor
  · rintro ⟨⟩
    exact ⟨rfl, Word.over_nil S, rfl⟩
  · rintro ⟨rfl, -, rfl⟩
    exact .nil

/-- From one occurrence on, the test counts: a word passes if the letter occurs in it as often as it
should. But the test for no occurrences lets the empty word pass only. -/
theorem containingSubsequence_exact (S : Alphabet) (x : Char) (s : Symbol) (i : Nat) (A : Automaton)
    (hs : S.symbol x = .ok s) (h : containingSubsequence S x i = .ok A) :
    (0 < i → ∀ w : Word, w.Over S →
        (A.accepts w = true ↔ List.replicate i s <+ w) ∧ (A.accepts w = true ↔ i ≤ w.count s))
      ∧ (i = 0 → ∀ w, A.accepts w = true ↔ w = [])
      ∧ ∀ w, A.accepts w = true → w.Over S := by
  cases i with
  | zero =>
    have hdefines := defines_containingSubsequence_zero hs h
    refine ⟨fun hpos => absurd hpos (Nat.lt_irrefl 0), fun _ w => ?_, fun w hw => ?_⟩
    · rw [hdefines.accepts_iff]
      constructor
      · exact And.right
      · rintro rfl
        exact ⟨Word.over_nil S, rfl⟩
    · exact ((hdefines.accepts_iff w).1 hw).1
  | succ n =>
    have hdefines := defines_containingSubsequence hs h
    refine ⟨fun _ w hover => ?_, fun hzero => absurd hzero (Nat.succ_ne_zero n), fun w hw => ?_⟩
    · have haccepts : A.accepts w = true ↔ List.replicate (n + 1) s <+ w :=
        (hdefines.accepts_iff w).trans (and_iff_right hover)
      exact ⟨haccepts, haccepts.trans List.replicate_sublist_iff⟩
    · exact ((hdefines.accepts_iff w).1 hw).1

/-- Two occurrences of a are in aba, but not in ab. -/
theorem containingSubsequence_two :
    ∃ A, containingSubsequence .abcd 'a' 2 = .ok A
      ∧ A.accepts [⟨0⟩, ⟨1⟩, ⟨0⟩] = true ∧ A.accepts [⟨0⟩, ⟨1⟩] = false := by
  have hok : (containingSubsequence .abcd 'a' 2).isOk = true := by cbv
  obtain ⟨A, hA⟩ := Except.exists_eq_ok hok
  obtain ⟨hcounts, -⟩ := containingSubsequence_exact .abcd 'a' ⟨0⟩ 2 A (by decide) hA
  have hab : Word.Over .abcd [⟨0⟩, ⟨1⟩] :=
    Word.over_cons_iff.2 ⟨rfl, Word.over_cons_iff.2 ⟨rfl, Word.over_nil _⟩⟩
  have haba : Word.Over .abcd [⟨0⟩, ⟨1⟩, ⟨0⟩] :=
    Word.over_append_iff.2 ⟨hab, Word.over_cons_iff.2 ⟨rfl, Word.over_nil _⟩⟩
  refine ⟨A, hA, ((hcounts (by decide) _ haba).2).2 (by decide), ?_⟩
  exact Bool.eq_false_iff.2 fun hw => absurd (((hcounts (by decide) _ hab).2).1 hw) (by decide)

/-- Every word contains an a at least zero times, but the test for that lets the empty word pass
only. The test for no a as a substring lets every word pass. -/
theorem containingSubsequence_zero_rejects :
    containingSubsequence .abcd 'a' 0 = .ok (.epsilon .abcd)
      ∧ Alphabet.abcd.symbol 'a' = .ok ⟨0⟩ ∧ Word.Over .abcd [⟨0⟩]
      ∧ List.replicate 0 ⟨0⟩ <+ ([⟨0⟩] : Word)
      ∧ (Automaton.epsilon .abcd).accepts [⟨0⟩] = false
      ∧ containingSubstring .abcd 'a' 0 = .ok (.sigmaStar .abcd) :=
  ⟨by cbv, by decide, Word.over_cons_iff.2 ⟨rfl, Word.over_nil _⟩, List.nil_sublist _, by cbv,
    by cbv⟩

end FiniteState
