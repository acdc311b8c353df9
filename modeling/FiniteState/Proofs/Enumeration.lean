import FiniteState.Automaton.Enumerate
import FiniteState.Proofs.Construct
import FiniteState.Proofs.Trim
import Mathlib.Data.List.Shortlex

/-!
# Enumeration in order

The frontier of a length holds every word of that length that some accepting path begins with, once
each and in order, together with the live states that the word leads to. This is what the next
frontier needs: a state on the way to an accepting one has only such states before it, so that
nothing is lost by keeping live states only. The words listed are then in order within a length by
the order of the frontier, and across lengths because frontiers come by length.

* `Exact.nextFrontier`: the invariant of the frontier.
* `wordsFrom_some`: a bounded enumeration is the beginning of the whole one.
* `wordsOn_complete_sorted`: the words listed, and their order.
-/

namespace FiniteState

/-! ## The order of words -/

/-- The order of symbols by code. -/
def Symbol.Before (s t : Symbol) : Prop := s.code < t.code

/-- Shorter words come before longer ones, and words of one length are in the order of their
symbols. -/
def Word.Shortlex : Word → Word → Prop := List.Shortlex Symbol.Before

theorem Word.not_shortlex_self (w : Word) : ¬ Word.Shortlex w w := by
  have : Std.Asymm Symbol.Before := ⟨fun _ _ h h' => Nat.lt_asymm h h'⟩
  exact fun h => Std.Asymm.asymm (r := List.Shortlex Symbol.Before) _ _ h h

/-- What follows words of one length does not change their order. -/
theorem lex_append_of_length_eq {u v : Word} (h : List.Lex Symbol.Before u v)
    (hlength : u.length = v.length) (x y : Word) :
    List.Lex Symbol.Before (u ++ x) (v ++ y) := by
  induction h with
  | nil => cases hlength
  | cons _ ih => exact .cons (ih (Nat.succ.inj hlength))
  | rel hst => exact .rel hst

/-- The letters of Σ and the markers are listed in their order. -/
theorem Alphabet.pairwise_sigmaWithMarkers (S : Alphabet) :
    S.sigmaWithMarkers.Pairwise Symbol.Before :=
  List.pairwise_map.2 List.pairwise_lt_range

namespace Automaton

variable {A : Automaton} {tape : Tape} {n extra : Nat} {F : Frontier} {w : Word}

/-! ## Frontiers -/

/-- Some path spells the word and leads to the state, from which an accepting one can be reached. -/
def LeadsTo (A : Automaton) (tape : Tape) (w : Word) (q : Nat) : Prop :=
  (∃ ts, A.Path A.start ts q ∧ spell tape ts = w) ∧ q ∈ A.coaccessible

/-- Some accepting path spells the word. -/
def Spells (A : Automaton) (tape : Tape) (w : Word) : Prop :=
  ∃ ts, A.AcceptingPath ts ∧ spell tape ts = w

/-- All symbols on the tape belong to Σ or are markers. -/
def OverMarked (A : Automaton) (tape : Tape) : Prop :=
  ∀ q, ∀ t ∈ A.transitions q, ∀ s, t.label tape = .symbol s →
    A.alphabet.contains s = true ∨ ∃ m, s = A.alphabet.marker m

theorem mem_coaccessible_of_isFinal {q : Nat} (hq : A.isFinal q = true) : q ∈ A.coaccessible :=
  mem_coaccessible_iff.2 ⟨[], q, .nil q, hq⟩

/-- What comes before a live state on a path is live. -/
theorem mem_coaccessible_of_path {p q : Nat} {ts : List Transition} (h : A.Path p ts q)
    (hq : q ∈ A.coaccessible) : p ∈ A.coaccessible := by
  obtain ⟨ls, f, htrace, hf⟩ := mem_coaccessible_iff.1 hq
  exact mem_coaccessible_iff.2 ⟨_, f, (trace_iff_path.2 ⟨ts, h, rfl⟩).append htrace, hf⟩

/-- The states that still lead to acceptance are kept. -/
theorem mem_liveStates_iff {live : Numbering Nat} {set : StateSet} {q : Nat} :
    q ∈ liveStates live set ↔ q ∈ set ∧ q ∈ live := by
  rw [liveStates, List.mem_filter, Numbering.mem_def]

/-- The live states at the beginning are those that the empty word leads to. -/
theorem mem_liveStates_initialSet_iff {q : Nat} :
    q ∈ liveStates A.coaccessible (A.initialSet tape) ↔ A.LeadsTo tape [] q := by
  have hpaths : q ∈ A.initialSet tape ↔ ∃ ts, A.Path A.start ts q ∧ spell tape ts = [] :=
    mem_foldl_step_iff (w := [])
  rw [mem_liveStates_iff, hpaths, LeadsTo]

/-- The last symbol of a word is spelled by a transition from a state that the rest leads to. -/
theorem LeadsTo.exists_of_concat {s : Symbol} {q : Nat} (h : A.LeadsTo tape (w ++ [s]) q) :
    ∃ p, A.LeadsTo tape w p ∧ ∃ t ∈ A.transitions p, t.label tape = .symbol s
      ∧ ∃ ts, A.Path t.target ts q ∧ spell tape ts = [] := by
  obtain ⟨⟨ts, hts, hspell⟩, hlive⟩ := h
  obtain ⟨us, t, vs, rfl, hus, hlabel, hvs⟩ := exists_of_spell_eq_concat hspell
  obtain ⟨p, hbefore, hafter⟩ := path_append_iff.1 hts
  obtain ⟨ht, hrest⟩ := path_cons_iff.1 hafter
  exact ⟨p, ⟨⟨us, hbefore, hus⟩, mem_coaccessible_of_path hafter hlive⟩, t, ht, hlabel, vs, hrest,
    hvs⟩

/-- A set that holds the live states of a word leads to the live states of the next longer words. -/
theorem mem_liveStates_step_iff {set : StateSet} (hset : ∀ q, q ∈ set ↔ A.LeadsTo tape w q)
    {s : Symbol} {q : Nat} :
    q ∈ liveStates A.coaccessible (A.step tape set s) ↔ A.LeadsTo tape (w ++ [s]) q := by
  rw [mem_liveStates_iff, mem_step_iff]
  constructor
  · rintro ⟨⟨p, hp, t, ht, hlabel, ts, hts, hspell⟩, hlive⟩
    obtain ⟨⟨us, hus, rfl⟩, -⟩ := (hset p).1 hp
    refine ⟨⟨us ++ t :: ts, hus.append (.cons ht hts), ?_⟩, hlive⟩
    rw [spell_append, spell_cons, hlabel, hspell, List.append_nil]
    rfl
  · intro h
    obtain ⟨p, hp, t, ht, hlabel, ts, hts, hspell⟩ := h.exists_of_concat
    exact ⟨⟨p, (hset p).2 hp, t, ht, hlabel, ts, hts, hspell⟩, h.2⟩

/-- The frontier holds the words of length `n` that can be completed, each with the live states that
it leads to, in order. -/
structure Exact (A : Automaton) (tape : Tape) (n : Nat) (F : Frontier) : Prop where
  length_eq : ∀ p ∈ F, p.1.length = n
  mem_set_iff : ∀ p ∈ F, ∀ q, q ∈ p.2 ↔ A.LeadsTo tape p.1 q
  complete : ∀ w q, w.length = n → A.LeadsTo tape w q → ∃ set, (w, set) ∈ F
  sorted : F.Pairwise fun p p' => List.Lex Symbol.Before p.1 p'.1

/-- The first frontier is exact: the empty word stands in it if there is any word. -/
theorem exact_firstFrontier (A : Automaton) (tape : Tape) :
    A.Exact tape 0 (A.firstFrontier tape A.coaccessible) := by
  unfold firstFrontier
  -- without a live state there is nothing to begin with, else the empty word is the only prefix
  by_cases hempty : (liveStates A.coaccessible (A.initialSet tape)).isEmpty = true
  · rw [if_pos hempty]
    refine ⟨nofun, nofun, fun w q hw hq => ?_, .nil⟩
    obtain rfl := List.length_eq_zero_iff.1 hw
    have hmem := mem_liveStates_initialSet_iff.2 hq
    rw [List.isEmpty_iff.1 hempty] at hmem
    exact absurd hmem List.not_mem_nil
  · rw [if_neg hempty]
    refine ⟨?_, ?_, fun w q hw _ => ?_, List.pairwise_singleton _ _⟩
    · intro p hp
      rw [List.mem_singleton.1 hp]
      rfl
    · intro p hp q
      rw [List.mem_singleton.1 hp]
      exact mem_liveStates_initialSet_iff
    · obtain rfl := List.length_eq_zero_iff.1 hw
      exact ⟨_, List.mem_singleton.2 rfl⟩

/-- The entry of a word that is longer by one symbol, if the word can be completed. -/
def extension (A : Automaton) (tape : Tape) (p : Word × StateSet) (s : Symbol) :
    Option (Word × StateSet) :=
  let next := liveStates A.coaccessible (A.step tape p.2 s)
  if next.isEmpty then none else some (p.1 ++ [s], next)

/-- A word is extended by a letter if this leads to some live state. -/
theorem extension_eq_some_iff {p p' : Word × StateSet} {s : Symbol} :
    A.extension tape p s = some p'
      ↔ p' = (p.1 ++ [s], liveStates A.coaccessible (A.step tape p.2 s)) ∧ p'.2 ≠ [] := by
  show (if (liveStates A.coaccessible (A.step tape p.2 s)).isEmpty then none
    else some (p.1 ++ [s], liveStates A.coaccessible (A.step tape p.2 s))) = some p' ↔ _
  by_cases hempty : (liveStates A.coaccessible (A.step tape p.2 s)).isEmpty = true
  · rw [if_pos hempty]
    refine ⟨nofun, ?_⟩
    rintro ⟨rfl, hne⟩
    exact absurd (List.isEmpty_iff.1 hempty) hne
  · rw [if_neg hempty, Option.some.injEq]
    constructor
    · rintro rfl
      exact ⟨rfl, fun h => hempty (List.isEmpty_iff.2 h)⟩
    · rintro ⟨rfl, -⟩
      rfl

/-- The next frontier extends each word of the last one by each symbol, in order. -/
theorem nextFrontier_eq (A : Automaton) (tape : Tape) (F : Frontier) :
    A.nextFrontier tape A.coaccessible F
      = F.flatMap fun p => A.alphabet.sigmaWithMarkers.filterMap (A.extension tape p) := rfl

/-- The frontier of the next length. -/
theorem Exact.nextFrontier (h : A.Exact tape n F) (hA : A.OverMarked tape) :
    A.Exact tape (n + 1) (A.nextFrontier tape A.coaccessible F) := by
  rw [nextFrontier_eq]
  have hmem : ∀ {p'}, p' ∈ F.flatMap (fun p =>
      A.alphabet.sigmaWithMarkers.filterMap (A.extension tape p)) →
      ∃ p ∈ F, ∃ s, A.extension tape p s = some p' := by
    intro p' hp'
    obtain ⟨p, hp, hp'⟩ := List.mem_flatMap.1 hp'
    obtain ⟨s, -, hs⟩ := List.mem_filterMap.1 hp'
    exact ⟨p, hp, s, hs⟩
  refine ⟨?length_eq, ?mem_set_iff, ?complete, ?sorted⟩
  case length_eq =>
    intro p' hp'
    obtain ⟨p, hp, s, hs⟩ := hmem hp'
    obtain ⟨rfl, -⟩ := extension_eq_some_iff.1 hs
    rw [List.length_append, h.length_eq p hp, List.length_singleton]
  case mem_set_iff =>
    intro p' hp' q
    obtain ⟨p, hp, s, hs⟩ := hmem hp'
    obtain ⟨rfl, -⟩ := extension_eq_some_iff.1 hs
    exact mem_liveStates_step_iff (h.mem_set_iff p hp)
  case complete =>
    intro w q hw hq
    -- a live prefix is one symbol longer than a prefix that is live as well
    obtain ⟨v, s, rfl⟩ : ∃ v s, w = v ++ [s] :=
      ⟨_, _, (List.dropLast_append_getLast (List.ne_nil_of_length_eq_add_one hw)).symm⟩
    rw [List.length_append, List.length_singleton] at hw
    obtain ⟨p, hp, t, ht, hlabel, -⟩ := hq.exists_of_concat
    obtain ⟨set, hset⟩ := h.complete v p (Nat.succ.inj hw) hp
    have hnext := (mem_liveStates_step_iff (h.mem_set_iff _ hset)).2 hq
    refine ⟨liveStates A.coaccessible (A.step tape set s), List.mem_flatMap.2 ⟨(v, set), hset,
      List.mem_filterMap.2 ⟨s, ?_, ?_⟩⟩⟩
    · exact Alphabet.mem_sigmaWithMarkers_iff.2 (hA p t ht s hlabel)
    · exact extension_eq_some_iff.2 ⟨rfl, List.ne_nil_of_mem hnext⟩
  case sorted =>
    refine List.pairwise_flatMap.2 ⟨fun p hp => ?_, ?_⟩
    · -- words that extend one word differ in their last symbol
      refine List.pairwise_filterMap.2 ?_
      refine A.alphabet.pairwise_sigmaWithMarkers.imp fun hbefore p' hs p'' hs' => ?_
      obtain ⟨rfl, -⟩ := extension_eq_some_iff.1 hs
      obtain ⟨rfl, -⟩ := extension_eq_some_iff.1 hs'
      exact List.Lex.append_left _ (.rel hbefore) p.1
    · -- words that extend different words are in the order of these
      refine h.sorted.imp_of_mem fun {p₁ p₂} hp₁ hp₂ hlex p₁' hp₁' p₂' hp₂' => ?_
      obtain ⟨s₁, -, hs₁⟩ := List.mem_filterMap.1 hp₁'
      obtain ⟨s₂, -, hs₂⟩ := List.mem_filterMap.1 hp₂'
      obtain ⟨rfl, -⟩ := extension_eq_some_iff.1 hs₁
      obtain ⟨rfl, -⟩ := extension_eq_some_iff.1 hs₂
      exact lex_append_of_length_eq hlex ((h.length_eq _ hp₁).trans (h.length_eq _ hp₂).symm) _ _

/-! ## Complete words -/

/-- The words listed from a frontier are those whose states include an accepting one. -/
theorem mem_completeWords_iff :
    w ∈ A.completeWords F ↔ ∃ set, (w, set) ∈ F ∧ A.anyFinal set = true := by
  unfold completeWords
  rw [List.mem_map]
  constructor
  · rintro ⟨⟨v, set⟩, hmem, rfl⟩
    exact ⟨set, List.mem_filter.1 hmem⟩
  · rintro ⟨set, hmem⟩
    exact ⟨(w, set), List.mem_filter.2 hmem, rfl⟩

/-- An exact frontier lists the spelled words of its length. -/
theorem Exact.mem_completeWords_iff (h : A.Exact tape n F) :
    w ∈ A.completeWords F ↔ w.length = n ∧ A.Spells tape w := by
  rw [Automaton.mem_completeWords_iff]
  constructor
  · rintro ⟨set, hmem, hfinal⟩
    obtain ⟨q, hq, hfinal⟩ := anyFinal_iff.1 hfinal
    obtain ⟨⟨ts, hts, hspell⟩, -⟩ := (h.mem_set_iff _ hmem q).1 hq
    exact ⟨h.length_eq _ hmem, ts, ⟨q, hts, hfinal⟩, hspell⟩
  · rintro ⟨hw, ts, ⟨q, hts, hfinal⟩, hspell⟩
    have hq : A.LeadsTo tape w q := ⟨⟨ts, hts, hspell⟩, mem_coaccessible_of_isFinal hfinal⟩
    obtain ⟨set, hset⟩ := h.complete w q hw hq
    exact ⟨set, hset, anyFinal_iff.2 ⟨q, (h.mem_set_iff _ hset q).2 hq, hfinal⟩⟩

theorem Exact.pairwise_completeWords (h : A.Exact tape n F) :
    (A.completeWords F).Pairwise Word.Shortlex := by
  refine List.pairwise_map.2 (List.Pairwise.filter _ ?_)
  refine h.sorted.imp_of_mem fun hp hp' hlex => ?_
  exact .of_lex ((h.length_eq _ hp).trans (h.length_eq _ hp').symm) hlex

/-! ## All frontiers

The words that are listed from a frontier are its own complete words and then those listed from the
next frontier, which are longer. -/

/-- Once a frontier is empty no more words come. -/
theorem wordsFrom_nil (A : Automaton) (tape : Tape) (live : Numbering Nat) (extra : Nat)
    (count : Option Nat) : A.wordsFrom tape live extra count [] = [] := by
  have hnone : takeAtMost count (A.completeWords []) = [] := by
    cases count with
    | none => rfl
    | some k => exact List.take_nil
  cases extra with
  | zero => exact hnone
  | succ extra =>
    unfold wordsFrom
    simp only [List.isEmpty_nil, Bool.true_or, if_true]
    exact hnone

/-- The words of a frontier come before those of the next one. -/
theorem wordsFrom_succ (A : Automaton) (tape : Tape) (live : Numbering Nat) (extra : Nat)
    (F : Frontier) :
    A.wordsFrom tape live (extra + 1) none F
      = A.completeWords F ++ A.wordsFrom tape live extra none (A.nextFrontier tape live F) := by
  cases F with
  | nil =>
    rw [wordsFrom_nil]
    show [] = [] ++ A.wordsFrom tape live extra none []
    rw [wordsFrom_nil, List.nil_append]
  | cons p F => rfl

/-- Asking for some of the words gives the first ones of all words. -/
theorem wordsFrom_some (A : Automaton) (tape : Tape) (live : Numbering Nat) (extra k : Nat)
    (F : Frontier) :
    A.wordsFrom tape live extra (some k) F = (A.wordsFrom tape live extra none F).take k := by
  -- by induction on the lengths that are left; the frontier is the same on both sides
  induction extra generalizing k F with
  | zero => rfl
  | succ extra ih =>
    have hleft : k - ((A.completeWords F).take k).length = k - (A.completeWords F).length := by
      rw [List.length_take]
      omega
    have hunfold : A.wordsFrom tape live (extra + 1) (some k) F
        = if F.isEmpty || some (k - ((A.completeWords F).take k).length) == some 0
          then (A.completeWords F).take k
          else (A.completeWords F).take k ++ A.wordsFrom tape live extra
            (some (k - ((A.completeWords F).take k).length)) (A.nextFrontier tape live F) := rfl
    rw [wordsFrom_succ, List.take_append, hunfold, hleft, ih]
    split
    case isTrue hstop =>
      -- either no word can be completed any more, or enough words are found
      rw [Bool.or_eq_true, List.isEmpty_iff, beq_iff_eq, Option.some.injEq] at hstop
      rcases hstop with rfl | hk
      · show _ = _ ++ (A.wordsFrom tape live extra none []).take _
        rw [wordsFrom_nil, List.take_nil, List.append_nil]
      · rw [hk, List.take_zero, List.append_nil]
    case isFalse => rfl

/-- From an exact frontier on, every spelled word of the lengths in question is listed, and no
other. -/
theorem Exact.mem_wordsFrom_iff (h : A.Exact tape n F) (hA : A.OverMarked tape) :
    w ∈ A.wordsFrom tape A.coaccessible extra none F
      ↔ n ≤ w.length ∧ w.length ≤ n + extra ∧ A.Spells tape w := by
  induction extra generalizing n F with
  | zero =>
    show w ∈ A.completeWords F ↔ _
    rw [h.mem_completeWords_iff, Nat.add_zero, ← and_assoc, ← Nat.le_antisymm_iff, eq_comm]
  | succ extra ih =>
    rw [wordsFrom_succ, List.mem_append, h.mem_completeWords_iff, ih (h.nextFrontier hA)]
    constructor
    · rintro (⟨rfl, hw⟩ | ⟨hleast, hmost, hw⟩)
      · exact ⟨Nat.le_refl _, Nat.le_add_right _ _, hw⟩
      · exact ⟨by omega, by omega, hw⟩
    · rintro ⟨hleast, hmost, hw⟩
      rcases Nat.eq_or_lt_of_le hleast with heq | hlt
      · exact .inl ⟨heq.symm, hw⟩
      · exact .inr ⟨hlt, by omega, hw⟩

/-- The words of all frontiers are listed in order, since later frontiers have longer words. -/
theorem Exact.pairwise_wordsFrom (h : A.Exact tape n F) (hA : A.OverMarked tape) :
    (A.wordsFrom tape A.coaccessible extra none F).Pairwise Word.Shortlex := by
  induction extra generalizing n F with
  | zero => exact h.pairwise_completeWords
  | succ extra ih =>
    have hnext := h.nextFrontier hA
    rw [wordsFrom_succ]
    refine List.pairwise_append.2 ⟨h.pairwise_completeWords, ih hnext, fun u hu v hv => ?_⟩
    have hlong := ((hnext.mem_wordsFrom_iff hA).1 hv).1
    have hshort := (h.mem_completeWords_iff.1 hu).1
    exact .of_length_lt (by omega)

/-! ## The words of an automaton -/

/-- The accepting paths of a projection are those of the automaton, projected. -/
theorem acceptingPath_project_iff {ts : List Transition} :
    (A.project tape).AcceptingPath ts
      ↔ ∃ us, A.AcceptingPath us ∧ us.map (Arc.project · tape) = ts := by
  constructor
  · rintro ⟨q, hpath, hq⟩
    obtain ⟨us, hus, hmap⟩ := path_project_iff.1 hpath
    exact ⟨us, ⟨q, hus, (isFinal_project A tape q).symm.trans hq⟩, hmap⟩
  · rintro ⟨us, ⟨q, hus, hq⟩, hmap⟩
    exact ⟨q, path_project_iff.2 ⟨us, hus, hmap⟩, (isFinal_project A tape q).trans hq⟩

/-- The projection on a tape accepts what accepting paths spell on the tape. -/
theorem accepts_project_iff : (A.project tape).accepts w = true ↔ A.Spells tape w := by
  rw [accepts_iff_exists_relates]
  constructor
  · rintro ⟨_, ts, hts, hread, -⟩
    obtain ⟨us, hus, rfl⟩ := acceptingPath_project_iff.1 hts
    exact ⟨us, hus, (spell_map_project tape .input us).symm.trans hread⟩
  · rintro ⟨us, hus, rfl⟩
    exact ⟨_, _, acceptingPath_project_iff.2 ⟨us, hus, rfl⟩, spell_map_project tape .input us, rfl⟩

/-- If the symbols on a tape belong to Σ or are markers, the words listed are those of length at
most `longest` on the tape of an accepting path, which are the words of the projection, each once
and in order; a bound on their number keeps the first ones. -/
theorem wordsOn_complete_sorted (A : Automaton) (tape : Tape) (longest : Nat)
    (hA : A.OverMarked tape) :
    (A.wordsOn tape longest none).Pairwise Word.Shortlex ∧ (A.wordsOn tape longest none).Nodup
      ∧ (∀ w, w ∈ A.wordsOn tape longest none
        ↔ w.length ≤ longest ∧ ∃ ts, A.AcceptingPath ts ∧ spell tape ts = w)
      ∧ (∀ w, w ∈ A.wordsOn tape longest none
        ↔ w.length ≤ longest ∧ (A.project tape).accepts w = true)
      ∧ ∀ count, A.wordsOn tape longest (some count)
        = (A.wordsOn tape longest none).take count := by
  have hfirst := A.exact_firstFrontier tape
  have hsorted : (A.wordsOn tape longest none).Pairwise Word.Shortlex :=
    hfirst.pairwise_wordsFrom hA
  have hmem (w : Word) :
      w ∈ A.wordsOn tape longest none ↔ w.length ≤ longest ∧ A.Spells tape w := by
    refine (hfirst.mem_wordsFrom_iff hA).trans ?_
    rw [Nat.zero_add]
    exact and_iff_right (Nat.zero_le _)
  refine ⟨hsorted, hsorted.imp ?_, hmem, fun w => ?_, fun count => ?_⟩
  · rintro u _ hbefore rfl
    exact Word.not_shortlex_self u hbefore
  · rw [accepts_project_iff]
    exact hmem w
  · exact wordsFrom_some A tape _ longest count _

/-- Maps the words of a and b that begin with a, end with a and have no two letters alike in a row
to a word of b for each a, with or without a last mark of insertion. From the start, a leads to two
states, and d to one from which nothing is accepted. -/
def marking : Automaton where
  alphabet := .abcd
  states := #[
    { transitions := [⟨.symbol ⟨0⟩, .symbol ⟨1⟩, 1⟩, ⟨.symbol ⟨0⟩, .symbol ⟨1⟩, 2⟩,
        ⟨.symbol ⟨3⟩, .symbol ⟨0⟩, 3⟩] },
    { accepting := true, transitions := [⟨.symbol ⟨1⟩, .epsilon, 0⟩] },
    { transitions := [⟨.epsilon, .symbol ⟨4⟩, 1⟩] },
    {}]
  start := 0
  start_lt := by decide
  target_lt := by decide

/-- The words of at most two symbols that `marking` writes; the longer ones are cut off. -/
theorem wordsOn_marking :
    marking.OverMarked .output
      ∧ marking.wordsOn .output 2 none = [[⟨1⟩], [⟨1⟩, ⟨1⟩], [⟨1⟩, ⟨4⟩]]
      ∧ (marking.wordsOn .output 2 none).Pairwise Word.Shortlex
      ∧ (∃ ts, marking.AcceptingPath ts ∧ spell .output ts = [⟨1⟩, ⟨4⟩])
      ∧ (marking.project .output).accepts [⟨0⟩] ≠ true
      ∧ marking.wordsOn .output 2 (some 2) = [[⟨1⟩], [⟨1⟩, ⟨1⟩]] := by
  have hover : marking.OverMarked .output := by
    have hall : ∀ st ∈ marking.states, ∀ t ∈ st.transitions,
        t.output = .epsilon ∨ ∃ s ∈ Alphabet.abcd.sigmaWithMarkers, t.output = .symbol s := by
      decide +kernel
    intro q t ht s hs
    rcases hall _ (mem_states_of_mem_transitions ht) t ht with hsilent | ⟨s', hs', hlabel⟩
    · cases hsilent.symm.trans hs
    · cases hlabel.symm.trans hs
      exact Alphabet.mem_sigmaWithMarkers_iff.1 hs'
  have hwords : marking.wordsOn .output 2 none = [[⟨1⟩], [⟨1⟩, ⟨1⟩], [⟨1⟩, ⟨4⟩]] := by cbv
  obtain ⟨hsorted, -, hpaths, haccepts, htake⟩ := wordsOn_complete_sorted marking .output 2 hover
  refine ⟨hover, hwords, hsorted, ((hpaths [⟨1⟩, ⟨4⟩]).1 ?_).2, fun h => ?_, ?_⟩
  · rw [hwords]
    decide
  · have hlisted := (haccepts [⟨0⟩]).2 ⟨by decide, h⟩
    rw [hwords] at hlisted
    exact absurd hlisted (by decide)
  · rw [htake, hwords]
    rfl

end Automaton

end FiniteState
