import FiniteState.Proofs.Pairing
import FiniteState.Proofs.Slots

/-!
# Attempts at pairs

A split of pairs takes accepted words and looks for a rival of each. What is accounted for here is
the attempt: an accepted word, with or without a rival. An attempt is either a pair of the split or
the warning that there is no rival. The attempts for one length are as many as the accepted words
drawn for it, and what these lack is recorded as for any other draw.

* `Session.Attempts`: what a part of a split of pairs does.
* `Session.adversarial_spec`: the attempts of a split of pairs, and its shortfalls.
-/

namespace FiniteState

open LengthBuckets

/-- The warning says that fewer words were found than requested. -/
def Error.isShortfall : Error → Bool
  | insufficientSamples _ _ => true
  | _ => false

/-- The warning says that an accepted word of the length was skipped. -/
def Error.isSkip (length : Nat) : Error → Bool
  | emptyAdversarialCandidate positive => positive.length == length
  | _ => false

/-- A draw that falls short warns of nothing else. -/
theorem isShortfall_of_shortfall? {n found : Nat} {e : Error}
    (h : Sampler.shortfall? n found = some e) : e.isShortfall = true := by
  unfold Sampler.shortfall? at h
  split at h
  · rw [← Option.some.inj h]
    rfl
  · cases h

/-- Warnings that are all shortfalls are kept as they are by one filter and dropped by the
other. -/
theorem filter_of_isShortfall {ws : List Error} (h : ∀ e ∈ ws, e.isShortfall = true) :
    ws.filter (·.isShortfall) = ws ∧ ws.filter (!·.isShortfall) = [] := by
  refine ⟨List.filter_eq_self.2 h, List.filter_eq_nil_iff.2 fun e he => ?_⟩
  rw [h e he]
  exact Bool.false_ne_true

/-- No shortfall is a skipped word. -/
theorem countP_isSkip_filter (ws : List Error) (length : Nat) :
    (ws.filter (!·.isShortfall)).countP (Error.isSkip length)
      = ws.countP (Error.isSkip length) := by
  rw [List.countP_filter]
  congr 1
  funext e
  cases e <;> simp [Error.isSkip, Error.isShortfall]

/-! ## Attempts -/

/-- An accepted word, and the rejected word that it is paired with, if there is any. -/
abbrev Attempt := String × Option String

namespace Attempt

/-- The examples of an attempt. -/
def examples : Attempt → List Example
  | (positive, some negative) => [⟨positive, .accept⟩, ⟨negative, .reject⟩]
  | (_, none) => []

/-- The warning of an attempt. -/
def warning? : Attempt → Option Error
  | (_, some _) => none
  | (positive, none) => some (.emptyAdversarialCandidate positive)

/-- An attempt adds one accepted word of its length, if it found a partner. -/
theorem countP_examples (a : Attempt) (length : Nat) :
    a.examples.countP (·.slot == (length, .accept))
      = if a.2.isSome && a.1.length == length then 1 else 0 := by
  obtain ⟨positive, negative⟩ := a
  cases negative with
  | none => rfl
  | some negative =>
    have hreject : ((Example.mk negative .reject).slot == (length, .accept)) = false :=
      beq_false_of_ne fun h => by cases (Prod.mk.inj h).2
    have haccept : ((Example.mk positive .accept).slot == (length, .accept))
        = (positive.length == length) := Bool.and_true _
    simp [examples, List.countP_cons, hreject, haccept]

/-- An attempt adds one skip at its length, if it found none. -/
theorem countP_warning? (a : Attempt) (length : Nat) :
    a.warning?.toList.countP (Error.isSkip length)
      = if a.2.isNone && a.1.length == length then 1 else 0 := by
  obtain ⟨positive, negative⟩ := a
  cases negative with
  | none => simp [warning?, Error.isSkip, List.countP_cons]
  | some negative => rfl

/-- An attempt is a pair or a warning. -/
theorem countP_add_countP (as : List Attempt) (length : Nat) :
    (as.flatMap examples).countP (·.slot == (length, .accept))
        + (as.filterMap warning?).countP (Error.isSkip length)
      = as.countP (·.1.length == length) := by
  rw [List.filterMap_eq_flatMap_toList]
  induction as with
  | nil => rfl
  | cons a as ih =>
    have hsum : a.examples.countP (·.slot == (length, .accept))
        + a.warning?.toList.countP (Error.isSkip length)
        = if a.1.length == length then 1 else 0 := by
      rw [countP_examples, countP_warning?]
      cases a.2 <;> simp
    rw [List.flatMap_cons, List.countP_append, List.flatMap_cons, List.countP_append,
      List.countP_cons, ← hsum]
    omega

/-- The examples of attempts come in pairs, an accepted word before a rejected one. -/
theorem exists_pairs (as : List Attempt) : ∃ ps : List (String × String),
    as.flatMap examples = ps.flatMap fun p => [⟨p.1, .accept⟩, ⟨p.2, .reject⟩] := by
  induction as with
  | nil => exact ⟨[], rfl⟩
  | cons a as ih =>
    obtain ⟨ps, hps⟩ := ih
    obtain ⟨positive, negative⟩ := a
    cases negative with
    | none => exact ⟨ps, hps⟩
    | some negative => exact ⟨(positive, negative) :: ps, by rw [List.flatMap_cons, hps]; rfl⟩

/-- The one warning of an attempt is that there is no candidate at its length. -/
theorem eq_of_warning? {a : Attempt} {e : Error} (h : a.warning? = some e) :
    e = .emptyAdversarialCandidate a.1 := by
  obtain ⟨positive, negative⟩ := a
  cases negative with
  | none => exact (Option.some.inj h).symm
  | some negative => cases h

end Attempt

namespace Session

variable {ρ : Type} {s t u : Session ρ} {target : Automaton} {least most : Nat}
variable {pairs pairs' pairs'' : Pairs} {as bs : List Attempt} {ws vs : List Error}

/-- Between the sessions some attempts are made, and some shortfalls are recorded. -/
structure Attempts (s t : Session ρ) (pairs pairs' : Pairs) (as : List Attempt)
    (shortfalls : List Error) : Prop extends Later s t where
  examples : pairs'.examples = pairs.examples ++ as.flatMap Attempt.examples
  skips : t.generator.warnings.filter (!·.isShortfall)
    = s.generator.warnings.filter (!·.isShortfall) ++ as.filterMap Attempt.warning?
  shortfalls : t.generator.warnings.filter (·.isShortfall)
    = s.generator.warnings.filter (·.isShortfall) ++ shortfalls

theorem Attempts.refl (s : Session ρ) (pairs : Pairs) : Attempts s s pairs pairs [] [] where
  toLater := .refl s
  examples := (List.append_nil _).symm
  skips := (List.append_nil _).symm
  shortfalls := (List.append_nil _).symm

/-- Attempts one after the other are attempts, with examples and warnings in the order they
came. -/
theorem Attempts.trans (h : Attempts s t pairs pairs' as ws)
    (h' : Attempts t u pairs' pairs'' bs vs) :
    Attempts s u pairs pairs'' (as ++ bs) (ws ++ vs) where
  toLater := h.toLater.trans h'.toLater
  examples := by rw [h'.examples, h.examples, List.flatMap_append, List.append_assoc]
  skips := by rw [h'.skips, h.skips, List.filterMap_append, List.append_assoc]
  shortfalls := by rw [h'.shortfalls, h.shortfalls, List.append_assoc]

/-- Removing used words from a slot leaves the generator alone. -/
theorem generator_of_removeUsed {used : List Word} {length : Nat} {x : Unit}
    (h : removeUsed used length s = (.ok x, t)) : t.generator = s.generator := by
  rcases removeUsed_cases h with ⟨rfl, -⟩ | ⟨_, _, -, -, hgenerator, -⟩
  · rfl
  · exact hgenerator

/-- Removing used words from many slots leaves the generator alone. -/
theorem generator_of_forM_removeUsed {used : List Word} {lengths : List Nat} {x : Unit}
    (h : lengths.forM (removeUsed used) s = (.ok x, t)) : t.generator = s.generator :=
  forM_induction (P := fun _ u => u.generator = s.generator)
    (fun _ _ _ _ hu hstep => (generator_of_removeUsed hstep).trans hu) rfl h

variable [RandomSource ρ]

/-- A word makes one attempt: a rival is drawn, and is in use from then on. -/
theorem pairUp_attempt {length : Nat} {positive : Word}
    (h : pairUp length pairs positive s = (.ok pairs', t)) :
    ∃ C found sampler, freshRivals s.generator s.buckets pairs.used length positive = .ok C
      ∧ Sampler.pick C s.generator.sampler = (found, sampler)
      ∧ t.buckets = s.buckets ∧ (∀ w, w ∈ pairs'.used ↔ w ∈ pairs.used ∨ found = some w)
      ∧ Attempts s t pairs pairs'
          [(s.generator.alphabet.render positive, found.map s.generator.alphabet.render)] [] := by
  obtain ⟨C, found, sampler, hC, hpick, ⟨rfl, rfl, rfl⟩ | ⟨negative, rfl, rfl, rfl⟩⟩ :=
    pairUp_cases h
  · exact ⟨C, none, sampler, hC, hpick, rfl, fun w => by simp,
      { toLater := ⟨rfl, .refl _⟩
        examples := (List.append_nil _).symm
        skips := List.filter_append ..
        shortfalls := List.filter_append .. }⟩
  · refine ⟨C, some negative, sampler, hC, hpick, rfl, fun w => ?_,
      { toLater := ⟨rfl, .refl _⟩
        examples := rfl
        skips := (List.append_nil _).symm
        shortfalls := (List.append_nil _).symm }⟩
    rw [Word.mem_sortDistinct, List.mem_cons, or_comm, Option.some.injEq, eq_comm]

/-- Each of some words makes an attempt. -/
theorem attempts_of_foldlM_pairUp {length : Nat} {words : List Word}
    (h : words.foldlM (pairUp length) pairs s = (.ok pairs', t)) :
    ∃ as, as.map Prod.fst = words.map s.generator.alphabet.render
      ∧ Attempts s t pairs pairs' as [] := by
  induction words generalizing s pairs with
  | nil =>
    rw [List.foldlM_nil] at h
    obtain ⟨rfl, rfl⟩ := ExceptT.pure_eq_ok.1 h
    exact ⟨[], rfl, .refl s pairs⟩
  | cons w words ih =>
    rw [List.foldlM_cons] at h
    obtain ⟨pairs₁, u, hfirst, hrest⟩ := ExceptT.bind_eq_ok.1 h
    obtain ⟨_, found, _, -, -, -, -, hattempt⟩ := pairUp_attempt hfirst
    obtain ⟨as, has, hattempts⟩ := ih hrest
    refine ⟨_ :: as, ?_, hattempt.trans hattempts⟩
    rw [List.map_cons, has, hattempt.alphabet, List.map_cons]

/-- Drawing distinct words records their shortfall. -/
theorem attempts_of_sampleDistinct {n retries : Nat} {A : Automaton} {sample : Sample}
    {sampler sampler' : Sampler ρ}
    (hdrawn : Sampler.sampleDistinct A n retries sampler = (.ok sample, sampler'))
    (hwarnings : t.generator.warnings = s.generator.warnings ++ sample.shortfall.toList)
    (hlater : Later s t) :
    Attempts s t pairs pairs [] (Sampler.shortfall? n sample.words.length).toList := by
  rw [(length_sampleDistinct hdrawn).2] at hwarnings
  obtain ⟨hall, hnone⟩ := filter_of_isShortfall fun e he =>
    isShortfall_of_shortfall? (Option.mem_toList.1 he)
  exact
    { toLater := hlater
      examples := (List.append_nil _).symm
      skips := by rw [hwarnings, List.filter_append, hnone]; rfl
      shortfalls := by rw [hwarnings, List.filter_append, hall] }

/-- The attempts for one length are for accepted words of that length, and as many as were drawn. -/
theorem attempts_of_pairsAt {n length : Nat} (hlegal : s.buckets.Legal target least most)
    (hsymbols : s.generator.alphabet.symbols = target.alphabet.symbols)
    (h : pairsAt n pairs length s = (.ok pairs', t)) :
    ∃ as : List Attempt,
      (∀ a ∈ as, a.1.length = length ∧ (LengthRange.mk least most).Has length) ∧ as.length ≤ n
      ∧ Attempts s t pairs pairs' as
          ((LengthRange.mk least most).shortfallAt n length as.length) := by
  have hhas : (s.buckets.get? length .accept).isSome = true
      ↔ (LengthRange.mk least most).Has length := hlegal.isSome_iff length .accept
  rcases pairsAt_cases h with
    ⟨hA, rfl, rfl⟩ | ⟨A, sample, sampler, u, hA, hdrawn, hset, hgenerator, hfold⟩
  · -- no automaton for the length: nothing is drawn, and nothing is missing
    rw [hA] at hhas
    refine ⟨[], fun a ha => absurd ha List.not_mem_nil, Nat.zero_le n, ?_⟩
    rw [LengthRange.shortfallAt_of_not_has fun h => by cases hhas.2 h]
    exact .refl _ _
  · rw [hA] at hhas
    have htakes : Takes true true s u (sample.words.map fun w => (Verdict.accept, w)) :=
      takes_of_sampleDistinct hlegal hA hdrawn (by rw [hgenerator]) hset
    -- the shortfall of the draw comes first, then an attempt for each word drawn
    have hdraw : Attempts s u pairs pairs [] (Sampler.shortfall? n sample.words.length).toList :=
      attempts_of_sampleDistinct hdrawn (by rw [hgenerator]) htakes.toLater
    obtain ⟨as, has, hattempts⟩ := attempts_of_foldlM_pairUp hfold
    have hlength : as.length = sample.words.length := by
      simpa using congrArg List.length has
    refine ⟨as, fun a ha => ?_, ?_, ?_⟩
    · have ha : a.1 ∈ sample.words.map u.generator.alphabet.render := has ▸ List.mem_map_of_mem ha
      obtain ⟨w, hw, hrender⟩ := List.mem_map.1 ha
      rw [hdraw.alphabet] at hrender
      have hrelates := (sampleDistinct_spec (hlegal.eq_of_relates hA) hdrawn).2.1 w hw
      have hslot := hlegal.slot_of_relates (k := (length, .accept)) hsymbols hA hrelates
      rw [← hrender]
      exact ⟨(Prod.mk.inj hslot).1, hhas.1 rfl⟩
    · rw [hlength]
      exact (length_sampleDistinct hdrawn).1
    · rw [LengthRange.shortfallAt_of_has (hhas.1 rfl), hlength]
      have hboth := hdraw.trans hattempts
      rwa [List.nil_append, List.append_nil] at hboth

/-- The attempts for several lengths come in parts by lengths. -/
theorem attempts_of_foldlM_pairsAt {n : Nat} {lengths : List Nat} (hlengths : lengths.Nodup)
    (hlegal : s.buckets.Legal target least most)
    (hsymbols : s.generator.alphabet.symbols = target.alphabet.symbols)
    (h : lengths.foldlM (pairsAt n) pairs s = (.ok pairs', t)) :
    ∃ as : Nat → List Attempt, (∀ length ∈ lengths, ∀ a ∈ as length,
          a.1.length = length ∧ (LengthRange.mk least most).Has length)
      ∧ (∀ length ∈ lengths, (as length).length ≤ n)
      ∧ Attempts s t pairs pairs' (lengths.flatMap as)
          (lengths.flatMap fun length =>
            (LengthRange.mk least most).shortfallAt n length (as length).length) := by
  -- by induction on the lengths, the buckets that are left still being legal for the next one
  induction lengths generalizing s pairs with
  | nil =>
    rw [List.foldlM_nil] at h
    obtain ⟨rfl, rfl⟩ := ExceptT.pure_eq_ok.1 h
    exact ⟨fun _ => [], fun _ hlength => absurd hlength List.not_mem_nil,
      fun _ hlength => absurd hlength List.not_mem_nil, .refl s pairs⟩
  | cons length lengths ih =>
    rw [List.foldlM_cons] at h
    obtain ⟨pairs₁, u, hfirst, hrest⟩ := ExceptT.bind_eq_ok.1 h
    obtain ⟨hlength, hlengths⟩ := List.nodup_cons.1 hlengths
    obtain ⟨bs, hbs, hmost, hattempts⟩ := attempts_of_pairsAt hlegal hsymbols hfirst
    obtain ⟨as, has, hmosts, hattempts'⟩ := ih hlengths (hlegal.shrinks hattempts.shrinks)
      (by rw [hattempts.alphabet, hsymbols]) hrest
    -- the attempts are indexed by lengths, and the first length is none of the later ones
    have hne : ∀ l ∈ lengths, l ≠ length := fun l hl heq => hlength (heq ▸ hl)
    refine ⟨fun l => if l = length then bs else as l, ?_, ?_, ?_⟩
    · intro l hl
      rcases List.mem_cons.1 hl with rfl | hl
      · simpa only [if_true] using hbs
      · simpa only [if_neg (hne l hl)] using has l hl
    · intro l hl
      rcases List.mem_cons.1 hl with rfl | hl
      · simpa only [if_true] using hmost
      · simpa only [if_neg (hne l hl)] using hmosts l hl
    · have hrest : lengths.flatMap (fun l => if l = length then bs else as l)
          = lengths.flatMap as := List.flatMap_congr fun l hl => if_neg (hne l hl)
      have hshort : (lengths.flatMap fun l => (LengthRange.mk least most).shortfallAt n l
            (if l = length then bs else as l).length)
          = lengths.flatMap fun l => (LengthRange.mk least most).shortfallAt n l (as l).length :=
        List.flatMap_congr fun l hl => by rw [if_neg (hne l hl)]
      rw [List.flatMap_cons, List.flatMap_cons, hrest, hshort]
      simpa only [if_true] using hattempts.trans hattempts'

/-- A split of pairs comes from attempts, at most as many as requested for each length. What the
attempts for a length lack is recorded as a shortfall. -/
theorem adversarial_spec {name : String} {n : Nat} {split : Split}
    (hlegal : s.buckets.Legal target least most)
    (hsymbols : s.generator.alphabet.symbols = target.alphabet.symbols)
    (h : adversarial name n s = (.ok split, t)) :
    split.name = name ∧ t.generator.alphabet = s.generator.alphabet
      ∧ ∃ as : List Attempt, split.examples = as.flatMap Attempt.examples
        ∧ t.generator.warnings.filter (!·.isShortfall)
          = s.generator.warnings.filter (!·.isShortfall) ++ as.filterMap Attempt.warning?
        ∧ t.generator.warnings.filter (·.isShortfall)
          = s.generator.warnings.filter (·.isShortfall)
            ++ (LengthRange.mk least most).lengths.filterMap
                (fun length => Sampler.shortfall? n (as.countP (·.1.length == length)))
        ∧ (∀ a ∈ as, (LengthRange.mk least most).Has a.1.length)
        ∧ ∀ length, as.countP (·.1.length == length) ≤ n := by
  obtain ⟨pairs, u, hpairs, hremove, rfl⟩ := adversarial_eq_ok h
  have hnodup : s.buckets.lengths.Nodup := List.nodup_range' 1
  obtain ⟨as, has, hmost, hattempts⟩ := attempts_of_foldlM_pairsAt hnodup hlegal hsymbols hpairs
  -- the parts are told apart by the lengths of their words, so counting in all counts in one
  have hkey : ∀ length ∈ s.buckets.lengths, ∀ a ∈ as length, a.1.length = length :=
    fun length hlength a ha => (has length hlength a ha).1
  have hcount : ∀ length ∈ s.buckets.lengths,
      (s.buckets.lengths.flatMap as).countP (·.1.length == length) = (as length).length :=
    fun length hlength => countP_flatMap_of_key hnodup hkey hlength
  rw [generator_of_forM_removeUsed hremove]
  refine ⟨rfl, hattempts.alphabet, s.buckets.lengths.flatMap as, hattempts.examples,
    hattempts.skips, ?_, fun a ha => ?_, fun length => ?_⟩
  · have hparts : (s.buckets.lengths.flatMap fun length =>
          (LengthRange.mk least most).shortfallAt n length (as length).length)
        = s.buckets.lengths.flatMap fun length => (LengthRange.mk least most).shortfallAt n length
            ((s.buckets.lengths.flatMap as).countP (·.1.length == length)) :=
      List.flatMap_congr fun length hlength => by rw [hcount length hlength]
    rw [hattempts.shortfalls, hparts,
      hlegal.flatMap_lengths fun length hlength => LengthRange.shortfallAt_of_not_has hlength _ _,
      List.filterMap_eq_flatMap_toList]
    congr 1
    exact List.flatMap_congr fun length hlength =>
      LengthRange.shortfallAt_of_has (LengthRange.mem_lengths_iff.1 hlength) _ _
  · obtain ⟨length, hlength, ha⟩ := List.mem_flatMap.1 ha
    obtain ⟨heq, hhas⟩ := has length hlength a ha
    rw [heq]
    exact hhas
  · -- a length without buckets has no attempts at all
    by_cases hlength : length ∈ s.buckets.lengths
    · rw [hcount length hlength]
      exact hmost length hlength
    · have hzero : (s.buckets.lengths.flatMap as).countP (·.1.length == length) = 0 :=
        countP_flatMap_of_not_mem hkey hlength
      rw [hzero]
      exact Nat.zero_le n

end Session

end FiniteState
