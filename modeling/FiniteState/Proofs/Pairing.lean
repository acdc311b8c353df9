import FiniteState.Proofs.Session

/-!
# Adversarial pairs

What a session takes from its buckets for a split of pairs. Accepted words are taken out when they
are drawn. Rejected words stay in the buckets until the last pair has been found; meanwhile it is
the list of used words that keeps them from being taken again.

* `rivals_induction`: what holds of the rivals of a word.
* `pairUp_cases`, `pairsAt_cases`, `removeUsed_cases`: everything that the steps can do.
* `Pairing`: the invariant of the search for pairs.
* `adversarial_takes`: what the split takes.
-/

namespace FiniteState

open LengthBuckets

namespace Session

variable {ρ : Type} {s t : Session ρ} {target : Automaton} {least most : Nat}

/-! ## Rivals -/

section

variable {S : Alphabet} {B : LengthBuckets} {ball C D : Automaton} {lengths : List Nat}
  {g : Generator ρ} {used : List Word} {p x y : Word}

/-- One length adds the words of its bucket that are in the ball. -/
def Adds (B : LengthBuckets) (ball D C : Automaton) (length : Nat) : Prop :=
  (B.get? length .reject = none ∧ C = D)
    ∨ ∃ A near, B.get? length .reject = some A ∧ ball.intersection A = .ok near
      ∧ D.union near = .ok C

/-- What holds of nothing, and is kept by each length, holds of the rivals. -/
theorem rivals_induction {P : List Nat → Automaton → Prop} (hempty : P [] (Automaton.empty S))
    (hadds : ∀ done length D C, P done D → Adds B ball D C length → P (done ++ [length]) C)
    (h : rivals S B ball lengths = .ok C) : P lengths C := by
  unfold rivals at h
  generalize hstart : Automaton.empty S = D at h
  -- the lengths that are done have to vary, as `P` speaks of them
  suffices hall : ∀ done, P done D → P (done ++ lengths) C from hall [] (hstart ▸ hempty)
  clear hstart
  induction lengths generalizing D with
  | nil =>
    intro done hD
    rw [List.foldlM_nil, Except.pure_eq_ok] at h
    rw [List.append_nil]
    exact h ▸ hD
  | cons length lengths ih =>
    intro done hD
    rw [List.foldlM_cons, Except.bind_eq_ok] at h
    obtain ⟨E, hE, hrest⟩ := h
    have hadd : Adds B ball D E length := by
      cases hA : B.get? length .reject with
      | none =>
        rw [hA] at hE
        exact .inl ⟨hA, (Except.ok.inj hE).symm⟩
      | some A =>
        rw [hA] at hE
        obtain ⟨near, hnear, hunion⟩ := Except.bind_eq_ok.1 hE
        exact .inr ⟨A, near, hA, hnear, hunion⟩
    have hrest := ih E hrest (done ++ [length]) (hadds done length D E hD hadd)
    rwa [List.append_assoc] at hrest

/-- A rival is a rejected word from one of the buckets. -/
theorem rivals_spec (h : rivals S B ball lengths = .ok C) (hxy : C.Relates x y) :
    x = y ∧ ∃ length A, B.get? length .reject = some A ∧ A.accepts x = true := by
  refine rivals_induction (P := fun _ C => C.Relates x y
    → x = y ∧ ∃ length A, B.get? length .reject = some A ∧ A.accepts x = true) ?_ ?_ h hxy
  · exact fun hempty => absurd hempty Automaton.not_relates_empty
  · rintro _ length D C hD (⟨-, rfl⟩ | ⟨A, near, hA, hnear, hunion⟩) hxy
    · exact hD hxy
    · rcases (Automaton.relates_union_iff hunion).1 hxy with hxy | hxy
      · exact hD hxy
      · obtain ⟨heq, -, haccepts⟩ := (Automaton.relates_intersection_iff hnear).1 hxy
        exact ⟨heq, length, A, hA, haccepts⟩

/-- Fresh rivals come from the ball of the word and the buckets of neighbouring lengths. Used
words are taken away if there are any. -/
theorem freshRivals_eq_ok {length : Nat} (h : freshRivals g B used length p = .ok C) :
    ∃ ball D, g.edits.ball p = .ok ball ∧ rivals g.alphabet B ball (nearLengths length) = .ok D
      ∧ ((used = [] ∧ C = D) ∨ D.difference (.words g.alphabet used) = .ok C) := by
  obtain ⟨ball, hball, h⟩ := Except.bind_eq_ok.1 h
  obtain ⟨D, hD, h⟩ := Except.bind_eq_ok.1 h
  refine ⟨ball, D, hball, hD, ?_⟩
  split at h
  next hempty => exact .inl ⟨List.isEmpty_iff.1 hempty, (Except.pure_eq_ok.1 h).symm⟩
  · exact .inr h

/-- A fresh rival is a rejected word from the buckets that was not used. -/
theorem freshRivals_spec {length : Nat} (h : freshRivals g B used length p = .ok C)
    (hxy : C.Relates x y) :
    x = y ∧ x ∉ used ∧ ∃ length A, B.get? length .reject = some A ∧ A.accepts x = true := by
  obtain ⟨ball, D, -, hD, ⟨rfl, rfl⟩ | hC⟩ := freshRivals_eq_ok h
  · obtain ⟨heq, hheld⟩ := rivals_spec hD hxy
    exact ⟨heq, List.not_mem_nil, hheld⟩
  · obtain ⟨heq, haccepts, -, hunused⟩ := (Automaton.relates_difference_words_iff hC).1 hxy
    obtain ⟨z, hz⟩ := Automaton.accepts_iff_exists_relates.1 haccepts
    exact ⟨heq, hunused, (rivals_spec hD hz).2⟩

end

/-! ## Removal of the used words -/

/-- Everything that can be done for a length in the end: words in use are taken out of their
bucket. -/
theorem removeUsed_cases {used : List Word} {length : Nat} {x : Unit}
    (h : removeUsed used length s = (.ok x, t)) :
    (t = s ∧ (s.buckets.get? length .reject = none ∨ ∀ w ∈ used, w.length ≠ length))
      ∨ ∃ A R, s.buckets.get? length .reject = some A
        ∧ shrink s.generator.alphabet A (used.filter (·.length == length)) = .ok R
        ∧ t.generator = s.generator ∧ t.buckets = s.buckets.set length .reject R := by
  unfold removeUsed at h
  -- nothing happens if no word in use is of the length, or no bucket is there for it
  by_cases htaken : (used.filter (·.length == length)).isEmpty = true
  · simp only [htaken] at h
    obtain ⟨-, rfl⟩ := ExceptT.pure_eq_ok.1 h
    refine .inl ⟨rfl, .inr fun w hw hlength => ?_⟩
    have hnone := List.filter_eq_nil_iff.1 (List.isEmpty_iff.1 htaken) w hw
    exact hnone (beq_iff_eq.2 hlength)
  · simp only [htaken] at h
    replace h := get_bind_eq_ok.1 h
    cases hA : s.buckets.get? length .reject with
    | none =>
      simp only [hA] at h
      obtain ⟨-, rfl⟩ := ExceptT.pure_eq_ok.1 h
      exact .inl ⟨rfl, .inl rfl⟩
    | some A =>
      simp only [hA] at h
      obtain ⟨R, hR, h⟩ := lift_bind_eq_ok.1 h
      exact .inr ⟨A, R, rfl, hR, replace_eq_ok h⟩

/-- Words that were removed from their slot are no longer held there. -/
theorem removeUsed_spec {used : List Word} {length : Nat} {x : Unit}
    (hlegal : s.buckets.Legal target least most)
    (h : removeUsed used length s = (.ok x, t)) :
    Later s t ∧ ∀ w ∈ used, w.length = length → ¬ t.buckets.Held .reject w := by
  rcases removeUsed_cases h with ⟨rfl, hnone⟩ | ⟨A, R, hA, hR, hgenerator, hset⟩
  · refine ⟨.refl _, fun w hw hlength => ?_⟩
    rintro ⟨A, hA, -⟩
    rcases hnone with hnone | hnone
    · rw [hlength, hnone] at hA
      cases hA
    · exact hnone w hw hlength
  · obtain ⟨hsubset, hgone⟩ := shrink_spec (hlegal.eq_of_relates hA) hR
    have hshrinks : s.buckets.Shrinks t.buckets := hset ▸ shrinks_set hA hsubset
    refine ⟨⟨by rw [hgenerator], hshrinks⟩, fun w hw hlength => ?_⟩
    subst hlength
    rw [hset]
    exact not_held_set hA (hgone w (List.mem_filter.2 ⟨hw, beq_self_eq_true _⟩))

/-- After all lengths no used word is held at any of them. -/
theorem forM_removeUsed_spec {used : List Word} {lengths : List Nat} {x : Unit}
    (hlegal : s.buckets.Legal target least most)
    (h : lengths.forM (removeUsed used) s = (.ok x, t)) :
    Later s t ∧ ∀ w ∈ used, w.length ∈ lengths → ¬ t.buckets.Held .reject w := by
  refine forM_induction (P := fun done u => Later s u
    ∧ ∀ w ∈ used, w.length ∈ done → ¬ u.buckets.Held .reject w) ?_ ?_ h
  · rintro done length u u' ⟨hlater, hgone⟩ hstep
    obtain ⟨hlater', hgone'⟩ := removeUsed_spec (hlegal.shrinks hlater.shrinks) hstep
    refine ⟨hlater.trans hlater', fun w hw hlength hheld => ?_⟩
    rcases List.mem_append.1 hlength with hlength | hlength
    · exact hgone w hw hlength (hheld.of_shrinks hlater'.shrinks)
    · exact hgone' w hw (List.mem_singleton.1 hlength) hheld
  · exact ⟨.refl s, fun _ _ hlength => absurd hlength List.not_mem_nil⟩

/-! ## The search for pairs

Words in use are only noted during the search, and removed afterwards. That no word is in two pairs
is therefore an invariant about what has been noted. -/

/-- The pairs that were found since the session was in state `s`. The accepted words are gone from
the buckets; the rejected ones are still there, but noted as used. -/
structure Pairing (s t : Session ρ) (pairs : Pairs) (ps : List (Verdict × Word)) : Prop
    extends Later s t where
  examples : pairs.examples = ps.map (exampleOf s.generator.alphabet)
  held : ∀ p ∈ ps, s.buckets.Held p.1 p.2
  gone : ∀ w, (Verdict.accept, w) ∈ ps → ¬ t.buckets.Held .accept w
  used : ∀ w, (Verdict.reject, w) ∈ ps → w ∈ pairs.used
  nodup : ps.Nodup

variable {u : Session ρ} {pairs pairs' : Pairs} {ps : List (Verdict × Word)}

/-- What a search for pairs has done so far stays true when other words are removed. -/
theorem Pairing.of_later (h : Pairing s t pairs ps) (hlater : Later t u) :
    Pairing s u pairs ps where
  toLater := h.toLater.trans hlater
  examples := h.examples
  held := h.held
  gone := fun w hw hheld => h.gone w hw (hheld.of_shrinks hlater.shrinks)
  used := h.used
  nodup := h.nodup

/-- A pair may be added if its accepted word was removed and its rejected word is not in use. -/
theorem Pairing.add {positive negative : Word} (h : Pairing s t pairs ps)
    (hpositive : s.buckets.Held .accept positive) (hgone : ¬ t.buckets.Held .accept positive)
    (hfresh : (Verdict.accept, positive) ∉ ps) (hnegative : t.buckets.Held .reject negative)
    (hunused : negative ∉ pairs.used)
    (hexamples : pairs'.examples = pairs.examples
      ++ [(.accept, positive), (.reject, negative)].map (exampleOf s.generator.alphabet))
    (hused : pairs'.used = Word.sortDistinct (negative :: pairs.used)) :
    Pairing s t pairs' (ps ++ [(.accept, positive), (.reject, negative)]) where
  toLater := h.toLater
  examples := by rw [hexamples, h.examples, List.map_append]
  held := fun p hp => by
    rcases List.mem_append.1 hp with hp | hp
    · exact h.held p hp
    · rcases List.mem_pair.1 hp with rfl | rfl
      · exact hpositive
      · exact hnegative.of_shrinks h.shrinks
  gone := fun w hw => by
    rcases List.mem_append.1 hw with hw | hw
    · exact h.gone w hw
    · rcases List.mem_pair.1 hw with heq | heq
      · rw [(Prod.mk.inj heq).2]
        exact hgone
      · cases (Prod.mk.inj heq).1
  used := fun w hw => by
    rw [hused, Word.mem_sortDistinct, List.mem_cons]
    rcases List.mem_append.1 hw with hw | hw
    · exact .inr (h.used w hw)
    · rcases List.mem_pair.1 hw with heq | heq
      · cases (Prod.mk.inj heq).1
      · exact .inl (Prod.mk.inj heq).2
  nodup := by
    refine h.nodup.append ?_ fun p hp hp' => ?_
    · -- the two words have different verdicts
      refine List.nodup_cons.2 ⟨fun hmem => ?_, List.nodup_singleton _⟩
      cases List.mem_singleton.1 hmem
    · rcases List.mem_pair.1 hp' with rfl | rfl
      · exact hfresh hp
      · exact hunused (h.used negative hp)

variable [RandomSource ρ]

/-- Everything that can be done for a word: a rival is drawn, and then there is a pair or a
warning. -/
theorem pairUp_cases {length : Nat} {pairs pairs' : Pairs} {positive : Word}
    (h : pairUp length pairs positive s = (.ok pairs', t)) :
    ∃ C found sampler, freshRivals s.generator s.buckets pairs.used length positive = .ok C
      ∧ Sampler.pick C s.generator.sampler = (found, sampler)
      ∧ ((found = none ∧ pairs' = pairs ∧ t = { s with
            generator.sampler := sampler
            generator.warnings := s.generator.warnings
              ++ [.emptyAdversarialCandidate (s.generator.alphabet.render positive)] })
        ∨ ∃ negative, found = some negative
          ∧ pairs' = {
              examples := pairs.examples
                ++ [(.accept, positive), (.reject, negative)].map (exampleOf s.generator.alphabet)
              used := Word.sortDistinct (negative :: pairs.used) }
          ∧ t = { s with generator.sampler := sampler }) := by
  replace h := get_bind_eq_ok.1 h
  obtain ⟨C, hC, h⟩ := lift_bind_eq_ok.1 h
  obtain ⟨found, u, hpick, h⟩ := ExceptT.bind_eq_ok.1 h
  obtain ⟨sampler, hdrawn, rfl⟩ := sampling_spec hpick
  refine ⟨C, found, sampler, hC, hdrawn, ?_⟩
  cases found with
  | none =>
    obtain ⟨x, u', hwarn, h⟩ := ExceptT.bind_eq_ok.1 h
    obtain ⟨rfl, rfl⟩ := ExceptT.pure_eq_ok.1 h
    exact .inl ⟨rfl, rfl, warn_spec hwarn⟩
  | some negative =>
    obtain ⟨rfl, rfl⟩ := ExceptT.pure_eq_ok.1 h
    exact .inr ⟨negative, rfl, rfl, rfl⟩

/-- Either the word is skipped, or it is paired with a rejected word in the buckets that has not
been used. -/
theorem pairUp_eq_ok {length : Nat} {pairs pairs' : Pairs} {positive : Word}
    (hlegal : s.buckets.Legal target least most)
    (h : pairUp length pairs positive s = (.ok pairs', t)) :
    Frame s t ∧ (pairs' = pairs ∨ ∃ negative, s.buckets.Held .reject negative
      ∧ negative ∉ pairs.used
      ∧ pairs'.examples = pairs.examples
          ++ [(.accept, positive), (.reject, negative)].map (exampleOf s.generator.alphabet)
      ∧ pairs'.used = Word.sortDistinct (negative :: pairs.used)) := by
  obtain ⟨C, found, sampler, hC, hpick, ⟨-, rfl, rfl⟩ | ⟨negative, rfl, rfl, rfl⟩⟩ := pairUp_cases h
  · exact ⟨⟨rfl, rfl⟩, .inl rfl⟩
  · obtain ⟨x, hx⟩ := Sampler.relates_of_pick hpick
    obtain ⟨rfl, hfresh, length', A, hA, haccepts⟩ := freshRivals_spec hC hx
    have hheld := (hlegal.held_of_relates hA (hlegal.relates_of_accepts hA haccepts)).2
    exact ⟨⟨rfl, rfl⟩, .inr ⟨x, hheld, hfresh, rfl, rfl⟩⟩

/-- A removed word is paired or skipped; no other accepted word gets into a pair. -/
theorem Pairing.pairUp {length : Nat} {w : Word} (hlegal : s.buckets.Legal target least most)
    (h : Pairing s t pairs ps) (hheld : s.buckets.Held .accept w)
    (hgone : ¬ t.buckets.Held .accept w) (hfresh : (Verdict.accept, w) ∉ ps)
    (hstep : pairUp length pairs w t = (.ok pairs', u)) :
    Later t u ∧ ∃ ps', Pairing s u pairs' ps'
      ∧ ∀ v, (Verdict.accept, v) ∈ ps' → (Verdict.accept, v) ∈ ps ∨ v = w := by
  obtain ⟨hframe, hpairs⟩ := pairUp_eq_ok (hlegal.shrinks h.shrinks) hstep
  refine ⟨hframe.later, ?_⟩
  rcases hpairs with rfl | ⟨negative, hnegative, hunused, hexamples, hused⟩
  · exact ⟨ps, h.of_later hframe.later, fun v hv => .inl hv⟩
  · rw [h.alphabet] at hexamples
    have hadd := h.add hheld hgone hfresh hnegative hunused hexamples hused
    refine ⟨_, hadd.of_later hframe.later, fun v hv => ?_⟩
    rcases List.mem_append.1 hv with hv | hv
    · exact .inl hv
    · rcases List.mem_pair.1 hv with heq | heq
      · exact .inr (Prod.mk.inj heq).2
      · cases (Prod.mk.inj heq).1

/-- Distinct words that were removed are paired one after the other. The words that are still to
come are in no pair yet. -/
theorem Pairing.foldlM_pairUp {length : Nat} {words : List Word}
    (hlegal : s.buckets.Legal target least most) (h : Pairing s t pairs ps) (hnodup : words.Nodup)
    (hheld : ∀ w ∈ words, s.buckets.Held .accept w)
    (hgone : ∀ w ∈ words, ¬ t.buckets.Held .accept w)
    (hfresh : ∀ w ∈ words, (Verdict.accept, w) ∉ ps)
    (hfold : words.foldlM (Session.pairUp length) pairs t = (.ok pairs', u)) :
    ∃ ps', Pairing s u pairs' ps' := by
  induction words generalizing t pairs ps with
  | nil =>
    rw [List.foldlM_nil] at hfold
    obtain ⟨rfl, rfl⟩ := ExceptT.pure_eq_ok.1 hfold
    exact ⟨ps, h⟩
  | cons w words ih =>
    rw [List.foldlM_cons] at hfold
    obtain ⟨pairs₁, t₁, hstep, hrest⟩ := ExceptT.bind_eq_ok.1 hfold
    obtain ⟨hw, hnodup⟩ := List.nodup_cons.1 hnodup
    rw [List.forall_mem_cons] at hheld hgone hfresh
    obtain ⟨hlater, ps₁, h₁, hnew⟩ := h.pairUp hlegal hheld.1 hgone.1 hfresh.1 hstep
    refine ih h₁ hnodup hheld.2 ?_ ?_ hrest
    · -- what is gone stays gone while the others are paired
      exact fun v hv hheld => hgone.2 v hv (hheld.of_shrinks hlater.shrinks)
    · -- a new pair is for the word whose turn it was
      intro v hv hmem
      rcases hnew v hmem with hmem | rfl
      · exact hfresh.2 v hv hmem
      · exact hw hv

/-- Everything that can be done for a length: words are drawn and taken out of their bucket, then
paired. -/
theorem pairsAt_cases {n length : Nat} (h : pairsAt n pairs length s = (.ok pairs', t)) :
    (s.buckets.get? length .accept = none ∧ pairs' = pairs ∧ t = s)
      ∨ ∃ A sample sampler u, s.buckets.get? length .accept = some A
        ∧ Sampler.sampleDistinct A n s.generator.retries s.generator.sampler = (.ok sample, sampler)
        ∧ u.buckets = s.buckets.set length .accept sample.rest
        ∧ u.generator = { s.generator with
            sampler := sampler
            warnings := s.generator.warnings ++ sample.shortfall.toList }
        ∧ sample.words.foldlM (pairUp length) pairs u = (.ok pairs', t) := by
  replace h := get_bind_eq_ok.1 h
  cases hA : s.buckets.get? length .accept with
  | none =>
    simp only [hA] at h
    obtain ⟨rfl, rfl⟩ := ExceptT.pure_eq_ok.1 h
    exact .inl ⟨rfl, rfl, rfl⟩
  | some A =>
    simp only [hA] at h
    obtain ⟨sample, t₁, hsample, h⟩ := ExceptT.bind_eq_ok.1 h
    obtain ⟨x, t₂, hreplace, hfold⟩ := ExceptT.bind_eq_ok.1 h
    obtain ⟨sampler, hdrawn, rfl⟩ := distinctFrom_spec hsample
    obtain ⟨hgenerator, hbuckets⟩ := replace_eq_ok hreplace
    exact .inr ⟨A, sample, sampler, t₂, rfl, hdrawn, hbuckets, hgenerator, hfold⟩

/-- The search at one length adds the pairs that it finds. -/
theorem Pairing.pairsAt {n length : Nat} (hlegal : s.buckets.Legal target least most)
    (h : Pairing s t pairs ps) (hstep : pairsAt n pairs length t = (.ok pairs', u)) :
    ∃ ps', Pairing s u pairs' ps' := by
  rcases pairsAt_cases hstep with
    ⟨-, rfl, rfl⟩ | ⟨A, sample, sampler, v, hA, hdrawn, hset, hgenerator, hfold⟩
  · exact ⟨ps, h⟩
  · have htakes : Takes true true t v (sample.words.map fun w => (Verdict.accept, w)) :=
      takes_of_sampleDistinct (hlegal.shrinks h.shrinks) hA hdrawn (by rw [hgenerator]) hset
    have hmem : ∀ w ∈ sample.words,
        (Verdict.accept, w) ∈ sample.words.map fun w => (Verdict.accept, w) :=
      fun w hw => List.mem_map_of_mem hw
    have hnodup : sample.words.Nodup := (htakes.nodup rfl).of_map _
    refine (h.of_later htakes.toLater).foldlM_pairUp hlegal hnodup ?_ ?_ ?_ hfold
    · exact fun w hw => (htakes.held _ (hmem w hw)).of_shrinks h.shrinks
    · exact fun w hw => htakes.gone rfl _ (hmem w hw)
    · exact fun w hw hps => h.gone w hps (htakes.held _ (hmem w hw))

theorem Pairing.foldlM_pairsAt {n : Nat} {lengths : List Nat}
    (hlegal : s.buckets.Legal target least most) (h : Pairing s t pairs ps)
    (hfold : lengths.foldlM (Session.pairsAt n) pairs t = (.ok pairs', u)) :
    ∃ ps', Pairing s u pairs' ps' :=
  foldlM_induction (P := fun _ pairs u => ∃ ps, Pairing s u pairs ps)
    (fun _ _ _ _ _ _ _ _ ⟨_, h⟩ hstep => h.pairsAt hlegal hstep) ⟨ps, h⟩ hfold

/-! ## Adversarial splits -/

/-- A split of pairs first looks for pairs at every length and then removes the partners. -/
theorem adversarial_eq_ok {name : String} {n : Nat} {split : Split}
    (h : adversarial name n s = (.ok split, t)) :
    ∃ pairs u, s.buckets.lengths.foldlM (pairsAt n) {} s = (.ok pairs, u)
      ∧ s.buckets.lengths.forM (removeUsed pairs.used) u = (.ok (), t)
      ∧ split = { name, examples := pairs.examples } := by
  replace h := get_bind_eq_ok.1 h
  obtain ⟨pairs, u, hpairs, h⟩ := ExceptT.bind_eq_ok.1 h
  obtain ⟨x, u', hremove, h⟩ := ExceptT.bind_eq_ok.1 h
  obtain ⟨rfl, rfl⟩ := ExceptT.pure_eq_ok.1 h
  exact ⟨pairs, u, hpairs, hremove, rfl⟩

/-- The words of the split are taken from the buckets, all different, and removed from there. -/
theorem adversarial_takes {name : String} {n : Nat} {split : Split}
    (hlegal : s.buckets.Legal target least most)
    (h : adversarial name n s = (.ok split, t)) :
    ∃ ps, split.examples = ps.map (exampleOf s.generator.alphabet) ∧ Takes true true s t ps := by
  obtain ⟨pairs, u, hpairs, hremove, rfl⟩ := adversarial_eq_ok h
  have hstart : Pairing s s {} [] :=
    { toLater := .refl s
      examples := rfl
      held := fun _ hp => absurd hp List.not_mem_nil
      gone := fun _ hp => absurd hp List.not_mem_nil
      used := fun _ hp => absurd hp List.not_mem_nil
      nodup := List.nodup_nil }
  obtain ⟨ps, hpairing⟩ := hstart.foldlM_pairsAt hlegal hpairs
  obtain ⟨hlater, hgone⟩ := forM_removeUsed_spec (hlegal.shrinks hpairing.shrinks) hremove
  have hremoved : ∀ p ∈ ps, ¬ t.buckets.Held p.1 p.2 := by
    rintro ⟨v, w⟩ hp
    cases v with
    | accept => exact fun hheld => hpairing.gone w hp (hheld.of_shrinks hlater.shrinks)
    | reject =>
      -- a used word comes from a bucket, so its length is among those that are gone through
      obtain ⟨A, hA, -⟩ := hpairing.held _ hp
      exact hgone w (hpairing.used w hp) (mem_lengths_of_get? hA)
  exact ⟨ps, hpairing.examples, hpairing.toLater.trans hlater, hpairing.held, fun _ => hremoved,
    fun _ => hpairing.nodup⟩

end Session

end FiniteState
