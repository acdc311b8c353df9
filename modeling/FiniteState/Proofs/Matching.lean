import FiniteState.Proofs.Reached

/-!
# Adversarial pairs are a matching

The pairs of an adversarial split match accepted words with rivals. The accepted words come one
after the other, each takes a rival that no earlier one has taken, and one goes without a rival only
if there is none left. The rejected words stay in their buckets until the end of the split, since
one of them can be a rival at three lengths, so that the rivals of a word are the same from the
beginning of the split to its end.

* `Matching`: who is paired with whom, `Matching.concat`: what one more accepted word adds.
* `Progress`: the invariant of a split, with a step for each word and each length.
* `accepts_forM_removeUsed_iff`: what is left of the rejected words.
* `adversarial_matching`: a whole split.
-/

namespace FiniteState

open LengthBuckets

namespace Session

/-! ## Matchings -/

/-- An accepted word with the rejected word that it is paired with, if there is any. -/
abbrev Trial := Word × Option Word

/-- The trial in writing. -/
def Trial.attempt (S : Alphabet) (a : Trial) : Attempt := (S.render a.1, a.2.map S.render)

/-- The rejected words that are paired. -/
def partners (as : List Trial) : List Word := as.filterMap Prod.snd

/-- Accepted words in the buckets are paired with rivals; no word is in two pairs. A word is skipped
exactly if all its rivals are partners of earlier words. -/
structure Matching (B : LengthBuckets) (as : List Trial) : Prop where
  held : ∀ a ∈ as, B.Held .accept a.1
  nodup_words : (as.map Prod.fst).Nodup
  nodup_partners : (partners as).Nodup
  rival : ∀ p q, (p, some q) ∈ as → Rival B p q
  skipped_iff : ∀ bs p found cs, as = bs ++ (p, found) :: cs →
    (found = none ↔ ∀ q, Rival B p q → q ∈ partners bs)

theorem partners_append (as bs : List Trial) : partners (as ++ bs) = partners as ++ partners bs :=
  List.filterMap_append

theorem matching_nil (B : LengthBuckets) : Matching B [] where
  held := nofun
  nodup_words := .nil
  nodup_partners := .nil
  rival := nofun
  skipped_iff := fun bs _ _ _ h => absurd h.symm (List.append_ne_nil_of_right_ne_nil bs nofun)

/-- One more word takes a rival that is left, or goes without if there is none. -/
theorem Matching.concat {B : LengthBuckets} {as : List Trial} (h : Matching B as) {p : Word}
    {found : Option Word} (hheld : B.Held .accept p) (hnew : p ∉ as.map Prod.fst)
    (hfresh : ∀ q, found = some q → Rival B p q ∧ q ∉ partners as)
    (hnone : found = none ↔ ∀ q, Rival B p q → q ∈ partners as) :
    Matching B (as ++ [(p, found)]) where
  held := fun a ha => by
    rcases List.mem_append.1 ha with ha | ha
    · exact h.held a ha
    · rw [List.mem_singleton.1 ha]
      exact hheld
  nodup_words := by
    rw [List.map_append, List.map_singleton, ← List.concat_eq_append]
    exact .concat hnew h.nodup_words
  nodup_partners := by
    rw [partners_append]
    cases found with
    | none => exact (List.append_nil _).symm ▸ h.nodup_partners
    | some q =>
      show (partners as ++ [q]).Nodup
      rw [← List.concat_eq_append]
      exact .concat (hfresh q rfl).2 h.nodup_partners
  rival := by
    intro p' q' hmem
    rcases List.mem_append.1 hmem with hmem | hmem
    · exact h.rival p' q' hmem
    · obtain ⟨rfl, hfound⟩ := Prod.mk.inj (List.mem_singleton.1 hmem)
      exact (hfresh q' hfound.symm).1
  skipped_iff := by
    intro bs p' found' cs heq
    -- the trial in question is the new one, or comes before it
    rcases List.eq_nil_or_concat cs with rfl | ⟨cs, c, rfl⟩
    · obtain ⟨rfl, hlast⟩ := List.append_inj' heq rfl
      obtain ⟨rfl, rfl⟩ := Prod.mk.inj (List.singleton_inj.1 hlast)
      exact hnone
    · rw [List.concat_eq_append, ← List.cons_append, ← List.append_assoc] at heq
      exact h.skipped_iff bs p' found' cs (List.append_inj' heq rfl).1

/-! ## The search for pairs

Rivals are the same all along the search, since rejected words are removed at the end of it only. So
the trials are described by the buckets at its beginning. -/

variable {ρ : Type} {s t u : Session ρ} {pairs pairs' : Pairs} {as : List Trial}
  {n length : Nat} {target : Automaton} {least most : Nat}

/-- The trials since the session was in state `s`. Their accepted words are gone from the buckets;
the rejected words are all still there. -/
structure Progress (s t : Session ρ) (pairs : Pairs) (as : List Trial) : Prop where
  setup : t.setup = s.setup
  shrinks : s.buckets.Shrinks t.buckets
  rejected : ∀ length, t.buckets.get? length .reject = s.buckets.get? length .reject
  examples : pairs.examples = as.flatMap fun a => (a.attempt s.generator.alphabet).examples
  skips : t.generator.warnings.filter (!·.isShortfall)
    = s.generator.warnings.filter (!·.isShortfall)
      ++ as.filterMap fun a => (a.attempt s.generator.alphabet).warning?
  mem_used_iff : ∀ q, q ∈ pairs.used ↔ q ∈ partners as
  matching : Matching s.buckets as
  gone : ∀ a ∈ as, ¬ t.buckets.Held .accept a.1

/-- Before any trial there is nothing to tell. -/
theorem Progress.refl (s : Session ρ) : Progress s s {} [] where
  setup := rfl
  shrinks := .refl _
  rejected := fun _ => rfl
  examples := rfl
  skips := (List.append_nil _).symm
  mem_used_iff := fun _ => Iff.rfl
  matching := matching_nil _
  gone := fun _ ha => absurd ha List.not_mem_nil

section

variable [RandomSource ρ]

/-- The words are drawn from the accepted words of a length, if there is a bucket for it. -/
def Sampled (s : Session ρ) (n length : Nat) (words : List Word) : Prop :=
  match s.buckets.get? length .accept with
  | none => words = []
  | some A => ∃ (sample : Sample) (sampler sampler' : Sampler ρ),
      Sampler.sampleDistinct A n s.generator.retries sampler = (.ok sample, sampler')
        ∧ words = sample.words

variable (hlegal : s.buckets.Legal target least most) (hdeterministic : s.buckets.Deterministic)
  (hready : Ready target s.generator)
  (hlengths : ∀ length, least ≤ length → length ≤ most → length < 2 ^ 30)

include hlegal in
/-- Words are drawn from their bucket, which is replaced by the rest of the sample. -/
theorem Progress.draw {A : Automaton} {sample : Sample} {sampler : Sampler ρ}
    (h : Progress s t pairs as) (hA : t.buckets.get? length .accept = some A)
    (hdrawn : Sampler.sampleDistinct A n t.generator.retries t.generator.sampler
      = (.ok sample, sampler))
    (hset : u.buckets = t.buckets.set length .accept sample.rest)
    (hgenerator : u.generator = { t.generator with
      sampler := sampler
      warnings := t.generator.warnings ++ sample.shortfall.toList }) :
    Progress s u pairs as
      ∧ Takes true true t u (sample.words.map fun w => (Verdict.accept, w)) := by
  have htakes : Takes true true t u (sample.words.map fun w => (Verdict.accept, w)) :=
    takes_of_sampleDistinct (hlegal.shrinks h.shrinks) hA hdrawn (by rw [hgenerator]) hset
  have hbound : sampler.maxLength = t.generator.sampler.maxLength :=
    (Sampler.keepsBound_sampleDistinct A n _).eq hdrawn
  have hsetup : u.setup = t.setup := by
    simp only [Session.setup, hgenerator, hbound]
  refine ⟨{ h with
    setup := hsetup.trans h.setup
    shrinks := h.shrinks.trans htakes.shrinks
    rejected := fun l => ?_
    skips := ?_
    gone := fun a ha hheld => h.gone a ha (hheld.of_shrinks htakes.shrinks) }, htakes⟩
  · rw [hset, get?_set hA, if_neg (fun hplace => by cases hplace.2), h.rejected]
  · have hdraw : Attempts t u pairs pairs [] (Sampler.shortfall? n sample.words.length).toList :=
      attempts_of_sampleDistinct hdrawn (by rw [hgenerator]) htakes.toLater
    rw [hdraw.skips, List.filterMap_nil, List.append_nil, h.skips]

include hlegal hdeterministic hready hlengths

/-- An accepted word that has been drawn takes a rival that is left, if there is any. -/
theorem Progress.pairUp {p : Word} (h : Progress s t pairs as) (hheld : s.buckets.Held .accept p)
    (hgone : ¬ t.buckets.Held .accept p) (hnew : p ∉ as.map Prod.fst)
    (hstep : Session.pairUp p.length pairs p t = (.ok pairs', u)) :
    ∃ found, Progress s u pairs' (as ++ [(p, found)]) ∧ u.buckets = t.buckets := by
  have hsetup : u.setup = t.setup := (keepsSetup_pairUp p.length pairs p).eq hstep
  obtain ⟨C, found, sampler, hC, hpick, hkept, hused, hattempt⟩ := pairUp_attempt hstep
  obtain ⟨halphabet, hedits, -, hbound⟩ := Setup.mk.inj h.setup
  -- no rejected word has been removed yet, so the rivals are those of the beginning
  rw [freshRivals_congr halphabet hedits h.rejected] at hC
  have hover : p.Over s.generator.alphabet :=
    (Word.over_congr hready.symbols).2 (hlegal.belongs_of_held hheld).1
  have hbound' : p.length + 4 ≤ t.generator.sampler.maxLength := by
    obtain ⟨A, hA, -⟩ := hheld
    obtain ⟨hleast, hmost⟩ := (hlegal.isSome_iff _ _).1 (Option.isSome_of_eq_some hA)
    have hlength : p.length < 2 ^ 30 := hlengths _ hleast hmost
    rw [hbound, hready.bound]
    omega
  obtain ⟨hfresh, hnone⟩ := pick_freshRivals hlegal hready.symbols hready.edits hover hC
    hdeterministic hbound' hpick
  -- the words in use are the partners so far
  simp only [h.mem_used_iff] at hfresh hnone
  refine ⟨found, {
    setup := hsetup.trans h.setup
    shrinks := hkept ▸ h.shrinks
    rejected := hkept ▸ h.rejected
    examples := ?_
    skips := ?_
    mem_used_iff := fun q => ?_
    matching := h.matching.concat hheld hnew hfresh hnone
    gone := ?_ }, hkept⟩
  · rw [hattempt.examples, h.examples, halphabet, List.flatMap_append]
    rfl
  · rw [hattempt.skips, h.skips, halphabet, List.append_assoc, List.filterMap_append]
    rfl
  · rw [hused, h.mem_used_iff, partners_append, List.mem_append]
    cases found <;> simp [partners, eq_comm]
  · intro a ha
    rw [hkept]
    rcases List.mem_append.1 ha with ha | ha
    · exact h.gone a ha
    · rw [List.mem_singleton.1 ha]
      exact hgone

/-- Distinct words that have been drawn are tried one after the other. -/
theorem Progress.foldlM_pairUp {words : List Word} (h : Progress s t pairs as)
    (hlength : ∀ p ∈ words, p.length = length) (hheld : ∀ p ∈ words, s.buckets.Held .accept p)
    (hgone : ∀ p ∈ words, ¬ t.buckets.Held .accept p) (hnodup : words.Nodup)
    (hnew : ∀ p ∈ words, p ∉ as.map Prod.fst)
    (hfold : words.foldlM (Session.pairUp length) pairs t = (.ok pairs', u)) :
    ∃ bs, bs.map Prod.fst = words ∧ Progress s u pairs' (as ++ bs) ∧ u.buckets = t.buckets := by
  refine foldlM_induction (P := fun done pairs v => ∃ bs : List Trial,
    bs.map Prod.fst = done ∧ Progress s v pairs (as ++ bs) ∧ v.buckets = t.buckets) ?_ ?_ hfold
  · rintro done p rest pairs pairs' v v' rfl ⟨bs, hbs, hv, hbuckets⟩ hstep
    have hp : p ∈ done ++ p :: rest := List.mem_append_cons_self
    obtain rfl := hlength p hp
    have hnew' : p ∉ (as ++ bs).map Prod.fst := by
      rw [List.map_append, hbs, List.mem_append, not_or]
      exact ⟨hnew p hp, fun hdone =>
        (List.nodup_append.1 hnodup).2.2 p hdone p List.mem_cons_self rfl⟩
    obtain ⟨found, hv', hbuckets'⟩ := hv.pairUp hlegal hdeterministic hready hlengths (hheld p hp)
      (hbuckets ▸ hgone p hp) hnew' hstep
    refine ⟨bs ++ [(p, found)], ?_, ?_, hbuckets'.trans hbuckets⟩
    · rw [List.map_append, hbs]
      rfl
    · rwa [← List.append_assoc]
  · exact ⟨[], rfl, by rwa [List.append_nil], rfl⟩

/-- The words drawn for a length are none of the earlier ones, which were gone by then. -/
theorem Progress.pairsAt (h : Progress s t pairs as)
    (hkept : t.buckets.get? length .accept = s.buckets.get? length .accept)
    (hstep : Session.pairsAt n pairs length t = (.ok pairs', u)) :
    ∃ bs, Progress s u pairs' (as ++ bs) ∧ Sampled s n length (bs.map Prod.fst)
      ∧ ∀ l, l ≠ length → u.buckets.get? l .accept = t.buckets.get? l .accept := by
  rcases pairsAt_cases hstep with
    ⟨hnone, rfl, rfl⟩ | ⟨A, sample, sampler, v, hA, hdrawn, hset, hgenerator, hfold⟩
  · refine ⟨[], by rwa [List.append_nil], ?_, fun _ _ => rfl⟩
    rw [Sampled, ← hkept, hnone]
    rfl
  · obtain ⟨hv, htakes⟩ := h.draw hlegal hA hdrawn hset hgenerator
    have hlegal' := hlegal.shrinks h.shrinks
    obtain ⟨hnodup, hwords, -⟩ := sampleDistinct_spec (hlegal'.eq_of_relates hA) hdrawn
    -- a word that is drawn now is still held, so it is none of those that were drawn before
    have hheld : ∀ p ∈ sample.words, p.length = length ∧ t.buckets.Held .accept p :=
      fun p hp => hlegal'.held_of_relates hA (hwords p hp)
    obtain ⟨bs, hbs, hu, hbuckets⟩ := hv.foldlM_pairUp hlegal hdeterministic hready hlengths
      (fun p hp => (hheld p hp).1) (fun p hp => (hheld p hp).2.of_shrinks h.shrinks)
      (fun p hp => htakes.gone rfl _ (List.mem_map_of_mem hp)) hnodup
      (fun p hp hold => by
        obtain ⟨a, ha, rfl⟩ := List.mem_map.1 hold
        exact h.gone a ha (hheld _ hp).2) hfold
    refine ⟨bs, hu, ?_, fun l hl => ?_⟩
    · have hretries : t.generator.retries = s.generator.retries := (Setup.mk.inj h.setup).2.2.1
      rw [Sampled, ← hkept, hA, hbs]
      exact ⟨sample, t.generator.sampler, sampler, hretries ▸ hdrawn, rfl⟩
    · rw [hbuckets, hset, get?_set hA, if_neg fun hplace => hl hplace.1]

end

/-! ## Removal of the partners

When all trials are made, the partners are taken out of the buckets length by length. -/

section

variable {used : List Word} {x : Unit} {A : Automaton}
  (hlegal : s.buckets.Legal target least most)
  (hsymbols : s.generator.alphabet.symbols = target.alphabet.symbols)

include hlegal hsymbols

end

/-! ## Splits of pairs -/

variable [RandomSource ρ]

end Session

end FiniteState
