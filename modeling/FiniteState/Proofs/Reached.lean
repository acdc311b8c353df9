import FiniteState.Proofs.Attempts
import FiniteState.Proofs.Disjoint
import FiniteState.Proofs.Rivals

/-!
# Buckets that calls leave

Any number of splits may have been drawn from the buckets of a target before the next one is. What
is left is still legal, and deterministic as well: a call that takes words out of a bucket puts a
minimal acceptor in its place. The generators of these splits may be in any state, but they are
still set up as they were when they were made.

* `Reached`: the buckets that successful calls leave, `Reached.legal` and `Reached.deterministic`.
* `Ready`: generators that are set up for a target, `Ready.perform`: no call changes that.
-/

namespace FiniteState

open LengthBuckets

namespace Session

variable {ρ : Type} {s t : Session ρ} {pairs pairs' : Pairs} {n length : Nat} {target : Automaton}
  {least most : Nat}

/-! ## Deterministic buckets

Buckets are built by minimization, and what is left after a draw is a minimal difference. So they
are deterministic however many words have been drawn. -/

/-- Replacing a slot by a deterministic automaton keeps the buckets deterministic. -/
theorem deterministic_set {B : LengthBuckets} {v : Verdict} {A R : Automaton}
    (hB : B.Deterministic) (hA : B.get? length v = some A) (hR : R.system.Deterministic) :
    (B.set length v R).Deterministic := by
  intro length' v' C hC
  rw [get?_set hA] at hC
  split at hC
  · exact Option.some.inj hC ▸ hR
  · exact hB length' v' C hC

/-- What is left after taking words away was minimized, so it is deterministic. -/
theorem deterministic_shrink {S : Alphabet} {A R : Automaton} {used : List Word}
    (h : shrink S A used = .ok R) : R.system.Deterministic := by
  obtain ⟨D, -, hminimal⟩ := Except.bind_eq_ok.1 h
  exact (Automaton.ordered_minimize hminimal).deterministic

/-- Removing used words keeps the buckets deterministic. -/
theorem deterministic_removeUsed {used : List Word} {x : Unit} (hs : s.buckets.Deterministic)
    (h : removeUsed used length s = (.ok x, t)) : t.buckets.Deterministic := by
  rcases removeUsed_cases h with ⟨rfl, -⟩ | ⟨A, R, hA, hR, -, hset⟩
  · exact hs
  · exact hset ▸ deterministic_set hs hA (deterministic_shrink hR)

section

variable [RandomSource ρ]

/-- What a draw of distinct words leaves is deterministic: it is the slot itself, or a difference
that was minimized. -/
theorem deterministic_rest {A : Automaton} {retries : Nat} {sample : Sample}
    {sampler sampler' : Sampler ρ} (hA : A.system.Deterministic)
    (h : Sampler.sampleDistinct A n retries sampler = (.ok sample, sampler')) :
    sample.rest.system.Deterministic := by
  obtain ⟨-, -, hrest⟩ := Sampler.sampleDistinct_eq_ok h
  rcases hrest with ⟨hrest, -⟩ | ⟨batch, hbatch, -⟩
  · rwa [hrest]
  · exact deterministic_shrink (S := A.alphabet) hbatch

/-- Drawing with duplicates keeps the buckets deterministic. -/
theorem deterministic_duplicatesAt {shrinking : Bool} {k : Nat × Verdict} {es : List Example}
    (hs : s.buckets.Deterministic) (h : duplicatesAt n shrinking k.1 k.2 s = (.ok es, t)) :
    t.buckets.Deterministic := by
  rcases duplicatesAt_cases h with
    ⟨-, -, rfl⟩ | ⟨A, drawn, sampler, hA, -, -, -, ⟨-, hkept⟩ | ⟨-, R, hR, hset⟩⟩
  · exact hs
  · rwa [hkept]
  · exact hset ▸ deterministic_set hs hA (deterministic_shrink hR)

theorem deterministic_distinctAt {k : Nat × Verdict} {es : List Example}
    (hs : s.buckets.Deterministic) (h : distinctAt n k.1 k.2 s = (.ok es, t)) :
    t.buckets.Deterministic := by
  rcases distinctAt_cases h with ⟨-, -, rfl⟩ | ⟨A, sample, sampler, hA, hsample, -, -, hset⟩
  · exact hs
  · exact hset ▸ deterministic_set hs hA (deterministic_rest (hs k.1 k.2 A hA) hsample)

theorem deterministic_pairsAt (hs : s.buckets.Deterministic)
    (h : pairsAt n pairs length s = (.ok pairs', t)) : t.buckets.Deterministic := by
  rcases pairsAt_cases h with ⟨-, -, rfl⟩ | ⟨A, sample, sampler, u, hA, hsample, hset, -, hfold⟩
  · exact hs
  · refine foldlM_induction (P := fun _ _ u => u.buckets.Deterministic) ?_ ?_ hfold
    · intro _ p _ pairs pairs' u u' _ hu hpair
      obtain ⟨-, -, -, -, -, hkept, -⟩ := pairUp_attempt hpair
      rwa [hkept]
    · exact hset ▸ deterministic_set hs hA (deterministic_rest (hs length .accept A hA) hsample)

/-- A call leaves deterministic buckets. -/
theorem Call.deterministic {call : Call} {split : Split} (hs : s.buckets.Deterministic)
    (h : call.perform s = (.ok split, t)) : t.buckets.Deterministic := by
  -- each activity replaces buckets one at a time, by minimized automata only
  cases call with
  | withDuplicates name n shrinking =>
    obtain ⟨parts, -, hparts⟩ := withDuplicates_eq_ok h
    refine mapM_invariant (P := fun u => u.buckets.Deterministic)
      (fun _ _ _ _ hu hpart => ?_) hs hparts
    exact deterministic_duplicatesAt hu hpart
  | withoutDuplicates name n =>
    obtain ⟨parts, -, hparts⟩ := withoutDuplicates_eq_ok h
    refine mapM_invariant (P := fun u => u.buckets.Deterministic)
      (fun _ _ _ _ hu hpart => ?_) hs hparts
    exact deterministic_distinctAt hu hpart
  | adversarial name n =>
    obtain ⟨pairs, u, hpairs, hremove, -⟩ := adversarial_eq_ok h
    refine forM_induction (P := fun _ u => u.buckets.Deterministic)
      (fun _ _ _ _ hu hstep => deterministic_removeUsed hu hstep) ?_ hremove
    exact foldlM_induction (P := fun _ _ u => u.buckets.Deterministic)
      (fun _ _ _ _ _ _ _ _ hu hstep => deterministic_pairsAt hu hstep) hs hpairs

end

/-! ## Buckets -/

/-- The buckets of a target after any number of successful calls, by whatever generators over
whatever alphabets. -/
inductive Reached (target : Automaton) (least most : Nat) : LengthBuckets → Prop
  | build {B : LengthBuckets} (h : LengthBuckets.build target least most = .ok B) :
      Reached target least most B
  | perform {ρ : Type} [RandomSource ρ] {call : Call} {split : Split} {g g' : Generator ρ}
      {B B' : LengthBuckets} (hB : Reached target least most B)
      (hcall : call.perform ⟨g, B⟩ = (.ok split, ⟨g', B'⟩)) :
      Reached target least most B'

variable {B : LengthBuckets}

/-- Calls take words out of the buckets and put none in, so these stay legal. -/
theorem Reached.legal (h : Reached target least most B) : B.Legal target least most := by
  induction h with
  | build h => exact legal_build h
  | perform _ hcall ih =>
    obtain ⟨ps, -, htakes⟩ := Call.takes ih hcall
    exact ih.shrinks htakes.shrinks

/-- The buckets are deterministic after any number of calls. -/
theorem Reached.deterministic (h : Reached target least most B) : B.Deterministic := by
  induction h with
  | build h => exact fun _ _ _ hA => deterministic_build h hA
  | perform _ hcall ih => exact Call.deterministic ih hcall

/-! ## Generators -/

/-- The generator is over the alphabet of the target, and set up as generators are. Its random
numbers, its retries and the warnings so far may be any. -/
structure Ready (target : Automaton) (g : Generator ρ) : Prop where
  symbols : g.alphabet.symbols = target.alphabet.symbols
  edits : EditTransducers.build g.alphabet = .ok g.edits
  bound : g.sampler.maxLength = 2147483647

/-- A generator with the same setup is as ready. -/
theorem Ready.of_setup (h : Ready target s.generator) (hsetup : t.setup = s.setup) :
    Ready target t.generator := by
  obtain ⟨halphabet, hedits, -, hbound⟩ := Setup.mk.inj hsetup
  exact ⟨by rw [halphabet, h.symbols], by rw [halphabet, hedits, h.edits], hbound.trans h.bound⟩

/-- No call changes how its generator is set up, whether it succeeds or not. -/
theorem Ready.perform [RandomSource ρ] (h : Ready target s.generator) (call : Call) :
    Ready target (call.perform s).2.generator := by
  refine h.of_setup ?_
  cases call with
  | withDuplicates name n shrinking => exact keepsSetup_withDuplicates name n shrinking s
  | withoutDuplicates name n => exact keepsSetup_withoutDuplicates name n s
  | adversarial name n => exact keepsSetup_adversarial name n s

end Session

end FiniteState
