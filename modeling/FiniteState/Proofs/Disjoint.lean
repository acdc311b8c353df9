import Mathlib
import FiniteState.Proofs.Edit
import FiniteState.Proofs.Pairing

/-!
# Disjoint splits

Splits that are drawn from the same buckets one after the other, by whatever generators and in
whatever order, are labelled correctly, and no word that was removed by one of them comes back in a
later one.

* `Session.Call.takes`: what a single call does.
* `Session.History.correct`: what every call of a history does.
* `Session.History.pairwise`: what calls of a history have to do with each other.
-/

namespace FiniteState

open LengthBuckets

namespace Session

/-! ## Calls -/

/-- A split that can be asked for. -/
inductive Call
  | withDuplicates (name : String) (n : Nat) (shrinking : Bool)
  | withoutDuplicates (name : String) (n : Nat)
  | adversarial (name : String) (n : Nat)
deriving DecidableEq, Repr

namespace Call

variable {ρ : Type} [RandomSource ρ]

/-- Draws the split. -/
def perform : Call → Drawing ρ Split
  | withDuplicates name n shrinking => Session.withDuplicates name n shrinking
  | withoutDuplicates name n => Session.withoutDuplicates name n
  | adversarial name n => Session.adversarial name n

/-- Whether the words of the split are removed from the buckets. -/
def removes : Call → Bool
  | withDuplicates _ _ shrinking => shrinking
  | withoutDuplicates .. => true
  | adversarial .. => true

/-- Whether the words of the split are distinct. -/
def distinct : Call → Bool
  | withDuplicates .. => false
  | withoutDuplicates .. => true
  | adversarial .. => true

variable {target : Automaton} {least most : Nat} {s t : Session ρ}

/-- A call takes words of the buckets, and removes them and keeps them apart as its kind says. -/
theorem takes {call : Call} {split : Split} (hlegal : s.buckets.Legal target least most)
    (h : call.perform s = (.ok split, t)) :
    ∃ ps, split.examples = ps.map (exampleOf s.generator.alphabet)
      ∧ Takes call.removes call.distinct s t ps := by
  cases call with
  | withDuplicates name n shrinking => exact withDuplicates_takes hlegal h
  | withoutDuplicates name n => exact withoutDuplicates_takes hlegal h
  | adversarial name n => exact adversarial_takes hlegal h

end Call

/-! ## Outcomes -/

/-- A call with the split it drew, and the buckets before and after it. -/
structure Outcome where
  call : Call
  split : Split
  before : LengthBuckets
  after : LengthBuckets

/-- Successful calls on the same buckets, one after the other. Every one of them may be by another
generator, in any state. -/
inductive History (S : Alphabet) : LengthBuckets → List Outcome → Prop
  | nil (B : LengthBuckets) : History S B []
  | cons {ρ : Type} [RandomSource ρ] {call : Call} {split : Split} {g g' : Generator ρ}
      {B B' : LengthBuckets} {rest : List Outcome} (hsymbols : g.alphabet.symbols = S.symbols)
      (hcall : call.perform ⟨g, B⟩ = (.ok split, ⟨g', B'⟩)) (hrest : History S B' rest) :
      History S B (⟨call, split, B, B'⟩ :: rest)

/-- The examples of a split are labelled by the target and of admissible length, and what is left in
the buckets was there before and belongs there. -/
structure Outcome.Correct (target : Automaton) (least most : Nat) (o : Outcome) : Prop where
  labelled : ∀ e ∈ o.split.examples, ∃ w, target.alphabet.parseWord e.word = .ok w
    ∧ (e.verdict = .accept ↔ target.accepts w = true) ∧ least ≤ w.length ∧ w.length ≤ most
  isSome_iff : ∀ length v,
    (o.after.get? length v).isSome = true ↔ least ≤ length ∧ length ≤ most
  left : ∀ length v A', o.after.get? length v = some A' →
    ∃ A, o.before.get? length v = some A
      ∧ ∀ w, A'.accepts w = true → A.accepts w = true ∧ Belongs target length v w
  distinct : o.call.distinct = true → (o.split.examples.map (·.word)).Nodup

variable {ρ : Type} {target : Automaton} {least most : Nat} {g g' : Generator ρ} {call : Call}
  {split : Split} {B B' : LengthBuckets} {outcomes : List Outcome}

/-- No word belongs to both verdicts. -/
theorem verdict_unique {length : Nat} {v v' : Verdict} {w : Word}
    (h : Belongs target length v w) (h' : Belongs target length v' w) : v = v' := by
  have hiff : v = .accept ↔ v' = .accept := h.2.2.symm.trans h'.2.2
  cases v with
  | accept => exact (hiff.1 rfl).symm
  | reject =>
    cases v' with
    | accept => exact hiff.2 rfl
    | reject => rfl

/-- A written word stands for one word with one verdict. -/
theorem eq_of_render_eq {p q : Verdict × Word} (hp : Belongs target p.2.length p.1 p.2)
    (hq : Belongs target q.2.length q.1 q.2)
    (h : target.alphabet.render p.2 = target.alphabet.render q.2) : p = q := by
  obtain ⟨v, w⟩ := p
  obtain ⟨v', w'⟩ := q
  obtain rfl : w = w' := Alphabet.render_inj hp.1 hq.1 h
  obtain rfl : v = v' := verdict_unique hp hq
  rfl

section

variable [RandomSource ρ]

/-- The words of a successful call, in terms of the target's alphabet. -/
theorem exists_takes (hlegal : B.Legal target least most)
    (hsymbols : g.alphabet.symbols = target.alphabet.symbols)
    (hcall : call.perform ⟨g, B⟩ = (.ok split, ⟨g', B'⟩)) :
    ∃ ps, split.examples = ps.map (exampleOf target.alphabet)
      ∧ Takes call.removes call.distinct ⟨g, B⟩ ⟨g', B'⟩ ps := by
  obtain ⟨ps, hexamples, htakes⟩ := Call.takes (s := ⟨g, B⟩) hlegal hcall
  refine ⟨ps, ?_, htakes⟩
  rw [hexamples]
  exact List.map_congr_left fun p _ => by
    rw [exampleOf, exampleOf, Alphabet.render_congr hsymbols]

/-- Whatever the generator, a successful call on legal buckets is correct. -/
theorem outcome_correct (hlegal : B.Legal target least most)
    (hsymbols : g.alphabet.symbols = target.alphabet.symbols)
    (hcall : call.perform ⟨g, B⟩ = (.ok split, ⟨g', B'⟩)) :
    Outcome.Correct target least most ⟨call, split, B, B'⟩ := by
  obtain ⟨ps, hexamples, htakes⟩ := exists_takes hlegal hsymbols hcall
  have hlegal' : B'.Legal target least most := hlegal.shrinks htakes.shrinks
  have hbelongs : ∀ p ∈ ps, Belongs target p.2.length p.1 p.2 := fun p hp =>
    hlegal.belongs_of_held (htakes.held p hp)
  constructor
  case labelled =>
    intro e he
    rw [hexamples] at he
    obtain ⟨⟨v, w⟩, hp, rfl⟩ := List.mem_map.1 he
    obtain ⟨hover, -, hverdict⟩ := hbelongs _ hp
    -- the bucket that it was taken from is one of the range
    obtain ⟨A, hA, -⟩ := htakes.held _ hp
    exact ⟨w, Alphabet.parseWord_render hover, hverdict.symm,
      (hlegal.isSome_iff w.length v).1 (Option.isSome_of_eq_some hA)⟩
  case isSome_iff => exact hlegal'.isSome_iff
  case left =>
    intro length v A' hA'
    obtain ⟨A, hA, hsubset⟩ := htakes.shrinks.exists_of_get? hA'
    refine ⟨A, hA, fun w hw => ?_⟩
    obtain ⟨y, hy⟩ := Automaton.accepts_iff_exists_relates.1 hw
    exact ⟨Automaton.accepts_iff_exists_relates.2 ⟨y, hsubset w y hy⟩,
      (hlegal'.belongs length v A' hA' w y hy).2⟩
  case distinct =>
    intro hdistinct
    show (split.examples.map (·.word)).Nodup
    rw [hexamples, List.map_map]
    exact (htakes.nodup hdistinct).map_on fun p hp q hq heq =>
      eq_of_render_eq (hbelongs p hp) (hbelongs q hq) heq

end

/-! ## Histories

The buckets after a call are the buckets that the later calls draw from. The first call is compared
with all later ones, and these are compared by induction. -/

/-- Every call of a history is correct. -/
theorem History.correct (h : History target.alphabet B outcomes)
    (hlegal : B.Legal target least most) {o : Outcome} (ho : o ∈ outcomes) :
    o.Correct target least most := by
  induction h with
  | nil => exact absurd ho List.not_mem_nil
  | cons hsymbols hcall _ ih =>
    rcases List.mem_cons.1 ho with rfl | ho
    · exact outcome_correct hlegal hsymbols hcall
    · obtain ⟨_, -, htakes⟩ := exists_takes hlegal hsymbols hcall
      exact ih (hlegal.shrinks htakes.shrinks) ho

/-- The words of a call of a history were in the buckets at its beginning. -/
theorem History.exists_held (h : History target.alphabet B outcomes)
    (hlegal : B.Legal target least most) {o : Outcome} (ho : o ∈ outcomes) {e : Example}
    (he : e ∈ o.split.examples) :
    ∃ p : Verdict × Word, e = exampleOf target.alphabet p ∧ B.Held p.1 p.2 := by
  induction h with
  | nil => exact absurd ho List.not_mem_nil
  | cons hsymbols hcall _ ih =>
    obtain ⟨ps, hexamples, htakes⟩ := exists_takes hlegal hsymbols hcall
    rcases List.mem_cons.1 ho with rfl | ho
    · obtain ⟨p, hp, rfl⟩ := List.mem_map.1 (hexamples ▸ he)
      exact ⟨p, rfl, htakes.held p hp⟩
    · obtain ⟨p, hp, hheld⟩ := ih (hlegal.shrinks htakes.shrinks) ho
      exact ⟨p, hp, hheld.of_shrinks htakes.shrinks⟩

/-- A word of a call that removes its words is not in the buckets afterwards, and later calls take
their words from what is left of those. -/
theorem History.pairwise (h : History target.alphabet B outcomes)
    (hlegal : B.Legal target least most) :
    outcomes.Pairwise fun o o' => o.call.removes = true →
      ∀ e ∈ o.split.examples, ∀ e' ∈ o'.split.examples, e.word ≠ e'.word := by
  induction h with
  | nil => exact .nil
  | cons hsymbols hcall hrest ih =>
    obtain ⟨ps, hexamples, htakes⟩ := exists_takes hlegal hsymbols hcall
    have hlegal' := hlegal.shrinks htakes.shrinks
    refine .cons (fun o' ho' hremoves e he e' he' heq => ?_) (ih hlegal')
    obtain ⟨p, hp, rfl⟩ := List.mem_map.1 (hexamples ▸ he)
    obtain ⟨q, rfl, hq⟩ := hrest.exists_held hlegal' ho' he'
    obtain rfl : p = q := eq_of_render_eq (hlegal.belongs_of_held (htakes.held p hp))
      (hlegal'.belongs_of_held hq) heq
    exact htakes.gone hremoves p hp hq

/-- Splits drawn from the buckets of a target are labelled correctly, and words that one of them
removes do not occur in later ones. -/
theorem history_disjoint (hbuild : LengthBuckets.build target least most = .ok B)
    (h : History target.alphabet B outcomes) :
    (∀ o ∈ outcomes, o.Correct target least most)
      ∧ outcomes.Pairwise fun o o' => o.call.removes = true →
          ∀ e ∈ o.split.examples, ∀ e' ∈ o'.split.examples, e.word ≠ e'.word :=
  ⟨fun _ ho => h.correct (legal_build hbuild) ho, h.pairwise (legal_build hbuild)⟩

/-! ## Two splits of a small target -/

section Example

open EditTransducers

/-- The acceptor of the word a, over the single letter a. -/
def wordA : Automaton := .word onlyA [⟨0⟩]

/-- The words of the least lengths: the empty word, a and aa. -/
def bucketsOfA : LengthBuckets where
  first := 0
  buckets := #[⟨.empty onlyA, .epsilon onlyA⟩, ⟨wordA, .empty onlyA⟩,
    ⟨.empty onlyA, .word onlyA [⟨0⟩, ⟨0⟩]⟩]

/-- What is left when a and aa have been paired. -/
def unpaired : LengthBuckets where
  first := 0
  buckets := #[⟨.empty onlyA, .epsilon onlyA⟩, ⟨.empty onlyA, .empty onlyA⟩,
    ⟨.empty onlyA, .empty onlyA⟩]

/-- A generator over the single letter that has recorded some shortfalls. -/
def generatorOnlyA (state : UInt64) (shortfalls : Nat) : Generator where
  alphabet := onlyA
  sampler := { random := ⟨state⟩ }
  edits := editsOnlyA
  retries := Sampler.defaultRetries
  warnings := List.replicate shortfalls (.insufficientSamples 1 0)

/-- An adversarial pair, then a word of those that it leaves. -/
def pairThenRest : List Outcome :=
  [⟨.adversarial "Test3.txt" 1, ⟨"Test3.txt", [⟨"a", .accept⟩, ⟨"aa", .reject⟩]⟩, bucketsOfA,
      unpaired⟩,
    ⟨.withDuplicates "dup_t.txt" 1 false, ⟨"dup_t.txt", [⟨"", .reject⟩]⟩, unpaired, unpaired⟩]

theorem build_bucketsOfA : LengthBuckets.build wordA 0 2 = .ok bucketsOfA := by cbv

/-- The pairs of the first split: a with aa, and the skip of the other lengths. -/
theorem pairsAt_bucketsOfA :
    bucketsOfA.lengths.foldlM (pairsAt 1) {} ⟨generatorOnlyA 2 0, bucketsOfA⟩
      = (.ok { examples := [⟨"a", .accept⟩, ⟨"aa", .reject⟩], used := [[⟨0⟩, ⟨0⟩]] },
          ⟨generatorOnlyA 1099250820157461472 2, bucketsOfA.set 1 .accept (.empty onlyA)⟩) := by
  cbv

theorem removeUsed_bucketsOfA :
    bucketsOfA.lengths.forM (removeUsed [[⟨0⟩, ⟨0⟩]])
        ⟨generatorOnlyA 1099250820157461472 2, bucketsOfA.set 1 .accept (.empty onlyA)⟩
      = (.ok (), ⟨generatorOnlyA 1099250820157461472 2, unpaired⟩) := by
  cbv

theorem adversarial_bucketsOfA :
    adversarial "Test3.txt" 1 ⟨generatorOnlyA 2 0, bucketsOfA⟩
      = (.ok ⟨"Test3.txt", [⟨"a", .accept⟩, ⟨"aa", .reject⟩]⟩,
          ⟨generatorOnlyA 1099250820157461472 2, unpaired⟩) :=
  get_bind_eq_ok.2 (ExceptT.bind_eq_ok.2 ⟨_, _, pairsAt_bucketsOfA,
    ExceptT.bind_eq_ok.2 ⟨_, _, removeUsed_bucketsOfA, ExceptT.pure_eq_ok.2 ⟨rfl, rfl⟩⟩⟩)

theorem withDuplicates_unpaired :
    withDuplicates "dup_t.txt" 1 false ⟨generatorOnlyA 1099250820157461472 2, unpaired⟩
      = (.ok ⟨"dup_t.txt", [⟨"", .reject⟩]⟩,
          ⟨generatorOnlyA 4356916635801963653 2, unpaired⟩) := by
  cbv

theorem history_pairThenRest : History onlyA bucketsOfA pairThenRest :=
  .cons rfl adversarial_bucketsOfA (.cons rfl withDuplicates_unpaired (.nil _))

/-- Both splits are correct, and the second repeats no word of the first. -/
theorem correct_pairThenRest :
    (∀ o ∈ pairThenRest, o.Correct wordA 0 2)
      ∧ pairThenRest.Pairwise fun o o' => o.call.removes = true →
          ∀ e ∈ o.split.examples, ∀ e' ∈ o'.split.examples, e.word ≠ e'.word :=
  history_disjoint build_bucketsOfA history_pairThenRest

end Example

end Session

end FiniteState
