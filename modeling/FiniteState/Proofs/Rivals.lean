import FiniteState.Proofs.Ceiling
import FiniteState.Proofs.Pairing
import FiniteState.Proofs.Span

/-!
# Rivals

The rivals of an accepted word are the rejected words at distance one that are left in the buckets
for its length and the two lengths next to it. Their acceptor is a union of intersections of the
word's ball with the buckets, without the words in use. Its language is exact, and its paths are
short, so that a draw from it finds a rival unless all of them are in use.

* `accepts_freshRivals_iff`: the rivals that are not in use.
* `spans_freshRivals`: the length of the paths.
* `pick_freshRivals`: what is drawn.
-/

namespace FiniteState

open LengthBuckets

theorem Word.length_le_of_distance_eq_one {w v : Word} (h : Word.distance w v = 1) :
    v.length ≤ w.length + 1 := by
  cases Word.distance_eq_one_iff.1 h <;> simp only [List.length_append, List.length_cons] <;> omega

/-- Every bucket is deterministic. -/
def LengthBuckets.Deterministic (B : LengthBuckets) : Prop :=
  ∀ length v A, B.get? length v = some A → A.system.Deterministic

namespace Session

variable {ρ : Type} {S : Alphabet} {B B' : LengthBuckets} {g : Generator ρ}
  {ball C D : Automaton} {lengths : List Nat} {used : List Word} {p q : Word} {n : Nat}

/-- The second word is left among the rejected words for the length of the first word, or for a
length next to it, and lies at distance one from it. -/
def Rival (B : LengthBuckets) (p q : Word) : Prop :=
  Word.distance p q = 1
    ∧ ∃ length, (length + 1 = p.length ∨ length = p.length ∨ length = p.length + 1)
      ∧ ∃ A, B.get? length .reject = some A ∧ A.accepts q = true

/-- The neighbouring lengths are the length itself and those that differ by one. Zero has none
below it. -/
theorem mem_nearLengths_iff {length n : Nat} :
    length ∈ nearLengths n ↔ length + 1 = n ∨ length = n ∨ length = n + 1 := by
  unfold nearLengths
  split <;> simp only [List.mem_cons, List.not_mem_nil, or_false] <;> omega

theorem length_nearLengths_le (n : Nat) : (nearLengths n).length ≤ 3 := by
  unfold nearLengths
  split <;> simp

/-! ## All rivals -/

/-- The rivals are the words of the ball that some bucket of rejected words still holds. -/
theorem accepts_rivals_iff (h : rivals S B ball lengths = .ok C) :
    C.accepts q = true ↔ ball.accepts q = true
      ∧ ∃ length ∈ lengths, ∃ A, B.get? length .reject = some A ∧ A.accepts q = true := by
  refine rivals_induction (P := fun done C => C.accepts q = true ↔ ball.accepts q = true
    ∧ ∃ length ∈ done, ∃ A, B.get? length .reject = some A ∧ A.accepts q = true) ?_ ?_ h
  · rw [Automaton.accepts_iff_exists_relates]
    simp [Automaton.not_relates_empty]
  · rintro done length D C hD (⟨hnone, rfl⟩ | ⟨A, near, hA, hnear, hunion⟩)
    · rw [hD]
      simp [or_and_right, exists_or, hnone]
    · rw [Automaton.accepts_union_iff hunion, hD, Automaton.accepts_intersection_iff hnear]
      simp [or_and_right, exists_or, hA, and_or_left]

/-- Each union adds one transition to the paths of the rivals. -/
theorem spans_rivals (hball : ball.Spans n) (hB : B.Deterministic)
    (h : rivals S B ball lengths = .ok C) : C.Spans (n + lengths.length) := by
  refine rivals_induction (P := fun done C => C.Spans (n + done.length))
    (Automaton.spans_empty S _) ?_ h
  rintro done length D C hD (⟨-, rfl⟩ | ⟨A, near, hA, hnear, hunion⟩)
  · exact hD.mono (by rw [List.length_append]; omega)
  · have hreading : A.Reading := Automaton.reading_of_deterministic
      (Automaton.intersection_eq_ok hnear).2.1 (hB length .reject A hA)
    have hspans := hD.union ((hball.intersection hreading hnear).mono (Nat.le_add_right n _)) hunion
    rwa [List.length_append, List.length_singleton, ← Nat.add_assoc]

/-! ## Rivals not in use -/

/-- The rivals depend on the rejected words in the buckets, and on how the generator is set up. -/
theorem freshRivals_congr {g' : Generator ρ} (halphabet : g'.alphabet = g.alphabet)
    (hedits : g'.edits = g.edits) (h : ∀ length, B'.get? length .reject = B.get? length .reject)
    (used : List Word) (length : Nat) (p : Word) :
    freshRivals g' B' used length p = freshRivals g B used length p := by
  simp only [freshRivals, rivals, halphabet, hedits, h]

section

variable {target : Automaton} {least most : Nat}

/-- The words of legal buckets are over the alphabet of the target. -/
theorem Rival.over (hlegal : B.Legal target least most) (h : Rival B p q) :
    q.Over target.alphabet := by
  obtain ⟨-, length, -, A, hA, haccepts⟩ := h
  exact (hlegal.belongs length .reject A hA q q (hlegal.relates_of_accepts hA haccepts)).2.1

variable (hlegal : B.Legal target least most)
  (hsymbols : g.alphabet.symbols = target.alphabet.symbols)
  (hE : EditTransducers.build g.alphabet = .ok g.edits) (hp : p.Over g.alphabet)
  (h : freshRivals g B used p.length p = .ok C)

include hlegal hsymbols hE hp h

/-- The fresh rivals are the rivals that were not used. -/
theorem accepts_freshRivals_iff : C.accepts q = true ↔ Rival B p q ∧ q ∉ used := by
  obtain ⟨ball, D, hball, hD, hC⟩ := freshRivals_eq_ok h
  have hover : Rival B p q → q.Over g.alphabet := fun hrival =>
    (Word.over_congr hsymbols).2 (hrival.over hlegal)
  -- the ball has words over Σ only, but so have the buckets
  have hrivals : D.accepts q = true ↔ Rival B p q := by
    rw [← and_iff_right_of_imp hover, accepts_rivals_iff hD,
      EditTransducers.accepts_ball_iff hE hp hball, and_assoc]
    simp only [mem_nearLengths_iff]
    rfl
  -- without words in use nothing is taken away
  rcases hC with ⟨rfl, rfl⟩ | hC
  · rw [hrivals]
    exact (and_iff_left List.not_mem_nil).symm
  · rw [Automaton.accepts_iff_exists_relates]
    simp only [Automaton.relates_difference_words_iff hC, hrivals]
    constructor
    · rintro ⟨_, -, hrival, -, hunused⟩
      exact ⟨hrival, hunused⟩
    · rintro ⟨hrival, hunused⟩
      exact ⟨q, rfl, hrival, hover hrival, hunused⟩

omit hlegal hsymbols in
/-- The paths of the fresh rivals are at most four transitions longer than the word. -/
theorem spans_freshRivals (hB : B.Deterministic) : C.Spans (p.length + 4) := by
  obtain ⟨ball, D, hball, hD, hC⟩ := freshRivals_eq_ok h
  have hproper : ball.Proper g.alphabet := by
    have hyields := EditTransducers.proper_ball hE p
    rwa [hball] at hyields
  obtain ⟨marked, -, hball'⟩ := Except.bind_eq_ok.1 hball
  obtain ⟨edited, -, hminimal⟩ := Except.bind_eq_ok.1 hball'
  have hreading : ball.Reading := Automaton.reading_of_deterministic hproper.isAcceptor
    (Automaton.ordered_minimize hminimal).deterministic
  -- a word of the ball is longer by one at most, and each of at most three unions adds a step
  have hspans : D.Spans (p.length + 1 + (nearLengths p.length).length) := by
    refine spans_rivals (hreading.spans fun w hw => ?_) hB hD
    exact Word.length_le_of_distance_eq_one ((EditTransducers.accepts_ball_iff hE hp hball).1 hw).2
  have hspans : D.Spans (p.length + 4) := hspans.mono (by
    have := length_nearLengths_le p.length
    omega)
  rcases hC with ⟨-, rfl⟩ | hC
  · exact hspans
  · exact hspans.difference hC

/-- What is drawn for an accepted word is a rival that is not in use, and one is drawn unless all
rivals are in use. -/
theorem pick_freshRivals [RandomSource ρ] (hB : B.Deterministic) {s s' : Sampler ρ}
    (hbound : p.length + 4 ≤ s.maxLength) {found : Option Word}
    (hpick : Sampler.pick C s = (found, s')) :
    (∀ q, found = some q → Rival B p q ∧ q ∉ used)
      ∧ (found = none ↔ ∀ q, Rival B p q → q ∈ used) := by
  have haccepts (q : Word) := accepts_freshRivals_iff (q := q) hlegal hsymbols hE hp h
  obtain ⟨hsome, hnone⟩ :=
    Sampler.pick_spec ((spans_freshRivals hE hp h hB).mono hbound) hpick
  have hfresh : ∀ q, found = some q → Rival B p q ∧ q ∉ used := fun q hq => by
    obtain ⟨x, hx⟩ := hsome q hq
    obtain rfl := (freshRivals_spec h hx).1
    exact (haccepts x).1 (Automaton.accepts_iff_exists_relates.2 ⟨x, hx⟩)
  refine ⟨hfresh, fun hfound q hrival => ?_, fun hused => ?_⟩
  · -- a rival that is not in use could have been drawn
    by_contra hunused
    obtain ⟨y, hy⟩ := Automaton.accepts_iff_exists_relates.1 ((haccepts q).2 ⟨hrival, hunused⟩)
    exact hnone hfound q y hy
  · cases found with
    | none => rfl
    | some q =>
      obtain ⟨hrival, hunused⟩ := hfresh q rfl
      exact absurd (hused q hrival) hunused

end

end Session

end FiniteState
