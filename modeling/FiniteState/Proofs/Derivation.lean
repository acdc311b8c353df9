import FiniteState.Automaton.Listing
import FiniteState.Language.Catalog
import FiniteState.Proofs.Buckets
import FiniteState.Proofs.Chain
import FiniteState.Proofs.Edit
import FiniteState.Proofs.Labels
import FiniteState.Proofs.Lookup

/-!
# Automata obtained by operations

An automaton is obtained from sources, which are built from alphabets, words and texts, by any
number of operations. Whatever has been obtained is well formed, is an acceptor if its sources are,
and uses no symbols but those of its sources and of Σ.

* `Construction`, `Obtained`: one operation, and any number of them.
* `Construction.allLabels`: what one operation hands on from its operands.
* `Obtained.allLabels`: what any number of them hands on from the sources.
* `obtained_wellFormed`: both for acceptors and for the symbols in use.
-/

namespace FiniteState

open Automaton

/-! ## One operation -/

/-- An operation with its operands. -/
inductive Construction
  | union (A B : Automaton)
  | unionAll (S : Alphabet) (As : List Automaton)
  | concat (A B : Automaton)
  | star (A : Automaton)
  | plus (A : Automaton)
  | power (A : Automaton) (least : Nat) (most : Option Nat)
  | intersection (A B : Automaton)
  | complement (A : Automaton)
  | difference (A B : Automaton)
  | compose (A B : Automaton)
  | project (A : Automaton) (tape : Tape)
  | trim (A : Automaton)
  | removeEpsilon (A : Automaton)
  | determinize (A : Automaton)
  | minimize (A : Automaton)

namespace Construction

variable {C : Automaton} {P : Label × Label → Prop}

/-- What the operation is applied to. -/
def operands : Construction → List Automaton
  | union A B | concat A B | intersection A B | difference A B | compose A B => [A, B]
  | unionAll _ As => As
  | star A | plus A | power A _ _ | complement A | project A _ | trim A | removeEpsilon A
  | determinize A | minimize A => [A]

/-- What comes of the operation. -/
def result : Construction → Except Error Automaton
  | union A B => A.union B
  | unionAll S As => Automaton.unionAll S As
  | concat A B => A.concat B
  | star A => A.star
  | plus A => A.plus
  | power A least most => A.power least most
  | intersection A B => A.intersection B
  | complement A => A.complement
  | difference A B => A.difference B
  | compose A B => A.compose B
  | project A tape => .ok (A.project tape)
  | trim A => .ok A.trim
  | removeEpsilon A => A.removeEpsilon
  | determinize A => A.determinize
  | minimize A => A.minimize

/-- Whether the operation is relative to the words over Σ. -/
def isRelative : Construction → Bool
  | complement _ | difference _ _ => true
  | _ => false

/-- The operands and the result are over the same symbols. -/
theorem symbols_eq (c : Construction) (h : c.result = .ok C) :
    ∀ A ∈ c.operands, A.alphabet.symbols = C.alphabet.symbols := by
  have one : ∀ {A : Automaton}, C.alphabet = A.alphabet →
      ∀ D ∈ [A], D.alphabet.symbols = C.alphabet.symbols := by
    intro A hC D hD
    rw [List.mem_singleton.1 hD, hC]
  have two : ∀ {A B : Automaton}, A.alphabet.symbols = B.alphabet.symbols →
      C.alphabet = A.alphabet → ∀ D ∈ [A, B], D.alphabet.symbols = C.alphabet.symbols := by
    intro A B hsymbols hC D hD
    rw [hC]
    rcases List.mem_cons.1 hD with rfl | hD
    · rfl
    · rw [List.mem_singleton.1 hD, hsymbols]
  cases c with
  | union A B => exact two (union_eq_ok h).1 (alphabet_union h)
  | unionAll S As =>
    rw [alphabet_unionAll h]
    exact symbols_of_unionAll h
  | concat A B => exact two (concatWith_eq_ok h).1 (alphabet_concatWith h)
  | star A => exact one (alphabet_closureWith h)
  | plus A => exact one (alphabet_closureWith h)
  | power A least most => exact one (alphabet_power h)
  | intersection A B => exact two (intersection_compatible h) (alphabet_intersection h)
  | complement A => exact one (alphabet_complement h)
  | difference A B => exact two (difference_compatible h) (alphabet_difference h)
  | compose A B => exact two (compose_eq_ok h).1 (alphabet_compose h)
  | project A tape =>
    refine one ?_
    rw [← Except.ok.inj h]
    rfl
  | trim A =>
    refine one ?_
    simp [← Except.ok.inj h]
  | removeEpsilon A => exact one (alphabet_removeEpsilon h)
  | determinize A => exact one (alphabet_determinize h)
  | minimize A => exact one (alphabet_minimize h)

end Construction

/-- Every operation hands on a property of labels that silent labels have, that can be read through
a tape in the middle, and that does not tell the tapes apart. -/
structure Inherited (P : Label × Label → Prop) : Prop where
  silent : P silentLabels
  compose : ∀ a b c, P (a, b) → P (b, c) → P (a, c)
  project : ∀ l tape, P l → P (Tape.side l tape, Tape.side l tape)

/-- Every operation hands on that the two tapes carry the same label. -/
theorem inherited_copying : Inherited Copying where
  silent := copying_silent
  compose _ _ _ hab hbc := Eq.trans hab hbc
  project _ _ _ := rfl

/-- Every operation hands on a bound on the symbols. -/
theorem inherited_within (X : Symbol → Prop) : Inherited (Within X) where
  silent := within_silent X
  compose a b c hab hbc tape s hs := by
    -- each tape of the composition is a tape of one part
    cases tape with
    | input => exact hab .input s hs
    | output => exact hbc .output s hs
  project l tape hl tape' s hs := by
    refine hl tape s ?_
    cases tape' <;> exact hs

/-- An operation hands on what its operands have, if letters of Σ have it where the operation is
relative to Σ. -/
theorem Construction.allLabels {P : Label × Label → Prop} {C : Automaton} (c : Construction)
    (hP : Inherited P) (hoperands : ∀ A ∈ c.operands, A.AllLabels P)
    (hletters : c.isRelative = true → ∀ s, C.alphabet.contains s = true → P (letter s))
    (h : c.result = .ok C) : C.AllLabels P := by
  have hfirst : ∀ {A : Automaton} {As}, c.operands = A :: As → A.AllLabels P := by
    intro A As hA
    exact hoperands A (hA ▸ List.mem_cons_self)
  have hsecond : ∀ {A B : Automaton} {As}, c.operands = A :: B :: As → B.AllLabels P := by
    intro A B As hB
    exact hoperands B (hB ▸ List.mem_cons_of_mem _ List.mem_cons_self)
  -- one lemma for each operation says what its transitions are made from
  cases c with
  | union A B => exact (hfirst rfl).union (hsecond rfl) hP.silent h
  | unionAll S As => exact allLabels_unionAll hoperands hP.silent h
  | concat A B => exact (hfirst rfl).concatWith (hsecond rfl) hP.silent h
  | star A => exact (hfirst rfl).closureWith hP.silent h
  | plus A => exact (hfirst rfl).closureWith hP.silent h
  | power A least most => exact (hfirst rfl).power hP.silent h
  | intersection A B => exact (hfirst rfl).intersection_left hP.silent h
  | complement A =>
    rw [alphabet_complement h] at hletters
    exact allLabels_complement (hletters rfl) h
  | difference A B => exact (hfirst rfl).difference hP.silent h
  | compose A B => exact (hfirst rfl).compose (hsecond rfl) hP.compose h
  | project A tape =>
    obtain rfl := Except.ok.inj h
    exact (hfirst rfl).project tape fun l hl => hP.project l tape hl
  | trim A =>
    obtain rfl := Except.ok.inj h
    exact (hfirst rfl).trim
  | removeEpsilon A => exact (hfirst rfl).removeEpsilon h
  | determinize A => exact (hfirst rfl).determinize h
  | minimize A => exact (hfirst rfl).minimize h

/-! ## Buckets and samples -/

/-- The buckets of a target are over its alphabet. -/
theorem LengthBuckets.alphabet_build {target A : Automaton} {B : LengthBuckets}
    {least most length : Nat} {v : Verdict} (h : LengthBuckets.build target least most = .ok B)
    (hA : B.get? length v = some A) : A.alphabet = target.alphabet := by
  refine build_induction (I := fun exact => exact.alphabet = target.alphabet)
    (Q := fun A => A.alphabet = target.alphabet) ?_ ?_ ?_ h hA
  · intro P exact hP hexact
    have hsigma : (sigma target.alphabet).alphabet = target.alphabet := rfl
    grind
  · intro exact b hexact hb v
    obtain ⟨⟨P, hP, hpositive⟩, N, hN, hnegative⟩ := bucketOf_eq_ok hb
    cases v with
    | accept =>
      show b.positive.alphabet = target.alphabet
      grind
    | reject =>
      show b.negative.alphabet = target.alphabet
      grind
  · intro exact C longer hexact hC hlonger
    grind [concat]

/-- A bucket has labels of its target and letters of Σ. -/
theorem LengthBuckets.allLabels_build {P : Label × Label → Prop} {target A : Automaton}
    {B : LengthBuckets} {least most length : Nat} {v : Verdict} (hsilent : P silentLabels)
    (htarget : target.AllLabels P)
    (hletters : ∀ s, target.alphabet.contains s = true → P (letter s))
    (h : LengthBuckets.build target least most = .ok B) (hA : B.get? length v = some A) :
    A.AllLabels P := by
  have hsigma : (sigma target.alphabet).AllLabels P := allLabels_sigma hletters
  refine build_induction (I := AllLabels P) (Q := AllLabels P) ?_ ?_ ?_ h hA
  · exact fun Q exact hQ hexact => (hsigma.power hsilent hQ).minimize hexact
  · intro exact b hexact hb v
    obtain ⟨⟨Q, hQ, hpositive⟩, N, hN, hnegative⟩ := bucketOf_eq_ok hb
    cases v with
    | accept => exact (htarget.intersection_left hsilent hQ).minimize hpositive
    | reject => exact (hexact.difference hsilent hN).minimize hnegative
  · exact fun exact C longer hexact hC hlonger =>
      (hexact.concatWith hsigma hsilent hC).minimize hlonger

/-- Taking words away adds no label but the silent one. -/
theorem Automaton.AllLabels.without {P : Label × Label → Prop} {A R : Automaton} {ws : List Word}
    (hA : A.AllLabels P) (hsilent : P silentLabels) (h : A.without ws = .ok R) :
    R.AllLabels P := by
  obtain ⟨D, hD, hR⟩ := Except.bind_eq_ok.1 h
  exact (hA.difference hsilent hD).minimize hR

section

variable {ρ : Type} [RandomSource ρ] {A : Automaton} {n retries : Nat} {s s' : Sampler ρ}
  {sample : Sample}

/-- What is left of an acceptor after sampling is the acceptor itself, or a minimal difference. -/
theorem Sampler.rest_eq_or (h : sampleDistinct A n retries s = (.ok sample, s')) :
    sample.rest = A ∨ ∃ batch, A.without batch = .ok sample.rest := by
  rcases sampleDistinct_cases h with ⟨-, rfl, -⟩ | ⟨-, batch, -, -, -, -, hrest, -⟩
  · exact .inl rfl
  · exact .inr ⟨batch, hrest⟩

/-- The rest is over the same alphabet. -/
theorem Sampler.alphabet_rest (h : sampleDistinct A n retries s = (.ok sample, s')) :
    sample.rest.alphabet = A.alphabet := by
  rcases rest_eq_or h with hrest | ⟨batch, hrest⟩
  · rw [hrest]
  · exact alphabet_without hrest

/-- The rest has no labels of another kind. -/
theorem Sampler.allLabels_rest {P : Label × Label → Prop} (hA : A.AllLabels P)
    (hsilent : P silentLabels) (h : sampleDistinct A n retries s = (.ok sample, s')) :
    sample.rest.AllLabels P := by
  rcases rest_eq_or h with hrest | ⟨batch, hrest⟩
  · rwa [hrest]
  · exact hA.without hsilent hrest

end

/-! ## Any number of operations

What every single operation hands on, any number of them do, by induction on how an automaton was
obtained. -/

/-- The automata that are built from alphabets, symbols, words and texts. -/
inductive Source : Automaton → Prop
  | empty (S : Alphabet) : Source (.empty S)
  | epsilon (S : Alphabet) : Source (.epsilon S)
  | pair (S : Alphabet) (input output : Label) : Source (.pair S input output)
  | symbol (S : Alphabet) (s : Symbol) : Source (.symbol S s)
  | sigma (S : Alphabet) : Source (.sigma S)
  | sigmaStar (S : Alphabet) : Source (.sigmaStar S)
  | word (S : Alphabet) (w : Word) : Source (.word S w)
  | words (S : Alphabet) (ws : List Word) : Source (.words S ws)
  | acceptor {S : Alphabet} {text : String} {A : Automaton} (h : acceptor S text = .ok A) : Source A
  | build {S : Alphabet} {p : Blueprint} {A : Automaton} (h : p.build S = .ok A) : Source A
  | read {S : Alphabet} {text : String} {A : Automaton} (h : Listing.read S text = .ok A) : Source A
  | marking {S : Alphabet} {E : EditTransducers} (h : EditTransducers.build S = .ok E) :
      Source E.marking
  | editing {S : Alphabet} {E : EditTransducers} (h : EditTransducers.build S = .ok E) :
      Source E.editing
  | ball {S : Alphabet} {E : EditTransducers} {w : Word} {A : Automaton}
      (hE : EditTransducers.build S = .ok E) (h : E.ball w = .ok A) : Source A
  | catalog {S : Alphabet} {C : Catalog} {cls : LanguageClass} {index : Nat} {A : Automaton}
      (hC : Catalog.build S = .ok C) (h : C.get? cls index = some A) : Source A

/-- The automata that come of some sources by any number of successful operations. -/
inductive Obtained (sources : Automaton → Prop) : Automaton → Prop
  | source {A : Automaton} (hA : Source A) (h : sources A) : Obtained sources A
  | bucket {target A : Automaton} {B : LengthBuckets} {least most length : Nat} {v : Verdict}
      (h : Obtained sources target) (hB : LengthBuckets.build target least most = .ok B)
      (hA : B.get? length v = some A) : Obtained sources A
  | rest {ρ : Type} [RandomSource ρ] {A : Automaton} {n retries : Nat} {s s' : Sampler ρ}
      {sample : Sample} (h : Obtained sources A)
      (hsample : Sampler.sampleDistinct A n retries s = (.ok sample, s')) :
      Obtained sources sample.rest
  | step {c : Construction} {C : Automaton} (h : ∀ A ∈ c.operands, Obtained sources A)
      (hC : c.result = .ok C) : Obtained sources C

/-- What the sources have is handed on by all operations, if the letters of Σ have it as well. All
automata on the way are over the same symbols, so it does not matter which one's Σ it is. -/
theorem Obtained.allLabels {P : Label × Label → Prop} {sources : Automaton → Prop} {A : Automaton}
    (h : Obtained sources A) (hP : Inherited P) (hsources : ∀ B, sources B → B.AllLabels P)
    (hletters : ∀ s, A.alphabet.contains s = true → P (letter s)) : A.AllLabels P := by
  induction h with
  | source _ hA => exact hsources _ hA
  | bucket _ hB hA ih =>
    rw [LengthBuckets.alphabet_build hB hA] at hletters
    exact LengthBuckets.allLabels_build hP.silent (ih hletters) hletters hB hA
  | rest _ hsample ih =>
    rw [Sampler.alphabet_rest hsample] at hletters
    exact Sampler.allLabels_rest (ih hletters) hP.silent hsample
  | @step c C _ hC ih =>
    -- the operands may differ from the result in their limits, but not in their symbols
    refine c.allLabels hP (fun B hB => ih B hB fun s hs => hletters s ?_) (fun _ => hletters) hC
    rwa [← Alphabet.contains_congr (c.symbols_eq hC B hB)]

/-- One operation makes acceptors of acceptors, and brings in no symbols but letters of Σ, which
only complement and difference do. -/
theorem Construction.wellFormed (c : Construction) {C : Automaton} (h : c.result = .ok C) :
    ((∀ A ∈ c.operands, A.isAcceptor = true) → C.isAcceptor = true)
      ∧ ∀ s, C.Uses s → (∃ A ∈ c.operands, A.Uses s)
          ∨ (c.isRelative = true ∧ C.alphabet.contains s = true) := by
  constructor
  · intro hoperands
    refine allLabels_copying_iff.1 (c.allLabels inherited_copying (fun A hA => ?_) ?_ h)
    · exact allLabels_copying_iff.2 (hoperands A hA)
    · exact fun _ _ _ => rfl
  · refine allLabels_within_iff.1 (c.allLabels (inherited_within _) (fun A hA => ?_) ?_ h)
    · exact A.allLabels_uses.mono fun _ hl => hl.mono fun s hs => .inl ⟨A, hA, hs⟩
    · exact fun hrelative s hs => within_letter_iff.2 (.inr ⟨hrelative, hs⟩)

/-- All automata that are obtained from some sources are well formed: no state number is out of
range, and neither is a lookup of a construction. They are acceptors if the sources are, and use
symbols of the sources and of Σ only. One more operation keeps to its operands in both respects. -/
theorem obtained_wellFormed (sources : Automaton → Prop) :
    (∀ A, Obtained sources A →
        A.InRange ∧ A.Lookups ∧ (∀ B, Obtained sources B → A.PairLookups B)
          ∧ ((∀ B, sources B → B.isAcceptor = true) → A.isAcceptor = true)
          ∧ ∀ s, A.Uses s → (∃ B, sources B ∧ B.Uses s) ∨ A.alphabet.contains s = true)
      ∧ ∀ (c : Construction) (C : Automaton), (∀ A ∈ c.operands, Obtained sources A) →
          c.result = .ok C →
          Obtained sources C
            ∧ ((∀ A ∈ c.operands, A.isAcceptor = true) → C.isAcceptor = true)
            ∧ ∀ s, C.Uses s → (∃ A ∈ c.operands, A.Uses s)
                ∨ (c.isRelative = true ∧ C.alphabet.contains s = true) := by
  constructor
  · intro A hA
    refine ⟨A.inRange, A.lookups, fun B _ => A.pairLookups B, fun hsources => ?_, ?_⟩
    · refine allLabels_copying_iff.1 (hA.allLabels inherited_copying (fun B hB => ?_) ?_)
      · exact allLabels_copying_iff.2 (hsources B hB)
      · exact fun _ _ => rfl
    · refine allLabels_within_iff.1 (hA.allLabels (inherited_within _) (fun B hB => ?_) ?_)
      · exact B.allLabels_uses.mono fun _ hl => hl.mono fun s hs => .inl ⟨B, hB, hs⟩
      · exact fun s hs => within_letter_iff.2 (.inr hs)
  · exact fun c C hoperands hC => ⟨.step hoperands hC, c.wellFormed hC⟩

/-- The acceptor of all words of the letter `a` but `a` itself. -/
def otherThanA : Automaton where
  alphabet := EditTransducers.onlyA
  states := #[
    { accepting := true, transitions := [⟨.symbol ⟨0⟩, .symbol ⟨0⟩, 1⟩] },
    { transitions := [⟨.symbol ⟨0⟩, .symbol ⟨0⟩, 2⟩] },
    { accepting := true, transitions := [⟨.symbol ⟨0⟩, .symbol ⟨0⟩, 2⟩] }]
  start := 0
  start_lt := by decide
  target_lt := by decide

/-- The complement of the word a, as it is computed. -/
theorem complement_symbol_onlyA :
    (Automaton.symbol EditTransducers.onlyA ⟨0⟩).complement = .ok otherThanA := by cbv

/-- A complement and then a star, starting from one letter. -/
theorem wellFormed_loop_otherThanA :
    (otherThanA.loop true).InRange ∧ (otherThanA.loop true).Lookups
      ∧ (otherThanA.loop true).isAcceptor = true
      ∧ ∀ s, (otherThanA.loop true).Uses s → EditTransducers.onlyA.contains s = true := by
  let a := Automaton.symbol EditTransducers.onlyA ⟨0⟩
  obtain ⟨hrun, hstep⟩ := obtained_wellFormed (· = a)
  have ha : ∀ B ∈ [a], Obtained (· = a) B := by
    intro B hB
    rw [List.mem_singleton.1 hB]
    exact .source (.symbol _ _) rfl
  obtain ⟨hother, -, -⟩ := hstep (.complement a) otherThanA ha complement_symbol_onlyA
  obtain ⟨hloop, -, -⟩ := hstep (.star otherThanA) (otherThanA.loop true)
    (fun B hB => List.mem_singleton.1 hB ▸ hother) (by cbv)
  obtain ⟨hrange, hlookups, -, hacceptor, hsymbols⟩ := hrun _ hloop
  refine ⟨hrange, hlookups, hacceptor fun B hB => ?_, fun s hs => ?_⟩
  · rw [hB]
    exact allLabels_copying_iff.1 (allLabels_symbol rfl)
  · rcases hsymbols s hs with ⟨B, rfl, hs⟩ | hs
    · have hletter : a.AllLabels (Within fun s => EditTransducers.onlyA.contains s = true) :=
        allLabels_symbol (within_letter_iff.2 (by decide))
      exact allLabels_within_iff.1 hletter s hs
    · exact hs

end FiniteState
