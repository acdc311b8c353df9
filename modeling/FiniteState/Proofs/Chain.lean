import FiniteState.Proofs.Boolean
import FiniteState.Proofs.Sampling

/-!
# Chains of samples

Distinct words are drawn from an acceptor, then from the rest of it, and so on, by whatever
samplers. A batch that is removed contains the words handed back, so the rest never yields them
again. Removing a batch is exact as long as nothing but words over Σ is accepted, and that stays so
along a chain.

* `Automaton.CopiesOver.without`, `Automaton.accepts_without_iff`: what is left of an acceptor.
* `Sampler.Draw.Succeeds.exact`: what a single draw does.
* `Sampler.Chain.exact`, `Sampler.Chain.pairwise`: the draws of a chain, and any two of them.
-/

namespace FiniteState

namespace Automaton

variable {A R : Automaton} {ws : List Word}

/-- Words over Σ are copied, and nothing else is read. -/
def CopiesOver (S : Alphabet) (A : Automaton) : Prop :=
  ∀ x y, A.Relates x y → x = y ∧ x.Over S

/-- Taking words away from copies leaves copies of the rest. -/
theorem relates_without_iff (hA : A.CopiesOver A.alphabet) (h : A.without ws = .ok R) {x y : Word} :
    R.Relates x y ↔ x = y ∧ A.accepts x = true ∧ x ∉ ws := by
  obtain ⟨D, hD, hR⟩ := Except.bind_eq_ok.1 h
  rw [relates_minimize_iff hR, relates_difference_words_iff hD]
  constructor
  · exact fun ⟨hxy, haccepts, _, hkept⟩ => ⟨hxy, haccepts, hkept⟩
  · rintro ⟨hxy, haccepts, hkept⟩
    obtain ⟨z, hz⟩ := accepts_iff_exists_relates.1 haccepts
    exact ⟨hxy, haccepts, (hA x z hz).2, hkept⟩

/-- The rest accepts what was accepted, except for the words removed. -/
theorem accepts_without_iff (hA : A.CopiesOver A.alphabet) (h : A.without ws = .ok R) {w : Word} :
    R.accepts w = true ↔ A.accepts w = true ∧ w ∉ ws :=
  accepts_iff_of_copies fun _ _ => relates_without_iff hA h

@[grind →] theorem alphabet_without (h : A.without ws = .ok R) : R.alphabet = A.alphabet := by
  obtain ⟨D, hD, hR⟩ := Except.bind_eq_ok.1 h
  grind

/-- Nothing but words over Σ is accepted when words have been removed. -/
theorem CopiesOver.without (hA : A.CopiesOver A.alphabet) (h : A.without ws = .ok R) :
    R.CopiesOver R.alphabet := by
  intro x y hxy
  obtain ⟨rfl, haccepts, -⟩ := (relates_without_iff hA h).1 hxy
  obtain ⟨z, hz⟩ := accepts_iff_exists_relates.1 haccepts
  rw [alphabet_without h]
  exact ⟨rfl, (hA x z hz).2⟩

end Automaton

namespace Sampler

open Automaton

/-! ## Draws

A successful draw has nothing to draw from, or it removes a batch. It is exact in either case. -/

/-- A draw of distinct words, with the states of the sampler before and after it. -/
structure Draw (ρ : Type) where
  automaton : Automaton
  requested : Nat
  retries : Nat
  before : Sampler ρ
  sample : Sample
  after : Sampler ρ

namespace Draw

variable {ρ : Type}

/-- The sample is what is drawn. -/
def Succeeds [RandomSource ρ] (d : Draw ρ) : Prop :=
  sampleDistinct d.automaton d.requested d.retries d.before = (.ok d.sample, d.after)

/-- The most words that a batch may have, the last one being the largest. -/
def batchBound (d : Draw ρ) : Nat :=
  d.requested + d.requested * (Nat.max d.retries 1 - 1) / 10

/-- The words handed back are in order, accepted and not too many; if they are too few, that is the
shortfall. They belong to a batch that is removed. If there is nothing to draw, nothing happens. -/
structure Exact (d : Draw ρ) : Prop where
  increasing : d.sample.words.Pairwise fun u v => u.map Symbol.code < v.map Symbol.code
  length_le : d.sample.words.length ≤ d.requested
  accepted : ∀ w ∈ d.sample.words, d.automaton.accepts w = true
  shortfall_eq : d.sample.shortfall
    = if d.sample.words.length < d.requested
      then some (.insufficientSamples d.requested d.sample.words.length) else none
  removed : ∃ batch : Finset Word, (∀ w ∈ d.sample.words, w ∈ batch) ∧ batch.card ≤ d.batchBound
    ∧ ∀ w, d.sample.rest.accepts w = true ↔ d.automaton.accepts w = true ∧ w ∉ batch
  idle : (∀ w, d.automaton.accepts w = false) →
    d.sample.words = [] ∧ d.sample.rest = d.automaton ∧ d.after = d.before

variable {d : Draw ρ}

/-- Distinct words that have been sorted are strictly increasing. -/
theorem increasing_mergeSort {ws : List Word} (hnodup : ws.Nodup) :
    (ws.mergeSort Word.le).Pairwise fun u v => u.map Symbol.code < v.map Symbol.code := by
  have hsorted := Word.pairwise_mergeSort ws
  have hdistinct : (ws.mergeSort Word.le).Nodup := (List.mergeSort_perm _ _).nodup_iff.2 hnodup
  exact hsorted.imp₂ (fun _ _ hle hne => Word.codes_lt_of_le_of_ne hle hne) hdistinct

/-- A draw by which nothing happens is exact, whatever it is that accepts nothing. -/
theorem exact_of_idle (hafter : d.after = d.before)
    (hsample : d.sample
      = { rest := d.automaton, words := [], shortfall := shortfall? d.requested 0 }) :
    d.Exact := by
  have hwords : d.sample.words = [] := by rw [hsample]
  have hrest : d.sample.rest = d.automaton := by rw [hsample]
  constructor
  case increasing =>
    rw [hwords]
    exact .nil
  case length_le =>
    rw [hwords]
    exact Nat.zero_le _
  case accepted =>
    rw [hwords]
    exact fun w hw => absurd hw List.not_mem_nil
  case shortfall_eq =>
    rw [hsample]
    rfl
  case removed =>
    refine ⟨∅, ?_, Nat.zero_le _, fun w => ?_⟩
    · rw [hwords]
      exact fun w hw => absurd hw List.not_mem_nil
    · rw [hrest]
      exact (and_iff_left (Finset.notMem_empty w)).symm
  case idle => exact fun _ => ⟨hwords, hrest, hafter⟩

/-- A draw is exact if its words are chosen from a batch of accepted words, which is removed. -/
theorem exact_of_batch {batch chosen : List Word}
    (hA : d.automaton.CopiesOver d.automaton.alphabet) (hnonempty : d.automaton.isEmpty = false)
    (hnodup : batch.Nodup) (hlength : batch.length ≤ d.batchBound)
    (haccepts : ∀ w ∈ batch, d.automaton.accepts w = true) (hperm : chosen.Perm batch)
    (hrest : d.automaton.without batch = .ok d.sample.rest)
    (hwords : d.sample.words = (chosen.take d.requested).mergeSort Word.le)
    (hshort : d.sample.shortfall = shortfall? d.requested d.sample.words.length) : d.Exact := by
  have hmem : ∀ w ∈ d.sample.words, w ∈ batch := by
    intro w hw
    rw [hwords, List.mem_mergeSort] at hw
    exact hperm.mem_iff.1 (List.mem_of_mem_take hw)
  constructor
  case increasing =>
    -- shuffling, truncating and sorting keep the words of the batch apart
    have htake : (chosen.take d.requested).Nodup :=
      (hperm.nodup_iff.2 hnodup).sublist (List.take_sublist _ _)
    rw [hwords]
    exact increasing_mergeSort htake
  case length_le =>
    rw [hwords, List.length_mergeSort]
    exact List.length_take_le _ _
  case accepted => exact fun w hw => haccepts w (hmem w hw)
  case shortfall_eq => exact hshort
  case removed =>
    refine ⟨batch.toFinset, fun w hw => List.mem_toFinset.2 (hmem w hw), ?_, fun w => ?_⟩
    · exact (List.toFinset_card_le batch).trans hlength
    · rw [accepts_without_iff hA hrest, List.mem_toFinset]
  case idle =>
    intro hrejects
    rw [isEmpty_iff_rejects.2 hrejects] at hnonempty
    cases hnonempty

/-- A word of the rest is a word of the automaton that is not handed back. -/
theorem Exact.of_accepts_rest (h : d.Exact) {w : Word} (hw : d.sample.rest.accepts w = true) :
    d.automaton.accepts w = true ∧ w ∉ d.sample.words := by
  obtain ⟨batch, hmem, -, hrest⟩ := h.removed
  obtain ⟨haccepts, hkept⟩ := (hrest w).1 hw
  exact ⟨haccepts, fun hdrawn => hkept (hmem w hdrawn)⟩

variable [RandomSource ρ]

/-- A successful draw is exact if nothing but words over Σ is accepted. -/
theorem Succeeds.exact (h : d.Succeeds) (hA : d.automaton.CopiesOver d.automaton.alphabet) :
    d.Exact := by
  rcases sampleDistinct_cases h with
    ⟨-, hsample, hafter⟩ | ⟨hnonempty, batch, chosen, t, hbatch, hperm, hrest, hwords, hshort⟩
  · exact exact_of_idle hafter hsample
  · obtain ⟨hnodup, hrelates⟩ := drawBatch_spec hbatch
    have haccepts : ∀ w ∈ batch, d.automaton.accepts w = true := by
      intro w hw
      obtain ⟨x, hx⟩ := hrelates w hw
      rw [relates_trim_iff] at hx
      obtain ⟨rfl, -⟩ := hA x w hx
      exact accepts_iff_exists_relates.2 ⟨x, hx⟩
    have hlength : batch.length ≤ d.batchBound := by
      have hlast := length_drawBatch_le hbatch
      rwa [Nat.zero_add] at hlast
    exact exact_of_batch hA hnonempty hnodup hlength haccepts hperm hrest hwords hshort

/-- The rest is as the automaton was, so there can be a next draw. -/
theorem Succeeds.copiesOver_rest (h : d.Succeeds)
    (hA : d.automaton.CopiesOver d.automaton.alphabet) :
    d.sample.rest.CopiesOver d.sample.rest.alphabet := by
  rcases sampleDistinct_cases h with ⟨-, hsample, -⟩ | ⟨-, batch, chosen, t, -, -, hrest, -, -⟩
  · rw [hsample]
    exact hA
  · exact hA.without hrest

end Draw

/-! ## Chains

A draw leaves an automaton of the same kind as the one it drew from, which carries the induction
along a chain. -/

/-- Successful draws, each from the rest of the one before it. Every one of them may be by another
sampler, in any state. -/
inductive Chain {ρ : Type} [RandomSource ρ] : Automaton → List (Draw ρ) → Prop
  | nil (A : Automaton) : Chain A []
  | cons {d : Draw ρ} {ds : List (Draw ρ)} (hdraw : d.Succeeds) (hrest : Chain d.sample.rest ds) :
      Chain d.automaton (d :: ds)

variable {ρ : Type} [RandomSource ρ] {A : Automaton} {ds : List (Draw ρ)}

/-- Every draw of a chain is exact, since what the draws before it left still copies words
over Σ. -/
theorem Chain.exact (h : Chain A ds) (hA : A.CopiesOver A.alphabet) {d : Draw ρ} (hd : d ∈ ds) :
    d.Exact := by
  induction h with
  | nil => exact absurd hd List.not_mem_nil
  | cons hdraw _ ih =>
    rcases List.mem_cons.1 hd with rfl | hd
    · exact hdraw.exact hA
    · -- the later draws are a chain from the rest
      exact ih (hdraw.copiesOver_rest hA) hd

/-- The words of a chain are accepted by the automaton at its beginning. -/
theorem Chain.accepts_of_mem (h : Chain A ds) (hA : A.CopiesOver A.alphabet) {d : Draw ρ}
    (hd : d ∈ ds) {w : Word} (hw : w ∈ d.sample.words) : A.accepts w = true := by
  induction h with
  | nil => exact absurd hd List.not_mem_nil
  | cons hdraw _ ih =>
    rcases List.mem_cons.1 hd with rfl | hd
    · exact (hdraw.exact hA).accepted w hw
    · exact ((hdraw.exact hA).of_accepts_rest (ih (hdraw.copiesOver_rest hA) hd)).1

/-- Later words are accepted by the rest, which has lost the earlier ones. -/
theorem Chain.pairwise (h : Chain A ds) (hA : A.CopiesOver A.alphabet) :
    ds.Pairwise fun d d' => ∀ w ∈ d.sample.words, w ∉ d'.sample.words := by
  induction h with
  | nil => exact .nil
  | cons hdraw hrest ih =>
    have hcopies := hdraw.copiesOver_rest hA
    refine .cons (fun d' hd' w hw hw' => ?_) (ih hcopies)
    exact ((hdraw.exact hA).of_accepts_rest (hrest.accepts_of_mem hcopies hd' hw')).2 hw

/-- Every draw of a chain is exact, and no word is handed back by two of them. -/
theorem chain_exact (A : Automaton) (ds : List (Draw ρ)) (hA : A.OverAlphabet) (h : Chain A ds) :
    (∀ d ∈ ds, d.Exact)
      ∧ ds.Pairwise fun d d' => ∀ w ∈ d.sample.words, w ∉ d'.sample.words := by
  have hcopies : A.CopiesOver A.alphabet := fun _ _ hxy => hA.copies_of_relates hxy
  exact ⟨fun _ hd => h.exact hcopies hd, h.pairwise hcopies⟩

/-- One of two words is drawn. -/
def firstDraw : Draw Random where
  automaton := .words .abcd [[⟨0⟩], [⟨1⟩]]
  requested := 1
  retries := 1
  before := { random := ⟨3⟩ }
  sample := ⟨.words .abcd [[⟨0⟩]], [[⟨1⟩]], none⟩
  after := { random := ⟨6515331631289004365⟩ }

/-- Two words are requested where only one is left. -/
def shortDraw : Draw Random where
  automaton := .words .abcd [[⟨0⟩]]
  requested := 2
  retries := 1
  before := { random := ⟨6515331631289004365⟩ }
  sample := ⟨.empty .abcd, [[⟨0⟩]], some (.insufficientSamples 2 1)⟩
  after := { random := ⟨1099250820157461473⟩ }

/-- Nothing is left. -/
def idleDraw : Draw Random where
  automaton := .empty .abcd
  requested := 2
  retries := 2
  before := { random := ⟨1099250820157461473⟩ }
  sample := ⟨.empty .abcd, [], some (.insufficientSamples 2 0)⟩
  after := { random := ⟨1099250820157461473⟩ }

/-- The first draw takes one of the two words. -/
theorem succeeds_firstDraw : firstDraw.Succeeds := by
  have hnonempty : firstDraw.automaton.isEmpty = false := by cbv
  have hbatch : drawBatch firstDraw.automaton.trim 1 1 0 firstDraw.before
      = ([[⟨1⟩]], firstDraw.after) := by cbv
  have hchosen : shuffle [[(⟨1⟩ : Symbol)]] firstDraw.after = ([[⟨1⟩]], firstDraw.after) := by cbv
  have hrest : firstDraw.automaton.without [[⟨1⟩]] = .ok firstDraw.sample.rest := by cbv
  have hwords : ([[(⟨1⟩ : Symbol)]].take 1).mergeSort Word.le = [[⟨1⟩]] := by cbv
  have hdrawn : sampleDistinct firstDraw.automaton 1 1 firstDraw.before
      = (.ok _, firstDraw.after) :=
    sampleDistinct_of_drawBatch hnonempty hbatch hchosen hrest
  rw [hwords] at hdrawn
  exact hdrawn

/-- The second draw takes the other word and tells that one is missing. -/
theorem succeeds_shortDraw : shortDraw.Succeeds := by
  unfold Draw.Succeeds
  cbv

/-- The third draw finds nothing, and leaves the generator as it is. -/
theorem succeeds_idleDraw : idleDraw.Succeeds := by
  unfold Draw.Succeeds
  cbv

/-- The three draws are a chain, each from what the last one left. -/
theorem chain_firstDraw : Chain firstDraw.automaton [firstDraw, shortDraw, idleDraw] := by
  have hidle : Chain shortDraw.sample.rest [idleDraw] :=
    Chain.cons (d := idleDraw) succeeds_idleDraw (.nil _)
  have hshort : Chain firstDraw.sample.rest [shortDraw, idleDraw] :=
    Chain.cons (d := shortDraw) succeeds_shortDraw hidle
  exact .cons succeeds_firstDraw hshort

theorem exact_firstDraw :
    firstDraw.automaton.OverAlphabet
      ∧ Chain firstDraw.automaton [firstDraw, shortDraw, idleDraw]
      ∧ (∀ d ∈ [firstDraw, shortDraw, idleDraw], d.Exact)
      ∧ [firstDraw, shortDraw, idleDraw].Pairwise fun d d' =>
          ∀ w ∈ d.sample.words, w ∉ d'.sample.words := by
  have hover : firstDraw.automaton.OverAlphabet := by decide +kernel
  exact ⟨hover, chain_firstDraw, chain_exact _ _ hover chain_firstDraw⟩

end Sampler

end FiniteState
