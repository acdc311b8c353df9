import FiniteState.Proofs.Session

/-!
# The setup of a generator

A generator is made for an alphabet, with the edit transducers over it, a number of retries and a
bound on walks: those that take more steps are discarded. Whatever is drawn later, and whether that
succeeds or not, leaves all of this as it is.

* `Setup`: what a generator is made with.
* `keepsSetup_shortSplits`, `keepsSetup_longSplits`: the splits of a run.
-/

namespace FiniteState

/-! ## Sessions

No part of a session changes what its generator was made with. There is one lemma for each part, and
the rules of `Keeps` put them together as the parts are put together. -/

namespace Session

variable {ρ α : Type}

/-- What a generator is made with. -/
structure Setup where
  alphabet : Alphabet
  edits : EditTransducers
  retries : Nat
  maxLength : Nat

/-- What the session's generator was made with. -/
def setup (s : Session ρ) : Setup where
  alphabet := s.generator.alphabet
  edits := s.generator.edits
  retries := s.generator.retries
  maxLength := s.generator.sampler.maxLength

/-- The bound of the session's sampler. -/
def bound (s : Session ρ) : Nat := s.generator.sampler.maxLength

theorem keepsSetup_get :
    Keeps (setup : Session ρ → Setup) (get : Drawing ρ (Session ρ)).run := fun _ => rfl

/-- A computation that never looks at the session keeps its setup, also where it fails. -/
theorem keepsSetup_lift (x : Except Error α) :
    Keeps (setup : Session ρ → Setup) (lift x).run := fun _ => rfl

theorem keepsSetup_warn (e : Error) :
    Keeps (setup : Session ρ → Setup) (warn e).run := fun _ => rfl

/-- Replacing a bucket changes a table of the session, and not the setup. -/
theorem keepsSetup_replace (length : Nat) (v : Verdict) (A : Automaton) :
    Keeps (setup : Session ρ → Setup) (replace length v A).run := fun _ => rfl

/-- A draw runs the sampler of the session, and it keeps the setup if it keeps the bound on
lengths. -/
theorem keepsSetup_sampling {draw : StateM (Sampler ρ) α} (h : Keeps Sampler.maxLength draw) :
    Keeps (setup : Session ρ → Setup) (sampling draw).run := by
  intro s
  have hkept : (draw s.generator.sampler).2.maxLength = s.generator.sampler.maxLength :=
    h s.generator.sampler
  show Setup.mk _ _ _ (draw s.generator.sampler).2.maxLength = s.setup
  rw [hkept]
  rfl

theorem keepsSetup_removeUsed (used : List Word) (length : Nat) :
    Keeps (setup : Session ρ → Setup) (removeUsed used length).run := by
  unfold removeUsed
  dsimp only
  split
  · refine keepsSetup_get.bindExcept fun s => ?_
    cases s.buckets.get? length .reject with
    | none => exact .pure _
    | some A => exact (keepsSetup_lift _).bindExcept fun _ => keepsSetup_replace _ _ _
  · exact .pure _

variable [RandomSource ρ]

/-- Drawing distinct words runs the sampler and records a warning. -/
theorem keepsSetup_distinctFrom (A : Automaton) (n : Nat) :
    Keeps (setup : Session ρ → Setup) (distinctFrom A n).run := by
  refine keepsSetup_get.bindExcept fun s => ?_
  refine Keeps.bindExcept ?_ fun sample => ?_
  · exact (keepsSetup_sampling (Sampler.keepsBound_sampleDistinct A n _)).bindExcept
      fun _ => keepsSetup_lift _
  · cases sample.shortfall with
    | none => exact .pure _
    | some e => exact (keepsSetup_warn e).bindExcept fun _ => .pure _

/-- Drawing with duplicates at one slot keeps the setup. -/
theorem keepsSetup_duplicatesAt (n : Nat) (shrinking : Bool) (length : Nat) (v : Verdict) :
    Keeps (setup : Session ρ → Setup) (duplicatesAt n shrinking length v).run := by
  refine keepsSetup_get.bindExcept fun s => keepsSetup_get.bindExcept fun s' => ?_
  cases s'.buckets.get? length v with
  | none => exact .pure _
  | some A =>
    refine (keepsSetup_sampling (Sampler.keepsBound_sampleWithDuplicates A n)).bindExcept
      fun drawn => ?_
    dsimp only
    split
    · exact (keepsSetup_lift _).bindExcept fun _ =>
        (keepsSetup_replace _ _ _).bindExcept fun _ => .pure _
    · exact .pure _

theorem keepsBound_duplicatesAt (n : Nat) (shrinking : Bool) (length : Nat) (v : Verdict) :
    Keeps (bound : Session ρ → Nat) (duplicatesAt n shrinking length v).run :=
  (keepsSetup_duplicatesAt n shrinking length v).comp Setup.maxLength

/-- Drawing with duplicates at every slot keeps the setup. -/
theorem keepsSetup_withDuplicates (name : String) (n : Nat) (shrinking : Bool) :
    Keeps (setup : Session ρ → Setup) (withDuplicates name n shrinking).run := by
  refine keepsSetup_get.bindExcept fun _ => (Keeps.mapM ?_ _).bindExcept fun _ => .pure _
  rintro ⟨length, v⟩
  exact keepsSetup_duplicatesAt n shrinking length v

/-- Drawing with duplicates keeps the bound on lengths, which is part of the setup. -/
theorem keepsBound_withDuplicates (name : String) (n : Nat) (shrinking : Bool) :
    Keeps (bound : Session ρ → Nat) (withDuplicates name n shrinking).run :=
  (keepsSetup_withDuplicates name n shrinking).comp Setup.maxLength

/-- Drawing without duplicates at every slot keeps the setup. -/
theorem keepsSetup_withoutDuplicates (name : String) (n : Nat) :
    Keeps (setup : Session ρ → Setup) (withoutDuplicates name n).run := by
  refine keepsSetup_get.bindExcept fun _ => (Keeps.mapM ?_ _).bindExcept fun _ => .pure _
  rintro ⟨length, v⟩
  refine keepsSetup_get.bindExcept fun s => ?_
  cases s.buckets.get? length v with
  | none => exact .pure _
  | some A =>
    exact (keepsSetup_distinctFrom A n).bindExcept fun _ =>
      (keepsSetup_replace _ _ _).bindExcept fun _ => keepsSetup_get.bindExcept fun _ => .pure _

/-- Looking for a partner of one word keeps the setup. -/
theorem keepsSetup_pairUp (length : Nat) (pairs : Pairs) (positive : Word) :
    Keeps (setup : Session ρ → Setup) (pairUp length pairs positive).run := by
  refine keepsSetup_get.bindExcept fun s => (keepsSetup_lift _).bindExcept fun candidates => ?_
  refine (keepsSetup_sampling (Sampler.keepsBound_pick candidates)).bindExcept fun found => ?_
  cases found with
  | none => exact (keepsSetup_warn _).bindExcept fun _ => .pure _
  | some negative => exact .pure _

/-- Looking for pairs at one length keeps the setup. -/
theorem keepsSetup_pairsAt (n : Nat) (pairs : Pairs) (length : Nat) :
    Keeps (setup : Session ρ → Setup) (pairsAt n pairs length).run := by
  refine keepsSetup_get.bindExcept fun s => ?_
  cases s.buckets.get? length .accept with
  | none => exact .pure _
  | some A =>
    exact (keepsSetup_distinctFrom A n).bindExcept fun _ =>
      (keepsSetup_replace _ _ _).bindExcept fun _ => .foldlM (keepsSetup_pairUp length) _ _

/-- Drawing pairs at every length keeps the setup. -/
theorem keepsSetup_adversarial (name : String) (n : Nat) :
    Keeps (setup : Session ρ → Setup) (adversarial name n).run :=
  keepsSetup_get.bindExcept fun _ => (Keeps.foldlM (keepsSetup_pairsAt n) _ _).bindExcept
    fun pairs => (Keeps.forM (keepsSetup_removeUsed pairs.used) _).bindExcept fun _ => .pure _

end Session

/-! ## Runs -/

namespace Generator

open Session

variable {ρ : Type} [RandomSource ρ]

theorem keepsSetup_shortSplits (config : DatasetConfig) :
    Keeps (setup : Session ρ → Setup) (shortSplits config).run :=
  (keepsSetup_withDuplicates _ _ _).bindExcept
    fun _ => (keepsSetup_withDuplicates _ _ _).bindExcept
    fun _ => (keepsSetup_withDuplicates _ _ _).bindExcept
    fun _ => (keepsSetup_withoutDuplicates _ _).bindExcept
    fun _ => (keepsSetup_withoutDuplicates _ _).bindExcept fun _ => .pure _

/-- The short half of a run keeps the bound on lengths. -/
theorem keepsBound_shortSplits (config : DatasetConfig) :
    Keeps (bound : Session ρ → Nat) (shortSplits config).run :=
  (keepsSetup_shortSplits config).comp Setup.maxLength

theorem keepsSetup_longSplits (config : DatasetConfig) :
    Keeps (setup : Session ρ → Setup) (longSplits config).run :=
  (keepsSetup_adversarial _ _).bindExcept
    fun _ => (keepsSetup_withoutDuplicates _ _).bindExcept fun _ => .pure _

/-- The long half of a run keeps the bound on lengths. -/
theorem keepsBound_longSplits (config : DatasetConfig) :
    Keeps (bound : Session ρ → Nat) (longSplits config).run :=
  (keepsSetup_longSplits config).comp Setup.maxLength

end Generator

end FiniteState
