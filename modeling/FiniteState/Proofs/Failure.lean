import FiniteState.Proofs.Ceiling
import FiniteState.Proofs.Invariance

/-!
# What a run can fail with

All automata that a session works on are proper if its buckets are: the balls and candidates that it
builds, the words drawn and what they leave in the buckets. So no call fails but for the number of
states, and a call that fails leaves proper buckets behind as well.

* `Confined`: an activity keeps an invariant in any case, and yields results with a property.
* `Session.Call.confined`: so does every call.
* `run_fails_by_explosion`: so does a run, and any sequence of calls.
-/

namespace FiniteState

/-- The activity leads from states with the invariant to states with the invariant, whether it fails
or not, and yields what satisfies `Q`. -/
def Confined {σ α : Type} (I : σ → Prop) (m : ExceptT Error (StateM σ) α) (Q : α → Prop) : Prop :=
  ∀ s, I s → Yields (m s).1 Q ∧ I (m s).2

namespace Confined

variable {σ α β κ : Type} {I : σ → Prop} {Q : α → Prop} {R : β → Prop}

/-- A value that satisfies the condition is given without touching the state. -/
theorem pure {a : α} (h : Q a) : Confined I (Pure.pure a) Q := fun _ hs => ⟨h, hs⟩

/-- Looking at the state gives something that satisfies the invariant. -/
theorem get : Confined I (MonadState.get : ExceptT Error (StateM σ) σ) I := fun _ hs => ⟨hs, hs⟩

/-- Handing on a result leaves the state as it is. -/
theorem mk {x : Except Error α} (h : Yields x Q) : Confined I (ExceptT.mk (Pure.pure x)) Q :=
  fun _ hs => ⟨h, hs⟩

/-- A stateful computation that cannot fail is confined if it keeps the invariant. -/
theorem liftM {m : StateM σ α} (hQ : ∀ s, Q (m s).1) (hI : ∀ s, I s → I (m s).2) :
    Confined I (MonadLift.monadLift m : ExceptT Error (StateM σ) α) Q :=
  fun s hs => ⟨hQ s, hI s hs⟩

/-- An activity that fails ends there, and one that succeeds is followed by the next one. -/
theorem bind {m : ExceptT Error (StateM σ) α} {next : α → ExceptT Error (StateM σ) β}
    (hm : Confined I m Q) (hnext : ∀ a, Q a → Confined I (next a) R) :
    Confined I (m >>= next) R := by
  intro s hs
  obtain ⟨hyields, hinvariant⟩ := hm s hs
  show Yields (ExceptT.bindCont next (m s).1 (m s).2).1 R
    ∧ I (ExceptT.bindCont next (m s).1 (m s).2).2
  cases hresult : (m s).1 with
  | error e => exact ⟨hyields.isExplosion hresult, hinvariant⟩
  | ok a =>
    rw [hresult] at hyields
    exact hnext a hyields _ hinvariant

/-- If every part is confined, so are all of them one after the other. -/
theorem mapM {part : κ → ExceptT Error (StateM σ) α}
    (hpart : ∀ k, Confined I (part k) fun _ => True) (ks : List κ) :
    Confined I (ks.mapM part) fun _ => True := by
  induction ks with
  | nil => exact .pure trivial
  | cons k ks ih =>
    rw [List.mapM_cons]
    exact (hpart k).bind fun _ _ => ih.bind fun _ _ => .pure trivial

/-- A loop is confined if each of its steps is. -/
theorem foldlM {step : α → κ → ExceptT Error (StateM σ) α}
    {ks : List κ} (hstep : ∀ k ∈ ks, ∀ a, Q a → Confined I (step a k) Q) {a : α} (ha : Q a) :
    Confined I (ks.foldlM step a) Q := by
  induction ks generalizing a with
  | nil => exact .pure ha
  | cons k ks ih =>
    rw [List.foldlM_cons]
    refine (hstep k List.mem_cons_self a ha).bind fun b hb => ih (fun k' hk' => ?_) hb
    exact hstep k' (List.mem_cons_of_mem k hk')

/-- If every step is confined, so is the whole loop. -/
theorem forM {step : κ → ExceptT Error (StateM σ) PUnit}
    (hstep : ∀ k, Confined I (step k) fun _ => True) (ks : List κ) :
    Confined I (ks.forM step) fun _ => True := by
  induction ks with
  | nil => exact .pure trivial
  | cons k ks ih => exact (hstep k).bind fun _ _ => ih

end Confined

open Automaton

variable {S : Alphabet}

/-- All words are over Σ. -/
def Word.AllOver (S : Alphabet) (ws : List Word) : Prop := ∀ w ∈ ws, w.Over S

/-! ## Sampling -/

namespace Sampler

variable {ρ : Type} [RandomSource ρ] {A : Automaton}

/-- Words drawn from a proper automaton are over Σ. -/
theorem allOver_sampleWithDuplicates (hA : A.Proper S) (n : Nat) (s : Sampler ρ) :
    Word.AllOver S (sampleWithDuplicates A n s).1 := by
  intro w hw
  obtain ⟨x, hx⟩ := relates_of_mem_sampleWithDuplicates Prod.mk.eta.symm hw
  exact hA.over_of_relates hx

theorem allOver_pick (hA : A.Proper S) (s : Sampler ρ) : Word.AllOver S (pick A s).1.toList := by
  intro w hw
  have hpick : pick A s = (some w, (pick A s).2) := Prod.ext (Option.mem_toList.1 hw) rfl
  obtain ⟨x, hx⟩ := relates_of_pick hpick
  exact hA.over_of_relates hx

theorem allOver_drawBatch (hA : A.Proper S) (n attempts attempt : Nat) (s : Sampler ρ) :
    Word.AllOver S (drawBatch A n attempts attempt s).1 := by
  intro w hw
  obtain ⟨x, hx⟩ := (drawBatch_spec Prod.mk.eta.symm).2 w hw
  exact hA.over_of_relates hx

theorem allOver_shuffle {ws : List Word} (hws : Word.AllOver S ws) (s : Sampler ρ) :
    Word.AllOver S (shuffle ws s).1 :=
  fun w hw => hws w ((shuffle_perm Prod.mk.eta.symm).mem_iff.1 hw)

/-- What sampling leaves of a proper automaton, and the words drawn. -/
def ProperSample (S : Alphabet) (sample : Sample) : Prop :=
  sample.rest.Proper S ∧ Word.AllOver S sample.words

/-- The words that are drawn are over Σ, so they can be removed. -/
theorem confined_sampleDistinct (hS : S.symbols ≠ []) (hA : A.Proper S) (n retries : Nat) :
    Confined (fun _ : Sampler ρ => True) (sampleDistinct A n retries) (ProperSample S) := by
  unfold sampleDistinct
  split
  · exact .pure ⟨hA, nofun⟩
  · have htrim : A.trim.Proper S := ⟨by simp [hA.symbols], hA.plain.trim⟩
    refine (Confined.liftM (allOver_drawBatch htrim n _ 0) fun _ _ => trivial).bind
      fun batch hbatch => ?_
    refine (Confined.liftM (allOver_shuffle hbatch) fun _ _ => trivial).bind
      fun chosen hchosen => ?_
    refine (Confined.mk (hA.without hS hbatch)).bind fun rest hrest => .pure ⟨hrest, ?_⟩
    exact fun w hw => hchosen w (List.mem_of_mem_take (List.mem_mergeSort.1 hw))

end Sampler

/-! ## Sessions

Every part of a session is confined in the same way: the session remains proper even where the part
fails, and it can fail for the number of states only. -/

/-- The generator is made for an alphabet with the symbols of `S`. -/
structure Generator.Suits {ρ : Type} (S : Alphabet) (g : Generator ρ) : Prop where
  symbols : g.alphabet.symbols = S.symbols
  edits : EditTransducers.build g.alphabet = .ok g.edits

namespace Session

variable {ρ α : Type} {Q : α → Prop} {A : Automaton}

/-- A suitable generator at work on proper buckets. -/
structure Proper (S : Alphabet) (s : Session ρ) : Prop where
  suits : s.generator.Suits S
  buckets : s.buckets.Proper S

/-- A lifted result leaves the session as it is. -/
theorem confined_lift {I : Session ρ → Prop} {x : Except Error α} (h : Yields x Q) :
    Confined I (lift x) Q :=
  .mk h

/-- A draw changes the sampler, on which being proper does not depend. -/
theorem confined_sampling {draw : StateM (Sampler ρ) α} (h : ∀ s, Q (draw s).1) :
    Confined (Proper S) (sampling draw) Q :=
  fun s hs => ⟨h s.generator.sampler, ⟨hs.suits.symbols, hs.suits.edits⟩, hs.buckets⟩

theorem confined_warn (e : Error) :
    Confined (Proper S) (warn e : Drawing ρ Unit) fun _ => True :=
  fun _ hs => ⟨trivial, ⟨hs.suits.symbols, hs.suits.edits⟩, hs.buckets⟩

/-- A proper automaton put in a slot leaves the session proper. -/
theorem confined_replace (length : Nat) (v : Verdict) (hA : A.Proper S) :
    Confined (Proper S) (replace length v A : Drawing ρ Unit) fun _ => True :=
  fun _ hs => ⟨trivial, hs.suits, hs.buckets.set hA length v⟩

/-- Taking used words over Σ away from a slot gives a proper automaton, or there is no room. -/
theorem yields_shrink (hS : S.symbols ≠ []) {T : Alphabet} (hT : T.symbols = S.symbols)
    (hA : A.Proper S) {used : List Word} (hused : Word.AllOver S used) :
    Yields (shrink T A used) (Automaton.Proper S) :=
  (hA.difference (.words hT hused) hS).bind fun _ hD => hD.minimize

theorem yields_rivals {T : Alphabet} (hT : T.symbols = S.symbols) {B : LengthBuckets}
    (hB : B.Proper S) {ball : Automaton} (hball : ball.Proper S) (lengths : List Nat) :
    Yields (rivals T B ball lengths) (Automaton.Proper S) := by
  refine Yields.foldlM (.empty hT) fun length _ candidates hcandidates => ?_
  cases hslot : B.get? length .reject with
  | none => exact hcandidates
  | some A =>
    exact (hball.intersection (hB length .reject A hslot)).bind fun _ hC => hcandidates.union hC

theorem yields_freshRivals (hS : S.symbols ≠ []) {g : Generator ρ} (hg : g.Suits S)
    {B : LengthBuckets} (hB : B.Proper S) {used : List Word} (hused : Word.AllOver S used)
    (length : Nat) (positive : Word) :
    Yields (freshRivals g B used length positive) (Automaton.Proper S) := by
  refine (EditTransducers.proper_ball hg.edits positive).bind fun ball hball => ?_
  refine (yields_rivals hg.symbols hB (hball.congr hg.symbols) _).bind
    fun candidates hcandidates => ?_
  split
  · exact hcandidates
  · exact hcandidates.difference (.words hg.symbols hused) hS

/-- Removing used words from a slot can fail for lack of room only. -/
theorem confined_removeUsed (hS : S.symbols ≠ []) {used : List Word}
    (hused : Word.AllOver S used) (length : Nat) :
    Confined (Proper S) (removeUsed used length : Drawing ρ Unit) fun _ => True := by
  unfold removeUsed
  dsimp only
  split
  · refine Confined.get.bind fun s hs => ?_
    cases hslot : s.buckets.get? length .reject with
    | none => exact .pure trivial
    | some A =>
      have htaken : Word.AllOver S (used.filter (·.length == length)) :=
        fun w hw => hused w (List.mem_of_mem_filter hw)
      have hshrink := yields_shrink hS hs.suits.symbols (hs.buckets length .reject A hslot) htaken
      exact (confined_lift hshrink).bind fun _ hR => confined_replace _ _ hR
  · exact .pure trivial

variable [RandomSource ρ]

/-- Drawing distinct words gives words over Σ and a proper rest, or there is no room. -/
theorem confined_distinctFrom (hS : S.symbols ≠ []) (hA : A.Proper S) (n : Nat) :
    Confined (Proper S) (distinctFrom A n : Drawing ρ Sample) (Sampler.ProperSample S) := by
  refine Confined.get.bind fun s _ => ?_
  -- the error of sampling is a value here, and is raised after the sampler has been put back
  have hdraw : Confined (Proper S)
      (trySampling (Sampler.sampleDistinct A n s.generator.retries) : Drawing ρ Sample)
      (Sampler.ProperSample S) := by
    have hyields := fun sampler : Sampler ρ =>
      (Sampler.confined_sampleDistinct hS hA n s.generator.retries sampler trivial).1
    exact (confined_sampling (Q := (Yields · (Sampler.ProperSample S))) hyields).bind
      fun _ hx => confined_lift hx
  refine hdraw.bind fun sample hsample => ?_
  cases sample.shortfall with
  | none => exact .pure hsample
  | some e => exact (confined_warn e).bind fun _ _ => .pure hsample

/-- Drawing with duplicates at one slot can fail for lack of room only. -/
theorem confined_duplicatesAt (hS : S.symbols ≠ []) (n : Nat) (shrinking : Bool) (length : Nat)
    (v : Verdict) :
    Confined (Proper S) (duplicatesAt n shrinking length v : Drawing ρ (List Example))
      fun _ => True := by
  refine Confined.get.bind fun s hs => Confined.get.bind fun s' hs' => ?_
  cases hslot : s'.buckets.get? length v with
  | none => exact .pure trivial
  | some A =>
    have hA := hs'.buckets length v A hslot
    refine (confined_sampling (Sampler.allOver_sampleWithDuplicates hA n)).bind
      fun drawn hdrawn => ?_
    dsimp only
    split
    · exact (confined_lift (yields_shrink hS hs.suits.symbols hA hdrawn)).bind fun _ hR =>
        (confined_replace _ _ hR).bind fun _ _ => .pure trivial
    · exact .pure trivial

theorem confined_withDuplicates (hS : S.symbols ≠ []) (name : String) (n : Nat)
    (shrinking : Bool) :
    Confined (Proper S) (withDuplicates name n shrinking : Drawing ρ Split) fun _ => True := by
  refine Confined.get.bind fun _ _ => (Confined.mapM ?_ _).bind fun _ _ => .pure trivial
  exact fun k => confined_duplicatesAt hS n shrinking k.1 k.2

theorem confined_withoutDuplicates (hS : S.symbols ≠ []) (name : String) (n : Nat) :
    Confined (Proper S) (withoutDuplicates name n : Drawing ρ Split) fun _ => True := by
  refine Confined.get.bind fun _ _ => (Confined.mapM ?_ _).bind fun _ _ => .pure trivial
  rintro ⟨length, v⟩
  refine Confined.get.bind fun s hs => ?_
  cases hslot : s.buckets.get? length v with
  | none => exact .pure trivial
  | some A =>
    exact (confined_distinctFrom hS (hs.buckets length v A hslot) n).bind fun _ hsample =>
      (confined_replace _ _ hsample.1).bind fun _ _ => Confined.get.bind fun _ _ => .pure trivial

/-- Looking for a partner can fail for lack of room only, and the used words stay over Σ. -/
theorem confined_pairUp (hS : S.symbols ≠ []) (length : Nat) (positive : Word) {pairs : Pairs}
    (hpairs : Word.AllOver S pairs.used) :
    Confined (Proper S) (pairUp length pairs positive : Drawing ρ Pairs) fun pairs' =>
      Word.AllOver S pairs'.used := by
  refine Confined.get.bind fun s hs => ?_
  refine (confined_lift (yields_freshRivals hS hs.suits hs.buckets hpairs length positive)).bind
    fun candidates hcandidates => ?_
  refine (confined_sampling (Q := fun found => Word.AllOver S found.toList)
    (Sampler.allOver_pick hcandidates)).bind fun found hfound => ?_
  cases found with
  | none => exact (confined_warn _).bind fun _ _ => .pure hpairs
  | some negative =>
    -- the rival joins the used words, and those are removed from the candidates of later words
    refine .pure fun w hw => ?_
    rcases List.mem_cons.1 (List.mem_mergeSort.1 (List.mem_eraseReps.1 hw)) with rfl | hw
    · exact hfound w List.mem_cons_self
    · exact hpairs w hw

theorem confined_pairsAt (hS : S.symbols ≠ []) (n length : Nat) {pairs : Pairs}
    (hpairs : Word.AllOver S pairs.used) :
    Confined (Proper S) (pairsAt n pairs length : Drawing ρ Pairs) fun pairs' =>
      Word.AllOver S pairs'.used := by
  refine Confined.get.bind fun s hs => ?_
  cases hslot : s.buckets.get? length .accept with
  | none => exact .pure hpairs
  | some A =>
    refine (confined_distinctFrom hS (hs.buckets length .accept A hslot) n).bind
      fun sample hsample => ?_
    refine (confined_replace _ _ hsample.1).bind fun _ _ => ?_
    exact .foldlM (fun w _ _ h => confined_pairUp hS length w h) hpairs

theorem confined_adversarial (hS : S.symbols ≠ []) (name : String) (n : Nat) :
    Confined (Proper S) (adversarial name n : Drawing ρ Split) fun _ => True := by
  refine Confined.get.bind fun s _ => ?_
  have hpairs : Confined (Proper S) (s.buckets.lengths.foldlM (pairsAt n) {} : Drawing ρ Pairs)
      fun pairs => Word.AllOver S pairs.used :=
    .foldlM (fun length _ _ h => confined_pairsAt hS n length h) nofun
  refine hpairs.bind fun pairs hused => ?_
  exact (Confined.forM (confined_removeUsed hS hused) _).bind fun _ _ => .pure trivial

/-- Whichever split is drawn, it fails for the number of states only, and the session remains
proper. -/
theorem Call.confined (hS : S.symbols ≠ []) (call : Call) :
    Confined (Proper S) (call.perform : Drawing ρ Split) fun _ => True := by
  cases call with
  | withDuplicates name n shrinking => exact confined_withDuplicates hS name n shrinking
  | withoutDuplicates name n => exact confined_withoutDuplicates hS name n
  | adversarial name n => exact confined_adversarial hS name n

/-- The session after some calls, of which any may have failed. -/
def after (calls : List Call) (s : Session ρ) : Session ρ :=
  calls.foldl (fun s call => (call.perform s).2) s

/-- After any calls, failed ones among them, the session is as proper as before. -/
theorem Proper.after (hS : S.symbols ≠ []) {s : Session ρ} (hs : s.Proper S) (calls : List Call) :
    (s.after calls).Proper S := by
  induction calls generalizing s with
  | nil => exact hs
  | cons call calls ih => exact ih (call.confined hS s hs).2

end Session

/-! ## Runs -/

namespace Generator

open Session

variable {ρ : Type}

/-- Drawing from fresh buckets is confined if making them and drawing are. -/
theorem confined_drawFrom {α : Type} {Q : α → Prop} {buckets : Except Error LengthBuckets}
    {draw : Drawing ρ α} (hbuckets : Yields buckets (LengthBuckets.Proper S))
    (hdraw : Confined (Session.Proper S) draw Q) :
    Confined (Suits S) (drawFrom buckets draw) Q := by
  intro g hg
  cases buckets with
  | error e => exact ⟨hbuckets, hg⟩
  | ok B =>
    obtain ⟨hyields, hproper⟩ := hdraw ⟨g, B⟩ ⟨hg, hbuckets⟩
    exact ⟨hyields, hproper.suits⟩

variable [RandomSource ρ]

/-- The short half of a run can fail for lack of room only. -/
theorem confined_shortSplits (hS : S.symbols ≠ []) (config : DatasetConfig) :
    Confined (Session.Proper S) (shortSplits config : Drawing ρ (List Split)) fun _ => True :=
  (confined_withDuplicates hS _ _ _).bind fun _ _ =>
  (confined_withDuplicates hS _ _ _).bind fun _ _ =>
  (confined_withDuplicates hS _ _ _).bind fun _ _ =>
  (confined_withoutDuplicates hS _ _).bind fun _ _ =>
  (confined_withoutDuplicates hS _ _).bind fun _ _ => .pure trivial

theorem confined_longSplits (hS : S.symbols ≠ []) (config : DatasetConfig) :
    Confined (Session.Proper S) (longSplits config : Drawing ρ (List Split)) fun _ => True :=
  (confined_adversarial hS _ _).bind fun _ _ =>
  (confined_withoutDuplicates hS _ _).bind fun _ _ => .pure trivial

theorem confined_run (hS : S.symbols ≠ []) {target : Automaton} (htarget : target.Proper S)
    (config : DatasetConfig) :
    Confined (Suits S) (run target config : Running ρ DatasetRun) fun _ => True := by
  have hbuckets : ∀ r : LengthRange,
      Yields (LengthBuckets.build target r.first r.last) (LengthBuckets.Proper S) :=
    fun r => LengthBuckets.yields_build htarget hS r.first r.last
  refine (confined_drawFrom (hbuckets config.short) (confined_shortSplits hS config)).bind
    fun _ _ => ?_
  refine (confined_drawFrom (hbuckets config.long) (confined_longSplits hS config)).bind
    fun _ _ => ?_
  exact Confined.bind (Q := fun _ => True)
    (fun g hg => ⟨trivial, hg.symbols, hg.edits⟩) fun _ _ => .pure trivial

/-- A run for a proper target over a non-empty alphabet can fail for the number of states only. So
can any call on the buckets of such a target, whatever calls have been made before and whether they
failed or not. -/
theorem run_fails_by_explosion (target : Automaton) (htarget : target.OverAlphabet)
    (hsymbols : target.alphabet.symbols ≠ []) (g : Generator ρ)
    (hg : g.alphabet.symbols = target.alphabet.symbols)
    (hedits : EditTransducers.build g.alphabet = .ok g.edits) :
    (∀ config e, (run target config g).1 = .error e →
        ∃ operation limit, e = .stateExplosion operation limit)
      ∧ ∀ least most B, LengthBuckets.build target least most = .ok B →
          ∀ (calls : List Call) (call : Call) e,
            (call.perform (after calls ⟨g, B⟩)).1 = .error e →
              ∃ operation limit, e = .stateExplosion operation limit := by
  have hproper := htarget.proper
  constructor
  · intro config e he
    exact (confined_run hsymbols hproper config g ⟨hg, hedits⟩).1.isExplosion he
  · intro least most B hB calls call e he
    have hbuckets : B.Proper target.alphabet := by
      have hyields := LengthBuckets.yields_build hproper hsymbols least most
      rwa [hB] at hyields
    have hsession : Session.Proper target.alphabet ⟨g, B⟩ := ⟨⟨hg, hedits⟩, hbuckets⟩
    exact (call.confined hsymbols _ (hsession.after hsymbols calls)).1.isExplosion he

/-- The acceptor of `a` over an alphabet that admits a single state. -/
def crampedA : Automaton :=
  .word (EditTransducers.onlyA.withStateLimit 1) [⟨0⟩]

/-- With room for one state the first concatenation fails. -/
theorem run_crampedA : (run crampedA singleLetters (generatorOnlyA 2 0)).1
    = .error (.stateExplosion .concat 1) := by cbv

/-- A run that hits the ceiling, and buckets on which no call can fail in another way. -/
theorem run_fails_by_explosion_crampedA :
    (∃ operation limit, Error.stateExplosion .concat 1 = .stateExplosion operation limit)
      ∧ LengthBuckets.build wordA 1 1 = .ok bucketOfA
      ∧ ∀ (calls : List Call) (call : Call) e,
          (call.perform (after calls ⟨generatorOnlyA 2 0, bucketOfA⟩)).1 = .error e →
            ∃ operation limit, e = .stateExplosion operation limit := by
  have hletter : Word.AllOver EditTransducers.onlyA [[⟨0⟩]] := by
    intro w hw
    rw [List.mem_singleton.1 hw]
    exact Word.over_cons_iff.2 ⟨by decide, Word.over_nil _⟩
  have hcrampedA : crampedA.Proper EditTransducers.onlyA :=
    .words (S := EditTransducers.onlyA) (T := EditTransducers.onlyA.withStateLimit 1) rfl hletter
  have hwordA : wordA.Proper EditTransducers.onlyA := .words rfl hletter
  have hcramped := run_fails_by_explosion crampedA hcrampedA.overAlphabet (by decide)
    (generatorOnlyA 2 0) rfl EditTransducers.build_onlyA
  have hcalls := run_fails_by_explosion wordA hwordA.overAlphabet (by decide)
    (generatorOnlyA 2 0) rfl EditTransducers.build_onlyA
  exact ⟨hcramped.1 singleLetters _ run_crampedA, build_wordA, hcalls.2 1 1 _ build_wordA⟩

end Generator

end FiniteState
