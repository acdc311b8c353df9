import FiniteState.Dataset.Generator
import FiniteState.Proofs.Buckets
import FiniteState.Proofs.Sampling

/-!
# Sessions

What a session takes from its buckets, for the splits that are drawn slot by slot. The words of a
split were in the buckets before it. Depending on the kind they are gone afterwards, and then no
word is taken twice, since a later part of the split finds only what the earlier parts have left.

* `foldlM_induction`, `forM_induction`, `mapM_invariant`: what the parts of a split keep.
* `Takes.append`: what two parts of a split take, one after the other.
* `withDuplicates_takes`, `withoutDuplicates_takes`: what the splits take.
-/

namespace FiniteState

open LengthBuckets

/-! ## Steps of a session -/

namespace Session

variable {ρ α : Type} {s t : Session ρ}

theorem get_bind_eq_ok {f : Session ρ → Drawing ρ α} {a : α} :
    ((get : Drawing ρ (Session ρ)) >>= f) s = (.ok a, t) ↔ f s s = (.ok a, t) := Iff.rfl

/-- A result that may fail hands on its value and leaves the session alone. -/
theorem lift_bind_eq_ok {β : Type} {x : Except Error β} {f : β → Drawing ρ α} {a : α} :
    (lift x >>= f) s = (.ok a, t) ↔ ∃ b, x = .ok b ∧ f b s = (.ok a, t) := by
  constructor
  · intro h
    obtain ⟨b, u, hx, h⟩ := ExceptT.bind_eq_ok.1 h
    obtain ⟨hb, rfl⟩ := ExceptT.mk_pure_eq_ok.1 hx
    exact ⟨b, hb, h⟩
  · rintro ⟨b, rfl, h⟩
    exact h

/-- What an activity leaves alone that only draws or warns. -/
structure Frame (s t : Session ρ) : Prop where
  alphabet : t.generator.alphabet = s.generator.alphabet
  buckets : t.buckets = s.buckets

/-- Drawing changes the sampler and nothing else. -/
theorem sampling_spec {draw : StateM (Sampler ρ) α} {a : α} (h : sampling draw s = (.ok a, t)) :
    ∃ sampler, draw s.generator.sampler = (a, sampler)
      ∧ t = { s with generator.sampler := sampler } := by
  obtain ⟨ha, ht⟩ := Prod.mk.inj h
  exact ⟨_, Prod.ext (Except.ok.inj ha) rfl, ht.symm⟩

/-- A draw that may fail changes the sampler and nothing else. -/
theorem trySampling_spec {draw : ExceptT Error (StateM (Sampler ρ)) α} {a : α}
    (h : trySampling draw s = (.ok a, t)) :
    ∃ sampler, draw s.generator.sampler = (.ok a, sampler)
      ∧ t = { s with generator.sampler := sampler } := by
  obtain ⟨r, u, hdraw, h⟩ := ExceptT.bind_eq_ok.1 h
  obtain ⟨rfl, rfl⟩ := ExceptT.mk_pure_eq_ok.1 h
  exact sampling_spec hdraw

theorem warn_spec {e : Error} {u : Unit} (h : warn e s = (.ok u, t)) :
    t = { s with generator.warnings := s.generator.warnings ++ [e] } :=
  (Prod.mk.inj h).2.symm

/-- Replacing a slot leaves the generator alone. -/
theorem replace_eq_ok {length : Nat} {v : Verdict} {A : Automaton} {u : Unit}
    (h : replace length v A s = (.ok u, t)) :
    t.generator = s.generator ∧ t.buckets = s.buckets.set length v A := by
  obtain ⟨-, rfl⟩ := Prod.mk.inj h
  exact ⟨rfl, rfl⟩

/-- The words of a slot. -/
def words? (s : Session ρ) (k : Nat × Verdict) : Option Automaton := s.buckets.get? k.1 k.2

/-- The session may have gone on from the first state to the second: the alphabet has stayed the
same and the buckets have at most shrunk. -/
structure Later (s t : Session ρ) : Prop where
  alphabet : t.generator.alphabet = s.generator.alphabet
  shrinks : s.buckets.Shrinks t.buckets

theorem Later.refl (s : Session ρ) : Later s s := ⟨rfl, .refl _⟩

theorem Later.trans {u : Session ρ} (h : Later s t) (h' : Later t u) : Later s u :=
  ⟨h'.alphabet.trans h.alphabet, h.shrinks.trans h'.shrinks⟩

/-- A session with the same buckets is later. -/
theorem Frame.later (h : Frame s t) : Later s t := ⟨h.alphabet, h.buckets ▸ .refl s.buckets⟩

/-! ## Invariants of repeated steps

A split goes through lengths or slots. Its invariants may speak of the steps that have been made,
which is how the words of different steps are kept apart. -/

/-- What holds in the beginning and is kept by every step holds in the end. The steps already made
are the elements before the current one. -/
theorem foldlM_induction {κ α : Type} {step : α → κ → Drawing ρ α} {ks : List κ}
    {P : List κ → α → Session ρ → Prop} {a b : α}
    (hstep : ∀ done k rest a b s t, ks = done ++ k :: rest → P done a s →
      step a k s = (.ok b, t) → P (done ++ [k]) b t)
    (hinit : P [] a s) (h : ks.foldlM step a s = (.ok b, t)) : P ks b t := by
  -- the steps already made have to vary along the list
  suffices hall : ∀ rest done a s, ks = done ++ rest → P done a s →
      rest.foldlM step a s = (.ok b, t) → P ks b t from hall ks [] a s rfl hinit h
  clear hinit h
  intro rest
  induction rest with
  | nil =>
    intro done a s hks hdone h
    rw [List.foldlM_nil] at h
    obtain ⟨rfl, rfl⟩ := ExceptT.pure_eq_ok.1 h
    rwa [hks, List.append_nil]
  | cons k rest ih =>
    intro done a s hks hdone h
    rw [List.foldlM_cons] at h
    obtain ⟨a', s', hfirst, hrest⟩ := ExceptT.bind_eq_ok.1 h
    refine ih (done ++ [k]) a' s' ?_ (hstep done k rest a a' s s' hks hdone hfirst) hrest
    rw [hks, List.append_assoc]
    rfl

/-- The same for steps that hand nothing on. -/
theorem forM_induction {κ : Type} {step : κ → Drawing ρ Unit} {ks : List κ}
    {P : List κ → Session ρ → Prop} {x : Unit}
    (hstep : ∀ done k s t, P done s → step k s = (.ok (), t) → P (done ++ [k]) t)
    (hinit : P [] s) (h : ks.forM step s = (.ok x, t)) : P ks t := by
  suffices hall : ∀ rest done s, P done s → rest.forM step s = (.ok x, t) → P (done ++ rest) t from
    hall ks [] s hinit h
  clear hinit h
  intro rest
  induction rest with
  | nil =>
    intro done s hdone h
    obtain ⟨-, rfl⟩ := ExceptT.pure_eq_ok.1 h
    rwa [List.append_nil]
  | cons k rest ih =>
    intro done s hdone h
    obtain ⟨y, u, hfirst, hrest⟩ := ExceptT.bind_eq_ok.1 h
    have hrest := ih (done ++ [k]) u (hstep done k s u hdone hfirst) hrest
    rwa [List.append_assoc] at hrest

/-- What every part of a split keeps is kept by the split. -/
theorem mapM_invariant {κ α : Type} {part : κ → Drawing ρ α} {ks : List κ} {P : Session ρ → Prop}
    {as : List α} (hpart : ∀ k s t a, P s → part k s = (.ok a, t) → P t) (hs : P s)
    (h : ks.mapM part s = (.ok as, t)) : P t := by
  induction ks generalizing s as with
  | nil =>
    rw [List.mapM_nil] at h
    obtain ⟨-, rfl⟩ := ExceptT.pure_eq_ok.1 h
    exact hs
  | cons k ks ih =>
    rw [List.mapM_cons] at h
    obtain ⟨a, u, hfirst, h⟩ := ExceptT.bind_eq_ok.1 h
    obtain ⟨as, u', hrest, h⟩ := ExceptT.bind_eq_ok.1 h
    obtain ⟨-, rfl⟩ := ExceptT.pure_eq_ok.1 h
    exact ih (hpart k s u a hs hfirst) hrest

/-! ## Removed words -/

/-- What is left was there before, and the words used are gone. -/
theorem shrink_spec {S : Alphabet} {A R : Automaton} {used : List Word}
    (hcopies : ∀ x y, A.Relates x y → x = y) (h : shrink S A used = .ok R) :
    (∀ x y, R.Relates x y → A.Relates x y) ∧ ∀ w ∈ used, ¬ R.Relates w w := by
  obtain ⟨D, hD, h⟩ := Except.bind_eq_ok.1 h
  have hR : ∀ x y, R.Relates x y → x = y ∧ (∃ z, A.Relates x z) ∧ x ∉ used := by
    intro x y hxy
    rw [Automaton.relates_minimize_iff h, Automaton.relates_difference_words_iff hD,
      Automaton.accepts_iff_exists_relates] at hxy
    obtain ⟨heq, haccepts, -, hunused⟩ := hxy
    exact ⟨heq, haccepts, hunused⟩
  constructor
  · intro x y hxy
    obtain ⟨rfl, ⟨z, hz⟩, -⟩ := hR x y hxy
    obtain rfl := hcopies x z hz
    exact hz
  · exact fun w hw hww => (hR w w hww).2.2 hw

/-! ## What a part of a split does

Splits with and without duplicates differ in whether words are removed and whether they are
distinct. What they take is described in common, with these two as parameters. -/

/-- An example for each word with its verdict. -/
def exampleOf (S : Alphabet) (p : Verdict × Word) : Example := ⟨S.render p.2, p.1⟩

/-- The examples of some words are made from the words with their verdict. -/
theorem examplesOf_eq (S : Alphabet) (v : Verdict) (ws : List Word) :
    examplesOf S v ws = (ws.map fun w => (v, w)).map (exampleOf S) := by
  rw [examplesOf, List.map_map]
  rfl

/-- Words with their verdicts are taken from the buckets, which may shrink. If `removing`, the words
are gone afterwards, and if `distinct`, none is taken twice. -/
structure Takes (removing distinct : Bool) (s t : Session ρ) (ps : List (Verdict × Word)) : Prop
    extends Later s t where
  held : ∀ p ∈ ps, s.buckets.Held p.1 p.2
  gone : removing = true → ∀ p ∈ ps, ¬ t.buckets.Held p.1 p.2
  nodup : distinct = true → ps.Nodup

variable {removing distinct : Bool}

theorem Takes.nil {s t : Session ρ} (h : Later s t) : Takes removing distinct s t [] where
  toLater := h
  held := fun _ hp => absurd hp List.not_mem_nil
  gone := fun _ _ hp => absurd hp List.not_mem_nil
  nodup := fun _ => List.nodup_nil

/-- A word taken in the second part was there before the first part, and is none that it removed. -/
theorem Takes.append {u : Session ρ} {ps qs : List (Verdict × Word)}
    (hmode : distinct = true → removing = true) (h : Takes removing distinct s t ps)
    (h' : Takes removing distinct t u qs) : Takes removing distinct s u (ps ++ qs) where
  toLater := h.toLater.trans h'.toLater
  held := fun p hp => by
    rcases List.mem_append.1 hp with hp | hp
    · exact h.held p hp
    · exact (h'.held p hp).of_shrinks h.shrinks
  gone := fun hremoving p hp => by
    rcases List.mem_append.1 hp with hp | hp
    · exact fun hheld => h.gone hremoving p hp (hheld.of_shrinks h'.shrinks)
    · exact h'.gone hremoving p hp
  nodup := fun hdistinct => by
    refine (h.nodup hdistinct).append (h'.nodup hdistinct) fun p hp hp' => ?_
    exact h.gone (hmode hdistinct) p hp (h'.held p hp')

variable {target : Automaton} {least most : Nat}

/-- Parts that are done one after the other take the words of all of them. -/
theorem takes_mapM {κ : Type} {part : κ → Drawing ρ (List Example)}
    (hmode : distinct = true → removing = true)
    (hpart : ∀ k (s t : Session ρ) es, s.buckets.Legal target least most → part k s = (.ok es, t) →
      ∃ ps, es = ps.map (exampleOf s.generator.alphabet) ∧ Takes removing distinct s t ps)
    {ks : List κ} {parts : List (List Example)} (hlegal : s.buckets.Legal target least most)
    (h : ks.mapM part s = (.ok parts, t)) :
    ∃ ps, parts.flatten = ps.map (exampleOf s.generator.alphabet)
      ∧ Takes removing distinct s t ps := by
  induction ks generalizing s parts with
  | nil =>
    rw [List.mapM_nil] at h
    obtain ⟨rfl, rfl⟩ := ExceptT.pure_eq_ok.1 h
    exact ⟨[], rfl, .nil (.refl s)⟩
  | cons k ks ih =>
    rw [List.mapM_cons] at h
    obtain ⟨es, u, hes, h⟩ := ExceptT.bind_eq_ok.1 h
    obtain ⟨rest, u', hrest, h⟩ := ExceptT.bind_eq_ok.1 h
    obtain ⟨rfl, rfl⟩ := ExceptT.pure_eq_ok.1 h
    obtain ⟨ps, rfl, hps⟩ := hpart k s u es hlegal hes
    obtain ⟨qs, hqs, htakes⟩ := ih (hlegal.shrinks hps.shrinks) hrest
    refine ⟨ps ++ qs, ?_, hps.append hmode htakes⟩
    rw [List.flatten_cons, hqs, hps.alphabet, List.map_append]

/-- Words of one bucket are taken from it, and it is replaced by a part of it without them. -/
theorem takes_of_replace {length : Nat} {v : Verdict} {A R : Automaton} {ws : List Word}
    (hlegal : s.buckets.Legal target least most) (hA : s.buckets.get? length v = some A)
    (halphabet : t.generator.alphabet = s.generator.alphabet)
    (ht : t.buckets = s.buckets.set length v R) (hwords : ∀ w ∈ ws, A.Relates w w)
    (hsubset : ∀ x y, R.Relates x y → A.Relates x y) (hgone : ∀ w ∈ ws, ¬ R.Relates w w)
    (hnodup : distinct = true → ws.Nodup) :
    Takes removing distinct s t (ws.map fun w => (v, w)) where
  alphabet := halphabet
  shrinks := by
    rw [ht]
    exact shrinks_set hA hsubset
  held := fun p hp => by
    obtain ⟨w, hw, rfl⟩ := List.mem_map.1 hp
    exact (hlegal.held_of_relates hA (hwords w hw)).2
  gone := fun _ p hp => by
    obtain ⟨w, hw, rfl⟩ := List.mem_map.1 hp
    have hlength := (hlegal.held_of_relates hA (hwords w hw)).1
    rw [ht]
    subst hlength
    exact not_held_set hA (hgone w hw)
  nodup := fun hdistinct => (hnodup hdistinct).map fun _ _ h => (Prod.mk.inj h).2

/-- Words of one bucket are taken from it, and it stays as it is. -/
theorem takes_of_frame {length : Nat} {v : Verdict} {A : Automaton} {ws : List Word}
    (hlegal : s.buckets.Legal target least most) (hA : s.buckets.get? length v = some A)
    (hframe : Frame s t) (hwords : ∀ w ∈ ws, A.Relates w w) :
    Takes false false s t (ws.map fun w => (v, w)) where
  toLater := hframe.later
  held := fun p hp => by
    obtain ⟨w, hw, rfl⟩ := List.mem_map.1 hp
    exact (hlegal.held_of_relates hA (hwords w hw)).2
  gone := fun hfalse => by cases hfalse
  nodup := fun hfalse => by cases hfalse

/-! ## Splits with duplicates -/

variable [RandomSource ρ]

/-- Everything that drawing words with duplicates can do. -/
theorem duplicatesAt_cases {n : Nat} {shrinking : Bool} {k : Nat × Verdict} {es : List Example}
    (h : duplicatesAt n shrinking k.1 k.2 s = (.ok es, t)) :
    (s.words? k = none ∧ es = [] ∧ t = s)
      ∨ ∃ A drawn sampler, s.words? k = some A
        ∧ Sampler.sampleWithDuplicates A n s.generator.sampler = (drawn, sampler)
        ∧ es = examplesOf s.generator.alphabet k.2 drawn
        ∧ t.generator = { s.generator with sampler := sampler }
        ∧ (((shrinking = true → drawn = []) ∧ t.buckets = s.buckets)
          ∨ (shrinking = true ∧ ∃ R, shrink s.generator.alphabet A drawn = .ok R
              ∧ t.buckets = s.buckets.set k.1 k.2 R)) := by
  replace h := get_bind_eq_ok.1 h
  replace h := get_bind_eq_ok.1 h
  cases hA : s.buckets.get? k.1 k.2 with
  | none =>
    simp only [hA] at h
    obtain ⟨rfl, rfl⟩ := ExceptT.pure_eq_ok.1 h
    exact .inl ⟨hA, rfl, rfl⟩
  | some A =>
    simp only [hA] at h
    obtain ⟨drawn, u, hdrawn, h⟩ := ExceptT.bind_eq_ok.1 h
    obtain ⟨sampler, hsample, rfl⟩ := sampling_spec hdrawn
    refine .inr ⟨A, drawn, sampler, hA, hsample, ?_⟩
    -- the bucket is replaced only if words are to be removed, and there are any
    by_cases hshrink : (shrinking && !drawn.isEmpty) = true
    · rw [if_pos hshrink] at h
      obtain ⟨R, hR, h⟩ := lift_bind_eq_ok.1 h
      obtain ⟨x, u', hreplace, h⟩ := ExceptT.bind_eq_ok.1 h
      obtain ⟨rfl, rfl⟩ := ExceptT.pure_eq_ok.1 h
      obtain ⟨hgenerator, hbuckets⟩ := replace_eq_ok hreplace
      exact ⟨rfl, hgenerator, .inr ⟨(Bool.and_eq_true_iff.1 hshrink).1, R, hR, hbuckets⟩⟩
    · rw [if_neg hshrink] at h
      obtain ⟨rfl, rfl⟩ := ExceptT.pure_eq_ok.1 h
      refine ⟨rfl, rfl, .inl ⟨fun hshrinking => ?_, rfl⟩⟩
      rw [hshrinking] at hshrink
      simpa using hshrink

/-- What is drawn with duplicates is taken from its slot, and removed if the buckets shrink. -/
theorem duplicatesAt_takes {n : Nat} {shrinking : Bool} {k : Nat × Verdict} {es : List Example}
    (hlegal : s.buckets.Legal target least most)
    (h : duplicatesAt n shrinking k.1 k.2 s = (.ok es, t)) :
    ∃ ps, es = ps.map (exampleOf s.generator.alphabet) ∧ Takes shrinking false s t ps := by
  rcases duplicatesAt_cases h with
    ⟨-, rfl, rfl⟩ | ⟨A, drawn, sampler, hA, hsample, rfl, hgenerator, hbuckets⟩
  · exact ⟨[], rfl, .nil (.refl _)⟩
  have hcopies := hlegal.eq_of_relates hA
  have hwords : ∀ w ∈ drawn, A.Relates w w := fun w hw => by
    obtain ⟨x, hx⟩ := Sampler.relates_of_mem_sampleWithDuplicates hsample hw
    obtain rfl := hcopies x w hx
    exact hx
  have halphabet : t.generator.alphabet = s.generator.alphabet := by rw [hgenerator]
  refine ⟨_, examplesOf_eq .., ?_⟩
  -- words that are kept are taken without being gone
  rcases hbuckets with ⟨hnone, hkept⟩ | ⟨-, R, hR, hset⟩
  · cases shrinking with
    | false => exact takes_of_frame hlegal hA ⟨halphabet, hkept⟩ hwords
    | true =>
      obtain rfl := hnone rfl
      exact .nil (Frame.later ⟨halphabet, hkept⟩)
  · obtain ⟨hsubset, hgone⟩ := shrink_spec hcopies hR
    exact takes_of_replace hlegal hA halphabet hset hwords hsubset hgone fun hfalse => by
      cases hfalse

/-- A split with duplicates has one part for each slot, in order. -/
theorem withDuplicates_eq_ok {name : String} {n : Nat} {shrinking : Bool} {split : Split}
    (h : withDuplicates name n shrinking s = (.ok split, t)) :
    ∃ parts : List (List Example), split = { name, examples := parts.flatten }
      ∧ List.mapM (m := Drawing ρ) (fun k => duplicatesAt n shrinking k.1 k.2) (slots s.buckets) s
          = (.ok parts, t) := by
  replace h := get_bind_eq_ok.1 h
  obtain ⟨parts, u, hparts, h⟩ := ExceptT.bind_eq_ok.1 h
  obtain ⟨rfl, rfl⟩ := ExceptT.pure_eq_ok.1 h
  refine ⟨parts, rfl, ?_⟩
  rw [← hparts]

/-- The words of such a split are taken from the buckets. -/
theorem withDuplicates_takes {name : String} {n : Nat} {shrinking : Bool} {split : Split}
    (hlegal : s.buckets.Legal target least most)
    (h : withDuplicates name n shrinking s = (.ok split, t)) :
    ∃ ps, split.examples = ps.map (exampleOf s.generator.alphabet)
      ∧ Takes shrinking false s t ps := by
  obtain ⟨parts, rfl, hparts⟩ := withDuplicates_eq_ok h
  have hmode : false = true → shrinking = true := fun hfalse => by cases hfalse
  refine takes_mapM hmode (fun _ _ _ _ hlegal h => ?_) hlegal hparts
  exact duplicatesAt_takes hlegal h

/-! ## Splits without duplicates -/

/-- Drawing distinct words changes the sampler and records the shortfall. -/
theorem distinctFrom_spec {A : Automaton} {n : Nat} {sample : Sample}
    (h : distinctFrom A n s = (.ok sample, t)) :
    ∃ sampler, Sampler.sampleDistinct A n s.generator.retries s.generator.sampler
        = (.ok sample, sampler)
      ∧ t = { s with
          generator.sampler := sampler
          generator.warnings := s.generator.warnings ++ sample.shortfall.toList } := by
  replace h := get_bind_eq_ok.1 h
  obtain ⟨drawn, u, hdrawn, h⟩ := ExceptT.bind_eq_ok.1 h
  obtain ⟨sampler, hsample, rfl⟩ := trySampling_spec hdrawn
  cases hshort : drawn.shortfall with
  | none =>
    simp only [hshort] at h
    obtain ⟨rfl, rfl⟩ := ExceptT.pure_eq_ok.1 h
    exact ⟨sampler, hsample, by rw [hshort, Option.toList_none, List.append_nil]⟩
  | some e =>
    simp only [hshort] at h
    obtain ⟨x, u', hwarn, h⟩ := ExceptT.bind_eq_ok.1 h
    obtain ⟨rfl, rfl⟩ := ExceptT.pure_eq_ok.1 h
    exact ⟨sampler, hsample, by rw [warn_spec hwarn, hshort, Option.toList_some]⟩

/-- The words of a sample are distinct words of the acceptor, and the rest is a part of it without
them. -/
theorem sampleDistinct_spec {A : Automaton} {n retries : Nat} {sample : Sample}
    {sampler sampler' : Sampler ρ} (hcopies : ∀ x y, A.Relates x y → x = y)
    (h : Sampler.sampleDistinct A n retries sampler = (.ok sample, sampler')) :
    sample.words.Nodup ∧ (∀ w ∈ sample.words, A.Relates w w)
      ∧ (∀ x y, sample.rest.Relates x y → A.Relates x y)
      ∧ ∀ w ∈ sample.words, ¬ sample.rest.Relates w w := by
  obtain ⟨hnodup, hlanguage, hrest⟩ := Sampler.sampleDistinct_eq_ok h
  refine ⟨hnodup, fun w hw => ?_, ?_⟩
  · obtain ⟨x, hx⟩ := hlanguage w hw
    obtain rfl := hcopies x w hx
    exact hx
  · rcases hrest with ⟨hrest, hwords⟩ | ⟨batch, hbatch, hmem⟩
    · rw [hrest, hwords]
      exact ⟨fun _ _ h => h, fun w hw => absurd hw List.not_mem_nil⟩
    · obtain ⟨hsubset, hgone⟩ := shrink_spec hcopies hbatch
      exact ⟨hsubset, fun w hw => hgone w (hmem w hw)⟩

/-- Distinct words are drawn from a bucket, which is replaced by the rest of the sample. -/
theorem takes_of_sampleDistinct {n retries length : Nat} {v : Verdict} {A : Automaton}
    {sample : Sample} {sampler sampler' : Sampler ρ} (hlegal : s.buckets.Legal target least most)
    (hA : s.buckets.get? length v = some A)
    (hsample : Sampler.sampleDistinct A n retries sampler = (.ok sample, sampler'))
    (halphabet : t.generator.alphabet = s.generator.alphabet)
    (hbuckets : t.buckets = s.buckets.set length v sample.rest) :
    Takes true true s t (sample.words.map fun w => (v, w)) := by
  obtain ⟨hnodup, hwords, hsubset, hgone⟩ := sampleDistinct_spec (hlegal.eq_of_relates hA) hsample
  exact takes_of_replace hlegal hA halphabet hbuckets hwords hsubset hgone fun _ => hnodup

/-- Everything that drawing distinct words can do. -/
theorem distinctAt_cases {n : Nat} {k : Nat × Verdict} {es : List Example}
    (h : distinctAt n k.1 k.2 s = (.ok es, t)) :
    (s.words? k = none ∧ es = [] ∧ t = s)
      ∨ ∃ A sample sampler, s.words? k = some A
        ∧ Sampler.sampleDistinct A n s.generator.retries s.generator.sampler
            = (.ok sample, sampler)
        ∧ es = examplesOf s.generator.alphabet k.2 sample.words
        ∧ t.generator = { s.generator with
            sampler := sampler
            warnings := s.generator.warnings ++ sample.shortfall.toList }
        ∧ t.buckets = s.buckets.set k.1 k.2 sample.rest := by
  replace h := get_bind_eq_ok.1 h
  cases hA : s.buckets.get? k.1 k.2 with
  | none =>
    simp only [hA] at h
    obtain ⟨rfl, rfl⟩ := ExceptT.pure_eq_ok.1 h
    exact .inl ⟨hA, rfl, rfl⟩
  | some A =>
    simp only [hA] at h
    obtain ⟨sample, u, hsample, h⟩ := ExceptT.bind_eq_ok.1 h
    obtain ⟨x, u', hreplace, h⟩ := ExceptT.bind_eq_ok.1 h
    replace h := get_bind_eq_ok.1 h
    obtain ⟨rfl, rfl⟩ := ExceptT.pure_eq_ok.1 h
    obtain ⟨sampler, hdrawn, rfl⟩ := distinctFrom_spec hsample
    obtain ⟨hgenerator, hbuckets⟩ := replace_eq_ok hreplace
    exact .inr ⟨A, sample, sampler, hA, hdrawn, by rw [hgenerator], hgenerator, hbuckets⟩

/-- What is drawn without duplicates is taken from its slot and removed. -/
theorem distinctAt_takes {n : Nat} {k : Nat × Verdict} {es : List Example}
    (hlegal : s.buckets.Legal target least most) (h : distinctAt n k.1 k.2 s = (.ok es, t)) :
    ∃ ps, es = ps.map (exampleOf s.generator.alphabet) ∧ Takes true true s t ps := by
  rcases distinctAt_cases h with
    ⟨-, rfl, rfl⟩ | ⟨A, sample, sampler, hA, hsample, rfl, hgenerator, hbuckets⟩
  · exact ⟨[], rfl, .nil (.refl _)⟩
  · exact ⟨_, examplesOf_eq ..,
      takes_of_sampleDistinct hlegal hA hsample (by rw [hgenerator]) hbuckets⟩

/-- A split without duplicates has one part for each slot, in order. -/
theorem withoutDuplicates_eq_ok {name : String} {n : Nat} {split : Split}
    (h : withoutDuplicates name n s = (.ok split, t)) :
    ∃ parts : List (List Example), split = { name, examples := parts.flatten }
      ∧ List.mapM (m := Drawing ρ) (fun k => distinctAt n k.1 k.2) (slots s.buckets) s
          = (.ok parts, t) := by
  replace h := get_bind_eq_ok.1 h
  obtain ⟨parts, u, hparts, h⟩ := ExceptT.bind_eq_ok.1 h
  obtain ⟨rfl, rfl⟩ := ExceptT.pure_eq_ok.1 h
  refine ⟨parts, rfl, ?_⟩
  rw [← hparts]

/-- The words of such a split are taken from the buckets, all different, and removed. -/
theorem withoutDuplicates_takes {name : String} {n : Nat} {split : Split}
    (hlegal : s.buckets.Legal target least most)
    (h : withoutDuplicates name n s = (.ok split, t)) :
    ∃ ps, split.examples = ps.map (exampleOf s.generator.alphabet) ∧ Takes true true s t ps := by
  obtain ⟨parts, rfl, hparts⟩ := withoutDuplicates_eq_ok h
  refine takes_mapM id (fun _ _ _ _ hlegal h => ?_) hlegal hparts
  exact distinctAt_takes hlegal h

end Session

end FiniteState
