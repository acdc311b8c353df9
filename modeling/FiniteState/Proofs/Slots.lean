import FiniteState.Proofs.Lists
import FiniteState.Proofs.Walk

/-!
# Splits by slots

The examples of a split are counted by slots, a slot being a length with a verdict. A part of a
split looks at one slot of the buckets and changes no other one, so it finds there what was there
when the split was begun (`local_mapM`), and what a split does follows from what one part does.

* `withDuplicates_spec`: a slot gets as many examples as requested as long as it has a word left.
* `withoutDuplicates_spec`: a slot gets at most so many examples, and a warning for what it lacks.
-/

namespace FiniteState

open LengthBuckets

/-- The slot of an example: the length of its word and its verdict. -/
def Example.slot (e : Example) : Nat × Verdict := (e.word.length, e.verdict)

/-- The number of examples of a length with a verdict. -/
def Split.count (p : Split) (length : Nat) (v : Verdict) : Nat :=
  p.examples.countP (·.slot == (length, v))

namespace LengthRange

/-- The length is in the range. -/
def Has (r : LengthRange) (length : Nat) : Prop := r.first ≤ length ∧ length ≤ r.last

instance (r : LengthRange) (length : Nat) : Decidable (r.Has length) :=
  inferInstanceAs (Decidable (_ ∧ _))

/-- The lengths of a range, ascending. -/
def lengths (r : LengthRange) : List Nat := List.range' r.first (r.last + 1 - r.first)

/-- The slots of the lengths of a range. -/
def slots (r : LengthRange) : List (Nat × Verdict) :=
  r.lengths.flatMap fun length => [(length, .accept), (length, .reject)]

variable {r : LengthRange}

@[simp] theorem mem_lengths_iff {length : Nat} : length ∈ r.lengths ↔ r.Has length := by
  rw [lengths, List.mem_range'_1, Has]
  omega

/-- A range that ends before it begins has no length. -/
theorem not_has_of_lt (h : r.last < r.first) (length : Nat) : ¬ r.Has length := fun hhas =>
  Nat.lt_irrefl _ (Nat.lt_of_lt_of_le h (Nat.le_trans hhas.1 hhas.2))

/-- The slots of a range are its lengths with both verdicts. -/
@[simp] theorem mem_slots_iff {k : Nat × Verdict} : k ∈ r.slots ↔ r.Has k.1 := by
  obtain ⟨length, v⟩ := k
  rw [slots, List.mem_flatMap, ← mem_lengths_iff]
  constructor
  · rintro ⟨length', hlength, hk⟩
    rcases List.mem_pair.1 hk with hk | hk <;> rw [(Prod.mk.inj hk).1] <;> exact hlength
  · intro hlength
    refine ⟨length, hlength, ?_⟩
    cases v <;> simp

end LengthRange

/-- The warning that fewer words were found for a length of the range than requested. -/
def LengthRange.shortfallAt (r : LengthRange) (n length found : Nat) : List Error :=
  if r.Has length then (Sampler.shortfall? n found).toList else []

theorem LengthRange.shortfallAt_of_not_has {r : LengthRange} {length : Nat}
    (h : ¬ r.Has length) (n found : Nat) : r.shortfallAt n length found = [] := if_neg h

/-- Inside the range a slot falls short if fewer words were found than requested. -/
theorem LengthRange.shortfallAt_of_has {r : LengthRange} {length : Nat} (h : r.Has length)
    (n found : Nat) : r.shortfallAt n length found = (Sampler.shortfall? n found).toList := if_pos h

theorem nodup_flatMap_verdicts {lengths : List Nat} (h : lengths.Nodup) :
    (lengths.flatMap fun length => [(length, Verdict.accept), (length, .reject)]).Nodup := by
  refine List.nodup_flatMap.2 ⟨fun length _ => by simp, h.imp fun hne => ?_⟩
  intro k hk hk'
  rcases List.mem_pair.1 hk with rfl | rfl <;> rcases List.mem_pair.1 hk' with heq | heq <;>
    exact hne (Prod.mk.inj heq).1

/-! ## Rendered words -/

/-- A word over Σ has as many characters as letters. -/
theorem Alphabet.length_render {S : Alphabet} {w : Word} (hw : w.Over S) :
    (S.render w).length = w.length := by
  induction w with
  | nil => rfl
  | cons s w ih =>
    obtain ⟨hs, hw⟩ := Word.over_cons_iff.1 hw
    obtain ⟨c, hname, -⟩ := exists_char_of_contains hs
    have hlength : c.toString.length = 1 := String.length_singleton
    rw [render_cons, String.length_append, ih hw, hname, hlength, List.length_cons, Nat.add_comm]

namespace LengthBuckets

variable {target : Automaton} {least most : Nat} {B : LengthBuckets}

theorem nodup_slots (B : LengthBuckets) : (Session.slots B).Nodup :=
  nodup_flatMap_verdicts (List.nodup_range' 1)

theorem mem_slots_of_get? {k : Nat × Verdict} {A : Automaton} (hA : B.get? k.1 k.2 = some A) :
    k ∈ Session.slots B := by
  refine List.mem_flatMap.2 ⟨k.1, mem_lengths_of_get? hA, ?_⟩
  obtain ⟨length, v⟩ := k
  cases v <;> simp

/-- Only the slots outside the range have no automaton. -/
theorem Legal.get?_eq_none_iff (h : B.Legal target least most) {k : Nat × Verdict} :
    B.get? k.1 k.2 = none ↔ ¬ (LengthRange.mk least most).Has k.1 := by
  rw [← Option.not_isSome_iff_eq_none, h.isSome_iff]
  rfl

/-- What is done for the lengths of the buckets is done for those of the range, if nothing is done
where there is no bucket. -/
theorem Legal.flatMap_lengths {α : Type} (h : B.Legal target least most) {f : Nat → List α}
    (hf : ∀ length, ¬ (LengthRange.mk least most).Has length → f length = []) :
    B.lengths.flatMap f = (LengthRange.mk least most).lengths.flatMap f := by
  by_cases hle : least ≤ most
  · exact congrArg (·.flatMap f) (h.lengths_eq hle)
  · have hnone : ∀ length, f length = [] := fun length => hf length fun hhas => by
      obtain ⟨hfirst, hlast⟩ : least ≤ length ∧ length ≤ most := hhas
      omega
    rw [List.flatMap_eq_nil_iff.2 fun length _ => hnone length,
      List.flatMap_eq_nil_iff.2 fun length _ => hnone length]

/-- What is done at all slots of the buckets is done at those of the range. -/
theorem Legal.flatMap_slots {α : Type} (h : B.Legal target least most)
    {f : Nat × Verdict → List α}
    (hf : ∀ k, ¬ (LengthRange.mk least most).Has k.1 → f k = []) :
    (Session.slots B).flatMap f = (LengthRange.mk least most).slots.flatMap f := by
  rw [Session.slots, LengthRange.slots, List.flatMap_assoc, List.flatMap_assoc]
  refine h.flatMap_lengths fun length hlength => ?_
  simp only [List.flatMap_cons, List.flatMap_nil, hf (length, _) hlength, List.append_nil]

/-- The rendered words of a bucket have its slot. -/
theorem Legal.slot_of_relates (h : B.Legal target least most) {S : Alphabet}
    (hsymbols : S.symbols = target.alphabet.symbols) {k : Nat × Verdict} {A : Automaton}
    (hA : B.get? k.1 k.2 = some A) {x w : Word} (hw : A.Relates x w) :
    (Example.mk (S.render w) k.2).slot = k := by
  obtain ⟨rfl, hover, hlength, -⟩ := h.belongs k.1 k.2 A hA x w hw
  show ((S.render x).length, k.2) = k
  rw [Alphabet.length_render ((Word.over_congr hsymbols).2 hover), hlength]

end LengthBuckets

namespace Session

variable {ρ : Type} {s t u : Session ρ} {target : Automaton} {least most : Nat}

/-! ## Local activities

A slot is drawn from without a look at the others. So a whole split can be described slot by slot,
in terms of the sessions before and after all of it. -/

/-- The session changes at one slot only, while some warnings are recorded. -/
structure Local (k : Nat × Verdict) (ws : List Error) (s t : Session ρ) : Prop where
  alphabet : t.generator.alphabet = s.generator.alphabet
  warnings : t.generator.warnings = s.generator.warnings ++ ws
  other : ∀ j, j ≠ k → t.words? j = s.words? j

/-- A replaced slot has its new words, and the others have what they had. -/
theorem words?_set {k : Nat × Verdict} {A : Automaton} (hA : s.words? k = some A) (A' : Automaton)
    (j : Nat × Verdict) :
    (s.buckets.set k.1 k.2 A').get? j.1 j.2 = if j = k then some A' else s.words? j := by
  rw [get?_set hA]
  obtain ⟨length, v⟩ := k
  obtain ⟨length', v'⟩ := j
  simp only [Prod.mk.injEq]
  rfl

/-- What is done at a slot is done in a session that has the words of the slot as they are in `s`,
and leaves them as they are in `t`. -/
def DoneAt (P : Session ρ → Prop) (part : Drawing ρ (List Example)) (k : Nat × Verdict)
    (es : List Example) (ws : List Error) (s t : Session ρ) : Prop :=
  ∃ u u', P u ∧ part u = (.ok es, u') ∧ Local k ws u u'
    ∧ u.generator.alphabet = s.generator.alphabet
    ∧ u.words? k = s.words? k ∧ u'.words? k = t.words? k

/-- Between the sessions the parts for some slots are done, with these examples and warnings. -/
structure Spread (P : Session ρ → Prop) (part : Nat × Verdict → Drawing ρ (List Example))
    (ks : List (Nat × Verdict)) (es : Nat × Verdict → List Example)
    (ws : Nat × Verdict → List Error) (s t : Session ρ) : Prop where
  inv : P t
  alphabet : t.generator.alphabet = s.generator.alphabet
  warnings : t.generator.warnings = s.generator.warnings ++ ks.flatMap ws
  others : ∀ k, k ∉ ks → t.words? k = s.words? k
  done : ∀ k ∈ ks, DoneAt P (part k) k (es k) (ws k) s t

/-- Parts for different slots do not disturb each other. -/
theorem local_mapM {P : Session ρ → Prop} {part : Nat × Verdict → Drawing ρ (List Example)}
    (hpart : ∀ k s es t, P s → part k s = (.ok es, t) →
      P t ∧ ∃ ws, Local k ws s t)
    {ks : List (Nat × Verdict)} {parts : List (List Example)} (hks : ks.Nodup) (hs : P s)
    (h : ks.mapM part s = (.ok parts, t)) :
    ∃ es ws, parts = ks.map es ∧ Spread P part ks es ws s t := by
  -- by induction on the slots, each part having been done in a session like the one before all
  induction ks generalizing s parts with
  | nil =>
    rw [List.mapM_nil] at h
    obtain ⟨rfl, rfl⟩ := ExceptT.pure_eq_ok.1 h
    exact ⟨fun _ => [], fun _ => [], rfl,
      { inv := hs
        alphabet := rfl
        warnings := (List.append_nil _).symm
        others := fun _ _ => rfl
        done := fun k hk => absurd hk List.not_mem_nil }⟩
  | cons k ks ih =>
    rw [List.mapM_cons] at h
    obtain ⟨e, u, hfirst, h⟩ := ExceptT.bind_eq_ok.1 h
    obtain ⟨rest, u', hrest, h⟩ := ExceptT.bind_eq_ok.1 h
    obtain ⟨rfl, rfl⟩ := ExceptT.pure_eq_ok.1 h
    obtain ⟨hk, hks⟩ := List.nodup_cons.1 hks
    obtain ⟨hu, w, hlocal⟩ := hpart k s e u hs hfirst
    obtain ⟨es, ws, rfl, hspread⟩ := ih hks hu hrest
    -- what is done at `k` is seen by no later part, and what they do is not seen at `k`
    have hne : ∀ j ∈ ks, j ≠ k := fun j hj hjk => hk (hjk ▸ hj)
    refine ⟨fun j => if j = k then e else es j, fun j => if j = k then w else ws j, ?_,
      { inv := hspread.inv
        alphabet := hspread.alphabet.trans hlocal.alphabet
        warnings := ?_
        others := fun j hj => ?_
        done := fun j hj => ?_ }⟩
    · rw [List.map_cons, if_pos rfl, List.map_congr_left fun j hj => if_neg (hne j hj)]
    · rw [List.flatMap_cons, if_pos rfl, List.flatMap_congr fun j hj => if_neg (hne j hj),
        hspread.warnings, hlocal.warnings, List.append_assoc]
    · rw [List.mem_cons, not_or] at hj
      rw [hspread.others j hj.2, hlocal.other j hj.1]
    · rcases List.mem_cons.1 hj with rfl | hj
      · simp only [if_true]
        exact ⟨s, u, hs, hfirst, hlocal, rfl, rfl, (hspread.others j hk).symm⟩
      · simp only [if_neg (hne j hj)]
        obtain ⟨v, v', hv, hdone, hlocal', halphabet, hbefore, hafter⟩ := hspread.done j hj
        exact ⟨v, v', hv, hdone, hlocal', halphabet.trans hlocal.alphabet,
          hbefore.trans (hlocal.other j (hne j hj)), hafter⟩

/-! ## What the buckets hold -/

/-- Removing words from a bucket is exact. -/
theorem relates_shrink_iff {S : Alphabet} {A R : Automaton} {used : List Word}
    (hcopies : ∀ x y, A.Relates x y → x = y ∧ x.Over S) (h : shrink S A used = .ok R)
    {x y : Word} : R.Relates x y ↔ A.Relates x y ∧ x ∉ used := by
  obtain ⟨D, hD, hR⟩ := Except.bind_eq_ok.1 h
  rw [Automaton.relates_minimize_iff hR, Automaton.relates_difference_words_iff hD,
    Automaton.accepts_iff_exists_relates]
  constructor
  · rintro ⟨rfl, ⟨z, hz⟩, -, hunused⟩
    obtain rfl := (hcopies x z hz).1
    exact ⟨hz, hunused⟩
  · rintro ⟨hxy, hunused⟩
    obtain ⟨rfl, hover⟩ := hcopies x y hxy
    exact ⟨rfl, ⟨x, hxy⟩, hover, hunused⟩

/-- The word belongs to the slot, and it is not among the examples taken. -/
def Left (target : Automaton) (S : Alphabet) (taken : List Example) (k : Nat × Verdict)
    (w : Word) : Prop :=
  Belongs target k.1 k.2 w ∧ ⟨S.render w, k.2⟩ ∉ taken

/-- The buckets hold exactly the words that are left, in deterministic automata. -/
structure Holds (target : Automaton) (taken : List Example) (s : Session ρ) : Prop where
  deterministic : ∀ k A, s.words? k = some A → A.system.Deterministic
  relates_iff : ∀ k A, s.words? k = some A →
    ∀ x y, A.Relates x y ↔ x = y ∧ Left target s.generator.alphabet taken k x

/-- Buckets that have just been built hold every word. -/
theorem holds_build (h : build target least most = .ok s.buckets) : Holds target [] s where
  deterministic := fun k A hA => deterministic_build h hA
  relates_iff := by
    intro k A hA x y
    rw [(build_spec h).2 k.1 k.2 A hA, Left]
    simp

/-- The examples drawn from a slot belong to it. -/
theorem slot_of_mem_examplesOf {S : Alphabet} {A : Automaton} {k : Nat × Verdict}
    {drawn : List Word} (hlegal : s.buckets.Legal target least most)
    (hsymbols : S.symbols = target.alphabet.symbols) (hA : s.words? k = some A)
    (hdrawn : ∀ w ∈ drawn, A.Relates w w) : ∀ e ∈ examplesOf S k.2 drawn, e.slot = k := by
  intro e he
  obtain ⟨w, hw, rfl⟩ := List.mem_map.1 he
  exact hlegal.slot_of_relates hsymbols hA (hdrawn w hw)

/-- A slot is empty if none of its words is left. -/
theorem isEmpty_iff_of_holds {taken : List Example} (hholds : Holds target taken s)
    {k : Nat × Verdict} {A : Automaton} (hA : s.words? k = some A) :
    A.isEmpty = true ↔ ¬ ∃ w, Left target s.generator.alphabet taken k w := by
  rw [Automaton.isEmpty_iff]
  constructor
  · rintro hempty ⟨w, hw⟩
    obtain ⟨ls, hls, -⟩ :=
      Automaton.relates_iff_carries.1 ((hholds.relates_iff k A hA w w).2 ⟨rfl, hw⟩)
    exact hempty ls hls
  · intro hnone ls hls
    have hrelates := Automaton.relates_iff_carries.2 ⟨ls, hls, rfl, rfl⟩
    exact hnone ⟨_, ((hholds.relates_iff k A hA _ _).1 hrelates).2⟩

/-- A word of a slot is among the examples of a split exactly if it is among the words drawn for the
slot. -/
theorem mem_flatMap_examples_iff {S : Alphabet} {ks : List (Nat × Verdict)}
    {es : Nat × Verdict → List Example} (hslot : ∀ k ∈ ks, ∀ e ∈ es k, e.slot = k)
    {k : Nat × Verdict} (hk : k ∈ ks) {drawn : List Word} (hes : es k = examplesOf S k.2 drawn)
    (hdrawn : ∀ w ∈ drawn, w.Over S) {x : Word} (hx : x.Over S) (hlength : x.length = k.1) :
    ⟨S.render x, k.2⟩ ∈ ks.flatMap es ↔ x ∈ drawn := by
  have hslotx : (Example.mk (S.render x) k.2).slot = k := by
    show ((S.render x).length, k.2) = k
    rw [Alphabet.length_render hx, hlength]
  rw [List.mem_flatMap]
  constructor
  · rintro ⟨j, hj, hmem⟩
    obtain rfl : k = j := hslotx.symm.trans (hslot j hj _ hmem)
    rw [hes] at hmem
    obtain ⟨w, hw, heq⟩ := List.mem_map.1 hmem
    have hrender : S.render w = S.render x := congrArg Example.word heq
    exact Alphabet.render_inj (hdrawn w hw) hx hrender ▸ hw
  · exact fun hxdrawn => ⟨k, hk, hes ▸ List.mem_map_of_mem hxdrawn⟩

/-- What the part of a split with duplicates does at a slot that has words. -/
structure DrawnAt (s t : Session ρ) (n : Nat) (shrinking : Bool) (k : Nat × Verdict)
    (A A' : Automaton) (drawn : List Word) : Prop where
  before : s.words? k = some A
  after : t.words? k = some A'
  relates : ∀ w ∈ drawn, A.Relates w w
  length : drawn.length = if A.isEmpty then 0 else n
  deterministic : A'.system.Deterministic
  relates_iff : ∀ x y, A'.Relates x y ↔ A.Relates x y ∧ (shrinking = true → x ∉ drawn)

/-- If words are drawn at every slot of the range, the buckets hold afterwards what they held before
without the examples drawn, if these were removed. -/
theorem holds_of_drawnAt {n : Nat} {shrinking : Bool} {taken : List Example}
    {es : Nat × Verdict → List Example} (hlegal : t.buckets.Legal target least most)
    (halphabet : t.generator.alphabet = s.generator.alphabet)
    (hsymbols : s.generator.alphabet.symbols = target.alphabet.symbols)
    (hslot : ∀ k ∈ slots s.buckets, ∀ e ∈ es k, e.slot = k)
    (hdone : ∀ k, (LengthRange.mk least most).Has k.1 → k ∈ slots s.buckets
      ∧ ∃ A A' drawn, DrawnAt s t n shrinking k A A' drawn
        ∧ es k = examplesOf s.generator.alphabet k.2 drawn)
    (hholds : Holds target taken s) :
    Holds target (if shrinking then taken ++ (slots s.buckets).flatMap es else taken) t := by
  have hhas : ∀ k A', t.words? k = some A' → (LengthRange.mk least most).Has k.1 :=
    fun k A' hA' => (hlegal.isSome_iff k.1 k.2).1 (Option.isSome_of_eq_some hA')
  constructor
  case deterministic =>
    intro k A' hA'
    obtain ⟨-, A, A₁', drawn, hdrawn, -⟩ := hdone k (hhas k A' hA')
    obtain rfl := Option.some.inj (hA'.symm.trans hdrawn.after)
    exact hdrawn.deterministic
  case relates_iff =>
    intro k A' hA' x y
    obtain ⟨hk, A, A₁', drawn, hdrawn, hes⟩ := hdone k (hhas k A' hA')
    obtain rfl := Option.some.inj (hA'.symm.trans hdrawn.after)
    have hover : ∀ w, Belongs target k.1 k.2 w → w.Over s.generator.alphabet := fun w hw =>
      (Word.over_congr hsymbols).2 hw.1
    have hdrawnOver : ∀ w ∈ drawn, w.Over s.generator.alphabet := fun w hw =>
      hover w ((hholds.relates_iff k A hdrawn.before w w).1 (hdrawn.relates w hw)).2.1
    rw [hdrawn.relates_iff, hholds.relates_iff k A hdrawn.before, halphabet, and_assoc]
    refine and_congr_right fun _ => ?_
    rw [Left, Left, and_assoc]
    refine and_congr_right fun hbelongs => ?_
    -- of the examples drawn, those with this word are the ones of its slot
    have hmem := mem_flatMap_examples_iff hslot hk hes hdrawnOver (hover x hbelongs) hbelongs.2.1
    cases shrinking with
    | false => simp
    | true => simp [hmem]

/-! ## Splits with duplicates -/

variable [RandomSource ρ]

/-- Drawing with duplicates touches one slot and gives no warning. -/
theorem duplicatesAt_local {n : Nat} {shrinking : Bool} {k : Nat × Verdict} {es : List Example}
    (h : duplicatesAt n shrinking k.1 k.2 s = (.ok es, t)) :
    Local k [] s t := by
  rcases duplicatesAt_cases h with ⟨-, -, rfl⟩ | ⟨A, drawn, sampler, hA, -, -, hgenerator, h⟩
  · exact ⟨rfl, (List.append_nil _).symm, fun _ _ => rfl⟩
  · refine ⟨by rw [hgenerator], by rw [hgenerator, List.append_nil], fun j hj => ?_⟩
    rcases h with ⟨-, hbuckets⟩ | ⟨-, R, -, hbuckets⟩
    · rw [words?, hbuckets, words?]
    · rw [words?, hbuckets, words?_set hA, if_neg hj]

/-- Where there are words, a slot gets as many examples as requested if there is any word, and the
words drawn are removed if `shrinking`. -/
theorem duplicatesAt_spec {n : Nat} {shrinking : Bool} {k : Nat × Verdict} {es : List Example}
    {A : Automaton} (hlegal : s.buckets.Legal target least most)
    (hsymbols : s.generator.alphabet.symbols = target.alphabet.symbols)
    (hA : s.words? k = some A) (hdeterministic : A.system.Deterministic)
    (hbound : k.1 + k.1 ≤ s.bound)
    (h : duplicatesAt n shrinking k.1 k.2 s = (.ok es, t)) :
    ∃ drawn A', es = examplesOf s.generator.alphabet k.2 drawn ∧ (∀ w ∈ drawn, A.Relates w w)
      ∧ drawn.length = (if A.isEmpty then 0 else n)
      ∧ t.words? k = some A' ∧ A'.system.Deterministic
      ∧ ∀ x y, A'.Relates x y ↔ A.Relates x y ∧ (shrinking = true → x ∉ drawn) := by
  have hbelongs := hlegal.belongs k.1 k.2 A hA
  rcases duplicatesAt_cases h with ⟨hnone, -⟩ | ⟨A₁, drawn, sampler, hA₁, hsample, hes, -, h⟩
  · rw [hA] at hnone
    cases hnone
  obtain rfl := Option.some.inj (hA.symm.trans hA₁)
  -- all words of a bucket have one length, so every walk ends within the bound
  have hlength : drawn.length = if A.isEmpty then 0 else n := by
    refine Sampler.length_sampleWithDuplicates (Automaton.Spans.mono ?_ hbound) hsample
    refine Automaton.spans_of_relates hdeterministic fun x y hxy => ?_
    obtain ⟨rfl, -, hx, -⟩ := hbelongs x y hxy
    rw [hx]
  have hdrawn : ∀ w ∈ drawn, A.Relates w w := fun w hw => by
    obtain ⟨x, hx⟩ := Sampler.relates_of_mem_sampleWithDuplicates hsample hw
    obtain rfl := (hbelongs x w hx).1
    exact hx
  have hcopies : ∀ x y, A.Relates x y → x = y ∧ x.Over s.generator.alphabet := fun x y hxy => by
    obtain ⟨heq, hover, -⟩ := hbelongs x y hxy
    exact ⟨heq, (Word.over_congr hsymbols).2 hover⟩
  rcases h with ⟨hkept, hbuckets⟩ | ⟨hshrinking, R, hR, hbuckets⟩
  · refine ⟨drawn, A, hes, hdrawn, hlength, by rw [words?, hbuckets]; exact hA, hdeterministic,
      fun x y => ?_⟩
    -- either nothing is removed, or there is nothing to remove
    refine (and_iff_left fun hshrinking => ?_).symm
    rw [hkept hshrinking]
    exact List.not_mem_nil
  · obtain ⟨D, -, hminimal⟩ := Except.bind_eq_ok.1 hR
    refine ⟨drawn, R, hes, hdrawn, hlength, by rw [words?, hbuckets, words?_set hA, if_pos rfl],
      (Automaton.ordered_minimize hminimal).deterministic, fun x y => ?_⟩
    rw [relates_shrink_iff hcopies hR]
    simp only [hshrinking, true_implies]

/-- What a split with duplicates does at each slot, seen from before and after the split. -/
theorem withDuplicates_spread {name : String} {n : Nat} {shrinking : Bool} {split : Split}
    {taken : List Example} (hlegal : s.buckets.Legal target least most)
    (hsymbols : s.generator.alphabet.symbols = target.alphabet.symbols)
    (hbound : ∀ length, (LengthRange.mk least most).Has length → length + length ≤ s.bound)
    (hholds : Holds target taken s) (h : withDuplicates name n shrinking s = (.ok split, t)) :
    ∃ es ws, split = ⟨name, (slots s.buckets).flatMap es⟩
      ∧ Spread (fun u => u.buckets.Legal target least most ∧ u.bound = s.bound)
          (fun k => duplicatesAt n shrinking k.1 k.2) (slots s.buckets) es ws s t
      ∧ (∀ k ∈ slots s.buckets, ws k = [])
      ∧ ∀ k ∈ slots s.buckets, (s.words? k = none ∧ es k = [])
          ∨ ∃ A A' drawn, DrawnAt s t n shrinking k A A' drawn
            ∧ es k = examplesOf s.generator.alphabet k.2 drawn := by
  obtain ⟨parts, rfl, hparts⟩ := withDuplicates_eq_ok h
  obtain ⟨es, ws, rfl, hspread⟩ := local_mapM
    (P := fun u => u.buckets.Legal target least most ∧ u.bound = s.bound)
    (fun k u es u' ⟨hlegal, hsame⟩ h => by
      obtain ⟨ps, -, htakes⟩ := duplicatesAt_takes hlegal h
      have hkept := (keepsBound_duplicatesAt n shrinking k.1 k.2).eq h
      exact ⟨⟨hlegal.shrinks htakes.shrinks, hkept.trans hsame⟩, [], duplicatesAt_local h⟩)
    (nodup_slots s.buckets) ⟨hlegal, rfl⟩ hparts
  refine ⟨es, ws, by rw [List.flatMap_def], hspread, fun k hk => ?_, fun k hk => ?_⟩
  · obtain ⟨v, v', -, hpart, hlocal, -⟩ := hspread.done k hk
    exact List.append_cancel_left (hlocal.warnings.symm.trans (duplicatesAt_local hpart).warnings)
  · obtain ⟨v, v', ⟨hlegal', hsame⟩, hpart, hlocal, halphabet, hbefore, hafter⟩ :=
      hspread.done k hk
    cases hA : s.words? k with
    | none =>
      rcases duplicatesAt_cases hpart with ⟨-, hes, -⟩ | ⟨A, -, -, hsome, -⟩
      · exact .inl ⟨rfl, hes⟩
      · rw [hbefore, hA] at hsome
        cases hsome
    | some A =>
      -- where there are words, the length is one of the range, for which the bound suffices
      have hhas : (LengthRange.mk least most).Has k.1 := by
        by_contra hnot
        have hnone : s.words? k = none := hlegal.get?_eq_none_iff.2 hnot
        rw [hA] at hnone
        cases hnone
      have hbound' : k.1 + k.1 ≤ v.bound := by
        rw [hsame]
        exact hbound k.1 hhas
      obtain ⟨drawn, A', hes, hdrawn, hlength, hA', hdeterministic, hrelates⟩ :=
        duplicatesAt_spec hlegal' (by rw [halphabet, hsymbols]) (hbefore.trans hA)
          (hholds.deterministic k A hA) hbound' hpart
      rw [halphabet] at hes
      exact .inr ⟨A, A', drawn, ⟨hA, hafter.symm.trans hA', hdrawn, hlength, hdeterministic,
        hrelates⟩, hes⟩

/-- A split with duplicates has as many examples as requested for each slot that has a word left,
and none for the others. It records no warning. -/
theorem withDuplicates_spec {name : String} {n : Nat} {shrinking : Bool} {split : Split}
    {taken : List Example} (hlegal : s.buckets.Legal target least most)
    (hsymbols : s.generator.alphabet.symbols = target.alphabet.symbols)
    (hbound : ∀ length, (LengthRange.mk least most).Has length → length + length ≤ s.bound)
    (hholds : Holds target taken s) (h : withDuplicates name n shrinking s = (.ok split, t)) :
    split.name = name ∧ t.generator.alphabet = s.generator.alphabet
      ∧ t.generator.warnings = s.generator.warnings
      ∧ Holds target (if shrinking then taken ++ split.examples else taken) t
      ∧ ∀ k, (LengthRange.mk least most).Has k.1 →
          ((∃ w, Left target s.generator.alphabet taken k w) → split.count k.1 k.2 = n)
            ∧ ((¬ ∃ w, Left target s.generator.alphabet taken k w) → split.count k.1 k.2 = 0) := by
  obtain ⟨es, ws, rfl, hspread, hws, hes⟩ :=
    withDuplicates_spread hlegal hsymbols hbound hholds h
  have hslot : ∀ k ∈ slots s.buckets, ∀ e ∈ es k, e.slot = k := fun k hk => by
    rcases hes k hk with ⟨-, hnil⟩ | ⟨A, A', drawn, hdrawn, hes⟩
    · rw [hnil]
      exact fun e he => absurd he List.not_mem_nil
    · rw [hes]
      exact slot_of_mem_examplesOf hlegal hsymbols hdrawn.before hdrawn.relates
  -- every slot of the range has words in the beginning, be they none, so it is drawn from
  have hdone : ∀ k, (LengthRange.mk least most).Has k.1 → k ∈ slots s.buckets
      ∧ ∃ A A' drawn, DrawnAt s t n shrinking k A A' drawn
        ∧ es k = examplesOf s.generator.alphabet k.2 drawn := by
    intro k hhas
    obtain ⟨A, hA⟩ := Option.isSome_iff_exists.1 ((hlegal.isSome_iff k.1 k.2).2 hhas)
    have hk := mem_slots_of_get? hA
    refine ⟨hk, (hes k hk).resolve_left fun ⟨hnone, _⟩ => ?_⟩
    rw [show s.words? k = some A from hA] at hnone
    cases hnone
  refine ⟨rfl, hspread.alphabet, ?_,
    holds_of_drawnAt hspread.inv.1 hspread.alphabet hsymbols hslot hdone hholds, ?_⟩
  · rw [hspread.warnings, List.flatMap_eq_nil_iff.2 hws, List.append_nil]
  · intro k hhas
    obtain ⟨hk, A, A', drawn, hdrawn, hes⟩ := hdone k hhas
    have hempty := isEmpty_iff_of_holds hholds hdrawn.before
    have hcount : Split.count ⟨name, (slots s.buckets).flatMap es⟩ k.1 k.2 = (es k).length :=
      countP_flatMap_of_key (nodup_slots _) hslot hk
    rw [hcount, hes, examplesOf, List.length_map, hdrawn.length]
    constructor
    · exact fun hleft => if_neg fun h => hempty.1 h hleft
    · exact fun hnone => if_pos (hempty.2 hnone)

/-! ## Splits without duplicates -/

/-- At most so many words are handed back as requested, and what is missing is the shortfall. -/
theorem length_sampleDistinct {A : Automaton} {n retries : Nat} {sample : Sample}
    {sampler sampler' : Sampler ρ}
    (h : Sampler.sampleDistinct A n retries sampler = (.ok sample, sampler')) :
    sample.words.length ≤ n
      ∧ sample.shortfall = Sampler.shortfall? n sample.words.length := by
  rcases Sampler.sampleDistinct_cases h with
    ⟨-, rfl, -⟩ | ⟨-, batch, chosen, _, -, -, -, hwords, hshortfall⟩
  · exact ⟨Nat.zero_le n, rfl⟩
  · refine ⟨?_, hshortfall⟩
    rw [hwords, List.length_mergeSort]
    exact List.length_take_le n chosen

/-- Drawing without duplicates touches one slot, and its one warning is the shortfall there. -/
theorem distinctAt_local {n : Nat} {k : Nat × Verdict} {es : List Example}
    (h : distinctAt n k.1 k.2 s = (.ok es, t)) :
    es.length ≤ n
      ∧ Local k (if (s.words? k).isSome then (Sampler.shortfall? n es.length).toList else []) s t
      := by
  rcases distinctAt_cases h with
    ⟨hnone, rfl, rfl⟩ | ⟨A, sample, sampler, hA, hsample, rfl, hgenerator, hbuckets⟩
  · rw [hnone]
    exact ⟨Nat.zero_le n, rfl, (List.append_nil _).symm, fun _ _ => rfl⟩
  · obtain ⟨hlength, hshortfall⟩ := length_sampleDistinct hsample
    rw [hA, examplesOf, List.length_map, Option.isSome_some, if_pos rfl, ← hshortfall]
    refine ⟨hlength, by rw [hgenerator], by rw [hgenerator], fun j hj => ?_⟩
    rw [words?, hbuckets, words?_set hA, if_neg hj]

/-- What a split without duplicates does at each slot: the examples are of the slot, at most as many
as requested, and what they lack is recorded if the slot is one of the range. -/
theorem withoutDuplicates_spread {name : String} {n : Nat} {split : Split}
    (hlegal : s.buckets.Legal target least most)
    (hsymbols : s.generator.alphabet.symbols = target.alphabet.symbols)
    (h : withoutDuplicates name n s = (.ok split, t)) :
    ∃ es ws, split = ⟨name, (slots s.buckets).flatMap es⟩
      ∧ Spread (fun u => u.buckets.Legal target least most) (fun k => distinctAt n k.1 k.2)
          (slots s.buckets) es ws s t
      ∧ (∀ k ∈ slots s.buckets, ∀ e ∈ es k, e.slot = k)
      ∧ (∀ k ∈ slots s.buckets, (es k).length ≤ n)
      ∧ ∀ k ∈ slots s.buckets,
          ws k = (LengthRange.mk least most).shortfallAt n k.1 (es k).length := by
  obtain ⟨parts, rfl, hparts⟩ := withoutDuplicates_eq_ok h
  obtain ⟨es, ws, rfl, hspread⟩ := local_mapM
    (P := fun u => u.buckets.Legal target least most)
    (fun k u es u' hlegal h => by
      obtain ⟨ps, -, htakes⟩ := distinctAt_takes hlegal h
      exact ⟨hlegal.shrinks htakes.shrinks, _, (distinctAt_local h).2⟩)
    (nodup_slots s.buckets) hlegal hparts
  refine ⟨es, ws, by rw [List.flatMap_def], hspread, fun k hk => ?_, fun k hk => ?_,
    fun k hk => ?_⟩
  · obtain ⟨v, v', hlegal', hpart, -, halphabet, -⟩ := hspread.done k hk
    rcases distinctAt_cases hpart with ⟨-, hes, -⟩ | ⟨A, sample, sampler, hA, hsample, hes, -⟩
    · rw [hes]
      exact fun e he => absurd he List.not_mem_nil
    · rw [hes]
      refine slot_of_mem_examplesOf hlegal' (by rw [halphabet, hsymbols]) hA ?_
      exact (sampleDistinct_spec (hlegal'.eq_of_relates hA) hsample).2.1
  · obtain ⟨v, v', -, hpart, -⟩ := hspread.done k hk
    exact (distinctAt_local hpart).1
  · -- whether there are words is the same in the beginning as when it is the turn of the slot
    obtain ⟨v, v', -, hpart, hlocal, -, hbefore, -⟩ := hspread.done k hk
    have hsame := hlocal.warnings.symm.trans (distinctAt_local hpart).2.warnings
    have hsome : (v.words? k).isSome = true ↔ (LengthRange.mk least most).Has k.1 := by
      rw [hbefore]
      exact hlegal.isSome_iff k.1 k.2
    rw [List.append_cancel_left hsame]
    simp only [hsome]
    rfl

/-- A split without duplicates has at most as many examples as requested for each slot, and records
a warning for each slot of the range that has fewer. -/
theorem withoutDuplicates_spec {name : String} {n : Nat} {split : Split}
    (hlegal : s.buckets.Legal target least most)
    (hsymbols : s.generator.alphabet.symbols = target.alphabet.symbols)
    (h : withoutDuplicates name n s = (.ok split, t)) :
    split.name = name ∧ t.generator.alphabet = s.generator.alphabet
      ∧ t.generator.warnings = s.generator.warnings
          ++ (LengthRange.mk least most).slots.filterMap
              (fun k => Sampler.shortfall? n (split.count k.1 k.2))
      ∧ ∀ k : Nat × Verdict, split.count k.1 k.2 ≤ n := by
  obtain ⟨es, ws, rfl, hspread, hslot, hmost, hws⟩ := withoutDuplicates_spread hlegal hsymbols h
  have hcount : ∀ k ∈ slots s.buckets,
      Split.count ⟨name, (slots s.buckets).flatMap es⟩ k.1 k.2 = (es k).length :=
    fun k hk => countP_flatMap_of_key (nodup_slots _) hslot hk
  refine ⟨rfl, hspread.alphabet, ?_, fun k => ?_⟩
  · have hparts : (slots s.buckets).flatMap ws
        = (slots s.buckets).flatMap fun k => (LengthRange.mk least most).shortfallAt n k.1
            (Split.count ⟨name, (slots s.buckets).flatMap es⟩ k.1 k.2) :=
      List.flatMap_congr fun k hk => by rw [hws k hk, hcount k hk]
    -- the slots of the buckets are those of the range, if there are any
    rw [hspread.warnings, hparts,
      hlegal.flatMap_slots fun k hk => LengthRange.shortfallAt_of_not_has hk _ _,
      List.filterMap_eq_flatMap_toList]
    congr 1
    exact List.flatMap_congr fun k hk =>
      LengthRange.shortfallAt_of_has (LengthRange.mem_slots_iff.1 hk) _ _
  · by_cases hk : k ∈ slots s.buckets
    · rw [hcount k hk]
      exact hmost k hk
    · have hzero : Split.count ⟨name, (slots s.buckets).flatMap es⟩ k.1 k.2 = 0 :=
        countP_flatMap_of_not_mem hslot hk
      rw [hzero]
      exact Nat.zero_le n

end Session

end FiniteState
