import FiniteState.Proofs.Counting

/-!
# The languages of the catalog

An entry of the catalog is a Boolean combination of tests for repeated letters. Its construction
follows its description step by step, so the entry denotes the language that its class and number
stand for, and minimization makes it the only automaton that does.

* `conditions`: what the words of the entries of a class look like, by number.
* `build_documented`: the entries are the documented ones, and determined by their languages.
-/

open scoped List

namespace FiniteState

open Automaton

namespace Catalog

variable {S : Alphabet} {a b : Symbol} {C : Catalog} {star A : Automaton}
variable {contains : OccurrenceTest} {within : Word → Word → Prop}

/-! ## The documented languages -/

/-- Powers of `b` of three lengths are not found in the word. -/
def forbidden (within : Word → Word → Prop) (b : Symbol) : List (Word → Prop) :=
  [2, 4, 8].map fun n w => ¬ within (List.replicate n b) w

/-- Powers of `a` and `b` are found in the word, in four combinations. -/
def tested (within : Word → Word → Prop) (a b : Symbol) : List (Word → Prop) :=
  [fun w => within (List.replicate 2 b) w,
   fun w => within (List.replicate 4 b) w ∨ within (List.replicate 4 a) w,
   fun w => within (List.replicate 4 b) w ∧ within (List.replicate 4 a) w,
   fun w => within (List.replicate 8 b) w → within (List.replicate 8 a) w]

/-- What the words of a class look like, by the number of the entry. -/
def conditions (a b : Symbol) : LanguageClass → List (Word → Prop)
  | .strictlyLocal => forbidden (· <:+: ·) b
  | .strictlyPiecewise => forbidden (· <+ ·) b
  | .locallyTestable => tested (· <:+: ·) a b
  | .piecewiseTestable => tested (· <+ ·) a b
  | .locallyThresholdTestable | .starFree | .regular => []

/-- The entry accepts the words of its class and number. -/
def Denotes (S : Alphabet) (a b : Symbol) (e : CatalogEntry) : Prop :=
  ∃ P, (conditions a b e.cls)[e.index]? = some P ∧ e.automaton.Defines S P

/-- The class and the number of an entry. -/
def key (e : CatalogEntry) : LanguageClass × Nat := (e.cls, e.index)

/-- The classes and numbers with a language. -/
def keys (a b : Symbol) : List (LanguageClass × Nat) :=
  LanguageClass.all.flatMap fun cls => (List.range (conditions a b cls).length).map (cls, ·)

/-- The keys of a class are numbered as its conditions are. -/
theorem mem_keys_iff {cls : LanguageClass} {index : Nat} :
    (cls, index) ∈ keys a b ↔ index < (conditions a b cls).length := by
  have hall : cls ∈ LanguageClass.all := by cases cls <;> decide
  rw [keys, List.mem_flatMap]
  constructor
  · rintro ⟨cls', -, h⟩
    obtain ⟨i, hi, heq⟩ := List.mem_map.1 h
    obtain ⟨rfl, rfl⟩ := Prod.mk.inj heq
    exact List.mem_range.1 hi
  · exact fun h => ⟨cls, hall, List.mem_map.2 ⟨index, List.mem_range.2 h, rfl⟩⟩

/-! ## Entries

Thresholds and combinations are loops over lists. One step of a loop appends entries, and `Listed`
says of any part of the catalog what it holds. -/

/-- A test finds the powers of a letter in the words over Σ. -/
def Finds (S : Alphabet) (contains : OccurrenceTest) (within : Word → Word → Prop) : Prop :=
  ∀ x s n A, S.symbol x = .ok s → 0 < n → contains x n = .ok A →
    A.Defines S (within (List.replicate n s))

theorem finds_substring (S : Alphabet) : Finds S (containingSubstring S) (· <:+: ·) :=
  fun _ _ _ _ hs _ h => defines_containingSubstring hs h

/-- The second test finds powers spread over the word. -/
theorem finds_subsequence (S : Alphabet) : Finds S (containingSubsequence S) (· <+ ·) := by
  intro x s n A hs hn h
  obtain ⟨m, rfl⟩ := Nat.exists_eq_succ_of_ne_zero hn.ne'
  exact defines_containingSubsequence hs h

/-- Taking the test away from `Σ*` leaves the words without that power. The power is not empty,
since every word has the empty one in it. -/
theorem Finds.avoiding (hfinds : Finds S contains within) (hb : S.symbol 'b' = .ok b)
    (hstar : star.Defines S fun _ => True) {n : Nat} (hn : 0 < n)
    (h : avoiding star contains n = .ok A) :
    A.Defines S fun w => ¬ within (List.replicate n b) w := by
  obtain ⟨B, hB, h⟩ := Except.bind_eq_ok.1 h
  refine (hstar.difference (hfinds _ _ _ _ hb hn hB) h).congr fun w _ => ?_
  rw [true_and]

/-- The entries have these classes and numbers, and accept what belongs to them. -/
structure Listed (S : Alphabet) (a b : Symbol) (ks : List (LanguageClass × Nat))
    (es : List CatalogEntry) : Prop where
  keys_eq : es.map key = ks
  denotes : ∀ e ∈ es, Denotes S a b e

theorem Listed.nil : Listed S a b [] [] := ⟨rfl, nofun⟩

theorem Listed.cons {e : CatalogEntry} {es : List CatalogEntry} {ks : List (LanguageClass × Nat)}
    (he : Denotes S a b e) (h : Listed S a b ks es) : Listed S a b (key e :: ks) (e :: es) := by
  refine ⟨by rw [List.map_cons, h.keys_eq], fun e' he' => ?_⟩
  rcases List.mem_cons.1 he' with rfl | he'
  · exact he
  · exact h.denotes e' he'

/-- Lists of entries are put together with their keys. -/
theorem Listed.append {es fs : List CatalogEntry} {ks ls : List (LanguageClass × Nat)}
    (h : Listed S a b ks es) (h' : Listed S a b ls fs) : Listed S a b (ks ++ ls) (es ++ fs) := by
  refine ⟨by rw [List.map_append, h.keys_eq, h'.keys_eq], fun e he => ?_⟩
  rcases List.mem_append.1 he with he | he
  · exact h.denotes e he
  · exact h'.denotes e he

/-- Each threshold adds an entry to both classes. -/
theorem listed_forbidding (a : Symbol) (hb : S.symbol 'b' = .ok b)
    (hstar : star.Defines S fun _ => True) {thresholds : List (Nat × Nat)}
    (hthresholds : ∀ p ∈ thresholds, 0 < p.2 ∧ [2, 4, 8][p.1]? = some p.2)
    {sl sp : List CatalogEntry}
    (h : forbidding star (containingSubstring S) (containingSubsequence S) thresholds
      = .ok (sl, sp)) :
    Listed S a b (thresholds.map fun p => (.strictlyLocal, p.1)) sl
      ∧ Listed S a b (thresholds.map fun p => (.strictlyPiecewise, p.1)) sp := by
  have hcondition : ∀ {within : Word → Word → Prop} {p : Nat × Nat}, [2, 4, 8][p.1]? = some p.2 →
      (forbidden within b)[p.1]? = some fun w => ¬ within (List.replicate p.2 b) w := by
    intro within p hp
    rw [forbidden, List.getElem?_map, hp]
    rfl
  -- by induction on the thresholds: each step gives one entry to either class
  induction thresholds generalizing sl sp with
  | nil =>
    cases h
    exact ⟨.nil, .nil⟩
  | cons p rest ih =>
    obtain ⟨A, hA, h⟩ := Except.bind_eq_ok.1 h
    obtain ⟨B, hB, h⟩ := Except.bind_eq_ok.1 h
    obtain ⟨⟨sls, sps⟩, hrest, h⟩ := Except.bind_eq_ok.1 h
    cases h
    obtain ⟨hsls, hsps⟩ := ih (fun p hp => hthresholds p (List.mem_cons_of_mem _ hp)) hrest
    obtain ⟨hpos, hp⟩ := hthresholds p List.mem_cons_self
    have hsl : Denotes S a b ⟨.strictlyLocal, p.1, A⟩ :=
      ⟨_, hcondition hp, (finds_substring S).avoiding hb hstar hpos hA⟩
    have hsp : Denotes S a b ⟨.strictlyPiecewise, p.1, B⟩ :=
      ⟨_, hcondition hp, (finds_subsequence S).avoiding hb hstar hpos hB⟩
    exact ⟨hsls.cons hsl, hsps.cons hsp⟩

/-- The four combinations of a test are entries of one class. -/
theorem listed_testing (hfinds : Finds S contains within) (ha : S.symbol 'a' = .ok a)
    (hb : S.symbol 'b' = .ok b) (hstar : star.Defines S fun _ => True) {cls : LanguageClass}
    (hcls : conditions a b cls = tested within a b) {es : List CatalogEntry}
    (h : testing star cls contains = .ok es) :
    Listed S a b [(cls, 0), (cls, 1), (cls, 2), (cls, 3)] es := by
  have hdefines : ∀ {x s n A}, S.symbol x = .ok s → contains x (n + 1) = .ok A →
      A.Defines S (within (List.replicate (n + 1) s)) :=
    fun hs hA => hfinds _ _ _ _ hs (Nat.succ_pos _) hA
  obtain ⟨two, htwo, h⟩ := Except.bind_eq_ok.1 h
  obtain ⟨b₁, hb₁, h⟩ := Except.bind_eq_ok.1 h
  obtain ⟨a₁, ha₁, h⟩ := Except.bind_eq_ok.1 h
  obtain ⟨either, heither, h⟩ := Except.bind_eq_ok.1 h
  obtain ⟨b₂, hb₂, h⟩ := Except.bind_eq_ok.1 h
  obtain ⟨a₂, ha₂, h⟩ := Except.bind_eq_ok.1 h
  obtain ⟨both, hboth, h⟩ := Except.bind_eq_ok.1 h
  obtain ⟨without, hwithout, h⟩ := Except.bind_eq_ok.1 h
  obtain ⟨a₃, ha₃, h⟩ := Except.bind_eq_ok.1 h
  obtain ⟨implied, himplied, h⟩ := Except.bind_eq_ok.1 h
  cases h
  -- the class is rewritten here once, so that the four entries need no more than `rfl`
  have hentry : ∀ {i P A}, (tested within a b)[i]? = some P → A.Defines S P →
      Denotes S a b ⟨cls, i, A⟩ := by
    intro i P A hP hA
    rw [← hcls] at hP
    exact ⟨P, hP, hA⟩
  have hwithout' := hfinds.avoiding hb hstar (Nat.succ_pos 7) hwithout
  have himplies := (hwithout'.union (hdefines ha ha₃) himplied).congr
    fun w _ => imp_iff_not_or.symm
  exact .cons (hentry rfl (hdefines hb htwo)) <|
    .cons (hentry rfl ((hdefines hb hb₁).union (hdefines ha ha₁) heither)) <|
    .cons (hentry rfl ((hdefines hb hb₂).intersection (hdefines ha ha₂) hboth)) <|
    .cons (hentry rfl himplies) .nil

/-- Minimization keeps the classes, the numbers and the languages. -/
theorem Listed.minimize {ks : List (LanguageClass × Nat)} {es fs : List CatalogEntry}
    (h : Listed S a b ks es) (hfs : es.mapM (·.minimize) = .ok fs) :
    Listed S a b ks fs ∧ ∀ f ∈ fs, f.automaton.Canonical := by
  have hminimize : ∀ {e f : CatalogEntry}, e.minimize = .ok f →
      key e = key f ∧ e.automaton.minimize = .ok f.automaton := by
    intro e f hf
    obtain ⟨A, hA, hf⟩ := Except.bind_eq_ok.1 hf
    cases hf
    exact ⟨rfl, hA⟩
  have hentries := Except.forall₂_of_mapM hfs
  have hkeys : List.Forall₂ (· = ·) (es.map key) (fs.map key) := by
    rw [List.forall₂_map_left_iff, List.forall₂_map_right_iff]
    exact hentries.imp fun e f hf => (hminimize hf).1
  rw [List.forall₂_eq_eq_eq] at hkeys
  refine ⟨⟨hkeys ▸ h.keys_eq, fun f hf => ?_⟩, fun f hf => ?_⟩
  · obtain ⟨e, he, hef⟩ := exists_left_of_forall₂ hentries hf
    obtain ⟨hkey, hautomaton⟩ := hminimize hef
    obtain ⟨hcls, hindex⟩ := Prod.mk.inj hkey
    obtain ⟨P, hP, hdefines⟩ := h.denotes e he
    rw [hcls, hindex] at hP
    exact ⟨P, hP, hdefines.minimize hautomaton⟩
  · obtain ⟨e, -, hef⟩ := exists_left_of_forall₂ hentries hf
    exact canonical_minimize (hminimize hef).2

/-! ## The catalog -/

/-- The entries of a catalog are those documented, in order, and each is canonical. -/
theorem listed_build (ha : S.symbol 'a' = .ok a) (hb : S.symbol 'b' = .ok b)
    (h : build S = .ok C) :
    Listed S a b (keys a b) C.entries ∧ ∀ e ∈ C.entries, e.automaton.Canonical := by
  obtain ⟨star, hstar, h⟩ := Except.bind_eq_ok.1 h
  obtain ⟨⟨sl, sp⟩, hforbidding, h⟩ := Except.bind_eq_ok.1 h
  obtain ⟨lt, hlt, h⟩ := Except.bind_eq_ok.1 h
  obtain ⟨pt, hpt, h⟩ := Except.bind_eq_ok.1 h
  obtain ⟨entries, hentries, h⟩ := Except.bind_eq_ok.1 h
  cases h
  have hall : star.Defines S fun _ => True := (defines_sigmaStar S).minimize hstar
  obtain ⟨hsl, hsp⟩ := listed_forbidding a hb hall (by decide) hforbidding
  have hlt' := listed_testing (finds_substring S) ha hb hall rfl hlt
  have hpt' := listed_testing (finds_subsequence S) ha hb hall rfl hpt
  exact (((hsl.append hsp).append hlt').append hpt').minimize hentries

/-- No power is found in the empty word. -/
theorem exists_of_mem_forbidden (hwithin : ∀ u w, within u w → u <+ w) {P : Word → Prop}
    (hP : P ∈ forbidden within b) : ∃ w : Word, w.Over S ∧ P w := by
  obtain ⟨n, hn, rfl⟩ := List.mem_map.1 hP
  refine ⟨[], nofun, fun h => ?_⟩
  have hempty : n = 0 := by simpa using hwithin _ _ h
  subst hempty
  exact absurd hn (by decide)

/-- All powers are found in a word made of both letters. -/
theorem exists_of_mem_tested (hwithin : ∀ u w, u <:+: w → within u w) (ha : S.contains a = true)
    (hb : S.contains b = true) {P : Word → Prop} (hP : P ∈ tested within a b) :
    ∃ w : Word, w.Over S ∧ P w := by
  -- one word will do for all four, as the greatest power asked for is the eighth
  have hover : Word.Over S (List.replicate 8 b ++ List.replicate 8 a) :=
    Word.over_append_iff.2 ⟨Word.over_replicate hb 8, Word.over_replicate ha 8⟩
  refine ⟨_, hover, ?_⟩
  have hb₂ := hwithin (List.replicate 2 b) _ ⟨[], List.replicate 6 b ++ List.replicate 8 a, rfl⟩
  have hb₄ := hwithin (List.replicate 4 b) _ ⟨[], List.replicate 4 b ++ List.replicate 8 a, rfl⟩
  have ha₄ := hwithin (List.replicate 4 a) _ ⟨List.replicate 8 b ++ List.replicate 4 a, [], rfl⟩
  have ha₈ := hwithin (List.replicate 8 a) _ ⟨List.replicate 8 b, [], rfl⟩
  simp only [tested, List.mem_cons, List.not_mem_nil, or_false] at hP
  rcases hP with rfl | rfl | rfl | rfl
  · exact hb₂
  · exact .inl hb₄
  · exact ⟨hb₄, ha₄⟩
  · exact fun _ => ha₈

/-- Every documented condition is met by some word over the alphabet. -/
theorem exists_of_mem_conditions {cls : LanguageClass} {P : Word → Prop}
    (ha : S.contains a = true) (hb : S.contains b = true) (hP : P ∈ conditions a b cls) :
    ∃ w : Word, w.Over S ∧ P w := by
  cases cls with
  | strictlyLocal => exact exists_of_mem_forbidden (fun _ _ => List.IsInfix.sublist) hP
  | strictlyPiecewise => exact exists_of_mem_forbidden (fun _ _ => id) hP
  | locallyTestable => exact exists_of_mem_tested (fun _ _ => id) ha hb hP
  | piecewiseTestable => exact exists_of_mem_tested (fun _ _ => List.IsInfix.sublist) ha hb hP
  | locallyThresholdTestable => cases hP
  | starFree => cases hP
  | regular => cases hP

/-- There is an entry for each class and number with a language, and for no other. -/
theorem Listed.get?_rel (h : Listed S a b (keys a b) C.entries) (cls : LanguageClass)
    (index : Nat) :
    Option.Rel (fun P A => ∀ w : Word, A.accepts w = true ↔ w.Over S ∧ P w)
      (conditions a b cls)[index]? (C.get? cls index) := by
  unfold get?
  cases hfind : C.entries.find? fun e => e.cls == cls && e.index == index with
  | none =>
    have hindex : ¬ index < (conditions a b cls).length := by
      rw [← mem_keys_iff, ← h.keys_eq]
      intro hmem
      obtain ⟨e, he, hkey⟩ := List.mem_map.1 hmem
      obtain ⟨rfl, rfl⟩ := Prod.mk.inj hkey
      simpa using List.find?_eq_none.1 hfind e he
    rw [List.getElem?_eq_none (Nat.le_of_not_lt hindex)]
    exact .none
  | some e =>
    have hkey := List.find?_some hfind
    rw [Bool.and_eq_true, beq_iff_eq, beq_iff_eq] at hkey
    obtain ⟨rfl, rfl⟩ := hkey
    obtain ⟨P, hP, hdefines⟩ := h.denotes e (List.mem_of_find?_eq_some hfind)
    rw [hP]
    exact .some hdefines.accepts_iff

/-! ## The entries -/

/-- The entries accept the words over Σ that their classes and numbers stand for. They are minimal,
so entries with the same language are the same. -/
theorem build_documented (ha : S.symbol 'a' = .ok a) (hb : S.symbol 'b' = .ok b)
    (hC : build S = .ok C) :
    (∀ cls index, Option.Rel (fun P A => ∀ w : Word, A.accepts w = true ↔ w.Over S ∧ P w)
        (conditions a b cls)[index]? (C.get? cls index))
      ∧ (∀ e ∈ C.entries, e.automaton.minimize = .ok e.automaton)
      ∧ ∀ e ∈ C.entries, ∀ f ∈ C.entries,
          (∀ w : Word, w.Over S → e.automaton.accepts w = f.automaton.accepts w) →
            e.automaton = f.automaton := by
  obtain ⟨hlisted, hcanonical⟩ := listed_build ha hb hC
  have hminimal : ∀ e ∈ C.entries, e.automaton.minimize = .ok e.automaton :=
    fun e he => (hcanonical e he).minimize_eq
  refine ⟨hlisted.get?_rel, hminimal, fun e he f hf hsame => ?_⟩
  obtain ⟨P, hP, hdefines⟩ := hlisted.denotes e he
  obtain ⟨Q, -, hdefines'⟩ := hlisted.denotes f hf
  -- every language of the catalog has a word, which minimization needs to be canonical
  obtain ⟨w, hw⟩ := exists_of_mem_conditions (Alphabet.contains_of_symbol ha)
    (Alphabet.contains_of_symbol hb) (List.mem_of_getElem? hP)
  refine minimize_eq_of_accepts_eq (hdefines.alphabet.trans hdefines'.alphabet.symm)
    hdefines.isAcceptor hdefines'.isAcceptor (fun v => ?_) ((hdefines.accepts_iff w).2 hw)
    (hminimal e he) (hminimal f hf)
  by_cases hv : v.Over S
  · exact hsame v hv
  · -- neither entry accepts a word with other symbols
    rw [Bool.eq_iff_iff, hdefines.accepts_iff, hdefines'.accepts_iff]
    exact iff_of_false (fun h => hv h.1) (fun h => hv h.1)

/-- The two letters that the catalog asks for, with the default limit. -/
def twoLetters : Alphabet where
  symbols := ['a', 'b']

/-- Over two letters `sl0` accepts abab, but not bb, and `lt0` accepts bb, but not abab. -/
theorem accepts_sl0 :
    twoLetters.symbol 'a' = .ok ⟨0⟩ ∧ twoLetters.symbol 'b' = .ok ⟨1⟩
      ∧ ∃ C A B, build twoLetters = .ok C
        ∧ C.get? .strictlyLocal 0 = some A
        ∧ A.accepts [⟨0⟩, ⟨1⟩, ⟨0⟩, ⟨1⟩] = true ∧ A.accepts [⟨1⟩, ⟨1⟩] = false
        ∧ C.get? .locallyTestable 0 = some B
        ∧ B.accepts [⟨0⟩, ⟨1⟩, ⟨0⟩, ⟨1⟩] = false ∧ B.accepts [⟨1⟩, ⟨1⟩] = true := by
  have ha : twoLetters.symbol 'a' = .ok ⟨0⟩ := by decide
  have hb : twoLetters.symbol 'b' = .ok ⟨1⟩ := by decide
  obtain ⟨C, hC⟩ := exists_build ha hb (by decide)
  obtain ⟨hentries, -, -⟩ := build_documented ha hb hC
  have hget : ∀ cls index {P}, (conditions ⟨0⟩ ⟨1⟩ cls)[index]? = some P →
      ∃ A, C.get? cls index = some A
        ∧ ∀ w : Word, A.accepts w = true ↔ w.Over twoLetters ∧ P w := by
    intro cls index P hP
    have hrel := hentries cls index
    rw [hP] at hrel
    cases hA : C.get? cls index with
    | none =>
      rw [hA] at hrel
      exact absurd hrel Option.not_rel_some_none
    | some A =>
      rw [hA] at hrel
      exact ⟨A, rfl, Option.rel_some_some.1 hrel⟩
  obtain ⟨A, hA, hAwords⟩ := hget .strictlyLocal 0 rfl
  obtain ⟨B, hB, hBwords⟩ := hget .locallyTestable 0 rfl
  have hover : ∀ w : Word, (∀ s ∈ w, s = ⟨0⟩ ∨ s = ⟨1⟩) → w.Over twoLetters := by
    intro w hw s hs
    rcases hw s hs with rfl | rfl <;> rfl
  refine ⟨ha, hb, C, A, B, hC, hA, (hAwords _).2 ⟨hover _ (by decide), by decide⟩, ?_, hB, ?_,
    (hBwords _).2 ⟨hover _ (by decide), by decide⟩⟩
  · rw [Bool.eq_false_iff, ne_eq, hAwords]
    exact fun h => h.2 (by decide)
  · rw [Bool.eq_false_iff, ne_eq, hBwords]
    exact fun h => absurd h.2 (by decide)

end Catalog

end FiniteState
