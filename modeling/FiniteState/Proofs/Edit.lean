import Mathlib.Data.List.Permutation
import FiniteState.Edit
import FiniteState.Proofs.Minimize
import FiniteState.Proofs.Rational

/-!
# Words within one edit

The marking transducer maps a word over Σ to the words that mark one edit in it, and the editing
transducer carries out the marks of a word, one piece after the other. Symbols of Σ and markers
differ, so how a marked word falls into pieces is determined by its symbols.

* `Word.distance_eq_one_iff`: words at distance one differ by a single edit.
* `relates_marking_iff`: what the marking transducer writes.
* `relates_editing_iff`, `repeated_piece_append_iff`: what the editing transducer writes.
* `accepts_ball_iff`: the ball has the words at distance one.
* `marking_editing_exact`: both transducers, for any number of markers.
-/

namespace FiniteState

/-! ## Edits

The distance is computed from the beginning of the words, while an edit may be anywhere. At distance
one both say the same. -/

/-- One symbol is inserted, deleted, or exchanged for another one. -/
inductive OneEdit : Word → Word → Prop
  | insert (u v : Word) (s : Symbol) : OneEdit (u ++ v) (u ++ s :: v)
  | delete (u v : Word) (s : Symbol) : OneEdit (u ++ s :: v) (u ++ v)
  | substitute (u v : Word) {s t : Symbol} (h : s ≠ t) : OneEdit (u ++ s :: v) (u ++ t :: v)

/-- A letter in front of both words changes no edit. -/
theorem OneEdit.cons {w v : Word} (h : OneEdit w v) (s : Symbol) : OneEdit (s :: w) (s :: v) := by
  cases h with
  | insert x y t => exact .insert (s :: x) y t
  | delete x y t => exact .delete (s :: x) y t
  | substitute x y ht => exact .substitute (s :: x) y ht

/-- An edit changes the word, since a substitution puts another letter. -/
theorem OneEdit.ne {w v : Word} (h : OneEdit w v) : w ≠ v := by
  cases h with
  | insert u v s => simp
  | delete u v s => simp
  | substitute u v hst => simpa using hst

namespace Word

/-- The recursion that the table of distances is computed by. -/
theorem distance_cons_cons (s t : Symbol) (w v : Word) :
    distance (s :: w) (t :: v)
      = min (min (distance w (t :: v)) (distance (s :: w) v) + 1)
          (distance w v + if s = t then 0 else 1) := by
  rw [distance]

theorem distance_eq_zero_iff {w v : Word} : distance w v = 0 ↔ w = v := by
  constructor
  · intro h
    induction w generalizing v with
    | nil =>
      rw [distance_nil_left] at h
      exact (List.length_eq_zero_iff.1 h).symm
    | cons s w ih =>
      cases v with
      | nil =>
        rw [distance_nil_right] at h
        cases h
      | cons t v =>
        rw [distance_cons_cons] at h
        by_cases hst : s = t
        · rw [if_pos hst] at h
          have hrest : distance w v = 0 := by omega
          rw [hst, ih hrest]
        · rw [if_neg hst] at h
          omega
  · rintro rfl
    exact distance_self w

/-- A common beginning never adds to the distance. -/
theorem distance_append_le (u w v : Word) : distance (u ++ w) (u ++ v) ≤ distance w v := by
  induction u with
  | nil => exact Nat.le_refl _
  | cons s u ih =>
    rw [List.cons_append, List.cons_append, distance_cons_cons, if_pos rfl]
    omega

/-- One insertion leads to the word with a letter in front. -/
theorem distance_cons_self_le (s : Symbol) (w : Word) : distance w (s :: w) ≤ 1 := by
  cases w with
  | nil =>
    rw [distance_nil_left]
    exact Nat.le_refl 1
  | cons t w =>
    rw [distance_cons_cons, distance_self (t :: w)]
    omega

/-- Words at distance one differ in one edit, by the recursion. -/
theorem oneEdit_of_distance_eq_one {w v : Word} (h : distance w v = 1) : OneEdit w v := by
  -- by induction on the word, with any other word
  induction w generalizing v with
  | nil =>
    rw [distance_nil_left, List.length_eq_one_iff] at h
    obtain ⟨s, rfl⟩ := h
    exact .insert [] [] s
  | cons s w ih =>
    cases v with
    | nil =>
      rw [distance_nil_right, List.length_cons, Nat.add_eq_right] at h
      rw [List.length_eq_zero_iff.1 h]
      exact .delete [] [] s
    | cons t v =>
      rw [distance_cons_cons] at h
      -- one of the three ways to match the first symbols attains the minimum
      have hcases : distance w (t :: v) = 0 ∨ distance (s :: w) v = 0
          ∨ distance w v + (if s = t then 0 else 1) = 1 := by
        omega
      rcases hcases with hdelete | hinsert | hkeep
      · rw [distance_eq_zero_iff.1 hdelete]
        exact .delete [] (t :: v) s
      · rw [← distance_eq_zero_iff.1 hinsert]
        exact .insert [] (s :: w) t
      · by_cases hst : s = t
        · rw [if_pos hst] at hkeep
          rw [hst]
          exact (ih hkeep).cons t
        · rw [if_neg hst] at hkeep
          have hwv := distance_eq_zero_iff.1 (Nat.succ.inj hkeep)
          rw [hwv]
          exact .substitute [] v hst

/-- Words at distance one differ by a single edit. -/
theorem distance_eq_one_iff {w v : Word} : distance w v = 1 ↔ OneEdit w v := by
  refine ⟨oneEdit_of_distance_eq_one, fun h => ?_⟩
  have hne : distance w v ≠ 0 := fun hzero => h.ne (distance_eq_zero_iff.1 hzero)
  have hle : distance w v ≤ 1 := by
    cases h with
    | insert u v s => exact (distance_append_le _ _ _).trans (distance_cons_self_le s v)
    | delete u v s =>
      refine (distance_append_le _ _ _).trans ?_
      rw [distance_comm]
      exact distance_cons_self_le s v
    | substitute u v hst =>
      refine (distance_append_le _ _ _).trans ?_
      rw [distance_cons_cons, if_neg hst, distance_self]
      omega
  omega

end Word

/-! ## Symbols and markers -/

namespace Alphabet

variable {S : Alphabet}

theorem contains_marker (S : Alphabet) (m : EditMarker) : S.contains (S.marker m) = false := by
  rw [contains, decide_eq_false_iff_not, marker]
  simp

theorem marker_injective {m n : EditMarker} (h : S.marker m = S.marker n) : m = n := by
  have hoffset : m.offset = n.offset := by simpa [marker] using h
  cases m <;> cases n <;> first | rfl | cases hoffset

theorem ne_marker {s : Symbol} (hs : S.contains s = true) (m : EditMarker) : s ≠ S.marker m := by
  rintro rfl
  rw [contains_marker] at hs
  cases hs

end Alphabet

namespace EditTransducers

variable {S : Alphabet} {A B C D : Automaton}

/-! ## Marking -/

/-- The star of Σ, minimized, copies all words over Σ. -/
theorem relates_star_sigma_iff (hA : (Automaton.sigma S).star = .ok A) (hB : A.minimize = .ok B)
    {x y : Word} : B.Relates x y ↔ x = y ∧ x.Over S := by
  rw [Automaton.relates_minimize_iff hB, Automaton.relates_star_iff hA,
    Automaton.repeated_sigma_iff]

/-- A letter before `Σ*` leaves out the empty word. -/
theorem relates_plus_sigma_iff (hA : ∀ x y, A.Relates x y ↔ x = y ∧ x.Over S)
    (hB : (Automaton.sigma S).concat A = .ok B) (hC : B.minimize = .ok C) {x y : Word} :
    C.Relates x y ↔ x = y ∧ x.Over S ∧ x ≠ [] := by
  rw [Automaton.relates_minimize_iff hC, Automaton.relates_concat_iff hB]
  constructor
  · rintro ⟨x₁, y₁, x₂, y₂, hfirst, hrest, rfl, rfl⟩
    obtain ⟨rfl, s, hs, rfl⟩ := Automaton.relates_sigma_iff.1 hfirst
    obtain ⟨rfl, hover⟩ := (hA _ _).1 hrest
    exact ⟨rfl, Word.over_cons_iff.2 ⟨hs, hover⟩, List.cons_ne_nil _ _⟩
  · rintro ⟨rfl, hover, hne⟩
    cases x with
    | nil => exact absurd rfl hne
    | cons s x =>
      obtain ⟨hs, hover⟩ := Word.over_cons_iff.1 hover
      exact ⟨[s], [s], x, x, Automaton.relates_sigma_singleton hs, (hA x x).2 ⟨rfl, hover⟩, rfl,
        rfl⟩

/-- A marker between a word over Σ and what comes after it. -/
theorem relates_marked_iff {m : EditMarker} {P : Word → Prop}
    (hA : ∀ x y, A.Relates x y ↔ x = y ∧ x.Over S) (hB : ∀ x y, B.Relates x y ↔ x = y ∧ P x)
    (hC : A.concat (mark S m) = .ok C) (hD : C.concat B = .ok D) {x y : Word} :
    D.Relates x y ↔ ∃ u v, u.Over S ∧ P v ∧ x = u ++ v ∧ y = u ++ S.marker m :: v := by
  rw [Automaton.relates_concat_iff hD]
  constructor
  · rintro ⟨x₁, y₁, x₂, y₂, hfirst, hrest, rfl, rfl⟩
    obtain ⟨u, _, _, _, hu, hmark, rfl, rfl⟩ := (Automaton.relates_concat_iff hC).1 hfirst
    obtain ⟨rfl, hover⟩ := (hA _ _).1 hu
    obtain ⟨rfl, rfl⟩ := Automaton.relates_pair_iff.1 hmark
    obtain ⟨rfl, hP⟩ := (hB _ _).1 hrest
    exact ⟨u, x₂, hover, hP, by simp [Label.toWord], by simp [Label.toWord]⟩
  · rintro ⟨u, v, hover, hP, rfl, rfl⟩
    have hmarked : C.Relates u (u ++ [S.marker m]) := by
      refine (Automaton.relates_concat_iff hC).2 ⟨u, u, [], [S.marker m], ?_, ?_, ?_, rfl⟩
      · exact (hA u u).2 ⟨rfl, hover⟩
      · exact Automaton.relates_pair_iff.2 ⟨rfl, rfl⟩
      · exact (List.append_nil u).symm
    exact ⟨u, u ++ [S.marker m], v, v, hmarked, (hB v v).2 ⟨rfl, hP⟩, rfl, by simp⟩

/-- The word `y` is the word `x` over Σ with one marker put into it, with a symbol behind the marker
unless an insertion is marked. -/
def Marked (S : Alphabet) (x y : Word) : Prop :=
  ∃ (u v : Word) (m : EditMarker), u.Over S ∧ v.Over S ∧ (m = .insert ∨ v ≠ []) ∧ x = u ++ v
    ∧ y = u ++ S.marker m :: v

/-- The marking transducer puts one marker into a word, and nothing else. -/
theorem relates_marking_iff (hA : markingOver S = .ok A) {x y : Word} :
    A.Relates x y ↔ Marked S x y := by
  unfold markingOver at hA
  obtain ⟨star₀, hstar₀, hA⟩ := Except.bind_eq_ok.1 hA
  obtain ⟨star, hstar, hA⟩ := Except.bind_eq_ok.1 hA
  obtain ⟨plus₀, hplus₀, hA⟩ := Except.bind_eq_ok.1 hA
  obtain ⟨plus, hplus, hA⟩ := Except.bind_eq_ok.1 hA
  obtain ⟨insertion₀, hinsertion₀, hA⟩ := Except.bind_eq_ok.1 hA
  obtain ⟨insertion, hinsertion, hA⟩ := Except.bind_eq_ok.1 hA
  obtain ⟨substitution₀, hsubstitution₀, hA⟩ := Except.bind_eq_ok.1 hA
  obtain ⟨substitution, hsubstitution, hA⟩ := Except.bind_eq_ok.1 hA
  obtain ⟨deletion₀, hdeletion₀, hA⟩ := Except.bind_eq_ok.1 hA
  obtain ⟨deletion, hdeletion, hA⟩ := Except.bind_eq_ok.1 hA
  obtain ⟨union₀, hunion₀, hA⟩ := Except.bind_eq_ok.1 hA
  obtain ⟨union, hunion, hA⟩ := Except.bind_eq_ok.1 hA
  have hstar' : ∀ x y, star.Relates x y ↔ x = y ∧ x.Over S := fun x y =>
    relates_star_sigma_iff hstar₀ hstar
  have hplus' : ∀ x y, plus.Relates x y ↔ x = y ∧ x.Over S ∧ x ≠ [] := fun x y =>
    relates_plus_sigma_iff hstar' hplus₀ hplus
  rw [Automaton.relates_minimize_iff hA, Automaton.relates_union_iff hunion,
    Automaton.relates_union_iff hunion₀, relates_marked_iff hstar' hstar' hinsertion₀ hinsertion,
    relates_marked_iff hstar' hplus' hsubstitution₀ hsubstitution,
    relates_marked_iff hstar' hplus' hdeletion₀ hdeletion]
  -- each of the three parts has a marker of its own
  constructor
  · rintro ((⟨u, v, hu, hv, hx, hy⟩ | ⟨u, v, hu, hv, hx, hy⟩) | ⟨u, v, hu, hv, hx, hy⟩)
    · exact ⟨u, v, .insert, hu, hv, .inl rfl, hx, hy⟩
    · exact ⟨u, v, .substitute, hu, hv.1, .inr hv.2, hx, hy⟩
    · exact ⟨u, v, .delete, hu, hv.1, .inr hv.2, hx, hy⟩
  · rintro ⟨u, v, m, hu, hv, hm, hx, hy⟩
    cases m with
    | insert => exact .inl (.inl ⟨u, v, hu, hv, hx, hy⟩)
    | delete => exact .inr ⟨u, v, hu, ⟨hv, hm.resolve_left (by simp)⟩, hx, hy⟩
    | substitute => exact .inl (.inr ⟨u, v, hu, ⟨hv, hm.resolve_left (by simp)⟩, hx, hy⟩)

/-! ## Editing

A marked word is read piece by piece: a symbol of Σ is copied, and a marker is carried out, together
with the symbol behind it unless it stands for an insertion. -/

/-- A piece of a marked word and what the editing transducer writes for it. -/
inductive Piece (S : Alphabet) : Word → Word → Prop
  | copy {s : Symbol} (hs : S.contains s = true) : Piece S [s] [s]
  | insert {s : Symbol} (hs : S.contains s = true) : Piece S [S.marker .insert] [s]
  | delete {s : Symbol} (hs : S.contains s = true) : Piece S [S.marker .delete, s] []
  | substitute {s t : Symbol} (hs : S.contains s = true) (ht : S.contains t = true) (hst : t ≠ s) :
      Piece S [S.marker .substitute, s] [t]

/-- An edit reads a marker and the symbol behind it. -/
theorem relates_unmark_iff {m : EditMarker} {s : Symbol} {l : Label}
    (hA : (unmark S m).concat (.pair S (.symbol s) l) = .ok A) {x y : Word} :
    A.Relates x y ↔ x = [S.marker m, s] ∧ y = l.toWord := by
  rw [Automaton.relates_concat_iff hA]
  constructor
  · rintro ⟨_, _, _, _, hmark, hsymbol, rfl, rfl⟩
    obtain ⟨rfl, rfl⟩ := Automaton.relates_pair_iff.1 hmark
    obtain ⟨rfl, rfl⟩ := Automaton.relates_pair_iff.1 hsymbol
    exact ⟨rfl, rfl⟩
  · rintro ⟨rfl, rfl⟩
    exact ⟨[S.marker m], [], [s], l.toWord, Automaton.relates_pair_iff.2 ⟨rfl, rfl⟩,
      Automaton.relates_pair_iff.2 ⟨rfl, rfl⟩, rfl, rfl⟩

/-- The edits of one letter: to insert it, to delete it, or to put another letter in its place. -/
theorem relates_editsOf_iff {s : Symbol} {As : List Automaton} (h : editsOf S s = .ok As)
    {x y : Word} :
    (∃ A ∈ As, A.Relates x y)
      ↔ (x = [S.marker .insert] ∧ y = [s]) ∨ (x = [S.marker .delete, s] ∧ y = [])
        ∨ ∃ t, S.contains t = true ∧ t ≠ s ∧ x = [S.marker .substitute, s] ∧ y = [t] := by
  unfold editsOf at h
  obtain ⟨deletion, hdeletion, h⟩ := Except.bind_eq_ok.1 h
  obtain ⟨substitutions, hsubstitutions, h⟩ := Except.bind_eq_ok.1 h
  have hpieces := Except.forall₂_of_mapM hsubstitutions
  rw [← Except.pure_eq_ok.1 h]
  simp only [List.mem_cons, exists_eq_or_imp]
  rw [Automaton.relates_pair_iff, relates_unmark_iff hdeletion]
  refine or_congr Iff.rfl (or_congr Iff.rfl ?_)
  constructor
  · rintro ⟨A, hA, hxy⟩
    obtain ⟨t, ht, hsubstitution⟩ := exists_left_of_forall₂ hpieces hA
    obtain ⟨ht, hts⟩ := List.mem_filter.1 ht
    obtain ⟨hx, hy⟩ := (relates_unmark_iff hsubstitution).1 hxy
    exact ⟨t, Alphabet.mem_sigma_iff.1 ht, by simpa using hts, hx, hy⟩
  · rintro ⟨t, ht, hts, hx, hy⟩
    have hmem : t ∈ S.sigma.filter (· != s) :=
      List.mem_filter.2 ⟨Alphabet.mem_sigma_iff.2 ht, by simpa using hts⟩
    obtain ⟨A, hA, hsubstitution⟩ := exists_right_of_forall₂ hpieces hmem
    exact ⟨A, hA, (relates_unmark_iff hsubstitution).2 ⟨hx, hy⟩⟩

theorem repeated_congr {R R' : Word → Word → Prop} (h : ∀ x y, R x y ↔ R' x y) {x y : Word} :
    Repeated R x y ↔ Repeated R' x y := by
  have hRR' : R = R' := funext fun x => funext fun y => propext (h x y)
  rw [hRR']

/-- The edits at all symbols of Σ. -/
theorem relates_edits_iff {edits : List (List Automaton)}
    (hedits : S.sigma.mapM (editsOf S) = .ok edits) {x y : Word} :
    (∃ A ∈ edits.flatten, A.Relates x y)
      ↔ ∃ s, S.contains s = true ∧ ((x = [S.marker .insert] ∧ y = [s])
        ∨ (x = [S.marker .delete, s] ∧ y = [])
        ∨ ∃ t, S.contains t = true ∧ t ≠ s ∧ x = [S.marker .substitute, s] ∧ y = [t]) := by
  have hsymbols := Except.forall₂_of_mapM hedits
  constructor
  · rintro ⟨A, hA, hxy⟩
    obtain ⟨As, hAs, hA⟩ := List.mem_flatten.1 hA
    obtain ⟨s, hs, hsAs⟩ := exists_left_of_forall₂ hsymbols hAs
    exact ⟨s, Alphabet.mem_sigma_iff.1 hs, (relates_editsOf_iff hsAs).1 ⟨A, hA, hxy⟩⟩
  · rintro ⟨s, hs, hxy⟩
    obtain ⟨As, hAs, hsAs⟩ := exists_right_of_forall₂ hsymbols (Alphabet.mem_sigma_iff.2 hs)
    obtain ⟨A, hA, hxy⟩ := (relates_editsOf_iff hsAs).2 hxy
    exact ⟨A, List.mem_flatten.2 ⟨As, hAs, hA⟩, hxy⟩

/-- The editing transducer reads a word piece by piece, and each piece is a letter or a marked
edit. -/
theorem relates_editing_iff (hA : editingOver S = .ok A) {x y : Word} :
    A.Relates x y ↔ Repeated (Piece S) x y := by
  unfold editingOver at hA
  obtain ⟨edits, hedits, hA⟩ := Except.bind_eq_ok.1 hA
  obtain ⟨union, hunion, hA⟩ := Except.bind_eq_ok.1 hA
  obtain ⟨star, hstar, hA⟩ := Except.bind_eq_ok.1 hA
  rw [Automaton.relates_minimize_iff hA, Automaton.relates_star_iff hstar]
  -- the union under the star relates the pieces, a copied letter or an edit at a letter
  refine repeated_congr fun x y => ?_
  rw [Automaton.relates_unionAll_iff hunion, List.exists_mem_cons_iff,
    Automaton.relates_sigma_iff, relates_edits_iff hedits]
  constructor
  · rintro (⟨rfl, s, hs, rfl⟩ | ⟨s, hs, ⟨rfl, rfl⟩ | ⟨rfl, rfl⟩ | ⟨t, ht, hts, rfl, rfl⟩⟩)
    · exact .copy hs
    · exact .insert hs
    · exact .delete hs
    · exact .substitute hs ht hts
  · intro hpiece
    cases hpiece with
    | copy hs => exact .inl ⟨rfl, _, hs, rfl⟩
    | insert hs => exact .inr ⟨_, hs, .inl ⟨rfl, rfl⟩⟩
    | delete hs => exact .inr ⟨_, hs, .inr (.inl ⟨rfl, rfl⟩)⟩
    | substitute hs ht hts => exact .inr ⟨_, hs, .inr (.inr ⟨_, ht, hts, rfl, rfl⟩)⟩

/-! ### Falling into pieces -/

/-- A word that is read piece by piece has a first piece. -/
theorem exists_piece {s : Symbol} {x y : Word} (h : Repeated (Piece S) (s :: x) y) :
    ∃ x₁ y₁ x₂ y₂, Piece S x₁ y₁ ∧ Repeated (Piece S) x₂ y₂ ∧ s :: x = x₁ ++ x₂ ∧ y = y₁ ++ y₂ := by
  generalize hw : s :: x = w at h
  cases h with
  | nil => cases hw
  | cons h h' => exact ⟨_, _, _, _, h, h', rfl, rfl⟩

/-- Nothing is written for the empty word, since every piece reads a symbol. -/
theorem repeated_piece_nil_iff {y : Word} : Repeated (Piece S) [] y ↔ y = [] := by
  constructor
  · intro h
    generalize hw : ([] : Word) = w at h
    cases h with
    | nil => rfl
    | cons h _ => cases h <;> cases hw
  · rintro rfl
    exact .nil

/-- Symbols of Σ are copied. -/
theorem repeated_piece_cons_iff {s : Symbol} (hs : S.contains s = true) {x y : Word} :
    Repeated (Piece S) (s :: x) y ↔ ∃ y', Repeated (Piece S) x y' ∧ y = s :: y' := by
  constructor
  · intro h
    obtain ⟨x₁, y₁, x₂, y₂, hpiece, hrest, hx, rfl⟩ := exists_piece h
    cases hpiece with
    | copy _ =>
      obtain ⟨rfl, rfl⟩ := List.cons.inj hx
      exact ⟨y₂, hrest, rfl⟩
    | insert _ => exact absurd (List.cons.inj hx).1 (Alphabet.ne_marker hs _)
    | delete _ => exact absurd (List.cons.inj hx).1 (Alphabet.ne_marker hs _)
    | substitute _ _ _ => exact absurd (List.cons.inj hx).1 (Alphabet.ne_marker hs _)
  · rintro ⟨y', hrest, rfl⟩
    exact .cons (.copy hs) hrest

/-- Letters before anything else are copied. -/
theorem repeated_piece_append_iff {u : Word} (hu : u.Over S) {x y : Word} :
    Repeated (Piece S) (u ++ x) y ↔ ∃ y', Repeated (Piece S) x y' ∧ y = u ++ y' := by
  induction u generalizing y with
  | nil => simp
  | cons s u ih =>
    obtain ⟨hs, hu'⟩ := Word.over_cons_iff.1 hu
    rw [List.cons_append, repeated_piece_cons_iff hs]
    constructor
    · rintro ⟨y₁, h, rfl⟩
      obtain ⟨y₂, hrest, rfl⟩ := (ih hu').1 h
      exact ⟨y₂, hrest, rfl⟩
    · rintro ⟨y₂, h, rfl⟩
      exact ⟨u ++ y₂, (ih hu').2 ⟨y₂, h, rfl⟩, rfl⟩

theorem repeated_piece_of_over {u : Word} (hu : u.Over S) {y : Word} :
    Repeated (Piece S) u y ↔ y = u := by
  rw [← List.append_nil u, repeated_piece_append_iff hu]
  simp [repeated_piece_nil_iff]

/-- The one piece that begins with a marker. -/
theorem exists_piece_of_marker {m : EditMarker} {x y : Word}
    (h : Repeated (Piece S) (S.marker m :: x) y) :
    ∃ x₁ y₁ x₂ y₂, Piece S (S.marker m :: x₁) y₁ ∧ Repeated (Piece S) x₂ y₂ ∧ x = x₁ ++ x₂
      ∧ y = y₁ ++ y₂ := by
  obtain ⟨x₁, y₁, x₂, y₂, hpiece, hrest, hx, rfl⟩ := exists_piece h
  cases x₁ with
  | nil => cases hpiece
  | cons s x₁ =>
    obtain ⟨rfl, rfl⟩ := List.cons.inj hx
    exact ⟨x₁, y₁, x₂, y₂, hpiece, hrest, rfl, rfl⟩

/-- The mark of an insertion writes some letter and reads no other symbol. -/
theorem repeated_piece_insert_iff {x y : Word} :
    Repeated (Piece S) (S.marker .insert :: x) y
      ↔ ∃ s y', S.contains s = true ∧ Repeated (Piece S) x y' ∧ y = s :: y' := by
  constructor
  · intro h
    obtain ⟨x₁, y₁, x₂, y₂, hpiece, hrest, rfl, rfl⟩ := exists_piece_of_marker h
    generalize hm : S.marker .insert = m at hpiece
    cases hpiece with
    | copy hs => exact absurd hm.symm (Alphabet.ne_marker hs _)
    | insert hs => exact ⟨_, y₂, hs, hrest, rfl⟩
    | delete _ => cases Alphabet.marker_injective hm
    | substitute _ _ _ => cases Alphabet.marker_injective hm
  · rintro ⟨s, y', hs, hrest, rfl⟩
    exact .cons (.insert hs) hrest

/-- The mark of a deletion takes the next letter away. -/
theorem repeated_piece_delete_iff {s : Symbol} (hs : S.contains s = true) {x y : Word} :
    Repeated (Piece S) (S.marker .delete :: s :: x) y ↔ Repeated (Piece S) x y := by
  constructor
  · intro h
    obtain ⟨x₁, y₁, x₂, y₂, hpiece, hrest, hx, rfl⟩ := exists_piece_of_marker h
    generalize hm : S.marker .delete = m at hpiece
    cases hpiece with
    | copy hs => exact absurd hm.symm (Alphabet.ne_marker hs _)
    | insert _ => cases Alphabet.marker_injective hm
    | delete _ => rwa [(List.cons.inj hx).2]
    | substitute _ _ _ => cases Alphabet.marker_injective hm
  · intro hrest
    exact .cons (.delete hs) hrest

/-- The mark of a substitution puts a different letter for the next one. -/
theorem repeated_piece_substitute_iff {s : Symbol} (hs : S.contains s = true) {x y : Word} :
    Repeated (Piece S) (S.marker .substitute :: s :: x) y
      ↔ ∃ t y', S.contains t = true ∧ t ≠ s ∧ Repeated (Piece S) x y' ∧ y = t :: y' := by
  constructor
  · intro h
    obtain ⟨x₁, y₁, x₂, y₂, hpiece, hrest, hx, rfl⟩ := exists_piece_of_marker h
    generalize hm : S.marker .substitute = m at hpiece
    cases hpiece with
    | copy hs => exact absurd hm.symm (Alphabet.ne_marker hs _)
    | insert _ => cases Alphabet.marker_injective hm
    | delete _ => cases Alphabet.marker_injective hm
    | substitute hs ht hts =>
      obtain ⟨rfl, rfl⟩ := List.cons.inj hx
      exact ⟨_, y₂, ht, hts, hrest, rfl⟩
  · rintro ⟨t, y', ht, hts, hrest, rfl⟩
    exact .cons (.substitute hs ht hts) hrest

/-! ## The ball

A word with one marker falls into pieces in one way only. So it can be said for each marker what is
written, and the three answers are the three kinds of edits. -/

/-- What is written for a word in which an insertion is marked. -/
theorem written_insert_iff {a b v : Word} (ha : a.Over S) (hb : b.Over S) :
    Repeated (Piece S) (a ++ S.marker .insert :: b) v
      ↔ ∃ s, S.contains s = true ∧ v = a ++ s :: b := by
  simp only [repeated_piece_append_iff ha, repeated_piece_insert_iff, repeated_piece_of_over hb]
  constructor
  · rintro ⟨_, ⟨s, _, hs, rfl, rfl⟩, rfl⟩
    exact ⟨s, hs, rfl⟩
  · rintro ⟨s, hs, rfl⟩
    exact ⟨_, ⟨s, b, hs, rfl, rfl⟩, rfl⟩

/-- What is written for a word in which a deletion is marked. -/
theorem written_delete_iff {a b v : Word} {s : Symbol} (ha : a.Over S) (hs : S.contains s = true)
    (hb : b.Over S) :
    Repeated (Piece S) (a ++ S.marker .delete :: s :: b) v ↔ v = a ++ b := by
  simp only [repeated_piece_append_iff ha, repeated_piece_delete_iff hs, repeated_piece_of_over hb,
    exists_eq_left]

/-- What is written for a word in which a substitution is marked. -/
theorem written_substitute_iff {a b v : Word} {s : Symbol} (ha : a.Over S)
    (hs : S.contains s = true) (hb : b.Over S) :
    Repeated (Piece S) (a ++ S.marker .substitute :: s :: b) v
      ↔ ∃ t, S.contains t = true ∧ t ≠ s ∧ v = a ++ t :: b := by
  simp only [repeated_piece_append_iff ha, repeated_piece_substitute_iff hs,
    repeated_piece_of_over hb]
  constructor
  · rintro ⟨_, ⟨t, _, ht, hts, rfl, rfl⟩, rfl⟩
    exact ⟨t, ht, hts, rfl⟩
  · rintro ⟨t, ht, hts, rfl⟩
    exact ⟨_, ⟨t, b, ht, hts, rfl, rfl⟩, rfl⟩

/-- Marking an edit in a word over Σ and carrying it out gives the words over Σ that differ by a
single edit: each marker stands for one kind of edit. -/
theorem exists_marked_iff {w v : Word} (hw : w.Over S) :
    (∃ x, Marked S w x ∧ Repeated (Piece S) x v) ↔ v.Over S ∧ OneEdit w v := by
  constructor
  · -- the marker tells which edit is carried out behind it
    rintro ⟨_, ⟨a, b, m, ha, hb, hm, rfl, rfl⟩, hwritten⟩
    cases m with
    | insert =>
      obtain ⟨s, hs, rfl⟩ := (written_insert_iff ha hb).1 hwritten
      exact ⟨Word.over_append_iff.2 ⟨ha, Word.over_cons_iff.2 ⟨hs, hb⟩⟩, .insert a b s⟩
    | delete =>
      obtain ⟨s, b, rfl⟩ := List.exists_cons_of_ne_nil (hm.resolve_left (by simp))
      obtain ⟨hs, hb⟩ := Word.over_cons_iff.1 hb
      obtain rfl := (written_delete_iff ha hs hb).1 hwritten
      exact ⟨Word.over_append_iff.2 ⟨ha, hb⟩, .delete a b s⟩
    | substitute =>
      obtain ⟨s, b, rfl⟩ := List.exists_cons_of_ne_nil (hm.resolve_left (by simp))
      obtain ⟨hs, hb⟩ := Word.over_cons_iff.1 hb
      obtain ⟨t, ht, hts, rfl⟩ := (written_substitute_iff ha hs hb).1 hwritten
      exact ⟨Word.over_append_iff.2 ⟨ha, Word.over_cons_iff.2 ⟨ht, hb⟩⟩, .substitute a b hts.symm⟩
  · -- the place of the edit is the place of its marker
    rintro ⟨hv, hedit⟩
    cases hedit with
    | insert a b s =>
      obtain ⟨ha, hb⟩ := Word.over_append_iff.1 hw
      obtain ⟨hs, -⟩ := Word.over_cons_iff.1 (Word.over_append_iff.1 hv).2
      exact ⟨_, ⟨a, b, .insert, ha, hb, .inl rfl, rfl, rfl⟩,
        (written_insert_iff ha hb).2 ⟨s, hs, rfl⟩⟩
    | delete a b s =>
      obtain ⟨ha, hsb⟩ := Word.over_append_iff.1 hw
      obtain ⟨hs, hb⟩ := Word.over_cons_iff.1 hsb
      exact ⟨_, ⟨a, s :: b, .delete, ha, hsb, .inr (List.cons_ne_nil _ _), rfl, rfl⟩,
        (written_delete_iff ha hs hb).2 rfl⟩
    | @substitute a b s t hst =>
      obtain ⟨ha, hsb⟩ := Word.over_append_iff.1 hw
      obtain ⟨hs, hb⟩ := Word.over_cons_iff.1 hsb
      obtain ⟨ht, -⟩ := Word.over_cons_iff.1 (Word.over_append_iff.1 hv).2
      exact ⟨_, ⟨a, s :: b, .substitute, ha, hsb, .inr (List.cons_ne_nil _ _), rfl, rfl⟩,
        (written_substitute_iff ha hs hb).2 ⟨t, ht, hst.symm, rfl⟩⟩

/-- The two transducers are made one after the other, over the alphabet. -/
theorem build_eq_ok {E : EditTransducers} (hE : build S = .ok E) :
    E.alphabet = S ∧ markingOver S = .ok E.marking ∧ editingOver S = .ok E.editing := by
  obtain ⟨marking, hmarking, hE⟩ := Except.bind_eq_ok.1 hE
  obtain ⟨editing, hediting, hE⟩ := Except.bind_eq_ok.1 hE
  rw [← Except.pure_eq_ok.1 hE]
  exact ⟨rfl, hmarking, hediting⟩

/-- The ball copies what marking and editing write for the word. -/
theorem relates_ball_iff {E : EditTransducers} (hE : build S = .ok E) {w : Word}
    (hB : E.ball w = .ok B) {x y : Word} :
    B.Relates x y ↔ x = y ∧ ∃ z, Marked S w z ∧ Repeated (Piece S) z x := by
  obtain ⟨-, hmarking, hediting⟩ := build_eq_ok hE
  obtain ⟨marked, hmarked, hB⟩ := Except.bind_eq_ok.1 hB
  obtain ⟨edited, hedited, hB⟩ := Except.bind_eq_ok.1 hB
  rw [Automaton.relates_minimize_iff hB, Automaton.relates_project_output_iff]
  refine and_congr_right fun _ => ?_
  simp only [Automaton.relates_compose_iff hedited, Automaton.relates_compose_iff hmarked,
    Automaton.relates_word_iff, relates_marking_iff hmarking, relates_editing_iff hediting]
  constructor
  · rintro ⟨_, z, ⟨_, ⟨rfl, rfl⟩, hz⟩, hx⟩
    exact ⟨z, hz, hx⟩
  · rintro ⟨z, hz, hx⟩
    exact ⟨w, z, ⟨w, ⟨rfl, rfl⟩, hz⟩, hx⟩

/-- The ball of a word over Σ holds the words over Σ at distance one. -/
theorem accepts_ball_iff {E : EditTransducers} (hE : build S = .ok E) {w : Word} (hw : w.Over S)
    (hB : E.ball w = .ok B) {v : Word} :
    B.accepts v = true ↔ v.Over S ∧ Word.distance w v = 1 := by
  rw [Word.distance_eq_one_iff, ← exists_marked_iff hw]
  exact Automaton.accepts_iff_of_copies fun _ _ => relates_ball_iff hE hB

/-- The ball of a word over Σ has the words over Σ at distance one, so neither the word itself nor a
word with a marker. -/
theorem ball_exact (S : Alphabet) (E : EditTransducers) (hE : build S = .ok E) (w : Word)
    (hw : ∀ s ∈ w, S.contains s = true) (B : Automaton) (hB : E.ball w = .ok B) :
    (∀ v, B.accepts v = true ↔ (∀ s ∈ v, S.contains s = true) ∧ Word.distance w v = 1)
      ∧ B.accepts w = false
      ∧ ∀ (m : EditMarker) (v : Word), S.marker m ∈ v → B.accepts v = false := by
  have haccepts : ∀ v, B.accepts v = true ↔ Word.Over S v ∧ Word.distance w v = 1 := fun v =>
    accepts_ball_iff hE hw hB
  refine ⟨haccepts, ?_, fun m v hm => ?_⟩
  · rw [Bool.eq_false_iff, ne_eq, haccepts, Word.distance_self]
    rintro ⟨-, hdistance⟩
    cases hdistance
  · rw [Bool.eq_false_iff, ne_eq, haccepts]
    rintro ⟨hover, -⟩
    exact Alphabet.ne_marker (hover _ hm) m rfl

/-- The alphabet with the single letter a. -/
def onlyA : Alphabet := { symbols := ['a'] }

/-- The transducers for the edits of words over a single letter. -/
def editsOnlyA : EditTransducers where
  alphabet := onlyA
  marking :=
    { alphabet := onlyA
      states := #[
        { transitions := [⟨.epsilon, .symbol ⟨1⟩, 1⟩, ⟨.epsilon, .symbol ⟨2⟩, 2⟩,
            ⟨.epsilon, .symbol ⟨3⟩, 2⟩, ⟨.symbol ⟨0⟩, .symbol ⟨0⟩, 0⟩] },
        { accepting := true, transitions := [⟨.symbol ⟨0⟩, .symbol ⟨0⟩, 1⟩] },
        { transitions := [⟨.symbol ⟨0⟩, .symbol ⟨0⟩, 1⟩] }]
      start := 0
      start_lt := by decide
      target_lt := by decide }
  editing :=
    { alphabet := onlyA
      states := #[
        { accepting := true,
          transitions := [⟨.symbol ⟨0⟩, .symbol ⟨0⟩, 0⟩, ⟨.symbol ⟨1⟩, .symbol ⟨0⟩, 0⟩,
            ⟨.symbol ⟨2⟩, .epsilon, 1⟩] },
        { transitions := [⟨.symbol ⟨0⟩, .epsilon, 0⟩] }]
      start := 0
      start_lt := by decide
      target_lt := by decide }

/-- The ball of the word a: the empty word and aa. -/
def ballOfA : Automaton where
  alphabet := onlyA
  states := #[
    { accepting := true, transitions := [⟨.symbol ⟨0⟩, .symbol ⟨0⟩, 1⟩] },
    { transitions := [⟨.symbol ⟨0⟩, .symbol ⟨0⟩, 2⟩] },
    { accepting := true }]
  start := 0
  start_lt := by decide
  target_lt := by decide

/-- The marking transducer over one letter, as it is computed. -/
theorem markingOver_onlyA : markingOver onlyA = .ok editsOnlyA.marking := by cbv

/-- The editing transducer over one letter, as it is computed. -/
theorem editingOver_onlyA : editingOver onlyA = .ok editsOnlyA.editing := by cbv

theorem build_onlyA : build onlyA = .ok editsOnlyA :=
  Except.bind_eq_ok.2 ⟨_, markingOver_onlyA, Except.bind_eq_ok.2 ⟨_, editingOver_onlyA, rfl⟩⟩

/-- The ball of the word a over one letter, as it is computed. -/
theorem ball_onlyA : editsOnlyA.ball [⟨0⟩] = .ok ballOfA := by cbv

/-- Over a single letter, the words within one edit of a are the empty word and aa. -/
theorem accepts_ballOfA :
    ballOfA.accepts [] = true ∧ ballOfA.accepts [⟨0⟩, ⟨0⟩] = true
      ∧ ballOfA.accepts [⟨0⟩] = false := by
  have hover : ∀ s ∈ [(⟨0⟩ : Symbol)], onlyA.contains s = true := by decide
  obtain ⟨hexact, hself, -⟩ :=
    ball_exact onlyA editsOnlyA build_onlyA [⟨0⟩] hover ballOfA ball_onlyA
  have hdelete : Word.distance [⟨0⟩] [] = 1 := Word.distance_eq_one_iff.2 (.delete [] [] ⟨0⟩)
  have hinsert : Word.distance [⟨0⟩] [⟨0⟩, ⟨0⟩] = 1 :=
    Word.distance_eq_one_iff.2 (.insert [] [⟨0⟩] ⟨0⟩)
  exact ⟨(hexact []).2 ⟨by decide, hdelete⟩, (hexact [⟨0⟩, ⟨0⟩]).2 ⟨by decide, hinsert⟩, hself⟩

/-! ## What the transducers relate -/

/-- A marked word is a word over Σ with a marker in one place. Only the marker of an insertion may
stand at the end. -/
theorem marked_iff {x y : Word} :
    Marked S x y
      ↔ x.Over S ∧ ∃ (u v : Word) (m : EditMarker), x = u ++ v ∧ y = u ++ S.marker m :: v
          ∧ (m = .insert ∨ v ≠ []) := by
  constructor
  · rintro ⟨u, v, m, hu, hv, hm, rfl, rfl⟩
    exact ⟨Word.over_append_iff.2 ⟨hu, hv⟩, u, v, m, rfl, rfl, hm⟩
  · rintro ⟨hover, u, v, m, rfl, rfl, hm⟩
    obtain ⟨hu, hv⟩ := Word.over_append_iff.1 hover
    exact ⟨u, v, m, hu, hv, hm, rfl, rfl⟩

/-- Marking puts one marker into a word over Σ, an insertion anywhere and the others in front of a
symbol only. Editing cuts a marked word into pieces and writes what each of them is rewritten to,
whether no piece has a marker or several have. -/
theorem marking_editing_exact (S : Alphabet) (E : EditTransducers) (hE : build S = .ok E)
    (x y z : Word) :
    (E.marking.transduces x y = true
        ↔ x.Over S ∧ ∃ (u v : Word) (m : EditMarker), x = u ++ v ∧ y = u ++ S.marker m :: v
            ∧ (m = .insert ∨ v ≠ []))
      ∧ (E.editing.transduces y z = true
        ↔ ∃ pieces : List (Word × Word), (∀ p ∈ pieces, Piece S p.1 p.2)
            ∧ y = pieces.flatMap Prod.fst ∧ z = pieces.flatMap Prod.snd) := by
  obtain ⟨-, hmarking, hediting⟩ := build_eq_ok hE
  constructor
  · rw [Automaton.transduces_iff_relates, relates_marking_iff hmarking, marked_iff]
  · rw [Automaton.transduces_iff_relates, relates_editing_iff hediting,
      repeated_iff_exists_pairs]

/-- Over a single letter: a deletion may be marked in front of it and not behind it; an insertion, a
deletion and another insertion are carried out side by side; and a substitution never is, since
there is no other letter. -/
theorem transduces_editsOnlyA :
    editsOnlyA.marking.transduces [⟨0⟩] [⟨2⟩, ⟨0⟩] = true
      ∧ editsOnlyA.marking.transduces [⟨0⟩] [⟨0⟩, ⟨2⟩] = false
      ∧ editsOnlyA.editing.transduces [⟨1⟩, ⟨2⟩, ⟨0⟩, ⟨1⟩] [⟨0⟩, ⟨0⟩] = true
      ∧ editsOnlyA.editing.transduces [⟨3⟩, ⟨0⟩] [⟨0⟩] = false := by
  have hexact := marking_editing_exact onlyA editsOnlyA build_onlyA
  refine ⟨(hexact _ _ []).1.2 ?_, Bool.eq_false_iff.2 fun h => ?_, (hexact [] _ _).2.2 ?_,
    Bool.eq_false_iff.2 fun h => ?_⟩
  · exact ⟨Word.over_cons_iff.2 ⟨rfl, Word.over_nil _⟩, [], [⟨0⟩], .delete, rfl, rfl,
      .inr (List.cons_ne_nil _ _)⟩
  · obtain ⟨-, u, v, m, hx, hy, hm⟩ := (hexact _ _ []).1.1 h
    rcases List.append_eq_singleton_iff.1 hx.symm with ⟨rfl, rfl⟩ | ⟨rfl, rfl⟩
    · exact absurd (List.cons.inj hy).2 (by decide)
    · -- nothing is left behind the marker, so it marks an insertion
      obtain rfl := hm.resolve_right (by simp)
      cases hy
  · refine ⟨[([⟨1⟩], [⟨0⟩]), ([⟨2⟩, ⟨0⟩], []), ([⟨1⟩], [⟨0⟩])], ?_, rfl, rfl⟩
    have hinsert : Piece onlyA [⟨1⟩] [⟨0⟩] := .insert rfl
    have hdelete : Piece onlyA [⟨2⟩, ⟨0⟩] [] := .delete rfl
    simp [hinsert, hdelete]
  · have hpieces := repeated_iff_exists_pairs.2 ((hexact [] _ _).2.1 h)
    obtain ⟨t, -, ht, hne, -⟩ := (repeated_piece_substitute_iff (S := onlyA) rfl).1 hpieces
    exact hne (congrArg Symbol.mk (Nat.lt_one_iff.1 (of_decide_eq_true ht)))

end EditTransducers

end FiniteState
