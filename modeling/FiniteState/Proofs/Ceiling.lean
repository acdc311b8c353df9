import FiniteState.Proofs.Boolean
import FiniteState.Proofs.Derivation
import FiniteState.Proofs.Slots

/-!
# Nothing but the state ceiling

An operation refuses operands over different symbols, and an operation on acceptors refuses
transducers and foreign symbols. Between proper automata, which are acceptors with labels in Σ, all
this is met, and what comes of the operation is proper again. The limit on the number of states is
the one thing left that can fail.

* `Yields`: a result with a property, unless there were too many states; one lemma for each way to
  combine results.
* `Proper.union`, `Proper.difference`, …: an operation on proper automata yields a proper one.
* `Proper.yields_build`: so do the buckets of a proper target.
* `proper_ball`: so does a ball, although transducers are composed for it.
-/

namespace FiniteState

/-- The error for more states than the alphabet admits. -/
def Error.IsExplosion (e : Error) : Prop := ∃ operation limit, e = .stateExplosion operation limit

/-! ## Results

Failure for the number of states is passed on by whatever operations come after it, so the rules are
those of sequences and folds. -/

/-- A result that satisfies `Q`, or an error that is due to the number of states. -/
def Yields {α : Type} (x : Except Error α) (Q : α → Prop) : Prop :=
  match x with
  | .ok a => Q a
  | .error e => e.IsExplosion

namespace Yields

variable {α β κ : Type} {x : Except Error α} {Q Q' : α → Prop} {R : β → Prop}

/-- The only errors are explosions. -/
theorem isExplosion {e : Error} (h : Yields x Q) (hx : x = .error e) : e.IsExplosion := by
  subst hx
  exact h

/-- Success and failure can be looked at apart. -/
theorem of_errors (hok : ∀ a, x = .ok a → Q a) (herror : ∀ e, x = .error e → e.IsExplosion) :
    Yields x Q := by
  cases x with
  | ok a => exact hok a rfl
  | error e => exact herror e rfl

/-- What is known of successful results may be added. -/
theorem of_ok (h : Yields x Q') (hok : ∀ a, x = .ok a → Q a) : Yields x Q :=
  of_errors hok fun _ he => h.isExplosion he

/-- What follows may rely on what came before, and explosions are passed on. -/
theorem bind {f : α → Except Error β} (hx : Yields x Q) (hf : ∀ a, Q a → Yields (f a) R) :
    Yields (x >>= f) R := by
  cases x with
  | ok a => exact hf a hx
  | error e => exact hx

/-- What each step of a loop keeps, the loop yields. -/
theorem foldlM {f : α → κ → Except Error α} {ks : List κ} {a : α} (ha : Q a)
    (hf : ∀ k ∈ ks, ∀ a, Q a → Yields (f a k) Q) : Yields (ks.foldlM f a) Q := by
  induction ks generalizing a with
  | nil => exact ha
  | cons k ks ih =>
    rw [List.foldlM_cons]
    refine (hf k List.mem_cons_self a ha).bind fun b hb => ih hb fun k' hk' => ?_
    exact hf k' (List.mem_cons_of_mem k hk')

end Yields

namespace Automaton

variable {A B C : Automaton} {S T : Alphabet}

/-! ## Proper automata

All automata that a generator handles are over one alphabet, and their transitions copy letters of Σ
or are silent. Such operands are never refused. -/

/-- Copies a letter of Σ, or neither reads nor writes. -/
def Plain (S : Alphabet) (l : Label × Label) : Prop :=
  Copying l ∧ Within (fun s => S.contains s = true) l

theorem plain_silent (S : Alphabet) : Plain S silentLabels := ⟨copying_silent, within_silent _⟩

theorem plain_letter {s : Symbol} (hs : S.contains s = true) : Plain S (letter s) :=
  ⟨rfl, within_letter_iff.2 hs⟩

/-- An acceptor over the symbols of `S` with labels in Σ. -/
structure Proper (S : Alphabet) (A : Automaton) : Prop where
  symbols : A.alphabet.symbols = S.symbols
  plain : A.AllLabels (Plain S)

theorem OverAlphabet.proper (hA : A.OverAlphabet) : A.Proper A.alphabet := by
  obtain ⟨hcopies, hwithin⟩ := overAlphabet_iff_allLabels.1 hA
  exact ⟨rfl, hcopies.and hwithin⟩

namespace Proper

/-- A proper automaton is an acceptor, as the operations on languages require. -/
theorem isAcceptor (hA : A.Proper S) : A.isAcceptor = true :=
  allLabels_copying_iff.1 (hA.plain.mono fun _ hl => hl.1)

/-- A proper automaton has no label outside Σ, as a complement requires. -/
theorem overAlphabet (hA : A.Proper S) : A.OverAlphabet := by
  refine overAlphabet_iff_allLabels.2 ⟨hA.plain.mono fun _ hl => hl.1, hA.plain.mono fun l hl => ?_⟩
  refine hl.2.mono fun s hs => ?_
  rwa [Alphabet.contains_congr hA.symbols]

/-- A proper automaton relates words over Σ to themselves. -/
theorem over_of_relates (hA : A.Proper S) {x y : Word} (h : A.Relates x y) : y.Over S := by
  obtain ⟨rfl, hover⟩ := hA.overAlphabet.copies_of_relates h
  exact (Word.over_congr hA.symbols).1 hover

/-- Being proper depends on the symbols of the alphabet, and not on its limit. -/
theorem congr (hA : A.Proper S) (hST : S.symbols = T.symbols) : A.Proper T := by
  refine ⟨hA.symbols.trans hST, hA.plain.mono fun l hl => ⟨hl.1, hl.2.mono fun s hs => ?_⟩⟩
  rwa [← Alphabet.contains_congr hST]

theorem empty (hT : T.symbols = S.symbols) : (Automaton.empty T).Proper S :=
  ⟨hT, allLabels_empty T⟩

theorem epsilon (hT : T.symbols = S.symbols) : (Automaton.epsilon T).Proper S :=
  ⟨hT, allLabels_epsilon T⟩

theorem sigma (hT : T.symbols = S.symbols) : (Automaton.sigma T).Proper S := by
  refine ⟨hT, allLabels_sigma fun s hs => plain_letter ?_⟩
  rwa [← Alphabet.contains_congr hT]

/-- A list of words over Σ gives a proper automaton. -/
theorem words (hT : T.symbols = S.symbols) {ws : List Word} (hws : ∀ w ∈ ws, w.Over S) :
    (Automaton.words T ws).Proper S := by
  rw [← alphabet_words T ws] at hT
  exact ⟨hT, allLabels_words fun w hw s hs => plain_letter (hws w hw s hs)⟩

end Proper

/-! ## Operations -/

/-- Automata over the same symbols pass the check. -/
theorem yields_requireCompatible {operation : Operation}
    (h : A.alphabet.symbols = B.alphabet.symbols) :
    Yields (requireCompatible operation A B) fun _ => True := by
  rcases requireCompatible_cases operation A B with ⟨-, hok⟩ | ⟨hne, -⟩
  · rw [hok]
    trivial
  · exact absurd h hne

/-- The check for room fails with an explosion. -/
theorem yields_requireRoom (operation : Operation) (S : Alphabet) (states : Nat) :
    Yields (requireRoom operation S states) fun _ => True := by
  unfold requireRoom
  split
  · trivial
  · exact ⟨operation, S.stateLimit, rfl⟩

/-- Exploration can fail for lack of room only. -/
theorem yields_explore {κ : Type} [Ord κ] [Std.TransOrd κ] [Std.LawfulEqOrd κ]
    (M : TransitionSystem κ) (S : Alphabet) (operation : Operation) :
    Yields (M.explore S operation) fun C => C.alphabet = S :=
  .of_errors (fun _ hC => TransitionSystem.alphabet_explore hC) fun _ he =>
    ⟨operation, S.stateLimit, TransitionSystem.explore_eq_error he⟩

/-- Any automaton can be minimized, a transducer too. -/
theorem yields_minimize (A : Automaton) : Yields A.minimize fun C => C.alphabet = A.alphabet := by
  have hdeterministic : Yields A.trimmedDeterministic fun _ => True := by
    unfold trimmedDeterministic
    split
    · trivial
    · exact (yields_explore _ _ _).bind fun _ _ => trivial
  have hminimize : Yields A.minimize fun _ => True := hdeterministic.bind fun _ _ => trivial
  exact hminimize.of_ok fun C hC => alphabet_minimize hC

/-- Composition over the same symbols can fail for lack of room only. -/
theorem yields_compose (h : A.alphabet.symbols = B.alphabet.symbols) :
    Yields (A.compose B) fun C => C.alphabet = A.alphabet := by
  have hcompose : Yields (A.compose B) fun _ => True :=
    (yields_requireCompatible h).bind fun _ _ => (yields_explore _ _ _).bind fun _ _ => trivial
  exact hcompose.of_ok fun C hC => alphabet_compose hC

namespace Proper

/-- Minimization of a proper automaton gives one, or there is no room. -/
theorem minimize (hA : A.Proper S) : Yields A.minimize (Proper S) := by
  refine (yields_minimize A).of_ok fun C hC => ⟨?_, hA.plain.minimize hC⟩
  rw [alphabet_minimize hC, hA.symbols]

theorem union (hA : A.Proper S) (hB : B.Proper S) : Yields (A.union B) (Proper S) := by
  have hroom : Yields (A.union B) fun _ => True :=
    (yields_requireCompatible (hA.symbols.trans hB.symbols.symm)).bind fun _ _ =>
      (yields_requireRoom _ _ _).bind fun _ _ => trivial
  refine hroom.of_ok fun C hC => ⟨?_, hA.plain.union hB.plain (plain_silent S) hC⟩
  rw [alphabet_union hC, hA.symbols]

theorem concatWith (hA : A.Proper S) (hB : B.Proper S) (keep : Bool) :
    Yields (A.concatWith B keep) (Proper S) := by
  have hroom : Yields (A.concatWith B keep) fun _ => True :=
    (yields_requireCompatible (hA.symbols.trans hB.symbols.symm)).bind fun _ _ =>
      (yields_requireRoom _ _ _).bind fun _ _ => trivial
  refine hroom.of_ok fun C hC => ⟨?_, hA.plain.concatWith hB.plain (plain_silent S) hC⟩
  rw [alphabet_concatWith hC, hA.symbols]

/-- Appending copies is a loop of concatenations. -/
theorem appendCopies (hA : A.Proper S) (keep : Bool) (n : Nat) {acc : Automaton}
    (hacc : acc.Proper S) : Yields (A.appendCopies keep n acc) (Proper S) := by
  induction n generalizing acc with
  | zero => exact hacc
  | succ n ih => exact (hacc.concatWith hA keep).bind fun D hD => ih hD

/-- The power of a proper automaton with one exponent is proper, or there is no room. -/
theorem power (hA : A.Proper S) (n : Nat) : Yields (A.power n (some n)) (Proper S) := by
  unfold Automaton.power
  dsimp only
  split
  · exact .empty hA.symbols
  · refine (hA.appendCopies false n (.epsilon hA.symbols)).bind fun required hrequired => ?_
    exact hA.appendCopies true (n - n) hrequired

/-- The intersection of proper automata is proper, or there is no room. -/
theorem intersection (hA : A.Proper S) (hB : B.Proper S) :
    Yields (A.intersection B) (Proper S) := by
  refine .of_errors (fun C hC => ⟨?_, hA.plain.intersection_left (plain_silent S) hC⟩)
    fun e he => ?_
  · rw [alphabet_intersection hC, hA.symbols]
  · rcases intersection_cases A B with ⟨hsymbols, -⟩ | ⟨-, hrewrites, -⟩ | ⟨-, -, -, h | ⟨C, h⟩⟩
    · exact absurd (hA.symbols.trans hB.symbols.symm) hsymbols
    · rw [rewrites_iff, rewrites_iff, hA.isAcceptor, hB.isAcceptor] at hrewrites
      simp at hrewrites
    · rw [h] at he
      exact ⟨_, _, (Except.error.inj he).symm⟩
    · rw [h] at he
      cases he

/-- Proper automata over a non-empty alphabet have complements. -/
theorem complement (hA : A.Proper S) (hS : S.symbols ≠ []) : Yields A.complement (Proper S) := by
  refine .of_errors (fun C hC => ⟨?_, ?_⟩) fun e he => ?_
  · rw [alphabet_complement hC, hA.symbols]
  · refine allLabels_complement (fun s hs => plain_letter ?_) hC
    rwa [← Alphabet.contains_congr hA.symbols]
  · -- a proper automaton passes the three checks that come before the construction
    rcases complement_cases A with ⟨hempty, -⟩ | ⟨-, hrewrites, -⟩ | ⟨-, -, hstrays, -⟩
      | ⟨-, -, ⟨operation, h⟩ | ⟨C, h⟩⟩
    · exact absurd (hA.symbols.symm.trans hempty) hS
    · exact absurd hrewrites (overAlphabet_iff.1 hA.overAlphabet).1
    · exact absurd hstrays (overAlphabet_iff.1 hA.overAlphabet).2
    · rw [h] at he
      exact ⟨_, _, (Except.error.inj he).symm⟩
    · rw [h] at he
      cases he

/-- A difference needs a letter in Σ, for the complement. -/
theorem difference (hA : A.Proper S) (hB : B.Proper S) (hS : S.symbols ≠ []) :
    Yields (A.difference B) (Proper S) :=
  (yields_requireCompatible (hA.symbols.trans hB.symbols.symm)).bind fun _ _ =>
    (hB.complement hS).bind fun _ hC => hA.intersection hC

/-- Words over Σ can be removed. -/
theorem without (hA : A.Proper S) (hS : S.symbols ≠ []) {ws : List Word}
    (hws : ∀ w ∈ ws, w.Over S) : Yields (A.without ws) (Proper S) :=
  (hA.difference (.words hA.symbols hws) hS).bind fun _ hD => hD.minimize

end Proper

end Automaton

open Automaton

variable {S : Alphabet}

/-! ## Buckets -/

namespace LengthBuckets

/-- The words left in all buckets are given by proper automata. -/
def Proper (S : Alphabet) (B : LengthBuckets) : Prop :=
  ∀ length v A, B.get? length v = some A → A.Proper S

/-- Putting a proper automaton in a slot keeps the buckets proper. -/
theorem Proper.set {B : LengthBuckets} (hB : B.Proper S) {A : Automaton} (hA : A.Proper S)
    (length : Nat) (v : Verdict) : (B.set length v A).Proper S := by
  intro length' v' A' hA'
  obtain ⟨hfirst, b, hb, rfl⟩ := get?_eq_some_iff.1 hA'
  change (B.buckets.modify (length - B.first) (·.set v A))[length' - B.first]? = some b at hb
  rw [Array.getElem?_modify] at hb
  split at hb
  · obtain ⟨b₀, hb₀, rfl⟩ := Option.map_eq_some_iff.1 hb
    rw [get_set]
    split
    · exact hA
    · exact hB length' v' _ (get?_eq_some_iff.2 ⟨hfirst, b₀, hb₀, rfl⟩)
  · exact hB length' v' _ (get?_eq_some_iff.2 ⟨hfirst, b, hb, rfl⟩)

/-- Making a bucket of proper automata can fail for lack of room only. -/
theorem yields_bucketOf {target exact : Automaton} (htarget : target.Proper S)
    (hexact : exact.Proper S) (hS : S.symbols ≠ []) :
    Yields (bucketOf target exact) fun _ => True :=
  (htarget.intersection hexact).bind fun _ hP => hP.minimize.bind fun _ _ =>
    (hexact.difference htarget hS).bind fun _ hN => hN.minimize.bind fun _ _ => trivial

theorem yields_bucketsFrom {target exact : Automaton} (htarget : target.Proper S)
    (hexact : exact.Proper S) (hS : S.symbols ≠ []) (count : Nat) :
    Yields (bucketsFrom target count exact) fun _ => True := by
  fun_induction bucketsFrom target count exact with
  | case1 exact => trivial
  | case2 exact => exact (yields_bucketOf htarget hexact hS).bind fun _ _ => trivial
  | case3 count exact ih =>
    refine (yields_bucketOf htarget hexact hS).bind fun b _ => ?_
    refine (hexact.concatWith (.sigma htarget.symbols) false).bind fun C hC => ?_
    refine hC.minimize.bind fun longer hlonger => ?_
    exact (ih longer hlonger).bind fun _ _ => trivial

/-- Buckets of a proper target are proper, or there is no room. -/
theorem yields_build {target : Automaton} (htarget : target.Proper S) (hS : S.symbols ≠ [])
    (least most : Nat) : Yields (build target least most) (LengthBuckets.Proper S) := by
  have hbuild : Yields (build target least most) fun _ => True :=
    ((Automaton.Proper.sigma htarget.symbols).power least).bind fun P hP =>
      hP.minimize.bind fun exact hexact =>
        (yields_bucketsFrom htarget hexact hS _).bind fun _ _ => trivial
  refine hbuild.of_ok fun B hB length v A hA => ⟨?_, ?_⟩
  · rw [alphabet_build hB hA, htarget.symbols]
  · refine allLabels_build (plain_silent S) htarget.plain (fun s hs => plain_letter ?_) hB hA
    rwa [← Alphabet.contains_congr htarget.symbols]

end LengthBuckets

/-! ## Balls

The transducers of a ball read and write markers, so they are not proper. But the ball is the
projection on what is written in the end, and no marker is. -/

namespace EditTransducers

variable {E : EditTransducers} {A : Automaton}

/-- Writes letters of Σ only. -/
def Writes (S : Alphabet) (l : Label × Label) : Prop :=
  ∀ s, l.2 = .symbol s → S.contains s = true

theorem writes_epsilon (S : Alphabet) (l : Label) : Writes S (l, .epsilon) := nofun

theorem writes_letter {s : Symbol} (hs : S.contains s = true) {l : Label} :
    Writes S (l, .symbol s) := by
  rintro r ⟨⟩
  exact hs

/-- The marking transducer is over the given alphabet. -/
@[grind →] theorem alphabet_markingOver (h : markingOver S = .ok A) : A.alphabet = S := by
  unfold markingOver at h
  obtain ⟨star₀, hstar₀, h⟩ := Except.bind_eq_ok.1 h
  obtain ⟨star, hstar, h⟩ := Except.bind_eq_ok.1 h
  obtain ⟨plus₀, -, h⟩ := Except.bind_eq_ok.1 h
  obtain ⟨plus, -, h⟩ := Except.bind_eq_ok.1 h
  obtain ⟨insertion₀, hinsertion₀, h⟩ := Except.bind_eq_ok.1 h
  obtain ⟨insertion, hinsertion, h⟩ := Except.bind_eq_ok.1 h
  obtain ⟨substitution₀, -, h⟩ := Except.bind_eq_ok.1 h
  obtain ⟨substitution, -, h⟩ := Except.bind_eq_ok.1 h
  obtain ⟨deletion₀, -, h⟩ := Except.bind_eq_ok.1 h
  obtain ⟨deletion, -, h⟩ := Except.bind_eq_ok.1 h
  obtain ⟨union₀, hunion₀, h⟩ := Except.bind_eq_ok.1 h
  obtain ⟨union, hunion, h⟩ := Except.bind_eq_ok.1 h
  -- the alphabet is that of the first part, which begins with the words over Σ
  have hsigma : (Automaton.sigma S).alphabet = S := rfl
  grind [Automaton.concat, Automaton.star]

/-- The edits of a letter of Σ write letters of Σ. -/
theorem writes_editsOf {x : Symbol} (hx : S.contains x = true) {As : List Automaton}
    (h : editsOf S x = .ok As) : ∀ A ∈ As, A.AllLabels (Writes S) := by
  unfold editsOf at h
  obtain ⟨deletion, hdeletion, h⟩ := Except.bind_eq_ok.1 h
  obtain ⟨substitutions, hsubstitutions, h⟩ := Except.bind_eq_ok.1 h
  have hunmark : ∀ m, (unmark S m).AllLabels (Writes S) := fun m =>
    allLabels_pair (writes_epsilon S _)
  rw [← Except.pure_eq_ok.1 h]
  intro A hA
  rcases List.mem_cons.1 hA with rfl | hA
  · exact allLabels_pair (writes_letter hx)
  rcases List.mem_cons.1 hA with rfl | hA
  · exact (hunmark .delete).concatWith (allLabels_pair (writes_epsilon S _))
      (writes_epsilon S .epsilon) hdeletion
  · obtain ⟨y, hy, hsubstitution⟩ :=
      exists_left_of_forall₂ (Except.forall₂_of_mapM hsubstitutions) hA
    have hy' := Alphabet.mem_sigma_iff.1 (List.mem_filter.1 hy).1
    exact (hunmark .substitute).concatWith (allLabels_pair (writes_letter hy'))
      (writes_epsilon S .epsilon) hsubstitution

/-- The editing transducer writes letters of Σ only, though it reads marks as well. -/
theorem writes_editing (h : editingOver S = .ok A) : A.alphabet = S ∧ A.AllLabels (Writes S) := by
  unfold editingOver at h
  obtain ⟨edits, hedits, h⟩ := Except.bind_eq_ok.1 h
  obtain ⟨union, hunion, h⟩ := Except.bind_eq_ok.1 h
  obtain ⟨star, hstar, h⟩ := Except.bind_eq_ok.1 h
  constructor
  · grind [Automaton.star]
  · have hparts : ∀ B ∈ Automaton.sigma S :: edits.flatten, B.AllLabels (Writes S) := by
      intro B hB
      rcases List.mem_cons.1 hB with rfl | hB
      · exact allLabels_sigma fun s hs => writes_letter hs
      · obtain ⟨As, hAs, hB⟩ := List.mem_flatten.1 hB
        obtain ⟨s, hs, hsAs⟩ := exists_left_of_forall₂ (Except.forall₂_of_mapM hedits) hAs
        exact writes_editsOf (Alphabet.mem_sigma_iff.1 hs) hsAs B hB
    have hunion' := allLabels_unionAll hparts (writes_epsilon S .epsilon) hunion
    exact (hunion'.closureWith (writes_epsilon S .epsilon) hstar).minimize h

/-- Whatever word a ball is made for, it is read from what the editing transducer writes. -/
theorem proper_ball (hE : build S = .ok E) (w : Word) : Yields (E.ball w) (Automaton.Proper S) := by
  obtain ⟨halphabet, hmarking, hediting⟩ := build_eq_ok hE
  have hmarking' := alphabet_markingOver hmarking
  obtain ⟨hediting', hwrites⟩ := writes_editing hediting
  have hword : (Automaton.word E.alphabet w).alphabet = S :=
    (alphabet_words E.alphabet [w]).trans halphabet
  refine (yields_compose (by rw [hword, hmarking'])).bind fun marked hmarked => ?_
  rw [hword] at hmarked
  have hedited : Yields (marked.compose E.editing) fun C =>
      C.alphabet = S ∧ C.AllLabels (Writes S) := by
    refine (yields_compose (by rw [hmarked, hediting'])).of_ok fun C hC => ?_
    refine ⟨(alphabet_compose hC).trans hmarked, ?_⟩
    obtain ⟨-, D, hD, rfl⟩ := compose_eq_ok hC
    -- what the left side writes is read in the middle, or it writes nothing
    have hall : marked.AllLabels fun _ => True := fun _ _ _ _ => trivial
    refine (hall.product hwrites (fun l _ hl s hs => ?_) (fun _ hl _ => hl)
      (fun _ _ _ hm _ => hm) hD).trim
    rw [hl] at hs
    cases hs
  refine hedited.bind fun C hC => ?_
  -- projecting the output puts what is written on both tapes
  have hproject : (C.project .output).Proper S := by
    refine ⟨congrArg Alphabet.symbols hC.1, hC.2.project .output fun l hl => ⟨rfl, ?_⟩⟩
    intro tape s hs
    exact hl s (by cases tape <;> exact hs)
  exact hproject.minimize

end EditTransducers

end FiniteState
