import FiniteState.Proofs.Complement
import FiniteState.Proofs.Minimize
import FiniteState.Proofs.Rational

/-!
# Labels and alphabets through the operations

An operation may put transitions together in new ways, but it invents few labels: those of its
result come from the operands, or are silent, or copy a letter of Σ. `AllLabels` states a property
of the labels of all transitions, and there is one lemma for each operation that hands it on. To be
an acceptor and to use certain symbols only are two such properties.

* `AllLabels.mono`, `allLabels_copying_iff`, `allLabels_within_iff`: the properties and their use.
* `AllLabels.trim`, `AllLabels.union`, …: what an operation hands on.
* `alphabet_union`, …: the alphabet of a result.
-/

namespace FiniteState

/-- Reads nothing and writes nothing. -/
abbrev silentLabels : Label × Label := (.epsilon, .epsilon)

/-- Writes what it reads. -/
def Copying (l : Label × Label) : Prop := l.1 = l.2

/-- Reads and writes only the given symbols. -/
def Within (X : Symbol → Prop) (l : Label × Label) : Prop :=
  ∀ tape s, Tape.side l tape = .symbol s → X s

theorem copying_silent : Copying silentLabels := rfl

theorem within_silent (X : Symbol → Prop) : Within X silentLabels := by
  intro tape s h
  cases tape <;> cases h

theorem Within.mono {X Y : Symbol → Prop} {l : Label × Label} (hXY : ∀ s, X s → Y s)
    (h : Within X l) : Within Y l :=
  fun tape s hs => hXY s (h tape s hs)

/-- The label of a letter is within a set if the letter is. -/
theorem within_letter_iff {X : Symbol → Prop} {s : Symbol} :
    Within X (Automaton.letter s) ↔ X s := by
  constructor
  · exact fun h => h .input s rfl
  · intro hs tape r hr
    cases tape <;> cases hr <;> exact hs

namespace Automaton

variable {A B C D : Automaton} {P Q R : Label × Label → Prop} {S : Alphabet}

/-- The labels of all transitions satisfy `P`. -/
def AllLabels (P : Label × Label → Prop) (A : Automaton) : Prop :=
  ∀ s ∈ A.states, ∀ t ∈ s.transitions, P t.labels

/-- Some transition carries the symbol, on either tape. -/
def Uses (A : Automaton) (s : Symbol) : Prop :=
  ∃ q, ∃ t ∈ A.transitions q, ∃ tape, t.label tape = .symbol s

/-- All labels are those on the transitions of any state. -/
theorem allLabels_iff : A.AllLabels P ↔ ∀ q, ∀ t ∈ A.transitions q, P t.labels := by
  constructor
  · exact fun h q t ht => h _ (mem_states_of_mem_transitions ht) t ht
  · intro h s hs t ht
    obtain ⟨q, hq, rfl⟩ := Array.mem_iff_getElem.1 hs
    refine h q t ?_
    rwa [transitions, state_eq_getElem hq]

/-- What follows of labels follows of automata. -/
theorem AllLabels.mono (hPQ : ∀ l, P l → Q l) (h : A.AllLabels P) : A.AllLabels Q :=
  fun s hs t ht => hPQ _ (h s hs t ht)

/-- Two properties of labels can be put together. -/
theorem AllLabels.and (h : A.AllLabels P) (h' : A.AllLabels Q) : A.AllLabels fun l => P l ∧ Q l :=
  fun s hs t ht => ⟨h s hs t ht, h' s hs t ht⟩

/-- An acceptor is an automaton with labels that copy. -/
theorem allLabels_copying_iff : A.AllLabels Copying ↔ A.isAcceptor = true := by
  rw [isAcceptor_iff]
  exact allLabels_iff

/-- All labels are within a set if all used symbols are. -/
theorem allLabels_within_iff {X : Symbol → Prop} :
    A.AllLabels (Within X) ↔ ∀ s, A.Uses s → X s := by
  rw [allLabels_iff]
  constructor
  · rintro h s ⟨q, t, ht, tape, hs⟩
    exact h q t ht tape s (by cases tape <;> exact hs)
  · intro h q t ht tape s hs
    exact h s ⟨q, t, ht, tape, by cases tape <;> exact hs⟩

theorem allLabels_uses (A : Automaton) : A.AllLabels (Within A.Uses) :=
  allLabels_within_iff.2 fun _ hs => hs

/-- What has only labels of the operands has what their labels have. -/
theorem AllLabels.of_transitions (h : A.AllLabels P)
    (hfrom : ∀ i, ∀ t ∈ B.transitions i, ∃ q, ∃ u ∈ A.transitions q, u.labels = t.labels) :
    B.AllLabels P := by
  refine allLabels_iff.2 fun i t ht => ?_
  obtain ⟨q, u, hu, hlabels⟩ := hfrom i t ht
  rw [← hlabels]
  exact allLabels_iff.1 h q u hu

/-! ## Elementary automata -/

theorem allLabels_empty (S : Alphabet) : (empty S).AllLabels P := by
  simp [AllLabels, empty]

theorem allLabels_epsilon (S : Alphabet) : (epsilon S).AllLabels P := by
  simp [AllLabels, epsilon]

theorem allLabels_pair {input output : Label} (h : P (input, output)) :
    (pair S input output).AllLabels P := by
  simp [AllLabels, pair, Arc.labels, h]

theorem allLabels_symbol {s : Symbol} (h : P (letter s)) : (symbol S s).AllLabels P :=
  allLabels_pair h

theorem allLabels_sigma (h : ∀ s, S.contains s = true → P (letter s)) :
    (sigma S).AllLabels P := by
  simp only [AllLabels, sigma, List.mem_toArray, List.mem_cons, List.not_mem_nil, or_false]
  rintro s (rfl | rfl) t ht
  · obtain ⟨c, hc, rfl⟩ := List.mem_map.1 ht
    exact h c (Alphabet.mem_sigma_iff.1 hc)
  · cases ht

theorem allLabels_sigmaStar (h : ∀ s, S.contains s = true → P (letter s)) :
    (sigmaStar S).AllLabels P := by
  simp only [AllLabels, sigmaStar, List.mem_toArray, List.mem_singleton]
  rintro s rfl t ht
  obtain ⟨c, hc, rfl⟩ := List.mem_map.1 ht
  exact h c (Alphabet.mem_sigma_iff.1 hc)

/-- Accepting one more state changes no label. -/
theorem AllLabels.acceptAt (h : A.AllLabels P) {q : Nat} (hq : q < A.size) :
    (A.acceptAt q).AllLabels P := by
  refine allLabels_iff.2 fun p t ht => ?_
  rw [transitions_acceptAt hq] at ht
  exact allLabels_iff.1 h p t ht

theorem AllLabels.branch (h : A.AllLabels P) {q : Nat} (hq : q < A.size) {s : Symbol}
    (hs : P (letter s)) : (A.branch q s).AllLabels P := by
  refine allLabels_iff.2 fun p t ht => ?_
  rcases (mem_transitions_branch_iff hq).1 ht with ht | ⟨-, rfl⟩
  · exact allLabels_iff.1 h p t ht
  · exact hs

/-- A word adds transitions for its own symbols at most. -/
theorem AllLabels.addWord (h : A.AllLabels P) {q : Nat} (hq : q < A.size) {w : Word}
    (hw : ∀ s ∈ w, P (letter s)) : (A.addWord q w).AllLabels P := by
  refine addWord_induction (P := fun C _ u => C.AllLabels P ∧ ∀ s ∈ u, P (letter s))
    (Q := fun C => C.AllLabels P) ?follow ?branch ?accept hq ⟨h, hw⟩
  case follow =>
    intro C r s u t _ _ ⟨hC, hrest⟩
    exact ⟨hC, fun s' hs' => hrest s' (List.mem_cons_of_mem s hs')⟩
  case branch =>
    intro C r s u hr _ ⟨hC, hrest⟩
    refine ⟨hC.branch hr (hrest s List.mem_cons_self), fun s' hs' => ?_⟩
    exact hrest s' (List.mem_cons_of_mem s hs')
  case accept =>
    intro C r hr ⟨hC, _⟩
    exact hC.acceptAt hr

/-- An automaton of words has the labels of their letters. -/
theorem allLabels_words {ws : List Word} (h : ∀ w ∈ ws, ∀ s ∈ w, P (letter s)) :
    (words S ws).AllLabels P := by
  refine words_induction (P := fun A => A.AllLabels P) (allLabels_empty S) fun A hA w hw => ?_
  exact hA.addWord A.start_lt_size (h w hw)

/-! ## Operations that choose among the transitions -/

theorem AllLabels.trim (h : A.AllLabels P) : A.trim.AllLabels P :=
  h.of_transitions fun _ _ ht => exists_transition_of_trim ht

/-- Determinization groups transitions by their labels and makes no new ones. -/
theorem AllLabels.determinize (h : A.AllLabels P) (hD : A.determinize = .ok D) : D.AllLabels P :=
  h.of_transitions fun _ _ ht => exists_transition_of_determinize hD ht

theorem AllLabels.minimize (h : A.AllLabels P) (hC : A.minimize = .ok C) : C.AllLabels P :=
  h.of_transitions fun _ _ ht => exists_transition_of_minimize hC ht

/-- To remove silent transitions is to merge states and to trim. -/
theorem removeEpsilon_eq_ok (h : A.removeEpsilon = .ok C) : C = A.withoutSilent.trim := by
  obtain ⟨-, -, h⟩ := Except.bind_eq_ok.1 h
  exact (Except.pure_eq_ok.1 h).symm

/-- Each new transition has the labels of an old one. -/
theorem AllLabels.removeEpsilon (h : A.AllLabels P) (hC : A.removeEpsilon = .ok C) :
    C.AllLabels P := by
  rw [removeEpsilon_eq_ok hC]
  refine AllLabels.trim fun s hs t ht => ?_
  obtain ⟨q, -, rfl⟩ := Array.mem_map.1 hs
  -- a merged state has transitions of the states in the closure of its number
  obtain ⟨p, -, ht⟩ := List.mem_flatMap.1 (List.mem_filter.1 (List.mem_eraseDups.1 ht)).1
  exact allLabels_iff.1 h p t ht

/-- A projection has the label of one tape on both. -/
theorem AllLabels.project (tape : Tape) (h : A.AllLabels P)
    (hQ : ∀ l, P l → Q (Tape.side l tape, Tape.side l tape)) : (A.project tape).AllLabels Q := by
  refine allLabels_iff.2 fun q t ht => ?_
  rw [transitions_project] at ht
  obtain ⟨u, hu, rfl⟩ := List.mem_map.1 ht
  have hside := hQ _ (allLabels_iff.1 h q u hu)
  cases tape <;> exact hside

/-! ## Rational operations -/

/-- Moving states to other numbers changes no label. -/
theorem AllLabels.shiftedStates (h : A.AllLabels P) (k : Nat) :
    ∀ s ∈ A.shiftedStates k, ∀ t ∈ s.transitions, P t.labels := by
  intro s hs t ht
  obtain ⟨s', hs', rfl⟩ := Array.mem_map.1 hs
  obtain ⟨u, hu, rfl⟩ := List.mem_map.1 ht
  exact h s' hs' u hu

/-- Linking accepting states adds transitions with the labels of the link. -/
theorem labels_linkFinal {t : Transition} {keep : Bool} {states : Array State}
    (ht : P t.labels) (h : ∀ s ∈ states, ∀ u ∈ s.transitions, P u.labels) :
    ∀ s ∈ linkFinal t keep states, ∀ u ∈ s.transitions, P u.labels := by
  intro s hs u hu
  obtain ⟨s', hs', rfl⟩ := Array.mem_map.1 hs
  rcases mem_transitions_link_iff.1 hu with hu | ⟨-, rfl⟩
  · exact h s' hs' u hu
  · exact ht

/-- A union adds the silent labels that lead to its operands. -/
theorem AllLabels.sum (hA : A.AllLabels P) (hB : B.AllLabels P) (hsilent : P silentLabels) :
    (A.sum B).AllLabels P := by
  intro s hs t ht
  rw [states_sum, Array.mem_append, Array.mem_append] at hs
  rcases hs with (hs | hs) | hs
  · obtain rfl := List.mem_singleton.1 (List.mem_toArray.1 hs)
    simp only [sumStart, List.mem_cons, List.not_mem_nil, or_false] at ht
    rcases ht with rfl | rfl <;> exact hsilent
  · exact hA.shiftedStates 1 s hs t ht
  · exact hB.shiftedStates (A.size + 1) s hs t ht

/-- A concatenation adds silent labels between its operands. -/
theorem AllLabels.sequence (hA : A.AllLabels P) (hB : B.AllLabels P) (hsilent : P silentLabels)
    (keep : Bool) : (A.sequence B keep).AllLabels P := by
  intro s hs
  rw [states_sequence, Array.mem_append] at hs
  rcases hs with hs | hs
  · exact labels_linkFinal hsilent hA s hs
  · exact hB.shiftedStates A.size s hs

/-- A closure adds silent labels that lead back. -/
theorem AllLabels.loop (hA : A.AllLabels P) (hsilent : P silentLabels) (acceptEmpty : Bool) :
    (A.loop acceptEmpty).AllLabels P := by
  intro s hs t ht
  rw [states_loop, Array.mem_append] at hs
  rcases hs with hs | hs
  · obtain rfl := List.mem_singleton.1 (List.mem_toArray.1 hs)
    obtain rfl := List.mem_singleton.1 ht
    exact hsilent
  · exact labels_linkFinal hsilent (hA.shiftedStates 1) s hs t ht

/-- What passes the check for compatibility has the same symbols. -/
theorem requireCompatible_eq_ok {operation : Operation} {u : Unit}
    (h : requireCompatible operation A B = .ok u) : A.alphabet.symbols = B.alphabet.symbols := by
  rcases requireCompatible_cases operation A B with ⟨hsymbols, -⟩ | ⟨-, herror⟩
  · exact hsymbols
  · rw [herror] at h
    cases h

theorem union_eq_ok (h : A.union B = .ok C) :
    A.alphabet.symbols = B.alphabet.symbols ∧ C = A.sum B := by
  obtain ⟨_, hsymbols, h⟩ := Except.bind_eq_ok.1 h
  obtain ⟨-, -, h⟩ := Except.bind_eq_ok.1 h
  exact ⟨requireCompatible_eq_ok hsymbols, (Except.pure_eq_ok.1 h).symm⟩

/-- A concatenation is that of compatible operands. -/
theorem concatWith_eq_ok {keep : Bool} (h : A.concatWith B keep = .ok C) :
    A.alphabet.symbols = B.alphabet.symbols ∧ C = A.sequence B keep := by
  obtain ⟨_, hsymbols, h⟩ := Except.bind_eq_ok.1 h
  obtain ⟨-, -, h⟩ := Except.bind_eq_ok.1 h
  exact ⟨requireCompatible_eq_ok hsymbols, (Except.pure_eq_ok.1 h).symm⟩

theorem closureWith_eq_ok {acceptEmpty : Bool} (h : A.closureWith acceptEmpty = .ok C) :
    C = A.loop acceptEmpty := by
  obtain ⟨-, -, h⟩ := Except.bind_eq_ok.1 h
  exact (Except.pure_eq_ok.1 h).symm

/-- A fold of unions starts with an automaton and ends with one over the same alphabet, to which all
operands are compatible. -/
theorem foldlM_union_induction {As : List Automaton} (h : As.foldlM union B = .ok C)
    {I : Automaton → Prop} (hB : I B)
    (hstep : ∀ D, I D → ∀ A ∈ As, ∀ E, D.union A = .ok E → I E) : I C := by
  induction As generalizing B with
  | nil => rwa [← Except.pure_eq_ok.1 h]
  | cons A As ih =>
    obtain ⟨D, hD, h⟩ := Except.bind_eq_ok.1 h
    refine ih h (hstep B hB A List.mem_cons_self D hD) fun E hE A' hA' F hF => ?_
    exact hstep E hE A' (List.mem_cons_of_mem A hA') F hF

/-- Union hands on what holds of silent labels and of both operands. -/
theorem AllLabels.union (hA : A.AllLabels P) (hB : B.AllLabels P) (hsilent : P silentLabels)
    (h : A.union B = .ok C) : C.AllLabels P := by
  rw [(union_eq_ok h).2]
  exact hA.sum hB hsilent

theorem allLabels_unionAll {As : List Automaton} (hAs : ∀ A ∈ As, A.AllLabels P)
    (hsilent : P silentLabels) (h : unionAll S As = .ok C) : C.AllLabels P :=
  foldlM_union_induction h (allLabels_empty S) fun _ hD A hA _ hE => hD.union (hAs A hA) hsilent hE

theorem AllLabels.concatWith (hA : A.AllLabels P) (hB : B.AllLabels P) (hsilent : P silentLabels)
    {keep : Bool} (h : A.concatWith B keep = .ok C) : C.AllLabels P := by
  rw [(concatWith_eq_ok h).2]
  exact hA.sequence hB hsilent keep

theorem AllLabels.closureWith (hA : A.AllLabels P) (hsilent : P silentLabels) {acceptEmpty : Bool}
    (h : A.closureWith acceptEmpty = .ok C) : C.AllLabels P := by
  rw [closureWith_eq_ok h]
  exact hA.loop hsilent acceptEmpty

theorem AllLabels.appendCopies (hA : A.AllLabels P) (hsilent : P silentLabels) {keep : Bool}
    {n : Nat} {acc : Automaton} (hacc : acc.AllLabels P) (h : A.appendCopies keep n acc = .ok C) :
    C.AllLabels P := by
  induction n generalizing acc with
  | zero => rwa [← Except.ok.inj h]
  | succ n ih =>
    obtain ⟨D, hD, h⟩ := Except.bind_eq_ok.1 h
    exact ih (hacc.concatWith hA hsilent hD) h

/-- A power is put together from copies, with a star behind them if there is no upper bound. -/
theorem power_cases {least : Nat} {most : Option Nat} (h : A.power least most = .ok C) :
    (∃ required star, most = none ∧ A.appendCopies false least (epsilon A.alphabet) = .ok required
        ∧ A.star = .ok star ∧ required.concat star = .ok C)
      ∨ (∃ n, most = some n ∧ n < least ∧ C = empty A.alphabet)
      ∨ ∃ required n, most = some n ∧ least ≤ n
          ∧ A.appendCopies false least (epsilon A.alphabet) = .ok required
          ∧ A.appendCopies true (n - least) required = .ok C := by
  unfold power at h
  cases most with
  | none =>
    obtain ⟨required, hrequired, h⟩ := Except.bind_eq_ok.1 h
    obtain ⟨star, hstar, h⟩ := Except.bind_eq_ok.1 h
    exact .inl ⟨required, star, rfl, hrequired, hstar, h⟩
  | some n =>
    simp only at h
    split at h
    next hlt => exact .inr (.inl ⟨n, rfl, hlt, (Except.ok.inj h).symm⟩)
    next hge =>
      obtain ⟨required, hrequired, h⟩ := Except.bind_eq_ok.1 h
      exact .inr (.inr ⟨required, n, rfl, Nat.le_of_not_lt hge, hrequired, h⟩)

theorem AllLabels.power (hA : A.AllLabels P) (hsilent : P silentLabels) {least : Nat}
    {most : Option Nat} (h : A.power least most = .ok C) : C.AllLabels P := by
  have hcopies : ∀ {required}, A.appendCopies false least (epsilon A.alphabet) = .ok required →
      required.AllLabels P := hA.appendCopies hsilent (allLabels_epsilon _)
  rcases power_cases h with ⟨required, star, -, hrequired, hstar, h⟩ | ⟨n, -, -, rfl⟩
    | ⟨required, n, -, -, hrequired, h⟩
  · exact (hcopies hrequired).concatWith (hA.closureWith hsilent hstar) hsilent h
  · exact allLabels_empty _
  · exact hA.appendCopies hsilent (hcopies hrequired) h

/-! ## Products, complement and difference -/

/-- An arc of a product is a transition of one side that leaves the tape between them alone, or a
transition of each side with the same symbol on that tape. -/
theorem AllLabels.product {operation : Operation} (hA : A.AllLabels P) (hB : B.AllLabels Q)
    (hleft : ∀ l, P l → l.2 = .epsilon → R l) (hright : ∀ l, Q l → l.1 = .epsilon → R l)
    (hboth : ∀ l m, P l → Q m → l.2 = m.1 → R (l.1, m.2))
    (h : (A.product B).explore S operation = .ok C) : C.AllLabels R := by
  refine allLabels_iff.2 fun i t ht => ?_
  obtain ⟨k, a, ha, hlabels⟩ := TransitionSystem.exists_arc_of_mem_explore h ht
  rw [← hlabels]
  rcases mem_arcs_product_iff.1 ha with ⟨t, ht, ha⟩ | ha
  · have hP := allLabels_iff.1 hA _ t ht
    rcases mem_leftArcs_iff.1 ha with ⟨houtput, rfl⟩ | ⟨s, houtput, u, hu, hinput, rfl⟩
    · have hR := hleft _ hP houtput
      rw [Arc.labels, houtput] at hR
      exact hR
    · exact hboth _ _ hP (allLabels_iff.1 hB _ u hu) (houtput.trans hinput.symm)
  · obtain ⟨u, hu, hinput, rfl⟩ := mem_rightArcs_iff.1 ha
    have hR := hright _ (allLabels_iff.1 hB _ u hu) hinput
    rw [Arc.labels, hinput] at hR
    exact hR

/-- A composition is the trimmed product of compatible operands. -/
theorem compose_eq_ok (h : A.compose B = .ok C) :
    A.alphabet.symbols = B.alphabet.symbols
      ∧ ∃ D, (A.product B).explore A.alphabet .compose = .ok D ∧ C = D.trim := by
  obtain ⟨_, hsymbols, h⟩ := Except.bind_eq_ok.1 h
  obtain ⟨D, hD, h⟩ := Except.bind_eq_ok.1 h
  exact ⟨requireCompatible_eq_ok hsymbols, D, hD, (Except.pure_eq_ok.1 h).symm⟩

/-- A composition hands on what can be read through a tape in the middle. -/
theorem AllLabels.compose (hA : A.AllLabels P) (hB : B.AllLabels P)
    (htrans : ∀ a b c, P (a, b) → P (b, c) → P (a, c)) (h : A.compose B = .ok C) :
    C.AllLabels P := by
  obtain ⟨-, D, hD, rfl⟩ := compose_eq_ok h
  refine (hA.product hB (fun _ hl _ => hl) (fun _ hl _ => hl) ?_ hD).trim
  rintro ⟨a, b⟩ ⟨b', c⟩ hl hm hmiddle
  obtain rfl : b = b' := hmiddle
  exact htrans a b c hl hm

/-- The operands of an intersection have the same symbols. -/
theorem intersection_compatible (h : A.intersection B = .ok C) :
    A.alphabet.symbols = B.alphabet.symbols := by
  obtain ⟨_, hsymbols, -⟩ := Except.bind_eq_ok.1 h
  exact requireCompatible_eq_ok hsymbols

/-- The labels of an intersection that are not silent are labels of both operands. -/
theorem AllLabels.intersection_left (hA : A.AllLabels P) (hsilent : P silentLabels)
    (h : A.intersection B = .ok C) : C.AllLabels P := by
  obtain ⟨hacceptor, hacceptor', D, hD, rfl⟩ := intersection_eq_ok h
  refine AllLabels.trim (allLabels_iff.2 fun i t ht => ?_)
  obtain ⟨k, a, ha, hlabels⟩ := TransitionSystem.exists_arc_of_mem_explore hD ht
  rw [← hlabels]
  rcases arc_product_of_acceptors hacceptor hacceptor' ha with ⟨hinput, houtput⟩ | ⟨hleft, -⟩
  · rw [Arc.labels, hinput, houtput]
    exact hsilent
  · obtain ⟨u, hu, hlabels, -⟩ := hleft
    rw [← hlabels]
    exact allLabels_iff.1 hA _ u hu

/-- A complement is made in three steps: the automaton is determinized, completed and flipped. -/
theorem complement_eq_ok (h : A.complement = .ok C) :
    A.alphabet.symbols ≠ [] ∧ A.OverAlphabet
      ∧ ∃ D E, A.determinize = .ok D ∧ D.complete = .ok E ∧ C = E.flip := by
  obtain ⟨_, hrequire, h⟩ := Except.bind_eq_ok.1 h
  obtain ⟨D, hD, h⟩ := Except.bind_eq_ok.1 h
  obtain ⟨E, hE, h⟩ := Except.bind_eq_ok.1 h
  obtain ⟨hsymbols, hover⟩ := requireComplementable_eq_ok hrequire
  exact ⟨hsymbols, hover, D, E, hD, hE, (Except.pure_eq_ok.1 h).symm⟩

/-- A complement has letters of Σ only. -/
theorem lettered_complement (h : A.complement = .ok C) : C.Lettered A.alphabet := by
  obtain ⟨-, hover, D, E, hD, hE, rfl⟩ := complement_eq_ok h
  have hlettered := lettered_determinize hover hD
  rw [← alphabet_determinize hD] at hlettered ⊢
  obtain ⟨hElettered, -⟩ := complete_eq_ok hlettered (deterministic_determinize hD) hE
  exact hElettered.flip

/-- A lettered automaton has the labels of letters only. -/
theorem Lettered.allLabels (hA : A.Lettered S) (h : ∀ s, S.contains s = true → P (letter s)) :
    A.AllLabels P := by
  refine allLabels_iff.2 fun q t ht => ?_
  obtain ⟨s, hs, hlabels⟩ := hA q t ht
  rw [hlabels]
  exact h s hs

/-- A complement has the labels of letters of Σ, whatever those of the automaton are. -/
theorem allLabels_complement (hP : ∀ s, A.alphabet.contains s = true → P (letter s))
    (h : A.complement = .ok C) : C.AllLabels P :=
  (lettered_complement h).allLabels hP

/-- A difference has no labels that the first operand lacks, except silent ones. -/
theorem AllLabels.difference (hA : A.AllLabels P) (hsilent : P silentLabels)
    (h : A.difference B = .ok C) : C.AllLabels P := by
  obtain ⟨D, -, hC⟩ := difference_eq_ok h
  exact hA.intersection_left hsilent hC

/-- Being over the alphabet is a property of all labels. -/
theorem overAlphabet_iff_allLabels :
    A.OverAlphabet ↔ A.AllLabels Copying ∧ A.AllLabels (Within fun s => A.alphabet.contains s) := by
  constructor
  · rintro ⟨hcopies, hdeclared⟩
    refine ⟨allLabels_iff.2 hcopies, allLabels_iff.2 fun q t ht tape s hs => ?_⟩
    cases tape with
    | input => exact hdeclared q t ht s hs
    | output => exact hdeclared q t ht s ((hcopies q t ht).trans hs)
  · rintro ⟨hcopies, hwithin⟩
    refine ⟨allLabels_iff.1 hcopies, fun q t ht s hs => ?_⟩
    exact allLabels_iff.1 hwithin q t ht .input s hs

/-- Trimming keeps an automaton over its alphabet. -/
theorem OverAlphabet.trim (hA : A.OverAlphabet) : A.trim.OverAlphabet := by
  obtain ⟨hcopies, hwithin⟩ := overAlphabet_iff_allLabels.1 hA
  exact overAlphabet_iff_allLabels.2 ⟨hcopies.trim, hwithin.trim⟩

/-! ## Alphabets -/

@[grind →]
theorem alphabet_removeEpsilon (h : A.removeEpsilon = .ok C) : C.alphabet = A.alphabet := by
  simp [removeEpsilon_eq_ok h]
  rfl

/-- A union is over the alphabet of the first operand. -/
@[grind →] theorem alphabet_union (h : A.union B = .ok C) : C.alphabet = A.alphabet := by
  rw [(union_eq_ok h).2]
  rfl

/-- A concatenation is over the alphabet of the first operand. -/
@[grind →] theorem alphabet_concatWith {keep : Bool} (h : A.concatWith B keep = .ok C) :
    C.alphabet = A.alphabet := by
  rw [(concatWith_eq_ok h).2]
  rfl

@[grind →]
theorem alphabet_closureWith {acceptEmpty : Bool} (h : A.closureWith acceptEmpty = .ok C) :
    C.alphabet = A.alphabet := by
  rw [closureWith_eq_ok h]
  rfl

/-- A union of a list is over the given alphabet, also where the list is empty. -/
@[grind →]
theorem alphabet_unionAll {As : List Automaton} (h : unionAll S As = .ok C) : C.alphabet = S :=
  foldlM_union_induction (I := fun D => D.alphabet = S) h rfl fun _ hD _ _ _ hE =>
    (alphabet_union hE).trans hD

@[grind →] theorem alphabet_appendCopies {keep : Bool} {n : Nat} {acc : Automaton}
    (h : A.appendCopies keep n acc = .ok C) : C.alphabet = acc.alphabet := by
  induction n generalizing acc with
  | zero => rw [← Except.ok.inj h]
  | succ n ih =>
    obtain ⟨D, hD, h⟩ := Except.bind_eq_ok.1 h
    rw [ih h, alphabet_concatWith hD]

@[grind →]
theorem alphabet_power {least : Nat} {most : Option Nat} (h : A.power least most = .ok C) :
    C.alphabet = A.alphabet := by
  rcases power_cases h with ⟨required, star, -, hrequired, -, h⟩ | ⟨n, -, -, rfl⟩
    | ⟨required, n, -, -, hrequired, h⟩
  · rw [alphabet_concatWith h, alphabet_appendCopies hrequired]
    rfl
  · rfl
  · have hempty : (epsilon A.alphabet).alphabet = A.alphabet := rfl
    grind

/-- A complement is over the alphabet of the automaton. -/
@[grind →] theorem alphabet_complement (h : A.complement = .ok C) : C.alphabet = A.alphabet := by
  obtain ⟨-, hover, D, E, hD, hE, rfl⟩ := complement_eq_ok h
  have hlettered := lettered_determinize hover hD
  rw [← alphabet_determinize hD] at hlettered ⊢
  obtain ⟨-, -, -, -, halphabet⟩ := complete_eq_ok hlettered (deterministic_determinize hD) hE
  exact halphabet

/-- The operands of a difference have the same symbols. -/
theorem difference_compatible (h : A.difference B = .ok C) :
    A.alphabet.symbols = B.alphabet.symbols := by
  obtain ⟨D, hD, hC⟩ := difference_eq_ok h
  rw [intersection_compatible hC, alphabet_complement hD]

/-- All operands of a union are over the symbols that are given. -/
theorem symbols_of_unionAll {As : List Automaton} (h : unionAll S As = .ok C) :
    ∀ A ∈ As, A.alphabet.symbols = S.symbols := by
  have hfold : ∀ (As : List Automaton) (B : Automaton), As.foldlM union B = .ok C →
      B.alphabet.symbols = S.symbols → ∀ A ∈ As, A.alphabet.symbols = S.symbols := by
    intro As
    induction As with
    | nil => intro B _ _ A hA; cases hA
    | cons A As ih =>
      intro B h hB A' hA'
      obtain ⟨D, hD, h⟩ := Except.bind_eq_ok.1 h
      rcases List.mem_cons.1 hA' with rfl | hA'
      · exact (union_eq_ok hD).1.symm.trans hB
      · exact ih D h ((congrArg Alphabet.symbols (alphabet_union hD)).trans hB) A' hA'
  exact hfold As (empty S) h rfl

end Automaton

end FiniteState
