import FiniteState.Proofs.Labels

/-!
# Bounded repetition

A power is unrolled: the copies that are required come first, each linked to the next one, then the
copies that may be missing. The accepting states of all copies before an optional one are linked to
it, so a run may skip as many of the optional copies as it likes, but it never takes more of them
than there are.

* `copies_add_iff`: copies are counted by cutting them anywhere.
* `relates_appendOptional_iff`: what optional copies add.
* `transduces_power_iff`: the number of copies along a run lies between the bounds.
-/

namespace FiniteState

/-! ## Counting copies -/

section Copies

variable {R : Word → Word → Prop} {m n : Nat} {x y : Word}

theorem copies_zero_iff : Copies R 0 x y ↔ x = [] ∧ y = [] := by
  constructor
  · intro h
    cases h
    exact ⟨rfl, rfl⟩
  · rintro ⟨rfl, rfl⟩
    exact .nil

theorem copies_succ_iff :
    Copies R (n + 1) x y
      ↔ ∃ x₁ y₁ x₂ y₂, R x₁ y₁ ∧ Copies R n x₂ y₂ ∧ x = x₁ ++ x₂ ∧ y = y₁ ++ y₂ := by
  constructor
  · intro h
    cases h with
    | cons hfirst hrest => exact ⟨_, _, _, _, hfirst, hrest, rfl, rfl⟩
  · rintro ⟨x₁, y₁, x₂, y₂, hfirst, hrest, rfl, rfl⟩
    exact .cons hfirst hrest

/-- Copies can be cut after any number of them. -/
theorem copies_add_iff :
    Copies R (m + n) x y
      ↔ ∃ x₁ y₁ x₂ y₂, Copies R m x₁ y₁ ∧ Copies R n x₂ y₂ ∧ x = x₁ ++ x₂ ∧ y = y₁ ++ y₂ := by
  -- by induction on the copies before the cut
  induction m generalizing x y with
  | zero =>
    rw [Nat.zero_add]
    constructor
    · exact fun h => ⟨[], [], x, y, .nil, h, rfl, rfl⟩
    · rintro ⟨x₁, y₁, x₂, y₂, hnone, h, rfl, rfl⟩
      obtain ⟨rfl, rfl⟩ := copies_zero_iff.1 hnone
      exact h
  | succ m ih =>
    rw [Nat.add_right_comm, copies_succ_iff]
    constructor
    · rintro ⟨x₁, y₁, _, _, hfirst, hrest, rfl, rfl⟩
      obtain ⟨x₂, y₂, x₃, y₃, hm, hn, rfl, rfl⟩ := ih.1 hrest
      exact ⟨x₁ ++ x₂, y₁ ++ y₂, x₃, y₃, .cons hfirst hm, hn, (List.append_assoc ..).symm,
        (List.append_assoc ..).symm⟩
    · rintro ⟨_, _, x₃, y₃, hsucc, hn, rfl, rfl⟩
      obtain ⟨x₁, y₁, x₂, y₂, hfirst, hm, rfl, rfl⟩ := copies_succ_iff.1 hsucc
      exact ⟨x₁, y₁, _, _, hfirst, ih.2 ⟨x₂, y₂, x₃, y₃, hm, hn, rfl, rfl⟩,
        List.append_assoc .., List.append_assoc ..⟩

/-- A number of copies is a list of as many pairs. -/
theorem copies_iff_exists_pairs :
    Copies R n x y
      ↔ ∃ ps : List (Word × Word), ps.length = n ∧ (∀ p ∈ ps, R p.1 p.2)
          ∧ x = ps.flatMap Prod.fst ∧ y = ps.flatMap Prod.snd := by
  constructor
  · intro h
    induction h with
    | nil => exact ⟨[], rfl, fun _ hp => absurd hp List.not_mem_nil, rfl, rfl⟩
    | @cons n x y x' y' hfirst _ ih =>
      obtain ⟨ps, hlength, hps, rfl, rfl⟩ := ih
      exact ⟨(x, y) :: ps, congrArg (· + 1) hlength, List.forall_mem_cons.2 ⟨hfirst, hps⟩, rfl, rfl⟩
  · rintro ⟨ps, rfl, hps, rfl, rfl⟩
    induction ps with
    | nil => exact .nil
    | cons p ps ih =>
      obtain ⟨hfirst, hps⟩ := List.forall_mem_cons.1 hps
      exact .cons hfirst (ih hps)

end Copies

namespace Automaton

variable {A B C : Automaton} {S : Alphabet} {n : Nat} {x y : Word}

/-! ## Unrolling -/

/-- If the states of the first operand keep accepting, the second operand may be left out. -/
theorem relates_concatWith_true_iff (h : A.concatWith B true = .ok C) :
    C.Relates x y
      ↔ A.Relates x y
        ∨ ∃ x₁ y₁ x₂ y₂, A.Relates x₁ y₁ ∧ B.Relates x₂ y₂ ∧ x = x₁ ++ x₂ ∧ y = y₁ ++ y₂ := by
  obtain ⟨-, rfl⟩ := concatWith_eq_ok h
  rw [relates_sequence_iff, eq_self, true_and]

/-- A run through optional copies takes some of them. The first one that is appended is either
skipped, which leaves as many copies as before, or it is one copy more. -/
theorem relates_appendOptional_iff {acc : Automaton} (h : A.appendCopies true n acc = .ok C) :
    C.Relates x y
      ↔ ∃ k ≤ n, ∃ x₁ y₁ x₂ y₂, acc.Relates x₁ y₁ ∧ Copies A.Relates k x₂ y₂
          ∧ x = x₁ ++ x₂ ∧ y = y₁ ++ y₂ := by
  -- by induction on the number of copies, for whatever they are appended to
  induction n generalizing acc with
  | zero =>
    obtain rfl := Except.ok.inj h
    constructor
    · exact fun h => ⟨0, Nat.le_refl 0, x, y, [], [], h, .nil, (List.append_nil x).symm,
        (List.append_nil y).symm⟩
    · rintro ⟨k, hk, x₁, y₁, x₂, y₂, hacc, hcopies, rfl, rfl⟩
      obtain rfl := Nat.le_zero.1 hk
      obtain ⟨rfl, rfl⟩ := copies_zero_iff.1 hcopies
      rwa [List.append_nil, List.append_nil]
  | succ n ih =>
    obtain ⟨D, hD, h⟩ := Except.bind_eq_ok.1 h
    rw [ih h]
    constructor
    · rintro ⟨k, hk, x₁, y₁, x₂, y₂, hD', hcopies, rfl, rfl⟩
      rcases (relates_concatWith_true_iff hD).1 hD' with hskip | ⟨u, v, u', v', hacc, hA, rfl, rfl⟩
      · exact ⟨k, Nat.le_succ_of_le hk, x₁, y₁, x₂, y₂, hskip, hcopies, rfl, rfl⟩
      · exact ⟨k + 1, Nat.succ_le_succ hk, u, v, _, _, hacc, .cons hA hcopies,
          List.append_assoc .., List.append_assoc ..⟩
    · rintro ⟨k, hk, x₁, y₁, x₂, y₂, hacc, hcopies, rfl, rfl⟩
      cases k with
      | zero =>
        have hskip : D.Relates x₁ y₁ := (relates_concatWith_true_iff hD).2 (.inl hacc)
        exact ⟨0, Nat.zero_le n, x₁, y₁, x₂, y₂, hskip, hcopies, rfl, rfl⟩
      | succ k =>
        obtain ⟨u, v, u', v', hA, hrest, rfl, rfl⟩ := copies_succ_iff.1 hcopies
        have htake : D.Relates (x₁ ++ u) (y₁ ++ v) :=
          (relates_concatWith_true_iff hD).2 (.inr ⟨x₁, y₁, u, v, hacc, hA, rfl, rfl⟩)
        exact ⟨k, Nat.le_of_succ_le_succ hk, _, _, u', v', htake, hrest,
          (List.append_assoc ..).symm, (List.append_assoc ..).symm⟩

/-! ## Powers -/

/-- A power without an upper bound appends the star to the copies that are required. -/
theorem relates_powerAtLeast_iff {least : Nat} {required star : Automaton}
    (hrequired : A.appendCopies false least (epsilon S) = .ok required) (hstar : A.star = .ok star)
    (h : required.concat star = .ok C) :
    C.Relates x y ↔ ∃ k, least ≤ k ∧ Copies A.Relates k x y := by
  rw [relates_concat_iff h]
  simp only [relates_required_iff hrequired, relates_star_iff hstar, repeated_iff_exists_copies]
  constructor
  · rintro ⟨x₁, y₁, x₂, y₂, hleast, ⟨n, hn⟩, hx, hy⟩
    exact ⟨least + n, Nat.le_add_right least n,
      copies_add_iff.2 ⟨x₁, y₁, x₂, y₂, hleast, hn, hx, hy⟩⟩
  · rintro ⟨k, hk, hcopies⟩
    obtain ⟨n, rfl⟩ := Nat.exists_eq_add_of_le hk
    obtain ⟨x₁, y₁, x₂, y₂, hleast, hn, hx, hy⟩ := copies_add_iff.1 hcopies
    exact ⟨x₁, y₁, x₂, y₂, hleast, ⟨n, hn⟩, hx, hy⟩

/-- A power with an upper bound appends copies that may be left out from some point on. -/
theorem relates_powerBetween_iff {least most : Nat} {required : Automaton}
    (hrequired : A.appendCopies false least (epsilon S) = .ok required) (hle : least ≤ most)
    (h : A.appendCopies true (most - least) required = .ok C) :
    C.Relates x y ↔ ∃ k, least ≤ k ∧ k ≤ most ∧ Copies A.Relates k x y := by
  rw [relates_appendOptional_iff h]
  simp only [relates_required_iff hrequired]
  constructor
  · rintro ⟨n, hn, hparts⟩
    exact ⟨least + n, Nat.le_add_right least n, by omega, copies_add_iff.2 hparts⟩
  · rintro ⟨k, hk, hmost, hcopies⟩
    obtain ⟨n, rfl⟩ := Nat.exists_eq_add_of_le hk
    exact ⟨n, by omega, copies_add_iff.1 hcopies⟩

/-- A power relates the concatenations of as many pairs as its bounds admit. -/
theorem relates_power_iff_exists_copies {least : Nat} {most : Option Nat}
    (h : A.power least most = .ok C) :
    C.Relates x y ↔ ∃ k, least ≤ k ∧ (∀ m ∈ most, k ≤ m) ∧ Copies A.Relates k x y := by
  rcases power_cases h with ⟨required, star, rfl, hrequired, hstar, hconcat⟩
    | ⟨m, rfl, hlt, rfl⟩ | ⟨required, m, rfl, hle, hrequired, hoptional⟩
  · rw [relates_powerAtLeast_iff hrequired hstar hconcat]
    simp
  · refine iff_of_false not_relates_empty ?_
    rintro ⟨k, hk, hmost, -⟩
    exact absurd (hmost m rfl) (by omega)
  · rw [relates_powerBetween_iff hrequired hle hoptional]
    simp

/-- The power of a transducer relates two words exactly if both fall into as many parts as the
bounds admit, each of which the transducer relates. Nothing is related if the bounds exclude each
other, and an empty part counts like any other one. -/
theorem transduces_power_iff (A C : Automaton) (least : Nat) (most : Option Nat)
    (h : A.power least most = .ok C) (x y : Word) :
    C.transduces x y = true
      ↔ ∃ ps : List (Word × Word), least ≤ ps.length ∧ (∀ m ∈ most, ps.length ≤ m)
          ∧ (∀ p ∈ ps, A.transduces p.1 p.2 = true)
          ∧ x = ps.flatMap Prod.fst ∧ y = ps.flatMap Prod.snd := by
  simp only [transduces_iff_relates]
  rw [relates_power_iff_exists_copies h]
  constructor
  · rintro ⟨k, hleast, hmost, hcopies⟩
    obtain ⟨ps, rfl, hps, hx, hy⟩ := copies_iff_exists_pairs.1 hcopies
    exact ⟨ps, hleast, hmost, hps, hx, hy⟩
  · rintro ⟨ps, hleast, hmost, hps, hx, hy⟩
    exact ⟨ps.length, hleast, hmost, copies_iff_exists_pairs.2 ⟨ps, rfl, hps, hx, hy⟩⟩

/-- Maps a to b, and the empty word to itself. -/
def perhapsB : Automaton where
  alphabet := .abcd
  states := #[
    { accepting := true, transitions := [⟨.symbol ⟨0⟩, .symbol ⟨1⟩, 1⟩] },
    { accepting := true }]
  start := 0
  start_lt := by decide
  target_lt := by decide

/-- Two to three copies of `perhapsB` map aa to bb, with or without an empty copy between. If no
more copies are admitted than one, nothing is mapped to anything. -/
theorem transduces_perhapsB_power :
    (∃ C, perhapsB.power 2 (some 3) = .ok C ∧ C.transduces [⟨0⟩, ⟨0⟩] [⟨1⟩, ⟨1⟩] = true)
      ∧ perhapsB.power 2 (some 1) = .ok (empty .abcd)
      ∧ (empty .abcd).transduces [] [] ≠ true := by
  have hpower : perhapsB.power 2 (some 3)
      = .ok ((((epsilon .abcd).sequence perhapsB false).sequence perhapsB false).sequence
          perhapsB true) := by cbv
  have hempty : perhapsB.power 2 (some 1) = .ok (empty .abcd) := rfl
  have hletter : perhapsB.transduces [⟨0⟩] [⟨1⟩] = true := by cbv
  have hnothing : perhapsB.transduces [] [] = true := by cbv
  refine ⟨⟨_, hpower, ?_⟩, hempty, fun h => ?_⟩
  · apply (transduces_power_iff perhapsB _ 2 (some 3) hpower _ _).2
    refine ⟨[([⟨0⟩], [⟨1⟩]), ([], []), ([⟨0⟩], [⟨1⟩])], by decide, fun m hm => ?_, ?_, rfl, rfl⟩
    · exact Nat.le_of_eq (Option.some.inj hm)
    · exact List.forall_mem_cons.2 ⟨hletter, List.forall_mem_cons.2 ⟨hnothing,
        List.forall_mem_singleton.2 hletter⟩⟩
  · obtain ⟨ps, hleast, hmost, -⟩ := (transduces_power_iff perhapsB _ 2 (some 1) hempty _ _).1 h
    exact absurd (hmost 1 rfl) (by omega)

end Automaton

end FiniteState
