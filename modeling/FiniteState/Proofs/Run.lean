import FiniteState.Proofs.Computation
import FiniteState.Proofs.Trim

/-!
# Runs

A run of a transition system is told by the word that it reads and the word that it writes. Runs are
traces without the boundaries between labels; the constructions on transducers are described by how
their runs are put together.

* `relates_iff_maps`: the relation of an automaton is that of its system.
* `relates_explore_iff`: exploring a system keeps the relation.
* `Runs.exists_of_cons`: a run that reads a symbol has a step that reads it.
-/

namespace FiniteState

namespace TransitionSystem

variable {κ : Type} {M : TransitionSystem κ}

/-! ## Runs -/

/-- Arcs that read the first word and write the second one lead from the first key to the last. -/
inductive Runs (M : TransitionSystem κ) : κ → Word → Word → κ → Prop
  | nil (k : κ) : Runs M k [] [] k
  | cons {k l : κ} {a : Arc κ} {x y : Word} (ha : a ∈ M.arcs k) (h : Runs M a.target x y l) :
      Runs M k (a.input.toWord ++ x) (a.output.toWord ++ y) l

theorem Runs.step {k : κ} {a : Arc κ} (ha : a ∈ M.arcs k) :
    M.Runs k a.input.toWord a.output.toWord a.target := by
  have h := Runs.cons ha (.nil a.target)
  rwa [List.append_nil, List.append_nil] at h

theorem Runs.append {k l m : κ} {x y x' y' : Word} (h : M.Runs k x y l) (h' : M.Runs l x' y' m) :
    M.Runs k (x ++ x') (y ++ y') m := by
  induction h with
  | nil => exact h'
  | cons ha _ ih =>
    rw [List.append_assoc, List.append_assoc]
    exact .cons ha (ih h')

/-- A run is a trace seen from the words that its labels spell. -/
theorem runs_iff_trace {k l : κ} {x y : Word} :
    M.Runs k x y l
      ↔ ∃ ls, M.Trace k ls l ∧ spellLabels .input ls = x ∧ spellLabels .output ls = y := by
  constructor
  · intro h
    induction h with
    | nil k => exact ⟨[], .nil k, rfl, rfl⟩
    | @cons k l a x y ha _ ih =>
      obtain ⟨ls, hls, rfl, rfl⟩ := ih
      exact ⟨a.labels :: ls, .cons ha hls, rfl, rfl⟩
  · rintro ⟨ls, hls, rfl, rfl⟩
    induction hls with
    | nil k => exact .nil k
    | cons ha _ ih => exact .cons ha ih

/-- Runs are kept by a map of keys that keeps arcs. -/
theorem Runs.map {ι : Type} {N : TransitionSystem ι} {f : κ → ι}
    (hf : ∀ k, ∀ a ∈ M.arcs k, a.withTarget (f a.target) ∈ N.arcs (f k)) {k l : κ} {x y : Word}
    (h : M.Runs k x y l) : N.Runs (f k) x y (f l) := by
  induction h with
  | nil k => exact .nil (f k)
  | cons ha _ ih => exact .cons (hf _ _ ha) ih

/-- A run that reads a symbol reads nothing at first, then the symbol in one step, then the rest. -/
theorem Runs.exists_of_cons {k l : κ} {s : Symbol} {x y : Word} (h : M.Runs k (s :: x) y l) :
    ∃ m y₁ y₂, ∃ a ∈ M.arcs m, M.Runs k [] y₁ m ∧ a.input = .symbol s
      ∧ M.Runs a.target x y₂ l ∧ y = y₁ ++ (a.output.toWord ++ y₂) := by
  generalize hw : s :: x = w at h
  -- by induction on the run: silent steps are passed over until one reads the symbol
  induction h with
  | nil => cases hw
  | @cons k l a x' y ha hrest ih =>
    cases hinput : a.input with
    | epsilon =>
      rw [hinput] at hw
      obtain ⟨m, y₁, y₂, b, hb, hsilent, hbinput, htail, rfl⟩ := ih hw
      have hfirst : M.Runs k [] (a.output.toWord ++ y₁) m := by
        have h := (Runs.step ha).append hsilent
        rwa [hinput] at h
      exact ⟨m, _, y₂, b, hb, hfirst, hbinput, htail, (List.append_assoc ..).symm⟩
    | symbol s' =>
      rw [hinput] at hw
      obtain ⟨rfl, rfl⟩ := List.cons.inj hw
      exact ⟨k, [], y, a, ha, .nil k, hinput, hrest, rfl⟩

/-- Some run from the start to an accepting key reads `x` and writes `y`. -/
def Maps (M : TransitionSystem κ) (x y : Word) : Prop :=
  ∃ l, M.Runs M.start x y l ∧ M.accepting l = true

/-- A system relates the words that an accepted list of labels spells. -/
theorem maps_iff_acceptsFrom {x y : Word} :
    M.Maps x y ↔ ∃ ls, M.AcceptsFrom M.start ls ∧ spellLabels .input ls = x
      ∧ spellLabels .output ls = y := by
  simp only [Maps, runs_iff_trace]
  constructor
  · rintro ⟨l, ⟨ls, hls, hx, hy⟩, hl⟩
    exact ⟨ls, ⟨l, hls, hl⟩, hx, hy⟩
  · rintro ⟨ls, ⟨l, hls, hl⟩, hx, hy⟩
    exact ⟨l, ⟨ls, hls, hx, hy⟩, hl⟩

end TransitionSystem

/-! ## Automata -/

namespace Automaton

variable {A : Automaton}

/-- An automaton relates what its system does. -/
theorem relates_iff_maps {x y : Word} : A.Relates x y ↔ A.system.Maps x y := by
  rw [relates_iff_carries, TransitionSystem.maps_iff_acceptsFrom]
  rfl

/-- A word is accepted if some run reads it up to an accepting state. -/
theorem accepts_iff_exists_run {w : Word} :
    A.accepts w = true ↔ ∃ y q, A.system.Runs A.start w y q ∧ A.isFinal q = true := by
  simp only [accepts_iff_exists_relates, relates_iff_maps]
  rfl

theorem runs_lt_size {p q : Nat} {x y : Word} (h : A.system.Runs p x y q) (hp : p < A.size) :
    q < A.size := by
  obtain ⟨ls, hls, -⟩ := TransitionSystem.runs_iff_trace.1 h
  exact trace_lt_size hls hp

/-- Exploring a system keeps its relation. -/
theorem relates_explore_iff {κ : Type} [Ord κ] [Std.TransOrd κ] [Std.LawfulEqOrd κ]
    {M : TransitionSystem κ} {S : Alphabet} {operation : Operation}
    (hA : M.explore S operation = .ok A) {x y : Word} : A.Relates x y ↔ M.Maps x y := by
  rw [relates_iff_carries, TransitionSystem.maps_iff_acceptsFrom]
  simp only [TransitionSystem.carries_explore_iff hA]

/-- Trimming keeps the relation. -/
@[simp] theorem relates_trim_iff {x y : Word} : A.trim.Relates x y ↔ A.Relates x y := by
  simp only [relates_iff_carries, carries_trim_iff]

@[simp] theorem accepts_trim (A : Automaton) (w : Word) : A.trim.accepts w = A.accepts w :=
  accepts_congr (fun _ _ => relates_trim_iff) w

end Automaton

end FiniteState
