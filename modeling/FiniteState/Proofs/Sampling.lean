import FiniteState.Proofs.Complement
import FiniteState.Proofs.Computation
import FiniteState.Proofs.Minimize
import FiniteState.Proofs.Order
import FiniteState.Sampler

/-!
# Sampling

Whatever the generator draws, a walk that is completed writes what the automaton writes on an
accepting path, one that is no longer than the sampler admits. The words of a sample come from
walks, and the automaton that is handed back has lost them.

* `writes_of_walk`: what a walk returns.
* `sampleDistinct_cases`: what a sample of distinct words consists of.
-/

namespace FiniteState

namespace Automaton

variable {A : Automaton} {bound : Nat} {w : Word}

/-- The word is written on an accepting path of at most `bound` transitions. -/
def Writes (A : Automaton) (bound : Nat) (w : Word) : Prop :=
  ∃ ts, A.AcceptingPath ts ∧ ts.length ≤ bound ∧ spell .output ts = w

/-- A written word is related to what is read along its path. -/
theorem Writes.exists_relates (h : A.Writes bound w) : ∃ x, A.Relates x w :=
  let ⟨ts, hts, _, hw⟩ := h
  ⟨spell .input ts, ts, hts, rfl, hw⟩

/-- A word is written if a list of labels that is carried spells it, within the bound. -/
theorem writes_iff_carries :
    A.Writes bound w
      ↔ ∃ ls, A.Carries ls ∧ ls.length ≤ bound ∧ spellLabels .output ls = w := by
  simp only [Writes, carries_iff_path, spell_eq_spellLabels]
  constructor
  · rintro ⟨ts, hts, hlength, hw⟩
    exact ⟨_, ⟨ts, hts, rfl⟩, (List.length_map Arc.labels).trans_le hlength, hw⟩
  · rintro ⟨_, ⟨ts, hts, rfl⟩, hlength, hw⟩
    exact ⟨ts, hts, (List.length_map Arc.labels).symm.trans_le hlength, hw⟩

/-- Trimming keeps all accepting paths, and with them what is written. -/
theorem writes_trim_iff : A.trim.Writes bound w ↔ A.Writes bound w := by
  simp only [writes_iff_carries, carries_trim_iff]

end Automaton

namespace Sampler

variable {ρ : Type} [RandomSource ρ] {A : Automaton} {s s' : Sampler ρ}

/-- A number drawn below a bound is below it. -/
theorem below_lt {bound n : Nat} (hbound : 0 < bound) (h : below bound s = (n, s')) :
    n < bound := by
  obtain ⟨rfl, -⟩ := Prod.mk.inj h
  exact RandomSource.below_lt hbound s.random

theorem shuffle_perm {α : Type} {xs ys : List α} (h : shuffle xs s = (ys, s')) : ys.Perm xs := by
  obtain ⟨rfl, -⟩ := Prod.mk.inj h
  exact RandomSource.shuffle_perm xs s.random

/-- Drawing a number keeps the bound on walks. -/
theorem keepsBound_below (bound : Nat) :
    Keeps (maxLength : Sampler ρ → Nat) (below bound) := fun _ => rfl

theorem keepsBound_shuffle {α : Type} (xs : List α) :
    Keeps (maxLength : Sampler ρ → Nat) (shuffle xs) := fun _ => rfl

/-! ## Walks -/

/-- The state of a sampler after a number below the bound has been drawn. -/
def afterBelow (bound : Nat) (s : Sampler ρ) : Sampler ρ := (below bound s).2

/-- How much there is to choose from in a state: its transitions, and the end if it accepts. -/
def choices (A : Automaton) (q : Nat) : Nat :=
  (A.transitions q).length + (if A.isFinal q then 1 else 0)

/-- A step of a walk draws one of the transitions, or stops where the state accepts. -/
theorem walkFrom_succ (A : Automaton) (steps q : Nat) (written : Word) :
    (walkFrom A (steps + 1) q written : StateM (Sampler ρ) (Option Word))
      = if choices A q = 0 then pure none
        else below (choices A q) >>= fun choice =>
          match (A.transitions q)[choice]? with
          | none => pure (some written.reverse)
          | some t => walkFrom A steps t.target (t.output.toWord ++ written) := rfl

/-- What one step of a walk comes to, whatever is drawn: there is nothing to choose from; or the
walk ends, in a state that accepts; or it goes on along a transition. -/
theorem walkFrom_step (A : Automaton) (steps q : Nat) (written : Word) (s : Sampler ρ) :
    (A.transitions q = [] ∧ A.isFinal q = false ∧ walkFrom A (steps + 1) q written s = (none, s))
      ∨ (A.isFinal q = true ∧ walkFrom A (steps + 1) q written s
          = (some written.reverse, afterBelow (choices A q) s))
      ∨ ∃ t ∈ A.transitions q, walkFrom A (steps + 1) q written s
          = walkFrom A steps t.target (t.output.toWord ++ written)
              (afterBelow (choices A q) s) := by
  rw [walkFrom_succ]
  by_cases hchoices : choices A q = 0
  · rw [if_pos hchoices]
    unfold choices at hchoices
    have hnone : A.transitions q = [] := List.eq_nil_of_length_eq_zero (by omega)
    have hreject : A.isFinal q = false := by
      by_contra haccept
      rw [if_pos (Bool.eq_true_of_not_eq_false haccept)] at hchoices
      omega
    exact .inl ⟨hnone, hreject, rfl⟩
  · rw [if_neg hchoices]
    obtain ⟨choice, hchoice⟩ : ∃ choice, below (choices A q) s
        = (choice, afterBelow (choices A q) s) := ⟨_, Prod.mk.eta.symm⟩
    have hlt := below_lt (Nat.pos_of_ne_zero hchoices) hchoice
    refine .inr ?_
    cases hnext : (A.transitions q)[choice]? with
    | none =>
      -- the choice after the last transition is there only if the state accepts
      have hlength := List.getElem?_eq_none_iff.1 hnext
      have hfinal : A.isFinal q = true := by
        by_contra hreject
        rw [choices, if_neg hreject] at hlt
        omega
      refine .inl ⟨hfinal, StateM.bind_eq_iff.2 ⟨choice, _, hchoice, ?_⟩⟩
      rw [hnext]
      rfl
    | some t =>
      refine .inr ⟨t, List.mem_of_getElem? hnext, ?_⟩
      refine StateM.bind_eq_iff.2 ⟨choice, _, hchoice, ?_⟩
      rw [hnext]
      exact Prod.mk.eta.symm

theorem keepsBound_walkFrom (A : Automaton) (steps q : Nat) (written : Word) :
    Keeps (maxLength : Sampler ρ → Nat) (walkFrom A steps q written) := by
  induction steps generalizing q written with
  | zero => exact .pure none
  | succ steps ih =>
    intro s
    have hbelow : (afterBelow (choices A q) s).maxLength = s.maxLength := keepsBound_below _ s
    rcases walkFrom_step A steps q written s with ⟨-, -, hstuck⟩ | ⟨-, hend⟩ | ⟨t, -, hon⟩
    · rw [hstuck]
    · rw [hend, hbelow]
    · rw [hon, ih, hbelow]

theorem keepsBound_walk (A : Automaton) : Keeps (maxLength : Sampler ρ → Nat) (walk A) :=
  Keeps.bind (fun _ => rfl) fun _ => keepsBound_walkFrom A _ _ _

theorem keepsBound_walks (A : Automaton) (n : Nat) :
    Keeps (maxLength : Sampler ρ → Nat) (walks A n) := by
  induction n with
  | zero => exact .pure []
  | succ n ih => exact (keepsBound_walk A).bind fun _ => ih.bind fun _ => .pure _

/-- A walk goes along a path to an accepting state, which takes one step less than there were at
most, and appends what the path writes. -/
theorem path_of_walkFrom {steps q : Nat} {written w : Word}
    (h : walkFrom A steps q written s = (some w, s')) :
    ∃ ts f, A.Path q ts f ∧ A.isFinal f = true ∧ ts.length < steps
      ∧ w = written.reverse ++ spell .output ts := by
  induction steps generalizing q written s with
  | zero =>
    obtain ⟨hnone, -⟩ := StateM.pure_eq_iff.1 h
    cases hnone
  | succ steps ih =>
    rcases walkFrom_step A steps q written s with
      ⟨-, -, hstuck⟩ | ⟨hfinal, hend⟩ | ⟨t, ht, hon⟩
    · cases hstuck.symm.trans h
    · obtain ⟨hw, -⟩ := Prod.mk.inj (hend.symm.trans h)
      refine ⟨[], q, .nil q, hfinal, Nat.succ_pos steps, ?_⟩
      rw [← Option.some.inj hw, spell_nil, List.append_nil]
    · obtain ⟨ts, f, hpath, hfinal, hlength, rfl⟩ := ih (hon.symm.trans h)
      refine ⟨t :: ts, f, .cons ht hpath, hfinal, Nat.succ_lt_succ hlength, ?_⟩
      rw [List.reverse_append, List.append_assoc, spell_cons, Arc.label]
      cases t.output <;> rfl

/-- A walk that ends in time writes its word. -/
theorem writes_of_walk {w : Word} (h : walk A s = (some w, s')) : A.Writes s.maxLength w := by
  obtain ⟨t, u, ht, h⟩ := StateM.bind_eq_iff.1 h
  obtain ⟨rfl, rfl⟩ := Prod.mk.inj ht
  obtain ⟨ts, f, hpath, hfinal, hlength, rfl⟩ := path_of_walkFrom h
  exact ⟨ts, ⟨f, hpath, hfinal⟩, Nat.le_of_lt_succ hlength, rfl⟩

theorem writes_of_firstWalk {tries : Nat} {w : Word} (h : firstWalk A tries s = (some w, s')) :
    A.Writes s.maxLength w := by
  induction tries generalizing s with
  | zero =>
    obtain ⟨hnone, -⟩ := StateM.pure_eq_iff.1 h
    cases hnone
  | succ tries ih =>
    obtain ⟨found, t, hwalk, h⟩ := StateM.bind_eq_iff.1 h
    cases found with
    | none => exact (keepsBound_walk A).eq hwalk ▸ ih h
    | some v =>
      obtain ⟨hv, -⟩ := StateM.pure_eq_iff.1 h
      exact writes_of_walk (Option.some.inj hv ▸ hwalk)

theorem keepsBound_pick (A : Automaton) : Keeps (maxLength : Sampler ρ → Nat) (pick A) := by
  unfold pick
  generalize defaultRetries = tries
  induction tries with
  | zero => exact .pure none
  | succ tries ih =>
    refine (keepsBound_walk _).bind fun found => ?_
    cases found with
    | none => exact ih
    | some w => exact .pure _

/-- A word that is picked is written on an accepting path that is not too long. -/
theorem writes_of_pick {w : Word} (h : pick A s = (some w, s')) : A.Writes s.maxLength w :=
  Automaton.writes_trim_iff.1 (writes_of_firstWalk h)

/-- A picked word is one that the automaton writes. -/
theorem relates_of_pick {w : Word} (h : pick A s = (some w, s')) : ∃ x, A.Relates x w :=
  (writes_of_pick h).exists_relates

theorem writes_of_mem_walks {n : Nat} {ws : List Word} (h : walks A n s = (ws, s')) {w : Word}
    (hw : w ∈ ws) : A.Writes s.maxLength w := by
  induction n generalizing s s' ws with
  | zero =>
    obtain ⟨rfl, -⟩ := StateM.pure_eq_iff.1 h
    exact absurd hw List.not_mem_nil
  | succ n ih =>
    obtain ⟨found, t, hwalk, h⟩ := StateM.bind_eq_iff.1 h
    obtain ⟨rest, u, hrest, h⟩ := StateM.bind_eq_iff.1 h
    obtain ⟨rfl, -⟩ := StateM.pure_eq_iff.1 h
    rcases List.mem_append.1 hw with hw | hw
    · cases found with
      | none => exact absurd hw List.not_mem_nil
      | some v =>
        rw [List.mem_singleton.1 hw]
        exact writes_of_walk hwalk
    · exact (keepsBound_walk A).eq hwalk ▸ ih hrest hw

/-- A number of walks gives at most as many words. -/
theorem length_walks_le {n : Nat} {ws : List Word} (h : walks A n s = (ws, s')) :
    ws.length ≤ n := by
  induction n generalizing s s' ws with
  | zero =>
    obtain ⟨rfl, -⟩ := StateM.pure_eq_iff.1 h
    exact Nat.le_refl 0
  | succ n ih =>
    obtain ⟨found, t, -, h⟩ := StateM.bind_eq_iff.1 h
    obtain ⟨rest, u, hrest, h⟩ := StateM.bind_eq_iff.1 h
    obtain ⟨rfl, -⟩ := StateM.pure_eq_iff.1 h
    have hfound : found.toList.length ≤ 1 := by
      cases found with
      | none => exact Nat.zero_le 1
      | some w => exact Nat.le_refl 1
    rw [List.length_append, Nat.add_comm n 1]
    exact Nat.add_le_add hfound (ih hrest)

theorem keepsBound_sampleWithDuplicates (A : Automaton) (n : Nat) :
    Keeps (maxLength : Sampler ρ → Nat) (sampleWithDuplicates A n) := by
  unfold sampleWithDuplicates
  split
  · exact .pure []
  · exact (keepsBound_walks A.trim n).bind fun _ => .pure _

/-- The words of a sample with duplicates are written on accepting paths that are not too long. -/
theorem writes_of_mem_sampleWithDuplicates {n : Nat} {ws : List Word}
    (h : sampleWithDuplicates A n s = (ws, s')) {w : Word} (hw : w ∈ ws) :
    A.Writes s.maxLength w := by
  unfold sampleWithDuplicates at h
  split at h
  · obtain ⟨rfl, -⟩ := StateM.pure_eq_iff.1 h
    exact absurd hw List.not_mem_nil
  · obtain ⟨drawn, t, hdrawn, h⟩ := StateM.bind_eq_iff.1 h
    obtain ⟨rfl, -⟩ := StateM.pure_eq_iff.1 h
    exact Automaton.writes_trim_iff.1 (writes_of_mem_walks hdrawn (Word.mem_sortByLength.1 hw))

/-- Every word of a sample is one that the automaton writes. -/
theorem relates_of_mem_sampleWithDuplicates {n : Nat} {ws : List Word}
    (h : sampleWithDuplicates A n s = (ws, s')) {w : Word} (hw : w ∈ ws) :
    ∃ x, A.Relates x w :=
  (writes_of_mem_sampleWithDuplicates h hw).exists_relates

/-! ## Distinct words -/

theorem keepsBound_drawBatch (A : Automaton) (n attempts attempt : Nat) :
    Keeps (maxLength : Sampler ρ → Nat) (drawBatch A n attempts attempt) := by
  induction attempts generalizing attempt with
  | zero => exact .pure []
  | succ attempts ih =>
    unfold drawBatch
    refine (keepsBound_walks A _).bind fun _ => ?_
    dsimp only
    split
    · exact .pure _
    · exact ih _

/-- A batch has no word twice, and the automaton writes them all. -/
theorem drawBatch_spec {n attempts attempt : Nat} {batch : List Word}
    (h : drawBatch A n attempts attempt s = (batch, s')) :
    batch.Nodup ∧ ∀ w ∈ batch, ∃ x, A.Relates x w := by
  induction attempts generalizing attempt s with
  | zero =>
    obtain ⟨rfl, -⟩ := StateM.pure_eq_iff.1 h
    exact ⟨List.nodup_nil, fun w hw => absurd hw List.not_mem_nil⟩
  | succ attempts ih =>
    obtain ⟨drawn, t, hdrawn, h⟩ := StateM.bind_eq_iff.1 h
    split at h
    · obtain ⟨rfl, -⟩ := StateM.pure_eq_iff.1 h
      refine ⟨Word.nodup_sortDistinct drawn, fun w hw => ?_⟩
      exact (writes_of_mem_walks hdrawn (Word.mem_sortDistinct.1 hw)).exists_relates
    · exact ih h

/-- Batches grow with the attempts, so the last one may be the largest. -/
theorem length_drawBatch_le {n attempts attempt : Nat} {batch : List Word}
    (h : drawBatch A n attempts attempt s = (batch, s')) :
    batch.length ≤ n + n * (attempt + attempts - 1) / 10 := by
  induction attempts generalizing attempt s with
  | zero =>
    obtain ⟨rfl, -⟩ := StateM.pure_eq_iff.1 h
    exact Nat.zero_le _
  | succ attempts ih =>
    obtain ⟨drawn, t, hdrawn, h⟩ := StateM.bind_eq_iff.1 h
    -- the batch is accepted, or it is the turn of the next attempt
    split at h
    · obtain ⟨rfl, -⟩ := StateM.pure_eq_iff.1 h
      have hgrowth : n * attempt / 10 ≤ n * (attempt + (attempts + 1) - 1) / 10 :=
        Nat.div_le_div_right (Nat.mul_le_mul_left n (by omega))
      calc (Word.sortDistinct drawn).length
          ≤ drawn.length := Word.length_sortDistinct_le drawn
        _ ≤ n + n * attempt / 10 := length_walks_le hdrawn
        _ ≤ n + n * (attempt + (attempts + 1) - 1) / 10 := Nat.add_le_add_left hgrowth n
    · have hattempts : attempt + 1 + attempts - 1 = attempt + (attempts + 1) - 1 := by omega
      rw [← hattempts]
      exact ih h

theorem keepsBound_sampleDistinct (A : Automaton) (n retries : Nat) :
    Keeps (maxLength : Sampler ρ → Nat) (sampleDistinct A n retries).run := by
  unfold sampleDistinct
  split
  · exact .pure _
  · refine Keeps.bindExcept ((keepsBound_drawBatch _ n _ 0).bind fun _ => .pure _) fun _ => ?_
    refine Keeps.bindExcept ((keepsBound_shuffle _).bind fun _ => .pure _) fun _ => ?_
    exact Keeps.bindExcept (.pure _) fun _ => .pure _

/-- Either there is nothing to draw from, and nothing happens; or a batch is drawn in the trimmed
acceptor and removed, and some of its words are handed back in order. -/
theorem sampleDistinct_cases {n retries : Nat} {sample : Sample}
    (h : sampleDistinct A n retries s = (.ok sample, s')) :
    (A.isEmpty = true ∧ sample = { rest := A, words := [], shortfall := shortfall? n 0 } ∧ s' = s)
      ∨ (A.isEmpty = false ∧ ∃ (batch chosen : List Word) (t : Sampler ρ),
          drawBatch A.trim n (Nat.max retries 1) 0 s = (batch, t) ∧ chosen.Perm batch
            ∧ A.without batch = .ok sample.rest
            ∧ sample.words = (chosen.take n).mergeSort Word.le
            ∧ sample.shortfall = shortfall? n sample.words.length) := by
  unfold sampleDistinct at h
  split at h
  next hempty =>
    obtain ⟨rfl, rfl⟩ := ExceptT.pure_eq_ok.1 h
    exact .inl ⟨hempty, rfl, rfl⟩
  next hempty =>
    obtain ⟨batch, t, hbatch, h⟩ := ExceptT.bind_eq_ok.1 h
    obtain ⟨chosen, u, hchosen, h⟩ := ExceptT.bind_eq_ok.1 h
    obtain ⟨rest, v, hrest, h⟩ := ExceptT.bind_eq_ok.1 h
    obtain ⟨rfl, -⟩ := ExceptT.pure_eq_ok.1 h
    obtain ⟨hrest, -⟩ := ExceptT.mk_pure_eq_ok.1 hrest
    refine .inr ⟨Bool.eq_false_iff.2 hempty, batch, chosen, t, ExceptT.lift_eq_ok.1 hbatch, ?_,
      hrest, rfl, rfl⟩
    exact shuffle_perm (ExceptT.lift_eq_ok.1 hchosen)

/-- The steps by which a sample comes about. -/
theorem sampleDistinct_of_drawBatch {n retries : Nat} {batch chosen : List Word} {t u : Sampler ρ}
    {rest : Automaton} (hnonempty : A.isEmpty = false)
    (hbatch : drawBatch A.trim n (Nat.max retries 1) 0 s = (batch, t))
    (hchosen : shuffle batch t = (chosen, u)) (hrest : A.without batch = .ok rest) :
    sampleDistinct A n retries s
      = (.ok { rest, words := (chosen.take n).mergeSort Word.le
               shortfall := shortfall? n ((chosen.take n).mergeSort Word.le).length }, u) := by
  unfold sampleDistinct
  rw [if_neg (Bool.eq_false_iff.1 hnonempty)]
  apply ExceptT.bind_eq_ok.2 ⟨batch, t, ExceptT.lift_eq_ok.2 hbatch, ?_⟩
  apply ExceptT.bind_eq_ok.2 ⟨chosen, u, ExceptT.lift_eq_ok.2 hchosen, ?_⟩
  apply ExceptT.bind_eq_ok.2 ⟨rest, u, ExceptT.mk_pure_eq_ok.2 ⟨hrest, rfl⟩, ?_⟩
  exact ExceptT.pure_eq_ok.2 ⟨rfl, rfl⟩

/-- The words handed back are distinct words of the acceptor, and the rest is the acceptor without a
batch that contains them. -/
theorem sampleDistinct_eq_ok {n retries : Nat} {sample : Sample}
    (h : sampleDistinct A n retries s = (.ok sample, s')) :
    sample.words.Nodup ∧ (∀ w ∈ sample.words, ∃ x, A.Relates x w)
      ∧ ((sample.rest = A ∧ sample.words = [])
        ∨ ∃ batch, A.without batch = .ok sample.rest ∧ ∀ w ∈ sample.words, w ∈ batch) := by
  rcases sampleDistinct_cases h with
    ⟨-, rfl, -⟩ | ⟨-, batch, chosen, t, hbatch, hperm, hrest, hwords, -⟩
  · exact ⟨List.nodup_nil, fun w hw => absurd hw List.not_mem_nil, .inl ⟨rfl, rfl⟩⟩
  · obtain ⟨hnodup, hlanguage⟩ := drawBatch_spec hbatch
    have hmem : ∀ w ∈ sample.words, w ∈ batch := fun w hw => by
      rw [hwords, List.mem_mergeSort] at hw
      exact hperm.mem_iff.1 (List.mem_of_mem_take hw)
    refine ⟨?_, fun w hw => ?_, .inr ⟨batch, hrest, hmem⟩⟩
    · have htake : (chosen.take n).Nodup :=
        (hperm.nodup_iff.2 hnodup).sublist (List.take_sublist n chosen)
      rw [hwords]
      exact (List.mergeSort_perm _ _).nodup_iff.2 htake
    · obtain ⟨x, hx⟩ := hlanguage w (hmem w hw)
      exact ⟨x, Automaton.relates_trim_iff.1 hx⟩

end Sampler

end FiniteState
