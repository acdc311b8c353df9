import Mathlib.Data.List.Forall2

/-!
# Computations

A computation may fail, or have a state, or both; then its state survives the failure. A sequence is
taken apart at its first part, whose result the rest depends on.

* `Except.bind_eq_ok`, `StateM.bind_eq_iff`, `ExceptT.bind_eq_ok`: what a sequence comes to.
* `Keeps`: what an activity leaves alone, one lemma for each way to combine activities.
-/

namespace FiniteState

/-! ## Computations that may fail -/

/-- A sequence succeeds if its first part does, and then the rest with what came of it. -/
theorem Except.bind_eq_ok {ε α β : Type} {x : Except ε α} {f : α → Except ε β} {b : β} :
    x >>= f = .ok b ↔ ∃ a, x = .ok a ∧ f a = .ok b := by
  cases x with
  | error e =>
    constructor
    · intro h
      cases h
    · rintro ⟨a, h, -⟩
      cases h
  | ok a =>
    constructor
    · intro h
      exact ⟨a, rfl, h⟩
    · rintro ⟨a', h, h'⟩
      cases h
      exact h'

/-- A sequence fails in its first part, or in the rest with what came of the first part. -/
theorem Except.bind_eq_error {ε α β : Type} {x : Except ε α} {f : α → Except ε β} {e : ε} :
    x >>= f = .error e ↔ x = .error e ∨ ∃ a, x = .ok a ∧ f a = .error e := by
  cases x with
  | error e' =>
    constructor
    · intro h
      exact .inl (congrArg Except.error (Except.error.inj h))
    · rintro (h | ⟨a, h, -⟩)
      · exact congrArg Except.error (Except.error.inj h)
      · cases h
  | ok a =>
    constructor
    · intro h
      exact .inr ⟨a, rfl, h⟩
    · rintro (h | ⟨a', h, h'⟩)
      · cases h
      · cases h
        exact h'

theorem Except.pure_eq_ok {ε α : Type} {a b : α} : (pure a : Except ε α) = .ok b ↔ a = b :=
  ⟨Except.ok.inj, congrArg Except.ok⟩

/-- A result that passes the test for success is one. -/
theorem Except.exists_eq_ok {ε α : Type} {x : Except ε α} (h : x.isOk = true) : ∃ a, x = .ok a := by
  cases x with
  | error e => cases h
  | ok a => exact ⟨a, rfl⟩

/-- The results of a list of computations stand beside the elements that they are for. -/
theorem Except.forall₂_of_mapM {ε α β : Type} {f : α → Except ε β} {xs : List α} {ys : List β}
    (h : xs.mapM f = .ok ys) : List.Forall₂ (fun x y => f x = .ok y) xs ys := by
  induction xs generalizing ys with
  | nil =>
    rw [List.mapM_nil, Except.pure_eq_ok] at h
    exact h ▸ .nil
  | cons x xs ih =>
    rw [List.mapM_cons, Except.bind_eq_ok] at h
    obtain ⟨y, hy, h⟩ := h
    rw [Except.bind_eq_ok] at h
    obtain ⟨ys', hys, h⟩ := h
    rw [Except.pure_eq_ok] at h
    exact h ▸ .cons hy (ih hys)

/-- If each computation succeeds, the list of them does. -/
theorem Except.mapM_eq_ok {ε α β : Type} {f : α → Except ε β} {xs : List α} {ys : List β}
    (h : List.Forall₂ (fun x y => f x = .ok y) xs ys) : xs.mapM f = .ok ys := by
  induction h with
  | nil => rfl
  | cons hxy _ ih =>
    rw [List.mapM_cons]
    exact Except.bind_eq_ok.2 ⟨_, hxy, Except.bind_eq_ok.2 ⟨_, ih, rfl⟩⟩

/-- Where numbers stand beside the elements and do not matter. -/
theorem Except.mapM_numbered {ε α β : Type} {f : Nat → α → Except ε β} {found : List (α × Nat)}
    {ys : List β} (h : List.Forall₂ (fun x y => ∀ n, f n x = .ok y) (found.map Prod.fst) ys) :
    (found.mapM fun (x, n) => f n x) = .ok ys :=
  Except.mapM_eq_ok ((List.forall₂_map_left_iff.1 h).imp fun x _ hxy => hxy x.2)

/-- The first failure is what a list of computations fails with. -/
theorem Except.mapM_eq_error {ε α β : Type} {f : α → Except ε β} {before after : List α} {x : α}
    {e : ε} (hbefore : ∀ y ∈ before, ∃ b, f y = .ok b) (hx : f x = .error e) :
    (before ++ x :: after).mapM f = .error e := by
  induction before with
  | nil =>
    rw [List.nil_append, List.mapM_cons]
    exact Except.bind_eq_error.2 (.inl hx)
  | cons y before ih =>
    obtain ⟨⟨b, hy⟩, hbefore⟩ := List.forall_mem_cons.1 hbefore
    rw [List.cons_append, List.mapM_cons]
    exact Except.bind_eq_error.2 (.inr ⟨b, hy, Except.bind_eq_error.2 (.inl (ih hbefore))⟩)

/-! ## Stateful computations -/

/-- The rest of a sequence starts from the state that the first part leaves. -/
theorem StateM.bind_eq_iff {σ α β : Type} {x : StateM σ α} {f : α → StateM σ β} {s t : σ} {b : β} :
    (x >>= f) s = (b, t) ↔ ∃ a u, x s = (a, u) ∧ f a u = (b, t) :=
  ⟨fun h => ⟨(x s).1, (x s).2, rfl, h⟩, fun ⟨_, _, hx, h⟩ => by
    show f (x s).1 (x s).2 = (b, t)
    rw [hx]
    exact h⟩

theorem StateM.pure_eq_iff {σ α : Type} {a b : α} {s t : σ} :
    (pure a : StateM σ α) s = (b, t) ↔ a = b ∧ s = t :=
  Prod.mk.injEq .. ▸ Iff.rfl

section
variable {ε σ α β : Type} {s t : σ}

/-- A sequence that may fail has succeeded if both of its parts have. -/
theorem ExceptT.bind_eq_ok {x : ExceptT ε (StateM σ) α} {f : α → ExceptT ε (StateM σ) β} {b : β} :
    (x >>= f) s = (.ok b, t) ↔ ∃ a u, x s = (.ok a, u) ∧ f a u = (.ok b, t) := by
  show (x.run >>= ExceptT.bindCont f) s = (.ok b, t) ↔ _
  rw [StateM.bind_eq_iff]
  constructor
  · rintro ⟨r, u, hx, h⟩
    cases r with
    | error e => cases (Prod.mk.inj h).1
    | ok a => exact ⟨a, u, hx, h⟩
  · rintro ⟨a, u, hx, h⟩
    exact ⟨.ok a, u, hx, h⟩

theorem ExceptT.pure_eq_ok {a b : α} :
    (pure a : ExceptT ε (StateM σ) α) s = (.ok b, t) ↔ a = b ∧ s = t := by
  show (pure (.ok a) : StateM σ (Except ε α)) s = (.ok b, t) ↔ _
  rw [StateM.pure_eq_iff, Except.ok.injEq]

/-- What may fail without a look at the state leaves the state alone. -/
theorem ExceptT.mk_pure_eq_ok {x : Except ε α} {a : α} :
    (ExceptT.mk (pure x) : ExceptT ε (StateM σ) α) s = (.ok a, t) ↔ x = .ok a ∧ s = t :=
  StateM.pure_eq_iff

/-- What cannot fail succeeds. -/
theorem ExceptT.lift_eq_ok {x : StateM σ α} {a : α} :
    (liftM x : ExceptT ε (StateM σ) α) s = (.ok a, t) ↔ x s = (a, t) := by
  show (Except.ok <$> x) s = (.ok a, t) ↔ _
  show (Except.ok (x s).1, (x s).2) = ((Except.ok a, t) : Except ε α × σ) ↔ _
  constructor
  · intro h
    obtain ⟨ha, ht⟩ := Prod.mk.inj h
    exact Prod.ext (Except.ok.inj ha) ht
  · intro h
    rw [h]

end

/-- Whatever comes of the activity, `f` is the same for the state after it. -/
def Keeps {σ β α : Type} (f : σ → β) (m : StateM σ α) : Prop := ∀ s, f (m s).2 = f s

namespace Keeps

variable {σ β α γ κ ε : Type} {f : σ → β}

/-- What a computation keeps is the same after a run of it. -/
theorem eq {m : StateM σ α} {a : α} {s t : σ} (hm : Keeps f m) (h : m s = (a, t)) : f t = f s := by
  rw [← hm s, h]

/-- What is a function of something kept is kept. -/
theorem comp {m : StateM σ α} (hm : Keeps f m) (g : β → γ) : Keeps (fun s => g (f s)) m :=
  fun s => congrArg g (hm s)

theorem pure (a : α) : Keeps f (Pure.pure a : StateM σ α) := fun _ => rfl

/-- Both parts keep it, hence so does the whole. -/
theorem bind {m : StateM σ α} {next : α → StateM σ γ} (hm : Keeps f m)
    (hnext : ∀ a, Keeps f (next a)) : Keeps f (m >>= next) := by
  intro s
  show f (next (m s).1 (m s).2).2 = f s
  rw [hnext, hm]

/-- An activity that fails ends there, and one that succeeds is followed by the next one. -/
theorem bindExcept {m : ExceptT ε (StateM σ) α} {next : α → ExceptT ε (StateM σ) γ}
    (hm : Keeps f m.run) (hnext : ∀ a, Keeps f (next a).run) : Keeps f (m >>= next).run := by
  show Keeps f (m.run >>= ExceptT.bindCont next)
  refine hm.bind fun r => ?_
  cases r with
  | error e => exact .pure _
  | ok a => exact hnext a

/-- If every part keeps it, so do all of them one after the other, also where one fails. -/
theorem mapM {part : κ → ExceptT ε (StateM σ) α} (hpart : ∀ k, Keeps f (part k).run)
    (ks : List κ) : Keeps f (ks.mapM part).run := by
  induction ks with
  | nil => exact .pure _
  | cons k ks ih =>
    rw [List.mapM_cons]
    exact (hpart k).bindExcept fun _ => ih.bindExcept fun _ => .pure _

/-- If every step of a loop keeps it, so does the loop. -/
theorem foldlM {step : α → κ → ExceptT ε (StateM σ) α} (hstep : ∀ a k, Keeps f (step a k).run)
    (ks : List κ) (a : α) : Keeps f (ks.foldlM step a).run := by
  induction ks generalizing a with
  | nil => exact .pure _
  | cons k ks ih =>
    rw [List.foldlM_cons]
    exact (hstep a k).bindExcept fun _ => ih _

/-- If every step keeps it, so does the whole loop. -/
theorem forM {step : κ → ExceptT ε (StateM σ) PUnit} (hstep : ∀ k, Keeps f (step k).run)
    (ks : List κ) : Keeps f (ks.forM step).run := by
  induction ks with
  | nil => exact .pure _
  | cons k ks ih => exact (hstep k).bindExcept fun _ => ih

end Keeps

end FiniteState
