import FiniteState.Dataset.Buckets
import FiniteState.Proofs.Complement
import FiniteState.Proofs.Minimize
import FiniteState.Proofs.Rational

/-!
# Length buckets

The buckets of a target split the words over Σ of each length by the verdict of the target. Buckets
shrink while they are used; what is left of a bucket is still of its length and its verdict.

* `LengthBuckets.legal_build`: buckets that have just been built hold what they should.
* `LengthBuckets.build_split`: they split the words of each length.
* `LengthBuckets.get?_set`: a replacement changes one place only.
* `LengthBuckets.Legal.shrinks`: legal buckets stay legal while they shrink.
-/

namespace FiniteState

/-! ## Words of one length

The words of the least length are a power of Σ. From there one symbol at a time is added. -/

namespace Automaton

variable {A C M : Automaton} {S : Alphabet}

/-- The automaton accepts the words over Σ of the given length. -/
def OfLength (S : Alphabet) (n : Nat) (A : Automaton) : Prop :=
  ∀ x y, A.Relates x y ↔ x = y ∧ x.Over S ∧ x.length = n

/-- The automaton accepts the words over Σ of its length. -/
theorem OfLength.accepts_iff {n : Nat} (h : A.OfLength S n) {w : Word} :
    A.accepts w = true ↔ w.Over S ∧ w.length = n :=
  accepts_iff_of_copies h

/-- The power of Σ with which the first bucket is made holds the words of that length. -/
theorem ofLength_power {n : Nat} (hA : (sigma S).power n (some n) = .ok A)
    (hM : A.minimize = .ok M) : M.OfLength S n := by
  intro x y
  rw [relates_minimize_iff hM, relates_power_iff hA, copies_sigma_iff]

/-- One more letter takes the words of one length to those of the next. -/
theorem OfLength.longer {n : Nat} (h : A.OfLength S n) (hC : A.concat (sigma S) = .ok C)
    (hM : C.minimize = .ok M) : M.OfLength S (n + 1) := by
  intro x y
  rw [relates_minimize_iff hM, relates_concat_iff hC]
  constructor
  · rintro ⟨x₁, y₁, x₂, y₂, hfirst, hlast, rfl, rfl⟩
    -- what is read is a word of length n and then one more letter
    obtain ⟨rfl, hover, hlength⟩ := (h x₁ y₁).1 hfirst
    obtain ⟨rfl, s, hs, rfl⟩ := relates_sigma_iff.1 hlast
    have hletter : Word.Over S [s] := Word.over_cons_iff.2 ⟨hs, Word.over_nil S⟩
    refine ⟨rfl, Word.over_append_iff.2 ⟨hover, hletter⟩, ?_⟩
    rw [List.length_append, hlength]
    rfl
  · rintro ⟨rfl, hover, hlength⟩
    obtain rfl | ⟨u, s, rfl⟩ := x.eq_nil_or_concat
    · cases hlength
    · rw [List.concat_eq_append] at hover hlength ⊢
      obtain ⟨hu, hs⟩ := Word.over_append_iff.1 hover
      rw [List.length_append, List.length_singleton] at hlength
      exact ⟨u, u, [s], [s], (h u u).2 ⟨rfl, hu, Nat.succ.inj hlength⟩,
        relates_sigma_singleton (Word.over_cons_iff.1 hs).1, rfl, rfl⟩

end Automaton

namespace LengthBuckets

variable {target exact : Automaton} {B B' B'' : LengthBuckets}

/-! ## Buckets of a target

A bucket comes of the words of one length: they are intersected with the target, and the target is
taken away from them. -/

/-- The word is over Σ, of the length, and has the verdict. -/
def Belongs (target : Automaton) (length : Nat) (v : Verdict) (w : Word) : Prop :=
  w.Over target.alphabet ∧ w.length = length ∧ (target.accepts w = true ↔ v = .accept)

/-- A bucket is a minimized intersection and a minimized difference. -/
theorem bucketOf_eq_ok {b : Bucket} (h : bucketOf target exact = .ok b) :
    (∃ P, target.intersection exact = .ok P ∧ P.minimize = .ok b.positive)
      ∧ ∃ N, exact.difference target = .ok N ∧ N.minimize = .ok b.negative := by
  obtain ⟨P, hP, h⟩ := Except.bind_eq_ok.1 h
  obtain ⟨positive, hpositive, h⟩ := Except.bind_eq_ok.1 h
  obtain ⟨N, hN, h⟩ := Except.bind_eq_ok.1 h
  obtain ⟨negative, hnegative, h⟩ := Except.bind_eq_ok.1 h
  obtain rfl := Except.pure_eq_ok.1 h
  exact ⟨⟨P, hP, hpositive⟩, N, hN, hnegative⟩

/-- A bucket splits the words of its length by the target. -/
theorem relates_bucketOf_iff {n : Nat} {b : Bucket} (hexact : exact.OfLength target.alphabet n)
    (h : bucketOf target exact = .ok b) {v : Verdict} {x y : Word} :
    (b.get v).Relates x y ↔ x = y ∧ Belongs target n v x := by
  obtain ⟨⟨P, hP, hpositive⟩, N, hN, hnegative⟩ := bucketOf_eq_ok h
  cases v with
  | accept =>
    show b.positive.Relates x y ↔ _
    rw [Automaton.relates_minimize_iff hpositive, Automaton.relates_intersection_iff hP,
      hexact.accepts_iff, Belongs]
    simp only [iff_true]
    exact ⟨fun ⟨hxy, haccepts, hover, hlength⟩ => ⟨hxy, hover, hlength, haccepts⟩,
      fun ⟨hxy, hover, hlength, haccepts⟩ => ⟨hxy, haccepts, hover, hlength⟩⟩
  | reject =>
    show b.negative.Relates x y ↔ _
    rw [Automaton.relates_minimize_iff hnegative, Automaton.relates_difference_iff hN,
      hexact.accepts_iff, Belongs]
    simp only [reduceCtorEq, iff_false, Bool.not_eq_true]
    exact ⟨fun ⟨hxy, ⟨hover, hlength⟩, _, hrejects⟩ => ⟨hxy, hover, hlength, hrejects⟩,
      fun ⟨hxy, hover, hlength, hrejects⟩ => ⟨hxy, ⟨hover, hlength⟩, hover, hrejects⟩⟩

theorem bucketsFrom_one_eq_ok {bs : List Bucket} (h : bucketsFrom target 1 exact = .ok bs) :
    ∃ b, bucketOf target exact = .ok b ∧ bs = [b] := by
  obtain ⟨b, hb, h⟩ := Except.bind_eq_ok.1 h
  exact ⟨b, hb, (Except.pure_eq_ok.1 h).symm⟩

/-- The steps from the buckets of one length to those of the next one. -/
theorem bucketsFrom_add_two_eq_ok {count : Nat} {bs : List Bucket}
    (h : bucketsFrom target (count + 2) exact = .ok bs) :
    ∃ b C longer rest, bucketOf target exact = .ok b
      ∧ exact.concat (.sigma target.alphabet) = .ok C ∧ C.minimize = .ok longer
      ∧ bucketsFrom target (count + 1) longer = .ok rest ∧ bs = b :: rest := by
  obtain ⟨b, hb, h⟩ := Except.bind_eq_ok.1 h
  obtain ⟨C, hC, h⟩ := Except.bind_eq_ok.1 h
  obtain ⟨longer, hlonger, h⟩ := Except.bind_eq_ok.1 h
  obtain ⟨rest, hrest, h⟩ := Except.bind_eq_ok.1 h
  exact ⟨b, C, longer, rest, hb, hC, hlonger, hrest, (Except.pure_eq_ok.1 h).symm⟩

/-- The loop makes the requested number of buckets, and bucket `i` holds the words that are `i`
letters longer than those it began with. -/
theorem bucketsFrom_spec {count n : Nat} {bs : List Bucket}
    (hexact : exact.OfLength target.alphabet n) (h : bucketsFrom target count exact = .ok bs) :
    bs.length = count ∧ ∀ i b, bs[i]? = some b →
      ∀ v x y, (b.get v).Relates x y ↔ x = y ∧ Belongs target (n + i) v x := by
  -- the acceptor of all words of a length is carried along, so the invariant is about it
  fun_induction bucketsFrom target count exact generalizing n bs with
  | case1 exact =>
    obtain rfl := Except.ok.inj h
    exact ⟨rfl, fun i b hb => by cases hb⟩
  | case2 exact =>
    obtain ⟨b, hb, rfl⟩ := bucketsFrom_one_eq_ok h
    refine ⟨rfl, fun i c hc v x y => ?_⟩
    obtain ⟨rfl, rfl⟩ : i = 0 ∧ b = c := by
      cases i with
      | zero => exact ⟨rfl, Option.some.inj hc⟩
      | succ i => cases hc
    exact relates_bucketOf_iff hexact hb
  | case3 exact count ih =>
    -- the words that are one letter longer are what the next buckets are made of
    obtain ⟨b, C, longer, rest, hb, hC, hlonger, hrest, rfl⟩ := bucketsFrom_add_two_eq_ok h
    obtain ⟨hlength, hbuckets⟩ := ih longer (hexact.longer hC hlonger) hrest
    refine ⟨by rw [List.length_cons, hlength], fun i c hc v x y => ?_⟩
    cases i with
    | zero =>
      obtain rfl := Option.some.inj hc
      exact relates_bucketOf_iff hexact hb
    | succ i =>
      rw [List.getElem?_cons_succ] at hc
      rw [hbuckets i c hc v x y, Nat.add_right_comm n 1 i]
      rfl

theorem get?_eq_some_iff {length : Nat} {v : Verdict} {A : Automaton} :
    B.get? length v = some A
      ↔ B.first ≤ length ∧ ∃ b, B.buckets[length - B.first]? = some b ∧ b.get v = A := by
  rw [get?, bucket?, Option.map_eq_some_iff]
  by_cases hlength : length < B.first
  · rw [if_pos hlength]
    simp only [reduceCtorEq, false_and, exists_false, false_iff, not_and]
    omega
  · rw [if_neg hlength]
    exact ⟨fun h => ⟨Nat.le_of_not_lt hlength, h⟩, fun h => h.2⟩

/-- There is a bucket where the length is in the range. -/
theorem isSome_get?_iff {length : Nat} {v : Verdict} :
    (B.get? length v).isSome = true ↔ B.first ≤ length ∧ length - B.first < B.buckets.size := by
  rw [Option.isSome_iff_exists]
  constructor
  · rintro ⟨A, hA⟩
    obtain ⟨hfirst, b, hb, -⟩ := get?_eq_some_iff.1 hA
    exact ⟨hfirst, (Array.getElem?_eq_some_iff.1 hb).1⟩
  · rintro ⟨hfirst, hlt⟩
    exact ⟨_, get?_eq_some_iff.2 ⟨hfirst, _, Array.getElem?_eq_getElem hlt, rfl⟩⟩

/-- A length with a bucket is listed among the lengths. -/
theorem mem_lengths_of_get? {length : Nat} {v : Verdict} {A : Automaton}
    (hA : B.get? length v = some A) : length ∈ B.lengths := by
  have hsome : (B.get? length v).isSome = true := by
    rw [hA]
    rfl
  obtain ⟨hfirst, hlt⟩ := isSome_get?_iff.1 hsome
  have hmax : B.buckets.size ≤ Nat.max B.buckets.size 1 := Nat.le_max_left _ _
  rw [lengths, List.mem_range'_1]
  omega

/-- There are buckets for the lengths of the range, and each holds words of its length and verdict
only. -/
structure Legal (target : Automaton) (least most : Nat) (B : LengthBuckets) : Prop where
  isSome_iff : ∀ length v, (B.get? length v).isSome = true ↔ least ≤ length ∧ length ≤ most
  belongs : ∀ length v A, B.get? length v = some A →
    ∀ x y, A.Relates x y → x = y ∧ Belongs target length v x

/-- The lengths are listed from the least to the most. -/
theorem Legal.lengths_eq {least most : Nat} (h : B.Legal target least most) (hle : least ≤ most) :
    B.lengths = List.range' least (most + 1 - least) := by
  have hiff : ∀ length, (B.first ≤ length ∧ length - B.first < B.buckets.size)
      ↔ least ≤ length ∧ length ≤ most := fun length =>
    isSome_get?_iff.symm.trans (h.isSome_iff length .accept)
  -- the least and the greatest length of the range fix where the buckets begin and end
  have hleast := (hiff least).2 ⟨Nat.le_refl _, hle⟩
  have hmost := (hiff most).2 ⟨hle, Nat.le_refl _⟩
  have hfirst := (hiff B.first).1 ⟨Nat.le_refl _, by omega⟩
  have hlast := (hiff (B.first + (B.buckets.size - 1))).1 ⟨by omega, by omega⟩
  have hsize : Nat.max B.buckets.size 1 = B.buckets.size := Nat.max_eq_left (by omega)
  show List.range' B.first (Nat.max B.buckets.size 1) = List.range' least (most + 1 - least)
  rw [hsize]
  congr 1 <;> omega

/-- The steps from a target to its buckets. -/
theorem build_eq_ok {least most : Nat} (h : build target least most = .ok B) :
    ∃ P exact bs, (Automaton.sigma target.alphabet).power least (some least) = .ok P
      ∧ P.minimize = .ok exact ∧ bucketsFrom target (most + 1 - least) exact = .ok bs
      ∧ B = { first := least, buckets := bs.toArray } := by
  obtain ⟨P, hP, h⟩ := Except.bind_eq_ok.1 h
  obtain ⟨exact, hexact, h⟩ := Except.bind_eq_ok.1 h
  obtain ⟨bs, hbs, h⟩ := Except.bind_eq_ok.1 h
  exact ⟨P, exact, bs, hP, hexact, hbs, (Except.pure_eq_ok.1 h).symm⟩

/-- There is a bucket for each length of the range and for no other, and it splits the words of
that length by the target. -/
theorem build_spec {least most : Nat} (h : build target least most = .ok B) :
    (∀ length v, (B.get? length v).isSome = true ↔ least ≤ length ∧ length ≤ most)
      ∧ ∀ length v A, B.get? length v = some A →
          ∀ x y, A.Relates x y ↔ x = y ∧ Belongs target length v x := by
  obtain ⟨P, exact, bs, hP, hexact, hbs, rfl⟩ := build_eq_ok h
  obtain ⟨hlength, hbuckets⟩ := bucketsFrom_spec (Automaton.ofLength_power hP hexact) hbs
  constructor
  · intro length v
    rw [isSome_get?_iff, List.size_toArray, hlength]
    show least ≤ length ∧ length - least < most + 1 - least ↔ _
    omega
  · intro length v A hA x y
    obtain ⟨hfirst, b, hb, rfl⟩ := get?_eq_some_iff.1 hA
    have hfirst : least ≤ length := hfirst
    have hb : bs[length - least]? = some b := by
      rw [← hb, List.getElem?_toArray]
    rw [hbuckets (length - least) b hb, Nat.add_sub_cancel' hfirst]

/-- Buckets that have just been built are legal. -/
theorem legal_build {least most : Nat} (h : build target least most = .ok B) :
    B.Legal target least most where
  isSome_iff := (build_spec h).1
  belongs := fun length v A hA x y hxy => ((build_spec h).2 length v A hA x y).1 hxy

/-- Buckets that have just been built split the words over Σ of each length of the range by what the
target says, and there are none for other lengths. -/
theorem build_split (target : Automaton) (least most : Nat) (B : LengthBuckets)
    (hle : least ≤ most) (h : build target least most = .ok B) :
    B.lengths = List.range' least (most + 1 - least)
      ∧ ∀ length,
        (least ≤ length ∧ length ≤ most →
          ∃ P N, B.get? length .accept = some P ∧ B.get? length .reject = some N
            ∧ (∀ w, P.accepts w = true
                ↔ w.Over target.alphabet ∧ w.length = length ∧ target.accepts w = true)
            ∧ ∀ w, N.accepts w = true
                ↔ w.Over target.alphabet ∧ w.length = length ∧ target.accepts w = false)
        ∧ (¬ (least ≤ length ∧ length ≤ most) → ∀ v, B.get? length v = none) := by
  have hlegal := legal_build h
  -- nothing has been taken out yet, so the buckets have all the words that belong in them
  have haccepts : ∀ length v A, B.get? length v = some A →
      ∀ w, A.accepts w = true ↔ Belongs target length v w :=
    fun length v A hA _ => Automaton.accepts_iff_of_copies ((build_spec h).2 length v A hA)
  refine ⟨hlegal.lengths_eq hle, fun length => ⟨fun hrange => ?_, fun hrange v => ?_⟩⟩
  · obtain ⟨P, hP⟩ := Option.isSome_iff_exists.1 ((hlegal.isSome_iff length .accept).2 hrange)
    obtain ⟨N, hN⟩ := Option.isSome_iff_exists.1 ((hlegal.isSome_iff length .reject).2 hrange)
    refine ⟨P, N, hP, hN, fun w => ?_, fun w => ?_⟩
    · rw [haccepts length .accept P hP, Belongs]
      simp only [iff_true]
    · rw [haccepts length .reject N hN, Belongs]
      simp only [reduceCtorEq, iff_false, Bool.not_eq_true]
  · rw [← Option.not_isSome_iff_eq_none, hlegal.isSome_iff]
    exact hrange

/-- For the word a, the bucket of length one holds it as a positive word and b as a negative one. -/
theorem build_split_symbol :
    ∃ B, build (.symbol .abcd ⟨0⟩) 0 2 = .ok B ∧ B.lengths = [0, 1, 2]
      ∧ B.get? 3 .accept = none ∧ B.get? 3 .reject = none
      ∧ ∃ P N, B.get? 1 .accept = some P ∧ B.get? 1 .reject = some N
        ∧ P.accepts [⟨0⟩] = true ∧ P.accepts [⟨1⟩] = false ∧ N.accepts [⟨1⟩] = true := by
  have ha : (Automaton.symbol .abcd ⟨0⟩).accepts [⟨0⟩] = true := by cbv
  have hb : (Automaton.symbol .abcd ⟨0⟩).accepts [⟨1⟩] = false := by cbv
  have hok : (build (.symbol .abcd ⟨0⟩) 0 2).isOk = true := by cbv
  obtain ⟨B, hB⟩ := Except.exists_eq_ok hok
  obtain ⟨hlengths, hsplit⟩ := build_split _ 0 2 B (by decide) hB
  obtain ⟨P, N, hP, hN, hpositive, hnegative⟩ := (hsplit 1).1 (by decide)
  have hnone := (hsplit 3).2 (by decide)
  refine ⟨B, hB, hlengths, hnone .accept, hnone .reject, P, N, hP, hN, ?_, ?_, ?_⟩
  · exact (hpositive _).2 ⟨Word.over_cons_iff.2 ⟨rfl, Word.over_nil _⟩, rfl, ha⟩
  · exact Bool.eq_false_iff.2 fun h => Bool.eq_false_iff.1 hb ((hpositive _).1 h).2.2
  · exact (hnegative _).2 ⟨Word.over_cons_iff.2 ⟨rfl, Word.over_nil _⟩, rfl, hb⟩

/-- Both parts of a bucket are minimized, hence deterministic. -/
theorem deterministic_bucketOf {b : Bucket} (h : bucketOf target exact = .ok b) (v : Verdict) :
    (b.get v).system.Deterministic := by
  obtain ⟨⟨P, -, hpositive⟩, N, -, hnegative⟩ := bucketOf_eq_ok h
  cases v with
  | accept => exact (Automaton.ordered_minimize hpositive).deterministic
  | reject => exact (Automaton.ordered_minimize hnegative).deterministic

/-- What holds of every bucket for a length holds of all of them. The acceptors of the words of one
length come with a property of their own, which is handed on to the next length. -/
theorem bucketsFrom_induction {I Q : Automaton → Prop}
    (hbucket : ∀ exact b, I exact → bucketOf target exact = .ok b → ∀ v, Q (b.get v))
    (hlonger : ∀ exact C longer, I exact → exact.concat (.sigma target.alphabet) = .ok C →
      C.minimize = .ok longer → I longer)
    {count : Nat} {bs : List Bucket} (hexact : I exact)
    (h : bucketsFrom target count exact = .ok bs) : ∀ b ∈ bs, ∀ v, Q (b.get v) := by
  fun_induction bucketsFrom target count exact generalizing bs with
  | case1 exact =>
    obtain rfl := Except.ok.inj h
    exact fun b hb => absurd hb List.not_mem_nil
  | case2 exact =>
    obtain ⟨b, hb, rfl⟩ := bucketsFrom_one_eq_ok h
    intro c hc
    rw [List.mem_singleton.1 hc]
    exact hbucket exact b hexact hb
  | case3 count exact ih =>
    obtain ⟨b, C, longer, rest, hb, hC, hlonger', hrest, rfl⟩ := bucketsFrom_add_two_eq_ok h
    intro c hc
    rcases List.mem_cons.1 hc with rfl | hc
    · exact hbucket exact c hexact hb
    · exact ih longer (hlonger exact C longer hexact hC hlonger') hrest c hc

/-- The same for the buckets of a range: the acceptor of the first length is a power of Σ. -/
theorem build_induction {I Q : Automaton → Prop} {least most : Nat}
    (hleast : ∀ P exact, (Automaton.sigma target.alphabet).power least (some least) = .ok P →
      P.minimize = .ok exact → I exact)
    (hbucket : ∀ exact b, I exact → bucketOf target exact = .ok b → ∀ v, Q (b.get v))
    (hlonger : ∀ exact C longer, I exact → exact.concat (.sigma target.alphabet) = .ok C →
      C.minimize = .ok longer → I longer)
    (h : build target least most = .ok B) {length : Nat} {v : Verdict} {A : Automaton}
    (hA : B.get? length v = some A) : Q A := by
  obtain ⟨P, exact, bs, hP, hexact, hbs, rfl⟩ := build_eq_ok h
  obtain ⟨-, b, hb, rfl⟩ := get?_eq_some_iff.1 hA
  rw [List.getElem?_toArray] at hb
  exact bucketsFrom_induction hbucket hlonger (hleast P exact hP hexact) hbs b
    (List.mem_of_getElem? hb) v

/-- The buckets are deterministic as long as nothing has been drawn. -/
theorem deterministic_build {least most : Nat} (h : build target least most = .ok B) {length : Nat}
    {v : Verdict} {A : Automaton} (hA : B.get? length v = some A) : A.system.Deterministic :=
  build_induction (I := fun _ => True) (Q := fun A => A.system.Deterministic)
    (fun _ _ _ _ => trivial) (fun _ _ _ hb => deterministic_bucketOf hb)
    (fun _ _ _ _ _ _ => trivial) h hA

/-! ## Replacement -/

theorem get_set (b : Bucket) (v v' : Verdict) (A : Automaton) :
    (b.set v A).get v' = if v' = v then A else b.get v' := by
  cases v <;> cases v' <;> rfl

/-- A replacement changes the words of one length with one verdict. -/
theorem get?_set {length : Nat} {v : Verdict} {A : Automaton} (hA : B.get? length v = some A)
    (A' : Automaton) (length' : Nat) (v' : Verdict) :
    (B.set length v A').get? length' v'
      = if length' = length ∧ v' = v then some A' else B.get? length' v' := by
  obtain ⟨hfirst, b, hb, -⟩ := get?_eq_some_iff.1 hA
  have hset : (B.set length v A').get? length' v'
      = (if length' < B.first then none
          else (B.buckets.modify (length - B.first) (·.set v A'))[length' - B.first]?).map
            (·.get v') := rfl
  rw [hset]
  -- other places are told apart by the range, then the length, then the verdict
  by_cases hbelow : length' < B.first
  · rw [if_pos hbelow, if_neg (by omega), get?, bucket?, if_pos hbelow]
  · rw [if_neg hbelow, Array.getElem?_modify]
    by_cases hlength : length' = length
    · subst hlength
      rw [if_pos rfl, hb, Option.map_some, Option.map_some, get_set]
      by_cases hv : v' = v
      · rw [if_pos hv, if_pos ⟨rfl, hv⟩]
      · rw [if_neg hv, if_neg fun h => hv h.2, get?, bucket?, if_neg hbelow, hb]
        rfl
    · rw [if_neg (by omega), if_neg fun h => hlength h.1, get?, bucket?, if_neg hbelow]

theorem get?_set_self {length : Nat} {v : Verdict} {A : Automaton}
    (hA : B.get? length v = some A) (A' : Automaton) :
    (B.set length v A').get? length v = some A' := by
  rw [get?_set hA, if_pos ⟨rfl, rfl⟩]

/-! ## Shrinking

Whatever a session does to its buckets, it only takes words away. What is known of the words in the
buckets stays true. -/

/-- The second buckets are for the same lengths as the first, and hold no other words. -/
structure Shrinks (B B' : LengthBuckets) : Prop where
  isSome_eq : ∀ length v, (B'.get? length v).isSome = (B.get? length v).isSome
  subset : ∀ length v A A', B.get? length v = some A → B'.get? length v = some A' →
    ∀ x y, A'.Relates x y → A.Relates x y

theorem Shrinks.refl (B : LengthBuckets) : B.Shrinks B where
  isSome_eq := fun _ _ => rfl
  subset := fun length v A A' hA hA' x y h => by
    rw [hA] at hA'
    rwa [Option.some.inj hA']

/-- What is left of a bucket was there before. -/
theorem Shrinks.exists_of_get? (h : B.Shrinks B') {length : Nat} {v : Verdict} {A' : Automaton}
    (hA' : B'.get? length v = some A') :
    ∃ A, B.get? length v = some A ∧ ∀ x y, A'.Relates x y → A.Relates x y := by
  have hsome : (B.get? length v).isSome = true := by
    rw [← h.isSome_eq, hA']
    rfl
  obtain ⟨A, hA⟩ := Option.isSome_iff_exists.1 hsome
  exact ⟨A, hA, h.subset length v A A' hA hA'⟩

theorem Shrinks.trans (h : B.Shrinks B') (h' : B'.Shrinks B'') : B.Shrinks B'' where
  isSome_eq := fun length v => (h'.isSome_eq length v).trans (h.isSome_eq length v)
  subset := fun length v A A'' hA hA'' x y hxy => by
    obtain ⟨A', hA', hsubset⟩ := h'.exists_of_get? hA''
    exact h.subset length v A A' hA hA' x y (hsubset x y hxy)

/-- Replacing one slot by fewer words shrinks the buckets. -/
theorem shrinks_set {length : Nat} {v : Verdict} {A A' : Automaton}
    (hA : B.get? length v = some A) (hsubset : ∀ x y, A'.Relates x y → A.Relates x y) :
    B.Shrinks (B.set length v A') where
  isSome_eq := fun length' v' => by
    rw [get?_set hA]
    split
    next hplace => rw [hplace.1, hplace.2, hA]; rfl
    · rfl
  subset := fun length' v' C C' hC hC' => by
    rw [get?_set hA] at hC'
    split at hC'
    next hplace =>
      rw [hplace.1, hplace.2, hA] at hC
      rw [← Option.some.inj hC, ← Option.some.inj hC']
      exact hsubset
    next =>
      rw [hC] at hC'
      rw [← Option.some.inj hC']
      exact fun _ _ h => h

/-- Legal buckets stay legal while they shrink. -/
theorem Legal.shrinks {least most : Nat} (h : B.Legal target least most) (hshrinks : B.Shrinks B') :
    B'.Legal target least most where
  isSome_iff := fun length v => by rw [hshrinks.isSome_eq, h.isSome_iff]
  belongs := fun length v A' hA' x y hxy => by
    obtain ⟨A, hA, hsubset⟩ := hshrinks.exists_of_get? hA'
    exact h.belongs length v A hA x y (hsubset x y hxy)

/-! ## Words in the buckets -/

/-- The word is in the bucket of its length for the verdict. -/
def Held (B : LengthBuckets) (v : Verdict) (w : Word) : Prop :=
  ∃ A, B.get? w.length v = some A ∧ A.Relates w w

/-- A word that is still held was held before. -/
theorem Held.of_shrinks {v : Verdict} {w : Word} (hshrinks : B.Shrinks B') (h : B'.Held v w) :
    B.Held v w := by
  obtain ⟨A', hA', hw⟩ := h
  obtain ⟨A, hA, hsubset⟩ := hshrinks.exists_of_get? hA'
  exact ⟨A, hA, hsubset w w hw⟩

/-- A held word is over Σ and has the verdict under which it is held. -/
theorem Legal.belongs_of_held {least most : Nat} (h : B.Legal target least most) {v : Verdict}
    {w : Word} (hheld : B.Held v w) : Belongs target w.length v w := by
  obtain ⟨A, hA, hw⟩ := hheld
  exact (h.belongs w.length v A hA w w hw).2

/-- Whatever is left in a slot relates words to themselves only. -/
theorem Legal.eq_of_relates {least most : Nat} (h : B.Legal target least most) {length : Nat}
    {v : Verdict} {A : Automaton} (hA : B.get? length v = some A) (x y : Word)
    (hxy : A.Relates x y) : x = y := (h.belongs length v A hA x y hxy).1

/-- A word accepted on the input side is related to itself, since the slot does not rewrite. -/
theorem Legal.relates_of_accepts {least most : Nat} (h : B.Legal target least most) {length : Nat}
    {v : Verdict} {A : Automaton} (hA : B.get? length v = some A) {w : Word}
    (hw : A.accepts w = true) : A.Relates w w := by
  obtain ⟨y, hy⟩ := Automaton.accepts_iff_exists_relates.1 hw
  obtain rfl := h.eq_of_relates hA w y hy
  exact hy

/-- Every word that a bucket writes is in it. -/
theorem Legal.held_of_relates {least most : Nat} (h : B.Legal target least most) {length : Nat}
    {v : Verdict} {A : Automaton} (hA : B.get? length v = some A) {x w : Word}
    (hw : A.Relates x w) : w.length = length ∧ B.Held v w := by
  obtain ⟨rfl, hbelongs⟩ := h.belongs length v A hA x w hw
  refine ⟨hbelongs.2.1, A, ?_, hw⟩
  rw [hbelongs.2.1, hA]

/-- A word that the replacement lacks is no longer held. -/
theorem not_held_set {v : Verdict} {w : Word} {A A' : Automaton}
    (hA : B.get? w.length v = some A) (hw : ¬ A'.Relates w w) :
    ¬ (B.set w.length v A').Held v w := by
  rintro ⟨C, hC, hheld⟩
  rw [get?_set_self hA] at hC
  rw [← Option.some.inj hC] at hheld
  exact hw hheld

end LengthBuckets

end FiniteState
