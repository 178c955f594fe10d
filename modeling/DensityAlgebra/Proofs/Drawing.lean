/-
# Which event is drawn

A search goes through a stream of numbers candidate by candidate: two numbers make a
candidate, and a third one is read if and only if the candidate lies in the Dalitz region.
So the place where a candidate starts follows from the candidates before it, and every
candidate can be judged by itself: it is refused or accepted. The event that is drawn is the
first candidate that is accepted, and the stream is read up to its third number and no
further. Events that are drawn one after the other read one stream without a gap.

There are candidates on which no judgement is possible, and drawing stops there: the density
of a candidate cannot be computed, or the source refuses one of the three ranges.

Nothing is asked of the density, of the numbers or of the number of candidates: the
density may be undefined or larger than the envelope.

Key definitions: `Decay.nominee`, `Decay.Judged`, `Decay.Fails`, `Decay.Accepts`,
`Decay.Refuses`, `Decay.start`, `Decay.Draws`, `Decay.Collects`, `Store.advance`.
Key theorems: `Decay.search_finds`, `Decay.generate_draws`, `Decay.sample_collects`,
`Decay.sample_add`, `Decay.draws_first_acceptable`, `Decay.not_draws_event`.
-/
import DensityAlgebra.Decay.Sampling
import DensityAlgebra.Proofs.Rational
import DensityAlgebra.Proofs.Renewing
import Mathlib.Logic.Function.Iterate

namespace DensityAlgebra

variable {α : Type} [Scalar α]

/-! ### Streams -/

namespace Source

theorem skip_skip (x : Source α) (j : ℕ) : ∀ k, (x.skip j).skip k = x.skip (j + k)
  | 0 => rfl
  | k + 1 => congrArg (·.draw.2) (skip_skip x j k)

theorem skip_ofSeed (seed : UInt64) (us : List α) :
    ∀ k, ∃ state, (ofSeed seed us).skip k = ⟨seed, us, state, k, 0, false⟩
  | 0 => ⟨seed, rfl⟩
  | k + 1 => by
    obtain ⟨state, h⟩ := skip_ofSeed seed us k
    refine ⟨advance state, ?_⟩
    rw [skip, h]
    rfl

theorem guarded_draw (x : Source α) : x.draw.2.guarded = x.guarded := by
  -- the fields are named first, or the two states would be compared by computing them
  have hdraw : x.draw.2 =
      ⟨x.seed, x.script, advance x.state, x.drawn + 1, x.spawned, x.guarded⟩ := rfl
  rw [hdraw]

theorem guarded_skip (x : Source α) : ∀ k, (x.skip k).guarded = x.guarded
  | 0 => rfl
  | k + 1 => (guarded_draw (x.skip k)).trans (guarded_skip x k)

/-- Which ranges a source refuses does not change while it is read. -/
theorem refusal?_skip (x : Source α) (k : ℕ) (lo hi : α) :
    (x.skip k).refusal? lo hi = x.refusal? lo hi := by
  simp only [refusal?, guarded_skip]

end Source

namespace Store

/-- The store after so many numbers of a source, and with more notices. -/
def advance (s : Store α) (r : SourceId) (k : ℕ) (ns : List (Notice α)) : Store α :=
  { s.putSource r ((s.source r).skip k) with notices := s.notices ++ ns }

variable {s : Store α} {r : SourceId}

theorem same_advance (s : Store α) (r : SourceId) (k : ℕ) (ns : List (Notice α)) :
    s.Same (s.advance r k ns) := ⟨rfl, rfl, rfl⟩

theorem advance_zero (s : Store α) (r : SourceId) : s.advance r 0 [] = s := by
  have hsources : s.sources.setIfInBounds r.index (s.source r) = s.sources := by
    refine Array.ext (by simp) fun i _ hi => ?_
    rw [Array.getElem_setIfInBounds hi]
    split_ifs with hri
    · subst hri
      simp [Store.source, hi]
    · rfl
  show { s with sources := _, notices := s.notices ++ [] } = s
  rw [List.append_nil]
  show { s with sources := s.sources.setIfInBounds r.index (s.source r) } = s
  rw [hsources]

theorem source_advance (hr : r.index < s.sources.size) (k : ℕ) (ns : List (Notice α)) :
    (s.advance r k ns).source r = (s.source r).skip k := by
  show (s.sources.setIfInBounds _ _).getD _ _ = _
  rw [getD_setIfInBounds, if_pos ⟨rfl, hr⟩]

theorem advance_advance (hr : r.index < s.sources.size) (j k : ℕ) (ns ms : List (Notice α)) :
    (s.advance r j ns).advance r k ms = s.advance r (j + k) (ns ++ ms) := by
  have hsource := source_advance hr j ns
  show { (s.advance r j ns).putSource r (((s.advance r j ns).source r).skip k) with
    notices := s.notices ++ ns ++ ms } = _
  rw [hsource, Source.skip_skip]
  simp [advance, putSource, Array.setIfInBounds_setIfInBounds, List.append_assoc]

end Store

namespace Run

variable {s : Store α} {r : SourceId}

theorem outcome_draw (hr : r.index < s.sources.size) (k : ℕ) (ns : List (Notice α)) :
    (draw r).outcome (s.advance r k ns) = (.ok ((s.source r).nth k), s.advance r (k + 1) ns) := by
  have hstep : (draw r).outcome (s.advance r k ns) =
      (.ok ((s.advance r k ns).source r).draw.1,
        (s.advance r k ns).putSource r ((s.advance r k ns).source r).draw.2) := rfl
  have hput : (s.advance r k ns).putSource r ((s.advance r k ns).source r).draw.2 =
      (s.advance r k ns).advance r 1 [] := by
    simp [Store.advance, Source.skip, Store.putSource]
  rw [hstep, hput, Store.advance_advance hr, List.append_nil, Store.source_advance hr]
  rfl

/-- Of a range that a source refuses, nothing is read. -/
theorem outcome_pick (hr : r.index < s.sources.size) (k : ℕ) (ns : List (Notice α)) (lo hi : α) :
    (pick r lo hi).outcome (s.advance r k ns) =
      match (s.source r).refusal? lo hi with
      | some e => (.error e, s.advance r k ns)
      | none => (.ok (uniform lo hi ((s.source r).nth k)), s.advance r (k + 1) ns) := by
  have hrefusal : ((s.advance r k ns).source r).refusal? lo hi = (s.source r).refusal? lo hi := by
    rw [Store.source_advance hr, Source.refusal?_skip]
  simp only [pick]
  rw [outcome_bind_ok _ (outcome_get _), hrefusal]
  cases (s.source r).refusal? lo hi with
  | some e => rfl
  | none => exact outcome_bind_ok _ (outcome_draw hr k ns)

theorem outcome_note (s : Store α) (r : SourceId) (k : ℕ) (ns : List (Notice α)) (n : Notice α) :
    (note n).outcome (s.advance r k ns) = (.ok ⟨⟩, s.advance r k (ns ++ [n])) := by
  show ((.ok ⟨⟩ : Except (Fault α) Unit),
    { s.putSource r ((s.source r).skip k) with notices := s.notices ++ ns ++ [n] }) = _
  rw [List.append_assoc]
  rfl

end Run

/-! ### What numbers that are read do not change -/

section

variable {s t : Store α} (h : s.Same t)

include h

theorem Weight.factor_same (w : Weight α) (point : List (String × Given α)) :
    w.factor t point = w.factor s point :=
  Weight.factor_congr rfl <| Weight.argument_congr (by rw [h.registry])
    (fun n _ _ => h.value? w.vars n) (h.value? w.pars)

theorem Decay.evaluateAt_same (d : Decay α) (m12 m13 : Value α) (m23 : Option (Value α)) :
    d.evaluateAt t m12 m13 m23 = d.evaluateAt s m12 m13 m23 := by
  have hamplitude : ∀ a b c, d.amplitude.evaluate t a b c = d.amplitude.evaluate s a b c :=
    Amplitude.evaluate_of_values fun r _ => h.value? r
  have hproduct : ∀ (point : List (String × Given α)) ws product,
      weightProduct t point ws product = weightProduct s point ws product := by
    intro point ws
    induction ws with
    | nil => exact fun _ => rfl
    | cons w rest ih =>
      intro product
      simp only [weightProduct, Weight.factor_same h, ih]
  simp only [evaluateAt, densityAt, intensity, weight, hamplitude, hproduct, h.state]

end

/-! ### Candidates -/

namespace Decay

/-- The point of two numbers between zero and one. -/
def candidate (p : PhaseSpace α) (u v : α) : α × α × α :=
  let m12 := uniform (p.sqMin .of12) (p.sqMax .of12) u
  let m13 := uniform (p.sqMin .of13) (p.sqMax .of13) v
  (m12, m13, p.third m12 m13)

/-- The candidate that starts at number `i` of a stream: m12 and m13 are scaled to their
ranges, and m23 is what they leave over. -/
def nominee (d : Decay α) (u : ℕ → α) (i : ℕ) : α × α × α :=
  let p := d.space
  let m12 := p.sqMin .of12 + (p.sqMax .of12 - p.sqMin .of12) * u i
  let m13 := p.sqMin .of13 + (p.sqMax .of13 - p.sqMin .of13) * u (i + 1)
  (m12, m13, p.sqSum - m12 - m13)

/-- Whether the candidate lies in the Dalitz region. -/
def enters (d : Decay α) (u : ℕ → α) (i : ℕ) : Bool :=
  let (a, b, c) := d.nominee u i
  d.space.contains Scalar.square a b c

/-- The density of the candidate, which is a single number. -/
def densityOf (s : Store α) (d : Decay α) (u : ℕ → α) (i : ℕ) : Except (Fault α) α := do
  let (a, b, c) := d.nominee u i
  (← d.evaluateAt s (.scalar a) (.scalar b) (some (.scalar c))).single?

/-- How high the third number reaches on the scale from zero to the envelope. -/
def bar (s : Store α) (d : Decay α) (u : ℕ → α) (i : ℕ) : α :=
  uniform 0.0 (s.state d.state).envelope (u (i + 2))

/-- What there is to say about a candidate: that it lies in the region and its density
exceeds the envelope. -/
def remarks (s : Store α) (d : Decay α) (u : ℕ → α) (i : ℕ) : List (Notice α) :=
  let (a, b, c) := d.nominee u i
  let envelope := (s.state d.state).envelope
  match d.enters u i, d.densityOf s u i with
  | true, .ok v =>
    if Scalar.lt envelope v then [.envelopeExceeded d.head.name v a b c envelope] else []
  | _, _ => []

/-- The candidate lies in the region, and its density is above the third number. -/
def Accepts (s : Store α) (d : Decay α) (u : ℕ → α) (i : ℕ) : Prop :=
  d.enters u i = true ∧ ∃ v, d.densityOf s u i = .ok v ∧ Scalar.lt (d.bar s u i) v = true

/-- Nothing stands in the way of a judgement: the source takes the ranges of m12 and m13, and
if the candidate lies in the region, it has a density and the source takes the range up to the
envelope. -/
structure Judged (s : Store α) (d : Decay α) (x : Source α) (i : ℕ) : Prop where
  range12 : x.refusal? (d.space.sqMin .of12) (d.space.sqMax .of12) = none
  range13 : x.refusal? (d.space.sqMin .of13) (d.space.sqMax .of13) = none
  density : d.enters x.nth i = true → ∃ v, d.densityOf s x.nth i = .ok v
  scale : d.enters x.nth i = true → x.refusal? 0.0 (s.state d.state).envelope = none

/-- The candidate is judged, and it lies outside or its density is not above the third
number. -/
def Refuses (s : Store α) (d : Decay α) (x : Source α) (i : ℕ) : Prop :=
  d.Judged s x i ∧ ¬ d.Accepts s x.nth i

/-- What stands in the way of a judgement, the first number that is not read by then, and what
there is to say by then. -/
inductive Fails (s : Store α) (d : Decay α) (x : Source α) (i : ℕ) :
    Fault α → ℕ → List (Notice α) → Prop
  /-- The source refuses the range of m12. -/
  | range12 (e : Fault α) : x.refusal? (d.space.sqMin .of12) (d.space.sqMax .of12) = some e →
      Fails s d x i e i []
  /-- The source refuses the range of m13. -/
  | range13 (e : Fault α) : x.refusal? (d.space.sqMin .of12) (d.space.sqMax .of12) = none →
      x.refusal? (d.space.sqMin .of13) (d.space.sqMax .of13) = some e →
      Fails s d x i e (i + 1) []
  /-- The density of a candidate in the region cannot be computed. -/
  | density (e : Fault α) : x.refusal? (d.space.sqMin .of12) (d.space.sqMax .of12) = none →
      x.refusal? (d.space.sqMin .of13) (d.space.sqMax .of13) = none →
      d.enters x.nth i = true → d.densityOf s x.nth i = .error e →
      Fails s d x i e (i + 2) []
  /-- The source refuses the range up to the envelope. -/
  | scale (e : Fault α) (v : α) :
      x.refusal? (d.space.sqMin .of12) (d.space.sqMax .of12) = none →
      x.refusal? (d.space.sqMin .of13) (d.space.sqMax .of13) = none →
      d.enters x.nth i = true → d.densityOf s x.nth i = .ok v →
      x.refusal? 0.0 (s.state d.state).envelope = some e →
      Fails s d x i e (i + 2) (d.remarks s x.nth i)

/-- Where the next candidate starts: only one that lies in the region has a third
number. -/
def next (d : Decay α) (u : ℕ → α) (i : ℕ) : ℕ := if d.enters u i then i + 3 else i + 2

/-- Where candidate `k` of a search starts that starts at number `i`. -/
def start (d : Decay α) (u : ℕ → α) (i k : ℕ) : ℕ := (d.next u)^[k] i

/-- What there is to say about the first `k` candidates, in order. -/
def remarksUpTo (s : Store α) (d : Decay α) (u : ℕ → α) (i k : ℕ) : List (Notice α) :=
  (List.range k).flatMap fun j => d.remarks s u (d.start u i j)

/-- How a search among `budget` candidates ends that starts at number `i`: what it finds,
the first number that it has not read, and its notices. -/
inductive Finds (s : Store α) (d : Decay α) (x : Source α) (i budget : ℕ) :
    Except (Fault α) (Option (α × α × α)) → ℕ → List (Notice α) → Prop
  /-- Candidate `k` is the first that is accepted. -/
  | accepted (k : ℕ) : k < budget → (∀ j < k, d.Refuses s x (d.start x.nth i j)) →
      d.Judged s x (d.start x.nth i k) → d.Accepts s x.nth (d.start x.nth i k) →
      Finds s d x i budget (.ok (some (d.nominee x.nth (d.start x.nth i k))))
        (d.start x.nth i (k + 1)) (d.remarksUpTo s x.nth i (k + 1))
  /-- Candidate `k` cannot be judged, and those before it are refused. -/
  | failing (k : ℕ) (e : Fault α) (stop : ℕ) (ns : List (Notice α)) : k < budget →
      (∀ j < k, d.Refuses s x (d.start x.nth i j)) →
      d.Fails s x (d.start x.nth i k) e stop ns →
      Finds s d x i budget (.error e) stop (d.remarksUpTo s x.nth i k ++ ns)
  /-- All candidates are refused. -/
  | nothing : (∀ j < budget, d.Refuses s x (d.start x.nth i j)) →
      Finds s d x i budget (.ok none) (d.start x.nth i budget) (d.remarksUpTo s x.nth i budget)

variable {s : Store α} {d : Decay α} {u : ℕ → α} {x : Source α} {r : SourceId}

theorem remarksUpTo_succ (s : Store α) (d : Decay α) (u : ℕ → α) (i k : ℕ) :
    d.remarksUpTo s u i (k + 1) = d.remarks s u i ++ d.remarksUpTo s u (d.next u i) k := by
  unfold remarksUpTo
  rw [List.range_succ_eq_map, List.flatMap_cons, List.flatMap_map]
  rfl

/-- What holds of the first candidate and of those that follow holds of all. -/
theorem forall_start {P : ℕ → Prop} {i k : ℕ} (hfirst : P i)
    (hrest : ∀ j < k, P (d.start u (d.next u i) j)) : ∀ j < k + 1, P (d.start u i j)
  | 0, _ => hfirst
  | j + 1, hj => hrest j (Nat.lt_of_succ_lt_succ hj)

/-- A candidate that is refused only puts the search off. -/
theorem Finds.later {i budget stop : ℕ} {found : Except (Fault α) (Option (α × α × α))}
    {ns : List (Notice α)} (hfirst : d.Refuses s x i)
    (h : Finds s d x (d.next x.nth i) budget found stop ns) :
    Finds s d x i (budget + 1) found stop (d.remarks s x.nth i ++ ns) := by
  cases h with
  | accepted k hk hrefused hjudged haccepted =>
    rw [← remarksUpTo_succ]
    exact .accepted (k + 1) (Nat.succ_lt_succ hk) (forall_start hfirst hrefused) hjudged haccepted
  | failing k e stop ns hk hrefused hfails =>
    rw [← List.append_assoc, ← remarksUpTo_succ]
    exact .failing (k + 1) e stop ns (Nat.succ_lt_succ hk) (forall_start hfirst hrefused) hfails
  | nothing hrefused =>
    rw [← remarksUpTo_succ]
    exact .nothing (forall_start hfirst hrefused)

/-- The first candidate is accepted. -/
theorem Finds.first {i : ℕ} (budget : ℕ) (hjudged : d.Judged s x i)
    (haccepted : d.Accepts s x.nth i) :
    Finds s d x i (budget + 1) (.ok (some (d.nominee x.nth i))) (d.next x.nth i)
      (d.remarks s x.nth i) := by
  have hfinds : Finds s d x i (budget + 1) _ _ _ :=
    .accepted 0 (Nat.succ_pos _) (fun _ h => absurd h (Nat.not_lt_zero _)) hjudged haccepted
  simpa [remarksUpTo, start] using hfinds

/-- The first candidate cannot be judged. -/
theorem Finds.stopped {i stop : ℕ} {e : Fault α} {ns : List (Notice α)} (budget : ℕ)
    (hfails : d.Fails s x i e stop ns) : Finds s d x i (budget + 1) (.error e) stop ns :=
  .failing 0 e stop ns (Nat.succ_pos _) (fun _ h => absurd h (Nat.not_lt_zero _)) hfails

/-! ### Searching -/

section

variable (hr : r.index < s.sources.size) (hx : s.source r = x)

include hr hx

theorem outcome_nextCandidate (i : ℕ) (ns : List (Notice α)) :
    (nextCandidate d.space r).outcome (s.advance r i ns) =
      match x.refusal? (d.space.sqMin .of12) (d.space.sqMax .of12),
        x.refusal? (d.space.sqMin .of13) (d.space.sqMax .of13) with
      | some e, _ => (.error e, s.advance r i ns)
      | none, some e => (.error e, s.advance r (i + 1) ns)
      | none, none => (.ok (candidate d.space (x.nth i) (x.nth (i + 1))),
          s.advance r (i + 2) ns) := by
  subst hx
  simp only [nextCandidate]
  have hfirst := Run.outcome_pick hr i ns (d.space.sqMin .of12) (d.space.sqMax .of12)
  have hsecond := Run.outcome_pick hr (i + 1) ns (d.space.sqMin .of13) (d.space.sqMax .of13)
  cases h12 : (s.source r).refusal? (d.space.sqMin .of12) (d.space.sqMax .of12) with
  | some e =>
    rw [h12] at hfirst
    exact Run.outcome_bind_error _ hfirst
  | none =>
    rw [h12] at hfirst
    rw [Run.outcome_bind_ok _ hfirst]
    cases h13 : (s.source r).refusal? (d.space.sqMin .of13) (d.space.sqMax .of13) with
    | some e =>
      rw [h13] at hsecond
      exact Run.outcome_bind_error _ hsecond
    | none =>
      rw [h13] at hsecond
      exact Run.outcome_bind_ok _ hsecond

omit hr hx in
theorem remarks_of_density {i : ℕ} {v : α} (henters : d.enters u i = true)
    (hdensity : d.densityOf s u i = .ok v) :
    d.remarks s u i =
      if Scalar.lt (s.state d.state).envelope v then
        [.envelopeExceeded d.head.name v (d.nominee u i).1 (d.nominee u i).2.1
          (d.nominee u i).2.2 (s.state d.state).envelope]
      else [] := by
  unfold remarks
  rw [henters, hdensity]

/-- The third number of a candidate is compared with a density. -/
theorem outcome_compare {β : Type} (i : ℕ) (ns : List (Notice α)) (v : α) (above below : Run α β) :
    (do if Scalar.lt (← Run.pick r 0.0 (s.state d.state).envelope) v then above else below).outcome
        (s.advance r (i + 2) ns) =
      match x.refusal? 0.0 (s.state d.state).envelope with
      | some e => (.error e, s.advance r (i + 2) ns)
      | none =>
        if Scalar.lt (d.bar s x.nth i) v then above.outcome (s.advance r (i + 3) ns)
        else below.outcome (s.advance r (i + 3) ns) := by
  subst hx
  have hpick := Run.outcome_pick hr (i + 2) ns 0.0 (s.state d.state).envelope
  cases hscale : (s.source r).refusal? 0.0 (s.state d.state).envelope with
  | some e =>
    rw [hscale] at hpick
    exact Run.outcome_bind_error _ hpick
  | none =>
    rw [hscale] at hpick
    rw [Run.outcome_bind_ok _ hpick]
    show (if Scalar.lt (d.bar s (s.source r).nth i) v then above else below).outcome _ = _
    split_ifs <;> rfl

/-- **A candidate in the region**: its density fails, or the source refuses the range up to the
envelope, or the density is compared with a third number. -/
theorem search_inside {i : ℕ} (henters : d.enters x.nth i = true)
    (h12 : x.refusal? (d.space.sqMin .of12) (d.space.sqMax .of12) = none)
    (h13 : x.refusal? (d.space.sqMin .of13) (d.space.sqMax .of13) = none)
    (ns : List (Notice α)) (left : ℕ) :
    (d.search (s.state d.state).envelope r (left + 1)).outcome (s.advance r i ns) =
      match d.densityOf s x.nth i with
      | .error e => (.error e, s.advance r (i + 2) ns)
      | .ok v =>
        match x.refusal? 0.0 (s.state d.state).envelope with
        | some e => (.error e, s.advance r (i + 2) (ns ++ d.remarks s x.nth i))
        | none =>
          if Scalar.lt (d.bar s x.nth i) v then
            (.ok (some (d.nominee x.nth i)), s.advance r (i + 3) (ns ++ d.remarks s x.nth i))
          else
            (d.search (s.state d.state).envelope r left).outcome
              (s.advance r (i + 3) (ns ++ d.remarks s x.nth i)) := by
  have hcandidate : (nextCandidate d.space r).outcome (s.advance r i ns) =
      (.ok (d.nominee x.nth i), s.advance r (i + 2) ns) := by
    rw [outcome_nextCandidate hr hx, h12, h13]
    rfl
  have hinside : d.space.contains Scalar.square (d.nominee x.nth i).1 (d.nominee x.nth i).2.1
      (d.nominee x.nth i).2.2 = true := henters
  -- the density is computed in the store that two draws have left
  have hread : (Run.reading fun t => do
      (← d.evaluateAt t (.scalar (d.nominee x.nth i).1) (.scalar (d.nominee x.nth i).2.1)
        (some (.scalar (d.nominee x.nth i).2.2))).single?).outcome (s.advance r (i + 2) ns) =
      (d.densityOf s x.nth i, s.advance r (i + 2) ns) := by
    rw [Run.outcome_reading, Decay.evaluateAt_same (s.same_advance r _ _)]
    rfl
  simp only [search]
  rw [Run.outcome_bind_ok _ hcandidate, hinside, Bool.not_true, if_neg Bool.false_ne_true]
  cases hdensity : d.densityOf s x.nth i with
  | error e =>
    rw [hdensity] at hread
    exact Run.outcome_bind_error _ hread
  | ok v =>
    rw [hdensity] at hread
    rw [Run.outcome_bind_ok _ hread, remarks_of_density henters hdensity]
    by_cases hover : Scalar.lt (s.state d.state).envelope v = true
    · rw [if_pos hover, if_pos hover, Run.outcome_bind_ok _ (Run.outcome_note s r _ _ _)]
      exact outcome_compare hr hx i _ v _ _
    · rw [if_neg hover, if_neg hover, List.append_nil]
      exact outcome_compare hr hx i ns v _ _

/-- **One candidate of a search**: it stops the search, or it is accepted, or it is refused and
the search goes on behind it. -/
theorem search_succ (i : ℕ) (ns : List (Notice α)) (left : ℕ) :
    let run := (d.search (s.state d.state).envelope r (left + 1)).outcome (s.advance r i ns)
    (∃ e stop ms, d.Fails s x i e stop ms ∧ run = (.error e, s.advance r stop (ns ++ ms))) ∨
    (d.Judged s x i ∧ d.Accepts s x.nth i ∧
      run = (.ok (some (d.nominee x.nth i)),
        s.advance r (d.next x.nth i) (ns ++ d.remarks s x.nth i))) ∨
    (d.Refuses s x i ∧ run = (d.search (s.state d.state).envelope r left).outcome
      (s.advance r (d.next x.nth i) (ns ++ d.remarks s x.nth i))) := by
  intro run
  have hcandidate := outcome_nextCandidate (d := d) hr hx i ns
  cases h12 : x.refusal? (d.space.sqMin .of12) (d.space.sqMax .of12) with
  | some e =>
    rw [h12] at hcandidate
    refine .inl ⟨e, i, [], .range12 e h12, ?_⟩
    rw [List.append_nil]
    exact Run.outcome_bind_error _ hcandidate
  | none =>
    cases h13 : x.refusal? (d.space.sqMin .of13) (d.space.sqMax .of13) with
    | some e =>
      rw [h12, h13] at hcandidate
      refine .inl ⟨e, i + 1, [], .range13 e h12 h13, ?_⟩
      rw [List.append_nil]
      exact Run.outcome_bind_error _ hcandidate
    | none =>
      cases henters : d.enters x.nth i with
      | false =>
        rw [h12, h13] at hcandidate
        have houtside : d.enters x.nth i ≠ true := by rw [henters]; exact Bool.false_ne_true
        have hnext : d.next x.nth i = i + 2 := if_neg houtside
        have hremarks : d.remarks s x.nth i = [] := by simp [remarks, henters]
        refine .inr (.inr ⟨⟨⟨h12, h13, fun h => absurd h houtside, fun h => absurd h houtside⟩,
          fun h => houtside h.1⟩, ?_⟩)
        rw [hnext, hremarks, List.append_nil]
        simp only [run, search]
        rw [Run.outcome_bind_ok _ hcandidate]
        exact congrArg (Run.outcome · _) (if_pos (by rw [← Bool.not_false, ← henters]; rfl))
      | true =>
        have hnext : d.next x.nth i = i + 3 := if_pos henters
        have hrun : run = _ := search_inside (d := d) hr hx henters h12 h13 ns left
        cases hdensity : d.densityOf s x.nth i with
        | error e =>
          rw [hdensity] at hrun
          refine .inl ⟨e, i + 2, [], .density e h12 h13 henters hdensity, ?_⟩
          rw [List.append_nil]
          exact hrun
        | ok v =>
          cases hscale : x.refusal? 0.0 (s.state d.state).envelope with
          | some e =>
            rw [hdensity, hscale] at hrun
            exact .inl ⟨e, i + 2, _, .scale e v h12 h13 henters hdensity hscale, hrun⟩
          | none =>
            rw [hdensity, hscale] at hrun
            have hjudged : d.Judged s x i := ⟨h12, h13, fun _ => ⟨v, hdensity⟩, fun _ => hscale⟩
            rw [hnext]
            by_cases habove : Scalar.lt (d.bar s x.nth i) v = true
            · exact .inr (.inl ⟨hjudged, ⟨henters, v, hdensity, habove⟩,
                hrun.trans (if_pos habove)⟩)
            · refine .inr (.inr ⟨⟨hjudged, fun ⟨_, w, hw, hbar⟩ => habove ?_⟩,
                hrun.trans (if_neg habove)⟩)
              rwa [Except.ok.inj (hdensity.symm.trans hw)]

/-- **A search finds the first candidate that is accepted**, unless it is stopped. -/
theorem search_finds : ∀ (budget i : ℕ) (ns : List (Notice α)), ∃ found stop ms,
    d.Finds s x i budget found stop ms ∧
      (d.search (s.state d.state).envelope r budget).outcome (s.advance r i ns) =
        (found, s.advance r stop (ns ++ ms))
  | 0, i, ns => ⟨.ok none, i, [], .nothing fun _ h => absurd h (Nat.not_lt_zero _),
      by rw [List.append_nil]; rfl⟩
  | budget + 1, i, ns => by
    obtain ⟨e, stop, ms, hfails, hrun⟩ | ⟨hjudged, haccepted, hrun⟩ | ⟨hrefused, hrun⟩ :=
      search_succ (d := d) hr hx i ns budget
    · exact ⟨_, _, _, Finds.stopped budget hfails, hrun⟩
    · exact ⟨_, _, _, Finds.first budget hjudged haccepted, hrun⟩
    · obtain ⟨found, stop, ms, hfinds, hrest⟩ :=
        search_finds budget (d.next x.nth i) (ns ++ d.remarks s x.nth i)
      refine ⟨found, stop, d.remarks s x.nth i ++ ms, hfinds.later hrefused, ?_⟩
      rw [hrun, hrest, List.append_assoc]

end

/-! ### Drawing -/

/-- How a draw ends that starts at number `i` of a stream: the event, the first number that
is not read, and the notices. -/
inductive Draws (s : Store α) (d : Decay α) (x : Source α) (strict : Bool) (i : ℕ) :
    Except (Fault α) (α × α × α) → ℕ → List (Notice α) → Prop
  /-- Candidate `k` is the first that is accepted. -/
  | accepted (k : ℕ) : k < (s.state d.state).maxAttempts.toNat →
      (∀ j < k, d.Refuses s x (d.start x.nth i j)) → d.Judged s x (d.start x.nth i k) →
      d.Accepts s x.nth (d.start x.nth i k) →
      Draws s d x strict i (.ok (d.nominee x.nth (d.start x.nth i k))) (d.start x.nth i (k + 1))
        (d.remarksUpTo s x.nth i (k + 1))
  /-- Candidate `k` cannot be judged, and those before it are refused. -/
  | failing (k : ℕ) (e : Fault α) (stop : ℕ) (ns : List (Notice α)) :
      k < (s.state d.state).maxAttempts.toNat →
      (∀ j < k, d.Refuses s x (d.start x.nth i j)) →
      d.Fails s x (d.start x.nth i k) e stop ns →
      Draws s d x strict i (.error e) stop (d.remarksUpTo s x.nth i k ++ ns)
  /-- All candidates are refused, which is a failure. -/
  | exhausted : strict = true →
      (∀ j < (s.state d.state).maxAttempts.toNat, d.Refuses s x (d.start x.nth i j)) →
      Draws s d x strict i (.error (.exhausted d.head.name (s.state d.state).maxAttempts))
        (d.start x.nth i (s.state d.state).maxAttempts.toNat)
        (d.remarksUpTo s x.nth i (s.state d.state).maxAttempts.toNat)
  /-- All candidates are refused, and the point of all zeros stands for an event. -/
  | nothing : strict = false →
      (∀ j < (s.state d.state).maxAttempts.toNat, d.Refuses s x (d.start x.nth i j)) →
      Draws s d x strict i (.ok (0.0, 0.0, 0.0))
        (d.start x.nth i (s.state d.state).maxAttempts.toNat)
        (d.remarksUpTo s x.nth i (s.state d.state).maxAttempts.toNat ++
          [.nothingAccepted d.head.name (s.state d.state).maxAttempts])

/-- How so many draws end, of which each starts where the one before it has stopped. -/
inductive Collects (s : Store α) (d : Decay α) (x : Source α) (strict : Bool) :
    ℕ → ℕ → Except (Fault α) (List (α × α × α)) → ℕ → List (Notice α) → Prop
  | none (i : ℕ) : Collects s d x strict i 0 (.ok []) i []
  | more {i j k n : ℕ} {event : α × α × α} {rest : Except (Fault α) (List (α × α × α))}
      {ns ms : List (Notice α)} : d.Draws s x strict i (.ok event) j ns →
      Collects s d x strict j n rest k ms →
      Collects s d x strict i (n + 1) (rest.map (event :: ·)) k (ns ++ ms)
  | stopped {i j n : ℕ} {e : Fault α} {ns : List (Notice α)} :
      d.Draws s x strict i (.error e) j ns → Collects s d x strict i (n + 1) (.error e) j ns

section

variable (hr : r.index < s.sources.size) (hx : s.source r = x) (strict : Bool)

include hr hx

/-- **An event is drawn as declared**, from wherever the stream has come to. -/
theorem generate_draws (i : ℕ) (ns : List (Notice α)) : ∃ result stop ms,
    d.Draws s x strict i result stop ms ∧
      (d.generate r strict).outcome (s.advance r i ns) =
        (result, s.advance r stop (ns ++ ms)) := by
  obtain ⟨found, stop, ms, hfinds, hsearch⟩ :=
    search_finds (d := d) hr hx (s.state d.state).maxAttempts.toNat i ns
  have hstate : (s.advance r i ns).state d.state = s.state d.state :=
    (s.same_advance r i ns).state d.state
  simp only [generate]
  rw [Run.outcome_bind_ok _ (Run.outcome_get _), hstate]
  cases hfinds with
  | accepted k hk hrefused hjudged haccepted =>
    exact ⟨_, _, _, .accepted k hk hrefused hjudged haccepted, Run.outcome_bind_ok _ hsearch⟩
  | failing k e stop ms hk hrefused hfails =>
    exact ⟨_, _, _, .failing k e stop ms hk hrefused hfails, Run.outcome_bind_error _ hsearch⟩
  | nothing hrefused =>
    rw [Run.outcome_bind_ok _ hsearch]
    cases strict with
    | true => exact ⟨_, _, _, .exhausted rfl hrefused, Run.outcome_bind_error _ rfl⟩
    | false =>
      refine ⟨_, _, _, .nothing rfl hrefused, ?_⟩
      rw [← List.append_assoc]
      exact Run.outcome_bind_ok _ (Run.outcome_note s r _ _ _)

/-- **Events are drawn one after the other from one stream.** -/
theorem sample_collects : ∀ (n i : ℕ) (ns : List (Notice α)), ∃ result stop ms,
    d.Collects s x strict i n result stop ms ∧
      (d.sample r strict n).outcome (s.advance r i ns) =
        (result, s.advance r stop (ns ++ ms))
  | 0, i, ns => ⟨_, _, _, .none i, by rw [List.append_nil]; rfl⟩
  | n + 1, i, ns => by
    obtain ⟨result, j, ms, hdraws, hgenerate⟩ := generate_draws (d := d) hr hx strict i ns
    simp only [sample]
    cases result with
    | error e => exact ⟨_, _, _, .stopped hdraws, Run.outcome_bind_error _ hgenerate⟩
    | ok event =>
      obtain ⟨rest, k, ls, hcollects, hsample⟩ := sample_collects n j (ns ++ ms)
      refine ⟨_, _, _, .more hdraws hcollects, ?_⟩
      rw [Run.outcome_bind_ok _ hgenerate, ← List.append_assoc]
      cases rest with
      | error e => exact Run.outcome_bind_error _ hsample
      | ok events => exact Run.outcome_bind_ok _ hsample

end

/-- A sample can be drawn in two parts, whether they fail or not. -/
theorem sample_add (d : Decay α) (r : SourceId) (strict : Bool) (n m : ℕ) :
    d.sample r strict (n + m) = do
      let first ← d.sample r strict n
      let rest ← d.sample r strict m
      return first ++ rest := by
  induction n with
  | zero => simp [sample]
  | succ n ih => simp [Nat.succ_add n m, sample, ih]

omit [Scalar α] in
theorem columns_append (d : Decay α) (first rest : List (α × α × α)) :
    d.columns (first ++ rest) =
      List.zipWith (fun x y => (x.1, x.2 ++ y.2)) (d.columns first) (d.columns rest) := by
  simp [columns, byName]

/-- **Rejection sampling returns the first acceptable candidate.** An event is drawn by role
names as `Draws` declares, in a store in which the source has come to the first number that
is not read. A sample holds the events of so many draws by columns, each from where the one
before it has stopped, so two samples in a row are one. -/
theorem draws_first_acceptable (s : Store α) (d : Decay α) (r : SourceId) (strict : Bool)
    (hr : r.index < s.sources.size) :
    (∃ result stop notices, d.Draws s (s.source r) strict 0 result stop notices ∧
      ((fun (a, b, c) => d.byName a b c) <$> d.generate r strict).outcome s =
        (result.map fun (a, b, c) => d.byName a b c, s.advance r stop notices)) ∧
    (∀ n, ∃ result stop notices, d.Collects s (s.source r) strict 0 n result stop notices ∧
      (d.columns <$> d.sample r strict n).outcome s =
        (result.map d.columns, s.advance r stop notices)) ∧
    ∀ n m, d.columns <$> d.sample r strict (n + m) = do
      let first ← d.columns <$> d.sample r strict n
      let rest ← d.columns <$> d.sample r strict m
      return List.zipWith (fun x y => (x.1, x.2 ++ y.2)) first rest := by
  refine ⟨?_, fun n => ?_, fun n m => ?_⟩
  · obtain ⟨result, stop, ms, hdraws, hrun⟩ := generate_draws (d := d) hr rfl strict 0 []
    rw [Store.advance_zero, List.nil_append] at hrun
    exact ⟨result, stop, ms, hdraws, Run.outcome_map _ hrun⟩
  · obtain ⟨result, stop, ms, hcollects, hrun⟩ := sample_collects (d := d) hr rfl strict n 0 []
    rw [Store.advance_zero, List.nil_append] at hrun
    exact ⟨result, stop, ms, hcollects, Run.outcome_map _ hrun⟩
  · rw [sample_add]
    simp [columns_append]

end Decay

namespace Sample

/-- One density, under an envelope that is too low for it, and a source whose first
candidate lies outside the Dalitz region. -/
def drawing : Store ℚ :=
  { Store.empty with
    registries := #[.empty, .empty]
    states := #[⟨1, 1, 1 / 2, 2⟩]
    sources := #[.ofSeed 7 [1 / 2, 9 / 10, 1 / 2, 1 / 2, 0, 1 / 3]] }

def constantDecay : Decay ℚ :=
  ⟨⟨"Decay3Body", ⟨0⟩, ⟨1⟩⟩, .flat ⟨1⟩ (.ofReal 1), ⟨7, 0, 1, 0⟩, "m12", "m13", "m23", [], ⟨0⟩, ⟨0⟩⟩

theorem drawing_drawn (k : ℕ) : ((drawing.source ⟨0⟩).skip k).drawn = k := by
  obtain ⟨state, h⟩ := Source.skip_ofSeed 7 [1 / 2, 9 / 10, 1 / 2, 1 / 2, 0, (1 / 3 : ℚ)] k
  exact congrArg Source.drawn h

end Sample

/-- The second candidate is accepted; it is the fifth number that is read last, and one
notice says that the density exceeds the envelope. -/
theorem Decay.draws_first_acceptable_second : ∃ notices, notices.length = 1 ∧
    Sample.constantDecay.Draws Sample.drawing (Sample.drawing.source ⟨0⟩) true 0
      (.ok (25, 18, 7)) 5 notices ∧
    (((fun (a, b, c) => Sample.constantDecay.byName a b c) <$>
      Sample.constantDecay.generate ⟨0⟩ true).outcome Sample.drawing).1 =
        .ok [("m12", 25), ("m13", 18), ("m23", 7)] := by
  obtain ⟨⟨result, stop, notices, hdraws, hrun⟩, -, -⟩ :=
    draws_first_acceptable Sample.drawing Sample.constantDecay ⟨0⟩ true (by decide)
  have hevaluated : ((((fun (a, b, c) => Sample.constantDecay.byName a b c) <$>
        Sample.constantDecay.generate ⟨0⟩ true).outcome Sample.drawing).1.toOption,
      ((((fun (a, b, c) => Sample.constantDecay.byName a b c) <$>
        Sample.constantDecay.generate ⟨0⟩ true).outcome Sample.drawing).2.source ⟨0⟩).drawn,
      (((fun (a, b, c) => Sample.constantDecay.byName a b c) <$>
        Sample.constantDecay.generate ⟨0⟩ true).outcome Sample.drawing).2.notices.length) =
      (some [("m12", 25), ("m13", 18), ("m23", 7)], 5, 1) := by
    decide +kernel
  rw [hrun, Prod.mk.injEq, Prod.mk.injEq] at hevaluated
  obtain ⟨hevent, hstop, hnotices⟩ := hevaluated
  obtain rfl : stop = 5 := by
    rw [Store.source_advance (by decide), Sample.drawing_drawn] at hstop
    exact hstop
  cases result with
  | error e => cases hevent
  | ok event =>
    obtain ⟨a, b, c⟩ := event
    obtain ⟨rfl, rfl, rfl⟩ : a = 25 ∧ b = 18 ∧ c = 7 := by
      simpa [Except.map, Except.toOption, Decay.byName, Sample.constantDecay] using hevent
    exact ⟨notices, hnotices, hdraws, by rw [hrun]; rfl⟩

namespace Sample

/-- The mass and the width of a resonance, an envelope, and a source that always yields one
half. -/
def halves (mass envelope : ℚ) (guarded : Bool) : Store Limited :=
  { Store.empty with
    cells := #[⟨.parameter, "m", .scalar mass, .scalar (0 : ℚ)⟩,
      ⟨.parameter, "g", .scalar (1 : ℚ), .scalar (0 : ℚ)⟩]
    registries := #[.empty, (Registry.empty.insert "m" ⟨0⟩).insert "g" ⟨1⟩]
    states := #[⟨(1 : ℚ), 1, envelope, 1⟩]
    sources := #[{ Source.ofSeed 7 [(1 / 2 : ℚ)] with guarded := guarded }] }

/-- The density of the resonance. -/
def resonance : Decay Limited :=
  ⟨⟨"Decay3Body", ⟨0⟩, ⟨1⟩⟩, .resonance ⟨1⟩ "m" "g" .of12, ⟨(7 : ℚ), (0 : ℚ), (1 : ℚ), (0 : ℚ)⟩,
    "m12", "m13", "m23", [], ⟨0⟩, ⟨0⟩⟩

/-- No candidate is accepted, and yet no point stands for an event. -/
def Barren (s : Store Limited) : Prop :=
  (∀ j < (s.state ⟨0⟩).maxAttempts.toNat,
    ¬ resonance.Accepts s (s.source ⟨0⟩).nth (resonance.start (s.source ⟨0⟩).nth 0 j)) ∧
  ¬ ∃ event, ((resonance.generate ⟨0⟩ false).outcome s).1 = .ok event

/-- One candidate that is not accepted, and a draw that fails. -/
theorem Barren.of_one {s : Store Limited} (hattempts : (s.state ⟨0⟩).maxAttempts.toNat = 1)
    (hbelow : ((resonance.densityOf s (s.source ⟨0⟩).nth 0).toOption.all fun v =>
      !Scalar.lt (resonance.bar s (s.source ⟨0⟩).nth 0) v) = true)
    (hnone : ((resonance.generate ⟨0⟩ false).outcome s).1.toOption.isNone = true) :
    Barren s := by
  refine ⟨fun j hj haccepted => ?_, fun ⟨event, hevent⟩ => ?_⟩
  · obtain rfl : j = 0 := by omega
    obtain ⟨-, v, hv, habove⟩ := haccepted
    have hrefused : Scalar.lt (resonance.bar s (s.source ⟨0⟩).nth 0) v = false := by
      rw [show resonance.densityOf s (s.source ⟨0⟩).nth 0 = .ok v from hv] at hbelow
      simpa [Except.toOption] using hbelow
    exact Bool.false_ne_true (hrefused.symm.trans habove)
  · rw [hevent] at hnone
    cases hnone

end Sample

/-- So it is where the mass of a resonance has no finite square, and where a source refuses an
infinite envelope. -/
theorem Decay.not_draws_event :
    Sample.Barren (Sample.halves 20 1 false) ∧ Sample.Barren (Sample.halves 1 200 true) :=
  ⟨.of_one (by decide +kernel) (by decide +kernel) (by decide +kernel),
    .of_one (by decide +kernel) (by decide +kernel) (by decide +kernel)⟩

end DensityAlgebra
