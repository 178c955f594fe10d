/-
# The likelihood of a batch

The negative log likelihood of a batch is minus the sum of one term for each event. The sum
is taken in blocks and halves; where sums are exact, the grouping and the order do not
matter. Two batches together are then as unlikely as the one and the other, and a batch is
as unlikely in any order. For a decay density the same holds of batches of pairs m12 and m13.

A machine may square a number that stands alone in another way than the numbers of a column.
Then a decay density differs in the last place between an event alone and in a batch.

Key definitions: `Scalar.ExactSums`, `Scalar.plainSum`, `Density.LossByEvent`,
`Density.PairByPair`, `Tabulated`.
Key theorems: `Scalar.sum_eq_plainSum`, `Density.negLogLike_batch`, `Density.lossByEvent`,
`Density.pairByPair`, `Session.batches_event_by_event`,
`Session.not_batches_event_by_event`.
-/
import DensityAlgebra.Fit.Likelihood
import DensityAlgebra.Proofs.Batches
import Mathlib.Data.List.Perm.Basic
import Mathlib.Tactic.NormNum

namespace DensityAlgebra

variable {α : Type} [Scalar α]

/-! ### Exact sums -/

namespace Scalar

/-- Sums are the same in any order and in any grouping. -/
structure ExactSums (α : Type) [Scalar α] : Prop where
  assoc : ∀ x y z : α, x + y + z = x + (y + z)
  comm : ∀ x y : α, x + y = y + x
  zero : ∀ x : α, 0.0 + x = x
  neg : ∀ x y : α, -(x + y) = -x + -y

/-- The sum of the terms, one after the other. -/
def plainSum (xs : List α) : α := xs.foldr (· + ·) 0.0

variable (hα : ExactSums α)

include hα

theorem ExactSums.associative : Std.Associative (α := α) (· + ·) := ⟨hα.assoc⟩

theorem ExactSums.commutative : Std.Commutative (α := α) (· + ·) := ⟨hα.comm⟩

theorem plainSum_append (xs ys : List α) : plainSum (xs ++ ys) = plainSum xs + plainSum ys := by
  induction xs with
  | nil => exact (hα.zero _).symm
  | cons x xs ih =>
    show x + plainSum (xs ++ ys) = x + plainSum xs + plainSum ys
    rw [ih, hα.assoc]

theorem plainSum_perm {xs ys : List α} (h : xs.Perm ys) : plainSum xs = plainSum ys := by
  have := hα.associative
  have := hα.commutative
  exact h.foldr_op_eq

theorem sumLeft_eq (start : α) (xs : List α) : sumLeft start xs = start + plainSum xs := by
  induction xs generalizing start with
  | nil => exact ((hα.comm _ _).trans (hα.zero _)).symm
  | cons x xs ih =>
    show sumLeft (start + x) xs = start + (x + plainSum xs)
    rw [ih, hα.assoc]

/-- Rows of lanes add up to the sum of all. -/
theorem plainSum_zipWith : ∀ xs ys : List α, xs.length = ys.length →
    plainSum (List.zipWith (· + ·) xs ys) = plainSum xs + plainSum ys
  | [], [], _ => (hα.zero _).symm
  | x :: xs, y :: ys, h => by
    have := hα.associative
    have := hα.commutative
    have ih := plainSum_zipWith xs ys (Nat.succ.inj h)
    calc plainSum (List.zipWith (· + ·) (x :: xs) (y :: ys)) =
          x + y + plainSum (List.zipWith (· + ·) xs ys) := rfl
      _ = x + y + (plainSum xs + plainSum ys) := by rw [ih]
      _ = x + plainSum xs + (y + plainSum ys) := by ac_rfl

theorem joinLanes_eq (lanes : List α) : joinLanes lanes = plainSum lanes := by
  have := hα.associative
  have := hα.commutative
  unfold joinLanes
  split
  · rename_i a b c d e f g h
    have hlast : plainSum [a, b, c, d, e, f, g, h] = a + (b + (c + (d + (e + (f + (g + h)))))) := by
      show a + (b + (c + (d + (e + (f + (g + (h + 0.0))))))) = _
      rw [hα.comm h, hα.zero]
    rw [hlast]
    ac_rfl
  · rw [sumLeft_eq hα, hα.zero]

theorem sumLanes_eq (lanes xs : List α) (h : lanes.length = 8) :
    sumLanes lanes xs = plainSum lanes + plainSum xs := by
  induction lanes, xs using sumLanes.induct with
  | case1 lanes a b c d e f g h' rest ih =>
    have hrow : lanes.length = [a, b, c, d, e, f, g, h'].length := h
    unfold sumLanes
    rw [ih (by simp [h]), plainSum_zipWith hα _ _ hrow, hα.assoc, ← plainSum_append hα]
    rfl
  | case2 lanes rest hrest =>
    have hlast : sumLanes lanes rest = sumLeft (joinLanes lanes) rest := by
      unfold sumLanes
      split
      · exact (hrest _ _ _ _ _ _ _ _ _ rfl).elim
      · rfl
    rw [hlast, sumLeft_eq hα, joinLanes_eq hα]

theorem sumBlock_eq (xs : List α) : sumBlock xs = plainSum xs := by
  unfold sumBlock
  split
  · rename_i a b c d e f g h rest
    rw [sumLanes_eq hα _ _ rfl, ← plainSum_append hα]
    rfl
  · rw [sumLeft_eq hα, hα.zero]

theorem sumHalves_eq (xs : List α) : sumHalves xs = plainSum xs := by
  induction xs using sumHalves.induct with
  | case1 xs hlong ihl ihr =>
    unfold sumHalves
    rw [if_pos hlong, ihl, ihr, ← plainSum_append hα, List.take_append_drop]
  | case2 xs hshort =>
    unfold sumHalves
    rw [if_neg hshort, sumBlock_eq hα]

/-- **Where sums are exact, the sum in blocks is the plain sum.** -/
theorem sum_eq_plainSum (xs : List α) : sum xs = plainSum xs := by
  unfold sum
  rw [sumHalves_eq hα, hα.zero]

end Scalar

/-! ### The likelihood of columns -/

section

variable {E : Type} {s : Store α} {d : Density α}

/-- Values in a row are columns. -/
theorem Density.columns_sequence (vs : List (Value α)) : d.columns s (.sequence vs) = .ok vs := by
  show (vs.map Given.value).mapM (·.read) = _
  rw [List.mapM_map]
  exact (mapM_eq_ok_map fun _ _ => rfl).trans (congrArg _ (List.map_id vs))

/-- The columns of values that are given in any form, in the order of the names. -/
theorem Density.columns_assigned {v : String → Value α} {input : Input α}
    (h : input.Assigns (fun n => .value (v n)) (d.varNames s)) :
    d.columns s input = .ok ((d.varNames s).map v) := by
  cases input with
  | mapping entries =>
    refine mapM_eq_ok_map fun n hn => ?_
    obtain ⟨e, he, hv⟩ := h n hn
    rw [he]
    show e.toGiven.read = _
    rw [hv]
    rfl
  | row gs =>
    have hrow : Input.row gs = .sequence ((d.varNames s).map v) := by
      rw [show gs = _ from h, Input.sequence, List.map_map]
      rfl
    rw [hrow, columns_sequence]
  | _ => exact absurd h id

/-- How unlikely an event is. -/
def lossAt (floor : α) (f : E → α) (e : E) : α := Scalar.log (Scalar.max (f e) floor)

/-- The negative log likelihood of columns where the density has a value for each event. -/
theorem Density.negLogLike_columns {input : Input α} {columns : List (Value α)} {es : List E}
    {f : Except (Fault α) (E → α)} (hcolumns : d.columns s input = .ok columns)
    (hvalues : d.evaluate s (.sequence columns) = do return .column (es.map (← f))) (floor : α) :
    d.negLogLike s input floor = do return -Scalar.sum (es.map (lossAt floor (← f))) := by
  unfold negLogLike lossOf
  rw [hcolumns, ok_bind, hvalues]
  cases f with
  | error e => rfl
  | ok f =>
    show Except.ok (-Scalar.sum ((es.map f).map _)) = Except.ok _
    rw [List.map_map]
    rfl

/-- **The negative log likelihood of a batch** is minus the sum over its events. -/
theorem Density.negLogLike_batch {f : Except (Fault α) ((String → α) → α)}
    (h : d.InBatches s f) (floor : α) {es : List (String → α)} {input : Input α}
    (hinput : d.Gives s es input) :
    d.negLogLike s input floor = do return -Scalar.sum (es.map (lossAt floor (← f))) :=
  negLogLike_columns (columns_assigned hinput) (h es _ (Input.assigns_sequence _ _)) floor

/-- The negative log likelihood of what gives a batch is minus a sum over the events, of
batches together the sum of theirs, and the same in any order of the events. -/
structure Density.LossByEvent (s : Store α) (d : Density α) (Gives : List E → Input α → Prop)
    (f : Except (Fault α) (E → α)) (floor : α) : Prop where
  sum : ∀ (es : List E) (input : Input α), Gives es input → d.negLogLike s input floor = do
    let f ← f
    return -Scalar.plainSum (es.map fun e => Scalar.log (Scalar.max (f e) floor))
  append : ∀ (es es' : List E) (both input input' : Input α), Gives (es ++ es') both →
    Gives es input → Gives es' input' → d.negLogLike s both floor = do
      return (← d.negLogLike s input floor) + (← d.negLogLike s input' floor)
  perm : ∀ (es es' : List E) (input input' : Input α), es.Perm es' → Gives es input →
    Gives es' input' → d.negLogLike s input floor = d.negLogLike s input' floor

/-- **The likelihood goes event by event**, where sums are exact. -/
theorem Density.lossByEvent (hα : Scalar.ExactSums α) {Gives : List E → Input α → Prop}
    {f : Except (Fault α) (E → α)} {floor : α}
    (h : ∀ es input, Gives es input → d.negLogLike s input floor = do
      return -Scalar.sum (es.map (lossAt floor (← f)))) :
    d.LossByEvent s Gives f floor := by
  have hsum : ∀ es input, Gives es input → d.negLogLike s input floor = do
      return -Scalar.plainSum (es.map (lossAt floor (← f))) := by
    intro es input hinput
    rw [h es input hinput]
    simp only [Scalar.sum_eq_plainSum hα]
  refine ⟨hsum, fun es es' both input input' hboth hinput hinput' => ?_,
    fun es es' input input' hperm hinput hinput' => ?_⟩
  · rw [hsum _ _ hboth, hsum _ _ hinput, hsum _ _ hinput']
    cases f with
    | error e => rfl
    | ok f =>
      show Except.ok (-Scalar.plainSum ((es ++ es').map _)) = Except.ok (-_ + -_)
      rw [List.map_append, Scalar.plainSum_append hα, hα.neg]
  · rw [hsum _ _ hinput, hsum _ _ hinput']
    cases f with
    | error e => rfl
    | ok f => exact congrArg (fun x => Except.ok (-x)) (Scalar.plainSum_perm hα (hperm.map _))

end

/-! ### Pairs -/

/-- Two columns are given in a row: m12 and m13 of a batch. -/
def Input.Pairs (es : List (α × α)) (input : Input α) : Prop :=
  input = .sequence [.column (es.map (·.1)), .column (es.map (·.2))]

/-- Two values in a row are m12 and m13 of a decay density: it is evaluated in batches of such
pairs, and pair by pair if powers agree. -/
def Density.PairByPair (s : Store α) (d : Density α) : Prop :=
  ∀ k, d = .model (.decay k) → ∃ g : Except (Fault α) (α × α → α),
    (∀ es input, Input.Pairs es input → d.evaluate s input = do return .column (es.map (← g))) ∧
    (Scalar.PowersAgree α → ∀ e : α × α, d.evaluate s (.sequence [.scalar e.1, .scalar e.2]) =
      do return .scalar ((← g) e)) ∧
    (d.Integrable s → ∃ h, g = .ok h) ∧
    (Scalar.ExactSums α → ∀ floor, d.LossByEvent s Input.Pairs g floor)

/-- **A decay density is evaluated pair by pair.** -/
theorem Density.pairByPair {s : Store α} {d : Density α} (hs : s.Sound) (hd : d.Valid s)
    (hpars : s.Scalars d.pars) (helem : ∀ m ∈ d.models, m.Elementary) : d.PairByPair s := by
  rintro k rfl
  have hmem := List.mem_singleton_self (Model.decay k)
  have hscalars := hd.scalars hpars _ hmem
  have huniform := Decay.evaluate_pair_uniform (E := α × α) (fun h : Scalar.PowersAgree α => h) hs
    hd hscalars (helem _ hmem) (·.1) (·.2)
  obtain ⟨g, hevent, hbatch⟩ := huniform.exists_function
  have hcolumns : ∀ es input, Input.Pairs es input →
      (Density.model (.decay k)).evaluate s input = do return .column (es.map (← g)) := by
    rintro es input rfl
    exact hbatch es
  refine ⟨g, hcolumns, hevent, fun hint => ?_, fun hsums floor => ?_⟩
  · obtain ⟨x, hx⟩ := hint k hmem
    obtain ⟨f, hf⟩ := Decay.densityAt_returns (E := α × α) (fun h : Scalar.PowersAgree α => h) hd
      hscalars (·.1) (·.2) (fun e => k.space.third e.1 e.2) (helem _ hmem) hx
    have hroles : k.roles.Nodup :=
      Model.Valid.names_eq_roles hd ▸ (hs k.head.vars).distinct
    -- the batch of no pairs
    have hnone := (hbatch []).symm.trans ((Decay.evaluate_pair hroles _ _).trans (hf (.batch [])))
    cases g with
    | error e => cases hnone
    | ok h => exact ⟨h, rfl⟩
  · refine Density.lossByEvent hsums fun es input hinput => ?_
    obtain rfl := hinput
    exact negLogLike_columns (columns_sequence _) (hcolumns es _ rfl) floor

/-! ### Sessions -/

/-- **A batch is evaluated event by event.** In every session of arithmetic, let a density
have a variable and consist of normal, flat and decay densities, where every sum of
amplitudes has a term, and let its parameters be single numbers. Then for every batch of
events, in whatever form its columns are given, the density comes to a column as long as the
batch: at each event to what it comes to for the batch of this event only. For the event alone
it comes to the same if powers, where they are taken, are the same for a number alone and for
one of many. Columns of one length are always those of a batch, and two of its three columns
will do for a decay density. There are values if the program is whole and the decay densities
have integrals. If sums are exact, the negative log likelihood is minus the sum of the
logarithms at the events, of two batches together the sum of both, and the same in any order
of the events. -/
theorem Session.batches_event_by_event {calls : List (Call α)}
    (hcalls : Throughout Call.Arithmetic .start calls) {d : Density α}
    (hd : .density d ∈ (after calls).objects) (hvars : d.varNames (after calls).store ≠ [])
    (helem : ∀ m ∈ d.models, m.Elementary) (hpars : (after calls).store.Scalars d.pars) :
    (∀ (n : ℕ) (columns : List (List α)), (∀ c ∈ columns, c.length = n) →
      columns.length = (d.varNames (after calls).store).length → ∃ es : List (String → α),
        es.length = n ∧ columns = (d.varNames (after calls).store).map fun v => es.map (· v)) ∧
    d.PairByPair (after calls).store ∧
    ∃ f, d.InBatches (after calls).store f ∧
      ((d.TakesPowers → Scalar.PowersAgree α) → d.EventByEvent (after calls).store f) ∧
      (d.program.Whole → d.Integrable (after calls).store → ∃ g, f = .ok g) ∧
      (Scalar.ExactSums α → ∀ floor,
        d.LossByEvent (after calls).store (d.Gives (after calls).store) f floor) := by
  have hvalid := after_valid calls
  have hclosed := closed_after hcalls
  have hmodelled := modelled_after hcalls
  set σ := after calls
  have hdv : d.Valid σ.store := hvalid.objects _ hd
  refine ⟨fun n columns hn hlength => ?_, Density.pairByPair hvalid.sound hdv hpars helem, ?_⟩
  · exact exists_events (Registry.nodup_sortedNames (hvalid.sound d.vars).distinct) hn hlength
  · have hmodel : ∃ i, .leaf (.model i) ∈ d.program := by
      obtain ⟨n, hn⟩ := List.exists_mem_of_ne_nil _ hvars
      have hvar : (d.outline σ.store).vars.Nonempty := by
        refine ⟨n, ?_⟩
        cases d <;> exact Registry.mem_sortNames.mp hn
      rw [← d.outline_program σ.store]
      exact hmodelled d hd hvar
    obtain ⟨f, hbatches, hevents⟩ := Density.eventByEvent hdv hpars helem hmodel
    exact ⟨f, hbatches, hevents, hbatches.returns hdv hpars helem (hclosed _ hd),
      fun hsums floor => Density.lossByEvent hsums fun _ _ =>
        Density.negLogLike_batch hbatches floor⟩

namespace Rational

theorem pow_intCast (x : ℚ) (n : ℤ) : Scalar.pow x (n : ℚ) = x ^ n := by
  show (if (n : ℚ).den = 1 then x ^ (n : ℚ).num else _) = _
  rw [Rat.den_intCast, if_pos rfl, Rat.num_intCast]

/-- Powers of rational numbers agree. -/
theorem powersAgree : Scalar.PowersAgree ℚ := by
  have htwo : (2.0 : ℚ) = (2 : ℤ) := by norm_num
  have hsquare : ∀ x : ℚ, Scalar.pow x 2.0 = Scalar.selfProduct x := fun x => by
    rw [htwo, pow_intCast]
    exact zpow_two x
  refine ⟨hsquare, fun y x => ?_⟩
  have heq : ∀ {z : ℚ}, Scalar.eq y z = true → y = z := of_decide_eq_true
  unfold Scalar.sharedPower
  split_ifs with h2 h1 hhalf h0 hneg
  · rw [heq h2, hsquare]
  · have hone : (1.0 : ℚ) = (1 : ℤ) := by norm_num
    rw [heq h1, hone, pow_intCast, zpow_one]
  · have hroot : (0.5 : ℚ) = 1 / 2 := by norm_num
    have hden : ((1 : ℚ) / 2).den ≠ 1 := by decide +kernel
    rw [heq hhalf, hroot]
    show root x = if ((1 : ℚ) / 2).den = 1 then _ else if (1 : ℚ) / 2 = 1 / 2 then root x else 0
    rw [if_neg hden, if_pos rfl]
  · have hzero : (0.0 : ℚ) = (0 : ℤ) := by norm_num
    rw [heq h0, hzero, pow_intCast, zpow_zero]
    norm_num
  · have hminus : (-1.0 : ℚ) = (-1 : ℤ) := by norm_num
    rw [heq hneg, hminus, pow_intCast, zpow_neg_one]
    norm_num
  · rfl

/-- Sums of rational numbers are exact. -/
theorem exactSums : Scalar.ExactSums ℚ where
  assoc := add_assoc
  comm := add_comm
  zero x := by
    have hzero : (0.0 : ℚ) = 0 := by norm_num
    rw [hzero, zero_add]
  neg := neg_add

end Rational

namespace Sample

/-- The product of a normal density and a decay density with two interfering amplitudes. -/
def interfering : List (Call ℚ) :=
  [ .cell ⟨.variable, "m12", .scalar 0, .scalar 0⟩,
    .cell ⟨.variable, "m13", .scalar 0, .scalar 0⟩,
    .cell ⟨.variable, "m23", .scalar 0, .scalar 0⟩,
    .cell ⟨.variable, "t", .scalar 0, .scalar 0⟩,
    .cell ⟨.parameter, "m0", .scalar 2, .scalar 0⟩,
    .cell ⟨.parameter, "g0", .scalar 1, .scalar 0⟩,
    .cell ⟨.parameter, "re", .scalar 1, .scalar 0⟩,
    .cell ⟨.parameter, "im", .scalar 0, .scalar 0⟩,
    .flat (.ofReal 1),
    .resonance 4 5 "12",
    .sum [(6, 7, 8), (7, 6, 9)],
    .decay "Decay3Body" 0 1 2 10 ⟨7, 0, 1, 0⟩ (.ok 3) 14 (.ok 10) ⟨0⟩,
    .gaussian "Gaussian" 3 4 5,
    .make (.single (.held 12)),
    .make (.build .product 13 (.held 11)) ]

theorem interfering_arithmetic : Session.Throughout Call.Arithmetic .start interfering := by
  refine Session.Throughout.of_forall (fun c hc σ => ?_) _
  simp only [interfering, List.mem_cons, List.not_mem_nil, or_false] at hc
  rcases hc with rfl | rfl | rfl | rfl | rfl | rfl | rfl | rfl | rfl | rfl | rfl | rfl | rfl | rfl |
    rfl <;> trivial

/-- Whether the density has an integral, if it needs one. -/
def integrates (s : Store ℚ) : Model ℚ → Bool
  | .decay d => (d.integral s).isOk
  | _ => true

end Sample

/-- The product of a normal density and a decay density with two interfering amplitudes is
evaluated event by event, and has values. -/
theorem Session.batches_event_by_event_interfering : ∃ p g,
    let σ := Session.after Sample.interfering
    Throughout Call.Arithmetic .start Sample.interfering ∧
    .density (.composite p) ∈ σ.objects ∧ (Density.composite p).varNames σ.store ≠ [] ∧
    (∀ m ∈ p.models, m.Elementary) ∧ σ.store.Scalars p.pars ∧
    (Density.composite p).TakesPowers ∧ Scalar.PowersAgree ℚ ∧ Scalar.ExactSums ℚ ∧
    (Density.composite p).EventByEvent σ.store (.ok g) ∧
    ∀ floor, (Density.composite p).LossByEvent σ.store ((Density.composite p).Gives σ.store)
      (.ok g) floor := by
  have hrun : ∃ p ∈ (Held.composite (Session.after Sample.interfering).objects 14).toOption,
      p.program = [.leaf (.model 0), .leaf (.model 1), .binary .mult] ∧
      (Density.composite p).varNames (Session.after Sample.interfering).store ≠ [] ∧
      (∀ m ∈ p.models, m.Elementary ∧
        Sample.integrates (Session.after Sample.interfering).store m = true) ∧
      (∃ m ∈ p.models, m matches .decay _) ∧
      ∀ e ∈ (Session.after Sample.interfering).store.currentValues p.pars,
        e.2.isScalar = true := by
    decide +kernel
  obtain ⟨p, hp, hprogram, hvars, hmodels, ⟨m, hm, hdecay⟩, hvalues⟩ := hrun
  have hmem : .density (.composite p) ∈ (Session.after Sample.interfering).objects :=
    List.mem_of_getElem? (Held.composite_eq_ok (Sample.eq_ok_of_toOption hp))
  have helem : ∀ m ∈ p.models, m.Elementary := fun m hm => (hmodels m hm).1
  have hscalars : (Session.after Sample.interfering).store.Scalars p.pars :=
    Store.scalars_of_currentValues hvalues
  have hwhole : p.program.Whole := by
    rw [hprogram]
    exact (Program.whole_leaf _).join (Program.whole_leaf _) rfl
  have hint : (Density.composite p).Integrable (Session.after Sample.interfering).store := by
    intro k hk
    have hok : (k.integral (Session.after Sample.interfering).store).isOk = true :=
      (hmodels _ hk).2
    cases hx : k.integral (Session.after Sample.interfering).store with
    | ok x => exact ⟨x, rfl⟩
    | error e =>
      rw [hx] at hok
      simp [Except.isOk, Except.toBool] at hok
  have htakes : (Density.composite p).TakesPowers := by
    cases m with
    | decay k => exact .inr ⟨k, hm⟩
    | _ => cases hdecay
  obtain ⟨-, -, f, -, hevents, hreturns, hloss⟩ := Session.batches_event_by_event
    Sample.interfering_arithmetic hmem hvars helem hscalars
  obtain ⟨g, rfl⟩ := hreturns hwhole hint
  exact ⟨p, g, Sample.interfering_arithmetic, hmem, hvars, helem, hscalars, htakes,
    Rational.powersAgree, Rational.exactSums, hevents fun _ => Rational.powersAgree,
    hloss Rational.exactSums⟩

/-! ### Powers that do not agree -/

/-- Doubles, with the powers, roots and lengths that a machine has for some of them. The power of
one number with exponent 2 differs in the last place from its product with itself. -/
def Tabulated : Type := Float

namespace Tabulated

/-- The arithmetic is that of doubles. -/
abbrev scalar : Scalar Float :=
  { (inferInstance : Scalar Float) with
    pow := fun x y =>
      if x == 1.594958762697211 && y == 2.0 then 2.543893454704618
      else if y == 2.0 then x * x else 0.0 / 0.0
    sqrt := fun x => if x == 2500.0 then 50.0 else if x == 576.0 then 24.0 else 0.0 / 0.0
    hypot := fun x y => if y == 0.0 then x.abs else 0.0 / 0.0 }

instance : Scalar Tabulated := scalar

end Tabulated

namespace Sample

/-- A decay density over a constant amplitude with one real coefficient. -/
def constant : List (Call Tabulated) :=
  [ .cell ⟨.variable, "m12", .scalar (0.0 : Float), .scalar (0.0 : Float)⟩,
    .cell ⟨.variable, "m13", .scalar (0.0 : Float), .scalar (0.0 : Float)⟩,
    .cell ⟨.variable, "m23", .scalar (0.0 : Float), .scalar (0.0 : Float)⟩,
    .cell ⟨.parameter, "re", .scalar (1.594958762697211 : Float), .scalar (0.0 : Float)⟩,
    .cell ⟨.parameter, "im", .scalar (0.0 : Float), .scalar (0.0 : Float)⟩,
    .flat ⟨(1.0 : Float), (0.0 : Float)⟩,
    .sum [(3, 4, 5)],
    .decay "Decay3Body" 0 1 2 6 ⟨(70.0 : Float), (0.0 : Float), (10.0 : Float), (0.0 : Float)⟩
      (.ok 1) (14.0 : Float) (.ok 10) ⟨0⟩ ]

theorem constant_arithmetic : Session.Throughout Call.Arithmetic .start constant := by
  refine Session.Throughout.of_forall (fun c hc σ => ?_) _
  simp only [constant, List.mem_cons, List.not_mem_nil, or_false] at hc
  rcases hc with rfl | rfl | rfl | rfl | rfl | rfl | rfl | rfl <;> trivial

/-- The midpoint of the only bin. -/
def midpoint (name : String) : Tabulated :=
  if name = "m12" then (2500.0 : Float) else if name = "m13" then (1800.0 : Float)
  else (700.0 : Float)

/-- The bits of the only number of a value. -/
def bits? : Except (Fault Tabulated) (Value Tabulated) → Option UInt64
  | .ok (.scalar x) => some (Float.toBits x)
  | .ok (.column [x]) => some (Float.toBits x)
  | _ => none

end Sample

/-- At one event alone and in a batch, the density has values that differ in the last place. -/
theorem Session.not_batches_event_by_event : ∃ d,
    let σ := Session.after Sample.constant
    Throughout Call.Arithmetic .start Sample.constant ∧ .density d ∈ σ.objects ∧
      d.varNames σ.store ≠ [] ∧ (∀ m ∈ d.models, m.Elementary) ∧ σ.store.Scalars d.pars ∧
      ¬ ∃ f, d.EventByEvent σ.store f := by
  have hrun : ∃ k ∈ (Held.decay (Session.after Sample.constant).objects 7).toOption,
      let d := Density.model (.decay k)
      d.varNames (Session.after Sample.constant).store = ["m12", "m13", "m23"] ∧
      k.amplitude.Summed ∧
      (∀ e ∈ (Session.after Sample.constant).store.currentValues d.pars,
        e.2.isScalar = true) ∧
      Sample.bits? (d.evaluate (Session.after Sample.constant).store
        (.sequence (["m12", "m13", "m23"].map fun n => .scalar (Sample.midpoint n)))) ≠
      Sample.bits? (d.evaluate (Session.after Sample.constant).store
        (.sequence (["m12", "m13", "m23"].map fun n => .column [Sample.midpoint n]))) := by
    decide +kernel
  obtain ⟨k, hk, hnames, hsummed, hvalues, hbits⟩ := hrun
  refine ⟨.model (.decay k), Sample.constant_arithmetic,
    List.mem_of_getElem? (Held.decay_eq_ok (Sample.eq_ok_of_toOption hk)), ?_, ?_,
    Store.scalars_of_currentValues hvalues, ?_⟩
  · rw [hnames]
    exact List.cons_ne_nil _ _
  · intro m hm
    obtain rfl := List.mem_singleton.mp hm
    exact hsummed
  · rintro ⟨f, hf⟩
    have hassigns := fun v : String → Value Tabulated =>
      Input.assigns_sequence ["m12", "m13", "m23"] v
    rw [← hnames] at hassigns hbits
    have hbatch := hf.batch [Sample.midpoint] _ (hassigns fun n => .column [Sample.midpoint n])
    rw [hf.event Sample.midpoint _ (hassigns _), hbatch] at hbits
    cases f with
    | error e => exact hbits rfl
    | ok g => exact hbits rfl

end DensityAlgebra
