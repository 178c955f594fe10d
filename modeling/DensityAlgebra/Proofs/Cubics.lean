/-
# Second derivatives of cubic polynomials

Central differences of a polynomial of total degree three or less are its second partial
derivatives, in exact arithmetic: a second difference along one coordinate and a mixed difference
along two coordinates are linear in the polynomial, in a monomial they concern one or two powers,
and the sum of these exponents is at most three. So steps drop out, and it does not matter what
the bounds have made of them. Entries on both sides of the diagonal come from the same
difference, so the matrix is symmetric, as the derivatives are.

Key definitions: `Hessian.polynomial`, `Hessian.ofPolynomial`, `Hessian.secondPartials`.
Key theorems: `second_difference`, `mixed_difference`, `pderiv_comm`, `Hessian.diagonal_eq`,
`Hessian.mixed_eq`, `Hessian.entry_eq`, `Hessian.exact_of_cubic`.
-/
import Mathlib.Algebra.MvPolynomial.PDeriv
import Mathlib.Analysis.SpecialFunctions.Pow.Real
import Mathlib.Analysis.SpecialFunctions.Complex.Arg
import Mathlib.Tactic.IntervalCases
import Mathlib.Tactic.LinearCombination
import DensityAlgebra.Fit.SymmetricMatrix
import DensityAlgebra.Proofs.Probing

namespace DensityAlgebra

open MvPolynomial

/-! ### Differences of powers -/

theorem pow_second_difference (u h : ℝ) {a : ℕ} (ha : a ≤ 3) :
    (u + h) ^ a - 2 * u ^ a + (u - h) ^ a = h * h * (a * (a - 1 : ℕ) * u ^ (a - 1 - 1)) := by
  -- odd powers of the displacement cancel; a fourth power would leave an even one
  interval_cases a <;> norm_num <;> ring

theorem pow_mixed_difference (u w h k : ℝ) {a b : ℕ} (hab : a + b ≤ 3) :
    ((u + h) ^ a - (u - h) ^ a) * ((w + k) ^ b - (w - k) ^ b) =
      4 * h * k * (a * b * (u ^ (a - 1) * w ^ (b - 1))) := by
  obtain ⟨ha, hb⟩ : a ≤ 3 ∧ b ≤ 3 := by omega
  interval_cases a <;> interval_cases b <;> first | omega | (norm_num; try ring)

section

variable {σ : Type} [Fintype σ] [DecidableEq σ] {v x : σ → ℝ} {i j : σ}

/-! ### Monomials -/

/-- A monomial as a power of one variable. -/
theorem eval_monomial_one (s : σ →₀ ℕ) (c : ℝ) (h : ∀ k, k ≠ i → v k = x k) :
    eval v (monomial s c) = c * v i ^ s i * ∏ k ∈ Finset.univ.erase i, x k ^ s k := by
  have hrest : ∏ k ∈ Finset.univ.erase i, v k ^ s k = ∏ k ∈ Finset.univ.erase i, x k ^ s k :=
    Finset.prod_congr rfl fun k hk => by rw [h k (Finset.ne_of_mem_erase hk)]
  rw [eval_monomial, Finsupp.prod_fintype _ _ fun _ => pow_zero _,
    ← Finset.mul_prod_erase _ _ (Finset.mem_univ i), hrest, mul_assoc]

/-- A monomial as a product of powers of two variables. -/
theorem eval_monomial_two (s : σ →₀ ℕ) (c : ℝ) (hij : i ≠ j)
    (h : ∀ k, k ≠ i → k ≠ j → v k = x k) :
    eval v (monomial s c) =
      c * (v i ^ s i * v j ^ s j) * ∏ k ∈ (Finset.univ.erase i).erase j, x k ^ s k := by
  have hrest : ∏ k ∈ (Finset.univ.erase i).erase j, v k ^ s k =
      ∏ k ∈ (Finset.univ.erase i).erase j, x k ^ s k :=
    Finset.prod_congr rfl fun k hk => by
      rw [h k (Finset.ne_of_mem_erase (Finset.mem_of_mem_erase hk)) (Finset.ne_of_mem_erase hk)]
  have hj : j ∈ Finset.univ.erase i := Finset.mem_erase.mpr ⟨hij.symm, Finset.mem_univ j⟩
  rw [eval_monomial_one (x := v) s c (fun _ _ => rfl), ← Finset.mul_prod_erase _ _ hj, hrest]
  ring

variable (x)

theorem monomial_second_difference {s : σ →₀ ℕ} (hs : s i ≤ 3) (c h : ℝ) :
    eval (x + Pi.single i h) (monomial s c) - 2 * eval x (monomial s c) +
        eval (x - Pi.single i h) (monomial s c) =
      h * h * eval x (pderiv i (pderiv i (monomial s c))) := by
  rw [pderiv_monomial, pderiv_monomial]
  set t : σ →₀ ℕ := s - Finsupp.single i 1 - Finsupp.single i 1 with ht
  have hrest : ∏ k ∈ Finset.univ.erase i, x k ^ t k = ∏ k ∈ Finset.univ.erase i, x k ^ s k :=
    Finset.prod_congr rfl fun k hk => by simp [ht, Finset.ne_of_mem_erase hk]
  have hself : t i = s i - 1 - 1 := by simp [ht]
  rw [eval_monomial_one (x := x) (i := i) s c fun k hk => by simp [hk],
    eval_monomial_one (x := x) (i := i) s c fun _ _ => rfl,
    eval_monomial_one (x := x) (i := i) s c fun k hk => by simp [hk],
    eval_monomial_one (x := x) (i := i) t _ fun _ _ => rfl, hrest, hself]
  have hpow := pow_second_difference (x i) h hs
  simp only [Pi.add_apply, Pi.sub_apply, Pi.single_eq_same, Finsupp.coe_tsub,
    Finsupp.single_eq_same]
  linear_combination (c * ∏ k ∈ Finset.univ.erase i, x k ^ s k) * hpow

theorem monomial_mixed_difference {s : σ →₀ ℕ} (hij : i ≠ j) (hs : s i + s j ≤ 3) (c h k : ℝ) :
    eval (x + Pi.single i h + Pi.single j k) (monomial s c) -
        eval (x + Pi.single i h - Pi.single j k) (monomial s c) -
        eval (x - Pi.single i h + Pi.single j k) (monomial s c) +
        eval (x - Pi.single i h - Pi.single j k) (monomial s c) =
      4 * h * k * eval x (pderiv i (pderiv j (monomial s c))) := by
  rw [pderiv_monomial, pderiv_monomial]
  set t : σ →₀ ℕ := s - Finsupp.single j 1 - Finsupp.single i 1 with ht
  have hrest : ∏ l ∈ (Finset.univ.erase i).erase j, x l ^ t l =
      ∏ l ∈ (Finset.univ.erase i).erase j, x l ^ s l :=
    Finset.prod_congr rfl fun l hl => by
      simp [ht, Finset.ne_of_mem_erase hl, Finset.ne_of_mem_erase (Finset.mem_of_mem_erase hl)]
  have hfirst : t i = s i - 1 := by simp [ht, hij]
  have hsecond : t j = s j - 1 := by simp [ht, hij.symm]
  have hone : (s - Finsupp.single j 1 : σ →₀ ℕ) i = s i := by simp [hij]
  rw [eval_monomial_two (x := x) s c hij fun l hi hj => by simp [hi, hj],
    eval_monomial_two (x := x) s c hij fun l hi hj => by simp [hi, hj],
    eval_monomial_two (x := x) s c hij fun l hi hj => by simp [hi, hj],
    eval_monomial_two (x := x) s c hij fun l hi hj => by simp [hi, hj],
    eval_monomial_two (x := x) t _ hij fun _ _ _ => rfl, hrest, hfirst, hsecond, hone]
  have hpow := pow_mixed_difference (x i) (x j) h k hs
  simp only [Pi.add_apply, Pi.sub_apply, Pi.single_eq_same, Pi.single_eq_of_ne hij,
    Pi.single_eq_of_ne hij.symm, add_zero, sub_zero]
  linear_combination (c * ∏ k ∈ (Finset.univ.erase i).erase j, x k ^ s k) * hpow

/-! ### Cubic polynomials -/

variable {p : MvPolynomial σ ℝ}

omit [DecidableEq σ] in
theorem sum_of_support (hp : p.totalDegree ≤ 3) {s : σ →₀ ℕ} (hs : s ∈ p.support) :
    ∑ k, s k ≤ 3 := by
  have hdegree := (le_totalDegree hs).trans hp
  rwa [Finsupp.sum_fintype _ _ fun _ => rfl] at hdegree

/-- **The second difference of a cubic** is its second derivative, for displacements of any
size. -/
theorem second_difference (hp : p.totalDegree ≤ 3) (i : σ) (h : ℝ) :
    eval (x + Pi.single i h) p - 2 * eval x p + eval (x - Pi.single i h) p =
      h * h * eval x (pderiv i (pderiv i p)) := by
  rw [p.as_sum]
  simp only [map_sum, Finset.mul_sum, ← Finset.sum_sub_distrib, ← Finset.sum_add_distrib]
  refine Finset.sum_congr rfl fun s hs => monomial_second_difference x ?_ _ h
  exact (Finset.single_le_sum (fun _ _ => Nat.zero_le _) (Finset.mem_univ i)).trans
    (sum_of_support hp hs)

/-- **The mixed difference of a cubic** is its mixed derivative, for displacements of any
sizes. -/
theorem mixed_difference (hp : p.totalDegree ≤ 3) (hij : i ≠ j) (h k : ℝ) :
    eval (x + Pi.single i h + Pi.single j k) p - eval (x + Pi.single i h - Pi.single j k) p -
        eval (x - Pi.single i h + Pi.single j k) p + eval (x - Pi.single i h - Pi.single j k) p =
      4 * h * k * eval x (pderiv i (pderiv j p)) := by
  rw [p.as_sum]
  simp only [map_sum, Finset.mul_sum, ← Finset.sum_sub_distrib, ← Finset.sum_add_distrib]
  refine Finset.sum_congr rfl fun s hs => monomial_mixed_difference x hij ?_ _ h k
  calc s i + s j = ∑ l ∈ {i, j}, s l := (Finset.sum_pair hij).symm
    _ ≤ ∑ l, s l := Finset.sum_le_sum_of_subset (Finset.subset_univ _)
    _ ≤ 3 := sum_of_support hp hs

end

/-- The order of derivation does not matter. -/
theorem pderiv_comm {σ : Type} (i j : σ) (p : MvPolynomial σ ℝ) :
    pderiv i (pderiv j p) = pderiv j (pderiv i p) := by
  ext s
  rcases eq_or_ne i j with rfl | hij
  · rfl
  · simp only [coeff_pderiv, Finsupp.add_apply, Finsupp.single_eq_of_ne hij,
      Finsupp.single_eq_of_ne hij.symm]
    rw [add_right_comm]
    push_cast
    ring

namespace Hessian

variable {n : ℕ} {p : MvPolynomial (Fin n) ℝ} {x : Fin n → ℝ} {bounds : List (Bounds ℝ)}
  {coords : List (ℝ × Bounds ℝ)} {r : ℝ} {relative : Option ℝ} {i j : Fin n}

/-- The value of a polynomial at a point that is given as a list. -/
noncomputable def polynomial (p : MvPolynomial (Fin n) ℝ) (v : List ℝ) : ℝ :=
  eval (fun k : Fin n => v.getD k 0) p

/-- What the program takes for the second derivatives of a polynomial. -/
noncomputable def ofPolynomial (p : MvPolynomial (Fin n) ℝ) (x : Fin n → ℝ)
    (bounds : List (Bounds ℝ)) (relative : Option ℝ) :
    Except (Fault ℝ) (Option (List (List ℝ))) :=
  (hessian (m := Id) (polynomial p) (List.ofFn x) (polynomial p (List.ofFn x)) bounds relative).run

/-- The matrix of second partial derivatives. -/
noncomputable def secondPartials (p : MvPolynomial (Fin n) ℝ) (x : Fin n → ℝ) : List (List ℝ) :=
  List.ofFn fun i => List.ofFn fun j => eval x (pderiv i (pderiv j p))

/-! ### Displaced points -/

theorem polynomial_ofFn : polynomial p (List.ofFn x) = eval x p := by
  unfold polynomial
  congr 1
  exact congrArg eval (funext fun k => by simp)

/-- The displacement of coordinate `k`. -/
noncomputable def stepOfCoord (r : ℝ) (coords : List (ℝ × Bounds ℝ)) (k : ℕ) : ℝ :=
  (coords.map (stepAt r)).getD k 0.0

theorem polynomial_mapIdx (hf : Faces (List.ofFn x) bounds coords) (g : ℕ → ℝ → ℝ → ℝ) :
    polynomial p (coords.mapIdx fun k c => g k c.1 (stepAt r c)) =
      eval (fun k : Fin n => g k (x k) (stepOfCoord r coords k)) p := by
  refine congrArg (eval · p) (funext fun k => ?_)
  obtain ⟨hk, hx⟩ := hf.exists_getElem (k := k) (by simp)
  simp [stepOfCoord, hk, hx]

theorem ite_eq_single (i : Fin n) (h : ℕ → ℝ) :
    (fun k : Fin n => if (k : ℕ) = i then h k else 0.0) = Pi.single i (h i) := by
  funext k
  rcases eq_or_ne k i with rfl | hk
  · simp
  · rw [Pi.single_eq_of_ne hk, if_neg (Fin.val_ne_of_ne hk)]
    norm_num

/-! ### Entries -/

section

variable (hf : Faces (List.ofFn x) bounds coords)

include hf

/-- A polynomial where one coordinate is displaced. -/
theorem polynomial_once (f : ℝ → ℝ → ℝ) (i : Fin n) :
    polynomial p (join f (List.ofFn x) (shift (coords.map (stepAt r)) i)) =
      eval (fun k => f (x k)
        ((Pi.single i (stepOfCoord r coords i) : Fin n → ℝ) k)) p := by
  rw [shift_eq, hf.join, polynomial_mapIdx hf fun k u e => f u (if k = i then e else 0.0),
    ← ite_eq_single]

/-- A polynomial where two coordinates are displaced. -/
theorem polynomial_twice (f g : ℝ → ℝ → ℝ) (i j : Fin n) :
    polynomial p (join g (join f (List.ofFn x) (shift (coords.map (stepAt r)) i))
      (shift (coords.map (stepAt r)) j)) =
        eval (fun k => g (f (x k) ((Pi.single i (stepOfCoord r coords i) : Fin n → ℝ) k))
          ((Pi.single j (stepOfCoord r coords j) : Fin n → ℝ) k)) p := by
  rw [shift_eq, shift_eq, hf.join, join_mapIdx, polynomial_mapIdx hf fun k u e =>
    g (f u (if k = i then e else 0.0)) (if k = j then e else 0.0), ← ite_eq_single,
    ← ite_eq_single]

variable (hroom : ∀ c ∈ coords, 0 < stepAt r c)

include hroom

theorem stepOfCoord_ne_zero (i : Fin n) : stepOfCoord r coords i ≠ 0 := by
  obtain ⟨hi, -⟩ := hf.exists_getElem (k := i) (by simp)
  have hpos := hroom _ (List.getElem_mem hi)
  simpa [stepOfCoord, hi] using hpos.ne'

variable (hp : p.totalDegree ≤ 3)

include hp

theorem diagonal_eq (i : Fin n) :
    diagonal (m := Id) (polynomial p) (List.ofFn x) (polynomial p (List.ofFn x))
      (coords.map (stepAt r)) i = eval x (pderiv i (pderiv i p)) := by
  have hne := stepOfCoord_ne_zero hf hroom i
  show (polynomial p (join (· + ·) _ _) - 2.0 * polynomial p (List.ofFn x) +
    polynomial p (join (· - ·) _ _)) / Scalar.square (stepOfCoord r coords i) = _
  rw [polynomial_once hf, polynomial_once hf, polynomial_ofFn, Reals.square_eq, Reals.two_eq,
    div_eq_iff (mul_ne_zero hne hne), mul_comm (eval x _)]
  exact second_difference x hp i _

theorem mixed_eq (hij : i ≠ j) :
    mixed (m := Id) (polynomial p) (List.ofFn x) (coords.map (stepAt r)) i j =
      eval x (pderiv i (pderiv j p)) := by
  have hne := stepOfCoord_ne_zero hf hroom i
  have hne' := stepOfCoord_ne_zero hf hroom j
  have hfour : (4.0 : ℝ) = 4 := by norm_num
  show (polynomial p (join (· + ·) (join (· + ·) _ _) _) -
    polynomial p (join (· - ·) (join (· + ·) _ _) _) -
    polynomial p (join (· + ·) (join (· - ·) _ _) _) +
    polynomial p (join (· - ·) (join (· - ·) _ _) _)) /
      (4.0 * stepOfCoord r coords i * stepOfCoord r coords j) = _
  rw [polynomial_twice hf, polynomial_twice hf, polynomial_twice hf, polynomial_twice hf, hfour,
    div_eq_iff (mul_ne_zero (mul_ne_zero four_ne_zero hne) hne'), mul_comm (eval x _)]
  exact mixed_difference x hp hij _ _

end

/-! ### The matrix -/

section

variable {α : Type} [Scalar α] (f : List α → α) (y : List α) (f0 : α) (eps : List α)

theorem row_eq (i : ℕ) : row (m := Id) f y f0 eps i =
    (List.range i).map (mixed (m := Id) f y eps i) ++ [diagonal (m := Id) f y f0 eps i] :=
  congrArg (· ++ [_]) List.idRun_mapM

theorem row_getD_of_lt {i j : ℕ} (h : j < i) :
    List.getD (row (m := Id) f y f0 eps i) j 0.0 = mixed (m := Id) f y eps i j := by
  simp [row_eq, List.getD_eq_getElem?_getD, List.getElem?_append, h]

theorem row_getD_self (i : ℕ) :
    List.getD (row (m := Id) f y f0 eps i) i 0.0 = diagonal (m := Id) f y f0 eps i := by
  simp [row_eq, List.getD_eq_getElem?_getD]

end

/-- **Every entry of the matrix is a second partial derivative**, on either side of the
diagonal. -/
theorem entry_eq (hf : Faces (List.ofFn x) bounds coords) (hroom : ∀ c ∈ coords, 0 < stepAt r c)
    (hp : p.totalDegree ≤ 3) (i j : Fin n) :
    entry ((List.range n).map (row (m := Id) (polynomial p) (List.ofFn x)
      (polynomial p (List.ofFn x)) (coords.map (stepAt r)))) i j =
        eval x (pderiv i (pderiv j p)) := by
  have hrow : ∀ k : Fin n, ((List.range n).map (row (m := Id) (polynomial p) (List.ofFn x)
      (polynomial p (List.ofFn x)) (coords.map (stepAt r)))).getD k [] = row (m := Id)
        (polynomial p) (List.ofFn x) (polynomial p (List.ofFn x)) (coords.map (stepAt r)) k :=
    fun k => by simp [List.getD_eq_getElem?_getD]
  unfold entry
  -- an entry above the diagonal is read from below it, where the derivatives are swapped
  rcases lt_trichotomy i j with hij | rfl | hij
  · have hle : (i : ℕ) < j := hij
    have hmax : Nat.max i j = j := Nat.max_eq_right hle.le
    have hmin : Nat.min i j = i := Nat.min_eq_left hle.le
    rw [hmax, hmin, hrow, row_getD_of_lt _ _ _ _ hle, mixed_eq hf hroom hp hij.ne', pderiv_comm]
  · have hmax : Nat.max i i = i := Nat.max_self _
    have hmin : Nat.min i i = i := Nat.min_self _
    rw [hmax, hmin, hrow, row_getD_self, diagonal_eq hf hroom hp]
  · have hle : (j : ℕ) < i := hij
    have hmax : Nat.max i j = i := Nat.max_eq_left hle.le
    have hmin : Nat.min i j = j := Nat.min_eq_right hle.le
    rw [hmax, hmin, hrow, row_getD_of_lt _ _ _ _ hle, mixed_eq hf hroom hp hij.ne']

/-- A matrix that is built from positions. -/
theorem build_eq {α : Type} {g : ℕ → ℕ → α} {d : Fin n → Fin n → α}
    (h : ∀ i j : Fin n, g i j = d i j) :
    SymmetricMatrix.build n g = List.ofFn fun i => List.ofFn (d i) := by
  refine List.ext_getElem (by simp [SymmetricMatrix.build]) fun i hi hi' => ?_
  refine List.ext_getElem (by simp [SymmetricMatrix.build]) fun j hj hj' => ?_
  simp only [SymmetricMatrix.build, List.getElem_map, List.getElem_range, List.getElem_ofFn]
  exact h ⟨i, by simpa using hi'⟩ ⟨j, by simpa using hj'⟩

theorem secondPartials_symmetric (p : MvPolynomial (Fin n) ℝ) (x : Fin n → ℝ) :
    SymmetricMatrix.transpose n (secondPartials p x) = secondPartials p x :=
  build_eq fun i j => by
    simp [SymmetricMatrix.entry, secondPartials, List.getD_eq_getElem?_getD, pderiv_comm i j]

theorem ofPolynomial_of_room (hp : p.totalDegree ≤ 3) (hf : Faces (List.ofFn x) bounds coords)
    (hfree : ¬ Blocked relative coords) :
    ofPolynomial p x bounds relative = .ok (some (secondPartials p x)) := by
  set lower := (List.range n).map (row (m := Id) (polynomial p) (List.ofFn x)
    (polynomial p (List.ofFn x)) (coords.map (stepAt (relative.getD 1e-4)))) with hlower
  have hfull : full lower = secondPartials p x := by
    have hlength : lower.length = n := by simp [hlower]
    show SymmetricMatrix.build lower.length (entry lower) = _
    rw [hlength]
    exact build_eq (entry_eq hf (not_blocked_iff.mp hfree) hp)
  rw [ofPolynomial, hessian_of_room hf hfree, ← hfull, hlower]
  show Except.ok (some (full (List.mapM (m := Id) _ _).run)) = _
  rw [List.idRun_mapM, List.length_ofFn]
  rfl

/-- **Second derivatives of cubics are exact**, whatever the bounds have made of the steps.
Bounds that do not fit the coordinates are refused. -/
theorem exact_of_cubic {n : ℕ} (p : MvPolynomial (Fin n) ℝ) (hp : p.totalDegree ≤ 3)
    (x : Fin n → ℝ) (bounds : List (Bounds ℝ)) (relative : Option ℝ)
    (hsome : ofPolynomial p x bounds relative ≠ .ok none) :
    (ofPolynomial p x bounds relative = .ok (some (secondPartials p x)) ∨
      (∃ e, ofPolynomial p x bounds relative = .error e) ∧
        ∀ coords, ¬ Faces (List.ofFn x) bounds coords) ∧
    SymmetricMatrix.transpose n (secondPartials p x) = secondPartials p x := by
  refine ⟨?_, secondPartials_symmetric p x⟩
  by_cases hfit : ∃ coords, Faces (List.ofFn x) bounds coords
  · obtain ⟨coords, hf⟩ := hfit
    have hfree : ¬ Blocked relative coords := fun h => hsome (hessian_of_blocked hf h)
    exact .inl (ofPolynomial_of_room hp hf hfree)
  · have hunfit := not_exists.mp hfit
    exact .inr ⟨hessian_of_unfit hunfit, hunfit⟩

/-- The square of one positive coordinate times another one. -/
theorem exact_of_cubic_product :
    ofPolynomial (X 0 ^ 2 * X 1 : MvPolynomial (Fin 2) ℝ) ![1, 2] [(some 0, none)] none =
      .ok (some [[4, 2], [2, 0]]) := by
  set p : MvPolynomial (Fin 2) ℝ := X 0 ^ 2 * X 1 with hdef
  have hp : p.totalDegree ≤ 3 := by
    refine (totalDegree_mul _ _).trans (add_le_add ?_ (totalDegree_X _).le)
    exact (totalDegree_pow _ _).trans (by rw [totalDegree_X])
  have hf : Faces (List.ofFn ![(1 : ℝ), 2]) [(some 0, none)] _ := .shared _ _
  have hstep : (0 : ℝ) < 1e-4 := by norm_num
  have hfree : ¬ Blocked none ((List.ofFn ![(1 : ℝ), 2]).map (·, (some (0 : ℝ), none))) := by
    simp [Blocked, Bounds.Holds, hstep]
  have hpartials : secondPartials p ![1, 2] = [[4, 2], [2, 0]] := by
    have htwo : ∀ i : Fin 2, pderiv i (2 : MvPolynomial (Fin 2) ℝ) = 0 := fun i =>
      (pderiv i).map_natCast 2
    have hfour : (2 : ℝ) * 2 = 4 := by norm_num
    simp [secondPartials, hdef, htwo, hfour]
  have hsome : ofPolynomial p ![1, 2] [(some 0, none)] none ≠ .ok none := by
    simp [ofPolynomial_of_room hp hf hfree]
  obtain ⟨h | ⟨-, hunfit⟩, -⟩ := exact_of_cubic p hp ![1, 2] _ none hsome
  · exact hpartials ▸ h
  · exact absurd hf (hunfit _)

end Hessian

end DensityAlgebra
