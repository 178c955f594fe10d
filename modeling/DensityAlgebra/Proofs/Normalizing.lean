/-
# Normalizations of what was built

A composite carries over the normalizations that its operands have stored. Those of the
first operand stay right. Those of the second one were computed with its own parameters,
but its models are pointed to the first operand's cells where both have a parameter of
one name, and nothing is computed again. They stay right exactly if the first operand's
values leave the integrals as they were; with a parameter of one name and different
values they are stale from the start.

Key theorems: `Model.Carried.fresh_iff`, `Composite.Composed.fresh_iff`,
`Making.normalized_iff`.
-/
import DensityAlgebra.Proofs.Rational

namespace DensityAlgebra

variable {α : Type}

variable [Scalar α]

/-- Whether a normalization is right can be found out where numbers can be compared. -/
instance [DecidableEq α] (s : Store α) (d : Decay α) : Decidable (d.Fresh s) :=
  match h : d.integral s with
  | .ok x => decidable_of_iff (x = (s.state d.state).norm) (by
      unfold Decay.Fresh
      rw [h, Except.ok.injEq])
  | .error _ => isFalse (by
      unfold Decay.Fresh
      rw [h]
      simp)

instance [DecidableEq α] (s : Store α) (m : Model α) : Decidable (m.Fresh s) :=
  match m with
  | .decay d => inferInstanceAs (Decidable (d.Fresh s))
  | .gaussian .. | .uniform .. | .formula .. => isTrue trivial

/-- A density that was carried over has a right normalization exactly if the given values
leave its integral as it was. -/
theorem Model.Carried.fresh_iff {given : String → Option (Content α)} {s t : Store α}
    {m m' : Model α} (h : Carried given s t m m') (hs : s.Sound) (hv : m.Valid s)
    (hv' : m'.Valid t) (hm : m.Fresh s) :
    m'.Fresh t ↔ ∀ d, m = .decay d → d.integral (s.assume d.head.pars given) = d.integral s := by
  cases m with
  | decay d =>
    obtain ⟨d', rfl⟩ : ∃ d', m' = .decay d' := by
      obtain ⟨f, ⟨state, source, rfl⟩, -⟩ := h
      exact ⟨_, rfl⟩
    refine (Decay.fresh_iff_of_carried h hs hv hv' hm).trans ⟨?_, fun hall => hall d rfl⟩
    intro hint e he
    obtain rfl := Model.decay.inj he
    exact hint
  | formula hd body c =>
    obtain ⟨f, ⟨c', rfl⟩, -⟩ := h
    simp [Model.Fresh]
  | _ =>
    obtain ⟨f, rfl, -⟩ := h
    simp [Model.Fresh]

/-- **What becomes of the normalizations** of the densities that a composite was made of. -/
theorem Composite.Composed.fresh_iff {b s t : Store α} {ds : List (Density α)} {q : Composite α}
    (h : Composed b s t ds q) (hs : s.Sound) (hds : ∀ d ∈ ds, d.Valid s)
    (hlen : ds.length ≤ 2) (hfresh : ∀ d ∈ ds, ∀ m ∈ d.models, m.Fresh s) :
    (∀ m ∈ q.models, m.Fresh t) ↔ ∀ l r, ds = [l, r] → ∀ d, .decay d ∈ r.models →
      d.integral (s.assume d.head.pars (s.value? l.pars)) = d.integral s := by
  obtain ⟨ls, rs, hq, hl, hr⟩ := h.models
  have hvalid : ∀ m ∈ ls ++ rs, m.Valid t := hq ▸ h.built.valid.models
  have hmem : ∀ {es : List (Density α)}, es ⊆ ds → ∀ m ∈ es.flatMap Density.models,
      m.Valid s ∧ m.Fresh s := by
    intro es hes m hm
    obtain ⟨d, hd, hm⟩ := List.mem_flatMap.mp hm
    exact ⟨(hds d (hes hd)).models m hm, hfresh d (hes hd) m hm⟩
  have hleft : ∀ m' ∈ ls, m'.Fresh t := by
    refine (forall_mem_iff_of_forall₂ (P := fun _ => True) hl fun m hm m' _ hc => ?_).mpr
      fun _ _ => trivial
    obtain ⟨hv, hf⟩ := hmem (List.take_subset 1 ds) m hm
    exact iff_of_true (Model.Carried.fresh hc hv hf) trivial
  have hright := forall_mem_iff_of_forall₂ hr fun m hm m' hm' hc => by
    obtain ⟨hv, hf⟩ := hmem (List.drop_subset 1 ds) m hm
    exact Model.Carried.fresh_iff hc hs hv (hvalid m' (List.mem_append_right _ hm')) hf
  have hall : (∀ m ∈ q.models, m.Fresh t) ↔ ∀ m ∈ rs, m.Fresh t := by
    rw [hq]
    exact ⟨fun hm m hr => hm m (List.mem_append_right _ hr), fun hm m hmem =>
      (List.mem_append.mp hmem).elim (hleft m) (hm m)⟩
  rw [hall, hright]
  match ds, hlen with
  | [], _ => simp
  | [d], _ => simp
  | [l, r], _ =>
    constructor
    · intro hint l' r' heq d hd
      obtain ⟨rfl, rfl⟩ : l = l' ∧ r = r' := by simpa using heq
      exact hint _ (List.mem_flatMap.mpr ⟨r, List.mem_singleton_self r, hd⟩) d rfl
    · rintro hint m hm d rfl
      obtain ⟨r', hr', hm⟩ := List.mem_flatMap.mp hm
      rw [List.mem_singleton.mp hr'] at hm
      exact hint l r rfl d hm

namespace Making

omit [Scalar α] in
theorem length_densities (os : List (Object α)) (m : Making α) : (m.densities os).length ≤ 2 := by
  have hpassed : m.passed.length ≤ 2 := by
    cases m <;> simp [passed]
  exact (List.length_filterMap_le _ _).trans hpassed

/-- **When the normalizations of what was built are right.** In every session, if all
stored normalizations of the operands are right, those of the composite are right
exactly if the values of the first operand's parameters leave all integrals of the
second operand as they were. -/
theorem normalized_iff (calls : List (Call α)) (m : Making α) {q : Composite α} {t : Store α}
    (hrun : (m.run (Session.after calls).objects).outcome (Session.after calls).store =
      (.ok (.density (.composite q)), t))
    (hfresh : ∀ d ∈ m.densities (Session.after calls).objects, ∀ k ∈ d.models,
      k.Fresh (Session.after calls).store) :
    (∀ k ∈ q.models, k.Fresh t) ↔ ∀ l r, m.densities (Session.after calls).objects = [l, r] →
      ∀ d, .decay d ∈ r.models →
        d.integral ((Session.after calls).store.assume d.head.pars
          ((Session.after calls).store.value? l.pars)) =
        d.integral (Session.after calls).store := by
  have hvalid := Session.after_valid calls
  have hmakes := (m.run_spec hvalid.sound hvalid.objects).ok hrun
  exact (hmakes.composed q rfl).fresh_iff hvalid.sound
    (fun d hd => hvalid.objects _ (mem_densities hd)) (length_densities _ m) hfresh

/-- Whether the values of the first density's parameters change an integral of the
second. -/
def Sample.changed (s : Store ℚ) : List (Density ℚ) → Bool
  | [l, r] => r.models.any fun
    | .decay d => (d.integral (s.assume d.head.pars (s.value? l.pars))).toOption !=
        (d.integral s).toOption
    | _ => false
  | _ => false

/-- Two densities with parameters of one name: what the decay density has stored is right
before they are multiplied, and not right in the product. -/
theorem normalized_iff_product :
    ∃ q t, (Sample.product.run (Session.after Sample.operands).objects).outcome
        (Session.after Sample.operands).store = (.ok (.density (.composite q)), t) ∧
      (∀ d ∈ Sample.product.densities (Session.after Sample.operands).objects,
        ∀ k ∈ d.models, k.Fresh (Session.after Sample.operands).store) ∧
      ¬ ∀ k ∈ q.models, k.Fresh t := by
  obtain ⟨q, t, hrun⟩ := Sample.product_made
  set σ := Session.after Sample.operands
  have hfresh : ∀ d ∈ Sample.product.densities σ.objects, ∀ k ∈ d.models, k.Fresh σ.store := by
    decide +kernel
  have hchanged : Sample.changed σ.store (Sample.product.densities σ.objects) = true := by
    decide +kernel
  refine ⟨q, t, hrun, hfresh, fun hall => ?_⟩
  have hiff := normalized_iff Sample.operands Sample.product hrun hfresh
  unfold Sample.changed at hchanged
  split at hchanged
  · rename_i l r hlr
    obtain ⟨k, hk, hne⟩ := List.any_eq_true.mp hchanged
    cases k with
    | decay d =>
      have hint : d.integral (σ.store.assume d.head.pars (σ.store.value? l.pars)) =
          d.integral σ.store := hiff.mp hall l r hlr d hk
      simp [hint] at hne
    | _ => simp at hne
  · simp at hchanged

end Making

end DensityAlgebra
