/-
# One cell per name

Whatever a composite is built from, its registries have one cell for each name, and all
its parts hold that cell under that name: its models, and of a decay density every node
of the amplitude and every weight function. Setting a parameter of the composite is
therefore seen by all of its parts. The cells of operands do not have to agree for that,
and nothing that is done to a composite later undoes it.

Key definitions: `Registry.SharedWith`, `Composite.SharesCells`.
Key theorems: `Composite.Valid.sharesCells`, `Composite.cells_shared`.
-/
import DensityAlgebra.Proofs.Rational

namespace DensityAlgebra

variable {α : Type}

/-- The other registry holds the identical cell under every name of this one. -/
def Registry.SharedWith (r shared : Registry) : Prop :=
  ∀ n ∈ r.names, ∃ c, r.find? n = some c ∧ shared.find? n = some c

theorem Registry.Under.sharedWith {r shared : Registry} (h : r.Under shared) :
    r.SharedWith shared := by
  intro n hn
  obtain ⟨c, hc⟩ := find?_eq_some_of_mem hn
  exact ⟨c, hc, h n c hc⟩

namespace Composite

/-- All parts of the composite hold the cells of its registries: the models, the nodes of
the amplitude of a decay density, and its weight functions. -/
structure SharesCells (s : Store α) (p : Composite α) : Prop where
  vars : ∀ m ∈ p.models, (s.registry m.head.vars).SharedWith (s.registry p.vars)
  pars : ∀ m ∈ p.models, (s.registry m.head.pars).SharedWith (s.registry p.pars)
  nodes : ∀ d, Model.decay d ∈ p.models → ∀ r ∈ d.amplitude.registries,
    (s.registry r).SharedWith (s.registry p.pars)
  weightVars : ∀ d, Model.decay d ∈ p.models → ∀ w ∈ d.weights,
    (s.registry w.vars).SharedWith (s.registry p.vars)
  weightPars : ∀ d, Model.decay d ∈ p.models → ∀ w ∈ d.weights,
    (s.registry w.pars).SharedWith (s.registry p.pars)

/-- A valid composite has one cell per name. -/
theorem Valid.sharesCells {s : Store α} {p : Composite α} (h : p.Valid s) : p.SharesCells s where
  vars m hm := (h.vars m hm _ m.head_vars_mem).sharedWith
  pars m hm := (h.pars m hm _ m.head_pars_mem).sharedWith
  nodes d hd r hr := by
    have hpart : r ∈ (Model.decay d).partPars := List.mem_append_left _ hr
    exact (h.pars _ hd r ((Model.decay d).partPars_subset hpart)).sharedWith
  weightVars d hd w hw := by
    have hpart : w.vars ∈ (Model.decay d).partVars := List.mem_map_of_mem hw
    exact (h.vars _ hd _ ((Model.decay d).partVars_subset hpart)).sharedWith
  weightPars d hd w hw := by
    have hpart : w.pars ∈ (Model.decay d).partPars :=
      List.mem_append_right _ (List.mem_map_of_mem hw)
    exact (h.pars _ hd _ ((Model.decay d).partPars_subset hpart)).sharedWith

/-- **One shared cell per name**: in every session, all parts of a composite hold the
cells of its own registries. -/
theorem cells_shared [Scalar α] (calls : List (Call α)) (p : Composite α)
    (hp : .density (.composite p) ∈ (Session.after calls).objects) :
    p.SharesCells (Session.after calls).store :=
  Valid.sharesCells ((Session.after_valid calls).objects _ hp)

/-- The product of a normal density and a decay density over parameters of one name. -/
theorem cells_shared_product : ∃ p, .density (.composite p) ∈ (Session.after Sample.calls).objects ∧
    p.models.length = 2 ∧ p.SharesCells (Session.after Sample.calls).store := by
  have hlen : (Held.composite (Session.after Sample.calls).objects 13).toOption.map
      (·.models.length) = some 2 := by decide +kernel
  cases hp : Held.composite (Session.after Sample.calls).objects 13 with
  | error e =>
    rw [hp] at hlen
    simp [Except.toOption] at hlen
  | ok p =>
    rw [hp] at hlen
    have hmem := List.mem_of_getElem? (Held.composite_eq_ok hp)
    exact ⟨p, hmem, Option.some.inj hlen, cells_shared Sample.calls p hmem⟩

end Composite

end DensityAlgebra
