/-
# What setters and fits change

Setting a variable changes cells of the registry of variables; setting parameters
changes cells of the registry of parameters and renews the stored normalizations.
A fit sets parameters again and again, whatever minimizer it is given. Nothing else
changes, also where a call fails on its way, and a store stays sound.

Key definitions: `Store.Inside`, `Store.Covers`, `Setter`, `Setter.perform`.
Key theorems: `Run.assign_keeps`, `Setter.perform_keeps`, `Search.run_calling`,
`hessian_calling`, `fit_keeps`.
-/
import DensityAlgebra.Fit
import DensityAlgebra.Proofs.Joining

namespace DensityAlgebra

variable {α : Type} [Scalar α]

namespace Store

/-- Since `b` only cells of `C` and normalizations of `D` have changed, and the store is
sound. -/
structure Inside (b : Store α) (C : Set CellId) (D : Set StateId) (s : Store α) : Prop
    extends Within C D b s where
  sound : s.Sound

/-- All cells of a registry of `b` are among those of `C`. -/
structure Covers (b : Store α) (C : Set CellId) (r : RegistryId) : Prop where
  bounded : r.index < b.registries.size
  cells : ∀ n c, (b.registry r).find? n = some c → c ∈ C

variable {b s t : Store α} {C : Set CellId} {D : Set StateId}

theorem Inside.refl (hs : s.Sound) : s.Inside C D s := { Within.refl s with sound := hs }

theorem Inside.trans (h : b.Inside C D s) (h' : s.Inside C D t) : b.Inside C D t :=
  { h.toWithin.trans h'.toWithin with sound := h'.sound }

theorem Inside.mono {C' : Set CellId} {D' : Set StateId} (h : s.Inside C D t) (hC : C ⊆ C')
    (hD : D ⊆ D') : s.Inside C' D' t :=
  { h.toWithin.mono hC hD with sound := h.sound }

theorem Inside.of_same (h : b.Inside C D s) (hst : s.Same t) : b.Inside C D t :=
  { h.toWithin.trans hst.within with sound := h.sound.of_same hst }

/-- A store that differs in listed cells and normalizations only is sound if the other
one is. -/
theorem Within.inside (h : Within C D s t) (hs : s.Sound)
    (hr : ∀ r, t.registry r = s.registry r) : s.Inside C D t :=
  { h with
    sound := fun r => by
      rw [hr]
      exact h.holds (hs r) }

theorem within_putCell {c : CellId} {x : Cell α} (hc : c ∈ C) (hx : x.name = (s.cell c).name) :
    Within C D s (s.putCell c x) where
  moreCells := by
    unfold putCell
    rw [Array.size_setIfInBounds]
  moreRegistries := le_rfl
  moreStates := le_rfl
  names d _ := by
    rw [cell_putCell]
    split_ifs with h
    · rw [h.1, hx]
    · rfl
  registries _ _ := rfl
  cells d _ hd := by
    rw [cell_putCell, if_neg]
    rintro ⟨rfl, -⟩
    exact hd hc
  states _ _ _ := rfl
  resolutions _ _ := rfl

theorem within_withNorm {d : StateId} (hd : d ∈ D) (x : α) :
    Within C D s (s.withNorm d x) where
  moreCells := le_rfl
  moreRegistries := le_rfl
  moreStates := (grows_putState s d _).moreStates
  names _ _ := rfl
  registries _ _ := rfl
  cells _ _ _ := rfl
  states e _ he := by
    unfold withNorm
    rw [state_putState, if_neg]
    rintro ⟨rfl, -⟩
    exact he hd
  resolutions e _ := by
    unfold withNorm
    rw [state_putState]
    split_ifs with h
    · rw [h.1]
    · rfl

end Store

/-! ### Cells -/

namespace Run

variable {b : Store α} {C : Set CellId} {D : Set StateId}

theorem setCell_keeps {c : CellId} (hc : c ∈ C) (v : Content α) (e : Option α) :
    Keeps (b.Inside C D) (setCell c v e) := by
  intro s hs
  refine ends_get_bind (ends_modify (hs.trans (Store.Within.inside ?_ hs.sound fun _ => rfl)))
  exact Store.within_putCell hc rfl

theorem setMeasured_keeps {c : CellId} (hc : c ∈ C) (v e : Content α) :
    Keeps (b.Inside C D) (setMeasured c v e) :=
  (setCell_keeps hc v none).bind fun _ => (Keeps.reading _).bind fun _ => setCell_keeps hc v _

theorem setEntry_keeps {c : CellId} (hc : c ∈ C) : ∀ e : Entry α,
    Keeps (b.Inside C D) (setEntry c e)
  | .given g => setCell_keeps hc g.content none
  | .measured v e => setMeasured_keeps hc v e
  | .cell _ => Keeps.get.bind fun _ => setMeasured_keeps hc _ _

theorem setEntries_keeps {r : Registry} : ∀ es : List (String × Entry α),
    (∀ e ∈ es, ∀ c, r.find? e.1 = some c → c ∈ C) → Keeps (b.Inside C D) (setEntries r es)
  | [], _ => Keeps.pure ()
  | (n, e) :: rest, h => by
    rw [List.forall_mem_cons] at h
    unfold setEntries
    cases hc : r.find? n with
    | none => exact setEntries_keeps rest h.2
    | some c => exact (setEntry_keeps (h.1 c hc) e).bind fun _ => setEntries_keeps rest h.2

theorem setValues_keeps : ∀ (cs : List CellId) (gs : List (Given α)), (∀ c ∈ cs, c ∈ C) →
    Keeps (b.Inside C D) (setValues cs gs)
  | [], _, _ => Keeps.pure ()
  | _ :: _, [], _ => Keeps.pure ()
  | c :: cs, g :: gs, h => by
    rw [List.forall_mem_cons] at h
    exact (setCell_keeps h.1 g.content none).bind fun _ => setValues_keeps cs gs h.2

/-- Assigning to a registry changes its cells. -/
theorem assign_keeps {r : RegistryId} (hr : b.Covers C r) (input : Input α) (kind : String) :
    Keeps (b.Inside C D) (assign r input kind) := by
  intro s hs
  have hcells : ∀ n c, (s.registry r).find? n = some c → c ∈ C := by
    rw [hs.registries r hr.bounded]
    exact hr.cells
  unfold assign
  refine ends_get_bind ?_
  cases input with
  | mapping entries =>
    exact ends_ite (fun _ => setEntries_keeps entries (fun e _ => hcells e.1) s hs) fun _ =>
      ends_throw hs
  | row gs =>
    refine ends_ite (fun _ => setValues_keeps _ gs (fun c hc => ?_) s hs) fun _ => ends_throw hs
    obtain ⟨n, -, hc⟩ := List.mem_filterMap.mp hc
    exact hcells n c hc
  | _ => exact ends_throw hs

theorem note_keeps (n : Notice α) : Keeps (b.Inside C D) (note n) :=
  Keeps.modify fun _ hs => hs.of_same ⟨rfl, rfl, rfl⟩

end Run

/-! ### Normalizations -/

section

variable {b : Store α} {C : Set CellId} {D : Set StateId}

theorem Decay.cache_keeps {d : Decay α} (hd : d.state ∈ D) :
    Run.Keeps (b.Inside C D) d.cache := by
  intro s hs
  refine (d.cache_spec s).mono (fun _ t ⟨x, _, hsame⟩ => ?_) fun t ht => ht ▸ hs
  exact (hs.trans ((Store.within_withNorm hd x).inside hs.sound fun _ => rfl)).of_same hsame

theorem Model.cache_keeps {m : Model α} (hm : ∀ d ∈ m.states, d ∈ D) :
    Run.Keeps (b.Inside C D) m.cache := by
  cases m with
  | decay d => exact Decay.cache_keeps (hm _ (List.mem_singleton_self _))
  | formula h body c => exact Run.Keeps.modify fun _ hs => hs.of_same ⟨rfl, rfl, rfl⟩
  | _ => exact Run.Keeps.pure ()

theorem Composite.cacheModels_keeps : ∀ {ms : List (Model α)},
    (∀ m ∈ ms, ∀ d ∈ m.states, d ∈ D) → Run.Keeps (b.Inside C D) (cacheModels ms)
  | [], _ => Run.Keeps.pure ()
  | _ :: _, h => by
    rw [List.forall_mem_cons] at h
    exact (Model.cache_keeps h.1).bind fun _ => Composite.cacheModels_keeps h.2

namespace Density

/-- The changing parts of a density. -/
def states (d : Density α) : List StateId := d.models.flatMap Model.states

theorem cache_keeps {d : Density α} (h : ∀ e ∈ d.states, e ∈ D) :
    Run.Keeps (b.Inside C D) d.cache := by
  have hm : ∀ m ∈ d.models, ∀ e ∈ m.states, e ∈ D := fun m hm e he =>
    h e (List.mem_flatMap.mpr ⟨m, hm, he⟩)
  cases d with
  | model m => exact Model.cache_keeps (hm m (List.mem_singleton_self m))
  | composite p => exact Composite.cacheModels_keeps hm

theorem setNamed_keeps {r : RegistryId} (hr : b.Covers C r) (kind : CellKind) (name : String)
    (value error : Content α) :
    Run.Keeps (b.Inside C D) (setNamed r kind name value error) := by
  intro s hs
  unfold setNamed
  refine Run.ends_get_bind ?_
  cases hc : (s.registry r).find? name with
  | none => exact Run.ends_throw hs
  | some c =>
    rw [hs.registries r hr.bounded] at hc
    exact Run.setMeasured_keeps (hr.cells name c hc) value error s hs

variable {d : Density α}

theorem setVar_keeps (hv : b.Covers C d.vars) (name : String) (value error : Content α) :
    Run.Keeps (b.Inside C D) (d.setVar name value error) := setNamed_keeps hv _ _ _ _

theorem setVars_keeps (hv : b.Covers C d.vars) (input : Input α) :
    Run.Keeps (b.Inside C D) (d.setVars input) := Run.assign_keeps hv _ _

theorem setPar_keeps (hp : b.Covers C d.pars) (hD : ∀ e ∈ d.states, e ∈ D) (name : String)
    (value error : Content α) : Run.Keeps (b.Inside C D) (d.setPar name value error) :=
  (setNamed_keeps hp _ _ _ _).bind fun _ => cache_keeps hD

theorem setPars_keeps (hp : b.Covers C d.pars) (hD : ∀ e ∈ d.states, e ∈ D) (input : Input α) :
    Run.Keeps (b.Inside C D) (d.setPars input) :=
  (Run.assign_keeps hp _ _).bind fun _ => cache_keeps hD

end Density

end

/-! ### Setters -/

/-- The calls that set variables or parameters of a density, or renew what it derives
from its parameters. -/
inductive Setter (α : Type) where
  | setVar (name : String) (value error : Content α)
  | setVars (input : Input α)
  | setPar (name : String) (value error : Content α)
  | setPars (input : Input α)
  | cache

namespace Setter

/-- What a call does to a density. -/
def perform (d : Density α) : Setter α → Run α Unit
  | setVar name value error => d.setVar name value error
  | setVars input => d.setVars input
  | setPar name value error => d.setPar name value error
  | setPars input => d.setPars input
  | cache => d.cache

omit [Scalar α] in
/-- Whether the call sets parameters. -/
def setsPars : Setter α → Bool
  | setPar .. | setPars _ => true
  | _ => false

/-- **A setter changes cells of the density and its normalizations**, whether it succeeds
or fails. -/
theorem perform_keeps {b : Store α} {C : Set CellId} {D : Set StateId} {d : Density α}
    (hv : b.Covers C d.vars) (hp : b.Covers C d.pars) (hD : ∀ e ∈ d.states, e ∈ D) :
    ∀ σ : Setter α, Run.Keeps (b.Inside C D) (σ.perform d)
  | setVar .. => Density.setVar_keeps hv _ _ _
  | setVars _ => Density.setVars_keeps hv _
  | setPar .. => Density.setPar_keeps hp hD _ _ _
  | setPars _ => Density.setPars_keeps hp hD _
  | cache => Density.cache_keeps hD

end Setter

/-! ### Fits -/

omit [Scalar α] in
/-- A search does nothing but probe. -/
theorem Search.run_calling {β : Type} (f : List α → Run α α) :
    ∀ search : Search α β, Run.Calling f (search.run f)
  | .done b => .pure b
  | .probe x next => (Run.Calling.call x).bind fun y => Search.run_calling f (next y)

theorem hessian_calling (f : List α → Run α α) (x : List α) (f0 : α) (bounds : List (Bounds α))
    (relative : Option α) : Run.Calling f (hessian f x f0 bounds relative) := by
  have hdiagonal : ∀ eps i, Run.Calling f (Hessian.diagonal f x f0 eps i) := fun eps i =>
    (Run.Calling.call _).bind fun _ => (Run.Calling.call _).bind fun _ => .pure _
  have hmixed : ∀ eps i j, Run.Calling f (Hessian.mixed f x eps i j) := fun eps i j =>
    (Run.Calling.call _).bind fun _ => (Run.Calling.call _).bind fun _ =>
      (Run.Calling.call _).bind fun _ => (Run.Calling.call _).bind fun _ => .pure _
  have hrow : ∀ eps i, Run.Calling f (Hessian.row f x f0 eps i) := fun eps i =>
    (hdiagonal eps i).bind fun _ => (Run.Calling.mapM (hmixed eps i) _).bind fun _ => .pure _
  unfold hessian
  cases Hessian.steps (relative.getD 1e-4) x bounds with
  | error e => exact .pure _
  | ok eps =>
    show Run.Calling f (if _ then _ else _)
    split_ifs
    · exact .pure _
    · exact (Run.Calling.mapM (hrow eps) _).bind fun _ => .pure _

/-- **A fit changes parameters and normalizations of the density**, whatever the minimizer
does and wherever the fit fails. -/
theorem fit_keeps {β : Type} {b : Store α} {C : Set CellId} {D : Set StateId} {d : Density α}
    (hp : b.Covers C d.pars) (hD : ∀ e ∈ d.states, e ∈ D) (minimizer : Minimizer α β)
    (data : Input α) (options : Fit.Options α) :
    Run.Keeps (b.Inside C D) (fit minimizer d data options) := by
  have hobjective : ∀ names columns x, Run.Keeps (b.Inside C D) (Fit.objective d names columns x) :=
    fun names columns x => (Density.setPars_keeps hp hD _).bind fun _ => Run.Keeps.reading _
  unfold fit
  refine (Run.Keeps.reading _).bind fun names => (Run.Keeps.reading _).bind fun start =>
    (Run.Keeps.reading _).bind fun bounds => (Run.Keeps.reading _).bind fun columns => ?_
  refine ((Search.run_calling _ _).keeps (hobjective names columns)).bind fun (report, extra) => ?_
  refine (hobjective names columns _).bind fun nll => ?_
  refine ((hessian_calling _ _ _ _ _).keeps (hobjective names columns)).bind fun h => ?_
  refine (Run.Keeps.reading _).bind fun h => ?_
  extract_lets cov finish
  have hfinish : ∀ errors, Run.Keeps (b.Inside C D) (finish errors) := fun errors =>
    (Density.setPars_keeps hp hD _).bind fun _ => Run.Keeps.pure _
  cases cov with
  | none => exact (Run.note_keeps _).bind fun _ => (Run.Keeps.pure _).bind hfinish
  | some c => exact (Run.Keeps.pure _).bind hfinish

end DensityAlgebra
