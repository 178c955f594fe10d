/-
# What is made and what it was made of

A builder, an operator that yields a density, a function put on a decay density and a
copy leave all objects of a session as they were, and what they make has no cell and no
stored normalization in common with any of them. So whatever happens to it later, cells
that are set, setters, fits and functions put on it, the objects that were there have
the same values before and after, and it has when something happens to one of them. It
does not matter what else has happened in the session in between.

Key definitions: `Change`, `Change.On`, `Store.afterChanges`.
Key theorems: `Change.run_keeps`, `Store.afterChanges_inside`, `Making.isolated`.
-/
import DensityAlgebra.Proofs.Footprints
import DensityAlgebra.Proofs.Rational

namespace DensityAlgebra

variable {α : Type}

/-! ### Changes -/

/-- What can happen to an object: a cell takes a value, a setter is called, a density is
fitted, or a decay density is multiplied by a function. -/
inductive Change (α : Type) : Type 1 where
  | cell (c : CellId) (value error : Content α)
  | set (d : Density α) (σ : Setter α)
  | fit {β : Type} (minimizer : Minimizer α β) (d : Density α) (data : Input α)
      (options : Fit.Options α)
  | withWeight (d : Decay α) (w : Weight α)

/-- The density that an object is, and the models of a composite. -/
def Object.densities : Object α → List (Density α)
  | density d => d :: d.models.map .model
  | _ => []

variable [Scalar α]

/-- The change is one of this object: it reaches the cell, or it is or has the density. -/
def Change.On (s : Store α) (o : Object α) : Change α → Prop
  | cell c _ _ => c ∈ o.cells s
  | set d _ => d ∈ o.densities
  | fit _ d _ _ => d ∈ o.densities
  | withWeight d w => .model (.decay d) ∈ o.densities ∧ w.Valid s

def Change.run : Change α → Run α Unit
  | cell c value error => Run.setMeasured c value error
  | set d σ => σ.perform d
  | fit minimizer d data options => do
    let _ ← DensityAlgebra.fit minimizer d data options
    return ()
  | withWeight d w => do
    let _ ← d.withWeight w
    return ()

/-- The store after changes, each of which may succeed or fail. -/
def Store.afterChanges (s : Store α) (changes : List (Change α)) : Store α :=
  changes.foldl (fun s c => (c.run.outcome s).2) s

/-! ### What changes can reach -/

/-- A density of a valid object is valid, and has no registry and no state of its own. -/
theorem Object.mem_densities {s : Store α} {o : Object α} (ho : o.Valid s)
    {d : Density α} (hd : d ∈ o.densities) :
    d.Valid s ∧ d.registries ⊆ o.registries ∧ d.states ⊆ o.states := by
  cases o with
  | density e =>
    rcases List.mem_cons.mp hd with rfl | hd
    · exact ⟨ho, List.Subset.refl _, List.Subset.refl _⟩
    · obtain ⟨m, hm, rfl⟩ := List.mem_map.mp hd
      refine ⟨Density.Valid.models ho m hm, Density.registries_of_model hm, fun x hx => ?_⟩
      have hx' : x ∈ [m].flatMap Model.states := hx
      rw [List.flatMap_singleton] at hx'
      exact List.mem_flatMap.mpr ⟨m, hm, hx'⟩
  | _ => exact absurd hd List.not_mem_nil

/-- What a density sets are cells of the object that has it. -/
theorem Object.covers_densities {s : Store α} {o : Object α} (ho : o.Valid s) {d : Density α}
    (hd : d ∈ o.densities) {r : RegistryId} (hr : r ∈ d.registries) :
    s.Covers {c | c ∈ o.cells s} r where
  bounded := (Object.mem_densities ho hd).1.registries_bounded r hr
  cells n c hc := by
    have hmem : c ∈ (s.registry r).cells := Registry.mem_cells_of_find? hc
    cases o with
    | density e => exact ⟨r, (Object.mem_densities ho hd).2.1 hr, hmem⟩
    | _ => exact absurd hd List.not_mem_nil

/-- **A change of an object** changes its cells and its stored normalizations at most,
whether it succeeds or fails. -/
theorem Change.run_keeps {s : Store α} {o : Object α} (ho : o.Valid s) {c : Change α}
    (hc : c.On s o) : Run.Keeps (s.Inside {c | c ∈ o.cells s} {d | d ∈ o.states}) c.run := by
  cases c with
  | cell c value error => exact Run.setMeasured_keeps hc value error
  | set d σ =>
    exact σ.perform_keeps (Object.covers_densities ho hc d.heads_mem.1)
      (Object.covers_densities ho hc d.heads_mem.2) (Object.mem_densities ho hc).2.2
  | fit minimizer d data options =>
    exact (fit_keeps (Object.covers_densities ho hc d.heads_mem.2)
      (Object.mem_densities ho hc).2.2 minimizer data options).bind fun _ => Run.Keeps.pure _
  | withWeight d w =>
    intro t ht
    have hap : t.Apart t := Store.Apart.refl ht.sound
    have hd : (Model.decay d).Valid t :=
      Model.Valid.grows (Object.mem_densities ho hc.1).1 ht.toGrows
    have hkept : ∀ {u : Store α}, t.Apart u →
        s.Inside {c | c ∈ o.cells s} {d | d ∈ o.states} u := fun hu =>
      ht.trans { hu.toWithin.mono (Set.empty_subset _) (Set.empty_subset _) with
        sound := hu.sound }
    refine ((Decay.withWeight_spec hap hd (hc.2.grows ht.toGrows)).mono (fun _ _ h => h)
      fun _ h => hkept h).bind fun e u hu => ?_
    exact Run.ends_pure (hkept hu.1)

/-- **Many changes of an object** change no more than that. -/
theorem Store.afterChanges_inside {s : Store α} {o : Object α} (ho : o.Valid s) :
    ∀ (changes : List (Change α)) {t : Store α}, (∀ c ∈ changes, c.On s o) →
      s.Inside {c | c ∈ o.cells s} {d | d ∈ o.states} t →
      s.Inside {c | c ∈ o.cells s} {d | d ∈ o.states} (t.afterChanges changes)
  | [], _, _, ht => ht
  | c :: rest, t, hc, ht => by
    rw [List.forall_mem_cons] at hc
    exact Store.afterChanges_inside ho rest hc.2 ((Change.run_keeps ho hc.1).after ht)

/-- What happens to an object does not change the value of a separate one. -/
theorem Object.Separate.sameValue {s : Store α} {o x : Object α} (h : o.Separate s x)
    (hs : s.Sound) (ho : o.Valid s) (hx : x.Valid s) {changes : List (Change α)}
    (hc : ∀ c ∈ changes, c.On s o) : x.SameValue s (s.afterChanges changes) := by
  have hin := Store.afterChanges_inside ho changes hc (Store.Inside.refl hs)
  exact hx.sameValue hin.toWithin hs h.symm.cells h.symm.states

/-! ### Isolation -/

namespace Making

/-- **What is made is isolated.** Whatever is there in a session is as it was after a
builder, an operator that yields a density, a function put on a decay density, or a
copy; nothing that can be reached from it can be reached from what was made; and at
every later time changes of the one leave the value of the other alone. -/
theorem isolated (calls : List (Call α)) (m : Making α) {o : Object α} {t : Store α}
    (hrun : (m.run (Session.after calls).objects).outcome (Session.after calls).store = (.ok o, t))
    (hkind : o.isDensity = true ∨ m.isCopy = true) :
    ∀ x ∈ (Session.after calls).objects,
      (x.cells t = x.cells (Session.after calls).store ∧
        (∀ c ∈ x.cells t, t.cell c = (Session.after calls).store.cell c) ∧
        (∀ r ∈ x.registries, t.registry r = (Session.after calls).store.registry r) ∧
        ∀ d ∈ x.states, t.state d = (Session.after calls).store.state d) ∧
      (∀ c ∈ o.cells t, c ∉ x.cells t) ∧
      ∀ later : List (Call α), let u := (Session.after (calls ++ .make m :: later)).store
        (∀ changes : List (Change α), (∀ c ∈ changes, c.On u o) →
          x.SameValue u (u.afterChanges changes)) ∧
        ∀ changes : List (Change α), (∀ c ∈ changes, c.On u x) →
          o.SameValue u (u.afterChanges changes) := by
  intro x hx
  have hvalid := Session.after_valid calls
  have hmakes := (m.run_spec hvalid.sound hvalid.objects).ok hrun
  have hxs := hvalid.objects x hx
  have hsep := (hmakes.new hkind).separate hvalid.sound hxs hmakes.apart.toGrows
  have hxt := hxs.grows hmakes.apart.toGrows
  have hcells := Object.cells_grows hxs hmakes.apart.toGrows
  refine ⟨⟨hcells, fun c hc => ?_, fun r hr => ?_, fun d hd => ?_⟩, hsep.cells, ?_⟩
  · rw [hcells] at hc
    exact hmakes.apart.cells c (hxs.cells_bounded hvalid.sound c hc) (Set.notMem_empty _)
  · exact hmakes.apart.registries r (hxs.registries_bounded r hr)
  · exact hmakes.apart.states d (hxs.states_bounded d hd) (Set.notMem_empty _)
  · intro later u
    have hstep : (Session.after calls).step (.make m) = ⟨t, (Session.after calls).objects ++ [o]⟩ :=
      Session.step_make hrun
    have hafter : Session.after (calls ++ .make m :: later) =
        later.foldl Session.step ⟨t, (Session.after calls).objects ++ [o]⟩ := by
      rw [← hstep]
      show List.foldl _ _ _ = _
      rw [List.foldl_append]
      rfl
    have hmade : Session.Valid ⟨t, (Session.after calls).objects ++ [o]⟩ :=
      hstep ▸ hvalid.step (.make m)
    have htu : t.Evolves u := by
      show t.Evolves (Session.after _).store
      rw [hafter]
      exact hmade.run_evolves later
    have hou := hmakes.valid.grows htu.toGrows
    have hxu := hxt.grows htu.toGrows
    have hsepu := hsep.grows hmakes.valid hxt htu.toGrows
    exact ⟨fun changes hc => hsepu.sameValue htu.sound hou hxu hc,
      fun changes hc => hsepu.symm.sameValue htu.sound hxu hou hc⟩

/-- The product of two densities is isolated from its first factor, also when a parameter
that they both have is set. -/
theorem isolated_product : ∃ p q t,
    .density (.composite p) ∈ (Session.after Sample.operands).objects ∧
    (Sample.product.run (Session.after Sample.operands).objects).outcome
      (Session.after Sample.operands).store = (.ok (.density (.composite q)), t) ∧
    (∀ c ∈ (Object.density (.composite q)).cells t, c ∉ (Object.density (.composite p)).cells t) ∧
    let u := (Session.after (Sample.operands ++ [.make Sample.product])).store
    (Object.density (.composite p)).SameValue u
      (u.afterChanges [.set (.composite q) (.setPar "a" (.scalar 5) (.scalar 0))]) := by
  obtain ⟨p, hp⟩ := Sample.first_factor
  obtain ⟨q, t, hrun⟩ := Sample.product_made
  obtain ⟨-, hsep, hlater⟩ := isolated Sample.operands Sample.product hrun (.inl rfl) _ hp
  refine ⟨p, q, t, hp, hrun, hsep, (hlater []).1 _ ?_⟩
  rw [List.forall_mem_singleton]
  exact List.mem_cons_self

end Making

end DensityAlgebra
