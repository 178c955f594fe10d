/-
# What setting parameters restores

Whatever has happened to a density before, a call that sets parameters leaves all of its
stored normalizations right. Setters of variables keep them right, and so does all that
happens to densities that have nothing in common with it. So what a copy of a composite
has gone through is forgotten, except for the values of its parameters: two copies with
equal parameters have the same value at every point, once parameters were set on each
of them.

For that no cell may be a variable and a parameter of the composite at once: setting it
as a variable changes a parameter and renews nothing.

Key definitions: `Density.Unmixed`, `Addressee`, `Setter.performAll`,
`Composite.twoCopies`.
Key theorems: `Setter.performAll_fresh`, `Composite.alike_of_copies`,
`Composite.setters_restore`.
-/
import DensityAlgebra.Proofs.Footprints
import DensityAlgebra.Proofs.Rational

namespace DensityAlgebra

variable {α : Type} [Scalar α]

/-! ### Setters in a row -/

/-- Whose setter is called: that of a copy, by its position, or that of a density that is
held. -/
inductive Addressee where
  | copy (i : Nat)
  | held (i : Nat)
  deriving DecidableEq, Repr

omit [Scalar α] in
/-- The density that is meant. -/
def Addressee.density (os : List (Object α)) (copies : List (Composite α)) :
    Addressee → Except (Fault α) (Density α)
  | copy i =>
    match copies[i]? with
    | some q => .ok (.composite q)
    | none => .error .missingItem
  | held i => Held.density os i

/-- Calls one after the other. -/
def Setter.performAll (os : List (Object α)) (copies : List (Composite α)) :
    List (Addressee × Setter α) → Run α Unit
  | [] => pure ()
  | (a, σ) :: rest => do
    let d ← Run.reading fun _ => a.density os copies
    σ.perform d
    performAll os copies rest

/-- Two copies of a composite; setters are called on anything that is there between the
one and the other, and after both. -/
def Composite.twoCopies (p : Composite α) (os : List (Object α))
    (early late : List (Addressee × Setter α)) : Run α (Composite α × Composite α) := do
  let q₁ ← p.copy
  Setter.performAll os [q₁] early
  let q₂ ← p.copy
  Setter.performAll os [q₁, q₂] late
  return (q₁, q₂)

/-! ### What keeps normalizations right -/

/-- No cell is a variable and a parameter of the density. -/
def Density.Unmixed (s : Store α) (d : Density α) : Prop :=
  ∀ c ∈ (s.registry d.vars).cells, c ∉ (s.registry d.pars).cells

omit [Scalar α] in
/-- No model has a parameter among the variables. -/
theorem Density.Unmixed.misses {s : Store α} {d : Density α} (h : d.Unmixed s)
    (hd : d.Valid s) : ∀ m ∈ d.models, m.Misses s {c | c ∈ (s.registry d.vars).cells} := by
  intro m hm r hr n c hc hmem
  exact h c hmem (Registry.mem_cells_of_find? (hd.pars_under m hm r hr n c hc))

/-- **Setters of variables keep normalizations right.** -/
theorem Setter.perform_stays_fresh {s : Store α} {d : Density α} (hs : s.Sound)
    (hd : d.Valid s) (hun : d.Unmixed s) {σ : Setter α}
    (hσ : σ.setsPars = false ∧ σ ≠ .cache) (hfresh : ∀ m ∈ d.models, m.Fresh s) :
    (σ.perform d).Ends s (fun _ t => ∀ m ∈ d.models, m.Fresh t) fun _ => True := by
  have hcovers : s.Covers {c | c ∈ (s.registry d.vars).cells} d.vars :=
    ⟨hd.covers.1.bounded, fun _ _ hc => Registry.mem_cells_of_find? hc⟩
  have hset : ∀ {x : Run α Unit},
      Run.Keeps (s.Inside {c | c ∈ (s.registry d.vars).cells} ∅) x →
        x.Ends s (fun _ t => ∀ m ∈ d.models, m.Fresh t) fun _ => True := fun hx =>
    (hx s (Store.Inside.refl hs)).mono (fun _ t ht m hm =>
      (hfresh m hm).within ht.toWithin hs (hd.models m hm) (hun.misses hd m hm)
        fun _ _ => Set.notMem_empty _) fun _ _ => trivial
  cases σ with
  | setVar name value error => exact hset (Density.setVar_keeps hcovers _ _ _)
  | setVars input => exact hset (Density.setVars_keeps hcovers _)
  | cache => exact absurd rfl hσ.2
  | _ => simp [Setter.setsPars] at hσ

/-- What happens to a separate density keeps normalizations right. -/
theorem Setter.perform_elsewhere {s : Store α} {d e : Density α} (hs : s.Sound)
    (hd : d.Valid s) (he : e.Valid s)
    (hsep : (Object.density e).Separate s (.density d)) (σ : Setter α)
    (hfresh : ∀ m ∈ d.models, m.Fresh s) :
    (σ.perform e).Ends s (fun _ t => ∀ m ∈ d.models, m.Fresh t) fun _ => True := by
  have hcovers : ∀ r ∈ e.registries,
      s.Covers {c | c ∈ (Object.density e).cells s} r := fun r hr =>
    ⟨he.registries_bounded r hr, fun _ _ hc => ⟨r, hr, Registry.mem_cells_of_find? hc⟩⟩
  have hkeeps := σ.perform_keeps (D := {x | x ∈ e.states}) (hcovers _ e.heads_mem.1)
    (hcovers _ e.heads_mem.2) (fun _ hx => hx) s (Store.Inside.refl hs)
  refine hkeeps.mono (fun _ t ht m hm => ?_) fun _ _ => trivial
  refine (hfresh m hm).within ht.toWithin hs (hd.models m hm) ?_ fun x hx hx' =>
    hsep.states x hx' (List.mem_flatMap.mpr ⟨m, hm, hx⟩)
  exact Model.misses_of_registries fun r hr c hc hc' =>
    hsep.cells c hc' ⟨r, Density.registries_of_model hm hr, hc⟩

omit [Scalar α] in
theorem Density.Unmixed.of_registries {s t : Store α} {d : Density α} (h : d.Unmixed s)
    (hv : t.registry d.vars = s.registry d.vars) (hp : t.registry d.pars = s.registry d.pars) :
    d.Unmixed t := by
  unfold Unmixed
  rw [hv, hp]
  exact h

namespace Setter

variable {b : Store α} {os : List (Object α)} {copies : List (Composite α)}

/-- Setters of valid densities change cells and stored normalizations only. -/
theorem performAll_keeps (hd : ∀ a d, Addressee.density os copies a = .ok d → d.Valid b) :
    ∀ calls : List (Addressee × Setter α),
      Run.Keeps (b.Inside Set.univ Set.univ) (performAll os copies calls)
  | [] => Run.Keeps.pure ()
  | (a, σ) :: rest => by
    intro s hs
    refine Run.ends_reading_bind hs fun d ha => ?_
    have hv := hd a d ha
    exact (σ.perform_keeps hv.covers.1 hv.covers.2 (fun _ _ => Set.mem_univ _) s hs).bind
      fun _ t ht => performAll_keeps hd rest t ht

/-- **Once parameters of a copy were set, its normalizations are right and stay right**,
whatever is called on densities that are separate from it. -/
theorem performAll_fresh {i : Nat} {q : Composite α} (hq : copies[i]? = some q)
    (hd : ∀ a d, Addressee.density os copies a = .ok d → d.Valid b)
    (hun : (Density.composite q).Unmixed b)
    (hsep : ∀ a d, a ≠ .copy i → Addressee.density os copies a = .ok d →
      (Object.density d).Separate b (.density (.composite q))) :
    ∀ (calls : List (Addressee × Setter α)) {s : Store α}, b.Inside Set.univ Set.univ s →
      ((∃ σ, (.copy i, σ) ∈ calls ∧ σ.setsPars = true) ∨ ∀ m ∈ q.models, m.Fresh s) →
      (performAll os copies calls).Ends s (fun _ t => ∀ m ∈ q.models, m.Fresh t) fun _ => True
  | [], s, _, hset => by
    refine Run.ends_pure (hset.elim ?_ id)
    rintro ⟨σ, hσ, -⟩
    simp at hσ
  | (a, σ) :: rest, s, hs, hset => by
    have hself : Addressee.density os copies (.copy i) = .ok (.composite q) := by
      unfold Addressee.density
      simp only [hq]
    have hqb : q.Valid b := hd _ _ hself
    have hqs : (Density.composite q).Valid s := hqb.grows hs.toGrows
    have huns : (Density.composite q).Unmixed s :=
      hun.of_registries (hs.registries _ hqb.bounded.1) (hs.registries _ hqb.bounded.2)
    refine Run.ends_reading_bind trivial fun d ha => ?_
    have hdb := hd a d ha
    have hkeeps := (σ.perform_keeps hdb.covers.1 hdb.covers.2 (D := Set.univ)
      (fun _ _ => Set.mem_univ _) s hs).mono (fun _ _ h => h) fun _ _ => trivial
    -- a call after which the normalizations are right
    have hright : (σ.perform d).Ends s (fun _ t => ∀ m ∈ q.models, m.Fresh t) (fun _ => True) →
        (σ.perform d >>= fun _ => performAll os copies rest).Ends s
          (fun _ t => ∀ m ∈ q.models, m.Fresh t) fun _ => True := fun hfresh =>
      ((hkeeps.and hfresh).mono (fun _ _ h => h) fun _ _ => trivial).bind fun _ t ht =>
        performAll_fresh hq hd hun hsep rest ht.1 (.inr ht.2)
    -- a call after which they will become right
    have hlater : (∃ σ', (.copy i, σ') ∈ rest ∧ σ'.setsPars = true) →
        (σ.perform d >>= fun _ => performAll os copies rest).Ends s
          (fun _ t => ∀ m ∈ q.models, m.Fresh t) fun _ => True := fun hrest =>
      hkeeps.bind fun _ t ht => performAll_fresh hq hd hun hsep rest ht (.inl hrest)
    by_cases hcopy : a = .copy i
    · subst hcopy
      obtain rfl : Density.composite q = d := Except.ok.inj (hself.symm.trans ha)
      by_cases hσ : σ.setsPars = true ∨ σ = .cache
      · exact hright (perform_fresh hs.sound hqs hσ)
      · rw [not_or, Bool.not_eq_true] at hσ
        rcases hset with ⟨σ', hmem, hpars⟩ | hfresh
        · rcases List.mem_cons.mp hmem with heq | hmem
          · obtain rfl := (Prod.mk.inj heq).2
            simp [hσ.1] at hpars
          · exact hlater ⟨σ', hmem, hpars⟩
        · exact hright (perform_stays_fresh hs.sound hqs huns hσ hfresh)
    · rcases hset with ⟨σ', hmem, hpars⟩ | hfresh
      · rcases List.mem_cons.mp hmem with heq | hmem
        · exact absurd (Prod.mk.inj heq).1.symm hcopy
        · exact hlater ⟨σ', hmem, hpars⟩
      · have hsep' := (hsep a d hcopy ha).grows (o := .density d)
          (x := .density (.composite q)) hdb hqb hs.toGrows
        exact hright (perform_elsewhere hs.sound hqs (hdb.grows hs.toGrows) hsep' σ hfresh)

end Setter

/-! ### Copies of one composite -/

namespace Composite

/-- The composite was copied between the two stores. -/
structure CopiedTo (s t : Store α) (p q : Composite α) (f : RegistryId → RegistryId)
    (g : CellId → CellId) : Prop where
  apart : s.Apart t
  registries : s.Copied t p.registries f g
  shape : p.CopyOf f s t q
  built : q.Built s t

theorem copiedTo_of_outcome {s t : Store α} {p q : Composite α} (hs : s.Sound) (hp : p.Valid s)
    (h : p.copy.outcome s = (.ok q, t)) : ∃ f g, CopiedTo s t p q f g := by
  obtain ⟨q', t', f, g, ht, hap, hf, hcopy⟩ := copy_spec hs p hp.bounded_states
  obtain ⟨hq, rfl⟩ := Prod.mk.inj (h.symm.trans ht)
  obtain rfl := Except.ok.inj hq
  exact ⟨f, g, hap, hf, hcopy, (composed_of_copy hp hap hf hcopy).built⟩

/-- A copy has no cell twice where the original has none. -/
theorem CopiedTo.unmixed {s t : Store α} {p q : Composite α} {f : RegistryId → RegistryId}
    {g : CellId → CellId} (h : CopiedTo s t p q f g) (hun : (Density.composite p).Unmixed s) :
    (Density.composite q).Unmixed t := by
  have hcells : ∀ r ∈ p.registries, (t.registry (f r)).cells = (s.registry r).cells.map g := by
    intro r hr
    rw [h.registries.registry r hr]
    simp [Registry.cells, Registry.rename]
  intro c hc hc'
  have hc₁ : c ∈ (t.registry q.vars).cells := hc
  have hc₂ : c ∈ (t.registry q.pars).cells := hc'
  rw [h.shape.vars, hcells _ p.vars_mem] at hc₁
  rw [h.shape.pars, hcells _ p.pars_mem] at hc₂
  obtain ⟨d, hd, rfl⟩ := List.mem_map.mp hc₁
  obtain ⟨e, he, heq⟩ := List.mem_map.mp hc₂
  have hsame := h.registries.cells.injective e (List.mem_flatMap.mpr ⟨_, p.pars_mem, he⟩) d
    (List.mem_flatMap.mpr ⟨_, p.vars_mem, hd⟩) heq
  rw [hsame] at he
  exact hun d hd he

/-- The names of a copy, and the bins per axis of its decay densities, are the original's
also later on. -/
theorem CopiedTo.names {s t u : Store α} {p q : Composite α} {f : RegistryId → RegistryId}
    {g : CellId → CellId} (h : CopiedTo s t p q f g) (hu : t.Inside Set.univ Set.univ u)
    {r : RegistryId} (hr : r ∈ p.registries) :
    (u.registry (f r)).names = (s.registry r).names := by
  rw [hu.registries _ (h.registries.fresh r hr).2]
  exact h.registries.names hr

theorem CopiedTo.resolutions {s t u : Store α} {p q : Composite α}
    {f : RegistryId → RegistryId} {g : CellId → CellId} (h : CopiedTo s t p q f g)
    (hu : t.Inside Set.univ Set.univ u) {k m : Model α} (hm : m ∈ q.models)
    (hk : m.states.map t.state = k.states.map s.state) :
    m.states.map (fun d => (u.state d).resolution) =
      k.states.map fun d => (s.state d).resolution := by
  have hcopied := congrArg (List.map DecayState.resolution) hk
  rw [List.map_map, List.map_map] at hcopied
  refine Eq.trans (List.map_congr_left fun d hd => ?_) hcopied
  exact hu.resolutions d (h.shape.models.fresh d (List.mem_flatMap.mpr ⟨m, hm, hd⟩)).2

/-- **Two copies of a composite are alike** once they have the same parameters and right
normalizations, whatever they have gone through. -/
theorem alike_of_copies {s₁ t₁ s₂ t₂ u : Store α} {p q₁ q₂ : Composite α}
    {f₁ f₂ : RegistryId → RegistryId} {g₁ g₂ : CellId → CellId} (hp : p.Valid s₁)
    (h₁ : CopiedTo s₁ t₁ p q₁ f₁ g₁) (h₂ : CopiedTo s₂ t₂ p q₂ f₂ g₂)
    (hs : s₁.Inside Set.univ Set.univ s₂) (hu₁ : t₁.Inside Set.univ Set.univ u)
    (hu₂ : t₂.Inside Set.univ Set.univ u) (hv₁ : q₁.Valid u) (hv₂ : q₂.Valid u)
    (hpars : ∀ n, u.value? q₁.pars n = u.value? q₂.pars n)
    (hfresh₁ : ∀ m ∈ q₁.models, m.Fresh u) (hfresh₂ : ∀ m ∈ q₂.models, m.Fresh u) :
    q₁.Alike u u q₂ := by
  have hnames : ∀ r ∈ p.registries, (u.registry (f₁ r)).names = (u.registry (f₂ r)).names := by
    intro r hr
    rw [h₁.names hu₁ hr, h₂.names hu₂ hr, hs.registries r (hp.bounded_registries r hr)]
  have hboth₁ := h₁.shape.models.shapes.mp (fun _ _ h h' => And.intro h h')
    h₁.shape.models.contents
  have hboth₂ := h₂.shape.models.shapes.mp (fun _ _ h h' => And.intro h h')
    h₂.shape.models.contents
  have hmodels : List.Forall₂ (fun m₁ m₂ => m₁.Alike u u m₂ ∧ m₁.norms u = m₂.norms u)
      q₁.models q₂.models := by
    refine forall₂_of_mem (forall₂_through hboth₁ hboth₂) ?_
    rintro m₁ hm₁ m₂ hm₂ ⟨k, hk, ⟨hshape₁, hstates₁⟩, hshape₂, hstates₂⟩
    have halike : m₁.Alike u u m₂ := by
      refine ⟨k, f₁, f₂, hshape₁, hshape₂, fun r hr n => ?_, fun r hr => ?_, ?_⟩
      · have hmem : r ∈ p.registries := models_subset hk (k.parRegistries_subset hr)
        have hr₁ : f₁ r ∈ m₁.parRegistries := by
          rw [hshape₁.parRegistries]
          exact List.mem_map_of_mem hr
        have hr₂ : f₂ r ∈ m₂.parRegistries := by
          rw [hshape₂.parRegistries]
          exact List.mem_map_of_mem hr
        by_cases hn : n ∈ (u.registry (f₁ r)).names
        · rw [Store.value?_eq_of_under (hv₁.pars m₁ hm₁ _ hr₁) hn, hpars,
            Store.value?_eq_of_under (hv₂.pars m₂ hm₂ _ hr₂) (hnames r hmem ▸ hn)]
        · rw [Store.value?_of_not_mem hn, Store.value?_of_not_mem (hnames r hmem ▸ hn)]
      · exact hnames r (models_subset hk (k.varRegistries_subset hr))
      · rw [h₁.resolutions hu₁ hm₁ hstates₁, h₂.resolutions hu₂ hm₂ hstates₂]
        exact List.map_congr_left fun d hd => (hs.resolutions d ((hp.models k hk).states d hd)).symm
    exact ⟨halike, halike.norms_eq (hv₁.models m₁ hm₁) (hfresh₁ m₁ hm₁) (hfresh₂ m₂ hm₂)⟩
  refine ⟨h₁.shape.program.trans h₂.shape.program.symm, hmodels, ?_, hpars⟩
  rw [h₁.shape.vars, h₂.shape.vars]
  exact hnames _ p.vars_mem

/-! ### Two copies -/

/-- The stores that a run over two copies goes through. -/
structure Twice (os : List (Object α)) (s t₁ t₂ t₃ u : Store α) (p q₁ q₂ : Composite α)
    (f₁ f₂ : RegistryId → RegistryId) (g₁ g₂ : CellId → CellId)
    (early late : List (Addressee × Setter α)) : Prop where
  sound : s.Sound
  objects : ∀ o ∈ os, o.Valid s
  original : p.Valid s
  first : CopiedTo s t₁ p q₁ f₁ g₁
  between : (Setter.performAll os [q₁] early).outcome t₁ = (.ok (), t₂)
  second : CopiedTo t₂ t₃ p q₂ f₂ g₂
  after : (Setter.performAll os [q₁, q₂] late).outcome t₃ = (.ok (), u)

omit [Scalar α] in
theorem density_one {os : List (Object α)} {q : Composite α} {a : Addressee} {d : Density α}
    (h : a.density os [q] = .ok d) :
    .density d ∈ os ∨ (a = .copy 0 ∧ d = .composite q) := by
  cases a with
  | held i => exact .inl (List.mem_of_getElem? (Held.density_eq_ok h))
  | copy i =>
    match i, h with
    | 0, h => exact .inr ⟨rfl, (Except.ok.inj h).symm⟩
    | i + 1, h => simp [Addressee.density] at h

omit [Scalar α] in
theorem density_two {os : List (Object α)} {q₁ q₂ : Composite α} {a : Addressee} {d : Density α}
    (h : a.density os [q₁, q₂] = .ok d) :
    .density d ∈ os ∨ (a = .copy 0 ∧ d = .composite q₁) ∨ (a = .copy 1 ∧ d = .composite q₂) := by
  cases a with
  | held i => exact .inl (List.mem_of_getElem? (Held.density_eq_ok h))
  | copy i =>
    match i, h with
    | 0, h => exact .inr (.inl ⟨rfl, (Except.ok.inj h).symm⟩)
    | 1, h => exact .inr (.inr ⟨rfl, (Except.ok.inj h).symm⟩)
    | i + 2, h => simp [Addressee.density] at h

/-- What can be addressed after a copy was made is valid. -/
theorem CopiedTo.valid_one {os : List (Object α)} {s t : Store α} {p q : Composite α}
    {f : RegistryId → RegistryId} {g : CellId → CellId} (h : CopiedTo s t p q f g)
    (hos : ∀ o ∈ os, o.Valid s) (a : Addressee) (d : Density α)
    (ha : a.density os [q] = .ok d) : d.Valid t := by
  rcases density_one ha with hd | ⟨-, rfl⟩
  · exact (hos _ hd).grows h.apart.toGrows
  · exact h.built.valid

/-- A copy is separate from all that was there. -/
theorem CopiedTo.separate {s t : Store α} {p q : Composite α} {f : RegistryId → RegistryId}
    {g : CellId → CellId} (h : CopiedTo s t p q f g) (hs : s.Sound) {x : Object α}
    (hx : x.Valid s) : (Object.density (.composite q)).Separate t x :=
  (Object.New.of_composite h.apart h.built).separate hs hx h.apart.toGrows

namespace Twice

variable {os : List (Object α)} {s t₁ t₂ t₃ u : Store α} {p q₁ q₂ : Composite α}
  {f₁ f₂ : RegistryId → RegistryId} {g₁ g₂ : CellId → CellId}
  {early late : List (Addressee × Setter α)}

theorem inside_early (h : Twice os s t₁ t₂ t₃ u p q₁ q₂ f₁ f₂ g₁ g₂ early late) :
    t₁.Inside Set.univ Set.univ t₂ :=
  (Setter.performAll_keeps (h.first.valid_one h.objects) early t₁
    (Store.Inside.refl h.first.apart.sound)).ok h.between

theorem inside_second (h : Twice os s t₁ t₂ t₃ u p q₁ q₂ f₁ f₂ g₁ g₂ early late) :
    s.Inside Set.univ Set.univ t₂ := by
  have hfirst : s.Inside Set.univ Set.univ t₁ :=
    { h.first.apart.toWithin.mono (Set.empty_subset _) (Set.empty_subset _) with
      sound := h.first.apart.sound }
  exact hfirst.trans h.inside_early

/-- What was there, and the first copy, are valid when the second copy is made. -/
theorem objects_second (h : Twice os s t₁ t₂ t₃ u p q₁ q₂ f₁ f₂ g₁ g₂ early late) :
    (∀ o ∈ os, o.Valid t₂) ∧ q₁.Valid t₂ :=
  ⟨fun o ho => (h.objects o ho).grows h.inside_second.toGrows,
    h.first.built.valid.grows h.inside_early.toGrows⟩

theorem valid_late (h : Twice os s t₁ t₂ t₃ u p q₁ q₂ f₁ f₂ g₁ g₂ early late)
    (a : Addressee) (d : Density α) (ha : a.density os [q₁, q₂] = .ok d) : d.Valid t₃ := by
  rcases density_two ha with hd | ⟨-, rfl⟩ | ⟨-, rfl⟩
  · exact (h.objects_second.1 _ hd).grows h.second.apart.toGrows
  · exact h.objects_second.2.grows h.second.apart.toGrows
  · exact h.second.built.valid

theorem inside_late (h : Twice os s t₁ t₂ t₃ u p q₁ q₂ f₁ f₂ g₁ g₂ early late) :
    t₃.Inside Set.univ Set.univ u :=
  (Setter.performAll_keeps h.valid_late late t₃ (Store.Inside.refl h.second.apart.sound)).ok
    h.after

theorem inside_first (h : Twice os s t₁ t₂ t₃ u p q₁ q₂ f₁ f₂ g₁ g₂ early late) :
    t₁.Inside Set.univ Set.univ u := by
  have hsecond : t₂.Inside Set.univ Set.univ t₃ :=
    { h.second.apart.toWithin.mono (Set.empty_subset _) (Set.empty_subset _) with
      sound := h.second.apart.sound }
  exact (h.inside_early.trans hsecond).trans h.inside_late

/-- The second copy has right normalizations once its parameters were set. -/
theorem second_fresh (h : Twice os s t₁ t₂ t₃ u p q₁ q₂ f₁ f₂ g₁ g₂ early late)
    (hun : (Density.composite p).Unmixed s)
    (hset : ∃ σ, (.copy 1, σ) ∈ late ∧ σ.setsPars = true) : ∀ m ∈ q₂.models, m.Fresh u := by
  have hun₂ : (Density.composite p).Unmixed t₂ :=
    hun.of_registries (h.inside_second.registries _ h.original.bounded.1)
      (h.inside_second.registries _ h.original.bounded.2)
  refine (Setter.performAll_fresh (i := 1) rfl h.valid_late (h.second.unmixed hun₂) ?_ late
    (Store.Inside.refl h.second.apart.sound) (.inl hset)).ok h.after
  intro a d ha hd
  have hsound := h.inside_second.sound
  rcases density_two hd with hd | ⟨-, rfl⟩ | ⟨rfl, -⟩
  · exact (h.second.separate hsound (h.objects_second.1 _ hd)).symm
  · exact (h.second.separate hsound (x := .density (.composite q₁)) h.objects_second.2).symm
  · exact absurd rfl ha

/-- The first copy has right normalizations once its parameters were set, before the
second copy was made or after it. -/
theorem first_fresh (h : Twice os s t₁ t₂ t₃ u p q₁ q₂ f₁ f₂ g₁ g₂ early late)
    (hun : (Density.composite p).Unmixed s)
    (hset : ∃ σ, (.copy 0, σ) ∈ early ++ late ∧ σ.setsPars = true) :
    ∀ m ∈ q₁.models, m.Fresh u := by
  have hun₁ := h.first.unmixed hun
  have hsep : ∀ x ∈ os, x.Separate t₁ (.density (.composite q₁)) := fun x hx =>
    (h.first.separate h.sound (h.objects x hx)).symm
  have hvalid₁ : (Object.density (.composite q₁)).Valid t₁ := h.first.built.valid
  have h₁₂ := h.inside_early
  have h₁₃ : t₁.Grows t₃ := h₁₂.toGrows.trans h.second.apart.toGrows
  have hlate : (∃ σ, (.copy 0, σ) ∈ late ∧ σ.setsPars = true) ∨ ∀ m ∈ q₁.models, m.Fresh t₃ := by
    obtain ⟨σ, hσ, hpars⟩ := hset
    rcases List.mem_append.mp hσ with hσ | hσ
    · refine .inr fun m hm => ?_
      have hearly : ∀ m ∈ q₁.models, m.Fresh t₂ := by
        refine (Setter.performAll_fresh (i := 0) rfl (h.first.valid_one h.objects) hun₁ ?_ early
          (Store.Inside.refl h.first.apart.sound) (.inl ⟨σ, hσ, hpars⟩)).ok h.between
        intro a d ha hd
        rcases density_one hd with hd | ⟨rfl, -⟩
        · exact hsep _ hd
        · exact absurd rfl ha
      -- making the second copy changes nothing about the first one
      exact (hearly m hm).within h.second.apart.toWithin h₁₂.sound
        (h.objects_second.2.models m hm) (Model.misses_empty t₂ m) fun _ _ => Set.notMem_empty _
    · exact .inl ⟨σ, hσ, hpars⟩
  have hun₃ : (Density.composite q₁).Unmixed t₃ :=
    hun₁.of_registries (h₁₃.registries _ h.first.built.valid.bounded.1)
      (h₁₃.registries _ h.first.built.valid.bounded.2)
  refine (Setter.performAll_fresh (i := 0) rfl h.valid_late hun₃ ?_ late
    (Store.Inside.refl h.second.apart.sound) hlate).ok h.after
  intro a d ha hd
  rcases density_two hd with hd | ⟨rfl, -⟩ | ⟨-, rfl⟩
  · exact (hsep _ hd).grows ((h.objects _ hd).grows h.first.apart.toGrows) hvalid₁ h₁₃
  · exact absurd rfl ha
  · exact h.second.separate h₁₂.sound (x := .density (.composite q₁)) h.objects_second.2

/-- **The two copies are alike in the end** if they have the same parameters. -/
theorem alike (h : Twice os s t₁ t₂ t₃ u p q₁ q₂ f₁ f₂ g₁ g₂ early late)
    (hun : (Density.composite p).Unmixed s)
    (hset₁ : ∃ σ, (.copy 0, σ) ∈ early ++ late ∧ σ.setsPars = true)
    (hset₂ : ∃ σ, (.copy 1, σ) ∈ late ∧ σ.setsPars = true)
    (hpars : ∀ n, u.value? q₁.pars n = u.value? q₂.pars n) :
    q₁.Alike u u q₂ ∧ ∀ m ∈ q₁.models, m.Valid u := by
  have hv₁ := h.first.built.valid.grows h.inside_first.toGrows
  have hv₂ := h.second.built.valid.grows h.inside_late.toGrows
  exact ⟨alike_of_copies h.original h.first h.second h.inside_second h.inside_first
    h.inside_late hv₁ hv₂ hpars (h.first_fresh hun hset₁) (h.second_fresh hun hset₂), hv₁.models⟩

end Twice

/-- What a run over two copies goes through. -/
theorem twoCopies_eq_ok {os : List (Object α)} {s u : Store α} {p q₁ q₂ : Composite α}
    {early late : List (Addressee × Setter α)} (hs : s.Sound) (hos : ∀ o ∈ os, o.Valid s)
    (hp : p.Valid s) (h : (p.twoCopies os early late).outcome s = (.ok (q₁, q₂), u)) :
    ∃ t₁ t₂ t₃ f₁ f₂ g₁ g₂, Twice os s t₁ t₂ t₃ u p q₁ q₂ f₁ f₂ g₁ g₂ early late := by
  obtain ⟨q₁', t₁, hcopy₁, hrun⟩ := Run.outcome_bind_eq_ok h
  obtain ⟨⟨⟩, t₂, hearly, hrun⟩ := Run.outcome_bind_eq_ok hrun
  obtain ⟨q₂', t₃, hcopy₂, hrun⟩ := Run.outcome_bind_eq_ok hrun
  obtain ⟨⟨⟩, u', hlate, hrun⟩ := Run.outcome_bind_eq_ok hrun
  obtain ⟨heq, rfl⟩ := Prod.mk.inj hrun
  obtain ⟨rfl, rfl⟩ := Prod.mk.inj (Except.ok.inj heq)
  obtain ⟨f₁, g₁, hc₁⟩ := copiedTo_of_outcome hs hp hcopy₁
  have hin : t₁.Inside Set.univ Set.univ t₂ :=
    (Setter.performAll_keeps (hc₁.valid_one hos) early t₁
      (Store.Inside.refl hc₁.apart.sound)).ok hearly
  have hp₂ : p.Valid t₂ := hp.grows (hc₁.apart.toGrows.trans hin.toGrows)
  obtain ⟨f₂, g₂, hc₂⟩ := copiedTo_of_outcome hin.sound hp₂ hcopy₂
  exact ⟨t₁, t₂, t₃, f₁, f₂, g₁, g₂, hs, hos, hp, hc₁, hearly, hc₂, hlate⟩

/-- **Setting parameters restores normalizations.** In every session, after a call that
sets parameters of a composite all that its decay densities have stored is right. So two
copies of a composite of which no cell is a variable and a parameter at once have the
same value at every point as soon as their parameters are equal and were set, whichever
setters were called on them and on all that is there in between. -/
theorem setters_restore (calls : List (Call α)) (p : Composite α)
    (hp : .density (.composite p) ∈ (Session.after calls).objects) :
    (∀ (σ : Setter α) (t : Store α), σ.setsPars = true →
      (σ.perform (.composite p)).outcome (Session.after calls).store = (.ok (), t) →
        ∀ m ∈ p.models, m.Fresh t) ∧
    ∀ (early late : List (Addressee × Setter α)) (q₁ q₂ : Composite α) (u : Store α),
      (Density.composite p).Unmixed (Session.after calls).store →
      (p.twoCopies (Session.after calls).objects early late).outcome (Session.after calls).store =
        (.ok (q₁, q₂), u) →
      (∃ σ, (.copy 0, σ) ∈ early ++ late ∧ σ.setsPars = true) →
      (∃ σ, (.copy 1, σ) ∈ late ∧ σ.setsPars = true) →
      (∀ n, u.value? q₁.pars n = u.value? q₂.pars n) →
      ∀ input, input ≠ .nothing → q₁.evaluate u input = q₂.evaluate u input := by
  have hvalid := Session.after_valid calls
  have hpv : p.Valid (Session.after calls).store := hvalid.objects _ hp
  constructor
  · intro σ t hσ ht
    exact (Setter.perform_fresh hvalid.sound (d := .composite p) hpv (.inl hσ)).ok ht
  · intro early late q₁ q₂ u hun hrun hset₁ hset₂ hpars input hin
    obtain ⟨_, _, _, _, _, _, _, h⟩ := twoCopies_eq_ok hvalid.sound hvalid.objects hpv hrun
    obtain ⟨halike, hv⟩ := h.alike hun hset₁ hset₂ hpars
    exact evaluate_congr halike hv input fun h => absurd h hin

/-- The value under a name is the one that is listed for it. -/
theorem value?_eq_lookup (s : Store α) (r : RegistryId) (n : String) :
    s.value? r n = (s.currentValues r).lookup n := (lookup_map_snd _ _ n).symm

end Composite

namespace Sample

/-- Parameters of two copies of the product are set in different orders. -/
def early : List (Addressee × Setter ℚ) := [(.copy 0, .setPar "a" (.scalar 5) (.scalar 0))]

def late : List (Addressee × Setter ℚ) :=
  [(.copy 1, .setPars (.mapping [("w", .raw (.scalar 2)), ("a", .raw (.scalar 3))])),
    (.copy 0, .setPar "w" (.scalar 2) (.scalar 0)), (.copy 0, .setVar "t" (.scalar 7) (.scalar 0)),
    (.copy 1, .setPar "a" (.scalar 5) (.scalar 0))]

/-- A normal density whose variable is its parameter a, times the decay density. -/
def mixed : List (Call ℚ) :=
  cells ++ decay ++ [.gaussian "Gaussian" 4 4 5, .make (.single (.held 11)), .make product]

/-- The parameter a of one copy is set as a variable after it was set as a parameter. -/
def mixedLate : List (Addressee × Setter ℚ) :=
  [(.copy 0, .setPar "a" (.scalar 2) (.scalar 0)), (.copy 0, .setVar "a" (.scalar 3) (.scalar 0)),
    (.copy 1, .setPar "a" (.scalar 3) (.scalar 0))]

/-- Values for the four variables of either product. -/
def input : Input ℚ := .sequence [.scalar 3, .scalar 4, .scalar 5, .scalar 6]

/-- What two copies of the product of a session come to, where they can be made. -/
def outcome (calls : List (Call ℚ)) (early late : List (Addressee × Setter ℚ)) :
    Option (Composite ℚ × Composite ℚ × Composite ℚ × Store ℚ) :=
  match Held.composite (Session.after calls).objects 13 with
  | .ok p =>
    match (p.twoCopies (Session.after calls).objects early late).outcome
        (Session.after calls).store with
    | (.ok (q₁, q₂), u) => some (p, q₁, q₂, u)
    | _ => none
  | _ => none

theorem outcome_eq_some {calls : List (Call ℚ)} {early late : List (Addressee × Setter ℚ)}
    {p q₁ q₂ : Composite ℚ} {u : Store ℚ} (h : outcome calls early late = some (p, q₁, q₂, u)) :
    .density (.composite p) ∈ (Session.after calls).objects ∧
      (p.twoCopies (Session.after calls).objects early late).outcome (Session.after calls).store =
        (.ok (q₁, q₂), u) := by
  unfold outcome at h
  split at h
  · rename_i p' hp
    split at h
    · rename_i r₁ r₂ v hrun
      obtain ⟨rfl, rfl, rfl, rfl⟩ : p' = p ∧ r₁ = q₁ ∧ r₂ = q₂ ∧ v = u := by simpa using h
      exact ⟨List.mem_of_getElem? (Held.composite_eq_ok hp), hrun⟩
    · simp at h
  · simp at h

end Sample

namespace Composite

/-- Two copies of a product of densities with a common parameter, which was set early for
the one and late for the other. -/
theorem setters_restore_product : ∃ p q₁ q₂ u,
    .density (.composite p) ∈ (Session.after Sample.calls).objects ∧
    (Density.composite p).Unmixed (Session.after Sample.calls).store ∧
    (p.twoCopies (Session.after Sample.calls).objects Sample.early Sample.late).outcome
      (Session.after Sample.calls).store = (.ok (q₁, q₂), u) ∧
    (∀ n, u.value? q₁.pars n = u.value? q₂.pars n) ∧
    q₁.evaluate u Sample.input = q₂.evaluate u Sample.input := by
  have hrun : ∃ r ∈ Sample.outcome Sample.calls Sample.early Sample.late,
      (∀ c ∈ ((Session.after Sample.calls).store.registry r.1.vars).cells,
        c ∉ ((Session.after Sample.calls).store.registry r.1.pars).cells) ∧
      r.2.2.2.currentValues r.2.1.pars = r.2.2.2.currentValues r.2.2.1.pars := by
    decide +kernel
  obtain ⟨⟨p, q₁, q₂, u⟩, hsome, hun, hvalues⟩ := hrun
  obtain ⟨hp, hout⟩ := Sample.outcome_eq_some hsome
  have hpars : ∀ n, u.value? q₁.pars n = u.value? q₂.pars n := fun n => by
    rw [value?_eq_lookup, value?_eq_lookup, hvalues]
  refine ⟨p, q₁, q₂, u, hp, hun, hout, hpars, ?_⟩
  refine (setters_restore Sample.calls p hp).2 Sample.early Sample.late q₁ q₂ u hun hout
    ⟨.setPar "a" (.scalar 5) (.scalar 0), ?_, rfl⟩ ⟨.setPar "a" (.scalar 5) (.scalar 0), ?_, rfl⟩
    hpars _ ?_
  · exact List.mem_cons_self
  · exact List.mem_of_getElem? (i := 3) rfl
  · simp [Sample.input, Input.sequence]

/-- A parameter that is a variable as well can be set as a variable, and nothing is
renewed: two copies with equal parameters then have different values. -/
theorem not_restored_of_mixed : ¬ ∀ (calls : List (Call ℚ)) (p : Composite ℚ),
    .density (.composite p) ∈ (Session.after calls).objects →
    ∀ (early late : List (Addressee × Setter ℚ)) (q₁ q₂ : Composite ℚ) (u : Store ℚ),
      (p.twoCopies (Session.after calls).objects early late).outcome (Session.after calls).store =
        (.ok (q₁, q₂), u) →
      (∃ σ, (.copy 0, σ) ∈ early ++ late ∧ σ.setsPars = true) →
      (∃ σ, (.copy 1, σ) ∈ late ∧ σ.setsPars = true) →
      (∀ n, u.value? q₁.pars n = u.value? q₂.pars n) →
      ∀ input, input ≠ .nothing → q₁.evaluate u input = q₂.evaluate u input := by
  intro hall
  have hrun : ∃ r ∈ Sample.outcome Sample.mixed [] Sample.mixedLate,
      r.2.2.2.currentValues r.2.1.pars = r.2.2.2.currentValues r.2.2.1.pars ∧
      (r.2.1.evaluate r.2.2.2 Sample.input).toOption ≠
        (r.2.2.1.evaluate r.2.2.2 Sample.input).toOption := by
    decide +kernel
  obtain ⟨⟨p, q₁, q₂, u⟩, hsome, hvalues, hne⟩ := hrun
  obtain ⟨hp, hout⟩ := Sample.outcome_eq_some hsome
  have hpars : ∀ n, u.value? q₁.pars n = u.value? q₂.pars n := fun n => by
    rw [value?_eq_lookup, value?_eq_lookup, hvalues]
  refine hne (congrArg Except.toOption (hall Sample.mixed p hp [] Sample.mixedLate q₁ q₂ u hout
    ⟨.setPar "a" (.scalar 2) (.scalar 0), ?_, rfl⟩ ⟨.setPar "a" (.scalar 3) (.scalar 0), ?_, rfl⟩
    hpars _ ?_))
  · exact List.mem_cons_self
  · exact List.mem_of_getElem? (i := 2) rfl
  · simp [Sample.input, Input.sequence]

end Composite

end DensityAlgebra
