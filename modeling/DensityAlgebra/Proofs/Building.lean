/-
# What builders and operators make

A builder copies the composite that it starts from and appends its operand; an
operator makes a composite of a model first. What comes out is newer than all that
was there, which stays as it was. Its models are those of the densities it was made
of, in order: the models of the first one read as they did, those of the second one
as if its parameters had the values that the first one has under their names.

An operator may fail, or make a model a composite for nothing and then look for
another way; what was there stays as it was then, too.

Key definitions: `Store.firstValues`, `Composite.Composed`, `Operand.Made`.
Key theorems: `Composite.ofOperand_spec`, `Composite.extended_spec`,
`Composite.Builder.run_spec`, `Operand.apply_spec`, `Operand.negate_spec`.
-/
import DensityAlgebra.Object
import DensityAlgebra.Proofs.Dispatch
import DensityAlgebra.Proofs.Weighting

namespace DensityAlgebra

variable {α : Type} [Scalar α]

/-- The values of the parameters of the first one of several densities. -/
def Store.firstValues (s : Store α) (ds : List (Density α)) : String → Option (Content α) :=
  ds.head?.elim Store.noValues fun d => s.value? d.pars

namespace Composite

/-- The composite was made of these densities, as they were in `s`; all of it is newer
than `b`. -/
structure Composed (b s t : Store α) (ds : List (Density α)) (q : Composite α) : Prop where
  apart : b.Apart t
  built : q.Built b t
  models : ∃ ls rs, q.models = ls ++ rs ∧
    List.Forall₂ (Model.Carried Store.noValues s t) ((ds.take 1).flatMap Density.models) ls ∧
    List.Forall₂ (Model.Carried (s.firstValues ds) s t) ((ds.drop 1).flatMap Density.models) rs

theorem Composed.withProgram {b s t : Store α} {ds : List (Density α)} {q : Composite α}
    (h : Composed b s t ds q) (program : Program α) :
    Composed b s t ds { q with program := program } :=
  ⟨h.apart, h.built.withProgram program, h.models⟩

/-- Densities that were there before are the same in a store that leaves them alone. -/
theorem Composed.before {b s u t : Store α} {ds : List (Density α)} {q : Composite α}
    (h : Composed b u t ds q) (hs : s.Sound) (hds : ∀ d ∈ ds, d.Valid s)
    (hsu : Store.Within ∅ ∅ s u) : Composed b s t ds q := by
  have hcarried : ∀ {given : String → Option (Content α)} {ms ns : List (Model α)},
      List.Forall₂ (Model.Carried given u t) ms ns → (∀ m ∈ ms, m.Valid s) →
        List.Forall₂ (Model.Carried given s t) ms ns := fun hf hms =>
    forall₂_of_mem hf fun m hm n _ ⟨f, hc⟩ => ⟨f, hc.before hs (hms m hm) hsu⟩
  have hfirst : u.firstValues ds = s.firstValues ds := by
    cases ds with
    | nil => rfl
    | cons d rest =>
      funext n
      exact hsu.value?_eq hs (hds d List.mem_cons_self).pars_bounded (by simp)
  obtain ⟨ls, rs, hq, hl, hr⟩ := h.models
  rw [hfirst] at hr
  refine ⟨h.apart, h.built, ls, rs, hq, hcarried hl fun m hm => ?_, hcarried hr fun m hm => ?_⟩
  · obtain ⟨d, hd, hm⟩ := List.mem_flatMap.mp hm
    exact (hds d (List.mem_of_mem_take hd)).models m hm
  · obtain ⟨d, hd, hm⟩ := List.mem_flatMap.mp hm
    exact (hds d (List.mem_of_mem_drop hd)).models m hm

/-! ### Composites of one operand -/

/-- The empty composite is new. -/
theorem new_spec {b s : Store α} (hb : b.Apart s) :
    ∃ p t, (new : Run α (Composite α)).outcome s = (.ok p, t) ∧ s.Apart t ∧ p.Built b t ∧
      p.models = [] ∧ ∀ n, t.value? p.pars n = none := by
  set t := (s.addRegistry .empty).addRegistry .empty with ht
  have hsize : t.registries.size = s.registries.size + 2 := by
    rw [ht, Store.size_addRegistry, Store.size_addRegistry]
  have hempty : ∀ x : Registry, x = .empty → ∀ e ∈ x.entries, s.cells.size ≤ e.2.index := by
    rintro x rfl e he
    simp [Registry.empty] at he
  have hap : s.Apart t :=
    ((Store.Apart.refl hb.sound).addRegistry (Store.holds_empty s) (hempty _ rfl)).addRegistry
      (Store.holds_empty _) (hempty _ rfl)
  have hb' := hb.moreRegistries
  refine ⟨⟨[], [], ⟨s.registries.size⟩, ⟨(s.addRegistry .empty).registries.size⟩⟩, t, rfl, hap,
    ⟨⟨⟨?_, ?_⟩, ?_, by simp, by simp, .nil, by simp, by simp, by simp⟩, fun r hr => ?_, by simp⟩,
    rfl, fun n => ?_⟩
  · show s.registries.size < _
    omega
  · show (s.addRegistry .empty).registries.size < _
    rw [Store.size_addRegistry]
    omega
  · intro he
    have := RegistryId.mk.inj he
    rw [Store.size_addRegistry] at this
    omega
  · rcases mem_registries.mp hr with rfl | rfl | ⟨m, hm, -⟩
    · exact hb'
    · show b.registries.size ≤ (s.addRegistry .empty).registries.size
      rw [Store.size_addRegistry]
      omega
    · simp at hm
  · unfold Store.value?
    rw [ht, Store.registry_addRegistry, if_pos rfl]
    rfl

/-- **A composite of one operand** has the models of the operand, if it has any, and its
parameters. -/
theorem ofOperand_spec {b s : Store α} {x : Operand α} (hb : b.Apart s) (hx : x.Valid s) :
    (ofOperand x).Ends s
      (fun q t => Composed b s t x.density?.toList q ∧
        ∀ d, x.density? = some d → ∀ n, t.value? q.pars n = s.value? d.pars n) b.Apart := by
  obtain ⟨p, u, hu, hap, hp, hmodels, hnone⟩ := new_spec hb
  unfold ofOperand
  refine Run.ends_ok_bind hu ?_
  refine (append_spec (hb.trans hap) hp (hx.grows hap.toGrows)).mono (fun q t hq => ?_)
    fun _ h => h
  have hpars : u.value? p.pars = Store.noValues := funext hnone
  have hlen : x.density?.toList.length ≤ 1 := by cases x.density? <;> simp
  obtain ⟨ms, hms, hcarried⟩ := hq.models
  rw [hmodels, List.nil_append] at hms
  rw [hpars] at hcarried
  constructor
  · refine Composed.before (u := u) ⟨hq.apart, hq.built, ms, [], ?_, ?_, ?_⟩ hb.sound ?_
      hap.toWithin
    · rw [hms, List.append_nil]
    · rw [List.take_of_length_le hlen, ← x.models_eq]
      exact hcarried
    · rw [List.drop_of_length_le hlen]
      exact .nil
    · exact Operand.Valid.density hx
  · intro d hd n
    rw [hq.pars, hq.parValues d hd, hnone, Option.none_or]
    have hd' : d.Valid s := Operand.Valid.density hx d (by rw [hd]; exact List.mem_singleton_self d)
    exact hap.value?_eq hb.sound hd'.pars_bounded (by simp)

/-- A composite of one model has the parameters of the model. -/
theorem ofModel_spec {b s : Store α} {m : Model α} (hb : b.Apart s) (hm : m.Valid s) :
    (ofOperand (.model m)).Ends s
      (fun p t => Composed b s t [.model m] p ∧
        (∀ n, t.value? p.pars n = s.value? m.head.pars n) ∧ s.Apart t) b.Apart := by
  have hone := ofOperand_spec (x := .model m) hb hm
  have hself := ofOperand_spec (x := .model m) (Store.Apart.refl hb.sound) hm
  exact (hone.and hself).mono (fun _ _ h => ⟨h.1.1, h.1.2 _ rfl, h.2.1.apart⟩) fun _ h => h.1

/-! ### Builders -/

/-- What is put behind a copy of a composite. -/
theorem composed_of_joined {b s u t : Store α} {p out q : Composite α} {x : Operand α}
    {f : RegistryId → RegistryId} {g : CellId → CellId} (hs : s.Sound) (hx : x.Valid s)
    (hap : s.Apart u) (hf : s.Copied u p.registries f g) (hcopy : p.CopyOf f s u out)
    (hout : out.Valid u) (hq : Joined b u t out x q) :
    Composed b s t (.composite p :: x.density?.toList) q := by
  obtain ⟨ms, hms, hcarried⟩ := hq.models
  have hpars : u.value? out.pars = s.value? p.pars := by
    rw [hcopy.pars]
    exact funext fun n => hf.value? p.pars_mem n
  have hcopies : List.Forall₂ (Model.CarriedBy f Store.noValues s u) p.models out.models :=
    Model.Carried.of_copies hf (fun _ hm => models_subset hm) hcopy.models
  refine ⟨hq.apart, hq.built, out.models, ms, hms, ?_, ?_⟩
  · rw [show (List.take 1 (Density.composite p :: x.density?.toList)).flatMap Density.models =
      p.models by simp [Density.models]]
    -- what was there before the operand came is left alone by it
    refine forall₂_of_mem hcopies fun m _ m' hm' hc => ?_
    have hval := hout.models m' hm'
    refine ⟨f, hc.after (hq.registries m' hm') (fun r hr n c hc' => ?_) fun d hd => ?_⟩
    · exact hq.cells c ((hap.sound r).find?_bounded hc')
    · exact hq.states d (hval.states d hd)
  · rw [show List.drop 1 (Density.composite p :: x.density?.toList) = x.density?.toList from rfl,
      ← x.models_eq]
    rw [hpars] at hcarried
    refine forall₂_of_mem hcarried fun m hm m' _ ⟨f', hc⟩ =>
      ⟨f', hc.before hs ?_ hap.toWithin⟩
    rw [x.models_eq] at hm
    obtain ⟨d, hd, hm⟩ := List.mem_flatMap.mp hm
    exact (Operand.Valid.density hx d hd).models m hm

/-- A copy of a valid composite is valid and new. -/
theorem CopyOf.built {b s t : Store α} {p q : Composite α} {f : RegistryId → RegistryId}
    {g : CellId → CellId} (h : p.CopyOf f s t q) (hbr : b.registries.size ≤ s.registries.size)
    (hbs : b.states.size ≤ s.states.size) (hp : p.Valid s) (hf : s.Copied t p.registries f g) :
    q.Built b t := by
  refine ⟨hp.copied hf h, fun r hr => hbr.trans ?_, fun m hm d hd =>
    hbs.trans (h.models.fresh d (List.mem_flatMap.mpr ⟨m, hm, hd⟩)).1⟩
  rcases mem_registries.mp hr with rfl | rfl | ⟨m', hm', hr⟩
  · rw [h.vars]
    exact (hf.fresh _ p.vars_mem).1
  · rw [h.pars]
    exact (hf.fresh _ p.pars_mem).1
  · obtain ⟨m, hm, hc⟩ := h.models.mem hm'
    obtain ⟨o, ho, rfl⟩ := hc.mem_registries.mp hr
    exact (hf.fresh o (models_subset hm ho)).1

/-- **A copy with one more operand** has the models of both, and the values of the
composite count. -/
theorem extended_spec {b s : Store α} {p : Composite α} {x : Operand α} (op : Operation)
    (hb : b.Apart s) (hp : p.Valid s) (hx : x.Valid s) :
    (p.extended x op).Ends s (fun q t => Composed b s t (.composite p :: x.density?.toList) q)
      b.Apart := by
  obtain ⟨out, u, f, g, hu, hap, hf, hcopy⟩ := copy_spec hb.sound p hp.bounded_states
  have hout : out.Built b u := hcopy.built hb.moreRegistries hb.moreStates hp hf
  have happ := (append_spec (hb.trans hap) hout (hx.grows hap.toGrows)).mono
    (fun q t hq => composed_of_joined hb.sound hx hap hf hcopy hout.valid hq) fun _ h => h
  unfold extended
  refine Run.ends_ok_bind hu (Run.ends_ite (fun _ => happ) fun _ => ?_)
  exact happ.bind fun q t hq => Run.ends_of_ok rfl (hq.withProgram _)

theorem Builder.run_spec {b s : Store α} (how : Builder) {p : Composite α} {x : Operand α}
    (hb : b.Apart s) (hp : p.Valid s) (hx : x.Valid s) :
    (how.run p x).Ends s (fun q t => Composed b s t (.composite p :: x.density?.toList) q)
      b.Apart :=
  run_ends hb fun _ => extended_spec how.operation hb hp hx

end Composite

namespace Operand

/-! ### Operators -/

/-- What an operator made of operands with these densities; all of it is newer than `b`,
but an expression holds the cells of its operands. -/
def Made (b s t : Store α) (ds : List (Density α)) : Operand α → Prop
  | composite q => Composite.Composed b s t ds q
  | model m => m.Built b t
  | expression e => t.Holds e.pars
  | plain _ => True
  | _ => False

theorem Made.before {b s u t : Store α} {ds : List (Density α)} {y : Operand α}
    (h : Made b u t ds y) (hs : s.Sound) (hds : ∀ d ∈ ds, d.Valid s)
    (hsu : Store.Within ∅ ∅ s u) : Made b s t ds y := by
  cases y with
  | composite q => exact Composite.Composed.before h hs hds hsu
  | _ => exact h

/-- A composite with an operator is built from the composite and the operand. -/
theorem applyComposite_spec {b s : Store α} {p : Composite α} (op : Operation) {x : Operand α}
    (hb : b.Apart s) (hp : p.Valid s) (hx : x.Valid s) :
    (applyComposite p op x).Ends s
      (fun o t => b.Apart t ∧
        ∀ q, o = some q → Composite.Composed b s t (.composite p :: x.density?.toList) q)
      b.Apart := by
  refine applyComposite_ends (fun how _ _ => ?_) ⟨hb, nofun⟩
  exact (how.run_spec hb hp hx).mono
    (fun q t hq => ⟨hq.apart, fun q' hq' => Option.some.inj hq' ▸ hq⟩) fun _ h => h

/-- What was built from a composite of a model was built from the model. -/
theorem composed_through {b s u t : Store α} {m : Model α} {p q : Composite α}
    {ds : List (Density α)} (hs : s.Sound) (hds : ∀ d ∈ ds, d.Valid s)
    (hsu : Store.Within ∅ ∅ s u) (hp : Composite.Composed b s u [.model m] p)
    (hpars : ∀ n, u.value? p.pars n = s.value? m.head.pars n)
    (hq : Composite.Composed b u t (.composite p :: ds) q) :
    Composite.Composed b s t (.model m :: ds) q := by
  obtain ⟨ls, rs, hpm, hl, hr⟩ := hp.models
  obtain ⟨ls', rs', hqm, hl', hr'⟩ := hq.models
  have hone : List.Forall₂ (Model.Carried Store.noValues s u) [m] ls := hl
  have hnil : rs = [] := List.forall₂_nil_left_iff.mp hr
  rw [hnil, List.append_nil] at hpm
  have hl₂ : List.Forall₂ (Model.Carried Store.noValues u t) ls ls' := by
    have h : List.Forall₂ (Model.Carried Store.noValues u t) (p.models ++ []) ls' := hl'
    rwa [hpm, List.append_nil] at h
  have hfirst : u.firstValues (.composite p :: ds) = s.firstValues (.model m :: ds) :=
    funext hpars
  refine ⟨hq.apart, hq.built, ls', rs', hqm, ?_, ?_⟩
  · show List.Forall₂ _ [m] ls'
    cases hone with
    | cons h₁ hrest =>
      cases hrest
      cases hl₂ with
      | cons h₂ hrest =>
        cases hrest
        exact .cons (h₁.trans h₂) .nil
  · rw [hfirst] at hr'
    refine forall₂_of_mem hr' fun k hk k' _ ⟨f, hc⟩ => ⟨f, hc.before hs ?_ hsu⟩
    obtain ⟨d, hd, hk⟩ := List.mem_flatMap.mp hk
    exact (hds d hd).models k hk

/-- A model with an operator is multiplied by a function, or built on as a composite. -/
theorem applyModel_spec {b s : Store α} {m : Model α} (op : Operation) {x : Operand α}
    (hb : b.Apart s) (hm : m.Valid s) (hx : x.Valid s) :
    (applyModel m op x).Ends s
      (fun o t => b.Apart t ∧ ∀ y, o = some y → Made b s t (.model m :: x.density?.toList) y)
      b.Apart := by
  refine applyModel_ends ?_ (fun _ _ => ?_) fun _ => ⟨hb, nofun⟩
  · rintro d w rfl - rfl
    refine (Decay.withWeight_spec hb hm hx).mono (fun e t he => ⟨he.1, fun y hy => ?_⟩) fun _ h => h
    obtain rfl := Option.some.inj hy
    exact he.2
  · refine (Composite.ofModel_spec hb hm).mono ?_ fun _ h => h
    rintro p u ⟨hp, hpars, hsu⟩
    refine (applyComposite_spec op hp.apart hp.built.valid (hx.grows hsu.toGrows)).mono
      (fun o t ho => ⟨ho.1, fun y hy => ?_⟩) fun _ h => h
    obtain ⟨q, hq, rfl⟩ := Option.map_eq_some_iff.mp hy
    exact composed_through hb.sound (Operand.Valid.density hx) hsu.toWithin hp hpars (ho.2 q hq)

/-- A factor as an expression holds cells under their names. -/
theorem lift?_holds {s : Store α} {x : Operand α} (hx : x.Valid s) {e : Expression α}
    (he : x.lift? s = some e) : s.Holds e.pars := by
  rcases lift?_cases he with ⟨c, rfl, rfl⟩ | rfl | ⟨d, y, rfl, -, rfl⟩
  · refine ⟨List.nodup_singleton _, fun n d hd => ?_, fun n d hd => ?_⟩ <;>
      obtain ⟨rfl, rfl⟩ := Prod.mk.inj (List.mem_singleton.mp hd)
    · exact hx
    · rfl
  · exact hx
  · exact Store.holds_empty s

/-- What an operator makes of a model on its right, if there is no density on its left. -/
theorem apply_model_spec {b s : Store α} {l : Operand α} {m : Model α} (op : Operation)
    (hb : b.Apart s) (hl : l.Valid s) (hm : m.Valid s) (hnone : l.density? = none) :
    (apply op l (.model m)).Ends s (fun y t => b.Apart t ∧ Made b s t [.model m] y) b.Apart := by
  refine apply_model_right_ends (isDensity_of_density? hnone) ?_ (fun _ _ => ?_) fun _ => hb
  · rintro w d rfl rfl -
    exact Decay.withWeight_spec hb hm hl
  · refine (Composite.ofModel_spec hb hm).mono ?_ fun _ h => h
    rintro p u ⟨hp, hpars, hsu⟩
    refine ⟨fun _ => hp.apart, fun _ => ?_⟩
    refine (Composite.Builder.scale.run_spec hp.apart hp.built.valid
      (hl.grows hsu.toGrows)).mono (fun q t hq => ⟨hq.apart, ?_⟩) fun _ h => h
    rw [hnone] at hq
    exact composed_through hb.sound (by simp) hsu.toWithin hp hpars hq

/-- What an operator makes of a composite on its right, if there is no density on its
left. -/
theorem apply_composite_spec {b s : Store α} {l : Operand α} {p : Composite α} (op : Operation)
    (hb : b.Apart s) (hl : l.Valid s) (hp : p.Valid s) (hnone : l.density? = none) :
    (apply op l (.composite p)).Ends s (fun y t => b.Apart t ∧ Made b s t [.composite p] y)
      b.Apart := by
  refine apply_composite_right_ends (isDensity_of_density? hnone) (fun _ _ => ?_) hb
  refine (Composite.Builder.scale.run_spec hb hp hl).mono (fun q t hq => ⟨hq.apart, ?_⟩)
    fun _ h => h
  rwa [hnone] at hq

/-- What an operator makes of operands that are no densities. -/
theorem apply_factors_spec {b s : Store α} {l r : Operand α} (op : Operation) (hb : b.Apart s)
    (hl : l.Valid s) (hr : r.Valid s) (hln : l.density? = none) (hrn : r.density? = none) :
    (apply op l r).Ends s (fun y t => b.Apart t ∧ Made b s t [] y) b.Apart := by
  refine apply_factors_ends (isDensity_of_density? hln) (isDensity_of_density? hrn)
    (fun e e' he he' => ⟨hb, ?_⟩) (fun _ => ⟨hb, trivial⟩) hb
  have hright := lift?_holds hr he'
  exact Store.Holds.of_entries hright (lift?_holds hl he)
    (Registry.nodup_update _ hright.distinct) fun x hx => Registry.mem_update hx

/-- **What an operator makes** is newer than what was there, and a composite is made of
the densities among its operands. -/
theorem apply_spec {b s : Store α} {l r : Operand α} (op : Operation) (hb : b.Apart s)
    (hl : l.Valid s) (hr : r.Valid s) :
    (apply op l r).Ends s
      (fun y t => b.Apart t ∧ Made b s t (l.density?.toList ++ r.density?.toList) y)
      b.Apart := by
  cases l with
  | model m =>
    have hfirst := (applyModel_spec op hb hl hr).and
      (applyModel_spec op (Store.Apart.refl hb.sound) hl hr)
    refine apply_model_left_ends (hfirst.mono (fun _ _ h => h) fun _ h => h.1)
      (fun y t ht => ⟨ht.1.1, ht.1.2 y rfl⟩) (fun t ht _ => ht.1.1) ?_
    -- the second try, with the parameter as an expression
    rintro c u ⟨⟨hbu, -⟩, hsu, -⟩ rfl
    have hm : m.Valid u := Model.Valid.grows hl hsu.toGrows
    have he : (Operand.expression (.ofParameter (s.cell c).name c)).Valid u :=
      hsu.toGrows.holds (lift?_holds (x := .parameter c) hr rfl)
    refine (applyModel_spec op hbu hm he).mono ?_ fun _ h => h
    rintro (_ | y) t ⟨hbt, hy⟩
    · exact hbt
    · refine ⟨hbt, Made.before (hy y rfl) hb.sound ?_ hsu.toWithin⟩
      intro d hd
      rw [List.mem_singleton.mp hd]
      exact hl
  | composite p =>
    refine apply_composite_left_ends (fun how _ _ => ?_) hb
    exact (how.run_spec hb hl hr).mono (fun q t hq => ⟨hq.apart, hq⟩) fun _ h => h
  | _ =>
    cases r with
    | model m => exact apply_model_spec op hb hl hr rfl
    | composite p => exact apply_composite_spec op hb hl hr rfl
    | _ => exact apply_factors_spec op hb hl hr rfl rfl

/-- A minus in front makes an expression over the same cells, or a number; never a
composite. -/
theorem negate_spec {b s : Store α} {x : Operand α} (ds : List (Density α)) (hb : b.Apart s)
    (hx : x.Valid s) : (negate x).Ends s (fun y t => b.Apart t ∧ Made b s t ds y) b.Apart := by
  refine negate_ends (fun e he => ⟨hb, ?_⟩) (fun _ => ⟨hb, trivial⟩) hb
  have hholds : s.Holds e.pars := lift?_holds hx he
  exact hholds

end Operand

end DensityAlgebra
