/-
# Objects made of objects

Composites are made by builders and operators, copies of every kind of object, and
decay densities times functions; the operands are named by their positions among the
objects that are held. What is made of valid objects is valid. A density or a copy
that was made is new: whatever can be reached from it, cells, registries or stored
normalizations, was not there before, and what was there is as it was.

Key definitions: `Passed`, `Making`, `Making.run`, `Object.cells`, `Object.New`,
`Making.Makes`.
Key theorems: `Object.copy_spec`, `Making.run_spec`.
-/
import DensityAlgebra.Proofs.Building
import DensityAlgebra.Proofs.Renewing

namespace DensityAlgebra

variable {α : Type}

/-! ### Held objects -/

namespace Held

def object (os : List (Object α)) (i : Nat) : Except (Fault α) (Object α) :=
  match os[i]? with
  | some o => .ok o
  | none => .error .missingItem

def cell (os : List (Object α)) (i : Nat) : Except (Fault α) CellId :=
  match os[i]? with
  | some (.cell c) => .ok c
  | _ => .error .missingItem

def amplitude (os : List (Object α)) (i : Nat) : Except (Fault α) (Amplitude α) :=
  match os[i]? with
  | some (.amplitude a) => .ok a
  | _ => .error .missingItem

def weight (os : List (Object α)) (i : Nat) : Except (Fault α) (Weight α) :=
  match os[i]? with
  | some (.weight w) => .ok w
  | _ => .error .missingItem

def density (os : List (Object α)) (i : Nat) : Except (Fault α) (Density α) :=
  match os[i]? with
  | some (.density d) => .ok d
  | _ => .error .missingItem

def composite (os : List (Object α)) (i : Nat) : Except (Fault α) (Composite α) :=
  match os[i]? with
  | some (.density (.composite p)) => .ok p
  | _ => .error .missingItem

def decay (os : List (Object α)) (i : Nat) : Except (Fault α) (Decay α) :=
  match os[i]? with
  | some (.density (.model (.decay d))) => .ok d
  | _ => .error .missingItem

end Held

/-- What stands beside an operator: an object that is held, by its position, plain data,
or an operation. -/
inductive Passed (α : Type) where
  | held (i : Nat)
  | plain (d : Datum α)
  | operation (op : Operation)

namespace Passed

/-- The density that is passed. -/
def density? (os : List (Object α)) : Passed α → Option (Density α)
  | held i =>
    match os[i]? with
    | some (.density d) => some d
    | _ => none
  | _ => none

def operand [Scalar α] (os : List (Object α)) : Passed α → Run α (Operand α)
  | held i => do
    let o ← Run.reading fun _ => Held.object os i
    return o.operand (← get)
  | plain d => return .plain d
  | operation op => return .operation op

end Passed

/-! ### What is made of objects -/

/-- The ways to make an object of others that leave the others alone. -/
inductive Making (α : Type) where
  | empty
  | single (x : Passed α)
  | build (how : Composite.Builder) (p : Nat) (x : Passed α)
  | operator (op : Operation) (l r : Passed α)
  | negate (x : Passed α)
  | copy (i : Nat)
  | withWeight (d w : Nat)

namespace Making

/-- What is passed, in order. -/
def passed : Making α → List (Passed α)
  | empty => []
  | single x => [x]
  | build _ p x => [.held p, x]
  | operator _ l r => [l, r]
  | negate x => [x]
  | copy i => [.held i]
  | withWeight d w => [.held d, .held w]

/-- The densities among them. -/
def densities (os : List (Object α)) (m : Making α) : List (Density α) :=
  m.passed.filterMap (Passed.density? os)

/-- Whether an object is copied. -/
def isCopy : Making α → Bool
  | copy _ => true
  | _ => false

variable [Scalar α]

/-- The object that an operator made. -/
def named (os : List (Object α)) (y : Operand α) : Run α (Object α) :=
  match Object.ofOperand? os.length y with
  | some o => pure o
  | none => throw .unsupportedOperands

/-- The new object. -/
def run (os : List (Object α)) : Making α → Run α (Object α)
  | empty => do return .density (.composite (← Composite.new))
  | single x => do return .density (.composite (← Composite.ofOperand (← x.operand os)))
  | build how p x => do
    let p ← Run.reading fun _ => Held.composite os p
    return .density (.composite (← how.run p (← x.operand os)))
  | operator op l r => do
    let l ← l.operand os
    let r ← r.operand os
    named os (← Operand.apply op l r)
  | negate x => do named os (← Operand.negate (← x.operand os))
  | copy i => do
    let o ← Run.reading fun _ => Held.object os i
    o.copy os.length
  | withWeight d w => do
    let d ← Run.reading fun _ => Held.decay os d
    let w ← Run.reading fun _ => Held.weight os w
    return .density (.model (.decay (← d.withWeight w)))

end Making

/-! ### What an object reaches -/

namespace Density

def registries : Density α → List RegistryId
  | model m => m.registries
  | composite p => p.registries

end Density

namespace Object

/-- The registries of an object and of all its parts. -/
def registries : Object α → List RegistryId
  | density d => d.registries
  | weight w => w.registries
  | amplitude a => a.registries
  | _ => []

/-- The changing parts of the decay densities of an object. -/
def states : Object α → List StateId
  | density d => d.states
  | _ => []

/-- The cells that can be reached from an object, by whatever path. -/
def cells (s : Store α) : Object α → Set CellId
  | cell c => {c}
  | expression _ e => {c | c ∈ e.pars.cells}
  | o => {c | ∃ r ∈ o.registries, c ∈ (s.registry r).cells}

/-- Whatever belongs to the object is newer than `b`. -/
structure New (b s : Store α) (o : Object α) : Prop where
  cells : ∀ c ∈ o.cells s, b.cells.size ≤ c.index
  registries : ∀ r ∈ o.registries, b.registries.size ≤ r.index
  states : ∀ d ∈ o.states, b.states.size ≤ d.index

/-- Whether the object is a density. -/
def isDensity : Object α → Bool
  | density _ => true
  | _ => false

end Object

variable [Scalar α]

/-! ### What is made is new -/

/-- What lies in new registries is new. -/
theorem Object.New.of_registries {b t : Store α} {o : Object α} (hb : b.Apart t)
    (hcells : o.cells t = {c | ∃ r ∈ o.registries, c ∈ (t.registry r).cells})
    (hr : ∀ r ∈ o.registries, b.registries.size ≤ r.index)
    (hs : ∀ d ∈ o.states, b.states.size ≤ d.index) : o.New b t where
  cells c hc := by
    rw [hcells] at hc
    obtain ⟨r, hmem, hc⟩ := hc
    obtain ⟨n, hn⟩ := Registry.mem_cells_iff.mp hc
    exact hb.detached r (hr r hmem) _ hn
  registries := hr
  states := hs

omit [Scalar α] in
/-- Whatever belongs to a built composite is new. -/
theorem Composite.Built.states_new {b s : Store α} {p : Composite α} (h : p.Built b s) :
    ∀ d ∈ (Density.composite p).states, b.states.size ≤ d.index := by
  intro d hd
  obtain ⟨m, hm, hd⟩ := List.mem_flatMap.mp hd
  exact h.states m hm d hd

theorem Object.New.of_composite {b t : Store α} {p : Composite α} (hb : b.Apart t)
    (hp : p.Built b t) : (Object.density (.composite p)).New b t :=
  .of_registries hb rfl hp.registries hp.states_new

theorem Object.New.of_model {b t : Store α} {m : Model α} (hb : b.Apart t)
    (hm : m.Built b t) : (Object.density (.model m)).New b t := by
  refine .of_registries hb rfl hm.registries fun d hd => hm.states d ?_
  rwa [show (Object.density (.model m)).states = [m].flatMap Model.states from rfl,
    List.flatMap_singleton] at hd

/-! ### Copies of objects -/

/-- What a copy of a composite is made of. -/
theorem Composite.composed_of_copy {s t : Store α} {p q : Composite α}
    {f : RegistryId → RegistryId} {g : CellId → CellId} (hp : p.Valid s) (hap : s.Apart t)
    (hf : s.Copied t p.registries f g) (hcopy : p.CopyOf f s t q) :
    Composed s s t [.composite p] q := by
  have hcopies : List.Forall₂ (Model.CarriedBy f Store.noValues s t) p.models q.models :=
    Model.Carried.of_copies hf (fun _ hm => models_subset hm) hcopy.models
  refine ⟨hap, hcopy.built le_rfl le_rfl hp hf, q.models, [], ?_, ?_, .nil⟩
  · rw [List.append_nil]
  · rw [show (List.take 1 [Density.composite p]).flatMap Density.models = p.models from
      List.append_nil _]
    exact hcopies.imp fun _ _ hc => ⟨f, hc⟩

/-- A copied composite is made of the original. -/
theorem Composite.copy_composed {s : Store α} (hs : s.Sound) {p : Composite α}
    (hp : p.Valid s) :
    (p.copy).Ends s (fun q t => Composed s s t [.composite p] q) s.Apart := by
  obtain ⟨q, t, f, g, ht, hap, hf, hcopy⟩ := copy_spec hs p hp.bounded_states
  exact Run.ends_of_ok ht (composed_of_copy hp hap hf hcopy)

/-- A copied density is new. -/
theorem Model.copy_built {s : Store α} (hs : s.Sound) {m : Model α} (hm : m.Valid s) :
    (m.copy).Ends s (fun m' t => s.Apart t ∧ m'.Built s t) s.Apart := by
  obtain ⟨m', t, f, g, ht, hap, hf, hcs⟩ := copy_spec hs m hm.states
  have hmem : m' ∈ [m'] := List.mem_singleton_self m'
  have hvalid := Valid.copies (by simpa using hm) (by simp) hf hcs m' hmem
  refine Run.ends_of_ok ht ⟨hap, hvalid, fun r hr => ?_, fun d hd => ?_⟩
  · obtain ⟨k, hk, hc⟩ := hcs.mem hmem
    rw [List.mem_singleton.mp hk] at hc
    obtain ⟨q, hq, rfl⟩ := hc.mem_registries.mp hr
    exact (hf.fresh q hq).1
  · exact (hcs.fresh d (List.mem_flatMap.mpr ⟨m', hmem, hd⟩)).1

/-- **A copy of a valid object** is valid and new. -/
theorem Object.copy_spec {s : Store α} (hs : s.Sound) {o : Object α} (ho : o.Valid s)
    (key : Nat) :
    (o.copy key).Ends s
      (fun o' t => s.Apart t ∧ o'.Valid t ∧ o'.New s t ∧
        ∀ q, o' = .density (.composite q) → ∃ p, o = .density (.composite p) ∧
          Composite.Composed s s t [.composite p] q) s.Apart := by
  have hself := Store.Apart.refl hs
  have hnone : ∀ x : Object α, x.cells s = ∅ → x.registries = [] → x.states = [] → x.New s s :=
    fun x hc hr hd => ⟨by simp [hc], by simp [hr], by simp [hd]⟩
  have hempty : ∀ x : Object α, x.registries = [] →
      x.cells s = {c | ∃ r ∈ x.registries, c ∈ (s.registry r).cells} → x.cells s = ∅ :=
    fun x hr hc => by rw [hc, hr]; ext; simp
  cases o with
  | density d =>
    cases d with
    | model m =>
      refine (Model.copy_built hs ho).bind fun m' t hm => ?_
      exact Run.ends_pure ⟨hm.1, hm.2.valid, .of_model hm.1 hm.2, by simp⟩
    | composite p =>
      refine (Composite.copy_composed hs ho).bind fun q t hq => ?_
      refine Run.ends_pure ⟨hq.apart, hq.built.valid, .of_composite hq.apart hq.built, ?_⟩
      intro q' hq'
      obtain rfl : q = q' := by simpa using hq'
      exact ⟨p, rfl, hq⟩
  | weight w =>
    obtain ⟨t, f, g, ht, hap, hf⟩ := Weight.copy_spec hs w
    refine Run.ends_ok_bind ht (Run.ends_pure ⟨hap, Weight.Valid.copied ho hf, ?_, by simp⟩)
    refine .of_registries hap rfl (fun r hr => ?_) (fun _ hd => absurd hd List.not_mem_nil)
    have hr' : r = f w.vars ∨ r = f w.pars := by
      simpa [Object.registries, Weight.registries, Weight.rename] using hr
    rcases hr' with rfl | rfl
    · exact (hf.fresh _ w.vars_mem).1
    · exact (hf.fresh _ w.pars_mem).1
  | amplitude a =>
    obtain ⟨t, f, g, ht, hap, hf⟩ := Amplitude.copy_spec hs a
    refine Run.ends_ok_bind ht (Run.ends_pure ⟨hap, Amplitude.Valid.copied ho hf, ?_, by simp⟩)
    refine .of_registries hap rfl (fun r hr => ?_) (fun _ hd => absurd hd List.not_mem_nil)
    have hr' : r ∈ (a.rename f).registries := hr
    rw [Amplitude.registries_rename] at hr'
    obtain ⟨q, hq, rfl⟩ := List.mem_map.mp hr'
    exact (hf.fresh q hq).1
  | expression k e =>
    obtain ⟨t, g, ht, hap, hg⟩ := Expression.copy_spec hs e
    have hcells : (e.pars.rename g).cells = e.pars.cells.map g := by
      simp [Registry.cells, Registry.rename]
    refine Run.ends_ok_bind ht (Run.ends_pure ⟨hap, Store.Holds.copied ho hg, ⟨?_, ?_, ?_⟩,
      by simp⟩)
    · intro c hc
      have hcopied : c ∈ (e.pars.rename g).cells := hc
      rw [hcells] at hcopied
      obtain ⟨old, hold, rfl⟩ := List.mem_map.mp hcopied
      exact (hg.fresh old hold).1
    · exact fun _ hr => absurd hr List.not_mem_nil
    · exact fun _ hd => absurd hd List.not_mem_nil
  | cell c =>
    refine Run.ends_get_bind ?_
    have hcell : (Run.newCell (s.cell c)).outcome s =
        (.ok ⟨s.cells.size⟩, s.addCell (s.cell c)) := rfl
    refine Run.ends_ok_bind hcell (Run.ends_pure ⟨hself.addCell _, ?_, ⟨?_, ?_, ?_⟩, by simp⟩)
    · show s.cells.size < (s.addCell (s.cell c)).cells.size
      rw [Store.size_addCell]
      exact Nat.lt_succ_self _
    · rintro c' rfl
      exact le_rfl
    · exact fun _ hr => absurd hr List.not_mem_nil
    · exact fun _ hd => absurd hd List.not_mem_nil
  | registry r => exact absurd ho id
  | _ =>
    refine Run.ends_pure ⟨hself, trivial, hnone _ (hempty _ rfl rfl) rfl rfl, by simp⟩

/-! ### Makings -/

/-- An object that is passed is read as an operand; nothing changes. -/
theorem Passed.operand_spec {s : Store α} {os : List (Object α)} (hos : ∀ o ∈ os, o.Valid s)
    {E : Store α → Prop} (he : E s) (x : Passed α) :
    (x.operand os).Ends s (fun y t => t = s ∧ y.Valid s ∧ y.density? = x.density? os) E := by
  cases x with
  | held i =>
    unfold Passed.operand
    refine Run.ends_reading_bind he fun o ho => Run.ends_get_bind (Run.ends_pure ?_)
    unfold Held.object at ho
    cases hi : os[i]? with
    | none => simp [hi] at ho
    | some o' =>
      obtain rfl : o' = o := by simpa [hi] using ho
      refine ⟨rfl, (hos o' (List.mem_of_getElem? hi)).operand, ?_⟩
      unfold Passed.density?
      simp only [hi]
      cases o' with
      | density d => cases d <;> rfl
      | cell c =>
        simp only [Object.operand]
        cases (s.cell c).kind <;> rfl
      | _ => rfl
  | plain d => exact Run.ends_pure ⟨rfl, trivial, rfl⟩
  | operation op => exact Run.ends_pure ⟨rfl, trivial, rfl⟩

namespace Held

omit [Scalar α] in
theorem object_eq_ok {os : List (Object α)} {i : Nat} {o : Object α}
    (h : Held.object os i = .ok o) : os[i]? = some o := by
  unfold Held.object at h
  split at h <;> simp_all

omit [Scalar α] in
theorem object_eq_error {os : List (Object α)} {i : Nat} {e : Fault α}
    (h : Held.object os i = .error e) : os[i]? = none := by
  unfold Held.object at h
  split at h <;> simp_all

omit [Scalar α] in
theorem composite_eq_ok {os : List (Object α)} {i : Nat} {p : Composite α}
    (h : Held.composite os i = .ok p) : os[i]? = some (.density (.composite p)) := by
  unfold Held.composite at h
  split at h <;> simp_all

omit [Scalar α] in
theorem density_eq_ok {os : List (Object α)} {i : Nat} {d : Density α}
    (h : Held.density os i = .ok d) : os[i]? = some (.density d) := by
  unfold Held.density at h
  split at h <;> simp_all

omit [Scalar α] in
theorem decay_eq_ok {os : List (Object α)} {i : Nat} {d : Decay α}
    (h : Held.decay os i = .ok d) : os[i]? = some (.density (.model (.decay d))) := by
  unfold Held.decay at h
  split at h <;> simp_all

omit [Scalar α] in
theorem weight_eq_ok {os : List (Object α)} {i : Nat} {w : Weight α}
    (h : Held.weight os i = .ok w) : os[i]? = some (.weight w) := by
  unfold Held.weight at h
  split at h <;> simp_all

omit [Scalar α] in
theorem amplitude_eq_ok {os : List (Object α)} {i : Nat} {a : Amplitude α}
    (h : Held.amplitude os i = .ok a) : os[i]? = some (.amplitude a) := by
  unfold Held.amplitude at h
  split at h <;> simp_all

omit [Scalar α] in
theorem cell_eq_ok {os : List (Object α)} {i : Nat} {c : CellId}
    (h : Held.cell os i = .ok c) : os[i]? = some (.cell c) := by
  unfold Held.cell at h
  split at h <;> simp_all

end Held

namespace Making

omit [Scalar α] in
theorem densities_single (os : List (Object α)) (x : Passed α) :
    (single x).densities os = (x.density? os).toList := by
  unfold densities passed
  cases h : x.density? os <;> simp [h]

omit [Scalar α] in
theorem densities_operator (os : List (Object α)) (op : Operation) (l r : Passed α) :
    (operator op l r).densities os = (l.density? os).toList ++ (r.density? os).toList := by
  unfold densities passed
  cases hl : l.density? os <;> cases hr : r.density? os <;> simp [hl, hr]

omit [Scalar α] in
theorem densities_build {os : List (Object α)} (how : Composite.Builder) {i : Nat}
    {p : Composite α} (hp : os[i]? = some (.density (.composite p))) (x : Passed α) :
    (build how i x).densities os = .composite p :: (x.density? os).toList := by
  have hi : (Passed.held i).density? os = some (.composite p) := by
    unfold Passed.density?
    simp only [hp]
  unfold densities passed
  cases hx : x.density? os <;> simp [hi, hx]

omit [Scalar α] in
theorem densities_copy {os : List (Object α)} {i : Nat} {p : Composite α}
    (hp : os[i]? = some (.density (.composite p))) :
    (copy i : Making α).densities os = [.composite p] := by
  simp [densities, passed, Passed.density?, hp]

omit [Scalar α] in
theorem mem_densities_single {os : List (Object α)} {x : Passed α} {d : Density α} :
    d ∈ (single x).densities os ↔ x.density? os = some d := by
  rw [densities_single, Option.mem_toList]

omit [Scalar α] in
/-- The densities that are made use of are among the objects. -/
theorem mem_densities {os : List (Object α)} {m : Making α} {d : Density α}
    (h : d ∈ m.densities os) : .density d ∈ os := by
  obtain ⟨x, -, hx⟩ := List.mem_filterMap.mp h
  unfold Passed.density? at hx
  split at hx
  · rename_i i
    split at hx
    · rename_i e he
      obtain rfl := Option.some.inj hx
      exact List.mem_of_getElem? he
    · simp at hx
  · simp at hx

/-- What the object that was made is like. -/
structure Makes (s t : Store α) (os : List (Object α)) (m : Making α) (o : Object α) : Prop where
  apart : s.Apart t
  valid : o.Valid t
  new : o.isDensity = true ∨ m.isCopy = true → o.New s t
  composed : ∀ q, o = .density (.composite q) → Composite.Composed s s t (m.densities os) q

theorem Makes.of_composite {s t : Store α} {os : List (Object α)} {m : Making α}
    {q : Composite α} (h : Composite.Composed s s t (m.densities os) q) :
    m.Makes s t os (.density (.composite q)) where
  apart := h.apart
  valid := h.built.valid
  new _ := .of_composite h.apart h.built
  composed q' hq := by
    obtain rfl : q = q' := by simpa using hq
    exact h

theorem Makes.of_model {s t : Store α} {os : List (Object α)} {m : Making α} {k : Model α}
    (hap : s.Apart t) (h : k.Built s t) : m.Makes s t os (.density (.model k)) where
  apart := hap
  valid := h.valid
  new _ := .of_model hap h
  composed q hq := by simp at hq

/-- What an operator makes is an object, or the operator fails. -/
theorem named_spec {s u : Store α} {os : List (Object α)} {m : Making α} {y : Operand α}
    (hc : m.isCopy = false) (hap : s.Apart u) (hy : y.Made s s u (m.densities os)) :
    (named os y).Ends u (fun o t => m.Makes s t os o) s.Apart := by
  have hother : ∀ o : Object α, o.isDensity = false → o.Valid u → m.Makes s u os o :=
    fun o hd ho => ⟨hap, ho, by simp [hd, hc], fun q hq => by simp [hq, Object.isDensity] at hd⟩
  cases y with
  | composite q => exact Run.ends_pure (.of_composite hy)
  | model k => exact Run.ends_pure (.of_model hap hy)
  | expression e => exact Run.ends_pure (hother _ rfl hy)
  | plain d => exact Run.ends_pure (hother _ rfl trivial)
  | _ => exact absurd hy id

/-- **Whatever is made of valid objects is valid**, and leaves them as they were; a density
or a copy is new. -/
theorem run_spec {s : Store α} {os : List (Object α)} (hs : s.Sound)
    (hos : ∀ o ∈ os, o.Valid s) (m : Making α) :
    (m.run os).Ends s (fun o t => m.Makes s t os o) s.Apart := by
  have hself := Store.Apart.refl hs
  cases m with
  | empty =>
    obtain ⟨p, t, ht, hap, hp, hmodels, -⟩ := Composite.new_spec hself
    refine Run.ends_ok_bind ht (Run.ends_pure (.of_composite ⟨hap, hp, [], [], ?_, .nil, .nil⟩))
    exact hmodels
  | single x =>
    refine (Passed.operand_spec hos hself x).bind ?_
    rintro y t ⟨rfl, hy, hd⟩
    refine (Composite.ofOperand_spec hself hy).bind fun q t ⟨hq, _⟩ => ?_
    refine Run.ends_pure (.of_composite ?_)
    rwa [densities_single, ← hd]
  | build how i x =>
    refine Run.ends_reading_bind hself fun p hp => ?_
    have hi := Held.composite_eq_ok hp
    refine (Passed.operand_spec hos hself x).bind ?_
    rintro y t ⟨rfl, hy, hd⟩
    have hpv : p.Valid t := hos _ (List.mem_of_getElem? hi)
    refine (how.run_spec hself hpv hy).bind fun q t hq => Run.ends_pure (.of_composite ?_)
    rwa [densities_build how hi, ← hd]
  | operator op l r =>
    refine (Passed.operand_spec hos hself l).bind ?_
    rintro y t ⟨rfl, hy, hyd⟩
    refine (Passed.operand_spec hos hself r).bind ?_
    rintro z t ⟨rfl, hz, hzd⟩
    refine (Operand.apply_spec op hself hy hz).bind fun o t ⟨hap, ho⟩ => ?_
    refine named_spec rfl hap ?_
    rwa [densities_operator, ← hyd, ← hzd]
  | negate x =>
    refine (Passed.operand_spec hos hself x).bind ?_
    rintro y t ⟨rfl, hy, hd⟩
    exact (Operand.negate_spec _ hself hy).bind fun o t ⟨hap, ho⟩ => named_spec rfl hap ho
  | copy i =>
    refine Run.ends_reading_bind hself fun o ho => ?_
    have hi := Held.object_eq_ok ho
    refine (Object.copy_spec hs (hos o (List.mem_of_getElem? hi)) os.length).mono ?_ fun _ h => h
    rintro o' t ⟨hap, hval, hnew, hcomp⟩
    refine ⟨hap, hval, fun _ => hnew, fun q hq => ?_⟩
    obtain ⟨p, rfl, hc⟩ := hcomp q hq
    have hd : (copy i : Making α).densities os = [.composite p] := by
      unfold densities passed Passed.density?
      simp [hi]
    rwa [hd]
  | withWeight d w =>
    refine Run.ends_reading_bind hself fun e he => Run.ends_reading_bind hself fun v hv => ?_
    have hdv : (Model.decay e).Valid s := hos _ (List.mem_of_getElem? (Held.decay_eq_ok he))
    have hwv : v.Valid s := hos _ (List.mem_of_getElem? (Held.weight_eq_ok hv))
    refine (Decay.withWeight_spec hself hdv hwv).bind fun e' t ⟨hap, hb⟩ => ?_
    exact Run.ends_pure (.of_model hap hb)

end Making

end DensityAlgebra
