/-
# Composition is arithmetic

A composite that was built by an operation from a composite and an operand has, at
every assignment of values to its variables, the value of the one combined with the
value of the other, each at the values of its own variables. Parameters of one name
need to have one value for that, since only one of them is left.

What an outline is worth depends on what its models are worth, and on nothing else. The
value of a linked outline is read off its tree: the second program is the tree of the
second operand with its models numbered on, and the models that were numbered on are the
carried models of the second operand.

Key definitions: `Outline.value`, `Outline.Agrees`, `Input.Assigns`, `modelValue`,
`Operand.evaluate`.
Key theorems: `Tree.fold_shift`, `Outline.value_extended`, `Operand.evaluate_assigned`,
`Model.Carried.density_eq`, `Making.evaluate_build`.
-/
import DensityAlgebra.Proofs.Arithmetic
import DensityAlgebra.Proofs.Rational

namespace DensityAlgebra

variable {α β : Type}

/-! ### Trees with other leaves -/

namespace Tree

/-- Numbering the models of a tree on is numbering them on wherever a leaf is read. -/
theorem fold_shift (I : Interpretation α β) (k : Nat) (t : Tree α) :
    (t.shift k).fold I = t.fold { I with leaf := fun l => I.leaf (l.shift k) } := by
  induction t with
  | leaf l => rfl
  | binary op l r ihl ihr => simp only [shift, fold, ihl, ihr]
  | unary op t ih => simp only [shift, fold, ih]

/-- Trees are folded by what their leaves stand for. -/
theorem fold_congr {I : Interpretation α β} {leaf : Leaf α → Except (Fault α) β} {t : Tree α}
    (h : ∀ l, .leaf l ∈ t.spell → I.leaf l = leaf l) :
    t.fold I = t.fold { I with leaf := leaf } := by
  refine induction_on_leaves (motive := fun t => t.fold I = t.fold { I with leaf := leaf })
    (fun l hl => hl) (fun op l r hl hr => ?_) (fun op t ht => ?_) h
  · simp only [fold, hl, hr]
  · simp only [fold, ht]

end Tree

/-! ### What an outline is worth -/

namespace Outline

/-- What a leaf stands for, if the models have these values. -/
def leafValue [Scalar α] (o : Outline α) (models : Int → Except (Fault α) (Value α)) :
    Leaf α → Except (Fault α) (Value α)
  | .model i => models i
  | .parameter name => (o.pars name).elim (.error .missingKey) fun v => v.given.operand
  | .constant x => .ok (.scalar x)

variable [Scalar α]

/-- What the program of an outline comes to, if the models have these values. -/
def value (o : Outline α) (models : Int → Except (Fault α) (Value α)) :
    Except (Fault α) (Value α) := o.program.evaluate (o.leafValue models)

/-- Parameters of one name have one value. -/
def Agrees (o o' : Outline α) : Prop :=
  ∀ name v w, o.pars name = some v → o'.pars name = some w → v = w

/-- A whole program comes to the fold of its tree. -/
theorem value_of_spell {o : Outline α} {t : Tree α} (ht : t.WellTyped) (hp : t.spell = o.program)
    (models : Int → Except (Fault α) (Value α)) :
    o.value models = t.fold (Program.numeric (o.leafValue models)) := by
  rw [value, Program.evaluate, ← hp]
  exact t.replay_spell _ ht

/-- Only the models that the outline has are of importance. -/
theorem value_congr {o : Outline α} (hw : o.program.Whole) (hc : o.Closed)
    {models models' : Int → Except (Fault α) (Value α)}
    (h : ∀ i : Int, 0 ≤ i → i < o.count → models i = models' i) :
    o.value models = o.value models' := by
  obtain ⟨t, ht, hp⟩ := hw
  rw [value_of_spell ht hp, value_of_spell ht hp]
  refine Tree.fold_congr fun l hl => ?_
  have hamong := hc l (hp ▸ hl)
  cases l with
  | model i => exact h i hamong.1 hamong.2
  | parameter name => rfl
  | constant x => rfl

/-- **The value of a joined outline** is that of the first one combined with that of the
second one, whose models come after those of the first. -/
theorem value_extended {o o' : Outline α} {op : Operation} (hop : op.isBinary = true)
    (hw : o.program.Whole) (hw' : o'.program.Whole) (hc : o.Closed) (hc' : o'.Closed)
    (hagree : o.Agrees o') (models : Int → Except (Fault α) (Value α)) :
    (extended op o o').value models = (do
      let x ← o.value models
      let y ← o'.value fun i => models (i + o.count)
      (Program.numeric (α := α) fun _ => .error .missingKey).binary op x y) := by
  obtain ⟨t, ht, hp⟩ := hw
  obtain ⟨u, hu, hq⟩ := hw'
  have hext : extended op o o' = (o.append o').operated op :=
    extended_of_nonempty (Program.Whole.ne_nil ⟨t, ht, hp⟩)
  have hjoined : (Tree.binary op t (u.shift o.count)).spell = (extended op o o').program := by
    rw [hext]
    show t.spell ++ (u.shift o.count).spell ++ [.binary op] = _
    rw [u.spell_shift, hp, hq]
    rfl
  have hleft : t.fold (Program.numeric ((extended op o o').leafValue models)) = o.value models := by
    rw [value_of_spell ht hp]
    refine Tree.fold_congr fun l hl => ?_
    have hamong := hc l (hp ▸ hl)
    rw [hext]
    cases l with
    | model i => rfl
    | parameter name =>
      obtain ⟨v, hv⟩ := Option.isSome_iff_exists.mp hamong
      simp [Program.numeric, leafValue, operated, append, hv]
    | constant x => rfl
  have hright : (u.shift o.count).fold (Program.numeric ((extended op o o').leafValue models)) =
      o'.value fun i => models (i + o.count) := by
    rw [value_of_spell hu hq, Tree.fold_shift]
    refine Tree.fold_congr fun l hl => ?_
    have hamong := hc' l (hq ▸ hl)
    rw [hext]
    cases l with
    | model i => rfl
    | parameter name =>
      obtain ⟨w, hw⟩ := Option.isSome_iff_exists.mp hamong
      cases hv : o.pars name with
      | none => simp [Program.numeric, leafValue, operated, append, Leaf.shift, hv, hw]
      | some v =>
        have hvw := hagree name v w hv hw
        simp [Program.numeric, leafValue, operated, append, Leaf.shift, hv, hw, hvw]
    | constant x => rfl
  rw [value_of_spell (t := .binary op t (u.shift o.count)) ⟨hop, ht, hu.shift _⟩ hjoined]
  simp only [Tree.fold, hleft, hright]
  rfl

end Outline

/-! ### Assigned values -/

/-- The values of `v` are given for the names, by name or in order. -/
def Input.Assigns (v : String → Given α) (names : List String) : Input α → Prop
  | .mapping entries => ∀ n ∈ names, ∃ e, entries.lookup n = some e ∧ e.toGiven = v n
  | .row gs => gs = names.map v
  | _ => False

/-- The point where the names have their assigned values. -/
def assignedPoint (v : String → Given α) (names : List String) : List (String × Given α) :=
  names.map fun n => (n, v n)

theorem lookup_assignedPoint (v : String → Given α) {names : List String} {n : String}
    (h : n ∈ names) : (assignedPoint v names).lookup n = some (v n) := by
  induction names with
  | nil => exact absurd h List.not_mem_nil
  | cons m rest ih =>
    simp only [assignedPoint, List.map_cons, List.lookup_cons]
    by_cases hn : n = m
    · rw [hn, beq_self_eq_true]
    · rw [beq_false_of_ne hn]
      exact ih ((List.mem_cons.mp h).resolve_left hn)

/-- Assigned values are the point of a density with these variables. -/
theorem Input.Assigns.genericPoint {v : String → Given α} {names : List String} {input : Input α}
    (h : input.Assigns v names) (owner : String) :
    Model.genericPoint owner names input = .ok (assignedPoint v names) := by
  cases input with
  | mapping entries =>
    have hkey : ∀ n ∈ names, entries.any (·.1 = n) = true := by
      intro n hn
      obtain ⟨e, he, -⟩ := h n hn
      obtain ⟨ys, zs, rfl, -⟩ := List.lookup_eq_some_iff.mp he
      simp
    have hmissing : (names.filter fun n => !entries.any (·.1 = n)) = [] := by
      rw [List.filter_eq_nil_iff]
      intro n hn
      rw [hkey n hn]
      simp
    simp only [Model.genericPoint, Model.pickNamed, hmissing, List.isEmpty_nil, if_true]
    refine mapM_eq_ok_map fun n hn => ?_
    obtain ⟨e, he, hv⟩ := h n hn
    rw [he]
    exact congrArg (fun g => Except.ok (n, g)) hv
  | row gs =>
    have hgs : gs = names.map v := h
    have hlen : gs.length = names.length := by rw [hgs, List.length_map]
    show Model.pickSequence owner names gs = _
    have hzip : names.zip (names.map v) = names.map fun n => (n, v n) := by
      simpa using List.zip_map' (f := id) (g := v) (l := names)
    rw [Model.pickSequence, if_pos hlen, hgs, hzip]
    rfl
  | _ => exact absurd h id

/-! ### Densities at assigned values -/

variable [Scalar α]

/-- The value of one of several models where its variables have their assigned values. -/
def modelValue (s : Store α) (v : String → Given α) (ms : List (Model α)) (i : Int) :
    Except (Fault α) (Value α) := do
  let m ← Composite.itemAt ms i
  m.density s (assignedPoint v (m.varNames s))

/-- The value of an operand, at the given values if it has variables. -/
def Operand.evaluate (s : Store α) (input : Input α) : Operand α → Except (Fault α) (Value α)
  | .model m => m.evaluate s input
  | .composite p => p.evaluate s input
  | .parameter c => (s.cell c).value.given.operand
  | .expression e => e.value s
  | .plain d => d.number?.elim (.error .notANumber) fun x => .ok (.scalar x)
  | _ => .error .notANumber

/-- The input gives the operand the values that `v` assigns to its variables. Two values in
a row leave the third one of a decay density open. -/
def Operand.Assigned (s : Store α) (v : String → Given α) (input : Input α) :
    Operand α → Prop
  | .model (.decay d) => input.Assigns v ((Model.decay d).varNames s) ∧
      ∀ a b, input ≠ .row [a, b]
  | .model m => input.Assigns v (m.varNames s)
  | .composite p => input.Assigns v (p.varNames s)
  | _ => True

section

variable {s t : Store α} {v : String → Given α} {input : Input α}

/-- The leaves of a composite, if its models have their values at assigned ones: those of
its outline. -/
theorem Composite.leaf_assigned {p : Composite α} {leaf : Leaf α → Except (Fault α) (Value α)}
    {f : Model α → Except (Fault α) (Value α)}
    (hmodel : ∀ i, leaf (.model i) = itemAt p.models i >>= f)
    (hparameter : ∀ n, leaf (.parameter n) = s.lookup p.pars n >>= fun v => v.given.operand)
    (hconstant : ∀ x, leaf (.constant x) = .ok (.scalar x))
    (hf : ∀ m ∈ p.models, f m = m.density s (assignedPoint v (m.varNames s))) :
    leaf = (p.outline s).leafValue (modelValue s v p.models) := by
  funext l
  cases l with
  | model i =>
    rw [hmodel]
    show (itemAt p.models i >>= f) = (itemAt p.models i >>= fun m => _)
    cases hm : (itemAt p.models i : Except (Fault α) _) with
    | error e => rfl
    | ok m => exact hf m (itemAt_mem hm)
  | parameter name =>
    rw [hparameter, Store.lookup_eq_value?]
    show _ = (s.value? p.pars name).elim _ _
    cases s.value? p.pars name <;> rfl
  | constant x => exact hconstant x

/-- **A composite at assigned values** comes to what its program makes of its models, each
at the values of its own variables. -/
theorem Composite.evaluate_assigned {p : Composite α} (hp : p.Valid s)
    (h : input.Assigns v (p.varNames s)) :
    p.evaluate s input = (p.outline s).value (modelValue s v p.models) := by
  have hpoint : p.point s input = .ok (some (assignedPoint v (p.varNames s))) := by
    have hgeneric := h.genericPoint "Pdf"
    cases input with
    | nothing => exact absurd h id
    | _ =>
      simp only [Composite.point, hgeneric]
      rfl
  have hleaf : p.leafValue s (some (assignedPoint v (p.varNames s))) =
      (p.outline s).leafValue (modelValue s v p.models) := by
    refine leaf_assigned (fun _ => rfl) (fun _ => rfl) (fun _ => rfl) fun m hm => ?_
    have hunder := hp.vars m hm _ m.head_vars_mem
    have hnames : m.varNames s ⊆ p.varNames s := fun n hn =>
      Registry.mem_sortNames.mpr (hunder.names_subset (Registry.mem_sortNames.mp hn))
    show ((m.varNames s).mapM _ >>= fun point => m.density s point) = m.density s _
    rw [mapM_eq_ok_map (g := fun n => (n, v n)) fun n hn => by
      rw [lookup_assignedPoint v (hnames hn)]]
    rfl
  rw [Composite.evaluate, hpoint]
  show p.program.evaluate (p.leafValue s _) = _
  rw [hleaf]
  rfl

/-- A model at assigned values. -/
theorem Model.evaluate_assigned {m : Model α} (h : (Operand.model m).Assigned s v input) :
    m.evaluate s input = m.density s (assignedPoint v (m.varNames s)) := by
  have hassigns : input.Assigns v (m.varNames s) := by
    cases m with
    | decay d => exact h.1
    | _ => exact h
  have hpoint : m.point s input = .ok (assignedPoint v (m.varNames s)) := by
    have hgeneric := hassigns.genericPoint m.name
    cases m with
    | decay d =>
      unfold Model.point
      split
      · rename_i d' a b heq
        exact absurd rfl (h.2 a b)
      · exact hgeneric
    | _ => exact hgeneric
  cases input with
  | nothing => exact absurd hassigns id
  | _ =>
    show (m.point s _ >>= fun pt => m.density s pt) = _
    rw [hpoint]
    rfl

omit [Scalar α] in
theorem Composite.itemAt_append_left {β : Type} {xs ys : List β} {i : Int} (h0 : 0 ≤ i)
    (hi : i < xs.length) :
    (itemAt (xs ++ ys) i : Except (Fault α) β) = itemAt xs i := by
  have hlt : i.toNat < xs.length := by omega
  have hneg : ¬ i < 0 := by omega
  have hlow : ¬ i + ((xs ++ ys).length : Int) < 0 := by omega
  have hlow' : ¬ i + (xs.length : Int) < 0 := by omega
  unfold itemAt
  rw [if_neg hneg, if_neg hneg, List.getElem?_append_left hlt, List.getElem?_eq_getElem hlt]
  simp only [hlow, hlow', if_false]

omit [Scalar α] in
theorem Composite.itemAt_append_right {β : Type} {xs ys : List β} {i : Int} (h0 : 0 ≤ i) :
    (itemAt (xs ++ ys) (i + xs.length) : Except (Fault α) β) = itemAt ys i := by
  have hneg : ¬ i < 0 := by omega
  have hneg' : ¬ i + (xs.length : Int) < 0 := by omega
  have hle : xs.length ≤ (i + (xs.length : Int)).toNat := by omega
  have hsub : (i + (xs.length : Int)).toNat - xs.length = i.toNat := by omega
  have hlow : ¬ i + (xs.length : Int) + ((xs ++ ys).length : Int) < 0 := by omega
  have hlow' : ¬ i + (ys.length : Int) < 0 := by omega
  unfold itemAt
  rw [if_neg hneg, if_neg hneg', List.getElem?_append_right hle, hsub]
  cases ys[i.toNat]? with
  | none => rfl
  | some y => simp only [hlow, hlow', if_false]

/-- **A model that was carried over has its value at every point**, if the values that
counted instead of its own are its own. -/
theorem Model.Carried.density_eq {given : String → Option (Content α)} {m m' : Model α}
    (h : Carried given s t m m') (hm : m.Valid s)
    (hgiven : ∀ n x y, s.value? m.head.pars n = some x → given n = some y → y = x) :
    m'.varNames t = m.varNames s ∧ ∀ point, m'.density t point = m.density s point := by
  obtain ⟨f, hc⟩ := h
  have hhead : ∀ r ∈ m.parRegistries, ∀ n x, s.value? r n = some x →
      s.value? m.head.pars n = some x := fun r hr n x hx =>
    Store.value?_of_under (hm.linked.pars r hr) hx
  have halike : m.Alike s t m' := by
    refine ⟨m, id, f, IsCopy.refl m, hc.shape, fun r hr n => ?_, fun r hr => ?_, ?_⟩
    · rw [hc.values r hr n]
      cases hx : s.value? r n with
      | none => exact hx
      | some x =>
        refine hx.trans (congrArg some ?_)
        cases hy : given n with
        | none => rfl
        | some y => exact (hgiven n x y (hhead r hr n x hx) hy).symm
    · exact (hc.names r (m.varRegistries_subset hr)).symm
    · have hstates := congrArg (List.map DecayState.resolution) hc.states
      rw [List.map_map, List.map_map] at hstates
      exact hstates.symm
  have hnorms : m.norms s = m'.norms t := by
    have hstates := congrArg (List.map DecayState.norm) hc.states
    rw [List.map_map, List.map_map] at hstates
    exact hstates.symm
  exact ⟨congrArg sortNames halike.varNames.symm,
    fun point => (density_congr halike hm hnorms point).symm⟩

/-- The value of an expression is that of its outline, which has no models. -/
theorem Expression.value_eq_outline {e : Expression α} (he : e.Arithmetic)
    (models : Int → Except (Fault α) (Value α)) : e.value s = (e.outline s).value models := by
  have hleaf : leafValue s e.pars =
      (e.outline s).leafValue fun i => .error (.foreignLeaf (.model i)) := by
    funext l
    cases l with
    | model i => rfl
    | parameter name =>
      simp only [leafValue, Outline.leafValue, Expression.outline]
      cases e.pars.find? name <;> rfl
    | constant y => rfl
  rw [Expression.value, hleaf]
  refine Outline.value_congr he.1 (he.outline s) fun i h0 hi => ?_
  exact absurd hi (by simpa [Expression.outline] using h0)

theorem Operand.evaluate_factor {x : Operand α} {e : Expression α} (he : x.lift? s = some e) :
    x.evaluate s input = e.value s := by
  rcases lift?_cases he with ⟨c, rfl, rfl⟩ | rfl | ⟨d, y, rfl, hy, rfl⟩
  · have hfold := (Tree.leaf (.parameter (s.cell c).name)).replay_spell
      (Program.numeric (Expression.leafValue s ⟨[((s.cell c).name, c)]⟩)) trivial
    refine Eq.trans ?_ hfold.symm
    simp [Operand.evaluate, Tree.fold, Program.numeric, Expression.leafValue,
      Registry.find?_cons]
  · rfl
  · simp only [Operand.evaluate, hy]
    rfl

/-- **The value of an operand** at assigned values is that of its outline. -/
theorem Operand.evaluate_assigned {x : Operand α} (hx : x.Valid s) (hc : x.Closed s)
    (hfits : x.Fits) (h : x.Assigned s v input) :
    x.evaluate s input = (x.outline s).value (modelValue s v x.models) := by
  rcases hfits.cases s with ⟨m, rfl⟩ | ⟨p, rfl⟩ | ⟨e, he⟩
  · have hfold := Outline.value_of_spell (o := m.outline s) (t := .leaf (.model 0)) trivial rfl
      (modelValue s v [m])
    exact (Model.evaluate_assigned h).trans hfold.symm
  · exact Composite.evaluate_assigned hx h
  · rw [evaluate_factor he, outline_of_lift? he]
    exact Expression.value_eq_outline (hc.lift? he) _

/-- Models that were carried over are worth what they were. -/
theorem modelValue_of_carried {given : String → Option (Content α)} {ms ms' : List (Model α)}
    (h : List.Forall₂ (Model.Carried given s t) ms ms') (hms : ∀ m ∈ ms, m.Valid s)
    (hgiven : ∀ m ∈ ms, ∀ n x y, s.value? m.head.pars n = some x → given n = some y → y = x)
    (i : Int) : modelValue t v ms' i = modelValue s v ms i := by
  rcases @Composite.itemAt_forall₂ α _ _ _ _ _ h i with ⟨m, m', hi, hi', hm, hmem⟩ | ⟨e, hi, hi'⟩
  · obtain ⟨hnames, hdensity⟩ := hm.density_eq (hms m hmem) (hgiven m hmem)
    simp only [modelValue, hi, hi', ok_bind, hnames, hdensity]
  · simp only [modelValue, hi, hi']
    rfl

/-- The models that come first are worth what they were. -/
theorem modelValue_append_left {ms ls : List (Model α)} (rs : List (Model α))
    (h : List.Forall₂ (Model.Carried Store.noValues s t) ms ls) (hms : ∀ m ∈ ms, m.Valid s)
    {i : Int} (h0 : 0 ≤ i) (hi : i < ms.length) :
    modelValue t v (ls ++ rs) i = modelValue s v ms i := by
  have hitem : (Composite.itemAt (ls ++ rs) i : Except (Fault α) _) = Composite.itemAt ls i :=
    Composite.itemAt_append_left h0 (h.length_eq ▸ hi)
  rw [← modelValue_of_carried h hms fun _ _ _ _ _ _ hnone => by cases hnone]
  simp only [modelValue, hitem]

/-- So are the models behind them, whose numbers have moved on. -/
theorem modelValue_append_right {given : String → Option (Content α)} {ms rs : List (Model α)}
    (ls : List (Model α)) (h : List.Forall₂ (Model.Carried given s t) ms rs)
    (hms : ∀ m ∈ ms, m.Valid s)
    (hgiven : ∀ m ∈ ms, ∀ n x y, s.value? m.head.pars n = some x → given n = some y → y = x)
    {i : Int} (h0 : 0 ≤ i) :
    modelValue t v (ls ++ rs) (i + ls.length) = modelValue s v ms i := by
  have hitem : (Composite.itemAt (ls ++ rs) (i + ls.length) : Except (Fault α) _) =
      Composite.itemAt rs i := Composite.itemAt_append_right h0
  rw [← modelValue_of_carried h hms hgiven]
  simp only [modelValue, hitem]

theorem Operand.Valid.models {x : Operand α} (hx : x.Valid s) : ∀ m ∈ x.models, m.Valid s := by
  intro m hm
  rw [x.models_eq] at hm
  obtain ⟨d, hd, hm⟩ := List.mem_flatMap.mp hm
  exact (hx.density d hd).models m hm

/-- The parameters of the models of an operand have the values that are left, if the
operand agrees with the composite. -/
theorem Outline.Agrees.models {p : Composite α} {x : Operand α}
    (h : (p.outline s).Agrees (x.outline s)) (hx : x.Valid s) :
    ∀ m ∈ x.models, ∀ n a b, s.value? m.head.pars n = some a → s.value? p.pars n = some b →
      b = a := by
  intro m hm n a b ha hb
  rw [x.models_eq] at hm
  obtain ⟨d, hd, hm⟩ := List.mem_flatMap.mp hm
  have hval := hx.density d hd
  refine h n b a hb ?_
  rw [x.outline_of_density s (Option.mem_toList.mp hd), d.outline_pars]
  exact Store.value?_of_under (hval.pars_under m hm _ m.head_pars_mem) ha

/-! ### Builders compute -/

/-- The arithmetic of a way of building. -/
def Composite.Builder.arithmetic : Composite.Builder → α → α → α
  | .sum => (· + ·)
  | .product | .scale => (· * ·)
  | .division => (· / ·)

theorem Composite.Builder.combine_arithmetic (how : Builder)
    (leaf : Leaf α → Except (Fault α) (Value α)) (x y : Value α) :
    (Program.numeric leaf).binary how.operation x y = Value.combine how.arithmetic x y := by
  cases how <;> rfl

/-- What was built from a composite and an operand has the variables of both, and the value
of the one combined with that of the other. -/
structure Composite.Computes (s t : Store α) (how : Composite.Builder) (p : Composite α)
    (x : Operand α) (q : Composite α) : Prop where
  names : ∀ n, n ∈ q.varNames t ↔ n ∈ p.varNames s ∨ n ∈ varNamesOf s x
  value : ∀ (v : String → Given α) (input left right : Input α), input.Assigns v (q.varNames t) →
    left.Assigns v (p.varNames s) → x.Assigned s v right →
      q.evaluate t input = (do
        let a ← p.evaluate s left
        let b ← x.evaluate s right
        Value.combine how.arithmetic a b)

/-- **What is built computes** what the operation says, if parameters of one name have one
value. -/
theorem Composite.Builder.run_computes (how : Builder) {p : Composite α} {x : Operand α}
    (hs : s.Sound) (hp : p.Valid s) (hx : x.Valid s) (hpc : (p.outline s).Closed)
    (hxc : x.Closed s) (hpw : p.program.Whole) (hxw : (x.outline s).program.Whole)
    (hagree : (p.outline s).Agrees (x.outline s)) :
    (how.run p x).Ends s (fun q t => Computes s t how p x q) fun _ => True := by
  refine ((how.run_spec (Store.Apart.refl hs) hp hx).and (how.run_outline hs hp hx hxc)).mono
    ?_ fun _ _ => trivial
  rintro q t ⟨hq, hfits, houtline⟩
  have hvars : (q.outline t).vars = (p.outline s).vars ∪ (x.outline s).vars := by
    rw [houtline, Outline.extended]
    split <;> rfl
  refine ⟨fun n => ?_, fun v input left right hinput hleft hright => ?_⟩
  · rw [← x.mem_outline_vars]
    have hn := Set.ext_iff.mp hvars n
    exact Registry.mem_sortNames.trans (hn.trans (or_congr Registry.mem_sortNames.symm Iff.rfl))
  obtain ⟨ls, rs, hmodels, hls, hrs⟩ := hq.models
  have htake : (List.take 1 (Density.composite p :: x.density?.toList)).flatMap Density.models =
      p.models := List.append_nil _
  have hdrop : (List.drop 1 (Density.composite p :: x.density?.toList)).flatMap Density.models =
      x.models := x.models_eq.symm
  rw [htake] at hls
  rw [hdrop] at hrs
  have hlen : ls.length = p.models.length := hls.length_eq.symm
  have hfirst : ∀ i : Int, 0 ≤ i → i < p.models.length →
      modelValue t v q.models i = modelValue s v p.models i := by
    intro i h0 hi
    rw [hmodels]
    exact modelValue_append_left rs hls hp.models h0 hi
  have hsecond : ∀ i : Int, 0 ≤ i → i < x.models.length →
      modelValue t v q.models (i + p.models.length) = modelValue s v x.models i := by
    intro i h0 _
    rw [hmodels, ← hlen]
    exact modelValue_append_right ls hrs hx.models (hagree.models hx) h0
  have hleftValue : (p.outline s).value (modelValue t v q.models) = p.evaluate s left := by
    rw [evaluate_assigned hp hleft]
    exact Outline.value_congr hpw hpc hfirst
  have hrightValue : ((x.outline s).value fun i =>
      modelValue t v q.models (i + p.models.length)) = x.evaluate s right := by
    rw [x.evaluate_assigned hx hxc hfits hright]
    exact Outline.value_congr hxw hxc.outline fun i h0 hi => hsecond i h0 (x.outline_count s ▸ hi)
  rw [evaluate_assigned hq.built.valid hinput, houtline,
    Outline.value_extended how.operation_isBinary hpw hxw hpc hxc.outline hagree, hleftValue]
  simp only [combine_arithmetic]
  show (p.evaluate s left >>= fun a => _ >>= fun b => _) = _
  rw [← hrightValue]
  rfl

end

/-- The program of an operand that fits is whole, if it is so for a composite. -/
theorem Operand.Fits.whole {s : Store α} {x : Operand α} (h : x.Fits) (hc : x.Closed s)
    (hw : ∀ p, x = .composite p → p.program.Whole) : (x.outline s).program.Whole := by
  rcases h.cases s with ⟨m, rfl⟩ | ⟨p, rfl⟩ | ⟨e, he⟩
  · exact Program.whole_leaf _
  · exact hw p rfl
  · rw [outline_of_lift? he]
    exact (hc.lift? he).1

namespace Making

/-- **Composition is arithmetic.** In every session of arithmetic, if a composite whose
program is whole was joined with an operand, a composite operand's program being whole as
well, and parameters of one name have one value in both, then the sum, the product, the
multiple or the quotient has at every assignment of values to variables the sum, the
product or the quotient of the values of the two, the first one first, each at the values
of its own variables. -/
theorem evaluate_build {calls : List (Call α)}
    (hcalls : Session.Throughout Call.Arithmetic .start calls) (how : Composite.Builder) (i : Nat)
    (x : Passed α) {p q : Composite α} {y : Operand α} {t : Store α}
    (hp : Held.composite (Session.after calls).objects i = .ok p)
    (hy : (x.operand (Session.after calls).objects).outcome (Session.after calls).store =
      (.ok y, (Session.after calls).store))
    (hq : ((build how i x).run (Session.after calls).objects).outcome (Session.after calls).store =
      (.ok (.density (.composite q)), t))
    (hpw : p.program.Whole) (hyw : ∀ e, y = .composite e → e.program.Whole)
    (hagree : (p.outline (Session.after calls).store).Agrees
      (y.outline (Session.after calls).store)) :
    Composite.Computes (Session.after calls).store t how p y q := by
  have hvalid := Session.after_valid calls
  have hclosed := Session.closed_after hcalls
  set σ := Session.after calls
  have hheld := List.mem_of_getElem? (Held.composite_eq_ok hp)
  have hpv : p.Valid σ.store := hvalid.objects _ hheld
  have hpc : (p.outline σ.store).Closed := hclosed _ hheld
  obtain ⟨-, -, hyv, hyc, -⟩ :=
    (Passed.operand_outcome hvalid.sound hvalid.objects hclosed x).ok hy
  -- the making is what its builder makes of the two
  have hread : (Run.reading fun _ => Held.composite σ.objects i).outcome σ.store =
      (.ok p, σ.store) := by rw [Run.outcome_reading, hp]
  have hbuild : (how.run p y).outcome σ.store = (.ok q, t) := by
    have hrun : ((how.run p y >>= fun z => pure (.density (.composite z))) :
        Run α (Object α)).outcome σ.store = (.ok (.density (.composite q)), t) := by
      rw [← hq]
      show _ = (Run.reading _ >>= fun p => x.operand _ >>= fun y => _).outcome _
      rw [Run.outcome_bind_ok _ hread, Run.outcome_bind_ok _ hy]
    obtain ⟨z, u, hz, hpure⟩ := Run.outcome_bind_eq_ok hrun
    obtain ⟨hzq, rfl⟩ := Prod.mk.inj hpure
    obtain rfl : z = q := by simpa using hzq
    exact hz
  have hfits := ((how.run_outline hvalid.sound hpv hyv hyc).ok hbuild).1
  exact (how.run_computes hvalid.sound hpv hyv hpc hyc hpw (hfits.whole hyc hyw) hagree).ok hbuild

end Making

namespace Sample

/-- The operands, once the parameters called a have one value. -/
def levelled : List (Call ℚ) :=
  cells ++ [.setCell 6 (.scalar 1) (.datum .nothing)] ++ decay ++
    [.gaussian "Gaussian" 3 4 5, .make (.single (.held 11))]

theorem levelled_arithmetic : Session.Throughout Call.Arithmetic .start levelled := by
  refine Session.Throughout.of_forall (fun c hc σ => ?_) _
  simp only [levelled, cells, decay, List.cons_append, List.nil_append, List.mem_cons,
    List.not_mem_nil, or_false] at hc
  rcases hc with rfl | rfl | rfl | rfl | rfl | rfl | rfl | rfl | rfl | rfl | rfl | rfl | rfl | rfl <;>
    trivial

/-- A composite that is built on, the operand, and what was built of them. -/
def built? (σ : Session ℚ) (how : Composite.Builder) (i : Nat) (x : Passed ℚ) :
    Option (Composite ℚ × Operand ℚ × Composite ℚ × Store ℚ) :=
  match Held.composite σ.objects i, (x.operand σ.objects).outcome σ.store,
      composite? (((Making.build how i x).run σ.objects).outcome σ.store) with
  | .ok p, (.ok y, _), some (q, t) => some (p, y, q, t)
  | _, _, _ => none

theorem built?_eq_some {σ : Session ℚ} (hσ : σ.Valid) {how : Composite.Builder} {i : Nat}
    {x : Passed ℚ} {p q : Composite ℚ} {y : Operand ℚ} {t : Store ℚ}
    (h : built? σ how i x = some (p, y, q, t)) :
    Held.composite σ.objects i = .ok p ∧
      (x.operand σ.objects).outcome σ.store = (.ok y, σ.store) ∧
      ((Making.build how i x).run σ.objects).outcome σ.store =
        (.ok (.density (.composite q)), t) := by
  unfold built? at h
  split at h
  · rename_i p' y' u q' t' hp hy hq
    obtain ⟨rfl, rfl, rfl, rfl⟩ : p' = p ∧ y' = y ∧ q' = q ∧ t' = t := by simpa using h
    have hsame := (x.operand_spec hσ.objects (E := fun _ => True) trivial).ok hy
    exact ⟨hp, hsame.1 ▸ hy, outcome_of_composite? hq⟩
  · cases h

end Sample

/-- The product of a normal density and a decay density that have a parameter of one name
and of one value. -/
theorem Making.evaluate_build_product : ∃ (p q : Composite ℚ) (y : Operand ℚ) (t : Store ℚ),
    let σ := Session.after Sample.levelled
    Session.Throughout Call.Arithmetic .start Sample.levelled ∧
    Held.composite σ.objects 12 = .ok p ∧
    ((Passed.held 10).operand σ.objects).outcome σ.store = (.ok y, σ.store) ∧
    (Sample.product.run σ.objects).outcome σ.store = (.ok (.density (.composite q)), t) ∧
    p.program.Whole ∧ (∀ e, y = .composite e → e.program.Whole) ∧
    (p.outline σ.store).Agrees (y.outline σ.store) ∧
    Composite.Computes σ.store t .product p y q := by
  have hrun : ∃ r ∈ Sample.built? (Session.after Sample.levelled) .product 12 (.held 10),
      r.1.program = [.leaf (.model 0)] ∧
      (r.2.1.outline (Session.after Sample.levelled).store).program = [.leaf (.model 0)] ∧
      ∀ e ∈ (Session.after Sample.levelled).store.currentValues r.1.pars,
        (r.2.1.outline (Session.after Sample.levelled).store).pars e.1 ∈ [none, some e.2] := by
    decide +kernel
  obtain ⟨⟨p, y, q, t⟩, hbuilt, hpw, hyw, hvalues⟩ := hrun
  obtain ⟨hp, hy, hq⟩ := Sample.built?_eq_some (Session.after_valid _) hbuilt
  have hwhole : p.program.Whole := by
    rw [hpw]
    exact Program.whole_leaf _
  have hwhole' : ∀ e, y = .composite e → e.program.Whole := by
    rintro e rfl
    have he : e.program = [.leaf (.model 0)] := hyw
    rw [he]
    exact Program.whole_leaf _
  have hagree : (p.outline (Session.after Sample.levelled).store).Agrees
      (y.outline (Session.after Sample.levelled).store) := by
    intro n v w hv hw
    have hmem := hvalues (n, v) (Store.mem_currentValues hv)
    rw [hw] at hmem
    simpa [eq_comm] using hmem
  exact ⟨p, q, y, t, Sample.levelled_arithmetic, hp, hy, hq, hwhole, hwhole', hagree,
    evaluate_build Sample.levelled_arithmetic .product 12 (.held 10) hp hy hq hwhole hwhole' hagree⟩

end DensityAlgebra
