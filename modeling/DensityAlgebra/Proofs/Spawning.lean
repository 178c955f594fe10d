/-
# What is taken from random sources

A decay density has a random source, and a copy of it gets a child of that source. Taking a
child is the one thing that copying changes about what is copied: the source counts its
children, and the next child will be another one. Nothing else that builds densities touches a
source, a counter or a notice that was there before.

The copying and joining actions do not fail, and the children that they take can be read off
the densities: one for each decay density that is copied, in order.

Key definitions: `Store.Spawns`, `Run.Takes`, `Model.sources`, `Operand.sources`.
Key theorems: `Run.Takes.bind`, `Model.copy_takes`, `Composite.append_takes`,
`Composite.extended_takes`.
-/
import DensityAlgebra.Proofs.Linking

namespace DensityAlgebra

variable {α : Type}

/-! ### Children of sources -/

namespace Store

/-- From `s` to `t`, old sources have given the children that `ks` lists, and are otherwise as
they were; so are old counters, and there are no new notices. -/
structure Spawns (ks : List SourceId) (s t : Store α) : Prop where
  moreSources : s.sources.size ≤ t.sources.size
  moreCounters : s.counters.size ≤ t.counters.size
  sources : ∀ r : SourceId, r.index < s.sources.size →
    t.source r = { s.source r with spawned := (s.source r).spawned + ks.count r }
  counters : ∀ c : CounterId, c.index < s.counters.size → t.counter c = s.counter c
  notices : t.notices = s.notices

variable {ks ls : List SourceId} {s t u : Store α}

/-- Nothing has happened to sources, counters and notices. -/
theorem Spawns.of_eq (hsources : t.sources = s.sources) (hcounters : t.counters = s.counters)
    (hnotices : t.notices = s.notices) : Spawns [] s t where
  moreSources := hsources ▸ le_rfl
  moreCounters := hcounters ▸ le_rfl
  sources r _ := by
    unfold source
    rw [hsources]
    rfl
  counters c _ := by
    unfold counter
    rw [hcounters]
  notices := hnotices

theorem Spawns.refl (s : Store α) : Spawns [] s s := .of_eq rfl rfl rfl

theorem Spawns.trans (h : Spawns ks s t) (h' : Spawns ls t u) : Spawns (ks ++ ls) s u where
  moreSources := h.moreSources.trans h'.moreSources
  moreCounters := h.moreCounters.trans h'.moreCounters
  sources r hr := by
    rw [h'.sources r (hr.trans_le h.moreSources), h.sources r hr, List.count_append, Nat.add_assoc]
  counters c hc := (h'.counters c (hc.trans_le h.moreCounters)).trans (h.counters c hc)
  notices := h'.notices.trans h.notices

theorem Spawns.then_quiet (h : Spawns ks s t) (h' : Spawns [] t u) : Spawns ks s u :=
  List.append_nil ks ▸ h.trans h'

/-- Children of new sources do not count. -/
theorem Spawns.of_new (h : Spawns (ks ++ ls) s t) (hls : ∀ r ∈ ls, s.sources.size ≤ r.index) :
    Spawns ks s t where
  moreSources := h.moreSources
  moreCounters := h.moreCounters
  sources r hr := by
    have hcount : ls.count r = 0 := List.count_eq_zero.mpr fun hmem => absurd (hls r hmem) hr.not_ge
    rw [h.sources r hr, List.count_append, hcount, Nat.add_zero]
  counters := h.counters
  notices := h.notices

/-- The old sources are all as they were if and only if none of them has given a child. -/
theorem Spawns.sources_same_iff (h : Spawns ks s t) :
    (∀ r : SourceId, r.index < s.sources.size → t.source r = s.source r) ↔
      ∀ r ∈ ks, s.sources.size ≤ r.index := by
  constructor
  · intro hsame r hr
    by_contra hold
    have hspawned := congrArg Source.spawned ((h.sources r (not_le.mp hold)).symm.trans
      (hsame r (not_le.mp hold)))
    have hcount := List.count_pos_iff.mpr hr
    simp only at hspawned
    omega
  · intro hnew r hr
    have hcount : ks.count r = 0 := List.count_eq_zero.mpr fun hmem => absurd (hnew r hmem) hr.not_ge
    rw [h.sources r hr, hcount]
    rfl

/-- Pointing registries elsewhere touches no source. -/
theorem spawns_linkAll : ∀ (l : List (RegistryId × RegistryId)) (s : Store α),
    Spawns [] s (s.linkAll l)
  | [], s => .refl s
  | (own, shared) :: l, s =>
    (Spawns.of_eq (s := s) (t := s.link own shared) rfl rfl rfl).then_quiet (spawns_linkAll l _)

end Store

namespace Run

/-- The action does not fail, and takes the children that `ks` lists. -/
def Takes {β : Type} (ks : List SourceId) (x : Run α β) : Prop :=
  ∀ s, x.Ends s (fun _ t => s.Spawns ks t) fun _ => False

variable {β γ : Type} {ks ls : List SourceId}

theorem Takes.pure (b : β) : Takes [] (pure b : Run α β) := fun s => ends_pure (.refl s)

theorem Takes.get : Takes [] (get : Run α (Store α)) := fun s => ends_of_ok (outcome_get s) (.refl s)

/-- The children of a sequence are those of its parts, one after the other. -/
theorem Takes.bind {x : Run α β} {f : β → Run α γ} (hx : Takes ks x) (hf : ∀ b, Takes ls (f b)) :
    Takes (ks ++ ls) (x >>= f) := fun s => (hx s).bind fun b t ht =>
  (hf b t).mono (fun _ _ hu => ht.trans hu) fun _ h => h

theorem Takes.then_quiet {x : Run α β} {f : β → Run α γ} (hx : Takes ks x)
    (hf : ∀ b, Takes [] (f b)) : Takes ks (x >>= f) :=
  List.append_nil ks ▸ hx.bind hf

/-- A sequence goes on where its first part has taken its children. -/
theorem Takes.ends_bind {x : Run α β} {f : β → Run α γ} {Q : γ → Store α → Prop}
    {E : Store α → Prop} {s : Store α} (hx : Takes ks x)
    (hf : ∀ b t, s.Spawns ks t → (f b).Ends t Q E) : (x >>= f).Ends s Q E :=
  ((hx s).mono (fun _ _ h => h) fun _ h => h.elim).bind hf

theorem Takes.of_outcome {x : Run α β} {f : Store α → Store α} {b : β}
    (hx : ∀ s, x.outcome s = (.ok b, f s)) (hf : ∀ s, Store.Spawns ks s (f s)) : Takes ks x :=
  fun s => ends_of_ok (hx s) (hf s)

theorem Takes.modify {f : Store α → Store α} (hf : ∀ s, Store.Spawns ks s (f s)) :
    Takes ks (modify f : Run α PUnit) := fun s => ends_modify (hf s)

theorem Takes.mapM {ι : Type} {f : ι → Run α β} {g : ι → List SourceId}
    (hf : ∀ i, Takes (g i) (f i)) : ∀ l : List ι, Takes (l.flatMap g) (l.mapM f)
  | [] => by
    rw [List.mapM_nil]
    exact .pure _
  | i :: l => by
    rw [List.mapM_cons, List.flatMap_cons]
    exact (hf i).bind fun b => (Takes.mapM hf l).then_quiet fun bs => .pure _

theorem newCell_takes (x : Cell α) : Takes [] (newCell x) := fun _ =>
  ends_get_bind (ends_of_ok rfl (.of_eq rfl rfl rfl))

theorem newRegistry_takes (x : Registry) : Takes [] (newRegistry x : Run α RegistryId) := fun _ =>
  ends_get_bind (ends_of_ok rfl (.of_eq rfl rfl rfl))

theorem newState_takes (x : DecayState α) : Takes [] (newState x) := fun _ =>
  ends_get_bind (ends_of_ok rfl (.of_eq rfl rfl rfl))

theorem newCounter_takes (n : Nat) : Takes [] (newCounter n : Run α CounterId) := by
  intro s
  refine ends_get_bind (ends_of_ok rfl ⟨le_rfl, ?_, fun _ _ => rfl, fun c hc => ?_, rfl⟩)
  · show s.counters.size ≤ (s.counters.push n).size
    rw [Array.size_push]
    omega
  · show (s.counters.push n).getD _ _ = s.counters.getD _ _
    rw [getD_push, if_neg hc.ne]

theorem rebind_takes (own shared : RegistryId) : Takes [] (rebind own shared : Run α Unit) :=
  .of_outcome (outcome_rebind own shared) fun _ => .of_eq rfl rfl rfl

/-- A child is taken, and put behind the sources that are there. -/
theorem spawn_takes (r : SourceId) : Takes [r] (spawn r : Run α SourceId) := by
  intro s
  set next := (s.source r).spawn.2 with hnext
  have hsize : (s.putSource r next).sources.size = s.sources.size := Array.size_setIfInBounds
  refine ends_of_ok (t := { s.putSource r next with
    sources := (s.putSource r next).sources.push (s.source r).spawn.1 }) rfl
    ⟨?_, le_rfl, fun q hq => ?_, fun _ _ => rfl, rfl⟩
  · rw [Array.size_push]
    omega
  · show ((s.putSource r next).sources.push _).getD _ _ = _
    rw [getD_push, if_neg (by omega)]
    show (s.sources.setIfInBounds _ _).getD _ _ = _
    rw [getD_setIfInBounds]
    by_cases hqr : q = r
    · subst hqr
      rw [if_pos ⟨rfl, hq⟩, List.count_singleton_self]
      rfl
    · have hne : ¬ (q.index = r.index ∧ r.index < s.sources.size) := fun h =>
        hqr (SourceId.mk.injEq .. ▸ h.1)
      rw [if_neg hne, List.count_singleton, if_neg (by simpa using Ne.symm hqr)]
      rfl

variable [Scalar α]

theorem copyCells_takes (cs : List CellId) : Takes [] (copyCells cs : Run α _) := fun _ =>
  ends_get_bind (ends_of_ok rfl (.of_eq rfl rfl rfl))

theorem copyRegistries_takes (rs : List RegistryId) : Takes [] (copyRegistries rs : Run α _) := by
  refine Takes.get.bind fun s => (copyCells_takes _).bind fun f => ?_
  refine Takes.then_quiet (Takes.modify fun t => ?_) fun _ => .pure _
  exact .of_eq rfl rfl rfl

end Run

/-! ### Copies -/

/-- The random source of a decay density; other models have none. -/
def Model.sources : Model α → List SourceId
  | decay d => [d.source]
  | _ => []

/-- The random sources of an operand, in the order of its models. -/
def Operand.sources (x : Operand α) : List SourceId := x.models.flatMap Model.sources

variable [Scalar α]

theorem Decay.detach_takes (f : RegistryId → RegistryId) (d : Decay α) :
    Run.Takes [d.source] (d.detach f) :=
  Run.Takes.get.bind fun _ => (Run.newState_takes _).bind fun _ =>
    (Run.spawn_takes d.source).then_quiet fun _ => .pure _

theorem Model.detach_takes (f : RegistryId → RegistryId) (m : Model α) :
    Run.Takes m.sources (m.detach f) := by
  cases m with
  | gaussian h x mu sigma => exact .pure _
  | uniform h x lo hi => exact .pure _
  | formula h body c =>
    exact Run.Takes.get.bind fun _ => (Run.newCounter_takes _).then_quiet fun _ => .pure _
  | decay d => exact (d.detach_takes f).then_quiet fun _ => .pure _

/-- A copied decay density has a source of its own. -/
theorem Decay.detach_new (f : RegistryId → RegistryId) (d : Decay α) (s : Store α) :
    (d.detach f).Ends s (fun e _ => s.sources.size ≤ e.source.index) fun _ => False := by
  unfold detach
  refine Run.ends_get_bind ((Run.newState_takes _).ends_bind fun _ u hu => ?_)
  have hspawn : (Run.spawn d.source).Ends u (fun q _ => s.sources.size ≤ q.index)
      fun _ => False := by
    refine Run.ends_of_ok rfl ?_
    show s.sources.size ≤ (u.sources.setIfInBounds _ _).size
    rw [Array.size_setIfInBounds]
    exact hu.moreSources
  exact hspawn.bind fun q t hq => Run.ends_pure hq

theorem Model.copy_new (m : Model α) (s : Store α) :
    m.copy.Ends s (fun n _ => ∀ r ∈ n.sources, s.sources.size ≤ r.index) fun _ => False := by
  unfold copy
  refine (Run.copyRegistries_takes _).ends_bind fun f t ht => ?_
  cases m with
  | decay d =>
    refine (d.detach_new f t).bind fun e u he => Run.ends_pure fun r hr => ?_
    rw [List.mem_singleton.mp hr]
    exact ht.moreSources.trans he
  | formula h body c =>
    exact Run.ends_get_bind ((Run.newCounter_takes _).ends_bind fun _ _ _ => Run.ends_pure nofun)
  | _ => exact Run.ends_pure nofun

/-- **A copied decay density takes a child of its source**; other models take none. -/
theorem Model.copy_takes (m : Model α) : Run.Takes m.sources m.copy :=
  (Run.copyRegistries_takes _).bind fun f => m.detach_takes f

omit [Scalar α] in
theorem Decay.shareCells_takes (d : Decay α) : Run.Takes [] d.shareCells :=
  .of_outcome d.outcome_shareCells fun s => Store.spawns_linkAll _ s

theorem Decay.copy_takes (d : Decay α) : Run.Takes [d.source] d.copy :=
  (Run.copyRegistries_takes _).bind fun f => d.detach_takes f

theorem Weight.copy_takes (w : Weight α) : Run.Takes [] w.copy :=
  (Run.copyRegistries_takes _).then_quiet fun _ => .pure _

theorem Amplitude.copy_takes (a : Amplitude α) : Run.Takes [] a.copy :=
  (Run.copyRegistries_takes _).then_quiet fun _ => .pure _

theorem Expression.copy_takes (e : Expression α) : Run.Takes [] e.copy :=
  (Run.copyCells_takes _).then_quiet fun _ => .pure _

namespace Composite

theorem copy_takes (p : Composite α) : Run.Takes (p.models.flatMap Model.sources) p.copy :=
  (Run.copyRegistries_takes _).bind fun f =>
    (Run.Takes.mapM (Model.detach_takes f) p.models).then_quiet fun _ => .pure _

/-! ### Joining -/

theorem appendModels_takes (p : Composite α) (ms : List (Model α)) (program : Program α) :
    Run.Takes [] (p.appendModels ms program) :=
  (Run.Takes.of_outcome (outcome_bindModels _ _ ms) fun s => Store.spawns_linkAll _ s).then_quiet
    fun _ => .pure _

omit [Scalar α] in
theorem adopt_takes (r : RegistryId) : ∀ es : List (String × CellId),
    Run.Takes [] (adopt r es : Run α Unit)
  | [] => .pure _
  | _ :: rest => by
    refine (Run.Takes.modify fun s => ?_).then_quiet fun _ => adopt_takes r rest
    exact .of_eq rfl rfl rfl

/-- **A density or a factor in reach can be put behind what is there**, and takes the children
of its copy. -/
theorem append_takes (p : Composite α) {x : Operand α} (hx : x.Fits) :
    Run.Takes x.sources (p.append x) := by
  cases x with
  | model m =>
    have hcopy := (Model.copy_takes m).then_quiet fun m' =>
      p.appendModels_takes [m'] [.leaf (.model p.models.length)]
    rwa [← List.flatMap_singleton (f := Model.sources)] at hcopy
  | composite y =>
    exact y.copy_takes.then_quiet fun z => (Run.rebind_takes _ _).bind fun _ =>
      (Run.rebind_takes _ _).bind fun _ => p.appendModels_takes _ _
  | parameter c =>
    exact Run.Takes.get.bind fun _ => (Run.newCell_takes _).bind fun _ =>
      (adopt_takes _ _).then_quiet fun _ => .pure _
  | expression e =>
    exact e.copy_takes.bind fun _ => (adopt_takes _ _).then_quiet fun _ => .pure _
  | plain d =>
    obtain ⟨y, hy⟩ := hx.number
    rw [append_number p hy]
    exact .pure _
  | _ => simp [Operand.Fits, Operand.isDensity, Operand.isFactor] at hx

omit [Scalar α] in
theorem new_takes : Run.Takes [] (new : Run α (Composite α)) :=
  (Run.newRegistry_takes _).bind fun _ => (Run.newRegistry_takes _).bind fun _ => .pure _

theorem ofOperand_takes {x : Operand α} (hx : x.Fits) : Run.Takes x.sources (ofOperand x) :=
  new_takes.bind fun p => p.append_takes hx

/-- The composite of one model has a source of its own. -/
theorem ofModel_new (m : Model α) (s : Store α) :
    (ofOperand (.model m)).Ends s
      (fun p _ => ∀ r ∈ p.models.flatMap Model.sources, s.sources.size ≤ r.index)
      fun _ => False := by
  have hnew : (new : Run α (Composite α)).Ends s
      (fun p t => p.models = [] ∧ s.sources.size ≤ t.sources.size) fun _ => False :=
    (Run.newRegistry_takes _).ends_bind fun _ _ h => (Run.newRegistry_takes _).ends_bind
      fun _ _ h' => Run.ends_pure ⟨rfl, h.moreSources.trans h'.moreSources⟩
  refine hnew.bind fun p t ⟨hp, ht⟩ => (m.copy_new t).bind fun n u hn => ?_
  have hbind := (Run.Takes.of_outcome (outcome_bindModels p.vars p.pars [n])
    fun s => Store.spawns_linkAll _ s)
  refine hbind.ends_bind fun _ _ _ => Run.ends_pure fun r hr => ht.trans (hn r ?_)
  simpa [hp] using hr

/-- **A composite can be extended by a density or a factor in reach**, and both are copied. -/
theorem extended_takes (p : Composite α) {x : Operand α} (hx : x.Fits) (op : Operation) :
    Run.Takes (p.models.flatMap Model.sources ++ x.sources) (p.extended x op) := by
  refine p.copy_takes.bind fun q s => Run.ends_ite (fun _ => q.append_takes hx s) fun _ => ?_
  exact ((q.append_takes hx).then_quiet fun q' => .pure _) s

end Composite

end DensityAlgebra
