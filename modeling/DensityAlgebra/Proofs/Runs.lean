/-
# Reasoning about actions

An action on a store either yields something or fails, and leaves a store either
way. `Run.Ends` says both: what is promised of the result and of the store after
an action that succeeds, and what of the store after one that fails. There is one
rule for each way in which actions are put together; the rule for a sequence
asks for what is promised in between.

An action that calls one function again and again, and does nothing else to the store, keeps
what every call keeps, and fails only where a call fails.

Key definitions: `Run.outcome`, `Run.Ends`, `Run.Keeps`, `Run.Reach`, `Run.Calling`.
Key theorems: `Run.Ends.bind`, `Run.Ends.mono`, `Run.ends_reading`,
`Run.outcome_bind_ok`, `Run.Calling.failed`.
-/
import DensityAlgebra.Store
import Mathlib.Tactic.SplitIfs

namespace DensityAlgebra

namespace Run

variable {α β γ : Type}

/-- What an action yields, and the store after it. -/
def outcome (x : Run α β) (s : Store α) : Except (Fault α) β × Store α := x.run s

/-- The action yields something of which `Q` holds, or fails in a store of which
`E` holds. The action is not to be run in order to see what this says. -/
@[irreducible] def Ends (x : Run α β) (s : Store α) (Q : β → Store α → Prop)
    (E : Store α → Prop) : Prop :=
  match x.outcome s with
  | (.ok b, t) => Q b t
  | (.error _, t) => E t

/-! ### Outcomes -/

@[simp] theorem outcome_pure (b : β) (s : Store α) :
    outcome (pure b : Run α β) s = (.ok b, s) := rfl

@[simp] theorem outcome_get (s : Store α) : outcome (get : Run α (Store α)) s = (.ok s, s) := rfl

@[simp] theorem outcome_set (s t : Store α) : outcome (set t : Run α PUnit) s = (.ok ⟨⟩, t) := rfl

@[simp] theorem outcome_modify (f : Store α → Store α) (s : Store α) :
    outcome (modify f : Run α PUnit) s = (.ok ⟨⟩, f s) := rfl

@[simp] theorem outcome_throw (e : Fault α) (s : Store α) :
    outcome (throw e : Run α β) s = (.error e, s) := rfl

theorem outcome_bind (x : Run α β) (f : β → Run α γ) (s : Store α) :
    outcome (x >>= f) s =
      match outcome x s with
      | (.ok b, t) => outcome (f b) t
      | (.error e, t) => (.error e, t) := by
  have hb : outcome (x >>= f) s =
      (show StateM (Store α) _ from ExceptT.bindCont f (x.outcome s).1) (x.outcome s).2 := rfl
  rw [hb]
  rcases x.outcome s with ⟨b | e, t⟩ <;> rfl

theorem outcome_bind_ok {x : Run α β} {s t : Store α} {b : β} (f : β → Run α γ)
    (h : x.outcome s = (.ok b, t)) : (x >>= f).outcome s = (f b).outcome t := by
  rw [outcome_bind, h]

theorem outcome_bind_error {x : Run α β} {s t : Store α} {e : Fault α} (f : β → Run α γ)
    (h : x.outcome s = (.error e, t)) : (x >>= f).outcome s = (.error e, t) := by
  rw [outcome_bind, h]

theorem outcome_map {x : Run α β} {s t : Store α} {result : Except (Fault α) β} (f : β → γ)
    (h : x.outcome s = (result, t)) : (f <$> x).outcome s = (result.map f, t) := by
  rw [map_eq_pure_bind]
  cases result with
  | error e => exact outcome_bind_error _ h
  | ok b => exact outcome_bind_ok _ h

theorem outcome_reading (f : Store α → Except (Fault α) β) (s : Store α) :
    (reading f).outcome s = (f s, s) := by
  show (get >>= _ : Run α β).outcome s = _
  rw [outcome_bind_ok _ (outcome_get s)]
  cases f s <;> rfl

theorem outcome_reading_bind_ok {f : Store α → Except (Fault α) β} {s : Store α} {b : β}
    (k : β → Run α γ) (h : f s = .ok b) : (reading f >>= k).outcome s = (k b).outcome s :=
  outcome_bind_ok k (by rw [outcome_reading, h])

/-- Under a condition an action is refused, and otherwise it goes on. -/
theorem outcome_guard (c : Prop) [Decidable c] (e : Fault α) (k : PUnit → Run α β) (s : Store α) :
    (if c then throw e >>= k else k ⟨⟩).outcome s =
      if c then (.error e, s) else (k ⟨⟩).outcome s := by
  split_ifs
  · exact outcome_bind_error k (outcome_throw e s)
  · rfl

/-- A sequence that succeeds has succeeded at its first part and then at its second one. -/
theorem outcome_bind_eq_ok {x : Run α β} {f : β → Run α γ} {s u : Store α} {c : γ}
    (h : (x >>= f).outcome s = (.ok c, u)) :
    ∃ b t, x.outcome s = (.ok b, t) ∧ (f b).outcome t = (.ok c, u) := by
  rw [outcome_bind] at h
  rcases hx : x.outcome s with ⟨b | b, t⟩
  · rw [hx] at h
    simp at h
  · rw [hx] at h
    exact ⟨b, t, rfl, h⟩

/-- A sequence that fails has failed at its first part, or at its second one after that. -/
theorem outcome_bind_eq_error {x : Run α β} {f : β → Run α γ} {s u : Store α} {e : Fault α}
    (h : (x >>= f).outcome s = (.error e, u)) :
    x.outcome s = (.error e, u) ∨
      ∃ b t, x.outcome s = (.ok b, t) ∧ (f b).outcome t = (.error e, u) := by
  rw [outcome_bind] at h
  rcases hx : x.outcome s with ⟨e' | b, t⟩
  · rw [hx] at h
    obtain ⟨he, rfl⟩ := Prod.mk.inj h
    exact .inl (by rw [Except.error.inj he])
  · rw [hx] at h
    exact .inr ⟨b, t, rfl, h⟩

/-- A sequence that succeeds has read something and gone on with it. -/
theorem outcome_reading_bind_eq_ok {f : Store α → Except (Fault α) β} {k : β → Run α γ}
    {s u : Store α} {c : γ} (h : (reading f >>= k).outcome s = (.ok c, u)) :
    ∃ b, f s = .ok b ∧ (k b).outcome s = (.ok c, u) := by
  obtain ⟨b, t, hread, hk⟩ := outcome_bind_eq_ok h
  rw [outcome_reading] at hread
  obtain ⟨hb, rfl⟩ := Prod.mk.inj hread
  exact ⟨b, hb, hk⟩

/-- A sequence that starts with reading fails at that, or later on. -/
theorem outcome_reading_bind_eq_error {f : Store α → Except (Fault α) β} {k : β → Run α γ}
    {s u : Store α} {e : Fault α} (h : (reading f >>= k).outcome s = (.error e, u)) :
    (f s = .error e ∧ u = s) ∨ ∃ b, f s = .ok b ∧ (k b).outcome s = (.error e, u) := by
  rcases outcome_bind_eq_error h with hread | ⟨b, t, hread, hk⟩
  · rw [outcome_reading] at hread
    obtain ⟨hs, rfl⟩ := Prod.mk.inj hread
    exact .inl ⟨hs, rfl⟩
  · rw [outcome_reading] at hread
    obtain ⟨hb, rfl⟩ := Prod.mk.inj hread
    exact .inr ⟨b, hb, hk⟩

/-! ### Promises -/

variable {Q : β → Store α → Prop} {E : Store α → Prop} {s : Store α}

/-- What is promised of an action that succeeds holds of its result. -/
theorem Ends.ok {x : Run α β} {b : β} {t : Store α} (h : x.Ends s Q E)
    (hx : x.outcome s = (.ok b, t)) : Q b t := by
  unfold Ends at h
  rw [hx] at h
  exact h

theorem Ends.error {x : Run α β} {e : Fault α} {t : Store α} (h : x.Ends s Q E)
    (hx : x.outcome s = (.error e, t)) : E t := by
  unfold Ends at h
  rw [hx] at h
  exact h

theorem ends_of_ok {x : Run α β} {b : β} {t : Store α} (hx : x.outcome s = (.ok b, t))
    (h : Q b t) : x.Ends s Q E := by
  unfold Ends
  rw [hx]
  exact h

theorem ends_of_error {x : Run α β} {e : Fault α} {t : Store α}
    (hx : x.outcome s = (.error e, t)) (h : E t) : x.Ends s Q E := by
  unfold Ends
  rw [hx]
  exact h

/-- Actions with the same outcome end alike, wherever they start. -/
theorem Ends.congr {x y : Run α β} {u : Store α} (hy : y.Ends u Q E)
    (h : x.outcome s = y.outcome u) : x.Ends s Q E := by
  unfold Ends at hy ⊢
  rw [h]
  exact hy

/-- An action can be looked at by its outcome. -/
theorem ends_iff {x : Run α β} :
    x.Ends s Q E ↔
      (∀ b t, x.outcome s = (.ok b, t) → Q b t) ∧ ∀ e t, x.outcome s = (.error e, t) → E t := by
  constructor
  · intro h
    exact ⟨fun _ _ hx => h.ok hx, fun _ _ hx => h.error hx⟩
  · rintro ⟨hok, herr⟩
    unfold Ends
    rcases hx : x.outcome s with ⟨e | b, t⟩
    · exact herr e t hx
    · exact hok b t hx

/-- An action that cannot fail yields something. -/
theorem Ends.exists_ok {x : Run α β} (h : x.Ends s Q fun _ => False) :
    ∃ b t, x.outcome s = (.ok b, t) ∧ Q b t := by
  rcases hx : x.outcome s with ⟨e | b, t⟩
  · exact absurd (h.error hx) id
  · exact ⟨b, t, rfl, h.ok hx⟩

theorem Ends.mono {x : Run α β} {Q' : β → Store α → Prop} {E' : Store α → Prop}
    (h : x.Ends s Q E) (hQ : ∀ b t, Q b t → Q' b t) (hE : ∀ t, E t → E' t) : x.Ends s Q' E' := by
  rw [ends_iff] at h ⊢
  exact ⟨fun b t hx => hQ b t (h.1 b t hx), fun e t hx => hE t (h.2 e t hx)⟩

/-- Two promises can be kept at once. -/
theorem Ends.and {x : Run α β} {Q' : β → Store α → Prop} {E' : Store α → Prop}
    (h : x.Ends s Q E) (h' : x.Ends s Q' E') :
    x.Ends s (fun b t => Q b t ∧ Q' b t) fun t => E t ∧ E' t := by
  rw [ends_iff] at h h' ⊢
  exact ⟨fun b t hx => ⟨h.1 b t hx, h'.1 b t hx⟩, fun e t hx => ⟨h.2 e t hx, h'.2 e t hx⟩⟩

/-- A sequence keeps its promise if its second part does, wherever the first one
may end. -/
theorem Ends.bind {x : Run α γ} {f : γ → Run α β} {R : γ → Store α → Prop} (h : x.Ends s R E)
    (hf : ∀ c t, R c t → (f c).Ends t Q E) : (x >>= f).Ends s Q E := by
  rw [ends_iff]
  rcases hx : x.outcome s with ⟨e | c, t⟩
  · rw [outcome_bind_error f hx]
    exact ⟨fun _ _ hn => by simp at hn, fun _ _ he => (Prod.mk.inj he).2 ▸ h.error hx⟩
  · rw [outcome_bind_ok f hx, ← ends_iff]
    exact hf c t (h.ok hx)

/-- Nothing is promised. -/
theorem ends_true (x : Run α β) (s : Store α) : x.Ends s (fun _ _ => True) fun _ => True :=
  ends_iff.mpr ⟨fun _ _ _ => trivial, fun _ _ _ => trivial⟩

theorem ends_pure {b : β} (h : Q b s) : (pure b : Run α β).Ends s Q E :=
  ends_of_ok (outcome_pure b s) h

theorem ends_throw {e : Fault α} (h : E s) : (throw e : Run α β).Ends s Q E := by
  unfold Ends
  rw [outcome_throw]
  exact h

theorem ends_modify {f : Store α → Store α} {Q : PUnit → Store α → Prop} (h : Q ⟨⟩ (f s)) :
    (modify f : Run α PUnit).Ends s Q E :=
  ends_of_ok (outcome_modify f s) h

theorem ends_ok_bind {x : Run α γ} {f : γ → Run α β} {c : γ} {t : Store α}
    (hx : x.outcome s = (.ok c, t)) (h : (f c).Ends t Q E) : (x >>= f).Ends s Q E := by
  rw [ends_iff, outcome_bind_ok f hx, ← ends_iff]
  exact h

/-- An action that goes on from what the store is. -/
theorem ends_get_bind {f : Store α → Run α β} (h : (f s).Ends s Q E) : (get >>= f).Ends s Q E :=
  ends_ok_bind (outcome_get s) h

theorem ends_reading {f : Store α → Except (Fault α) β} (h : ∀ b, f s = .ok b → Q b s) (he : E s) :
    (reading f).Ends s Q E := by
  unfold Ends
  rw [outcome_reading]
  cases hf : f s with
  | error e => exact he
  | ok b => exact h b hf

/-- An action that reads goes on with what it has read, or ends at once with what stopped it. -/
theorem ends_read_bind {f : Store α → Except (Fault α) γ} {k : γ → Run α β}
    (he : ∀ e, f s = .error e → E s) (hk : ∀ c, f s = .ok c → (k c).Ends s Q E) :
    (reading f >>= k).Ends s Q E := by
  cases hf : f s with
  | error e =>
    have hx : (reading f >>= k).outcome s = (.error e, s) :=
      outcome_bind_error k (by rw [outcome_reading, hf])
    rw [ends_iff, hx]
    exact ⟨fun _ _ h => by simp at h, fun _ _ h => (Prod.mk.inj h).2 ▸ he e hf⟩
  | ok c => exact ends_ok_bind (by rw [outcome_reading, hf]) (hk c hf)

/-- An action that reads, and goes on with what it has read. -/
theorem ends_reading_bind {f : Store α → Except (Fault α) γ} {k : γ → Run α β} (he : E s)
    (hk : ∀ c, f s = .ok c → (k c).Ends s Q E) : (reading f >>= k).Ends s Q E :=
  ends_read_bind (fun _ _ => he) hk

theorem ends_ite {c : Prop} {_ : Decidable c} {x y : Run α β} (hx : c → x.Ends s Q E)
    (hy : ¬c → y.Ends s Q E) : (if c then x else y).Ends s Q E := by
  split_ifs with h
  · exact hx h
  · exact hy h

/-- An action that is refused under a condition, and else goes on. -/
theorem ends_guard {c : Prop} {_ : Decidable c} {e : Fault α} {k : PUnit → Run α β} (he : E s)
    (hk : ¬c → (k ⟨⟩).Ends s Q E) : (if c then throw e >>= k else k ⟨⟩).Ends s Q E :=
  ends_ite (fun _ => by
    unfold Ends
    rw [outcome_bind_error k (outcome_throw e s)]
    exact he) hk

/-- There is a result for every member of a list. -/
theorem ends_mapM_length (f : γ → Run α β) : ∀ (l : List γ) (s : Store α),
    (l.mapM f).Ends s (fun ys _ => ys.length = l.length) fun _ => True
  | [], s => by
    rw [List.mapM_nil]
    exact ends_pure rfl
  | x :: l, s => by
    rw [List.mapM_cons]
    refine (ends_true (f x) s).bind fun y t _ => (ends_mapM_length f l t).bind fun ys u h => ?_
    exact ends_pure (congrArg Nat.succ h)

/-! ### What an action keeps -/

/-- The action keeps `I`, whether it succeeds or fails. -/
def Keeps (I : Store α → Prop) (x : Run α β) : Prop := ∀ s, I s → x.Ends s (fun _ t => I t) I

variable {I : Store α → Prop}

theorem Keeps.pure (b : β) : Keeps I (pure b : Run α β) := fun _ h => ends_pure h

theorem Keeps.bind {x : Run α β} {f : β → Run α γ} (hx : Keeps I x) (hf : ∀ b, Keeps I (f b)) :
    Keeps I (x >>= f) := fun s h => (hx s h).bind fun b t ht => hf b t ht

theorem Keeps.reading (f : Store α → Except (Fault α) β) : Keeps I (reading f) :=
  fun _ h => ends_reading (fun _ _ => h) h

theorem Keeps.get : Keeps I (get : Run α (Store α)) := fun s h => ends_of_ok (outcome_get s) h

theorem Keeps.modify {f : Store α → Store α} (h : ∀ s, I s → I (f s)) :
    Keeps I (modify f : Run α PUnit) := fun s hs => ends_modify (h s hs)

/-- Whatever an action keeps holds of the store after it. -/
theorem Keeps.after {x : Run α β} (hx : Keeps I x) (h : I s) : I (x.outcome s).2 := by
  have hs := hx s h
  rcases ho : x.outcome s with ⟨e | b, t⟩
  · exact hs.error ho
  · exact hs.ok ho

/-! ### Actions that call a function again and again -/

variable {δ : Type}

/-- The stores that calls of `f` lead to from `s`. -/
inductive Reach (f : γ → Run α δ) (s : Store α) : Store α → Prop
  | refl : Reach f s s
  | call {t : Store α} (p : γ) : Reach f s t → Reach f s ((f p).outcome t).2

/-- The action calls `f`, and else only computes with what `f` has yielded. -/
inductive Calling (f : γ → Run α δ) : {β : Type} → Run α β → Prop
  | pure {β : Type} (b : β) : Calling f (pure b : Run α β)
  | call (p : γ) : Calling f (f p)
  | bind {β β' : Type} {x : Run α β} {k : β → Run α β'} :
      Calling f x → (∀ b, Calling f (k b)) → Calling f (x >>= k)

variable {f : γ → Run α δ} {t : Store α}

/-- What every call keeps holds of every store that calls lead to. -/
theorem Reach.keeps {I : Store α → Prop} (hf : ∀ p, Keeps I (f p)) (hs : I s)
    (h : Reach f s t) : I t := by
  induction h with
  | refl => exact hs
  | call p _ ih => exact (hf p).after ih

theorem Reach.called {p : γ} {r : Except (Fault α) δ} {u : Store α} (h : Reach f s t)
    (hp : (f p).outcome t = (r, u)) : Reach f s u := by
  have hcall := h.call p
  rwa [hp] at hcall

/-- Wherever the action ends, calls lead to the store there. -/
theorem Calling.reach {x : Run α β} (h : Calling f x) (ht : Reach f s t)
    {r : Except (Fault α) β} {u : Store α} (hx : x.outcome t = (r, u)) : Reach f s u := by
  induction h generalizing t u with
  | pure b =>
    obtain ⟨-, rfl⟩ := Prod.mk.inj hx
    exact ht
  | call p => exact ht.called hx
  | @bind _ _ x k _ _ ihx ihk =>
    rw [outcome_bind] at hx
    rcases hfirst : x.outcome t with ⟨e | b, v⟩
    · rw [hfirst] at hx
      obtain ⟨-, rfl⟩ := Prod.mk.inj hx
      exact ihx ht hfirst
    · rw [hfirst] at hx
      exact ihk b (ihx ht hfirst) hx

/-- **Where such an action fails, a call has failed**, at a store that calls have led to. -/
theorem Calling.failed {x : Run α β} (h : Calling f x) (ht : Reach f s t) {e : Fault α}
    {u : Store α} (hx : x.outcome t = (.error e, u)) :
    ∃ p v, Reach f s v ∧ (f p).outcome v = (.error e, u) := by
  induction h generalizing t with
  | pure b => cases hx
  | call p => exact ⟨p, t, ht, hx⟩
  | @bind _ _ x k hcalling _ ihx ihk =>
    rcases outcome_bind_eq_error hx with hx | ⟨b, v, hfirst, hrest⟩
    · exact ihx ht hx
    · exact ihk b (hcalling.reach ht hfirst) hrest

/-- Such an action keeps what every call keeps. -/
theorem Calling.keeps {x : Run α β} (h : Calling f x) {I : Store α → Prop}
    (hf : ∀ p, Keeps I (f p)) : Keeps I x := by
  induction h with
  | pure b => exact Keeps.pure b
  | call p => exact hf p
  | bind _ _ ihx ihk => exact ihx.bind ihk

theorem Calling.mapM {ι : Type} {g : ι → Run α β} (h : ∀ i, Calling f (g i)) :
    ∀ l : List ι, Calling f (l.mapM g)
  | [] => by
    rw [List.mapM_nil]
    exact .pure _
  | i :: l => by
    rw [List.mapM_cons]
    exact (h i).bind fun b => (Calling.mapM h l).bind fun bs => .pure _

end Run

end DensityAlgebra
