/-
# Traversals that may fail, and related lists

A traversal of a list by a function that may fail either succeeds at every member, and then
its result is related to the list member by member, or it fails as one of the members does.
What a member of one of two related lists is like is found out from its partner in the other.

Key theorems: `bind_eq_ok_iff`, `bind_eq_error_iff`, `forall₂_of_mem`,
`forall_mem_iff_of_forall₂`, `forall₂_of_mapM_eq_ok`, `exists_of_mapM_eq_error`.
-/
import Mathlib.Data.List.Forall2

namespace DensityAlgebra

variable {ε β γ δ : Type}

/-! ### Results and failures in sequence -/

theorem bind_eq_ok_iff {x : Except ε γ} {f : γ → Except ε δ} {b : δ} :
    (x >>= f) = .ok b ↔ ∃ a, x = .ok a ∧ f a = .ok b := by
  cases x <;> simp [bind, Except.bind]

theorem bind_eq_error_iff {x : Except ε γ} {f : γ → Except ε δ} {e : ε} :
    (x >>= f) = .error e ↔ x = .error e ∨ ∃ a, x = .ok a ∧ f a = .error e := by
  cases x <;> simp [bind, Except.bind]

@[simp] theorem error_bind (e : ε) (f : γ → Except ε δ) :
    (.error e >>= f : Except ε δ) = .error e := rfl

@[simp] theorem ok_bind (a : γ) (f : γ → Except ε δ) : (.ok a >>= f : Except ε δ) = f a := rfl

/-! ### Related lists -/

section

variable {R : β → γ → Prop} {xs : List β} {ys : List γ}

/-- A relation between two lists may be weakened for their members. -/
theorem forall₂_of_mem {S : β → γ → Prop} (h : List.Forall₂ R xs ys)
    (hS : ∀ x ∈ xs, ∀ y ∈ ys, R x y → S x y) : List.Forall₂ S xs ys := by
  refine List.forall₂_iff_zip.mpr ⟨h.length_eq, fun hxy => ?_⟩
  obtain ⟨hx, hy⟩ := List.of_mem_zip hxy
  exact hS _ hx _ hy (List.forall₂_zip h hxy)

theorem exists_left_of_forall₂ (h : List.Forall₂ R xs ys) {y : γ} (hy : y ∈ ys) :
    ∃ x ∈ xs, R x y := by
  obtain ⟨i, hi, rfl⟩ := List.mem_iff_getElem.mp hy
  have hi' : i < xs.length := h.length_eq ▸ hi
  exact ⟨xs[i], List.getElem_mem hi', h.get hi' hi⟩

theorem exists_right_of_forall₂ (h : List.Forall₂ R xs ys) {x : β} (hx : x ∈ xs) :
    ∃ y ∈ ys, R x y := by
  obtain ⟨i, hi, rfl⟩ := List.mem_iff_getElem.mp hx
  have hi' : i < ys.length := h.length_eq ▸ hi
  exact ⟨ys[i], List.getElem_mem hi', h.get hi hi'⟩

/-- What the members of related lists are like, where related members are alike in it. -/
theorem forall_mem_iff_of_forall₂ {P : β → Prop} {Q : γ → Prop} (h : List.Forall₂ R xs ys)
    (hiff : ∀ x ∈ xs, ∀ y ∈ ys, R x y → (Q y ↔ P x)) : (∀ y ∈ ys, Q y) ↔ ∀ x ∈ xs, P x := by
  constructor
  · intro hQ x hx
    obtain ⟨y, hy, hxy⟩ := exists_right_of_forall₂ h hx
    exact (hiff x hx y hy hxy).mp (hQ y hy)
  · intro hP y hy
    obtain ⟨x, hx, hxy⟩ := exists_left_of_forall₂ h hy
    exact (hiff x hx y hy hxy).mpr (hP x hx)

/-- What two lists have in common with a third one they have in common with each other. -/
theorem forall₂_through {S : β → δ → Prop} {zs : List δ} (h : List.Forall₂ R xs ys)
    (h' : List.Forall₂ S xs zs) : List.Forall₂ (fun y z => ∃ x ∈ xs, R x y ∧ S x z) ys zs := by
  refine List.forall₂_iff_get.mpr ⟨h.length_eq.symm.trans h'.length_eq, fun i hy hz => ?_⟩
  have hx : i < xs.length := h.length_eq ▸ hy
  exact ⟨xs[i], List.getElem_mem hx, h.get hx hy, h'.get hx hz⟩

end

/-! ### Traversals -/

section

variable {f : β → Except ε γ}

/-- A traversal that succeeds has succeeded at every member. -/
theorem forall₂_of_mapM_eq_ok : ∀ {xs : List β} {ys : List γ}, xs.mapM f = .ok ys →
    List.Forall₂ (fun x y => f x = .ok y) xs ys
  | [], ys, h => by
    obtain rfl := Except.ok.inj h
    exact .nil
  | x :: xs, ys, h => by
    rw [List.mapM_cons] at h
    obtain ⟨y, hy, h⟩ := bind_eq_ok_iff.mp h
    obtain ⟨zs, hzs, h⟩ := bind_eq_ok_iff.mp h
    obtain rfl : y :: zs = ys := Except.ok.inj h
    exact .cons hy (forall₂_of_mapM_eq_ok hzs)

/-- What a list was mapped to comes from its members. -/
theorem mem_of_mapM_eq_ok {xs : List β} {ys : List γ} (h : xs.mapM f = .ok ys) :
    ∀ y ∈ ys, ∃ x ∈ xs, f x = .ok y :=
  fun _ hy => exists_left_of_forall₂ (forall₂_of_mapM_eq_ok h) hy

/-- What a list was mapped to has an item for each of its members. -/
theorem mem_mapM_of_mem {xs : List β} {ys : List γ} (h : xs.mapM f = .ok ys) {x : β}
    (hx : x ∈ xs) {y : γ} (hy : f x = .ok y) : y ∈ ys := by
  obtain ⟨z, hz, hxz⟩ := exists_right_of_forall₂ (forall₂_of_mapM_eq_ok h) hx
  exact Except.ok.inj (hy.symm.trans hxz) ▸ hz

/-- A traversal that can be taken back gives back the list. -/
theorem map_of_mapM_eq_ok {g : γ → β} (hg : ∀ x y, f x = .ok y → g y = x) {xs : List β}
    {ys : List γ} (h : xs.mapM f = .ok ys) : ys.map g = xs := by
  have hback : List.Forall₂ Eq xs (ys.map g) :=
    List.forall₂_map_right_iff.mpr ((forall₂_of_mapM_eq_ok h).imp fun x y hy => (hg x y hy).symm)
  rw [List.forall₂_eq_eq_eq] at hback
  exact hback.symm

/-- Where a traversal fails, it fails at a member. -/
theorem exists_of_mapM_eq_error {e : ε} : ∀ {xs : List β}, xs.mapM f = .error e →
    ∃ x ∈ xs, f x = .error e
  | [], h => by cases h
  | x :: xs, h => by
    rw [List.mapM_cons] at h
    rcases bind_eq_error_iff.mp h with hx | ⟨y, -, h⟩
    · exact ⟨x, List.mem_cons_self, hx⟩
    · rcases bind_eq_error_iff.mp h with hxs | ⟨ys, -, h⟩
      · obtain ⟨z, hz, hfz⟩ := exists_of_mapM_eq_error hxs
        exact ⟨z, List.mem_cons_of_mem _ hz, hfz⟩
      · cases h

/-- A traversal succeeds exactly if it does so at every member. -/
theorem exists_mapM_eq_ok_iff {xs : List β} :
    (∃ ys, xs.mapM f = .ok ys) ↔ ∀ x ∈ xs, ∃ y, f x = .ok y := by
  constructor
  · rintro ⟨ys, hys⟩ x hx
    obtain ⟨y, -, hy⟩ := exists_right_of_forall₂ (forall₂_of_mapM_eq_ok hys) hx
    exact ⟨y, hy⟩
  · intro h
    cases hys : xs.mapM f with
    | ok ys => exact ⟨ys, rfl⟩
    | error e =>
      obtain ⟨x, hx, herror⟩ := exists_of_mapM_eq_error hys
      obtain ⟨y, hy⟩ := h x hx
      cases herror.symm.trans hy

/-- A traversal by a function that has a result at every member. -/
theorem mapM_eq_ok_map {g : β → γ} {xs : List β} (h : ∀ x ∈ xs, f x = .ok (g x)) :
    xs.mapM f = .ok (xs.map g) := by
  induction xs with
  | nil => rfl
  | cons x xs ih =>
    rw [List.forall_mem_cons] at h
    rw [List.mapM_cons, h.1, ih h.2]
    rfl

end

end DensityAlgebra
