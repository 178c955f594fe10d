/-
# Weight functions in another order

The weight of a point is a product of the values of weight functions, which are single numbers
or columns. Values combine entry by entry where their lengths fit together: a number that stands
alone fits everything, a single entry every column, and longer columns need to be equally long.
Whether three lengths fit does not depend on their order, so a product that is the same in any
order for numbers is so for values, and fails in any order or in none.

A decay density with its weight functions in another order has the same intensity, the same
integral and the same value at every point, or fails there as well, if products are exact. How it
fails may depend on which function comes first.

Key definitions: `Scalar.ExactProducts`, `Value.joint`, `Value.spread`.
Key theorems: `Value.combine_eq_spread`, `Value.combine_right_comm`, `Decay.weightProduct_perm`,
`Decay.intensity_perm`.
-/
import DensityAlgebra.Proofs.Reading
import Mathlib.Data.List.GetD
import Mathlib.Data.List.Perm.Basic

namespace DensityAlgebra

variable {α : Type} [Scalar α]

/-! ### Exact products -/

namespace Scalar

/-- Products are the same in any order and in any grouping. -/
structure ExactProducts (α : Type) [Scalar α] : Prop where
  assoc : ∀ x y z : α, x * y * z = x * (y * z)
  comm : ∀ x y : α, x * y = y * x

theorem ExactProducts.right_comm (hα : ExactProducts α) (x y z : α) :
    x * y * z = x * z * y := by
  rw [hα.assoc, hα.comm y z, ← hα.assoc]

end Scalar

namespace Value

/-! ### Lengths that fit together -/

/-- The length of what two values combine to, if their lengths fit together. -/
def joint : Option Nat → Option Nat → Option (Option Nat)
  | none, e => some e
  | e, none => some e
  | some n, some m =>
    if n = m then some (some n)
    else if n = 1 then some (some m)
    else if m = 1 then some (some n)
    else none

theorem joint_none (a : Option Nat) : joint a none = some a := by cases a <;> rfl

theorem none_joint (a : Option Nat) : joint none a = some a := rfl

theorem joint_one (n : Nat) : joint (some n) (some 1) = some (some n) := by
  by_cases hn : n = 1 <;> simp [joint, hn]

theorem one_joint (n : Nat) : joint (some 1) (some n) = some (some n) := by
  by_cases hn : n = 1 <;> simp [joint, hn]

theorem joint_of_ne {n m : Nat} (hn : n ≠ 1) (hm : m ≠ 1) :
    joint (some n) (some m) = if n = m then some (some n) else none := by
  simp [joint, hn, hm]

theorem joint_comm (a b : Option Nat) : joint a b = joint b a := by
  cases a with
  | none => rw [none_joint, joint_none]
  | some n =>
    cases b with
    | none => rw [none_joint, joint_none]
    | some m =>
      by_cases hn : n = 1
      · rw [hn, one_joint, joint_one]
      by_cases hm : m = 1
      · rw [hm, one_joint, joint_one]
      rw [joint_of_ne hn hm, joint_of_ne hm hn]
      by_cases h : n = m
      · rw [if_pos h, if_pos h.symm, h]
      · rw [if_neg h, if_neg (Ne.symm h)]

/-- A single entry fits a column without a change of its length. -/
theorem joint_bind_one (n m : Nat) :
    (joint (some n) (some m)).bind (joint · (some 1)) = joint (some n) (some m) := by
  cases h : joint (some n) (some m) with
  | none => rfl
  | some e =>
    obtain ⟨k, rfl⟩ : ∃ k, e = some k := by
      simp only [joint] at h
      split_ifs at h <;> exact ⟨_, (Option.some.inj h).symm⟩
    exact joint_one k

/-- Three lengths fit together in any order. -/
theorem joint_right_comm (a b c : Option Nat) :
    (joint a b).bind (joint · c) = (joint a c).bind (joint · b) := by
  cases a with
  | none => exact joint_comm b c
  | some n =>
    cases b with
    | none => simp [joint_none]
    | some m =>
      cases c with
      | none => simp [joint_none]
      | some k =>
        by_cases hm : m = 1
        · rw [hm, joint_one, joint_bind_one, Option.bind_some]
        by_cases hk : k = 1
        · rw [hk, joint_one, joint_bind_one, Option.bind_some]
        by_cases hn : n = 1
        · rw [hn, one_joint, one_joint]
          exact joint_comm (some m) (some k)
        -- three columns that are not single need to be equally long
        rw [joint_of_ne hn hm, joint_of_ne hn hk]
        by_cases hnm : n = m
        · by_cases hnk : n = k
          · simp [← hnm, ← hnk]
          · simp [← hnm, hnk, joint_of_ne hn hk]
        · by_cases hnk : n = k
          · simp [← hnk, hnm, joint_of_ne hn hm]
          · simp [hnm, hnk]

/-! ### Entries -/

omit [Scalar α] in
/-- How many entries a column has; a number that stands alone has no length. -/
def length? : Value α → Option Nat
  | scalar _ => none
  | column xs => some xs.length

/-- The entry at a place; a single one is at every place. -/
def entry (v : Value α) (i : Nat) : α :=
  match v with
  | scalar x => x
  | column xs => xs.getD (if xs.length = 1 then 0 else i) 0.0

omit [Scalar α] in
/-- The value of this length with these entries. -/
def spread (g : Nat → α) : Option Nat → Value α
  | none => scalar (g 0)
  | some n => column ((List.range n).map g)

omit [Scalar α] in
theorem length?_spread (g : Nat → α) (e : Option Nat) : (spread g e).length? = e := by
  cases e <;> simp [spread, length?]

/-- Every column is spread over its length. -/
theorem spread_entry (xs : List α) (h : α → α) :
    spread (fun i => h ((column xs).entry i)) (some xs.length) = column (xs.map h) := by
  refine congrArg column (List.ext_getElem (by simp) fun i hi hi' => ?_)
  have hlt : i < xs.length := by simpa using hi
  have hplace : (if xs.length = 1 then 0 else i) = i := by
    split_ifs with hone
    · omega
    · rfl
  simp [entry, hplace, hlt]

/-- **Values combine entry by entry**, where their lengths fit together. -/
theorem combine_eq_spread (f : α → α → α) (u v : Value α) :
    combine f u v = (joint u.length? v.length?).elim (.error .shapeMismatch)
      fun e => (.ok (spread (fun i => f (u.entry i) (v.entry i)) e) : Except (Fault α) _) := by
  cases u with
  | scalar x =>
    cases v with
    | scalar y => rfl
    | column ys => exact congrArg Except.ok (spread_entry ys (f x)).symm
  | column xs =>
    cases v with
    | scalar y => exact congrArg Except.ok (spread_entry xs (f · y)).symm
    | column ys =>
      show (if xs.length = ys.length then _ else _) = _
      by_cases hlength : xs.length = ys.length
      · have hjoint : joint (column xs).length? (column ys).length? = some (some xs.length) :=
          if_pos hlength
        rw [if_pos hlength, hjoint]
        refine congrArg (Except.ok ∘ column)
          (List.ext_getElem (by simp [hlength]) fun i hi hi' => ?_)
        have hx : i < xs.length := by simpa using hi'
        have hplace : ∀ n, i < n → (if n = 1 then 0 else i) = i := fun n hn => by
          split_ifs with hone
          · omega
          · rfl
        simp [entry, hplace _ hx, hplace _ (hlength ▸ hx), hx, hlength ▸ hx]
      · rw [if_neg hlength]
        split
        · rename_i x
          show _ = (joint (some 1) (some ys.length)).elim _ _
          rw [one_joint]
          exact congrArg Except.ok (spread_entry ys (f x)).symm
        · rename_i y _
          show _ = (joint (some xs.length) (some 1)).elim _ _
          rw [joint_one]
          exact congrArg Except.ok (spread_entry xs (f · y)).symm
        · rename_i hx hy
          have hone : xs.length ≠ 1 ∧ ys.length ≠ 1 :=
            ⟨fun h => (List.length_eq_one_iff.mp h).elim fun x hxs => hx x hxs,
              fun h => (List.length_eq_one_iff.mp h).elim fun y hys => hy y hys⟩
          show _ = (joint (some xs.length) (some ys.length)).elim _ _
          rw [joint_of_ne hone.1 hone.2, if_neg hlength]
          rfl

/-- A number that stands alone, or a single entry, is the same at every place. -/
theorem entry_const {v : Value α} (h : v.length? = none ∨ v.length? = some 1) (i j : Nat) :
    v.entry i = v.entry j := by
  cases v with
  | scalar x => rfl
  | column xs =>
    have hone : xs.length = 1 := by simpa [length?] using h
    simp [entry, hone]

/-- What is short was combined from what is short. -/
theorem short_of_joint {a b e : Option Nat} (h : joint a b = some e)
    (he : e = none ∨ e = some 1) : (a = none ∨ a = some 1) ∧ (b = none ∨ b = some 1) := by
  cases a with
  | none =>
    obtain rfl : b = e := Option.some.inj h
    exact ⟨.inl rfl, he⟩
  | some n =>
    cases b with
    | none => exact ⟨Option.some.inj h ▸ he, .inl rfl⟩
    | some m =>
      by_cases hn : n = 1
      · rw [hn, one_joint] at h
        exact ⟨.inr (congrArg some hn), Option.some.inj h ▸ he⟩
      by_cases hm : m = 1
      · rw [hm, joint_one] at h
        exact ⟨Option.some.inj h ▸ he, .inr (congrArg some hm)⟩
      rw [joint_of_ne hn hm] at h
      split_ifs at h
      obtain rfl := Option.some.inj h
      simp [hn] at he

/-- What is not short keeps its length where it fits. -/
theorem long_joint {n : Nat} (hn : n ≠ 1) {c e : Option Nat} (h : joint (some n) c = some e) :
    e = some n := by
  cases c with
  | none => exact (Option.some.inj h).symm
  | some m =>
    by_cases hm : m = 1
    · rw [hm, joint_one] at h
      exact (Option.some.inj h).symm
    · rw [joint_of_ne hn hm] at h
      split_ifs at h
      exact (Option.some.inj h).symm

/-- What was combined has the combined entries at all places of what it is combined to. -/
theorem entry_spread (f : α → α → α) {u v : Value α} {c e e' : Option Nat}
    (h : joint u.length? v.length? = some e) (h' : joint e c = some e') {i : Nat}
    (hi : ∀ n, e' = some n → i < n) :
    (spread (fun i => f (u.entry i) (v.entry i)) e).entry i = f (u.entry i) (v.entry i) := by
  have hshort : e = none ∨ e = some 1 → f (u.entry 0) (v.entry 0) = f (u.entry i) (v.entry i) := by
    intro he
    obtain ⟨hu, hv⟩ := short_of_joint h he
    rw [entry_const hu 0 i, entry_const hv 0 i]
  cases e with
  | none => exact hshort (.inl rfl)
  | some n =>
    by_cases hn : n = 1
    · subst hn
      exact hshort (.inr rfl)
    · have hlt : i < n := hi n (long_joint hn h')
      simp [entry, spread, hn, hlt]

omit [Scalar α] in
/-- Entries that are the same at all places make the same value. -/
theorem spread_congr {g h : Nat → α} {e : Option Nat}
    (heq : ∀ i, (∀ n, e = some n → i < n) → g i = h i) : spread g e = spread h e := by
  cases e with
  | none => exact congrArg scalar (heq 0 nofun)
  | some n =>
    refine congrArg column (List.map_congr_left fun i hi => heq i fun m hm => ?_)
    exact Option.some.inj hm ▸ List.mem_range.mp hi

/-- **Two values combine with a third one in either order**, if their entries do. -/
theorem combine_right_comm {f : α → α → α} (hf : ∀ x y z, f (f x y) z = f (f x z) y)
    (u v w : Value α) : (combine f u v >>= fun x => combine f x w) =
      (combine f u w >>= fun x => combine f x v : Except (Fault α) (Value α)) := by
  have htwice : ∀ v w : Value α, (combine f u v >>= fun x => combine f x w) =
      ((joint u.length? v.length?).bind (joint · w.length?)).elim (.error .shapeMismatch)
        fun e => (.ok (spread (fun i => f (f (u.entry i) (v.entry i)) (w.entry i)) e) :
          Except (Fault α) _) := by
    intro v w
    rw [combine_eq_spread]
    cases hjoint : joint u.length? v.length? with
    | none => rfl
    | some e =>
      show combine f (spread _ e) w = _
      rw [combine_eq_spread, length?_spread, Option.bind_some]
      cases hagain : joint e w.length? with
      | none => rfl
      | some e' =>
        refine congrArg Except.ok (spread_congr fun i hi => ?_)
        rw [entry_spread f hjoint hagain hi]
  rw [htwice, htwice, joint_right_comm]
  simp only [hf _ (v.entry _) (w.entry _)]

end Value

/-! ### Products of weight functions -/

/-- What a sequence returns, if it does. -/
theorem toOption_bind {ε β γ : Type} (x : Except ε β) (f : β → Except ε γ) :
    (x >>= f).toOption = x.toOption.bind fun b => (f b).toOption := by
  cases x <;> rfl

namespace Decay

section

variable (hα : Scalar.ExactProducts α)

include hα

/-- Two neighbours change places. -/
theorem weightProduct_swap (s : Store α) (point : List (String × Given α)) (v w : Weight α)
    (rest : List (Weight α)) (product : Value α) :
    (weightProduct s point (v :: w :: rest) product).toOption =
      (weightProduct s point (w :: v :: rest) product).toOption := by
  have hfails : ∀ x : Value α, none =
      (Value.combine (fun x y => x * y) product x : Except (Fault α) (Value α)).toOption.bind
        fun _ => (none : Option (Value α)) := fun x => (Option.bind_fun_none _).symm
  simp only [weightProduct, toOption_bind]
  cases v.factor s point with
  | error e =>
    cases w.factor s point with
    | error e' => rfl
    | ok y => exact hfails y
  | ok x =>
    cases w.factor s point with
    | error e => exact (hfails x).symm
    | ok y =>
      set times := Value.combine (α := α) fun x y : α => x * y
      have hboth := congrArg Except.toOption
        (Value.combine_right_comm (f := fun x y : α => x * y) hα.right_comm product x y)
      rw [toOption_bind, toOption_bind] at hboth
      show (times product x).toOption.bind (fun p => (times p y).toOption.bind _) =
        (times product y).toOption.bind fun p => (times p x).toOption.bind _
      rw [← Option.bind_assoc, ← Option.bind_assoc, hboth]

/-- **A product of weight functions is the same in any order**, if it is there. -/
theorem weightProduct_perm {s : Store α} {point : List (String × Given α)}
    {vs ws : List (Weight α)} (h : vs.Perm ws) : ∀ product,
    (weightProduct s point vs product).toOption = (weightProduct s point ws product).toOption := by
  induction h with
  | nil => exact fun _ => rfl
  | cons w _ ih =>
    intro product
    simp only [weightProduct, toOption_bind, ih]
  | swap v w rest => exact weightProduct_swap hα s point w v rest
  | trans _ _ ih ih' => exact fun product => (ih product).trans (ih' product)

/-- **So is the intensity of a decay density.** -/
theorem intensity_perm (s : Store α) (d : Decay α) {ws : List (Weight α)}
    (h : ws.Perm d.weights) (a b c : Given α) :
    (Decay.intensity s { d with weights := ws } a b c).toOption =
      (d.intensity s a b c).toOption := by
  simp only [intensity, weight, toOption_bind, weightProduct_perm hα h]

end

variable {s t : Store α} {d e : Decay α}

/-- The integral is there where the intensity is. -/
theorem integral_toOption (hspace : d.space = e.space)
    (hres : (s.state d.state).resolution = (t.state e.state).resolution)
    (hintensity : ∀ a b c, (d.intensity s a b c).toOption = (e.intensity t a b c).toOption) :
    (d.integral s).toOption = (e.integral t).toOption := by
  simp only [integral, toOption_bind, hintensity, hspace, hres]

/-- So is the value at a point. -/
theorem evaluateAt_toOption (hspace : d.space = e.space)
    (hnorm : (s.state d.state).norm = (t.state e.state).norm)
    (hintensity : ∀ a b c, (d.intensity s a b c).toOption = (e.intensity t a b c).toOption)
    (m12 m13 : Value α) (m23 : Option (Value α)) :
    (d.evaluateAt s m12 m13 m23).toOption = (e.evaluateAt t m12 m13 m23).toOption := by
  have hthird : d.third m12 m13 = e.third m12 m13 := by
    unfold third
    rw [hspace]
  cases m23 <;> simp only [evaluateAt, densityAt, toOption_bind, hintensity, hthird, hnorm]

end Decay

end DensityAlgebra
