/-
# Expression trees

The trees that post-order programs spell. A tree is interpreted by folding it;
its spelling, replayed, gives the same operand.

Key definitions: `Tree`, `Tree.spell`, `Tree.fold`, `Tree.WellTyped`.
Key theorems: `Tree.run_spell`, `Tree.replay_spell`.
-/
import DensityAlgebra.Program

namespace DensityAlgebra

/-- An expression tree. -/
inductive Tree (α : Type) where
  | leaf (l : Leaf α)
  | binary (op : Operation) (left right : Tree α)
  | unary (op : Operation) (operand : Tree α)

namespace Tree

variable {α β : Type}

/-- Every operator stands where one of its arity belongs. -/
def WellTyped : Tree α → Prop
  | leaf _ => True
  | binary op l r => op.isBinary = true ∧ l.WellTyped ∧ r.WellTyped
  | unary op t => op.isBinary = false ∧ t.WellTyped

/-- The post-order program of a tree. -/
def spell : Tree α → Program α
  | leaf l => [.leaf l]
  | binary op l r => l.spell ++ r.spell ++ [.binary op]
  | unary op t => t.spell ++ [.unary op]

/-- The operand that a tree stands for; the left subtree comes first. -/
def fold (I : Interpretation α β) : Tree α → Except (Fault α) β
  | leaf l => I.leaf l
  | binary op l r => do
    let x ← l.fold I
    let y ← r.fold I
    I.binary op x y
  | unary op t => do I.unary op (← t.fold I)

end Tree

/-- A program in two parts runs as the second part on what the first one left. -/
theorem Program.run_append {α β : Type} (I : Interpretation α β) (p q : Program α)
    (stack : List β) :
    Program.run I (p ++ q) stack = (Program.run I p stack >>= Program.run I q) := by
  induction p generalizing stack with
  | nil => rfl
  | cons node rest ih =>
    simp only [List.cons_append, Program.run]
    cases Program.step I node stack with
    | error e => rfl
    | ok s => exact ih s

namespace Tree

variable {α β : Type}

/-- A spelling pushes the operand of its tree. -/
theorem run_spell (I : Interpretation α β) (t : Tree α) (h : t.WellTyped) (stack : List β) :
    Program.run I t.spell stack = (t.fold I).map (· :: stack) := by
  induction t generalizing stack with
  | leaf l =>
    simp only [spell, Program.run, Program.step, fold]
    cases I.leaf l <;> rfl
  | binary op l r ihl ihr =>
    obtain ⟨hop, hl, hr⟩ := h
    simp only [spell, Program.run_append, ihl hl, fold]
    cases hx : l.fold I with
    | error e => rfl
    | ok x =>
      show (Program.run I r.spell (x :: stack) >>= _) = _
      rw [ihr hr]
      cases hy : r.fold I with
      | error e => rfl
      | ok y =>
        show Program.run I [.binary op] (y :: x :: stack) = _
        simp only [Program.run, Program.step, hop, Bool.not_true, Bool.false_eq_true, if_false]
        show _ = (I.binary op x y).map (· :: stack)
        cases I.binary op x y <;> rfl
  | unary op t ih =>
    obtain ⟨hop, ht⟩ := h
    simp only [spell, Program.run_append, ih ht, fold]
    cases hx : t.fold I with
    | error e => rfl
    | ok x =>
      show Program.run I [.unary op] (x :: stack) = _
      simp only [Program.run, Program.step, hop, Bool.false_eq_true, if_false]
      show _ = (I.unary op x).map (· :: stack)
      cases I.unary op x <;> rfl

/-- A spelling replays to the fold of its tree. -/
theorem replay_spell (I : Interpretation α β) (t : Tree α) (h : t.WellTyped) :
    Program.replay I t.spell = t.fold I := by
  simp only [Program.replay, run_spell I t h]
  cases t.fold I <;> rfl

end Tree

end DensityAlgebra
