/-
# Replay accepts the spellings of trees

A replay looks at nothing but how many operands there are when it decides
whether to go on. What is wrong with a program is therefore a matter of its
nodes alone: the first node that is no node, carries an operation of the other
arity or finds too few operands; or, when every node is fine, a number of
operands other than one at the end (`Program.Defect`). An interpretation that
does not itself fail (`Interpretation.Total`) replays a program without a defect
to an operand and any other program to its defect.

The programs without a defect are the spellings of trees. The interpretation
whose operands are trees (`Interpretation.syntactic`) reads the tree back from
the program, so there is one tree only, and the operand is the fold of it.

Key definitions: `Node.fault?`, `Program.height`, `Program.Defect`,
`Interpretation.Total`, `Interpretation.syntactic`, `Program.Whole`.
Key theorems: `Program.step_cases`, `Program.run_ok`, `Program.run_total`,
`Program.replay_error_iff`, `Tree.induction_on_leaves`, `Program.replay_syntactic`,
`Program.whole_of_replay`, `Program.replay_exact`.
-/
import DensityAlgebra.Composite
import DensityAlgebra.Program.Tree
import DensityAlgebra.Proofs.Traversals
import DensityAlgebra.Scalar.Double
import Mathlib.Logic.ExistsUnique

namespace DensityAlgebra

variable {α β : Type}

/-! ### Defects -/

namespace Node

/-- Whether the node brings an operand of its own. -/
def isLeaf : Node α → Bool
  | .leaf _ => true
  | _ => false

/-- Whether the node takes two operands for one. -/
def isJoin : Node α → Bool
  | .binary _ => true
  | _ => false

/-- What is wrong with a node that finds `n` operands. Whether it is a node and
has an operation of its arity is looked at before the operands are. -/
def fault? (n : Nat) : Node α → Option (Fault α)
  | .leaf _ => none
  | .binary op =>
    if op.isBinary = false then some (.unknownBinary op)
    else if n < 2 then some .binaryUnderflow
    else none
  | .unary op =>
    if op.isBinary = true then some (.unknownUnary op)
    else if n < 1 then some .unaryUnderflow
    else none
  | .foreign x => some (.unknownNode x)

end Node

namespace Program

/-- The operands that a program has left over for what follows: a leaf brings
one, a binary operator takes one away. -/
def height (p : Program α) : Nat := p.countP Node.isLeaf - p.countP Node.isJoin

/-- No node has anything wrong with it. -/
def Steady (p : Program α) : Prop :=
  ∀ (before : Program α) node after, p = before ++ node :: after →
    node.fault? before.height = none

/-- The first thing that is wrong with a program. -/
inductive Defect (p : Program α) : Fault α → Prop
  | node (before : Program α) (node : Node α) (after : Program α) (e : Fault α)
      (split : p = before ++ node :: after) (fine : Steady before)
      (fault : node.fault? before.height = some e) : Defect p e
  | total (fine : Steady p) (count : p.height ≠ 1) : Defect p (.leftover p.height)

theorem steady_nil : Steady ([] : Program α) := by
  intro before node after h
  simp at h

/-- One more node that is fine keeps a program fine. -/
theorem Steady.snoc {p : Program α} {node : Node α} (hp : p.Steady)
    (h : node.fault? p.height = none) : Steady (p ++ [node]) := by
  intro before x after split
  obtain ⟨mid, rfl, rest⟩ | ⟨mid, rfl, rest⟩ := List.append_eq_append_iff.mp split
  · obtain ⟨rfl, rfl, rfl⟩ : mid = [] ∧ node = x ∧ after = [] := by
      cases mid <;> simp_all
    simpa using h
  · cases mid with
    | nil =>
      obtain ⟨rfl, rfl⟩ : x = node ∧ after = [] := by simpa using rest
      simpa using h
    | cons y mid =>
      obtain ⟨rfl, rfl⟩ := List.cons.inj rest
      exact hp before _ mid rfl

/-- A program whose nodes are fine and that leaves one operand has no defect. -/
theorem Steady.not_defect {p : Program α} (hp : p.Steady) (h : p.height = 1) (e : Fault α) :
    ¬ p.Defect e := by
  rintro (⟨before, node, after, _, rfl, -, fault⟩ | ⟨-, count⟩)
  · rw [hp before node after rfl] at fault
    cases fault
  · exact count h

/-- What is wrong at a node is that it is unknown or that operands are missing;
what is wrong at the end is the number of operands. -/
theorem Defect.kind {p : Program α} {e : Fault α} (h : p.Defect e) :
    e.kind = .unknownOperator ∨ e.kind = .stackUnderflow ∨ e.kind = .malformedProgram := by
  cases h with
  | node before node after e split fine fault =>
    cases node <;> simp only [Node.fault?] at fault <;> grind [Fault.kind]
  | total fine count => exact .inr (.inr rfl)

end Program

/-! ### One node -/

/-- Leaves of the program have operands, and operands combine; `P` is what is
known of the operands that arise. -/
structure Interpretation.Total (I : Interpretation α β) (P : β → Prop) (p : Program α) : Prop where
  leaf : ∀ l, Node.leaf l ∈ p → ∃ x, I.leaf l = .ok x ∧ P x
  binary : ∀ op x y, Node.binary op ∈ p → P x → P y → ∃ z, I.binary op x y = .ok z ∧ P z
  unary : ∀ op x, Node.unary op ∈ p → P x → ∃ z, I.unary op x = .ok z ∧ P z

theorem Interpretation.Total.mono {I : Interpretation α β} {P : β → Prop} {p q : Program α}
    (hI : I.Total P p) (h : ∀ node ∈ q, node ∈ p) : I.Total P q :=
  ⟨fun l hl => hI.leaf l (h _ hl), fun op x y ho => hI.binary op x y (h _ ho),
    fun op x ho => hI.unary op x (h _ ho)⟩

namespace Program

/-- **All that a node can do.** A leaf brings its operand, an operator joins the operands on top,
and whatever is wrong with a node it fails for. -/
theorem step_cases (I : Interpretation α β) (node : Node α) (stack : List β) :
    (∃ l, node = .leaf l ∧ step I node stack = do return (← I.leaf l) :: stack) ∨
    (∃ op left right rest, op.isBinary = true ∧ node = .binary op ∧
      stack = right :: left :: rest ∧
      step I node stack = do return (← I.binary op left right) :: rest) ∨
    (∃ op x rest, op.isBinary = false ∧ node = .unary op ∧ stack = x :: rest ∧
      step I node stack = do return (← I.unary op x) :: rest) ∨
    ∃ e, node.fault? stack.length = some e ∧ step I node stack = .error e := by
  cases node with
  | leaf l => exact .inl ⟨l, rfl, rfl⟩
  | binary op =>
    cases hop : op.isBinary with
    | false =>
      refine .inr (.inr (.inr ⟨.unknownBinary op, ?_, ?_⟩))
      · simp [Node.fault?, hop]
      · simp [step, hop]
    | true =>
      rcases stack with _ | ⟨right, _ | ⟨left, rest⟩⟩
      · exact .inr (.inr (.inr ⟨.binaryUnderflow, by simp [Node.fault?, hop], by simp [step, hop]⟩))
      · exact .inr (.inr (.inr ⟨.binaryUnderflow, by simp [Node.fault?, hop], by simp [step, hop]⟩))
      · exact .inr (.inl ⟨op, left, right, rest, hop, rfl, rfl, by simp only [step, hop]; rfl⟩)
  | unary op =>
    cases hop : op.isBinary with
    | true =>
      refine .inr (.inr (.inr ⟨.unknownUnary op, ?_, ?_⟩))
      · simp [Node.fault?, hop]
      · simp [step, hop]
    | false =>
      rcases stack with _ | ⟨x, rest⟩
      · exact .inr (.inr (.inr ⟨.unaryUnderflow, by simp [Node.fault?, hop], by simp [step, hop]⟩))
      · exact .inr (.inr (.inl ⟨op, x, rest, hop, rfl, rfl, by simp only [step, hop]; rfl⟩))
  | foreign x => exact .inr (.inr (.inr ⟨.unknownNode x, rfl, rfl⟩))

/-- A node that gives a stack is fine, and the stack grows by what it brings. -/
theorem step_ok {I : Interpretation α β} {node : Node α} {stack out : List β}
    (h : step I node stack = .ok out) :
    node.fault? stack.length = none ∧
      out.length + [node].countP Node.isJoin = stack.length + [node].countP Node.isLeaf := by
  rcases step_cases I node stack with ⟨l, rfl, hx⟩ | ⟨op, left, right, rest, hop, rfl, rfl, hx⟩ |
    ⟨op, x, rest, hop, rfl, rfl, hx⟩ | ⟨e, -, hx⟩ <;> rw [hx] at h
  · obtain ⟨x, -, hout⟩ := bind_eq_ok_iff.mp h
    obtain rfl : x :: stack = out := Except.ok.inj hout
    simp [Node.fault?, Node.isJoin, Node.isLeaf]
  · obtain ⟨z, -, hout⟩ := bind_eq_ok_iff.mp h
    obtain rfl : z :: rest = out := Except.ok.inj hout
    simp [Node.fault?, Node.isJoin, Node.isLeaf, hop]
  · obtain ⟨z, -, hout⟩ := bind_eq_ok_iff.mp h
    obtain rfl : z :: rest = out := Except.ok.inj hout
    simp [Node.fault?, Node.isJoin, Node.isLeaf, hop]
  · cases h

/-- Against operands that combine, a node that is fine gives such operands
again, and any other fails for what is wrong with it. -/
theorem step_total {I : Interpretation α β} {P : β → Prop} {node : Node α} {stack : List β}
    (hI : I.Total P [node]) (hs : ∀ x ∈ stack, P x) :
    (∃ e, step I node stack = .error e ∧ node.fault? stack.length = some e) ∨
      ∃ out, step I node stack = .ok out ∧ ∀ x ∈ out, P x := by
  rcases step_cases I node stack with ⟨l, rfl, hx⟩ | ⟨op, left, right, rest, hop, rfl, rfl, hx⟩ |
    ⟨op, x, rest, hop, rfl, rfl, hx⟩ | ⟨e, hfault, hx⟩
  · obtain ⟨x, hl, px⟩ := hI.leaf l (List.mem_singleton_self _)
    exact .inr ⟨x :: stack, by rw [hx, hl]; rfl, List.forall_mem_cons.mpr ⟨px, hs⟩⟩
  · simp only [List.forall_mem_cons] at hs
    obtain ⟨z, hz, pz⟩ := hI.binary op left right (List.mem_singleton_self _) hs.2.1 hs.1
    exact .inr ⟨z :: rest, by rw [hx, hz]; rfl, List.forall_mem_cons.mpr ⟨pz, hs.2.2⟩⟩
  · simp only [List.forall_mem_cons] at hs
    obtain ⟨z, hz, pz⟩ := hI.unary op x (List.mem_singleton_self _) hs.1
    exact .inr ⟨z :: rest, by rw [hx, hz]; rfl, List.forall_mem_cons.mpr ⟨pz, hs.2⟩⟩
  · exact .inl ⟨e, hx, hfault⟩

/-- A node that has something wrong with it gives no stack. -/
theorem step_error {I : Interpretation α β} {node : Node α} {stack : List β} {e : Fault α}
    (h : node.fault? stack.length = some e) : step I node stack = .error e := by
  rcases step_cases I node stack with ⟨l, rfl, -⟩ | ⟨op, left, right, rest, hop, rfl, rfl, -⟩ |
    ⟨op, x, rest, hop, rfl, rfl, -⟩ | ⟨e', hfault, hx⟩
  · cases h
  · have hfine : (Node.binary op : Node α).fault? (right :: left :: rest).length = none := by
      simp [Node.fault?, hop]
    cases hfine.symm.trans h
  · simp [Node.fault?, hop] at h
  · rw [hx, Option.some.inj (hfault.symm.trans h)]

/-! ### A run -/

/-- After the program the stack has `n` operands. -/
def Level (p : Program α) (n : Nat) : Prop := n + p.countP Node.isJoin = p.countP Node.isLeaf

theorem level_nil : Level ([] : Program α) 0 := rfl

theorem Level.height {p : Program α} {n : Nat} (h : p.Level n) : p.height = n := by
  simp only [Level] at h
  simp only [Program.height]
  omega

/-- A node that gives a stack keeps the program fine and its level right. -/
theorem Steady.step {I : Interpretation α β} {before : Program α} {node : Node α}
    {stack out : List β} (hb : before.Steady) (hn : before.Level stack.length)
    (h : step I node stack = .ok out) :
    Steady (before ++ [node]) ∧ Level (before ++ [node]) out.length := by
  obtain ⟨fine, grown⟩ := step_ok h
  refine ⟨hb.snoc (by rwa [hn.height]), ?_⟩
  simp only [Level, List.countP_append] at hn ⊢
  omega

/-- A program that runs through after one that is fine is fine. -/
theorem run_ok {I : Interpretation α β} {p before : Program α} {stack out : List β}
    (hb : before.Steady) (hn : before.Level stack.length) (h : run I p stack = .ok out) :
    Steady (before ++ p) ∧ Level (before ++ p) out.length := by
  induction p generalizing before stack with
  | nil =>
    obtain rfl : stack = out := Except.ok.inj h
    simpa using And.intro hb hn
  | cons node rest ih =>
    obtain ⟨mid, hx, hrest⟩ := bind_eq_ok_iff.mp h
    obtain ⟨hb', hn'⟩ := hb.step hn hx
    simpa using ih hb' hn' hrest

/-- Where the operands combine, a run gives such operands or stops at a node
that has something wrong with it. -/
theorem run_total {I : Interpretation α β} {P : β → Prop} {p before : Program α} {stack : List β}
    (hI : I.Total P p) (hs : ∀ x ∈ stack, P x) (hb : before.Steady)
    (hn : before.Level stack.length) :
    (∃ out, run I p stack = .ok out ∧ ∀ x ∈ out, P x) ∨
      ∃ mid node after e, p = mid ++ node :: after ∧ Steady (before ++ mid) ∧
        node.fault? (height (before ++ mid)) = some e ∧ run I p stack = .error e := by
  induction p generalizing before stack with
  | nil => exact .inl ⟨stack, rfl, hs⟩
  | cons node rest ih =>
    obtain ⟨e, hx, fault⟩ | ⟨out, hx, hout⟩ :=
      step_total (hI.mono fun x hx => List.mem_singleton.mp hx ▸ List.mem_cons_self) hs
    · refine .inr ⟨[], node, rest, e, rfl, by simpa using hb, ?_, ?_⟩
      · rwa [List.append_nil, hn.height]
      · rw [run, hx, error_bind]
    · obtain ⟨hb', hn'⟩ := hb.step hn hx
      rw [run, hx, ok_bind]
      obtain done | ⟨mid, x, after, e, rfl, fine, fault, failed⟩ :=
        ih (hI.mono fun _ h => List.mem_cons_of_mem _ h) hout hb' hn'
      · exact .inl done
      · exact .inr ⟨node :: mid, x, after, e, rfl, by simpa using fine, by simpa using fault,
          failed⟩

/-- A program that is fine runs through. -/
theorem Steady.run {I : Interpretation α β} {P : β → Prop} {p : Program α} (hI : I.Total P p)
    (hp : p.Steady) :
    ∃ out : List β, run I p [] = .ok out ∧ out.length = p.height ∧ ∀ x ∈ out, P x := by
  obtain ⟨out, hr, hout⟩ | ⟨mid, node, after, e, split, -, fault, -⟩ :=
    run_total hI (List.forall_mem_nil _) steady_nil level_nil
  · obtain ⟨-, level⟩ := run_ok steady_nil level_nil hr
    exact ⟨out, hr, level.height.symm, hout⟩
  · rw [List.nil_append, hp mid node after split] at fault
    cases fault

/-! ### A replay -/

/-- The operand of a replay is all that the run left. -/
theorem replay_ok_iff {I : Interpretation α β} {p : Program α} {x : β} :
    p.replay I = .ok x ↔ run I p [] = .ok [x] := by
  rw [replay, bind_eq_ok_iff]
  constructor
  · rintro ⟨stack, hr, hx⟩
    rcases stack with _ | ⟨y, _ | ⟨z, rest⟩⟩
    · cases hx
    · rw [hr, Except.ok.inj hx]
    · cases hx
  · intro hr
    exact ⟨[x], hr, rfl⟩

/-- A replay fails where the run does, or because the run did not leave one
operand. -/
theorem replay_error_iff_run {I : Interpretation α β} {p : Program α} {e : Fault α} :
    p.replay I = .error e ↔ run I p [] = .error e ∨
      ∃ stack, run I p [] = .ok stack ∧ stack.length ≠ 1 ∧ e = .leftover stack.length := by
  rw [replay, bind_eq_error_iff]
  refine or_congr_right (exists_congr fun stack => and_congr_right fun _ => ?_)
  rcases stack with _ | ⟨y, _ | ⟨z, rest⟩⟩
  · simp [throw, throwThe, MonadExceptOf.throw, eq_comm]
  · simp [pure, Except.pure]
  · simp [throw, throwThe, MonadExceptOf.throw, eq_comm]

/-- Whatever replays to an operand has no defect. -/
theorem not_defect_of_replay {I : Interpretation α β} {p : Program α} {x : β}
    (h : p.replay I = .ok x) (e : Fault α) : ¬ p.Defect e := by
  obtain ⟨fine, level⟩ := run_ok steady_nil level_nil (replay_ok_iff.mp h)
  exact Steady.not_defect fine level.height e

/-- Where the operands combine, a replay fails with the defect of the program. -/
theorem replay_error_iff {I : Interpretation α β} {P : β → Prop} {p : Program α}
    (hI : I.Total P p) (e : Fault α) : p.replay I = .error e ↔ p.Defect e := by
  rw [replay_error_iff_run]
  constructor
  · rintro (hr | ⟨out, hr, count, rfl⟩)
    · obtain ⟨out, ok, -⟩ | ⟨mid, node, after, e', rfl, fine, fault, failed⟩ :=
        run_total hI (List.forall_mem_nil _) steady_nil level_nil
      · cases ok.symm.trans hr
      · obtain rfl : e' = e := Except.error.inj (failed.symm.trans hr)
        exact .node mid node after e' rfl fine fault
    · obtain ⟨fine, level⟩ := run_ok steady_nil level_nil hr
      have height : p.height = out.length := level.height
      exact height ▸ .total fine (height ▸ count)
  · rintro (⟨before, node, after, _, rfl, fine, fault⟩ | ⟨fine, count⟩)
    · obtain ⟨out, hr, length, -⟩ := fine.run (hI.mono fun _ h => List.mem_append_left _ h)
      have hx : step I node out = .error e := step_error (length ▸ fault)
      refine .inl ?_
      rw [run_append, hr, ok_bind, run, hx, error_bind]
    · obtain ⟨out, hr, length, -⟩ := fine.run hI
      exact .inr ⟨out, hr, length ▸ count, length ▸ rfl⟩

end Program

/-! ### Reading the tree back -/

/-- Trees as operands. -/
def Interpretation.syntactic : Interpretation α (Tree α) where
  leaf l := .ok (.leaf l)
  binary op l r := .ok (.binary op l r)
  unary op t := .ok (.unary op t)

theorem Interpretation.syntactic_total (p : Program α) :
    (Interpretation.syntactic (α := α)).Total (fun _ => True) p :=
  ⟨fun _ _ => ⟨_, rfl, trivial⟩, fun _ _ _ _ _ _ => ⟨_, rfl, trivial⟩,
    fun _ _ _ _ => ⟨_, rfl, trivial⟩⟩

namespace Tree

/-- Induction along a tree whose leaves all have a property. -/
theorem induction_on_leaves {P : Leaf α → Prop} {motive : Tree α → Prop}
    (leaf : ∀ l, P l → motive (.leaf l))
    (binary : ∀ op l r, motive l → motive r → motive (.binary op l r))
    (unary : ∀ op t, motive t → motive (.unary op t)) {t : Tree α}
    (h : ∀ l, .leaf l ∈ t.spell → P l) : motive t := by
  induction t with
  | leaf l => exact leaf l (h l List.mem_cons_self)
  | binary op l r ihl ihr =>
    exact binary op l r
      (ihl fun x hx => h x (List.mem_append_left _ (List.mem_append_left _ hx)))
      (ihr fun x hx => h x (List.mem_append_left _ (List.mem_append_right _ hx)))
  | unary op t ih => exact unary op t (ih fun x hx => h x (List.mem_append_left _ hx))

theorem fold_syntactic (t : Tree α) : t.fold .syntactic = .ok t := by
  induction t with
  | leaf l => rfl
  | binary op l r ihl ihr => simp only [fold, ihl, ihr, ok_bind]; rfl
  | unary op t ih => simp only [fold, ih, ok_bind]; rfl

end Tree

namespace Program

/-- The program that spells the trees of a stack, the tree pushed last at the end. -/
def word (stack : List (Tree α)) : Program α := stack.reverse.flatMap Tree.spell

@[simp] theorem word_nil : word ([] : List (Tree α)) = [] := rfl

@[simp] theorem word_cons (t : Tree α) (rest : List (Tree α)) :
    word (t :: rest) = word rest ++ t.spell := by
  simp [word]

/-- A node is written down with the trees of the stack. -/
theorem step_syntactic {node : Node α} {stack out : List (Tree α)}
    (hs : ∀ t ∈ stack, t.WellTyped) (h : step .syntactic node stack = .ok out) :
    (∀ t ∈ out, t.WellTyped) ∧ word out = word stack ++ [node] := by
  rcases step_cases .syntactic node stack with
    ⟨l, rfl, hx⟩ | ⟨op, left, right, rest, hop, rfl, rfl, hx⟩ |
    ⟨op, x, rest, hop, rfl, rfl, hx⟩ | ⟨e, -, hx⟩ <;> rw [hx] at h
  · obtain rfl : .leaf l :: stack = out := Except.ok.inj h
    exact ⟨List.forall_mem_cons.mpr ⟨trivial, hs⟩, by simp [Tree.spell]⟩
  · obtain rfl : .binary op left right :: rest = out := Except.ok.inj h
    simp only [List.forall_mem_cons] at hs ⊢
    exact ⟨⟨⟨hop, hs.2.1, hs.1⟩, hs.2.2⟩, by simp [Tree.spell]⟩
  · obtain rfl : .unary op x :: rest = out := Except.ok.inj h
    simp only [List.forall_mem_cons] at hs ⊢
    exact ⟨⟨⟨hop, hs.1⟩, hs.2⟩, by simp [Tree.spell]⟩
  · cases h

/-- A run writes its program down with the trees of the stack. -/
theorem run_syntactic {p : Program α} {stack out : List (Tree α)}
    (hs : ∀ t ∈ stack, t.WellTyped) (h : run .syntactic p stack = .ok out) :
    (∀ t ∈ out, t.WellTyped) ∧ word out = word stack ++ p := by
  induction p generalizing stack with
  | nil =>
    obtain rfl : stack = out := Except.ok.inj h
    exact ⟨hs, by simp⟩
  | cons node rest ih =>
    obtain ⟨mid, hx, hrest⟩ := bind_eq_ok_iff.mp h
    obtain ⟨hmid, written⟩ := step_syntactic hs hx
    obtain ⟨hout, spelled⟩ := ih hmid hrest
    exact ⟨hout, by rw [spelled, written, List.append_assoc]; rfl⟩

/-- The tree that a program replays to is the one that it spells. -/
theorem replay_syntactic {p : Program α} {t : Tree α} :
    p.replay .syntactic = .ok t ↔ t.WellTyped ∧ t.spell = p := by
  constructor
  · intro h
    obtain ⟨typed, written⟩ := run_syntactic (List.forall_mem_nil _) (replay_ok_iff.mp h)
    exact ⟨typed t (List.mem_singleton_self t), by simpa using written⟩
  · rintro ⟨typed, rfl⟩
    rw [Tree.replay_spell _ _ typed, Tree.fold_syntactic]

/-- The program spells a tree. -/
def Whole (p : Program α) : Prop := ∃ t : Tree α, t.WellTyped ∧ t.spell = p

/-- Whatever replays to an operand spells a tree. -/
theorem whole_of_replay {I : Interpretation α β} {p : Program α} {x : β}
    (h : p.replay I = .ok x) : p.Whole := by
  cases ht : p.replay .syntactic with
  | ok t => exact ⟨t, replay_syntactic.mp ht⟩
  | error e =>
    exact absurd ((replay_error_iff (Interpretation.syntactic_total p) e).mp ht)
      (not_defect_of_replay h e)

/-- The spellings are the programs without a defect. -/
theorem whole_iff (p : Program α) : p.Whole ↔ ∀ e, ¬ p.Defect e := by
  constructor
  · rintro ⟨t, typed, spelled⟩
    exact not_defect_of_replay (replay_syntactic.mpr ⟨typed, spelled⟩)
  · intro h
    cases ht : p.replay .syntactic with
    | ok t => exact whole_of_replay ht
    | error e => exact absurd ((replay_error_iff (Interpretation.syntactic_total p) e).mp ht) (h e)

end Program

/-! ### Numbers, texts and names as operands -/

/-- One number, or a column of `n`. -/
def Value.Extent {γ : Type} (n : Nat) : Value γ → Prop
  | .scalar _ => True
  | .column xs => xs.length = n

namespace Value

theorem extent_map {γ δ : Type} {n : Nat} {v : Value γ} (f : γ → δ) (h : v.Extent n) :
    (v.map f).Extent n := by
  cases v with
  | scalar x => trivial
  | column xs => simpa [map, Extent] using h

/-- Values of one extent combine to a value of that extent. -/
theorem combine_extent {γ δ ε : Type} {n : Nat} (f : γ → δ → ε) {v : Value γ} {w : Value δ}
    (hv : v.Extent n) (hw : w.Extent n) : ∃ z, combine (α := α) f v w = .ok z ∧ z.Extent n := by
  cases v with
  | scalar x =>
    cases w with
    | scalar y => exact ⟨_, rfl, trivial⟩
    | column ys => exact ⟨_, rfl, by simpa [Extent] using hw⟩
  | column xs =>
    cases w with
    | scalar y => exact ⟨_, rfl, by simpa [Extent] using hv⟩
    | column ys =>
      simp only [Extent] at hv hw
      exact ⟨.column (List.zipWith f xs ys), if_pos (hv.trans hw.symm), by simp [Extent, hv, hw]⟩

theorem power_extent [Scalar α] {n : Nat} {v w : Value α} (hv : v.Extent n) (hw : w.Extent n) :
    ∃ z, power v w = .ok z ∧ z.Extent n := by
  rcases w with y | ys
  · exact ⟨_, rfl, extent_map _ hv⟩
  rcases v with x | xs
  · rcases ys with _ | ⟨y, _ | ⟨z, ys⟩⟩ <;> exact combine_extent _ hv hw
  · rcases ys with _ | ⟨y, _ | ⟨z, ys⟩⟩
    · exact combine_extent _ hv hw
    · refine ⟨_, rfl, ?_⟩
      simp only [Extent] at hv ⊢
      split <;> simpa using hv
    · exact combine_extent _ hv hw

end Value

namespace Program

/-- Numbers and columns of one length combine. -/
theorem numeric_total [Scalar α] {leaf : Leaf α → Except (Fault α) (Value α)} {p : Program α}
    {n : Nat} (h : ∀ l, .leaf l ∈ p → ∃ v, leaf l = .ok v ∧ v.Extent n) :
    (numeric leaf).Total (Value.Extent n) p where
  leaf := h
  binary op x y _ hx hy := by
    simp only [numeric]
    split
    · exact Value.power_extent hx hy
    · exact Value.combine_extent _ hx hy
  unary op x _ hx := ⟨_, rfl, Value.extent_map _ hx⟩

theorem textual_total (leaf : Leaf α → String) (p : Program α) :
    (textual leaf).Total (fun _ => True) p where
  leaf _ _ := ⟨_, rfl, trivial⟩
  binary _ _ _ _ _ _ := ⟨_, rfl, trivial⟩
  unary _ _ _ _ := ⟨_, rfl, trivial⟩

end Program

/-- Names combine where the program's models are there. -/
theorem Composite.nameSets_total [Scalar α] {q : Composite α} {s : Store α} {p : Program α}
    (h : ∀ i, .leaf (.model i) ∈ p → ∃ m, (itemAt q.models i : Except (Fault α) _) = .ok m) :
    (q.nameSets s).Total (fun _ => True) p where
  leaf l hl := by
    cases l with
    | model i =>
      obtain ⟨m, hm⟩ := h i hl
      exact ⟨m.varNames s, by simp only [nameSets, hm]; rfl, trivial⟩
    | parameter name => exact ⟨[], rfl, trivial⟩
    | constant x => exact ⟨[], rfl, trivial⟩
  binary _ _ _ _ _ _ := ⟨_, rfl, trivial⟩
  unary _ _ _ _ := ⟨_, rfl, trivial⟩

theorem Composite.commonVars_error_iff [Scalar α] {q : Composite α} {s : Store α} {e : Fault α} :
    q.commonVars s = .error e ↔ q.program.replay (q.nameSets s) = .error e := by
  rw [commonVars, bind_eq_error_iff]
  simp [pure, Except.pure]

/-! ### The grammar of programs -/

namespace Program

/-- **Replay accepts exactly the spellings of trees.** An interpretation that does not
itself fail replays a program to an operand if and only if the program spells a tree; the
tree is then the only one, and the operand is its fold. It replays any other program to
the program's first defect, which no interpretation has a part in: evaluation, rendering
and the collection of variables fail on the same programs with the same fault. -/
theorem replay_exact [Scalar α] (p : Program α) :
    (∀ (β : Type) (I : Interpretation α β) (P : β → Prop), I.Total P p →
      (∀ x, p.replay I = .ok x ↔ ∃ t : Tree α, t.WellTyped ∧ t.spell = p ∧ t.fold I = .ok x) ∧
      ((∃ x, p.replay I = .ok x) ↔ ∃! t : Tree α, t.WellTyped ∧ t.spell = p) ∧
      ∀ e, p.replay I = .error e ↔ p.Defect e) ∧
    (∀ (leaf : Leaf α → Except (Fault α) (Value α)) (n : Nat),
      (∀ l, .leaf l ∈ p → ∃ v, leaf l = .ok v ∧ v.Extent n) →
      ∀ e, p.evaluate leaf = .error e ↔ p.Defect e) ∧
    (∀ (leaf : Leaf α → String) (e : Fault α), p.render leaf = .error e ↔ p.Defect e) ∧
    ∀ (q : Composite α) (s : Store α), q.program = p →
      (∀ i, .leaf (.model i) ∈ p → ∃ m, (Composite.itemAt q.models i : Except (Fault α) _) = .ok m) →
      ∀ e, q.commonVars s = .error e ↔ p.Defect e := by
  have unique : ∀ t u : Tree α, t.WellTyped ∧ t.spell = p → u.WellTyped ∧ u.spell = p → u = t :=
    fun t u ht hu => Except.ok.inj <|
      (replay_syntactic.mpr hu).symm.trans (replay_syntactic.mpr ht)
  refine ⟨fun β I P hI => ⟨fun x => ⟨fun h => ?_, ?_⟩, ⟨?_, ?_⟩, replay_error_iff hI⟩,
    fun leaf n h => replay_error_iff (numeric_total h),
    fun leaf => replay_error_iff (textual_total leaf p), ?_⟩
  · obtain ⟨t, typed, spelled⟩ := whole_of_replay h
    exact ⟨t, typed, spelled, by rw [← h, ← spelled, Tree.replay_spell _ _ typed]⟩
  · rintro ⟨t, typed, rfl, h⟩
    rw [Tree.replay_spell _ _ typed, h]
  · rintro ⟨x, h⟩
    obtain ⟨t, ht⟩ := whole_of_replay h
    exact ⟨t, ht, fun u hu => unique t u ht hu⟩
  · rintro ⟨t, ht, -⟩
    cases hx : p.replay I with
    | ok x => exact ⟨x, rfl⟩
    | error e => exact absurd ((replay_error_iff hI e).mp hx) ((whole_iff p).mp ⟨t, ht⟩ e)
  · rintro q s rfl h e
    rw [Composite.commonVars_error_iff]
    exact replay_error_iff (Composite.nameSets_total h) e

/-- The first of two defects is the one reported. -/
theorem replay_exact_underflow :
    let p : Program Float := [.leaf (.constant 2.0), .binary .plus, .unary .plus]
    (∀ l, .leaf l ∈ p →
      ∃ v : Value Float, (.ok (.scalar 1.0) : Except (Fault Float) _) = .ok v ∧ v.Extent 0) ∧
    p.evaluate (fun _ => .ok (.scalar 1.0)) = .error .binaryUnderflow ∧
    p.render (fun _ => "x") = .error .binaryUnderflow := by
  intro p
  have total : ∀ l, .leaf l ∈ p →
      ∃ v : Value Float, (.ok (.scalar 1.0) : Except (Fault Float) _) = .ok v ∧ v.Extent 0 :=
    fun _ _ => ⟨.scalar 1.0, rfl, trivial⟩
  have defect : p.Defect .binaryUnderflow := by
    refine .node [.leaf (.constant 2.0)] (.binary .plus) [.unary .plus] _ rfl ?_ rfl
    exact steady_nil.snoc rfl
  have exact := replay_exact p
  exact ⟨total, (exact.2.1 _ 0 total _).mpr defect, (exact.2.2.1 _ _).mpr defect⟩

end Program

end DensityAlgebra
