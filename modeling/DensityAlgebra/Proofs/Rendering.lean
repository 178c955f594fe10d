/-
# What rendered programs say

A rendered program has its binary operators in parentheses and its functions in front of
parentheses; only a minus in front has neither. A reader that goes through the words of the
text comes back to the tree that the program spells, up to the minus signs: where an operator
binds more tightly than they do, the signs in front of its left operand are read in front of
the whole operation (`Tree.regroup`).

In a binding where a minus comes before everything else nothing is regrouped, so the text of
a program over names determines the program. In the usual binding only powers bind more
tightly, so a text says what its program says unless a power has a negated base.

Key definitions: `Tree.text`, `Tree.words`, `Tree.split`, `Tree.regroup`, `Tree.negatesBase`,
`Program.Named`.
Key theorems: `Infix.words_text`, `Infix.run_words`, `Infix.read_text`,
`Tree.regroup_eq_self_iff`, `Program.render_reads`, `Program.render_eq_iff`, `Term.text_says`.
-/
import DensityAlgebra.Program.Infix
import DensityAlgebra.Proofs.Compiling

namespace DensityAlgebra

variable {α : Type}

/-! ### Texts of trees -/

namespace Tree

/-- The infix text of a tree, given those of its leaves. -/
def text (leaf : Leaf α → String) : Tree α → String
  | .leaf l => leaf l
  | .binary op l r => "(" ++ l.text leaf ++ " " ++ op.symbol ++ " " ++ r.text leaf ++ ")"
  | .unary op t => if op = .neg then "-" ++ t.text leaf else op.symbol ++ "(" ++ t.text leaf ++ ")"

theorem fold_textual (leaf : Leaf α → String) (t : Tree α) :
    t.fold (Program.textual leaf) = .ok (t.text leaf) := by
  induction t with
  | leaf l => rfl
  | binary op l r ihl ihr =>
    simp only [fold, ihl, ihr, ok_bind]
    rfl
  | unary op t ih =>
    simp only [fold, ih, ok_bind]
    rfl

/-- The leaves are parameters whose names are identifiers. -/
def Named : Tree α → Prop
  | .leaf (.parameter n) => Signature.isIdentifier n = true
  | .leaf _ => False
  | .binary _ l r => l.Named ∧ r.Named
  | .unary _ t => t.Named

/-- The words of the text. -/
def words : Tree α → List Infix.Word
  | .leaf (.parameter n) => [.name n]
  | .leaf _ => []
  | .binary op l r => .opening :: (l.words ++ .mark op :: (r.words ++ [.closing]))
  | .unary op t =>
    if op = .neg then .mark .minus :: t.words
    else .name op.symbol :: .opening :: (t.words ++ [.closing])

end Tree

namespace Infix

/-! ### From text to words -/

/-- A name ends before this. -/
def Stops (cs : List Char) : Prop := ∀ c ∈ cs.head?, isNameChar c = false

theorem stops_nil : Stops [] := by simp [Stops]

theorem stops_cons {c : Char} {cs : List Char} (h : isNameChar c = false) : Stops (c :: cs) := by
  simpa [Stops] using h

theorem takeWhile_stops {cs rest : List Char} (h : cs.all isNameChar = true) (hrest : Stops rest) :
    (cs ++ rest).takeWhile isNameChar = cs := by
  rw [List.takeWhile_append_of_pos (List.all_eq_true.mp h)]
  cases rest with
  | nil => simp
  | cons d rest => simp [hrest d (by simp)]

theorem dropWhile_stops {cs rest : List Char} (h : cs.all isNameChar = true) (hrest : Stops rest) :
    (cs ++ rest).dropWhile isNameChar = rest := by
  rw [List.dropWhile_append_of_pos (List.all_eq_true.mp h)]
  cases rest with
  | nil => rfl
  | cons d rest => simp [hrest d (by simp)]

/-- An identifier is one word. -/
theorem words_name {n : String} (hn : Signature.isIdentifier n = true) {rest : List Char}
    (hrest : Stops rest) : words (n.toList ++ rest) = (words rest).map (.name n :: ·) := by
  unfold Signature.isIdentifier at hn
  cases hcs : n.toList with
  | nil => simp [hcs] at hn
  | cons c cs =>
    simp only [hcs, Bool.and_eq_true, Bool.not_eq_true'] at hn
    obtain ⟨⟨hc, hdigit⟩, hall⟩ := hn
    have hc : isNameChar c = true := hc
    have hblank : c ≠ ' ' := by
      rintro rfl
      exact absurd hc (by decide)
    rw [List.cons_append, words, if_neg hblank, if_pos hc, hdigit, if_neg (by simp),
      takeWhile_stops hall hrest, dropWhile_stops hall hrest, ← hcs, String.ofList_toList]

/-- A sign that is no part of a power is one word. -/
theorem words_sign {c : Char} {w : Word} (hw : sign? c = some w) {cs : List Char}
    (hc : c = '*' → cs.head? ≠ some '*') : words (c :: cs) = (words cs).map (w :: ·) := by
  have hblank : c ≠ ' ' := by
    rintro rfl
    cases hw
  have hname : isNameChar c = false := by
    unfold sign? at hw
    split at hw
    case h_7 => cases hw
    all_goals decide
  rw [words, if_neg hblank, hname, if_neg (by simp), if_neg fun h => hc h.1 h.2, hw]
  rfl

/-- The sign of a binary operation between blanks is one word. -/
theorem words_operator {op : Operation} (h : op.isBinary = true) (cs : List Char) :
    words (' ' :: (op.symbol.toList ++ ' ' :: cs)) = (words cs).map (.mark op :: ·) := by
  have hblank : ∀ ds : List Char, words (' ' :: ds) = words ds := fun ds => by simp [words]
  cases op with
  | pow =>
    rw [hblank]
    show words ('*' :: '*' :: ' ' :: cs) = _
    rw [words, if_neg (by decide), if_neg (by decide), if_pos ⟨rfl, rfl⟩]
    exact congrArg _ (hblank cs)
  | plus | minus | mult | div =>
    rw [hblank]
    refine (words_sign rfl (by simp)).trans ?_
    exact congrArg _ (hblank cs)
  | _ => cases h

theorem isIdentifier_symbol {op : Operation} (h : op.isBinary = false) :
    Signature.isIdentifier op.symbol = true := by
  cases op with
  | neg | exp | log | sin | cos | tan => decide
  | _ => cases h

/-- **The words of a text** are those of its tree. -/
theorem words_text (leaf : Leaf α → String) (hleaf : ∀ n, leaf (.parameter n) = n) {t : Tree α}
    (h : t.WellTyped) (hn : t.Named) (rest : List Char) (hrest : Stops rest) :
    words ((t.text leaf).toList ++ rest) = (words rest).map (t.words ++ ·) := by
  induction t generalizing rest with
  | leaf l =>
    cases l with
    | parameter n =>
      show words ((leaf (.parameter n)).toList ++ rest) = _
      rw [hleaf, words_name hn hrest]
      rfl
    | _ => cases hn
  | binary op l r ihl ihr =>
    obtain ⟨hop, hl, hr⟩ := h
    have hclosing : words (')' :: rest) = (words rest).map (.closing :: ·) :=
      words_sign rfl (by simp)
    have hright := ihr hr hn.2 (')' :: rest) (stops_cons (by decide))
    have hmark := words_operator hop ((r.text leaf).toList ++ ')' :: rest)
    have hleft := ihl hl hn.1 (' ' :: (op.symbol.toList ++ ' ' ::
      ((r.text leaf).toList ++ ')' :: rest))) (stops_cons (by decide))
    have hchars : ((Tree.binary op l r).text leaf).toList ++ rest =
        '(' :: ((l.text leaf).toList ++ ' ' :: (op.symbol.toList ++ ' ' ::
          ((r.text leaf).toList ++ ')' :: rest))) := by
      simp [Tree.text]
    rw [hchars, words_sign rfl (by simp), hleft, hmark, hright, hclosing]
    simp [Tree.words, Function.comp_def]
  | unary op t ih =>
    obtain ⟨hop, ht⟩ := h
    by_cases hneg : op = .neg
    · have hchars : ((Tree.unary op t).text leaf).toList ++ rest =
          '-' :: ((t.text leaf).toList ++ rest) := by
        simp [Tree.text, hneg]
      rw [hchars, words_sign rfl (by simp), ih ht hn rest hrest]
      simp [Tree.words, hneg, Function.comp_def]
    · have hclosing : words (')' :: rest) = (words rest).map (.closing :: ·) :=
        words_sign rfl (by simp)
      have hoperand := ih ht hn (')' :: rest) (stops_cons (by decide))
      have hchars : ((Tree.unary op t).text leaf).toList ++ rest =
          op.symbol.toList ++ '(' :: ((t.text leaf).toList ++ ')' :: rest) := by
        simp [Tree.text, hneg]
      rw [hchars, words_name (isIdentifier_symbol hop) (stops_cons (by decide)),
        words_sign rfl (by simp), hoperand, hclosing]
      simp [Tree.words, hneg, Function.comp_def]

end Infix

/-! ### From words to trees -/

namespace Tree

/-- So many minus signs in front of a tree. -/
def negated (n : Nat) (t : Tree α) : Tree α := (Tree.unary .neg)^[n] t

/-- The minus signs that stand in front of the text of a tree, and the tree that is read
behind them. Those in front of a left operand stay there if its operator completes them;
otherwise the operation is read behind them. -/
def split (b : Infix.Binding) : Tree α → Nat × Tree α
  | .leaf l => (0, .leaf l)
  | .binary op l r =>
    let (n, x) := l.split b
    let (m, y) := r.split b
    if b.completes op .neg then (0, .binary op (x.negated n) (y.negated m))
    else (0, (Tree.binary op x (y.negated m)).negated n)
  | .unary op t =>
    let (n, x) := t.split b
    if op = .neg then (n + 1, x) else (0, .unary op (x.negated n))

/-- The tree that is read from the text of a tree. -/
def regroup (b : Infix.Binding) (t : Tree α) : Tree α := (t.split b).2.negated (t.split b).1

theorem negated_zero (t : Tree α) : t.negated 0 = t := rfl

theorem negated_succ (n : Nat) (t : Tree α) : t.negated (n + 1) = .unary .neg (t.negated n) :=
  Function.iterate_succ_apply' ..

section Regroup

variable {b : Infix.Binding}

theorem regroup_neg (t : Tree α) : (Tree.unary .neg t).regroup b = .unary .neg (t.regroup b) :=
  negated_succ ..

theorem regroup_function {op : Operation} (h : op ≠ .neg) (t : Tree α) :
    (Tree.unary op t).regroup b = .unary op (t.regroup b) := by
  simp [regroup, split, h, negated]

theorem regroup_completes {op : Operation} (h : b.completes op .neg = true) (l r : Tree α) :
    (Tree.binary op l r).regroup b = .binary op (l.regroup b) (r.regroup b) := by
  simp [regroup, split, h, negated]

theorem regroup_waits {op : Operation} (h : b.completes op .neg = false) (l r : Tree α) :
    (Tree.binary op l r).regroup b =
      (Tree.binary op (l.split b).2 (r.regroup b)).negated (l.split b).1 := by
  simp [regroup, split, h, negated_zero]

/-- Whether a minus stands in front. -/
def isNegated : Tree α → Bool
  | .unary .neg _ => true
  | _ => false

theorem split_fst_eq_zero {t : Tree α} (h : t.isNegated = false) : (t.split b).1 = 0 := by
  cases t with
  | leaf l => rfl
  | binary op l r =>
    simp only [split]
    split <;> rfl
  | unary op t =>
    have hneg : op ≠ .neg := by
      rintro rfl
      cases h
    simp [split, hneg]

/-- Whether a left operand of an operator that binds more tightly than a minus in front is
negated. -/
def negatesLeft (b : Infix.Binding) : Tree α → Bool
  | .leaf _ => false
  | .binary op l r =>
    (!b.completes op .neg && l.isNegated) || l.negatesLeft b || r.negatesLeft b
  | .unary _ t => t.negatesLeft b

/-- Nothing is regrouped exactly if no such operand is negated. -/
theorem regroup_eq_self_iff {t : Tree α} : t.regroup b = t ↔ t.negatesLeft b = false := by
  induction t with
  | leaf l => exact iff_of_true rfl rfl
  | unary op t ih =>
    by_cases hneg : op = .neg
    · simp [hneg, regroup_neg, negatesLeft, ih]
    · simp [regroup_function hneg, negatesLeft, ih]
  | binary op l r ihl ihr =>
    cases hdone : b.completes op .neg with
    | true => simp [regroup_completes hdone, negatesLeft, hdone, ihl, ihr]
    | false =>
      rw [regroup_waits hdone]
      cases hl : l.isNegated with
      | false =>
        have hzero : (l.split b).1 = 0 := split_fst_eq_zero hl
        have hleft : (l.split b).2 = l.regroup b := by rw [regroup, hzero]; rfl
        rw [hzero, hleft]
        simp [negated, negatesLeft, hdone, hl, ihl, ihr]
      | true =>
        have hpos : ∃ n, (l.split b).1 = n + 1 := by
          unfold isNegated at hl
          split at hl
          · exact ⟨_, rfl⟩
          · cases hl
        obtain ⟨n, hn⟩ := hpos
        rw [hn, negated_succ]
        simp [negatesLeft, hdone, hl]

/-- Whether the base of a power is negated. -/
def negatesBase : Tree α → Bool
  | .leaf _ => false
  | .binary op l r => (op = .pow && l.isNegated) || l.negatesBase || r.negatesBase
  | .unary _ t => t.negatesBase

/-- A minus in front that comes before everything else is completed by every operator. -/
theorem negatesLeft_tight (t : Tree α) : t.negatesLeft .tight = false := by
  induction t with
  | leaf l => rfl
  | unary op t ih => exact ih
  | binary op l r ihl ihr =>
    have hdone : Infix.Binding.tight.completes op .neg = true := by cases op <;> rfl
    simp [negatesLeft, hdone, ihl, ihr]

/-- Usually only powers bind more tightly than a minus in front. -/
theorem negatesLeft_usual (t : Tree α) : t.negatesLeft .usual = t.negatesBase := by
  induction t with
  | leaf l => rfl
  | unary op t ih => exact ih
  | binary op l r ihl ihr =>
    have hwaits : (!Infix.Binding.usual.completes op .neg) = decide (op = .pow) := by
      cases op <;> rfl
    simp only [negatesLeft, negatesBase, hwaits, ihl, ihr]

end Regroup

end Tree

namespace Infix

variable {b : Binding}

theorem run_append {ws : List Word} {state next : State α} (h : run b state ws = some next)
    (vs : List Word) : run b state (ws ++ vs) = run b next vs := by
  induction ws generalizing state with
  | nil =>
    obtain rfl : state = next := Option.some.inj h
    rfl
  | cons w rest ih =>
    obtain ⟨mid, hmid, hrest⟩ := Option.bind_eq_some_iff.mp h
    simp only [List.cons_append, run, hmid, Option.bind_some, ih hrest]

theorem run_word (w : Word) (state : State α) : run b state [w] = step b state w := by
  simp [run]

/-- Signs that are completed go in front of the operand. -/
theorem settle_signs {done : Operation → Bool} (h : done .neg = true) (n : Nat) (x : Tree α)
    (frames : List (Frame α)) :
    settle done x (List.replicate n .minus ++ frames) = settle done (x.negated n) frames := by
  induction n generalizing x with
  | zero => rfl
  | succ n ih =>
    rw [List.replicate_succ, List.cons_append, settle, if_pos h, ih]
    rfl

/-- Signs that are not completed wait in front of the operation. -/
theorem settle_waiting {done : Operation → Bool} (h : done .neg = false) (n : Nat) (x : Tree α)
    (frames : List (Frame α)) :
    settle done x (List.replicate n .minus ++ .group :: frames) =
      (x, List.replicate n .minus ++ .group :: frames) := by
  cases n with
  | zero => rfl
  | succ n => rw [List.replicate_succ, List.cons_append, settle, h, if_neg (by simp)]

/-- A closing parenthesis after the argument of a function. -/
theorem step_closing_call (op : Operation) (n : Nat) (x : Tree α) (frames : List (Frame α)) :
    step b (.has x (List.replicate n .minus ++ .call op :: frames)) .closing =
      some (.has (.unary op (x.negated n)) frames) := by
  simp only [step, settle_signs, settle]

/-- A closing parenthesis after the right operand of an operator behind signs. -/
theorem step_closing_operator (op : Operation) (n m : Nat) (x y : Tree α)
    (frames : List (Frame α)) :
    step b (.has y (List.replicate m .minus ++ .operator op x ::
      (List.replicate n .minus ++ .group :: frames))) .closing =
      some (.has ((Tree.binary op x (y.negated m)).negated n) frames) := by
  simp only [step, settle_signs, settle, if_true]

theorem function?_symbol {op : Operation} (h : op.isBinary = false) (hneg : op ≠ .neg) :
    function? op.symbol = some op := by
  cases op with
  | neg => exact absurd rfl hneg
  | exp | log | sin | cos | tan => rfl
  | _ => cases h

/-- **The words of a tree** are read to what stands behind its signs, which wait. -/
theorem run_words {t : Tree α} (h : t.WellTyped) (hn : t.Named) (frames : List (Frame α)) :
    run b (.wants frames) t.words =
      some (.has (t.split b).2 (List.replicate (t.split b).1 .minus ++ frames)) := by
  induction t generalizing frames with
  | leaf l =>
    cases l with
    | parameter n => rfl
    | _ => cases hn
  | binary op l r ihl ihr =>
    obtain ⟨hop, hl, hr⟩ := h
    have hleft : run b (.wants frames) (Tree.binary op l r).words =
        (step b (.has (l.split b).2 (List.replicate (l.split b).1 .minus ++ .group :: frames))
          (.mark op)).bind fun next => run b next (r.words ++ [.closing]) :=
      run_append (ihl hl hn.1 (.group :: frames)) _
    -- where the operator completes the signs they are done with before the right operand
    cases hdone : b.completes op .neg with
    | true =>
      have hmark : step b (.has (l.split b).2
          (List.replicate (l.split b).1 .minus ++ .group :: frames)) (.mark op) =
          some (.wants
            (.operator op ((l.split b).2.negated (l.split b).1) :: .group :: frames)) := by
        simp only [step, settle_signs hdone, settle]
      rw [hleft, hmark, Option.bind_some, run_append (ihr hr hn.2 _), run_word]
      refine (step_closing_operator op 0 _ _ _ frames).trans ?_
      simp [Tree.split, hdone, Tree.negated]
    | false =>
      have hmark : step b (.has (l.split b).2
          (List.replicate (l.split b).1 .minus ++ .group :: frames)) (.mark op) =
          some (.wants (.operator op (l.split b).2 ::
            (List.replicate (l.split b).1 .minus ++ .group :: frames))) := by
        simp only [step, settle_waiting hdone]
      rw [hleft, hmark, Option.bind_some, run_append (ihr hr hn.2 _), run_word,
        step_closing_operator]
      simp [Tree.split, hdone]
  | unary op t ih =>
    obtain ⟨hop, ht⟩ := h
    by_cases hneg : op = .neg
    · have hwords : (Tree.unary op t).words = .mark .minus :: t.words := if_pos hneg
      rw [hwords]
      refine (ih ht hn (.minus :: frames)).trans ?_
      simp [Tree.split, hneg, List.replicate_succ']
    · have hwords : (Tree.unary op t).words =
          .name op.symbol :: .opening :: (t.words ++ [.closing]) := if_neg hneg
      have hcall : run b (.wants frames) (Tree.unary op t).words =
          run b (.wants (.call op :: frames)) (t.words ++ [.closing]) := by
        simp only [hwords, run, step, Option.bind_some, function?_symbol hop hneg, Option.map_some]
      rw [hcall, run_append (ih ht hn _), run_word, step_closing_call]
      simp [Tree.split, hneg]

/-- **Reading a text** gives its tree, regrouped. -/
theorem read_text (leaf : Leaf α → String) (hleaf : ∀ n, leaf (.parameter n) = n) {t : Tree α}
    (h : t.WellTyped) (hn : t.Named) : read b (t.text leaf) = some (t.regroup b) := by
  have hwords : words (t.text leaf).toList = some t.words := by
    simpa [words] using words_text leaf hleaf h hn [] stops_nil
  have hresult : (State.has (t.split b).2
      (List.replicate (t.split b).1 .minus ++ [])).result? = some (t.regroup b) := by
    simp only [State.result?, settle_signs, settle]
    rfl
  simp only [read, hwords, Option.bind_eq_bind, Option.bind_some, run_words h hn, hresult]

end Infix

/-! ### Programs over names -/

namespace Program

/-- The leaves are parameters whose names are identifiers. -/
def Named (p : Program α) : Prop :=
  ∀ l, .leaf l ∈ p → ∃ n, l = .parameter n ∧ Signature.isIdentifier n = true

end Program

theorem Tree.named_of_spell {t : Tree α} (h : t.spell.Named) : t.Named := by
  induction t with
  | leaf l =>
    obtain ⟨n, rfl, hn⟩ := h l (List.mem_singleton_self _)
    exact hn
  | binary op l r ihl ihr =>
    refine ⟨ihl fun x hx => h x ?_, ihr fun x hx => h x ?_⟩
    · simp [spell, hx]
    · simp [spell, hx]
  | unary op t ih => exact ih fun x hx => h x (by simp [spell, hx])

namespace Program

variable {p q : Program α}

/-- **A rendered program reads as its tree**, regrouped as the reader's binding has it. -/
theorem render_reads (number : α → String) (hp : p.Whole) (hn : p.Named) :
    ∃ (t : Tree α) (text : String), t.WellTyped ∧ t.spell = p ∧
      p.render (Expression.leafText number) = .ok text ∧
      ∀ b, Infix.read b text = some (t.regroup b) := by
  obtain ⟨t, ht, rfl⟩ := hp
  refine ⟨t, t.text (Expression.leafText number), ht, rfl, ?_, fun b => ?_⟩
  · exact (t.replay_spell _ ht).trans (t.fold_textual _)
  · exact Infix.read_text _ (fun _ => rfl) ht (Tree.named_of_spell hn)

/-- **The text of a program determines it.** Two programs over names have the same text only
if they are the same. -/
theorem render_eq_iff (number : α → String) (hp : p.Whole) (hq : q.Whole) (hnp : p.Named)
    (hnq : q.Named) :
    p.render (Expression.leafText number) = q.render (Expression.leafText number) ↔ p = q := by
  refine ⟨fun h => ?_, fun h => congrArg _ h⟩
  obtain ⟨t, text, ht, rfl, htext, hread⟩ := render_reads number hp hnp
  obtain ⟨u, text', hu, rfl, htext', hread'⟩ := render_reads number hq hnq
  obtain rfl : text = text' := Except.ok.inj (htext.symm.trans (h.trans htext'))
  -- the usual binding would not do here: it reads two programs from two texts alike
  have hreads : t.regroup .tight = u.regroup .tight :=
    Option.some.inj ((hread .tight).symm.trans (hread' .tight))
  rw [Tree.regroup_eq_self_iff.mpr (Tree.negatesLeft_tight t),
    Tree.regroup_eq_self_iff.mpr (Tree.negatesLeft_tight u)] at hreads
  rw [hreads]

/-- A power of a negated parameter and a negated power, over parameters named as functions,
have different texts. -/
theorem render_eq_iff_negated :
    let p : Program ℚ :=
      [.leaf (.parameter "exp"), .unary .neg, .leaf (.parameter "log"), .binary .pow]
    let q : Program ℚ :=
      [.leaf (.parameter "exp"), .leaf (.parameter "log"), .binary .pow, .unary .neg]
    p.Whole ∧ q.Whole ∧ p.Named ∧ q.Named ∧
      p.render (Expression.leafText fun _ => "?") ≠
        q.render (Expression.leafText fun _ => "?") := by
  intro p q
  have hp : p.Whole := ⟨.binary .pow (.unary .neg (.leaf (.parameter "exp")))
    (.leaf (.parameter "log")), by simp [Tree.WellTyped, Operation.isBinary], rfl⟩
  have hq : q.Whole := ⟨.unary .neg (.binary .pow (.leaf (.parameter "exp"))
    (.leaf (.parameter "log"))), by simp [Tree.WellTyped, Operation.isBinary], rfl⟩
  have hnp : p.Named := by
    intro l hl
    obtain rfl | rfl : l = .parameter "exp" ∨ l = .parameter "log" := by simpa [p] using hl
    all_goals exact ⟨_, rfl, by decide⟩
  have hnq : q.Named := by
    intro l hl
    obtain rfl | rfl : l = .parameter "exp" ∨ l = .parameter "log" := by simpa [q] using hl
    all_goals exact ⟨_, rfl, by decide⟩
  exact ⟨hp, hq, hnp, hnq, fun h => absurd ((render_eq_iff _ hp hq hnp hnq).mp h) (by decide)⟩

end Program

/-! ### Texts of parameter arithmetic -/

namespace Term

variable [Scalar α]

/-- The leaves are parameters whose names are identifiers. -/
def Named (s : Store α) : Term α → Prop
  | .parameter c => Signature.isIdentifier (s.cell c).name = true
  | .number _ => False
  | .binary _ l r => l.Named s ∧ r.Named s
  | .minus t | .function _ t => t.Named s

theorem named_tree {s : Store α} {t : Term α} (h : t.Named s) : (t.tree s).Named := by
  induction t with
  | parameter c => exact h
  | number d => cases h
  | binary op l r ihl ihr => exact ⟨ihl h.1, ihr h.2⟩
  | minus t ih => exact ih h
  | function op t ih => exact ih h

/-- Without numbers, none is out of reach. -/
theorem inReach_of_named {s : Store α} {t : Term α} (h : t.Named s) : t.InReach := by
  induction t with
  | parameter c => trivial
  | number d => cases h
  | binary op l r ihl ihr => exact ⟨ihl h.1, ihr h.2⟩
  | minus t ih => exact ih h
  | function op t ih => exact ih h

/-- **The text of parameter arithmetic** reads as the tree of the term, except that the minus
signs in front of the base of a power are read in front of the power. So it says what the term
means as long as no base is negated, and then it has the value of the expression at any time. -/
theorem text_says {t : Term α} {s : Store α} (h : t.Proper) (hn : t.Named s)
    (number : α → String) :
    ∃ x e text tree, t.build.outcome s = (.ok x, s) ∧ x.lift? s = some e ∧
      (t.isLeaf = false → x = .expression e) ∧ e.render number = .ok text ∧
      Infix.read .usual text = some tree ∧ tree = (t.tree s).regroup .usual ∧
      (tree = t.tree s ↔ (t.tree s).negatesBase = false) ∧
      ((t.tree s).negatesBase = false → ∀ u,
        tree.fold (Program.numeric (Expression.leafValue u e.pars)) = e.value u) := by
  obtain ⟨x, e, hbuild, he⟩ := build_spells h (inReach_of_named hn) s
  have ht := wellTyped_tree s h
  have hkept : (t.tree s).regroup .usual = t.tree s ↔ (t.tree s).negatesBase = false := by
    rw [Tree.regroup_eq_self_iff, Tree.negatesLeft_usual]
  refine ⟨x, e, (t.tree s).text (Expression.leafText number), _, hbuild, he.lift, he.expression,
    ?_, Infix.read_text _ (fun _ => rfl) ht (named_tree hn), rfl, hkept, fun hbase u => ?_⟩
  · rw [Expression.render, he.program]
    exact ((t.tree s).replay_spell _ ht).trans ((t.tree s).fold_textual _)
  · rw [hkept.mpr hbase, Expression.value, he.program]
    exact ((t.tree s).replay_spell _ ht).symm

end Term

/-- A power whose base is negated. -/
def Sample.negatedBase : Term ℚ := .binary .pow (.minus (.parameter ⟨6⟩)) (.parameter ⟨6⟩)

/-- The square of a negated 2 is 4, and its text says the negative square. -/
theorem Term.text_says_negated :
    let s := (Session.after Sample.cells).store
    Sample.negatedBase.Proper ∧ Sample.negatedBase.Named s ∧ ∃ e text tree,
      Sample.negatedBase.build.outcome s = (.ok (.expression e), s) ∧
      e.render (fun _ => "?") = .ok text ∧ text = "(-a ** a)" ∧
      Infix.read .usual text = some tree ∧
      tree.fold (Program.numeric (Expression.leafValue s e.pars)) = .ok (.scalar (-4)) ∧
      e.value s = .ok (.scalar 4) := by
  intro s
  have hname : (s.cell ⟨6⟩).name = "a" := by decide +kernel
  have hproper : Sample.negatedBase.Proper := ⟨rfl, ⟨trivial, rfl⟩, trivial, .inl rfl⟩
  have hnamed : Sample.negatedBase.Named s := by
    have hidentifier : Signature.isIdentifier (s.cell ⟨6⟩).name = true := by
      rw [hname]
      decide
    exact ⟨hidentifier, hidentifier⟩
  let a := Expression.ofParameter (α := ℚ) "a" ⟨6⟩
  have hmade : Sample.negatedBase.build.outcome s =
      (.ok (.expression (.combine .pow a.negate a)), s) := by
    simp only [a, ← hname]
    rfl
  obtain ⟨x, e, text, tree, hbuild, -, hx, htext, hread, htree, -, -⟩ :=
    Term.text_says hproper hnamed fun _ => "?"
  obtain rfl := hx rfl
  obtain rfl : e = .combine .pow a.negate a := by
    have hsame := congrArg Prod.fst (hbuild.symm.trans hmade)
    simpa using hsame
  obtain rfl : text = "(-a ** a)" := by
    have hshown : ((Expression.combine .pow a.negate a).render fun _ => "?").toOption =
        some "(-a ** a)" := by decide +kernel
    exact Except.ok.inj (htext.symm.trans (Sample.eq_ok_of_toOption hshown))
  have hgrouped : (Sample.negatedBase.tree s).regroup .usual =
      .unary .neg (.binary .pow (.leaf (.parameter "a")) (.leaf (.parameter "a"))) := by
    show Tree.unary .neg (.binary .pow (.leaf (.parameter (s.cell ⟨6⟩).name))
      (.leaf (.parameter (s.cell ⟨6⟩).name))) = _
    rw [hname]
  have hvalues : (((.unary .neg (.binary .pow (.leaf (.parameter "a")) (.leaf (.parameter "a"))) :
        Tree ℚ).fold (Program.numeric
          (Expression.leafValue s (Expression.combine .pow a.negate a).pars))).toOption =
      some (.scalar (-4))) ∧
      ((Expression.combine .pow a.negate a).value s).toOption = some (.scalar 4) := by
    decide +kernel
  refine ⟨hproper, hnamed, _, _, tree, hmade, htext, rfl, hread, ?_,
    Sample.eq_ok_of_toOption hvalues.2⟩
  rw [htree, hgrouped]
  exact Sample.eq_ok_of_toOption hvalues.1

end DensityAlgebra
