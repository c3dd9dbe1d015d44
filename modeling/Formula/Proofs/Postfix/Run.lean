/-
Formula.Proofs.Postfix.Run — the postfix order as a program for a stack.

In postfix order each node comes after its operands, so a run over the nodes
with a stack of values finds them on top of the stack: `Label` is a node
without its operands, `Expr.labels` are the labels of a formula in this order,
and `Label.step` is what one of them does.

The run does what `Expr.evaluate` does (`run_labels`), errors included. Which
error that is depends on the order of the nodes alone: the divisor is looked at
when the division is reached, after both of its operands, and a free name when
it is reached itself. The text of `Expr.toPostfix` has the words of the same
labels (`Expr.writePostfix_eq_foldl`).

The statement to prove is about a run from any stack, with more labels to
follow (`Computes`), since this is how an operand is run.
-/
import Formula.Expr.Postfix
import Formula.Proofs.Trace

namespace Formula

/-! ## 1. Labels -/

/-- A node of a formula without its operands. -/
inductive Label where
  | literal (value : Float)
  | free (name : String)
  | constant (name : String) (value : Float)
  | arithmetic (op : Arithmetic)
  | signed (sign : Sign)
  | power
  | root
  /-- A call, with the number of its arguments. -/
  | call (name : String) (body : Body) (count : Nat)
  | equation

/-- The word of a node. -/
def Label.word : Label → String
  | .literal value => Number.text value
  | .free name => name
  | .constant name _ => name
  | .arithmetic op => (Operator.arithmetic op).word
  | .signed sign => (Operator.sign sign).word
  | .power => Operator.power.word
  | .root => "root"
  | .call name _ _ => name
  | .equation => Operator.equals.word

namespace Expr

mutual

/-- The nodes of a formula, each after its operands. -/
def labels : Expr → List Label
  | .literal value => [.literal value]
  | .free name => [.free name]
  | .constant name value => [.constant name value]
  | .arithmetic op left right => labels left ++ labels right ++ [.arithmetic op]
  | .signed sign operand => labels operand ++ [.signed sign]
  | .power base exponent => labels base ++ labels exponent ++ [.power]
  | .root base degree => labels base ++ labels degree ++ [.root]
  | .call name body arguments => labelsOfList arguments ++ [.call name body arguments.length]
  | .equation left right => labels left ++ labels right ++ [.equation]

/-- The nodes of the formulas of a list, one formula after the other. -/
def labelsOfList : List Expr → List Label
  | [] => []
  | a :: rest => labels a ++ labelsOfList rest

end

theorem labelsOfList_eq_flatMap (as : List Expr) : labelsOfList as = as.flatMap labels := by
  induction as with
  | nil => rfl
  | cons a rest ih => simp [labelsOfList, ih]

/-- What a list of formulas adds to a text, if each of them adds its words. -/
theorem writePostfixOfList_eq_foldl {as : List Expr}
    (h : ∀ a ∈ as, ∀ out, writePostfix out a = a.words.foldl pushWord out) (out : String) :
    writePostfixOfList out as = (wordsOfList as).foldl pushWord out := by
  induction as generalizing out with
  | nil => rfl
  | cons a as ih =>
    rw [writePostfixOfList, ih (fun b hb => h b (List.mem_cons_of_mem _ hb)),
      h a List.mem_cons_self, wordsOfList, List.foldl_append]

/-- A formula adds its words to a text, one after the other. -/
theorem writePostfix_eq_foldl (n : Expr) (out : String) :
    writePostfix out n = n.words.foldl pushWord out := by
  induction n using Expr.induction generalizing out with
  | literal value => rfl
  | free name => rfl
  | constant name value => rfl
  | arithmetic op a b iha ihb => simp [writePostfix, words, iha, ihb]
  | signed s a ih => simp [writePostfix, words, ih]
  | power a b iha ihb => simp [writePostfix, words, iha, ihb]
  | root a b iha ihb => simp [writePostfix, words, iha, ihb]
  | call name body arguments ih => simp [writePostfix, words, writePostfixOfList_eq_foldl ih]
  | equation a b iha ihb => simp [writePostfix, words, iha, ihb]

/-- Each word of a formula is that of a node. -/
theorem words_eq_map_labels (n : Expr) : n.words = n.labels.map Label.word := by
  induction n using Expr.induction with
  | literal value => rfl
  | free name => rfl
  | constant name value => rfl
  | arithmetic op a b iha ihb => simp [words, labels, iha, ihb, Label.word]
  | signed s a ih => simp [words, labels, ih, Label.word]
  | power a b iha ihb => simp [words, labels, iha, ihb, Label.word]
  | root a b iha ihb => simp [words, labels, iha, ihb, Label.word]
  | call name body arguments ih =>
    have hall : arguments.flatMap words = (arguments.flatMap labels).map Label.word := by
      rw [List.map_flatMap, List.flatMap_def, List.flatMap_def, List.map_congr_left ih]
    simp [words, labels, wordsOfList_eq_flatMap, labelsOfList_eq_flatMap, hall, Label.word]
  | equation a b iha ihb => simp [words, labels, iha, ihb, Label.word]

end Expr

/-! ## 2. Steps -/

/-- Why a run stops before its end. -/
inductive Halt where
  /-- There are fewer values on the stack than the node has operands. -/
  | underflow
  | error (cause : EvalError)
deriving DecidableEq, Repr

/-- The stack of values, its top first, after a node. A leaf puts its value on
top. Any other node takes its operands from there, the last one first, and puts
its result in their place. -/
def Label.step (bindings : Bindings) : List Float → Label → Except Halt (List Float)
  | stack, .literal value => .ok (value :: stack)
  | stack, .free name =>
    match bindings name with
    | some value => .ok (value :: stack)
    | none => .error (.error (.unbound name))
  | stack, .constant _ value => .ok (value :: stack)
  | y :: x :: below, .arithmetic .add => .ok ((x + y) :: below)
  | y :: x :: below, .arithmetic .subtract => .ok ((x - y) :: below)
  | y :: x :: below, .arithmetic .multiply => .ok ((x * y) :: below)
  | y :: x :: below, .arithmetic .divide =>
    if y == 0 then .error (.error .divisionByZero) else .ok ((x / y) :: below)
  | x :: below, .signed .plus => .ok (x :: below)
  | x :: below, .signed .minus => .ok ((-x) :: below)
  | y :: x :: below, .power => .ok (x.pow y :: below)
  | y :: x :: below, .root => .ok (Number.realRoot x y :: below)
  | stack, .call _ body count =>
    if stack.length < count then .error .underflow
    else .ok (body (stack.take count).reverse :: stack.drop count)
  | y :: x :: below, .equation => .ok ((x - y) :: below)
  | _, _ => .error .underflow

/-- The run over the nodes of a formula, from an empty stack. -/
def Expr.run (bindings : Bindings) (n : Expr) : Except Halt (List Float) :=
  n.labels.foldlM (Label.step bindings) []

/-- What was put on a stack in order is on its top in reverse. -/
theorem top_of_stack {α : Type} (arguments below : List α) :
    ¬ (arguments.reverse ++ below).length < arguments.length ∧
      ((arguments.reverse ++ below).take arguments.length).reverse = arguments ∧
        (arguments.reverse ++ below).drop arguments.length = below := by
  have hlen : arguments.reverse.length = arguments.length := List.length_reverse
  refine ⟨?_, ?_, List.drop_left' hlen⟩
  · rw [List.length_append, hlen]
    omega
  · rw [List.take_left' hlen, List.reverse_reverse]

/-! ## 3. Runs -/

section Runs

variable {bindings : Bindings}

/-- From any stack and with any labels to follow, the labels put a value on the
stack, or stop the run with an error. -/
def Computes (bindings : Bindings) (ls : List Label) (r : Except EvalError Float) : Prop :=
  ∀ stack rest, (ls ++ rest).foldlM (Label.step bindings) stack =
    r.mapError Halt.error >>= fun v => rest.foldlM (Label.step bindings) (v :: stack)

namespace Computes

variable {ls ls' : List Label} {label : Label} {r r' : Except EvalError Float}

theorem leaf (h : ∀ stack, Label.step bindings stack label =
      r.mapError Halt.error >>= fun v => .ok (v :: stack)) : Computes bindings [label] r := by
  intro stack rest
  rw [List.singleton_append, List.foldlM_cons, h]
  cases r <;> rfl

theorem one {f : Float → Float} (hr : Computes bindings ls r)
    (h : ∀ x stack, Label.step bindings (x :: stack) label = .ok (f x :: stack)) :
    Computes bindings (ls ++ [label]) (r >>= fun x => .ok (f x)) := by
  intro stack rest
  rw [List.append_assoc, hr]
  cases r with
  | error e => rfl
  | ok x =>
    show ([label] ++ rest).foldlM (Label.step bindings) (x :: stack) = _
    rw [List.singleton_append, List.foldlM_cons, h]
    rfl

theorem two {f : Float → Float → Except EvalError Float} (hr : Computes bindings ls r)
    (hr' : Computes bindings ls' r')
    (h : ∀ x y stack, Label.step bindings (y :: x :: stack) label =
      (f x y).mapError Halt.error >>= fun v => .ok (v :: stack)) :
    Computes bindings (ls ++ ls' ++ [label]) (do
      let x ← r
      let y ← r'
      f x y) := by
  intro stack rest
  rw [List.append_assoc, List.append_assoc, hr]
  cases r with
  | error e => rfl
  | ok x =>
    show (ls' ++ ([label] ++ rest)).foldlM (Label.step bindings) (x :: stack) = _
    rw [hr']
    cases r' with
    | error e => rfl
    | ok y =>
      show ([label] ++ rest).foldlM (Label.step bindings) (y :: x :: stack) = _
      rw [List.singleton_append, List.foldlM_cons, h]
      show _ = (f x y).mapError Halt.error >>= _
      cases f x y <;> rfl

end Computes

/-- Arguments are put on the stack one after the other, the last one on top. -/
theorem Expr.foldlM_labelsOfList {as : List Expr}
    (h : ∀ a ∈ as, Computes bindings a.labels (a.evaluate bindings)) (stack : List Float)
    (rest : List Label) :
    (labelsOfList as ++ rest).foldlM (Label.step bindings) stack =
      (evaluateAll bindings as).mapError Halt.error >>= fun xs =>
        rest.foldlM (Label.step bindings) (xs.reverse ++ stack) := by
  induction as generalizing stack with
  | nil => rfl
  | cons a as ih =>
    have hrest := ih fun b hb => h b (List.mem_cons_of_mem _ hb)
    rw [labelsOfList, List.append_assoc, h a List.mem_cons_self, evaluateAll]
    cases a.evaluate bindings with
    | error e => rfl
    | ok x =>
      show (labelsOfList as ++ rest).foldlM (Label.step bindings) (x :: stack) = _
      rw [hrest]
      cases evaluateAll bindings as with
      | error e => rfl
      | ok xs =>
        show rest.foldlM (Label.step bindings) _ = rest.foldlM (Label.step bindings) _
        rw [List.reverse_cons, List.append_assoc, List.singleton_append]

/-- A call finds its arguments on top of the stack. -/
theorem Label.step_call (name : String) (body : Body) (xs stack : List Float) :
    Label.step bindings (xs.reverse ++ stack) (.call name body xs.length) =
      .ok (body xs :: stack) := by
  obtain ⟨hroom, htake, hdrop⟩ := top_of_stack xs stack
  simp only [step, if_neg hroom, htake, hdrop]

/-- The nodes of a formula compute its value. -/
theorem Expr.computes (n : Expr) : Computes bindings n.labels (n.evaluate bindings) := by
  induction n using Expr.induction with
  | literal value => exact .leaf fun _ => rfl
  | free name =>
    refine .leaf fun stack => ?_
    rw [Label.step, evaluate]
    cases bindings name <;> rfl
  | constant name value => exact .leaf fun _ => rfl
  | arithmetic op a b iha ihb =>
    refine iha.two ihb fun x y stack => ?_
    cases op with
    | divide =>
      rw [Label.step, Arithmetic.apply]
      split <;> rfl
    | _ => rfl
  | signed s a ih =>
    refine ih.one (f := s.apply) fun x stack => ?_
    cases s <;> rfl
  | power a b iha ihb => exact iha.two ihb fun _ _ _ => rfl
  | root a b iha ihb => exact iha.two ihb fun _ _ _ => rfl
  | call name body arguments ih =>
    intro stack rest
    rw [labels, List.append_assoc, foldlM_labelsOfList ih, evaluate]
    cases hxs : evaluateAll bindings arguments with
    | error e => rfl
    | ok xs =>
      show ([Label.call name body arguments.length] ++ rest).foldlM (Label.step bindings)
        (xs.reverse ++ stack) = _
      rw [List.singleton_append, List.foldlM_cons, ← length_of_evaluateAll hxs, Label.step_call]
      rfl
  | equation a b iha ihb => exact iha.two ihb fun _ _ _ => rfl

/-- A run from an empty stack ends with the value of the formula alone. -/
theorem Expr.run_eq (n : Expr) :
    n.run bindings = (n.evaluate bindings).mapError Halt.error >>= fun v => .ok [v] := by
  have hcomputes : Computes bindings n.labels (n.evaluate bindings) := n.computes
  have hrun := hcomputes [] []
  rwa [List.append_nil] at hrun

end Runs

/-- The run over the nodes of a formula in postfix order never lacks an operand.
It ends with one value on the stack, exactly if this is the value of the
formula, and it stops with an error exactly if the evaluation fails with the
same. The postfix text consists of the words of these nodes in this order. -/
theorem run_labels (n : Expr) (bindings : Bindings) :
    n.run bindings ≠ .error .underflow ∧
    (∀ stack, n.run bindings = .ok stack → ∃ v, stack = [v]) ∧
    (∀ v, n.run bindings = .ok [v] ↔ n.evaluate bindings = .ok v) ∧
    (∀ e, n.run bindings = .error (.error e) ↔ n.evaluate bindings = .error e) ∧
    n.toPostfix = (n.labels.map Label.word).foldl Expr.pushWord "" := by
  have hpostfix : n.toPostfix = (n.labels.map Label.word).foldl Expr.pushWord "" := by
    rw [Expr.toPostfix, n.writePostfix_eq_foldl, n.words_eq_map_labels]
  cases hvalue : n.evaluate bindings with
  | ok v =>
    have hrun : n.run bindings = .ok [v] := by
      rw [n.run_eq, hvalue]
      rfl
    rw [hrun]
    exact ⟨by simp, fun stack h => ⟨v, (Except.ok.inj h).symm⟩, by simp, by simp, hpostfix⟩
  | error e =>
    have hrun : n.run bindings = .error (.error e) := by
      rw [n.run_eq, hvalue]
      rfl
    rw [hrun]
    exact ⟨by simp, by simp, by simp, by simp, hpostfix⟩

end Formula
