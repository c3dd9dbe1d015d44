/-
Formula.Proofs.Scan.Reduction — what the items of an output queue put out.

A stack of values in a reduction holds formulas with their heights. Where
the heights are right (`Expr.measured`), an item builds its node over the
formulas on top of the stack, and fails only if the node is too high or the
call does not fit its function; the `apply_..._eq_ok_iff` lemmas say so for
each kind of item.

`Yields` is the other view, of items that come one after the other: they
put out formulas on any stack.
-/
import Formula.Proofs.Scan.Moves

namespace Formula

/-- A formula with its height. -/
def Expr.measured (n : Expr) : Measured := ⟨n, n.height⟩

/-- The heights of formulas that carry them. -/
theorem map_height_measured (ns : List Expr) :
    (ns.map Expr.measured).map Measured.height = ns.map Expr.height := by
  rw [List.map_map]
  rfl

theorem map_expr_measured (ns : List Expr) : (ns.map Expr.measured).map Measured.expr = ns := by
  rw [List.map_map]
  exact List.map_id _

theorem Expr.height_le_heightOfList {a : Expr} {as : List Expr} (h : a ∈ as) :
    a.height ≤ heightOfList as := by
  induction as with
  | nil => cases h
  | cons b rest ih =>
    rw [heightOfList]
    rcases List.mem_cons.mp h with rfl | h
    · exact Nat.le_max_left _ _
    · exact Nat.le_trans (ih h) (Nat.le_max_right _ _)

namespace Item

variable {env : Environment} {maxHeight : Nat}

/-! ## 1. One item -/

/-- The height of a node is that of its highest operand and one more. -/
theorem height_join {op : Operator} (hop : op.left?.isSome = true) (a b : Expr) :
    (join op a b).height = max a.height b.height + 1 := by
  rcases op with _ | op | s | _
  · rfl
  · rfl
  · cases hop
  · rfl

/-- Growing over exact heights gives an exact height. -/
theorem grow_bind_eq_ok_iff {α : Type} {heights : List Nat} {f : Nat → Except ParseError α}
    {v : α} :
    (grow maxHeight heights >>= f) = .ok v ↔
      heights.foldl max 0 + 1 ≤ maxHeight ∧ f (heights.foldl max 0 + 1) = .ok v := by
  rw [bind_eq_ok_iff]
  constructor
  · rintro ⟨height, hgrow, hf⟩
    obtain ⟨rfl, hle⟩ := grow_eq_ok_iff.mp hgrow
    exact ⟨hle, hf⟩
  · rintro ⟨hle, hf⟩
    exact ⟨_, grow_eq_ok_iff.mpr ⟨rfl, hle⟩, hf⟩

theorem apply_operator_eq_ok_iff {op : Operator} (hop : op.left?.isSome = true) {l : Lexeme}
    {a b : Expr} {values out : List Measured} :
    apply env maxHeight (b.measured :: a.measured :: values) (.operator op l) = .ok out ↔
      (join op a b).height ≤ maxHeight ∧ out = (join op a b).measured :: values := by
  have key : apply env maxHeight (b.measured :: a.measured :: values) (.operator op l) =
      (do
        let height ← grow maxHeight [a.height, b.height]
        .ok (⟨join op a b, height⟩ :: values)) := by
    rcases op with _ | op | s | _
    · rfl
    · rfl
    · cases hop
    · rfl
  rw [key, grow_bind_eq_ok_iff, Expr.measured, height_join hop]
  simp [eq_comm]

theorem apply_sign_eq_ok_iff {s : Sign} {l : Lexeme} {a : Expr} {values out : List Measured} :
    apply env maxHeight (a.measured :: values) (.operator (.sign s) l) = .ok out ↔
      (Expr.signed s a).height ≤ maxHeight ∧ out = (Expr.signed s a).measured :: values := by
  have key : apply env maxHeight (a.measured :: values) (.operator (.sign s) l) =
      (do
        let height ← grow maxHeight [a.height]
        .ok (⟨.signed s a, height⟩ :: values)) := rfl
  rw [key, grow_bind_eq_ok_iff]
  simp [eq_comm, Expr.measured, Expr.height]

/-- A call that an environment accepts is a node over its arguments. -/
theorem height_call {name : String} {arguments : List Expr} {n : Expr}
    (h : env.call name arguments = .ok n) : n.height = Expr.heightOfList arguments + 1 := by
  unfold Environment.call at h
  split at h
  · split at h
    · cases h
      rfl
    · cases h
  · cases h

/-- A call is built over arguments that carry their heights if the function takes
them and the node is not too high. -/
theorem grow_call_eq_ok_iff {α : Type} {name : String} {arguments : List Expr} {out : α}
    (node : Measured → α) :
    (do
      let height ← grow maxHeight ((arguments.map Expr.measured).map Measured.height)
      let call ← env.call name ((arguments.map Expr.measured).map Measured.expr)
      .ok (node ⟨call, height⟩)) = Except.ok out ↔
        ∃ n, env.call name arguments = .ok n ∧ n.height ≤ maxHeight ∧ out = node n.measured := by
  rw [grow_bind_eq_ok_iff, map_height_measured, map_expr_measured, bind_eq_ok_iff,
    ← Expr.heightOfList_eq_foldl]
  constructor
  · rintro ⟨hle, n, hn, hout⟩
    cases hout
    have hheight := height_call hn
    exact ⟨n, hn, by omega, by rw [Expr.measured, hheight]⟩
  · rintro ⟨n, hn, hle, rfl⟩
    have hheight := height_call hn
    exact ⟨by omega, n, hn, by rw [Expr.measured, hheight]⟩

theorem apply_call_eq_ok_iff {f : Lexeme} {arguments : List Expr} {values out : List Measured} :
    apply env maxHeight ((arguments.map Expr.measured).reverse ++ values)
        (.call f arguments.length) = .ok out ↔
      ∃ n, env.call f.text arguments = .ok n ∧ n.height ≤ maxHeight ∧
        out = n.measured :: values := by
  have hlen : (arguments.map Expr.measured).reverse.length = arguments.length := by simp
  have hroom : ¬ ((arguments.map Expr.measured).reverse ++ values).length < arguments.length := by
    rw [List.length_append, hlen]
    omega
  rw [apply, if_neg hroom, List.take_left' hlen, List.drop_left' hlen, List.reverse_reverse]
  exact grow_call_eq_ok_iff (· :: values)

/-- The same where all values carry their heights. -/
theorem call_of_apply_eq_ok {f : Lexeme} (arguments : List Expr) {vs : List Expr}
    {out : List Measured}
    (h : apply env maxHeight ((arguments.reverse ++ vs).map Expr.measured)
      (.call f arguments.length) = .ok out) :
    ∃ n, env.call f.text arguments = .ok n ∧ out = (n :: vs).map Expr.measured := by
  rw [List.map_append, List.map_reverse] at h
  obtain ⟨n, hn, -, rfl⟩ := apply_call_eq_ok_iff.mp h
  exact ⟨n, hn, rfl⟩

/-- What an item does to a stack of values where it does not fail, whether or not
the values have the heights that they come with. -/
inductive Applies (env : Environment) (maxHeight : Nat) :
    List Measured → Item → List Measured → Prop
  | value {values} (v : Measured) : Applies env maxHeight values (.value v) (v :: values)
  | sign {s l a below height} (hheight : grow maxHeight [a.height] = .ok height) :
      Applies env maxHeight (a :: below) (.operator (.sign s) l)
        (⟨.signed s a.expr, height⟩ :: below)
  | operator {op l a b below height} (hop : op.left?.isSome = true)
      (hheight : grow maxHeight [a.height, b.height] = .ok height) :
      Applies env maxHeight (b :: a :: below) (.operator op l)
        (⟨join op a.expr b.expr, height⟩ :: below)
  | call {f n below height} {arguments : List Measured}
      (hheight : grow maxHeight (arguments.map Measured.height) = .ok height)
      (hn : env.call f.text (arguments.map Measured.expr) = .ok n) :
      Applies env maxHeight (arguments.reverse ++ below) (.call f arguments.length)
        (⟨n, height⟩ :: below)

/-- Every item that is taken is one of these. -/
theorem applies_of_apply {item : Item} {values out : List Measured}
    (h : apply env maxHeight values item = .ok out) : Applies env maxHeight values item out := by
  cases item with
  | value v =>
    cases h
    exact .value v
  | operator op l =>
    cases op with
    | sign s =>
      rcases values with _ | ⟨a, below⟩
      · cases h
      · obtain ⟨height, hheight, hout⟩ := bind_eq_ok_iff.mp h
        cases hout
        exact .sign hheight
    | equals | arithmetic _ | power =>
      rcases values with _ | ⟨b, _ | ⟨a, below⟩⟩
      · cases h
      · cases h
      · obtain ⟨height, hheight, hout⟩ := bind_eq_ok_iff.mp h
        cases hout
        exact .operator (Operator.isSome_left? nofun) hheight
  | call f count =>
    rw [apply] at h
    split at h
    · cases h
    · rename_i hroom
      obtain ⟨height, hheight, h⟩ := bind_eq_ok_iff.mp h
      obtain ⟨n, hn, hout⟩ := bind_eq_ok_iff.mp h
      cases hout
      -- The stack is its topmost values, in the order of the arguments, on top of the others.
      have happlies : Applies env maxHeight
          ((values.take count).reverse.reverse ++ values.drop count)
          (.call f (values.take count).reverse.length) (⟨n, height⟩ :: values.drop count) :=
        .call hheight hn
      have hlen : (values.take count).reverse.length = count := by
        rw [List.length_reverse, List.length_take]
        omega
      rwa [List.reverse_reverse, List.take_append_drop, hlen] at happlies

end Item

/-! ## 2. Items in order -/

/-- On any stack of values, the items put out formulas with their
heights. -/
def Yields (env : Environment) (maxHeight : Nat) (items : List Item) (ns : List Expr) : Prop :=
  ∀ values, items.foldlM (Item.apply env maxHeight) values =
    .ok ((ns.map Expr.measured).reverse ++ values)

namespace Yields

variable {env : Environment} {maxHeight : Nat} {items others : List Item} {ns ms : List Expr}

theorem value (n : Expr) : Yields env maxHeight [.value n.measured] [n] := fun _ => rfl

theorem append (h : Yields env maxHeight items ns) (h' : Yields env maxHeight others ms) :
    Yields env maxHeight (items ++ others) (ns ++ ms) := by
  intro values
  rw [List.foldlM_append, h, List.map_append, List.reverse_append, List.append_assoc]
  exact h' _

theorem snoc {item : Item} {n : Expr} (h : Yields env maxHeight items ns)
    (hitem : ∀ values, Item.apply env maxHeight ((ns.map Expr.measured).reverse ++ values) item =
      .ok (n.measured :: values)) :
    Yields env maxHeight (items ++ [item]) [n] := by
  intro values
  rw [List.foldlM_append, h]
  simp [bind, Except.bind, hitem, pure, Except.pure]

theorem operator {op : Operator} {l : Lexeme} {a b : Expr} (hop : op.left?.isSome = true)
    (hle : (Item.join op a b).height ≤ maxHeight) (h : Yields env maxHeight items [a, b]) :
    Yields env maxHeight (items ++ [.operator op l]) [Item.join op a b] :=
  h.snoc fun _ => (Item.apply_operator_eq_ok_iff hop).mpr ⟨hle, rfl⟩

theorem sign {s : Sign} {l : Lexeme} {a : Expr} (hle : (Expr.signed s a).height ≤ maxHeight)
    (h : Yields env maxHeight items [a]) :
    Yields env maxHeight (items ++ [.operator (.sign s) l]) [.signed s a] :=
  h.snoc fun _ => Item.apply_sign_eq_ok_iff.mpr ⟨hle, rfl⟩

theorem call {f : Lexeme} {n : Expr} (hn : env.call f.text ns = .ok n)
    (hle : n.height ≤ maxHeight) (h : Yields env maxHeight items ns) :
    Yields env maxHeight (items ++ [.call f ns.length]) [n] :=
  h.snoc fun _ => Item.apply_call_eq_ok_iff.mpr ⟨n, hn, hle, rfl⟩

theorem nil : Yields env maxHeight [] [] := fun _ => rfl

end Yields

end Formula
