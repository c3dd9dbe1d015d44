/-
Formula.Proofs.Postfix.Reduction — a queue and the tree that it reduces to.

A queue is in postfix order, and so are the words of a tree. The reduction takes
the items of a queue one after the other and keeps trees on a stack, so at any
time the words of these trees, the deepest tree first, are those of the items
that it has taken (`Applies.stackWords_eq`). In the end there is one tree, and
its words are those of the whole queue (`words_of_reduce`): each item is in the
tree once, and no operands have changed places.

This holds of any queue that reduces, whether or not a scan can put it out. The
heights that are counted along are those of the trees if they are so in the
queue.
-/
import Formula.Environment.Standard
import Formula.Expr.Postfix
import Formula.Proofs.Scan.Reduction

namespace Formula

namespace Item

/-! ## 1. Words -/

/-- The words of an item: those of a value, or one word. -/
def words : Item → List String
  | .value v => v.expr.words
  | .operator op _ => [op.word]
  | .call name _ => [name.text]

/-- The words of a stack of values, its top last. -/
def stackWords (values : List Measured) : List String :=
  values.reverse.flatMap fun v => v.expr.words

theorem stackWords_cons (v : Measured) (values : List Measured) :
    stackWords (v :: values) = stackWords values ++ v.expr.words := by
  simp [stackWords]

/-- The arguments of a call are on a stack in the order of their words. -/
theorem stackWords_arguments (arguments below : List Measured) :
    stackWords (arguments.reverse ++ below) =
      stackWords below ++ (arguments.map Measured.expr).flatMap Expr.words := by
  simp [stackWords, List.flatMap_map]

theorem words_join {op : Operator} (hop : op.left?.isSome = true) (a b : Expr) :
    (join op a b).words = a.words ++ b.words ++ [op.word] := by
  cases op with
  | sign s => cases hop
  | _ => rfl

variable {env : Environment} {maxHeight : Nat} {item : Item} {values out : List Measured}

theorem words_call {name : String} {arguments : List Expr} {n : Expr}
    (h : env.call name arguments = .ok n) : n.words = arguments.flatMap Expr.words ++ [name] := by
  unfold Environment.call at h
  split at h
  · split at h
    · cases h
      rw [Expr.words, Expr.wordsOfList_eq_flatMap]
    · cases h
  · cases h

/-! ## 2. One item -/

/-- An item puts its words behind those of the stack. -/
theorem Applies.stackWords_eq (h : Applies env maxHeight values item out) :
    stackWords out = stackWords values ++ item.words := by
  cases h with
  | value v => exact stackWords_cons v values
  | sign _ =>
    rw [stackWords_cons, stackWords_cons, List.append_assoc]
    rfl
  | operator hop _ =>
    rw [stackWords_cons, stackWords_cons, stackWords_cons, words_join hop]
    simp only [List.append_assoc, words]
  | call _ hn =>
    rw [stackWords_cons, stackWords_arguments, words_call hn, List.append_assoc]
    rfl

/-- Over values with their heights, an item builds a node with its height. -/
theorem Applies.height_eq (h : Applies env maxHeight values item out)
    (hvalues : ∀ v ∈ values, v.height = v.expr.height)
    (hitem : ∀ v, item = .value v → v.height = v.expr.height) :
    ∀ v ∈ out, v.height = v.expr.height := by
  cases h with
  | value v => exact List.forall_mem_cons.mpr ⟨hitem v rfl, hvalues⟩
  | @sign s l a below height hheight =>
    obtain ⟨ha, hbelow⟩ := List.forall_mem_cons.mp hvalues
    obtain ⟨rfl, -⟩ := grow_eq_ok_iff.mp hheight
    refine List.forall_mem_cons.mpr ⟨?_, hbelow⟩
    simp [Expr.height, ha]
  | @operator op l a b below height hop hheight =>
    obtain ⟨hb, hrest⟩ := List.forall_mem_cons.mp hvalues
    obtain ⟨ha, hbelow⟩ := List.forall_mem_cons.mp hrest
    obtain ⟨rfl, -⟩ := grow_eq_ok_iff.mp hheight
    refine List.forall_mem_cons.mpr ⟨?_, hbelow⟩
    simp [height_join hop, ha, hb]
  | @call f n below height arguments hheight hn =>
    obtain ⟨harguments, hbelow⟩ := List.forall_mem_append.mp hvalues
    obtain ⟨rfl, -⟩ := grow_eq_ok_iff.mp hheight
    have hheights :
        arguments.map Measured.height = (arguments.map Measured.expr).map Expr.height := by
      rw [List.map_map]
      exact List.map_congr_left fun v hv => harguments v (List.mem_reverse.mpr hv)
    refine List.forall_mem_cons.mpr ⟨?_, hbelow⟩
    rw [height_call hn, hheights, Expr.heightOfList_eq_foldl]

/-! ## 3. All items -/

theorem stackWords_of_foldlM {items : List Item}
    (h : items.foldlM (apply env maxHeight) values = .ok out) :
    stackWords out = stackWords values ++ items.flatMap words := by
  induction items generalizing values with
  | nil =>
    cases h
    simp
  | cons item rest ih =>
    rw [List.foldlM_cons] at h
    obtain ⟨mid, hmid, hrest⟩ := bind_eq_ok_iff.mp h
    rw [ih hrest, (applies_of_apply hmid).stackWords_eq, List.flatMap_cons, List.append_assoc]

theorem height_eq_of_foldlM {items : List Item}
    (hvalues : ∀ v ∈ values, v.height = v.expr.height)
    (hitems : ∀ v, .value v ∈ items → v.height = v.expr.height)
    (h : items.foldlM (apply env maxHeight) values = .ok out) :
    ∀ v ∈ out, v.height = v.expr.height := by
  refine foldlM_preserves (P := fun values => ∀ v ∈ values, v.height = v.expr.height)
    (fun values item out hmem hvalues hout => ?_) hvalues h
  exact (applies_of_apply hout).height_eq hvalues fun v hv => hitems v (hv ▸ hmem)

end Item

/-- A tree that a queue reduces to has the words of the items of the queue, in
their order. It comes with its height if each value in the queue does. -/
theorem words_of_reduce (env : Environment) (maxHeight : Nat) (queue : List Item) (root : Measured)
    (h : reduce env maxHeight queue = .ok root) :
    root.expr.words = queue.flatMap Item.words ∧
      ((∀ v, .value v ∈ queue → v.height = v.expr.height) → root.height = root.expr.height) := by
  have hfold := reduce_eq_ok_iff.mp h
  constructor
  · have hwords := Item.stackWords_of_foldlM hfold
    simpa [Item.stackWords] using hwords
  · intro hvalues
    have hnone : ∀ v ∈ ([] : List Measured), v.height = v.expr.height := nofun
    exact Item.height_eq_of_foldlM hnone hvalues hfold root List.mem_cons_self

/-- The root of the negative of `x - y`, with the degree `a^b`, which is in the
queue as a value of its own. -/
def rootQueue : List Item :=
  [.value ⟨.free "x", 1⟩, .value ⟨.free "y", 1⟩,
    .operator (.arithmetic .subtract) (.punctuation .minus),
    .operator (.sign .minus) (.punctuation .minus),
    .value ⟨.power (.free "a") (.free "b"), 2⟩, .call (.functionName "root") 2]

/-- What the queue reduces to. -/
def rootOfDifference : Measured :=
  ⟨.call "root" (Body.binary Number.realRoot)
    [.signed .minus (.arithmetic .subtract (.free "x") (.free "y")),
      .power (.free "a") (.free "b")], 4⟩

theorem words_of_reduce_root :
    reduce .standard 4 rootQueue = .ok rootOfDifference ∧
      rootOfDifference.expr.words = ["x", "y", "-", "neg", "a", "b", "^", "root"] ∧
      (∀ v, .value v ∈ rootQueue → v.height = v.expr.height) ∧
      rootOfDifference.height = rootOfDifference.expr.height := by
  have h : reduce .standard 4 rootQueue = .ok rootOfDifference := rfl
  have hvalues : ∀ v, .value v ∈ rootQueue → v.height = v.expr.height := by
    intro v hv
    simp only [rootQueue, List.mem_cons, Item.value.injEq, reduceCtorEq, List.not_mem_nil, or_false,
      false_or] at hv
    rcases hv with rfl | rfl | rfl <;> rfl
  obtain ⟨hwords, hheight⟩ := words_of_reduce .standard 4 rootQueue rootOfDifference h
  exact ⟨h, hwords, hvalues, hheight hvalues⟩

end Formula
