/-
Formula.Proofs.Parse.Unlimited — the parse without limits.

Limits of the size of a list refuse nothing (`parseWithin_not_refused`), so
a parse within them is the parse without limits. Within any others, a parse
has the same result, a tree or an error, or it is refused for a limit
(`parse_eq_unlimited_or_refused`). Which of the two is decided by the list
and its tree alone: by the levels that the list needs, and the height of the
tree (`parse_within_limits`).

The first argument is one of weight. What a scan puts on its stack and into its
queue weighs no more than what it has read, where a value weighs its height
and an operator or a call one. The reduction turns items into heights, and
a node is no higher than the values and the item that it comes from weigh.
-/
import Formula.Proofs.Parse.Bounds
import Formula.Proofs.Parse.Refusals

namespace Formula

open Token

/-- Whether an error refuses its input for a limit. -/
def ParseError.isRefusal : ParseError → Bool
  | .nestingTooDeep _ => true
  | _ => false

/-! ## 1. Weights -/

/-- How much an item can add to the height of a tree. -/
def Item.weight : Item → Nat
  | .value v => v.height
  | .operator _ _ => 1
  | .call _ _ => 1

/-- How much the item that an entry becomes can add. -/
def Pending.weight : Pending → Nat
  | .operator _ _ => 1
  | .paren _ => 0
  | .call _ _ => 1

/-- The weight of a queue. -/
def Item.weights : List Item → Nat
  | [] => 0
  | item :: rest => item.weight + weights rest

/-- The weight of a stack. -/
def Pending.weights : List Pending → Nat
  | [] => 0
  | entry :: below => entry.weight + weights below

theorem Item.weights_append (items others : List Item) :
    weights (items ++ others) = weights items + weights others := by
  induction items with
  | nil => simp [weights]
  | cons item rest ih =>
    simp only [List.cons_append, weights, ih]
    omega

/-- Popping moves weight from the stack to the queue. -/
theorem weights_popOperators (p : Operator → Bool) (stack : List Pending) :
    Item.weights (popOperators p stack).1 + Pending.weights (popOperators p stack).2 =
      Pending.weights stack := by
  induction stack with
  | nil => rfl
  | cons entry below ih =>
    cases entry with
    | operator op l =>
      rw [popOperators]
      split
      · simp only [Item.weights, Pending.weights, Item.weight, Pending.weight]
        omega
      · exact Nat.zero_add _
    | paren l => exact Nat.zero_add _
    | call f count => exact Nat.zero_add _

/-! ## 2. The reduction -/

/-- The heights of a stack of values together. -/
def Measured.heights : List Measured → Nat
  | [] => 0
  | v :: rest => v.height + heights rest

theorem Measured.heights_append (values others : List Measured) :
    heights (values ++ others) = heights values + heights others := by
  induction values with
  | nil => simp [heights]
  | cons v rest ih =>
    simp only [List.cons_append, heights, ih]
    omega

theorem Measured.heights_take_add_drop (count : Nat) (values : List Measured) :
    heights (values.take count) + heights (values.drop count) = heights values := by
  rw [← heights_append, List.take_append_drop]

theorem Measured.height_le_heights {v : Measured} {values : List Measured} (h : v ∈ values) :
    v.height ≤ heights values := by
  induction values with
  | nil => cases h
  | cons w rest ih =>
    rw [heights]
    rcases List.mem_cons.mp h with rfl | h
    · exact Nat.le_add_right _ _
    · exact Nat.le_trans (ih h) (Nat.le_add_left _ _)

variable {env : Environment} {limits : Limits} {maxHeight : Nat}

theorem CallError.isRefusal_eq {name : String} {count : Nat} {e : ParseError}
    (h : CallError env name count e) : e.isRefusal = false := by
  cases h with
  | arity _ _ => rfl
  | undefined _ => rfl

theorem UnfitCall.isRefusal_eq {f : Lexeme} {delimiters : Delimiters}
    {elements : List (List Token)} {e : ParseError} (h : UnfitCall env f delimiters elements e) :
    e.isRefusal = false := by
  cases h with
  | call _ h => exact h.isRefusal_eq
  | _ => rfl

theorem Token.Unfit.isRefusal_eq {t : Token} {e : ParseError} (h : t.Unfit env e) :
    e.isRefusal = false := by
  cases h with
  | call _ h => exact h.isRefusal_eq
  | _ => rfl

/-- A node that weighs no more than the limit is built, and takes the place
of what it weighs. -/
theorem node_light {heights : List Nat} {below : List Measured} {top : Nat}
    {f : Nat → Except ParseError Expr} (hbound : heights.foldl max 0 ≤ top)
    (hlimit : top + 1 + Measured.heights below ≤ maxHeight)
    (hf : ∀ height, Ends (fun _ => True) (·.isRefusal = false) (f height)) :
    Ends (Measured.heights · ≤ top + 1 + Measured.heights below) (·.isRefusal = false) (do
      let height ← grow maxHeight heights
      let n ← f height
      .ok (⟨n, height⟩ :: below)) := by
  rw [grow_eq_ok_iff.mpr ⟨rfl, by omega⟩]
  exact (hf _).bind fun n _ => Nat.add_le_add_right (Nat.succ_le_succ hbound) _

theorem Item.apply_light {values : List Measured} {item : Item}
    (h : Measured.heights values + item.weight ≤ maxHeight) :
    Ends (Measured.heights · ≤ Measured.heights values + item.weight) (·.isRefusal = false)
      (item.apply env maxHeight values) := by
  cases item with
  | value v => exact Nat.le_of_eq (Nat.add_comm _ _)
  | operator op l =>
    cases op with
    | sign s =>
      rcases values with _ | ⟨a, below⟩
      · rfl
      · simp only [Measured.heights, weight] at h ⊢
        have hbound : [a.height].foldl max 0 ≤ a.height := by simp
        exact (node_light (f := fun _ => .ok (.signed s a.expr)) hbound (by omega)
          fun _ => trivial).mono (fun _ _ => by omega) fun _ he => he
    | _ =>
      rcases values with _ | ⟨b, _ | ⟨a, below⟩⟩
      · rfl
      · rfl
      · simp only [Measured.heights, weight] at h ⊢
        have hbound : [a.height, b.height].foldl max 0 ≤ a.height + b.height := by
          simp only [List.foldl_cons, List.foldl_nil]
          omega
        exact (node_light (f := fun _ => .ok (join _ a.expr b.expr)) hbound (by omega)
          fun _ => trivial).mono (fun _ _ => by omega) fun _ he => he
  | call f count =>
    rw [apply]
    split
    · rfl
    · have hsplit := Measured.heights_take_add_drop count values
      have hbound : ((values.take count).reverse.map Measured.height).foldl max 0 ≤
          Measured.heights (values.take count) := by
        refine foldl_max_le_iff.mpr ⟨Nat.zero_le _, fun k hk => ?_⟩
        obtain ⟨v, hv, rfl⟩ := List.mem_map.mp hk
        exact Measured.height_le_heights (List.mem_reverse.mp hv)
      have hcall : ∀ arguments, Ends (fun _ => True) (·.isRefusal = false)
          (env.call f.text arguments) := fun arguments =>
        (Environment.call_ends f.text arguments).mono (fun _ h => h) fun _ he => he.isRefusal_eq
      simp only [weight] at h ⊢
      exact (node_light hbound (by omega) fun _ => hcall _).mono (fun _ _ => by omega)
        fun _ he => he

/-- A queue that weighs no more than the limit is not refused. -/
theorem reduce_light {queue : List Item} (h : Item.weights queue ≤ maxHeight) :
    Ends (fun _ => True) (·.isRefusal = false) (reduce env maxHeight queue) := by
  have hstep : ∀ values item rest,
      Measured.heights values + Item.weights (item :: rest) ≤ maxHeight →
        Ends (fun out => Measured.heights out + Item.weights rest ≤ maxHeight)
          (·.isRefusal = false) (item.apply env maxHeight values) := by
    intro values item rest hle
    rw [Item.weights] at hle
    exact (Item.apply_light (by omega)).mono (fun out hout => by omega) fun _ he => he
  have hstart : Measured.heights [] + Item.weights queue ≤ maxHeight := by
    simpa [Measured.heights] using h
  refine (Ends.foldlM (P := fun rest values =>
    Measured.heights values + Item.weights rest ≤ maxHeight) hstep hstart).bind fun values _ => ?_
  match values with
  | [] => rfl
  | [v] => trivial
  | v :: extra :: _ => rfl

/-! ## 3. The scan -/

theorem Token.depthAfter_le (t : Token) (depth : Nat) : t.depthAfter depth ≤ depth + t.size := by
  have := t.size_pos
  unfold depthAfter
  split
  · split <;> omega
  · omega

namespace Scan

variable {ctx : Context} {s s' : Scan} {t : Token} {rest : List Token}

/-- What the items and entries of a yard weigh together. -/
def weight (s : Scan) : Nat := Item.weights s.yard.queue.toList + Pending.weights s.yard.stack

/-- The invariant of a scan: its limits have room for what is still to be
read. -/
structure Light (ctx : Context) (rest : List Token) (s : Scan) : Prop where
  parens : s.openParens + sizes rest ≤ ctx.room
  weight : s.weight + sizes rest ≤ ctx.limits.maxHeight

theorem weight_pushValue (s : Scan) (v : Measured) (last : Token) :
    (s.pushValue v last).weight = s.weight + v.height := by
  simp only [weight, pushValue, Yard.pushValue, Array.toList_push, Item.weights_append,
    Item.weights, Item.weight]
  omega

theorem weight_pushOperator (s : Scan) (op : Operator) (l : Lexeme) :
    Item.weights (s.yard.pushOperator op l).queue.toList +
      Pending.weights (s.yard.pushOperator op l).stack = s.weight + 1 := by
  have := weights_popOperators (·.yieldsTo op) s.yard.stack
  simp only [weight, Yard.pushOperator, Array.toList_appendList, Item.weights_append,
    Pending.weights, Pending.weight]
  omega

/-- No token adds more weight than its size, if its value does not. -/
theorem Moves.weight_le (hmove : Moves ctx s t s')
    (hvalue : ∀ v, ctx.value t = .ok v → v.height ≤ t.size)
    (hcall : ∀ f delimiters elements v, t = .group delimiters elements →
      ctx.call f delimiters elements = .ok v → v.height ≤ t.size) :
    s'.weight ≤ s.weight + t.size := by
  have hpopped := weights_popOperators (fun _ => true) s.yard.stack
  cases hmove with
  | operand _ _ _ hv =>
    rw [weight_pushValue]
    exact Nat.add_le_add_left (hvalue _ hv) _
  | @groupCall f delimiters elements v _ hv =>
    have hpush : s.weight + v.height = (s.pushValue v (.group delimiters elements)).weight :=
      (weight_pushValue s v _).symm
    exact Nat.le_trans (Nat.le_of_eq hpush.symm) (Nat.add_le_add_left (hcall _ _ _ _ rfl hv) _)
  | functionName _ _ _ _ => exact Nat.le_add_right _ _
  | openCall _ _ _ =>
    simp only [weight, Yard.pushCall, Pending.weights, Pending.weight, size]
    omega
  | openParen _ _ _ _ =>
    simp only [weight, Yard.pushParen, Pending.weights, Pending.weight, size]
    omega
  | closeCall _ _ _ hpop =>
    rw [hpop] at hpopped
    simp only [weight, Array.toList_push, Array.toList_appendList, Item.weights_append,
      Item.weights, Pending.weights, Item.weight, Pending.weight,
      size] at hpopped ⊢
    omega
  | closeParen _ _ _ _ hpop _ =>
    rw [hpop] at hpopped
    simp only [weight, Array.toList_appendList, Item.weights_append, Pending.weights,
      Pending.weight, size] at hpopped ⊢
    omega
  | separator _ _ _ _ hpop =>
    rw [hpop] at hpopped
    simp only [weight, Array.toList_appendList, Item.weights_append, Pending.weights,
      Pending.weight, size] at hpopped ⊢
    omega
  | @sign l sign _ _ _ => exact Nat.le_of_eq (weight_pushOperator s (.sign sign) l)
  | @operator l op _ _ _ _ => exact Nat.le_of_eq (weight_pushOperator s op l)

/-- One token within limits that have room for it. -/
theorem Light.step (h : Light ctx (t :: rest) s)
    (hvalue : Ends (Measured.Fits t.size) (·.isRefusal = false) (ctx.value t))
    (hcall : ∀ f delimiters elements, t = .group delimiters elements →
      Ends (Measured.Fits t.size) (·.isRefusal = false) (ctx.call f delimiters elements)) :
    Ends (Light ctx rest) (·.isRefusal = false) (step ctx s t) := by
  obtain ⟨hparens, hweight⟩ := h
  rw [sizes] at hparens hweight
  refine Ends.iff_forall.mpr ⟨fun s' hs' => ?_, fun e he => ?_⟩
  · have hmove := step_eq_ok_iff.mp hs'
    have hdepth := t.depthAfter_le s.openParens
    have hadded := hmove.weight_le (fun v hv => ((Ends.iff_forall.mp hvalue).1 v hv).2)
      fun f d elements v ht hv => ((Ends.iff_forall.mp (hcall f d elements ht)).1 v hv).2
    exact ⟨by rw [hmove.openParens_eq]; omega, by omega⟩
  · cases refuses_of_step he with
    | operand _ _ _ hv => exact (Ends.iff_forall.mp hvalue).2 e hv
    | groupCall _ hv => exact (Ends.iff_forall.mp (hcall _ _ _ rfl)).2 e hv
    | noRoom _ _ hroom =>
      rw [size] at hparens
      omega
    | _ => rfl

/-- The end of a list is refused for no limit, and puts out all the
weight. -/
theorem finish_light (h : s.weight ≤ maxHeight) :
    Ends (Item.weights · ≤ maxHeight) (·.isRefusal = false) s.finish := by
  refine Ends.iff_forall.mpr ⟨fun queue hqueue => ?_, fun e he => ?_⟩
  · obtain ⟨-, -, hpop, rfl⟩ := finish_eq_ok_iff.mp hqueue
    have hpopped := weights_popOperators (fun _ => true) s.yard.stack
    rw [hpop] at hpopped
    rw [weight] at h
    rw [Item.weights_append]
    omega
  · unfold finish Yard.drain at he
    simp only at he
    split at he
    · cases he
      rfl
    · split at he
      · cases he
        cases s.previous <;> rfl
      · split at he <;> cases he <;> rfl

/-- One scan, with the parts as a hypothesis. -/
theorem run_light {tokens : List Token}
    (hnested : ∀ us, sizes us < sizes tokens →
      Ends (Measured.Fits (sizes us)) (·.isRefusal = false) (ctx.nested us))
    (hroom : sizes tokens ≤ ctx.room) (hheight : sizes tokens ≤ ctx.limits.maxHeight) :
    Ends (fun _ => True) (·.isRefusal = false) (run ctx tokens) := by
  have hstep : ∀ s t rest, Light ctx (t :: rest) s ∧ sizes (t :: rest) ≤ sizes tokens →
      Ends (fun s' => Light ctx rest s' ∧ sizes rest ≤ sizes tokens) (·.isRefusal = false)
        (step ctx s t) := by
    rintro s t rest ⟨hs, hle⟩
    have hlimit := hs.weight
    rw [sizes] at hle hlimit
    have hparts : ∀ us, sizes us < t.size →
        Ends (Measured.Fits (sizes us)) (·.isRefusal = false) (ctx.nested us) :=
      fun us hus => hnested us (by omega)
    have hlow : ¬ ctx.limits.maxHeight < t.size := by omega
    have hvalue := Context.value_ends hparts (fun e he => he.isRefusal_eq) (absurd · hlow)
    refine (hs.step hvalue ?_).mono (fun s' hs' => ⟨hs', by omega⟩) fun e he => he
    rintro f delimiters elements rfl
    exact Context.call_ends
      (fun us hus => hparts us (Nat.lt_succ_of_le (sizes_le_elementSizes hus)))
      (fun e he => he.isRefusal_eq) (absurd · hlow)
  have hstart : Light ctx tokens .start ∧ sizes tokens ≤ sizes tokens := by
    refine ⟨⟨?_, ?_⟩, Nat.le_refl _⟩
    · simpa [start] using hroom
    · simpa [weight, start, Yard.empty, Item.weights, Pending.weights] using hheight
  refine (Ends.foldlM (P := fun rest s => Light ctx rest s ∧ sizes rest ≤ sizes tokens)
    hstep hstart).bind fun s hs => ?_
  exact (finish_light hs.1.weight).bind fun queue hqueue => reduce_light hqueue

end Scan

/-! ## 4. Parses -/

/-- Limits of the size of a list do not refuse it. -/
theorem parseWithin_not_refused {room : Nat} {tokens : List Token} (hroom : sizes tokens ≤ room)
    (hheight : sizes tokens ≤ limits.maxHeight) :
    Ends (Measured.Fits (sizes tokens)) (·.isRefusal = false)
      (parseWithin env limits room tokens) := by
  refine parseWithin_ends ?_
  induction room generalizing tokens with
  | zero =>
    rw [parseWithin_eq_run]
    exact Scan.run_light (fun us hus => by omega) (by simpa using hroom) (by simpa using hheight)
  | succ room ih =>
    rw [parseWithin_eq_run]
    refine Scan.run_light (fun us hus => ?_) (by simpa using hroom) (by simpa using hheight)
    exact parseWithin_ends (ih (by omega) (by omega))

/-- The formula of a list of tokens, without limits on its depth and
height. -/
def parseUnlimited (env : Environment) (tokens : List Token) : Except ParseError Expr :=
  parse env ⟨sizes tokens, sizes tokens⟩ tokens

theorem not_refused_of_sizes_le {tokens : List Token} (hdepth : sizes tokens ≤ limits.maxDepth)
    (hheight : sizes tokens ≤ limits.maxHeight) : ¬ Refused limits (parse env limits tokens) := by
  have hends : Ends (Measured.Fits (sizes tokens)) (·.isRefusal = false)
      (parseWithin env limits limits.maxDepth tokens) := parseWithin_not_refused hdepth hheight
  unfold parse
  cases h : parseWithin env limits limits.maxDepth tokens with
  | ok m =>
    rintro (hok | hok)
    · cases hok
    · cases hok
  | error e =>
    rw [h] at hends
    rintro (he | he)
    · cases he
      cases hends
    · cases he
      cases hends

/-- Within limits of the size of the list, a parse has the result that it has
without limits. -/
theorem parse_eq_unlimited {tokens : List Token} (hdepth : sizes tokens ≤ limits.maxDepth)
    (hheight : sizes tokens ≤ limits.maxHeight) :
    parse env limits tokens = parseUnlimited env tokens := by
  rcases parse_agree env limits ⟨sizes tokens, sizes tokens⟩ tokens with h | h | h
  · exact h
  · exact absurd h (not_refused_of_sizes_le hdepth hheight)
  · exact absurd h (not_refused_of_sizes_le (Nat.le_refl _) (Nat.le_refl _))

/-- Within any limits, a parse has the result that it has without limits, a
tree or an error, or it is refused for one of them. -/
theorem parse_eq_unlimited_or_refused (env : Environment) (limits : Limits)
    (tokens : List Token) :
    parse env limits tokens = parseUnlimited env tokens ∨
      Refused limits (parse env limits tokens) := by
  rcases parse_agree env limits ⟨sizes tokens, sizes tokens⟩ tokens with h | h | h
  · exact .inl h
  · exact .inr h
  · exact absurd h (not_refused_of_sizes_le (Nat.le_refl _) (Nat.le_refl _))

theorem parseUnlimited_eq_ok_iff {tokens : List Token} {n : Expr} :
    parseUnlimited env tokens = .ok n ↔ Derives env.lexicon .equation tokens n := by
  refine parse_eq_ok_iff.trans ⟨Environment.derives_of_parseWithin, fun h => ?_⟩
  exact Environment.parseWithin_of_derives h (Nat.le_refl _) (Nat.le_refl _)

/-! ## 5. What limits refuse -/

/-- A list with a tree has this tree within limits exactly if the list needs
no more levels and the tree is no higher than they allow, and is refused
otherwise; and a list without a tree has none within any limits. -/
theorem parse_within_limits (env : Environment) (limits : Limits) (tokens : List Token)
    (hone : 1 ≤ limits.maxHeight) :
    (∀ unlimited : Limits, sizes tokens ≤ unlimited.maxDepth →
      sizes tokens ≤ unlimited.maxHeight →
        parse env unlimited tokens = parseUnlimited env tokens) ∧
    (∀ n, parseUnlimited env tokens = .ok n →
      (levels tokens ≤ limits.maxDepth ∧ n.height ≤ limits.maxHeight →
        parse env limits tokens = .ok n) ∧
      (¬ (levels tokens ≤ limits.maxDepth ∧ n.height ≤ limits.maxHeight) →
        Refused limits (parse env limits tokens))) ∧
    (∀ e, parseUnlimited env tokens = .error e →
      parse env limits tokens = .error e ∨ Refused limits (parse env limits tokens)) := by
  have hsame := parse_eq_unlimited_or_refused env limits tokens
  refine ⟨fun unlimited => parse_eq_unlimited, fun n hn => ⟨?_, ?_⟩, fun e he => ?_⟩
  · rintro ⟨hlevels, hheight⟩
    have hderives := parseUnlimited_eq_ok_iff.mp hn
    exact parse_eq_ok_iff.mpr (Environment.parseWithin_of_levels_le hderives hlevels hheight)
  · intro hnot
    rcases hsame with hok | hrefused
    · rw [hn] at hok
      have hlevels := levels_le_of_parseWithin (parse_eq_ok_iff.mp hok)
      have hheight := height_le_of_parse hok
      exact absurd ⟨hlevels, by omega⟩ hnot
    · exact hrefused
  · exact hsame.imp_left fun h => h.trans he

/-- At the limits of a fraction in parentheses. -/
theorem parse_within_limits_fraction :
    parse .standard ⟨1, 2⟩ [.lexeme (.punctuation .leftParen),
      .fraction [.lexeme (.variableName "x")] [.lexeme (.variableName "y")],
      .lexeme (.punctuation .rightParen)] =
        .ok (.arithmetic .divide (.free "x") (.free "y")) ∧
    Refused ⟨0, 2⟩ (parse .standard ⟨0, 2⟩ [.lexeme (.punctuation .leftParen),
      .fraction [.lexeme (.variableName "x")] [.lexeme (.variableName "y")],
      .lexeme (.punctuation .rightParen)]) ∧
    Refused ⟨1, 1⟩ (parse .standard ⟨1, 1⟩ [.lexeme (.punctuation .leftParen),
      .fraction [.lexeme (.variableName "x")] [.lexeme (.variableName "y")],
      .lexeme (.punctuation .rightParen)]) := by
  refine ⟨?_, ?_, ?_⟩
  · exact ((parse_within_limits .standard ⟨1, 2⟩ _ (by decide)).2.1 _ rfl).1 (by decide)
  · exact ((parse_within_limits .standard ⟨0, 2⟩ _ (by decide)).2.1 _ rfl).2 (by decide)
  · exact ((parse_within_limits .standard ⟨1, 1⟩ _ (by decide)).2.1
      (.arithmetic .divide (.free "x") (.free "y")) rfl).2 (by decide)

end Formula
