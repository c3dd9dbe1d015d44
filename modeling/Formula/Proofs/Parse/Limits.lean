/-
Formula.Proofs.Parse.Limits — what limits change.

Two parses of one list within different limits have the same result, a tree
or an error, except that either may be refused for one of its own limits
(`parseWithin_agree`).

A parse is a scan whose context parses the parts of markup with one level
less, so what is said here of a parse is shown for one scan first, with the
parts as a hypothesis (`Context.Agrees`), and then by induction on the
levels that are left.
-/
import Formula.Proofs.Parse.Size

namespace Formula

open Token

/-! ## 1. Contexts of a parse -/

/-- The context in which a parse scans its list. -/
def Context.within (env : Environment) (limits : Limits) : Nat → Context
  | 0 => ⟨env, limits, 0, fun _ => .error (.nestingTooDeep limits.maxDepth)⟩
  | room + 1 => ⟨env, limits, room + 1, parseWithin env limits room⟩

namespace Context

variable (env : Environment) (limits : Limits) (room : Nat)

@[simp] theorem within_environment : (within env limits room).environment = env := by
  cases room <;> rfl

@[simp] theorem within_limits : (within env limits room).limits = limits := by
  cases room <;> rfl

@[simp] theorem within_room : (within env limits room).room = room := by
  cases room <;> rfl

end Context

theorem parseWithin_eq_run (env : Environment) (limits : Limits) (room : Nat)
    (tokens : List Token) :
    parseWithin env limits room tokens = Scan.run (.within env limits room) tokens := by
  cases room <;> rfl

/-- The heights that a parse counts are right. -/
theorem Context.exactParts_within (env : Environment) (limits : Limits) (room : Nat) :
    (within env limits room).ExactParts := by
  induction room with
  | zero =>
    intro ts m h
    cases h
  | succ room ih =>
    intro ts m h
    have h : parseWithin env limits room ts = .ok m := h
    rw [parseWithin_eq_run] at h
    exact (Scan.derives_of_run (exact_of_exactParts ih) h).2

theorem Context.exact_within (env : Environment) (limits : Limits) (room : Nat) :
    (within env limits room).Exact := exact_of_exactParts (exactParts_within env limits room)

/-- The parts that a token has where levels are left are lists that parse
with one level less. -/
theorem Context.parts_within_iff {env : Environment} {limits : Limits} {room : Nat}
    {ts : List Token} {n : Expr} :
    (within env limits room).parts ts n ↔
      ∃ k, room = k + 1 ∧ parseWithin env limits k ts = .ok n.measured := by
  cases room with
  | zero =>
    constructor
    · intro h
      cases h
    · rintro ⟨k, hk, -⟩
      cases hk
  | succ room =>
    constructor
    · intro h
      exact ⟨room, rfl, h⟩
    · rintro ⟨k, hk, h⟩
      cases hk
      exact h

theorem parse_eq_ok_iff {env : Environment} {limits : Limits} {tokens : List Token} {n : Expr} :
    parse env limits tokens = .ok n ↔
      parseWithin env limits limits.maxDepth tokens = .ok n.measured := by
  unfold parse
  cases h : parseWithin env limits limits.maxDepth tokens with
  | error e => simp [Except.map]
  | ok m =>
    rw [parseWithin_eq_run] at h
    have hexact := (Scan.derives_of_run (Context.exact_within env limits _) h).2
    rw [hexact]
    simp only [Except.map, Except.ok.injEq]
    constructor
    · rintro rfl
      rfl
    · intro heq
      exact congrArg Measured.expr heq

/-! ## 2. Results within different limits -/

/-- A result that refuses its input for one of the limits. -/
def Refused {α : Type} (limits : Limits) (r : Except ParseError α) : Prop :=
  r = .error (.nestingTooDeep limits.maxDepth) ∨ r = .error (.nestingTooDeep limits.maxHeight)

/-- Two results, each within its own limits, are the same unless one of them
is a refusal. -/
def Agree {α : Type} (limits limits' : Limits) (r r' : Except ParseError α) : Prop :=
  r = r' ∨ Refused limits r ∨ Refused limits' r'

namespace Agree

variable {α β : Type} {limits limits' : Limits}

theorem refl (r : Except ParseError α) : Agree limits limits' r r := .inl rfl

theorem bind {x x' : Except ParseError α} {f f' : α → Except ParseError β}
    (hx : Agree limits limits' x x') (hf : ∀ a, Agree limits limits' (f a) (f' a)) :
    Agree limits limits' (x >>= f) (x' >>= f') := by
  rcases hx with rfl | (rfl | rfl) | rfl | rfl
  · cases x with
    | error e => exact .refl _
    | ok a => exact hf a
  · exact .inr (.inl (.inl rfl))
  · exact .inr (.inl (.inr rfl))
  · exact .inr (.inr (.inl rfl))
  · exact .inr (.inr (.inr rfl))

theorem map {x x' : Except ParseError α} (f : α → β) (h : Agree limits limits' x x') :
    Agree limits limits' (x.map f) (x'.map f) := by
  rcases h with rfl | (rfl | rfl) | rfl | rfl
  · exact .refl _
  · exact .inr (.inl (.inl rfl))
  · exact .inr (.inl (.inr rfl))
  · exact .inr (.inr (.inl rfl))
  · exact .inr (.inr (.inr rfl))

theorem ite {c : Prop} [Decidable c] {a a' b b' : Except ParseError α}
    (ha : Agree limits limits' a a') (hb : Agree limits limits' b b') :
    Agree limits limits' (if c then a else b) (if c then a' else b') := by
  split
  · exact ha
  · exact hb

theorem foldlM {f f' : β → α → Except ParseError β}
    (hf : ∀ b x, Agree limits limits' (f b x) (f' b x)) (xs : List α) (b : β) :
    Agree limits limits' (xs.foldlM f b) (xs.foldlM f' b) := by
  induction xs generalizing b with
  | nil => exact .refl _
  | cons x rest ih =>
    rw [List.foldlM_cons, List.foldlM_cons]
    exact (hf b x).bind ih

theorem grow (heights : List Nat) :
    Agree limits limits' (grow limits.maxHeight heights) (grow limits'.maxHeight heights) := by
  cases h : Formula.grow limits.maxHeight heights with
  | error e => exact .inr (.inl (.inr (by rw [eq_of_grow_eq_error h])))
  | ok height =>
    cases h' : Formula.grow limits'.maxHeight heights with
    | error e => exact .inr (.inr (.inr (by rw [eq_of_grow_eq_error h'])))
    | ok height' =>
      obtain ⟨rfl, -⟩ := grow_eq_ok_iff.mp h
      obtain ⟨rfl, -⟩ := grow_eq_ok_iff.mp h'
      exact .refl _

/-- A node over children of the same heights. -/
theorem node {heights : List Nat} {f : Nat → Except ParseError α} :
    Agree limits limits' (Formula.grow limits.maxHeight heights >>= f)
      (Formula.grow limits'.maxHeight heights >>= f) := (grow heights).bind fun _ => .refl _

theorem apply (env : Environment) (values : List Measured) (item : Item) :
    Agree limits limits' (item.apply env limits.maxHeight values)
      (item.apply env limits'.maxHeight values) := by
  cases item with
  | value v => exact .refl _
  | operator op l =>
    cases op with
    | sign s =>
      rcases values with _ | ⟨a, below⟩
      · exact .refl _
      · exact node
    | _ =>
      rcases values with _ | ⟨b, _ | ⟨a, below⟩⟩
      · exact .refl _
      · exact .refl _
      · exact node
  | call f count => exact ite (.refl _) node

theorem reduce (env : Environment) (queue : List Item) :
    Agree limits limits' (reduce env limits.maxHeight queue) (reduce env limits'.maxHeight queue) :=
  (foldlM (apply env) queue []).bind fun _ => .refl _

end Agree

/-! ## 3. Scans within different limits -/

/-- Two contexts with the same names, in which the parts of markup have the
same results. -/
structure Context.Agrees (ctx ctx' : Context) : Prop where
  environment : ctx.environment = ctx'.environment
  nested : ∀ us, Agree ctx.limits ctx'.limits (ctx.nested us) (ctx'.nested us)

namespace Context.Agrees

variable {ctx ctx' : Context} (h : ctx.Agrees ctx')

include h

theorem leaf (l : Lexeme) : ctx.leaf l = ctx'.leaf l := by
  unfold Context.leaf
  rw [h.environment]

theorem arguments (elements : List (List Token)) :
    Agree ctx.limits ctx'.limits (ctx.arguments elements) (ctx'.arguments elements) := by
  induction elements with
  | nil => exact .refl _
  | cons element rest ih => exact (h.nested element).bind fun _ => ih.bind fun _ => .refl _

theorem call (f : Lexeme) (delimiters : Delimiters) (elements : List (List Token)) :
    Agree ctx.limits ctx'.limits (ctx.call f delimiters elements)
      (ctx'.call f delimiters elements) := by
  unfold Context.call
  rw [h.environment]
  exact .ite (.refl _) (.ite (.refl _) ((h.arguments _).bind fun _ => .node))

/-- Markup over two lists. -/
theorem pair (ts us : List Token) (node : Measured → Measured → Nat → Measured) :
    Agree ctx.limits ctx'.limits
      (do
        let a ← ctx.nested ts
        let b ← ctx.nested us
        let height ← ctx.grow [a.height, b.height]
        .ok (node a b height))
      (do
        let a ← ctx'.nested ts
        let b ← ctx'.nested us
        let height ← ctx'.grow [a.height, b.height]
        .ok (node a b height)) :=
  (h.nested ts).bind fun _ => (h.nested us).bind fun _ => .node

theorem group (delimiters : Delimiters) (elements : List (List Token)) :
    Agree ctx.limits ctx'.limits (ctx.group delimiters elements)
      (ctx'.group delimiters elements) := by
  unfold Context.group
  cases grouping? delimiters with
  | none => exact .refl _
  | some grouping =>
    match elements with
    | [] => exact .refl _
    | [element] =>
      refine (h.nested element).bind fun inner => ?_
      cases grouping with
      | plain => exact .refl _
      | bars => exact .node
    | _ :: _ :: _ => exact .refl _

theorem application (name : List Token) (delimiters : Delimiters)
    (elements : List (List Token)) :
    Agree ctx.limits ctx'.limits (ctx.application name delimiters elements)
      (ctx'.application name delimiters elements) := by
  unfold Context.application
  rw [h.environment]
  cases calledFunction? ctx'.environment name with
  | none => exact .refl _
  | some called =>
    obtain ⟨f, exponent⟩ := called
    cases exponent with
    | none => exact h.call f delimiters elements
    | some exponent =>
      exact (h.call f delimiters elements).bind fun _ => (h.nested exponent).bind fun _ => .node

theorem value (t : Token) : Agree ctx.limits ctx'.limits (ctx.value t) (ctx'.value t) := by
  cases t with
  | lexeme l =>
    have hleaf : Agree ctx.limits ctx'.limits (ctx.leaf l) (ctx'.leaf l) := .inl (h.leaf l)
    exact hleaf.bind fun _ => .refl _
  | fraction numerator denominator =>
    exact h.pair numerator denominator fun a b => .mk (.arithmetic .divide a.expr b.expr)
  | superscript base exponent =>
    exact h.pair base exponent fun a b => .mk (.power a.expr b.expr)
  | radical base degree =>
    cases degree with
    | nil => exact (h.nested base).bind fun _ => .node
    | cons t rest => exact h.pair base (t :: rest) fun a b => .mk (.root a.expr b.expr)
  | group delimiters elements => exact h.group delimiters elements
  | application name delimiters elements => exact h.application name delimiters elements

omit h in
theorem needRoom (s : Scan) : Agree ctx.limits ctx'.limits (s.needRoom ctx) (s.needRoom ctx') := by
  unfold Scan.needRoom
  split
  · exact .inr (.inl (.inl rfl))
  · split
    · exact .inr (.inr (.inl rfl))
    · exact .refl _

theorem lexeme (s : Scan) (l : Lexeme) :
    Agree ctx.limits ctx'.limits (s.lexeme ctx l) (s.lexeme ctx' l) := by
  have hleaf := (Agree.refl (s.needOperand (.lexeme l))).bind fun _ =>
    (h.value (.lexeme l)).bind fun v => .refl (.ok (s.pushValue v (.lexeme l)))
  unfold Scan.lexeme
  cases l.kind with
  | number => exact hleaf
  | constantName => exact hleaf
  | variableName => exact hleaf
  | functionName =>
    unfold Scan.functionName
    rw [h.environment]
    exact .refl _
  | leftParen => exact (Agree.refl _).bind fun _ => (needRoom s).bind fun _ => .refl _
  | _ => exact .refl _

theorem step (s : Scan) (t : Token) :
    Agree ctx.limits ctx'.limits (s.step ctx t) (s.step ctx' t) := by
  unfold Scan.step
  cases s.called with
  | some f =>
    cases t with
    | group delimiters elements =>
      exact (h.call f delimiters elements).bind fun _ => .refl _
    | lexeme l => exact .ite ((needRoom s).bind fun _ => .refl _) (.refl _)
    | _ => exact .refl _
  | none =>
    cases t with
    | lexeme l => exact h.lexeme s l
    | _ => exact (Agree.refl _).bind fun _ => (h.value _).bind fun _ => .refl _

/-- One scan, with the parts as a hypothesis. -/
theorem run (tokens : List Token) :
    Agree ctx.limits ctx'.limits (Scan.run ctx tokens) (Scan.run ctx' tokens) := by
  unfold Scan.run
  rw [h.environment]
  exact (Agree.foldlM h.step tokens .start).bind fun _ =>
    (Agree.refl _).bind fun queue => .reduce _ queue

end Context.Agrees

/-! ## 4. Parses within different limits -/

variable {env : Environment} {limits limits' : Limits}

/-- Two parses of one list within different limits have the same result,
unless one of them refuses it. -/
theorem parseWithin_agree (room room' : Nat) (tokens : List Token) :
    Agree limits limits' (parseWithin env limits room tokens)
      (parseWithin env limits' room' tokens) := by
  have hrun : ∀ room room', (∀ us, Agree limits limits'
      ((Context.within env limits room).nested us) ((Context.within env limits' room').nested us)) →
        ∀ tokens, Agree limits limits' (parseWithin env limits room tokens)
          (parseWithin env limits' room' tokens) := by
    intro room room' hnested tokens
    have hagrees : (Context.within env limits room).Agrees (.within env limits' room') :=
      ⟨by simp, by simpa using hnested⟩
    simpa [parseWithin_eq_run] using hagrees.run tokens
  induction room generalizing room' tokens with
  | zero => exact hrun 0 room' (fun us => .inr (.inl (.inl rfl))) tokens
  | succ room ih =>
    cases room' with
    | zero => exact hrun _ 0 (fun us => .inr (.inr (.inl rfl))) tokens
    | succ room' => exact hrun (room + 1) (room' + 1) (ih room') tokens

theorem parse_agree (env : Environment) (limits limits' : Limits) (tokens : List Token) :
    Agree limits limits' (parse env limits tokens) (parse env limits' tokens) :=
  (parseWithin_agree limits.maxDepth limits'.maxDepth tokens).map Measured.expr

/-- What a list has within some limits, it has within others, unless these
refuse it for its depth. -/
theorem parseWithin_gives {room room' : Nat} {tokens : List Token} {m : Measured}
    (h : parseWithin env limits' room' tokens = .ok m) :
    Gives True (parseWithin env limits room tokens) m := by
  have hagree : Agree limits limits' (parseWithin env limits room tokens)
      (parseWithin env limits' room' tokens) := parseWithin_agree room room' tokens
  rw [h] at hagree
  rcases hagree with hok | (hdeep | hhigh) | hnever | hnever
  · exact .inl hok
  · exact .inr ⟨trivial, _, hdeep⟩
  · exact .inr ⟨trivial, _, hhigh⟩
  · cases hnever
  · cases hnever

end Formula
