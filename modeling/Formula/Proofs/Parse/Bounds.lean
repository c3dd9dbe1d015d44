/-
Formula.Proofs.Parse.Bounds — a parse keeps its limits.

What `Formula.Proofs.Scan.Bounds` says of one scan is closed here over the
parts of markup: no tree of a parse is higher than the limit, whatever its
markup, except that a single leaf is always allowed (`height_le_of_parse`),
and no list with a tree needs more levels than it was given
(`levels_le_of_parseWithin`).
-/
import Formula.Proofs.Parse.Levels
import Formula.Proofs.Parse.Limits
import Formula.Proofs.Scan.Bounds

namespace Formula

namespace Context

variable {ctx : Context} {bound : Nat} {m : Measured}

/-! ## 1. The values of tokens -/

/-- A node that a context allowed to grow. -/
theorem height_le_of_grow (hlimit : ctx.limits.maxHeight ≤ bound) {heights : List Nat}
    {n : Expr} (h : (do
      let height ← ctx.grow heights
      Except.ok (Measured.mk n height)) = .ok m) : m.height ≤ bound := by
  obtain ⟨hle, hm⟩ := Item.grow_bind_eq_ok_iff.mp h
  cases hm
  exact Nat.le_trans hle hlimit

theorem height_le_of_call (hlimit : ctx.limits.maxHeight ≤ bound) {f : Lexeme}
    {delimiters : Delimiters} {elements : List (List Token)}
    (h : ctx.call f delimiters elements = .ok m) : m.height ≤ bound := by
  unfold call at h
  split at h
  · cases h
  · split at h
    · cases h
    · obtain ⟨arguments, -, h⟩ := bind_eq_ok_iff.mp h
      obtain ⟨hle, h⟩ := Item.grow_bind_eq_ok_iff.mp h
      obtain ⟨n, -, h⟩ := bind_eq_ok_iff.mp h
      cases h
      exact Nat.le_trans hle hlimit

theorem height_le_of_group (hlimit : ctx.limits.maxHeight ≤ bound)
    (hparts : ∀ ts v, ctx.nested ts = .ok v → v.height ≤ bound) {delimiters : Delimiters}
    {elements : List (List Token)} (h : ctx.group delimiters elements = .ok m) :
    m.height ≤ bound := by
  unfold group at h
  split at h
  · cases h
  · rename_i grouping _
    split at h
    · obtain ⟨inner, hinner, h⟩ := bind_eq_ok_iff.mp h
      cases grouping with
      | plain =>
        cases h
        exact hparts _ _ hinner
      | bars => exact height_le_of_grow hlimit h
    · cases h
    · cases h

theorem height_le_of_application (hlimit : ctx.limits.maxHeight ≤ bound) {name : List Token}
    {delimiters : Delimiters} {elements : List (List Token)}
    (h : ctx.application name delimiters elements = .ok m) : m.height ≤ bound := by
  unfold application at h
  split at h
  · exact height_le_of_call hlimit h
  · obtain ⟨call, -, h⟩ := bind_eq_ok_iff.mp h
    obtain ⟨exponent, -, h⟩ := bind_eq_ok_iff.mp h
    exact height_le_of_grow hlimit h
  · cases h

/-- No token has a value that is too high, if no part of one is. -/
theorem height_le_of_value (hone : 1 ≤ bound) (hlimit : ctx.limits.maxHeight ≤ bound)
    (hparts : ∀ ts v, ctx.nested ts = .ok v → v.height ≤ bound) {t : Token}
    (h : ctx.value t = .ok m) : m.height ≤ bound := by
  cases t with
  | lexeme l =>
    obtain ⟨n, -, h⟩ := bind_eq_ok_iff.mp h
    cases h
    exact hone
  | fraction numerator denominator =>
    obtain ⟨a, -, h⟩ := bind_eq_ok_iff.mp h
    obtain ⟨b, -, h⟩ := bind_eq_ok_iff.mp h
    exact height_le_of_grow hlimit h
  | superscript base exponent =>
    obtain ⟨a, -, h⟩ := bind_eq_ok_iff.mp h
    obtain ⟨b, -, h⟩ := bind_eq_ok_iff.mp h
    exact height_le_of_grow hlimit h
  | radical base degree =>
    cases degree with
    | nil =>
      obtain ⟨a, -, h⟩ := bind_eq_ok_iff.mp h
      exact height_le_of_grow hlimit h
    | cons t rest =>
      obtain ⟨a, -, h⟩ := bind_eq_ok_iff.mp h
      obtain ⟨b, -, h⟩ := bind_eq_ok_iff.mp h
      exact height_le_of_grow hlimit h
  | group delimiters elements => exact height_le_of_group hlimit hparts h
  | application name delimiters elements => exact height_le_of_application hlimit h

end Context

/-! ## 2. Parses -/

variable {env : Environment} {limits : Limits}

/-- One scan, with the parts as a hypothesis. -/
theorem Context.height_le_of_run {ctx : Context} {bound : Nat} {tokens : List Token}
    {m : Measured} (hone : 1 ≤ bound) (hlimit : ctx.limits.maxHeight ≤ bound)
    (hparts : ∀ ts v, ctx.nested ts = .ok v → v.height ≤ bound)
    (h : Scan.run ctx tokens = .ok m) : m.height ≤ bound := by
  refine Scan.height_le_of_run hlimit (fun v hv => ?_) h
  rcases hv with ⟨t, hv⟩ | ⟨f, delimiters, elements, hv⟩
  · exact height_le_of_value hone hlimit hparts hv
  · exact height_le_of_call hlimit hv

theorem height_le_of_parseWithin {room bound : Nat} {tokens : List Token} {m : Measured}
    (hone : 1 ≤ bound) (hlimit : limits.maxHeight ≤ bound)
    (h : parseWithin env limits room tokens = .ok m) : m.height ≤ bound := by
  induction room generalizing tokens m with
  | zero =>
    rw [parseWithin_eq_run] at h
    refine Context.height_le_of_run hone hlimit (fun ts v hv => ?_) h
    cases hv
  | succ room ih =>
    rw [parseWithin_eq_run] at h
    exact Context.height_le_of_run hone hlimit (fun ts v hv => ih hv) h

/-- No tree of a parse is higher than the limit; a leaf is always
allowed. -/
theorem height_le_of_parse {tokens : List Token} {n : Expr} (h : parse env limits tokens = .ok n) :
    n.height ≤ max 1 limits.maxHeight :=
  height_le_of_parseWithin (Nat.le_max_left _ _) (Nat.le_max_right _ _) (parse_eq_ok_iff.mp h)

/-- The lists in the tokens of a list have formulas if the list has one. -/
theorem Scan.exists_part_of_mem_sublists {ctx : Context} (hctx : ctx.ExactParts)
    {tokens us : List Token} {m : Measured} (h : run ctx tokens = .ok m) {t : Token}
    (ht : t ∈ tokens) (hus : us ∈ t.sublists) : ∃ n, ctx.parts us n := by
  obtain ⟨s, queue, hscan, -, -⟩ := run_eq_ok_iff.mp h
  obtain ⟨before, after, hstep⟩ := exists_step_of_mem hscan ht
  cases step_eq_ok_iff.mp hstep with
  | operand _ _ _ hv => exact (Context.value_eq_ok hctx hv).2.exists_of_mem_sublists hus
  | groupCall _ hv => exact (Context.call_eq_ok hctx hv).2.exists_of_mem hus
  | _ => cases hus

/-- The lists in the tokens of a list are parsed with it, with one level
less. -/
theorem exists_parse_of_mem_sublists {room : Nat} {tokens us : List Token} {m : Measured}
    (h : parseWithin env limits room tokens = .ok m) {t : Token} (ht : t ∈ tokens)
    (hus : us ∈ t.sublists) :
    ∃ (k : Nat) (n : Expr), room = k + 1 ∧ parseWithin env limits k us = .ok n.measured := by
  rw [parseWithin_eq_run] at h
  have hexact := Context.exactParts_within env limits room
  obtain ⟨n, hn⟩ := Scan.exists_part_of_mem_sublists hexact h ht hus
  obtain ⟨k, hk, hparse⟩ := Context.parts_within_iff.mp hn
  exact ⟨k, n, hk, hparse⟩

/-- A list that has a tree needs no more levels than it was given. -/
theorem levels_le_of_parseWithin {room : Nat} {tokens : List Token} {m : Measured}
    (h : parseWithin env limits room tokens = .ok m) : Token.levels tokens ≤ room := by
  induction room using Nat.strongRecOn generalizing tokens m with
  | ind room ih =>
    refine Token.levels_le_iff.mpr ⟨?_, fun t ht us hus => ?_⟩
    · rw [parseWithin_eq_run] at h
      simpa using Scan.peak_le_of_run h
    · obtain ⟨k, n, rfl, hparse⟩ := exists_parse_of_mem_sublists h ht hus
      exact Nat.succ_le_succ (ih k (Nat.lt_succ_self k) hparse)

/-- A list that has a tree never opens more parentheses than the limit. -/
theorem peak_le_of_parse {tokens : List Token} {n : Expr} (h : parse env limits tokens = .ok n) :
    Token.peak 0 tokens ≤ limits.maxDepth := by
  have hrun := parse_eq_ok_iff.mp h
  rw [parseWithin_eq_run] at hrun
  simpa using Scan.peak_le_of_run hrun

end Formula
