/-
Formula.Proofs.Outcome — what a result can be, a value or an error.

Many statements about a parse speak of its formula only. Those that also
say which errors can arise follow the parse bind by bind in the same way:
`Ends P E r` says that `r` is a value with the property `P` or an error with
the property `E`.

Statements about two parses follow both of them side by side: `Both P E r r'`
says that `r` and `r'` are two values in the relation `P` or two errors in the
relation `E`.
-/
import Mathlib.Data.List.Forall2

namespace Formula

/-- A bind fails where one of its parts does. -/
theorem bind_eq_error_iff {ε α β : Type} {x : Except ε α} {f : α → Except ε β} {e : ε} :
    (x >>= f) = .error e ↔ x = .error e ∨ ∃ a, x = .ok a ∧ f a = .error e := by
  cases x with
  | error e' => simp [bind, Except.bind]
  | ok a => simp [bind, Except.bind]

/-- A result is a value with one property, or an error with another. -/
def Ends {ε α : Type} (P : α → Prop) (E : ε → Prop) : Except ε α → Prop
  | .ok a => P a
  | .error e => E e

namespace Ends

variable {ε α β : Type} {P : α → Prop} {Q : β → Prop} {E : ε → Prop}

theorem iff_forall {r : Except ε α} :
    Ends P E r ↔ (∀ a, r = .ok a → P a) ∧ ∀ e, r = .error e → E e := by
  cases r with
  | error e => simp [Ends]
  | ok a => simp [Ends]

theorem mono {P' : α → Prop} {E' : ε → Prop} {r : Except ε α} (h : Ends P E r)
    (hP : ∀ a, P a → P' a) (hE : ∀ e, E e → E' e) : Ends P' E' r := by
  cases r with
  | error e => exact hE e h
  | ok a => exact hP a h

theorem bind {x : Except ε α} {f : α → Except ε β} (hx : Ends P E x)
    (hf : ∀ a, P a → Ends Q E (f a)) : Ends Q E (x >>= f) := by
  cases x with
  | error e => exact hx
  | ok a => exact hf a hx

/-- A fold keeps what each of its steps keeps, where the property may speak
of what is still to be folded. -/
theorem foldlM {step : β → α → Except ε β} {P : List α → β → Prop}
    (hstep : ∀ b x rest, P (x :: rest) b → Ends (P rest) E (step b x)) {xs : List α} {b : β}
    (hb : P xs b) : Ends (P []) E (xs.foldlM step b) := by
  induction xs generalizing b with
  | nil => exact hb
  | cons x rest ih =>
    rw [List.foldlM_cons]
    exact (hstep b x rest hb).bind fun _ hc => ih hc

theorem foldlM_snoc {step : β → α → Except ε β} {P : β → Prop} {xs : List α} {x : α} {b : β}
    (hxs : Ends P E (xs.foldlM step b)) (hx : ∀ c, P c → Ends Q E (step c x)) :
    Ends Q E ((xs ++ [x]).foldlM step b) := by
  rw [List.foldlM_append]
  exact hxs.bind fun c hc => (hx c hc).bind fun _ h => h

end Ends

/-- Two results are two values in one relation, or two errors in another. -/
def Both {ε α β : Type} (P : α → β → Prop) (E : ε → ε → Prop) : Except ε α → Except ε β → Prop
  | .ok a, .ok b => P a b
  | .error e, .error e' => E e e'
  | _, _ => False

namespace Both

variable {ε α α' β β' : Type} {P : α → α' → Prop} {Q : β → β' → Prop} {E : ε → ε → Prop}

theorem refl {P : α → α → Prop} (hP : ∀ a, P a a) (hE : ∀ e, E e e) (x : Except ε α) :
    Both P E x x := by
  cases x with
  | error e => exact hE e
  | ok a => exact hP a

theorem bind {x : Except ε α} {x' : Except ε α'} {f : α → Except ε β} {f' : α' → Except ε β'}
    (hx : Both P E x x') (hf : ∀ a a', P a a' → Both Q E (f a) (f' a')) :
    Both Q E (x >>= f) (x' >>= f') := by
  match x, x', hx with
  | .ok a, .ok a', hx => exact hf a a' hx
  | .error e, .error e', hx => exact hx

/-- A bind after results of which the second is a function of the first. -/
theorem bind_map {g : α → α'} {x : Except ε α} {x' : Except ε α'} {f : α → Except ε β}
    {f' : α' → Except ε β'} (hx : Both (fun a a' => a' = g a) E x x')
    (hf : ∀ a, Both Q E (f a) (f' (g a))) : Both Q E (x >>= f) (x' >>= f') := by
  refine hx.bind fun a a' ha => ?_
  obtain rfl := ha
  exact hf a

theorem ite {c : Prop} [Decidable c] {x y : Except ε α} {x' y' : Except ε α'}
    (hx : c → Both P E x x') (hy : ¬ c → Both P E y y') :
    Both P E (if c then x else y) (if c then x' else y') := by
  split
  · exact hx ‹_›
  · exact hy ‹_›

theorem map (f : α → α') (x : Except ε α) (hE : ∀ e, E e e) :
    Both (fun a a' => a' = f a) E x (x.map f) := by
  cases x with
  | error e => exact hE e
  | ok a => rfl

/-- Folds stay in a relation in which each pair of their steps stays. -/
theorem foldlM {γ γ' : Type} {R : γ → γ' → Prop} {step : α → γ → Except ε α}
    {step' : α' → γ' → Except ε α'} {xs : List γ} {xs' : List γ'} {a : α} {a' : α'}
    (hxs : List.Forall₂ R xs xs') (ha : P a a')
    (hstep : ∀ a a' x x', P a a' → R x x' → Both P E (step a x) (step' a' x')) :
    Both P E (xs.foldlM step a) (xs'.foldlM step' a') := by
  induction hxs generalizing a a' with
  | nil => exact ha
  | cons hx _ ih =>
    rw [List.foldlM_cons, List.foldlM_cons]
    exact (hstep _ _ _ _ ha hx).bind fun _ _ hb => ih hb

end Both

end Formula
