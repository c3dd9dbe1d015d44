/-
Formula.Proofs.Lexeme.Separation — where one lexeme ends and the next begins.

A text that was put together from the texts of single lexemes splits into
them again if each is followed by something that cannot belong to it.
Numbers and names end at a blank, at a parenthesis, at a comma and at the
sign of a power (`Stops`); signs of punctuation end wherever they stand,
except for `*`, which would become the beginning of `**`.

`append_of_alone` is the general statement for numbers and names: what is a
lexeme when it is read alone is the same lexeme in front of a stop. The
side condition cannot be dropped, since `x` in front of `1` is the name
`x1`. In front of a blank any table will do (`Reader.lexemes_append_gap`); the
other stops are those of the standard table, and a table that continued a
symbol with one of them would not stop there.
-/
import Formula.Proofs.Grammar
import Formula.Proofs.Lexeme.Gaps

namespace Formula

/-! ## 1. The table of symbols -/

namespace Trie

theorem longestFrom_ne_none (kind : LexemeKind) (children : List (Char × Trie))
    (cs : List Char) : longestFrom (.node (some kind) children) cs ≠ none := by
  cases cs with
  | nil => simp [longestFrom]
  | cons c cs =>
    rw [longestFrom]
    split <;> simp

end Trie

/-- Whether a kind is that of a number or a name. -/
def LexemeKind.isWord (kind : LexemeKind) : Bool := kind.symbol?.isNone

theorem LexemeKind.isWord_of_isOperand {kind : LexemeKind} (h : kind.isOperand = true) :
    kind.isWord = true := by
  cases kind with
  | number | constantName | variableName => rfl
  | _ => cases h

namespace SymbolMap

theorem unspaced_mathSymbols : Unspaced mathSymbols := unspaced_of_all rfl

/-- No symbol is a number or a name. -/
theorem isWord_of_standard {cs : List Char} {n : Nat} {kind : LexemeKind}
    (h : standard.longest? cs = some (n, kind)) : kind.isWord = false := by
  have hall : mathSymbols.all (fun entry => !entry.2.isWord) = true := rfl
  obtain ⟨htext, -⟩ := finds_standard.isLongest h
  simpa using List.all_eq_true.mp hall _ htext.mem

/-- The tries below the root of the table. -/
def roots : List (Char × Trie) :=
  match Trie.ofEntries mathSymbols with
  | .node _ children => children

theorem standard_longest?_cons (c : Char) (cs : List Char) :
    standard.longest? (c :: cs) =
      ((Dictionary.get? roots c).bind fun child => child.longestFrom cs).map
        fun found => (found.1 + 1, found.2) := rfl

/-- Whether a text starts with a symbol depends on its first character
only, since each first character of a symbol is a symbol by itself. -/
theorem standard_longest?_eq_none_iff {c : Char} {cs : List Char} :
    standard.longest? (c :: cs) = none ↔ Dictionary.get? roots c = none := by
  have hroots : ∀ e ∈ roots, ∃ kind children, e.2 = .node (some kind) children := by
    have hall : roots.all (fun e => match e.2 with
      | .node (some _) _ => true
      | .node none _ => false) = true := rfl
    intro e he
    have := List.all_eq_true.mp hall e he
    rcases e with ⟨d, ⟨_ | kind, children⟩⟩
    · cases this
    · exact ⟨kind, children, rfl⟩
  rw [standard_longest?_cons, Option.map_eq_none_iff, Option.bind_eq_none_iff]
  constructor
  · intro h
    cases hc : Dictionary.get? roots c with
    | none => rfl
    | some child =>
      obtain ⟨kind, children, hchild⟩ := hroots _ (Dictionary.mem_of_get? hc)
      have hnone := h child hc
      rw [show child = _ from hchild] at hnone
      exact absurd hnone (Trie.longestFrom_ne_none kind children cs)
  · intro h child hc
    rw [h] at hc
    cases hc

/-- A character is the usual spelling of a kind, and no longer symbol starts with
it. -/
def Single (c : Char) (kind : LexemeKind) : Prop :=
  kind.symbol? = some (String.ofList [c]) ∧ mathSymbols.reverse.lookup [c] = some kind ∧
    ∀ entry ∈ mathSymbols, entry.1.head? = some c → entry.1 = [c]

instance (c : Char) (kind : LexemeKind) : Decidable (Single c kind) :=
  inferInstanceAs (Decidable (_ ∧ _ ∧ _))

/-- Such a symbol is the longest one wherever it stands. -/
theorem Single.isLongest {c : Char} {kind : LexemeKind} (h : Single c kind) (rest : List Char) :
    IsLongest mathSymbols (c :: rest) [c] kind where
  ne_nil := List.cons_ne_nil c []
  front := ⟨rest, rfl⟩
  last := h.2.1
  longest entry hmem hfront := by
    cases htext : entry.1 with
    | nil => exact Nat.zero_le _
    | cons d ds =>
      rw [htext] at hfront
      obtain ⟨rfl, -⟩ := List.cons_prefix_cons.mp hfront
      rw [← htext, h.2.2 entry hmem (by rw [htext]; rfl)]

end SymbolMap

/-! ## 2. Stops -/

/-- What may follow a number or a name: nothing, or a character that ends
it. -/
def Stops (rest : List Char) : Prop := ∀ c ∈ rest.head?, c ∈ [' ', '(', ')', ',', '^']

theorem Stops.nil : Stops [] := by
  intro c hc
  cases hc

theorem Stops.cons {c : Char} {rest : List Char} (h : c ∈ [' ', '(', ')', ',', '^']) :
    Stops (c :: rest) := by
  intro d hd
  cases hd
  exact h

/-- A stop belongs to no name and to no numeral. -/
theorem Stops.head {rest : List Char} (h : Stops rest) :
    ∀ c ∈ rest.head?, Text.isNamePart c = false ∧ c.isDigit = false ∧ c ≠ '.' := by
  have hall : ∀ c ∈ [' ', '(', ')', ',', '^'],
      Text.isNamePart c = false ∧ c.isDigit = false ∧ c ≠ '.' := by
    intro c hc
    simp only [List.mem_cons, List.not_mem_nil, or_false] at hc
    rcases hc with rfl | rfl | rfl | rfl | rfl <;> exact ⟨rfl, rfl, by decide⟩
  intro c hc
  exact hall c (h c hc)

/-! ## 3. Numbers and names -/

namespace Reader

variable {env : Environment}

/-- How a lexeme is taken from the front of a text: as a sign of the table
or, where the text starts with none, as a numeral, as a name, or as a
character by itself. -/
inductive Takes (env : Environment) : List Char → Lexeme → List Char → Prop
  | sign {cs : List Char} {n : Nat} {kind : LexemeKind}
      (h : SymbolMap.standard.longest? cs = some (n, kind)) :
      Takes env cs ⟨kind, String.ofList (cs.take n)⟩ (cs.drop n)
  | numeral {c : Char} {cs numeral rest : List Char}
      (hc : Dictionary.get? SymbolMap.roots c = none)
      (h : Number.splitNumeral (c :: cs) = some (numeral, rest)) :
      Takes env (c :: cs) (.number (String.ofList numeral)) rest
  | name {c : Char} {parts rest : List Char} (hc : Dictionary.get? SymbolMap.roots c = none)
      (hletter : Text.isAlphabetic c = true) (hparts : ∀ d ∈ parts, Text.isNamePart d = true)
      (hrest : ∀ d ∈ rest.head?, Text.isNamePart d = false) :
      Takes env (c :: (parts ++ rest))
        ⟨env.classify (String.ofList (c :: parts)), String.ofList (c :: parts)⟩ rest
  | character {c : Char} {rest : List Char} (hc : Dictionary.get? SymbolMap.roots c = none)
      (hletter : Text.isAlphabetic c = false) (h : Number.splitNumeral (c :: rest) = none) :
      Takes env (c :: rest) (.variableName (String.ofList [c])) rest

theorem takes_of_take? {cs rest : List Char} {l : Lexeme}
    (h : (standard env).take? cs = some (l, rest)) : Takes env cs l rest := by
  rw [take?_eq_some_iff] at h
  cases h with
  | symbol h => exact .sign h
  | numeral hsymbol h =>
    cases cs with
    | nil => cases h
    | cons c cs => exact .numeral (SymbolMap.standard_longest?_eq_none_iff.mp hsymbol) h
  | @name c cs hsymbol hletter =>
    have hc := SymbolMap.standard_longest?_eq_none_iff.mp hsymbol
    have hname : Takes env
        (c :: (cs.takeWhile Text.isNamePart ++ cs.dropWhile Text.isNamePart)) _ _ :=
      .name hc hletter (fun _ hd => List.mem_takeWhile_imp hd) fun d hd => by
        have := List.head?_dropWhile_not Text.isNamePart cs
        rw [Option.mem_def.mp hd] at this
        simpa using this
    rw [List.takeWhile_append_dropWhile] at hname
    exact hname
  | character hsymbol hnumeral hletter =>
    exact .character (SymbolMap.standard_longest?_eq_none_iff.mp hsymbol) hletter hnumeral

namespace Takes

variable {cs rest : List Char} {l : Lexeme}

theorem take?_eq_some (h : Takes env cs l rest) : (standard env).take? cs = some (l, rest) := by
  have hsymbols : ∀ {c : Char} (ds : List Char), Dictionary.get? SymbolMap.roots c = none →
      (standard env).symbols.longest? (c :: ds) = none :=
    fun _ hc => SymbolMap.standard_longest?_eq_none_iff.mpr hc
  refine take?_eq_some_iff.mpr ?_
  cases h with
  | sign h => exact .symbol h
  | numeral hc h => exact .numeral (hsymbols _ hc) h
  | @name c parts rest hc hletter hparts hrest =>
    obtain ⟨htake, hdrop⟩ := Number.takeWhile_dropWhile_append hparts hrest
    have hcut : (standard env).Cuts (c :: (parts ++ rest)) _ _ := .name (hsymbols _ hc) hletter
    rw [htake, hdrop] at hcut
    exact hcut
  | character hc hletter h => exact .character (hsymbols _ hc) h hletter

/-- What is a number or a name when it is read alone is the same in front of
a stop. -/
theorem append (h : Takes env cs l []) (hk : l.kind.isWord = true) (hrest : Stops rest) :
    Takes env (cs ++ rest) l rest := by
  generalize hnil : ([] : List Char) = tail at h
  cases h with
  | sign h =>
    rw [SymbolMap.isWord_of_standard h] at hk
    cases hk
  | numeral hc h =>
    subst hnil
    obtain rfl : _ = _ :: _ := by simpa using Number.append_of_splitNumeral h
    have hnumeral := Number.isNumeral_of_splitNumeral h
    exact .numeral hc (Number.splitNumeral_append hnumeral fun d hd => (hrest.head d hd).2)
  | name hc hletter hparts _ =>
    subst hnil
    rw [List.append_nil]
    exact .name hc hletter hparts fun d hd => (hrest.head d hd).1
  | character hc hletter h =>
    subst hnil
    have hdigit := Number.isDigit_of_splitNumeral_eq_none h
    exact .character hc hletter
      (Number.splitNumeral_cons_eq_none hdigit fun d hd => (hrest.head d hd).2.1)

/-- Only declared functions are read as such. -/
theorem isFunction (h : Takes env cs l rest) (hk : l.kind = .functionName) :
    env.isFunction l.text = true := by
  cases h with
  | @sign _ _ kind h =>
    obtain rfl : kind = .functionName := hk
    cases SymbolMap.isWord_of_standard h
  | numeral _ _ => cases hk
  | name _ _ _ _ => exact Environment.classify_eq_functionName_iff.mp hk
  | character _ _ _ => cases hk

end Takes

/-- A lexeme that is alone in a text, without white space, is the whole
text. -/
theorem take?_of_alone {cs : List Char} {l : Lexeme} (h : (standard env).lexemes cs = [l])
    (hl : l.text.toList = cs) : Text.trimLeft cs = cs ∧ (standard env).take? cs = some (l, []) := by
  cases hnext : (standard env).next? cs with
  | none =>
    rw [lexemes_of_next?_eq_none hnext] at h
    cases h
  | some found =>
    obtain ⟨l', rest⟩ := found
    rw [lexemes_of_next?_eq_some hnext] at h
    obtain ⟨rfl, -⟩ := List.cons.inj h
    obtain ⟨happ, -⟩ := append_of_take? hnext
    have hle := Text.length_trimLeft_le cs
    have hlen := congrArg List.length happ
    rw [hl, List.length_append] at hlen
    obtain rfl : rest = [] := List.length_eq_zero_iff.mp (by omega)
    rw [List.append_nil, hl] at happ
    refine ⟨happ.symm, ?_⟩
    rw [next?, ← happ] at hnext
    exact hnext

/-- A number or a name that is one lexeme when it is read alone is that
lexeme in front of a stop. -/
theorem append_of_alone {cs rest : List Char} {l : Lexeme}
    (h : (standard env).lexemes cs = [l]) (hl : l.text.toList = cs)
    (hk : l.kind.isWord = true) (hrest : Stops rest) :
    (standard env).lexemes (cs ++ rest) = l :: (standard env).lexemes rest := by
  obtain ⟨htrim, htake⟩ := take?_of_alone h hl
  apply lexemes_of_next?_eq_some
  have htrim' : Text.trimLeft (cs ++ rest) = cs ++ rest := by
    cases cs with
    | nil => cases htake
    | cons c cs =>
      have hc := Text.isBlank_of_trimLeft_eq_cons htrim
      rw [List.cons_append, Text.trimLeft_cons, if_neg (by simp [hc])]
  rw [next?, htrim']
  exact ((takes_of_take? htake).append hk hrest).take?_eq_some

theorem lexemes_nil : (standard env).lexemes [] = [] := lexemes_of_next?_eq_none rfl

/-- A numeral is one lexeme. -/
theorem lexemes_numeral {cs : List Char} (h : Number.IsNumeral cs) :
    (standard env).lexemes cs = [.number (String.ofList cs)] := by
  obtain ⟨c, rest, rfl, hc⟩ := h.head
  have hblank : Text.isBlank c = false := h.isBlank_of_mem (by simp)
  have hsymbol : (standard env).symbols.longest? (c :: rest) = none := by
    refine SymbolMap.standard_longest?_eq_none_iff.mpr ?_
    have hroots : SymbolMap.roots.all (fun e => !e.1.isDigit && e.1 != '.') = true := rfl
    cases hget : Dictionary.get? SymbolMap.roots c with
    | none => rfl
    | some child =>
      have := List.all_eq_true.mp hroots _ (Dictionary.mem_of_get? hget)
      rcases hc with hc | rfl
      · simp [hc] at this
      · simp at this
  have hnext : (standard env).next? (c :: rest) =
      some (.number (String.ofList (c :: rest)), []) := by
    rw [next?, Text.trimLeft_cons, if_neg (by simp [hblank]), take?, hsymbol]
    simp only [Number.splitNumeral_self h]
  rw [lexemes_of_next?_eq_some hnext, lexemes_nil]

/-! ## 4. Signs of punctuation -/

theorem lexemes_blank (rest : List Char) :
    (standard env).lexemes (' ' :: rest) = (standard env).lexemes rest :=
  lexemes_congr rfl

/-- A symbol of one character that no other continues is one lexeme wherever it
stands. -/
theorem lexemes_single {c : Char} {kind : LexemeKind} (h : SymbolMap.Single c kind)
    (rest : List Char) :
    (standard env).lexemes (c :: rest) = .punctuation kind :: (standard env).lexemes rest := by
  have hlongest := h.isLongest rest
  have hblank : Text.isBlank c = false :=
    SymbolMap.unspaced_mathSymbols _ hlongest.mem c List.mem_cons_self
  have hfound : SymbolMap.standard.longest? (c :: rest) = some (1, kind) :=
    (SymbolMap.finds_standard _).eq_some_iff.mpr ⟨[c], hlongest, rfl⟩
  have htext : (⟨kind, String.ofList [c]⟩ : Lexeme) = .punctuation kind := by
    rw [Lexeme.punctuation, h.1, Option.getD_some]
  apply lexemes_of_next?_eq_some
  rw [next?, Text.trimLeft_cons, if_neg (by simp [hblank]), ← htext]
  exact (Takes.sign hfound).take?_eq_some

theorem lexemes_sign (s : Sign) (rest : List Char) :
    (standard env).lexemes (s.symbol.toList ++ rest) =
      .punctuation s.kind :: (standard env).lexemes rest := by
  cases s with
  | plus => exact lexemes_single (by decide) rest
  | minus => exact lexemes_single (by decide) rest

/-- The sign of an operation in front of a blank, so that `*` is not the
beginning of `**`. -/
theorem lexemes_arithmetic (op : Arithmetic) (rest : List Char) :
    (standard env).lexemes (op.symbol.toList ++ ' ' :: rest) =
      .punctuation op.kind :: (standard env).lexemes rest := by
  have hnext : (standard env).next? (op.symbol.toList ++ ' ' :: rest) =
      some (.punctuation op.kind, ' ' :: rest) := by cases op <;> rfl
  rw [lexemes_of_next?_eq_some hnext, lexemes_blank]

end Reader

/-- An operator as it stands between its operands, or a sign in front of one. -/
def Operator.spaced : Operator → String
  | .equals => " = "
  | .arithmetic op => " " ++ op.symbol ++ " "
  | .sign s => s.symbol
  | .power => "^"

theorem stops_spaced {op : Operator} (hop : op.left?.isSome = true) (rest : List Char) :
    Stops (op.spaced.toList ++ rest) := by
  cases op with
  | equals => exact .cons (by decide)
  | arithmetic op => cases op <;> exact .cons (by decide)
  | sign s => cases hop
  | power => exact .cons (by decide)

namespace Reader

/-- An operator between its operands is one lexeme. -/
theorem lexemes_spaced (op : Operator) (rest : List Char) :
    (standard env).lexemes (op.spaced.toList ++ rest) =
      .punctuation op.kind :: (standard env).lexemes rest := by
  cases op with
  | equals =>
    have htext : Operator.equals.spaced.toList ++ rest = ' ' :: '=' :: ' ' :: rest := rfl
    have hequals : SymbolMap.Single '=' .equals := by decide
    rw [htext, lexemes_blank, lexemes_single hequals, lexemes_blank]
    rfl
  | arithmetic op =>
    have htext : (Operator.arithmetic op).spaced.toList ++ rest =
        ' ' :: (op.symbol.toList ++ ' ' :: rest) := by simp [Operator.spaced]
    rw [htext, lexemes_blank, lexemes_arithmetic]
    rfl
  | sign s => exact lexemes_sign s rest
  | power => exact lexemes_single (by decide) rest

/-- A comma between arguments. -/
theorem lexemes_commaBlank (rest : List Char) :
    (standard env).lexemes (", ".toList ++ rest) =
      .punctuation .separator :: (standard env).lexemes rest := by
  have htext : ", ".toList ++ rest = ',' :: ' ' :: rest := rfl
  have hcomma : SymbolMap.Single ',' .separator := by decide
  rw [htext, lexemes_single hcomma, lexemes_blank]

/-! ## 5. Lexemes by themselves -/

/-- Each lexeme of a text is one lexeme when it is read alone. -/
theorem lexemes_text_of_mem {cs : List Char} {l : Lexeme} (hl : l ∈ (standard env).lexemes cs) :
    (standard env).lexemes l.text.toList = [l] :=
  lexemes_of_mem SymbolMap.finds_standard SymbolMap.unspaced_mathSymbols hl

end Reader

end Formula
