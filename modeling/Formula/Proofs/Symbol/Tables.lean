/-
Formula.Proofs.Symbol.Tables — all tables of symbols find the longest one.

Three tables are built from a list of entries: a trie that branches on
characters, buckets that are asked for one length after the other, and a walk
over a map from bytes. They search in different directions and stop at
different points, and two of them count in bytes.

Of each table it is proved first what a look-up of exactly one spelling
answers: the kind in the last entry that has it. The trie and the walk then keep
`Searched` as they read on; the walk may stop where its map is empty, since what
starts with the front that was read is all in it.
-/
import Formula.Proofs.Symbol.Longest
import Formula.Symbol.Trie
import Formula.Symbol.Buckets
import Formula.Symbol.ByteMap
import Formula.Lexeme.Reader

namespace Formula

/-- A table that later entries are added to one by one has the kinds of the
last entries. -/
theorem look_foldl {τ : Type} {look : τ → List Char → Option LexemeKind}
    {add : τ → SymbolEntry → τ} {text : List Char}
    (hadd : ∀ t entry, look (add t entry) text =
      if text = entry.1 then some entry.2 else look t text)
    (entries : List SymbolEntry) (t : τ) :
    look (entries.foldl add t) text = (entries.reverse.lookup text).or (look t text) := by
  induction entries generalizing t with
  | nil => rfl
  | cons entry rest ih =>
    obtain ⟨spelling, kind⟩ := entry
    rw [List.foldl_cons, ih, hadd, List.reverse_cons, List.lookup_append, Option.or_assoc]
    congr 1
    by_cases h : text = spelling
    · simp [h]
    · have hne : (text == spelling) = false := beq_eq_false_iff_ne.mpr h
      simp [h, List.lookup_cons, hne]

/-! ## 1. The trie -/

namespace Trie

/-- The symbol of a trie with exactly the given spelling. -/
def get? : Trie → List Char → Option LexemeKind
  | .node here _, [] => here
  | .node _ children, c :: cs => (Dictionary.get? children c).bind fun child => get? child cs

theorem get?_empty (text : List Char) : get? empty text = none := by
  cases text <;> rfl

theorem get?_insert (text other : List Char) (kind : LexemeKind) (t : Trie) :
    get? (insert text kind t) other = if other = text then some kind else get? t other := by
  induction text generalizing t other with
  | nil =>
    obtain ⟨here, children⟩ := t
    cases other <;> simp [insert, get?]
  | cons c cs ih =>
    obtain ⟨here, children⟩ := t
    cases other with
    | nil => simp [insert, get?]
    | cons d ds =>
      simp only [insert, get?, Dictionary.get?_set, List.cons.injEq]
      by_cases hd : d = c
      · subst hd
        simp only [if_true, Option.bind_some, ih, true_and]
        congr 1
        cases Dictionary.get? children d with
        | none => exact get?_empty ds
        | some child => rfl
      · simp [hd]

theorem get?_ofEntries (entries : List SymbolEntry) (text : List Char) :
    get? (ofEntries entries) text = if text = [] then none else entries.reverse.lookup text := by
  by_cases htext : text = []
  · subst htext
    have hroot : ∀ t : Trie, get? t [] = none →
        get? (entries.foldl (fun t entry =>
          if entry.1.isEmpty then t else t.insert entry.1 entry.2) t) [] = none := by
      induction entries with
      | nil => exact fun _ ht => ht
      | cons entry rest ih =>
        intro t ht
        refine ih _ ?_
        by_cases hempty : entry.1 = []
        · simp [hempty, ht]
        · simp [hempty, get?_insert, ht, Ne.symm hempty]
    rw [if_pos rfl]
    exact hroot empty rfl
  · have hadd : ∀ (t : Trie) (entry : SymbolEntry),
        get? (if entry.1.isEmpty then t else t.insert entry.1 entry.2) text =
          if text = entry.1 then some entry.2 else get? t text := by
      intro t entry
      by_cases hempty : entry.1 = []
      · simp [hempty, htext]
      · simp [hempty, get?_insert]
    rw [if_neg htext, ofEntries, look_foldl hadd, get?_empty, Option.or_none]

/-- The descent finds the longest front of the text that the trie has. -/
theorem searched_longestFrom (t : Trie) (cs : List Char) :
    Searched (get? t) cs cs.length (longestFrom t cs) := by
  induction cs generalizing t with
  | nil =>
    obtain ⟨here, children⟩ := t
    cases here with
    | none => exact .none fun k _ => by simp [get?]
    | some kind => exact .some (Nat.le_refl 0) rfl fun k hlt hle => absurd hlt (by simpa using hle)
  | cons c cs ih =>
    obtain ⟨here, children⟩ := t
    -- Fronts of more than one character are those below the child.
    have hbelow : ∀ k, get? (.node here children) ((c :: cs).take (k + 1)) =
        (Dictionary.get? children c).bind fun child => get? child (cs.take k) := fun k => rfl
    have hhere : (∀ k ≤ cs.length, get? (.node here children) ((c :: cs).take (k + 1)) = none) →
        Searched (get? (.node here children)) (c :: cs) (c :: cs).length
          (here.map fun kind => (0, kind)) := by
      intro hnone
      have hskip : ∀ k, 0 < k → k ≤ (c :: cs).length →
          get? (.node here children) ((c :: cs).take k) = none := by
        rintro (_ | k) hpos hle
        · omega
        · exact hnone k (by simpa using hle)
      cases here with
      | none =>
        refine .none fun k hk => ?_
        rcases Nat.eq_zero_or_pos k with rfl | hpos
        · rfl
        · exact hskip k hpos hk
      | some kind => exact .some (Nat.zero_le _) rfl hskip
    cases hc : Dictionary.get? children c with
    | none =>
      simp only [longestFrom, hc, Option.bind_none]
      refine hhere fun k _ => ?_
      rw [hbelow, hc, Option.bind_none]
    | some child =>
      simp only [longestFrom, hc, Option.bind_some]
      cases hfound : longestFrom child cs with
      | none =>
        have hsearched := ih child
        rw [hfound] at hsearched
        cases hsearched with
        | none h =>
          refine hhere fun k hk => ?_
          rw [hbelow, hc, Option.bind_some, h k hk]
      | some found =>
        obtain ⟨n, kind⟩ := found
        have hsearched := ih child
        rw [hfound] at hsearched
        cases hsearched with
        | some hle hn h =>
          refine .some (Nat.succ_le_succ hle) ?_ fun k hlt hk => ?_
          · rw [hbelow, hc, Option.bind_some, hn]
          · cases k with
            | zero => omega
            | succ k =>
              rw [hbelow, hc, Option.bind_some]
              exact h k (by omega) (by simpa using hk)

/-- Without a symbol at its root, a trie is searched as any node is. -/
theorem longest?_eq_longestFrom {t : Trie} (h : get? t [] = none) (cs : List Char) :
    t.longest? cs = longestFrom t cs := by
  obtain ⟨here, children⟩ := t
  obtain rfl : here = none := h
  cases cs with
  | nil => rfl
  | cons c cs =>
    simp only [longest?, longestFrom]
    cases (Dictionary.get? children c).bind fun child => longestFrom child cs <;> rfl

theorem finds_ofEntries (entries : List SymbolEntry) :
    (SymbolMap.ofTrie (ofEntries entries)).Finds entries := by
  intro cs
  show Answers entries List.length cs ((ofEntries entries).longest? cs)
  rw [longest?_eq_longestFrom (by simp [get?_ofEntries])]
  refine (searched_longestFrom (ofEntries entries) cs).answer (fun _ _ => .rfl) ?_
  intro key kind
  rw [get?_ofEntries]
  by_cases hkey : key = []
  · rw [if_pos hkey]
    simp only [reduceCtorEq, false_iff]
    rintro ⟨text, hne, rfl, -⟩
    exact hne hkey
  · rw [if_neg hkey]
    refine ⟨fun h => ⟨key, hkey, rfl, h⟩, ?_⟩
    rintro ⟨text, -, rfl, h⟩
    exact h

end Trie

/-! ## 2. The buckets -/

namespace Buckets

/-- The symbol with exactly the given spelling. -/
def get? (b : Buckets) (text : List Char) : Option LexemeKind :=
  Dictionary.get? (b.bucket (Text.utf8Length text)) text

theorem get?_insert (b : Buckets) (symbol text : List Char) (kind : LexemeKind) :
    (b.insert symbol kind).get? text = if text = symbol then some kind else b.get? text := by
  unfold get? insert bucket
  rw [Dictionary.get?_set]
  by_cases hlength : Text.utf8Length text = Text.utf8Length symbol
  · rw [if_pos hlength, Option.getD_some, Dictionary.get?_set, hlength]
  · have hne : text ≠ symbol := fun h => hlength (congrArg Text.utf8Length h)
    rw [if_neg hlength, if_neg hne]

theorem get?_ofEntries (entries : List SymbolEntry) {text : List Char} (htext : text ≠ []) :
    (ofEntries entries).get? text = entries.reverse.lookup text := by
  have hadd : ∀ (b : Buckets) (entry : SymbolEntry),
      get? (if entry.1.isEmpty then b else b.insert entry.1 entry.2) text =
        if text = entry.1 then some entry.2 else b.get? text := by
    intro b entry
    by_cases hempty : entry.1 = []
    · simp [hempty, htext]
    · simp [hempty, get?_insert]
  rw [ofEntries, look_foldl hadd]
  exact Option.or_none

/-- No symbol is longer than the longest. -/
theorem utf8Length_le_longest {entries : List SymbolEntry} {entry : SymbolEntry}
    (hmem : entry ∈ entries) : Text.utf8Length entry.1 ≤ (ofEntries entries).longest := by
  have hgrows : ∀ (entries : List SymbolEntry) (b : Buckets),
      b.longest ≤ (entries.foldl (fun b entry =>
        if entry.1.isEmpty then b else b.insert entry.1 entry.2) b).longest ∧
      ∀ entry ∈ entries, Text.utf8Length entry.1 ≤ (entries.foldl (fun b entry =>
        if entry.1.isEmpty then b else b.insert entry.1 entry.2) b).longest := by
    intro entries
    induction entries with
    | nil => simp
    | cons entry rest ih =>
      intro b
      have hstep : max b.longest (Text.utf8Length entry.1) ≤
          (if entry.1.isEmpty then b else b.insert entry.1 entry.2).longest := by
        by_cases hempty : entry.1 = []
        · simp [hempty, Text.utf8Length]
        · simp [hempty, insert]
      obtain ⟨hkeep, hrest⟩ := ih (if entry.1.isEmpty then b else b.insert entry.1 entry.2)
      rw [List.foldl_cons, List.forall_mem_cons]
      exact ⟨by omega, by omega, hrest⟩
  exact (hgrows entries empty).2 entry hmem

theorem finds_ofEntries (entries : List SymbolEntry) :
    (SymbolMap.ofBuckets (ofEntries entries)).Finds entries := by
  intro cs
  show Answers entries List.length cs ((ofEntries entries).longest? cs)
  -- Each entry at the front of the text is met at its length, within the limit.
  have hentry : ∀ entry ∈ entries, entry.1 ≠ [] → entry.1 <+: cs →
      Text.utf8Length entry.1 ≤ min (Text.utf8Length cs) (ofEntries entries).longest ∧
        (ofEntries entries).symbol? cs (Text.utf8Length entry.1) ≠ none := by
    intro entry hmem hne hfront
    obtain ⟨kind, hkind⟩ := exists_kind_iff.mpr ⟨entry, hmem, rfl⟩
    have hshort := (isPrefix_iff_utf8Length_le hfront (List.prefix_refl cs)).mp hfront
    have hlong := utf8Length_le_longest hmem
    refine ⟨by omega, fun hnone => ?_⟩
    have hsome := symbol?_eq_some_iff.mpr
      ⟨hfront, rfl, (get?_ofEntries entries hne).trans hkind⟩
    rw [hnone] at hsome
    cases hsome
  unfold longest?
  cases hfound : (ofEntries entries).longestUpTo cs _ with
  | none =>
    refine .none fun entry hmem hne hfront => ?_
    obtain ⟨hle, hsome⟩ := hentry entry hmem hne hfront
    have hpos : 0 < Text.utf8Length entry.1 :=
      Nat.lt_of_lt_of_le (List.length_pos_iff.mpr hne) (Text.length_le_utf8Length _)
    exact hsome (longestUpTo_eq_none_iff.mp hfound _ hpos hle)
  | some found =>
    obtain ⟨text, kind⟩ := found
    obtain ⟨hpos, -, hsymbol, hnone⟩ := longestUpTo_eq_some_iff.mp hfound
    obtain ⟨hfront, -, hkind⟩ := symbol?_eq_some_iff.mp hsymbol
    have hne : text ≠ [] := by
      rintro rfl
      exact absurd hpos (Nat.lt_irrefl 0)
    rw [Option.map_some]
    refine .some ⟨hne, hfront, (get?_ofEntries entries hne).symm.trans hkind, ?_⟩
    intro entry hmem hentryFront
    by_cases hnil : entry.1 = []
    · rw [hnil]
      exact Nat.zero_le _
    · obtain ⟨hle, hsome⟩ := hentry entry hmem hnil hentryFront
      exact Nat.le_of_not_lt fun hlt => hsome (hnone _ hlt hle)

end Buckets

/-! ## 3. The walk over bytes -/

namespace ByteMap

theorem symbolBytes_reverse (entries : List SymbolEntry) :
    (symbolBytes entries).reverse = symbolBytes entries.reverse := by
  unfold symbolBytes
  rw [List.filter_reverse, List.map_reverse]

/-- The bytes of a text have the kind of the text, and nothing else has one. -/
theorem lookup_symbolBytes {entries : List SymbolEntry} {key : List UInt8} {kind : LexemeKind} :
    (symbolBytes entries).lookup key = some kind ↔
      ∃ text, text ≠ [] ∧ Text.utf8 text = key ∧ entries.lookup text = some kind := by
  induction entries with
  | nil => simp [symbolBytes]
  | cons entry rest ih =>
    obtain ⟨symbol, kind'⟩ := entry
    by_cases hnil : symbol = []
    · have hdrop : symbolBytes ((symbol, kind') :: rest) = symbolBytes rest := by
        simp [symbolBytes, hnil]
      rw [hdrop, ih]
      refine exists_congr fun text => and_congr_right fun hne => ?_
      have hother : (text == symbol) = false := beq_eq_false_iff_ne.mpr (hnil ▸ hne)
      rw [List.lookup_cons, hother]
    · have hkeep : symbolBytes ((symbol, kind') :: rest) =
          (Text.utf8 symbol, kind') :: symbolBytes rest := by
        simp [symbolBytes, hnil]
      rw [hkeep, List.lookup_cons]
      by_cases hkey : key = Text.utf8 symbol
      · subst hkey
        simp only [beq_self_eq_true, Option.some.injEq]
        constructor
        · rintro rfl
          exact ⟨symbol, hnil, rfl, by simp⟩
        · rintro ⟨text, -, htext, hkind⟩
          obtain rfl := Text.utf8_injective htext
          simpa using hkind
      · have hother : (key == Text.utf8 symbol) = false := beq_eq_false_iff_ne.mpr hkey
        rw [hother, ih]
        refine exists_congr fun text => and_congr_right fun _ => and_congr_right fun htext => ?_
        have hne : (text == symbol) = false := by
          refine beq_eq_false_iff_ne.mpr fun h => hkey ?_
          rw [← htext, h]
        rw [List.lookup_cons, hne]

/-- The walk finds the longest front of the bytes that is a key, if it has done
so for the bytes it has read and kept all keys that start with these. -/
theorem searched_longestFrom {m : ByteMap} (hm : m.Exact) {root t : m.Table}
    {bytes : List UInt8} {found : Option (Nat × LexemeKind)} {read left : Nat}
    (hlength : read + left = bytes.length)
    (hkeep : ∀ key, bytes.take read <+: key → m.get? t key = m.get? root key)
    (h : Searched (m.get? root) bytes read found) :
    Searched (m.get? root) bytes bytes.length (m.longestFrom bytes t found read left) := by
  induction left generalizing t found read with
  | zero =>
    obtain rfl : read = bytes.length := hlength
    exact h
  | succ left ih =>
    have hnarrow : ∀ key, bytes.take (read + 1) <+: key →
        m.get? (m.narrow t (bytes.take (read + 1))) key = m.get? root key := by
      intro key hkey
      rw [hm.get?_narrow, if_pos hkey]
      exact hkeep key ((List.take_prefix_take_left (Nat.le_succ read)).trans hkey)
    have hnext := hnarrow _ (List.prefix_refl _)
    simp only [longestFrom]
    split
    · rename_i hempty
      -- No key starts with what was read, so no longer front is one.
      refine h.skip (by omega) fun k hlt _ => ?_
      rw [← hnarrow _ (List.take_prefix_take_left hlt)]
      exact (hm.isEmpty_iff _).mp hempty _
    · split
      · rename_i kind hkind
        exact ih (by omega) hnarrow (Searched.step (hnext.symm.trans hkind))
      · rename_i hkind
        refine ih (by omega) hnarrow (h.skip (Nat.le_succ read) fun k hlt hle => ?_)
        obtain rfl : k = read + 1 := by omega
        exact hnext.symm.trans hkind

/-- The walk answers with the number of bytes of the longest symbol. -/
theorem answers_longest? {m : ByteMap} (hm : m.Exact) (entries : List SymbolEntry)
    (cs : List Char) :
    Answers entries Text.utf8Length cs
      (m.longest? (m.ofEntries (symbolBytes entries)) (Text.utf8 cs)) := by
  have hlook : ∀ key kind, m.get? (m.ofEntries (symbolBytes entries)) key = some kind ↔
      ∃ text, text ≠ [] ∧ Text.utf8 text = key ∧ entries.reverse.lookup text = some kind := by
    intro key kind
    rw [hm.get?_ofEntries, symbolBytes_reverse, lookup_symbolBytes]
  -- Before the first byte nothing is found: the empty key has no kind.
  have hstart : Searched (m.get? (m.ofEntries (symbolBytes entries))) (Text.utf8 cs) 0 none := by
    refine .none fun k hk => Option.eq_none_iff_forall_ne_some.mpr fun kind hkind => ?_
    obtain ⟨text, hne, htext, -⟩ := (hlook _ kind).mp hkind
    rw [Nat.le_zero.mp hk, List.take_zero] at htext
    exact hne (Text.utf8_injective htext)
  have hsearched := searched_longestFrom hm (t := m.narrow (m.ofEntries (symbolBytes entries)) [])
    (Nat.zero_add _) (fun key _ => by rw [hm.get?_narrow, if_pos List.nil_prefix]) hstart
  have hanswers := hsearched.answer (fun _ _ => Text.utf8_isPrefix_iff) hlook
  simp only [Text.length_utf8] at hanswers
  rwa [← Text.length_utf8] at hanswers

theorem finds_ofByteMap {m : ByteMap} (hm : m.Exact) (entries : List SymbolEntry) :
    (SymbolMap.ofByteMap m entries).Finds entries := by
  intro cs
  show Answers entries List.length cs
    ((m.longest? (m.ofEntries (symbolBytes entries)) (Text.utf8 cs)).bind fun found =>
      (Text.cut? cs found.1).map fun parts => (parts.1.length, found.2))
  have hanswers := answers_longest? hm entries cs
  cases hfound : m.longest? (m.ofEntries (symbolBytes entries)) (Text.utf8 cs) with
  | none => exact .none (hanswers.eq_none_iff.mp hfound)
  | some found =>
    obtain ⟨n, kind⟩ := found
    obtain ⟨text, htext, rfl⟩ := hanswers.eq_some_iff.mp hfound
    obtain ⟨rest, happ⟩ := htext.front
    rw [Option.bind_some, Text.cut?_eq_some_iff.mpr ⟨happ, rfl⟩]
    exact .some htext

end ByteMap

/-! ## 4. The tables agree -/

/-- The tables that are built from a list of entries. -/
inductive SymbolMap.BuiltFrom (entries : List SymbolEntry) : SymbolMap → Prop
  | trie : BuiltFrom entries (.ofTrie (.ofEntries entries))
  | buckets : BuiltFrom entries (.ofBuckets (.ofEntries entries))
  | byteMap {m : ByteMap} (hm : m.Exact) : BuiltFrom entries (.ofByteMap m entries)

theorem SymbolMap.BuiltFrom.finds {m : SymbolMap} {entries : List SymbolEntry}
    (h : m.BuiltFrom entries) : m.Finds entries := by
  cases h with
  | trie => exact Trie.finds_ofEntries entries
  | buckets => exact Buckets.finds_ofEntries entries
  | byteMap hm => exact ByteMap.finds_ofByteMap hm entries

theorem SymbolMap.finds_standard : standard.Finds mathSymbols := Trie.finds_ofEntries mathSymbols

/-- The standard table is that of the buckets, and that of the walk over any map
from bytes that does what is expected of it. -/
theorem SymbolMap.standard_eq_of_builtFrom {m : SymbolMap} (h : m.BuiltFrom mathSymbols) :
    standard = m :=
  finds_standard.unique h.finds

/-- The walk over bytes and the buckets answer alike: with the longest symbol at
the front of the text, counted in bytes, and the kind in its last entry, or with
nothing if no entry is there. The answer is a place where the text can be cut,
and readers with any of the tables find the same lexemes in every text. -/
theorem symbol_tables_agree {m : ByteMap} (hm : m.Exact) (entries : List SymbolEntry) :
    (∀ cs, m.longest? (m.ofEntries (ByteMap.symbolBytes entries)) (Text.utf8 cs) =
        (SymbolMap.ofBuckets (.ofEntries entries)).longestBytes? cs) ∧
      (∀ cs, (SymbolMap.ofBuckets (.ofEntries entries)).longestBytes? cs = none ↔
        ∀ entry ∈ entries, entry.1 ≠ [] → ¬ entry.1 <+: cs) ∧
      (∀ cs n kind, (SymbolMap.ofBuckets (.ofEntries entries)).longestBytes? cs = some (n, kind) ↔
        ∃ text, IsLongest entries cs text kind ∧ n = Text.utf8Length text) ∧
      (∀ cs n kind, (SymbolMap.ofBuckets (.ofEntries entries)).longestBytes? cs = some (n, kind) →
        1 ≤ n ∧ ∃ front rest, Text.cut? cs n = some (front, rest)) ∧
      ∀ table, SymbolMap.BuiltFrom entries table → ∀ env cs, Reader.lexemes ⟨table, env⟩ cs =
        Reader.lexemes ⟨.ofBuckets (.ofEntries entries), env⟩ cs := by
  have hbuckets : ∀ cs, Answers entries Text.utf8Length cs
      ((SymbolMap.ofBuckets (.ofEntries entries)).longestBytes? cs) :=
    (Buckets.finds_ofEntries entries).longestBytes?
  refine ⟨fun cs => ?agree, fun cs => (hbuckets cs).eq_none_iff,
    fun cs n kind => (hbuckets cs).eq_some_iff, fun cs n kind h => ?boundary,
    fun table htable env cs => ?lexemes⟩
  case agree => exact (ByteMap.answers_longest? hm entries cs).unique (hbuckets cs)
  case boundary =>
    obtain ⟨text, htext, rfl⟩ := (hbuckets cs).eq_some_iff.mp h
    obtain ⟨rest, happ⟩ := htext.front
    exact ⟨htext.utf8Length_pos, text, rest, Text.cut?_eq_some_iff.mpr ⟨happ, rfl⟩⟩
  case lexemes =>
    rw [htable.finds.unique (Buckets.finds_ofEntries entries)]

/-- A symbol that another one continues with a gap between them, in two entries
of different kinds, beside an empty entry and one of several bytes. -/
def gappedSymbols : List SymbolEntry :=
  [(['*'], .times), (['*', '*', '*'], .power), ([], .minus), (['\u2212'], .minus), (['*'], .plus)]

theorem symbol_tables_agree_gapped :
    ByteMap.ofLists.Exact ∧
      ByteMap.ofLists.longest? (ByteMap.ofLists.ofEntries (ByteMap.symbolBytes gappedSymbols))
        (Text.utf8 ['*', '*', '\u2212']) = some (1, .plus) ∧
      ByteMap.ofLists.longest? (ByteMap.ofLists.ofEntries (ByteMap.symbolBytes gappedSymbols))
        (Text.utf8 ['\u2212', '*']) = some (3, .minus) ∧
      ByteMap.ofLists.longest? (ByteMap.ofLists.ofEntries (ByteMap.symbolBytes gappedSymbols))
        (Text.utf8 ['\u2213']) = none := by
  obtain ⟨hagree, -⟩ := symbol_tables_agree ByteMap.exact_ofLists gappedSymbols
  refine ⟨ByteMap.exact_ofLists, ?_, ?_, ?_⟩
  · rw [hagree]
    decide
  · rw [hagree]
    decide
  · rw [hagree]
    decide

end Formula
