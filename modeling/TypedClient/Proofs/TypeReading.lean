import Mathlib.Data.List.Forall2
import TypedClient.Proofs.TypeSyntax

namespace TypedClient.Output.TypeSyntax

/-!
# Reading the text of a type

The text of a type is put together from the texts of its pieces.  This file has one lemma for each way to do that:
if the pieces are read as they should, then so is the whole.  What may follow the text is part of the statements,
since a reader goes on as long as it can: a name does not end in front of another letter, nor an operand in front
of brackets.

* `ReadsOperand`, `ReadsPart`, `ReadsType` — a text is read as a type, whatever follows it: as an operand of `&`,
  as an operand of `|`, and between brackets.
* `readsPart_intercalate`, `readsType_intercalate` — the operators, with their precedence.
* `ReadsType.parenthesized`, `ReadsOperand.array` — parentheses and brackets.
* `readsOperand_path`, `readsOperand_arguments`, `readsOperand_literal` — names and literals.
* `ReadsFields.object` — objects.
-/

variable {α : Type} {marks rest : List Char}

/-! ### Lists -/

section Lists

variable {item : Reader α} {sep : Char} {glue : List Char}

theorem sepBy_congr {cs ds : List Char} (h : item cs = item ds) (n : Nat) :
    sepBy sep item n cs = sepBy sep item n ds := by
  cases n with
  | zero => exact bind_congr_of_eq _ h
  | succ n => exact bind_congr_of_eq _ h

/-- `glue` is `sep` with blanks around it: items end in front of it, and the next one begins behind it. -/
structure Separates (glue : List Char) (sep : Char) (marks : List Char) (item : Reader α) : Prop where
  ne_nil : glue ≠ []
  stops : ∀ cs, Stops marks (glue ++ cs)
  reads : ∀ cs, ∃ mid, mark? sep (glue ++ cs) = some (true, mid) ∧ item mid = item cs

/-- A list is read if each of its items is. -/
theorem sepBy_of_forall₂ (hglue : Separates glue sep marks item) {pieces : List (List Char)} {values : List α}
    (h : List.Forall₂ (fun cs a => ∀ rest, Stops marks rest → item (cs ++ rest) = some (a, rest)) pieces values)
    (hne : pieces ≠ []) {n : Nat} (hn : pieces.length ≤ n + 1) (hrest : Stops (sep :: marks) rest) :
    sepBy sep item n (glue.intercalate pieces ++ rest) = some (values, rest) := by
  have hstops : Stops marks rest := hrest.mono (List.subset_cons_self _ _)
  induction h generalizing n with
  | nil => exact absurd rfl hne
  | @cons cs a others values hcs hothers ih =>
    cases hothers with
    | nil =>
      -- The last item is one because no mark follows, or because the number of items is reached.
      rw [List.intercalate_singleton]
      cases n with
      | zero =>
        rw [sepBy, bind_of_eq (hcs rest hstops)]
        rfl
      | succ n =>
        rw [sepBy, bind_of_eq (hcs rest hstops), bind_of_eq (hrest.mark? List.mem_cons_self)]
        rfl
    | @cons ds b more bs hds hmore =>
      obtain ⟨m, rfl⟩ : ∃ m, n = m + 1 := by
        refine ⟨n - 1, ?_⟩
        simp only [List.length_cons] at hn
        omega
      rw [List.intercalate_cons_cons, List.append_assoc, List.append_assoc]
      obtain ⟨mid, hmark, hmid⟩ := hglue.reads (glue.intercalate (ds :: more) ++ rest)
      have hothers : sepBy sep item m mid = some (b :: bs, rest) := by
        rw [sepBy_congr hmid]
        exact ih (by nofun) (by simp only [List.length_cons] at hn ⊢; omega)
      rw [sepBy, bind_of_eq (hcs _ (hglue.stops _)), bind_of_eq hmark, if_pos rfl, bind_of_eq hothers]
      rfl

theorem length_le_intercalate (glue : List Char) {pieces : List (List Char)} {cs : List Char} (h : cs ∈ pieces) :
    cs.length ≤ (glue.intercalate pieces).length := by
  induction pieces with
  | nil => cases h
  | cons ds others ih =>
    cases others with
    | nil =>
      rewrite [List.mem_singleton.mp h, List.intercalate_singleton]
      exact Nat.le_refl _
    | cons es more =>
      rw [List.intercalate_cons_cons, List.length_append, List.length_append]
      rcases List.mem_cons.mp h with rfl | hmem
      · omega
      · have := ih hmem
        omega

theorem length_pieces_le (hglue : glue ≠ []) (pieces : List (List Char)) :
    pieces.length ≤ (glue.intercalate pieces).length + 1 := by
  have hpos : 0 < glue.length := List.length_pos_iff.mpr hglue
  induction pieces with
  | nil => exact Nat.zero_le _
  | cons ds others ih =>
    cases others with
    | nil => exact Nat.le_add_left _ _
    | cons es more =>
      rw [List.intercalate_cons_cons, List.length_append, List.length_append, List.length_cons]
      omega

/-- The length of a list's text bounds the lengths of its items and their number. -/
theorem sepBy_intercalate (hglue : Separates glue sep marks item) {pieces : List (List Char)} {values : List α}
    {Reads : List Char → α → Prop} (h : List.Forall₂ Reads pieces values) (hne : pieces ≠ [])
    (hitem : ∀ cs a, Reads cs a → cs.length ≤ (glue.intercalate pieces).length →
      ∀ rest, Stops marks rest → item (cs ++ rest) = some (a, rest))
    {n : Nat} (hn : (glue.intercalate pieces).length ≤ n) (hrest : Stops (sep :: marks) rest) :
    sepBy sep item n (glue.intercalate pieces ++ rest) = some (values, rest) := by
  have hcount := length_pieces_le hglue.ne_nil pieces
  refine sepBy_of_forall₂ hglue ?_ hne (by omega) hrest
  rw [List.forall₂_iff_zip] at h ⊢
  refine ⟨h.1, fun {cs a} hmem => hitem cs a (h.2 hmem) ?_⟩
  exact length_le_intercalate glue (List.of_mem_zip hmem).1

end Lists

/-! ### What is read -/

/-- The marks that an operand may go on with. -/
def operandMarks : List Char := ['.', '<']

def partMarks : List Char := '&' :: '[' :: operandMarks

def typeMarks : List Char := '|' :: partMarks

-- The readers need bounds.  The length of the text is enough: a piece is not longer than the whole, and what
-- stands between brackets is shorter.

/-- The text is an operand; brackets may follow. -/
def ReadsOperand (cs : List Char) (tree : TypeTree) : Prop :=
  ∀ n rest, cs.length ≤ n → Stops operandMarks rest →
    operand (readType n) n (cs ++ rest) = some (brackets tree rest)

/-- The text is an operand of `|`. -/
def ReadsPart (cs : List Char) (tree : TypeTree) : Prop :=
  ∀ n rest, cs.length ≤ n → Stops partMarks rest → part (readType n) n (cs ++ rest) = some (tree, rest)

/-- The text is a type. -/
def ReadsType (cs : List Char) (tree : TypeTree) : Prop :=
  ∀ n rest, cs.length < n → Stops typeMarks rest → readType n (cs ++ rest) = some (tree, rest)

variable {cs ds : List Char} {tree : TypeTree} {n : Nat}

theorem parse_of_readsType {s : String} (h : ReadsType s.toList tree) : parse s = some tree := by
  have hread := h (s.length + 1) [] (Nat.lt_succ_of_le (Nat.le_of_eq s.length_toList)) .nil
  rw [List.append_nil] at hread
  rw [parse, hread]
  rfl

-- Brackets bind tighter than `&`, and `&` binds tighter than `|`.
example : parse "A[] & (B | C) | 'd'"
    = some (.any [.all [.array (.named ["A"] []), .any [.named ["B"] [], .named ["C"] []]], .literal "d"]) := by
  cbv

/-! Blanks in front of a type do not matter. -/

theorem operand_congr {type : Reader TypeTree} (h : skip cs = skip ds) :
    operand type n cs = operand type n ds := by
  have hprimary : primary type n cs = primary type n ds :=
    bind_congr_of_eq _ (by rw [blanks, blanks, h])
  rw [operand, operand, hprimary]

theorem part_congr {type : Reader TypeTree} (h : skip cs = skip ds) : part type n cs = part type n ds :=
  bind_congr_of_eq _ (sepBy_congr (operand_congr h) n)

theorem readType_congr (h : skip cs = skip ds) : readType n cs = readType n ds := by
  cases n with
  | zero => rfl
  | succ n => exact bind_congr_of_eq _ (sepBy_congr (part_congr h) n)

theorem word_congr (h : skip cs = skip ds) : word cs = word ds := by
  rw [word, word, h]

/-! ### Operators -/

theorem brackets_of_stops (h : Stops ('[' :: operandMarks) rest) : brackets tree rest = (tree, rest) := by
  unfold brackets
  split
  · exact absurd List.mem_cons_self (h.mark '[' rfl)
  · rfl

/-- Operands with `&` between them. -/
theorem readsPart_intercalate {pieces : List (List Char)} {trees : List TypeTree}
    (h : List.Forall₂ ReadsOperand pieces trees) (hne : pieces ≠ []) :
    ReadsPart ([' ', '&', ' '].intercalate pieces) (TypeTree.allOf trees) := by
  intro n rest hn hrest
  have hglue : Separates [' ', '&', ' '] '&' ('[' :: operandMarks) (operand (readType n) n) :=
    ⟨by nofun, fun _ => .space rfl (by decide), fun ds => ⟨' ' :: ds, rfl, operand_congr rfl⟩⟩
  have hread := sepBy_intercalate hglue h hne ?_ hn hrest
  · rw [part, bind_of_eq hread]
    rfl
  · intro cs tree hoperand hlength rest' hrest'
    rw [hoperand n rest' (by omega) (hrest'.mono (List.subset_cons_self _ _)), brackets_of_stops hrest']

/-- Types with `|` between them. -/
theorem readsType_intercalate {pieces : List (List Char)} {trees : List TypeTree}
    (h : List.Forall₂ ReadsPart pieces trees) (hne : pieces ≠ []) :
    ReadsType ([' ', '|', ' '].intercalate pieces) (TypeTree.anyOf trees) := by
  intro n rest hn hrest
  obtain ⟨n, rfl⟩ : ∃ m, n = m + 1 := ⟨n - 1, by omega⟩
  have hglue : Separates [' ', '|', ' '] '|' partMarks (part (readType n) n) :=
    ⟨by nofun, fun _ => .space rfl (by decide), fun ds => ⟨' ' :: ds, rfl, part_congr rfl⟩⟩
  have hread := sepBy_intercalate hglue h hne ?_ (Nat.le_of_lt_succ hn) hrest
  · rw [readType, bind_of_eq hread]
    rfl
  · intro cs tree hpart hlength rest' hrest'
    exact hpart n rest' (by omega) hrest'

theorem ReadsOperand.readsPart (h : ReadsOperand cs tree) : ReadsPart cs tree := by
  have hpart := readsPart_intercalate (.cons h .nil) (by nofun)
  rwa [List.intercalate_singleton] at hpart

theorem ReadsPart.readsType (h : ReadsPart cs tree) : ReadsType cs tree := by
  have htype := readsType_intercalate (.cons h .nil) (by nofun)
  rwa [List.intercalate_singleton] at htype

theorem ReadsOperand.readsType (h : ReadsOperand cs tree) : ReadsType cs tree :=
  h.readsPart.readsType

/-! ### Operands -/

theorem operand_of_primary (h : primary (readType n) n cs = some (tree, rest)) :
    operand (readType n) n cs = some (brackets tree rest) := by
  rw [operand, h]
  rfl

/-- What begins like a name is a reference. -/
theorem primary_of_start {type : Reader TypeTree} {c : Char} (hc : isStart c) :
    primary type n (c :: cs) = reference type n (c :: cs) := by
  have hblank := isWhitespace_of_isStart hc
  have hmark : ∀ d, isStart d = false → mark? d (c :: cs) = some (false, c :: cs) := by
    intro d hd
    refine mark?_cons_of_ne hblank ?_ cs
    rintro rfl
    rw [hd] at hc
    cases hc
  rw [primary, bind_of_eq (blanks_cons hblank cs), bind_of_eq (hmark '(' rfl), if_neg Bool.false_ne_true,
    bind_of_eq (hmark '{' rfl), if_neg Bool.false_ne_true, bind_of_eq (hmark '\'' rfl), if_neg Bool.false_ne_true]

/-- A dotted name is read to its end. -/
theorem path_append {path : List String} (hpath : ∀ name ∈ path, isIdentifierName name) (hne : path ≠ [])
    (hn : (['.'].intercalate (path.map String.toList)).length ≤ n) (hrest : Stops ['.'] rest) :
    sepBy '.' word n (['.'].intercalate (path.map String.toList) ++ rest) = some (path, rest) := by
  have hglue : Separates ['.'] '.' [] word :=
    ⟨by nofun, fun _ => .cons rfl rfl List.not_mem_nil, fun ds => ⟨ds, rfl, rfl⟩⟩
  have hwords : List.Forall₂ (fun cs name => isIdentifierName name ∧ cs = name.toList)
      (path.map String.toList) path := by
    rw [List.forall₂_map_left_iff, List.forall₂_same]
    exact fun name hname => ⟨hpath name hname, rfl⟩
  refine sepBy_intercalate hglue hwords (by rwa [ne_eq, List.map_eq_nil_iff]) ?_ hn hrest
  rintro _ name ⟨hname, rfl⟩ - rest' hrest'
  exact word_append hname hrest'.word

/-- A path begins like a name. -/
theorem exists_start_path {path : List String} (hpath : ∀ name ∈ path, isIdentifierName name) (hne : path ≠ []) :
    ∃ c tail, ['.'].intercalate (path.map String.toList) = c :: tail ∧ isStart c := by
  cases path with
  | nil => exact absurd rfl hne
  | cons name others =>
    obtain ⟨c, tail, hname, hc, -⟩ := exists_start (hpath name List.mem_cons_self)
    cases others with
    | nil => exact ⟨c, tail, by rw [List.map_cons, List.map_nil, List.intercalate_singleton, hname], hc⟩
    | cons other more =>
      rw [List.map_cons, List.map_cons, List.intercalate_cons_cons, hname]
      exact ⟨c, _, rfl, hc⟩

/-- A dotted name and its arguments make up an operand. -/
theorem operand_reference {path : List String} (hpath : ∀ name ∈ path, isIdentifierName name) (hne : path ≠ [])
    (hn : (['.'].intercalate (path.map String.toList)).length ≤ n) {after : List Char} {types : List TypeTree}
    (hafter : Stops ['.'] after) (harguments : arguments (readType n) n after = some (types, rest))
    (hlookup : lookup path types = some tree) :
    operand (readType n) n (['.'].intercalate (path.map String.toList) ++ after) = some (brackets tree rest) := by
  have hread := path_append hpath hne hn hafter
  have hstart := exists_start_path hpath hne
  generalize ['.'].intercalate (path.map String.toList) = text at hread hstart
  obtain ⟨c, tail, rfl, hc⟩ := hstart
  refine operand_of_primary ?_
  rw [List.cons_append, primary_of_start hc, ← List.cons_append, reference, bind_of_eq hread,
    bind_of_eq harguments, hlookup]
  rfl

/-- Names that are not the language's own stand for declared types. -/
theorem lookup_typeName {name : String} (h : isTypeName name) : lookup [name] [] = some (.named [name] []) := by
  simp only [isTypeName, isIdentifier, Bool.and_eq_true, Bool.not_eq_true'] at h
  simp only [lookup, h.1.2, h.2, Bool.false_eq_true, if_false]

theorem lookup_qualified {space : String} (h : isIdentifier space) (name : String) (more : List String) :
    lookup (space :: name :: more) [] = some (.named (space :: name :: more) []) := by
  simp only [isIdentifier, Bool.and_eq_true, Bool.not_eq_true'] at h
  simp only [lookup, h.2, Bool.false_eq_true, if_false]

/-- The name of a type, without arguments. -/
theorem readsOperand_path {path : List String} (hpath : ∀ name ∈ path, isIdentifierName name) (hne : path ≠ [])
    (hlookup : lookup path [] = some tree) :
    ReadsOperand (['.'].intercalate (path.map String.toList)) tree := by
  intro n rest hn hrest
  have harguments : arguments (readType n) n rest = some ([], rest) := by
    rw [arguments, bind_of_eq (hrest.mark? (by decide))]
    rfl
  exact operand_reference hpath hne hn (hrest.mono (by decide)) harguments hlookup

/-- A name with types between angle brackets. -/
theorem readsOperand_arguments (name : String) (hname : isIdentifierName name) {pieces : List (List Char)}
    {trees : List TypeTree} (h : List.Forall₂ ReadsType pieces trees) (hne : pieces ≠ [])
    (hlookup : lookup [name] trees = some tree) :
    ReadsOperand (name.toList ++ '<' :: ([',', ' '].intercalate pieces ++ ['>'])) tree := by
  intro n rest hn hrest
  simp only [List.length_append, List.length_cons, List.length_nil] at hn
  have hglue : Separates [',', ' '] ',' typeMarks (readType n) :=
    ⟨by nofun, fun _ => .cons rfl rfl (by decide), fun ds => ⟨' ' :: ds, rfl, readType_congr rfl⟩⟩
  -- The fuel is enough for every argument, as none is longer than all of them together.
  have hitem : ∀ cs tree, ReadsType cs tree → cs.length ≤ ([',', ' '].intercalate pieces).length →
      ∀ rest, Stops typeMarks rest → readType n (cs ++ rest) = some (tree, rest) :=
    fun cs tree htype hlength rest' hrest' => htype n rest' (by omega) hrest'
  have hclose : Stops (',' :: typeMarks) ('>' :: rest) := .cons rfl rfl (by decide)
  have hread := sepBy_intercalate (n := n) hglue h hne hitem (by omega) hclose
  have harguments : arguments (readType n) n ('<' :: ([',', ' '].intercalate pieces ++ '>' :: rest))
      = some (trees, rest) := by
    rw [arguments, bind_of_eq (mark?_of_skip rfl), if_pos rfl, bind_of_eq hread, bind_of_eq (mark_of_skip rfl)]
    rfl
  have hoperand := operand_reference (n := n) (List.forall_mem_singleton.mpr hname) (List.cons_ne_nil name [])
    (by rw [List.map_cons, List.map_nil, List.intercalate_singleton]; omega)
    (.cons rfl rfl (by decide)) harguments hlookup
  rw [List.map_cons, List.map_nil, List.intercalate_singleton] at hoperand
  rw [List.append_assoc, List.cons_append, List.append_assoc, List.singleton_append]
  exact hoperand

/-- A text between quotes. -/
theorem readsOperand_literal {value : String} (h : OnOneLine value) :
    ReadsOperand (literalChars value.toList) (.literal value) := by
  intro n rest hn hrest
  refine operand_of_primary ?_
  rw [literalChars, List.cons_append, List.append_assoc, List.singleton_append, primary,
    bind_of_eq (blanks_cons rfl _), bind_of_eq (mark?_cons_of_ne rfl (by decide) _), if_neg Bool.false_ne_true,
    bind_of_eq (mark?_cons_of_ne rfl (by decide) _), if_neg Bool.false_ne_true, bind_of_eq (mark?_of_skip rfl),
    if_pos rfl, bind_of_eq (quoted_append h rest)]
  rfl

/-- Parentheses group. -/
theorem ReadsType.parenthesized (h : ReadsType cs tree) : ReadsOperand ('(' :: (cs ++ [')'])) tree := by
  intro n rest hn hrest
  simp only [List.length_append, List.length_cons, List.length_nil] at hn
  have hclose : Stops typeMarks (')' :: rest) := .cons rfl rfl (by decide)
  have hread := h n (')' :: rest) (by omega) hclose
  refine operand_of_primary ?_
  rw [List.cons_append, List.append_assoc, List.singleton_append, primary,
    bind_of_eq (blanks_cons rfl _), bind_of_eq (mark?_of_skip rfl), if_pos rfl, bind_of_eq hread,
    bind_of_eq (mark_of_skip rfl)]
  rfl

/-- Brackets make an array of the operand in front of them. -/
theorem ReadsOperand.array (h : ReadsOperand cs tree) : ReadsOperand (cs ++ ['[', ']']) (.array tree) := by
  intro n rest hn hrest
  rw [List.length_append] at hn
  have hbrackets : Stops operandMarks ('[' :: ']' :: rest) := .cons rfl rfl (by decide)
  rw [List.append_assoc]
  -- The brackets are among those that the reader goes on with behind the operand.
  exact h n ('[' :: ']' :: rest) (by omega) hbrackets

/-! ### Objects -/

/-- The text of a field, given the text of its type. -/
def fieldChars (name : String) (required : Bool) (cs : List Char) : List Char :=
  name.toList ++ ((if required then [] else ['?']) ++ ':' :: ' ' :: cs)

/-- The text between braces is that of fields. -/
structure ReadsFields (cs : List Char) (shown : List (Field TypeTree)) : Prop where
  length_le : shown.length ≤ cs.length
  reads : ∀ n m rest, cs.length < n → shown.length ≤ m →
    fields (readType n) m (cs ++ '}' :: rest) = some (shown, rest)

theorem field_append {name : String} (hname : isIdentifierName name) (required : Bool) (h : ReadsType cs tree)
    (hn : cs.length < n) (hrest : Stops typeMarks rest) {bs : List Char} (hbs : ∀ c ∈ bs, c.isWhitespace) :
    field (readType n) (bs ++ (fieldChars name required cs ++ rest)) = some (⟨name, tree, required⟩, rest) := by
  have hread : readType n (' ' :: (cs ++ rest)) = some (tree, rest) := by
    have hblank : skip (' ' :: (cs ++ rest)) = skip (cs ++ rest) := rfl
    rw [readType_congr hblank]
    exact h n rest hn hrest
  have hword : ∀ after, (∀ c ∈ after.head?, isPart c = false) →
      word (bs ++ (name.toList ++ after)) = some (name, after) := by
    intro after hafter
    rw [word_congr (skip_append hbs _)]
    exact word_append hname hafter
  rw [fieldChars, List.append_assoc, List.append_assoc]
  cases required with
  | true =>
    rw [if_pos rfl, List.nil_append, List.cons_append, List.cons_append, field,
      bind_of_eq (hword _ (by rintro _ ⟨⟩; rfl)), bind_of_eq (mark?_cons_of_ne rfl (by decide) _),
      bind_of_eq (mark_of_skip rfl), bind_of_eq hread]
    rfl
  | false =>
    rw [if_neg Bool.false_ne_true, List.singleton_append, List.cons_append, List.cons_append, field,
      bind_of_eq (hword _ (by rintro _ ⟨⟩; rfl)), bind_of_eq (mark?_of_skip rfl),
      bind_of_eq (mark_of_skip rfl), bind_of_eq hread]
    rfl

/-- The name of a field is not the end of the object. -/
theorem mark?_fieldChars {name : String} (hname : isIdentifierName name) (required : Bool) {bs : List Char}
    (hbs : ∀ c ∈ bs, c.isWhitespace) (after : List Char) :
    mark? '}' (bs ++ (fieldChars name required cs ++ after))
      = some (false, bs ++ (fieldChars name required cs ++ after)) := by
  obtain ⟨c, tail, htext, hc, -⟩ := exists_start hname
  refine mark?_of_ne ?_
  rw [skip_append hbs, fieldChars, htext, List.cons_append, List.cons_append, skip_cons (isWhitespace_of_isStart hc)]
  rintro _ ⟨⟩ rfl
  exact absurd hc (by decide)

theorem ReadsFields.nil {bs : List Char} (hbs : ∀ c ∈ bs, c.isWhitespace) : ReadsFields bs [] := by
  refine ⟨Nat.zero_le _, fun n m rest _ _ => ?_⟩
  have hskip : skip (bs ++ '}' :: rest) = '}' :: rest := skip_append hbs _
  cases m with
  | zero =>
    rw [fields, bind_of_eq (mark_of_skip hskip)]
    rfl
  | succ m =>
    rw [fields, bind_of_eq (mark?_of_skip hskip)]
    rfl

/-- A field in front of others. -/
theorem ReadsFields.cons {shown : List (Field TypeTree)} (h : ReadsFields ds shown) (htype : ReadsType cs tree)
    {name : String} (hname : isIdentifierName name) (required : Bool) {bs : List Char}
    (hbs : ∀ c ∈ bs, c.isWhitespace) :
    ReadsFields (bs ++ (fieldChars name required cs ++ ';' :: ds)) (⟨name, tree, required⟩ :: shown) := by
  have hlength := h.length_le
  refine ⟨?_, fun n m rest hn hm => ?_⟩
  · simp only [List.length_append, List.length_cons]
    omega
  · simp only [fieldChars, List.length_append, List.length_cons] at hn hm
    obtain ⟨m, rfl⟩ : ∃ k, m = k + 1 := ⟨m - 1, by omega⟩
    have hclose : Stops typeMarks (';' :: (ds ++ '}' :: rest)) := .cons rfl rfl (by decide)
    have hfield := field_append (n := n) hname required htype (by omega) hclose hbs
    have hothers := h.reads n m rest (by omega) (by omega)
    rw [List.append_assoc, List.append_assoc, List.cons_append, fields,
      bind_of_eq (mark?_fieldChars hname required hbs _), if_neg Bool.false_ne_true, bind_of_eq hfield,
      bind_of_eq (mark?_of_skip rfl), if_pos rfl, bind_of_eq hothers]
    rfl

/-- A field alone, without a semicolon. -/
theorem ReadsFields.single (htype : ReadsType cs tree) {name : String} (hname : isIdentifierName name)
    (required : Bool) {bs : List Char} (hbs : ∀ c ∈ bs, c.isWhitespace) :
    ReadsFields (bs ++ (fieldChars name required cs ++ [' '])) [⟨name, tree, required⟩] := by
  refine ⟨?_, fun n m rest hn hm => ?_⟩
  · simp only [List.length_append, List.length_cons, List.length_nil]
    omega
  · simp only [fieldChars, List.length_append, List.length_cons, List.length_nil] at hn hm
    obtain ⟨m, rfl⟩ : ∃ k, m = k + 1 := ⟨m - 1, by omega⟩
    have hclose : Stops typeMarks (' ' :: '}' :: rest) := .space rfl (by decide)
    have hfield := field_append (n := n) hname required htype (by omega) hclose hbs
    have hlast : mark? ';' (' ' :: '}' :: rest) = some (false, ' ' :: '}' :: rest) :=
      mark?_of_ne (by rintro _ ⟨⟩; decide)
    rw [List.append_assoc, List.append_assoc, List.singleton_append, fields,
      bind_of_eq (mark?_fieldChars hname required hbs _), if_neg Bool.false_ne_true, bind_of_eq hfield,
      bind_of_eq hlast, if_neg Bool.false_ne_true, bind_of_eq (mark_of_skip rfl)]
    rfl

/-- Fields between braces. -/
theorem ReadsFields.object {shown : List (Field TypeTree)} (h : ReadsFields cs shown) :
    ReadsOperand ('{' :: (cs ++ ['}'])) (.object shown) := by
  intro n rest hn _
  simp only [List.length_append, List.length_cons, List.length_nil] at hn
  have hlength := h.length_le
  have hread := h.reads n n rest (by omega) (by omega)
  refine operand_of_primary ?_
  rw [List.cons_append, List.append_assoc, List.singleton_append, primary, bind_of_eq (blanks_cons rfl _),
    bind_of_eq (mark?_cons_of_ne rfl (by decide) _), if_neg Bool.false_ne_true, bind_of_eq (mark?_of_skip rfl),
    if_pos rfl, bind_of_eq hread]
  rfl

end TypedClient.Output.TypeSyntax
