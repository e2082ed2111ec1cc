import Mathlib
import TypedClient.Proofs.Clients
import TypedClient.Proofs.TypeSyntax

namespace TypedClient

/-!
# Values in the file of the types

The values of enums stand in the generated types between quotes: in a union of literals, in the lines of an enum
and in the tags of variants.  Each of them is escaped when it is printed, and then the tabs of the whole file are
expanded.  This file says what is left of a value.

* `Output.Holds` — pieces that stand in a text, one after the other.
* `Output.TypeExpr.values`, `Output.Export.values` — the values that are printed, in order.
* `Output.readLiteral` — reads a literal.
* `Output.generate_holds_values` — the types hold the literals of the values with their tabs expanded; a value is
  read back from there if and only if it has no tab and no line break.
-/

namespace Output

open TypeSyntax

/-! ### Pieces of a text -/

/-- The pieces stand in the text, one after the other. -/
inductive Holds : List String → String → Prop
  | nil (text : String) : Holds [] text
  | cons (before piece : String) {pieces : List String} {rest : String} :
      Holds pieces rest → Holds (piece :: pieces) (before ++ piece ++ rest)

namespace Holds

variable {pieces others : List String} {text : String}

theorem singleton (piece : String) : Holds [piece] piece := by
  have h : Holds [piece] ("" ++ piece ++ "") := .cons "" piece (.nil "")
  rwa [String.empty_append, String.append_empty] at h

theorem append_left (front : String) (h : Holds pieces text) : Holds pieces (front ++ text) := by
  cases h with
  | nil => exact .nil _
  | cons before piece h =>
    rw [← String.append_assoc, ← String.append_assoc]
    exact .cons _ piece h

theorem append {other : String} (h : Holds pieces text) (hothers : Holds others other) :
    Holds (pieces ++ others) (text ++ other) := by
  induction h with
  | nil text => exact hothers.append_left text
  | cons before piece _ ih =>
    rw [String.append_assoc, List.cons_append]
    exact .cons before piece ih

theorem append_right (h : Holds pieces text) (back : String) : Holds pieces (text ++ back) := by
  have hall := h.append (.nil back)
  rwa [List.append_nil] at hall

/-- Texts with a separator between them hold what they hold one by one. -/
theorem intercalate_cons {sep : String} {texts : List String} (h : Holds pieces text)
    (hrest : Holds others (sep.intercalate texts)) :
    Holds (pieces ++ others) (sep.intercalate (text :: texts)) := by
  cases texts with
  | nil =>
    have hall := h.append hrest
    rwa [String.intercalate_nil, String.append_empty] at hall
  | cons second texts =>
    rw [String.intercalate_cons_cons]
    exact (h.append_right sep).append hrest

/-- They hold what one of them holds. -/
theorem intercalate_of_mem (sep : String) {texts : List String} (hmem : text ∈ texts) (h : Holds pieces text) :
    Holds pieces (sep.intercalate texts) := by
  induction texts with
  | nil => cases hmem
  | cons first rest ih =>
    rcases List.mem_cons.mp hmem with rfl | hmem
    · have hall := h.intercalate_cons (.nil (sep.intercalate rest))
      rwa [List.append_nil] at hall
    · exact Holds.intercalate_cons (.nil first) (ih hmem)

theorem intercalate (sep : String) {lists : List (List String)} {texts : List String}
    (h : List.Forall₂ Holds lists texts) : Holds lists.flatten (sep.intercalate texts) := by
  induction h with
  | nil => exact .nil _
  | cons hfirst _ ih => exact hfirst.intercalate_cons ih

end Holds

/-! ### Tabs -/

theorem expandTabs_append (s t : String) : expandTabs (s ++ t) = expandTabs s ++ expandTabs t := by
  rw [expandTabs, String.toList_append, List.flatMap_append, String.ofList_append]
  rfl

theorem tab_notMem_expandTabs (s : String) : '\t' ∉ (expandTabs s).toList := by
  rw [expandTabs, String.toList_ofList, List.mem_flatMap]
  rintro ⟨c, -, hc⟩
  split at hc
  · simp at hc
  · next hne => exact hne (List.mem_singleton.mp hc).symm

/-- A text is left as it is if and only if it has no tab. -/
theorem expandTabs_eq_self_iff {s : String} : expandTabs s = s ↔ '\t' ∉ s.toList := by
  refine ⟨fun h => h ▸ tab_notMem_expandTabs s, fun h => ?_⟩
  have hkept : s.toList.flatMap (fun c => if c = '\t' then [' ', ' '] else [c]) = s.toList.flatMap fun c => [c] := by
    refine List.flatMap_congr fun c hc => if_neg ?_
    rintro rfl
    exact h hc
  rw [expandTabs, hkept, List.flatMap_singleton', String.ofList_toList]

theorem expandTabs_expandTabs (s : String) : expandTabs (expandTabs s) = expandTabs s :=
  expandTabs_eq_self_iff.mpr (tab_notMem_expandTabs s)

theorem expandTabs_intercalate (sep : String) (texts : List String) :
    expandTabs (String.intercalate sep texts) = String.intercalate (expandTabs sep) (texts.map expandTabs) := by
  induction texts with
  | nil => rfl
  | cons text rest ih =>
    cases rest with
    | nil => rw [List.map_cons, List.map_nil, String.intercalate_singleton, String.intercalate_singleton]
    | cons other rest =>
      rw [List.map_cons] at ih
      rw [List.map_cons, List.map_cons, String.intercalate_cons_cons, String.intercalate_cons_cons, expandTabs_append,
        expandTabs_append, ih]

/-- Lines without tabs are left as they are. -/
theorem expandTabs_intercalate_eq {sep : String} {texts : List String} (hsep : '\t' ∉ sep.toList)
    (h : ∀ text ∈ texts, '\t' ∉ text.toList) :
    expandTabs (String.intercalate sep texts) = String.intercalate sep texts := by
  rw [expandTabs_intercalate, expandTabs_eq_self_iff.mpr hsep,
    List.map_congr_left fun text htext => expandTabs_eq_self_iff.mpr (h text htext), List.map_id']

theorem expandTabs_join (texts : List String) : expandTabs (String.join texts) = String.join (texts.map expandTabs) := by
  induction texts with
  | nil => rfl
  | cons text rest ih => rw [List.map_cons, String.join_cons, String.join_cons, expandTabs_append, ih]

/-- Expanding tabs neither adds nor removes a line break. -/
theorem onOneLine_expandTabs_iff {s : String} : OnOneLine (expandTabs s) ↔ OnOneLine s := by
  have hmem : ∀ c, c ≠ '\t' → c ≠ ' ' → (c ∈ (expandTabs s).toList ↔ c ∈ s.toList) := by
    intro c htab hblank
    rw [expandTabs, String.toList_ofList, List.mem_flatMap]
    constructor
    · rintro ⟨d, hd, hc⟩
      split at hc
      · simp [hblank] at hc
      · rwa [List.mem_singleton.mp hc]
    · intro hc
      exact ⟨c, hc, by rw [if_neg htab]; exact List.mem_singleton_self c⟩
  rw [OnOneLine, OnOneLine, hmem '\n' (by decide) (by decide), hmem '\r' (by decide) (by decide)]

theorem Holds.expandTabs {pieces : List String} {text : String} (h : Holds pieces text) :
    Holds (pieces.map expandTabs) (expandTabs text) := by
  induction h with
  | nil => exact .nil _
  | cons before piece _ ih =>
    rw [expandTabs_append, expandTabs_append, List.map_cons]
    exact .cons _ _ ih

/-! ### Literals -/

/-- In a literal the tabs are those of the value. -/
theorem expandTabs_literal (value : String) : expandTabs (literal value) = literal (expandTabs value) := by
  -- Neither a tab nor a blank is escaped, so it does not matter what is done first to a character.
  have hescape : ∀ c, (escape c).flatMap (fun c => if c = '\t' then [' ', ' '] else [c])
      = (if c = '\t' then [' ', ' '] else [c]).flatMap escape := by
    intro c
    by_cases htab : c = '\t'
    · subst htab
      decide
    · rw [if_neg htab, List.flatMap_singleton]
      unfold escape
      split
      · simp [htab]
      · rw [List.flatMap_singleton, if_neg htab]
  simp only [literal, expandTabs, literalChars, String.toList_ofList, List.flatMap_cons, List.flatMap_append,
    List.flatMap_nil, List.flatMap_assoc, hescape]
  rfl

/-- Where a character ends can be seen from its beginning. -/
theorem escape_append_inj {c d : Char} {cs ds : List Char} (h : escape c ++ cs = escape d ++ ds) :
    c = d ∧ cs = ds := by
  unfold escape at h
  split at h
  · split at h
    · simpa using h
    · next hd =>
      obtain ⟨rfl, -⟩ := List.cons.inj h
      exact absurd (.inr rfl) hd
  · next hc =>
    split at h
    · obtain ⟨rfl, -⟩ := List.cons.inj h
      exact absurd (.inr rfl) hc
    · simpa using h

theorem escape_append_ne_nil (c : Char) (cs : List Char) : escape c ++ cs ≠ [] := by
  unfold escape
  split <;> exact List.cons_ne_nil _ _

theorem flatMap_escape_inj {cs ds : List Char} (h : cs.flatMap escape = ds.flatMap escape) : cs = ds := by
  induction cs generalizing ds with
  | nil =>
    cases ds with
    | nil => rfl
    | cons d ds => exact absurd h.symm (escape_append_ne_nil d _)
  | cons c cs ih =>
    cases ds with
    | nil => exact absurd h (escape_append_ne_nil c _)
    | cons d ds =>
      rw [List.flatMap_cons, List.flatMap_cons] at h
      obtain ⟨rfl, hrest⟩ := escape_append_inj h
      rw [ih hrest]

theorem literal_inj {s t : String} : literal s = literal t ↔ s = t := by
  refine ⟨fun h => ?_, congrArg literal⟩
  rw [literal, literal, String.ofList_inj, literalChars, literalChars, List.cons.injEq] at h
  exact String.toList_inj.mp (flatMap_escape_inj (List.append_cancel_right h.2))

/-- Reads a literal: an opening quote, and all up to the closing one.  Of the escapes of the language it knows the
    two that literals are printed with. -/
def readLiteral (cs : List Char) : Option (String × List Char) :=
  match cs with
  | '\'' :: rest => TypeSyntax.quoted rest
  | _ => none

theorem readLiteral_append (value : String) (rest : List Char) :
    readLiteral ((literal value).toList ++ rest)
      = TypeSyntax.quoted (value.toList.flatMap escape ++ '\'' :: rest) := by
  rw [literal, String.toList_ofList, literalChars, List.cons_append, List.append_assoc, List.singleton_append]
  rfl

/-- A line break ends the reading of a literal. -/
theorem unescape_eq_none {cs : List Char} (h : ¬ ('\n' ∉ cs ∧ '\r' ∉ cs)) (rest : List Char) :
    unescape (cs.flatMap escape ++ rest) = none := by
  induction cs with
  | nil => simp at h
  | cons c cs ih =>
    rw [List.flatMap_cons, List.append_assoc]
    by_cases hbreak : c = '\n' ∨ c = '\r'
    · rcases hbreak with rfl | rfl
      · rfl
      · rfl
    · rw [not_or] at hbreak
      have hcs : ¬ ('\n' ∉ cs ∧ '\r' ∉ cs) := by
        simpa [Ne.symm hbreak.1, Ne.symm hbreak.2] using h
      rw [unescape_escape c hbreak, ih hcs]
      rfl

/-- **What is read back.**  The literal that is printed for a value, with its tabs expanded, is read as the value if
    and only if the value has no tab and no line break. -/
theorem readLiteral_expandTabs_iff (value : String) (rest : List Char) :
    readLiteral ((literal (expandTabs value)).toList ++ rest) = some (value, rest)
      ↔ OnOneLine value ∧ '\t' ∉ value.toList := by
  rw [readLiteral_append]
  by_cases hline : OnOneLine value
  · rw [quoted_append (onOneLine_expandTabs_iff.mpr hline), Option.some_inj, Prod.mk.injEq, expandTabs_eq_self_iff]
    simp [hline]
  · have hnone : unescape ((expandTabs value).toList.flatMap escape ++ '\'' :: rest) = none :=
      unescape_eq_none (mt onOneLine_expandTabs_iff.mp hline) _
    rw [TypeSyntax.quoted, hnone]
    simp [hline]

/-! ### The values that are printed -/

def Tag.values : Tag → List String
  | .plain value => [value]
  | .member .. => []

namespace TypeExpr

mutual

/-- The values that are printed for an expression, in order. -/
def values : TypeExpr → List String
  | .builtin _ | .named .. => []
  | .literals values => values
  | .record value => values value
  | .array element => values element
  | .object fields => valuesOfFields fields
  | .all parts => valuesOfParts parts
  | .any variants => valuesOfVariants variants

def valuesOfFields : List (Field TypeExpr) → List String
  | [] => []
  | ⟨_, type, _⟩ :: rest => values type ++ valuesOfFields rest

def valuesOfParts : List TypeExpr → List String
  | [] => []
  | part :: rest => values part ++ valuesOfParts rest

def valuesOfVariants : List (Variant TypeExpr) → List String
  | [] => []
  | ⟨type, none⟩ :: rest => values type ++ valuesOfVariants rest
  | ⟨type, some (_, tag)⟩ :: rest => values type ++ tag.values ++ valuesOfVariants rest

end

end TypeExpr

/-- The values that are printed for an export, in order. -/
def Export.values : Export → List String
  | .type _ e => e.values
  | .enum _ values => values

/-- The values that are printed into the types, in order. -/
def Client.values (c : Client) : List String :=
  c.exports.flatMap Export.values

/-! ### Where they stand -/

theorem holds_literals (values : List String) (sep : String) :
    Holds (values.map literal) (sep.intercalate (values.map literal)) := by
  induction values with
  | nil => exact .nil _
  | cons value rest ih => exact (Holds.singleton (literal value)).intercalate_cons ih

theorem holds_tag (tag : Tag) : Holds (tag.values.map literal) tag.text := by
  cases tag with
  | plain value => exact .singleton (literal value)
  | member => exact .nil _

namespace TypeExpr

variable {pieces : List String} {text : String}

theorem holds_braced (h : Holds pieces text) : Holds pieces (braced text) :=
  (h.append_left "\x7b").append_right "\x7d"

theorem holds_block {lines : List String} (h : Holds pieces (String.intercalate "\n" lines)) (depth : Nat) :
    Holds pieces (block depth lines) :=
  holds_braced (((h.append_left "\n").append_right "\n").append_right (indent depth))

theorem holds_parenthesized (e : TypeExpr) (h : Holds pieces text) : Holds pieces (e.parenthesized text) := by
  unfold parenthesized
  split
  · exact (h.append_left "(").append_right ")"
  · exact h

theorem holds_line (depth : Nat) (name : String) (required : Bool) (h : Holds pieces text) :
    Holds pieces (line depth name required text) :=
  (h.append_left _).append_right ";"

/-- The value of a tag follows the values of the type that has the tag. -/
theorem holds_variantText (e : TypeExpr) (tag : Option (String × Tag)) (h : Holds pieces text) :
    Holds (pieces ++ tag.elim [] fun (_, tag) => tag.values.map literal) (e.variantText tag text) := by
  cases tag with
  | none =>
    rw [Option.elim_none, List.append_nil]
    exact holds_parenthesized e h
  | some tagged =>
    obtain ⟨field, tag⟩ := tagged
    have htag : Holds (tag.values.map literal) (braced (" " ++ field ++ ": " ++ tag.text ++ " ")) :=
      holds_braced (((holds_tag tag).append_left _).append_right " ")
    exact ((((h.append_left "Omit<").append_right ", '").append_right field).append_right "'> & ").append htag

mutual

/-- The text of an expression holds its values. -/
theorem holds_text (depth : Nat) : ∀ e : TypeExpr, Holds (e.values.map literal) (e.text depth)
  | .builtin _ => .nil _
  | .named .. => .nil _
  | .literals values => by
    rw [TypeExpr.values, text]
    exact holds_literals values " | "
  | .record value => by
    rw [TypeExpr.values, text]
    exact ((holds_text depth value).append_left "Record<string, ").append_right ">"
  | .array element => by
    rw [TypeExpr.values, text]
    exact (holds_parenthesized element (holds_text depth element)).append_right "[]"
  | .object fields => by
    rw [TypeExpr.values]
    by_cases hempty : fields = []
    · subst hempty
      exact .nil _
    · rw [text_object hempty]
      exact holds_block (holds_lines depth fields) depth
  | .all parts => by
    rw [TypeExpr.values, text]
    exact holds_operands depth parts
  | .any variants => by
    rw [TypeExpr.values, text]
    exact holds_alternatives depth variants

theorem holds_lines (depth : Nat) : ∀ fields : List (Field TypeExpr),
    Holds ((valuesOfFields fields).map literal) (String.intercalate "\n" (lines depth fields))
  | [] => .nil _
  | ⟨name, type, required⟩ :: rest => by
    rw [valuesOfFields, lines, List.map_append]
    exact (holds_line depth name required (holds_text (depth + 1) type)).intercalate_cons (holds_lines depth rest)

theorem holds_operands (depth : Nat) : ∀ parts : List TypeExpr,
    Holds ((valuesOfParts parts).map literal) (String.intercalate " & " (operands depth parts))
  | [] => .nil _
  | part :: rest => by
    rw [valuesOfParts, operands, List.map_append]
    exact (holds_parenthesized part (holds_text depth part)).intercalate_cons (holds_operands depth rest)

theorem holds_alternatives (depth : Nat) : ∀ variants : List (Variant TypeExpr),
    Holds ((valuesOfVariants variants).map literal) (String.intercalate " | " (alternatives depth variants))
  | [] => .nil _
  | ⟨type, tag⟩ :: rest => by
    have hvalues : (valuesOfVariants (⟨type, tag⟩ :: rest)).map literal
        = (type.values.map literal ++ tag.elim [] fun (_, tag) => tag.values.map literal)
          ++ (valuesOfVariants rest).map literal := by
      rcases tag with _ | ⟨field, tag⟩
      · rw [valuesOfVariants, List.map_append, Option.elim_none, List.append_nil]
      · rw [valuesOfVariants, List.map_append, List.map_append, Option.elim_some]
    rw [hvalues, alternatives]
    exact (holds_variantText type tag (holds_text depth type)).intercalate_cons (holds_alternatives depth rest)

end

end TypeExpr

theorem holds_enumLines (memberOf : String → String) (values : List String) :
    Holds (values.map literal)
      (String.intercalate "\n" (values.map fun value => enumLine (memberOf value) value)) := by
  induction values with
  | nil => exact .nil _
  | cons value rest ih =>
    have hline : Holds [literal value] (enumLine (memberOf value) value) :=
      ((Holds.singleton (literal value)).append_left _).append_right ","
    exact hline.intercalate_cons ih

theorem Export.holds_code (x : Export) : Holds (x.values.map literal) x.code := by
  cases x with
  | type name e => exact ((e.holds_text 0).append_left _).append_right ";"
  | enum name values => exact (TypeExpr.holds_block (holds_enumLines _ values) 0).append_left _

/-- Blocks that are added together stay in their order, and a file without import lines begins with them. -/
theorem text_addCode (name : String) (codes : List String) :
    ((CodeFile.empty name).addCode codes).text
      = expandTabs (String.intercalate "\n\n" (codes.map expandTabs) ++ "\n") := by
  have hsorted : ((CodeFile.empty name).addCode codes).sortedBlocks = codes.map fun code => ⟨0, code⟩ := by
    refine List.mergeSort_of_pairwise ?_
    simp [CodeFile.addCode, CodeFile.empty, List.pairwise_map, List.pairwise_of_forall]
  have hparts : ∀ code : String, String.intercalate "\n\n" (["", code].filter (· != "")) = code := by
    intro code
    by_cases hempty : code = ""
    · subst hempty
      rfl
    · simp [hempty]
  rw [CodeFile.text, hsorted, List.map_map]
  exact congrArg (fun text => expandTabs (text ++ "\n")) (hparts _)

/-- The file of the types holds the literals of the values that are printed, with their tabs expanded. -/
theorem Client.holds_types (c : Client) :
    Holds (c.values.map fun value => literal (expandTabs value))
      ((CodeFile.empty "types.ts").addCode (c.exports.map Export.code)).text := by
  have hblocks : List.Forall₂ Holds (c.exports.map fun x => (x.values.map literal).map expandTabs)
      ((c.exports.map Export.code).map expandTabs) := by
    rw [List.map_map, List.forall₂_map_left_iff, List.forall₂_map_right_iff, List.forall₂_same]
    exact fun x _ => x.holds_code.expandTabs
  have htext := ((Holds.intercalate "\n\n" hblocks).append_right "\n").expandTabs
  rw [← text_addCode "types.ts"] at htext
  -- Tabs are expanded twice, in each block and in the file, and the second time there are none.
  have hvalues : (c.exports.map fun x => (x.values.map literal).map expandTabs).flatten.map expandTabs
      = c.values.map fun value => literal (expandTabs value) := by
    simp [values, List.map_flatten, List.flatMap_def, Function.comp_def, expandTabs_literal, expandTabs_expandTabs]
  rwa [hvalues] at htext

/-- **Values in the generated types.**  Whatever is generated is the text of a client.  The file of its types holds
    the literals of all values that are printed, in order, and tabs in the values are expanded.  What stands for
    a value is read back as the value if and only if the value has neither a tab nor a line break, and the same
    stands for two values if and only if they do not differ but in what tabs are expanded to. -/
theorem generate_holds_values {options : Options} {d : Description} {project : Project}
    (h : generate options d = .ok project) :
    ∃ client file, d.client options = .ok client ∧ project = client.project options.space
      ∧ project.getFile? "types.ts" = some file
      ∧ Holds (client.values.map fun value => literal (expandTabs value)) file.text
      ∧ (∀ value ∈ client.values, ∀ rest,
        readLiteral ((literal (expandTabs value)).toList ++ rest) = some (value, rest)
          ↔ OnOneLine value ∧ '\t' ∉ value.toList)
      ∧ ∀ value ∈ client.values, ∀ other ∈ client.values,
        literal (expandTabs value) = literal (expandTabs other) ↔ expandTabs value = expandTabs other := by
  obtain ⟨client, hclient, rfl⟩ := exists_client h
  exact ⟨client, _, hclient, rfl, rfl, client.holds_types, fun value _ rest => readLiteral_expandTabs_iff value rest,
    fun _ _ _ _ => literal_inj⟩

end Output

/-! ### Values that differ in their blanks -/

open Output

/-- A tab, two blanks, a line break. -/
def gapValues : List String :=
  ["a\tb", "a  b", "a\nb"]

def gapSchema : Value :=
  .map [(.text "type", .text "string"), (.text "enum", .list (gapValues.map .text))]

def gapDocument : Value :=
  .map [(.text "components", .map [(.text "schemas", .map [(.text "Gap", gapSchema)])])]

def gapRead : Resolver where
  entry := ""
  base := ""
  registry := [("#/components/schemas/Gap", ⟨"Gap", "#/components/schemas/Gap", .enum gapValues none⟩)]
  pending := []
  queue := []
  loaded := [""]
  asked := []

def gap : Description :=
  ⟨gapRead.registry, [], []⟩

theorem converts_gap : Schema.Converts ⟨"", ""⟩ gapSchema [] (.enum gapValues none) :=
  .enum ⟨rfl, rfl⟩ rfl rfl

theorem register_gap : (Resolver.fresh "" "").register "" gapDocument = (.ok (), gapRead) := by
  show Resolver.registerSchemas _ "" [(.text "Gap", gapSchema)] = _
  simp only [Resolver.registerSchemas, Resolver.convert, Resolver.run, Value.asText]
  have hscope : (Resolver.fresh "" "").scope "" = ⟨"", ""⟩ := rfl
  rw [hscope, converts_gap.convert_eq]
  rfl

theorem parse_gap : Description.parse (Source.ofTable []) "" "" false gapDocument = .ok gap :=
  Description.parse_of_reads ⟨_, register_gap, rfl⟩ rfl rfl rfl

def gapClient : Client where
  exports := [.type "Gap" (.literals gapValues)]
  groups := groups.map fun g => (g, [])

theorem sortedDeclarations_gap :
    sortedDeclarations gap.registry = [⟨"Gap", "#/components/schemas/Gap", .enum gapValues none⟩] :=
  List.mergeSort_singleton _

theorem client_gap : gap.client ⟨false, none⟩ = .ok gapClient := by
  unfold Description.client
  rw [sortedDeclarations_gap]
  rfl

theorem generate_gap : ∃ project, generate ⟨false, none⟩ gap = .ok project := by
  obtain ⟨types, htypes⟩ : ∃ file, typesFile ⟨false, none⟩ gap = .ok file := by
    simp only [typesFile, sortedDeclarations_gap]
    exact ⟨_, rfl⟩
  obtain ⟨methods, hmethods⟩ : ∃ file, methodsFile ⟨false, none⟩ gap = .ok file := ⟨_, rfl⟩
  exact ⟨_, generate_of_files htypes hmethods⟩

/-- The value with two blanks is read back from the types, the one with a tab is not. -/
theorem gap_holds_values : ∃ project file, generate ⟨false, none⟩ gap = .ok project
    ∧ project.getFile? "types.ts" = some file
    ∧ Holds ["'a  b'", "'a  b'", "'a\nb'"] file.text
    ∧ readLiteral "'a  b';".toList = some ("a  b", [';'])
    ∧ readLiteral "'a  b';".toList ≠ some ("a\tb", [';']) := by
  obtain ⟨project, hgenerate⟩ := generate_gap
  obtain ⟨client, file, hclient, -, hfile, hholds, hread, -⟩ := generate_holds_values hgenerate
  cases client_gap.symm.trans hclient
  have hvalues : gapClient.values = gapValues := rfl
  rw [hvalues] at hholds hread
  refine ⟨project, file, hgenerate, hfile, hholds, ?_, ?_⟩
  · exact (hread "a  b" (by decide) [';']).mpr ⟨by unfold TypeSyntax.OnOneLine; decide, by decide⟩
  · intro hcontra
    exact ((hread "a\tb" (by decide) [';']).mp hcontra).2 (by decide)

/-- Two of the values have one literal, and the third has none that can be read. -/
theorem gap_values_lost : ∃ project file,
    Description.parse (Source.ofTable []) "" "" false gapDocument = .ok gap
      ∧ generate ⟨false, none⟩ gap = .ok project ∧ project.getFile? "types.ts" = some file
      ∧ file.text = "export type Gap = 'a  b' | 'a  b' | 'a\nb';\n"
      ∧ readLiteral "'a\nb';\n".toList = none := by
  obtain ⟨project, hgenerate⟩ := generate_gap
  obtain ⟨client, hclient, rfl⟩ := exists_client hgenerate
  cases client_gap.symm.trans hclient
  refine ⟨_, _, parse_gap, hgenerate, rfl, ?_, rfl⟩
  rw [text_addCode]
  decide +kernel

end TypedClient
