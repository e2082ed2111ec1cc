import TypedClient.Proofs.Expressions
import TypedClient.Proofs.MemberNames
import TypedClient.Proofs.TypeNodes
import TypedClient.Proofs.TypeReading

namespace TypedClient.Output

open TypeSyntax
open ClientType (Inside)

/-!
# Written types are read back

Parentheses are put at some places of a text and left out at others, and where they are put depends on how an
enum is written.  This file shows that they are where they have to be: the text of a type is read as the type
that it was written for.

* `TypeExpr.tree` — what a written form is, apart from how it is printed.
* `TypeExpr.Readable` — the names and values in a written form can be printed as they are.
* `TypeExpr.Readable.reads` — the text of a written form is read as what the written form is.
* `TypeExpr.Readable.tree_eq_of_text_eq` — written forms that are not the same have different texts.
* `TypeWriter.CanWrite` — the names and values at a node of a type can be printed as they are.
* `TypeWriter.parse_write` — what is written for a type is read as the type.
-/

/-! ### What a written form is -/

/-- A value of a discriminator is a literal, or a member of an enum. -/
def Tag.tree : Tag → TypeTree
  | .plain value => .literal value
  | .member space enum name _ => .named (space.toList ++ [enum, name]) []

/-- The type of a variant: a tag takes the place of the field that the type has of its own. -/
def taggedTree (tag : Option (String × Tag)) (tree : TypeTree) : TypeTree :=
  match tag with
  | some (field, tag) => .all [.own "Omit" [tree, .literal field], .object [⟨field, tag.tree, true⟩]]
  | none => tree

namespace TypeExpr

mutual

/-- What a written form is, apart from how it is printed. -/
def tree : TypeExpr → TypeTree
  | .builtin type => .own type.text []
  | .named space name => .named (space.toList ++ [name]) []
  | .literals values => .anyOf (values.map .literal)
  | .record value => .own "Record" [.own "string" [], tree value]
  | .array element => .array (tree element)
  | .object fields => .object (treesOfFields fields)
  | .all parts => .allOf (treesOfParts parts)
  | .any variants => .anyOf (treesOfVariants variants)

def treesOfFields : List (Field TypeExpr) → List (Field TypeTree)
  | [] => []
  | ⟨name, type, required⟩ :: rest => ⟨name, tree type, required⟩ :: treesOfFields rest

def treesOfParts : List TypeExpr → List TypeTree
  | [] => []
  | part :: rest => tree part :: treesOfParts rest

def treesOfVariants : List (Variant TypeExpr) → List TypeTree
  | [] => []
  | ⟨type, tag⟩ :: rest => taggedTree tag (tree type) :: treesOfVariants rest

end

end TypeExpr

/-! ### Names and values that can be printed -/

/-- The names and the value in a tag can be printed as they are. -/
def Tag.Readable : Tag → Prop
  | .plain value => OnOneLine value
  | .member space enum name _ =>
    (∀ s ∈ space, isIdentifier s) ∧ isTypeName enum ∧ isIdentifierName name

/-- The names and values in a written form can be printed as they are, and no list that is printed with an
    operator is empty. -/
inductive TypeExpr.Readable : TypeExpr → Prop
  | builtin {type} : Readable (.builtin type)
  | named {space name} : (∀ s ∈ space, isIdentifier s) → isTypeName name → Readable (.named space name)
  | literals {values} : values ≠ [] → (∀ value ∈ values, OnOneLine value) → Readable (.literals values)
  | record {value} : Readable value → Readable (.record value)
  | array {element} : Readable element → Readable (.array element)
  | object {fields} : (∀ f ∈ fields, isIdentifierName f.name) → (∀ f ∈ fields, Readable f.type) →
      Readable (.object fields)
  | all {parts} : parts ≠ [] → (∀ part ∈ parts, Readable part) → Readable (.all parts)
  | any {variants} : variants ≠ [] → (∀ v ∈ variants, Readable v.type) →
      (∀ v ∈ variants, ∀ field tag, v.tag = some (field, tag) → isIdentifierName field ∧ tag.Readable) →
      Readable (.any variants)

namespace TypeExpr

/-! ### The text of a written form -/

variable {e : TypeExpr} {depth : Nat}

/-- The text is read as what the written form is, next to an operator and between brackets. -/
def Reads (e : TypeExpr) : Prop :=
  ∀ depth, ReadsOperand (e.parenthesized (e.text depth)).toList e.tree ∧ ReadsType (e.text depth).toList e.tree

/-- Without operators, the text itself is an operand. -/
theorem reads_of_operand (hcompound : e.isCompound = false)
    (h : ∀ depth, ReadsOperand (e.text depth).toList e.tree) : e.Reads := by
  intro depth
  rw [parenthesized, hcompound, if_neg Bool.false_ne_true]
  exact ⟨h depth, (h depth).readsType⟩

/-- With operators, the parentheses make an operand of the text. -/
theorem reads_of_type (hcompound : e.isCompound = true)
    (h : ∀ depth, ReadsType (e.text depth).toList e.tree) : e.Reads := by
  intro depth
  have htext : ("(" ++ e.text depth ++ ")").toList = '(' :: ((e.text depth).toList ++ [')']) := by simp
  rw [parenthesized, hcompound, if_pos rfl, htext]
  exact ⟨(h depth).parenthesized, h depth⟩

/-! #### Names -/

theorem toList_qualifiedText (space : Option String) (name : String) :
    (qualifiedText space name).toList = ['.'].intercalate ((space.toList ++ [name]).map String.toList) := by
  cases space <;> simp [qualifiedText, List.intercalate_cons_cons]

theorem reads_builtin (type : Builtin) : (builtin type).Reads := by
  refine reads_of_operand rfl fun depth => ?_
  have hpath : ReadsOperand (['.'].intercalate ([type.text].map String.toList)) (.own type.text []) := by
    refine readsOperand_path ?_ (by nofun) ?_
    · rw [List.forall_mem_singleton]
      cases type <;> decide
    · cases type <;> rfl
  rwa [List.map_cons, List.map_nil, List.intercalate_singleton] at hpath

/-- A name, or a member of the enum of that name, with what stands in front. -/
theorem readsOperand_qualified {space : Option String} (hspace : ∀ s ∈ space, isIdentifier s) {name : String}
    (hname : isTypeName name) :
    ReadsOperand (qualifiedText space name).toList (.named (space.toList ++ [name]) []) := by
  rw [toList_qualifiedText]
  have hidentifier := isIdentifierName_of_isIdentifier (isIdentifier_of_isTypeName hname)
  cases space with
  | none => exact readsOperand_path (by simpa using hidentifier) (by nofun) (lookup_typeName hname)
  | some s =>
    have hs := hspace s rfl
    refine readsOperand_path ?_ (by nofun) (lookup_qualified hs name [])
    simpa using ⟨isIdentifierName_of_isIdentifier hs, hidentifier⟩

/-! #### Literals -/

theorem toList_literal (value : String) : (literal value).toList = literalChars value.toList := by
  rw [literal, String.toList_ofList]

theorem reads_literals {values : List String} (hne : values ≠ []) (hvalues : ∀ value ∈ values, OnOneLine value) :
    (literals values).Reads := by
  have hpieces : List.Forall₂ ReadsOperand ((values.map Output.literal).map String.toList)
      (values.map TypeTree.literal) := by
    rw [List.map_map, List.forall₂_map_left_iff, List.forall₂_map_right_iff, List.forall₂_same]
    intro value hvalue
    rw [Function.comp_apply, toList_literal]
    exact readsOperand_literal (hvalues value hvalue)
  cases hlength : (literals values).isCompound with
  | true =>
    refine reads_of_type hlength fun depth => ?_
    rw [text, String.toList_intercalate]
    exact readsType_intercalate (hpieces.imp fun _ _ h => h.readsPart) (by simpa using hne)
  | false =>
    -- One value alone is an operand.
    refine reads_of_operand hlength fun depth => ?_
    obtain ⟨value, rfl⟩ : ∃ value, values = [value] := by
      rw [isCompound, decide_eq_false_iff_not] at hlength
      have hpos := List.length_pos_iff.mpr hne
      exact List.length_eq_one_iff.mp (by omega)
    rw [text, List.map_singleton, String.intercalate_singleton, toList_literal]
    exact readsOperand_literal (hvalues value List.mem_cons_self)

/-! #### Arguments and elements -/

theorem reads_record {value : TypeExpr} (h : value.Reads) : (record value).Reads := by
  refine reads_of_operand rfl fun depth => ?_
  have hstring : ReadsType "string".toList (.own "string" []) := (reads_builtin .string depth).2
  have hrecord := readsOperand_arguments "Record" rfl (.cons hstring (.cons (h depth).2 .nil)) (by nofun) rfl
  have htext : ((record value).text depth).toList
      = "Record".toList ++ '<' :: ([',', ' '].intercalate ["string".toList, (value.text depth).toList] ++ ['>']) := by
    simp [text, List.intercalate_cons_cons]
  rw [htext]
  exact hrecord

theorem reads_array {element : TypeExpr} (h : element.Reads) : (array element).Reads := by
  refine reads_of_operand rfl fun depth => ?_
  rw [text, String.toList_append]
  exact (h depth).1.array

/-! #### Operators -/

theorem operands_eq_map (depth : Nat) (parts : List TypeExpr) :
    operands depth parts = parts.map fun part => part.parenthesized (part.text depth) := by
  induction parts with
  | nil => rfl
  | cons part rest ih => rw [operands, ih, List.map_cons]

theorem treesOfParts_eq_map (parts : List TypeExpr) : treesOfParts parts = parts.map tree := by
  induction parts with
  | nil => rfl
  | cons part rest ih => rw [treesOfParts, ih, List.map_cons]

theorem reads_all {parts : List TypeExpr} (hne : parts ≠ []) (h : ∀ part ∈ parts, part.Reads) :
    (all parts).Reads := by
  refine reads_of_type rfl fun depth => ?_
  rw [text, tree, String.toList_intercalate, operands_eq_map, treesOfParts_eq_map]
  refine (readsPart_intercalate ?_ (by simpa using hne)).readsType
  rw [List.map_map, List.forall₂_map_left_iff, List.forall₂_map_right_iff, List.forall₂_same]
  exact fun part hpart => (h part hpart depth).1

/-- Names need no backslashes between quotes. -/
theorem literalChars_of_isIdentifierName {name : String} (h : isIdentifierName name) :
    literalChars name.toList = '\'' :: (name.toList ++ ['\'']) ∧ OnOneLine name := by
  obtain ⟨c, tail, hname, hc, htail⟩ := exists_start h
  have hpart : ∀ d ∈ name.toList, isPart d := by
    rw [hname, List.forall_mem_cons]
    exact ⟨by rw [isPart, hc, Bool.true_or], htail⟩
  have hescape : name.toList.flatMap escape = name.toList := by
    refine (List.flatMap_congr fun d hd => ?_).trans (List.flatMap_singleton' name.toList)
    have hplain : ¬ (d = '\'' ∨ d = '\\') := by
      rintro (rfl | rfl) <;> exact absurd (hpart _ hd) (by decide)
    rw [escape, if_neg hplain]
  refine ⟨by rw [literalChars, hescape], ?_, ?_⟩
  · exact fun hbreak => absurd (hpart _ hbreak) (by decide)
  · exact fun hbreak => absurd (hpart _ hbreak) (by decide)

/-! #### Variants -/

theorem reads_tag {tag : Tag} (h : tag.Readable) : ReadsType tag.text.toList tag.tree := by
  cases tag with
  | plain value =>
    rw [Tag.text, toList_literal]
    exact (readsOperand_literal h).readsType
  | member space enum name value =>
    obtain ⟨hspace, henum, hname⟩ := h
    have htext : (Tag.member space enum name value).text.toList
        = ['.'].intercalate ((space.toList ++ [enum, name]).map String.toList) := by
      cases space <;> simp [Tag.text, qualifiedText, List.intercalate_cons_cons]
    have hidentifier := isIdentifier_of_isTypeName henum
    rw [htext]
    refine (readsOperand_path ?_ (by simp) ?_).readsType
    · have := isIdentifierName_of_isIdentifier hidentifier
      cases space with
      | none => simpa using ⟨this, hname⟩
      | some s => simpa using ⟨isIdentifierName_of_isIdentifier (hspace s rfl), this, hname⟩
    · cases space with
      | none => exact lookup_qualified hidentifier name []
      | some s => exact lookup_qualified (hspace s rfl) enum [name]

/-- The text of a variant is an operand of `|`. -/
theorem readsPart_variant {v : Variant TypeExpr} (h : v.type.Reads)
    (htag : ∀ field tag, v.tag = some (field, tag) → isIdentifierName field ∧ tag.Readable) (depth : Nat) :
    ReadsPart (v.type.variantText v.tag (v.type.text depth)).toList (taggedTree v.tag v.type.tree) := by
  obtain ⟨type, _ | ⟨field, tag⟩⟩ := v
  · exact (h depth).1.readsPart
  · obtain ⟨hfield, hvalue⟩ := htag field tag rfl
    obtain ⟨hquoted, hline⟩ := literalChars_of_isIdentifierName hfield
    have homit := readsOperand_arguments "Omit" rfl
      (.cons (h depth).2 (.cons (readsOperand_literal hline).readsType .nil)) (List.cons_ne_nil _ _) rfl
    have hspace : ∀ c ∈ [' '], c.isWhitespace := List.forall_mem_singleton.mpr rfl
    have hobject := (ReadsFields.single (reads_tag hvalue) hfield true hspace).object
    have htext : (variantText type (some (field, tag)) (type.text depth)).toList
        = [' ', '&', ' '].intercalate
          ["Omit".toList ++ '<' ::
              ([',', ' '].intercalate [(type.text depth).toList, literalChars field.toList] ++ ['>']),
            '{' :: ([' '] ++ (fieldChars field true tag.text.toList ++ [' ']) ++ ['}'])] := by
      simp [variantText, braced, fieldChars, hquoted, List.intercalate_cons_cons]
    rw [htext]
    exact readsPart_intercalate (.cons homit (.cons hobject .nil)) (List.cons_ne_nil _ _)

theorem alternatives_eq_map (depth : Nat) (variants : List (Variant TypeExpr)) :
    alternatives depth variants = variants.map fun v => v.type.variantText v.tag (v.type.text depth) := by
  induction variants with
  | nil => rfl
  | cons v rest ih => rw [alternatives, ih, List.map_cons]

theorem treesOfVariants_eq_map (variants : List (Variant TypeExpr)) :
    treesOfVariants variants = variants.map fun v => taggedTree v.tag v.type.tree := by
  induction variants with
  | nil => rfl
  | cons v rest ih => rw [treesOfVariants, ih, List.map_cons]

theorem reads_any {variants : List (Variant TypeExpr)} (hne : variants ≠ []) (h : ∀ v ∈ variants, v.type.Reads)
    (htag : ∀ v ∈ variants, ∀ field tag, v.tag = some (field, tag) → isIdentifierName field ∧ tag.Readable) :
    (any variants).Reads := by
  refine reads_of_type rfl fun depth => ?_
  rw [text, tree, String.toList_intercalate, alternatives_eq_map, treesOfVariants_eq_map]
  refine readsType_intercalate ?_ (by simpa using hne)
  rw [List.map_map, List.forall₂_map_left_iff, List.forall₂_map_right_iff, List.forall₂_same]
  exact fun v hv => readsPart_variant (h v hv) (htag v hv) depth

/-! #### Objects -/

/-- A line break with the blanks in front of a line. -/
def margin (depth : Nat) : List Char :=
  '\n' :: (indent depth).toList

theorem isWhitespace_of_mem_margin (depth : Nat) : ∀ c ∈ margin depth, c.isWhitespace := by
  rw [margin, indent, String.toList_ofList, List.forall_mem_cons]
  refine ⟨rfl, fun c hc => ?_⟩
  rw [List.eq_of_mem_replicate hc]
  rfl

theorem toList_line (name : String) (required : Bool) (text : String) :
    '\n' :: (line depth name required text).toList
      = margin (depth + 1) ++ (fieldChars name required text.toList ++ [';']) := by
  cases required <;> simp [line, margin, fieldChars]

/-- Every line is a field, and the margin of the closing brace ends the last one. -/
theorem readsFields_lines (depth : Nat) {fields : List (Field TypeExpr)} (hne : fields ≠ [])
    (hnames : ∀ f ∈ fields, isIdentifierName f.name) (h : ∀ f ∈ fields, f.type.Reads) :
    ReadsFields ('\n' :: (['\n'].intercalate ((lines depth fields).map String.toList) ++ margin depth))
      (treesOfFields fields) := by
  induction fields with
  | nil => exact absurd rfl hne
  | cons f rest ih =>
    obtain ⟨name, type, required⟩ := f
    rw [List.forall_mem_cons] at hnames h
    have htype : ReadsType (type.text (depth + 1)).toList type.tree := (h.1 (depth + 1)).2
    -- `after` is what follows the line: the other lines, or the closing margin.
    have hline : ∀ after shown, ReadsFields after shown →
        ReadsFields ('\n' :: ((line depth name required (type.text (depth + 1))).toList ++ after))
          (⟨name, type.tree, required⟩ :: shown) := by
      intro after shown hafter
      have hfields := hafter.cons htype hnames.1 required (isWhitespace_of_mem_margin (depth + 1))
      rw [← List.cons_append, toList_line]
      simpa using hfields
    rw [lines, treesOfFields]
    cases rest with
    | nil =>
      rw [lines, treesOfFields, List.map_singleton, List.intercalate_singleton]
      exact hline _ _ (.nil (isWhitespace_of_mem_margin depth))
    | cons g others =>
      have hothers := hline _ _ (ih (List.cons_ne_nil g others) hnames.2 h.2)
      obtain ⟨other, otherType, otherRequired⟩ := g
      rw [lines, List.map_cons, List.map_cons, List.intercalate_cons_cons]
      rw [lines, List.map_cons] at hothers
      simpa using hothers

theorem reads_object {fields : List (Field TypeExpr)} (hnames : ∀ f ∈ fields, isIdentifierName f.name)
    (h : ∀ f ∈ fields, f.type.Reads) : (object fields).Reads := by
  refine reads_of_operand rfl fun depth => ?_
  by_cases hne : fields = []
  · subst hne
    rw [text, tree, treesOfFields]
    exact (ReadsFields.nil (List.forall_mem_nil _)).object
  · have hobject := (readsFields_lines depth hne hnames h).object
    have htext : ((object fields).text depth).toList
        = '{' :: ('\n' :: (['\n'].intercalate ((lines depth fields).map String.toList) ++ margin depth) ++ ['}']) := by
      rw [text_object hne]
      simp [block, braced, margin]
    rw [htext, tree]
    exact hobject

/-- **The text of a written form is read as what the written form is.** -/
theorem Readable.reads (h : e.Readable) : e.Reads := by
  induction h with
  | builtin => exact reads_builtin _
  | named hspace hname => exact reads_of_operand rfl fun _ => readsOperand_qualified hspace hname
  | literals hne hvalues => exact reads_literals hne hvalues
  | record _ ih => exact reads_record ih
  | array _ ih => exact reads_array ih
  | object hnames _ ih => exact reads_object hnames ih
  | all hne _ ih => exact reads_all hne ih
  | any hne _ htags ih => exact reads_any hne ih htags

theorem Readable.parse_text (h : e.Readable) (depth : Nat) : parse (e.text depth) = some e.tree :=
  parse_of_readsType (h.reads depth).2

/-- Written forms with the same text are the same, apart from how they are printed. -/
theorem Readable.tree_eq_of_text_eq {e' : TypeExpr} (h : e.Readable) (h' : e'.Readable) {depth' : Nat}
    (htext : e.text depth = e'.text depth') : e.tree = e'.tree := by
  have hparse := h.parse_text depth
  rw [htext, h'.parse_text depth'] at hparse
  exact (Option.some.inj hparse).symm

end TypeExpr

/-! ### Types that are written -/

namespace TypeWriter

variable {w : TypeWriter} {type : ClientType}

/-- The names and values at a node can be printed as they are, and no list that is printed with an operator is
    empty. -/
def CanWrite (w : TypeWriter) : ClientType → Prop
  | .enum values assigned =>
    values ≠ [] ∧ (∀ value ∈ values, OnOneLine value) ∧ ∀ name ∈ w.enumName? assigned, isTypeName name
  | .object fields => ∀ f ∈ fields, isIdentifierName f.name
  | .composition parts => parts ≠ []
  | .ref key => ∀ d ∈ w.registry.get? key, isTypeName d.name
  | .union members tag mapping _ _ =>
    members ≠ [] ∧ (∀ field ∈ tag, isIdentifierName field) ∧ ∀ entry ∈ mapping, OnOneLine entry.1
  | _ => True

/-- The values of a discriminator are those of its mapping. -/
theorem mem_of_mem_tagValues {keys : List String} {mapping values : Table String String}
    (h : tagValues keys mapping = .ok values) {key value : String} (hmem : (key, value) ∈ values) :
    (value, key) ∈ mapping := by
  induction mapping generalizing values with
  | nil =>
    cases h
    cases hmem
  | cons entry rest ih =>
    obtain ⟨first, target⟩ := entry
    rw [tagValues] at h
    split at h
    · obtain ⟨later, hlater, hpure⟩ := Except.bind_eq_ok.mp h
      cases hpure
      rcases List.mem_cons.mp hmem with heq | hmem
      · cases heq
        exact List.mem_cons_self
      · exact List.mem_cons_of_mem _ (ih hlater hmem)
    · cases h

/-- The name of an enum member can be written without quotes. -/
theorem isIdentifierName_of_isPlain {name : String} (h : Naming.IsPlain name) : isIdentifierName name := by
  obtain ⟨c, tail, hname, hc, htail⟩ := h
  have hstart : isStart c := by
    rw [isStart, hc]
    rfl
  have hparts : tail.all isPart := by
    rw [List.all_eq_true]
    intro d hd
    have hplain := htail d hd
    rw [Char.isAlphanum, Bool.or_eq_true] at hplain
    rcases hplain with halpha | hdigit
    · simp [isPart, isStart, halpha]
    · simp [isPart, hdigit]
  rw [isIdentifierName, hname]
  show (isStart c && tail.all isPart) = true
  rw [hstart, hparts]
  rfl

theorem readable_of_describeTag (hspace : ∀ space ∈ w.qualifier, isIdentifier space) {tagType : Option String}
    (hkey : ∀ key ∈ tagType, w.CanWrite (.ref key)) {value : String} (hvalue : OnOneLine value) {tag : Tag}
    (h : w.describeTag tagType value = .ok tag) : tag.Readable := by
  obtain rfl | ⟨key, d, values, assigned, name, rfl, -, hd, -, hmember, rfl⟩ := exists_of_describeTag h
  · exact hvalue
  · exact ⟨hspace, hkey key rfl d hd, isIdentifierName_of_isPlain (Naming.isPlain_of_get?_members hmember)⟩

theorem readable_of_describeFields {omitted : Option String} {fields : List (Field ClientType)}
    {shown : List (Field TypeExpr)} (h : w.describeFields omitted fields = .ok shown)
    (hnames : ∀ f ∈ fields, isIdentifierName f.name)
    (hfields : ∀ f ∈ fields, ∀ e, w.describe f.type = .ok e → e.Readable) :
    (TypeExpr.object shown).Readable := by
  have hfrom : ∀ s ∈ shown, ∃ f ∈ fields, s.name = f.name ∧ w.describe f.type = .ok s.type := by
    intro s hs
    obtain ⟨f, hf, hname, -, he⟩ := exists_of_forall₂ (forall₂_of_describeFields h) hs
    exact ⟨f, List.mem_of_mem_filter hf, hname, he⟩
  refine .object (fun s hs => ?_) fun s hs => ?_
  · obtain ⟨f, hf, hname, -⟩ := hfrom s hs
    rw [hname]
    exact hnames f hf
  · obtain ⟨f, hf, -, he⟩ := hfrom s hs
    exact hfields f hf _ he

theorem readable_of_describeVariants (hspace : ∀ space ∈ w.qualifier, isIdentifier space)
    {tag tagType : Option String} {values : Table String String} {members : List ClientType}
    {variants : List (Variant TypeExpr)} (h : w.describeVariants tag values tagType members = .ok variants)
    (hne : members ≠ []) (hmembers : ∀ member ∈ members, ∀ e, w.describe member = .ok e → e.Readable)
    (htag : ∀ field ∈ tag, isIdentifierName field) (hvalues : ∀ entry ∈ values, OnOneLine entry.2)
    (hkey : ∀ key ∈ tagType, w.CanWrite (.ref key)) : (TypeExpr.any variants).Readable := by
  have hforall := forall₂_of_describeVariants h
  refine .any ?_ (fun v hv => ?_) fun v hv field t hmark => ?_
  · rintro rfl
    exact hne (List.forall₂_nil_right_iff.mp hforall)
  · obtain ⟨member, hmem, he, -⟩ := exists_of_forall₂ hforall hv
    exact hmembers member hmem _ he
  · obtain ⟨member, -, -, hvariant⟩ := exists_of_forall₂ hforall hv
    obtain ⟨-, hnone | ⟨name, value, text, rfl, hvalue, htext, hmark'⟩⟩ := exists_of_describeVariant hvariant
    · rw [hnone] at hmark
      cases hmark
    · rw [hmark'] at hmark
      cases hmark
      -- Only references have values, and those come from the table.
      have hline : OnOneLine value := by
        unfold valueOf at hvalue
        split at hvalue
        · exact hvalues _ (Table.mem_of_get?_eq_some hvalue)
        · cases hvalue
      exact ⟨htag _ rfl, readable_of_describeTag hspace hkey hline htext⟩

/-- The parts of a composition can be printed as they are if each of them can. -/
theorem readable_of_describeParts {types : List ClientType} {parts : List TypeExpr} (hne : types ≠ [])
    (h : w.describeParts types = .ok parts)
    (htypes : ∀ type ∈ types, ∀ e, w.describe type = .ok e → e.Readable) : (TypeExpr.all parts).Readable := by
  have hforall := describeParts_eq_ok.mp h
  refine .all ?_ fun part hpart => ?_
  · rintro rfl
    exact hne (List.forall₂_nil_right_iff.mp hforall)
  · obtain ⟨type, htype, he⟩ := exists_of_forall₂ hforall hpart
    exact htypes type htype part he

/-- The variants of a union can be printed as they are, whether or not there are shared fields in front of them. -/
theorem readable_of_union (hspace : ∀ space ∈ w.qualifier, isIdentifier space) {members : List ClientType}
    {tag tagType : Option String} {mapping values : Table String String} {shared : Option (List (Field ClientType))}
    {variants : List (Variant TypeExpr)}
    (hnodes : ∀ node, Inside node (.union members tag mapping shared tagType) → w.CanWrite node)
    (hvalues : tagValues (memberKeys members) mapping = .ok values)
    (hvariants : w.describeVariants tag values tagType members = .ok variants)
    (hmembers : ∀ member ∈ members, ∀ e, w.describe member = .ok e → e.Readable) :
    (TypeExpr.any variants).Readable := by
  obtain ⟨hne, htag, hmapping⟩ := hnodes _ .here
  have hkey : ∀ key ∈ tagType, w.CanWrite (.ref key) := by
    rintro key ⟨⟩
    exact hnodes _ (.tagType rfl)
  exact readable_of_describeVariants hspace hvariants hne hmembers htag
    (fun entry hentry => hmapping _ (mem_of_mem_tagValues hvalues hentry)) hkey

/-- The written form of a type can be printed as it is if each node of the type can. -/
theorem readable_of_describe (hspace : ∀ space ∈ w.qualifier, isIdentifier space)
    (hnodes : ∀ node, Inside node type → w.CanWrite node) {e : TypeExpr} (h : w.describe type = .ok e) :
    e.Readable := by
  replace h := hasForm_of_describe h
  induction h with
  | string | number | boolean | void => exact .builtin
  | freeFormMap => exact .record .builtin
  | assigned hname =>
    obtain ⟨-, -, hassigned⟩ := hnodes _ .here
    exact .named hspace (hassigned _ hname)
  | literals =>
    obtain ⟨hne, hvalues, -⟩ := hnodes _ .here
    exact .literals hne hvalues
  | ref hd => exact .named hspace (hnodes _ .here _ hd)
  | array _ ih => exact .array (ih fun node hnode => hnodes node (.element hnode))
  | map _ ih => exact .record (ih fun node hnode => hnodes node (.value hnode))
  | object hshown _ ih =>
    refine readable_of_describeFields hshown (hnodes _ .here) fun f hf e he => ?_
    exact ih f hf e he fun node hnode => hnodes node (.field hf hnode)
  | composition hparts _ ih =>
    refine readable_of_describeParts (hnodes _ .here) hparts fun type htype e he => ?_
    exact ih type htype e he fun node hnode => hnodes node (.part htype hnode)
  | union hvalues hvariants _ ih =>
    refine readable_of_union hspace hnodes hvalues hvariants fun member hm e he => ?_
    exact ih member hm e he fun node hnode => hnodes node (.member hm hnode)
  | shared hvalues hvariants _ hshown _ ihm ihs =>
    have hany := readable_of_union hspace hnodes hvalues hvariants fun member hm e he =>
      ihm member hm e he fun node hnode => hnodes node (.member hm hnode)
    have hobject := readable_of_describeFields hshown (hnodes _ (.shared .here)) fun f hf e he =>
      ihs f hf e he fun node hnode => hnodes node (.shared (.field hf hnode))
    refine .all (List.cons_ne_nil _ _) ?_
    simpa using ⟨hobject, hany⟩

/-- **What is written for a type is read as the type.**  If every node can be printed as it is, then the text has
    the structure that the type describes, at every depth. -/
theorem parse_write (hspace : ∀ space ∈ w.qualifier, isIdentifier space)
    (hnodes : ∀ node, Inside node type → w.CanWrite node) {depth : Nat} {text : String}
    (h : (w.write depth type).result = .ok text) :
    ∃ e, w.describe type = .ok e ∧ parse text = some e.tree := by
  obtain ⟨e, he, hwrote⟩ := w.exists_describe type depth _ text (Logged.eq_mk_of_result h)
  refine ⟨e, he, ?_⟩
  rw [← hwrote.text_eq]
  exact (readable_of_describe hspace hnodes he).parse_text depth

/-! ### A list of pets -/

/-- Pets of two kinds and an enum of the kinds, for the file that has the types under a name. -/
def petWriter : TypeWriter where
  registry := [("#cat", ⟨"Cat", "#cat", .object []⟩), ("#dog", ⟨"Dog", "#dog", .object []⟩),
    ("#kind", ⟨"Kind", "#kind", .enum ["cat", "it's"] none⟩)]
  namedEnums := true
  qualifier := some "types"

/-- A list of pets or sizes.  One of the tags is a member of the enum, the other is not, and the fields that all
    share come with the union. -/
def petList : ClientType :=
  .array (.union [.ref "#cat", .ref "#dog", .enum ["big", "small"] none] (some "kind")
    [("cat", "#cat"), ("wolf", "#dog")]
    (some [⟨"kind", .ref "#kind", true⟩, ⟨"marks", .array (.enum ["a", "it's"] none), false⟩]) (some "#kind"))

def petText : String :=
  "(\x7b\n  marks?: ('a' | 'it\\'s')[];\n\x7d & (Omit<types.Cat, 'kind'> & \x7b kind: types.Kind.Cat \x7d"
    ++ " | Omit<types.Dog, 'kind'> & \x7b kind: 'wolf' \x7d | ('big' | 'small')))[]"

def petTree : TypeTree :=
  .array (.all [.object [⟨"marks", .array (.any [.literal "a", .literal "it's"]), false⟩],
    .any [.all [.own "Omit" [.named ["types", "Cat"] [], .literal "kind"],
        .object [⟨"kind", .named ["types", "Kind", "Cat"] [], true⟩]],
      .all [.own "Omit" [.named ["types", "Dog"] [], .literal "kind"], .object [⟨"kind", .literal "wolf", true⟩]],
      .any [.literal "big", .literal "small"]]])

theorem canWrite_petList : ∀ node, Inside node petList → petWriter.CanWrite node := by
  have hline : ∀ value ∈ ["big", "small", "a", "it's"], OnOneLine value := by
    unfold OnOneLine
    decide +kernel
  have henum : ∀ values, values ≠ [] → values ⊆ ["big", "small", "a", "it's"] →
      petWriter.CanWrite (.enum values none) := by
    intro values hne hvalues
    exact ⟨hne, fun value hvalue => hline value (hvalues hvalue), nofun⟩
  have hkey : ∀ key ∈ ["#cat", "#dog", "#kind"], petWriter.CanWrite (.ref key) := by
    have hnames : ∀ d ∈ petWriter.registry.values, isTypeName d.name := by decide +kernel
    intro key _ d hd
    exact hnames d (Table.mem_values_iff.mpr ⟨key, Table.mem_of_get?_eq_some hd⟩)
  intro node hnode
  cases hnode with
  | here => trivial
  | element hunion =>
    cases hunion with
    | here =>
      have hmapping : ∀ entry ∈ [("cat", "#cat"), ("wolf", "#dog")], OnOneLine entry.1 := by
        unfold OnOneLine
        decide +kernel
      exact ⟨by nofun, by decide +kernel, hmapping⟩
    | member hmember hin =>
      simp only [List.mem_cons, List.not_mem_nil, or_false] at hmember
      rcases hmember with rfl | rfl | rfl
      · cases hin
        exact hkey _ (by decide)
      · cases hin
        exact hkey _ (by decide)
      · cases hin
        exact henum _ (by nofun) (by decide)
    | shared hobject =>
      cases hobject with
      | here =>
        intro f hf
        simp only [List.mem_cons, List.not_mem_nil, or_false] at hf
        rcases hf with rfl | rfl <;> decide +kernel
      | field hf hin =>
        simp only [List.mem_cons, List.not_mem_nil, or_false] at hf
        rcases hf with rfl | rfl
        · cases hin
          exact hkey _ (by decide)
        · cases hin with
          | here => trivial
          | element hin =>
            cases hin
            exact henum _ (by nofun) (by decide)
    | tagType hkind =>
      subst hkind
      exact hkey _ (by decide)

theorem write_petList : (petWriter.write 0 petList).result = .ok petText := by
  have htext : (petWriter.write 0 petList).result.toOption = some petText := by decide +kernel
  cases hresult : (petWriter.write 0 petList).result with
  | error e =>
    rw [hresult] at htext
    cases htext
  | ok text =>
    rw [hresult] at htext
    cases htext
    rfl

/-- The parentheses around the enum, the variants and the union are all there. -/
theorem petList_parsed :
    (petWriter.write 0 petList).result = .ok petText ∧ parse petText = some petTree := by
  have hspace : ∀ space ∈ petWriter.qualifier, isIdentifier space := by
    rintro space ⟨⟩
    decide +kernel
  obtain ⟨e, he, hparse⟩ := parse_write hspace canWrite_petList write_petList
  have hdescribe : (petWriter.describe petList).map TypeExpr.tree = .ok petTree := by
    cbv
  have htree : e.tree = petTree := by
    rw [he] at hdescribe
    exact Except.ok.inj hdescribe
  rw [← htree]
  exact ⟨write_petList, hparse⟩

end TypeWriter

end TypedClient.Output
