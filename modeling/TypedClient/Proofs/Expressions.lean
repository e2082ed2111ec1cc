import TypedClient.Proofs.Emission

namespace TypedClient.Output

/-!
# Types as expressions

The text of a type is put together from the texts of its pieces.  This file gives the written form as a tree
of its own, between the type and the text: keys of declarations have become names, a discriminator has become
a tag on each variant, and what is left to do is printing.

* `TypeExpr` — the written form of a type.
* `TypeExpr.text` — its text.
* `TypeExpr.references` — what it says about names that have to be declared somewhere.
* `TypeWriter.describe` — the written form of a type.
* `TypeWriter.HasForm` — the same as rules, one for each kind of type.
* `TypeWriter.exists_describe` — what is written for a type is the text of its written form, and the log holds
  the names in it.
-/

/-! ### Expressions -/

/-- Types that need no declaration. -/
inductive Builtin where
  | string
  | number
  | boolean
  | void
  | any
  deriving DecidableEq, Repr, Inhabited

def Builtin.text : Builtin → String
  | .string => "string"
  | .number => "number"
  | .boolean => "boolean"
  | .void => "void"
  | .any => "any"

/-- A name with what stands in front of names that are declared in the other file. -/
def qualifiedText (space : Option String) (name : String) : String :=
  match space with
  | some space => space ++ "." ++ name
  | none => name

/-- The value of a discriminator: the text itself, or the member that an enum has for the text. -/
inductive Tag where
  | plain (value : String)
  | member (space : Option String) (enum name value : String)
  deriving DecidableEq, Repr, Inhabited

def Tag.text : Tag → String
  | .plain value => literal value
  | .member space enum name _ => qualifiedText space enum ++ "." ++ name

/-- One of several types, with the field that tells that it is this one and the value of the field. -/
structure Variant (T : Type) where
  type : T
  tag : Option (String × Tag)
  deriving Repr, Inhabited

/-- The written form of a type. -/
inductive TypeExpr where
  | builtin (type : Builtin)
  | named (space : Option String) (name : String)
  /-- One of several texts. -/
  | literals (values : List String)
  /-- An object with any fields that all have one type. -/
  | record (value : TypeExpr)
  | array (element : TypeExpr)
  | object (fields : List (Field TypeExpr))
  /-- All of the parts at once. -/
  | all (parts : List TypeExpr)
  /-- One of the variants. -/
  | any (variants : List (Variant TypeExpr))
  deriving Repr, Inhabited

namespace TypeExpr

/-! ### Text -/

/-- Does an expression need parentheses next to an operator? -/
def isCompound : TypeExpr → Bool
  | .all _ | .any _ => true
  | .literals values => 1 < values.length
  | _ => false

/-- The text of an expression next to an operator. -/
def parenthesized (e : TypeExpr) (text : String) : String :=
  if e.isCompound then "(" ++ text ++ ")" else text

/-- The line of a field, given the text of its type. -/
def line (depth : Nat) (name : String) (required : Bool) (text : String) : String :=
  indent (depth + 1) ++ name ++ (if required then "" else "?") ++ ": " ++ text ++ ";"

/-- The text of a variant, given the text of its type.  A tag takes the place of the field that the type has
    of its own. -/
def variantText (e : TypeExpr) (tag : Option (String × Tag)) (text : String) : String :=
  match tag with
  | some (field, tag) =>
    "Omit<" ++ text ++ ", '" ++ field ++ "'> & " ++ braced (" " ++ field ++ ": " ++ tag.text ++ " ")
  | none => e.parenthesized text

mutual

/-- The text of an expression; `depth` is the number of braces that it stands in. -/
def text (depth : Nat) : TypeExpr → String
  | .builtin type => type.text
  | .named space name => qualifiedText space name
  | .literals values => String.intercalate " | " (values.map literal)
  | .record value => "Record<string, " ++ text depth value ++ ">"
  | .array element => element.parenthesized (text depth element) ++ "[]"
  | .object [] => braced ""
  | .object fields => block depth (lines depth fields)
  | .all parts => String.intercalate " & " (operands depth parts)
  | .any variants => String.intercalate " | " (alternatives depth variants)

def lines (depth : Nat) : List (Field TypeExpr) → List String
  | [] => []
  | ⟨name, type, required⟩ :: rest =>
    line depth name required (text (depth + 1) type) :: lines depth rest

def operands (depth : Nat) : List TypeExpr → List String
  | [] => []
  | part :: rest => part.parenthesized (text depth part) :: operands depth rest

def alternatives (depth : Nat) : List (Variant TypeExpr) → List String
  | [] => []
  | ⟨type, tag⟩ :: rest => type.variantText tag (text depth type) :: alternatives depth rest

end

theorem text_object {depth : Nat} {fields : List (Field TypeExpr)} (h : fields ≠ []) :
    text depth (.object fields) = block depth (lines depth fields) := by
  cases fields with
  | nil => exact absurd rfl h
  | cons f rest =>
    rw [text]
    nofun

end TypeExpr

/-! ### References -/

/-- What a written form says about a name: that it is a type, or that it is an enum with a member for a
    value. -/
inductive Reference where
  | type (name : String)
  | member (enum name value : String)
  deriving DecidableEq, Repr, Inhabited

/-- The name that has to be declared. -/
def Reference.name : Reference → String
  | .type name => name
  | .member enum _ _ => enum

def Tag.references : Tag → List Reference
  | .plain _ => []
  | .member _ enum name value => [.member enum name value]

namespace TypeExpr

mutual

/-- What an expression says about names. -/
def references : TypeExpr → List Reference
  | .builtin _ | .literals _ => []
  | .named _ name => [.type name]
  | .record value => references value
  | .array element => references element
  | .object fields => referencesOfFields fields
  | .all parts => referencesOfParts parts
  | .any variants => referencesOfVariants variants

def referencesOfFields : List (Field TypeExpr) → List Reference
  | [] => []
  | ⟨_, type, _⟩ :: rest => references type ++ referencesOfFields rest

def referencesOfParts : List TypeExpr → List Reference
  | [] => []
  | part :: rest => references part ++ referencesOfParts rest

def referencesOfVariants : List (Variant TypeExpr) → List Reference
  | [] => []
  | ⟨type, none⟩ :: rest => references type ++ referencesOfVariants rest
  | ⟨type, some (_, tag)⟩ :: rest => references type ++ tag.references ++ referencesOfVariants rest

end

theorem referencesOfFields_eq_flatMap (fields : List (Field TypeExpr)) :
    referencesOfFields fields = fields.flatMap fun f => f.type.references := by
  induction fields with
  | nil => rfl
  | cons f rest ih => rw [referencesOfFields, ih, List.flatMap_cons]

theorem referencesOfParts_eq_flatMap (parts : List TypeExpr) :
    referencesOfParts parts = parts.flatMap references := by
  induction parts with
  | nil => rfl
  | cons part rest ih => rw [referencesOfParts, ih, List.flatMap_cons]

theorem referencesOfVariants_eq_flatMap (variants : List (Variant TypeExpr)) :
    referencesOfVariants variants
      = variants.flatMap fun v => v.type.references ++ v.tag.elim [] fun (_, tag) => tag.references := by
  induction variants with
  | nil => rfl
  | cons v rest ih =>
    obtain ⟨type, _ | ⟨field, tag⟩⟩ := v
    · rw [referencesOfVariants, ih, List.flatMap_cons, Option.elim_none, List.append_nil]
    · rw [referencesOfVariants, ih, List.flatMap_cons, Option.elim_some]

/-- The names that an expression refers to. -/
def names (e : TypeExpr) : List String :=
  e.references.map Reference.name

end TypeExpr

/-! ### The written form of a type -/

namespace TypeWriter

/-- The value of a discriminator: a member of the enum that types the discriminator field, or the text. -/
def describeTag (w : TypeWriter) (tagType : Option String) (value : String) : Except Failure Tag :=
  match tagType with
  | some key =>
    if w.namedEnums then do
      let d ← w.declaration key
      match d.type with
      | .enum values _ =>
        match (Naming.members values).get? value with
        | some member => return .member w.qualifier d.name member value
        | none => return .plain value
      | _ => return .plain value
    else return .plain value
  | none => return .plain value

/-- The tag of a variant, if the union has a discriminator with a value for the member. -/
def describeVariant (w : TypeWriter) (tag value tagType : Option String) (e : TypeExpr) :
    Except Failure (Variant TypeExpr) :=
  match tag, value with
  | some field, some value => do return ⟨e, some (field, ← w.describeTag tagType value)⟩
  | _, _ => return ⟨e, none⟩

mutual

/-- The written form of a type. -/
def describe (w : TypeWriter) : ClientType → Except Failure TypeExpr
  | .string => return .builtin .string
  | .number => return .builtin .number
  | .boolean => return .builtin .boolean
  | .void => return .builtin .void
  | .freeFormMap => return .record (.builtin .any)
  | .map element => return .record (← describe w element)
  | .array element => return .array (← describe w element)
  | .enum values assignedName =>
    match w.enumName? assignedName with
    | some name => return .named w.qualifier name
    | none => return .literals values
  | .ref target => return .named w.qualifier (← w.declaration target).name
  | .object fields => return .object (← describeFields w none fields)
  | .composition parts => return .all (← describeParts w parts)
  | .union members tag mapping none tagType => do
    let values ← tagValues (memberKeys members) mapping
    return .any (← describeVariants w tag values tagType members)
  | .union members tag mapping (some fields) tagType => do
    let values ← tagValues (memberKeys members) mapping
    let variants ← describeVariants w tag values tagType members
    let shared ← describeFields w tag fields
    if shared.isEmpty then return .any variants
    return .all [.object shared, .any variants]

/-- The written forms of fields, without a field of the name `omitted`. -/
def describeFields (w : TypeWriter) (omitted : Option String) :
    List (Field ClientType) → Except Failure (List (Field TypeExpr))
  | [] => return []
  | ⟨name, type, required⟩ :: rest =>
    if some name = omitted then describeFields w omitted rest
    else do
      let e ← describe w type
      return ⟨name, e, required⟩ :: (← describeFields w omitted rest)

def describeParts (w : TypeWriter) : List ClientType → Except Failure (List TypeExpr)
  | [] => return []
  | type :: rest => do
    let e ← describe w type
    return e :: (← describeParts w rest)

/-- The written forms of the members of a union, each with its tag. -/
def describeVariants (w : TypeWriter) (tag : Option String) (values : Table String String)
    (tagType : Option String) : List ClientType → Except Failure (List (Variant TypeExpr))
  | [] => return []
  | member :: rest => do
    let e ← describe w member
    let variant ← w.describeVariant tag (valueOf values member) tagType e
    return variant :: (← describeVariants w tag values tagType rest)

end

variable {w : TypeWriter} {depth : Nat} {log : List String}

/-- A union is described by its variants, and by its shared fields if any of them is shown. -/
theorem exists_of_describe_union {members : List ClientType} {tag tagType : Option String}
    {mapping : Table String String} {shared : Option (List (Field ClientType))} {e : TypeExpr}
    (h : w.describe (.union members tag mapping shared tagType) = .ok e) :
    ∃ values variants, tagValues (memberKeys members) mapping = .ok values
      ∧ w.describeVariants tag values tagType members = .ok variants
      ∧ (e = .any variants ∨ ∃ fields shown, shared = some fields ∧ w.describeFields tag fields = .ok shown
        ∧ e = .all [.object shown, .any variants]) := by
  cases shared with
  | none =>
    rw [describe] at h
    obtain ⟨values, hvalues, hrest⟩ := Except.bind_eq_ok.mp h
    obtain ⟨variants, hvariants, hpure⟩ := Except.bind_eq_ok.mp hrest
    cases hpure
    exact ⟨values, variants, hvalues, hvariants, .inl rfl⟩
  | some fields =>
    rw [describe] at h
    obtain ⟨values, hvalues, hrest⟩ := Except.bind_eq_ok.mp h
    obtain ⟨variants, hvariants, hrest'⟩ := Except.bind_eq_ok.mp hrest
    obtain ⟨shown, hshown, hpure⟩ := Except.bind_eq_ok.mp hrest'
    refine ⟨values, variants, hvalues, hvariants, ?_⟩
    by_cases hempty : shown.isEmpty
    · rw [if_pos hempty] at hpure
      cases hpure
      exact .inl rfl
    · rw [if_neg hempty] at hpure
      cases hpure
      exact .inr ⟨fields, shown, rfl, hshown, rfl⟩

/-- The written form of a type, rule by rule.  The types that a collection holds have written forms as well. -/
inductive HasForm (w : TypeWriter) : ClientType → TypeExpr → Prop
  | string : HasForm w .string (.builtin .string)
  | number : HasForm w .number (.builtin .number)
  | boolean : HasForm w .boolean (.builtin .boolean)
  | void : HasForm w .void (.builtin .void)
  | freeFormMap : HasForm w .freeFormMap (.record (.builtin .any))
  | assigned {values assigned name} : w.enumName? assigned = some name →
      HasForm w (.enum values assigned) (.named w.qualifier name)
  | literals {values assigned} : w.enumName? assigned = none → HasForm w (.enum values assigned) (.literals values)
  | ref {target d} : w.registry.get? target = some d → HasForm w (.ref target) (.named w.qualifier d.name)
  | map {element e} : HasForm w element e → HasForm w (.map element) (.record e)
  | array {element e} : HasForm w element e → HasForm w (.array element) (.array e)
  | object {fields shown} : w.describeFields none fields = .ok shown →
      (∀ f ∈ fields, ∀ e, w.describe f.type = .ok e → HasForm w f.type e) →
      HasForm w (.object fields) (.object shown)
  | composition {types parts} : w.describeParts types = .ok parts →
      (∀ type ∈ types, ∀ e, w.describe type = .ok e → HasForm w type e) →
      HasForm w (.composition types) (.all parts)
  | union {members tag mapping shared tagType values variants} : tagValues (memberKeys members) mapping = .ok values →
      w.describeVariants tag values tagType members = .ok variants →
      (∀ member ∈ members, ∀ e, w.describe member = .ok e → HasForm w member e) →
      HasForm w (.union members tag mapping shared tagType) (.any variants)
  | shared {members tag mapping fields tagType values variants shown} :
      tagValues (memberKeys members) mapping = .ok values →
      w.describeVariants tag values tagType members = .ok variants →
      (∀ member ∈ members, ∀ e, w.describe member = .ok e → HasForm w member e) →
      w.describeFields tag fields = .ok shown →
      (∀ f ∈ fields, ∀ e, w.describe f.type = .ok e → HasForm w f.type e) →
      HasForm w (.union members tag mapping (some fields) tagType) (.all [.object shown, .any variants])

/-- **The rules of written forms.**  Whatever describes a type follows them. -/
theorem hasForm_of_describe {type : ClientType} {e : TypeExpr} (h : w.describe type = .ok e) : w.HasForm type e := by
  induction type using ClientType.inductFields generalizing e with
  | string | number | boolean | void | freeFormMap =>
    cases h
    constructor
  | enum values assigned =>
    rw [describe] at h
    split at h
    · next hname =>
      cases h
      exact .assigned hname
    · next hname =>
      cases h
      exact .literals hname
  | array element ih =>
    rw [describe] at h
    obtain ⟨inner, hinner, hpure⟩ := Except.bind_eq_ok.mp h
    cases hpure
    exact .array (ih hinner)
  | map element ih =>
    rw [describe] at h
    obtain ⟨inner, hinner, hpure⟩ := Except.bind_eq_ok.mp h
    cases hpure
    exact .map (ih hinner)
  | object fields ih =>
    rw [describe] at h
    obtain ⟨shown, hshown, hpure⟩ := Except.bind_eq_ok.mp h
    cases hpure
    exact .object hshown fun f hf _ => ih f hf
  | composition types ih =>
    rw [describe] at h
    obtain ⟨parts, hparts, hpure⟩ := Except.bind_eq_ok.mp h
    cases hpure
    exact .composition hparts fun type htype _ => ih type htype
  | ref target =>
    rw [describe] at h
    obtain ⟨d, hd, hpure⟩ := Except.bind_eq_ok.mp h
    cases hpure
    exact .ref (declaration_eq_ok.mp hd)
  | union members tag mapping shared tagType ihm ihs =>
    obtain ⟨values, variants, hvalues, hvariants, hshape⟩ := exists_of_describe_union h
    rcases hshape with rfl | ⟨fields, shown, rfl, hshown, rfl⟩
    · exact .union hvalues hvariants fun member hm _ => ihm member hm
    · exact .shared hvalues hvariants (fun member hm _ => ihm member hm) hshown fun f hf _ => ihs fields rfl f hf

/-- Parentheses are a matter of the written form. -/
theorem isCompound_of_describe {type : ClientType} {e : TypeExpr} (h : w.describe type = .ok e) :
    e.isCompound = w.isCompound type := by
  cases hasForm_of_describe h with
  | assigned hname | literals hname => simp [TypeExpr.isCompound, isCompound, hname]
  | _ => rfl

/-! ### The pieces of a written form -/

/-- A discriminator has its value as a text, if the value is not a member of the enum that types it. -/
theorem exists_of_describeTag {tagType : Option String} {value : String} {tag : Tag}
    (h : w.describeTag tagType value = .ok tag) :
    tag = .plain value ∨ ∃ key d values assigned name, tagType = some key ∧ w.namedEnums = true
      ∧ w.registry.get? key = some d ∧ d.type = .enum values assigned
      ∧ (Naming.members values).get? value = some name ∧ tag = .member w.qualifier d.name name value := by
  unfold describeTag at h
  split at h
  · next key =>
    split at h
    · next hnamed =>
      obtain ⟨d, hd, hrest⟩ := Except.bind_eq_ok.mp h
      split at hrest
      · next values assigned htype =>
        split at hrest
        · next name hmember =>
          cases hrest
          exact .inr ⟨key, d, values, assigned, name, rfl, hnamed, declaration_eq_ok.mp hd, htype, hmember, rfl⟩
        · cases hrest
          exact .inl rfl
      · cases hrest
        exact .inl rfl
    · cases h
      exact .inl rfl
  · cases h
    exact .inl rfl

/-- A variant has a tag if the union has a discriminator with a value for the member. -/
theorem exists_of_describeVariant {tag value tagType : Option String} {e : TypeExpr} {v : Variant TypeExpr}
    (h : w.describeVariant tag value tagType e = .ok v) :
    v.type = e ∧ (v.tag = none ∨ ∃ field x t, tag = some field ∧ value = some x ∧ w.describeTag tagType x = .ok t
      ∧ v.tag = some (field, t)) := by
  unfold describeVariant at h
  split at h
  · next field x =>
    obtain ⟨t, ht, hpure⟩ := Except.bind_eq_ok.mp h
    cases hpure
    exact ⟨rfl, .inr ⟨field, x, t, rfl, rfl, ht, rfl⟩⟩
  · cases h
    exact ⟨rfl, .inl rfl⟩

theorem describeParts_eq_ok {types : List ClientType} {parts : List TypeExpr} :
    w.describeParts types = .ok parts ↔ List.Forall₂ (fun type e => w.describe type = .ok e) types parts := by
  have hmap : w.describeParts types = types.mapM w.describe := by
    induction types with
    | nil => rfl
    | cons type rest ih => rw [describeParts, ih, List.mapM_cons]
  rw [hmap]
  exact Except.mapM_eq_ok

/-- The fields that are shown keep their names and their order, and each may be left out as before. -/
theorem forall₂_of_describeFields {omitted : Option String} {fields : List (Field ClientType)}
    {shown : List (Field TypeExpr)} (h : w.describeFields omitted fields = .ok shown) :
    List.Forall₂ (fun f s => s.name = f.name ∧ s.required = f.required ∧ w.describe f.type = .ok s.type)
      (shownFields omitted (some fields)) shown := by
  have hshown : ∀ fields, shownFields omitted (some fields) = fields.filter fun f => some f.name != omitted :=
    fun _ => rfl
  rw [hshown]
  induction fields generalizing shown with
  | nil =>
    cases h
    exact .nil
  | cons f rest ih =>
    obtain ⟨name, type, required⟩ := f
    rw [describeFields] at h
    by_cases homitted : some name = omitted
    · rw [if_pos homitted] at h
      rw [List.filter_cons_of_neg (by simpa using homitted)]
      exact ih h
    · rw [if_neg homitted] at h
      obtain ⟨e, he, hrest⟩ := Except.bind_eq_ok.mp h
      obtain ⟨others, hothers, hpure⟩ := Except.bind_eq_ok.mp hrest
      cases hpure
      rw [List.filter_cons_of_pos (by simpa using homitted)]
      exact .cons ⟨rfl, rfl, he⟩ (ih hothers)

/-- A member becomes a variant, with a tag if the discriminator has a value for it. -/
theorem forall₂_of_describeVariants {tag tagType : Option String} {values : Table String String}
    {members : List ClientType} {variants : List (Variant TypeExpr)}
    (h : w.describeVariants tag values tagType members = .ok variants) :
    List.Forall₂ (fun member v => w.describe member = .ok v.type
        ∧ w.describeVariant tag (valueOf values member) tagType v.type = .ok v) members variants := by
  induction members generalizing variants with
  | nil =>
    cases h
    exact .nil
  | cons member rest ih =>
    rw [describeVariants] at h
    obtain ⟨e, he, hvariant⟩ := Except.bind_eq_ok.mp h
    obtain ⟨v, hv, hrest⟩ := Except.bind_eq_ok.mp hvariant
    obtain ⟨others, hothers, hpure⟩ := Except.bind_eq_ok.mp hrest
    cases hpure
    have htype : v.type = e := (exists_of_describeVariant hv).1
    exact .cons (by rw [htype]; exact ⟨he, hv⟩) (ih hothers)

/-! ### What is written for a type -/

/-- The text and the log are those of the expression. -/
structure Wrote (depth : Nat) (log : List String) (text : String) (e : TypeExpr) : Prop where
  text_eq : e.text depth = text
  mem_log_iff : ∀ name, name ∈ log ↔ name ∈ e.names

/-- Whatever is written for the type comes from its written form. -/
def Describes (w : TypeWriter) (type : ClientType) : Prop :=
  ∀ depth log text, w.write depth type = ⟨log, .ok text⟩ →
    ∃ e, w.describe type = .ok e ∧ Wrote depth log text e

theorem qualified_eq_ok {name text : String} :
    w.qualified name = ⟨log, .ok text⟩ ↔ log = [name] ∧ text = qualifiedText w.qualifier name := by
  simp only [qualified, qualifiedText, Logged.bind_eq_ok, Logged.note_eq_ok, Logged.pure_eq_ok]
  constructor
  · rintro ⟨_, _, _, rfl, ⟨rfl, rfl⟩, rfl⟩
    exact ⟨rfl, rfl⟩
  · rintro ⟨rfl, rfl⟩
    exact ⟨_, (), _, rfl, ⟨rfl, rfl⟩, rfl⟩

theorem exists_describeTag {tagType : Option String} {value text : String}
    (h : w.tagText tagType value = ⟨log, .ok text⟩) :
    ∃ tag, w.describeTag tagType value = .ok tag ∧ tag.text = text
      ∧ log = tag.references.map Reference.name := by
  -- Whatever is not a member of the enum is written as the text that it is.
  have hplain : ∀ {log : List String}, (pure (literal value) : Logged String) = ⟨log, .ok text⟩ →
      (Tag.plain value).text = text ∧ log = (Tag.plain value).references.map Reference.name := by
    intro log hpure
    obtain ⟨rfl, rfl⟩ := Logged.pure_eq_ok.mp hpure
    exact ⟨rfl, rfl⟩
  unfold tagText at h
  unfold describeTag
  cases tagType with
  | none => exact ⟨_, rfl, hplain h⟩
  | some key =>
    by_cases hnamed : w.namedEnums = true
    · simp only [hnamed, if_true] at h ⊢
      obtain ⟨_, d, _, hlift, hd, rfl⟩ := Logged.bind_eq_ok.mp h
      obtain ⟨rfl, hdeclared⟩ := Logged.lift_eq_ok.mp hlift
      rw [hdeclared, Except.ok_bind, List.nil_append]
      cases htype : d.type with
      | enum values assigned =>
        simp only [htype] at hd ⊢
        cases hmember : (Naming.members values).get? value with
        | none =>
          rw [hmember] at hd
          exact ⟨_, rfl, hplain hd⟩
        | some member =>
          rw [hmember] at hd
          obtain ⟨_, name, _, hname, hpure, rfl⟩ := Logged.bind_eq_ok.mp hd
          obtain ⟨rfl, rfl⟩ := qualified_eq_ok.mp hname
          obtain ⟨rfl, rfl⟩ := Logged.pure_eq_ok.mp hpure
          exact ⟨_, rfl, rfl, rfl⟩
      | _ =>
        simp only [htype] at hd ⊢
        exact ⟨_, rfl, hplain hd⟩
    · simp only [hnamed] at h ⊢
      exact ⟨_, rfl, hplain h⟩

theorem exists_describeFields {omitted : Option String} {fields : List (Field ClientType)}
    (hfields : ∀ f ∈ fields, w.Describes f.type) {lines : List String}
    (h : w.writeFields depth omitted fields = ⟨log, .ok lines⟩) :
    ∃ shown, w.describeFields omitted fields = .ok shown ∧ TypeExpr.lines depth shown = lines
      ∧ ∀ name, name ∈ log ↔ name ∈ (TypeExpr.referencesOfFields shown).map Reference.name := by
  induction fields generalizing log lines with
  | nil =>
    obtain ⟨rfl, rfl⟩ := Logged.pure_eq_ok.mp h
    exact ⟨[], rfl, rfl, fun _ => Iff.rfl⟩
  | cons f rest ih =>
    obtain ⟨name, type, required⟩ := f
    rw [List.forall_mem_cons] at hfields
    rw [writeFields] at h
    rw [describeFields]
    by_cases homitted : some name = omitted
    · rw [if_pos homitted] at h ⊢
      exact ih hfields.2 h
    · rw [if_neg homitted] at h ⊢
      obtain ⟨_, text, _, htext, hrest, rfl⟩ := Logged.bind_eq_ok.mp h
      obtain ⟨_, others, _, hothers, hpure, rfl⟩ := Logged.bind_eq_ok.mp hrest
      obtain ⟨rfl, rfl⟩ := Logged.pure_eq_ok.mp hpure
      obtain ⟨e, he, hwrote⟩ := hfields.1 _ _ _ htext
      obtain ⟨shown, hshown, rfl, hlog⟩ := ih hfields.2 hothers
      refine ⟨⟨name, e, required⟩ :: shown, by rw [he, hshown]; rfl, ?_, fun other => ?_⟩
      · rw [TypeExpr.lines, hwrote.text_eq]
        rfl
      · rw [TypeExpr.referencesOfFields, List.map_append, List.append_nil, List.mem_append,
          List.mem_append, hwrote.mem_log_iff, hlog]
        rfl

theorem exists_describeParts {types : List ClientType} (htypes : ∀ type ∈ types, w.Describes type)
    {texts : List String} (h : w.writeOperands depth types = ⟨log, .ok texts⟩) :
    ∃ parts, w.describeParts types = .ok parts ∧ TypeExpr.operands depth parts = texts
      ∧ ∀ name, name ∈ log ↔ name ∈ (TypeExpr.referencesOfParts parts).map Reference.name := by
  induction types generalizing log texts with
  | nil =>
    obtain ⟨rfl, rfl⟩ := Logged.pure_eq_ok.mp h
    exact ⟨[], rfl, rfl, fun _ => Iff.rfl⟩
  | cons type rest ih =>
    rw [List.forall_mem_cons] at htypes
    rw [writeOperands] at h
    obtain ⟨_, text, _, htext, hrest, rfl⟩ := Logged.bind_eq_ok.mp h
    obtain ⟨_, others, _, hothers, hpure, rfl⟩ := Logged.bind_eq_ok.mp hrest
    obtain ⟨rfl, rfl⟩ := Logged.pure_eq_ok.mp hpure
    obtain ⟨e, he, hwrote⟩ := htypes.1 _ _ _ htext
    obtain ⟨parts, hparts, rfl, hlog⟩ := ih htypes.2 hothers
    refine ⟨e :: parts, by rw [describeParts, he, hparts]; rfl, ?_, fun other => ?_⟩
    · rw [TypeExpr.operands, hwrote.text_eq, TypeExpr.parenthesized, isCompound_of_describe he]
      rfl
    · rw [TypeExpr.referencesOfParts, List.map_append, List.append_nil, List.mem_append, List.mem_append,
        hwrote.mem_log_iff, hlog]
      rfl

/-- A variant is written as its member with the tag. -/
theorem exists_describeVariant {tag value tagType : Option String} {member : ClientType} {text variant : String}
    {e : TypeExpr} (he : w.describe member = .ok e)
    (h : w.writeVariant tag value tagType member text = ⟨log, .ok variant⟩) :
    ∃ mark, w.describeVariant tag value tagType e = .ok ⟨e, mark⟩ ∧ e.variantText mark text = variant
      ∧ ∀ rest, (TypeExpr.referencesOfVariants (⟨e, mark⟩ :: rest)).map Reference.name
        = e.names ++ log ++ (TypeExpr.referencesOfVariants rest).map Reference.name := by
  have huntagged : (pure (w.parenthesized member text) : Logged String) = ⟨log, .ok variant⟩ →
      ∃ mark, (pure ⟨e, none⟩ : Except Failure (Variant TypeExpr)) = .ok ⟨e, mark⟩
        ∧ e.variantText mark text = variant
        ∧ ∀ rest, (TypeExpr.referencesOfVariants (⟨e, mark⟩ :: rest)).map Reference.name
          = e.names ++ log ++ (TypeExpr.referencesOfVariants rest).map Reference.name := by
    intro hwritten
    obtain ⟨rfl, rfl⟩ := Logged.pure_eq_ok.mp hwritten
    refine ⟨none, rfl, ?_, fun rest => ?_⟩
    · rw [TypeExpr.variantText, TypeExpr.parenthesized, isCompound_of_describe he]
      rfl
    · rw [TypeExpr.referencesOfVariants, List.map_append, List.append_nil]
      rfl
  cases tag with
  | none => exact huntagged h
  | some field =>
    cases value with
    | none => exact huntagged h
    | some value =>
      obtain ⟨_, text', _, htext, hpure, rfl⟩ := Logged.bind_eq_ok.mp h
      obtain ⟨rfl, rfl⟩ := Logged.pure_eq_ok.mp hpure
      obtain ⟨t, ht, rfl, rfl⟩ := exists_describeTag htext
      refine ⟨some (field, t), by simp only [describeVariant, ht, Except.ok_bind]; rfl, rfl, fun rest => ?_⟩
      rw [TypeExpr.referencesOfVariants, List.map_append, List.map_append, List.append_nil]
      rfl

theorem exists_describeVariants {tag tagType : Option String} {values : Table String String}
    {members : List ClientType} (hmembers : ∀ member ∈ members, w.Describes member) {texts : List String}
    (h : w.writeVariants depth tag values tagType members = ⟨log, .ok texts⟩) :
    ∃ variants, w.describeVariants tag values tagType members = .ok variants
      ∧ TypeExpr.alternatives depth variants = texts
      ∧ ∀ name, name ∈ log ↔ name ∈ (TypeExpr.referencesOfVariants variants).map Reference.name := by
  induction members generalizing log texts with
  | nil =>
    obtain ⟨rfl, rfl⟩ := Logged.pure_eq_ok.mp h
    exact ⟨[], rfl, rfl, fun _ => Iff.rfl⟩
  | cons member rest ih =>
    rw [List.forall_mem_cons] at hmembers
    rw [writeVariants_cons] at h
    obtain ⟨_, text, _, htext, htagged, rfl⟩ := Logged.bind_eq_ok.mp h
    obtain ⟨_, variant, _, hvariant, hrest, rfl⟩ := Logged.bind_eq_ok.mp htagged
    obtain ⟨_, others, _, hothers, hpure, rfl⟩ := Logged.bind_eq_ok.mp hrest
    obtain ⟨rfl, rfl⟩ := Logged.pure_eq_ok.mp hpure
    obtain ⟨e, he, hwrote⟩ := hmembers.1 _ _ _ htext
    obtain ⟨mark, hmark, rfl, hnames⟩ := exists_describeVariant he hvariant
    obtain ⟨variants, hvariants, rfl, hlog⟩ := ih hmembers.2 hothers
    refine ⟨⟨e, mark⟩ :: variants, ?_, ?_, fun other => ?_⟩
    · simp only [describeVariants, he, hmark, hvariants, Except.ok_bind]
      rfl
    · rw [TypeExpr.alternatives, hwrote.text_eq]
    · rw [hnames, List.append_nil]
      simp only [List.mem_append, hwrote.mem_log_iff, hlog, or_assoc]

/-- Leaving out a field leaves out the fields that are not shown. -/
theorem isEmpty_of_describeFields {tag : Option String} {fields : List (Field ClientType)}
    {shown : List (Field TypeExpr)} (h : w.describeFields tag fields = .ok shown) :
    shown.isEmpty = (shownFields tag (some fields)).isEmpty := by
  have hlength := (forall₂_of_describeFields h).length_eq
  rw [Bool.eq_iff_iff, List.isEmpty_iff_length_eq_zero, List.isEmpty_iff_length_eq_zero, hlength]

/-- If no field is shown, nothing is described. -/
theorem describeFields_of_isEmpty {tag : Option String} {fields : List (Field ClientType)}
    (h : (shownFields tag (some fields)).isEmpty) : w.describeFields tag fields = .ok [] := by
  induction fields with
  | nil => rfl
  | cons f rest ih =>
    obtain ⟨name, type, required⟩ := f
    by_cases homitted : some name = tag
    · rw [describeFields, if_pos homitted]
      refine ih ?_
      simpa [shownFields, homitted] using h
    · simp [shownFields, homitted] at h

theorem describes_array {element : ClientType} (h : w.Describes element) : w.Describes (.array element) := by
  intro depth log text hwrite
  rw [write] at hwrite
  obtain ⟨_, inner, _, hinner, hpure, rfl⟩ := Logged.bind_eq_ok.mp hwrite
  obtain ⟨rfl, rfl⟩ := Logged.pure_eq_ok.mp hpure
  obtain ⟨e, he, hwrote⟩ := h _ _ _ hinner
  refine ⟨.array e, by rw [describe, he]; rfl, ?_, fun name => ?_⟩
  · rw [TypeExpr.text, hwrote.text_eq, TypeExpr.parenthesized, isCompound_of_describe he]
    rfl
  · rw [List.append_nil]
    exact hwrote.mem_log_iff name

theorem describes_map {element : ClientType} (h : w.Describes element) : w.Describes (.map element) := by
  intro depth log text hwrite
  rw [write] at hwrite
  obtain ⟨_, inner, _, hinner, hpure, rfl⟩ := Logged.bind_eq_ok.mp hwrite
  obtain ⟨rfl, rfl⟩ := Logged.pure_eq_ok.mp hpure
  obtain ⟨e, he, hwrote⟩ := h _ _ _ hinner
  refine ⟨.record e, by rw [describe, he]; rfl, ?_, fun name => ?_⟩
  · rw [TypeExpr.text, hwrote.text_eq]
  · rw [List.append_nil]
    exact hwrote.mem_log_iff name

theorem describes_object {fields : List (Field ClientType)} (h : ∀ f ∈ fields, w.Describes f.type) :
    w.Describes (.object fields) := by
  intro depth log text hwrite
  cases fields with
  | nil =>
    rw [write] at hwrite
    obtain ⟨rfl, rfl⟩ := Logged.pure_eq_ok.mp hwrite
    exact ⟨_, rfl, rfl, fun _ => Iff.rfl⟩
  | cons f rest =>
    rw [write] at hwrite
    · obtain ⟨_, lines, _, hlines, hpure, rfl⟩ := Logged.bind_eq_ok.mp hwrite
      obtain ⟨rfl, rfl⟩ := Logged.pure_eq_ok.mp hpure
      obtain ⟨shown, hshown, rfl, hlog⟩ := exists_describeFields h hlines
      -- Nothing is left out of an object, so its braces are not empty.
      have hne : shown ≠ [] := by
        intro hnil
        have hempty := isEmpty_of_describeFields hshown
        rw [hnil] at hempty
        cases hempty
      refine ⟨.object shown, by rw [describe, hshown]; rfl, TypeExpr.text_object hne, fun name => ?_⟩
      rw [List.append_nil]
      exact hlog name
    · exact List.cons_ne_nil f rest

theorem describes_composition {parts : List ClientType} (h : ∀ part ∈ parts, w.Describes part) :
    w.Describes (.composition parts) := by
  intro depth log text hwrite
  rw [write] at hwrite
  obtain ⟨_, texts, _, htexts, hpure, rfl⟩ := Logged.bind_eq_ok.mp hwrite
  obtain ⟨rfl, rfl⟩ := Logged.pure_eq_ok.mp hpure
  obtain ⟨es, hes, rfl, hlog⟩ := exists_describeParts h htexts
  refine ⟨.all es, by rw [describe, hes]; rfl, rfl, fun name => ?_⟩
  rw [List.append_nil]
  exact hlog name

theorem describes_union {members : List ClientType} {tag tagType : Option String} {mapping : Table String String}
    (h : ∀ member ∈ members, w.Describes member) : w.Describes (.union members tag mapping none tagType) := by
  intro depth log text hwrite
  rw [write] at hwrite
  obtain ⟨_, values, _, hlift, hrest, rfl⟩ := Logged.bind_eq_ok.mp hwrite
  obtain ⟨rfl, hvalues⟩ := Logged.lift_eq_ok.mp hlift
  obtain ⟨_, texts, _, htexts, hpure, rfl⟩ := Logged.bind_eq_ok.mp hrest
  obtain ⟨rfl, rfl⟩ := Logged.pure_eq_ok.mp hpure
  obtain ⟨variants, hvariants, rfl, hlog⟩ := exists_describeVariants h htexts
  refine ⟨.any variants, by rw [describe, hvalues, Except.ok_bind, hvariants]; rfl, rfl, fun name => ?_⟩
  rw [List.nil_append, List.append_nil]
  exact hlog name

/-- Shared fields are written in front of the variants, unless the tag takes the place of all of them. -/
theorem describes_union_shared {members : List ClientType} {tag tagType : Option String}
    {mapping : Table String String} {fields : List (Field ClientType)} (h : ∀ member ∈ members, w.Describes member)
    (hfields : ∀ f ∈ fields, w.Describes f.type) :
    w.Describes (.union members tag mapping (some fields) tagType) := by
  intro depth log text hwrite
  rw [write] at hwrite
  obtain ⟨_, values, _, hlift, hrest, rfl⟩ := Logged.bind_eq_ok.mp hwrite
  obtain ⟨rfl, hvalues⟩ := Logged.lift_eq_ok.mp hlift
  obtain ⟨_, texts, _, htexts, hshared, rfl⟩ := Logged.bind_eq_ok.mp hrest
  obtain ⟨variants, hvariants, rfl, hlog⟩ := exists_describeVariants h htexts
  by_cases hempty : (shownFields tag (some fields)).isEmpty
  · rw [if_pos hempty] at hshared
    obtain ⟨rfl, rfl⟩ := Logged.pure_eq_ok.mp hshared
    have hshown : w.describeFields tag fields = .ok [] := describeFields_of_isEmpty hempty
    refine ⟨.any variants, ?_, rfl, fun name => ?_⟩
    · rw [describe, hvalues, Except.ok_bind, hvariants, Except.ok_bind, hshown]
      rfl
    · rw [List.nil_append, List.append_nil]
      exact hlog name
  · rw [if_neg hempty] at hshared
    obtain ⟨_, lines, _, hlines, hpure, rfl⟩ := Logged.bind_eq_ok.mp hshared
    obtain ⟨rfl, rfl⟩ := Logged.pure_eq_ok.mp hpure
    obtain ⟨shown, hshown, rfl, hlog'⟩ := exists_describeFields hfields hlines
    have hshownEmpty := isEmpty_of_describeFields hshown
    have hne : shown ≠ [] := by
      rintro rfl
      exact hempty hshownEmpty.symm
    refine ⟨.all [.object shown, .any variants], ?_, ?_, fun name => ?_⟩
    · rw [describe, hvalues, Except.ok_bind, hvariants, Except.ok_bind, hshown, Except.ok_bind,
        hshownEmpty, if_neg hempty]
      rfl
    · simp only [TypeExpr.text, TypeExpr.operands, TypeExpr.text_object hne, String.intercalate_cons_cons,
        String.intercalate_singleton, TypeExpr.parenthesized, TypeExpr.isCompound, String.append_assoc]
      rfl
    · -- The variants are written before the shared fields, but stand behind them in the text.
      simp only [TypeExpr.names, TypeExpr.references, TypeExpr.referencesOfParts, List.map_append,
        List.mem_append, hlog, hlog', List.nil_append, List.append_nil]
      exact or_comm

/-- **What is written for a type is the text of its written form.**  The log holds the names in it. -/
theorem exists_describe (w : TypeWriter) (type : ClientType) : w.Describes type := by
  induction type using ClientType.inductFields with
  | string | number | boolean | void | freeFormMap =>
    intro depth log text h
    rw [write] at h
    obtain ⟨rfl, rfl⟩ := Logged.pure_eq_ok.mp h
    exact ⟨_, rfl, rfl, fun _ => Iff.rfl⟩
  | enum values assigned =>
    intro depth log text h
    rw [write] at h
    split at h
    · next name hname =>
      obtain ⟨rfl, rfl⟩ := qualified_eq_ok.mp h
      exact ⟨.named w.qualifier name, by rw [describe, hname]; rfl, rfl, fun _ => Iff.rfl⟩
    · next hname =>
      obtain ⟨rfl, rfl⟩ := Logged.pure_eq_ok.mp h
      exact ⟨.literals values, by rw [describe, hname]; rfl, rfl, fun _ => Iff.rfl⟩
  | array element ih => exact describes_array ih
  | map element ih => exact describes_map ih
  | object fields ih => exact describes_object ih
  | composition parts ih => exact describes_composition ih
  | ref target =>
    intro depth log text h
    rw [write] at h
    obtain ⟨_, d, _, hlift, hname, rfl⟩ := Logged.bind_eq_ok.mp h
    obtain ⟨rfl, hd⟩ := Logged.lift_eq_ok.mp hlift
    obtain ⟨rfl, rfl⟩ := qualified_eq_ok.mp hname
    exact ⟨_, by rw [describe, hd]; rfl, rfl, fun _ => Iff.rfl⟩
  | union members tag mapping shared tagType ihm ihs =>
    cases shared with
    | none => exact describes_union ihm
    | some fields => exact describes_union_shared ihm (ihs fields rfl)

end TypeWriter

end TypedClient.Output
