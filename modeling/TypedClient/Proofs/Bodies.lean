import TypedClient.Proofs.RouteLiterals

namespace TypedClient

open Route (Site Stems pathNames queryNames scopeOf)
open Schema (Converts IsOf)

/-!
# What becomes of a described body

An operation does not keep whether the document describes a body for it.  It keeps the fields of a body that becomes
an object, and the type of any other body, and its method has a body if there is one of these.  For one kind of body
there is neither: an object that has properties, but none in them.

* `Schema.DescribesNoFields` — a schema of this kind; `Schema.converts_fieldless_iff` says what becomes of it.
* `Site.DescribesBody`, `Site.DescribesFieldlessBody` — what the document says about the body of a method.
* `Site.Sends.sends_iff` — something is sent exactly for a described body that is not of this kind.
* `Output.BindsBody`, `Output.BindsNoBody` — the parameter of a method that has a body, and of one that has none.
* `Output.body_sent_iff` — a method binds the body and passes it on exactly then.
-/

/-! ### Objects without fields -/

namespace Schema

/-- The schema of an object that has properties, but none in them, and that combines nothing. -/
def DescribesNoFields (schema : Value) : Prop :=
  ∃ entries described, schema.bare = .map entries ∧ IsOf entries "object"
    ∧ Value.find? "properties" entries = some described ∧ properties described = .ok [] ∧ combined entries = none

variable {scope : Link.Scope} {schema : Value}

/-- These are the schemas that become an object without fields. -/
theorem converts_fieldless_iff : (∃ log, Converts scope schema log (.object [])) ↔ DescribesNoFields schema := by
  constructor
  · rintro ⟨log, h⟩
    generalize htype : ClientType.object [] = type at h
    induction h with
    | again _ ih => exact ih htype
    | @object entries own hof howns _ hall hone =>
      obtain rfl : own = [] := List.map_eq_nil_iff.mp (ClientType.object.inj htype).symm
      obtain ⟨described, hfind, hproperties, -⟩ := howns
      exact ⟨entries, described, rfl, hof, hfind, hproperties, Option.or_eq_none_iff.mpr ⟨hall, hone⟩⟩
    | _ => cases htype
  · rintro ⟨entries, described, hbare, hof, hfind, hproperties, hcombined⟩
    obtain ⟨hall, hone⟩ := Option.or_eq_none_iff.mp hcombined
    fun_induction Value.bare schema with
    | case1 levels content ih =>
      obtain ⟨log, h⟩ := ih hbare
      exact ⟨log, .again h⟩
    | case2 v =>
      subst hbare
      have howns : Owns entries (some []) := ⟨described, hfind, hproperties, by simp⟩
      exact ⟨_, .object hof howns (by simp) hall hone⟩

/-- A schema becomes one type. -/
theorem Converts.type_unique {log log' : List String} {type type' : ClientType} (h : Converts scope schema log type)
    (h' : Converts scope schema log' type') : type' = type := by
  have hsame := (convert_eq_ok_iff.mpr h').symm.trans (convert_eq_ok_iff.mpr h)
  exact Except.ok.inj (Logged.mk.inj hsame).2

end Schema

/-! ### Bodies of methods -/

namespace Route

/-- The document describes a body for the method. -/
def Site.DescribesBody (s : Site) : Prop :=
  ∃ body, s.spec.get "requestBody" = .ok body ∧ body.isFilled = true

/-- It describes one whose schema is of an object without fields. -/
def Site.DescribesFieldlessBody (s : Site) : Prop :=
  ∃ body schema, s.spec.get "requestBody" = .ok body ∧ body.isFilled = true ∧ jsonSchema body = .ok schema
    ∧ Schema.DescribesNoFields schema

variable {entry : String} {s : Site}

theorem describesBody_of_bodySchema {schema : Option Value} (h : bodySchema s.method s.route s.spec = .ok schema) :
    (s.DescribesBody ↔ schema ≠ none)
      ∧ (s.DescribesFieldlessBody ↔ ∃ described, schema = some described ∧ Schema.DescribesNoFields described) := by
  obtain ⟨body, hbody, h⟩ := Except.bind_eq_ok.mp h
  have hget : ∀ other, s.spec.get "requestBody" = .ok other → other = body := by
    intro other hother
    exact Except.ok.inj (hother.symm.trans hbody)
  -- A body that counts as absent describes nothing.  Any other one has a schema, or reading it fails.
  split at h
  · next hfilled =>
    split at h
    · cases h
    · obtain ⟨described, hdescribed, h⟩ := Except.bind_eq_ok.mp h
      split at h
      · cases h
        refine ⟨iff_of_true ⟨body, hbody, hfilled⟩ nofun, ?_⟩
        constructor
        · rintro ⟨other, schema, hother, -, hschema, hnone⟩
          rw [hget other hother, hdescribed] at hschema
          cases hschema
          exact ⟨_, rfl, hnone⟩
        · rintro ⟨_, hsame, hnone⟩
          cases hsame
          exact ⟨body, _, hbody, hfilled, hdescribed, hnone⟩
      · cases h
  · next hempty =>
    cases h
    refine ⟨iff_of_false ?_ (fun hne => hne rfl), iff_of_false ?_ nofun⟩
    · rintro ⟨other, hother, hfilled⟩
      rw [hget other hother] at hfilled
      exact hempty hfilled
    · rintro ⟨other, -, hother, hfilled, -⟩
      rw [hget other hother] at hfilled
      exact hempty hfilled

/-- **What is sent.**  There is something to send for a described body, unless it is an object without fields. -/
theorem Site.Sends.sends_iff {own : List Schema.Property} {types : List ClientType} (h : s.Sends entry own types) :
    own ≠ [] ∨ types ≠ [] ↔ s.DescribesBody ∧ ¬ s.DescribesFieldlessBody := by
  cases h with
  | nothing hschema =>
    rw [(describesBody_of_bodySchema hschema).1]
    simp
  | object hschema hconverts =>
    obtain ⟨hdescribes, hfieldless⟩ := describesBody_of_bodySchema hschema
    rw [hdescribes, hfieldless]
    simp only [ne_eq, not_true_eq_false, or_false, reduceCtorEq, not_false_eq_true, true_and, Option.some.injEq,
      exists_eq_left', not_iff_not]
    -- The object is sent field by field, so there is nothing to send exactly if it has no fields.
    constructor
    · rintro rfl
      exact Schema.converts_fieldless_iff.mp ⟨_, hconverts⟩
    · intro hnone
      obtain ⟨log, hempty⟩ := Schema.converts_fieldless_iff.mpr hnone
      exact List.map_eq_nil_iff.mp (ClientType.object.inj (hempty.type_unique hconverts))
  | whole hschema hconverts hwhole =>
    obtain ⟨hdescribes, hfieldless⟩ := describesBody_of_bodySchema hschema
    rw [hdescribes, hfieldless]
    refine iff_of_true (.inr (by simp)) ⟨nofun, ?_⟩
    rintro ⟨_, hsame, hnone⟩
    cases hsame
    obtain ⟨log, hempty⟩ := Schema.converts_fieldless_iff.mpr hnone
    exact hwhole [] (hempty.type_unique hconverts)

end Route

/-! ### Methods -/

namespace Output

/-- A parameter binds the body: it is the body, or the body is the rest of the object that names are taken from. -/
inductive BindsBody (names : List String) : String → Prop
  | whole (type : String) : names = [] → BindsBody names ("body: " ++ type)
  | rest (type : String) : names ≠ [] → BindsBody names (bracedNames (names ++ ["...body"]) ++ ": " ++ type)

/-- A parameter binds names and no body: there is none, or it is an object that names are taken from. -/
inductive BindsNoBody (names : List String) : String → Prop
  | nothing : names = [] → BindsNoBody names ""
  | object (type : String) : names ≠ [] → BindsNoBody names (bracedNames names ++ ": " ++ type)

/-- A parameter does not do both. -/
theorem BindsNoBody.not_bindsBody {names : List String} {parameter : String} (h : BindsNoBody names parameter) :
    ¬ BindsBody names parameter := by
  intro hbody
  cases h with
  | nothing hnone =>
    generalize hparameter : "" = parameter at hbody
    cases hbody with
    | whole type => simpa using congrArg String.toList hparameter
    | rest type hsome => exact hsome hnone
  | object type hsome =>
    generalize hparameter : bracedNames names ++ ": " ++ type = parameter at hbody
    cases hbody with
    | whole other hnone => exact hsome hnone
    | rest other =>
      -- A blank follows the last name in one of them, and a comma in the other.
      have hnames : names.map (fun name => ' ' :: name.toList) ≠ [] := by simpa using hsome
      have hjoin : Text.joinPieces ',' (_ ++ [' ' :: "...body".toList]) = _ :=
        Text.joinPieces_append hnames (List.cons_ne_nil _ [])
      have hchars := congrArg String.toList hparameter
      rw [String.toList_append, String.toList_append, String.toList_append, String.toList_append,
        toList_bracedNames hsome, toList_bracedNames (by simp), List.map_append, List.map_singleton, hjoin] at hchars
      simp only [List.cons_append, List.append_assoc, List.cons.injEq, true_and, List.append_cancel_left_eq] at hchars
      cases hchars.1

/-- The text of a method with this parameter, which passes these arguments on. -/
def methodText (route parameter result : String) (passed : List String) : String :=
  "\n  public async " ++ (quotedAsIs route ++ (signatureText parameter result
    ++ (String.intercalate ", " passed ++ ");\n  \x7d")))

variable {entry : String} {paths : Value} {o : Operation} {w : TypeWriter} {log used : List String} {text : String}
  {operations : List Operation}

/-- What the parameter of a method binds. -/
theorem Method.binds_parameter (m : Method) :
    (m.call.hasBody = true → BindsBody (m.call.path ++ m.call.query) m.parameter)
      ∧ (m.call.hasBody = false → BindsNoBody (m.call.path ++ m.call.query) m.parameter) := by
  unfold Method.parameter Call.pattern
  -- With names, the body is what they leave over of the argument; without names, it is the whole of it.
  by_cases hnames : m.call.path ++ m.call.query = []
  · simp only [hnames, List.isEmpty_nil, Bool.not_true, Bool.false_eq_true, if_false]
    constructor
    · intro hbody
      rw [hbody]
      exact .whole _ rfl
    · intro hbody
      rw [hbody]
      exact .nothing rfl
  · have hsome : (!(m.call.path ++ m.call.query).isEmpty) = true := by simpa using hnames
    simp only [if_pos hsome]
    constructor
    · intro hbody
      rw [hbody]
      exact .rest _ hnames
    · intro hbody
      rw [hbody]
      simp only [Bool.false_eq_true, if_false, List.append_nil]
      exact .object _ hnames

/-- **Bodies.**  Every operation that is extracted has a site in the document.  If the document describes a body
    there, and not one of an object without fields, the method binds it and passes it on as the third argument.
    Otherwise, and so without a described body, it does neither. -/
theorem body_sent_iff (h : Route.extract entry paths = ⟨log, .ok operations⟩) (ho : o ∈ operations)
    (hwrite : w.writeMethod o = ⟨used, .ok text⟩) :
    (∃ s ds own, Stems entry paths o s ds own) ∧ ∀ s ds own, Stems entry paths o s ds own →
      ∃ parameter result route query,
        (s.DescribesBody ∧ ¬ s.DescribesFieldlessBody →
          BindsBody ((pathNames ds ++ queryNames ds).map Naming.normalize) parameter
            ∧ text = methodText o.route parameter result [route, query, "body"])
        ∧ (¬ (s.DescribesBody ∧ ¬ s.DescribesFieldlessBody) →
          BindsNoBody ((pathNames ds ++ queryNames ds).map Naming.normalize) parameter
            ∧ ¬ BindsBody ((pathNames ds ++ queryNames ds).map Naming.normalize) parameter
            ∧ text = methodText o.route parameter result [route, query]) := by
  refine ⟨Route.exists_stems h ho, fun s ds own hstems => ?_⟩
  obtain ⟨m, hm, rfl, -⟩ := TypeWriter.exists_describeMethod hwrite
  simp only [TypeWriter.describeMethod, Except.bind_eq_ok, Except.pure_eq_ok] at hm
  obtain ⟨argument, -, passed, hpassed, result, -, rfl⟩ := hm
  simp only [Call.arguments, Except.bind_eq_ok, Except.pure_eq_ok] at hpassed
  obtain ⟨route, -, rfl⟩ := hpassed
  have hnames : (pathNames ds ++ queryNames ds).map Naming.normalize = (Call.of o).path ++ (Call.of o).query := by
    rw [List.map_append, ← hstems.namesIn_path, ← hstems.namesIn_query]
    rfl
  have hbody : (Call.of o).hasBody = true ↔ s.DescribesBody ∧ ¬ s.DescribesFieldlessBody :=
    (hasBody_iff hstems).trans hstems.sends.sends_iff
  have hbinds := Method.binds_parameter ⟨Call.of o, [route, (Call.of o).queryText]
    ++ if (Call.of o).hasBody then ["body"] else [], argument, result⟩
  rw [hnames, ← hbody]
  refine ⟨_, result.text 1, route, (Call.of o).queryText, fun hsent => ⟨hbinds.1 hsent, ?_⟩, fun hnone => ?_⟩
  · rw [Method.text_eq]
    simp only [hsent, if_true]
    rfl
  · rw [Bool.not_eq_true] at hnone
    refine ⟨hbinds.2 hnone, (hbinds.2 hnone).not_bindsBody, ?_⟩
    rw [Method.text_eq]
    simp only [hnone, Bool.false_eq_true, if_false, List.append_nil]
    rfl

/-- The two properties of a post are sent: the method binds them as the rest, behind the two placeholders. -/
theorem post_body_sent : Route.extract "" postPaths = ⟨[], .ok [postExtraction.operation]⟩
    ∧ TypeWriter.writeMethod ⟨[], false, none⟩ postExtraction.operation = ⟨[], .ok postText⟩
    ∧ ∃ s ds own parameter result route query, Stems "" postPaths postExtraction.operation s ds own
      ∧ s.DescribesBody ∧ BindsBody ((pathNames ds ++ queryNames ds).map Naming.normalize) parameter
      ∧ postText = methodText postExtraction.route parameter result [route, query, "body"] := by
  obtain ⟨⟨s, ds, own, hstems⟩, hall⟩ := body_sent_iff extract_post (List.mem_singleton_self _) write_post
  have hsent := hstems.sends.sends_iff.mp ((hasBody_iff hstems).mp (by decide))
  obtain ⟨parameter, result, route, query, hbinds, -⟩ := hall s ds own hstems
  exact ⟨extract_post, write_post, s, ds, own, parameter, result, route, query, hstems, hsent.1, (hbinds hsent).1,
    (hbinds hsent).2⟩

/-! ### A body that is not sent -/

/-- A method with a body of an object without fields. -/
def pingSpec : Value :=
  .map [(.text "requestBody", .map [(.text "content", .map [(.text "application/json", .map [(.text "schema",
      .map [(.text "type", .text "object"), (.text "properties", .map [])])])])]),
    (.text "responses", .map [(.text "200", .null)])]

def pingPaths : Value :=
  .map [(.text "/ping", .map [(.text "post", pingSpec)])]

def pingSite : Site :=
  ⟨"/ping", .map [(.text "post", pingSpec)], "POST", pingSpec⟩

def pingOperation : Operation where
  method := "POST"
  route := "/ping"
  parameters := []
  bodyTypes := []
  result := .void

theorem converts_ping : Converts ⟨"", ""⟩ (.map [(.text "type", .text "object"), (.text "properties", .map [])]) []
    (.object []) := by
  have howns : Schema.Owns [(.text "type", .text "object"), (.text "properties", .map [])] (some []) :=
    ⟨_, rfl, rfl, by simp⟩
  exact .object ⟨rfl, rfl⟩ howns (by simp) rfl rfl

theorem extract_ping : Route.extract "" pingPaths = ⟨[], .ok [pingOperation]⟩ := by
  cbv

theorem stems_ping : Stems "" pingPaths pingOperation pingSite [] [] where
  isIn := ⟨_, _, _, _, rfl, List.mem_singleton_self _, rfl, List.mem_singleton_self _, by cbv, rfl⟩
  method_eq := rfl
  route_eq := rfl
  declares := ⟨_, _, [], rfl, rfl, rfl, .nil⟩
  matchesRoute := ⟨⟨[], by cbv, .nil⟩, nofun, nofun⟩
  sends := .object rfl converts_ping rfl rfl
  parameters_eq := rfl

/-- The body is described, but the method takes no parameter and passes on two arguments. -/
theorem ping_body_dropped : Route.extract "" pingPaths = ⟨[], .ok [pingOperation]⟩
    ∧ Stems "" pingPaths pingOperation pingSite [] [] ∧ pingSite.DescribesBody
    ∧ TypeWriter.writeMethod ⟨[], false, none⟩ pingOperation
      = ⟨[], .ok (methodText "/ping" "" "void" ["'/ping'", "undefined"])⟩
    ∧ ¬ BindsBody [] "" := by
  have hwrite : TypeWriter.writeMethod ⟨[], false, none⟩ pingOperation
      = ⟨[], .ok (methodText "/ping" "" "void" ["'/ping'", "undefined"])⟩ := by cbv
  exact ⟨extract_ping, stems_ping, ⟨_, rfl, rfl⟩, hwrite, (BindsNoBody.nothing rfl).not_bindsBody⟩

end Output

end TypedClient
