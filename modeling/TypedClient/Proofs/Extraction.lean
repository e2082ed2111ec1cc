import TypedClient.Proofs.Links
import TypedClient.Route.Extract

namespace TypedClient

open ClientType (Inside)
open Schema (Conversion Converts LinksTo convert_eq_ok_iff)

/-!
# What the operations of a document are made of

Extraction reads everything of an operation but its two schemas without looking at any schema, and
converts the schemas as they come.  The two things are told apart here: the outline of an operation is
what is read, and the operation is its outline with the schemas converted.

* `Outline` — an operation whose schemas are not converted.
* `outlines` — the outlines of all operations that paths describe.
* `Extraction` — an outline with the conversions of its schemas.
* `extract_eq_ok_iff` — extraction converts the schemas of the outlines.
* `Extracts.mem_log_iff_linksTo`, `Extracts.mem_log_iff_inside` — the keys that extraction meets are those
  of the links in the schemas, and the references of the operations.
-/

/-- The types that an operation is written with. -/
def Operation.types (o : Operation) : List ClientType :=
  o.parameters.map (·.type) ++ o.bodyTypes ++ [o.result]

namespace Route

/-! ### Outlines -/

/-- An operation with the schemas of what it sends and receives, as far as it has any. -/
structure Outline where
  method : String
  route : String
  parameters : List Parameter
  body : Option Value
  result : Option Value

/-- The schema of what an operation sends. -/
def bodySchema (method route : String) (spec : Value) : Except Failure (Option Value) := do
  let body ← spec.get "requestBody"
  if body.isFilled then
    if method = "GET" then throw (.getWithBody route)
    else do
      let schema ← jsonSchema body
      if schema.isFilled then return some schema else throw (.emptyBody route)
  else return none

/-- The schema of what an operation receives. -/
def resultSchema (route : String) (spec : Value) : Except Failure (Option Value) := do
  let success ← successOf route (← spec.get "responses").orEmpty
  let schema ← jsonSchema success.orEmpty
  return if schema.isFilled then some schema else none

/-- The route of an operation and its parameters but those of the body. -/
def headOf (route spec shared : Value) : Except Failure (String × List Parameter) := do
  let route ← route.asText
  let names ← parameterNames route
  let own := (← spec.get "parameters").orElse (.list [])
  let (bound, unbound) ← bindParameters route names (← mergeParameters shared own)
  if unbound.isEmpty then return (route, bound) else throw (.unboundPathParameters route unbound)

/-- The outline of the operation that one method of a route describes. -/
def outlineOf (route : Value) (method : String) (spec shared : Value) : Except Failure Outline := do
  let (route, parameters) ← headOf route spec shared
  let body ← bodySchema method route spec
  let result ← resultSchema route spec
  return ⟨method, route, parameters, body, result⟩

/-- The outlines of the operations that the entries of one path describe. -/
def outlinesOfMethods (route shared : Value) :
    List (Value × Value) → Except Failure (List Outline)
  | [] => return []
  | (key, spec) :: rest => do
    match ← methodOf key with
    | none => outlinesOfMethods route shared rest
    | some method =>
      let outline ← outlineOf route method spec.orEmpty shared
      return outline :: (← outlinesOfMethods route shared rest)

/-- The outlines of the operations of several paths. -/
def outlinesOfPaths : List (Value × Value) → Except Failure (List Outline)
  | [] => return []
  | (route, path) :: rest => do
    let shared := (← path.get "parameters").orElse (.list [])
    let outlines ← outlinesOfMethods route shared (← path.entries)
    return outlines ++ (← outlinesOfPaths rest)

/-- The outlines of the operations of a document. -/
def outlines (paths : Value) : Except Failure (List Outline) := do
  outlinesOfPaths (← paths.orEmpty.entries)

/-! ### Extractions -/

/-- The parameters and the types that a body of a type is sent as. -/
def sentAs : ClientType → List Parameter × List ClientType
  | .object fields => (fields.map fun f => ⟨.body, f.name, f.type, f.required⟩, [])
  | type => ([], [type])

/-- An operation with the conversions of its schemas. -/
structure Extraction where
  method : String
  route : String
  parameters : List Parameter
  body : Option Conversion
  result : Option Conversion

namespace Extraction

/-- The operation before the conversions. -/
def outline (x : Extraction) : Outline :=
  ⟨x.method, x.route, x.parameters, x.body.map (·.schema), x.result.map (·.schema)⟩

/-- The conversions in order. -/
def conversions (x : Extraction) : List Conversion :=
  x.body.toList ++ x.result.toList

/-- The keys that the conversions meet. -/
def log (x : Extraction) : List String :=
  x.conversions.flatMap (·.log)

/-- What is sent. -/
def sent (body : Option Conversion) : List Parameter × List ClientType :=
  match body with
  | some c => sentAs c.type
  | none => ([], [])

/-- What is received. -/
def received (result : Option Conversion) : ClientType :=
  match result with
  | some c => c.type
  | none => .void

/-- The operation after the conversions. -/
def operation (x : Extraction) : Operation where
  method := x.method
  route := x.route
  parameters := x.parameters ++ (sent x.body).1
  bodyTypes := (sent x.body).2
  result := received x.result

/-- The conversions are right in the document with the name `entry`. -/
def Holds (entry : String) (x : Extraction) : Prop :=
  ∀ c ∈ x.conversions, Converts (scopeOf entry) c.schema c.log c.type

end Extraction

variable {entry : String}

/-- What is sent is read first and converted then. -/
theorem bodyOf_eq (method route : String) (spec : Value) :
    bodyOf entry method route spec = (do
      match ← (bodySchema method route spec) with
      | none => return ([], [])
      | some schema => return sentAs (← Schema.convert (scopeOf entry) schema)) := by
  unfold bodyOf bodySchema
  cases spec.get "requestBody" with
  | error e => simp
  | ok body =>
    by_cases hbody : body.isFilled
    · by_cases hget : method = "GET"
      · simp [hbody, hget]
      · cases hschema : jsonSchema body with
        | error e => simp [hbody, hget, hschema]
        | ok schema =>
          by_cases hfilled : schema.isFilled
          · -- Both ways convert the schema; they differ in how the type is taken apart.
            simp only [Bool.not_eq_eq_eq_not, Bool.not_true, hget, ↓reduceIte, Logged.throw_bind,
              Logged.lift_ok_bind, hbody, Bool.true_eq_false, hschema, hfilled, Except.ok_bind,
              Logged.lift_pure_bind]
            refine bind_congr fun type => ?_
            cases type <;> rfl
          · simp [hbody, hget, hschema, hfilled]
    · simp [hbody]

/-- What is received is read first and converted then. -/
theorem resultOf_eq (route : String) (spec : Value) :
    resultOf entry route spec = (do
      match ← (resultSchema route spec) with
      | none => return .void
      | some schema => Schema.convert (scopeOf entry) schema) := by
  -- Whatever goes wrong before the conversion goes wrong in the same way on both sides.
  unfold resultOf resultSchema
  cases spec.get "responses" with
  | error e => simp
  | ok responses =>
    cases hsuccess : successOf route responses.orEmpty with
    | error e => simp [hsuccess]
    | ok success =>
      cases hschema : jsonSchema success.orEmpty with
      | error e => simp [hsuccess, hschema]
      | ok schema =>
        by_cases hfilled : schema.isFilled
        · simp [hsuccess, hschema, hfilled]
        · simp [hsuccess, hschema, hfilled]

theorem bodyOf_eq_ok_iff {method route : String} {spec : Value} {log : List String}
    {parts : List Parameter × List ClientType} :
    bodyOf entry method route spec = ⟨log, .ok parts⟩
      ↔ ∃ body, bodySchema method route spec = .ok (body.map (·.schema))
        ∧ (∀ c ∈ body.toList, Converts (scopeOf entry) c.schema c.log c.type)
        ∧ body.toList.flatMap (·.log) = log ∧ Extraction.sent body = parts := by
  rw [bodyOf_eq, Logged.bind_eq_ok]
  constructor
  · rintro ⟨_, schema, rest, hlift, h, rfl⟩
    obtain ⟨rfl, hschema⟩ := Logged.lift_eq_ok.mp hlift
    cases schema with
    | none =>
      obtain ⟨rfl, rfl⟩ := Logged.pure_eq_ok.mp h
      exact ⟨none, hschema, by simp, rfl, rfl⟩
    | some schema =>
      simp only [Logged.bind_eq_ok, Logged.pure_eq_ok, convert_eq_ok_iff] at h
      obtain ⟨log, type, _, h, ⟨rfl, rfl⟩, rfl⟩ := h
      exact ⟨some ⟨schema, log, type⟩, hschema, by simpa using h, by simp, rfl⟩
  · rintro ⟨body, hschema, hconverts, rfl, rfl⟩
    refine ⟨[], _, _, Logged.lift_eq_ok.mpr ⟨rfl, hschema⟩, ?_, rfl⟩
    cases body with
    | none => rfl
    | some c =>
      simp only [Option.map_some, Logged.bind_eq_ok, Logged.pure_eq_ok, convert_eq_ok_iff]
      exact ⟨_, _, _, hconverts c (by simp), ⟨rfl, rfl⟩, by simp⟩

theorem resultOf_eq_ok_iff {route : String} {spec : Value} {log : List String} {type : ClientType} :
    resultOf entry route spec = ⟨log, .ok type⟩
      ↔ ∃ result, resultSchema route spec = .ok (result.map (·.schema))
        ∧ (∀ c ∈ result.toList, Converts (scopeOf entry) c.schema c.log c.type)
        ∧ result.toList.flatMap (·.log) = log ∧ Extraction.received result = type := by
  rw [resultOf_eq, Logged.bind_eq_ok]
  constructor
  · rintro ⟨_, schema, rest, hlift, h, rfl⟩
    obtain ⟨rfl, hschema⟩ := Logged.lift_eq_ok.mp hlift
    cases schema with
    | none =>
      obtain ⟨rfl, rfl⟩ := Logged.pure_eq_ok.mp h
      exact ⟨none, hschema, by simp, rfl, rfl⟩
    | some schema =>
      exact ⟨some ⟨schema, rest, type⟩, hschema, by simpa using convert_eq_ok_iff.mp h, by simp, rfl⟩
  · rintro ⟨result, hschema, hconverts, hlog, rfl⟩
    refine ⟨[], _, log, Logged.lift_eq_ok.mpr ⟨rfl, hschema⟩, ?_, rfl⟩
    cases result with
    | none =>
      subst hlog
      rfl
    | some c =>
      have hc : log = c.log := by simpa using hlog.symm
      rw [hc]
      exact convert_eq_ok_iff.mpr (hconverts c (by simp))

/-- The parameters of an operation are read before its schemas are converted. -/
theorem extractOperation_eq (route : Value) (method : String) (spec shared : Value) :
    extractOperation entry route method spec shared = (do
      let head ← headOf route spec shared
      let parts ← bodyOf entry method head.1 spec
      let result ← resultOf entry head.1 spec
      return ⟨method, head.1, head.2 ++ parts.1, parts.2, result⟩) := by
  -- The head is read in five stages; after the last one, both sides are the same.
  unfold extractOperation headOf
  cases hroute : route.asText with
  | error e => simp
  | ok text =>
    cases hnames : parameterNames text with
    | error e => simp [hnames]
    | ok names =>
      cases hown : spec.get "parameters" with
      | error e => simp [hnames]
      | ok own =>
        cases hmerged : mergeParameters shared (own.orElse (.list [])) with
        | error e => simp [hnames, hmerged]
        | ok merged =>
          cases hbound : bindParameters text names merged with
          | error e => simp [hnames, hmerged, hbound]
          | ok bound =>
            obtain ⟨bound, unbound⟩ := bound
            cases unbound with
            | nil => simp [hnames, hmerged, hbound]
            | cons name rest => simp [hnames, hmerged, hbound]

/-- An operation is its outline with the schemas converted. -/
theorem extractOperation_eq_ok_iff {route : Value} {method : String} {spec shared : Value}
    {log : List String} {operation : Operation} :
    extractOperation entry route method spec shared = ⟨log, .ok operation⟩
      ↔ ∃ x : Extraction, outlineOf route method spec shared = .ok x.outline ∧ x.Holds entry
        ∧ x.log = log ∧ x.operation = operation := by
  rw [extractOperation_eq]
  simp only [outlineOf, Logged.bind_eq_ok, Logged.lift_eq_ok, Logged.pure_eq_ok, Except.bind_eq_ok,
    Except.pure_eq_ok, bodyOf_eq_ok_iff, resultOf_eq_ok_iff]
  constructor
  · rintro ⟨_, head, _, ⟨rfl, hhead⟩, ⟨_, _, _, ⟨body, hbody, hsent, rfl, rfl⟩, ⟨_, _, _,
      ⟨result, hresult, hreceived, rfl, rfl⟩, ⟨rfl, rfl⟩, rfl⟩, rfl⟩, rfl⟩
    refine ⟨⟨method, head.1, head.2, body, result⟩,
      ⟨head, hhead, _, hbody, _, hresult, rfl⟩, ?_, ?_, rfl⟩
    · intro c hc
      exact (List.mem_append.mp hc).elim (hsent c) (hreceived c)
    · simp [Extraction.log, Extraction.conversions]
  · rintro ⟨x, ⟨head, hhead, body, hbody, result, hresult, heq⟩, hholds, rfl, rfl⟩
    obtain ⟨_, _, _, xbody, xresult⟩ := x
    simp only [Extraction.outline, Outline.mk.injEq] at heq
    obtain ⟨rfl, rfl, rfl, rfl, rfl⟩ := heq
    refine ⟨_, head, _, ⟨rfl, hhead⟩, ⟨_, _, _, ⟨xbody, hbody, ?_, rfl, rfl⟩, ⟨_, _, _,
      ⟨xresult, hresult, ?_, rfl, rfl⟩, ⟨rfl, rfl⟩, rfl⟩, rfl⟩, ?_⟩
    · exact fun c hc => hholds c (List.mem_append_left _ hc)
    · exact fun c hc => hholds c (List.mem_append_right _ hc)
    · simp [Extraction.log, Extraction.conversions]

/-! ### All operations -/

/-- These extractions are right and have these outlines. -/
def Extracts (entry : String) (outlines : List Outline) (log : List String)
    (operations : List Operation) : Prop :=
  ∃ xs : List Extraction, xs.map (·.outline) = outlines ∧ (∀ x ∈ xs, x.Holds entry)
    ∧ xs.flatMap (·.log) = log ∧ xs.map (·.operation) = operations

theorem extracts_nil_iff {log : List String} {operations : List Operation} :
    Extracts entry [] log operations ↔ log = [] ∧ operations = [] := by
  constructor
  · rintro ⟨xs, hxs, -, rfl, rfl⟩
    rw [List.map_eq_nil_iff] at hxs
    subst hxs
    exact ⟨rfl, rfl⟩
  · rintro ⟨rfl, rfl⟩
    exact ⟨[], rfl, by simp, rfl, rfl⟩

theorem extracts_append_iff {first second : List Outline} {log : List String}
    {operations : List Operation} :
    Extracts entry (first ++ second) log operations
      ↔ ∃ log₁ operations₁ log₂ operations₂, Extracts entry first log₁ operations₁
        ∧ Extracts entry second log₂ operations₂ ∧ log₁ ++ log₂ = log
        ∧ operations₁ ++ operations₂ = operations := by
  constructor
  · rintro ⟨xs, hxs, hholds, rfl, rfl⟩
    obtain ⟨xs, ys, rfl, rfl, rfl⟩ := List.map_eq_append_iff.mp hxs
    rw [List.forall_mem_append] at hholds
    exact ⟨_, _, _, _, ⟨xs, rfl, hholds.1, rfl, rfl⟩, ⟨ys, rfl, hholds.2, rfl, rfl⟩, by simp, by simp⟩
  · rintro ⟨_, _, _, _, ⟨xs, rfl, hxs, rfl, rfl⟩, ⟨ys, rfl, hys, rfl, rfl⟩, rfl, rfl⟩
    exact ⟨xs ++ ys, by simp, List.forall_mem_append.mpr ⟨hxs, hys⟩, by simp, by simp⟩

theorem extracts_cons_iff {o : Outline} {rest : List Outline} {log : List String}
    {operations : List Operation} :
    Extracts entry (o :: rest) log operations
      ↔ ∃ x : Extraction, x.outline = o ∧ x.Holds entry ∧ ∃ log' operations',
        Extracts entry rest log' operations' ∧ x.log ++ log' = log
        ∧ x.operation :: operations' = operations := by
  constructor
  · rintro ⟨xs, hxs, hholds, rfl, rfl⟩
    obtain ⟨x, xs, rfl, rfl, rfl⟩ := List.map_eq_cons_iff.mp hxs
    rw [List.forall_mem_cons] at hholds
    exact ⟨x, rfl, hholds.1, _, _, ⟨xs, rfl, hholds.2, rfl, rfl⟩, by simp, by simp⟩
  · rintro ⟨x, rfl, hx, _, _, ⟨xs, rfl, hxs, rfl, rfl⟩, rfl, rfl⟩
    exact ⟨x :: xs, by simp, List.forall_mem_cons.mpr ⟨hx, hxs⟩, by simp, by simp⟩

theorem extractMethods_eq_ok_iff {route shared : Value} {entries : List (Value × Value)}
    {log : List String} {operations : List Operation} :
    extractMethods entry route shared entries = ⟨log, .ok operations⟩
      ↔ ∃ os, outlinesOfMethods route shared entries = .ok os ∧ Extracts entry os log operations := by
  induction entries generalizing log operations with
  | nil =>
    rw [extractMethods, outlinesOfMethods, Logged.pure_eq_ok, eq_comm (a := [])]
    simp only [Except.pure_eq_ok, exists_eq_left', extracts_nil_iff]
  | cons e rest ih =>
    obtain ⟨key, spec⟩ := e
    unfold extractMethods outlinesOfMethods
    cases hmethod : methodOf key with
    | error e => simp
    | ok method =>
      rw [Logged.lift_ok_bind, Except.ok_bind]
      cases method with
      | none =>
        -- An entry that is no method is left out of both.
        exact ih
      | some method =>
        simp only [Logged.bind_eq_ok, Logged.pure_eq_ok, Except.bind_eq_ok, Except.pure_eq_ok, ih,
          extractOperation_eq_ok_iff]
        constructor
        · rintro ⟨_, _, _, ⟨x, hx, hholds, rfl, rfl⟩, ⟨_, _, _, ⟨os, hos, h⟩, ⟨rfl, rfl⟩, rfl⟩, rfl⟩
          exact ⟨_, ⟨_, hx, os, hos, rfl⟩,
            extracts_cons_iff.mpr ⟨x, rfl, hholds, _, _, h, by simp, rfl⟩⟩
        · rintro ⟨_, ⟨o, ho, os, hos, rfl⟩, h⟩
          obtain ⟨x, rfl, hholds, _, _, hrest, rfl, rfl⟩ := extracts_cons_iff.mp h
          exact ⟨_, _, _, ⟨x, ho, hholds, rfl, rfl⟩, ⟨_, _, _, ⟨os, hos, hrest⟩, ⟨rfl, rfl⟩, rfl⟩,
            by simp⟩

theorem extractPaths_eq_ok_iff {entries : List (Value × Value)} {log : List String}
    {operations : List Operation} :
    extractPaths entry entries = ⟨log, .ok operations⟩
      ↔ ∃ os, outlinesOfPaths entries = .ok os ∧ Extracts entry os log operations := by
  induction entries generalizing log operations with
  | nil =>
    rw [extractPaths, outlinesOfPaths, Logged.pure_eq_ok, eq_comm (a := [])]
    simp only [Except.pure_eq_ok, exists_eq_left', extracts_nil_iff]
  | cons e rest ih =>
    obtain ⟨route, path⟩ := e
    unfold extractPaths outlinesOfPaths
    -- What a path lacks ends both readings before anything is extracted from it.
    cases hshared : path.get "parameters" with
    | error e => simp
    | ok shared =>
      cases hentries : path.entries with
      | error e => simp
      | ok entries =>
        simp only [Logged.lift_ok_bind, Except.ok_bind, Logged.bind_eq_ok, Logged.pure_eq_ok,
          Except.bind_eq_ok, Except.pure_eq_ok, ih, extractMethods_eq_ok_iff]
        constructor
        · rintro ⟨_, _, _, ⟨os, hos, h⟩, ⟨_, _, _, ⟨os', hos', h'⟩, ⟨rfl, rfl⟩, rfl⟩, rfl⟩
          exact ⟨_, ⟨os, hos, os', hos', rfl⟩,
            extracts_append_iff.mpr ⟨_, _, _, _, h, h', by simp, rfl⟩⟩
        · rintro ⟨_, ⟨os, hos, os', hos', rfl⟩, h⟩
          obtain ⟨_, _, _, _, hfirst, hrest, rfl, rfl⟩ := extracts_append_iff.mp h
          exact ⟨_, _, _, ⟨os, hos, hfirst⟩, ⟨_, _, _, ⟨os', hos', hrest⟩, ⟨rfl, rfl⟩, rfl⟩, by simp⟩

/-- **Extraction converts the schemas of the outlines.**  It succeeds exactly if the outlines are there
    and all of their schemas can be converted. -/
theorem extract_eq_ok_iff {paths : Value} {log : List String} {operations : List Operation} :
    extract entry paths = ⟨log, .ok operations⟩
      ↔ ∃ os, outlines paths = .ok os ∧ Extracts entry os log operations := by
  unfold extract outlines
  cases paths.orEmpty.entries with
  | error e => simp
  | ok entries =>
    rw [Logged.lift_ok_bind, Except.ok_bind]
    exact extractPaths_eq_ok_iff

/-! ### Links and references -/

/-- The schemas of an operation. -/
def Outline.schemas (o : Outline) : List Value :=
  o.body.toList ++ o.result.toList

variable {key : String} {os : List Outline} {log : List String} {operations : List Operation}

theorem Extraction.schemas_outline (x : Extraction) :
    x.outline.schemas = x.conversions.map (·.schema) := by
  obtain ⟨_, _, _, body, result⟩ := x
  cases body <;> cases result <;> rfl

/-- The keys that extraction meets are those of the links in the schemas of the operations. -/
theorem Extracts.mem_log_iff_linksTo (h : Extracts entry os log operations) :
    key ∈ log ↔ ∃ o ∈ os, ∃ schema ∈ o.schemas, LinksTo (scopeOf entry) schema key := by
  obtain ⟨xs, rfl, hholds, rfl, rfl⟩ := h
  simp only [List.mem_flatMap, List.mem_map, exists_exists_and_eq_and, Extraction.log,
    Extraction.schemas_outline]
  refine exists_congr fun x => and_congr_right fun hx => exists_congr fun c => and_congr_right fun hc => ?_
  exact (hholds x hx c hc).mem_log_iff_linksTo

theorem type_of_bindParameter {route : String} {unbound rest : List String} {parameter : Value}
    {p : Parameter} (h : bindParameter route unbound parameter = .ok (p, rest)) :
    p.type = .string := by
  simp only [bindParameter, Except.bind_eq_ok] at h
  obtain ⟨location, -, name, -, required, -, h⟩ := h
  split at h
  · split at h
    · cases h
    · split at h
      · split at h
        · cases h
        · cases h
          rfl
      · cases h
  · obtain ⟨text, -, h⟩ := Except.bind_eq_ok.mp h
    cases h
    rfl
  · cases h

/-- Every parameter of a route or a query is a text. -/
theorem type_of_mem_bindParameters {route : String} {unbound rest : List String}
    {parameters : List Value} {bound : List Parameter}
    (h : bindParameters route unbound parameters = .ok (bound, rest)) {p : Parameter}
    (hp : p ∈ bound) : p.type = .string := by
  induction parameters generalizing unbound bound with
  | nil =>
    cases h
    cases hp
  | cons parameter parameters ih =>
    simp only [bindParameters, Except.bind_eq_ok, Except.pure_eq_ok] at h
    obtain ⟨⟨first, unbound'⟩, hfirst, ⟨others, _⟩, hothers, heq⟩ := h
    cases heq
    rcases List.mem_cons.mp hp with rfl | hp
    · exact type_of_bindParameter hfirst
    · exact ih hothers hp

theorem type_of_mem_outlineOf {route : Value} {method : String} {spec shared : Value} {o : Outline}
    (h : outlineOf route method spec shared = .ok o) {p : Parameter} (hp : p ∈ o.parameters) :
    p.type = .string := by
  simp only [outlineOf, headOf, Except.bind_eq_ok] at h
  obtain ⟨head, ⟨text, -, names, -, own, -, merged, -, bound, hbound, hhead⟩, _, -, _, -, ho⟩ := h
  cases ho
  split at hhead
  · cases hhead
    exact type_of_mem_bindParameters hbound hp
  · cases hhead

/-- Every outline of a path is the one of some entry that is a method. -/
theorem exists_of_mem_outlinesOfMethods {route shared : Value} {entries : List (Value × Value)}
    (h : outlinesOfMethods route shared entries = .ok os) {o : Outline} (ho : o ∈ os) :
    ∃ key spec method, (key, spec) ∈ entries ∧ methodOf key = .ok (some method)
      ∧ outlineOf route method spec.orEmpty shared = .ok o := by
  induction entries generalizing os with
  | nil =>
    cases h
    cases ho
  | cons e rest ih =>
    have hlater : ∀ {others}, outlinesOfMethods route shared rest = .ok others → o ∈ others →
        ∃ key spec method, (key, spec) ∈ e :: rest ∧ methodOf key = .ok (some method)
          ∧ outlineOf route method spec.orEmpty shared = .ok o := by
      intro others hothers ho
      obtain ⟨key, spec, method, hmem, h⟩ := ih hothers ho
      exact ⟨key, spec, method, List.mem_cons_of_mem _ hmem, h⟩
    obtain ⟨key, spec⟩ := e
    obtain ⟨method, hmethod, h⟩ := Except.bind_eq_ok.mp h
    cases method with
    -- An entry that is no method is passed over.
    | none => exact hlater h ho
    | some method =>
      simp only [Except.bind_eq_ok, Except.pure_eq_ok] at h
      obtain ⟨first, hfirst, others, hothers, rfl⟩ := h
      rcases List.mem_cons.mp ho with rfl | ho
      · exact ⟨key, spec, method, List.mem_cons_self, hmethod, hfirst⟩
      · exact hlater hothers ho

/-- Every outline is the one of some method of some path. -/
theorem exists_of_mem_outlinesOfPaths {entries : List (Value × Value)}
    (h : outlinesOfPaths entries = .ok os) {o : Outline} (ho : o ∈ os) :
    ∃ route path shared described key spec method, (route, path) ∈ entries
      ∧ path.get "parameters" = .ok shared ∧ path.entries = .ok described ∧ (key, spec) ∈ described
      ∧ methodOf key = .ok (some method)
      ∧ outlineOf route method spec.orEmpty (shared.orElse (.list [])) = .ok o := by
  induction entries generalizing os with
  | nil =>
    cases h
    cases ho
  | cons e rest ih =>
    obtain ⟨route, path⟩ := e
    simp only [outlinesOfPaths, Except.bind_eq_ok, Except.pure_eq_ok] at h
    obtain ⟨shared, hshared, described, hdescribed, first, hfirst, others, hothers, rfl⟩ := h
    rcases List.mem_append.mp ho with ho | ho
    · obtain ⟨key, spec, method, hmem, hmethod, ho⟩ := exists_of_mem_outlinesOfMethods hfirst ho
      exact ⟨route, path, shared, described, key, spec, method, List.mem_cons_self, hshared, hdescribed, hmem,
        hmethod, ho⟩
    · obtain ⟨route', path', shared', described', key, spec, method, hpath, hrest⟩ := ih hothers ho
      exact ⟨route', path', shared', described', key, spec, method, List.mem_cons_of_mem _ hpath, hrest⟩

/-- The parameters of all outlines are texts. -/
theorem type_of_mem_outlines {paths : Value} (h : outlines paths = .ok os) {o : Outline} (ho : o ∈ os)
    {p : Parameter} (hp : p ∈ o.parameters) : p.type = .string := by
  obtain ⟨entries, -, h⟩ := Except.bind_eq_ok.mp h
  obtain ⟨route, path, shared, described, key, spec, method, -, -, -, -, -, ho⟩ :=
    exists_of_mem_outlinesOfPaths h ho
  exact type_of_mem_outlineOf ho hp

/-- The references in what is sent are those of the type of the body. -/
theorem inside_sentAs_iff {type : ClientType} :
    (∃ p ∈ (sentAs type).1, Inside (.ref key) p.type) ∨ (∃ t ∈ (sentAs type).2, Inside (.ref key) t)
      ↔ Inside (.ref key) type := by
  unfold sentAs
  split
  · simp
  · simp

/-- The references of an operation are those of the types of its schemas. -/
theorem Extraction.inside_types_iff (x : Extraction)
    (htexts : ∀ p ∈ x.parameters, p.type = .string) :
    (∃ type ∈ x.operation.types, Inside (.ref key) type)
      ↔ ∃ c ∈ x.conversions, Inside (.ref key) c.type := by
  obtain ⟨method, route, parameters, body, result⟩ := x
  have hsent : (∃ p ∈ (sent body).1, Inside (.ref key) p.type) ∨ (∃ t ∈ (sent body).2, Inside (.ref key) t)
      ↔ ∃ c ∈ body.toList, Inside (.ref key) c.type := by
    cases body with
    | none => simp [sent]
    | some c => simpa [sent] using inside_sentAs_iff
  have hreceived : Inside (.ref key) (received result)
      ↔ ∃ c ∈ result.toList, Inside (.ref key) c.type := by
    cases result <;> simp [received]
  -- The parameters of the route and the query are texts, so they refer to nothing.
  have hparameters : ¬ ∃ p ∈ parameters, Inside (.ref key) p.type := by
    rintro ⟨p, hp, h⟩
    rw [htexts p hp] at h
    exact ClientType.inside_ref_string h
  simp only [Operation.types, operation, conversions, List.map_append, List.mem_append, List.mem_map,
    List.mem_singleton, or_and_right, exists_or, exists_exists_and_eq_and, exists_eq_left,
    hparameters, false_or, ← hsent, ← hreceived]

/-- The keys that extraction meets are the references of the operations. -/
theorem mem_log_iff_inside {paths : Value}
    (h : extract entry paths = ⟨log, .ok operations⟩) :
    key ∈ log ↔ ∃ o ∈ operations, ∃ type ∈ o.types, Inside (.ref key) type := by
  obtain ⟨os, hos, xs, rfl, hholds, rfl, rfl⟩ := extract_eq_ok_iff.mp h
  simp only [List.mem_flatMap, List.mem_map, exists_exists_and_eq_and, Extraction.log]
  refine exists_congr fun x => and_congr_right fun hx => ?_
  rw [x.inside_types_iff fun p hp => type_of_mem_outlines hos (List.mem_map_of_mem hx) hp]
  exact exists_congr fun c => and_congr_right fun hc => (hholds x hx c hc).mem_log_iff_inside

end Route

end TypedClient
