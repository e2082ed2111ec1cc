import TypedClient.Proofs.Calls
import TypedClient.Proofs.StringSyntax

namespace TypedClient.Output

open StringSyntax

/-!
# Routes in methods

The route of an operation stands in its method twice, as the name of the method and in the call, and both times it is
put between quotes as it is.  This file says which routes can be read back from there.

* `exists_routes` — the two places.
* `routes_denoted_iff` — the route is denoted at either place exactly if it can be put between quotes as it is.
-/

/-- A text between quotes, as it is. -/
def quotedAsIs (s : String) : String :=
  "'" ++ s ++ "'"

/-- What stands between the name of a method and the arguments of its call. -/
def signatureText (parameter result : String) : String :=
  "(" ++ parameter ++ "): Promise<" ++ result ++ "> \x7b\n    return this.callApi("

/-- What stands in front of the route of a call. -/
def routeOpening (o : Operation) : String :=
  if (o.namesIn .path).isEmpty then "" else "interpolateParams("

/-- A text that begins with another one between quotes, and what it denotes. -/
theorem denotes_quotedAsIs_iff (s back : String) : Denotes (quotedAsIs s ++ back).toList s ↔ Verbatim s := by
  rw [quotedAsIs, String.toList_append, String.toList_append, String.toList_append, List.append_assoc,
    List.append_assoc]
  exact denotes_quoted_iff

variable {w : TypeWriter} {o : Operation} {log : List String} {text : String}

theorem exists_routeText {route : String} (h : (Call.of o).routeText = .ok route) :
    ∃ back, route = routeOpening o ++ (quotedAsIs o.route ++ back) := by
  have hroute : (Call.of o).route = o.route := rfl
  have hpath : (Call.of o).path = o.namesIn .path := rfl
  rw [Call.routeText, hroute, hpath] at h
  rw [routeOpening]
  -- Only a route with parameters in the path is interpolated.
  split at h
  · next hempty =>
    cases h
    exact ⟨"", by rw [if_pos hempty, String.empty_append, String.append_empty, quotedAsIs]⟩
  · next hsome =>
    obtain ⟨names, -, hpure⟩ := Except.bind_eq_ok.mp h
    cases hpure
    rw [if_neg hsome]
    refine ⟨", " ++ (bracedNames ((o.namesIn .path).map (Call.substitution (Call.placeholdersByName names))) ++ ")"),
      ?_⟩
    have hopening : "interpolateParams('" = "interpolateParams(" ++ "'" := rfl
    have hcomma : "', " = "'" ++ ", " := rfl
    simp only [quotedAsIs, hopening, hcomma, String.append_assoc]

/-- The parameter of a method. -/
def Method.parameter (m : Method) : String :=
  match m.call.pattern with
  | some pattern => pattern ++ ": " ++ m.argument.text 1
  | none => ""

/-- The text of a method begins with its name, and what the call passes on comes last. -/
theorem Method.text_eq (m : Method) :
    m.text = "\n  public async " ++ (quotedAsIs m.call.route ++ (signatureText m.parameter (m.result.text 1)
      ++ (String.intercalate ", " m.passed ++ ");\n  \x7d"))) := by
  have hopening : "\n  public async '" = "\n  public async " ++ "'" := rfl
  have hparameter : "'(" = "'" ++ "(" := rfl
  have hcall : "> \x7b\n    return this.callApi(" = "> \x7b\n" ++ "    return this.callApi(" := rfl
  unfold Method.text Method.parameter
  cases m.call.pattern <;> simp only [signatureText, quotedAsIs, hopening, hparameter, hcall, String.append_assoc]

/-- What a call passes on begins with its route. -/
theorem exists_intercalate_arguments {passed : List String} (h : (Call.of o).arguments = .ok passed) :
    ∃ back, String.intercalate ", " passed = routeOpening o ++ (quotedAsIs o.route ++ back) := by
  simp only [Call.arguments, Except.bind_eq_ok, Except.pure_eq_ok] at h
  obtain ⟨route, hroute, rfl⟩ := h
  obtain ⟨back, rfl⟩ := exists_routeText hroute
  rw [List.cons_append, String.intercalate_cons_append, String.intercalate_cons_append]
  exact ⟨_, rfl⟩

/-- The text of a method has the route at two places. -/
theorem exists_routes (h : w.writeMethod o = ⟨log, .ok text⟩) :
    ∃ parameter result back,
      text = "\n  public async " ++ (quotedAsIs o.route ++ (signatureText parameter result
        ++ (routeOpening o ++ (quotedAsIs o.route ++ back)))) := by
  obtain ⟨m, hm, rfl, -⟩ := TypeWriter.exists_describeMethod h
  simp only [TypeWriter.describeMethod, Except.bind_eq_ok, Except.pure_eq_ok] at hm
  obtain ⟨argument, -, passed, hpassed, result, -, rfl⟩ := hm
  have htext := Method.text_eq ⟨Call.of o, passed, argument, result⟩
  obtain ⟨back, hback⟩ := exists_intercalate_arguments hpassed
  refine ⟨Method.parameter ⟨Call.of o, passed, argument, result⟩, result.text 1, back ++ ");\n  \x7d", htext.trans ?_⟩
  simp only [hback, String.append_assoc]
  rfl

/-- **Routes of methods.**  The text of a method begins with its name behind `public async`, and the call has the
    route as its first argument, or as the first argument of the interpolation if the path takes parameters.  At
    either place there is a text between quotes that denotes the route exactly if the route has no quote, no
    backslash and no line break. -/
theorem routes_denoted_iff (h : w.writeMethod o = ⟨log, .ok text⟩) :
    ∃ parameter result name argument,
      text = "\n  public async " ++ name
      ∧ (∃ rest, name = quotedAsIs o.route ++ rest
        ∧ rest = signatureText parameter result ++ (routeOpening o ++ argument))
      ∧ (∃ rest, argument = quotedAsIs o.route ++ rest)
      ∧ (Denotes name.toList o.route ↔ Verbatim o.route)
      ∧ (Denotes argument.toList o.route ↔ Verbatim o.route) := by
  obtain ⟨parameter, result, back, rfl⟩ := exists_routes h
  exact ⟨parameter, result, _, _, rfl, ⟨_, rfl, rfl⟩, ⟨back, rfl⟩, denotes_quotedAsIs_iff _ _,
    denotes_quotedAsIs_iff _ _⟩

/-- The route of a post is denoted in its method. -/
theorem post_route_denoted :
    TypeWriter.writeMethod ⟨[], false, none⟩ postExtraction.operation = ⟨[], .ok postText⟩
      ∧ ∃ parameter result name argument,
        postText = "\n  public async " ++ name
        ∧ (∃ rest, name = quotedAsIs postExtraction.route ++ rest
          ∧ rest = signatureText parameter result ++ (routeOpening postExtraction.operation ++ argument))
        ∧ Denotes name.toList postExtraction.route ∧ Denotes argument.toList postExtraction.route := by
  obtain ⟨parameter, result, name, argument, htext, hname, -, hdenotes, hargument⟩ := routes_denoted_iff write_post
  have hverbatim : Verbatim postExtraction.operation.route := by decide +kernel
  exact ⟨write_post, parameter, result, name, argument, htext, hname, hdenotes.mpr hverbatim,
    hargument.mpr hverbatim⟩

/-! ### Quotes in a route -/

/-- A route in which a placeholder stands between quotes. -/
def quotedPaths : Value :=
  .map [(.text "/users('\x7bid\x7d')", .map [(.text "get", .map [
    (.text "parameters", .list [
      .map [(.text "name", .text "id"), (.text "in", .text "path"), (.text "required", .bool true)]]),
    (.text "responses", .map [(.text "200", .null)])])])]

def quotedExtraction : Route.Extraction where
  method := "GET"
  route := "/users('\x7bid\x7d')"
  parameters := [⟨.path, "id", .string, true⟩]
  body := none
  result := none

theorem extract_quoted : Route.extract "" quotedPaths = ⟨[], .ok [quotedExtraction.operation]⟩ := by
  have houtlines : Route.outlines quotedPaths = .ok [quotedExtraction.outline] := by cbv
  refine Route.extract_eq_ok_iff.mpr ⟨_, houtlines, [quotedExtraction], rfl, ?_, rfl, rfl⟩
  rw [List.forall_mem_singleton]
  exact fun c hc => absurd hc List.not_mem_nil

/-- The text of its method, from the route in the call on. -/
def quotedArgument : String :=
  quotedAsIs "/users('\x7bid\x7d')" ++ ", \x7b id \x7d), undefined);\n  \x7d"

/-- The text of its method, from the name on. -/
def quotedName : String :=
  quotedAsIs "/users('\x7bid\x7d')" ++ ("(\x7b id \x7d: \x7b\n    id: string;\n  \x7d): Promise<void> \x7b\n"
    ++ "    return this.callApi(interpolateParams(" ++ quotedArgument)

theorem write_quoted : TypeWriter.writeMethod ⟨[], false, none⟩ quotedExtraction.operation
    = ⟨[], .ok ("\n  public async " ++ quotedName)⟩ := by
  cbv

/-- Neither as the name nor in the call the route is denoted: the first text between quotes is the beginning of the
    route, up to its own quote. -/
theorem quoted_route_cut : Route.extract "" quotedPaths = ⟨[], .ok [quotedExtraction.operation]⟩
    ∧ TypeWriter.writeMethod ⟨[], false, none⟩ quotedExtraction.operation
      = ⟨[], .ok ("\n  public async " ++ quotedName)⟩
    ∧ Denotes quotedName.toList "/users(" ∧ Denotes quotedArgument.toList "/users("
    ∧ ¬ Denotes quotedName.toList "/users('\x7bid\x7d')" ∧ ¬ Denotes quotedArgument.toList "/users('\x7bid\x7d')" := by
  have hverbatim : Verbatim "/users(" := by decide +kernel
  have hquote : ¬ Verbatim "/users('\x7bid\x7d')" := by decide +kernel
  have hcut : quotedAsIs "/users('\x7bid\x7d')" = quotedAsIs "/users(" ++ "\x7bid\x7d')'" := by decide +kernel
  refine ⟨extract_quoted, write_quoted, ?_, ?_, ?_, ?_⟩
  · rw [quotedName, hcut, String.append_assoc]
    exact (denotes_quotedAsIs_iff _ _).mpr hverbatim
  · rw [quotedArgument, hcut, String.append_assoc]
    exact (denotes_quotedAsIs_iff _ _).mpr hverbatim
  · exact fun h => hquote ((denotes_quotedAsIs_iff _ _).mp h)
  · exact fun h => hquote ((denotes_quotedAsIs_iff _ _).mp h)

end TypedClient.Output
