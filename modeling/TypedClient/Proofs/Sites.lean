import TypedClient.Proofs.Parameters

namespace TypedClient.Route

open Schema (Converts Property)

/-!
# Where the parameters of an operation come from

The parameters of an operation come from four lists of a document: what a path and its method describe for the path
and the query, and the properties of a body that becomes an object.  An operation keeps of them only normalized
names.  This file says for every operation that is extracted which descriptions and which properties these are.

* `exists_describes_of_bindParameters` — whatever passes the checks has a description.
* `Site` — a method of a path, with what the document says about both.
* `Site.Declares`, `Site.Sends` — the described parameters, and the properties that are sent one by one.
* `Stems` — an operation with its site, its descriptions and its properties.
* `exists_stems` — every operation that is extracted has them.
-/

/-! ### Descriptions of checked parameters -/

section Checked

variable {route : String} {names unbound left : List String}

/-- A parameter that passes its check has a description. -/
theorem exists_describes_of_bindParameter {v : Value} {p : Parameter}
    (h : bindParameter route unbound v = .ok (p, left)) : ∃ d, Describes v d := by
  simp only [bindParameter, Except.bind_eq_ok] at h
  obtain ⟨location, hlocation, name, hname, required, hrequired, h⟩ := h
  split at h
  · split at h
    · cases h
    · split at h
      · next s => exact ⟨⟨s, some "path", _⟩, hname, hlocation, required, hrequired, rfl⟩
      · cases h
  · obtain ⟨s, hs, -⟩ := Except.bind_eq_ok.mp h
    rw [Schema.asText_eq_ok_iff.mp hs] at hname
    exact ⟨⟨s, some "query", _⟩, hname, hlocation, required, hrequired, rfl⟩
  · cases h

/-- Parameters that pass the checks have descriptions. -/
theorem exists_describes_of_bindParameters {items : List Value} {bound : List Parameter}
    (h : bindParameters route unbound items = .ok (bound, left)) : ∃ ds, List.Forall₂ Describes items ds := by
  induction items generalizing unbound bound with
  | nil => exact ⟨[], .nil⟩
  | cons item items ih =>
    simp only [bindParameters, Except.bind_eq_ok] at h
    obtain ⟨⟨p, unbound'⟩, hitem, ⟨others, left'⟩, hothers, hpure⟩ := h
    obtain ⟨d, hd⟩ := exists_describes_of_bindParameter hitem
    cases hpure
    obtain ⟨ds, hds⟩ := ih hothers
    exact ⟨d :: ds, .cons hd hds⟩

/-- If all parameters pass and no placeholder is left over, the descriptions match the route. -/
theorem exists_matchesRoute_of_bindParameters {items : List Value} {bound : List Parameter}
    (hnames : parameterNames route = .ok names) (h : bindParameters route names items = .ok (bound, [])) :
    ∃ ds, List.Forall₂ Describes items ds ∧ MatchesRoute route ds ∧ bound = ds.map Described.parameter := by
  obtain ⟨ds, hds⟩ := exists_describes_of_bindParameters h
  rcases noOffence_or_firstOffence route names ds with hnone | ⟨failure, hfirst⟩
  · rw [bindParameters_of_noOffence hds hnone] at h
    obtain ⟨hbound, hleft⟩ := Prod.mk.inj (Except.ok.inj h)
    obtain ⟨hplaces, hrequired, hfits⟩ := noOffence_iff.mp hnone
    exact ⟨ds, hds, ⟨⟨names, hnames, (diff_eq_nil_iff_perm hfits).mp hleft⟩, hplaces, hrequired⟩, hbound.symm⟩
  · rw [bindParameters_of_firstOffence hds hfirst] at h
    cases h

end Checked

/-! ### Sites -/

/-- A method of a path, with what the document says about the path and about the method. -/
structure Site where
  route : String
  path : Value
  method : String
  spec : Value

namespace Site

/-- The paths have this method. -/
def In (s : Site) (paths : Value) : Prop :=
  ∃ routes described key given, paths.orEmpty.entries = .ok routes ∧ (.text s.route, s.path) ∈ routes
    ∧ s.path.entries = .ok described ∧ (key, given) ∈ described
    ∧ methodOf key = .ok (some s.method) ∧ s.spec = given.orEmpty

/-- The parameters of the path and of the method have these descriptions, as they are merged. -/
def Declares (s : Site) (ds : List Described) : Prop :=
  ∃ shared own items, s.path.get "parameters" = .ok shared ∧ s.spec.get "parameters" = .ok own
    ∧ mergeParameters (shared.orElse (.list [])) (own.orElse (.list [])) = .ok items
    ∧ List.Forall₂ Describes items ds

/-- What the method sends: nothing, the properties of an object one by one, or a whole value. -/
inductive Sends (entry : String) (s : Site) : List Property → List ClientType → Prop
  | nothing : bodySchema s.method s.route s.spec = .ok none → Sends entry s [] []
  | object {schema described : Value} {log : List String} {own : List Property} :
    bodySchema s.method s.route s.spec = .ok (some schema) →
    Converts (scopeOf entry) schema log (.object (own.map Property.field)) →
    schema.get "properties" = .ok described → Schema.properties described = .ok (own.map Property.entry) →
    Sends entry s own []
  | whole {schema : Value} {log : List String} {type : ClientType} :
    bodySchema s.method s.route s.spec = .ok (some schema) → Converts (scopeOf entry) schema log type →
    (∀ fields, type ≠ .object fields) → Sends entry s [] [type]

end Site

/-- The fields of an object are the properties of its schema, in order. -/
theorem exists_properties_of_converts {scope : Link.Scope} {schema : Value} {log : List String}
    {fields : List (Field ClientType)} (h : Converts scope schema log (.object fields)) :
    ∃ described, ∃ own : List Property, schema.get "properties" = .ok described
      ∧ Schema.properties described = .ok (own.map Property.entry) ∧ fields = own.map Property.field := by
  generalize htype : ClientType.object fields = type at h
  induction h with
  | again _ ih => exact ih htype
  | object _ howns _ _ _ =>
    cases htype
    obtain ⟨described, hfind, hproperties, -⟩ := howns
    refine ⟨described, _, ?_, hproperties, rfl⟩
    show Except.ok ((Value.find? "properties" _).getD .null) = _
    rw [hfind, Option.getD_some]
  | _ => cases htype

/-- The parameter that a property of the body becomes. -/
def bodyParameter (p : Property) : Parameter :=
  ⟨.body, Naming.normalize p.label, p.type, p.required⟩

/-- An operation comes from a site of the paths: its parameters are those of the merged descriptions, which match
    the route, and then the properties that are sent. -/
structure Stems (entry : String) (paths : Value) (o : Operation) (s : Site) (ds : List Described)
    (own : List Property) : Prop where
  isIn : s.In paths
  method_eq : s.method = o.method
  route_eq : s.route = o.route
  declares : s.Declares ds
  matchesRoute : MatchesRoute o.route ds
  sends : s.Sends entry own o.bodyTypes
  parameters_eq : o.parameters = ds.map Described.parameter ++ own.map bodyParameter

/-- What is sent is the body's schema after its conversion. -/
theorem Site.exists_sends {entry : String} {s : Site} {body : Option Schema.Conversion}
    (hschema : bodySchema s.method s.route s.spec = .ok (body.map (·.schema)))
    (hconverts : ∀ c ∈ body.toList, Converts (scopeOf entry) c.schema c.log c.type) :
    ∃ own, s.Sends entry own (Extraction.sent body).2 ∧ (Extraction.sent body).1 = own.map bodyParameter := by
  cases body with
  | none => exact ⟨[], .nothing hschema, rfl⟩
  | some c =>
    obtain ⟨schema, log, type⟩ := c
    have hc : Converts (scopeOf entry) schema log type := hconverts _ (List.mem_singleton_self _)
    -- An object is taken apart into parameters, and any other type is sent as it is.
    by_cases hobject : ∃ fields, type = .object fields
    · obtain ⟨fields, rfl⟩ := hobject
      obtain ⟨described, own, hdescribed, hproperties, rfl⟩ := exists_properties_of_converts hc
      refine ⟨own, .object hschema hc hdescribed hproperties, ?_⟩
      rw [Extraction.sent, sentAs, List.map_map]
      rfl
    · have hwhole : ∀ fields, type ≠ .object fields := not_exists.mp hobject
      have hsent : sentAs type = ([], [type]) := by
        rw [sentAs]
        exact hwhole
      refine ⟨[], ?_, ?_⟩
      · rw [Extraction.sent, hsent]
        exact .whole hschema hc hwhole
      · rw [Extraction.sent, hsent]
        rfl

/-- **Every operation has its site.**  The parameters of an operation that is extracted are those that the document
    describes there. -/
theorem exists_stems {entry : String} {paths : Value} {log : List String} {operations : List Operation}
    (h : extract entry paths = ⟨log, .ok operations⟩) {o : Operation} (ho : o ∈ operations) :
    ∃ s ds own, Stems entry paths o s ds own := by
  obtain ⟨os, hos, xs, rfl, hholds, rfl, rfl⟩ := extract_eq_ok_iff.mp h
  obtain ⟨x, hx, rfl⟩ := List.mem_map.mp ho
  -- The outline of the operation was made at one method of one path, and made without a failure.
  obtain ⟨entries, hentries, houtlines⟩ := Except.bind_eq_ok.mp hos
  obtain ⟨route, path, shared, described, key, spec, method, hroute, hshared, hdescribed, hspec, hmethod, houtline⟩ :=
    exists_of_mem_outlinesOfPaths houtlines (List.mem_map_of_mem hx)
  simp only [outlineOf, headOf, Except.bind_eq_ok, Except.pure_eq_ok] at houtline
  obtain ⟨head, ⟨text, htext, names, hnames, own, hown, items, hitems, ⟨bound, unbound⟩, hbound, hhead⟩, body, hbody,
    result, -, hx'⟩ := houtline
  split at hhead
  · next hempty =>
    cases Except.ok.inj hhead
    dsimp only at hempty hbody hx'
    rw [List.isEmpty_iff.mp hempty] at hbound
    rw [Schema.asText_eq_ok_iff.mp htext] at hroute
    obtain ⟨ds, hds, hmatches, rfl⟩ := exists_matchesRoute_of_bindParameters hnames hbound
    obtain ⟨hxmethod, hxroute, hxparameters, hxbody, -⟩ := Outline.mk.inj hx'
    subst hxbody
    obtain ⟨properties, hsends, hsent⟩ := Site.exists_sends (s := ⟨text, path, method, spec.orEmpty⟩) hbody
      fun c hc => hholds x hx c (List.mem_append_left _ hc)
    have hoperation : x.operation.route = text := hxroute.symm
    exact ⟨⟨text, path, method, spec.orEmpty⟩, ds, properties,
      { isIn := ⟨entries, described, key, spec, hentries, hroute, hdescribed, hspec, hmethod, rfl⟩
        method_eq := hxmethod
        route_eq := hxroute
        declares := ⟨shared, own, items, hshared, hown, hitems, hds⟩
        matchesRoute := by rwa [hoperation]
        sends := hsends
        parameters_eq := by rw [Extraction.operation, hsent, ← hxparameters] }⟩
  · cases hhead

/-! ### Names by place -/

/-- The names of the parameters that do not stand in the path. -/
def queryNames (ds : List Described) : List String :=
  (ds.filter fun d => d.place ≠ some "path").map (·.name)

theorem Described.name_parameter (d : Described) : d.parameter.name = Naming.normalize d.name := by
  rw [parameter]
  split <;> rfl

theorem Described.location_parameter (d : Described) :
    d.parameter.location = if d.place = some "path" then .path else .query := by
  rw [parameter]
  split <;> rfl

namespace Stems

variable {entry : String} {paths : Value} {o : Operation} {s : Site} {ds : List Described} {own : List Property}

/-- The parameters in one place are those that were described for it, and those of the body. -/
theorem namesIn_eq (h : Stems entry paths o s ds own) (location : Location) :
    o.namesIn location
      = ((ds.filter fun d => d.parameter.location == location).map fun d => Naming.normalize d.name)
        ++ if location = .body then own.map fun p => Naming.normalize p.label else [] := by
  have hdescribed : ((ds.map Described.parameter).filter fun p => p.location == location).map (·.name)
      = (ds.filter fun d => d.parameter.location == location).map fun d => Naming.normalize d.name := by
    rw [List.filter_map, List.map_map]
    exact List.map_congr_left fun d _ => d.name_parameter
  have hsent : ((own.map bodyParameter).filter fun p => p.location == location).map (·.name)
      = if location = .body then own.map fun p => Naming.normalize p.label else [] := by
    split
    · next hbody =>
      subst hbody
      rw [List.filter_eq_self.mpr (by simp [bodyParameter]), List.map_map]
      rfl
    · next hbody =>
      rw [List.filter_eq_nil_iff.mpr, List.map_nil]
      intro p hp
      obtain ⟨property, -, rfl⟩ := List.mem_map.mp hp
      simpa [bodyParameter] using Ne.symm hbody
  rw [Operation.namesIn, h.parameters_eq, List.filter_append, List.map_append, hdescribed, hsent]

theorem namesIn_path (h : Stems entry paths o s ds own) :
    o.namesIn .path = (pathNames ds).map Naming.normalize := by
  rw [h.namesIn_eq, if_neg (by decide), List.append_nil, pathNames, List.map_map]
  have hplace : ∀ d : Described, (d.parameter.location == .path) = decide (d.place = some "path") := by
    intro d
    rw [d.location_parameter]
    split <;> simp [*]
  simp only [hplace]
  rfl

theorem namesIn_query (h : Stems entry paths o s ds own) :
    o.namesIn .query = (queryNames ds).map Naming.normalize := by
  rw [h.namesIn_eq, if_neg (by decide), List.append_nil, queryNames, List.map_map]
  have hplace : ∀ d : Described, (d.parameter.location == .query) = decide (d.place ≠ some "path") := by
    intro d
    rw [d.location_parameter]
    split <;> simp [*]
  simp only [hplace]
  rfl

theorem namesIn_body (h : Stems entry paths o s ds own) :
    o.namesIn .body = own.map fun p => Naming.normalize p.label := by
  rw [h.namesIn_eq, if_pos rfl, List.filter_eq_nil_iff.mpr, List.map_nil, List.nil_append]
  intro d _
  rw [d.location_parameter]
  split <;> simp

/-- The names of all parameters, in order. -/
theorem map_name (h : Stems entry paths o s ds own) :
    o.parameters.map (·.name) = (ds.map (·.name) ++ own.map (·.label)).map Naming.normalize := by
  rw [h.parameters_eq, List.map_append, List.map_append, List.map_map, List.map_map, List.map_map, List.map_map]
  congr 1
  exact List.map_congr_left fun d _ => d.name_parameter

/-- All names of parameters are normalized. -/
theorem exists_normalize_eq (h : Stems entry paths o s ds own) {location : Location} {name : String}
    (hname : name ∈ o.namesIn location) : ∃ raw, Naming.normalize raw = name := by
  obtain ⟨p, hp, rfl⟩ := List.mem_map.mp hname
  have hmem : p.name ∈ o.parameters.map (·.name) := List.mem_map_of_mem (List.mem_filter.mp hp).1
  rw [h.map_name] at hmem
  obtain ⟨raw, -, hraw⟩ := List.mem_map.mp hmem
  exact ⟨raw, hraw⟩

end Stems

end TypedClient.Route
