import Mathlib
import TypedClient.Proofs.EarlierNames
import TypedClient.Proofs.Exports

namespace TypedClient

open ClientType

/-!
# Captured names

The methods' file declares names of its own and relies on names of the language.  A name that it imports can
capture one of them.  This file says where imported and exported names come from: from the declarations, whose
names are taken as they are, and from the names around an inline enum, which are put together to a name for it.
Only the second way has a list of names that are not given, and no name of the methods' file is on it.

* `EnumNaming.Suits` — what the choice of a name for an inline enum makes sure of.
* `Description.Invents` — a name that was made for an inline enum.
* `Output.ownNames` — the names that the methods' file declares or relies on.
* `Output.Client.Captures` — an imported or exported name takes the place of one of them.
* `generate_captures` — whatever is captured is the name of a declaration or spelled around an inline enum.
-/

namespace EnumNaming

variable {e : EnumNaming}

/-! ### The names that can be given -/

/-- The names that the last names on a way spell, the shortest first. -/
def spellings (path : List String) : List String :=
  (List.range path.length).map fun i =>
    String.join ((path.drop (path.length - (i + 1))).map Naming.pascalCase)

/-- A name for an enum at the end of a way: it is spelled there, and unless it is declared it is long enough and
    not reserved. -/
structure Suits (e : EnumNaming) (path : List String) (name : String) : Prop where
  spelled : name ∈ spellings path
  long : e.declared? name = none → minLength ≤ name.length
  unreserved : e.declared? name = none → name ∉ reserved

/-- The search finds one of the names that it goes through. -/
theorem mem_of_pickFrom {values names : List String} {claims after : Claims} {name : String}
    (h : e.pickFrom values names claims = (some name, after)) :
    name ∈ names ∧ (e.declared? name = none → minLength ≤ name.length ∧ name ∉ reserved) := by
  fun_induction pickFrom e values names claims with
  | case1 => cases h
  | case2 claims first rest _ _ known old hd hs =>
    cases h
    exact ⟨List.mem_cons_self, fun hnone => by rw [hnone] at hd; cases hd⟩
  -- In all other cases the name is passed over and the search goes on.
  | case3 _ _ _ _ _ _ _ _ _ ih | case4 _ _ _ _ _ _ ih | case5 _ _ _ _ _ ih
  | case6 _ _ _ _ _ _ ih => exact (ih h).imp_left (List.mem_cons_of_mem _)
  | case7 claims first rest hd hskip hclaimed =>
    cases h
    refine ⟨List.mem_cons_self, fun _ => ?_⟩
    simp only [Bool.or_eq_true, decide_eq_true_eq, List.contains_iff_mem, not_or, Nat.not_lt] at hskip
    exact ⟨hskip.1.2, hskip.2⟩

/-- One step for each candidate: the names of a pass suit their candidates. -/
theorem suits_of_pickAll {candidates : List EnumCandidate} {claims after : Claims} {names : List String}
    (h : e.pickAll candidates claims = (.ok names, after)) :
    List.Forall₂ (fun c name => e.Suits c.path name) candidates names := by
  induction candidates generalizing claims names after with
  | nil =>
    cases h
    exact .nil
  | cons c rest ih =>
    rw [pickAll, pick] at h
    rcases hpick : e.pickFrom c.values c.names claims with ⟨_ | name, next⟩
    · simp only [hpick] at h
      cases h
    · simp only [hpick] at h
      rcases hrest : e.pickAll rest next with ⟨failure | others, last⟩
      · simp only [hrest] at h
        cases h
      · simp only [hrest] at h
        cases h
        obtain ⟨hmem, hfree⟩ := mem_of_pickFrom hpick
        exact .cons ⟨hmem, fun hnone => (hfree hnone).1, fun hnone => (hfree hnone).2⟩ (ih hrest)

theorem suits_of_choose {names : List String} (h : e.choose.1 = .ok names) :
    List.Forall₂ (fun c name => e.Suits c.path name) e.candidates names := by
  rw [choose] at h
  obtain ⟨known, hpass⟩ := settle_eq_ok (Prod.ext h rfl)
  rw [pass] at hpass
  exact suits_of_pickAll (Prod.ext hpass rfl)

theorem isLower_toUpper (c : Char) : c.toUpper.isLower = false := by
  by_cases hlower : c.isLower
  · have hupper : c.toUpper.isUpper := Naming.isUpper_toUpper hlower
    simp only [Char.isUpper, Char.isLower, decide_eq_true_eq, UInt32.le_iff_toNat_le, Bool.and_eq_false_iff,
      decide_eq_false_iff_not] at hupper ⊢
    simp at hupper ⊢
    omega
  · rw [Naming.toUpper_eq_self hlower]
    exact Bool.not_eq_true _ ▸ hlower

/-- No word begins with a small letter. -/
theorem isLower_head_pascalChars {cs : List Char} {c : Char} {rest : List Char}
    (h : Naming.pascalChars true cs = c :: rest) : c.isLower = false := by
  induction cs with
  | nil => cases h
  | cons d cs ih =>
    rw [Naming.pascalChars] at h
    split at h
    · obtain ⟨rfl, -⟩ := List.cons.inj h
      exact isLower_toUpper d
    · exact ih h

/-- No words that are put together begin with a small letter. -/
theorem isLower_head_join {words : List String} {c : Char} {rest : List Char}
    (h : (String.join (words.map Naming.pascalCase)).toList = c :: rest) : c.isLower = false := by
  induction words with
  | nil => cases h
  | cons word words ih =>
    rw [List.map_cons, String.join_cons, String.toList_append, Naming.pascalCase, String.toList_ofList] at h
    -- A word without letters is nothing, and the next one begins the name.
    cases hword : Naming.pascalChars true word.toList with
    | nil =>
      rw [hword, List.nil_append] at h
      exact ih h
    | cons d tail =>
      rw [hword, List.cons_append] at h
      obtain ⟨rfl, -⟩ := List.cons.inj h
      exact isLower_head_pascalChars hword

/-- Nothing that is spelled begins with a small letter. -/
theorem isLower_head_of_mem_spellings {path : List String} {name : String} (h : name ∈ spellings path)
    {c : Char} {rest : List Char} (hname : name.toList = c :: rest) : c.isLower = false := by
  obtain ⟨i, -, rfl⟩ := List.mem_map.mp h
  exact isLower_head_join hname

/-! ### The enums that the names are for -/

/-- Adding an enum begins a candidate that looks like it, or leaves the looks of all candidates as they are. -/
theorem shape_mem_of_mem_addCandidate {candidates : List EnumCandidate} {node : EnumNode} {c : EnumCandidate}
    (h : c ∈ addCandidate candidates node) :
    c.shape = node.shape ∨ c.shape ∈ candidates.map EnumCandidate.shape := by
  induction candidates with
  | nil =>
    rw [addCandidate, List.mem_singleton] at h
    subst h
    exact .inl rfl
  | cons first rest ih =>
    rw [addCandidate] at h
    split at h
    · rcases List.mem_cons.mp h with rfl | hrest
      · exact .inr List.mem_cons_self
      · exact .inr (List.mem_cons_of_mem _ (List.mem_map_of_mem hrest))
    · rcases List.mem_cons.mp h with rfl | hrest
      · exact .inr List.mem_cons_self
      · exact (ih hrest).imp_right (List.mem_cons_of_mem _)

/-- The candidates after a walk over enums look like these enums or like candidates of before. -/
theorem shape_mem_of_mem_foldl_addCandidate {nodes : List EnumNode} {candidates : List EnumCandidate}
    {c : EnumCandidate} (h : c ∈ nodes.foldl addCandidate candidates) :
    c.shape ∈ nodes.map EnumNode.shape ∨ c.shape ∈ candidates.map EnumCandidate.shape := by
  induction nodes generalizing candidates with
  | nil => exact .inr (List.mem_map_of_mem h)
  | cons node rest ih =>
    rcases ih h with hrest | hadded
    · exact .inl (List.mem_cons_of_mem _ hrest)
    · obtain ⟨added, hmem, hshape⟩ := List.mem_map.mp hadded
      rw [← hshape]
      rcases shape_mem_of_mem_addCandidate hmem with hnode | hbefore
      · exact .inl (hnode ▸ List.mem_cons_self)
      · exact .inr hbefore

/-- A candidate looks like the first enum with its values. -/
theorem shape_mem_nodes {c : EnumCandidate} (h : c ∈ e.candidates) : c.shape ∈ e.nodes.map EnumNode.shape := by
  rcases shape_mem_of_mem_foldl_addCandidate h with hnode | hnone
  · exact hnode
  · cases hnone

/-- Every enum that is walked is an inline one. -/
theorem inlineEnum_of_mem_nodes {node : EnumNode} (h : node ∈ e.nodes) :
    InlineEnum e.registry e.operations node.values node.assignedName := by
  rcases List.mem_append.mp h with h | h
  · obtain ⟨d, hd, hnode⟩ := List.mem_flatMap.mp h
    rw [nodesOfDeclaration] at hnode
    split at hnode
    · cases hnode
    · next hne =>
      have henum : ¬ d.type.IsEnum := by
        rintro ⟨values, assigned, htype⟩
        exact hne values assigned htype
      exact .inl ⟨d, hd, henum, (exists_enumNode_iff [d.name]).mp ⟨node, hnode, rfl, rfl⟩⟩
  · obtain ⟨⟨name, o⟩, hzip, hnode⟩ := List.mem_flatMap.mp h
    have ho : o ∈ e.operations := (List.of_mem_zip hzip).2
    have hinside : ∃ type ∈ o.types, Inside (.enum node.values node.assignedName) type := by
      simp only [nodesOfOperation, List.mem_append, List.mem_flatMap] at hnode
      simp only [Operation.types, List.mem_append, List.mem_map, List.mem_singleton]
      rcases hnode with (⟨p, hp, hnode⟩ | ⟨type, htype, hnode⟩) | hnode
      · exact ⟨p.type, .inl (.inl ⟨p, hp, rfl⟩), (exists_enumNode_iff _).mp ⟨node, hnode, rfl, rfl⟩⟩
      · exact ⟨type, .inl (.inr htype), (exists_enumNode_iff _).mp ⟨node, hnode, rfl, rfl⟩⟩
      · exact ⟨o.result, .inr rfl, (exists_enumNode_iff _).mp ⟨node, hnode, rfl, rfl⟩⟩
    exact .inr ⟨o, ho, hinside⟩

theorem apply_alike (e : EnumNaming) (pairs : List (List String × String)) : e.Alike (e.apply pairs) where
  operations_eq := by
    show e.operations.map Operation.unnamed = (e.operations.map (applyToOperation pairs)).map Operation.unnamed
    rw [List.map_map]
    exact List.map_congr_left fun o _ => (unnamed_applyToOperation pairs o).symm
  values_eq := by
    rw [values_apply, List.map_map]
    exact List.map_congr_left fun d _ => (unnamed_applyToDeclaration pairs d).symm

end EnumNaming

/-! ### Names that are made up -/

/-- The enums of a description that have no declaration of their own, with the names around them. -/
def Description.inlineEnums (d : Description) : List EnumNode :=
  (EnumNaming.mk d.registry d.operations).nodes

/-- A name that was made for an inline enum.  The enum has the name, and the names around it spell it; it is not
    the name of a declaration, not too short and not reserved. -/
structure Description.Invents (d : Description) (name : String) : Prop where
  spelled : ∃ node ∈ d.inlineEnums, node.assignedName = some name ∧ name ∈ EnumNaming.spellings node.path
  undeclared : ∀ x ∈ d.registry.values, x.name ≠ name
  long : EnumNaming.minLength ≤ name.length
  unreserved : name ∉ EnumNaming.reserved

theorem EnumNaming.invents_of_resolve {registry : Registry} {operations : List Operation}
    (distinct : (registry.values.map (·.name)).Nodup) {enums : Table String (List String)} {named : EnumNaming}
    (h : (start registry operations).resolve = (.ok enums, named)) {name : String} (hname : name ∈ enums.keys) :
    Description.Invents ⟨named.registry, named.operations, enums⟩ name := by
  obtain ⟨names, hchoose, rfl, rfl⟩ := resolve_eq_ok_iff.mp h
  have hchosen := choose_eq_ok hchoose
  rw [hchosen.synthesized_eq] at hname
  obtain ⟨values, hfresh⟩ := Table.mem_keys_iff.mp hname
  obtain ⟨hnone, c, hzip, rfl⟩ := Chosen.mem_fresh_iff.mp hfresh
  have hsuits : (start registry operations).Suits c.path name :=
    List.forall₂_zip (suits_of_choose hchoose) hzip
  have halike := apply_alike (start registry operations)
    (((start registry operations).candidates.map (·.values)).zip names)
  -- The enum is still there after the naming, and has the name of its candidate.
  have hmem : c.shape ∈ (start registry operations).nodes.map EnumNode.shape :=
    shape_mem_nodes (List.of_mem_zip hzip).1
  rw [halike.shapes_nodes] at hmem
  obtain ⟨after, hafter, hsame⟩ := List.mem_map.mp hmem
  obtain ⟨hvalues, hpath⟩ := Prod.mk.inj hsame
  obtain ⟨other, chosen, hother, hsets, hassigned⟩ :=
    inlineEnum_named hchosen (inlineEnum_of_mem_nodes hafter)
  rw [hvalues] at hsets
  have hchosenName : chosen = name :=
    (hchosen.name_eq_iff (candidates_apart _) hother hzip).mpr hsets
  refine ⟨⟨after, hafter, by rw [hassigned, hchosenName], by rw [hpath]; exact hsuits.spelled⟩, ?_,
    hsuits.long hnone, hsuits.unreserved hnone⟩
  -- Naming leaves the names of declarations as they are, and the name was free.
  intro x hx heq
  have hstart : ((start registry operations).registry.values.map (·.name)).Nodup := by
    rw [values_start, List.map_map]
    simpa [Function.comp_def] using distinct
  rw [values_apply] at hx
  obtain ⟨y, hy, rfl⟩ := List.mem_map.mp hx
  rw [name_applyToDeclaration] at heq
  rw [(declared?_eq_some_iff hstart).mpr ⟨hy, heq⟩] at hnone
  cases hnone

/-- The new enums of a description have names that were made for them. -/
theorem Bundle.invents_of_describe {b : Bundle} {namedEnums : Bool} {d : Description} {r : Resolver}
    (h : b.describe namedEnums = (.ok d, r)) {name : String} (hname : name ∈ d.enums.keys) : d.Invents name := by
  obtain ⟨operations, r₀, r₁, -, -, hunique, hnamed⟩ := describe_eq_ok.mp h
  have distinct := Resolver.checkUniqueNames_eq_ok_iff.mp hunique
  cases namedEnums with
  | false =>
    obtain ⟨rfl, -⟩ := hnamed
    cases hname
  | true =>
    obtain ⟨enums, henums, rfl, rfl⟩ := hnamed
    exact EnumNaming.invents_of_resolve distinct (Prod.ext henums rfl) hname

namespace Output

/-! ### The names of the methods' file -/

/-- The name that a line of code declares. -/
def declaredName? (line : List Char) : Option String :=
  ["export type ", "export class ", "class ", "function "].findSome? fun begins =>
    if begins.toList.isPrefixOf line then
      some (String.ofList ((line.drop begins.length).takeWhile Char.isAlphanum))
    else none

/-- The names that the methods' file has for itself: those that the frame declares, the classes of the groups and
    the service, and the names of the language that the code relies on. -/
def ownNames : List String :=
  frameLines.filterMap (fun line => declaredName? line.toList) ++ groups.map (·.className)
    ++ ["ApiService", "Promise", "Record", "Omit"]

theorem ownNames_eq : ownNames =
    ["Method", "QueryParams", "MiddlewareParams", "Middleware", "interpolateParams", "ApiGroup", "ApiGroupGet",
      "ApiGroupPost", "ApiGroupPut", "ApiGroupPatch", "ApiGroupDelete", "ApiService", "Promise", "Record",
      "Omit"] := by
  decide +kernel

/-- A client captures a name if it imports it although the methods' file declares it or relies on it, or if it
    exports it although the types' file relies on it. -/
def Client.Captures (c : Client) (name : String) : Prop :=
  name ∈ c.imports ∧ name ∈ ownNames ∨ name ∈ c.exports.map Export.name ∧ name ∈ ["Record", "Omit"]

/-- What is imported is exported. -/
theorem Client.Closed.mem_exports_of_mem_imports {c : Client} (hclosed : c.Closed) {name : String}
    (h : name ∈ c.imports) : name ∈ c.exports.map Export.name := by
  obtain ⟨m, hm, r, hr, rfl⟩ := (c.hasImports.mem_iff name).mp h
  have hresolved := hclosed.methods_resolved m hm r hr
  cases r with
  | type name => exact hresolved
  | member enum name value =>
    obtain ⟨values, hmem, -⟩ := hresolved
    exact List.mem_map.mpr ⟨_, hmem, rfl⟩

end Output

open Output in
/-- **What can be captured.**  If a client that is generated from documents captures a name, the name is that of a
    declaration, or enums have names and it was made for an inline enum.  So nothing is captured as long as no
    declaration has such a name, and no names around an inline enum spell one.  The function of the methods' file
    is never captured by an enum: no name of an enum begins with a small letter. -/
theorem generate_captures {source : Source} {base entry : String} {document : Value} {d : Description}
    {namedEnums : Bool} (hparse : Description.parse source base entry namedEnums document = .ok d)
    {project : Project} (hgenerate : generate ⟨namedEnums, none⟩ d = .ok project) :
    ∃ client, d.client ⟨namedEnums, none⟩ = .ok client ∧ project = client.project none
      ∧ ∀ name, client.Captures name →
        (∃ x ∈ d.registry.values, x.name = name)
          ∨ namedEnums = true ∧ d.Invents name ∧ name ≠ "interpolateParams" := by
  obtain ⟨client, hclient, hproject, hclosed, -⟩ := @generate_closed _ _ _ _ d ⟨namedEnums, none⟩ hparse _ hgenerate
  obtain ⟨_, r, hdescribe⟩ := Description.parse_eq_ok hparse
  refine ⟨client, hclient, hproject, fun name hcaptures => ?_⟩
  have hexported : name ∈ client.exports.map Export.name := by
    rcases hcaptures with ⟨himported, -⟩ | ⟨hexported, -⟩
    · exact hclosed.mem_exports_of_mem_imports himported
    · exact hexported
  rcases List.mem_append.mp ((names_exports_perm hclient).mem_iff.mp hexported) with hdeclared | hnew
  · exact .inl (List.mem_map.mp hdeclared)
  · cases namedEnums with
    | false => cases hnew
    | true =>
      have hinvents : d.Invents name := Bundle.invents_of_describe hdescribe hnew
      refine .inr ⟨rfl, hinvents, ?_⟩
      rintro rfl
      obtain ⟨node, -, -, hspelled⟩ := hinvents.spelled
      have hsmall := EnumNaming.isLower_head_of_mem_spellings hspelled rfl
      revert hsmall
      decide

/-! ### A call that gives back its method -/

open Output

/-- A call that gives back the method it was made with. -/
def callSchema : List (Value × Value) :=
  [(.text "properties", .map [(.text "method", .map [(.text "enum", .list [.text "GET", .text "POST"])])])]

def callPaths : Value :=
  .map [(.text "/call", .map [(.text "get", .map [(.text "responses", .map [(.text "200",
    .map [(.text "content", .map [(.text "application/json", .map [(.text "schema", .map callSchema)])])])])])])]

def callsDocument : Value :=
  .map [(.text "paths", callPaths)]

def callOperations (assigned : Option String) : List Operation :=
  [⟨"GET", "/call", [], [], .object [⟨"method", .enum ["GET", "POST"] assigned, false⟩]⟩]

theorem converts_call : Schema.Converts ⟨"", ""⟩ (.map callSchema) []
    (.object [⟨"method", .enum ["GET", "POST"] none, false⟩]) := by
  let method : Schema.Property := ⟨⟨.map [(.text "enum", .list [.text "GET", .text "POST"])], [],
    .enum ["GET", "POST"] none⟩, "method", false⟩
  have howns : Schema.Owns callSchema (some [method]) := ⟨_, rfl, rfl, List.forall_mem_singleton.mpr rfl⟩
  have hmethod : ∀ p ∈ [method], Schema.Converts ⟨"", ""⟩ p.schema p.log p.type :=
    List.forall_mem_singleton.mpr (.enum ⟨rfl, rfl⟩ rfl rfl)
  have hobject := Schema.Converts.object ⟨rfl, rfl⟩ howns hmethod rfl rfl
  have hfields : Schema.Property.field method = ⟨"method", .enum ["GET", "POST"] none, false⟩ := by cbv
  rwa [List.map_singleton, hfields] at hobject

theorem extract_calls : Route.extract "" callPaths = ⟨[], .ok (callOperations none)⟩ := by
  let call : Schema.Conversion := ⟨.map callSchema, [], .object [⟨"method", .enum ["GET", "POST"] none, false⟩]⟩
  refine Route.extract_eq_ok_iff.mpr ⟨[⟨"GET", "/call", [], none, some call.schema⟩], by cbv,
    [⟨"GET", "/call", [], none, some call⟩], rfl, ?_, rfl, rfl⟩
  refine List.forall_mem_singleton.mpr ?_
  exact List.forall_mem_singleton.mpr converts_call

/-- The enum is called like the type of the methods. -/
def calls : Description :=
  ⟨[], callOperations (some "Method"), [("Method", ["GET", "POST"])]⟩

theorem parse_calls : Description.parse (Source.ofTable []) "" "" true callsDocument = .ok calls := by
  have hregister : (Resolver.fresh "" "").register "" callsDocument = (.ok (), Resolver.fresh "" "") := rfl
  have hreads : Bundle.Reads ⟨Source.ofTable [], "", "", callsDocument⟩ (callOperations none)
      (Resolver.fresh "" "") := Bundle.reads_of_extract hregister rfl extract_calls rfl
  have hnames : (Resolver.fresh "" "").nameEnums (callOperations none)
      = (.ok calls.enums, Resolver.fresh "" "", callOperations (some "Method")) := by cbv
  have hdescribe : Bundle.describe ⟨Source.ofTable [], "", "", callsDocument⟩ true
      = (.ok calls, Resolver.fresh "" "") := by
    refine Bundle.describe_eq_ok.mpr ⟨callOperations none, Resolver.fresh "" "", Resolver.fresh "" "", hreads,
      Bundle.resolve_eq_ok.mpr ⟨Resolver.loadAll_nil rfl, rfl⟩, rfl, calls.enums, ?_⟩
    rw [hnames]
    exact ⟨rfl, rfl, rfl⟩
  show (Bundle.describe ⟨Source.ofTable [], "", "", callsDocument⟩ true).1 = _
  rw [hdescribe]

def callsClient : Client where
  exports := [.enum "Method" ["GET", "POST"]]
  groups := [(⟨"GET", "get", "ApiGroupGet"⟩,
      [⟨⟨"/call", [], [], false⟩, ["'/call'", "undefined"], .all [],
        .object [⟨"method", .named none "Method", false⟩]⟩]),
    (⟨"POST", "post", "ApiGroupPost"⟩, []), (⟨"PUT", "put", "ApiGroupPut"⟩, []),
    (⟨"PATCH", "patch", "ApiGroupPatch"⟩, []), (⟨"DELETE", "delete", "ApiGroupDelete"⟩, [])]

theorem client_calls : calls.client ⟨true, none⟩ = .ok callsClient := by
  unfold Description.client
  cbv

theorem generate_calls : ∃ project, generate ⟨true, none⟩ calls = .ok project := by
  obtain ⟨types, htypes⟩ : ∃ file, typesFile ⟨true, none⟩ calls = .ok file := exists_typesFile_nil _ _ _
  obtain ⟨methods, hmethods⟩ : ∃ file, methodsFile ⟨true, none⟩ calls = .ok file := ⟨_, rfl⟩
  exact ⟨_, generate_of_files htypes hmethods⟩

theorem imports_calls : callsClient.imports = ["Method"] := by
  cbv

/-- The client that is generated for the call captures the type of the methods, with the name that was made for
    the enum. -/
theorem calls_capture : ∃ project, generate ⟨true, none⟩ calls = .ok project ∧ project = callsClient.project none
    ∧ callsClient.Captures "Method" ∧ calls.Invents "Method" := by
  obtain ⟨project, hgenerate⟩ := generate_calls
  obtain ⟨client, hclient, hproject, hcaptures⟩ := generate_captures parse_calls hgenerate
  cases client_calls.symm.trans hclient
  have hmethod : callsClient.Captures "Method" := by
    refine .inl ⟨?_, ?_⟩
    · rw [imports_calls]
      exact List.mem_singleton_self _
    · rw [ownNames_eq]
      exact List.mem_cons_self
  refine ⟨project, hgenerate, hproject, hmethod, ?_⟩
  rcases hcaptures "Method" hmethod with ⟨x, hx, -⟩ | ⟨-, hinvents, -⟩
  · cases hx
  · exact hinvents

/-- The methods' file for the call begins with the import of the enum and declares the type of the methods after
    it, both by one name. -/
theorem calls_import_method : ∃ d project client,
    Description.parse (Source.ofTable []) "" "" true callsDocument = .ok d
      ∧ generate ⟨true, none⟩ d = .ok project ∧ d.client ⟨true, none⟩ = .ok client
      ∧ project = client.project none ∧ "Method" ∈ client.imports ∧ "Method" ∈ ownNames
      ∧ client.header none = firstLine ++ "\n\n" ++ (namedImport ["Method"] ++ "\n\n") ++ frameText := by
  obtain ⟨project, hgenerate⟩ := generate_calls
  obtain ⟨client, hclient, hproject⟩ := exists_client hgenerate
  cases client_calls.symm.trans hclient
  have hheader := callsClient.hasImports.header_text (by rw [imports_calls]; decide)
  rw [imports_calls, if_neg (List.cons_ne_nil _ _)] at hheader
  refine ⟨calls, project, callsClient, parse_calls, hgenerate, client_calls, hproject, ?_, ?_, hheader⟩
  · rw [imports_calls]
    exact List.mem_singleton_self _
  · rw [ownNames_eq]
    exact List.mem_cons_self

end TypedClient
