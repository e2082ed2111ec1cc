import TypedClient.Proofs.DescribedMethods
import TypedClient.Proofs.Literals
import TypedClient.Proofs.RouteLiterals

namespace TypedClient.Output

open Route (Site sites KeysDiffer MethodsOnce)

/-!
# One method for each operation

Every operation of a document is printed as one method, in the class of the group that its HTTP method has.  The name
of the method is the route, with the tabs expanded.  Two methods of one class have one name if a path has a method
under two keys that differ in the case of their letters, or if two routes differ in nothing but their tabs.

* `PrintsFile`, `PrintsMethod` — the file with its classes, and a method in its class.
* `printsFile_of_methodsFile` — the file has the methods of all operations.
* `map_address_parse` — the operations of a description are those that the paths of its document describe.
* `nodup_printedNames_iff` — when the names in each class differ.
* `one_method_each` — what all of this says about a document.
-/

/-! ### The file with its classes -/

/-- The name that the method of an operation is printed with. -/
def printedName (o : Operation) : String :=
  expandTabs o.route

/-- A text in a class is the method of an operation as it is written, with the tabs expanded.  It begins with the
    name. -/
structure PrintsMethod (w : TypeWriter) (o : Operation) (text : String) : Prop where
  written : ∃ log raw, w.writeMethod o = ⟨log, .ok raw⟩ ∧ text = expandTabs raw
  named : ∃ rest, text = "\n  public async " ++ (quotedAsIs (printedName o) ++ ("(" ++ rest))

/-- The class of a group has a method for each operation that belongs there, in order. -/
def PrintsClass (w : TypeWriter) (operations : List Operation) (g : Group) (text : String) : Prop :=
  ∃ methods, text = groupText g methods
    ∧ List.Forall₂ (PrintsMethod w) (operations.filter fun o => o.method == g.method) methods

/-- A file consists of a header, a class for each group, and the service. -/
def PrintsFile (w : TypeWriter) (operations : List Operation) (text : String) : Prop :=
  ∃ header classes, text = String.intercalate "\n\n" (header :: classes ++ [serviceText]) ++ "\n"
    ∧ List.Forall₂ (PrintsClass w operations) groups classes

variable {w : TypeWriter} {o : Operation} {operations : List Operation} {log : List String} {text : String}

theorem expandTabs_serviceText : expandTabs serviceText = serviceText :=
  expandTabs_intercalate_eq (by decide) (by decide +kernel)

/-- Nothing in a class has tabs but its methods. -/
theorem expandTabs_groupText {g : Group} (hg : g ∈ groups) (methods : List String) :
    expandTabs (groupText g methods) = groupText g (methods.map expandTabs) := by
  have hfixed : ∀ g ∈ groups, expandTabs ("class " ++ g.className ++ " extends ApiGroup \x7b")
        = "class " ++ g.className ++ " extends ApiGroup \x7b"
      ∧ expandTabs ("    super('" ++ g.method ++ "', middleware);") = "    super('" ++ g.method ++ "', middleware);" := by
    decide +kernel
  obtain ⟨hclass, hsuper⟩ := hfixed g hg
  rw [groupText, expandTabs_intercalate]
  simp only [List.map_cons, List.map_nil, hclass, hsuper, expandTabs_join]
  rfl

theorem printsMethod_of_writeMethod (h : w.writeMethod o = ⟨log, .ok text⟩) : PrintsMethod w o (expandTabs text) := by
  obtain ⟨parameter, result, back, rfl⟩ := exists_routes h
  refine ⟨⟨log, _, h, rfl⟩, ?_⟩
  -- The parameter list opens right behind the name.
  have hsignature : signatureText parameter result
      = "(" ++ (parameter ++ "): Promise<" ++ result ++ "> \x7b\n    return this.callApi(") := by
    simp only [signatureText, String.append_assoc]
  have hopening : expandTabs "\n  public async " = "\n  public async " := by decide
  have hquote : expandTabs "'" = "'" := by decide
  have hparenthesis : expandTabs "(" = "(" := by decide
  simp only [hsignature, quotedAsIs, printedName, expandTabs_append, hopening, hquote, hparenthesis, String.append_assoc]
  exact ⟨_, rfl⟩

theorem printsClass_of_writeGroup {g : Group} (hg : g ∈ groups) (h : writeGroup w operations g = ⟨log, .ok text⟩) :
    PrintsClass w operations g (expandTabs text) := by
  obtain ⟨_, methods, _, hmethods, hpure, -⟩ := Logged.bind_eq_ok.mp h
  obtain ⟨-, rfl⟩ := Logged.pure_eq_ok.mp hpure
  obtain ⟨steps, hsteps, rfl, -⟩ := Logged.mapM_eq_ok.mp hmethods
  refine ⟨_, expandTabs_groupText hg _, ?_⟩
  rw [List.map_map, List.forall₂_map_right_iff]
  exact hsteps.imp fun o step ho => printsMethod_of_writeMethod ho

/-- **One method for each operation.**  The file of the methods has the classes of all groups, and each class has the
    methods of its operations in order. -/
theorem printsFile_of_methodsFile {options : Options} {d : Description} {file : CodeFile}
    (h : methodsFile options d = .ok file) :
    PrintsFile ⟨d.registry, options.namedEnums, options.space⟩ d.operations file.text := by
  unfold methodsFile at h
  split at h
  · cases h
  · obtain ⟨classes, hclasses, hfile⟩ := Except.bind_eq_ok.mp h
    obtain ⟨steps, hsteps, rfl, -⟩ := Logged.mapM_eq_ok.mp (Logged.eq_mk_of_result hclasses)
    obtain ⟨header, rfl⟩ : ∃ header, file
        = (CodeFile.empty "api.ts").addCode (header :: steps.map (·.2) ++ [serviceText]) :=
      ⟨_, (Except.ok.inj hfile).symm⟩
    have hend : expandTabs "\n" = "\n" := by decide
    have hbetween : expandTabs "\n\n" = "\n\n" := by decide
    refine ⟨expandTabs header, (steps.map (·.2)).map expandTabs, ?_, ?_⟩
    · -- The tabs are expanded twice, in each block and in the file.
      rw [text_addCode, expandTabs_append, expandTabs_intercalate, hend, hbetween, List.map_map]
      simp only [Function.comp_def, expandTabs_expandTabs, List.map_append, List.map_cons, List.map_nil,
        expandTabs_serviceText]
    · rw [List.map_map, List.forall₂_map_right_iff]
      refine ((List.forall₂_and_left _ _).mpr ⟨fun g hg => hg, hsteps⟩).imp ?_
      rintro g step ⟨hg, hwritten⟩
      exact printsClass_of_writeGroup hg hwritten

/-! ### Operations of a description -/

/-- Naming the enums of operations leaves their methods and routes as they are. -/
theorem map_address_nameEnums (r : Resolver) {enums : Table String (List String)}
    (h : (r.nameEnums operations).1 = .ok enums) :
    (r.nameEnums operations).2.2.map Operation.address = operations.map Operation.address := by
  have hresolve : (EnumNaming.start r.registry operations).resolve
      = (.ok enums, (EnumNaming.start r.registry operations).resolve.2) := Prod.ext h rfl
  obtain ⟨names, -, -, hnamed⟩ := EnumNaming.resolve_eq_ok hresolve
  show (EnumNaming.start r.registry operations).resolve.2.operations.map Operation.address = _
  rw [hnamed, EnumNaming.apply, List.map_map]
  rfl

/-- The operations of a description are those that the paths of its document describe. -/
theorem map_address_parse {source : Source} {base name : String} {namedEnums : Bool} {document paths : Value}
    {d : Description} (hpaths : document.get "paths" = .ok paths)
    (h : Description.parse source base name namedEnums document = .ok d) :
    d.operations.map Operation.address = (sites paths).map Site.address := by
  obtain ⟨entry, r, hdescribe⟩ := Description.parse_eq_ok h
  obtain ⟨operations, r₀, r₁, ⟨r₂, -, hrun⟩, -, -, hnamed⟩ := Bundle.describe_eq_ok.mp hdescribe
  obtain ⟨log, hextract, -⟩ := Bundle.run_eq_ok.mp hrun
  unfold Bundle.operations at hextract
  rw [hpaths, Logged.lift_ok_bind] at hextract
  rw [← Route.map_address_eq hextract]
  cases namedEnums with
  | false =>
    obtain ⟨rfl, -⟩ := hnamed
    rfl
  | true =>
    obtain ⟨enums, henums, rfl, -⟩ := hnamed
    exact map_address_nameEnums r₁ henums

/-! ### Names in each class -/

/-- The names of the methods in the class of a group. -/
def printedNames (operations : List Operation) (g : Group) : List String :=
  (operations.filter fun o => o.method == g.method).map printedName

/-- Operations of one method have routes that differ in more than their tabs, if they differ. -/
def SpelledApart (operations : List Operation) : Prop :=
  ∀ a ∈ operations, ∀ b ∈ operations, a.method = b.method → printedName a = printedName b → a.route = b.route

theorem printedNames_congr {others : List Operation}
    (h : operations.map Operation.address = others.map Operation.address) (g : Group) :
    printedNames operations g = printedNames others g := by
  have hnames : ∀ operations : List Operation, printedNames operations g
      = ((operations.map Operation.address).filter fun a => a.1 == g.method).map fun a => expandTabs a.2 := by
    intro operations
    rw [List.filter_map, List.map_map]
    rfl
  rw [hnames, hnames, h]

/-- The names in all classes differ exactly if no two operations have method and printed name in common. -/
theorem nodup_printedNames_iff_pairwise (hgroups : ∀ o ∈ operations, ∃ g ∈ groups, g.method = o.method) :
    (∀ g ∈ groups, (printedNames operations g).Nodup)
      ↔ operations.Pairwise fun a b => a.method = b.method → printedName a ≠ printedName b := by
  simp only [printedNames, List.Nodup, List.pairwise_map, List.pairwise_filter]
  constructor
  · intro h
    -- Two operations of one method stand in the class of the first one's group.
    rw [List.pairwise_iff_forall_sublist]
    intro a b hab hmethod
    obtain ⟨g, hg, hga⟩ := hgroups a (hab.subset List.mem_cons_self)
    exact List.pairwise_iff_forall_sublist.mp (h g hg) hab (by simp [hga]) (by simp [hga, hmethod])
  · intro h g _
    refine h.imp fun {a b} hnames ha hb => hnames ?_
    rw [beq_iff_eq] at ha hb
    rw [ha, hb]

/-- Every operation belongs to one group. -/
theorem existsUnique_group {entry : String} {paths : Value}
    (h : Route.extract entry paths = ⟨log, .ok operations⟩) (ho : o ∈ operations) :
    ∃! g, g ∈ groups ∧ g.method = o.method := by
  obtain ⟨os, hos, xs, rfl, -, -, rfl⟩ := Route.extract_eq_ok_iff.mp h
  obtain ⟨x, hx, rfl⟩ := List.mem_map.mp ho
  obtain ⟨⟨g, hg, hmethod⟩, -⟩ := Route.checked_outline hos (List.mem_map_of_mem hx)
  have hdiffer : ∀ g ∈ groups, ∀ other ∈ groups, g.method = other.method → g = other := by decide
  refine ⟨g, ⟨hg, hmethod⟩, ?_⟩
  rintro other ⟨hother, hsame⟩
  exact hdiffer other hother g hg (hsame.trans hmethod.symm)

/-- **Names in each class.**  They differ exactly if no two operations have method and route in common, and routes
    of one method that differ do so in more than their tabs. -/
theorem nodup_printedNames_iff (hgroups : ∀ o ∈ operations, ∃ g ∈ groups, g.method = o.method) :
    (∀ g ∈ groups, (printedNames operations g).Nodup)
      ↔ (operations.map Operation.address).Nodup ∧ SpelledApart operations := by
  rw [nodup_printedNames_iff_pairwise hgroups, List.Nodup, List.pairwise_map]
  constructor
  · intro h
    refine ⟨h.imp fun {a b} hnames heq => ?_, ?_⟩
    · obtain ⟨hmethod, hroute⟩ := Prod.mk.inj heq
      exact hnames hmethod (congrArg expandTabs hroute)
    · intro a ha b hb hmethod hname
      by_contra hroute
      have hne : a ≠ b := fun heq => hroute (by rw [heq])
      have hsymm : Std.Symm fun a b : Operation => a.method = b.method → printedName a ≠ printedName b :=
        ⟨fun a b hab hmethod hname => hab hmethod.symm hname.symm⟩
      exact h.forall ha hb hne hmethod hname
  · rintro ⟨haddress, hapart⟩
    refine haddress.imp_of_mem fun {a b} ha hb hne hmethod hname => hne ?_
    exact Prod.ext hmethod (hapart a ha b hb hmethod hname)

/-! ### One method for each -/

/-- **One method for each.**  Every method that a path describes gives one operation, in the order of the document.
    Every operation belongs to one group, and if the description of a document is generated, the file of the methods
    has one method for each of its operations, in the class of that group and in order.  No two operations have
    method and route in common exactly if no path has two keys that are one method in letters of different case.  The
    names of the methods in each class differ exactly if this is so, and routes of one method that differ do so in
    more than their tabs. -/
theorem one_method_each {entry : String} {paths : Value}
    (h : Route.extract entry paths = ⟨log, .ok operations⟩) :
    (∀ s, s ∈ sites paths ↔ s.In paths)
      ∧ List.Forall₂ (fun s o => s.Gives entry o ∧ o.address = s.address) (sites paths) operations
      ∧ (KeysDiffer paths.orEmpty → ((operations.map Operation.address).Nodup ↔ MethodsOnce paths))
      ∧ (∀ o ∈ operations, ∃! g, g ∈ groups ∧ g.method = o.method)
      ∧ ((∀ g ∈ groups, (printedNames operations g).Nodup)
        ↔ (operations.map Operation.address).Nodup ∧ SpelledApart operations)
      ∧ ∀ source base name namedEnums document d options project, document.get "paths" = .ok paths →
          Description.parse source base name namedEnums document = .ok d → generate options d = .ok project →
          d.operations.map Operation.address = operations.map Operation.address
            ∧ (∀ g ∈ groups, printedNames d.operations g = printedNames operations g)
            ∧ ∃ file, project.getFile? "api.ts" = some file
              ∧ PrintsFile ⟨d.registry, options.namedEnums, options.space⟩ d.operations file.text := by
  have haddress := Route.map_address_eq h
  refine ⟨fun s => Route.mem_sites_iff, ?_, ?_, fun o ho => existsUnique_group h ho, ?_, ?_⟩
  · exact (Route.forall₂_gives h).imp fun s o hgives => ⟨hgives, hgives.address_eq⟩
  · intro hkeys
    rw [haddress]
    exact Route.nodup_address_sites_iff hkeys
  · exact nodup_printedNames_iff fun o ho => (existsUnique_group h ho).exists
  · intro source base name namedEnums document d options project hpaths hparse hgenerate
    -- Both are the operations that the paths describe, whatever the document is called.
    have hsame : d.operations.map Operation.address = operations.map Operation.address := by
      rw [map_address_parse hpaths hparse, haddress]
    obtain ⟨types, methods, htypes, hmethods, rfl⟩ := exists_files hgenerate
    refine ⟨hsame, fun g _ => printedNames_congr hsame g, methods, ?_, printsFile_of_methodsFile hmethods⟩
    simp [Project.getFile?, name_typesFile htypes, name_methodsFile hmethods]

/-! ### Methods without parameters -/

/-- A method that takes nothing and gives nothing. -/
def plainMethod : Value :=
  .map [(.text "responses", .map [(.text "200", .null)])]

def plainExtraction (method route : String) : Route.Extraction where
  method := method
  route := route
  parameters := []
  body := none
  result := none

theorem extract_plain {paths : Value} (xs : List (String × String))
    (h : Route.outlines paths = .ok (xs.map fun x => (plainExtraction x.1 x.2).outline)) :
    Route.extract "" paths = ⟨[], .ok (xs.map fun x => (plainExtraction x.1 x.2).operation)⟩ := by
  refine Route.extract_eq_ok_iff.mpr ⟨_, h, xs.map fun x => plainExtraction x.1 x.2, ?_, ?_, ?_, ?_⟩
  · rw [List.map_map]
    rfl
  · intro x hx c hc
    obtain ⟨_, -, rfl⟩ := List.mem_map.mp hx
    cases hc
  · rw [List.flatMap_map, List.flatMap_eq_nil_iff]
    exact fun _ _ => rfl
  · rw [List.map_map]
    rfl

/-- A document of paths without any schemas is described by its operations. -/
theorem parse_plain {paths : Value} (h : Route.extract "" paths = ⟨[], .ok operations⟩) :
    Description.parse (Source.ofTable []) "" "" false (.map [(.text "paths", paths)]) = .ok ⟨[], operations, []⟩ := by
  have hreads : Bundle.Reads ⟨Source.ofTable [], "", "", .map [(.text "paths", paths)]⟩ operations
      (Resolver.fresh "" "") := Bundle.reads_of_extract rfl rfl h rfl
  exact Description.parse_of_reads hreads rfl rfl rfl

/-- Two paths, with methods in any case. -/
def teamPaths : Value :=
  .map [(.text "/users", .map [(.text "get", plainMethod), (.text "POST", plainMethod)]),
    (.text "/teams", .map [(.text "Get", plainMethod)])]

def teamOperations : List Operation :=
  [("GET", "/users"), ("POST", "/users"), ("GET", "/teams")].map fun x => (plainExtraction x.1 x.2).operation

theorem extract_teams : Route.extract "" teamPaths = ⟨[], .ok teamOperations⟩ :=
  extract_plain [("GET", "/users"), ("POST", "/users"), ("GET", "/teams")] (by cbv)

theorem methodsOnce_teams : MethodsOnce teamPaths := by
  have hlowered : Text.lowered "get" ≠ Text.lowered "POST" := by decide +kernel
  intro route path hpath
  rcases List.mem_cons.mp hpath with heq | hpath
  · cases heq
    refine List.pairwise_pair.mpr ?_
    rintro ⟨s, t, hs, ht, heq, -⟩
    cases hs
    cases ht
    exact hlowered heq
  · cases List.mem_singleton.mp hpath
    exact List.pairwise_singleton _ _

theorem generate_teams : ∃ project, generate ⟨false, none⟩ ⟨[], teamOperations, []⟩ = .ok project := by
  obtain ⟨types, htypes⟩ := exists_typesFile_nil ⟨false, none⟩ teamOperations []
  obtain ⟨methods, hmethods⟩ : ∃ file, methodsFile ⟨false, none⟩ ⟨[], teamOperations, []⟩ = .ok file := ⟨_, rfl⟩
  exact ⟨_, generate_of_files htypes hmethods⟩

/-- The three methods of two paths have three names in two classes. -/
theorem teams_one_each : Route.extract "" teamPaths = ⟨[], .ok teamOperations⟩
    ∧ (teamOperations.map Operation.address).Nodup
    ∧ (∀ g ∈ groups, (printedNames teamOperations g).Nodup)
    ∧ ∃ project file, generate ⟨false, none⟩ ⟨[], teamOperations, []⟩ = .ok project
      ∧ project.getFile? "api.ts" = some file ∧ PrintsFile ⟨[], false, none⟩ teamOperations file.text := by
  obtain ⟨-, -, honce, -, hnames, hprinted⟩ := one_method_each extract_teams
  have hkeys : KeysDiffer teamPaths.orEmpty := List.pairwise_pair.mpr (by decide +kernel)
  have haddress := (honce hkeys).mpr methodsOnce_teams
  have hapart : SpelledApart teamOperations := by
    unfold SpelledApart
    decide +kernel
  obtain ⟨project, hgenerate⟩ := generate_teams
  obtain ⟨-, -, file, hfile, htext⟩ := hprinted _ _ _ _ _ _ _ _ rfl (parse_plain extract_teams) hgenerate
  exact ⟨extract_teams, haddress, hnames.mpr ⟨haddress, hapart⟩, project, file, hgenerate, hfile, htext⟩

/-! ### A method under two keys -/

/-- A path with one method under two keys. -/
def twicePaths : Value :=
  .map [(.text "/users", .map [(.text "get", plainMethod), (.text "GET", plainMethod)])]

def twiceOperations : List Operation :=
  [("GET", "/users"), ("GET", "/users")].map fun x => (plainExtraction x.1 x.2).operation

def usersText : String :=
  "\n  public async '/users'(): Promise<void> \x7b\n    return this.callApi('/users', undefined);\n  \x7d"

/-- There are two operations with one method and one route, and one class has two methods of one name. -/
theorem users_printed_twice : Route.extract "" twicePaths = ⟨[], .ok twiceOperations⟩
    ∧ ¬ (twiceOperations.map Operation.address).Nodup
    ∧ ∃ d file, Description.parse (Source.ofTable []) "" "" false (.map [(.text "paths", twicePaths)]) = .ok d
      ∧ methodsFile ⟨false, none⟩ d = .ok file
      ∧ ⟨0, groupText ⟨"GET", "get", "ApiGroupGet"⟩ [usersText, usersText]⟩ ∈ file.blocks := by
  have hextract : Route.extract "" twicePaths = ⟨[], .ok twiceOperations⟩ := 
    extract_plain [("GET", "/users"), ("GET", "/users")] (by cbv)
  refine ⟨hextract, by decide, _, _, parse_plain hextract, rfl, ?_⟩
  exact List.mem_cons_of_mem _ List.mem_cons_self

end TypedClient.Output
