import TypedClient.Proofs.Expressions
import TypedClient.Proofs.Generation

namespace TypedClient

/-!
# Clients before they are printed

The files of a client are texts.  Before they are printed they are a list of exports and a list of methods, with
types in their written form.

* `Export`, `Method`, `Client` — the client before it is printed.
* `Description.client` — the client of a description.
* `exists_client` — what is generated is the text of the client.
* `Client.Imports`, `Client.hasImports` — the names that are imported are those that the methods use.
-/

namespace Output

/-! ### Clients -/

/-- An exported name: a type or an enum. -/
inductive Export where
  | type (name : String) (e : TypeExpr)
  | enum (name : String) (values : List String)
  deriving Repr, Inhabited

/-- The line of an enum that gives a value its member. -/
def enumLine (name value : String) : String :=
  indent 1 ++ name ++ " = " ++ literal value ++ ","

def enumLines (values : List String) : List String :=
  values.map fun value => enumLine (((Naming.members values).get? value).getD "") value

namespace Export

def name : Export → String
  | .type name _ => name
  | .enum name _ => name

def code : Export → String
  | .type name e => "export type " ++ name ++ " = " ++ e.text 0 ++ ";"
  | .enum name values => "export enum " ++ name ++ " " ++ block 0 (enumLines values)

def references : Export → List Reference
  | .type _ e => e.references
  | .enum .. => []

end Export

/-- A method with the types of its argument and its result. -/
structure Method where
  call : Call
  /-- What the call passes on. -/
  passed : List String
  argument : TypeExpr
  result : TypeExpr
  deriving Repr, Inhabited

namespace Method

/-- The text of a method.  The type of the argument is written only if the method binds it. -/
def text (m : Method) : String :=
  let parameter := match m.call.pattern with
    | some pattern => pattern ++ ": " ++ m.argument.text 1
    | none => ""
  "\n  public async '" ++ m.call.route ++ "'(" ++ parameter ++ "): Promise<" ++ m.result.text 1 ++ "> \x7b\n"
    ++ "    return this.callApi(" ++ String.intercalate ", " m.passed ++ ");\n  \x7d"

def references (m : Method) : List Reference :=
  (if m.call.pattern.isSome then m.argument.references else []) ++ m.result.references

end Method

/-- The code of a group with its methods. -/
def groupCode (x : Group × List Method) : String :=
  groupText x.1 (x.2.map Method.text)

/-- A client before it is printed: what the types' file exports, and the methods of each group. -/
structure Client where
  exports : List Export
  groups : List (Group × List Method)
  deriving Repr, Inhabited

namespace Client

def methods (c : Client) : List Method :=
  c.groups.flatMap (·.2)

/-- The names that the methods refer to, in order and each once. -/
def imports (c : Client) : List String :=
  sortedNames ((c.methods.flatMap Method.references).map Reference.name)

/-- The beginning of the methods' file. -/
def header (c : Client) (space : Option String) : String :=
  headerText (match space with
    | some space => namespaceImport space
    | none => namedImport c.imports)

/-- The two files, with their blocks of code as they are added. -/
def project (c : Client) (space : Option String) : Project :=
  ⟨[(CodeFile.empty "types.ts").addCode (c.exports.map Export.code),
    (CodeFile.empty "api.ts").addCode
      (c.header space :: c.groups.map groupCode ++ [serviceText])]⟩

end Client

/-! ### The client of a description -/

namespace TypeWriter

def describeDeclaration (w : TypeWriter) (d : Declaration) : Except Failure Export :=
  match w.namedEnums, d.type with
  | true, .enum values _ => return .enum d.name values
  | _, type => return .type d.name (← w.describe type)

/-- The type of the argument: all parameters as one object, and the types of the body. -/
def describeArgument (w : TypeWriter) (o : Operation) : Except Failure TypeExpr := do
  let own ← w.describeFields none (o.parameters.map fun p => ⟨p.name, p.type, p.required⟩)
  let bodies ← w.describeParts o.bodyTypes
  return .all ((if own.isEmpty then [] else [.object own]) ++ bodies)

def describeMethod (w : TypeWriter) (o : Operation) : Except Failure Method := do
  let argument ← w.describeArgument o
  let passed ← (Call.of o).arguments
  return ⟨Call.of o, passed, argument, ← w.describe o.result⟩

def describeGroup (w : TypeWriter) (operations : List Operation) (g : Group) :
    Except Failure (Group × List Method) := do
  return (g, ← (operations.filter fun o => o.method == g.method).mapM w.describeMethod)

end TypeWriter

/-- The enums that are exported besides the declarations, by name. -/
def newExports (options : Options) (d : Description) : List Export :=
  if options.namedEnums then
    (d.enums.mergeSort fun a b => Text.isOrdered a.1 b.1).map fun (name, values) => .enum name values
  else []

end Output

open Output in
/-- The client of a description: the declarations and the new enums by name, and a method for each
    operation. -/
def Description.client (options : Options) (d : Description) : Except Failure Client := do
  let types : TypeWriter := ⟨d.registry, options.namedEnums, none⟩
  let methods : TypeWriter := ⟨d.registry, options.namedEnums, options.space⟩
  let declared ← (sortedDeclarations d.registry).mapM types.describeDeclaration
  return ⟨declared ++ newExports options d, ← groups.mapM (methods.describeGroup d.operations)⟩

namespace Output

namespace TypeWriter

variable {w : TypeWriter} {log : List String} {text : String}

theorem exists_describeDeclaration {d : Declaration} (h : w.writeDeclaration d = ⟨log, .ok text⟩) :
    ∃ x, w.describeDeclaration d = .ok x ∧ x.code = text
      ∧ ∀ name, name ∈ log ↔ name ∈ x.references.map Reference.name := by
  -- What is not written as an enum is written with its type.
  have htyped : (do return "export type " ++ d.name ++ " = " ++ (← w.write 0 d.type) ++ ";")
        = (⟨log, .ok text⟩ : Logged String) →
      ∃ x, (do return Export.type d.name (← w.describe d.type)) = (.ok x : Except Failure Export) ∧ x.code = text
        ∧ ∀ name, name ∈ log ↔ name ∈ x.references.map Reference.name := by
    intro hwritten
    obtain ⟨_, body, _, hbody, hpure, rfl⟩ := Logged.bind_eq_ok.mp hwritten
    obtain ⟨rfl, rfl⟩ := Logged.pure_eq_ok.mp hpure
    obtain ⟨e, he, hwrote⟩ := exists_describe w d.type 0 _ _ hbody
    refine ⟨.type d.name e, by rw [he]; rfl, by rw [Export.code, hwrote.text_eq], fun name => ?_⟩
    rw [List.append_nil]
    exact hwrote.mem_log_iff name
  unfold writeDeclaration at h
  unfold describeDeclaration
  cases hnamed : w.namedEnums with
  | false =>
    simp only [hnamed] at h ⊢
    exact htyped h
  | true =>
    cases htype : d.type with
    | enum values assigned =>
      simp only [hnamed, htype] at h ⊢
      obtain ⟨rfl, rfl⟩ := Logged.pure_eq_ok.mp h
      exact ⟨.enum d.name values, rfl, rfl, fun _ => Iff.rfl⟩
    | _ =>
      simp only [hnamed, htype] at h ⊢
      rw [htype] at htyped
      exact htyped h

/-- A method that binds nothing has nothing to bind: parameters are in the path, in the query or in the
    body. -/
theorem nothing_of_pattern_eq_none {o : Operation} (h : (Call.of o).pattern = none) :
    o.parameters = [] ∧ o.bodyTypes = [] := by
  have hnames : ∀ location, o.namesIn location = [] → ∀ p ∈ o.parameters, p.location ≠ location := by
    intro location hempty p hp hlocation
    have hmem : p ∈ o.parameters.filter fun p => p.location == location :=
      List.mem_filter.mpr ⟨hp, beq_iff_eq.mpr hlocation⟩
    rw [List.map_eq_nil_iff.mp hempty] at hmem
    cases hmem
  -- Without a pattern there is no name to bind, and no body.
  have hbound : o.namesIn .path ++ o.namesIn .query = [] := by
    by_contra hne
    simp [Call.pattern, Call.of, hne] at h
  have hbody : (Call.of o).hasBody = false := by
    by_contra hne
    have hempty : (Call.of o).path ++ (Call.of o).query = [] := hbound
    simp [Call.pattern, hempty, hne] at h
  obtain ⟨hpath, hquery⟩ := List.append_eq_nil_iff.mp hbound
  obtain ⟨htypes, hnone⟩ := Bool.or_eq_false_iff.mp hbody
  refine ⟨List.eq_nil_iff_forall_not_mem.mpr fun p hp => ?_, by simpa using htypes⟩
  have hbodyNames : o.namesIn .body = [] := by simpa using hnone
  cases hlocation : p.location with
  | path => exact hnames .path hpath p hp hlocation
  | query => exact hnames .query hquery p hp hlocation
  | body => exact hnames .body hbodyNames p hp hlocation

theorem exists_describeArgument {o : Operation} {types : List String}
    (h : w.writeArgument o = ⟨log, .ok types⟩) :
    ∃ parts, w.describeArgument o = .ok (.all parts) ∧ TypeExpr.operands 1 parts = types
      ∧ ∀ name, name ∈ log ↔ name ∈ (TypeExpr.referencesOfParts parts).map Reference.name := by
  unfold writeArgument at h
  unfold describeArgument
  generalize o.parameters.map (fun p => (⟨p.name, p.type, p.required⟩ : Field ClientType)) = fields at h ⊢
  dsimp only at h
  have hbody : ∀ {log : List String} {texts : List String}, w.writeOperands 1 o.bodyTypes = ⟨log, .ok texts⟩ →
      ∃ bodies, w.describeParts o.bodyTypes = .ok bodies ∧ TypeExpr.operands 1 bodies = texts
        ∧ ∀ name, name ∈ log ↔ name ∈ (TypeExpr.referencesOfParts bodies).map Reference.name :=
    exists_describeParts fun type _ => exists_describe w type
  -- The bodies are written in any case, and the fields in front of them if there are any.
  by_cases hempty : fields.isEmpty
  · rw [if_pos hempty, pure_bind] at h
    obtain ⟨_, texts, _, htexts, hpure, rfl⟩ := Logged.bind_eq_ok.mp h
    obtain ⟨rfl, rfl⟩ := Logged.pure_eq_ok.mp hpure
    obtain ⟨bodies, hbodies, rfl, hlog⟩ := hbody htexts
    rw [List.isEmpty_iff.mp hempty]
    refine ⟨bodies, by rw [describeFields, hbodies]; rfl, rfl, fun name => ?_⟩
    rw [List.append_nil]
    exact hlog name
  · rw [if_neg hempty] at h
    obtain ⟨_, text, _, htext, hrest, rfl⟩ := Logged.bind_eq_ok.mp h
    rw [pure_bind] at hrest
    obtain ⟨_, texts, _, htexts, hpure, rfl⟩ := Logged.bind_eq_ok.mp hrest
    obtain ⟨rfl, rfl⟩ := Logged.pure_eq_ok.mp hpure
    obtain ⟨bodies, hbodies, rfl, hlog⟩ := hbody htexts
    obtain ⟨e, he, hwrote⟩ := exists_describe w _ _ _ _ htext
    rw [describe] at he
    obtain ⟨shown, hshown, hpure''⟩ := Except.bind_eq_ok.mp he
    rw [Except.pure_eq_ok] at hpure''
    subst hpure''
    have hshownEmpty : shown.isEmpty = false := by
      have hall : shownFields none (some fields) = fields := by simp [shownFields]
      rw [isEmpty_of_describeFields hshown, hall]
      exact Bool.not_eq_true _ ▸ hempty
    refine ⟨.object shown :: bodies, by rw [hshown, hbodies, Except.ok_bind, Except.ok_bind, hshownEmpty]; rfl,
      ?_, fun name => ?_⟩
    · rw [TypeExpr.operands, hwrote.text_eq]
      rfl
    · rw [TypeExpr.referencesOfParts, List.map_append, List.append_nil, List.mem_append, List.mem_append,
        hwrote.mem_log_iff, hlog]
      rfl

theorem exists_describeMethod {o : Operation} (h : w.writeMethod o = ⟨log, .ok text⟩) :
    ∃ m, w.describeMethod o = .ok m ∧ m.text = text
      ∧ ∀ name, name ∈ log ↔ name ∈ m.references.map Reference.name := by
  unfold writeMethod at h
  obtain ⟨_, types, _, htypes, hrest, rfl⟩ := Logged.bind_eq_ok.mp h
  obtain ⟨_, passed, _, hlift, hrest', rfl⟩ := Logged.bind_eq_ok.mp hrest
  obtain ⟨rfl, hpassed⟩ := Logged.lift_eq_ok.mp hlift
  obtain ⟨_, result, _, hresult, hpure, rfl⟩ := Logged.bind_eq_ok.mp hrest'
  obtain ⟨rfl, rfl⟩ := Logged.pure_eq_ok.mp hpure
  obtain ⟨parts, hparts, rfl, hlog⟩ := exists_describeArgument htypes
  obtain ⟨e, he, hwrote⟩ := exists_describe w _ _ _ _ hresult
  refine ⟨⟨Call.of o, passed, .all parts, e⟩, ?_, ?_, fun name => ?_⟩
  · rw [describeMethod, hparts, Except.ok_bind, hpassed, Except.ok_bind, he]
    rfl
  · have hroute : (Call.of o).route = o.route := rfl
    unfold Method.text
    rewrite [TypeExpr.text, hwrote.text_eq, hroute]
    generalize (Call.of o).pattern = pattern
    cases pattern with
    | none => dsimp only
    | some pattern => dsimp only
  · -- What is not written for the argument refers to nothing.
    have hargument : (TypeExpr.referencesOfParts parts).map Reference.name
        = (if (Call.of o).pattern.isSome then (TypeExpr.all parts).references else []).map Reference.name := by
      by_cases hpattern : (Call.of o).pattern.isSome
      · rw [if_pos hpattern]
        rfl
      · obtain ⟨hparameters, hbody⟩ := nothing_of_pattern_eq_none (Option.not_isSome_iff_eq_none.mp hpattern)
        rw [describeArgument, hparameters, hbody] at hparts
        cases hparts
        rw [if_neg hpattern]
        rfl
    rw [Method.references, List.map_append, ← hargument, List.mem_append, List.nil_append, List.append_nil,
      List.mem_append, hlog, hwrote.mem_log_iff]
    rfl

/-- Steps with logs that have been described one by one. -/
theorem exists_described {α β : Type} {write : α → Logged String} {describe : α → Except Failure β}
    (textOf : β → String) (namesOf : β → List String) {xs : List α} {texts : List String}
    (hstep : ∀ x ∈ xs, ∀ log text, write x = ⟨log, .ok text⟩ →
      ∃ y, describe x = .ok y ∧ textOf y = text ∧ ∀ name, name ∈ log ↔ name ∈ namesOf y)
    (h : xs.mapM write = ⟨log, .ok texts⟩) :
    ∃ ys, xs.mapM describe = .ok ys ∧ ys.map textOf = texts
      ∧ ∀ name, name ∈ log ↔ name ∈ ys.flatMap namesOf := by
  induction xs generalizing log texts with
  | nil =>
    obtain ⟨rfl, rfl⟩ := Logged.pure_eq_ok.mp h
    exact ⟨[], rfl, rfl, fun _ => Iff.rfl⟩
  | cons x rest ih =>
    rw [List.forall_mem_cons] at hstep
    rw [List.mapM_cons] at h
    obtain ⟨_, text, _, htext, hrest, rfl⟩ := Logged.bind_eq_ok.mp h
    obtain ⟨_, others, _, hothers, hpure, rfl⟩ := Logged.bind_eq_ok.mp hrest
    obtain ⟨rfl, rfl⟩ := Logged.pure_eq_ok.mp hpure
    obtain ⟨y, hy, rfl, hlog⟩ := hstep.1 _ _ htext
    obtain ⟨ys, hys, rfl, hlogs⟩ := ih hstep.2 hothers
    refine ⟨y :: ys, by rw [List.mapM_cons, hy, hys]; rfl, rfl, fun name => ?_⟩
    rw [List.append_nil, List.flatMap_cons, List.mem_append, List.mem_append, hlog, hlogs]

theorem exists_describeGroup {operations : List Operation} {g : Group}
    (h : writeGroup w operations g = ⟨log, .ok text⟩) :
    ∃ x, w.describeGroup operations g = .ok x ∧ groupCode x = text
      ∧ ∀ name, name ∈ log ↔ name ∈ (x.2.flatMap Method.references).map Reference.name := by
  unfold writeGroup at h
  obtain ⟨_, texts, _, htexts, hpure, rfl⟩ := Logged.bind_eq_ok.mp h
  obtain ⟨rfl, rfl⟩ := Logged.pure_eq_ok.mp hpure
  obtain ⟨methods, hmethods, rfl, hlog⟩ :=
    exists_described Method.text (fun m => m.references.map Reference.name)
      (fun o _ _ _ ho => exists_describeMethod ho) htexts
  refine ⟨(g, methods), by rw [describeGroup, hmethods]; rfl, rfl, fun name => ?_⟩
  rw [List.append_nil, hlog, List.map_flatMap]

end TypeWriter

/-! ### Sorted names -/

/-- No name is left twice. -/
theorem nodup_eraseDups (names : List String) : names.eraseDups.Nodup := by
  -- Strong induction on the length: what is repeated is filtered out of the rest.
  induction hn : names.length using Nat.strongRecOn generalizing names with
  | ind n ih =>
    cases names with
    | nil => exact List.nodup_nil
    | cons name rest =>
      rw [List.eraseDups_cons, List.nodup_cons, List.mem_eraseDups]
      refine ⟨by simp, ih _ ?_ _ rfl⟩
      have hle := List.length_filter_le (fun other => !other == name) rest
      rw [List.length_cons] at hn
      omega

theorem mem_sortedNames {names : List String} {name : String} :
    name ∈ sortedNames names ↔ name ∈ names := by
  rw [sortedNames, (List.mergeSort_perm ..).mem_iff, List.mem_eraseDups]

theorem nodup_sortedNames (names : List String) : (sortedNames names).Nodup :=
  (List.mergeSort_perm ..).nodup_iff.mpr (nodup_eraseDups names)

theorem pairwise_sortedNames (names : List String) :
    (sortedNames names).Pairwise fun a b => Text.isOrdered a b :=
  Text.pairwise_mergeSort id names.eraseDups

/-- The sorted names depend on the set of the names only. -/
theorem sortedNames_eq_of_mem_iff {names others : List String}
    (h : ∀ name, name ∈ names ↔ name ∈ others) : sortedNames names = sortedNames others := by
  have hperm : names.eraseDups.Perm others.eraseDups := by
    rw [List.perm_ext_iff_of_nodup (nodup_eraseDups names) (nodup_eraseDups others)]
    intro name
    rw [List.mem_eraseDups, List.mem_eraseDups]
    exact h name
  exact @Text.mergeSort_eq_of_perm String id _ _ hperm fun _ _ _ _ heq => heq

/-! ### What is generated is the text of the client -/

section Generated

variable {d : Description} {options : Options}

/-- The texts of the new enums are those of the new exports. -/
theorem map_code_newExports :
    (newExports options d).map Export.code = if options.namedEnums then enumTexts d.enums else [] := by
  unfold newExports enumTexts
  by_cases hnamed : options.namedEnums = true
  · rw [if_pos hnamed, if_pos hnamed, List.map_map]
    rfl
  · rw [if_neg hnamed, if_neg hnamed]
    rfl

theorem exists_exports {file : CodeFile} (h : typesFile options d = .ok file) :
    ∃ declared, (sortedDeclarations d.registry).mapM
        (TypeWriter.describeDeclaration ⟨d.registry, options.namedEnums, none⟩) = .ok declared
      ∧ file = (CodeFile.empty "types.ts").addCode ((declared ++ newExports options d).map Export.code) := by
  obtain ⟨texts, htexts, hfile⟩ := Except.bind_eq_ok.mp h
  obtain ⟨declared, hdeclared, rfl, -⟩ := TypeWriter.exists_described Export.code
    (fun x => x.references.map Reference.name)
    (fun x _ _ _ hx => TypeWriter.exists_describeDeclaration hx) (Logged.eq_mk_of_result htexts)
  rw [Except.pure_eq_ok] at hfile
  refine ⟨declared, hdeclared, ?_⟩
  rw [List.map_append, map_code_newExports]
  exact hfile.symm

theorem exists_groups {file : CodeFile} (h : methodsFile options d = .ok file) :
    ∃ described, groups.mapM
        (TypeWriter.describeGroup ⟨d.registry, options.namedEnums, options.space⟩ d.operations) = .ok described
      ∧ ∀ exports, file = (CodeFile.empty "api.ts").addCode ((Client.mk exports described).header options.space
        :: described.map groupCode ++ [serviceText]) := by
  unfold methodsFile at h
  split at h
  · cases h
  · obtain ⟨texts, htexts, hfile⟩ := Except.bind_eq_ok.mp h
    obtain ⟨described, hdescribed, rfl, hlog⟩ := TypeWriter.exists_described groupCode
      (fun x => (x.2.flatMap Method.references).map Reference.name)
      (fun g _ _ _ hg => TypeWriter.exists_describeGroup hg) (Logged.eq_mk_of_result htexts)
    refine ⟨described, hdescribed, fun exports => ?_⟩
    have himports : sortedNames (groups.mapM
          (writeGroup ⟨d.registry, options.namedEnums, options.space⟩ d.operations)).log
        = (Client.mk exports described).imports := by
      refine sortedNames_eq_of_mem_iff fun name => ?_
      rw [hlog, Client.methods, List.flatMap_assoc, List.map_flatMap]
    have hheader : headerText (importText options (groups.mapM
          (writeGroup ⟨d.registry, options.namedEnums, options.space⟩ d.operations)).log)
        = (Client.mk exports described).header options.space := by
      unfold importText Client.header
      rewrite [himports]
      cases options.space <;> rfl
    rw [Except.pure_eq_ok] at hfile
    rw [← hfile, hheader]

/-- **What is generated is the text of the client.** -/
theorem exists_client {project : Project} (h : generate options d = .ok project) :
    ∃ client, d.client options = .ok client ∧ project = client.project options.space := by
  obtain ⟨types, methods, htypes, hmethods, rfl⟩ := exists_files h
  obtain ⟨declared, hdeclared, rfl⟩ := exists_exports htypes
  obtain ⟨described, hdescribed, hfile⟩ := exists_groups hmethods
  refine ⟨⟨declared ++ newExports options d, described⟩, ?_, ?_⟩
  · unfold Description.client
    simp only [hdeclared, hdescribed, Except.ok_bind]
    rfl
  · rw [hfile (declared ++ newExports options d)]
    rfl

end Generated

end Output

/-! ### Texts without long runs of a mark -/

namespace Text

variable {mark : Char} {n : Nat} {replacement : List Char}

/-- A run of marks is not replaced before the first mark. -/
theorem replaceFrom_append_of_notMem {cs : List Char} (h : mark ∉ cs) (hn : n ≠ 0) (rest : List Char) :
    replaceFrom (List.replicate n mark) replacement 0 (cs ++ rest)
      = cs ++ replaceFrom (List.replicate n mark) replacement 0 rest := by
  obtain ⟨n, rfl⟩ := Nat.exists_eq_succ_of_ne_zero hn
  induction cs with
  | nil => rfl
  | cons c cs ih =>
    rw [List.mem_cons, not_or] at h
    have hbegins : (List.replicate n.succ mark).isPrefixOf (c :: (cs ++ rest)) = false := by
      simp [List.replicate_succ, List.isPrefixOf, h.1]
    rw [List.cons_append, replaceFrom, if_neg (by simp [hbegins]), ih h.2, List.cons_append]

/-- A run of marks that is too short is not replaced. -/
theorem replaceFrom_replicate_append {k : Nat} (hk : k < n) {c : Char} (hc : c ≠ mark) (rest : List Char) :
    replaceFrom (List.replicate n mark) replacement 0 (List.replicate k mark ++ c :: rest)
      = List.replicate k mark ++ replaceFrom (List.replicate n mark) replacement 0 (c :: rest) := by
  induction k with
  | zero => rfl
  | succ k ih =>
    have hbegins : ¬ (List.replicate n mark).isPrefixOf (mark :: (List.replicate k mark ++ c :: rest)) := by
      rw [List.isPrefixOf_iff_prefix, ← List.cons_append, ← List.replicate_succ]
      rintro ⟨tail, htail⟩
      -- The run in the passage goes on where the other one ends.
      obtain ⟨m, rfl⟩ := Nat.exists_eq_add_of_lt hk
      rw [Nat.add_assoc, List.replicate_add, List.append_assoc, List.append_cancel_left_eq,
        List.replicate_succ, List.cons_append] at htail
      exact hc (List.cons.inj htail).1.symm
    rw [List.replicate_succ, List.cons_append, replaceFrom, if_neg hbegins, ih (Nat.lt_of_succ_lt hk),
      List.cons_append]

end Text

namespace Output

/-! ### The beginning of the file -/

/-- The first line of the methods' file. -/
def firstLine : String :=
  "/* eslint-disable @typescript-eslint/no-explicit-any */"

/-- The lines from the first exported type up to the base class. -/
def frameText : String :=
  String.intercalate "\n" frameLines

/-- Without imports the first line is followed by the frame. -/
theorem headerText_empty : headerText "" = firstLine ++ "\n\n" ++ frameText := by
  have hreplaced : Text.replaceAll "\n\n\n\n" "\n\n"
      ("/* eslint-disable @typescript-eslint/no-explicit-any */\n\n" ++ "" ++ "\n\n")
        = firstLine ++ "\n\n" := by decide +kernel
  rw [headerText, hreplaced, frameText]

/-- The names of an import that hold no line breaks are left as they are. -/
theorem replaceFrom_importNames {names : List String} (hne : names ≠ [])
    (h : ∀ name ∈ names, '\n' ∉ name.toList) {tail : List Char}
    (htail : Text.replaceFrom (List.replicate 4 '\n') "\n\n".toList 0 tail = tail) :
    Text.replaceFrom (List.replicate 4 '\n') "\n\n".toList 0
        (' ' :: ' ' :: ((String.intercalate ",\n  " names).toList ++ tail))
      = ' ' :: ' ' :: ((String.intercalate ",\n  " names).toList ++ tail) := by
  induction names with
  | nil => exact absurd rfl hne
  | cons name rest ih =>
    rw [List.forall_mem_cons] at h
    cases rest with
    | nil =>
      have hname : '\n' ∉ ' ' :: ' ' :: name.toList := by simp [h.1]
      rw [String.intercalate_singleton, ← List.cons_append, ← List.cons_append,
        Text.replaceFrom_append_of_notMem hname (by decide), htail]
    | cons other rest =>
      -- The line of the first name, then a single line break, then the other names.
      have hname : '\n' ∉ ' ' :: ' ' :: (name.toList ++ [',']) := by simp [h.1]
      have hsplit : ' ' :: ' ' :: ((String.intercalate ",\n  " (name :: other :: rest)).toList ++ tail)
          = (' ' :: ' ' :: (name.toList ++ [','])) ++ (List.replicate 1 '\n'
            ++ ' ' :: ' ' :: ((String.intercalate ",\n  " (other :: rest)).toList ++ tail)) := by
        simp [String.intercalate_cons_cons]
      rw [hsplit, Text.replaceFrom_append_of_notMem hname (by decide),
        Text.replaceFrom_replicate_append (by decide) (by decide), ih (List.cons_ne_nil _ _) h.2]

/-- An import of names without line breaks stands between the first line and the frame. -/
theorem headerText_namedImport {names : List String} (hne : names ≠ [])
    (h : ∀ name ∈ names, '\n' ∉ name.toList) :
    headerText (namedImport names) = firstLine ++ "\n\n" ++ namedImport names ++ "\n\n" ++ frameText := by
  have htext : namedImport names
      = "import \x7b\n  " ++ String.intercalate ",\n  " names ++ "\n\x7d from './types';" := by
    rw [namedImport, if_neg (by simpa using hne)]
  have hfirst : '\n' ∉ firstLine.toList := by decide +kernel
  have himport : '\n' ∉ "import \x7b".toList := by decide
  have htail : Text.replaceFrom (List.replicate 4 '\n') "\n\n".toList 0 "\n\x7d from './types';\n\n".toList
      = "\n\x7d from './types';\n\n".toList := rfl
  have hsplit : (firstLine ++ "\n\n" ++ namedImport names ++ "\n\n").toList
      = firstLine.toList ++ (List.replicate 2 '\n' ++ ("import \x7b".toList ++ (List.replicate 1 '\n'
        ++ ' ' :: ' ' :: ((String.intercalate ",\n  " names).toList
          ++ "\n\x7d from './types';\n\n".toList)))) := by
    rw [htext]
    simp only [String.toList_append, List.append_assoc]
    rfl
  -- Line breaks come in ones and twos, so there is no passage of four to replace.
  have hkept : Text.replaceFrom "\n\n\n\n".toList "\n\n".toList 0
      (firstLine ++ "\n\n" ++ namedImport names ++ "\n\n").toList
        = (firstLine ++ "\n\n" ++ namedImport names ++ "\n\n").toList := by
    have hpassage : "\n\n\n\n".toList = List.replicate 4 '\n' := rfl
    have hletter : "import \x7b".toList = 'i' :: "mport \x7b".toList := rfl
    rw [hsplit, hpassage, Text.replaceFrom_append_of_notMem hfirst (by decide), hletter, List.cons_append,
      Text.replaceFrom_replicate_append (by decide) (by decide), ← List.cons_append, ← hletter,
      Text.replaceFrom_append_of_notMem himport (by decide),
      Text.replaceFrom_replicate_append (by decide) (by decide), replaceFrom_importNames hne h htail]
  have hreplaced : Text.replaceAll "\n\n\n\n" "\n\n" (firstLine ++ "\n\n" ++ namedImport names ++ "\n\n")
      = firstLine ++ "\n\n" ++ namedImport names ++ "\n\n" := by
    rw [Text.replaceAll, hkept, String.ofList_toList]
  rw [← hreplaced]
  rfl

/-! ### What the methods import -/

/-- The names that the methods of a client use are imported: the list of the import is sorted and holds every
    name once, the names are those that the methods refer to, and without any there is no import. -/
structure Client.Imports (c : Client) : Prop where
  sorted : c.imports.Pairwise fun a b => Text.isOrdered a b
  distinct : c.imports.Nodup
  mem_iff : ∀ name, name ∈ c.imports ↔ ∃ m ∈ c.methods, ∃ r ∈ m.references, r.name = name
  header_eq : c.header none = headerText (namedImport c.imports)
  /-- What the beginning of the file is, if no name holds a line break that would have to be kept. -/
  header_text : (∀ name ∈ c.imports, '\n' ∉ name.toList) →
    c.header none = firstLine ++ "\n\n"
      ++ (if c.imports = [] then "" else namedImport c.imports ++ "\n\n") ++ frameText

theorem Client.hasImports (c : Client) : c.Imports where
  sorted := pairwise_sortedNames _
  distinct := nodup_sortedNames _
  mem_iff name := by
    rw [imports, mem_sortedNames, List.mem_map]
    simp only [List.mem_flatMap]
    constructor
    · rintro ⟨r, ⟨m, hm, hr⟩, hname⟩
      exact ⟨m, hm, r, hr, hname⟩
    · rintro ⟨m, hm, r, hr, hname⟩
      exact ⟨r, ⟨m, hm, hr⟩, hname⟩
  header_eq := rfl
  header_text h := by
    show headerText (namedImport c.imports) = _
    by_cases hempty : c.imports = []
    · rw [if_pos hempty, hempty, String.append_empty]
      exact headerText_empty
    · rw [if_neg hempty, headerText_namedImport hempty h, ← String.append_assoc]

end Output

end TypedClient
