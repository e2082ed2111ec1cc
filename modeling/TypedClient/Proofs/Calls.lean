import TypedClient.Proofs.Clients
import TypedClient.Proofs.Grammar
import TypedClient.Proofs.Pieces
import TypedClient.Proofs.Sites
import TypedClient.Proofs.Templates

namespace TypedClient.Output

open Route (Described Site Stems Template pathNames queryNames)
open Schema (Property)

/-!
# What a method binds and what it passes on

A method takes one object with all parameters apart by name, and puts the parameters of the path into the route.
Both are lists in braces, and this file reads them back from the text: the names that are bound, and the entries of
the object that the placeholders of the route are replaced from.

* `bracedItems`, `readObject` — a list in braces, and an object on one line, read back.
* `placeholders_supplied` — every placeholder of the route has one entry, under its own name.
* `boundNames` — the names that a pattern binds.
* `names_distinct_iff` — when the fields of the argument, and the names that are bound, differ from each other.
-/

/-! ### Lists in braces -/

/-- The items of a list in braces: what stands between commas, each item behind a blank. -/
def bracedItems (text : String) : List String :=
  (Text.pieces ',' (text.toList.drop 1).dropLast.dropLast).map fun piece => String.ofList (piece.drop 1)

theorem toList_bracedNames {items : List String} (hne : items ≠ []) :
    (bracedNames items).toList
      = '{' :: (Text.joinPieces ',' (items.map fun item => ' ' :: item.toList) ++ [' ', '}']) := by
  have hitems : ' ' :: (String.intercalate ", " items).toList
      = Text.joinPieces ',' (items.map fun item => ' ' :: item.toList) := by
    -- A last item is a case of its own, since no comma follows it.
    induction items with
    | nil => exact absurd rfl hne
    | cons item rest ih =>
      cases rest with
      | nil => rw [String.intercalate_singleton]; rfl
      | cons other rest =>
        rw [String.intercalate_cons_cons, List.map_cons, Text.joinPieces_cons _ _ (by simp),
          ← ih (List.cons_ne_nil _ _)]
        simp
  have hbraces : (bracedNames items).toList
      = '{' :: ((' ' :: (String.intercalate ", " items).toList) ++ [' ', '}']) := by
    simp [bracedNames, braced]
  rw [hbraces, hitems]

/-- Items without commas are read back. -/
theorem bracedItems_bracedNames {items : List String} (hne : items ≠ []) (h : ∀ item ∈ items, ',' ∉ item.toList) :
    bracedItems (bracedNames items) = items := by
  have hpieces : ∀ piece ∈ items.map fun item => ' ' :: item.toList, ',' ∉ piece := by
    intro piece hpiece
    obtain ⟨item, hitem, rfl⟩ := List.mem_map.mp hpiece
    exact List.not_mem_cons_of_ne_of_not_mem (by decide) (h item hitem)
  have hinner : ((bracedNames items).toList.drop 1).dropLast.dropLast
      = Text.joinPieces ',' (items.map fun item => ' ' :: item.toList) := by
    rw [toList_bracedNames hne, List.drop_succ_cons, List.drop_zero, List.append_cons, List.dropLast_concat,
      List.dropLast_concat]
  rw [bracedItems, hinner, Text.pieces_joinPieces (by simpa using hne) hpieces, List.map_map]
  exact List.map_id'' (fun item => String.ofList_toList) items

/-! ### Objects on one line -/

/-- An entry of an object: a key and the name of its value, or one name for both. -/
def entryText (key name : String) : String :=
  if key = name then name else key ++ ": " ++ name

/-- The key of an entry and the name of its value. -/
def readEntry (item : String) : String × String :=
  match Text.after? ':' item.toList with
  | some value => (String.ofList (Text.before ':' item.toList), String.ofList (value.drop 1))
  | none => (item, item)

/-- The entries of an object that is written on one line. -/
def readObject (text : String) : List (String × String) :=
  (bracedItems text).map readEntry

/-- An entry is read back if its key has no colon. -/
theorem readEntry_entryText {key : String} (h : ':' ∉ key.toList) (name : String) :
    readEntry (entryText key name) = (key, name) := by
  by_cases hsame : key = name
  · subst hsame
    have hnone : Text.after? ':' key.toList = none := by
      rw [Option.eq_none_iff_forall_ne_some]
      intro rest hrest
      obtain ⟨front, heq, -⟩ := Schema.after?_eq_some_iff.mp hrest
      exact h (by rw [heq]; simp)
    rw [entryText, if_pos rfl, readEntry, hnone]
  · have htext : (entryText key name).toList = key.toList ++ ':' :: ' ' :: name.toList := by
      simp [entryText, hsame]
    have hafter : Text.after? ':' (key.toList ++ ':' :: ' ' :: name.toList) = some (' ' :: name.toList) :=
      Schema.after?_eq_some_iff.mpr ⟨_, rfl, h⟩
    have hbefore : Text.before ':' (key.toList ++ ':' :: ' ' :: name.toList) = key.toList := by
      rw [Text.before, Text.takeWhile_ne_of_notMem h, List.takeWhile_cons_of_neg (by simp), List.append_nil]
    rw [readEntry, htext, hafter, hbefore]
    simp

/-! ### Names -/

/-- Punctuation is dropped from names. -/
theorem notMem_normalize {c : Char} (h : Naming.isForbidden c = true) (name : String) :
    c ∉ (Naming.normalize name).toList := by
  rw [Naming.normalize, String.toList_ofList, List.mem_filter, h]
  simp

theorem isNameChar_of_template {cs left : List Char} {names : List String} (h : Template cs left names) :
    ∀ name ∈ names, ∀ c ∈ name.toList, Route.isNameChar c = true := by
  induction h with
  | nil => simp
  | plain _ _ _ ih => exact ih
  | placeholder _ hname _ ihinner ih =>
    simp only [List.forall_mem_append, List.forall_mem_cons, String.toList_ofList]
    exact ⟨ihinner, hname.isNameChar, ih⟩

/-- An entry has no mark that neither a key nor a name has. -/
theorem notMem_entryText {c : Char} {key name : String} (hkey : c ∉ key.toList) (hname : c ∉ name.toList)
    (hc : c ∉ [':', ' ']) : c ∉ (entryText key name).toList := by
  rw [entryText]
  split
  · exact hname
  · simp only [String.toList_append, List.mem_append, not_or]
    exact ⟨⟨hkey, hc⟩, hname⟩

/-- The entries for placeholders are read back. -/
theorem readObject_entries {route : String} {names taken : List String} (hne : taken ≠ []) (hperm : taken.Perm names)
    (hnames : Route.parameterNames route = .ok names) :
    readObject (bracedNames (taken.map fun name => entryText name (Naming.normalize name)))
      = taken.map fun name => (name, Naming.normalize name) := by
  obtain ⟨left, htemplate⟩ := Route.parameterNames_eq_ok_iff.mp hnames
  have hplain : ∀ name ∈ taken, ∀ c, Route.isNameChar c = false → c ∉ name.toList := by
    intro name hname c hc hmem
    have hchar := isNameChar_of_template htemplate name (hperm.mem_iff.mp hname) c hmem
    rw [hc] at hchar
    cases hchar
  have hcommas : ∀ item ∈ taken.map fun name => entryText name (Naming.normalize name), ',' ∉ item.toList := by
    intro item hitem
    obtain ⟨name, hname, rfl⟩ := List.mem_map.mp hitem
    exact notMem_entryText (hplain name hname ',' (by decide)) (notMem_normalize (by decide) name) (by decide)
  rw [readObject, bracedItems_bracedNames (by simpa using hne) hcommas, List.map_map]
  refine List.map_congr_left fun name hname => ?_
  rw [Function.comp_apply, readEntry_entryText (hplain name hname ':' (by decide))]

/-! ### The posts of a user -/

/-- An object with two texts. -/
def postSchema : Value :=
  .map [(.text "properties", .map [(.text "id", .map [(.text "type", .text "string")]),
    (.text "title", .map [(.text "type", .text "string")])])]

/-- A route whose placeholders are declared in the other order, and a body with a property of the same name as a
    placeholder. -/
def postPaths : Value :=
  .map [(.text "/users/\x7buser_id\x7d/posts/\x7bid\x7d", .map [(.text "put", .map [
    (.text "parameters", .list [
      .map [(.text "name", .text "id"), (.text "in", .text "path"), (.text "required", .bool true)],
      .map [(.text "name", .text "user_id"), (.text "in", .text "path"), (.text "required", .bool true)]]),
    (.text "requestBody", .map [(.text "content", .map [(.text "application/json",
      .map [(.text "schema", postSchema)])])]),
    (.text "responses", .map [(.text "200", .null)])])])]

def postProperties : List Property :=
  [⟨⟨.map [(.text "type", .text "string")], [], .string⟩, "id", false⟩,
    ⟨⟨.map [(.text "type", .text "string")], [], .string⟩, "title", false⟩]

def postExtraction : Route.Extraction where
  method := "PUT"
  route := "/users/\x7buser_id\x7d/posts/\x7bid\x7d"
  parameters := [⟨.path, "id", .string, true⟩, ⟨.path, "userid", .string, true⟩]
  body := some ⟨postSchema, [], .object (postProperties.map Property.field)⟩
  result := none

theorem converts_post : Schema.Converts ⟨"", ""⟩ postSchema [] (.object (postProperties.map Property.field)) := by
  have hstring : ∀ p ∈ postProperties, Schema.Converts ⟨"", ""⟩ p.schema p.log p.type := by
    intro p hp
    simp only [postProperties, List.mem_cons, List.not_mem_nil, or_false] at hp
    rcases hp with rfl | rfl <;> exact .string ⟨rfl, rfl⟩ rfl
  have howns : Schema.Owns [(.text "properties", .map [(.text "id", .map [(.text "type", .text "string")]),
      (.text "title", .map [(.text "type", .text "string")])])] (some postProperties) := by
    refine ⟨_, rfl, rfl, ?_⟩
    rw [postProperties, List.forall_mem_cons, List.forall_mem_singleton]
    exact ⟨rfl, rfl⟩
  exact .object ⟨rfl, rfl⟩ howns hstring rfl rfl

theorem extract_post : Route.extract "" postPaths = ⟨[], .ok [postExtraction.operation]⟩ := by
  have houtlines : Route.outlines postPaths = .ok [postExtraction.outline] := by cbv
  refine Route.extract_eq_ok_iff.mpr ⟨_, houtlines, [postExtraction], rfl, ?_, rfl, rfl⟩
  intro x hx c hc
  cases List.mem_singleton.mp hx
  cases List.mem_singleton.mp hc
  exact converts_post

/-- The text of the method that puts a post. -/
def postText : String :=
  "\n  public async '/users/\x7buser_id\x7d/posts/\x7bid\x7d'(\x7b id, userid, ...body \x7d: \x7b\n"
    ++ "    id: string;\n    userid: string;\n    id?: string;\n    title?: string;\n  \x7d): Promise<void> \x7b\n"
    ++ "    return this.callApi(interpolateParams('/users/\x7buser_id\x7d/posts/\x7bid\x7d', "
    ++ "\x7b id, user_id: userid \x7d), undefined, body);\n  \x7d"

theorem write_post : TypeWriter.writeMethod ⟨[], false, none⟩ postExtraction.operation = ⟨[], .ok postText⟩ := by
  cbv

section Operations

variable {entry : String} {paths : Value} {o : Operation} {s : Site} {ds : List Described} {own : List Property}

theorem notMem_of_mem_namesIn (h : Stems entry paths o s ds own) {c : Char} (hc : Naming.isForbidden c = true)
    {location : Location} {name : String} (hname : name ∈ o.namesIn location) : c ∉ name.toList := by
  obtain ⟨raw, rfl⟩ := h.exists_normalize_eq hname
  exact notMem_normalize hc raw

/-! ### The route of a call -/

/-- The names of parameters are turned back into those of their placeholders, if no two are the same. -/
theorem get?_placeholdersByName {names : List String} (hdistinct : (names.map Naming.normalize).Nodup) {name : String}
    (hname : name ∈ names) :
    (Call.placeholdersByName names).get? (Naming.normalize name) = some name := by
  have hkeys : (Table.keys (names.map fun name => (Naming.normalize name, name))).Nodup := by
    rwa [Table.keys, List.map_map]
  rw [Call.placeholdersByName, Table.ofList_eq_self hkeys, Table.get?_eq_some_iff_mem hkeys]
  exact List.mem_map_of_mem hname

theorem substitution_placeholdersByName {names : List String} (hdistinct : (names.map Naming.normalize).Nodup)
    {name : String} (hname : name ∈ names) :
    Call.substitution (Call.placeholdersByName names) (Naming.normalize name)
      = entryText name (Naming.normalize name) := by
  rw [Call.substitution, get?_placeholdersByName hdistinct hname]
  rfl

/-- What a method passes on stands in its text behind the name of the call. -/
theorem text_writeMethod {w : TypeWriter} {log : List String} {text : String}
    (h : w.writeMethod o = ⟨log, .ok text⟩) :
    ∃ route front back, (Call.of o).routeText = .ok route
      ∧ text = front ++ "    return this.callApi(" ++ route ++ ", " ++ back := by
  obtain ⟨m, hm, rfl, -⟩ := TypeWriter.exists_describeMethod h
  simp only [TypeWriter.describeMethod, Except.bind_eq_ok, Except.pure_eq_ok] at hm
  obtain ⟨argument, -, passed, hpassed, result, -, rfl⟩ := hm
  simp only [Call.arguments, Except.bind_eq_ok, Except.pure_eq_ok] at hpassed
  obtain ⟨route, hroute, rfl⟩ := hpassed
  have htext : ∀ m : Method, ∃ front,
      m.text = front ++ "    return this.callApi(" ++ String.intercalate ", " m.passed ++ ");\n  \x7d" := by
    intro m
    unfold Method.text
    dsimp only
    exact ⟨_, rfl⟩
  obtain ⟨front, hfront⟩ := htext ⟨Call.of o, _, argument, result⟩
  refine ⟨route, front, String.intercalate ", " ((Call.of o).queryText :: if (Call.of o).hasBody then ["body"] else [])
    ++ ");\n  \x7d", hroute, ?_⟩
  rw [hfront, List.cons_append, List.cons_append, List.nil_append, String.intercalate_cons_cons]
  simp only [String.append_assoc]

/-- **Every placeholder is supplied.**  If the names of the parameters in the path differ from each other, the object
    that is put into the route has one entry for each placeholder and no others: the key is the placeholder, and the
    value is the parameter that was declared for it. -/
theorem placeholders_supplied {log : List String} {operations : List Operation}
    (h : Route.extract entry paths = ⟨log, .ok operations⟩) (ho : o ∈ operations) (hpath : o.namesIn .path ≠ [])
    (hdistinct : (o.namesIn .path).Nodup) :
    ∃ s ds own names object route, Stems entry paths o s ds own ∧ Route.parameterNames o.route = .ok names
      ∧ (Call.of o).routeText = .ok route ∧ route = "interpolateParams('" ++ o.route ++ "', " ++ object ++ ")"
      ∧ readObject object = (pathNames ds).map (fun name => (name, Naming.normalize name))
      ∧ names.Nodup ∧ ((readObject object).map (·.1)).Perm names
      ∧ (readObject object).map (·.2) = o.namesIn .path
      ∧ ∀ w log text, TypeWriter.writeMethod w o = ⟨log, .ok text⟩ →
        ∃ front back, text = front ++ "    return this.callApi(" ++ route ++ ", " ++ back := by
  obtain ⟨s, ds, own, hstems⟩ := Route.exists_stems h ho
  obtain ⟨names, hnames, hperm⟩ := hstems.matchesRoute.names
  have hin : o.namesIn .path = (pathNames ds).map Naming.normalize := hstems.namesIn_path
  have hne : pathNames ds ≠ [] := fun hempty => hpath (by rw [hin, hempty, List.map_nil])
  have hnormal : (names.map Naming.normalize).Nodup := (hperm.map Naming.normalize).nodup_iff.mp (hin ▸ hdistinct)
  -- The entries stand in the order in which the parameters were declared.
  have hitems : (o.namesIn .path).map (Call.substitution (Call.placeholdersByName names))
      = (pathNames ds).map fun name => entryText name (Naming.normalize name) := by
    rw [hin, List.map_map]
    exact List.map_congr_left fun name hname => substitution_placeholdersByName hnormal (hperm.mem_iff.mp hname)
  have hroute : (Call.of o).routeText = .ok ("interpolateParams('" ++ o.route ++ "', "
      ++ bracedNames ((pathNames ds).map fun name => entryText name (Naming.normalize name)) ++ ")") := by
    have hsome : (Call.of o).path.isEmpty = false := by simpa [Call.of] using hpath
    have hofRoute : (Call.of o).route = o.route := rfl
    rw [Call.routeText, hsome, hofRoute, hnames, ← hitems]
    rfl
  have hread := readObject_entries hne hperm hnames
  refine ⟨s, ds, own, names, _, _, hstems, hnames, hroute, rfl, hread, hnormal.of_map _, ?_, ?_, ?_⟩
  · rw [hread, List.map_map]
    simpa [Function.comp_def] using hperm
  · rw [hread, List.map_map, hin]
    rfl
  · intro w log text hwrite
    obtain ⟨route, front, back, hcall, rfl⟩ := text_writeMethod hwrite
    rw [hroute] at hcall
    cases hcall
    exact ⟨front, back, rfl⟩

/-- The parameters of a post are put in for their placeholders, although they were declared in another order. -/
theorem post_supplied : Route.extract "" postPaths = ⟨[], .ok [postExtraction.operation]⟩
    ∧ ∃ s ds own names object route, Stems "" postPaths postExtraction.operation s ds own
      ∧ Route.parameterNames postExtraction.route = .ok names
      ∧ (Call.of postExtraction.operation).routeText = .ok route
      ∧ route = "interpolateParams('" ++ postExtraction.route ++ "', " ++ object ++ ")"
      ∧ ((readObject object).map (·.1)).Perm names ∧ (readObject object).map (·.2) = ["id", "userid"] := by
  obtain ⟨s, ds, own, names, object, route, hstems, hnames, hroute, hcall, -, -, hkeys, hvalues, -⟩ :=
    placeholders_supplied extract_post (List.mem_singleton_self _) (by decide) (by decide)
  exact ⟨extract_post, s, ds, own, names, object, route, hstems, hnames, hroute, hcall, hkeys, hvalues⟩

/-! ### The names that are bound -/

/-- The names that a pattern binds: those of a list in braces, in which dots mark the rest, or one name. -/
def boundNames (pattern : String) : List String :=
  if pattern.toList.head? = some '{' then
    (bracedItems pattern).map fun item => String.ofList (item.toList.dropWhile (· == '.'))
  else [pattern]

/-- The names that a method binds: those of path and query, and the body. -/
def Call.bound (c : Call) : List String :=
  c.path ++ c.query ++ if c.hasBody then ["body"] else []

theorem dropDots_of_notMem {name : String} (h : '.' ∉ name.toList) :
    String.ofList (name.toList.dropWhile (· == '.')) = name := by
  have hkept : name.toList.dropWhile (· == '.') = name.toList := by
    cases hchars : name.toList with
    | nil => rfl
    | cons c cs =>
      rw [hchars, List.mem_cons, not_or] at h
      exact List.dropWhile_cons_of_neg (by simpa using Ne.symm h.1)
  rw [hkept, String.ofList_toList]

/-- The names that a method binds are those of its pattern. -/
theorem boundNames_pattern (h : Stems entry paths o s ds own) {pattern : String}
    (hpattern : (Call.of o).pattern = some pattern) : boundNames pattern = (Call.of o).bound := by
  have hnames : ∀ name ∈ (Call.of o).path ++ (Call.of o).query, ∀ c, Naming.isForbidden c = true →
      c ∉ name.toList := by
    intro name hname c hc
    rcases List.mem_append.mp hname with hname | hname
    · exact notMem_of_mem_namesIn h hc hname
    · exact notMem_of_mem_namesIn h hc hname
  generalize hrest : (if (Call.of o).hasBody then ["...body"] else []) = rest
  have hcommas : ∀ item ∈ rest, ',' ∉ item.toList := by
    rw [← hrest]
    split <;> simp
  have hdots : rest.map (fun item => String.ofList (item.toList.dropWhile (· == '.')))
      = if (Call.of o).hasBody then ["body"] else [] := by
    rw [← hrest]
    split <;> rfl
  rw [Call.pattern, hrest] at hpattern
  -- Without a parameter in path or query there is no list in braces, and the pattern is the body alone.
  split at hpattern
  · next hsome =>
    cases hpattern
    have hne : (Call.of o).path ++ (Call.of o).query ++ rest ≠ [] := by
      intro hempty
      rw [(List.append_eq_nil_iff.mp hempty).1] at hsome
      cases hsome
    have hitems : ∀ item ∈ (Call.of o).path ++ (Call.of o).query ++ rest, ',' ∉ item.toList :=
      List.forall_mem_append.mpr ⟨fun name hname => hnames name hname ',' (by decide), hcommas⟩
    have hkept : ((Call.of o).path ++ (Call.of o).query).map
        (fun item => String.ofList (item.toList.dropWhile (· == '.'))) = (Call.of o).path ++ (Call.of o).query :=
      (List.map_congr_left fun name hname => dropDots_of_notMem (hnames name hname '.' (by decide))).trans
        (List.map_id _)
    rw [boundNames, if_pos (by rw [toList_bracedNames hne]; rfl), bracedItems_bracedNames hne hitems, List.map_append,
      hkept, hdots, Call.bound]
  · next hnone =>
    have hempty : (Call.of o).path ++ (Call.of o).query = [] := by simpa using hnone
    split at hpattern
    · next hbody =>
      cases hpattern
      rw [Call.bound, hempty, if_pos hbody]
      rfl
    · cases hpattern

/-- A method has a body if there is something to send. -/
theorem hasBody_iff (h : Stems entry paths o s ds own) :
    (Call.of o).hasBody = true ↔ own ≠ [] ∨ o.bodyTypes ≠ [] := by
  rw [Call.of, h.namesIn_body, Bool.or_eq_true, or_comm]
  simp

/-- **Distinct names.**  The fields of a method's argument are the described parameters and the properties of the
    body, in order and without their punctuation, so they differ from each other exactly if no two of these become the
    same.  What the method binds are the parameters of path and query, and these must not become the name of the body
    if there is one. -/
theorem names_distinct_iff {log : List String} {operations : List Operation}
    (h : Route.extract entry paths = ⟨log, .ok operations⟩) (ho : o ∈ operations) {w : TypeWriter}
    {used : List String} {text : String} (hwrite : w.writeMethod o = ⟨used, .ok text⟩) :
    ∃ s ds own m shown bodies, Stems entry paths o s ds own ∧ w.describeMethod o = .ok m ∧ m.text = text
      ∧ m.argument = .all ((if shown.isEmpty then [] else [.object shown]) ++ bodies)
      ∧ shown.map (·.name) = (ds.map (·.name) ++ own.map (·.label)).map Naming.normalize
      ∧ ((shown.map (·.name)).Nodup
        ↔ (ds.map (·.name) ++ own.map (·.label)).Pairwise fun a b => Naming.normalize a ≠ Naming.normalize b)
      ∧ ∀ pattern, m.call.pattern = some pattern →
        ((boundNames pattern).Nodup
          ↔ (pathNames ds ++ queryNames ds).Pairwise (fun a b => Naming.normalize a ≠ Naming.normalize b)
            ∧ (own ≠ [] ∨ o.bodyTypes ≠ [] → ∀ name ∈ pathNames ds ++ queryNames ds,
              Naming.normalize name ≠ "body")) := by
  obtain ⟨s, ds, own, hstems⟩ := Route.exists_stems h ho
  obtain ⟨m, hm, rfl, -⟩ := TypeWriter.exists_describeMethod hwrite
  obtain ⟨argument, hargument, hrest⟩ := Except.bind_eq_ok.mp hm
  simp only [Except.bind_eq_ok, Except.pure_eq_ok] at hrest
  obtain ⟨passed, -, result, -, rfl⟩ := hrest
  simp only [TypeWriter.describeArgument, Except.bind_eq_ok, Except.pure_eq_ok] at hargument
  obtain ⟨shown, hshown, bodies, -, rfl⟩ := hargument
  have hnames : shown.map (·.name) = (ds.map (·.name) ++ own.map (·.label)).map Naming.normalize := by
    have hsame : List.Forall₂ Eq (o.parameters.map (·.name)) (shown.map (·.name)) := by
      have hfields := TypeWriter.forall₂_of_describeFields hshown
      rw [TypeWriter.shownFields, Option.getD_some, List.filter_eq_self.mpr (by simp),
        List.forall₂_map_left_iff] at hfields
      rw [List.forall₂_map_left_iff, List.forall₂_map_right_iff]
      exact hfields.imp fun _ _ hfield => hfield.1.symm
    rw [List.forall₂_eq_eq_eq] at hsame
    rw [← hsame, hstems.map_name]
  refine ⟨s, ds, own, _, shown, bodies, hstems, hm, rfl, rfl, hnames, ?_, fun pattern hpattern => ?_⟩
  · rw [hnames, List.Nodup, List.pairwise_map]
  · have hbound : (Call.of o).path ++ (Call.of o).query = (pathNames ds ++ queryNames ds).map Naming.normalize := by
      rw [List.map_append, ← hstems.namesIn_path, ← hstems.namesIn_query]
      rfl
    rw [boundNames_pattern hstems hpattern, Call.bound, hbound, ← hasBody_iff hstems]
    -- The body is bound last, so it is moved to the front.
    by_cases hbody : (Call.of o).hasBody = true
    · rw [if_pos hbody, List.nodup_append_comm, List.singleton_append, List.nodup_cons, List.Nodup,
        List.pairwise_map, and_comm]
      simp only [hbody, forall_const, List.mem_map, not_exists, not_and]
    · rw [if_neg hbody, List.append_nil, List.Nodup, List.pairwise_map]
      exact (and_iff_left fun hsent => absurd hsent hbody).symm

/-- The fields for a post are the two placeholders and the two properties. -/
theorem post_names : Route.extract "" postPaths = ⟨[], .ok [postExtraction.operation]⟩
    ∧ TypeWriter.writeMethod ⟨[], false, none⟩ postExtraction.operation = ⟨[], .ok postText⟩
    ∧ ∃ s ds own m shown bodies, Stems "" postPaths postExtraction.operation s ds own
      ∧ TypeWriter.describeMethod ⟨[], false, none⟩ postExtraction.operation = .ok m ∧ m.text = postText
      ∧ m.argument = .all ((if shown.isEmpty then [] else [.object shown]) ++ bodies)
      ∧ shown.map (·.name) = (ds.map (·.name) ++ own.map (·.label)).map Naming.normalize := by
  obtain ⟨s, ds, own, m, shown, bodies, hstems, hm, htext, hargument, hnames, -, -⟩ :=
    names_distinct_iff extract_post (List.mem_singleton_self _) write_post
  exact ⟨extract_post, write_post, s, ds, own, m, shown, bodies, hstems, hm, htext, hargument, hnames⟩

/-- A placeholder and a property of the body have the same name, and the argument of the method has both as fields. -/
theorem post_names_clash : Route.extract "" postPaths = ⟨[], .ok [postExtraction.operation]⟩
    ∧ TypeWriter.writeMethod ⟨[], false, none⟩ postExtraction.operation = ⟨[], .ok postText⟩
    ∧ ∃ m shown, TypeWriter.describeMethod ⟨[], false, none⟩ postExtraction.operation = .ok m ∧ m.text = postText
      ∧ m.argument = .all [.object shown] ∧ ¬ (shown.map (·.name)).Nodup := by
  obtain ⟨m, hm, htext, -⟩ := TypeWriter.exists_describeMethod write_post
  have hargument : ∃ shown, (TypeWriter.describeMethod ⟨[], false, none⟩ postExtraction.operation).map
      (·.argument) = .ok (.all [.object shown]) ∧ shown.map (·.name) = ["id", "userid", "id", "title"] :=
    ⟨[⟨"id", .builtin .string, true⟩, ⟨"userid", .builtin .string, true⟩, ⟨"id", .builtin .string, false⟩,
      ⟨"title", .builtin .string, false⟩], by cbv, rfl⟩
  obtain ⟨shown, hshown, hnames⟩ := hargument
  rw [hm] at hshown
  refine ⟨extract_post, write_post, m, shown, hm, htext, Except.ok.inj hshown, ?_⟩
  rw [hnames]
  decide

end Operations

end TypedClient.Output
