import TypedClient.Proofs.Closure
import TypedClient.Proofs.Grammar

namespace TypedClient

/-!
# The keys of schemas

A schema is declared under a key, and links and mappings denote keys.  The key is put together where the schema is
declared, found again from every spelling of a link, and taken apart to find the file.  All of them agree, also if
the name of the schema has marks of a link in it.

* `Text.trimStart_eq_self`, `Text.trimEnd_eq_self` — texts without blanks at their ends.
* `Link.keyOf_append`, `Link.keyOf_schemaKey` — a link is read piece by piece: its file, and its name as it stands.
* `Resolver.Stored`, `Resolver.exists_stored` — what is stored when schemas are declared, as far as that goes.
* `Resolver.keys_agree` — one schema has one key.
-/

/-! ### Blanks -/

namespace Text

variable {cs : List Char}

theorem trimStart_eq_self (h : ∀ c, cs.head? = some c → isBlank c = false) : trimStart cs = cs := by
  refine List.dropWhile_eq_self_iff.mpr fun hpos => ?_
  have hhead : cs.head? = some cs[0] := by rw [List.head?_eq_getElem?, List.getElem?_eq_getElem hpos]
  rw [h _ hhead]
  exact Bool.false_ne_true

theorem trimEnd_eq_self (h : ∀ c, cs.getLast? = some c → isBlank c = false) : trimEnd cs = cs := by
  have hreverse : trimStart cs.reverse = cs.reverse :=
    trimStart_eq_self fun c hc => h c (by rwa [List.head?_reverse] at hc)
  rw [trimEnd, ← trimStart, hreverse, List.reverse_reverse]

/-- Behind a character that is no blank, blanks are cut off as if nothing stood in front of it. -/
theorem trimEnd_append_cons {c : Char} (hc : isBlank c = false) (front rest : List Char) :
    trimEnd (front ++ c :: rest) = front ++ c :: trimEnd rest := by
  have hkept : (c :: front.reverse).dropWhile isBlank = c :: front.reverse :=
    List.dropWhile_cons_of_neg (by rw [hc]; exact Bool.false_ne_true)
  have hreverse : (front ++ c :: rest).reverse = rest.reverse ++ c :: front.reverse := by simp
  rw [trimEnd, hreverse, List.dropWhile_append, hkept, trimEnd]
  split
  · next hempty => simp [List.isEmpty_iff.mp hempty]
  · simp

end Text

/-! ### Links -/

namespace Link

/-- The name of a schema that a link can speak of: it is not empty and does not end in a blank. -/
def IsName (name : String) : Prop :=
  ∃ c, name.toList.getLast? = some c ∧ Text.isBlank c = false

/-- A file that schemas are declared for: it has no number sign in its name, and the document that generation starts
    from has the empty one. -/
structure IsFile (entry file : String) : Prop where
  noMark : '#' ∉ file.toList
  ne_entry : file ≠ "" → file ≠ entry

/-- A way to write the name of a file in a link. -/
structure Spells (entry file spelling : String) : Prop where
  noMark : '#' ∉ spelling.toList
  first : ∃ c, spelling.toList.head? = some c ∧ Text.isBlank c = false
  canonical : Locator.canonicalFile spelling = .ok (if file = "" then entry else file)

/-- A path below the schemas of a file, with the name of one of them. -/
def isPath (cs : List Char) : Bool :=
  schemasPath.toList.isPrefixOf cs && cs.length != schemasPath.toList.length

variable {scope : Scope} {file front name : String}

/-- **Reading a link.**  The file in front of the first number sign is looked up.  What stands behind it is taken
    without the blanks at its end, and has to be a path below the schemas. -/
theorem keyOf_append (hmark : '#' ∉ front.toList)
    (hfirst : ∀ c, front.toList.head? = some c → Text.isBlank c = false) (pointer : String) :
    keyOf scope (front ++ "#" ++ pointer)
      = if isPath (Text.trimEnd pointer.toList) then
          (targetFile scope front).map fun file => file ++ "#" ++ String.ofList (Text.trimEnd pointer.toList)
        else .error (.invalidLink (front ++ "#" ++ pointer)) := by
  have hlink : (front ++ "#" ++ pointer).toList = front.toList ++ '#' :: pointer.toList := by
    simp [String.toList_append]
  have htrim : Text.trim (front ++ "#" ++ pointer).toList
      = front.toList ++ '#' :: Text.trimEnd pointer.toList := by
    -- If the file is empty, the number sign stands first, and it is no blank either.
    have hstart : ∀ c, (front.toList ++ '#' :: pointer.toList).head? = some c → Text.isBlank c = false := by
      intro c hc
      rw [List.head?_append, Option.or_eq_some_iff] at hc
      rcases hc with hc | ⟨-, hc⟩
      · exact hfirst c hc
      · cases hc
        decide
    rw [hlink, Text.trim, Text.trimStart_eq_self hstart, Text.trimEnd_append_cons (by decide)]
  have hbefore : String.ofList (Text.before '#' (front.toList ++ '#' :: Text.trimEnd pointer.toList)) = front := by
    rw [Text.before, Text.takeWhile_ne_of_notMem hmark, List.takeWhile_cons_of_neg (by simp), List.append_nil,
      String.ofList_toList]
  have hafter : Text.after? '#' (front.toList ++ '#' :: Text.trimEnd pointer.toList)
      = some (Text.trimEnd pointer.toList) := Schema.after?_eq_some_iff.mpr ⟨_, rfl, hmark⟩
  simp only [keyOf, htrim, hafter, hbefore]
  show (if isPath (Text.trimEnd pointer.toList) = true then _ else _) = _
  by_cases hpath : isPath (Text.trimEnd pointer.toList) = true
  · rw [if_pos hpath, if_pos hpath]
    cases targetFile scope front <;> rfl
  · rw [if_neg hpath, if_neg hpath]
    rfl

/-- A link without a file is one to the file that it stands in. -/
theorem keyOf_mark (scope : Scope) (pointer : String) :
    keyOf scope ("#" ++ pointer)
      = if isPath (Text.trimEnd pointer.toList) then
          .ok (scope.file ++ "#" ++ String.ofList (Text.trimEnd pointer.toList))
        else .error (.invalidLink ("#" ++ pointer)) := by
  have hempty : '#' ∉ "".toList := by decide
  have hown : targetFile scope "" = .ok scope.file := rfl
  rw [← String.empty_append (s := "#"), keyOf_append hempty (by simp), hown]
  rfl

/-- A link with a file is a link without one in the file that it names. -/
theorem keyOf_append_eq_ok_iff (hmark : '#' ∉ front.toList)
    (hfirst : ∀ c, front.toList.head? = some c → Text.isBlank c = false) {pointer key : String} :
    keyOf scope (front ++ "#" ++ pointer) = .ok key
      ↔ ∃ file, targetFile scope front = .ok file ∧ keyOf ⟨scope.entry, file⟩ ("#" ++ pointer) = .ok key := by
  simp only [keyOf_append hmark hfirst, keyOf_mark]
  by_cases hpath : isPath (Text.trimEnd pointer.toList) = true
  · simp only [if_pos hpath]
    cases targetFile scope front with
    | error e => simp [Except.map]
    | ok file => simp [Except.map]
  · simp [hpath]

/-- The name of a schema is taken as it stands. -/
theorem keyOf_schemaKey (hname : IsName name) (hmark : '#' ∉ front.toList)
    (hfirst : ∀ c, front.toList.head? = some c → Text.isBlank c = false) :
    keyOf scope (schemaKey front name) = (targetFile scope front).map fun file => schemaKey file name := by
  obtain ⟨last, hlast, hblank⟩ := hname
  have hkey (file : String) : schemaKey file name = file ++ "#" ++ (schemasPath ++ name) := by
    rw [schemaKey, String.append_assoc]
  -- The name ends with a character that is no blank, so nothing is taken off it.
  have htrim : Text.trimEnd (schemasPath ++ name).toList = schemasPath.toList ++ name.toList := by
    rw [String.toList_append]
    refine Text.trimEnd_eq_self fun c hc => ?_
    rw [List.getLast?_append, hlast] at hc
    cases hc
    exact hblank
  have hpath : isPath (schemasPath.toList ++ name.toList) = true := by
    have hne : name.toList ≠ [] := by
      intro hnil
      rw [hnil] at hlast
      cases hlast
    have := List.length_pos_of_ne_nil hne
    rw [isPath, Bool.and_eq_true, List.isPrefixOf_iff_prefix, bne_iff_ne, List.length_append]
    exact ⟨List.prefix_append .., by omega⟩
  have htext : String.ofList (schemasPath.toList ++ name.toList) = schemasPath ++ name := by
    rw [← String.toList_append, String.ofList_toList]
  simp only [hkey]
  rw [keyOf_append hmark hfirst, htrim, if_pos hpath, htext]

/-- A link without a file denotes the schema of the file that it stands in. -/
theorem keyOf_own (hname : IsName name) :
    keyOf scope ("#/components/schemas/" ++ name) = .ok (schemaKey scope.file name) := by
  have hlink : "#/components/schemas/" ++ name = schemaKey "" name := rfl
  rw [hlink, keyOf_schemaKey hname (by decide) (by simp)]
  rfl

/-- A link with a file denotes its schema, wherever it stands and however it spells the file. -/
theorem keyOf_spelled {entry spelling : String} (hname : IsName name) (hfile : IsFile entry file)
    (h : Spells entry file spelling) (current : String) :
    keyOf ⟨entry, current⟩ (spelling ++ "#/components/schemas/" ++ name) = .ok (schemaKey file name) := by
  obtain ⟨c, hc, hblank⟩ := h.first
  have hlink : spelling ++ "#/components/schemas/" ++ name = schemaKey spelling name := by
    show spelling ++ ("#" ++ schemasPath) ++ name = _
    rw [← String.append_assoc, schemaKey]
  have hne : spelling ≠ "" := by
    rintro rfl
    cases hc
  have htarget : targetFile ⟨entry, current⟩ spelling = .ok file := by
    rw [targetFile, if_neg hne, h.canonical]
    by_cases hempty : file = ""
    · simp [hempty, pure, Except.pure]
    · simp [hempty, hfile.ne_entry hempty, pure, Except.pure]
  rw [hlink, keyOf_schemaKey hname h.noMark, htarget]
  · rfl
  · intro d hd
    rw [hc] at hd
    cases hd
    exact hblank

/-- The bare name of a schema in a mapping denotes the schema of the file that it stands in. -/
theorem keyOf_mapped (hname : IsName name) (hmark : '#' ∉ name.toList) :
    (do keyOfValue scope (← ofMapping (.text name))) = .ok (schemaKey scope.file name) := by
  have hlink : "#" ++ schemasPath ++ name = "#/components/schemas/" ++ name := rfl
  rw [Schema.ofMapping_text, Schema.mappedLink, if_neg hmark, hlink, Except.ok_bind, keyOfValue, keyOf_own hname]

end Link

/-! ### Declarations -/

namespace Resolver

/-- What is stored when schemas of a file are declared: those with the first names, as far as that goes. -/
structure Stored (r : Resolver) (file : String) (schemas : List (Value × Value)) (names : List String)
    (r' : Resolver) : Prop where
  first : names.map Value.text <+: schemas.map Prod.fst
  /-- Each of them is stored under the key of its name. -/
  get?_schemaKey : ∀ name ∈ names, ∃ schema d, (.text name, schema) ∈ schemas
    ∧ r'.registry.get? (Link.schemaKey file name) = some d ∧ Declares (r.scope file) name schema d
  /-- Nothing is stored under another key. -/
  get?_other : ∀ key, (∀ name ∈ names, key ≠ Link.schemaKey file name) → r'.registry.get? key = r.registry.get? key

variable {r r' : Resolver} {file name : String} {schemas : List (Value × Value)}

theorem Stored.nil (h : r'.registry = r.registry) : Stored r file schemas [] r' where
  first := List.nil_prefix
  get?_schemaKey := nofun
  get?_other key _ := by rw [h]

/-- What is stored if one more schema is declared first. -/
theorem Stored.cons {schema : Value} {log names : List String} {type : ClientType}
    (hconverts : Schema.Converts (r.scope file) schema log type)
    (h : Stored ((r.noteLinks log).declare file name type) file schemas names r') :
    Stored r file ((.text name, schema) :: schemas) (name :: names) r' where
  first := by
    rw [List.map_cons, List.map_cons, List.cons_prefix_cons]
    exact ⟨rfl, h.first⟩
  get?_schemaKey other hother := by
    by_cases hlater : other ∈ names
    · obtain ⟨described, d, hmem, hget, hdeclares⟩ := h.get?_schemaKey other hlater
      rw [scope_converted] at hdeclares
      exact ⟨described, d, List.mem_cons_of_mem _ hmem, hget, hdeclares⟩
    · -- No later schema has the name, so what is stored first stays.
      obtain rfl : other = name := (List.mem_cons.mp hother).resolve_right hlater
      have hkeep : ∀ later ∈ names, Link.schemaKey file other ≠ Link.schemaKey file later := by
        intro later hmem heq
        rw [Link.schemaKey, Link.schemaKey, String.append_right_inj] at heq
        exact hlater (heq ▸ hmem)
      have hget := h.get?_other _ hkeep
      rw [registry_declare, Table.get?_put, if_pos (beq_self_eq_true _)] at hget
      exact ⟨schema, _, List.mem_cons_self, hget, rfl, rfl, log, hconverts⟩
  get?_other key hkey := by
    rw [List.forall_mem_cons] at hkey
    rw [h.get?_other key hkey.2, registry_declare, Table.get?_put, registry_noteLinks,
      if_neg (by rw [beq_iff_eq]; exact hkey.1)]

/-- Declaring schemas stores them one after the other, all of them if it succeeds. -/
theorem exists_stored (r : Resolver) (file : String) (schemas : List (Value × Value)) :
    ∃ names, Stored r file schemas names (r.registerSchemas file schemas).2
      ∧ ((r.registerSchemas file schemas).1 = .ok () → names.map Value.text = schemas.map Prod.fst) := by
  induction schemas generalizing r with
  | nil => exact ⟨[], .nil rfl, fun _ => rfl⟩
  | cons e rest ih =>
    obtain ⟨key, schema⟩ := e
    unfold registerSchemas
    cases hname : key.asText with
    -- The first schema that cannot be declared ends the list of those that are stored.
    | error e => exact ⟨[], .nil rfl, fun hok => by cases hok⟩
    | ok name =>
      rw [Schema.asText_eq_ok_iff.mp hname]
      cases hconvert : Schema.convert (r.scope file) schema with
      | mk log result =>
        cases result with
        | error e =>
          simp only [convert, run, hconvert]
          exact ⟨[], .nil registry_noteLinks, fun hok => by cases hok⟩
        | ok type =>
          simp only [convert, run, hconvert]
          obtain ⟨names, hstored, hall⟩ := ih ((r.noteLinks log).declare file name type)
          refine ⟨name :: names, hstored.cons (Schema.convert_eq_ok_iff.mp hconvert), fun hok => ?_⟩
          rw [List.map_cons, List.map_cons, hall hok]

/-! ### One schema, one key -/

/-- All ways to the schema `name` of a file lead to the same key, and to no other schema. -/
structure KeysAgree (r : Resolver) (file name : String) : Prop where
  /-- Declaring the schemas of a document stores this one under its key. -/
  declared : ∀ document schemas, schemasOf document = .ok schemas →
    ∃ names, Stored r file schemas names (r.register file document).2
      ∧ ((r.register file document).1 = .ok () → names.map Value.text = schemas.map Prod.fst)
  own : Link.keyOf (r.scope file) ("#/components/schemas/" ++ name) = .ok (Link.schemaKey file name)
  spelled : ∀ spelling, Link.Spells r.entry file spelling → ∀ current,
    Link.keyOf (r.scope current) (spelling ++ "#/components/schemas/" ++ name) = .ok (Link.schemaKey file name)
  mapped : '#' ∉ name.toList →
    (do Link.keyOfValue (r.scope file) (← Link.ofMapping (.text name))) = .ok (Link.schemaKey file name)
  unique : ∀ other name', Link.IsFile r.entry other → Link.schemaKey other name' = Link.schemaKey file name →
    other = file ∧ name' = name
  fileOf_key : Link.fileOf (Link.schemaKey file name) = file
  /-- A link to the schema becomes a reference, and queues the file that holds the schema. -/
  queued : ∀ current link, Link.keyOf (r.scope current) link = .ok (Link.schemaKey file name) →
    (r.reference current (.text link)).1 = .ok (.ref (Link.schemaKey file name))
      ∧ (r.reference current (.text link)).2.queue
        = if Link.schemaKey file name ∈ r.registry.keys ∨ file ∈ r.loaded ∨ file ∈ r.queue then r.queue
          else r.queue ++ [file]

/-- A link queues the file of its key, unless the key is declared or the file is loaded or queued. -/
theorem queue_noteLink (r : Resolver) (key : String) :
    (r.noteLink key).queue = if key ∈ r.registry.keys ∨ Link.fileOf key ∈ r.loaded ∨ Link.fileOf key ∈ r.queue
      then r.queue else r.queue ++ [Link.fileOf key] := by
  unfold noteLink
  by_cases hdeclared : key ∈ r.registry.keys
  · rw [if_pos (Table.isSome_get?_iff.mpr hdeclared), if_pos (.inl hdeclared)]
  · rw [if_neg (mt Table.isSome_get?_iff.mp hdeclared)]
    simp only [hdeclared, false_or, List.contains_eq_mem, Bool.or_eq_true, decide_eq_true_eq]

/-- **One schema has one key.**  It is stored under the key that links to it denote, from any file and however they
    spell its own, and that a mapping denotes by its bare name.  Other schemas have other keys, and the file that
    is queued for the key is the one that holds the schema. -/
theorem keys_agree (r : Resolver) (hfile : Link.IsFile r.entry file) (hname : Link.IsName name) :
    r.KeysAgree file name where
  declared document schemas hschemas := by
    rw [register, hschemas]
    exact exists_stored r file schemas
  own := Link.keyOf_own hname
  spelled _ hspells current := Link.keyOf_spelled hname hfile hspells current
  mapped hmark := Link.keyOf_mapped hname hmark
  unique _ _ hother heq := Bundle.schemaKey_inj hother.noMark hfile.noMark heq
  fileOf_key := Bundle.fileOf_schemaKey hfile.noMark name
  queued current link hkey := by
    have hreference : r.reference current (.text link)
        = (.ok (.ref (Link.schemaKey file name)), r.noteLink (Link.schemaKey file name)) := by
      rw [reference, Link.keyOfValue, hkey]
    rw [hreference, queue_noteLink, Bundle.fileOf_schemaKey hfile.noMark]
    exact ⟨rfl, rfl⟩

/-- A schema whose name looks like a link, in a file whose name is spelled in a roundabout way. -/
theorem oddKey_agrees :
    Link.IsFile "main.yaml" "b.yaml" ∧ Link.IsName "a#/b c" ∧ Link.Spells "main.yaml" "b.yaml" "x/../b.yaml"
      ∧ Link.keyOf ⟨"main.yaml", "c.yaml"⟩ ("x/../b.yaml" ++ "#/components/schemas/" ++ "a#/b c")
        = .ok (Link.schemaKey "b.yaml" "a#/b c")
      ∧ Link.fileOf (Link.schemaKey "b.yaml" "a#/b c") = "b.yaml" := by
  have hfile : Link.IsFile "main.yaml" "b.yaml" := ⟨by decide, fun _ => by decide⟩
  have hname : Link.IsName "a#/b c" := ⟨'c', rfl, by decide⟩
  have hspells : Link.Spells "main.yaml" "b.yaml" "x/../b.yaml" := ⟨by decide, ⟨'x', rfl, by decide⟩, by cbv⟩
  have hagree : (fresh "" "main.yaml").KeysAgree "b.yaml" "a#/b c" := keys_agree _ hfile hname
  exact ⟨hfile, hname, hspells, hagree.spelled "x/../b.yaml" hspells "c.yaml", hagree.fileOf_key⟩

end Resolver

end TypedClient
