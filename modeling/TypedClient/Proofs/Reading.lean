import TypedClient.Loading
import TypedClient.Proofs.Closure
import TypedClient.Proofs.Paths

namespace TypedClient

open TypedClient.Path (IsName IsRoot rooted inner)

/-!
# Which documents are read

Files are known by their canonical names, and a document is read once for each of them.  Canonical names are made
from the spelling of a file alone.  Inside of the directory of the first document each file has one; a name
that leads out of this directory can lead back in, and then it is another name of a file inside.

* `Link.keyOfValue_eq_ok` — what the key of a link is made of.
* `Bundle.exists_asksFor` — the documents asked for are those of different reachable files.
* `Bundle.Place` — where a bundle is, and what its first document is called there.
* `Job.read_once` — no document is read twice under names that stay inside of its directory.
* `selfLinked_read_twice` — a document that is read twice.
-/

namespace Link

/-- The key of a link is a file and a place in it; the file is that of a name without number signs. -/
theorem keyOfValue_eq_ok {scope : Scope} {link : Value} {key : String} (h : keyOfValue scope link = .ok key) :
    ∃ file pointer target, '#' ∉ file.toList ∧ targetFile scope file = .ok target
      ∧ key = target ++ "#" ++ pointer := by
  unfold keyOfValue at h
  split at h
  · next s =>
    simp only [keyOf] at h
    split at h
    · cases h
    · next pointer _ =>
      split at h
      · obtain ⟨target, htarget, hkey⟩ := Except.bind_eq_ok.mp h
        cases hkey
        refine ⟨_, _, target, ?_, htarget, rfl⟩
        rw [String.toList_ofList]
        exact Text.notMem_before '#' _
      · cases h
  · cases h
  · cases h

/-- A link without a file stays in its file; the first document has the empty name, and all others have
    canonical ones. -/
theorem targetFile_eq_ok {scope : Scope} {file target : String} (h : targetFile scope file = .ok target) :
    target = scope.file ∨ target = ""
      ∨ target ≠ scope.entry ∧ Locator.canonicalFile file = .ok target := by
  unfold targetFile at h
  by_cases hempty : file = ""
  · rw [if_pos hempty] at h
    cases h
    exact .inl rfl
  · rw [if_neg hempty] at h
    obtain ⟨canonical, hcanonical, htarget⟩ := Except.bind_eq_ok.mp h
    by_cases hentry : canonical = scope.entry
    · rw [if_pos hentry] at htarget
      cases htarget
      exact .inr (.inl rfl)
    · rw [if_neg hentry] at htarget
      cases htarget
      exact .inr (.inr ⟨hentry, hcanonical⟩)

/-- What stands before the first number sign of an address is an address. -/
theorem isUrl_fileOf {address : String} (h : Locator.isUrl address = true) (pointer : String) :
    Locator.isUrl (fileOf (address ++ "#" ++ pointer)) = true := by
  have hfile : (fileOf (address ++ "#" ++ pointer)).toList
      = (address.toList ++ ("#" ++ pointer).toList).takeWhile (· != '#') := by
    rw [fileOf, String.toList_ofList, Text.before, String.append_assoc, String.toList_append]
  have hscheme : ∀ scheme : List Char, (∀ c ∈ scheme, (c != '#') = true) → scheme <+: address.toList →
      scheme <+: (fileOf (address ++ "#" ++ pointer)).toList := by
    rintro scheme hscheme ⟨rest, hrest⟩
    rw [hfile, ← hrest, List.append_assoc, List.takeWhile_append_of_pos hscheme]
    exact List.prefix_append scheme _
  unfold Locator.isUrl at h ⊢
  rw [Bool.or_eq_true, String.startsWith_string_iff, String.startsWith_string_iff] at h ⊢
  exact h.imp (hscheme _ (by simp)) (hscheme _ (by simp))

end Link

namespace Bundle

variable {b : Bundle} {r r' : Resolver} {file other : String} {files : List String}

/-! ### Names of files -/

/-- **Names of local files.**  A local file that can be reached has a canonical name, and this is not the
    one of the first document. -/
theorem Reachable.exists_normalizeChars (h : b.Reachable file) (hne : file ≠ "")
    (hlocal : Locator.isUrl file = false) : file ≠ b.entry
      ∧ ∃ cs, '\\' ∉ cs ∧ file = String.ofList (Path.normalizeChars cs) := by
  induction h with
  | first => exact absurd rfl hne
  | @link outer key houter hmentions ih =>
    obtain ⟨schema, -, link, -, hkey⟩ := hmentions
    obtain ⟨name, pointer, target, hname, htarget, rfl⟩ := Link.keyOfValue_eq_ok hkey
    -- A link names its own file, the first document, or a file by its canonical name.
    rcases Link.targetFile_eq_ok htarget with hsame | rfl | ⟨hentry, hcanonical⟩
    · have hfile : Link.fileOf (target ++ "#" ++ pointer) = outer := by
        rw [hsame]
        exact fileOf_append houter.notMem pointer
      rw [hfile] at hne hlocal ⊢
      exact ih hne hlocal
    · exact absurd (fileOf_append (by simp) pointer) hne
    · have hfile : Locator.isUrl name = false := by
        rw [Bool.eq_false_iff]
        intro hurl
        rw [Link.isUrl_fileOf (Locator.isUrl_canonicalFile hurl hcanonical)] at hlocal
        cases hlocal
      have hmark := Locator.notMem_canonicalFile hname hcanonical
      obtain ⟨cs, hback, -, hnormal⟩ := Locator.canonicalFile_of_local hfile
      rw [hnormal] at hcanonical
      cases hcanonical
      rw [fileOf_append hmark]
      exact ⟨hentry, cs, hback, rfl⟩

/-! ### Documents asked for -/

/-- The documents asked for are those of these files, which have been loaded after the first document: different
    files that can be reached. -/
structure AsksFor (b : Bundle) (files : List String) (r : Resolver) : Prop where
  loaded_eq : r.loaded = "" :: files
  once : files.Nodup
  linked : ∀ file ∈ files, b.Reachable file ∧ file ≠ ""
  asked_eq : r.asked = files.map (Path.join b.base)

/-- Declaring schemas loads no files and asks for no documents. -/
theorem loaded_registerSchemas (r : Resolver) (file : String) (schemas : List (Value × Value)) :
    (r.registerSchemas file schemas).2.loaded = r.loaded
      ∧ (r.registerSchemas file schemas).2.asked = r.asked := by
  induction schemas generalizing r with
  | nil => exact ⟨rfl, rfl⟩
  | cons e rest ih =>
    obtain ⟨key, schema⟩ := e
    unfold Resolver.registerSchemas
    split
    · exact ⟨rfl, rfl⟩
    · next name _ =>
      have hconvert : (r.convert file schema).2.loaded = r.loaded
          ∧ (r.convert file schema).2.asked = r.asked :=
        ⟨Resolver.loaded_noteLinks, Resolver.asked_noteLinks⟩
      generalize r.convert file schema = converted at *
      obtain ⟨result, r₁⟩ := converted
      cases result with
      | error e => exact hconvert
      | ok type =>
        have hrest := ih (r₁.declare file name type)
        exact ⟨hrest.1.trans hconvert.1, hrest.2.trans hconvert.2⟩

theorem loaded_register (r : Resolver) (file : String) (document : Value) :
    (r.register file document).2.loaded = r.loaded ∧ (r.register file document).2.asked = r.asked := by
  unfold Resolver.register
  split
  · exact loaded_registerSchemas r file _
  · exact ⟨rfl, rfl⟩

/-- What is asked for does not depend on anything but what has been asked for and loaded. -/
theorem AsksFor.congr (h : b.AsksFor files r) (hsame : r'.loaded = r.loaded ∧ r'.asked = r.asked) :
    b.AsksFor files r' where
  loaded_eq := hsame.1.trans h.loaded_eq
  once := h.once
  linked := h.linked
  asked_eq := hsame.2.trans h.asked_eq

/-- **One more document.**  Whatever comes of loading a file of the queue, its document is asked for, and no
    other is. -/
theorem AsksFor.load (h : b.AsksFor files r) (hbase : Locator.isUrl b.base = false) (hsettled : b.Settled r)
    (hfile : file ∈ r.queue) : b.AsksFor (files ++ [file]) (r.load b.source file).2 := by
  have hnew : file ∉ r.loaded := hsettled.consistent.queue_new file hfile
  have hjoin : Locator.join r.base file = .ok (Path.join b.base file) := by
    rw [hsettled.base_eq, Locator.join_of_local hbase]
  -- The file is noted before anything comes of its document, so the outcome does not matter.
  have hasking : b.AsksFor (files ++ [file]) ((r.taken file).asking (Path.join b.base file)) := by
    refine ⟨?_, ?_, ?_, ?_⟩
    · show (if r.loaded.contains file then r.loaded else r.loaded ++ [file]) = "" :: (files ++ [file])
      rw [if_neg (by simpa using hnew), h.loaded_eq]
      rfl
    · refine h.once.append (List.nodup_singleton file) ?_
      rw [List.disjoint_singleton]
      intro hmem
      rw [h.loaded_eq] at hnew
      exact hnew (List.mem_cons_of_mem "" hmem)
    · intro other hother
      rcases List.mem_append.mp hother with hother | hother
      · exact h.linked other hother
      · rw [List.mem_singleton.mp hother]
        exact ⟨hsettled.reachable file (.inr hfile), hsettled.ne_first hfile⟩
    · show r.asked ++ [Path.join b.base file] = (files ++ [file]).map (Path.join b.base)
      rw [h.asked_eq, List.map_append]
      rfl
  rw [Resolver.load_eq, hjoin]
  simp only
  split
  · exact hasking
  · exact hasking.congr (loaded_register _ file _)

/-- Loading goes on as long as everything is settled, so only files that can be reached are asked for. -/
theorem AsksFor.loadAll (h : b.AsksFor files r) (hbase : Locator.isUrl b.base = false)
    (hsettled : b.Settled r) (fuel : Nat) : ∃ files', b.AsksFor files' (r.loadAll b.source fuel).2 := by
  induction fuel generalizing r files with
  | zero =>
    unfold Resolver.loadAll
    split
    · exact ⟨files, h⟩
    · exact ⟨files, h⟩
  | succ fuel ih =>
    unfold Resolver.loadAll
    split
    · exact ⟨files, h⟩
    · next file rest hqueue =>
      have hfile : file ∈ r.queue := by
        rw [hqueue]
        exact List.mem_cons_self
      have hload := h.load hbase hsettled hfile
      cases hresult : r.load b.source file with
      | mk result r₁ =>
        rw [hresult] at hload
        cases result with
        -- Loading ends here, but the document has been asked for.
        | error e => exact ⟨_, hload⟩
        | ok _ => exact ih hload (hsettled.load hqueue hresult)

theorem snd_resolve (source : Source) (r : Resolver) :
    (r.resolve source).2 = (r.loadAll source (source.reach + r.queue.length)).2 := by
  unfold Resolver.resolve
  obtain ⟨result, r₁⟩ := r.loadAll source (source.reach + r.queue.length)
  cases result with
  | error e => rfl
  | ok _ =>
    simp only
    split
    · rfl
    · rfl

/-- Reading the first document loads no other. -/
theorem Reads.asksFor {operations : List Operation} (h : b.Reads operations r) : b.AsksFor [] r := by
  obtain ⟨r₁, hregister, hrun⟩ := h
  obtain ⟨log, -, rfl⟩ := run_eq_ok.mp hrun
  obtain ⟨hloaded, hasked⟩ := loaded_register (Resolver.fresh b.base b.entry) "" b.document
  rw [hregister] at hloaded hasked
  exact ⟨Resolver.loaded_noteLinks.trans hloaded, List.nodup_nil, nofun,
    Resolver.asked_noteLinks.trans hasked⟩

theorem andThen_ok {α β : Type} (a : α) (r : Resolver)
    (next : α → Resolver → Except Failure β × Resolver) : Resolver.andThen (.ok a, r) next = next a r := rfl

/-- What holds of a resolver after one action, whether it fails or another one follows, holds after both. -/
theorem snd_andThen {α β : Type} {P : Resolver → Prop} {step : Except Failure α × Resolver}
    {next : α → Resolver → Except Failure β × Resolver}
    (hstop : ∀ e r, step = (.error e, r) → P r) (hgo : ∀ a r, step = (.ok a, r) → P (next a r).2) :
    P (Resolver.andThen step next).2 := by
  obtain ⟨result, r⟩ := step
  cases result with
  | error e => exact hstop e r rfl
  | ok a => exact hgo a r rfl

/-- **What is asked for.**  In every run, also in one that fails, the documents of different files that can be
    reached are asked for. -/
theorem exists_asksFor (b : Bundle) (hbase : Locator.isUrl b.base = false) (namedEnums : Bool) :
    ∃ files, b.AsksFor files (b.describe namedEnums).2 := by
  have hfresh : b.AsksFor [] (Resolver.fresh b.base b.entry) := ⟨rfl, List.nodup_nil, nofun, rfl⟩
  have hfirst := hfresh.congr (loaded_register (Resolver.fresh b.base b.entry) "" b.document)
  unfold describe Resolver.describe
  refine snd_andThen (P := fun r => ∃ files, b.AsksFor files r) (fun e r₁ hregister => ?_)
    fun _ r₁ hregister => ?_
  · rw [hregister] at hfirst
    exact ⟨_, hfirst⟩
  rw [hregister] at hfirst
  obtain ⟨entries, -, hentries⟩ := register_first_eq_ok.mp hregister
  have hentry : r₁.entry = b.entry :=
    (Resolver.registerSchemas_eq_ok (Resolver.fresh_consistent b.base b.entry) hentries).entry_eq
  rw [hentry]
  refine snd_andThen (P := fun r => ∃ files, b.AsksFor files r) (fun e r₂ hrun => ?_)
    fun operations r₂ hrun => ?_
  · have hnoted : r₂ = r₁.noteLinks b.operations.log := (Prod.mk.inj hrun).2.symm
    rw [hnoted]
    exact ⟨_, hfirst.congr ⟨Resolver.loaded_noteLinks, Resolver.asked_noteLinks⟩⟩
  have hreads : b.Reads operations r₂ := ⟨r₁, hregister, hrun⟩
  have hresolve := hreads.asksFor.loadAll hbase hreads.settled (b.source.reach + r₂.queue.length)
  rw [← snd_resolve] at hresolve
  refine snd_andThen (P := fun r => ∃ files, b.AsksFor files r) (fun e r₃ h => ?_) fun _ r₃ h => ?_
  · rwa [h] at hresolve
  rw [h] at hresolve
  -- Checking names and giving them changes nothing about what has been read.
  refine snd_andThen (P := fun r => ∃ files, b.AsksFor files r) (fun e r hcheck => ?_) fun _ r hcheck => ?_
  · rwa [← (Prod.mk.inj hcheck).2]
  · rw [← (Prod.mk.inj hcheck).2]
    obtain ⟨files, hfiles⟩ := hresolve
    cases namedEnums with
    | false => exact ⟨files, hfiles⟩
    | true => exact ⟨files, hfiles.congr ⟨rfl, rfl⟩⟩

/-! ### Where documents are -/

/-- Where a bundle is: its first document has the name `name` in the directory that these names lead to. -/
structure Place (b : Bundle) (root : Nat) (outer : List (List Char)) (name : List Char) : Prop where
  isRoot : IsRoot root
  outer_names : ∀ n ∈ outer, IsName n
  isName : IsName name
  base_eq : b.base = String.ofList (rooted root outer)
  entry_eq : Locator.canonicalFile (String.ofList name) = .ok b.entry

/-- Does a linked file stay in the directory of the first document?  It does if its name is neither an address
    nor leads out. -/
def staysInside (file : String) : Bool :=
  !Locator.isUrl file && !Path.leadsOut file

variable {root : Nat} {outer : List (List Char)} {name : List Char}

/-- **Where a file inside is.**  The names of a file that stays inside say where it is. -/
theorem Place.exists_inner (h : b.Place root outer name) (hfile : b.Reachable file) (hne : file ≠ "")
    (hinside : staysInside file = true) (workingDirectory : String) :
    ∃ names, (∀ n ∈ names, IsName n) ∧ (∀ n ∈ names, '\\' ∉ n) ∧ file = String.ofList (inner names)
      ∧ file ≠ b.entry ∧ Path.absolute workingDirectory (Path.join b.base file)
        = String.ofList (rooted root (outer ++ names)) := by
  rw [staysInside, Bool.and_eq_true, Bool.not_eq_true', Bool.not_eq_true'] at hinside
  obtain ⟨hlocal, hstays⟩ := hinside
  obtain ⟨hentry, cs, hback, hnormal⟩ := hfile.exists_normalizeChars hne hlocal
  rw [hnormal] at hstays
  obtain ⟨names, hnames, hmem, hinner⟩ := Path.exists_normalizeChars_eq_inner hstays
  rw [hinner] at hnormal
  have hrelative : file.startsWith "/" = false := by
    rw [Bool.eq_false_iff, ne_eq, Path.startsWith_slash_iff, hnormal, String.toList_ofList]
    exact Path.head?_inner hnames
  have hnoback : ∀ n ∈ names, '\\' ∉ n := fun n hn hmark =>
    hback (Text.mem_of_mem_pieces (by decide) (hmem n hn) hmark)
  refine ⟨names, hnames, hnoback, hnormal, hentry, ?_⟩
  rw [h.base_eq, Path.absolute_join h.isRoot h.outer_names hrelative, hnormal, String.toList_ofList,
    Path.resolve_append_inner h.outer_names hnames]

/-- Names that follow those of the directory are told apart by where they lead. -/
theorem Place.append_inj (h : b.Place root outer name) {names names' : List (List Char)}
    (hnames : ∀ n ∈ names, IsName n) (hnames' : ∀ n ∈ names', IsName n)
    (heq : String.ofList (rooted root (outer ++ names)) = String.ofList (rooted root (outer ++ names'))) :
    names = names' := by
  have hall : ∀ ns : List (List Char), (∀ n ∈ ns, IsName n) → ∀ n ∈ outer ++ ns, IsName n := by
    intro ns hns n hn
    rcases List.mem_append.mp hn with hn | hn
    · exact h.outer_names n hn
    · exact hns n hn
  rw [String.ofList_inj, Path.rooted_inj (hall names hnames) (hall names' hnames')] at heq
  exact List.append_cancel_left heq

/-- Different names that stay inside lead to different places. -/
theorem Place.eq_of_absolute_eq (h : b.Place root outer name) {workingDirectory : String}
    (hfile : b.Reachable file ∧ file ≠ "") (hinside : staysInside file = true)
    (hother : b.Reachable other ∧ other ≠ "") (hinside' : staysInside other = true)
    (heq : Path.absolute workingDirectory (Path.join b.base file)
      = Path.absolute workingDirectory (Path.join b.base other)) : file = other := by
  obtain ⟨names, hnames, -, hfile, -, hplace⟩ := h.exists_inner hfile.1 hfile.2 hinside workingDirectory
  obtain ⟨names', hnames', -, hother, -, hplace'⟩ :=
    h.exists_inner hother.1 hother.2 hinside' workingDirectory
  rw [hplace, hplace'] at heq
  rw [hfile, hother, h.append_inj hnames hnames' heq]

/-- No name that stays inside leads to the first document. -/
theorem Place.absolute_ne (h : b.Place root outer name) (hfile : b.Reachable file ∧ file ≠ "")
    (hinside : staysInside file = true) (workingDirectory : String) :
    Path.absolute workingDirectory (Path.join b.base file)
      ≠ String.ofList (rooted root (outer ++ [name])) := by
  obtain ⟨names, hnames, hback, hinner, hentry, hplace⟩ :=
    h.exists_inner hfile.1 hfile.2 hinside workingDirectory
  intro heq
  rw [hplace] at heq
  have hname : names = [name] := by
    refine h.append_inj hnames (fun n hn => ?_) heq
    rw [List.mem_singleton.mp hn]
    exact h.isName
  subst hname
  -- The only file of this name is the first document, which is known under another name.
  have hcanonical : Locator.canonicalFile (String.ofList name) = .ok (String.ofList name) := by
    refine Locator.canonicalFile_of_isName ?_ ?_
    · rw [String.toList_ofList]
      exact h.isName
    · rw [String.toList_ofList]
      exact hback name List.mem_cons_self
  rw [h.entry_eq, Except.ok.injEq] at hcanonical
  exact hentry (hinner.trans hcanonical.symm)

end Bundle

/-- A document with a name is known under the canonical one. -/
theorem Resolver.canonicalFile_of_start {base entry : String} {r : Resolver} (hne : entry ≠ "")
    (h : Resolver.start base entry = .ok r) : Locator.canonicalFile entry = .ok r.entry := by
  unfold Resolver.start at h
  rw [if_neg hne] at h
  obtain ⟨canonical, hcanonical, h⟩ := Except.bind_eq_ok.mp h
  cases h
  exact hcanonical

/-- Every path to a working directory begins at the root. -/
theorem Disk.startsWith_workingPath (d : Disk) : d.workingPath.startsWith "/" = true := by
  have hslash : ∀ s : String, (Text.marked ("/" ++ s)).toList.head? = some '/' := by
    intro s
    have hchars : ("/" ++ s).toList = '/' :: s.toList := by simp
    unfold Text.marked
    split
    · have hplain : Text.isReserved '/' = false := by decide
      rw [String.toList_ofList, hchars, Text.markedChars, List.flatMap_cons, hplain]
      rfl
    · rw [hchars]
      rfl
  rw [Path.startsWith_slash_iff, Disk.workingPath]
  exact hslash _

namespace Job

variable {s : Storage} {locator : String} {job : Job}

/-- A generation that starts from a local file is that of a bundle with a place. -/
theorem exists_place (hlocal : Locator.isUrl locator = false)
    (hname : IsName (Path.fileName locator).toList) (hstart : start s locator = .ok job) :
    ∃ (b : Bundle) (root : Nat) (outer : List (List Char)),
      b.Place root outer (Path.fileName locator).toList
        ∧ (∀ namedEnums, job.describe namedEnums = b.describe namedEnums)
        ∧ b.base = job.resolver.base
        ∧ Path.absolute s.disk.workingPath locator
          = String.ofList (rooted root (outer ++ [(Path.fileName locator).toList])) := by
  obtain ⟨document, -, hstart⟩ := Except.bind_eq_ok.mp hstart
  obtain ⟨base, hbase, hstart⟩ := Except.bind_eq_ok.mp hstart
  obtain ⟨entry, hentry, hstart⟩ := Except.bind_eq_ok.mp hstart
  obtain ⟨r, hr, hjob⟩ := Except.bind_eq_ok.mp hstart
  cases hjob
  rw [Locator.base_of_local hlocal, Except.ok.injEq] at hbase
  rw [Locator.entry_of_local hlocal, Except.ok.injEq] at hentry
  subst hbase hentry
  obtain ⟨root, outer, hroot, houter, habsolute, hdirectory⟩ :=
    Path.exists_absolute s.disk.startsWith_workingPath hname
  have hfresh := Resolver.eq_fresh_of_start hr
  have hfile : Path.fileName locator ≠ "" := by
    intro hempty
    rw [hempty] at hname
    exact hname.ne_nil rfl
  refine ⟨⟨s.source, Path.directory (Path.absolute s.disk.workingPath locator), r.entry, document⟩,
    root, outer, ⟨hroot, houter, hname, hdirectory, ?_⟩, ?_, ?_, habsolute⟩
  · rw [String.ofList_toList]
    exact Resolver.canonicalFile_of_start hfile hr
  · intro namedEnums
    rw [Job.describe, Bundle.describe, ← hfresh]
  · exact (congrArg Resolver.base hfresh).symm

end Job

/-! ### A document that is read twice -/

/-- A document in the only file of a disk. -/
def diskWith (content : ByteArray) : Disk :=
  ⟨[(["w", "d", "m.json"], content)], [], ["w"]⟩

/-- The document links to itself through the name of its directory. -/
def selfText : String :=
  "\x7b\"components\":\x7b\"schemas\":\x7b\"A\":\x7b\"type\":\"array\",\"items\":"
    ++ "\x7b\"$ref\":\"../d/m.json#/components/schemas/B\"\x7d\x7d,"
    ++ "\"B\":\x7b\"type\":\"string\"\x7d\x7d\x7d\x7d"

def selfLinked : Storage :=
  ⟨diskWith selfText.toUTF8, []⟩

def selfKey : String := "../d/m.json#/components/schemas/B"

def selfSchemas : List (Value × Value) :=
  [(.text "A", .map [(.text "type", .text "array"), (.text "items", .map [(.text "$ref", .text selfKey)])]),
    (.text "B", .map [(.text "type", .text "string")])]

def selfDocument : Value :=
  .map [(.text "components", .map [(.text "schemas", .map selfSchemas)])]

theorem parse_selfText : Json.parse selfText = .ok selfDocument := by cbv

/-- Text is read as it was written if its lines end in line feeds and all of its characters stand for themselves. -/
theorem readText_of_find {s : Storage} {locator text : String} (hlocal : Locator.isUrl locator = false)
    (hfind : s.disk.find locator = .ok (.file text.toUTF8))
    (hbreaks : Disk.unifyBreaks text.toList = text.toList) (hmarked : Text.marked text = text) :
    s.readText locator = .ok text := by
  have hread : s.disk.read locator = .ok text.toUTF8 := by
    rw [Disk.read, hfind]
    rfl
  have hdecode : String.fromUTF8? text.toUTF8 = some text := by
    simp [String.fromUTF8?, String.toUTF8, String.fromUTF8, text.isValidUTF8]
  rw [Storage.readText, if_neg (by rw [hlocal]; exact Bool.false_ne_true), Disk.readText, hread,
    Except.ok_bind, Disk.decode, hdecode, Option.map_some, hbreaks, String.ofList_toList, hmarked]
  rfl

theorem readDocument_self {locator : String} (hlocal : Locator.isUrl locator = false)
    (hjson : locator.endsWith ".json" = true)
    (hfind : selfLinked.disk.find locator = .ok (.file selfText.toUTF8)) :
    selfLinked.readDocument locator = .ok selfDocument := by
  have hbreaks : Disk.unifyBreaks selfText.toList = selfText.toList := by cbv
  have hmarked : Text.marked selfText = selfText := by
    rw [Text.marked, if_neg (by decide +kernel)]
  have htext := readText_of_find hlocal hfind hbreaks hmarked
  rw [Storage.readDocument, htext, Except.ok_bind, Storage.parseText, if_pos hjson, parse_selfText]
  rfl

theorem step_self (content : ByteArray) :
    (diskWith content).step ["w"] ['d'] = .ok ["w", "d"]
      ∧ (diskWith content).step ["w", "d"] "m.json".toList = .ok ["w", "d", "m.json"]
      ∧ (diskWith content).step [] [] = .ok []
      ∧ (diskWith content).step [] ['w'] = .ok ["w"]
      ∧ (diskWith content).step ["w", "d"] ['.', '.'] = .ok ["w"] :=
  ⟨by cbv, by cbv, by cbv, by cbv, by cbv⟩

theorem plain?_self : Text.plain? "d/m.json" = some "d/m.json"
    ∧ Text.plain? "/w/d/../d/m.json" = some "/w/d/../d/m.json" := by
  decide +kernel

/-- Both spellings lead to the file. -/
theorem find_self (content : ByteArray) : (diskWith content).find "d/m.json" = .ok (.file content)
    ∧ (diskWith content).find "/w/d/../d/m.json" = .ok (.file content) := by
  have hentry : (diskWith content).entryAt ["w", "d", "m.json"] = .file content := by cbv
  obtain ⟨hd, hfile, hempty, hw, hback⟩ := step_self content
  constructor
  · have hpieces : Text.pieces '/' "d/m.json".toList = [['d'], "m.json".toList] := by cbv
    have hwalk : (diskWith content).walk "d/m.json" = .ok ["w", "d", "m.json"] := by
      rw [Disk.walk, plain?_self.1]
      simp only
      rw [if_neg (by decide +kernel), if_neg (by decide +kernel), if_neg (by decide +kernel),
        if_neg (by decide +kernel), hpieces]
      show List.foldlM _ ["w"] _ = _
      simp only [List.foldlM_cons, hd, hfile, Except.ok_bind, List.foldlM_nil]
      rfl
    rw [Disk.find, hwalk, Except.map, hentry]
  · have hpieces : Text.pieces '/' "/w/d/../d/m.json".toList
        = [[], ['w'], ['d'], ['.', '.'], ['d'], "m.json".toList] := by cbv
    have hwalk : (diskWith content).walk "/w/d/../d/m.json" = .ok ["w", "d", "m.json"] := by
      rw [Disk.walk, plain?_self.2]
      simp only
      rw [if_neg (by decide +kernel), if_neg (by decide +kernel), if_neg (by decide +kernel),
        if_pos (by cbv), hpieces]
      simp only [List.foldlM_cons, hd, hfile, hempty, hw, hback, Except.ok_bind, List.foldlM_nil]
      rfl
    rw [Disk.find, hwalk, Except.map, hentry]

theorem workingPath_self : selfLinked.disk.workingPath = "/w" := by
  have hpath : ∀ content : ByteArray, (diskWith content).workingPath = "/w" := by
    intro content
    cbv
  exact hpath selfText.toUTF8

/-- The generation for the document. -/
def selfJob : Job :=
  ⟨selfLinked.source, selfDocument, Resolver.fresh "/w/d" "m.json"⟩

theorem start_self : Job.start selfLinked "d/m.json" = .ok selfJob := by
  have hlocal : Locator.isUrl "d/m.json" = false := by cbv
  have hdocument := readDocument_self hlocal (by cbv) (find_self _).1
  have hbase : Locator.base selfLinked.disk.workingPath "d/m.json" = .ok "/w/d" := by
    rw [workingPath_self]
    cbv
  have hentry : Locator.entry "d/m.json" = .ok "m.json" := by cbv
  have hstart : Resolver.start "/w/d" "m.json" = .ok (Resolver.fresh "/w/d" "m.json") := by cbv
  rw [Job.start, hdocument, Except.ok_bind, hbase, Except.ok_bind, hentry, Except.ok_bind, hstart]
  rfl

/-- What is declared and noted when the schemas of the document are registered under the name of a file. -/
def selfRegistered (r : Resolver) (file : String) : Resolver :=
  (((r.noteLinks [selfKey]).declare file "A" (.array (.ref selfKey))).noteLinks []).declare file "B" .string

/-- The link denotes a schema of the file that it names, wherever it stands. -/
theorem registerSchemas_self (r : Resolver) (file : String) (hentry : r.entry = "m.json") :
    r.registerSchemas file selfSchemas = (.ok (), selfRegistered r file) := by
  have hkey : Link.keyOfValue ⟨"m.json", file⟩ (.text selfKey) = .ok selfKey := by cbv
  have hlist : Schema.Converts ⟨"m.json", file⟩
      (.map [(.text "type", .text "array"), (.text "items", .map [(.text "$ref", .text selfKey)])])
      [selfKey] (.array (.ref selfKey)) := .array ⟨rfl, rfl⟩ rfl (.link rfl hkey)
  have hitem : Schema.Converts ⟨"m.json", file⟩ (.map [(.text "type", .text "string")]) [] .string :=
    .string ⟨rfl, rfl⟩ rfl
  have hscope : ∀ r' : Resolver, r'.entry = "m.json" → r'.scope file = ⟨"m.json", file⟩ := by
    intro r' hr'
    rw [Resolver.scope, hr']
  simp only [selfSchemas, Resolver.registerSchemas, Resolver.convert, Resolver.run, Value.asText]
  rw [hscope r hentry, hlist.convert_eq]
  simp only []
  rw [hscope _ (by simpa using hentry), hitem.convert_eq]
  rfl

/-- What is known when the document has been read once, and when it has been read twice. -/
def selfFirst : Resolver := selfRegistered (Resolver.fresh "/w/d" "m.json") ""

def selfSecond : Resolver :=
  selfRegistered ((selfFirst.taken "../d/m.json").asking "/w/d/../d/m.json") "../d/m.json"

theorem load_self : selfFirst.load selfLinked.source "../d/m.json" = (.ok (), selfSecond) := by
  have hjoin : Locator.join selfFirst.base "../d/m.json" = .ok "/w/d/../d/m.json" := by
    have hbase : selfFirst.base = "/w/d" := rfl
    rw [hbase, Locator.join_of_local (by decide +kernel)]
    exact congrArg Except.ok (by decide +kernel)
  have hlocal : Locator.isUrl "/w/d/../d/m.json" = false := by decide +kernel
  have hask : selfLinked.source.ask "/w/d/../d/m.json" = .ok selfDocument :=
    readDocument_self hlocal (by decide +kernel) (find_self _).2
  have hschemas : Resolver.schemasOf selfDocument = .ok selfSchemas := rfl
  rw [Resolver.load_eq_registerSchemas hjoin hask hschemas]
  exact registerSchemas_self _ "../d/m.json" rfl

theorem asked_self : (selfJob.describe false).2.asked = ["/w/d/../d/m.json"] := by
  have hregister : (Resolver.fresh "/w/d" "m.json").register "" selfDocument = (.ok (), selfFirst) :=
    registerSchemas_self _ "" rfl
  have hrun : selfFirst.run (do Route.extract selfFirst.entry (← selfDocument.get "paths"))
      = (.ok [], selfFirst) := rfl
  have hresolve : (selfFirst.resolve selfLinked.source).2.asked = ["/w/d/../d/m.json"] := by
    have hqueue : selfFirst.queue = ["../d/m.json"] := by decide +kernel
    rw [Bundle.snd_resolve, hqueue, List.length_singleton, Resolver.loadAll_cons hqueue load_self,
      Resolver.loadAll_nil (by decide +kernel)]
    rfl
  show (Resolver.describe selfLinked.source false selfDocument (Resolver.fresh "/w/d" "m.json")).2.asked = _
  rw [Resolver.describe, hregister, Bundle.andThen_ok, hrun, Bundle.andThen_ok]
  refine Bundle.snd_andThen (P := fun r => r.asked = ["/w/d/../d/m.json"]) (fun e r h => ?_) fun _ r h => ?_
  · rw [h] at hresolve
    exact hresolve
  · rw [h] at hresolve
    -- Nothing is read after that, whether the names are unique or not.
    refine Bundle.snd_andThen (P := fun r => r.asked = ["/w/d/../d/m.json"]) (fun e r' h' => ?_)
      fun _ r' h' => ?_
    · rw [← (Prod.mk.inj h').2]
      exact hresolve
    · rw [← (Prod.mk.inj h').2, if_neg Bool.false_ne_true]
      exact hresolve

end TypedClient
