import TypedClient.Proofs.LexicalPaths
import TypedClient.Proofs.Rounds
import TypedClient.Proofs.SchemaKeys

namespace TypedClient

/-!
# The two halves of a locator

The locator of a local document is cut in two: the directory that linked files are looked up in, and the name of the
document there.  The directory is made from the normalized path, and the name from the locator as it was given.  Still
the halves fit together again, and a link that spells the name of the document in any way leads back to it.

* `Path.LeadsTo` — the names that are left of a path when it is read from a working directory.
* `Path.LeadsTo.absolute_eq`, `Path.join_rooted` — these names spell the normalized path, and joining adds one.
* `Link.targetFile_eq_first_iff` — the spellings that mean the document that generation starts from.
* `Resolver.MeansFirst` — what links with such a spelling denote, and that they queue nothing.
* `Locator.halves_fit` — the halves of a locator fit together, and the resolver knows the document by its name.
-/

/-! ### Paths from a working directory -/

namespace Text

/-- The last piece of a text is what stands behind its last mark. -/
theorem getLast?_pieces (mark : Char) (cs : List Char) : (pieces mark cs).getLast? = some (cutLast mark cs).2 := by
  obtain ⟨hlast, heq | ⟨front, heq⟩⟩ := exists_cutLast mark cs
  · rw [← heq] at hlast ⊢
    rw [pieces_of_notMem hlast, List.getLast?_singleton]
  · generalize (cutLast mark cs).2 = last at hlast heq ⊢
    rw [heq, pieces_append_mark, pieces_of_notMem hlast, List.getLast?_concat]

end Text

namespace Path

variable {workingDirectory path : String} {root : Nat} {names : List (List Char)} {s : List Char}

/-- Read from a working directory, the path has this root, and these names are left of its segments when everything is
    left out that says nothing. -/
structure LeadsTo (workingDirectory path : String) (root : Nat) (names : List (List Char)) : Prop where
  isRoot : IsRoot root
  hasRoot : HasRoot (join workingDirectory path).toList root
  leaves : Leaves true (Text.pieces '/' (join workingDirectory path).toList) names
  isName : ∀ n ∈ names, IsName n

/-- A path that ends with a name leads to a file with this name. -/
theorem exists_leadsTo (hworking : workingDirectory.startsWith "/" = true) (hname : IsName (fileName path).toList) :
    ∃ root outer, LeadsTo workingDirectory path root (outer ++ [(fileName path).toList]) := by
  obtain ⟨hroot, outer, houter, hresolve⟩ := exists_resolve_join hworking hname
  refine ⟨_, outer, hroot, hasRoot_rootLength _, ?_, ?_⟩
  · exact (leaves_iff fun s hs => Text.notMem_of_mem_pieces hs).mpr hresolve.symm
  · exact List.forall_mem_append.mpr ⟨houter, List.forall_mem_singleton.mpr hname⟩

/-- The normalized path is spelled with the names that the path leads to. -/
theorem LeadsTo.absolute_eq (h : LeadsTo workingDirectory path root names) :
    absolute workingDirectory path = String.ofList (rooted root names) := by
  -- There is one end, so these names are what the stack comes to.
  have hnames := (leaves_iff fun s hs => Text.notMem_of_mem_pieces hs).mp h.leaves
  have hroot := h.isRoot
  rw [h.hasRoot.eq_rootLength] at hroot ⊢
  rw [absolute, normalize, normalizeChars_of_isRoot hroot, hnames]

/-- A name that is joined to a path from the root is one more name of the path. -/
theorem join_rooted (hroot : IsRoot root) (h : ∀ n ∈ names, IsName n) (hs : IsName s) :
    join (String.ofList (rooted root names)) (String.ofList s) = String.ofList (rooted root (names ++ [s])) := by
  have hrelative : (String.ofList s).startsWith "/" = false := by
    rw [Bool.eq_false_iff, ne_eq, startsWith_slash_iff, String.toList_ofList]
    exact fun hslash => hs.notMem (List.mem_of_mem_head? hslash)
  obtain ⟨cs, hjoin, -, hpieces⟩ := exists_join_eq hroot h hrelative
  rw [String.toList_ofList, Text.pieces_of_notMem hs.notMem] at hpieces
  rw [← String.toList_inj, hjoin, String.toList_ofList, rooted, ← hpieces, Text.joinPieces_pieces]

/-- Some path is left of every path, and be it a dot. -/
theorem normalizeChars_ne_nil (cs : List Char) : normalizeChars cs ≠ [] := by
  rw [normalizeChars_eq_spelled, spelled]
  split
  · simp
  · next hne => exact fun hnil => hne (List.isEmpty_iff.mpr hnil)

end Path

/-! ### The document that generation starts from -/

namespace Locator

theorem canonicalFile_ne_empty {file canonical : String} (h : canonicalFile file = .ok canonical) :
    canonical ≠ "" := by
  rintro rfl
  cases hurl : isUrl file with
  | true =>
    have hempty : isUrl "" = true := isUrl_canonicalFile hurl h
    exact absurd hempty (by decide)
  | false =>
    rw [canonicalFile_eq hurl, Except.ok.injEq, ← String.toList_inj, String.toList_ofList] at h
    exact Path.normalizeChars_ne_nil _ h

end Locator

namespace Link

variable {scope : Scope} {spelling : String}

/-- A spelling means the document that generation starts from if the name of this document is its canonical name. -/
theorem targetFile_eq_first_iff (hne : spelling ≠ "") :
    targetFile scope spelling = .ok "" ↔ Locator.canonicalFile spelling = .ok scope.entry := by
  rw [targetFile, if_neg hne]
  cases hcanonical : Locator.canonicalFile spelling with
  | error e => exact ⟨nofun, nofun⟩
  | ok canonical =>
    rw [Except.ok_bind, Except.ok.injEq]
    by_cases hentry : canonical = scope.entry
    · simp [hentry, pure, Except.pure]
    · simp [hentry, Locator.canonicalFile_ne_empty hcanonical, pure, Except.pure]

/-- A link without a file belongs to the file that it stands in. -/
theorem fileOf_of_keyOf {pointer key : String} (hmark : '#' ∉ scope.file.toList)
    (h : keyOf scope ("#" ++ pointer) = .ok key) : fileOf key = scope.file := by
  rw [keyOf_mark] at h
  split at h
  · cases h
    exact Bundle.fileOf_append hmark _
  · cases h

end Link

namespace Resolver

variable {r : Resolver} {spelling : String}

/-- In every file, links with this spelling mean the document that generation starts from. -/
structure MeansFirst (r : Resolver) (spelling : String) : Prop where
  target : ∀ current, Link.targetFile (r.scope current) spelling = .ok ""
  /-- A link with the spelling is one that stands in the document itself, without a file. -/
  link : ∀ current pointer key, Link.keyOf (r.scope current) (spelling ++ "#" ++ pointer) = .ok key
    ↔ Link.keyOf (r.scope "") ("#" ++ pointer) = .ok key
  schema : ∀ current name, Link.IsName name →
    Link.keyOf (r.scope current) (spelling ++ "#/components/schemas/" ++ name) = .ok ("#/components/schemas/" ++ name)
  /-- The document is not loaded again for it. -/
  queue : ∀ current pointer, (r.reference current (.text (spelling ++ "#" ++ pointer))).2.queue = r.queue

/-- **Links to the first document.**  They are those that spell its name in some way. -/
theorem meansFirst_iff (hfirst : "" ∈ r.loaded) (hmark : '#' ∉ spelling.toList)
    (hhead : ∃ c, spelling.toList.head? = some c ∧ Text.isBlank c = false) :
    r.MeansFirst spelling ↔ Locator.canonicalFile spelling = .ok r.entry := by
  obtain ⟨c, hc, hblank⟩ := hhead
  have hne : spelling ≠ "" := by
    rintro rfl
    cases hc
  have hstart : ∀ d, spelling.toList.head? = some d → Text.isBlank d = false := by
    intro d hd
    rw [hc] at hd
    cases hd
    exact hblank
  refine ⟨fun h => (Link.targetFile_eq_first_iff hne).mp (h.target ""), fun hcanonical => ?_⟩
  have htarget (current : String) : Link.targetFile (r.scope current) spelling = .ok "" :=
    (Link.targetFile_eq_first_iff hne).mpr hcanonical
  -- The file is looked up before the pointer is read, so the link goes on as one of the first document.
  have hlink : ∀ current pointer key, Link.keyOf (r.scope current) (spelling ++ "#" ++ pointer) = .ok key
      ↔ Link.keyOf (r.scope "") ("#" ++ pointer) = .ok key := by
    intro current pointer key
    rw [Link.keyOf_append_eq_ok_iff hmark hstart, htarget current]
    constructor
    · rintro ⟨file, hfile, hkey⟩
      cases hfile
      exact hkey
    · exact fun hkey => ⟨"", rfl, hkey⟩
  refine ⟨htarget, hlink, fun current name hname => ?_, fun current pointer => ?_⟩
  · exact Link.keyOf_spelled hname ⟨by decide, fun hne => absurd rfl hne⟩ ⟨hmark, ⟨c, hc, hblank⟩, hcanonical⟩ current
  · rw [reference, Link.keyOfValue]
    cases hkey : Link.keyOf (r.scope current) (spelling ++ "#" ++ pointer) with
    | error e => rfl
    | ok key =>
      -- The key is one of the first document, which counts as loaded from the start.
      have hfile : Link.fileOf key = "" :=
        Link.fileOf_of_keyOf List.not_mem_nil ((hlink current pointer key).mp hkey)
      dsimp only
      rw [queue_noteLink, hfile, if_pos (.inr (.inl hfirst))]

end Resolver

/-! ### The halves of a locator -/

namespace Locator

open TypedClient.Path (IsName LeadsTo rooted)

/-- **The halves of a locator fit together.**  Let a local locator end with a name.  Its base is the directory that it
    leads to, seen from the working directory, and its entry is the name; joined, they give the normalized path of the
    locator.  A resolver can be made for the entry, and whatever it has been used for, a link means the document if
    the file in the link has the same canonical name, and not otherwise. -/
theorem halves_fit {workingDirectory locator : String} {last : List Char}
    (hworking : workingDirectory.startsWith "/" = true) (hlocal : isUrl locator = false)
    (hlast : (Text.pieces '/' locator.toList).getLast? = some last)
    (hname : last ≠ [] ∧ last ≠ ['.'] ∧ last ≠ ['.', '.']) :
    ∃ root outer, LeadsTo workingDirectory locator root (outer ++ [last])
      ∧ Path.absolute workingDirectory locator = String.ofList (rooted root (outer ++ [last]))
      ∧ base workingDirectory locator = .ok (String.ofList (rooted root outer))
      ∧ entry locator = .ok (String.ofList last)
      ∧ join (String.ofList (rooted root outer)) (String.ofList last) = .ok (Path.absolute workingDirectory locator)
      ∧ ∀ place, ∃ r, Resolver.start place (String.ofList last) = .ok r ∧ ∀ spelling, '#' ∉ spelling.toList →
        (∃ c, spelling.toList.head? = some c ∧ Text.isBlank c = false) → ∀ actions,
          (((Session.start r).performAll actions).resolver.MeansFirst spelling
            ↔ canonicalFile spelling = canonicalFile (String.ofList last)) := by
  obtain ⟨hempty, hdot, hdots⟩ := hname
  have hfile : Path.fileName locator = String.ofList last := by
    rw [Text.getLast?_pieces, Option.some_inj] at hlast
    rw [Path.fileName, hlast]
  have hisName : IsName last := ⟨hempty, hdot, hdots, Text.notMem_of_mem_pieces (List.mem_of_getLast? hlast)⟩
  obtain ⟨root, outer, hleads⟩ : ∃ root outer, LeadsTo workingDirectory locator root (outer ++ [last]) := by
    have hends : (Path.fileName locator).toList = last := by rw [hfile, String.toList_ofList]
    rw [← hends] at hisName ⊢
    exact Path.exists_leadsTo hworking hisName
  have habsolute := hleads.absolute_eq
  have houter : ∀ n ∈ outer, IsName n := fun n hn => hleads.isName n (List.mem_append_left _ hn)
  refine ⟨root, outer, hleads, habsolute, ?_, ?_, ?_, fun place => ?_⟩
  · rw [base_of_local hlocal, habsolute, Path.directory_rooted hleads.isRoot houter hisName]
  · rw [entry_of_local hlocal, hfile]
  · -- The base begins with a slash, so it is not taken for an address.
    rw [join_of_local (isUrl_rooted hleads.isRoot), Path.join_rooted hleads.isRoot houter hisName, habsolute]
  · have hentry : String.ofList last ≠ "" := by
      rwa [ne_eq, ← String.toList_inj, String.toList_ofList]
    have hplain : isUrl (String.ofList last) = false :=
      isUrl_of_notMem (by rw [String.toList_ofList]; exact hisName.notMem)
    obtain ⟨r, hr⟩ : ∃ r, Resolver.start place (String.ofList last) = .ok r := by
      rw [Resolver.start, if_neg hentry, canonicalFile_eq hplain]
      exact ⟨_, rfl⟩
    refine ⟨r, hr, fun spelling hmark hhead actions => ?_⟩
    -- Nothing that a resolver is used for changes the name that it was made with.
    have hkept : ((Session.start r).performAll actions).resolver.entry = r.entry :=
      Resolver.entry_eq_of_steps (Session.steps_performAll (Session.start r) actions)
    rw [Resolver.meansFirst_iff (Session.performAll_ready hr actions).first_loaded hmark hhead, hkept,
      Resolver.canonicalFile_of_start hentry hr]

/-- A locator that leads out of the working directory to a file with a backslash in its name. -/
theorem backslashed_halves_fit :
    "/w".startsWith "/" = true ∧ isUrl "../d//x\\y.yaml" = false
      ∧ (Text.pieces '/' "../d//x\\y.yaml".toList).getLast? = some "x\\y.yaml".toList
      ∧ base "/w" "../d//x\\y.yaml" = .ok "/d" ∧ entry "../d//x\\y.yaml" = .ok "x\\y.yaml"
      ∧ join "/d" "x\\y.yaml" = .ok (Path.absolute "/w" "../d//x\\y.yaml")
      ∧ Path.absolute "/w" "../d//x\\y.yaml" = "/d/x\\y.yaml"
      ∧ ∃ r, Resolver.start "/d" "x\\y.yaml" = .ok r ∧ ∀ actions,
        ((Session.start r).performAll actions).resolver.MeansFirst "./x/y.yaml"
          ∧ ¬ ((Session.start r).performAll actions).resolver.MeansFirst "y.yaml" := by
  have hworking : "/w".startsWith "/" = true := by decide +kernel
  have hlocal : isUrl "../d//x\\y.yaml" = false := by decide +kernel
  have hlast : (Text.pieces '/' "../d//x\\y.yaml".toList).getLast? = some "x\\y.yaml".toList := by decide +kernel
  obtain ⟨root, outer, -, -, hbase, hentry, hjoin, hresolver⟩ :=
    halves_fit hworking hlocal hlast (by decide +kernel)
  have hpath : Path.absolute "/w" "../d//x\\y.yaml" = "/d/x\\y.yaml" := by decide +kernel
  have hdirectory : base "/w" "../d//x\\y.yaml" = .ok "/d" := by
    rw [base_of_local hlocal, hpath]
    exact congrArg Except.ok (by decide +kernel)
  have hcanonical : canonicalFile "x\\y.yaml" = .ok "x/y.yaml" := by cbv
  have hsame : canonicalFile "./x/y.yaml" = .ok "x/y.yaml" := by cbv
  have hother : canonicalFile "y.yaml" = .ok "y.yaml" := by cbv
  rw [String.ofList_toList] at hentry hjoin hresolver
  rw [hdirectory, Except.ok.injEq] at hbase
  rw [← hbase] at hjoin
  obtain ⟨r, hr, hmeans⟩ := hresolver "/d"
  refine ⟨hworking, hlocal, hlast, hdirectory, hentry, hjoin, hpath, r, hr, fun actions => ⟨?_, ?_⟩⟩
  · exact (hmeans _ (by decide) ⟨'.', rfl, by decide⟩ actions).mpr (by rw [hsame, hcanonical])
  · rw [hmeans _ (by decide) ⟨'y', rfl, by decide⟩ actions, hother, hcanonical, Except.ok.injEq]
    decide

end Locator

end TypedClient
