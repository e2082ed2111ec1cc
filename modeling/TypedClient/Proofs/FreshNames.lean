import TypedClient.Proofs.MemberNames

namespace TypedClient.Naming

/-!
# Names given one after the other

A name that is taken gets a number, and the numbers are tried one by one.  Nothing bounds the number of tries in
advance, so here the search is a relation, and not a function that stops after some number of them.

The numbered names differ from each other, so there is a free one behind any finite number of them, and the search
comes to the least of these.  What it finds depends on the names that were given before and on nothing else: names
that are asked for later leave it as it is.

* `Search`, `Searches` — the search for one name, and those for several names one after the other.
* `NextName` — the name that a search should find.
* `nextName_fresh`, `NextName.search` — there is such a name, and the search finds it.
* `searches_iff` — the searches end, and in one way only.
* `freshAll_append`, `nextName_of_getElem?` — what was given before decides about a name.
* `members_lasting` — the names of enum members.
-/

/-- The search for a name that is not taken, from a candidate on.  The candidates after it are the name with the
    numbers from `index` on. -/
inductive Search (taken : List String) (name : String) : (candidate : String) → (index : Nat) → String → Prop
  | free {candidate : String} {index : Nat} (hfree : candidate ∉ taken) :
    Search taken name candidate index candidate
  | next {candidate chosen : String} {index : Nat} (htaken : candidate ∈ taken)
    (hrest : Search taken name (name ++ toString index) (index + 1) chosen) :
    Search taken name candidate index chosen

/-- The searches for several names.  What one of them finds is taken in those after it. -/
inductive Searches : (taken names : List String) → List String → Prop
  | nil {taken : List String} : Searches taken [] []
  | cons {taken names others : List String} {name chosen : String} (hfirst : Search taken name name 2 chosen)
    (hrest : Searches (chosen :: taken) names others) : Searches taken (name :: names) (chosen :: others)

/-- The name itself if it is not taken, else the name with the least number from two on that makes it new. -/
inductive NextName (taken : List String) (name : String) : String → Prop
  | plain (hfree : name ∉ taken) : NextName taken name name
  | numbered {n : Nat} (htaken : name ∈ taken) (htwo : 2 ≤ n) (hfree : name ++ toString n ∉ taken)
    (hleast : ∀ m, 2 ≤ m → m < n → name ++ toString m ∈ taken) : NextName taken name (name ++ toString n)

variable {taken names : List String} {name chosen : String}

/-! ### One search -/

/-- The search through the numbers gives a name with a number, and it has passed over the smaller ones. -/
theorem exists_freshFrom_eq (taken : List String) (name : String) (fuel index : Nat) :
    ∃ n, index ≤ n ∧ freshFrom taken name fuel index = name ++ toString n
      ∧ ∀ m, index ≤ m → m < n → name ++ toString m ∈ taken := by
  induction fuel generalizing index with
  | zero => exact ⟨index, le_rfl, rfl, fun m _ _ => by omega⟩
  | succ fuel ih =>
    rw [freshFrom]
    split
    · next htaken =>
      obtain ⟨n, hn, heq, hpassed⟩ := ih (index + 1)
      refine ⟨n, by omega, heq, fun m hm hlt => ?_⟩
      rcases Nat.eq_or_lt_of_le hm with rfl | hm
      · exact List.contains_iff_mem.mp htaken
      · exact hpassed m hm hlt
    · exact ⟨index, le_rfl, rfl, fun m _ _ => by omega⟩

/-- Whatever is taken, there is a next name. -/
theorem nextName_fresh (taken : List String) (name : String) : NextName taken name (fresh taken name) := by
  have hfree := fresh_notMem taken name
  rw [fresh] at hfree ⊢
  split
  · next htaken =>
    rw [if_pos htaken] at hfree
    obtain ⟨n, hn, heq, hpassed⟩ := exists_freshFrom_eq taken name taken.length 2
    rw [heq] at hfree ⊢
    exact .numbered (List.contains_iff_mem.mp htaken) hn hfree hpassed
  · next htaken => exact .plain fun hmem => htaken (List.contains_iff_mem.mpr hmem)

/-- The search passes over numbers that are taken. -/
theorem search_of_passed {n : Nat} (hfree : name ++ toString n ∉ taken) {index : Nat} (hle : index ≤ n)
    (hpassed : ∀ m, index ≤ m → m < n → name ++ toString m ∈ taken) :
    Search taken name (name ++ toString index) (index + 1) (name ++ toString n) := by
  -- The induction is on the numbers that are still to be passed over.
  induction hleft : n - index generalizing index with
  | zero =>
    obtain rfl : index = n := by omega
    exact .free hfree
  | succ left ih =>
    have hrest : Search taken name (name ++ toString (index + 1)) (index + 2) (name ++ toString n) :=
      ih (by omega) (fun m hm => hpassed m (by omega)) (by omega)
    exact .next (hpassed index le_rfl (by omega)) hrest

/-- The search finds the next name. -/
theorem NextName.search (h : NextName taken name chosen) : Search taken name name 2 chosen := by
  cases h with
  | plain hfree => exact .free hfree
  | numbered htaken htwo hfree hleast => exact .next htaken (search_of_passed hfree htwo hleast)

/-- The search ends in one way. -/
theorem Search.unique {candidate other : String} {index : Nat} (h : Search taken name candidate index chosen)
    (h' : Search taken name candidate index other) : other = chosen := by
  induction h with
  | free hfree =>
    cases h' with
    | free => rfl
    | next htaken => exact absurd htaken hfree
  | next htaken _ ih =>
    cases h' with
    | free hfree => exact absurd htaken hfree
    | next _ hrest => exact ih hrest

theorem search_iff : Search taken name name 2 chosen ↔ chosen = fresh taken name := by
  have hfresh := (nextName_fresh taken name).search
  constructor
  · exact fun h => hfresh.unique h
  · rintro rfl
    exact hfresh

/-- What is taken counts as a set. -/
theorem NextName.congr (h : NextName taken name chosen) {others : List String}
    (hmem : ∀ other, other ∈ others ↔ other ∈ taken) : NextName others name chosen := by
  cases h with
  | plain hfree => exact .plain (by rwa [hmem])
  | numbered htaken htwo hfree hleast =>
    exact .numbered ((hmem _).mpr htaken) htwo (by rwa [hmem]) fun m hm hlt => (hmem _).mpr (hleast m hm hlt)

/-! ### One search after the other -/

/-- **The searches end.**  There is one way for them to end, and it gives the fresh names. -/
theorem searches_iff {found : List String} : Searches taken names found ↔ found = freshAll taken names := by
  induction names generalizing taken found with
  | nil =>
    constructor
    · rintro ⟨⟩
      rfl
    · rintro rfl
      exact .nil
  | cons name rest ih =>
    constructor
    · intro h
      cases h with
      | cons hfirst hrest => rw [freshAll, search_iff.mp hfirst, ← search_iff.mp hfirst, ih.mp hrest]
    · rintro rfl
      exact .cons (search_iff.mpr rfl) (ih.mpr rfl)

/-- Names that are asked for later do not change those that were given. -/
theorem freshAll_append (taken names later : List String) : freshAll taken (names ++ later)
    = freshAll taken names ++ freshAll ((freshAll taken names).reverse ++ taken) later := by
  induction names generalizing taken with
  | nil => rfl
  | cons name rest ih => simp only [List.cons_append, freshAll, ih, List.reverse_cons, List.append_assoc, List.nil_append]

/-- Each name is the next one after those that were given before it. -/
theorem nextName_of_getElem? {i : Nat} (hname : names[i]? = some name)
    (hchosen : (freshAll [] names)[i]? = some chosen) : NextName ((freshAll [] names).take i) name chosen := by
  obtain ⟨hi, rfl⟩ := List.getElem?_eq_some_iff.mp hname
  have hsplit : freshAll [] names = freshAll [] (names.take i)
      ++ fresh (freshAll [] (names.take i)).reverse names[i]
        :: freshAll (fresh (freshAll [] (names.take i)).reverse names[i]
          :: (freshAll [] (names.take i)).reverse) (names.drop (i + 1)) := by
    conv_lhs => rw [← List.take_append_drop i names, List.drop_eq_getElem_cons hi]
    rw [freshAll_append, List.append_nil, freshAll]
  have hlength : (freshAll [] (names.take i)).length = i := by
    rw [length_freshAll, List.length_take]
    omega
  rw [hsplit, List.getElem?_append_right (by omega), hlength, Nat.sub_self, List.getElem?_cons_zero,
    Option.some_inj] at hchosen
  rw [hsplit, List.take_left' hlength, ← hchosen]
  exact (nextName_fresh _ _).congr fun other => List.mem_reverse.symm

/-! ### Enum members -/

/-- Values that are listed later do not change the member of a value that is not among them. -/
theorem get?_members_append {values later : List String} {value : String} (h : value ∉ later) :
    (members (values ++ later)).get? value = (members values).get? value := by
  have hlength : values.length = (freshAll [] (values.map memberRoot)).length := by
    rw [length_freshAll, List.length_map]
  rw [members, members, List.map_append, freshAll_append, List.zip_append hlength, Table.ofList,
    List.foldl_append, Table.get?_foldl_put]
  -- The later values are all that the later pairs have members for.
  have hnone : (Table.ofList (later.zip (freshAll ((freshAll [] (values.map memberRoot)).reverse ++ [])
      (later.map memberRoot)))).get? value = none := by
    rw [← Option.not_isSome_iff_eq_none, Table.isSome_get?_iff, Table.mem_keys_ofList]
    exact fun hmem => h (List.of_mem_zip (Table.mem_keys_iff.mp hmem).choose_spec).1
  rw [hnone, Option.none_or]
  rfl

/-- **Member names.**  The searches for the members of an enum end, and what they find makes a table that has the
    values of the enum as its keys.  Different values have different members, each a letter with letters and digits
    behind it, and a value keeps its member when more values are put behind the ones that there are. -/
theorem members_lasting (values : List String) : ∃ names,
    (∀ found, Searches [] (values.map memberRoot) found ↔ found = names)
      ∧ members values = Table.ofList (values.zip names)
      ∧ (members values).keys.Nodup
      ∧ (∀ value, value ∈ (members values).keys ↔ value ∈ values)
      ∧ (∀ value other name, (members values).get? value = some name → (members values).get? other = some name →
        value = other)
      ∧ (∀ value ∈ values, ∃ name, (members values).get? value = some name ∧ IsPlain name)
      ∧ ∀ later, (∀ value ∈ later, value ∉ values) →
        ∀ value ∈ values, (members (values ++ later)).get? value = (members values).get? value := by
  refine ⟨_, fun _ => searches_iff, rfl, Table.nodup_keys_ofList _, fun _ => mem_keys_members_iff,
    fun _ _ _ => members_inj, fun value hvalue => ?_, fun later hlater value hvalue => ?_⟩
  · obtain ⟨name, hname⟩ := Option.isSome_iff_exists.mp (isSome_get?_members_iff.mpr hvalue)
    exact ⟨name, hname, isPlain_of_get?_members hname⟩
  · exact get?_members_append fun hmem => hlater value hmem hvalue

/-- Two values that become one name, and a later value whose own name is the one that was made for the second of
    them. -/
theorem progress_members_last : (∀ value ∈ ["in progress 2"], value ∉ ["in-progress", "in_progress"])
    ∧ (members (["in-progress", "in_progress"] ++ ["in progress 2"])).get? "in_progress" = some "InProgress2" := by
  obtain ⟨names, -, -, -, -, -, -, hlast⟩ := members_lasting ["in-progress", "in_progress"]
  have hlater : ∀ value ∈ ["in progress 2"], value ∉ ["in-progress", "in_progress"] := by decide
  refine ⟨hlater, ?_⟩
  rw [hlast _ hlater "in_progress" (by decide)]
  decide +kernel

end TypedClient.Naming
