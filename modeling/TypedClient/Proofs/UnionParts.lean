import TypedClient.Proofs.Generation
import TypedClient.Proofs.Literals

namespace TypedClient.Output.TypeWriter

/-!
# The parts of a union

A union is written as its variants, one for each member, and as a block of the fields that all of them share, if any
is shown.  The discriminator field is not shown there: a variant has it with a value of its own.

* `firstValue`, `memberValue` — the value that a discriminator has for a member.
* `PrintsVariant`, `PrintsField` — what is printed for a member and for a field.
* `PrintsUnion`, `exists_printsUnion` — a union is put together from these, and from nothing else.
* `tagText_inj` — different values are never printed alike.
* `variants_tagged` — each variant has the first value for its member, and no value of another one.
* `fields_shown` — each field is in the block, unless it is the discriminator field.
-/

/-! ### Values of a discriminator -/

/-- The first value that a discriminator maps to a key. -/
def firstValue (mapping : Table String String) (key : String) : Option String :=
  (mapping.find? fun entry => entry.2 == key).map (·.1)

/-- The value that a discriminator has for a member; only references have values. -/
def memberValue (mapping : Table String String) : ClientType → Option String
  | .ref key => firstValue mapping key
  | _ => none

variable {w : TypeWriter} {depth : Nat} {mapping : Table String String} {key value : String}

theorem firstValue_cons (first k : String) (rest : Table String String) (key : String) :
    firstValue ((first, k) :: rest) key = if key = k then some first else firstValue rest key := by
  rw [firstValue, List.find?_cons, firstValue]
  by_cases hk : key = k
  · simp [hk]
  · rw [if_neg hk, beq_eq_false_iff_ne.mpr fun heq => hk heq.symm]

theorem firstValue_eq_some_iff : firstValue mapping key = some value
    ↔ ∃ front rest, mapping = front ++ (value, key) :: rest ∧ ∀ entry ∈ front, entry.2 ≠ key := by
  simp only [firstValue, Option.map_eq_some_iff, List.find?_eq_some_iff_append]
  constructor
  · rintro ⟨⟨_, _⟩, ⟨hkey, front, rest, rfl, hfront⟩, rfl⟩
    obtain rfl := beq_iff_eq.mp hkey
    exact ⟨front, rest, rfl, fun entry hentry => by simpa using hfront entry hentry⟩
  · rintro ⟨front, rest, rfl, hfront⟩
    refine ⟨(value, key), ⟨beq_self_eq_true _, front, rest, rfl, fun entry hentry => ?_⟩, rfl⟩
    simpa using hfront entry hentry

theorem mem_of_firstValue (h : firstValue mapping key = some value) : (value, key) ∈ mapping := by
  obtain ⟨front, rest, rfl, -⟩ := firstValue_eq_some_iff.mp h
  exact List.mem_append_right front List.mem_cons_self

/-- A key that some value is mapped to has a first one. -/
theorem isSome_firstValue_iff : (firstValue mapping key).isSome ↔ ∃ value, (value, key) ∈ mapping := by
  rw [firstValue, Option.isSome_map, List.find?_isSome]
  constructor
  · rintro ⟨⟨value, _⟩, hmem, hkey⟩
    obtain rfl := beq_iff_eq.mp hkey
    exact ⟨value, hmem⟩
  · rintro ⟨value, hmem⟩
    exact ⟨(value, key), hmem, beq_self_eq_true key⟩

/-- The table of the values holds the first value for each key. -/
theorem get?_tagValues {keys : List String} {values : Table String String}
    (h : tagValues keys mapping = .ok values) (key : String) : values.get? key = firstValue mapping key := by
  induction mapping generalizing values with
  | nil =>
    cases h
    rfl
  | cons entry rest ih =>
    obtain ⟨value, k⟩ := entry
    rw [tagValues] at h
    split at h
    · obtain ⟨later, hlater, hpure⟩ := Except.bind_eq_ok.mp h
      cases hpure
      simp only [Table.get?_cons, firstValue_cons, ih hlater, beq_iff_eq]
    · cases h

/-- A value is mapped to a member, or the table is not built. -/
theorem mem_of_tagValues {members : List ClientType} {values : Table String String}
    (h : tagValues (memberKeys members) mapping = .ok values) (hmem : (value, key) ∈ mapping) :
    .ref key ∈ members := by
  have hvalue : (values.get? key).isSome := by
    rw [get?_tagValues h]
    exact isSome_firstValue_iff.mpr ⟨value, hmem⟩
  exact mem_memberKeys_iff.mp (keys_tagValues h key (Table.isSome_get?_iff.mp hvalue))

theorem valueOf_eq_memberValue {keys : List String} {values : Table String String}
    (h : tagValues keys mapping = .ok values) (member : ClientType) :
    valueOf values member = memberValue mapping member := by
  cases member with
  | ref key => exact get?_tagValues h key
  | _ => rfl

/-! ### Printed parts -/

/-- In related lists, every element stands next to one that it is related to. -/
theorem exists_mem_zip {α β : Type} {related : α → β → Prop} {xs : List α} {ys : List β} {x : α}
    (h : List.Forall₂ related xs ys) (hx : x ∈ xs) : ∃ y, (x, y) ∈ xs.zip ys := by
  rw [← List.map_fst_zip h.length_eq.le] at hx
  obtain ⟨⟨_, y⟩, hmem, rfl⟩ := List.mem_map.mp hx
  exact ⟨y, hmem⟩

/-- A printed variant, and what stands in it for the value of the discriminator. -/
structure PrintedVariant where
  text : String
  own : Option String

/-- What is printed for a member of a union.  A member with a value of the discriminator has a field for this value,
    in place of the one that it may have had. -/
inductive PrintsVariant (w : TypeWriter) (depth : Nat) (tag : Option String) (mapping : Table String String)
    (tagType : Option String) (member : ClientType) : PrintedVariant → Prop
  | tagged {field value text own} : tag = some field → memberValue mapping member = some value →
      (w.write depth member).result = .ok text → (w.tagText tagType value).result = .ok own →
      PrintsVariant w depth tag mapping tagType member
        ⟨"Omit<" ++ text ++ ", '" ++ field ++ "'> & " ++ braced (" " ++ field ++ ": " ++ own ++ " "), some own⟩
  | plain {text} : tag = none ∨ memberValue mapping member = none → (w.write depth member).result = .ok text →
      PrintsVariant w depth tag mapping tagType member ⟨w.parenthesized member text, none⟩

/-- What is printed for a field. -/
def PrintsField (w : TypeWriter) (depth : Nat) (f : Field ClientType) (line : String) : Prop :=
  ∃ text, (w.write (depth + 1) f.type).result = .ok text
    ∧ line = indent (depth + 1) ++ f.name ++ (if f.required then "" else "?") ++ ": " ++ text ++ ";"

/-- What is printed for a union: alternatives for its members, next to a block of fields if any is shown. -/
structure PrintsUnion (w : TypeWriter) (depth : Nat) (members : List ClientType) (tag : Option String)
    (mapping : Table String String) (shared : Option (List (Field ClientType))) (tagType : Option String)
    (lines : List String) (variants : List PrintedVariant) (text : String) : Prop where
  mapped : ∀ value key, (value, key) ∈ mapping → .ref key ∈ members
  of_members : List.Forall₂ (w.PrintsVariant depth tag mapping tagType) members variants
  of_shown : List.Forall₂ (w.PrintsField depth) (shownFields tag shared) lines
  text_eq : text = if lines.isEmpty then " | ".intercalate (variants.map (·.text))
    else block depth lines ++ " & (" ++ " | ".intercalate (variants.map (·.text)) ++ ")"

/-- A variant is printed for its member. -/
theorem exists_printsVariant {tag tagType : Option String} {member : ClientType} {text variant : String}
    {first log : List String} (htext : w.write depth member = ⟨first, .ok text⟩)
    (h : w.writeVariant tag (memberValue mapping member) tagType member text = ⟨log, .ok variant⟩) :
    ∃ own, w.PrintsVariant depth tag mapping tagType member ⟨variant, own⟩ := by
  have hresult : (w.write depth member).result = .ok text := by rw [htext]
  unfold writeVariant at h
  split at h
  · next field value hvalue =>
    obtain ⟨_, own, _, hown, hpure, -⟩ := Logged.bind_eq_ok.mp h
    obtain ⟨-, rfl⟩ := Logged.pure_eq_ok.mp hpure
    exact ⟨some own, .tagged rfl hvalue hresult (by rw [hown])⟩
  · next hnot =>
    obtain ⟨-, rfl⟩ := Logged.pure_eq_ok.mp h
    refine ⟨none, .plain ?_ hresult⟩
    by_contra hboth
    rw [not_or] at hboth
    obtain ⟨field, hfield⟩ := Option.ne_none_iff_exists'.mp hboth.1
    obtain ⟨value, hvalue⟩ := Option.ne_none_iff_exists'.mp hboth.2
    exact hnot field value hfield hvalue

theorem exists_printsVariants {keys : List String} {values : Table String String} {tag tagType : Option String}
    {members : List ClientType} {log texts : List String} (hvalues : tagValues keys mapping = .ok values)
    (h : w.writeVariants depth tag values tagType members = ⟨log, .ok texts⟩) :
    ∃ variants : List PrintedVariant, variants.map (·.text) = texts
      ∧ List.Forall₂ (w.PrintsVariant depth tag mapping tagType) members variants := by
  induction members generalizing log texts with
  | nil =>
    obtain ⟨-, rfl⟩ := Logged.pure_eq_ok.mp h
    exact ⟨[], rfl, .nil⟩
  | cons member rest ih =>
    rw [writeVariants_cons, valueOf_eq_memberValue hvalues] at h
    obtain ⟨_, text, _, htext, hafter, -⟩ := Logged.bind_eq_ok.mp h
    obtain ⟨_, variant, _, hvariant, hrest, -⟩ := Logged.bind_eq_ok.mp hafter
    obtain ⟨_, others, _, hothers, hpure, -⟩ := Logged.bind_eq_ok.mp hrest
    obtain ⟨-, rfl⟩ := Logged.pure_eq_ok.mp hpure
    obtain ⟨own, hprints⟩ := exists_printsVariant htext hvariant
    obtain ⟨variants, rfl, hall⟩ := ih hothers
    exact ⟨⟨variant, own⟩ :: variants, rfl, .cons hprints hall⟩

/-- A line is printed for each field that is shown. -/
theorem forall₂_of_writeFields {omitted : Option String} {fields : List (Field ClientType)} {log lines : List String}
    (h : w.writeFields depth omitted fields = ⟨log, .ok lines⟩) :
    List.Forall₂ (w.PrintsField depth) (shownFields omitted (some fields)) lines := by
  have hshown : ∀ fields, shownFields omitted (some fields) = fields.filter fun f => some f.name != omitted :=
    fun _ => rfl
  rw [hshown]
  induction fields generalizing log lines with
  | nil =>
    obtain ⟨-, rfl⟩ := Logged.pure_eq_ok.mp h
    exact .nil
  | cons f rest ih =>
    obtain ⟨name, type, required⟩ := f
    rw [writeFields] at h
    by_cases homitted : some name = omitted
    · rw [if_pos homitted] at h
      rw [List.filter_cons_of_neg (by simpa using homitted)]
      exact ih h
    · rw [if_neg homitted] at h
      obtain ⟨_, text, _, htext, hrest, -⟩ := Logged.bind_eq_ok.mp h
      obtain ⟨_, others, _, hothers, hpure, -⟩ := Logged.bind_eq_ok.mp hrest
      obtain ⟨-, rfl⟩ := Logged.pure_eq_ok.mp hpure
      rw [List.filter_cons_of_pos (by simpa using homitted)]
      exact .cons ⟨text, by rw [htext], rfl⟩ (ih hothers)

variable {members : List ClientType} {tag tagType : Option String} {shared : Option (List (Field ClientType))}
  {text : String}

/-- **What is printed for a union.**  Whatever is printed has these parts. -/
theorem exists_printsUnion (h : (w.write depth (.union members tag mapping shared tagType)).result = .ok text) :
    ∃ lines variants, w.PrintsUnion depth members tag mapping shared tagType lines variants text := by
  have hwrite := Logged.eq_mk_of_result h
  cases shared with
  | none =>
    rw [write] at hwrite
    obtain ⟨_, values, _, hlift, hrest, -⟩ := Logged.bind_eq_ok.mp hwrite
    obtain ⟨-, hvalues⟩ := Logged.lift_eq_ok.mp hlift
    obtain ⟨_, texts, _, htexts, hpure, -⟩ := Logged.bind_eq_ok.mp hrest
    obtain ⟨-, rfl⟩ := Logged.pure_eq_ok.mp hpure
    obtain ⟨variants, rfl, hvariants⟩ := exists_printsVariants hvalues htexts
    exact ⟨[], variants, fun _ _ => mem_of_tagValues hvalues, hvariants, .nil, rfl⟩
  | some fields =>
    rw [write] at hwrite
    obtain ⟨_, values, _, hlift, hrest, -⟩ := Logged.bind_eq_ok.mp hwrite
    obtain ⟨-, hvalues⟩ := Logged.lift_eq_ok.mp hlift
    obtain ⟨_, texts, _, htexts, hshared, -⟩ := Logged.bind_eq_ok.mp hrest
    obtain ⟨variants, rfl, hvariants⟩ := exists_printsVariants hvalues htexts
    by_cases hempty : (shownFields tag (some fields)).isEmpty
    · rw [if_pos hempty] at hshared
      obtain ⟨-, rfl⟩ := Logged.pure_eq_ok.mp hshared
      refine ⟨[], variants, fun _ _ => mem_of_tagValues hvalues, hvariants, ?_, rfl⟩
      rw [List.isEmpty_iff.mp hempty]
      exact .nil
    · rw [if_neg hempty] at hshared
      obtain ⟨_, lines, _, hlines, hpure, -⟩ := Logged.bind_eq_ok.mp hshared
      obtain ⟨-, rfl⟩ := Logged.pure_eq_ok.mp hpure
      have hall := forall₂_of_writeFields hlines
      have hne : ¬ lines.isEmpty := by
        rwa [List.isEmpty_iff_length_eq_zero, ← hall.length_eq, ← List.isEmpty_iff_length_eq_zero]
      exact ⟨lines, variants, fun _ _ => mem_of_tagValues hvalues, hvariants, hall, by rw [if_neg hne]⟩

/-! ### Tags -/

/-- The value that a tag stands for is known from its text: a literal ends in a quote, and the name of a member does
    not, and neither two literals nor two members of one enum are written alike. -/
theorem tagText_inj {value other own : String} (h : (w.tagText tagType value).result = .ok own)
    (h' : (w.tagText tagType other).result = .ok own) : value = other := by
  obtain ⟨tag, htag, htext, -⟩ := exists_describeTag (Logged.eq_mk_of_result h)
  obtain ⟨tag', htag', htext', -⟩ := exists_describeTag (Logged.eq_mk_of_result h')
  rw [← htext'] at htext
  -- A literal ends with a quote, and the name of a member with a letter or a digit.
  have hquote : ∀ value enum name, Naming.IsPlain name →
      literal value ≠ qualifiedText w.qualifier enum ++ "." ++ name := by
    rintro value enum name ⟨c, tail, hname, hc, htail⟩ heq
    have hlast := congrArg (fun s => s.toList.getLast?) heq
    have halphanum : ∀ d ∈ c :: tail, d.isAlphanum := by
      rw [List.forall_mem_cons]
      exact ⟨by rw [Char.isAlphanum, hc, Bool.true_or], htail⟩
    simp only [literal, literalChars, String.toList_ofList, String.toList_append, hname, List.getLast?_append,
      ← List.cons_append, List.getLast?_singleton, Option.some_or] at hlast
    rw [List.getLast?_eq_some_getLast (List.cons_ne_nil c tail), Option.some_or, Option.some.injEq] at hlast
    have hmem := halphanum _ (List.getLast_mem (List.cons_ne_nil c tail))
    rw [← hlast] at hmem
    exact absurd hmem (by decide)
  rcases exists_of_describeTag htag with rfl | ⟨key, d, _, _, _, hkey, -, hd, htype, hmember, rfl⟩
  · rcases exists_of_describeTag htag' with rfl | ⟨_, _, _, _, _, -, -, -, -, hmember', rfl⟩
    · exact literal_inj.mp htext
    · exact absurd htext (hquote _ _ _ (Naming.isPlain_of_get?_members hmember'))
  · rcases exists_of_describeTag htag' with rfl | ⟨_, _, _, _, _, hkey', -, hd', htype', hmember', rfl⟩
    · exact absurd htext.symm (hquote _ _ _ (Naming.isPlain_of_get?_members hmember))
    · -- Both are members of the one enum that types the discriminator.
      rw [hkey] at hkey'
      cases hkey'
      rw [hd] at hd'
      cases hd'
      rw [htype] at htype'
      cases htype'
      obtain rfl := (String.append_right_inj _).mp htext
      exact Naming.members_inj hmember hmember'

theorem PrintsVariant.own_eq_some {member : ClientType} {v : PrintedVariant} {own : String}
    (h : w.PrintsVariant depth tag mapping tagType member v) (hown : v.own = some own) :
    ∃ value, memberValue mapping member = some value ∧ (w.tagText tagType value).result = .ok own := by
  cases h with
  | tagged _ hvalue _ htext =>
    cases hown
    exact ⟨_, hvalue, htext⟩
  | plain => cases hown

theorem PrintsVariant.exists_own {field : String} {member : ClientType} {v : PrintedVariant}
    (h : w.PrintsVariant depth (some field) mapping tagType member v)
    (hvalue : memberValue mapping member = some value) :
    ∃ own, (w.tagText tagType value).result = .ok own ∧ v.own = some own := by
  cases h with
  | tagged _ hvalue' _ htext =>
    rw [hvalue] at hvalue'
    cases hvalue'
    exact ⟨_, htext, rfl⟩
  | plain hnone =>
    rw [hvalue] at hnone
    simp at hnone

theorem eq_of_mem_mapping {k : String} (hkeys : mapping.keys.Nodup) (h : (value, key) ∈ mapping)
    (h' : (value, k) ∈ mapping) : key = k := by
  have hget := (Table.get?_eq_some_iff_mem hkeys).mpr h
  rw [(Table.get?_eq_some_iff_mem hkeys).mpr h'] at hget
  exact (Option.some.inj hget).symm

/-- **Tags of variants.**  The first value that is mapped to a member stands in every variant of this member, and the
    variants of other members do not have it.  A second value that is mapped to the member is not printed. -/
theorem variants_tagged {field : String} (hkeys : mapping.keys.Nodup)
    (h : (w.write depth (.union members (some field) mapping shared tagType)).result = .ok text) :
    ∃ lines variants, w.PrintsUnion depth members (some field) mapping shared tagType lines variants text
      ∧ (∀ value key, firstValue mapping key = some value →
        ∃ own, (w.tagText tagType value).result = .ok own ∧ (∃ v, (.ref key, v) ∈ members.zip variants)
          ∧ ∀ v, (.ref key, v) ∈ members.zip variants → v.own = some own)
      ∧ ∀ member v own, (member, v) ∈ members.zip variants → v.own = some own →
        ∀ value key, (value, key) ∈ mapping → (w.tagText tagType value).result = .ok own → member = .ref key := by
  obtain ⟨lines, variants, hprints⟩ := exists_printsUnion h
  have hvariant : ∀ {member v}, (member, v) ∈ members.zip variants →
      w.PrintsVariant depth (some field) mapping tagType member v :=
    fun hpair => (List.forall₂_iff_zip.mp hprints.of_members).2 hpair
  refine ⟨lines, variants, hprints, fun value key hfirst => ?_, fun member v own hpair hown value key hmem htext => ?_⟩
  · obtain ⟨_, hpair⟩ := exists_mem_zip hprints.of_members (hprints.mapped value key (mem_of_firstValue hfirst))
    obtain ⟨own, htext, -⟩ := (hvariant hpair).exists_own hfirst
    refine ⟨own, htext, ⟨_, hpair⟩, fun v hv => ?_⟩
    obtain ⟨own', htext', hown'⟩ := (hvariant hv).exists_own hfirst
    rw [htext] at htext'
    rw [hown', Except.ok.inj htext']
  · obtain ⟨first, hfirst, htext'⟩ := (hvariant hpair).own_eq_some hown
    obtain rfl := tagText_inj htext htext'
    -- The values of the mapping are all different.
    cases member with
    | ref k => rw [eq_of_mem_mapping hkeys hmem (mem_of_firstValue hfirst)]
    | _ => cases hfirst

def catKey : String := "#/components/schemas/Cat"

def dogKey : String := "#/components/schemas/Dog"

def kindKey : String := "#/components/schemas/Kind"

/-- A writer that knows cats, dogs, and the enum of their kinds. -/
def kindWriter (namedEnums : Bool) : TypeWriter where
  registry := [(catKey, ⟨"Cat", catKey, .string⟩), (dogKey, ⟨"Dog", dogKey, .string⟩),
    (kindKey, ⟨"Kind", kindKey, .enum ["cat", "dog"] none⟩)]
  namedEnums
  qualifier := none

def catAndDog : List ClientType :=
  [.ref catKey, .ref dogKey]

/-- Cats have two values. -/
def kittyMapping : Table String String :=
  [("cat", catKey), ("kitty", catKey), ("dog", dogKey)]

theorem kitty_tagged :
    kittyMapping.keys.Nodup ∧ ∃ lines variants,
      (kindWriter true).PrintsUnion 0 catAndDog (some "kind") kittyMapping none (some kindKey) lines variants
          "Omit<Cat, 'kind'> & \x7b kind: Kind.Cat \x7d | Omit<Dog, 'kind'> & \x7b kind: Kind.Dog \x7d"
        ∧ ∀ v, (.ref catKey, v) ∈ catAndDog.zip variants → v.own = some "Kind.Cat" := by
  have hwrite : ((kindWriter true).write 0 (.union catAndDog (some "kind") kittyMapping none (some kindKey))).result
      = .ok "Omit<Cat, 'kind'> & \x7b kind: Kind.Cat \x7d | Omit<Dog, 'kind'> & \x7b kind: Kind.Dog \x7d" := by cbv
  have hkeys : kittyMapping.keys.Nodup := by decide
  obtain ⟨lines, variants, hprints, htagged, -⟩ := variants_tagged hkeys hwrite
  obtain ⟨own, htext, -, hall⟩ := htagged "cat" catKey rfl
  have hcat : ((kindWriter true).tagText (some kindKey) "cat").result = .ok "Kind.Cat" := by cbv
  rw [hcat] at htext
  cases htext
  exact ⟨hkeys, lines, variants, hprints, hall⟩

/-- A piece with a character that does not occur in a text does not stand in it. -/
theorem ne_append_of_notMem {text piece : String} {c : Char} (hpiece : c ∈ piece.toList) (htext : c ∉ text.toList)
    (front back : String) : text ≠ front ++ piece ++ back := by
  rintro rfl
  rw [String.toList_append, String.toList_append] at htext
  exact htext (List.mem_append_left _ (List.mem_append_right _ hpiece))

/-- A second value for a member is lost: what it would be printed as does not stand in the text. -/
theorem kitty_lost :
    ((kindWriter false).write 0 (.union catAndDog (some "kind") kittyMapping none (some kindKey))).result
        = .ok "Omit<Cat, 'kind'> & \x7b kind: 'cat' \x7d | Omit<Dog, 'kind'> & \x7b kind: 'dog' \x7d"
      ∧ ("kitty", catKey) ∈ kittyMapping
      ∧ ((kindWriter false).tagText (some kindKey) "kitty").result = .ok "'kitty'"
      ∧ ∀ front back, "Omit<Cat, 'kind'> & \x7b kind: 'cat' \x7d | Omit<Dog, 'kind'> & \x7b kind: 'dog' \x7d"
        ≠ front ++ "'kitty'" ++ back :=
  ⟨by cbv, by decide, by cbv, ne_append_of_notMem (c := 'y') (by decide) (by decide)⟩

/-! ### Shared fields -/

/-- A field is there in a variant: in the block that stands next to all variants, or as the discriminator field of
    this one. -/
def IsShown (tag : Option String) (fields : List (Field ClientType)) (lines : List String) (v : PrintedVariant)
    (f : Field ClientType) : Prop :=
  (∃ line, (f, line) ∈ (shownFields tag (some fields)).zip lines) ∨ tag = some f.name ∧ v.own.isSome

theorem PrintsVariant.isSome_own {member : ClientType} {v : PrintedVariant} {field : String}
    (h : w.PrintsVariant depth (some field) mapping tagType member v) :
    v.own.isSome ↔ ∃ key value, member = .ref key ∧ (value, key) ∈ mapping := by
  have hvalue : (memberValue mapping member).isSome ↔ ∃ key value, member = .ref key ∧ (value, key) ∈ mapping := by
    cases member with
    | ref k => simp [memberValue, isSome_firstValue_iff]
    | _ => simp [memberValue]
  rw [← hvalue]
  cases h with
  | tagged _ hvalue => simp [hvalue]
  | plain hnone => simp [hnone.resolve_left (Option.some_ne_none field)]

/-- **Shared fields.**  Every shared field stands in the block, with its name, its type, and whether it may be left
    out, unless it is the discriminator field.  This one is there only in the variants of members that some value is
    mapped to. -/
theorem fields_shown {fields : List (Field ClientType)}
    (h : (w.write depth (.union members tag mapping (some fields) tagType)).result = .ok text) :
    ∃ lines variants, w.PrintsUnion depth members tag mapping (some fields) tagType lines variants text
      ∧ ∀ member v, (member, v) ∈ members.zip variants → ∀ f ∈ fields,
        (IsShown tag fields lines v f
          ↔ (tag = some f.name → ∃ key value, member = .ref key ∧ (value, key) ∈ mapping)) := by
  obtain ⟨lines, variants, hprints⟩ := exists_printsUnion h
  refine ⟨lines, variants, hprints, fun member v hpair f hf => ?_⟩
  have hvariant := (List.forall₂_iff_zip.mp hprints.of_members).2 hpair
  have hblock : (∃ line, (f, line) ∈ (shownFields tag (some fields)).zip lines) ↔ tag ≠ some f.name := by
    have hshown : f ∈ shownFields tag (some fields) ↔ tag ≠ some f.name := by
      simp only [shownFields, Option.getD_some, List.mem_filter, bne_iff_ne, hf, true_and]
      exact ne_comm
    rw [← hshown]
    constructor
    · rintro ⟨line, hline⟩
      exact (List.of_mem_zip hline).1
    · exact exists_mem_zip hprints.of_shown
  rw [IsShown, hblock]
  by_cases htag : tag = some f.name
  · rw [htag] at hvariant
    simp [htag, hvariant.isSome_own]
  · simp [htag]

/-- The discriminator field is shared with another one. -/
def kindAndId : List (Field ClientType) :=
  [⟨"kind", .string, true⟩, ⟨"id", .string, true⟩]

/-- Cats have their kind, but texts do not. -/
theorem kind_shown : ∃ lines variants,
    (kindWriter false).PrintsUnion 0 [.ref catKey, .string] (some "kind") [("cat", catKey)] (some kindAndId) none lines
        variants "\x7b\n  id: string;\n\x7d & (Omit<Cat, 'kind'> & \x7b kind: 'cat' \x7d | string)"
      ∧ ∀ v, (ClientType.ref catKey, v) ∈ [ClientType.ref catKey, .string].zip variants →
        ∀ f ∈ kindAndId, IsShown (some "kind") kindAndId lines v f := by
  have hwrite : ((kindWriter false).write 0 (.union [.ref catKey, .string] (some "kind") [("cat", catKey)]
      (some kindAndId) none)).result
      = .ok "\x7b\n  id: string;\n\x7d & (Omit<Cat, 'kind'> & \x7b kind: 'cat' \x7d | string)" := by cbv
  obtain ⟨lines, variants, hprints, hshown⟩ := fields_shown hwrite
  exact ⟨lines, variants, hprints, fun v hv f hf => (hshown _ v hv f hf).mpr fun _ => ⟨catKey, "cat", rfl, by decide⟩⟩

/-- Without a mapping the discriminator field is lost: its name does not stand in the text. -/
theorem kind_lost :
    ((kindWriter false).write 0 (.union [.ref catKey] (some "kind") [] (some kindAndId) none)).result
        = .ok "\x7b\n  id: string;\n\x7d & (Cat)"
      ∧ ⟨"kind", .string, true⟩ ∈ kindAndId
      ∧ ∀ front back, "\x7b\n  id: string;\n\x7d & (Cat)" ≠ front ++ "kind" ++ back :=
  ⟨by cbv, List.mem_cons_self, ne_append_of_notMem (c := 'k') (by decide) (by decide)⟩

end TypedClient.Output.TypeWriter
