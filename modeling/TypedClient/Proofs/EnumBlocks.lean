import TypedClient.Proofs.Clients
import TypedClient.Proofs.Conversion
import TypedClient.Proofs.MemberNames

namespace TypedClient

/-!
# Blocks of enums

An enum with a name of its own is written as a block with one line for each value.  The values are the texts of the
elements that the schema lists, and the members are looked up by these texts.  So elements with one text share a
member, and its line stands in the block as often as the text is listed.

* `Schema.Lists` — the elements that a schema lists as its values.
* `Schema.Converts.exists_lists` — the values of an enum are the texts of these elements.
* `Output.memberLines` — the members of a block with their values.
* `Output.members_once_iff` — every member is declared once exactly if all elements have texts of their own.
-/

namespace Schema

/-- The elements that a schema lists as its values. -/
inductive Lists (items : List Value) : Value → Prop
  | again {levels content} : Lists items content → Lists items (.again levels content)
  | here {entries} : IsOf entries "string" → (keyword entries "enum").elements = .ok items →
      Lists items (.map entries)

/-- The values of an enum are the texts of the elements that the schema lists. -/
theorem Converts.exists_lists {scope : Link.Scope} {schema : Value} {log : List String} {values : List String}
    {assigned : Option String} (h : Converts scope schema log (.enum values assigned)) :
    ∃ items, Lists items schema ∧ List.Forall₂ (fun item value => item.asDisplayed = .ok value) items values := by
  generalize htype : ClientType.enum values assigned = type at h
  induction h with
  | again _ ih =>
    obtain ⟨items, hlists, htexts⟩ := ih htype
    exact ⟨items, .again hlists, htexts⟩
  | enum hof _ hvalues =>
    cases htype
    obtain ⟨items, hitems, htexts⟩ := Except.bind_eq_ok.mp hvalues
    exact ⟨items, .here hof hitems, Except.mapM_eq_ok.mp htexts⟩
  | link | boolean | number | string | array | composition | union | object | freeFormMap | map => cases htype

end Schema

namespace Output

open Naming (IsPlain)

/-! ### Lines -/

/-- The members that a block declares, in order, each with its value. -/
def memberLines (values : List String) : List (String × String) :=
  values.map fun value => (((Naming.members values).get? value).getD "", value)

variable {values : List String} {value other : String}

theorem get?_members_eq (h : value ∈ values) :
    (Naming.members values).get? value = some (((Naming.members values).get? value).getD "") := by
  obtain ⟨member, hmember⟩ := Option.isSome_iff_exists.mp (Naming.isSome_get?_members_iff.mpr h)
  rw [hmember, Option.getD_some]

theorem writeEnum_eq (name : String) (values : List String) :
    TypeWriter.writeEnum name values
      = "export enum " ++ name ++ " " ++ block 0 ((memberLines values).map fun d => enumLine d.1 d.2) := by
  rw [memberLines, List.map_map]
  rfl

theorem map_snd_memberLines (values : List String) : (memberLines values).map (·.2) = values := by
  rw [memberLines, List.map_map]
  exact List.map_id values

theorem isPlain_of_mem_memberLines {d : String × String} (h : d ∈ memberLines values) : IsPlain d.1 := by
  obtain ⟨value, hvalue, rfl⟩ := List.mem_map.mp h
  exact Naming.isPlain_of_get?_members (get?_members_eq hvalue)

/-- The lines of one value are all the same. -/
theorem filter_memberLines (values : List String) (value : String) :
    (memberLines values).filter (·.2 = value)
      = List.replicate (values.count value) (((Naming.members values).get? value).getD "", value) := by
  rw [List.eq_replicate_iff]
  constructor
  · rw [memberLines, ← List.countP_eq_length_filter, List.countP_map, List.count]
    exact List.countP_congr fun other _ => by simp
  · intro d hd
    obtain ⟨hmem, hvalue⟩ := List.mem_filter.mp hd
    obtain ⟨other, -, rfl⟩ := List.mem_map.mp hmem
    obtain rfl : other = value := of_decide_eq_true hvalue
    rfl

/-- The members are all different exactly if the values are. -/
theorem nodup_memberLines_iff : ((memberLines values).map (·.1)).Nodup ↔ values.Nodup := by
  rw [memberLines, List.map_map]
  refine ⟨List.Nodup.of_map _, List.Nodup.map_on fun value hvalue other hother heq => ?_⟩
  have hsame : (Naming.members values).get? other = (Naming.members values).get? value := by
    rw [get?_members_eq hother, get?_members_eq hvalue]
    exact congrArg some heq.symm
  exact Naming.members_inj (get?_members_eq hvalue) (hsame.trans (get?_members_eq hvalue))

/-! ### Blocks of schemas -/

open Schema (Lists convert)

/-- Texts are all different exactly if no two elements have the same. -/
theorem nodup_texts_iff {items : List Value}
    (h : List.Forall₂ (fun item value => item.asDisplayed = .ok value) items values) :
    values.Nodup ↔ items.Pairwise fun a b => a.asDisplayed ≠ b.asDisplayed := by
  have htexts : items.map Value.asDisplayed = values.map Except.ok := by
    induction h with
    | nil => rfl
    | cons hitem _ ih => rw [List.map_cons, List.map_cons, hitem, ih]
  rw [← List.pairwise_map (f := Value.asDisplayed) (R := (· ≠ ·)), htexts, List.pairwise_map, List.Nodup]
  simp only [ne_eq, Except.ok.injEq]

/-- **Members of enums.**  The block of an enum, under whatever name, has one line for each element that the schema
    lists, with the literal of the element's text.  A member is a letter with letters and digits behind it, and it
    belongs to one text: the line of a text stands in the block as often as the text is listed.  So the members are
    all different exactly if no two elements have the same text. -/
theorem members_once_iff {scope : Link.Scope} {schema : Value} {log : List String} {assigned : Option String}
    (h : convert scope schema = ⟨log, .ok (.enum values assigned)⟩) :
    ∃ items, Lists items schema ∧ List.Forall₂ (fun item value => item.asDisplayed = .ok value) items values
      ∧ ∀ name, ∃ declared : List (String × String),
        TypeWriter.writeEnum name values
            = "export enum " ++ name ++ " " ++ block 0 (declared.map fun d => enumLine d.1 d.2)
          ∧ declared.map (·.2) = values ∧ (∀ d ∈ declared, IsPlain d.1)
          ∧ (∀ value ∈ values, ∃ member,
            declared.filter (·.2 = value) = List.replicate (values.count value) (member, value))
          ∧ ((declared.map (·.1)).Nodup ↔ items.Pairwise fun a b => a.asDisplayed ≠ b.asDisplayed) := by
  obtain ⟨items, hlists, htexts⟩ := (Schema.convert_eq_ok_iff.mp h).exists_lists
  refine ⟨items, hlists, htexts, fun name => ⟨memberLines values, writeEnum_eq name values,
    map_snd_memberLines values, fun _ => isPlain_of_mem_memberLines, fun value _ => ?_, ?_⟩⟩
  · exact ⟨_, filter_memberLines values value⟩
  · exact nodup_memberLines_iff.trans (nodup_texts_iff htexts)

/-- A schema of an enum. -/
def enumSchema (items : List Value) : Value :=
  .map [(.text "type", .text "string"), (.text "enum", .list items)]

theorem convert_enumSchema {item : Value} {items : List Value}
    (h : Schema.enumValues (.list (item :: items)) = .ok values) :
    convert ⟨"", ""⟩ (enumSchema (item :: items)) = ⟨[], .ok (.enum values none)⟩ :=
  Schema.convert_eq_ok_iff.mpr (.enum ⟨rfl, rfl⟩ rfl h)

/-- Two texts that differ have a member each. -/
theorem low_members : convert ⟨"", ""⟩ (enumSchema [.text "low", .text "high"])
      = ⟨[], .ok (.enum ["low", "high"] none)⟩
    ∧ ∃ declared : List (String × String), declared.map (·.2) = ["low", "high"] ∧ (declared.map (·.1)).Nodup
      ∧ TypeWriter.writeEnum "Level" ["low", "high"]
        = "export enum Level " ++ block 0 (declared.map fun d => enumLine d.1 d.2) := by
  have hconvert : convert ⟨"", ""⟩ (enumSchema [.text "low", .text "high"])
      = ⟨[], .ok (.enum ["low", "high"] none)⟩ := convert_enumSchema (by cbv)
  obtain ⟨items, hlists, -, hblock⟩ := members_once_iff hconvert
  obtain ⟨declared, htext, hvalues, -, -, hnodup⟩ := hblock "Level"
  refine ⟨hconvert, declared, hvalues, hnodup.mpr ?_, htext⟩
  cases hlists with
  | here _ hitems =>
    cases hitems
    rw [List.pairwise_pair]
    exact fun heq => absurd (Except.ok.inj heq) (by decide)

/-- A number and a text are listed that look the same: the one member that they share is declared twice. -/
theorem one_twice : convert ⟨"", ""⟩ (enumSchema [.int 1, .text "1"]) = ⟨[], .ok (.enum ["1", "1"] none)⟩
    ∧ TypeWriter.writeEnum "Flag" ["1", "1"]
      = "export enum Flag \x7b\n  Value12 = '1',\n  Value12 = '1',\n\x7d"
    ∧ ¬ ((memberLines ["1", "1"]).map (·.1)).Nodup :=
  ⟨convert_enumSchema (Except.eq_ok_of_toOption (by decide +kernel)), by decide +kernel,
    by rw [nodup_memberLines_iff]; decide⟩

end Output

end TypedClient
