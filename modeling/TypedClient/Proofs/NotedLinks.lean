import Mathlib
import TypedClient.Proofs.ResolverSteps

namespace TypedClient

open ClientType (Inside)

/-!
# What a conversion leaves in a resolver

A conversion reads nothing of a resolver but the name of the entry document.  It leaves behind the links that it
met, also if it fails, and each of them is remembered once, behind what was there before.

* `Appends` — a list goes on with the values of a property that were not in it, each once.
* `Resolver.Noted` — what links to the keys of a property make of a resolver.
* `Resolver.noted_noteLink`, `Resolver.noted_noteLinks` — they make it so, one after the other.
* `Resolver.convert_notes` — what a conversion leaves in a resolver are the references of its type.
-/

/-! ### Lists that grow at their ends -/

/-- The list `new` is `old` followed by all `p` that were not in it, each once. -/
def Appends (p : String → Prop) (old new : List String) : Prop :=
  ∃ added, new = old ++ added ∧ added.Nodup ∧ ∀ x, x ∈ added ↔ p x ∧ x ∉ old

namespace Appends

variable {p q : String → Prop} {xs old mid new : List String} {x : String}

/-- Nothing is added to a list that has everything. -/
theorem of_mem (h : ∀ x, p x → x ∈ xs) : Appends p xs xs := by
  refine ⟨[], (List.append_nil xs).symm, List.nodup_nil, fun x => ?_⟩
  constructor
  · nofun
  · rintro ⟨hx, hnot⟩
    exact absurd (h x hx) hnot

/-- One value is put behind the others, unless it is one of them. -/
theorem of_eq (h : ∀ y, p y ↔ y = x) : Appends p xs (if xs.contains x then xs else xs ++ [x]) := by
  rw [List.contains_eq_mem]
  by_cases hx : x ∈ xs
  · rw [decide_eq_true hx, if_pos rfl]
    refine of_mem fun y hy => ?_
    rwa [(h y).mp hy]
  · rw [decide_eq_false hx, if_neg Bool.false_ne_true]
    refine ⟨[x], rfl, List.nodup_singleton x, fun y => ?_⟩
    rw [List.mem_singleton, h]
    constructor
    · rintro rfl
      exact ⟨rfl, hx⟩
    · exact And.left

theorem congr (h : Appends p old new) (hpq : ∀ x, p x ↔ q x) : Appends q old new := by
  obtain ⟨added, rfl, hnodup, hmem⟩ := h
  refine ⟨added, rfl, hnodup, fun x => ?_⟩
  rw [hmem, hpq]

theorem trans (h : Appends p old mid) (h' : Appends q mid new) : Appends (fun x => p x ∨ q x) old new := by
  obtain ⟨added, rfl, hnodup, hmem⟩ := h
  obtain ⟨later, rfl, hnodup', hmem'⟩ := h'
  refine ⟨added ++ later, List.append_assoc old added later, hnodup.append hnodup' ?_, fun x => ?_⟩
  · -- What comes later was not there before.
    intro x hx hlater
    exact ((hmem' x).mp hlater).2 (List.mem_append_right old hx)
  · simp only [List.mem_append, hmem, hmem', not_or]
    constructor
    · rintro (⟨hp, hold⟩ | ⟨hq, hold, -⟩)
      · exact ⟨.inl hp, hold⟩
      · exact ⟨.inr hq, hold⟩
    · rintro ⟨hp | hq, hold⟩
      · exact .inl ⟨hp, hold⟩
      · by_cases hadded : p x
        · exact .inl ⟨hadded, hold⟩
        · exact .inr ⟨hq, hold, fun h => hadded h.1⟩

end Appends

/-! ### Links that are noted -/

namespace Resolver

/-- What links to the keys `p` make of a resolver. -/
structure Noted (p : String → Prop) (r r' : Resolver) : Prop where
  entry_eq : r'.entry = r.entry
  base_eq : r'.base = r.base
  registry_eq : r'.registry = r.registry
  loaded_eq : r'.loaded = r.loaded
  asked_eq : r'.asked = r.asked
  /-- Missing are now also the keys that are not declared. -/
  pending : Appends (fun key => p key ∧ key ∉ r.registry.keys) r.pending r'.pending
  /-- Queued are now also their files, as far as they are not loaded. -/
  queue : Appends (fun file => file ∉ r.loaded ∧ ∃ key, p key ∧ key ∉ r.registry.keys ∧ Link.fileOf key = file)
    r.queue r'.queue

variable {r r' r'' : Resolver} {p q : String → Prop}

/-- Links to declared keys change nothing. -/
theorem Noted.of_declared (h : ∀ key, p key → key ∈ r.registry.keys) : Noted p r r where
  entry_eq := rfl
  base_eq := rfl
  registry_eq := rfl
  loaded_eq := rfl
  asked_eq := rfl
  pending := .of_mem fun key ⟨hkey, hnot⟩ => absurd (h key hkey) hnot
  queue := .of_mem fun _ ⟨_, key, hkey, hnot, _⟩ => absurd (h key hkey) hnot

theorem Noted.congr (h : Noted p r r') (hpq : ∀ key, p key ↔ q key) : Noted q r r' := by
  rwa [← funext fun key => propext (hpq key)]

theorem Noted.trans (h : Noted p r r') (h' : Noted q r' r'') : Noted (fun key => p key ∨ q key) r r'' where
  entry_eq := h'.entry_eq.trans h.entry_eq
  base_eq := h'.base_eq.trans h.base_eq
  registry_eq := h'.registry_eq.trans h.registry_eq
  loaded_eq := h'.loaded_eq.trans h.loaded_eq
  asked_eq := h'.asked_eq.trans h.asked_eq
  pending := by
    refine (h.pending.trans h'.pending).congr fun key => ?_
    rw [h.registry_eq, or_and_right]
  queue := by
    refine (h.queue.trans h'.queue).congr fun file => ?_
    simp only [h.registry_eq, h.loaded_eq, or_and_right, exists_or, ← and_or_left]

/-- What one link makes of a resolver. -/
theorem noted_noteLink (r : Resolver) (key : String) : Noted (· = key) r (r.noteLink key) := by
  -- A link to a declared key leaves no trace.
  by_cases hdeclared : key ∈ r.registry.keys
  · have heq : r.noteLink key = r := by
      rw [noteLink, if_pos (Table.isSome_get?_iff.mpr hdeclared)]
    rw [heq]
    exact .of_declared fun other hother => hother ▸ hdeclared
  · refine ⟨entry_noteLink, base_noteLink, registry_noteLink, loaded_noteLink, asked_noteLink, ?_, ?_⟩
    all_goals rw [noteLink, if_neg (mt Table.isSome_get?_iff.mp hdeclared)]
    · refine .of_eq fun other => ?_
      constructor
      · exact And.left
      · rintro rfl
        exact ⟨rfl, hdeclared⟩
    · by_cases hloaded : r.loaded.contains (Link.fileOf key)
      · -- A file that is loaded is not queued again.
        simp only [hloaded, Bool.true_or, if_true]
        refine .of_mem ?_
        rintro _ ⟨hnot, _, rfl, -, rfl⟩
        exact absurd (List.contains_iff_mem.mp hloaded) hnot
      · simp only [hloaded, Bool.false_or]
        refine .of_eq fun file => ?_
        constructor
        · rintro ⟨-, _, rfl, -, rfl⟩
          rfl
        · rintro rfl
          exact ⟨mt List.contains_iff_mem.mpr hloaded, key, rfl, hdeclared, rfl⟩

/-- What links make of a resolver. -/
theorem noted_noteLinks (r : Resolver) (keys : List String) : Noted (· ∈ keys) r (r.noteLinks keys) := by
  induction keys generalizing r with
  | nil => exact .of_declared nofun
  | cons key keys ih =>
    refine ((noted_noteLink r key).trans (ih (r.noteLink key))).congr fun other => ?_
    rw [List.mem_cons]

/-! ### Conversions -/

/-- Resolvers with one entry document convert schemas alike. -/
theorem convert_result_eq {other : Resolver} (h : other.entry = r.entry) (file : String) (schema : Value) :
    (other.convert file schema).1 = (r.convert file schema).1 := by
  have hscope : other.scope file = r.scope file := by rw [scope, scope, h]
  rw [convert, convert, run, run, hscope]

/-- **What a conversion leaves in a resolver.**  The type or the failure does not depend on anything that the
    resolver knows, apart from the name of the entry document.  If there is a type, its references are what has
    been noted; the keys that a discriminator maps to are none.  If there is none, some links have been noted. -/
theorem convert_notes {other : Resolver} (hentry : other.entry = r.entry) (file : String) (schema : Value) :
    (other.convert file schema).1 = (r.convert file schema).1
      ∧ (∀ type, (r.convert file schema).1 = .ok type →
        Noted (fun key => Inside (.ref key) type) r (r.convert file schema).2)
      ∧ (∀ members tag mapping shared tagType,
        (r.convert file schema).1 = .ok (.union members tag mapping shared tagType) →
        ∀ mapping', Noted (fun key => Inside (.ref key) (.union members tag mapping' shared tagType)) r
          (r.convert file schema).2)
      ∧ ∀ e, (r.convert file schema).1 = .error e →
        ∃ keys : List String, Noted (· ∈ keys) r (r.convert file schema).2 := by
  have hnoted : Noted (· ∈ (Schema.convert (r.scope file) schema).log) r (r.convert file schema).2 :=
    noted_noteLinks r _
  have hsuccess : ∀ type, (r.convert file schema).1 = .ok type →
      Noted (fun key => Inside (.ref key) type) r (r.convert file schema).2 := by
    intro type htype
    have hconverts := Schema.convert_eq_ok_iff.mp (Logged.eq_mk_of_result htype)
    exact hnoted.congr fun key => hconverts.mem_log_iff_inside
  refine ⟨convert_result_eq hentry file schema, hsuccess, ?_, fun e _ => ⟨_, hnoted⟩⟩
  intro members tag mapping shared tagType htype mapping'
  refine (hsuccess _ htype).congr fun key => ?_
  rw [ClientType.inside_ref_union, ClientType.inside_ref_union]

/-- A cat of another file; the discriminator speaks of a lynx, which is in a third file. -/
def catEntries : List (Value × Value) :=
  [(.text "oneOf", .list [.map [(.text "$ref", .text "cats.yaml#/components/schemas/Cat")]]),
    (.text "discriminator", .map [(.text "propertyName", .text "kind"),
      (.text "mapping", .map [(.text "lynx", .text "lynxes.yaml#/components/schemas/Lynx")])])]

def lynxMapping : Table String String :=
  [("lynx", "lynxes.yaml#/components/schemas/Lynx")]

/-- The union of the one cat. -/
def catUnion (mapping : Table String String) : ClientType :=
  .union [.ref "cats.yaml#/components/schemas/Cat"] (some "kind") mapping none none

/-- The resolver that has read the cats. -/
def knowingCats : Resolver where
  entry := ""
  base := ""
  registry := [("cats.yaml#/components/schemas/Cat", ⟨"Cat", "cats.yaml#/components/schemas/Cat", .string⟩)]
  pending := []
  queue := []
  loaded := ["", "cats.yaml"]
  asked := ["cats.yaml"]

theorem converts_catEntries : Schema.Converts ⟨"", ""⟩ (.map catEntries) ["cats.yaml#/components/schemas/Cat"]
    (catUnion lynxMapping) := by
  let cat : Schema.Conversion := ⟨.map [(.text "$ref", .text "cats.yaml#/components/schemas/Cat")],
    ["cats.yaml#/components/schemas/Cat"], .ref "cats.yaml#/components/schemas/Cat"⟩
  have hcat : ∀ c ∈ [cat], Schema.Converts ⟨"", ""⟩ c.schema c.log c.type := by
    intro c hc
    rw [List.mem_singleton.mp hc]
    exact .link rfl (by cbv)
  have howns : Schema.Owns catEntries none := by
    show Value.find? "properties" catEntries = none
    rfl
  have htags : Schema.Tags ⟨"", ""⟩ catEntries none (some "kind") lynxMapping none :=
    ⟨_, _, _, rfl, rfl, by cbv, rfl, rfl, by cbv⟩
  exact .union ⟨rfl, rfl⟩ howns (by simp) rfl rfl rfl hcat htags

/-- The file of the cats is queued by who has not read it, and the lynx is not noted by anyone. -/
theorem cats_noted :
    (knowingCats.convert "" (.map catEntries)).1 = ((fresh "" "").convert "" (.map catEntries)).1
      ∧ Noted (fun key => Inside (.ref key) (catUnion [])) (fresh "" "")
        ((fresh "" "").convert "" (.map catEntries)).2
      ∧ ((fresh "" "").convert "" (.map catEntries)).2.queue = ["cats.yaml"]
      ∧ (knowingCats.convert "" (.map catEntries)).2.queue = [] := by
  have hconvert : (fresh "" "").convert "" (.map catEntries)
      = (.ok (catUnion lynxMapping), (fresh "" "").noteLinks ["cats.yaml#/components/schemas/Cat"]) := by
    have hscope : (fresh "" "").scope "" = ⟨"", ""⟩ := rfl
    rw [convert, hscope, converts_catEntries.convert_eq]
    rfl
  have hknowing : (knowingCats.convert "" (.map catEntries)).2
      = knowingCats.noteLinks ["cats.yaml#/components/schemas/Cat"] := by
    have hscope : knowingCats.scope "" = ⟨"", ""⟩ := rfl
    rw [convert, hscope, converts_catEntries.convert_eq]
    rfl
  have hentry : knowingCats.entry = (fresh "" "").entry := rfl
  have hnotes := convert_notes hentry "" (.map catEntries)
  refine ⟨hnotes.1, hnotes.2.2.1 _ _ _ _ _ (congrArg Prod.fst hconvert) [], ?_, ?_⟩
  · rw [hconvert]
    rfl
  · rw [hknowing]
    rfl

end Resolver

end TypedClient
