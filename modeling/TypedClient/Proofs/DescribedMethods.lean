import Mathlib.Data.List.Nodup
import TypedClient.Proofs.Sites

namespace TypedClient

/-!
# The methods that paths describe

The entries of a path are methods and other things, and a key is a method whichever way its letters are cased.  Every
method that is described gives one operation, in the order of the document.

* `Route.sites` — the described methods of all paths, in the order of the document.
* `Route.forall₂_gives` — extraction makes one operation of each of them.
* `Route.OneMethod` — two keys that are one method in letters of different case.
* `Route.nodup_address_sites_iff` — no two sites have method and route in common exactly if no path has such keys.
-/

/-- What tells operations apart: the method and the route. -/
def Operation.address (o : Operation) : String × String :=
  (o.method, o.route)

namespace Route

/-! ### Sites in order -/

/-- The entries of a map; other values have none. -/
def entriesOf (v : Value) : List (Value × Value) :=
  match v.entries with
  | .ok entries => entries
  | .error _ => []

/-- The method that an entry of a path describes, and what it says about it. -/
def described? (entry : Value × Value) : Option (String × Value) :=
  match methodOf entry.1 with
  | .ok (some method) => some (method, entry.2.orEmpty)
  | _ => none

/-- The described methods of one path. -/
def sitesOfPath (entry : Value × Value) : List Site :=
  match entry.1 with
  | .text route => ((entriesOf entry.2).filterMap described?).map fun d => ⟨route, entry.2, d.1, d.2⟩
  | _ => []

/-- The described methods of all paths, in the order of the document. -/
def sites (paths : Value) : List Site :=
  (entriesOf paths.orEmpty).flatMap sitesOfPath

variable {entry : String} {paths : Value} {log : List String} {operations : List Operation}
  {routes entries : List (Value × Value)}

theorem entriesOf_eq {v : Value} (h : v.entries = .ok entries) : entriesOf v = entries := by
  rw [entriesOf, h]

theorem described?_eq_some_iff {key given spec : Value} {method : String} :
    described? (key, given) = some (method, spec) ↔ methodOf key = .ok (some method) ∧ spec = given.orEmpty := by
  unfold described?
  constructor
  · intro h
    split at h
    · next heq =>
      cases h
      exact ⟨heq, rfl⟩
    · cases h
  · rintro ⟨hmethod, rfl⟩
    simp [hmethod]

theorem mem_entriesOf_iff {v : Value} {e : Value × Value} :
    e ∈ entriesOf v ↔ ∃ entries, v.entries = .ok entries ∧ e ∈ entries := by
  unfold entriesOf
  cases v.entries with
  | ok entries => simp
  | error e => simp

/-- The sites are the methods of the paths. -/
theorem mem_sites_iff {s : Site} : s ∈ sites paths ↔ s.In paths := by
  rw [sites, List.mem_flatMap]
  constructor
  · rintro ⟨⟨route, path⟩, hpath, hs⟩
    obtain ⟨routes, hroutes, hpath⟩ := mem_entriesOf_iff.mp hpath
    cases route with
    | text route =>
      obtain ⟨⟨method, spec⟩, hmem, rfl⟩ := List.mem_map.mp hs
      obtain ⟨⟨key, given⟩, hentry, hdescribed⟩ := List.mem_filterMap.mp hmem
      obtain ⟨entries, hentries, hentry⟩ := mem_entriesOf_iff.mp hentry
      obtain ⟨hmethod, hspec⟩ := described?_eq_some_iff.mp hdescribed
      exact ⟨routes, entries, key, given, hroutes, hpath, hentries, hentry, hmethod, hspec⟩
    | _ => cases hs
  · rintro ⟨routes, entries, key, given, hroutes, hpath, hentries, hentry, hmethod, hspec⟩
    refine ⟨_, mem_entriesOf_iff.mpr ⟨routes, hroutes, hpath⟩, ?_⟩
    exact List.mem_map.mpr ⟨(s.method, s.spec), List.mem_filterMap.mpr ⟨_, mem_entriesOf_iff.mpr ⟨entries, hentries,
      hentry⟩, described?_eq_some_iff.mpr ⟨hmethod, hspec⟩⟩, rfl⟩

/-! ### One operation for each site -/

def Site.address (s : Site) : String × String :=
  (s.method, s.route)

/-- The operation is what extraction makes of the site. -/
def Site.Gives (entry : String) (s : Site) (o : Operation) : Prop :=
  ∃ shared log, s.path.get "parameters" = .ok shared
    ∧ extractOperation entry (.text s.route) s.method s.spec (shared.orElse (.list [])) = ⟨log, .ok o⟩

theorem extractOperation_address {route spec shared : Value} {method : String} {o : Operation}
    (h : extractOperation entry route method spec shared = ⟨log, .ok o⟩) :
    route = .text o.route ∧ o.method = method := by
  rw [extractOperation_eq] at h
  obtain ⟨_, head, _, hhead, h, -⟩ := Logged.bind_eq_ok.mp h
  obtain ⟨_, parts, _, -, h, -⟩ := Logged.bind_eq_ok.mp h
  obtain ⟨_, result, _, -, h, -⟩ := Logged.bind_eq_ok.mp h
  obtain ⟨-, rfl⟩ := Logged.pure_eq_ok.mp h
  -- The route of the head is the text that was given.
  obtain ⟨-, hhead⟩ := Logged.lift_eq_ok.mp hhead
  simp only [headOf, Except.bind_eq_ok] at hhead
  obtain ⟨text, htext, _, -, _, -, _, -, _, -, hhead⟩ := hhead
  split at hhead
  · cases hhead
    exact ⟨Schema.asText_eq_ok_iff.mp htext, rfl⟩
  · cases hhead

theorem Site.Gives.address_eq {s : Site} {o : Operation} (h : s.Gives entry o) : o.address = s.address := by
  obtain ⟨shared, log, -, hoperation⟩ := h
  obtain ⟨hroute, hmethod⟩ := extractOperation_address hoperation
  rw [Operation.address, Site.address, hmethod, Value.text.inj hroute]

theorem forall₂_extractMethods {route shared : Value}
    (h : extractMethods entry route shared entries = ⟨log, .ok operations⟩) :
    List.Forall₂ (fun d o => ∃ log, extractOperation entry route d.1 d.2 shared = ⟨log, .ok o⟩)
      (entries.filterMap described?) operations := by
  induction entries generalizing log operations with
  | nil =>
    obtain ⟨-, rfl⟩ := Logged.pure_eq_ok.mp h
    exact .nil
  | cons e rest ih =>
    obtain ⟨key, given⟩ := e
    unfold extractMethods at h
    cases hmethod : methodOf key with
    | error e => simp [hmethod] at h
    | ok method =>
      rw [hmethod, Logged.lift_ok_bind] at h
      cases method with
      | none =>
        -- An entry that is no method gives neither a site nor an operation.
        have hskipped : described? (key, given) = none := by simp [described?, hmethod]
        rw [List.filterMap_cons_none hskipped]
        exact ih h
      | some method =>
        rw [List.filterMap_cons_some (described?_eq_some_iff.mpr ⟨hmethod, rfl⟩)]
        obtain ⟨_, o, _, ho, h, -⟩ := Logged.bind_eq_ok.mp h
        obtain ⟨_, others, _, hothers, h, -⟩ := Logged.bind_eq_ok.mp h
        obtain ⟨-, rfl⟩ := Logged.pure_eq_ok.mp h
        exact .cons ⟨_, ho⟩ (ih hothers)

/-- What a path describes gives its operations; only a text is a route. -/
theorem forall₂_sitesOfPath {route path shared : Value} (hshared : path.get "parameters" = .ok shared)
    (hentries : path.entries = .ok entries)
    (h : extractMethods entry route (shared.orElse (.list [])) entries = ⟨log, .ok operations⟩) :
    List.Forall₂ (Site.Gives entry) (sitesOfPath (route, path)) operations := by
  have hmethods := forall₂_extractMethods h
  by_cases htext : ∃ text, route = .text text
  · obtain ⟨text, rfl⟩ := htext
    rw [sitesOfPath, entriesOf_eq hentries, List.forall₂_map_left_iff]
    refine hmethods.imp ?_
    rintro d o ⟨log, ho⟩
    exact ⟨shared, log, hshared, ho⟩
  · -- Nothing is extracted at a route that is no text, so there must not be a method.
    have hsites : sitesOfPath (route, path) = [] := by
      unfold sitesOfPath
      split
      · next text heq => exact absurd ⟨text, heq⟩ htext
      · rfl
    rw [hsites]
    generalize entries.filterMap described? = methods at hmethods
    cases hmethods with
    | nil => exact .nil
    | cons ho _ =>
      obtain ⟨_, ho⟩ := ho
      exact absurd ⟨_, (extractOperation_address ho).1⟩ htext

theorem forall₂_extractPaths (h : extractPaths entry routes = ⟨log, .ok operations⟩) :
    List.Forall₂ (Site.Gives entry) (routes.flatMap sitesOfPath) operations := by
  induction routes generalizing log operations with
  | nil =>
    obtain ⟨-, rfl⟩ := Logged.pure_eq_ok.mp h
    exact .nil
  | cons p rest ih =>
    obtain ⟨route, path⟩ := p
    unfold extractPaths at h
    obtain ⟨_, shared, _, hshared, h, -⟩ := Logged.bind_eq_ok.mp h
    obtain ⟨_, entries, _, hentries, h, -⟩ := Logged.bind_eq_ok.mp h
    obtain ⟨_, own, _, hown, h, -⟩ := Logged.bind_eq_ok.mp h
    obtain ⟨_, others, _, hothers, h, -⟩ := Logged.bind_eq_ok.mp h
    obtain ⟨-, rfl⟩ := Logged.pure_eq_ok.mp h
    rw [List.flatMap_cons]
    exact List.rel_append
      (forall₂_sitesOfPath (Logged.lift_eq_ok.mp hshared).2 (Logged.lift_eq_ok.mp hentries).2 hown) (ih hothers)

/-- **One operation for each site.**  Extraction makes one operation of every method that is described, in the order
    of the document, and no other operation. -/
theorem forall₂_gives (h : extract entry paths = ⟨log, .ok operations⟩) :
    List.Forall₂ (Site.Gives entry) (sites paths) operations := by
  obtain ⟨_, routes, _, hroutes, h, -⟩ := Logged.bind_eq_ok.mp h
  rw [sites, entriesOf_eq (Logged.lift_eq_ok.mp hroutes).2]
  exact forall₂_extractPaths h

theorem map_address_eq (h : extract entry paths = ⟨log, .ok operations⟩) :
    operations.map Operation.address = (sites paths).map Site.address := by
  have hgives := forall₂_gives h
  clear h
  generalize sites paths = ss at hgives ⊢
  induction hgives with
  | nil => rfl
  | cons hs _ ih => rw [List.map_cons, List.map_cons, hs.address_eq, ih]

/-! ### Methods that are described twice -/

/-- The two keys are one method, in letters of different case or of the same. -/
def OneMethod (key other : Value) : Prop :=
  ∃ s t, key = .text s ∧ other = .text t ∧ Text.lowered s = Text.lowered t ∧ Text.lowered s ∈ methods

/-- No two keys of a map are equal. -/
def KeysDiffer (v : Value) : Prop :=
  (entriesOf v).Pairwise fun a b => a.1.same b.1 = false

/-- No path has two keys that are one method. -/
def MethodsOnce (paths : Value) : Prop :=
  ∀ route path, (.text route, path) ∈ entriesOf paths.orEmpty →
    (entriesOf path).Pairwise fun a b => ¬ OneMethod a.1 b.1

theorem methodOf_eq_iff {key : Value} {method : String} :
    methodOf key = .ok (some method) ↔ ∃ s, key = .text s ∧ Text.lowered s ∈ methods
      ∧ String.ofList ((Text.lowered s).toList.map Char.toUpper) = method := by
  unfold methodOf
  cases key with
  | text s =>
    by_cases hs : Text.lowered s ∈ methods
    · simp [hs, Except.pure_eq_ok]
    · simp [hs, Except.pure_eq_ok]
  | bytes octets => simp [Except.pure_eq_ok]
  | _ => simp [throw, throwThe, MonadExceptOf.throw]

/-- The five methods differ in upper case as well. -/
theorem upper_inj {word other : String} (hword : word ∈ methods) (hother : other ∈ methods)
    (h : String.ofList (word.toList.map Char.toUpper) = String.ofList (other.toList.map Char.toUpper)) :
    word = other := by
  have hall : ∀ word ∈ methods, ∀ other ∈ methods,
      String.ofList (word.toList.map Char.toUpper) = String.ofList (other.toList.map Char.toUpper) → word = other := by
    decide
  exact hall word hword other hother h

theorem oneMethod_iff {key other : Value} :
    OneMethod key other ↔ ∃ method, methodOf key = .ok (some method) ∧ methodOf other = .ok (some method) := by
  constructor
  · rintro ⟨s, t, rfl, rfl, heq, hs⟩
    exact ⟨_, methodOf_eq_iff.mpr ⟨s, rfl, hs, rfl⟩, methodOf_eq_iff.mpr ⟨t, rfl, heq ▸ hs, by rw [heq]⟩⟩
  · rintro ⟨method, hkey, hother⟩
    obtain ⟨s, rfl, hs, hmethod⟩ := methodOf_eq_iff.mp hkey
    obtain ⟨t, rfl, ht, hmethod'⟩ := methodOf_eq_iff.mp hother
    exact ⟨s, t, rfl, rfl, upper_inj hs ht (hmethod.trans hmethod'.symm), hs⟩

theorem nodup_address_sitesOfPath_iff {route : String} {path : Value} :
    ((sitesOfPath (.text route, path)).map Site.address).Nodup
      ↔ (entriesOf path).Pairwise fun a b => ¬ OneMethod a.1 b.1 := by
  rw [sitesOfPath, List.map_map, List.Nodup, List.pairwise_map, List.pairwise_filterMap]
  refine List.Pairwise.iff ?_
  rintro ⟨key, given⟩ ⟨other, given'⟩
  rw [oneMethod_iff]
  constructor
  · rintro h ⟨method, hkey, hother⟩
    exact h _ (described?_eq_some_iff.mpr ⟨hkey, rfl⟩) _ (described?_eq_some_iff.mpr ⟨hother, rfl⟩) rfl
  · rintro h ⟨method, spec⟩ hkey ⟨method', spec'⟩ hother heq
    obtain ⟨rfl, -⟩ := Prod.mk.inj heq
    exact h ⟨method, (described?_eq_some_iff.mp hkey).1, (described?_eq_some_iff.mp hother).1⟩

theorem route_of_mem_sitesOfPath {p : Value × Value} {s : Site} (h : s ∈ sitesOfPath p) : p.1 = .text s.route := by
  unfold sitesOfPath at h
  split at h
  · next route hroute =>
    obtain ⟨d, -, rfl⟩ := List.mem_map.mp h
    exact hroute
  · cases h

/-- **Methods that are described once.**  No two sites have method and route in common exactly if no path has two
    keys that are one method: the routes are keys of one map, and those differ. -/
theorem nodup_address_sites_iff (hkeys : KeysDiffer paths.orEmpty) :
    ((sites paths).map Site.address).Nodup ↔ MethodsOnce paths := by
  rw [sites, List.map_flatMap, List.nodup_flatMap]
  constructor
  · rintro ⟨hpaths, -⟩ route path hpath
    exact nodup_address_sitesOfPath_iff.mp (hpaths _ hpath)
  · intro honce
    refine ⟨?_, hkeys.imp ?_⟩
    · rintro ⟨route, path⟩ hpath
      cases route with
      | text route => exact nodup_address_sitesOfPath_iff.mpr (honce route path hpath)
      | _ => exact List.nodup_nil
    · -- Sites of two paths differ in the route, which is the key of the path.
      intro p q hdiffer address hp hq
      obtain ⟨s, hs, rfl⟩ := List.mem_map.mp hp
      obtain ⟨t, ht, heq⟩ := List.mem_map.mp hq
      obtain ⟨-, hroute⟩ := Prod.mk.inj heq
      rw [route_of_mem_sitesOfPath hs, route_of_mem_sitesOfPath ht, hroute] at hdiffer
      simp [Value.same] at hdiffer

end Route

end TypedClient
