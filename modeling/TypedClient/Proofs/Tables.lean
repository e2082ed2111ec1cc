import TypedClient.Table
import Mathlib.Data.List.Induction
import Mathlib.Data.List.Nodup

namespace TypedClient.Table

/-!
# Laws of tables

What a table holds after an entry was put into it, for tables of any kind.

* `get?_put` — a put value is found under its key, and every other key keeps its value.
* `mem_keys_put`, `nodup_keys_put` — the keys after a put; no key is there twice.
* `get?_eq_some_iff_mem` — in a table without repeated keys, what is found is what is in it.
* `ofList_eq_self` — pairs with different keys are their own table.
* `mem_keys_ofList`, `nodup_keys_ofList` — a table of pairs has the keys of the pairs, each once.
* `foldl_put_eq_self` — putting into a table what it holds already changes nothing.
-/

variable {κ α : Type}

/-! ### Keys and values -/

@[simp] theorem keys_nil : keys ([] : Table κ α) = [] := rfl

@[simp] theorem keys_cons (k : κ) (v : α) (rest : Table κ α) :
    keys ((k, v) :: rest) = k :: keys rest := rfl

theorem mem_keys_iff {table : Table κ α} {key : κ} :
    key ∈ table.keys ↔ ∃ value, (key, value) ∈ table := by
  simp [keys]

theorem mem_values_iff {table : Table κ α} {value : α} :
    value ∈ table.values ↔ ∃ key, (key, value) ∈ table := by
  simp [values]

/-! ### Lookup -/

variable [BEq κ]

/-- If no key is in a table twice, a key stands in exactly one entry. -/
theorem filter_eq_singleton [LawfulBEq κ] {table : Table κ α} (hnd : table.keys.Nodup) {key : κ}
    {value : α} (h : (key, value) ∈ table) :
    table.filter (fun entry => entry.1 == key) = [(key, value)] := by
  induction table with
  | nil => cases h
  | cons entry rest ih =>
    obtain ⟨k, v⟩ := entry
    rw [keys_cons, List.nodup_cons] at hnd
    rcases List.mem_cons.mp h with heq | h
    · cases heq
      have hrest : rest.filter (fun entry => entry.1 == key) = [] := by
        rw [List.filter_eq_nil_iff]
        rintro ⟨k, v⟩ hmem hk
        rw [beq_iff_eq] at hk
        subst hk
        exact hnd.1 (mem_keys_iff.mpr ⟨v, hmem⟩)
      simp [hrest]
    · have hne : ¬ (k == key) = true := by
        intro hk
        rw [beq_iff_eq] at hk
        subst hk
        exact hnd.1 (mem_keys_iff.mpr ⟨value, h⟩)
      rw [List.filter_cons, if_neg hne]
      exact ih hnd.2 h

@[simp] theorem get?_nil (key : κ) : get? ([] : Table κ α) key = none := rfl

theorem get?_cons (k : κ) (v : α) (rest : Table κ α) (key : κ) :
    get? ((k, v) :: rest) key = if key == k then some v else get? rest key := by
  simp only [get?, List.lookup_cons]
  by_cases h : key == k <;> simp [h]

variable [LawfulBEq κ]

/-- What is found under a key is in the table. -/
theorem mem_of_get?_eq_some {table : Table κ α} {key : κ} {value : α}
    (h : table.get? key = some value) : (key, value) ∈ table := by
  induction table with
  | nil => cases h
  | cons entry rest ih =>
    obtain ⟨k, v⟩ := entry
    rw [get?_cons] at h
    by_cases hk : key == k
    · rw [if_pos hk] at h
      cases h
      rw [eq_of_beq hk]
      exact List.mem_cons_self
    · rw [if_neg hk] at h
      exact List.mem_cons_of_mem _ (ih h)

/-- A key of the table has a value. -/
theorem isSome_get?_iff {table : Table κ α} {key : κ} :
    (table.get? key).isSome ↔ key ∈ table.keys := by
  induction table with
  | nil => simp
  | cons entry rest ih =>
    obtain ⟨k, v⟩ := entry
    rw [get?_cons, keys_cons, List.mem_cons, ← ih]
    by_cases hk : key == k
    · simp [eq_of_beq hk]
    · have hne : key ≠ k := fun e => hk (beq_iff_eq.mpr e)
      simp [hne]

/-- If no key is in the table twice, an entry of the table is found under its key. -/
theorem get?_eq_some_iff_mem {table : Table κ α} (hnd : table.keys.Nodup) {key : κ} {value : α} :
    table.get? key = some value ↔ (key, value) ∈ table := by
  refine ⟨mem_of_get?_eq_some, fun h => ?_⟩
  induction table with
  | nil => cases h
  | cons entry rest ih =>
    obtain ⟨k, v⟩ := entry
    rw [keys_cons, List.nodup_cons] at hnd
    rw [get?_cons]
    rcases List.mem_cons.mp h with heq | hrest
    · cases heq
      simp
    · have hne : ¬ (key == k) = true := by
        intro e
        rw [beq_iff_eq] at e
        subst e
        exact hnd.1 (mem_keys_iff.mpr ⟨value, hrest⟩)
      rw [if_neg hne]
      exact ih hnd.2 hrest

/-! ### Put -/

/-- A put value is found under its key, and every other key keeps its value. -/
theorem get?_put (table : Table κ α) (key : κ) (value : α) (other : κ) :
    (table.put key value).get? other = if other == key then some value else table.get? other := by
  induction table with
  | nil => rw [put, get?_cons]
  | cons entry rest ih =>
    obtain ⟨k, v⟩ := entry
    rw [put]
    by_cases hk : key == k
    · rw [if_pos hk, get?_cons, get?_cons, eq_of_beq hk]
      by_cases ho : other == k <;> simp [ho]
    · rw [if_neg hk, get?_cons, get?_cons, ih]
      by_cases ho : other == k
      · have hne : ¬ (other == key) = true := by
          intro e
          exact hk (by rw [← eq_of_beq e]; exact ho)
        simp [ho, hne]
      · simp [ho]

/-- A put adds its key at the end, if the key is new. -/
theorem keys_put (table : Table κ α) (key : κ) (value : α) :
    (table.put key value).keys = if key ∈ table.keys then table.keys else table.keys ++ [key] := by
  induction table with
  | nil => simp [put]
  | cons entry rest ih =>
    obtain ⟨k, v⟩ := entry
    rw [put]
    by_cases hk : key == k
    · rw [if_pos hk, keys_cons, keys_cons, eq_of_beq hk]
      simp
    · have hne : key ≠ k := fun e => hk (beq_iff_eq.mpr e)
      rw [if_neg hk, keys_cons, keys_cons, ih]
      by_cases hr : key ∈ keys rest
      · rw [if_pos hr, if_pos (List.mem_cons_of_mem _ hr)]
      · rw [if_neg hr, if_neg (by simp [hne, hr])]
        rfl

theorem mem_keys_put {table : Table κ α} {key : κ} {value : α} {other : κ} :
    other ∈ (table.put key value).keys ↔ other = key ∨ other ∈ table.keys := by
  rw [keys_put]
  by_cases h : key ∈ table.keys
  · rw [if_pos h]
    constructor
    · exact Or.inr
    · rintro (rfl | ho)
      · exact h
      · exact ho
  · rw [if_neg h, List.mem_append, List.mem_singleton, or_comm]

/-- A put does not make a key come twice. -/
theorem nodup_keys_put {table : Table κ α} (hnd : table.keys.Nodup) (key : κ) (value : α) :
    (table.put key value).keys.Nodup := by
  rw [keys_put]
  by_cases h : key ∈ table.keys
  · rwa [if_pos h]
  · rw [if_neg h]
    exact List.Nodup.append hnd (List.nodup_singleton key) (by simpa using h)

/-- What is in the table after a put was put or was there before. -/
theorem mem_put {table : Table κ α} {key : κ} {value : α} {entry : κ × α}
    (h : entry ∈ table.put key value) : entry = (key, value) ∨ entry ∈ table := by
  induction table with
  | nil => exact .inl (by simpa [put] using h)
  | cons first rest ih =>
    obtain ⟨k, v⟩ := first
    rw [put] at h
    by_cases hk : key == k
    · rw [if_pos hk] at h
      rcases List.mem_cons.mp h with rfl | h
      · exact .inl (by rw [eq_of_beq hk])
      · exact .inr (List.mem_cons_of_mem _ h)
    · rw [if_neg hk] at h
      rcases List.mem_cons.mp h with rfl | h
      · exact .inr List.mem_cons_self
      · exact (ih h).imp_right (List.mem_cons_of_mem _)

/-- A put of a new key goes to the end. -/
theorem put_of_notMem {table : Table κ α} {key : κ} (h : key ∉ table.keys) (value : α) :
    table.put key value = table ++ [(key, value)] := by
  induction table with
  | nil => rfl
  | cons entry rest ih =>
    obtain ⟨k, v⟩ := entry
    rw [keys_cons, List.mem_cons, not_or] at h
    have hk : ¬ (key == k) = true := fun e => h.1 (eq_of_beq e)
    rw [put, if_neg hk, ih h.2, List.cons_append]

/-! ### Tables of pairs -/

/-- Pairs with different keys that are new to a table are appended to it. -/
theorem foldl_put_eq_append (table : Table κ α) (pairs : List (κ × α))
    (hnd : (keys pairs).Nodup) (hnew : ∀ key ∈ keys pairs, key ∉ table.keys) :
    pairs.foldl (fun table (key, value) => table.put key value) table = table ++ pairs := by
  induction pairs generalizing table with
  | nil => simp
  | cons entry rest ih =>
    obtain ⟨k, v⟩ := entry
    rw [keys_cons, List.nodup_cons] at hnd
    have hk : k ∉ table.keys := hnew k List.mem_cons_self
    rw [List.foldl_cons]
    simp only [put_of_notMem hk]
    rw [ih _ hnd.2]
    · rw [List.append_assoc, List.singleton_append]
    · intro key hkey hmem
      rw [show keys (table ++ [(k, v)]) = table.keys ++ [k] by simp [keys], List.mem_append,
        List.mem_singleton] at hmem
      rcases hmem with hmem | rfl
      · exact hnew key (List.mem_cons_of_mem _ hkey) hmem
      · exact hnd.1 hkey

/-- Pairs with different keys are their own table. -/
theorem ofList_eq_self {pairs : List (κ × α)} (hnd : (keys pairs).Nodup) : ofList pairs = pairs := by
  have := foldl_put_eq_append [] pairs hnd (by simp)
  simpa [ofList] using this

/-- The keys after puts are those that were there and those of the pairs. -/
theorem mem_keys_foldl_put {table : Table κ α} {pairs : List (κ × α)} {key : κ} :
    key ∈ keys (pairs.foldl (fun table (k, v) => table.put k v) table)
      ↔ key ∈ table.keys ∨ key ∈ keys pairs := by
  induction pairs generalizing table with
  | nil => simp
  | cons entry rest ih =>
    obtain ⟨k, v⟩ := entry
    rw [List.foldl_cons, ih, mem_keys_put, keys_cons, List.mem_cons, or_comm (a := key = k), or_assoc]

/-- The keys of a table of pairs are the keys of the pairs. -/
theorem mem_keys_ofList {pairs : List (κ × α)} {key : κ} :
    key ∈ (ofList pairs).keys ↔ key ∈ keys pairs := by
  rw [ofList, mem_keys_foldl_put, keys_nil]
  exact or_iff_right List.not_mem_nil

/-- What a table of pairs holds is one of the pairs. -/
theorem mem_of_mem_ofList {pairs : List (κ × α)} {entry : κ × α} (h : entry ∈ ofList pairs) : entry ∈ pairs := by
  have hfold : ∀ table : Table κ α, entry ∈ pairs.foldl (fun table (k, v) => table.put k v) table →
      entry ∈ table ∨ entry ∈ pairs := by
    clear h
    induction pairs with
    | nil => exact fun _ => .inl
    | cons first rest ih =>
      intro table hmem
      rcases ih _ hmem with hput | hrest
      · rcases mem_put hput with rfl | htable
        · exact .inr List.mem_cons_self
        · exact .inl htable
      · exact .inr (List.mem_cons_of_mem _ hrest)
  exact (hfold [] h).resolve_left List.not_mem_nil

/-- In a table of pairs no key is there twice. -/
theorem nodup_keys_ofList (pairs : List (κ × α)) : (ofList pairs).keys.Nodup := by
  induction pairs using List.reverseRecOn with
  | nil => exact List.nodup_nil
  | append_singleton rest entry ih =>
    rw [ofList, List.foldl_concat]
    exact nodup_keys_put ih entry.1 entry.2

/-- What is found after puts is what the pairs give, or else what was there before. -/
theorem get?_foldl_put (table : Table κ α) (pairs : List (κ × α)) (key : κ) :
    get? (pairs.foldl (fun table (k, v) => table.put k v) table) key
      = ((ofList pairs).get? key).or (table.get? key) := by
  -- The last pair decides first.
  induction pairs using List.reverseRecOn with
  | nil => rfl
  | append_singleton rest entry ih =>
    obtain ⟨k, v⟩ := entry
    have hlast : ofList (rest ++ [(k, v)]) = (ofList rest).put k v := List.foldl_concat ..
    rw [List.foldl_concat, hlast, get?_put, get?_put, ih]
    by_cases hk : key == k
    · rw [if_pos hk, if_pos hk, Option.some_or]
    · rw [if_neg hk, if_neg hk]

/-- Puts under keys that are there keep all keys in their places. -/
theorem keys_foldl_put_of_subset {table : Table κ α} {pairs : List (κ × α)}
    (h : ∀ key ∈ keys pairs, key ∈ table.keys) :
    keys (pairs.foldl (fun table (k, v) => table.put k v) table) = table.keys := by
  induction pairs generalizing table with
  | nil => rfl
  | cons entry rest ih =>
    obtain ⟨k, v⟩ := entry
    have hput : (table.put k v).keys = table.keys := by
      rw [keys_put, if_pos (h k List.mem_cons_self)]
    rw [List.foldl_cons, ih, hput]
    intro key hkey
    rw [hput]
    exact h key (List.mem_cons_of_mem _ hkey)

/-! ### Equal tables -/

/-- Tables with the same keys in the same order are equal if they give every key the same value. -/
theorem eq_of_get?_eq {a b : Table κ α} (hkeys : a.keys = b.keys) (hnd : a.keys.Nodup)
    (h : ∀ key ∈ a.keys, a.get? key = b.get? key) : a = b := by
  induction a generalizing b with
  | nil => exact (List.map_eq_nil_iff.mp hkeys.symm).symm
  | cons entry rest ih =>
    obtain ⟨k, v⟩ := entry
    cases b with
    | nil => cases hkeys
    | cons entry' rest' =>
      obtain ⟨k', v'⟩ := entry'
      rw [keys_cons, keys_cons, List.cons.injEq] at hkeys
      obtain ⟨rfl, hrest⟩ := hkeys
      rw [keys_cons, List.nodup_cons] at hnd
      have hfirst := h k List.mem_cons_self
      rw [get?_cons, get?_cons, if_pos (beq_self_eq_true k), if_pos (beq_self_eq_true k)] at hfirst
      cases hfirst
      rw [ih hrest hnd.2]
      intro key hkey
      -- A key of the rest is not the first one.
      have hne : ¬ (key == k) = true := fun hk => hnd.1 (eq_of_beq hk ▸ hkey)
      have hlater := h key (List.mem_cons_of_mem _ hkey)
      rwa [get?_cons, get?_cons, if_neg hne, if_neg hne] at hlater

/-- Putting into a table what it holds already changes nothing. -/
theorem foldl_put_eq_self {table : Table κ α} (hnd : table.keys.Nodup) {pairs : List (κ × α)}
    (h : ∀ key ∈ keys pairs, table.get? key = (ofList pairs).get? key) :
    pairs.foldl (fun table (k, v) => table.put k v) table = table := by
  have hmem : ∀ key ∈ keys pairs, key ∈ table.keys := by
    intro key hkey
    rw [← isSome_get?_iff, h key hkey, isSome_get?_iff]
    exact mem_keys_ofList.mpr hkey
  have hkeys := keys_foldl_put_of_subset hmem
  refine eq_of_get?_eq hkeys (by rwa [hkeys]) fun key _ => ?_
  rw [get?_foldl_put]
  by_cases hkey : key ∈ keys pairs
  · rw [h key hkey, Option.or_self]
  · have hnone : (ofList pairs).get? key = none := by
      rw [← Option.not_isSome_iff_eq_none, isSome_get?_iff]
      exact fun hmem => hkey (mem_keys_ofList.mp hmem)
    rw [hnone, Option.none_or]

/-! ### Tables with other values -/

section Values

omit [LawfulBEq κ]

variable {β : Type} (f : α → β)

omit [BEq κ] in
theorem map_values_id (table : Table κ α) : (table.map fun (k, v) => (k, id v)) = table :=
  List.map_id table

theorem put_map_values (table : Table κ α) (key : κ) (value : α) :
    put (table.map fun (k, v) => (k, f v)) key (f value)
      = (table.put key value).map fun (k, v) => (k, f v) := by
  induction table with
  | nil => rfl
  | cons entry rest ih =>
    obtain ⟨k, v⟩ := entry
    rw [List.map_cons, put, put]
    by_cases hk : key == k
    · rw [if_pos hk, if_pos hk, List.map_cons]
    · rw [if_neg hk, if_neg hk, List.map_cons, ih]

theorem get?_map_values (table : Table κ α) (key : κ) :
    get? (table.map fun (k, v) => (k, f v)) key = (table.get? key).map f := by
  induction table with
  | nil => rfl
  | cons entry rest ih =>
    obtain ⟨k, v⟩ := entry
    rw [List.map_cons, get?_cons, get?_cons, ih]
    by_cases hk : key == k
    · rw [if_pos hk, if_pos hk, Option.map_some]
    · rw [if_neg hk, if_neg hk]

/-- Pairs with other values, put into a table with other values. -/
theorem foldl_put_map_values (table : Table κ α) (pairs : List (κ × α)) :
    (pairs.map fun (k, v) => (k, f v)).foldl (fun table (key, value) => put table key value)
        (table.map fun (k, v) => (k, f v))
      = (pairs.foldl (fun table (key, value) => put table key value) table).map
        fun (k, v) => (k, f v) := by
  induction pairs generalizing table with
  | nil => rfl
  | cons entry rest ih =>
    obtain ⟨k, v⟩ := entry
    simp only [List.map_cons, List.foldl_cons, put_map_values, ih]

/-- Pairs with other values build the table with other values. -/
theorem ofList_map_values (pairs : List (κ × α)) :
    ofList (pairs.map fun (k, v) => (k, f v)) = (ofList pairs).map fun (k, v) => (k, f v) :=
  foldl_put_map_values f [] pairs

end Values

end TypedClient.Table
