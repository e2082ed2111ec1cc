import Mathlib
import TypedClient.Route.Template

namespace TypedClient.Route

/-!
# Placeholders inside of placeholders

The placeholders of a route are taken out one by one, and each time the search begins anew.  So what stood around
a placeholder can be a placeholder after it was taken out.  This file says which routes are accepted because of
that, with which names, and for which of them a single scan from left to right comes to something else.

* `IsName` — the names that a placeholder can have.
* `scan`, `scannedNames` — one scan from left to right, which never looks back.
* `FlatTemplate` — the routes that one scan accepts.
* `Template` — the routes that are accepted: names may be completed by placeholders inside of them.
* `placeholders_eq_iff`, `scan_eq_iff` — both are exactly what is accepted.
* `parameterNames_nested` — the two ways differ on nested placeholders and on nothing else.
-/

/-! ### Names -/

/-- A name that a placeholder can have. -/
def IsName (name : List Char) : Prop :=
  ∃ c rest, name = c :: rest ∧ isNameStart c = true ∧ ∀ d ∈ rest, isNameChar d = true

variable {cs front tail name left : List Char} {names : List String}

theorem IsName.isNameChar (h : IsName name) : ∀ d ∈ name, isNameChar d = true := by
  obtain ⟨c, rest, rfl, hc, hrest⟩ := h
  rw [List.forall_mem_cons]
  refine ⟨?_, hrest⟩
  rw [isNameStart, Bool.or_eq_true] at hc
  rw [Route.isNameChar, Char.isAlphanum, Bool.or_eq_true, Bool.or_eq_true]
  exact hc.imp_left .inl

theorem IsName.open_notMem (h : IsName name) : '{' ∉ name :=
  fun hmem => absurd (h.isNameChar _ hmem) (by decide)

theorem IsName.close_notMem (h : IsName name) : '}' ∉ name :=
  fun hmem => absurd (h.isNameChar _ hmem) (by decide)

/-! ### Two cuts of one text -/

/-- A text that is cut at a character, and cut a second time before the character or behind it. -/
theorem append_cons_eq_append_cases {c : Char} {xs us ys vs : List Char} (h : xs ++ c :: us = ys ++ vs) :
    (∃ zs, xs = ys ++ zs ∧ vs = zs ++ c :: us) ∨ ∃ zs, ys = xs ++ c :: zs ∧ us = zs ++ vs := by
  rcases List.append_eq_append_iff.mp h with ⟨zs, rfl, hzs⟩ | ⟨zs, rfl, rfl⟩
  · cases zs with
    | nil => exact .inl ⟨[], by simp, hzs.symm⟩
    | cons z zs =>
      obtain ⟨rfl, hrest⟩ := List.cons.inj hzs
      exact .inr ⟨zs, rfl, hrest⟩
  · exact .inl ⟨zs, rfl, rfl⟩

/-- A text that is cut at a character and at another one: one of the two comes first. -/
theorem append_cons_eq_append_cons_cases {c d : Char} (hne : c ≠ d) {xs us ys vs : List Char}
    (h : xs ++ c :: us = ys ++ d :: vs) :
    (∃ zs, xs = ys ++ d :: zs ∧ vs = zs ++ c :: us) ∨ ∃ zs, ys = xs ++ c :: zs ∧ us = zs ++ d :: vs := by
  refine (append_cons_eq_append_cases h).imp_left ?_
  rintro ⟨zs, rfl, hzs⟩
  cases zs with
  | nil => exact absurd (List.cons.inj hzs).1.symm hne
  | cons z zs =>
    obtain ⟨rfl, hrest⟩ := List.cons.inj hzs
    exact ⟨zs, rfl, hrest⟩

/-- Nothing but the first closing brace of a text is a closing brace with none in front. -/
theorem append_close_inj {xs ys us vs : List Char} (hxs : '}' ∉ xs) (hys : '}' ∉ ys)
    (h : xs ++ '}' :: us = ys ++ '}' :: vs) : xs = ys ∧ us = vs := by
  have hlength : xs.length = ys.length := by
    have hbefore : ∀ {zs ws : List Char}, '}' ∉ zs → (zs ++ '}' :: ws).idxOf '}' = zs.length := by
      intro zs ws hzs
      rw [List.idxOf_append_of_notMem hzs, List.idxOf_cons_self, Nat.add_zero]
    rw [← hbefore hxs, h, hbefore hys]
  obtain ⟨hsame, hrest⟩ := List.append_inj h hlength
  exact ⟨hsame, (List.cons.inj hrest).2⟩

/-! ### The leftmost placeholder -/

/-- A placeholder at the front is a name in braces. -/
theorem placeholderAt?_eq_some_iff :
    placeholderAt? cs = some (name, tail) ↔ IsName name ∧ cs = '{' :: (name ++ '}' :: tail) := by
  constructor
  · intro h
    unfold placeholderAt? at h
    split at h
    · next c rest =>
      split at h
      · next hc =>
        split at h
        · next hrest =>
          cases h
          have hsplit := List.takeWhile_append_dropWhile (p := Route.isNameChar) (l := rest)
          rw [hrest] at hsplit
          refine ⟨⟨c, _, rfl, hc, fun d hd => List.mem_takeWhile_imp hd⟩, ?_⟩
          rw [List.cons_append, hsplit]
        · cases h
      · cases h
    · cases h
  · rintro ⟨⟨c, rest, rfl, hc, hrest⟩, rfl⟩
    -- The name ends at its brace, which is no character of a name.
    have hclose : Route.isNameChar '}' = false := by decide
    have htake : (rest ++ '}' :: tail).takeWhile Route.isNameChar = rest := by
      rw [List.takeWhile_append_of_pos hrest, List.takeWhile_cons_of_neg (by simp [hclose]), List.append_nil]
    have hdrop : (rest ++ '}' :: tail).dropWhile Route.isNameChar = '}' :: tail := by
      rw [List.dropWhile_append_of_pos hrest, List.dropWhile_cons_of_neg (by simp [hclose])]
    rw [List.cons_append, placeholderAt?, if_pos hc, hdrop]
    simp only [htake]

theorem eq_of_firstPlaceholder? (h : firstPlaceholder? cs = some (front, name, tail)) :
    IsName name ∧ cs = front ++ '{' :: (name ++ '}' :: tail) := by
  induction cs generalizing front with
  | nil => cases h
  | cons c rest ih =>
    rw [firstPlaceholder?] at h
    split at h
    · next hp =>
      cases h
      exact placeholderAt?_eq_some_iff.mp hp
    · obtain ⟨⟨f, n, t⟩, hrest, heq⟩ := Option.map_eq_some_iff.mp h
      cases heq
      obtain ⟨hname, rfl⟩ := ih hrest
      exact ⟨hname, rfl⟩

/-- No placeholder lies before the leftmost one. -/
theorem exists_firstPlaceholder? (hname : IsName name) (front tail : List Char) :
    ∃ front' name' tail', firstPlaceholder? (front ++ '{' :: (name ++ '}' :: tail)) = some (front', name', tail')
      ∧ front'.length ≤ front.length := by
  induction front with
  | nil =>
    refine ⟨[], name, tail, ?_, Nat.le_refl _⟩
    rw [List.nil_append, firstPlaceholder?, placeholderAt?_eq_some_iff.mpr ⟨hname, rfl⟩]
  | cons c front ih =>
    obtain ⟨front', name', tail', hfirst, hle⟩ := ih
    rw [List.cons_append, firstPlaceholder?, hfirst]
    split
    · exact ⟨_, _, _, rfl, Nat.zero_le _⟩
    · exact ⟨_, _, _, rfl, Nat.succ_le_succ hle⟩

/-- A placeholder with no closing brace in front of it is the leftmost one. -/
theorem firstPlaceholder?_append (hname : IsName name) (hfront : '}' ∉ front) (tail : List Char) :
    firstPlaceholder? (front ++ '{' :: (name ++ '}' :: tail)) = some (front, name, tail) := by
  obtain ⟨front', name', tail', hfirst, hle⟩ := exists_firstPlaceholder? hname front tail
  obtain ⟨hname', heq⟩ := eq_of_firstPlaceholder? hfirst
  obtain ⟨between, rfl⟩ : front' <+: front :=
    List.prefix_of_prefix_length_le ⟨_, heq.symm⟩ (List.prefix_append front _) hle
  rw [List.append_assoc, List.append_cancel_left_eq] at heq
  cases between with
  | nil =>
    obtain ⟨rfl, rfl⟩ := append_close_inj hname.close_notMem hname'.close_notMem (List.cons.inj heq).2
    rw [hfirst, List.append_nil]
  | cons c between =>
    -- The name of the leftmost placeholder would have the opening brace of the other one in it.
    obtain ⟨rfl, hrest⟩ := List.cons.inj heq
    have hclose : '}' ∉ between ++ '{' :: name := by
      simp only [List.mem_append, List.mem_cons, not_or] at hfront ⊢
      exact ⟨hfront.2.2, by decide, hname.close_notMem⟩
    have hwhole : (between ++ '{' :: name) ++ '}' :: tail = name' ++ '}' :: tail' := by simpa using hrest
    obtain ⟨rfl, -⟩ := append_close_inj hclose hname'.close_notMem hwhole
    exact absurd (List.mem_append_right between List.mem_cons_self) hname'.open_notMem

/-! ### Taking out placeholders -/

theorem placeholders_of_none (h : firstPlaceholder? cs = none) : placeholders cs = ([], cs) := by
  rw [placeholders]
  split
  · rfl
  · next heq => rw [h] at heq; cases heq

theorem placeholders_of_some (h : firstPlaceholder? cs = some (front, name, tail)) :
    placeholders cs
      = (String.ofList name :: (placeholders (front ++ tail)).1, (placeholders (front ++ tail)).2) := by
  rw [placeholders]
  split
  · next heq => rw [h] at heq; cases heq
  · next heq =>
    rw [h] at heq
    cases heq
    rfl

/-- A text without opening braces has no placeholder. -/
theorem firstPlaceholder?_of_notMem (h : '{' ∉ cs) : firstPlaceholder? cs = none := by
  rw [Option.eq_none_iff_forall_not_mem]
  rintro ⟨front, name, tail⟩ hfirst
  obtain ⟨-, rfl⟩ := eq_of_firstPlaceholder? hfirst
  exact h (List.mem_append_right front List.mem_cons_self)

/-- No brace is left in a text. -/
def Braceless (cs : List Char) : Prop :=
  '{' ∉ cs ∧ '}' ∉ cs

/-- Texts that nothing is left of but plain characters when the placeholders are taken out, with what is left and
    the names in the order of their closing braces.  A name may have placeholders inside of it that are taken out
    first. -/
inductive Template : List Char → List Char → List String → Prop
  | nil : Template [] [] []
  | plain {c cs left names} : c ≠ '{' → c ≠ '}' → Template cs left names → Template (c :: cs) (c :: left) names
  | placeholder {inner name innerNames cs left names} : Template inner name innerNames → IsName name →
      Template cs left names →
      Template ('{' :: (inner ++ '}' :: cs)) left (innerNames ++ String.ofList name :: names)

namespace Template

theorem braceless (h : Template cs left names) : Braceless left := by
  induction h with
  | nil => exact ⟨nofun, nofun⟩
  | plain hopen hclose _ ih =>
    exact ⟨List.not_mem_cons_of_ne_of_not_mem hopen.symm ih.1,
      List.not_mem_cons_of_ne_of_not_mem hclose.symm ih.2⟩
  | placeholder _ _ _ _ ih => exact ih

/-- A text without braces is a template of its own. -/
theorem of_braceless (h : Braceless cs) : Template cs cs [] := by
  induction cs with
  | nil => exact .nil
  | cons c cs ih =>
    obtain ⟨hopen, hclose⟩ := h
    rw [List.mem_cons, not_or] at hopen hclose
    exact .plain (Ne.symm hopen.1) (Ne.symm hclose.1) (ih ⟨hopen.2, hclose.2⟩)

/-- Without closing braces there are no placeholders. -/
theorem eq_of_close_notMem (h : Template cs left names) (hclose : '}' ∉ cs) : left = cs ∧ names = [] := by
  induction h with
  | nil => exact ⟨rfl, rfl⟩
  | plain _ _ _ ih =>
    obtain ⟨rfl, rfl⟩ := ih fun hmem => hclose (List.mem_cons_of_mem _ hmem)
    exact ⟨rfl, rfl⟩
  | placeholder _ _ _ _ _ => simp at hclose

/-- **Completeness.**  The placeholders of a template are taken out in order, whatever stands around it, unless a
    closing brace stands in front. -/
theorem placeholders_append (h : Template cs left names) (hfront : '}' ∉ front) (rest : List Char) :
    placeholders (front ++ (cs ++ rest))
      = (names ++ (placeholders (front ++ (left ++ rest))).1, (placeholders (front ++ (left ++ rest))).2) := by
  induction h generalizing front rest with
  | nil => rfl
  | @plain c cs left names hopen hclose _ ih =>
    -- The character goes to the front.
    have hfront' : '}' ∉ front ++ [c] := by
      rw [List.mem_append, List.mem_singleton, not_or]
      exact ⟨hfront, hclose.symm⟩
    have hmoved : ∀ text, front ++ (c :: text ++ rest) = (front ++ [c]) ++ (text ++ rest) := fun text => by simp
    rw [hmoved, hmoved, ih hfront']
  | @placeholder inner name innerNames cs left names _ hname _ ihinner ih =>
    have hfront' : '}' ∉ front ++ ['{'] := by
      rw [List.mem_append, List.mem_singleton, not_or]
      exact ⟨hfront, by decide⟩
    have hmoved : front ++ ('{' :: (inner ++ '}' :: cs) ++ rest)
        = (front ++ ['{']) ++ (inner ++ '}' :: (cs ++ rest)) := by simp
    have hcompleted : (front ++ ['{']) ++ (name ++ '}' :: (cs ++ rest))
        = front ++ '{' :: (name ++ '}' :: (cs ++ rest)) := by simp
    rw [hmoved, ihinner hfront', hcompleted, placeholders_of_some (firstPlaceholder?_append hname hfront _), ih hfront,
      List.append_assoc, List.cons_append]

theorem placeholders_eq (h : Template cs left names) : placeholders cs = (names, left) := by
  have hall := h.placeholders_append (List.not_mem_nil (a := '}')) []
  simp only [List.nil_append, List.append_nil] at hall
  rw [hall, placeholders_of_none (firstPlaceholder?_of_notMem h.braceless.1), List.append_nil]

/-- If a closing brace stands in a front part of a template, so does a whole placeholder. -/
theorem exists_placeholder (h : Template cs left names) {tail : List Char} (hsplit : cs = front ++ tail)
    (hclose : '}' ∈ front) :
    ∃ before name after, IsName name ∧ front = before ++ '{' :: (name ++ '}' :: after) := by
  induction h generalizing front tail with
  | nil =>
    obtain ⟨rfl, -⟩ := List.append_eq_nil_iff.mp hsplit.symm
    cases hclose
  | @plain c cs left names _ hne _ ih =>
    cases front with
    | nil => cases hclose
    | cons d front =>
      obtain ⟨rfl, hrest⟩ := List.cons.inj hsplit
      obtain ⟨before, name, after, hname, rfl⟩ := ih hrest ((List.mem_cons.mp hclose).resolve_left hne.symm)
      exact ⟨c :: before, name, after, hname, rfl⟩
  | @placeholder inner name innerNames cs left names hinner hname _ ihinner _ =>
    cases front with
    | nil => cases hclose
    | cons d front =>
      obtain ⟨rfl, hrest⟩ := List.cons.inj hsplit
      have hclose' : '}' ∈ front := (List.mem_cons.mp hclose).resolve_left (by decide)
      -- The front part ends behind this placeholder, or inside of it.
      rcases append_cons_eq_append_cases hrest with ⟨back, rfl, -⟩ | ⟨back, rfl, -⟩
      · obtain ⟨before, other, after, hother, rfl⟩ := ihinner rfl hclose'
        exact ⟨'{' :: before, other, after, hother, rfl⟩
      · by_cases hnested : '}' ∈ inner
        · obtain ⟨before, other, after, hother, rfl⟩ := ihinner (List.append_nil _).symm hnested
          exact ⟨'{' :: before, other, after ++ '}' :: back, hother, by simp⟩
        · obtain ⟨rfl, -⟩ := hinner.eq_of_close_notMem hnested
          exact ⟨[], _, back, hname, rfl⟩

/-- A placeholder put into a template, with no closing brace in front of it, is the first one. -/
theorem insert (h : Template cs left names) (hname : IsName name) {tail : List Char} (hsplit : cs = front ++ tail)
    (hclose : '}' ∉ front) :
    Template (front ++ '{' :: (name ++ '}' :: tail)) left (String.ofList name :: names) := by
  have hflat : Template name name [] := of_braceless ⟨hname.open_notMem, hname.close_notMem⟩
  induction h generalizing front tail with
  | nil =>
    obtain ⟨rfl, rfl⟩ := List.append_eq_nil_iff.mp hsplit.symm
    exact .placeholder hflat hname .nil
  | @plain c cs left names hopen hne hcs ih =>
    cases front with
    | nil =>
      subst hsplit
      exact .placeholder hflat hname (.plain hopen hne hcs)
    | cons d front =>
      obtain ⟨rfl, hrest⟩ := List.cons.inj hsplit
      rw [List.mem_cons, not_or] at hclose
      exact .plain hopen hne (ih hrest hclose.2)
  | @placeholder inner other innerNames cs left names hinner hother hcs ihinner _ =>
    cases front with
    | nil =>
      subst hsplit
      exact .placeholder hflat hname (.placeholder hinner hother hcs)
    | cons d front =>
      obtain ⟨rfl, hrest⟩ := List.cons.inj hsplit
      rw [List.mem_cons, not_or] at hclose
      rcases append_cons_eq_append_cases hrest with ⟨back, rfl, rfl⟩ | ⟨back, rfl, -⟩
      · have hgrown := Template.placeholder (ihinner rfl hclose.2) hother hcs
        simpa using hgrown
      · -- The front part ends inside of the placeholder, since its closing brace is not in it.
        simp at hclose

end Template

/-- **Soundness.**  What no brace is left of is a template. -/
theorem template_placeholders (h : Braceless (placeholders cs).2) :
    Template cs (placeholders cs).2 (placeholders cs).1 := by
  -- Induction on the length: each placeholder makes the text shorter.
  induction hn : cs.length using Nat.strongRecOn generalizing cs with
  | ind n ih =>
    cases hfirst : firstPlaceholder? cs with
    | none =>
      rw [placeholders_of_none hfirst] at h ⊢
      exact .of_braceless h
    | some found =>
      obtain ⟨front, name, tail⟩ := found
      obtain ⟨hname, heq⟩ := eq_of_firstPlaceholder? hfirst
      have hlt := length_of_firstPlaceholder? hfirst
      rw [placeholders_of_some hfirst] at h ⊢
      have htemplate := ih _ (hn ▸ hlt) h rfl
      have hclose : '}' ∉ front := by
        intro hmem
        -- A placeholder in front of the leftmost one.
        obtain ⟨before, other, after, hother, rfl⟩ := htemplate.exists_placeholder rfl hmem
        obtain ⟨front', _, _, hfirst', hle⟩ :=
          exists_firstPlaceholder? hother before (after ++ '{' :: (name ++ '}' :: tail))
        have hsame : before ++ '{' :: (other ++ '}' :: (after ++ '{' :: (name ++ '}' :: tail))) = cs := by
          simp [heq]
        rw [hsame, hfirst] at hfirst'
        cases hfirst'
        simp at hle
      rw [heq]
      exact htemplate.insert hname rfl hclose

/-- **Taking out placeholders.**  Nothing but plain characters is left of exactly the templates. -/
theorem placeholders_eq_iff : placeholders cs = (names, left) ∧ Braceless left ↔ Template cs left names := by
  constructor
  · rintro ⟨h, hleft⟩
    have hbraceless : Braceless (placeholders cs).2 := by rwa [h]
    have htemplate := template_placeholders hbraceless
    rwa [h] at htemplate
  · intro h
    exact ⟨h.placeholders_eq, h.braceless⟩

/-! ### One scan -/

/-- The names of the placeholders that one scan from left to right meets, and the text without them.  The scan goes
    on behind a placeholder and does not look back. -/
def scan (cs : List Char) : List String × List Char :=
  match _h : firstPlaceholder? cs with
  | none => ([], cs)
  | some (front, name, tail) => (String.ofList name :: (scan tail).1, front ++ (scan tail).2)
termination_by cs.length
decreasing_by
  all_goals
    have := length_of_firstPlaceholder? _h
    rw [List.length_append] at this
    omega

theorem scan_of_none (h : firstPlaceholder? cs = none) : scan cs = ([], cs) := by
  rw [scan]
  split
  · rfl
  · next heq => rw [h] at heq; cases heq

theorem scan_of_some (h : firstPlaceholder? cs = some (front, name, tail)) :
    scan cs = (String.ofList name :: (scan tail).1, front ++ (scan tail).2) := by
  rw [scan]
  split
  · next heq => rw [h] at heq; cases heq
  · next heq =>
    rw [h] at heq
    cases heq
    rfl

/-- The scan passes over a character that opens nothing. -/
theorem scan_cons {c : Char} (hc : c ≠ '{') (cs : List Char) : scan (c :: cs) = ((scan cs).1, c :: (scan cs).2) := by
  have hnone : placeholderAt? (c :: cs) = none := by
    rw [Option.eq_none_iff_forall_not_mem]
    rintro ⟨name, tail⟩ hp
    exact hc (List.cons.inj (placeholderAt?_eq_some_iff.mp hp).2).1
  cases hrest : firstPlaceholder? cs with
  | none =>
    have hfirst : firstPlaceholder? (c :: cs) = none := by
      rw [firstPlaceholder?, hnone, hrest]
      rfl
    rw [scan_of_none hrest, scan_of_none hfirst]
  | some found =>
    have hfirst : firstPlaceholder? (c :: cs) = some (c :: found.1, found.2.1, found.2.2) := by
      rw [firstPlaceholder?, hnone, hrest]
      rfl
    rw [scan_of_some hrest, scan_of_some hfirst, List.cons_append]

/-- Texts of plain characters and names in braces, with the characters and the names. -/
inductive FlatTemplate : List Char → List Char → List String → Prop
  | nil : FlatTemplate [] [] []
  | plain {c cs left names} : c ≠ '{' → c ≠ '}' → FlatTemplate cs left names →
      FlatTemplate (c :: cs) (c :: left) names
  | placeholder {name cs left : List Char} {names} : IsName name → FlatTemplate cs left names →
      FlatTemplate ('{' :: (name ++ '}' :: cs)) left (String.ofList name :: names)

namespace FlatTemplate

theorem template (h : FlatTemplate cs left names) : Template cs left names := by
  induction h with
  | nil => exact .nil
  | plain hopen hclose _ ih => exact .plain hopen hclose ih
  | placeholder hname _ ih => exact .placeholder (.of_braceless ⟨hname.open_notMem, hname.close_notMem⟩) hname ih

/-- Plain characters in front stay where they are. -/
theorem append_left (h : FlatTemplate cs left names) (hfront : Braceless front) :
    FlatTemplate (front ++ cs) (front ++ left) names := by
  induction front with
  | nil => exact h
  | cons c front ih =>
    obtain ⟨hopen, hclose⟩ := hfront
    rw [List.mem_cons, not_or] at hopen hclose
    exact .plain (Ne.symm hopen.1) (Ne.symm hclose.1) (ih ⟨hopen.2, hclose.2⟩)

theorem scan_eq (h : FlatTemplate cs left names) : scan cs = (names, left) := by
  induction h with
  | nil => exact scan_of_none rfl
  | plain hopen _ _ ih => rw [scan_cons hopen, ih]
  | @placeholder name cs left names hname _ ih =>
    have hfirst : firstPlaceholder? ('{' :: (name ++ '}' :: cs)) = some ([], name, cs) :=
      firstPlaceholder?_append hname List.not_mem_nil cs
    rw [scan_of_some hfirst, ih, List.nil_append]

end FlatTemplate

theorem flatTemplate_scan (h : Braceless (scan cs).2) : FlatTemplate cs (scan cs).2 (scan cs).1 := by
  induction hn : cs.length using Nat.strongRecOn generalizing cs with
  | ind n ih =>
    cases hfirst : firstPlaceholder? cs with
    | none =>
      rw [scan_of_none hfirst] at h ⊢
      simpa using FlatTemplate.nil.append_left h
    | some found =>
      obtain ⟨front, name, tail⟩ := found
      obtain ⟨hname, heq⟩ := eq_of_firstPlaceholder? hfirst
      have hlt := length_of_firstPlaceholder? hfirst
      rw [List.length_append] at hlt
      rw [scan_of_some hfirst] at h ⊢
      simp only [Braceless, List.mem_append, not_or] at h
      have htail : FlatTemplate tail (scan tail).2 (scan tail).1 := ih tail.length (by omega) ⟨h.1.2, h.2.2⟩ rfl
      rw [heq]
      exact (FlatTemplate.placeholder hname htail).append_left ⟨h.1.1, h.2.1⟩

/-- **One scan.**  It leaves nothing but plain characters of exactly the flat templates. -/
theorem scan_eq_iff : scan cs = (names, left) ∧ Braceless left ↔ FlatTemplate cs left names := by
  constructor
  · rintro ⟨h, hleft⟩
    have hbraceless : Braceless (scan cs).2 := by rwa [h]
    have htemplate := flatTemplate_scan hbraceless
    rwa [h] at htemplate
  · intro h
    exact ⟨h.scan_eq, h.template.braceless⟩

/-! ### Nested placeholders -/

/-- A brace is opened inside of another one: no brace is closed in between. -/
def Nests (cs : List Char) : Prop :=
  ∃ front between tail, cs = front ++ '{' :: (between ++ '{' :: tail) ∧ '}' ∉ between

theorem Nests.append_left (h : Nests cs) (front : List Char) : Nests (front ++ cs) := by
  obtain ⟨front', between, tail, rfl, hbetween⟩ := h
  exact ⟨front ++ front', between, tail, by simp, hbetween⟩

/-- Flat templates are the templates in which no brace is opened inside of another one. -/
theorem FlatTemplate.not_nests (h : FlatTemplate cs left names) : ¬ Nests cs := by
  induction h with
  | nil =>
    rintro ⟨front, between, tail, heq, -⟩
    simp at heq
  | plain hopen _ _ ih =>
    rintro ⟨front, between, tail, heq, hbetween⟩
    cases front with
    | nil => exact hopen (List.cons.inj heq).1
    | cons d front => exact ih ⟨front, between, tail, (List.cons.inj heq).2, hbetween⟩
  | @placeholder name cs left names hname _ ih =>
    rintro ⟨front, between, tail, heq, hbetween⟩
    have hopen := hname.open_notMem
    have hne : '}' ≠ '{' := by decide
    cases front with
    | nil =>
      rcases append_cons_eq_append_cons_cases hne (List.cons.inj heq).2 with ⟨zs, rfl, -⟩ | ⟨zs, rfl, -⟩
      · simp at hopen
      · simp at hbetween
    | cons d front =>
      rcases append_cons_eq_append_cons_cases hne (List.cons.inj heq).2 with ⟨zs, rfl, -⟩ | ⟨zs, rfl, rfl⟩
      · simp at hopen
      · exact ih ⟨zs, between, tail, rfl, hbetween⟩

theorem Template.flat_of_not_nests (h : Template cs left names) (hflat : ¬ Nests cs) :
    FlatTemplate cs left names := by
  induction h with
  | nil => exact .nil
  | @plain c cs left names hopen hclose _ ih => exact .plain hopen hclose (ih fun hn => hflat (hn.append_left [c]))
  | @placeholder inner name innerNames cs left names hinner hname _ _ ih =>
    have hopen : '{' ∉ inner := by
      intro hmem
      obtain ⟨between, tail, rfl, hbetween⟩ := List.eq_append_cons_of_mem hmem
      -- What stands before the first opening brace has no placeholder in it, so it has no closing brace either.
      have hclose : '}' ∉ between := by
        intro hmem'
        obtain ⟨before, other, after, -, rfl⟩ := hinner.exists_placeholder rfl hmem'
        simp at hbetween
      exact hflat ⟨[], between, tail ++ '}' :: cs, by simp, hclose⟩
    have hplain : inner = name ∧ innerNames = [] := by
      have hnone := placeholders_of_none (firstPlaceholder?_of_notMem hopen)
      rw [hinner.placeholders_eq, Prod.mk.injEq] at hnone
      exact ⟨hnone.2.symm, hnone.1⟩
    obtain ⟨rfl, rfl⟩ := hplain
    refine .placeholder hname (ih fun hn => hflat ?_)
    simpa using hn.append_left ('{' :: (inner ++ ['}']))

/-! ### Routes -/

/-- What is found in a route, unless a brace is left over. -/
def verdict (route : String) (found : List String × List Char) : Except Failure (List String) :=
  if found.2.contains '{' || found.2.contains '}' then .error (.malformedRoute route) else .ok found.1

/-- The parameter names of a route by one scan from left to right. -/
def scannedNames (route : String) : Except Failure (List String) :=
  verdict route (scan route.toList)

theorem parameterNames_eq_verdict (route : String) :
    parameterNames route = verdict route (placeholders route.toList) := rfl

variable {route : String}

theorem verdict_of_braceless {found : List String × List Char} (h : Braceless found.2) :
    verdict route found = .ok found.1 := by
  rw [verdict, if_neg]
  rw [Bool.or_eq_true, List.contains_iff_mem, List.contains_iff_mem, not_or]
  exact h

theorem verdict_of_not_braceless {found : List String × List Char} (h : ¬ Braceless found.2) :
    verdict route found = .error (.malformedRoute route) := by
  rw [verdict, if_pos]
  rwa [Bool.or_eq_true, List.contains_iff_mem, List.contains_iff_mem, ← not_not (a := _ ∨ _), not_or]

/-- Names are found if nothing but plain characters is left, and otherwise the route is malformed. -/
theorem verdict_eq_ok_iff {found : List String × List Char} :
    verdict route found = .ok names ↔ ∃ left, found = (names, left) ∧ Braceless left := by
  by_cases h : Braceless found.2
  · rw [verdict_of_braceless h, Except.ok.injEq]
    constructor
    · rintro rfl
      exact ⟨found.2, rfl, h⟩
    · rintro ⟨left, rfl, -⟩
      rfl
  · rw [verdict_of_not_braceless h]
    refine iff_of_false nofun ?_
    rintro ⟨left, rfl, hleft⟩
    exact h hleft

theorem verdict_eq_error_iff {found : List String × List Char} {failure : Failure} :
    verdict route found = .error failure ↔ failure = .malformedRoute route ∧ ¬ Braceless found.2 := by
  by_cases h : Braceless found.2
  · rw [verdict_of_braceless h]
    exact iff_of_false nofun fun hnot => hnot.2 h
  · rw [verdict_of_not_braceless h, Except.error.injEq, eq_comm]
    exact (and_iff_left h).symm

theorem parameterNames_eq_ok_iff : parameterNames route = .ok names ↔ ∃ left, Template route.toList left names := by
  rw [parameterNames_eq_verdict, verdict_eq_ok_iff]
  exact exists_congr fun left => placeholders_eq_iff

theorem scannedNames_eq_ok_iff : scannedNames route = .ok names ↔ ∃ left, FlatTemplate route.toList left names := by
  rw [scannedNames, verdict_eq_ok_iff]
  exact exists_congr fun left => scan_eq_iff

/-- One scan finds the names of the routes that are accepted and have no nested placeholders. -/
theorem scannedNames_eq_ok_iff_not_nests :
    scannedNames route = .ok names ↔ parameterNames route = .ok names ∧ ¬ Nests route.toList := by
  rw [scannedNames_eq_ok_iff, parameterNames_eq_ok_iff]
  constructor
  · rintro ⟨left, h⟩
    exact ⟨⟨left, h.template⟩, h.not_nests⟩
  · rintro ⟨⟨left, h⟩, hflat⟩
    exact ⟨left, h.flat_of_not_nests hflat⟩

/-- **Nested placeholders.**  A route is accepted exactly if it is a template, with the names in the order of their
    closing braces, and malformed otherwise.  One scan comes to the same on every route, unless placeholders stand
    inside of placeholders: then the route is accepted although the scan leaves braces over. -/
theorem parameterNames_nested (route : String) :
    (∀ names, parameterNames route = .ok names ↔ ∃ left, Template route.toList left names)
    ∧ (∀ failure, parameterNames route = .error failure
        ↔ failure = .malformedRoute route ∧ ¬ ∃ left names, Template route.toList left names)
    ∧ (∀ names, scannedNames route = .ok names ↔ parameterNames route = .ok names ∧ ¬ Nests route.toList)
    ∧ (parameterNames route = scannedNames route
        ∨ ∃ names, Nests route.toList ∧ parameterNames route = .ok names
          ∧ scannedNames route = .error (.malformedRoute route)) := by
  have hfails : ∀ failure, parameterNames route = .error failure
      ↔ failure = .malformedRoute route ∧ ¬ ∃ left names, Template route.toList left names := by
    intro failure
    rw [parameterNames_eq_verdict, verdict_eq_error_iff]
    refine and_congr_right fun _ => not_congr ⟨fun h => ⟨_, _, template_placeholders h⟩, ?_⟩
    rintro ⟨left, names, h⟩
    rw [h.placeholders_eq]
    exact h.braceless
  refine ⟨fun names => parameterNames_eq_ok_iff, hfails, fun names => scannedNames_eq_ok_iff_not_nests, ?_⟩
  cases hscanned : scannedNames route with
  | ok names => exact .inl (scannedNames_eq_ok_iff_not_nests.mp hscanned).1
  | error failure =>
    obtain ⟨rfl, -⟩ := verdict_eq_error_iff.mp hscanned
    cases hnames : parameterNames route with
    | error failure => exact .inl (by rw [((hfails failure).mp hnames).1])
    | ok names =>
      refine .inr ⟨names, by_contra fun hflat => ?_, rfl, rfl⟩
      rw [scannedNames_eq_ok_iff_not_nests.mpr ⟨hnames, hflat⟩] at hscanned
      cases hscanned

/-- The braces around `a` are no placeholder before `b` is taken out, and one scan leaves them over. -/
theorem nested_accepted : parameterNames "\x7ba\x7bb\x7d\x7d" = .ok ["b", "a"]
    ∧ scannedNames "\x7ba\x7bb\x7d\x7d" = .error (.malformedRoute "\x7ba\x7bb\x7d\x7d") := by
  constructor <;> cbv

end TypedClient.Route
