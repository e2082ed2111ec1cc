import Mathlib.Algebra.Ring.Parity
import Mathlib.Data.List.Basic
import Mathlib.Data.List.Induction
import TypedClient.Output.Literal
import TypedClient.Text.Cut

namespace TypedClient

/-!
# Quotes that close

A text stands between quotes so that everything up to the closing quote belongs to it.  A scanner finds the closing
quote if it passes over each character that a backslash escapes, and a quote is escaped if an odd number of
backslashes stands in front of it.  The quotes of a literal are escaped by two replacements, one after the
other, and the second one puts in the very character that the first one doubles.

* `Quotes.cut?`, `Quotes.closing?` — what stands up to the first quote that is not escaped, and behind it.
* `Quotes.undo` — the characters that escapes stand for.
* `Quotes.IsClosed` — what can stand up to the closing quote.
* `Quotes.cut?_eq_some_iff` — the scanner stops at the first quote behind an even number of backslashes.
* `Quotes.escaped` — the two replacements; `Quotes.toList_escaped` — they come to escaping each character by itself.
* `literal_closed` — a literal is closed by its last character, and what stands between its quotes is the value.
-/

/-! ### Replacing a single character -/

namespace Text

/-- Where the passage is a single character, each character is replaced by itself. -/
theorem replaceFrom_singleton (mark : Char) (replacement cs : List Char) :
    replaceFrom [mark] replacement 0 cs = cs.flatMap fun c => if c = mark then replacement else [c] := by
  induction cs with
  | nil => rfl
  | cons c cs ih =>
    rw [replaceFrom, List.flatMap_cons]
    by_cases hc : c = mark
    · -- The passage has no further characters to pass over.
      rw [if_pos (by simp [hc]), if_pos hc, List.length_singleton, Nat.sub_self, ih]
    · have hbegins : ¬ [mark].isPrefixOf (c :: cs) = true := by simpa [List.isPrefixOf] using Ne.symm hc
      rw [if_neg hbegins, if_neg hc, ih, List.singleton_append]

end Text

namespace Output

namespace Quotes

variable {escaping : Bool} {c : Char} {cs front rest back : List Char}

/-! ### Escaped characters -/

/-- Does `c` escape the character behind it?  A backslash does unless it is escaped itself. -/
def escapesNext (escaping : Bool) (c : Char) : Bool :=
  !escaping && c == '\\'

/-- Is the character behind these ones escaped?  `escaping` says whether the first of them is. -/
def escapesBehind (escaping : Bool) (cs : List Char) : Bool :=
  cs.foldl escapesNext escaping

/-- The number of backslashes that stand at the end, one behind the other. -/
def backslashes (cs : List Char) : Nat :=
  (cs.reverse.takeWhile (· == '\\')).length

theorem backslashes_concat (cs : List Char) (c : Char) :
    backslashes (cs ++ [c]) = if c = '\\' then backslashes cs + 1 else 0 := by
  by_cases hc : c = '\\'
  · simp [backslashes, hc]
  · simp [backslashes, hc]

theorem backslashes_cons (hc : c ≠ '\\') (cs : List Char) : backslashes (c :: cs) = backslashes cs := by
  induction cs using List.reverseRecOn with
  | nil => simp [backslashes, hc]
  | append_singleton cs d ih => rw [← List.cons_append, backslashes_concat, backslashes_concat, ih]

/-- **Runs of backslashes.**  A character is escaped exactly if an odd number of backslashes stands in front of it. -/
theorem escapesBehind_iff (cs : List Char) : escapesBehind false cs = true ↔ Odd (backslashes cs) := by
  -- The last character decides: another backslash turns the answer round, and anything else ends the run.
  induction cs using List.reverseRecOn with
  | nil => simp [escapesBehind, backslashes]
  | append_singleton cs c ih =>
    have hlast : escapesBehind false (cs ++ [c]) = escapesNext (escapesBehind false cs) c := by
      rw [escapesBehind, List.foldl_append]
      rfl
    rw [hlast, backslashes_concat]
    by_cases hc : c = '\\'
    · rw [if_pos hc, Nat.odd_add_one, ← ih]
      simp [escapesNext, hc]
    · rw [if_neg hc]
      simp [escapesNext, hc]

theorem escapesBehind_eq_false_iff (cs : List Char) : escapesBehind false cs = false ↔ Even (backslashes cs) := by
  rw [← Nat.not_odd_iff_even, ← escapesBehind_iff, Bool.not_eq_true]

/-! ### The scanner -/

/-- Cuts at the first quote that is not escaped: what stands in front of it, and what behind. -/
def cut? (escaping : Bool) : List Char → Option (List Char × List Char)
  | [] => none
  | c :: rest =>
    if c = '\'' ∧ escaping = false then some ([], rest)
    else (cut? (escapesNext escaping c) rest).map fun (front, back) => (c :: front, back)

/-- The characters that escapes stand for: each backslash that escapes is left out. -/
def undo (escaping : Bool) : List Char → List Char
  | [] => []
  | c :: rest => if escapesNext escaping c then undo true rest else c :: undo false rest

/-- Scans a text from the quote that it begins with: what stands between this quote and the one that closes it, and
    what stands behind. -/
def closing? (s : String) : Option (String × String) :=
  match s.toList with
  | '\'' :: rest => (cut? false rest).map fun (front, back) => (String.ofList front, String.ofList back)
  | _ => none

/-- A text with its escapes undone. -/
def undone (s : String) : String :=
  String.ofList (undo false s.toList)

/-- What can stand up to the closing quote: none of these characters closes, and a quote behind them does. -/
structure IsClosed (escaping : Bool) (cs : List Char) : Prop where
  ends : escapesBehind escaping cs = false
  inner : ∀ a b, cs = a ++ '\'' :: b → escapesBehind escaping a = true

theorem isClosed_nil : IsClosed escaping [] ↔ escaping = false :=
  ⟨fun h => h.ends, fun h => ⟨h, by simp⟩⟩

theorem isClosed_cons :
    IsClosed escaping (c :: cs) ↔ ¬ (c = '\'' ∧ escaping = false) ∧ IsClosed (escapesNext escaping c) cs := by
  constructor
  · intro h
    refine ⟨?_, h.ends, fun a b hsplit => h.inner (c :: a) b (by rw [hsplit, List.cons_append])⟩
    rintro ⟨rfl, rfl⟩
    have hfirst := h.inner [] cs rfl
    cases hfirst
  · rintro ⟨hopen, h⟩
    refine ⟨h.ends, fun a b hsplit => ?_⟩
    cases a with
    | nil =>
      obtain ⟨rfl, -⟩ := List.cons.inj hsplit
      simpa [escapesBehind] using hopen
    | cons d a =>
      rw [List.cons_append, List.cons.injEq] at hsplit
      rw [← hsplit.1]
      exact h.inner a b hsplit.2

theorem cut?_eq_some :
    cut? escaping cs = some (front, back) ↔ cs = front ++ '\'' :: back ∧ IsClosed escaping front := by
  induction cs generalizing escaping front with
  | nil => simp [cut?]
  | cons c cs ih =>
    rw [cut?]
    by_cases hclose : c = '\'' ∧ escaping = false
    · -- The quote closes, so nothing stands in front of it.
      rw [if_pos hclose, Option.some_inj, Prod.mk.injEq]
      cases front with
      | nil => simp [isClosed_nil, hclose]
      | cons d front =>
        rw [List.cons_append, List.cons.injEq, isClosed_cons]
        constructor
        · rintro ⟨hnil, -⟩
          cases hnil
        · rintro ⟨⟨rfl, -⟩, hopen, -⟩
          exact absurd hclose hopen
    · rw [if_neg hclose, Option.map_eq_some_iff]
      cases front with
      | nil =>
        rw [isClosed_nil, List.nil_append, List.cons.injEq]
        constructor
        · rintro ⟨cut, -, heq⟩
          cases heq
        · rintro ⟨⟨hquote, -⟩, hescaping⟩
          exact absurd ⟨hquote, hescaping⟩ hclose
      | cons d front =>
        rw [List.cons_append, List.cons.injEq, isClosed_cons]
        constructor
        · rintro ⟨cut, hcut, heq⟩
          cases heq
          obtain ⟨rfl, hclosed⟩ := ih.mp hcut
          exact ⟨⟨rfl, rfl⟩, hclose, hclosed⟩
        · rintro ⟨⟨rfl, rfl⟩, -, hclosed⟩
          exact ⟨(front, back), ih.mpr ⟨rfl, hclosed⟩, rfl⟩

/-- **Where the scanner stops.**  It stops at the quote behind an even number of backslashes, if all quotes in front of
    that one stand behind an odd number. -/
theorem cut?_eq_some_iff : cut? false cs = some (front, back) ↔ cs = front ++ '\'' :: back
    ∧ Even (backslashes front) ∧ ∀ a b, front = a ++ '\'' :: b → Odd (backslashes a) := by
  rw [cut?_eq_some, ← escapesBehind_eq_false_iff]
  simp only [← escapesBehind_iff]
  exact and_congr_right fun _ => ⟨fun h => ⟨h.ends, h.inner⟩, fun h => ⟨h.1, h.2⟩⟩

/-! ### Escaped texts -/

/-- A text that can stand between quotes: its backslashes are doubled, and after that each quote gets a backslash in
    front. -/
def escaped (s : String) : String :=
  Text.replaceAll "'" "\\'" (Text.replaceAll "\\" "\\\\" s)

/-- The two replacements come to escaping each character by itself, since the second one only looks for quotes. -/
theorem toList_escaped (s : String) : (escaped s).toList = s.toList.flatMap escape := by
  have hchars : ∀ c : Char, (if c = '\\' then ['\\', '\\'] else [c]).flatMap
      (fun c => if c = '\'' then ['\\', '\''] else [c]) = escape c := by
    intro c
    by_cases hback : c = '\\'
    · subst hback
      rfl
    · by_cases hquote : c = '\''
      · subst hquote
        rfl
      · simp [escape, hback, hquote]
  have hsecond (t : String) : Text.replaceAll "'" "\\'" t
      = String.ofList (t.toList.flatMap fun c => if c = '\'' then ['\\', '\''] else [c]) :=
    congrArg String.ofList (Text.replaceFrom_singleton _ _ _)
  have hfirst (t : String) : Text.replaceAll "\\" "\\\\" t
      = String.ofList (t.toList.flatMap fun c => if c = '\\' then ['\\', '\\'] else [c]) :=
    congrArg String.ofList (Text.replaceFrom_singleton _ _ _)
  rw [escaped, hsecond, hfirst, String.toList_ofList, String.toList_ofList, List.flatMap_assoc]
  exact List.flatMap_congr fun c _ => hchars c

theorem literal_eq (s : String) : literal s = "'" ++ escaped s ++ "'" := by
  rw [← String.toList_inj, String.toList_append, String.toList_append, toList_escaped, literal, String.toList_ofList]
  rfl

/-- The scanner passes over an escaped character. -/
theorem cut?_escape (c : Char) (cs : List Char) :
    cut? false (escape c ++ cs) = (cut? false cs).map fun (front, back) => (escape c ++ front, back) := by
  unfold escape
  split
  · -- The backslash in front escapes the character, whichever of the two it is.
    simp [cut?, escapesNext, Function.comp_def]
  · next hplain =>
    rw [not_or] at hplain
    have hnext : escapesNext false c = false := by simp [escapesNext, hplain.2]
    rw [List.singleton_append, cut?, if_neg (by simp [hplain.1]), hnext]
    rfl

/-- The scanner passes over an escaped text, whatever follows it. -/
theorem cut?_flatMap_escape (cs back : List Char) :
    cut? false (cs.flatMap escape ++ '\'' :: back) = some (cs.flatMap escape, back) := by
  induction cs with
  | nil => rfl
  | cons c cs ih =>
    rw [List.flatMap_cons, List.append_assoc, cut?_escape, ih]
    rfl

theorem undo_escape (c : Char) (cs : List Char) : undo false (escape c ++ cs) = c :: undo false cs := by
  unfold escape
  split
  · simp [undo, escapesNext]
  · next hplain =>
    rw [not_or] at hplain
    simp [undo, escapesNext, hplain]

theorem undo_flatMap_escape (cs : List Char) : undo false (cs.flatMap escape) = cs := by
  induction cs with
  | nil => rfl
  | cons c cs ih => rw [List.flatMap_cons, undo_escape, ih]

theorem undone_escaped (s : String) : undone (escaped s) = s := by
  rw [undone, toList_escaped, undo_flatMap_escape, String.ofList_toList]

theorem toList_literal (s : String) : (literal s).toList = '\'' :: ((escaped s).toList ++ ['\'']) := by
  rw [literal, String.toList_ofList, literalChars, toList_escaped]

/-- A literal is closed by its own last character, whatever follows it. -/
theorem closing?_literal (s back : String) : closing? (literal s ++ back) = some (escaped s, back) := by
  rw [closing?, String.toList_append, toList_literal, List.cons_append, List.append_assoc, List.singleton_append]
  simp only [toList_escaped, cut?_flatMap_escape, Option.map_some]
  rw [← toList_escaped, String.ofList_toList, String.ofList_toList]

/-- Of the quotes of a literal only the first and the last are not escaped. -/
theorem even_backslashes_iff (s : String) (h : (literal s).toList = front ++ '\'' :: rest) :
    Even (backslashes front) ↔ front = [] ∨ rest = [] := by
  -- Where the scanner stops says for each quote of the literal whether it is escaped.
  obtain ⟨-, hlast, hinner⟩ := cut?_eq_some_iff.mp (cut?_flatMap_escape s.toList [])
  rw [toList_literal, toList_escaped] at h
  cases front with
  | nil => simp [backslashes]
  | cons d front =>
    rw [List.cons_append, List.cons.injEq] at h
    obtain ⟨rfl, hbody⟩ := h
    rw [backslashes_cons (by decide)]
    rcases List.eq_nil_or_concat' rest with rfl | ⟨rest, e, rfl⟩
    · rw [List.append_left_inj] at hbody
      rw [← hbody]
      simpa using hlast
    · -- A quote in front of the last one belongs to the value.
      have hsplit : front ++ '\'' :: (rest ++ [e]) = (front ++ '\'' :: rest) ++ [e] := by simp
      rw [hsplit] at hbody
      have hodd := hinner front rest (List.append_inj_left' hbody rfl)
      rw [← Nat.not_even_iff_odd] at hodd
      simp [hodd]

end Quotes

open Quotes (escaped closing? undone backslashes)

/-- **Literals are closed by their last character.**  A literal is the value between quotes, with its backslashes
    doubled and then a backslash in front of each of its quotes.  A scanner that begins at the first quote of the
    literal, and takes backslashes for escapes, stops at the last one, whatever follows the literal; and what it has
    passed over is the value when the escapes are undone.  All other quotes stand behind an odd number of
    backslashes, so no value closes its own quotes; and different values have different literals. -/
theorem literal_closed (value : String) :
    literal value = "'" ++ escaped value ++ "'"
      ∧ (∀ back, closing? (literal value ++ back) = some (escaped value, back))
      ∧ undone (escaped value) = value
      ∧ (∀ front rest, (literal value).toList = front ++ '\'' :: rest →
        (Even (backslashes front) ↔ front = [] ∨ rest = []))
      ∧ ∀ other, literal value = literal other ↔ value = other := by
  refine ⟨Quotes.literal_eq value, Quotes.closing?_literal value, Quotes.undone_escaped value,
    fun _ _ => Quotes.even_backslashes_iff value, fun other => ⟨fun heq => ?_, congrArg literal⟩⟩
  -- What is read from a literal is its value, so one literal has one value.
  have hvalue := Quotes.closing?_literal value ""
  rw [heq, Quotes.closing?_literal, Option.some_inj, Prod.mk.injEq] at hvalue
  rw [← Quotes.undone_escaped value, ← hvalue.1, Quotes.undone_escaped]

/-- The other way round the backslash in front of a quote is doubled, and the quote closes the text too early. -/
example : closing? ("'" ++ Text.replaceAll "\\" "\\\\" (Text.replaceAll "'" "\\'" "it's") ++ "'")
    = some ("it\\\\", "s'") := by
  cbv

end Output

end TypedClient
