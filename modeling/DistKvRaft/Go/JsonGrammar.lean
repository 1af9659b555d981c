import DistKvRaft.Go.Json
import Mathlib.Data.List.TakeWhile

/-!
# The grammar of JSON

What `Go.Json` accepts, as a grammar: the lexical rules for strings and numbers, and the productions
for values, objects and arrays with the bound on their nesting.  `parseValue_sound` says that
whatever the reader takes up is derived by the grammar, and `Derives.reads` that it takes up
whatever is derived.  A number is only read to its end where nothing follows that would continue it.

From the first it follows that each `Decode` call takes up input, so a loop of such calls over a
file ends.
-/

namespace DistKvRaft.Go.Json

open Utf8

/-! ## Lexical rules -/

def IsSpaces (s : GoString) : Prop := ∀ b ∈ s, isSpace b = true

/-- What may stand after a backslash, apart from a `\u` escape. -/
def escapes : List Byte :=
  [quote, backslash, asciiByte '/', asciiByte 'b', asciiByte 'f', asciiByte 'n', asciiByte 'r',
    asciiByte 't']

/-- What stands between the quotes of a string literal. -/
inductive IsChars : GoString → Prop
  | nil : IsChars []
  | plain {b : Byte} {rest : GoString} (hlow : 0x20 ≤ b.val) (hquote : b ≠ quote)
      (hback : b ≠ backslash) (h : IsChars rest) : IsChars (b :: rest)
  | escape {b : Byte} {rest : GoString} (hb : b ∈ escapes) (h : IsChars rest) :
      IsChars (backslash :: b :: rest)
  | unicode {p q r s : Byte} {rest : GoString}
      (hdigits : ∀ b ∈ [p, q, r, s], (hexValue b).isSome = true) (h : IsChars rest) :
      IsChars (backslash :: asciiByte 'u' :: p :: q :: r :: s :: rest)

/-- What the characters of a literal stand for. -/
def unquote (chars : GoString) : GoString :=
  ((stringBody (chars.length + 1) (chars ++ [quote])).map Prod.fst).getD []

/-- A string literal and its content. -/
def IsString (text s : GoString) : Prop :=
  ∃ chars, IsChars chars ∧ text = quote :: chars ++ [quote] ∧ s = unquote chars

def IsDigits (s : GoString) : Prop := s ≠ [] ∧ ∀ b ∈ s, isDigit b = true

def IsExponent (s : GoString) : Prop :=
  s = [] ∨ ∃ e sign digits, s = e :: (sign ++ digits) ∧ e ∈ [asciiByte 'e', asciiByte 'E'] ∧
    sign ∈ [[], [asciiByte '+'], [asciiByte '-']] ∧ IsDigits digits

def IsFraction (s : GoString) : Prop :=
  s = [] ∨ ∃ digits, s = asciiByte '.' :: digits ∧ IsDigits digits

/-- No superfluous leading zero. -/
def IsInteger (s : GoString) : Prop :=
  s = [asciiByte '0'] ∨ IsDigits s ∧ s.head? ≠ some (asciiByte '0')

def IsNumber (s : GoString) : Prop :=
  ∃ sign int frac exp, s = sign ++ (int ++ (frac ++ exp)) ∧ sign ∈ [[], [asciiByte '-']] ∧
    IsInteger int ∧ IsFraction frac ∧ IsExponent exp

/-! ## Productions -/

inductive Rule
  | value
  | element
  | member
  | members
  | elements

/-- The texts that a rule derives, with the value they stand for, where `depth` more objects and
arrays may be opened.  Members are given as an object of them, and elements by no value. -/
inductive Derives : Rule → ℕ → GoString → Value → Prop
  | null {depth : ℕ} : Derives .value depth (ascii "null") .null
  | bool {depth : ℕ} {text : GoString} (h : text ∈ [ascii "true", ascii "false"]) :
      Derives .value depth text .other
  | number {depth : ℕ} {text : GoString} (h : IsNumber text) : Derives .value depth text .other
  | string {depth : ℕ} {text s : GoString} (h : IsString text s) :
      Derives .value depth text (.string s)
  | emptyObject {depth : ℕ} {spaces : GoString} (h : IsSpaces spaces) :
      Derives .value (depth + 1) (asciiByte '\x7b' :: (spaces ++ [asciiByte '\x7d'])) (.object [])
  | object {depth : ℕ} {text : GoString} {members : List (GoString × Value)}
      (h : Derives .members depth text (.object members)) :
      Derives .value (depth + 1) (asciiByte '\x7b' :: (text ++ [asciiByte '\x7d']))
        (.object members)
  | emptyArray {depth : ℕ} {spaces : GoString} (h : IsSpaces spaces) :
      Derives .value (depth + 1) (asciiByte '[' :: (spaces ++ [asciiByte ']'])) .other
  | array {depth : ℕ} {text : GoString} (h : Derives .elements depth text .other) :
      Derives .value (depth + 1) (asciiByte '[' :: (text ++ [asciiByte ']'])) .other
  | element {depth : ℕ} {spaces text spaces' : GoString} {v : Value} (hspaces : IsSpaces spaces)
      (hspaces' : IsSpaces spaces') (h : Derives .value depth text v) :
      Derives .element depth (spaces ++ (text ++ spaces')) v
  | member {depth : ℕ} {spaces literal spaces' text name : GoString} {v : Value}
      (hspaces : IsSpaces spaces) (hname : IsString literal name) (hspaces' : IsSpaces spaces')
      (h : Derives .element depth text v) :
      Derives .member depth (spaces ++ (literal ++ (spaces' ++ asciiByte ':' :: text)))
        (.object [(name, v)])
  | lastMember {depth : ℕ} {text : GoString} {m : GoString × Value}
      (h : Derives .member depth text (.object [m])) : Derives .members depth text (.object [m])
  | nextMember {depth : ℕ} {text text' : GoString} {m : GoString × Value}
      {members : List (GoString × Value)} (h : Derives .member depth text (.object [m]))
      (h' : Derives .members depth text' (.object members)) :
      Derives .members depth (text ++ asciiByte ',' :: text') (.object (m :: members))
  | lastElement {depth : ℕ} {text : GoString} {v : Value} (h : Derives .element depth text v) :
      Derives .elements depth text .other
  | nextElement {depth : ℕ} {text text' : GoString} {v : Value}
      (h : Derives .element depth text v) (h' : Derives .elements depth text' .other) :
      Derives .elements depth (text ++ asciiByte ',' :: text') .other

/-! ## Strings -/

theorem le_of_tail {b : Byte} (h : tail b = true) : 0x80 ≤ b.val := by
  simp only [tail, Bool.and_eq_true, decide_eq_true_eq] at h
  exact h.1

/-- The second byte of a rune is outside ASCII. -/
theorem le_of_leads {b₀ b₁ : Byte}
    (h : leads2 b₀ b₁ = true ∨ leads3 b₀ b₁ = true ∨ leads4 b₀ b₁ = true) : 0x80 ≤ b₁.val := by
  simp only [leads2, leads3, leads4, tail, Bool.or_eq_true, Bool.and_eq_true,
    decide_eq_true_eq] at h
  omega

/-- The further bytes of a rune are outside ASCII. -/
theorem le_of_mem_rune {b : Byte} {s : GoString} {w : ℕ} (h : runeWidth (b :: s) = w + 1) {c : Byte}
    (hc : c ∈ s.take w) : 0x80 ≤ c.val := by
  rcases s with _ | ⟨b₁, _ | ⟨b₂, _ | ⟨b₃, s⟩⟩⟩
  all_goals
    simp only [runeWidth] at h
    try split_ifs at h
  all_goals
    cases h
    grind [le_of_leads, le_of_tail]

/-- A closing quote is part of no rune. -/
theorem runeWidth_quote {s : GoString} (hne : s ≠ []) (rest : GoString) :
    runeWidth (s ++ quote :: rest) = runeWidth s := by
  have htail : tail quote = false := by decide
  have hleads (b : Byte) : leads2 b quote = false ∧ leads3 b quote = false ∧
      leads4 b quote = false := by
    simp only [← Bool.not_eq_true, ← not_or]
    exact fun h ↦ absurd (le_of_leads h) (by decide)
  rcases s with _ | ⟨b₀, _ | ⟨b₁, _ | ⟨b₂, _ | ⟨b₃, s⟩⟩⟩⟩
  · exact absurd rfl hne
  · rcases rest with _ | ⟨c, _ | ⟨c', rest⟩⟩ <;> simp [runeWidth, hleads]
  · cases rest <;> simp [runeWidth, htail]
  · simp [runeWidth, htail]
  · rfl

namespace IsChars

variable {chars : GoString}

/-- Bytes outside ASCII are no part of an escape sequence. -/
theorem append {u : GoString} (hu : ∀ b ∈ u, 0x80 ≤ b.val) (h : IsChars chars) :
    IsChars (u ++ chars) := by
  induction u with
  | nil => exact h
  | cons b u ih =>
    have hb : 0x80 ≤ b.val := hu b (List.mem_cons_self ..)
    refine plain (by omega) ?_ ?_ (ih fun c hc ↦ hu c (List.mem_cons_of_mem _ hc))
    · rintro rfl
      exact absurd hb (by decide)
    · rintro rfl
      exact absurd hb (by decide)

theorem drop {n : ℕ} (hu : ∀ b ∈ chars.take n, 0x80 ≤ b.val) (h : IsChars chars) :
    IsChars (chars.drop n) := by
  induction n generalizing chars with
  | zero => exact h
  | succ n ih =>
    have hback : ¬ 0x80 ≤ (backslash : Byte).val := by decide
    cases h with
    | nil => exact nil
    | plain _ _ _ h => exact ih (fun b hb ↦ hu b (List.mem_cons_of_mem _ hb)) h
    | escape | unicode => exact absurd (hu _ (List.mem_cons_self ..)) hback

theorem head_ne_quote (h : IsChars chars) (hne : chars ≠ []) (rest : GoString) :
    (chars ++ rest).head? ≠ some quote := by
  cases h with
  | nil => exact absurd rfl hne
  | plain _ hquote => simpa using hquote
  | escape | unicode => simp [quote, backslash]

end IsChars

theorem getu4_eq_some {p q r s : Byte} (h : ∀ b ∈ [p, q, r, s], (hexValue b).isSome = true) :
    ∃ c, ∀ rest, getu4 (p :: q :: r :: s :: rest) = some (c, rest) := by
  simp only [List.forall_mem_cons, Option.isSome_iff_exists] at h
  obtain ⟨⟨_, hp⟩, ⟨_, hq⟩, ⟨_, hr⟩, ⟨_, hs⟩, -⟩ := h
  exact ⟨_, fun rest ↦ by simp [getu4, hp, hq, hr, hs]; rfl⟩

/-- An escape of another kind is no second half of a surrogate pair. -/
theorem lowSurrogate_eq_none {b : Byte} {rest : GoString}
    (h : ∀ tail, b :: rest ≠ backslash :: asciiByte 'u' :: tail) :
    lowSurrogate (b :: rest) = none := by
  unfold lowSurrogate
  split
  · next tail heq => exact absurd heq (h tail)
  · rfl

/-- Whether the second half of a surrogate pair stands at the head does not depend on what follows
the literal. -/
theorem lowSurrogate_quote {chars : GoString} (h : IsChars chars) :
    (∀ rest, lowSurrogate (chars ++ quote :: rest) = none) ∨
      ∃ c left, IsChars left ∧ left.length < chars.length ∧
        ∀ rest, lowSurrogate (chars ++ quote :: rest) = some (c, left ++ quote :: rest) := by
  cases h with
  | nil => exact Or.inl fun rest ↦ lowSurrogate_eq_none (by simp [quote, backslash])
  | plain _ _ hback => exact Or.inl fun rest ↦ lowSurrogate_eq_none (by simp [hback])
  | @escape b _ hb =>
    refine Or.inl fun rest ↦ lowSurrogate_eq_none fun tail heq ↦ ?_
    obtain ⟨-, heq⟩ := List.cons.inj heq
    rw [(List.cons.inj heq).1] at hb
    exact absurd hb (by decide)
  | @unicode p q r s left hdigits hleft =>
    obtain ⟨c, hc⟩ := getu4_eq_some hdigits
    have hlow (rest : GoString) :
        lowSurrogate (backslash :: asciiByte 'u' :: p :: q :: r :: s :: left ++ quote :: rest) =
          if 0xDC00 ≤ c ∧ c < 0xE000 then some (c, left ++ quote :: rest) else none := by
      have hu : asciiByte 'u' = 0x75 := by decide
      simp only [List.cons_append, backslash, hu, lowSurrogate, hc]
    simp only [hlow]
    split_ifs with hrange
    · refine Or.inr ⟨c, left, hleft, ?_, fun rest ↦ rfl⟩
      simp only [List.length_cons]
      omega
    · exact Or.inl fun _ ↦ rfl

/-- A `\u` escape is read without regard to what follows the literal. -/
theorem unicodeEscape_quote {p q r s : Byte} {chars : GoString}
    (hdigits : ∀ b ∈ [p, q, r, s], (hexValue b).isSome = true) (h : IsChars chars) :
    ∃ u left, IsChars left ∧ left.length ≤ chars.length ∧ ∀ rest,
      unicodeEscape (p :: q :: r :: s :: (chars ++ quote :: rest)) =
        some (u, left ++ quote :: rest) := by
  obtain ⟨c, hc⟩ := getu4_eq_some hdigits
  simp only [unicodeEscape, hc]
  split_ifs
  · exact ⟨_, chars, h, le_rfl, fun _ ↦ rfl⟩
  · rcases lowSurrogate_quote h with hnone | ⟨low, left, hleft, hlength, hlow⟩
    · exact ⟨_, chars, h, le_rfl, fun rest ↦ by rw [hnone]⟩
    · exact ⟨_, left, hleft, hlength.le, fun rest ↦ by rw [hlow]⟩
  · exact ⟨_, chars, h, le_rfl, fun _ ↦ rfl⟩

theorem escapeSequence_eq_some {b : Byte} (hb : b ∈ escapes) :
    ∃ c, ∀ rest, escapeSequence (b :: rest) = some ([c], rest) := by
  simp only [escapes, List.mem_cons, List.not_mem_nil, or_false] at hb
  rcases hb with rfl | rfl | rfl | rfl | rfl | rfl | rfl | rfl <;> exact ⟨_, fun _ ↦ rfl⟩

/-- One character of a literal is read without regard to what follows the literal. -/
theorem stringChar_quote {chars : GoString} (h : IsChars chars) (hne : chars ≠ []) :
    ∃ u left, IsChars left ∧ left.length < chars.length ∧
      ∀ rest, stringChar (chars ++ quote :: rest) = some (u, left ++ quote :: rest) := by
  cases h with
  | nil => exact absurd rfl hne
  | @plain b chars hlow hquote hback h =>
    have hwidth := runeWidth_quote (List.cons_ne_nil b chars)
    have hlow : ¬ b.val < 0x20 := by omega
    simp only [List.cons_append] at hwidth
    simp only [List.cons_append, stringChar, hback, hlow, if_false, hwidth]
    cases hw : runeWidth (b :: chars) with
    | zero => exact ⟨_, chars, h, Nat.lt_succ_self _, fun _ ↦ rfl⟩
    | succ w =>
      have hle : w ≤ chars.length := by
        have hlength := (isRune_take hw).2
        rw [List.length_take, List.length_cons] at hlength
        omega
      refine ⟨b :: chars.take w, chars.drop w, h.drop fun c ↦ le_of_mem_rune hw, ?_, fun rest ↦ ?_⟩
      · rw [List.length_drop, List.length_cons]
        omega
      · simp [List.take_append_of_le_length hle, List.drop_append_of_le_length hle]
  | @escape b chars hb h =>
    obtain ⟨c, hc⟩ := escapeSequence_eq_some hb
    refine ⟨[c], chars, h, ?_, fun rest ↦ ?_⟩
    · simp only [List.length_cons]
      omega
    · simp only [List.cons_append, stringChar, if_true]
      exact hc _
  | @unicode p q r s chars hdigits h =>
    obtain ⟨u, left, hleft, hlength, hu⟩ := unicodeEscape_quote hdigits h
    refine ⟨u, left, hleft, ?_, fun rest ↦ ?_⟩
    · simp only [List.length_cons]
      omega
    · simp only [List.cons_append, stringChar, if_true]
      exact hu rest

/-- The characters of a literal are read up to its closing quote. -/
theorem stringBody_quote {chars : GoString} (h : IsChars chars) {n : ℕ} (hn : chars.length < n)
    (rest : GoString) : stringBody n (chars ++ quote :: rest) = some (unquote chars, rest) := by
  have hread : ∃ s, ∀ n rest, chars.length < n →
      stringBody n (chars ++ quote :: rest) = some (s, rest) := by
    clear hn rest n
    generalize hk : chars.length = k
    induction k using Nat.strong_induction_on generalizing chars with
    | _ k ih =>
      by_cases hne : chars = []
      · subst hne
        refine ⟨[], fun n rest hn ↦ ?_⟩
        obtain ⟨n, rfl⟩ := Nat.exists_eq_succ_of_ne_zero (by omega : n ≠ 0)
        simp [stringBody]
      · obtain ⟨u, left, hleft, hlength, hchar⟩ := stringChar_quote h hne
        obtain ⟨s, hs⟩ := ih left.length (hk ▸ hlength) hleft rfl
        refine ⟨u ++ s, fun n rest hn ↦ ?_⟩
        obtain ⟨n, rfl⟩ := Nat.exists_eq_succ_of_ne_zero (by omega : n ≠ 0)
        rw [stringBody, if_neg (h.head_ne_quote hne _), hchar]
        dsimp only
        rw [hs n rest (by omega), Option.map_some]
  obtain ⟨s, hs⟩ := hread
  rw [hs n rest hn, unquote, hs _ _ (Nat.lt_succ_self _)]
  rfl

theorem getu4_sound {s rest : GoString} {c : ℕ} (h : getu4 s = some (c, rest)) :
    ∃ digits, s = digits ++ rest ∧ ∀ chars, IsChars chars →
      IsChars (backslash :: asciiByte 'u' :: digits ++ chars) := by
  unfold getu4 at h
  split at h
  · next p q r t rest' =>
    simp only [bind, Option.bind_eq_some_iff, pure, Option.some.injEq, Prod.mk.injEq] at h
    obtain ⟨_, hp, _, hq, _, hr, _, ht, -, rfl⟩ := h
    refine ⟨[p, q, r, t], rfl, fun chars hchars ↦ .unicode ?_ hchars⟩
    simp [hp, hq, hr, ht]
  · cases h

theorem lowSurrogate_sound {s rest : GoString} {c : ℕ} (h : lowSurrogate s = some (c, rest)) :
    ∃ piece, s = piece ++ rest ∧ ∀ chars, IsChars chars → IsChars (piece ++ chars) := by
  unfold lowSurrogate at h
  split at h
  · split at h
    · next hdigits =>
      split_ifs at h
      cases h
      obtain ⟨digits, rfl, hchars⟩ := getu4_sound hdigits
      have hu : asciiByte 'u' = 0x75 := by decide
      refine ⟨backslash :: asciiByte 'u' :: digits, ?_, hchars⟩
      simp only [List.cons_append, hu, backslash]
    · cases h
  · cases h

theorem unicodeEscape_sound {s u rest : GoString} (h : unicodeEscape s = some (u, rest)) :
    ∃ piece, s = piece ++ rest ∧ ∀ chars, IsChars chars →
      IsChars (backslash :: asciiByte 'u' :: piece ++ chars) := by
  unfold unicodeEscape at h
  split at h
  · cases h
  · next c tail hdigits =>
    obtain ⟨digits, rfl, hchars⟩ := getu4_sound hdigits
    split_ifs at h
    · cases h
      exact ⟨digits, rfl, hchars⟩
    · split at h
      · next hlow =>
        rw [Option.some.injEq, Prod.mk.injEq] at h
        obtain ⟨-, rfl⟩ := h
        obtain ⟨piece, rfl, hpiece⟩ := lowSurrogate_sound hlow
        refine ⟨digits ++ piece, (List.append_assoc ..).symm, fun chars h ↦ ?_⟩
        rw [← List.cons_append, ← List.cons_append, List.append_assoc]
        exact hchars _ (hpiece chars h)
      · cases h
        exact ⟨digits, rfl, hchars⟩
    · cases h
      exact ⟨digits, rfl, hchars⟩

theorem escapeSequence_sound {s u rest : GoString} (h : escapeSequence s = some (u, rest)) :
    ∃ piece, s = piece ++ rest ∧ ∀ chars, IsChars chars →
      IsChars (backslash :: piece ++ chars) := by
  cases s with
  | nil => cases h
  | cons b tail =>
    by_cases hb : b ∈ escapes
    · obtain ⟨c, hc⟩ := escapeSequence_eq_some hb
      rw [hc] at h
      cases h
      exact ⟨[b], rfl, fun chars hchars ↦ .escape hb hchars⟩
    · simp only [escapes, List.mem_cons, List.not_mem_nil, or_false, not_or] at hb
      obtain ⟨h₁, h₂, h₃, h₄, h₅, h₆, h₇, h₈⟩ := hb
      simp only [escapeSequence, h₁, h₂, h₃, h₄, h₅, h₆, h₇, h₈, or_self, if_false] at h
      split_ifs at h with hu
      obtain ⟨piece, rfl, hpiece⟩ := unicodeEscape_sound h
      exact ⟨b :: piece, rfl, fun chars hchars ↦ hu ▸ hpiece chars hchars⟩

/-- A character that was read can stand before those that follow it. -/
theorem stringChar_sound {s u rest : GoString} (h : stringChar s = some (u, rest))
    (hquote : s.head? ≠ some quote) :
    ∃ piece, s = piece ++ rest ∧ ∀ chars, IsChars chars → IsChars (piece ++ chars) := by
  cases s with
  | nil => cases h
  | cons b tail =>
    rw [List.head?_cons, ne_eq, Option.some.injEq] at hquote
    unfold stringChar at h
    dsimp only at h
    split_ifs at h with hback hlow
    · obtain ⟨piece, rfl, hpiece⟩ := escapeSequence_sound h
      exact ⟨b :: piece, rfl, fun chars hchars ↦ hback ▸ hpiece chars hchars⟩
    · have hplain {chars : GoString} (hchars : IsChars chars) : IsChars (b :: chars) :=
        .plain (Nat.le_of_not_lt hlow) hquote hback hchars
      split at h
      · cases h
        exact ⟨[b], rfl, fun _ ↦ hplain⟩
      · next w hw =>
        cases h
        refine ⟨b :: tail.take w, ?_, fun chars hchars ↦ ?_⟩
        · rw [List.drop_succ_cons, List.cons_append, List.take_append_drop]
        · exact hplain (hchars.append fun c ↦ le_of_mem_rune hw)

theorem stringBody_sound {n : ℕ} {t s rest : GoString} (h : stringBody n t = some (s, rest)) :
    ∃ chars, IsChars chars ∧ t = chars ++ quote :: rest := by
  induction n generalizing t s with
  | zero => cases h
  | succ n ih =>
    rw [stringBody] at h
    split_ifs at h with hquote
    · cases h
      exact ⟨[], .nil, (List.cons_head?_tail hquote).symm⟩
    · cases hchar : stringChar t with
      | none => simp [hchar] at h
      | some p =>
        rw [hchar] at h
        obtain ⟨⟨s', rest'⟩, hbody, heq⟩ := Option.map_eq_some_iff.mp h
        cases heq
        obtain ⟨chars, hchars, hrest⟩ := ih hbody
        obtain ⟨piece, hpiece, happend⟩ := stringChar_sound hchar hquote
        exact ⟨piece ++ chars, happend chars hchars, by rw [hpiece, hrest, List.append_assoc]⟩

theorem parseString_eq_some_iff {t s rest : GoString} :
    parseString t = some (s, rest) ↔ ∃ text, IsString text s ∧ t = text ++ rest := by
  constructor
  · intro h
    cases t with
    | nil => cases h
    | cons b t =>
      rw [parseString] at h
      split_ifs at h with hb
      obtain ⟨chars, hchars, rfl⟩ := stringBody_sound h
      refine ⟨_, ⟨chars, hchars, rfl, ?_⟩, by simp [hb]⟩
      rw [stringBody_quote hchars (by simp)] at h
      cases h
      rfl
  · rintro ⟨text, ⟨chars, hchars, rfl, rfl⟩, rfl⟩
    simp only [List.cons_append, List.append_assoc, List.nil_append, parseString, if_true]
    exact stringBody_quote hchars (by simp) rest

/-! ## Numbers and names -/

/-- Nothing that would continue a number. -/
def Stops (s : GoString) : Prop := ∀ b ∈ s.head?, isDigit b = false ∧
  b ∉ [asciiByte '.', asciiByte 'e', asciiByte 'E']

theorem dropWhile_isDigit {s : GoString} (h : ∀ b ∈ s.head?, isDigit b = false) :
    s.dropWhile isDigit = s := by
  cases s with
  | nil => rfl
  | cons b s => exact List.dropWhile_cons_of_neg (by simp [h b rfl])

theorem IsDigits.dropWhile {digits rest : GoString} (h : IsDigits digits)
    (hrest : ∀ b ∈ rest.head?, isDigit b = false) :
    (digits ++ rest).dropWhile isDigit = rest := by
  rw [List.dropWhile_append_of_pos h.2, dropWhile_isDigit hrest]

theorem IsDigits.head {digits : GoString} (h : IsDigits digits) (rest : GoString) :
    (digits ++ rest).head?.any isDigit = true := by
  cases digits with
  | nil => exact absurd rfl h.1
  | cons b digits => exact h.2 b (List.mem_cons_self ..)

theorem exists_digits {s : GoString} (h : s.head?.any isDigit = true) :
    ∃ digits, IsDigits digits ∧ s = digits ++ s.dropWhile isDigit := by
  refine ⟨s.takeWhile isDigit, ⟨?_, fun b ↦ List.mem_takeWhile_imp⟩,
    (List.takeWhile_append_dropWhile ..).symm⟩
  cases s with
  | nil => cases h
  | cons b s => simp [List.takeWhile_cons_of_pos (show isDigit b = true from h)]

/-- The optional sign of an exponent. -/
theorem exists_sign (s : GoString) : ∃ sign ∈ [[], [asciiByte '+'], [asciiByte '-']],
    s = sign ++ if s.head? = some (asciiByte '+') ∨ s.head? = some (asciiByte '-')
      then s.tail else s := by
  by_cases hsign : s.head? = some (asciiByte '+') ∨ s.head? = some (asciiByte '-')
  · rw [if_pos hsign]
    rcases hsign with hsign | hsign
    · exact ⟨[asciiByte '+'], by simp, (List.cons_head?_tail hsign).symm⟩
    · exact ⟨[asciiByte '-'], by simp, (List.cons_head?_tail hsign).symm⟩
  · rw [if_neg hsign]
    exact ⟨[], by simp, rfl⟩

theorem numberExponent_sound {s rest : GoString} (h : numberExponent s = some rest) :
    ∃ exp, IsExponent exp ∧ s = exp ++ rest := by
  unfold numberExponent at h
  by_cases he : s.head? = some (asciiByte 'e') ∨ s.head? = some (asciiByte 'E')
  · rw [if_pos he] at h
    obtain ⟨e, hs, he⟩ : ∃ e, s.head? = some e ∧ e ∈ [asciiByte 'e', asciiByte 'E'] := by
      rcases he with he | he
      · exact ⟨_, he, by simp⟩
      · exact ⟨_, he, by simp⟩
    obtain ⟨sign, hsign, htail⟩ := exists_sign s.tail
    dsimp only at h
    generalize (if s.tail.head? = some (asciiByte '+') ∨ s.tail.head? = some (asciiByte '-')
      then s.tail.tail else s.tail) = left at h htail
    rw [Option.ite_none_right_eq_some] at h
    obtain ⟨hdigit, heq⟩ := h
    cases heq
    obtain ⟨digits, hall, hleft⟩ := exists_digits hdigit
    refine ⟨e :: (sign ++ digits), Or.inr ⟨e, sign, digits, rfl, he, hsign, hall⟩, ?_⟩
    rw [← List.cons_head?_tail hs, htail, List.cons_append, List.append_assoc, ← hleft]
  · rw [if_neg he] at h
    cases h
    exact ⟨[], Or.inl rfl, rfl⟩

theorem numberFraction_sound {s rest : GoString} (h : numberFraction s = some rest) :
    ∃ frac exp, IsFraction frac ∧ IsExponent exp ∧ s = frac ++ (exp ++ rest) := by
  unfold numberFraction at h
  split_ifs at h with hdot hdigit
  · obtain ⟨digits, hall, heq⟩ := exists_digits hdigit
    obtain ⟨exp, hexp, hrest⟩ := numberExponent_sound h
    refine ⟨asciiByte '.' :: digits, exp, Or.inr ⟨digits, rfl, hall⟩, hexp, ?_⟩
    rw [← List.cons_head?_tail hdot, heq, hrest, List.cons_append]
  · obtain ⟨exp, hexp, hrest⟩ := numberExponent_sound h
    exact ⟨[], exp, Or.inl rfl, hexp, hrest⟩

theorem parseNumber_sound {s rest : GoString} (h : parseNumber s = some rest) :
    ∃ text, IsNumber text ∧ s = text ++ rest := by
  unfold parseNumber at h
  obtain ⟨sign, hsign, hs⟩ : ∃ sign ∈ [[], [asciiByte '-']],
      s = sign ++ if s.head? = some (asciiByte '-') then s.tail else s := by
    split_ifs with hminus
    · exact ⟨[asciiByte '-'], by simp, (List.cons_head?_tail hminus).symm⟩
    · exact ⟨[], by simp, rfl⟩
  dsimp only at h
  generalize (if s.head? = some (asciiByte '-') then s.tail else s) = left at h hs
  obtain ⟨int, hint, left', hleft, hfrac⟩ : ∃ int, IsInteger int ∧ ∃ left', left = int ++ left' ∧
      numberFraction left' = some rest := by
    split_ifs at h with hzero hdigit
    · exact ⟨_, Or.inl rfl, _, (List.cons_head?_tail hzero).symm, h⟩
    · obtain ⟨digits, hall, heq⟩ := exists_digits hdigit
      refine ⟨digits, Or.inr ⟨hall, fun hhead ↦ hzero ?_⟩, _, heq, h⟩
      rw [heq, List.head?_append, hhead]
      rfl
  obtain ⟨frac, exp, hf, he, heq⟩ := numberFraction_sound hfrac
  refine ⟨sign ++ (int ++ (frac ++ exp)), ⟨sign, int, frac, exp, rfl, hsign, hint, hf, he⟩, ?_⟩
  rw [hs, hleft, heq]
  simp only [List.append_assoc]

theorem Stops.digit {s : GoString} (h : Stops s) : ∀ b ∈ s.head?, isDigit b = false :=
  fun b hb ↦ (h b hb).1

theorem Stops.head_ne {s : GoString} (h : Stops s) {b : Byte}
    (hb : b ∈ [asciiByte '.', asciiByte 'e', asciiByte 'E']) : s.head? ≠ some b :=
  fun hs ↦ (h b hs).2 hb

theorem numberExponent_append {exp rest : GoString} (h : IsExponent exp) (hrest : Stops rest) :
    numberExponent (exp ++ rest) = some rest := by
  rcases h with rfl | ⟨e, sign, digits, rfl, he, hsign, hall⟩
  · rw [List.nil_append, numberExponent, if_neg]
    exact not_or.mpr ⟨hrest.head_ne (by simp), hrest.head_ne (by simp)⟩
  · have hhead := hall.head rest
    have hdrop := hall.dropWhile hrest.digit
    have hnosign : ¬ ((digits ++ rest).head? = some (asciiByte '+') ∨
        (digits ++ rest).head? = some (asciiByte '-')) := by
      rintro (heq | heq)
      · rw [heq] at hhead
        exact absurd hhead (by decide)
      · rw [heq] at hhead
        exact absurd hhead (by decide)
    have he' : e = asciiByte 'e' ∨ e = asciiByte 'E' := by simpa using he
    simp only [List.mem_cons, List.not_mem_nil, or_false] at hsign
    simp only [numberExponent, List.cons_append, List.append_assoc, List.head?_cons,
      Option.some.injEq, he', if_true, List.tail_cons]
    rcases hsign with rfl | rfl | rfl
    · simp only [List.nil_append, hnosign, if_false, hhead, if_true, hdrop]
    · simp only [List.cons_append, List.nil_append, List.head?_cons, true_or, if_true,
        List.tail_cons, hhead, hdrop]
    · simp only [List.cons_append, List.nil_append, List.head?_cons, or_true, if_true,
        List.tail_cons, hhead, hdrop]

theorem head_exponent {exp rest : GoString} (hexp : IsExponent exp) (hrest : Stops rest) :
    ∀ b ∈ (exp ++ rest).head?, isDigit b = false ∧ b ≠ asciiByte '.' := by
  rcases hexp with rfl | ⟨e, sign, digits, rfl, he, -⟩
  · intro b hb
    obtain ⟨hdigit, hb⟩ := hrest b hb
    exact ⟨hdigit, fun heq ↦ hb (by simp [heq])⟩
  · intro b hb
    cases hb
    simp only [List.mem_cons, List.not_mem_nil, or_false] at he
    rcases he with rfl | rfl
    · exact ⟨by decide, by decide⟩
    · exact ⟨by decide, by decide⟩

theorem head_fraction {frac exp rest : GoString} (hfrac : IsFraction frac) (hexp : IsExponent exp)
    (hrest : Stops rest) : ∀ b ∈ (frac ++ (exp ++ rest)).head?, isDigit b = false := by
  rcases hfrac with rfl | ⟨digits, rfl, -⟩
  · exact fun b hb ↦ (head_exponent hexp hrest b hb).1
  · intro b hb
    cases hb
    decide

theorem numberFraction_append {frac exp rest : GoString} (hfrac : IsFraction frac)
    (hexp : IsExponent exp) (hrest : Stops rest) :
    numberFraction (frac ++ (exp ++ rest)) = some rest := by
  have hhead := head_exponent hexp hrest
  rcases hfrac with rfl | ⟨digits, rfl, hall⟩
  · rw [List.nil_append, numberFraction, if_neg]
    · exact numberExponent_append hexp hrest
    · exact fun hdot ↦ (hhead _ hdot).2 rfl
  · have hdrop := hall.dropWhile fun b hb ↦ (hhead b hb).1
    simp only [numberFraction, List.cons_append, List.head?_cons, if_true, List.tail_cons,
      hall.head, hdrop]
    exact numberExponent_append hexp hrest

/-- A number is read up to its end where nothing continues it. -/
theorem parseNumber_append {text rest : GoString} (h : IsNumber text) (hrest : Stops rest) :
    parseNumber (text ++ rest) = some rest := by
  obtain ⟨sign, int, frac, exp, rfl, hsign, hint, hfrac, hexp⟩ := h
  simp only [List.append_assoc]
  have hfraction := numberFraction_append hfrac hexp hrest
  have hhead := head_fraction hfrac hexp hrest
  generalize frac ++ (exp ++ rest) = left at hfraction hhead ⊢
  have hminus : (int ++ left).head? ≠ some (asciiByte '-') := by
    rcases hint with rfl | ⟨hall, -⟩
    · exact (by decide : some (asciiByte '0') ≠ some (asciiByte '-'))
    · intro heq
      have hdigit := hall.head left
      rw [heq] at hdigit
      exact absurd hdigit (by decide)
  have hinteger : (if (int ++ left).head? = some (asciiByte '0') then
      numberFraction (int ++ left).tail
      else if (int ++ left).head?.any isDigit then
        numberFraction ((int ++ left).dropWhile isDigit)
      else none) = some rest := by
    rcases hint with rfl | ⟨hall, hzero⟩
    · exact hfraction
    · rw [hall.dropWhile hhead, hall.head, if_pos rfl, hfraction, if_neg]
      cases int with
      | nil => exact absurd rfl hall.1
      | cons b int => exact hzero
  simp only [List.mem_cons, List.not_mem_nil, or_false] at hsign
  rcases hsign with rfl | rfl
  · simp only [parseNumber, List.nil_append, hminus, if_false]
    exact hinteger
  · simp only [parseNumber, List.cons_append, List.nil_append, List.head?_cons, if_true,
      List.tail_cons]
    exact hinteger

theorem expect_eq_some_iff {literal s rest : GoString} :
    expect literal s = some rest ↔ s = literal ++ rest := by
  unfold expect
  rw [Option.ite_none_right_eq_some, Option.some.injEq]
  constructor
  · rintro ⟨htake, rfl⟩
    conv_lhs => rw [← List.take_append_drop literal.length s, htake]
  · rintro rfl
    simp

/-- A name or a number that is read is one of the grammar. -/
theorem parseScalar_sound {s rest : GoString} {v : Value} (h : parseScalar s = some (v, rest))
    (depth : ℕ) : ∃ text, Derives .value depth text v ∧ s = text ++ rest := by
  unfold parseScalar at h
  split at h
  · next hnull =>
    cases h
    exact ⟨_, .null, expect_eq_some_iff.mp hnull⟩
  · split at h
    · next hother =>
      cases h
      rcases Option.or_eq_some_iff.mp hother with htrue | ⟨-, hother⟩
      · exact ⟨_, .bool (by simp), expect_eq_some_iff.mp htrue⟩
      · rcases Option.or_eq_some_iff.mp hother with hfalse | ⟨-, hnumber⟩
        · exact ⟨_, .bool (by simp), expect_eq_some_iff.mp hfalse⟩
        · obtain ⟨text, htext, heq⟩ := parseNumber_sound hnumber
          exact ⟨text, .number htext, heq⟩
    · cases h

/-! ## What is read is derived -/

theorem exists_spaces (s : GoString) : ∃ spaces, IsSpaces spaces ∧ s = spaces ++ skipSpace s :=
  ⟨s.takeWhile isSpace, fun _ ↦ List.mem_takeWhile_imp, (List.takeWhile_append_dropWhile ..).symm⟩

/-- White space before a separator. -/
theorem exists_separator {s : GoString} {b : Byte} (h : (skipSpace s).head? = some b) :
    ∃ spaces, IsSpaces spaces ∧ s = spaces ++ b :: (skipSpace s).tail := by
  obtain ⟨spaces, hspaces, hs⟩ := exists_spaces s
  exact ⟨spaces, hspaces, by rw [List.cons_head?_tail h]; exact hs⟩

def ValuesSound (n depth : ℕ) : Prop :=
  ∀ ⦃s v rest⦄, parseValue n depth s = some (v, rest) →
    ∃ spaces text, IsSpaces spaces ∧ Derives .value depth text v ∧ s = spaces ++ (text ++ rest)

def MembersSound (n depth : ℕ) : Prop :=
  ∀ ⦃s members rest⦄, parseMembers n depth s = some (members, rest) →
    ∃ text, Derives .members depth text (.object members) ∧ s = text ++ asciiByte '\x7d' :: rest

def ItemsSound (n depth : ℕ) : Prop :=
  ∀ ⦃s rest⦄, parseItems n depth s = some rest →
    ∃ text, Derives .elements depth text .other ∧ s = text ++ asciiByte ']' :: rest

section Sound

variable {n depth : ℕ}

theorem valuesSound_succ (hmembers : ∀ depth, MembersSound n depth)
    (hitems : ∀ depth, ItemsSound n depth) : ValuesSound (n + 1) depth := by
  intro s v rest h
  obtain ⟨spaces, hspaces, hs⟩ := exists_spaces s
  -- it is enough to derive what follows the white space
  suffices hderives : ∃ text, Derives .value depth text v ∧ skipSpace s = text ++ rest by
    obtain ⟨text, htext, heq⟩ := hderives
    exact ⟨spaces, text, hspaces, htext, by rw [← heq]; exact hs⟩
  rw [parseValue] at h
  split at h
  · cases h
  · next b tail hskip =>
    rw [hskip]
    split_ifs at h with hbrace hdepth hempty hbracket hdepth hempty hquote
    · cases h
      obtain ⟨depth, rfl⟩ := Nat.exists_eq_succ_of_ne_zero hdepth
      obtain ⟨inner, hinner, htail⟩ := exists_separator hempty
      refine ⟨_, .emptyObject hinner, ?_⟩
      conv_lhs => rw [hbrace, htail]
      simp
    · obtain ⟨⟨members, rest'⟩, hread, heq⟩ := Option.map_eq_some_iff.mp h
      cases heq
      obtain ⟨depth, rfl⟩ := Nat.exists_eq_succ_of_ne_zero hdepth
      obtain ⟨text, htext, rfl⟩ := hmembers _ hread
      exact ⟨_, .object htext, by simp [hbrace]⟩
    · cases h
      obtain ⟨depth, rfl⟩ := Nat.exists_eq_succ_of_ne_zero hdepth
      obtain ⟨inner, hinner, htail⟩ := exists_separator hempty
      refine ⟨_, .emptyArray hinner, ?_⟩
      conv_lhs => rw [hbracket, htail]
      simp
    · obtain ⟨rest', hread, heq⟩ := Option.map_eq_some_iff.mp h
      cases heq
      obtain ⟨depth, rfl⟩ := Nat.exists_eq_succ_of_ne_zero hdepth
      obtain ⟨text, htext, rfl⟩ := hitems _ hread
      exact ⟨_, .array htext, by simp [hbracket]⟩
    · obtain ⟨⟨u, rest'⟩, hread, heq⟩ := Option.map_eq_some_iff.mp h
      cases heq
      obtain ⟨text, htext, heq⟩ := parseString_eq_some_iff.mp hread
      exact ⟨text, .string htext, heq⟩
    · exact parseScalar_sound h depth

/-- A value with the white space around it. -/
theorem ValuesSound.element (h : ValuesSound n depth) {s rest : GoString} {v : Value} {b : Byte}
    (hread : parseValue n depth s = some (v, rest)) (hb : (skipSpace rest).head? = some b) :
    ∃ text, Derives .element depth text v ∧ s = text ++ b :: (skipSpace rest).tail := by
  obtain ⟨spaces, text, hspaces, htext, rfl⟩ := h hread
  obtain ⟨after, hafter, hrest⟩ := exists_separator hb
  refine ⟨_, .element hspaces hafter htext, ?_⟩
  conv_lhs => rw [hrest]
  simp

theorem membersSound_succ (hvalue : ValuesSound n depth) (hmembers : MembersSound n depth) :
    MembersSound (n + 1) depth := by
  intro s members rest h
  rw [parseMembers] at h
  split at h
  · cases h
  · next name left hname =>
    obtain ⟨literal, hliteral, hleft⟩ := parseString_eq_some_iff.mp hname
    obtain ⟨spaces, hspaces, hs⟩ := exists_spaces s
    by_cases hcolon : (skipSpace left).head? = some (asciiByte ':')
    · rw [if_pos hcolon] at h
      obtain ⟨between, hbetween, hcolonText⟩ := exists_separator hcolon
      split at h
      · cases h
      · next v left' hread =>
        have hmember {b : Byte} (hb : (skipSpace left').head? = some b) :
            ∃ text, Derives .member depth text (.object [(name, v)]) ∧
              s = text ++ b :: (skipSpace left').tail := by
          obtain ⟨text, htext, heq⟩ := hvalue.element hread hb
          refine ⟨_, .member hspaces hliteral hbetween htext, ?_⟩
          rw [hs, hleft]
          conv_lhs => rw [hcolonText, heq]
          simp
        split_ifs at h with hcomma hclose
        · obtain ⟨⟨members', rest'⟩, hrest, heq⟩ := Option.map_eq_some_iff.mp h
          cases heq
          obtain ⟨text, htext, hsame⟩ := hmember hcomma
          obtain ⟨text', htext', htail⟩ := hmembers hrest
          exact ⟨_, .nextMember htext htext', by rw [hsame, htail]; simp⟩
        · cases h
          obtain ⟨text, htext, hsame⟩ := hmember hclose
          exact ⟨text, .lastMember htext, hsame⟩
    · rw [if_neg hcolon] at h
      cases h

theorem itemsSound_succ (hvalue : ValuesSound n depth) (hitems : ItemsSound n depth) :
    ItemsSound (n + 1) depth := by
  intro s rest h
  rw [parseItems] at h
  split at h
  · cases h
  · next v left hread =>
    split_ifs at h with hcomma hclose
    · obtain ⟨text, htext, hsame⟩ := hvalue.element hread hcomma
      obtain ⟨text', htext', htail⟩ := hitems h
      exact ⟨_, .nextElement htext htext', by rw [hsame, htail]; simp⟩
    · cases h
      obtain ⟨text, htext, hsame⟩ := hvalue.element hread hclose
      exact ⟨text, .lastElement htext, hsame⟩

end Sound

theorem parse_sound (n depth : ℕ) :
    ValuesSound n depth ∧ MembersSound n depth ∧ ItemsSound n depth := by
  induction n generalizing depth with
  | zero =>
    refine ⟨fun s v rest h ↦ ?_, fun s members rest h ↦ ?_, fun s rest h ↦ ?_⟩
    · rw [parseValue] at h
      cases h
    · rw [parseMembers] at h
      cases h
    · rw [parseItems] at h
      cases h
  | succ n ih =>
    obtain ⟨hvalues, hmembers, hitems⟩ := ih depth
    exact ⟨valuesSound_succ (fun depth ↦ (ih depth).2.1) fun depth ↦ (ih depth).2.2,
      membersSound_succ hvalues hmembers, itemsSound_succ hvalues hitems⟩

/-! ## What is derived is read -/

/-- How the text of each rule is read where something follows that can stand there. -/
def Reads : Rule → ℕ → GoString → Value → Prop
  | .value, depth, text, v => ∀ n rest, text.length ≤ n → Stops rest →
      parseValue n depth (text ++ rest) = some (v, rest)
  | .element, depth, text, v => ∀ n b rest, text.length ≤ n →
      b ∈ [asciiByte ',', asciiByte ']', asciiByte '\x7d'] →
      ∃ left, parseValue n depth (text ++ b :: rest) = some (v, left) ∧ skipSpace left = b :: rest
  | .member, depth, text, v => ∀ n b rest, text.length ≤ n →
      b ∈ [asciiByte ',', asciiByte ']', asciiByte '\x7d'] →
      ∃ name value between left, v = .object [(name, value)] ∧
        parseString (skipSpace (text ++ b :: rest)) = some (name, between) ∧
        (skipSpace between).head? = some (asciiByte ':') ∧
        parseValue n depth (skipSpace between).tail = some (value, left) ∧
        skipSpace left = b :: rest
  | .members, depth, text, v => ∀ n rest, text.length < n → ∃ members, v = .object members ∧
      parseMembers n depth (text ++ asciiByte '\x7d' :: rest) = some (members, rest)
  | .elements, depth, text, _ => ∀ n rest, text.length < n →
      parseItems n depth (text ++ asciiByte ']' :: rest) = some rest

theorem stops_of_mem {b : Byte} (h : b ∈ [asciiByte ',', asciiByte ']', asciiByte '\x7d'])
    (rest : GoString) : Stops (b :: rest) := by
  intro c hc
  cases hc
  simp only [List.mem_cons, List.not_mem_nil, or_false] at h
  rcases h with rfl | rfl | rfl
  · exact ⟨by decide, by decide⟩
  · exact ⟨by decide, by decide⟩
  · exact ⟨by decide, by decide⟩

theorem stops_append {spaces rest : GoString} (hspaces : IsSpaces spaces) (hrest : Stops rest) :
    Stops (spaces ++ rest) := by
  cases spaces with
  | nil => exact hrest
  | cons b spaces =>
    intro c hc
    cases hc
    have hb := hspaces b (List.mem_cons_self ..)
    simp only [isSpace, Bool.or_eq_true, decide_eq_true_eq] at hb
    rcases hb with ((rfl | rfl) | rfl) | rfl
    · exact ⟨by decide, by decide⟩
    · exact ⟨by decide, by decide⟩
    · exact ⟨by decide, by decide⟩
    · exact ⟨by decide, by decide⟩

/-- Names and numbers start with no brace, bracket or quote. -/
theorem reads_scalar {b : Byte} (tail : GoString) {v : Value} (hspace : isSpace b = false)
    (hb : b ∉ [asciiByte '\x7b', asciiByte '[', quote]) (depth : ℕ)
    (h : ∀ rest, Stops rest → parseScalar (b :: (tail ++ rest)) = some (v, rest)) :
    Reads .value depth (b :: tail) v := by
  intro n rest hn hrest
  obtain ⟨n, rfl⟩ : ∃ m, n = m + 1 := Nat.exists_eq_succ_of_ne_zero (by rintro rfl; cases hn)
  simp only [List.mem_cons, List.not_mem_nil, or_false, not_or] at hb
  rw [parseValue, List.cons_append, skipSpace_cons hspace]
  simp only [hb.1, hb.2.1, hb.2.2, if_false]
  exact h rest hrest

theorem expect_of_ne {a b : Byte} (h : a ≠ b) (literal rest : GoString) :
    expect (a :: literal) (b :: rest) = none := by
  simp [expect, Ne.symm h]

theorem exists_head_of_isNumber {text : GoString} (h : IsNumber text) :
    ∃ b tail, text = b :: tail ∧ (isDigit b = true ∨ b = asciiByte '-') := by
  obtain ⟨sign, int, frac, exp, rfl, hsign, hint, -, -⟩ := h
  simp only [List.mem_cons, List.not_mem_nil, or_false] at hsign
  rcases hsign with rfl | rfl
  · rcases hint with rfl | ⟨⟨hne, hall⟩, -⟩
    · exact ⟨_, _, rfl, Or.inl (by decide)⟩
    · obtain ⟨b, int, rfl⟩ := List.exists_cons_of_ne_nil hne
      exact ⟨_, _, rfl, Or.inl (hall b (List.mem_cons_self ..))⟩
  · exact ⟨_, _, rfl, Or.inr rfl⟩

/-- A number starts like nothing else. -/
theorem ne_of_number {b c : Byte} (h : isDigit b = true ∨ b = asciiByte '-')
    (hc : isDigit c = false) (hminus : c ≠ asciiByte '-') : b ≠ c := by
  rintro rfl
  rcases h with h | h
  · rw [h] at hc
    cases hc
  · exact hminus h

theorem reads_number {text : GoString} (h : IsNumber text) (depth : ℕ) :
    Reads .value depth text .other := by
  have hnumber (rest : GoString) (hrest : Stops rest) := parseNumber_append h hrest
  obtain ⟨b, tail, rfl, hb⟩ := exists_head_of_isNumber h
  have hne {c : Byte} := ne_of_number (c := c) hb
  have hexpect (c : Byte) (literal rest : GoString) (hc : isDigit c = false)
      (hminus : c ≠ asciiByte '-') : expect (c :: literal) (b :: (tail ++ rest)) = none :=
    expect_of_ne (hne hc hminus).symm ..
  refine reads_scalar tail ?_ ?_ depth fun rest hrest ↦ ?_
  · simp only [isSpace, Bool.or_eq_false_iff, decide_eq_false_iff_not]
    exact ⟨⟨⟨hne (by decide) (by decide), hne (by decide) (by decide)⟩,
      hne (by decide) (by decide)⟩, hne (by decide) (by decide)⟩
  · simp only [List.mem_cons, List.not_mem_nil, or_false, not_or]
    exact ⟨hne (by decide) (by decide), hne (by decide) (by decide), hne (by decide) (by decide)⟩
  · have hnull : expect (ascii "null") (b :: (tail ++ rest)) = none :=
      hexpect (asciiByte 'n') (ascii "ull") rest (by decide) (by decide)
    have htrue : expect (ascii "true") (b :: (tail ++ rest)) = none :=
      hexpect (asciiByte 't') (ascii "rue") rest (by decide) (by decide)
    have hfalse : expect (ascii "false") (b :: (tail ++ rest)) = none :=
      hexpect (asciiByte 'f') (ascii "alse") rest (by decide) (by decide)
    have hread : parseNumber (b :: (tail ++ rest)) = some rest := hnumber rest hrest
    simp [parseScalar, hnull, htrue, hfalse, hread]

theorem reads_null (depth : ℕ) : Reads .value depth (ascii "null") .null := by
  refine reads_scalar (b := asciiByte 'n') (ascii "ull") (by decide) (by decide) depth
    fun rest _ ↦ ?_
  have hnull : expect (ascii "null") (asciiByte 'n' :: (ascii "ull" ++ rest)) = some rest :=
    expect_eq_some_iff.mpr rfl
  simp [parseScalar, hnull]

theorem reads_bool {text : GoString} (h : text ∈ [ascii "true", ascii "false"]) (depth : ℕ) :
    Reads .value depth text .other := by
  simp only [List.mem_cons, List.not_mem_nil, or_false] at h
  rcases h with rfl | rfl
  · refine reads_scalar (b := asciiByte 't') (ascii "rue") (by decide) (by decide) depth
      fun rest _ ↦ ?_
    have hnull : expect (ascii "null") (asciiByte 't' :: (ascii "rue" ++ rest)) = none :=
      expect_of_ne (by decide) ..
    have htrue : expect (ascii "true") (asciiByte 't' :: (ascii "rue" ++ rest)) = some rest :=
      expect_eq_some_iff.mpr rfl
    simp [parseScalar, hnull, htrue]
  · refine reads_scalar (b := asciiByte 'f') (ascii "alse") (by decide) (by decide) depth
      fun rest _ ↦ ?_
    have hnull : expect (ascii "null") (asciiByte 'f' :: (ascii "alse" ++ rest)) = none :=
      expect_of_ne (by decide) ..
    have htrue : expect (ascii "true") (asciiByte 'f' :: (ascii "alse" ++ rest)) = none :=
      expect_of_ne (by decide) ..
    have hfalse : expect (ascii "false") (asciiByte 'f' :: (ascii "alse" ++ rest)) = some rest :=
      expect_eq_some_iff.mpr rfl
    simp [parseScalar, hnull, htrue, hfalse]

theorem reads_string {text s : GoString} (h : IsString text s) (depth : ℕ) :
    Reads .value depth text (.string s) := by
  intro n rest hn _
  have hparse : parseString (text ++ rest) = some (s, rest) :=
    parseString_eq_some_iff.mpr ⟨text, h, rfl⟩
  obtain ⟨chars, -, rfl, -⟩ := h
  obtain ⟨n, rfl⟩ : ∃ m, n = m + 1 := Nat.exists_eq_succ_of_ne_zero (by rintro rfl; cases hn)
  simp only [List.cons_append] at hparse ⊢
  rw [parseValue, skipSpace_cons (by decide)]
  dsimp only
  rw [if_neg (by decide), if_neg (by decide), if_pos rfl, hparse, Option.map_some]

theorem parseValue_spaces {spaces : GoString} (hspaces : IsSpaces spaces) (n depth : ℕ)
    (rest : GoString) : parseValue n depth (spaces ++ rest) = parseValue n depth rest := by
  cases n with
  | zero => simp only [parseValue]
  | succ n => rw [parseValue, parseValue, skipSpace_append hspaces]

theorem reads_element {depth : ℕ} {spaces text spaces' : GoString} {v : Value}
    (hspaces : IsSpaces spaces) (hspaces' : IsSpaces spaces') (h : Reads .value depth text v) :
    Reads .element depth (spaces ++ (text ++ spaces')) v := by
  intro n b rest hn hb
  have hstop : Stops (spaces' ++ b :: rest) := stops_append hspaces' (stops_of_mem hb rest)
  have hspace : isSpace b = false := by
    simp only [List.mem_cons, List.not_mem_nil, or_false] at hb
    rcases hb with rfl | rfl | rfl <;> decide
  refine ⟨spaces' ++ b :: rest, ?_, ?_⟩
  · rw [List.append_assoc, parseValue_spaces hspaces, List.append_assoc]
    exact h n _ (by simp only [List.length_append] at hn; omega) hstop
  · rw [skipSpace_append hspaces', skipSpace_cons hspace]

theorem reads_member {depth : ℕ} {spaces literal spaces' text name : GoString} {v : Value}
    (hspaces : IsSpaces spaces) (hname : IsString literal name) (hspaces' : IsSpaces spaces')
    (h : Reads .element depth text v) :
    Reads .member depth (spaces ++ (literal ++ (spaces' ++ asciiByte ':' :: text)))
      (.object [(name, v)]) := by
  intro n b rest hn hb
  obtain ⟨left, hread, hleft⟩ := h n b rest
    (by simp only [List.length_append, List.length_cons] at hn; omega) hb
  have hparse : parseString (literal ++ (spaces' ++ asciiByte ':' :: (text ++ b :: rest))) =
      some (name, spaces' ++ asciiByte ':' :: (text ++ b :: rest)) :=
    parseString_eq_some_iff.mpr ⟨literal, hname, rfl⟩
  have hcolon : skipSpace (spaces' ++ asciiByte ':' :: (text ++ b :: rest)) =
      asciiByte ':' :: (text ++ b :: rest) := by
    rw [skipSpace_append hspaces', skipSpace_cons (by decide)]
  refine ⟨name, v, _, left, rfl, ?_, by rw [hcolon]; rfl, by rw [hcolon]; exact hread, hleft⟩
  obtain ⟨chars, -, rfl, -⟩ := hname
  simp only [List.append_assoc, List.cons_append] at hparse ⊢
  rw [skipSpace_append hspaces, skipSpace_cons (by decide), hparse]

theorem reads_lastMember {depth : ℕ} {text : GoString} {m : GoString × Value}
    (h : Reads .member depth text (.object [m])) : Reads .members depth text (.object [m]) := by
  intro n rest hn
  obtain ⟨n, rfl⟩ : ∃ k, n = k + 1 := Nat.exists_eq_succ_of_ne_zero (by omega)
  obtain ⟨name, value, between, left, heq, hname, hcolon, hvalue, hleft⟩ :=
    h n (asciiByte '\x7d') rest (by omega) (by simp)
  cases heq
  refine ⟨_, rfl, ?_⟩
  rw [parseMembers, hname]
  simp only [hcolon, if_true, hvalue, hleft, List.head?_cons, List.tail_cons]
  rw [if_neg (by decide)]

theorem reads_nextMember {depth : ℕ} {text text' : GoString} {m : GoString × Value}
    {members : List (GoString × Value)} (h : Reads .member depth text (.object [m]))
    (h' : Reads .members depth text' (.object members)) :
    Reads .members depth (text ++ asciiByte ',' :: text') (.object (m :: members)) := by
  intro n rest hn
  simp only [List.length_append, List.length_cons] at hn
  obtain ⟨n, rfl⟩ : ∃ k, n = k + 1 := Nat.exists_eq_succ_of_ne_zero (by omega)
  obtain ⟨name, value, between, left, heq, hname, hcolon, hvalue, hleft⟩ :=
    h n (asciiByte ',') (text' ++ asciiByte '\x7d' :: rest) (by omega) (by simp)
  cases heq
  obtain ⟨members, heq, hmembers⟩ := h' n rest (by omega)
  cases heq
  refine ⟨_, rfl, ?_⟩
  rw [List.append_assoc, List.cons_append, parseMembers, hname]
  simp only [hcolon, if_true, hvalue, hleft, List.head?_cons, List.tail_cons, hmembers,
    Option.map_some]

theorem reads_lastElement {depth : ℕ} {text : GoString} {v : Value}
    (h : Reads .element depth text v) : Reads .elements depth text .other := by
  intro n rest hn
  obtain ⟨n, rfl⟩ : ∃ k, n = k + 1 := Nat.exists_eq_succ_of_ne_zero (by omega)
  obtain ⟨left, hread, hleft⟩ := h n (asciiByte ']') rest (by omega) (by simp)
  rw [parseItems, hread]
  simp only [hleft, List.head?_cons, List.tail_cons, if_true]
  rw [if_neg (by decide)]

theorem reads_nextElement {depth : ℕ} {text text' : GoString} {v : Value}
    (h : Reads .element depth text v) (h' : Reads .elements depth text' .other) :
    Reads .elements depth (text ++ asciiByte ',' :: text') .other := by
  intro n rest hn
  simp only [List.length_append, List.length_cons] at hn
  obtain ⟨n, rfl⟩ : ∃ k, n = k + 1 := Nat.exists_eq_succ_of_ne_zero (by omega)
  obtain ⟨left, hread, hleft⟩ :=
    h n (asciiByte ',') (text' ++ asciiByte ']' :: rest) (by omega) (by simp)
  rw [List.append_assoc, List.cons_append, parseItems, hread]
  simp only [hleft, List.head?_cons, List.tail_cons, if_true]
  exact h' n rest (by omega)

theorem reads_emptyObject {spaces : GoString} (h : IsSpaces spaces) (depth : ℕ) :
    Reads .value (depth + 1) (asciiByte '\x7b' :: (spaces ++ [asciiByte '\x7d'])) (.object []) := by
  intro n rest hn _
  obtain ⟨n, rfl⟩ : ∃ k, n = k + 1 := Nat.exists_eq_succ_of_ne_zero (by rintro rfl; cases hn)
  have hclose : skipSpace (spaces ++ asciiByte '\x7d' :: rest) = asciiByte '\x7d' :: rest := by
    rw [skipSpace_append h, skipSpace_cons (by decide)]
  simp only [List.cons_append, List.append_assoc, List.nil_append]
  rw [parseValue, skipSpace_cons (by decide)]
  simp [hclose]

theorem reads_emptyArray {spaces : GoString} (h : IsSpaces spaces) (depth : ℕ) :
    Reads .value (depth + 1) (asciiByte '[' :: (spaces ++ [asciiByte ']'])) .other := by
  intro n rest hn _
  obtain ⟨n, rfl⟩ : ∃ k, n = k + 1 := Nat.exists_eq_succ_of_ne_zero (by rintro rfl; cases hn)
  have hclose : skipSpace (spaces ++ asciiByte ']' :: rest) = asciiByte ']' :: rest := by
    rw [skipSpace_append h, skipSpace_cons (by decide)]
  simp only [List.cons_append, List.append_assoc, List.nil_append]
  rw [parseValue, skipSpace_cons (by decide)]
  dsimp only
  rw [if_neg (by decide)]
  simp [hclose]

/-- Members start with a string. -/
theorem head_of_parseMembers {n depth : ℕ} {s : GoString} {p : List (GoString × Value) × GoString}
    (h : parseMembers n depth s = some p) : (skipSpace s).head? = some quote := by
  cases n with
  | zero =>
    rw [parseMembers] at h
    cases h
  | succ n =>
    rw [parseMembers] at h
    split at h
    · cases h
    · next hname =>
      obtain ⟨text, ⟨chars, -, rfl, -⟩, heq⟩ := parseString_eq_some_iff.mp hname
      rw [heq]
      rfl

theorem reads_object {depth : ℕ} {text : GoString} {members : List (GoString × Value)}
    (h : Reads .members depth text (.object members)) :
    Reads .value (depth + 1) (asciiByte '\x7b' :: (text ++ [asciiByte '\x7d']))
      (.object members) := by
  intro n rest hn _
  simp only [List.length_append, List.length_cons] at hn
  obtain ⟨n, rfl⟩ : ∃ k, n = k + 1 := Nat.exists_eq_succ_of_ne_zero (by omega)
  obtain ⟨members, heq, hmembers⟩ := h n rest (by omega)
  cases heq
  simp only [List.cons_append, List.append_assoc, List.nil_append]
  rw [parseValue, skipSpace_cons (by decide)]
  dsimp only
  rw [if_pos rfl, if_neg (Nat.succ_ne_zero depth), head_of_parseMembers hmembers,
    if_neg (by decide), Nat.add_sub_cancel, hmembers, Option.map_some]

/-- Nothing that is read starts with a closing bracket. -/
theorem head_of_parseItems {n depth : ℕ} {s rest : GoString}
    (h : parseItems n depth s = some rest) : (skipSpace s).head? ≠ some (asciiByte ']') := by
  intro hclose
  cases n with
  | zero =>
    rw [parseItems] at h
    cases h
  | succ n =>
    have hnone : parseValue n depth s = none := by
      cases n with
      | zero => rw [parseValue]
      | succ n =>
        rw [parseValue, ← List.cons_head?_tail hclose]
        dsimp only
        rw [if_neg (by decide), if_neg (by decide), if_neg (by decide), parseScalar]
        have hexpect (c : Byte) (literal : GoString) (hc : c ≠ asciiByte ']') :
            expect (c :: literal) (asciiByte ']' :: (skipSpace s).tail) = none :=
          expect_of_ne hc ..
        rw [show expect (ascii "null") _ = none from hexpect (asciiByte 'n') _ (by decide),
          show expect (ascii "true") _ = none from hexpect (asciiByte 't') _ (by decide),
          show expect (ascii "false") _ = none from hexpect (asciiByte 'f') _ (by decide)]
        rfl
    rw [parseItems, hnone] at h
    cases h

theorem reads_array {depth : ℕ} {text : GoString} (h : Reads .elements depth text .other) :
    Reads .value (depth + 1) (asciiByte '[' :: (text ++ [asciiByte ']'])) .other := by
  intro n rest hn _
  simp only [List.length_append, List.length_cons] at hn
  obtain ⟨n, rfl⟩ : ∃ k, n = k + 1 := Nat.exists_eq_succ_of_ne_zero (by omega)
  have hitems := h n rest (by omega)
  simp only [List.cons_append, List.append_assoc, List.nil_append]
  rw [parseValue, skipSpace_cons (by decide)]
  dsimp only
  rw [if_neg (by decide), if_pos rfl, if_neg (Nat.succ_ne_zero depth),
    if_neg (head_of_parseItems hitems), Nat.add_sub_cancel, hitems, Option.map_some]

/-- **Completeness.** Whatever the grammar derives is read, with the value it stands for. -/
theorem Derives.reads {rule : Rule} {depth : ℕ} {text : GoString} {v : Value}
    (h : Derives rule depth text v) : Reads rule depth text v := by
  induction h with
  | null => exact reads_null _
  | bool h => exact reads_bool h _
  | number h => exact reads_number h _
  | string h => exact reads_string h _
  | emptyObject h => exact reads_emptyObject h _
  | object _ ih => exact reads_object ih
  | emptyArray h => exact reads_emptyArray h _
  | array _ ih => exact reads_array ih
  | element hspaces hspaces' _ ih => exact reads_element hspaces hspaces' ih
  | member hspaces hname hspaces' _ ih => exact reads_member hspaces hname hspaces' ih
  | lastMember _ ih => exact reads_lastMember ih
  | nextMember _ _ ih ih' => exact reads_nextMember ih ih'
  | lastElement _ ih => exact reads_lastElement ih
  | nextElement _ _ ih ih' => exact reads_nextElement ih ih'

/-! ## `Decode` -/

theorem Derives.ne_nil {depth : ℕ} {text : GoString} {v : Value}
    (h : Derives .value depth text v) : text ≠ [] := by
  rintro rfl
  have hread := h.reads 0 [] le_rfl (fun b hb ↦ by cases hb)
  rw [parseValue] at hread
  cases hread

section Decode

variable {α : Type} {read : Value → Option α} {s rest : GoString} {a : α}

/-- A `Decode` call takes up white space and a value of the grammar. -/
theorem decode_sound (h : decode read s = .value a rest) :
    ∃ spaces text v, IsSpaces spaces ∧ Derives .value maxNestingDepth text v ∧ read v = some a ∧
      s = spaces ++ (text ++ rest) := by
  unfold decode at h
  split_ifs at h
  split at h
  · cases h
  · next v tail hv =>
    split at h
    · cases h
    · next hread =>
      cases h
      obtain ⟨spaces, text, hspaces, htext, heq⟩ := (parse_sound _ _).1 hv
      exact ⟨spaces, text, v, hspaces, htext, hread, heq⟩

theorem decode_eq_value {spaces text : GoString} {v : Value} (hspaces : IsSpaces spaces)
    (htext : Derives .value maxNestingDepth text v) (hread : read v = some a) (hrest : Stops rest) :
    decode read (spaces ++ (text ++ rest)) = .value a rest := by
  have hvalue : parseValue (2 * (spaces ++ (text ++ rest)).length + 2) maxNestingDepth
      (spaces ++ (text ++ rest)) = some (v, rest) := by
    rw [parseValue_spaces hspaces]
    refine htext.reads _ rest ?_ hrest
    simp only [List.length_append]
    omega
  have hskip : skipSpace (spaces ++ (text ++ rest)) ≠ [] := by
    intro hnil
    rw [parseValue, hnil] at hvalue
    cases hvalue
  rw [decode, if_neg hskip, hvalue]
  simp only [hread]

/-- A successful `Decode` call takes up input. -/
theorem length_decode (h : decode read s = .value a rest) : rest.length < s.length := by
  obtain ⟨spaces, text, v, -, htext, -, rfl⟩ := decode_sound h
  have hpos := List.length_pos_iff.mpr htext.ne_nil
  simp only [List.length_append]
  omega

theorem decode_eq_eof_iff : decode read s = .eof ↔ IsSpaces s := by
  constructor
  · intro h
    unfold decode at h
    split_ifs at h with hspace
    · exact List.dropWhile_eq_nil_iff.mp hspace
    · split at h
      · cases h
      · split at h <;> cases h
  · exact decode_spaces read

end Decode

end DistKvRaft.Go.Json
