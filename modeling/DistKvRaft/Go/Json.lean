import DistKvRaft.Go.Utf8

/-!
# The part of `encoding/json` used on files

The encoder writes string literals the way `json.Encoder` does by default: quotes, backslashes and
control characters are escaped, `<`, `>`, `&`, U+2028 and U+2029 are written as `\u` escapes, and a
byte that is not valid UTF-8 is written as the escape of U+FFFD.  The reader accepts any JSON text
whose objects and arrays are nested at most 10000 deep: it parses the next value of a stream and
returns the bytes behind it, as successive calls of `json.Decoder.Decode` do.

The round trip `parseString_encodeString` holds for every byte string; what comes back is the
string with its invalid bytes replaced.
-/

namespace DistKvRaft.Go.Json

open Utf8

def quote : Byte := 0x22
def backslash : Byte := 0x5C

/-! ## Writing strings -/

/-- A lower-case hexadecimal digit. -/
def hexDigit (n : ℕ) : Byte := Fin.ofNat 256 (if n < 10 then 0x30 + n else 0x57 + n)

/-- The `\u` escape with the given hexadecimal digits. -/
def escapeUnicode (digits : List ℕ) : GoString :=
  backslash :: asciiByte 'u' :: digits.map hexDigit

/-- The text written for one ASCII byte inside a string literal. -/
def escapeAscii (b : Byte) : GoString :=
  if b = quote ∨ b = backslash then [backslash, b]
  else if b = 0x08 then [backslash, asciiByte 'b']
  else if b = 0x0C then [backslash, asciiByte 'f']
  else if b = 0x0A then [backslash, asciiByte 'n']
  else if b = 0x0D then [backslash, asciiByte 'r']
  else if b = 0x09 then [backslash, asciiByte 't']
  else if b.val < 0x20 ∨ b = asciiByte '<' ∨ b = asciiByte '>' ∨ b = asciiByte '&' then
    escapeUnicode [0, 0, b.val / 16, b.val % 16]
  else [b]

/-- The text written for one rune, or for one invalid byte. -/
def escapeRune : Option GoString → GoString
  | none => escapeUnicode [0xF, 0xF, 0xF, 0xD]
  | some [b] => escapeAscii b
  | some u =>
    if u = [0xE2, 0x80, 0xA8] then escapeUnicode [2, 0, 2, 8]
    else if u = [0xE2, 0x80, 0xA9] then escapeUnicode [2, 0, 2, 9]
    else u

/-- A string literal, quotes included. -/
def encodeString (s : GoString) : GoString :=
  quote :: (runes s).flatMap escapeRune ++ [quote]

/-! ## Reading strings -/

/-- The value of a hexadecimal digit. -/
def hexValue (b : Byte) : Option ℕ :=
  if 0x30 ≤ b.val ∧ b.val ≤ 0x39 then some (b.val - 0x30)
  else if 0x61 ≤ b.val ∧ b.val ≤ 0x66 then some (b.val - 0x57)
  else if 0x41 ≤ b.val ∧ b.val ≤ 0x46 then some (b.val - 0x37)
  else none

/-- The four hexadecimal digits of a `\u` escape. -/
def getu4 : GoString → Option (ℕ × GoString)
  | a :: b :: c :: d :: rest => do
    let a ← hexValue a
    let b ← hexValue b
    let c ← hexValue c
    let d ← hexValue d
    pure (((a * 16 + b) * 16 + c) * 16 + d, rest)
  | _ => none

/-- `utf8.EncodeRune` for a code point that is no surrogate. -/
def encodeRune (c : ℕ) : GoString :=
  if c < 0x80 then [Fin.ofNat 256 c]
  else if c < 0x800 then [Fin.ofNat 256 (0xC0 + c / 64), Fin.ofNat 256 (0x80 + c % 64)]
  else if c < 0x10000 then
    [Fin.ofNat 256 (0xE0 + c / 4096), Fin.ofNat 256 (0x80 + c / 64 % 64),
      Fin.ofNat 256 (0x80 + c % 64)]
  else
    [Fin.ofNat 256 (0xF0 + c / 262144), Fin.ofNat 256 (0x80 + c / 4096 % 64),
      Fin.ofNat 256 (0x80 + c / 64 % 64), Fin.ofNat 256 (0x80 + c % 64)]

/-- The low half of a surrogate pair, as a second `\u` escape. -/
def lowSurrogate : GoString → Option (ℕ × GoString)
  | 0x5C :: 0x75 :: rest =>
    match getu4 rest with
    | some (c, rest) => if 0xDC00 ≤ c ∧ c < 0xE000 then some (c, rest) else none
    | none => none
  | _ => none

/-- A `\u` escape after the letter.  A surrogate without its other half stands for U+FFFD. -/
def unicodeEscape (s : GoString) : Option (GoString × GoString) :=
  match getu4 s with
  | none => none
  | some (c, rest) =>
    if c < 0xD800 ∨ 0xE000 ≤ c then some (encodeRune c, rest)
    else if c < 0xDC00 then
      match lowSurrogate rest with
      | some (low, rest) => some (encodeRune (0x10000 + (c - 0xD800) * 1024 + (low - 0xDC00)), rest)
      | none => some (runeError, rest)
    else some (runeError, rest)

/-- An escape sequence after its backslash. -/
def escapeSequence : GoString → Option (GoString × GoString)
  | [] => none
  | b :: rest =>
    if b = quote ∨ b = backslash ∨ b = asciiByte '/' then some ([b], rest)
    else if b = asciiByte 'b' then some ([0x08], rest)
    else if b = asciiByte 'f' then some ([0x0C], rest)
    else if b = asciiByte 'n' then some ([0x0A], rest)
    else if b = asciiByte 'r' then some ([0x0D], rest)
    else if b = asciiByte 't' then some ([0x09], rest)
    else if b = asciiByte 'u' then unicodeEscape rest
    else none

/-- One character of a string literal: the bytes it stands for, and what follows it. -/
def stringChar (s : GoString) : Option (GoString × GoString) :=
  match s with
  | [] => none
  | b :: rest =>
    if b = backslash then escapeSequence rest
    else if b.val < 0x20 then none
    else
      match runeWidth s with
      | 0 => some (runeError, rest)
      | w + 1 => some (s.take (w + 1), s.drop (w + 1))

/-- The rest of a string literal after its opening quote. -/
def stringBody : ℕ → GoString → Option (GoString × GoString)
  | 0, _ => none
  | n + 1, s =>
    if s.head? = some quote then some ([], s.tail)
    else
      match stringChar s with
      | none => none
      | some (u, rest) => (stringBody n rest).map fun p ↦ (u ++ p.1, p.2)

/-- A string literal at the head. -/
def parseString : GoString → Option (GoString × GoString)
  | [] => none
  | b :: rest => if b = quote then stringBody rest.length rest else none

/-! ## The string round trip -/

theorem hexValue_hexDigit {n : ℕ} (h : n < 16) : hexValue (hexDigit n) = some n := by
  have hall : ∀ n : Fin 16, hexValue (hexDigit n.val) = some n.val := by decide
  exact hall ⟨n, h⟩

/-- A written `\u` escape of a code point that is no surrogate reads as that code point. -/
theorem stringChar_escapeUnicode {p q r s : ℕ} (hp : p < 16) (hq : q < 16) (hr : r < 16)
    (hs : s < 16) {c : ℕ} (hvalue : ((p * 16 + q) * 16 + r) * 16 + s = c)
    (hc : c < 0xD800 ∨ 0xE000 ≤ c) (rest : GoString) :
    stringChar (escapeUnicode [p, q, r, s] ++ rest) = some (encodeRune c, rest) := by
  have hdigits : getu4 (hexDigit p :: hexDigit q :: hexDigit r :: hexDigit s :: rest) =
      some (c, rest) := by
    simp [getu4, hexValue_hexDigit, hp, hq, hr, hs, hvalue]
  have hescape : unicodeEscape (hexDigit p :: hexDigit q :: hexDigit r :: hexDigit s :: rest) =
      some (encodeRune c, rest) := by
    simp only [unicodeEscape, hdigits, hc, if_true]
  simp only [escapeUnicode, List.map_cons, List.map_nil, List.cons_append, List.nil_append,
    stringChar, if_true]
  rw [escapeSequence, if_neg (by decide), if_neg (by decide), if_neg (by decide),
    if_neg (by decide), if_neg (by decide), if_neg (by decide), if_pos rfl, hescape]

theorem encodeRune_ascii {b : Byte} (h : b.val < 0x80) : encodeRune b.val = [b] := by
  simp only [encodeRune, h, if_true, List.cons.injEq, and_true]
  exact Fin.ofNat_val_eq_self b

theorem stringChar_escapeAscii {b : Byte} (h : b.val < 0x80) (rest : GoString) :
    stringChar (escapeAscii b ++ rest) = some ([b], rest) := by
  have hshort (c : Byte) (hc : escapeSequence (c :: rest) = some ([b], rest)) :
      stringChar ([backslash, c] ++ rest) = some ([b], rest) := by
    simpa [stringChar] using hc
  unfold escapeAscii
  split_ifs with h₁ h₂ h₃ h₄ h₅ h₆ h₇
  · rcases h₁ with rfl | rfl <;> exact hshort _ rfl
  · subst h₂; exact hshort _ rfl
  · subst h₃; exact hshort _ rfl
  · subst h₄; exact hshort _ rfl
  · subst h₅; exact hshort _ rfl
  · subst h₆; exact hshort _ rfl
  · rw [← encodeRune_ascii h]
    exact stringChar_escapeUnicode (by omega) (by omega) (by omega) (by omega) (by omega)
      (Or.inl (by omega)) rest
  · have hwidth : runeWidth (b :: rest) = 1 := by simp [runeWidth, h]
    have hlow : ¬ b.val < 0x20 := fun hlt ↦ h₇ (Or.inl hlt)
    have hback : b ≠ backslash := fun heq ↦ h₁ (Or.inr heq)
    simp [stringChar, hback, hlow, hwidth]

/-- A rune of several bytes starts with a byte outside ASCII. -/
theorem head_of_long_rune {b : Byte} {u : GoString} (h : IsRune (b :: u)) (hu : u ≠ []) :
    0x80 ≤ b.val := by
  by_contra hlt
  have hwidth := h.2
  have hascii : b.val < 0x80 := by omega
  simp only [runeWidth, hascii, if_true] at hwidth
  exact hu (List.length_eq_zero_iff.mp (by simpa using hwidth.symm))

theorem stringChar_long_rune {b : Byte} {u : GoString} (h : IsRune (b :: u)) (hu : u ≠ [])
    (rest : GoString) : stringChar (b :: u ++ rest) = some (b :: u, rest) := by
  have hhead := head_of_long_rune h hu
  have hwidth := runeWidth_append h rest
  have hback : b ≠ backslash := by rintro rfl; exact absurd hhead (by decide)
  have hlow : ¬ b.val < 0x20 := by omega
  rw [List.cons_append, List.length_cons] at hwidth
  simp [stringChar, hback, hlow, hwidth]

/-- The written form of a rune of several bytes. -/
theorem escapeRune_long {b : Byte} {u : GoString} (hu : u ≠ []) :
    escapeRune (some (b :: u)) =
      if b :: u = [0xE2, 0x80, 0xA8] then escapeUnicode [2, 0, 2, 8]
      else if b :: u = [0xE2, 0x80, 0xA9] then escapeUnicode [2, 0, 2, 9]
      else b :: u := by
  rcases u with _ | ⟨b₁, u⟩
  · exact absurd rfl hu
  · rfl

/-- Reading one written rune gives the rune back, and U+FFFD for an invalid byte. -/
theorem stringChar_escapeRune {r : Option GoString} (h : ∀ u, r = some u → IsRune u)
    (rest : GoString) : stringChar (escapeRune r ++ rest) = some (r.getD runeError, rest) := by
  rcases r with _ | _ | ⟨b, u⟩
  · have herror : encodeRune 0xFFFD = runeError := by decide
    rw [Option.getD_none, ← herror]
    exact stringChar_escapeUnicode (by decide) (by decide) (by decide) (by decide) rfl
      (Or.inr (by decide)) rest
  · exact absurd rfl (h [] rfl).1
  · have hrune := h _ rfl
    by_cases hu : u = []
    · subst hu
      refine stringChar_escapeAscii ?_ rest
      simpa [runeWidth] using hrune.2
    · rw [escapeRune_long hu, Option.getD_some]
      split_ifs with h₁ h₂
      · have hline : encodeRune 0x2028 = [0xE2, 0x80, 0xA8] := by decide
        rw [h₁, ← hline]
        exact stringChar_escapeUnicode (by decide) (by decide) (by decide) (by decide) rfl
          (Or.inl (by decide)) rest
      · have hparagraph : encodeRune 0x2029 = [0xE2, 0x80, 0xA9] := by decide
        rw [h₂, ← hparagraph]
        exact stringChar_escapeUnicode (by decide) (by decide) (by decide) (by decide) rfl
          (Or.inl (by decide)) rest
      · exact stringChar_long_rune hrune hu rest

/-- No written rune can be mistaken for the closing quote. -/
theorem head_escapeRune {r : Option GoString} (h : ∀ u, r = some u → IsRune u) (rest : GoString) :
    (escapeRune r ++ rest).head? ≠ some quote := by
  have hback : (backslash : Byte) ≠ quote := by decide
  rcases r with _ | _ | ⟨b, u⟩
  · simp [escapeRune, escapeUnicode, hback]
  · exact absurd rfl (h [] rfl).1
  · by_cases hu : u = []
    · subst hu
      simp only [escapeRune, escapeAscii]
      split_ifs with h₁ <;> simp [escapeUnicode, hback]
      exact fun heq ↦ h₁ (Or.inl heq)
    · rw [escapeRune_long hu]
      have hhead := head_of_long_rune (h _ rfl) hu
      split_ifs
      · simp [escapeUnicode, hback]
      · simp [escapeUnicode, hback]
      · simp only [List.cons_append, List.head?_cons, ne_eq, Option.some.injEq]
        rintro rfl
        exact absurd hhead (by decide)

theorem escapeRune_ne_nil {r : Option GoString} (h : ∀ u, r = some u → IsRune u) :
    escapeRune r ≠ [] := by
  intro hnil
  have hchar := stringChar_escapeRune h []
  rw [hnil] at hchar
  simp [stringChar] at hchar

/-- Reading a written body gives its runes back, with enough steps allowed. -/
theorem stringBody_flatMap {rs : List (Option GoString)} (h : ∀ u, some u ∈ rs → IsRune u)
    (rest : GoString) {n : ℕ} (hn : (rs.flatMap escapeRune).length < n) :
    stringBody n (rs.flatMap escapeRune ++ quote :: rest) =
      some (rs.flatMap (fun r ↦ r.getD runeError), rest) := by
  induction rs generalizing n with
  | nil =>
    obtain ⟨n, rfl⟩ := Nat.exists_eq_succ_of_ne_zero (by omega : n ≠ 0)
    simp [stringBody]
  | cons r rs ih =>
    have hr : ∀ u, r = some u → IsRune u := fun u hu ↦ h u (by simp [hu])
    have hpos := List.length_pos_iff.mpr (escapeRune_ne_nil hr)
    rw [List.flatMap_cons, List.length_append] at hn
    obtain ⟨n, rfl⟩ := Nat.exists_eq_succ_of_ne_zero (by omega : n ≠ 0)
    rw [List.flatMap_cons, List.append_assoc, stringBody, if_neg (head_escapeRune hr _),
      stringChar_escapeRune hr]
    dsimp only
    rw [ih (fun u hu ↦ h u (by simp [hu])) (by omega)]
    simp

/-- **String round trip.** A written string literal reads back as the string with its invalid
bytes replaced, whatever follows it. -/
theorem parseString_encodeString (s rest : GoString) :
    parseString (encodeString s ++ rest) = some (toValid s, rest) := by
  have hrunes : ∀ u, some u ∈ runes s → IsRune u := fun u hu ↦ isRune_of_mem_runes hu
  have hbody := stringBody_flatMap hrunes rest
    (n := ((runes s).flatMap escapeRune ++ quote :: rest).length) (by simp)
  simpa [encodeString, parseString, toValid] using hbody

/-! ## Values -/

/-- A parsed value.  Numbers, booleans and arrays are checked but their content is not kept. -/
inductive Value
  | null
  | string (s : GoString)
  | object (members : List (GoString × Value))
  | other

def isSpace (b : Byte) : Bool := b = 0x20 || b = 0x09 || b = 0x0A || b = 0x0D

def skipSpace (s : GoString) : GoString := s.dropWhile isSpace

def isDigit (b : Byte) : Bool := 0x30 ≤ b.val && b.val ≤ 0x39

/-- What follows the given literal at the head. -/
def expect (literal s : GoString) : Option GoString :=
  if s.take literal.length = literal then some (s.drop literal.length) else none

/-- The optional exponent of a number. -/
def numberExponent (s : GoString) : Option GoString :=
  if s.head? = some (asciiByte 'e') ∨ s.head? = some (asciiByte 'E') then
    let digits := if s.tail.head? = some (asciiByte '+') ∨ s.tail.head? = some (asciiByte '-')
      then s.tail.tail else s.tail
    if digits.head?.any isDigit then some (digits.dropWhile isDigit) else none
  else some s

/-- The optional fraction of a number, and what follows it. -/
def numberFraction (s : GoString) : Option GoString :=
  if s.head? = some (asciiByte '.') then
    if s.tail.head?.any isDigit then numberExponent (s.tail.dropWhile isDigit) else none
  else numberExponent s

/-- A number at the head: its text has no superfluous leading zero. -/
def parseNumber (s : GoString) : Option GoString :=
  let digits := if s.head? = some (asciiByte '-') then s.tail else s
  if digits.head? = some (asciiByte '0') then numberFraction digits.tail
  else if digits.head?.any isDigit then numberFraction (digits.dropWhile isDigit)
  else none

/-- A number or one of the three literal names. -/
def parseScalar (s : GoString) : Option (Value × GoString) :=
  match expect (ascii "null") s with
  | some rest => some (.null, rest)
  | none =>
    match (expect (ascii "true") s).or ((expect (ascii "false") s).or (parseNumber s)) with
    | some rest => some (.other, rest)
    | none => none

/-- How many objects and arrays may be open at once. -/
def maxNestingDepth : ℕ := 10000

mutual

/-- The next value, and the bytes behind it, where `depth` more objects and arrays may be opened. -/
def parseValue : ℕ → ℕ → GoString → Option (Value × GoString)
  | 0, _, _ => none
  | n + 1, depth, s =>
    match skipSpace s with
    | [] => none
    | b :: rest =>
      if b = asciiByte '\x7b' then
        if depth = 0 then none
        else if (skipSpace rest).head? = some (asciiByte '\x7d') then
          some (.object [], (skipSpace rest).tail)
        else (parseMembers n (depth - 1) rest).map fun p ↦ (.object p.1, p.2)
      else if b = asciiByte '[' then
        if depth = 0 then none
        else if (skipSpace rest).head? = some (asciiByte ']') then
          some (.other, (skipSpace rest).tail)
        else (parseItems n (depth - 1) rest).map fun rest ↦ (.other, rest)
      else if b = quote then (parseString (b :: rest)).map fun p ↦ (.string p.1, p.2)
      else parseScalar (b :: rest)

/-- The members of an object up to its closing brace. -/
def parseMembers : ℕ → ℕ → GoString → Option (List (GoString × Value) × GoString)
  | 0, _, _ => none
  | n + 1, depth, s =>
    match parseString (skipSpace s) with
    | none => none
    | some (name, rest) =>
      if (skipSpace rest).head? = some (asciiByte ':') then
        match parseValue n depth (skipSpace rest).tail with
        | none => none
        | some (value, rest) =>
          if (skipSpace rest).head? = some (asciiByte ',') then
            (parseMembers n depth (skipSpace rest).tail).map fun p ↦ ((name, value) :: p.1, p.2)
          else if (skipSpace rest).head? = some (asciiByte '\x7d') then
            some ([(name, value)], (skipSpace rest).tail)
          else none
      else none

/-- The items of an array up to its closing bracket. -/
def parseItems : ℕ → ℕ → GoString → Option GoString
  | 0, _, _ => none
  | n + 1, depth, s =>
    match parseValue n depth s with
    | none => none
    | some (_, rest) =>
      if (skipSpace rest).head? = some (asciiByte ',') then
        parseItems n depth (skipSpace rest).tail
      else if (skipSpace rest).head? = some (asciiByte ']') then some (skipSpace rest).tail
      else none

end

/-- The outcome of one `Decode` call on a stream. -/
inductive Decoded (α : Type)
  | value (a : α) (rest : GoString)
  | eof
  | failure

/-- One `Decode` call: skip white space, parse the next value and store it with `read`, which
fails where the value does not fit the target type. -/
def decode {α : Type} (read : Value → Option α) (s : GoString) : Decoded α :=
  if skipSpace s = [] then .eof
  else
    match parseValue (2 * s.length + 2) maxNestingDepth s with
    | none => .failure
    | some (v, rest) =>
      match read v with
      | none => .failure
      | some a => .value a rest

/-! ## Records of strings -/

/-- The members of an object whose values are strings. -/
def encodeMembers : List (GoString × GoString) → GoString
  | [] => []
  | [(name, value)] => encodeString name ++ asciiByte ':' :: encodeString value
  | (name, value) :: members =>
    encodeString name ++ asciiByte ':' :: encodeString value ++ asciiByte ',' ::
      encodeMembers members

/-- An object whose values are strings. -/
def encodeObject (members : List (GoString × GoString)) : GoString :=
  asciiByte '\x7b' :: encodeMembers members ++ [asciiByte '\x7d']

/-! ## The record round trip -/

theorem skipSpace_cons {b : Byte} (h : isSpace b = false) (rest : GoString) :
    skipSpace (b :: rest) = b :: rest := by
  simp [skipSpace, h]

theorem skipSpace_encodeString (s rest : GoString) :
    skipSpace (encodeString s ++ rest) = encodeString s ++ rest :=
  skipSpace_cons (by decide) _

theorem parseValue_encodeString (s rest : GoString) (n depth : ℕ) :
    parseValue (n + 1) depth (encodeString s ++ rest) = some (.string (toValid s), rest) := by
  have hparse := parseString_encodeString s rest
  rw [parseValue, skipSpace_encodeString]
  simp only [encodeString, List.cons_append] at hparse ⊢
  rw [if_neg (by decide), if_neg (by decide), if_pos trivial, hparse]
  rfl

/-- The values a written member list reads back as. -/
def readBack (members : List (GoString × GoString)) : List (GoString × Value) :=
  members.map fun m ↦ (toValid m.1, .string (toValid m.2))

theorem parseMembers_encodeMembers {members : List (GoString × GoString)} (hne : members ≠ [])
    (rest : GoString) {n : ℕ} (hn : members.length < n) (depth : ℕ) :
    parseMembers n depth (encodeMembers members ++ asciiByte '\x7d' :: rest) =
      some (readBack members, rest) := by
  have hcolon : isSpace (asciiByte ':') = false := by decide
  have hcomma : isSpace (asciiByte ',') = false := by decide
  have hclose : isSpace (asciiByte '\x7d') = false := by decide
  induction members generalizing n with
  | nil => exact absurd rfl hne
  | cons member members ih =>
    obtain ⟨name, value⟩ := member
    obtain ⟨n, rfl⟩ := Nat.exists_eq_succ_of_ne_zero (by omega : n ≠ 0)
    obtain ⟨n, rfl⟩ : ∃ k, n = k + 1 := ⟨n - 1, by simp only [List.length_cons] at hn; omega⟩
    rcases members with _ | ⟨next, members⟩
    · simp only [encodeMembers, List.append_assoc, List.cons_append]
      rw [parseMembers, skipSpace_encodeString, parseString_encodeString]
      simp only [skipSpace_cons hcolon, List.head?_cons, List.tail_cons, if_true]
      rw [parseValue_encodeString]
      simp only [skipSpace_cons hclose, List.head?_cons, List.tail_cons, if_true]
      rw [if_neg (by decide)]
      rfl
    · have hrest := ih (by simp) (n := n + 1) (by simp only [List.length_cons] at hn ⊢; omega)
      simp only [encodeMembers, List.append_assoc, List.cons_append]
      rw [parseMembers, skipSpace_encodeString, parseString_encodeString]
      simp only [skipSpace_cons hcolon, List.head?_cons, List.tail_cons, if_true]
      rw [parseValue_encodeString]
      simp only [skipSpace_cons hcomma, List.head?_cons, List.tail_cons, if_true]
      rw [hrest]
      rfl

theorem skipSpace_encodeMembers {members : List (GoString × GoString)} (hne : members ≠ [])
    (rest : GoString) : ∃ tail, skipSpace (encodeMembers members ++ rest) = quote :: tail := by
  rcases members with _ | ⟨⟨name, value⟩, _ | ⟨next, members⟩⟩
  · exact absurd rfl hne
  · simp only [encodeMembers, List.append_assoc]
    rw [skipSpace_encodeString]
    exact ⟨_, rfl⟩
  · simp only [encodeMembers, List.append_assoc]
    rw [skipSpace_encodeString]
    exact ⟨_, rfl⟩

/-- **Record round trip.** A written object is parsed as its members, in order, with the invalid
bytes of their strings replaced. -/
theorem parseValue_encodeObject {members : List (GoString × GoString)} (hne : members ≠ [])
    (rest : GoString) {n depth : ℕ} (hn : members.length + 1 < n) (hdepth : depth ≠ 0) :
    parseValue n depth (encodeObject members ++ rest) =
      some (.object (readBack members), rest) := by
  obtain ⟨n, rfl⟩ := Nat.exists_eq_succ_of_ne_zero (by omega : n ≠ 0)
  have hmembers := parseMembers_encodeMembers hne rest (n := n) (by omega) (depth - 1)
  obtain ⟨tail, hquote⟩ := skipSpace_encodeMembers hne (asciiByte '\x7d' :: rest)
  simp only [encodeObject, List.cons_append, List.append_assoc, List.nil_append]
  rw [parseValue, skipSpace_cons (by decide)]
  dsimp only
  rw [if_pos rfl, if_neg hdepth, hquote, List.head?_cons, if_neg (by decide), hmembers]
  rfl

theorem length_le_encodeMembers (members : List (GoString × GoString)) :
    members.length ≤ (encodeMembers members).length := by
  induction members with
  | nil => simp
  | cons member members ih =>
    obtain ⟨name, value⟩ := member
    rcases members with _ | ⟨next, members⟩
    · simp only [encodeMembers, List.length_append, List.length_cons, List.length_nil]
      omega
    · simp only [encodeMembers, List.length_append, List.length_cons] at ih ⊢
      omega

theorem skipSpace_append {spaces : GoString} (h : ∀ b ∈ spaces, isSpace b = true)
    (rest : GoString) : skipSpace (spaces ++ rest) = skipSpace rest := by
  rw [skipSpace, List.dropWhile_append_of_pos h, skipSpace]

/-- Decoding a written object stores its members and leaves the rest of the stream; white space
before the object is skipped. -/
theorem decode_encodeObject {α : Type} {read : Value → Option α} {a : α}
    {members : List (GoString × GoString)} (hne : members ≠ [])
    (hread : read (.object (readBack members)) = some a)
    {spaces : GoString} (hspaces : ∀ b ∈ spaces, isSpace b = true) (rest : GoString) :
    decode read (spaces ++ (encodeObject members ++ rest)) = .value a rest := by
  have hlength := length_le_encodeMembers members
  have hhead : skipSpace (encodeObject members ++ rest) = encodeObject members ++ rest := by
    rw [encodeObject, List.cons_append, List.cons_append, skipSpace_cons (by decide)]
  have hskip := (skipSpace_append hspaces (encodeObject members ++ rest)).trans hhead
  have hvalue := parseValue_encodeObject hne rest
    (n := 2 * (spaces ++ (encodeObject members ++ rest)).length + 2) (by
      simp only [encodeObject, List.length_append, List.length_cons, List.length_nil]
      omega) (by decide : maxNestingDepth ≠ 0)
  rw [parseValue, hhead] at hvalue
  rw [decode, hskip, if_neg (by simp [encodeObject]), parseValue, hskip, hvalue]
  simp only [hread]

/-- A stream of white space has no further value. -/
theorem decode_spaces {α : Type} (read : Value → Option α) {spaces : GoString}
    (h : ∀ b ∈ spaces, isSpace b = true) : decode read spaces = .eof := by
  have hskip : skipSpace spaces = [] := by simpa [skipSpace] using skipSpace_append h []
  rw [decode, if_pos hskip]

end DistKvRaft.Go.Json
