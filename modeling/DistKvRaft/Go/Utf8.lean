import DistKvRaft.Go.Strings

/-!
# UTF-8 in Go strings

`runes` cuts a byte sequence the way repeated `utf8.DecodeRuneInString` calls do: a well-formed
sequence of one to four bytes is one rune, and a byte that starts no well-formed sequence is
reported as an error of width one.  Replacing each such byte by U+FFFD gives `toValid`, which
leaves exactly the valid strings unchanged.
-/

namespace DistKvRaft.Go.Utf8

/-- A continuation byte. -/
def tail (b : Byte) : Bool := 0x80 ≤ b.val && b.val ≤ 0xBF

/-- The first two bytes of a two-byte sequence. -/
def leads2 (b₀ b₁ : Byte) : Bool := 0xC2 ≤ b₀.val && b₀.val ≤ 0xDF && tail b₁

/-- The first two bytes of a three-byte sequence: no overlong form and no surrogate. -/
def leads3 (b₀ b₁ : Byte) : Bool :=
  (b₀.val == 0xE0 && 0xA0 ≤ b₁.val && b₁.val ≤ 0xBF) ||
  (b₀.val == 0xED && 0x80 ≤ b₁.val && b₁.val ≤ 0x9F) ||
  (0xE1 ≤ b₀.val && b₀.val ≤ 0xEF && b₀.val != 0xED && tail b₁)

/-- The first two bytes of a four-byte sequence, up to U+10FFFF. -/
def leads4 (b₀ b₁ : Byte) : Bool :=
  (b₀.val == 0xF0 && 0x90 ≤ b₁.val && b₁.val ≤ 0xBF) ||
  (b₀.val == 0xF4 && 0x80 ≤ b₁.val && b₁.val ≤ 0x8F) ||
  (0xF1 ≤ b₀.val && b₀.val ≤ 0xF3 && tail b₁)

/-- Width of the well-formed sequence at the head, and zero where there is none. -/
def runeWidth : GoString → ℕ
  | [] => 0
  | b₀ :: rest =>
    if b₀.val < 0x80 then 1 else
      match rest with
      | [] => 0
      | b₁ :: rest =>
        if leads2 b₀ b₁ then 2 else
          match rest with
          | [] => 0
          | b₂ :: rest =>
            if leads3 b₀ b₁ && tail b₂ then 3 else
              match rest with
              | [] => 0
              | b₃ :: _ => if leads4 b₀ b₁ && tail b₂ && tail b₃ then 4 else 0

/-- One complete well-formed sequence. -/
def IsRune (u : GoString) : Prop := u ≠ [] ∧ runeWidth u = u.length

instance (u : GoString) : Decidable (IsRune u) := inferInstanceAs (Decidable (_ ∧ _))

/-- The encoding of U+FFFD, `utf8.RuneError`. -/
def runeError : GoString := [0xEF, 0xBF, 0xBD]

/-- Cut into well-formed sequences, with `none` for each byte that starts none. -/
def runesUpTo : ℕ → GoString → List (Option GoString)
  | 0, _ => []
  | _ + 1, [] => []
  | n + 1, b :: rest =>
    match runeWidth (b :: rest) with
    | 0 => none :: runesUpTo n rest
    | w + 1 => some ((b :: rest).take (w + 1)) :: runesUpTo n ((b :: rest).drop (w + 1))

def runes (s : GoString) : List (Option GoString) := runesUpTo s.length s

/-- `utf8.ValidString`. -/
def ValidString (s : GoString) : Prop := ∀ r ∈ runes s, r ≠ none

instance (s : GoString) : Decidable (ValidString s) :=
  inferInstanceAs (Decidable (∀ r ∈ runes s, r ≠ none))

/-- Replace every byte that is not part of a well-formed sequence by U+FFFD. -/
def toValid (s : GoString) : GoString := (runes s).flatMap fun r ↦ r.getD runeError

/-! ## Well-formed sequences -/

/-- What follows a rune does not change how it is read. -/
theorem runeWidth_append {u : GoString} (h : IsRune u) (rest : GoString) :
    runeWidth (u ++ rest) = u.length := by
  obtain ⟨hne, hw⟩ := h
  rcases u with _ | ⟨b₀, _ | ⟨b₁, _ | ⟨b₂, _ | ⟨b₃, u⟩⟩⟩⟩
  · exact absurd rfl hne
  all_goals
    simp only [runeWidth, List.length_cons, List.length_nil, List.cons_append,
      List.nil_append] at hw ⊢
    split_ifs at hw ⊢ <;> simp_all

/-- The bytes counted by `runeWidth` form a rune of that width. -/
theorem isRune_take {s : GoString} {w : ℕ} (h : runeWidth s = w + 1) :
    IsRune (s.take (w + 1)) ∧ (s.take (w + 1)).length = w + 1 := by
  rcases s with _ | ⟨b₀, _ | ⟨b₁, _ | ⟨b₂, _ | ⟨b₃, u⟩⟩⟩⟩
  all_goals
    simp only [runeWidth] at h
    try split_ifs at h
  all_goals cases h <;> simp_all [IsRune, runeWidth]

theorem isRune_runeError : IsRune runeError := by decide

/-! ## Cutting into runes -/

/-- Every reported rune is well formed. -/
theorem isRune_of_mem_runesUpTo {n : ℕ} {s u : GoString} (h : some u ∈ runesUpTo n s) :
    IsRune u := by
  induction n generalizing s with
  | zero => simp [runesUpTo] at h
  | succ n ih =>
    rcases s with _ | ⟨b, rest⟩
    · simp [runesUpTo] at h
    · rw [runesUpTo] at h
      split at h
      · exact ih (by simpa using h)
      · next w hw =>
        rcases List.mem_cons.mp h with heq | hmem
        · cases heq
          exact (isRune_take hw).1
        · exact ih hmem

theorem isRune_of_mem_runes {s u : GoString} (h : some u ∈ runes s) : IsRune u :=
  isRune_of_mem_runesUpTo h

/-- Runes written one after the other are read back one by one. -/
theorem runesUpTo_flatten {us : List GoString} (hus : ∀ u ∈ us, IsRune u) {n : ℕ}
    (hn : us.flatten.length ≤ n) : runesUpTo n us.flatten = us.map some := by
  induction us generalizing n with
  | nil => cases n <;> rfl
  | cons u us ih =>
    have hu := hus u (by simp)
    have hwidth := runeWidth_append hu us.flatten
    rcases u with _ | ⟨b, u⟩
    · exact absurd rfl hu.1
    · rw [List.flatten_cons, List.length_append, List.length_cons] at hn
      obtain ⟨n, rfl⟩ := Nat.exists_eq_succ_of_ne_zero (by omega : n ≠ 0)
      rw [List.length_cons] at hwidth
      rw [List.flatten_cons, List.cons_append, Nat.succ_eq_add_one, runesUpTo,
        ← List.cons_append, hwidth]
      simp only [List.map_cons]
      rw [← List.length_cons (a := b), List.take_left, List.drop_left]
      rw [ih (fun v hv ↦ hus v (by simp [hv])) (by omega)]

theorem runes_flatten {us : List GoString} (hus : ∀ u ∈ us, IsRune u) :
    runes us.flatten = us.map some :=
  runesUpTo_flatten hus le_rfl

/-- Without errors the runes are the whole string. -/
theorem runesUpTo_flatMap_eq_self {n : ℕ} {s : GoString} (hn : s.length ≤ n)
    (hvalid : ∀ r ∈ runesUpTo n s, r ≠ none) :
    (runesUpTo n s).flatMap (fun r ↦ r.getD runeError) = s := by
  induction n generalizing s with
  | zero => simp [List.length_eq_zero_iff.mp (Nat.le_zero.mp hn), runesUpTo]
  | succ n ih =>
    rcases s with _ | ⟨b, rest⟩
    · rfl
    · rw [runesUpTo] at hvalid ⊢
      split at hvalid
      · exact absurd rfl (hvalid none (by simp))
      · next w hw =>
        have hdrop : ((b :: rest).drop (w + 1)).length ≤ n := by
          rw [List.length_drop]
          simp only [List.length_cons] at hn ⊢
          omega
        simp only [List.flatMap_cons, Option.getD_some]
        rw [ih hdrop fun r hr ↦ hvalid r (List.mem_cons_of_mem _ hr), List.take_append_drop]

theorem toValid_eq_self {s : GoString} (h : ValidString s) : toValid s = s :=
  runesUpTo_flatMap_eq_self le_rfl h

theorem toValid_eq_flatten (s : GoString) :
    toValid s = ((runes s).map fun r ↦ r.getD runeError).flatten := by
  simp [toValid, List.flatMap_def]

/-- Replacement makes every string valid. -/
theorem validString_toValid (s : GoString) : ValidString (toValid s) := by
  intro r hr
  rw [toValid_eq_flatten, runes_flatten] at hr
  · obtain ⟨u, -, rfl⟩ := List.mem_map.mp hr
    exact Option.some_ne_none u
  · intro u hu
    obtain ⟨r, hr, rfl⟩ := List.mem_map.mp hu
    cases r with
    | none => exact isRune_runeError
    | some u => exact isRune_of_mem_runes hr

/-- Replacement changes a string exactly when the string is not valid. -/
theorem toValid_eq_self_iff (s : GoString) : toValid s = s ↔ ValidString s :=
  ⟨fun h ↦ h ▸ validString_toValid s, toValid_eq_self⟩

end DistKvRaft.Go.Utf8
