import Mathlib.Tactic.Linarith
import Mathlib.Tactic.Zify
import Mathlib.Data.List.TakeWhile

/-! Decimal text as C writes and reads it: zero-padded numbers, columns of a fixed
width and their order, and the number a text begins with. A text is a list of bytes. -/
namespace Decimal

/-- `printf` with `%0` and a width; a longer number takes all the room it needs. -/
def padded (width : ℕ) (n : ℤ) : List Char :=
  if n < 0 then '-' :: (Nat.toDigits 10 n.natAbs).leftpad (width - 1) '0'
  else (Nat.toDigits 10 n.natAbs).leftpad width '0'

/-- The last `width` digits of `n`, zeros in front included. -/
def column : ℕ → ℕ → List Char
  | 0, _ => []
  | width + 1, n => column width (n / 10) ++ [(n % 10).digitChar]

def value (digits : List Char) : ℕ := Nat.ofDigitChars 10 digits 0

/-- `isspace` in the C locale. -/
def blank (c : Char) : Bool := c = ' ' ∨ (9 ≤ c.toNat ∧ c.toNat ≤ 13)

def unsigned (text : List Char) : Option ℕ :=
  let digits := text.takeWhile Char.isDigit
  if digits = [] then none else some (value digits)

/-- `strtol` in base ten: blanks, a sign, and the digits after it. -/
def leading (text : List Char) : Option ℤ :=
  match text.dropWhile blank with
  | '-' :: rest => (unsigned rest).map fun n => -n
  | '+' :: rest => (unsigned rest).map fun n => n
  | rest => (unsigned rest).map fun n => n

section Column

variable {width n m : ℕ} {s t : List Char}

@[simp] theorem length_column (width n : ℕ) : (column width n).length = width := by
  induction width generalizing n with
  | zero => rfl
  | succ width ih => simp [column, ih]

theorem digitChar_lt {a b : ℕ} (ha : a < 10) (hb : b < 10) : a.digitChar < b.digitChar ↔ a < b := by
  rw [Char.lt_def, UInt32.lt_iff_toNat_lt]
  change a.digitChar.toNat < b.digitChar.toNat ↔ a < b
  rw [Nat.toNat_digitChar_of_lt_ten ha, Nat.toNat_digitChar_of_lt_ten hb]
  omega

theorem digitChar_inj {a b : ℕ} (ha : a < 10) (hb : b < 10) : a.digitChar = b.digitChar ↔ a = b := by
  constructor
  · intro same
    have codes := congrArg Char.toNat same
    rw [Nat.toNat_digitChar_of_lt_ten ha, Nat.toNat_digitChar_of_lt_ten hb] at codes
    omega
  · exact congrArg _

/-- Texts that begin with columns are compared by the columns' numbers first. -/
theorem column_append_lt (hn : n < 10 ^ width) (hm : m < 10 ^ width) :
    column width n ++ s < column width m ++ t ↔ n < m ∨ n = m ∧ s < t := by
  induction width generalizing n m s t with
  | zero => simp [column, Nat.lt_one_iff.mp hn, Nat.lt_one_iff.mp hm]
  | succ width ih =>
    rw [pow_succ] at hn hm
    rw [column, column, List.append_assoc, List.append_assoc, ih (by omega) (by omega), List.singleton_append,
      List.singleton_append, List.cons_lt_cons_iff, digitChar_lt (by omega) (by omega), digitChar_inj (by omega)
        (by omega)]
    by_cases tails : s < t
    · simp only [tails, and_true]
      omega
    · simp only [tails, and_false, or_false]
      omega

theorem column_append_inj (hn : n < 10 ^ width) (hm : m < 10 ^ width) :
    column width n ++ s = column width m ++ t ↔ n = m ∧ s = t := by
  induction width generalizing n m s t with
  | zero => simp [column, Nat.lt_one_iff.mp hn, Nat.lt_one_iff.mp hm]
  | succ width ih =>
    rw [pow_succ] at hn hm
    rw [column, column, List.append_assoc, List.append_assoc, ih (by omega) (by omega), List.singleton_append,
      List.singleton_append, List.cons_eq_cons, digitChar_inj (by omega) (by omega)]
    by_cases tails : s = t
    · simp only [tails, and_true]
      omega
    · simp only [tails, and_false]

theorem toNat_append_lt {a b : ℤ} (ha : 0 ≤ a ∧ a < 10 ^ width) (hb : 0 ≤ b ∧ b < 10 ^ width) :
    column width a.toNat ++ s < column width b.toNat ++ t ↔ a < b ∨ a = b ∧ s < t := by
  have fitsA : a.toNat < 10 ^ width := by zify; omega
  have fitsB : b.toNat < 10 ^ width := by zify; omega
  rw [column_append_lt fitsA fitsB]
  have less : a.toNat < b.toNat ↔ a < b := by omega
  have same : a.toNat = b.toNat ↔ a = b := by omega
  rw [less, same]

theorem toNat_append_inj {a b : ℤ} (ha : 0 ≤ a ∧ a < 10 ^ width) (hb : 0 ≤ b ∧ b < 10 ^ width) :
    column width a.toNat ++ s = column width b.toNat ++ t ↔ a = b ∧ s = t := by
  have fitsA : a.toNat < 10 ^ width := by zify; omega
  have fitsB : b.toNat < 10 ^ width := by zify; omega
  have same : a.toNat = b.toNat ↔ a = b := by omega
  rw [column_append_inj fitsA fitsB, same]

/-- Room that the number leaves in its column is filled with zeros. -/
theorem leftpad_toDigits (positive : 0 < width) (fits : n < 10 ^ width) :
    (Nat.toDigits 10 n).leftpad width '0' = column width n := by
  induction width generalizing n with
  | zero => contradiction
  | succ width ih =>
    have split : Nat.toDigits 10 n = (if n < 10 then [] else Nat.toDigits 10 (n / 10)) ++ [(n % 10).digitChar] := by
      rw [Nat.toDigits_eq_if (by norm_num)]
      split_ifs with small
      · rw [Nat.mod_eq_of_lt small, List.nil_append]
      · rfl
    have front : (if n < 10 then [] else Nat.toDigits 10 (n / 10)).leftpad width '0' = column width (n / 10) := by
      rw [pow_succ] at fits
      cases width with
      | zero =>
        have small : n < 10 := by omega
        simp [small, column, List.leftpad]
      | succ width =>
        rw [← ih (Nat.succ_pos width) (by omega)]
        split_ifs with small
        · rw [Nat.div_eq_of_lt small, Nat.toDigits_zero]
          simp [List.leftpad, List.replicate_succ']
        · rfl
    rw [column, ← front, split]
    simp [List.leftpad]

theorem padded_eq_column {n : ℤ} (positive : 0 < width) (nonneg : 0 ≤ n) (fits : n < 10 ^ width) :
    padded width n = column width n.toNat := by
  have natural : n.natAbs = n.toNat := by omega
  have bound : n.toNat < 10 ^ width := by zify; omega
  rw [padded, if_neg (not_lt.mpr nonneg), natural, leftpad_toDigits positive bound]

end Column

section Reading

variable {digits rest : List Char}

theorem isDigit_bounds {c : Char} (digit : c.isDigit = true) : 48 ≤ c.toNat ∧ c.toNat ≤ 57 :=
  Char.isDigit_iff_toNat.mp digit

theorem value_append (a b : List Char) : value (a ++ b) = 10 ^ b.length * value a + value b := by
  rw [value, Nat.ofDigitChars_append, Nat.ofDigitChars_eq_ofDigitChars_zero, value, value]

theorem value_lt (all : ∀ c ∈ digits, c.isDigit = true) : value digits < 10 ^ digits.length := by
  induction digits with
  | nil => simp [value]
  | cons c digits ih =>
    obtain ⟨first, others⟩ := List.forall_mem_cons.mp all
    have below : c.toNat - 48 < 10 := by
      have bound := isDigit_bounds first
      omega
    have tail := ih others
    have one : value [c] = c.toNat - 48 := by simp [value, Nat.ofDigitChars_cons]
    rw [← List.singleton_append, value_append, one, List.length_append, List.length_singleton, pow_add]
    nlinarith

/-- A text that begins with a digit has no blanks and no sign to skip. -/
theorem leading_of_digits (nonempty : digits ≠ []) (all : ∀ c ∈ digits, c.isDigit = true) :
    leading digits = some (value digits : ℤ) := by
  obtain ⟨first, others, rfl⟩ := List.exists_cons_of_ne_nil nonempty
  have digit := all first List.mem_cons_self
  have bound := isDigit_bounds digit
  have notBlank : blank first = false := by
    have notSpace : first ≠ ' ' := by
      rintro rfl
      simp at bound
    simp [blank, notSpace]
    omega
  have whole : (first :: others).takeWhile Char.isDigit = first :: others := List.takeWhile_eq_self_iff.mpr all
  have read : unsigned (first :: others) = some (value (first :: others)) := by
    simp [unsigned, whole]
  rw [leading, List.dropWhile_cons_of_neg (by simp [notBlank])]
  split
  · rename_i same
    obtain ⟨rfl, _⟩ := List.cons.inj same
    simp at bound
  · rename_i same
    obtain ⟨rfl, _⟩ := List.cons.inj same
    simp at bound
  · simp [read]

theorem value_column {width n : ℕ} (fits : n < 10 ^ width) : value (column width n) = n := by
  induction width generalizing n with
  | zero =>
    obtain rfl : n = 0 := by simpa using fits
    rfl
  | succ width ih =>
    have one : value [(n % 10).digitChar] = n % 10 := by
      simp [value, Nat.ofDigitChars_cons, Nat.toNat_digitChar_of_lt_ten (Nat.mod_lt n (by norm_num : 10 > 0))]
    rw [column, value_append, one, ih (by rw [pow_succ] at fits; omega), List.length_singleton, pow_one]
    omega

theorem column_isDigit (width n : ℕ) : ∀ c ∈ column width n, c.isDigit = true := by
  induction width generalizing n with
  | zero => simp [column]
  | succ width ih =>
    intro c member
    rcases List.mem_append.mp member with front | last
    · exact ih (n / 10) c front
    · obtain rfl := List.mem_singleton.mp last
      have small : n % 10 < 10 := Nat.mod_lt n (by norm_num)
      have zero : '0'.toNat = 48 := rfl
      have nine : '9'.toNat = 57 := rfl
      rw [Char.isDigit_iff_toNat, Nat.toNat_digitChar_of_lt_ten small]
      omega

/-- What `std::to_string` writes of a number is a sign or nothing, and digits. -/
theorem toString_cases (n : ℤ) :
    0 ≤ n ∧ (toString n).toList = Nat.toDigits 10 n.toNat ∨
    n < 0 ∧ (toString n).toList = '-' :: Nat.toDigits 10 (-n).toNat := by
  rw [Int.toString_eq_repr, Int.repr_eq_if]
  split_ifs with nonneg
  · exact .inl ⟨nonneg, Nat.toList_repr⟩
  · exact .inr ⟨by omega, by simp⟩

theorem toDigits_isDigit (n : ℕ) : ∀ c ∈ Nat.toDigits 10 n, c.isDigit = true :=
  fun _ member => Nat.isDigit_of_mem_toDigits (by decide) (by decide) member

theorem leading_toString (n : ℤ) : leading (toString n).toList = some n := by
  have read (n : ℕ) : value (Nat.toDigits 10 n) = n := Nat.ofDigitChars_toDigits (by decide) (by decide)
  rcases toString_cases n with ⟨nonneg, text⟩ | ⟨negative, text⟩
  · rw [text, leading_of_digits Nat.toDigits_ne_nil (toDigits_isDigit _), read]
    simp [nonneg]
  · have digits : unsigned (Nat.toDigits 10 (-n).toNat) = some (-n).toNat := by
      rw [unsigned, List.takeWhile_eq_self_iff.mpr (toDigits_isDigit _), if_neg Nat.toDigits_ne_nil, read]
    rw [text, leading, List.dropWhile_cons_of_neg (by decide)]
    simp only [digits]
    change some (-((-n).toNat : ℤ)) = some n
    rw [Option.some.injEq]
    omega

theorem toString_clean {c : Char} (sign : c ≠ '-') (letter : c.isDigit = false) (n : ℤ) :
    c ∉ (toString n).toList := by
  have apart (n : ℕ) : c ∉ Nat.toDigits 10 n := fun member => by simp [toDigits_isDigit n c member] at letter
  rcases toString_cases n with ⟨_, text⟩ | ⟨_, text⟩
  · rw [text]
    exact apart _
  · rw [text, List.mem_cons, not_or]
    exact ⟨sign, apart _⟩

end Reading

end Decimal
