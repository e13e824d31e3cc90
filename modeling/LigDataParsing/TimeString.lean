import LigDataParsing.Decimal
import LigDataParsing.GPSTimeAlgorithm

/-! The constructors of `GPSTime` and `Duration` from a string. Both test the length and
look for a `T`, then read pieces of two characters with `stoi`; what they read they do
not check. A `std::string` is a list of its bytes, and `none` stands for an exception. -/
namespace LigDataParsing

open Decimal

/-- `std::stoi`, which throws where no number begins and where it does not fit. -/
def stoi (text : List Char) : Option ℤ := (leading text).filter GPSTime.FitsInt

def substr (s : List Char) (pos n : ℕ) : List Char := (s.drop pos).take n

def sixNumbers {α : Type} (make : ℤ → ℤ → ℤ → ℤ → ℤ → ℤ → α) (s : List Char) (hourAt minAt secAt : ℕ) :
    Option α := do
  let year ← stoi (substr s 2 2)
  let month ← stoi (substr s 4 2)
  let day ← stoi (substr s 6 2)
  let hour ← stoi (substr s hourAt 2)
  let min ← stoi (substr s minAt 2)
  let sec ← stoi (substr s secAt 2)
  return make year month day hour min sec

/-- The body the two constructors share. `find` returns the position of the first `T`, or
`npos`, which is not zero either. -/
def fromString {α : Type} (make : ℤ → ℤ → ℤ → ℤ → ℤ → ℤ → α) (otherwise : α) (s : List Char) : Option α :=
  if s.idxOf? 'T' ≠ some 0 ∧ s.length = 15 then sixNumbers make s 9 11 13
  else if s.length = 14 then sixNumbers make s 8 10 12
  else some otherwise

def GPSTime.ofString : List Char → Option GPSTime :=
  fromString (fun year month day hour min sec => ofFields year month day hour min sec 0) zero

def Duration.ofString : List Char → Option Duration := fromString Duration.mk ⟨0, 0, 0, 0, 0, 0⟩

example : Duration.ofString "00000000T002000".toList = some ⟨0, 0, 0, 0, 20, 0⟩ := by rfl

section Pieces

variable {s : List Char} {pos n i : ℕ}

theorem substr_eraseIdx_before (before : pos + n ≤ i) : substr (s.eraseIdx i) pos n = substr s pos n := by
  apply List.ext_getElem?
  intro j
  simp only [substr, List.getElem?_take, List.getElem?_drop, List.getElem?_eraseIdx]
  split_ifs with inside left
  · rfl
  · omega
  · rfl

theorem substr_eraseIdx_after (after : i ≤ pos) : substr (s.eraseIdx i) pos n = substr s (pos + 1) n := by
  apply List.ext_getElem?
  intro j
  simp only [substr, List.getElem?_take, List.getElem?_drop, List.getElem?_eraseIdx]
  split_ifs with inside left
  · omega
  · congr 1
    omega
  · rfl

theorem length_substr (inside : pos + n ≤ s.length) : (substr s pos n).length = n := by
  simp [substr]
  omega

/-- A piece of two digits is read as the number it writes. -/
theorem stoi_substr (inside : pos + 2 ≤ s.length) (digits : ∀ c ∈ substr s pos 2, c.isDigit = true) :
    stoi (substr s pos 2) = some (value (substr s pos 2) : ℤ) ∧ value (substr s pos 2) < 100 := by
  have length := length_substr inside
  have bound := value_lt digits
  rw [length] at bound
  have nonempty : substr s pos 2 ≠ [] := List.ne_nil_of_length_pos (by omega)
  refine ⟨?_, by omega⟩
  rw [stoi, leading_of_digits nonempty digits, Option.filter_some_pos]
  exact decide_eq_true ⟨by omega, by omega⟩

theorem sixNumbers_eq {α : Type} (make : ℤ → ℤ → ℤ → ℤ → ℤ → ℤ → α) {hourAt minAt secAt : ℕ}
    (inside : ∀ pos ∈ [2, 4, 6, hourAt, minAt, secAt], pos + 2 ≤ s.length)
    (digits : ∀ pos ∈ [2, 4, 6, hourAt, minAt, secAt], ∀ c ∈ substr s pos 2, c.isDigit = true) :
    sixNumbers make s hourAt minAt secAt =
      some (make (value (substr s 2 2)) (value (substr s 4 2)) (value (substr s 6 2))
        (value (substr s hourAt 2)) (value (substr s minAt 2)) (value (substr s secAt 2))) := by
  have read (pos : ℕ) (listed : pos ∈ [2, 4, 6, hourAt, minAt, secAt]) :
      stoi (substr s pos 2) = some (value (substr s pos 2) : ℤ) :=
    (stoi_substr (inside pos listed) (digits pos listed)).1
  simp [sixNumbers, read]

theorem idxOf?_eq_zero {c : Char} : s.idxOf? c = some 0 ↔ s.head? = some c := by
  cases s with
  | nil => simp
  | cons first rest =>
    rw [List.idxOf?_cons]
    by_cases same : first = c
    · simp [same]
    · simp [same]

end Pieces

/-- The digits of the forms YYYYMMDDTHHMMSS and YYYYMMDDHHMMSS. -/
def compact (s : List Char) : Option (List Char) :=
  if s.length = 15 ∧ s[8]? = some 'T' then some (s.eraseIdx 8)
  else if s.length = 14 then some s else none

def written (digits : List Char) : Gregorian.DateTime :=
  ⟨value (substr digits 0 4), value (substr digits 4 2), value (substr digits 6 2), value (substr digits 8 2),
    value (substr digits 10 2), value (substr digits 12 2)⟩

/-- The string has one of the two forms and `date`, of the years 2000 to 2099, exists. -/
structure Names (s : List Char) (date : Gregorian.DateTime) : Prop where
  form : ∃ digits, compact s = some digits ∧ (∀ c ∈ digits, c.isDigit = true) ∧ date = written digits
  valid : date.Valid
  century : 2000 ≤ date.year ∧ date.year ≤ 2099

/-- The string is read as the time it names, or refused because it names none. -/
def ReadAsNamed (s : List Char) : Prop :=
  ∃ t, GPSTime.ofString s = some t ∧ (t.isTimeVaild = true ↔ ∃ date, Names s date) ∧
    (∀ date, Names s date → t.stamp =
      (GPSTime.ofFields (date.year % 100) date.month date.day date.hour date.minute date.second 0).stamp) ∧
    ((¬∃ date, Names s date) → t.stamp = GPSTime.zero.stamp)

section Accepted

variable {s digits : List Char}

theorem compact_length (form : compact s = some digits) : digits.length = 14 := by
  unfold compact at form
  split_ifs at form with long short
  · cases form
    rw [List.length_eraseIdx, long.1]
    rfl
  · cases form
    exact short

theorem written_year (length : digits.length = 14) (all : ∀ c ∈ digits, c.isDigit = true) :
    (written digits).year % 100 = value (substr digits 2 2) := by
  have piece : ∀ c ∈ substr digits 2 2, c.isDigit = true := fun c member =>
    all c (List.mem_of_mem_drop (List.mem_of_mem_take member))
  have small := (stoi_substr (by omega) piece).2
  have split : substr digits 0 4 = substr digits 0 2 ++ substr digits 2 2 := by
    rw [substr, substr, substr, List.drop_zero, show 4 = 2 + 2 from rfl, List.take_add]
  have whole : (written digits).year = ((100 * value (substr digits 0 2) + value (substr digits 2 2) : ℕ) : ℤ) := by
    rw [written, split, value_append, length_substr (by omega)]
    norm_num
  omega

theorem fromString_compact {α : Type} (make : ℤ → ℤ → ℤ → ℤ → ℤ → ℤ → α) (otherwise : α)
    (form : compact s = some digits) (all : ∀ c ∈ digits, c.isDigit = true) :
    fromString make otherwise s = some (make ((written digits).year % 100) (written digits).month (written digits).day
      (written digits).hour (written digits).minute (written digits).second) := by
  have length := compact_length form
  have piece (pos : ℕ) (c : Char) (member : c ∈ substr digits pos 2) : c.isDigit = true :=
    all c (List.mem_of_mem_drop (List.mem_of_mem_take member))
  rw [written_year length all]
  unfold compact at form
  split_ifs at form with long short
  · cases form
    have before (pos : ℕ) (below : pos + 2 ≤ 8) : substr (s.eraseIdx 8) pos 2 = substr s pos 2 :=
      substr_eraseIdx_before below
    have after (pos : ℕ) (above : 8 ≤ pos) : substr (s.eraseIdx 8) pos 2 = substr s (pos + 1) 2 :=
      substr_eraseIdx_after above
    have front : s.idxOf? 'T' ≠ some 0 := by
      intro found
      have head := idxOf?_eq_zero.mp found
      obtain ⟨first, rest, rfl⟩ := List.exists_cons_of_ne_nil (List.ne_nil_of_length_pos (by omega : 0 < s.length))
      cases head
      exact absurd (all 'T' (by simp)) (by decide)
    rw [fromString, if_pos ⟨front, long.1⟩, sixNumbers_eq make (by simp [long.1])]
    · simp only [written, before 2 (by omega), before 4 (by omega), before 6 (by omega), after 8 (by omega),
        after 10 (by omega), after 12 (by omega)]
    · intro pos listed c member
      simp only [List.mem_cons, List.not_mem_nil, or_false] at listed
      rcases listed with rfl | rfl | rfl | rfl | rfl | rfl
      · exact piece 2 c (before 2 (by omega) ▸ member)
      · exact piece 4 c (before 4 (by omega) ▸ member)
      · exact piece 6 c (before 6 (by omega) ▸ member)
      · exact piece 8 c (after 8 (by omega) ▸ member)
      · exact piece 10 c (after 10 (by omega) ▸ member)
      · exact piece 12 c (after 12 (by omega) ▸ member)
  · cases form
    rw [fromString, if_neg (by omega), if_pos short, sixNumbers_eq make (by simp [short]) (fun pos _ => piece pos)]
    rfl

/-- A string of neither length is refused, and so is a longer one with its `T` in front. -/
def Refused (s : List Char) : Prop := s.length ≠ 14 ∧ (s.length = 15 → s.head? = some 'T')

theorem fromString_refused {α : Type} (make : ℤ → ℤ → ℤ → ℤ → ℤ → ℤ → α) (otherwise : α) (refused : Refused s) :
    fromString make otherwise s = some otherwise := by
  have notLong : ¬(s.idxOf? 'T' ≠ some 0 ∧ s.length = 15) := by
    rintro ⟨front, long⟩
    exact front (idxOf?_eq_zero.mpr (refused.2 long))
  rw [fromString, if_neg notLong, if_neg refused.1]

theorem Refused.nameless (refused : Refused s) {date : Gregorian.DateTime} : ¬Names s date := by
  rintro ⟨⟨digits, form, all, _⟩, _, _⟩
  unfold compact at form
  split_ifs at form with long short
  · cases form
    have head := refused.2 long.1
    obtain ⟨first, rest, rfl⟩ := List.exists_cons_of_ne_nil (List.ne_nil_of_length_pos (by omega : 0 < s.length))
    cases head
    exact absurd (all 'T' (by simp)) (by decide)
  · exact refused.1 short

/-- What is not refused by its length gets its flags set. -/
theorem ofString_isTimeVaild {t : GPSTime} (kept : ¬Refused s) (read : GPSTime.ofString s = some t) :
    t.isTimeVaild = true := by
  unfold GPSTime.ofString fromString at read
  split_ifs at read with long short
  · simp only [sixNumbers, Option.bind_eq_bind, Option.bind_eq_some_iff] at read
    obtain ⟨_, _, _, _, _, _, _, _, _, _, _, _, made⟩ := read
    cases made
    rfl
  · simp only [sixNumbers, Option.bind_eq_bind, Option.bind_eq_some_iff] at read
    obtain ⟨_, _, _, _, _, _, _, _, _, _, _, _, made⟩ := read
    cases made
    rfl
  · refine absurd ⟨short, fun length => ?_⟩ kept
    exact idxOf?_eq_zero.mp (not_not.mp fun front => long ⟨front, length⟩)

end Accepted

/-- The constructor does what its flag says exactly for the strings that name a time and
for those its length test refuses. -/
theorem time_string_iff (s : List Char) : ReadAsNamed s ↔ (∃ date, Names s date) ∨ Refused s := by
  constructor
  · rintro ⟨t, read, flag, _⟩
    by_contra neither
    obtain ⟨nameless, kept⟩ := not_or.mp neither
    exact nameless (flag.mp (ofString_isTimeVaild kept read))
  · rintro (⟨date, names⟩ | refused)
    · have named : ∃ date, Names s date := ⟨date, names⟩
      obtain ⟨⟨digits, form, all, same⟩, _, _⟩ := names
      refine ⟨_, fromString_compact _ _ form all, iff_of_true rfl named, ?_, fun nameless => absurd named nameless⟩
      rintro other ⟨⟨digits', form', _, same'⟩, _, _⟩
      obtain rfl := Option.some.inj (form.symm.trans form')
      rw [same']
    · refine ⟨_, fromString_refused _ _ refused, iff_of_false (by simp [GPSTime.zero]) ?_, ?_, fun _ => rfl⟩
      · rintro ⟨date, names⟩
        exact refused.nameless names
      · exact fun date names => absurd names refused.nameless

/-- A thirteenth month and a letter for a digit: the first is taken for a time, the second throws. -/
theorem time_string_unchecked :
    (GPSTime.ofString "20241301T000000".toList = some (GPSTime.ofFields 24 13 1 0 0 0 0) ∧
      ¬∃ date, Names "20241301T000000".toList date) ∧
    GPSTime.ofString "2024x101T000000".toList = none := by
  refine ⟨⟨by rfl, ?_⟩, by rfl⟩
  rintro ⟨date, ⟨digits, form, _, rfl⟩, valid, _⟩
  cases form
  exact absurd valid.month (by decide +kernel)

end LigDataParsing
