import Mathlib.Order.Lattice

/-! The first position of a least or greatest element, as a forward scan that keeps
the best position so far finds it. -/
namespace Extremum

variable {κ : Type*} [LinearOrder κ]

/-- The scan from position `i` on, with the best position so far and its value. -/
def leastFrom (best : ℕ) (value : κ) (i : ℕ) : List κ → ℕ
  | [] => best
  | a :: rest => if a < value then leastFrom i a (i + 1) rest else leastFrom best value (i + 1) rest

def firstLeast : List κ → ℕ
  | [] => 0
  | a :: rest => leastFrom 0 a 1 rest

def firstGreatest (l : List κ) : ℕ := @firstLeast κᵒᵈ _ l

/-- The scanned part `seen` has its least element at `best`; the scan keeps this. -/
theorem leastFrom_spec {best : ℕ} {value : κ} (seen rest : List κ) (held : seen[best]? = some value)
    (least : ∀ a ∈ seen, value ≤ a) :
    ∃ found, (seen ++ rest)[leastFrom best value seen.length rest]? = some found ∧
      ∀ a ∈ seen ++ rest, found ≤ a := by
  induction rest generalizing best value seen with
  | nil => exact ⟨value, by simpa [leastFrom] using held, by simpa using least⟩
  | cons next rest ih =>
    have regroup : seen ++ next :: rest = (seen ++ [next]) ++ rest := by simp
    have length : (seen ++ [next]).length = seen.length + 1 := by simp
    rw [regroup, leastFrom, ← length]
    split_ifs with smaller
    · refine ih (seen ++ [next]) (by simp) ?_
      intro a member
      rcases List.mem_append.mp member with earlier | last
      · exact smaller.le.trans (least a earlier)
      · exact (List.mem_singleton.mp last).ge
    · refine ih (seen ++ [next]) ?_ ?_
      · rw [List.getElem?_append_left (List.getElem?_eq_some_iff.mp held).1, held]
      · intro a member
        rcases List.mem_append.mp member with earlier | last
        · exact least a earlier
        · exact (List.mem_singleton.mp last) ▸ not_lt.mp smaller

theorem firstLeast_spec {l : List κ} (nonempty : l ≠ []) :
    ∃ found, l[firstLeast l]? = some found ∧ ∀ a ∈ l, found ≤ a := by
  cases l with
  | nil => contradiction
  | cons a rest => exact leastFrom_spec [a] rest rfl (by simp)

theorem firstLeast_lt {l : List κ} (nonempty : l ≠ []) : firstLeast l < l.length := by
  obtain ⟨_, held, _⟩ := firstLeast_spec nonempty
  exact (List.getElem?_eq_some_iff.mp held).1

theorem firstGreatest_lt {l : List κ} (nonempty : l ≠ []) : firstGreatest l < l.length :=
  @firstLeast_lt κᵒᵈ _ l nonempty

/-! Scans that pass over some of the elements. -/

section Among

variable {α : Type*} (p : α → Prop) (key : α → κ)

/-- `a`, at position `i`, has the least key of all elements of `l` with `p`, and the least
position among those with its key. -/
structure FirstLeastAmong (l : List α) (i : ℕ) (a : α) : Prop where
  held : l[i]? = some a
  passes : p a
  least : ∀ j b, l[j]? = some b → p b → key a ≤ key b ∧ (key b = key a → i ≤ j)

variable {p key} {l : List α} {i : ℕ} {a b : α}

theorem getElem?_snoc {j : ℕ} {c : α} (there : (l ++ [b])[j]? = some c) : l[j]? = some c ∨ j = l.length ∧ c = b := by
  rcases lt_trichotomy j l.length with earlier | last | late
  · rw [List.getElem?_append_left earlier] at there
    exact .inl there
  · rw [last, List.getElem?_concat_length] at there
    exact .inr ⟨last, (Option.some.inj there).symm⟩
  · rw [List.getElem?_eq_none (by rw [List.length_append]; exact late)] at there
    contradiction

/-- The best so far stays the best beside an element that does not pass or is not less. -/
theorem FirstLeastAmong.keep (best : FirstLeastAmong p key l i a) (worse : p b → key a ≤ key b) :
    FirstLeastAmong p key (l ++ [b]) i a := by
  obtain ⟨held, passes, least⟩ := best
  have inside : i < l.length := (List.getElem?_eq_some_iff.mp held).1
  refine ⟨by rw [List.getElem?_append_left inside, held], passes, fun j c there passes' => ?_⟩
  rcases getElem?_snoc there with earlier | ⟨rfl, rfl⟩
  · exact least j c earlier passes'
  · exact ⟨worse passes', fun _ => inside.le⟩

/-- An element that passes and is less than all others with `p` becomes the best. -/
theorem FirstLeastAmong.take (passes : p b) (less : ∀ c ∈ l, p c → key b < key c) :
    FirstLeastAmong p key (l ++ [b]) l.length b := by
  refine ⟨List.getElem?_concat_length, passes, fun j c there passes' => ?_⟩
  rcases getElem?_snoc there with earlier | ⟨rfl, rfl⟩
  · have smaller := less c (List.mem_of_getElem? earlier) passes'
    exact ⟨smaller.le, fun same => absurd same smaller.ne'⟩
  · exact ⟨le_rfl, fun _ => le_rfl⟩

end Among

end Extremum
