import Mathlib.Algebra.Order.BigOperators.Group.Finset
import Mathlib.Logic.Function.Basic

/-! Open addressing with displacement: elements on a circle of `n` places, each with an
ideal place, such that an element is never further from its ideal place than one step more
than the element before it. The places between an element and its ideal place are then all
taken, which is what lets a search stop early. -/
namespace RobinHood

def next (n i : ℕ) : ℕ := if i + 1 < n then i + 1 else 0

def distance (n ideal i : ℕ) : ℕ := if ideal ≤ i then i - ideal else n + i - ideal

section Circle

variable {n i j ideal : ℕ}

theorem next_lt (inside : i < n) : next n i < n := by
  unfold next
  split_ifs <;> omega

theorem next_inj (insideI : i < n) (insideJ : j < n) (same : next n i = next n j) : i = j := by
  unfold next at same
  split_ifs at same <;> omega

theorem exists_before (inside : i < n) : ∃ q < n, next n q = i := by
  cases i with
  | zero => exact ⟨n - 1, by omega, by unfold next; split_ifs <;> omega⟩
  | succ i => exact ⟨i, by omega, by simp [next, inside]⟩

theorem distance_lt (home : ideal < n) (inside : i < n) : distance n ideal i < n := by
  unfold distance
  split_ifs <;> omega

@[simp] theorem distance_self (n i : ℕ) : distance n i i = 0 := by simp [distance]

theorem distance_inj (home : ideal < n) (insideI : i < n) (insideJ : j < n)
    (same : distance n ideal i = distance n ideal j) : i = j := by
  unfold distance at same
  split_ifs at same <;> omega

theorem distance_next (home : ideal < n) (inside : i < n) (short : distance n ideal i + 1 < n) :
    distance n ideal (next n i) = distance n ideal i + 1 := by
  unfold distance next at *
  split_ifs at * <;> omega

/-- Only the ideal place itself is reached from the last place. -/
theorem distance_next_pos (home : ideal < n) (inside : i < n) (away : 0 < distance n ideal (next n i)) :
    distance n ideal (next n i) = distance n ideal i + 1 := by
  unfold distance next at *
  split_ifs at * <;> omega

theorem distance_towards (insideI : i < n) (insideJ : j < n) (apart : i ≠ j) :
    distance n (next n i) j + 1 = distance n i j := by
  unfold distance next
  split_ifs <;> omega

end Circle

variable {α : Type*} {n : ℕ} {ideal : α → ℕ} {slot : ℕ → Option α}

/-- The element behind `i` is at most one step further from its ideal place than the one at `i`. -/
def Linked (n : ℕ) (ideal : α → ℕ) (slot : ℕ → Option α) (i : ℕ) : Prop :=
  ∀ a, slot (next n i) = some a → 0 < distance n (ideal a) (next n i) →
    ∃ b, slot i = some b ∧ distance n (ideal a) (next n i) ≤ distance n (ideal b) i + 1

structure Placed (n : ℕ) (ideal : α → ℕ) (slot : ℕ → Option α) : Prop where
  inside : ∀ i a, slot i = some a → i < n ∧ ideal a < n
  linked : ∀ i < n, Linked n ideal slot i

/-- `a` has been moved on to `i`, and may stay there as far as the place before is concerned. -/
def Carried (n : ℕ) (ideal : α → ℕ) (slot : ℕ → Option α) (a : α) (i : ℕ) : Prop :=
  0 < distance n (ideal a) i →
    ∃ q < n, next n q = i ∧ ∃ b, slot q = some b ∧ distance n (ideal a) i ≤ distance n (ideal b) q + 1

theorem placed_empty (n : ℕ) (ideal : α → ℕ) : Placed n ideal fun _ => none :=
  ⟨by simp, fun _ _ _ taken => by simp at taken⟩

theorem carried_home (a : α) : Carried n ideal slot a (ideal a) := fun away => by simp at away

/-- The places from the ideal place of an element up to the element are taken, each by an
element no closer to its own ideal place. -/
theorem Placed.run (placed : Placed n ideal slot) {i : ℕ} {a : α} (taken : slot i = some a) {j : ℕ} (inside : j < n)
    (between : distance n (ideal a) j ≤ distance n (ideal a) i) :
    ∃ b, slot j = some b ∧ distance n (ideal a) j ≤ distance n (ideal b) j := by
  obtain ⟨insideI, home⟩ := placed.inside i a taken
  obtain ⟨gap, split⟩ := Nat.le.dest between
  induction gap generalizing j with
  | zero =>
    obtain rfl : j = i := distance_inj home inside insideI split
    exact ⟨a, taken, le_rfl⟩
  | succ gap ih =>
    have within := distance_lt home insideI
    have step := distance_next home inside (by omega)
    obtain ⟨c, takenC, further⟩ := ih (next_lt inside) (by omega) (by omega)
    obtain ⟨b, takenB, near⟩ := placed.linked j inside c takenC (by omega)
    exact ⟨b, takenB, by omega⟩

/-- With a free place left no element is a full turn away. -/
theorem Placed.short (placed : Placed n ideal slot) {i : ℕ} {a : α} (taken : slot i = some a) {free : ℕ}
    (insideF : free < n) (empty : slot free = none) : distance n (ideal a) i + 1 < n := by
  obtain ⟨inside, home⟩ := placed.inside i a taken
  by_contra long
  obtain ⟨b, takenB, -⟩ := placed.run taken insideF (by have := distance_lt home insideF; omega)
  simp [empty] at takenB

theorem Placed.map (placed : Placed n ideal slot) {g : α → α} (same : ∀ a, ideal (g a) = ideal a) :
    Placed n ideal fun i => (slot i).map g := by
  refine ⟨fun i a taken => ?_, fun i inside a taken away => ?_⟩
  · obtain ⟨b, held, rfl⟩ := Option.map_eq_some_iff.mp taken
    rw [same]
    exact placed.inside i b held
  · obtain ⟨b, held, rfl⟩ := Option.map_eq_some_iff.mp taken
    rw [same] at away ⊢
    obtain ⟨c, before, near⟩ := placed.linked i inside b held away
    exact ⟨g c, by rw [before, Option.map_some], by rwa [same]⟩

/-- The carried element takes a place that is free or held by an element closer to home. -/
theorem Placed.put (placed : Placed n ideal slot) {a : α} {i : ℕ} (inside : i < n) (home : ideal a < n)
    (carried : Carried n ideal slot a i)
    (closer : ∀ b, slot i = some b → distance n (ideal b) i ≤ distance n (ideal a) i) :
    Placed n ideal (Function.update slot i (some a)) := by
  refine ⟨?_, ?_⟩
  · intro j b taken
    by_cases same : j = i
    · subst same
      rw [Function.update_self] at taken
      cases taken
      exact ⟨inside, home⟩
    · rw [Function.update_of_ne same] at taken
      exact placed.inside j b taken
  · intro q insideQ b taken away
    by_cases here : next n q = i
    · rw [here, Function.update_self] at taken
      cases taken
      rw [here] at away ⊢
      obtain ⟨q', insideQ', before, c, takenC, near⟩ := carried away
      obtain rfl : q' = q := next_inj insideQ' insideQ (before.trans here.symm)
      refine ⟨c, ?_, near⟩
      rw [Function.update_of_ne]
      · exact takenC
      · rintro rfl
        have around := distance_next_pos home insideQ (by rwa [here])
        rw [here] at around
        omega
    · rw [Function.update_of_ne here] at taken
      obtain ⟨c, takenC, near⟩ := placed.linked q insideQ b taken away
      by_cases same : q = i
      · subst same
        have bound := closer c takenC
        exact ⟨a, Function.update_self .., by omega⟩
      · exact ⟨c, by rwa [Function.update_of_ne same], near⟩

/-- An element passes a place that is taken by one no closer to home. -/
theorem Placed.carry (placed : Placed n ideal slot) {a b : α} {i : ℕ} (taken : slot i = some b) (home : ideal a < n)
    (closer : distance n (ideal a) i ≤ distance n (ideal b) i) {free : ℕ} (insideF : free < n)
    (empty : slot free = none) :
    Carried n ideal slot a (next n i) ∧ distance n (ideal a) (next n i) = distance n (ideal a) i + 1 := by
  obtain ⟨inside, -⟩ := placed.inside i b taken
  have short := placed.short taken insideF empty
  have step := distance_next home inside (by omega)
  exact ⟨fun _ => ⟨i, inside, rfl, b, taken, by omega⟩, step⟩

section Search

variable {sought : α → Prop} {home : ℕ}

/-- What is sought lies no closer to `home` than `steps`. -/
def Ahead (n : ℕ) (slot : ℕ → Option α) (sought : α → Prop) (home steps : ℕ) : Prop :=
  ∀ i a, slot i = some a → sought a → steps ≤ distance n home i

theorem Ahead.pass (placed : Placed n ideal slot) {steps i : ℕ} (ahead : Ahead n slot sought home steps)
    (inside : home < n) (here : i < n) (reached : distance n home i = steps)
    (other : ∀ a, slot i = some a → ¬ sought a) : Ahead n slot sought home (steps + 1) := by
  intro j a taken wanted
  have least := ahead j a taken wanted
  by_cases same : distance n home j = steps
  · have equal : j = i := distance_inj inside (placed.inside j a taken).1 here (same.trans reached.symm)
    exact absurd wanted (other a (equal ▸ taken))
  · omega

/-- The search may stop at a free place, and at an element closer to home than it has come. -/
theorem Ahead.stop (placed : Placed n ideal slot) (homes : ∀ a, sought a → ideal a = home) {steps i : ℕ}
    (ahead : Ahead n slot sought home steps) (here : i < n) (reached : distance n home i = steps)
    (ends : ∀ b, slot i = some b → distance n (ideal b) i < steps) : ∀ j a, slot j = some a → ¬ sought a := by
  intro j a taken wanted
  have least := ahead j a taken wanted
  have same := homes a wanted
  obtain ⟨b, takenB, further⟩ := placed.run taken here (by rw [same]; omega)
  have closer := ends b takenB
  rw [same] at further
  omega

/-- After a full turn nothing is left to search. -/
theorem Ahead.turned (placed : Placed n ideal slot) (ahead : Ahead n slot sought home n) (inside : home < n) :
    ∀ j a, slot j = some a → ¬ sought a := by
  intro j a taken wanted
  have least := ahead j a taken wanted
  have bound := distance_lt inside (placed.inside j a taken).1
  omega

end Search

/-- A place that has just become free, from an element that was `away` from home. -/
structure Hole (n : ℕ) (ideal : α → ℕ) (slot : ℕ → Option α) (p away : ℕ) : Prop where
  inside : ∀ i a, slot i = some a → i < n ∧ ideal a < n
  place : p < n
  empty : slot p = none
  linked : ∀ i < n, i ≠ p → Linked n ideal slot i
  after : ∀ a, slot (next n p) = some a → distance n (ideal a) (next n p) ≤ away + 1
  before : 0 < away → ∃ q < n, next n q = p ∧ ∃ b, slot q = some b ∧ away ≤ distance n (ideal b) q + 1

theorem Placed.remove (placed : Placed n ideal slot) {p : ℕ} {a : α} (taken : slot p = some a) :
    Hole n ideal (Function.update slot p none) p (distance n (ideal a) p) := by
  obtain ⟨place, home⟩ := placed.inside p a taken
  refine ⟨?_, place, Function.update_self .., ?_, ?_, ?_⟩
  · intro i b takenB
    by_cases same : i = p
    · rw [same, Function.update_self] at takenB
      contradiction
    · rw [Function.update_of_ne same] at takenB
      exact placed.inside i b takenB
  · intro i inside other b takenB away
    by_cases here : next n i = p
    · rw [here, Function.update_self] at takenB
      contradiction
    · rw [Function.update_of_ne here] at takenB
      rw [Function.update_of_ne other]
      exact placed.linked i inside b takenB away
  · intro b takenB
    by_cases here : next n p = p
    · rw [here, Function.update_self] at takenB
      contradiction
    · rw [Function.update_of_ne here] at takenB
      by_cases away : 0 < distance n (ideal b) (next n p)
      · obtain ⟨c, takenC, near⟩ := placed.linked p place b takenB away
        rw [taken] at takenC
        cases takenC
        exact near
      · omega
  · intro away
    obtain ⟨q, insideQ, here⟩ := exists_before place
    obtain ⟨b, takenB, near⟩ := placed.linked q insideQ a (by rwa [here]) (by rwa [here])
    rw [here] at near
    refine ⟨q, insideQ, here, b, ?_, near⟩
    rw [Function.update_of_ne]
    · exact takenB
    · rintro rfl
      have around := distance_next_pos home insideQ (by rwa [here])
      rw [here] at around
      omega

/-- The element behind the free place moves up. -/
theorem Hole.shift {p away : ℕ} (hole : Hole n ideal slot p away) {a : α} (taken : slot (next n p) = some a)
    (off : 0 < distance n (ideal a) (next n p)) :
    Hole n ideal (Function.update (Function.update slot p (some a)) (next n p) none) (next n p)
      (distance n (ideal a) (next n p)) := by
  obtain ⟨inside, place, empty, linked, after, before⟩ := hole
  obtain ⟨place', home⟩ := inside _ a taken
  have step := distance_next_pos home place off
  have bound := after a taken
  have apart : p ≠ next n p := by
    intro same
    rw [← same, empty] at taken
    contradiction
  refine ⟨?_, place', Function.update_self .., ?_, ?_, ?_⟩
  · intro i b takenB
    by_cases new : i = next n p
    · rw [new, Function.update_self] at takenB
      contradiction
    rw [Function.update_of_ne new] at takenB
    by_cases old : i = p
    · rw [old, Function.update_self] at takenB
      cases takenB
      exact ⟨old ▸ place, home⟩
    · rw [Function.update_of_ne old] at takenB
      exact inside i b takenB
  · intro i insideI other b takenB off'
    by_cases new : next n i = next n p
    · rw [new, Function.update_self] at takenB
      contradiction
    rw [Function.update_of_ne new] at takenB
    have old : i ≠ p := fun same => new (by rw [same])
    rw [Function.update_of_ne other, Function.update_of_ne old]
    by_cases here : next n i = p
    · rw [here, Function.update_self] at takenB
      cases takenB
      rw [here] at off' ⊢
      obtain ⟨q, insideQ, stands, c, takenC, near⟩ := before (by omega)
      obtain rfl : q = i := next_inj insideQ insideI (stands.trans here.symm)
      exact ⟨c, takenC, by omega⟩
    · rw [Function.update_of_ne here] at takenB
      exact linked i insideI old b takenB off'
  · intro b takenB
    by_cases new : next n (next n p) = next n p
    · rw [new, Function.update_self] at takenB
      contradiction
    rw [Function.update_of_ne new] at takenB
    by_cases old : next n (next n p) = p
    · rw [old, Function.update_self] at takenB
      cases takenB
      rw [old]
      omega
    · rw [Function.update_of_ne old] at takenB
      by_cases off' : 0 < distance n (ideal b) (next n (next n p))
      · obtain ⟨c, takenC, near⟩ := linked (next n p) place' apart.symm b takenB off'
        rw [taken] at takenC
        cases takenC
        exact near
      · omega
  · intro _
    refine ⟨p, place, rfl, a, ?_, by omega⟩
    rw [Function.update_of_ne apart, Function.update_self]

/-- The shifting ends before a free place or an element at home. -/
theorem Hole.close {p away : ℕ} (hole : Hole n ideal slot p away)
    (done : ∀ a, slot (next n p) = some a → distance n (ideal a) (next n p) = 0) : Placed n ideal slot := by
  refine ⟨hole.inside, fun i inside => ?_⟩
  by_cases same : i = p
  · subst same
    intro a taken off
    rw [done a taken] at off
    contradiction
  · exact hole.linked i inside same

theorem sum_update (weight : ℕ → Option α → ℕ) (slot : ℕ → Option α) {p : ℕ} (inside : p < n) (new : Option α) :
    ∑ i ∈ Finset.range n, weight i (Function.update slot p new i) + weight p (slot p) =
      ∑ i ∈ Finset.range n, weight i (slot i) + weight p new := by
  have member : p ∈ Finset.range n := Finset.mem_range.mpr inside
  have rest : ∀ i ∈ (Finset.range n).erase p, weight i (Function.update slot p new i) = weight i (slot i) := by
    intro i other
    rw [Function.update_of_ne (Finset.ne_of_mem_erase other)]
  rw [← Finset.add_sum_erase _ _ member, ← Finset.add_sum_erase (Finset.range n) (fun i => weight i (slot i)) member,
    Finset.sum_congr rfl rest, Function.update_self]
  omega

def offset (n : ℕ) (ideal : α → ℕ) (i : ℕ) (held : Option α) : ℕ := (held.map fun a => distance n (ideal a) i).getD 0

def total (n : ℕ) (ideal : α → ℕ) (slot : ℕ → Option α) : ℕ := ∑ i ∈ Finset.range n, offset n ideal i (slot i)

/-- Each shift brings one element one step closer. -/
theorem Hole.total_shift {p away : ℕ} (hole : Hole n ideal slot p away) {a : α} (taken : slot (next n p) = some a)
    (off : 0 < distance n (ideal a) (next n p)) :
    total n ideal (Function.update (Function.update slot p (some a)) (next n p) none) + 1 = total n ideal slot := by
  obtain ⟨place', home⟩ := hole.inside _ a taken
  have step := distance_next_pos home hole.place off
  have apart : next n p ≠ p := by
    intro same
    rw [same, hole.empty] at taken
    contradiction
  have moved := sum_update (offset n ideal) slot hole.place (some a)
  have cleared := sum_update (offset n ideal) (Function.update slot p (some a)) place' none
  rw [Function.update_of_ne apart, taken] at cleared
  rw [hole.empty] at moved
  simp only [offset, Option.map_some, Option.map_none, Option.getD_some, Option.getD_none] at moved cleared
  simp only [total, offset]
  omega

theorem total_le (inside : ∀ i a, slot i = some a → i < n ∧ ideal a < n) : total n ideal slot ≤ n * n := by
  have each : ∀ i ∈ Finset.range n, offset n ideal i (slot i) ≤ n := by
    intro i member
    cases taken : slot i with
    | none => simp [offset]
    | some a => exact (distance_lt (inside i a taken).2 (Finset.mem_range.mp member)).le
  calc total n ideal slot ≤ ∑ _i ∈ Finset.range n, n := Finset.sum_le_sum each
    _ = n * n := by simp

end RobinHood
