import Mathlib.Data.List.Sort
import LigDataParsing.Backtrack

/-! Choices from some lists of a sequence, each element with the place it was taken from,
so that equal elements stay apart: what the searches over all choices of `k` lists find,
and in which order. -/
namespace Backtrack

variable {α : Type*} {fits : α → α → Bool}

structure Pick (α : Type*) where
  list : ℕ
  position : ℕ
  element : α

def Pick.Stands (lists : List (List α)) (pick : Pick α) : Prop :=
  (lists.getD pick.list [])[pick.position]? = some pick.element

def picksOf (lists : List (List α)) (list : ℕ) : List (Pick α) :=
  (lists.getD list []).zipIdx.map fun e => ⟨list, e.2, e.1⟩

variable (fits) in
/-- The choices from every `k` lists that are compatible, with their places. -/
def selections (lists : List (List α)) (k : ℕ) : List (List (Pick α)) :=
  (combinations k (List.range lists.length)).flatMap fun combination =>
    extensions (fun a b => fits a.element b.element) (combination.map (picksOf lists)) []

/-- The order of the lists chosen from, then that of the positions in them. -/
def Before (x y : List (Pick α)) : Prop :=
  x.map Pick.list < y.map Pick.list ∨
    x.map Pick.list = y.map Pick.list ∧ x.map Pick.position < y.map Pick.position

theorem mem_picksOf {lists : List (List α)} {list : ℕ} {pick : Pick α} :
    pick ∈ picksOf lists list ↔ pick.list = list ∧ pick.Stands lists := by
  simp only [picksOf, List.mem_map, List.mem_zipIdx_iff_getElem?, Pick.Stands]
  constructor
  · rintro ⟨e, held, rfl⟩
    exact ⟨rfl, held⟩
  · rintro ⟨rfl, stands⟩
    exact ⟨(pick.element, pick.position), stands, rfl⟩

theorem picksOf_sorted (lists : List (List α)) (list : ℕ) :
    (picksOf lists list).Pairwise fun a b => a.position < b.position := by
  have positions : (picksOf lists list).map Pick.position = List.range (lists.getD list []).length := by
    rw [picksOf, List.map_map]
    exact List.zipIdx_map_snd 0 _ |>.trans List.range_eq_range'.symm
  rw [← List.pairwise_map, positions]
  exact List.pairwise_lt_range

theorem choice_picksOf {lists : List (List α)} {combination : List ℕ} {x : List (Pick α)} :
    Choice x (combination.map (picksOf lists)) ↔
      x.map Pick.list = combination ∧ ∀ pick ∈ x, pick.Stands lists := by
  rw [Choice, List.forall₂_map_right_iff]
  induction combination generalizing x with
  | nil =>
    cases x with
    | nil => simp
    | cons pick x => simp
  | cons list combination ih =>
    cases x with
    | nil => simp
    | cons pick x =>
      rw [List.forall₂_cons, mem_picksOf, ih, List.map_cons, List.cons.injEq, List.forall_mem_cons]
      tauto

/-- Without their places the selections are the searches over the chosen lists. -/
theorem selections_elements (lists : List (List α)) (k : ℕ) :
    (selections fits lists k).map (List.map Pick.element) =
      (combinations k (List.range lists.length)).flatMap fun combination =>
        extensions fits (combination.map (lists.getD · [])) [] := by
  rw [selections, List.map_flatMap]
  apply List.flatMap_congr
  intro combination _
  rw [← extensions_map, List.map_map]
  congr 1
  apply List.map_congr_left
  intro list _
  rw [Function.comp_apply, picksOf, List.map_map]
  exact List.zipIdx_map_fst 0 _

theorem selections_sorted (lists : List (List α)) (k : ℕ) : (selections fits lists k).Pairwise Before := by
  rw [selections, List.pairwise_flatMap]
  constructor
  · intro combination _
    have ordered : ∀ list ∈ combination.map (picksOf lists),
        list.Pairwise fun a b => a.position < b.position := by
      intro list member
      obtain ⟨i, _, rfl⟩ := List.mem_map.mp member
      exact picksOf_sorted lists i
    refine (extensions_sorted Pick.position ordered []).imp_of_mem fun foundX foundY less => .inr ⟨?_, less⟩
    rw [(choice_picksOf.mp (mem_extensions_nil.mp foundX).1).1, (choice_picksOf.mp (mem_extensions_nil.mp foundY).1).1]
  · refine (combinations_sorted List.pairwise_lt_range k).imp fun less x foundX y foundY => .inl ?_
    rwa [(choice_picksOf.mp (mem_extensions_nil.mp foundX).1).1,
      (choice_picksOf.mp (mem_extensions_nil.mp foundY).1).1]

/-- A selection takes `k` lists in increasing order, an element that stands in each, and
every earlier element fits the later ones. -/
theorem mem_selections {lists : List (List α)} {k : ℕ} {x : List (Pick α)} :
    x ∈ selections fits lists k ↔
      x.length = k ∧ (x.map Pick.list).Pairwise (· < ·) ∧ (∀ pick ∈ x, pick.Stands lists) ∧
        Compatible fits (x.map Pick.element) := by
  have compatible : Compatible (fun a b : Pick α => fits a.element b.element) x ↔
      Compatible fits (x.map Pick.element) := by rw [Compatible, Compatible, List.pairwise_map]
  simp only [selections, List.mem_flatMap, mem_combinations, mem_extensions_nil, choice_picksOf, compatible]
  constructor
  · rintro ⟨_, ⟨sub, length⟩, ⟨rfl, stands⟩, fit⟩
    exact ⟨by simpa using length, List.pairwise_lt_range.sublist sub, stands, fit⟩
  · rintro ⟨length, sorted, stands, fit⟩
    refine ⟨x.map Pick.list, ⟨?_, by simpa using length⟩, ⟨rfl, stands⟩, fit⟩
    have inside : x.map Pick.list ⊆ List.range lists.length := by
      intro i member
      obtain ⟨pick, inX, rfl⟩ := List.mem_map.mp member
      have held := stands pick inX
      rw [List.mem_range]
      by_contra outside
      simp [Pick.Stands, List.getD_eq_getElem?_getD, not_lt.mp outside] at held
    have distinct : (x.map Pick.list).Nodup := sorted.imp fun less => less.ne
    exact List.sublist_of_subperm_of_pairwise (List.subperm_of_subset distinct inside) sorted
      List.pairwise_lt_range

theorem combinations_range (n : ℕ) : combinations n (List.range n) = [List.range n] := by
  have whole := combinations_length (List.range n)
  rwa [List.length_range] at whole

theorem mem_selections_all {lists : List (List α)} {x : List (Pick α)} :
    x ∈ selections fits lists lists.length ↔
      x.map Pick.list = List.range lists.length ∧ (∀ pick ∈ x, pick.Stands lists) ∧
        Compatible fits (x.map Pick.element) := by
  rw [selections, combinations_range, List.flatMap_singleton, mem_extensions_nil, choice_picksOf, and_assoc,
    Compatible, Compatible, List.pairwise_map]

end Backtrack
