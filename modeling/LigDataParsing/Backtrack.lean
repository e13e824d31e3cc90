import Mathlib.Data.List.Forall2

/-! Depth-first choice of one element from each list of a sequence, pruned as soon as
an element does not fit one chosen before it, and choice of `k` elements of a list in
lexicographic order of their positions. -/
namespace Backtrack

variable {α : Type*} (fits : α → α → Bool)

/-- Every extension of `chosen` by one element of each list, in the order a
depth-first search meets them. -/
def extensions : List (List α) → List α → List (List α)
  | [], chosen => [chosen]
  | candidates :: rest, chosen => candidates.flatMap fun a =>
      if chosen.all (fits · a) then extensions rest (chosen ++ [a]) else []

def Choice (picks : List α) (lists : List (List α)) : Prop := List.Forall₂ (· ∈ ·) picks lists

/-- All choices made in list order whose earlier elements fit the later ones. -/
def Compatible (picks : List α) : Prop := picks.Pairwise (fun a b => fits a b = true)

variable {fits}

theorem mem_extensions {lists : List (List α)} {chosen x : List α} :
    x ∈ extensions fits lists chosen ↔
      ∃ picks, x = chosen ++ picks ∧ Choice picks lists ∧ Compatible fits picks ∧
        ∀ a ∈ chosen, ∀ b ∈ picks, fits a b = true := by
  induction lists generalizing chosen with
  | nil =>
    simp only [extensions, List.mem_singleton]
    constructor
    · rintro rfl
      exact ⟨[], by simp, .nil, .nil, by simp⟩
    · rintro ⟨picks, rfl, choice, _⟩
      cases choice
      simp
  | cons candidates rest ih =>
    simp only [extensions, List.mem_flatMap]
    constructor
    · rintro ⟨a, member, found⟩
      split at found
      · rename_i fit
        rw [List.all_eq_true] at fit
        obtain ⟨picks, rfl, choice, compatible, apart⟩ := ih.mp found
        refine ⟨a :: picks, by simp, .cons member choice, .cons ?_ compatible, ?_⟩
        · exact fun b hb => apart a (by simp) b hb
        · intro c hc b hb
          rcases List.mem_cons.mp hb with rfl | hb
          · exact fit c hc
          · exact apart c (by simp [hc]) b hb
      · simp at found
    · rintro ⟨picks, rfl, choice, compatible, apart⟩
      cases choice with
      | cons member choice =>
        rename_i a picks
        obtain ⟨head, compatible⟩ := List.pairwise_cons.mp compatible
        have fit : chosen.all (fits · a) = true :=
          List.all_eq_true.mpr fun c hc => apart c hc a List.mem_cons_self
        refine ⟨a, member, ?_⟩
        rw [if_pos fit]
        refine ih.mpr ⟨picks, by simp, choice, compatible, ?_⟩
        intro c hc b hb
        rcases List.mem_append.mp hc with hc | hc
        · exact apart c hc b (List.mem_cons_of_mem _ hb)
        · rw [List.mem_singleton.mp hc]
          exact head b hb

/-- From an empty start the search finds exactly the compatible choices. -/
theorem mem_extensions_nil {lists : List (List α)} {x : List α} :
    x ∈ extensions fits lists [] ↔ Choice x lists ∧ Compatible fits x := by
  simp [mem_extensions]

theorem Choice.length {picks : List α} {lists : List (List α)} (choice : Choice picks lists) :
    picks.length = lists.length := List.Forall₂.length_eq choice

theorem Choice.exists_list {picks : List α} {lists : List (List α)} (choice : Choice picks lists) {a : α}
    (member : a ∈ picks) : ∃ list ∈ lists, a ∈ list := by
  induction choice with
  | nil => simp at member
  | cons here _ ih =>
    rcases List.mem_cons.mp member with rfl | later
    · exact ⟨_, List.mem_cons_self, here⟩
    · obtain ⟨list, inLists, inList⟩ := ih later
      exact ⟨list, List.mem_cons_of_mem _ inLists, inList⟩

/-- Leaving one list out of a compatible choice leaves a compatible choice. -/
theorem extensions_leave_out {before after : List (List α)} {list : List α}
    (found : extensions fits (before ++ list :: after) [] ≠ []) :
    extensions fits (before ++ after) [] ≠ [] := by
  obtain ⟨x, member⟩ := List.exists_mem_of_ne_nil _ found
  obtain ⟨choice, compatible⟩ := mem_extensions_nil.mp member
  obtain ⟨first, second, rfl, choice₁, choice₂⟩ :
      ∃ first second, x = first ++ second ∧ Choice first before ∧ Choice second (list :: after) := by
    refine ⟨x.take before.length, x.drop before.length, (List.take_append_drop _ x).symm, ?_, ?_⟩
    · exact List.forall₂_take_append x before (list :: after) choice
    · exact List.forall₂_drop_append x before (list :: after) choice
  cases choice₂ with
  | cons _ choice₂ =>
    rename_i a second _
    refine List.ne_nil_of_mem (mem_extensions_nil.mpr ⟨?_, ?_⟩ :
      first ++ second ∈ extensions fits (before ++ after) [])
    · exact List.rel_append choice₁ choice₂
    · exact compatible.sublist ((List.Sublist.refl first).append (List.sublist_cons_self a second))

/-- Choices of `k` elements in list order, lexicographic in their positions. -/
def combinations {β : Type*} : ℕ → List β → List (List β)
  | 0, _ => [[]]
  | _ + 1, [] => []
  | k + 1, a :: rest => (combinations k rest).map (a :: ·) ++ combinations (k + 1) rest

theorem combinations_of_length_lt {β : Type*} {k : ℕ} {l : List β} (short : l.length < k) :
    combinations k l = [] := by
  induction l generalizing k with
  | nil =>
    cases k with
    | zero => simp at short
    | succ k => rfl
  | cons a rest ih =>
    cases k with
    | zero => simp at short
    | succ k =>
      simp only [List.length_cons] at short
      simp [combinations, ih (show rest.length < k by omega), ih (show rest.length < k + 1 by omega)]

theorem combinations_length {β : Type*} (l : List β) : combinations l.length l = [l] := by
  induction l with
  | nil => rfl
  | cons a rest ih => simp [combinations, ih, combinations_of_length_lt (Nat.lt_succ_self _)]

instance (picks : List α) : Decidable (Compatible fits picks) :=
  inferInstanceAs (Decidable (picks.Pairwise fun a b => fits a b = true))

/-- Pruning drops the incompatible choices and keeps the order of the others. -/
theorem extensions_eq_filter {lists : List (List α)} {chosen : List α} (compatible : Compatible fits chosen) :
    extensions fits lists chosen =
      (extensions (fun _ _ => true) lists chosen).filter fun x => decide (Compatible fits x) := by
  induction lists generalizing chosen with
  | nil => simp [extensions, compatible]
  | cons candidates rest ih =>
    simp only [extensions, List.filter_flatMap, List.all_eq_true, implies_true, if_true]
    apply List.flatMap_congr
    intro a _
    split_ifs with fit
    · refine ih (List.pairwise_append.mpr ⟨compatible, List.pairwise_singleton _ a, ?_⟩)
      intro b member c last
      exact List.mem_singleton.mp last ▸ fit b member
    · refine (List.filter_eq_nil_iff.mpr fun x found => ?_).symm
      obtain ⟨picks, rfl, _⟩ := mem_extensions.mp found
      rw [decide_eq_true_eq, Compatible, List.append_assoc, List.pairwise_append]
      exact fun ⟨_, _, apart⟩ => fit fun b member => apart b member a (by simp)

theorem extensions_map {β : Type*} (f : β → α) (lists : List (List β)) (chosen : List β) :
    extensions fits (lists.map (List.map f)) (chosen.map f) =
      (extensions (fun a b => fits (f a) (f b)) lists chosen).map (List.map f) := by
  induction lists generalizing chosen with
  | nil => rfl
  | cons candidates rest ih =>
    simp only [List.map_cons, extensions, List.flatMap_map, List.map_flatMap]
    apply List.flatMap_congr
    intro a _
    have extended : chosen.map f ++ [f a] = (chosen ++ [a]).map f := by simp
    have tested : (chosen.map f).all (fits · (f a)) = chosen.all fun b => fits (f b) (f a) := List.all_map
    rw [tested, extended, ih]
    split_ifs <;> rfl

/-- Lists in increasing order are searched in lexicographic order. -/
theorem extensions_sorted {κ : Type*} [LT κ] (key : α → κ) {lists : List (List α)}
    (sorted : ∀ list ∈ lists, list.Pairwise fun a b => key a < key b) (chosen : List α) :
    (extensions fits lists chosen).Pairwise fun x y => x.map key < y.map key := by
  induction lists generalizing chosen with
  | nil => exact List.pairwise_singleton _ _
  | cons candidates rest ih =>
    obtain ⟨here, later⟩ := List.forall_mem_cons.mp sorted
    rw [extensions, List.pairwise_flatMap]
    constructor
    · intro a _
      split_ifs
      · exact ih later _
      · exact .nil
    · refine here.imp fun {a b} less x foundX y foundY => ?_
      split_ifs at foundX foundY
      · obtain ⟨picks, rfl, _⟩ := mem_extensions.mp foundX
        obtain ⟨picks', rfl, _⟩ := mem_extensions.mp foundY
        simp only [List.map_append, List.append_assoc]
        exact List.append_left_lt (List.cons_lt_cons_iff.mpr (.inl less))
      · simp at foundY
      · simp at foundX
      · simp at foundX

theorem mem_combinations {β : Type*} {k : ℕ} {l x : List β} :
    x ∈ combinations k l ↔ x.Sublist l ∧ x.length = k := by
  induction l generalizing k x with
  | nil =>
    cases k with
    | zero => simp [combinations]
    | succ k =>
      simp only [combinations, List.not_mem_nil, List.sublist_nil, false_iff, not_and]
      rintro rfl
      simp
  | cons a rest ih =>
    cases k with
    | zero =>
      simp only [combinations, List.mem_singleton, List.length_eq_zero_iff]
      constructor
      · rintro rfl
        exact ⟨List.nil_sublist _, rfl⟩
      · exact And.right
    | succ k =>
      simp only [combinations, List.mem_append, List.mem_map, ih]
      constructor
      · rintro (⟨y, ⟨sub, length⟩, rfl⟩ | ⟨sub, length⟩)
        · exact ⟨sub.cons_cons a, by rw [List.length_cons, length]⟩
        · exact ⟨sub.cons a, length⟩
      · rintro ⟨sub, length⟩
        cases sub with
        | cons _ sub => exact .inr ⟨sub, length⟩
        | cons_cons _ sub => exact .inl ⟨_, ⟨sub, Nat.succ.inj length⟩, rfl⟩

theorem combinations_sorted {β : Type*} [LT β] {l : List β} (sorted : l.Pairwise (· < ·)) (k : ℕ) :
    (combinations k l).Pairwise (· < ·) := by
  induction l generalizing k with
  | nil =>
    cases k with
    | zero => exact List.pairwise_singleton _ _
    | succ k => exact .nil
  | cons a rest ih =>
    obtain ⟨first, sorted⟩ := List.pairwise_cons.mp sorted
    cases k with
    | zero => exact List.pairwise_singleton _ _
    | succ k =>
      rw [combinations, List.pairwise_append]
      refine ⟨?_, ih sorted (k + 1), ?_⟩
      · exact List.pairwise_map.mpr ((ih sorted k).imp List.Lex.cons)
      · intro x inFirst y inRest
        obtain ⟨x, _, rfl⟩ := List.mem_map.mp inFirst
        obtain ⟨sub, length⟩ := mem_combinations.mp inRest
        cases y with
        | nil => simp at length
        | cons b y => exact List.Lex.rel (first b (sub.subset List.mem_cons_self))

end Backtrack
