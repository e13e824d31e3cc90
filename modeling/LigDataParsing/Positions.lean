import Mathlib.Algebra.BigOperators.Group.List.Basic
import Mathlib.Algebra.GroupWithZero.Nat
import Mathlib.Data.List.Perm.Basic
import Mathlib.Data.List.Sort

/-! Erasing positions of a list one at a time, largest first. Positions above zero
name distinct elements of the original list; zero may be erased several times and
then removes whatever stands in front. -/
namespace IndexedErase

variable {α : Type*}

/-- Largest index first, so that an erasure does not move the positions still to go. -/
def descending (indices : List ℕ) : List ℕ := indices.insertionSort (· ≥ ·)

def eraseAll (l : List α) (indices : List ℕ) : List α := indices.foldl List.eraseIdx l

/-- Every erasure meets a list that is long enough, starting from length `n`. -/
def InRange : List ℕ → ℕ → Prop
  | [], _ => True
  | i :: rest, n => i < n ∧ InRange rest (n - 1)

theorem descending_perm (indices : List ℕ) : (descending indices).Perm indices :=
  List.perm_insertionSort _ _

theorem descending_sorted (indices : List ℕ) : (descending indices).Pairwise (· ≥ ·) :=
  List.pairwise_insertionSort _ _

theorem eraseAll_sublist (l : List α) (indices : List ℕ) : (eraseAll l indices).Sublist l := by
  induction indices generalizing l with
  | nil => exact List.Sublist.refl l
  | cons i rest ih => exact (ih (l.eraseIdx i)).trans (List.eraseIdx_sublist l i)

theorem eraseAll_length {l : List α} {indices : List ℕ} (inRange : InRange indices l.length) :
    (eraseAll l indices).length + indices.length = l.length := by
  induction indices generalizing l with
  | nil => rfl
  | cons i rest ih =>
    have shorter := List.length_eraseIdx_of_lt inRange.1
    have tail := ih (l := l.eraseIdx i) (by rw [shorter]; exact inRange.2)
    have bound := inRange.1
    simp only [eraseAll, List.foldl_cons, List.length_cons] at tail ⊢
    omega

/-- Erasures that stay inside a prefix leave the rest of the list alone. -/
theorem eraseAll_append {front : List α} (back : List α) {indices : List ℕ}
    (inRange : InRange indices front.length) :
    eraseAll (front ++ back) indices = eraseAll front indices ++ back := by
  induction indices generalizing front with
  | nil => rfl
  | cons i rest ih =>
    simp only [eraseAll, List.foldl_cons]
    rw [List.eraseIdx_append_of_lt_length inRange.1]
    refine ih ?_
    rw [List.length_eraseIdx_of_lt inRange.1]
    exact inRange.2

/-- Positions in descending order that repeat only at zero and are no more than the
list is long stay in range until the last. -/
theorem inRange_of_sorted {indices : List ℕ} {n : ℕ} (sorted : indices.Pairwise (· ≥ ·))
    (bounded : ∀ i ∈ indices, i < n) (distinct : (indices.filter (· ≠ 0)).Nodup)
    (enough : indices.length ≤ n) : InRange indices n := by
  induction indices generalizing n with
  | nil => trivial
  | cons i rest ih =>
    obtain ⟨largest, sorted⟩ := List.pairwise_cons.mp sorted
    rw [List.length_cons] at enough
    refine ⟨bounded i List.mem_cons_self, ih sorted ?_ ?_ (by omega)⟩
    · intro j member
      have le := largest j member
      have lt := bounded i List.mem_cons_self
      have positive := List.length_pos_of_mem member
      by_cases zero : j = 0
      · omega
      · -- a repeated positive index would break `distinct`
        have nonzero : i ≠ 0 := by omega
        rw [List.filter_cons_of_pos (by simpa using nonzero), List.nodup_cons] at distinct
        have : j ≠ i := by
          rintro rfl
          exact distinct.1 (List.mem_filter.mpr ⟨member, by simpa using nonzero⟩)
        omega
    · exact distinct.sublist ((List.sublist_cons_self i rest).filter _)

theorem InRange.of_descending {indices : List ℕ} {n : ℕ} (bounded : ∀ i ∈ indices, i < n)
    (distinct : (indices.filter (· ≠ 0)).Nodup) (enough : indices.length ≤ n) :
    InRange (descending indices) n := by
  have perm := descending_perm indices
  refine inRange_of_sorted (descending_sorted indices) ?_ ?_ (perm.length_eq ▸ enough)
  · exact fun i member => bounded i (perm.mem_iff.mp member)
  · exact (perm.filter _).nodup_iff.mpr distinct

/-- Distinct positions erased from the largest down remove exactly the elements that
stood there. -/
theorem mem_eraseAll {l : List α} (nodup : l.Nodup) {indices : List ℕ}
    (sorted : indices.Pairwise (· > ·)) {a : α} :
    a ∈ eraseAll l indices ↔ a ∈ l ∧ ∀ i ∈ indices, l[i]? ≠ some a := by
  induction indices generalizing l with
  | nil => simp [eraseAll]
  | cons i rest ih =>
    obtain ⟨largest, sorted⟩ := List.pairwise_cons.mp sorted
    have erased : a ∈ l.eraseIdx i ↔ a ∈ l ∧ l[i]? ≠ some a := by
      rw [List.mem_eraseIdx_iff_getElem?]
      constructor
      · rintro ⟨j, other, held⟩
        refine ⟨List.mem_of_getElem? held, fun same => other ?_⟩
        have bound := (List.getElem?_eq_some_iff.mp held).1
        exact (List.getElem?_inj bound nodup).mp (held.trans same.symm)
      · rintro ⟨member, notHere⟩
        obtain ⟨j, held⟩ := List.mem_iff_getElem?.mp member
        exact ⟨j, fun same => notHere (same ▸ held), held⟩
    have untouched : ∀ j ∈ rest, (l.eraseIdx i)[j]? = l[j]? := fun j member =>
      List.getElem?_eraseIdx_of_lt (largest j member)
    change a ∈ eraseAll (l.eraseIdx i) rest ↔ _
    rw [ih (nodup.eraseIdx i) sorted, erased, List.forall_mem_cons, and_assoc]
    refine and_congr_right fun _ => and_congr_right fun _ => ?_
    exact forall₂_congr fun j member => by rw [untouched j member]

theorem eraseAll_zeros (l : List α) (count : ℕ) :
    eraseAll l (List.replicate count 0) = l.drop count := by
  induction count generalizing l with
  | zero => rfl
  | succ count ih =>
    simp only [eraseAll, List.replicate_succ, List.foldl_cons, List.eraseIdx_zero]
    exact (ih l.tail).trans List.drop_tail

theorem descending_eq {indices sorted : List ℕ} (perm : sorted.Perm indices)
    (ordered : sorted.Pairwise (· ≥ ·)) : descending indices = sorted := by
  refine ((descending_perm indices).trans perm.symm).eq_of_pairwise ?_ (descending_sorted _) ordered
  exact fun a b _ _ ge le => le_antisymm le ge

/-- The zeros come last. -/
theorem eraseAll_zeros_last (l : List α) {indices front : List ℕ} {count : ℕ}
    (perm : indices.Perm (front ++ List.replicate count 0)) :
    eraseAll l (descending indices) = (eraseAll l (descending front)).drop count := by
  have split : descending indices = descending front ++ List.replicate count 0 := by
    refine descending_eq (((descending_perm front).append_right _).trans perm.symm) ?_
    rw [List.pairwise_append]
    refine ⟨descending_sorted _, by simp [List.pairwise_replicate], ?_⟩
    intro a _ b zero
    rw [List.eq_of_mem_replicate zero]
    exact Nat.zero_le a
  rw [split, eraseAll, List.foldl_append]
  exact eraseAll_zeros _ count

theorem descending_strict {indices : List ℕ} (distinct : indices.Nodup) :
    (descending indices).Pairwise (· > ·) := by
  have nodup := (descending_perm indices).nodup_iff.mpr distinct
  exact ((descending_sorted indices).and nodup).imp fun ⟨ge, ne⟩ => lt_of_le_of_ne ge (Ne.symm ne)

end IndexedErase

/-! Writing one slot of a list: what the list holds changes by the old and the new content. -/
namespace Slots

variable {α β : Type*} {slots : List α} {i : ℕ} {old : α}

theorem set_perm (held : slots[i]? = some old) (new : α) : (old :: slots.set i new).Perm (new :: slots) := by
  simpa [held] using List.getD_set_perm_cons slots i new

theorem filterMap_set_perm (kind : α → Option β) (held : slots[i]? = some old) (new : α) :
    ((kind old).toList ++ (slots.set i new).filterMap kind).Perm ((kind new).toList ++ slots.filterMap kind) := by
  have moved := (set_perm held new).filterMap kind
  have split (a : α) (rest : List α) :
      (a :: rest).filterMap kind = (kind a).toList ++ rest.filterMap kind := by
    cases shown : kind a <;> simp [shown]
  rwa [split, split] at moved

theorem map_set_same {f : α → β} {new : α} (held : slots[i]? = some old) (same : f new = f old) :
    (slots.set i new).map f = slots.map f := by
  obtain ⟨inside, rfl⟩ := List.getElem?_eq_some_iff.mp held
  rw [List.map_set, same, ← List.getElem_map f (h := by simpa using inside)]
  exact List.set_getElem_self _

theorem sum_map_set (weight : α → ℕ) (held : slots[i]? = some old) (new : α) :
    weight old + ((slots.set i new).map weight).sum = weight new + (slots.map weight).sum := by
  have moved := ((set_perm held new).map weight).sum_eq
  simpa using moved

theorem countP_set (p : α → Bool) (held : slots[i]? = some old) (new : α) :
    (slots.set i new).countP p + (if p old then 1 else 0) = slots.countP p + (if p new then 1 else 0) := by
  have moved := (set_perm held new).countP_eq p
  simpa [List.countP_cons] using moved

end Slots
