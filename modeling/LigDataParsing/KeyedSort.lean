import Mathlib.Data.List.Destutter
import Mathlib.Data.List.Sort
import Mathlib.Order.Lattice

/-! Sorting by a key and dropping repeated keys, as `std::sort` followed by
`std::unique` does. The sort is any function meeting the standard's contract, so
the order of elements with equal keys stays open. -/
namespace KeyedSort

/-- A sorting function for the comparison `less`: it permutes its input, and no
element of the output precedes a smaller one. -/
structure Sorter (α : Type*) (less : α → α → Bool) where
  sort : List α → List α
  perm : ∀ l, (sort l).Perm l
  sorted : ∀ l, (sort l).Pairwise (fun a b => less b a = false)

/-- `std::unique`: the first element of every run of equivalent neighbours. -/
def unique {α : Type*} (same : α → α → Bool) (l : List α) : List α :=
  l.destutter (fun a b => same a b = false)

/-- Sorting, then dropping the repetitions that sorting has made neighbours. -/
def sortUnique {α : Type*} {less : α → α → Bool} (sorter : Sorter α less) (same : α → α → Bool)
    (l : List α) : List α :=
  unique same (sorter.sort l)

variable {α κ : Type*} {key : α → κ} {less same : α → α → Bool}

theorem unique_subset {a : α} {l : List α} (member : a ∈ unique same l) : a ∈ l :=
  (List.destutter_sublist _ l).subset member

theorem unique_covers (sameKey : ∀ a b, same a b = true ↔ key a = key b) (l : List α) :
    ∀ a ∈ l, ∃ b ∈ unique same l, key b = key a := by
  have from_head : ∀ (l : List α) (head : α), ∀ a ∈ head :: l,
      ∃ b ∈ l.destutter' (fun a b => same a b = false) head, key b = key a := by
    intro l
    induction l with
    | nil => simp
    | cons next l ih =>
      intro head a member
      by_cases distinct : same head next = false
      · rw [List.destutter'_cons, if_pos distinct]
        rcases List.mem_cons.mp member with rfl | later
        · exact ⟨a, List.mem_cons_self, rfl⟩
        · obtain ⟨b, kept, equal⟩ := ih next a later
          exact ⟨b, List.mem_cons_of_mem _ kept, equal⟩
      · rw [List.destutter'_cons, if_neg distinct]
        have headKey : key head = key next := (sameKey _ _).mp (by simpa using distinct)
        rcases List.mem_cons.mp member with rfl | later
        · exact ih a a List.mem_cons_self
        · rcases List.mem_cons.mp later with rfl | later
          · obtain ⟨b, kept, equal⟩ := ih head head List.mem_cons_self
            exact ⟨b, kept, equal.trans headKey⟩
          · exact ih head a (List.mem_cons_of_mem _ later)
  cases l with
  | nil => simp
  | cons head l => exact from_head l head

theorem sortUnique_subset (sorter : Sorter α less) {a : α} {l : List α}
    (member : a ∈ sortUnique sorter same l) : a ∈ l :=
  (sorter.perm l).mem_iff.mp (unique_subset member)

theorem length_sortUnique_le (sorter : Sorter α less) (l : List α) : (sortUnique sorter same l).length ≤ l.length :=
  (List.destutter_sublist _ _).length_le.trans (sorter.perm l).length_eq.le

theorem sortUnique_covers (sorter : Sorter α less)
    (sameKey : ∀ a b, same a b = true ↔ key a = key b) {a : α} {l : List α} (member : a ∈ l) :
    ∃ b ∈ sortUnique sorter same l, key b = key a :=
  unique_covers sameKey _ a ((sorter.perm l).mem_iff.mpr member)

theorem keys_sortUnique (sorter : Sorter α less)
    (sameKey : ∀ a b, same a b = true ↔ key a = key b) {l : List α} {k : κ} :
    k ∈ (sortUnique sorter same l).map key ↔ k ∈ l.map key := by
  constructor
  · intro kept
    obtain ⟨a, member, rfl⟩ := List.mem_map.mp kept
    exact List.mem_map_of_mem (sortUnique_subset sorter member)
  · intro given
    obtain ⟨a, member, rfl⟩ := List.mem_map.mp given
    obtain ⟨b, kept, equal⟩ := sortUnique_covers sorter sameKey member
    exact List.mem_map.mpr ⟨b, kept, equal⟩

theorem sortUnique_eq_nil_iff (sorter : Sorter α less)
    (sameKey : ∀ a b, same a b = true ↔ key a = key b) {l : List α} : sortUnique sorter same l = [] ↔ l = [] := by
  simp only [List.eq_nil_iff_forall_not_mem]
  constructor
  · intro nowhere a member
    obtain ⟨b, kept, _⟩ := sortUnique_covers sorter sameKey member
    exact nowhere b kept
  · exact fun nowhere a kept => nowhere a (sortUnique_subset sorter kept)

/-- Where keys identify elements, deduplication loses none of them. -/
theorem mem_sortUnique (sorter : Sorter α less)
    (sameKey : ∀ a b, same a b = true ↔ key a = key b) {l : List α}
    (identified : ∀ a ∈ l, ∀ b ∈ l, key a = key b → a = b) (a : α) :
    a ∈ sortUnique sorter same l ↔ a ∈ l := by
  refine ⟨sortUnique_subset sorter, fun member => ?_⟩
  obtain ⟨b, kept, equal⟩ := sortUnique_covers sorter sameKey member
  rwa [identified a member b (sortUnique_subset sorter kept) equal.symm]

theorem chain_and {R S : α → α → Prop} {l : List α} (first : l.IsChain R) (second : l.IsChain S) :
    l.IsChain (fun a b => R a b ∧ S a b) := by
  induction l with
  | nil => exact .nil
  | cons a l ih =>
    rw [List.isChain_cons] at first second ⊢
    exact ⟨fun b head => ⟨first.1 b head, second.1 b head⟩, ih first.2 second.2⟩

variable [LinearOrder κ]

variable (key) in
def Ascending (l : List α) : Prop := l.Pairwise (fun a b => key a < key b)

instance (l : List α) : Decidable (Ascending key l) :=
  inferInstanceAs (Decidable (l.Pairwise fun a b => key a < key b))

theorem Ascending.sublist {l l' : List α} (ascending : Ascending key l) (sub : l'.Sublist l) :
    Ascending key l' := List.Pairwise.sublist sub ascending

theorem Ascending.tail {a : α} {l : List α} (ascending : Ascending key (a :: l)) :
    Ascending key l := ascending.sublist (List.sublist_cons_self a l)

theorem Ascending.head_lt {a b : α} {l : List α} (ascending : Ascending key (a :: l))
    (member : b ∈ l) : key a < key b := List.rel_of_pairwise_cons ascending member

theorem Ascending.head_le {a b : α} {l : List α} (ascending : Ascending key (a :: l))
    (member : b ∈ a :: l) : key a ≤ key b := by
  rcases List.mem_cons.mp member with rfl | later
  · exact le_rfl
  · exact (ascending.head_lt later).le

theorem Ascending.key_injective {l : List α} (ascending : Ascending key l) {a b : α}
    (ha : a ∈ l) (hb : b ∈ l) (same : key a = key b) : a = b := by
  induction l with
  | nil => simp at ha
  | cons c l ih =>
    rcases List.mem_cons.mp ha with headA | tailA <;> rcases List.mem_cons.mp hb with headB | tailB
    · exact headA.trans headB.symm
    · exact absurd (headA ▸ same) (ascending.head_lt tailB).ne
    · exact absurd (headB ▸ same) (ascending.head_lt tailA).ne'
    · exact ih ascending.tail tailA tailB

theorem Ascending.nodup {l : List α} (ascending : Ascending key l) : l.Nodup :=
  List.Pairwise.imp (fun less same => absurd (congrArg key same) less.ne) ascending

/-- A property that passes to smaller keys holds on a prefix. -/
theorem Ascending.prefix_of_closed {l : List α} (ascending : Ascending key l) (p : α → Bool)
    (closed : ∀ a b, key a ≤ key b → p b = true → p a = true) :
    l = l.filter p ++ l.filter (fun a => !p a) := by
  induction l with
  | nil => rfl
  | cons a l ih =>
    cases holds : p a with
    | true =>
      rw [List.filter_cons_of_pos holds, List.filter_cons_of_neg (by simp [holds]), List.cons_append,
        ← ih ascending.tail]
    | false =>
      have filtered : l.filter p = [] := List.filter_eq_nil_iff.mpr fun b member positive => by
        simp [closed a b (ascending.head_lt member).le positive] at holds
      have all : l.filter (fun a => !p a) = l := List.filter_eq_self.mpr fun b member => by
        simpa using List.filter_eq_nil_iff.mp filtered b member
      rw [List.filter_cons_of_neg (by simp [holds]), List.filter_cons_of_pos (by simp [holds]), filtered, all,
        List.nil_append]

theorem Ascending.ext {l l' : List α} (ascending : Ascending key l) (ascending' : Ascending key l')
    (same : ∀ a, a ∈ l ↔ a ∈ l') : l = l' := by
  exact ((List.perm_ext_iff_of_nodup ascending.nodup ascending'.nodup).mpr same).eq_of_pairwise
    (fun _ _ _ _ ab ba => absurd (ab.trans ba) (lt_irrefl _)) ascending ascending'

theorem unique_ascending (sameKey : ∀ a b, same a b = true ↔ key a = key b) {l : List α}
    (sorted : l.Pairwise (fun a b => key a ≤ key b)) : Ascending key (unique same l) := by
  have chain := List.isChain_destutter (fun a b => same a b = false) l
  have kept := sorted.sublist (List.destutter_sublist (fun a b => same a b = false) l)
  have : Trans (fun a b => key a < key b) (fun a b => key a < key b) (fun a b => key a < key b) :=
    ⟨lt_trans⟩
  refine List.isChain_iff_pairwise.mp ((chain_and chain kept.isChain).imp ?_)
  intro a b ⟨distinct, ordered⟩
  refine lt_of_le_of_ne ordered fun equal => ?_
  simp [(sameKey a b).mpr equal] at distinct

theorem sortUnique_ascending (sorter : Sorter α less)
    (lessKey : ∀ a b, less a b = true ↔ key a < key b)
    (sameKey : ∀ a b, same a b = true ↔ key a = key b) (l : List α) :
    Ascending key (sortUnique sorter same l) := by
  refine unique_ascending sameKey ((sorter.sorted l).imp ?_)
  intro a b notLess
  exact not_lt.mp fun less => by simp [(lessKey b a).mpr less] at notLess

def insertionSorter (lessKey : ∀ a b, less a b = true ↔ key a < key b) : Sorter α less where
  sort l := l.insertionSort (fun a b => less b a = false)
  perm l := List.perm_insertionSort _ l
  sorted l := by
    have notLess (a b : α) : less b a = false ↔ key a ≤ key b := by
      rw [← not_lt, ← lessKey, Bool.not_eq_true]
    have : Std.Total (fun a b : α => less b a = false) := ⟨fun a b => by
      rw [notLess, notLess]
      exact le_total _ _⟩
    have : IsTrans α (fun a b : α => less b a = false) := ⟨fun a b c => by
      rw [notLess, notLess, notLess]
      exact le_trans⟩
    exact List.pairwise_insertionSort _ l

end KeyedSort
