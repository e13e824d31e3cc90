import Mathlib.Data.List.Nodup
import Mathlib.Logic.Function.Basic
import Mathlib.Order.Lattice

/-! The two map types a C++ program reads with `operator[]`: tables, where looking up
an absent key inserts a default, and maps that keep their keys in insertion order. -/
namespace Lookup

/-- An unordered map, seen through its lookups. -/
def Table (κ ν : Type*) := κ → Option ν

namespace Table

variable {κ ν : Type*} [DecidableEq κ]

instance : Inhabited (Table κ ν) := ⟨fun _ => none⟩

def find (m : Table κ ν) (k : κ) : Option ν := m k

def assign (m : Table κ ν) (k : κ) (v : ν) : Table κ ν :=
  fun other => if other = k then some v else m other

variable [Inhabited ν]

def value (m : Table κ ν) (k : κ) : ν := (m.find k).getD default

/-- What `operator[]` leaves behind: an absent key now holds the default. -/
def touch (m : Table κ ν) (k : κ) : Table κ ν := m.assign k (m.value k)

omit [Inhabited ν] in
@[simp] theorem find_assign_same (m : Table κ ν) (k : κ) (v : ν) : (m.assign k v).find k = some v := by
  simp [find, assign]

omit [Inhabited ν] in
@[simp] theorem find_assign_other (m : Table κ ν) {k other : κ} (v : ν) (h : other ≠ k) :
    (m.assign k v).find other = m.find other := by
  simp [find, assign, h]

@[simp] theorem value_touch (m : Table κ ν) (k other : κ) : (m.touch k).value other = m.value other := by
  by_cases h : other = k
  · subst h; simp [touch, value]
  · simp [touch, value, h]

theorem touch_value (m : Table κ ν) (k : κ) : (m.touch k).value = m.value := funext (value_touch m k)

omit [DecidableEq κ] in
theorem value_of_find {m : Table κ ν} {k : κ} {v : ν} (h : m.find k = some v) : m.value k = v := by
  simp [value, h]

omit [DecidableEq κ] in
theorem value_of_absent {m : Table κ ν} {k : κ} (h : m.find k = none) : m.value k = default := by
  simp [value, h]

omit [DecidableEq κ] [Inhabited ν] in
theorem find_default (k : κ) : (default : Table κ ν).find k = none := rfl

theorem touch_of_present {m : Table κ ν} {k : κ} (h : (m.find k).isSome) : m.touch k = m := by
  obtain ⟨v, hv⟩ := Option.isSome_iff_exists.mp h
  funext other
  by_cases same : other = k
  · subst same
    rw [find] at hv
    simp [touch, value, find, assign, hv]
  · simp [touch, assign, same]

theorem find_touch_isSome (m : Table κ ν) (k other : κ) :
    ((m.touch k).find other).isSome ↔ other = k ∨ (m.find other).isSome := by
  by_cases h : other = k
  · subst h; simp [touch]
  · simp [touch, h]

end Table

abbrev Table2 (κ ν : Type*) := Table κ (Table κ ν)

namespace Table2

variable {κ ν : Type*} [DecidableEq κ] [Inhabited ν]

def value (m : Table2 κ ν) (a b : κ) : ν := (Table.value m a).value b

def touch (m : Table2 κ ν) (a b : κ) : Table2 κ ν := Table.assign m a ((Table.value m a).touch b)

def assign (m : Table2 κ ν) (a b : κ) (v : ν) : Table2 κ ν :=
  Table.assign m a ((Table.value m a).assign b v)

def Present (m : Table2 κ ν) (a b : κ) : Prop := ∃ row, Table.find m a = some row ∧ (row.find b).isSome

@[simp] theorem value_touch (m : Table2 κ ν) (a b c d : κ) : (touch m a b).value c d = m.value c d := by
  by_cases h : c = a
  · subst h; simp [touch, value, Table.value_of_find (Table.find_assign_same m c _)]
  · simp [touch, value, Table.value, h]

theorem touch_of_present {m : Table2 κ ν} {a b : κ} (h : Present m a b) : touch m a b = m := by
  obtain ⟨row, atA, atB⟩ := h
  have unchanged : (Table.value m a).touch b = row := by
    rw [Table.value_of_find atA, Table.touch_of_present atB]
  funext other
  by_cases same : other = a
  · subst same
    simpa [touch, unchanged, Table.find, Table.assign] using atA.symm
  · simp [touch, Table.assign, same]

theorem present_touch (m : Table2 κ ν) (a b : κ) : Present (touch m a b) a b := by
  refine ⟨_, Table.find_assign_same m a _, ?_⟩
  simp [Table.find_touch_isSome]

theorem Present.touch {m : Table2 κ ν} {c d : κ} (h : Present m c d) (a b : κ) :
    Present (touch m a b) c d := by
  obtain ⟨row, atC, atD⟩ := h
  by_cases same : c = a
  · subst same
    refine ⟨_, Table.find_assign_same m c _, ?_⟩
    rw [Table.value_of_find atC, Table.find_touch_isSome]
    exact .inr atD
  · refine ⟨row, ?_, atD⟩
    rw [Table2.touch, Table.find_assign_other _ _ same, atC]

omit [Inhabited ν] in
theorem present_assign {m : Table2 κ ν} {a b c d : κ} {v : ν} :
    Present (assign m a b v) c d ↔ c = a ∧ d = b ∨ Present m c d := by
  by_cases sameRow : c = a
  · subst sameRow
    have row (w : Table κ ν) : Table.find (assign m c b v) c = some w ↔ (Table.value m c).assign b v = w := by
      simp [assign]
    simp only [Present, row, true_and]
    by_cases sameKey : d = b
    · subst sameKey
      simp
    · cases found : Table.find m c with
      | none => simp [sameKey, Table.value_of_absent found, Table.find_default]
      | some row => simp [sameKey, Table.value_of_find found]
  · simp [Present, assign, Table.find_assign_other _ _ sameRow, sameRow]

theorem value_assign (m : Table2 κ ν) (a b c d : κ) (v : ν) :
    value (assign m a b v) c d = if c = a ∧ d = b then v else value m c d := by
  by_cases sameRow : c = a
  · subst sameRow
    have row : value (assign m c b v) c d = Table.value ((Table.value m c).assign b v) d := by
      rw [value, assign, Table.value_of_find (Table.find_assign_same m c _)]
    rw [row]
    by_cases sameKey : d = b
    · simp [sameKey, Table.value]
    · simp [sameKey, Table.value, value]
  · simp [value, assign, Table.value, Table.find_assign_other _ _ sameRow, sameRow]

/-- What lookups do to a table of tables: no value read from it changes and no entry
goes away. -/
structure Grown (m m' : Table2 κ ν) : Prop where
  value : m'.value = m.value
  present : ∀ a b, Present m a b → Present m' a b

omit [DecidableEq κ] in
theorem Grown.refl (m : Table2 κ ν) : Grown m m := ⟨rfl, fun _ _ h => h⟩

omit [DecidableEq κ] in
theorem Grown.trans {m m' m'' : Table2 κ ν} (first : Grown m m') (second : Grown m' m'') :
    Grown m m'' :=
  ⟨second.value.trans first.value, fun a b h => second.present a b (first.present a b h)⟩

theorem Grown.touch {m m' : Table2 κ ν} (grown : Grown m m') (a b : κ) : Grown m (touch m' a b) := by
  refine grown.trans ⟨?_, fun c d h => h.touch a b⟩
  funext c d
  exact value_touch m' a b c d

def Covers (m : Table2 κ ν) (keys : List κ) : Prop := ∀ a ∈ keys, ∀ b ∈ keys, Present m a b

end Table2

/-- A map that lists its entries in the order their keys came in. -/
structure OrderedMap (κ ν : Type*) where
  entries : List (κ × ν)
  nodup : (entries.map Prod.fst).Nodup

namespace OrderedMap

variable {κ ν : Type*}

def empty : OrderedMap κ ν := ⟨[], List.nodup_nil⟩

def keys (m : OrderedMap κ ν) : List κ := m.entries.map Prod.fst

def values (m : OrderedMap κ ν) : List ν := m.entries.map Prod.snd

def size (m : OrderedMap κ ν) : ℕ := m.entries.length

variable [DecidableEq κ]

def find (m : OrderedMap κ ν) (k : κ) : Option ν :=
  (m.entries.find? (fun e => e.1 = k)).map Prod.snd

/-- `m[k] = v` for a key that is not there yet; a key that is there keeps its place. -/
def insert (m : OrderedMap κ ν) (k : κ) (v : ν) : OrderedMap κ ν :=
  if h : k ∈ m.keys then m else
    ⟨m.entries ++ [(k, v)], by
      rw [List.map_append, List.nodup_append]
      refine ⟨m.nodup, List.nodup_singleton _, ?_⟩
      intro a ha b hb
      rw [List.map_singleton, List.mem_singleton] at hb
      subst hb
      exact fun equal => h (equal ▸ ha)⟩

def modify (m : OrderedMap κ ν) (k : κ) (f : ν → ν) : OrderedMap κ ν :=
  ⟨m.entries.map (fun e => if e.1 = k then (e.1, f e.2) else e), by
    have sameKeys : (m.entries.map (fun e => if e.1 = k then (e.1, f e.2) else e)).map Prod.fst =
        m.entries.map Prod.fst := by
      rw [List.map_map]
      apply List.map_congr_left
      intro e _
      by_cases h : e.1 = k <;> simp [h]
    rw [sameKeys]
    exact m.nodup⟩

def erase (m : OrderedMap κ ν) (k : κ) : OrderedMap κ ν :=
  ⟨m.entries.filter (fun e => e.1 ≠ k), m.nodup.sublist (List.filter_sublist.map _)⟩

omit [DecidableEq κ] in
theorem entry_unique (m : OrderedMap κ ν) {k : κ} {v w : ν} (hv : (k, v) ∈ m.entries)
    (hw : (k, w) ∈ m.entries) : v = w :=
  (Prod.mk.inj (List.inj_on_of_nodup_map m.nodup hv hw rfl)).2

theorem find_eq_some {m : OrderedMap κ ν} {k : κ} {v : ν} :
    m.find k = some v ↔ (k, v) ∈ m.entries := by
  constructor
  · intro found
    obtain ⟨⟨key, value⟩, held, rfl⟩ := Option.map_eq_some_iff.mp found
    have equal := List.find?_some held
    simp only [decide_eq_true_eq] at equal
    subst equal
    exact List.mem_of_find?_eq_some held
  · intro member
    have isSome : (m.entries.find? (fun e => e.1 = k)).isSome :=
      List.find?_isSome.mpr ⟨(k, v), member, by simp⟩
    obtain ⟨⟨key, value⟩, held⟩ := Option.isSome_iff_exists.mp isSome
    have equal := List.find?_some held
    simp only [decide_eq_true_eq] at equal
    subst equal
    rw [find, held, Option.map_some, m.entry_unique member (List.mem_of_find?_eq_some held)]

theorem find_isSome {m : OrderedMap κ ν} {k : κ} : (m.find k).isSome ↔ k ∈ m.keys := by
  rw [Option.isSome_iff_exists, keys, List.mem_map]
  constructor
  · rintro ⟨v, found⟩
    exact ⟨(k, v), find_eq_some.mp found, rfl⟩
  · rintro ⟨⟨_, v⟩, member, rfl⟩
    exact ⟨v, find_eq_some.mpr member⟩

theorem find_eq_none {m : OrderedMap κ ν} {k : κ} : m.find k = none ↔ k ∉ m.keys := by
  rw [← find_isSome, Option.not_isSome_iff_eq_none]

theorem entries_insert {m : OrderedMap κ ν} {k : κ} {v : ν} (fresh : k ∉ m.keys) :
    (m.insert k v).entries = m.entries ++ [(k, v)] := by
  simp [insert, fresh]

theorem size_insert {m : OrderedMap κ ν} {k : κ} {v : ν} (fresh : k ∉ m.keys) :
    (m.insert k v).size = m.size + 1 := by
  simp [size, entries_insert fresh]

/-- The default `operator[]` puts under a new key is gone once the key is assigned. -/
theorem insert_modify {m : OrderedMap κ ν} {k : κ} (fresh : k ∉ m.keys) (v : ν) (f : ν → ν) :
    (m.insert k v).modify k f = m.insert k (f v) := by
  have others : m.entries.map (fun e => if e.1 = k then (e.1, f e.2) else e) = m.entries := by
    refine (List.map_congr_left fun e member => ?_).trans (List.map_id _)
    have other : e.1 ≠ k := fun same => fresh (same ▸ List.mem_map_of_mem member)
    simp [other]
  simp [insert, fresh, modify, others]

theorem insert_present {m : OrderedMap κ ν} {k : κ} (present : k ∈ m.keys) (v : ν) : m.insert k v = m :=
  dif_pos present

theorem mem_modify {m : OrderedMap κ ν} {k key : κ} {f : ν → ν} {v : ν} :
    (key, v) ∈ (m.modify k f).entries ↔
      (key = k ∧ ∃ w, (k, w) ∈ m.entries ∧ v = f w) ∨ (key ≠ k ∧ (key, v) ∈ m.entries) := by
  simp only [modify, List.mem_map, Prod.exists]
  constructor
  · rintro ⟨key', w, member, equal⟩
    by_cases h : key' = k
    · rw [if_pos h, Prod.mk.injEq] at equal
      obtain ⟨rfl, rfl⟩ := equal
      exact .inl ⟨h, w, h ▸ member, rfl⟩
    · rw [if_neg h, Prod.mk.injEq] at equal
      obtain ⟨rfl, rfl⟩ := equal
      exact .inr ⟨h, member⟩
  · rintro (⟨rfl, w, member, rfl⟩ | ⟨other, member⟩)
    · exact ⟨key, w, member, by simp⟩
    · exact ⟨key, v, member, by simp [other]⟩

@[simp] theorem keys_modify (m : OrderedMap κ ν) (k : κ) (f : ν → ν) : (m.modify k f).keys = m.keys := by
  simp only [keys, modify, List.map_map]
  apply List.map_congr_left
  intro e _
  by_cases h : e.1 = k <;> simp [h]

@[simp] theorem size_modify (m : OrderedMap κ ν) (k : κ) (f : ν → ν) : (m.modify k f).size = m.size := by
  simp [size, modify]

theorem keys_erase (m : OrderedMap κ ν) (k : κ) : (m.erase k).keys = m.keys.filter (· ≠ k) := by
  simp only [keys, erase, List.filter_map]
  rfl

theorem size_erase {m : OrderedMap κ ν} {k : κ} (present : k ∈ m.keys) :
    (m.erase k).size + 1 = m.size := by
  have len (m : OrderedMap κ ν) : m.size = m.keys.length := by simp [size, keys]
  have erased : m.keys.filter (· ≠ k) = m.keys.erase k := by
    have nodup : m.keys.Nodup := m.nodup
    rw [nodup.erase_eq_filter]
    congr 1
    funext x
    by_cases h : x = k <;> simp [h]
  rw [len, keys_erase, erased, List.length_erase_of_mem present, len]
  have := List.length_pos_of_mem present
  omega

theorem entries_erase (m : OrderedMap κ ν) (k : κ) :
    (m.erase k).entries = m.entries ∨
    ∃ before v after, m.entries = before ++ (k, v) :: after ∧ (m.erase k).entries = before ++ after := by
  by_cases present : k ∈ m.keys
  · obtain ⟨⟨key, v⟩, member, same⟩ := List.mem_map.mp present
    obtain rfl : key = k := same
    obtain ⟨before, after, split⟩ := List.append_of_mem member
    have nodup := m.nodup
    rw [split, List.map_append, List.map_cons, List.nodup_middle, List.nodup_cons, ← List.map_append] at nodup
    have others : ∀ e ∈ before ++ after, e.1 ≠ key := by
      rintro e inside rfl
      exact nodup.1 (List.mem_map.mpr ⟨e, inside, rfl⟩)
    refine .inr ⟨before, v, after, split, ?_⟩
    change m.entries.filter (fun e => e.1 ≠ key) = before ++ after
    rw [split, List.filter_append, List.filter_cons_of_neg (by simp), ← List.filter_append]
    exact List.filter_eq_self.mpr fun e inside => by simpa using others e inside
  · refine .inl (List.filter_eq_self.mpr fun e member => ?_)
    have other : e.1 ≠ k := fun same => present (same ▸ List.mem_map_of_mem member)
    simpa using other

theorem entries_modify_at {m : OrderedMap κ ν} {i : ℕ} {k : κ} {v : ν} (held : m.entries[i]? = some (k, v))
    (f : ν → ν) : (m.modify k f).entries = m.entries.modify i fun e => (e.1, f e.2) := by
  have inside : i < (m.entries.map Prod.fst).length := by
    rw [List.length_map]
    exact (List.getElem?_eq_some_iff.mp held).1
  apply List.ext_getElem?
  intro j
  rw [List.getElem?_modify, modify, List.getElem?_map]
  cases other : m.entries[j]? with
  | none => rfl
  | some e =>
    by_cases same : i = j
    · subst same
      rw [other, Option.some.injEq] at held
      simp [held]
    · have differ : e.1 ≠ k := by
        intro equal
        exact same ((List.getElem?_inj inside m.nodup).mp (by simp [List.getElem?_map, held, other, equal]))
      simp [same, differ]

theorem entries_erase_at {m : OrderedMap κ ν} {i : ℕ} {k : κ} {v : ν} (held : m.entries[i]? = some (k, v)) :
    (m.erase k).entries = m.entries.eraseIdx i := by
  obtain ⟨inside, here⟩ := List.getElem?_eq_some_iff.mp held
  have split : m.entries = m.entries.take i ++ (k, v) :: m.entries.drop (i + 1) := by
    rw [← here, List.getElem_cons_drop, List.take_append_drop]
  have nodup := m.nodup
  rw [split, List.map_append, List.map_cons, List.nodup_middle, List.nodup_cons, ← List.map_append] at nodup
  have others : ∀ e ∈ m.entries.take i ++ m.entries.drop (i + 1), e.1 ≠ k := by
    intro e member same
    exact nodup.1 (List.mem_map.mpr ⟨e, member, same⟩)
  rw [List.eraseIdx_eq_take_drop_succ]
  change m.entries.filter (fun e => e.1 ≠ k) = _
  conv_lhs => rw [split]
  rw [List.filter_append, List.filter_cons_of_neg (by simp), ← List.filter_append]
  exact List.filter_eq_self.mpr fun e member => by simpa using others e member

theorem find_of_at {m : OrderedMap κ ν} {i : ℕ} {k : κ} {v : ν} (held : m.entries[i]? = some (k, v)) :
    m.find k = some v := find_eq_some.mpr (List.mem_of_getElem? held)

end OrderedMap

/-- `m[k] = v` in a map whose entries are listed by increasing key. -/
def assignSorted {κ ν : Type*} [LinearOrder κ] (k : κ) (v : ν) : List (κ × ν) → List (κ × ν)
  | [] => [(k, v)]
  | e :: rest =>
    if k < e.1 then (k, v) :: e :: rest
    else if k = e.1 then (k, v) :: rest
    else e :: assignSorted k v rest

theorem keys_assignSorted {κ ν : Type*} [LinearOrder κ] (k : κ) (v : ν) (entries : List (κ × ν))
    (key : κ) : key ∈ (assignSorted k v entries).map Prod.fst ↔ key = k ∨ key ∈ entries.map Prod.fst := by
  induction entries with
  | nil => simp [assignSorted]
  | cons e rest ih =>
    simp only [assignSorted]
    split_ifs with before same
    · simp
    · rw [List.map_cons, List.map_cons, List.mem_cons, List.mem_cons, ← same]
      tauto
    · rw [List.map_cons, List.map_cons, List.mem_cons, ih, List.mem_cons]
      tauto

end Lookup
