import Mathlib.Data.List.Perm.Basic
import LigDataParsing.LigTools
import LigDataParsing.Selection

/-! What the two enumerations of `LigTools.cpp` return: the pruned one every compatible
choice in lexicographic order, the plain one every choice of one trigger per station. -/
namespace LigDataParsing

open Backtrack

def searchesOver (triggerPool : TriggerPool) (siteTimeMap : SiteTimeMap) (combinations : List (List ℕ)) :
    Search :=
  combinations.foldl (fun s combination =>
    permuteVector (combination.map ((poolTriggers triggerPool).getD · [])) s) ⟨[], [], siteTimeMap⟩

/-- Every search leaves `current` as it found it. -/
theorem searchesOver_current (triggerPool : TriggerPool) (siteTimeMap : SiteTimeMap)
    (combinations : List (List ℕ)) : (searchesOver triggerPool siteTimeMap combinations).current = [] := by
  induction combinations using List.reverseRecOn with
  | nil => rfl
  | append_singleton combinations combination ih =>
    rw [searchesOver, List.foldl_append]
    exact (permuteVector_spec _ _).1.trans ih

/-- For every number of stations the enumeration returns each compatible choice from that
many stations exactly once, in the order of the stations and then of the positions, and
`current` is empty after each of its searches. -/
theorem getLocationPoolP_exact (triggerPool : TriggerPool) (siteTimeMap : SiteTimeMap) (nCombStas : ℕ) :
    (∃ chosen : List (List (Pick TriggerInfo)),
      (getLocationPoolP triggerPool siteTimeMap nCombStas).combinationPool =
        chosen.map (List.map Pick.element) ∧
      chosen.Pairwise Before ∧
      ∀ x, x ∈ chosen ↔ x.length = nCombStas ∧ (x.map Pick.list).Pairwise (· < ·) ∧
        (∀ pick ∈ x, pick.Stands (poolTriggers triggerPool)) ∧
        (x.map Pick.element).Pairwise fun a b =>
          |b.time.sub a.time| ≤ siteTimeMap.value a.stationID b.stationID + 0.0001) ∧
    ∀ done left, getCombinations (List.range (poolTriggers triggerPool).length) nCombStas = done ++ left →
      (searchesOver triggerPool siteTimeMap done).current = [] := by
  constructor
  · refine ⟨selections (pairFits siteTimeMap.value) (poolTriggers triggerPool) nCombStas, ?_,
      selections_sorted _ _, fun x => ?_⟩
    · rw [selections_elements, getLocationPoolP_spec]
    · rw [mem_selections]
      simp only [Compatible, pairFits, decide_eq_true_eq]
  · exact fun done _ _ => searchesOver_current triggerPool siteTimeMap done

section Product

/-- A pool whose entries were all extended by the one trigger of the lists that fits them. -/
def extended (triggers : List TriggerInfo) (pool : List (List TriggerInfo)) : List (List TriggerInfo) :=
  pool.flatMap fun x => triggers.map fun t => x ++ [t]

theorem pushCopies_eq (trigger : TriggerInfo) (base grown : List (List TriggerInfo)) :
    pushCopies base.length trigger (base ++ grown) = base ++ (grown ++ base.map (· ++ [trigger])) := by
  have upTo : ∀ count ≤ base.length,
      (List.range count).foldl (fun pool p => pool ++ [pool.getD p [] ++ [trigger]]) (base ++ grown) =
        base ++ (grown ++ (base.take count).map (· ++ [trigger])) := by
    intro count bound
    induction count with
    | zero => simp
    | succ count ih =>
      have inside : count < base.length := bound
      rw [List.range_succ, List.foldl_append, ih (Nat.le_of_lt inside), List.foldl_cons, List.foldl_nil,
        List.getD_eq_getElem?_getD, List.getElem?_append_left inside, List.getElem?_eq_getElem inside,
        List.take_succ_eq_append_getElem inside]
      simp only [Option.getD_some, List.map_append, List.map_cons, List.map_nil, List.append_assoc]
  have all := upTo base.length le_rfl
  rwa [List.take_length] at all

theorem extendEntries_eq (trigger : TriggerInfo) (base grown : List (List TriggerInfo)) :
    extendEntries base.length trigger (base ++ grown) = base.map (· ++ [trigger]) ++ grown := by
  induction base using List.reverseRecOn generalizing grown with
  | nil => rfl
  | append_singleton base x ih =>
    have last : ((base ++ [x]) ++ grown).modify base.length (· ++ [trigger]) =
        base ++ ((x ++ [trigger]) :: grown) := by
      rw [List.append_assoc, List.modify_eq_take_cons_drop (by simp)]
      simp
    rw [extendEntries, List.length_append, List.length_singleton, List.range_succ, List.reverse_append,
      List.reverse_singleton, List.singleton_append, List.foldl_cons, last, ← extendEntries, ih]
    simp

theorem foldl_pushCopies (later : List (TriggerInfo × ℕ)) (nonzero : ∀ e ∈ later, e.2 ≠ 0)
    (base grown : List (List TriggerInfo)) :
    later.foldl (fun grown e =>
      if e.2 ≠ 0 then pushCopies base.length e.1 grown else extendEntries base.length e.1 grown) (base ++ grown) =
    base ++ (grown ++ later.flatMap fun e => base.map (· ++ [e.1])) := by
  induction later generalizing grown with
  | nil => simp
  | cons e later ih =>
    obtain ⟨here, nonzero⟩ := List.forall_mem_cons.mp nonzero
    rw [List.foldl_cons, if_pos here, pushCopies_eq, ih nonzero, List.flatMap_cons, List.append_assoc]

/-- One station extends every entry by every trigger, in an order of its own. -/
theorem growPool_perm {triggers : List TriggerInfo} (nonempty : triggers ≠ [])
    (pool : List (List TriggerInfo)) : (growPool triggers pool).Perm (extended triggers pool) := by
  obtain ⟨first, rest, rfl⟩ := List.exists_cons_of_ne_nil nonempty
  have copied := foldl_pushCopies (rest.zipIdx 1).reverse (by
    intro e member
    have := List.le_snd_of_mem_zipIdx (List.mem_reverse.mp member)
    omega) pool []
  have grown : growPool (first :: rest) pool = pool.map (· ++ [first]) ++
      (rest.zipIdx 1).reverse.flatMap fun e => pool.map (· ++ [e.1]) := by
    rw [List.append_nil] at copied
    rw [growPool, List.zipIdx_cons, List.reverse_cons, List.foldl_append, copied, List.foldl_cons, List.foldl_nil,
      if_neg (by simp), List.nil_append, extendEntries_eq]
  have byTrigger : ∀ l : List TriggerInfo,
      (l.flatMap fun t => pool.map (· ++ [t])).Perm (pool.flatMap fun x => l.map fun t => x ++ [t]) := by
    intro l
    induction l with
    | nil => simp
    | cons t l ih =>
      rw [List.flatMap_cons]
      exact (ih.append_left _).trans (List.map_append_flatMap_perm pool _ _)
  have copies : ((rest.zipIdx 1).reverse.flatMap fun e => pool.map (· ++ [e.1])).Perm
      (rest.flatMap fun t => pool.map (· ++ [t])) := by
    refine ((rest.zipIdx 1).reverse_perm.flatMap_right _).trans (List.Perm.of_eq ?_)
    conv_rhs => rw [← List.zipIdx_map_fst 1 rest, List.flatMap_map]
  rw [grown]
  exact (copies.append_left _).trans (byTrigger (first :: rest))

theorem startPool_eq (triggers : List TriggerInfo) (pool : List (List TriggerInfo)) :
    startPool triggers pool = pool ++ triggers.reverse.map ([·]) := by
  rw [startPool]
  induction triggers.reverse generalizing pool with
  | nil => simp
  | cons t rest ih =>
    rw [List.foldl_cons, ih]
    simp

/-- From the second station on, every entry is completed by all choices from the
remaining lists. -/
theorem locationPoolFrom_perm {m : ℕ} (later : m ≠ 0) {lists : List (List TriggerInfo)}
    (nonempty : ∀ list ∈ lists, list ≠ []) {pool : List (List TriggerInfo)} (filled : pool ≠ []) :
    (locationPoolFrom m lists pool).Perm (pool.flatMap (extensions (fun _ _ => true) lists)) := by
  induction lists generalizing m pool with
  | nil => simp [locationPoolFrom, extensions]
  | cons triggers rest ih =>
    obtain ⟨here, nonempty⟩ := List.forall_mem_cons.mp nonempty
    have grown := growPool_perm here pool
    have some' : growPool triggers pool ≠ [] := by
      rw [← List.length_pos_iff, grown.length_eq, List.length_pos_iff]
      obtain ⟨x, others, rfl⟩ := List.exists_cons_of_ne_nil filled
      obtain ⟨t, others', rfl⟩ := List.exists_cons_of_ne_nil here
      simp [extended]
    have completed : (extended triggers pool).flatMap (extensions (fun _ _ => true) rest) =
        pool.flatMap (extensions (fun _ _ => true) (triggers :: rest)) := by
      simp [extended, extensions, List.flatMap_assoc, List.flatMap_map]
    rw [locationPoolFrom, if_pos later, if_neg (by simpa using filled), ← completed]
    exact (ih (by omega) nonempty some').trans (grown.flatMap_right _)

/-- The plain enumeration is the unpruned search, reordered. -/
theorem getLocationPool_perm {triggerPool : TriggerPool} (stations : triggerPool.size ≠ 0)
    (nonempty : ∀ list ∈ poolTriggers triggerPool, list ≠ []) :
    (getLocationPool triggerPool).Perm (extensions (fun _ _ => true) (poolTriggers triggerPool) []) := by
  rw [getLocationPool]
  cases lists : poolTriggers triggerPool with
  | nil =>
    have lengths := congrArg List.length lists
    simp only [poolTriggers, Lookup.OrderedMap.values, List.length_map, List.length_nil] at lengths
    exact absurd lengths stations
  | cons first rest =>
    rw [lists] at nonempty
    obtain ⟨here, nonempty⟩ := List.forall_mem_cons.mp nonempty
    have started : startPool first [] ≠ [] := by simpa [startPool_eq] using here
    rw [locationPoolFrom, if_neg (by simp)]
    refine (locationPoolFrom_perm (by omega) nonempty started).trans ?_
    rw [startPool_eq, List.nil_append]
    refine ((first.reverse_perm.map _).flatMap_right _).trans (List.Perm.of_eq ?_)
    simp [extensions, List.flatMap_map]

end Product

/-- With non-empty lists the pruned enumeration of all stations returns what the plain
one does, less the incompatible choices, and the plain one every choice exactly once. -/
theorem getLocationPool_agrees {triggerPool : TriggerPool} (stations : triggerPool.size ≠ 0)
    (nonempty : ∀ list ∈ poolTriggers triggerPool, list ≠ []) (siteTimeMap : SiteTimeMap) :
    (getLocationPoolP triggerPool siteTimeMap triggerPool.size).combinationPool.Perm
      ((getLocationPool triggerPool).filter fun comb => decide (comb.Pairwise fun a b =>
        |b.time.sub a.time| ≤ siteTimeMap.value a.stationID b.stationID + 0.0001)) ∧
    ∃ chosen : List (List (Pick TriggerInfo)),
      (getLocationPool triggerPool).Perm (chosen.map (List.map Pick.element)) ∧ chosen.Nodup ∧
      ∀ x, x ∈ chosen ↔ x.map Pick.list = List.range triggerPool.size ∧
        ∀ pick ∈ x, pick.Stands (poolTriggers triggerPool) := by
  have plain := getLocationPool_perm stations nonempty
  have size : (poolTriggers triggerPool).length = triggerPool.size := by
    simp [poolTriggers, Lookup.OrderedMap.values, Lookup.OrderedMap.size]
  constructor
  · rw [getLocationPoolP_size, (permuteVector_spec _ _).2.1, List.nil_append,
      extensions_eq_filter List.Pairwise.nil]
    refine (plain.symm.filter _).trans (List.Perm.of_eq ?_)
    simp only [Compatible, pairFits, decide_eq_true_eq]
  · rw [← size]
    refine ⟨selections (fun _ _ => true) (poolTriggers triggerPool) (poolTriggers triggerPool).length, ?_, ?_, ?_⟩
    · rw [selections_elements, combinations_range, List.flatMap_singleton, map_getD_range]
      exact plain
    · refine (selections_sorted _ _).imp ?_
      rintro x _ before rfl
      rcases before with less | ⟨_, less⟩
      · exact List.lt_irrefl _ less
      · exact List.lt_irrefl _ less
    · intro x
      rw [mem_selections_all]
      constructor
      · rintro ⟨lists, stands, _⟩
        exact ⟨lists, stands⟩
      · rintro ⟨lists, stands⟩
        exact ⟨lists, stands, List.pairwise_of_forall fun _ _ => rfl⟩

namespace Sample

def arrival (stationID : ℤ) (actPointSec : ℚ) : TriggerInfo :=
  ⟨GPSTime.ofFields 24 4 20 20 5 17 actPointSec, stationID, 1, 0⟩

def twoStations : TriggerPool :=
  (Lookup.OrderedMap.empty.insert 1 ⟨[arrival 1 0.1], LocSta.ofPosition 0 0 0, 1⟩).insert 2
    ⟨[arrival 2 0.1001, arrival 2 0.9], LocSta.ofPosition 0 0 0, 2⟩

def milliseconds : SiteTimeMap := fun _ => some fun _ => some 0.001

end Sample

theorem getLocationPool_agrees_two :
    (getLocationPool Sample.twoStations).length = 2 ∧
    (getLocationPoolP Sample.twoStations Sample.milliseconds 2).combinationPool =
      [[Sample.arrival 1 0.1, Sample.arrival 2 0.1001]] ∧
    (getLocationPoolP Sample.twoStations Sample.milliseconds Sample.twoStations.size).combinationPool.Perm
      ((getLocationPool Sample.twoStations).filter fun comb => decide (comb.Pairwise fun a b =>
        |b.time.sub a.time| ≤ Sample.milliseconds.value a.stationID b.stationID + 0.0001)) :=
  ⟨by decide +kernel, by decide +kernel,
    (getLocationPool_agrees (by decide +kernel) (by decide +kernel) Sample.milliseconds).1⟩

end LigDataParsing
