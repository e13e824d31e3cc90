import LigDataParsing.Arrival
import LigDataParsing.Consistency

/-! The pool a scan builds against the pool it is meant to build: the triggers of the whole
queue that pass the tests, grouped by station, for the first eight stations. -/
namespace LigDataParsing

open Lookup

/-- The tests of the scan on one trigger, without its early end. -/
def admissible (time : ℤ → ℤ → ℚ) (maxBaseLineAsTOA : ℚ) (baseTrig x : TriggerInfo) : Bool :=
  0 ≤ baseTrig.value * x.value ∧ -maxBaseLineAsTOA ≤ baseTrig.time.sub x.time ∧
  baseTrig.time.sub x.time ≤ 0 ∧
  |baseTrig.time.sub x.time| ≤ time baseTrig.stationID x.stationID + 0.0001

/-- A trigger without its stored position. -/
def TriggerInfo.unplaced (t : TriggerInfo) : TriggerInfo := { t with trigIdx := 0 }

/-- The pool of the triggers `admitted` from `queue`. Of each station only the first
trigger has its position stored. -/
structure IntendedPool (location : ℤ → LocSta) (queue : List TriggerInfo) (admitted : TriggerInfo → Bool)
    (pool : TriggerPool) : Prop where
  keys : pool.keys = ((queue.filter admitted).map TriggerInfo.stationID).eraseDups.take 8
  entry : ∀ id entry, (id, entry) ∈ pool.entries →
    entry.stationID = id ∧ entry.staLocation = location id ∧
    entry.triggers = marked (ofStation id ((positions queue).filter fun e => admitted e.2))
  triggers : ∀ id entry, (id, entry) ∈ pool.entries → entry.triggers.map TriggerInfo.unplaced =
    ((queue.filter admitted).filter fun x => x.stationID = id).map TriggerInfo.unplaced

theorem eraseDups_snoc {α : Type*} [DecidableEq α] (l : List α) (a : α) :
    (l ++ [a]).eraseDups = if a ∈ l then l.eraseDups else l.eraseDups ++ [a] := by
  rw [List.eraseDups_append]
  by_cases member : a ∈ l
  · simp [List.removeAll, member]
  · simp [List.removeAll, member, List.eraseDups_cons]

/-- The first eight distinct stations open the entries, in the order they come in. -/
theorem keys_foldl_admitPool (location : ℤ → LocSta) (entries : List (ℕ × TriggerInfo)) :
    (entries.foldl (admitPool location) OrderedMap.empty).keys =
      (entries.map fun e => e.2.stationID).eraseDups.take 8 := by
  induction entries using List.reverseRecOn with
  | nil => rfl
  | append_singleton entries e ih =>
    rw [List.foldl_append, List.foldl_cons, List.foldl_nil, List.map_append, List.map_singleton, eraseDups_snoc]
    generalize entries.foldl (admitPool location) OrderedMap.empty = pool at ih
    generalize (entries.map fun e => e.2.stationID) = stations at ih
    have size : pool.size = min 8 stations.eraseDups.length := by
      rw [← List.length_take, ← ih, OrderedMap.keys, List.length_map, OrderedMap.size]
    rw [admitPool]
    cases found : pool.find e.2.stationID with
    | some opened =>
      have known : e.2.stationID ∈ pool.keys := OrderedMap.find_isSome.mp (by simp [found])
      rw [ih] at known
      rw [if_pos (List.mem_eraseDups.mp (List.mem_of_mem_take known))]
      exact (OrderedMap.keys_modify ..).trans ih
    | none =>
      have fresh := OrderedMap.find_eq_none.mp found
      simp only
      by_cases full : pool.size ≥ 8
      · rw [if_pos full, ih]
        split_ifs
        · rfl
        · rw [List.take_append_of_le_length (by omega)]
      · have short : stations.eraseDups.take 8 = stations.eraseDups := List.take_of_length_le (by omega)
        rw [short] at ih
        have unseen : e.2.stationID ∉ stations := fun member => fresh (ih ▸ List.mem_eraseDups.mpr member)
        rw [if_neg full, if_neg unseen, OrderedMap.keys, OrderedMap.entries_insert fresh, List.map_append,
          ← OrderedMap.keys, ih, List.take_of_length_le]
        · rfl
        · rw [List.length_append, List.length_singleton]
          omega

theorem marked_unplaced (entries : List (ℕ × TriggerInfo)) :
    (marked entries).map TriggerInfo.unplaced = (entries.map Prod.snd).map TriggerInfo.unplaced := by
  cases entries with
  | nil => rfl
  | cons first rest =>
    obtain ⟨j, oneTrig⟩ := first
    rfl

/-- In an ascending queue of valid times from the base on, the early end of the scan cuts
nothing off: a trigger too late for the window has only later ones behind it. -/
theorem examined_eq_filter {maxBaseLineAsTOA : ℚ} {baseTrig : TriggerInfo} {queue : List TriggerInfo}
    (ascending : Ascending queue) (valid : ∀ x ∈ queue, x.time.Valid)
    (later : ∀ x ∈ queue, baseTrig.time.sub x.time ≤ 0) (j : ℕ) :
    examined maxBaseLineAsTOA baseTrig j queue = ((queue.zipIdx j).map Prod.swap).filter fun e =>
      decide (0 ≤ baseTrig.value * e.2.value ∧ -maxBaseLineAsTOA ≤ baseTrig.time.sub e.2.time ∧
        baseTrig.time.sub e.2.time ≤ 0) := by
  induction queue generalizing j with
  | nil => rfl
  | cons oneTrig rest ih =>
    obtain ⟨validHere, validRest⟩ := List.forall_mem_cons.mp valid
    obtain ⟨laterHere, laterRest⟩ := List.forall_mem_cons.mp later
    have tail := ih ascending.tail validRest laterRest (j + 1)
    rw [examined, List.zipIdx_cons, List.map_cons]
    split_ifs with opposite outside
    · rw [tail, List.filter_cons_of_neg]
      rw [decide_eq_true_eq]
      rintro ⟨same, _⟩
      exact absurd opposite (not_lt.mpr same)
    · have late : baseTrig.time.sub oneTrig.time < -maxBaseLineAsTOA := by
        rcases outside with late | early
        · exact late
        · exact absurd laterHere (not_le.mpr early)
      refine (List.filter_eq_nil_iff.mpr ?_).symm
      intro e member
      rw [← List.map_cons (f := Prod.swap), ← List.zipIdx_cons] at member
      obtain ⟨⟨x, i⟩, inQueue, rfl⟩ := List.mem_map.mp member
      have inside : x ∈ oneTrig :: rest := List.fst_mem_of_mem_zipIdx inQueue
      have behind := GPSTime.sub_le_sub validHere (valid x inside)
        (TriggerInfo.stamp_le_of_key_le (ascending.head_le inside)) baseTrig.time
      rw [decide_eq_true_eq]
      rintro ⟨_, early, _⟩
      exact absurd early (not_le.mpr (behind.trans_lt late))
    · obtain ⟨notLate, notEarly⟩ := not_or.mp outside
      rw [tail, List.filter_cons_of_pos]
      · rfl
      · exact decide_eq_true ⟨not_lt.mp opposite, not_lt.mp notLate, not_lt.mp notEarly⟩

section Scan

variable {c : Config} {baseTrig : TriggerInfo} {rest : List TriggerInfo} {l : Locator}

theorem windowOf_eq_filter (queue : l.allTriggers = baseTrig :: rest) (ascending : Ascending l.allTriggers)
    (valid : ∀ x ∈ l.allTriggers, x.time.Valid) :
    l.windowOf c baseTrig = (positions l.allTriggers).filter fun e =>
      admissible l.siteTimeMap.value c.maxBaseLineAsTOA baseTrig e.2 := by
  have later : ∀ x ∈ l.allTriggers, baseTrig.time.sub x.time ≤ 0 := by
    intro x member
    have head : baseTrig ∈ l.allTriggers := queue ▸ List.mem_cons_self
    have ordered : baseTrig.key ≤ x.key := by
      rw [queue] at ascending member
      exact ascending.head_le member
    have fall := GPSTime.sub_le_sub (valid baseTrig head) (valid x member)
      (TriggerInfo.stamp_le_of_key_le ordered) baseTrig.time
    rwa [GPSTime.sub_self] at fall
  rw [Locator.windowOf, window, examined_eq_filter ascending valid later, List.filter_filter, positions]
  apply List.filter_congr
  intro e _
  rw [Bool.eq_iff_iff, Bool.and_eq_true, decide_eq_true_eq, decide_eq_true_eq, admissible, decide_eq_true_eq]
  tauto

end Scan

/-- The scan builds the intended pool from the whole queue, for any propagation times and
any window. -/
theorem scan_builds_intended {c : Config} {baseTrig : TriggerInfo} {rest : List TriggerInfo} {l : Locator}
    (queue : l.allTriggers = baseTrig :: rest) (ascending : Ascending l.allTriggers)
    (valid : ∀ x ∈ l.allTriggers, x.time.Valid) :
    IntendedPool l.siteMap.location l.allTriggers
      (admissible l.siteTimeMap.value c.maxBaseLineAsTOA baseTrig) (l.scanFrom c baseTrig).triggerPool := by
  have window := windowOf_eq_filter (c := c) queue ascending valid
  have pool := (scan_spec c.maxBaseLineAsTOA baseTrig 0 l.allTriggers ⟨.empty, l.siteMap, l.siteTimeMap⟩).1
  have built := (scanFrom_spec c baseTrig l).1
  have triggers : ((positions l.allTriggers).filter fun e =>
      admissible l.siteTimeMap.value c.maxBaseLineAsTOA baseTrig e.2).map Prod.snd =
        l.allTriggers.filter (admissible l.siteTimeMap.value c.maxBaseLineAsTOA baseTrig) := by
    conv_rhs => rw [← positions_snd l.allTriggers, List.filter_map]
    rfl
  constructor
  · rw [Locator.scanFrom, pool]
    change ((l.windowOf c baseTrig).foldl (admitPool l.siteMap.location) OrderedMap.empty).keys = _
    rw [keys_foldl_admitPool, window, ← triggers, List.map_map]
    rfl
  · intro id entry member
    obtain ⟨station, held, listed, _⟩ := built.entry id entry member
    exact ⟨station, held, window ▸ listed⟩
  · intro id entry member
    rw [(built.entry id entry member).2.2.1, marked_unplaced, window, ← triggers, ofStation, List.filter_map]
    rfl

theorem scan_builds_intended_repeated :
    ((Sample.locator Sample.repeatedStation).scanFrom Sample.config (Sample.trigger 1 0.0001)).triggerPool.keys =
      [1, 2, 3, 4, 5] ∧
    IntendedPool Sample.siteMap.location Sample.repeatedStation
      (admissible Sample.siteTimeMap.value Sample.config.maxBaseLineAsTOA (Sample.trigger 1 0.0001))
      ((Sample.locator Sample.repeatedStation).scanFrom Sample.config (Sample.trigger 1 0.0001)).triggerPool :=
  ⟨by decide +kernel,
    scan_builds_intended (l := Sample.locator Sample.repeatedStation) rfl (by decide +kernel) (by decide +kernel)⟩

end LigDataParsing
