import LigDataParsing.Runs

/-! Loops that work off a queue. One turn takes a nonempty queue to a shorter one and
reports something on the way; draining repeats turns until the queue is empty. -/
namespace Drain

variable {α β : Type*} (turn : List α → Option (List β × List α))

inductive Drains : List α → List β → Prop where
  | done : Drains [] []
  | turn {queue rest : List α} {reports later : List β} (taken : turn queue = some (reports, rest))
      (drained : Drains rest later) : Drains queue (reports ++ later)

variable {turn}

theorem Drains.functional (idle : turn [] = none) {queue : List α} {reports reports' : List β}
    (drained : Drains turn queue reports) (drained' : Drains turn queue reports') : reports = reports' := by
  induction drained generalizing reports' with
  | done =>
    cases drained' with
    | done => rfl
    | turn taken => simp [idle] at taken
  | turn taken _ ih =>
    cases drained' with
    | done => simp [idle] at taken
    | turn taken' later =>
      obtain ⟨rfl, rfl⟩ := Prod.mk.inj (Option.some.inj (taken.symm.trans taken'))
      rw [ih later]

/-- A queue can be drained in two parts if no turn on the first part notices the second. -/
theorem Drains.append {back : List α} (apart : List α → Prop)
    (unnoticed : ∀ front reports rest, apart front → turn front = some (reports, rest) →
      apart rest ∧ turn (front ++ back) = some (reports, rest ++ back))
    {front : List α} {first second : List β} (separate : apart front) (drained : Drains turn front first)
    (rest : Drains turn back second) : Drains turn (front ++ back) (first ++ second) := by
  induction drained with
  | done => exact rest
  | turn taken _ ih =>
    obtain ⟨still, same⟩ := unnoticed _ _ _ separate taken
    rw [List.append_assoc]
    exact .turn same (ih still)

end Drain

/-! Passes over old triggers as a loop on the queue alone: what they report depends on
the queue and on the values of the two maps, and not on triggers beyond the window of
the base. -/
namespace LigDataParsing

open Lookup IndexedErase

/-- What the passes hand on: `lig_time`, `result` and the combination. -/
abbrev Report := GPSTime × LocSta × List TriggerInfo

def Post.report (post : Post) : Report := (post.ligTime, post.result, post.oneComb)

def Verdict.reports : Verdict → List Report
  | .located _ _ _ post => (post.map Post.report).toList
  | _ => []

/-- Rounds that differ in lookups only. -/
structure Rounds.Alike (s s' : Rounds) : Prop where
  triggerPool : s'.triggerPool = s.triggerPool
  combinations : s'.locCombinationPool = s.locCombinationPool
  minSq : s'.minSq = s.minSq
  result : s'.result = s.result
  chosen : s'.finalCombIdx = s.finalCombIdx
  sites : s'.siteMap.value = s.siteMap.value
  times : s'.siteTimeMap.value = s.siteTimeMap.value

section Alike

variable {p : Platform} {c : Config} {s s' : Rounds}

theorem Rounds.Alike.oneComb (alike : s.Alike s') : s'.oneComb = s.oneComb := by
  rw [Rounds.oneComb, alike.combinations, alike.chosen, Rounds.oneComb]

theorem processCombinationPool_alike (alike : s.Alike s') :
    (processCombinationPool p s).Alike (processCombinationPool p s') := by
  obtain ⟨triggerPool, combinations, _, _, _, sites, times⟩ := alike
  constructor
  · exact triggerPool
  · exact combinations
  · simp only [processCombinationPool, triggerPool, combinations]
  · simp only [processCombinationPool, triggerPool, combinations]
  · simp only [processCombinationPool, triggerPool, combinations]
  · exact sites
  · exact times

theorem enumerate_alike (alike : s.Alike s') : (enumerate p s).Alike (enumerate p s') := by
  have grown := getLocationPoolP_grown s.triggerPool s.siteTimeMap
  have grown' := getLocationPoolP_grown s'.triggerPool s'.siteTimeMap
  have found : (getLocationPoolP s'.triggerPool s'.siteTimeMap s'.triggerPool.size).combinationPool =
      (getLocationPoolP s.triggerPool s.siteTimeMap s.triggerPool.size).combinationPool := by
    rw [getLocationPoolP_eq, getLocationPoolP_eq, alike.triggerPool, alike.times]
  have started : Rounds.Alike
      { s with
        locCombinationPool := (getLocationPoolP s.triggerPool s.siteTimeMap s.triggerPool.size).combinationPool
        siteTimeMap := (getLocationPoolP s.triggerPool s.siteTimeMap s.triggerPool.size).siteTimeMap }
      { s' with
        locCombinationPool := (getLocationPoolP s'.triggerPool s'.siteTimeMap s'.triggerPool.size).combinationPool
        siteTimeMap := (getLocationPoolP s'.triggerPool s'.siteTimeMap s'.triggerPool.size).siteTimeMap } :=
    ⟨alike.triggerPool, found, alike.minSq, alike.result, alike.chosen, alike.sites,
      grown'.value.trans (alike.times.trans grown.value.symm)⟩
  simp only [enumerate]
  rw [found]
  split_ifs
  · exact processCombinationPool_alike (found ▸ started)
  · exact found ▸ started

theorem fillSqMap_congr (libm : Libm) (result : LocSta) (comb : List TriggerInfo) (sqMap : List (ℤ × ℚ))
    {siteMap siteMap' : SiteMap} (same : siteMap'.value = siteMap.value) :
    (fillSqMap libm result comb (sqMap, siteMap')).1 = (fillSqMap libm result comb (sqMap, siteMap)).1 := by
  induction comb generalizing sqMap siteMap siteMap' with
  | nil => rfl
  | cons iter rest ih =>
    rw [fillSqMap, fillSqMap, same]
    exact ih _ ((Table.touch_value siteMap' _).trans (same.trans (Table.touch_value siteMap _).symm))

theorem eliminate_alike (libm : Libm) (alike : s.Alike s') : (eliminate libm s).Alike (eliminate libm s') := by
  have filled : (fillSqMap libm s'.result s'.oneComb ([], s'.siteMap)).1 =
      (fillSqMap libm s.result s.oneComb ([], s.siteMap)).1 := by
    rw [alike.result, alike.oneComb]
    exact fillSqMap_congr libm s.result s.oneComb [] alike.sites
  constructor
  · simp only [eliminate, filled, alike.triggerPool]
  · exact alike.combinations
  · exact alike.minSq
  · exact alike.result
  · exact alike.chosen
  · exact (eliminate_value libm s').trans (alike.sites.trans (eliminate_value libm s).symm)
  · exact alike.times

theorem round_alike (alike : s.Alike s') : (round p c s).Alike (round p c s') := by
  rw [round, round, alike.minSq, alike.triggerPool, alike.combinations]
  split_ifs
  · exact enumerate_alike (eliminate_alike p.libm alike)
  · exact enumerate_alike alike
  · exact alike

theorem locate_alike {scanned scanned' : Scan} (pool : scanned'.triggerPool = scanned.triggerPool)
    (sites : scanned'.siteMap.value = scanned.siteMap.value)
    (times : scanned'.siteTimeMap.value = scanned.siteTimeMap.value) :
    (locate p c scanned).Alike (locate p c scanned') := by
  have started : (scanned.rounds p).Alike (scanned'.rounds p) := ⟨pool, rfl, rfl, rfl, rfl, sites, times⟩
  apply round_alike
  apply round_alike
  rw [firstRound, firstRound, started.minSq]
  split_ifs
  · exact enumerate_alike started
  · exact started

/-- What is posted reads the result, the combination and values. -/
theorem postOf_alike (alike : s.Alike s') {first : TriggerInfo} {siteMap siteMap' : SiteMap}
    (same : siteMap'.value = siteMap.value) :
    (postOf p c s' first siteMap').map Post.report = (postOf p c s first siteMap).map Post.report := by
  simp only [postOf, alike.result, alike.triggerPool, alike.oneComb, same]
  split_ifs <;> rfl

end Alike

/-- Triggers beyond the window of the base, in the digits the scan compares. -/
def Beyond (c : Config) (baseTrig : TriggerInfo) (back : List TriggerInfo) : Prop :=
  ∀ x ∈ back, baseTrig.time.sub x.time < -c.maxBaseLineAsTOA

section Append

variable {p : Platform} {c : Config} {baseTrig : TriggerInfo} {rest back : List TriggerInfo} {l l' : Locator}

theorem examined_beyond (beyond : Beyond c baseTrig back) (j : ℕ) :
    examined c.maxBaseLineAsTOA baseTrig j back = [] := by
  induction back generalizing j with
  | nil => rfl
  | cons x back ih =>
    have tail := ih (fun y member => beyond y (List.mem_cons_of_mem _ member)) (j + 1)
    by_cases opposite : baseTrig.value * x.value < 0
    · rw [examined, if_pos opposite, tail]
    · rw [examined, if_neg opposite, if_pos (.inl (beyond x List.mem_cons_self))]

theorem examined_append (beyond : Beyond c baseTrig back) (j : ℕ) (queue : List TriggerInfo) :
    examined c.maxBaseLineAsTOA baseTrig j (queue ++ back) = examined c.maxBaseLineAsTOA baseTrig j queue := by
  induction queue generalizing j with
  | nil => exact examined_beyond beyond j
  | cons x queue ih =>
    simp only [List.cons_append, examined]
    rw [ih]

/-- The scan of a longer queue builds the same pool if the rest is beyond the window. -/
theorem scanFrom_append (queue : l'.allTriggers = l.allTriggers ++ back) (beyond : Beyond c baseTrig back)
    (sites : l'.siteMap.value = l.siteMap.value) (times : l'.siteTimeMap.value = l.siteTimeMap.value) :
    (l'.scanFrom c baseTrig).triggerPool = (l.scanFrom c baseTrig).triggerPool := by
  obtain ⟨pool, _, _⟩ := scan_spec c.maxBaseLineAsTOA baseTrig 0 l.allTriggers ⟨.empty, l.siteMap, l.siteTimeMap⟩
  obtain ⟨pool', _, _⟩ := scan_spec c.maxBaseLineAsTOA baseTrig 0 l'.allTriggers ⟨.empty, l'.siteMap, l'.siteTimeMap⟩
  rw [Locator.scanFrom, Locator.scanFrom, pool, pool', SiteMap.location_congr sites, times, window, window, queue,
    examined_append beyond]

/-- Locating from a longer queue reports the same and leaves the rest standing. -/
theorem process_append (p : Platform) (l l' : Locator) (back : List TriggerInfo)
    (queue : l.allTriggers = baseTrig :: rest)
    (queue' : l'.allTriggers = baseTrig :: rest ++ back) (beyond : Beyond c baseTrig back)
    (sites : l'.siteMap.value = l.siteMap.value) (times : l'.siteTimeMap.value = l.siteTimeMap.value)
    (ascending : Ascending l.allTriggers) (unset : ∀ x ∈ l.allTriggers, x.trigIdx = 0) :
    (l'.process p c baseTrig (rest ++ back)).1.reports = (l.process p c baseTrig rest).1.reports ∧
    (l'.process p c baseTrig (rest ++ back)).2.allTriggers = (l.process p c baseTrig rest).2.allTriggers ++ back := by
  have whole : l'.allTriggers = l.allTriggers ++ back := by rw [queue, queue']
  have pool := scanFrom_append whole beyond sites times
  obtain ⟨_, scannedSites, scannedTimes⟩ := scanFrom_spec c baseTrig l
  obtain ⟨_, scannedSites', scannedTimes'⟩ := scanFrom_spec c baseTrig l'
  have alike := locate_alike (p := p) (c := c) pool (scannedSites'.trans (sites.trans scannedSites.symm))
    (scannedTimes'.value.trans (times.trans scannedTimes.value.symm))
  simp only [Locator.process, pool, alike.minSq]
  by_cases enough : 5 ≤ (l.scanFrom c baseTrig).triggerPool.size
  · by_cases good : (locate p c (l.scanFrom c baseTrig)).minSq < c.locThresholdInitial
    · simp only [ge_iff_le, enough, good, if_true]
      constructor
      · simp only [Verdict.reports, alike.oneComb]
        rw [postOf_alike alike alike.sites]
      · obtain ⟨front, between, split, inRange, _⟩ := locate_front ascending unset enough good
        simp only [Locator.leave, alike.oneComb, whole]
        rw [split, List.append_assoc, eraseAll_append _ inRange, eraseAll_append _ inRange, List.append_assoc]
    · simp only [ge_iff_le, enough, good, if_true, if_false]
      exact ⟨trivial, rfl⟩
  · simp only [ge_iff_le, enough, if_false]
    exact ⟨trivial, rfl⟩

end Append

/-- A pass over a queue of old triggers, with the maps a run starts from. -/
def turn (p : Platform) (c : Config) (siteMap : SiteMap) (siteTimeMap : SiteTimeMap) :
    List TriggerInfo → Option (List Report × List TriggerInfo)
  | [] => none
  | baseTrig :: rest =>
    if isIsolated c (baseTrig :: rest) then some ([], rest)
    else
      let done := Locator.process p c baseTrig rest ⟨baseTrig :: rest, .zero, siteMap, siteTimeMap, 0, true⟩
      some (done.1.reports, done.2.allTriggers)

/-- A well-formed front of a queue whose windows do not reach the back. -/
structure Apart (c : Config) (back front : List TriggerInfo) : Prop where
  ascending : Ascending front
  wellFormed : ∀ x ∈ front, WellFormed x
  beyond : ∀ x ∈ front, Beyond c x back

section Turn

variable {p : Platform} {c : Config} {siteMap : SiteMap} {siteTimeMap : SiteTimeMap}
  {front back rest : List TriggerInfo} {reports : List Report} {l next : Locator} {verdict : Verdict} {now : ℤ}

theorem admitPool_size (location : ℤ → LocSta) (pool : TriggerPool) (e : ℕ × TriggerInfo) :
    (admitPool location pool e).size ≤ pool.size + 1 := by
  rw [admitPool]
  cases found : pool.find e.2.stationID with
  | none =>
    simp only
    split_ifs
    · omega
    · exact (OrderedMap.size_insert (OrderedMap.find_eq_none.mp found)).le
  | some opened => simp

theorem scanFrom_single {baseTrig : TriggerInfo} (queue : l.allTriggers = [baseTrig]) :
    (l.scanFrom c baseTrig).triggerPool.size ≤ 1 := by
  obtain ⟨pool, _, _⟩ := scan_spec c.maxBaseLineAsTOA baseTrig 0 l.allTriggers ⟨.empty, l.siteMap, l.siteTimeMap⟩
  rw [Locator.scanFrom, pool, queue, window, examined, examined]
  split_ifs
  · simp [OrderedMap.empty, OrderedMap.size]
  · simp [OrderedMap.empty, OrderedMap.size]
  · rw [List.filter_cons]
    split_ifs
    · exact admitPool_size (SiteMap.location l.siteMap) .empty (0, baseTrig)
    · simp [OrderedMap.empty, OrderedMap.size]

theorem turn_single (baseTrig : TriggerInfo) : turn p c siteMap siteTimeMap [baseTrig] = some ([], []) := by
  have few := scanFrom_single (c := c) (l := ⟨[baseTrig], .zero, siteMap, siteTimeMap, 0, true⟩) rfl
  have short : ¬ (Locator.scanFrom c baseTrig
      ⟨[baseTrig], .zero, siteMap, siteTimeMap, 0, true⟩).triggerPool.size ≥ 5 := by omega
  simp [turn, isIsolated, Locator.process, short, Verdict.reports, Locator.leave]

theorem turn_sublist (taken : turn p c siteMap siteTimeMap front = some (reports, rest)) : rest.Sublist front := by
  cases front with
  | nil => simp [turn] at taken
  | cons baseTrig tail =>
    simp only [turn] at taken
    split_ifs at taken with alone
    · cases taken
      exact List.sublist_cons_self baseTrig rest
    · cases taken
      simp only [Locator.process]
      split_ifs
      · exact eraseAll_sublist _ _
      · exact List.sublist_cons_self baseTrig tail
      · exact List.sublist_cons_self baseTrig tail

theorem turn_append (apart : Apart c back front)
    (taken : turn p c siteMap siteTimeMap front = some (reports, rest)) :
    Apart c back rest ∧ turn p c siteMap siteTimeMap (front ++ back) = some (reports, rest ++ back) := by
  have sub := turn_sublist taken
  obtain ⟨ascending, wellFormed, beyond⟩ := apart
  refine ⟨⟨ascending.sublist sub, fun x member => wellFormed x (sub.subset member),
    fun x member => beyond x (sub.subset member)⟩, ?_⟩
  cases front with
  | nil => simp [turn] at taken
  | cons baseTrig tail =>
    have outside : Beyond c baseTrig back := beyond baseTrig List.mem_cons_self
    have gap : ∀ y ∈ back, c.maxBaseLineAsTOA < y.time.sub baseTrig.time := by
      intro y member
      rw [GPSTime.sub_neg]
      linarith [outside y member]
    cases tail with
    | nil =>
      rw [turn_single] at taken
      cases taken
      cases back with
      | nil => exact turn_single baseTrig
      | cons y back =>
        have alone : isIsolated c (baseTrig :: y :: back) = true := decide_eq_true (gap y List.mem_cons_self)
        simp [turn, alone]
    | cons second tail =>
      have same : isIsolated c (baseTrig :: second :: tail ++ back) = isIsolated c (baseTrig :: second :: tail) := rfl
      simp only [turn, List.cons_append] at taken ⊢
      rw [List.cons_append, List.cons_append] at same
      rw [same]
      split_ifs at taken ⊢ with alone
      · cases taken
        rfl
      · cases taken
        obtain ⟨reported, left⟩ := process_append p
          ⟨baseTrig :: second :: tail, .zero, siteMap, siteTimeMap, 0, true⟩
          ⟨baseTrig :: second :: (tail ++ back), .zero, siteMap, siteTimeMap, 0, true⟩ back
          rfl rfl outside rfl rfl ascending (fun x member => (wellFormed x member).unset)
        rw [← reported, ← left]
        rfl

theorem process_busy (p : Platform) (c : Config) (baseTrig : TriggerInfo) (rest : List TriggerInfo) (l : Locator) :
    (l.process p c baseTrig rest).2.busy = true ↔ (l.process p c baseTrig rest).2.allTriggers ≠ [] := by
  simp only [Locator.process]
  split_ifs <;> exact decide_eq_true_iff

/-- A pass that need not wait is a turn. -/
theorem pass_turn (sane : Sane siteMap siteTimeMap l) (wellFormed : ∀ x ∈ l.allTriggers, WellFormed x)
    (old : ∀ x ∈ l.allTriggers, tooYoung p c now x = false)
    (passed : l.pass p c now = some (verdict, next)) :
    turn p c siteMap siteTimeMap l.allTriggers = some (verdict.reports, next.allTriggers) ∧
    (next.busy = true ↔ next.allTriggers ≠ []) := by
  rw [Locator.pass] at passed
  cases queue : l.allTriggers with
  | nil => simp [queue] at passed
  | cons baseTrig rest =>
    have aged := old baseTrig (queue ▸ List.mem_cons_self)
    simp only [queue, aged, Bool.false_eq_true, if_false] at passed
    simp only [turn]
    split_ifs at passed ⊢ with alone
    · cases passed
      exact ⟨rfl, decide_eq_true_iff⟩
    · have same := process_append (c := c) p
        ⟨baseTrig :: rest, .zero, siteMap, siteTimeMap, 0, true⟩
        { l with currentProcessingTime := windowEnd p c baseTrig } [] rfl (by simp [queue])
        (fun y member => absurd member List.not_mem_nil) sane.sites sane.times.value (queue ▸ sane.ascending)
        (fun x member => (wellFormed x (queue ▸ member)).unset)
      simp only [List.append_nil, queue, Option.some.inj passed] at same
      have leaves := process_busy p c baseTrig rest { l with
        allTriggers := baseTrig :: rest
        currentProcessingTime := windowEnd p c baseTrig }
      rw [Option.some.inj passed] at leaves
      exact ⟨by rw [same.1, same.2], leaves⟩

end Turn

end LigDataParsing
