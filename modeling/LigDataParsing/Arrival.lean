import LigDataParsing.Located

/-! The arrivals of one physical event in the queue: when the timing tests of a pass,
which subtract times digit by digit, let all of them through. -/
namespace LigDataParsing

open Lookup

def positions (queue : List TriggerInfo) : List (ℕ × TriggerInfo) := queue.zipIdx.map Prod.swap

/-- What the scan makes of the first trigger of a station. -/
def place (e : ℕ × TriggerInfo) : TriggerInfo := { e.2 with trigIdx := e.1 }

def numbered (queue : List TriggerInfo) : List TriggerInfo := (positions queue).map place

def singleEntry (location : ℤ → LocSta) (e : ℕ × TriggerInfo) : ℤ × TriggerAtStation :=
  (e.2.stationID, ⟨[place e], location e.2.stationID, e.2.stationID⟩)

/-- A queue holding the arrivals of one event, one per station; `distance` is in
kilometres and agrees with `siteTimeMap` between stations. -/
structure Arrivals {Point : Type*} (distance : Point → Point → ℚ) (source : Point) (position : ℤ → Point)
    (instant : ℚ) (utcOffset : ℤ) (c : Config) (siteTimeMap : SiteTimeMap) (queue : List TriggerInfo) :
    Prop where
  triangle : ∀ x y z, distance x z ≤ distance x y + distance y z
  baseline : ∀ a ∈ queue, ∀ b ∈ queue, distance (position a.stationID) (position b.stationID) =
    Params.cVeo * siteTimeMap.value a.stationID b.stationID
  ascending : Ascending queue
  stations : (queue.map TriggerInfo.stationID).Nodup
  count : 5 ≤ queue.length ∧ queue.length ≤ 8
  valid : ∀ t ∈ queue, t.time.Valid
  arrival : ∀ t ∈ queue, getPosixTime utcOffset t.time =
    instant + distance source (position t.stationID) / Params.cVeo
  sign : (∀ t ∈ queue, 0 ≤ t.value) ∨ ∀ t ∈ queue, t.value ≤ 0
  spread : ∀ a ∈ queue, ∀ b ∈ queue,
    getPosixTime utcOffset b.time - getPosixTime utcOffset a.time ≤ c.maxBaseLineAsTOA

/-- A pass scans the queue, pools all of its triggers and finds the combination of
exactly these. -/
def Recognised (p : Platform) (c : Config) (now : ℤ) (l : Locator) : Prop :=
  ∃ verdict next pool, l.pass p c now = some (verdict, next) ∧ verdict.triggerPool = some pool ∧
    (∀ t ∈ numbered l.allTriggers, ∃ entry, (t.stationID, entry) ∈ pool.entries ∧ t ∈ entry.triggers) ∧
    numbered l.allTriggers ∈ (getLocationPoolP pool l.siteTimeMap pool.size).combinationPool

def OneMinute (queue : List TriggerInfo) : Prop :=
  ∀ a ∈ queue, ∀ b ∈ queue, GPSTime.SameMinute a.time b.time

/-- The digit differences themselves stay within the window and within the propagation
times. -/
structure DigitsFit (c : Config) (time : ℤ → ℤ → ℚ) (queue : List TriggerInfo) : Prop where
  window : ∀ a ∈ queue, ∀ b ∈ queue, b.time.sub a.time ≤ c.maxBaseLineAsTOA
  pairs : queue.Pairwise fun a b => b.time.sub a.time ≤ time a.stationID b.stationID + 0.0001

theorem positions_snd (queue : List TriggerInfo) : (positions queue).map Prod.snd = queue := by
  simp [positions, Function.comp_def]

section Window

variable {c : Config} {baseTrig : TriggerInfo}

/-- Nothing stops or thins out the scan of a queue that lies within the window. -/
theorem examined_all {queue : List TriggerInfo} (j : ℕ) (sign : ∀ t ∈ queue, ¬ baseTrig.value * t.value < 0)
    (within : ∀ t ∈ queue, 0 ≤ t.time.sub baseTrig.time ∧ t.time.sub baseTrig.time ≤ c.maxBaseLineAsTOA) :
    examined c.maxBaseLineAsTOA baseTrig j queue = (queue.zipIdx j).map Prod.swap := by
  induction queue generalizing j with
  | nil => rfl
  | cons oneTrig rest ih =>
    obtain ⟨same, sign⟩ := List.forall_mem_cons.mp sign
    obtain ⟨⟨after, before⟩, within⟩ := List.forall_mem_cons.mp within
    rw [GPSTime.sub_neg] at after before
    rw [examined, if_neg same, if_neg (by rw [not_or]; constructor <;> linarith), ih (j + 1) sign within]
    rfl

/-- Distinct stations, no more than the pool takes, are admitted one by one. -/
theorem foldl_admitPool_distinct (location : ℤ → LocSta) {entries : List (ℕ × TriggerInfo)}
    (stations : (entries.map fun e => e.2.stationID).Nodup) (room : entries.length ≤ 8) :
    (entries.foldl (admitPool location) OrderedMap.empty).entries = entries.map (singleEntry location) := by
  induction entries using List.reverseRecOn with
  | nil => rfl
  | append_singleton entries e ih =>
    rw [List.map_append, List.nodup_append] at stations
    rw [List.length_append, List.length_singleton] at room
    have built := ih stations.1 (by omega)
    have fresh : e.2.stationID ∉ (entries.foldl (admitPool location) OrderedMap.empty).keys := by
      rw [OrderedMap.keys, built, List.map_map]
      intro member
      exact stations.2.2 _ member _ (List.mem_singleton.mpr rfl) rfl
    have size : (entries.foldl (admitPool location) OrderedMap.empty).size = entries.length := by
      rw [OrderedMap.size, built, List.length_map]
    rw [List.foldl_append, List.foldl_cons, List.foldl_nil, admitPool, OrderedMap.find_eq_none.mpr fresh]
    simp only [size]
    rw [if_neg (by omega), OrderedMap.entries_insert fresh, built, List.map_append]
    rfl

end Window

theorem choice_singletons (picks : List TriggerInfo) : Backtrack.Choice picks (picks.map ([·])) := by
  induction picks with
  | nil => exact .nil
  | cons t rest ih => exact .cons (List.mem_singleton.mpr rfl) ih

theorem pass_total (p : Platform) (c : Config) (now : ℤ) {l : Locator} (nonempty : l.allTriggers ≠ []) :
    ∃ verdict next, l.pass p c now = some (verdict, next) := by
  cases passed : l.pass p c now with
  | some done => exact ⟨done.1, done.2, rfl⟩
  | none =>
    rw [Locator.pass] at passed
    cases queue : l.allTriggers with
    | nil => contradiction
    | cons baseTrig rest =>
      simp only [queue] at passed
      split_ifs at passed

section Pass

variable {p : Platform} {c : Config} {now : ℤ} {l : Locator} {baseTrig : TriggerInfo} {rest : List TriggerInfo}

/-- If the window is the whole queue, one trigger per station, the pool holds every
trigger with its position and the enumeration returns them all together. -/
theorem pool_of_window (stations : (l.allTriggers.map TriggerInfo.stationID).Nodup)
    (count : l.allTriggers.length ≤ 8)
    (window : l.windowOf c baseTrig = positions l.allTriggers)
    (pairs : l.allTriggers.Pairwise fun a b =>
      |b.time.sub a.time| ≤ l.siteTimeMap.value a.stationID b.stationID + 0.0001) :
    (∀ t ∈ numbered l.allTriggers, ∃ entry,
      (t.stationID, entry) ∈ (l.scanFrom c baseTrig).triggerPool.entries ∧ t ∈ entry.triggers) ∧
    numbered l.allTriggers ∈ (getLocationPoolP (l.scanFrom c baseTrig).triggerPool l.siteTimeMap
      (l.scanFrom c baseTrig).triggerPool.size).combinationPool := by
  have triggers := positions_snd l.allTriggers
  have entries : (l.scanFrom c baseTrig).triggerPool.entries =
      (positions l.allTriggers).map (singleEntry l.siteMap.location) := by
    have pool := (scan_spec c.maxBaseLineAsTOA baseTrig 0 l.allTriggers ⟨.empty, l.siteMap, l.siteTimeMap⟩).1
    rw [Locator.scanFrom, pool]
    change ((l.windowOf c baseTrig).foldl (admitPool l.siteMap.location) OrderedMap.empty).entries = _
    rw [window]
    apply foldl_admitPool_distinct
    · have ids : (positions l.allTriggers).map (fun e => e.2.stationID) = l.allTriggers.map TriggerInfo.stationID := by
        rw [← congrArg (List.map TriggerInfo.stationID) triggers, List.map_map]
        rfl
      exact ids ▸ stations
    · simpa [positions] using count
  have lists : poolTriggers (l.scanFrom c baseTrig).triggerPool = (numbered l.allTriggers).map ([·]) := by
    rw [poolTriggers_eq, entries, numbered, List.map_map, List.map_map]
    rfl
  constructor
  · intro t member
    obtain ⟨e, inQueue, rfl⟩ := List.mem_map.mp member
    rw [entries]
    exact ⟨(singleEntry l.siteMap.location e).2, List.mem_map_of_mem inQueue, List.mem_singleton.mpr rfl⟩
  · rw [getLocationPoolP_eq, mem_combinationsOf, lists]
    refine ⟨choice_singletons _, ?_⟩
    rw [← triggers, List.pairwise_map] at pairs
    rw [Backtrack.Compatible, numbered, List.pairwise_map]
    exact pairs.imp fun near => decide_eq_true near

theorem Recognised.fits (ascending : Ascending l.allTriggers) (recognised : Recognised p c now l) :
    DigitsFit c l.siteTimeMap.value l.allTriggers := by
  obtain ⟨verdict, next, pool, passed, scanned, pooled, found⟩ := recognised
  obtain ⟨baseTrig, rest, queue, inverted⟩ := pass_cases passed
  have same : pool = (l.scanFrom c baseTrig).triggerPool := by
    cases inverted with
    | isolated | waiting => simp [Verdict.triggerPool] at scanned
    | few | rejected | located => exact (Option.some.inj scanned).symm
  subst same
  have triggers := positions_snd l.allTriggers
  have near : ∀ t ∈ l.allTriggers, 0 ≤ t.time.sub baseTrig.time ∧ t.time.sub baseTrig.time ≤ c.maxBaseLineAsTOA := by
    intro t member
    rw [← triggers] at member
    obtain ⟨e, inQueue, rfl⟩ := List.mem_map.mp member
    obtain ⟨entry, inPool, inEntry⟩ := pooled (place e) (List.mem_map_of_mem inQueue)
    rw [((scanFrom_spec c baseTrig l).1.entry _ entry inPool).2.2.1] at inEntry
    obtain ⟨_, j, x, stands⟩ := marked_stands ascending inEntry
    have sameTime : (place e).time = x.time := by
      rcases stands.carried with ⟨same, _⟩ | ⟨same, _⟩
      · rw [same]
      · rw [same]
    obtain ⟨_, _, below, above⟩ := mem_examined (mem_window.mp stands.inWindow).1
    rw [show e.2.time = x.time from sameTime, GPSTime.sub_neg]
    exact ⟨by linarith, by linarith⟩
  constructor
  · intro a inQueue b inQueue'
    have sum := GPSTime.sub_add_sub b.time a.time baseTrig.time
    linarith [(near a inQueue).1, (near b inQueue').2]
  · have compatible := (getLocationPoolP_sound found).2
    rw [Backtrack.Compatible, numbered, List.pairwise_map] at compatible
    rw [← triggers, List.pairwise_map]
    exact compatible.imp fun fits => (le_abs_self _).trans (of_decide_eq_true fits)

variable {Point : Type*} {distance : Point → Point → ℚ} {source : Point} {position : ℤ → Point} {instant : ℚ}

theorem Arrivals.ordered
    (arrivals : Arrivals distance source position instant p.utcOffset c l.siteTimeMap l.allTriggers) :
    l.allTriggers.Pairwise fun a b => 0 ≤ b.time.sub a.time := by
  have valid := arrivals.valid
  have ascending := List.pairwise_iff_getElem.mp arrivals.ascending
  rw [List.pairwise_iff_getElem]
  intro i j boundI boundJ before
  exact GPSTime.sub_nonneg (valid _ (List.getElem_mem boundI)) (valid _ (List.getElem_mem boundJ))
    (TriggerInfo.stamp_le_of_key_le (ascending i j boundI boundJ before).le)

theorem Arrivals.window_all
    (arrivals : Arrivals distance source position instant p.utcOffset c l.siteTimeMap l.allTriggers)
    (fits : DigitsFit c l.siteTimeMap.value l.allTriggers) (queue : l.allTriggers = baseTrig :: rest) :
    l.windowOf c baseTrig = positions l.allTriggers := by
  have head : baseTrig ∈ l.allTriggers := queue ▸ List.mem_cons_self
  have after : ∀ t ∈ l.allTriggers, 0 ≤ t.time.sub baseTrig.time ∧
      t.time.sub baseTrig.time ≤ l.siteTimeMap.value baseTrig.stationID t.stationID + 0.0001 := by
    have ordered := arrivals.ordered
    have pairs := fits.pairs
    rw [queue] at ordered pairs ⊢
    intro t member
    rcases List.mem_cons.mp member with rfl | later
    · have self := arrivals.baseline t head t head
      have loop := arrivals.triangle (position t.stationID) (position t.stationID) (position t.stationID)
      have speed : (0 : ℚ) < Params.cVeo := by norm_num [Params.cVeo]
      have nonneg : 0 ≤ l.siteTimeMap.value t.stationID t.stationID := by
        by_contra negative
        have := mul_neg_of_pos_of_neg speed (not_le.mp negative)
        linarith
      rw [GPSTime.sub_self]
      exact ⟨le_rfl, by linarith⟩
    · exact ⟨List.rel_of_pairwise_cons ordered later, List.rel_of_pairwise_cons pairs later⟩
  have sign : ∀ t ∈ l.allTriggers, ¬ baseTrig.value * t.value < 0 := by
    intro t member
    rw [not_lt]
    rcases arrivals.sign with nonneg | nonpos
    · exact mul_nonneg (nonneg baseTrig head) (nonneg t member)
    · exact mul_nonneg_of_nonpos_of_nonpos (nonpos baseTrig head) (nonpos t member)
  rw [Locator.windowOf, window, examined_all 0 sign fun t member =>
    ⟨(after t member).1, fits.window baseTrig head t member⟩]
  apply List.filter_eq_self.mpr
  intro e member
  have inQueue : e.2 ∈ l.allTriggers := by
    obtain ⟨e', inside, rfl⟩ := List.mem_map.mp member
    exact List.fst_mem_of_mem_zipIdx inside
  rw [decide_eq_true_eq, GPSTime.sub_neg, abs_neg, abs_of_nonneg (after e.2 inQueue).1]
  exact (after e.2 inQueue).2

theorem Arrivals.recognised
    (arrivals : Arrivals distance source position instant p.utcOffset c l.siteTimeMap l.allTriggers)
    (waited : ∀ baseTrig, l.allTriggers.head? = some baseTrig → tooYoung p c now baseTrig = false)
    (fits : DigitsFit c l.siteTimeMap.value l.allTriggers) : Recognised p c now l := by
  have nonempty : l.allTriggers ≠ [] := List.ne_nil_of_length_pos (by have := arrivals.count.1; omega)
  obtain ⟨verdict, next, passed⟩ := pass_total p c now nonempty
  obtain ⟨baseTrig, rest, queue, inverted⟩ := pass_cases passed
  have pairs : l.allTriggers.Pairwise fun a b =>
      |b.time.sub a.time| ≤ l.siteTimeMap.value a.stationID b.stationID + 0.0001 :=
    (arrivals.ordered.and fits.pairs).imp fun ⟨nonneg, near⟩ => by rwa [abs_of_nonneg nonneg]
  have pooled := pool_of_window arrivals.stations arrivals.count.2 (arrivals.window_all fits queue) pairs
  have old := waited baseTrig (by rw [queue, List.head?_cons])
  cases inverted with
  | isolated alone =>
    cases rest with
    | nil => simp [queue, isIsolated] at alone
    | cons second rest =>
      have far : second.time.sub baseTrig.time > c.maxBaseLineAsTOA := by
        rw [queue] at alone
        exact of_decide_eq_true alone
      exact absurd (fits.window baseTrig (by simp [queue]) second (by simp [queue])) (not_le.mpr far)
  | waiting _ young =>
    rw [old] at young
    contradiction
  | few | rejected | located => exact ⟨_, _, _, passed, rfl, pooled⟩

/-- Within one minute the differences are true times, and the triangle inequality bounds
them. -/
theorem Arrivals.fits
    (arrivals : Arrivals distance source position instant p.utcOffset c l.siteTimeMap l.allTriggers)
    (oneMinute : OneMinute l.allTriggers) : DigitsFit c l.siteTimeMap.value l.allTriggers := by
  have elapsed : ∀ a ∈ l.allTriggers, ∀ b ∈ l.allTriggers,
      b.time.sub a.time = getPosixTime p.utcOffset b.time - getPosixTime p.utcOffset a.time := by
    intro a inQueue b inQueue'
    rw [(oneMinute b inQueue' a inQueue).sub_eq, GPSTime.getPosixTime_eq _ (arrivals.valid a inQueue).calendar,
      GPSTime.getPosixTime_eq _ (arrivals.valid b inQueue').calendar]
    ring
  constructor
  · intro a inQueue b inQueue'
    rw [elapsed a inQueue b inQueue']
    exact arrivals.spread a inQueue b inQueue'
  · rw [List.pairwise_iff_getElem]
    intro i j boundI boundJ _
    have inQueue := List.getElem_mem boundI
    have inQueue' := List.getElem_mem boundJ
    have speed : (0 : ℚ) < Params.cVeo := by norm_num [Params.cVeo]
    have path := arrivals.triangle source (position l.allTriggers[i].stationID) (position l.allTriggers[j].stationID)
    rw [arrivals.baseline _ inQueue _ inQueue'] at path
    have delay : distance source (position l.allTriggers[j].stationID) / Params.cVeo ≤
        distance source (position l.allTriggers[i].stationID) / Params.cVeo +
          l.siteTimeMap.value l.allTriggers[i].stationID l.allTriggers[j].stationID := by
      rw [div_le_iff₀ speed, add_mul, div_mul_cancel₀ _ speed.ne']
      linarith
    rw [elapsed _ inQueue _ inQueue', arrivals.arrival _ inQueue, arrivals.arrival _ inQueue']
    linarith

/-- A minute change inside the queue puts a digit difference above 40 s. -/
theorem Arrivals.forty_le
    (arrivals : Arrivals distance source position instant p.utcOffset c l.siteTimeMap l.allTriggers)
    (fits : DigitsFit c l.siteTimeMap.value l.allTriggers) (across : ¬ OneMinute l.allTriggers) :
    40 ≤ c.maxBaseLineAsTOA := by
  by_contra short
  apply across
  intro a inQueue b inQueue'
  apply GPSTime.sameMinute_of_abs_sub_lt (arrivals.valid a inQueue) (arrivals.valid b inQueue')
  rw [abs_lt]
  have forward := fits.window a inQueue b inQueue'
  have backward := fits.window b inQueue' a inQueue
  rw [GPSTime.sub_neg] at forward
  constructor <;> linarith

end Pass

namespace Sample

/-- Stations on a line, 100 µs apart, with the event at its origin. -/
def position (id : ℤ) : ℚ := Params.cVeo * 0.0001 * id

def lineTimes : SiteTimeMap := fun a => some fun b => some (0.0001 * |(a - b : ℚ)|)

def onLine (allTriggers : List TriggerInfo) : Locator :=
  { locator allTriggers with siteTimeMap := lineTimes }

def withinMinute : List TriggerInfo :=
  [trigger 1 0.0001, trigger 2 0.0002, trigger 3 0.0003, trigger 4 0.0004, trigger 5 0.0005]

/-- The same event, 200 µs before a minute change. -/
def acrossMinute : List TriggerInfo :=
  [⟨GPSTime.ofFields 24 4 20 20 5 59 0.9998, 1, 1, 0⟩, ⟨GPSTime.ofFields 24 4 20 20 5 59 0.9999, 2, 1, 0⟩,
    ⟨GPSTime.ofFields 24 4 20 20 6 0 0, 3, 1, 0⟩, ⟨GPSTime.ofFields 24 4 20 20 6 0 0.0001, 4, 1, 0⟩,
    ⟨GPSTime.ofFields 24 4 20 20 6 0 0.0002, 5, 1, 0⟩]

theorem withinMinute_arrivals : Arrivals (fun x y : ℚ => |x - y|) 0 position 1713614717 28800 config
    lineTimes withinMinute :=
  ⟨abs_sub_le, by decide +kernel, by decide +kernel, by decide +kernel, by decide +kernel, by decide +kernel,
    by decide +kernel, .inl (by decide +kernel), by decide +kernel⟩

theorem acrossMinute_arrivals : Arrivals (fun x y : ℚ => |x - y|) 0 position 1713614759.9997 28800 config
    lineTimes acrossMinute :=
  ⟨abs_sub_le, by decide +kernel, by decide +kernel, by decide +kernel, by decide +kernel, by decide +kernel,
    by decide +kernel, .inl (by decide +kernel), by decide +kernel⟩

end Sample

end LigDataParsing
