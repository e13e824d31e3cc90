import LigDataParsing.Elimination
import LigDataParsing.Positions
import LigDataParsing.Machine

/-! The locating thread. One action is a merge of `transTriggers` under the lock, an
idle wait, or one turn of the loop over `allTriggers`; the clock reading of a turn is
part of the action. -/
namespace LigDataParsing

open Lookup

structure Locator where
  allTriggers : List TriggerInfo
  currentProcessingTime : GPSTime
  siteMap : SiteMap
  siteTimeMap : SiteTimeMap
  accumulatedIdleTime : ℕ
  /-- Inside the loop over `allTriggers`. -/
  busy : Bool

structure Post where
  ligTime : GPSTime
  result : LocSta
  oneComb : List TriggerInfo
  siteMap : SiteMap

/-- What one turn of the loop did, with the pool of its scan and the locals of its rounds. -/
inductive Verdict where
  | isolated (baseTrig : TriggerInfo)
  | waiting (baseTrig : TriggerInfo)
  | unlocated (baseTrig : TriggerInfo) (triggerPool : TriggerPool)
  | located (baseTrig : TriggerInfo) (triggerPool : TriggerPool) (rounds : Rounds) (post : Option Post)

/-- The second trigger is too far from the head to belong to its event. -/
def isIsolated (c : Config) : List TriggerInfo → Bool
  | first :: second :: _ => second.time.sub first.time > c.maxBaseLineAsTOA
  | _ => false

def isIsolatedWith (double : ℚ → ℚ) (c : Config) : List TriggerInfo → Bool
  | first :: second :: _ => second.time.subWith double first.time > c.maxBaseLineAsTOA
  | _ => false

@[simp] theorem isIsolatedWith_id : isIsolatedWith id = isIsolated := by
  funext c queue
  match queue with
  | [] | [_] | _ :: _ :: _ => rfl

/-- The time the network has to deliver triggers near `baseTrig` is not over yet; the
source adds the eight hours of its own time zone. -/
def tooYoung (p : Platform) (c : Config) (now : ℤ) (baseTrig : TriggerInfo) : Bool :=
  ((convertGPSTimeToUnixTime p.utcOffset baseTrig.time + 8 * 3600 : ℤ) : ℚ) > now - c.waitTime

def windowEnd (p : Platform) (c : Config) (baseTrig : TriggerInfo) : GPSTime :=
  addActPointSec Binary64.toDouble p.utcOffset baseTrig.time c.maxBaseLineAsTOA

/-- The last filters before a result is posted; `first` is `oneComb[0]`. -/
def postOf (p : Platform) (c : Config) (rounds : Rounds) (first : TriggerInfo) (siteMap : SiteMap) :
    Option Post :=
  let oneResult := rounds.result
  let oneResultRad := { oneResult with
    lat := oneResult.lat * Params.degree2radians
    lon := oneResult.lon * Params.degree2radians }
  let site := siteMap.value first.stationID
  let distanceToBase := stadistance p.libm site.latitude site.longitude oneResult.lat oneResult.lon
  if checkLocationStructure p.libm (stationsOne p rounds.triggerPool rounds.oneComb) oneResultRad
      c.checkTheta ∧ oneResult.sq < c.locThresholdFinal ∧ distanceToBase < 4000 then
    some ⟨first.time.setSecond p.utcOffset oneResult.occurT, oneResult, rounds.oneComb,
      siteMap.touch first.stationID⟩
  else none

def Locator.merge (p : Platform) (transTriggers : List TriggerInfo) (l : Locator) : Locator :=
  let admitted := transTriggers.filter fun trigger => trigger.time.gt l.currentProcessingTime
  let allTriggers := KeyedSort.sortUnique p.sorter TriggerInfo.eq (l.allTriggers ++ admitted)
  { l with allTriggers := allTriggers, accumulatedIdleTime := 0, busy := allTriggers ≠ [] }

def Locator.scanFrom (c : Config) (baseTrig : TriggerInfo) (l : Locator) : Scan :=
  scan c.maxBaseLineAsTOA baseTrig 0 l.allTriggers ⟨.empty, l.siteMap, l.siteTimeMap⟩

/-- The queue after a turn; an empty one ends the loop. -/
def Locator.leave (l : Locator) (allTriggers : List TriggerInfo) : Locator :=
  { l with allTriggers := allTriggers, busy := allTriggers ≠ [] }

def Locator.process (p : Platform) (c : Config) (baseTrig : TriggerInfo) (rest : List TriggerInfo)
    (l : Locator) : Verdict × Locator :=
  let scanned := l.scanFrom c baseTrig
  if scanned.triggerPool.size ≥ 5 then
    let rounds := locate p c scanned
    let l := { l with siteMap := rounds.siteMap, siteTimeMap := rounds.siteTimeMap }
    if rounds.minSq < c.locThresholdInitial then
      let first := rounds.oneComb.headD baseTrig
      let post := postOf p c rounds first l.siteMap
      let indices := IndexedErase.descending (rounds.oneComb.map TriggerInfo.trigIdx)
      (.located baseTrig scanned.triggerPool rounds post,
        { l with siteMap := l.siteMap.touch first.stationID }.leave
          (IndexedErase.eraseAll l.allTriggers indices))
    else (.unlocated baseTrig scanned.triggerPool, l.leave rest)
  else
    (.unlocated baseTrig scanned.triggerPool,
      { l with siteMap := scanned.siteMap, siteTimeMap := scanned.siteTimeMap }.leave rest)

/-- One turn of `while (allTriggers.size())`, with `time(nullptr)` read as `now`. -/
def Locator.pass (p : Platform) (c : Config) (now : ℤ) (l : Locator) : Option (Verdict × Locator) :=
  match l.allTriggers with
  | [] => none
  | baseTrig :: rest =>
    if isIsolated c l.allTriggers then some (.isolated baseTrig, l.leave rest)
    else
      let l := { l with currentProcessingTime := windowEnd p c baseTrig }
      if tooYoung p c now baseTrig then some (.waiting baseTrig, { l with busy := false })
      else some (l.process p c baseTrig rest)

inductive Action where
  | merge (transTriggers : List TriggerInfo)
  | idle
  | pass (now : ℤ)

/-- A merge shows the queue, the watermark and the batch it met; a pass shows the clock,
the queue it met, its verdict and the queue it left. -/
inductive Event where
  | merge (allTriggers : List TriggerInfo) (currentProcessingTime : GPSTime)
      (transTriggers : List TriggerInfo)
  | idle (warned : Bool)
  | pass (now : ℤ) (allTriggers : List TriggerInfo) (verdict : Verdict) (remaining : List TriggerInfo)

def Locator.step (p : Platform) (c : Config) (l : Locator) : Action → Option (Event × Locator)
  | .merge transTriggers =>
    if l.busy ∨ transTriggers = [] then none
    else some (.merge l.allTriggers l.currentProcessingTime transTriggers, l.merge p transTriggers)
  | .idle =>
    if l.busy then none
    else some (.idle (l.accumulatedIdleTime % 600 = 0 ∧ l.accumulatedIdleTime ≠ 0),
      { l with accumulatedIdleTime := l.accumulatedIdleTime + 10 })
  | .pass now =>
    if l.busy then (l.pass p c now).map fun done =>
      (.pass now l.allTriggers done.1 done.2.allTriggers, done.2)
    else none

def startWatermark (c : Config) : GPSTime := if c.reProcess then GPSTime.zero else c.currentProcessingTime

def Locator.start (c : Config) (siteMap : SiteMap) (siteTimeMap : SiteTimeMap) : Locator :=
  ⟨[], startWatermark c, siteMap, siteTimeMap, 0, false⟩

abbrev Runs (p : Platform) (c : Config) (siteMap : SiteMap) (siteTimeMap : SiteTimeMap)
    (events : List Event) (l : Locator) : Prop :=
  Machine.Reaches (Locator.step p c) (Locator.start c siteMap siteTimeMap) events l

def Verdict.triggerPool : Verdict → Option TriggerPool
  | .unlocated _ triggerPool => some triggerPool
  | .located _ triggerPool _ _ => some triggerPool
  | _ => none

def Event.triggerPool : Event → Option TriggerPool
  | .pass _ _ verdict _ => verdict.triggerPool
  | _ => none

def Verdict.oneComb : Verdict → List TriggerInfo
  | .located _ _ rounds _ => rounds.oneComb
  | _ => []

def Event.handover : Event → Option (List TriggerInfo × GPSTime × List TriggerInfo)
  | .merge allTriggers currentProcessingTime transTriggers =>
    some (allTriggers, currentProcessingTime, transTriggers)
  | _ => none

theorem Event.of_handover {event : Event} {queue batch : List TriggerInfo} {watermark : GPSTime}
    (shown : event.handover = some (queue, watermark, batch)) : event = .merge queue watermark batch := by
  cases event with
  | merge =>
    cases shown
    rfl
  | idle | pass => simp [Event.handover] at shown

def Event.post : Event → Option Post
  | .pass _ _ (.located _ _ _ post) _ => post
  | _ => none

def posts (events : List Event) : List Post := events.filterMap Event.post

theorem mem_posts {events : List Event} {post : Post} (member : post ∈ posts events) :
    ∃ now queue baseTrig triggerPool rounds remaining,
      Event.pass now queue (.located baseTrig triggerPool rounds (some post)) remaining ∈ events := by
  obtain ⟨event, inRun, posted⟩ := List.mem_filterMap.mp member
  cases event with
  | merge | idle => simp [Event.post] at posted
  | pass now queue verdict remaining =>
    cases verdict with
    | isolated | waiting | unlocated => simp [Event.post] at posted
    | located baseTrig triggerPool rounds shown =>
      obtain rfl : shown = some post := posted
      exact ⟨now, queue, baseTrig, triggerPool, rounds, remaining, inRun⟩

section Inversion

variable {p : Platform} {c : Config} {now : ℤ} {l next : Locator} {verdict : Verdict}

inductive Passed (p : Platform) (c : Config) (now : ℤ) (l : Locator) (baseTrig : TriggerInfo)
    (rest : List TriggerInfo) : Verdict → Locator → Prop where
  | isolated (alone : isIsolated c l.allTriggers = true) :
      Passed p c now l baseTrig rest (.isolated baseTrig) (l.leave rest)
  | waiting (near : isIsolated c l.allTriggers = false) (young : tooYoung p c now baseTrig = true) :
      Passed p c now l baseTrig rest (.waiting baseTrig)
        { l with currentProcessingTime := windowEnd p c baseTrig, busy := false }
  | few (near : isIsolated c l.allTriggers = false) (old : tooYoung p c now baseTrig = false)
      (few : (l.scanFrom c baseTrig).triggerPool.size < 5) :
      Passed p c now l baseTrig rest (.unlocated baseTrig (l.scanFrom c baseTrig).triggerPool)
        (Locator.leave { l with
          currentProcessingTime := windowEnd p c baseTrig
          siteMap := (l.scanFrom c baseTrig).siteMap
          siteTimeMap := (l.scanFrom c baseTrig).siteTimeMap } rest)
  | rejected (near : isIsolated c l.allTriggers = false) (old : tooYoung p c now baseTrig = false)
      (enough : 5 ≤ (l.scanFrom c baseTrig).triggerPool.size)
      (poor : c.locThresholdInitial ≤ (locate p c (l.scanFrom c baseTrig)).minSq) :
      Passed p c now l baseTrig rest (.unlocated baseTrig (l.scanFrom c baseTrig).triggerPool)
        (Locator.leave { l with
          currentProcessingTime := windowEnd p c baseTrig
          siteMap := (locate p c (l.scanFrom c baseTrig)).siteMap
          siteTimeMap := (locate p c (l.scanFrom c baseTrig)).siteTimeMap } rest)
  | located (near : isIsolated c l.allTriggers = false) (old : tooYoung p c now baseTrig = false)
      (enough : 5 ≤ (l.scanFrom c baseTrig).triggerPool.size) (rounds : Rounds)
      (found : rounds = locate p c (l.scanFrom c baseTrig))
      (good : rounds.minSq < c.locThresholdInitial) :
      Passed p c now l baseTrig rest
        (.located baseTrig (l.scanFrom c baseTrig).triggerPool rounds
          (postOf p c rounds (rounds.oneComb.headD baseTrig) rounds.siteMap))
        (Locator.leave { l with
          currentProcessingTime := windowEnd p c baseTrig
          siteMap := rounds.siteMap.touch (rounds.oneComb.headD baseTrig).stationID
          siteTimeMap := rounds.siteTimeMap }
          (IndexedErase.eraseAll l.allTriggers
            (IndexedErase.descending (rounds.oneComb.map TriggerInfo.trigIdx))))

theorem pass_cases (passed : l.pass p c now = some (verdict, next)) :
    ∃ baseTrig rest, l.allTriggers = baseTrig :: rest ∧ Passed p c now l baseTrig rest verdict next := by
  rw [Locator.pass] at passed
  cases queue : l.allTriggers with
  | nil => simp [queue] at passed
  | cons baseTrig rest =>
    refine ⟨baseTrig, rest, rfl, ?_⟩
    simp only [queue] at passed
    rw [← queue] at passed
    split_ifs at passed with alone young
    · obtain ⟨rfl, rfl⟩ := Prod.mk.inj (Option.some.inj passed)
      exact .isolated alone
    · obtain ⟨rfl, rfl⟩ := Prod.mk.inj (Option.some.inj passed)
      exact .waiting (Bool.eq_false_of_not_eq_true alone) young
    · have near := Bool.eq_false_of_not_eq_true alone
      have old := Bool.eq_false_of_not_eq_true young
      simp only [Locator.process] at passed
      split_ifs at passed with enough good
      · obtain ⟨rfl, rfl⟩ := Prod.mk.inj (Option.some.inj passed)
        exact .located near old enough _ rfl good
      · obtain ⟨rfl, rfl⟩ := Prod.mk.inj (Option.some.inj passed)
        exact .rejected near old enough (not_lt.mp good)
      · obtain ⟨rfl, rfl⟩ := Prod.mk.inj (Option.some.inj passed)
        exact .few near old (not_le.mp enough)

inductive Stepped (p : Platform) (c : Config) (l : Locator) : Action → Event → Locator → Prop where
  | merge (transTriggers : List TriggerInfo) (free : l.busy = false) (nonempty : transTriggers ≠ []) :
      Stepped p c l (.merge transTriggers)
        (.merge l.allTriggers l.currentProcessingTime transTriggers) (l.merge p transTriggers)
  | idle (warned : Bool) (free : l.busy = false) :
      Stepped p c l .idle (.idle warned) { l with accumulatedIdleTime := l.accumulatedIdleTime + 10 }
  | pass (now : ℤ) (baseTrig : TriggerInfo) (rest : List TriggerInfo) (verdict : Verdict)
      (next : Locator) (busy : l.busy = true) (queue : l.allTriggers = baseTrig :: rest)
      (passed : Passed p c now l baseTrig rest verdict next) :
      Stepped p c l (.pass now) (.pass now l.allTriggers verdict next.allTriggers) next

/-- A pass that shows a combination is one that located it. -/
theorem located_of_oneComb {t : TriggerInfo} {comb remaining : List TriggerInfo}
    (shown : (l.pass p c now).map (fun done => (done.1.oneComb, done.2.allTriggers)) =
      some (t :: comb, remaining)) :
    ∃ baseTrig triggerPool rounds post next,
      l.pass p c now = some (.located baseTrig triggerPool rounds post, next) ∧
      rounds.oneComb = t :: comb ∧ next.allTriggers = remaining := by
  obtain ⟨⟨verdict, next⟩, passed, done⟩ := Option.map_eq_some_iff.mp shown
  obtain ⟨combination, left⟩ := Prod.mk.inj done
  cases verdict with
  | located baseTrig triggerPool rounds post =>
    exact ⟨baseTrig, triggerPool, rounds, post, next, passed, combination, left⟩
  | isolated | waiting | unlocated => simp [Verdict.oneComb] at combination

theorem step_cases {a : Action} {event : Event} (stepped : l.step p c a = some (event, next)) :
    Stepped p c l a event next := by
  cases a with
  | merge transTriggers =>
    simp only [Locator.step] at stepped
    split_ifs at stepped with blocked
    obtain ⟨rfl, rfl⟩ := Prod.mk.inj (Option.some.inj stepped)
    obtain ⟨free, nonempty⟩ := not_or.mp blocked
    exact .merge transTriggers (Bool.eq_false_of_not_eq_true free) nonempty
  | idle =>
    simp only [Locator.step] at stepped
    split_ifs at stepped with busy
    obtain ⟨rfl, rfl⟩ := Prod.mk.inj (Option.some.inj stepped)
    exact .idle _ (Bool.eq_false_of_not_eq_true busy)
  | pass now =>
    simp only [Locator.step] at stepped
    split_ifs at stepped with busy
    obtain ⟨⟨verdict, after⟩, passed, done⟩ := Option.map_eq_some_iff.mp stepped
    obtain ⟨rfl, rfl⟩ := Prod.mk.inj done
    obtain ⟨baseTrig, rest, queue, inverted⟩ := pass_cases passed
    exact .pass now baseTrig rest verdict after busy queue inverted

end Inversion

/-! A small network to evaluate the definitions on: all stations and results lie at one
place on the equator, where the C library is asked for values at zero or for values that
do not matter; every propagation time is 4 ms, and the solver is given. -/
namespace Sample

def platform (geoLocation : List LocSta → List ℚ → LocSta) : Platform where
  utcOffset := 8 * 3600
  sorter := KeyedSort.insertionSorter TriggerInfo.lt_iff
  libm := ⟨id, fun _ => 1, id, fun _ => 0, id, id⟩
  geoLocation := geoLocation
  uninitResult := ⟨0, 0, 0, 0, 0⟩
  uninitIndex := 0

def config : Config where
  maxBaseLineAsTOA := 0.005
  locThresholdInitial := 1
  checkTheta := 0
  waitTime := 90
  locThresholdFinal := 1.1
  currentProcessingTime := GPSTime.zero
  reProcess := true
  startTime := GPSTime.ofFields 24 4 20 20 0 30 0
  endTime := GPSTime.ofFields 24 4 20 20 40 30 0

def trigger (stationID : ℤ) (actPointSec : ℚ) : TriggerInfo :=
  ⟨GPSTime.ofFields 24 4 20 20 5 17 actPointSec, stationID, 1, 0⟩

def site (stationID : ℤ) : StationInfo := ⟨stationID, "", 0, 110, 0, "", true⟩

def siteMap : SiteMap := fun id => some (site id)

def siteTimeMap : SiteTimeMap := fun _ => some fun _ => some 0.004

def locator (allTriggers : List TriggerInfo) : Locator :=
  ⟨allTriggers, GPSTime.zero, siteMap, siteTimeMap, 0, true⟩

def now : ℤ := 2000000000

def early : ℤ := 1713643520

end Sample

end LigDataParsing
