import LigDataParsing.Runs

/-! The watermark `CurrentProcessingTime`: how passes move it, what it says about the
triggers that left the queue, and when a merge may refuse a trigger. -/
namespace LigDataParsing

open IndexedErase

def Event.watermark : Event → Option GPSTime
  | .merge _ currentProcessingTime _ => some currentProcessingTime
  | _ => none

def watermarks (events : List Event) : List GPSTime := events.filterMap Event.watermark

section Pass

variable {p : Platform} {c : Config} {now : ℤ} {l next : Locator} {baseTrig : TriggerInfo}
  {rest : List TriggerInfo} {verdict : Verdict} {noted : TriggerInfo → Prop}

/-- If operator- puts a trigger within the window of the base, the end of the window is not
before it: the difference and the end are rounded apart. -/
def Covers (p : Platform) (c : Config) (baseTrig x : TriggerInfo) : Prop :=
  baseTrig.time.sub x.time < -c.maxBaseLineAsTOA ∨ x.time.stamp ≤ (windowEnd p c baseTrig).stamp

/-- What a pass does to queue and watermark: either it drops an isolated head, or it sets
the watermark to the end of the base's window and removes nothing of note beyond it. -/
inductive Moved (p : Platform) (c : Config) (noted : TriggerInfo → Prop) (l : Locator) (baseTrig : TriggerInfo)
    (rest : List TriggerInfo) (next : Locator) : Prop where
  | dropped (watermark : next.currentProcessingTime = l.currentProcessingTime)
      (queue : next.allTriggers = rest) (more : rest ≠ []) (busy : next.busy = true)
  | windowed (watermark : next.currentProcessingTime = windowEnd p c baseTrig)
      (within : ∀ x ∈ l.allTriggers, x ∉ next.allTriggers → noted x →
        x.time.stamp ≤ (windowEnd p c baseTrig).stamp)

theorem rest_ne_nil_of_isolated (alone : isIsolated c (baseTrig :: rest) = true) : rest ≠ [] := by
  rintro rfl
  simp [isIsolated] at alone

theorem base_le_windowEnd (p : Platform) (stamped : Stamped baseTrig) (delay : 0 ≤ c.maxBaseLineAsTOA) :
    baseTrig.time.stamp ≤ (windowEnd p c baseTrig).stamp :=
  GPSTime.le_addActPointSec p.utcOffset stamped.time stamped.double delay

theorem head_first (ascending : Ascending l.allTriggers) (queue : l.allTriggers = baseTrig :: rest) :
    ∀ x ∈ l.allTriggers, baseTrig.time.stamp ≤ x.time.stamp := by
  intro x member
  rw [queue] at ascending member
  exact TriggerInfo.stamp_le_of_key_le (ascending.head_le member)

/-- Everything the erasures of a located pass remove is within the window of the base, in
the digits the scan compares. -/
theorem erased_within (ascending : Ascending l.allTriggers) (wellFormed : ∀ x ∈ l.allTriggers, WellFormed x)
    (enough : 5 ≤ (l.scanFrom c baseTrig).triggerPool.size)
    (good : (locate p c (l.scanFrom c baseTrig)).minSq < c.locThresholdInitial) {x : TriggerInfo}
    (member : x ∈ l.allTriggers) (erased : x ∉ eraseAll l.allTriggers
      (descending ((locate p c (l.scanFrom c baseTrig)).oneComb.map TriggerInfo.trigIdx))) :
    -c.maxBaseLineAsTOA ≤ baseTrig.time.sub x.time := by
  obtain ⟨front, back, split, inRange, low⟩ :=
    locate_front ascending (fun x member => (wellFormed x member).unset) enough good
  rw [split, eraseAll_append back inRange, List.mem_append, not_or] at erased
  have inFront : x ∈ front := by
    rw [split] at member
    exact (List.mem_append.mp member).resolve_right erased.2
  obtain ⟨e, inWindow, bound⟩ := low x inFront
  have queued := List.mem_of_getElem? (windowOf_queue inWindow)
  calc -c.maxBaseLineAsTOA
    _ ≤ baseTrig.time.sub e.2.time := (mem_examined (mem_window.mp inWindow).1).2.2.1
    _ ≤ baseTrig.time.sub x.time := GPSTime.sub_le_sub (wellFormed x member).time (wellFormed e.2 queued).time
      (TriggerInfo.stamp_le_of_key_le bound) baseTrig.time

theorem Passed.moved (delay : 0 ≤ c.maxBaseLineAsTOA) (ascending : Ascending l.allTriggers)
    (stamped : ∀ x ∈ l.allTriggers, Stamped x) (queue : l.allTriggers = baseTrig :: rest)
    (covers : isIsolated c (baseTrig :: rest) = false → tooYoung p c now baseTrig = false →
      ∀ x ∈ rest, noted x → Covers p c baseTrig x)
    (passed : Passed p c now l baseTrig rest verdict next) : Moved p c noted l baseTrig rest next := by
  have base := stamped baseTrig (queue ▸ List.mem_cons_self)
  have head := base_le_windowEnd p base delay
  have headOnly : ∀ x ∈ l.allTriggers, x ∉ rest → noted x →
      x.time.stamp ≤ (windowEnd p c baseTrig).stamp := by
    intro x member removed _
    rw [queue] at member
    rw [(List.mem_cons.mp member).resolve_right removed]
    exact head
  cases passed with
  | isolated alone =>
    rw [queue] at alone
    have more := rest_ne_nil_of_isolated alone
    exact .dropped rfl rfl more (decide_eq_true more)
  | waiting => exact .windowed rfl fun x member removed => absurd member removed
  | few | rejected => exact .windowed rfl headOnly
  | located near old enough rounds found good =>
    subst found
    refine .windowed rfl fun x member removed note => ?_
    have within := erased_within ascending (fun x member => (stamped x member).toWellFormed) enough good member removed
    rw [queue] at near member
    rcases List.mem_cons.mp member with rfl | later
    · exact head
    · exact (covers near old x later note).resolve_left (not_lt.mpr within)

end Pass

/-- In a pass that gets past the tests of its head, no trigger of the window comes after
the end of the window, whether operator- is exact or rounded. -/
def Event.covered (p : Platform) (c : Config) : Event → Bool
  | .pass now (head :: rest) _ _ => tooYoung p c now head ∨ ∀ double ∈ [id, Binary64.toDouble],
      isIsolatedWith double c (head :: rest) ∨
      ∀ x ∈ rest, head.time.subWith double x.time < -c.maxBaseLineAsTOA ∨ x.time.le (windowEnd p c head) = true
  | _ => true

def Steady (p : Platform) (c : Config) (noted : TriggerInfo → Prop) (events : List Event) : Prop :=
  ∀ now head rest verdict remaining, .pass now (head :: rest) verdict remaining ∈ events →
    isIsolated c (head :: rest) = false → tooYoung p c now head = false → ∀ x ∈ rest, noted x → Covers p c head x

structure Watermarked (p : Platform) (c : Config) (noted : TriggerInfo → Prop) (events : List Event) (l : Locator) :
    Prop where
  /-- The next base moves the watermark forward. -/
  ahead : ∀ x ∈ l.allTriggers, l.currentProcessingTime.stamp ≤ (windowEnd p c x).stamp
  /-- What left the queue is behind the watermark or, while passes go on, behind the head. -/
  settled : ∀ x ∈ gone events, noted x → x.time.stamp ≤ l.currentProcessingTime.stamp ∨
    l.busy = true ∧ ∀ y ∈ l.allTriggers, x.time.stamp ≤ y.time.stamp
  increasing : (watermarks events).Pairwise fun w w' => w.stamp ≤ w'.stamp
  current : ∀ w ∈ watermarks events, w.stamp ≤ l.currentProcessingTime.stamp

section Run

variable {p : Platform} {c : Config} {events : List Event} {l next : Locator} {a : Action} {event : Event}
  {noted : TriggerInfo → Prop}

theorem gone_snoc (events : List Event) (event : Event) : gone (events ++ [event]) = gone events ++ event.gone := by
  simp [gone]

theorem mem_gone_snoc {x : TriggerInfo} (earlier : x ∈ gone events) : x ∈ gone (events ++ [event]) := by
  rw [gone_snoc]
  exact List.mem_append_left _ earlier

theorem watermarks_snoc (events : List Event) (event : Event) :
    watermarks (events ++ [event]) = watermarks events ++ event.watermark.toList :=
  Machine.filterMap_snoc Event.watermark events event

theorem watermarks_pass (events : List Event) (now : ℤ) (queue remaining : List TriggerInfo) (verdict : Verdict) :
    watermarks (events ++ [.pass now queue verdict remaining]) = watermarks events := by
  rw [watermarks_snoc]
  exact List.append_nil _

theorem mem_gone_pass {now : ℤ} {queue remaining : List TriggerInfo} {verdict : Verdict} {x : TriggerInfo} :
    x ∈ gone (events ++ [.pass now queue verdict remaining]) ↔ x ∈ gone events ∨ x ∈ queue ∧ x ∉ remaining := by
  rw [gone_snoc, List.mem_append]
  simp [Event.gone]

theorem dropped_watermarked {now : ℤ} {baseTrig : TriggerInfo} {rest : List TriggerInfo} {verdict : Verdict}
    (ascending : Ascending l.allTriggers) (queue : l.allTriggers = baseTrig :: rest)
    (watermark : next.currentProcessingTime = l.currentProcessingTime) (left : next.allTriggers = rest)
    (busy : next.busy = true) (marked : Watermarked p c noted events l) :
    Watermarked p c noted (events ++ [.pass now l.allTriggers verdict next.allTriggers]) next := by
  obtain ⟨ahead, settled, increasing, current⟩ := marked
  have first := head_first ascending queue
  have noMark := watermarks_pass events now l.allTriggers next.allTriggers verdict
  have kept : ∀ y ∈ next.allTriggers, y ∈ l.allTriggers := by
    intro y inside
    rw [queue]
    exact List.mem_cons_of_mem _ (left ▸ inside)
  refine ⟨?_, ?_, noMark ▸ increasing, ?_⟩
  · intro x member
    rw [watermark]
    exact ahead x (kept x member)
  · intro x member note
    rw [watermark]
    rcases mem_gone_pass.mp member with earlier | ⟨inQueue, out⟩
    · exact (settled x earlier note).imp_right fun before => ⟨busy, fun y inside => before.2 y (kept y inside)⟩
    · rw [queue, left] at *
      obtain rfl := (List.mem_cons.mp inQueue).resolve_right out
      exact .inr ⟨busy, fun y inside => first y (List.mem_cons_of_mem _ inside)⟩
  · rw [noMark, watermark]
    exact current

theorem windowed_watermarked {now : ℤ} {baseTrig : TriggerInfo} {verdict : Verdict}
    (stamped : ∀ x ∈ l.allTriggers, Stamped x) (head : baseTrig ∈ l.allTriggers)
    (first : ∀ x ∈ l.allTriggers, baseTrig.time.stamp ≤ x.time.stamp) (delay : 0 ≤ c.maxBaseLineAsTOA)
    (double : Binary64.Representable c.maxBaseLineAsTOA) (sublist : next.allTriggers.Sublist l.allTriggers)
    (watermark : next.currentProcessingTime = windowEnd p c baseTrig)
    (within : ∀ x ∈ l.allTriggers, x ∉ next.allTriggers → noted x → x.time.stamp ≤ (windowEnd p c baseTrig).stamp)
    (marked : Watermarked p c noted events l) :
    Watermarked p c noted (events ++ [.pass now l.allTriggers verdict next.allTriggers]) next := by
  obtain ⟨ahead, settled, increasing, current⟩ := marked
  have noMark := watermarks_pass events now l.allTriggers next.allTriggers verdict
  have forward : l.currentProcessingTime.stamp ≤ next.currentProcessingTime.stamp := by
    rw [watermark]
    exact ahead baseTrig head
  have base := base_le_windowEnd p (stamped baseTrig head) delay
  refine ⟨?_, ?_, noMark ▸ increasing, ?_⟩
  · intro x member
    have queued := sublist.subset member
    rw [watermark]
    exact GPSTime.addActPointSec_mono p.utcOffset (stamped baseTrig head).time (stamped x queued).time
      (stamped baseTrig head).double double delay (first x queued)
  · intro x member note
    rcases mem_gone_pass.mp member with earlier | ⟨inQueue, out⟩
    · rcases settled x earlier note with behind | ⟨_, before⟩
      · exact .inl (behind.trans forward)
      · rw [watermark]
        exact .inl ((before baseTrig head).trans base)
    · rw [watermark]
      exact .inl (within x inQueue out note)
  · rw [noMark]
    exact fun w member => (current w member).trans forward

theorem pass_watermarked {now : ℤ} {baseTrig : TriggerInfo} {rest : List TriggerInfo} {verdict : Verdict}
    (stamped : ∀ x ∈ l.allTriggers, Stamped x) (ascending : Ascending l.allTriggers)
    (queue : l.allTriggers = baseTrig :: rest) (delay : 0 ≤ c.maxBaseLineAsTOA)
    (double : Binary64.Representable c.maxBaseLineAsTOA)
    (sublist : next.allTriggers.Sublist l.allTriggers) (moved : Moved p c noted l baseTrig rest next)
    (marked : Watermarked p c noted events l) :
    Watermarked p c noted (events ++ [.pass now l.allTriggers verdict next.allTriggers]) next := by
  cases moved with
  | dropped watermark left more busy => exact dropped_watermarked ascending queue watermark left busy marked
  | windowed watermark within =>
    exact windowed_watermarked stamped (queue ▸ List.mem_cons_self) (head_first ascending queue) delay double sublist
      watermark within marked

theorem merge_watermarked {transTriggers : List TriggerInfo} (delay : 0 ≤ c.maxBaseLineAsTOA)
    (stamped : ∀ x ∈ transTriggers, Stamped x) (free : l.busy = false) (marked : Watermarked p c noted events l) :
    Watermarked p c noted (events ++ [.merge l.allTriggers l.currentProcessingTime transTriggers])
      (l.merge p transTriggers) := by
  obtain ⟨ahead, settled, increasing, current⟩ := marked
  have marks : watermarks (events ++ [.merge l.allTriggers l.currentProcessingTime transTriggers]) =
      watermarks events ++ [l.currentProcessingTime] := watermarks_snoc events _
  have removed : gone (events ++ [.merge l.allTriggers l.currentProcessingTime transTriggers]) = gone events :=
    (gone_snoc events _).trans (List.append_nil _)
  refine ⟨?_, ?_, ?_, ?_⟩
  · intro x member
    rcases mem_merge member with old | ⟨new, later⟩
    · exact ahead x old
    · exact later.le.trans (base_le_windowEnd p (stamped x new) delay)
  · intro x member note
    rw [removed] at member
    rcases settled x member note with behind | ⟨busy, _⟩
    · exact .inl behind
    · simp [free] at busy
  · rw [marks, List.pairwise_append]
    refine ⟨increasing, List.pairwise_singleton _ _, fun w member w' last => ?_⟩
    rw [List.mem_singleton.mp last]
    exact current w member
  · rw [marks]
    intro w member
    rcases List.mem_append.mp member with earlier | last
    · exact current w earlier
    · rw [List.mem_singleton.mp last]
      exact le_rfl

theorem idle_watermarked {warned : Bool} (marked : Watermarked p c noted events l)
    (watermark : next.currentProcessingTime = l.currentProcessingTime) (left : next.allTriggers = l.allTriggers)
    (busy : next.busy = l.busy) : Watermarked p c noted (events ++ [.idle warned]) next := by
  obtain ⟨ahead, settled, increasing, current⟩ := marked
  have marks : watermarks (events ++ [.idle warned]) = watermarks events :=
    (watermarks_snoc events _).trans (List.append_nil _)
  have removed : gone (events ++ [.idle warned]) = gone events := (gone_snoc events _).trans (List.append_nil _)
  refine ⟨?_, ?_, marks ▸ increasing, ?_⟩
  · rw [left, watermark]
    exact ahead
  · rw [removed, left, watermark, busy]
    exact settled
  · rw [marks, watermark]
    exact current

theorem step_watermarked {siteMap : SiteMap} {siteTimeMap : SiteTimeMap} (delay : 0 ≤ c.maxBaseLineAsTOA)
    (double : Binary64.Representable c.maxBaseLineAsTOA) (reached : Runs p c siteMap siteTimeMap events l)
    (handed : Handed (events ++ [event]) Stamped) (steady : Steady p c noted (events ++ [event]))
    (marked : Watermarked p c noted events l) (stepped : Stepped p c l a event next) :
    Watermarked p c noted (events ++ [event]) next := by
  have stamped := runs_queue reached handed.earlier
  have ascending := (runs_sane reached).ascending
  cases stepped with
  | merge transTriggers free => exact merge_watermarked delay handed.last free marked
  | idle warned free => exact idle_watermarked marked rfl rfl rfl
  | pass now baseTrig rest verdict next busy queue passed =>
    have covers : isIsolated c (baseTrig :: rest) = false → tooYoung p c now baseTrig = false →
        ∀ x ∈ rest, noted x → Covers p c baseTrig x :=
      steady now baseTrig rest verdict next.allTriggers (List.mem_append_right _ (by simp [queue]))
    exact pass_watermarked stamped ascending queue delay double (passed.sublist queue)
      (passed.moved delay ascending stamped queue covers) marked

theorem Steady.earlier {more : List Event} (steady : Steady p c noted (events ++ more)) : Steady p c noted events :=
  fun now head rest verdict remaining member =>
    steady now head rest verdict remaining (List.mem_append_left _ member)

theorem runs_watermarked {siteMap : SiteMap} {siteTimeMap : SiteTimeMap} (delay : 0 ≤ c.maxBaseLineAsTOA)
    (double : Binary64.Representable c.maxBaseLineAsTOA) (reached : Runs p c siteMap siteTimeMap events l)
    (handed : Handed events Stamped) (steady : Steady p c noted events) : Watermarked p c noted events l := by
  refine reached.invariant (fun shown current => Handed shown Stamped → Steady p c noted shown →
    Watermarked p c noted shown current) ?_ ?_ handed steady
  · intro _ _
    exact ⟨by simp [Locator.start], by simp [gone], .nil, by simp [watermarks]⟩
  · intro shown current a event next run marked stepped handed steady
    exact step_watermarked delay double run handed steady (marked handed.earlier steady.earlier) (step_cases stepped)

/-- What has left the queue does not come back: a merge only admits what is later than the
watermark, and no pass adds anything. -/
theorem gone_forever {siteMap : SiteMap} {siteTimeMap : SiteTimeMap} (delay : 0 ≤ c.maxBaseLineAsTOA)
    (double : Binary64.Representable c.maxBaseLineAsTOA) (reached : Runs p c siteMap siteTimeMap events l)
    (handed : Handed events Stamped) (steady : Steady p c (fun _ => True) events) :
    ∀ x ∈ gone events, ∀ y ∈ l.allTriggers, y.key ≠ x.key := by
  refine reached.invariant (fun shown l => Handed shown Stamped → Steady p c (fun _ => True) shown →
    ∀ x ∈ gone shown, ∀ y ∈ l.allTriggers, y.key ≠ x.key) ?_ ?_ handed steady
  · exact fun _ _ x member => absurd member List.not_mem_nil
  · intro shown current a event next run holds stepped handed steady x left y queued
    have before := holds handed.earlier steady.earlier
    cases step_cases stepped with
    | merge transTriggers free =>
      rw [gone_snoc, show Event.gone (.merge current.allTriggers current.currentProcessingTime transTriggers) = []
        from rfl, List.append_nil] at left
      rcases mem_merge queued with old | ⟨-, later⟩
      · exact before x left y old
      · intro same
        have stamps : y.time.stamp = x.time.stamp := (Prod.mk.inj (toLex_inj.mp same)).1
        have marked := runs_watermarked delay double run handed.earlier steady.earlier
        rcases marked.settled x left trivial with behind | ⟨busy, -⟩
        · exact absurd (stamps ▸ later) (not_lt.mpr behind)
        · simp [free] at busy
    | idle =>
      rw [gone_snoc] at left
      exact before x (by simpa [Event.gone] using left) y queued
    | pass now baseTrig rest verdict next busy queue passed =>
      have kept := (passed.sublist queue).subset queued
      rcases mem_gone_pass.mp left with earlier | ⟨inQueue, out⟩
      · exact before x earlier y kept
      · intro same
        rw [(runs_sane run).ascending.key_injective kept inQueue same] at queued
        exact out queued

theorem steady_of_covered (covered : ∀ event ∈ events, event.covered p c = true) :
    Steady p c (fun _ => True) events := by
  intro now head rest verdict remaining member near old x inRest _
  have holds := of_decide_eq_true (covered _ member)
  rcases holds.resolve_left (ne_true_of_eq_false old) id List.mem_cons_self with alone | within
  · rw [isIsolatedWith_id, near] at alone
    contradiction
  · exact (within x inRest).imp_right GPSTime.le_iff.mp

end Run

/-- The watermark never moves back. Where no pass takes a trigger out of a window that ends
before it, no key that left the queue is ever in it again, after a merge or later. -/
theorem watermark_monotone_final {p : Platform} {c : Config} {siteMap : SiteMap}
    {siteTimeMap : SiteTimeMap} {events : List Event} {l : Locator} (delay : 0 ≤ c.maxBaseLineAsTOA)
    (double : Binary64.Representable c.maxBaseLineAsTOA) (handed : Handed events Stamped)
    (reached : Runs p c siteMap siteTimeMap events l) :
    ((watermarks events).Pairwise fun w w' => w.le w' = true) ∧
    ((∀ event ∈ events, event.covered p c = true) →
      (∀ x ∈ gone events, ∀ y ∈ l.allTriggers, y.eq x = false) ∧
      ∀ batch event next, (∀ x ∈ batch, Stamped x) → l.step p c (.merge batch) = some (event, next) →
        ∀ x ∈ gone events, ∀ y ∈ next.allTriggers, y.eq x = false) := by
  constructor
  · have marked : Watermarked p c (fun _ => False) events l :=
      runs_watermarked delay double reached handed fun _ _ _ _ _ _ _ _ _ _ note => note.elim
    exact marked.increasing.imp fun below => GPSTime.le_iff.mpr below
  · intro covered
    have steady := steady_of_covered covered
    have differ {x y : TriggerInfo} (apart : y.key ≠ x.key) : y.eq x = false :=
      Bool.eq_false_of_not_eq_true fun same => apart ((TriggerInfo.eq_iff y x).mp same)
    refine ⟨fun x left y queued => differ (gone_forever delay double reached handed steady x left y queued), ?_⟩
    intro batch event next stamped stepped x left y queued
    have merged := step_cases stepped
    have later : Handed (events ++ [event]) Stamped := by
      intro queue watermark batch' member
      rcases List.mem_append.mp member with earlier | last
      · exact handed queue watermark batch' earlier
      · cases merged
        cases List.mem_singleton.mp last
        exact stamped
    have steady' : Steady p c (fun _ => True) (events ++ [event]) := by
      intro now head rest verdict remaining member
      rcases List.mem_append.mp member with earlier | last
      · exact steady now head rest verdict remaining earlier
      · cases merged
        simp at last
    exact differ (gone_forever delay double (reached.snoc stepped) later steady' x (mem_gone_snoc left) y queued)

namespace Sample

def doubles : Config := { config with maxBaseLineAsTOA := Binary64.toDouble 0.004 }

def stamped (stationID sec : ℤ) (actPointSec : ℚ) : TriggerInfo :=
  ⟨.ofFields 24 4 20 20 5 sec (Binary64.toDouble actPointSec), stationID, 1, 0⟩

def stampedStations : List TriggerInfo :=
  [stamped 1 17 0.0001, stamped 2 17 0.0002, stamped 3 17 0.0004, stamped 4 17 0.0005, stamped 5 17 0.0006]

/-- The last trigger is exactly one window after the first: the sum `0.9965 + 0.004` is
rounded down. -/
def roundedWindow : List TriggerInfo :=
  [stamped 1 17 0.9965, stamped 2 18 0.0001, stamped 3 18 0.0002, stamped 4 18 0.0003,
    stamped 5 18 (Binary64.toDouble 0.9965 + Binary64.toDouble 0.004 - 1)]

def runDoubles (actions : List Action) : Option (List Event × Locator) :=
  Machine.run (Locator.step (platform prefersLate) doubles) (Locator.start doubles siteMap siteTimeMap) actions

end Sample

theorem watermark_monotone_final_repeated : ∃ events l,
    Runs (Sample.platform Sample.prefersLate) Sample.doubles Sample.siteMap Sample.siteTimeMap events l ∧
    (gone events).length = 5 ∧ (watermarks events).length = 2 ∧
    ((watermarks events).Pairwise fun w w' => w.le w' = true) ∧
    ∀ x ∈ gone events, ∀ y ∈ l.allTriggers, y.eq x = false := by
  obtain ⟨⟨events, l⟩, ran, shown⟩ := Option.map_eq_some_iff.mp
    (show (Sample.runDoubles [.merge Sample.stampedStations, .pass Sample.now, .merge Sample.stampedStations]).map
        (fun r => ((gone r.1).length, (watermarks r.1).length,
          r.1.all (Event.covered (Sample.platform Sample.prefersLate) Sample.doubles))) = some (5, 2, true)
      by decide +kernel)
  obtain ⟨removed, marks, covered⟩ := by simpa using shown
  have handed : Handed events Stamped := by
    refine handed_of_run ran fun batch member x inBatch => ?_
    have sample : batch = Sample.stampedStations := by simpa using member
    subst sample
    revert x
    decide +kernel
  obtain ⟨monotone, final⟩ := watermark_monotone_final (by decide +kernel) (by decide +kernel) handed ⟨_, ran⟩
  exact ⟨events, l, ⟨_, ran⟩, removed, marks, monotone, (final covered).1⟩

/-- Station 5 is within the window of the base, located and erased, but the end of the
window is rounded to before it: delivered again, it is back in the queue. -/
theorem removed_comes_back :
    Binary64.Representable Sample.doubles.maxBaseLineAsTOA ∧ (∀ x ∈ Sample.roundedWindow, Stamped x) ∧
    ∃ events l x y,
      Runs (Sample.platform Sample.prefersLate) Sample.doubles Sample.siteMap Sample.siteTimeMap events l ∧
      Handed events Stamped ∧ x ∈ gone events ∧ y ∈ l.allTriggers ∧ y.eq x = true := by
  have stamped : ∀ x ∈ Sample.roundedWindow, Stamped x := by decide +kernel
  obtain ⟨⟨events, l⟩, ran, shown⟩ := Option.map_eq_some_iff.mp
    (show (Sample.runDoubles [.merge Sample.roundedWindow, .pass Sample.now, .merge Sample.roundedWindow]).map
        (fun r => decide (∃ x ∈ gone r.1, ∃ y ∈ r.2.allTriggers, y.eq x = true)) = some true by decide +kernel)
  obtain ⟨x, removed, y, queued, same⟩ := of_decide_eq_true shown
  refine ⟨by decide +kernel, stamped, events, l, x, y, ⟨_, ran⟩, ?_, removed, queued, same⟩
  refine handed_of_run ran fun batch member x inBatch => ?_
  have sample : batch = Sample.roundedWindow := by simpa using member
  subst sample
  exact stamped x inBatch

/-! A merge refuses what is not later than the watermark. A pass that waits has already
written the watermark of a window it did not process. -/

def Verdict.processed : Verdict → Option TriggerInfo
  | .unlocated baseTrig _ => some baseTrig
  | .located baseTrig _ _ _ => some baseTrig
  | _ => none

def Event.closed (p : Platform) (c : Config) : Event → Option GPSTime
  | .pass _ _ verdict remaining =>
    match verdict.processed with
    | some baseTrig => if baseTrig ∈ remaining then none else some (windowEnd p c baseTrig)
    | none => none
  | _ => none

/-- The end of the last window a run has closed, its start before there is one. -/
def lastClosed (p : Platform) (c : Config) (events : List Event) : GPSTime :=
  events.foldl (fun last event => (event.closed p c).getD last) (startWatermark c)

/-- No batch merged while a base waits holds a trigger between the last closed window
and the end of the waiting base's window. -/
def Timely (p : Platform) (c : Config) (events : List Event) : Prop :=
  ∀ earlier queue watermark batch later, events = earlier ++ .merge queue watermark batch :: later →
    queue = [] ∨ ∀ x ∈ batch, x.time.gt (lastClosed p c earlier) = true → x.time.gt watermark = true

structure Traced (p : Platform) (c : Config) (events : List Event) (l : Locator) : Prop where
  origin : l.currentProcessingTime = startWatermark c ∨
    ∃ b, (b ∈ gone events ∨ b ∈ l.allTriggers) ∧
      l.currentProcessingTime.stamp = (windowEnd p c b).stamp
  closed : lastClosed p c events = startWatermark c ∨
    ∃ b ∈ gone events, lastClosed p c events = windowEnd p c b

section Refusal

variable {p : Platform} {c : Config} {events : List Event} {l next : Locator} {a : Action} {event : Event}

theorem windowEnd_congr {x y : TriggerInfo} (same : x.key = y.key) :
    (windowEnd p c x).stamp = (windowEnd p c y).stamp :=
  GPSTime.addActPointSec_congr _ p.utcOffset (Prod.mk.inj (toLex_inj.mp same)).1 c.maxBaseLineAsTOA

theorem lastClosed_snoc (events : List Event) (event : Event) :
    lastClosed p c (events ++ [event]) = (event.closed p c).getD (lastClosed p c events) := by
  simp [lastClosed]

theorem gone_or_queued {now : ℤ} {verdict : Verdict} {x : TriggerInfo} (queued : x ∈ l.allTriggers) :
    x ∈ gone (events ++ [.pass now l.allTriggers verdict next.allTriggers]) ∨ x ∈ next.allTriggers := by
  by_cases left : x ∈ next.allTriggers
  · exact .inr left
  · exact .inl (mem_gone_pass.mpr (.inr ⟨queued, left⟩))

theorem closed_base {now : ℤ} {queue remaining : List TriggerInfo} {verdict : Verdict} {w : GPSTime}
    (closed : Event.closed p c (.pass now queue verdict remaining) = some w) :
    ∃ b, verdict.processed = some b ∧ b ∉ remaining ∧ w = windowEnd p c b := by
  simp only [Event.closed] at closed
  cases processed : verdict.processed with
  | none => simp [processed] at closed
  | some b =>
    simp only [processed] at closed
    split_ifs at closed with left
    exact ⟨b, rfl, left, (Option.some.inj closed).symm⟩

theorem Passed.processed_base {now : ℤ} {baseTrig b : TriggerInfo} {rest : List TriggerInfo} {verdict : Verdict}
    (passed : Passed p c now l baseTrig rest verdict next) (processed : verdict.processed = some b) :
    b = baseTrig := by
  cases passed with
  | isolated | waiting => simp [Verdict.processed] at processed
  | few | rejected | located => exact (Option.some.inj processed).symm

theorem Passed.watermark {now : ℤ} {baseTrig : TriggerInfo} {rest : List TriggerInfo} {verdict : Verdict}
    (passed : Passed p c now l baseTrig rest verdict next) :
    next.currentProcessingTime = l.currentProcessingTime ∨
    next.currentProcessingTime = windowEnd p c baseTrig := by
  cases passed with
  | isolated => exact .inl rfl
  | waiting | few | rejected | located => exact .inr rfl

theorem step_traced (traced : Traced p c events l) (stepped : Stepped p c l a event next) :
    Traced p c (events ++ [event]) next := by
  obtain ⟨origin, closed⟩ := traced
  have unclosed (closing : event.closed p c = none) : lastClosed p c (events ++ [event]) = startWatermark c ∨
      ∃ b ∈ gone (events ++ [event]), lastClosed p c (events ++ [event]) = windowEnd p c b := by
    rw [lastClosed_snoc, closing, Option.getD_none]
    rcases closed with start | ⟨b, removed, ends⟩
    · exact .inl start
    · exact .inr ⟨b, mem_gone_snoc removed, ends⟩
  cases stepped with
  | merge transTriggers =>
    refine ⟨?_, unclosed rfl⟩
    rcases origin with start | ⟨b, removed | queued, ends⟩
    · exact .inl start
    · exact .inr ⟨b, .inl (mem_gone_snoc removed), ends⟩
    · -- deduplication may keep another trigger with the key of `b`
      obtain ⟨b', kept, sameKey⟩ := KeyedSort.sortUnique_covers p.sorter TriggerInfo.eq_iff
        (List.mem_append_left (transTriggers.filter fun x => x.time.gt l.currentProcessingTime) queued)
      exact .inr ⟨b', .inr kept, ends.trans (windowEnd_congr sameKey.symm)⟩
  | idle =>
    refine ⟨?_, unclosed rfl⟩
    rcases origin with start | ⟨b, removed | queued, ends⟩
    · exact .inl start
    · exact .inr ⟨b, .inl (mem_gone_snoc removed), ends⟩
    · exact .inr ⟨b, .inr queued, ends⟩
  | pass now baseTrig rest verdict next busy queue passed =>
    have head : baseTrig ∈ l.allTriggers := queue ▸ List.mem_cons_self
    constructor
    · rcases passed.watermark with unchanged | written
      · rw [unchanged]
        rcases origin with start | ⟨b, removed | queued, ends⟩
        · exact .inl start
        · exact .inr ⟨b, .inl (mem_gone_snoc removed), ends⟩
        · exact .inr ⟨b, gone_or_queued queued, ends⟩
      · rw [written]
        exact .inr ⟨baseTrig, gone_or_queued head, rfl⟩
    · cases closes : Event.closed p c (.pass now l.allTriggers verdict next.allTriggers) with
      | none => exact unclosed closes
      | some w =>
        obtain ⟨b, processed, left, rfl⟩ := closed_base closes
        obtain rfl := passed.processed_base processed
        rw [lastClosed_snoc, closes, Option.getD_some]
        exact .inr ⟨b, (gone_or_queued head).resolve_right left, rfl⟩

theorem runs_traced {siteMap : SiteMap} {siteTimeMap : SiteTimeMap}
    (reached : Runs p c siteMap siteTimeMap events l) : Traced p c events l := by
  apply reached.invariant (Traced p c)
  · exact ⟨.inl rfl, .inl rfl⟩
  · intro _ _ _ _ _ _ traced stepped
    exact step_traced traced (step_cases stepped)

end Refusal

/-- In a run without untimely batches, a merge refuses a trigger later than the start,
whether by the test or as seen in the queue it leaves, only behind the window of a trigger
that has left the queue. -/
theorem refused_behind_window {p : Platform} {c : Config} {siteMap : SiteMap} {siteTimeMap : SiteTimeMap}
    {events : List Event} {l : Locator} (timely : Timely p c events)
    (reached : Runs p c siteMap siteTimeMap events l) :
    ∀ earlier queue watermark batch later, events = earlier ++ .merge queue watermark batch :: later →
      (∀ x ∈ batch, x.time.gt (startWatermark c) = true → x.time.gt watermark = false →
        ∃ b ∈ gone earlier, x.time.le (windowEnd p c b) = true) ∧
      ∃ before after, Runs p c siteMap siteTimeMap earlier before ∧
        before.step p c (.merge batch) = some (.merge queue watermark batch, after) ∧
        Machine.Reaches (Locator.step p c) after later l ∧
        ∀ x ∈ batch, x.time.gt (startWatermark c) = true → (∀ y ∈ after.allTriggers, y.eq x = false) →
          ∃ b ∈ gone earlier, x.time.le (windowEnd p c b) = true := by
  rintro earlier queue watermark batch later rfl
  obtain ⟨before, a, after, run, stepped, tail⟩ := reached.step_at
  obtain ⟨origin, closed⟩ := runs_traced run
  have merged := step_cases stepped
  cases merged with
  | merge _ free =>
    have behind : ∀ x ∈ batch, x.time.gt (startWatermark c) = true →
        x.time.gt before.currentProcessingTime = false → ∃ b ∈ gone earlier, x.time.le (windowEnd p c b) = true := by
      intro x member afterStart refused
      have late : x.time.stamp ≤ before.currentProcessingTime.stamp := by
        rw [← Bool.not_eq_true, GPSTime.gt_iff] at refused
        exact not_lt.mp refused
      rcases timely _ _ _ _ _ rfl with empty | onTime
      · rcases origin with start | ⟨b, removed | queued, ends⟩
        · rw [start] at refused
          simp [afterStart] at refused
        · exact ⟨b, removed, GPSTime.le_iff.mpr (ends ▸ late)⟩
        · simp [empty] at queued
      · have past : x.time.gt (lastClosed p c earlier) = false := by
          by_contra ahead
          simp [onTime x member (Bool.eq_true_of_not_eq_false ahead)] at refused
        rcases closed with start | ⟨b, removed, ends⟩
        · rw [start, afterStart] at past
          contradiction
        · rw [ends, ← Bool.not_eq_true, GPSTime.gt_iff] at past
          exact ⟨b, removed, GPSTime.le_iff.mpr (not_lt.mp past)⟩
    refine ⟨behind, before, _, run, stepped, tail, fun x member afterStart absent => behind x member afterStart ?_⟩
    -- what passes the test is in the queue, or a trigger of the same key is
    refine Bool.eq_false_of_not_eq_true fun admitted => ?_
    have fresh : x ∈ batch.filter fun trigger => trigger.time.gt before.currentProcessingTime :=
      List.mem_filter.mpr ⟨member, admitted⟩
    obtain ⟨y, kept, same⟩ := KeyedSort.sortUnique_covers p.sorter TriggerInfo.eq_iff
      (List.mem_append_right before.allTriggers fresh)
    have differs := absent y kept
    rw [(TriggerInfo.eq_iff y x).mpr same] at differs
    contradiction

theorem refused_behind_window_repeated : ∃ events l,
    Runs (Sample.platform Sample.prefersLate) Sample.config Sample.siteMap Sample.siteTimeMap events l ∧
    (gone events).length = 5 ∧
    ∀ earlier queue watermark batch later, events = earlier ++ .merge queue watermark batch :: later →
      ∀ x ∈ batch, x.time.gt (startWatermark Sample.config) = true → x.time.gt watermark = false →
        ∃ b ∈ gone earlier, x.time.le (windowEnd (Sample.platform Sample.prefersLate) Sample.config b) = true := by
  obtain ⟨⟨events, l⟩, ran, shown⟩ := Option.map_eq_some_iff.mp
    (show (Sample.run [.merge Sample.distinctStations, .pass Sample.now, .merge Sample.distinctStations]).map
        (fun r => ((gone r.1).length, r.1.all fun e => e.handover.all fun met => met.1 = [])) = some (5, true)
      by decide +kernel)
  obtain ⟨removed, idle⟩ := Prod.mk.inj shown
  have timely : Timely (Sample.platform Sample.prefersLate) Sample.config events := by
    rintro earlier queue watermark batch later rfl
    have met := List.all_eq_true.mp idle (.merge queue watermark batch) (by simp)
    exact .inl (of_decide_eq_true met)
  exact ⟨events, l, ⟨_, ran⟩, removed, fun earlier queue watermark batch later split =>
    (refused_behind_window timely ⟨_, ran⟩ earlier queue watermark batch later split).1⟩

/-- While the first trigger waits, the second one of its window is refused: nothing has
left the queue yet. -/
theorem refused_while_waiting : ∃ events l earlier queue watermark batch later x,
    Runs (Sample.platform Sample.prefersLate) Sample.config Sample.siteMap Sample.siteTimeMap events l ∧
    events = earlier ++ .merge queue watermark batch :: later ∧ x ∈ batch ∧
    x.time.gt (startWatermark Sample.config) = true ∧ x.time.gt watermark = false ∧
    (∀ y ∈ l.allTriggers, y.eq x = false) ∧ Sample.trigger 1 0.1 ∈ queue ∧ ¬ ∃ b ∈ gone earlier,
      x.time.le (windowEnd (Sample.platform Sample.prefersLate) Sample.config b) = true := by
  obtain ⟨⟨events, l⟩, ran, shown⟩ := Option.map_eq_some_iff.mp
    (show (Sample.run [.merge [Sample.trigger 1 0.1], .pass Sample.early, .merge [Sample.trigger 2 0.102]]).map
        (fun r => decide (gone r.1 = [] ∧ r.2.allTriggers = [Sample.trigger 1 0.1] ∧ r.1.map Event.handover =
          [some ([], GPSTime.zero, [Sample.trigger 1 0.1]), none,
            some ([Sample.trigger 1 0.1], GPSTime.ofFields 24 4 20 20 5 17 (Binary64.toDouble 0.105),
              [Sample.trigger 2 0.102])])) =
      some true by decide +kernel)
  obtain ⟨removed, left, handovers⟩ := of_decide_eq_true shown
  obtain ⟨first, rest, rfl, _, handovers⟩ := List.map_eq_cons_iff.mp handovers
  obtain ⟨second, rest, rfl, _, handovers⟩ := List.map_eq_cons_iff.mp handovers
  obtain ⟨third, rest, rfl, last, _⟩ := List.map_eq_cons_iff.mp handovers
  obtain rfl := Event.of_handover last
  have nothing : gone [first, second] = [] := by
    rw [show first :: second :: Event.merge _ _ _ :: rest = [first, second] ++ _ from rfl, gone,
      List.flatMap_append] at removed
    exact (List.append_eq_nil_iff.mp removed).1
  refine ⟨_, l, [first, second], _, _, _, rest, Sample.trigger 2 0.102, ⟨_, ran⟩, rfl, List.mem_singleton.mpr rfl,
    by decide +kernel, by decide +kernel, by rw [left]; decide +kernel, List.mem_singleton.mpr rfl, ?_⟩
  rintro ⟨b, inGone, _⟩
  simp [nothing] at inGone

end LigDataParsing
