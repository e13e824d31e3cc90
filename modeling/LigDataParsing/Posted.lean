import LigDataParsing.Runs

/-! What a posted result stands for: the conditions of the scan, of the enumeration, of
the rounds and of the last filters, composed over whole runs. -/
namespace LigDataParsing

open Lookup

def Present (queue : List TriggerInfo) (t : TriggerInfo) : Prop :=
  ∃ x ∈ queue, { t with trigIdx := x.trigIdx } = x

/-- The solver's answer for a combination: the stations' coordinates and the seconds of
the arrivals are all it sees. -/
def solution (p : Platform) (location : ℤ → LocSta) (comb : List TriggerInfo) : LocSta :=
  p.geoLocation (comb.map fun t => location t.stationID) (locTimeOne comb)

structure Near (c : Config) (time : ℤ → ℤ → ℚ) (baseTrig t : TriggerInfo) : Prop where
  sameSign : ¬ baseTrig.value * t.value < 0
  after : 0 ≤ t.time.sub baseTrig.time
  within : t.time.sub baseTrig.time ≤ c.maxBaseLineAsTOA
  reachable : |t.time.sub baseTrig.time| ≤ time baseTrig.stationID t.stationID + 0.0001

structure BestOf (p : Platform) (location : ℤ → LocSta) (time : ℤ → ℤ → ℚ) (scanned : TriggerPool)
    (rounds : Rounds) (comb : List TriggerInfo) (result : LocSta) : Prop where
  reduced : rounds.triggerPool.entries.Sublist scanned.entries
  combinations : rounds.locCombinationPool = combinationsOf time rounds.triggerPool
  chosen : comb ∈ rounds.locCombinationPool
  solved : result = solution p location comb
  least : ∀ other ∈ rounds.locCombinationPool, result.sq ≤ (solution p location other).sq

structure Sound (p : Platform) (c : Config) (location : ℤ → LocSta) (time : ℤ → ℤ → ℚ)
    (queue : List TriggerInfo) (baseTrig : TriggerInfo) (scanned : TriggerPool) (rounds : Rounds)
    (post : Post) : Prop where
  size : 5 ≤ post.oneComb.length ∧ post.oneComb.length ≤ 8
  stations : (post.oneComb.map TriggerInfo.stationID).Nodup
  present : ∀ t ∈ post.oneComb, Present queue t
  near : ∀ t ∈ post.oneComb, Near c time baseTrig t
  pairs : post.oneComb.Pairwise fun a b =>
    |b.time.sub a.time| ≤ time a.stationID b.stationID + 0.0001
  best : BestOf p location time scanned rounds post.oneComb post.result
  good : post.result.sq < c.locThresholdInitial ∧ post.result.sq < c.locThresholdFinal

section Pass

variable {p : Platform} {c : Config} {baseTrig : TriggerInfo} {l : Locator}

theorem StandsAt.present {queue : List TriggerInfo} {entries : List (ℕ × TriggerInfo)}
    {t x : TriggerInfo} {j : ℕ} (stands : StandsAt queue entries t j x) : Present queue t := by
  refine ⟨x, List.mem_of_getElem? stands.inQueue, ?_⟩
  rcases stands.carried with ⟨rfl, _⟩ | ⟨rfl, _⟩ <;> rfl

theorem StandsAt.near {t x : TriggerInfo} {j : ℕ}
    (stands : StandsAt l.allTriggers (l.windowOf c baseTrig) t j x) :
    Near c l.siteTimeMap.value baseTrig t := by
  obtain ⟨listed, reachable⟩ := mem_window.mp stands.inWindow
  obtain ⟨_, sign, below, above⟩ := mem_examined listed
  have near : Near c l.siteTimeMap.value baseTrig x := by
    constructor
    · exact not_lt.mpr sign
    · rw [GPSTime.sub_neg]
      linarith
    · rw [GPSTime.sub_neg]
      linarith
    · rw [GPSTime.sub_neg, abs_neg]
      exact reachable
  rcases stands.carried with ⟨rfl, _⟩ | ⟨rfl, _⟩
  · exact ⟨near.sameSign, near.after, near.within, near.reachable⟩
  · exact near

theorem stationsOne_eq {pool : TriggerPool} {location : ℤ → LocSta} {time : ℤ → ℤ → ℚ}
    {comb : List TriggerInfo} (p : Platform) (member : comb ∈ combinationsOf time pool)
    (keyed : ∀ id entry, (id, entry) ∈ pool.entries → ∀ t ∈ entry.triggers, t.stationID = id)
    (located : ∀ id entry, (id, entry) ∈ pool.entries → entry.staLocation = location id) :
    stationsOne p pool comb = comb.map fun t => location t.stationID := by
  rw [mem_combinationsOf, poolTriggers_eq] at member
  apply List.map_congr_left
  intro t inComb
  obtain ⟨id, entry, inside, inEntry⟩ := choice_mem member.1 inComb
  rw [keyed id entry inside t inEntry, OrderedMap.find_eq_some.mpr inside, Option.map_some,
    Option.getD_some, located id entry inside]

theorem evaluate_eq {pool : TriggerPool} {location : ℤ → LocSta} {comb : List TriggerInfo}
    (p : Platform) (stations : stationsOne p pool comb = comb.map fun t => location t.stationID)
    (enough : 5 ≤ comb.length) :
    evaluate p pool comb = ((solution p location comb).sq, solution p location comb) := by
  rw [evaluate, if_neg (not_lt.mpr enough), stations, solution]

/-- The choice of the rounds, in terms of the stations' own coordinates. -/
theorem locate_bestOf (ascending : Ascending l.allTriggers)
    (enough : 5 ≤ (l.scanFrom c baseTrig).triggerPool.size)
    (sentinel : c.locThresholdInitial ≤ Params.floatMax) {rounds : Rounds}
    (found : rounds = locate p c (l.scanFrom c baseTrig))
    (good : rounds.minSq < c.locThresholdInitial) :
    BestOf p l.siteMap.location l.siteTimeMap.value (l.scanFrom c baseTrig).triggerPool rounds
      rounds.oneComb rounds.result ∧ rounds.result.sq < c.locThresholdInitial := by
  subst found
  have consistent := locate_consistent p c (l.scanFrom c baseTrig) enough
  have best := locate_best enough sentinel good
  have times : (l.scanFrom c baseTrig).siteTimeMap.value = l.siteTimeMap.value :=
    (scanFrom_spec c baseTrig l).2.2.value
  have combinations := best.combinations
  rw [times] at combinations
  have evaluated : ∀ comb ∈ (locate p c (l.scanFrom c baseTrig)).locCombinationPool,
      evaluate p (locate p c (l.scanFrom c baseTrig)).triggerPool comb =
        ((solution p l.siteMap.location comb).sq, solution p l.siteMap.location comb) := by
    intro comb member
    rw [combinations] at member
    apply evaluate_eq
    · apply stationsOne_eq p member
      · intro id entry inside t inEntry
        rw [(locate_entry p enough inside).2.2] at inEntry
        exact (marked_stands ascending inEntry).1
      · exact fun id entry inside => (locate_entry p enough inside).2.1
    · rw [mem_combinationsOf, poolTriggers_eq] at member
      rw [member.1.length, List.length_map]
      exact consistent.stations
  have chosen := oneComb_mem best.inRange
  obtain ⟨sq, result⟩ := Prod.mk.inj ((evaluated _ chosen).symm.trans best.evaluated)
  refine ⟨⟨consistent.part, combinations, chosen, result.symm, ?_⟩, ?_⟩
  · intro other member
    have below := best.least other member
    rw [evaluated other member, ← sq] at below
    rw [← result]
    exact below
  · rw [← result, sq]
    exact good

/-- A post carries the rounds' choice, under the final threshold. -/
theorem postOf_some {rounds : Rounds} {first : TriggerInfo} {siteMap : SiteMap} {post : Post}
    (posted : postOf p c rounds first siteMap = some post) :
    post.oneComb = rounds.oneComb ∧ post.result = rounds.result ∧
    post.ligTime = first.time.setSecond p.utcOffset rounds.result.occurT ∧
    rounds.result.sq < c.locThresholdFinal := by
  simp only [postOf] at posted
  split_ifs at posted with accepted
  obtain rfl := Option.some.inj posted
  exact ⟨rfl, rfl, rfl, accepted.2.1⟩

theorem pass_sound {now : ℤ} {rest : List TriggerInfo} {next : Locator} {scanned : TriggerPool}
    {rounds : Rounds} {post : Post} (ascending : Ascending l.allTriggers)
    (sentinel : c.locThresholdInitial ≤ Params.floatMax)
    (passed : Passed p c now l baseTrig rest (.located baseTrig scanned rounds (some post)) next) :
    Sound p c l.siteMap.location l.siteTimeMap.value l.allTriggers baseTrig scanned rounds post := by
  generalize shown : some post = posted at passed
  cases passed with
  | located near old enough _ found good =>
    obtain ⟨comb, result, _, final⟩ := postOf_some shown.symm
    obtain ⟨best, initial⟩ := locate_bestOf ascending enough sentinel found good
    obtain ⟨drawn, atLeast⟩ := locate_drawn ascending enough sentinel (found ▸ good)
    rw [← found] at drawn atLeast
    have choice := best.chosen
    rw [best.combinations, mem_combinationsOf, poolTriggers_eq] at choice
    constructor
    · rw [comb]
      refine ⟨atLeast, ?_⟩
      rw [choice.1.length, List.length_map]
      exact best.reduced.length_le.trans (scanFrom_spec c baseTrig l).1.atMost
    · rw [comb]
      exact drawn.stations
    · rw [comb]
      intro t member
      obtain ⟨j, x, stands⟩ := drawn.stands t member
      exact stands.present
    · rw [comb]
      intro t member
      obtain ⟨j, x, stands⟩ := drawn.stands t member
      exact stands.near
    · rw [comb]
      exact choice.2.imp fun fits => of_decide_eq_true fits
    · rw [comb, result]
      exact best
    · rw [result]
      exact ⟨initial, final⟩

end Pass

/-- Every result posted in a run comes from a combination of the queue of its pass that
meets all the tests, and is the least of its pool. -/
theorem posted_sound {p : Platform} {c : Config} {siteMap : SiteMap} {siteTimeMap : SiteTimeMap}
    {events : List Event} {l : Locator} (sentinel : c.locThresholdInitial ≤ Params.floatMax)
    (reached : Runs p c siteMap siteTimeMap events l) {now : ℤ} {queue remaining : List TriggerInfo}
    {baseTrig : TriggerInfo} {scanned : TriggerPool} {rounds : Rounds} {post : Post}
    (member : Event.pass now queue (.located baseTrig scanned rounds (some post)) remaining ∈ events) :
    queue.head? = some baseTrig ∧
    Sound p c siteMap.location siteTimeMap.value queue baseTrig scanned rounds post := by
  obtain ⟨_, _, before, base, rest, after, _, run, _, rfl, queue, _, passed, _⟩ := runs_pass reached member
  obtain ⟨ascending, sites, times⟩ := runs_sane run
  have same : base = baseTrig := by
    generalize some post = posted at passed
    cases passed
    rfl
  subst same
  have sound := pass_sound ascending sentinel passed
  rw [SiteMap.location_congr sites, times.value] at sound
  exact ⟨by rw [queue, List.head?_cons], sound⟩

theorem posted_sound_distinct : ∃ events l now queue baseTrig scanned rounds post remaining,
    Runs (Sample.platform Sample.prefersLate) Sample.config Sample.siteMap Sample.siteTimeMap events l ∧
    Event.pass now queue (.located baseTrig scanned rounds (some post)) remaining ∈ events ∧
    queue.head? = some baseTrig ∧
    Sound (Sample.platform Sample.prefersLate) Sample.config Sample.siteMap.location
      Sample.siteTimeMap.value queue baseTrig scanned rounds post := by
  obtain ⟨⟨events, l⟩, ran, shown⟩ := Option.map_eq_some_iff.mp
    (show (Sample.run [.merge Sample.distinctStations, .pass Sample.now]).map (fun r => (posts r.1).length) = some 1
      by decide +kernel)
  obtain ⟨post, posted⟩ := List.exists_mem_of_length_pos (shown ▸ Nat.one_pos : 0 < (posts events).length)
  obtain ⟨now, queue, baseTrig, scanned, rounds, remaining, member⟩ := mem_posts posted
  exact ⟨events, l, now, queue, baseTrig, scanned, rounds, post, remaining, ⟨_, ran⟩, member,
    posted_sound (by decide +kernel) ⟨_, ran⟩ member⟩

end LigDataParsing
