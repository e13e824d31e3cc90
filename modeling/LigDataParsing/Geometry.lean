import Mathlib.Data.List.Perm.Subperm
import LigDataParsing.Posted
import LigDataParsing.Program

/-! `check_location_structure`: the largest angle at the result between two of its stations
must not be below `checkTheta`. -/
namespace LigDataParsing

open Lookup

/-- The angle at `o` between two stations, in the degrees the code converts to; none if one of
them stands at `o`. -/
def seenAngle (libm : Libm) (o : Cartesian) (p1 p2 : LocSta) : Option ℚ :=
  let u := o.minus (.ofLatLon libm p1.lat p1.lon)
  let v := o.minus (.ofLatLon libm p2.lat p2.lon)
  let ulength := libm.sqrt (u.dot u)
  let vlength := libm.sqrt (v.dot v)
  if ulength * vlength = 0 then none
  else some (libm.acos (u.dot v / (ulength * vlength)) * Params.radians2degree)

def SeenApart (libm : Libm) (o : Cartesian) (theta : ℚ) (p1 p2 : LocSta) : Prop :=
  ∃ angle ∈ seenAngle libm o p1 p2, theta ≤ angle

def LocSta.inRadians (result : LocSta) : LocSta :=
  { result with lat := result.lat * Params.degree2radians, lon := result.lon * Params.degree2radians }

section Angles

variable {libm : Libm} {o : Cartesian} {theta start : ℚ} {p1 p2 : LocSta} {stations more : List LocSta}

theorem Cartesian.dot_comm (a b : Cartesian) : a.dot b = b.dot a := by
  unfold Cartesian.dot
  ring

theorem seenAngle_comm (libm : Libm) (o : Cartesian) (p1 p2 : LocSta) :
    seenAngle libm o p1 p2 = seenAngle libm o p2 p1 := by
  simp only [seenAngle, mul_comm (libm.sqrt ((o.minus (.ofLatLon libm p1.lat p1.lon)).dot _)),
    Cartesian.dot_comm (o.minus (.ofLatLon libm p1.lat p1.lon)) (o.minus (.ofLatLon libm p2.lat p2.lon))]

theorem SeenApart.symm (apart : SeenApart libm o theta p1 p2) : SeenApart libm o theta p2 p1 := by
  obtain ⟨angle, seen, wide⟩ := apart
  exact ⟨angle, seenAngle_comm libm o p1 p2 ▸ seen, wide⟩

theorem le_widen_iff : theta ≤ widen libm o start p1 p2 ↔ theta ≤ start ∨ SeenApart libm o theta p1 p2 := by
  simp only [widen, SeenApart, seenAngle]
  split_ifs with hidden
  · simp
  · simp

theorem le_foldl_widen_iff (rest : List LocSta) :
    theta ≤ rest.foldl (fun theta p2 => widen libm o theta p1 p2) start ↔
      theta ≤ start ∨ ∃ p2 ∈ rest, SeenApart libm o theta p1 p2 := by
  induction rest generalizing start with
  | nil => simp
  | cons p2 rest ih =>
    rw [List.foldl_cons, ih, le_widen_iff, List.exists_mem_cons_iff, or_assoc]

theorem le_maxTheta_iff : theta ≤ maxTheta libm o start stations ↔
    theta ≤ start ∨ ∃ p1 p2, [p1, p2].Sublist stations ∧ SeenApart libm o theta p1 p2 := by
  induction stations generalizing start with
  | nil => simp [maxTheta]
  | cons p1 rest ih =>
    rw [maxTheta, ih, le_foldl_widen_iff, or_assoc]
    refine or_congr_right ⟨?_, ?_⟩
    · rintro (⟨p2, later, apart⟩ | ⟨a, b, pair, apart⟩)
      · exact ⟨p1, p2, (List.singleton_sublist.mpr later).cons_cons p1, apart⟩
      · exact ⟨a, b, pair.cons p1, apart⟩
    · rintro ⟨a, b, pair, apart⟩
      rcases List.sublist_cons_iff.mp pair with behind | ⟨tail, same, behind⟩
      · exact .inr ⟨a, b, behind, apart⟩
      · obtain ⟨rfl, rfl⟩ := List.cons.inj same
        exact .inl ⟨b, List.singleton_sublist.mp behind, apart⟩

theorem check_iff_sublist (libm : Libm) (stations : List LocSta) (result : LocSta) (checkTheta : ℚ) :
    checkLocationStructure libm stations result checkTheta = true ↔ checkTheta ≤ 0 ∨
      ∃ p1 p2, [p1, p2].Sublist stations ∧
        SeenApart libm (.ofLatLon libm result.lat result.lon) checkTheta p1 p2 := by
  rw [checkLocationStructure, decide_eq_true_eq, not_lt, le_maxTheta_iff]

theorem pair_subperm_iff : [p1, p2].Subperm stations ↔ [p1, p2].Sublist stations ∨ [p2, p1].Sublist stations := by
  constructor
  · rintro ⟨pair, perm, sub⟩
    obtain ⟨a, b, rfl⟩ := List.length_eq_two.mp perm.length_eq
    rcases List.mem_pair.mp (perm.subset List.mem_cons_self) with rfl | rfl
    · obtain rfl := List.singleton_perm_singleton.mp ((List.perm_cons a).mp perm)
      exact .inl sub
    · obtain rfl := List.singleton_perm_singleton.mp ((List.perm_cons a).mp (perm.trans (List.Perm.swap a p1 [])))
      exact .inr sub
  · rintro (sub | sub)
    · exact sub.subperm
    · exact (List.Perm.swap p2 p1 []).subperm.trans sub.subperm

end Angles

/-- The check accepts a result exactly if two of the stations are seen from it wide enough
apart, whatever their order in the list. -/
theorem structure_accepted_iff (libm : Libm) (stations : List LocSta) (result : LocSta) (checkTheta : ℚ) :
    checkLocationStructure libm stations result checkTheta = true ↔ checkTheta ≤ 0 ∨
      ∃ p1 p2, [p1, p2].Subperm stations ∧
        SeenApart libm (.ofLatLon libm result.lat result.lon) checkTheta p1 p2 := by
  rw [check_iff_sublist]
  refine or_congr_right ⟨?_, ?_⟩
  · rintro ⟨p1, p2, pair, apart⟩
    exact ⟨p1, p2, pair.subperm, apart⟩
  · rintro ⟨p1, p2, pair, apart⟩
    rcases pair_subperm_iff.mp pair with sub | sub
    · exact ⟨p1, p2, sub, apart⟩
    · exact ⟨p2, p1, sub, apart.symm⟩

/-- What the last tests before a report leave of it, at the places of the stations in `siteMap`. -/
structure WellPlaced (p : Platform) (c : Config) (siteMap : SiteMap) (post : Post) : Prop where
  apart : c.checkTheta ≤ 0 ∨ ∃ t₁ ∈ post.oneComb, ∃ t₂ ∈ post.oneComb, t₁.stationID ≠ t₂.stationID ∧
    SeenApart p.libm (.ofLatLon p.libm post.result.inRadians.lat post.result.inRadians.lon) c.checkTheta
      (siteMap.location t₁.stationID) (siteMap.location t₂.stationID)
  near : ∃ first ∈ post.oneComb.head?,
    stadistance p.libm (siteMap.value first.stationID).latitude (siteMap.value first.stationID).longitude
      post.result.lat post.result.lon < 4000

section Reports

variable {p : Platform} {c : Config} {baseTrig : TriggerInfo} {l : Locator}

/-- The solver and the last tests see each station of the combination at its own place. -/
theorem locate_stationsOne (ascending : Ascending l.allTriggers)
    (enough : 5 ≤ (l.scanFrom c baseTrig).triggerPool.size) (sentinel : c.locThresholdInitial ≤ Params.floatMax)
    (good : (locate p c (l.scanFrom c baseTrig)).minSq < c.locThresholdInitial) :
    stationsOne p (locate p c (l.scanFrom c baseTrig)).triggerPool (locate p c (l.scanFrom c baseTrig)).oneComb =
      (locate p c (l.scanFrom c baseTrig)).oneComb.map fun t => l.siteMap.location t.stationID := by
  apply stationsOne_eq p (locate_best enough sentinel good).oneComb_mem
  · intro id entry inside t inEntry
    rw [(locate_entry p enough inside).2.2] at inEntry
    exact (marked_stands ascending inEntry).1
  · exact fun id entry inside => (locate_entry p enough inside).2.1

theorem located_wellPlaced (ascending : Ascending l.allTriggers)
    (enough : 5 ≤ (l.scanFrom c baseTrig).triggerPool.size) (sentinel : c.locThresholdInitial ≤ Params.floatMax)
    {rounds : Rounds} (found : rounds = locate p c (l.scanFrom c baseTrig))
    (good : rounds.minSq < c.locThresholdInitial) {post : Post}
    (shown : postOf p c rounds (rounds.oneComb.headD baseTrig) rounds.siteMap = some post) :
    WellPlaced p c l.siteMap post := by
  subst found
  obtain ⟨drawn, atLeast⟩ := locate_drawn ascending enough sentinel good
  have sites : (locate p c (l.scanFrom c baseTrig)).siteMap.value = l.siteMap.value :=
    (locate_consistent p c _ enough).locations.trans (scanFrom_spec c baseTrig l).2.1
  have stations := locate_stationsOne ascending enough sentinel good
  simp only [postOf] at shown
  split_ifs at shown with accepted
  obtain rfl := Option.some.inj shown
  obtain ⟨apart, -, near⟩ := accepted
  rw [stations, check_iff_sublist] at apart
  constructor
  · refine apart.imp_right ?_
    rintro ⟨p1, p2, pair, wide⟩
    obtain ⟨comb, inside, same⟩ := List.sublist_map_iff.mp pair
    obtain ⟨t₁, t₂, rfl⟩ := List.length_eq_two.mp (by simpa using congrArg List.length same.symm)
    have distinct : [t₁.stationID, t₂.stationID].Nodup := (inside.map TriggerInfo.stationID).nodup drawn.stations
    simp only [List.map_cons, List.map_nil, List.cons.injEq, and_true] at same
    obtain ⟨rfl, rfl⟩ := same
    exact ⟨t₁, inside.subset List.mem_cons_self, t₂, inside.subset (List.mem_cons_of_mem _ List.mem_cons_self),
      List.pairwise_pair.mp distinct, wide⟩
  · rw [sites] at near
    cases comb : (locate p c (l.scanFrom c baseTrig)).oneComb with
    | nil => simp [comb] at atLeast
    | cons first rest =>
      rw [comb] at near
      exact ⟨first, rfl, near⟩

end Reports

/-- Every report of a run stands: two of its stations are seen from the reported place at the
least angle of the configuration, and its first station is less than 4000 km away, at the places
`main` was given for them. -/
theorem reports_well_placed {p : Platform} {c : Config} {siteMap : SiteMap} {siteTimeMap : SiteTimeMap}
    {events : List ProgramEvent} {s : Program} (sentinel : c.locThresholdInitial ≤ Params.floatMax)
    (reached : ProgramRuns p c siteMap siteTimeMap events s) {post : Post} (posted : post ∈ reported events) :
    WellPlaced p c siteMap post := by
  obtain ⟨now, queue, baseTrig, scanned, rounds, remaining, inRun⟩ := mem_posts posted
  obtain ⟨_, _, before, base, rest, after, _, run, _, _, _, _, passed, _⟩ :=
    runs_pass (interleaves_runs (program_threads reached)) inRun
  obtain ⟨ascending, sites, -⟩ := runs_sane run
  generalize shown : some post = outcome at passed
  cases passed with
  | located near old enough _ found good =>
    obtain ⟨apart, close⟩ := located_wellPlaced ascending enough sentinel found good shown.symm
    rw [SiteMap.location_congr sites] at apart
    rw [sites] at close
    exact ⟨apart, close⟩

namespace Sample

def tilted : Platform :=
  { platform fun stations locTime => { prefersLate stations locTime with lat := 1 } with
    libm := ⟨id, fun _ => 1, id, fun _ => 1, id, id⟩ }

def thirtyDegrees : Config := { config with checkTheta := 30 }

end Sample

theorem reports_well_placed_apart : ∃ events s post,
    ProgramRuns Sample.tilted Sample.thirtyDegrees Sample.siteMap Sample.siteTimeMap events s ∧
    reported events = [post] ∧ WellPlaced Sample.tilted Sample.thirtyDegrees Sample.siteMap post := by
  obtain ⟨⟨events, s⟩, ran, shown⟩ := Option.map_eq_some_iff.mp
    (show (Machine.run (Program.step Sample.tilted Sample.thirtyDegrees)
        (Program.start Sample.thirtyDegrees Sample.siteMap Sample.siteTimeMap)
        ((Sample.handedOver.take 6).map .threads)).map (fun r => (reported r.1).length) = some 1 by decide +kernel)
  obtain ⟨post, one⟩ := List.length_eq_one_iff.mp shown
  have member : post ∈ reported events := one ▸ List.mem_cons_self
  exact ⟨events, s, post, ⟨_, ran⟩, one, reports_well_placed (by decide +kernel) ⟨_, ran⟩ member⟩

end LigDataParsing
