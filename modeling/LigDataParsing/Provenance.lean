import LigDataParsing.Geometry
import LigDataParsing.Record
import LigDataParsing.Service
import LigDataParsing.Sites
import LigDataParsing.WindowPool

/-! Where the records come from: what the database and the broker are sent can be traced
back through the workers, the locating thread and the loader to rows the servers sent. -/
namespace LigDataParsing

def SendEffect.record? : SendEffect → Option (List Char)
  | .posted request => some request.body
  | .published topic data | .failed topic data => if topic = topicL then some data else none
  | .silent | .wrote | .aborted => none

def siteOf (sites : List StationInfo) (id : ℤ) : StationInfo := (lastSite sites id).getD default

/-- The record of an event located from arrivals that were received, of five to eight
stations: their entries, and the solver's answer for them at the places of the list. -/
structure Grounded {Value : Type} (api : LigDataApi Value) (p : Platform) (c : Config) (sites : List StationInfo)
    (exchanges : List Exchange) (comb : List TriggerInfo) (d : LigData) : Prop where
  size : 5 ≤ comb.length ∧ comb.length ≤ 8
  stations : (comb.map TriggerInfo.stationID).Nodup
  brought : ∀ t ∈ comb, Brought api c exchanges t
  entries : d.infoOfSta.map (fun info => (info.id, info.name, info.value)) =
    comb.map fun t => (t.stationID, (siteOf sites t.stationID).name.toList, t.value)
  located : let result := solution p (fun id => (siteOf sites id).staLocation) comb
    d.latitude = result.lat ∧ d.longitude = result.lon ∧ d.altitude = result.h ∧ d.residual = result.sq
  good : d.residual < c.locThresholdInitial ∧ d.residual < c.locThresholdFinal

section Sending

variable {w : Poster} {post : Post} {trace : List SendEffect} {s : Sending} {o : Outputs} {json text : List Char}

theorem published_record (call : Call)
    (record : text ∈ (SendEffect.published call.topic (call.data json)).record?) : text = json := by
  cases call with
  | warning =>
    have other : topicW ≠ topicL := by decide
    simp [SendEffect.record?, Call.topic, other] at record
  | result => simpa [SendEffect.record?, Call.topic, Call.data, eq_comm] using record

theorem moved_record {point next : SendPoint} {effect : SendEffect} (moved : Sending.Moved o json point effect next)
    (record : text ∈ effect.record?) : text = json := by
  cases moved with
  | abort | enter | leave | warn | result | admitted | closed | connected => simp [SendEffect.record?] at record
  | file effect kind => rcases kind with rfl | rfl <;> simp [SendEffect.record?] at record
  | accepted | refused => simpa [SendEffect.record?, eq_comm] using record
  | unconnected call => exact published_record call record
  | published call effect kind => rcases kind with rfl | rfl <;> exact published_record call record

/-- Whatever goes out as a record is the record of the post. -/
theorem sending_record (reached : Machine.Reaches w.body.step (w.body.start post) trace s) {effect : SendEffect}
    (member : effect ∈ trace) (record : text ∈ effect.record?) : text = w.json post := by
  obtain ⟨earlier, later, rfl⟩ := List.append_of_mem member
  obtain ⟨before, answer, after, ran, stepped, -⟩ := reached.step_at
  obtain ⟨-, moved⟩ := sending_cases stepped
  exact (moved_record moved record).trans (sending_run ran).1

end Sending

section Reports

variable {p : Platform} {c : Config} {siteMap : SiteMap} {siteTimeMap : SiteTimeMap} {events : List ProgramEvent}
  {s : Program}

theorem reported_sound (sentinel : c.locThresholdInitial ≤ Params.floatMax)
    (reached : ProgramRuns p c siteMap siteTimeMap events s) {post : Post} (posted : post ∈ reported events) :
    ∃ queue baseTrig scanned rounds,
      Sound p c siteMap.location siteTimeMap.value queue baseTrig scanned rounds post := by
  obtain ⟨now, queue, baseTrig, scanned, rounds, remaining, inRun⟩ := mem_posts posted
  obtain ⟨_, _, before, base, rest, after, _, run, _, rfl, _, _, passed, _⟩ :=
    runs_pass (interleaves_runs (program_threads reached)) inRun
  obtain ⟨ascending, sites, times⟩ := runs_sane run
  have same : base = baseTrig := by
    generalize some post = posted at passed
    cases passed
    rfl
  subst same
  have sound := pass_sound ascending sentinel passed
  rw [SiteMap.location_congr sites, times.value] at sound
  exact ⟨_, base, scanned, rounds, sound⟩

/-- The position a trigger had in the queue is none of the solver's business. -/
theorem solution_unplaced (location : ℤ → LocSta) (comb : List TriggerInfo) :
    solution p location (comb.map TriggerInfo.unplaced) = solution p location comb := by
  simp [solution, locTimeOne, TriggerInfo.unplaced, Function.comp_def]

end Reports

section Records

variable {Value : Type} {api : LigDataApi Value} {p : Platform} {c : Config} {sites : List StationInfo}
  {events : List FedEvent} {s : Program}

/-- The record of a report is that of its combination, and so of what was received. -/
theorem post_grounded (w : Posting) (sentinel : c.locThresholdInitial ≤ Params.floatMax)
    (reached : FedRuns api p c (siteMapOf sites) (siteTimeMapOf p.libm sites) events s) {post : Post}
    (posted : post ∈ reported (programEvents events)) : ∃ d, w.record post = some d ∧
    Grounded api p c sites (exchanged events) (post.oneComb.map TriggerInfo.unplaced) d := by
  obtain ⟨queue, baseTrig, scanned, rounds, sound⟩ := reported_sound sentinel (fed_program reached) posted
  have run := interleaves_runs (program_threads (fed_program reached))
  have names : post.siteMap.value = siteOf sites := by
    rw [post_siteMap run posted]
    exact funext (siteMapOf_value sites)
  have places : (siteMapOf sites).location = fun id => (siteOf sites id).staLocation :=
    funext fun id => congrArg StationInfo.staLocation (siteMapOf_value sites id)
  obtain ⟨first, rest, comb⟩ : ∃ first rest, post.oneComb = first :: rest :=
    List.exists_cons_of_length_pos (Nat.lt_of_lt_of_le (by decide) sound.size.1)
  have infos := (postLigResult_texts w.cmath w.config post.ligTime post.result w.utcOffset post.siteMap first rest).2.2
  refine ⟨postLigResult w.cmath w.config post.ligTime post.result w.utcOffset first rest post.siteMap, ?_, ?_⟩
  · rw [Posting.record, comb]
  · constructor
    · rw [List.length_map]
      exact sound.size
    · rw [List.map_map]
      exact sound.stations
    · intro t member
      obtain ⟨x, inComb, rfl⟩ := List.mem_map.mp member
      exact posted_brought reached posted inComb
    · rw [infos, comb, List.map_map, List.map_map, names]
      rfl
    · rw [solution_unplaced, ← places, ← sound.best.solved]
      exact ⟨rfl, rfl, rfl, rfl⟩
    · exact sound.good

end Records

/-- Nothing is made up on the way out: whatever goes out as a record, at any time and however
the threads, the workers and the answers of the world mix, is the record of a report, and that
is grounded in rows received before, and in the list of stations. -/
theorem sent_from_received {Value : Type} {api : LigDataApi Value} {p : Platform} {c : Config} {w : Poster}
    {sites : List StationInfo} (sentinel : c.locThresholdInitial ≤ Params.floatMax) {events : List ServiceEvent}
    {s : Service} (reached : ServiceRuns api p c w (siteMapOf sites) (siteTimeMapOf p.libm sites) events s)
    {post : Post} {effect : SendEffect} (done : (post, effect) ∈ effects (crewEvents events)) {text : List Char}
    (record : text ∈ effect.record?) : post ∈ ServiceEvent.posts events ∧ ∃ d comb,
      w.posting.record post = some d ∧ text = w.writeString d ∧
      Grounded api p c sites (exchanged (fedEvents events)) comb d := by
  have fed := service_fed reached
  obtain ⟨enqueued, trace, state, ran, member⟩ := (crew_manned (service_crew reached)).effect_run done
  rw [service_pool reached, (program_delivering (fed_program fed)).enqueued] at enqueued
  obtain ⟨d, recorded, grounded⟩ := post_grounded w.posting sentinel fed enqueued
  refine ⟨enqueued, d, _, recorded, ?_, grounded⟩
  rw [sending_record ran member record, Poster.json, recorded]
  rfl

theorem sent_from_received_five : ∃ events s post effect text d comb,
    ServiceRuns Sample.servedApi Sample.overOrigin Sample.oneLoad Sample.servedPoster (siteMapOf Sample.originSites)
      (siteTimeMapOf Sample.overOrigin.libm Sample.originSites) events s ∧
    (effects (crewEvents events)).getLast? = some (post, effect) ∧ effect.record? = some text ∧
    text = Sample.servedPoster.writeString d ∧
    Grounded Sample.servedApi Sample.overOrigin Sample.oneLoad Sample.originSites (exchanged (fedEvents events)) comb
      d := by
  obtain ⟨⟨events, s⟩, ran, shown⟩ := Option.map_eq_some_iff.mp
    (show (Sample.serve (Sample.locating ++ Sample.sendingFive.take 5)).map (fun r =>
      (effects (crewEvents r.1)).getLast?.bind fun done => done.2.record?) = some (some Sample.fiveJson) by
      decide +kernel)
  obtain ⟨⟨post, effect⟩, last, record⟩ := Option.bind_eq_some_iff.mp shown
  obtain ⟨-, d, comb, -, written, grounded⟩ := sent_from_received (by decide +kernel)
    (show ServiceRuns Sample.servedApi Sample.overOrigin Sample.oneLoad Sample.servedPoster _ _ events s from ⟨_, ran⟩)
    (List.mem_of_getLast? last) record
  exact ⟨events, s, post, effect, _, d, comb, ⟨_, ran⟩, last, record, written, grounded⟩

end LigDataParsing
