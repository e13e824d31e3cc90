import LigDataParsing.BaseStation
import LigDataParsing.Feed

/-! The station list: `GetStationData` asks up to six times and reads the first answer, and a
run of the program takes what it knows of the stations from that list alone. -/
namespace LigDataParsing

open Lookup

/-- What reading the list takes from jsoncpp; `none` is a `Json::Exception`. -/
structure SiteLib (Value : Type) where
  /-- `none` also where the reader refuses the body. -/
  parse : String → Option Value
  items : Value → List Value
  /-- `operator[]` with a name. -/
  named : Value → String → Option Value
  asInt : Value → Option ℤ
  asDouble : Value → Option ℚ
  asString : Value → Option String
  asBool : Value → Option Bool

structure SiteConfig where
  urlU : List Char
  urlJ : List Char
  api : List Char

structure SiteApi (Value : Type) where
  lib : SiteLib Value
  config : SiteConfig

structure SiteList where
  asked : ℕ
  sites : List StationInfo

def answered (res : Option Response) : Bool := res.any fun res => res.status = 200

section Reading

variable {Value : Type} (lib : SiteLib Value)

def readSite (item : Value) : Option StationInfo := do
  let stationID ← (← lib.named item "stationID") |> lib.asInt
  let latitude ← (← lib.named item "latitude") |> lib.asDouble
  let name ← (← lib.named item "name") |> lib.asString
  let longitude ← (← lib.named item "longitude") |> lib.asDouble
  let altitude ← (← lib.named item "altitude") |> lib.asDouble
  let gpsTime ← (← lib.named item "GPSTime") |> lib.asString
  let gpsIsValid ← (← lib.named item "GPSIsValid") |> lib.asBool
  return ⟨stationID, name, latitude, longitude, altitude, gpsTime, gpsIsValid⟩

/-- The loop over the items; an exception leaves it with the stations read so far. -/
def readSites : List Value → List StationInfo → List StationInfo
  | [], sites => sites
  | item :: rest, sites =>
    match readSite lib item with
    | some site => readSites rest (if site.stationID < 1000 then sites ++ [site] else sites)
    | none => sites

/-- The attempts from `i` on, at most `left`, and the result they end with. -/
def siteAttempts (res : ℕ → Option Response) : (left i : ℕ) → Option Response → ℕ × Option Response
  | 0, i, last => (i, last)
  | left + 1, i, _ => if answered (res i) then (i + 1, res i) else siteAttempts res left (i + 1) (res i)

/-- The items of a body, none if it cannot be parsed. -/
def siteRows (res : Option Response) : List Value :=
  ((res.bind fun res => lib.parse res.body).map lib.items).getD []

end Reading

namespace SiteApi

variable {Value : Type} (api : SiteApi Value)

/-- The first three attempts go to `url_u`, the others to `url_j`. -/
def request (i : ℕ) : Request := ⟨if i < 3 then api.config.urlU else api.config.urlJ, api.config.api⟩

def response (server : Server) (i : ℕ) : Option Response := server i (api.request i)

def getStationData (server : Server) : SiteList :=
  let res := siteAttempts (api.response server) 6 0 none
  ⟨res.1, if answered res.2 then readSites api.lib (siteRows api.lib res.2) [] else []⟩

end SiteApi

/-- The stations of the items before the first one that cannot be read. -/
def readableSites {Value : Type} (lib : SiteLib Value) (items : List Value) : List StationInfo :=
  ((items.map (readSite lib)).takeWhile Option.isSome).filterMap id

inductive FirstAnswer {Value : Type} (api : SiteApi Value) (server : Server) : SiteList → Prop where
  | silent (unanswered : ∀ i < 6, answered (api.response server i) = false) : FirstAnswer api server ⟨6, []⟩
  | from (i : ℕ) (within : i < 6) (earlier : ∀ j < i, answered (api.response server j) = false)
      (here : answered (api.response server i) = true) :
      FirstAnswer api server
        ⟨i + 1, getStationData (readableSites api.lib (siteRows api.lib (api.response server i)))⟩

/-- The time between two stations of a list, none if one of them is not listed. -/
def timeBetween (libm : Libm) (sites : List StationInfo) (a b : ℤ) : ℚ :=
  ((lastSite sites a).bind fun site1 => (lastSite sites b).map fun site2 =>
    stadistance libm site1.latitude site1.longitude site2.latitude site2.longitude / Params.cVeo).getD 0

section List

variable {Value : Type} {api : SiteApi Value} {server : Server}

theorem readSites_eq (lib : SiteLib Value) (items : List Value) (sites : List StationInfo) :
    readSites lib items sites = sites ++ getStationData (readableSites lib items) := by
  induction items generalizing sites with
  | nil => simp [readSites, readableSites, getStationData]
  | cons item items ih =>
    cases read : readSite lib item with
    | none => simp [readSites, readableSites, getStationData, read]
    | some site =>
      have whole : readableSites lib (item :: items) = site :: readableSites lib items := by
        simp [readableSites, read]
      rw [whole]
      simp only [readSites, read, ih, getStationData, List.filter_cons]
      by_cases small : site.stationID < 1000
      · simp [small]
      · simp [small]

theorem siteAttempts_spec (res : ℕ → Option Response) (left i : ℕ) {last : Option Response}
    (refused : answered last = false) :
    ((∀ k, i ≤ k → k < i + left → answered (res k) = false) ∧ (siteAttempts res left i last).1 = i + left ∧
      answered (siteAttempts res left i last).2 = false) ∨
    ∃ k, i ≤ k ∧ k < i + left ∧ (∀ j, i ≤ j → j < k → answered (res j) = false) ∧ answered (res k) = true ∧
      siteAttempts res left i last = (k + 1, res k) := by
  induction left generalizing i last with
  | zero => exact .inl ⟨fun k above below => absurd below (by omega), rfl, refused⟩
  | succ left ih =>
    cases ok : answered (res i) with
    | true =>
      have stops : siteAttempts res (left + 1) i last = (i + 1, res i) := by simp [siteAttempts, ok]
      exact .inr ⟨i, le_rfl, by omega, fun j above below => absurd below (by omega), ok, stops⟩
    | false =>
      have next : siteAttempts res (left + 1) i last = siteAttempts res left (i + 1) (res i) := by
        simp [siteAttempts, ok]
      have first {k : ℕ} (below : i ≤ k) : k = i ∨ i + 1 ≤ k := by omega
      rw [next]
      rcases ih (i + 1) ok with ⟨silent, asked, last⟩ | ⟨k, above, below, earlier, here, ends⟩
      · refine .inl ⟨fun k above below => ?_, by omega, last⟩
        rcases first above with rfl | later
        · exact ok
        · exact silent k later (by omega)
      · refine .inr ⟨k, by omega, by omega, fun j above' before => ?_, here, ends⟩
        rcases first above' with rfl | later
        · exact ok
        · exact earlier j later before

theorem getStationData_firstAnswer (api : SiteApi Value) (server : Server) :
    FirstAnswer api server (api.getStationData server) := by
  rw [SiteApi.getStationData]
  rcases siteAttempts_spec (api.response server) 6 0 (show answered none = false from rfl) with
    ⟨silent, asked, refused⟩ | ⟨k, -, within, earlier, here, ends⟩
  · simp only [refused, asked, Bool.false_eq_true, if_false, zero_add]
    exact .silent fun i below => silent i (Nat.zero_le i) (by omega)
  · simp only [ends, here, if_true, readSites_eq, List.nil_append]
    exact .from k (by omega) (fun j before => earlier j (Nat.zero_le j) before) here

end List

section Maps

variable {sites : List StationInfo}

theorem siteMapOf_value (sites : List StationInfo) (id : ℤ) :
    (siteMapOf sites).value id = (lastSite sites id).getD default := by
  rw [siteMapOf]
  induction sites using List.reverseRecOn with
  | nil => rfl
  | append_singleton sites site ih =>
    rw [List.foldl_append, List.foldl_cons, List.foldl_nil, lastSite_snoc]
    by_cases same : site.stationID = id
    · subst same
      simp [Table.value]
    · rw [if_neg same, ← ih, Table.value, Table.find_assign_other _ _ (Ne.symm same), Table.value]

theorem siteTimeMapOf_value (libm : Libm) (sites : List StationInfo) (a b : ℤ) :
    (siteTimeMapOf libm sites).value a b = timeBetween libm sites a b := by
  rw [siteTimeMapOf, value_foldl_rows fun site1 site2 =>
    stadistance libm site1.latitude site1.longitude site2.latitude site2.longitude / Params.cVeo]
  rfl

end Maps

section Run

variable {p : Platform} {c : Config} {siteMap : SiteMap} {siteTimeMap : SiteTimeMap} {events : List Event} {l : Locator}

/-- A report takes along the map of its pass, with one station looked up in it. -/
theorem post_siteMap (reached : Runs p c siteMap siteTimeMap events l) {post : Post} (posted : post ∈ posts events) :
    post.siteMap.value = siteMap.value := by
  obtain ⟨now, queue, baseTrig, scanned, rounds, remaining, inRun⟩ := mem_posts posted
  obtain ⟨earlier, later, before, base, rest, after, split, run, _, same, _, _, passed, _⟩ := runs_pass reached inRun
  generalize shown : some post = outcome at passed
  cases passed with
  | located near old enough _ found good =>
    have scanned := (scanFrom_spec c baseTrig before).2.1
    have located : rounds.siteMap.value = before.siteMap.value := by
      rw [found]
      exact (locate_consistent p c _ enough).locations.trans scanned
    simp only [postOf] at shown
    split_ifs at shown
    obtain rfl := Option.some.inj shown
    exact (Table.touch_value _ _).trans (located.trans (runs_sane run).sites)

end Run

namespace Sample

inductive SiteJson where
  | array (items : List SiteJson)
  | object (site : StationInfo)
  | int (n : ℤ)
  | real (x : ℚ)
  | text (s : String)
  | flag (b : Bool)

def SiteJson.items : SiteJson → List SiteJson
  | .array items => items
  | _ => []

def SiteJson.named : SiteJson → String → Option SiteJson
  | .object site, name =>
    if name = "stationID" then some (.int site.stationID)
    else if name = "latitude" then some (.real site.latitude)
    else if name = "longitude" then some (.real site.longitude)
    else if name = "altitude" then some (.real site.altitude)
    else if name = "name" then some (.text site.name)
    else if name = "GPSTime" then some (.text site.gpsTime)
    else some (.flag site.gpsIsValid)
  | _, _ => none

def SiteJson.asInt : SiteJson → Option ℤ
  | .int n => some n
  | _ => none

def SiteJson.asDouble : SiteJson → Option ℚ
  | .real x => some x
  | .int n => some n
  | _ => none

def SiteJson.asString : SiteJson → Option String
  | .text s => some s
  | _ => none

def SiteJson.asBool : SiteJson → Option Bool
  | .flag b => some b
  | _ => none

def siteRoot : SiteJson :=
  .array ([site 1, site 2, site 3, site 4, site 1000, site 5, site 5].map .object ++ [.int 6, .object (site 7)])

def siteApi : SiteApi SiteJson where
  lib := ⟨fun _ => some siteRoot, SiteJson.items, SiteJson.named, SiteJson.asInt, SiteJson.asDouble, SiteJson.asString,
    SiteJson.asBool⟩
  config := ⟨['u'], ['j'], ['/', 's']⟩

def lateAnswer (i : ℕ) (_ : Request) : Option Response :=
  if i = 0 then none else if i < 3 then some ⟨503, ""⟩ else some ⟨200, ""⟩

def siteList : SiteList := siteApi.getStationData lateAnswer

/-- A C library by which any two places are 1200 km apart, 4 ms at the speed of light. -/
def spread : Platform :=
  { platform prefersLate with libm := ⟨id, fun _ => 1, fun _ => 600 / Params.earthR, fun _ => 0, id, id⟩ }

def fedFromList : Option (List FedEvent × Program) :=
  Machine.run (Program.fedStep ligDataApi spread config)
    (Program.start config (siteMapOf siteList.sites) (siteTimeMapOf spread.libm siteList.sites))
    [.loader answers, .locator now, .loader answers, .locator now, .locator now, .locator now]

end Sample

/-- `main` from end to end: the list is read from the first answer, up to its first item that
cannot be read, and whatever the servers, the clock and the order of the threads do afterwards,
each station stays at the place its last entry in the list gives it, and a station without an
entry at the origin, both for the locating thread and in every report it hands over. -/
theorem stations_from_list {Site Value : Type} (siteApi : SiteApi Site) (server : Server) {api : LigDataApi Value}
    {p : Platform} {c : Config} {list : SiteList} (downloaded : siteApi.getStationData server = list)
    {events : List FedEvent} {s : Program}
    (reached : FedRuns api p c (siteMapOf list.sites) (siteTimeMapOf p.libm list.sites) events s) :
    FirstAnswer siteApi server list ∧
    (∀ id, s.threads.locator.siteMap.value id = (lastSite list.sites id).getD default) ∧
    (∀ a b, s.threads.locator.siteTimeMap.value a b = timeBetween p.libm list.sites a b) ∧
    ∀ post ∈ reported (programEvents events), ∀ id, post.siteMap.value id = (lastSite list.sites id).getD default := by
  have run := interleaves_runs (program_threads (fed_program reached))
  obtain ⟨-, siteMap, siteTimeMap⟩ := runs_sane run
  refine ⟨downloaded ▸ getStationData_firstAnswer siteApi server, fun id => ?_, fun a b => ?_, fun post posted id => ?_⟩
  · rw [siteMap, siteMapOf_value]
  · rw [siteTimeMap.value, siteTimeMapOf_value]
  · rw [post_siteMap run posted, siteMapOf_value]

theorem stations_from_list_late : ∃ events s post,
    FedRuns Sample.ligDataApi Sample.spread Sample.config (siteMapOf Sample.siteList.sites)
      (siteTimeMapOf Sample.spread.libm Sample.siteList.sites) events s ∧
    reported (programEvents events) = [post] ∧ Sample.siteList.asked = 4 ∧
    ∀ id, post.siteMap.value id = (lastSite Sample.siteList.sites id).getD default := by
  obtain ⟨⟨events, s⟩, ran, shown⟩ := Option.map_eq_some_iff.mp
    (show Sample.fedFromList.map (fun r => (reported (programEvents r.1)).map fun post => post.oneComb.length) =
      some [5] by decide +kernel)
  obtain ⟨post, one, -⟩ := List.map_eq_singleton_iff.mp shown
  have known := stations_from_list Sample.siteApi Sample.lateAnswer
    (show Sample.siteApi.getStationData Sample.lateAnswer = Sample.siteList from rfl)
    (show FedRuns Sample.ligDataApi _ _ _ _ events s from ⟨_, ran⟩)
  exact ⟨events, s, post, ⟨_, ran⟩, one, by decide +kernel, known.2.2.2 post (one ▸ List.mem_cons_self)⟩

end LigDataParsing
