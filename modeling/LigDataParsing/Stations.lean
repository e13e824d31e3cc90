import LigDataParsing.Runs

/-! The maps `main` builds from the station list, and what a run does to them: a lookup
of an unlisted station inserts it. -/
namespace LigDataParsing

open Lookup

/-- The stations `GetStationData` keeps of a parsed reply. -/
def getStationData (items : List StationInfo) : List StationInfo :=
  items.filter fun site => site.stationID < 1000

def siteMapOf (sites : List StationInfo) : SiteMap :=
  sites.foldl (fun siteMap site => siteMap.assign site.stationID site) default

/-- Propagation times between all pairs of the list; the distances in kilometres are
only kept to divide them. -/
def siteTimeMapOf (libm : Libm) (sites : List StationInfo) : SiteTimeMap :=
  sites.foldl (fun siteTimeMap site1 => sites.foldl (fun siteTimeMap site2 =>
    Table2.assign siteTimeMap site1.stationID site2.stationID
      (stadistance libm site1.latitude site1.longitude site2.latitude site2.longitude / Params.cVeo))
    siteTimeMap) default

structure Knows (ids : List ℤ) (siteMap : SiteMap) (siteTimeMap : SiteTimeMap) : Prop where
  sites : ∀ id ∈ ids, (siteMap.find id).isSome
  times : siteTimeMap.Covers ids

def PoolListed (sites : List StationInfo) (triggerPool : TriggerPool) : Prop :=
  ∀ id entry, (id, entry) ∈ triggerPool.entries →
    ∃ site ∈ sites, site.stationID = id ∧ entry.staLocation = site.staLocation

/-- If a pass gets to its scan, every trigger the scan examines is of a listed station. -/
def Event.listed (p : Platform) (c : Config) (ids : List ℤ) : Event → Bool
  | .pass now (baseTrig :: rest) _ _ =>
    isIsolated c (baseTrig :: rest) ∨ tooYoung p c now baseTrig ∨
      ∀ e ∈ examined c.maxBaseLineAsTOA baseTrig 0 (baseTrig :: rest),
        baseTrig.stationID ∈ ids ∧ e.2.stationID ∈ ids
  | _ => true

section Maps

theorem find_foldl_assign (sites : List StationInfo) (siteMap : SiteMap) (id : ℤ) (site : StationInfo)
    (found : (sites.foldl (fun m s => m.assign s.stationID s) siteMap).find id = some site) :
    site ∈ sites ∧ site.stationID = id ∨ siteMap.find id = some site := by
  induction sites generalizing siteMap with
  | nil => exact .inr found
  | cons first rest ih =>
    rcases ih _ found with ⟨member, same⟩ | before
    · exact .inl ⟨List.mem_cons_of_mem _ member, same⟩
    · by_cases here : id = first.stationID
      · subst here
        rw [Table.find_assign_same] at before
        obtain rfl := Option.some.inj before
        exact .inl ⟨List.mem_cons_self, rfl⟩
      · rw [Table.find_assign_other _ _ here] at before
        exact .inr before

theorem find_siteMapOf {sites : List StationInfo} {id : ℤ} {site : StationInfo}
    (found : (siteMapOf sites).find id = some site) : site ∈ sites ∧ site.stationID = id := by
  rcases find_foldl_assign sites default id site found with listed | empty
  · exact listed
  · simp [Table.find_default] at empty

theorem isSome_foldl_assign (sites : List StationInfo) (siteMap : SiteMap) (id : ℤ)
    (present : id ∈ sites.map StationInfo.stationID ∨ (siteMap.find id).isSome) :
    ((sites.foldl (fun m s => m.assign s.stationID s) siteMap).find id).isSome := by
  induction sites generalizing siteMap with
  | nil => exact present.resolve_left List.not_mem_nil
  | cons first rest ih =>
    apply ih
    by_cases here : id = first.stationID
    · subst here
      exact .inr (by rw [Table.find_assign_same]; rfl)
    · rw [Table.find_assign_other _ _ here]
      rcases present with listed | before
      · exact .inl ((List.mem_cons.mp listed).resolve_left here)
      · exact .inr before

theorem present_foldl_assign (row : ℤ) (value : StationInfo → ℚ) (sites : List StationInfo)
    (siteTimeMap : SiteTimeMap) (a b : ℤ) :
    Table2.Present (sites.foldl (fun m site => Table2.assign m row site.stationID (value site)) siteTimeMap) a b ↔
      a = row ∧ b ∈ sites.map StationInfo.stationID ∨ Table2.Present siteTimeMap a b := by
  induction sites generalizing siteTimeMap with
  | nil => simp
  | cons first rest ih =>
    rw [List.foldl_cons, ih, Table2.present_assign, List.map_cons, List.mem_cons]
    tauto

theorem present_rows (value : StationInfo → StationInfo → ℚ) (sites rows : List StationInfo)
    (siteTimeMap : SiteTimeMap) (a b : ℤ) :
    Table2.Present (rows.foldl (fun m site1 => sites.foldl (fun m site2 =>
      Table2.assign m site1.stationID site2.stationID (value site1 site2)) m) siteTimeMap) a b ↔
      a ∈ rows.map StationInfo.stationID ∧ b ∈ sites.map StationInfo.stationID ∨
        Table2.Present siteTimeMap a b := by
  induction rows generalizing siteTimeMap with
  | nil => simp
  | cons first rest ih =>
    rw [List.foldl_cons, ih, present_foldl_assign, List.map_cons, List.mem_cons]
    tauto

/-- `main` enters the pairs of listed stations and no others. -/
theorem present_siteTimeMapOf (libm : Libm) (sites : List StationInfo) (a b : ℤ) :
    Table2.Present (siteTimeMapOf libm sites) a b ↔
      a ∈ sites.map StationInfo.stationID ∧ b ∈ sites.map StationInfo.stationID := by
  have rows := present_rows (fun site1 site2 =>
    stadistance libm site1.latitude site1.longitude site2.latitude site2.longitude / Params.cVeo)
    sites sites default a b
  have nothing : ¬ Table2.Present (default : SiteTimeMap) a b := by
    rintro ⟨row, found, _⟩
    simp [Table.find_default] at found
  rw [siteTimeMapOf, rows]
  tauto

theorem main_knows (libm : Libm) (sites : List StationInfo) :
    Knows (sites.map StationInfo.stationID) (siteMapOf sites) (siteTimeMapOf libm sites) :=
  ⟨fun id member => isSome_foldl_assign sites default id (.inl member),
    fun a ha b hb => (present_siteTimeMapOf libm sites a b).mpr ⟨ha, hb⟩⟩

end Maps

section Scan

variable {ids : List ℤ} {maxBaseLineAsTOA : ℚ} {baseTrig : TriggerInfo}

theorem admit_unchanged {j : ℕ} {oneTrig : TriggerInfo} {s : Scan}
    (known : (s.siteMap.find oneTrig.stationID).isSome) : (admitTrigger j oneTrig s).siteMap = s.siteMap := by
  rw [admitTrigger]
  cases s.triggerPool.find oneTrig.stationID with
  | none =>
    simp only
    split_ifs
    · rfl
    · exact Table.touch_of_present known
  | some entry => rfl

/-- A scan that examines only listed stations changes neither map. -/
theorem scan_unchanged {j : ℕ} {queue : List TriggerInfo} {s : Scan} (knows : Knows ids s.siteMap s.siteTimeMap)
    (listed : ∀ e ∈ examined maxBaseLineAsTOA baseTrig j queue, baseTrig.stationID ∈ ids ∧ e.2.stationID ∈ ids) :
    (scan maxBaseLineAsTOA baseTrig j queue s).siteMap = s.siteMap ∧
    (scan maxBaseLineAsTOA baseTrig j queue s).siteTimeMap = s.siteTimeMap := by
  induction queue generalizing j s with
  | nil => exact ⟨rfl, rfl⟩
  | cons oneTrig rest ih =>
    simp only [examined] at listed
    simp only [scan]
    split_ifs at listed ⊢ with opposite outside near
    · exact ih knows listed
    · exact ⟨rfl, rfl⟩
    · obtain ⟨⟨base, here⟩, later⟩ := List.forall_mem_cons.mp listed
      have untouched := Table2.touch_of_present (knows.times _ base _ here)
      have siteMap : (admitTrigger j oneTrig { s with
          siteTimeMap := s.siteTimeMap.touch baseTrig.stationID oneTrig.stationID }).siteMap = s.siteMap :=
        admit_unchanged (knows.sites _ here)
      have siteTimeMap : (admitTrigger j oneTrig { s with
          siteTimeMap := s.siteTimeMap.touch baseTrig.stationID oneTrig.stationID }).siteTimeMap =
            s.siteTimeMap := (admit_siteTimeMap ..).trans untouched
      obtain ⟨first, second⟩ := ih (s := admitTrigger j oneTrig { s with
        siteTimeMap := s.siteTimeMap.touch baseTrig.stationID oneTrig.stationID })
        (by rw [siteMap, siteTimeMap]; exact knows) later
      exact ⟨first.trans siteMap, second.trans siteTimeMap⟩
    · obtain ⟨⟨base, here⟩, later⟩ := List.forall_mem_cons.mp listed
      rw [Table2.touch_of_present (knows.times _ base _ here)]
      exact ih knows later

theorem scan_present {j : ℕ} {queue : List TriggerInfo} (s : Scan) {e : ℕ × TriggerInfo}
    (member : e ∈ examined maxBaseLineAsTOA baseTrig j queue) :
    Table2.Present (scan maxBaseLineAsTOA baseTrig j queue s).siteTimeMap baseTrig.stationID e.2.stationID := by
  induction queue generalizing j s with
  | nil => simp [examined] at member
  | cons oneTrig rest ih =>
    simp only [examined] at member
    simp only [scan]
    split_ifs at member ⊢ with opposite outside near
    · exact ih s member
    · simp at member
    · rcases List.mem_cons.mp member with rfl | later
      · apply (scan_spec maxBaseLineAsTOA baseTrig (j + 1) rest _).2.2.present
        rw [admit_siteTimeMap]
        exact Table2.present_touch _ _ _
      · exact ih _ later
    · rcases List.mem_cons.mp member with rfl | later
      · apply (scan_spec maxBaseLineAsTOA baseTrig (j + 1) rest _).2.2.present
        exact Table2.present_touch _ _ _
      · exact ih _ later

end Scan

section Rounds

variable {p : Platform} {c : Config} {ids : List ℤ}

theorem fillSqMap_unchanged {libm : Libm} {result : LocSta} {comb : List TriggerInfo}
    {s : List (ℤ × ℚ) × SiteMap} (known : ∀ t ∈ comb, (s.2.find t.stationID).isSome) :
    (fillSqMap libm result comb s).2 = s.2 := by
  induction comb generalizing s with
  | nil => rfl
  | cons iter rest ih =>
    obtain ⟨here, later⟩ := List.forall_mem_cons.mp known
    rw [fillSqMap, Table.touch_of_present here]
    exact ih later

theorem enumerate_unchanged {s : Rounds} (covered : s.siteTimeMap.Covers ids)
    (inside : ∀ list ∈ poolTriggers s.triggerPool, ∀ t ∈ list, t.stationID ∈ ids) :
    (enumerate p s).siteMap = s.siteMap ∧ (enumerate p s).siteTimeMap = s.siteTimeMap := by
  have untouched := getLocationPoolP_covered covered inside
  simp only [enumerate]
  split_ifs
  · exact ⟨rfl, untouched⟩
  · exact ⟨rfl, untouched⟩

theorem part_inside {pool part : TriggerPool} (sub : part.entries.Sublist pool.entries)
    (inside : ∀ list ∈ poolTriggers pool, ∀ t ∈ list, t.stationID ∈ ids) :
    ∀ list ∈ poolTriggers part, ∀ t ∈ list, t.stationID ∈ ids := by
  intro list member
  rw [poolTriggers_eq] at member inside
  exact inside list ((sub.map _).subset member)

theorem round_unchanged {pool : TriggerPool} {siteMap : SiteMap} {siteTimeMap : SiteTimeMap} {s : Rounds}
    (knows : Knows ids s.siteMap s.siteTimeMap)
    (inside : ∀ list ∈ poolTriggers pool, ∀ t ∈ list, t.stationID ∈ ids)
    (consistent : Consistent p pool siteMap siteTimeMap s) :
    (round p c s).siteMap = s.siteMap ∧ (round p c s).siteTimeMap = s.siteTimeMap := by
  have insidePool := part_inside consistent.part inside
  rw [round]
  split_ifs with again nonempty
  · have eliminated : (eliminate p.libm s).siteMap = s.siteMap := by
      apply fillSqMap_unchanged
      intro t member
      rcases consistent.chosen with ⟨empty, _⟩ | best
      · simp [empty] at nonempty
      · have chosen := oneComb_mem best.inRange
        rw [best.combinations, mem_combinationsOf, poolTriggers_eq] at chosen
        obtain ⟨id, entry, listed, inEntry⟩ := choice_mem chosen.1 member
        rw [poolTriggers_eq] at insidePool
        exact knows.sites _ (insidePool entry.triggers (List.mem_map_of_mem listed) t inEntry)
    obtain ⟨siteMap, siteTimeMap⟩ := enumerate_unchanged (p := p) (s := eliminate p.libm s) knows.times
      (part_inside (eliminate_part p.libm s) insidePool)
    exact ⟨siteMap.trans eliminated, siteTimeMap⟩
  · exact enumerate_unchanged knows.times insidePool
  · exact ⟨rfl, rfl⟩

/-- The rounds look up only stations of the pool they start from. -/
theorem locate_unchanged {scanned : Scan} (stations : 5 ≤ scanned.triggerPool.size)
    (knows : Knows ids scanned.siteMap scanned.siteTimeMap)
    (inside : ∀ list ∈ poolTriggers scanned.triggerPool, ∀ t ∈ list, t.stationID ∈ ids) :
    (locate p c scanned).siteMap = scanned.siteMap ∧
    (locate p c scanned).siteTimeMap = scanned.siteTimeMap := by
  have first := firstRound_consistent p c scanned stations
  have start : (firstRound p c (scanned.rounds p)).siteMap = scanned.siteMap ∧
      (firstRound p c (scanned.rounds p)).siteTimeMap = scanned.siteTimeMap := by
    rw [firstRound]
    split_ifs
    · exact enumerate_unchanged (s := scanned.rounds p) knows.times inside
    · exact ⟨rfl, rfl⟩
  have once := round_unchanged (c := c) (by rw [start.1, start.2]; exact knows) inside first
  rw [start.1, start.2] at once
  have twice := round_unchanged (c := c) (by rw [once.1, once.2]; exact knows) inside (round_consistent c first)
  rw [once.1, once.2] at twice
  exact twice

end Rounds

section Run

variable {p : Platform} {c : Config} {ids : List ℤ} {now : ℤ} {l next : Locator} {baseTrig : TriggerInfo}
  {rest : List TriggerInfo} {verdict : Verdict}

/-- A pass past the wait examines listed stations only, if it is listed. -/
theorem listed_examined (queue : l.allTriggers = baseTrig :: rest) (near : isIsolated c l.allTriggers = false)
    (old : tooYoung p c now baseTrig = false)
    (listed : Event.listed p c ids (.pass now l.allTriggers verdict next.allTriggers) = true) :
    ∀ e ∈ examined c.maxBaseLineAsTOA baseTrig 0 l.allTriggers,
      baseTrig.stationID ∈ ids ∧ e.2.stationID ∈ ids := by
  rw [queue] at near listed ⊢
  simpa [Event.listed, near, old] using listed

theorem windowOf_listed
    (examined : ∀ e ∈ examined c.maxBaseLineAsTOA baseTrig 0 l.allTriggers,
      baseTrig.stationID ∈ ids ∧ e.2.stationID ∈ ids) :
    ∀ id entry, (id, entry) ∈ (l.scanFrom c baseTrig).triggerPool.entries →
      id ∈ ids ∧ ∀ t ∈ entry.triggers, t.stationID ∈ ids := by
  intro id entry member
  obtain ⟨_, _, triggers, nonempty⟩ := (scanFrom_spec c baseTrig l).1.entry id entry member
  have inWindow : ∀ e ∈ ofStation id (l.windowOf c baseTrig), e.2.stationID = id ∧ e.2.stationID ∈ ids := by
    intro e inside
    obtain ⟨inside, same⟩ := List.mem_filter.mp inside
    exact ⟨of_decide_eq_true same, (examined e (mem_window.mp inside).1).2⟩
  constructor
  · obtain ⟨e, inside⟩ := List.exists_mem_of_ne_nil _ nonempty
    exact (inWindow e inside).1 ▸ (inWindow e inside).2
  · intro t inEntry
    rw [triggers] at inEntry
    obtain ⟨j, x, inside, ⟨rfl, _⟩ | ⟨rfl, _⟩⟩ := mem_marked inEntry
    · exact (inWindow _ inside).2
    · exact (inWindow _ inside).2

/-- The station whose distance the last filter reads is of the pool or the base. -/
theorem head_listed {scanned : Scan} {pool : TriggerPool} (stations : 5 ≤ scanned.triggerPool.size)
    (sub : scanned.triggerPool = pool) (base : baseTrig.stationID ∈ ids)
    (inside : ∀ id entry, (id, entry) ∈ pool.entries → ∀ t ∈ entry.triggers, t.stationID ∈ ids) :
    ((locate p c scanned).oneComb.headD baseTrig).stationID ∈ ids := by
  subst sub
  have consistent := locate_consistent p c scanned stations
  rcases consistent.chosen with ⟨empty, _⟩ | best
  · rw [Rounds.oneComb, empty]
    exact base
  · have chosen := oneComb_mem best.inRange
    rw [best.combinations, mem_combinationsOf, poolTriggers_eq] at chosen
    cases comb : (locate p c scanned).oneComb with
    | nil => exact base
    | cons first others =>
      obtain ⟨id, entry, listed, inEntry⟩ := choice_mem chosen.1 (comb ▸ List.mem_cons_self)
      exact inside id entry (consistent.part.subset listed) first inEntry

theorem Passed.unchanged (queue : l.allTriggers = baseTrig :: rest) (knows : Knows ids l.siteMap l.siteTimeMap)
    (listed : Event.listed p c ids (.pass now l.allTriggers verdict next.allTriggers) = true)
    (passed : Passed p c now l baseTrig rest verdict next) :
    next.siteMap = l.siteMap ∧ next.siteTimeMap = l.siteTimeMap := by
  have scanned (near : isIsolated c l.allTriggers = false) (old : tooYoung p c now baseTrig = false) :
      (l.scanFrom c baseTrig).siteMap = l.siteMap ∧ (l.scanFrom c baseTrig).siteTimeMap = l.siteTimeMap :=
    scan_unchanged knows (listed_examined queue near old listed)
  have rounds (near : isIsolated c l.allTriggers = false) (old : tooYoung p c now baseTrig = false)
      (enough : 5 ≤ (l.scanFrom c baseTrig).triggerPool.size) :
      (locate p c (l.scanFrom c baseTrig)).siteMap = l.siteMap ∧
      (locate p c (l.scanFrom c baseTrig)).siteTimeMap = l.siteTimeMap := by
    obtain ⟨siteMap, siteTimeMap⟩ := scanned near old
    have inside := windowOf_listed (listed_examined queue near old listed)
    have located := locate_unchanged (p := p) (c := c) enough
      (by rw [siteMap, siteTimeMap]; exact knows) (by
        intro list member t inList
        rw [poolTriggers_eq] at member
        obtain ⟨⟨id, entry⟩, inPool, rfl⟩ := List.mem_map.mp member
        exact (inside id entry inPool).2 t inList)
    exact ⟨located.1.trans siteMap, located.2.trans siteTimeMap⟩
  cases passed with
  | isolated | waiting => exact ⟨rfl, rfl⟩
  | few near old => exact scanned near old
  | rejected near old enough => exact rounds near old enough
  | located near old enough locals found good =>
    subst found
    obtain ⟨siteMap, siteTimeMap⟩ := rounds near old enough
    have allListed := listed_examined queue near old listed
    have base : baseTrig.stationID ∈ ids := by
      obtain ⟨⟨id, entry⟩, member⟩ := List.exists_mem_of_length_pos (lt_of_lt_of_le (by omega : 0 < 5) enough)
      obtain ⟨e, inside⟩ := List.exists_mem_of_ne_nil _ ((scanFrom_spec c baseTrig l).1.entry id entry member).2.2.2
      exact (allListed e (mem_window.mp (List.mem_of_mem_filter inside)).1).1
    have head := head_listed (p := p) (c := c) enough rfl base
      fun id entry member => (windowOf_listed allListed id entry member).2
    refine ⟨?_, siteTimeMap⟩
    rw [← siteMap] at knows
    exact (Table.touch_of_present (knows.sites _ head)).trans siteMap

theorem Passed.present (queue : l.allTriggers = baseTrig :: rest)
    (passed : Passed p c now l baseTrig rest verdict next)
    (known : ∀ a b, Table2.Present next.siteTimeMap a b → a ∈ ids ∧ b ∈ ids) :
    Event.listed p c ids (.pass now l.allTriggers verdict next.allTriggers) = true := by
  have scanned (near : isIsolated c l.allTriggers = false)
      (grown : (l.scanFrom c baseTrig).siteTimeMap.Grown next.siteTimeMap) :
      Event.listed p c ids (.pass now l.allTriggers verdict next.allTriggers) = true := by
    have entered : ∀ e ∈ examined c.maxBaseLineAsTOA baseTrig 0 l.allTriggers,
        baseTrig.stationID ∈ ids ∧ e.2.stationID ∈ ids := fun e member =>
      known _ _ (grown.present _ _ (scan_present ⟨.empty, l.siteMap, l.siteTimeMap⟩ member))
    rw [queue] at entered ⊢
    exact decide_eq_true (.inr (.inr entered))
  cases passed with
  | isolated alone =>
    rw [queue] at alone ⊢
    exact decide_eq_true (.inl alone)
  | waiting near young =>
    rw [queue]
    exact decide_eq_true (.inr (.inl young))
  | few near => exact scanned near (Table2.Grown.refl _)
  | rejected near old enough => exact scanned near (locate_consistent p c _ enough).times
  | located near old enough locals found good =>
    subst found
    exact scanned near (locate_consistent p c _ enough).times

theorem reaches_grown {s t : Locator} {events : List Event}
    (reached : Machine.Reaches (Locator.step p c) s events t) : s.siteTimeMap.Grown t.siteTimeMap := by
  apply reached.invariant (fun _ current => s.siteTimeMap.Grown current.siteTimeMap)
  · exact Table2.Grown.refl _
  · intro _ current a event next _ grown stepped
    cases step_cases stepped with
    | merge | idle => exact grown
    | pass now baseTrig rest verdict next busy queue passed => exact grown.trans passed.times

variable {siteMap : SiteMap} {siteTimeMap : SiteTimeMap} {events : List Event}

theorem runs_unchanged (knows : Knows ids siteMap siteTimeMap) (reached : Runs p c siteMap siteTimeMap events l)
    (listed : ∀ event ∈ events, event.listed p c ids = true) :
    l.siteMap = siteMap ∧ l.siteTimeMap = siteTimeMap := by
  refine reached.invariant (fun shown current => (∀ event ∈ shown, event.listed p c ids = true) →
    current.siteMap = siteMap ∧ current.siteTimeMap = siteTimeMap) ?_ ?_ listed
  · exact fun _ => ⟨rfl, rfl⟩
  · intro shown current a event next _ unchanged stepped listed
    obtain ⟨rfl, rfl⟩ := unchanged fun event member => listed event (List.mem_append_left _ member)
    have last := listed event (List.mem_append_right _ (List.mem_singleton.mpr rfl))
    cases step_cases stepped with
    | merge | idle => exact ⟨rfl, rfl⟩
    | pass now baseTrig rest verdict next busy queue passed => exact passed.unchanged queue knows last

end Run

namespace Sample

def sites (ids : List ℤ) : List StationInfo := ids.map site

def simultaneous (ids : List ℤ) : List TriggerInfo := ids.map fun id => trigger id 0.1

end Sample

/-- In a run on the maps `main` builds, all pools consist of listed stations and the maps
end unchanged if and only if no scan examines a trigger of an unlisted station. -/
theorem only_listed_stations_iff {p : Platform} {c : Config} {sites : List StationInfo} {events : List Event}
    {l : Locator} (reached : Runs p c (siteMapOf sites) (siteTimeMapOf p.libm sites) events l) :
    ((∀ event ∈ events, ∀ pool, event.triggerPool = some pool → PoolListed sites pool) ∧
      l.siteMap = siteMapOf sites ∧ l.siteTimeMap = siteTimeMapOf p.libm sites) ↔
    ∀ event ∈ events, event.listed p c (sites.map StationInfo.stationID) = true := by
  constructor
  · rintro ⟨_, _, unchanged⟩ event member
    cases event with
    | merge | idle => rfl
    | pass now queue verdict remaining =>
      obtain ⟨_, _, before, baseTrig, rest, after, _, _, _, rfl, queue, rfl, passed, tail⟩ := runs_pass reached member
      apply passed.present queue
      intro a b present
      have final := (reaches_grown tail).present a b present
      rwa [unchanged, present_siteTimeMapOf] at final
  · intro listed
    have knows := main_knows p.libm sites
    refine ⟨?_, runs_unchanged knows reached listed⟩
    intro event member pool shown id entry inPool
    have here := listed event member
    cases event with
    | merge | idle => simp [Event.triggerPool] at shown
    | pass now queue verdict remaining =>
      obtain ⟨earlier, later, before, baseTrig, rest, after, rfl, run, _, rfl, queue, rfl, passed, _⟩ :=
        runs_pass reached member
      obtain ⟨siteMap, siteTimeMap⟩ := runs_unchanged knows run fun event inRun =>
        listed event (List.mem_append_left _ inRun)
      have scanned (near : isIsolated c before.allTriggers = false) (old : tooYoung p c now baseTrig = false)
          (same : (before.scanFrom c baseTrig).triggerPool = pool) :
          ∃ site ∈ sites, site.stationID = id ∧ entry.staLocation = site.staLocation := by
        subst same
        obtain ⟨isListed, _⟩ := windowOf_listed (listed_examined queue near old here) id entry inPool
        obtain ⟨site, found⟩ := Option.isSome_iff_exists.mp (knows.sites id isListed)
        obtain ⟨inList, same⟩ := find_siteMapOf found
        refine ⟨site, inList, same, ?_⟩
        rw [((scanFrom_spec c baseTrig before).1.entry id entry inPool).2.1, SiteMap.location, siteMap,
          Table.value_of_find found]
      cases passed with
      | isolated | waiting => simp [Event.triggerPool, Verdict.triggerPool] at shown
      | few near old | rejected near old | located near old => exact scanned near old (Option.some.inj shown)

theorem only_listed_stations_five : ∃ events l,
    Runs (Sample.platform Sample.prefersLate) Sample.config (siteMapOf (Sample.sites [1, 2, 3, 4, 5]))
      (siteTimeMapOf (Sample.platform Sample.prefersLate).libm (Sample.sites [1, 2, 3, 4, 5])) events l ∧
    (gone events).length = 5 ∧
    (((∀ event ∈ events, ∀ pool, event.triggerPool = some pool →
          PoolListed (Sample.sites [1, 2, 3, 4, 5]) pool) ∧
        l.siteMap = siteMapOf (Sample.sites [1, 2, 3, 4, 5]) ∧
        l.siteTimeMap = siteTimeMapOf (Sample.platform Sample.prefersLate).libm (Sample.sites [1, 2, 3, 4, 5])) ↔
      ∀ event ∈ events, event.listed (Sample.platform Sample.prefersLate) Sample.config
        ((Sample.sites [1, 2, 3, 4, 5]).map StationInfo.stationID) = true) := by
  obtain ⟨⟨events, l⟩, ran, removed⟩ := Option.map_eq_some_iff.mp
    (show (Machine.run (Locator.step (Sample.platform Sample.prefersLate) Sample.config)
      (Locator.start Sample.config (siteMapOf (Sample.sites [1, 2, 3, 4, 5]))
        (siteTimeMapOf (Sample.platform Sample.prefersLate).libm (Sample.sites [1, 2, 3, 4, 5])))
      [.merge (Sample.simultaneous [1, 2, 3, 4, 5]), .pass Sample.now]).map (fun r => (gone r.1).length) = some 5
      by decide +kernel)
  exact ⟨events, l, ⟨_, ran⟩, removed, only_listed_stations_iff ⟨_, ran⟩⟩

/-- Station 1500 is not listed and takes part all the same, at coordinates zero. -/
theorem unlisted_station_enters : ∃ events l,
    Runs (Sample.platform Sample.prefersLate) Sample.config (siteMapOf (getStationData (Sample.sites [1, 1500])))
      (siteTimeMapOf (Sample.platform Sample.prefersLate).libm (getStationData (Sample.sites [1, 1500]))) events l ∧
    (∃ event ∈ events, ∃ pool, event.triggerPool = some pool ∧
      ¬ PoolListed (getStationData (Sample.sites [1, 1500])) pool) ∧
    l.siteMap ≠ siteMapOf (getStationData (Sample.sites [1, 1500])) := by
  obtain ⟨⟨events, l⟩, ran, shown⟩ := Option.map_eq_some_iff.mp
    (show (Machine.run (Locator.step (Sample.platform Sample.prefersLate) Sample.config)
      (Locator.start Sample.config (siteMapOf (getStationData (Sample.sites [1, 1500])))
        (siteTimeMapOf (Sample.platform Sample.prefersLate).libm (getStationData (Sample.sites [1, 1500]))))
      [.merge (Sample.simultaneous [1, 1500]), .pass Sample.now]).map
        (fun r => (r.1.any fun event => event.triggerPool.any fun pool => 1500 ∈ pool.keys,
          (r.2.siteMap.find 1500).isSome)) = some (true, true) by decide +kernel)
  obtain ⟨pools, entered⟩ := Prod.mk.inj shown
  refine ⟨events, l, ⟨_, ran⟩, ?_, ?_⟩
  · obtain ⟨event, member, holds⟩ := List.any_eq_true.mp pools
    cases built : event.triggerPool with
    | none => simp [built] at holds
    | some pool =>
      refine ⟨event, member, pool, built, fun listed => ?_⟩
      rw [built, Option.any_some, decide_eq_true_eq] at holds
      obtain ⟨⟨id, entry⟩, inPool, unlisted⟩ := List.mem_map.mp holds
      obtain ⟨site, inList, same, _⟩ := listed id entry inPool
      have small := of_decide_eq_true (List.mem_filter.mp inList).2
      simp only at unlisted
      omega
  · intro unchanged
    have absent : (siteMapOf (getStationData (Sample.sites [1, 1500]))).find 1500 = none := by decide +kernel
    rw [unchanged, absent] at entered
    contradiction

end LigDataParsing
