import LigDataParsing.Consistency
import LigDataParsing.Positions

/-! The parallel loop of `ProcessCombinationPool`: a team of threads with one iteration
each, over the pool and the two arrays they share. A move is one access of an iteration to
these, in any order; the loop is over when all iterations are. -/
namespace LigDataParsing

open Lookup

inductive IterationPoint where
  | start
  /-- In the loop over the stations, with `Stations_One` so far. -/
  | reading (stationsOne : List LocSta)
  | solved (oneResult : LocSta)
  /-- `sqList[m]` is written, `resultList[m]` is next. -/
  | writing (oneResult : LocSta)
  | done

structure Iteration where
  oneComb : List TriggerInfo
  point : IterationPoint

structure Team where
  triggerPool : TriggerPool
  sqList : List ℚ
  resultList : List LocSta
  iterations : List Iteration

/-- `triggerPool[id].staLocation`; of an absent key `operator[]` makes an entry. -/
def readLocation (p : Platform) (triggerPool : TriggerPool) (id : ℤ) : LocSta × TriggerPool :=
  match triggerPool.find id with
  | some entry => (entry.staLocation, triggerPool)
  | none => (p.uninitResult, triggerPool.insert id ⟨[], p.uninitResult, 0⟩)

def Team.advance (p : Platform) (m : ℕ) (oneComb : List TriggerInfo) (team : Team) : IterationPoint → Option Team
  | .start =>
    if oneComb.length < 5 then
      some { team with
        sqList := team.sqList.set m Params.floatMax
        iterations := team.iterations.set m ⟨oneComb, .done⟩ }
    else some { team with iterations := team.iterations.set m ⟨oneComb, .reading []⟩ }
  | .reading stationsOne =>
    match oneComb[stationsOne.length]? with
    | some trigger =>
      let read := readLocation p team.triggerPool trigger.stationID
      some { team with
        triggerPool := read.2
        iterations := team.iterations.set m ⟨oneComb, .reading (stationsOne ++ [read.1])⟩ }
    | none =>
      let oneResult := p.geoLocation stationsOne (locTimeOne oneComb)
      some { team with iterations := team.iterations.set m ⟨oneComb, .solved oneResult⟩ }
  | .solved oneResult =>
    some { team with
      sqList := team.sqList.set m oneResult.sq
      iterations := team.iterations.set m ⟨oneComb, .writing oneResult⟩ }
  | .writing oneResult =>
    some { team with
      resultList := team.resultList.set m oneResult
      iterations := team.iterations.set m ⟨oneComb, .done⟩ }
  | .done => none

/-- A move of the thread of iteration `m`; the event names the thread. -/
def Team.step (p : Platform) (team : Team) (m : ℕ) : Option (ℕ × Team) :=
  match team.iterations[m]? with
  | none => none
  | some iteration => (team.advance p m iteration.oneComb iteration.point).map fun next => (m, next)

/-- `new double[n]` leaves what was there, `new LocSta[n]` runs the constructor. -/
def Team.start (p : Platform) (s : Rounds) (uninitialised : List ℚ) : Team :=
  ⟨s.triggerPool, uninitialised, List.replicate s.locCombinationPool.length p.uninitResult,
    s.locCombinationPool.map fun oneComb => ⟨oneComb, .start⟩⟩

def Rounds.combined (s : Rounds) : Rounds :=
  let found := getLocationPoolP s.triggerPool s.siteTimeMap s.triggerPool.size
  { s with locCombinationPool := found.combinationPool, siteTimeMap := found.siteTimeMap }

theorem Rounds.combined_found (s : Rounds) :
    s.combined.locCombinationPool = combinationsOf s.siteTimeMap.value s.combined.triggerPool :=
  getLocationPoolP_eq s.triggerPool s.siteTimeMap

def Rounds.select (p : Platform) (s : Rounds) (sqList : List ℚ) (resultList : List LocSta) : Rounds :=
  let minElement := Extremum.firstLeast sqList
  { s with
    minSq := sqList.getD minElement Params.floatMax
    finalCombIdx := minElement
    result := resultList.getD minElement p.uninitResult }

section Steps

variable {p : Platform} {team next : Team} {m event : ℕ}

inductive Team.Moved (p : Platform) (team : Team) (m : ℕ) (oneComb : List TriggerInfo) :
    IterationPoint → Team → Prop where
  | short (few : oneComb.length < 5) :
      Moved p team m oneComb .start
        { team with sqList := team.sqList.set m Params.floatMax, iterations := team.iterations.set m ⟨oneComb, .done⟩ }
  | enter (enough : 5 ≤ oneComb.length) :
      Moved p team m oneComb .start { team with iterations := team.iterations.set m ⟨oneComb, .reading []⟩ }
  | read (stationsOne : List LocSta) (trigger : TriggerInfo) (held : oneComb[stationsOne.length]? = some trigger) :
      Moved p team m oneComb (.reading stationsOne)
        { team with
          triggerPool := (readLocation p team.triggerPool trigger.stationID).2
          iterations := team.iterations.set m
            ⟨oneComb, .reading (stationsOne ++ [(readLocation p team.triggerPool trigger.stationID).1])⟩ }
  | solve (stationsOne : List LocSta) (all : oneComb.length ≤ stationsOne.length) :
      Moved p team m oneComb (.reading stationsOne)
        { team with
          iterations := team.iterations.set m ⟨oneComb, .solved (p.geoLocation stationsOne (locTimeOne oneComb))⟩ }
  | writeSq (oneResult : LocSta) :
      Moved p team m oneComb (.solved oneResult)
        { team with
          sqList := team.sqList.set m oneResult.sq
          iterations := team.iterations.set m ⟨oneComb, .writing oneResult⟩ }
  | writeResult (oneResult : LocSta) :
      Moved p team m oneComb (.writing oneResult)
        { team with
          resultList := team.resultList.set m oneResult
          iterations := team.iterations.set m ⟨oneComb, .done⟩ }

theorem team_cases (stepped : team.step p m = some (event, next)) : event = m ∧ ∃ iteration,
    team.iterations[m]? = some iteration ∧ team.Moved p m iteration.oneComb iteration.point next := by
  rw [Team.step] at stepped
  cases held : team.iterations[m]? with
  | none => simp [held] at stepped
  | some iteration =>
    obtain ⟨oneComb, point⟩ := iteration
    rw [held] at stepped
    obtain ⟨after, moved, done⟩ := Option.map_eq_some_iff.mp stepped
    cases done
    refine ⟨rfl, _, rfl, ?_⟩
    cases point with
    | start =>
      simp only [Team.advance] at moved
      split_ifs at moved with few
      · cases moved
        exact .short few
      · cases moved
        exact .enter (not_lt.mp few)
    | reading stationsOne =>
      simp only [Team.advance] at moved
      cases trigger : oneComb[stationsOne.length]? with
      | none =>
        rw [trigger] at moved
        cases moved
        exact .solve stationsOne (List.getElem?_eq_none_iff.mp trigger)
      | some trigger' =>
        rw [trigger] at moved
        cases moved
        exact .read stationsOne trigger' trigger
    | solved oneResult =>
      cases moved
      exact .writeSq oneResult
    | writing oneResult =>
      cases moved
      exact .writeResult oneResult
    | done => simp [Team.advance] at moved

end Steps

def Iteration.Reached (p : Platform) (triggerPool : TriggerPool) (sqList : List ℚ) (resultList : List LocSta) (m : ℕ)
    (iteration : Iteration) : Prop :=
  match iteration.point with
  | .start => resultList[m]? = some p.uninitResult
  | .reading stations =>
    5 ≤ iteration.oneComb.length ∧ stations <+: stationsOne p triggerPool iteration.oneComb
  | .solved oneResult => evaluate p triggerPool iteration.oneComb = (oneResult.sq, oneResult)
  | .writing oneResult =>
    evaluate p triggerPool iteration.oneComb = (oneResult.sq, oneResult) ∧ sqList[m]? = some oneResult.sq
  | .done =>
    sqList[m]? = some (evaluate p triggerPool iteration.oneComb).1 ∧
    resultList[m]? = some (evaluate p triggerPool iteration.oneComb).2

/-- What holds of the team at any time: the pool is only read, and each thread has written
its own places only. -/
structure Working (p : Platform) (s : Rounds) (team : Team) : Prop where
  pool : team.triggerPool = s.triggerPool
  combs : team.iterations.map Iteration.oneComb = s.locCombinationPool
  sqSize : team.sqList.length = s.locCombinationPool.length
  resultSize : team.resultList.length = s.locCombinationPool.length
  reached : ∀ m (iteration : Iteration), team.iterations[m]? = some iteration →
    iteration.Reached p s.triggerPool team.sqList team.resultList m

def Iteration.left (iteration : Iteration) : ℕ :=
  match iteration.point with
  | .start => iteration.oneComb.length + 4
  | .reading stations => iteration.oneComb.length - stations.length + 3
  | .solved _ => 2
  | .writing _ => 1
  | .done => 0

def Team.left (team : Team) : ℕ := (team.iterations.map Iteration.left).sum

section Run

variable {p : Platform} {s : Rounds} {team next : Team} {m event : ℕ}

theorem working_start (p : Platform) {uninitialised : List ℚ}
    (sized : uninitialised.length = s.locCombinationPool.length) : Working p s (Team.start p s uninitialised) := by
  refine ⟨rfl, by simp [Team.start, Function.comp_def], sized, by simp [Team.start], fun m iteration held => ?_⟩
  obtain ⟨oneComb, inside, rfl⟩ := List.mem_map.mp (List.mem_of_getElem? held)
  have bound := (List.getElem?_eq_some_iff.mp held).1
  simp only [Team.start, List.length_map] at bound
  simp [Iteration.Reached, Team.start, bound]

/-- A thread that writes only at its own index leaves the others where they are. -/
theorem Working.set (working : Working p s team) {old new : Iteration} (listed : team.iterations[m]? = some old)
    (same : new.oneComb = old.oneComb) {sqList : List ℚ} {resultList : List LocSta}
    (sq : sqList.length = team.sqList.length) (result : resultList.length = team.resultList.length)
    (sqOther : ∀ k, k ≠ m → sqList[k]? = team.sqList[k]?)
    (resultOther : ∀ k, k ≠ m → resultList[k]? = team.resultList[k]?)
    (reached : new.Reached p s.triggerPool sqList resultList m) :
    Working p s ⟨team.triggerPool, sqList, resultList, team.iterations.set m new⟩ := by
  obtain ⟨pool, combs, sqSize, resultSize, others⟩ := working
  refine ⟨pool, ?_, sq.trans sqSize, result.trans resultSize, fun k iteration here => ?_⟩
  · obtain ⟨bound, held⟩ := List.getElem?_eq_some_iff.mp listed
    rw [← combs, List.map_set, same, ← held, ← List.getElem_map Iteration.oneComb (h := by simpa using bound)]
    exact List.set_getElem_self _
  · by_cases own : k = m
    · subst own
      have bound := (List.getElem?_eq_some_iff.mp listed).1
      rw [List.getElem?_set_self bound, Option.some.injEq] at here
      exact here ▸ reached
    · rw [List.getElem?_set_ne (Ne.symm own)] at here
      have before := others k iteration here
      unfold Iteration.Reached at before ⊢
      rw [sqOther k own, resultOther k own]
      exact before

theorem readLocation_present {triggerPool : TriggerPool} {id : ℤ} (present : id ∈ triggerPool.keys) :
    readLocation p triggerPool id =
      (((triggerPool.find id).map TriggerAtStation.staLocation).getD p.uninitResult, triggerPool) := by
  obtain ⟨entry, found⟩ := Option.isSome_iff_exists.mp (OrderedMap.find_isSome.mpr present)
  simp [readLocation, found]

theorem prefix_stationsOne {triggerPool : TriggerPool} {oneComb : List TriggerInfo} {stations : List LocSta}
    {trigger : TriggerInfo} (part : stations <+: stationsOne p triggerPool oneComb)
    (here : oneComb[stations.length]? = some trigger) :
    stations ++ [((triggerPool.find trigger.stationID).map TriggerAtStation.staLocation).getD p.uninitResult] <+:
      stationsOne p triggerPool oneComb := by
  have nextStation : (stationsOne p triggerPool oneComb)[stations.length]? =
      some (((triggerPool.find trigger.stationID).map TriggerAtStation.staLocation).getD p.uninitResult) := by
    rw [stationsOne, List.getElem?_map, here]
    rfl
  rw [List.prefix_iff_eq_take, List.length_append, List.length_singleton, List.take_add_one,
    ← List.prefix_iff_eq_take.mp part, nextStation]
  rfl

/-- Each access leaves its thread with fewer to come. -/
theorem Team.Moved.left_lt {oneComb : List TriggerInfo} {point : IterationPoint}
    (held : team.iterations[m]? = some ⟨oneComb, point⟩) (moved : team.Moved p m oneComb point next) :
    next.left + 1 ≤ team.left := by
  have used (new : Iteration) := Slots.sum_map_set Iteration.left held new
  cases moved with
  | short =>
    have less := used ⟨oneComb, .done⟩
    simp only [Iteration.left] at less
    simp only [Team.left]
    omega
  | enter =>
    have less := used ⟨oneComb, .reading []⟩
    simp only [Iteration.left, List.length_nil] at less
    simp only [Team.left]
    omega
  | read stations trigger here =>
    have inside : stations.length < oneComb.length := (List.getElem?_eq_some_iff.mp here).1
    have less := used ⟨oneComb, .reading (stations ++ [(readLocation p team.triggerPool trigger.stationID).1])⟩
    simp only [Iteration.left, List.length_append, List.length_singleton] at less
    simp only [Team.left]
    omega
  | solve stations =>
    have less := used ⟨oneComb, .solved (p.geoLocation stations (locTimeOne oneComb))⟩
    simp only [Iteration.left] at less
    simp only [Team.left]
    omega
  | writeSq oneResult =>
    have less := used ⟨oneComb, .writing oneResult⟩
    simp only [Iteration.left] at less
    simp only [Team.left]
    omega
  | writeResult =>
    have less := used ⟨oneComb, .done⟩
    simp only [Iteration.left] at less
    simp only [Team.left]
    omega

theorem step_working (present : ∀ comb ∈ s.locCombinationPool, ∀ t ∈ comb, t.stationID ∈ s.triggerPool.keys)
    (working : Working p s team) (stepped : team.step p m = some (event, next)) :
    Working p s next ∧ next.left + 1 ≤ team.left := by
  obtain ⟨-, ⟨oneComb, point⟩, held, moved⟩ := team_cases stepped
  refine ⟨?_, moved.left_lt held⟩
  have before := working.reached m _ held
  have bound := (List.getElem?_eq_some_iff.mp held).1
  have listed : oneComb ∈ s.locCombinationPool := by
    rw [← working.combs]
    exact List.mem_map.mpr ⟨_, List.mem_of_getElem? held, rfl⟩
  have size : team.iterations.length = s.locCombinationPool.length := by
    rw [← working.combs, List.length_map]
  have ownSq (sq : ℚ) : (team.sqList.set m sq)[m]? = some sq :=
    List.getElem?_set_self (by rw [working.sqSize, ← size]; exact bound)
  have ownResult (result : LocSta) : (team.resultList.set m result)[m]? = some result :=
    List.getElem?_set_self (by rw [working.resultSize, ← size]; exact bound)
  have apart {α : Type} (l : List α) (a : α) (k : ℕ) (other : k ≠ m) : (l.set m a)[k]? = l[k]? :=
    List.getElem?_set_ne (Ne.symm other)
  cases moved with
  | short few =>
    refine working.set held (by rfl) (by simp) rfl (apart _ _) (fun _ _ => rfl) ⟨?_, ?_⟩
    · rw [ownSq, evaluate, if_pos few]
    · rw [evaluate, if_pos few]
      exact before
  | enter enough => exact working.set held (by rfl) rfl rfl (fun _ _ => rfl) (fun _ _ => rfl) ⟨enough, List.nil_prefix⟩
  | read stations trigger here =>
    obtain ⟨enough, part⟩ := before
    have known := present oneComb listed trigger (List.mem_of_getElem? here)
    rw [working.pool, readLocation_present known, ← working.pool]
    refine working.set held (by rfl) rfl rfl (fun _ _ => rfl) (fun _ _ => rfl) ⟨enough, ?_⟩
    rw [working.pool]
    exact prefix_stationsOne part here
  | solve stations all =>
    obtain ⟨enough, part⟩ := before
    have whole : stations = stationsOne p s.triggerPool oneComb :=
      part.eq_of_length_le (by rw [stationsOne, List.length_map]; exact all)
    refine working.set held (by rfl) rfl rfl (fun _ _ => rfl) (fun _ _ => rfl) ?_
    change evaluate p s.triggerPool oneComb = _
    rw [evaluate, if_neg (not_lt.mpr enough), whole]
  | writeSq oneResult => exact working.set held (by rfl) (by simp) rfl (apart _ _) (fun _ _ => rfl) ⟨before, ownSq _⟩
  | writeResult oneResult =>
    obtain ⟨solved, sq⟩ := before
    refine working.set held (by rfl) rfl (by simp) (fun _ _ => rfl) (apart _ _) ⟨?_, ?_⟩
    · rw [sq, solved]
    · rw [ownResult, solved]

theorem run_working (present : ∀ comb ∈ s.locCombinationPool, ∀ t ∈ comb, t.stationID ∈ s.triggerPool.keys)
    {uninitialised : List ℚ} (sized : uninitialised.length = s.locCombinationPool.length) {events : List ℕ}
    (reached : Machine.Reaches (Team.step p) (Team.start p s uninitialised) events team) :
    Working p s team ∧
    events.length + team.left ≤ (s.locCombinationPool.map fun comb => comb.length + 4).sum := by
  refine reached.invariant (fun events team => Working p s team ∧
    events.length + team.left ≤ (s.locCombinationPool.map fun comb => comb.length + 4).sum) ?_ ?_
  · refine ⟨working_start p sized, ?_⟩
    simp [Team.left, Team.start, Iteration.left, Function.comp_def]
  · rintro shown current m event next - ⟨working, spent⟩ stepped
    obtain ⟨after, less⟩ := step_working present working stepped
    refine ⟨after, ?_⟩
    rw [List.length_append, List.length_singleton]
    omega

theorem done_of_stuck (stuck : ∀ m, team.step p m = none) {iteration : Iteration}
    (held : team.iterations[m]? = some iteration) : iteration.point = .done := by
  have blocked := stuck m
  obtain ⟨oneComb, point⟩ := iteration
  rw [Team.step, held] at blocked
  cases point with
  | done => rfl
  | start =>
    simp only [Team.advance] at blocked
    split_ifs at blocked
    all_goals simp at blocked
  | reading stations =>
    simp only [Team.advance] at blocked
    split at blocked
    all_goals simp at blocked
  | solved oneResult => simp [Team.advance] at blocked
  | writing oneResult => simp [Team.advance] at blocked

/-- At the end of the loop both arrays hold the evaluations of the combinations. -/
theorem Working.finished (working : Working p s team) (stuck : ∀ m, team.step p m = none) :
    team.sqList = s.locCombinationPool.map (fun comb => (evaluate p s.triggerPool comb).1) ∧
    team.resultList = s.locCombinationPool.map (fun comb => (evaluate p s.triggerPool comb).2) := by
  have held (m : ℕ) (inside : m < s.locCombinationPool.length) :
      team.sqList[m]? = some (evaluate p s.triggerPool s.locCombinationPool[m]).1 ∧
      team.resultList[m]? = some (evaluate p s.triggerPool s.locCombinationPool[m]).2 := by
    have comb := congrArg (fun combs => combs[m]?) working.combs
    simp only [List.getElem?_map, List.getElem?_eq_getElem inside] at comb
    obtain ⟨iteration, here, same⟩ := Option.map_eq_some_iff.mp comb
    have done := working.reached m iteration here
    unfold Iteration.Reached at done
    rw [done_of_stuck stuck here, same] at done
    exact done
  constructor
  · refine List.ext_getElem? fun m => ?_
    by_cases inside : m < s.locCombinationPool.length
    · rw [(held m inside).1, List.getElem?_map, List.getElem?_eq_getElem inside, Option.map_some]
    · rw [List.getElem?_eq_none (by rw [working.sqSize]; omega), List.getElem?_eq_none (by simpa using inside)]
  · refine List.ext_getElem? fun m => ?_
    by_cases inside : m < s.locCombinationPool.length
    · rw [(held m inside).2, List.getElem?_map, List.getElem?_eq_getElem inside, Option.map_some]
    · rw [List.getElem?_eq_none (by rw [working.resultSize]; omega), List.getElem?_eq_none (by simpa using inside)]

theorem Working.select (working : Working p s team) (stuck : ∀ m, team.step p m = none) :
    s.select p team.sqList team.resultList = processCombinationPool p s := by
  obtain ⟨sq, result⟩ := working.finished stuck
  rw [Rounds.select, processCombinationPool, sq, result, List.map_map]
  -- An entry of either array, and its default, is a component of the evaluation there.
  have entry {β : Type} (part : ℚ × LocSta → β) (i : ℕ) :
      (s.locCombinationPool.map fun comb => part (evaluate p s.triggerPool comb)).getD i
          (part (Params.floatMax, p.uninitResult)) =
        part ((s.locCombinationPool.map (evaluate p s.triggerPool)).getD i (Params.floatMax, p.uninitResult)) := by
    cases held : s.locCombinationPool[i]? with
    | none => simp [List.getD_eq_getElem?_getD, held]
    | some comb => simp [List.getD_eq_getElem?_getD, held]
  have sqAt := entry Prod.fst
  have resultAt := entry Prod.snd
  simp only [Function.comp_def, sqAt, resultAt]

theorem combinations_present {time : ℤ → ℤ → ℚ} {pool : TriggerPool} (keyed : Keyed pool) :
    ∀ comb ∈ combinationsOf time pool, ∀ t ∈ comb, t.stationID ∈ pool.keys :=
  fun _ found _ inComb => combination_stations keyed found ▸ List.mem_map_of_mem inComb

/-- In any order of the accesses, the pool is not changed, and the loop takes at most four
accesses and one for each station an iteration; when no thread can move, the arrays give
what the iterations one after another give. -/
theorem parallel_agrees {time : ℤ → ℤ → ℚ} {uninitialised : List ℚ} {events : List ℕ} (keyed : Keyed s.triggerPool)
    (found : s.locCombinationPool = combinationsOf time s.triggerPool)
    (sized : uninitialised.length = s.locCombinationPool.length)
    (reached : Machine.Reaches (Team.step p) (Team.start p s uninitialised) events team) :
    team.triggerPool = s.triggerPool ∧
    events.length ≤ s.locCombinationPool.length * (s.triggerPool.size + 4) ∧
    ((∀ m, team.step p m = none) →
      s.select p team.sqList team.resultList = processCombinationPool p s) := by
  obtain ⟨working, spent⟩ := run_working (found ▸ combinations_present keyed) sized reached
  have lengths : (s.locCombinationPool.map fun comb => comb.length + 4) =
      s.locCombinationPool.map fun _ => s.triggerPool.size + 4 :=
    List.map_congr_left fun comb member => by rw [combination_length (found ▸ member)]
  rw [lengths, List.map_const', List.sum_replicate_nat] at spent
  exact ⟨working.pool, by omega, working.select⟩

end Run

namespace Sample

def twoCombinations : Rounds := ((scanOf repeatedStation).rounds (platform prefersLate)).combined

def turns : Option (List ℕ × Team) :=
  Machine.run (Team.step (platform prefersLate)) (Team.start (platform prefersLate) twoCombinations [5, 7])
    ((List.replicate 9 [0, 1]).flatten)

end Sample

theorem parallel_agrees_two : ∃ events team,
    Machine.Reaches (Team.step (Sample.platform Sample.prefersLate))
      (Team.start (Sample.platform Sample.prefersLate) Sample.twoCombinations [5, 7]) events team ∧
    events.length = 18 ∧
    Sample.twoCombinations.select (Sample.platform Sample.prefersLate) team.sqList team.resultList =
      processCombinationPool (Sample.platform Sample.prefersLate) Sample.twoCombinations := by
  obtain ⟨⟨events, team⟩, ran, shown⟩ := Option.map_eq_some_iff.mp
    (show Sample.turns.map (fun r => (r.1.length, (List.range r.2.iterations.length).all fun m =>
      (r.2.step (Sample.platform Sample.prefersLate) m).isNone)) = some (18, true) by decide +kernel)
  obtain ⟨moves, ended⟩ := Prod.mk.inj shown
  obtain ⟨-, -, agrees⟩ := parallel_agrees (p := Sample.platform Sample.prefersLate) (s := Sample.twoCombinations)
    (scanFrom_keyed Sample.config (Sample.trigger 1 0.0001) (Sample.locator Sample.repeatedStation))
    (Rounds.combined_found _)
    (show [5, 7].length = Sample.twoCombinations.locCombinationPool.length by decide +kernel) ⟨_, ran⟩
  refine ⟨events, team, ⟨_, ran⟩, moves, agrees fun m => ?_⟩
  by_cases inside : m < team.iterations.length
  · exact Option.isNone_iff_eq_none.mp (List.all_eq_true.mp ended m (List.mem_range.mpr inside))
  · rw [Team.step, List.getElem?_eq_none (not_lt.mp inside)]

/-! The rounds with such a loop in each enumeration. -/

def LoopEnds (p : Platform) (s after : Rounds) : Prop :=
  ∃ uninitialised events team, uninitialised.length = s.locCombinationPool.length ∧
    Machine.Reaches (Team.step p) (Team.start p s uninitialised) events team ∧
    (∀ m, team.step p m = none) ∧ after = s.select p team.sqList team.resultList

def EnumerateRuns (p : Platform) (s after : Rounds) : Prop :=
  if s.combined.locCombinationPool.length > 0 then LoopEnds p s.combined after else after = s.combined

def FirstRoundRuns (p : Platform) (c : Config) (s after : Rounds) : Prop :=
  if s.minSq > c.locThresholdInitial then EnumerateRuns p s after else after = s

def RoundRuns (p : Platform) (c : Config) (s after : Rounds) : Prop :=
  if s.minSq > c.locThresholdInitial ∧ s.triggerPool.size > 6 then
    EnumerateRuns p (if s.locCombinationPool.length > 0 then eliminate p.libm s else s) after
  else after = s

def LocateRuns (p : Platform) (c : Config) (scanned : Scan) (after : Rounds) : Prop :=
  ∃ first second, FirstRoundRuns p c (scanned.rounds p) first ∧ RoundRuns p c first second ∧
    RoundRuns p c second after

section Rounds

variable {p : Platform} {c : Config} {s after : Rounds} {team : Team}

theorem Working.ends (present : ∀ comb ∈ s.locCombinationPool, ∀ t ∈ comb, t.stationID ∈ s.triggerPool.keys)
    (working : Working p s team) :
    ∃ events final, Machine.Reaches (Team.step p) team events final ∧ ∀ m, final.step p m = none := by
  induction left : team.left using Nat.strong_induction_on generalizing team with
  | _ left ih =>
    by_cases stuck : ∀ m, team.step p m = none
    · exact ⟨[], team, .refl team, stuck⟩
    · obtain ⟨m, moves⟩ := not_forall.mp stuck
      obtain ⟨⟨event, next⟩, stepped⟩ := Option.ne_none_iff_exists'.mp moves
      obtain ⟨after, less⟩ := step_working present working stepped
      obtain ⟨events, final, reached, done⟩ := ih next.left (by omega) after rfl
      refine ⟨[event] ++ events, final, Machine.Reaches.trans ?_ reached, done⟩
      exact (Machine.Reaches.refl team).snoc stepped

theorem loopEnds_iff (present : ∀ comb ∈ s.locCombinationPool, ∀ t ∈ comb, t.stationID ∈ s.triggerPool.keys) :
    LoopEnds p s after ↔ after = processCombinationPool p s := by
  constructor
  · rintro ⟨uninitialised, events, team, sized, reached, stuck, rfl⟩
    exact (run_working present sized reached).1.select stuck
  · rintro rfl
    have sized : (List.replicate s.locCombinationPool.length (0 : ℚ)).length = s.locCombinationPool.length :=
      List.length_replicate
    have started := working_start p sized
    obtain ⟨events, final, reached, stuck⟩ := started.ends present
    exact ⟨_, events, final, sized, reached, stuck, ((run_working present sized reached).1.select stuck).symm⟩

theorem enumerateRuns_iff (keyed : Keyed s.triggerPool) : EnumerateRuns p s after ↔ after = enumerate p s := by
  have same : enumerate p s =
      if s.combined.locCombinationPool.length > 0 then processCombinationPool p s.combined else s.combined := rfl
  rw [EnumerateRuns, same]
  split_ifs with nonempty
  · exact loopEnds_iff (s.combined_found ▸ combinations_present keyed)
  · rfl

theorem eliminate_keyed (keyed : Keyed s.triggerPool) : Keyed (eliminate p.libm s).triggerPool := by
  refine keyed.part ?_
  rcases OrderedMap.entries_erase s.triggerPool _ with same | ⟨before, entry, after, split, erased⟩
  · exact same.symm ▸ List.Sublist.refl _
  · rw [eliminate, erased, split]
    exact (List.Sublist.refl before).append (List.sublist_cons_self _ after)

theorem firstRoundRuns_iff (keyed : Keyed s.triggerPool) :
    FirstRoundRuns p c s after ↔ after = firstRound p c s := by
  rw [FirstRoundRuns, firstRound]
  split_ifs
  · exact enumerateRuns_iff keyed
  · rfl

theorem roundRuns_iff (keyed : Keyed s.triggerPool) : RoundRuns p c s after ↔ after = round p c s := by
  rw [RoundRuns, round]
  split_ifs
  · exact enumerateRuns_iff (eliminate_keyed keyed)
  · exact enumerateRuns_iff keyed
  · rfl

theorem firstRound_keyed (keyed : Keyed s.triggerPool) : Keyed (firstRound p c s).triggerPool := by
  rw [firstRound]
  split_ifs
  · exact (enumerate_triggerPool p s).symm ▸ keyed
  · exact keyed

theorem round_keyed (keyed : Keyed s.triggerPool) : Keyed (round p c s).triggerPool := by
  rw [round]
  split_ifs
  · exact (enumerate_triggerPool p _).symm ▸ eliminate_keyed keyed
  · exact (enumerate_triggerPool p s).symm ▸ keyed
  · exact keyed

/-- Whatever the order of the accesses in each loop, the rounds of a scan end, and with
what they compute one iteration after another. -/
theorem locate_in_parallel (p : Platform) (c : Config) (baseTrig : TriggerInfo) (l : Locator) (after : Rounds) :
    LocateRuns p c (l.scanFrom c baseTrig) after ↔ after = locate p c (l.scanFrom c baseTrig) := by
  have scanned : Keyed ((l.scanFrom c baseTrig).rounds p).triggerPool := scanFrom_keyed c baseTrig l
  have first := firstRound_keyed (p := p) (c := c) scanned
  have second := round_keyed (p := p) (c := c) first
  constructor
  · rintro ⟨one, two, ranFirst, ranSecond, ranThird⟩
    obtain rfl := (firstRoundRuns_iff scanned).mp ranFirst
    obtain rfl := (roundRuns_iff first).mp ranSecond
    exact (roundRuns_iff second).mp ranThird
  · rintro rfl
    exact ⟨_, _, (firstRoundRuns_iff scanned).mpr rfl, (roundRuns_iff first).mpr rfl, (roundRuns_iff second).mpr rfl⟩

end Rounds

end LigDataParsing
