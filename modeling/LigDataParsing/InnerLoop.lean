import LigDataParsing.Arrival
import LigDataParsing.Runs

/-! The loop over `allTriggers`: how each pass shortens the queue, and that the loop ends
for every clock. -/
namespace LigDataParsing

open IndexedErase Lookup

/-- What a pass takes off the queue. The erasures of a location stay in range one after
the other, also where positions repeat. -/
def Shrinks (queue remaining : List TriggerInfo) : Verdict → Prop
  | .waiting _ => remaining = queue
  | .isolated _ | .unlocated _ _ => remaining.length + 1 = queue.length
  | .located _ _ rounds _ =>
    5 ≤ rounds.oneComb.length ∧
    InRange (descending (rounds.oneComb.map TriggerInfo.trigIdx)) queue.length ∧
    remaining = eraseAll queue (descending (rounds.oneComb.map TriggerInfo.trigIdx)) ∧
    remaining.length + rounds.oneComb.length = queue.length

def EachShrinks (events : List Event) : Prop :=
  ∀ now queue verdict remaining, Event.pass now queue verdict remaining ∈ events →
    Shrinks queue remaining verdict

theorem EachShrinks.nil : EachShrinks [] := fun _ _ _ _ member => absurd member List.not_mem_nil

theorem EachShrinks.cons {now : ℤ} {queue remaining : List TriggerInfo} {verdict : Verdict}
    {events : List Event} (here : Shrinks queue remaining verdict) (later : EachShrinks events) :
    EachShrinks (.pass now queue verdict remaining :: events) := by
  intro now queue verdict remaining member
  rcases List.mem_cons.mp member with same | behind
  · cases same
    exact here
  · exact later now queue verdict remaining behind

section Pass

variable {p : Platform} {c : Config} {now : ℤ} {l next : Locator} {baseTrig : TriggerInfo}
  {rest : List TriggerInfo} {verdict : Verdict}

/-- A trigger of the pool carries its own position in the queue or none. -/
theorem pooled_carries (unset : ∀ x ∈ l.allTriggers, x.trigIdx = 0) {id : ℤ} {t : TriggerInfo}
    (member : t ∈ marked (ofStation id (l.windowOf c baseTrig))) : CarriesPosition l.allTriggers t := by
  obtain ⟨j, x, inside, carried⟩ := mem_marked member
  have held := windowOf_queue (List.mem_of_mem_filter inside)
  have queued : x ∈ l.allTriggers := List.mem_of_getElem? held
  rcases carried with ⟨rfl, _⟩ | ⟨rfl, _⟩
  · exact ⟨x, queued, rfl, .inr held⟩
  · exact ⟨t, queued, rfl, .inl (unset t queued)⟩

/-- A located combination has five triggers or more, and all of their positions can be erased. -/
theorem located_inRange (unset : ∀ x ∈ l.allTriggers, x.trigIdx = 0)
    (enough : 5 ≤ (l.scanFrom c baseTrig).triggerPool.size)
    (sentinel : c.locThresholdInitial ≤ Params.floatMax)
    (good : (locate p c (l.scanFrom c baseTrig)).minSq < c.locThresholdInitial) :
    5 ≤ (locate p c (l.scanFrom c baseTrig)).oneComb.length ∧
    InRange (descending ((locate p c (l.scanFrom c baseTrig)).oneComb.map TriggerInfo.trigIdx))
      l.allTriggers.length := by
  have best := locate_best enough sentinel good
  have consistent := locate_consistent p c (l.scanFrom c baseTrig) enough
  have stations := combination_stations ((scanFrom_keyed c baseTrig l).part consistent.part) best.oneComb_mem
  refine ⟨combination_length best.oneComb_mem ▸ consistent.stations,
    carried_inRange (stations ▸ OrderedMap.nodup _) fun t inComb => ?_⟩
  obtain ⟨id, member⟩ := locate_marked p enough best.oneComb_mem inComb
  exact pooled_carries unset member

theorem Passed.shrinks (unset : ∀ x ∈ l.allTriggers, x.trigIdx = 0)
    (sentinel : c.locThresholdInitial ≤ Params.floatMax) (queue : l.allTriggers = baseTrig :: rest)
    (passed : Passed p c now l baseTrig rest verdict next) :
    Shrinks l.allTriggers next.allTriggers verdict := by
  cases passed with
  | isolated | few | rejected =>
    rw [queue]
    rfl
  | waiting => rfl
  | located near old enough rounds found good =>
    subst found
    obtain ⟨five, inRange⟩ := located_inRange unset enough sentinel good
    have length := eraseAll_length (l := l.allTriggers) inRange
    rw [(descending_perm _).length_eq, List.length_map] at length
    exact ⟨five, inRange, rfl, length⟩

/-- A pass that goes on leaves fewer triggers, and stays in the loop exactly if some are left. -/
theorem Passed.progress (unset : ∀ x ∈ l.allTriggers, x.trigIdx = 0)
    (sentinel : c.locThresholdInitial ≤ Params.floatMax) (queue : l.allTriggers = baseTrig :: rest)
    (passed : Passed p c now l baseTrig rest verdict next) :
    next.busy = false ∧ next.allTriggers = l.allTriggers ∧ tooYoung p c now baseTrig = true ∨
    (next.busy = true ↔ next.allTriggers ≠ []) ∧ next.allTriggers.length < l.allTriggers.length := by
  have shrinks := passed.shrinks unset sentinel queue
  cases passed with
  | waiting near young => exact .inl ⟨rfl, rfl, young⟩
  | isolated | few | rejected =>
    refine .inr ⟨by simp [Locator.leave], ?_⟩
    have shorter : _ + 1 = _ := shrinks
    omega
  | located near old enough rounds found good =>
    refine .inr ⟨by simp [Locator.leave], ?_⟩
    obtain ⟨five, _, _, shorter⟩ := shrinks
    omega

end Pass

/-- From any queue the loop ends after at most as many passes as there are
triggers, every pass but a last waiting one takes triggers off, and on exit the queue is
empty or its head too young. -/
theorem inner_loop_ends {p : Platform} {c : Config} {l : Locator}
    (unset : ∀ x ∈ l.allTriggers, x.trigIdx = 0) (entered : l.busy = true ↔ l.allTriggers ≠ [])
    (sentinel : c.locThresholdInitial ≤ Params.floatMax) (clock : ℕ → ℤ) :
    ∃ n ≤ l.allTriggers.length, ∃ events final,
      Machine.run (Locator.step p c) l ((List.range n).map fun i => .pass (clock i)) = some (events, final) ∧
      final.busy = false ∧ EachShrinks events ∧
      (final.allTriggers = [] ∨ ∃ last baseTrig rest, n = last + 1 ∧ final.allTriggers = baseTrig :: rest ∧
        tooYoung p c (clock last) baseTrig = true) := by
  induction length : l.allTriggers.length using Nat.strong_induction_on generalizing l clock with
  | _ size ih =>
    by_cases empty : l.allTriggers = []
    · have idle : l.busy = false := Bool.eq_false_of_not_eq_true fun busy => entered.mp busy empty
      exact ⟨0, Nat.zero_le _, [], l, rfl, idle, .nil, .inl empty⟩
    · have busy := entered.mpr empty
      obtain ⟨verdict, next, passes⟩ := pass_total p c (clock 0) empty
      obtain ⟨baseTrig, rest, queue, passed⟩ := pass_cases passes
      let event := Event.pass (clock 0) l.allTriggers verdict next.allTriggers
      have stepped : l.step p c (.pass (clock 0)) = some (event, next) := by
        simp [Locator.step, busy, passes, event]
      have shrinks := passed.shrinks unset sentinel queue
      have positive : 0 < l.allTriggers.length := List.length_pos_iff.mpr empty
      rcases passed.progress unset sentinel queue with ⟨idle, same, young⟩ | ⟨entered', shorter⟩
      · refine ⟨1, by omega, [event], next, Machine.run_cons.mpr ⟨_, next, [], stepped, rfl, rfl⟩, idle,
          EachShrinks.nil.cons shrinks, .inr ?_⟩
        exact ⟨0, baseTrig, rest, rfl, same.trans queue, young⟩
      · have part := passed.sublist queue
        obtain ⟨n, bound, events, final, ran, idle, each, done⟩ := ih next.allTriggers.length (by omega)
          (fun x member => unset x (part.subset member)) entered' (fun i => clock (i + 1)) rfl
        refine ⟨n + 1, by omega, event :: events, final, ?_, idle, each.cons shrinks, ?_⟩
        · rw [List.range_succ_eq_map, List.map_cons, List.map_map]
          exact Machine.run_cons.mpr ⟨_, next, events, stepped, ran, rfl⟩
        · rcases done with emptied | ⟨last, baseTrig, rest, count, left, young⟩
          · exact .inl emptied
          · exact .inr ⟨last + 1, baseTrig, rest, by omega, left, young⟩

theorem inner_loop_ends_repeated : ∃ n ≤ 6, ∃ events final,
    Machine.run (Locator.step (Sample.platform Sample.prefersLate) Sample.config)
      (Sample.locator Sample.repeatedStation) ((List.range n).map fun _ => .pass Sample.now) = some (events, final) ∧
    final.busy = false ∧ EachShrinks events := by
  obtain ⟨n, bound, events, final, ran, idle, each, _⟩ := inner_loop_ends
    (p := Sample.platform Sample.prefersLate) (c := Sample.config) (l := Sample.locator Sample.repeatedStation)
    (by decide +kernel) (by decide +kernel) (by decide +kernel) fun _ => Sample.now
  exact ⟨n, bound, events, final, ran, idle, each⟩

end LigDataParsing
