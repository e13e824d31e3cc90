import LigDataParsing.Runs

/-! The network wait: which triggers a run gives up before `waitTime` has passed. -/
namespace LigDataParsing

open IndexedErase

/-- Every trigger the pass took out of the queue is part of the located combination or
older than the wait time. -/
def Event.patient (p : Platform) (c : Config) : Event → Bool
  | .pass now queue verdict remaining =>
    ∀ x ∈ queue, x ∈ remaining ∨ (∃ t ∈ verdict.oneComb, t.key = x.key) ∨
      ((convertGPSTimeToUnixTime p.utcOffset x.time + 8 * 3600 : ℤ) : ℚ) ≤ now - c.waitTime
  | _ => true

def firsts (entries : List (ℕ × TriggerInfo)) (comb : List TriggerInfo) : List TriggerInfo :=
  comb.filter fun t => FirstOfStation entries t

/-- Those that follow another trigger of their station; they carry no position. -/
def followers (entries : List (ℕ × TriggerInfo)) (comb : List TriggerInfo) : List TriggerInfo :=
  comb.filter fun t => ¬ FirstOfStation entries t

/-- What the erasures take from the front of the queue, one for each follower. -/
def displaced (queue : List TriggerInfo) (entries : List (ℕ × TriggerInfo)) (comb : List TriggerInfo) :
    List TriggerInfo :=
  (without queue (firsts entries comb)).take (followers entries comb).length

/-- A pass that drops an isolated head which is still to wait, or erases such a trigger in
the place of a follower. -/
def Event.hasty (time : ℤ → ℤ → ℚ) (p : Platform) (c : Config) : Event → Bool
  | .pass now (head :: rest) verdict _ =>
    isIsolated c (head :: rest) ∧ tooYoung p c now head ∨
      ∃ x ∈ displaced (head :: rest) (window time c.maxBaseLineAsTOA head 0 (head :: rest)) verdict.oneComb,
        tooYoung p c now x ∧ ∀ t ∈ verdict.oneComb, t.key ≠ x.key
  | _ => false

/-- A pass that meets an isolated head which is still to wait, or such a trigger before one
of the window that follows another of its station, with the sums rounded by `double`. -/
def Event.risky (double : ℚ → ℚ) (time : ℤ → ℤ → ℚ) (p : Platform) (c : Config) : Event → Bool
  | .pass now (head :: rest) _ _ =>
    if isIsolatedWith double c (head :: rest) then tooYoung p c now head
    else ¬ tooYoung p c now head ∧
      ∃ e ∈ windowWith double time c.maxBaseLineAsTOA head 0 (head :: rest),
        ¬ FirstOfStation (windowWith double time c.maxBaseLineAsTOA head 0 (head :: rest)) e.2 ∧
        ∃ x ∈ rest, tooYoung p c now x ∧ x.key < e.2.key
  | _ => false

section Erasure

variable {queue comb : List TriggerInfo} {entries : List (ℕ × TriggerInfo)} {x : TriggerInfo}

/-- A located pass takes out the firsts of its combination and what it displaces. -/
theorem Drawn.mem_erased (drawn : Drawn queue entries comb) (ascending : Ascending queue)
    (unset : ∀ x ∈ queue, x.trigIdx = 0) (queued : x ∈ queue) :
    x ∈ eraseAll queue (descending (comb.map TriggerInfo.trigIdx)) ↔
      (∀ t ∈ firsts entries comb, x.key ≠ t.key) ∧ x ∉ displaced queue entries comb := by
  have nodup : (without queue (firsts entries comb)).Nodup := (ascending.sublist List.filter_sublist).nodup
  have kept : x ∈ without queue (firsts entries comb) ↔ ∀ t ∈ firsts entries comb, x.key ≠ t.key := by
    simp [without, queued]
  rw [← kept, drawn.erased ascending unset]
  change x ∈ (without queue (firsts entries comb)).drop (followers entries comb).length ↔ _
  rw [← List.take_append_drop (followers entries comb).length (without queue (firsts entries comb)),
    List.nodup_append'] at nodup
  constructor
  · intro left
    exact ⟨List.mem_of_mem_drop left, fun taken => nodup.2.2 taken left⟩
  · rintro ⟨member, spared⟩
    rw [← List.take_append_drop (followers entries comb).length (without queue (firsts entries comb))] at member
    exact (List.mem_append.mp member).resolve_left spared

/-- What is displaced without being part of the combination stands before a follower: there
are no more places than followers. -/
theorem Drawn.before_follower (drawn : Drawn queue entries comb) (ascending : Ascending queue)
    (taken : x ∈ displaced queue entries comb) (other : ∀ t ∈ comb, t.key ≠ x.key) :
    ∃ e ∈ entries, ¬ FirstOfStation entries e.2 ∧ x.key < e.2.key := by
  by_contra last
  have behind : ∀ t ∈ followers entries comb, t ∈ displaced queue entries comb := by
    intro t member
    obtain ⟨inComb, later⟩ := List.mem_filter.mp member
    obtain ⟨j, y, stands⟩ := drawn.stands t inComb
    obtain ⟨rfl, follows⟩ : t = y ∧ ¬ FirstOfStation entries t :=
      stands.carried.resolve_left fun first => of_decide_eq_true later first.2
    have kept : t ∈ without queue (firsts entries comb) := by
      refine List.mem_filter.mpr ⟨List.mem_of_getElem? stands.inQueue, decide_eq_true fun t' first same => ?_⟩
      obtain ⟨inComb', first⟩ := List.mem_filter.mp first
      obtain rfl := drawn.eq_of_key inComb inComb' same
      exact follows (of_decide_eq_true first)
    have ordered : Ascending (without queue (firsts entries comb)) := ascending.sublist List.filter_sublist
    rw [← List.take_append_drop (followers entries comb).length (without queue (firsts entries comb))]
      at ordered kept
    refine (List.mem_append.mp kept).resolve_right fun after => last ⟨(j, t), stands.inWindow, follows, ?_⟩
    exact (List.pairwise_append.mp ordered).2.2 x taken t after
  have distinct : (x :: followers entries comb).Nodup := by
    refine List.nodup_cons.mpr ⟨fun member => ?_, ((List.Nodup.of_map _ drawn.stations).filter _)⟩
    exact other x (List.mem_of_mem_filter member) rfl
  have inside : x :: followers entries comb ⊆ displaced queue entries comb :=
    List.cons_subset.mpr ⟨taken, behind⟩
  have more := (List.subperm_of_subset distinct inside).length_le
  have places : (displaced queue entries comb).length ≤ (followers entries comb).length := List.length_take_le _ _
  simp at more
  omega

end Erasure

section Pass

variable {p : Platform} {c : Config} {now : ℤ} {l next : Locator} {head : TriggerInfo}
  {rest : List TriggerInfo} {verdict : Verdict}

theorem tooYoung_eq_false {x : TriggerInfo} : tooYoung p c now x = false ↔
    ((convertGPSTimeToUnixTime p.utcOffset x.time + 8 * 3600 : ℤ) : ℚ) ≤ now - c.waitTime := by
  rw [tooYoung, decide_eq_false_iff_not, gt_iff_lt, not_lt]

@[simp] theorem displaced_nil (queue : List TriggerInfo) (entries : List (ℕ × TriggerInfo)) :
    displaced queue entries [] = [] := List.take_zero

theorem patient_dropped (ascending : Ascending (head :: rest)) (unlocated : verdict.oneComb = []) :
    Event.patient p c (.pass now (head :: rest) verdict rest) = true ↔ tooYoung p c now head = false := by
  have absent : head ∉ rest := (List.nodup_cons.mp ascending.nodup).1
  simp only [Event.patient, unlocated, decide_eq_true_eq, ← tooYoung_eq_false, List.forall_mem_cons, absent, false_or,
    List.not_mem_nil, false_and, exists_false]
  exact and_iff_left fun x member => .inl member

/-- A located pass is patient exactly if it displaces no young trigger beside its combination. -/
theorem patient_located {comb : List TriggerInfo} {entries : List (ℕ × TriggerInfo)}
    (ascending : Ascending (head :: rest)) (unset : ∀ x ∈ head :: rest, x.trigIdx = 0)
    (drawn : Drawn (head :: rest) entries comb) (located : verdict.oneComb = comb) :
    Event.patient p c (.pass now (head :: rest) verdict
        (eraseAll (head :: rest) (descending (comb.map TriggerInfo.trigIdx)))) = true ↔
      ∀ x ∈ displaced (head :: rest) entries comb, tooYoung p c now x = true → ∃ t ∈ comb, t.key = x.key := by
  simp only [Event.patient, located, decide_eq_true_eq, ← tooYoung_eq_false]
  constructor
  · intro patient x moved young
    have queued : x ∈ head :: rest := List.mem_of_mem_filter (List.mem_of_mem_take moved)
    rcases patient x queued with left | found | old
    · exact absurd moved ((drawn.mem_erased ascending unset queued).mp left).2
    · exact found
    · simp [old] at young
  · intro spared x queued
    by_cases left : x ∈ eraseAll (head :: rest) (descending (comb.map TriggerInfo.trigIdx))
    · exact .inl left
    · right
      rw [drawn.mem_erased ascending unset queued, not_and_or, not_not] at left
      rcases left with first | moved
      · obtain ⟨t, member, same⟩ : ∃ t ∈ firsts entries comb, x.key = t.key := by simpa using first
        exact .inl ⟨t, List.mem_of_mem_filter member, same.symm⟩
      · by_cases young : tooYoung p c now x = true
        · exact .inl (spared x moved young)
        · exact .inr (Bool.eq_false_of_not_eq_true young)

/-- A pass gives a trigger up before the wait is over only by the isolation rule or in the
place of a follower. -/
theorem Passed.patient_iff (ascending : Ascending l.allTriggers) (unset : ∀ x ∈ l.allTriggers, x.trigIdx = 0)
    (queue : l.allTriggers = head :: rest) (passed : Passed p c now l head rest verdict next) :
    Event.patient p c (.pass now l.allTriggers verdict next.allTriggers) = true ↔
      Event.hasty l.siteTimeMap.value p c (.pass now l.allTriggers verdict next.allTriggers) = false := by
  cases passed with
  | isolated alone =>
    rw [queue] at ascending alone ⊢
    rw [show (l.leave rest).allTriggers = rest from rfl, patient_dropped ascending rfl]
    simp [Event.hasty, Verdict.oneComb, alone]
  | waiting near =>
    rw [queue] at near
    refine iff_of_true (decide_eq_true fun x member => .inl member) ?_
    simp [Event.hasty, Verdict.oneComb, queue, near]
  | few near old | rejected near old =>
    rw [queue] at ascending near ⊢
    refine iff_of_true ?_ (by simp [Event.hasty, Verdict.oneComb, near])
    exact (patient_dropped ascending rfl).mpr old
  | located near old enough rounds found good =>
    subst found
    have drawn := located_drawn ascending enough good
    rw [Locator.windowOf, queue] at drawn
    rw [queue] at ascending unset near
    simp only [Locator.leave, queue]
    rw [patient_located ascending unset drawn rfl]
    simp [Event.hasty, Verdict.oneComb, near]

/-- What makes a pass hasty can be told from the queue it meets. -/
theorem Passed.risky_of_hasty (ascending : Ascending l.allTriggers) (queue : l.allTriggers = head :: rest)
    (passed : Passed p c now l head rest verdict next)
    (hasty : Event.hasty l.siteTimeMap.value p c (.pass now l.allTriggers verdict next.allTriggers) = true) :
    Event.risky id l.siteTimeMap.value p c (.pass now l.allTriggers verdict next.allTriggers) = true := by
  simp only [queue, Event.hasty, decide_eq_true_eq] at hasty
  simp only [queue, Event.risky, isIsolatedWith_id, windowWith_id]
  rcases hasty with ⟨alone, young⟩ | ⟨x, moved, young, other⟩
  · rw [if_pos alone]
    exact young
  · cases passed with
    | isolated | waiting | few | rejected => simp [Verdict.oneComb] at moved
    | located near old enough rounds found good =>
      subst found
      have drawn := located_drawn ascending enough good
      rw [Locator.windowOf, queue] at drawn
      rw [queue] at ascending near
      obtain ⟨e, inWindow, follows, before⟩ := drawn.before_follower ascending moved other
      have later : x ∈ rest := by
        rcases List.mem_cons.mp (List.mem_of_mem_filter (List.mem_of_mem_take moved)) with rfl | later
        · simp [old] at young
        · exact later
      rw [if_neg (by simp [near]), decide_eq_true_eq]
      exact ⟨by simp [old], e, inWindow, follows, x, later, young, before⟩

end Pass

/-- A run respects the wait if and only if no pass drops an isolated head that is still to
wait, or displaces such a trigger; and it does if no pass meets, by exact or by rounded
sums, an isolated head that is still to wait, or such a trigger before one of the window
that follows another of its station. -/
theorem wait_respected_iff {p : Platform} {c : Config} {siteMap : SiteMap} {siteTimeMap : SiteTimeMap}
    {events : List Event} {l : Locator} (unset : Handed events fun x => x.trigIdx = 0)
    (reached : Runs p c siteMap siteTimeMap events l) :
    ((∀ event ∈ events, event.patient p c = true) ↔
      ∀ event ∈ events, event.hasty siteTimeMap.value p c = false) ∧
    ((∀ event ∈ events, ∀ double ∈ [id, Binary64.toDouble], event.risky double siteTimeMap.value p c = false) →
      ∀ event ∈ events, event.patient p c = true) := by
  have exactly : ∀ event ∈ events, event.patient p c = true ↔ event.hasty siteTimeMap.value p c = false := by
    intro event member
    cases event with
    | merge | idle => simp [Event.patient, Event.hasty]
    | pass now queue verdict remaining =>
      obtain ⟨earlier, later, before, head, rest, after, split, run, _, rfl, queue, rfl, passed, _⟩ :=
        runs_pass reached member
      have sane := runs_sane run
      rw [← sane.times.value]
      exact passed.patient_iff sane.ascending (runs_queue run (Handed.earlier (split ▸ unset))) queue
  refine ⟨forall₂_congr exactly, fun safe event member => (exactly event member).mpr ?_⟩
  have unrisky := safe event member id List.mem_cons_self
  refine Bool.eq_false_of_not_eq_true fun hasty => Bool.false_ne_true (unrisky.symm.trans ?_)
  cases event with
  | merge | idle => simp [Event.hasty] at hasty
  | pass now queue verdict remaining =>
    obtain ⟨_, _, before, head, rest, after, _, run, _, rfl, queue, rfl, passed, _⟩ := runs_pass reached member
    have sane := runs_sane run
    rw [← sane.times.value] at hasty ⊢
    exact passed.risky_of_hasty sane.ascending queue hasty

theorem wait_respected_old : ∃ events l,
    Runs (Sample.platform Sample.prefersLate) Sample.config Sample.siteMap Sample.siteTimeMap events l ∧
    (gone events).length = 5 ∧
    ((∀ event ∈ events, event.patient (Sample.platform Sample.prefersLate) Sample.config = true) ↔
      ∀ event ∈ events, event.hasty Sample.siteTimeMap.value (Sample.platform Sample.prefersLate)
        Sample.config = false) ∧
    ∀ event ∈ events, event.patient (Sample.platform Sample.prefersLate) Sample.config = true := by
  obtain ⟨⟨events, l⟩, ran, shown⟩ := Option.map_eq_some_iff.mp
    (show (Sample.run [.merge Sample.distinctStations, .pass Sample.now]).map (fun r => ((gone r.1).length,
        r.1.all fun event => [id, Binary64.toDouble].all fun double =>
          !event.risky double Sample.siteTimeMap.value (Sample.platform Sample.prefersLate) Sample.config)) =
      some (5, true) by decide +kernel)
  obtain ⟨removed, safe⟩ := Prod.mk.inj shown
  have unset : Handed events fun x => x.trigIdx = 0 := by
    refine handed_of_run ran fun batch member x inBatch => ?_
    have sample : batch = Sample.distinctStations := by simpa using member
    exact (Sample.distinctStations_wellFormed x (sample ▸ inBatch)).unset
  obtain ⟨exactly, respected⟩ := wait_respected_iff unset ⟨_, ran⟩
  exact ⟨events, l, ⟨_, ran⟩, removed, exactly,
    respected fun event member double rounding => by
      simpa using List.all_eq_true.mp (List.all_eq_true.mp safe event member) double rounding⟩

namespace Sample

def acrossSeconds : List TriggerInfo :=
  [⟨.ofFields 24 4 20 20 5 16 0.9999, 1, 1, 0⟩, trigger 2 0.0002, trigger 2 0.0003, trigger 3 0.0004, trigger 4 0.0005,
    trigger 5 0.0006]

def betweenSeconds : ℤ := 1713643606

end Sample

/-- Of two triggers a tenth of a second apart and three seconds old the first is dropped.
And the earlier trigger of station 2, still to wait, is erased in the place of the located
one. -/
theorem wait_not_respected :
    (∃ events l,
      Runs (Sample.platform Sample.prefersLate) Sample.config Sample.siteMap Sample.siteTimeMap events l ∧
      Sample.trigger 1 0.1 ∈ gone events ∧
      ¬ ∀ event ∈ events, event.patient (Sample.platform Sample.prefersLate) Sample.config = true) ∧
    ∃ events l,
      Runs (Sample.platform Sample.prefersLate) Sample.config Sample.siteMap Sample.siteTimeMap events l ∧
      Sample.trigger 2 0.0002 ∈ gone events ∧
      ¬ ∀ event ∈ events, event.patient (Sample.platform Sample.prefersLate) Sample.config = true := by
  have impatient (actions : List Action) (x : TriggerInfo) (shown : (Sample.run actions).map (fun r =>
      (decide (x ∈ gone r.1), r.1.all (Event.patient (Sample.platform Sample.prefersLate) Sample.config))) =
        some (true, false)) : ∃ events l,
      Runs (Sample.platform Sample.prefersLate) Sample.config Sample.siteMap Sample.siteTimeMap events l ∧
      x ∈ gone events ∧
      ¬ ∀ event ∈ events, event.patient (Sample.platform Sample.prefersLate) Sample.config = true := by
    obtain ⟨⟨events, l⟩, ran, shown⟩ := Option.map_eq_some_iff.mp shown
    obtain ⟨removed, young⟩ := Prod.mk.inj shown
    refine ⟨events, l, ⟨_, ran⟩, of_decide_eq_true removed, fun patient => ?_⟩
    rw [List.all_eq_true.mpr patient] at young
    contradiction
  constructor
  · exact impatient [.merge [Sample.trigger 1 0.1, Sample.trigger 2 0.2], .pass Sample.early] _ (by decide +kernel)
  · exact impatient [.merge Sample.acrossSeconds, .pass Sample.betweenSeconds] _ (by decide +kernel)

end LigDataParsing
