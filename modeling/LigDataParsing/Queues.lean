import LigDataParsing.Threads

/-! Both queues in the order of `TriggerInfo`, and what an insertion or a merge does to
their keys, over every interleaving of the two threads. -/
namespace LigDataParsing

structure GPSTime.OneOrder : Prop where
  trichotomy : ∀ a b : GPSTime,
    (a.lt b = true ∧ a.eq b = false ∧ b.lt a = false) ∨
    (a.lt b = false ∧ a.eq b = true ∧ b.lt a = false) ∨
    (a.lt b = false ∧ a.eq b = false ∧ b.lt a = true)
  trans : ∀ a b c : GPSTime, a.lt b = true → b.lt c = true → a.lt c = true
  equivalence : Equivalence fun a b : GPSTime => a.eq b = true
  le : ∀ a b : GPSTime, a.le b = (a.lt b || a.eq b)
  gt : ∀ a b : GPSTime, a.gt b = b.lt a
  ge : ∀ a b : GPSTime, a.ge b = (b.lt a || a.eq b)
  ne : ∀ a b : GPSTime, a.ne b = !a.eq b

theorem GPSTime.oneOrder : GPSTime.OneOrder where
  trichotomy a b := by
    simp only [← Bool.not_eq_true, lt_iff, eq_iff]
    rcases lt_trichotomy a.stamp b.stamp with less | same | more
    · exact .inl ⟨less, less.ne, less.not_gt⟩
    · exact .inr (.inl ⟨same.not_lt, same, same.not_gt⟩)
    · exact .inr (.inr ⟨more.not_gt, more.ne', more⟩)
  trans a b c first second := lt_iff.mpr ((lt_iff.mp first).trans (lt_iff.mp second))
  equivalence := ⟨fun _ => eq_iff.mpr rfl, fun same => eq_iff.mpr (eq_iff.mp same).symm,
    fun first second => eq_iff.mpr ((eq_iff.mp first).trans (eq_iff.mp second))⟩
  le a b := by
    rw [Bool.eq_iff_iff, Bool.or_eq_true, le_iff, lt_iff, eq_iff, le_iff_lt_or_eq]
  gt a b := by rw [Bool.eq_iff_iff, gt_iff, lt_iff]
  ge a b := by
    rw [Bool.eq_iff_iff, Bool.or_eq_true, ge_iff, lt_iff, eq_iff, le_iff_lt_or_eq, eq_comm (a := a.stamp)]
  ne a b := by rw [Bool.eq_iff_iff, Bool.not_eq_true', ← Bool.not_eq_true, ne_iff, eq_iff]

/-- Two triggers count as repetitions when neither comes before the other. -/
theorem TriggerInfo.eq_iff_not_lt (a b : TriggerInfo) :
    a.eq b = true ↔ a.lt b = false ∧ b.lt a = false := by
  rw [← Bool.not_eq_true, ← Bool.not_eq_true, eq_iff, lt_iff, lt_iff, not_lt, not_lt, and_comm]
  exact le_antisymm_iff

section Interleaving

variable {p : Platform} {c : Config} {siteMap : SiteMap} {siteTimeMap : SiteTimeMap}
  {events : List ThreadEvent} {s : Threads}

/-- Only the insertion puts triggers on the table, and it sorts them. -/
theorem move_transTriggers {move : Move} {event : ThreadEvent} {next : Threads}
    (ascending : Ascending s.shared.transTriggers) (happens : Happens p c s move event next) :
    Ascending next.shared.transTriggers := by
  cases happens with
  | load reply event shared loader loaded =>
    cases loaded with
    | history | current | last | more => exact ascending
    | insert cache =>
      exact KeyedSort.sortUnique_ascending p.sorter TriggerInfo.lt_iff TriggerInfo.eq_iff _
  | going | ending | rest | leave | select | idle | pass => exact ascending
  | merge => exact List.Pairwise.nil

theorem interleaves_transTriggers (reached : Interleaves p c siteMap siteTimeMap events s) :
    Ascending s.shared.transTriggers := by
  apply reached.invariant (fun _ s => Ascending s.shared.transTriggers)
  · exact List.Pairwise.nil
  · intro _ _ _ _ _ _ ascending stepped
    exact move_transTriggers ascending (threads_cases stepped)

end Interleaving

/-- What holds of the queues while the lock is free, and of the next move. -/
structure QueuesKept (p : Platform) (c : Config) (s : Threads) : Prop where
  transTriggers : Ascending s.shared.transTriggers
  allTriggers : Ascending s.locator.allTriggers
  /-- Also between the erasures of a located combination. -/
  erasing : ∀ indices, Ascending (IndexedErase.eraseAll s.locator.allTriggers indices)
  fetched : ∀ reply tillTime next,
    s.step p c (.loader reply) = some (.loader (.fetch tillTime reply), next) →
    next.loader.point = .insert (if c.reProcess then reply.filter (inSpan c) else reply)
  inserted : ∀ reply cache next,
    s.step p c (.loader reply) = some (.loader (.insert cache), next) →
    s.loader.point = .insert cache ∧
    UnitesKeys s.shared.transTriggers cache next.shared.transTriggers
  merged : ∀ now queue watermark batch next,
    s.step p c (.locator now) = some (.locator (.merge queue watermark batch), next) →
    queue = s.locator.allTriggers ∧ watermark = s.locator.currentProcessingTime ∧
    batch = s.shared.transTriggers ∧
    UnitesKeys queue (batch.filter fun trigger => trigger.time.gt watermark) next.locator.allTriggers

/-- In every state of every interleaving both queues are strictly increasing, insertions
and merges unite the keys, and the comparisons behind them are one total order. -/
theorem queues_kept {p : Platform} {c : Config} {siteMap : SiteMap} {siteTimeMap : SiteTimeMap}
    {events : List ThreadEvent} {s : Threads} (reached : Interleaves p c siteMap siteTimeMap events s) :
    QueuesKept p c s ∧ GPSTime.OneOrder ∧
    ∀ a b : TriggerInfo, a.eq b = true ↔ a.lt b = false ∧ b.lt a = false := by
  have sorted := (runs_sane (interleaves_runs reached)).ascending
  refine ⟨⟨interleaves_transTriggers reached, sorted, ?_, ?_, ?_, ?_⟩, GPSTime.oneOrder,
    TriggerInfo.eq_iff_not_lt⟩
  · exact fun indices => sorted.sublist (IndexedErase.eraseAll_sublist _ indices)
  · intro reply tillTime next stepped
    generalize shown : ThreadEvent.loader (.fetch tillTime reply) = event at stepped
    cases threads_cases stepped with
    | load _ event shared loader loaded =>
      cases shown
      cases loaded with
      | history here mode => simp [mode]
      | current here mode => simp [mode]
  · intro reply cache next stepped
    generalize shown : ThreadEvent.loader (.insert cache) = event at stepped
    cases threads_cases stepped with
    | load _ event shared loader loaded =>
      cases shown
      cases loaded with
      | insert cache here point goes => exact ⟨here, keys_insert p cache s.shared⟩
  · intro now queue watermark batch next stepped
    obtain ⟨queued, marked, handed, _, united⟩ := merge_examines stepped
    exact ⟨queued, marked, handed, united⟩

theorem queues_kept_run : ∃ events s,
    Interleaves (Sample.platform Sample.prefersLate) Sample.config Sample.siteMap Sample.siteTimeMap events s ∧
    s.point = .left ∧ (insertedKeys events).length = 5 ∧
    QueuesKept (Sample.platform Sample.prefersLate) Sample.config s ∧ GPSTime.OneOrder ∧
    ∀ a b : TriggerInfo, a.eq b = true ↔ a.lt b = false ∧ b.lt a = false := by
  obtain ⟨⟨events, s⟩, ran, shown⟩ := Option.map_eq_some_iff.mp
    (show (Sample.interleave Sample.handedOver).map (fun r => (r.2.point, (insertedKeys r.1).length)) =
      some (.left, 5) by decide +kernel)
  obtain ⟨left, inserted⟩ := Prod.mk.inj shown
  exact ⟨events, s, ⟨_, ran⟩, left, inserted, queues_kept ⟨_, ran⟩⟩

end LigDataParsing
