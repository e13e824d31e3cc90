import LigDataParsing.HashedMap
import LigDataParsing.ThreadLoc

/-! The window scan with its pool in the hash table it is kept in. -/
namespace LigDataParsing

open Lookup

structure HashedScan where
  triggerPool : OrderedHash ℤ TriggerAtStation
  siteMap : SiteMap
  siteTimeMap : SiteTimeMap

-- The default is what `operator[]` puts under a new key before the assignment.
variable [Inhabited TriggerAtStation]

def hashedAdmitTrigger (lib : HashLib ℤ) (j : ℕ) (oneTrig : TriggerInfo) (s : HashedScan) :
    Except HashFailure HashedScan := do
  match ← s.triggerPool.find lib oneTrig.stationID with
  | none =>
    if s.triggerPool.size ≥ 8 then return s
    else
      let triggerPool ← s.triggerPool.update lib oneTrig.stationID fun _ =>
        ⟨[{ oneTrig with trigIdx := j }], (s.siteMap.value oneTrig.stationID).staLocation, oneTrig.stationID⟩
      return { s with triggerPool := triggerPool, siteMap := s.siteMap.touch oneTrig.stationID }
  | some _ =>
    let triggerPool ← s.triggerPool.update lib oneTrig.stationID fun entry =>
      { entry with triggers := entry.triggers ++ [oneTrig] }
    return { s with triggerPool := triggerPool }

def hashedScan (lib : HashLib ℤ) (maxBaseLineAsTOA : ℚ) (baseTrig : TriggerInfo) :
    ℕ → List TriggerInfo → HashedScan → Except HashFailure HashedScan
  | _, [], s => .ok s
  | j, oneTrig :: rest, s =>
    if baseTrig.value * oneTrig.value < 0 then hashedScan lib maxBaseLineAsTOA baseTrig (j + 1) rest s
    else
      let diffTime := baseTrig.time.sub oneTrig.time
      if diffTime < -maxBaseLineAsTOA ∨ diffTime > 0 then .ok s
      else do
        let bound := s.siteTimeMap.value baseTrig.stationID oneTrig.stationID + 0.0001
        let s := { s with siteTimeMap := s.siteTimeMap.touch baseTrig.stationID oneTrig.stationID }
        let s ← if |diffTime| ≤ bound then hashedAdmitTrigger lib j oneTrig s else .ok s
        hashedScan lib maxBaseLineAsTOA baseTrig (j + 1) rest s

structure HashedScan.Refines (lib : HashLib ℤ) (h : HashedScan) (s : Scan) : Prop where
  pool : h.triggerPool.Refines lib s.triggerPool
  siteMap : h.siteMap = s.siteMap
  siteTimeMap : h.siteTimeMap = s.siteTimeMap

variable {lib : HashLib ℤ} {h : HashedScan} {s : Scan}

omit [Inhabited TriggerAtStation] in
theorem OrderedHash.Refines.size {t : OrderedHash ℤ TriggerAtStation} {pool : TriggerPool}
    (refines : t.Refines lib pool) : t.size = pool.size := by
  rw [OrderedHash.size, refines.entries, OrderedMap.size]

theorem hashedAdmitTrigger_refines (refines : h.Refines lib s) (j : ℕ) (oneTrig : TriggerInfo) :
    ∃ h', hashedAdmitTrigger lib j oneTrig h = .ok h' ∧ h'.Refines lib (admitTrigger j oneTrig s) := by
  obtain ⟨pool, siteMap, siteTimeMap⟩ := refines
  have looked := OrderedHash.find_refines pool oneTrig.stationID
  have bounded : s.triggerPool.size ≤ 2 ^ 27 := by
    rw [← pool.size]
    exact pool.sound.size
  cases found : h.triggerPool.find lib oneTrig.stationID with
  | error failure => simp [found, Except.map] at looked
  | ok place =>
    rw [found] at looked
    have looked := Except.ok.inj looked
    cases place with
    | none =>
      have absent : s.triggerPool.find oneTrig.stationID = none := by
        cases present : s.triggerPool.find oneTrig.stationID with
        | none => rfl
        | some entry => simp [present] at looked
      have fresh := OrderedMap.find_eq_none.mp absent
      by_cases full : h.triggerPool.size ≥ 8
      · refine ⟨h, ?_, ?_⟩
        · simp only [hashedAdmitTrigger, found]
          exact if_pos full
        · rw [pool.size] at full
          rw [admitTrigger, absent]
          simp only
          rw [if_pos full]
          exact ⟨pool, siteMap, siteTimeMap⟩
      · obtain ⟨t', updated, pool'⟩ := OrderedHash.apply_refines pool (.update oneTrig.stationID fun _ =>
            ⟨[{ oneTrig with trigIdx := j }], (h.siteMap.value oneTrig.stationID).staLocation, oneTrig.stationID⟩)
          (by
            rw [pool.size] at full
            simp only [MapOperation.on, OrderedMap.size_modify, OrderedMap.size_insert fresh]
            omega)
        refine ⟨{ h with triggerPool := t', siteMap := h.siteMap.touch oneTrig.stationID }, ?_, ?_⟩
        · simp only [hashedAdmitTrigger, found]
          change (if h.triggerPool.size ≥ 8 then _ else _) = _
          rw [if_neg full]
          rw [OrderedHash.apply] at updated
          rw [updated]
          rfl
        · rw [pool.size] at full
          rw [admitTrigger, absent]
          simp only
          rw [if_neg full]
          rw [MapOperation.on, OrderedMap.insert_modify fresh, siteMap] at pool'
          exact ⟨pool', by rw [siteMap], siteTimeMap⟩
    | some index =>
      obtain ⟨entry, there⟩ : ∃ entry, s.triggerPool.find oneTrig.stationID = some entry := by
        cases present : s.triggerPool.find oneTrig.stationID with
        | none => simp [present] at looked
        | some entry => exact ⟨entry, rfl⟩
      have present := OrderedMap.find_isSome.mp (Option.isSome_iff_exists.mpr ⟨entry, there⟩)
      obtain ⟨t', updated, pool'⟩ := OrderedHash.apply_refines pool (.update oneTrig.stationID fun entry =>
          { entry with triggers := entry.triggers ++ [oneTrig] })
        (by rwa [MapOperation.on, OrderedMap.size_modify, OrderedMap.insert_present present])
      refine ⟨{ h with triggerPool := t' }, ?_, ?_⟩
      · rw [OrderedHash.apply] at updated
        simp only [hashedAdmitTrigger, found]
        change (do
          let triggerPool ← h.triggerPool.update lib oneTrig.stationID _
          return { h with triggerPool := triggerPool }) = _
        rw [updated]
        rfl
      · rw [admitTrigger, there]
        rw [MapOperation.on, OrderedMap.insert_present present] at pool'
        exact ⟨pool', siteMap, siteTimeMap⟩

theorem hashedScan_refines (maxBaseLineAsTOA : ℚ) (baseTrig : TriggerInfo) (j : ℕ) (queue : List TriggerInfo)
    (refines : h.Refines lib s) :
    ∃ h', hashedScan lib maxBaseLineAsTOA baseTrig j queue h = .ok h' ∧
      h'.Refines lib (scan maxBaseLineAsTOA baseTrig j queue s) := by
  induction queue generalizing j h s with
  | nil => exact ⟨h, rfl, refines⟩
  | cons oneTrig rest ih =>
    have touched : HashedScan.Refines lib
        { h with siteTimeMap := h.siteTimeMap.touch baseTrig.stationID oneTrig.stationID }
        { s with siteTimeMap := s.siteTimeMap.touch baseTrig.stationID oneTrig.stationID } :=
      ⟨refines.pool, refines.siteMap, by rw [refines.siteTimeMap]⟩
    simp only [hashedScan, scan]
    rw [refines.siteTimeMap] at touched ⊢
    split_ifs with opposite outside near
    · exact ih (j + 1) refines
    · exact ⟨h, rfl, refines⟩
    · obtain ⟨admitted, done, refines'⟩ := hashedAdmitTrigger_refines touched j oneTrig
      rw [done]
      exact ih (j + 1) refines'
    · exact ih (j + 1) touched

theorem erase_run_refines {t : OrderedHash ℤ TriggerAtStation} {pool : TriggerPool} (refines : t.Refines lib pool)
    (ids : List ℤ) : ∃ t', ids.foldlM (fun t id => OrderedHash.erase lib id t) t = .ok t' ∧
      t'.Refines lib (ids.foldl OrderedMap.erase pool) := by
  induction ids generalizing t pool with
  | nil => exact ⟨t, rfl, refines⟩
  | cons id ids ih =>
    have few : (pool.erase id).size ≤ 2 ^ 27 := by
      have bounded := refines.sound.size
      rw [refines.size] at bounded
      exact (List.length_filter_le ..).trans bounded
    obtain ⟨t', erased, refines'⟩ := OrderedHash.apply_refines refines (.erase id) few
    obtain ⟨t'', rest, refines''⟩ := ih refines'
    refine ⟨t'', ?_, refines''⟩
    rw [List.foldlM_cons]
    rw [OrderedHash.apply] at erased
    rw [erased]
    exact rest

/-- The scan from the head of any queue, and any erasures after it, leave in the hash table
the entries of the pool, in its order, and the maps as the plain scan does. -/
theorem hashed_pool_agrees (lib : HashLib ℤ) (c : Config) (baseTrig : TriggerInfo) (l : Locator) (ids : List ℤ) :
    ∃ h t, hashedScan lib c.maxBaseLineAsTOA baseTrig 0 l.allTriggers ⟨.empty, l.siteMap, l.siteTimeMap⟩ = .ok h ∧
      h.siteMap = (l.scanFrom c baseTrig).siteMap ∧ h.siteTimeMap = (l.scanFrom c baseTrig).siteTimeMap ∧
      ids.foldlM (fun t id => OrderedHash.erase lib id t) h.triggerPool = .ok t ∧
      t.values = (ids.foldl OrderedMap.erase (l.scanFrom c baseTrig).triggerPool).entries ∧
      ∀ id, (t.find lib id).map (Option.map fun i => t.values[i]?) =
        .ok (((ids.foldl OrderedMap.erase (l.scanFrom c baseTrig).triggerPool).find id).map fun entry =>
          some (id, entry)) := by
  have start : HashedScan.Refines lib ⟨.empty, l.siteMap, l.siteTimeMap⟩ ⟨.empty, l.siteMap, l.siteTimeMap⟩ :=
    ⟨⟨OrderedHash.empty_sound lib _, rfl⟩, rfl, rfl⟩
  obtain ⟨h, scanned, refines⟩ := hashedScan_refines c.maxBaseLineAsTOA baseTrig 0 l.allTriggers start
  obtain ⟨t, erased, left⟩ := erase_run_refines refines.pool ids
  exact ⟨h, t, scanned, refines.siteMap, refines.siteTimeMap, erased, left.entries, OrderedHash.find_refines left⟩

end LigDataParsing
