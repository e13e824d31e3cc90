import LigDataParsing.LigTools

/-! The window scan of `ThreadLoc`: from the head of the queue forward, it collects
into `triggerPool` the triggers that can belong to the head's event. -/
namespace LigDataParsing

open Lookup

structure Scan where
  triggerPool : TriggerPool
  siteMap : SiteMap
  siteTimeMap : SiteTimeMap

/-- The body of the last test. The first trigger of a station opens its entry and
remembers its position `j`; later ones are appended as they are. -/
def admitTrigger (j : ℕ) (oneTrig : TriggerInfo) (s : Scan) : Scan :=
  match s.triggerPool.find oneTrig.stationID with
  | none =>
    if s.triggerPool.size ≥ 8 then s
    else
      { s with
        triggerPool := s.triggerPool.insert oneTrig.stationID
          ⟨[{ oneTrig with trigIdx := j }], (s.siteMap.value oneTrig.stationID).staLocation,
            oneTrig.stationID⟩
        siteMap := s.siteMap.touch oneTrig.stationID }
  | some _ =>
    { s with
      triggerPool := s.triggerPool.modify oneTrig.stationID fun entry =>
        { entry with triggers := entry.triggers ++ [oneTrig] } }

def scan (maxBaseLineAsTOA : ℚ) (baseTrig : TriggerInfo) : ℕ → List TriggerInfo → Scan → Scan
  | _, [], s => s
  | j, oneTrig :: rest, s =>
    if baseTrig.value * oneTrig.value < 0 then scan maxBaseLineAsTOA baseTrig (j + 1) rest s
    else
      let diffTime := baseTrig.time.sub oneTrig.time
      if diffTime < -maxBaseLineAsTOA ∨ diffTime > 0 then s
      else
        let bound := s.siteTimeMap.value baseTrig.stationID oneTrig.stationID + 0.0001
        let s := { s with siteTimeMap := s.siteTimeMap.touch baseTrig.stationID oneTrig.stationID }
        let s := if |diffTime| ≤ bound then admitTrigger j oneTrig s else s
        scan maxBaseLineAsTOA baseTrig (j + 1) rest s

/-- Triggers whose propagation time from the base the scan looks up, with positions. -/
def examined (maxBaseLineAsTOA : ℚ) (baseTrig : TriggerInfo) : ℕ → List TriggerInfo →
    List (ℕ × TriggerInfo)
  | _, [] => []
  | j, oneTrig :: rest =>
    if baseTrig.value * oneTrig.value < 0 then examined maxBaseLineAsTOA baseTrig (j + 1) rest
    else if baseTrig.time.sub oneTrig.time < -maxBaseLineAsTOA ∨ baseTrig.time.sub oneTrig.time > 0
      then []
    else (j, oneTrig) :: examined maxBaseLineAsTOA baseTrig (j + 1) rest

/-- Of these, the triggers the propagation time from the base allows. -/
def window (time : ℤ → ℤ → ℚ) (maxBaseLineAsTOA : ℚ) (baseTrig : TriggerInfo) (j : ℕ)
    (queue : List TriggerInfo) : List (ℕ × TriggerInfo) :=
  (examined maxBaseLineAsTOA baseTrig j queue).filter fun e =>
    |baseTrig.time.sub e.2.time| ≤ time baseTrig.stationID e.2.stationID + 0.0001

def examinedWith (double : ℚ → ℚ) (maxBaseLineAsTOA : ℚ) (baseTrig : TriggerInfo) : ℕ → List TriggerInfo →
    List (ℕ × TriggerInfo)
  | _, [] => []
  | j, oneTrig :: rest =>
    if baseTrig.value * oneTrig.value < 0 then examinedWith double maxBaseLineAsTOA baseTrig (j + 1) rest
    else if baseTrig.time.subWith double oneTrig.time < -maxBaseLineAsTOA ∨
        baseTrig.time.subWith double oneTrig.time > 0 then []
    else (j, oneTrig) :: examinedWith double maxBaseLineAsTOA baseTrig (j + 1) rest

/-- The window by the scan's tests with their sums rounded by `double`. -/
def windowWith (double : ℚ → ℚ) (time : ℤ → ℤ → ℚ) (maxBaseLineAsTOA : ℚ) (baseTrig : TriggerInfo) (j : ℕ)
    (queue : List TriggerInfo) : List (ℕ × TriggerInfo) :=
  (examinedWith double maxBaseLineAsTOA baseTrig j queue).filter fun e =>
    |baseTrig.time.subWith double e.2.time| ≤ double (time baseTrig.stationID e.2.stationID + double 0.0001)

theorem examinedWith_id (maxBaseLineAsTOA : ℚ) (baseTrig : TriggerInfo) (j : ℕ) (queue : List TriggerInfo) :
    examinedWith id maxBaseLineAsTOA baseTrig j queue = examined maxBaseLineAsTOA baseTrig j queue := by
  induction queue generalizing j with
  | nil => rfl
  | cons oneTrig rest ih => simp only [examinedWith, examined, GPSTime.subWith_id, ih]

@[simp] theorem windowWith_id (time : ℤ → ℤ → ℚ) (maxBaseLineAsTOA : ℚ) (baseTrig : TriggerInfo) (j : ℕ)
    (queue : List TriggerInfo) :
    windowWith id time maxBaseLineAsTOA baseTrig j queue = window time maxBaseLineAsTOA baseTrig j queue := by
  rw [windowWith, examinedWith_id]
  rfl

def admitPool (location : ℤ → LocSta) (pool : TriggerPool) (e : ℕ × TriggerInfo) : TriggerPool :=
  match pool.find e.2.stationID with
  | none =>
    if pool.size ≥ 8 then pool
    else pool.insert e.2.stationID
      ⟨[{ e.2 with trigIdx := e.1 }], location e.2.stationID, e.2.stationID⟩
  | some _ => pool.modify e.2.stationID fun entry => { entry with triggers := entry.triggers ++ [e.2] }

def SiteMap.location (siteMap : SiteMap) (id : ℤ) : LocSta := (Table.value siteMap id).staLocation

theorem SiteMap.location_congr {siteMap siteMap' : SiteMap} (same : siteMap.value = siteMap'.value) :
    siteMap.location = siteMap'.location := by
  funext id
  rw [SiteMap.location, same, SiteMap.location]

theorem admit_siteMap (j : ℕ) (oneTrig : TriggerInfo) (s : Scan) :
    (admitTrigger j oneTrig s).siteMap.value = s.siteMap.value := by
  rw [admitTrigger]
  cases s.triggerPool.find oneTrig.stationID with
  | none =>
    simp only
    split_ifs
    · rfl
    · exact Table.touch_value s.siteMap oneTrig.stationID
  | some entry => rfl

theorem admit_triggerPool (j : ℕ) (oneTrig : TriggerInfo) (s : Scan) :
    (admitTrigger j oneTrig s).triggerPool = admitPool s.siteMap.location s.triggerPool (j, oneTrig) := by
  rw [admitTrigger, admitPool]
  cases s.triggerPool.find oneTrig.stationID with
  | none =>
    simp only
    split_ifs <;> rfl
  | some entry => rfl

@[simp] theorem admit_siteTimeMap (j : ℕ) (oneTrig : TriggerInfo) (s : Scan) :
    (admitTrigger j oneTrig s).siteTimeMap = s.siteTimeMap := by
  rw [admitTrigger]
  cases s.triggerPool.find oneTrig.stationID with
  | none =>
    simp only
    split_ifs <;> rfl
  | some entry => rfl

/-- The scan admits the window in queue order and changes both maps by lookups only. -/
theorem scan_spec (maxBaseLineAsTOA : ℚ) (baseTrig : TriggerInfo) (j : ℕ) (queue : List TriggerInfo)
    (s : Scan) :
    (scan maxBaseLineAsTOA baseTrig j queue s).triggerPool =
      (window s.siteTimeMap.value maxBaseLineAsTOA baseTrig j queue).foldl
        (admitPool s.siteMap.location) s.triggerPool ∧
    (scan maxBaseLineAsTOA baseTrig j queue s).siteMap.value = s.siteMap.value ∧
    s.siteTimeMap.Grown (scan maxBaseLineAsTOA baseTrig j queue s).siteTimeMap := by
  induction queue generalizing j s with
  | nil => exact ⟨rfl, rfl, Table2.Grown.refl _⟩
  | cons oneTrig rest ih =>
    simp only [scan, window, examined]
    split_ifs with opposite outside near
    · exact ih (j + 1) s
    · exact ⟨rfl, rfl, Table2.Grown.refl _⟩
    · have grown := (Table2.Grown.refl s.siteTimeMap).touch baseTrig.stationID oneTrig.stationID
      obtain ⟨pool, values, after⟩ := ih (j + 1) (admitTrigger j oneTrig
        { s with siteTimeMap := s.siteTimeMap.touch baseTrig.stationID oneTrig.stationID })
      rw [admit_siteTimeMap] at after
      have admitted := admit_siteMap j oneTrig
        { s with siteTimeMap := s.siteTimeMap.touch baseTrig.stationID oneTrig.stationID }
      refine ⟨?_, values.trans admitted, grown.trans after⟩
      rw [pool, SiteMap.location_congr admitted, admit_triggerPool, admit_siteTimeMap, grown.value, window,
        List.filter_cons_of_pos (by simpa using near), List.foldl_cons]
    · have grown := (Table2.Grown.refl s.siteTimeMap).touch baseTrig.stationID oneTrig.stationID
      obtain ⟨pool, values, after⟩ := ih (j + 1)
        { s with siteTimeMap := s.siteTimeMap.touch baseTrig.stationID oneTrig.stationID }
      refine ⟨?_, values, grown.trans after⟩
      rw [pool, grown.value, window, List.filter_cons_of_neg (by simpa using near)]

/-- The triggers of one station, the first with its position stored. -/
def marked : List (ℕ × TriggerInfo) → List TriggerInfo
  | [] => []
  | (j, oneTrig) :: rest => { oneTrig with trigIdx := j } :: rest.map Prod.snd

def ofStation (id : ℤ) (entries : List (ℕ × TriggerInfo)) : List (ℕ × TriggerInfo) :=
  entries.filter (fun e => e.2.stationID = id)

structure PoolOf (location : ℤ → LocSta) (entries : List (ℕ × TriggerInfo)) (pool : TriggerPool) :
    Prop where
  entry : ∀ id entry, (id, entry) ∈ pool.entries →
    entry.stationID = id ∧ entry.staLocation = location id ∧
    entry.triggers = marked (ofStation id entries) ∧ ofStation id entries ≠ []
  atMost : pool.size ≤ 8
  /-- Until the pool is full no station is turned away. -/
  admitted : pool.size < 8 → ∀ e ∈ entries, e.2.stationID ∈ pool.keys

theorem ofStation_append (id : ℤ) (entries more : List (ℕ × TriggerInfo)) :
    ofStation id (entries ++ more) = ofStation id entries ++ ofStation id more := List.filter_append ..

theorem ofStation_other {id : ℤ} {e : ℕ × TriggerInfo} (other : id ≠ e.2.stationID) :
    ofStation id [e] = [] := by
  simp [ofStation, Ne.symm other]

theorem ofStation_same (e : ℕ × TriggerInfo) : ofStation e.2.stationID [e] = [e] := by
  simp [ofStation]

theorem marked_snoc {entries : List (ℕ × TriggerInfo)} (nonempty : entries ≠ []) (e : ℕ × TriggerInfo) :
    marked (entries ++ [e]) = marked entries ++ [e.2] := by
  cases entries with
  | nil => contradiction
  | cons first rest => simp [marked]

theorem PoolOf.extend {location : ℤ → LocSta} {entries : List (ℕ × TriggerInfo)} {pool : TriggerPool}
    (built : PoolOf location entries pool) (e : ℕ × TriggerInfo) :
    PoolOf location (entries ++ [e]) (admitPool location pool e) := by
  have otherEntry : ∀ id entry, id ≠ e.2.stationID → (id, entry) ∈ pool.entries →
      entry.stationID = id ∧ entry.staLocation = location id ∧
      entry.triggers = marked (ofStation id (entries ++ [e])) ∧ ofStation id (entries ++ [e]) ≠ [] := by
    intro id entry other member
    rw [ofStation_append, ofStation_other other, List.append_nil]
    exact built.entry id entry member
  unfold admitPool
  cases found : pool.find e.2.stationID with
  | none =>
    have fresh := OrderedMap.find_eq_none.mp found
    have notFresh {id : ℤ} {entry} (member : (id, entry) ∈ pool.entries) : id ≠ e.2.stationID :=
      fun same => fresh (same ▸ List.mem_map_of_mem member)
    simp only
    split_ifs with full
    · exact ⟨fun id entry member => otherEntry id entry (notFresh member) member, built.atMost,
        fun room => absurd full (not_le.mpr room)⟩
    · have room := not_le.mp full
      have unseen : ofStation e.2.stationID entries = [] := by
        refine List.filter_eq_nil_iff.mpr fun earlier member same => fresh ?_
        rw [← of_decide_eq_true same]
        exact built.admitted room earlier member
      refine ⟨?_, ?_, ?_⟩
      · intro id entry member
        rw [OrderedMap.entries_insert fresh] at member
        rcases List.mem_append.mp member with old | new
        · exact otherEntry id entry (notFresh old) old
        · obtain ⟨rfl, rfl⟩ := Prod.mk.inj (List.mem_singleton.mp new)
          rw [ofStation_append, unseen, ofStation_same]
          exact ⟨rfl, rfl, rfl, by simp⟩
      · rw [OrderedMap.size_insert fresh]
        omega
      · intro _ earlier member
        rw [OrderedMap.keys, OrderedMap.entries_insert fresh, List.map_append, List.mem_append]
        rcases List.mem_append.mp member with old | new
        · exact .inl (built.admitted room earlier old)
        · exact .inr (by simp [List.mem_singleton.mp new])
  | some opened =>
    refine ⟨?_, by simpa using built.atMost, ?_⟩
    · intro id entry member
      rcases OrderedMap.mem_modify.mp member with ⟨rfl, old, present, rfl⟩ | ⟨other, present⟩
      · obtain ⟨station, held, triggers, nonempty⟩ := built.entry _ old present
        rw [ofStation_append, ofStation_same, marked_snoc nonempty, triggers]
        exact ⟨station, held, rfl, by simp⟩
      · exact otherEntry id entry other present
    · intro room earlier member
      rw [OrderedMap.keys_modify]
      rw [OrderedMap.size_modify] at room
      rcases List.mem_append.mp member with old | new
      · exact built.admitted room earlier old
      · rw [List.mem_singleton.mp new]
        exact OrderedMap.find_isSome.mp (by simp [found])

theorem poolOf_foldl (location : ℤ → LocSta) (entries : List (ℕ × TriggerInfo)) :
    PoolOf location entries (entries.foldl (admitPool location) OrderedMap.empty) := by
  induction entries using List.reverseRecOn with
  | nil => exact ⟨by simp [OrderedMap.empty], by simp [OrderedMap.empty, OrderedMap.size], by simp⟩
  | append_singleton entries e ih =>
    rw [List.foldl_append]
    exact ih.extend e

theorem mem_marked {entries : List (ℕ × TriggerInfo)} {t : TriggerInfo} (member : t ∈ marked entries) :
    ∃ j x, (j, x) ∈ entries ∧
      (t = { x with trigIdx := j } ∧ entries.head? = some (j, x) ∨
        t = x ∧ ∃ rest, (j, x) ∈ rest ∧ ∃ first, entries = first :: rest) := by
  cases entries with
  | nil => simp [marked] at member
  | cons first rest =>
    obtain ⟨j, x⟩ := first
    rcases List.mem_cons.mp member with rfl | later
    · exact ⟨j, x, List.mem_cons_self, .inl ⟨rfl, rfl⟩⟩
    · obtain ⟨⟨i, y⟩, inRest, rfl⟩ := List.mem_map.mp later
      exact ⟨i, y, List.mem_cons_of_mem _ inRest, .inr ⟨rfl, rest, inRest, _, rfl⟩⟩

theorem mem_examined {maxBaseLineAsTOA : ℚ} {baseTrig : TriggerInfo} {j i : ℕ}
    {queue : List TriggerInfo} {x : TriggerInfo}
    (member : (i, x) ∈ examined maxBaseLineAsTOA baseTrig j queue) :
    (j ≤ i ∧ queue[i - j]? = some x) ∧ 0 ≤ baseTrig.value * x.value ∧
    -maxBaseLineAsTOA ≤ baseTrig.time.sub x.time ∧ baseTrig.time.sub x.time ≤ 0 := by
  induction queue generalizing j with
  | nil => simp [examined] at member
  | cons oneTrig rest ih =>
    have later (h : (i, x) ∈ examined maxBaseLineAsTOA baseTrig (j + 1) rest) :
        (j ≤ i ∧ (oneTrig :: rest)[i - j]? = some x) ∧ 0 ≤ baseTrig.value * x.value ∧
        -maxBaseLineAsTOA ≤ baseTrig.time.sub x.time ∧ baseTrig.time.sub x.time ≤ 0 := by
      obtain ⟨⟨after, held⟩, conditions⟩ := ih h
      refine ⟨⟨by omega, ?_⟩, conditions⟩
      rw [show i - j = (i - (j + 1)) + 1 by omega, List.getElem?_cons_succ, held]
    simp only [examined] at member
    split_ifs at member with opposite outside
    · exact later member
    · simp at member
    · rcases List.mem_cons.mp member with here | member
      · obtain ⟨rfl, rfl⟩ := Prod.mk.inj here
        obtain ⟨notBefore, notAfter⟩ := not_or.mp outside
        exact ⟨⟨le_rfl, by simp⟩, not_lt.mp opposite, not_lt.mp notBefore, not_lt.mp notAfter⟩
      · exact later member

theorem examined_sorted (maxBaseLineAsTOA : ℚ) (baseTrig : TriggerInfo) (j : ℕ)
    (queue : List TriggerInfo) :
    (examined maxBaseLineAsTOA baseTrig j queue).Pairwise (fun a b => a.1 < b.1) := by
  induction queue generalizing j with
  | nil => exact .nil
  | cons oneTrig rest ih =>
    simp only [examined]
    split_ifs
    · exact ih (j + 1)
    · exact .nil
    · refine .cons ?_ (ih (j + 1))
      rintro ⟨i, x⟩ member
      exact Nat.lt_of_succ_le (mem_examined member).1.1

theorem mem_window {time : ℤ → ℤ → ℚ} {maxBaseLineAsTOA : ℚ} {baseTrig : TriggerInfo} {j : ℕ}
    {queue : List TriggerInfo} {e : ℕ × TriggerInfo} :
    e ∈ window time maxBaseLineAsTOA baseTrig j queue ↔
      e ∈ examined maxBaseLineAsTOA baseTrig j queue ∧
      |baseTrig.time.sub e.2.time| ≤ time baseTrig.stationID e.2.stationID + 0.0001 := by
  simp [window, List.mem_filter]

end LigDataParsing
