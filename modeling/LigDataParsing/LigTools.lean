import Mathlib.Tactic.Linarith
import LigDataParsing.Backtrack
import LigDataParsing.LocStruct

/-! The enumeration of `LigTools.cpp`: a backtracking recursion over shared buffers,
one trigger from each of `nCombStas` stations, pruned by propagation times. -/
namespace LigDataParsing

/-- The buffers `permuteVector` passes by reference. -/
structure Search where
  current : List TriggerInfo
  combinationPool : List (List TriggerInfo)
  siteTimeMap : SiteTimeMap

/-- The test of one candidate against the triggers chosen before it; each comparison
looks the pair up in `siteTimeMap`, and the first failure ends the loop. -/
def checkCurrent (tri : TriggerInfo) : List TriggerInfo → SiteTimeMap → Bool × SiteTimeMap
  | [], siteTimeMap => (true, siteTimeMap)
  | element :: rest, siteTimeMap =>
    let bound := siteTimeMap.value element.stationID tri.stationID + 0.0001
    let siteTimeMap := siteTimeMap.touch element.stationID tri.stationID
    if |tri.time.sub element.time| > bound then (false, siteTimeMap)
    else checkCurrent tri rest siteTimeMap

/-- The recursion at `index` works on the lists from `index` on. -/
def permuteVector : List (List TriggerInfo) → Search → Search
  | [], s => { s with combinationPool := s.combinationPool ++ [s.current] }
  | candidates :: rest, s => candidates.foldl (fun s tri =>
      let checked := checkCurrent tri s.current s.siteTimeMap
      let s := { s with siteTimeMap := checked.2 }
      if checked.1 then
        let s := permuteVector rest { s with current := s.current ++ [tri] }
        { s with current := s.current.dropLast }
      else s) s

structure Combinations where
  current : List ℕ
  combinations : List (List ℕ)

def Combinations.emit (s : Combinations) : Combinations :=
  { s with combinations := s.combinations ++ [s.current] }

/-- The loop of `generateCombinations` from `start` on; the test for a full buffer is
the start of the recursive call. -/
def generateLoop (k : ℕ) : List ℕ → Combinations → Combinations
  | [], s => s
  | num :: rest, s =>
    let pushed := { s with current := s.current ++ [num] }
    let deeper := if pushed.current.length = k then pushed.emit else generateLoop k rest pushed
    generateLoop k rest { deeper with current := deeper.current.dropLast }

def generateCombinations (k : ℕ) (nums : List ℕ) (s : Combinations) : Combinations :=
  if s.current.length = k then s.emit else generateLoop k nums s

def getCombinations (nums : List ℕ) (k : ℕ) : List (List ℕ) :=
  (generateCombinations k nums ⟨[], []⟩).combinations

def poolTriggers (triggerPool : TriggerPool) : List (List TriggerInfo) :=
  triggerPool.values.map TriggerAtStation.triggers

def getLocationPoolP (triggerPool : TriggerPool) (siteTimeMap : SiteTimeMap) (nCombStas : ℕ) :
    Search :=
  let triggers := poolTriggers triggerPool
  let stationIndices := List.range triggers.length
  (getCombinations stationIndices nCombStas).foldl (fun s combination =>
    permuteVector (combination.map (triggers.getD · [])) s) ⟨[], [], siteTimeMap⟩

/-- The loop over `p` that appends a copy of each of the first `nPool` entries with
`trigger` at its end. -/
def pushCopies (nPool : ℕ) (trigger : TriggerInfo) (pool : List (List TriggerInfo)) :
    List (List TriggerInfo) :=
  (List.range nPool).foldl (fun pool p => pool ++ [pool.getD p [] ++ [trigger]]) pool

/-- The loop over `p`, downwards, that puts `trigger` at the end of these entries themselves. -/
def extendEntries (nPool : ℕ) (trigger : TriggerInfo) (pool : List (List TriggerInfo)) :
    List (List TriggerInfo) :=
  (List.range nPool).reverse.foldl (fun pool p => pool.modify p (· ++ [trigger])) pool

def growPool (triggers : List TriggerInfo) (pool : List (List TriggerInfo)) : List (List TriggerInfo) :=
  triggers.zipIdx.reverse.foldl (fun grown e =>
    if e.2 ≠ 0 then pushCopies pool.length e.1 grown else extendEntries pool.length e.1 grown) pool

def startPool (triggers : List TriggerInfo) (pool : List (List TriggerInfo)) : List (List TriggerInfo) :=
  triggers.reverse.foldl (fun pool trigger => pool ++ [[trigger]]) pool

def locationPoolFrom : ℕ → List (List TriggerInfo) → List (List TriggerInfo) → List (List TriggerInfo)
  | _, [], pool => pool
  | m, triggers :: rest, pool =>
    if m ≠ 0 then
      if pool.length = 0 then pool else locationPoolFrom (m + 1) rest (growPool triggers pool)
    else locationPoolFrom (m + 1) rest (startPool triggers pool)

def getLocationPool (triggerPool : TriggerPool) : List (List TriggerInfo) :=
  locationPoolFrom 0 (poolTriggers triggerPool) []

/-- The angle at `o` between two stations, except where a station coincides with `o`:
there the quotient is NaN and `max` keeps its first argument. -/
def widen (libm : Libm) (o : Cartesian) (maxTheta : ℚ) (p1 p2 : LocSta) : ℚ :=
  let u := o.minus (.ofLatLon libm p1.lat p1.lon)
  let v := o.minus (.ofLatLon libm p2.lat p2.lon)
  let ulength := libm.sqrt (u.dot u)
  let vlength := libm.sqrt (v.dot v)
  if ulength * vlength = 0 then maxTheta
  else max maxTheta (libm.acos (u.dot v / (ulength * vlength)) * Params.radians2degree)

def maxTheta (libm : Libm) (o : Cartesian) : ℚ → List LocSta → ℚ
  | theta, [] => theta
  | theta, p1 :: rest => maxTheta libm o (rest.foldl (fun theta p2 => widen libm o theta p1 p2) theta) rest

def checkLocationStructure (libm : Libm) (stations : List LocSta) (result : LocSta)
    (checkTheta : ℚ) : Bool :=
  ¬ maxTheta libm (.ofLatLon libm result.lat result.lon) 0 stations < checkTheta

def pairFits (time : ℤ → ℤ → ℚ) (element tri : TriggerInfo) : Bool :=
  |tri.time.sub element.time| ≤ time element.stationID tri.stationID + 0.0001

open Lookup

theorem checkCurrent_fits (tri : TriggerInfo) (current : List TriggerInfo) (siteTimeMap : SiteTimeMap) :
    (checkCurrent tri current siteTimeMap).1 = current.all (pairFits siteTimeMap.value · tri) := by
  induction current generalizing siteTimeMap with
  | nil => rfl
  | cons element rest ih =>
    have sameValue : (siteTimeMap.touch element.stationID tri.stationID).value = siteTimeMap.value :=
      ((Table2.Grown.refl siteTimeMap).touch _ _).value
    simp only [checkCurrent, List.all_cons]
    split_ifs with far
    · simp [pairFits, not_le.mpr far]
    · rw [ih, sameValue]
      simp [pairFits, not_lt.mp far]

/-- Any property of the propagation table that lookups between the given stations keep
is kept by the test. -/
theorem checkCurrent_invariant (ids : List ℤ) (property : SiteTimeMap → Prop)
    (kept : ∀ m, property m → ∀ a ∈ ids, ∀ b ∈ ids, property (m.touch a b)) (tri : TriggerInfo)
    (current : List TriggerInfo) (siteTimeMap : SiteTimeMap) (here : tri.stationID ∈ ids)
    (inside : ∀ t ∈ current, t.stationID ∈ ids) (holds : property siteTimeMap) :
    property (checkCurrent tri current siteTimeMap).2 := by
  induction current generalizing siteTimeMap with
  | nil => exact holds
  | cons element rest ih =>
    have next := kept siteTimeMap holds _ (inside element List.mem_cons_self) _ here
    simp only [checkCurrent]
    split_ifs
    · exact next
    · exact ih _ (fun t member => inside t (List.mem_cons_of_mem _ member)) next

/-- The search restores `current`, appends exactly the compatible extensions, and
changes the propagation table by lookups only. -/
theorem permuteVector_spec (lists : List (List TriggerInfo)) (s : Search) :
    (permuteVector lists s).current = s.current ∧
    (permuteVector lists s).combinationPool = s.combinationPool ++
      Backtrack.extensions (pairFits s.siteTimeMap.value) lists s.current ∧
    s.siteTimeMap.Grown (permuteVector lists s).siteTimeMap := by
  induction lists generalizing s with
  | nil => exact ⟨rfl, rfl, Table2.Grown.refl _⟩
  | cons candidates rest ih =>
    simp only [permuteVector, Backtrack.extensions]
    induction candidates generalizing s with
    | nil => exact ⟨rfl, by simp, Table2.Grown.refl _⟩
    | cons tri candidates loop =>
      have grown : s.siteTimeMap.Grown (checkCurrent tri s.current s.siteTimeMap).2 :=
        checkCurrent_invariant (tri.stationID :: s.current.map TriggerInfo.stationID)
          s.siteTimeMap.Grown (fun m grown a _ b _ => grown.touch a b) tri s.current s.siteTimeMap List.mem_cons_self
          (fun t member => List.mem_cons_of_mem _ (List.mem_map_of_mem member)) (Table2.Grown.refl _)
      rw [List.foldl_cons, List.flatMap_cons, ← checkCurrent_fits]
      split_ifs with valid
      · obtain ⟨current, pool, deeper⟩ :=
          ih ⟨s.current ++ [tri], s.combinationPool, (checkCurrent tri s.current s.siteTimeMap).2⟩
        obtain ⟨current', pool', after⟩ := loop
          { permuteVector rest ⟨s.current ++ [tri], s.combinationPool,
              (checkCurrent tri s.current s.siteTimeMap).2⟩ with current := s.current }
        simp only [current, List.dropLast_concat]
        refine ⟨current', ?_, (grown.trans deeper).trans after⟩
        rw [pool', pool, List.append_assoc, (grown.trans deeper).value, grown.value]
      · obtain ⟨current', pool', after⟩ :=
          loop { s with siteTimeMap := (checkCurrent tri s.current s.siteTimeMap).2 }
        refine ⟨current', ?_, grown.trans after⟩
        rw [pool', grown.value, List.nil_append]

theorem permuteVector_invariant (ids : List ℤ) (property : SiteTimeMap → Prop)
    (kept : ∀ m, property m → ∀ a ∈ ids, ∀ b ∈ ids, property (m.touch a b))
    (lists : List (List TriggerInfo)) (s : Search)
    (inLists : ∀ list ∈ lists, ∀ t ∈ list, t.stationID ∈ ids)
    (inCurrent : ∀ t ∈ s.current, t.stationID ∈ ids) (holds : property s.siteTimeMap) :
    property (permuteVector lists s).siteTimeMap := by
  induction lists generalizing s with
  | nil => exact holds
  | cons candidates rest ih =>
    obtain ⟨here, inRest⟩ := List.forall_mem_cons.mp inLists
    simp only [permuteVector]
    clear inLists
    induction candidates generalizing s with
    | nil => exact holds
    | cons tri candidates loop =>
      obtain ⟨known, here⟩ := List.forall_mem_cons.mp here
      have checked := checkCurrent_invariant ids property kept tri s.current s.siteTimeMap known inCurrent holds
      rw [List.foldl_cons]
      split_ifs with valid
      · refine loop _ ?_ ?_ here
        · rw [(permuteVector_spec _ _).1, List.dropLast_concat]
          exact inCurrent
        · refine ih _ inRest ?_ checked
          intro t member
          rcases List.mem_append.mp member with earlier | last
          · exact inCurrent t earlier
          · exact (List.mem_singleton.mp last) ▸ known
      · exact loop _ inCurrent checked here

/-- The loop restores the buffer and appends the completions of its content. -/
theorem generateLoop_spec (k : ℕ) (nums : List ℕ) (s : Combinations) (room : s.current.length < k) :
    (generateLoop k nums s).current = s.current ∧
    (generateLoop k nums s).combinations = s.combinations ++
      (Backtrack.combinations (k - s.current.length) nums).map (s.current ++ ·) := by
  induction nums generalizing s with
  | nil =>
    obtain ⟨missing, positive⟩ : ∃ m, k - s.current.length = m + 1 := ⟨k - s.current.length - 1, by omega⟩
    simp [generateLoop, positive, Backtrack.combinations]
  | cons num rest ih =>
    obtain ⟨missing, positive⟩ : ∃ m, k - s.current.length = m + 1 := ⟨k - s.current.length - 1, by omega⟩
    simp only [generateLoop, List.length_append, List.length_singleton]
    split_ifs with full
    · have last : missing = 0 := by omega
      obtain ⟨current, combinations⟩ := ih { s with combinations := s.combinations ++ [s.current ++ [num]] } room
      simp only [Combinations.emit, List.dropLast_concat]
      refine ⟨current, combinations.trans ?_⟩
      simp [positive, last, Backtrack.combinations]
    · obtain ⟨current, combinations⟩ := ih { s with current := s.current ++ [num] }
        (by simp only [List.length_append, List.length_singleton]; omega)
      have left : k - (s.current ++ [num]).length = missing := by
        simp only [List.length_append, List.length_singleton]
        omega
      rw [left] at combinations
      simp only [current, List.dropLast_concat]
      obtain ⟨current', combinations'⟩ := ih
        { generateLoop k rest { s with current := s.current ++ [num] } with current := s.current } room
      refine ⟨current', combinations'.trans ?_⟩
      simp [combinations, positive, Backtrack.combinations, Function.comp_def]

theorem getCombinations_eq (nums : List ℕ) (k : ℕ) : getCombinations nums k = Backtrack.combinations k nums := by
  cases k with
  | zero => simp [getCombinations, generateCombinations, Combinations.emit, Backtrack.combinations]
  | succ k =>
    have spec := (generateLoop_spec (k + 1) nums ⟨[], []⟩ (Nat.succ_pos k)).2
    simpa [getCombinations, generateCombinations] using spec

theorem map_getD_range {α : Type*} (l : List α) (d : α) : (List.range l.length).map (l.getD · d) = l := by
  apply List.ext_getElem
  · simp
  · intro i _ bound
    simp [bound]

/-- The searches over the chosen stations, one after the other, with one propagation
table. -/
theorem foldl_permuteVector (lists : List ℕ → List (List TriggerInfo)) (combinations : List (List ℕ))
    (s : Search) (start : s.current = []) :
    (combinations.foldl (fun s combination => permuteVector (lists combination) s) s).combinationPool =
      s.combinationPool ++ combinations.flatMap fun combination =>
        Backtrack.extensions (pairFits s.siteTimeMap.value) (lists combination) [] := by
  induction combinations generalizing s with
  | nil => simp
  | cons combination rest ih =>
    obtain ⟨current, pool, grown⟩ := permuteVector_spec (lists combination) s
    rw [List.foldl_cons, ih _ (current.trans start), pool, grown.value, start, List.flatMap_cons,
      List.append_assoc]

theorem getLocationPoolP_spec (triggerPool : TriggerPool) (siteTimeMap : SiteTimeMap) (nCombStas : ℕ) :
    (getLocationPoolP triggerPool siteTimeMap nCombStas).combinationPool =
      (Backtrack.combinations nCombStas (List.range (poolTriggers triggerPool).length)).flatMap
        fun combination => Backtrack.extensions (pairFits siteTimeMap.value)
          (combination.map ((poolTriggers triggerPool).getD · [])) [] := by
  rw [getLocationPoolP, getCombinations_eq]
  exact foldl_permuteVector _ _ _ rfl

/-- For any number of stations, a combination consists of triggers of the pool, every
pair within its propagation time. -/
theorem getLocationPoolP_sound {triggerPool : TriggerPool} {siteTimeMap : SiteTimeMap} {nCombStas : ℕ}
    {comb : List TriggerInfo}
    (member : comb ∈ (getLocationPoolP triggerPool siteTimeMap nCombStas).combinationPool) :
    (∀ t ∈ comb, ∃ list ∈ poolTriggers triggerPool, t ∈ list) ∧
    Backtrack.Compatible (pairFits siteTimeMap.value) comb := by
  rw [getLocationPoolP_spec] at member
  obtain ⟨combination, _, found⟩ := List.mem_flatMap.mp member
  obtain ⟨choice, compatible⟩ := Backtrack.mem_extensions_nil.mp found
  refine ⟨fun t inComb => ?_, compatible⟩
  obtain ⟨list, inLists, inList⟩ := choice.exists_list inComb
  obtain ⟨i, _, rfl⟩ := List.mem_map.mp inLists
  refine ⟨_, ?_, inList⟩
  rw [List.getD_eq_getElem?_getD] at inList ⊢
  cases found : (poolTriggers triggerPool)[i]? with
  | none => simp [found] at inList
  | some list => exact List.mem_of_getElem? found

theorem getLocationPoolP_size (triggerPool : TriggerPool) (siteTimeMap : SiteTimeMap) :
    getLocationPoolP triggerPool siteTimeMap triggerPool.size =
      permuteVector (poolTriggers triggerPool) ⟨[], [], siteTimeMap⟩ := by
  have size : triggerPool.size = (List.range (poolTriggers triggerPool).length).length := by
    simp [poolTriggers, OrderedMap.values, OrderedMap.size]
  rw [getLocationPoolP, getCombinations_eq, size, Backtrack.combinations_length]
  simp only [List.foldl_cons, List.foldl_nil, map_getD_range]

theorem getLocationPoolP_grown (triggerPool : TriggerPool) (siteTimeMap : SiteTimeMap) :
    siteTimeMap.Grown (getLocationPoolP triggerPool siteTimeMap triggerPool.size).siteTimeMap := by
  rw [getLocationPoolP_size]
  exact (permuteVector_spec (poolTriggers triggerPool) ⟨[], [], siteTimeMap⟩).2.2

/-- Lookups between stations that all have entries insert nothing. -/
theorem getLocationPoolP_covered {triggerPool : TriggerPool} {siteTimeMap : SiteTimeMap}
    {ids : List ℤ} (covered : siteTimeMap.Covers ids)
    (inside : ∀ list ∈ poolTriggers triggerPool, ∀ t ∈ list, t.stationID ∈ ids) :
    (getLocationPoolP triggerPool siteTimeMap triggerPool.size).siteTimeMap = siteTimeMap := by
  rw [getLocationPoolP_size]
  refine permuteVector_invariant ids (· = siteTimeMap) ?_ (poolTriggers triggerPool)
    ⟨[], [], siteTimeMap⟩ inside (fun _ member => absurd member List.not_mem_nil) rfl
  intro m same a ha b hb
  rw [same]
  exact Table2.touch_of_present (covered a ha b hb)

end LigDataParsing
