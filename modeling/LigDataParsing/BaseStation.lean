import LigDataParsing.Stations
import LigDataParsing.WindowPool

/-! The station of the base trigger in the pool of a scan. Its propagation time to itself
is zero, and nothing but the tests keeps its later triggers out. -/
namespace LigDataParsing

open Lookup

structure Libm.ZeroAtZero (libm : Libm) : Prop where
  sin : libm.sin 0 = 0
  asin : libm.asin 0 = 0
  sqrtf : libm.sqrtf 0 = 0

theorem stadistance_self {libm : Libm} (zero : libm.ZeroAtZero) (lat lon : ℚ) :
    stadistance libm lat lon lat lon = 0 := by
  simp [stadistance, zero.sin, zero.asin, zero.sqrtf]

def lastSite (sites : List StationInfo) (id : ℤ) : Option StationInfo :=
  sites.reverse.find? fun site => site.stationID = id

theorem lastSite_snoc (sites : List StationInfo) (site : StationInfo) (id : ℤ) :
    lastSite (sites ++ [site]) id = if site.stationID = id then some site else lastSite sites id := by
  rw [lastSite, List.reverse_append, List.reverse_singleton, List.singleton_append, List.find?_cons]
  by_cases same : site.stationID = id
  · simp [same]
  · simp [same, lastSite]

/-- In each row the last station of a number is the one that stays. -/
theorem value_foldl_assign (row : ℤ) (time : StationInfo → ℚ) (sites : List StationInfo)
    (siteTimeMap : SiteTimeMap) (a b : ℤ) :
    Table2.value (sites.foldl (fun m site => Table2.assign m row site.stationID (time site)) siteTimeMap) a b =
      if a = row then ((lastSite sites b).map time).getD (siteTimeMap.value a b) else siteTimeMap.value a b := by
  induction sites using List.reverseRecOn with
  | nil => simp [lastSite]
  | append_singleton sites site ih =>
    rw [List.foldl_append, List.foldl_cons, List.foldl_nil, Table2.value_assign, ih, lastSite_snoc]
    by_cases sameRow : a = row
    · by_cases sameKey : b = site.stationID
      · simp [sameRow, sameKey]
      · simp [sameRow, sameKey, Ne.symm sameKey]
    · simp [sameRow]

theorem value_foldl_rows (time : StationInfo → StationInfo → ℚ) (sites rows : List StationInfo)
    (siteTimeMap : SiteTimeMap) (a b : ℤ) :
    Table2.value (rows.foldl (fun m site1 => sites.foldl (fun m site2 =>
      Table2.assign m site1.stationID site2.stationID (time site1 site2)) m) siteTimeMap) a b =
      ((lastSite rows a).bind fun site1 => (lastSite sites b).map (time site1)).getD (siteTimeMap.value a b) := by
  induction rows using List.reverseRecOn with
  | nil => simp [lastSite]
  | append_singleton rows row ih =>
    rw [List.foldl_append, List.foldl_cons, List.foldl_nil, value_foldl_assign, ih, lastSite_snoc]
    by_cases same : a = row.stationID
    · cases last : lastSite sites b <;> simp [same]
    · simp [same, Ne.symm same]

/-- A station is no propagation time away from itself, however often it is listed. -/
theorem siteTimeMapOf_self {libm : Libm} (zero : libm.ZeroAtZero) (sites : List StationInfo) (id : ℤ) :
    (siteTimeMapOf libm sites).value id id = 0 := by
  rw [siteTimeMapOf, value_foldl_rows fun site1 site2 =>
    stadistance libm site1.latitude site1.longitude site2.latitude site2.longitude / Params.cVeo]
  cases lastSite sites id with
  | none => rfl
  | some site => simp [stadistance_self zero]

def EndsScan (maxBaseLineAsTOA : ℚ) (baseTrig y : TriggerInfo) : Prop :=
  0 ≤ baseTrig.value * y.value ∧
  (baseTrig.time.sub y.time < -maxBaseLineAsTOA ∨ baseTrig.time.sub y.time > 0)

/-- A trigger is examined unless it has the wrong sign or the scan stops before or at it. -/
theorem mem_examined_iff {maxBaseLineAsTOA : ℚ} {baseTrig : TriggerInfo} {j : ℕ} {queue : List TriggerInfo}
    {e : ℕ × TriggerInfo} : e ∈ examined maxBaseLineAsTOA baseTrig j queue ↔
      ∃ before after, queue = before ++ e.2 :: after ∧ e.1 = j + before.length ∧
        0 ≤ baseTrig.value * e.2.value ∧ ∀ y ∈ before ++ [e.2], ¬ EndsScan maxBaseLineAsTOA baseTrig y := by
  induction queue generalizing j with
  | nil => simp [examined]
  | cons oneTrig rest ih =>
    have here : (∃ before after, oneTrig :: rest = before ++ e.2 :: after ∧ e.1 = j + before.length ∧
        0 ≤ baseTrig.value * e.2.value ∧ ∀ y ∈ before ++ [e.2], ¬ EndsScan maxBaseLineAsTOA baseTrig y) ↔
        (e = (j, oneTrig) ∧ 0 ≤ baseTrig.value * oneTrig.value ∨
          e ∈ examined maxBaseLineAsTOA baseTrig (j + 1) rest) ∧
        ¬ EndsScan maxBaseLineAsTOA baseTrig oneTrig := by
      rw [ih]
      constructor
      · rintro ⟨before, after, split, position, sign, reached⟩
        cases before with
        | nil =>
          obtain ⟨rfl, rfl⟩ := List.cons.inj split
          exact ⟨.inl ⟨Prod.ext position rfl, sign⟩, reached _ (by simp)⟩
        | cons first before =>
          obtain ⟨rfl, rfl⟩ := List.cons.inj split
          refine ⟨.inr ⟨before, after, rfl, ?_, sign, ?_⟩, reached _ (by simp)⟩
          · rw [position, List.length_cons]
            omega
          · exact fun y member => reached y (List.mem_cons_of_mem _ member)
      · rintro ⟨⟨rfl, sign⟩ | ⟨before, after, split, position, sign, reached⟩, first⟩
        · exact ⟨[], rest, rfl, rfl, sign, by simpa using first⟩
        · refine ⟨oneTrig :: before, after, by rw [split]; rfl, ?_, sign, ?_⟩
          · rw [position, List.length_cons]
            omega
          · exact List.forall_mem_cons.mpr ⟨first, reached⟩
    rw [here, examined]
    split_ifs with opposite outside
    · have going : ¬ EndsScan maxBaseLineAsTOA baseTrig oneTrig := fun ends =>
        absurd ends.1 (not_le.mpr opposite)
      simp [going, not_le.mpr opposite]
    · have stops : EndsScan maxBaseLineAsTOA baseTrig oneTrig := ⟨not_lt.mp opposite, outside⟩
      simp [stops]
    · have going : ¬ EndsScan maxBaseLineAsTOA baseTrig oneTrig := fun ends => outside ends.2
      simp [going, not_lt.mp opposite]

/-- The base's own station opens the pool, with the base alone in its list. -/
def BaseAlone (baseTrig : TriggerInfo) (pool : TriggerPool) : Prop :=
  ∃ entry others, pool.entries = (baseTrig.stationID, entry) :: others ∧
    entry.triggers = [{ baseTrig with trigIdx := 0 }]

/-- No later trigger of the base's station is let through: each has the opposite sign, is
too late for a propagation time of zero, or comes after the scan has stopped. -/
def NoRepeat (maxBaseLineAsTOA : ℚ) (baseTrig : TriggerInfo) (rest : List TriggerInfo) : Prop :=
  ∀ before x after, rest = before ++ x :: after → x.stationID = baseTrig.stationID →
    baseTrig.value * x.value < 0 ∨ 0.0001 < |baseTrig.time.sub x.time| ∨
      ∃ y ∈ before ++ [x], EndsScan maxBaseLineAsTOA baseTrig y

section Base

variable {c : Config} {baseTrig : TriggerInfo} {rest : List TriggerInfo} {l : Locator}

theorem head_of_baseAlone {pool : TriggerPool} (alone : BaseAlone baseTrig pool) {time : ℤ → ℤ → ℚ}
    {comb : List TriggerInfo} (member : comb ∈ combinationsOf time pool) :
    comb.head? = some { baseTrig with trigIdx := 0 } := by
  obtain ⟨entry, others, split, triggers⟩ := alone
  have choice := (mem_combinationsOf.mp member).1
  rw [poolTriggers_eq, split, List.map_cons] at choice
  cases choice with
  | cons first _ =>
    simp only [triggers, List.mem_singleton] at first
    rw [List.head?_cons, first]

/-- Triggers of the base's station in the rest of the window. -/
theorem noRepeat_iff (self : l.siteTimeMap.value baseTrig.stationID baseTrig.stationID = 0) :
    NoRepeat c.maxBaseLineAsTOA baseTrig rest ↔
      ∀ e ∈ window l.siteTimeMap.value c.maxBaseLineAsTOA baseTrig 1 rest, e.2.stationID ≠ baseTrig.stationID := by
  constructor
  · intro noRepeat e member same
    obtain ⟨inside, near⟩ := mem_window.mp member
    obtain ⟨before, after, split, _, sign, reached⟩ := mem_examined_iff.mp inside
    rw [same, self, zero_add] at near
    rcases noRepeat before e.2 after split same with opposite | far | ⟨y, earlier, ends⟩
    · exact absurd opposite (not_lt.mpr sign)
    · exact absurd near (not_le.mpr far)
    · exact reached y earlier ends
  · intro others before x after split same
    by_contra within
    obtain ⟨sign, near, reached⟩ : 0 ≤ baseTrig.value * x.value ∧ |baseTrig.time.sub x.time| ≤ 0.0001 ∧
        ∀ y ∈ before ++ [x], ¬ EndsScan c.maxBaseLineAsTOA baseTrig y := by
      simpa only [not_or, not_lt, not_exists, not_and] using within
    refine others (1 + before.length, x) (mem_window.mpr ⟨?_, ?_⟩) same
    · exact mem_examined_iff.mpr ⟨before, after, split, rfl, sign, reached⟩
    · simpa only [same, self, zero_add] using near

theorem windowOf_base (queue : l.allTriggers = baseTrig :: rest)
    (self : l.siteTimeMap.value baseTrig.stationID baseTrig.stationID = 0) :
    l.windowOf c baseTrig = if 0 ≤ c.maxBaseLineAsTOA then
      (0, baseTrig) :: window l.siteTimeMap.value c.maxBaseLineAsTOA baseTrig 1 rest else [] := by
  have same : ¬ baseTrig.value * baseTrig.value < 0 := not_lt.mpr (mul_self_nonneg _)
  rw [Locator.windowOf, queue, window, examined, if_neg same, GPSTime.sub_self]
  by_cases nonneg : 0 ≤ c.maxBaseLineAsTOA
  · rw [if_neg (by rw [not_or]; constructor <;> linarith), if_pos nonneg, List.filter_cons_of_pos, window]
    simp only [GPSTime.sub_self, self, abs_zero, decide_eq_true_eq]
    norm_num
  · rw [if_pos (.inl (by linarith)), if_neg nonneg, List.filter_nil]

theorem baseAlone_iff (queue : l.allTriggers = baseTrig :: rest)
    (self : l.siteTimeMap.value baseTrig.stationID baseTrig.stationID = 0) :
    BaseAlone baseTrig (l.scanFrom c baseTrig).triggerPool ↔
      0 ≤ c.maxBaseLineAsTOA ∧ NoRepeat c.maxBaseLineAsTOA baseTrig rest := by
  have built := (scanFrom_spec c baseTrig l).1
  have keys : (l.scanFrom c baseTrig).triggerPool.keys =
      ((l.windowOf c baseTrig).map fun e => e.2.stationID).eraseDups.take 8 := by
    rw [Locator.scanFrom, (scan_spec c.maxBaseLineAsTOA baseTrig 0 l.allTriggers _).1]
    exact keys_foldl_admitPool _ _
  have window := windowOf_base (c := c) queue self
  by_cases nonneg : 0 ≤ c.maxBaseLineAsTOA
  · rw [if_pos nonneg] at window
    rw [window, List.map_cons, List.eraseDups_cons, List.take_succ_cons] at keys
    obtain ⟨⟨id, entry⟩, others, split, first, _⟩ := List.map_eq_cons_iff.mp keys
    obtain rfl : id = baseTrig.stationID := first
    have triggers := (built.entry _ entry (split ▸ List.mem_cons_self)).2.2.1
    rw [window, ofStation, List.filter_cons_of_pos (by simp), marked] at triggers
    have alone : BaseAlone baseTrig (l.scanFrom c baseTrig).triggerPool ↔
        entry.triggers = [{ baseTrig with trigIdx := 0 }] := by
      constructor
      · rintro ⟨entry', others', split', triggers'⟩
        obtain ⟨same, _⟩ := List.cons.inj (split.symm.trans split')
        rwa [(Prod.mk.inj same).2]
      · exact fun triggers => ⟨entry, others, split, triggers⟩
    rw [alone, triggers, noRepeat_iff self, and_iff_right nonneg]
    simp [List.filter_eq_nil_iff]
  · rw [if_neg nonneg] at window
    rw [window] at keys
    refine iff_of_false ?_ ?_
    · rintro ⟨entry, others, split, _⟩
      simp [OrderedMap.keys, split] at keys
    · rintro ⟨given, _⟩
      exact nonneg given

end Base

/-- The pool has the base alone under its first key, and every combination of it starts
with the base, if and only if the window is not negative and no later trigger of the
base's station passes the tests. -/
theorem base_alone_iff {libm : Libm} (zero : libm.ZeroAtZero) {sites : List StationInfo} {c : Config}
    {baseTrig : TriggerInfo} {rest : List TriggerInfo} {l : Locator}
    (queue : l.allTriggers = baseTrig :: rest) (built : (siteTimeMapOf libm sites).Grown l.siteTimeMap) :
    BaseAlone baseTrig (l.scanFrom c baseTrig).triggerPool ∧
      (∀ comb ∈ (getLocationPoolP (l.scanFrom c baseTrig).triggerPool (l.scanFrom c baseTrig).siteTimeMap
        (l.scanFrom c baseTrig).triggerPool.size).combinationPool,
        comb.head? = some { baseTrig with trigIdx := 0 }) ↔
    0 ≤ c.maxBaseLineAsTOA ∧ NoRepeat c.maxBaseLineAsTOA baseTrig rest := by
  have self : l.siteTimeMap.value baseTrig.stationID baseTrig.stationID = 0 := by
    rw [built.value]
    exact siteTimeMapOf_self zero sites _
  rw [← baseAlone_iff queue self]
  refine ⟨And.left, fun alone => ⟨alone, fun comb member => ?_⟩⟩
  rw [getLocationPoolP_eq] at member
  exact head_of_baseAlone alone member

namespace Sample

def libm : Libm := (platform prefersLate).libm

theorem libm_zero : libm.ZeroAtZero := ⟨rfl, rfl, rfl⟩

def fiveSites : List StationInfo := [site 1, site 2, site 3, site 4, site 5]

def built (allTriggers : List TriggerInfo) : Locator :=
  { locator allTriggers with siteTimeMap := siteTimeMapOf libm fiveSites }

def withinSlack : List TriggerInfo :=
  [trigger 1 0.0001, trigger 2 0.00016, trigger 3 0.00017, trigger 4 0.00018, trigger 5 0.00019]

def baseRepeated : List TriggerInfo :=
  [trigger 1 0.0001, trigger 1 0.00015, trigger 2 0.00016, trigger 3 0.00017, trigger 4 0.00018,
    trigger 5 0.00019]

end Sample

theorem base_alone_within :
    BaseAlone (Sample.trigger 1 0.0001)
      ((Sample.built Sample.withinSlack).scanFrom Sample.config (Sample.trigger 1 0.0001)).triggerPool ∧
    NoRepeat Sample.config.maxBaseLineAsTOA (Sample.trigger 1 0.0001) Sample.withinSlack.tail := by
  have noRepeat : NoRepeat Sample.config.maxBaseLineAsTOA (Sample.trigger 1 0.0001) Sample.withinSlack.tail := by
    intro before x after split same
    have others : ∀ y ∈ Sample.withinSlack.tail, y.stationID ≠ (Sample.trigger 1 0.0001).stationID := by
      decide +kernel
    exact absurd same (others x (split ▸ by simp))
  have alone := (base_alone_iff Sample.libm_zero (c := Sample.config) (l := Sample.built Sample.withinSlack) rfl
    (Table2.Grown.refl (siteTimeMapOf Sample.libm Sample.fiveSites))).mpr ⟨by decide +kernel, noRepeat⟩
  exact ⟨alone.1, noRepeat⟩

/-- Both triggers of the base's station enter its list, and one combination starts with
the second one. -/
theorem base_repeated :
    Ascending Sample.baseRepeated ∧ (∀ x ∈ Sample.baseRepeated, WellFormed x) ∧ Sample.libm.ZeroAtZero ∧
    (((Sample.built Sample.baseRepeated).scanFrom Sample.config (Sample.trigger 1 0.0001)).triggerPool.entries.map
      fun e => (e.1, e.2.triggers.length)) = [(1, 2), (2, 1), (3, 1), (4, 1), (5, 1)] ∧
    (getLocationPoolP ((Sample.built Sample.baseRepeated).scanFrom Sample.config
        (Sample.trigger 1 0.0001)).triggerPool (siteTimeMapOf Sample.libm Sample.fiveSites) 5).combinationPool.map
      List.head? = [some (Sample.trigger 1 0.0001), some (Sample.trigger 1 0.00015)] :=
  ⟨by decide +kernel, by decide +kernel, Sample.libm_zero, by decide +kernel, by decide +kernel⟩

end LigDataParsing
