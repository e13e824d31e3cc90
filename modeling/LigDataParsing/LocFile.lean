import LigDataParsing.Appenders
import LigDataParsing.Record
import LigDataParsing.ThreadLoc

/-! The `.loc` files `PostLigResult` appends a line to: one file for each minute, in a
directory for its month and day. -/
namespace LigDataParsing

open Decimal Separated

/-- The size of a number in millionths, to the nearest whole, halves to the even one. -/
def millionths (x : ℚ) : ℕ := (Binary64.nearest (|x| * 1000000)).toNat

/-- `std::to_string` of a `double`: `%f`, with six digits after the point. -/
def toStringDouble (x : ℚ) : List Char :=
  (if x < 0 then ['-'] else []) ++ Nat.toDigits 10 (millionths x / 1000000) ++ '.' :: column 6 (millionths x % 1000000)

/-- The line for a record; `asString` is the JSON library's text of a number. -/
def locLine (asString : ℚ → List Char) (ligTime : GPSTime) (d : LigData) : List Char :=
  getTimeString ligTime ++ ' ' :: toStringDouble d.latitude ++ ' ' :: toStringDouble d.longitude ++
    ' ' :: toStringDouble d.altitude ++ ' ' :: toStringDouble d.residual ++ ' ' :: (toString (d.numOfSta : ℤ)).toList ++
    ' ' :: asString d.peakCurrent ++ ' ' :: d.type ++ ' ' :: d.locationMethod ++ ' ' :: d.nameOfSta ++
    ' ' :: d.idOfSta ++ ['\r', '\n']

def locDirectories (filePath : List Char) (t : GPSTime) : List (List Char) :=
  [filePath, (getTimeString t).take 6, (getTimeString t).take 8]

def locName (t : GPSTime) : List Char := (getTimeString t).take 10 ++ ".loc".toList

def locPath (filePath : List Char) (t : GPSTime) : List (List Char) := locDirectories filePath t ++ [locName t]

abbrev Disk := FileStore (List Char) Char

structure Posting where
  cmath : Cmath ℚ
  config : PostConfig
  utcOffset : ℤ
  asString : ℚ → List Char
  outputFilePath : List Char

namespace Posting

def record (w : Posting) (post : Post) : Option LigData :=
  match post.oneComb with
  | [] => none
  | first :: rest =>
    some (postLigResult w.cmath w.config post.ligTime post.result w.utcOffset first rest post.siteMap)

def line (w : Posting) (post : Post) : Option (List Char) :=
  (w.record post).map (locLine w.asString post.ligTime)

def writeLoc (w : Posting) (disk : Disk) (post : Post) : Option Disk := do
  let line ← w.line post
  let disk ← disk.ensureAll [] (locDirectories w.outputFilePath post.ligTime)
  disk.append (locDirectories w.outputFilePath post.ligTime) (locName post.ligTime) line

end Posting

theorem getLocFileName_eq (filePath : List Char) (t : GPSTime) :
    getLocFileName filePath t = ['/'].intercalate (locPath filePath t) := by
  simp [getLocFileName, locPath, locDirectories, locName]

/-! Reading the files again. -/

def readUnsigned (text : List Char) : Option ℚ :=
  match text.splitOn '.' with
  | [whole, fraction] => some (value whole + value fraction / 10 ^ fraction.length)
  | _ => none

def readDouble (text : List Char) : Option ℚ :=
  match text with
  | '-' :: rest => (readUnsigned rest).map Neg.neg
  | rest => readUnsigned rest

structure LocEntry where
  time : List Char
  latitude : ℚ
  longitude : ℚ
  altitude : ℚ
  residual : ℚ
  numOfSta : ℤ
  type : List Char
  names : List (List Char)
  stations : List ℤ

def readLine (line : List Char) : Option LocEntry :=
  match line.splitOn ' ' with
  | [time, lat, lon, h, sq, size, _, type, _, names, ids] => do
    let latitude ← readDouble lat
    let longitude ← readDouble lon
    let altitude ← readDouble h
    let residual ← readDouble sq
    let numOfSta ← stoi size
    let stations ← (ids.splitOn '+').mapM stoi
    return ⟨time, latitude, longitude, altitude, residual, numOfSta, type, names.splitOn '+', stations⟩
  | _ => none

def readLoc (content : List Char) : List (Option LocEntry) :=
  (content.splitOn '\n').dropLast.map fun line => readLine line.dropLast

/-- An entry holds what a post reported, its numbers to half a millionth. -/
structure LocEntry.Tells (entry : LocEntry) (post : Post) : Prop where
  time : entry.time = getTimeString post.ligTime
  latitude : |entry.latitude - post.result.lat| ≤ 1 / 2000000
  longitude : |entry.longitude - post.result.lon| ≤ 1 / 2000000
  altitude : |entry.altitude - post.result.h| ≤ 1 / 2000000
  residual : |entry.residual - post.result.sq| ≤ 1 / 2000000
  numOfSta : entry.numOfSta = post.oneComb.length
  type : entry.type = if post.result.h < 2.0 then ['R', 'S'] else ['I', 'C']
  names : entry.names = post.oneComb.map fun t => (post.siteMap.value t.stationID).name.toList
  stations : entry.stations = post.oneComb.map TriggerInfo.stationID

structure Writable (post : Post) : Prop where
  within : post.ligTime.InCentury
  stations : post.oneComb ≠ []
  few : post.oneComb.length < 2 ^ 31
  fits : ∀ t ∈ post.oneComb, GPSTime.FitsInt t.stationID
  plain : ∀ t ∈ post.oneComb, ∀ c ∈ ['+', ' ', '\n'], c ∉ (post.siteMap.value t.stationID).name.toList

section Numbers

variable {x : ℚ}

theorem millionths_close (x : ℚ) : |(millionths x : ℚ) / 1000000 - (|x|)| ≤ 1 / 2000000 := by
  have scaled : 0 ≤ |x| * 1000000 := by positivity
  have natural : ((millionths x : ℕ) : ℤ) = Binary64.nearest (|x| * 1000000) :=
    Int.toNat_of_nonneg (Binary64.le_nearest (by push_cast; linarith))
  have whole : (millionths x : ℚ) = Binary64.nearest (|x| * 1000000) := by exact_mod_cast natural
  have close := Binary64.abs_nearest_sub_le (|x| * 1000000)
  rw [whole]
  rw [abs_le] at close ⊢
  constructor <;> linarith

theorem readUnsigned_scaled (n : ℕ) :
    readUnsigned (Nat.toDigits 10 (n / 1000000) ++ '.' :: column 6 (n % 1000000)) = some ((n : ℚ) / 1000000) := by
  have apart {digits : List Char} (all : ∀ c ∈ digits, c.isDigit = true) : '.' ∉ digits :=
    fun member => by simpa using all '.' member
  have split : (Nat.toDigits 10 (n / 1000000) ++ '.' :: column 6 (n % 1000000)).splitOn '.' =
      [Nat.toDigits 10 (n / 1000000), column 6 (n % 1000000)] := by
    rw [List.splitOn_append_cons_self_of_not_mem (apart (toDigits_isDigit _)),
      List.splitOn_eq_singleton (apart (column_isDigit _ _))]
  have whole : value (Nat.toDigits 10 (n / 1000000)) = n / 1000000 := Nat.ofDigitChars_toDigits (by decide) (by decide)
  have fraction : value (column 6 (n % 1000000)) = n % 1000000 :=
    value_column (Nat.mod_lt n (by norm_num))
  have parts : (n : ℚ) = (1000000 : ℚ) * (n / 1000000 : ℕ) + (n % 1000000 : ℕ) := by
    exact_mod_cast (Nat.div_add_mod n 1000000).symm
  rw [readUnsigned, split]
  simp only [whole, fraction, length_column]
  rw [Option.some.injEq, parts]
  norm_num
  ring

/-- The text of a number is read back to half a millionth. -/
theorem readDouble_toStringDouble (x : ℚ) : ∃ y, readDouble (toStringDouble x) = some y ∧ |y - x| ≤ 1 / 2000000 := by
  have scaled := millionths_close x
  have read := readUnsigned_scaled (millionths x)
  unfold toStringDouble
  split_ifs with negative
  · refine ⟨-((millionths x : ℚ) / 1000000), ?_, ?_⟩
    · rw [List.singleton_append, List.cons_append, readDouble, read]
      rfl
    · rw [abs_of_neg negative] at scaled
      rw [abs_le] at scaled ⊢
      constructor <;> linarith
  · refine ⟨(millionths x : ℚ) / 1000000, ?_, ?_⟩
    · obtain ⟨first, others, digits⟩ := List.exists_cons_of_ne_nil
        (Nat.toDigits_ne_nil (n := millionths x / 1000000) (b := 10))
      have sign : first ≠ '-' := by
        rintro rfl
        have digit := toDigits_isDigit (millionths x / 1000000) '-' (digits ▸ List.mem_cons_self)
        simp at digit
      rw [List.nil_append, ← read, digits, List.cons_append, readDouble]
      simp [sign]
    · rwa [abs_of_nonneg (not_lt.mp negative)] at scaled

theorem toStringDouble_clean {c : Char} (sign : c ≠ '-') (point : c ≠ '.') (letter : c.isDigit = false) (x : ℚ) :
    c ∉ toStringDouble x := by
  have apart {digits : List Char} (all : ∀ d ∈ digits, d.isDigit = true) : c ∉ digits :=
    fun member => by simp [all c member] at letter
  unfold toStringDouble
  simp only [List.mem_append, List.mem_cons, not_or]
  refine ⟨⟨?_, apart (toDigits_isDigit _)⟩, point, apart (column_isDigit _ _)⟩
  split_ifs
  · simpa using sign
  · simp

end Numbers

section Lines

variable {w : Posting} {post : Post} {t : GPSTime}

theorem getTimeString_clean {c : Char} (point : c ≠ '.') (letter : c.isDigit = false) (within : t.InCentury) :
    c ∉ getTimeString t := by
  have apart (width n : ℕ) : c ∉ column width n := fun member => by simp [column_isDigit width n c member] at letter
  rw [getTimeString, getTimeStr_eq within]
  simp [minuteColumns, secondColumns, apart, point]

def locFields (asString : ℚ → List Char) (ligTime : GPSTime) (d : LigData) : List (List Char) :=
  [getTimeString ligTime, toStringDouble d.latitude, toStringDouble d.longitude, toStringDouble d.altitude,
    toStringDouble d.residual, (toString (d.numOfSta : ℤ)).toList, asString d.peakCurrent, d.type, d.locationMethod,
    d.nameOfSta, d.idOfSta]

theorem locLine_eq (asString : ℚ → List Char) (ligTime : GPSTime) (d : LigData) :
    locLine asString ligTime d = [' '].intercalate (locFields asString ligTime d) ++ ['\r'] ++ ['\n'] := by
  simp [locLine, locFields]

/-- What a field must not hold for the line to fall apart at its blanks, and the file at its
line ends. -/
def Whole (field : List Char) : Prop := ' ' ∉ field ∧ '\n' ∉ field

theorem locFields_whole (numbers : ∀ x, Whole (w.asString x)) (writable : Writable post) {d : LigData}
    (record : w.record post = some d) : ∀ field ∈ locFields w.asString post.ligTime d, Whole field := by
  have number (x : ℚ) : Whole (toStringDouble x) :=
    ⟨toStringDouble_clean (by decide) (by decide) (by decide) x,
      toStringDouble_clean (by decide) (by decide) (by decide) x⟩
  have whole (n : ℤ) : Whole (toString n).toList :=
    ⟨toString_clean (by decide) (by decide) n, toString_clean (by decide) (by decide) n⟩
  have time : Whole (getTimeString post.ligTime) :=
    ⟨getTimeString_clean (by decide) (by decide) writable.within,
      getTimeString_clean (by decide) (by decide) writable.within⟩
  obtain ⟨within, stations, few, fits, plain⟩ := writable
  cases comb : post.oneComb with
  | nil => contradiction
  | cons first rest =>
    rw [comb] at plain
    simp only [Posting.record, comb, Option.some.injEq] at record
    obtain ⟨ids, names, -⟩ := postLigResult_texts w.cmath w.config post.ligTime post.result w.utcOffset post.siteMap
      first rest
    rw [record] at ids names
    have idField : Whole d.idOfSta := by
      rw [ids]
      constructor
      · exact not_mem_dropLast (by decide) (by simpa using
          ⟨(whole first.stationID).1, fun t _ => (whole t.stationID).1⟩)
      · exact not_mem_dropLast (by decide) (by simpa using
          ⟨(whole first.stationID).2, fun t _ => (whole t.stationID).2⟩)
    have nameField : Whole d.nameOfSta := by
      rw [names]
      constructor
      · refine not_mem_dropLast (by decide) fun field inside => ?_
        obtain ⟨t, member, rfl⟩ := List.mem_map.mp inside
        exact plain t member ' ' (by simp)
      · refine not_mem_dropLast (by decide) fun field inside => ?_
        obtain ⟨t, member, rfl⟩ := List.mem_map.mp inside
        exact plain t member '\n' (by simp)
    have kind : Whole d.type ∧ Whole d.locationMethod := by
      rw [← record]
      simp only [postLigResult, Whole]
      refine ⟨?_, by decide⟩
      split_ifs
      · decide
      · decide
    simpa [locFields] using ⟨time, number _, number _, number _, number _, whole _, numbers _, kind.1, kind.2,
      nameField, idField⟩

theorem readLine_locLine (numbers : ∀ x, Whole (w.asString x)) (writable : Writable post) {d : LigData}
    (record : w.record post = some d) :
    ∃ entry, readLine ([' '].intercalate (locFields w.asString post.ligTime d)) = some entry ∧ entry.Tells post := by
  have fields := locFields_whole numbers writable record
  have split := List.splitOn_intercalate ' ' (fun field inside => (fields field inside).1)
    (show locFields w.asString post.ligTime d ≠ [] from List.cons_ne_nil _ _)
  obtain ⟨latitude, lat, latClose⟩ := readDouble_toStringDouble d.latitude
  obtain ⟨longitude, lon, lonClose⟩ := readDouble_toStringDouble d.longitude
  obtain ⟨altitude, h, hClose⟩ := readDouble_toStringDouble d.altitude
  obtain ⟨residual, sq, sqClose⟩ := readDouble_toStringDouble d.residual
  obtain ⟨within, stations, few, fits, plain⟩ := writable
  cases comb : post.oneComb with
  | nil => contradiction
  | cons first rest =>
    rw [comb] at few fits plain
    simp only [Posting.record, comb, Option.some.injEq] at record
    have ids := postLigResult_stations w.cmath w.config post.ligTime post.result w.utcOffset post.siteMap fits
    have names := postLigResult_names w.cmath w.config post.ligTime post.result w.utcOffset post.siteMap
      (fun t member => plain t member '+' (by simp))
    have size : stoi (toString (d.numOfSta : ℤ)).toList = some (d.numOfSta : ℤ) := by
      refine stoi_toString ⟨by omega, ?_⟩
      rw [← record]
      exact_mod_cast few
    rw [record] at ids names
    rw [LigData.stations] at ids
    refine ⟨⟨getTimeString post.ligTime, latitude, longitude, altitude, residual, d.numOfSta, d.type, d.names, _⟩,
      ?_, ⟨rfl, ?_, ?_, ?_, ?_, ?_, ?_, ?_, rfl⟩⟩
    · rw [Int.toString_eq_repr] at size
      rw [readLine, split]
      simp [locFields, lat, lon, h, sq, size, ids, LigData.names, comb]
    · subst record
      exact latClose
    · subst record
      exact lonClose
    · subst record
      exact hClose
    · subst record
      exact sqClose
    · subst record
      rw [comb]
      rfl
    · subst record
      rfl
    · rw [comb]
      exact names

theorem Writable.record (writable : Writable post) : ∃ d, w.record post = some d := by
  cases comb : post.oneComb with
  | nil => exact absurd comb writable.stations
  | cons first rest => exact ⟨_, by rw [Posting.record, comb]⟩

/-- The lines of posts, one after another, are read as entries of these posts. -/
theorem readLoc_lines (numbers : ∀ x, Whole (w.asString x)) {posts : List Post}
    (writable : ∀ post ∈ posts, Writable post) :
    List.Forall₂ (fun entry post => ∃ e, entry = some e ∧ e.Tells post)
      (readLoc (posts.flatMap fun post => (w.line post).getD [])) posts := by
  have body (post : Post) (member : post ∈ posts) : ∃ text, (w.line post).getD [] = text ++ ['\r'] ++ ['\n'] ∧
      '\n' ∉ text ++ ['\r'] ∧ ∃ e, readLine text = some e ∧ e.Tells post := by
    obtain ⟨d, record⟩ := (writable post member).record (w := w)
    refine ⟨[' '].intercalate (locFields w.asString post.ligTime d), ?_, ?_,
      readLine_locLine numbers (writable post member) record⟩
    · rw [Posting.line, record, Option.map_some, Option.getD_some, locLine_eq]
    · have fields := locFields_whole numbers (writable post member) record
      have nonempty : locFields w.asString post.ligTime d ≠ [] := List.cons_ne_nil _ _
      rw [← dropLast_terminated nonempty, List.mem_append, not_or]
      exact ⟨not_mem_dropLast (by decide) fun field inside => (fields field inside).2, by decide⟩
  choose! text line clean entry using body
  have content : (posts.flatMap fun post => (w.line post).getD []) =
      terminated '\n' (posts.map fun post => text post ++ ['\r']) := by
    rw [terminated, List.flatMap_map]
    exact List.flatMap_congr fun post member => line post member
  have split : ((posts.flatMap fun post => (w.line post).getD []).splitOn '\n').dropLast =
      posts.map fun post => text post ++ ['\r'] := by
    rw [content, splitOn_terminated, List.dropLast_concat]
    intro field inside
    obtain ⟨post, member, rfl⟩ := List.mem_map.mp inside
    exact clean post member
  rw [readLoc, split, List.map_map, List.forall₂_map_left_iff, List.forall₂_same]
  intro post member
  obtain ⟨e, read, tells⟩ := entry post member
  exact ⟨e, by rw [Function.comp_apply, List.dropLast_concat, read], tells⟩

theorem locPath_eq_iff (filePath : List Char) {a b : GPSTime} (wa : a.InCentury) (wb : b.InCentury) :
    locPath filePath a = locPath filePath b ↔ GPSTime.SameMinute a b := by
  have whole : (getTimeStr a).take 10 = (getTimeStr b).take 10 ↔ GPSTime.SameMinute a b := by
    rw [take_getTimeStr wa, take_getTimeStr wb, minuteColumns_inj wa.inColumns wb.inColumns, and_iff_left rfl]
  rw [← whole]
  simp only [locPath, locDirectories, locName, getTimeString, List.cons_append, List.nil_append, List.cons.injEq,
    true_and, and_true, List.append_cancel_right_eq]
  constructor
  · exact fun same => same.2.2
  · intro same
    have six := congrArg (List.take 6) same
    have eight := congrArg (List.take 8) same
    rw [List.take_take, List.take_take] at six eight
    exact ⟨six, eight, same⟩

theorem writeLoc_spec {disk : Disk} (leveled : disk.Leveled w.outputFilePath 4) (writable : Writable post) :
    ∃ next line, w.line post = some line ∧ w.writeLoc disk post = some next ∧ next.Leveled w.outputFilePath 4 ∧
      ∀ path, next.content path =
        disk.content path ++ if path = locPath w.outputFilePath post.ligTime then line else [] := by
  obtain ⟨d, record⟩ := writable.record (w := w)
  have written : w.line post = some (locLine w.asString post.ligTime d) := by rw [Posting.line, record, Option.map_some]
  obtain ⟨made, next, ensured, -, -, appended, leveled', holds⟩ := FileStore.ensureAll_append leveled
    (show (locDirectories w.outputFilePath post.ligTime).head? = some w.outputFilePath from rfl) rfl
    (locName post.ligTime) (locLine w.asString post.ligTime d)
  refine ⟨next, _, written, ?_, leveled', holds⟩
  rw [Posting.writeLoc, written]
  simp [ensured, appended]

theorem foldlM_writeLoc {disk : Disk} (leveled : disk.Leveled w.outputFilePath 4) {posts : List Post}
    (writable : ∀ post ∈ posts, Writable post) :
    ∃ after, posts.foldlM w.writeLoc disk = some after ∧ ∀ t, t.InCentury →
      after.content (locPath w.outputFilePath t) = disk.content (locPath w.outputFilePath t) ++
        (posts.filter fun post => GPSTime.SameMinute t post.ligTime).flatMap fun post => (w.line post).getD [] := by
  induction posts generalizing disk with
  | nil => exact ⟨disk, rfl, fun t _ => by simp⟩
  | cons post posts ih =>
    obtain ⟨here, later⟩ := List.forall_mem_cons.mp writable
    obtain ⟨next, line, written, wrote, leveled', holds⟩ := writeLoc_spec leveled here
    obtain ⟨after, rest, grown⟩ := ih leveled' later
    refine ⟨after, by rw [List.foldlM_cons, wrote]; exact rest, fun t within => ?_⟩
    have share := locPath_eq_iff w.outputFilePath within here.within
    rw [grown t within, holds]
    by_cases same : GPSTime.SameMinute t post.ligTime
    · rw [if_pos (share.mpr same), List.filter_cons_of_pos (by simpa using same), List.flatMap_cons,
        written, Option.getD_some, List.append_assoc]
    · rw [if_neg (mt share.mp same), List.filter_cons_of_neg (by simpa using same), List.append_nil]

end Lines

/-! The workers of the pool write at the same time: the tests for the directories, the calls
that make them and the writes of several posts come in any order. -/

def Posting.job (w : Posting) (post : Post) : Appenders.Job (List Char) Char :=
  ⟨locDirectories w.outputFilePath post.ligTime, locName post.ligTime, (w.line post).getD []⟩

section Writers

variable {w : Posting} {posts : List Post}

theorem job_fits (w : Posting) (post : Post) : (w.job post).Fits w.outputFilePath 4 := ⟨rfl, rfl⟩

theorem job_path (w : Posting) (post : Post) : (w.job post).path = locPath w.outputFilePath post.ligTime := rfl

theorem texts_eq (writable : ∀ post ∈ posts, Writable post) {t : GPSTime} (within : t.InCentury) :
    ((posts.filter fun post => locPath w.outputFilePath t = (w.job post).path).flatMap fun post => (w.job post).text) =
      (posts.filter fun post => GPSTime.SameMinute t post.ligTime).flatMap fun post => (w.line post).getD [] := by
  have share : posts.filter (fun post => locPath w.outputFilePath t = (w.job post).path) =
      posts.filter fun post => GPSTime.SameMinute t post.ligTime := by
    refine List.filter_congr fun post member => ?_
    rw [job_path, decide_eq_decide]
    exact locPath_eq_iff w.outputFilePath within (writable post member).within
  rw [share]
  rfl

end Writers

/-- The workers write as if one after another: at any time in any order of their calls each file
holds what writing the posts that are through, in the order of their writes, leaves in it. No
call fails, nine calls suffice for a post, and when all have returned every line is there. -/
theorem loc_writers_agree (w : Posting) {disk : Disk} (leveled : disk.Leveled w.outputFilePath 4) {posts : List Post}
    (writable : ∀ post ∈ posts, Writable post) {events : List (Option Post)}
    {s : Appenders.Writers Post (List Char) Char}
    (reached : Machine.Reaches (Appenders.step w.job) (Appenders.start disk posts) events s) :
    events.length ≤ 9 * posts.length ∧
    (∃ after, (Appenders.finished events).foldlM w.writeLoc disk = some after ∧ ∀ t, t.InCentury →
      s.disk.content (locPath w.outputFilePath t) = after.content (locPath w.outputFilePath t)) ∧
    ((∀ i, Appenders.step w.job s i = none) → (Appenders.finished events).Perm posts) := by
  have fits : ∀ post ∈ posts, (w.job post).Fits w.outputFilePath 4 := fun post _ => job_fits w post
  have kept := Appenders.run_kept leveled fits reached
  refine ⟨by have := kept.spent; omega, ?_, Appenders.kept_complete fits kept⟩
  have through : ∀ post ∈ Appenders.finished events, Writable post :=
    fun post member => writable post (Appenders.kept_mem kept post member)
  obtain ⟨after, wrote, grown⟩ := foldlM_writeLoc leveled through
  refine ⟨after, wrote, fun t within => ?_⟩
  rw [kept.content, texts_eq through within, grown t within]

namespace Sample

def posting : Posting := ⟨overhead, postConfig, 28800, fun x => (toString x.num).toList ++ ['.', '0'], "lig_txt".toList⟩

def postAt (min sec : ℤ) : Post :=
  ⟨.ofFields 24 4 20 20 min sec 0.75, ⟨0, 0, 3, 0, 0⟩, uncalibrated :: calibrated, atOrigin⟩

theorem empty_leveled : FileStore.Leveled posting.outputFilePath 4 (FileStore.empty : Disk) :=
  ⟨fun _ _ _ => rfl, fun path _ deep => by cases path <;> simp_all [FileStore.empty]⟩

theorem postAt_writable {min sec : ℤ} (within : (GPSTime.ofFields 24 4 20 20 min sec 0.75).InCentury) :
    Writable (postAt min sec) :=
  ⟨within, List.cons_ne_nil _ _, show 3 < 2 ^ 31 by norm_num,
    show ∀ t ∈ uncalibrated :: calibrated, GPSTime.FitsInt t.stationID by decide,
    fun t _ => List.forall_mem_cons.mpr ⟨show '+' ∉ "station".toList by decide,
      List.forall_mem_cons.mpr ⟨show ' ' ∉ "station".toList by decide,
        List.forall_mem_singleton.mpr (show '\n' ∉ "station".toList by decide)⟩⟩⟩

end Sample

/-- Two workers in turn, on a disk where no directory is made yet; the second one writes
first. -/
theorem loc_writers_agree_two : ∃ events s after,
    Machine.Reaches (Appenders.step Sample.posting.job)
      (Appenders.start FileStore.empty [Sample.postAt 5 58, Sample.postAt 5 59]) events s ∧
    (Appenders.finished events).map (fun post => post.ligTime.sec) = [59, 58] ∧
    (Appenders.finished events).foldlM Sample.posting.writeLoc FileStore.empty = some after ∧
    s.disk.content (locPath "lig_txt".toList (.ofFields 24 4 20 20 5 0 0)) =
      after.content (locPath "lig_txt".toList (.ofFields 24 4 20 20 5 0 0)) := by
  obtain ⟨⟨events, s⟩, ran, wrote⟩ := Option.map_eq_some_iff.mp
    (show (Machine.run (Appenders.step Sample.posting.job)
        (Appenders.start FileStore.empty [Sample.postAt 5 58, Sample.postAt 5 59])
        [0, 1, 1, 0, 0, 1, 1, 0, 0, 1, 1, 0, 0, 1, 1, 0, 1, 0]).map
        (fun r => (Appenders.finished r.1).map fun post => post.ligTime.sec) = some [59, 58] by decide +kernel)
  obtain ⟨_, ⟨after, written, same⟩, _⟩ := loc_writers_agree Sample.posting Sample.empty_leveled
    (show ∀ post ∈ [Sample.postAt 5 58, Sample.postAt 5 59], Writable post from
      List.forall_mem_cons.mpr ⟨Sample.postAt_writable (by decide +kernel),
        List.forall_mem_singleton.mpr (Sample.postAt_writable (by decide +kernel))⟩) ⟨_, ran⟩
  exact ⟨events, s, after, ⟨_, ran⟩, wrote, written, same _ (by decide +kernel)⟩

end LigDataParsing
