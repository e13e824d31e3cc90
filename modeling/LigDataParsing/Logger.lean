import LigDataParsing.LocFile

/-! The log, one file for each day in a directory for its month. `file_` is closed when the
day's file is missing, and opened again when it is closed. -/
namespace LigDataParsing

open Decimal

/-- `strftime` of `%Y%m%d` for a second since the beginning of 1970, in UTC. -/
def logDate (now : ℤ) : List Char :=
  let p := Gregorian.ofSeconds now
  padded 4 p.year ++ (padded 2 p.month ++ padded 2 p.day)

def logFolder (filePath : List Char) (now : ℤ) : List (List Char) := [filePath, (logDate now).take 6]

def logName (now : ℤ) : List Char := logDate now ++ ".log".toList

def logPath (filePath : List Char) (now : ℤ) : List (List Char) := logFolder filePath now ++ [logName now]

/-- What a logging macro is used with: the seconds at which it makes its text and at which it
has the mutex, and the parts of the text. -/
structure LogCall where
  made : ℤ
  now : ℤ
  level : List Char
  fileName : List Char
  line : ℕ
  message : List Char

def LogCall.rawLog (call : LogCall) : List Char :=
  let p := Gregorian.ofSeconds call.made
  '[' :: call.level ++ "][".toList ++ padded 4 p.year ++ '-' :: padded 2 p.month ++ '-' :: padded 2 p.day ++
    ' ' :: padded 2 p.hour ++ ':' :: padded 2 p.minute ++ ':' :: padded 2 p.second ++ ']' :: call.fileName ++
    " (".toList ++ (toString call.line).toList ++ "): ".toList ++ call.message

/-- The static members, and the files. `file` is a second of the day whose file is open. -/
structure Logger where
  file : Option ℤ
  disk : Disk

namespace Logger

def init (filePath : List Char) (disk : Disk) : Option Logger := (disk.ensure [] filePath).map fun disk => ⟨none, disk⟩

/-- `file_.open` of a day's file, to write at its end; it stays closed if that fails. -/
def openFile (filePath : List Char) (now : ℤ) (s : Logger) : Logger :=
  match s.disk.append (logFolder filePath now) (logName now) [] with
  | none => s
  | some disk => ⟨some now, disk⟩

/-- `file_ << value`, which does nothing to a closed file. -/
def write (filePath value : List Char) (s : Logger) : Logger :=
  match s.file with
  | none => s
  | some day => { s with disk := (s.disk.append (logFolder filePath day) (logName day) value).getD s.disk }

/-- `create_directory` throws when the directory for the month cannot be made. -/
def tryLogDaily (filePath : List Char) (now : ℤ) (value : List Char) (s : Logger) : Option Logger := do
  let disk ← s.disk.ensure [filePath] ((logDate now).take 6)
  let s : Logger := ⟨if disk.pathExists (logPath filePath now) then s.file else none, disk⟩
  return (if s.file.isNone then s.openFile filePath now else s).write filePath value

def run (filePath : List Char) (disk : Disk) (calls : List LogCall) : Option Logger := do
  calls.foldlM (fun s call => s.tryLogDaily filePath call.now call.rawLog) (← init filePath disk)

end Logger

def SameDay (a b : ℤ) : Prop := a / 86400 = b / 86400

instance (a b : ℤ) : Decidable (SameDay a b) := inferInstanceAs (Decidable (_ = _))

def InEra (now : ℤ) : Prop := 0 ≤ now ∧ now < 253402300800

instance (now : ℤ) : Decidable (InEra now) := inferInstanceAs (Decidable (_ ∧ _))

section Dates

variable {a b : ℤ}

theorem InEra.year (within : InEra a) : 0 ≤ (Gregorian.ofSeconds a).year ∧ (Gregorian.ofSeconds a).year < 10 ^ 4 := by
  obtain ⟨lower, upper⟩ := within
  have bounds := Gregorian.yearOfDay_bounds (a / 86400 + 719162)
  change 0 ≤ Gregorian.yearOfDay (a / 86400 + 719162) ∧ Gregorian.yearOfDay (a / 86400 + 719162) < 10 ^ 4
  generalize Gregorian.yearOfDay (a / 86400 + 719162) = year at bounds ⊢
  unfold Gregorian.daysBeforeYear at bounds
  constructor <;> omega

theorem ofSeconds_day (a : ℤ) : (Gregorian.ofSeconds a).dayNumber = a / 86400 := by
  have whole := Gregorian.toSeconds_ofSeconds a
  have time := (Gregorian.ofSeconds_valid a).secondOfDay_bounds
  unfold Gregorian.DateTime.toSeconds at whole
  omega

theorem logDate_inj (wa : InEra a) (wb : InEra b) : logDate a = logDate b ↔ SameDay a b := by
  have column {width : ℕ} {n m : ℤ} {s t : List Char} (positive : 0 < width) (hn : 0 ≤ n ∧ n < 10 ^ width)
      (hm : 0 ≤ m ∧ m < 10 ^ width) : padded width n ++ s = padded width m ++ t ↔ n = m ∧ s = t := by
    rw [padded_eq_column positive hn.1 hn.2, padded_eq_column positive hm.1 hm.2, toNat_append_inj hn hm]
  have va := Gregorian.ofSeconds_valid a
  have vb := Gregorian.ofSeconds_valid b
  have month {t : Gregorian.DateTime} (valid : t.Valid) : 0 ≤ t.month ∧ t.month < 10 ^ 2 := by
    have := valid.month
    omega
  have day {t : Gregorian.DateTime} (valid : t.Valid) : 0 ≤ t.day ∧ t.day < 10 ^ 2 := by
    have := valid.day
    have := Gregorian.daysInMonth_bounds t.year t.month
    omega
  constructor
  · intro same
    rw [logDate, logDate, column (by decide) wa.year wb.year, column (by decide) (month va) (month vb),
      ← List.append_nil (padded 2 (Gregorian.ofSeconds a).day),
      ← List.append_nil (padded 2 (Gregorian.ofSeconds b).day),
      column (by decide) (day va) (day vb)] at same
    obtain ⟨sameYear, sameMonth, sameDay, -⟩ := same
    rw [SameDay, ← ofSeconds_day, ← ofSeconds_day, Gregorian.DateTime.dayNumber, Gregorian.DateTime.dayNumber,
      Gregorian.DateTime.dayOfYear, Gregorian.DateTime.dayOfYear, sameYear, sameMonth, sameDay]
  · intro same
    have date : (Gregorian.ofSeconds a).year = (Gregorian.ofSeconds b).year ∧
        (Gregorian.ofSeconds a).month = (Gregorian.ofSeconds b).month ∧
        (Gregorian.ofSeconds a).day = (Gregorian.ofSeconds b).day := by
      simp only [Gregorian.ofSeconds, show a / 86400 = b / 86400 from same, and_self]
    rw [logDate, logDate, date.1, date.2.1, date.2.2]

theorem logPath_inj (filePath : List Char) (wa : InEra a) (wb : InEra b) :
    logPath filePath a = logPath filePath b ↔ SameDay a b := by
  rw [← logDate_inj wa wb]
  constructor
  · intro same
    have names := List.append_inj_right' same rfl
    exact List.append_cancel_right (List.cons.inj names).1
  · intro same
    rw [logPath, logPath, logFolder, logFolder, logName, logName, same]

end Dates

namespace Logger

structure Ready (filePath : List Char) (s : Logger) : Prop where
  leveled : s.disk.Leveled filePath 3
  base : s.disk.isDirectory [filePath] = true
  folder : ∀ day ∈ s.file, s.disk.isDirectory (logFolder filePath day) = true
  there : ∀ day ∈ s.file, (s.disk.file (logPath filePath day)).isSome = true
  within : ∀ day ∈ s.file, InEra day

def target (filePath : List Char) (now : ℤ) (s : Logger) : ℤ :=
  if (s.disk.file (logPath filePath now)).isSome then s.file.getD now else now

structure Logged (filePath value : List Char) (day : ℤ) (s next : Logger) : Prop where
  ready : next.Ready filePath
  opened : next.file = some day
  holds : ∀ path, next.disk.content path = s.disk.content path ++ if path = logPath filePath day then value else []
  files : ∀ path, (next.disk.file path).isSome = true ↔
    path = logPath filePath day ∨ (s.disk.file path).isSome = true

section Steps

variable {filePath value : List Char} {now day : ℤ} {s next : Logger} {disk : Disk}

theorem init_spec (leveled : disk.Leveled filePath 3) : ∃ s, init filePath disk = some s ∧ s.Ready filePath ∧
    s.file = none ∧ s.disk.file = disk.file := by
  obtain ⟨made, ensured, there, same, leveled'⟩ := FileStore.ensure_spec leveled
    (show ([] ++ [filePath]).head? = some filePath from rfl) disk.root (by simp)
  refine ⟨⟨none, made⟩, by rw [init, ensured, Option.map_some], ⟨leveled', there, ?_, ?_, ?_⟩, rfl, same⟩
  all_goals simp

theorem append_logged (ready : s.Ready filePath) (folder : s.disk.isDirectory (logFolder filePath day) = true)
    (within : InEra day) (value : List Char) :
    ∃ disk, s.disk.append (logFolder filePath day) (logName day) value = some disk ∧
      Logged filePath value day s ⟨some day, disk⟩ := by
  obtain ⟨disk, appended, leveled, holds⟩ := FileStore.append_spec value ready.leveled
    (show (logFolder filePath day ++ [logName day]).head? = some filePath from rfl) folder rfl
  have directories := FileStore.append_isDirectory appended
  have files := FileStore.append_isSome appended
  refine ⟨disk, appended, ⟨leveled, ?_, ?_, ?_, ?_⟩, rfl, holds, files⟩
  · rw [directories]
    exact ready.base
  · rintro _ ⟨⟩
    rw [directories]
    exact folder
  · rintro _ ⟨⟩
    exact (files _).mpr (.inl rfl)
  · rintro _ ⟨⟩
    exact within

theorem write_logged (ready : s.Ready filePath) (opened : s.file = some day) (value : List Char) :
    Logged filePath value day s (s.write filePath value) := by
  obtain ⟨disk, appended, logged⟩ := append_logged ready (ready.folder day opened) (ready.within day opened) value
  have written : s.write filePath value = ⟨some day, disk⟩ := by
    rw [write, opened]
    simp [appended]
  rw [written]
  exact logged

/-- A file that was closed, or is missing, is opened before the text is written. -/
theorem openFile_logged (ready : s.Ready filePath) (folder : s.disk.isDirectory (logFolder filePath now) = true)
    (within : InEra now) (value : List Char) :
    Logged filePath value now s ((s.openFile filePath now).write filePath value) := by
  obtain ⟨disk, appended, opened⟩ := append_logged ready folder within []
  have there : s.openFile filePath now = ⟨some now, disk⟩ := by rw [openFile, appended]
  have written := write_logged opened.ready rfl value
  rw [there]
  refine ⟨written.ready, written.opened, fun path => ?_, fun path => ?_⟩
  · rw [written.holds, opened.holds]
    simp
  · rw [written.files, opened.files]
    tauto

theorem Logged.of_same (logged : Logged filePath value day s next) {before : Logger}
    (same : s.disk.file = before.disk.file) : Logged filePath value day before next := by
  refine ⟨logged.ready, logged.opened, fun path => ?_, fun path => ?_⟩
  · rw [logged.holds, FileStore.content, FileStore.content, same]
  · rw [logged.files, same]

theorem tryLogDaily_spec (ready : s.Ready filePath) (within : InEra now) (value : List Char) :
    ∃ next, s.tryLogDaily filePath now value = some next ∧ Logged filePath value (s.target filePath now) s next := by
  obtain ⟨made, ensured, folder, same, leveled⟩ := FileStore.ensure_spec ready.leveled
    (show ([filePath] ++ [(logDate now).take 6]).head? = some filePath from rfl) ready.base (by simp)
  have plain : made.isDirectory (logPath filePath now) = false := leveled.leaves _ rfl rfl
  have kept : Ready filePath ⟨s.file, made⟩ :=
    ⟨leveled, FileStore.ensure_isDirectory ensured ready.base,
      fun day opened => FileStore.ensure_isDirectory ensured (ready.folder day opened),
      fun day opened => by rw [same]; exact ready.there day opened, ready.within⟩
  have closed : Ready filePath ⟨none, made⟩ := ⟨leveled, kept.base, by simp, by simp, by simp⟩
  rw [tryLogDaily, ensured]
  simp only [Option.bind_eq_bind, Option.bind_some, FileStore.pathExists, plain, Bool.false_or, same]
  refine ⟨_, rfl, Logged.of_same (s := ⟨s.file, made⟩) ?_ same⟩
  by_cases there : (s.disk.file (logPath filePath now)).isSome = true
  · rw [if_pos there, target, if_pos there]
    cases opened : s.file with
    | none => exact (openFile_logged closed folder within value).of_same rfl
    | some day =>
      rw [opened] at kept
      exact write_logged kept rfl value
  · rw [if_neg there, target, if_neg there]
    exact (openFile_logged closed folder within value).of_same rfl

end Steps

end Logger

def dayTexts (t : ℤ) (calls : List LogCall) : List Char :=
  (calls.filter fun call => SameDay t call.now).flatMap LogCall.rawLog

theorem dayTexts_cons (t : ℤ) (call : LogCall) (calls : List LogCall) :
    dayTexts t (call :: calls) = (if SameDay t call.now then call.rawLog else []) ++ dayTexts t calls := by
  by_cases same : SameDay t call.now
  · simp [dayTexts, same]
  · simp [dayTexts, same]

theorem rawLog_ne_nil (call : LogCall) : call.rawLog ≠ [] := by simp [LogCall.rawLog]

theorem SameDay.between {a b c : ℤ} (same : SameDay a c) (after : a ≤ b) (before : b ≤ c) : SameDay b c := by
  unfold SameDay at same ⊢
  omega

namespace Logger

section Runs

variable {filePath : List Char} {s : Logger} {calls : List LogCall}

theorem target_within {now : ℤ} (ready : s.Ready filePath) (within : InEra now) : InEra (s.target filePath now) := by
  unfold target
  split_ifs
  · cases opened : s.file with
    | none => exact within
    | some day => exact ready.within day opened
  · exact within

/-- As long as every day that begins finds no file of its own, each day's texts go to its file. -/
theorem foldlM_own {day : ℤ} (ready : s.Ready filePath) (opened : s.file = some day)
    (clock : (day :: calls.map LogCall.now).Pairwise (· ≤ ·)) (era : ∀ call ∈ calls, InEra call.now)
    (fresh : ∀ call ∈ calls, SameDay day call.now ∨ s.disk.file (logPath filePath call.now) = none) :
    ∃ after, calls.foldlM (fun s call => s.tryLogDaily filePath call.now call.rawLog) s = some after ∧
      ∀ t, InEra t → after.disk.content (logPath filePath t) =
        s.disk.content (logPath filePath t) ++ dayTexts t calls := by
  induction calls generalizing s day with
  | nil => exact ⟨s, rfl, fun t _ => by simp [dayTexts]⟩
  | cons call rest ih =>
    obtain ⟨within, era⟩ := List.forall_mem_cons.mp era
    obtain ⟨here, fresh⟩ := List.forall_mem_cons.mp fresh
    simp only [List.map_cons, List.pairwise_cons, List.mem_cons, forall_eq_or_imp] at clock
    obtain ⟨⟨now, later⟩, ordered, clock⟩ := clock
    have wd := ready.within day opened
    have chosen : (s.target filePath call.now = day ∨ s.target filePath call.now = call.now) ∧
        SameDay (s.target filePath call.now) call.now := by
      rcases here with same | missing
      · have there : (s.disk.file (logPath filePath call.now)).isSome = true := by
          rw [← (logPath_inj filePath wd within).mpr same]
          exact ready.there day opened
        rw [target, if_pos there, opened, Option.getD_some]
        exact ⟨.inl rfl, same⟩
      · rw [target, missing]
        exact ⟨.inr rfl, rfl⟩
    have wt := target_within ready within
    obtain ⟨next, stepped, logged⟩ := tryLogDaily_spec ready within call.rawLog
    obtain ⟨after, ran, grown⟩ := ih logged.ready logged.opened
      (List.pairwise_cons.mpr ⟨fun t member => by
        rcases chosen.1 with same | same
        · rw [same]
          exact later t member
        · rw [same]
          exact ordered t member, clock⟩) era fun c member => by
        by_cases same : SameDay (s.target filePath call.now) c.now
        · exact .inl same
        · refine .inr (Option.not_isSome_iff_eq_none.mp fun there => ?_)
          rcases (logged.files _).mp there with path | before
          · exact same ((logPath_inj filePath (era c member) wt).mp path).symm
          · rcases fresh c member with sameDay | missing
            · exact same (chosen.2.trans (sameDay.between now (ordered _ (List.mem_map_of_mem member))))
            · simp [missing] at before
    refine ⟨after, by rw [List.foldlM_cons, stepped]; exact ran, fun t wt' => ?_⟩
    have share : logPath filePath t = logPath filePath (s.target filePath call.now) ↔ SameDay t call.now := by
      rw [logPath_inj filePath wt' wt]
      exact ⟨fun same => same.trans chosen.2, fun same => same.trans chosen.2.symm⟩
    rw [grown t wt', logged.holds, dayTexts_cons, List.append_assoc]
    simp only [share]

/-- A file that is there while another one is open is not written to any more. -/
theorem foldlM_stray {day t : ℤ} (ready : s.Ready filePath) (opened : s.file = some day) (elsewhere : ¬SameDay day t)
    (wt : InEra t) (there : (s.disk.file (logPath filePath t)).isSome = true) (era : ∀ call ∈ calls, InEra call.now) :
    ∃ after, calls.foldlM (fun s call => s.tryLogDaily filePath call.now call.rawLog) s = some after ∧
      after.disk.content (logPath filePath t) = s.disk.content (logPath filePath t) := by
  induction calls generalizing s day with
  | nil => exact ⟨s, rfl, rfl⟩
  | cons call rest ih =>
    obtain ⟨within, era⟩ := List.forall_mem_cons.mp era
    have other : ¬SameDay (s.target filePath call.now) t := by
      unfold target
      split_ifs with present
      · rw [opened, Option.getD_some]
        exact elsewhere
      · intro same
        rw [(logPath_inj filePath within wt).mpr same] at present
        exact present there
    have apart : logPath filePath t ≠ logPath filePath (s.target filePath call.now) :=
      fun path => other ((logPath_inj filePath wt (target_within ready within)).mp path).symm
    obtain ⟨next, stepped, logged⟩ := tryLogDaily_spec ready within call.rawLog
    obtain ⟨after, ran, kept⟩ := ih logged.ready logged.opened other ((logged.files _).mpr (.inr there)) era
    refine ⟨after, by rw [List.foldlM_cons, stepped]; exact ran, ?_⟩
    rw [kept, logged.holds, if_neg apart, List.append_nil]

end Runs

end Logger

/-- While the clock is not set back, no call fails, and each day's file grows by just the texts
of its day exactly if none of the days that begin during the run has a file already. -/
theorem daily_logs (filePath : List Char) {disk : Disk} (leveled : disk.Leveled filePath 3) {first : LogCall}
    {calls : List LogCall} (clock : ((first :: calls).map LogCall.now).Pairwise (· ≤ ·))
    (era : ∀ call ∈ first :: calls, InEra call.now) :
    ∃ after, Logger.run filePath disk (first :: calls) = some after ∧
      ((∀ t, InEra t → after.disk.content (logPath filePath t) =
          disk.content (logPath filePath t) ++ dayTexts t (first :: calls)) ↔
        ∀ call ∈ calls, SameDay first.now call.now ∨ disk.file (logPath filePath call.now) = none) := by
  obtain ⟨within, later⟩ := List.forall_mem_cons.mp era
  obtain ⟨s, started, ready, closed, same⟩ := Logger.init_spec leveled
  have target : s.target filePath first.now = first.now := by simp [Logger.target, closed]
  obtain ⟨next, stepped, logged⟩ := Logger.tryLogDaily_spec ready within first.rawLog
  rw [target] at logged
  have content (path : List (List Char)) : next.disk.content path =
      disk.content path ++ if path = logPath filePath first.now then first.rawLog else [] := by
    rw [logged.holds, FileStore.content, FileStore.content, same]
  have run (after : Logger) (ran : calls.foldlM (fun s call => s.tryLogDaily filePath call.now call.rawLog) next =
      some after) : Logger.run filePath disk (first :: calls) = some after := by
    rw [Logger.run, started]
    simp only [Option.bind_eq_bind, Option.bind_some, List.foldlM_cons, stepped]
    exact ran
  by_cases fresh : ∀ call ∈ calls, SameDay first.now call.now ∨ disk.file (logPath filePath call.now) = none
  · obtain ⟨after, ran, grown⟩ := Logger.foldlM_own logged.ready logged.opened clock later fun call member => by
      by_cases sameDay : SameDay first.now call.now
      · exact .inl sameDay
      · refine .inr (Option.not_isSome_iff_eq_none.mp fun there => ?_)
        rcases (logged.files _).mp there with path | before
        · exact sameDay ((logPath_inj filePath (later call member) within).mp path).symm
        · rw [same, (fresh call member).resolve_left sameDay] at before
          contradiction
    refine ⟨after, run after ran, iff_of_true (fun t wt => ?_) fresh⟩
    rw [grown t wt, content, dayTexts_cons, List.append_assoc]
    simp only [logPath_inj filePath wt within]
  · simp only [not_forall, not_or] at fresh
    obtain ⟨call, member, another, there⟩ := fresh
    have present : (next.disk.file (logPath filePath call.now)).isSome = true := by
      rw [logged.files, same]
      exact .inr (Option.isSome_iff_ne_none.mpr there)
    obtain ⟨after, ran, kept⟩ :=
      Logger.foldlM_stray logged.ready logged.opened another (later call member) present later
    refine ⟨after, run after ran, iff_of_false (fun own => ?_) fun fresh =>
      (fresh call member).elim another there⟩
    have apart : logPath filePath call.now ≠ logPath filePath first.now :=
      fun path => another ((logPath_inj filePath (later call member) within).mp path).symm
    have nothing := own call.now (later call member)
    rw [kept, content, if_neg apart, List.append_nil, List.self_eq_append_right, dayTexts,
      List.flatMap_eq_nil_iff] at nothing
    exact rawLog_ne_nil call (nothing call (List.mem_filter.mpr ⟨List.mem_cons_of_mem _ member, decide_eq_true rfl⟩))

namespace Sample

def logAt (now : ℤ) : LogCall := ⟨now, now, "LOG_INFO".toList, "main".toList, 29, "Logger init successfully!\n".toList⟩

end Sample

/-- The second and the third text are of the next day. -/
theorem daily_logs_midnight : ∃ after,
    Logger.run "log".toList FileStore.empty
      [Sample.logAt 1713657599, Sample.logAt 1713657600, Sample.logAt 1713657601] = some after ∧
    after.disk.content (logPath "log".toList 1713657599) = (Sample.logAt 1713657599).rawLog ∧
    after.disk.content (logPath "log".toList 1713657600) =
      (Sample.logAt 1713657600).rawLog ++ (Sample.logAt 1713657601).rawLog := by
  have leveled : FileStore.Leveled "log".toList 3 (FileStore.empty : Disk) :=
    ⟨fun _ _ _ => rfl, fun path _ deep => by cases path <;> simp_all [FileStore.empty]⟩
  obtain ⟨after, ran, own⟩ := daily_logs "log".toList leveled
    (show ([Sample.logAt 1713657599, Sample.logAt 1713657600, Sample.logAt 1713657601].map LogCall.now).Pairwise (· ≤ ·)
      by decide) (by decide)
  have days := own.mpr fun _ _ => .inr rfl
  have first := days 1713657599 (by decide)
  have second := days 1713657600 (by decide)
  rw [dayTexts_cons, dayTexts_cons, dayTexts_cons, if_pos (by decide), if_neg (by decide), if_neg (by decide)] at first
  rw [dayTexts_cons, dayTexts_cons, dayTexts_cons, if_neg (by decide), if_pos (by decide), if_pos (by decide)] at second
  refine ⟨after, ran, ?_, ?_⟩
  · simpa [dayTexts, FileStore.content, FileStore.empty] using first
  · simpa [dayTexts, FileStore.content, FileStore.empty] using second

end LigDataParsing
