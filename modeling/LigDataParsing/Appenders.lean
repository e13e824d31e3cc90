import LigDataParsing.FileStore
import LigDataParsing.Machine
import LigDataParsing.Positions
import Mathlib.Data.List.ReduceOption

/-! Writers that share a file store. Each goes down the directories of its file, asks for every
one whether it exists and makes it if it does not, then opens the file and appends a text. They
take turns after each call, so what one has found out may have changed when it goes on. -/
namespace Appenders

variable {τ ν α : Type*}

structure Job (ν α : Type*) where
  directories : List ν
  name : ν
  text : List α

def Job.path (job : Job ν α) : List ν := job.directories ++ [job.name]

inductive Point where
  /-- About to ask for the `k`-th directory. -/
  | check (k : ℕ)
  /-- About to make it. -/
  | create (k : ℕ)
  | openFile
  | write
  | done

structure Writer (τ : Type*) where
  task : τ
  point : Point

structure Writers (τ ν α : Type*) where
  disk : FileStore ν α
  writers : List (Writer τ)

def Writer.done? (writer : Writer τ) : Option τ :=
  match writer.point with
  | .done => some writer.task
  | _ => none

def Point.left (depth : ℕ) : Point → ℕ
  | .check k => 2 * (depth - k) + 3
  | .create k => 2 * (depth - k) + 2
  | .openFile => 2
  | .write => 1
  | .done => 0

def start (disk : FileStore ν α) (tasks : List τ) : Writers τ ν α := ⟨disk, tasks.map fun task => ⟨task, .check 0⟩⟩

variable [DecidableEq ν]

/-- One call, which shows whether the text was written by it. A file that cannot be opened is
given up; a directory that cannot be made throws. -/
def act (disk : FileStore ν α) (job : Job ν α) : Point → Option (Bool × FileStore ν α × Point)
  | .check k =>
    if k < job.directories.length then
      if disk.pathExists (job.directories.take (k + 1)) then some (false, disk, .check (k + 1))
      else some (false, disk, .create k)
    else some (false, disk, .openFile)
  | .create k => job.directories[k]?.bind fun name =>
    (disk.createDirectory (job.directories.take k) name).map fun disk => (false, disk, .check (k + 1))
  | .openFile =>
    match disk.append job.directories job.name [] with
    | none => some (false, disk, .done)
    | some disk => some (false, disk, .write)
  | .write => (disk.append job.directories job.name job.text).map fun disk => (true, disk, .done)
  | .done => none

def step (job : τ → Job ν α) (s : Writers τ ν α) (i : ℕ) : Option (Option τ × Writers τ ν α) :=
  match s.writers[i]? with
  | none => none
  | some writer => (act s.disk (job writer.task) writer.point).map fun acted =>
    (if acted.1 then some writer.task else none, ⟨acted.2.1, s.writers.set i ⟨writer.task, acted.2.2⟩⟩)

/-- What a writer can rely on, whatever the others do meanwhile. -/
def Ready (disk : FileStore ν α) (job : Job ν α) : Point → Prop
  | .check k => disk.isDirectory (job.directories.take k) = true
  | .create k => k < job.directories.length ∧ disk.isDirectory (job.directories.take k) = true
  | .openFile | .write => disk.isDirectory job.directories = true
  | .done => True

structure Job.Fits (base : ν) (n : ℕ) (job : Job ν α) : Prop where
  under : job.directories.head? = some base
  deep : job.directories.length + 1 = n

section Call

variable {base : ν} {n : ℕ} {disk : FileStore ν α} {job : Job ν α} {point : Point}

omit [DecidableEq ν] in
theorem Ready.mono {next : FileStore ν α} (ready : Ready disk job point)
    (kept : ∀ path, disk.isDirectory path = true → next.isDirectory path = true) : Ready next job point := by
  cases point with
  | check k => exact kept _ ready
  | create k => exact ⟨ready.1, kept _ ready.2⟩
  | openFile | write => exact kept _ ready
  | done => trivial

structure Called (base : ν) (n : ℕ) (disk : FileStore ν α) (job : Job ν α) (point : Point) (wrote : Bool)
    (next : FileStore ν α) (after : Point) : Prop where
  leveled : next.Leveled base n
  ready : Ready next job after
  directories : ∀ path, disk.isDirectory path = true → next.isDirectory path = true
  content : ∀ path, next.content path = disk.content path ++ if wrote ∧ path = job.path then job.text else []
  less : after.left job.directories.length < point.left job.directories.length
  ends : after = .done ↔ wrote = true

theorem Called.silent {next : FileStore ν α} {after : Point} (leveled : next.Leveled base n)
    (ready : Ready next job after) (directories : ∀ path, disk.isDirectory path = true → next.isDirectory path = true)
    (files : next.file = disk.file) (less : after.left job.directories.length < point.left job.directories.length)
    (going : after ≠ .done) : Called base n disk job point false next after := by
  refine ⟨leveled, ready, directories, fun path => ?_, less, by simpa using going⟩
  simp [FileStore.content, files]

/-- A writer that is not done can always go on, and nothing it does is lost or in vain. -/
theorem act_spec (leveled : disk.Leveled base n) (fits : job.Fits base n) (ready : Ready disk job point)
    (going : point ≠ .done) :
    ∃ wrote next after, act disk job point = some (wrote, next, after) ∧
      Called base n disk job point wrote next after := by
  obtain ⟨under, deep⟩ := fits
  have part {k : ℕ} {name : ν} (held : job.directories[k]? = some name) :
      job.directories.take (k + 1) = job.directories.take k ++ [name] := by
    rw [List.take_add_one, held, Option.toList_some]
  have within {k : ℕ} {name : ν} (held : job.directories[k]? = some name) :
      (job.directories.take k ++ [name]).head? = some base := by
    rw [← part held, List.head?_take, if_neg (Nat.succ_ne_zero k), under]
  have inFile : job.path.head? = some base := by
    rw [Job.path, List.head?_append, under]
    rfl
  cases point with
  | check k =>
    by_cases more : k < job.directories.length
    · have held : job.directories[k]? = some job.directories[k] := List.getElem?_eq_getElem more
      have shallow : (job.directories.take k).length + 1 < n := by
        rw [List.length_take]
        omega
      by_cases there : disk.pathExists (job.directories.take (k + 1)) = true
      · refine ⟨false, disk, .check (k + 1), by simp [act, more, there], .silent leveled ?_ (fun _ same => same) rfl ?_
          (by simp)⟩
        · rw [part held] at there
          rw [Ready, part held]
          exact FileStore.isDirectory_of_exists leveled (within held) shallow there
        · simp only [Point.left]
          omega
      · refine ⟨false, disk, .create k, by simp [act, more, there], .silent leveled ⟨more, ready⟩ (fun _ same => same)
          rfl ?_ (by simp)⟩
        simp only [Point.left]
        omega
    · have whole : job.directories.take k = job.directories := List.take_of_length_le (Nat.le_of_not_lt more)
      have ready : Ready disk job .openFile := by
        rw [Ready, whole] at ready
        exact ready
      refine ⟨false, disk, .openFile, by simp [act, more], .silent leveled ready (fun _ same => same) rfl ?_ (by simp)⟩
      simp only [Point.left]
      omega
  | create k =>
    obtain ⟨more, parent⟩ := ready
    have held : job.directories[k]? = some job.directories[k] := List.getElem?_eq_getElem more
    have shallow : (job.directories.take k).length + 1 < n := by
      rw [List.length_take]
      omega
    obtain ⟨next, created, made, files, leveled'⟩ :=
      FileStore.createDirectory_spec leveled (within held) parent shallow
    refine ⟨false, next, .check (k + 1), by simp [act, held, created], .silent leveled' ?_
      (fun _ => FileStore.createDirectory_isDirectory created) files ?_ (by simp)⟩
    · rw [Ready, part held]
      exact made
    · simp only [Point.left]
      omega
  | openFile =>
    obtain ⟨next, opened, leveled', holds⟩ := FileStore.append_spec [] leveled inFile ready deep
    have directories := FileStore.append_isDirectory opened
    refine ⟨false, next, .write, by simp [act, opened], leveled', ?_, ?_, ?_, by simp [Point.left], by simp⟩
    · rw [Ready, directories]
      exact ready
    · exact fun path same => directories ▸ same
    · simpa using holds
  | write =>
    obtain ⟨next, appended, leveled', holds⟩ := FileStore.append_spec job.text leveled inFile ready deep
    have directories := FileStore.append_isDirectory appended
    refine ⟨true, next, .done, by simp [act, appended], leveled', trivial, ?_, ?_, by simp [Point.left], by simp⟩
    · exact fun path same => directories ▸ same
    · simpa [Job.path] using holds
  | done => exact absurd rfl going

end Call

/-- The tasks whose texts have been written, in the order of the writes. -/
def finished (events : List (Option τ)) : List τ := events.reduceOption

def Writer.left (job : τ → Job ν α) (writer : Writer τ) : ℕ := writer.point.left (job writer.task).directories.length

/-- What holds at any time: each file holds what it held before and the texts written to it
since, in order, and those are the texts of the writers that are done. -/
structure Kept (job : τ → Job ν α) (base : ν) (n : ℕ) (disk : FileStore ν α) (tasks : List τ)
    (events : List (Option τ)) (s : Writers τ ν α) : Prop where
  leveled : s.disk.Leveled base n
  same : s.writers.map Writer.task = tasks
  ready : ∀ writer ∈ s.writers, Ready s.disk (job writer.task) writer.point
  content : ∀ path, s.disk.content path = disk.content path ++
    ((finished events).filter fun task => path = (job task).path).flatMap fun task => (job task).text
  finished : (finished events).Perm (s.writers.filterMap Writer.done?)
  spent : events.length + (s.writers.map (Writer.left job)).sum ≤ (2 * n + 1) * tasks.length

section Run

variable {job : τ → Job ν α} {base : ν} {n : ℕ} {disk : FileStore ν α} {tasks : List τ} {events : List (Option τ)}
  {s next : Writers τ ν α} {i : ℕ} {event : Option τ}

theorem step_cases (stepped : step job s i = some (event, next)) :
    ∃ writer wrote disk after, s.writers[i]? = some writer ∧
      act s.disk (job writer.task) writer.point = some (wrote, disk, after) ∧
      event = (if wrote then some writer.task else none) ∧ next = ⟨disk, s.writers.set i ⟨writer.task, after⟩⟩ := by
  simp only [step] at stepped
  split at stepped
  · contradiction
  · rename_i writer held
    obtain ⟨⟨wrote, disk, after⟩, acted, done⟩ := Option.map_eq_some_iff.mp stepped
    cases done
    exact ⟨writer, wrote, disk, after, held, acted, rfl, rfl⟩

theorem Writer.done?_none {writer : Writer τ} (going : writer.point ≠ .done) : writer.done? = none := by
  obtain ⟨task, point⟩ := writer
  cases point with
  | done => exact absurd rfl going
  | check | create | openFile | write => rfl

theorem finished_snoc (events : List (Option τ)) (event : Option τ) :
    finished (events ++ [event]) = finished events ++ event.toList := by
  rw [finished, List.reduceOption_append, ← finished]
  cases event <;> rfl

theorem kept_start (leveled : disk.Leveled base n) (fits : ∀ task ∈ tasks, (job task).Fits base n) :
    Kept job base n disk tasks [] (start disk tasks) := by
  refine ⟨leveled, ?_, ?_, fun path => by simp [start, finished], ?_, ?_⟩
  · simp [start, Function.comp_def]
  · intro writer member
    obtain ⟨task, -, rfl⟩ := List.mem_map.mp member
    rw [Ready, List.take_zero]
    exact disk.root
  · simp [start, finished, Writer.done?]
  · have each : ∀ k ∈ (start disk tasks).writers.map (Writer.left job), k = 2 * n + 1 := by
      intro k member
      obtain ⟨writer, inside, rfl⟩ := List.mem_map.mp member
      obtain ⟨task, among, rfl⟩ := List.mem_map.mp inside
      have deep := (fits task among).deep
      simp only [Writer.left, Point.left]
      omega
    have sum := List.sum_eq_card_nsmul _ _ each
    rw [sum]
    simp [start, Nat.mul_comm]

theorem step_kept (fits : ∀ task ∈ tasks, (job task).Fits base n) (kept : Kept job base n disk tasks events s)
    (stepped : step job s i = some (event, next)) : Kept job base n disk tasks (events ++ [event]) next := by
  obtain ⟨writer, wrote, made, after, held, acted, rfl, rfl⟩ := step_cases stepped
  obtain ⟨leveled, same, ready, content, done, spent⟩ := kept
  have member : writer ∈ s.writers := List.mem_of_getElem? held
  have going : writer.point ≠ .done := by
    intro finished
    rw [finished] at acted
    cases acted
  obtain ⟨wrote', made', after', acted', called⟩ :=
    act_spec leveled (fits _ (same ▸ List.mem_map_of_mem member)) (ready writer member) going
  obtain ⟨rfl, rfl, rfl⟩ : wrote = wrote' ∧ made = made' ∧ after = after' := by
    simpa using acted.symm.trans acted'
  constructor
  · exact called.leveled
  · rw [← same]
    exact Slots.map_set_same held rfl
  · intro other inside
    rcases List.mem_or_eq_of_mem_set inside with old | rfl
    · exact (ready other old).mono called.directories
    · exact called.ready
  · intro path
    rw [called.content, content, finished_snoc, List.filter_append, List.flatMap_append, List.append_assoc]
    congr 1
    cases wrote with
    | false => simp
    | true => by_cases here : path = (job writer.task).path <;> simp [here]
  · have moved := Slots.filterMap_set_perm Writer.done? held ⟨writer.task, after⟩
    have ends : Writer.done? ⟨writer.task, after⟩ = if wrote then some writer.task else none := by
      cases wrote with
      | true =>
        rw [called.ends.mpr rfl]
        rfl
      | false => exact Writer.done?_none fun finished => absurd (called.ends.mp finished) (by decide)
    rw [Writer.done?_none going, ends, Option.toList_none, List.nil_append] at moved
    rw [finished_snoc]
    exact ((done.append_right _).trans List.perm_append_comm).trans moved.symm
  · have moved := Slots.sum_map_set (Writer.left job) held ⟨writer.task, after⟩
    have less := called.less
    simp only [Writer.left, List.length_append, List.length_singleton] at moved less spent ⊢
    omega

theorem run_kept (leveled : disk.Leveled base n) (fits : ∀ task ∈ tasks, (job task).Fits base n)
    (reached : Machine.Reaches (step job) (start disk tasks) events s) : Kept job base n disk tasks events s := by
  apply reached.invariant (Kept job base n disk tasks)
  · exact kept_start leveled fits
  · intro _ _ _ _ _ _ kept stepped
    exact step_kept fits kept stepped

theorem kept_mem (kept : Kept job base n disk tasks events s) : ∀ task ∈ finished events, task ∈ tasks := by
  intro task member
  obtain ⟨writer, inside, shown⟩ := List.mem_filterMap.mp (kept.finished.mem_iff.mp member)
  have going : writer.point = .done := by
    by_contra going
    rw [Writer.done?_none going] at shown
    contradiction
  rw [Writer.done?, going] at shown
  rw [← kept.same, ← Option.some.inj shown]
  exact List.mem_map_of_mem inside

/-- Only a writer that is done stands still, so that when none can go on all has been written. -/
theorem kept_complete (fits : ∀ task ∈ tasks, (job task).Fits base n) (kept : Kept job base n disk tasks events s)
    (still : ∀ i, step job s i = none) : (finished events).Perm tasks := by
  have all : ∀ writer ∈ s.writers, writer.point = .done := by
    intro writer member
    by_contra going
    obtain ⟨wrote, made, after, acted, -⟩ :=
      act_spec kept.leveled (fits _ (kept.same ▸ List.mem_map_of_mem member)) (kept.ready writer member) going
    obtain ⟨i, held⟩ := List.mem_iff_getElem?.mp member
    have stuck := still i
    simp [step, held, acted] at stuck
  have done : s.writers.filterMap Writer.done? = tasks := by
    rw [← kept.same, List.filterMap_eq_map_iff_forall_eq_some]
    intro writer member
    rw [Writer.done?, all writer member]
  exact done ▸ kept.finished

end Run

end Appenders
