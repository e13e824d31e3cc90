import Mathlib.Data.List.Basic

/-! Directories, and files that only grow at the end. A path is the list of its names; the
empty one is the directory the program runs in. What cannot be done gives `none`. -/

structure FileStore (ν α : Type*) where
  isDirectory : List ν → Bool
  file : List ν → Option (List α)
  root : isDirectory [] = true
  /-- Everything stands in a directory. -/
  closed : ∀ dir name, isDirectory (dir ++ [name]) = true ∨ (file (dir ++ [name])).isSome → isDirectory dir = true
  apart : ∀ path, isDirectory path = true → file path = none

namespace FileStore

variable {ν α : Type*} [DecidableEq ν]

def empty : FileStore ν α where
  isDirectory path := path.isEmpty
  file _ := none
  root := rfl
  closed dir name standing := by simp at standing
  apart _ _ := rfl

def pathExists (fs : FileStore ν α) (path : List ν) : Bool := fs.isDirectory path || (fs.file path).isSome

/-- A directory that is there already stays as it is. -/
def createDirectory (fs : FileStore ν α) (dir : List ν) (name : ν) : Option (FileStore ν α) :=
  if free : fs.isDirectory dir = true ∧ fs.file (dir ++ [name]) = none then
    some {
      isDirectory := fun path => path = dir ++ [name] ∨ fs.isDirectory path = true
      file := fs.file
      root := by simp [fs.root]
      closed := by
        intro dir' name' standing
        simp only [decide_eq_true_eq] at standing ⊢
        rcases standing with (same | standing) | standing
        · obtain ⟨rfl, -⟩ := List.append_inj' same rfl
          exact .inr free.1
        · exact .inr (fs.closed dir' name' (.inl standing))
        · exact .inr (fs.closed dir' name' (.inr standing))
      apart := by
        intro path standing
        rcases of_decide_eq_true standing with rfl | standing
        · exact free.2
        · exact fs.apart path standing }
  else none

/-- Opens a file to append to it, creating it if it is missing, and writes. -/
def append (fs : FileStore ν α) (dir : List ν) (name : ν) (text : List α) : Option (FileStore ν α) :=
  if free : fs.isDirectory dir = true ∧ fs.isDirectory (dir ++ [name]) = false then
    some {
      isDirectory := fs.isDirectory
      file := fun path =>
        if path = dir ++ [name] then some ((fs.file path).getD [] ++ text) else fs.file path
      root := fs.root
      closed := by
        intro dir' name' standing
        rcases standing with standing | standing
        · exact fs.closed dir' name' (.inl standing)
        · split_ifs at standing with same
          · obtain ⟨rfl, -⟩ := List.append_inj' same rfl
            exact free.1
          · exact fs.closed dir' name' (.inr standing)
      apart := by
        intro path standing
        split_ifs with same
        · rw [same, free.2] at standing
          contradiction
        · exact fs.apart path standing }
  else none

/-- Creates a directory unless something has its name. -/
def ensure (fs : FileStore ν α) (dir : List ν) (name : ν) : Option (FileStore ν α) :=
  if fs.pathExists (dir ++ [name]) then some fs else fs.createDirectory dir name

def ensureAll (fs : FileStore ν α) (dir : List ν) : List ν → Option (FileStore ν α)
  | [] => some fs
  | name :: names => (fs.ensure dir name).bind fun fs => fs.ensureAll (dir ++ [name]) names

def content (fs : FileStore ν α) (path : List ν) : List α := (fs.file path).getD []

/-- In the directory `base` there are only directories above depth `n`, and only files at it. -/
structure Leveled (base : ν) (n : ℕ) (fs : FileStore ν α) : Prop where
  above : ∀ path, path.head? = some base → path.length < n → fs.file path = none
  leaves : ∀ path, path.head? = some base → path.length = n → fs.isDirectory path = false

section Specs

variable {base name : ν} {n : ℕ} {fs : FileStore ν α} {dir : List ν}

theorem createDirectory_spec (leveled : Leveled base n fs) (under : (dir ++ [name]).head? = some base)
    (parent : fs.isDirectory dir = true) (shallow : dir.length + 1 < n) :
    ∃ next, fs.createDirectory dir name = some next ∧ next.isDirectory (dir ++ [name]) = true ∧
      next.file = fs.file ∧ Leveled base n next := by
  have free : fs.file (dir ++ [name]) = none := leveled.above _ under (by simpa using shallow)
  rw [createDirectory, dif_pos ⟨parent, free⟩]
  refine ⟨_, rfl, by simp, rfl, leveled.above, fun path inside deep => ?_⟩
  have other : path ≠ dir ++ [name] := by
    rintro rfl
    simp at deep
    omega
  simp [other, leveled.leaves path inside deep]

omit [DecidableEq ν] in
theorem isDirectory_of_exists (leveled : Leveled base n fs) (under : (dir ++ [name]).head? = some base)
    (shallow : dir.length + 1 < n) (there : fs.pathExists (dir ++ [name]) = true) :
    fs.isDirectory (dir ++ [name]) = true := by
  have free : fs.file (dir ++ [name]) = none := leveled.above _ under (by simpa using shallow)
  simpa [pathExists, free] using there

theorem ensure_spec (leveled : Leveled base n fs) (under : (dir ++ [name]).head? = some base)
    (parent : fs.isDirectory dir = true) (shallow : dir.length + 1 < n) :
    ∃ next, fs.ensure dir name = some next ∧ next.isDirectory (dir ++ [name]) = true ∧
      next.file = fs.file ∧ Leveled base n next := by
  unfold ensure
  split_ifs with there
  · exact ⟨fs, rfl, isDirectory_of_exists leveled under shallow there, rfl, leveled⟩
  · exact createDirectory_spec leveled under parent shallow

theorem ensureAll_spec (leveled : Leveled base n fs) {names : List ν} (under : (dir ++ names).head? = some base)
    (parent : fs.isDirectory dir = true) (shallow : dir.length + names.length < n) :
    ∃ next, fs.ensureAll dir names = some next ∧ next.isDirectory (dir ++ names) = true ∧
      next.file = fs.file ∧ Leveled base n next := by
  induction names generalizing fs dir with
  | nil => exact ⟨fs, rfl, by simpa using parent, rfl, leveled⟩
  | cons name names ih =>
    rw [List.length_cons] at shallow
    have split : dir ++ name :: names = dir ++ [name] ++ names := by simp
    have first : (dir ++ [name]).head? = some base := by
      rw [split, List.head?_append_of_ne_nil _ (by simp)] at under
      exact under
    obtain ⟨made, created, there, same, leveled'⟩ := ensure_spec leveled first parent (by omega)
    obtain ⟨next, rest, inside, same', done⟩ := ih leveled' (split ▸ under) there (by simp; omega)
    refine ⟨next, ?_, split ▸ inside, same'.trans same, done⟩
    rw [ensureAll, created]
    exact rest

theorem append_spec (text : List α) (leveled : Leveled base n fs) (under : (dir ++ [name]).head? = some base)
    (parent : fs.isDirectory dir = true) (deep : dir.length + 1 = n) :
    ∃ next, fs.append dir name text = some next ∧ Leveled base n next ∧
      ∀ path, next.content path = fs.content path ++ if path = dir ++ [name] then text else [] := by
  have free : fs.isDirectory (dir ++ [name]) = false := leveled.leaves _ under (by simpa using deep)
  rw [append, dif_pos ⟨parent, free⟩]
  refine ⟨_, rfl, ⟨fun path inside shallow => ?_, leveled.leaves⟩, fun path => ?_⟩
  · have other : path ≠ dir ++ [name] := by
      rintro rfl
      simp at shallow
      omega
    simp [other, leveled.above path inside shallow]
  · by_cases same : path = dir ++ [name]
    · simp [content, same]
    · simp [content, same]

theorem createDirectory_isDirectory {next : FileStore ν α} (created : fs.createDirectory dir name = some next)
    {path : List ν} (standing : fs.isDirectory path = true) : next.isDirectory path = true := by
  unfold createDirectory at created
  split_ifs at created
  obtain rfl := Option.some.inj created
  simp [standing]

theorem ensure_isDirectory {next : FileStore ν α} (ensured : fs.ensure dir name = some next) {path : List ν}
    (standing : fs.isDirectory path = true) : next.isDirectory path = true := by
  unfold ensure at ensured
  split_ifs at ensured
  · obtain rfl := Option.some.inj ensured
    exact standing
  · exact createDirectory_isDirectory ensured standing

theorem append_isDirectory {next : FileStore ν α} {text : List α} (appended : fs.append dir name text = some next) :
    next.isDirectory = fs.isDirectory := by
  unfold append at appended
  split_ifs at appended
  obtain rfl := Option.some.inj appended
  rfl

theorem append_isSome {next : FileStore ν α} {text : List α} (appended : fs.append dir name text = some next)
    (path : List ν) : (next.file path).isSome = true ↔ path = dir ++ [name] ∨ (fs.file path).isSome = true := by
  unfold append at appended
  split_ifs at appended
  obtain rfl := Option.some.inj appended
  by_cases same : path = dir ++ [name]
  · simp [same]
  · simp [same]

/-- A file is written to below directories that are made on the way. -/
theorem ensureAll_append (leveled : Leveled base n fs) {names : List ν} (under : names.head? = some base)
    (deep : names.length + 1 = n) (name : ν) (text : List α) :
    ∃ made next, fs.ensureAll [] names = some made ∧ Leveled base n made ∧ made.content = fs.content ∧
      made.append names name text = some next ∧ Leveled base n next ∧
      ∀ path, next.content path = fs.content path ++ if path = names ++ [name] then text else [] := by
  obtain ⟨made, ensured, there, same, leveled'⟩ := ensureAll_spec leveled
    (show ([] ++ names).head? = some base from under) fs.root (by simp; omega)
  have within : (names ++ [name]).head? = some base := by
    rw [List.head?_append, under]
    rfl
  obtain ⟨next, appended, done, holds⟩ := append_spec text leveled' within there deep
  have content : made.content = fs.content := by
    funext path
    rw [FileStore.content, FileStore.content, same]
  exact ⟨made, next, ensured, leveled', content, appended, done, fun path => content ▸ holds path⟩

end Specs

end FileStore
