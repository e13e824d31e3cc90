import LigDataParsing.Lookup
import LigDataParsing.RobinHood
import LigDataParsing.Positions
import Mathlib.Data.List.ReduceOption

/-! The hash table behind `tsl::ordered_map`: the values in the order their keys came in,
and buckets with positions in them, found by open addressing. A bucket whose index is the
empty marker is `none`; the hash left in it is read by nothing. -/
namespace LigDataParsing

open RobinHood

structure HashLib (κ : Type) where
  /-- `std::hash` -/
  hash : κ → ℕ
  /-- `m_buckets_data.max_size()` -/
  maxBucketCount : ℕ
  /-- The comparison of `load_factor()` with `0.15f`, for a size and a number of buckets. -/
  highLoad : ℕ → ℕ → Bool
  room : 2 ^ 32 ≤ maxBucketCount
  dense : ∀ size bucketCount, highLoad size bucketCount = true → bucketCount ≤ 16 * size

inductive HashFailure where
  /-- `std::length_error` -/
  | length
  /-- A loop over the buckets has not ended within its bound. -/
  | endless
  deriving DecidableEq

structure BucketEntry where
  index : ℕ
  hash : ℕ
  deriving DecidableEq

structure OrderedHash (κ ν : Type) where
  buckets : List (Option BucketEntry)
  values : List (κ × ν)
  growOnNextInsert : Bool

/-- Where `insert_impl` finds its key, or the bucket and the probe length at which it
gives up. -/
inductive Probe where
  | present (index : ℕ)
  | absent (ibucket distFromIdealBucket : ℕ)
  deriving DecidableEq

namespace OrderedHash

def maxSize : ℕ := 2 ^ 32 - 1 - 1

def nbProbes : ℕ := 128

def truncateHash (hash : ℕ) : ℕ := hash % 2 ^ 32

/-- `hash & m_hash_mask`; without buckets the mask is 0. -/
def bucketForHash (bucketCount hash : ℕ) : ℕ := hash &&& (bucketCount - 1)

def nextBucket (bucketCount index : ℕ) : ℕ := next bucketCount index

def idealBucket (bucketCount : ℕ) (entry : BucketEntry) : ℕ := bucketForHash bucketCount entry.hash

def distanceFromIdealBucket (bucketCount ibucket : ℕ) (entry : BucketEntry) : ℕ :=
  distance bucketCount (idealBucket bucketCount entry) ibucket

/-- `m_buckets[ibucket]`; without buckets this is the static empty one. -/
def bucket (buckets : List (Option BucketEntry)) (ibucket : ℕ) : Option BucketEntry := buckets[ibucket]?.join

/-- `size_type(float(bucket_count()) * 0.75f)`, exact for powers of two. -/
def loadThreshold (bucketCount : ℕ) : ℕ := bucketCount * 3 / 4

def isPowerOfTwo (value : ℕ) : Bool := value ≠ 0 ∧ value &&& (value - 1) = 0

def roundUpToPowerOfTwo (value : ℕ) : ℕ :=
  if isPowerOfTwo value then value
  else if value = 0 then 1
  else [1, 2, 4, 8, 16, 32].foldl (fun value i => value ||| value >>> i) (value - 1) + 1

variable {κ ν : Type}

def empty : OrderedHash κ ν := ⟨[], [], false⟩

def size (t : OrderedHash κ ν) : ℕ := t.values.length

def bucketCount (t : OrderedHash κ ν) : ℕ := t.buckets.length

def keyAt (t : OrderedHash κ ν) (index : ℕ) : Option κ := t.values[index]?.map Prod.fst

/-- The test of the loops for the bucket of a key: the cut hash first, then the key itself. -/
abbrev Sought (t : OrderedHash κ ν) (key : κ) (hash : ℕ) (entry : BucketEntry) : Prop :=
  entry.hash = truncateHash hash ∧ t.keyAt entry.index = some key

def findKeyFrom [DecidableEq κ] (t : OrderedHash κ ν) (key : κ) (hash : ℕ) :
    (fuel ibucket distFromIdealBucket : ℕ) → Except HashFailure (Option ℕ)
  | 0, _, _ => .error .endless
  | fuel + 1, ibucket, dist =>
    match bucket t.buckets ibucket with
    | none => .ok none
    | some entry =>
      if t.Sought key hash entry then .ok (some ibucket)
      else if dist > distanceFromIdealBucket t.bucketCount ibucket entry then .ok none
      else findKeyFrom t key hash fuel (nextBucket t.bucketCount ibucket) (dist + 1)

def findKey [DecidableEq κ] (lib : HashLib κ) (key : κ) (t : OrderedHash κ ν) : Except HashFailure (Option ℕ) :=
  t.findKeyFrom key (lib.hash key) (t.bucketCount + 1) (bucketForHash t.bucketCount (lib.hash key)) 0

/-- The position of a key among the values, none for `end()`. -/
def find [DecidableEq κ] (lib : HashLib κ) (key : κ) (t : OrderedHash κ ν) : Except HashFailure (Option ℕ) := do
  let found ← t.findKey lib key
  return found.bind fun ibucket => (bucket t.buckets ibucket).map BucketEntry.index

/-- The first loop of `insert_impl`. -/
def probeFrom [DecidableEq κ] (t : OrderedHash κ ν) (key : κ) (hash : ℕ) :
    (fuel ibucket distFromIdealBucket : ℕ) → Except HashFailure Probe
  | 0, _, _ => .error .endless
  | fuel + 1, ibucket, dist =>
    match bucket t.buckets ibucket with
    | none => .ok (.absent ibucket dist)
    | some entry =>
      if dist ≤ distanceFromIdealBucket t.bucketCount ibucket entry then
        if t.Sought key hash entry then .ok (.present entry.index)
        else probeFrom t key hash fuel (nextBucket t.bucketCount ibucket) (dist + 1)
      else .ok (.absent ibucket dist)

/-- The inner loop of `rehash_impl`: an entry goes to the first empty bucket, and on its way
changes places with entries closer to their ideal bucket. -/
def reinsert : (fuel ibucket distFromIdealBucket : ℕ) → BucketEntry → List (Option BucketEntry) →
    Except HashFailure (List (Option BucketEntry))
  | 0, _, _, _, _ => .error .endless
  | fuel + 1, ibucket, dist, entry, buckets =>
    match bucket buckets ibucket with
    | none => .ok (buckets.set ibucket (some entry))
    | some held =>
      let distance := distanceFromIdealBucket buckets.length ibucket held
      if dist > distance then
        reinsert fuel (nextBucket buckets.length ibucket) (distance + 1) held (buckets.set ibucket (some entry))
      else reinsert fuel (nextBucket buckets.length ibucket) (dist + 1) entry buckets

/-- The same loop in `insert_index`, which asks for a larger table after many probes. -/
def insertIndex (highLoad : Bool) : (fuel ibucket distFromIdealBucket : ℕ) → BucketEntry → Bool →
    List (Option BucketEntry) → Except HashFailure (List (Option BucketEntry) × Bool)
  | 0, _, _, _, _, _ => .error .endless
  | fuel + 1, ibucket, dist, entry, grow, buckets =>
    match bucket buckets ibucket with
    | none => .ok (buckets.set ibucket (some entry), grow)
    | some held =>
      let distance := distanceFromIdealBucket buckets.length ibucket held
      if dist > distance then
        insertIndex highLoad fuel (nextBucket buckets.length ibucket) (distance + 1) held
          (grow || (distance + 1 > nbProbes && highLoad)) (buckets.set ibucket (some entry))
      else
        insertIndex highLoad fuel (nextBucket buckets.length ibucket) (dist + 1) entry
          (grow || (dist + 1 > nbProbes && highLoad)) buckets

def rehashBucket (buckets : List (Option BucketEntry)) : Option BucketEntry →
    Except HashFailure (List (Option BucketEntry))
  | none => .ok buckets
  | some old => reinsert buckets.length (bucketForHash buckets.length old.hash) 0 old buckets

def rehashImpl (lib : HashLib κ) (bucketCount : ℕ) (t : OrderedHash κ ν) : Except HashFailure (OrderedHash κ ν) :=
  if bucketCount > lib.maxBucketCount then .error .length
  else
    let bucketCount := if bucketCount > 0 then roundUpToPowerOfTwo bucketCount else bucketCount
    if bucketCount = t.bucketCount then .ok t
    else do
      let buckets ← t.buckets.foldlM rehashBucket (List.replicate bucketCount none)
      return { t with buckets := buckets, growOnNextInsert := false }

/-- The table to insert into, and whether it has been rehashed. -/
def growOnHighLoad (lib : HashLib κ) (t : OrderedHash κ ν) : Except HashFailure (OrderedHash κ ν × Bool) :=
  if t.growOnNextInsert ∨ t.size ≥ loadThreshold t.bucketCount then do
    let t ← t.rehashImpl lib (max 1 (t.bucketCount * 2))
    return ({ t with growOnNextInsert := false }, true)
  else .ok (t, false)

def insertImpl [DecidableEq κ] [Inhabited ν] (lib : HashLib κ) (key : κ) (t : OrderedHash κ ν) :
    Except HashFailure (OrderedHash κ ν × ℕ) := do
  let hash := lib.hash key
  match ← t.probeFrom key hash (t.bucketCount + 1) (bucketForHash t.bucketCount hash) 0 with
  | .present index => return (t, index)
  | .absent ibucket dist =>
    if t.size ≥ maxSize then .error .length
    else
      let (t, rehashed) ← t.growOnHighLoad lib
      let start := if rehashed then (bucketForHash t.bucketCount hash, 0) else (ibucket, dist)
      let values := t.values ++ [(key, default)]
      let (buckets, grow) ← insertIndex (lib.highLoad values.length t.bucketCount) t.bucketCount start.1 start.2
        ⟨values.length - 1, truncateHash hash⟩ t.growOnNextInsert t.buckets
      return (⟨buckets, values, grow⟩, values.length - 1)

/-- `m[key] = f(m[key])`, the value `operator[]` gives a reference to being changed in place. -/
def update [DecidableEq κ] [Inhabited ν] (lib : HashLib κ) (key : κ) (f : ν → ν) (t : OrderedHash κ ν) :
    Except HashFailure (OrderedHash κ ν) := do
  let (t, index) ← t.insertImpl lib key
  return { t with values := t.values.modify index fun e => (e.1, f e.2) }

def shiftIndexesDown (indexAboveOrEqual : ℕ) (buckets : List (Option BucketEntry)) : List (Option BucketEntry) :=
  buckets.map (Option.map fun entry =>
    if entry.index ≥ indexAboveOrEqual then { entry with index := entry.index - 1 } else entry)

def backwardShift : (fuel previous : ℕ) → List (Option BucketEntry) → Except HashFailure (List (Option BucketEntry))
  | 0, _, _ => .error .endless
  | fuel + 1, previous, buckets =>
    let current := nextBucket buckets.length previous
    match bucket buckets current with
    | none => .ok buckets
    | some entry =>
      if distanceFromIdealBucket buckets.length current entry > 0 then
        backwardShift fuel current ((buckets.set previous (some entry)).set current (bucket buckets previous))
      else .ok buckets

def eraseValueFromBucket (ibucket : ℕ) (entry : BucketEntry) (t : OrderedHash κ ν) :
    Except HashFailure (OrderedHash κ ν) := do
  let values := t.values.eraseIdx entry.index
  let buckets := if entry.index ≠ values.length then shiftIndexesDown (entry.index + 1) t.buckets else t.buckets
  let buckets := buckets.set ibucket none
  let buckets ← backwardShift (buckets.length * buckets.length + 1) ibucket buckets
  return { t with buckets := buckets, values := values }

/-- `erase(key)`; the number of erased elements is not used. -/
def erase [DecidableEq κ] (lib : HashLib κ) (key : κ) (t : OrderedHash κ ν) :
    Except HashFailure (OrderedHash κ ν) := do
  match ← t.findKey lib key with
  | none => return t
  | some ibucket =>
    match bucket t.buckets ibucket with
    | none => return t
    | some entry => t.eraseValueFromBucket ibucket entry

section Buckets

variable {buckets : List (Option BucketEntry)} {n i : ℕ} {entry : BucketEntry}

theorem bucket_set (inside : i < buckets.length) (new : Option BucketEntry) :
    bucket (buckets.set i new) = Function.update (bucket buckets) i new := by
  funext j
  by_cases same : j = i
  · subst same
    simp [bucket, inside]
  · simp [bucket, Function.update_of_ne same, List.getElem?_set_ne (Ne.symm same)]

theorem bucket_inside (held : bucket buckets i = some entry) : i < buckets.length := by
  by_contra outside
  simp [bucket, List.getElem?_eq_none (not_lt.mp outside)] at held

theorem getElem?_of_bucket (inside : i < buckets.length) : buckets[i]? = some (bucket buckets i) := by
  simp [bucket, inside]

theorem mem_of_bucket (held : bucket buckets i = some entry) : entry ∈ buckets.reduceOption := by
  have listed := getElem?_of_bucket (bucket_inside held)
  rw [held] at listed
  exact List.reduceOption_mem_iff.mpr (List.mem_of_getElem? listed)

theorem bucket_of_mem (member : entry ∈ buckets.reduceOption) : ∃ i, bucket buckets i = some entry := by
  obtain ⟨i, held⟩ := List.mem_iff_getElem?.mp (List.reduceOption_mem_iff.mp member)
  exact ⟨i, by simp [bucket, held]⟩

theorem free_bucket (room : buckets.reduceOption.length < buckets.length) :
    ∃ free < buckets.length, bucket buckets free = none := by
  obtain ⟨free, inside, empty⟩ := List.getElem_of_mem (List.reduceOption_length_lt_iff.mp room)
  exact ⟨free, inside, by simp [bucket, inside, empty]⟩

theorem reduceOption_set (inside : i < buckets.length) (new : Option BucketEntry) :
    ((bucket buckets i).toList ++ (buckets.set i new).reduceOption).Perm (new.toList ++ buckets.reduceOption) :=
  Slots.filterMap_set_perm id (getElem?_of_bucket inside) new

structure Laid (n : ℕ) (buckets : List (Option BucketEntry)) : Prop where
  count : buckets.length = n
  placed : Placed n (idealBucket n) (bucket buckets)

theorem laid_replicate (n : ℕ) : Laid n (List.replicate n none) := by
  refine ⟨List.length_replicate, ?_⟩
  have nothing : bucket (List.replicate n none) = fun _ => none := by
    funext i
    by_cases inside : i < n <;> simp [bucket, inside]
  rw [nothing]
  exact placed_empty n _

theorem Laid.put (laid : Laid n buckets) (inside : i < n) (home : idealBucket n entry < n)
    (carried : Carried n (idealBucket n) (bucket buckets) entry i)
    (closer : ∀ held, bucket buckets i = some held →
      distance n (idealBucket n held) i ≤ distance n (idealBucket n entry) i) :
    Laid n (buckets.set i (some entry)) := by
  refine ⟨by rw [List.length_set, laid.count], ?_⟩
  rw [bucket_set (laid.count ▸ inside)]
  exact laid.placed.put inside home carried closer

/-- The loop ends at the next empty bucket at the latest, with the entry added. -/
theorem reinsert_spec {fuel dist free : ℕ} (laid : Laid n buckets) (inside : i < n) (home : idealBucket n entry < n)
    (reached : dist = distance n (idealBucket n entry) i)
    (carried : Carried n (idealBucket n) (bucket buckets) entry i) (insideF : free < n)
    (empty : bucket buckets free = none) (enough : distance n i free < fuel) :
    ∃ buckets', reinsert fuel i dist entry buckets = .ok buckets' ∧ Laid n buckets' ∧
      buckets'.reduceOption.Perm (entry :: buckets.reduceOption) := by
  induction fuel generalizing i dist entry buckets with
  | zero => omega
  | succ fuel ih =>
    have within : i < buckets.length := laid.count ▸ inside
    cases here : bucket buckets i with
    | none =>
      have added := reduceOption_set within (some entry)
      rw [here] at added
      refine ⟨buckets.set i (some entry), by simp [reinsert, here], ?_, by simpa using added⟩
      exact laid.put inside home carried (by simp [here])
    | some held =>
      have apart : i ≠ free := by
        rintro rfl
        rw [empty] at here
        contradiction
      have towards := distance_towards inside insideF apart
      have homeHeld := (laid.placed.inside i held here).2
      by_cases further : dist > distance n (idealBucket n held) i
      · have swapped := laid.put inside home carried fun other same => by
          rw [here] at same
          cases same
          omega
        have listed : bucket (buckets.set i (some entry)) i = some entry := by
          rw [bucket_set within, Function.update_self]
        have stillFree : bucket (buckets.set i (some entry)) free = none := by
          rw [bucket_set within, Function.update_of_ne (Ne.symm apart), empty]
        obtain ⟨goes, step⟩ := swapped.placed.carry listed homeHeld (by omega) insideF stillFree
        obtain ⟨buckets', done, laid', entries⟩ :=
          ih swapped (next_lt inside) homeHeld step.symm goes stillFree (by omega)
        have moved := reduceOption_set within (some entry)
        rw [here] at moved
        refine ⟨buckets', ?_, laid', entries.trans (by simpa using moved)⟩
        simp only [reinsert, here, distanceFromIdealBucket, nextBucket, laid.count]
        rw [if_pos further]
        exact done
      · obtain ⟨goes, step⟩ := laid.placed.carry here home (by omega) insideF empty
        obtain ⟨buckets', done, laid', entries⟩ :=
          ih laid (next_lt inside) home step.symm goes empty (by omega)
        refine ⟨buckets', ?_, laid', entries⟩
        simp only [reinsert, here, distanceFromIdealBucket, nextBucket, laid.count]
        rw [if_neg further, reached]
        exact done

/-- `insert_index` fills the buckets as `rehash_impl` does. -/
theorem insertIndex_buckets (highLoad : Bool) (fuel dist : ℕ) (grow : Bool) :
    (insertIndex highLoad fuel i dist entry grow buckets).map Prod.fst = reinsert fuel i dist entry buckets := by
  induction fuel generalizing i dist entry grow buckets with
  | zero => rfl
  | succ fuel ih =>
    cases here : bucket buckets i with
    | none => simp [insertIndex, reinsert, here, Except.map]
    | some held =>
      simp only [insertIndex, reinsert, here]
      split_ifs
      · exact ih ..
      · exact ih ..

theorem insertIndex_grow {highLoad : Bool} {fuel dist : ℕ} {grow : Bool} {done : List (Option BucketEntry) × Bool}
    (inserted : insertIndex highLoad fuel i dist entry grow buckets = .ok done) (asks : done.2 = true) :
    grow = true ∨ highLoad = true := by
  induction fuel generalizing i dist entry grow buckets with
  | zero => simp [insertIndex] at inserted
  | succ fuel ih =>
    cases here : bucket buckets i with
    | none =>
      simp only [insertIndex, here] at inserted
      cases inserted
      exact .inl asks
    | some held =>
      simp only [insertIndex, here] at inserted
      split_ifs at inserted <;>
      · rcases ih inserted with before | loaded
        · simp only [Bool.or_eq_true, Bool.and_eq_true] at before
          exact before.imp_right And.right
        · exact .inr loaded

end Buckets

section Hashes

variable {n k : ℕ}

theorem bucketForHash_eq (power : n = 2 ^ k) (hash : ℕ) : bucketForHash n hash = hash % n := by
  rw [bucketForHash, power, Nat.and_two_pow_sub_one_eq_mod]

theorem bucketForHash_lt (power : n = 2 ^ k) (hash : ℕ) : bucketForHash n hash < n := by
  rw [bucketForHash_eq power]
  exact Nat.mod_lt _ (power ▸ Nat.two_pow_pos k)

/-- Up to 2 ^ 32 buckets the cut hash leads to the same bucket. -/
theorem bucketForHash_truncate (power : n = 2 ^ k) (small : k ≤ 32) (hash : ℕ) :
    bucketForHash n (truncateHash hash) = bucketForHash n hash := by
  rw [bucketForHash_eq power, bucketForHash_eq power, truncateHash]
  exact Nat.mod_mod_of_dvd _ (power ▸ Nat.pow_dvd_pow 2 small)

theorem roundUp_power (power : n = 2 ^ k) : roundUpToPowerOfTwo n = n := by
  have positive : n ≠ 0 := by
    rw [power]
    exact (Nat.two_pow_pos k).ne'
  have clear : n &&& (n - 1) = 0 := by
    rw [power, Nat.and_two_pow_sub_one_eq_mod, Nat.mod_self]
  simp [roundUpToPowerOfTwo, isPowerOfTwo, positive, clear]

end Hashes

section Searching

variable [DecidableEq κ] {t : OrderedHash κ ν} {key : κ} {hash n k fuel i steps : ℕ}

omit [DecidableEq κ] in
theorem sought_home (power : n = 2 ^ k) (small : k ≤ 32) (entry : BucketEntry) (sought : t.Sought key hash entry) :
    idealBucket n entry = bucketForHash n hash := by
  rw [idealBucket, sought.1, bucketForHash_truncate power small]

/-- How far a search has come: `steps` buckets from the ideal one, none of them with the key. -/
structure Searching (t : OrderedHash κ ν) (key : κ) (hash n i steps : ℕ) : Prop where
  inside : i < n
  bound : steps ≤ n
  reached : steps < n → distance n (bucketForHash n hash) i = steps
  ahead : Ahead n (bucket t.buckets) (t.Sought key hash) (bucketForHash n hash) steps

omit [DecidableEq κ] in
theorem searching_start (power : n = 2 ^ k) : Searching t key hash n (bucketForHash n hash) 0 :=
  ⟨bucketForHash_lt power hash, Nat.zero_le _, fun _ => distance_self .., fun _ _ _ _ => Nat.zero_le _⟩

omit [DecidableEq κ] in
theorem Searching.pass (searching : Searching t key hash n i steps) (laid : Laid n t.buckets) (power : n = 2 ^ k)
    (more : steps < n) (other : ∀ entry, bucket t.buckets i = some entry → ¬ t.Sought key hash entry) :
    Searching t key hash n (next n i) (steps + 1) := by
  obtain ⟨inside, -, reached, ahead⟩ := searching
  have home := bucketForHash_lt power hash
  refine ⟨next_lt inside, more, fun short => ?_, ahead.pass laid.placed home inside (reached more) other⟩
  rw [distance_next home inside (by rw [reached more]; exact short), reached more]

omit [DecidableEq κ] in
theorem Searching.stop (searching : Searching t key hash n i steps) (laid : Laid n t.buckets) (power : n = 2 ^ k)
    (small : k ≤ 32) (ends : ∀ entry, bucket t.buckets i = some entry → distance n (idealBucket n entry) i < steps) :
    ∀ j entry, bucket t.buckets j = some entry → ¬ t.Sought key hash entry := by
  obtain ⟨inside, bound, reached, ahead⟩ := searching
  rcases Nat.lt_or_eq_of_le bound with more | rfl
  · exact ahead.stop laid.placed (sought_home power small) inside (reached more) ends
  · exact ahead.turned laid.placed (bucketForHash_lt power hash)

/-- The search ends, at a bucket with the key or with no such bucket anywhere. -/
theorem findKeyFrom_spec (laid : Laid n t.buckets) (power : n = 2 ^ k) (small : k ≤ 32)
    (searching : Searching t key hash n i steps) (turns : steps + fuel = n + 1) :
    (∃ b entry, t.findKeyFrom key hash fuel i steps = .ok (some b) ∧ bucket t.buckets b = some entry ∧
      t.Sought key hash entry) ∨
    (t.findKeyFrom key hash fuel i steps = .ok none ∧
      ∀ b entry, bucket t.buckets b = some entry → ¬ t.Sought key hash entry) := by
  induction fuel generalizing i steps with
  | zero =>
    have bound := searching.bound
    omega
  | succ fuel ih =>
    cases here : bucket t.buckets i with
    | none =>
      refine .inr ⟨by simp [findKeyFrom, here], searching.stop laid power small (by simp [here])⟩
    | some entry =>
      by_cases found : t.Sought key hash entry
      · refine .inl ⟨i, entry, ?_, here, found⟩
        simp only [findKeyFrom, here]
        exact if_pos found
      · have other : ∀ entry, bucket t.buckets i = some entry → ¬ t.Sought key hash entry := by
          intro same held
          rw [here] at held
          cases held
          exact found
        by_cases beyond : steps > distance n (idealBucket n entry) i
        · refine .inr ⟨?_, searching.stop laid power small ?_⟩
          · simp only [findKeyFrom, here, bucketCount, laid.count, distanceFromIdealBucket]
            rw [if_neg found, if_pos beyond]
          · intro same held
            rw [here] at held
            cases held
            exact beyond
        · have more : steps < n := by
            have within := distance_lt (laid.placed.inside i entry here).2 searching.inside
            omega
          have goes : t.findKeyFrom key hash (fuel + 1) i steps =
              t.findKeyFrom key hash fuel (next n i) (steps + 1) := by
            simp only [findKeyFrom, here, bucketCount, laid.count, distanceFromIdealBucket, nextBucket]
            rw [if_neg found, if_neg beyond]
          rw [goes]
          exact ih (searching.pass laid power more other) (by omega)

/-- The entry to insert may stay at the bucket, as far as the bucket before it goes. -/
def Arrived (t : OrderedHash κ ν) (n i steps : ℕ) (entry : BucketEntry) : Prop :=
  (∃ free < n, bucket t.buckets free = none) →
    steps = distance n (idealBucket n entry) i ∧ Carried n (idealBucket n) (bucket t.buckets) entry i

/-- The first loop of an insertion finds the key or, with no such bucket anywhere, a place
to insert it. -/
theorem probeFrom_spec (laid : Laid n t.buckets) (power : n = 2 ^ k) (small : k ≤ 32)
    (searching : Searching t key hash n i steps) (turns : steps + fuel = n + 1) {entry : BucketEntry}
    (home : idealBucket n entry = bucketForHash n hash) (arrived : t.Arrived n i steps entry) :
    (∃ b held, t.probeFrom key hash fuel i steps = .ok (.present held.index) ∧ bucket t.buckets b = some held ∧
      t.Sought key hash held) ∨
    (∃ j dist, t.probeFrom key hash fuel i steps = .ok (.absent j dist) ∧ j < n ∧ t.Arrived n j dist entry ∧
      ∀ b held, bucket t.buckets b = some held → ¬ t.Sought key hash held) := by
  induction fuel generalizing i steps with
  | zero =>
    have bound := searching.bound
    omega
  | succ fuel ih =>
    cases here : bucket t.buckets i with
    | none =>
      refine .inr ⟨i, steps, by simp [probeFrom, here], searching.inside, arrived, ?_⟩
      exact searching.stop laid power small (by simp [here])
    | some held =>
      by_cases within : steps ≤ distance n (idealBucket n held) i
      · by_cases found : t.Sought key hash held
        · refine .inl ⟨i, held, ?_, here, found⟩
          simp only [probeFrom, here, bucketCount, laid.count, distanceFromIdealBucket]
          rw [if_pos within]
          exact if_pos found
        · have other : ∀ entry, bucket t.buckets i = some entry → ¬ t.Sought key hash entry := by
            intro same taken
            rw [here] at taken
            cases taken
            exact found
          have more : steps < n := by
            have within' := distance_lt (laid.placed.inside i held here).2 searching.inside
            omega
          have goes : t.probeFrom key hash (fuel + 1) i steps = t.probeFrom key hash fuel (next n i) (steps + 1) := by
            simp only [probeFrom, here, bucketCount, laid.count, distanceFromIdealBucket, nextBucket]
            rw [if_pos within]
            exact if_neg found
          rw [goes]
          apply ih (searching.pass laid power more other) (by omega)
          intro free
          obtain ⟨reached, -⟩ := arrived free
          obtain ⟨place, inside, empty⟩ := free
          obtain ⟨carried, step⟩ := laid.placed.carry here (home ▸ bucketForHash_lt power hash)
            (reached ▸ within) inside empty
          exact ⟨by rw [step, reached], carried⟩
      · refine .inr ⟨i, steps, ?_, searching.inside, arrived, searching.stop laid power small ?_⟩
        · simp only [probeFrom, here, bucketCount, laid.count, distanceFromIdealBucket]
          rw [if_neg within]
        · intro same taken
          rw [here] at taken
          cases taken
          omega

end Searching

end OrderedHash

end LigDataParsing
