import LigDataParsing.OrderedHash

/-! What holds of a hash table between two operations, and that a run of operations does to
it what it does to a map which lists its entries in the order their keys came in. -/
namespace LigDataParsing

open RobinHood

namespace OrderedHash

variable {κ ν : Type}

section Growing

variable {n k : ℕ} {lib : HashLib κ} {bound : ℕ} {t : OrderedHash κ ν}

def entriesOf (lib : HashLib κ) (values : List (κ × ν)) : List BucketEntry :=
  values.mapIdx fun i e => ⟨i, truncateHash (lib.hash e.1)⟩

/-- What holds of a table that has never held more than `bound` values: the buckets hold one
entry for each value, placed by its hash. -/
structure Sound (lib : HashLib κ) (bound : ℕ) (t : OrderedHash κ ν) : Prop where
  power : t.bucketCount = 0 ∨ ∃ k ≤ 32, t.bucketCount = 2 ^ k
  placed : Placed t.bucketCount (idealBucket t.bucketCount) (bucket t.buckets)
  content : t.buckets.reduceOption.Perm (entriesOf lib t.values)
  distinct : (t.values.map Prod.fst).Nodup
  size : t.size ≤ bound
  sparse : t.bucketCount ≤ 32 * bound
  dense : t.growOnNextInsert = true → t.bucketCount ≤ 16 * bound

theorem empty_sound (lib : HashLib κ) (bound : ℕ) : Sound lib bound (empty : OrderedHash κ ν) := by
  refine ⟨.inl rfl, ?_, .refl _, List.nodup_nil, Nat.zero_le _, Nat.zero_le _, by simp [empty]⟩
  exact placed_empty 0 _

theorem Sound.laid (sound : Sound lib bound t) : Laid t.bucketCount t.buckets := ⟨rfl, sound.placed⟩

theorem Sound.length (sound : Sound lib bound t) : t.buckets.reduceOption.length = t.size := by
  rw [sound.content.length_eq, entriesOf, List.length_mapIdx, OrderedHash.size]

theorem Sound.mono (sound : Sound lib bound t) {more : ℕ} (grown : bound ≤ more) : Sound lib more t := by
  obtain ⟨power, placed, content, distinct, size, sparse, dense⟩ := sound
  exact ⟨power, placed, content, distinct, by omega, by omega, fun asks => by have := dense asks; omega⟩

/-- The outer loop of `rehash_impl` moves every entry over. -/
theorem rehash_spec (power : n = 2 ^ k) {old acc : List (Option BucketEntry)} (laid : Laid n acc)
    (room : acc.reduceOption.length + old.reduceOption.length ≤ n) :
    ∃ buckets, old.foldlM rehashBucket acc = .ok buckets ∧ Laid n buckets ∧
      buckets.reduceOption.Perm (old.reduceOption ++ acc.reduceOption) := by
  induction old generalizing acc with
  | nil => exact ⟨acc, rfl, laid, .refl _⟩
  | cons first old ih =>
    cases first with
    | none =>
      rw [List.reduceOption_cons_of_none] at room ⊢
      exact ih laid room
    | some entry =>
      rw [List.reduceOption_cons_of_some, List.length_cons] at room
      obtain ⟨free, insideF, empty⟩ := free_bucket
        (show acc.reduceOption.length < acc.length by rw [laid.count]; omega)
      rw [laid.count] at insideF
      have home : idealBucket n entry < n := bucketForHash_lt power entry.hash
      obtain ⟨acc', done, laid', entries⟩ := reinsert_spec laid home home (distance_self ..).symm
        (carried_home entry) insideF empty (distance_lt home insideF)
      obtain ⟨buckets, rest, laid'', all⟩ := ih laid' (by rw [entries.length_eq, List.length_cons]; omega)
      refine ⟨buckets, ?_, laid'', ?_⟩
      · have first : rehashBucket acc (some entry) = .ok acc' := by
          rw [rehashBucket, laid.count]
          exact done
        rw [List.foldlM_cons, first]
        exact rest
      · rw [List.reduceOption_cons_of_some]
        exact all.trans ((entries.append_left _).trans List.perm_middle)

theorem grow_spec (sound : Sound lib bound t) (small : bound ≤ 2 ^ 27) (room : t.size < bound) :
    ∃ t' rehashed, t.growOnHighLoad lib = .ok (t', rehashed) ∧ Sound lib bound t' ∧ t'.values = t.values ∧
      t'.growOnNextInsert = false ∧ t'.size < t'.bucketCount ∧ (rehashed = false → t' = t) := by
  have filled : t.size ≤ t.bucketCount := by
    rw [← sound.length]
    exact List.reduceOption_length_le _
  by_cases high : t.growOnNextInsert = true ∨ t.size ≥ loadThreshold t.bucketCount
  · have wide : max 1 (t.bucketCount * 2) ≤ 32 * bound := by
      rcases high with asks | loaded
      · have := sound.dense asks
        omega
      · simp only [loadThreshold] at loaded
        omega
    obtain ⟨k, small', power⟩ : ∃ k ≤ 32, max 1 (t.bucketCount * 2) = 2 ^ k := by
      rcases sound.power with unallocated | ⟨k, -, power⟩
      · exact ⟨0, by decide, by simp [unallocated]⟩
      · have double : max 1 (t.bucketCount * 2) = 2 ^ (k + 1) := by
          have := Nat.two_pow_pos k
          rw [power, Nat.pow_succ]
          omega
        refine ⟨k + 1, ?_, double⟩
        have below : 2 ^ (k + 1) ≤ 2 ^ 32 := by
          rw [← double]
          omega
        exact (Nat.pow_le_pow_iff_right (by decide)).mp below
    have larger : t.bucketCount < max 1 (t.bucketCount * 2) := by omega
    obtain ⟨buckets, done, laid, entries⟩ := rehash_spec power (laid_replicate _)
      (show (List.replicate _ none).reduceOption.length + t.buckets.reduceOption.length ≤ _ by
        rw [List.reduceOption_replicate_none, sound.length, List.length_nil]
        omega)
    rw [List.reduceOption_replicate_none, List.append_nil] at entries
    have positive : max 1 (t.bucketCount * 2) > 0 := by omega
    have rehashes : t.rehashImpl lib (max 1 (t.bucketCount * 2)) =
        .ok { t with buckets := buckets, growOnNextInsert := false } := by
      have few : ¬ max 1 (t.bucketCount * 2) > lib.maxBucketCount := by
        have := lib.room
        omega
      rw [rehashImpl, if_neg few]
      simp only [positive, if_true, roundUp_power power]
      rw [if_neg larger.ne', done]
      rfl
    refine ⟨⟨buckets, t.values, false⟩, true, ?_, ?_, rfl, rfl, ?_, by simp⟩
    · rw [growOnHighLoad, if_pos high, rehashes]
      rfl
    · have count : (⟨buckets, t.values, false⟩ : OrderedHash κ ν).bucketCount = max 1 (t.bucketCount * 2) := laid.count
      refine ⟨.inr ⟨k, small', count.trans power⟩, ?_, entries.trans sound.content, sound.distinct, sound.size, ?_,
        by simp⟩
      · rw [count]
        exact laid.placed
      · rw [count]
        exact wide
    · change t.size < buckets.length
      rw [laid.count]
      omega
  · obtain ⟨calm, low⟩ := not_or.mp high
    refine ⟨t, false, by rw [growOnHighLoad, if_neg high], sound, rfl, Bool.eq_false_iff.mpr calm, ?_, fun _ => rfl⟩
    simp only [loadThreshold] at low
    omega

end Growing

section Values

variable {lib : HashLib κ} {bound index : ℕ} {t : OrderedHash κ ν} {key : κ} {entry : BucketEntry}

theorem mem_entriesOf {values : List (κ × ν)} : entry ∈ entriesOf lib values ↔
    ∃ e, values[entry.index]? = some e ∧ entry.hash = truncateHash (lib.hash e.1) := by
  rw [entriesOf, List.mem_mapIdx]
  constructor
  · rintro ⟨i, inside, rfl⟩
    exact ⟨values[i], List.getElem?_eq_getElem inside, rfl⟩
  · rintro ⟨e, held, cut⟩
    obtain ⟨inside, rfl⟩ := List.getElem?_eq_some_iff.mp held
    exact ⟨entry.index, inside, by rw [← cut]⟩

theorem Sound.value (sound : Sound lib bound t) {b : ℕ} (held : bucket t.buckets b = some entry) :
    ∃ e, t.values[entry.index]? = some e ∧ entry.hash = truncateHash (lib.hash e.1) :=
  mem_entriesOf.mp (sound.content.mem_iff.mp (mem_of_bucket held))

theorem sought_value (sought : t.Sought key (lib.hash key) entry) :
    ∃ v, t.values[entry.index]? = some (key, v) := by
  obtain ⟨e, held, rfl⟩ := Option.map_eq_some_iff.mp sought.2
  exact ⟨e.2, held⟩

theorem Sound.absent (sound : Sound lib bound t)
    (nowhere : ∀ b entry, bucket t.buckets b = some entry → ¬ t.Sought key (lib.hash key) entry) :
    key ∉ t.values.map Prod.fst := by
  intro member
  obtain ⟨⟨_, v⟩, inside, rfl⟩ := List.mem_map.mp member
  obtain ⟨i, listed⟩ := List.mem_iff_getElem?.mp inside
  obtain ⟨b, held⟩ := bucket_of_mem (sound.content.mem_iff.mpr
    (mem_entriesOf.mpr ⟨_, listed, rfl⟩ : (⟨i, truncateHash (lib.hash _)⟩ : BucketEntry) ∈ entriesOf lib t.values))
  exact nowhere b _ held ⟨rfl, by simp [keyAt, listed]⟩

theorem findKey_spec [DecidableEq κ] (sound : Sound lib bound t) (key : κ) :
    (∃ b entry v, t.findKey lib key = .ok (some b) ∧ bucket t.buckets b = some entry ∧
      t.values[entry.index]? = some (key, v)) ∨
    (t.findKey lib key = .ok none ∧ key ∉ t.values.map Prod.fst) := by
  rcases sound.power with unallocated | ⟨k, small, power⟩
  · have empty (i : ℕ) : bucket t.buckets i = none := by
      have nil : t.buckets = [] := List.length_eq_zero_iff.mp unallocated
      simp [bucket, nil]
    exact .inr ⟨by simp [findKey, findKeyFrom, empty], sound.absent (by simp [empty])⟩
  · rcases findKeyFrom_spec sound.laid power small
      (show Searching t key (lib.hash key) t.bucketCount _ 0 from searching_start power)
      (show 0 + (t.bucketCount + 1) = t.bucketCount + 1 from Nat.zero_add _) with
      ⟨b, entry, found, held, sought⟩ | ⟨ended, nowhere⟩
    · obtain ⟨v, listed⟩ := sought_value sought
      exact .inl ⟨b, entry, v, found, held, listed⟩
    · exact .inr ⟨ended, sound.absent nowhere⟩

/-- The table after the value of a new key has been appended and indexed. -/
theorem append_spec [Inhabited ν] (sound : Sound lib bound t) (room : t.size < bound) (free : t.size < t.bucketCount)
    (calm : t.growOnNextInsert = false) (fresh : key ∉ t.values.map Prod.fst) {i dist : ℕ} (inside : i < t.bucketCount)
    (arrived : t.Arrived t.bucketCount i dist ⟨t.size, truncateHash (lib.hash key)⟩) :
    ∃ buckets grow, insertIndex (lib.highLoad (t.size + 1) t.bucketCount) t.bucketCount i dist
        ⟨t.size, truncateHash (lib.hash key)⟩ t.growOnNextInsert t.buckets = .ok (buckets, grow) ∧
      Sound lib bound ⟨buckets, t.values ++ [(key, default)], grow⟩ := by
  obtain ⟨k, small, power⟩ : ∃ k ≤ 32, t.bucketCount = 2 ^ k := by
    rcases sound.power with unallocated | powers
    · omega
    · exact powers
  obtain ⟨place, insideF, empty⟩ := free_bucket
    (show t.buckets.reduceOption.length < t.buckets.length by rw [sound.length]; exact free)
  obtain ⟨reached, carried⟩ := arrived ⟨place, insideF, empty⟩
  obtain ⟨buckets, done, laid, entries⟩ := reinsert_spec sound.laid inside (bucketForHash_lt power _) reached carried
    insideF empty (distance_lt inside insideF)
  rw [← insertIndex_buckets (lib.highLoad (t.size + 1) t.bucketCount) t.bucketCount dist t.growOnNextInsert] at done
  cases inserted : insertIndex (lib.highLoad (t.size + 1) t.bucketCount) t.bucketCount i dist
      ⟨t.size, truncateHash (lib.hash key)⟩ t.growOnNextInsert t.buckets with
  | error failure => simp [inserted, Except.map] at done
  | ok result =>
    obtain ⟨buckets', grow⟩ := result
    rw [inserted] at done
    obtain rfl : buckets' = buckets := Except.ok.inj done
    have count : (⟨buckets', t.values ++ [(key, default)], grow⟩ : OrderedHash κ ν).bucketCount = t.bucketCount :=
      laid.count
    refine ⟨buckets', grow, rfl, .inr ⟨k, small, count.trans power⟩, ?_, ?_, ?_, ?_, ?_, fun asks => ?_⟩
    · rw [count]
      exact laid.placed
    · have appended : entriesOf lib (t.values ++ [(key, default)]) =
          entriesOf lib t.values ++ [⟨t.size, truncateHash (lib.hash key)⟩] := by
        simp [entriesOf, OrderedHash.size, List.mapIdx_append]
      rw [appended]
      exact (entries.trans (sound.content.cons _)).trans (List.perm_append_singleton _ _).symm
    · rw [List.map_append, List.map_singleton, List.nodup_append]
      refine ⟨sound.distinct, List.nodup_singleton _, ?_⟩
      intro a old b new
      rw [List.mem_singleton] at new
      subst new
      exact fun same => fresh (same ▸ old)
    · simp only [OrderedHash.size, List.length_append, List.length_singleton] at room ⊢
      omega
    · rw [count]
      exact sound.sparse
    · rcases insertIndex_grow inserted asks with before | loaded
      · simp [calm] at before
      · have crowded := lib.dense _ _ loaded
        rw [count]
        omega

theorem Sound.power_of_room (sound : Sound lib bound t) (free : t.size < t.bucketCount) :
    ∃ k ≤ 32, t.bucketCount = 2 ^ k := by
  rcases sound.power with unallocated | powers
  · omega
  · exact powers

theorem arrived_home {n k : ℕ} (power : n = 2 ^ k) (small : k ≤ 32) (index hash : ℕ) :
    t.Arrived n (bucketForHash n hash) 0 ⟨index, truncateHash hash⟩ := by
  intro _
  rw [← bucketForHash_truncate power small hash]
  exact ⟨(distance_self ..).symm, carried_home _⟩

theorem probe_spec [DecidableEq κ] (sound : Sound lib bound t) (key : κ) :
    (∃ index v, t.probeFrom key (lib.hash key) (t.bucketCount + 1)
      (bucketForHash t.bucketCount (lib.hash key)) 0 = .ok (.present index) ∧ t.values[index]? = some (key, v)) ∨
    (∃ i dist, t.probeFrom key (lib.hash key) (t.bucketCount + 1)
      (bucketForHash t.bucketCount (lib.hash key)) 0 = .ok (.absent i dist) ∧ key ∉ t.values.map Prod.fst ∧
      (t.size < t.bucketCount → i < t.bucketCount ∧
        t.Arrived t.bucketCount i dist ⟨t.size, truncateHash (lib.hash key)⟩)) := by
  rcases sound.power with unallocated | ⟨k, small, power⟩
  · have empty (i : ℕ) : bucket t.buckets i = none := by
      have nil : t.buckets = [] := List.length_eq_zero_iff.mp unallocated
      simp [bucket, nil]
    refine .inr ⟨bucketForHash t.bucketCount (lib.hash key), 0, ?_, sound.absent (by simp [empty]), by omega⟩
    simp [probeFrom, empty]
  · have home : idealBucket t.bucketCount ⟨t.size, truncateHash (lib.hash key)⟩ =
        bucketForHash t.bucketCount (lib.hash key) := bucketForHash_truncate power small _
    rcases probeFrom_spec sound.laid power small
      (show Searching t key (lib.hash key) t.bucketCount _ 0 from searching_start power)
      (show 0 + (t.bucketCount + 1) = t.bucketCount + 1 from Nat.zero_add _) home
      (arrived_home power small t.size (lib.hash key)) with
      ⟨b, held, found, taken, sought⟩ | ⟨i, dist, ended, inside, arrived, nowhere⟩
    · obtain ⟨v, listed⟩ := sought_value sought
      exact .inl ⟨_, v, found, listed⟩
    · exact .inr ⟨i, dist, ended, sound.absent nowhere, fun _ => ⟨inside, arrived⟩⟩

/-- `insert_impl` gives the position of the key, appending it if it is not there. -/
theorem insertImpl_spec [DecidableEq κ] [Inhabited ν] (sound : Sound lib bound t) (small : bound ≤ 2 ^ 27)
    (key : κ) (room : key ∉ t.values.map Prod.fst → t.size < bound) :
    (∃ index v, t.insertImpl lib key = .ok (t, index) ∧ t.values[index]? = some (key, v)) ∨
    (∃ t', t.insertImpl lib key = .ok (t', t.size) ∧ Sound lib bound t' ∧
      t'.values = t.values ++ [(key, default)] ∧ key ∉ t.values.map Prod.fst) := by
  rcases probe_spec sound key with ⟨index, v, found, held⟩ | ⟨i, dist, ended, fresh, arrives⟩
  · refine .inl ⟨index, v, ?_, held⟩
    simp only [insertImpl, found]
    rfl
  · obtain ⟨t', rehashed, grown, sound', same, calm, free, kept⟩ := grow_spec sound small (room fresh)
    have room := room fresh
    have sizes : t'.size = t.size := by simp [OrderedHash.size, same]
    have notFull : ¬ t.size ≥ maxSize := by
      simp only [maxSize]
      omega
    -- A rehashed table is searched afresh from the ideal bucket.
    have arrived : ∀ start : ℕ × ℕ,
        start = (if rehashed then (bucketForHash t'.bucketCount (lib.hash key), 0) else (i, dist)) →
        start.1 < t'.bucketCount ∧
          t'.Arrived t'.bucketCount start.1 start.2 ⟨t'.size, truncateHash (lib.hash key)⟩ := by
      rintro start rfl
      cases rehashed with
      | true =>
        obtain ⟨k, small, power⟩ := sound'.power_of_room free
        exact ⟨bucketForHash_lt power _, arrived_home power small _ _⟩
      | false =>
        obtain rfl := kept rfl
        exact arrives free
    obtain ⟨place, arrived⟩ := arrived _ rfl
    obtain ⟨buckets, grow, inserted, sound''⟩ := append_spec sound' (by omega) free calm (by rwa [same]) place arrived
    refine .inr ⟨⟨buckets, t'.values ++ [(key, default)], grow⟩, ?_, sound'', by rw [same], fresh⟩
    have length : (t'.values ++ [(key, default)]).length = t'.size + 1 := by simp [OrderedHash.size]
    simp only [insertImpl, ended]
    change (if t.size ≥ maxSize then _ else _) = _
    rw [if_neg notFull, grown]
    change (do
      let done ← insertIndex (lib.highLoad (t'.values ++ [(key, default)]).length t'.bucketCount) t'.bucketCount _ _
        ⟨(t'.values ++ [(key, default)]).length - 1, truncateHash (lib.hash key)⟩ t'.growOnNextInsert t'.buckets
      return ((⟨done.1, t'.values ++ [(key, default)], done.2⟩ : OrderedHash κ ν),
        (t'.values ++ [(key, default)]).length - 1)) = _
    rw [length, Nat.add_sub_cancel, inserted, ← sizes]
    rfl

theorem entriesOf_keys {values values' : List (κ × ν)} (same : values'.map Prod.fst = values.map Prod.fst) :
    entriesOf lib values' = entriesOf lib values := by
  have keys (values : List (κ × ν)) : entriesOf lib values =
      (values.map Prod.fst).mapIdx fun i k => ⟨i, truncateHash (lib.hash k)⟩ := by
    rw [entriesOf, List.mapIdx_eq_iff]
    intro i
    simp [List.getElem?_mapIdx, Option.map_map, Function.comp_def]
  rw [keys, keys, same]

theorem Sound.modify (sound : Sound lib bound t) (index : ℕ) (f : ν → ν) :
    Sound lib bound { t with values := t.values.modify index fun e => (e.1, f e.2) } := by
  have same : (t.values.modify index fun e => (e.1, f e.2)).map Prod.fst = t.values.map Prod.fst := by
    apply List.ext_getElem?
    intro i
    rw [List.getElem?_map, List.getElem?_modify, List.getElem?_map]
    cases t.values[i]? with
    | none => rfl
    | some e => by_cases here : index = i <;> simp [here]
  refine ⟨sound.power, sound.placed, ?_, ?_, ?_, sound.sparse, sound.dense⟩
  · rw [entriesOf_keys same]
    exact sound.content
  · rw [same]
    exact sound.distinct
  · simpa [OrderedHash.size] using sound.size

theorem update_spec [DecidableEq κ] [Inhabited ν] (sound : Sound lib bound t) (small : bound ≤ 2 ^ 27)
    (key : κ) (f : ν → ν) (room : key ∉ t.values.map Prod.fst → t.size < bound) :
    ∃ t', t.update lib key f = .ok t' ∧ Sound lib bound t' ∧ ∃ values index v,
      values[index]? = some (key, v) ∧ t'.values = (values.modify index fun e => (e.1, f e.2)) ∧
      (values = t.values ∨ values = t.values ++ [(key, default)] ∧ key ∉ t.values.map Prod.fst) := by
  rcases insertImpl_spec sound small key room with ⟨index, v, found, held⟩ | ⟨t', inserted, sound', same, fresh⟩
  · exact ⟨_, by rw [update, found]; rfl, sound.modify index f, t.values, index, v, held, rfl, .inl rfl⟩
  · refine ⟨_, by rw [update, inserted]; rfl, sound'.modify t.size f, t'.values, t.size, default, ?_, rfl,
      .inr ⟨same, fresh⟩⟩
    rw [same, OrderedHash.size, List.getElem?_concat_length]

end Values

section Erasing

variable {n p away fuel index : ℕ} {buckets : List (Option BucketEntry)} {entry : BucketEntry}

/-- The entries behind an emptied bucket move up until one is in its ideal bucket. -/
theorem backwardShift_spec (count : buckets.length = n) (hole : Hole n (idealBucket n) (bucket buckets) p away)
    (enough : total n (idealBucket n) (bucket buckets) < fuel) :
    ∃ buckets', backwardShift fuel p buckets = .ok buckets' ∧ Laid n buckets' ∧
      buckets'.reduceOption.Perm buckets.reduceOption := by
  induction fuel generalizing p away buckets with
  | zero => omega
  | succ fuel ih =>
    cases here : bucket buckets (next n p) with
    | none =>
      refine ⟨buckets, ?_, ⟨count, hole.close (by simp [here])⟩, .refl _⟩
      simp only [backwardShift, nextBucket, count, here]
    | some entry =>
      by_cases off : distance n (idealBucket n entry) (next n p) > 0
      · have place : p < buckets.length := count ▸ hole.place
        have place' : next n p < (buckets.set p (some entry)).length := by
          rw [List.length_set, count]
          exact next_lt hole.place
        have apart : next n p ≠ p := by
          intro same
          rw [same, hole.empty] at here
          contradiction
        have moved : bucket ((buckets.set p (some entry)).set (next n p) none) =
            Function.update (Function.update (bucket buckets) p (some entry)) (next n p) none := by
          rw [bucket_set place', bucket_set place]
        have fewer := hole.total_shift here off
        rw [← moved] at fewer
        have hole' := hole.shift here off
        rw [← moved] at hole'
        obtain ⟨buckets', done, laid, entries⟩ := ih (by rw [List.length_set, List.length_set, count]) hole'
          (by omega)
        refine ⟨buckets', ?_, laid, entries.trans ?_⟩
        · simp only [backwardShift, nextBucket, count, here, distanceFromIdealBucket]
          rw [if_pos off, hole.empty]
          exact done
        · have filled := reduceOption_set place (some entry)
          have emptied := reduceOption_set place' none
          rw [bucket_set place, Function.update_of_ne apart, here] at emptied
          rw [hole.empty] at filled
          exact List.Perm.cons_inv (emptied.trans filled)
      · refine ⟨buckets, ?_, ⟨count, hole.close fun a taken => ?_⟩, .refl _⟩
        · simp only [backwardShift, nextBucket, count, here, distanceFromIdealBucket]
          rw [if_neg off]
        · rw [here] at taken
          cases taken
          omega

def shifted (indexAboveOrEqual : ℕ) (entry : BucketEntry) : BucketEntry :=
  if entry.index ≥ indexAboveOrEqual then { entry with index := entry.index - 1 } else entry

theorem shifted_below {above : ℕ} (below : entry.index < above) : shifted above entry = entry :=
  if_neg (by omega)

@[simp] theorem shifted_hash (above : ℕ) (entry : BucketEntry) : (shifted above entry).hash = entry.hash := by
  unfold shifted
  split_ifs <;> rfl

theorem bucket_shiftIndexesDown (above i : ℕ) :
    bucket (shiftIndexesDown above buckets) i = (bucket buckets i).map (shifted above) := by
  rw [bucket, shiftIndexesDown, List.getElem?_map, bucket]
  cases buckets[i]? with
  | none => rfl
  | some held => rfl

variable {lib : HashLib κ} {bound : ℕ} {t : OrderedHash κ ν} {key : κ} {v : ν}

/-- Without one value the entries are those of the others, the later ones moved down. -/
theorem entriesOf_eraseIdx {values : List (κ × ν)} {i : ℕ} {e : κ × ν} (listed : values[i]? = some e) :
    ((entriesOf lib values).map (shifted (i + 1))).Perm
      (⟨i, truncateHash (lib.hash e.1)⟩ :: entriesOf lib (values.eraseIdx i)) := by
  obtain ⟨inside, rfl⟩ := List.getElem?_eq_some_iff.mp listed
  have front : (values.take i).length = i := by
    rw [List.length_take]
    omega
  have before : (entriesOf lib (values.take i)).map (shifted (i + 1)) = entriesOf lib (values.take i) := by
    refine (List.map_congr_left fun entry member => ?_).trans (List.map_id _)
    obtain ⟨e, held, -⟩ := mem_entriesOf.mp member
    have := (List.getElem?_eq_some_iff.mp held).1
    exact shifted_below (by omega)
  have whole : entriesOf lib values = entriesOf lib (values.take i) ++ ⟨i, truncateHash (lib.hash values[i].1)⟩ ::
      (values.drop (i + 1)).mapIdx fun j e => ⟨i + (j + 1), truncateHash (lib.hash e.1)⟩ := by
    conv_lhs => rw [← List.take_append_drop i values, ← List.getElem_cons_drop inside]
    rw [entriesOf, List.mapIdx_append, front, List.mapIdx_cons]
    simp [entriesOf, Nat.add_comm]
  have rest : entriesOf lib (values.eraseIdx i) = entriesOf lib (values.take i) ++
      (values.drop (i + 1)).mapIdx fun j e => ⟨i + j, truncateHash (lib.hash e.1)⟩ := by
    rw [List.eraseIdx_eq_take_drop_succ, entriesOf, List.mapIdx_append, front, entriesOf]
    simp [Nat.add_comm]
  have after : ((values.drop (i + 1)).mapIdx fun j e =>
        (⟨i + (j + 1), truncateHash (lib.hash e.1)⟩ : BucketEntry)).map (shifted (i + 1)) =
      (values.drop (i + 1)).mapIdx fun j e => ⟨i + j, truncateHash (lib.hash e.1)⟩ := by
    rw [eq_comm, List.mapIdx_eq_iff]
    intro j
    rw [List.getElem?_map, List.getElem?_mapIdx]
    cases (values.drop (i + 1))[j]? with
    | none => rfl
    | some e => simp [shifted, ← Nat.add_assoc]
  rw [whole, rest, List.map_append, List.map_cons, before, after, shifted_below (Nat.lt_succ_self i)]
  exact List.perm_middle

/-- Erasing the last value there is nothing to move down. -/
theorem Sound.last_erased (sound : Sound lib bound t) (inside : index < t.values.length) :
    (if index ≠ (t.values.eraseIdx index).length then shiftIndexesDown (index + 1) t.buckets else t.buckets) =
      shiftIndexesDown (index + 1) t.buckets := by
  split_ifs with last
  · rfl
  · rw [List.length_eraseIdx_of_lt inside] at last
    refine ((List.map_congr_left fun held member => ?_).trans (List.map_id _)).symm
    cases held with
    | none => rfl
    | some entry =>
      obtain ⟨e, listed, -⟩ := mem_entriesOf.mp (sound.content.mem_iff.mp (List.reduceOption_mem_iff.mpr member))
      have := (List.getElem?_eq_some_iff.mp listed).1
      change some (shifted (index + 1) entry) = some entry
      rw [shifted_below (by omega)]

theorem eraseValueFromBucket_spec (sound : Sound lib bound t) {b : ℕ} (held : bucket t.buckets b = some entry)
    (listed : t.values[entry.index]? = some (key, v)) :
    ∃ t', t.eraseValueFromBucket b entry = .ok t' ∧ Sound lib bound t' ∧
      t'.values = t.values.eraseIdx entry.index := by
  have inside := (List.getElem?_eq_some_iff.mp listed).1
  have moved : bucket (shiftIndexesDown (entry.index + 1) t.buckets) =
      fun i => (bucket t.buckets i).map (shifted (entry.index + 1)) := funext fun i => bucket_shiftIndexesDown ..
  have count : (shiftIndexesDown (entry.index + 1) t.buckets).length = t.bucketCount := List.length_map ..
  have within : b < (shiftIndexesDown (entry.index + 1) t.buckets).length := count ▸ bucket_inside held
  have taken : bucket (shiftIndexesDown (entry.index + 1) t.buckets) b = some entry := by
    rw [bucket_shiftIndexesDown, held, Option.map_some, shifted_below (Nat.lt_succ_self _)]
  have placed : Placed t.bucketCount (idealBucket t.bucketCount)
      (bucket (shiftIndexesDown (entry.index + 1) t.buckets)) := by
    rw [moved]
    exact sound.placed.map fun a => by rw [idealBucket, shifted_hash, idealBucket]
  have hole := placed.remove taken
  rw [← bucket_set within] at hole
  obtain ⟨buckets, done, laid, entries⟩ := backwardShift_spec
    (by rw [List.length_set, count]) hole
    (show total _ _ _ < t.bucketCount * t.bucketCount + 1 from Nat.lt_succ_of_le (total_le hole.inside))
  have count' : (⟨buckets, t.values.eraseIdx entry.index, t.growOnNextInsert⟩ : OrderedHash κ ν).bucketCount =
      t.bucketCount := laid.count
  have value : entry.hash = truncateHash (lib.hash key) := by
    obtain ⟨e, same, cut⟩ := sound.value held
    rw [listed, Option.some.injEq] at same
    rw [cut, ← same]
  have content : buckets.reduceOption.Perm (entriesOf lib (t.values.eraseIdx entry.index)) := by
    have emptied := reduceOption_set within none
    rw [taken, shiftIndexesDown, List.reduceOption_map] at emptied
    have others := (sound.content.map (shifted (entry.index + 1))).trans (entriesOf_eraseIdx listed)
    rw [← value] at others
    exact entries.trans (List.Perm.cons_inv (emptied.trans others))
  have length : ((shiftIndexesDown (entry.index + 1) t.buckets).set b none).length = t.bucketCount := by
    rw [List.length_set, count]
  refine ⟨⟨buckets, t.values.eraseIdx entry.index, t.growOnNextInsert⟩, ?_, ⟨?_, ?_, content, ?_, ?_, ?_, ?_⟩, rfl⟩
  · simp only [eraseValueFromBucket]
    rw [sound.last_erased inside, length, done]
    rfl
  · rw [count']
    exact sound.power
  · rw [count']
    exact laid.placed
  · exact sound.distinct.sublist ((List.eraseIdx_sublist ..).map _)
  · have shorter := List.length_eraseIdx_of_lt inside
    have size := sound.size
    simp only [OrderedHash.size] at size ⊢
    omega
  · rw [count']
    exact sound.sparse
  · rw [count']
    exact sound.dense

theorem erase_spec [DecidableEq κ] (sound : Sound lib bound t) (key : κ) :
    (∃ t' index v, t.erase lib key = .ok t' ∧ Sound lib bound t' ∧ t.values[index]? = some (key, v) ∧
      t'.values = t.values.eraseIdx index) ∨
    (t.erase lib key = .ok t ∧ key ∉ t.values.map Prod.fst) := by
  rcases findKey_spec sound key with ⟨b, entry, v, found, held, listed⟩ | ⟨ended, fresh⟩
  · obtain ⟨t', erased, sound', rest⟩ := eraseValueFromBucket_spec sound held listed
    refine .inl ⟨t', entry.index, v, ?_, sound', listed, rest⟩
    simp only [erase, found, bind, Except.bind, held]
    exact erased
  · exact .inr ⟨by simp only [erase, ended]; rfl, fresh⟩

end Erasing

end OrderedHash

inductive MapOperation (κ ν : Type) where
  /-- `m[key]`, changed in place -/
  | update (key : κ) (f : ν → ν)
  | erase (key : κ)

section Refinement

variable {κ ν : Type} [DecidableEq κ] [Inhabited ν]

def OrderedHash.apply (lib : HashLib κ) (t : OrderedHash κ ν) :
    MapOperation κ ν → Except HashFailure (OrderedHash κ ν)
  | .update key f => t.update lib key f
  | .erase key => t.erase lib key

def MapOperation.on (m : Lookup.OrderedMap κ ν) : MapOperation κ ν → Lookup.OrderedMap κ ν
  | .update key f => (m.insert key default).modify key f
  | .erase key => m.erase key

structure OrderedHash.Refines (lib : HashLib κ) (t : OrderedHash κ ν) (m : Lookup.OrderedMap κ ν) : Prop where
  sound : t.Sound lib (2 ^ 27)
  entries : t.values = m.entries

variable {lib : HashLib κ} {t : OrderedHash κ ν} {m : Lookup.OrderedMap κ ν}

omit [DecidableEq κ] [Inhabited ν] in
theorem OrderedHash.Refines.keys (refines : t.Refines lib m) : t.values.map Prod.fst = m.keys := by
  rw [refines.entries, Lookup.OrderedMap.keys]

theorem OrderedHash.apply_refines (refines : t.Refines lib m) (op : MapOperation κ ν)
    (few : (op.on m).size ≤ 2 ^ 27) : ∃ t', t.apply lib op = .ok t' ∧ t'.Refines lib (op.on m) := by
  cases op with
  | update key f =>
    have room : key ∉ t.values.map Prod.fst → t.size < 2 ^ 27 := by
      intro fresh
      rw [refines.keys] at fresh
      simp only [MapOperation.on, Lookup.OrderedMap.size_modify, Lookup.OrderedMap.size_insert fresh] at few
      rw [OrderedHash.size, refines.entries]
      exact few
    obtain ⟨t', updated, sound, values, index, v, held, modified, kept | ⟨grown, fresh⟩⟩ :=
      update_spec refines.sound le_rfl key f room
    · have present : key ∈ m.keys := by
        rw [← refines.keys, ← kept]
        exact List.mem_map_of_mem (List.mem_of_getElem? held)
      refine ⟨t', updated, sound, ?_⟩
      rw [kept, refines.entries] at held modified
      rw [modified, MapOperation.on, Lookup.OrderedMap.insert_present present,
        Lookup.OrderedMap.entries_modify_at held]
    · have same : values = (m.insert key default).entries := by
        rw [grown, refines.entries, Lookup.OrderedMap.entries_insert (by rwa [← refines.keys])]
      rw [same] at held modified
      exact ⟨t', updated, sound, by rw [modified, MapOperation.on, Lookup.OrderedMap.entries_modify_at held]⟩
  | erase key =>
    rcases erase_spec refines.sound key with ⟨t', index, v, erased, sound, held, rest⟩ | ⟨erased, fresh⟩
    · rw [refines.entries] at held rest
      exact ⟨t', erased, sound, by rw [rest, MapOperation.on, Lookup.OrderedMap.entries_erase_at held]⟩
    · refine ⟨t, erased, refines.sound, ?_⟩
      rw [refines.keys] at fresh
      rw [refines.entries, MapOperation.on]
      refine (List.filter_eq_self.mpr fun e member => ?_).symm
      have other : e.1 ≠ key := fun same => fresh (same ▸ List.mem_map_of_mem member)
      simpa using other

theorem OrderedHash.run_refines (refines : t.Refines lib m) (ops : List (MapOperation κ ν))
    (few : ∀ k, ((ops.take k).foldl MapOperation.on m).size ≤ 2 ^ 27) :
    ∃ t', ops.foldlM (OrderedHash.apply lib) t = .ok t' ∧ t'.Refines lib (ops.foldl MapOperation.on m) := by
  induction ops generalizing t m with
  | nil => exact ⟨t, rfl, refines⟩
  | cons op ops ih =>
    obtain ⟨t', applied, refines'⟩ := apply_refines refines op (few 1)
    obtain ⟨t'', rest, refines''⟩ := ih refines' fun k => few (k + 1)
    refine ⟨t'', ?_, refines''⟩
    rw [List.foldlM_cons, applied]
    exact rest

omit [Inhabited ν] in
theorem OrderedHash.find_refines (refines : t.Refines lib m) (key : κ) :
    (t.find lib key).map (Option.map fun i => t.values[i]?) = .ok ((m.find key).map fun v => some (key, v)) := by
  rcases findKey_spec refines.sound key with ⟨b, entry, v, found, held, listed⟩ | ⟨ended, fresh⟩
  · have same : m.find key = some v := Lookup.OrderedMap.find_of_at (refines.entries ▸ listed)
    rw [find, found, same, Option.map_some, ← listed]
    change Except.ok (((bucket t.buckets b).map BucketEntry.index).map fun i => t.values[i]?) = _
    rw [held]
    rfl
  · rw [refines.keys, ← Lookup.OrderedMap.find_eq_none] at fresh
    rw [find, ended, fresh]
    rfl

/-- Every run of operations from the empty table with at most 2 ^ 27 keys at a time ends,
leaves the entries of the map in their order, and every search then finds what the map has. -/
theorem ordered_map_refines (lib : HashLib κ) (ops : List (MapOperation κ ν))
    (few : ∀ k, ((ops.take k).foldl MapOperation.on .empty).size ≤ 2 ^ 27) :
    ∃ t, ops.foldlM (OrderedHash.apply lib) .empty = .ok t ∧
      t.values = (ops.foldl MapOperation.on .empty).entries ∧
      ∀ key, (t.find lib key).map (Option.map fun i => t.values[i]?) =
        .ok (((ops.foldl MapOperation.on .empty).find key).map fun v => some (key, v)) := by
  have start : OrderedHash.Refines lib (.empty : OrderedHash κ ν) .empty := ⟨OrderedHash.empty_sound lib _, rfl⟩
  obtain ⟨t, ends, refines⟩ := OrderedHash.run_refines start ops few
  exact ⟨t, ends, refines.entries, OrderedHash.find_refines refines⟩

theorem size_on_le (m : Lookup.OrderedMap κ ν) (op : MapOperation κ ν) : (op.on m).size ≤ m.size + 1 := by
  cases op with
  | update key f =>
    rw [MapOperation.on, Lookup.OrderedMap.size_modify]
    by_cases present : key ∈ m.keys
    · rw [Lookup.OrderedMap.insert_present present]
      omega
    · rw [Lookup.OrderedMap.size_insert present]
  | erase key => exact (List.length_filter_le ..).trans (Nat.le_succ _)

theorem size_run_le (m : Lookup.OrderedMap κ ν) (ops : List (MapOperation κ ν)) :
    (ops.foldl MapOperation.on m).size ≤ m.size + ops.length := by
  induction ops generalizing m with
  | nil => exact le_rfl
  | cons op ops ih =>
    have rest := ih (op.on m)
    have first := size_on_le m op
    rw [List.foldl_cons, List.length_cons]
    omega

end Refinement

/-- `std::hash` of an integer in libstdc++, and the load factor of at most 2 ^ 24 values. -/
def integerHash : HashLib ℤ where
  hash key := (key % 2 ^ 64).toNat
  maxBucketCount := 2 ^ 60
  highLoad size bucketCount := size * 2 ^ 26 ≥ 10066330 * bucketCount
  room := by decide
  dense := by
    intro size bucketCount high
    simp only [ge_iff_le, decide_eq_true_eq] at high
    omega

/-- Three station IDs whose first buckets are the same. -/
theorem ordered_map_refines_colliding :
    ∃ t, ([.update 1 (fun _ => 10), .update 17 (fun _ => 20), .erase 1, .update 33 (fun _ => 30),
        .update 17 (· + 1)] : List (MapOperation ℤ ℕ)).foldlM (OrderedHash.apply integerHash) .empty = .ok t ∧
      t.values = [(17, 21), (33, 30)] := by
  have few (ops : List (MapOperation ℤ ℕ)) (short : ops.length ≤ 2 ^ 27) (k : ℕ) :
      ((ops.take k).foldl MapOperation.on .empty).size ≤ 2 ^ 27 := by
    have grows := size_run_le .empty (ops.take k)
    have taken := List.length_take_le' k ops
    rw [show (Lookup.OrderedMap.empty : Lookup.OrderedMap ℤ ℕ).size = 0 from rfl] at grows
    omega
  obtain ⟨t, ends, values, -⟩ := ordered_map_refines integerHash
    [.update 1 (fun _ => 10), .update 17 (fun _ => 20), .erase 1, .update 33 (fun _ => 30), .update 17 (· + 1)]
    (few _ (by decide))
  exact ⟨t, ends, values.trans (by decide)⟩

end LigDataParsing
