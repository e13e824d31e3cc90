import LigDataParsing.TimeString
import LigDataParsing.TimeText

/-! The download of triggers: `parse_result` reads the rows of a response, and six attempts
at two servers are made until one of them brings a trigger. -/
namespace LigDataParsing

/-- What a download takes from outside: jsoncpp, `std::stof`, and the order in which the
compiler evaluates the operands of a difference and the arguments of a call. -/
structure ApiLib (Value : Type) where
  /-- `none` where the reader refuses the body or throws. -/
  parse : String → Option Value
  items : Value → List Value
  size : Value → ℕ
  /-- `operator[]`; a `Json::Exception` is `none` here and in `asString`. -/
  entryAt : Value → ℕ → Option Value
  asString : Value → Option (List Char)
  stof : List Char → Option ℚ
  operands : List ℕ
  arguments : List ℕ

inductive Thrown where
  /-- A `Json::Exception`, which `parse_result` catches. -/
  | json
  /-- The exception of `stoi` or `stof`, which its caller catches. -/
  | number

structure Response where
  status : ℤ
  body : String

structure Request where
  url : List Char
  path : List Char

structure TriggerConfig where
  urlU : List Char
  urlJ : List Char
  apiRt : List Char
  apiNt : List Char

/-- The triggers read so far, and whether an exception leaves `parse_result`. -/
structure Parsed where
  triggers : List TriggerInfo
  thrown : Bool

structure Download where
  asked : ℕ
  triggers : List TriggerInfo

section Rows

variable {Value : Type} (lib : ApiLib Value)

def fieldText (item : Value) (i : ℕ) : Except Thrown (List Char) :=
  ((lib.entryAt item i).bind lib.asString).elim (.error .json) .ok

def intField (item : Value) (i : ℕ) : Except Thrown ℤ := do
  let text ← fieldText lib item i
  (stoi text).elim (.error .number) .ok

def realField (item : Value) (i : ℕ) : Except Thrown ℚ := do
  let text ← fieldText lib item i
  (lib.stof text).elim (.error .number) .ok

/-- Evaluates one field for the exception it may throw. -/
def checkField (item : Value) (i : ℕ) : Except Thrown Unit :=
  if i = 6 ∨ i = 8 ∨ i = 9 then (realField lib item i).map fun _ => () else (intField lib item i).map fun _ => ()

/-- One row of ten entries. Among the fields of one expression the first in the compiler's
order decides which exception is thrown. -/
def readRow (item : Value) : Except Thrown TriggerInfo := do
  let stationID ← intField lib item 7
  lib.operands.forM (checkField lib item)
  let high ← realField lib item 9
  let low ← realField lib item 8
  lib.arguments.forM (checkField lib item)
  let year ← intField lib item 0
  let month ← intField lib item 1
  let day ← intField lib item 2
  let hour ← intField lib item 3
  let min ← intField lib item 4
  let sec ← intField lib item 5
  let nano ← realField lib item 6
  let time := GPSTime.ofFields (year - 2000) month day hour min sec (nano / 1000000000)
  return ⟨time, stationID, (high - low) * 1.0 / 2048 * 5.0, 0⟩

/-- The loop over the rows; it leaves at the first that has not ten entries or throws. -/
def readRows : List Value → List TriggerInfo → Parsed
  | [], alltriggers => ⟨alltriggers, false⟩
  | item :: rest, alltriggers =>
    if lib.size item ≠ 10 then ⟨alltriggers, false⟩
    else match readRow lib item with
      | .ok trigger => readRows rest (alltriggers ++ [trigger])
      | .error .json => ⟨alltriggers, false⟩
      | .error .number => ⟨alltriggers, true⟩

def parseResult (res : Option Response) (alltriggers : List TriggerInfo) : Parsed :=
  match res with
  | none => ⟨alltriggers, false⟩
  | some res =>
    if res.status = 200 then
      match lib.parse res.body with
      | some root => readRows lib (lib.items root) alltriggers
      | none => ⟨alltriggers, false⟩
    else ⟨alltriggers, false⟩

variable (sorter : KeyedSort.Sorter TriggerInfo TriggerInfo.lt) (res : ℕ → Option Response)

/-- The attempts from `i` on, at most `left`; the sixth returns whatever it brings. -/
def attempts : (left i : ℕ) → List TriggerInfo → Download
  | 0, i, allTriggers => ⟨i, allTriggers⟩
  | left + 1, i, allTriggers =>
    if (res i).any (fun res => res.status = 200) then
      let parsed := parseResult lib (res i) allTriggers
      if parsed.thrown then ⟨i + 1, parsed.triggers⟩
      else
        let allTriggers := KeyedSort.sortUnique sorter TriggerInfo.eq parsed.triggers
        if allTriggers ≠ [] then ⟨i + 1, allTriggers⟩
        else if i = 5 then ⟨i + 1, allTriggers⟩
        else attempts left (i + 1) allTriggers
    else if i = 5 then ⟨i + 1, allTriggers⟩
    else attempts left (i + 1) allTriggers

def download : Download := attempts lib sorter res 6 0 []

end Rows

/-- The first three attempts go to `url_u`, the others to `url_j`. -/
def TriggerConfig.url (config : TriggerConfig) (i : ℕ) : List Char := if i < 3 then config.urlU else config.urlJ

def realTimeRequest (config : TriggerConfig) (i : ℕ) : Request := ⟨config.url i, config.apiRt⟩

def historicalRequest (config : TriggerConfig) (tillTime : GPSTime) (minutes : ℤ) (i : ℕ) : Request :=
  ⟨config.url i, config.apiNt ++ ('2' :: '0' :: tillTime.str.drop 2) ++ '/' :: (toString minutes).toList⟩

section Functions

variable {Value : Type} (lib : ApiLib Value) (sorter : KeyedSort.Sorter TriggerInfo TriggerInfo.lt)
  (config : TriggerConfig) (server : ℕ → Request → Option Response)

/-- The message sent after the last attempt is left out. -/
def getRealTimeTriggerData : Download := download lib sorter fun i => server i (realTimeRequest config i)

def getHistoricalTriggerDataUntill (tillTime : GPSTime) (minutes : ℤ) : Download :=
  download lib sorter fun i => server i (historicalRequest config tillTime minutes i)

end Functions

section Property

variable {Value : Type} (lib : ApiLib Value) (sorter : KeyedSort.Sorter TriggerInfo TriggerInfo.lt)
  (res : ℕ → Option Response)

/-- The trigger a row stands for; `none` for a malformed one. -/
def decoding (item : Value) : Option TriggerInfo := if lib.size item = 10 then (readRow lib item).toOption else none

/-- The rows of a response, none unless its status is 200 and its body is JSON. -/
def rows (res : Option Response) : List Value :=
  ((res.filter fun res => res.status = 200).bind fun res => lib.parse res.body).elim [] lib.items

/-- Nothing, or the decoding of all rows of one response received, sorted and without
repetitions. -/
def AllOrNothing (d : Download) : Prop :=
  d.triggers = [] ∨ Ascending d.triggers ∧ ∃ i < d.asked, ∃ received all, res i = some received ∧
    received.status = 200 ∧ (rows lib (res i)).map (decoding lib) = all.map some ∧
    d.triggers = KeyedSort.sortUnique sorter TriggerInfo.eq all

/-- The response has no rows, or the first is malformed and no number in it throws. -/
def Skipped (res : Option Response) : Prop :=
  ∀ first ∈ (rows lib res).head?, lib.size first ≠ 10 ∨ readRow lib first = .error .json

/-- The first row is well formed and a later one is not. -/
def Broken (res : Option Response) : Prop :=
  ∃ first rest, rows lib res = first :: rest ∧ (decoding lib first).isSome ∧ ∃ item ∈ rest, decoding lib item = none

def Unbroken : Prop := ∀ i < 6, (∀ j < i, Skipped lib (res j)) → ¬Broken lib (res i)

end Property

/-- A list decodes as a whole, or up to a first element that does not. -/
theorem decoded_or_split {α β : Type*} (decode : α → Option β) (l : List α) :
    (∃ all : List β, l.map decode = all.map some) ∨
    ∃ good bad rest, ∃ all : List β, l = good ++ bad :: rest ∧ good.map decode = all.map some ∧ decode bad = none := by
  induction l with
  | nil => exact .inl ⟨[], rfl⟩
  | cons item l ih =>
    cases decoded : decode item with
    | none => exact .inr ⟨[], item, l, [], rfl, rfl, decoded⟩
    | some b =>
      rcases ih with ⟨all, whole⟩ | ⟨good, bad, rest, all, split, whole, malformed⟩
      · exact .inl ⟨b :: all, by rw [List.map_cons, decoded, whole, List.map_cons]⟩
      · refine .inr ⟨item :: good, bad, rest, b :: all, by rw [split, List.cons_append], ?_, malformed⟩
        rw [List.map_cons, decoded, whole, List.map_cons]

section Reading

variable {Value : Type} {lib : ApiLib Value} {res : Option Response} {all : List TriggerInfo}

theorem decoding_eq_some {item : Value} {t : TriggerInfo} :
    decoding lib item = some t ↔ lib.size item = 10 ∧ readRow lib item = .ok t := by
  unfold decoding
  split_ifs with ten
  · cases read : readRow lib item <;> simp [ten, Except.toOption]
  · simp [ten]

theorem readRows_good {good : List Value} (decoded : good.map (decoding lib) = all.map some)
    (rest : List Value) (alltriggers : List TriggerInfo) :
    readRows lib (good ++ rest) alltriggers = readRows lib rest (alltriggers ++ all) := by
  induction good generalizing all alltriggers with
  | nil =>
    cases all with
    | nil => rw [List.nil_append, List.append_nil]
    | cons => simp at decoded
  | cons item good ih =>
    cases all with
    | nil => simp at decoded
    | cons trigger all =>
      rw [List.map_cons, List.map_cons] at decoded
      obtain ⟨head, tail⟩ := List.cons.inj decoded
      obtain ⟨ten, read⟩ := decoding_eq_some.mp head
      rw [List.cons_append, readRows, if_neg (not_not.mpr ten), read]
      dsimp only
      rw [ih tail, List.append_assoc]
      rfl

theorem readRows_bad {bad : Value} (malformed : decoding lib bad = none) (rest : List Value)
    (alltriggers : List TriggerInfo) : (readRows lib (bad :: rest) alltriggers).triggers = alltriggers := by
  rw [readRows]
  split_ifs with ten
  · rfl
  · cases read : readRow lib bad with
    | ok trigger =>
      have decoded := decoding_eq_some.mpr ⟨not_not.mp ten, read⟩
      rw [malformed] at decoded
      contradiction
    | error thrown => cases thrown <;> rfl

theorem rows_received {received : Response} (ok : received.status = 200) :
    rows lib (some received) = (lib.parse received.body).elim [] lib.items := by
  rw [rows, Option.filter_some, if_pos (decide_eq_true ok), Option.bind_some]

theorem rows_refused {received : Response} (other : received.status ≠ 200) : rows lib (some received) = [] := by
  rw [rows, Option.filter_some, if_neg (by simpa using other), Option.bind_none, Option.elim_none]

theorem received_of_rows (nonempty : rows lib res ≠ []) : ∃ received, res = some received ∧ received.status = 200 := by
  cases res with
  | none => contradiction
  | some received => exact ⟨received, rfl, by_contra fun other => nonempty (rows_refused other)⟩

theorem parseResult_eq (res : Option Response) (alltriggers : List TriggerInfo) :
    parseResult lib res alltriggers = readRows lib (rows lib res) alltriggers := by
  cases res with
  | none => rfl
  | some received =>
    by_cases ok : received.status = 200
    · rw [parseResult, if_pos ok, rows_received ok]
      cases lib.parse received.body <;> rfl
    · rw [parseResult, if_neg ok, rows_refused ok, readRows]

inductive Reads (lib : ApiLib Value) (res : Option Response) : Prop where
  | skipped (skipped : Skipped lib res) (sound : ¬Broken lib res) (read : readRows lib (rows lib res) [] = ⟨[], false⟩)
  | whole (held : ¬Skipped lib res) (sound : ¬Broken lib res) (all : List TriggerInfo) (nonempty : all ≠ [])
      (decoded : (rows lib res).map (decoding lib) = all.map some)
      (read : readRows lib (rows lib res) [] = ⟨all, false⟩)
  | refused (held : ¬Skipped lib res) (sound : ¬Broken lib res) (read : readRows lib (rows lib res) [] = ⟨[], true⟩)
  | broken (broken : Broken lib res) (nonempty : (readRows lib (rows lib res) []).triggers ≠ [])

theorem Skipped.decoded (skipped : Skipped lib res) (decoded : (rows lib res).map (decoding lib) = all.map some) :
    all = [] := by
  cases all with
  | nil => rfl
  | cons trigger all =>
    obtain ⟨first, rest, known, head, _⟩ := List.map_eq_cons_iff.mp decoded
    obtain ⟨ten, read⟩ := decoding_eq_some.mp head
    rcases skipped first (by rw [known]; rfl) with short | thrown
    · contradiction
    · rw [read] at thrown
      contradiction

theorem Broken.decoded (broken : Broken lib res) : (rows lib res).map (decoding lib) ≠ all.map some := by
  obtain ⟨first, rest, known, _, item, later, malformed⟩ := broken
  intro decoded
  have member : decoding lib item ∈ all.map some := by
    rw [← decoded, known]
    exact List.mem_map_of_mem (List.mem_cons_of_mem _ later)
  simp [malformed] at member

theorem reads_malformed {bad : Value} {rest : List Value} (known : rows lib res = bad :: rest)
    (malformed : decoding lib bad = none) : Reads lib res := by
  have sound : ¬Broken lib res := by
    rintro ⟨first, _, known', wellFormed, _⟩
    cases known.symm.trans known'
    simp [malformed] at wellFormed
  have read : readRows lib (rows lib res) [] = readRows lib (bad :: rest) [] := by rw [known]
  by_cases ten : lib.size bad = 10
  · rw [readRows, if_neg (not_not.mpr ten)] at read
    cases row : readRow lib bad with
    | ok trigger =>
      have decoded := decoding_eq_some.mpr ⟨ten, row⟩
      rw [malformed] at decoded
      contradiction
    | error thrown =>
      rw [row] at read
      cases thrown with
      | json => exact .skipped (by simp [Skipped, known, row]) sound read
      | number => exact .refused (by simp [Skipped, known, row, ten]) sound read
  · rw [readRows, if_pos ten] at read
    exact .skipped (by simp [Skipped, known, ten]) sound read

theorem reads (lib : ApiLib Value) (res : Option Response) : Reads lib res := by
  rcases decoded_or_split (decoding lib) (rows lib res) with
    ⟨all, decoded⟩ | ⟨good, bad, rest, all, split, decoded, malformed⟩
  · have sound : ¬Broken lib res := fun broken => broken.decoded decoded
    have read : readRows lib (rows lib res) [] = ⟨all, false⟩ := by
      have whole := readRows_good decoded [] []
      rwa [List.append_nil, List.nil_append, readRows] at whole
    by_cases nothing : all = []
    · subst nothing
      have empty : rows lib res = [] := List.map_eq_nil_iff.mp decoded
      exact .skipped (by simp [Skipped, empty]) sound read
    · exact .whole (fun skipped => nothing (skipped.decoded decoded)) sound all nothing decoded read
  · cases good with
    | nil => exact reads_malformed split malformed
    | cons first good =>
      obtain ⟨trigger, later, rfl, head, _⟩ := List.map_eq_cons_iff.mp decoded.symm
      refine .broken ⟨first, good ++ bad :: rest, split, by rw [← head]; rfl, bad, by simp, malformed⟩ ?_
      rw [split, readRows_good decoded, readRows_bad malformed]
      exact List.cons_ne_nil _ _

end Reading

section Loop

variable {Value : Type} {lib : ApiLib Value} {sorter : KeyedSort.Sorter TriggerInfo TriggerInfo.lt}
  {res : ℕ → Option Response}

theorem attempts_succ (left i : ℕ) : attempts lib sorter res (left + 1) i [] =
    let parsed := readRows lib (rows lib (res i)) []
    let allTriggers := KeyedSort.sortUnique sorter TriggerInfo.eq parsed.triggers
    if parsed.thrown then ⟨i + 1, parsed.triggers⟩
    else if allTriggers ≠ [] then ⟨i + 1, allTriggers⟩
    else if i = 5 then ⟨i + 1, []⟩
    else attempts lib sorter res left (i + 1) [] := by
  by_cases ok : (res i).any (fun res => res.status = 200) = true
  · rw [attempts, if_pos ok, parseResult_eq]
    dsimp only
    split_ifs with thrown nonempty last
    · rfl
    · rfl
    · rw [not_not.mp nonempty]
    · rw [not_not.mp nonempty]
  · have empty : rows lib (res i) = [] := by
      cases received : res i with
      | none => rfl
      | some answered => exact rows_refused (by simpa [received] using ok)
    have nothing : KeyedSort.sortUnique sorter TriggerInfo.eq [] = [] :=
      (KeyedSort.sortUnique_eq_nil_iff sorter TriggerInfo.eq_iff).mpr rfl
    rw [attempts, if_neg ok, empty]
    simp [readRows, nothing]

theorem attempts_skipped {left i : ℕ} (read : readRows lib (rows lib (res i)) [] = ⟨[], false⟩) :
    attempts lib sorter res (left + 1) i [] =
      if i = 5 then ⟨i + 1, []⟩ else attempts lib sorter res left (i + 1) [] := by
  have empty : KeyedSort.sortUnique sorter TriggerInfo.eq [] = [] :=
    (KeyedSort.sortUnique_eq_nil_iff sorter TriggerInfo.eq_iff).mpr rfl
  rw [attempts_succ, read]
  simp [empty]

/-- Once anything is read the attempt returns it, sorted unless an exception came. -/
theorem attempts_filled (sorter : KeyedSort.Sorter TriggerInfo TriggerInfo.lt) (left : ℕ) {i : ℕ} {read : Parsed}
    (rowsRead : readRows lib (rows lib (res i)) [] = read) (nonempty : read.triggers ≠ []) : ∃ triggers, triggers ≠ [] ∧
      attempts lib sorter res (left + 1) i [] = ⟨i + 1, triggers⟩ ∧
      (read.thrown = false → triggers = KeyedSort.sortUnique sorter TriggerInfo.eq read.triggers) := by
  have filled : KeyedSort.sortUnique sorter TriggerInfo.eq read.triggers ≠ [] :=
    fun empty => nonempty ((KeyedSort.sortUnique_eq_nil_iff sorter TriggerInfo.eq_iff).mp empty)
  rw [attempts_succ, rowsRead]
  dsimp only
  rw [if_pos filled]
  split_ifs with thrown
  · exact ⟨_, nonempty, rfl, fun kept => by rw [thrown] at kept; contradiction⟩
  · exact ⟨_, filled, rfl, fun _ => rfl⟩

theorem not_broken_later {i k : ℕ} (held : ¬Skipped lib (res i)) (above : i ≤ k) (sound : ¬Broken lib (res i))
    (earlier : ∀ j < k, Skipped lib (res j)) : ¬Broken lib (res k) := by
  rcases above.eq_or_lt with rfl | later
  · exact sound
  · exact absurd (earlier i later) held

theorem attempts_iff (left i : ℕ) (total : i + left = 6) (earlier : ∀ j < i, Skipped lib (res j)) :
    AllOrNothing lib sorter res (attempts lib sorter res left i []) ↔
      ∀ k, i ≤ k → k < 6 → (∀ j < k, Skipped lib (res j)) → ¬Broken lib (res k) := by
  induction left generalizing i with
  | zero =>
    refine iff_of_true (.inl rfl) fun k above below => ?_
    omega
  | succ left ih =>
    cases reads lib (res i) with
    | skipped skipped sound read =>
      rw [attempts_skipped read]
      split_ifs with last
      · refine iff_of_true (.inl rfl) fun k above below _ => ?_
        obtain rfl : k = i := by omega
        exact sound
      · rw [ih (i + 1) (by omega) (Nat.forall_lt_succ_right.mpr ⟨earlier, skipped⟩)]
        constructor
        · intro holds k above below before
          rcases above.eq_or_lt with rfl | later
          · exact sound
          · exact holds k later below before
        · exact fun holds k above below before => holds k (Nat.le_of_succ_le above) below before
    | whole held sound all stocked decoded read =>
      obtain ⟨triggers, _, returned, sorted⟩ := attempts_filled sorter left read stocked
      have nonempty : rows lib (res i) ≠ [] := fun empty => by
        rw [empty] at decoded
        exact stocked (List.map_eq_nil_iff.mp decoded.symm)
      obtain ⟨received, arrived, ok⟩ := received_of_rows nonempty
      refine iff_of_true (.inr ?_) fun k above _ before => not_broken_later held above sound before
      rw [returned, sorted rfl]
      exact ⟨KeyedSort.sortUnique_ascending sorter TriggerInfo.lt_iff TriggerInfo.eq_iff all,
        i, Nat.lt_succ_self i, received, all, arrived, ok, decoded, rfl⟩
    | refused held sound read =>
      refine iff_of_true (.inl ?_) fun k above _ before => not_broken_later held above sound before
      rw [attempts_succ, read]
      rfl
    | broken broken stocked =>
      obtain ⟨triggers, filled, returned, _⟩ := attempts_filled sorter left rfl stocked
      refine iff_of_false ?_ fun holds => holds i le_rfl (by omega) earlier broken
      rw [returned]
      rintro (nothing | ⟨_, j, before, received, all, _, _, decoded, same⟩)
      · exact filled nothing
      · rcases (Nat.lt_succ_iff.mp before).eq_or_lt with rfl | sooner
        · exact broken.decoded decoded
        · have empty : all = [] := (earlier j sooner).decoded decoded
          rw [(KeyedSort.sortUnique_eq_nil_iff sorter TriggerInfo.eq_iff).mpr empty] at same
          exact filled same

theorem download_iff (lib : ApiLib Value) (sorter : KeyedSort.Sorter TriggerInfo TriggerInfo.lt)
    (res : ℕ → Option Response) : AllOrNothing lib sorter res (download lib sorter res) ↔ Unbroken lib res := by
  rw [download, attempts_iff 6 0 rfl (fun j before => absurd before (Nat.not_lt_zero j))]
  exact ⟨fun holds k => holds k (Nat.zero_le k), fun holds k _ => holds k⟩

end Loop

/-- Both downloads return nothing or the whole of one response exactly if no response they
reach has a malformed row after well-formed ones. -/
theorem all_or_nothing_iff {Value : Type} (lib : ApiLib Value) (sorter : KeyedSort.Sorter TriggerInfo TriggerInfo.lt)
    (config : TriggerConfig) (server : ℕ → Request → Option Response) (tillTime : GPSTime) (minutes : ℤ) :
    (AllOrNothing lib sorter (fun i => server i (realTimeRequest config i))
        (getRealTimeTriggerData lib sorter config server) ↔
      Unbroken lib fun i => server i (realTimeRequest config i)) ∧
    (AllOrNothing lib sorter (fun i => server i (historicalRequest config tillTime minutes i))
        (getHistoricalTriggerDataUntill lib sorter config server tillTime minutes) ↔
      Unbroken lib fun i => server i (historicalRequest config tillTime minutes i)) :=
  ⟨download_iff lib sorter _, download_iff lib sorter _⟩

namespace Sample

inductive Json where
  | null
  | string (text : List Char)
  | array (values : List Json)

def Json.items : Json → List Json
  | .array values => values
  | _ => []

def Json.entryAt : Json → ℕ → Option Json
  | .array values, i => some (values.getD i .null)
  | .null, _ => some .null
  | .string _, _ => none

def Json.asString : Json → Option (List Char)
  | .null => some []
  | .string text => some text
  | .array _ => none

def apiLib (values : List Json) : ApiLib Json where
  parse _ := some (.array values)
  items := Json.items
  size item := item.items.length
  entryAt := Json.entryAt
  asString := Json.asString
  stof text := (stoi text).map Int.cast
  operands := [9, 8]
  arguments := [6, 5, 4, 3, 2, 1, 0]

def fields (second : ℕ) : List Json :=
  [2024, 4, 20, 20, 20, second, 999300000, 2, 1024, 1536].map fun n => .string (Nat.toDigits 10 n)

def rowShort : List Json := [.array (fields 29), .array (fields 30).dropLast]

def rowLetter : List Json := [.array (fields 30), .array (fields 29), .array ((fields 31).set 7 (.string ['x']))]

def triggerConfig : TriggerConfig := ⟨['u'], ['j'], ['/', 'r', 't'], ['/', 'n', 't', '/']⟩

def answers (_ : ℕ) (_ : Request) : Option Response := some ⟨200, ""⟩

def sorter : KeyedSort.Sorter TriggerInfo TriggerInfo.lt := KeyedSort.insertionSorter TriggerInfo.lt_iff

def tillTime : GPSTime := .ofFields 24 4 20 20 40 0 0

def cutShort : Download := getRealTimeTriggerData (apiLib rowShort) sorter triggerConfig answers

def unsorted : Download := getHistoricalTriggerDataUntill (apiLib rowLetter) sorter triggerConfig answers tillTime 20

end Sample

/-- The row before the short one is returned, and the rows before the letter are returned
in the order they came in. -/
theorem download_partial :
    (Sample.cutShort.triggers.length = 1 ∧
      ¬ AllOrNothing (Sample.apiLib Sample.rowShort) Sample.sorter
        (fun i => Sample.answers i (realTimeRequest Sample.triggerConfig i)) Sample.cutShort) ∧
    ¬ Ascending Sample.unsorted.triggers ∧
      ¬ AllOrNothing (Sample.apiLib Sample.rowLetter) Sample.sorter
        (fun i => Sample.answers i (historicalRequest Sample.triggerConfig Sample.tillTime 20 i)) Sample.unsorted := by
  refine ⟨⟨by decide +kernel, fun holds => ?_⟩, by decide +kernel, fun holds => ?_⟩
  · apply (download_iff _ _ _).mp holds 0 (by omega) (by simp)
    exact ⟨_, _, rfl, by decide +kernel, _, List.mem_cons_self, by decide +kernel⟩
  · apply (download_iff _ _ _).mp holds 0 (by omega) (by simp)
    exact ⟨_, _, rfl, by decide +kernel, _, List.mem_cons_of_mem _ List.mem_cons_self, by decide +kernel⟩

end LigDataParsing
