import LigDataParsing.Crew
import LigDataParsing.LocFile

/-! How a post leaves the program: the line in the file, at most three requests to the
database, and the messages to the broker. What the file system, the server and the broker
answer is open; a post is sent by a worker of the pool, between the steps of the others. -/
namespace LigDataParsing

def topicL : List Char := "ltg-beta".toList

def topicW : List Char := "warning/LDP".toList

/-- What `PostLigResult` reports after its last retry. -/
def maxRetriesReached : List Char := "Max retries reached. Unable to connect to the server!".toList

def maxRetries : ℕ := 3

/-- The keys of `config.yaml` that switch the outputs. -/
structure Outputs where
  mode : List Char
  outputFile : Bool
  outputDataBase : Bool
  outputMQTT : Bool
  outputWarningMQTT : Bool

/-- The condition `sendDataViaMQTT` publishes on. -/
def Outputs.admits (o : Outputs) (topic : List Char) : Bool :=
  o.mode = "realTime".toList ∧ (topic = "warning/LDP".toList ∧ o.outputWarningMQTT = true ∨
    topic = "ltg-beta".toList ∧ o.outputMQTT = true)

inductive Call where
  | warning
  | result
  deriving DecidableEq

inductive SendPoint where
  | file
  /-- At the condition of the retry loop. -/
  | loop (retryCount : ℕ)
  | request (retryCount : ℕ)
  /-- Behind the loop. -/
  | after (retryCount : ℕ)
  | gate (call : Call)
  /-- About to ask `is_connected`, and to connect if it is not. -/
  | client (call : Call)
  | publish (call : Call)
  | done

structure Sending where
  json : List Char
  point : SendPoint

inductive Answer where
  | go
  /-- `fopen` gives a file or none; or a directory cannot be made, which throws. -/
  | file (opened : Option Bool)
  /-- Whether the server keeps the record, and the status that comes back, if one does. -/
  | response (stored : Bool) (status : Option ℕ)
  | client (connected thrown : Bool)
  | publish (thrown : Bool)

structure PostRequest where
  body : List Char
  stored : Bool
  status : Option ℕ

inductive SendEffect where
  | silent
  | wrote
  | aborted
  | posted (request : PostRequest)
  | published (topic data : List Char)
  /-- An exception of the client, which is caught. -/
  | failed (topic data : List Char)

def Call.topic : Call → List Char
  | .warning => topicW
  | .result => topicL

def Call.data (json : List Char) : Call → List Char
  | .warning => maxRetriesReached
  | .result => json

def Call.next : Call → SendPoint
  | .warning => .gate .result
  | .result => .done

namespace Sending

def step (o : Outputs) (s : Sending) (answer : Answer) : Option (SendEffect × Sending) :=
  match s.point, answer with
  | .file, .file opened =>
    if o.outputFile then
      match opened with
      | none => some (.aborted, { s with point := .done })
      | some true => some (.wrote, { s with point := .loop 0 })
      | some false => some (.silent, { s with point := .loop 0 })
    else some (.silent, { s with point := .loop 0 })
  | .loop retryCount, .go =>
    if retryCount < maxRetries ∧ o.outputDataBase = true then some (.silent, { s with point := .request retryCount })
    else some (.silent, { s with point := .after retryCount })
  | .request retryCount, .response stored status =>
    if status = some 200 then some (.posted ⟨s.json, stored, status⟩, { s with point := .after retryCount })
    else some (.posted ⟨s.json, stored, status⟩, { s with point := .loop (retryCount + 1) })
  | .after retryCount, .go =>
    if retryCount = maxRetries then some (.silent, { s with point := .gate .warning })
    else some (.silent, { s with point := .gate .result })
  | .gate call, .go =>
    if o.admits call.topic then some (.silent, { s with point := .client call })
    else some (.silent, { s with point := call.next })
  | .client call, .client connected thrown =>
    if connected = false ∧ thrown = true then
      some (.failed call.topic (call.data s.json), { s with point := call.next })
    else some (.silent, { s with point := .publish call })
  | .publish call, .publish thrown =>
    if thrown then some (.failed call.topic (call.data s.json), { s with point := call.next })
    else some (.published call.topic (call.data s.json), { s with point := call.next })
  | _, _ => none

def isDone (s : Sending) : Bool :=
  match s.point with
  | .done => true
  | _ => false

end Sending

structure Poster where
  posting : Posting
  outputs : Outputs
  writeString : LigData → List Char

def Poster.json (w : Poster) (post : Post) : List Char := ((w.posting.record post).map w.writeString).getD []

def Poster.body (w : Poster) : Body Post Sending Answer SendEffect where
  start post := ⟨w.json post, .file⟩
  step := Sending.step w.outputs
  isOver := Sending.isDone

def SendEffect.request? : SendEffect → Option PostRequest
  | .posted request => some request
  | _ => none

def SendEffect.message? : SendEffect → Option (List Char × List Char)
  | .published topic data => some (topic, data)
  | .failed topic data => some (topic, data)
  | _ => none

def postRequests (trace : List SendEffect) : List PostRequest := trace.filterMap SendEffect.request?

def messages (trace : List SendEffect) : List (List Char × List Char) := trace.filterMap SendEffect.message?

inductive Concluded (o : Outputs) (json : List Char) : List PostRequest → (exhausted : Bool) → Prop where
  | off (database : o.outputDataBase = false) : Concluded o json [] false
  | delivered (database : o.outputDataBase = true) (refused : List PostRequest) (stored : Bool)
      (few : refused.length < maxRetries) (failed : ∀ r ∈ refused, r.body = json ∧ r.status ≠ some 200) :
      Concluded o json (refused ++ [⟨json, stored, some 200⟩]) false
  | exhausted (database : o.outputDataBase = true) (refused : List PostRequest) (all : refused.length = maxRetries)
      (failed : ∀ r ∈ refused, r.body = json ∧ r.status ≠ some 200) : Concluded o json refused true

/-- The warning, after three failures, if warnings are published. -/
def Outputs.warnings (o : Outputs) (exhausted : Bool) : List (List Char × List Char) :=
  if exhausted ∧ o.admits topicW then [(topicW, maxRetriesReached)] else []

def Outputs.messages (o : Outputs) (json : List Char) (exhausted : Bool) : List (List Char × List Char) :=
  o.warnings exhausted ++ if o.admits topicL then [(topicL, json)] else []

def Ordered (trace : List SendEffect) : Prop :=
  ∃ before after, trace = before ++ after ∧ messages before = [] ∧ postRequests after = []

inductive Sent (o : Outputs) (json : List Char) (trace : List SendEffect) : Prop where
  | aborted (file : o.outputFile = true) (nothing : trace = [.aborted])
  | sent (exhausted : Bool) (concluded : Concluded o json (postRequests trace) exhausted)
      (published : messages trace = o.messages json exhausted) (ordered : Ordered trace)

def SendPoint.Reached (o : Outputs) (json : List Char) (trace : List SendEffect) : SendPoint → Prop
  | .file => trace = []
  | .loop retryCount =>
    messages trace = [] ∧ (postRequests trace).length = retryCount ∧ retryCount ≤ maxRetries ∧
    (∀ r ∈ postRequests trace, r.body = json ∧ r.status ≠ some 200) ∧
    (o.outputDataBase = false → postRequests trace = [])
  | .request retryCount =>
    messages trace = [] ∧ (postRequests trace).length = retryCount ∧ retryCount < maxRetries ∧
    (∀ r ∈ postRequests trace, r.body = json ∧ r.status ≠ some 200) ∧ o.outputDataBase = true
  | .after retryCount => messages trace = [] ∧ Concluded o json (postRequests trace) (retryCount = maxRetries)
  | .gate .warning => messages trace = [] ∧ Concluded o json (postRequests trace) true
  | .client .warning | .publish .warning =>
    messages trace = [] ∧ Concluded o json (postRequests trace) true ∧ o.admits topicW = true
  | .gate .result => ∃ exhausted, messages trace = o.warnings exhausted ∧ Ordered trace ∧
    Concluded o json (postRequests trace) exhausted
  | .client .result | .publish .result => ∃ exhausted, messages trace = o.warnings exhausted ∧ Ordered trace ∧
    Concluded o json (postRequests trace) exhausted ∧ o.admits topicL = true
  | .done => Sent o json trace

def SendPoint.left : SendPoint → ℕ
  | .file => 15
  | .loop retryCount => 14 - 2 * retryCount
  | .request retryCount => 13 - 2 * retryCount
  | .after _ => 7
  | .gate .warning => 6
  | .client .warning => 5
  | .publish .warning => 4
  | .gate .result => 3
  | .client .result => 2
  | .publish .result => 1
  | .done => 0

section Trace

variable {o : Outputs} {json : List Char} {trace : List SendEffect}

theorem postRequests_snoc (trace : List SendEffect) (effect : SendEffect) :
    postRequests (trace ++ [effect]) = postRequests trace ++ effect.request?.toList :=
  Machine.filterMap_snoc _ trace effect

theorem messages_snoc (trace : List SendEffect) (effect : SendEffect) :
    messages (trace ++ [effect]) = messages trace ++ effect.message?.toList := Machine.filterMap_snoc _ trace effect

theorem postRequests_quiet {effect : SendEffect} (silent : effect.request? = none) :
    postRequests (trace ++ [effect]) = postRequests trace := by
  rw [postRequests_snoc, silent]
  exact List.append_nil _

theorem messages_mute {effect : SendEffect} (silent : effect.message? = none) :
    messages (trace ++ [effect]) = messages trace := by
  rw [messages_snoc, silent]
  exact List.append_nil _

theorem ordered_of_silent (nothing : messages trace = []) : Ordered trace :=
  ⟨trace, [], (List.append_nil _).symm, nothing, rfl⟩

theorem Ordered.snoc (ordered : Ordered trace) {effect : SendEffect} (other : effect.request? = none) :
    Ordered (trace ++ [effect]) := by
  obtain ⟨before, after, rfl, quiet, ended⟩ := ordered
  refine ⟨before, after ++ [effect], List.append_assoc _ _ _, quiet, ?_⟩
  rw [postRequests_snoc, ended, other]
  rfl

inductive Sending.Moved (o : Outputs) (json : List Char) : SendPoint → SendEffect → SendPoint → Prop where
  | abort (file : o.outputFile = true) : Moved o json .file .aborted .done
  | file (effect : SendEffect) (kind : effect = .wrote ∨ effect = .silent) : Moved o json .file effect (.loop 0)
  | enter (retryCount : ℕ) (fewer : retryCount < maxRetries) (database : o.outputDataBase = true) :
      Moved o json (.loop retryCount) .silent (.request retryCount)
  | leave (retryCount : ℕ) (ended : ¬(retryCount < maxRetries ∧ o.outputDataBase = true)) :
      Moved o json (.loop retryCount) .silent (.after retryCount)
  | accepted (retryCount : ℕ) (stored : Bool) :
      Moved o json (.request retryCount) (.posted ⟨json, stored, some 200⟩) (.after retryCount)
  | refused (retryCount : ℕ) (stored : Bool) (status : Option ℕ) (other : status ≠ some 200) :
      Moved o json (.request retryCount) (.posted ⟨json, stored, status⟩) (.loop (retryCount + 1))
  | warn : Moved o json (.after maxRetries) .silent (.gate .warning)
  | result (retryCount : ℕ) (fewer : retryCount ≠ maxRetries) : Moved o json (.after retryCount) .silent (.gate .result)
  | admitted (call : Call) (opened : o.admits call.topic = true) : Moved o json (.gate call) .silent (.client call)
  | closed (call : Call) (shut : o.admits call.topic = false) : Moved o json (.gate call) .silent call.next
  | connected (call : Call) : Moved o json (.client call) .silent (.publish call)
  | unconnected (call : Call) : Moved o json (.client call) (.failed call.topic (call.data json)) call.next
  | published (call : Call) (effect : SendEffect)
      (kind : effect = .published call.topic (call.data json) ∨ effect = .failed call.topic (call.data json)) :
      Moved o json (.publish call) effect call.next

theorem sending_cases {s next : Sending} {answer : Answer} {effect : SendEffect}
    (stepped : s.step o answer = some (effect, next)) :
    next.json = s.json ∧ Sending.Moved o s.json s.point effect next.point := by
  obtain ⟨json, point⟩ := s
  cases point with
  | file =>
    cases answer with
    | file opened =>
      simp only [Sending.step] at stepped
      split_ifs at stepped with file
      · split at stepped
        all_goals cases stepped
        · exact ⟨rfl, .abort file⟩
        · exact ⟨rfl, .file _ (.inl rfl)⟩
        · exact ⟨rfl, .file _ (.inr rfl)⟩
      · cases stepped
        exact ⟨rfl, .file _ (.inr rfl)⟩
    | go | response | client | publish => simp [Sending.step] at stepped
  | loop retryCount =>
    cases answer with
    | go =>
      simp only [Sending.step] at stepped
      split_ifs at stepped with more
      · cases stepped
        exact ⟨rfl, .enter retryCount more.1 more.2⟩
      · cases stepped
        exact ⟨rfl, .leave retryCount more⟩
    | file | response | client | publish => simp [Sending.step] at stepped
  | request retryCount =>
    cases answer with
    | response stored status =>
      simp only [Sending.step] at stepped
      split_ifs at stepped with ok
      · subst ok
        cases stepped
        exact ⟨rfl, .accepted retryCount stored⟩
      · cases stepped
        exact ⟨rfl, .refused retryCount stored status ok⟩
    | go | file | client | publish => simp [Sending.step] at stepped
  | after retryCount =>
    cases answer with
    | go =>
      simp only [Sending.step] at stepped
      split_ifs at stepped with last
      · subst last
        cases stepped
        exact ⟨rfl, .warn⟩
      · cases stepped
        exact ⟨rfl, .result retryCount last⟩
    | file | response | client | publish => simp [Sending.step] at stepped
  | gate call =>
    cases answer with
    | go =>
      simp only [Sending.step] at stepped
      split_ifs at stepped with opened
      · cases stepped
        exact ⟨rfl, .admitted call opened⟩
      · cases stepped
        exact ⟨rfl, .closed call (Bool.eq_false_of_not_eq_true opened)⟩
    | file | response | client | publish => simp [Sending.step] at stepped
  | client call =>
    cases answer with
    | client connected thrown =>
      simp only [Sending.step] at stepped
      split_ifs at stepped
      · cases stepped
        exact ⟨rfl, .unconnected call⟩
      · cases stepped
        exact ⟨rfl, .connected call⟩
    | go | file | response | publish => simp [Sending.step] at stepped
  | publish call =>
    cases answer with
    | publish thrown =>
      simp only [Sending.step] at stepped
      split_ifs at stepped
      · cases stepped
        exact ⟨rfl, .published call _ (.inr rfl)⟩
      · cases stepped
        exact ⟨rfl, .published call _ (.inl rfl)⟩
    | go | file | response | client => simp [Sending.step] at stepped
  | done => cases answer <;> simp [Sending.step] at stepped

theorem called_reached {call : Call} {effect : SendEffect} (reached : (SendPoint.publish call).Reached o json trace)
    (message : effect.message? = some (call.topic, call.data json)) (other : effect.request? = none) :
    call.next.Reached o json (trace ++ [effect]) := by
  have same : postRequests (trace ++ [effect]) = postRequests trace := postRequests_quiet other
  cases call with
  | warning =>
    obtain ⟨silent, concluded, opened⟩ := reached
    refine ⟨true, ?_, (ordered_of_silent silent).snoc other, same.symm ▸ concluded⟩
    rw [messages_snoc, silent, message]
    simp [Outputs.warnings, opened, Call.topic, Call.data]
  | result =>
    obtain ⟨exhausted, warned, ordered, concluded, opened⟩ := reached
    refine .sent exhausted (same.symm ▸ concluded) ?_ (ordered.snoc other)
    rw [messages_snoc, warned, message]
    simp [Outputs.messages, opened, Call.topic, Call.data]

/-- The loop ends without a success only where it was not entered, or after all its turns. -/
theorem concluded_of_ended {retryCount : ℕ} (reached : (SendPoint.loop retryCount).Reached o json trace)
    (ended : ¬(retryCount < maxRetries ∧ o.outputDataBase = true)) :
    Concluded o json (postRequests trace) (retryCount = maxRetries) := by
  obtain ⟨-, count, bound, failed, off⟩ := reached
  cases database : o.outputDataBase with
  | false =>
    have unasked := off database
    have zero : retryCount = 0 := by rw [← count, unasked, List.length_nil]
    rw [unasked, zero]
    exact .off database
  | true =>
    have last : retryCount = maxRetries := by
      have : ¬ retryCount < maxRetries := fun fewer => ended ⟨fewer, database⟩
      omega
    rw [decide_eq_true last]
    exact .exhausted database _ (count.trans last) failed

theorem refused_reached {retryCount : ℕ} {stored : Bool} {status : Option ℕ}
    (reached : (SendPoint.request retryCount).Reached o json trace) (other : status ≠ some 200) :
    (SendPoint.loop (retryCount + 1)).Reached o json (trace ++ [.posted ⟨json, stored, status⟩]) := by
  obtain ⟨silent, count, fewer, failed, database⟩ := reached
  have more : postRequests (trace ++ [.posted ⟨json, stored, status⟩]) =
      postRequests trace ++ [⟨json, stored, status⟩] := postRequests_snoc _ _
  refine ⟨(messages_mute rfl).trans silent, ?_, fewer, ?_, fun off => absurd (database.symm.trans off) (by decide)⟩
  · rw [more, List.length_append, count, List.length_singleton]
  · intro r member
    rw [more, List.mem_append, List.mem_singleton] at member
    rcases member with old | rfl
    · exact failed r old
    · exact ⟨rfl, other⟩

theorem shut_reached {call : Call} (reached : (SendPoint.gate call).Reached o json trace)
    (shut : o.admits call.topic = false) : call.next.Reached o json (trace ++ [.silent]) := by
  have same : postRequests (trace ++ [.silent]) = postRequests trace := postRequests_quiet rfl
  cases call with
  | warning =>
    obtain ⟨silent, concluded⟩ := reached
    have nothing : o.warnings true = [] := by
      rw [Call.topic] at shut
      simp [Outputs.warnings, shut]
    refine ⟨true, ?_, (ordered_of_silent silent).snoc rfl, same.symm ▸ concluded⟩
    rw [messages_mute rfl, silent, nothing]
  | result =>
    obtain ⟨exhausted, warned, ordered, concluded⟩ := reached
    refine .sent exhausted (same.symm ▸ concluded) ?_ (ordered.snoc rfl)
    rw [Call.topic] at shut
    rw [messages_mute rfl, warned, Outputs.messages, shut]
    simp

theorem moved_reached {point next : SendPoint} {effect : SendEffect} (reached : point.Reached o json trace)
    (moved : Sending.Moved o json point effect next) : next.Reached o json (trace ++ [effect]) := by
  have quiet (silent : effect.request? = none) : postRequests (trace ++ [effect]) = postRequests trace :=
    postRequests_quiet silent
  have mute (silent : effect.message? = none) : messages (trace ++ [effect]) = messages trace := messages_mute silent
  cases moved with
  | abort file =>
    obtain rfl : trace = [] := reached
    exact .aborted file rfl
  | file effect kind =>
    obtain rfl : trace = [] := reached
    have ⟨nothing, unasked⟩ : effect.request? = none ∧ effect.message? = none := by
      rcases kind with rfl | rfl <;> exact ⟨rfl, rfl⟩
    have requests : postRequests ([] ++ [effect]) = [] := quiet nothing
    refine ⟨mute unasked, ?_, by decide, ?_, fun _ => requests⟩
    · rw [requests]
      rfl
    · exact fun r member => absurd (requests ▸ member) List.not_mem_nil
  | enter retryCount fewer database =>
    obtain ⟨silent, count, -, failed, -⟩ := reached
    have same := quiet rfl
    exact ⟨mute rfl ▸ silent, same ▸ count, fewer, same ▸ failed, database⟩
  | leave retryCount ended =>
    exact ⟨(mute rfl).trans reached.1, (quiet rfl).symm ▸ concluded_of_ended reached ended⟩
  | accepted retryCount stored =>
    obtain ⟨silent, count, fewer, failed, database⟩ := reached
    refine ⟨(mute rfl).trans silent, ?_⟩
    rw [postRequests_snoc, decide_eq_false (ne_of_lt fewer)]
    exact .delivered database _ stored (count ▸ fewer) failed
  | refused retryCount stored status other => exact refused_reached reached other
  | warn =>
    obtain ⟨silent, concluded⟩ := reached
    exact ⟨(mute rfl).trans silent, (quiet rfl).symm ▸ concluded⟩
  | result retryCount fewer =>
    obtain ⟨silent, concluded⟩ := reached
    rw [decide_eq_false fewer] at concluded
    have nothing : messages (trace ++ [.silent]) = [] := (mute rfl).trans silent
    refine ⟨false, ?_, ordered_of_silent nothing, (quiet rfl).symm ▸ concluded⟩
    simp [nothing, Outputs.warnings]
  | admitted call opened =>
    cases call with
    | warning =>
      obtain ⟨silent, concluded⟩ := reached
      exact ⟨(mute rfl).trans silent, (quiet rfl).symm ▸ concluded, opened⟩
    | result =>
      obtain ⟨exhausted, warned, ordered, concluded⟩ := reached
      exact ⟨exhausted, (mute rfl).trans warned, ordered.snoc rfl, (quiet rfl).symm ▸ concluded, opened⟩
  | closed call shut => exact shut_reached reached shut
  | connected call =>
    cases call with
    | warning =>
      obtain ⟨silent, concluded, opened⟩ := reached
      exact ⟨(mute rfl).trans silent, (quiet rfl).symm ▸ concluded, opened⟩
    | result =>
      obtain ⟨exhausted, warned, ordered, concluded, opened⟩ := reached
      exact ⟨exhausted, (mute rfl).trans warned, ordered.snoc rfl, (quiet rfl).symm ▸ concluded, opened⟩
  | unconnected call =>
    have same : (SendPoint.publish call).Reached o json trace := by
      cases call <;> exact reached
    exact called_reached same rfl rfl
  | published call effect kind =>
    have ⟨message, other⟩ : effect.message? = some (call.topic, call.data json) ∧ effect.request? = none := by
      rcases kind with rfl | rfl <;> exact ⟨rfl, rfl⟩
    exact called_reached reached message other

/-- Every step brings the end nearer. -/
theorem moved_left {point next : SendPoint} {effect : SendEffect} (reached : point.Reached o json trace)
    (moved : Sending.Moved o json point effect next) : next.left + 1 ≤ point.left := by
  cases moved with
  | enter retryCount fewer =>
    simp only [SendPoint.left, maxRetries] at fewer ⊢
    omega
  | leave | accepted | refused =>
    have bound := reached.2.2.1
    simp only [SendPoint.left, maxRetries] at bound ⊢
    omega
  | abort | file | warn | result => simp [SendPoint.left]
  | admitted call | closed call | connected call | unconnected call | published call =>
    cases call <;> simp [SendPoint.left, Call.next]

theorem sending_run {w : Poster} {post : Post} {s : Sending}
    (reached : Machine.Reaches w.body.step (w.body.start post) trace s) :
    s.json = w.json post ∧ s.point.Reached w.outputs (w.json post) trace ∧ trace.length + s.point.left ≤ 15 := by
  refine reached.invariant (fun trace s => s.json = w.json post ∧
    s.point.Reached w.outputs (w.json post) trace ∧ trace.length + s.point.left ≤ 15) ?_ ?_
  · exact ⟨rfl, rfl, le_refl 15⟩
  · rintro shown current answer effect next - ⟨json, there, spent⟩ stepped
    obtain ⟨same, moved⟩ := sending_cases stepped
    rw [json] at moved
    have less := moved_left there moved
    refine ⟨same.trans json, moved_reached there moved, ?_⟩
    rw [List.length_append, List.length_singleton]
    omega

theorem sending_over {w : Poster} {post : Post} {s : Sending}
    (reached : Machine.Reaches w.body.step (w.body.start post) trace s) (ended : w.body.isOver s = true) :
    Sent w.outputs (w.json post) trace := by
  obtain ⟨-, there, -⟩ := sending_run reached
  have ended : s.isDone = true := ended
  cases point : s.point with
  | done =>
    rw [point] at there
    exact there
  | file | loop | request | after | gate | client | publish => simp [Sending.isDone, point] at ended

theorem sending_goes (o : Outputs) {s : Sending} (under : s.isDone ≠ true) :
    ∃ answer, (s.step o answer).isSome = true := by
  obtain ⟨json, point⟩ := s
  cases point with
  | file =>
    refine ⟨.file (some true), ?_⟩
    simp only [Sending.step]
    split_ifs <;> rfl
  | loop | after | gate =>
    refine ⟨.go, ?_⟩
    simp only [Sending.step]
    split_ifs <;> rfl
  | request => exact ⟨.response false none, by simp [Sending.step]⟩
  | client => exact ⟨.client true false, by simp [Sending.step]⟩
  | publish => exact ⟨.publish false, by simp [Sending.step]⟩
  | done => exact absurd rfl under

/-- A server that answers 200 has kept the record. -/
def Honest (trace : List SendEffect) : Prop := ∀ r ∈ postRequests trace, r.status = some 200 → r.stored = true

def copies (trace : List SendEffect) : ℕ := (postRequests trace).countP PostRequest.stored

theorem Sent.copies_le (sent : Sent o json trace) : copies trace ≤ maxRetries := by
  refine (List.countP_le_length ..).trans ?_
  cases sent with
  | aborted file nothing =>
    rw [nothing]
    exact Nat.zero_le _
  | sent exhausted concluded =>
    generalize postRequests trace = requests at concluded
    cases concluded with
    | off => exact Nat.zero_le _
    | delivered database refused stored few failed =>
      rw [List.length_append, List.length_singleton]
      exact few
    | exhausted database refused all failed => exact all.le

/-- Unless it is given up, with a warning, a record is kept at least once. -/
theorem Sent.kept (sent : Sent o json trace) (honest : Honest trace) (database : o.outputDataBase = true) :
    trace = [.aborted] ∨ 1 ≤ copies trace ∨
      (postRequests trace).length = maxRetries ∧ messages trace = o.messages json true := by
  cases sent with
  | aborted file nothing => exact .inl nothing
  | sent exhausted concluded published ordered =>
    unfold Honest at honest
    unfold copies
    generalize postRequests trace = requests at concluded honest
    cases concluded with
    | off off => exact absurd (database.symm.trans off) (by decide)
    | delivered _ refused stored few failed =>
      have kept : stored = true := honest ⟨json, stored, some 200⟩ (by simp) rfl
      exact .inr (.inl (by simp [kept]))
    | exhausted _ refused all failed => exact .inr (.inr ⟨all, published⟩)

end Trace

namespace Sample

def singlePost : Post :=
  ⟨.ofFields 24 4 20 20 5 59 0.5, ⟨0, 0, 3, 0, 0⟩, [⟨.ofFields 24 4 20 20 5 59 0.5, 2, 8, 0⟩], atOrigin⟩

def singleJson : List Char :=
  "\x7b
   \"ExpTag\" : \"TOA\",
   \"IDOfSta\" : \"2\",
   \"altitude\" : 3.0,
   \"datetime\" : \"2024-04-20 20:05:59\",
   \"infoOfSta\" : 
   [
      \x7b
         \"id\" : 2,
         \"name\" : \"station\",
         \"peakCurrent\" : \"\",
         \"residual\" : -3.0,
         \"value\" : 8.0
      \x7d
   ],
   \"isDeleted\" : 0,
   \"latitude\" : 0.0,
   \"locationMethod\" : \"TOA\",
   \"longitude\" : 0.0,
   \"nameOfSta\" : \"station\",
   \"nano\" : 500000000.0,
   \"numOfSta\" : 1,
   \"peakCurrent\" : 48.0,
   \"residual\" : 0.0,
   \"time\" : \"240420200559.50000000\",
   \"type\" : \"IC\"
\x7d".toList

def poster : Poster := ⟨posting, ⟨"realTime".toList, true, true, true, true⟩, fun _ => singleJson⟩

/-- The first answer of the server is lost, the second comes. -/
def sendMoves : List (CrewMove Post Answer) :=
  [.pool (.enqueue singlePost), .pool (.lock 0), .act 0 (.file (some true)), .act 0 .go, .act 0 (.response true none),
    .act 0 .go, .act 0 (.response true (some 200)), .act 0 .go, .act 0 .go, .act 0 (.client false false),
    .act 0 (.publish false), .pool (.finish 0), .pool .destroy, .pool .notifyAll, .pool (.lock 0), .pool .join]

def send : Option (List (CrewEvent Post Sending SendEffect) × Crew Post Sending SendEffect) :=
  Machine.run (Crew.step poster.body) (Crew.start 1) sendMoves

end Sample

/-- Whatever the interleaving of the workers and whatever the file system, the server and
the broker answer: when the destructor has returned, each post that was enqueued has been
sent to the end, once and in at most fifteen steps, and nothing else has been sent. With the
database on, at most three requests carry its record, none of them after a 200; the warning
is for three failures; the result comes last, once if it is published at all. -/
theorem deliveries {w : Poster} {threads : ℕ} {events : List (CrewEvent Post Sending SendEffect)}
    {s : Crew Post Sending SendEffect} (reached : CrewRuns w.body threads events s) (workers : 0 < threads)
    (destroyed : s.pool.Destroyed) :
    ((executions events).map Execution.task).Perm (enqueuedTasks (crewPool events)) ∧
    (effects events).Perm ((executions events).flatMap Execution.effects) ∧
    ∀ e ∈ executions events, Sent w.outputs (w.json e.task) e.trace ∧ e.trace.length ≤ 15 ∧
      copies e.trace ≤ maxRetries ∧
      (Honest e.trace → w.outputs.outputDataBase = true → e.trace = [.aborted] ∨ 1 ≤ copies e.trace ∨
        (postRequests e.trace).length = maxRetries ∧ messages e.trace = w.outputs.messages (w.json e.task) true) := by
  have manned := crew_manned reached
  obtain ⟨tasks, done⟩ := manned.destroyed workers destroyed
  refine ⟨tasks, done, fun e member => ?_⟩
  obtain ⟨ran, finished⟩ := manned.ended e member
  obtain ⟨-, -, short⟩ := sending_run ran
  have sent : Sent w.outputs (w.json e.task) e.trace := sending_over ran finished
  exact ⟨sent, by omega, sent.copies_le, sent.kept⟩

/-- The record is kept twice. -/
theorem deliveries_twice : ∃ events s, CrewRuns Sample.poster.body 1 events s ∧ s.pool.Destroyed ∧
    ((executions events).map Execution.task).Perm (enqueuedTasks (crewPool events)) ∧
    (executions events).map (fun e => copies e.trace) = [2] ∧
    ∀ e ∈ executions events, Sent Sample.poster.outputs (Sample.poster.json e.task) e.trace := by
  obtain ⟨⟨events, s⟩, ran, shown⟩ := Option.map_eq_some_iff.mp
    (show Sample.send.map (fun r => (decide r.2.pool.Destroyed, (executions r.1).map fun e => copies e.trace)) =
      some (true, [2]) by decide +kernel)
  obtain ⟨destroyed, twice⟩ := Prod.mk.inj shown
  have destroyed := of_decide_eq_true destroyed
  obtain ⟨tasks, -, sent⟩ :=
    deliveries (show CrewRuns Sample.poster.body 1 events s from ⟨_, ran⟩) (by decide) destroyed
  exact ⟨events, s, ⟨_, ran⟩, destroyed, tasks, twice, fun e member => (sent e member).1⟩

end LigDataParsing
