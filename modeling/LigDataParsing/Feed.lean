import LigDataParsing.Download
import LigDataParsing.Posted
import LigDataParsing.Program

/-! The program with the servers it downloads from: a move of the loader brings what the
servers answer to the requests of a whole download. -/
namespace LigDataParsing

abbrev Server := ℕ → Request → Option Response

structure LigDataApi (Value : Type) where
  lib : ApiLib Value
  config : TriggerConfig

structure Exchange where
  request : Request
  response : Option Response

inductive FedMove where
  | loader (server : Server)
  | locator (now : ℤ)
  | pool (a : PoolAction Post)

structure FedEvent where
  event : ProgramEvent
  exchanges : List Exchange

def Loader.isFetching (loader : Loader) : Bool :=
  match loader.point with
  | .fetch => true
  | _ => false

section Fetching

variable {Value : Type} (api : LigDataApi Value) (p : Platform) (c : Config)

def LigDataApi.request (loader : Loader) (i : ℕ) : Request :=
  if c.reProcess then historicalRequest api.config (loader.tillTime.plus p.utcOffset twentyMinutes) 20 i
  else realTimeRequest api.config i

def LigDataApi.fetch (server : Server) (loader : Loader) : Download :=
  if c.reProcess then
    getHistoricalTriggerDataUntill api.lib p.sorter api.config server
      (loader.tillTime.plus p.utcOffset twentyMinutes) 20
  else getRealTimeTriggerData api.lib p.sorter api.config server

def LigDataApi.exchanges (server : Server) (loader : Loader) : List Exchange :=
  (List.range (api.fetch p c server loader).asked).map fun i =>
    ⟨api.request p c loader i, server i (api.request p c loader i)⟩

def Program.fedStep (s : Program) : FedMove → Option (FedEvent × Program)
  | .loader server =>
    let loader := s.threads.loader
    (s.step p c (.threads (.loader (api.fetch p c server loader).triggers))).map fun done =>
      (⟨done.1, if loader.isFetching then api.exchanges p c server loader else []⟩, done.2)
  | .locator now => (s.step p c (.threads (.locator now))).map fun done => (⟨done.1, []⟩, done.2)
  | .pool a => (s.step p c (.pool a)).map fun done => (⟨done.1, []⟩, done.2)

end Fetching

abbrev FedRuns {Value : Type} (api : LigDataApi Value) (p : Platform) (c : Config) (siteMap : SiteMap)
    (siteTimeMap : SiteTimeMap) (events : List FedEvent) (s : Program) : Prop :=
  Machine.Reaches (Program.fedStep api p c) (Program.start c siteMap siteTimeMap) events s

def programEvents (events : List FedEvent) : List ProgramEvent := events.map FedEvent.event

def exchanged (events : List FedEvent) : List Exchange := events.flatMap FedEvent.exchanges

/-- The trigger is what a row of one of the responses received stands for. -/
def Decoded {Value : Type} (lib : ApiLib Value) (exchanges : List Exchange) (t : TriggerInfo) : Prop :=
  ∃ exchange ∈ exchanges, ∃ received, exchange.response = some received ∧ received.status = 200 ∧
    ∃ item ∈ rows lib (some received), decoding lib item = some t

section Reading

variable {Value : Type} {lib : ApiLib Value} {sorter : KeyedSort.Sorter TriggerInfo TriggerInfo.lt}
  {res : ℕ → Option Response} {t : TriggerInfo}

theorem of_bind_ok {ε α β : Type} {x : Except ε α} {f : α → Except ε β} {b : β} (done : x >>= f = .ok b) :
    ∃ a, x = .ok a ∧ f a = .ok b := by
  cases x with
  | error => contradiction
  | ok a => exact ⟨a, rfl, done⟩

theorem readRow_unset {item : Value} (read : readRow lib item = .ok t) : t.trigIdx = 0 := by
  unfold readRow at read
  obtain ⟨stationID, -, read⟩ := of_bind_ok read
  obtain ⟨-, -, read⟩ := of_bind_ok read
  obtain ⟨high, -, read⟩ := of_bind_ok read
  obtain ⟨low, -, read⟩ := of_bind_ok read
  obtain ⟨-, -, read⟩ := of_bind_ok read
  obtain ⟨year, -, read⟩ := of_bind_ok read
  obtain ⟨month, -, read⟩ := of_bind_ok read
  obtain ⟨day, -, read⟩ := of_bind_ok read
  obtain ⟨hour, -, read⟩ := of_bind_ok read
  obtain ⟨min, -, read⟩ := of_bind_ok read
  obtain ⟨sec, -, read⟩ := of_bind_ok read
  obtain ⟨nano, -, read⟩ := of_bind_ok read
  cases read
  rfl

theorem readRows_decoded {items : List Value} {alltriggers : List TriggerInfo}
    (member : t ∈ (readRows lib items alltriggers).triggers) :
    t ∈ alltriggers ∨ ∃ item ∈ items, decoding lib item = some t := by
  induction items generalizing alltriggers with
  | nil => exact .inl member
  | cons item items ih =>
    cases decoded : decoding lib item with
    | none =>
      rw [readRows_bad decoded] at member
      exact .inl member
    | some trigger =>
      have one : [item].map (decoding lib) = [trigger].map some := by
        rw [List.map_singleton, decoded, List.map_singleton]
      rw [← List.singleton_append, readRows_good one] at member
      rcases ih member with earlier | ⟨other, inside, same⟩
      · rcases List.mem_append.mp earlier with old | new
        · exact .inl old
        · rw [List.mem_singleton.mp new]
          exact .inr ⟨item, List.mem_cons_self, decoded⟩
      · exact .inr ⟨other, List.mem_cons_of_mem _ inside, same⟩

/-- Whatever a download returns was read from a response to one of its requests. -/
theorem attempts_decoded {left i : ℕ} (member : t ∈ (attempts lib sorter res left i []).triggers) :
    ∃ k < (attempts lib sorter res left i []).asked, ∃ item ∈ rows lib (res k), decoding lib item = some t := by
  induction left generalizing i with
  | zero => exact absurd member List.not_mem_nil
  | succ left ih =>
    have here : t ∈ (readRows lib (rows lib (res i)) []).triggers →
        ∃ item ∈ rows lib (res i), decoding lib item = some t :=
      fun read => (readRows_decoded read).resolve_left List.not_mem_nil
    rw [attempts_succ] at member ⊢
    dsimp only at member ⊢
    split_ifs at member ⊢ with thrown nonempty last
    · exact ⟨i, Nat.lt_succ_self i, here member⟩
    · exact ⟨i, Nat.lt_succ_self i, here (KeyedSort.sortUnique_subset sorter member)⟩
    · exact absurd member List.not_mem_nil
    · exact ih member

end Reading

section Fed

variable {Value : Type} {api : LigDataApi Value} {p : Platform} {c : Config} {siteMap : SiteMap}
  {siteTimeMap : SiteTimeMap} {events : List FedEvent} {s : Program}

theorem fetch_decoded {server : Server} {loader : Loader} {t : TriggerInfo}
    (member : t ∈ (api.fetch p c server loader).triggers) : Decoded api.lib (api.exchanges p c server loader) t := by
  have same : api.fetch p c server loader =
      attempts api.lib p.sorter (fun i => server i (api.request p c loader i)) 6 0 [] := by
    unfold LigDataApi.fetch LigDataApi.request
    split_ifs <;> rfl
  have read := attempts_decoded (same ▸ member)
  rw [← same] at read
  obtain ⟨k, asked, item, inside, decoded⟩ := read
  obtain ⟨received, response, ok⟩ := received_of_rows (List.ne_nil_of_mem inside)
  refine ⟨_, List.mem_map.mpr ⟨k, List.mem_range.mpr asked, rfl⟩, received, response, ok, item, ?_, decoded⟩
  rwa [← response]

/-- Everything one move can do: a move of the loader brings a download, and only the move
that asks for it goes over the network. -/
inductive FedStepped (api : LigDataApi Value) (p : Platform) (c : Config) (s : Program) :
    FedEvent → Program → Prop where
  | loader (server : Server) (event : ProgramEvent) (next : Program)
      (stepped : s.step p c (.threads (.loader (api.fetch p c server s.threads.loader).triggers)) =
        some (event, next)) :
      FedStepped api p c s
        ⟨event, if s.threads.loader.isFetching then api.exchanges p c server s.threads.loader else []⟩ next
  | locator (now : ℤ) (event : ProgramEvent) (next : Program)
      (stepped : s.step p c (.threads (.locator now)) = some (event, next)) : FedStepped api p c s ⟨event, []⟩ next
  | pool (a : PoolAction Post) (event : ProgramEvent) (next : Program)
      (stepped : s.step p c (.pool a) = some (event, next)) : FedStepped api p c s ⟨event, []⟩ next

theorem fed_cases {move : FedMove} {event : FedEvent} {next : Program}
    (stepped : s.fedStep api p c move = some (event, next)) : FedStepped api p c s event next := by
  cases move with
  | loader server =>
    obtain ⟨⟨shown, after⟩, moved, done⟩ := Option.map_eq_some_iff.mp stepped
    cases done
    exact .loader server shown after moved
  | locator now =>
    obtain ⟨⟨shown, after⟩, moved, done⟩ := Option.map_eq_some_iff.mp stepped
    cases done
    exact .locator now shown after moved
  | pool a =>
    obtain ⟨⟨shown, after⟩, moved, done⟩ := Option.map_eq_some_iff.mp stepped
    cases done
    exact .pool a shown after moved

theorem fed_program (reached : FedRuns api p c siteMap siteTimeMap events s) :
    ProgramRuns p c siteMap siteTimeMap (programEvents events) s := by
  apply reached.invariant fun shown s => ProgramRuns p c siteMap siteTimeMap (programEvents shown) s
  · exact Machine.Reaches.refl _
  · intro shown current move event next _ ran stepped
    rw [programEvents, List.map_append, List.map_singleton]
    cases fed_cases stepped with
    | loader server event next moved => exact ran.snoc moved
    | locator now event next moved => exact ran.snoc moved
    | pool a event next moved => exact ran.snoc moved

structure Brought (api : LigDataApi Value) (c : Config) (exchanges : List Exchange) (t : TriggerInfo) : Prop where
  decoded : Decoded api.lib exchanges t
  asked : c.reProcess = true → inSpan c t = true

theorem Brought.unset {exchanges : List Exchange} {t : TriggerInfo} (brought : Brought api c exchanges t) :
    t.trigIdx = 0 := by
  obtain ⟨_, _, _, _, _, item, _, decoded⟩ := brought.decoded
  exact readRow_unset (decoding_eq_some.mp decoded).2

theorem Brought.more {exchanges : List Exchange} {t : TriggerInfo} (brought : Brought api c exchanges t)
    (later : List Exchange) : Brought api c (exchanges ++ later) t := by
  obtain ⟨exchange, member, rest⟩ := brought.decoded
  exact ⟨⟨exchange, List.mem_append_left _ member, rest⟩, brought.asked⟩

structure Loading (api : LigDataApi Value) (c : Config) (events : List FedEvent) (s : Program) : Prop where
  inserted : ∀ x ∈ insertedTriggers (threadEvents (programEvents events)), Brought api c (exchanged events) x
  cached : ∀ cache, s.threads.loader.point = .insert cache → ∀ x ∈ cache, Brought api c (exchanged events) x

/-- Moves of the locating thread and of the pool leave the loader alone. -/
theorem other_moves {move : ProgramMove} {event : ProgramEvent} {next : Program}
    (stepped : s.step p c move = some (event, next)) (other : ∀ reply, move ≠ .threads (.loader reply)) :
    next.threads.loader = s.threads.loader ∧ ∀ shown ∈ event.thread?, shown.inserted = [] := by
  have moved {m : Move} {shown : ThreadEvent} {threads : Threads}
      (stepped : s.threads.step p c m = some (shown, threads)) (other : ∀ reply, m ≠ .loader reply) :
      threads.loader = s.threads.loader ∧ shown.inserted = [] := by
    cases threads_cases stepped with
    | load reply => exact absurd rfl (other reply)
    | going | ending | rest | leave | select | idle | merge | pass => exact ⟨rfl, rfl⟩
  cases program_cases stepped with
  | silent m shown threads acted | posted m shown threads acted =>
    have kept := moved acted fun reply same => other reply (by rw [same])
    refine ⟨kept.1, fun thread same => ?_⟩
    obtain rfl : shown = thread := Option.mem_some_iff.mp same
    exact kept.2
  | pool => exact ⟨rfl, by simp [ProgramEvent.thread?]⟩

theorem insertedTriggers_snoc (events : List ProgramEvent) (event : ProgramEvent) :
    insertedTriggers (threadEvents (events ++ [event])) =
      insertedTriggers (threadEvents events) ++ event.thread?.toList.flatMap ThreadEvent.inserted := by
  rw [threadEvents_snoc, insertedTriggers, List.flatMap_append, insertedTriggers]

theorem loader_moves {reply : List TriggerInfo} {event : ProgramEvent} {next : Program}
    (stepped : s.step p c (.threads (.loader reply)) = some (event, next)) :
    ∃ thread shared loader, Loaded p c reply s.threads.shared s.threads.loader thread shared loader ∧
      event.thread? = some (.loader thread) ∧ next.threads.loader = loader := by
  cases program_cases stepped with
  | silent _ shown threads acted | posted _ shown threads acted =>
    cases threads_cases acted with
    | load _ thread shared loader loaded => exact ⟨thread, shared, loader, loaded, rfl, rfl⟩

theorem other_loading {shown : List FedEvent} {move : ProgramMove} {event : ProgramEvent} {next : Program}
    (loading : Loading api c shown s) (stepped : s.step p c move = some (event, next))
    (other : ∀ reply, move ≠ .threads (.loader reply)) : Loading api c (shown ++ [⟨event, []⟩]) next := by
  obtain ⟨kept, nothing⟩ := other_moves stepped other
  have still : exchanged (shown ++ [⟨event, []⟩]) = exchanged shown := by simp [exchanged]
  constructor
  · intro x member
    rw [programEvents, List.map_append, List.map_singleton, insertedTriggers_snoc] at member
    rw [still]
    rcases List.mem_append.mp member with old | new
    · exact loading.inserted x old
    · obtain ⟨thread, here, inside⟩ := List.mem_flatMap.mp new
      rw [nothing thread (Option.mem_toList.mp here)] at inside
      exact absurd inside List.not_mem_nil
  · rw [kept, still]
    exact loading.cached

/-- What the loader keeps of a reply is decoded from the exchanges of its own download, and
what it inserts it has kept. -/
theorem loader_loading {shown : List FedEvent} {server : Server} {event : ProgramEvent} {next : Program}
    (loading : Loading api c shown s)
    (stepped : s.step p c (.threads (.loader (api.fetch p c server s.threads.loader).triggers)) = some (event, next)) :
    Loading api c (shown ++ [⟨event, if s.threads.loader.isFetching then
      api.exchanges p c server s.threads.loader else []⟩]) next := by
  have reply {x : TriggerInfo} (stands : s.threads.loader.point = .fetch)
      (member : x ∈ (api.fetch p c server s.threads.loader).triggers) (more : List Exchange) :
      Decoded api.lib (more ++ if s.threads.loader.isFetching then
        api.exchanges p c server s.threads.loader else []) x := by
    obtain ⟨exchange, inside, rest⟩ := fetch_decoded member
    rw [if_pos (by simp [Loader.isFetching, stands])]
    exact ⟨exchange, List.mem_append_right _ inside, rest⟩
  obtain ⟨thread, shared, loader, loaded, same, goes⟩ := loader_moves stepped
  have grown : exchanged (shown ++ [⟨event, if s.threads.loader.isFetching then
      api.exchanges p c server s.threads.loader else []⟩]) = exchanged shown ++
        if s.threads.loader.isFetching then api.exchanges p c server s.threads.loader else [] := by
    simp [exchanged]
  constructor
  · intro x member
    rw [programEvents, List.map_append, List.map_singleton, insertedTriggers_snoc, same] at member
    rw [grown]
    rcases List.mem_append.mp member with old | new
    · exact (loading.inserted x old).more _
    · cases loaded with
      | history | current | last | more => simp [ThreadEvent.inserted] at new
      | insert cache stands =>
        exact (loading.cached cache stands x (by simpa [ThreadEvent.inserted] using new)).more _
  · rw [goes, grown]
    intro cache stands x member
    cases loaded with
    | history here mode =>
      cases stands
      obtain ⟨inReply, inside⟩ := List.mem_filter.mp member
      exact ⟨reply here inReply _, fun _ => inside⟩
    | current here mode =>
      cases stands
      exact ⟨reply here member _, by simp [mode]⟩
    | insert cache' here next' goes' =>
      rw [goes'] at stands
      split_ifs at stands
    | last | more => cases stands

theorem fed_loading (reached : FedRuns api p c siteMap siteTimeMap events s) : Loading api c events s := by
  apply reached.invariant (Loading api c)
  · exact ⟨fun x member => absurd member List.not_mem_nil, fun cache stands => by cases stands⟩
  · intro shown current move event next _ loading stepped
    cases fed_cases stepped with
    | locator now event next moved => exact other_loading loading moved (by simp)
    | pool a event next moved => exact other_loading loading moved (by simp)
    | loader server event next moved => exact loader_loading loading moved

end Fed

section Posted

variable {p : Platform} {c : Config} {siteMap : SiteMap} {siteTimeMap : SiteTimeMap}
  {events : List ThreadEvent} {s : Threads} {property : TriggerInfo → Prop}

theorem interleaves_handed (reached : Interleaves p c siteMap siteTimeMap events s)
    (loaded : ∀ x ∈ insertedTriggers events, property x) : Handed (locatorEvents events) property := by
  refine reached.invariant (fun shown _ => (∀ x ∈ insertedTriggers shown, property x) →
    Handed (locatorEvents shown) property) ?_ ?_ loaded
  · exact fun _ queue watermark batch member => absurd member List.not_mem_nil
  · intro shown current move event next ran holds stepped loaded
    rw [insertedTriggers, List.flatMap_append] at loaded
    have earlier : ∀ x ∈ insertedTriggers shown, property x := fun x member => loaded x (List.mem_append_left _ member)
    intro queue watermark batch member x inBatch
    rw [locatorEvents_snoc] at member
    rcases List.mem_append.mp member with old | new
    · exact holds earlier queue watermark batch old x inBatch
    · cases threads_cases stepped with
      | merge now here =>
        simp only [ThreadEvent.shown, Option.toList_some, List.mem_singleton, Event.merge.injEq] at new
        rw [new.2.2] at inBatch
        exact (interleaves_from ran earlier).1 x inBatch
      | idle now here event l acted =>
        cases step_cases acted
        simp [ThreadEvent.shown] at new
      | pass now here event l acted =>
        cases step_cases acted
        simp [ThreadEvent.shown] at new
      | load | going | ending | rest | leave | select => simp [ThreadEvent.shown] at new

/-- A trigger of a posted combination is a queued one, up to its position. -/
theorem posted_present {events : List Event} {l : Locator} (reached : Runs p c siteMap siteTimeMap events l)
    {post : Post} (posted : post ∈ posts events) {t : TriggerInfo} (member : t ∈ post.oneComb) :
    ∃ queue before earlier, Runs p c siteMap siteTimeMap earlier before ∧ earlier <+: events ∧
      before.allTriggers = queue ∧ Present queue t := by
  obtain ⟨now, queue, baseTrig, scanned, rounds, remaining, inRun⟩ := mem_posts posted
  obtain ⟨earlier, later, before, base, rest, after, split, run, _, same, _, _, passed, _⟩ := runs_pass reached inRun
  refine ⟨queue, before, earlier, run, ⟨_, split.symm⟩, same, ?_⟩
  have ascending := (runs_sane run).ascending
  generalize shown : some post = outcome at passed
  cases passed with
  | located near old enough _ found good =>
    obtain ⟨comb, -⟩ := postOf_some shown.symm
    rw [comb, found] at member
    obtain ⟨j, x, stands⟩ := (located_drawn ascending enough (found ▸ good)).stands t member
    exact same ▸ stands.present

/-- Every trigger of a posted combination is, but for its position, one the loader brought. -/
theorem posted_brought {Value : Type} {api : LigDataApi Value} {events : List FedEvent} {s : Program}
    (reached : FedRuns api p c siteMap siteTimeMap events s) {post : Post}
    (posted : post ∈ reported (programEvents events)) {t : TriggerInfo} (member : t ∈ post.oneComb) :
    Brought api c (exchanged events) { t with trigIdx := 0 } := by
  have interleaved := program_threads (fed_program reached)
  have run := interleaves_runs interleaved
  have handed := interleaves_handed interleaved (fed_loading reached).inserted
  obtain ⟨queue, before, earlier, ran, part, rfl, x, queued, same⟩ := posted_present run posted member
  obtain ⟨later, split⟩ := part
  have brought := runs_queue ran (Handed.earlier (show Handed (_ ++ later) _ from split ▸ handed)) x queued
  rw [brought.unset] at same
  exact same ▸ brought

end Posted

namespace Sample

def fedRows : List Json := [(1, 1), (2, 2), (3, 4), (4, 5), (5, 6)].map fun r =>
  .array (([2024, 4, 20, 20, 5, 17, r.2 * 100000, r.1, 1024, 1536] : List ℕ).map fun n => .string (Nat.toDigits 10 n))

def ligDataApi : LigDataApi Json := ⟨apiLib fedRows, triggerConfig⟩

/-- A download, its insertion, the merge and the first turn of the loop. -/
def feed : Option (List FedEvent × Program) :=
  Machine.run (Program.fedStep ligDataApi (platform prefersLate) config) (Program.start config siteMap siteTimeMap)
    [.loader answers, .locator now, .loader answers, .locator now, .locator now, .locator now]

end Sample

/-- Nothing posted is made up: every trigger of every combination reported in a run is,
but for the position noted in it, what a row of a response of status 200 to one of the
run's own requests stands for, and in `reProcess` mode it lies in the interval asked for. -/
theorem posted_from_rows {Value : Type} {api : LigDataApi Value} {p : Platform} {c : Config} {siteMap : SiteMap}
    {siteTimeMap : SiteTimeMap} {events : List FedEvent} {s : Program}
    (reached : FedRuns api p c siteMap siteTimeMap events s) {post : Post}
    (posted : post ∈ reported (programEvents events)) {t : TriggerInfo} (member : t ∈ post.oneComb) :
    Decoded api.lib (exchanged events) { t with trigIdx := 0 } ∧ (c.reProcess = true → inSpan c t = true) := by
  have brought := posted_brought reached posted member
  exact ⟨brought.decoded, brought.asked⟩

theorem posted_from_rows_five : ∃ events s post,
    FedRuns Sample.ligDataApi (Sample.platform Sample.prefersLate) Sample.config Sample.siteMap Sample.siteTimeMap
      events s ∧
    reported (programEvents events) = [post] ∧ post.oneComb.length = 5 ∧ ∀ t ∈ post.oneComb,
      Decoded (Sample.apiLib Sample.fedRows) (exchanged events) { t with trigIdx := 0 } ∧
      (Sample.config.reProcess = true → inSpan Sample.config t = true) := by
  obtain ⟨⟨events, s⟩, ran, shown⟩ := Option.map_eq_some_iff.mp
    (show Sample.feed.map (fun r => (reported (programEvents r.1)).map fun post => post.oneComb.length) = some [5] by
      decide +kernel)
  obtain ⟨post, one, five⟩ := List.map_eq_singleton_iff.mp shown
  refine ⟨events, s, post, ⟨_, ran⟩, one, five, fun t member => ?_⟩
  exact posted_from_rows (show FedRuns Sample.ligDataApi _ _ _ _ events s from ⟨_, ran⟩)
    (one ▸ List.mem_cons_self) member

end LigDataParsing
