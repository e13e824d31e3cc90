import Mathlib.Data.List.Induction

/-! Runs of a machine whose step is a partial function: `step s a` is `none` when
action `a` is not enabled in `s`, and otherwise the event the step shows and the
next state. A run is a list of actions, so it can be evaluated. -/
namespace Machine

variable {S A E : Type*} (step : S → A → Option (E × S))

def run : S → List A → Option (List E × S)
  | s, [] => some ([], s)
  | s, a :: actions =>
    match step s a with
    | none => none
    | some (event, next) =>
      match run next actions with
      | none => none
      | some (events, final) => some (event :: events, final)

/-- `Reaches step s events t`: some run from `s` shows `events` and ends in `t`. -/
def Reaches (s : S) (events : List E) (t : S) : Prop := ∃ actions, run step s actions = some (events, t)

variable {step}

theorem Reaches.refl (s : S) : Reaches step s [] s := ⟨[], rfl⟩

theorem run_cons {s t : S} {a : A} {actions : List A} {events : List E} :
    run step s (a :: actions) = some (events, t) ↔
      ∃ event next rest, step s a = some (event, next) ∧ run step next actions = some (rest, t) ∧
        events = event :: rest := by
  constructor
  · intro ran
    simp only [run] at ran
    split at ran
    · contradiction
    · rename_i event next stepped
      split at ran
      · contradiction
      · rename_i rest final ran'
        cases ran
        exact ⟨event, next, rest, stepped, ran', rfl⟩
  · rintro ⟨event, next, rest, stepped, ran, rfl⟩
    simp [run, stepped, ran]

theorem run_append {s t : S} {first second : List A} {events : List E} :
    run step s (first ++ second) = some (events, t) ↔
      ∃ earlier middle later, run step s first = some (earlier, middle) ∧
        run step middle second = some (later, t) ∧ events = earlier ++ later := by
  induction first generalizing s events with
  | nil => simp [run]
  | cons a first ih =>
    simp only [List.cons_append, run_cons, ih]
    constructor
    · rintro ⟨event, next, _, stepped, ⟨earlier, middle, later, ran, tail, rfl⟩, rfl⟩
      exact ⟨event :: earlier, middle, later, ⟨event, next, earlier, stepped, ran, rfl⟩, tail, rfl⟩
    · rintro ⟨_, middle, later, ⟨event, next, earlier, stepped, ran, rfl⟩, tail, rfl⟩
      exact ⟨event, next, _, stepped, ⟨earlier, middle, later, ran, tail, rfl⟩, rfl⟩

theorem Reaches.trans {s t u : S} {earlier later : List E} (first : Reaches step s earlier t)
    (second : Reaches step t later u) : Reaches step s (earlier ++ later) u := by
  obtain ⟨before, ran⟩ := first
  obtain ⟨after, tail⟩ := second
  exact ⟨before ++ after, run_append.mpr ⟨earlier, t, later, ran, tail, rfl⟩⟩

theorem Reaches.snoc {s t u : S} {a : A} {event : E} {events : List E}
    (reached : Reaches step s events t) (stepped : step t a = some (event, u)) :
    Reaches step s (events ++ [event]) u :=
  reached.trans ⟨[a], run_cons.mpr ⟨event, u, [], stepped, rfl, rfl⟩⟩

/-- The invariant rule: a property of the events shown so far and the current state
that holds at the start and survives every step holds after every run. -/
theorem Reaches.invariant {s t : S} {events : List E} (property : List E → S → Prop)
    (initial : property [] s)
    (preserved : ∀ shown current a event next, Reaches step s shown current →
      property shown current → step current a = some (event, next) →
      property (shown ++ [event]) next)
    (reached : Reaches step s events t) : property events t := by
  obtain ⟨actions, ran⟩ := reached
  induction actions using List.reverseRecOn generalizing events t with
  | nil =>
    cases ran
    exact initial
  | append_singleton actions a ih =>
    obtain ⟨shown, current, last, before, tail, rfl⟩ := run_append.mp ran
    obtain ⟨event, next, _, stepped, done, rfl⟩ := run_cons.mp tail
    cases done
    exact preserved shown current a event t ⟨actions, before⟩ (ih before) stepped

theorem Reaches.split {s t : S} {earlier later : List E} (reached : Reaches step s (earlier ++ later) t) :
    ∃ middle, Reaches step s earlier middle ∧ Reaches step middle later t := by
  obtain ⟨actions, ran⟩ := reached
  induction earlier generalizing s actions with
  | nil => exact ⟨s, .refl s, actions, ran⟩
  | cons event earlier ih =>
    cases actions with
    | nil => simp [run] at ran
    | cons a actions =>
      obtain ⟨head, next, rest, stepped, tail, same⟩ := run_cons.mp ran
      obtain ⟨rfl, rfl⟩ := List.cons.inj same
      obtain ⟨middle, first, second⟩ := ih actions tail
      exact ⟨middle, Reaches.trans ⟨[a], run_cons.mpr ⟨event, next, [], stepped, rfl, rfl⟩⟩ first, second⟩

theorem Reaches.step_at {s t : S} {earlier later : List E} {event : E}
    (reached : Reaches step s (earlier ++ event :: later) t) :
    ∃ before a after, Reaches step s earlier before ∧ step before a = some (event, after) ∧
      Reaches step after later t := by
  obtain ⟨before, first, actions, ran⟩ := reached.split
  cases actions with
  | nil => simp [run] at ran
  | cons a actions =>
    obtain ⟨head, after, rest, stepped, tail, same⟩ := run_cons.mp ran
    obtain ⟨rfl, rfl⟩ := List.cons.inj same
    exact ⟨before, a, after, first, stepped, actions, tail⟩

theorem filterMap_snoc {F : Type*} (kind : E → Option F) (events : List E) (event : E) :
    (events ++ [event]).filterMap kind = events.filterMap kind ++ (kind event).toList := by
  rw [List.filterMap_append]
  cases shown : kind event <;> simp [shown]

end Machine
