import Dashboard.Proofs.Intake.Applied

/-!
# Every order of events

Senders, the viewer who cancels and the consumer act in any order: `run` follows a list of their
events. `sent` and `taken` read off a run what came into the queue and what the consumer took out
of it, and `Stepped` lists all that one event can do. `InOrder` says that nothing is overtaken,
doubled or lost but by a cancellation.
-/

namespace Dashboard.Intake

/-- What can happen to an intake. A sender that waits for room offers its payload when there is
room. -/
inductive Event where
  | offer (payload : String)
  | close
  | cancel
  | prefer (preferences : Preferences)
  | consume

def step (i : Intake) : Event → Intake
  | .offer payload => (i.offer payload).2
  | .close => i.close
  | .cancel => i.requestCancel
  | .prefer preferences => i.setPreferences preferences
  | .consume => i.consume

def run : Intake → List Event → Intake
  | i, [] => i
  | i, event :: rest => (i.step event).run rest

def sends (i : Intake) : Event → List String
  | .offer payload => if (i.offer payload).1 = .queued then [payload] else []
  | _ => []

def takes (i : Intake) : Event → List Delivery
  | .consume =>
    if i.ended || i.cancelled then []
    else (i.queue.take 1).map fun payload => { preferences := i.preferences, payload }
  | _ => []

def sent : Intake → List Event → List String
  | _, [] => []
  | i, event :: rest => i.sends event ++ (i.step event).sent rest

def taken : Intake → List Event → List Delivery
  | _, [] => []
  | i, event :: rest => i.takes event ++ (i.step event).taken rest

theorem run_append (i : Intake) (before after : List Event) :
    i.run (before ++ after) = (i.run before).run after := by
  induction before generalizing i with
  | nil => rfl
  | cons event rest ih => exact ih (i.step event)

theorem taken_append (i : Intake) (before after : List Event) :
    i.taken (before ++ after) = i.taken before ++ (i.run before).taken after := by
  induction before generalizing i with
  | nil => rfl
  | cons event rest ih => simp only [List.cons_append, taken, run, ih, List.append_assoc]

theorem sent_append (i : Intake) (before after : List Event) :
    i.sent (before ++ after) = i.sent before ++ (i.run before).sent after := by
  induction before generalizing i with
  | nil => rfl
  | cons event rest ih => simp only [List.cons_append, sent, run, ih, List.append_assoc]

/-! ### Single steps -/

/-- All that one event can do: what it sends, what it takes, and the intake after it. -/
inductive Stepped (i : Intake) : List String → List Delivery → Intake → Prop where
  /-- An offer is refused, or the consumer has ended. -/
  | unchanged : Stepped i [] [] i
  | queued (going : i.ended = false) (payload : String) :
      Stepped i [payload] [] { i with queue := i.queue ++ [payload] }
  | closed : Stepped i [] [] i.close
  | cancelled : Stepped i [] [] i.requestCancel
  | preferred (preferences : Preferences) : Stepped i [] [] (i.setPreferences preferences)
  | halted (going : i.ended = false) (cancelled : i.cancelled = true) :
      Stepped i [] [] { i with queue := [], ended := true }
  | idle (going : i.ended = false) (kept : i.cancelled = false) (empty : i.queue = []) :
      Stepped i [] [] { i with ended := i.closed }
  | took (going : i.ended = false) (kept : i.cancelled = false) {payload : String}
      {rest : List String} (waiting : i.queue = payload :: rest) :
      Stepped i [] [{ preferences := i.preferences, payload }]
        ({ i with queue := rest }.process payload)

theorem offer_stepped (i : Intake) (payload : String) :
    i.Stepped (i.sends (.offer payload)) [] (i.offer payload).2 := by
  rw [sends, offer]
  by_cases shut : i.closed || i.ended
  · simpa [shut] using Stepped.unchanged
  · by_cases full : i.capacity ≤ i.queue.length
    · simpa [shut, full] using Stepped.unchanged
    · have going : i.ended = false := by simp_all
      simpa [shut, full] using Stepped.queued going payload

theorem consume_stepped (i : Intake) : i.Stepped [] (i.takes .consume) i.consume := by
  rw [takes, consume]
  cases going : i.ended with
  | true => simpa [going] using Stepped.unchanged
  | false =>
    cases kept : i.cancelled with
    | true => simpa [going, kept] using Stepped.halted going kept
    | false =>
      cases waiting : i.queue with
      | nil => simpa [going, kept, waiting] using Stepped.idle going kept waiting
      | cons payload rest => simpa [going, kept, waiting] using Stepped.took going kept waiting

theorem stepped (i : Intake) (event : Event) :
    i.Stepped (i.sends event) (i.takes event) (i.step event) := by
  cases event with
  | offer payload => exact i.offer_stepped payload
  | close => exact .closed
  | cancel => exact .cancelled
  | prefer preferences => exact .preferred preferences
  | consume => exact i.consume_stepped

/-- Two intakes have the same queue and stand alike with their senders and their consumer. -/
structure SameQueue (i j : Intake) : Prop where
  queue : j.queue = i.queue
  capacity : j.capacity = i.capacity
  closed : j.closed = i.closed
  cancelled : j.cancelled = i.cancelled
  ended : j.ended = i.ended

theorem process_frame (i : Intake) (payload : String) : i.SameQueue (i.process payload) := by
  cases decoded : Payload.decode payload with
  | ok records => rw [process_of_ok decoded]; exact ⟨rfl, rfl, rfl, rfl, rfl⟩
  | error fault => rw [process_of_error decoded]; exact ⟨rfl, rfl, rfl, rfl, rfl⟩

variable {s : Session} {past : List Delivery} {i : Intake}

theorem Stepped.applied {sends : List String} {takes : List Delivery} {next : Intake}
    (stepped : i.Stepped sends takes next) (h : i.Applied s past) :
    next.Applied s (past ++ takes) := by
  cases stepped with
  | @took _ _ payload rest waiting =>
    have same : Applied s past { i with queue := rest } := h.of_eq rfl rfl rfl
    exact process_applied same payload
  | _ =>
    rw [List.append_nil]
    exact h.of_eq rfl rfl rfl

theorem run_applied (h : i.Applied s past) (events : List Event) :
    (i.run events).Applied s (past ++ i.taken events) := by
  induction events generalizing i past with
  | nil => simpa [run, taken] using h
  | cons event rest ih =>
    rw [taken, ← List.append_assoc]
    exact ih ((i.stepped event).applied h)

theorem Stepped.of_cancelled {sends : List String} {takes : List Delivery} {next : Intake}
    (stepped : i.Stepped sends takes next) (cancelled : i.cancelled = true) :
    next.cancelled = true ∧ takes = [] := by
  cases stepped with
  | cancelled => exact ⟨rfl, rfl⟩
  | took going kept => rw [kept] at cancelled; cases cancelled
  | _ => exact ⟨cancelled, rfl⟩

theorem taken_of_cancelled (cancelled : i.cancelled = true) (events : List Event) :
    i.taken events = [] := by
  induction events generalizing i with
  | nil => rfl
  | cons event rest ih =>
    obtain ⟨still, nothing⟩ := (i.stepped event).of_cancelled cancelled
    rw [taken, nothing, ih still, List.nil_append]

theorem taken_cancel (i : Intake) (after : List Event) : i.taken (.cancel :: after) = [] := by
  have cancelled : (i.step .cancel).cancelled = true := rfl
  rw [taken, taken_of_cancelled cancelled]
  rfl

theorem Stepped.of_ended {sends : List String} {takes : List Delivery} {next : Intake}
    (stepped : i.Stepped sends takes next) (ended : i.ended = true) :
    next.ended = true ∧ sends = [] ∧ takes = [] := by
  cases stepped with
  | queued going | halted going | idle going | took going => rw [going] at ended; cases ended
  | _ => exact ⟨ended, rfl, rfl⟩

theorem sent_taken_of_ended (ended : i.ended = true) (events : List Event) :
    i.sent events = [] ∧ i.taken events = [] := by
  induction events generalizing i with
  | nil => exact ⟨rfl, rfl⟩
  | cons event rest ih =>
    obtain ⟨still, unsent, untaken⟩ := (i.stepped event).of_ended ended
    obtain ⟨restUnsent, restUntaken⟩ := ih still
    rw [sent, taken, unsent, untaken, restUnsent, restUntaken]
    exact ⟨rfl, rfl⟩

/-! ### Order -/

/-- What was taken was sent, in the same order. The rest of what was sent is waiting, or was lost
by a cancellation. -/
structure InOrder (sent : List String) (taken : List Delivery) (i : Intake) : Prop where
  waiting : i.ended = false → sent = taken.map Delivery.payload ++ i.queue
  first : i.ended = true → taken.map Delivery.payload <+: sent
  whole : i.ended = true → i.cancelled = false → taken.map Delivery.payload = sent

theorem inOrder_of_split {sent : List String} (split : sent = past.map Delivery.payload ++ i.queue)
    (empty : i.ended = true → i.queue = []) : i.InOrder sent past where
  waiting _ := split
  first _ := by
    rw [split]
    exact List.prefix_append ..
  whole ended _ := by rw [split, empty ended, List.append_nil]

theorem InOrder.begins {sent : List String} (h : i.InOrder sent past) :
    past.map Delivery.payload <+: sent := by
  cases going : i.ended with
  | true => exact h.first going
  | false =>
    rw [h.waiting going]
    exact List.prefix_append ..

theorem Stepped.inOrder {sent sends : List String} {takes : List Delivery} {next : Intake}
    (stepped : i.Stepped sends takes next) (h : i.InOrder sent past) :
    next.InOrder (sent ++ sends) (past ++ takes) := by
  cases stepped with
  | unchanged => simpa only [List.append_nil] using h
  | queued going payload =>
    rw [List.append_nil]
    refine inOrder_of_split (by rw [h.waiting going, List.append_assoc]) fun ended => ?_
    simp [going] at ended
  | closed | preferred =>
    simp only [List.append_nil]
    exact ⟨h.waiting, h.first, h.whole⟩
  | cancelled =>
    simp only [List.append_nil]
    exact ⟨h.waiting, h.first, nofun⟩
  | halted going cancelled =>
    simp only [List.append_nil]
    refine ⟨nofun, fun _ => h.begins, fun _ kept => ?_⟩
    simp [cancelled] at kept
  | idle going kept empty =>
    simp only [List.append_nil]
    exact inOrder_of_split (h.waiting going) fun _ => empty
  | @took going kept payload rest waiting =>
    have frame := process_frame { i with queue := rest } payload
    rw [List.append_nil]
    refine inOrder_of_split ?_ fun ended => ?_
    · rw [h.waiting going, waiting, frame.queue]
      simp
    · rw [frame.ended] at ended
      simp [going] at ended

theorem run_inOrder {sent : List String} (h : i.InOrder sent past) (events : List Event) :
    (i.run events).InOrder (sent ++ i.sent events) (past ++ i.taken events) := by
  induction events generalizing i sent past with
  | nil => simpa [run, Intake.sent, taken] using h
  | cons event rest ih =>
    rw [taken, Intake.sent, ← List.append_assoc, ← List.append_assoc]
    exact ih ((i.stepped event).inOrder h)

/-- Nothing waits, and a payload can be sent and taken. -/
structure Ready (i : Intake) : Prop where
  room : 0 < i.capacity
  empty : i.queue = []
  receiving : i.closed = false
  kept : i.cancelled = false
  going : i.ended = false

def inTurn (ds : List Delivery) : List Event :=
  ds.flatMap fun d => [.prefer d.preferences, .offer d.payload, .consume]

theorem Ready.step_in_turn (ready : i.Ready) (d : Delivery) :
    (i.run (inTurn [d])).Ready ∧ i.taken (inTurn [d]) = [d] := by
  obtain ⟨room, empty, receiving, kept, going⟩ := ready
  let offered : Intake := { i with preferences := d.preferences, queue := [d.payload] }
  have queued : ((i.setPreferences d.preferences).offer d.payload).2 = offered := by
    simp [offer, setPreferences, receiving, going, empty, Nat.ne_of_gt room, offered]
  have consumed : offered.consume = { offered with queue := [] }.process d.payload := by
    simp [consume, offered, going, kept]
  have ran : i.run (inTurn [d]) = { offered with queue := [] }.process d.payload := by
    rw [← consumed, ← queued]
    rfl
  have took : i.taken (inTurn [d]) = offered.takes .consume := by
    rw [← queued]
    exact List.append_nil _
  have frame := process_frame { offered with queue := [] } d.payload
  rw [ran, took]
  constructor
  · exact ⟨Nat.lt_of_lt_of_eq room frame.capacity.symm, frame.queue, frame.closed.trans receiving,
      frame.cancelled.trans kept, frame.ended.trans going⟩
  · simp [takes, offered, going, kept]

theorem Ready.run_in_turn (ready : i.Ready) (ds : List Delivery) :
    (i.run (inTurn ds)).Ready ∧ i.taken (inTurn ds) = ds := by
  induction ds generalizing i with
  | nil => exact ⟨ready, rfl⟩
  | cons d rest ih =>
    obtain ⟨still, first⟩ := ready.step_in_turn d
    obtain ⟨last, others⟩ := ih still
    have split : inTurn (d :: rest) = inTurn [d] ++ inTurn rest := by simp [inTurn]
    rw [split, run_append, taken_append, first, others]
    exact ⟨last, rfl⟩

theorem Ready.close_ends (ready : i.Ready) :
    (i.run [.close, .consume]).ended = true ∧ i.taken [.close, .consume] = [] := by
  obtain ⟨_, empty, _, kept, going⟩ := ready
  simp [run, taken, takes, step, close, consume, empty, kept, going]

/-! ### Main results -/

theorem opened_ready (s : Session) (size : Nat) (preferences : Preferences) :
    (opened s size preferences).Ready :=
  ⟨Nat.le_max_right size 1, rfl, rfl, rfl, rfl⟩

theorem opened_run_inOrder (s : Session) (size : Nat) (preferences : Preferences)
    (events : List Event) :
    ((opened s size preferences).run events).InOrder ((opened s size preferences).sent events)
      ((opened s size preferences).taken events) :=
  have start : (opened s size preferences).InOrder [] [] := inOrder_of_split rfl fun _ => rfl
  run_inOrder start events

theorem opened_run_applied (s : Session) (size : Nat) (preferences : Preferences)
    (events : List Event) :
    ((opened s size preferences).run events).Applied s ((opened s size preferences).taken events) :=
  run_applied (opened_applied s size preferences) events

/-- Whatever senders, cancellation and consumer do in whatever order, the payloads taken are the
first of those sent, in the order of sending, and the session, what was shown and the tally are
those of applying exactly them. Nothing is taken after a cancellation, and if the consumer ended
before there was one, it has taken all that was sent. -/
theorem takes_prefix_of_sent (s : Session) (size : Nat) (preferences : Preferences)
    (events : List Event) :
    let start := opened s size preferences
    let taken := start.taken events
    let i := start.run events
    taken.map Delivery.payload <+: start.sent events ∧
    i.Applied s taken ∧
    (∀ before after, events = before ++ .cancel :: after →
      taken = start.taken before ∧ i.session = (start.run before).session ∧
        i.frames = (start.run before).frames ∧ i.tally = (start.run before).tally) ∧
    ∀ before after, events = before ++ after →
      (start.run before).ended = true → (start.run before).cancelled = false →
      taken.map Delivery.payload = start.sent events := by
  intro start taken i
  have applied : i.Applied s taken := opened_run_applied s size preferences events
  refine ⟨(opened_run_inOrder s size preferences events).begins, applied, ?_, ?_⟩
  · intro before after split
    have stopped : taken = start.taken before := by
      simp only [taken, split, taken_append, taken_cancel, List.append_nil]
    rw [stopped] at applied
    exact ⟨stopped, applied.unique (opened_run_applied s size preferences before)⟩
  · intro before after split ended kept
    obtain ⟨unsent, untaken⟩ := sent_taken_of_ended ended after
    have all : taken = start.taken before := by
      simp only [taken, split, taken_append, untaken, List.append_nil]
    rw [all, split, sent_append, unsent, List.append_nil]
    exact (opened_run_inOrder s size preferences before).whole ended kept

/-- Payloads of any kind, each under any preferences, can be taken in until the intake is closed.
When exactly these have been taken, in whatever run, those that decode have been applied, record by
record, and shown, each as one frame; the others are counted and leave no other trace. -/
theorem applies_what_decodes (s : Session) (size : Nat) (preferences : Preferences)
    (ds : List Delivery) :
    let start := opened s size preferences
    (∃ events, .cancel ∉ events ∧ start.taken events = ds ∧ (start.run events).ended = true) ∧
    ∀ events, start.taken events = ds →
      let i := start.run events
      let batches := batchesOf ds
      i.session = (s.applyEach (batches.flatMap Batch.steps)).session ∧
      i.frames = s.framesOf batches ∧
      i.tally.batches = ds.length ∧
      i.tally.dropped = ds.countP (·.batch?.isNone) ∧
      i.tally.batches - i.tally.dropped = i.frames.length ∧
      i.tally.changes = (i.frames.map (·.changes.length)).sum ∧
      ∀ before bad after more, ds = before ++ after → bad.batch? = none →
        start.taken more = before ++ bad :: after →
        (start.run more).session = i.session ∧ (start.run more).frames = i.frames ∧
          (start.run more).tally = { i.tally with
            batches := i.tally.batches + 1
            dropped := i.tally.dropped + 1 } := by
  intro start
  constructor
  · obtain ⟨ready, all⟩ := (opened_ready s size preferences).run_in_turn ds
    obtain ⟨ended, none⟩ := ready.close_ends
    refine ⟨inTurn ds ++ [.close, .consume], by simp [inTurn], ?_, ?_⟩
    · rw [taken_append, all, none, List.append_nil]
    · rw [run_append, ended]
  · intro events same i batches
    have h : i.Applied s ds := same ▸ opened_run_applied s size preferences events
    have shown := h.shown
    refine ⟨h.session, h.frames, h.batches, h.dropped, by omega, h.changes, ?_⟩
    intro before bad after more split refused again
    have h' : (start.run more).Applied s (before ++ bad :: after) :=
      again ▸ opened_run_applied s size preferences more
    exact (split ▸ h).insert_refused h' refused

end Dashboard.Intake
