/-
  DmaQueue.Proofs.Device.Sessions

  Runs of a device: any number of clients open and close it, submit, poll and
  give control commands, with changes that the device side makes to the
  registers in between.  `play` carries the steps out and keeps each with its
  outcome.

  A step is either a call on the engine, which the gate does not notice, or a
  matter of the gate, which the engine does not notice (`act_cases`).  So the
  engine runs through its calls as if there were no clients (`erases_play`).
-/
import DmaQueue.Proofs.Device.Control
import Mathlib.Data.List.Basic

namespace DmaQueue

/-! ## The gate -/

namespace Gate

/-- Nobody is in and the gate is free, or one client is in and the gate is not. -/
def Exclusive (gate : Gate) : Prop :=
  gate = {} ∨ ∃ client, gate = { free := false, holders := [client] }

/-- The note about a client that got in. -/
def opened : Note := ⟨.info, "[ACCEL] device opened"⟩

/-- The note about a client that got out. -/
def closed : Note := ⟨.info, "[ACCEL] device closed"⟩

variable {gate : Gate}

theorem Exclusive.length_le (h : gate.Exclusive) : gate.holders.length ≤ 1 := by
  rcases h with rfl | ⟨client, rfl⟩ <;> simp

theorem Exclusive.free_iff (h : gate.Exclusive) : gate.free = true ↔ gate.holders = [] := by
  rcases h with rfl | ⟨client, rfl⟩ <;> simp

theorem enter_apply (h : gate.Exclusive) (client : Nat) :
    enter client gate =
      if gate.holders = [] then ⟨.ok (.ok ()), { free := false, holders := [client] }, [opened]⟩
      else ⟨.ok (.error .busy), gate, []⟩ := by
  rcases h with rfl | ⟨owner, rfl⟩ <;> rfl

theorem leave_apply (h : gate.Exclusive) (client : Nat) :
    leave client gate =
      if client ∈ gate.holders then ⟨.ok true, {}, [closed]⟩ else ⟨.ok false, gate, []⟩ := by
  rcases h with rfl | ⟨owner, rfl⟩
  · rfl
  · -- Nobody but the owner can free a gate that is taken.
    by_cases howner : client = owner
    · subst howner
      simp [leave, holds, bind, Act.bind, Act.get, Act.modify, Act.emit, Outcome.after, closed,
        Act.pure_apply]
    · simp [leave, holds, bind, Act.bind, Act.get, Outcome.after, howner, Act.pure_apply]

end Gate

namespace Device

variable {P R : Type}

/-! ## Steps -/

/-- One of the entry points for work, with what the client passes.  Every control command comes with
the memory of its caller. -/
inductive Entry where
  | submit (request : Request)
  | poll
  | control (code : UInt32) (addr : UInt64) (memory : CallerMemory)

/-- What a client does with the device, or a change of the registers that no client makes. -/
inductive Step (R : Type) where
  | enter (client : Nat)
  | leave (client : Nat)
  | work (client : Nat) (entry : Entry)
  | hardware (change : R → R)

/-- What a step answers. -/
inductive Answer where
  | opened (result : Except Failure Unit)
  | closed (wasOpen : Bool)
  /-- The client does not have the device open. -/
  | notOpen
  | submitted (result : Except Failure Unit)
  | polled (busy : Bool)
  | controlled (answer : Except Failure Unit × CallerMemory)
  | changed

/-- A step together with the device that it found and its outcome. -/
structure Exchange (P R : Type) where
  step : Step R
  before : Device P R
  outcome : Outcome Event (Device P R) Answer

/-- The record of a run. -/
def record (log : List (Exchange P R)) : List Event :=
  log.flatMap (·.outcome.events)

variable [Pinner P] [Registers R]

/-- Carries out the work. -/
def Entry.act : Entry → Act Event (Device P R) Answer
  | .submit request => .submitted <$> Device.submit request
  | .poll => .polled <$> Device.poll
  | .control code addr memory => .controlled <$> Device.control code addr memory

/-- Carries out a step. -/
def Step.act : Step R → Act Event (Device P R) Answer
  | .enter client => .opened <$> openFor client
  | .leave client => .closed <$> closeFor client
  | .work client entry => (·.getD .notOpen) <$> ifOpenFor client entry.act
  | .hardware change => do
    Act.modify fun device =>
      { device with engine.registers := change device.engine.registers }
    return .changed

/-- Carries out a step and keeps its outcome. -/
def perform (step : Step R) : Act (Exchange P R) (Device P R) Unit := fun device =>
  let outcome := step.act device
  ⟨outcome.result.map fun _ => (), outcome.state, [⟨step, device, outcome⟩]⟩

/-- Carries out steps one after the other, until one of them faults. -/
def play : List (Step R) → Act (Exchange P R) (Device P R) Unit
  | [] => return ()
  | step :: rest => do
    perform step
    play rest

theorem play_cons_of_ok {step : Step R} {rest : List (Step R)} {device mid : Device P R}
    {answer : Answer} {events : List Event} (h : step.act device = ⟨.ok answer, mid, events⟩) :
    play (step :: rest) device =
      (play rest mid).after [⟨step, device, ⟨.ok answer, mid, events⟩⟩] := by
  have hperform : perform step device =
      ⟨.ok (), mid, [⟨step, device, ⟨.ok answer, mid, events⟩⟩]⟩ := by
    unfold perform
    rw [h]
    rfl
  exact Act.bind_of_ok hperform

theorem play_cons_of_error {step : Step R} {rest : List (Step R)} {device mid : Device P R}
    {fault : Fault} {events : List Event} (h : step.act device = ⟨.error fault, mid, events⟩) :
    play (step :: rest) device =
      ⟨.error fault, mid, [⟨step, device, ⟨.error fault, mid, events⟩⟩]⟩ := by
  have hperform : perform step device =
      ⟨.error fault, mid, [⟨step, device, ⟨.error fault, mid, events⟩⟩]⟩ := by
    unfold perform
    rw [h]
    rfl
  exact Act.bind_of_error hperform

/-! ## What a step asks of the engine -/

/-- The call that a control command stands for, if its code is known and the record of a submission
can be read. -/
def controlCall? (code : UInt32) (addr : UInt64) (memory : CallerMemory) :
    Option (Engine.Call R) :=
  match Command.ofCode code, memory.readRequest addr with
  | .ok .poll, _ => some .poll
  | .ok .submit, .ok request => some (.submit request)
  | _, _ => none

/-- What a control command answers when its call answers this. -/
def controlAnswer (addr : UInt64) (memory : CallerMemory) :
    Engine.Answer → Except Failure Unit × CallerMemory
  | .submitted result => (result, memory)
  | .polled busy => polledAnswer addr memory busy
  | .changed => (.ok (), memory)

/-- The call on the engine that the work makes. -/
def Entry.call? : Entry → Option (Engine.Call R)
  | .submit request => some (.submit request)
  | .poll => some .poll
  | .control code addr memory => controlCall? code addr memory

/-- What is answered for the work when its call answers this. -/
def Entry.answerOf : Entry → Engine.Answer → Answer
  | .control _ addr memory, answer => .controlled (controlAnswer addr memory answer)
  | _, .submitted result => .submitted result
  | _, .polled busy => .polled busy
  | _, .changed => .changed

/-- What is left of a step when openings and closings are erased. -/
def Step.erased? : Step R → Option (Engine.Call R)
  | .enter _ | .leave _ => none
  | .work _ entry => entry.call?
  | .hardware change => some (.hardware change)

/-- Only a client that has the device open can work with it. -/
def Step.allowed (device : Device P R) : Step R → Bool
  | .work client _ => device.gate.holds client
  | _ => true

/-- The call on the engine that a step makes. -/
def Step.call? (step : Step R) (device : Device P R) : Option (Engine.Call R) :=
  if step.allowed device then step.erased? else none

/-- What a step answers when its call answers this. -/
def Step.answerOf : Step R → Engine.Answer → Answer
  | .work _ entry, answer => entry.answerOf answer
  | _, _ => .changed

/-- The call on the engine that the exchange made. -/
def Exchange.call? (x : Exchange P R) : Option (Engine.Call R) :=
  x.step.call? x.before

/-! ## One step -/

omit [Pinner P] [Registers R] in
theorem onEngine_map {α β : Type} (f : α → β) (m : Act Event (Engine P R) α)
    (device : Device P R) :
    onEngine (do let a ← m; return f a) device = (onEngine m device).map f := by
  simp only [onEngine, Act.zoom, Act.bind_pure_apply]
  rfl

theorem submit_eq_map (request : Request) (device : Device P R) :
    onEngine (Engine.Call.submit request).act device =
      (Device.submit request device).map .submitted :=
  onEngine_map ..

theorem poll_eq_map (device : Device P R) :
    onEngine Engine.Call.poll.act device = (Device.poll device).map .polled :=
  onEngine_map ..

section Control

variable {code : UInt32} {addr : UInt64} {memory : CallerMemory}

theorem control_of_call {call : Engine.Call R} (h : controlCall? code addr memory = some call)
    (device : Device P R) :
    control code addr memory device =
      (onEngine call.act device).map (controlAnswer addr memory) := by
  unfold controlCall? at h
  split at h
  case h_1 hcode =>
    obtain rfl := Command.ofCode_eq_ok_iff.1 hcode
    obtain rfl := Option.some.inj h
    rw [poll_eq_map, Outcome.map_map]
    exact control_poll addr memory device
  case h_2 hcode hread =>
    obtain rfl := Command.ofCode_eq_ok_iff.1 hcode
    obtain rfl := Option.some.inj h
    rw [submit_eq_map, Outcome.map_map]
    exact control_submit_of_read hread device
  case h_3 => exact absurd h nofun

theorem control_of_no_call (h : (controlCall? code addr memory : Option (Engine.Call R)) = none)
    (device : Device P R) :
    ∃ failure, control code addr memory device = ⟨.ok (.error failure, memory), device, []⟩ := by
  cases hcode : Command.ofCode code with
  | error failure =>
    refine ⟨failure, ?_⟩
    rw [control, hcode]
    rfl
  | ok command =>
    obtain rfl := Command.ofCode_eq_ok_iff.1 hcode
    cases hread : memory.readRequest addr with
    | ok request => cases command <;> simp [controlCall?, hcode, hread] at h
    | error failure =>
      cases command with
      | poll => simp [controlCall?, hcode] at h
      | submit =>
        refine ⟨failure, ?_⟩
        show control 1 addr memory device = _
        rw [control_submit, submitFrom, hread]
        rfl

end Control

/-- Work that makes a call has the outcome of the call. -/
theorem act_of_call {entry : Entry} {call : Engine.Call R} (h : entry.call? = some call)
    (device : Device P R) :
    entry.act device = (onEngine call.act device).map entry.answerOf := by
  cases entry with
  | submit request =>
    obtain rfl := Option.some.inj h
    rw [submit_eq_map, Outcome.map_map]
    exact Act.map_apply Answer.submitted (submit request) device
  | poll =>
    obtain rfl := Option.some.inj h
    rw [poll_eq_map, Outcome.map_map]
    exact Act.map_apply Answer.polled poll device
  | control code addr memory =>
    have hact : (Entry.control code addr memory).act device =
        (control code addr memory device).map .controlled := Act.map_apply ..
    rw [hact, control_of_call h, Outcome.map_map]
    rfl

/-- Work that makes no call changes nothing. -/
theorem act_of_no_call {entry : Entry} (h : (entry.call? : Option (Engine.Call R)) = none)
    (device : Device P R) : ∃ answer, entry.act device = ⟨.ok answer, device, []⟩ := by
  cases entry with
  | submit | poll => exact absurd h nofun
  | control code addr memory =>
    have hact : (Entry.control code addr memory).act device =
        (control code addr memory device).map .controlled := Act.map_apply ..
    obtain ⟨failure, hcontrol⟩ := control_of_no_call h device
    rw [hact, hcontrol]
    exact ⟨_, rfl⟩

omit [Pinner P] [Registers R] in
theorem ifOpenFor_apply {α : Type} (client : Nat) (m : Act Event (Device P R) α)
    (device : Device P R) :
    ifOpenFor client m device =
      if device.gate.holds client then (m device).map some else ⟨.ok none, device, []⟩ := by
  show ((if device.gate.holds client then some <$> m else return none) device).after [] = _
  split
  · rw [Act.map_apply]
    rfl
  · rfl

theorem act_work (client : Nat) (entry : Entry) (device : Device P R) :
    (Step.work client entry : Step R).act device =
      if device.gate.holds client then entry.act device else ⟨.ok .notOpen, device, []⟩ := by
  have hact : (Step.work client entry : Step R).act device =
      (ifOpenFor client entry.act device).map (·.getD .notOpen) := Act.map_apply ..
  rw [hact, ifOpenFor_apply]
  split
  · rw [Outcome.map_map]
    cases h : entry.act device with
    | mk result state events => cases result <;> rfl
  · rfl

section Gate

variable {device : Device P R} (h : device.gate.Exclusive) (client : Nat)

omit [Pinner P] [Registers R]
include h

theorem openFor_apply :
    openFor client device =
      if device.gate.holders = [] then
        ⟨.ok (.ok ()), { device with gate := { free := false, holders := [client] } },
          [.noted Gate.opened]⟩
      else ⟨.ok (.error .busy), device, []⟩ := by
  simp only [openFor, onGate, Act.zoom, Act.mapEvents, Gate.enter_apply h]
  split <;> rfl

theorem closeFor_apply :
    closeFor client device =
      if client ∈ device.gate.holders then
        ⟨.ok true, { device with gate := {} }, [.noted Gate.closed]⟩
      else ⟨.ok false, device, []⟩ := by
  simp only [closeFor, onGate, Act.zoom, Act.mapEvents, Gate.leave_apply h]
  split <;> rfl

theorem isOpen_iff : device.isOpen = true ↔ device.gate.holders ≠ [] := by
  rw [isOpen, Bool.not_eq_true', ← Bool.not_eq_true, h.free_iff]

end Gate

/-- What a step does: it makes one call on the engine and leaves the gate alone, or it is a matter
of the gate, which leaves nothing but notes. -/
theorem act_cases {device : Device P R} (h : device.gate.Exclusive) (step : Step R) :
    (∃ call, step.call? device = some call ∧
      step.act device = (onEngine call.act device).map step.answerOf) ∨
    (step.call? device = none ∧ ∃ answer gate, ∃ notes : List Note, gate.Exclusive ∧
      step.act device = ⟨.ok answer, { device with gate }, notes.map .noted⟩) := by
  cases step with
  | enter client =>
    have hact : (Step.enter client : Step R).act device = (openFor client device).map .opened :=
      Act.map_apply ..
    rw [hact, openFor_apply h]
    split
    · exact .inr ⟨rfl, _, _, [Gate.opened], .inr ⟨client, rfl⟩, rfl⟩
    · exact .inr ⟨rfl, _, device.gate, [], h, rfl⟩
  | leave client =>
    have hact : (Step.leave client : Step R).act device = (closeFor client device).map .closed :=
      Act.map_apply ..
    rw [hact, closeFor_apply h]
    split
    · exact .inr ⟨rfl, _, _, [Gate.closed], .inl rfl, rfl⟩
    · exact .inr ⟨rfl, _, device.gate, [], h, rfl⟩
  | work client entry =>
    by_cases hholds : device.gate.holds client = true
    · cases hcall : (entry.call? : Option (Engine.Call R)) with
      | some call =>
        refine .inl ⟨call, (if_pos hholds).trans hcall, ?_⟩
        rw [act_work, if_pos hholds]
        exact act_of_call hcall device
      | none =>
        obtain ⟨answer, hanswer⟩ := act_of_no_call hcall device
        refine .inr ⟨(if_pos hholds).trans hcall, answer, device.gate, [], h, ?_⟩
        rw [act_work, if_pos hholds]
        exact hanswer
    · -- Whoever does not have the device open is turned away.
      refine .inr ⟨if_neg hholds, .notOpen, device.gate, [], h, ?_⟩
      rw [act_work, if_neg hholds]
      rfl
  | hardware change => exact .inl ⟨.hardware change, rfl, rfl⟩

/-! ## A run without its clients -/

/-- The second log is what is left of the first one without the exchanges that make no call.  Those
leave the engine as it is, with nothing but notes; every other one leaves the engine and the events
that its call leaves, and answers what its call answers. -/
inductive Erases : List (Exchange P R) → List (Engine.Exchange P R) → Prop
  | nil : Erases [] []
  | skip {x : Exchange P R} {log : List (Exchange P R)} {plain : List (Engine.Exchange P R)}
      (hcall : x.call? = none) (hengine : x.outcome.state.engine = x.before.engine)
      (hnotes : ∃ notes : List Note, x.outcome.events = notes.map .noted)
      (hrest : Erases log plain) :
      Erases (x :: log) plain
  | keep {x : Exchange P R} {y : Engine.Exchange P R} {log : List (Exchange P R)}
      {plain : List (Engine.Exchange P R)} (hcall : x.call? = some y.call)
      (hresult : x.outcome.result = y.outcome.result.map x.step.answerOf)
      (hengine : x.outcome.state.engine = y.outcome.state)
      (hevents : x.outcome.events = y.outcome.events) (hrest : Erases log plain) :
      Erases (x :: log) (y :: plain)

omit [Pinner P] [Registers R] in
/-- The two records tell the same deeds. -/
theorem Erases.deeds_eq {log : List (Exchange P R)} {plain : List (Engine.Exchange P R)}
    (h : Erases log plain) : Event.deeds (record log) = Event.deeds (Engine.record plain) := by
  unfold record Engine.record
  induction h with
  | nil => rfl
  | skip _ _ hnotes _ ih =>
    obtain ⟨notes, hevents⟩ := hnotes
    rw [List.flatMap_cons, Event.deeds_append, hevents, Event.deeds_map_noted, List.nil_append, ih]
  | keep _ _ _ hevents _ ih =>
    rw [List.flatMap_cons, List.flatMap_cons, Event.deeds_append, Event.deeds_append, hevents, ih]

omit [Pinner P] [Registers R] in
/-- Where only clients that have the device open work with it, no other steps are erased than
openings and closings, and the commands that make no call. -/
theorem calls_eq_erased {log : List (Exchange P R)}
    (h : ∀ x ∈ log, x.step.allowed x.before = true) :
    log.filterMap Exchange.call? = (log.map (·.step)).filterMap Step.erased? := by
  rw [List.filterMap_map]
  exact List.filterMap_congr fun x hx => if_pos (h x hx)

/-- The steps carried out are the first ones. -/
theorem steps_of_play (steps : List (Step R)) (device : Device P R) :
    (play steps device).events.map (·.step) <+: steps := by
  induction steps generalizing device with
  | nil => exact List.prefix_refl _
  | cons step rest ih =>
    cases hone : step.act device with
    | mk result mid events =>
      cases result with
      | error fault =>
        rw [play_cons_of_error hone]
        exact ⟨rest, rfl⟩
      | ok answer =>
        rw [play_cons_of_ok hone]
        exact List.cons_prefix_cons.2 ⟨rfl, ih mid⟩

/-- The engine of a device runs through its calls as if there were no clients. -/
theorem erases_play {device : Device P R} (h : device.gate.Exclusive) (steps : List (Step R)) :
    let run := play steps device
    let plain := Engine.play (run.events.filterMap Exchange.call?) device.engine
    run.state.gate.Exclusive ∧ plain.result = run.result ∧ plain.state = run.state.engine ∧
      Erases run.events plain.events := by
  induction steps generalizing device with
  | nil => exact ⟨h, rfl, rfl, .nil⟩
  | cons step rest ih =>
    -- A step with a call takes both runs on, any other one only that of the device.
    rcases act_cases h step with ⟨call, hcall, hact⟩ | ⟨hcall, answer, gate, notes, hgate, hact⟩
    · have hexchange : ∀ outcome, (⟨step, device, outcome⟩ : Exchange P R).call? = some call :=
        fun _ => hcall
      cases hone : call.act device.engine with
      | mk result mid events =>
        have hstep : step.act device =
            ⟨result.map step.answerOf, { device with engine := mid }, events⟩ := by
          rw [hact, onEngine, Act.zoom, hone]
          rfl
        cases result with
        | error fault =>
          -- Both runs end here, with the same fault.
          rw [play_cons_of_error hstep]
          simp only [List.filterMap_cons, hexchange, List.filterMap_nil]
          rw [Engine.play_cons_of_error hone]
          exact ⟨h, rfl, rfl, .keep hcall rfl rfl rfl .nil⟩
        | ok answer =>
          have hmid : ({ device with engine := mid } : Device P R).gate.Exclusive := h
          obtain ⟨hgate, hresult, hengine, herases⟩ := ih hmid
          rw [play_cons_of_ok hstep]
          simp only [Outcome.after, List.singleton_append, List.filterMap_cons, hexchange]
          rw [Engine.play_cons_of_ok hone]
          exact ⟨hgate, hresult, hengine, .keep hcall rfl rfl rfl herases⟩
    · have hexchange : ∀ outcome, (⟨step, device, outcome⟩ : Exchange P R).call? = none :=
        fun _ => hcall
      have hmid : ({ device with gate } : Device P R).gate.Exclusive := hgate
      obtain ⟨hgate, hresult, hengine, herases⟩ := ih hmid
      rw [play_cons_of_ok hact]
      simp only [Outcome.after, List.singleton_append, List.filterMap_cons, hexchange]
      exact ⟨hgate, hresult, hengine, .skip hcall rfl ⟨notes, rfl⟩ herases⟩

/-- Any clients take any steps on a device with a new gate, and the device side changes registers in
between.  Whenever they stop, at most one client has the device open; it counts as open exactly if
one does; opening succeeds exactly if none does and is refused otherwise with nothing changed,
closing frees the gate for the one that has it, and neither touches the engine.  The engine has come
through the calls of the clients that had the device open as through a history of its own: the same
engine faces every call and answers the same, a fault is the same fault, and the register accesses
are the same in all.  If no other clients tried to work, the history is that of the steps with the
openings and closings erased. -/
theorem sessions_of_play (engine : Engine P R) (steps : List (Step R)) :
    let run := play steps { engine }
    let device := run.state
    let plain := Engine.play (run.events.filterMap Exchange.call?) engine
    device.gate.holders.length ≤ 1 ∧
    (device.isOpen = true ↔ device.gate.holders ≠ []) ∧
    (∀ client, openFor client device =
      if device.gate.holders = [] then
        ⟨.ok (.ok ()), { device with gate := { free := false, holders := [client] } },
          [.noted Gate.opened]⟩
      else ⟨.ok (.error .busy), device, []⟩) ∧
    (∀ client, closeFor client device =
      if client ∈ device.gate.holders then
        ⟨.ok true, { device with gate := {} }, [.noted Gate.closed]⟩
      else ⟨.ok false, device, []⟩) ∧
    plain.result = run.result ∧ plain.state = device.engine ∧ Erases run.events plain.events ∧
    (record run.events).filter Event.isAccess =
      (Engine.record plain.events).filter Event.isAccess ∧
    run.events.map (·.step) <+: steps ∧
    ((∀ x ∈ run.events, x.step.allowed x.before = true) →
      run.events.filterMap Exchange.call? = (run.events.map (·.step)).filterMap Step.erased?) := by
  intro run device plain
  have hnew : ({ engine } : Device P R).gate.Exclusive := .inl rfl
  obtain ⟨hgate, hresult, hengine, herases⟩ := erases_play hnew steps
  refine ⟨hgate.length_le, isOpen_iff hgate, openFor_apply hgate, closeFor_apply hgate, hresult,
    hengine, herases, ?_, steps_of_play steps _, calls_eq_erased⟩
  rw [← Event.filter_isAccess_deeds, herases.deeds_eq, Event.filter_isAccess_deeds]

end Device

end DmaQueue
