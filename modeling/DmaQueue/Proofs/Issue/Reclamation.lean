/-
  DmaQueue.Proofs.Issue.Reclamation

  When transfers are reclaimed, read off the record alone.  The descriptors that
  were handed over so far tell which transfers are finished.  Every reading of
  an empty destination FIFO releases the transfers finished since the last such
  reading, oldest first, and no other entry releases a transfer.
-/
import DmaQueue.Proofs.Engine.Loop
import DmaQueue.Proofs.Issue.Streams

namespace DmaQueue

namespace Transfer

/-! ## Finished transfers -/

/-- The first transfers that have all their descriptors among the first `k`. -/
def finished : Nat → List Transfer → List Transfer
  | _, [] => []
  | k, t :: rest => if t.pageCount ≤ k then t :: finished (k - t.pageCount) rest else []

/-- The descriptors of some transfers, one for each page. -/
def pageTotal : List Transfer → Nat
  | [] => 0
  | t :: rest => t.pageCount + pageTotal rest

theorem Paged.pageCount_pos {t : Transfer} (h : t.Paged) : 0 < t.pageCount :=
  Nat.lt_of_lt_of_le h.source (Nat.le_add_right ..)

/-- The descriptors of some transfers, and not all of those of the next one, finish the former. -/
theorem finished_append {ts rest : List Transfer} {k : Nat}
    (h : ∀ t ∈ rest.head?, k < t.pageCount) : finished (pageTotal ts + k) (ts ++ rest) = ts := by
  induction ts with
  | nil =>
    cases rest with
    | nil => rfl
    | cons t rest =>
      have hk : ¬ t.pageCount ≤ 0 + k := by
        have hless := h t rfl
        omega
      show finished (0 + k) (t :: rest) = []
      rw [finished, if_neg hk]
  | cons t ts ih =>
    have hle : t.pageCount ≤ t.pageCount + pageTotal ts + k := by omega
    have hrest : t.pageCount + pageTotal ts + k - t.pageCount = pageTotal ts + k := by omega
    show finished (t.pageCount + pageTotal ts + k) (t :: (ts ++ rest)) = t :: ts
    rw [finished, if_pos hle, hrest, ih]

theorem length_flatMap_stream {ts : List Transfer} (h : ∀ t ∈ ts, t.Paged) (pageSize : UInt64) :
    (ts.flatMap (·.stream pageSize)).length = pageTotal ts := by
  induction ts with
  | nil => rfl
  | cons t rest ih =>
    have hrest := ih fun u hu => h u (List.mem_cons_of_mem _ hu)
    rw [List.flatMap_cons, List.length_append, hrest,
      length_stream (h t (List.mem_cons_self ..))]
    rfl

/-- Among the accepted transfers, those that were finished after the destination FIFO was last read
empty. -/
def finishedSince (accepted : List Transfer) (events : List Event) : List Transfer :=
  (finished (Event.descriptors events) accepted).drop
    (finished (Event.descriptors (Event.untilEmpty events)) accepted).length

theorem pageTotal_map_fresh (ts : List Transfer) : pageTotal (ts.map fresh) = pageTotal ts := by
  induction ts with
  | nil => rfl
  | cons t rest ih => exact congrArg (t.pageCount + ·) ih

end Transfer

open Transfer (finished finishedSince pageTotal)

/-! ## Records in which every release is accounted for -/

namespace Event

/-- The record comes about entry by entry, and what is released at each point is known: where the
depths are read and that of the destination is zero, the transfers finished since, and where a
submission is rolled back, the pages of the two calls right before. -/
inductive Accounted (accepted : List Transfer) : List Event → Prop
  | nil : Accounted accepted []
  | sampled {past : List Event} (depths : Depths) (h : Accounted accepted past) :
      Accounted accepted
        (past ++ depths.reads ++
          if depths.dest = 0 then (finishedSince accepted past).flatMap Transfer.releaseDeeds
          else [])
  | written {past : List Event} (side : Side) (d : Descriptor) (h : Accounted accepted past) :
      Accounted accepted (past ++ [.stored side.lowOffset d.low, .stored side.highOffset d.high])
  | queued {past : List Event} (request : Request) (admitted : Admitted)
      (source dest : List PinnedPage) (h : Accounted accepted past) :
      Accounted accepted (past ++ Engine.pinDeeds request admitted source dest)
  | rolledBack {past : List Event} (request : Request) (admitted : Admitted)
      (source dest : List PinnedPage) (h : Accounted accepted past) :
      Accounted accepted
        (past ++ (Engine.pinDeeds request admitted source dest ++
          (source ++ dest).map (Event.unpinned · false)))

/-- The record tells how many descriptors there were. -/
theorem descriptors_of_halves {events : List Event} {pushed : List (Side × Descriptor)}
    (h : writes events = pushed.flatMap Engine.halves) : descriptors events = pushed.length := by
  rw [descriptors, h]
  clear h
  induction pushed with
  | nil => rfl
  | cons push rest ih =>
    have hone : (Engine.halves push).countP (fun write =>
        write.1 == Side.source.highOffset || write.1 == Side.dest.highOffset) = 1 := by
      obtain ⟨side, d⟩ := push
      cases side <;> rfl
    rw [List.flatMap_cons, List.countP_append, ih, hone, List.length_cons, Nat.add_comm]

end Event

namespace Engine

variable {P R : Type} [Pinner P] [Registers R] {device : (R → R) → Prop}
  {accepted reclaimed later : List Transfer} {start engine : Engine P R} {events : List Event}

/-! ## What the descriptors tell -/

omit [Pinner P] [Registers R] in
/-- The descriptors handed over begin the streams of the accepted transfers. -/
theorem Issued.prefix_streams {pushed : List (Side × Descriptor)}
    (h : Issued reclaimed engine pushed) (hbooks : Books accepted reclaimed engine) :
    pushed.map (fun push => (push.1, Except.ok push.2)) <+:
      accepted.flatMap (·.stream engine.config.pageSize) := by
  rw [hbooks.order, List.map_append, List.flatMap_append, flatMap_stream_fresh, h]
  exact (List.prefix_append_right_inj _).2 (begun_prefix_streams engine.pending)

/-- The transfers that left the queue are those that the descriptors finish, also if more transfers
are accepted later. -/
theorem finished_of_moves (hmoves : Moves device start accepted reclaimed events engine)
    (hconfig : start.config.Sound) (hpending : start.pending = [])
    (hinFlight : start.inFlight = []) (hlater : ∀ t ∈ later, t.Paged) :
    finished (Event.descriptors events) (accepted ++ later) =
      (reclaimed ++ engine.inFlight).map Transfer.fresh := by
  have hbooks := books_of_moves hmoves hconfig hpending hinFlight
  obtain ⟨pushed, hissued, hwrites⟩ := issued_of_moves hmoves hconfig hpending hinFlight
  have hpaged : ∀ t ∈ reclaimed ++ engine.inFlight, t.Paged := fun t ht => (hbooks.gone t ht).1
  have hcount : Event.descriptors events =
      pageTotal ((reclaimed ++ engine.inFlight).map Transfer.fresh) +
        (begun engine.config.pageSize engine.pending).length := by
    have hlength := congrArg List.length hissued
    rw [List.length_map, List.length_append, Transfer.length_flatMap_stream hpaged] at hlength
    rw [Event.descriptors_of_halves hwrites, hlength, Transfer.pageTotal_map_fresh]
  have horder := hbooks.order
  rw [List.map_append] at horder
  rw [hcount, horder, List.append_assoc]
  apply Transfer.finished_append
  -- Of the transfer behind those, some descriptor is still to be written.
  intro t ht
  have hturn := hbooks.turn
  cases hq : engine.pending with
  | nil =>
    rw [hq] at ht
    exact (hlater t (List.mem_of_head? ht)).pageCount_pos
  | cons head rest =>
    rw [hq] at ht hturn
    obtain rfl := Option.some.inj ht
    exact Nat.lt_of_le_of_lt (List.length_take_le ..) hturn.1.written_lt

omit [Pinner P] in
/-- What a service writes is a descriptor, or nothing. -/
theorem Serves.accounted {depths : Depths} {engine' : Engine P R} {pause? : Option Pause}
    {past written : List Event} (hserve : Serves depths engine pause? engine' written)
    (h : Event.Accounted accepted past) : Event.Accounted accepted (past ++ written) := by
  cases hserve with
  | drained | stalled | complete => rwa [List.append_nil]
  | sent => exact h.written _ _

/-- One turn: what is in flight was finished since the destination FIFO was last read empty, and if
it is read empty now, that is what is released. -/
theorem accounted_of_turn {depths : Depths} {registers : R} {mid engine' : Engine P R}
    {pause? : Option Pause} {past freed written : List Event}
    (hnow : finished (Event.descriptors past) accepted =
      (reclaimed ++ engine.inFlight).map Transfer.fresh)
    (hlast : finished (Event.descriptors (Event.untilEmpty past)) accepted =
      reclaimed.map Transfer.fresh)
    (hpast : Event.Accounted accepted past)
    (hreclaim : Reclaims depths { engine with registers } mid freed)
    (hserve : Serves depths mid pause? engine' written) :
    finished (Event.descriptors (Event.untilEmpty
          (past ++ depths.reads ++ (freed ++ written)))) accepted =
        (reclaimed ++ returned depths engine).map Transfer.fresh ∧
      Event.Accounted accepted (past ++ depths.reads ++ (freed ++ written)) := by
  have hsince : finishedSince accepted past = engine.inFlight.map Transfer.fresh := by
    rw [finishedSince, hnow, hlast, List.map_append, List.drop_left]
  have hfreed : freed = (returned depths engine).flatMap Transfer.releaseDeeds :=
    hreclaim.events_eq
  have hbusy : ∀ e ∈ freed ++ written, e.readsEmpty = false := by
    intro e he
    rcases List.mem_append.1 he with he | he
    · rw [hfreed] at he
      exact Event.readsEmpty_of_isRelease (isRelease_of_mem_releaseDeeds e he)
    · obtain ⟨_, _, rfl⟩ := hserve.stored_of_mem e he
      rfl
  have hsampled := hpast.sampled depths
  rw [hsince, flatMap_releaseDeeds_fresh] at hsampled
  by_cases hdrained : depths.dest = 0
  · rw [returned, if_pos hdrained] at hfreed ⊢
    rw [if_pos hdrained, ← hfreed] at hsampled
    rw [Event.untilEmpty_append_reads hdrained hbusy, Event.descriptors_append,
      ← List.append_assoc]
    exact ⟨hnow, hserve.accounted hsampled⟩
  · rw [returned, if_neg hdrained] at hfreed ⊢
    rw [if_neg hdrained, ← List.flatMap_nil (f := Transfer.releaseDeeds), ← hfreed] at hsampled
    rw [Event.untilEmpty_append_busy_reads hdrained hbusy, List.append_nil, ← List.append_assoc]
    exact ⟨hlast, hserve.accounted hsampled⟩

/-- What was reclaimed is what was finished when the destination FIFO was last read empty, and the
whole record is accounted for, also if more transfers are accepted later. -/
theorem accounted_of_moves (hmoves : Moves device start accepted reclaimed events engine)
    (hconfig : start.config.Sound) (hpending : start.pending = [])
    (hinFlight : start.inFlight = []) (hlater : ∀ t ∈ later, t.Paged) :
    finished (Event.descriptors (Event.untilEmpty events)) (accepted ++ later) =
        reclaimed.map Transfer.fresh ∧
      Event.Accounted (accepted ++ later) events := by
  induction hmoves generalizing later with
  | refl =>
    have hnone : finished (pageTotal [] + 0) ([] ++ later) = [] :=
      Transfer.finished_append fun t ht => (hlater t (List.mem_of_head? ht)).pageCount_pos
    exact ⟨hnone, .nil⟩
  | step hmoves hmove ih =>
    cases hmove with
    | turned _ hreclaim hserve =>
      obtain ⟨hlast, hpast⟩ := ih hlater
      have hnow := finished_of_moves hmoves hconfig hpending hinFlight hlater
      have hturn := accounted_of_turn hnow hlast hpast hreclaim hserve
      rw [List.append_assoc] at hturn
      rw [List.append_nil, List.append_assoc]
      exact hturn
    | hardware | rejected =>
      rw [List.append_nil, List.append_nil, List.append_nil]
      exact ih hlater
    | rolledBack =>
      obtain ⟨hlast, hpast⟩ := ih hlater
      rw [List.append_nil, List.append_nil,
        Event.untilEmpty_append_of_no_read ne_loaded_of_mem_rollback]
      exact ⟨hlast, hpast.rolledBack _ _ _ _⟩
    | @queued request admitted source dest _ hadmitted _ hwhole =>
      have hpaged := Transfer.paged_ofAdmitted (hmoves.config_eq ▸ hconfig) hadmitted hwhole
      have hmore : ∀ t ∈ .ofAdmitted request admitted source dest :: later, t.Paged :=
        List.forall_mem_cons.2 ⟨hpaged, hlater⟩
      obtain ⟨hlast, hpast⟩ := ih hmore
      rw [List.append_nil, List.append_assoc,
        Event.untilEmpty_append_of_no_read ne_loaded_of_mem_pinDeeds]
      exact ⟨hlast, hpast.queued _ _ _ _⟩

/-! ## When transfers are reclaimed -/

omit [Registers R] in
/-- A reclaim takes everything out of flight, or nothing. -/
theorem Reclaims.all_or_nothing {depths : Depths} {mid : Engine P R}
    (h : Reclaims depths engine mid events) :
    mid.pending = engine.pending ∧
      (depths.dest = 0 →
        mid.inFlight = [] ∧ events = engine.inFlight.flatMap Transfer.releaseDeeds) ∧
      (depths.dest ≠ 0 → mid = engine ∧ events = []) := by
  cases h with
  | kept hbusy => exact ⟨rfl, fun hdrained => absurd hdrained hbusy, fun _ => ⟨rfl, rfl⟩⟩
  | freed hdrained => exact ⟨rfl, fun _ => ⟨rfl, rfl⟩, fun hbusy => absurd hdrained hbusy⟩

/-- After a history in which every call answered, let `accepted` be the transfers of the accepted
submissions.  The register writes hand over their descriptors one transfer after the other, so the
number of descriptors tells which transfers are finished.  Every release in the record is accounted
for: a reading of an empty destination FIFO is followed by the release of the transfers finished
since the last such reading, oldest first, any other reading by none, and nothing else than a
submission that is rolled back releases pages.  So what was reclaimed was finished at the last such
reading, and what is in flight was finished after it.  Such a reading takes every transfer out of
flight and leaves the queue alone; any other reading leaves the engine alone. -/
theorem reclaimed_of_play {config : Config} {pinner : P} {registers : R} {notes : List Note}
    {start final : Engine P R} {calls : List (Call R)} {log : List (Exchange P R)}
    (hcreate : create config pinner registers = (notes, .ok start))
    (hplay : play calls start = ⟨.ok (), final, log⟩) :
    let accepted := queuedTransfers config log
    let entries := Event.deeds (record log)
    accepted.map Transfer.request = log.filterMap Exchange.accepted? ∧
      (∃ pushed : List (Side × Descriptor),
        Event.writes entries = pushed.flatMap halves ∧
        Event.descriptors entries = pushed.length ∧
        pushed.map (fun push => (push.1, Except.ok push.2)) <+:
          accepted.flatMap (·.stream config.pageSize)) ∧
      Event.Accounted accepted entries ∧
      Event.reclaims entries =
        (finished (Event.descriptors (Event.untilEmpty entries)) accepted).flatMap
          Transfer.releaseDeeds ∧
      final.inFlight.map Transfer.fresh = finishedSince accepted entries ∧
      final.pending.map Transfer.fresh =
        accepted.drop (finished (Event.descriptors entries) accepted).length ∧
      ∀ depths (engine mid : Engine P R) events,
        reclaimIfDrained depths engine = ⟨.ok (), mid, events⟩ →
          mid.pending = engine.pending ∧
            (depths.dest = 0 → mid.inFlight = [] ∧
              Event.deeds events = engine.inFlight.flatMap Transfer.releaseDeeds) ∧
            (depths.dest ≠ 0 → mid = engine ∧ Event.deeds events = []) := by
  obtain ⟨hflaw, -, rfl⟩ := create_eq_ok hcreate
  obtain ⟨⟨reclaimed, hmoves⟩, hrequests⟩ := moves_of_play hplay
  have hsound := Config.sound_of_flaw? hflaw
  have hconfig : final.config = config := hmoves.config_eq
  have hbooks := books_of_moves hmoves hsound rfl rfl
  obtain ⟨pushed, hissued, hwrites⟩ := issued_of_moves hmoves hsound rfl rfl
  have hprefix := hissued.prefix_streams hbooks
  have hnone : ∀ t ∈ ([] : List Transfer), t.Paged := by simp
  have hnow := finished_of_moves hmoves hsound rfl rfl hnone
  obtain ⟨hlast, haccounted⟩ := accounted_of_moves hmoves hsound rfl rfl hnone
  have horder := hbooks.order
  rw [List.map_append] at horder
  rw [List.append_nil] at hnow hlast haccounted
  rw [hconfig] at hprefix
  refine ⟨hrequests, ⟨pushed, hwrites, Event.descriptors_of_halves hwrites, hprefix⟩, haccounted,
    ?_, ?_, ?_, fun depths engine mid events hreclaim => ?_⟩
  · rw [hlast, flatMap_releaseDeeds_fresh, hmoves.reclaims_eq]
  · rw [finishedSince, hnow, hlast, List.map_append, List.drop_left]
  · rw [hnow, horder, List.drop_left]
  · exact (reclaimIfDrained_eq_ok hreclaim).all_or_nothing

/-- The small history has released its first transfer, and its last one is in flight. -/
theorem reclaimed_of_smallHistory :
    let log := (play smallHistory smallEngine).events
    let accepted := queuedTransfers smallEngine.config log
    let entries := Event.deeds (record log)
    accepted.length = 2 ∧ Event.Accounted accepted entries ∧
      finished (Event.descriptors (Event.untilEmpty entries)) accepted = accepted.take 1 ∧
      (play smallHistory smallEngine).state.inFlight.map Transfer.fresh =
        finishedSince accepted entries := by
  obtain ⟨-, -, haccounted, -, hinFlight, -⟩ :=
    reclaimed_of_play create_smallEngine play_smallHistory
  exact ⟨by decide +kernel, haccounted, by decide +kernel, hinFlight⟩

end Engine

end DmaQueue
