/-
  DmaQueue.Proofs.Account.Counters

  The counters of an engine, as long as none of them has reached the largest
  word: together they account for every submission, every accepted transfer,
  every register write, every page given back, and every call that left
  something pending.
-/
import DmaQueue.Proofs.Account.Calls

namespace DmaQueue

open Tally (Counter)
open Transfer (pageTotal)

/-! ## Descriptors by side -/

/-- What a list has for the two sides is all that it has. -/
theorem Side.length_part_add {α : Type} (entries : List (Side × α)) :
    (Side.source.part entries).length + (Side.dest.part entries).length = entries.length := by
  induction entries with
  | nil => rfl
  | cons entry rest ih =>
    obtain ⟨side, a⟩ := entry
    rw [← List.singleton_append, part_append, part_append, part_singleton, part_singleton,
      List.length_append, List.length_append, List.length_append]
    cases side with
    | source =>
      show 1 + _ + (0 + _) = 1 + rest.length
      omega
    | dest =>
      show 0 + _ + (1 + _) = 1 + rest.length
      omega

namespace Transfer

/-- How many descriptors of a side are written of some transfers. -/
def cursorTotal (side : Side) : List Transfer → Nat
  | [] => 0
  | t :: rest => t.cursor side + cursorTotal side rest

theorem length_flatMap_issued (ts : List Transfer) (pageSize : UInt64) (side : Side) :
    (ts.flatMap (·.issued pageSize side)).length = cursorTotal side ts := by
  induction ts with
  | nil => rfl
  | cons t rest ih =>
    rw [List.flatMap_cons, List.length_append, ih, issued, List.length_map, List.length_range]
    rfl

theorem cursor_of_sent {t : Transfer} (h : t.progress = .sent) (side : Side) :
    t.cursor side = (t.range side).pageCount := by
  cases side with
  | source => rw [cursor, h]; rfl
  | dest => rw [cursor, h]; rfl

end Transfer

open Transfer (cursorTotal)

/-- The record tells how many descriptors went to a side. -/
theorem Event.descriptorsTo_of_halves {events : List Event} {pushed : List (Side × Descriptor)}
    (h : writes events = pushed.flatMap Engine.halves) (side : Side) :
    descriptorsTo side events = (side.part pushed).length := by
  rw [descriptorsTo, h]
  clear h
  induction pushed with
  | nil => rfl
  | cons push rest ih =>
    have hone : (Engine.halves push).countP (·.1 == side.highOffset) =
        (side.part [push]).length := by
      obtain ⟨other, d⟩ := push
      cases side <;> cases other <;> rfl
    rw [List.flatMap_cons, List.countP_append, ih, hone, ← List.length_append,
      ← Side.part_append, List.singleton_append]

namespace Engine

variable {P R : Type}

/-- Every submission that answers is accepted, rejected or rolled back. -/
theorem length_requests {config : Config} {log : List (Exchange P R)} {freed : List (List Transfer)}
    (h : List.Forall₂ (Exchange.Settles config) log freed) :
    (log.filterMap (·.call.request?)).length =
      log.countP (·.accepted?.isSome) + log.countP (·.rejected) + log.countP (·.rolledBack) := by
  induction h with
  | nil => rfl
  | @cons x _ log _ hx _ ih =>
    have hone : x.call.request?.toList.length = (if x.accepted?.isSome then 1 else 0) +
        (if x.rejected then 1 else 0) + if x.rolledBack then 1 else 0 := by
      cases hx <;> rfl
    have hcons : ((x :: log).filterMap (·.call.request?)).length =
        x.call.request?.toList.length + (log.filterMap (·.call.request?)).length := by
      rw [List.filterMap_cons]
      cases x.call.request? with
      | none => exact (Nat.zero_add _).symm
      | some request => exact Nat.add_comm _ 1
    rw [hcons, List.countP_cons, List.countP_cons, List.countP_cons, ih, hone]
    omega

/-- What was handed to a side is what the transfers have written of it. -/
theorem Issued.length_part {accepted reclaimed : List Transfer} {engine : Engine P R}
    {pushed : List (Side × Descriptor)} (h : Issued reclaimed engine pushed)
    (hbooks : Books accepted reclaimed engine) (side : Side) :
    (side.part pushed).length =
      cursorTotal side (reclaimed ++ engine.inFlight ++ engine.pending) := by
  have hlength := congrArg List.length (h.part hbooks side)
  rwa [List.length_map, Transfer.length_flatMap_issued] at hlength

variable [Pinner P] [Registers R]

/-- After a history in which every call answered, a counter shows what was counted, as long as no
counter has reached the largest word. -/
theorem counted_of_play {config : Config} {pinner : P} {registers : R} {notes : List Note}
    {start final : Engine P R} {calls : List (Call R)} {log : List (Exchange P R)}
    (hcreate : create config pinner registers = (notes, .ok start))
    (hplay : play calls start = ⟨.ok (), final, log⟩) (hbelow : final.tally.Unsaturated) :
    ∃ freed : List (List Transfer),
      Moves (fun _ => True) start (queuedTransfers config log) freed.flatten
        (Event.deeds (record log)) final ∧
      List.Forall₂ (Exchange.Settles config) log freed ∧
      ∀ c, (final.tally.counter c).toNat = counts log freed.flatten c := by
  obtain ⟨-, -, rfl⟩ := create_eq_ok hcreate
  obtain ⟨freed, hmoves, hsettles, htally⟩ := settled_of_history hplay
  refine ⟨freed, hmoves, hsettles, fun c => ?_⟩
  rw [htally] at hbelow ⊢
  rw [hbelow.toNat_counter c, Tally.counter_new]
  exact Nat.zero_add _

/-- As long as the stalls can still be counted, a call counts one exactly if it ran the loop and
left something pending. -/
theorem stalls_of_act {engine next : Engine P R} {call : Call R} {answer : Answer}
    {events : List Event} (hact : call.act engine = ⟨.ok answer, next, events⟩)
    (hbelow : engine.tally.Unsaturated) :
    next.tally.stalls.toNat = engine.tally.stalls.toNat +
      if (⟨call, ⟨.ok answer, next, events⟩⟩ : Exchange P R).stalled then 1 else 0 := by
  obtain ⟨freed, -, -, htally⟩ := settled_of_act hact
  have hstalls := congrArg (Tally.counter · .stalls) htally
  have hroom : engine.tally.stalls.toNat < UInt64.size - 1 := hbelow .stalls
  simp only [Tally.counter_plus] at hstalls
  show (next.tally.counter .stalls).toNat = (engine.tally.counter .stalls).toNat + _
  rw [hstalls, Word.toNat_saturatingAdd, counts, List.countP_singleton]
  show min (engine.tally.stalls.toNat + _) _ = engine.tally.stalls.toNat + _
  split <;> omega

/-- After a history in which every call answered, as long as no counter has reached the largest
word: every submission was counted as accepted, rejected or rolled back; every accepted transfer is
pending, in flight, or counted as reclaimed.  The descriptors counted for a side are those handed to
it, which are as many as the transfers have written of it, and a reclaimed one has written them all;
each descriptor is two register writes.  The pages counted are those of the reclaimed transfers.  A
stall was counted for every call that ran the loop and left something pending, and the next call
does the same. -/
theorem counters_of_play {config : Config} {pinner : P} {registers : R} {notes : List Note}
    {start final : Engine P R} {calls : List (Call R)} {log : List (Exchange P R)}
    (hcreate : create config pinner registers = (notes, .ok start))
    (hplay : play calls start = ⟨.ok (), final, log⟩) (hbelow : final.tally.Unsaturated) :
    let count := fun c => (final.tally.counter c).toNat
    let accepted := queuedTransfers config log
    (calls.filterMap Call.request?).length = count .submitted + count .rejected + count .rollbacks ∧
      accepted.map Transfer.request = log.filterMap Exchange.accepted? ∧
      (∃ (reclaimed : List Transfer) (pushed : List (Side × Descriptor)),
        accepted = (reclaimed ++ final.inFlight ++ final.pending).map Transfer.fresh ∧
        Event.reclaims (Event.deeds (record log)) = reclaimed.flatMap Transfer.releaseDeeds ∧
        count .submitted = accepted.length ∧
        count .submitted =
          final.pending.length + final.inFlight.length + count .reclaimedTransfers ∧
        Event.writes (record log) = pushed.flatMap halves ∧
        (∀ side, count (.descriptors side) = (side.part pushed).length ∧
          count (.descriptors side) =
            cursorTotal side (reclaimed ++ final.inFlight ++ final.pending)) ∧
        (∀ t ∈ reclaimed, ∀ side, t.cursor side = (t.range side).pageCount) ∧
        (∀ total, final.tally.descriptors = .ok total ↔
          (Event.writes (record log)).length = 2 * total.toNat) ∧
        count .reclaimedTransfers = reclaimed.length ∧
        count .reclaimedPages = pageTotal reclaimed) ∧
      count .stalls = log.countP (·.stalled) ∧
      ∀ (call : Call R) answer (next : Engine P R) events,
        call.act final = ⟨.ok answer, next, events⟩ →
        next.tally.stalls.toNat = count .stalls +
          if (⟨call, ⟨.ok answer, next, events⟩⟩ : Exchange P R).stalled then 1 else 0 := by
  obtain ⟨freed, hmoves, hsettles, hcount⟩ := counted_of_play hcreate hplay hbelow
  obtain ⟨hflaw, -, rfl⟩ := create_eq_ok hcreate
  obtain ⟨-, hrequests⟩ := moves_of_play hplay
  have hsound := Config.sound_of_flaw? hflaw
  have hbooks := books_of_moves hmoves hsound rfl rfl
  obtain ⟨pushed, hissued, hwrites⟩ := issued_of_moves hmoves hsound rfl rfl
  rw [Event.writes_deeds] at hwrites
  have hdescriptors : ∀ side, (final.tally.counter (.descriptors side)).toNat =
      (side.part pushed).length := by
    intro side
    rw [hcount]
    exact Event.descriptorsTo_of_halves hwrites side
  have haccepted :
      (final.tally.counter .submitted).toNat = (queuedTransfers config log).length := by
    have hlength := congrArg List.length hrequests
    rw [List.length_map, List.length_filterMap_eq_countP] at hlength
    rw [hcount]
    exact hlength.symm
  refine ⟨?_, hrequests, ⟨freed.flatten, pushed, hbooks.order, hmoves.reclaims_eq, haccepted, ?_,
    hwrites, fun side =>
      ⟨hdescriptors side, (hdescriptors side).trans (hissued.length_part hbooks side)⟩,
    ?_, ?_, hcount .reclaimedTransfers, hcount .reclaimedPages⟩, hcount .stalls, ?_⟩
  · show _ = (final.tally.counter .submitted).toNat + (final.tally.counter .rejected).toNat +
      (final.tally.counter .rollbacks).toNat
    rw [← calls_eq_of_play hplay, List.filterMap_map, hcount, hcount, hcount]
    exact length_requests hsettles
  · have hlength := congrArg List.length hbooks.order
    rw [List.length_map, List.length_append, List.length_append] at hlength
    show (final.tally.counter .submitted).toNat =
      _ + (final.tally.counter .reclaimedTransfers).toNat
    rw [haccepted, hlength, hcount .reclaimedTransfers]
    show _ = final.pending.length + final.inFlight.length + freed.flatten.length
    omega
  · exact fun t ht side => Transfer.cursor_of_sent (hbooks.left t ht).2 side
  · intro total
    have hsource : final.tally.sourceDescriptors.toNat = _ := hdescriptors .source
    have hdest : final.tally.destDescriptors.toNat = _ := hdescriptors .dest
    have hboth := Side.length_part_add pushed
    rw [Tally.descriptors, Word.checkedAdd_eq_ok_iff, hwrites, length_flatMap_halves, hsource,
      hdest]
    omega
  · exact fun call answer next events hact => stalls_of_act hact hbelow

/-- The counters of the small history account for its four submissions and for eleven
descriptors. -/
theorem counters_of_smallHistory :
    let final := (play smallHistory smallEngine).state
    final.tally.Unsaturated ∧
      (smallHistory.filterMap Call.request?).length = 4 ∧
      (final.tally.counter .submitted).toNat + (final.tally.counter .rejected).toNat +
        (final.tally.counter .rollbacks).toNat = 4 ∧
      (final.tally.counter .submitted).toNat = final.pending.length + final.inFlight.length +
        (final.tally.counter .reclaimedTransfers).toNat ∧
      final.tally.descriptors = .ok 11 ∧
      (Event.writes (record (play smallHistory smallEngine).events)).length = 2 * 11 := by
  have htally : (play smallHistory smallEngine).state.tally =
      { submitted := 2, rejected := 1, rollbacks := 1, sourceDescriptors := 5,
        destDescriptors := 6, stalls := 2, reclaimedTransfers := 1, reclaimedPages := 7 } := by
    decide +kernel
  have hbelow : (play smallHistory smallEngine).state.tally.Unsaturated := by
    intro c
    rw [htally]
    cases c with
    | descriptors side => cases side <;> decide
    | submitted | rejected | rollbacks | stalls | reclaimedTransfers | reclaimedPages => decide
  have htotal : (play smallHistory smallEngine).state.tally.descriptors = .ok 11 := by
    rw [htally]
    rfl
  obtain ⟨hsubmissions, -, ⟨_, _, -, -, -, hsubmitted, -, -, -, hwrites, -⟩, -⟩ :=
    counters_of_play create_smallEngine play_smallHistory hbelow
  exact ⟨hbelow, rfl, hsubmissions.symm, hsubmitted, htotal, (hwrites 11).1 htotal⟩

end Engine

end DmaQueue
