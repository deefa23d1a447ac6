/-
  DmaQueue.Proofs.Issue.Streams

  What reaches the registers does not depend on when the FIFOs have room: it is
  always a prefix of the streams of the accepted transfers, one after the
  other.  The depths that are read decide only how long the prefix is.
-/
import DmaQueue.Proofs.Engine.Books
import DmaQueue.Proofs.Register.DescriptorFifos

namespace DmaQueue.Engine

variable {P R : Type}

/-! ## Descriptors and register writes -/

/-- The register writes that hand a descriptor to a side. -/
def halves (push : Side × Descriptor) : List (UInt64 × UInt32) :=
  [(push.1.lowOffset, push.2.low), (push.1.highOffset, push.2.high)]

/-- What is written of the pending transfers: a part of the stream of the first one. -/
def begun (pageSize : UInt64) : List Transfer → List (Side × Except Fault Descriptor)
  | [] => []
  | t :: _ => (t.stream pageSize).take t.written

theorem length_flatMap_halves (pushed : List (Side × Descriptor)) :
    (pushed.flatMap halves).length = 2 * pushed.length := by
  induction pushed with
  | nil => rfl
  | cons push rest ih =>
    rw [List.flatMap_cons, List.length_append, ih]
    show 2 + 2 * rest.length = 2 * (rest.length + 1)
    omega

/-- The register writes tell which descriptors were handed over, and to which sides. -/
theorem flatMap_halves_injective {pushes pushes' : List (Side × Descriptor)}
    (h : pushes.flatMap halves = pushes'.flatMap halves) : pushes = pushes' := by
  induction pushes generalizing pushes' with
  | nil =>
    cases pushes' with
    | nil => rfl
    | cons push rest => simp [halves] at h
  | cons push rest ih =>
    cases pushes' with
    | nil => simp [halves] at h
    | cons push' rest' =>
      obtain ⟨side, d⟩ := push
      obtain ⟨side', d'⟩ := push'
      simp only [List.flatMap_cons, halves, List.cons_append, List.nil_append, List.cons.injEq,
        Prod.mk.injEq] at h
      obtain ⟨⟨hside, hlow⟩, ⟨-, hhigh⟩, hrest⟩ := h
      have hsame : side = side' := by
        revert hside
        cases side <;> cases side' <;> decide
      have hd : d = d' := by
        rw [← Descriptor.ofHalves_low_high d, hlow, hhigh, Descriptor.ofHalves_low_high]
      rw [hsame, hd, ih hrest]

/-- So does a stream whose descriptors could all be packed. -/
theorem map_ok_injective {pushes pushes' : List (Side × Descriptor)}
    (h : pushes.map (fun push => (push.1, (Except.ok push.2 : Except Fault Descriptor))) =
      pushes'.map fun push => (push.1, Except.ok push.2)) : pushes = pushes' := by
  refine (List.map_inj_right ?_).1 h
  intro push push' hpush
  simp only [Prod.mk.injEq, Except.ok.injEq] at hpush
  exact Prod.ext hpush.1 hpush.2

theorem begun_of_sourceHead {pageSize : UInt64} {pending : List Transfer}
    (h : ∀ t ∈ pending, t.Paged ∧ t.progress = .sourceHead) : begun pageSize pending = [] := by
  cases pending with
  | nil => rfl
  | cons t rest =>
    obtain ⟨-, hprogress⟩ := h t (List.mem_cons_self ..)
    rw [begun, Transfer.written_of_sourceHead hprogress, List.take_zero]

theorem begun_append_fresh {pageSize : UInt64} {pending : List Transfer} {t : Transfer}
    (hpaged : t.Paged) (hprogress : t.progress = .sourceHead) :
    begun pageSize (pending ++ [t]) = begun pageSize pending := by
  cases pending with
  | nil => exact begun_of_sourceHead (by simp [hpaged, hprogress])
  | cons head rest => rfl

theorem begun_prefix_streams {pageSize : UInt64} (pending : List Transfer) :
    begun pageSize pending <+: (pending.map Transfer.fresh).flatMap (·.stream pageSize) := by
  cases pending with
  | nil => exact List.prefix_refl _
  | cons t rest => exact (List.take_prefix ..).trans (List.prefix_append ..)

/-- The pushed descriptors are the streams of the transfers that left the queue, and what is begun
of those in it. -/
def Issued (reclaimed : List Transfer) (engine : Engine P R) (pushed : List (Side × Descriptor)) :
    Prop :=
  pushed.map (fun push => (push.1, Except.ok push.2)) =
    (reclaimed ++ engine.inFlight).flatMap (·.stream engine.config.pageSize) ++
      begun engine.config.pageSize engine.pending

variable {accepted reclaimed : List Transfer} {engine engine' : Engine P R} {depths : Depths}
  {pushed : List (Side × Descriptor)} {events : List Event}

/-- What is pushed to a side is what the transfers have written of it. -/
theorem Issued.part (h : Issued reclaimed engine pushed) (hbooks : Books accepted reclaimed engine)
    (side : Side) : (side.part pushed).map Except.ok =
      (reclaimed ++ engine.inFlight ++ engine.pending).flatMap
        (·.issued engine.config.pageSize side) := by
  generalize hsize : engine.config.pageSize = pageSize
  have hsent : ∀ t ∈ reclaimed ++ engine.inFlight,
      side.part (t.stream pageSize) = t.issued pageSize side := by
    intro t ht
    obtain ⟨hpaged, hprogress⟩ := hbooks.gone t ht
    rw [← Transfer.part_take_written hpaged (.inr hprogress),
      Transfer.take_written_of_sent hpaged hprogress]
  have hbegun : side.part (begun pageSize engine.pending) =
      engine.pending.flatMap (·.issued pageSize side) := by
    have hturn := hbooks.turn
    cases hq : engine.pending with
    | nil => rfl
    | cons t rest =>
      rw [hq] at hturn
      have hrest : rest.flatMap (·.issued pageSize side) = [] := by
        rw [List.flatMap_eq_nil_iff]
        exact fun u hu => Transfer.issued_of_sourceHead (hturn.2 u hu).2 pageSize side
      rw [begun, List.flatMap_cons, hrest, List.append_nil]
      exact Transfer.part_take_written hturn.1.toPaged (.inl hturn.1.progress) pageSize side
  have hleft : (reclaimed ++ engine.inFlight).flatMap (fun t => side.part (t.stream pageSize)) =
      (reclaimed ++ engine.inFlight).flatMap (·.issued pageSize side) := by
    rw [List.flatMap_def, List.flatMap_def, List.map_congr_left hsent]
  have hmap := congrArg side.part h
  rw [hsize, Side.part_append, Side.part_flatMap, hbegun, hleft] at hmap
  rw [List.flatMap_append, ← hmap]
  exact (Side.part_map side pushed fun _ d => Except.ok d).symm

/-! ## Every move keeps to the streams -/

theorem flatMap_stream_fresh (ts : List Transfer) (pageSize : UInt64) :
    (ts.map Transfer.fresh).flatMap (·.stream pageSize) = ts.flatMap (·.stream pageSize) := by
  rw [List.flatMap_map]
  rfl

theorem Issued.reclaims [Pinner P] (h : Issued reclaimed engine pushed)
    (hreclaim : Reclaims depths engine engine' events) :
    Issued (reclaimed ++ returned depths engine) engine' pushed := by
  unfold Issued at h ⊢
  cases hreclaim with
  | kept hbusy =>
    rw [returned, if_neg hbusy, List.append_nil]
    exact h
  | freed hdrained =>
    rw [returned, if_pos hdrained, h, List.append_nil]

/-- A service writes the next descriptor of the head's stream, or nothing. -/
theorem Issued.serves [Registers R] (h : Issued reclaimed engine pushed)
    (hbooks : Books accepted reclaimed engine) {pause? : Option Pause}
    (hserve : Serves depths engine pause? engine' events) :
    ∃ more, Issued reclaimed engine' (pushed ++ more) ∧
      Event.writes events = more.flatMap halves := by
  unfold Issued at h ⊢
  cases hserve with
  | drained | stalled => exact ⟨[], by simpa using h, rfl⟩
  | @sent t rest side index d registers written hq htarget hroom hd =>
    have hturn := hbooks.turn
    rw [hq] at hturn h
    refine ⟨[(side, d)], ?_, rfl⟩
    -- The descriptor that goes out is the next one of the stream of the head.
    have hnext := hturn.1.take_written_succ htarget engine.config.pageSize
    rw [hd, ← hturn.1.written_advance] at hnext
    have hgrown : (pushed ++ [(side, d)]).map (fun push => (push.1, Except.ok push.2)) =
        (reclaimed ++ engine.inFlight).flatMap (·.stream engine.config.pageSize) ++
          (t.advance.stream engine.config.pageSize).take t.advance.written := by
      rw [List.map_append, h, begun, List.append_assoc]
      exact congrArg _ hnext.symm
    rw [hgrown]
    unfold headWritten
    split
    · rename_i hsent
      have hprogress : t.advance.progress = .sent := Progress.isSent_eq_true_iff.1 hsent
      -- The head leaves the queue with its stream written to the end.
      have hpaged : t.advance.Paged := ⟨hturn.1.source, hturn.1.dest⟩
      rw [Transfer.take_written_of_sent hpaged hprogress]
      simp only [begun_of_sourceHead hturn.2, List.flatMap_append, List.flatMap_singleton,
        List.append_nil, List.append_assoc]
    · rfl
  | complete hq htarget => exact absurd htarget (hbooks.turn.target?_ne_none hq)

/-- Nothing is written while transfers are reclaimed. -/
theorem Reclaims.writes_eq [Pinner P] (h : Reclaims depths engine engine' events) :
    Event.writes events = [] :=
  h.filterMap_eq_nil fun _ _ => rfl

/-- Every move issues what it writes. -/
theorem Issued.move [Pinner P] [Registers R] {device : (R → R) → Prop}
    {queued freed : List Transfer} (h : Issued reclaimed engine pushed)
    (hbooks : Books accepted reclaimed engine)
    (hconfig : engine.config.Sound) (hmove : Move device engine queued freed events engine') :
    ∃ more, Issued (reclaimed ++ freed) engine' (pushed ++ more) ∧
      Event.writes events = more.flatMap halves := by
  cases hmove with
  | turned _ hreclaim hserve =>
    rename_i depths registers _ _ _ _ _
    have hread : Books accepted reclaimed { engine with registers } := hbooks.of_queues_eq rfl rfl
    have hissued : Issued reclaimed { engine with registers } pushed := h
    obtain ⟨more, hgrown, hmore⟩ :=
      (hissued.reclaims hreclaim).serves (hread.reclaims hreclaim) hserve
    refine ⟨more, hgrown, ?_⟩
    rw [Event.writes_append, Event.writes_append, hreclaim.writes_eq, hmore]
    rfl
  | hardware | rejected =>
    rw [List.append_nil]
    exact ⟨[], by rw [List.append_nil]; exact h, rfl⟩
  | rolledBack =>
    rw [List.append_nil]
    refine ⟨[], by rw [List.append_nil]; exact h, ?_⟩
    rw [Event.writes_append, Event.writes_unpinned]
    rfl
  | queued hadmitted _ hwhole =>
    have hpaged := Transfer.paged_ofAdmitted hconfig hadmitted hwhole
    refine ⟨[], ?_, rfl⟩
    unfold Issued at h ⊢
    rw [List.append_nil, List.append_nil, h, begun_append_fresh hpaged rfl]

variable [Pinner P] [Registers R]

/-- Any moves issue what they write. -/
theorem Issued.moves {device : (R → R) → Prop} {start : Engine P R} {queued freed : List Transfer}
    (h : Issued reclaimed start pushed) (hbooks : Books accepted reclaimed start)
    (hconfig : start.config.Sound) (hmoves : Moves device start queued freed events engine) :
    ∃ more, Issued (reclaimed ++ freed) engine (pushed ++ more) ∧
      Event.writes events = more.flatMap halves := by
  induction hmoves with
  | refl =>
    refine ⟨[], ?_, rfl⟩
    rw [List.append_nil, List.append_nil]
    exact h
  | step hmoves hmove ih =>
    obtain ⟨more, hissued, hwrites⟩ := ih
    obtain ⟨last, hgrown, hlast⟩ :=
      hissued.move (hbooks.moves hconfig hmoves) (hmoves.config_eq ▸ hconfig) hmove
    refine ⟨more ++ last, ?_, ?_⟩
    · rw [← List.append_assoc, ← List.append_assoc]
      exact hgrown
    · rw [Event.writes_append, hwrites, hlast, List.flatMap_append]

/-- After any moves from an engine with nothing queued, the register writes are those of the
descriptors issued. -/
theorem issued_of_moves {device : (R → R) → Prop} {start : Engine P R}
    (hmoves : Moves device start accepted reclaimed events engine) (hconfig : start.config.Sound)
    (hpending : start.pending = []) (hinFlight : start.inFlight = []) :
    ∃ pushed, Issued reclaimed engine pushed ∧ Event.writes events = pushed.flatMap halves := by
  have hstart : Issued [] start [] := by
    unfold Issued
    rw [hpending, hinFlight]
    rfl
  exact hstart.moves (Books.of_new hpending hinFlight) hconfig hmoves

/-! ## What reaches the registers -/

/-- Let `accepted` be the transfers of the accepted submissions, in order.  Those that left the
queue are a first part of them, `done`, and those pending are the rest.  The register writes are
then those of descriptors that run through the streams of `done` and through the written part of the
stream of the oldest pending transfer, which is never all of it.  So they are a prefix of the
streams of `accepted`, and all of them if nothing is pending. -/
theorem pushed_prefix_of_play {config : Config} {pinner : P} {registers : R} {notes : List Note}
    {start final : Engine P R} {calls : List (Call R)} {log : List (Exchange P R)}
    (hcreate : create config pinner registers = (notes, .ok start))
    (hplay : play calls start = ⟨.ok (), final, log⟩) :
    let accepted := queuedTransfers config log
    accepted.map Transfer.request = log.filterMap Exchange.accepted? ∧
      ∃ (done : List Transfer) (pushed : List (Side × Descriptor)),
        accepted = done ++ final.pending.map Transfer.fresh ∧
        Event.writes (record log) = pushed.flatMap halves ∧
        pushed.map (fun push => (push.1, Except.ok push.2)) =
          done.flatMap (·.stream config.pageSize) ++ begun config.pageSize final.pending ∧
        pushed.map (fun push => (push.1, Except.ok push.2)) <+:
          accepted.flatMap (·.stream config.pageSize) ∧
        (final.pending = [] → pushed.map (fun push => (push.1, Except.ok push.2)) =
          accepted.flatMap (·.stream config.pageSize)) ∧
        (∀ head ∈ final.pending.head?, head.written < (head.stream config.pageSize).length) := by
  obtain ⟨hflaw, -, rfl⟩ := create_eq_ok hcreate
  obtain ⟨⟨reclaimed, hmoves⟩, hrequests⟩ := moves_of_play hplay
  have hsound := Config.sound_of_flaw? hflaw
  have hbooks := books_of_moves hmoves hsound rfl rfl
  obtain ⟨pushed, hissued, hwrites⟩ := issued_of_moves hmoves hsound rfl rfl
  have hconfig : final.config = config := hmoves.config_eq
  unfold Issued at hissued
  rw [hconfig] at hissued
  have hdone := flatMap_stream_fresh (reclaimed ++ final.inFlight) config.pageSize
  have horder := hbooks.order
  rw [List.map_append] at horder
  refine ⟨hrequests, _, pushed, horder, ?_, ?_, ?_, ?_, ?_⟩
  · rw [← Event.writes_deeds, hwrites]
  · rw [hdone, hissued]
  · rw [horder, List.flatMap_append, hdone, hissued]
    exact List.prefix_append_right_inj _ |>.2 (begun_prefix_streams final.pending)
  · intro hempty
    rw [hissued, ← hdone, horder, hempty, List.map_nil, List.append_nil]
    exact List.append_nil _
  · intro head hhead
    have hturn := hbooks.turn
    cases hq : final.pending with
    | nil => simp [hq] at hhead
    | cons t rest =>
      rw [hq] at hturn hhead
      obtain rfl := Option.mem_some.1 hhead
      rw [Transfer.length_stream hturn.1.toPaged]
      exact hturn.1.written_lt

/-- In the small history both transfers are written out, in eleven descriptors, and only the last of
them is still in flight.  After the first submission of it the register writes end inside the stream
of the first transfer, with three descriptors of seven. -/
theorem pushed_prefix_of_smallHistory :
    let final := (play smallHistory smallEngine).state
    let log := (play smallHistory smallEngine).events
    let early := (play (smallHistory.take 1) smallEngine).events
    (queuedTransfers smallEngine.config log).length = 2 ∧ final.pending = [] ∧
      final.inFlight.length = 1 ∧
      (∃ pushed : List (Side × Descriptor), pushed.length = 11 ∧
        Event.writes (record log) = pushed.flatMap halves ∧
        pushed.map (fun push => (push.1, Except.ok push.2)) =
          (queuedTransfers smallEngine.config log).flatMap
            (·.stream smallEngine.config.pageSize)) ∧
      ∃ pushed : List (Side × Descriptor), pushed.length = 3 ∧
        Event.writes (record early) = pushed.flatMap halves ∧
        pushed.map (fun push => (push.1, Except.ok push.2)) <+:
          (queuedTransfers smallEngine.config early).flatMap
            (·.stream smallEngine.config.pageSize) := by
  intro final log early
  have hpending : final.pending = [] := by decide +kernel
  have hwritten : (Event.writes (record log)).length = 22 := by decide +kernel
  have hcut : (Event.writes (record early)).length = 6 := by decide +kernel
  have hearly : play (smallHistory.take 1) smallEngine =
      ⟨.ok (), (play (smallHistory.take 1) smallEngine).state, early⟩ :=
    Outcome.eq_of_isOk (by decide +kernel)
  obtain ⟨-, _, pushed, -, hwrites, -, -, hall, -⟩ :=
    pushed_prefix_of_play create_smallEngine play_smallHistory
  obtain ⟨-, _, cut, -, hcutWrites, -, hprefix, -⟩ :=
    pushed_prefix_of_play create_smallEngine hearly
  rw [hwrites, length_flatMap_halves] at hwritten
  rw [hcutWrites, length_flatMap_halves] at hcut
  exact ⟨by decide +kernel, hpending, by decide +kernel, ⟨pushed, by omega, hwrites, hall hpending⟩,
    cut, by omega, hcutWrites, hprefix⟩

end DmaQueue.Engine
