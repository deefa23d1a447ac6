/-
  DmaQueue.Proofs.Engine.Books

  The two queues of an engine, in terms of the transfers that it ever queued:
  those are the ones already reclaimed, then those in flight, then those
  pending, in order of submission.  Transfers that have left the queue are sent;
  the oldest pending one is under way; the others have not begun.

  `Books.reclaims`, `Books.serves` and `Books.queued` say that the moves keep
  this so.
-/
import DmaQueue.Proofs.Engine.History
import DmaQueue.Proofs.Request.Admission
import DmaQueue.Proofs.Transfer.Order

namespace DmaQueue

namespace Transfer

/-- The transfers are in turn: only the first may have begun, and none is complete. -/
def InTurn : List Transfer → Prop
  | [] => True
  | t :: rest => t.UnderWay ∧ ∀ u ∈ rest, u.Paged ∧ u.progress = .sourceHead

theorem UnderWay.of_sourceHead {t : Transfer} (hpaged : t.Paged) (h : t.progress = .sourceHead) :
    t.UnderWay := by
  refine ⟨hpaged, ?_⟩
  rw [h]
  trivial

theorem InTurn.tail {t : Transfer} {rest : List Transfer} (h : InTurn (t :: rest)) :
    InTurn rest := by
  cases rest with
  | nil => trivial
  | cons u rest =>
    obtain ⟨hpaged, hprogress⟩ := h.2 u (List.mem_cons_self ..)
    exact ⟨.of_sourceHead hpaged hprogress, fun v hv => h.2 v (List.mem_cons_of_mem _ hv)⟩

/-- The first one is under way. -/
theorem InTurn.head {pending : List Transfer} (h : InTurn pending) :
    ∀ t ∈ pending.head?, t.UnderWay := by
  intro t ht
  obtain ⟨rest, rfl⟩ := List.head?_eq_some_iff.1 ht
  exact h.1

/-- The first one is not complete. -/
theorem InTurn.target?_ne_none {pending : List Transfer} {t : Transfer} {rest : List Transfer}
    (h : InTurn pending) (hq : pending = t :: rest) : t.progress.target? ≠ none :=
  (h.head t (by rw [hq]; rfl)).target?_ne_none

theorem InTurn.append_fresh {pending : List Transfer} {t : Transfer} (h : InTurn pending)
    (hpaged : t.Paged) (hprogress : t.progress = .sourceHead) : InTurn (pending ++ [t]) := by
  cases pending with
  | nil => exact ⟨.of_sourceHead hpaged hprogress, by simp⟩
  | cons head rest =>
    refine ⟨h.1, fun u hu => ?_⟩
    rcases List.mem_append.1 hu with hu | hu
    · exact h.2 u hu
    · rw [List.mem_singleton.1 hu]
      exact ⟨hpaged, hprogress⟩

/-- The pages of an admitted request are there if they came back whole. -/
theorem paged_ofAdmitted {request : Request} {config : Config} {admitted : Admitted}
    {source dest : List PinnedPage} (hconfig : config.Sound)
    (hadmitted : request.admission config = .ok (.ok admitted))
    (hwhole : Engine.Whole admitted source dest) :
    (ofAdmitted request admitted source dest).Paged := by
  have hadmits := Request.admits_of_admission hconfig hadmitted
  constructor
  case source =>
    show 1 ≤ source.length
    rw [hwhole.1]
    exact (hadmits.source_spans hconfig).pages_pos
  case dest =>
    show 1 ≤ dest.length
    rw [hwhole.2]
    exact (hadmits.dest_spans hconfig).pages_pos

end Transfer

namespace Engine

variable {P R : Type}

/-- The queues of the engine hold what is left of the `accepted` transfers after those
`reclaimed`. -/
structure Books (accepted reclaimed : List Transfer) (engine : Engine P R) : Prop where
  order : accepted = (reclaimed ++ engine.inFlight ++ engine.pending).map Transfer.fresh
  left : ∀ t ∈ reclaimed, t.Paged ∧ t.progress = .sent
  sent : ∀ t ∈ engine.inFlight, t.Paged ∧ t.progress = .sent
  turn : Transfer.InTurn engine.pending

variable {accepted reclaimed : List Transfer} {engine engine' : Engine P R} {depths : Depths}
  {events : List Event}

theorem Books.of_new (hpending : engine.pending = []) (hinFlight : engine.inFlight = []) :
    Books [] [] engine := by
  constructor
  case order => rw [hpending, hinFlight]; rfl
  case left => simp
  case sent => simp [hinFlight]
  case turn => rw [hpending]; trivial

/-- What has left the queue is written to the end. -/
theorem Books.gone (h : Books accepted reclaimed engine) :
    ∀ t ∈ reclaimed ++ engine.inFlight, t.Paged ∧ t.progress = .sent := by
  intro t ht
  rcases List.mem_append.1 ht with ht | ht
  · exact h.left t ht
  · exact h.sent t ht

/-- Only the queues matter, so engines of other kinds keep the same books. -/
theorem Books.of_queues_eq {P' R' : Type} {other : Engine P' R'}
    (h : Books accepted reclaimed engine) (hpending : other.pending = engine.pending)
    (hinFlight : other.inFlight = engine.inFlight) : Books accepted reclaimed other := by
  constructor
  case order => rw [hpending, hinFlight, h.order]
  case left => exact h.left
  case sent => rw [hinFlight]; exact h.sent
  case turn => rw [hpending]; exact h.turn

theorem Books.reclaims [Pinner P] (h : Books accepted reclaimed engine)
    (hreclaim : Reclaims depths engine engine' events) :
    Books accepted (reclaimed ++ returned depths engine) engine' := by
  cases hreclaim with
  | kept hbusy =>
    rw [returned, if_neg hbusy, List.append_nil]
    exact h
  | freed hdrained =>
    rw [returned, if_pos hdrained]
    exact ⟨by rw [h.order, List.append_nil], h.gone, by simp, h.turn⟩

theorem Books.serves [Registers R] {pause? : Option Pause} (h : Books accepted reclaimed engine)
    (hserve : Serves depths engine pause? engine' events) : Books accepted reclaimed engine' := by
  cases hserve with
  | drained => exact h
  | stalled => exact ⟨h.order, h.left, h.sent, h.turn⟩
  | @sent t rest side index d registers events hq =>
    have hturn := h.turn
    rw [hq] at hturn
    have horder := h.order
    rw [hq] at horder
    -- The head keeps its place: at the front of the queue, or last in flight.
    have hkept : t.advance.fresh = t.fresh := rfl
    unfold headWritten
    split
    · rename_i hsent
      have hprogress : t.advance.progress = .sent := Progress.isSent_eq_true_iff.1 hsent
      refine ⟨?_, h.left, ?_, hturn.tail⟩
      · simpa [hkept] using horder
      · intro u hu
        rcases List.mem_append.1 hu with hu | hu
        · exact h.sent u hu
        · rw [List.mem_singleton.1 hu]
          exact ⟨⟨hturn.1.source, hturn.1.dest⟩, hprogress⟩
    · rename_i hsent
      refine ⟨by simpa [hkept] using horder, h.left, h.sent, ?_, hturn.2⟩
      rcases hturn.1.advance with hunder | hprogress
      · exact hunder
      · exact absurd (Progress.isSent_eq_true_iff.2 hprogress) hsent
  | complete hq htarget => exact absurd htarget (h.turn.target?_ne_none hq)

/-- Every move keeps the books. -/
theorem Books.move [Pinner P] [Registers R] {device : (R → R) → Prop} {queued freed : List Transfer}
    (h : Books accepted reclaimed engine) (hconfig : engine.config.Sound)
    (hmove : Move device engine queued freed events engine') :
    Books (accepted ++ queued) (reclaimed ++ freed) engine' := by
  cases hmove with
  | turned _ hreclaim hserve =>
    rename_i depths registers _ _ _ _ _
    -- To read the depths changes the registers alone.
    have hread : Books accepted reclaimed { engine with registers } := h.of_queues_eq rfl rfl
    rw [List.append_nil]
    exact (hread.reclaims hreclaim).serves hserve
  | hardware | rejected | rolledBack =>
    rw [List.append_nil, List.append_nil]
    exact h.of_queues_eq rfl rfl
  | queued hadmitted _ hwhole =>
    -- Pages came back for both sides, so there is something to write for the new transfer.
    have hpaged := Transfer.paged_ofAdmitted hconfig hadmitted hwhole
    rw [List.append_nil]
    refine ⟨?_, h.left, h.sent, h.turn.append_fresh hpaged rfl⟩
    rw [h.order]
    simp [Transfer.fresh, Transfer.ofAdmitted]

/-- Any moves keep the books. -/
theorem Books.moves [Pinner P] [Registers R] {device : (R → R) → Prop} {start : Engine P R}
    {queued freed : List Transfer} (h : Books accepted reclaimed start)
    (hconfig : start.config.Sound) (hmoves : Moves device start queued freed events engine) :
    Books (accepted ++ queued) (reclaimed ++ freed) engine := by
  induction hmoves with
  | refl =>
    rw [List.append_nil, List.append_nil]
    exact h
  | step hmoves hmove ih =>
    rw [← List.append_assoc, ← List.append_assoc]
    exact ih.move (hmoves.config_eq ▸ hconfig) hmove

/-- The books of an engine that began with nothing queued. -/
theorem books_of_moves [Pinner P] [Registers R] {device : (R → R) → Prop} {start : Engine P R}
    (hmoves : Moves device start accepted reclaimed events engine) (hconfig : start.config.Sound)
    (hpending : start.pending = []) (hinFlight : start.inFlight = []) :
    Books accepted reclaimed engine :=
  (Books.of_new hpending hinFlight).moves hconfig hmoves

end Engine

end DmaQueue
