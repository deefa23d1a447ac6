/-
  DmaQueue.Proofs.Engine.Queues

  The shape of the two queues, at the end of every history and at every turn of
  the next call.  What is in flight is sent.  Of what is pending only the head
  has begun, and it has a chunk left that exists.  So the loop never meets a
  head that is complete already, never looks for a page that a range does not
  have, and never takes a progress back.
-/
import DmaQueue.Proofs.Engine.Loop
import DmaQueue.Proofs.Page.Granule

namespace DmaQueue

/-! ## Chunks that exist, and progress that is kept -/

/-- The only fault of a chunk that exists is an address beyond the machine words. -/
theorem PinnedRange.chunk_ne_outOfRange {range : PinnedRange} {index : Nat} {pageSize : UInt64}
    (h : index < range.pageCount) : range.chunk index pageSize ≠ .error .outOfRange := by
  obtain ⟨page, hpage⟩ : ∃ page, range.pages[index]? = some page :=
    ⟨_, List.getElem?_eq_getElem h⟩
  unfold chunk
  simp only [hpage]
  by_cases hfirst : index = 0
  · -- The first chunk fails where its address cannot be formed, which is another fault.
    rw [if_pos hfirst]
    cases hstart : Word.checkedAdd page.phys range.offset with
    | ok start => simp [bind, Except.bind, pure, Except.pure]
    | error fault =>
      obtain rfl := Word.overflow_of_checkedAdd hstart
      simp [bind, Except.bind]
  · rw [if_neg hfirst]
    split <;> simp [pure, Except.pure]

/-- One more descriptor never takes the progress back. -/
theorem Progress.rank_le_advance (n m : Nat) (p : Progress) : p.rank ≤ (p.advance n m).rank := by
  cases p with
  | sourceHead => exact Nat.zero_le _
  | sent => exact Nat.le_refl _
  | destHead | sourceTail | destTail =>
    simp only [advance, startDestTail]
    grind [rank]

namespace Transfer

/-- The transfer has as many pages on each side as the check of its request counted, which is one at
least. -/
def Spanned (config : Config) (t : Transfer) : Prop :=
  ∃ admitted, t.request.admission config = .ok (.ok admitted) ∧
    t.source.pageCount = admitted.source.pages.toNat ∧ 1 ≤ t.source.pageCount ∧
    t.dest.pageCount = admitted.dest.pages.toNat ∧ 1 ≤ t.dest.pageCount

/-- The transfer can be served: it is not complete, its next chunk exists, and its progress is kept
once that is written. -/
structure Servable (config : Config) (t : Transfer) : Prop where
  incomplete : ∀ depths, t.step config depths ≠ .ok .complete
  exists_chunk : ∀ side index, t.progress.target? = some (side, index) →
    index < (t.range side).pageCount ∧
      (t.range side).chunk index config.pageSize ≠ .error .outOfRange
  kept : t.progress.rank ≤ t.advance.progress.rank

variable {t : Transfer} {config : Config}

theorem UnderWay.servable (h : t.UnderWay) : t.Servable config := by
  constructor
  case incomplete =>
    intro depths hcomplete
    exact h.target?_ne_none (target_of_step_complete hcomplete)
  case exists_chunk =>
    intro side index htarget
    have hindex := h.target_lt htarget
    exact ⟨hindex, PinnedRange.chunk_ne_outOfRange hindex⟩
  case kept => exact Progress.rank_le_advance _ _ t.progress

/-- The pages of an admitted request are as many as were counted if they came back whole. -/
theorem spanned_ofAdmitted {request : Request} {admitted : Admitted}
    {source dest : List PinnedPage} (hconfig : config.Sound)
    (hadmitted : request.admission config = .ok (.ok admitted))
    (hwhole : Engine.Whole admitted source dest) :
    (ofAdmitted request admitted source dest).Spanned config := by
  have hpaged := paged_ofAdmitted hconfig hadmitted hwhole
  exact ⟨admitted, hadmitted, hwhole.1, hpaged.source, hwhole.2, hpaged.dest⟩

end Transfer

namespace Engine

variable {P R : Type} [Pinner P] [Registers R] {device : (R → R) → Prop}
  {accepted reclaimed : List Transfer} {start engine : Engine P R} {events : List Event}

/-! ## The queues that moves lead to -/

/-- Whatever is queued was checked when it was let in, and keeps its pages. -/
theorem spanned_of_moves (hmoves : Moves device start accepted reclaimed events engine)
    (hconfig : start.config.Sound) (hpending : start.pending = [])
    (hinFlight : start.inFlight = []) :
    ∀ t ∈ reclaimed ++ engine.inFlight ++ engine.pending, t.Spanned start.config := by
  intro t ht
  have hbooks := books_of_moves hmoves hconfig hpending hinFlight
  have hfresh : t.fresh ∈ accepted := by
    rw [hbooks.order]
    exact List.mem_map_of_mem ht
  obtain ⟨request, admitted, source, dest, _, _, _, _, _, -, hadmitted, -, hwhole, heq⟩ :=
    admitted_of_moves hmoves _ hfresh
  have hspanned := Transfer.spanned_ofAdmitted hconfig hadmitted hwhole
  -- The progress has no part in it.
  rw [← heq] at hspanned
  exact hspanned

/-! ## The queues after a history -/

/-- After a history in which every call answered, the transfers of the accepted submissions are in
order those that were reclaimed, those in flight and those pending, each with the pages that were
counted for its request.  Those in flight are sent, those behind the head of the queue have not
begun, and the head has a chunk left.  At every turn to which the next call comes, also if it faults
later, the head of the queue can be served. -/
theorem queues_of_play {config : Config} {pinner : P} {registers : R} {notes : List Note}
    {start final : Engine P R} {calls : List (Call R)} {log : List (Exchange P R)}
    (hcreate : create config pinner registers = (notes, .ok start))
    (hplay : play calls start = ⟨.ok (), final, log⟩) :
    let accepted := queuedTransfers config log
    accepted.map Transfer.request = log.filterMap Exchange.accepted? ∧
      (∃ reclaimed : List Transfer,
        Event.reclaims (Event.deeds (record log)) = reclaimed.flatMap Transfer.releaseDeeds ∧
        accepted = (reclaimed ++ final.inFlight ++ final.pending).map Transfer.fresh ∧
        (∀ t ∈ reclaimed ++ final.inFlight, t.progress = .sent) ∧
        (∀ t ∈ final.pending.tail, t.progress = .sourceHead) ∧
        (∀ head ∈ final.pending.head?,
          head.progress.Underway head.source.pageCount head.dest.pageCount) ∧
        ∀ t ∈ reclaimed ++ final.inFlight ++ final.pending, t.Spanned config) ∧
      ∀ call entered reached, final.Enters call entered → entered.Turns reached →
        (∀ t ∈ reached.live, t.Spanned config) ∧
        ∀ head ∈ reached.pending.head?, head.Servable config := by
  have horderly := orderly_of_play hcreate hplay
  obtain ⟨hflaw, -, rfl⟩ := create_eq_ok hcreate
  obtain ⟨⟨reclaimed, hmoves⟩, hrequests⟩ := moves_of_play hplay
  have hsound := Config.sound_of_flaw? hflaw
  have hbooks := books_of_moves hmoves hsound rfl rfl
  have hspanned := spanned_of_moves hmoves hsound rfl rfl
  have hturn := hbooks.turn
  refine ⟨hrequests, ⟨reclaimed, hmoves.reclaims_eq, hbooks.order, ?_, ?_, ?_, ?_⟩, ?_⟩
  · exact fun t ht => (hbooks.gone t ht).2
  · intro t ht
    cases hq : final.pending with
    | nil => simp [hq] at ht
    | cons head rest =>
      rw [hq] at hturn ht
      exact (hturn.2 t ht).2
  · exact fun head hhead => (hturn.head head hhead).progress
  · exact hspanned
  · intro call entered reached henters hturns
    obtain ⟨_, _, _, hreached⟩ := hmoves.turns henters hturns
    have hlive := spanned_of_moves hreached hsound rfl rfl
    have hinTurn := ((horderly.enters henters).turns hturns).inTurn
    refine ⟨fun t ht => hlive t ?_, fun head hhead => (hinTurn.head head hhead).servable⟩
    rcases List.mem_append.1 ht with ht | ht
    · exact List.mem_append_right _ ht
    · exact List.mem_append_left _ (List.mem_append_right _ ht)

/-- The first submission of the small history waits with its third source chunk. -/
theorem queues_of_smallSubmission :
    let final := (play (smallHistory.take 1) smallEngine).state
    final.pending.map Transfer.progress = [.sourceTail 2] ∧
      (∀ t ∈ final.pending.tail, t.progress = .sourceHead) ∧
      ∀ head ∈ final.pending.head?,
        head.progress.Underway head.source.pageCount head.dest.pageCount ∧
          head.Servable smallEngine.config := by
  obtain ⟨-, ⟨_, -, -, -, htail, hhead, -⟩, hturns⟩ :=
    queues_of_play create_smallEngine play_smallSubmission
  have hservable := (hturns _ _ _ .polled .first).2
  exact ⟨by decide +kernel, htail, fun head hmem => ⟨hhead head hmem, hservable head hmem⟩⟩

end Engine

end DmaQueue
