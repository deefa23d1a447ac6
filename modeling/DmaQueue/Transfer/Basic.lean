/-
  DmaQueue.Transfer.Basic

  A request that was let in and whose pages are pinned, with the progress of
  its descriptors.  `step` says what the engine does next for it: write one
  descriptor, wait for a full FIFO, or nothing any more.
-/
import DmaQueue.Request.Admission
import DmaQueue.Transfer.PinnedRange
import DmaQueue.Transfer.Progress

namespace DmaQueue

/-- A transfer in the queue. -/
structure Transfer where
  /-- The request. -/
  request : Request
  /-- The number of bytes that come out. -/
  outputLength : UInt64
  /-- The pinned source range. -/
  source : PinnedRange
  /-- The pinned destination range. -/
  dest : PinnedRange
  /-- What is written next. -/
  progress : Progress := .sourceHead
  deriving DecidableEq, Repr

/-- What the engine does next for a transfer. -/
inductive Step where
  /-- The FIFO of this side is full: nothing is written. -/
  | stalled (side : Side)
  /-- The descriptor goes to this side. -/
  | send (side : Side) (descriptor : Descriptor)
  /-- Every descriptor is written. -/
  | complete
  deriving DecidableEq, Repr

namespace Transfer

/-- The transfer of a request that was let in, with nothing written yet. -/
def ofAdmitted (request : Request) (admitted : Admitted) (source dest : List PinnedPage) :
    Transfer :=
  { request
    outputLength := admitted.outputLength
    source := .ofExtent source admitted.source
    dest := .ofExtent dest admitted.dest }

/-- The range of one side. -/
def range (t : Transfer) : Side → PinnedRange
  | .source => t.source
  | .dest => t.dest

/-- The pages of both sides. -/
def pageCount (t : Transfer) : Nat :=
  t.source.pageCount + t.dest.pageCount

/-- How many descriptors of a side are written. -/
def cursor (t : Transfer) : Side → Nat
  | .source => t.progress.sourceCursor t.source.pageCount
  | .dest => t.progress.destCursor t.dest.pageCount

/-- How many descriptors are still to be written. -/
def remaining (t : Transfer) : Nat :=
  t.progress.remaining t.source.pageCount t.dest.pageCount

/-- The transfer after one more descriptor. -/
def advance (t : Transfer) : Transfer :=
  { t with progress := t.progress.advance t.source.pageCount t.dest.pageCount }

/-- The descriptor of a chunk.  The first of each side carries the opcode and the attribute; the
last source chunk is marked as the last, a destination chunk never. -/
def descriptor (t : Transfer) (pageSize : UInt64) (side : Side) (index : Nat) :
    Except Fault Descriptor := do
  let (addr, length) ← (t.range side).chunk index pageSize
  let last := side == .source && index + 1 == t.source.pageCount
  if index = 0 then
    Descriptor.head addr length t.request.opcode t.request.attr last
  else
    Descriptor.chunk addr length last

/-- What to do for a transfer at the sampled depths. -/
def step (t : Transfer) (config : Config) (depths : Depths) : Except Fault Step :=
  match t.progress.target? with
  | none => return .complete
  | some (side, index) =>
    -- Only the very depth counts as full, not a greater one.
    if depths.of side = config.fifoFull then
      return .stalled side
    else do
      let descriptor ← t.descriptor config.pageSize side index
      return .send side descriptor

/-- Releases every page: first those of the destination, as written to, then those of the source. -/
def release {P : Type} [Pinner P] (t : Transfer) : Act Event P Unit := do
  Pinner.unpinAll true t.dest.pages
  Pinner.unpinAll false t.source.pages

/-! ## Progress is made -/

theorem lt_of_descriptor_eq_ok {t : Transfer} {pageSize : UInt64} {side : Side} {index : Nat}
    {d : Descriptor} (h : t.descriptor pageSize side index = .ok d) :
    index < (t.range side).pageCount := by
  unfold descriptor at h
  cases hchunk : (t.range side).chunk index pageSize with
  | error fault => simp [hchunk, bind, Except.bind] at h
  | ok piece => exact PinnedRange.lt_of_chunk_eq_ok hchunk

/-- A descriptor that is sent leaves fewer to be written. -/
theorem remaining_advance_lt {t : Transfer} {config : Config} {depths : Depths} {side : Side}
    {d : Descriptor} (h : t.step config depths = .ok (.send side d)) :
    t.advance.remaining < t.remaining := by
  unfold step at h
  split at h
  · simp [pure, Except.pure] at h
  · rename_i target side' index htarget
    split at h
    · simp [pure, Except.pure] at h
    · cases hd : t.descriptor config.pageSize side' index with
      | error fault => simp [hd, bind, Except.bind] at h
      | ok d' =>
        -- A descriptor exists only for a chunk that exists.
        have hindex := lt_of_descriptor_eq_ok hd
        refine Progress.remaining_advance_lt htarget ?_
        cases side' <;> exact hindex

end Transfer

end DmaQueue
