/-
  DmaQueue.Proofs.Trace.Readings

  What a record tells around the readings of the depths: where the destination
  FIFO was last read empty, how many descriptors were handed over, and which
  pages were released right after a reading.
-/
import DmaQueue.Proofs.Trace.Deeds
import Mathlib.Data.List.DropRight

namespace DmaQueue

namespace Event

variable {events later : List Event}

/-! ## Readings -/

/-- Whether the entry is a reading of the depth of this side. -/
def isReading (side : Side) : Event → Bool
  | .loaded offset _ => offset == side.depthOffset
  | _ => false

/-- How often the depth of a side was read. -/
def readings (side : Side) (events : List Event) : Nat :=
  events.countP (isReading side)

/-! ## The last time the destination FIFO was read empty -/

/-- Whether the entry is a reading of the destination depth that found it zero. -/
def readsEmpty : Event → Bool
  | .loaded offset value => offset == Side.dest.depthOffset && value == 0
  | _ => false

/-- The record up to the last reading of an empty destination FIFO; nothing if there is none. -/
def untilEmpty (events : List Event) : List Event :=
  events.rdropWhile fun event => !event.readsEmpty

theorem untilEmpty_append_of_readsEmpty {event : Event} (h : event.readsEmpty = true)
    (hlater : ∀ e ∈ later, e.readsEmpty = false) :
    untilEmpty (events ++ event :: later) = events ++ [event] := by
  unfold untilEmpty List.rdropWhile
  rw [List.reverse_append, List.reverse_cons, List.append_assoc,
    List.dropWhile_append_of_pos (by simpa using hlater), List.singleton_append,
    List.dropWhile_cons_of_neg (by simp [h])]
  simp

theorem untilEmpty_append_of_busy (hlater : ∀ e ∈ later, e.readsEmpty = false) :
    untilEmpty (events ++ later) = untilEmpty events := by
  unfold untilEmpty List.rdropWhile
  rw [List.reverse_append, List.dropWhile_append_of_pos (by simpa using hlater)]

theorem untilEmpty_append_of_no_read (h : ∀ e ∈ later, ∀ offset value, e ≠ .loaded offset value) :
    untilEmpty (events ++ later) = untilEmpty events := by
  apply untilEmpty_append_of_busy
  intro e he
  cases e with
  | loaded offset value => exact absurd rfl (h _ he offset value)
  | stored | pinned | unpinned | noted => rfl

/-- Both depths are read, and that of the destination is zero: this is the last such reading. -/
theorem untilEmpty_append_reads {depths : Depths} (h : depths.dest = 0)
    (hlater : ∀ e ∈ later, e.readsEmpty = false) :
    untilEmpty (events ++ depths.reads ++ later) = events ++ depths.reads := by
  have hempty : (Event.loaded Side.dest.depthOffset depths.dest).readsEmpty = true := by
    rw [h]
    rfl
  have hsplit : events ++ depths.reads ++ later =
      events ++ [.loaded Side.source.depthOffset depths.source] ++
        .loaded Side.dest.depthOffset depths.dest :: later := by
    rw [Depths.reads, List.append_assoc, List.append_assoc]
    rfl
  rw [hsplit, untilEmpty_append_of_readsEmpty hempty hlater, Depths.reads, List.append_assoc]
  rfl

/-- Both depths are read, and that of the destination is not zero: this changes nothing. -/
theorem untilEmpty_append_busy_reads {depths : Depths} (h : depths.dest ≠ 0)
    (hlater : ∀ e ∈ later, e.readsEmpty = false) :
    untilEmpty (events ++ depths.reads ++ later) = untilEmpty events := by
  rw [List.append_assoc]
  apply untilEmpty_append_of_busy
  intro e he
  rcases List.mem_append.1 he with he | he
  · simp only [Depths.reads, List.mem_cons, List.not_mem_nil, or_false] at he
    rcases he with rfl | rfl
    · rfl
    · simp [readsEmpty, h]
  · exact hlater e he

/-! ## Descriptors -/

/-- How many descriptors were handed over.  The high half hands a descriptor over. -/
def descriptors (events : List Event) : Nat :=
  (writes events).countP fun write =>
    write.1 == Side.source.highOffset || write.1 == Side.dest.highOffset

theorem descriptors_append (events later : List Event) :
    descriptors (events ++ later) = descriptors events + descriptors later := by
  rw [descriptors, writes_append, List.countP_append]
  rfl

/-- How many descriptors were handed to a side. -/
def descriptorsTo (side : Side) (events : List Event) : Nat :=
  (writes events).countP (·.1 == side.highOffset)

theorem descriptorsTo_append (side : Side) (events later : List Event) :
    descriptorsTo side (events ++ later) =
      descriptorsTo side events + descriptorsTo side later := by
  rw [descriptorsTo, writes_append, List.countP_append]
  rfl

theorem descriptorsTo_deeds (side : Side) (events : List Event) :
    descriptorsTo side (deeds events) = descriptorsTo side events := by
  rw [descriptorsTo, writes_deeds]
  rfl

/-! ## Releases after a reading -/

/-- Whether the entry is a release of a page. -/
def isRelease : Event → Bool
  | .unpinned _ _ => true
  | _ => false

/-- The releases that come right after a reading of a depth.  Those that undo a pin call come after
that call. -/
def reclaims : List Event → List Event
  | [] => []
  | .loaded _ _ :: rest => rest.takeWhile isRelease ++ reclaims rest
  | .stored _ _ :: rest => reclaims rest
  | .pinned _ _ _ _ :: rest => reclaims rest
  | .unpinned _ _ :: rest => reclaims rest
  | .noted _ :: rest => reclaims rest

theorem isRelease_unpinned (pages : List PinnedPage) (dirty : Bool) :
    ∀ e ∈ pages.map (Event.unpinned · dirty), e.isRelease = true := by
  intro e he
  obtain ⟨page, -, rfl⟩ := List.mem_map.1 he
  rfl

theorem readsEmpty_of_isRelease {event : Event} (h : event.isRelease = true) :
    event.readsEmpty = false := by
  cases event with
  | unpinned page dirty => rfl
  | loaded | stored | pinned | noted => simp [isRelease] at h

/-- What does not begin with a release adds its own reclaims. -/
theorem reclaims_append (hlater : ∀ e ∈ later.head?, e.isRelease = false) :
    reclaims (events ++ later) = reclaims events ++ reclaims later := by
  have hnone : later.takeWhile isRelease = [] := by
    cases later with
    | nil => rfl
    | cons e rest => simp [hlater e rfl]
  induction events with
  | nil => rfl
  | cons event rest ih =>
    cases event with
    | loaded offset value =>
      have hstop : (rest ++ later).takeWhile isRelease = rest.takeWhile isRelease := by
        rw [List.takeWhile_append]
        by_cases hall : (rest.takeWhile isRelease).length = rest.length
        · have hwhole := (List.takeWhile_prefix (l := rest) isRelease).eq_of_length hall
          rw [if_pos hall, hnone, List.append_nil, hwhole]
        · rw [if_neg hall]
      show (rest ++ later).takeWhile isRelease ++ reclaims (rest ++ later) =
        rest.takeWhile isRelease ++ reclaims rest ++ reclaims later
      rw [hstop, ih, List.append_assoc]
    | stored | pinned | unpinned | noted => exact ih

/-- Where no depth is read nothing is reclaimed. -/
theorem reclaims_of_no_read (h : ∀ e ∈ events, ∀ offset value, e ≠ .loaded offset value) :
    reclaims events = [] := by
  induction events with
  | nil => rfl
  | cons event rest ih =>
    have hrest := ih fun e he => h e (List.mem_cons_of_mem _ he)
    cases event with
    | loaded offset value => exact absurd rfl (h _ (List.mem_cons_self ..) offset value)
    | stored | pinned | unpinned | noted => exact hrest

/-- What is released after both depths were read, and before the next write, is reclaimed. -/
theorem reclaims_reads (depths : Depths) {freed written : List Event}
    (hfreed : ∀ e ∈ freed, e.isRelease = true)
    (hwritten : ∀ e ∈ written, ∃ offset value, e = .stored offset value) :
    reclaims (depths.reads ++ freed ++ written) = freed := by
  have hstop : (freed ++ written).takeWhile isRelease = freed := by
    rw [List.takeWhile_append_of_pos hfreed]
    cases written with
    | nil => exact List.append_nil _
    | cons e rest =>
      obtain ⟨offset, value, rfl⟩ := hwritten e (List.mem_cons_self ..)
      exact List.append_nil _
  have hnone : reclaims (freed ++ written) = [] := by
    apply reclaims_of_no_read
    rintro _ he offset value rfl
    rcases List.mem_append.1 he with he | he
    · simpa [isRelease] using hfreed _ he
    · obtain ⟨_, _, hstored⟩ := hwritten _ he
      simp at hstored
  show (freed ++ written).takeWhile isRelease ++ reclaims (freed ++ written) = freed
  rw [hstop, hnone, List.append_nil]

end Event

end DmaQueue
