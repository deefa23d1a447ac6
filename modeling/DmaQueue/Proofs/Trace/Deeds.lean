/-
  DmaQueue.Proofs.Trace.Deeds

  The deeds of a record are its entries without the diagnostic notes.  Every
  register access, and every call on the memory manager, has the deeds that its
  name promises, whatever the control block and the memory manager note on the
  way.
-/
import DmaQueue.Proofs.Act.Failing
import DmaQueue.Register.Basic

namespace DmaQueue

/-! ## Entries for two sides -/

namespace Side

variable {α β : Type}

/-- What a list has for one of the two sides. -/
def part (side : Side) (entries : List (Side × α)) : List α :=
  (entries.filter (·.1 == side)).map (·.2)

theorem part_append (side : Side) (first second : List (Side × α)) :
    side.part (first ++ second) = side.part first ++ side.part second := by
  rw [part, List.filter_append, List.map_append]
  rfl

theorem part_flatMap (side : Side) (xs : List β) (f : β → List (Side × α)) :
    side.part (xs.flatMap f) = xs.flatMap fun x => side.part (f x) := by
  induction xs with
  | nil => rfl
  | cons x rest ih => rw [List.flatMap_cons, List.flatMap_cons, part_append, ih]

theorem part_map (side : Side) (entries : List (Side × α)) (f : Side → α → β) :
    side.part (entries.map fun entry => (entry.1, f entry.1 entry.2)) =
      (side.part entries).map (f side) := by
  induction entries with
  | nil => rfl
  | cons entry rest ih =>
    unfold part at ih ⊢
    -- The filter keeps both heads or drops both, and where it keeps them the sides agree.
    by_cases hside : entry.1 = side
    · simp [hside, ih]
    · simp [hside, ih]

theorem part_singleton (side : Side) (entry : Side × α) :
    side.part [entry] = if entry.1 = side then [entry.2] else [] := by
  by_cases hside : entry.1 = side <;> simp [part, hside]

end Side

namespace Event

/-! ## Parts of a record -/

/-- The entries that are not notes. -/
def deeds (events : List Event) : List Event :=
  events.filter (·.note?.isNone)

/-- The register writes: offsets and values. -/
def writes (events : List Event) : List (UInt64 × UInt32) :=
  events.filterMap fun
    | .stored offset value => some (offset, value)
    | _ => none

/-- The pages that the pin calls answered, one list for each call. -/
def grants (events : List Event) : List (List PinnedPage) :=
  events.filterMap fun
    | .pinned _ _ _ pages => some pages
    | _ => none

/-- The pages that were released, in order. -/
def releases (events : List Event) : List PinnedPage :=
  events.filterMap fun
    | .unpinned page _ => some page
    | _ => none

@[simp] theorem deeds_nil : deeds [] = [] := rfl

@[simp] theorem deeds_append (first second : List Event) :
    deeds (first ++ second) = deeds first ++ deeds second :=
  List.filter_append ..

@[simp] theorem deeds_cons_noted (note : Note) (events : List Event) :
    deeds (.noted note :: events) = deeds events := rfl

@[simp] theorem deeds_map_noted (notes : List Note) : deeds (notes.map .noted) = [] := by
  induction notes with
  | nil => rfl
  | cons note rest ih => exact ih

@[simp] theorem writes_append (first second : List Event) :
    writes (first ++ second) = writes first ++ writes second :=
  List.filterMap_append

/-- Releases have no part in what passes over them. -/
theorem filterMap_unpinned {α : Type} {f : Event → Option α}
    (hf : ∀ page dirty, f (.unpinned page dirty) = none) (pages : List PinnedPage) (dirty : Bool) :
    (pages.map (Event.unpinned · dirty)).filterMap f = [] := by
  rw [List.filterMap_eq_nil_iff]
  intro event hevent
  obtain ⟨page, -, rfl⟩ := List.mem_map.1 hevent
  exact hf page dirty

/-- No register is written by a release. -/
theorem writes_unpinned (pages : List PinnedPage) (dirty : Bool) :
    writes (pages.map (Event.unpinned · dirty)) = [] :=
  filterMap_unpinned (fun _ _ => rfl) pages dirty

@[simp] theorem grants_append (first second : List Event) :
    grants (first ++ second) = grants first ++ grants second :=
  List.filterMap_append

/-- Nothing is pinned by a release. -/
theorem grants_unpinned (pages : List PinnedPage) (dirty : Bool) :
    grants (pages.map (Event.unpinned · dirty)) = [] :=
  filterMap_unpinned (fun _ _ => rfl) pages dirty

theorem releases_append (first second : List Event) :
    releases (first ++ second) = releases first ++ releases second :=
  List.filterMap_append

theorem releases_unpinned (pages : List PinnedPage) (dirty : Bool) :
    releases (pages.map (Event.unpinned · dirty)) = pages := by
  induction pages with
  | nil => rfl
  | cons page rest ih => exact congrArg (page :: ·) ih

/-- A part that passes over notes can be read off the deeds. -/
theorem filterMap_deeds {α : Type} {f : Event → Option α} (hf : ∀ note, f (.noted note) = none)
    (events : List Event) : (deeds events).filterMap f = events.filterMap f := by
  induction events with
  | nil => rfl
  | cons event rest ih =>
    -- A note is in neither list, and every other entry is in both.
    cases event with
    | noted note =>
      rw [List.filterMap_cons_none (hf note)]
      exact ih
    | loaded | stored | pinned | unpinned =>
      simp only [List.filterMap_cons]
      rw [← ih]
      rfl

theorem releases_deeds (events : List Event) : releases (deeds events) = releases events :=
  filterMap_deeds (fun _ => rfl) events

/-- Whether the entry is a register access. -/
def isAccess : Event → Bool
  | .loaded _ _ => true
  | .stored _ _ => true
  | _ => false

/-- The register accesses of a record are among its deeds. -/
theorem filter_isAccess_deeds (events : List Event) :
    (deeds events).filter isAccess = events.filter isAccess := by
  rw [deeds, List.filter_filter]
  apply List.filter_congr
  intro event _
  cases event <;> rfl

/-- No register is accessed by a release. -/
theorem filter_isAccess_unpinned (pages : List PinnedPage) (dirty : Bool) :
    (pages.map (Event.unpinned · dirty)).filter isAccess = [] := by
  rw [List.filter_eq_nil_iff]
  intro event hevent
  obtain ⟨page, -, rfl⟩ := List.mem_map.1 hevent
  simp [isAccess]

/-- Whether the entry is a call on the memory manager. -/
def isPinnerCall : Event → Bool
  | .pinned _ _ _ _ => true
  | .unpinned _ _ => true
  | _ => false

/-- The calls on the memory manager, in order. -/
def pinnerCalls (events : List Event) : List Event :=
  events.filter isPinnerCall

theorem pinnerCalls_append (first second : List Event) :
    pinnerCalls (first ++ second) = pinnerCalls first ++ pinnerCalls second :=
  List.filter_append ..

theorem pinnerCalls_deeds (events : List Event) :
    pinnerCalls (deeds events) = pinnerCalls events := by
  rw [pinnerCalls, deeds, List.filter_filter]
  apply List.filter_congr
  intro event _
  cases event <;> rfl

/-- A part that has only calls on the memory manager can be read off those. -/
theorem filterMap_pinnerCalls {α : Type} {f : Event → Option α}
    (hf : ∀ event, event.isPinnerCall = false → f event = none) (events : List Event) :
    (pinnerCalls events).filterMap f = events.filterMap f := by
  induction events with
  | nil => rfl
  | cons event rest ih =>
    have hone : (pinnerCalls [event]).filterMap f = [event].filterMap f := by
      cases hcall : event.isPinnerCall with
      | true => rw [pinnerCalls, List.filter_cons_of_pos hcall, List.filter_nil]
      | false =>
        rw [pinnerCalls, List.filter_cons_of_neg (by simp [hcall]), List.filter_nil,
          List.filterMap_cons_none (hf event hcall)]
    rw [← List.singleton_append, pinnerCalls_append, List.filterMap_append, List.filterMap_append,
      hone, ih]

/-- Releases are calls on the memory manager. -/
theorem pinnerCalls_unpinned (pages : List PinnedPage) (dirty : Bool) :
    pinnerCalls (pages.map (Event.unpinned · dirty)) = pages.map (Event.unpinned · dirty) := by
  rw [pinnerCalls, List.filter_eq_self]
  intro event hevent
  obtain ⟨page, -, rfl⟩ := List.mem_map.1 hevent
  rfl

theorem grants_pinnerCalls (events : List Event) : grants (pinnerCalls events) = grants events :=
  filterMap_pinnerCalls (fun event h => by cases event <;> first | rfl | cases h) events

theorem releases_pinnerCalls (events : List Event) :
    releases (pinnerCalls events) = releases events :=
  filterMap_pinnerCalls (fun event h => by cases event <;> first | rfl | cases h) events

theorem writes_deeds (events : List Event) : writes (deeds events) = writes events :=
  filterMap_deeds (fun _ => rfl) events

theorem grants_deeds (events : List Event) : grants (deeds events) = grants events :=
  filterMap_deeds (fun _ => rfl) events

end Event

/-! ## The control block -/

/-- The entries for the reads of both depths. -/
def Depths.reads (depths : Depths) : List Event :=
  [.loaded Side.source.depthOffset depths.source, .loaded Side.dest.depthOffset depths.dest]

namespace Registers

variable {R : Type} [Registers R] {r r' : R} {events : List Event}

theorem deeds_of_read {offset : UInt64} {value : UInt32}
    (h : read offset r = ⟨.ok value, r', events⟩) :
    Event.deeds events = [.loaded offset value] := by
  obtain ⟨value', r₁, _, _, hload, h₁, rfl⟩ := Act.bind_eq_ok_iff.1 h
  obtain ⟨_, r₂, _, _, hemit, hpure, rfl⟩ := Act.bind_eq_ok_iff.1 h₁
  obtain ⟨notes, -, rfl⟩ := Act.mapEvents_eq_ok_iff.1 hload
  obtain ⟨-, rfl⟩ := Act.emit_eq_ok_iff.1 hemit
  obtain ⟨rfl, -, rfl⟩ := Act.pure_eq_ok_iff.1 hpure
  simp [Event.deeds, Event.note?]

/-- A recorded write is the write. -/
theorem write_eq_ok {offset : UInt64} {value : UInt32}
    (h : write offset value r = ⟨.ok (), r', events⟩) :
    ∃ notes, Registers.store offset value r = ⟨.ok (), r', notes⟩ := by
  obtain ⟨_, r₁, _, _, hstore, hemit, -⟩ := Act.bind_eq_ok_iff.1 h
  obtain ⟨notes, hstore, -⟩ := Act.mapEvents_eq_ok_iff.1 hstore
  obtain ⟨rfl, -⟩ := Act.emit_eq_ok_iff.1 hemit
  exact ⟨notes, hstore⟩

theorem deeds_of_write {offset : UInt64} {value : UInt32}
    (h : write offset value r = ⟨.ok (), r', events⟩) :
    Event.deeds events = [.stored offset value] := by
  obtain ⟨_, r₁, _, _, hstore, hemit, rfl⟩ := Act.bind_eq_ok_iff.1 h
  obtain ⟨notes, -, rfl⟩ := Act.mapEvents_eq_ok_iff.1 hstore
  obtain ⟨-, rfl⟩ := Act.emit_eq_ok_iff.1 hemit
  simp [Event.deeds, Event.note?]

theorem deeds_of_sample {depths : Depths} (h : sample r = ⟨.ok depths, r', events⟩) :
    Event.deeds events =
      [ .loaded Side.source.depthOffset depths.source,
        .loaded Side.dest.depthOffset depths.dest ] := by
  obtain ⟨source, r₁, _, _, hsource, h₁, rfl⟩ := Act.bind_eq_ok_iff.1 h
  obtain ⟨dest, r₂, _, _, hdest, hpure, rfl⟩ := Act.bind_eq_ok_iff.1 h₁
  obtain ⟨rfl, -, rfl⟩ := Act.pure_eq_ok_iff.1 hpure
  rw [Event.deeds_append, Event.deeds_append, deeds_of_read hsource, deeds_of_read hdest]
  rfl

theorem deeds_of_push {side : Side} {d : Descriptor} (h : push side d r = ⟨.ok (), r', events⟩) :
    Event.deeds events = [.stored side.lowOffset d.low, .stored side.highOffset d.high] := by
  obtain ⟨_, r₁, _, _, hlow, hhigh, rfl⟩ := Act.bind_eq_ok_iff.1 h
  rw [Event.deeds_append, deeds_of_write hlow, deeds_of_write hhigh]
  rfl

end Registers

/-! ## The memory manager -/

namespace Pinner

variable {P : Type} [Pinner P] {p p' : P} {events : List Event}

/-- A recorded pin call is the pin call, and its one deed is the entry with the answer's pages. -/
theorem pinRange_eq_ok {address length : UInt64} {writable : Bool}
    {answer : Except PinFailure (List PinnedPage)}
    (h : pinRange address length writable p = ⟨.ok answer, p', events⟩) :
    (∃ notes, Pinner.pin address length writable p = ⟨.ok answer, p', notes⟩) ∧
      Event.deeds events = [.pinned address length writable (answer.toOption.getD [])] := by
  obtain ⟨answer', p₁, _, _, hcall, h₁, rfl⟩ := Act.bind_eq_ok_iff.1 h
  obtain ⟨_, p₂, _, _, hemit, hpure, rfl⟩ := Act.bind_eq_ok_iff.1 h₁
  obtain ⟨notes, hpin, rfl⟩ := Act.mapEvents_eq_ok_iff.1 hcall
  obtain ⟨rfl, rfl⟩ := Act.emit_eq_ok_iff.1 hemit
  obtain ⟨rfl, rfl, rfl⟩ := Act.pure_eq_ok_iff.1 hpure
  refine ⟨⟨notes, hpin⟩, ?_⟩
  simp [Event.deeds, Event.note?]

/-- A recorded release is the release, and its one deed is the entry with the page. -/
theorem unpinPage_eq_ok {page : PinnedPage} {dirty : Bool}
    (h : unpinPage page dirty p = ⟨.ok (), p', events⟩) :
    (∃ notes, Pinner.unpin page dirty p = ⟨.ok (), p', notes⟩) ∧
      Event.deeds events = [.unpinned page dirty] := by
  obtain ⟨_, p₁, _, _, hcall, hemit, rfl⟩ := Act.bind_eq_ok_iff.1 h
  obtain ⟨notes, hunpin, rfl⟩ := Act.mapEvents_eq_ok_iff.1 hcall
  obtain ⟨rfl, rfl⟩ := Act.emit_eq_ok_iff.1 hemit
  refine ⟨⟨notes, hunpin⟩, ?_⟩
  simp [Event.deeds, Event.note?]

theorem deeds_of_unpinAll {dirty : Bool} {pages : List PinnedPage}
    (h : unpinAll dirty pages p = ⟨.ok (), p', events⟩) :
    Event.deeds events = pages.map (Event.unpinned · dirty) := by
  induction pages generalizing p events with
  | nil =>
    obtain ⟨-, -, rfl⟩ := Act.pure_eq_ok_iff.1 h
    rfl
  | cons page rest ih =>
    obtain ⟨_, p₁, _, _, hpage, hrest, rfl⟩ := Act.bind_eq_ok_iff.1 h
    rw [Event.deeds_append, (unpinPage_eq_ok hpage).2, ih hrest]
    rfl

end Pinner

end DmaQueue
