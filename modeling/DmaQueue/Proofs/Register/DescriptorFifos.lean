/-
  DmaQueue.Proofs.Register.DescriptorFifos

  The FIFOs of the accelerator with the descriptors in them.  The depth registers
  are those of a `FifoPair`; behind each of them stands a queue.  A descriptor
  enters its queue when its high half is written, if the depth leaves room for
  it, and is lost otherwise.  Before every access the device side may take
  descriptors out, or make a FIFO report that it is full.

  As long as the depths are the numbers of descriptors that wait (`Exact`), a
  side that does not read full has room for one more, whatever the device side
  does until it is written (`room_of_sample`).  So the depths stay exact if no
  descriptor goes to a side that read full.
-/
import DmaQueue.Proofs.Trace.Deeds
import DmaQueue.Register.FifoPair

namespace DmaQueue

/-! ## Halves of descriptors -/

namespace Descriptor

/-- The descriptor with the given halves. -/
def ofHalves (low high : UInt32) : Descriptor :=
  ⟨UInt64.ofNat (low.toNat + high.toNat * 0x1_0000_0000)⟩

/-- The two halves side by side are the word. -/
theorem toNat_high_low (d : Descriptor) :
    d.high.toNat * 0x1_0000_0000 + d.low.toNat = d.raw.toNat := by
  have hraw := d.raw.toNat_lt_size
  rw [show UInt64.size = 0x1_0000_0000 * 0x1_0000_0000 from rfl] at hraw
  have hlow : d.low.toNat = d.raw.toNat % 0x1_0000_0000 := by
    rw [low, UInt32.toNat_ofNat']
    exact Nat.mod_mod _ _
  have hhigh : d.high.toNat = d.raw.toNat / 0x1_0000_0000 := by
    rw [high, UInt32.toNat_ofNat']
    exact Nat.mod_eq_of_lt (Nat.div_lt_of_lt_mul hraw)
  rw [hlow, hhigh]
  omega

theorem ofHalves_low_high (d : Descriptor) : ofHalves d.low d.high = d := by
  rw [ofHalves, Nat.add_comm, toNat_high_low, UInt64.ofNat_toNat]

end Descriptor

/-! ## One FIFO -/

/-- The descriptors of one FIFO. -/
structure Intake where
  /-- The low half that was written last. -/
  latch : UInt32 := 0
  /-- The descriptors in the FIFO, oldest first. -/
  waiting : List Descriptor := []
  /-- The descriptors that the device side took out, oldest first. -/
  taken : List Descriptor := []
  /-- The descriptors that found the FIFO full. -/
  lost : List Descriptor := []

namespace Intake

/-- Every descriptor that entered the FIFO, oldest first. -/
def arrived (intake : Intake) : List Descriptor :=
  intake.taken ++ intake.waiting

/-- The FIFO after up to `count` of its oldest descriptors were taken out. -/
def consumed (intake : Intake) (count : Nat) : Intake :=
  { intake with
    waiting := intake.waiting.drop count
    taken := intake.taken ++ intake.waiting.take count }

/-- The FIFO after a high half was written. -/
def entered (intake : Intake) (room : Bool) (high : UInt32) : Intake :=
  let descriptor := Descriptor.ofHalves intake.latch high
  if room then
    { intake with waiting := intake.waiting ++ [descriptor] }
  else
    { intake with lost := intake.lost ++ [descriptor] }

theorem arrived_consumed (intake : Intake) (count : Nat) :
    (intake.consumed count).arrived = intake.arrived := by
  simp only [arrived, consumed, List.append_assoc, List.take_append_drop]

theorem arrived_entered (intake : Intake) (high : UInt32) :
    (intake.entered true high).arrived =
      intake.arrived ++ [Descriptor.ofHalves intake.latch high] := by
  simp only [arrived, entered, ↓reduceIte, List.append_assoc]

theorem length_waiting_consumed_le (intake : Intake) (count : Nat) :
    (intake.consumed count).waiting.length ≤ intake.waiting.length := by
  simp only [consumed, List.length_drop]
  exact Nat.sub_le _ _

end Intake

/-- The lane shows how many descriptors wait in the FIFO, which is not over its capacity and has
lost none. -/
structure Lane.Shows (lane : Lane) (capacity : UInt32) (intake : Intake) : Prop where
  script : lane.script = []
  depth : lane.depth.toNat = intake.waiting.length
  room : intake.waiting.length ≤ capacity.toNat
  lost : intake.lost = []

namespace Lane.Shows

variable {lane : Lane} {capacity : UInt32} {intake : Intake}

theorem consumed (h : lane.Shows capacity intake) (count : UInt32) :
    (lane.consumed count).Shows capacity (intake.consumed count.toNat) := by
  have hdepth := h.depth
  have hlt := lane.depth.toNat_lt_size
  have hroom := h.room
  constructor
  case script => exact h.script
  case depth =>
    show (UInt32.ofNat (lane.depth.toNat - count.toNat)).toNat = (intake.waiting.drop _).length
    rw [UInt32.toNat_ofNat_of_lt' (Nat.lt_of_le_of_lt (Nat.sub_le _ _) hlt), hdepth,
      List.length_drop]
  case room => exact Nat.le_trans (intake.length_waiting_consumed_le _) hroom
  case lost => exact h.lost

theorem drained (h : lane.Shows capacity intake) :
    { lane with depth := 0 }.Shows capacity (intake.consumed intake.waiting.length) := by
  constructor
  case script => exact h.script
  case depth => simp [Intake.consumed]
  case room => simp [Intake.consumed]
  case lost => exact h.lost

/-- A descriptor that finds room enters the FIFO. -/
theorem pushed (h : lane.Shows capacity intake) (hroom : intake.waiting.length < capacity.toNat)
    (high : UInt32) : (lane.pushed capacity).Shows capacity (intake.entered true high) := by
  have hdepth := h.depth
  have hcapacity := capacity.toNat_lt_size
  constructor
  case script => exact h.script
  case depth =>
    show (UInt32.ofNat (min (lane.depth.toNat + 1) capacity.toNat)).toNat =
      (intake.waiting ++ [_]).length
    rw [UInt32.toNat_ofNat_of_lt' (Nat.lt_of_le_of_lt (Nat.min_le_right _ _) hcapacity),
      List.length_append, List.length_singleton]
    omega
  case room =>
    show (intake.waiting ++ [_]).length ≤ _
    rw [List.length_append, List.length_singleton]
    omega
  case lost => exact h.lost

theorem afterRead (h : lane.Shows capacity intake) : lane.afterRead.Shows capacity intake := by
  constructor
  case script => rw [Lane.afterRead, h.script]; rfl
  case depth => exact h.depth
  case room => exact h.room
  case lost => exact h.lost

/-- What the lane reports is its capacity or the number of descriptors that wait. -/
theorem reported (h : lane.Shows capacity intake) :
    lane.reported capacity = capacity ∨
      (lane.reported capacity).toNat = intake.waiting.length := by
  unfold Lane.reported
  rw [h.script]
  simp only
  split
  · exact .inl rfl
  · exact .inr h.depth

end Lane.Shows

/-! ## Both FIFOs -/

/-- What the device side does. -/
inductive Tick where
  /-- It takes up to `count` of the oldest descriptors out of a FIFO. -/
  | take (side : Side) (count : UInt32)
  /-- It takes everything out of both FIFOs. -/
  | drain
  /-- It makes a FIFO report that it is full, or its depth again. -/
  | force (side : Side) (full : Bool)

/-- Two FIFOs with their descriptors. -/
structure DescriptorFifos where
  /-- The depth registers. -/
  gauges : FifoPair
  source : Intake := {}
  dest : Intake := {}
  /-- What the device side does before the next accesses. -/
  agenda : List (List Tick) := []

namespace DescriptorFifos

/-- The FIFO of a side. -/
def intake (fifos : DescriptorFifos) : Side → Intake
  | .source => fifos.source
  | .dest => fifos.dest

/-- Changes the depth register and the descriptors of a side. -/
def onSide (side : Side) (f : Lane → Lane) (g : Intake → Intake) (fifos : DescriptorFifos) :
    DescriptorFifos :=
  match side with
  | .source =>
    { fifos with gauges := fifos.gauges.update .source f, source := g fifos.source }
  | .dest =>
    { fifos with gauges := fifos.gauges.update .dest f, dest := g fifos.dest }

/-- Whether the depth of a side is below the capacity. -/
def hasRoom (fifos : DescriptorFifos) (side : Side) : Bool :=
  (fifos.gauges.lane side).depth < fifos.gauges.capacity

end DescriptorFifos

/-- The FIFOs after a tick. -/
def Tick.apply : Tick → DescriptorFifos → DescriptorFifos
  | .take side count, fifos => fifos.onSide side (·.consumed count) (·.consumed count.toNat)
  | .drain, fifos =>
    { fifos with
      gauges := fifos.gauges.drained
      source := fifos.source.consumed fifos.source.waiting.length
      dest := fifos.dest.consumed fifos.dest.waiting.length }
  | .force side full, fifos =>
    fifos.onSide side (fun lane => { lane with forcedFull := full }) id

namespace DescriptorFifos

/-- Lets the device side do what is next on the agenda. -/
def advance (fifos : DescriptorFifos) : DescriptorFifos :=
  match fifos.agenda with
  | [] => fifos
  | ticks :: rest => ticks.foldl (fun fifos tick => tick.apply fifos) { fifos with agenda := rest }

/-- The side whose low half is written at `offset`. -/
def lowSide? (offset : UInt64) : Option Side :=
  if offset = Side.source.lowOffset then some .source
  else if offset = Side.dest.lowOffset then some .dest
  else none

/-- What writing a register does to the descriptors. -/
def written (offset : UInt64) (value : UInt32) (fifos : DescriptorFifos) : DescriptorFifos :=
  match lowSide? offset with
  | some side => fifos.onSide side id fun intake => { intake with latch := value }
  | none =>
    match FifoPair.entrySide? offset with
    | some side => fifos.onSide side id (·.entered (fifos.hasRoom side) value)
    | none => fifos

/-- An act of the depth registers. -/
def onGauges {α : Type} (m : Act Note FifoPair α) : Act Note DescriptorFifos α :=
  Act.zoom DescriptorFifos.gauges (fun gauges fifos => { fifos with gauges }) m

instance : Registers DescriptorFifos where
  load offset := do
    Act.modify advance
    onGauges (Registers.load offset)
  store offset value := do
    Act.modify advance
    Act.modify (written offset value)
    onGauges (Registers.store offset value)

/-! ## Exact depths -/

/-- Each depth is the number of descriptors that wait, and none was lost. -/
def Exact (fifos : DescriptorFifos) : Prop :=
  ∀ side, (fifos.gauges.lane side).Shows fifos.gauges.capacity (fifos.intake side)

section Sides

variable (fifos : DescriptorFifos) (side : Side) (f : Lane → Lane) (g : Intake → Intake)

@[simp] theorem capacity_onSide :
    (fifos.onSide side f g).gauges.capacity = fifos.gauges.capacity := by
  cases side <;> rfl

@[simp] theorem intake_onSide_self :
    (fifos.onSide side f g).intake side = g (fifos.intake side) := by
  cases side <;> rfl

@[simp] theorem lane_onSide_self :
    (fifos.onSide side f g).gauges.lane side = f (fifos.gauges.lane side) := by
  cases side <;> rfl

variable {side} {other : Side}

theorem intake_onSide_of_ne (h : other ≠ side) :
    (fifos.onSide side f g).intake other = fifos.intake other := by
  cases side with
  | source =>
    cases other with
    | source => exact absurd rfl h
    | dest => rfl
  | dest =>
    cases other with
    | source => rfl
    | dest => exact absurd rfl h

theorem lane_onSide_of_ne (h : other ≠ side) :
    (fifos.onSide side f g).gauges.lane other = fifos.gauges.lane other := by
  cases side with
  | source =>
    cases other with
    | source => exact absurd rfl h
    | dest => rfl
  | dest =>
    cases other with
    | source => rfl
    | dest => exact absurd rfl h

/-- What a change of one side keeps of its descriptors is kept on both sides. -/
theorem part_onSide {α : Type} (part : Intake → α) (h : ∀ intake, part (g intake) = part intake) :
    part ((fifos.onSide side f g).intake other) = part (fifos.intake other) := by
  by_cases hother : other = side
  · rw [hother, intake_onSide_self, h]
  · rw [intake_onSide_of_ne _ _ _ hother]

end Sides

variable {fifos mid fifos' : DescriptorFifos} {side : Side}

/-- The other side shows what it showed. -/
theorem Exact.onSide (h : fifos.Exact) {f : Lane → Lane} {g : Intake → Intake}
    (hside : (f (fifos.gauges.lane side)).Shows fifos.gauges.capacity (g (fifos.intake side))) :
    (fifos.onSide side f g).Exact := by
  intro other
  rw [capacity_onSide]
  by_cases hother : other = side
  · rw [hother, lane_onSide_self, intake_onSide_self]
    exact hside
  · rw [lane_onSide_of_ne _ _ _ hother, intake_onSide_of_ne _ _ _ hother]
    exact h other

/-! ## What the device side leaves alone -/

/-- No descriptor has entered or was lost since, though some may have been taken out. -/
structure Drifts (fifos fifos' : DescriptorFifos) : Prop where
  capacity : fifos'.gauges.capacity = fifos.gauges.capacity
  latch : ∀ side, (fifos'.intake side).latch = (fifos.intake side).latch
  arrived : ∀ side, (fifos'.intake side).arrived = (fifos.intake side).arrived
  lost : ∀ side, (fifos'.intake side).lost = (fifos.intake side).lost
  fewer : ∀ side, (fifos'.intake side).waiting.length ≤ (fifos.intake side).waiting.length
  exact : fifos.Exact → fifos'.Exact

theorem Drifts.refl (fifos : DescriptorFifos) : Drifts fifos fifos :=
  ⟨rfl, fun _ => rfl, fun _ => rfl, fun _ => rfl, fun _ => Nat.le_refl _, id⟩

theorem Drifts.trans (h : Drifts fifos mid) (h' : Drifts mid fifos') : Drifts fifos fifos' := by
  constructor
  case capacity => rw [h'.capacity, h.capacity]
  case latch => exact fun side => (h'.latch side).trans (h.latch side)
  case arrived => exact fun side => (h'.arrived side).trans (h.arrived side)
  case lost => exact fun side => (h'.lost side).trans (h.lost side)
  case fewer => exact fun side => Nat.le_trans (h'.fewer side) (h.fewer side)
  case exact => exact fun hexact => h'.exact (h.exact hexact)

/-- Nothing that entered is taken back. -/
theorem Drifts.taken_le (h : Drifts fifos fifos') (side : Side) :
    (fifos.intake side).taken.length ≤ (fifos'.intake side).taken.length := by
  have harrived := congrArg List.length (h.arrived side)
  have hfewer := h.fewer side
  simp only [Intake.arrived, List.length_append] at harrived
  omega

/-- For a change of one side that side alone has to be looked at. -/
theorem drifts_onSide (fifos : DescriptorFifos) (side : Side) (f : Lane → Lane)
    (g : Intake → Intake) (hlatch : ∀ intake, (g intake).latch = intake.latch)
    (harrived : ∀ intake, (g intake).arrived = intake.arrived)
    (hlost : ∀ intake, (g intake).lost = intake.lost)
    (hfewer : ∀ intake, (g intake).waiting.length ≤ intake.waiting.length)
    (hshows : ∀ {lane capacity intake}, Lane.Shows lane capacity intake →
      (f lane).Shows capacity (g intake)) : Drifts fifos (fifos.onSide side f g) := by
  constructor
  case capacity => exact capacity_onSide ..
  case latch => exact fun other => part_onSide fifos f g Intake.latch hlatch
  case arrived => exact fun other => part_onSide fifos f g Intake.arrived harrived
  case lost => exact fun other => part_onSide fifos f g Intake.lost hlost
  case fewer =>
    intro other
    by_cases hother : other = side
    · rw [hother, intake_onSide_self]
      exact hfewer _
    · exact Nat.le_of_eq (congrArg (·.waiting.length) (intake_onSide_of_ne _ _ _ hother))
  case exact => exact fun hexact => hexact.onSide (hshows (hexact side))

/-- What the device side does to the depth register of a FIFO alone. -/
theorem drifts_onSide_id (fifos : DescriptorFifos) (side : Side) (f : Lane → Lane)
    (hshows : ∀ {lane capacity intake}, Lane.Shows lane capacity intake →
      (f lane).Shows capacity intake) : Drifts fifos (fifos.onSide side f id) :=
  drifts_onSide fifos side f id (fun _ => rfl) (fun _ => rfl) (fun _ => rfl)
    (fun _ => Nat.le_refl _) hshows

theorem drifts_apply (tick : Tick) (fifos : DescriptorFifos) : Drifts fifos (tick.apply fifos) := by
  cases tick with
  | take side count =>
    exact drifts_onSide fifos side (·.consumed count) (·.consumed count.toNat) (fun _ => rfl)
      (fun intake => intake.arrived_consumed _) (fun _ => rfl)
      (fun intake => intake.length_waiting_consumed_le _) (·.consumed count)
  | drain =>
    -- To empty both FIFOs is to empty one after the other.
    have hone : ∀ (fifos : DescriptorFifos) side, Drifts fifos (fifos.onSide side
        (fun lane => { lane with depth := 0 })
        (fun intake => intake.consumed intake.waiting.length)) :=
      fun fifos side => drifts_onSide fifos side _ _ (fun _ => rfl)
        (fun intake => intake.arrived_consumed _) (fun _ => rfl)
        (fun intake => intake.length_waiting_consumed_le _) (·.drained)
    exact (hone fifos .source).trans (hone _ .dest)
  | force side full =>
    exact drifts_onSide_id fifos side _ fun h => ⟨h.script, h.depth, h.room, h.lost⟩

theorem drifts_advance (fifos : DescriptorFifos) : Drifts fifos fifos.advance := by
  unfold advance
  cases hagenda : fifos.agenda with
  | nil => exact .refl fifos
  | cons ticks rest =>
    have hshorter : Drifts fifos { fifos with agenda := rest } :=
      ⟨rfl, fun _ => rfl, fun _ => rfl, fun _ => rfl, fun _ => Nat.le_refl _, id⟩
    simp only
    clear hagenda
    generalize { fifos with agenda := rest } = begin at hshorter ⊢
    induction ticks generalizing begin with
    | nil => exact hshorter
    | cons tick later ih => exact ih _ (hshorter.trans (drifts_apply tick begin))

/-! ## No access fails -/

theorem sample_ok (fifos : DescriptorFifos) :
    ∃ depths fifos' events, Registers.sample fifos = ⟨.ok depths, fifos', events⟩ :=
  ⟨_, _, _, rfl⟩

theorem push_ok (side : Side) (d : Descriptor) (fifos : DescriptorFifos) :
    ∃ fifos' events, Registers.push side d fifos = ⟨.ok (), fifos', events⟩ := by
  cases side <;> exact ⟨_, _, rfl⟩

/-! ## Reading the depths -/

theorem load_depth (fifos : DescriptorFifos) (side : Side) :
    Registers.load side.depthOffset fifos =
      ⟨.ok ((fifos.advance.gauges.lane side).reported fifos.advance.gauges.capacity),
        fifos.advance.onSide side Lane.afterRead id, []⟩ := by
  cases side <;> rfl

/-- A read reports the capacity or how many descriptors wait. -/
theorem read_depth {depth : UInt32} {events : List Event}
    (h : Registers.read side.depthOffset fifos = ⟨.ok depth, fifos', events⟩)
    (hexact : fifos.Exact) :
    Drifts fifos fifos' ∧
      (depth = fifos'.gauges.capacity ∨ depth.toNat = (fifos'.intake side).waiting.length) := by
  obtain ⟨depth', mid, _, _, hload, h₁, -⟩ := Act.bind_eq_ok_iff.1 h
  obtain ⟨_, hpure, -⟩ := Act.emit_bind_eq_ok_iff.1 h₁
  obtain ⟨rfl, rfl, -⟩ := Act.pure_eq_ok_iff.1 hpure
  obtain ⟨_, hload, -⟩ := Act.mapEvents_eq_ok_iff.1 hload
  rw [load_depth] at hload
  simp only [Outcome.mk.injEq, Except.ok.injEq] at hload
  obtain ⟨rfl, rfl, -⟩ := hload
  have hadvance := drifts_advance fifos
  have hread := drifts_onSide_id fifos.advance side _ Lane.Shows.afterRead
  refine ⟨hadvance.trans hread, ?_⟩
  rw [capacity_onSide, intake_onSide_self]
  exact (hadvance.exact hexact side).reported

/-- A side that does not read full has room, and no more descriptors wait in it than it read. -/
theorem room_of_sample {depths : Depths} {events : List Event}
    (h : Registers.sample fifos = ⟨.ok depths, fifos', events⟩) (hexact : fifos.Exact) :
    Drifts fifos fifos' ∧ ∀ side, depths.of side ≠ fifos.gauges.capacity →
      (fifos'.intake side).waiting.length ≤ (depths.of side).toNat ∧
        (depths.of side).toNat < fifos.gauges.capacity.toNat := by
  obtain ⟨source, fifos₁, _, _, hsource, h₁, -⟩ := Act.bind_eq_ok_iff.1 h
  obtain ⟨dest, fifos₂, _, _, hdest, hpure, -⟩ := Act.bind_eq_ok_iff.1 h₁
  obtain ⟨rfl, rfl, -⟩ := Act.pure_eq_ok_iff.1 hpure
  obtain ⟨hfirst, hsourceDepth⟩ := read_depth hsource hexact
  obtain ⟨hsecond, hdestDepth⟩ := read_depth hdest (hfirst.exact hexact)
  have hstrict : ∀ depth : UInt32, depth ≠ fifos.gauges.capacity →
      depth.toNat ≤ fifos.gauges.capacity.toNat → depth.toNat < fifos.gauges.capacity.toNat :=
    fun depth hne hle => Nat.lt_of_le_of_ne hle fun heq => hne (UInt32.toNat_inj.1 heq)
  refine ⟨hfirst.trans hsecond, fun side hroom => ?_⟩
  cases side
  case source =>
    have hwaits := hsourceDepth.resolve_left fun hfull => hroom (hfull.trans hfirst.capacity)
    have hle := (hfirst.exact hexact .source).room
    rw [← hwaits, hfirst.capacity] at hle
    -- Between the two reads descriptors can only have been taken out.
    have hfewer := hsecond.fewer .source
    rw [← hwaits] at hfewer
    exact ⟨hfewer, hstrict _ hroom hle⟩
  case dest =>
    have hcapacity := (hfirst.trans hsecond).capacity
    have hwaits := hdestDepth.resolve_left fun hfull => hroom (hfull.trans hcapacity)
    have hle := (hsecond.exact (hfirst.exact hexact) .dest).room
    rw [← hwaits, hcapacity] at hle
    exact ⟨Nat.le_of_eq hwaits.symm, hstrict _ hroom hle⟩

/-! ## Writing a descriptor -/

theorem store_low (fifos : DescriptorFifos) (side : Side) (value : UInt32) :
    Registers.store side.lowOffset value fifos =
      ⟨.ok (), fifos.advance.onSide side id fun intake => { intake with latch := value }, []⟩ := by
  cases side <;> rfl

theorem store_high (fifos : DescriptorFifos) (side : Side) (value : UInt32) :
    Registers.store side.highOffset value fifos =
      ⟨.ok (), fifos.advance.onSide side (·.pushed fifos.advance.gauges.capacity)
        (·.entered (fifos.advance.hasRoom side) value), []⟩ := by
  cases side <;> rfl

/-- A descriptor is handed over in two writes, and the device side has its turn before each. -/
theorem push_eq_ok {d : Descriptor} {events : List Event}
    (h : Registers.push side d fifos = ⟨.ok (), fifos', events⟩) :
    ∃ low high, Drifts fifos low ∧
      Drifts (low.onSide side id fun intake => { intake with latch := d.low }) high ∧
      fifos' = high.onSide side (·.pushed high.gauges.capacity)
        (·.entered (high.hasRoom side) d.high) := by
  obtain ⟨_, _, _, _, hlow, hhigh, -⟩ := Act.bind_eq_ok_iff.1 h
  obtain ⟨_, hlow⟩ := Registers.write_eq_ok hlow
  obtain ⟨_, hhigh⟩ := Registers.write_eq_ok hhigh
  rw [store_low] at hlow
  rw [store_high] at hhigh
  simp only [Outcome.mk.injEq, true_and] at hlow hhigh
  obtain ⟨rfl, -⟩ := hlow
  obtain ⟨rfl, -⟩ := hhigh
  exact ⟨_, _, drifts_advance _, drifts_advance _, rfl⟩

/-- The low half changes the latch only. -/
theorem part_latched {α : Type} (fifos : DescriptorFifos) (side other : Side) {value : UInt32}
    (part : Intake → α) (h : ∀ intake : Intake, part { intake with latch := value } = part intake) :
    part ((fifos.onSide side id fun intake => { intake with latch := value }).intake other) =
      part (fifos.intake other) :=
  part_onSide fifos id _ part h

theorem Exact.latched (h : fifos.Exact) (side : Side) (value : UInt32) :
    (fifos.onSide side id fun intake => { intake with latch := value }).Exact := by
  have hside := h side
  exact h.onSide ⟨hside.script, hside.depth, hside.room, hside.lost⟩

/-- Where there is room, the high half makes the descriptor of the latch enter. -/
theorem Exact.entered {d : Descriptor} (h : fifos.Exact)
    (hroom : (fifos.intake side).waiting.length < fifos.gauges.capacity.toNat)
    (hlatch : (fifos.intake side).latch = d.low) :
    let fifos' := fifos.onSide side (·.pushed fifos.gauges.capacity)
      (·.entered (fifos.hasRoom side) d.high)
    fifos'.Exact ∧ ∀ other, (fifos'.intake other).taken = (fifos.intake other).taken ∧
      (fifos'.intake other).arrived =
        (fifos.intake other).arrived ++ if side = other then [d] else [] := by
  have hdepth : fifos.hasRoom side = true := by
    rw [hasRoom, decide_eq_true_eq, UInt32.lt_iff_toNat_lt, (h side).depth]
    exact hroom
  rw [hdepth]
  refine ⟨h.onSide ((h side).pushed hroom d.high), fun other => ?_⟩
  by_cases hother : other = side
  · subst hother
    rw [intake_onSide_self, if_pos rfl, Intake.arrived_entered, hlatch,
      Descriptor.ofHalves_low_high]
    exact ⟨rfl, rfl⟩
  · rw [intake_onSide_of_ne _ _ _ hother, if_neg (Ne.symm hother), List.append_nil]
    exact ⟨rfl, rfl⟩

/-- The descriptors have entered, in this order and no others, and none was lost. -/
structure Fills (fifos fifos' : DescriptorFifos) (pushed : List (Side × Descriptor)) : Prop where
  exact : fifos'.Exact
  capacity : fifos'.gauges.capacity = fifos.gauges.capacity
  taken_le : ∀ side, (fifos.intake side).taken.length ≤ (fifos'.intake side).taken.length
  arrived : ∀ side, (fifos'.intake side).arrived = (fifos.intake side).arrived ++ side.part pushed

theorem Drifts.fills (h : Drifts fifos fifos') (hexact : fifos.Exact) : Fills fifos fifos' [] := by
  constructor
  case exact => exact h.exact hexact
  case capacity => exact h.capacity
  case taken_le => exact h.taken_le
  case arrived =>
    intro side
    rw [h.arrived]
    exact (List.append_nil _).symm

theorem Fills.trans {pushed pushed' : List (Side × Descriptor)} (h : Fills fifos mid pushed)
    (h' : Fills mid fifos' pushed') : Fills fifos fifos' (pushed ++ pushed') := by
  constructor
  case exact => exact h'.exact
  case capacity => rw [h'.capacity, h.capacity]
  case taken_le => exact fun side => Nat.le_trans (h.taken_le side) (h'.taken_le side)
  case arrived =>
    intro side
    rw [h'.arrived, h.arrived, Side.part_append, List.append_assoc]

/-- A descriptor that is handed to a side with room enters there. -/
theorem fills_of_push {d : Descriptor} {events : List Event}
    (h : Registers.push side d fifos = ⟨.ok (), fifos', events⟩) (hexact : fifos.Exact)
    (hroom : (fifos.intake side).waiting.length < fifos.gauges.capacity.toNat) :
    Fills fifos fifos' [(side, d)] := by
  obtain ⟨low, high, hlow, hhigh, rfl⟩ := push_eq_ok h
  have hcapacity : high.gauges.capacity = fifos.gauges.capacity := by
    rw [hhigh.capacity, capacity_onSide, hlow.capacity]
  -- Until the high half is written, descriptors can only have been taken out.
  have hstill : (high.intake side).waiting.length < high.gauges.capacity.toNat := by
    have hfewer := hhigh.fewer side
    rw [part_latched low side side Intake.waiting fun _ => rfl] at hfewer
    have hbefore := hlow.fewer side
    rw [hcapacity]
    omega
  have hlatch : (high.intake side).latch = d.low := by
    rw [hhigh.latch, intake_onSide_self]
  have hhighExact := hhigh.exact ((hlow.exact hexact).latched side d.low)
  obtain ⟨hexact', hentered⟩ := hhighExact.entered hstill hlatch
  constructor
  case exact => exact hexact'
  case capacity => rw [capacity_onSide, hcapacity]
  case taken_le =>
    intro other
    have hfirst := hlow.taken_le other
    have hsecond := hhigh.taken_le other
    rw [part_latched low side other Intake.taken fun _ => rfl] at hsecond
    rw [(hentered other).1]
    omega
  case arrived =>
    intro other
    rw [(hentered other).2, hhigh.arrived,
      part_latched low side other Intake.arrived fun _ => rfl, hlow.arrived, Side.part_singleton]

end DescriptorFifos

end DmaQueue
