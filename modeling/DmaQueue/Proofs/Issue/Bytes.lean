/-
  DmaQueue.Proofs.Issue.Bytes

  What the descriptors of a transfer say, over a region table whose regions end
  within the reach of the address field: chunk after chunk, exactly the bytes of
  the two ranges that the request names (`Faithful.describes`).  No descriptor
  fails to be packed on the way, so the engine faults only if the control block
  does.
-/
import DmaQueue.Proofs.Issue.Packing
import DmaQueue.Proofs.Issue.Streams

namespace DmaQueue

/-! ## Describing a transfer -/

namespace Transfer

open Extent (edge)

/-- The descriptors handed to a side, in the order of writing. -/
def handed (side : Side) (block : List (Side × Descriptor)) : List Descriptor :=
  (block.filter (·.1 == side)).map (·.2)

/-- The physical addresses of the bytes that a descriptor names. -/
def bytes (d : Descriptor) : List Nat :=
  List.range' d.address.toNat d.length

/-- The block describes the transfer: on each side its descriptors name, one after the other, the
bytes of the requested range, translated by the regions. -/
structure Describes (regions : List Region) (t : Transfer) (block : List (Side × Descriptor)) :
    Prop where
  output : Request.outputLength t.request.opcode t.request.attr t.request.length =
    some t.outputLength
  bytes : ∀ side, ((handed side block).flatMap bytes).map some =
    (List.range' (t.addr side) (t.size side)).map (Region.translate regions)
  length : ∀ side, ∀ d ∈ handed side block, 1 ≤ d.length ∧ d.length ≤ Page.standardSize.toNat
  page : ∀ side, ∀ d ∈ handed side block,
    d.address.toNat / Page.standardSize.toNat =
      (d.address.toNat + d.length - 1) / Page.standardSize.toNat
  isLast : ∀ side i d, (handed side block)[i]? = some d →
    (d.isLast = true ↔ side = .source ∧ i + 1 = (handed side block).length)
  opcode : ∀ side i d, (handed side block)[i]? = some d →
    d.opcode = if i = 0 then (t.request.opcode.toInt % 8).toNat else 0
  attr : ∀ side i d, (handed side block)[i]? = some d →
    d.attr = if i = 0 then (t.request.attr.toInt % 256).toNat else 0

/-- The descriptor, if it could be packed. -/
def packed? : Side × Except Fault Descriptor → Option (Side × Descriptor)
  | (side, .ok d) => some (side, d)
  | (_, .error _) => none

/-- The descriptors of the stream that could be packed. -/
def block (t : Transfer) (pageSize : UInt64) : List (Side × Descriptor) :=
  (t.stream pageSize).filterMap packed?

theorem filterMap_packed? (pushed : List (Side × Descriptor)) :
    (pushed.map fun push => (push.1, Except.ok push.2)).filterMap packed? = pushed := by
  induction pushed with
  | nil => rfl
  | cons push rest ih =>
    rw [List.map_cons, List.filterMap_cons]
    exact congrArg (push :: ·) ih

/-- The descriptors of a side, in a block whose descriptors are those of the given chunks. -/
theorem map_handed {block : List (Side × Descriptor)} {chunks : List (Side × Nat)}
    {f : Side → Nat → Except Fault Descriptor}
    (h : block.map (fun push => (push.1, Except.ok push.2)) =
      chunks.map (fun chunk => (chunk.1, f chunk.1 chunk.2))) (side : Side) :
    (handed side block).map Except.ok =
      ((chunks.filter (·.1 == side)).map (·.2)).map (f side) := by
  induction chunks generalizing block with
  | nil =>
    rw [List.map_nil, List.map_eq_nil_iff] at h
    rw [h]
    rfl
  | cons chunk rest ih =>
    cases block with
    | nil => simp at h
    | cons push later =>
      simp only [List.map_cons, List.cons.injEq, Prod.mk.injEq] at h
      obtain ⟨⟨hside, hd⟩, hrest⟩ := h
      have hlater := ih hrest
      unfold handed at hlater ⊢
      -- The sides agree, so the filter keeps both heads or drops both.
      by_cases hmatch : chunk.1 == side
      · have hpush : (push.1 == side) = true := by rw [hside, hmatch]
        have hf : f chunk.1 = f side := congrArg f (eq_of_beq hmatch)
        simp only [List.filter_cons, hpush, hmatch, ↓reduceIte, List.map_cons, hlater, hd, hf]
      · have hpush : (push.1 == side) = false := by
          rw [hside]
          exact Bool.eq_false_iff.2 hmatch
        simpa only [List.filter_cons, hpush, hmatch, Bool.false_eq_true, ↓reduceIte] using hlater

variable {regions : List Region} {t : Transfer}

theorem Faithful.paged (h : t.Faithful regions) : t.Paged := by
  have hpages : ∀ side, 1 ≤ (t.range side).pageCount := by
    intro side
    rw [(h.placed side).pageCount_eq]
    exact Nat.le_add_left 1 _
  exact ⟨hpages .source, hpages .dest⟩

theorem pageCount_range (t : Transfer) (side : Side) :
    (t.range side).pageCount =
      Progress.chunkCount t.source.pageCount t.dest.pageCount side := by
  cases side <;> rfl

/-- Every descriptor of a faithful transfer can be packed. -/
theorem Faithful.map_block (h : t.Faithful regions)
    (hbelow : RegionTable.Below 0x4_0000_0000 regions) :
    (t.block Page.standardSize).map (fun push => (push.1, Except.ok push.2)) =
      t.stream Page.standardSize := by
  have hpacked : ∀ chunk ∈ Progress.order t.source.pageCount t.dest.pageCount,
      ∃ d, t.descriptor Page.standardSize chunk.1 chunk.2 = .ok d := by
    rintro ⟨side, index⟩ hchunk
    have hindex : index ∈ ((Progress.order t.source.pageCount t.dest.pageCount).filter
        (·.1 == side)).map (·.2) :=
      List.mem_map.2 ⟨(side, index), List.mem_filter.2 ⟨hchunk, beq_self_eq_true side⟩, rfl⟩
    rw [Progress.filter_order h.paged.source h.paged.dest] at hindex
    have hlt : index < (t.range side).pageCount := by
      rw [pageCount_range]
      exact List.mem_range.1 hindex
    obtain ⟨d, hd, -⟩ := h.descriptor hbelow hlt
    exact ⟨d, hd⟩
  unfold block
  rw [stream_eq_map_order]
  generalize Progress.order t.source.pageCount t.dest.pageCount = chunks at hpacked
  induction chunks with
  | nil => rfl
  | cons chunk rest ih =>
    obtain ⟨d, hd⟩ := hpacked chunk (List.mem_cons_self ..)
    have hrest := ih fun c hc => hpacked c (List.mem_cons_of_mem _ hc)
    rw [List.map_cons, List.filterMap_cons, hd]
    exact congrArg ((chunk.1, Except.ok d) :: ·) hrest

/-- The descriptors of a side are those of its chunks, in the order of their numbers. -/
theorem Faithful.map_handed (h : t.Faithful regions)
    (hbelow : RegionTable.Below 0x4_0000_0000 regions) (side : Side) :
    (handed side (t.block Page.standardSize)).map Except.ok =
      (List.range (t.range side).pageCount).map (t.descriptor Page.standardSize side) := by
  have hstream := h.map_block hbelow
  rw [stream_eq_map_order] at hstream
  rw [Transfer.map_handed hstream side, Progress.filter_order h.paged.source h.paged.dest,
    ← pageCount_range]

theorem Faithful.length_handed (h : t.Faithful regions)
    (hbelow : RegionTable.Below 0x4_0000_0000 regions) (side : Side) :
    (handed side (t.block Page.standardSize)).length = (t.range side).pageCount := by
  have hmap := congrArg List.length (h.map_handed hbelow side)
  simpa only [List.length_map, List.length_range] using hmap

/-- The descriptor in position `i` of a side carries its chunk number `i`. -/
theorem Faithful.carries_handed (h : t.Faithful regions)
    (hbelow : RegionTable.Below 0x4_0000_0000 regions) {side : Side} {i : Nat} {d : Descriptor}
    (hd : (handed side (t.block Page.standardSize))[i]? = some d) :
    t.Carries regions side i d := by
  have hi : i < (t.range side).pageCount := by
    rw [← h.length_handed hbelow]
    exact (List.getElem?_eq_some_iff.1 hd).1
  obtain ⟨d', hd', hcarries⟩ := h.descriptor hbelow hi
  have hmap := congrArg (·[i]?) (h.map_handed hbelow side)
  simp only [List.getElem?_map, hd, List.getElem?_range hi, Option.map_some, hd',
    Option.some.injEq, Except.ok.injEq] at hmap
  exact hmap ▸ hcarries

/-- The block of a faithful transfer describes it. -/
theorem Faithful.describes (h : t.Faithful regions)
    (hbelow : RegionTable.Below 0x4_0000_0000 regions) :
    t.Describes regions (t.block Page.standardSize) := by
  have hlength := h.length_handed hbelow
  have hmem : ∀ {side d}, d ∈ handed side (t.block Page.standardSize) →
      ∃ i, t.Carries regions side i d := by
    intro side d hd
    obtain ⟨i, hi⟩ := List.mem_iff_getElem?.1 hd
    exact ⟨i, h.carries_handed hbelow hi⟩
  constructor
  case output => exact h.output
  case bytes =>
    intro side
    rw [← (h.placed side).flatMap_pieces, List.map_flatMap, List.flatMap_def, List.flatMap_def]
    congr 1
    apply List.ext_getElem (by simp [hlength])
    intro i hi _
    rw [List.length_map] at hi
    simp only [List.getElem_map, List.getElem_range]
    exact (h.carries_handed hbelow (List.getElem?_eq_getElem hi)).bytes
  case length =>
    intro side d hd
    obtain ⟨i, hd⟩ := hmem hd
    exact ⟨hd.length_pos, hd.length_le⟩
  case page =>
    intro side d hd
    obtain ⟨i, hd⟩ := hmem hd
    exact hd.page
  case isLast =>
    intro side i d hd
    rw [(h.carries_handed hbelow hd).isLast, hlength]
    cases side with
    | source => simp [Transfer.range]
    | dest => simp
  case opcode => exact fun side i d hd => (h.carries_handed hbelow hd).opcode
  case attr => exact fun side i d hd => (h.carries_handed hbelow hd).attr

end Transfer

/-! ## Histories over a region table -/

namespace Engine

variable {R : Type} {start engine : Engine RegionTable R} {accepted reclaimed : List Transfer}
  {events : List Event}

/-- Every transfer that was queued is faithful. -/
theorem faithful_of_moves [Registers R] {device : (R → R) → Prop}
    (hmoves : Moves device start accepted reclaimed events engine) (hconfig : start.config.Sound)
    (hsize : start.config.pageSize = Page.standardSize)
    (halignment : 64 ≤ start.config.alignment.toNat) :
    ∀ t ∈ accepted, t.Faithful start.pinner.regions := by
  intro t ht
  obtain ⟨request, admitted, table, _, source, dest, hregions, hadmitted, hpins, hwhole, rfl⟩ :=
    queueable_of_moves hmoves t ht
  rw [← hregions]
  exact Transfer.faithful_ofAdmitted hconfig hsize halignment hadmitted hpins hwhole

/-- The pushed descriptors are the blocks of the transfers that left the queue, and what is begun of
the block of the oldest one in it. -/
theorem Issued.blocks {pushed : List (Side × Descriptor)} (h : Issued reclaimed engine pushed)
    (hsize : engine.config.pageSize = Page.standardSize) :
    ∃ rest, pushed =
        ((reclaimed ++ engine.inFlight).map Transfer.fresh).flatMap
          (·.block Page.standardSize) ++ rest ∧
      rest <+: (engine.pending.take 1).flatMap (·.block Page.standardSize) := by
  unfold Issued at h
  rw [hsize] at h
  have hpacked := congrArg (·.filterMap Transfer.packed?) h
  simp only [Transfer.filterMap_packed?, List.filterMap_append, List.filterMap_flatMap] at hpacked
  refine ⟨(begun Page.standardSize engine.pending).filterMap Transfer.packed?, ?_, ?_⟩
  · rw [List.flatMap_map]
    exact hpacked
  · cases engine.pending with
    | nil => exact List.prefix_refl _
    | cons t rest =>
      rw [List.take_succ_cons, List.take_zero, List.flatMap_singleton]
      exact (List.take_prefix t.written (t.stream Page.standardSize)).filterMap _

/-! ## The descriptors describe exactly the requested bytes -/

variable [Registers R]

/-- Take a table built from regions that end below 2 to the power of 34, with any references, dirty
pages and limit, and an engine over it with an alignment of at least 64.  Then a history faults only
if the control block does, so every descriptor could be packed.  If the history answers, the
register writes are those of descriptors that are cut into one block for each transfer that left the
queue, and what is begun of the block of the oldest transfer in it; and the block of each accepted
transfer describes it. -/
theorem described_of_play {config : Config} {pinner built : RegionTable} {registers : R}
    {notes tableNotes : List Note} {regions : List Region} {start : Engine RegionTable R}
    {calls : List (Call R)}
    (hbuilt : RegionTable.addRegions regions RegionTable.empty = ⟨.ok (.ok ()), built, tableNotes⟩)
    (htop : ∀ r ∈ built.regions, r.phys.toNat + r.size.toNat ≤ 0x4_0000_0000)
    (hpinner : pinner.regions = built.regions) (halignment : 64 ≤ config.alignment)
    (hcreate : create config pinner registers = (notes, .ok start)) :
    (∀ fault, (play calls start).result = .error fault → Registers.Raises R fault) ∧
    ∀ final log, play calls start = ⟨.ok (), final, log⟩ →
      (queuedTransfers config log).map Transfer.request = log.filterMap Exchange.accepted? ∧
        ∃ (done : List Transfer) (pushed rest : List (Side × Descriptor))
          (block : Transfer → List (Side × Descriptor)),
          queuedTransfers config log = done ++ final.pending.map Transfer.fresh ∧
          Event.writes (record log) = pushed.flatMap halves ∧
          pushed = done.flatMap block ++ rest ∧
          rest <+: (final.pending.take 1).flatMap block ∧
          ∀ t ∈ queuedTransfers config log, t.Describes built.regions (block t) := by
  obtain ⟨hflaw, hgranule, rfl⟩ := create_eq_ok hcreate
  have hconfig := Config.sound_of_flaw? hflaw
  have hsize : config.pageSize = Page.standardSize := hgranule.symm
  have halign : 64 ≤ config.alignment.toNat := UInt64.le_iff_toNat_le.1 halignment
  obtain ⟨husable, hregions⟩ := RegionTable.addRegions_eq_ok hbuilt
  have hbelow : RegionTable.Below 0x4_0000_0000 pinner.regions := by
    rw [hpinner]
    intro r hr
    refine ⟨husable r ?_, htop r hr⟩
    rwa [hregions] at hr
  have hwide := hbelow.mono (show 0x4_0000_0000 ≤ UInt64.size by decide)
  constructor
  · intro fault hfault
    rcases fault_of_play (RegionTable.steady hwide) rfl hfault with
      hraises | ⟨request, hover⟩ | hstuck
    · exact hraises
    · exact absurd hover (not_overflows hconfig hsize)
    · exact absurd hstuck (not_stuck hconfig hsize halign hbelow rfl rfl)
  · intro final log hplay
    obtain ⟨⟨reclaimed, hmoves⟩, hrequests⟩ := moves_of_play hplay
    have hbooks := books_of_moves hmoves hconfig rfl rfl
    have horder := hbooks.order
    rw [List.map_append] at horder
    obtain ⟨pushed, hissued, hwrites⟩ := issued_of_moves hmoves hconfig rfl rfl
    obtain ⟨rest, hpushed, hrest⟩ := hissued.blocks (hmoves.config_eq ▸ hsize)
    refine ⟨hrequests, _, pushed, rest, (·.block Page.standardSize), horder, ?_, hpushed, hrest, ?_⟩
    · rw [← Event.writes_deeds, hwrites]
    · intro t ht
      rw [← hpinner]
      exact (faithful_of_moves hmoves hconfig hsize halign t ht).describes hbelow

/-- The small history writes eleven descriptors, of two transfers, the first of which crosses from
one region to another and is reclaimed. -/
theorem described_of_smallHistory :
    let final := (play smallHistory smallEngine).state
    let log := (play smallHistory smallEngine).events
    final.pending = [] ∧ final.inFlight.length = 1 ∧
      ∃ (done : List Transfer) (pushed rest : List (Side × Descriptor))
        (block : Transfer → List (Side × Descriptor)),
        done.length = 2 ∧ pushed.length = 11 ∧
        queuedTransfers smallEngine.config log = done ++ final.pending.map Transfer.fresh ∧
        Event.writes (record log) = pushed.flatMap halves ∧
        pushed = done.flatMap block ++ rest ∧
        rest <+: (final.pending.take 1).flatMap block ∧
        ∀ t ∈ queuedTransfers smallEngine.config log, t.Describes smallTable.regions (block t) := by
  intro final log
  have hbuilt : RegionTable.addRegions smallTable.regions RegionTable.empty =
      ⟨.ok (.ok ()), smallTable, []⟩ := by
    rfl
  have hpending : final.pending = [] := by decide +kernel
  have hwritten : (Event.writes (record log)).length = 22 := by decide +kernel
  have haccepted : (queuedTransfers smallEngine.config log).length = 2 := by decide +kernel
  obtain ⟨-, hdescribed⟩ := described_of_play hbuilt (by decide) rfl (by decide) create_smallEngine
  obtain ⟨-, done, pushed, rest, block, horder, hwrites, hpushed, hrest, hblocks⟩ :=
    hdescribed _ _ play_smallHistory
  rw [hwrites, length_flatMap_halves] at hwritten
  rw [horder, List.length_append, List.length_map, hpending] at haccepted
  exact ⟨hpending, by decide +kernel, done, pushed, rest, block, haccepted, by omega, horder,
    hwrites, hpushed, hrest, hblocks⟩

end Engine

end DmaQueue
