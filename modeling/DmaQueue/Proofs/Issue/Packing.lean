/-
  DmaQueue.Proofs.Issue.Packing

  Histories over a region table that fault at a descriptor.  A submission queues
  a transfer without looking at where its pages lie, so the fault comes only
  when the descriptor is to be written, after the transfer was counted.  The
  length of a chunk never is the reason; its address is, exactly if the transfer
  is not `Addressable` (`packing_of_play`).
-/
import DmaQueue.Proofs.Engine.Books
import DmaQueue.Proofs.Engine.Faults
import DmaQueue.Proofs.Pinner.Walk
import DmaQueue.Proofs.Request.Conditions
import DmaQueue.Proofs.Transfer.Packing

namespace DmaQueue

/-! ## Region tables raise no other fault than an overflow -/

namespace RegionTable

variable {regions : List Region} {fault : Fault}

/-- Calls on a table leave its regions as they are; a release always answers. -/
theorem steady_of_pin
    (hpin : ∀ {table : RegionTable} (address length : UInt64) (writable : Bool),
      table.regions = regions → (pin address length writable table).result ≠ .error fault) :
    Pinner.Steady (fun table : RegionTable => table.regions = regions) fault := by
  constructor
  case pin => exact hpin
  case unpin =>
    intro table page dirty _
    obtain ⟨_, _, hunpin, -⟩ := unpin_answers page dirty table
    rw [show Pinner.unpin page dirty table = _ from hunpin]
    simp
  case pinned =>
    rintro table _ _ _ _ _ _ rfl h
    rw [(pin_eq_ok h).table_eq]
    rfl
  case unpinned =>
    rintro table _ page dirty _ rfl h
    exact (called_of_unpin h).regions

theorem steady (hbelow : Below UInt64.size regions) :
    Pinner.Steady (fun table : RegionTable => table.regions = regions) fault :=
  steady_of_pin fun address length _ h => pin_ne_error (h ▸ hbelow) address length

theorem steady_of_ne_overflow (hfault : fault ≠ .overflow) :
    Pinner.Steady (fun table : RegionTable => table.regions = regions) fault :=
  steady_of_pin fun _ _ _ _ h => hfault (strays_of_pin h).1

end RegionTable

namespace Engine

/-! ## Transfers that can be queued -/

/-- The transfer is that of a request which the configuration lets in and whose pages all came back
from a table with these regions. -/
def Queueable (config : Config) (regions : List Region) (t : Transfer) : Prop :=
  ∃ (request : Request) (admitted : Admitted) (table table' : RegionTable)
    (source dest : List PinnedPage), table.regions = regions ∧
    request.admission config = .ok (.ok admitted) ∧
    PinsBoth request admitted table source dest table' ∧ Whole admitted source dest ∧
    t = .ofAdmitted request admitted source dest

variable {config : Config} {regions : List Region} {t : Transfer} {fault : Fault}

theorem Queueable.placed (h : Queueable config regions t) (hconfig : config.Sound)
    (hsize : config.pageSize = Page.standardSize) (side : Side) :
    (t.range side).Placed regions (t.addr side) (t.size side) := by
  obtain ⟨_, _, _, _, _, _, rfl, hadmitted, hpins, hwhole, rfl⟩ := h
  exact Transfer.placed_ofAdmitted hconfig hsize hadmitted hpins hwhole side

/-- With an alignment of at least 64 and regions within the reach of the address field, what can be
queued is addressable. -/
theorem Queueable.addressable (h : Queueable config regions t) (hconfig : config.Sound)
    (hsize : config.pageSize = Page.standardSize) (halignment : 64 ≤ config.alignment.toNat)
    (hbelow : RegionTable.Below 0x4_0000_0000 regions) : t.Addressable := by
  have hplaced := h.placed hconfig hsize
  obtain ⟨_, _, _, _, _, _, rfl, hadmitted, hpins, hwhole, rfl⟩ := h
  constructor
  case aligned =>
    exact (Transfer.faithful_ofAdmitted hconfig hsize halignment hadmitted hpins hwhole).aligned
  case reach =>
    intro side page hpage
    obtain ⟨i, hi⟩ := List.mem_iff_getElem?.1 hpage
    obtain ⟨writable, hmaps⟩ := (hplaced side).maps page hpage
    have hvirt : page.virt.toNat = _ + i * 4096 := (hplaced side).upwards i page hi
    obtain ⟨hroom, -⟩ := hmaps.translate hbelow (by omega)
    omega

/-- For given regions, a request that can be queued makes one transfer. -/
theorem Queueable.eq_of_request {u : Transfer} (h : Queueable config regions t)
    (h' : Queueable config regions u) (hconfig : config.Sound)
    (hsize : config.pageSize = Page.standardSize) (hrequest : t.request = u.request) : t = u := by
  have hplaced := h.placed hconfig hsize
  have hplaced' := h'.placed hconfig hsize
  obtain ⟨request, admitted, _, _, source, dest, -, hadmitted, -, -, rfl⟩ := h
  obtain ⟨request', admitted', _, _, source', dest', -, hadmitted', -, -, rfl⟩ := h'
  obtain rfl : request = request' := hrequest
  obtain rfl : admitted = admitted' := by
    rw [hadmitted] at hadmitted'
    simpa using hadmitted'
  obtain rfl : source = source' := (hplaced .source).pages_unique (hplaced' .source)
  obtain rfl : dest = dest' := (hplaced .dest).pages_unique (hplaced' .dest)
  rfl

variable {R : Type} [Registers R] {start engine : Engine RegionTable R}
  {accepted reclaimed : List Transfer} {events : List Event}

/-- What moves queue could be queued on the table that they began with. -/
theorem queueable_of_moves {device : (R → R) → Prop}
    (hmoves : Moves device start accepted reclaimed events engine) :
    ∀ t ∈ accepted, Queueable start.config start.pinner.regions t := by
  intro t ht
  obtain ⟨request, admitted, source, dest, _, _, _, p, mid, hmid, hadmitted, hpins, hwhole, rfl⟩ :=
    admitted_of_moves hmoves t ht
  have hfault : Fault.outOfRange ≠ .overflow := by decide
  have hregions := hmid.keeps (RegionTable.steady_of_ne_overflow hfault) rfl
  exact ⟨request, admitted, mid.pinner, p, source, dest, hregions, hadmitted, hpins, hwhole, rfl⟩

/-! ## Where the engine gets stuck -/

/-- An engine that began with nothing queued gets stuck at a descriptor of a transfer that could be
queued. -/
theorem queueable_of_stuck (hconfig : start.config.Sound) (hpending : start.pending = [])
    (hinFlight : start.inFlight = []) (h : start.Stuck fault) :
    ∃ t side i, Queueable start.config start.pinner.regions t ∧ i < (t.range side).pageCount ∧
      t.descriptor start.config.pageSize side i = .error fault := by
  obtain ⟨accepted, _, _, mid, hmoves, t, rest, side, i, hq, htarget, hd⟩ := h
  have hbooks := books_of_moves hmoves hconfig hpending hinFlight
  have hturn := hbooks.turn
  rw [hq] at hturn
  -- The head of the queue is one of the accepted transfers, with some of it written.
  have hfresh : t.fresh ∈ accepted := by
    rw [hbooks.order, hq]
    simp
  have hi := hturn.1.target_lt htarget
  rw [hmoves.config_eq] at hd
  refine ⟨t.fresh, side, i, queueable_of_moves hmoves _ hfresh, ?_⟩
  cases side
  case source => exact ⟨hi, hd⟩
  case dest => exact ⟨hi, hd⟩

/-- Nothing else than its address keeps a descriptor of a queued transfer from being packed. -/
theorem not_addressable_of_stuck (hconfig : start.config.Sound)
    (hsize : start.config.pageSize = Page.standardSize)
    (husable : ∀ r ∈ start.pinner.regions, r.Usable) (hpending : start.pending = [])
    (hinFlight : start.inFlight = []) (h : start.Stuck fault) :
    fault = .descriptorAddress ∧
      ∃ t, Queueable start.config start.pinner.regions t ∧ ¬ t.Addressable := by
  obtain ⟨t, side, i, hqueueable, hi, hd⟩ := queueable_of_stuck hconfig hpending hinFlight h
  have hplaced := hqueueable.placed hconfig hsize
  rw [hsize] at hd
  have hpage := List.getElem?_eq_getElem hi
  rcases Transfer.descriptor_of_placed (hplaced side) husable hpage with
    ⟨⟨d, hpacked⟩, -⟩ | ⟨hfault, hfits⟩
  · rw [hpacked] at hd
    simp at hd
  · rw [hfault, Except.error.injEq] at hd
    refine ⟨hd.symm, t, hqueueable, fun haddressable => hfits ?_⟩
    exact ⟨fun _ => haddressable.aligned side, haddressable.reach side _ (List.getElem_mem hi)⟩

/-- Moves never lead to a descriptor that cannot be packed. -/
theorem not_stuck (hconfig : start.config.Sound)
    (hsize : start.config.pageSize = Page.standardSize)
    (halignment : 64 ≤ start.config.alignment.toNat)
    (hbelow : RegionTable.Below 0x4_0000_0000 start.pinner.regions) (hpending : start.pending = [])
    (hinFlight : start.inFlight = []) : ¬ start.Stuck fault := by
  intro h
  obtain ⟨-, t, hqueueable, hreach⟩ := not_addressable_of_stuck hconfig hsize
    (fun r hr => (hbelow r hr).1) hpending hinFlight h
  exact hreach (hqueueable.addressable hconfig hsize halignment hbelow)

omit [Registers R] in
/-- A submission does not overflow: the checks are masks, and the pages of a range are too few. -/
theorem not_overflows {request : Request} (hconfig : config.Sound)
    (hsize : config.pageSize = Page.standardSize) : ¬ Overflows request config fault := by
  rintro (hchecks | ⟨admitted, hadmitted, hsum⟩)
  · obtain ⟨verdict, hverdict, -⟩ := Request.admission_reason hconfig request
    exact nomatch hverdict.symm.trans hchecks
  · have hadmits := Request.admits_of_admission hconfig hadmitted
    have hsource := hadmits.source_spans hconfig
    have hdest := hadmits.dest_spans hconfig
    have hsourceFits := hsource.fits
    have hdestFits := hdest.fits
    have hsourcePages := hsource.pages
    have hdestPages := hdest.pages
    rw [hsize, show Page.standardSize.toNat = 4096 from rfl] at hsourcePages hdestPages
    have hword : UInt64.size = 0x1_0000_0000_0000_0000 := rfl
    have hfits : admitted.source.pages.toNat + admitted.dest.pages.toNat < UInt64.size := by omega
    rw [Word.checkedAdd_of_lt hfits] at hsum
    simp at hsum

/-! ## Which histories fault at a descriptor -/

/-- Take a table built from regions, with any references, dirty pages and limit, and an engine over
it.  Every transfer that can be queued has chunks that are short enough, and all of its descriptors
can be packed exactly if it is addressable; an alignment of at least 64 and regions that end below 2
to the power of 34 make it so.  A history therefore never faults at a length, and it faults at an
address only if some transfer that can be queued is not addressable, unless the control block raises
that fault itself. -/
theorem packing_of_play {config : Config} {pinner built : RegionTable} {registers : R}
    {notes tableNotes : List Note} {regions : List Region} {start : Engine RegionTable R}
    (hbuilt : RegionTable.addRegions regions RegionTable.empty = ⟨.ok (.ok ()), built, tableNotes⟩)
    (hpinner : pinner.regions = built.regions)
    (hcreate : create config pinner registers = (notes, .ok start)) :
    (∀ t, Queueable config built.regions t →
      (∀ side i, i < (t.range side).pageCount → ∃ addr length,
        (t.range side).chunk i config.pageSize = .ok (addr, length) ∧ length ≤ maxChunkLength) ∧
      (t.Packs config.pageSize ↔ t.Addressable)) ∧
    (64 ≤ config.alignment →
      (∀ r ∈ built.regions, r.phys.toNat + r.size.toNat ≤ 0x4_0000_0000) →
      ∀ t, Queueable config built.regions t → t.Addressable) ∧
    ∀ calls : List (Call R),
      ((play calls start).result = .error .descriptorLength →
        Registers.Raises R .descriptorLength) ∧
      ((play calls start).result = .error .descriptorAddress →
        Registers.Raises R .descriptorAddress ∨
          ∃ t, Queueable config built.regions t ∧ ¬ t.Addressable) := by
  obtain ⟨hflaw, hgranule, rfl⟩ := create_eq_ok hcreate
  have hconfig := Config.sound_of_flaw? hflaw
  have hsize : config.pageSize = Page.standardSize := hgranule.symm
  obtain ⟨husableAll, hregions⟩ := RegionTable.addRegions_eq_ok hbuilt
  have husable : ∀ r ∈ built.regions, r.Usable := by
    intro r hr
    rw [hregions] at hr
    exact husableAll r hr
  refine ⟨fun t ht => ?_, fun halignment htop t ht => ?_, fun calls => ?_⟩
  · have hplaced := ht.placed hconfig hsize
    rw [hsize]
    refine ⟨fun side i hi => ?_, Transfer.packs_iff hplaced husable⟩
    obtain ⟨addr, length, hchunk, hlength, -⟩ :=
      (hplaced side).chunk_packs husable (List.getElem?_eq_getElem hi)
    exact ⟨addr, length, hchunk, hlength⟩
  · exact ht.addressable hconfig hsize (UInt64.le_iff_toNat_le.1 halignment)
      fun r hr => ⟨husable r hr, htop r hr⟩
  · have hfault : ∀ fault, fault ≠ .overflow →
        (play calls { config, pinner, registers }).result = .error fault →
        Registers.Raises R fault ∨ fault = .descriptorAddress ∧
          ∃ t, Queueable config built.regions t ∧ ¬ t.Addressable := by
      intro fault hne h
      rcases fault_of_play (RegionTable.steady_of_ne_overflow hne) rfl h with
        hraises | ⟨request, hover⟩ | hstuck
      · exact .inl hraises
      · exact absurd hover (not_overflows hconfig hsize)
      · rw [← hpinner] at husable ⊢
        exact .inr (not_addressable_of_stuck hconfig hsize husable rfl rfl hstuck)
    constructor
    · intro h
      rcases hfault _ (by decide) h with hraises | ⟨hother, -⟩
      · exact hraises
      · simp at hother
    · intro h
      exact (hfault _ (by decide) h).imp_right And.right

/-- The two transfers that the small history queues can be packed. -/
theorem packing_of_smallHistory :
    (queuedTransfers smallEngine.config (play smallHistory smallEngine).events).length = 2 ∧
      ∀ t ∈ queuedTransfers smallEngine.config (play smallHistory smallEngine).events,
        t.Addressable ∧ t.Packs smallEngine.config.pageSize := by
  have hbuilt : RegionTable.addRegions smallTable.regions RegionTable.empty =
      ⟨.ok (.ok ()), smallTable, []⟩ := by
    rfl
  obtain ⟨hpacks, hreach, -⟩ := packing_of_play hbuilt rfl create_smallEngine
  obtain ⟨⟨_, hmoves⟩, -⟩ := moves_of_play play_smallHistory
  refine ⟨by decide +kernel, fun t ht => ?_⟩
  have hqueueable := queueable_of_moves hmoves t ht
  have haddressable := hreach (by decide) (by decide) t hqueueable
  exact ⟨haddressable, (hpacks t hqueueable).2.2 haddressable⟩

/-- An engine with an alignment below 64. -/
def fineEngine : Engine RegionTable FifoPair :=
  { config := { alignment := 32 }, pinner := smallTable, registers := { capacity := 128 } }

/-- An engine over a region beyond the reach of the address field. -/
def farEngine : Engine RegionTable FifoPair :=
  { config := {}
    pinner :=
      { RegionTable.empty with
        regions := [{ virt := 0, phys := 0x4_0000_0000, size := 0x10_0000, writable := true }] }
    registers := { capacity := 128 } }

/-- Both engines come about, over tables that were built; and each takes a request into the queue,
and counts it, that cannot be packed. -/
theorem queued_and_not_packed :
    (RegionTable.addRegions fineEngine.pinner.regions RegionTable.empty =
        ⟨.ok (.ok ()), fineEngine.pinner, []⟩ ∧
      create fineEngine.config fineEngine.pinner fineEngine.registers = ([], .ok fineEngine) ∧
      let outcome := submit
        { source := 0x12020, dest := 0x10000, length := 0x40, opcode := 0, attr := 0 } fineEngine
      outcome.result = .error .descriptorAddress ∧ outcome.state.pending.length = 1 ∧
        outcome.state.tally.submitted = 1) ∧
    (RegionTable.addRegions farEngine.pinner.regions RegionTable.empty =
        ⟨.ok (.ok ()), farEngine.pinner, []⟩ ∧
      create farEngine.config farEngine.pinner farEngine.registers = ([], .ok farEngine) ∧
      let outcome := submit
        { source := 0x1000, dest := 0x2000, length := 0x40, opcode := 0, attr := 0 } farEngine
      outcome.result = .error .descriptorAddress ∧ outcome.state.pending.length = 1 ∧
        outcome.state.tally.submitted = 1) := by
  constructor
  · exact ⟨rfl, rfl, by decide +kernel⟩
  · exact ⟨rfl, rfl, by decide +kernel⟩

end Engine

end DmaQueue
