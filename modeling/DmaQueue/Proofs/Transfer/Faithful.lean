/-
  DmaQueue.Proofs.Transfer.Faithful

  A transfer whose two ranges lie on the pages of a region table, with what was
  checked when it was let in.  All of its descriptors can be packed, and each
  says what it should about its chunk (`Faithful.descriptor`).
-/
import DmaQueue.Proofs.Descriptor.Fields
import DmaQueue.Proofs.Request.Admission
import DmaQueue.Proofs.Transfer.Order
import DmaQueue.Proofs.Transfer.Placed

namespace DmaQueue.Transfer

open Extent (edge)

/-- The first virtual address of a side. -/
def addr (t : Transfer) : Side → Nat
  | .source => t.request.source.toNat
  | .dest => t.request.dest.toNat

/-- The number of bytes of a side. -/
def size (t : Transfer) : Side → Nat
  | .source => t.request.length.toNat
  | .dest => t.outputLength.toNat

/-- The transfer moves the bytes that its request names, on pages of a table with these regions. -/
structure Faithful (regions : List Region) (t : Transfer) : Prop where
  output :
    Request.outputLength t.request.opcode t.request.attr t.request.length = some t.outputLength
  aligned : ∀ side, t.addr side % 64 = 0
  placed : ∀ side, (t.range side).Placed regions (t.addr side) (t.size side)

variable {regions : List Region} {t : Transfer} {side : Side} {i : Nat}

/-- The descriptor carries chunk number `i` of a side: the bytes of that piece of the range,
translated, inside one page, with the opcode and the attribute on the first chunk of a side only,
and marked as the last one on the last source chunk only. -/
structure Carries (regions : List Region) (t : Transfer) (side : Side) (i : Nat)
    (d : Descriptor) : Prop where
  length_pos : 1 ≤ d.length
  length_le : d.length ≤ 4096
  page : d.address.toNat / 4096 = (d.address.toNat + d.length - 1) / 4096
  bytes : (List.range' d.address.toNat d.length).map some =
    (List.range' (edge (t.addr side) (t.size side) 4096 i)
      (edge (t.addr side) (t.size side) 4096 (i + 1) -
        edge (t.addr side) (t.size side) 4096 i)).map (Region.translate regions)
  isLast : d.isLast = (side == .source && i + 1 == t.source.pageCount)
  opcode : d.opcode = if i = 0 then (t.request.opcode.toInt % 8).toNat else 0
  attr : d.attr = if i = 0 then (t.request.attr.toInt % 256).toNat else 0

/-- A piece begins where the range begins or where a page begins, and both are multiples of 64. -/
theorem Faithful.edge_mod (h : t.Faithful regions) (hi : i < (t.range side).pageCount) :
    edge (t.addr side) (t.size side) 4096 i % 64 = 0 := by
  have hplaced := h.placed side
  have haligned := h.aligned side
  by_cases hfirst : i = 0
  · rw [hfirst, Extent.edge_zero]
    exact haligned
  · rw [Extent.edge_of_pos (by decide) hplaced.length_pos (Nat.pos_of_ne_zero hfirst)
      (hplaced.pageCount_eq ▸ hi)]
    omega

/-- Packed with the fields of its chunk, a descriptor carries it. -/
theorem carries_pack {opcode attr : Nat} {start size : UInt64}
    (hpiece : PinnedRange.IsPiece regions (t.addr side) (t.size side) i start size)
    (hfits : Descriptor.Fits opcode start.toNat size.toNat attr)
    (hopcode : opcode = if i = 0 then (t.request.opcode.toInt % 8).toNat else 0)
    (hattr : attr = if i = 0 then (t.request.attr.toInt % 256).toNat else 0) :
    t.Carries regions side i (.pack opcode start.toNat size.toNat
      (side == .source && i + 1 == t.source.pageCount) attr) := by
  constructor
  case length_pos => rw [Descriptor.length_pack hfits]; exact hpiece.size_pos
  case length_le => rw [Descriptor.length_pack hfits]; exact hpiece.size_le
  case page =>
    rw [Descriptor.length_pack hfits, Descriptor.toNat_address_pack hfits]
    exact hpiece.page
  case bytes =>
    rw [Descriptor.length_pack hfits, Descriptor.toNat_address_pack hfits]
    exact hpiece.bytes
  case isLast => exact Descriptor.isLast_pack hfits
  case opcode => rw [Descriptor.opcode_pack hfits, hopcode]
  case attr => rw [Descriptor.attr_pack hfits, hattr]

theorem Faithful.descriptor (h : t.Faithful regions)
    (hbelow : RegionTable.Below 0x4_0000_0000 regions) (hi : i < (t.range side).pageCount) :
    ∃ d, t.descriptor Page.standardSize side i = .ok d ∧ t.Carries regions side i d := by
  obtain ⟨start, size, hchunk, htop, hpiece⟩ := (h.placed side).chunk hbelow hi
  have hsizePos := hpiece.size_pos
  have hsizeLe := hpiece.size_le
  have hstartMod : start.toNat % 64 = 0 := by
    have hmod := hpiece.start_mod
    have hedge := h.edge_mod hi
    omega
  have hstartLt : start.toNat < 0x4_0000_0000 := by omega
  have hsizeLt : size.toNat < 0x20_0000 := by omega
  have hlength : size ≤ maxChunkLength := by
    rw [UInt64.le_iff_toNat_le]
    exact Nat.le_of_lt_succ hsizeLt
  -- Only the first chunk has the opcode and the attribute of the request.
  by_cases hfirst : i = 0
  · refine ⟨.pack (t.request.opcode.toInt % 8).toNat start.toNat size.toNat
      (side == .source && i + 1 == t.source.pageCount) (t.request.attr.toInt % 256).toNat, ?_, ?_⟩
    · simp only [Transfer.descriptor, hchunk, bind, Except.bind]
      rw [if_pos hfirst]
      exact Descriptor.withFields_of_fits hstartMod hstartLt hlength
    · exact carries_pack hpiece ⟨by omega, hstartMod, hstartLt, hsizeLt, by omega⟩
        (by rw [if_pos hfirst]) (by rw [if_pos hfirst])
  · refine ⟨.pack 0 start.toNat size.toNat
      (side == .source && i + 1 == t.source.pageCount) 0, ?_, ?_⟩
    · simp only [Transfer.descriptor, hchunk, bind, Except.bind]
      rw [if_neg hfirst]
      exact Descriptor.withFields_of_fits hstartMod hstartLt hlength
    · exact carries_pack hpiece ⟨by decide, hstartMod, hstartLt, hsizeLt, by decide⟩
        (by rw [if_neg hfirst]) (by rw [if_neg hfirst])

/-- Both ranges of an admitted request are placed once their pages are pinned. -/
theorem placed_ofAdmitted {request : Request} {config : Config} {admitted : Admitted}
    {table table' : RegionTable} {source dest : List PinnedPage} (hconfig : config.Sound)
    (hsize : config.pageSize = Page.standardSize)
    (hadmitted : request.admission config = .ok (.ok admitted))
    (hpins : Engine.PinsBoth request admitted table source dest table')
    (hwhole : Engine.Whole admitted source dest) (side : Side) :
    let t := ofAdmitted request admitted source dest
    (t.range side).Placed table.regions (t.addr side) (t.size side) := by
  have hadmits := Request.admits_of_admission hconfig hadmitted
  have hsourceSpans := hadmits.source_spans hconfig
  have hdestSpans := hadmits.dest_spans hconfig
  rw [hsize] at hsourceSpans hdestSpans
  obtain ⟨mid, ⟨_, _, hsource, rfl⟩, ⟨_, _, hdest, rfl⟩⟩ := hpins
  have hsourcePinned := RegionTable.pin_eq_ok hsource
  have hdestPinned := RegionTable.pin_eq_ok hdest
  -- The destination is pinned on the same regions as the source.
  have hregions : mid.regions = table.regions := by
    rw [hsourcePinned.table_eq]
    rfl
  cases side
  case source =>
    exact ⟨⟨admitted.source, hsourceSpans, rfl, hwhole.1⟩, hsourcePinned.upwards,
      fun page hpage => ⟨false, hsourcePinned.maps page hpage⟩⟩
  case dest =>
    exact ⟨⟨admitted.dest, hdestSpans, rfl, hwhole.2⟩, hdestPinned.upwards,
      fun page hpage => ⟨true, hregions ▸ hdestPinned.maps page hpage⟩⟩

/-- The transfer of an admitted request is faithful once its pages are pinned. -/
theorem faithful_ofAdmitted {request : Request} {config : Config} {admitted : Admitted}
    {table table' : RegionTable} {source dest : List PinnedPage} (hconfig : config.Sound)
    (hsize : config.pageSize = Page.standardSize) (halignment : 64 ≤ config.alignment.toNat)
    (hadmitted : request.admission config = .ok (.ok admitted))
    (hpins : Engine.PinsBoth request admitted table source dest table')
    (hwhole : Engine.Whole admitted source dest) :
    (ofAdmitted request admitted source dest).Faithful table.regions := by
  have hadmits := Request.admits_of_admission hconfig hadmitted
  have hmod : ∀ x : UInt64, x % config.alignment = 0 → x.toNat % 64 = 0 := by
    intro x hx
    have hdvd : (64 : UInt64).toNat ∣ config.alignment.toNat :=
      Word.dvd_of_isPowerOfTwo (by decide) hconfig.alignment halignment
    rw [← UInt64.toNat_inj, UInt64.toNat_mod] at hx
    exact Nat.mod_eq_zero_of_dvd (Nat.dvd_trans hdvd (Nat.dvd_of_mod_eq_zero hx))
  obtain ⟨hsourceMod, hdestMod, -, -⟩ := hadmits.mod_alignment hconfig
  constructor
  case output => exact hadmits.output
  case aligned =>
    intro side
    cases side
    case source => exact hmod _ hsourceMod
    case dest => exact hmod _ hdestMod
  case placed => exact placed_ofAdmitted hconfig hsize hadmitted hpins hwhole

end DmaQueue.Transfer
