/-
  DmaQueue.Proofs.Request.Admission

  What is known of a configuration without a flaw, and of a request that such
  a configuration lets in.
-/
import DmaQueue.Proofs.Page.Extent
import DmaQueue.Request.Admission

namespace DmaQueue

open Word

/-- What `Config.flaw?` checks. -/
structure Config.Sound (config : Config) : Prop where
  pageSize : isPowerOfTwo config.pageSize = true
  pageSize_le : config.pageSize.toNat ≤ maxChunkLength.toNat
  alignment : isPowerOfTwo config.alignment = true
  alignment_le : config.alignment.toNat ≤ config.pageSize.toNat
  fifoFull : config.fifoFull ≠ 0
  functionUnits : 0 ≤ config.functionUnits

theorem Config.sound_of_flaw? {config : Config} (h : config.flaw? = none) : config.Sound := by
  unfold flaw? at h
  split at h
  · simp at h
  split at h
  · simp at h
  split at h
  · simp at h
  split at h
  · simp at h
  split at h
  · simp at h
  split at h
  · simp at h
  rename_i hpage hsize halign hbelow hfifo hunits
  constructor
  case pageSize => simpa using hpage
  case pageSize_le => exact UInt64.le_iff_toNat_le.1 (UInt64.not_lt.1 hsize)
  case alignment => simpa using halign
  case alignment_le => exact UInt64.le_iff_toNat_le.1 (UInt64.not_lt.1 hbelow)
  case fifoFull => exact hfifo
  case functionUnits => exact Int32.not_lt.1 hunits

namespace Request

variable {r : Request} {config : Config} {admitted : Admitted}

/-- What is checked of a request that is let in, with the geometry that comes out. -/
structure Admits (r : Request) (config : Config) (admitted : Admitted) : Prop where
  opcode : 0 ≤ r.opcode ∧ r.opcode ≤ config.functionUnits
  output : outputLength r.opcode r.attr r.length = some admitted.outputLength
  aligned : r.misaligned? admitted.outputLength (config.alignment - 1) = none
  source : Extent.ofRange r.source r.length config.pageSize = .ok (some admitted.source)
  dest : Extent.ofRange r.dest admitted.outputLength config.pageSize = .ok (some admitted.dest)

theorem extents_eq_ok {output pageSize : UInt64}
    (h : r.extents output pageSize = .ok (.ok admitted)) :
    admitted.outputLength = output ∧
      Extent.ofRange r.source r.length pageSize = .ok (some admitted.source) ∧
      Extent.ofRange r.dest output pageSize = .ok (some admitted.dest) := by
  unfold extents at h
  cases hsource : Extent.ofRange r.source r.length pageSize with
  | error fault => simp [hsource, bind, Except.bind] at h
  | ok source? =>
    cases source? with
    | none => simp [hsource, bind, Except.bind, pure, Except.pure] at h
    | some source =>
      cases hdest : Extent.ofRange r.dest output pageSize with
      | error fault => simp [hsource, hdest, bind, Except.bind] at h
      | ok dest? =>
        cases dest? with
        | none => simp [hsource, hdest, bind, Except.bind, pure, Except.pure] at h
        | some dest =>
          simp only [hsource, hdest, bind, Except.bind, pure, Except.pure, Except.ok.injEq] at h
          subst h
          exact ⟨rfl, rfl, rfl⟩

theorem admits_of_admission (hconfig : config.Sound)
    (h : r.admission config = .ok (.ok admitted)) : r.Admits config admitted := by
  have hone : (1 : UInt64).toNat ≤ config.alignment.toNat :=
    toNat_pos_of_isPowerOfTwo hconfig.alignment
  unfold admission at h
  split at h
  · simp [pure, Except.pure] at h
  rename_i hopcode
  split at h
  · simp [pure, Except.pure] at h
  rename_i output houtput
  rw [checkedSub_of_le hone] at h
  simp only [bind, Except.bind] at h
  split at h
  · simp [pure, Except.pure] at h
  rename_i haligned
  split at h
  · simp [pure, Except.pure] at h
  obtain ⟨rfl, hsource, hdest⟩ := extents_eq_ok h
  rw [not_or, Int32.not_lt, Int32.not_lt] at hopcode
  exact ⟨hopcode, houtput, haligned, hsource, hdest⟩

/-- The geometry of the source range of a request that is let in. -/
theorem Admits.source_spans (h : r.Admits config admitted) (hconfig : config.Sound) :
    admitted.source.Spans r.source.toNat r.length.toNat config.pageSize.toNat :=
  Extent.spans_of_ofRange hconfig.pageSize h.source

/-- The geometry of the destination range of a request that is let in. -/
theorem Admits.dest_spans (h : r.Admits config admitted) (hconfig : config.Sound) :
    admitted.dest.Spans r.dest.toNat admitted.outputLength.toNat config.pageSize.toNat :=
  Extent.spans_of_ofRange hconfig.pageSize h.dest

/-- The four numbers of a request that is let in are multiples of the alignment. -/
theorem Admits.mod_alignment (h : r.Admits config admitted) (hconfig : config.Sound) :
    r.source % config.alignment = 0 ∧ r.dest % config.alignment = 0 ∧
      r.length % config.alignment = 0 ∧ admitted.outputLength % config.alignment = 0 := by
  -- A mask below the alignment is a remainder, and the first one that is not zero is reported.
  have haligned := h.aligned
  simp only [misaligned?, and_sub_one_eq_mod hconfig.alignment] at haligned
  grind

end Request

end DmaQueue
