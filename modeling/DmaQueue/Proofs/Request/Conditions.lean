/-
  DmaQueue.Proofs.Request.Conditions

  The conditions on a request, over unbounded numbers and in the order in which
  they are looked at.  Under a configuration without a flaw a request is let in
  exactly if all of them hold, and otherwise it is the first one violated that
  gives the reason (`admission_decides`).
-/
import DmaQueue.Proofs.Request.Admission
import DmaQueue.Proofs.Request.Pipeline

namespace DmaQueue

open Word

/-! ## Conditions in order -/

/-- A condition, with the reason that is given where it does not hold. -/
structure Condition where
  /-- Whether it holds. -/
  holds : Bool
  /-- The reason given otherwise. -/
  rejection : Rejection
  deriving DecidableEq, Repr

/-- The reason given by the first condition that does not hold. -/
def firstViolated? : List Condition → Option Rejection
  | [] => none
  | c :: rest => if c.holds then firstViolated? rest else some c.rejection

theorem firstViolated?_append (first second : List Condition) :
    firstViolated? (first ++ second) = (firstViolated? first).or (firstViolated? second) := by
  induction first with
  | nil => rfl
  | cons c rest ih =>
    rw [List.cons_append, firstViolated?, firstViolated?]
    split
    · exact ih
    · rfl

theorem firstViolated?_eq_none_iff {conditions : List Condition} :
    firstViolated? conditions = none ↔ ∀ c ∈ conditions, c.holds = true := by
  induction conditions with
  | nil => simp [firstViolated?]
  | cons c rest ih =>
    rw [firstViolated?, List.forall_mem_cons, ← ih]
    split <;> simp [*]

/-- Every condition before the one that gives the reason holds. -/
theorem firstViolated?_eq_some_iff {conditions : List Condition} {rejection : Rejection} :
    firstViolated? conditions = some rejection ↔
      ∃ earlier c later, conditions = earlier ++ c :: later ∧
        (∀ e ∈ earlier, e.holds = true) ∧ c.holds = false ∧ c.rejection = rejection := by
  constructor
  · intro h
    induction conditions with
    | nil => simp [firstViolated?] at h
    | cons c rest ih =>
      rw [firstViolated?] at h
      split at h
      · rename_i hholds
        obtain ⟨earlier, d, later, rfl, hearlier, hd⟩ := ih h
        exact ⟨c :: earlier, d, later, rfl, List.forall_mem_cons.2 ⟨hholds, hearlier⟩, hd⟩
      · rename_i hviolated
        exact ⟨[], c, rest, rfl, by simp, Bool.eq_false_iff.2 hviolated, Option.some.inj h⟩
  · rintro ⟨earlier, c, later, rfl, hearlier, hviolated, rfl⟩
    rw [firstViolated?_append, firstViolated?_eq_none_iff.2 hearlier, Option.none_or,
      firstViolated?, hviolated]
    rfl

namespace Request

variable {r : Request} {config : Config}

/-! ## The conditions on a request -/

/-- The number of bytes that come out for a request. -/
def outputBytes (r : Request) : Nat :=
  pipeline r.opcode.toInt r.attr.toInt r.length.toNat

/-- The opcode names a function unit. -/
def knownOpcode (r : Request) (config : Config) : Condition :=
  ⟨decide (0 ≤ r.opcode.toInt ∧ r.opcode.toInt ≤ config.functionUnits.toInt),
    .unknownOpcode r.opcode⟩

/-- Where the stream is doubled, the doubled length fits the word. -/
def doublingFits (r : Request) : Condition :=
  ⟨decide (r.opcode = 1 → 2 * r.length.toNat < UInt64.size), .outputOverflow⟩

/-- A number is a multiple of the alignment. -/
def multiple (config : Config) (n : Nat) (rejection : Rejection) : Condition :=
  ⟨decide (config.alignment.toNat ∣ n), rejection⟩

/-- The four numbers that have to be multiples of the alignment. -/
def multiples (r : Request) (config : Config) (output : Nat) : List Condition :=
  [ multiple config r.source.toNat (.sourceMisaligned r.source),
    multiple config r.dest.toNat (.destMisaligned r.dest),
    multiple config r.length.toNat (.lengthMisaligned r.length),
    multiple config output (.outputMisaligned (UInt64.ofNat output)) ]

/-- Bytes go in, and bytes come out. -/
def notEmpty (r : Request) : Condition :=
  ⟨decide (0 < r.length.toNat ∧ 0 < r.outputBytes), .zeroLength⟩

/-- Both ranges end inside the address space. -/
def rangesFit (r : Request) : Condition :=
  ⟨decide (r.source.toNat + r.length.toNat < UInt64.size ∧
    r.dest.toNat + r.outputBytes < UInt64.size), .addressOverflow⟩

/-- All conditions, in the order in which they are looked at. -/
def conditions (r : Request) (config : Config) : List Condition :=
  r.knownOpcode config :: r.doublingFits ::
    (r.multiples config r.outputBytes ++ [r.notEmpty, r.rangesFit])

/-- A request that the conditions describe. -/
structure WellFormed (r : Request) (config : Config) : Prop where
  opcode : 0 ≤ r.opcode.toInt ∧ r.opcode.toInt ≤ config.functionUnits.toInt
  doubling : r.opcode = 1 → 2 * r.length.toNat < UInt64.size
  source : config.alignment.toNat ∣ r.source.toNat
  dest : config.alignment.toNat ∣ r.dest.toNat
  length : config.alignment.toNat ∣ r.length.toNat
  output : config.alignment.toNat ∣ r.outputBytes
  notEmpty : 0 < r.length.toNat ∧ 0 < r.outputBytes
  fits : r.source.toNat + r.length.toNat < UInt64.size ∧
    r.dest.toNat + r.outputBytes < UInt64.size

theorem wellFormed_iff (r : Request) (config : Config) :
    r.WellFormed config ↔ ∀ c ∈ r.conditions config, c.holds = true := by
  simp only [conditions, knownOpcode, doublingFits, multiples, multiple, notEmpty, rangesFit,
    List.forall_mem_cons, List.cons_append, List.nil_append, decide_eq_true_eq]
  constructor
  · intro h
    exact ⟨h.opcode, h.doubling, h.source, h.dest, h.length, h.output, h.notEmpty, h.fits, by simp⟩
  · rintro ⟨hopcode, hdoubling, hsource, hdest, hlength, houtput, hpositive, hfits, -⟩
    exact ⟨hopcode, hdoubling, hsource, hdest, hlength, houtput, hpositive, hfits⟩

/-! ## Admission -/

/-- The masks say whether the numbers are multiples. -/
theorem misaligned?_eq (hconfig : config.Sound) (output : UInt64) :
    r.misaligned? output (config.alignment - 1) =
      firstViolated? (r.multiples config output.toNat) := by
  have hmask (n : UInt64) :
      n &&& (config.alignment - 1) = 0 ↔ config.alignment.toNat ∣ n.toNat := by
    rw [and_sub_one_eq_mod hconfig.alignment, ← UInt64.toNat_inj, UInt64.toNat_mod,
      Nat.dvd_iff_mod_eq_zero]
    rfl
  simp only [misaligned?, multiples, multiple, firstViolated?, ne_eq, hmask, decide_eq_true_eq,
    ite_not, UInt64.ofNat_toNat]

/-- The reason of a verdict, if it is a rejection. -/
def reason? : Except Rejection Admitted → Option Rejection
  | .error rejection => some rejection
  | .ok _ => none

theorem reason?_eq_some_iff {verdict : Except Rejection Admitted} {rejection : Rejection} :
    reason? verdict = some rejection ↔ verdict = .error rejection := by
  cases verdict <;> simp [reason?]

theorem reason?_eq_none_iff {verdict : Except Rejection Admitted} :
    reason? verdict = none ↔ ∃ admitted, verdict = .ok admitted := by
  cases verdict <;> simp [reason?]

/-- Both ranges have a geometry exactly if they end inside the address space. -/
theorem extents_reason (hconfig : config.Sound) {output : UInt64} (hlength : 0 < r.length.toNat)
    (houtput : output.toNat = r.outputBytes) (hpos : 0 < r.outputBytes) :
    ∃ verdict, r.extents output config.pageSize = .ok verdict ∧
      reason? verdict = firstViolated? [r.rangesFit] := by
  unfold extents
  rcases Extent.ofRange_answers hconfig.pageSize r.source r.length with
    ⟨hnone, hsource⟩ | ⟨source, hsource, hsourceSpans⟩
  · have hout : r.rangesFit.holds = false := decide_eq_false (by omega)
    rw [hsource, firstViolated?, hout]
    exact ⟨_, rfl, rfl⟩
  rcases Extent.ofRange_answers hconfig.pageSize r.dest output with
    ⟨hnone, hdest⟩ | ⟨dest, hdest, hdestSpans⟩
  · have hout : r.rangesFit.holds = false := decide_eq_false (by omega)
    rw [hsource, hdest, firstViolated?, hout]
    exact ⟨_, rfl, rfl⟩
  · have hfits : r.rangesFit.holds = true :=
      decide_eq_true ⟨hsourceSpans.fits, houtput ▸ hdestSpans.fits⟩
    rw [hsource, hdest, firstViolated?, hfits]
    exact ⟨_, rfl, rfl⟩

/-- A configuration without a flaw decides every request, and the reason it gives is that of the
first condition violated. -/
theorem admission_reason (hconfig : config.Sound) (r : Request) :
    ∃ verdict, r.admission config = .ok verdict ∧
      reason? verdict = firstViolated? (r.conditions config) := by
  have hone : (1 : UInt64).toNat ≤ config.alignment.toNat :=
    toNat_pos_of_isPowerOfTwo hconfig.alignment
  have hopcodeIff : (r.opcode < 0 ∨ config.functionUnits < r.opcode) ↔
      ¬(0 ≤ r.opcode.toInt ∧ r.opcode.toInt ≤ config.functionUnits.toInt) := by
    rw [Int32.lt_iff_toInt_lt, Int32.lt_iff_toInt_lt, not_and_or, Int.not_le, Int.not_le]
    rfl
  have hzeroIff (n : UInt64) : n = 0 ↔ ¬0 < n.toNat := by
    rw [← UInt64.toNat_inj, Nat.not_lt, Nat.le_zero]
    rfl
  unfold admission conditions
  rw [firstViolated?, firstViolated?]
  -- One condition after the other; the first that is violated ends the checks on both sides.
  by_cases hopcode : 0 ≤ r.opcode.toInt ∧ r.opcode.toInt ≤ config.functionUnits.toInt
  case neg =>
    rw [if_pos (hopcodeIff.2 hopcode),
      show (r.knownOpcode config).holds = false from decide_eq_false hopcode]
    exact ⟨_, rfl, rfl⟩
  rw [if_neg (mt hopcodeIff.1 (not_not.2 hopcode)),
    show (r.knownOpcode config).holds = true from decide_eq_true hopcode]
  cases houtput : outputLength r.opcode r.attr r.length with
  | none =>
    obtain ⟨hone, hout⟩ := outputLength_eq_none_iff.1 houtput
    have hdoubling : r.doublingFits.holds = false :=
      decide_eq_false fun hfits => Nat.not_lt.2 hout (hfits hone)
    rw [hdoubling]
    exact ⟨_, rfl, rfl⟩
  | some output =>
    obtain ⟨hfits, hnat⟩ := outputLength_eq_some_iff.1 houtput
    have hbytes : output.toNat = r.outputBytes := hnat
    rw [show r.doublingFits.holds = true from decide_eq_true hfits, checkedSub_of_le hone,
      if_pos rfl, if_pos rfl, firstViolated?_append]
    simp only [bind, Except.bind, misaligned?_eq hconfig, hbytes]
    cases firstViolated? (r.multiples config r.outputBytes) with
    | some rejection => exact ⟨_, rfl, rfl⟩
    | none =>
      have hempty : (r.length = 0 ∨ output = 0) ↔ ¬(0 < r.length.toNat ∧ 0 < r.outputBytes) := by
        rw [hzeroIff, hzeroIff, hbytes, not_and_or]
      simp only [Option.none_or]
      rw [firstViolated?]
      by_cases hpositive : 0 < r.length.toNat ∧ 0 < r.outputBytes
      · rw [if_neg (mt hempty.1 (not_not.2 hpositive)),
          show r.notEmpty.holds = true from decide_eq_true hpositive]
        exact extents_reason hconfig hpositive.1 hbytes hpositive.2
      · rw [if_pos (hempty.2 hpositive),
          show r.notEmpty.holds = false from decide_eq_false hpositive]
        exact ⟨_, rfl, rfl⟩

/-- Under a configuration without a flaw every request is decided.  It is let in exactly if it is
well formed, with the output length of the pipeline and with the geometry of its two ranges.
Otherwise the reason is that of the first condition that it violates. -/
theorem admission_decides {config : Config} (hflaw : config.flaw? = none) (r : Request) :
    (∀ fault, r.admission config ≠ .error fault) ∧
    ((∃ admitted, r.admission config = .ok (.ok admitted)) ↔ r.WellFormed config) ∧
    (∀ admitted, r.admission config = .ok (.ok admitted) →
      admitted.outputLength.toNat = r.outputBytes ∧
      admitted.source.Lies r.source.toNat r.length.toNat config.pageSize.toNat ∧
      admitted.dest.Lies r.dest.toNat r.outputBytes config.pageSize.toNat) ∧
    (∀ rejection, r.admission config = .ok (.error rejection) ↔
      ∃ earlier c later, r.conditions config = earlier ++ c :: later ∧
        (∀ e ∈ earlier, e.holds = true) ∧ c.holds = false ∧ c.rejection = rejection) := by
  have hconfig := Config.sound_of_flaw? hflaw
  have hpage := toNat_pos_of_isPowerOfTwo hconfig.pageSize
  obtain ⟨verdict, hverdict, hreason⟩ := admission_reason hconfig r
  refine ⟨fun fault => ?_, ?_, fun admitted hadmitted => ?_, fun rejection => ?_⟩
  · simp [hverdict]
  · rw [wellFormed_iff, ← firstViolated?_eq_none_iff, ← hreason, reason?_eq_none_iff, hverdict]
    simp only [Except.ok.injEq]
  · have hadmits := admits_of_admission hconfig hadmitted
    have houtput : admitted.outputLength.toNat = r.outputBytes :=
      (outputLength_eq_some_iff.1 hadmits.output).2
    exact ⟨houtput, (hadmits.source_spans hconfig).lies hpage,
      houtput ▸ (hadmits.dest_spans hconfig).lies hpage⟩
  · rw [← firstViolated?_eq_some_iff, ← hreason, reason?_eq_some_iff, hverdict, Except.ok.injEq]

/-- A stream that is passed on and then halved, and the same request with a longer alignment than it
has: its destination is the first number that is not a multiple. -/
theorem admission_of_halved :
    let request : Request :=
      { source := 0x12000, dest := 0x10040, length := 0x80, opcode := 2, attr := -1 }
    (∃ admitted, request.admission {} = .ok (.ok admitted)) ∧
      request.admission { alignment := 0x80 } = .ok (.error (.destMisaligned 0x10040)) := by
  intro request
  have houtput : request.outputBytes = 0x40 := by
    rw [outputBytes, pipeline_eq_halves]
    decide
  obtain ⟨-, hadmitted, -⟩ := admission_decides (rfl : Config.flaw? {} = none) request
  obtain ⟨-, -, -, hrejected⟩ :=
    admission_decides (rfl : Config.flaw? { alignment := 0x80 } = none) request
  refine ⟨hadmitted.2 ?_, (hrejected _).2 ?_⟩
  · constructor
    case output => exact houtput ▸ by decide
    case notEmpty => exact houtput ▸ by decide
    case fits => exact houtput ▸ by decide
    all_goals decide
  · exact ⟨_, _, _, (rfl : _ = [_, _, _] ++ _ :: _), by decide, by decide, rfl⟩

end Request

end DmaQueue
