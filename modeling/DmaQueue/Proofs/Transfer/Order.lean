/-
  DmaQueue.Proofs.Transfer.Order

  The order in which the descriptors of a transfer are written, as one list:
  `Transfer.stream`.  A transfer under way has written the first
  `written` of them, and its next chunk is the one at that position
  (`getElem?_order`), so a step never leaves one out and never repeats one.
-/
import DmaQueue.Proofs.Trace.Deeds
import DmaQueue.Transfer.Basic

namespace DmaQueue

namespace Progress

variable {n m : Nat} {p : Progress}

/-- The chunks of `n` source and `m` destination pages in the order in which they are written. -/
def order (n m : Nat) : List (Side × Nat) :=
  (.source, 0) :: (.dest, 0) ::
    ((List.range' 1 (n - 1)).map (Side.source, ·) ++ (List.range' 1 (m - 1)).map (Side.dest, ·))

/-- How many descriptors are written, on both sides together. -/
def written (n m : Nat) (p : Progress) : Nat :=
  p.sourceCursor n + p.destCursor m

/-- A chunk is still to be written, and it exists. -/
def Underway (n m : Nat) : Progress → Prop
  | .sourceHead => True
  | .destHead => True
  | .sourceTail next => 1 ≤ next ∧ next < n
  | .destTail next => 1 ≤ next ∧ next < m
  | .sent => False

theorem exists_target (h : p.Underway n m) : ∃ target, p.target? = some target := by
  cases p with
  | sent => exact h.elim
  | sourceHead | destHead | sourceTail | destTail => exact ⟨_, rfl⟩

theorem length_order (hn : 1 ≤ n) (hm : 1 ≤ m) : (order n m).length = n + m := by
  simp only [order, List.length_cons, List.length_append, List.length_map, List.length_range']
  omega

/-- The chunk that is next stands where the written ones end. -/
theorem getElem?_order (hn : 1 ≤ n) (h : p.Underway n m) :
    (order n m)[p.written n m]? = p.target? := by
  cases p with
  | sourceHead => rfl
  | destHead => rfl
  | sourceTail next =>
    obtain ⟨hfirst, hnext⟩ := h
    have hposition : written n m (.sourceTail next) = (next - 1) + 1 + 1 := by
      simp only [written, sourceCursor, destCursor]
      omega
    rw [hposition, order, List.getElem?_cons_succ, List.getElem?_cons_succ,
      List.getElem?_append_left (by simp; omega), List.getElem?_map,
      List.getElem?_range' (by omega)]
    simp only [Option.map_some, target?, Option.some.injEq, Prod.mk.injEq, true_and]
    omega
  | destTail next =>
    obtain ⟨hfirst, hnext⟩ := h
    have hposition : written n m (.destTail next) = (n - 1) + (next - 1) + 1 + 1 := by
      simp only [written, sourceCursor, destCursor]
      omega
    rw [hposition, order, List.getElem?_cons_succ, List.getElem?_cons_succ,
      List.getElem?_append_right (by simp), List.length_map, List.length_range',
      Nat.add_sub_cancel_left, List.getElem?_map, List.getElem?_range' (by omega)]
    simp only [Option.map_some, target?, Option.some.injEq, Prod.mk.injEq, true_and]
    omega
  | sent => exact h.elim

theorem isSent_eq_true_iff : p.isSent = true ↔ p = .sent := by
  cases p <;> simp [isSent]

/-- How many of the chunks belong to a side. -/
def chunkCount (n m : Nat) : Side → Nat
  | .source => n
  | .dest => m

/-- Each side's chunks are written in the order of their numbers. -/
theorem filter_order (hn : 1 ≤ n) (hm : 1 ≤ m) (side : Side) :
    ((order n m).filter (·.1 == side)).map (·.2) = List.range (chunkCount n m side) := by
  have hsplit : ∀ k, 1 ≤ k → List.range k = 0 :: List.range' 1 (k - 1) := by
    intro k hk
    obtain ⟨j, rfl⟩ := Nat.exists_eq_add_of_le' hk
    rw [List.range_eq_range', List.range'_succ]
    rfl
  have hkeep : ∀ xs : List Nat, xs.filter (fun _ => true) = xs :=
    fun xs => List.filter_eq_self.2 fun _ _ => rfl
  have hdrop : ∀ xs : List Nat, xs.filter (fun _ => false) = [] :=
    fun xs => List.filter_eq_nil_iff.2 fun _ _ => Bool.false_ne_true
  cases side with
  | source =>
    have hother : (Side.dest == Side.source) = false := rfl
    rw [chunkCount, hsplit n hn]
    simp [order, List.filter_map, Function.comp_def, hother, hkeep, hdrop]
  | dest =>
    have hother : (Side.source == Side.dest) = false := rfl
    rw [chunkCount, hsplit m hm]
    simp [order, List.filter_map, Function.comp_def, hother, hkeep, hdrop]

/-- The chunks written first are all those of a smaller transfer. -/
theorem take_order {i j : Nat} (hi : 1 ≤ i) (hin : i ≤ n) (hj : 1 ≤ j) (hjm : j ≤ m)
    (h : j = 1 ∨ i = n) : (order n m).take (i + j) = order i j := by
  have htake : ∀ (side : Side) {k l : Nat}, k ≤ l →
      ((List.range' 1 l).map (side, ·)).take k = (List.range' 1 k).map (side, ·) := by
    intro side k l hk
    apply List.ext_getElem
    · simp only [List.length_take, List.length_map, List.length_range']
      omega
    · intro x _ _
      simp only [List.getElem_take, List.getElem_map, List.getElem_range']
  obtain ⟨k, rfl⟩ := Nat.exists_eq_add_of_le' hi
  obtain ⟨l, rfl⟩ := Nat.exists_eq_add_of_le' hj
  have hsum : k + 1 + (l + 1) = k + l + 1 + 1 := by omega
  rw [hsum, order, order, List.take_succ_cons, List.take_succ_cons, List.take_append,
    List.length_map, List.length_range', Nat.add_sub_cancel, Nat.add_sub_cancel]
  -- Either no destination chunk is written in the tail, or all source chunks are.
  rcases h with hl | hk
  · obtain rfl : l = 0 := by omega
    have hnone : k + 0 - (n - 1) = 0 := by omega
    rw [hnone, htake .source (by omega)]
    rfl
  · have hall : k + l - (n - 1) = l := by omega
    have hwhole : ((List.range' 1 (n - 1)).map (Side.source, ·)).length ≤ k + l := by
      simp only [List.length_map, List.length_range']
      omega
    rw [hall, List.take_of_length_le hwhole, htake .dest (by omega), ← hk, Nat.add_sub_cancel]

/-- How many descriptors of a side are written, of `n` and `m`. -/
def cursor (n m : Nat) (p : Progress) : Side → Nat
  | .source => p.sourceCursor n
  | .dest => p.destCursor m

/-- What is written of each side is as many of its chunks as its cursor says. -/
theorem part_take_order (hn : 1 ≤ n) (hm : 1 ≤ m) (h : p.Underway n m ∨ p = .sent) (side : Side) :
    side.part ((order n m).take (p.written n m)) = List.range (p.cursor n m side) := by
  have hpart : ∀ {i j : Nat}, 1 ≤ i → i ≤ n → 1 ≤ j → j ≤ m → j = 1 ∨ i = n →
      side.part ((order n m).take (i + j)) = List.range (chunkCount i j side) := by
    intro i j hi hin hj hjm htail
    rw [take_order hi hin hj hjm htail]
    exact filter_order hi hj side
  cases p with
  | sourceHead => cases side <;> rfl
  | destHead => cases side <;> rfl
  | sourceTail next =>
    have hnext : 1 ≤ next ∧ next < n := by simpa [Underway] using h
    have htail := hpart hnext.1 (Nat.le_of_lt hnext.2) (Nat.le_refl 1) hm (.inl rfl)
    cases side <;> exact htail
  | destTail next =>
    have hnext : 1 ≤ next ∧ next < m := by simpa [Underway] using h
    have htail := hpart hn (Nat.le_refl n) hnext.1 (Nat.le_of_lt hnext.2) (.inr rfl)
    cases side <;> exact htail
  | sent =>
    have hall := hpart hn (Nat.le_refl n) hm (Nat.le_refl m) (.inr rfl)
    cases side <;> exact hall

theorem written_advance (hn : 1 ≤ n) (hm : 1 ≤ m) (h : p.Underway n m) :
    (p.advance n m).written n m = p.written n m + 1 := by
  cases p <;>
    simp only [Underway, advance, startDestTail, written] at h ⊢ <;>
    grind [sourceCursor, destCursor]

/-- After one more descriptor the transfer is still under way, or it is sent. -/
theorem underway_advance (h : p.Underway n m) :
    (p.advance n m).Underway n m ∨ p.advance n m = .sent := by
  cases p <;>
    simp only [Underway, advance, startDestTail] at h ⊢ <;>
    grind [Underway]

theorem written_lt (hn : 1 ≤ n) (hm : 1 ≤ m) (h : p.Underway n m) : p.written n m < n + m := by
  cases p <;> simp only [Underway, written, sourceCursor, destCursor] at h ⊢ <;> omega

end Progress

namespace Transfer

variable {t : Transfer} {pageSize : UInt64}

/-! ## The stream of a transfer -/

/-- The transfer with nothing written yet. -/
def fresh (t : Transfer) : Transfer :=
  { t with progress := .sourceHead }

/-- The descriptor of the first chunk of a side, with the opcode and the attribute of the
request. -/
def firstPiece (t : Transfer) (pageSize : UInt64) (side : Side) (last : Bool) :
    Except Fault Descriptor := do
  let (addr, length) ← (t.range side).chunk 0 pageSize
  Descriptor.head addr length t.request.opcode t.request.attr last

/-- The descriptor of a later chunk of a side. -/
def laterPiece (t : Transfer) (pageSize : UInt64) (side : Side) (index : Nat) (last : Bool) :
    Except Fault Descriptor := do
  let (addr, length) ← (t.range side).chunk index pageSize
  Descriptor.chunk addr length last

/-- The descriptors of a transfer of `n` source and `m` destination pages in the order of writing:
source 0, destination 0, source 1 to `n - 1`, destination 1 to `m - 1`.  The last source descriptor
alone is marked as the last one. -/
def stream (t : Transfer) (pageSize : UInt64) : List (Side × Except Fault Descriptor) :=
  let n := t.source.pageCount
  let m := t.dest.pageCount
  (.source, t.firstPiece pageSize .source (1 == n)) ::
    (.dest, t.firstPiece pageSize .dest false) ::
      ((List.range' 1 (n - 1)).map
          (fun i => (.source, t.laterPiece pageSize .source i (i + 1 == n))) ++
        (List.range' 1 (m - 1)).map (fun i => (.dest, t.laterPiece pageSize .dest i false)))

theorem stream_eq_map_order (t : Transfer) (pageSize : UInt64) :
    t.stream pageSize =
      (Progress.order t.source.pageCount t.dest.pageCount).map
        (fun chunk => (chunk.1, t.descriptor pageSize chunk.1 chunk.2)) := by
  have hlater : ∀ side index, index ≠ 0 →
      t.laterPiece pageSize side index (side == .source && index + 1 == t.source.pageCount) =
        t.descriptor pageSize side index := by
    intro side index hindex
    simp only [laterPiece, descriptor, hindex, ↓reduceIte]
  have hsource : (List.range' 1 (t.source.pageCount - 1)).map
      (fun i => (Side.source, t.laterPiece pageSize .source i (i + 1 == t.source.pageCount))) =
      (List.range' 1 (t.source.pageCount - 1)).map
        (fun i => (Side.source, t.descriptor pageSize .source i)) := by
    apply List.map_congr_left
    intro i hi
    rw [← hlater .source i (by rw [List.mem_range'_1] at hi; omega)]
    rfl
  have hdest : (List.range' 1 (t.dest.pageCount - 1)).map
      (fun i => (Side.dest, t.laterPiece pageSize .dest i false)) =
      (List.range' 1 (t.dest.pageCount - 1)).map
        (fun i => (Side.dest, t.descriptor pageSize .dest i)) := by
    apply List.map_congr_left
    intro i hi
    rw [← hlater .dest i (by rw [List.mem_range'_1] at hi; omega)]
    rfl
  simp only [stream, Progress.order, List.map_cons, List.map_append, List.map_map, hsource, hdest]
  rfl

/-! ## Transfers under way -/

/-- Both ranges have a page. -/
structure Paged (t : Transfer) : Prop where
  source : 1 ≤ t.source.pageCount
  dest : 1 ≤ t.dest.pageCount

/-- Some descriptor is still to be written. -/
structure UnderWay (t : Transfer) : Prop extends t.Paged where
  progress : t.progress.Underway t.source.pageCount t.dest.pageCount

/-- How many descriptors of the transfer are written. -/
def written (t : Transfer) : Nat :=
  t.cursor .source + t.cursor .dest

theorem written_of_sourceHead (h : t.progress = .sourceHead) : t.written = 0 := by
  rw [written, cursor, cursor, h]
  rfl

theorem length_stream (h : t.Paged) (pageSize : UInt64) :
    (t.stream pageSize).length = t.source.pageCount + t.dest.pageCount := by
  rw [stream_eq_map_order, List.length_map, Progress.length_order h.source h.dest]

theorem UnderWay.written_lt (h : t.UnderWay) :
    t.written < t.source.pageCount + t.dest.pageCount :=
  Progress.written_lt h.source h.dest h.progress

/-- Something is still to be written. -/
theorem UnderWay.target?_ne_none (h : t.UnderWay) : t.progress.target? ≠ none := by
  obtain ⟨target, htarget⟩ := Progress.exists_target h.progress
  rw [htarget]
  exact Option.some_ne_none target

/-- The next chunk exists. -/
theorem UnderWay.target_lt (h : t.UnderWay) {side : Side} {index : Nat}
    (htarget : t.progress.target? = some (side, index)) : index < (t.range side).pageCount := by
  have hsource := h.source
  have hdest := h.dest
  have hprogress := h.progress
  cases hp : t.progress <;> rw [hp] at htarget hprogress <;>
    simp only [Progress.target?, Option.some.injEq, Prod.mk.injEq, reduceCtorEq] at htarget <;>
    obtain ⟨rfl, rfl⟩ := htarget
  case sourceHead => exact hsource
  case destHead => exact hdest
  case sourceTail next => exact hprogress.2
  case destTail next => exact hprogress.2

/-- The next descriptor of the stream is the one that the transfer writes next. -/
theorem UnderWay.take_written_succ (h : t.UnderWay) {side : Side} {index : Nat}
    (htarget : t.progress.target? = some (side, index)) (pageSize : UInt64) :
    (t.stream pageSize).take (t.written + 1) =
      (t.stream pageSize).take t.written ++ [(side, t.descriptor pageSize side index)] := by
  have hnext := Progress.getElem?_order h.source h.progress
  rw [htarget] at hnext
  have hposition : t.written = t.progress.written t.source.pageCount t.dest.pageCount := rfl
  rw [List.take_add_one, stream_eq_map_order, List.getElem?_map, hposition, hnext]
  rfl

theorem UnderWay.written_advance (h : t.UnderWay) : t.advance.written = t.written + 1 :=
  Progress.written_advance h.source h.dest h.progress

/-- After one more descriptor the transfer is under way or sent. -/
theorem UnderWay.advance (h : t.UnderWay) : t.advance.UnderWay ∨ t.advance.progress = .sent := by
  rcases Progress.underway_advance h.progress with hunder | hsent
  · exact .inl ⟨⟨h.source, h.dest⟩, hunder⟩
  · exact .inr hsent

/-- A transfer that is sent has written its whole stream. -/
theorem take_written_of_sent (h : t.Paged) (hsent : t.progress = .sent) (pageSize : UInt64) :
    (t.stream pageSize).take t.written = t.stream pageSize := by
  apply List.take_of_length_le
  rw [length_stream h, written, cursor, cursor, hsent]
  exact Nat.le_refl _

/-- The descriptors of a side that are written, in order. -/
def issued (t : Transfer) (pageSize : UInt64) (side : Side) : List (Except Fault Descriptor) :=
  (List.range (t.cursor side)).map (t.descriptor pageSize side)

/-- They are those of the side in the written part of the stream. -/
theorem part_take_written (hpaged : t.Paged)
    (h : t.progress.Underway t.source.pageCount t.dest.pageCount ∨ t.progress = .sent)
    (pageSize : UInt64) (side : Side) :
    side.part ((t.stream pageSize).take t.written) = t.issued pageSize side := by
  have hcursor : t.cursor side = t.progress.cursor t.source.pageCount t.dest.pageCount side := by
    cases side <;> rfl
  have hpart := Progress.part_take_order hpaged.source hpaged.dest h side
  rw [stream_eq_map_order, ← List.map_take, Side.part_map, issued, hcursor, ← hpart]
  rfl

theorem issued_of_sourceHead (h : t.progress = .sourceHead) (pageSize : UInt64) (side : Side) :
    t.issued pageSize side = [] := by
  cases side <;> simp [issued, cursor, h, Progress.sourceCursor, Progress.destCursor]

end Transfer

end DmaQueue
