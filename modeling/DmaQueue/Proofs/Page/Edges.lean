/-
  DmaQueue.Proofs.Page.Edges

  Cutting a range at the page boundaries.  Piece number `i` of the range goes
  from `edge i` to `edge (i + 1)`, where an edge is a page boundary that is
  clamped to the range.  The pieces follow one another without a gap
  (`flatMap_pieces`), and each lies in one page.
-/
import DmaQueue.Proofs.Page.Extent

namespace DmaQueue

namespace Extent

/-- The beginning of piece number `i` of the `length` bytes from `addr` on. -/
def edge (addr length granule i : Nat) : Nat :=
  max addr (min (granule * (addr / granule + i)) (addr + length))

/-- The number of pages that the range touches, if it is not empty. -/
def pieces (addr length granule : Nat) : Nat :=
  (addr + length - 1) / granule - addr / granule + 1

variable {addr length granule i : Nat}

/-! ## Where the edges are -/

theorem edge_zero (addr length granule : Nat) : edge addr length granule 0 = addr := by
  have hle := Nat.mul_div_le addr granule
  rw [edge, Nat.add_zero]
  omega

theorem edge_mono (addr length granule i : Nat) :
    edge addr length granule i ≤ edge addr length granule (i + 1) := by
  have hle : granule * (addr / granule + i) ≤ granule * (addr / granule + (i + 1)) :=
    Nat.mul_le_mul_left _ (by omega)
  simp only [edge]
  omega

/-- The page of every piece begins before the range ends. -/
theorem boundary_lt (hlength : 0 < length) (hi : i < pieces addr length granule) :
    granule * (addr / granule + i) < addr + length := by
  have hend := Nat.mul_div_le (addr + length - 1) granule
  -- No piece lies above the page of the last byte.
  have hlast : granule * (addr / granule + i) ≤ granule * ((addr + length - 1) / granule) := by
    have hle : addr / granule ≤ (addr + length - 1) / granule := Nat.div_le_div_right (by omega)
    unfold pieces at hi
    exact Nat.mul_le_mul_left _ (by omega)
  omega

theorem edge_eq_max (hlength : 0 < length) (hi : i < pieces addr length granule) :
    edge addr length granule i = max addr (granule * (addr / granule + i)) := by
  have hlast := boundary_lt hlength hi
  rw [edge]
  omega

theorem edge_succ_eq_min (hgranule : 0 < granule) (addr length i : Nat) :
    edge addr length granule (i + 1) =
      min (granule * (addr / granule + i) + granule) (addr + length) := by
  have hbegin := Nat.div_add_mod addr granule
  have hmod := Nat.mod_lt addr hgranule
  have hnext : granule * (addr / granule) ≤ granule * (addr / granule + i) :=
    Nat.mul_le_mul_left _ (by omega)
  rw [edge, ← Nat.add_assoc, Nat.mul_succ]
  omega

/-- From the second piece on, a piece begins at a page boundary. -/
theorem edge_of_pos (hgranule : 0 < granule) (hlength : 0 < length) (hpos : 0 < i)
    (hi : i < pieces addr length granule) :
    edge addr length granule i = granule * (addr / granule + i) := by
  have hbegin := Nat.div_add_mod addr granule
  have hmod := Nat.mod_lt addr hgranule
  -- The range begins before the end of its first page, so it begins before any later page.
  have hnext : granule * (addr / granule + 1) ≤ granule * (addr / granule + i) :=
    Nat.mul_le_mul_left _ (by omega)
  rw [Nat.mul_succ] at hnext
  rw [edge_eq_max hlength hi]
  omega

theorem edge_pieces (hgranule : 0 < granule) (hlength : 0 < length) :
    edge addr length granule (pieces addr length granule) = addr + length := by
  have hend := Nat.div_add_mod (addr + length - 1) granule
  have hmod := Nat.mod_lt (addr + length - 1) hgranule
  have hle : addr / granule ≤ (addr + length - 1) / granule :=
    Nat.div_le_div_right (by omega)
  have hcount : addr / granule + pieces addr length granule =
      (addr + length - 1) / granule + 1 := by
    unfold pieces
    omega
  have hnext : granule * (addr / granule + pieces addr length granule) =
      granule * ((addr + length - 1) / granule) + granule := by
    rw [hcount, Nat.mul_succ]
  rw [edge]
  omega

/-! ## How wide the pieces are -/

/-- The first piece is the rest of its page, or the whole range if that is shorter. -/
theorem width_zero (hgranule : 0 < granule) (addr length : Nat) :
    edge addr length granule 1 - edge addr length granule 0 =
      min (granule - addr % granule) length := by
  have hbegin := Nat.div_add_mod addr granule
  have hmod := Nat.mod_lt addr hgranule
  have hnext := edge_succ_eq_min hgranule addr length 0
  rw [Nat.zero_add, Nat.add_zero] at hnext
  rw [hnext, edge_zero]
  omega

/-- A piece that is neither the first nor the last is a whole page. -/
theorem width_between (hgranule : 0 < granule) (hlength : 0 < length) (hpos : 0 < i)
    (hi : i + 1 < pieces addr length granule) :
    edge addr length granule (i + 1) - edge addr length granule i = granule := by
  have hedge := edge_of_pos hgranule hlength hpos (Nat.lt_of_succ_lt hi)
  have hnext : edge addr length granule (i + 1) = granule * (addr / granule + (i + 1)) :=
    edge_of_pos hgranule hlength (Nat.succ_pos i) hi
  rw [hedge, hnext, ← Nat.add_assoc, Nat.mul_succ]
  omega

/-- The last of several pieces goes from the boundary of its page to the end of the range. -/
theorem width_last (hgranule : 0 < granule) (hlength : 0 < length) (hpos : 0 < i)
    (hlast : i + 1 = pieces addr length granule) :
    edge addr length granule (i + 1) - edge addr length granule i =
      (addr + length - 1) % granule + 1 := by
  have hi : i < pieces addr length granule := by omega
  have hedge := edge_of_pos hgranule hlength hpos hi
  have hend : edge addr length granule (i + 1) = addr + length := by
    rw [hlast]
    exact edge_pieces hgranule hlength
  -- The page of the last piece is that of the last byte.
  have hpage : addr / granule + i = (addr + length - 1) / granule := by
    have hle : addr / granule ≤ (addr + length - 1) / granule := Nat.div_le_div_right (by omega)
    unfold pieces at hlast
    omega
  have hsplit := Nat.div_add_mod (addr + length - 1) granule
  rw [hend, hedge, hpage]
  omega

/-! ## The pieces -/

/-- The pieces put together are the range. -/
theorem flatMap_pieces (hgranule : 0 < granule) (hlength : 0 < length) :
    (List.range (pieces addr length granule)).flatMap (fun i =>
      List.range' (edge addr length granule i)
        (edge addr length granule (i + 1) - edge addr length granule i)) =
      List.range' addr length := by
  -- The first `n` pieces reach from the beginning of the range to the beginning of piece `n`.
  have hfirst : ∀ n, (List.range n).flatMap (fun i =>
      List.range' (edge addr length granule i)
        (edge addr length granule (i + 1) - edge addr length granule i)) =
        List.range' addr (edge addr length granule n - addr) := by
    intro n
    induction n with
    | zero => simp [edge_zero]
    | succ n ih =>
      have hmono := edge_mono addr length granule n
      have hbegin : addr ≤ edge addr length granule n := Nat.le_max_left _ _
      have hposition : edge addr length granule n = addr + (edge addr length granule n - addr) := by
        omega
      rw [List.range_succ, List.flatMap_append, ih, List.flatMap_singleton]
      conv => lhs; rhs; rw [hposition]
      rw [List.range'_append_1]
      congr 1
      omega
  rw [hfirst, edge_pieces hgranule hlength, Nat.add_sub_cancel_left]

/-- A piece is not empty and lies between two page boundaries. -/
theorem edge_bounds (hgranule : 0 < granule) (hlength : 0 < length)
    (hi : i < pieces addr length granule) :
    granule * (addr / granule + i) ≤ edge addr length granule i ∧
      edge addr length granule i < edge addr length granule (i + 1) ∧
      edge addr length granule (i + 1) ≤ granule * (addr / granule + i) + granule := by
  have hbegin := Nat.div_add_mod addr granule
  have hmod := Nat.mod_lt addr hgranule
  have hpage : granule * (addr / granule) ≤ granule * (addr / granule + i) :=
    Nat.mul_le_mul_left _ (by omega)
  have hlast := boundary_lt hlength hi
  rw [edge_eq_max hlength hi, edge_succ_eq_min hgranule]
  omega

end Extent

end DmaQueue
