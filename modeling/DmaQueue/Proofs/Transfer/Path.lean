/-
  DmaQueue.Proofs.Transfer.Path

  The progresses that a transfer goes through, as one list: `Progress.path`.  A
  progress stands there at the number of descriptors written when it is reached
  (`getElem?_path`), so a transfer advances along the path (`nth_succ`) and comes
  to every progress that it can be in (`exists_nth_iff`).  Each step goes up in
  rank, or on to the next chunk of the same rank, and moves the cursor of its own
  side by one.
-/
import DmaQueue.Proofs.Transfer.Order

namespace DmaQueue.Progress

variable {n m : Nat} {p : Progress}

/-! ## One step -/

/-- The number of the chunk that is written next, in a tail. -/
def next : Progress → Nat
  | .sourceTail next => next
  | .destTail next => next
  | .sourceHead => 0
  | .destHead => 0
  | .sent => 0

/-- First the rank is compared, and then the number of the next chunk. -/
def Precedes (p q : Progress) : Prop :=
  Prod.Lex (· < ·) (· < ·) (p.rank, p.next) (q.rank, q.next)

theorem precedes_of_rank_lt {q : Progress} (h : p.rank < q.rank) : p.Precedes q :=
  .left _ _ h

theorem precedes_advance (h : p.Underway n m) : p.Precedes (p.advance n m) := by
  cases p with
  | sourceHead => exact precedes_of_rank_lt (by decide : 0 < 1)
  | destHead =>
    simp only [advance, startDestTail]
    split
    · exact precedes_of_rank_lt (by decide : 1 < 2)
    · split
      · exact precedes_of_rank_lt (by decide : 1 < 3)
      · exact precedes_of_rank_lt (by decide : 1 < 4)
  | sourceTail next =>
    simp only [advance, startDestTail]
    split
    · split
      · exact precedes_of_rank_lt (by decide : 2 < 3)
      · exact precedes_of_rank_lt (by decide : 2 < 4)
    · exact .right _ (Nat.lt_succ_self next)
  | destTail next =>
    simp only [advance]
    split
    · exact precedes_of_rank_lt (by decide : 3 < 4)
    · exact .right _ (Nat.lt_succ_self next)
  | sent => exact h.elim

/-- The cursor of the side that is written to goes up by one, and the other one stays. -/
theorem cursor_advance (hn : 1 ≤ n) (hm : 1 ≤ m) (h : p.Underway n m) {side : Side} {index : Nat}
    (htarget : p.target? = some (side, index)) (other : Side) :
    (p.advance n m).cursor n m other =
      p.cursor n m other + if other = side then 1 else 0 := by
  cases p <;> simp only [target?, Option.some.injEq, Prod.mk.injEq, reduceCtorEq] at htarget <;>
    obtain ⟨rfl, rfl⟩ := htarget <;> cases other <;>
    -- A tail is entered at 1, and one that is left out has no chunk after its first.
    simp only [Underway, advance, startDestTail, cursor, reduceCtorEq, ↓reduceIte] at h ⊢ <;>
    grind [sourceCursor, destCursor]

/-! ## The path -/

/-- The progresses of a transfer of `n` source and `m` destination pages, in order. -/
def path (n m : Nat) : List Progress :=
  .sourceHead :: .destHead ::
    ((List.range' 1 (n - 1)).map .sourceTail ++ ((List.range' 1 (m - 1)).map .destTail ++ [.sent]))

/-- The progress in which a chunk is next. -/
def ofTarget : Side × Nat → Progress
  | (.source, 0) => .sourceHead
  | (.dest, 0) => .destHead
  | (.source, next) => .sourceTail next
  | (.dest, next) => .destTail next

theorem ofTarget_of_underway (h : p.Underway n m) {target : Side × Nat}
    (htarget : p.target? = some target) : ofTarget target = p := by
  cases p with
  | sourceHead | destHead =>
    obtain rfl := Option.some.inj htarget
    rfl
  | sourceTail next | destTail next =>
    obtain rfl := Option.some.inj htarget
    -- The chunk of a tail is not the first of its side.
    obtain ⟨_, rfl⟩ := Nat.exists_eq_add_of_le' h.1
    rfl
  | sent => exact h.elim

/-- The path runs through the chunks in the order of writing. -/
theorem path_eq_map_order (n m : Nat) : path n m = (order n m).map ofTarget ++ [.sent] := by
  have htail : ∀ (side : Side) (tail : Nat → Progress),
      (∀ i, ofTarget (side, i + 1) = tail (i + 1)) →
      ∀ k, ((List.range' 1 k).map (side, ·)).map ofTarget = (List.range' 1 k).map tail := by
    intro side tail htail k
    rw [List.map_map]
    apply List.map_congr_left
    intro i hi
    obtain ⟨j, rfl⟩ := Nat.exists_eq_add_of_le' (List.mem_range'_1.1 hi).1
    exact htail j
  rw [order, List.map_cons, List.map_cons, List.map_append, htail .source .sourceTail fun _ => rfl,
    htail .dest .destTail fun _ => rfl, List.cons_append, List.cons_append, List.append_assoc]
  rfl

/-- A progress stands on the path behind one for each descriptor written. -/
theorem getElem?_path (hn : 1 ≤ n) (hm : 1 ≤ m) (h : p.Underway n m ∨ p = .sent) :
    (path n m)[p.written n m]? = some p := by
  have hlength : ((order n m).map ofTarget).length = n + m := by
    rw [List.length_map, length_order hn hm]
  rw [path_eq_map_order]
  rcases h with hunder | rfl
  · have hlt : p.written n m < ((order n m).map ofTarget).length :=
      hlength ▸ written_lt hn hm hunder
    rw [List.getElem?_append_left hlt, List.getElem?_map, getElem?_order hn hunder]
    obtain ⟨target, htarget⟩ := exists_target hunder
    rw [htarget, Option.map_some, ofTarget_of_underway hunder htarget]
  · have hend : written n m .sent = ((order n m).map ofTarget).length := hlength.symm
    rw [hend, List.getElem?_concat_length]

/-- Where the `i`-th step finds the transfer: on the path, and from its end on at the end. -/
def nth (n m i : Nat) : Progress :=
  (path n m).getD (min i (n + m)) .sent

theorem nth_written (hn : 1 ≤ n) (hm : 1 ≤ m) (h : p.Underway n m ∨ p = .sent) {i : Nat}
    (hi : p.written n m = min i (n + m)) : nth n m i = p := by
  rw [nth, ← hi, List.getD_eq_getElem?_getD, getElem?_path hn hm h, Option.getD_some]

theorem written_sent (n m : Nat) : written n m .sent = n + m := rfl

/-- The path up to its end, and from there on. -/
def OnPath (n m i : Nat) (p : Progress) : Prop :=
  p.Underway n m ∧ p.written n m = i ∧ i < n + m ∨ p = .sent ∧ n + m ≤ i

theorem OnPath.nth_eq (hn : 1 ≤ n) (hm : 1 ≤ m) {i : Nat} (h : OnPath n m i p) :
    nth n m i = p := by
  rcases h with ⟨hunder, hwritten, hlt⟩ | ⟨rfl, hle⟩
  · refine nth_written hn hm (.inl hunder) ?_
    rw [hwritten, Nat.min_eq_left (Nat.le_of_lt hlt)]
  · refine nth_written hn hm (.inr rfl) ?_
    rw [written_sent, Nat.min_eq_right hle]

theorem OnPath.advance (hn : 1 ≤ n) (hm : 1 ≤ m) {i : Nat} (h : OnPath n m i p) :
    OnPath n m (i + 1) (p.advance n m) := by
  rcases h with ⟨hunder, rfl, hlt⟩ | ⟨rfl, hle⟩
  · have hmore := written_advance hn hm hunder
    rcases underway_advance hunder with hagain | hsent
    · exact .inl ⟨hagain, hmore, hmore ▸ written_lt hn hm hagain⟩
    · rw [hsent, written_sent] at hmore
      exact .inr ⟨hsent, Nat.le_of_eq hmore⟩
  · exact .inr ⟨rfl, Nat.le_succ_of_le hle⟩

theorem onPath_nth (hn : 1 ≤ n) (hm : 1 ≤ m) (i : Nat) : OnPath n m i (nth n m i) := by
  induction i with
  | zero =>
    have hfirst : OnPath n m 0 .sourceHead := .inl ⟨trivial, rfl, by omega⟩
    rw [hfirst.nth_eq hn hm]
    exact hfirst
  | succ i ih =>
    have hnext := ih.advance hn hm
    rw [hnext.nth_eq hn hm]
    exact hnext

/-- A transfer advances along the path. -/
theorem nth_succ (hn : 1 ≤ n) (hm : 1 ≤ m) (i : Nat) :
    nth n m (i + 1) = (nth n m i).advance n m :=
  ((onPath_nth hn hm i).advance hn hm).nth_eq hn hm

/-- The transfer is sent once it has gone all the way. -/
theorem nth_eq_sent_iff (hn : 1 ≤ n) (hm : 1 ≤ m) (i : Nat) : nth n m i = .sent ↔ n + m ≤ i := by
  rcases onPath_nth hn hm i with ⟨hunder, -, hlt⟩ | ⟨hsent, hle⟩
  · refine ⟨fun hsent => ?_, fun hle => absurd hle (Nat.not_le.2 hlt)⟩
    rw [hsent] at hunder
    exact hunder.elim
  · exact ⟨fun _ => hle, fun _ => hsent⟩

/-- Nothing is left out of a path that is gone to its end: every progress that a transfer can be in
was come to. -/
theorem exists_nth_iff (hn : 1 ≤ n) (hm : 1 ≤ m) {s : Nat} (hs : n + m ≤ s) (hp : p ≠ .sent) :
    (∃ i < s, nth n m i = p) ↔ p.Underway n m := by
  constructor
  · rintro ⟨i, -, rfl⟩
    rcases onPath_nth hn hm i with ⟨hunder, -⟩ | ⟨hsent, -⟩
    · exact hunder
    · exact absurd hsent hp
  · intro hunder
    have hlt := written_lt hn hm hunder
    exact ⟨_, Nat.lt_of_lt_of_le hlt hs, OnPath.nth_eq hn hm (.inl ⟨hunder, rfl, hlt⟩)⟩

end DmaQueue.Progress
