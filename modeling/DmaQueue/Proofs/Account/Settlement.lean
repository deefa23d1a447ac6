/-
  DmaQueue.Proofs.Account.Settlement

  Every page is given back exactly once, whatever the memory manager answers:
  too few pages, too many, none, or the same ones again.  Each call of a history
  settles with the memory manager in one of five ways, and over the history what
  came back from it is what was released and what the live transfers hold.
-/
import DmaQueue.Pinner.GrantList
import DmaQueue.Proofs.Account.Calls
import DmaQueue.Proofs.Engine.Ledger
import DmaQueue.Proofs.Engine.Queues

namespace DmaQueue.Engine

variable {P R : Type} [Pinner P] [Registers R]

/-! ## Settlement over a history -/

/-- After a history in which every call answered, the pages that came back from the memory manager
are those that were released and those of the live transfers, each as often.  Every call settled
with the memory manager, and nothing else was asked of it.  The transfers of the accepted
submissions are in order those that the calls released, those in flight and those pending; all of
them have as many pages as were counted for their request. -/
theorem settled_of_play {config : Config} {pinner : P} {registers : R} {notes : List Note}
    {start final : Engine P R} {calls : List (Call R)} {log : List (Exchange P R)}
    (hcreate : create config pinner registers = (notes, .ok start))
    (hplay : play calls start = ⟨.ok (), final, log⟩) :
    let accepted := queuedTransfers config log
    (Event.grants (record log)).flatten.Perm
        (Event.releases (record log) ++ final.live.flatMap Transfer.handles) ∧
      accepted.map Transfer.request = log.filterMap Exchange.accepted? ∧
      ∃ freed : List (List Transfer),
        List.Forall₂ (Exchange.Settles config) log freed ∧
        accepted = (freed.flatten ++ final.inFlight ++ final.pending).map Transfer.fresh ∧
        ∀ t ∈ freed.flatten ++ final.inFlight ++ final.pending, t.Spanned config := by
  obtain ⟨hflaw, -, rfl⟩ := create_eq_ok hcreate
  obtain ⟨-, hrequests⟩ := moves_of_play hplay
  obtain ⟨freed, hmoves, hsettles, -⟩ := settled_of_history hplay
  have hsound := Config.sound_of_flaw? hflaw
  have hledger := ledger_of_moves hmoves rfl rfl
  have hbooks := books_of_moves hmoves hsound rfl rfl
  have hspanned := spanned_of_moves hmoves hsound rfl rfl
  refine ⟨?_, hrequests, freed, hsettles, hbooks.order, hspanned⟩
  rw [List.perm_iff_count]
  intro page
  rw [List.count_append, ← Event.grants_deeds, ← Event.releases_deeds]
  exact hledger page

/-! ## A history over a memory manager that errs

The first two requests are pinned whole, and some of their pages are the same.  The third gets pages
that it did not ask for, the fourth gets its destination only, and the last is not let in. -/

def grantEngine : Engine GrantList FifoPair :=
  { config := { fifoFull := 2 }
    pinner :=
      { pageSize := 4096
        physOffset := 0x10_0000
        grants := [.touched, .touched, .touched, .touched, .touched, .pages 5, .refused] }
    registers := { capacity := 2 } }

def grantHistory : List (Call FifoPair) :=
  [ .submit { source := 0x12040, dest := 0x10000, length := 0x2000, opcode := 0, attr := 0 },
    .hardware FifoPair.drained,
    .poll,
    .hardware FifoPair.drained,
    .poll,
    .submit { source := 0x12000, dest := 0x10000, length := 0x1000, opcode := 0, attr := 0 },
    .submit { source := 0x12000, dest := 0x20000, length := 0x40, opcode := 0, attr := 0 },
    .submit { source := 0x12000, dest := 0x20000, length := 0x40, opcode := 0, attr := 0 },
    .submit { source := 0x12000, dest := 0x20000, length := 0x40, opcode := 9, attr := 0 } ]

/-- Of the fourteen pages that came back, twelve were released: those of the first transfer and of
the two requests that were not pinned whole.  The second transfer holds the other two. -/
theorem settled_of_grantHistory :
    let log := (play grantHistory grantEngine).events
    let final := (play grantHistory grantEngine).state
    (Event.grants (record log)).flatten.length = 14 ∧
      (Event.releases (record log)).length = 12 ∧
      (Event.grants (record log)).flatten.Perm
        (Event.releases (record log) ++ final.live.flatMap Transfer.handles) ∧
      ∃ freed : List (List Transfer),
        List.Forall₂ (Exchange.Settles grantEngine.config) log freed ∧
        queuedTransfers grantEngine.config log =
          (freed.flatten ++ final.inFlight ++ final.pending).map Transfer.fresh := by
  have hcreate : create grantEngine.config grantEngine.pinner grantEngine.registers =
      ([], .ok grantEngine) := rfl
  have hplay : play grantHistory grantEngine = ⟨.ok (), (play grantHistory grantEngine).state,
      (play grantHistory grantEngine).events⟩ := Outcome.eq_of_isOk (by decide +kernel)
  obtain ⟨hperm, -, freed, hsettles, horder, -⟩ := settled_of_play hcreate hplay
  exact ⟨by decide +kernel, by decide +kernel, hperm, freed, hsettles, horder⟩

end DmaQueue.Engine
