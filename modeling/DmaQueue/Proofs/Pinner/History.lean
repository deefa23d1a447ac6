/-
  DmaQueue.Proofs.Pinner.History

  Histories of a region table: any calls, by anyone, with any arguments.  `play`
  carries them out and keeps each with the table that it found and its outcome.
  What a page has come to can be read off such a log: how often it was answered,
  which releases found it pinned, and which of them made it dirty.  So can the
  limit that is in force.
-/
import DmaQueue.Proofs.Pinner.Mapping
import Mathlib.Data.List.DropRight

namespace DmaQueue.RegionTable

/-! ## Calls -/

/-- A call on a region table. -/
inductive Call where
  | pin (address length : UInt64) (writable : Bool)
  | unpin (page : PinnedPage) (dirty : Bool)
  | addRegion (region : Region)
  | setLimit (limit : Option UInt64)
  | takeDirty
  deriving DecidableEq

/-- What a call answers. -/
inductive Answer where
  | pinned (result : Except PinFailure (List PinnedPage))
  | unpinned
  | added (result : Except PinFailure Unit)
  | limited
  | taken (pages : List UInt64)

/-- A call together with the table that it found and its outcome. -/
structure Exchange where
  call : Call
  before : RegionTable
  outcome : Outcome Note RegionTable Answer

/-- Carries out a call. -/
def Call.act : Call → Act Note RegionTable Answer
  | .pin address length writable => do
    let result ← RegionTable.pin address length writable
    return .pinned result
  | .unpin page dirty => do
    RegionTable.unpin page dirty
    return .unpinned
  | .addRegion region => do
    let result ← RegionTable.addRegion region
    return .added result
  | .setLimit limit => do
    Act.modify (RegionTable.setLimit limit)
    return .limited
  | .takeDirty => do
    let pages ← RegionTable.takeDirty
    return .taken pages

/-- What a call that answers comes to: the answer, and the table afterwards.  Setting the limit and
taking the dirty pages cannot fault. -/
inductive Acts (table : RegionTable) : Call → Answer → RegionTable → Prop
  | pinned {address length : UInt64} {writable : Bool}
      {result : Except PinFailure (List PinnedPage)} {table' : RegionTable} {notes : List Note}
      (hpin : RegionTable.pin address length writable table = ⟨.ok result, table', notes⟩) :
      Acts table (.pin address length writable) (.pinned result) table'
  | unpinned {page : PinnedPage} {dirty : Bool} {table' : RegionTable} {notes : List Note}
      (hunpin : RegionTable.unpin page dirty table = ⟨.ok (), table', notes⟩) :
      Acts table (.unpin page dirty) .unpinned table'
  | added {region : Region} {result : Except PinFailure Unit} {table' : RegionTable}
      {notes : List Note}
      (hadd : RegionTable.addRegion region table = ⟨.ok result, table', notes⟩) :
      Acts table (.addRegion region) (.added result) table'
  | limited {limit : Option UInt64} :
      Acts table (.setLimit limit) .limited (RegionTable.setLimit limit table)
  | taken : Acts table .takeDirty (.taken table.dirty.pages) { table with dirty := .empty }

theorem acts_of_act {call : Call} {table table' : RegionTable} {answer : Answer}
    {notes : List Note} (h : call.act table = ⟨.ok answer, table', notes⟩) :
    Acts table call answer table' := by
  cases call with
  | pin address length writable =>
    obtain ⟨result, _, _, _, hpin, hpure, -⟩ := Act.bind_eq_ok_iff.1 h
    obtain ⟨rfl, rfl, -⟩ := Act.pure_eq_ok_iff.1 hpure
    exact .pinned hpin
  | unpin page dirty =>
    obtain ⟨_, _, _, _, hunpin, hpure, -⟩ := Act.bind_eq_ok_iff.1 h
    obtain ⟨rfl, rfl, -⟩ := Act.pure_eq_ok_iff.1 hpure
    exact .unpinned hunpin
  | addRegion region =>
    obtain ⟨result, _, _, _, hadd, hpure, -⟩ := Act.bind_eq_ok_iff.1 h
    obtain ⟨rfl, rfl, -⟩ := Act.pure_eq_ok_iff.1 hpure
    exact .added hadd
  | setLimit limit =>
    have hpure := Act.modify_bind_eq_ok_iff.1 h
    obtain ⟨rfl, rfl, -⟩ := Act.pure_eq_ok_iff.1 hpure
    exact .limited
  | takeDirty =>
    obtain ⟨pages, _, _, _, htake, hpure, -⟩ := Act.bind_eq_ok_iff.1 h
    obtain ⟨rfl, rfl, -⟩ := Act.pure_eq_ok_iff.1 hpure
    have htaken := Act.modify_bind_eq_ok_iff.1 (Act.get_bind_eq_ok_iff.1 htake)
    obtain ⟨rfl, rfl, -⟩ := Act.pure_eq_ok_iff.1 htaken
    exact .taken

/-- Carries out a call and keeps its outcome. -/
def perform (call : Call) : Act Exchange RegionTable Unit := fun table =>
  let outcome := call.act table
  ⟨outcome.result.map fun _ => (), outcome.state, [⟨call, table, outcome⟩]⟩

/-- Carries out calls one after the other, until one of them faults. -/
def play : List Call → Act Exchange RegionTable Unit
  | [] => return ()
  | call :: rest => do
    perform call
    play rest

theorem perform_eq_ok {call : Call} {table table' : RegionTable} {log : List Exchange}
    (h : perform call table = ⟨.ok (), table', log⟩) :
    ∃ answer notes, call.act table = ⟨.ok answer, table', notes⟩ ∧
      log = [⟨call, table, ⟨.ok answer, table', notes⟩⟩] := by
  unfold perform at h
  cases houtcome : call.act table with
  | mk result state notes =>
    rw [houtcome] at h
    cases result with
    | error fault => simp [Except.map] at h
    | ok answer =>
      simp only [Except.map, Outcome.mk.injEq, true_and] at h
      obtain ⟨rfl, rfl⟩ := h
      exact ⟨answer, notes, rfl, rfl⟩

theorem play_cons_of_ok {call : Call} {rest : List Call} {table mid : RegionTable}
    {answer : Answer} {notes : List Note} (h : call.act table = ⟨.ok answer, mid, notes⟩) :
    play (call :: rest) table =
      (play rest mid).after [⟨call, table, ⟨.ok answer, mid, notes⟩⟩] := by
  have hperform :
      perform call table = ⟨.ok (), mid, [⟨call, table, ⟨.ok answer, mid, notes⟩⟩]⟩ := by
    unfold perform
    rw [h]
    rfl
  exact Act.bind_of_ok hperform

/-- The first call is carried out on the table as it is. -/
theorem mem_play_cons (call : Call) (rest : List Call) (table : RegionTable) :
    (⟨call, table, call.act table⟩ : Exchange) ∈ (play (call :: rest) table).events := by
  cases hone : call.act table with
  | mk result mid notes =>
    cases result with
    | ok answer =>
      rw [play_cons_of_ok hone]
      exact List.mem_cons_self ..
    | error fault =>
      have hperform : perform call table =
          ⟨.error fault, mid, [⟨call, table, ⟨.error fault, mid, notes⟩⟩]⟩ := by
        unfold perform
        rw [hone]
        rfl
      rw [play, Act.bind_of_error hperform]
      exact List.mem_singleton_self _

/-- What every call that answers preserves, a history preserves in which every call answers.  The
log is `past` before it. -/
theorem play_induction {I : List Exchange → RegionTable → Prop}
    (hcall : ∀ {past table call answer table' notes}, I past table →
      Call.act call table = ⟨.ok answer, table', notes⟩ →
      I (past ++ [⟨call, table, ⟨.ok answer, table', notes⟩⟩]) table')
    {calls : List Call} {past log : List Exchange} {table final : RegionTable} (hI : I past table)
    (h : play calls table = ⟨.ok (), final, log⟩) : I (past ++ log) final := by
  induction calls generalizing past table log with
  | nil =>
    obtain ⟨-, rfl, rfl⟩ := Act.pure_eq_ok_iff.1 h
    rw [List.append_nil]
    exact hI
  | cons call rest ih =>
    obtain ⟨_, mid, first, later, hperform, hrest, rfl⟩ := Act.bind_eq_ok_iff.1 h
    obtain ⟨answer, notes, hact, rfl⟩ := perform_eq_ok hperform
    rw [← List.append_assoc]
    exact ih (hcall hI hact) hrest

/-! ## What a log tells of a page -/

namespace Exchange

/-- The pages that the call answered, if it is a pin call. -/
def answered (x : Exchange) : List UInt64 :=
  match x.outcome.result with
  | .ok (.pinned result) => PinnedPage.virts (result.toOption.getD [])
  | _ => []

/-- Whether the call is a release of exactly this page, which it found pinned. -/
def releases (page : UInt64) (x : Exchange) : Bool :=
  match x.call with
  | .unpin handle _ => handle.virt == page && 0 < x.before.held.count page
  | _ => false

/-- Whether the call is such a release, and a dirty one. -/
def soils (page : UInt64) (x : Exchange) : Bool :=
  match x.call with
  | .unpin _ dirty => dirty && x.releases page
  | _ => false

/-- Whether the call takes the dirty pages. -/
def takes (x : Exchange) : Bool :=
  match x.call with
  | .takeDirty => true
  | _ => false

/-- The limit that the call sets or lifts, if that is what it does. -/
def limited? (x : Exchange) : Option (Option UInt64) :=
  match x.call with
  | .setLimit limit => some limit
  | _ => none

end Exchange

/-- The part of a log after the dirty pages were last taken. -/
def sinceTaken (log : List Exchange) : List Exchange :=
  log.rtakeWhile fun x => !x.takes

theorem sinceTaken_concat {x : Exchange} (log : List Exchange) (h : x.takes = false) :
    sinceTaken (log ++ [x]) = sinceTaken log ++ [x] :=
  List.rtakeWhile_concat_pos _ _ _ (by simp [h])

theorem sinceTaken_concat_of_takes {x : Exchange} (log : List Exchange) (h : x.takes = true) :
    sinceTaken (log ++ [x]) = [] :=
  List.rtakeWhile_concat_neg _ _ _ (by simp [h])

/-- The limit that is in force after a log: the one that was set last, and none before the first. -/
def limitAfter (log : List Exchange) : Option UInt64 :=
  (log.filterMap Exchange.limited?).getLastD none

theorem limitAfter_concat (log : List Exchange) (x : Exchange) :
    limitAfter (log ++ [x]) = x.limited?.getD (limitAfter log) := by
  rw [limitAfter, limitAfter, List.filterMap_append]
  cases hlimited : x.limited? with
  | none => simp [hlimited]
  | some limit => simp [hlimited]

end DmaQueue.RegionTable
