/-
  DmaQueue.Proofs.Engine.Keeps

  What the acts of an engine keep of its parameters and registers, whether they
  answer or fault.  Only the issue loop touches the registers, so what its turns
  and the device side keep is kept by every history (`keeps_play`).
-/
import DmaQueue.Proofs.Engine.History

namespace DmaQueue

/-! ## Acts that keep a property of the state -/

namespace Act

variable {ε σ τ α β : Type} {I J K : σ → Prop}

/-- From a state with `I` the act comes to one with `J`, also if it faults. -/
def Leads (I J : σ → Prop) (m : Act ε σ α) : Prop :=
  ∀ s, I s → J (m s).state

/-- The act keeps `I`, also if it faults. -/
abbrev Keeps (I : σ → Prop) (m : Act ε σ α) : Prop :=
  Leads I I m

theorem Keeps.pure (a : α) : Keeps I (Pure.pure a : Act ε σ α) := fun _ h => h

theorem Keeps.emit (event : ε) : Keeps I (emit event) := fun _ h => h

theorem Keeps.ofExcept (x : Except Fault α) : Keeps I (ofExcept x : Act ε σ α) := fun _ h => h

theorem Keeps.modify {f : σ → σ} (hf : ∀ s, I s → I (f s)) : Keeps I (modify f : Act ε σ Unit) :=
  hf

/-- A fault stops a sequence where the first act leaves it. -/
theorem Leads.bind {m : Act ε σ α} {next : α → Act ε σ β} (hm : Leads I K m)
    (hnext : ∀ a, Leads K J (next a)) (hstop : ∀ s, K s → J s) : Leads I J (m >>= next) := by
  intro s hs
  have hmid := hm s hs
  cases hone : m s with
  | mk result mid events =>
    rw [hone] at hmid
    cases result with
    | ok a =>
      rw [bind_of_ok hone]
      exact hnext a mid hmid
    | error fault =>
      rw [bind_of_error hone]
      exact hstop mid hmid

theorem Keeps.bind {m : Act ε σ α} {next : α → Act ε σ β} (hm : Keeps I m)
    (hnext : ∀ a, Keeps I (next a)) : Keeps I (m >>= next) :=
  Leads.bind hm hnext fun _ h => h

/-- What looks at the state first may go on as it needs to from there. -/
theorem Leads.get_bind {next : σ → Act ε σ β} (h : ∀ s, I s → J (next s s).state) :
    Leads I J (get >>= next) := h

/-- An act on a part keeps what does not depend on the part. -/
theorem Keeps.zoom {part : σ → τ} {put : τ → σ → σ} {m : Act ε τ α}
    (hput : ∀ s r, I s → I (put r s)) : Keeps I (zoom part put m) := fun s h => hput s _ h

end Act

open Act (Keeps Leads)

/-- What every read of a register keeps, a sample keeps. -/
theorem Registers.keeps_sample {R : Type} [Registers R] {kept : R → Prop}
    (hload : ∀ offset, Keeps kept (Registers.load offset : Act Note R UInt32)) :
    Keeps kept (Registers.sample : Act Event R Depths) := by
  have hread : ∀ offset, Keeps kept (Registers.read offset : Act Event R UInt32) := fun offset =>
    .bind (fun r h => hload offset r h) fun _ => .bind (.emit _) fun _ => .pure _
  exact .bind (hread _) fun _ => .bind (hread _) fun _ => .pure _

/-- What every write to a register keeps, a step of an issuer keeps. -/
theorem Issuer.keeps_step {R : Type} [Registers R] {kept : R → Prop}
    (hstore : ∀ offset value, Keeps kept (Registers.store offset value : Act Note R Unit))
    (config : Config) (depths : Depths) :
    Keeps (fun issuer => kept issuer.registers)
      (Issuer.step config depths : Act Event (Issuer R) Report) := by
  have hwrite : ∀ offset value, Keeps kept (Registers.write offset value : Act Event R Unit) :=
    fun offset value => .bind (fun r h => hstore offset value r h) fun _ => .emit _
  have hpush : ∀ side d, Keeps kept (Registers.push side d : Act Event R Unit) :=
    fun side d => .bind (hwrite _ _) fun _ => hwrite _ _
  refine Leads.get_bind fun issuer => Keeps.bind (I := fun issuer => kept issuer.registers)
    (.ofExcept _) (fun next => ?_) issuer
  cases next with
  | stalled side => exact .pure _
  | send side d =>
    exact .bind (.emit _) fun _ => .bind (fun issuer h => hpush side d issuer.registers h) fun _ =>
      .bind (.modify fun _ h => h) fun _ => .pure _
  | complete => exact .pure _

namespace Engine

variable {P R : Type}

/-- A property of the parameters and the registers. -/
def Holds (good : Config → R → Prop) (engine : Engine P R) : Prop :=
  good engine.config engine.registers

variable {good : Config → R → Prop}

/-! ## Parts of a turn -/

theorem keeps_count (f : Tally → Tally) :
    Keeps (Holds good) (count f : Act Event (Engine P R) Unit) :=
  .modify fun _ h => h

theorem keeps_heed (report : Report) :
    Keeps (Holds good) (heed report : Act Event (Engine P R) (Option Pause)) := by
  have hretire : Keeps (Holds good) (Act.modify retireHead : Act Event (Engine P R) Unit) := by
    refine .modify fun engine h => ?_
    unfold retireHead
    split <;> exact h
  cases report with
  | issued side => exact .bind (keeps_count _) fun _ => .pure _
  | finished side => exact .bind (keeps_count _) fun _ => .bind hretire fun _ => .pure _
  | stalled side => exact .bind (keeps_count _) fun _ => .bind (.emit _) fun _ => .pure _
  | alreadySent => exact .bind hretire fun _ => .pure _

theorem keeps_onPinner {α : Type} (m : Act Event P α) :
    Keeps (Holds good) (onPinner m : Act Event (Engine P R) α) :=
  .zoom fun _ _ h => h

variable [Pinner P]

theorem keeps_reclaimAll (ts : List Transfer) :
    Keeps (Holds good) (reclaimAll ts : Act Event (Engine P R) Unit) := by
  induction ts with
  | nil => exact .pure _
  | cons t rest ih =>
    exact .bind (.modify fun _ h => h) fun _ =>
      .bind (keeps_onPinner _) fun _ => .bind (keeps_count _) fun _ => ih

/-- To reclaim is to call on the memory manager only. -/
theorem keeps_reclaimIfDrained (depths : Depths) :
    Keeps (Holds good) (reclaimIfDrained depths : Act Event (Engine P R) Unit) := by
  refine Leads.get_bind fun engine h => ?_
  split
  · exact Keeps.bind (keeps_reclaimAll engine.inFlight) (fun _ => .emit _) engine h
  · exact h

theorem keeps_pinRange (address length : UInt64) (writable : Bool) :
    Keeps (Holds good) (pinRange address length writable : Act Event (Engine P R) _) := by
  refine .bind (keeps_onPinner _) fun answer => ?_
  cases answer with
  | ok pages => exact .pure _
  | error failure => exact .bind (.emit _) fun _ => .pure _

/-! ## Turns -/

section Turns

variable [Registers R] {kept : R → Prop}

omit [Pinner P] [Registers R] in
theorem keeps_onRegisters {α : Type} {m : Act Event R α} (h : Keeps kept m) :
    Keeps (Holds fun _ => kept) (onRegisters m : Act Event (Engine P R) α) :=
  fun engine hkept => h engine.registers hkept

omit [Pinner P] in
theorem keeps_sample (hload : ∀ offset, Keeps kept (Registers.load offset : Act Note R UInt32)) :
    Keeps (Holds fun _ => kept) (sample : Act Event (Engine P R) Depths) :=
  .bind (keeps_onRegisters (Registers.keeps_sample hload)) fun _ => .bind (.emit _) fun _ => .pure _

omit [Pinner P] in
theorem keeps_serveFirst
    (hstore : ∀ offset value, Keeps kept (Registers.store offset value : Act Note R Unit))
    (depths : Depths) (pending : List Transfer) :
    Keeps (Holds fun _ => kept)
      (serveFirst depths pending : Act Event (Engine P R) (Option Pause)) := by
  cases pending with
  | nil => exact .pure _
  | cons t rest =>
    have hissue : ∀ config, Keeps (Holds fun _ => kept)
        (onIssuer t rest (Issuer.step config depths) : Act Event (Engine P R) Report) :=
      fun config engine h => Issuer.keeps_step hstore config depths ⟨t, engine.registers⟩ h
    exact Leads.get_bind fun engine => Keeps.bind (hissue engine.config) keeps_heed engine

/-- What every access to the control block keeps, every turn keeps. -/
theorem keeps_turn_of_accesses
    (hload : ∀ offset, Keeps kept (Registers.load offset : Act Note R UInt32))
    (hstore : ∀ offset value, Keeps kept (Registers.store offset value : Act Note R Unit)) :
    Keeps (Holds fun _ => kept) (turn : Act Event (Engine P R) (Option Pause)) :=
  .bind (keeps_sample hload) fun depths => .bind (keeps_reclaimIfDrained depths) fun _ =>
    Leads.get_bind fun engine => keeps_serveFirst hstore depths engine.pending engine

end Turns

/-! ## Calls -/

variable [Registers R]

/-- What every turn keeps, the loop keeps. -/
theorem keeps_run (hturn : Keeps (Holds good) (turn : Act Event (Engine P R) _)) :
    Keeps (Holds good) (run : Act Event (Engine P R) Pause) := by
  intro engine h
  induction hn : engine.workload using Nat.strongRecOn generalizing engine with
  | ind n ih =>
    have hone := hturn engine h
    cases houtcome : turn engine with
    | mk result next events =>
      rw [houtcome] at hone
      cases result with
      | error fault =>
        rw [run_of_turn_eq_error houtcome]
        exact hone
      | ok pause? =>
        cases pause? with
        | some pause =>
          rw [run_of_turn_eq_some houtcome]
          exact hone
        | none =>
          rw [run_of_turn_eq_none houtcome]
          exact ih next.workload (hn ▸ workload_lt_of_turn houtcome) next hone rfl

theorem keeps_submit (hturn : Keeps (Holds good) (turn : Act Event (Engine P R) _))
    (request : Request) :
    Keeps (Holds good) (submit request : Act Event (Engine P R) (Except Failure Unit)) := by
  refine Leads.get_bind fun engine => Keeps.bind (.ofExcept _) (fun verdict => ?_) engine
  cases verdict with
  | error rejection => exact .bind (keeps_count _) fun _ => .bind (.emit _) fun _ => .pure _
  | ok admitted =>
    refine .bind (keeps_pinRange _ _ _) fun source => .bind (keeps_pinRange _ _ _) fun dest => ?_
    split
    · exact .bind (.emit _) fun _ => .bind (.modify fun _ h => h) fun _ =>
        .bind (keeps_count _) fun _ => .bind (keeps_run hturn) fun _ => .pure _
    · exact .bind (.ofExcept _) fun _ => .bind (keeps_onPinner _) fun _ =>
        .bind (keeps_count _) fun _ => .bind (.emit _) fun _ => .pure _

theorem keeps_act (hturn : Keeps (Holds good) (turn : Act Event (Engine P R) _)) {call : Call R}
    (hdevice : ∀ change, call = .hardware change →
      ∀ config r, good config r → good config (change r)) :
    Keeps (Holds good) (call.act : Act Event (Engine P R) Answer) := by
  cases call with
  | submit request => exact .bind (keeps_submit hturn request) fun _ => .pure _
  | poll =>
    have hpoll : Keeps (Holds good) (poll : Act Event (Engine P R) Bool) :=
      .bind (keeps_run hturn) fun _ => Leads.get_bind fun _ h => h
    exact .bind hpoll fun _ => .pure _
  | hardware change =>
    exact .bind (.modify fun engine h => hdevice change rfl engine.config engine.registers h)
      fun _ => .pure _

/-- What every turn and the device side keep, every history keeps, also one that ends with a
fault. -/
theorem keeps_play (hturn : Keeps (Holds good) (turn : Act Event (Engine P R) _))
    {calls : List (Call R)} (hdevice : ∀ change, .hardware change ∈ calls →
      ∀ config r, good config r → good config (change r)) :
    Keeps (Holds good) (play calls : Act (Exchange P R) (Engine P R) Unit) := by
  induction calls with
  | nil => exact .pure _
  | cons call rest ih =>
    have hcall : Keeps (Holds good) (perform call : Act (Exchange P R) (Engine P R) Unit) :=
      keeps_act hturn fun change hchange => hdevice change (hchange ▸ List.mem_cons_self ..)
    exact .bind hcall fun _ => ih fun change hmem => hdevice change (List.mem_cons_of_mem _ hmem)

end Engine

end DmaQueue
