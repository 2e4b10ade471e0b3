import UpgradeSched.Wakeups.Sleepers

/-!
# Who notifies a wait set

The threads that are about to notify all sleepers of a gate, and the steps that
are followed by such a notification: the closing of the gate and the decrement to
zero, except for the decrement of `release_task_slot`, whose previous value
nobody looks at.
-/

namespace UpgradeSched

open Interleaving

namespace Access

/-- The access notifies all threads asleep on `x`. -/
def Notifies (x : Obj) : Access → Prop
  | .gate y op _ => x = y ∧ op.notifies = true
  | _ => False

/-- The access takes the counter of `x` from one to zero. -/
def Drains (x : Obj) : Access → Prop
  | .gate y op r => x = y ∧ op.Drains r
  | _ => False

/-- The access closes `x`. -/
def Closes (x : Obj) : Access → Prop
  | .gate y op _ => x = y ∧ op.closes = true
  | _ => False

/-- The access neither closes a gate nor takes from a counter. -/
def Plain : Access → Prop
  | .gate _ op _ => op.subs = 0 ∧ op.closes = false
  | _ => True

end Access

/-! ## Places -/

/-- The call is about to notify all threads asleep on `x`. -/
def Call.Notifying (x : Obj) : Call → Prop
  | .push _ _ (.groupUndoNotify g _) | .push _ _ (.unregisterNotify g _) => x = .group g
  | .stop y .notify => x = y
  | .create s (.stop .notify) | .destroy s (.stop .notify) => x = .sched s
  | _ => False

def Worker.Notifying (x : Obj) (worker : Worker) : Prop :=
  match worker.pc with
  | .notify _ => x = .sched worker.s
  | .groupNotify _ g _ => x = .group g
  | _ => False

def Thread.Notifying (x : Obj) (p : Thread) : Prop :=
  match p.call with
  | some call => call.Notifying x
  | none => ∃ worker, p.worker = some worker ∧ worker.Notifying x

/-- The submission to `s` is about to run `release_task_slot`. -/
def Call.Releasing (s : ℕ) : Call → Prop
  | .push t _ .release | .push t _ .rollback => t = s
  | _ => False

def Thread.Releasing (s : ℕ) (p : Thread) : Prop :=
  ∃ call, p.call = some call ∧ call.Releasing s

/-- The submission is in `add_task` or in `task_completed` of the group `g`. -/
def PushPc.InGroup (g : ℕ) {group : Option ℕ} : PushPc group → Prop
  | .groupCheck f _ | .groupAdd f _ | .groupRecheck f _ | .groupUndo f _
  | .groupUndoNotify f _ | .unregister f _ | .unregisterNotify f _ => f = g
  | _ => False

/-- The call is a submission to a scheduler or to a group, or it stops one. -/
def Call.UnderWay : Obj → Call → Prop
  | .sched s, .push t _ _ => t = s
  | .group g, .push _ _ pc => pc.InGroup g
  | x, .stop y _ => x = y
  | x, .create t (.stop _) | x, .destroy t (.stop _) => x = .sched t
  | _, _ => False

/-- The worker is in `task_completed` of a scheduler or of a group. -/
def Worker.Completing (x : Obj) (worker : Worker) : Prop :=
  match worker.pc with
  | .record _ | .release _ | .notify _ => x = .sched worker.s
  | .groupRelease _ g _ | .groupNotify _ g _ => x = .group g
  | _ => False

/-- The thread is in the middle of a submission, a completion or a shutdown. -/
def Thread.UnderWay (x : Obj) (p : Thread) : Prop :=
  (∃ call, p.call = some call ∧ call.UnderWay x) ∨
    ∃ worker, p.worker = some worker ∧ worker.Completing x

instance {g : ℕ} {group : Option ℕ} (pc : PushPc group) : Decidable (pc.InGroup g) := by
  unfold PushPc.InGroup
  split <;> infer_instance

instance (x : Obj) (call : Call) : Decidable (call.UnderWay x) := by
  unfold Call.UnderWay
  split <;> infer_instance

instance (x : Obj) (worker : Worker) : Decidable (worker.Completing x) := by
  unfold Worker.Completing
  split <;> infer_instance

instance (x : Obj) : DecidablePred (Thread.UnderWay x) := fun p =>
  decidable_of_iff
    (p.call.any (fun call => call.UnderWay x) ∨ p.worker.any fun worker => worker.Completing x)
    (by simp [Thread.UnderWay, Option.any_eq_true])

/-! ## What is followed by a notification -/

section Control

variable {x : Obj} {s : ℕ}

theorem Access.Plain.not_drains {access : Access} (h : access.Plain) : ¬ access.Drains x := by
  cases access with
  | gate y op r =>
      rintro ⟨-, hd⟩
      cases op with
      | fetchSub => exact absurd h.1 Nat.one_ne_zero
      | _ => exact hd
  | _ => exact id

theorem Access.Plain.not_closes {access : Access} (h : access.Plain) : ¬ access.Closes x := by
  cases access with
  | gate y op r =>
      rintro ⟨-, hc⟩
      rw [h.2] at hc
      cases hc
  | _ => exact id

/-- What one step of a call has to do with notifications. -/
def Call.Notes (x : Obj) (call : Call) (call' : Option Call) (access : Access) : Prop :=
  (call.Notifying x → access.Notifies x) ∧
    (access.Drains x → (∃ next, call' = some next ∧ next.Notifying x) ∨
      ∃ s, x = .sched s ∧ call.Releasing s) ∧
    (access.Closes x → ∃ next, call' = some next ∧ next.Notifying x)

theorem Call.notes_of_plain {call : Call} {call' : Option Call} {access : Access}
    (hplain : access.Plain) (hnot : ¬ call.Notifying x) : call.Notes x call' access :=
  ⟨fun h => absurd h hnot, fun h => absurd h hplain.not_drains,
    fun h => absurd h hplain.not_closes⟩

theorem Call.notes_of_notifyAll {call : Call} {call' : Option Call} {y : Obj}
    (hnot : call.Notifying x → x = y) :
    call.Notes x call' (.gate y .notifyAll ()) :=
  ⟨fun h => ⟨hnot h, rfl⟩, fun h => h.2.elim, fun h => nomatch h.2⟩

theorem Call.notes_of_instr (call : Call) :
    call.instr.Forall fun call' access _ => call.Notes x call' access := by
  cases call with
  | push t task pc =>
      refine (Instr.forall_map _ _ _).mpr ?_
      cases pc with
      | ret => exact notes_of_plain trivial id
      | readCapacity | rejectFull | publish | recordSubmission | wakeCheck =>
          exact fun _ => notes_of_plain trivial id
      | groupUndo g h | unregister g h =>
          intro previous
          refine ⟨False.elim, fun hd => .inl ?_, fun h => nomatch h.2⟩
          obtain ⟨hx, rfl⟩ := hd
          exact ⟨_, rfl, hx⟩
      | groupUndoNotify g h | unregisterNotify g h => exact fun _ => notes_of_notifyAll id
      | release | rollback =>
          exact fun _ => ⟨False.elim, fun h => .inr ⟨t, h.1, rfl⟩, fun h => nomatch h.2⟩
      | _ => exact fun _ => notes_of_plain ⟨rfl, rfl⟩ id
  | wait y began pc =>
      refine (Instr.forall_map _ _ _).mpr ?_
      cases pc with
      | ret => exact notes_of_plain trivial id
      | _ => exact fun _ => notes_of_plain ⟨rfl, rfl⟩ id
  | stop y pc =>
      refine (Instr.forall_map _ _ _).mpr ?_
      cases pc with
      | store => exact fun _ => ⟨False.elim, fun h => h.2.elim, fun h => ⟨_, rfl, h.1⟩⟩
      | notify => exact fun _ => notes_of_notifyAll id
  | create t pc =>
      refine (Instr.forall_map _ _ _).mpr ?_
      cases pc with
      | stop pc =>
          rw [CreatePc.instr, Instr.forall_map]
          cases pc with
          | store => exact fun _ => ⟨False.elim, fun h => h.2.elim, fun h => ⟨_, rfl, h.1⟩⟩
          | notify => exact fun _ => notes_of_notifyAll id
      | join ws =>
          cases ws with
          | nil => exact notes_of_plain trivial id
          | cons => exact fun _ => notes_of_plain trivial id
      | _ => exact fun _ => notes_of_plain trivial id
  | destroy t pc =>
      refine (Instr.forall_map _ _ _).mpr ?_
      cases pc with
      | stop pc =>
          rw [DestroyPc.instr, Instr.forall_map]
          cases pc with
          | store => exact fun _ => ⟨False.elim, fun h => h.2.elim, fun h => ⟨_, rfl, h.1⟩⟩
          | notify => exact fun _ => notes_of_notifyAll id
      | join ws =>
          cases ws with
          | nil => exact notes_of_plain trivial id
          | cons => exact fun _ => notes_of_plain trivial id
      | workers => exact fun _ => notes_of_plain trivial id
  | getStats t pc =>
      refine (Instr.forall_map _ _ _).mpr ?_
      cases pc with
      | load values todo =>
          cases todo with
          | nil => exact fun _ => notes_of_plain ⟨rfl, rfl⟩ id
          | cons => exact fun _ => notes_of_plain trivial id
      | ret => exact notes_of_plain trivial id

/-- What one step of a worker loop has to do with notifications. -/
def Worker.Notes (x : Obj) (worker worker' : Worker) (access : Access) : Prop :=
  (worker.Notifying x → access.Notifies x) ∧
    (access.Drains x → worker'.Notifying x) ∧ ¬ access.Closes x

theorem Worker.notes_of_plain {worker worker' : Worker} {access : Access}
    (hplain : access.Plain) (hnot : ¬ worker.Notifying x) : worker.Notes x worker' access :=
  ⟨fun h => absurd h hnot, fun h => absurd h hplain.not_drains, hplain.not_closes⟩

theorem Worker.notes_of_instr (worker : Worker) {instr : Instr Worker}
    (hi : worker.instr = some instr) :
    instr.Forall fun worker' access _ => worker.Notes x worker' access := by
  obtain ⟨t, w, cursors, pc⟩ := worker
  cases pc with
  | pop site pc =>
      cases hi
      rw [Instr.forall_map]
      cases pc <;> exact fun _ => notes_of_plain trivial id
  | announce | withdraw | record | exit =>
      cases hi
      exact fun _ => notes_of_plain trivial id
  | callback =>
      cases hi
      exact notes_of_plain trivial id
  | release task =>
      cases hi
      intro previous
      refine ⟨False.elim, ?_, fun h => nomatch h.2⟩
      rintro ⟨hx, rfl⟩
      exact hx
  | groupRelease task g h =>
      cases hi
      intro previous
      refine ⟨False.elim, ?_, fun h => nomatch h.2⟩
      rintro ⟨hx, rfl⟩
      exact hx
  | notify | groupNotify =>
      cases hi
      exact fun _ => ⟨fun h => ⟨h, rfl⟩, fun h => h.2.elim, fun h => nomatch h.2⟩
  | exited => cases hi
  | _ =>
      cases hi
      exact fun _ => notes_of_plain ⟨rfl, rfl⟩ id

variable {p p' : Thread} {access : Access} {events : List Event}

/-- A thread that is about to notify does so; a step that drains or closes a gate
is followed by a notification, unless it belongs to `release_task_slot`. -/
theorem Thread.Steps.notes (h : p.Steps p' access events) :
    (p.Notifying x → access.Notifies x) ∧
      (access.Drains x → p'.Notifying x ∨ ∃ s, x = .sched s ∧ p.Releasing s) ∧
      (access.Closes x → p'.Notifying x) := by
  apply h.of_forall fun p p' access _ =>
    (p.Notifying x → access.Notifies x) ∧
      (access.Drains x → p'.Notifying x ∨ ∃ s, x = .sched s ∧ p.Releasing s) ∧
      (access.Closes x → p'.Notifying x)
  · intro worker call
    refine (call.notes_of_instr (x := x)).mono fun call' access _ h => ⟨h.1, ?_, ?_⟩
    · intro hd
      rcases h.2.1 hd with ⟨next, rfl, hn⟩ | ⟨s, hx, hr⟩
      · exact .inl hn
      · exact .inr ⟨s, hx, call, rfl, hr⟩
    · intro hc
      obtain ⟨next, rfl, hn⟩ := h.2.2 hc
      exact hn
  · intro worker instr hi
    refine (worker.notes_of_instr (x := x) hi).mono fun worker' access _ h => ⟨?_, ?_, ?_⟩
    · rintro ⟨_, hw, hn⟩
      cases hw
      exact h.1 hn
    · exact fun hd => .inl ⟨worker', rfl, h.2.1 hd⟩
    · exact fun hc => absurd hc h.2.2
  · intro p api now hmay
    refine ⟨fun hn => ?_, False.elim, False.elim⟩
    rw [Thread.Notifying, Option.isNone_iff_eq_none.mp hmay.1] at hn
    obtain ⟨worker, hw, hn⟩ := hn
    have hrunning := Thread.running_eq_none hw fun task hpc => by
      rwa [Worker.Notifying, hpc] at hn
    simpa [hw, hrunning] using hmay.2

/-- The history shows every closing of a gate. -/
theorem Call.stopped_of_closes (call : Call) :
    call.instr.Forall fun _ access events => access.Closes x → .stopped x ∈ events := by
  have hplain : ∀ {access : Access} {events : List Event}, access.Plain →
      access.Closes x → .stopped x ∈ events := fun h hc => absurd hc h.not_closes
  have hstop : ∀ (y : Obj) (pc : StopPc), (pc.instr y).Forall fun _ access events =>
      access.Closes x → .stopped x ∈ events := by
    intro y pc
    cases pc with
    | store => exact fun _ h => by rw [h.1]; exact List.mem_cons_self
    | notify => exact fun _ h => nomatch h.2
  cases call with
  | push t task pc =>
      refine Instr.Forall.map (Ψ := fun access events =>
        access.Closes x → .stopped x ∈ events) _ ?_
      cases pc with
      | ret => exact hplain trivial
      | readCapacity | rejectFull | publish | recordSubmission | wakeCheck =>
          exact fun _ => hplain trivial
      | groupUndo | unregister | release | rollback => exact fun _ h => nomatch h.2
      | _ => exact fun _ => hplain ⟨rfl, rfl⟩
  | wait y began pc =>
      refine Instr.Forall.map (Ψ := fun access events =>
        access.Closes x → .stopped x ∈ events) _ ?_
      cases pc with
      | ret => exact hplain trivial
      | _ => exact fun _ => hplain ⟨rfl, rfl⟩
  | stop y pc => exact (hstop y pc).map _
  | create t pc =>
      refine Instr.Forall.map (Ψ := fun access events =>
        access.Closes x → .stopped x ∈ events) _ ?_
      cases pc with
      | stop pc =>
          rw [CreatePc.instr]
          exact (hstop (.sched t) pc).map _
      | join ws => cases ws <;> first | exact hplain trivial | exact fun _ => hplain trivial
      | _ => exact fun _ => hplain trivial
  | destroy t pc =>
      refine Instr.Forall.map (Ψ := fun access events =>
        access.Closes x → .stopped x ∈ events) _ ?_
      cases pc with
      | stop pc =>
          rw [DestroyPc.instr]
          exact (hstop (.sched t) pc).map _
      | join ws => cases ws <;> first | exact hplain trivial | exact fun _ => hplain trivial
      | workers => exact fun _ => hplain trivial
  | getStats t pc =>
      refine Instr.Forall.map (Ψ := fun access events =>
        access.Closes x → .stopped x ∈ events) _ ?_
      cases pc with
      | load values todo =>
          cases todo <;> exact fun _ => hplain (by trivial)
      | ret => exact hplain trivial

theorem Thread.Steps.stopped_of_closes (h : p.Steps p' access events)
    (hc : access.Closes x) : .stopped x ∈ events := by
  revert hc
  apply h.of_forall fun _ _ access events => access.Closes x → .stopped x ∈ events
  · intro worker call
    exact call.stopped_of_closes
  · intro worker instr hi
    exact (worker.notes_of_instr (x := x) hi).mono fun _ _ _ h hc => absurd hc h.2.2
  · intro p api now _
    exact False.elim

/-- What a thread that is about to notify does next. -/
theorem Thread.exists_instr_of_notifying (h : p.Notifying x) :
    ∃ next, p.instr (.turn .go) = some (.gate x .notifyAll [] next) := by
  obtain ⟨worker, call⟩ := p
  cases call with
  | some call =>
      cases call with
      | push t task pc =>
          cases pc <;> first | exact h.elim | (obtain rfl : x = _ := h; exact ⟨_, rfl⟩)
      | stop y pc =>
          cases pc <;> first | exact h.elim | (obtain rfl : x = _ := h; exact ⟨_, rfl⟩)
      | create t pc | destroy t pc =>
          cases pc with
          | stop pc =>
              cases pc <;> first | exact h.elim | (obtain rfl : x = _ := h; exact ⟨_, rfl⟩)
          | _ => exact h.elim
      | _ => exact h.elim
  | none =>
      obtain ⟨⟨t, w, cursors, pc⟩, rfl, h⟩ := h
      cases pc <;> first | exact h.elim | (obtain rfl : x = _ := h; exact ⟨_, rfl⟩)

theorem Call.underWay_of_notifying {call : Call} (h : call.Notifying x) : call.UnderWay x := by
  cases call with
  | push t task pc => cases pc <;> first | exact h.elim | (obtain rfl : x = _ := h; rfl)
  | stop y pc => cases pc <;> first | exact h.elim | (obtain rfl : x = _ := h; cases x <;> rfl)
  | create t pc | destroy t pc =>
      cases pc with
      | stop pc => cases pc <;> first | exact h.elim | (obtain rfl : x = _ := h; rfl)
      | _ => exact h.elim
  | _ => exact h.elim

theorem Worker.completing_of_notifying {worker : Worker} (h : worker.Notifying x) :
    worker.Completing x := by
  obtain ⟨t, w, cursors, pc⟩ := worker
  cases pc <;> first | exact h | exact h.elim

/-- A notification on its way is something under way. -/
theorem Thread.underWay_of_notifying (h : p.Notifying x) : p.UnderWay x := by
  unfold Thread.Notifying at h
  split at h
  · rename_i call hcall
    exact .inl ⟨call, hcall, Call.underWay_of_notifying h⟩
  · obtain ⟨worker, hw, hn⟩ := h
    exact .inr ⟨worker, hw, Worker.completing_of_notifying hn⟩

end Control

/-! ## The rule for the gates of the program -/

namespace Access

section Memory

variable {i : ℕ} {turn : Turn} {access : Access} {events : List Event} {m m' : Mem} {x : Obj}

theorem Fires.waiting_of_notifies (h : access.Fires i turn events m m')
    (hn : access.Notifies x) : (m'.gates x).waiting = [] := by
  rcases h.gate_cases x with ⟨-, hnot⟩ | ⟨_, op, r, rfl, hop⟩
  · cases access with
    | gate => exact absurd hn.1 hnot
    | _ => exact hn.elim
  · exact hop.waiting_of_notifies hn.2

theorem Fires.count_of_drains (h : access.Fires i turn events m m') (hd : access.Drains x) :
    (m.gates x).count = 1 := by
  rcases h.gate_cases x with ⟨-, hnot⟩ | ⟨_, op, r, rfl, hop⟩
  · cases access with
    | gate => exact absurd hd.1 hnot
    | _ => exact hd.elim
  · exact hop.count_of_drains hd.2

theorem Fires.eq_of_drains (h : access.Fires i turn events m m') (hd : access.Drains x) :
    m'.gates x = { m.gates x with count := 0 } := by
  rcases h.gate_cases x with ⟨-, hnot⟩ | ⟨_, op, r, rfl, hop⟩
  · cases access with
    | gate => exact absurd hd.1 hnot
    | _ => exact hd.elim
  · exact hop.eq_of_drains hd.2

theorem Fires.count_cases (h : access.Fires i turn events m m')
    (hcount : (m'.gates x).count = 0) : (m.gates x).count = 0 ∨ access.Drains x := by
  rcases h.gate_cases x with ⟨heq, -⟩ | ⟨_, op, r, rfl, hop⟩
  · exact .inl (heq ▸ hcount)
  · exact (hop.count_cases hcount).imp id fun h => ⟨rfl, h⟩

theorem Fires.closed_cases (h : access.Fires i turn events m m')
    (hclosed : (m'.gates x).closed = true) :
    (m.gates x).closed = true ∨ access.Closes x := by
  rcases h.gate_cases x with ⟨heq, -⟩ | ⟨_, op, r, rfl, hop⟩
  · exact .inl (heq ▸ hclosed)
  · exact (hop.closed_cases hclosed).imp id fun h => ⟨rfl, h⟩

theorem Parks.not_drains (h : access.Parks x) : ¬ access.Drains x := by
  cases access with
  | gate y op r =>
      intro hd
      cases op with
      | park => exact hd.2
      | _ => exact nomatch h.2
  | _ => exact h.elim

theorem Parks.not_closes (h : access.Parks x) : ¬ access.Closes x := by
  cases access with
  | gate y op r =>
      intro hc
      cases op with
      | park => exact nomatch hc.2
      | _ => exact nomatch h.2
  | _ => exact h.elim

end Memory

end Access

/-- A notification of all sleepers of `x` is on its way. -/
def Notified (x : Obj) (world : World) : Prop := world.Pending (Thread.Notifying x)

/-- A gate is closed only after the history shows it stopped. -/
theorem Reachable.stopped_of_closed {world : World} {x : Obj} (h : Reachable world)
    (hx : (world.mem.gates x).closed = true) : .stopped x ∈ world.mem.log := by
  revert hx
  refine h.invariant (fun c => (c.mem.gates x).closed = true → .stopped x ∈ c.mem.log)
    (fun _ _ h => by cases h) fun hs _ hc hx => ?_
  rw [hs.fires.log]
  rcases hs.fires.closed_cases hx with hold | hcloses
  · exact List.mem_append_left _ (hc hold)
  · exact List.mem_append_right _ (hs.steps.stopped_of_closes hcloses)

end UpgradeSched
