import UpgradeSched.Accounting.Drain

/-!
# Every submission is decided once

A submission ends by publishing its task or by returning an error, and never
both. The stamps of the calls are fresh, so the stamps of the submissions in
progress, of the published tasks and of the failed submissions are all
different, and a task is published at most once.
-/

namespace UpgradeSched

open Interleaving

/-- The stamp of the submission that the event decides. -/
def Event.decision : Event → Option ℕ
  | .published _ task => some task.id
  | .returned _ task (some _) => some task.id
  | _ => none

theorem Event.decision_of_publication {s : ℕ} {event : Event} {task : Task}
    (h : event.publication s = some task) : event.decision = some task.id := by
  obtain rfl := publication_eq_some.mp h
  rfl

/-- Different entries of a list have different images when the images are listed
without repetition. -/
theorem eq_of_nodup_filterMap {α β : Type*} {f : α → Option β} {l : List α} {a b : α} {c : β}
    (h : (l.filterMap f).Nodup) (ha : a ∈ l) (hb : b ∈ l) (hfa : f a = some c)
    (hfb : f b = some c) : a = b := by
  have hpair : l.Pairwise fun a b => f a = some c → f b = some c → a = b :=
    (List.pairwise_filterMap.mp h).imp fun hne ha hb => absurd rfl (hne c ha c hb)
  have hflip : l.Pairwise (flip fun a b => f a = some c → f b = some c → a = b) :=
    hpair.imp fun h hb ha => (h ha hb).symm
  exact List.Pairwise.forall_of_forall_of_flip (fun _ _ _ _ => rfl) hpair hflip ha hb hfa hfb

/-- The stamps of the submissions that have published their task or have
returned an error. -/
def decided (log : List Event) : List ℕ := log.filterMap Event.decision

namespace PushPc

variable {group : Option ℕ}

/-- The submission has published its task. -/
def Accepted : PushPc group → Prop
  | .recordSubmission | .wakeCheck | .wakeNotify | .ret none => True
  | _ => False

/-- The stamp `n` of the submission until it is decided. -/
def pending (n : ℕ) : PushPc group → Multiset ℕ
  | .recordSubmission | .wakeCheck | .wakeNotify | .ret none => 0
  | _ => {n}

end PushPc

def Call.pending : Call → Multiset ℕ
  | .push _ task pc => pc.pending task.id
  | _ => 0

def Thread.pending (p : Thread) : Multiset ℕ := p.call.elim 0 Call.pending

/-- The stamp of the submission that the access starts. -/
def Access.fresh : Access → Multiset ℕ
  | .start (.push _ _ _ _ _) now => {now}
  | _ => 0

/-- The stamps of all submissions. -/
def stamps (world : World) : Multiset ℕ :=
  world.sum Thread.pending + ↑(decided world.mem.log)

section Control

theorem decided_eq_nil_of_inert {events : List Event}
    (h : ∀ event ∈ events, event.Inert) : decided events = [] := by
  refine List.filterMap_eq_nil_iff.mpr fun event hmem => ?_
  have hevent := h event hmem
  cases event <;> first | rfl | exact hevent.elim

theorem Handles.decided_eq {t : ℕ} {carried carried' : Option (Task × Stage)}
    {access : Access} {events : List Event} (h : Handles t carried access events carried') :
    decided events = [] := by
  cases h <;> rfl

theorem Handles.not_returned {t : ℕ} {carried carried' : Option (Task × Stage)}
    {access : Access} {events : List Event} (h : Handles t carried access events carried')
    (s : ℕ) (task : Task) (result : Option SchedulerError) :
    .returned s task result ∉ events := by
  cases h <;> simp

theorem PushPc.pending_of_instr (s : ℕ) (task : Task) (pc : PushPc task.group) :
    (pc.instr s task).Forall fun pc' access events =>
      pc'.elim 0 (PushPc.pending task.id) + ↑(decided events) = pc.pending task.id ∧
        access.fresh = 0 := by
  have htry : ∀ capacity current,
      (tryReserve capacity current : PushPc task.group).pending task.id = {task.id} := by
    intro capacity current
    unfold tryReserve
    split <;> rfl
  have hregister : (register : PushPc task.group).pending task.id = {task.id} := by
    cases task.group <;> rfl
  have hreturn : (unregisterOrReturn : PushPc task.group).pending task.id = {task.id} := by
    cases task.group <;> rfl
  cases pc with
  | checkStop | groupCheck | groupRecheck | finalCheck =>
      rintro (_ | _) <;> exact ⟨add_zero _, rfl⟩
  | recheckStop =>
      rintro (_ | _)
      · exact ⟨(add_zero _).trans hregister, rfl⟩
      · exact ⟨add_zero _, rfl⟩
  | readCapacity | wakeCheck | groupUndo | unregister =>
      intro r
      beta_reduce
      split <;> exact ⟨add_zero _, rfl⟩
  | loadCount => exact fun r => ⟨(add_zero _).trans (htry _ _), rfl⟩
  | exchange =>
      rintro (actual | _)
      · exact ⟨(add_zero _).trans (htry _ _), rfl⟩
      · exact ⟨add_zero _, rfl⟩
  | rollback => exact fun r => ⟨(add_zero _).trans hreturn, rfl⟩
  | publish => exact fun r => ⟨zero_add _, rfl⟩
  | ret result => cases result <;> exact ⟨zero_add _, rfl⟩
  | _ => exact fun r => ⟨add_zero _, rfl⟩

theorem Access.Inert.fresh_eq {access : Access} (h : access.Inert) : access.fresh = 0 := by
  cases access <;> first | rfl | exact h.elim

theorem Worker.fresh_eq (worker : Worker) {instr : Instr Worker}
    (hi : worker.instr = some instr) : instr.Forall fun _ access _ => access.fresh = 0 := by
  obtain ⟨t, w, cursors, pc⟩ := worker
  cases pc with
  | pop site pc =>
      cases hi
      refine Instr.Forall.map (Ψ := fun access _ => access.fresh = 0) _ ?_
      cases pc <;> exact fun _ => rfl
  | callback =>
      cases hi
      rfl
  | exited => cases hi
  | _ =>
      cases hi
      exact fun _ => rfl

variable {p p' : Thread} {access : Access} {events : List Event}

theorem Thread.Steps.pending (h : p.Steps p' access events) :
    p'.pending + ↑(decided events) = p.pending + access.fresh := by
  apply h.of_forall fun p p' access events =>
    p'.pending + ↑(decided events) = p.pending + access.fresh
  · intro worker call
    by_cases hpush : call.IsPush
    · cases call with
      | push s task pc =>
          refine (Instr.forall_map _ _ _).mpr ((pc.pending_of_instr s task).mono ?_)
          intro pc' access events h
          rw [h.2, add_zero]
          refine Eq.trans ?_ h.1
          cases pc' <;> rfl
      | _ => exact hpush.elim
    · have hnone : ∀ next : Call, ¬ next.IsPush → next.pending = 0 := by
        intro next hn
        cases next with
        | push => exact absurd trivial hn
        | _ => rfl
      refine ((call.inert hpush).and (call.not_isPush_of_instr hpush)).mono ?_
      rintro call' access events ⟨⟨hinert, hev⟩, hnext⟩
      rw [decided_eq_nil_of_inert hev, hinert.fresh_eq]
      cases call' with
      | none => simp [Thread.pending, hnone call hpush]
      | some next => simp [Thread.pending, hnone call hpush, hnone next (hnext next rfl)]
  · intro worker instr hi
    refine ((worker.handles hi).and (worker.fresh_eq hi)).mono fun worker' access events h => ?_
    rw [h.1.decided_eq, h.2]
    rfl
  · intro p api now hmay
    have hnone : p.call = none := Option.isNone_iff_eq_none.mp hmay.1
    simp only [Thread.pending, Thread.inCall, hnone, Option.elim_some, Option.elim_none]
    cases api <;> rfl

/-- A step that makes a stamp is a call, which the history shows. -/
theorem Thread.Steps.fresh (h : p.Steps p' access events) :
    access.fresh = 0 ∨ 0 < events.length := by
  apply h.of_forall fun _ _ access events => access.fresh = 0 ∨ 0 < events.length
  · intro worker call
    by_cases hpush : call.IsPush
    · cases call with
      | push s task pc =>
          exact (Instr.forall_map _ _ _).mpr
            ((pc.pending_of_instr s task).mono fun _ _ _ h => .inl h.2)
      | _ => exact hpush.elim
    · exact (call.inert hpush).mono fun _ _ _ h => .inl h.1.fresh_eq
  · intro worker instr hi
    exact (worker.fresh_eq hi).mono fun _ _ _ => .inl
  · intro p api now _
    exact .inr Nat.one_pos

end Control

/-! ## The law of identity -/

/-- The stamps of the submissions are different and in the past. -/
structure Distinct (world : World) : Prop where
  nodup : (stamps world).Nodup
  lt : ∀ n ∈ stamps world, n < world.mem.log.length

section Law

variable {world world' : World} {a : Action} {p p' : Thread} {access : Access}
  {events : List Event}

theorem Step.stamps (h : Step world a world' p p' access events) :
    stamps world' = stamps world + access.fresh := by
  have hpending := h.steps.pending
  have hsum := h.moves.sum_of_new_eq_zero Thread.pending fun q hq => by
    obtain ⟨id, -, rfl⟩ := Access.exists_of_new hq
    rfl
  rw [UpgradeSched.stamps, UpgradeSched.stamps, h.fires.log, decided, List.filterMap_append,
    ← Multiset.coe_add]
  refine add_right_cancel (b := p.pending) ?_
  calc _ = (world'.sum Thread.pending + p.pending) + ↑(decided world.mem.log) +
          ↑(decided events) := by
        rw [decided, decided]
        ac_rfl
    _ = world.sum Thread.pending + ↑(decided world.mem.log) +
          (p'.pending + ↑(decided events)) := by
        rw [hsum]
        ac_rfl
    _ = _ := by
        rw [hpending]
        ac_rfl

theorem Access.Fires.fresh {i : ℕ} {turn : Turn} {m m' : Mem}
    (h : access.Fires i turn events m m') {n : ℕ} (hn : n ∈ access.fresh) :
    access.fresh = {m.log.length} := by
  cases h with
  | start api _ => cases api <;> first | rfl | simp [Access.fresh] at hn
  | _ => simp [Access.fresh] at hn

theorem Step.distinct (h : Step world a world' p p' access events) (hd : Distinct world) :
    Distinct world' := by
  have hlog : world'.mem.log.length = world.mem.log.length + events.length := by
    rw [h.fires.log, List.length_append]
  rcases h.steps.fresh with hzero | hpos
  · constructor <;> rw [h.stamps, hzero, add_zero]
    · exact hd.nodup
    · exact fun n hn => hlog ▸ Nat.lt_add_right _ (hd.lt n hn)
  · have hfresh : ∀ n ∈ access.fresh, n = world.mem.log.length := by
      intro n hn
      rw [h.fires.fresh hn] at hn
      exact Multiset.mem_singleton.mp hn
    constructor <;> rw [h.stamps]
    · refine (Multiset.nodup_add).mpr ⟨hd.nodup, ?_, ?_⟩
      · rcases Multiset.empty_or_exists_mem access.fresh with hzero | ⟨n, hn⟩
        · rw [hzero]
          exact Multiset.nodup_zero
        · rw [h.fires.fresh hn]
          exact Multiset.nodup_singleton _
      · refine Multiset.disjoint_left.mpr fun {n} hn hn' => ?_
        exact absurd (hfresh n hn') (hd.lt n hn).ne
    · intro n hn
      rcases Multiset.mem_add.mp hn with hn | hn
      · exact hlog ▸ Nat.lt_add_right _ (hd.lt n hn)
      · rw [hfresh n hn, hlog]
        exact Nat.lt_add_of_pos_right hpos

theorem Reachable.distinct (h : Reachable world) : Distinct world := by
  refine h.invariant Distinct (fun _ _ => ⟨?_, ?_⟩) fun hs _ => hs.distinct
  · rw [UpgradeSched.stamps, World.sum_init _ rfl]
    exact Multiset.nodup_zero
  · rw [UpgradeSched.stamps, World.sum_init _ rfl]
    exact nofun

/-- The history of a reachable state decides no submission twice. -/
theorem Reachable.nodup_decided (h : Reachable world) : (decided world.mem.log).Nodup :=
  Multiset.coe_nodup.mp (Multiset.nodup_of_le (Multiset.le_add_left _ _) h.distinct.nodup)

/-- Two events that decide one submission are one event. -/
theorem Reachable.decision_inj (h : Reachable world) {event event' : Event} {n : ℕ}
    (hmem : event ∈ world.mem.log) (hmem' : event' ∈ world.mem.log)
    (hn : event.decision = some n) (hn' : event'.decision = some n) : event = event' :=
  eq_of_nodup_filterMap h.nodup_decided hmem hmem' hn hn'

/-- No submission publishes twice. -/
theorem Reachable.nodup_published_id (h : Reachable world) (s : ℕ) :
    ((published s world.mem.log).map Task.id).Nodup := by
  refine List.pairwise_map.mpr (List.pairwise_filterMap.mpr ?_)
  refine (List.pairwise_filterMap.mp h.nodup_decided).imp ?_
  intro event event' hne task htask task' htask' heq
  exact hne _ (Event.decision_of_publication htask) _ (Event.decision_of_publication htask') heq

theorem Reachable.nodup_published (h : Reachable world) (s : ℕ) :
    (published s world.mem.log).Nodup :=
  (h.nodup_published_id s).of_map _

end Law

/-! ## Accepted submissions -/

/-- The thread is in a submission of `task` to `s` that has published it. -/
def Thread.Accepts (s : ℕ) (task : Task) (p : Thread) : Prop :=
  ∃ pc : PushPc task.group, p.call = some (.push s task pc) ∧ pc.Accepted

/-- Accepted tasks are published. -/
structure Accepted (world : World) : Prop where
  calls : world.Each fun _ p m =>
    ∀ s task, p.Accepts s task → .published s task ∈ m.log
  returns : ∀ s task, .returned s task none ∈ world.mem.log →
    .published s task ∈ world.mem.log

section Accepted

variable {world world' : World} {a : Action} {p p' : Thread} {access : Access}
  {events : List Event} {s : ℕ} {task : Task}

theorem PushPc.accepted_of_instr (s : ℕ) (task : Task) (pc : PushPc task.group) :
    (pc.instr s task).Forall fun pc' _ events =>
      (∀ next, pc' = some next → next.Accepted →
        pc.Accepted ∨ .published s task ∈ events) ∧
        ∀ t task' result, .returned t task' result ∈ events →
          t = s ∧ task' = task ∧ pc = .ret result := by
  have hnext : ∀ {pc' : Option (PushPc task.group)} {events : List Event},
      (∀ next, pc' = some next → ¬ next.Accepted) → ∀ next, pc' = some next →
        next.Accepted → pc.Accepted ∨ .published s task ∈ events :=
    fun h next hn ha => absurd ha (h next hn)
  have htry : ∀ capacity current,
      ¬ (tryReserve capacity current : PushPc task.group).Accepted := by
    intro capacity current
    unfold tryReserve
    split <;> exact id
  have hregister : ¬ (register : PushPc task.group).Accepted := by
    cases task.group <;> exact id
  have hreturn : ¬ (unregisterOrReturn : PushPc task.group).Accepted := by
    cases task.group <;> exact id
  have hreturned : ∀ t task' result, Event.returned t task' result ∈ ([] : List Event) →
      t = s ∧ task' = task ∧ pc = .ret result :=
    fun _ _ _ h => absurd h List.not_mem_nil
  cases pc with
  | checkStop | groupCheck | groupRecheck | finalCheck =>
      rintro (_ | _) <;> exact ⟨hnext (by rintro _ ⟨⟩; exact id), hreturned⟩
  | recheckStop =>
      rintro (_ | _)
      · exact ⟨hnext (by rintro _ ⟨⟩; exact hregister), hreturned⟩
      · exact ⟨hnext (by rintro _ ⟨⟩; exact id), hreturned⟩
  | readCapacity | groupUndo | unregister =>
      intro r
      beta_reduce
      split <;> exact ⟨hnext (by rintro _ ⟨⟩; exact id), hreturned⟩
  | loadCount => exact fun r => ⟨hnext (by rintro _ ⟨⟩; exact htry _ _), hreturned⟩
  | exchange =>
      rintro (actual | _)
      · exact ⟨hnext (by rintro _ ⟨⟩; exact htry _ _), hreturned⟩
      · exact ⟨hnext (by rintro _ ⟨⟩; exact id), hreturned⟩
  | rollback => exact fun r => ⟨hnext (by rintro _ ⟨⟩; exact hreturn), hreturned⟩
  | publish =>
      exact fun r => ⟨fun _ _ _ => .inr (List.mem_singleton_self _), fun _ _ _ h => by simp at h⟩
  | recordSubmission | wakeNotify | wakeCheck =>
      exact fun r => ⟨fun _ _ _ => .inl trivial, hreturned⟩
  | ret result =>
      refine ⟨by rintro _ ⟨⟩, fun t task' result' h => ?_⟩
      obtain ⟨rfl, rfl, rfl⟩ : t = s ∧ task' = task ∧ result' = result := by simpa using h
      exact ⟨rfl, rfl, rfl⟩
  | _ => exact fun r => ⟨hnext (by rintro _ ⟨⟩; exact id), hreturned⟩

theorem Thread.Steps.accepts (h : p.Steps p' access events) :
    (p'.Accepts s task → p.Accepts s task ∨ .published s task ∈ events) ∧
      ∀ result, .returned s task result ∈ events →
        p.call = some (.push s task (.ret result)) := by
  apply h.of_forall fun p p' _ events =>
    (p'.Accepts s task → p.Accepts s task ∨ .published s task ∈ events) ∧
      ∀ result, .returned s task result ∈ events →
        p.call = some (.push s task (.ret result))
  · intro worker call
    by_cases hpush : call.IsPush
    · cases call with
      | push t task' pc =>
          refine (Instr.forall_map _ _ _).mpr ((pc.accepted_of_instr t task').mono ?_)
          rintro pc' _ events ⟨hnext, hret⟩
          constructor
          · rintro ⟨next, hcall, ha⟩
            cases pc' with
            | none => cases hcall
            | some pc' =>
                cases hcall
                exact (hnext next rfl ha).imp (fun h => ⟨pc, rfl, h⟩) id
          · intro result h
            obtain ⟨rfl, rfl, rfl⟩ := hret s task result h
            rfl
      | _ => exact hpush.elim
    · refine ((call.inert hpush).and (call.not_isPush_of_instr hpush)).mono ?_
      rintro call' _ events ⟨⟨-, hev⟩, hnext⟩
      refine ⟨?_, fun _ h => (hev _ h).elim⟩
      rintro ⟨pc, hcall, -⟩
      exact absurd trivial (hnext _ hcall)
  · intro worker instr hi
    refine (worker.handles hi).mono fun worker' _ events h => ⟨?_, ?_⟩
    · rintro ⟨pc, hcall, -⟩
      cases hcall
    · exact fun result hret => absurd hret (h.not_returned s task result)
  · intro p api now _
    refine ⟨?_, by simp⟩
    rintro ⟨pc, hcall, ha⟩
    cases api <;> cases hcall
    exact ha.elim

theorem Step.accepted (h : Step world a world' p p' access events) (hacc : Accepted world) :
    Accepted world' := by
  have hlog := h.fires.log
  refine ⟨hacc.calls.of_moves h.moves ?_ ?_ ?_, ?_⟩
  · intro hself s task hp
    rw [hlog]
    rcases h.steps.accepts.1 hp with hp | hpub
    · exact List.mem_append_left _ (hself s task hp)
    · exact List.mem_append_right _ hpub
  · intro j q _ _ hq s task hp
    rw [hlog]
    exact List.mem_append_left _ (hq s task hp)
  · intro j q _ hq s task hp
    obtain ⟨id, -, rfl⟩ := Access.exists_of_new hq
    obtain ⟨pc, hcall, -⟩ := hp
    cases hcall
  · intro s task hret
    rw [hlog] at hret ⊢
    rcases List.mem_append.mp hret with hret | hret
    · exact List.mem_append_left _ (hacc.returns s task hret)
    · exact List.mem_append_left _
        (hacc.calls _ _ h.moves.thread s task ⟨_, h.steps.accepts.2 none hret, trivial⟩)

theorem Reachable.accepted (h : Reachable world) : Accepted world := by
  refine h.invariant Accepted (fun _ _ => ⟨World.each_init fun i s task hpending => ?_,
    fun _ _ h => by cases h⟩) fun hs _ => hs.accepted
  obtain ⟨pc, hcall, -⟩ := hpending
  cases hcall

end Accepted

end UpgradeSched
