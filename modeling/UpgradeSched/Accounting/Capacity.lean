import UpgradeSched.Accounting.Drain

/-!
# The capacity

The configuration of a scheduler never changes, so a submission that has read
the capacity works with the right one. It adds to the counter unconditionally
only when there is no capacity, and otherwise by an exchange whose expected
value it has compared with the capacity. So the counter stays within it.
-/

namespace UpgradeSched

open Interleaving

/-- What a submission in `reserve_task_slot` has learned agrees with the
configuration. -/
def PushPc.Fits (config : SchedulerConfig) {group : Option ℕ} : PushPc group → Prop
  | .reserve => config.queueCapacity = 0
  | .loadCount capacity => config.queueCapacity = capacity ∧ 0 < capacity
  | .exchange capacity current => config.queueCapacity = capacity ∧ current < capacity
  | _ => True

def Call.Fits (s : ℕ) (config : SchedulerConfig) : Call → Prop
  | .push t _ pc => t = s → pc.Fits config
  | _ => True

def Thread.Fits (s : ℕ) (config : SchedulerConfig) (p : Thread) : Prop :=
  ∀ call, p.call = some call → call.Fits s config

/-- The counter is within the capacity, if there is one. -/
structure Bounded (s : ℕ) (world : World) : Prop where
  fits : world.Each fun _ p m => p.Fits s (m.scheds s).config
  count : (world.mem.scheds s).config.queueCapacity ≠ 0 →
    (world.mem.gates (.sched s)).count ≤ (world.mem.scheds s).config.queueCapacity

section Control

variable {s : ℕ}

/-- The result of reading the configuration of `s` is `config`. -/
def Access.Reads (s : ℕ) (config : SchedulerConfig) : Access → Prop
  | .sched t .loadConfig r => t = s → r = config
  | _ => True

/-- The access adds to the counter of `s` either without a capacity or by an
exchange that expects a value below the capacity. -/
def Access.Within (s : ℕ) (config : SchedulerConfig) : Access → Prop
  | .gate x op r => x = .sched s → 0 < op.adds r → config.queueCapacity ≠ 0 →
      ∃ n, op.finds r = some n ∧ n < config.queueCapacity
  | _ => True

theorem PushPc.fits_of_instr (config : SchedulerConfig) (task : Task)
    (pc : PushPc task.group) (h : pc.Fits config) :
    (pc.instr s task).Forall fun pc' access _ =>
      (access.Reads s config → ∀ next, pc' = some next → next.Fits config) ∧
        access.Within s config := by
  have htry : ∀ capacity current, config.queueCapacity = capacity →
      (tryReserve capacity current : PushPc task.group).Fits config := by
    intro capacity current hc
    unfold tryReserve
    split
    · trivial
    · rename_i hlt
      exact ⟨hc, Nat.lt_of_not_le hlt⟩
  have hregister : (register : PushPc task.group).Fits config := by
    cases task.group <;> trivial
  have hreturn : (unregisterOrReturn : PushPc task.group).Fits config := by
    cases task.group <;> trivial
  have hload : ∀ {α : Type} (x : Obj) (op : GateOp α) (r : α), op.adds r = 0 →
      (Access.gate x op r).Within s config :=
    fun _ _ _ hadds _ hpos => absurd hadds (Nat.ne_of_gt hpos)
  cases pc with
  | readCapacity =>
      intro r
      refine ⟨fun hread next hnext => ?_, trivial⟩
      obtain rfl : r = config := hread rfl
      beta_reduce at hnext
      split at hnext <;> cases hnext
      · assumption
      · exact ⟨rfl, Nat.pos_of_ne_zero ‹_›⟩
  | reserve =>
      intro r
      refine ⟨by rintro _ _ ⟨⟩; trivial, fun _ _ hc => absurd h hc⟩
  | loadCount capacity =>
      exact fun r => ⟨by rintro _ _ ⟨⟩; exact htry _ _ h.1, hload _ _ _ rfl⟩
  | exchange capacity current =>
      rintro (actual | _)
      · exact ⟨by rintro _ _ ⟨⟩; exact htry _ _ h.1, hload _ _ _ rfl⟩
      · exact ⟨by rintro _ _ ⟨⟩; trivial, fun _ _ _ => ⟨current, rfl, h.1 ▸ h.2⟩⟩
  | checkStop | groupCheck | groupRecheck | finalCheck =>
      rintro (_ | _) <;> exact ⟨by rintro _ _ ⟨⟩; trivial, hload _ _ _ rfl⟩
  | recheckStop =>
      rintro (_ | _)
      · exact ⟨by rintro _ _ ⟨⟩; exact hregister, hload _ _ _ rfl⟩
      · exact ⟨by rintro _ _ ⟨⟩; trivial, hload _ _ _ rfl⟩
  | groupAdd g hg => exact fun r => ⟨by rintro _ _ ⟨⟩; trivial, by rintro ⟨⟩⟩
  | groupUndo | unregister =>
      intro r
      beta_reduce
      split <;> exact ⟨by rintro _ _ ⟨⟩; trivial, hload _ _ _ rfl⟩
  | groupUndoNotify | unregisterNotify | release | wakeNotify =>
      exact fun r => ⟨by rintro _ _ ⟨⟩; trivial, hload _ _ _ rfl⟩
  | rollback => exact fun r => ⟨by rintro _ _ ⟨⟩; exact hreturn, hload _ _ _ rfl⟩
  | rejectFull | publish | recordSubmission =>
      exact fun r => ⟨by rintro _ _ ⟨⟩; trivial, trivial⟩
  | wakeCheck =>
      intro r
      beta_reduce
      split <;> exact ⟨by rintro _ _ ⟨⟩; trivial, trivial⟩
  | ret result => exact ⟨by rintro _ _ ⟨⟩, trivial⟩

variable {p p' : Thread} {access : Access} {events : List Event} {config : SchedulerConfig}

theorem Access.Inert.within (h : access.Inert) : access.Within s config := by
  cases access with
  | gate x op r =>
      have hadds : op.adds r = 0 := h.1
      exact fun _ hpos => absurd hadds (Nat.ne_of_gt hpos)
  | _ => trivial

theorem Access.within_of_not_touches (h : ¬ access.Touches s) : access.Within s config := by
  cases access with
  | gate x op r => exact fun hx => absurd hx h
  | _ => trivial

/-- Workers add to no counter. -/
theorem Worker.within (worker : Worker) {instr : Instr Worker}
    (hi : worker.instr = some instr) :
    instr.Forall fun _ access _ => access.Within s config := by
  have hload : ∀ {α : Type} (x : Obj) (op : GateOp α) (r : α), op.adds r = 0 →
      (Access.gate x op r).Within s config :=
    fun _ _ _ hadds _ hpos => absurd hadds (Nat.ne_of_gt hpos)
  obtain ⟨t, w, cursors, pc⟩ := worker
  cases pc with
  | pop site pc =>
      cases hi
      refine Instr.Forall.map (Ψ := fun access _ => access.Within s config) _ ?_
      cases pc <;> exact fun _ => trivial
  | callback =>
      cases hi
      trivial
  | announce | withdraw | record | exit =>
      cases hi
      exact fun _ => trivial
  | exited => cases hi
  | _ =>
      cases hi
      exact fun _ => hload _ _ _ rfl

theorem Thread.Steps.fits (h : p.Steps p' access events) (hp : p.Fits s config) :
    (access.Reads s config → p'.Fits s config) ∧ access.Within s config := by
  revert hp
  apply h.of_forall fun p p' access _ => p.Fits s config →
    (access.Reads s config → p'.Fits s config) ∧ access.Within s config
  · intro worker call
    by_cases hpush : call.IsPush
    · cases call with
      | push t task pc =>
          refine (Instr.forall_map _ _ _).mpr ?_
          by_cases hts : t = s
          · subst hts
            by_cases hfits : pc.Fits config
            · refine (pc.fits_of_instr config task hfits).mono ?_
              rintro pc' access _ ⟨hnext, hwithin⟩ -
              refine ⟨fun hread call hcall => ?_, hwithin⟩
              cases pc' with
              | none => cases hcall
              | some pc' =>
                  cases hcall
                  exact fun _ => hnext hread pc' rfl
            · exact Instr.forall_of_all (fun _ _ _ hp => absurd (hp _ rfl rfl) hfits) _
          · refine (pc.touches (s := s) t task).mono fun pc' access _ htouches _ => ?_
            refine ⟨fun _ call hcall => ?_, Access.within_of_not_touches fun h => hts (htouches h)⟩
            cases pc' with
            | none => cases hcall
            | some pc' =>
                cases hcall
                exact fun h => absurd h hts
      | _ => exact hpush.elim
    · refine ((call.inert hpush).and (call.not_isPush_of_instr hpush)).mono ?_
      rintro call' access _ ⟨⟨hinert, -⟩, hnext⟩ -
      refine ⟨fun _ next hn => ?_, hinert.within⟩
      cases next with
      | push => exact absurd trivial (hnext _ hn)
      | _ => trivial
  · intro worker instr hi
    exact (worker.within hi).mono fun _ _ _ h _ => ⟨fun _ => nofun, h⟩
  · intro p api now _ _
    refine ⟨?_, trivial⟩
    rintro - call ⟨⟩
    cases api <;> first | exact fun _ => trivial | trivial

end Control

section Law

variable {world world' : World} {a : Action} {p p' : Thread} {access : Access}
  {events : List Event} {s : ℕ}

theorem Access.Fires.reads {i : ℕ} {turn : Turn} {m m' : Mem}
    (h : access.Fires i turn events m m') : access.Reads s (m.scheds s).config := by
  cases h with
  | sched t op r sd h =>
      cases op with
      | loadConfig => exact fun hts => hts ▸ (h.eq_of_reads rfl).1
      | _ => trivial
  | _ => trivial

/-- An access within the capacity keeps the counter within it. -/
theorem Access.Fires.count_le {i : ℕ} {turn : Turn} {m m' : Mem} {config : SchedulerConfig}
    (h : access.Fires i turn events m m') (hw : access.Within s config)
    (hc : config.queueCapacity ≠ 0)
    (hle : (m.gates (.sched s)).count ≤ config.queueCapacity) :
    (m'.gates (.sched s)).count ≤ config.queueCapacity := by
  cases h with
  | gate x op r g h =>
      by_cases hx : x = .sched s
      · subst hx
        have hcount := h.count_le
        simp only [Mem.emit, Mem.setGate, if_true]
        rcases Nat.eq_zero_or_pos (op.adds r) with hzero | hpos
        · omega
        · obtain ⟨n, hn, hlt⟩ := hw rfl hpos hc
          have hfound := h.count_of_finds hn
          have hone := op.adds_le_one r
          omega
      · simpa [Mem.emit, Mem.setGate, Ne.symm hx] using hle
  | _ => exact hle

theorem Thread.fits_of_not_uses {config : SchedulerConfig} (h : ¬ p.Uses s) :
    p.Fits s config := by
  intro call hcall
  cases call with
  | push t task pc => exact fun hts => absurd (.inr ⟨_, hcall, hts⟩) h
  | _ => trivial

theorem Step.bounded (h : Step world a world' p p' access events)
    (hpresent : Present world) (hb : Bounded s world) : Bounded s world' := by
  by_cases hc : access.Creates s
  · obtain ⟨hold, -⟩ := h.fires.phase_of_creates hc
    have hunused : world.Each fun _ q _ => ¬ q.Uses s :=
      fun i q hq hu => hpresent.uses i q hq s hu hold
    have htouch : ¬ access.Touches s := fun ht =>
      hunused _ _ h.moves.thread (h.steps.uses_of_touches ht)
    have hfits : ∀ config, access.Reads s config → p'.Fits s config := fun _ =>
      (h.steps.fits (Thread.fits_of_not_uses (hunused _ _ h.moves.thread))).1
    have hreads : ∀ config, access.Reads s config := by
      intro config
      cases access with
      | sched t op r => cases op <;> first | exact hc.elim | trivial
      | _ => trivial
    refine ⟨?_, fun _ => ?_⟩
    · intro j q hq
      rcases h.moves.cases hq with ⟨rfl, rfl⟩ | ⟨-, hq⟩ | ⟨-, hq⟩
      · exact hfits _ (hreads _)
      · exact Thread.fits_of_not_uses (hunused j q hq)
      · obtain ⟨id, -, rfl⟩ := Access.exists_of_new hq
        exact nofun
    · rw [h.fires.gate_eq htouch, (hpresent.absent s hold).2]
      exact Nat.zero_le _
  · have hconfig := h.fires.config_eq hc
    have hfits := h.steps.fits (hb.fits _ _ h.moves.thread)
    refine ⟨hb.fits.of_moves h.moves ?_ ?_ ?_, ?_⟩
    · intro _
      rw [hconfig]
      exact hfits.1 h.fires.reads
    · intro j q _ _ hq
      rwa [hconfig]
    · intro j q _ hq
      obtain ⟨id, -, rfl⟩ := Access.exists_of_new hq
      exact nofun
    · rw [hconfig]
      exact fun hcap => h.fires.count_le hfits.2 hcap (hb.count hcap)

theorem Reachable.bounded (h : Reachable world) (s : ℕ) : Bounded s world :=
  h.invariant (Bounded s)
    (fun _ _ => ⟨World.each_init fun _ _ hcall => (by cases hcall), fun _ => Nat.zero_le _⟩)
    fun hs hr => hs.bounded hr.present

end Law

end UpgradeSched
