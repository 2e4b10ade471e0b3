import UpgradeSched.Interleaving.System
import UpgradeSched.Scheduler.Worker

/-!
# The system of client threads and workers

A thread is a worker, which runs `worker_main`, or a client. Clients make calls
one after the other, and so does a worker while it runs a callback. `scheduler`
is the system whose runs are the sequentially consistent interleavings of all
these threads, from any number of clients and no scheduler.
-/

namespace UpgradeSched

open Interleaving

/-- The worker loop of a thread, if it is a worker, and the call it is in. -/
structure Thread where
  worker : Option Worker
  call : Option Call

/-- The choice of a step: the turn of an atomic step, or the call that an idle
client or a callback makes next. -/
inductive Choice
  | turn (t : Turn)
  | call (call : ApiCall)
  deriving DecidableEq, Repr

def Choice.toTurn : Choice → Turn
  | .turn t => t
  | .call _ => .go

theorem Choice.eq_of_toTurn {choice : Choice} {k : ℕ} (h : choice.toTurn = .pick k) :
    choice = .turn (.pick k) := by
  cases choice with
  | turn t => exact congrArg Choice.turn h
  | call api => cases h

theorem Choice.eq_spurious {choice : Choice} (h : choice.toTurn = .spurious) :
    choice = .turn .spurious := by
  cases choice with
  | turn t => exact congrArg Choice.turn h
  | call api => cases h

namespace Thread

def client : Thread := ⟨none, none⟩

/-- The task whose callback the thread is running. -/
def running (p : Thread) : Option Task :=
  match p.worker with
  | none => none
  | some worker =>
      match worker.pc with
      | .callback task => some task
      | _ => none

/-- Clients and callbacks make calls, one at a time. -/
def MayCall (p : Thread) : Prop :=
  p.call.isNone ∧ (p.worker.isNone ∨ p.running.isSome)

instance (p : Thread) : Decidable p.MayCall := by
  unfold MayCall
  infer_instance

/-- The thread with its call moved on; `none` means that the call has
returned. -/
def inCall (p : Thread) (call : Option Call) : Thread := { p with call := call }

/-- The thread with its worker moved on. -/
def inWorker (p : Thread) (worker : Worker) : Thread := { p with worker := some worker }

/-- The next step of a thread. -/
def instr (p : Thread) : Choice → Option (Instr Thread)
  | .turn _ =>
      match p.call with
      | some call => some (call.instr.map p.inCall)
      | none =>
          match p.worker with
          | some worker => worker.instr.map (·.map p.inWorker)
          | none => none
  | .call api =>
      if p.MayCall then
        some (.start api fun now =>
          p.inCall (some (.start now (p.running.map (·.id)) api)))
      else none

end Thread

/-- The thread of a started worker. -/
def workerThread (m : Mem) (id : ℕ × ℕ) : Thread :=
  ⟨some (.new m.usizeBits id.1 id.2 (m.scheds id.1).queues.workerCount), none⟩

/-- The system of all threads. -/
def scheduler : System Mem Thread Choice where
  next i choice p m :=
    match p.instr choice with
    | none => none
    | some instr =>
        (instr.exec i choice.toTurn m).map fun r =>
          (r.1, r.2.1, (r.2.2.map (workerThread r.2.1)).toList)

abbrev World := Config Mem Thread

abbrev Action := ℕ × Choice

/-- `clients` client threads, and no scheduler yet. -/
def World.init (usizeBits clients : ℕ) : World :=
  ⟨.init usizeBits, List.replicate clients .client⟩

theorem World.eq_client_of_init {usizeBits clients i : ℕ} {p : Thread}
    (h : (World.init usizeBits clients).threads[i]? = some p) : p = .client :=
  List.eq_of_mem_replicate (List.mem_of_getElem? h)

/-- A property of clients holds of every thread at the start. -/
theorem World.each_init {usizeBits clients : ℕ} {φ : ℕ → Thread → Mem → Prop}
    (h : ∀ i, φ i .client (.init usizeBits)) : (World.init usizeBits clients).Each φ := by
  intro i p hp
  rw [World.eq_client_of_init hp]
  exact h i

theorem World.sum_init {M : Type*} [AddCommMonoid M] (w : Thread → M) (hw : w .client = 0)
    (usizeBits clients : ℕ) : (World.init usizeBits clients).sum w = 0 := by
  refine Config.sum_eq_zero_of_each w _ fun q hq => ?_
  obtain rfl : q = .client := List.eq_of_mem_replicate hq
  exact hw

/-- The states that some interleaving reaches. -/
def Reachable (world : World) : Prop :=
  ∃ usizeBits clients, scheduler.Reachable (World.init usizeBits clients) world

theorem Reachable.step {world world' : World} {a : Action} (h : Reachable world)
    (hstep : scheduler.step world a = some world') : Reachable world' := by
  obtain ⟨usizeBits, clients, h⟩ := h
  exact ⟨usizeBits, clients, System.Reachable.step h hstep⟩

theorem Reachable.trans {world world' : World} (h : Reachable world)
    (hr : scheduler.Reachable world world') : Reachable world' := by
  obtain ⟨usizeBits, clients, h⟩ := h
  exact ⟨usizeBits, clients, System.Reachable.trans h hr⟩

/-- The state after the given actions, which all have to be possible. -/
def World.after (clients : ℕ) (actions : List Action)
    (h : (scheduler.run (World.init 64 clients) actions).isSome) : World :=
  (scheduler.run (World.init 64 clients) actions).get h

theorem World.run_after (clients : ℕ) (actions : List Action)
    (h : (scheduler.run (World.init 64 clients) actions).isSome) :
    scheduler.run (World.init 64 clients) actions = some (World.after clients actions h) :=
  (Option.some_get h).symm

theorem World.reachable_after (clients : ℕ) (actions : List Action)
    (h : (scheduler.run (World.init 64 clients) actions).isSome) :
    Reachable (.after clients actions h) :=
  ⟨64, clients, System.reachable_of_run (World.run_after clients actions h)⟩

/-- A run whose steps pass a test is a run under any condition that the test
implies. -/
theorem World.run_after_of_runIf {C : World → Action → Prop} (ok : World → Action → Bool)
    (hC : ∀ world a, ok world a = true → C world a) {clients : ℕ} {actions : List Action}
    (h : (scheduler.run (World.init 64 clients) actions).isSome)
    (hok : (scheduler.runIf ok (World.init 64 clients) actions).isSome) :
    scheduler.Run C (World.init 64 clients) actions (World.after clients actions h) := by
  obtain ⟨world, hrun⟩ := Option.isSome_iff_exists.mp hok
  have hnil : scheduler.Run C (World.init 64 clients) [] (World.init 64 clients) := .nil
  have hrun' := hnil.of_runIf hC hrun
  rw [List.nil_append] at hrun'
  have hworld : World.after clients actions h = world :=
    Option.some.inj ((World.run_after clients actions h).symm.trans hrun'.run_eq)
  rwa [hworld]

/-- The same for the continuation of a run. -/
theorem World.run_of_runIf {C : World → Action → Prop} (ok : World → Action → Bool)
    (hC : ∀ world a, ok world a = true → C world a) {world world' : World}
    {actions : List Action} (h : scheduler.runIf ok world actions = some world') :
    scheduler.Run C world actions world' := by
  have hnil : scheduler.Run C world [] world := .nil
  simpa using hnil.of_runIf hC h

/-- The same from one listed state to another. -/
theorem World.run_between_of_runIf {C : World → Action → Prop} (ok : World → Action → Bool)
    (hC : ∀ world a, ok world a = true → C world a) {clients : ℕ} {as bs : List Action}
    (h : (scheduler.run (World.init 64 clients) as).isSome)
    (h' : (scheduler.run (World.init 64 clients) (as ++ bs)).isSome)
    (hok : (scheduler.runIf ok (World.after clients as h) bs).isSome) :
    scheduler.Run C (World.after clients as h) bs (World.after clients (as ++ bs) h') := by
  obtain ⟨world, hrun⟩ := Option.isSome_iff_exists.mp hok
  have hbetween : scheduler.Run C (World.after clients as h) bs world :=
    World.run_of_runIf ok hC hrun
  have hbefore : scheduler.Run Always (World.init 64 clients) as (World.after clients as h) :=
    System.Run.of_run .nil (World.run_after clients as h)
  have hall := (hbefore.append (hbetween.mono fun _ _ _ => trivial)).run_eq
  have hworld : World.after clients (as ++ bs) h' = world :=
    Option.some.inj ((World.run_after clients (as ++ bs) h').symm.trans hall)
  rwa [hworld]

/-- Client 0 creates the scheduler 0, whose worker is the first thread after the
clients. -/
def creation (queueCapacity : ℕ) : List Action :=
  (0, .call (.create 0 ⟨1, queueCapacity⟩ 1)) :: List.replicate 4 (0, .turn .go)

/-- Client 0 creates the scheduler 0 with two workers, which are the first threads
after the clients. -/
def creationOfTwo : List Action :=
  (0, .call (.create 0 ⟨2, 0⟩ 1)) :: List.replicate 5 (0, .turn .go)

/-- A thread takes `n` steps without a choice. -/
def steps (i n : ℕ) : List Action := List.replicate n (i, .turn .go)

/-- A search of worker thread `i` that finds the queues empty, when there is no
other worker. -/
def emptySearch (i : ℕ) : List Action :=
  (i, .turn .go) :: List.replicate 3 (i, .turn (.pick 0))

/-- Worker thread `i` finds nothing three times and is about to park. -/
def upToPark (i : ℕ) : List Action :=
  emptySearch i ++ steps i 2 ++ emptySearch i ++ steps i 2 ++ emptySearch i ++ steps i 1

end UpgradeSched
