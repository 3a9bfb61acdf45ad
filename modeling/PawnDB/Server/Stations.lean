import PawnDB.Server.WorkerTable
import PawnDB.System.Progress
import PawnDB.Worker.Uncommitted

set_option autoImplicit false

/-! # Workers at their job channels

`Stations` are the worker threads of a system, each at the job channel of its context. The manager
sends jobs to any of them until it has joined the thread, and at some time the server socket is
shut down or closed; replies that are handed to it from then on do not arrive.

The history of a station says which jobs went into its channel, which of them the worker has
received, what was answered and how often the channel was popped, and `Ledger` is what these have
to do with each other.
-/

namespace PawnDB

open Bytes

/-- The worker threads with their job channels, and the socket that they share. -/
structure Stations (ι : Type) where
  system : System ι
  jobCh : ι → JobChannel
  /-- The thread has been joined. -/
  joined : ι → Bool
  /-- The socket was neither shut down nor closed. -/
  fdOpen : Bool

/-- What happens at one station. -/
inductive StationAct
  /-- The manager sends a job. -/
  | send (job : Job)
  /-- The wait for a job ends with the oldest job of the channel. -/
  | recv
  | recvTimeout
  | resume
  | stop
  /-- `trait_join` -/
  | join

inductive StationsAct (ι : Type)
  | station (i : ι) (a : StationAct)
  /-- The socket is shut down or closed. -/
  | close

inductive StationEvent
  | enqueued (job : Job)
  | received (job : Job)
  /-- An event of the worker; a reply goes to the socket. -/
  | worker (fdOpen : Bool) (e : Event)
  /-- A turn of the loop of `trait_join`, which sends the reply and pops the job. -/
  | dead (fdOpen : Bool) (r : Reply)

/-- The turns that a thread at this point can still take until it waits for a job or ends. -/
def Point.turnsToWait (w : Worker) : Point → Nat
  | .recv => 0
  | p => p.stepsToEnd w

namespace Stations

variable {ι : Type}

def init (db : StudentTable) (txnIds : ι → TxnId) : Stations ι :=
  ⟨System.init db txnIds, fun _ => JobChannel.init, fun _ => false, true⟩

/-- The job that a worker has in hand. -/
def inHand (s : Stations ι) (i : ι) : List Job := (s.system.threads i).point.inHand

/-- The turns that the handler of the job in hand can still take. -/
def turnsLeft (s : Stations ι) (i : ι) : Nat :=
  (s.system.threads i).point.turnsLeft (s.system.threads i).worker

/-- The turns that a thread can still take until it waits for a job or ends. -/
def turnsToWait (s : Stations ι) (i : ι) : Nat :=
  (s.system.threads i).point.turnsToWait (s.system.threads i).worker

variable [DecidableEq ι] (s : Stations ι) (i : ι)

/-- A step of a thread, which pops its channel. -/
def go (a : Act) : Option (Stations ι × List StationEvent) :=
  (s.system.step (i, a)).map fun r =>
    ({ s with
      system := r.1
      jobCh := Slots.set s.jobCh i (JobChannel.pop^[popsOf r.2] (s.jobCh i)) },
    r.2.map (.worker s.fdOpen))

/-- A step at one station. -/
def turn : StationAct → Option (Stations ι × List StationEvent)
  | .send job =>
      if s.joined i then none
      else
        match (s.jobCh i).send job with
        | (.none, jobCh) => some ({ s with jobCh := Slots.set s.jobCh i jobCh }, [.enqueued job])
        | _ => some (s, [])
  | .recv =>
      match (s.jobCh i).get with
      | .ok (some job) => (s.go i (.recv job)).map fun r => (r.1, .received job :: r.2)
      | _ => none
  | .recvTimeout => if (s.jobCh i).empty then s.go i .recvTimeout else none
  | .resume => s.go i .resume
  | .stop => s.go i .stop
  | .join =>
      match (s.system.threads i).point, s.joined i with
      | .ended, false =>
          (WorkerContext.ackLoop (s.jobCh i).count.toNat (s.jobCh i)).map fun r =>
            ({ s with
              jobCh := Slots.set s.jobCh i r.1
              joined := Slots.set s.joined i true },
            r.2.map (.dead s.fdOpen))
      | _, _ => none

def step (s : Stations ι) : StationsAct ι → Option (Stations ι × List (ι × StationEvent))
  | .station i a => (s.turn i a).map fun r => (r.1, r.2.map (Prod.mk i))
  | .close => some ({ s with fdOpen := false }, [])

abbrev machine (ι : Type) [DecidableEq ι] :
    Machine (Stations ι) (StationsAct ι) (ι × StationEvent) :=
  ⟨step⟩

end Stations

/-! ## What a history says -/

namespace StationEvent

def enqueued? : StationEvent → Option Job
  | .enqueued job => some job
  | _ => none

def received? : StationEvent → Option Job
  | .received job => some job
  | _ => none

/-- A reply that is handed to an open socket. -/
def reply? : StationEvent → Option Reply
  | .worker true e => e.reply?
  | .dead true r => some r
  | _ => none

def isPop : StationEvent → Bool
  | .worker _ e => e.isPop
  | .dead _ _ => true
  | _ => false

/-- The jobs that went into the channel. -/
def enqueuedIn (out : List StationEvent) : List Job := out.filterMap enqueued?

/-- The jobs that the worker received. -/
def receivedIn (out : List StationEvent) : List Job := out.filterMap received?

/-- The replies that went out, through an open socket. -/
def repliesIn (out : List StationEvent) : List Reply := out.filterMap reply?

/-- The number of times that the channel was popped. -/
def popsIn (out : List StationEvent) : Nat := out.countP isPop

section

variable (out out' : List StationEvent) (b : Bool) (l : List Event) (replies : List Reply)

@[simp] theorem enqueuedIn_append : enqueuedIn (out ++ out') = enqueuedIn out ++ enqueuedIn out' :=
  List.filterMap_append

@[simp] theorem receivedIn_append : receivedIn (out ++ out') = receivedIn out ++ receivedIn out' :=
  List.filterMap_append

@[simp] theorem repliesIn_append : repliesIn (out ++ out') = repliesIn out ++ repliesIn out' :=
  List.filterMap_append

@[simp] theorem popsIn_append : popsIn (out ++ out') = popsIn out + popsIn out' :=
  List.countP_append

@[simp] theorem enqueuedIn_worker : enqueuedIn (l.map (.worker b)) = [] := by
  rw [enqueuedIn, List.filterMap_map]
  exact List.filterMap_eq_nil_iff.mpr fun _ _ => rfl

@[simp] theorem receivedIn_worker : receivedIn (l.map (.worker b)) = [] := by
  rw [receivedIn, List.filterMap_map]
  exact List.filterMap_eq_nil_iff.mpr fun _ _ => rfl

@[simp] theorem repliesIn_worker : repliesIn (l.map (.worker true)) = repliesOf l := by
  rw [repliesIn, List.filterMap_map]
  rfl

@[simp] theorem repliesIn_closed : repliesIn (l.map (.worker false)) = [] := by
  rw [repliesIn, List.filterMap_map]
  exact List.filterMap_eq_nil_iff.mpr fun _ _ => rfl

@[simp] theorem popsIn_worker : popsIn (l.map (.worker b)) = popsOf l := by
  rw [popsIn, List.countP_map]
  rfl

@[simp] theorem enqueuedIn_dead : enqueuedIn (replies.map (.dead b)) = [] := by
  rw [enqueuedIn, List.filterMap_map]
  exact List.filterMap_eq_nil_iff.mpr fun _ _ => rfl

@[simp] theorem receivedIn_dead : receivedIn (replies.map (.dead b)) = [] := by
  rw [receivedIn, List.filterMap_map]
  exact List.filterMap_eq_nil_iff.mpr fun _ _ => rfl

@[simp] theorem repliesIn_dead : repliesIn (replies.map (.dead true)) = replies := by
  rw [repliesIn, List.filterMap_map]
  exact List.filterMap_some

@[simp] theorem popsIn_dead : popsIn (replies.map (.dead b)) = replies.length := by
  rw [popsIn, List.countP_map]
  exact List.countP_eq_length.mpr fun _ _ => rfl

end

end StationEvent

theorem Job.answeredBy_deadReply (job : Job) : job.AnsweredBy (WorkerContext.deadReply job) :=
  ⟨rfl, fun _ => take_take_setAck (by decide) (by decide) _⟩

namespace Stations

open StationEvent

/-- The turns that were made since the last wait for a job. -/
def waited (acts : List StationAct) : Nat :=
  acts.foldl (fun n a =>
    match a with
    | .recv => 0
    | .recvTimeout => 0
    | .resume => n + 1
    | _ => n) 0

theorem waited_snoc (acts : List StationAct) (a : StationAct) :
    waited (acts ++ [a]) = match a with
      | .recv => 0
      | .recvTimeout => 0
      | .resume => waited acts + 1
      | _ => waited acts := by
  rw [waited, List.foldl_append]
  rfl

/-- The books of a station: the channel has had the jobs `handled`, `dead` and `rest`, in this
order, and still holds `rest`. The worker has received those of `handled` and the one in its hand,
which comes next. There are as many pops as jobs that the channel has lost, and as many replies,
in the same order; to the jobs `dead`, which were left at the join, they say `DEAD_TXN`. -/
structure Ledger (out : List StationEvent) (jobCh : JobChannel) (joined : Bool)
    (inHand handled dead rest : List Job) (answers : List Reply) : Prop where
  enqueued : enqueuedIn out = handled ++ dead ++ rest
  held : jobCh.Holds rest
  pops : popsIn out = handled.length + dead.length
  received : receivedIn out = handled ++ inHand
  next : inHand <+: rest
  replies : repliesIn out = answers ++ dead.map WorkerContext.deadReply
  answered : List.Forall₂ Job.AnsweredBy handled answers
  deadAnswered : List.Forall₂ Job.AnsweredBy dead (dead.map WorkerContext.deadReply)
  unjoined : joined = false → dead = []
  emptied : joined = true → rest = []

/-- Every job that went into the channel is still there, or it was popped once and answered
once. -/
def Balanced {ι : Type} (out : List StationEvent) (s : Stations ι) (i : ι) : Prop :=
  ∃ handled dead rest answers,
    Ledger out (s.jobCh i) (s.joined i) (s.inHand i) handled dead rest answers

namespace Ledger

variable {out : List StationEvent} {jobCh : JobChannel} {joined : Bool}
  {inHand handled dead rest : List Job} {answers : List Reply} {job : Job} {l : List Event}

theorem init : Ledger [] JobChannel.init false [] [] [] [] [] where
  enqueued := rfl
  held := JobChannel.holds_init
  pops := rfl
  received := rfl
  next := List.nil_prefix
  replies := rfl
  answered := .nil
  deadAnswered := .nil
  unjoined _ := rfl
  emptied _ := rfl

/-- A channel that still has jobs has not been cleared by a join. -/
theorem dead_eq_nil (h : Ledger out jobCh joined inHand handled dead (job :: rest) answers) :
    dead = [] := by
  apply h.unjoined
  rw [← Bool.not_eq_true]
  intro hj
  cases h.emptied hj

/-- As long as there are jobs in the channel, all replies are to jobs that were received. -/
theorem balance (h : Ledger out jobCh joined inHand handled dead rest answers)
    (hdead : dead = []) :
    (repliesIn out).length + inHand.length = (receivedIn out).length := by
  subst hdead
  rw [h.replies, h.received, List.map_nil, List.append_nil, List.length_append,
    h.answered.length_eq]

/-- The manager sends a job. -/
theorem send {jobCh' : JobChannel}
    (h : Ledger out jobCh false inHand handled dead rest answers)
    (hs : jobCh.send job = (.none, jobCh')) :
    Ledger (out ++ [.enqueued job]) jobCh' false inHand handled dead (rest ++ [job]) answers where
  enqueued := by
    rw [enqueuedIn_append, h.enqueued, List.append_assoc _ rest]
    rfl
  held := h.held.of_send hs
  pops := (popsIn_append _ _).trans h.pops
  received := by
    rw [receivedIn_append, h.received]
    exact List.append_nil _
  next := h.next.trans (List.prefix_append _ _)
  replies := by
    rw [repliesIn_append, h.replies]
    exact List.append_nil _
  answered := h.answered
  deadAnswered := h.deadAnswered
  unjoined := h.unjoined
  emptied hj := by cases hj

/-- The worker, which has nothing in hand, takes the oldest job. -/
theorem recv (h : Ledger out jobCh joined [] handled dead (job :: rest) answers) :
    Ledger (out ++ [.received job]) jobCh joined [job] handled dead (job :: rest) answers where
  enqueued := by
    rw [enqueuedIn_append, h.enqueued]
    exact List.append_nil _
  held := h.held
  pops := (popsIn_append _ _).trans h.pops
  received := by
    rw [receivedIn_append, h.received, List.append_nil]
    rfl
  next := List.prefix_append [job] rest
  replies := by
    rw [repliesIn_append, h.replies]
    exact List.append_nil _
  answered := h.answered
  deadAnswered := h.deadAnswered
  unjoined := h.unjoined
  emptied := h.emptied

/-- The worker neither answers nor pops. -/
theorem quiet (b : Bool) (h : Ledger out jobCh joined inHand handled dead rest answers)
    (hreplies : repliesOf l = []) (hpops : popsOf l = 0) :
    Ledger (out ++ l.map (.worker b)) (JobChannel.pop^[popsOf l] jobCh) joined inHand handled dead
      rest answers where
  enqueued := by simpa using h.enqueued
  held := by
    rw [hpops]
    exact h.held
  pops := by simpa [hpops] using h.pops
  received := by simpa using h.received
  next := h.next
  replies := by cases b <;> simpa [hreplies] using h.replies
  answered := h.answered
  deadAnswered := h.deadAnswered
  unjoined := h.unjoined
  emptied := h.emptied

/-- The worker answers the job in hand and pops it. -/
theorem done {r : Reply} (h : Ledger out jobCh joined [job] handled dead (job :: rest) answers)
    (hans : job.AnsweredBy r) (hreplies : repliesOf l = [r]) (hpops : popsOf l = 1) :
    Ledger (out ++ l.map (.worker true)) (JobChannel.pop^[popsOf l] jobCh) joined []
      (handled ++ [job]) dead rest (answers ++ [r]) where
  enqueued := by
    obtain rfl := h.dead_eq_nil
    simpa using h.enqueued
  held := by
    rw [hpops]
    exact h.held.pop
  pops := by
    rw [popsIn_append, h.pops, popsIn_worker, hpops, List.length_append, List.length_singleton]
    omega
  received := by simpa using h.received
  next := List.nil_prefix
  replies := by
    obtain rfl := h.dead_eq_nil
    have hrep := h.replies
    rw [List.map_nil, List.append_nil] at hrep ⊢
    rw [repliesIn_append, hrep, repliesIn_worker, hreplies]
  answered := List.rel_append h.answered (.cons hans .nil)
  deadAnswered := h.deadAnswered
  unjoined := h.unjoined
  emptied hj := absurd (h.emptied hj) (List.cons_ne_nil _ _)

/-- The join answers what is left. -/
theorem join {b : Bool} {jobCh' : JobChannel}
    (h : Ledger out jobCh false [] handled dead rest answers) (hempty : jobCh'.Holds [])
    (hb : rest ≠ [] → b = true) :
    Ledger (out ++ (rest.map WorkerContext.deadReply).map (.dead b)) jobCh' true [] handled rest []
      answers where
  enqueued := by
    obtain rfl := h.unjoined rfl
    rw [enqueuedIn_append, enqueuedIn_dead, h.enqueued, List.append_nil, List.append_nil,
      List.append_nil]
  held := hempty
  pops := by
    obtain rfl := h.unjoined rfl
    rw [popsIn_append, popsIn_dead, List.length_map, h.pops]
    rfl
  received := by
    rw [receivedIn_append, receivedIn_dead, List.append_nil]
    exact h.received
  next := List.nil_prefix
  replies := by
    obtain rfl := h.unjoined rfl
    have hdead : repliesIn ((rest.map WorkerContext.deadReply).map (.dead b))
        = rest.map WorkerContext.deadReply := by
      cases rest with
      | nil => rfl
      | cons job rest => rw [hb (List.cons_ne_nil _ _), repliesIn_dead]
    rw [repliesIn_append, hdead, h.replies, List.map_nil, List.append_nil]
  answered := h.answered
  deadAnswered := List.forall₂_map_right_iff.mpr
    (List.forall₂_same.mpr fun job _ => job.answeredBy_deadReply)
  unjoined hj := by cases hj
  emptied _ := rfl

end Ledger

/-! ## The history of a station -/

section

variable {ι : Type} [DecidableEq ι]
  {h : List (Entry (Stations ι) (StationsAct ι) (ι × StationEvent))}

/-- What happened at a station. -/
def outOf (i : ι) (h : List (Entry (Stations ι) (StationsAct ι) (ι × StationEvent))) :
    List StationEvent :=
  (h.flatMap Entry.out).filterMap fun e => if e.1 = i then some e.2 else none

/-- The steps of a station. -/
def actsOf (i : ι) (h : List (Entry (Stations ι) (StationsAct ι) (ι × StationEvent))) :
    List StationAct :=
  h.filterMap fun e =>
    match e.act with
    | .station j a => if j = i then some a else none
    | .close => none

variable {s s' : Stations ι} {i j : ι} {a : StationAct} {out : List StationEvent}

theorem outOf_own : outOf i (h ++ [⟨s, .station i a, out.map (Prod.mk i), s'⟩])
    = outOf i h ++ out := by
  simp [outOf, List.filterMap_map]

theorem outOf_of_ne (hj : j ≠ i) :
    outOf j (h ++ [⟨s, .station i a, out.map (Prod.mk i), s'⟩]) = outOf j h := by
  simp [outOf, List.filterMap_map, Ne.symm hj]

theorem outOf_close : outOf i (h ++ [⟨s, .close, [], s'⟩]) = outOf i h := by
  simp [outOf]

theorem actsOf_own : actsOf i (h ++ [⟨s, .station i a, out.map (Prod.mk i), s'⟩])
    = actsOf i h ++ [a] := by
  simp [actsOf]

theorem actsOf_of_ne (hj : j ≠ i) :
    actsOf j (h ++ [⟨s, .station i a, out.map (Prod.mk i), s'⟩]) = actsOf j h := by
  simp [actsOf, Ne.symm hj]

theorem actsOf_close : actsOf i (h ++ [⟨s, .close, [], s'⟩]) = actsOf i h := by
  simp [actsOf]

end

/-! ## Steps -/

section

variable {ι : Type} [DecidableEq ι] {s s' : Stations ι} {i : ι} {a : StationAct}
  {out : List StationEvent} {job : Job} {t : Turn}

/-- The stations after a turn of a thread. -/
def after (s : Stations ι) (i : ι) (t : Turn) : Stations ι :=
  { s with
    system := ⟨t.db, Slots.set s.system.threads i
      { s.system.threads i with worker := t.worker, point := t.point }⟩
    jobCh := Slots.set s.jobCh i (JobChannel.pop^[popsOf t.out] (s.jobCh i)) }

@[simp] theorem after_thread : (s.after i t).system.threads i
    = { s.system.threads i with worker := t.worker, point := t.point } := Slots.set_self _ _ _

@[simp] theorem after_inHand : (s.after i t).inHand i = t.point.inHand := by
  rw [inHand, after_thread]

@[simp] theorem after_turnsLeft : (s.after i t).turnsLeft i = t.point.turnsLeft t.worker := by
  rw [turnsLeft, after_thread]

@[simp] theorem after_turnsToWait :
    (s.after i t).turnsToWait i = t.point.turnsToWait t.worker := by
  rw [turnsToWait, after_thread]

@[simp] theorem after_jobCh :
    (s.after i t).jobCh i = JobChannel.pop^[popsOf t.out] (s.jobCh i) := Slots.set_self _ _ _

/-- The steps at a station. -/
inductive Turned (s : Stations ι) (i : ι) :
    StationAct → Stations ι → List StationEvent → Prop
  | sent {job : Job} {jobCh : JobChannel} : s.joined i = false →
      (s.jobCh i).send job = (.none, jobCh) →
      Turned s i (.send job) { s with jobCh := Slots.set s.jobCh i jobCh } [.enqueued job]
  /-- The job does not go into the channel. -/
  | full {job : Job} : (s.jobCh i).full = true → Turned s i (.send job) s []
  | recv {job : Job} {t : Turn} : (s.jobCh i).get = .ok (some job) →
      (s.system.threads i).point = .recv →
      (s.system.threads i).worker.received s.system.students job = some t →
      Turned s i .recv (s.after i t) (.received job :: t.out.map (.worker s.fdOpen))
  | recvTimeout : (s.system.threads i).point = .recv →
      Turned s i .recvTimeout (s.after i
        ⟨{ (s.system.threads i).worker with
            timeoutCnt := (s.system.threads i).worker.timeoutCnt + 1 },
          .loop, s.system.students, []⟩) []
  | resume {t : Turn} : (s.system.threads i).resume s.system.students = some t →
      Turned s i .resume (s.after i t) (t.out.map (.worker s.fdOpen))
  | stop : Turned s i .stop
      { s with
        system := ⟨s.system.students,
          Slots.set s.system.threads i { s.system.threads i with running := false }⟩ } []
  | join {jobCh : JobChannel} {replies : List Reply} :
      (s.system.threads i).point = .ended → s.joined i = false →
      WorkerContext.ackLoop (s.jobCh i).count.toNat (s.jobCh i) = some (jobCh, replies) →
      Turned s i .join
        { s with
          jobCh := Slots.set s.jobCh i jobCh
          joined := Slots.set s.joined i true }
        (replies.map (.dead s.fdOpen))

theorem go_some {b : Act} (h : s.go i b = some (s', out)) : ∃ th db l,
    (s.system.threads i).step s.system.students b = some (th, db, l) ∧
      out = l.map (.worker s.fdOpen) ∧
      s' = { s with
        system := ⟨db, Slots.set s.system.threads i th⟩
        jobCh := Slots.set s.jobCh i (JobChannel.pop^[popsOf l] (s.jobCh i)) } := by
  obtain ⟨⟨⟨db, threads⟩, l⟩, hsys, heq⟩ := Option.map_eq_some_iff.mp h
  obtain ⟨th, hth, hthreads⟩ := System.step_eq hsys
  cases heq
  dsimp only at hthreads
  exact ⟨th, db, l, hth, rfl, by rw [hthreads]⟩

/-- **Every step at a station is one of the listed ones.** -/
theorem turn_turned (h : s.turn i a = some (s', out)) : Turned s i a s' out := by
  cases a with
  | send job =>
      unfold turn at h
      dsimp only at h
      split at h
      · cases h
      next hj =>
      rw [Bool.not_eq_true] at hj
      cases hf : (s.jobCh i).full with
      | true =>
          rw [JobChannel.send_of_full hf] at h
          cases h
          exact .full hf
      | false =>
          have hsent := JobChannel.send_error_of_not_full job hf
          rcases hsend : (s.jobCh i).send job with ⟨error, jobCh⟩
          rw [hsend] at h hsent
          cases hsent
          cases h
          exact .sent hj hsend
  | recv =>
      unfold turn at h
      dsimp only at h
      split at h
      swap
      · cases h
      next job hget =>
      obtain ⟨⟨s'', l⟩, hgo, heq⟩ := Option.map_eq_some_iff.mp h
      cases heq
      obtain ⟨th, db, l, hth, rfl, rfl⟩ := go_some hgo
      unfold WorkerThread.step at hth
      dsimp only at hth
      split at hth
      · next hp =>
          obtain ⟨t, ht, heq⟩ := Option.map_eq_some_iff.mp hth
          obtain ⟨rfl, rfl, rfl⟩ := WorkerThread.after_eq heq
          exact .recv hget hp ht
      · cases hth
  | recvTimeout =>
      unfold turn at h
      dsimp only at h
      split at h
      swap
      · cases h
      obtain ⟨th, db, l, hth, rfl, rfl⟩ := go_some h
      unfold WorkerThread.step at hth
      dsimp only at hth
      split at hth
      · next hp =>
          cases hth
          exact .recvTimeout hp
      · cases hth
  | resume =>
      obtain ⟨th, db, l, hth, rfl, rfl⟩ := go_some h
      obtain ⟨t, ht, heq⟩ := Option.map_eq_some_iff.mp hth
      obtain ⟨rfl, rfl, rfl⟩ := WorkerThread.after_eq heq
      exact .resume ht
  | stop =>
      obtain ⟨th, db, l, hth, rfl, rfl⟩ := go_some h
      cases hth
      have hjobCh : Slots.set s.jobCh i (JobChannel.pop^[popsOf []] (s.jobCh i)) = s.jobCh := by
        rw [Slots.set_eq_update]
        exact Function.update_eq_self i s.jobCh
      rw [hjobCh]
      exact .stop
  | join =>
      unfold turn at h
      dsimp only at h
      split at h
      · next hp hj =>
          obtain ⟨⟨jobCh, replies⟩, hack, heq⟩ := Option.map_eq_some_iff.mp h
          cases heq
          exact .join hp hj hack
      · cases h

/-- What a step at another station leaves as it is. -/
structure Framed (s s' : Stations ι) (j : ι) : Prop where
  thread : s'.system.threads j = s.system.threads j
  jobCh : s'.jobCh j = s.jobCh j
  joined : s'.joined j = s.joined j

theorem Turned.framed (h : Turned s i a s' out) {j : ι} (hj : j ≠ i) : Framed s s' j := by
  cases h with
  | sent => exact ⟨rfl, Slots.set_of_ne _ _ hj, rfl⟩
  | full => exact ⟨rfl, rfl, rfl⟩
  | recv | recvTimeout | resume => exact ⟨Slots.set_of_ne _ _ hj, Slots.set_of_ne _ _ hj, rfl⟩
  | stop => exact ⟨Slots.set_of_ne _ _ hj, rfl, rfl⟩
  | join => exact ⟨rfl, Slots.set_of_ne _ _ hj, Slots.set_of_ne _ _ hj⟩

theorem Turned.fdOpen_eq (h : Turned s i a s' out) : s'.fdOpen = s.fdOpen := by
  cases h <;> rfl

/-- A step at a station is a step of its thread, or the threads are left alone. -/
theorem Turned.system (h : Turned s i a s' out) : s'.system = s.system ∨ ∃ b l,
    s.system.step (i, b) = some (s'.system, l) ∧ ∀ job, b = .recv job → a = .recv := by
  cases h with
  | sent | full | join => exact Or.inl rfl
  | @recv job t _ hp ht =>
      refine Or.inr ⟨.recv job, t.out, ?_, fun _ _ => rfl⟩
      rw [System.step, WorkerThread.step, hp]
      dsimp only
      rw [ht]
      rfl
  | recvTimeout hp =>
      refine Or.inr ⟨.recvTimeout, [], ?_, fun _ hb => by cases hb⟩
      rw [System.step, WorkerThread.step, hp]
      rfl
  | @resume t ht =>
      refine Or.inr ⟨.resume, t.out, ?_, fun _ hb => by cases hb⟩
      rw [System.step, WorkerThread.step, ht]
      rfl
  | stop => exact Or.inr ⟨.stop, [], rfl, fun _ hb => by cases hb⟩

/-- A step is one at a station, or the socket is shut down or closed. -/
theorem step_cases {act : StationsAct ι} {l : List (ι × StationEvent)}
    (h : s.step act = some (s', l)) :
    (∃ i a out, act = .station i a ∧ l = out.map (Prod.mk i) ∧ Turned s i a s' out) ∨
      act = .close ∧ l = [] ∧ s' = { s with fdOpen := false } := by
  cases act with
  | station i a =>
      obtain ⟨⟨s'', out⟩, hturn, heq⟩ := Option.map_eq_some_iff.mp h
      cases heq
      exact Or.inl ⟨i, a, out, rfl, rfl, turn_turned hturn⟩
  | close =>
      cases h
      exact Or.inr ⟨rfl, rfl, rfl⟩

end

end Stations

end PawnDB
