import Mathlib.Data.Finset.Card
import Mathlib.Data.Fintype.Basic
import Mathlib.Data.List.FinRange
import CDRuntime.Collectives
import CDRuntime.RollbackCell

namespace CDRuntime.ErrorReports

/-- A CD with more than one task, none of which has opened another CD inside it. -/
structure CD where
  taskSize : ℕ
  head : Fin taskSize
  level : ℕ
  coarse : 1 < taskSize
  levelValid : level < invalidRollbackPoint

inductive Handler
  | errorOccurred
  | allReexecute
  deriving DecidableEq

/-- Where a task is inside `CheckMailBox`. -/
inductive Poll (n : ℕ)
  | idle
  /-- before the counter is read -/
  | entered
  /-- before `GetEventFlag` -/
  | counted
  /-- in `ReadMailBox`: the senders whose flag is set in the copy and still has to be looked at -/
  | reading (senders : List (Fin n))
  /-- in the loop of `InvokeErrorHandler`; `dec` says whether `DecPendingCounter` follows -/
  | invoking (dec : Bool)
  /-- in the loop of `HandleErrorOccurred` -/
  | sending (dec : Bool) (tasks : List (Fin n))
  /-- there, between the counter and the flag of `task` -/
  | flagging (dec : Bool) (task : Fin n) (tasks : List (Fin n))
  deriving DecidableEq

inductive Site
  | beginCD
  | completeCD
  deriving DecidableEq

/-- Where a task is: in `SyncCDs`, called by `Begin` or by `Complete`, or right behind it with the
reduced value; in the body; or in `RemoteSetMailBox` of a report, after the counter. -/
inductive Pc
  | check1 (site : Site)
  | check2 (site : Site)
  | fence (site : Site)
  | check3 (site : Site)
  | read (site : Site)
  | reduce (site : Site)
  | merge (site : Site) (new : ℕ)
  | body
  | sent
  deriving DecidableEq

/-- A task and its windows.  The head gets `kErrorOccurred` in the word of the member that
reports, a member gets `kAllReexecute` from the head in its only word: `eventFlag` holds the
senders of the flags that are set.  `collectives` counts the fences and reductions left so far,
`given` is what the task gave to each reduction; `failures` and `verdicts` record in which
attempts an assertion failed and which attempts were rolled back. -/
structure Task (n : ℕ) where
  pc : Pc := .check1 .beginCD
  poll : Poll n := .entered
  pendingFlag : ℕ := 0
  handledEventCount : ℕ := 0
  eventFlag : Finset (Fin n) := ∅
  cdEvent : List Handler := []
  errorOccurred : Bool := false
  rollbackPoint : ℕ := invalidRollbackPoint
  collectives : ℕ := 0
  given : List ℕ := []
  failures : Finset ℕ := ∅
  verdicts : List Bool := []
  deriving DecidableEq

/-- What a step of one task does to the memory of another. -/
inductive Effect (n : ℕ)
  | nothing
  | increment (task : Fin n)
  | accumulate (task : Fin n)

abbrev State (cd : CD) := Fin cd.taskSize → Task cd.taskSize

def start (cd : CD) : State cd := fun _ => {}

inductive Action (n : ℕ)
  | next (task : Fin n)
  | assert (task : Fin n) (test : Bool)
  | complete (task : Fin n)

def Pc.waits : Pc → Bool
  | .fence _ => true
  | .reduce _ => true
  | _ => false

def Pc.polled : Pc → Pc
  | .check1 site => .check2 site
  | .check2 site => .fence site
  | .check3 site => .read site
  | pc => pc

/-- The second check of `SyncCDs` follows the first one at once. -/
def Pc.pollAgain {n : ℕ} : Pc → Poll n
  | .check1 _ => .entered
  | _ => .idle

namespace Task

variable {n : ℕ}

/-- An execution of the CD takes a fence and a reduction in `Begin` and in `Complete`. -/
def attempt (t : Task n) : ℕ := t.collectives / 4

/-- How many reductions the task has left. -/
def round (t : Task n) : ℕ := t.collectives / 2

def returned (t : Task n) : Task n := { t with pc := t.pc.polled, poll := t.pc.pollAgain }

def incPendingCounter (t : Task n) : Task n :=
  { t with pendingFlag := (t.pendingFlag + 1) % 2 ^ 32 }

/-- The unsigned counter wraps when more events were handled than are pending. -/
def decPendingCounter (t : Task n) : Task n :=
  { t with
    pendingFlag := (2 ^ 32 - t.handledEventCount % 2 ^ 32 + t.pendingFlag) % 2 ^ 32
    handledEventCount := 0 }

/-- `ReadMailBox` for a flag that is set: at the head a second error joins the first. -/
def readMailBox (t : Task n) (isHead : Bool) : Task n :=
  if isHead then
    if t.errorOccurred then { t with handledEventCount := t.handledEventCount + 1 }
    else { t with cdEvent := t.cdEvent ++ [.errorOccurred], errorOccurred := true }
  else { t with cdEvent := t.cdEvent ++ [.allReexecute] }

def localSetMailBox (t : Task n) : Task n :=
  { t.incPendingCounter with cdEvent := t.cdEvent ++ [.allReexecute] }

/-- `HandleAllReexecute`, for a handler of the level that the task is at. -/
def handleAllReexecute (cd : CD) (t : Task n) : Task n :=
  { t with
    rollbackPoint := (setRollbackPoint t.rollbackPoint cd.level).1
    handledEventCount := t.handledEventCount + 1 }

def handledErrorOccurred (t : Task n) : Task n :=
  { t with handledEventCount := t.handledEventCount + 1, errorOccurred := false }

end Task

namespace State

variable {cd : CD}

def apply (s : State cd) (i : Fin cd.taskSize) : Effect cd.taskSize → State cd
  | .nothing => s
  | .increment j => Function.update s j (s j).incPendingCounter
  | .accumulate j =>
      Function.update s j { s j with eventFlag := insert i (s j).eventFlag }

/-- All tasks have entered the fence or reduction that `k` others precede. -/
def entered (s : State cd) (k : ℕ) : Prop :=
  Collectives.Entered (fun j => (s j).collectives) (fun j => (s j).pc.waits = true) k

instance (s : State cd) (k : ℕ) : Decidable (s.entered k) :=
  inferInstanceAs
    (Decidable (∀ j, k < (s j).collectives ∨ (s j).collectives = k ∧ (s j).pc.waits = true))

/-- `PMPI_Allreduce` with `MPI_MIN`: the least of what the tasks gave to the reduction `r`. -/
def minGiven (s : State cd) (r : ℕ) : ℕ :=
  ((List.finRange cd.taskSize).map fun j => ((s j).given[r]?).getD invalidRollbackPoint).foldr min
    invalidRollbackPoint

end State

section Steps

variable (cd : CD) (i : Fin cd.taskSize) (t : Task cd.taskSize)

/-- The next step of a task inside `CheckMailBox`; `none` where its assertion fails. -/
def checkMailBox : Option (Task cd.taskSize × Effect cd.taskSize) :=
  match t.poll with
  | .idle => none
  | .entered =>
      if t.handledEventCount ≠ 0 then none
      else if t.pendingFlag ≠ 0 then some ({ t with poll := .counted }, .nothing)
      else if t.cdEvent ≠ [] then some ({ t with poll := .invoking false }, .nothing)
      else some (t.returned, .nothing)
  | .counted =>
      some ({ t with
        poll := .reading ((List.finRange cd.taskSize).filter (· ∈ t.eventFlag)) }, .nothing)
  | .reading (x :: senders) =>
      some ({ t.readMailBox (i = cd.head) with
        eventFlag := t.eventFlag.erase x, poll := .reading senders }, .nothing)
  | .reading [] =>
      -- `tot_events` is the length of the queue
      if t.cdEvent ≠ [] then some ({ t with poll := .invoking true }, .nothing)
      else some (t.returned, .nothing)
  | .invoking dec =>
      match t.cdEvent with
      | [] => some ((if dec then t.decPendingCounter else t).returned, .nothing)
      | .allReexecute :: queue =>
          some ({ t.handleAllReexecute cd with cdEvent := queue }, .nothing)
      | .errorOccurred :: _ =>
          some ({ t with poll := .sending dec (List.finRange cd.taskSize) }, .nothing)
  | .sending dec (j :: tasks) =>
      if j = i then some ({ t.localSetMailBox with poll := .sending dec tasks }, .nothing)
      else some ({ t with poll := .flagging dec j tasks }, .increment j)
  | .sending dec [] =>
      -- the handler leaves the queue when it has run
      some ({ t.handledErrorOccurred with cdEvent := t.cdEvent.tail, poll := .invoking dec },
        .nothing)
  | .flagging dec j tasks => some ({ t with poll := .sending dec tasks }, .accumulate j)

/-- `Begin` behind its reduction, for a level that does not lie below the CD. -/
def beginMerged (new : ℕ) : Option (Task cd.taskSize) :=
  if new < cd.level then none
  else some { t with rollbackPoint := invalidRollbackPoint, pc := .body, poll := .idle }

/-- `Complete` behind its reduction.  A task that rolls back to this CD gets from `GetCDToRecover`
to the reset at the start of `Begin`; a roll back to another CD is not followed. -/
def completeMerged (new : ℕ) : Option (Task cd.taskSize) :=
  let (cell, new) := setRollbackPoint t.rollbackPoint new
  if new ≤ cd.level then
    if cell = cd.level then
      some { t.decPendingCounter with
        rollbackPoint := invalidRollbackPoint
        pc := .check1 .beginCD
        poll := .entered
        verdicts := t.verdicts ++ [true] }
    else none
  else
    some { t with
      rollbackPoint := cell, pc := .check1 .beginCD, poll := .entered
      verdicts := t.verdicts ++ [false] }

end Steps

section Step

variable {cd : CD} (s : State cd) (i : Fin cd.taskSize)

/-- The next step of a task outside `CheckMailBox`. -/
def proceed : Option (Task cd.taskSize × Effect cd.taskSize) :=
  let t := s i
  match t.pc with
  | .fence site =>
      if s.entered t.collectives then
        some ({ t with pc := .check3 site, poll := .entered, collectives := t.collectives + 1 },
          .nothing)
      else none
  | .read site =>
      some ({ t with pc := .reduce site, given := t.given ++ [t.rollbackPoint] }, .nothing)
  | .reduce site =>
      if s.entered t.collectives then
        some ({ t with
          pc := .merge site (s.minGiven t.round), collectives := t.collectives + 1 }, .nothing)
      else none
  | .merge .beginCD new => (beginMerged cd t new).map (·, .nothing)
  | .merge .completeCD new => (completeMerged cd t new).map (·, .nothing)
  | .sent => some ({ t with pc := .body, poll := .entered }, .accumulate cd.head)
  | _ => none

/-- `CD::Assert` up to its `CheckMailBox`. -/
def assert (test : Bool) : Option (Task cd.taskSize × Effect cd.taskSize) :=
  let t := s i
  if t.pc = .body ∧ t.poll = .idle then
    if test then some ({ t with poll := .entered }, .nothing)
    else if i = cd.head then
      some ({ t with
        rollbackPoint := (setRollbackPoint t.rollbackPoint cd.level).1
        poll := .entered
        failures := insert t.attempt t.failures }, .nothing)
    else
      some ({ t with pc := .sent, failures := insert t.attempt t.failures }, .increment cd.head)
  else none

def complete : Option (Task cd.taskSize × Effect cd.taskSize) :=
  let t := s i
  if t.pc = .body ∧ t.poll = .idle then
    some ({ t with pc := .check1 .completeCD, poll := .entered }, .nothing)
  else none

def act : Action cd.taskSize → Option (Task cd.taskSize × Effect cd.taskSize)
  | .next i => if (s i).poll = .idle then proceed s i else checkMailBox cd i (s i)
  | .assert i test => assert s i test
  | .complete i => complete s i

def Action.task {n : ℕ} : Action n → Fin n
  | .next i => i
  | .assert i _ => i
  | .complete i => i

def step (s : State cd) (a : Action cd.taskSize) : Option (State cd) :=
  (act s a).map fun r => State.apply (Function.update s a.task r.1) a.task r.2

end Step

end CDRuntime.ErrorReports
