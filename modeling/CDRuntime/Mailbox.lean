import Mathlib.Data.Finset.Card
import Mathlib.Data.Fintype.Defs
import CDRuntime.Runs

namespace CDRuntime.Mailbox

inductive Event
  | errorOccurred
  | entrySearch
  | entrySend
  | allPause
  | allResume
  | allReexecute
  deriving DecidableEq

instance : Fintype Event where
  elems := {.errorOccurred, .entrySearch, .entrySend, .allPause, .allResume, .allReexecute}
  complete k := by cases k <;> decide

/-- The mailbox of one level.  Only levels with more than one task have one. -/
structure Box where
  isHead : Bool
  taskSize : ℕ
  taskInColor : ℕ
  coarse : 1 < taskSize
  own : taskInColor < taskSize

/-- How many words of event flags a mailbox has: one per task at the head, one elsewhere. -/
def Box.words (mb : Box) : ℕ := if mb.isHead then mb.taskSize else 1

/-- One bit of the event flags: `event` in `event_flag_[slot]` of the mailbox `box`.  It also
names an event that was sent there and the handler that was made for it. -/
structure Flag where
  box : ℕ
  slot : ℕ
  event : Event
  deriving DecidableEq

/-- The word `event_flag_[i]` of the mailbox `b`. -/
def word (flags : Finset Flag) (b i : ℕ) : Finset Event :=
  Finset.univ.filter fun k => ⟨b, i, k⟩ ∈ flags

/-- The assignment `event_flag_[i] = w` in the mailbox `b`. -/
def setWord (flags : Finset Flag) (b i : ℕ) (w : Finset Event) : Finset Flag :=
  (flags.filter fun x => ¬ (x.box = b ∧ x.slot = i)) ∪ w.image fun k => ⟨b, i, k⟩

/-- The steps of the task's own functions.  Each touches memory that other tasks can write at
most once. -/
inductive Micro
  /-- `GetEventFlag` of one mailbox, under the lock -/
  | getEventFlag (b : ℕ)
  /-- `tot_events += cd_event_.size()` -/
  | tally
  /-- the handler is pushed and `UnsetEventFlag` clears the bit under the lock -/
  | take (x : Flag)
  /-- `UnsetEventFlag` without a handler -/
  | discard (x : Flag)
  /-- the load of `event_flag_[idx] &= ~event`, which no lock protects -/
  | load (x : Flag)
  /-- the store of that assignment, from the loaded word, and the push of the handler -/
  | store (x : Flag) (w : Finset Event)
  /-- `assert(0)` -/
  | stop
  /-- `if(is_new_event)` at the end of `CheckMailBox` -/
  | judge
  /-- the loop of `InvokeErrorHandler` -/
  | invoke
  /-- `DecPendingCounter` -/
  | dec
  /-- `FinalizeMailBox` reads a word -/
  | finalizeLoad (b i : ℕ)
  /-- and counts what it read and zeroes the word -/
  | finalizeStore (b i : ℕ) (w : Finset Event)
  deriving DecidableEq

/-- The counter, the flags and the queue of a task, and what its current function still has to
do.  `flight` holds the events whose counter increment is done and whose flag is not set yet;
`sent` and `handled` record every event that was sent and every event that was counted by
`IncHandledEventCounter`. -/
structure State where
  pendingFlag : ℕ := 0
  handledEventCount : ℕ := 0
  flags : Finset Flag := ∅
  cdEvent : List Flag := []
  errorOccurred : Finset ℕ := ∅
  totEvents : ℕ := 0
  todo : List Micro := []
  flight : Multiset Flag := 0
  sent : Multiset Flag := 0
  handled : Multiset Flag := 0
  deriving DecidableEq

def start : State := {}

/-- `HeadCD::ReadMailBox` on the word it was given. -/
def readHead (b i : ℕ) (w : Finset Event) : List Micro :=
  (if .errorOccurred ∈ w then [.take ⟨b, i, .errorOccurred⟩] else []) ++
  (if .entrySearch ∈ w then [.load ⟨b, i, .entrySearch⟩] else []) ++
  (if .allResume ∈ w then [.load ⟨b, i, .allResume⟩] else []) ++
  (if .allReexecute ∈ w then [.load ⟨b, i, .allReexecute⟩] else []) ++
  if .entrySend ∈ w ∨ .allPause ∈ w then [.stop] else []

/-- `CD::ReadMailBox` on the word it was given. -/
def readMember (b : ℕ) (w : Finset Event) : List Micro :=
  (if .entrySearch ∈ w then [.discard ⟨b, 0, .entrySearch⟩] else []) ++
  (if .errorOccurred ∈ w then [.discard ⟨b, 0, .errorOccurred⟩] else []) ++
  (if .entrySend ∈ w then [.take ⟨b, 0, .entrySend⟩] else []) ++
  (if .allPause ∈ w then [.take ⟨b, 0, .allPause⟩] else []) ++
  if .allReexecute ∈ w then [.take ⟨b, 0, .allReexecute⟩] else []

/-- `InternalCheckMailBox` after `GetEventFlag`. -/
def internalCheckMailBox (mb : Box) (b : ℕ) (flags : Finset Flag) : List Micro :=
  if mb.isHead then (List.range mb.taskSize).flatMap fun i => readHead b i (word flags b i)
  else readMember b (word flags b 0)

namespace State

def incPendingCounter (s : State) : State :=
  { s with pendingFlag := (s.pendingFlag + 1) % 2 ^ 32 }

/-- The unsigned counter wraps when more events were handled than are pending. -/
def decPendingCounter (s : State) : State :=
  { s with
    pendingFlag := (s.pendingFlag + 2 ^ 32 - s.handledEventCount % 2 ^ 32) % 2 ^ 32
    handledEventCount := 0 }

def incHandledEventCounter (s : State) (x : Flag) : State :=
  { s with handledEventCount := s.handledEventCount + 1, handled := x ::ₘ s.handled }

/-- The local part of `take`: at the head a second error joins the first. -/
def register (s : State) (x : Flag) : State :=
  if x.event = .errorOccurred then
    if x.box ∈ s.errorOccurred then s.incHandledEventCounter x
    else { s with cdEvent := s.cdEvent ++ [x], errorOccurred := insert x.box s.errorOccurred }
  else { s with cdEvent := s.cdEvent ++ [x] }

/-- `HeadCD::LocalSetMailBox` for the two events that it takes. -/
def localSetMailBox (s : State) (x : Flag) : State :=
  let s := s.incPendingCounter
  { s with
    sent := x ::ₘ s.sent
    cdEvent := s.cdEvent ++ [x]
    flags := s.flags.erase x
    errorOccurred :=
      if x.event = .errorOccurred then insert x.box s.errorOccurred else s.errorOccurred }

end State

/-- `HandleEvent` of the handler `x`, which is off the queue.  `HandleErrorOccurred` sets
`kAllReexecute` at every task, which for its own task is `LocalSetMailBox`.
`HandleEntrySend` stops: what it takes for a missing entry is a found one, and it reads
through the null pointer otherwise. -/
def handleEvent (boxes : List Box) (s : State) (x : Flag) : Option State :=
  match x.event with
  | .errorOccurred => do
      let mb ← boxes[x.box]?
      let s := s.localSetMailBox ⟨x.box, mb.taskInColor, .allReexecute⟩
      let s := s.incHandledEventCounter x
      some { s with errorOccurred := s.errorOccurred.erase x.box }
  | .entrySend => none
  | _ => some (s.incHandledEventCounter x)

/-- The next step of the task's current function; `rest` is what remains after it. -/
def perform (boxes : List Box) (s : State) (rest : List Micro) : Micro → Option State
  | .getEventFlag b => do
      let mb ← boxes[b]?
      some { s with todo := internalCheckMailBox mb b s.flags ++ rest }
  | .tally => some { s with totEvents := s.totEvents + s.cdEvent.length, todo := rest }
  | .take x => some { s.register x with flags := s.flags.erase x, todo := rest }
  | .discard x => some { s with flags := s.flags.erase x, todo := rest }
  | .load x => some { s with todo := .store x (word s.flags x.box x.slot) :: rest }
  | .store x w =>
      some { s.register x with
        flags := setWord s.flags x.box x.slot (w.erase x.event), todo := rest }
  | .stop => none
  | .judge => some { s with todo := if 0 < s.totEvents then .invoke :: .dec :: rest else rest }
  | .invoke =>
      match s.cdEvent with
      | [] => some { s with todo := rest }
      | x :: queue => handleEvent boxes { s with cdEvent := queue } x
  | .dec => some { s.decPendingCounter with todo := rest }
  | .finalizeLoad b i => some { s with todo := .finalizeStore b i (word s.flags b i) :: rest }
  | .finalizeStore b i w =>
      some { s with
        handledEventCount := s.handledEventCount + w.card
        handled := s.handled + w.val.map fun k => ⟨b, i, k⟩
        flags := setWord s.flags b i ∅
        todo := rest }

/-- What a sender can address.  The head gets events in the word of the sending task; another
task gets them from its head, which refuses two kinds. -/
def Addressable (boxes : List Box) (x : Flag) : Prop :=
  match boxes[x.box]? with
  | none => False
  | some mb =>
      if mb.isHead then x.slot < mb.taskSize ∧ x.slot ≠ mb.taskInColor
      else x.slot = 0 ∧ x.event ≠ .errorOccurred ∧ x.event ≠ .entrySearch

instance (boxes : List Box) (x : Flag) : Decidable (Addressable boxes x) := by
  unfold Addressable
  split <;> infer_instance

inductive Op
  /-- a sender increments the counter -/
  | increment (x : Flag)
  /-- and sets the flag with a bitwise or -/
  | accumulate (x : Flag)
  | checkMailBox
  | localSetMailBox (b : ℕ) (event : Event)
  | finalizeMailBox (b : ℕ)
  /-- the `DecPendingCounter` of `GetCDToRecover` -/
  | getCDToRecover
  /-- the next step of the function that the task is in -/
  | next
  deriving DecidableEq

/-- `CheckMailBox` after the counter is read. -/
def checkMailBox (boxes : List Box) (s : State) : List Micro :=
  if s.pendingFlag = 0 then
    if 0 < boxes.length * s.cdEvent.length then [.invoke] else []
  else
    ((List.range boxes.length).flatMap fun b => [.getEventFlag b, .tally]) ++ [.judge]

/-- One step of the other tasks or of this one; `none` where an assertion stops the task or the
step is not enabled. -/
def step (boxes : List Box) (s : State) : Op → Option State
  | .increment x =>
      if Addressable boxes x then
        some { s.incPendingCounter with sent := x ::ₘ s.sent, flight := x ::ₘ s.flight }
      else none
  | .accumulate x =>
      if x ∈ s.flight then
        some { s with flight := s.flight.erase x, flags := insert x s.flags }
      else none
  | .checkMailBox =>
      if s.todo = [] ∧ s.handledEventCount = 0 then
        some { s with totEvents := 0, todo := checkMailBox boxes s }
      else none
  | .localSetMailBox b event => do
      let mb ← boxes[b]?
      if s.todo = [] ∧ mb.isHead ∧ (event = .errorOccurred ∨ event = .allReexecute) then
        some (s.localSetMailBox ⟨b, mb.taskInColor, event⟩)
      else none
  | .finalizeMailBox b => do
      let mb ← boxes[b]?
      if s.todo = [] then
        some { s with
          todo := ((List.range mb.words).map fun i => .finalizeLoad b i) ++ [.dec] }
      else none
  | .getCDToRecover => if s.todo = [] then some { s with todo := [.dec] } else none
  | .next =>
      match s.todo with
      | [] => none
      | m :: rest => perform boxes s rest m

end CDRuntime.Mailbox
