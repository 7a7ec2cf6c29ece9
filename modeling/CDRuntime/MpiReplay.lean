import CDRuntime.MpiRecording

namespace CDRuntime.Mpi
open Splice CommLog Pending Runs

/-- The `n` addresses from `addr` on. -/
def addresses (addr n : ℕ) : List ℕ := (List.range n).map fun i => addr + i

/-- The addresses that the results of a call are in when it returns. -/
def Wrapper.results (mem : Memory) : Wrapper → List ℕ
  | event .. | isend .. | irecv .. | wait _ | waitall .. => []
  | data _ _ _ _ cells | exchange _ _ _ _ _ cells => cells
  | test flag _ => addresses flag 4
  | testany flag index _ => addresses flag 4 ++ addresses index 4
  | testsome outcount indices _ | waitsome outcount indices _ =>
      addresses outcount 4 ++ addresses indices (4 * (intAt mem outcount).toNat)
  | waitany index _ => addresses index 4

/-- The request and the buffer of a receive that goes on when the call returns. -/
def Wrapper.receiving : Wrapper → Option (ℕ × List ℕ)
  | irecv _ _ _ _ _ request cells => some (request, cells)
  | _ => none

/-- The memory with which the first of the calls that completes the request returns. -/
def completion (h : Handles) (request : ℕ) (rest : List Step) : Option Memory :=
  (rest.find? fun s => request ∈ (s.call.wrapper h).completes s.after).map Step.after

/-- A call that is replayed delivers what it delivered when it was recorded with the calls `rest`
behind it. A receive that goes on delivers what it had received when it was completed. -/
structure Delivered (h : Handles) (s : Step) (rest : List Step) (mem : Memory) : Prop where
  results : ∀ a ∈ (s.call.wrapper h).results s.after, mem a = s.after a
  received : ∀ request cells, (s.call.wrapper h).receiving = some (request, cells) →
    ∃ m, completion h request rest = some m ∧ ∀ a ∈ cells, mem a = m a

/-- The calls `again` are served from the log as `steps` were recorded, and ask for `lengths`, which
is the whole log. -/
def Reproduces (h : Handles) (lengths : List ℕ) : List Step → List Step → Task → Prop
  | [], [], t => t.asked = lengths ∧ t.log.logTableReexecPos = t.log.logTable.curPos ∧
      t.log.commLogMode = .replayLog
  | s :: rest, r :: again, t => ∃ t', step h t r = some t' ∧ Delivered h s rest t'.mem ∧
      Reproduces h lengths rest again t'
  | _, _, _ => False

/-- The lengths of the entries that the calls have appended. A repeated entry stands for as many as
have been counted. -/
def entryLengths (c : CommLog) : List ℕ :=
  c.logTable.entries.flatMap fun e => List.replicate (weight e) e.length

/-- A domain that is rolled back in state `t` replays the calls that it has recorded, whatever the
memory is when they are made again. -/
def Symmetric (h : Handles) (steps : List Step) (t : Task) : Prop :=
  ∀ again : List Step, again.map Step.call = steps.map Step.call →
    Reproduces h (entryLengths t.log) steps again
      { t with log := reInit t.log, asked := [] }

section Memory

variable {m mem : Memory} {addr n a : ℕ}

theorem put_nil (m : Memory) (addr : ℕ) : put m addr [] = m := by
  funext a
  simp [put]

theorem bytesAt_getElem? (mem : Memory) (addr : ℕ) {n i : ℕ} (hi : i < n) :
    (bytesAt mem addr n)[i]? = some (mem (addr + i)) := by
  simp [bytesAt, hi]

theorem put_inside (hle : addr ≤ a) (hlt : a < addr + n) :
    put m addr (bytesAt mem addr n) a = mem a := by
  rw [put, if_neg (by omega), bytesAt_getElem? mem addr (by omega), Option.getD_some]
  congr 1
  omega

theorem put_agrees (h : m a = mem a) : put m addr (bytesAt mem addr n) a = mem a := by
  by_cases hin : addr ≤ a ∧ a < addr + n
  · exact put_inside hin.1 hin.2
  · rw [put]
    split_ifs with hlt
    · exact h
    · rw [List.getElem?_eq_none (by rw [bytesAt_length]; omega), Option.getD_none, h]

theorem mem_addresses : a ∈ addresses addr n ↔ addr ≤ a ∧ a < addr + n := by
  simp only [addresses, List.mem_map, List.mem_range]
  constructor
  · rintro ⟨i, hi, rfl⟩
    omega
  · rintro ⟨hle, hlt⟩
    exact ⟨a - addr, by omega, by omega⟩

theorem put_addresses (h : a ∈ addresses addr n) :
    put m addr (bytesAt mem addr n) a = mem a :=
  put_inside (mem_addresses.mp h).1 (mem_addresses.mp h).2

theorem bytesAt_congr (h : ∀ a ∈ addresses addr n, m a = mem a) :
    bytesAt m addr n = bytesAt mem addr n := by
  refine List.map_congr_left fun i hi => h _ ?_
  exact List.mem_map.mpr ⟨i, hi, rfl⟩

theorem intAt_congr (h : ∀ a ∈ addresses addr 4, m a = mem a) : intAt m addr = intAt mem addr := by
  rw [intAt, intAt, bytesAt_congr h]

theorem indexBytes_eq (h : 0 ≤ intAt mem addr) :
    indexBytes mem addr = 4 * (intAt mem addr).toNat := by
  have hlt : intAt mem addr < 2 ^ 31 := Int32.toInt_lt _
  rw [indexBytes, uint64]
  omega

end Memory

def Slot.service (x : Slot) : Service := ⟨x.length, x.payload.getD []⟩

/-- The service of a completed entry with what the library has left at an address. -/
def serviceAt (mem : Memory) (addr n : ℕ) : Service := ⟨n, bytesAt mem addr n⟩

def eventService : Service := ⟨0, []⟩

@[simp] theorem serviceAt_length (mem : Memory) (addr n : ℕ) :
    (serviceAt mem addr n).length = n := rfl

@[simp] theorem eventService_length : eventService.length = 0 := rfl

/-- A task in a replay that has asked for `asked`, with the services `ss` before it. -/
structure Ready (t : Task) (asked : List ℕ) (ss : List Service) : Prop where
  replaying : Replaying t.log
  pending : pending t.log = ss
  mode : t.log.commLogMode = .replayLog
  asked : t.asked = asked

section Read

variable {t : Task} {mem : Memory} {asked : List ℕ} {s : Service} {ss : List Service}

theorem call_ready (h : Ready t asked (s :: ss)) {x : ReplayCall} (hlen : x.length = s.length) :
    ∃ c, call t.log x = some (.ok, x.delivers s.bytes, c) ∧ Replaying c ∧ CommLog.pending c = ss ∧
      c.commLogMode = .replayLog := by
  rcases Nat.eq_or_lt_of_le h.replaying.position with hend | hlt
  · have hnone := h.pending.symm.trans (pending_at_end h.replaying hend)
    cases hnone
  obtain ⟨e, he, hdrop⟩ := entry_at_position h.replaying hlt
  have hmem := List.mem_of_getElem? he
  have hfirst := h.pending.symm.trans (pending_at_entry hdrop (h.replaying.unserved e hmem))
  obtain ⟨rfl, hss⟩ := List.cons.inj hfirst
  obtain ⟨c, hcall, htv, hcur, hent⟩ := call_serves h.replaying.toValid he hlen
    (h.replaying.completed e hmem)
  obtain ⟨hnext, hpend⟩ := replaying_served h.replaying he htv hcur hent
  exact ⟨_, hcall, hnext, hpend.trans hss.symm, h.mode⟩

theorem Ready.read (h : Ready t asked (s :: ss)) (addr : ℕ) :
    ∃ t', t.readData addr s.length = some (.ok, t') ∧ Ready t' (asked ++ [s.length]) ss ∧
      t'.mem = put t.mem addr s.bytes := by
  obtain ⟨c, hcall, hrep, hpend, hmode⟩ := call_ready h (x := .read s.length) rfl
  refine ⟨{ t with log := c, mem := put t.mem addr s.bytes, asked := t.asked ++ [s.length] }, ?_,
    ⟨hrep, hpend, hmode, by rw [h.asked]⟩, rfl⟩
  rw [call] at hcall
  rw [Task.readData, hcall]
  rfl

theorem Ready.probe (h : Ready t asked (s :: ss)) :
    ∃ t', t.probeData s.length = some (.ok, t') ∧ Ready t' (asked ++ [s.length]) ss ∧
      t'.mem = t.mem := by
  obtain ⟨c, hcall, hrep, hpend, hmode⟩ := call_ready h (x := .probe s.length) rfl
  refine ⟨{ t with log := c, asked := t.asked ++ [s.length] }, ?_,
    ⟨hrep, hpend, hmode, by rw [h.asked]⟩, rfl⟩
  rw [call] at hcall
  rw [Task.probeData, hcall]
  rfl

/-- What the library has left at an address is read back to it, and nothing that has been restored
is lost. -/
theorem Ready.readAt {addr n : ℕ} (h : Ready t asked (serviceAt mem addr n :: ss)) :
    ∃ t', t.readData addr n = some (.ok, t') ∧ Ready t' (asked ++ [n]) ss ∧
      (∀ a ∈ addresses addr n, t'.mem a = mem a) ∧ ∀ a, t.mem a = mem a → t'.mem a = mem a := by
  obtain ⟨t', ht', h', hmem⟩ := h.read addr
  refine ⟨t', ht', h', fun a ha => ?_, fun a ha => ?_⟩
  · rw [hmem]
    exact put_addresses ha
  · rw [hmem]
    exact put_agrees ha

theorem Ready.event {bytes : List UInt8} (h : Ready t asked (⟨0, bytes⟩ :: ss)) :
    ∃ t', t.probeData 0 = some (.ok, t') ∧ Ready t' (asked ++ [0]) ss ∧ t'.mem = t.mem :=
  h.probe

theorem Ready.at_end (h : Ready t asked []) : t.log.logTableReexecPos = t.log.logTable.curPos := by
  rcases Nat.eq_or_lt_of_le h.replaying.position with hend | hlt
  · exact hend
  · obtain ⟨e, he, hdrop⟩ := entry_at_position h.replaying hlt
    have hfirst := h.pending.symm.trans
      (pending_at_entry hdrop (h.replaying.unserved e (List.mem_of_getElem? he)))
    cases hfirst

def AsksEvent (call : ℕ → Task → Option (CommLogErrT × Task)) : Prop :=
  ∀ k t asked ss, Ready t asked (eventService :: ss) →
    ∃ t', call k t = some (.ok, t') ∧ Ready t' (asked ++ [0]) ss ∧ t'.mem = t.mem

theorem asksEvent_probe : AsksEvent fun _ t => t.probeData 0 :=
  fun _ _ _ _ h => h.probe

theorem asksEvent_read (addr : ℕ → Task → ℕ) : AsksEvent fun k t => t.readData (addr k t) 0 := by
  intro k t asked ss h
  obtain ⟨t', ht', hready, hmem⟩ := h.read (addr k t)
  exact ⟨t', ht', hready, hmem.trans (put_nil _ _)⟩

theorem foldlM_events {call : ℕ → Task → Option (CommLogErrT × Task)} (hcall : AsksEvent call)
    (ks : List ℕ) : ∀ (t : Task) (asked : List ℕ),
      Ready t asked (ks.map (fun _ => eventService) ++ ss) →
      ∃ t', ks.foldlM (fun t k => (call k t).map Prod.snd) t = some t' ∧
        Ready t' (asked ++ ks.map fun _ => 0) ss ∧ t'.mem = t.mem := by
  induction ks with
  | nil =>
      intro t asked h
      exact ⟨t, rfl, by simpa using h, rfl⟩
  | cons k ks ih =>
      intro t asked h
      obtain ⟨t₁, ht₁, h₁, hmem₁⟩ := hcall k t asked _ h
      obtain ⟨t', ht', h', hmem'⟩ := ih t₁ _ h₁
      refine ⟨t', ?_, ?_, hmem'.trans hmem₁⟩
      · rw [List.foldlM_cons, ht₁, Option.map_some, Option.bind_eq_bind, Option.bind_some, ht']
      · rwa [List.map_cons, List.append_cons]

theorem Ready.forEach {call : ℕ → Task → Option (CommLogErrT × Task)} (hcall : AsksEvent call)
    {n : ℕ} (h : Ready t asked (List.replicate n eventService ++ ss)) :
    ∃ t', t.forEach n call = some t' ∧ Ready t' (asked ++ List.replicate n 0) ss ∧
      t'.mem = t.mem := by
  have hconst : ∀ {α : Type} (x : α), (List.range n).map (fun _ => x) = List.replicate n x := by
    intro α x
    rw [List.map_const', List.length_range]
  rw [← hconst] at h ⊢
  exact foldlM_events hcall (List.range n) t asked h

theorem Ready.probeUntilFlip (n : ℕ) : ∀ (t : Task) (asked : List ℕ),
    Ready t asked (List.replicate n eventService ++ ss) →
    ∃ t', t.probeUntilFlip n .ok = some (.ok, t') ∧ Ready t' (asked ++ List.replicate n 0) ss := by
  induction n with
  | zero =>
      intro t asked h
      exact ⟨t, rfl, by simpa using h⟩
  | succ n ih =>
      intro t asked h
      rw [List.replicate_succ, List.cons_append] at h
      obtain ⟨t₁, ht₁, h₁, -⟩ := h.event
      obtain ⟨t', ht', h'⟩ := ih t₁ _ h₁
      refine ⟨t', ?_, ?_⟩
      · rw [Task.probeUntilFlip, ht₁, Option.bind_eq_bind, Option.bind_some]
        exact ht'
      · rwa [List.replicate_succ, List.append_cons]

end Read

/-- The replay of a call that is served `part`: nothing else is asked for, and `P` holds of the
memory. -/
def Replayed (w : Wrapper) (after : Memory) (part : List Service) (P : Memory → Prop) : Prop :=
  ∀ (t : Task) (asked : List ℕ) (ss : List Service), Ready t asked (part ++ ss) →
    ∃ t', w.replay after t = some t' ∧ Ready t' (asked ++ part.map Service.length) ss ∧ P t'.mem

section Wrappers

variable {mem after : Memory}

theorem replay_event (mem : Memory) (buf : ℕ) (peer : ℤ) :
    Replayed (.event buf peer) after [serviceAt mem buf 0] fun _ => True := by
  intro t asked ss h
  obtain ⟨t', ht', h', -⟩ := h.event
  exact ⟨t', by simp [Wrapper.replay, ht'], h', trivial⟩

theorem replay_data {buf logged askedFor : ℕ} {peer : ℤ} {cells : List ℕ}
    (hsame : askedFor = logged) (hin : ∀ a ∈ cells, buf ≤ a ∧ a < buf + logged) :
    Replayed (.data buf logged askedFor peer cells) after [serviceAt mem buf logged]
      fun m => ∀ a ∈ cells, m a = mem a := by
  subst hsame
  intro t asked ss h
  obtain ⟨t', ht', h', hread, -⟩ := h.readAt
  exact ⟨t', by simp [Wrapper.replay, ht'], h', fun a ha => hread a (mem_addresses.mpr (hin a ha))⟩

theorem replay_exchange {sendbuf recvbuf n : ℕ} {dest src : ℤ} {cells : List ℕ}
    (hin : ∀ a ∈ cells, recvbuf ≤ a ∧ a < recvbuf + n) :
    Replayed (.exchange sendbuf dest recvbuf n src cells) after
      [serviceAt mem sendbuf 0, serviceAt mem recvbuf n] fun m => ∀ a ∈ cells, m a = mem a := by
  intro t asked ss h
  obtain ⟨t₁, ht₁, h₁, -⟩ := h.event
  obtain ⟨t', ht', h', hread, -⟩ := h₁.readAt
  refine ⟨t', by simp [Wrapper.replay, ht₁, ht'], by simpa using h', fun a ha => ?_⟩
  exact hread a (mem_addresses.mpr (hin a ha))

theorem replay_isend (mem : Memory) (buf : ℕ) (dest : ℤ) (request : ℕ) :
    Replayed (.isend buf dest request) after [serviceAt mem buf 0] fun _ => True := by
  intro t asked ss h
  obtain ⟨t', ht', h', -⟩ := h.event
  exact ⟨t', by simp [Wrapper.replay, ht'], h', trivial⟩

theorem replay_irecv (mem : Memory) {buf n : ℕ} {src tag comm : ℤ} {request : ℕ}
    {cells : List ℕ} (hin : ∀ a ∈ cells, buf ≤ a ∧ a < buf + n) :
    Replayed (.irecv buf n src tag comm request cells) after [serviceAt mem buf n]
      fun m => ∀ a ∈ cells, m a = mem a := by
  intro t asked ss h
  obtain ⟨t', ht', h', hread, -⟩ := h.readAt
  refine ⟨t', by simp [Wrapper.replay, checkIntraCDMsg, ht'], h', fun a ha => ?_⟩
  exact hread a (mem_addresses.mpr (hin a ha))

theorem replay_test (flag : ℕ) (requests : List ℕ) :
    Replayed (.test flag requests) after (serviceAt mem flag 4 ::
        List.replicate (if intAt mem flag = 1 then requests.length else 0) eventService)
      fun m => ∀ a ∈ addresses flag 4, m a = mem a := by
  intro t asked ss h
  obtain ⟨t₁, ht₁, h₁, hagree, -⟩ := h.readAt
  have hflag := intAt_congr hagree
  by_cases hone : intAt mem flag = 1
  · rw [if_pos hone] at h₁ ⊢
    obtain ⟨t', ht', h', hmem'⟩ := h₁.forEach asksEvent_probe
    refine ⟨t', ?_, ?_, fun a ha => by rw [hmem', hagree a ha]⟩
    · simp only [Wrapper.replay, ht₁, Option.bind_eq_bind, Option.bind_some, hflag, hone, if_true,
        ht']
    · simpa using h'
  · rw [if_neg hone] at h₁ ⊢
    refine ⟨t₁, ?_, h₁, hagree⟩
    simp only [Wrapper.replay, ht₁, Option.bind_eq_bind, Option.bind_some, hflag, hone, if_false]

theorem replay_testany {flag index : ℕ} {requests : ℤ → ℕ} (hone : intAt mem flag = 1) :
    Replayed (.testany flag index requests) after
      [serviceAt mem flag 4, serviceAt mem index 4, eventService]
      fun m => ∀ a ∈ addresses flag 4 ++ addresses index 4, m a = mem a := by
  intro t asked ss h
  obtain ⟨t₁, ht₁, h₁, hagree, -⟩ := h.readAt
  have hflag := (intAt_congr hagree).trans hone
  obtain ⟨t₂, ht₂, h₂, hread₂, hkept₂⟩ := h₁.readAt
  obtain ⟨t', ht', h', hmem'⟩ := h₂.event
  refine ⟨t', ?_, by simpa using h', fun a ha => ?_⟩
  · simp only [Wrapper.replay, ht₁, Option.bind_eq_bind, Option.bind_some, hflag, if_true, ht₂, ht']
  · rw [hmem']
    rcases List.mem_append.mp ha with ha | ha
    · exact hkept₂ a (hagree a ha)
    · exact hread₂ a ha

theorem replay_testsome {outcount indices : ℕ} {requests : ℤ → ℕ}
    (hnone : intAt mem outcount ≤ 0) :
    Replayed (.testsome outcount indices requests) after [serviceAt mem outcount 4]
      fun m => ∀ a ∈ addresses outcount 4, m a = mem a := by
  intro t asked ss h
  obtain ⟨t₁, ht₁, h₁, hagree, -⟩ := h.readAt
  refine ⟨t₁, ?_, h₁, hagree⟩
  simp only [Wrapper.replay, ht₁, Option.bind_eq_bind, Option.bind_some, intAt_congr hagree,
    Int.toNat_of_nonpos hnone, Task.forEach, List.range_zero, List.foldlM_nil]
  rfl

theorem replay_waitall {count : ℤ} {requests : List ℕ} (hpos : 0 < count) :
    Replayed (.waitall count requests) after (List.replicate requests.length eventService)
      fun _ => True := by
  intro t asked ss h
  obtain ⟨t', ht', h'⟩ := Ready.probeUntilFlip requests.length t asked h
  refine ⟨t', ?_, ?_, trivial⟩
  · simp only [Wrapper.replay, if_neg (Int.not_le.mpr hpos), ht', Option.bind_eq_bind,
      Option.bind_some]
  · simpa using h'

theorem replay_waitany (index : ℕ) (requests : ℤ → ℕ) :
    Replayed (.waitany index requests) after [serviceAt mem index 4, eventService]
      fun m => ∀ a ∈ addresses index 4, m a = mem a := by
  intro t asked ss h
  obtain ⟨t₁, ht₁, h₁, hread₁, -⟩ := h.readAt
  obtain ⟨t', ht', h', hmem'⟩ := h₁.event
  refine ⟨t', ?_, by simpa using h', fun a ha => ?_⟩
  · simp only [Wrapper.replay, ht₁, Option.bind_eq_bind, Option.bind_some, ht']
  · rw [hmem', hread₁ a ha]

theorem replay_waitsome {outcount indices : ℕ} {requests : ℤ → ℕ}
    (hcount : 0 ≤ intAt mem outcount) :
    Replayed (.waitsome outcount indices requests) after
      (serviceAt mem outcount 4 :: serviceAt mem indices (indexBytes mem outcount) ::
        List.replicate (intAt mem outcount).toNat eventService)
      fun m => ∀ a ∈ addresses outcount 4 ++
        addresses indices (4 * (intAt mem outcount).toNat), m a = mem a := by
  intro t asked ss h
  obtain ⟨t₁, ht₁, h₁, hagree₁, -⟩ := h.readAt
  have hbytes : indexBytes t₁.mem outcount = indexBytes mem outcount := by
    rw [indexBytes, indexBytes, intAt_congr hagree₁]
  obtain ⟨t₂, ht₂, h₂, hread₂, hkept₂⟩ := h₁.readAt
  have hagree₂ : ∀ a ∈ addresses outcount 4 ++
      addresses indices (4 * (intAt mem outcount).toNat), t₂.mem a = mem a := by
    intro a ha
    rcases List.mem_append.mp ha with ha | ha
    · exact hkept₂ a (hagree₁ a ha)
    · rw [← indexBytes_eq hcount] at ha
      exact hread₂ a ha
  have hcount₂ := intAt_congr fun a ha => hagree₂ a (List.mem_append_left _ ha)
  obtain ⟨t', ht', h', hmem'⟩ := h₂.forEach
    (asksEvent_read fun ii t => requests (intAt t.mem (indices + 4 * ii)))
  refine ⟨t', ?_, ?_, fun a ha => by rw [hmem', hagree₂ a ha]⟩
  · simp only [Wrapper.replay, ht₁, Option.bind_eq_bind, Option.bind_some, hbytes, ht₂, hcount₂,
      ht']
  · simpa using h'

end Wrappers

section Slots

variable {h : Handles} {w : Wrapper} {mem after : Memory}

theorem settleAll_of_done (rest : List Step) : ∀ x : Slot, x.payload ≠ none →
    settleAll h rest x = x := by
  induction rest with
  | nil => intro x _; rfl
  | cons s rest ih =>
      intro x hx
      rw [settleAll, Slot.settle_of_done hx, ih x hx]

theorem settleAll_waiting (rest : List Step) (x : Slot) (hx : x.payload = none)
    (hdone : (settleAll h rest x).payload ≠ none) :
    ∃ m, completion h x.flag rest = some m ∧
      settleAll h rest x = { x with payload := some (bytesAt m x.addr x.length) } := by
  induction rest with
  | nil => exact absurd hx hdone
  | cons s rest ih =>
      rw [settleAll] at hdone ⊢
      by_cases hflag : x.flag ∈ (s.call.wrapper h).completes s.after
      · refine ⟨s.after, ?_, ?_⟩
        · rw [completion, List.find?_cons_of_pos (by simpa using hflag)]
          rfl
        · rw [Slot.settle, if_pos ⟨hx, hflag⟩, settleAll_of_done rest _ (by simp)]
      · rw [Slot.settle, if_neg fun hc => hflag hc.2] at hdone ⊢
        obtain ⟨m, hm, hsettled⟩ := ih hdone
        refine ⟨m, ?_, hsettled⟩
        rw [completion, List.find?_cons_of_neg (by simpa using hflag)]
        exact hm

theorem services_of_logs (rest : List Step)
    (hcomp : ∀ l ∈ w.logs mem, l.args.completed = true) :
    (w.slots mem).map (fun x => (settleAll h rest x).service) =
      (w.logs mem).map (fun l => serviceAt mem l.addr l.length) ++
        List.replicate (w.completes mem).length eventService := by
  rw [Wrapper.slots, List.map_append, List.map_map, List.map_map]
  congr 1
  · refine List.map_congr_left fun l hl => ?_
    have hslot : l.slot mem =
        ⟨l.args.flag, l.addr, l.length, some (bytesAt mem l.addr l.length)⟩ := by
      rw [LogCall.slot, if_pos (hcomp l hl)]
    rw [Function.comp, hslot, settleAll_of_done rest _ (by simp)]
    rfl
  · rw [← List.map_const']
    refine List.map_congr_left fun request _ => ?_
    rw [Function.comp, settleAll_of_done rest _ (by simp [Slot.event])]
    rfl

end Slots

section Sequence

variable {h : Handles} {mem after : Memory}

/-- What a call delivers in the replay, apart from where its results are. -/
def DeliveredBy (h : Handles) (w : Wrapper) (mem : Memory) (rest : List Step) (m : Memory) : Prop :=
  (∀ a ∈ w.results mem, m a = mem a) ∧
    ∀ request cells, w.receiving = some (request, cells) →
      ∃ m', completion h request rest = some m' ∧ ∀ a ∈ cells, m a = m' a

theorem replayed_of_completed {w : Wrapper} {rest : List Step} {part : List Service}
    (hpart : (w.logs mem).map (fun l => serviceAt mem l.addr l.length) ++
      List.replicate (w.completes mem).length eventService = part)
    (hcomp : ∀ l ∈ w.logs mem, l.args.completed = true) (hrecv : w.receiving = none)
    (hw : Replayed w after part fun m => ∀ a ∈ w.results mem, m a = mem a) :
    Replayed w after ((w.slots mem).map fun x => (settleAll h rest x).service)
      (DeliveredBy h w mem rest) := by
  rw [services_of_logs rest hcomp, hpart]
  intro t asked ss hready
  obtain ⟨t', ht', hready', hmem⟩ := hw t asked ss hready
  exact ⟨t', ht', hready', hmem, fun request cells heq => by rw [hrecv] at heq; cases heq⟩

theorem wrapper_replayed (w : Wrapper) (rest : List Step) (hsame : w.SameLength)
    (hrepr : w.Reproducible mem)
    (hdone : ∀ x ∈ w.slots mem, (settleAll h rest x).payload ≠ none) :
    Replayed w after ((w.slots mem).map fun x => (settleAll h rest x).service)
      (DeliveredBy h w mem rest) := by
  cases w with
  | event buf peer =>
      refine replayed_of_completed rfl (by simp [Wrapper.logs]) rfl ?_
      intro t asked ss hready
      obtain ⟨t', ht', hready', -⟩ := replay_event mem buf peer t asked ss hready
      exact ⟨t', ht', hready', by simp [Wrapper.results]⟩
  | data buf logged asked peer cells =>
      exact replayed_of_completed rfl (by simp [Wrapper.logs]) rfl (replay_data hsame hrepr)
  | exchange sendbuf dest recvbuf n src cells =>
      exact replayed_of_completed rfl (by simp [Wrapper.logs]) rfl (replay_exchange hrepr)
  | isend buf dest request =>
      have hslots : (Wrapper.isend buf dest request).slots mem = [⟨request, buf, 0, none⟩] := rfl
      rw [hslots] at hdone ⊢
      obtain ⟨m, -, hsettled⟩ := settleAll_waiting rest _ rfl (hdone _ (List.mem_singleton_self _))
      intro t asked ss hready
      rw [List.map_singleton, hsettled] at hready ⊢
      obtain ⟨t', ht', hready', -⟩ := replay_isend m buf dest request t asked ss hready
      exact ⟨t', ht', hready', by simp [Wrapper.results], fun _ _ heq => by cases heq⟩
  | irecv buf n src tag comm request cells =>
      have hslots : (Wrapper.irecv buf n src tag comm request cells).slots mem =
          [⟨request, buf, n, none⟩] := rfl
      rw [hslots] at hdone ⊢
      obtain ⟨m, hm, hsettled⟩ := settleAll_waiting rest _ rfl (hdone _ (List.mem_singleton_self _))
      intro t asked ss hready
      rw [List.map_singleton, hsettled] at hready ⊢
      obtain ⟨t', ht', hready', hmem⟩ := replay_irecv m hrepr t asked ss hready
      refine ⟨t', ht', hready', by simp [Wrapper.results], fun request' cells' heq => ?_⟩
      cases heq
      exact ⟨m, hm, hmem⟩
  | test flag requests =>
      refine replayed_of_completed ?_ (by simp [Wrapper.logs]) rfl (replay_test flag requests)
      rw [Wrapper.logs, Wrapper.completes]
      split_ifs <;> rfl
  | testany flag index requests =>
      have hone : intAt mem flag = 1 := hrepr
      refine replayed_of_completed ?_ ?_ rfl (replay_testany hone)
      · rw [Wrapper.logs, Wrapper.completes, if_pos hone, if_pos hone]
        rfl
      · rw [Wrapper.logs, if_pos hone]
        simp
  | testsome outcount indices requests =>
      have hnone : intAt mem outcount ≤ 0 := hrepr
      have hzero : (intAt mem outcount).toNat = 0 := Int.toNat_of_nonpos hnone
      have hresults : (Wrapper.testsome outcount indices requests).results mem =
          addresses outcount 4 := by
        rw [Wrapper.results, hzero]
        exact List.append_nil _
      refine replayed_of_completed ?_ (by simp [Wrapper.logs]) rfl
        (hresults ▸ replay_testsome hnone)
      rw [Wrapper.logs, Wrapper.completes, someRequests, hzero]
      rfl
  | wait request => exact hrepr.elim
  | waitall count requests =>
      refine replayed_of_completed rfl (by simp [Wrapper.logs]) rfl ?_
      intro t asked ss hready
      obtain ⟨t', ht', hready', -⟩ := replay_waitall hrepr t asked ss hready
      exact ⟨t', ht', hready', by simp [Wrapper.results]⟩
  | waitany index requests =>
      exact replayed_of_completed rfl (by simp [Wrapper.logs]) rfl (replay_waitany index requests)
  | waitsome outcount indices requests =>
      refine replayed_of_completed ?_ (by simp [Wrapper.logs]) rfl (replay_waitsome hrepr)
      rw [Wrapper.logs, Wrapper.completes, someRequests, List.length_map, List.length_range]
      rfl

theorem run_replayed (steps : List Step) : ∀ (again : List Step) (t : Task) (asked : List ℕ),
    again.map Step.call = steps.map Step.call →
    Ready t asked ((tapeOf h steps).map Slot.service) →
    (∀ s ∈ steps, s.call.HandleSized h ∧ (s.call.wrapper h).Reproducible s.after) →
    (∀ x ∈ tapeOf h steps, x.payload ≠ none) →
    Reproduces h (asked ++ (tapeOf h steps).map Slot.length) steps again t := by
  induction steps with
  | nil =>
      intro again t asked hagain hready _ _
      obtain rfl : again = [] := List.map_eq_nil_iff.mp hagain
      exact ⟨hready.asked.trans (List.append_nil _).symm, hready.at_end, hready.mode⟩
  | cons s rest ih =>
      intro again t asked hagain hready hrepr hdone
      cases again with
      | nil => cases hagain
      | cons r again =>
          rw [List.map_cons, List.map_cons, List.cons.injEq] at hagain
          rw [tapeOf, List.map_append, List.map_map] at hready
          obtain ⟨t', ht', hready', hres, hrecv⟩ := wrapper_replayed (s.call.wrapper h) rest
            (sameLength_of_handleSized (hrepr s List.mem_cons_self).1)
            (hrepr s List.mem_cons_self).2
            (fun x hx => hdone _ (List.mem_append_left _ (List.mem_map_of_mem hx)))
            { t with mem := r.before } asked _
            ⟨hready.replaying, hready.pending, hready.mode, hready.asked⟩
          have hrest := ih again t' _ hagain.2 hready'
            (fun x hx => hrepr x (List.mem_cons_of_mem _ hx))
            fun x hx => hdone x (List.mem_append_right _ hx)
          refine ⟨t', ?_, ⟨hres, hrecv⟩, ?_⟩
          · rw [step, hready.mode, hagain.1]
            exact ht'
          · rw [tapeOf, List.map_append, List.map_map, ← List.append_assoc]
            rwa [List.map_map] at hrest

theorem entryLengths_eq (c : CommLog) : entryLengths c = (contents c).map Record.length := by
  rw [entryLengths, contents, contentsOf, List.map_flatMap]
  simp only [List.map_replicate, recordOf]

end Sequence

theorem blank_recorded {c : CommLog} (h : Blank c) (hnone : c.myCd.incompleteLog = []) :
    Recorded c [] := by
  have hent : c.logTable.entries = [] := by rw [LogTable.entries, h.empty, List.take_zero]
  refine ⟨⟨⟨h.toValid, ?_, ?_⟩, h.mode, ?_, ?_⟩, ?_, ?_, ?_⟩
  · rw [hent]
    exact fun _ he => absurd he List.not_mem_nil
  · rw [hent]
    exact fun _ he => absurd he List.not_mem_nil
  · rw [contents, hent]
    rfl
  · rw [hent]
    exact List.Pairwise.nil
  · rw [hnone]
    rfl
  · rw [hnone]
    exact List.nodup_nil
  · rw [hnone]
    exact fun _ hr => absurd hr List.not_mem_nil

theorem symmetric_of_recorded {h : Handles} {t : Task} {steps : List Step}
    (hrec : Recorded t.log (tapeOf h steps))
    (hrepr : ∀ s ∈ steps, s.call.HandleSized h ∧ (s.call.wrapper h).Reproducible s.after)
    (hnone : t.log.myCd.incompleteLog = []) : Symmetric h steps t := by
  have hdone : ∀ x ∈ tapeOf h steps, x.payload ≠ none := by
    intro x hx hpay
    have hwait : x ∈ (tapeOf h steps).filter fun s => s.payload.isNone :=
      List.mem_filter.mpr ⟨hx, by rw [hpay]; rfl⟩
    rw [← hrec.notes, hnone] at hwait
    cases hwait
  have hdone' : ∀ r ∈ contents t.log, r.payload.isSome := by
    intro r hr
    rw [hrec.contents] at hr
    obtain ⟨x, hx, rfl⟩ := List.mem_map.mp hr
    exact Option.isSome_iff_ne_none.mpr (hdone x hx)
  obtain ⟨hreplayable, hpend⟩ := services_of_contents hrec.toCounted hdone'
  intro again hagain
  have hlen : entryLengths t.log = [] ++ (tapeOf h steps).map Slot.length := by
    rw [entryLengths_eq, hrec.contents, List.map_map]
    rfl
  rw [hlen]
  refine run_replayed steps again _ [] hagain
    ⟨reInit_replaying hreplayable, ?_, rfl, rfl⟩ hrepr hdone
  rw [hpend, hrec.contents, List.map_map]
  rfl

/-- A domain that starts with an empty log replays the calls it has recorded, when all requests
have been completed: every call is admissible, so that it is logged with the lengths it asks for,
and what it delivers is in the log. -/
theorem replay_symmetric {h : Handles} {t : Task} {steps : List Step} (hblank : Blank t.log)
    (hnone : t.log.myCd.incompleteLog = [])
    (hadm : Attempted (step h) (Admissible h) t steps) :
    ∃ t', run (step h) t steps = some t' ∧
      (t'.log.myCd.incompleteLog = [] → Symmetric h steps t') := by
  obtain ⟨t', hrun, hrec, hrepr⟩ := run_recorded steps t [] (blank_recorded hblank hnone) hadm
  exact ⟨t', hrun, symmetric_of_recorded hrec hrepr⟩

/-- `MPI_INT` -/
def intType : Datatype := .contiguous 4

/-- A domain that has just begun. -/
def begun : Task := ⟨create default .generateLog 8 2 8, [], fun _ => 0, []⟩

/-- A receive that is polled twice and then waited for, and an `MPI_Allgather` of a type that is as
large as its handle. -/
def polledReceive : List Step :=
  [⟨.irecv 100 1 intType 1 0 0 1000, fun _ => 0, fun _ => 0⟩,
    ⟨.test 1000 40, fun _ => 0, fun _ => 0⟩,
    ⟨.test 1000 40, fun _ => 0, fun _ => 0⟩,
    ⟨.waitall 1 1000, fun _ => 0, fun a => if a = 100 then 7 else 0⟩,
    ⟨.allgather 200 1 intType ⟨0, 2⟩, fun _ => 0, fun a => UInt8.ofNat a⟩]

theorem polled_receive_replayed : ∃ t', run (step ⟨4, 4⟩) begun polledReceive = some t' ∧
    (t'.log.myCd.incompleteLog = [] → Symmetric ⟨4, 4⟩ polledReceive t') :=
  replay_symmetric (create_blank default 8 8 (by decide)) rfl (by decide)

/-- `MPI_Allgather` of two tasks, of one element of four bytes. -/
def gatherTwo : Step := ⟨.allgather 200 1 intType ⟨0, 2⟩, fun _ => 0, fun _ => 0⟩

theorem allgather_not_replayed : ∃ t', run (step ⟨8, 8⟩) begun [gatherTwo] = some t' ∧
    t'.log.myCd.incompleteLog = [] ∧ ¬ Symmetric ⟨8, 8⟩ [gatherTwo] t' := by
  obtain ⟨t', hrun⟩ : ∃ t', run (step ⟨8, 8⟩) begun [gatherTwo] = some t' :=
    Option.isSome_iff_exists.mp (by decide)
  have hnotes : (run (step ⟨8, 8⟩) begun [gatherTwo]).map (fun t => t.log.myCd.incompleteLog) =
      some [] := by decide
  have hstops : ((run (step ⟨8, 8⟩) begun [gatherTwo]).bind fun t =>
      step ⟨8, 8⟩ { t with log := reInit t.log, asked := [] } gatherTwo).isNone := by decide
  rw [hrun] at hnotes hstops
  refine ⟨t', hrun, Option.some.inj hnotes, fun hsym => ?_⟩
  obtain ⟨t'', hstep, -⟩ := hsym [gatherTwo] rfl
  rw [Option.bind_some, hstep] at hstops
  exact absurd hstops (by simp)

end CDRuntime.Mpi
