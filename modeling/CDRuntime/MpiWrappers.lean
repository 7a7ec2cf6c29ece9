import CDRuntime.PendingRequests

namespace CDRuntime.Mpi
open CommLog Pending

/-- A call of the MPI library comes with the memory of the task as the library leaves it. -/
abbrev Memory := ℕ → UInt8

def int (n : ℤ) : ℤ := (Int32.ofInt n).toInt

def uint64 (n : ℤ) : ℕ := (n % 2 ^ 64).toNat

def taskID (rank : ℤ) : ℕ := (rank % 2 ^ 32).toNat

def intAt (mem : Memory) (addr : ℕ) : ℤ := (Layout.int32.dec (bytesAt mem addr 4)).toInt

def put (mem : Memory) (addr : ℕ) (bytes : List UInt8) : Memory := fun a =>
  if a < addr then mem a else (bytes[a - addr]?).getD (mem a)

/-- The sizes of the two handle types, which each MPI implementation chooses. -/
structure Handles where
  datatype : ℕ
  request : ℕ

/-- What `PMPI_Comm_rank` and `PMPI_Comm_size` say. -/
structure Comm where
  rank : ℤ
  size : ℤ

/-- The type map of a datatype: where the bytes of one element are, and how far apart two
elements are. -/
structure Datatype where
  offsets : List ℤ
  extent : ℤ

/-- `PMPI_Type_size` -/
def Datatype.size (t : Datatype) : ℤ := t.offsets.length

/-- The addresses of `n` elements, the first at displacement `displ`. -/
def Datatype.cells (t : Datatype) (buf : ℕ) (displ n : ℤ) : List ℕ :=
  (List.range n.toNat).flatMap fun (i : ℕ) => t.offsets.map fun d =>
    (buf + (displ + i) * t.extent + d).toNat

/-- The addresses of the elements that come from the tasks of a communicator. -/
def Datatype.cellsFrom (t : Datatype) (buf : ℕ) (comm : Comm) (counts displs : ℕ → ℤ) : List ℕ :=
  (List.range comm.size.toNat).flatMap fun r => t.cells buf (displs r) (counts r)

/-- `count*type_size` -/
def bytesOf (count typeSize : ℤ) : ℕ := uint64 (int (count * typeSize))

/-- `size*recvcnt*type_size` -/
def bytesOfAll (size recvcnt typeSize : ℤ) : ℕ := uint64 (int (int (size * recvcnt) * typeSize))

/-- `size*recvcnt*sizeof(recvtype)` -/
def handlesOfAll (size recvcnt : ℤ) (h : Handles) : ℕ :=
  uint64 (int (size * recvcnt) * h.datatype)

/-- `totalcnts`: the sum of the counts, or the end of the last piece if that is more. A `long` has
room for a sum of counts. -/
def totalcnts (size : ℤ) (recvcnts displs : ℕ → ℤ) : ℤ :=
  let ranks := List.range size.toNat
  let sum := ranks.foldl (fun total i => total + recvcnts i) 0
  ranks.foldl (fun total i =>
    if total < int (displs i + recvcnts i) then int (displs i + recvcnts i) else total) sum

/-- A wrapped call, with the arguments that the log depends on. -/
inductive Call where
  | send (buf : ℕ) (dest : ℤ)
  | ssend (buf : ℕ) (dest : ℤ)
  | rsend (buf : ℕ) (dest : ℤ)
  | bsend (buf : ℕ) (dest : ℤ)
  | recv (buf : ℕ) (count : ℤ) (datatype : Datatype) (src : ℤ)
  | sendrecv (sendbuf : ℕ) (dest : ℤ) (recvbuf : ℕ) (recvcount : ℤ) (recvtype : Datatype) (src : ℤ)
  | sendrecvReplace (buf : ℕ) (count : ℤ) (datatype : Datatype) (dest src : ℤ)
  | isend (buf : ℕ) (dest : ℤ) (request : ℕ)
  | irecv (buf : ℕ) (count : ℤ) (datatype : Datatype) (src tag comm : ℤ) (request : ℕ)
  | test (request flag : ℕ)
  | testall (count : ℤ) (arrayOfRequests flag : ℕ)
  | testany (arrayOfRequests index flag : ℕ)
  | testsome (arrayOfRequests outcount arrayOfIndices : ℕ)
  | wait (request : ℕ)
  | waitall (count : ℤ) (arrayOfRequests : ℕ)
  | waitany (arrayOfRequests index : ℕ)
  | waitsome (arrayOfRequests outcount arrayOfIndices : ℕ)
  | barrier (commAddr : ℕ) (comm : Comm)
  | bcast (buffer : ℕ) (count : ℤ) (datatype : Datatype) (root : ℤ)
  | gather (sendbuf recvbuf : ℕ) (recvcnt : ℤ) (recvtype : Datatype) (root : ℤ) (comm : Comm)
  | gatherv (sendbuf recvbuf : ℕ) (recvcnts displs : ℕ → ℤ) (recvtype : Datatype) (root : ℤ)
      (comm : Comm)
  | allgather (recvbuf : ℕ) (recvcnt : ℤ) (recvtype : Datatype) (comm : Comm)
  | allgatherv (recvbuf : ℕ) (recvcnts displs : ℕ → ℤ) (recvtype : Datatype) (comm : Comm)
  | reduce (sendbuf recvbuf : ℕ) (count : ℤ) (datatype : Datatype) (root : ℤ) (comm : Comm)
  | allreduce (recvbuf : ℕ) (count : ℤ) (datatype : Datatype) (comm : Comm)
  | alltoall (recvbuf : ℕ) (recvcnt : ℤ) (recvtype : Datatype) (comm : Comm)
  | alltoallv (recvbuf : ℕ) (recvcnts rdispls : ℕ → ℤ) (recvtype : Datatype) (comm : Comm)
  | scatter (recvbuf : ℕ) (recvcnt : ℤ) (recvtype : Datatype) (root : ℤ)
  | scatterv (recvbuf : ℕ) (recvcnt : ℤ) (recvtype : Datatype) (root : ℤ)
  | reduceScatter (recvbuf : ℕ) (recvcnts : ℕ → ℤ) (datatype : Datatype) (comm : Comm)
  | scan (recvbuf : ℕ) (count : ℤ) (datatype : Datatype) (comm : Comm)

/-- The wrappers up to the values they work with. `cells` are the addresses that the library fills,
`requests i` is the address of the request with index `i`. -/
inductive Wrapper where
  /-- Nothing is received: the event is logged. -/
  | event (buf : ℕ) (peer : ℤ)
  /-- `logged` bytes are logged, and `asked` bytes are asked for. -/
  | data (buf logged asked : ℕ) (peer : ℤ) (cells : List ℕ)
  /-- An event and then `n` bytes. -/
  | exchange (sendbuf : ℕ) (dest : ℤ) (recvbuf n : ℕ) (src : ℤ) (cells : List ℕ)
  | isend (buf : ℕ) (dest : ℤ) (request : ℕ)
  | irecv (buf n : ℕ) (src tag comm : ℤ) (request : ℕ) (cells : List ℕ)
  /-- `MPI_Test` and `MPI_Testall` -/
  | test (flag : ℕ) (requests : List ℕ)
  | testany (flag index : ℕ) (requests : ℤ → ℕ)
  | testsome (outcount indices : ℕ) (requests : ℤ → ℕ)
  | wait (request : ℕ)
  | waitall (count : ℤ) (requests : List ℕ)
  | waitany (index : ℕ) (requests : ℤ → ℕ)
  | waitsome (outcount indices : ℕ) (requests : ℤ → ℕ)

/-- `&array_of_requests[i]` -/
def requestAt (h : Handles) (arrayOfRequests : ℕ) (i : ℤ) : ℕ :=
  uint64 (arrayOfRequests + i * h.request)

def requestsOf (h : Handles) (count : ℤ) (arrayOfRequests : ℕ) : List ℕ :=
  (List.range count.toNat).map fun (i : ℕ) => requestAt h arrayOfRequests i

def Call.wrapper (h : Handles) : Call → Wrapper
  | send buf dest | ssend buf dest | rsend buf dest | bsend buf dest => .event buf dest
  | recv buf count t src =>
      .data buf (bytesOf count t.size) (bytesOf count t.size) src (t.cells buf 0 count)
  | sendrecv sendbuf dest recvbuf recvcount t src =>
      .exchange sendbuf dest recvbuf (bytesOf recvcount t.size) src (t.cells recvbuf 0 recvcount)
  | sendrecvReplace buf count t dest src =>
      .exchange buf dest buf (bytesOf count t.size) src (t.cells buf 0 count)
  | isend buf dest request => .isend buf dest request
  | irecv buf count t src tag comm request =>
      .irecv buf (bytesOf count t.size) src tag comm request (t.cells buf 0 count)
  | test request flag => .test flag [request]
  | testall count requests flag => .test flag (requestsOf h count requests)
  | testany requests index flag => .testany flag index (requestAt h requests)
  | testsome requests outcount indices => .testsome outcount indices (requestAt h requests)
  | wait request => .wait request
  | waitall count requests => .waitall count (requestsOf h count requests)
  | waitany requests index => .waitany index (requestAt h requests)
  | waitsome requests outcount indices => .waitsome outcount indices (requestAt h requests)
  | barrier commAddr comm => .event commAddr comm.rank
  | bcast buffer count t root =>
      .data buffer (bytesOf count t.size) (bytesOf count t.size) root (t.cells buffer 0 count)
  | gather sendbuf recvbuf recvcnt t root comm =>
      if comm.rank = root then
        .data recvbuf (bytesOfAll comm.size recvcnt t.size) (bytesOfAll comm.size recvcnt t.size)
          root (t.cells recvbuf 0 (comm.size * recvcnt))
      else .event sendbuf root
  | gatherv sendbuf recvbuf recvcnts displs t root comm =>
      if comm.rank = root then
        .data recvbuf (uint64 (totalcnts comm.size recvcnts displs * t.size))
          (uint64 (totalcnts comm.size recvcnts displs * t.size)) root
          (t.cellsFrom recvbuf comm recvcnts displs)
      else .event sendbuf root
  | allgather recvbuf recvcnt t comm =>
      .data recvbuf (bytesOfAll comm.size recvcnt t.size) (handlesOfAll comm.size recvcnt h)
        comm.rank (t.cells recvbuf 0 (comm.size * recvcnt))
  | allgatherv recvbuf recvcnts displs t comm =>
      .data recvbuf (uint64 (totalcnts comm.size recvcnts displs * t.size))
        (uint64 (totalcnts comm.size recvcnts displs * t.size)) comm.rank
        (t.cellsFrom recvbuf comm recvcnts displs)
  | reduce sendbuf recvbuf count t root comm =>
      if comm.rank = root then
        .data recvbuf (bytesOf count t.size) (bytesOf count t.size) root (t.cells recvbuf 0 count)
      else .event sendbuf root
  | allreduce recvbuf count t comm =>
      .data recvbuf (bytesOf count t.size) (bytesOf count t.size) comm.rank
        (t.cells recvbuf 0 count)
  | alltoall recvbuf recvcnt t comm =>
      .data recvbuf (bytesOfAll comm.size recvcnt t.size) (bytesOfAll comm.size recvcnt t.size)
        comm.rank (t.cells recvbuf 0 (comm.size * recvcnt))
  | alltoallv recvbuf recvcnts rdispls t comm =>
      .data recvbuf (uint64 (totalcnts comm.size recvcnts rdispls * t.size))
        (uint64 (totalcnts comm.size recvcnts rdispls * t.size)) comm.rank
        (t.cellsFrom recvbuf comm recvcnts rdispls)
  | scatter recvbuf recvcnt t root | scatterv recvbuf recvcnt t root =>
      .data recvbuf (bytesOf recvcnt t.size) (bytesOf recvcnt t.size) root
        (t.cells recvbuf 0 recvcnt)
  | reduceScatter recvbuf recvcnts t comm =>
      let n := recvcnts comm.rank.toNat
      .data recvbuf (bytesOf n t.size) (bytesOf n t.size) comm.rank (t.cells recvbuf 0 n)
  | scan recvbuf count t comm =>
      .data recvbuf (bytesOf count t.size) (bytesOf count t.size) comm.rank
        (t.cells recvbuf 0 count)

/-- A task in a relaxed domain: the log of the domain, the domains above it, the memory of the
application, and the lengths that have been asked for with `ReadData` and `ProbeData`. -/
structure Task where
  log : CommLog
  parents : List Domain
  mem : Memory
  asked : List ℕ

/-- A call of `LogData` that a wrapper makes. -/
structure LogCall where
  addr : ℕ
  length : ℕ
  args : LogArgs

namespace Task

/-- `CD::LogData`. There is no room for an entry of `2 ^ 63` bytes, which is what a negative
length asks for. -/
def logData (t : Task) (l : LogCall) : Option Task :=
  if l.length < 2 ^ 63 then
    (CommLog.logData t.log l.addr (bytesAt t.mem l.addr l.length) l.args).map fun r =>
      { t with log := r.2 }
  else none

def probeAndLogData (t : Task) (request : ℕ) : Option Task :=
  match Pending.probeAndLogData t.mem request (.relaxed t.log :: t.parents) with
  | some (.relaxed log :: parents) => some { t with log, parents }
  | _ => none

def deleteIncompleteLog (t : Task) (request : ℕ) : Task :=
  { t with log := { t.log with myCd := { t.log.myCd with
      incompleteLog := t.log.myCd.incompleteLog.eraseP fun r => r.flag == request } } }

def readData (t : Task) (addr length : ℕ) : Option (CommLogErrT × Task) :=
  (CommLog.readData t.log length).map fun r =>
    (r.1, { t with log := r.2.2, mem := put t.mem addr r.2.1, asked := t.asked ++ [length] })

def probeData (t : Task) (length : ℕ) : Option (CommLogErrT × Task) :=
  (CommLog.probeData t.log length).map fun r =>
    (r.1, { t with log := r.2.2, asked := t.asked ++ [length] })

/-- `for (ii=0;ii<n;ii++)` around a call whose answer is not looked at. -/
def forEach (t : Task) (n : ℕ) (call : ℕ → Task → Option (CommLogErrT × Task)) : Option Task :=
  (List.range n).foldlM (fun t ii => (call ii t).map Prod.snd) t

/-- The loop of `MPI_Waitall` over the requests, with the last answer. -/
def probeUntilFlip : ℕ → CommLogErrT → Task → Option (CommLogErrT × Task)
  | 0, ret, t => some (ret, t)
  | n + 1, _, t => do
      let (ret, t) ← t.probeData 0
      if ret = .commLogModeFlip then some (ret, t) else probeUntilFlip n ret t

end Task

/-- `array_of_requests[array_of_indices[i]]` for the first `outcount` indices. -/
def someRequests (mem : Memory) (outcount indices : ℕ) (requests : ℤ → ℕ) : List ℕ :=
  (List.range (intAt mem outcount).toNat).map fun i => requests (intAt mem (indices + 4 * i))

/-- The requests that a call completes, when the library leaves `mem`. -/
def Wrapper.completes (mem : Memory) : Wrapper → List ℕ
  | event .. | data .. | exchange .. | isend .. | irecv .. => []
  | test flag requests => if intAt mem flag = 1 then requests else []
  | testany flag index requests => if intAt mem flag = 1 then [requests (intAt mem index)] else []
  | testsome outcount indices requests => someRequests mem outcount indices requests
  | wait request => [request]
  | waitall _ requests => requests
  | waitany index requests => [requests (intAt mem index)]
  | waitsome outcount indices requests => someRequests mem outcount indices requests

/-- `CD::CheckIntraCDMsg`. The comparison of the groups stands behind a `return false`. -/
def checkIntraCDMsg (_targetId : ℤ) : Bool := false

/-- `*outcount*sizeof(int)` -/
def indexBytes (mem : Memory) (outcount : ℕ) : ℕ := uint64 (intAt mem outcount * 4)

/-- The calls of `LogData` that come before the requests are completed. -/
def Wrapper.logs (mem : Memory) : Wrapper → List LogCall
  | event buf peer => [⟨buf, 0, { taskID := taskID peer }⟩]
  | data buf logged _ peer _ => [⟨buf, logged, { taskID := taskID peer }⟩]
  | exchange sendbuf dest recvbuf n src _ =>
      [⟨sendbuf, 0, { taskID := taskID dest }⟩, ⟨recvbuf, n, { taskID := taskID src }⟩]
  | isend buf dest request =>
      [⟨buf, 0, { taskID := taskID dest, completed := false, flag := request
                  intraCdMsg := checkIntraCDMsg dest }⟩]
  | irecv buf n src tag comm request _ =>
      [⟨buf, if checkIntraCDMsg src then 0 else n,
        { taskID := taskID src, completed := false, flag := request, isrecv := true
          intraCdMsg := checkIntraCDMsg src, tag, comm }⟩]
  | test flag _ => [⟨flag, 4, { isrepeated := intAt mem flag ≠ 1 }⟩]
  | testany flag index _ =>
      if intAt mem flag = 1 then [⟨flag, 4, {}⟩, ⟨index, 4, {}⟩]
      else [⟨flag, 4, { isrepeated := true }⟩]
  | testsome outcount _ _ => [⟨outcount, 4, { isrepeated := ¬ 0 < intAt mem outcount }⟩]
  | wait _ | waitall .. => []
  | waitany index _ => [⟨index, 4, {}⟩]
  | waitsome outcount indices _ =>
      [⟨outcount, 4, {}⟩, ⟨indices, indexBytes mem outcount, {}⟩]

/-- After the call of the library the wrapper logs, and then completes the requests. -/
def Wrapper.recordCall (w : Wrapper) (t : Task) : Option Task := do
  let t' ← (w.logs t.mem).foldlM Task.logData t
  (w.completes t.mem).foldlM Task.probeAndLogData t'

def Wrapper.record (w : Wrapper) (t : Task) : Option Task :=
  match w with
  -- `BlockUntilValid` waits for the request and deletes its note
  | wait request => w.recordCall (t.deleteIncompleteLog request)
  | waitall count _ => if 0 < count then w.recordCall t else none
  | _ => w.recordCall t

/-- The end of the log is reached: the call is made and logged. -/
def Wrapper.resume (w : Wrapper) (after : Memory) (t : Task) : Option Task :=
  w.recordCall { t with mem := after }

def Wrapper.replay (w : Wrapper) (after : Memory) (t : Task) : Option Task :=
  match w with
  | event _ _ => do
      let (ret, t) ← t.probeData 0
      if ret = .commLogModeFlip then w.resume after t else some t
  | data buf _ asked _ _ => do
      let (ret, t) ← t.readData buf asked
      if ret = .commLogModeFlip then w.resume after t else some t
  | exchange _ _ recvbuf n _ _ => do
      let (ret, t) ← t.probeData 0
      match ret with
      | .commLogModeFlip => w.resume after t
      | .ok =>
          let (ret, t) ← t.readData recvbuf n
          if ret = .ok then some t else none
      | _ => some t
  | isend _ _ _ => do
      let (ret, t) ← t.probeData 0
      match ret with
      | .commLogModeFlip => w.resume after t
      | .error => none
      | _ => some t
  | irecv buf n src _ _ _ _ => do
      let (ret, t) ← t.readData buf (if checkIntraCDMsg src then 0 else n)
      match ret with
      | .commLogModeFlip => w.resume after t
      | .error => none
      | _ => some t
  | test flag requests => do
      let (ret, t) ← t.readData flag 4
      match ret with
      | .ok =>
          if intAt t.mem flag = 1 then
            t.forEach requests.length fun _ t => t.probeData 0
          else some t
      | .commLogModeFlip => w.resume after t
      | .error => none
      | _ => some t
  | testany flag index _ => do
      let (ret, t) ← t.readData flag 4
      match ret with
      | .ok =>
          if intAt t.mem flag = 1 then
            let (_, t) ← t.readData index 4
            let (_, t) ← t.probeData 0
            some t
          else some t
      | .commLogModeFlip => w.resume after t
      | .error => none
      | _ => some t
  | testsome outcount _ _ => do
      let (ret, t) ← t.readData outcount 4
      match ret with
      | .ok => t.forEach (intAt t.mem outcount).toNat fun _ t => t.probeData 0
      | .commLogModeFlip => w.resume after t
      | .error => none
      | _ => some t
  | wait _ => do
      let (ret, t) ← t.probeData 0
      match ret with
      | .commLogModeFlip => w.resume after t
      | .error => none
      | _ => some t
  | waitall count requests => if count ≤ 0 then none else do
      let (ret, t) ← t.probeUntilFlip requests.length .ok
      match ret with
      | .commLogModeFlip => w.resume after t
      | .error => none
      | _ => some t
  | waitany index _ => do
      let (ret, t) ← t.readData index 4
      match ret with
      | .ok =>
          let (_, t) ← t.probeData 0
          some t
      | .commLogModeFlip => w.resume after t
      | .error => none
      | _ => some t
  | waitsome outcount indices requests => do
      let (ret, t) ← t.readData outcount 4
      match ret with
      | .ok =>
          let (_, t) ← t.readData indices (indexBytes t.mem outcount)
          t.forEach (intAt t.mem outcount).toNat fun ii t =>
            t.readData (requests (intAt t.mem (indices + 4 * ii))) 0
      | .commLogModeFlip => w.resume after t
      | .error => none
      | _ => some t

/-- A call, the memory the application makes it with, and the memory the library would leave. -/
structure Step where
  call : Call
  before : Memory
  after : Memory

def step (h : Handles) (t : Task) (s : Step) : Option Task :=
  match t.log.commLogMode with
  | .generateLog => (s.call.wrapper h).record { t with mem := s.after }
  | .replayLog => (s.call.wrapper h).replay s.after { t with mem := s.before }
  | .invalidLogMode => none

end CDRuntime.Mpi
