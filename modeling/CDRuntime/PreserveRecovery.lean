import CDRuntime.PreserveRestore

namespace CDRuntime.Preserve
open Cells Packer TableStore RemoteEntries

section Sessions

variable (hash : String → UInt64) (outer : Outer) (base a : ℕ)

/-- The memory after a restoring call: its own data as it was preserved, or what the name it
refers to stands for. -/
def delivered (log : Log) (y : Call × Cells UInt8) (mem : Cells UInt8) : Option (Cells UInt8) :=
  if y.1.copy then some (y.1.give y.2 mem)
  else
    match (log.own (y.1.searchTag hash)).bind Item.mem? with
    | some old => some (y.1.give old mem)
    | none => outer.give (y.1.searchTag hash) y.1 mem

/-- The events of an execution from position `p` on, when the calls `done` were completed in
earlier executions: their positions are restored, all others preserved. -/
def Follows (done : List (Call × Cells UInt8)) :
    ℕ → List (Call × Cells UInt8) → List Event → Prop
  | _, [], [] => True
  | p, x :: xs, e :: es =>
      (match done[p]? with
        | some y => ∃ mem', delivered hash outer (logOf hash outer base done) y x.2 = some mem' ∧
            e = .restored x.2 mem'
        | none => e = .preserved) ∧ Follows done (p + 1) xs es
  | _, _, _ => False

/-- The completed calls after one more execution. -/
def progress (done xs : List (Call × Cells UInt8)) : List (Call × Cells UInt8) :=
  done ++ xs.drop done.length

def FollowsAll (done : List (Call × Cells UInt8)) :
    List (List (Call × Cells UInt8)) → List (List Event) → Prop
  | [], [] => True
  | xs :: xss, es :: ess =>
      Follows hash outer base done 0 xs es ∧ FollowsAll (progress done xs) xss ess
  | _, _ => False

/-- The body makes these calls in every execution. -/
structure WellFormed (calls : List Call) : Prop where
  fits : ∀ c ∈ calls, c.Fits
  distinct : (calls.map (Call.id hash)).Nodup
  apart : ∀ c ∈ calls, ∀ c' ∈ calls, ∀ m ∈ c'.members, m.id ≠ c.id hash
  count : calls.length < 2 ^ 64

/-- A completed call that can be restored: its pointer into the table, if it follows one, is live,
a copy is looked for under its own name, and a reference leads to data of its kind. -/
def Resolves (log : Log) (y : Call × Cells UInt8) : Prop :=
  log.Live a (y.1.searchTag hash) ∧
    if y.1.copy then
      y.1.searchTag hash = y.1.id hash ∧ (y.1.serdes → log.Fresh y.1.members y.2)
    else
      match log.own (y.1.searchTag hash) with
      | some it => log.Suits y.1 it
      | none => outer.Has (y.1.searchTag hash) y.1

/-- Every call of an execution finds what it needs in the directory at its time. -/
def Executes : List (Call × Cells UInt8) → ℕ → List (Call × Cells UInt8) → Prop
  | _, _, [] => True
  | done, p, x :: xs =>
      match done[p]? with
      | some y => Resolves hash outer a (logOf hash outer base done) y ∧ Executes done (p + 1) xs
      | none => Preservable hash a (logOf hash outer base done) x.1 ∧
          Executes (done ++ [x]) (p + 1) xs

/-- The condition on a session: besides, no failure strikes before a call was completed, and the
directory of every failure can be read. -/
def Sound (last : List (Call × Cells UInt8)) :
    List (Call × Cells UInt8) → List (List (Call × Cells UInt8)) → Prop
  | done, [] => Executes hash outer base a done 0 last
  | done, xs :: xss =>
      Executes hash outer base a done 0 xs ∧ progress done xs ≠ [] ∧
        (logOf hash outer base (progress done xs)).Readable ∧ Sound last (progress done xs) xss

/-- The directory holds the completed calls, as a run without failures leaves it. -/
structure At (cd₀ cd : CD) (done : List (Call × Cells UInt8)) : Prop where
  books : Books base a cd (logOf hash outer base done)
  count : cd.preserveCount = done.length
  small : cd.mode = .reexecution → (logOf hash outer base done).items.length < 2 ^ 32
  built : ∃ es, body hash outer cd₀ done =
    .ok ({ cd with mode := .execution, restoreCount := 0 }, es)

/-- The counters before the call at position `p`. -/
def Position (cd : CD) (done : List (Call × Cells UInt8)) (p : ℕ) : Prop :=
  if p < done.length then cd.mode = .reexecution ∧ cd.restoreCount = p
  else cd.mode = .execution ∧ cd.restoreCount = 0

/-- The session from `cd` on, when `done` was completed before, ends as a failure-free run from
`cd₀` does. -/
def Disciplined (cd₀ cd : CD) (last done : List (Call × Cells UInt8))
    (attempts : List (List (Call × Cells UInt8))) : Prop :=
  ∃ cd' ess, session hash outer cd last attempts = .ok (cd', ess) ∧
    FollowsAll hash outer base done (attempts ++ [last]) ess ∧
    cd'.preserveCount = last.length ∧ cd'.restoreCount = 0 ∧ cd'.mode = .execution ∧
    ∃ es, body hash outer cd₀ ((attempts ++ [last]).foldl progress done) = .ok (cd', es)

variable {hash outer base a}

variable (outer base) in
theorem own_done {calls : List Call} (hwf : WellFormed hash calls)
    {pre : List (Call × Cells UInt8)} {y : Call × Cells UInt8} (hcopy : y.1.copy)
    (post : List (Call × Cells UInt8)) : (pre ++ y :: post).map Prod.fst <+: calls →
    ∃ old, (logOf hash outer base (pre ++ y :: post)).own (y.1.id hash) =
      some (y.1.whole base y.2 (y.1.id hash) old) := by
  induction post using List.reverseRecOn with
  | nil =>
      intro hdone
      have hnodup := hwf.distinct.sublist (hdone.sublist.map (Call.id hash))
      rw [List.map_map, List.map_append, List.nodup_append] at hnodup
      have hnone : (logOf hash outer base pre).shared (y.1.id hash) = none := by
        apply shared_none
        intro z hz heq
        exact hnodup.2.2 _ (List.mem_map_of_mem hz) _ List.mem_cons_self heq
      rw [logOf_snoc]
      exact own_copied hcopy hnone
  | append_singleton post z ih =>
      intro hdone
      rw [← List.cons_append, ← List.append_assoc] at hdone ⊢
      have hprefix : (pre ++ y :: post).map Prod.fst <+: calls :=
        List.IsPrefix.trans ⟨[z.1], by simp⟩ hdone
      obtain ⟨old, hown⟩ := ih hprefix
      have hnodup := hwf.distinct.sublist (hdone.sublist.map (Call.id hash))
      rw [List.map_map, List.map_append, List.nodup_append] at hnodup
      have hne : z.1.id hash ≠ y.1.id hash := by
        intro heq
        refine hnodup.2.2 (y.1.id hash) ?_ (z.1.id hash) List.mem_cons_self heq.symm
        exact List.mem_map.mpr ⟨y, List.mem_append_right _ List.mem_cons_self, rfl⟩
      have hmem : ∀ w ∈ pre ++ y :: post ++ [z], w.1 ∈ calls :=
        fun w hw => hdone.subset (List.mem_map_of_mem hw)
      refine ⟨old, ?_⟩
      rw [logOf_snoc]
      apply own_stable hne _ hown
      intro m hm
      exact hwf.apart y.1 (hmem y (by simp)) z.1 (hmem z (by simp)) m hm

/-- The CD begins with an empty directory. -/
structure Begins (cd : CD) : Prop where
  dir : Initial cd.dir
  remote : ∀ tag, cd.remote tag = none
  preserveCount : cd.preserveCount = 0
  restoreCount : cd.restoreCount = 0
  mode : cd.mode = .execution

theorem Begins.at {cd : CD} (h : Begins cd) :
    At hash outer cd.dir.data.writtenLen cd.dir.table.growUnit cd cd [] := by
  obtain ⟨alloc, hpos, htable⟩ := h.dir.table
  have hcreate : (TableStore.create CDEntry alloc).allocated = 1 ∧
      (TableStore.create CDEntry alloc).advancePoint = 0 := by
    rw [TableStore.create, TableStore.allocateTable, if_pos (Nat.ne_of_gt hpos)]
    exact ⟨rfl, rfl⟩
  refine ⟨⟨⟨h.dir.stored, rfl, ?unit, ?allocated, ?advancePoint, ?sized⟩, ?remote, ?within⟩,
    h.preserveCount, fun _ => (by decide : 0 < 2 ^ 32), [], ?built⟩
  case unit => exact (Nat.mul_one _).symm
  case allocated =>
    rw [htable]
    exact hcreate.1
  case advancePoint =>
    rw [htable]
    exact hcreate.2
  case sized =>
    intro it hit
    cases hit
  case remote =>
    intro tag
    rw [h.remote tag]
    rfl
  case within =>
    intro tag i hi
    cases hi
  case built =>
    rw [← h.mode, ← h.restoreCount]
    rfl

end Sessions

def lengthHash (s : String) : UInt64 := UInt64.ofNat s.length

def freshCD (n : ℕ) : CD :=
  ⟨{ tiny with table := TableStore.create CDEntry n }, fun _ => none, 0, 0, .execution⟩

def copyCall (coop : Bool) (len : ℕ) (name : String) : Call :=
  ⟨8, len, true, false, coop, false, false, name, "", 0, [], 0⟩

def objectCall (name : String) : Call :=
  ⟨8, 1, true, false, false, true, false, name, "", 0, [⟨100, 16, 1⟩], 0⟩

def refCall (len : ℕ) : Call := ⟨8, len, false, true, false, false, false, "bb", "a", 0, [], 0⟩

def execution (calls : List Call) (x : UInt8) : List (Call × Cells UInt8) :=
  calls.map fun c => (c, fun _ => x)

def threeCalls : List Call := [copyCall true 2 "a", refCall 2, objectCall "ccc"]

def stop? {α : Type} : Except Stop α → Option Stop
  | .ok _ => none
  | .error e => some e

def restoredAt (p : ℕ) : Except Stop (CD × List (List Event)) → List (List (Option UInt8))
  | .ok r => r.2.map fun (es : List Event) => es.map fun (e : Event) =>
      match e with
      | .preserved => none
      | .restored _ mem => some (mem p)
  | .error _ => []

/-- A session that does not end as it should: the body makes the calls in every execution, and the
CD begins with an empty directory. -/
structure Breaks (n : ℕ) (calls : List Call) (attempts : List (List (Call × Cells UInt8))) :
    Prop where
  wellFormed : WellFormed lengthHash calls
  begins : Begins (freshCD n)
  same : ∀ xs ∈ attempts, xs.map Prod.fst <+: calls
  broken : ¬ Disciplined lengthHash (fun _ => none) chunkAlignment (freshCD n) (freshCD n)
    (execution calls 2) [] attempts

def twoObjects : List (Call × Cells UInt8) :=
  [(objectCall "a", fun _ => 1), (objectCall "bb", fun _ => 2)]

end CDRuntime.Preserve
