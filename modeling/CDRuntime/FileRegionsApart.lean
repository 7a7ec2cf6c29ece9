import CDRuntime.FileRegions

namespace CDRuntime

namespace FileRegions
open Cells DataStore

/-- The begun stores lie one behind the other, each up to the end of its last chunk. -/
structure Inv (st : System) : Prop where
  begun : ∀ s ∈ st.begun, s.Placed
  idle : ∀ s ∈ st.idle, s.Placed ∧ s.tail = 0
  nested : st.begun.Pairwise fun inner outer =>
    outer.writtenLen + alignUp outer.tail ≤ inner.writtenLen
  offset : st.file.offset % chunkAlignment = 0
  magic : st.begun ≠ [] ∨ st.idle ≠ [] → chunkAlignment ≤ st.file.offset

/-- No write reaches into the region of another store. -/
def Separate (st : System) (ws : List FileWrite) : Prop :=
  ∀ w ∈ ws, (∀ j s, st.begun[j]? = some s → w.owner ≠ some j → ¬ Touches w s) ∧
    ∀ s ∈ st.idle, ¬ Touches w s

/-- The file is changed by the logged writes only. -/
def Keeps (f f' : FileHandle) (ws : List FileWrite) : Prop :=
  ∀ p, (∀ w ∈ ws, ¬ (w.offset ≤ p ∧ p < w.offset + w.len)) → f'.content p = f.content p

theorem idle_not_touched {st : System} (h : Inv st) (w : FileWrite) :
    ∀ s ∈ st.idle, ¬ Touches w s := by
  rintro s hs ⟨p, -, hlo, hhi⟩
  rw [(h.idle s hs).2] at hhi
  exact absurd hhi (by rw [alignUp_of_aligned rfl]; omega)

theorem begun_not_touched {st : System} (h : Inv st) {i : ℕ} {s : DataStore}
    (hi : st.begun[i]? = some s) {tail' : ℕ} (htail : i = 0 ∨ tail' = s.tail) {w : FileWrite}
    (hlo : s.writtenLen ≤ w.offset) (hhi : w.offset + w.len ≤ s.writtenLen + alignUp tail')
    {j : ℕ} {o : DataStore} (hj : st.begun[j]? = some o) (hne : i ≠ j) : ¬ Touches w o := by
  rintro ⟨p, ⟨hp, hp'⟩, hop, hop'⟩
  obtain ⟨hil, rfl⟩ := List.getElem?_eq_some_iff.mp hi
  obtain ⟨hjl, rfl⟩ := List.getElem?_eq_some_iff.mp hj
  have hpair := List.pairwise_iff_getElem.mp h.nested
  rcases Nat.lt_or_gt_of_ne hne with hlt | hgt
  · -- the other store is further out
    have := hpair i j hil hjl hlt
    omega
  · have := hpair j i hjl hil hgt
    rcases htail with rfl | rfl
    · omega
    · omega

theorem replace_spec {st : System} (h : Inv st) {i : ℕ} {s s' : DataStore} {f' : FileHandle}
    {ws : List (ℕ × ℕ)} (hi : st.begun[i]? = some s) (hw : Writes s st.file s' f' ws)
    (htail : i = 0 ∨ s'.tail = s.tail) (threshold : ℕ) :
    Inv { st with begun := st.begun.set i s', file := f', threshold } ∧
      Separate st (logged (some i) ws) ∧ Keeps st.file f' (logged (some i) ws) := by
  obtain ⟨n, hn, hoff⟩ := hw.offset
  obtain ⟨hil, hs⟩ := List.getElem?_eq_some_iff.mp hi
  refine ⟨⟨?_, h.idle, ?_, ?_, ?_⟩, ?_, ?_⟩
  · intro o ho
    rcases List.mem_or_eq_of_mem_set ho with ho | rfl
    · exact h.begun o ho
    · exact hw.placed
  · rw [List.pairwise_iff_getElem]
    intro a b ha hb hab
    rw [List.length_set] at ha hb
    have hpair := List.pairwise_iff_getElem.mp h.nested a b ha hb hab
    rw [List.getElem_set, List.getElem_set]
    by_cases hbi : i = b
    · -- an outer store keeps its tail
      subst hbi
      rw [if_pos rfl, if_neg (by omega), hw.writtenLen, htail.resolve_left (by omega), ← hs]
      exact hpair
    · rw [if_neg hbi]
      by_cases hai : i = a
      · subst hai
        rw [if_pos rfl, hw.writtenLen, ← hs]
        exact hpair
      · rw [if_neg hai]
        exact hpair
  · dsimp only
    rw [hoff]
    exact aligned_add h.offset hn
  · intro _
    have := h.magic (Or.inl (List.ne_nil_of_length_pos (by omega)))
    dsimp only
    omega
  · intro w hw'
    obtain ⟨r, hr, rfl⟩ := List.mem_map.mp hw'
    obtain ⟨hlo, hhi⟩ := hw.within r hr
    refine ⟨?_, idle_not_touched h _⟩
    intro j o hj hne
    exact begun_not_touched h hi htail hlo hhi hj (fun heq => hne (heq ▸ rfl))
  · intro p hp
    apply hw.content
    intro r hr
    exact hp _ (List.mem_map_of_mem hr)

theorem magic_separate {st : System} (h : Inv st) (f : FileHandle) :
    Separate st (magicWrites f) := by
  intro w hw
  rw [magicWrites] at hw
  split_ifs at hw
  · rw [List.mem_singleton.mp hw]
    refine ⟨?_, idle_not_touched h _⟩
    rintro j s hj - ⟨p, ⟨-, hp⟩, hlo, -⟩
    have := (h.begun s (List.mem_of_getElem? hj)).base
    dsimp only at hp
    omega
  · cases hw

theorem initFile_spec (s : DataStore) {f : FileHandle} (hf : f.offset % chunkAlignment = 0)
    (filetype : FileType) :
    (s.initFile f filetype).1 =
        { s with ftype := (s.initFile f filetype).1.ftype
                 writtenLen := (s.initFile f filetype).2.offset } ∧
      (s.initFile f filetype).2.offset % chunkAlignment = 0 ∧
      chunkAlignment ≤ (s.initFile f filetype).2.offset ∧
      Keeps f (s.initFile f filetype).2 (magicWrites f) := by
  refine ⟨rfl, ?_⟩
  simp only [initFile, magicWrites]
  split_ifs with hmagic
  · refine ⟨aligned_add hf (by decide), Nat.le_add_left _ _, ?_⟩
    intro p hp
    have hout := hp _ List.mem_cons_self
    dsimp only at hout
    simp only [FileHandle.write]
    apply copyIn_after
    rw [List.length_replicate]
    omega
  · exact ⟨hf, Nat.le_of_not_lt hmagic, fun _ _ => rfl⟩

theorem Keeps.trans {f g k : FileHandle} {ws vs : List FileWrite} (h : Keeps f g ws)
    (h' : Keeps g k vs) : Keeps f k (ws ++ vs) := by
  intro p hp
  rw [h' p fun w hw => hp w (List.mem_append_right _ hw),
    h p fun w hw => hp w (List.mem_append_left _ hw)]

theorem construct_spec {st : System} (h : Inv st) {initSize : ℕ}
    (hsize : initSize % chunkAlignment = 0) (ftype : FileType) :
    Inv { st with
      idle := ((construct initSize ftype).initFile st.file .volatile).1 :: st.idle
      file := ((construct initSize ftype).initFile st.file .volatile).2 } := by
  obtain ⟨hs, hoff, hmagic, -⟩ :=
    initFile_spec (construct initSize ftype) h.offset .volatile
  refine ⟨h.begun, ?_, h.nested, hoff, fun _ => hmagic⟩
  intro o ho
  rcases List.mem_cons.mp ho with rfl | ho
  · rw [hs]
    exact ⟨⟨hmagic, hoff, rfl, Nat.le_refl _, hsize, hsize⟩, rfl⟩
  · exact h.idle o ho

theorem flush_spec {st st' : System} (h : Inv st) {ws : List FileWrite}
    (hstep : flush st = some (st', ws)) :
    Inv st' ∧ Separate st ws ∧ Keeps st.file st'.file ws ∧ st'.idle = st.idle := by
  rw [flush] at hstep
  cases hbegun : st.begun with
  | nil =>
      rw [hbegun] at hstep
      cases hstep
      exact ⟨h, fun _ hw => (by cases hw), fun _ _ => rfl, rfl⟩
  | cons s rest =>
      rw [hbegun] at hstep
      obtain ⟨⟨s', f⟩, hflush, hstep⟩ := Option.bind_eq_some_iff.mp hstep
      cases hstep
      have hs : st.begun[0]? = some s := by rw [hbegun]; rfl
      obtain ⟨hwrites, -⟩ := flush_writes (h.begun s (List.mem_of_getElem? hs)) hflush
      obtain ⟨hinv, hsep, hkeep⟩ := replace_spec h hs hwrites (Or.inl rfl) st.threshold
      rw [hbegun] at hinv
      exact ⟨hinv, hsep, hkeep, rfl⟩

theorem create_spec {st st' : System} (h : Inv st) {initSize : ℕ}
    (hsize : initSize % chunkAlignment = 0) {ftype : FileType} {ws : List FileWrite}
    (hstep : create st initSize ftype = some (st', ws)) :
    Inv st' ∧ Separate st ws ∧ Keeps st.file st'.file ws := by
  rw [create] at hstep
  obtain ⟨⟨st₁, ws₁⟩, hflush, hstep⟩ := Option.bind_eq_some_iff.mp hstep
  cases hstep
  obtain ⟨hinv, hsep, hkeep, -⟩ := flush_spec h hflush
  refine ⟨construct_spec hinv hsize ftype, ?_, ?_⟩
  · intro w hw
    rcases List.mem_append.mp hw with hw | hw
    · exact hsep w hw
    · exact magic_separate h _ w hw
  · exact hkeep.trans (initFile_spec (construct initSize ftype) hinv.offset .volatile).2.2.2

theorem innermost_spec {st : System} (h : Inv st) {s s' : DataStore} {rest : List DataStore}
    (hbegun : st.begun = s :: rest) (hplaced : s'.Placed) (hwl : s'.writtenLen = s.writtenLen) :
    Inv { st with begun := s' :: rest } := by
  have hs : st.begun[0]? = some s := by rw [hbegun]; rfl
  have hinv := (replace_spec h hs (Writes.silent hplaced hwl st.file) (Or.inl rfl) st.threshold).1
  rw [hbegun] at hinv
  exact hinv

theorem begin_spec {st : System} (h : Inv st) {s : DataStore} {k : ℕ} (hs : st.idle[k]? = some s)
    (hclear : ∀ parent, st.begun.head? = some parent → parent.used ≤ s.writtenLen)
    (mode : BufferMode) :
    Inv { st with
      begun := (insertBuffer st.begun st.file { s.reInit with mode }).1
      idle := st.idle.eraseIdx k
      file := (insertBuffer st.begun st.file { s.reInit with mode }).2 } ∧
    Keeps st.file (insertBuffer st.begun st.file { s.reInit with mode }).2 [] := by
  have hplaced := (h.idle s (List.mem_of_getElem? hs)).1
  have hnew : DataStore.Placed { s.reInit with mode } :=
    ⟨hplaced.base, hplaced.writtenLen, rfl, Nat.le_refl _, hplaced.size, hplaced.growUnit⟩
  have hidle : ∀ o ∈ st.idle.eraseIdx k, o.Placed ∧ o.tail = 0 :=
    fun o ho => h.idle o (List.mem_of_mem_eraseIdx ho)
  cases hbegun : st.begun with
  | nil =>
      refine ⟨⟨?_, hidle, List.pairwise_singleton _ _, h.offset, ?_⟩, fun _ _ => rfl⟩
      · intro o ho
        rw [List.mem_singleton.mp ho]
        exact hnew
      · intro _
        exact h.magic (Or.inr (List.ne_nil_of_mem (List.mem_of_getElem? hs)))
  | cons parent rest =>
      have hmem : ∀ o ∈ parent :: rest, o.Placed := by
        rw [← hbegun]
        exact h.begun
      have hparent := hmem parent List.mem_cons_self
      have hnested := h.nested
      rw [hbegun, List.pairwise_cons] at hnested
      have hused := hclear parent (by rw [hbegun]; rfl)
      -- the child starts at a whole chunk, so it starts behind the padding as well
      have hend : parent.writtenLen + alignUp parent.tail ≤ s.writtenLen := by
        rw [← alignUp_add hparent.writtenLen]
        apply alignUp_le _ hplaced.writtenLen
        rw [used] at hused
        omega
      have hpad := le_alignUp parent.tail
      refine ⟨⟨?_, hidle, ?_, ?_, ?_⟩, fun _ _ => rfl⟩
      · intro o ho
        rcases List.mem_cons.mp ho with rfl | ho
        · exact hnew
        · rcases List.mem_cons.mp ho with rfl | ho
          · have hord := hparent.ordered
            exact ⟨hparent.base, hparent.writtenLen, hparent.head,
              by simp only [Nat.add_zero]; omega, hparent.size, hparent.growUnit⟩
          · exact hmem o (List.mem_cons_of_mem _ ho)
      · apply List.pairwise_cons.mpr
        refine ⟨?_, List.pairwise_cons.mpr ⟨hnested.1, hnested.2⟩⟩
        intro o ho
        rcases List.mem_cons.mp ho with rfl | ho
        · simp only [Nat.add_zero, alignUp_alignUp]
          exact hend
        · have := hnested.1 o ho
          dsimp only [reInit]
          omega
      · exact aligned_add (alignUp_mod _) hparent.writtenLen
      · intro _
        have := hparent.base
        simp only [insertBuffer, padZeros]
        omega

theorem step_spec {st st' : System} {op : Op} {ws : List FileWrite} (h : Inv st)
    (hclear : Clear st op) (hstep : step st op = some (st', ws)) :
    Inv st' ∧ Separate st ws ∧ Keeps st.file st'.file ws := by
  have hsilent : Separate st [] := fun _ hw => (by cases hw)
  cases op with
  | create initSize ftype => exact create_spec h hclear hstep
  | flush =>
      obtain ⟨hinv, hsep, hkeep, -⟩ := flush_spec h hstep
      exact ⟨hinv, hsep, hkeep⟩
  | initFile k filetype =>
      obtain ⟨s, hs, hstep⟩ := Option.bind_eq_some_iff.mp hstep
      cases hstep
      obtain ⟨hnew, hoff, hmagic, hkeep⟩ := initFile_spec s h.offset filetype
      obtain ⟨hplaced, htail⟩ := h.idle s (List.mem_of_getElem? hs)
      refine ⟨⟨h.begun, ?_, h.nested, hoff, fun _ => hmagic⟩, magic_separate h _, hkeep⟩
      intro o ho
      rcases List.mem_or_eq_of_mem_set ho with ho | rfl
      · exact h.idle o ho
      · exact ⟨⟨hmagic, hoff, hplaced.head, hplaced.ordered, hplaced.size, hplaced.growUnit⟩, htail⟩
  | begin k mode =>
      obtain ⟨s, hs, hstep⟩ := Option.bind_eq_some_iff.mp hstep
      cases hstep
      obtain ⟨hinv, hkeep⟩ := begin_spec h hs (fun parent hp => hclear parent s hp hs) mode
      exact ⟨hinv, hsilent, hkeep⟩
  | write xs =>
      rw [step] at hstep
      cases hbegun : st.begun with
      | nil =>
          rw [hbegun] at hstep
          cases hstep
      | cons s rest =>
          rw [hbegun] at hstep
          obtain ⟨⟨ret, s', f, thr⟩, hwrite, hstep⟩ := Option.bind_eq_some_iff.mp hstep
          cases hstep
          have hs : st.begun[0]? = some s := by rw [hbegun]; rfl
          have hwrites := write_writes (h.begun s (List.mem_of_getElem? hs)) hwrite
          have hspec := replace_spec h hs hwrites (Or.inl rfl) thr
          rw [hbegun] at hspec
          exact hspec
  | reallocate len =>
      rw [step] at hstep
      cases hbegun : st.begun with
      | nil =>
          rw [hbegun] at hstep
          cases hstep
      | cons s rest =>
          rw [hbegun] at hstep
          obtain ⟨s', hgrow, hstep⟩ := Option.bind_eq_some_iff.mp hstep
          cases hstep
          have hplaced := h.begun s (by rw [hbegun]; exact List.mem_cons_self)
          split_ifs at hgrow
          · obtain ⟨hp, hwl, -⟩ := reallocate_placed hplaced hgrow
            exact ⟨innermost_spec h hbegun hp hwl, hsilent, fun _ _ => rfl⟩
          · cases hgrow
            exact ⟨innermost_spec h hbegun hplaced rfl, hsilent, fun _ _ => rfl⟩
  | put xs =>
      rw [step] at hstep
      cases hbegun : st.begun with
      | nil =>
          rw [hbegun] at hstep
          cases hstep
      | cons s rest =>
          rw [hbegun] at hstep
          obtain ⟨s', hput, hstep⟩ := Option.bind_eq_some_iff.mp hstep
          cases hstep
          have hplaced := h.begun s (by rw [hbegun]; exact List.mem_cons_self)
          obtain ⟨hp, hwl⟩ := copyAtTail_placed hplaced hput
          exact ⟨innermost_spec h hbegun hp hwl, hsilent, fun _ _ => rfl⟩
  | writeFile i n =>
      obtain ⟨s, hs, hstep⟩ := Option.bind_eq_some_iff.mp hstep
      split_ifs at hstep with hn
      obtain ⟨⟨s', f⟩, hwrite, hstep⟩ := Option.bind_eq_some_iff.mp hstep
      cases hstep
      obtain ⟨hwrites, htail⟩ :=
        writeFile_writes (h.begun s (List.mem_of_getElem? hs)) hn.2 hwrite
      exact replace_spec h hs hwrites (Or.inr htail) st.threshold
  | complete =>
      rw [step] at hstep
      cases hbegun : st.begun with
      | nil =>
          rw [hbegun] at hstep
          cases hstep
      | cons s rest =>
          rw [hbegun] at hstep
          cases hstep
          have hmem := h.begun
          have hnested := h.nested
          rw [hbegun] at hmem hnested
          have hplaced := hmem s List.mem_cons_self
          refine ⟨⟨fun o ho => hmem o (List.mem_cons_of_mem _ ho), ?_, hnested.of_cons,
            hplaced.writtenLen, fun _ => hplaced.base⟩, hsilent, fun _ _ => rfl⟩
          intro o ho
          rcases List.mem_cons.mp ho with rfl | ho
          · exact ⟨⟨hplaced.base, hplaced.writtenLen, rfl, Nat.le_refl _, hplaced.size,
              hplaced.growUnit⟩, rfl⟩
          · exact h.idle o ho
  | destroy k =>
      obtain ⟨s, hs, hstep⟩ := Option.bind_eq_some_iff.mp hstep
      cases hstep
      have hplaced := (h.idle s (List.mem_of_getElem? hs)).1
      refine ⟨⟨h.begun, fun o ho => h.idle o (List.mem_of_mem_eraseIdx ho), h.nested,
        hplaced.writtenLen, fun _ => hplaced.base⟩, hsilent, fun _ _ => rfl⟩

theorem create_place {st st' : System} {parent : DataStore} {rest : List DataStore}
    (hbegun : st.begun = parent :: rest) (hplaced : parent.Placed)
    (hoff : st.file.offset = parent.head + parent.writtenLen) {initSize : ℕ} {ftype : FileType}
    {ws : List FileWrite} (hstep : create st initSize ftype = some (st', ws)) :
    ∃ child parent', st'.idle = child :: st.idle ∧ st'.begun = parent' :: rest ∧
      parent'.used = parent.used ∧
      child.writtenLen = parent.writtenLen + alignDown parent.tail := by
  rw [create, flush, hbegun] at hstep
  obtain ⟨⟨st₁, ws₁⟩, hflush, hstep⟩ := Option.bind_eq_some_iff.mp hstep
  obtain ⟨⟨parent', f⟩, hparent, hflush⟩ := Option.bind_eq_some_iff.mp hflush
  cases hflush
  cases hstep
  have hord := hplaced.ordered
  have hend : parent'.used = parent.used ∧
      f.offset = parent.writtenLen + alignDown parent.tail := by
    rw [DataStore.flush] at hparent
    split_ifs at hparent with hused
    · obtain ⟨rfl, hmoved⟩ := writeFile_moves hplaced hparent
      have htail := alignDown_add hplaced.head parent.bufUsed
      rw [bufUsed, Nat.add_sub_cancel' hord] at htail
      refine ⟨by simp only [used], ?_⟩
      rw [hmoved, hoff, bufUsed, htail, Nat.add_comm parent.head, Nat.add_assoc]
    · cases hparent
      rw [bufUsed] at hused
      have htail : parent.tail = parent.head := by omega
      refine ⟨rfl, ?_⟩
      rw [htail, alignDown_of_aligned hplaced.head, hoff, Nat.add_comm]
  refine ⟨_, parent', rfl, rfl, hend.1, ?_⟩
  have hbase := hplaced.base
  dsimp only
  rw [if_neg (by omega), hend.2]

/-- In a run that is clear, no step writes into the region of another store. -/
theorem apart_of_clear {st : System} (h : Initial st) {ops : List Op}
    (hclear : Runs.Guarded next Clear st ops) : Runs.Guarded next Apart st ops := by
  have hinv : Inv st := by
    refine ⟨?_, ?_, ?_, ?_, ?_⟩
    · rw [h.begun]
      exact fun _ hs => (by cases hs)
    · rw [h.idle]
      exact fun _ hs => (by cases hs)
    · rw [h.begun]
      exact List.Pairwise.nil
    · rw [h.offset]
      rfl
    · rw [h.begun, h.idle]
      exact fun hne => absurd rfl (hne.elim id id)
  apply Runs.guarded_of_guarded _ ops st hinv hclear
  intro st op st' hinv hclear hnext
  obtain ⟨⟨st₁, ws₁⟩, hstep₁, hst⟩ := Option.map_eq_some_iff.mp hnext
  obtain rfl : st₁ = st' := hst
  refine ⟨(step_spec hinv hclear hstep₁).1, ?_⟩
  intro st'' ws hstep
  obtain ⟨-, hsep, hkeep⟩ := step_spec hinv hclear hstep
  refine ⟨hsep, ?_⟩
  intro j s hj howner p hlo hhi
  apply hkeep p
  intro w hw hp
  exact (hsep w hw).1 j s hj (howner w hw) ⟨p, hp, hlo, hhi⟩

def noStores : System := ⟨[], [], ⟨0, fun _ => 0⟩, chunksizeThresholdBase⟩

theorem noStores_initial : Initial noStores := ⟨rfl, rfl, rfl⟩

/-- A parent that writes `xs`, and a child of it that writes a byte. -/
def parentAndChild (xs : List UInt8) : List Op :=
  [.create chunkAlignment .posixFile, .begin 0 { boundedMode := true }, .put xs,
    .create chunkAlignment .posixFile, .begin 0 { boundedMode := true }, .put [1], .flush]

def parentStore (xs : List UInt8) : DataStore :=
  { size := chunkAlignment, head := 0, tail := 0 + xs.length, growUnit := chunkAlignment
    allocated := 0, writtenLen := chunkAlignment, mode := { boundedMode := true }
    ftype := .posixFile, ptr := some (copyIn (fun _ => 0) 0 xs) }

theorem parentAndChild_clear {xs : List UInt8} (h : xs.length = chunkAlignment) :
    Runs.Guarded next Clear noStores (parentAndChild xs) := by
  refine fun st₁ h₁ => ⟨rfl, ?_⟩
  cases h₁
  refine fun st₂ h₂ => ⟨fun _ _ hp => (by cases hp), ?_⟩
  cases h₂
  refine fun st₃ h₃ => ⟨trivial, ?_⟩
  have hbegun₃ : st₃.begun = [parentStore xs] ∧ st₃.file.offset = chunkAlignment := by
    cases h₃
    exact ⟨rfl, rfl⟩
  refine fun st₄ h₄ => ⟨rfl, fun st₅ _ => ⟨?_, fun _ _ => ⟨trivial, fun _ _ => ⟨trivial, trivial⟩⟩⟩⟩
  obtain ⟨⟨st₄, ws⟩, hcreate, rfl⟩ := Option.map_eq_some_iff.mp h₄
  have hplaced : (parentStore xs).Placed :=
    ⟨Nat.le_refl _, Nat.mod_self _, rfl, Nat.zero_le _, Nat.mod_self _, Nat.mod_self _⟩
  have hoff : st₃.file.offset = (parentStore xs).head + (parentStore xs).writtenLen := by
    rw [hbegun₃.2]
    exact (Nat.zero_add _).symm
  obtain ⟨child, parent, hidle, hbegun, hused, hwl⟩ := create_place hbegun₃.1 hplaced hoff hcreate
  intro parent' child' hp hc
  rw [hbegun] at hp
  rw [hidle] at hc
  cases hp
  cases hc
  rw [hused, hwl, used]
  dsimp only [parentStore]
  rw [h]
  decide

theorem apart_of_whole_chunk :
    Runs.Guarded next Apart noStores (parentAndChild (List.replicate chunkAlignment 7)) :=
  apart_of_clear noStores_initial (parentAndChild_clear List.length_replicate)

theorem partial_chunk_overwritten :
    Initial noStores ∧ ¬ Runs.Guarded next Apart noStores (parentAndChild [7]) := by
  refine ⟨noStores_initial, ?_⟩
  intro h
  have hrest := (h _ rfl).2
  have hrest := (hrest _ rfl).2
  have hrest := (hrest _ rfl).2
  have hrest := (hrest _ rfl).2
  have hrest := (hrest _ rfl).2
  have hrest := (hrest _ rfl).2
  have hapart := (hrest _ rfl).1
  have hsep := ((hapart _ _ rfl).1 _ List.mem_cons_self).1 1 _ rfl (by decide)
  exact hsep ⟨chunkAlignment, by decide, by decide⟩

end FileRegions

end CDRuntime
