/-
What a run leaves in the files. Writing and reading look a path up in different
ways: a file to be written need not exist, so only its directory is walked to.
Both come to the same place (`FileTree.locate_of_locateNew`), and what is put
there is in nobody's way, so a written file is read back (`FileTree.read_write`).

A run of the command line therefore ends in one of two ways: it fails and leaves
all files as they were, or its code is in the output file (`run_stored`).
-/
import IntelAsm.CommandLine.FileTree
import IntelAsm.Proofs.Failure

namespace IntelAsm.CommandLine

namespace FileTree

variable {t u : FileTree} {place next : Place}

/-! ## Places -/

/-- What is put at a place is found there, and the rest stays. -/
theorem node?_put (t : FileTree) {place : Place} (node : Node) (other : Place) (h : place ≠ []) :
    (t.put place node).node? other = if other = place then some node else t.node? other := by
  unfold node? put
  by_cases ho : other = place
  · subst ho
    simp [h]
  · rw [List.lookup_cons, beq_eq_false_iff_ne.2 ho]
    simp [ho]

theorem enter_eq_ok {v : Unit} : t.enter place = .ok v ↔ t.node? place = some .directory := by
  unfold enter
  split <;> simp_all

theorem walk_cons {name : String} {rest : List String} :
    t.walk place (name :: rest) = .ok next ↔
      t.node? place = some .directory ∧
        ∃ following, step place name = .ok following ∧ t.walk following rest = .ok next := by
  simp only [walk, bind_eq_ok, enter_eq_ok, exists_and_left, exists_const]

/-- A path may be walked part by part. -/
theorem walk_append {names others : List String} :
    t.walk place (names ++ others) = .ok next ↔
      ∃ between, t.walk place names = .ok between ∧ t.walk between others = .ok next := by
  induction names generalizing place with
  | nil => simp [walk]
  | cons name rest ih =>
    simp only [List.cons_append, walk_cons, ih]
    constructor
    · rintro ⟨hdirectory, following, hstep, between, hrest, hothers⟩
      exact ⟨between, ⟨hdirectory, following, hstep, hrest⟩, hothers⟩
    · rintro ⟨between, ⟨hdirectory, following, hstep, hrest⟩, hothers⟩
      exact ⟨hdirectory, following, hstep, between, hrest, hothers⟩

/-- A walk that ends in a directory starts in one. -/
theorem directory_of_walk {names : List String} (h : t.walk place names = .ok next)
    (hnext : t.node? next = some .directory) : t.node? place = some .directory := by
  cases names with
  | nil =>
    cases h
    exact hnext
  | cons name rest => exact (walk_cons.1 h).1

/-- Empty names on the way to a directory lead nowhere else. -/
theorem walk_of_filter {names : List String}
    (h : t.walk place (names.filter (· ≠ "")) = .ok next)
    (hnext : t.node? next = some .directory) : t.walk place names = .ok next := by
  induction names generalizing place with
  | nil => exact h
  | cons name rest ih =>
    by_cases hname : name = ""
    · subst hname
      have hrest : t.walk place (rest.filter (· ≠ "")) = .ok next := by simpa using h
      exact walk_cons.2 ⟨directory_of_walk hrest hnext, place, if_pos (.inl rfl), ih hrest⟩
    · rw [List.filter_cons_of_pos (by simpa using hname), walk_cons] at h
      obtain ⟨hdirectory, following, hstep, hrest⟩ := h
      exact walk_cons.2 ⟨hdirectory, following, hstep, ih hrest⟩

/-- A walk goes the same way in a tree that has the directories of the first. -/
theorem walk_mono (hdirs : ∀ p, t.node? p = some .directory → u.node? p = some .directory)
    {names : List String} (h : t.walk place names = .ok next) : u.walk place names = .ok next := by
  induction names generalizing place with
  | nil => exact h
  | cons name rest ih =>
    obtain ⟨hdirectory, following, hstep, hrest⟩ := walk_cons.1 h
    exact walk_cons.2 ⟨hdirs place hdirectory, following, hstep, ih hrest⟩

/-! ## Paths to files -/

/-- The last name of a path that does not end with a slash is its last part. -/
theorem eq_concat_of_filter {parts : List String} {last : String}
    (hlast : (parts.filter (· ≠ "")).getLast? = some last) (hslash : parts.getLast? ≠ some "") :
    ∃ front, parts = front ++ [last] ∧
      (parts.filter (· ≠ "")).dropLast = front.filter (· ≠ "") := by
  rcases List.eq_nil_or_concat parts with rfl | ⟨front, part, rfl⟩
  · cases hlast
  rw [List.concat_eq_append] at hlast hslash ⊢
  have hpart : part ≠ "" := by simpa using hslash
  have hfilter : (front ++ [part]).filter (· ≠ "") = front.filter (· ≠ "") ++ [part] := by
    simp [hpart]
  rw [hfilter, List.getLast?_concat, Option.some.injEq] at hlast
  subst hlast
  exact ⟨front, rfl, by rw [hfilter, List.dropLast_concat]⟩

/-- A file to be written has a name in a directory that the path leads to. -/
theorem locateNew_eq_ok {path : String} (h : t.locateNew path = .ok place) :
    checkPath path = .ok () ∧ place ≠ [] ∧ ∃ front last parent,
      path.splitOn "/" = front ++ [last] ∧ t.walk (t.start path) front = .ok parent ∧
      t.node? parent = some .directory ∧ step parent last = .ok place := by
  simp only [locateNew, bind_eq_ok] at h
  obtain ⟨⟨⟩, hcheck, h⟩ := h
  generalize path.splitOn "/" = parts at h ⊢
  cases hlast : (parts.filter (· ≠ "")).getLast? with
  | none =>
    rw [hlast] at h
    cases h
  | some last =>
    simp only [hlast, bind_eq_ok, enter_eq_ok, guard_eq_ok, not_or] at h
    obtain ⟨parent, hwalk, -, hparent, ⟨hslash, hdot, hdots⟩, hstep⟩ := h
    obtain ⟨front, rfl, hfront⟩ := eq_concat_of_filter hlast hslash
    rw [hfront] at hwalk
    have hempty : last ≠ "" := by simpa using hslash
    have hplace : place = parent ++ [last] := by
      have hsame := hstep
      rw [step, if_neg (not_or.2 ⟨hempty, hdot⟩), if_neg hdots, guard_eq_ok] at hsame
      exact (Except.ok.inj hsame.2).symm
    refine ⟨hcheck, by simp [hplace], front, last, parent, rfl, ?_, hparent, hstep⟩
    exact walk_of_filter hwalk hparent

/-- **A path leads to one place**, for writing and for reading, also in a tree that has more
directories. -/
theorem locate_of_locateNew {path : String} (h : t.locateNew path = .ok place)
    (hworking : u.working = t.working)
    (hdirs : ∀ p, t.node? p = some .directory → u.node? p = some .directory) :
    u.locate path = .ok place := by
  obtain ⟨hcheck, -, front, last, parent, hparts, hwalk, hparent, hstep⟩ := locateNew_eq_ok h
  have hstart : u.start path = t.start path := by rw [start, start, hworking]
  rw [locate, hcheck, hparts, hstart]
  refine walk_append.2 ⟨parent, walk_mono hdirs hwalk, ?_⟩
  exact walk_cons.2 ⟨hdirs parent hparent, place, hstep, rfl⟩

/-! ## Files -/

/-- What writing does: a device drops the content, or it is put in a file. -/
theorem write_eq_ok {path : String} {content : ByteArray} (h : t.write path content = .ok u) :
    ∃ place, t.locateNew path = .ok place ∧
      ((∃ refusal, t.node? place = some (.device refusal)) ∧ u = t ∨
        t.node? place ≠ some .directory ∧ u = t.put place (.file content)) := by
  rw [write, bind_eq_ok] at h
  obtain ⟨place, hplace, h⟩ := h
  refine ⟨place, hplace, ?_⟩
  cases hnode : t.node? place with
  | none =>
    rw [hnode] at h
    cases h
    exact .inr ⟨by simp, rfl⟩
  | some node =>
    rw [hnode] at h
    cases node with
    | directory => cases h
    | file old =>
      cases h
      exact .inr ⟨by simp, rfl⟩
    | device refusal =>
      refine .inl ⟨⟨refusal, rfl⟩, ?_⟩
      cases refusal with
      | none =>
        cases h
        rfl
      | some e =>
        simp only at h
        split at h <;> cases h
        rfl

/-- Writing changes one place at most. -/
theorem node?_write {path : String} {content : ByteArray} (h : t.write path content = .ok u) :
    ∃ place, t.locateNew path = .ok place ∧ ∀ other ≠ place, u.node? other = t.node? other := by
  obtain ⟨place, hplace, ⟨-, rfl⟩ | ⟨-, rfl⟩⟩ := write_eq_ok h
  · exact ⟨place, hplace, fun _ _ => rfl⟩
  · refine ⟨place, hplace, fun other hother => ?_⟩
    rw [node?_put t _ other (locateNew_eq_ok hplace).2.1, if_neg hother]

/-- **What is written is read back.** Only a device drops it, and then nothing is changed. -/
theorem read_write {path : String} {content : ByteArray} (h : t.write path content = .ok u) :
    u.read path = .ok content ∨ u = t ∧ t.read path = .ok .empty := by
  obtain ⟨place, hplace, ⟨⟨refusal, hdevice⟩, rfl⟩ | ⟨hfile, rfl⟩⟩ := write_eq_ok h
  · right
    have hlocate := locate_of_locateNew hplace rfl fun _ hp => hp
    exact ⟨rfl, by simp only [read, hlocate, bind, Except.bind, hdevice]⟩
  · left
    have hroot := (locateNew_eq_ok hplace).2.1
    -- The place is no directory, so no walk goes through it.
    have hdirs : ∀ p, t.node? p = some .directory →
        (t.put place (.file content)).node? p = some .directory := by
      intro p hp
      have hne : p ≠ place := by
        rintro rfl
        exact hfile hp
      rw [node?_put t _ p hroot, if_neg hne, hp]
    have hlocate := locate_of_locateNew (u := t.put place (.file content)) hplace rfl hdirs
    have hnode := node?_put t (.file content) place hroot
    rw [if_pos rfl] at hnode
    simp only [read, hlocate, bind, Except.bind, hnode]

theorem run_write_ok {path : String} {content : ByteArray} (h : t.write path content = .ok u) :
    (files.write path content).run t = pure (.ok (), u) := by
  simp [files, h]

theorem run_write_error {path : String} {content : ByteArray} {e : FileError}
    (h : t.write path content = .error e) :
    (files.write path content).run t = pure (.error e, t) := by
  simp [files, h]

theorem run_read (t : FileTree) (path : String) :
    (files.read path).run t = pure (t.read path, t) := rfl

end FileTree

/-! ## Runs -/

namespace Invocation

variable {inv : Invocation} {a : Assembly} {t u : FileTree} {report : Report}

/-- The files after a run that went well. Only the place of a named output is changed, and the code
is read from there, unless it is a device. -/
structure Stored (inv : Invocation) (a : Assembly) (t u : FileTree) : Prop where
  kept : inv.output = none → u = t
  written : ∀ path, inv.output = some path →
    u.read path = .ok ⟨a.bytes.toArray⟩ ∨ u = t ∧ t.read path = .ok .empty
  others : ∀ path, inv.output = some path →
    ∃ place, t.locateNew path = .ok place ∧ ∀ other ≠ place, u.node? other = t.node? other

theorem deliver_stored (h : (inv.deliver FileTree.files a).run t = (report, u)) :
    report.exit = 1 ∧ u = t ∨ report.exit = 0 ∧ inv.Stored a t u := by
  cases houtput : inv.output with
  | none =>
    simp only [deliver, houtput, StateT.run_pure] at h
    cases h
    exact .inr ⟨rfl, fun _ => rfl, by simp [houtput], by simp [houtput]⟩
  | some path =>
    simp only [deliver, houtput, StateT.run_bind] at h
    cases hwrite : t.write path ⟨a.bytes.toArray⟩ with
    | error e =>
      rw [FileTree.run_write_error hwrite, pure_bind] at h
      cases h
      exact .inl ⟨rfl, rfl⟩
    | ok v =>
      rw [FileTree.run_write_ok hwrite, pure_bind] at h
      cases h
      refine .inr ⟨rfl, by simp [houtput], fun path' hpath => ?_, fun path' hpath => ?_⟩
      all_goals cases houtput.symm.trans hpath
      · exact FileTree.read_write hwrite
      · exact FileTree.node?_write hwrite

/-- The input is a text that can be assembled, and its code is stored. -/
def Succeeds (inv : Invocation) (t u : FileTree) : Prop :=
  ∃ mode bytes source a, Mode.ofBits? inv.modeBits = some mode ∧ t.read inv.input = .ok bytes ∧
    String.fromUTF8? bytes = some source ∧ inv.assembly mode source = .ok a ∧ inv.Stored a t u

theorem run_succeeds (h : (inv.run FileTree.files).run t = (report, u)) :
    report.exit = 1 ∧ u = t ∨ report.exit = 0 ∧ inv.Succeeds t u := by
  rw [run] at h
  cases hmode : Mode.ofBits? inv.modeBits with
  | none =>
    rw [hmode] at h
    cases h
    exact .inl ⟨rfl, rfl⟩
  | some mode =>
    simp only [hmode, StateT.run_bind, FileTree.run_read, pure_bind] at h
    cases hbytes : t.read inv.input with
    | error e =>
      rw [hbytes] at h
      cases h
      exact .inl ⟨rfl, rfl⟩
    | ok bytes =>
      rw [hbytes] at h
      cases hsource : String.fromUTF8? bytes with
      | none =>
        simp only [hsource] at h
        cases h
        exact .inl ⟨rfl, rfl⟩
      | some source =>
        simp only [hsource] at h
        cases ha : inv.assembly mode source with
        | error d =>
          simp only [ha] at h
          cases h
          exact .inl ⟨rfl, rfl⟩
        | ok a =>
          simp only [ha] at h
          rcases deliver_stored h with hfailed | ⟨hexit, hstored⟩
          · exact .inl hfailed
          · exact .inr ⟨hexit, mode, bytes, source, a, hmode, hbytes, hsource, ha, hstored⟩

end Invocation

/-- **A run leaves its code in the output**, or it fails and leaves all files as they were. -/
theorem run_stored {args : List String} {t u : FileTree} {report : Report}
    (h : (run FileTree.files args).run t = (report, u)) :
    report.exit ≠ 0 ∧ u = t ∨
      report.exit = 0 ∧ ∃ inv, Invocation.ofArgs? args = some inv ∧ inv.Succeeds t u := by
  rw [run] at h
  cases hargs : Invocation.ofArgs? args with
  | none =>
    rw [hargs] at h
    cases h
    exact .inl ⟨Nat.succ_ne_zero 1, rfl⟩
  | some inv =>
    rw [hargs] at h
    rcases Invocation.run_succeeds h with ⟨hexit, hsame⟩ | ⟨hexit, hsucceeds⟩
    · exact .inl ⟨by omega, hsame⟩
    · exact .inr ⟨hexit, inv, rfl, hsucceeds⟩

end IntelAsm.CommandLine
