import MiniStore.Lib.Trace
import MiniStore.Store.OpenLog

/-!
# Acknowledged lines on the disk

With fsync policy `always` a write syncs the log before it returns. A rewrite does not: the
file it renames to `#path` has been written and never synced. The `Ledger` keeps what was
acknowledged and when, and `Durable` says that it survives a crash, of which the bytes beyond
`synced` need not (`Fs.survives`).
-/

namespace MiniStore

open InMemoryStore

/-- What a crash leaves of the file at a path. -/
def Fs.survives (fs : Fs) (path : Str) : Option Str :=
  (fs.file path).map fun n => n.content.take n.synced

namespace AofWriter

/-- What happens to a writer: the two methods, and the completion a rewrite waits for. -/
inductive Request where
  | write (line : Str)
  | rewrite (s : InMemoryStore) (clocks : Clocks)
  | settle

def perform (w : AofWriter) : Request → AofWriter × Bool
  | .write line => w.write line
  | .rewrite s clocks => ((w.rewrite s clocks).1, true)
  | .settle => (w.settle, true)

/-- The lines whose `write` returned. `older` are those that the `compacted` commands of a
finished rewrite stand for; `recent` came later, but before the last rewrite began, which is
the one to `commands`; `during` came after that. -/
structure Ledger where
  compacted : List Str
  commands : List Str
  older : List Str
  recent : List Str
  during : List Str
  deriving DecidableEq

namespace Ledger

def empty : Ledger := ⟨[], [], [], [], []⟩

def enter (a : Ledger) (w : AofWriter) : Request → Ledger
  | .write line => if (w.write line).2 then { a with during := a.during ++ [line] } else a
  | .rewrite s clocks =>
    if w.rewriting.isSome then a
    else { a with
      commands := (rewriteCommands s clocks).2
      recent := a.recent ++ a.during
      during := [] }
  | .settle =>
    if w.rewriting = some .rename then
      { a with compacted := a.commands, older := a.older ++ a.recent, recent := [] }
    else a

def Blank (a : Ledger) : Prop := a.older = [] ∧ a.recent = [] ∧ a.during = []

end Ledger

/-- What survives a crash has the commands that stand for the older lines, and the others. -/
def Durable (w : AofWriter) (a : Ledger) : Prop :=
  ∃ text, w.fs.survives w.path = some text ∧
    (a.older ≠ [] → commandText a.compacted <+: text) ∧
    ∃ segments, text = segments.flatten ∧ ((a.recent ++ a.during).map format).Sublist segments

/-- If this completes a rewrite, no line was acknowledged since it began, and there is no
command to stand for those before. -/
def Harmless (w : AofWriter) (a : Ledger) : Request → Prop
  | .settle => w.rewriting = some .rename →
      a.during = [] ∧ (a.commands = [] ∨ a.older = [] ∧ a.recent = [])
  | _ => True

def attend (x : AofWriter × Ledger) (r : Request) : AofWriter × Ledger :=
  ((x.1.perform r).1, x.2.enter x.1 r)

/-- The temporary file holds the text, and none of it has been synced. -/
def Unsynced (w : AofWriter) (text : Str) : Prop := w.fs.file w.tempPath = some ⟨text, 0⟩

/-- What a rewrite under way has copied. -/
def Copies (w : AofWriter) (a : Ledger) : Prop :=
  match w.rewriting with
  | none => True
  | some (.mkdir commands) | some (.writeFile commands) =>
    commands = a.commands ∧ (a.during = [] → w.rewriteBuffer = some [])
  | some (.appendFile _) => a.during ≠ [] ∧ ∃ text, w.Unsynced text
  | some .rename => ∃ text, w.Unsynced text ∧ (a.during = [] → text = commandText a.commands)

/-- A started writer with policy `always`. -/
structure Attended (w : AofWriter) (a : Ledger) : Prop where
  aligned : w.Aligned
  always : w.fsyncPolicy = .always
  fd : w.fd.isSome = true
  file : ∃ n, w.fs.file w.path = some n
  copies : w.Copies a

/-- The log is synced to its end and holds what it should. -/
def Flushed (w : AofWriter) (a : Ledger) : Prop :=
  ∃ n, w.fs.file w.path = some n ∧ n.synced = n.content.length ∧
    (a.older ≠ [] → commandText a.compacted <+: n.content) ∧
    ∃ segments, n.content = segments.flatten ∧
      ((a.recent ++ a.during).map format).Sublist segments

theorem Flushed.durable {w : AofWriter} {a : Ledger} (h : w.Flushed a) : w.Durable a := by
  obtain ⟨n, hn, hs, hc⟩ := h
  refine ⟨n.content, ?_, hc⟩
  rw [Fs.survives, hn, Option.map_some, hs, List.take_length]

theorem durable_blank {w : AofWriter} {a : Ledger} (h : w.Attended a) (ha : a.Blank) :
    w.Durable a := by
  obtain ⟨n, hn⟩ := h.file
  obtain ⟨h1, h2, h3⟩ := ha
  refine ⟨n.content.take n.synced, by rw [Fs.survives, hn]; rfl, fun hne => absurd h1 hne,
    [n.content.take n.synced], by simp, ?_⟩
  rw [h2, h3]
  exact List.nil_sublist _

/-! ## A write -/

/-- A write that returns, with policy `always`: the file at `#path` is longer and synced. -/
structure Appends (w : AofWriter) (line : Str) (w' : AofWriter) : Prop where
  path : w'.path = w.path
  always : w'.fsyncPolicy = w.fsyncPolicy
  fd : w'.fd = w.fd
  rewriting : w'.rewriting = w.rewriting
  buffer : w'.rewriteBuffer = w.rewriteBuffer.map (· ++ [format line])
  file : ∀ n, w.fs.file w.path = some n →
    w'.fs.file w.path = some (Fs.sync (Fs.append (format line) n))
  temp : w'.fs.file w.tempPath = w.fs.file w.tempPath

theorem Attended.appends {w : AofWriter} {a : Ledger} (h : w.Attended a) {line : Str}
    (hok : (w.write line).2 = true) : Appends w line (w.write line).1 := by
  obtain ⟨fd, hfd⟩ := Option.isSome_iff_exists.mp h.fd
  obtain ⟨i, hopen⟩ : ∃ i, w.fs.fds[fd]? = some (some i) := by
    simp only [write, hfd] at hok
    unfold Fs.writeFd at hok
    split at hok
    · cases hok
    · next hw =>
      split at hw
      · next i hopen => exact ⟨i, hopen⟩
      · cases hw
  have hname := h.aligned.fd fd i hfd hopen
  have htemp : w.fs.names.get? w.tempPath ≠ some i :=
    fun e => tempPath_ne w (h.aligned.wf.inj _ _ i e hname)
  have e : (w.write line).1 = { w with
      fs := { w.fs with
        inodes := (w.fs.inodes.modify i (Fs.append (format line))).modify i Fs.sync }
      dirty := false
      rewriteBuffer := w.rewriteBuffer.map (· ++ [format line]) } := by
    simp [write, hfd, Fs.writeFd, hopen, h.always, Fs.syncFd]
  -- the file is longer after `writeSync` and synced after `fsyncSync`
  have happend := Fs.file_modify w.fs (Fs.append (format line)) i
  have hsync := Fs.file_modify
    { w.fs with inodes := w.fs.inodes.modify i (Fs.append (format line)) } Fs.sync i
  rw [e]
  refine ⟨rfl, rfl, rfl, rfl, rfl, fun n hn => ?_, ?_⟩
  · exact (hsync w.path).trans (by rw [if_pos hname, happend, if_pos hname, hn]; rfl)
  · exact (hsync w.tempPath).trans (by rw [if_neg htemp, happend, if_neg htemp])

section

variable {w w' : AofWriter} {a : Ledger} {line : Str} (hw : Appends w line w')

include hw

theorem Appends.unsynced {text : Str} (h : w.Unsynced text) : w'.Unsynced text := by
  have htemp : w'.tempPath = w.tempPath := by rw [tempPath, hw.path]; rfl
  rw [Unsynced, htemp, hw.temp]
  exact h

theorem Appends.copies (h : w.Copies a) : w'.Copies { a with during := a.during ++ [line] } := by
  unfold Copies at h ⊢
  rw [hw.rewriting]
  split at h
  · exact trivial
  · exact ⟨h.1, fun e => absurd e (List.append_ne_nil_of_right_ne_nil _ (List.cons_ne_nil _ _))⟩
  · exact ⟨h.1, fun e => absurd e (List.append_ne_nil_of_right_ne_nil _ (List.cons_ne_nil _ _))⟩
  · exact ⟨List.append_ne_nil_of_left_ne_nil h.1 _, h.2.imp fun _ => hw.unsynced⟩
  · obtain ⟨text, ht, -⟩ := h
    exact ⟨text, hw.unsynced ht,
      fun e => absurd e (List.append_ne_nil_of_right_ne_nil _ (List.cons_ne_nil _ _))⟩

/-- After a write everything acknowledged is synced, if what was before is in the file. -/
theorem Appends.flushed (h : w.Flushed a ∨ a.Blank ∧ ∃ n, w.fs.file w.path = some n) :
    w'.Flushed { a with during := a.during ++ [line] } := by
  rcases h with ⟨n, hn, -, hc, segments, hs, hsub⟩ | ⟨⟨h1, h2, h3⟩, n, hn⟩
  · refine ⟨_, by rw [hw.path]; exact hw.file n hn, rfl,
      fun hne => (hc hne).trans (List.prefix_append _ _), segments ++ [format line], ?_, ?_⟩
    · rw [List.flatten_append, List.flatten_singleton, ← hs]
      rfl
    · rw [← List.append_assoc, List.map_append, List.map_singleton]
      exact hsub.append (List.Sublist.refl _)
  · refine ⟨_, by rw [hw.path]; exact hw.file n hn, rfl, fun hne => absurd h1 hne,
      [n.content, format line], ?_, ?_⟩
    · rw [List.flatten_cons, List.flatten_singleton]
      rfl
    · rw [h2, h3]
      exact List.sublist_cons_self _ _

end

/-! ## A completion -/

/-- What a step of a rewrite before the rename leaves. -/
structure Leaves (w w' : AofWriter) : Prop where
  path : w'.path = w.path
  always : w'.fsyncPolicy = w.fsyncPolicy
  fd : w'.fd = w.fd
  file : w'.fs.file w.path = w.fs.file w.path

theorem leaves_closeAndRename (w : AofWriter) : Leaves w w.closeAndRename := by
  unfold closeAndRename
  split
  · exact ⟨rfl, rfl, rfl, rfl⟩
  · split <;> exact ⟨rfl, rfl, rfl, rfl⟩

/-- The temporary file is complete when the rewrite waits for the rename. -/
theorem copies_closeAndRename {w : AofWriter} {a : Ledger} {text : Str} (h : w.Unsynced text)
    (ht : a.during = [] → text = commandText a.commands) : w.closeAndRename.Copies a := by
  obtain ⟨hn, hi, hr, -⟩ := closeAndRename_spec w
  have hfile : w.closeAndRename.Unsynced text := by
    rw [Unsynced, Fs.file, tempPath, path_closeAndRename, hn, hi]
    exact h
  unfold Copies
  rcases hr with hr | hr <;> rw [hr]
  · exact trivial
  · exact ⟨text, hfile, ht⟩

section

variable {w : AofWriter} {a : Ledger} (h : w.Attended a)

include h

theorem Attended.settle_early (hr : w.rewriting ≠ some .rename) :
    Leaves w w.settle ∧ w.settle.Copies a := by
  have hcopies := h.copies
  cases hp : w.rewriting with
  | none =>
    have e : w.settle = w := by simp only [settle, hp]
    rw [e]
    exact ⟨⟨rfl, rfl, rfl, rfl⟩, hcopies⟩
  | some pending =>
    cases pending with
    | mkdir commands =>
      simp only [Copies, hp] at hcopies
      simp only [settle, hp]
      exact ⟨⟨rfl, rfl, rfl, rfl⟩, hcopies⟩
    | writeFile commands =>
      simp only [Copies, hp] at hcopies
      obtain ⟨rfl, hbuf⟩ := hcopies
      obtain ⟨htemp, hother⟩ := Fs.writeFile_file h.aligned.wf w.tempPath (commandText a.commands)
      have hfile := hother w.path (tempPath_ne w).symm
      simp only [settle, hp]
      split
      · next hlen =>
        refine ⟨⟨rfl, rfl, rfl, hfile⟩, fun hd => ?_, _, htemp⟩
        rw [hbuf hd] at hlen
        exact absurd hlen (by decide)
      · obtain ⟨h1, h2, h3, h4⟩ := leaves_closeAndRename { w with
          fs := w.fs.writeFile w.tempPath (commandText a.commands), rewriteBuffer := none }
        exact ⟨⟨h1, h2, h3, h4.trans hfile⟩, copies_closeAndRename htemp fun _ => rfl⟩
    | appendFile buf =>
      simp only [Copies, hp] at hcopies
      obtain ⟨hd, text, ht⟩ := hcopies
      obtain ⟨htemp, hother⟩ := Fs.appendFile_file h.aligned.wf ht buf.flatten
      have hfile := hother w.path (tempPath_ne w).symm
      simp only [settle, hp]
      obtain ⟨h1, h2, h3, h4⟩ :=
        leaves_closeAndRename { w with fs := w.fs.appendFile w.tempPath buf.flatten }
      exact ⟨⟨h1, h2, h3, h4.trans hfile⟩, copies_closeAndRename htemp fun e => absurd e hd⟩
    | rename => exact absurd hp hr

theorem Attended.settle_rename (hr : w.rewriting = some .rename) :
    w.settle.rewriting = none ∧ w.settle.path = w.path ∧ w.settle.fsyncPolicy = w.fsyncPolicy ∧
      w.settle.fd.isSome = true ∧ ∃ text, w.settle.fs.file w.path = some ⟨text, 0⟩ ∧
        (a.during = [] → text = commandText a.commands) := by
  have hcopies := h.copies
  simp only [Copies, hr] at hcopies
  obtain ⟨text, ht, hd⟩ := hcopies
  simp only [settle, hr]
  exact ⟨trivial, trivial, trivial, rfl, text, Fs.openAppend_file (Fs.rename_file ht w.path), hd⟩

end

/-! ## Runs -/

section

variable {w : AofWriter} {a : Ledger} (h : w.Attended a)

include h

theorem Attended.perform {r : Request} (hok : (w.perform r).2 = true) :
    (w.perform r).1.Attended (a.enter w r) := by
  cases r with
  | write line =>
    have hw := h.appends hok
    have e : a.enter w (.write line) = { a with during := a.during ++ [line] } := if_pos hok
    rw [e]
    refine ⟨(writes w line).aligned h.aligned, hw.always.trans h.always,
      (congrArg Option.isSome hw.fd).trans h.fd, ?_, hw.copies h.copies⟩
    obtain ⟨n, hn⟩ := h.file
    exact ⟨_, (congrArg _ hw.path).trans (hw.file n hn)⟩
  | rewrite s clocks =>
    cases hr : w.rewriting with
    | some p =>
      have e : (w.rewrite s clocks).1 = w := by simp [AofWriter.rewrite, hr]
      have ea : a.enter w (.rewrite s clocks) = a := if_pos (by rw [hr]; rfl)
      rw [AofWriter.perform, e, ea]
      exact h
    | none =>
      refine ⟨h.aligned.rewrite s clocks, ?_, ?_, ?_, ?_⟩ <;>
        simp only [AofWriter.perform, rewrite_idle hr]
      · exact h.always
      · exact h.fd
      · exact h.file
      · have ea : a.enter w (.rewrite s clocks) = { a with
            commands := (rewriteCommands s clocks).2
            recent := a.recent ++ a.during
            during := [] } := if_neg (by rw [hr]; decide)
        rw [ea]
        exact ⟨rfl, fun _ => rfl⟩
  | settle =>
    by_cases hr : w.rewriting = some .rename
    · obtain ⟨hidle, hpath, halways, hfd, text, hfile, -⟩ := h.settle_rename hr
      refine ⟨h.aligned.settle, halways.trans h.always, hfd, ⟨_, (congrArg _ hpath).trans hfile⟩, ?_⟩
      show w.settle.Copies _
      unfold Copies
      rw [hidle]
      exact trivial
    · obtain ⟨hl, hcopies⟩ := h.settle_early hr
      have ea : a.enter w .settle = a := if_neg hr
      rw [ea]
      obtain ⟨n, hn⟩ := h.file
      exact ⟨h.aligned.settle, hl.always.trans h.always, (congrArg Option.isSome hl.fd).trans h.fd,
        ⟨n, (congrArg _ hl.path).trans (hl.file.trans hn)⟩, hcopies⟩

/-- Everything acknowledged stays synced, or nothing has been acknowledged. -/
theorem Attended.flushed_perform {r : Request} (hok : (w.perform r).2 = true)
    (hr : Harmless w a r) (hf : w.Flushed a ∨ a.Blank) :
    (w.perform r).1.Flushed (a.enter w r) ∨ (a.enter w r).Blank := by
  cases r with
  | write line =>
    have e : a.enter w (.write line) = { a with during := a.during ++ [line] } := if_pos hok
    rw [e]
    exact .inl ((h.appends hok).flushed (hf.imp_right fun hb => ⟨hb, h.file⟩))
  | rewrite s clocks =>
    cases hidle : w.rewriting with
    | some p =>
      have e : (w.rewrite s clocks).1 = w := by simp [AofWriter.rewrite, hidle]
      have ea : a.enter w (.rewrite s clocks) = a := if_pos (by rw [hidle]; rfl)
      rw [AofWriter.perform, e, ea]
      exact hf
    | none =>
      have ea : a.enter w (.rewrite s clocks) = { a with
          commands := (rewriteCommands s clocks).2
          recent := a.recent ++ a.during
          during := [] } := if_neg (by rw [hidle]; decide)
      rw [AofWriter.perform, rewrite_idle hidle, ea]
      rcases hf with ⟨n, hn, hs, hc, segments, hseg, hsub⟩ | ⟨h1, h2, h3⟩
      · exact .inl ⟨n, hn, hs, hc, segments, hseg, by simpa using hsub⟩
      · exact .inr ⟨h1, by simp [h2, h3], rfl⟩
  | settle =>
    by_cases hren : w.rewriting = some .rename
    · have ea : a.enter w .settle =
          { a with compacted := a.commands, older := a.older ++ a.recent, recent := [] } :=
        if_pos hren
      obtain ⟨hd, hcommands⟩ := hr hren
      obtain ⟨-, hpath, -, -, text, hfile, htext⟩ := h.settle_rename hren
      rw [ea]
      rcases hcommands with hcommands | ⟨h1, h2⟩
      · -- the new file is empty, so there is nothing to sync
        have htext := htext hd
        rw [hcommands] at htext
        refine .inl ⟨_, (congrArg _ hpath).trans hfile, ?_, fun _ => ?_, [], ?_, ?_⟩
        · rw [htext]; rfl
        · rw [hcommands]
          exact htext ▸ List.prefix_rfl
        · exact htext
        · rw [hd]; exact List.Sublist.refl _
      · exact .inr ⟨by simp [h1, h2], rfl, hd⟩
    · have ea : a.enter w .settle = a := if_neg hren
      obtain ⟨hl, -⟩ := h.settle_early hren
      rw [ea]
      refine hf.imp_left ?_
      rintro ⟨n, hn, hrest⟩
      exact ⟨n, (congrArg _ hl.path).trans (hl.file.trans hn), hrest⟩

/-- If what is acknowledged still survives a crash, the step was harmless. -/
theorem Attended.harmless {r : Request} (hd : (w.perform r).1.Durable (a.enter w r)) :
    Harmless w a r := by
  cases r with
  | write line => exact trivial
  | rewrite s clocks => exact trivial
  | settle =>
    intro hren
    have ea : a.enter w .settle =
        { a with compacted := a.commands, older := a.older ++ a.recent, recent := [] } :=
      if_pos hren
    obtain ⟨-, hpath, -, -, text, hfile, -⟩ := h.settle_rename hren
    rw [ea] at hd
    obtain ⟨left, hleft, hc, segments, hseg, hsub⟩ := hd
    have hnil : left = [] := by
      rw [Fs.survives, show (w.perform .settle).1.path = w.path from hpath] at hleft
      rw [show (w.perform .settle).1.fs.file w.path = _ from hfile] at hleft
      exact (Option.some.inj hleft).symm
    constructor
    · -- a line ends with LF, so it is not in an empty text
      cases hdur : a.during with
      | nil => rfl
      | cons line rest =>
        have hmem : format line ∈ segments := hsub.subset (by simp [hdur])
        have hlf : '\n' ∈ segments.flatten :=
          List.mem_flatten.mpr ⟨_, hmem, by simp [format]⟩
        rw [← hseg, hnil] at hlf
        cases hlf
    · by_cases hold : a.older ++ a.recent = []
      · exact .inr (List.append_eq_nil_iff.mp hold)
      · have hpre := hc hold
        rw [hnil] at hpre
        refine .inl ?_
        cases hcmd : a.commands with
        | nil => rfl
        | cons c cs =>
          have := List.prefix_nil.mp hpre
          simp [commandText, hcmd] at this

end

def attended (path : Str) (fs : Fs) : AofWriter × Ledger :=
  ((create path .always fs).start, .empty)

theorem attended_start {fs : Fs} (hfs : fs.WF) (path : Str) :
    (attended path fs).1.Attended (attended path fs).2 := by
  obtain ⟨i, hwf, -, hn⟩ := wf_openAppend hfs path
  exact ⟨aligned_start hfs path .always, rfl, rfl, ⟨_, Fs.file_of_name hwf hn⟩, trivial⟩

def Succeeds (x : AofWriter × Ledger) (requests : List Request) : Prop :=
  Trace.Along attend (fun x r => (x.1.perform r).2 = true) x requests

/-- For every file system, every path and every sequence of writes, rewrites and completions
in which no system call fails: with policy `always` what is acknowledged survives a crash at
every moment, exactly if every rewrite that replaces the log does so with no line acknowledged
since it began and no command to stand for the lines acknowledged before. -/
theorem durable_iff (path : Str) (fs : Fs) (hfs : fs.WF) (requests : List Request)
    (hok : Succeeds (attended path fs) requests) :
    (∀ past, past <+: requests → (past.foldl attend (attended path fs)).1.Durable
        (past.foldl attend (attended path fs)).2) ↔
      Trace.Along attend (fun x r => Harmless x.1 x.2 r) (attended path fs) requests := by
  constructor
  · intro h
    refine Trace.along_of_reached fun past r hp => ?_
    have hattended : (past.foldl attend (attended path fs)).1.Attended
        (past.foldl attend (attended path fs)).2 :=
      Trace.Along.reached (J := fun x => x.1.Attended x.2) (fun hj hr => hj.perform hr)
        (attended_start hfs path) hok ((List.prefix_append past [r]).trans hp)
    have hd := h _ hp
    rw [List.foldl_append] at hd
    exact hattended.harmless hd
  · intro h past hp
    have hinv : (past.foldl attend (attended path fs)).1.Attended
          (past.foldl attend (attended path fs)).2 ∧
        ((past.foldl attend (attended path fs)).1.Flushed
            (past.foldl attend (attended path fs)).2 ∨
          (past.foldl attend (attended path fs)).2.Blank) :=
      Trace.Along.reached
        (J := fun x => x.1.Attended x.2 ∧ (x.1.Flushed x.2 ∨ x.2.Blank))
        (fun hj hr => ⟨hj.1.perform hr.1, hj.1.flushed_perform hr.1 hr.2 hj.2⟩)
        ⟨attended_start hfs path, .inr ⟨rfl, rfl, rfl⟩⟩ (hok.and h) hp
    rcases hinv.2 with hf | hb
    · exact hf.durable
    · exact durable_blank hinv.1 hb

/-- A rewrite of an empty store, done before the first write. -/
def early : List Request :=
  [.rewrite (InMemoryStore.create 1 Nat.one_pos) (Clocks.still 0), .settle, .settle, .settle,
    .write "SET a 1".toList]

theorem durable_iff_early : (early.foldl attend (attended "aof".toList .empty)).1.Durable
    (early.foldl attend (attended "aof".toList .empty)).2 := by
  refine (durable_iff "aof".toList .empty Fs.wf_empty early ?_).mpr ?_ early List.prefix_rfl
  · exact ⟨rfl, rfl, rfl, rfl, by decide, trivial⟩
  · exact ⟨trivial, fun _ => ⟨rfl, .inl rfl⟩, fun _ => ⟨rfl, .inl rfl⟩,
      fun _ => ⟨rfl, .inl rfl⟩, trivial, trivial⟩

def stored : InMemoryStore :=
  (InMemoryStore.create 1 Nat.one_pos).set "a".toList "1".toList none (Clock.still 0)

/-- Two acknowledged lines, one before a rewrite begins and one while it runs. -/
def replaced : List Request :=
  [.write "SET a 1".toList, .rewrite stored (Clocks.still 0), .settle,
    .write "SET b 2".toList, .settle, .settle, .settle]

/-- When the rewrite is done the log holds both lines, and a crash loses all of it. -/
theorem rewrite_unsynced :
    Succeeds (attended "aof".toList .empty) replaced ∧
      (replaced.foldl attend (attended "aof".toList .empty)).1.fs.read "aof".toList =
        some "SET a 1\nSET b 2\n".toList ∧
      (replaced.foldl attend (attended "aof".toList .empty)).1.fs.survives "aof".toList =
        some [] ∧
      ¬ (replaced.foldl attend (attended "aof".toList .empty)).1.Durable
        (replaced.foldl attend (attended "aof".toList .empty)).2 := by
  have hleft : (replaced.foldl attend (attended "aof".toList .empty)).1.fs.survives
      "aof".toList = some [] := by decide
  refine ⟨⟨by decide, by decide, by decide, by decide, by decide, by decide, by decide, trivial⟩,
    by decide, hleft, ?_⟩
  rintro ⟨text, htext, hc, -⟩
  obtain rfl : [] = text := Option.some.inj (hleft.symm.trans htext)
  have hpre := hc (by decide)
  revert hpre
  decide

end AofWriter

end MiniStore
