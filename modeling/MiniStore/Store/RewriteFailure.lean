import MiniStore.Store.AofRewrite

/-!
# A rewrite that fails

Each of the calls a rewrite awaits can be rejected, and so can the reopening after
the rename. The `finally` block resets the flag and the buffer and nothing else
(`fail`). Up to the last write to the temporary file the descriptor is still open on
the log, and the writer is as good as new; from then on it is closed, and no later
write and no later rewrite gets through (`failed_rewrite`).
-/

namespace MiniStore

open InMemoryStore

namespace AofWriter

/-- What fails, and what it leaves in the temporary file. -/
inductive Failure where
  | mkdir
  | writeFile (left : Option Str)
  | appendFile (left : Str)
  | rename
  | reopen
  deriving DecidableEq

namespace Failure

/-- The call that is pending when it fails. -/
def Fits : Failure → Option Pending → Prop
  | .mkdir, some (.mkdir _) => True
  | .writeFile _, some (.writeFile _) => True
  | .appendFile _, some (.appendFile _) => True
  | .rename, some .rename => True
  | .reopen, some .rename => True
  | _, _ => False

/-- The descriptor has not been closed yet. -/
def BeforeClose : Failure → Prop
  | .mkdir | .writeFile _ | .appendFile _ => True
  | .rename | .reopen => False

/-- The files when the call fails; the reopening comes after the rename. -/
def leaves (f : Failure) (w : AofWriter) : Fs :=
  match f with
  | .mkdir | .writeFile none | .rename => w.fs
  | .writeFile (some text) => w.fs.writeFile w.tempPath text
  | .appendFile text => w.fs.appendFile w.tempPath text
  | .reopen => w.fs.rename w.tempPath w.path

theorem Fits.rename {f : Failure} {p : Option Pending} (hf : f.Fits p) (hb : ¬ f.BeforeClose) :
    p = some .rename := by
  cases f with
  | mkdir | writeFile | appendFile => exact absurd trivial hb
  | rename | reopen =>
    cases p with
    | none => exact False.elim hf
    | some pending =>
      cases pending with
      | rename => rfl
      | _ => exact False.elim hf

end Failure

def fail (w : AofWriter) (f : Failure) : AofWriter := { w with fs := f.leaves w }.reject

/-- The lines whose `write` returned. -/
def logged : AofWriter → List Step → List Str
  | _, [] => []
  | w, .write line :: steps =>
    match w.write line with
    | (w, true) => format line :: logged w steps
    | (w, false) => logged w steps
  | w, .settle :: steps => logged w.settle steps

/-- The log holds `text`, later writes append to it, and a later rewrite runs to its end. -/
structure Intact (w : AofWriter) (text : Str) : Prop where
  holds : w.fs.read w.path = some text
  writes : ∀ lines : List Str, (run w (lines.map .write)).2 = true ∧
    (run w (lines.map .write)).1.fs.read w.path = some (text ++ (lines.map format).flatten)
  rewrites : ∀ (lines : List Str) (s : InMemoryStore) (clocks : Clocks),
    ((run w (lines.map .write)).1.rewrite s clocks).1.settle.settle.settle.rewriting = none ∧
      ((run w (lines.map .write)).1.rewrite s clocks).1.settle.settle.settle.fs.read w.path =
        some (commandText (rewriteCommands s clocks).2)

/-- The writers reached from a started one when no rewrite fails after the closing. -/
inductive Spared (path : Str) (fsyncPolicy : FsyncPolicy) (fs : Fs) : AofWriter → Prop
  | start : Spared path fsyncPolicy fs (create path fsyncPolicy fs).start
  | write {w : AofWriter} (line : Str) : Spared path fsyncPolicy fs w →
      Spared path fsyncPolicy fs (w.write line).1
  | rewrite {w : AofWriter} (s : InMemoryStore) (clocks : Clocks) :
      Spared path fsyncPolicy fs w → Spared path fsyncPolicy fs (w.rewrite s clocks).1
  | settle {w : AofWriter} : Spared path fsyncPolicy fs w → Spared path fsyncPolicy fs w.settle
  | fail {w : AofWriter} (f : Failure) : Spared path fsyncPolicy fs w → f.Fits w.rewriting →
      f.BeforeClose → Spared path fsyncPolicy fs (w.fail f)

/-! ## An open descriptor -/

section

variable {w : AofWriter} {i : Nat} {text : Str}

theorem Serving.fail (h : w.Serving i text) {f : Failure} (hf : f.BeforeClose) :
    (w.fail f).Serving i text := by
  cases f with
  | mkdir => exact h.congr rfl rfl rfl
  | writeFile left =>
    cases left with
    | none => exact h.congr rfl rfl rfl
    | some left => exact (h.writeTemp left).congr rfl rfl rfl
  | appendFile left => exact (h.appendTemp left).congr rfl rfl rfl
  | rename => cases hf
  | reopen => cases hf

theorem Serving.read (h : w.Serving i text) : w.fs.read w.path = some text := by
  rw [Fs.read, h.name]
  exact h.content

theorem Serving.writes (lines : List Str) : ∀ {w : AofWriter} {text : Str}, w.Serving i text →
    (run w (lines.map .write)).2 = true ∧
      (run w (lines.map .write)).1.rewriting = w.rewriting ∧
      (run w (lines.map .write)).1.Serving i (text ++ (lines.map format).flatten) := by
  induction lines with
  | nil => intro w text h; exact ⟨rfl, rfl, by simpa [run] using h⟩
  | cons line lines ih =>
    intro w text h
    obtain ⟨w', e, hs, hr, -⟩ := h.write line
    obtain ⟨hok, hrun, hserving⟩ := ih hs
    simp only [List.map_cons, AofWriter.run, e, Bool.true_and]
    exact ⟨hok, hrun.trans hr, by simpa [List.append_assoc] using hserving⟩

/-- An open descriptor on the log is all that writes and rewrites need. -/
theorem Serving.intact (h : w.Serving i text) (hr : w.rewriting = none) : w.Intact text := by
  refine ⟨h.read, fun lines => ?_, fun lines s clocks => ?_⟩
  · obtain ⟨hok, -, hs⟩ := Serving.writes lines h
    have hread := hs.read
    rw [path_run] at hread
    exact ⟨hok, hread⟩
  · obtain ⟨-, hrun, hs⟩ := Serving.writes lines h
    have hread := read_rewritten hs (hrun.trans hr) s clocks
    rw [path_run] at hread
    exact hread

end

/-! ## The attempt -/

/-- A rewrite on its way: `text` is what the log holds as long as the descriptor is open. -/
inductive Attempt (w : AofWriter) (text : Str) : Prop
  | opened (i : Nat) (serving : w.Serving i text)
      (pending : w.rewriting ≠ some .rename)
  | closed (fd : Nat) (closed : w.fd = some fd ∧ w.fs.fds[fd]? = some none)
      (pending : w.rewriting = some .rename)
  | ended (idle : w.rewriting = none)

section

variable {w : AofWriter} {text : Str}

theorem rewriting_write (w : AofWriter) (line : Str) :
    (w.write line).1.rewriting = w.rewriting := by
  unfold write
  split
  · rfl
  · split
    · rfl
    · split
      · split <;> rfl
      · rfl

theorem Attempt.write (h : Attempt w text) (line : Str) :
    Attempt (w.write line).1 (if (w.write line).2 then text ++ format line else text) := by
  cases h with
  | opened i serving pending =>
    obtain ⟨w', e, hs, hr, -⟩ := serving.write line
    rw [e]
    exact .opened i hs (by rwa [hr])
  | closed fd closed pending =>
    rw [write_closed closed.1 closed.2]
    exact .closed fd closed pending
  | ended idle => exact .ended ((rewriting_write w line).trans idle)

/-- Nothing is left open once the descriptor has been closed. -/
theorem attempt_closeAndRename {i : Nat} (h : w.Serving i text) :
    Attempt w.closeAndRename text := by
  obtain ⟨fd, hfd, hclosed, e⟩ := h.closeAndRename
  rw [e]
  exact .closed fd ⟨hfd, hclosed⟩ rfl

theorem Attempt.settle (h : Attempt w text) : Attempt w.settle text := by
  cases h with
  | opened i serving pending =>
    cases hr : w.rewriting with
    | none =>
      simp only [AofWriter.settle, hr]
      exact .ended hr
    | some p =>
      cases p with
      | mkdir commands =>
        simp only [AofWriter.settle, hr]
        exact .opened i (serving.congr rfl rfl rfl) (fun e => by cases e)
      | writeFile commands =>
        have hs := serving.writeTemp (commandText commands)
        simp only [AofWriter.settle, hr]
        split
        · exact .opened i (hs.congr rfl rfl rfl) (fun e => by cases e)
        · exact attempt_closeAndRename (hs.congr rfl rfl rfl)
      | appendFile buf =>
        simp only [AofWriter.settle, hr]
        exact attempt_closeAndRename ((serving.appendTemp buf.flatten).congr rfl rfl rfl)
      | rename => exact absurd hr pending
  | closed fd closed pending =>
    simp only [AofWriter.settle, pending]
    exact .ended rfl
  | ended idle =>
    simp only [AofWriter.settle, idle]
    exact .ended idle

theorem Attempt.run (steps : List Step) : ∀ {w : AofWriter} {text : Str}, Attempt w text →
    Attempt (run w steps).1 (text ++ (logged w steps).flatten) := by
  induction steps with
  | nil => intro w text h; simpa [AofWriter.run, logged] using h
  | cons step steps ih =>
    intro w text h
    cases step with
    | settle => exact ih h.settle
    | write line =>
      have hw := ih (h.write line)
      simp only [AofWriter.run, logged]
      cases e : w.write line with
      | mk w' ok =>
        rw [e] at hw
        cases ok with
        | true => simpa [List.append_assoc] using hw
        | false => exact hw

end

/-! ## Every failure -/

section

variable {path : Str} {fsyncPolicy : FsyncPolicy} {fs : Fs} {w : AofWriter}

theorem Attempt.serving {text : Str} (h : Attempt w text) {f : Failure}
    (hf : f.Fits w.rewriting) (hb : f.BeforeClose) : ∃ i, w.Serving i text := by
  cases h with
  | opened i serving pending => exact ⟨i, serving⟩
  | closed fd closed pending =>
    rw [pending] at hf
    cases f <;> first | exact absurd hf id | exact absurd hb id
  | ended idle =>
    rw [idle] at hf
    cases f <;> exact absurd hf id

/-- After the closing it stays closed, and every write throws. -/
theorem Attempt.write_fails {text : Str} (h : Attempt w text) {f : Failure}
    (hf : f.Fits w.rewriting) (hb : ¬ f.BeforeClose) (line : Str) :
    ((w.fail f).write line).2 = false := by
  have hpending := hf.rename hb
  cases h with
  | opened i serving pending => exact absurd hpending pending
  | ended idle => rw [idle] at hpending; cases hpending
  | closed fd closed pending =>
    have hfds : (w.fail f).fs.fds = w.fs.fds := by
      cases f with
      | rename => rfl
      | reopen =>
        show (w.fs.rename w.tempPath w.path).fds = _
        unfold Fs.rename
        split <;> rfl
      | mkdir => exact absurd trivial hb
      | writeFile left => exact absurd trivial hb
      | appendFile left => exact absurd trivial hb
    rw [write_closed (w := w.fail f) closed.1 (by rw [hfds]; exact closed.2)]

/-- Where a rewrite can stand, once the lines before it are put aside. -/
theorem Phase.attempt {commands lines : List Str} (h : Phase commands w lines) :
    ∃ text, Attempt w text := by
  cases h with
  | early i text serving pending buffer =>
    exact ⟨text, .opened i serving (by rcases pending with e | e <;> simp [e])⟩
  | append i text serving prepared pending buffer =>
    exact ⟨text, .opened i serving (by simp [pending])⟩
  | rename wf fd closed prepared pending buffer => exact ⟨[], .closed fd closed pending⟩
  | done i serving pending buffer => exact ⟨[], .ended pending⟩

theorem Spared.phase (hfs : fs.WF) (h : Spared path fsyncPolicy fs w) : InPhase path w := by
  induction h with
  | start => exact inPhase_start hfs path fsyncPolicy
  | @write _ line _ ih => exact ih.write line
  | @rewrite _ s clocks _ ih => exact ih.rewrite s clocks
  | @settle _ _ ih => exact ih.settle
  | @fail w f _ hf hb ih =>
    obtain ⟨hpath, commands, lines, hp⟩ := ih
    obtain ⟨text, ha⟩ := hp.attempt
    obtain ⟨i, hs⟩ := ha.serving hf hb
    -- the log counts as one kept line of a rewrite to nothing
    exact ⟨hpath, [], [text], .done i (by simpa [commandText] using hs.fail hb) rfl rfl⟩

end

/-- For every writer reached when no rewrite failed after the closing, idle and with a log
that holds `text`, every store, every order of writes and completions, and every failure of
the call that is then pending: the log holds `text` and every line written during the
attempt, later writes append to it and a later rewrite runs to its end, exactly if what
failed is `mkdir`, `writeFile` or `appendFile`. -/
theorem failed_rewrite (path : Str) (fsyncPolicy : FsyncPolicy) (fs : Fs) (hfs : fs.WF)
    (w : AofWriter) (hw : Spared path fsyncPolicy fs w) (hidle : w.rewriting = none)
    (text : Str) (htext : w.fs.read path = some text) (s : InMemoryStore) (clocks : Clocks)
    (steps : List Step) (f : Failure)
    (hf : f.Fits (run (w.rewrite s clocks).1 steps).1.rewriting) :
    ((run (w.rewrite s clocks).1 steps).1.fail f).Intact
        (text ++ (logged (w.rewrite s clocks).1 steps).flatten) ↔ f.BeforeClose := by
  obtain ⟨hpath, commands, lines, hp⟩ := hw.phase hfs
  obtain ⟨i, hs⟩ := hp.fst_of_idle hidle
  have hread := hs.read
  rw [hpath, htext] at hread
  rw [← Option.some.inj hread] at hs
  have hattempt : Attempt (w.rewrite s clocks).1 text := by
    rw [rewrite_idle hidle]
    exact .opened i (hs.congr rfl rfl rfl) (fun e => by cases e)
  have hrun := hattempt.run steps
  constructor
  · intro hintact
    by_contra hb
    have hwrite := (hintact.writes [[]]).1
    have hfails := hrun.write_fails hf hb []
    simp only [List.map_cons, List.map_nil, run, Bool.and_true] at hwrite
    rw [hfails] at hwrite
    cases hwrite
  · intro hb
    obtain ⟨j, hj⟩ := hrun.serving hf hb
    exact (hj.fail hb).intact rfl

/-- Two lines are written while a rewrite runs, and the appending of the first fails. -/
theorem failed_rewrite_appendFile :
    ((run compacting [.settle, .write "SET a 1".toList, .settle, .write "SET b 2".toList]).1.fail
      (.appendFile "SET".toList)).Intact "SET a 1\nSET b 2\n".toList :=
  (failed_rewrite "aof".toList .no Fs.empty Fs.wf_empty _ .start rfl [] (by decide)
    (InMemoryStore.create 1 (by decide)) (Clocks.still 0)
    [.settle, .write "SET a 1".toList, .settle, .write "SET b 2".toList]
    (.appendFile "SET".toList) trivial).mpr trivial

/-- After a failed `rename` the next write throws. -/
theorem failed_rename :
    Failure.Fits .rename (run compacting [.settle, .settle]).1.rewriting ∧
      (((run compacting [.settle, .settle]).1.fail .rename).write "SET a 1".toList).2 = false ∧
      ¬ ((run compacting [.settle, .settle]).1.fail .rename).Intact [] := by
  refine ⟨trivial, by decide, fun h => ?_⟩
  have hwrite := (h.writes ["SET a 1".toList]).1
  revert hwrite
  decide

end AofWriter

end MiniStore
