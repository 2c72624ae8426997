import MiniStore.Store.AofWriter

/-!
# A rewrite and the writes that come in between

`Phase` describes a writer at every point of a rewrite: which file the descriptor
is open on, what the temporary file holds, and which lines are `kept`. A line
written while the rewrite waits for `appendFile` or `rename` is not kept
(`exposed`): in the one window it goes to the old file only, in the other the
descriptor is closed. `phase_run` follows a rewrite through any order of writes
and completions.
-/

namespace MiniStore

open InMemoryStore

namespace AofWriter

/-- What happens between the suspension points of a rewrite. -/
inductive Step where
  | write (line : Str)
  | settle

/-- The writer after the steps, and whether every write succeeded. -/
def run : AofWriter → List Step → AofWriter × Bool
  | w, [] => (w, true)
  | w, .write line :: steps =>
    match w.write line with
    | (w, ok) => ((run w steps).1, ok && (run w steps).2)
  | w, .settle :: steps => run w.settle steps

/-- The lines passed to `write`, formatted. -/
def written : List Step → List Str
  | [] => []
  | .write line :: steps => format line :: written steps
  | .settle :: steps => written steps

/-- The rewrite is past its snapshot of the buffer and not done. -/
def exposed (w : AofWriter) : Bool :=
  match w.rewriting with
  | some (.appendFile _) | some .rename => true
  | _ => false

/-- The lines written while the rewrite is not exposed. -/
def kept : AofWriter → List Step → List Str
  | _, [] => []
  | w, .write line :: steps =>
    if w.exposed then kept (w.write line).1 steps
    else format line :: kept (w.write line).1 steps
  | w, .settle :: steps => kept w.settle steps

/-- No line is written while the rewrite is exposed. -/
def Sheltered (w : AofWriter) (steps : List Step) : Prop :=
  ∀ past line rest, steps = past ++ .write line :: rest → (w.run past).1.exposed = false

/-- The writers reachable from a started one. -/
inductive Reachable (path : Str) (fsyncPolicy : FsyncPolicy) (fs : Fs) : AofWriter → Prop
  | start : Reachable path fsyncPolicy fs (create path fsyncPolicy fs).start
  | write {w : AofWriter} (line : Str) : Reachable path fsyncPolicy fs w →
      Reachable path fsyncPolicy fs (w.write line).1
  | rewrite {w : AofWriter} (s : InMemoryStore) (clocks : Clocks) :
      Reachable path fsyncPolicy fs w → Reachable path fsyncPolicy fs (w.rewrite s clocks).1
  | settle {w : AofWriter} : Reachable path fsyncPolicy fs w → Reachable path fsyncPolicy fs w.settle

/-! ## The phases of a rewrite -/

theorem tempPath_ne (w : AofWriter) : w.tempPath ≠ w.path := by
  intro e
  have := congrArg List.length e
  simp [tempPath] at this

/-- The descriptor is open on the file at `#path`, which holds `text`. -/
structure Serving (w : AofWriter) (i : Nat) (text : Str) : Prop where
  wf : w.fs.WF
  fd : ∃ fd, w.fd = some fd ∧ w.fs.fds[fd]? = some (some i)
  name : w.fs.names.get? w.path = some i
  content : w.fs.content i = some text

/-- The file at `#tempPath` holds `text`. -/
def Prepared (w : AofWriter) (text : Str) : Prop :=
  ∃ j, w.fs.names.get? w.tempPath = some j ∧ w.fs.content j = some text

/-- A writer during the rewrite to `commands`, with the lines kept so far; `text` is
what the log held when the rewrite began, with those lines. -/
inductive Phase (commands : List Str) (w : AofWriter) (lines : List Str) : Prop
  | early (i : Nat) (text : Str) (serving : Serving w i text)
      (pending : w.rewriting = some (.mkdir commands) ∨ w.rewriting = some (.writeFile commands))
      (buffer : w.rewriteBuffer = some lines)
  | append (i : Nat) (text : Str) (serving : Serving w i text)
      (prepared : Prepared w (commandText commands))
      (pending : w.rewriting = some (.appendFile lines)) (buffer : w.rewriteBuffer = none)
  | rename (wf : w.fs.WF) (fd : Nat) (closed : w.fd = some fd ∧ w.fs.fds[fd]? = some none)
      (prepared : Prepared w (commandText commands ++ lines.flatten))
      (pending : w.rewriting = some .rename) (buffer : w.rewriteBuffer = none)
  | done (i : Nat) (serving : Serving w i (commandText commands ++ lines.flatten))
      (pending : w.rewriting = none) (buffer : w.rewriteBuffer = none)

/-! ## A write -/

theorem Serving.write {w : AofWriter} {i : Nat} {text : Str} (h : w.Serving i text) (line : Str) :
    ∃ w', w.write line = (w', true) ∧ w'.Serving i (text ++ format line) ∧
      w'.rewriting = w.rewriting ∧
      w'.rewriteBuffer = w.rewriteBuffer.map (· ++ [format line]) ∧
      ∀ t, w.Prepared t → w'.Prepared t := by
  obtain ⟨fd, hfd, hopen⟩ := h.fd
  have hw : w.fs.writeFd fd (format line) =
      some { w.fs with inodes := w.fs.inodes.modify i (Fs.append (format line)) } := by
    simp [Fs.writeFd, hopen]
  have hc := Fs.content_append w.fs (format line) i
  have hprep : ∀ t, w.Prepared t → ∃ j, w.fs.names.get? w.tempPath = some j ∧
      Fs.content { w.fs with inodes := w.fs.inodes.modify i (Fs.append (format line)) } j =
        some t := by
    rintro t ⟨j, hj, ht⟩
    have hne : i ≠ j := by
      rintro rfl
      exact tempPath_ne w (h.wf.inj _ _ i hj h.name)
    exact ⟨j, hj, by rw [hc, if_neg hne, ht]⟩
  have hi : Fs.content { w.fs with inodes := w.fs.inodes.modify i (Fs.append (format line)) } i =
      some (text ++ format line) := by rw [hc, if_pos rfl, h.content]; rfl
  unfold AofWriter.write
  simp only [hfd, hw]
  by_cases hp : w.fsyncPolicy = .always
  · rw [if_pos hp]
    have hs : Fs.syncFd { w.fs with inodes := w.fs.inodes.modify i (Fs.append (format line)) } fd =
        some { w.fs with inodes :=
          (w.fs.inodes.modify i (Fs.append (format line))).modify i Fs.sync } := by
      simp [Fs.syncFd, hopen]
    simp only [hs]
    refine ⟨_, rfl, ⟨h.wf.of_names rfl (by simp), ⟨fd, rfl, hopen⟩, h.name, ?_⟩, rfl, rfl, ?_⟩
    · exact (Fs.content_sync _ i i).trans hi
    · rintro t ht
      obtain ⟨j, hj, ht⟩ := hprep t ht
      exact ⟨j, hj, (Fs.content_sync _ i j).trans ht⟩
  · rw [if_neg hp]
    exact ⟨_, rfl, ⟨h.wf.of_names rfl (by simp), ⟨fd, rfl, hopen⟩, h.name, hi⟩, rfl, rfl, hprep⟩

theorem write_closed {w : AofWriter} {fd : Nat} (hfd : w.fd = some fd)
    (hc : w.fs.fds[fd]? = some none) (line : Str) : w.write line = (w, false) := by
  simp [AofWriter.write, hfd, Fs.writeFd, hc]

section

variable {commands : List Str} {w : AofWriter} {lines : List Str}

/-- A write that is not exposed succeeds and its line is kept. -/
theorem Phase.write_kept (h : Phase commands w lines) (he : w.exposed = false) (line : Str) :
    (w.write line).2 = true ∧ Phase commands (w.write line).1 (lines ++ [format line]) := by
  cases h with
  | early i text serving pending buffer =>
    obtain ⟨w', e, hs, hr, hb, -⟩ := serving.write line
    rw [e]
    exact ⟨rfl, .early i _ hs (by rwa [hr]) (by rw [hb, buffer]; rfl)⟩
  | append i text serving prepared pending buffer => simp [exposed, pending] at he
  | rename wf fd closed prepared pending buffer => simp [exposed, pending] at he
  | done i serving pending buffer =>
    obtain ⟨w', e, hs, hr, hb, -⟩ := serving.write line
    rw [e]
    refine ⟨rfl, .done i ?_ (by rw [hr, pending]) (by rw [hb, buffer]; rfl)⟩
    simpa [List.append_assoc] using hs

/-- An exposed write leaves the rewrite as it is: its line is lost. -/
theorem Phase.write_exposed (h : Phase commands w lines) (he : w.exposed = true) (line : Str) :
    Phase commands (w.write line).1 lines := by
  cases h with
  | early i text serving pending buffer => rcases pending with e | e <;> simp [exposed, e] at he
  | append i text serving prepared pending buffer =>
    obtain ⟨w', e, hs, hr, hb, hp⟩ := serving.write line
    rw [e]
    exact .append i _ hs (hp _ prepared) (by rw [hr, pending]) (by rw [hb, buffer]; rfl)
  | rename wf fd closed prepared pending buffer =>
    rw [write_closed closed.1 closed.2]
    exact .rename wf fd closed prepared pending buffer
  | done i serving pending buffer => simp [exposed, pending] at he

end

/-! ## A completion -/

section

variable {w : AofWriter} {i : Nat} {text : Str} (h : w.Serving i text)

include h

theorem Serving.congr {v : AofWriter} (hpath : v.path = w.path) (hfd : v.fd = w.fd)
    (hfs : v.fs = w.fs) : v.Serving i text :=
  ⟨by rw [hfs]; exact h.wf, by rw [hfd, hfs]; exact h.fd, by rw [hpath, hfs]; exact h.name,
    by rw [hfs]; exact h.content⟩

theorem Serving.writeTemp (t : Str) :
    Serving { w with fs := w.fs.writeFile w.tempPath t } i text := by
  obtain ⟨hwf, hfds, -, hother⟩ := Fs.writeFile_spec h.wf w.tempPath t
  obtain ⟨hn, hc⟩ := hother w.path i (tempPath_ne w).symm h.name
  obtain ⟨fd, hfd, hopen⟩ := h.fd
  exact ⟨hwf, ⟨fd, hfd, by rw [← hopen, ← hfds]⟩, hn, hc.trans h.content⟩

theorem Serving.appendTemp (t : Str) :
    Serving { w with fs := w.fs.appendFile w.tempPath t } i text := by
  obtain ⟨hwf, hfds, -, hn, hc⟩ := Fs.resolve_spec h.wf w.tempPath
  obtain ⟨fd, hfd, hopen⟩ := h.fd
  have e : w.fs.appendFile w.tempPath t = { (w.fs.resolve w.tempPath).1 with
      inodes := (w.fs.resolve w.tempPath).1.inodes.modify (w.fs.resolve w.tempPath).2
        (Fs.append t) } := rfl
  have hne := Fs.resolve_ne h.wf (tempPath_ne w).symm h.name
  refine ⟨?_, ⟨fd, hfd, ?_⟩, ?_, ?_⟩ <;> rw [e]
  · exact hwf.of_names rfl (by simp)
  · rw [← hopen, ← hfds]
  · exact (hn w.path (tempPath_ne w).symm).trans h.name
  · rw [Fs.content_append, if_neg hne, hc i (h.wf.lt _ _ h.name)]
    exact h.content

/-- Between the last write to the temporary file and the rename. -/
theorem Serving.closeAndRename :
    ∃ fd, w.fd = some fd ∧ (w.fs.closeFd fd).fds[fd]? = some none ∧
      w.closeAndRename = { w with fs := w.fs.closeFd fd, rewriting := some .rename } := by
  obtain ⟨fd, hfd, hopen⟩ := h.fd
  have hlt : fd < w.fs.fds.length := (List.getElem?_eq_some_iff.mp hopen).1
  exact ⟨fd, hfd, by simp [Fs.closeFd, hlt], by simp only [AofWriter.closeAndRename, hfd, hopen]⟩

theorem Serving.phase_rename {commands lines : List Str}
    (hp : w.Prepared (commandText commands ++ lines.flatten))
    (hb : w.rewriteBuffer = none) : Phase commands w.closeAndRename lines := by
  obtain ⟨fd, hfd, hclosed, e⟩ := h.closeAndRename
  rw [e]
  exact .rename (h.wf.of_names rfl rfl) fd ⟨hfd, hclosed⟩ hp rfl hb

end

/-- The descriptor opened after the rename serves the new file. -/
theorem settle_rename {w : AofWriter} (h : w.fs.WF) {text : Str} (hp : w.Prepared text)
    (hr : w.rewriting = some .rename) :
    ∃ i, w.settle.Serving i text ∧ w.settle.rewriting = none ∧ w.settle.rewriteBuffer = none := by
  obtain ⟨j, hj, ht⟩ := hp
  obtain ⟨hw, hn, hc⟩ := Fs.rename_spec h hj w.path
  have e : w.settle = { w with
      fs := { w.fs.rename w.tempPath w.path with
        fds := (w.fs.rename w.tempPath w.path).fds ++ [some j] }
      fd := some (w.fs.rename w.tempPath w.path).fds.length
      rewriting := none
      rewriteBuffer := none } := by
    simp only [settle, hr, Fs.openAppend_some hn]
  rw [e]
  exact ⟨j, ⟨hw.of_names rfl rfl, ⟨_, rfl, by simp⟩, hn, (hc j).trans ht⟩, rfl, rfl⟩

theorem settle_writeFile {commands lines : List Str} {w : AofWriter} {i : Nat} {text : Str}
    (h : w.Serving i text) (hr : w.rewriting = some (.writeFile commands))
    (hb : w.rewriteBuffer = some lines) : Phase commands w.settle lines := by
  obtain ⟨-, -, ⟨j, hj, ht⟩, -⟩ := Fs.writeFile_spec h.wf w.tempPath (commandText commands)
  -- the writer between the completion of `writeFile` and the next call
  generalize hv : { w with
    fs := w.fs.writeFile w.tempPath (commandText commands)
    rewriteBuffer := none } = v
  have hs : v.Serving i text := by
    subst hv
    exact (h.writeTemp (commandText commands)).congr rfl rfl rfl
  have hp : v.Prepared (commandText commands) := by subst hv; exact ⟨j, hj, ht⟩
  have hb' : v.rewriteBuffer = none := by subst hv; rfl
  have e : w.settle =
      if lines.length > 0 then { v with rewriting := some (.appendFile lines) }
      else v.closeAndRename := by
    subst hv; simp [settle, hr, hb]
  rw [e]
  split
  · exact .append i text (hs.congr rfl rfl rfl) hp rfl hb'
  · next hl =>
    obtain rfl : lines = [] := List.length_eq_zero_iff.mp (by omega)
    exact hs.phase_rename (by simpa using hp) hb'

theorem settle_appendFile {commands lines : List Str} {w : AofWriter} {i : Nat} {text : Str}
    (h : w.Serving i text) (hp : w.Prepared (commandText commands))
    (hr : w.rewriting = some (.appendFile lines)) (hb : w.rewriteBuffer = none) :
    Phase commands w.settle lines := by
  obtain ⟨j, hj, ht⟩ := hp
  obtain ⟨-, -, hn, hc⟩ := Fs.appendFile_spec h.wf hj ht lines.flatten
  have e : w.settle =
      { w with fs := w.fs.appendFile w.tempPath lines.flatten }.closeAndRename := by
    simp only [settle, hr]
  rw [e]
  exact (h.appendTemp lines.flatten).phase_rename ⟨j, by rw [← hj, ← hn]; rfl, hc⟩ hb

section

variable {commands : List Str} {w : AofWriter} {lines : List Str}

theorem Phase.settle (h : Phase commands w lines) : Phase commands w.settle lines := by
  cases h with
  | early i text serving pending buffer =>
    rcases pending with hr | hr
    · have e : w.settle = { w with rewriting := some (.writeFile commands) } := by
        simp only [AofWriter.settle, hr]
      rw [e]
      exact .early i text (serving.congr rfl rfl rfl) (.inr rfl) buffer
    · exact settle_writeFile serving hr buffer
  | append i text serving prepared pending buffer =>
    exact settle_appendFile serving prepared pending buffer
  | rename wf fd closed prepared pending buffer =>
    obtain ⟨i, hs, hr, hb⟩ := settle_rename wf prepared pending
    exact .done i hs hr hb
  | done i serving pending buffer =>
    have e : w.settle = w := by simp only [AofWriter.settle, pending]
    rw [e]
    exact .done i serving pending buffer

/-- Through any order of writes and completions, the rewrite keeps the kept lines. -/
theorem Phase.run (steps : List Step) : ∀ {w : AofWriter} {lines : List Str},
    Phase commands w lines → Phase commands (run w steps).1 (lines ++ kept w steps) := by
  induction steps with
  | nil => intro w lines h; simpa [AofWriter.run, kept] using h
  | cons step steps ih =>
    intro w lines h
    cases step with
    | settle => exact ih h.settle
    | write line =>
      simp only [AofWriter.run, kept]
      cases he : w.exposed with
      | true => exact ih (h.write_exposed he line)
      | false =>
        have := ih (h.write_kept he line).2
        simpa [List.append_assoc] using this

theorem Phase.fst_of_idle (h : Phase commands w lines) (hr : w.rewriting = none) :
    ∃ i, w.Serving i (commandText commands ++ lines.flatten) := by
  cases h with
  | early i text serving pending buffer => rcases pending with e | e <;> simp [hr] at e
  | append i text serving prepared pending buffer => simp [hr] at pending
  | rename wf fd closed prepared pending buffer => simp [hr] at pending
  | done i serving pending buffer => exact ⟨i, serving⟩

end

/-! ## Started writers -/

theorem path_write (w : AofWriter) (line : Str) : (w.write line).1.path = w.path := by
  unfold write
  split
  · rfl
  · split
    · rfl
    · split
      · split <;> rfl
      · rfl

theorem path_closeAndRename (w : AofWriter) : w.closeAndRename.path = w.path := by
  unfold closeAndRename
  split
  · rfl
  · split <;> rfl

theorem path_settle (w : AofWriter) : w.settle.path = w.path := by
  unfold settle
  split
  · rfl
  · rfl
  · dsimp only
    split
    · rfl
    · exact path_closeAndRename _
  · exact path_closeAndRename _
  · rfl

theorem path_rewrite (w : AofWriter) (s : InMemoryStore) (clocks : Clocks) :
    (w.rewrite s clocks).1.path = w.path := by
  unfold rewrite; split <;> rfl

theorem path_run (steps : List Step) : ∀ w : AofWriter, (run w steps).1.path = w.path := by
  induction steps with
  | nil => intro w; rfl
  | cons step steps ih =>
    intro w
    cases step with
    | settle => exact (ih w.settle).trans (path_settle w)
    | write line => exact (ih (w.write line).1).trans (path_write w line)

theorem rewrite_idle {w : AofWriter} (hr : w.rewriting = none) (s : InMemoryStore)
    (clocks : Clocks) : (w.rewrite s clocks).1 = { w with
      rewriting := some (.mkdir (rewriteCommands s clocks).2)
      rewriteBuffer := some [] } := by
  simp [rewrite, hr]

theorem phase_rewrite {w : AofWriter} {i : Nat} {text : Str} (h : w.Serving i text)
    (hr : w.rewriting = none) (s : InMemoryStore) (clocks : Clocks) :
    Phase (rewriteCommands s clocks).2 (w.rewrite s clocks).1 [] := by
  rw [rewrite_idle hr]
  exact .early i text (h.congr rfl rfl rfl) (.inl rfl) rfl

theorem read_rewritten {w : AofWriter} {i : Nat} {text : Str} (hw : w.Serving i text)
    (hr : w.rewriting = none) (s : InMemoryStore) (clocks : Clocks) :
    (w.rewrite s clocks).1.settle.settle.settle.rewriting = none ∧
      (w.rewrite s clocks).1.settle.settle.settle.fs.read w.path =
        some (commandText (rewriteCommands s clocks).2) := by
  have hidle : (w.rewrite s clocks).1.settle.settle.settle.rewriting = none := by
    -- the writer between the completion of `writeFile` and the closing of the descriptor
    generalize hv : { w with
      fs := w.fs.writeFile w.tempPath (commandText (rewriteCommands s clocks).2)
      rewriting := some (.writeFile (rewriteCommands s clocks).2)
      rewriteBuffer := none } = v
    have hs : v.Serving i text := by
      subst hv
      exact (hw.writeTemp (commandText (rewriteCommands s clocks).2)).congr rfl rfl rfl
    obtain ⟨fd, -, -, hclose⟩ := hs.closeAndRename
    have e : (w.rewrite s clocks).1.settle.settle = v.closeAndRename := by
      subst hv
      simp [rewrite, hr, AofWriter.settle, tempPath]
    rw [e, hclose]
    rfl
  have hphase := (phase_rewrite hw hr s clocks).settle.settle.settle
  obtain ⟨j, hs⟩ := hphase.fst_of_idle hidle
  have hpath : (w.rewrite s clocks).1.settle.settle.settle.path = w.path := by
    rw [path_settle, path_settle, path_settle, path_rewrite]
  refine ⟨hidle, ?_⟩
  rw [← hpath, Fs.read, hs.name]
  show (_ : Fs).content j = _
  rw [hs.content, List.flatten_nil, List.append_nil]

theorem Phase.write {commands lines : List Str} {w : AofWriter} (h : Phase commands w lines)
    (line : Str) : ∃ lines', Phase commands (w.write line).1 lines' := by
  cases he : w.exposed with
  | true => exact ⟨lines, h.write_exposed he line⟩
  | false => exact ⟨lines ++ [format line], (h.write_kept he line).2⟩

theorem Phase.rewrite {commands lines : List Str} {w : AofWriter} (h : Phase commands w lines)
    (s : InMemoryStore) (clocks : Clocks) :
    ∃ commands' lines', Phase commands' (w.rewrite s clocks).1 lines' := by
  cases hr : w.rewriting with
  | some p => exact ⟨commands, lines, by simpa [AofWriter.rewrite, hr] using h⟩
  | none =>
    obtain ⟨i, hs⟩ := h.fst_of_idle hr
    exact ⟨_, [], phase_rewrite hs hr s clocks⟩

section

variable {path : Str} {fsyncPolicy : FsyncPolicy} {fs : Fs} {w : AofWriter}

/-- A started writer serves its file; what the file holds counts as one kept line. -/
theorem phase_start (hfs : fs.WF) (path : Str) (fsyncPolicy : FsyncPolicy) :
    ∃ text, Phase [] (create path fsyncPolicy fs).start [text] := by
  obtain ⟨hw, -, hp, -, -⟩ := Fs.resolve_spec hfs path
  have hlt := Fs.resolve_lt hfs path
  refine ⟨(fs.resolve path).1.inodes[(fs.resolve path).2].content,
    .done (fs.resolve path).2 ?_ rfl rfl⟩
  refine ⟨hw.of_names rfl rfl, ⟨(fs.resolve path).1.fds.length, rfl, ?_⟩, hp, ?_⟩
  · exact List.getElem?_concat_length
  · show (fs.resolve path).1.inodes[(fs.resolve path).2]?.map Inode.content = _
    rw [List.getElem?_eq_getElem hlt]; simp [commandText]

def InPhase (path : Str) (w : AofWriter) : Prop :=
  w.path = path ∧ ∃ commands lines, Phase commands w lines

theorem inPhase_start (hfs : fs.WF) (path : Str) (fsyncPolicy : FsyncPolicy) :
    InPhase path (create path fsyncPolicy fs).start := by
  obtain ⟨text, hp⟩ := phase_start hfs path fsyncPolicy
  exact ⟨rfl, [], [text], hp⟩

theorem InPhase.write (h : InPhase path w) (line : Str) : InPhase path (w.write line).1 := by
  obtain ⟨hpath, commands, lines, hp⟩ := h
  exact ⟨(path_write w line).trans hpath, commands, hp.write line⟩

theorem InPhase.rewrite (h : InPhase path w) (s : InMemoryStore) (clocks : Clocks) :
    InPhase path (w.rewrite s clocks).1 := by
  obtain ⟨hpath, commands, lines, hp⟩ := h
  exact ⟨(path_rewrite w s clocks).trans hpath, hp.rewrite s clocks⟩

theorem InPhase.settle (h : InPhase path w) : InPhase path w.settle := by
  obtain ⟨hpath, commands, lines, hp⟩ := h
  exact ⟨(path_settle w).trans hpath, commands, lines, hp.settle⟩

theorem Reachable.phase (hfs : fs.WF) (h : Reachable path fsyncPolicy fs w) : InPhase path w := by
  induction h with
  | start => exact inPhase_start hfs path fsyncPolicy
  | @write _ line _ ih => exact ih.write line
  | @rewrite _ s clocks _ ih => exact ih.rewrite s clocks
  | @settle _ _ ih => exact ih.settle

end

/-! ## No update is lost -/

theorem sheltered_write {w : AofWriter} {line : Str} {steps : List Step} :
    w.Sheltered (.write line :: steps) ↔ w.exposed = false ∧ (w.write line).1.Sheltered steps := by
  constructor
  · intro h
    exact ⟨h [] line steps rfl,
    fun past l rest e => h (.write line :: past) l rest (by rw [e]; rfl)⟩
  · rintro ⟨he, h⟩ past l rest e
    cases past with
    | nil => exact he
    | cons step past =>
      simp only [List.cons_append, List.cons.injEq] at e
      obtain ⟨rfl, e⟩ := e
      exact h past l rest e

theorem sheltered_settle {w : AofWriter} {steps : List Step} :
    w.Sheltered (.settle :: steps) ↔ w.settle.Sheltered steps := by
  constructor
  · intro h past l rest e
    exact h (.settle :: past) l rest (by rw [e]; rfl)
  · intro h past l rest e
    cases past with
    | nil => cases e
    | cons step past =>
      simp only [List.cons_append, List.cons.injEq] at e
      obtain ⟨rfl, e⟩ := e
      exact h past l rest e

/-- Sheltered writes all succeed and are all kept. -/
theorem Phase.sheltered {commands : List Str} (steps : List Step) :
    ∀ {w : AofWriter} {lines : List Str}, Phase commands w lines → w.Sheltered steps →
      (AofWriter.run w steps).2 = true ∧ kept w steps = written steps := by
  induction steps with
  | nil => intro w lines _ _; exact ⟨rfl, rfl⟩
  | cons step steps ih =>
    intro w lines h hs
    cases step with
    | settle => exact ih h.settle (sheltered_settle.mp hs)
    | write line =>
      obtain ⟨he, hs⟩ := sheltered_write.mp hs
      obtain ⟨hok, hp⟩ := h.write_kept he line
      obtain ⟨h1, h2⟩ := ih hp hs
      simp [AofWriter.run, kept, written, he, hok, h1, h2]

theorem one_le_length_format (line : Str) : 1 ≤ (format line).length := by simp [format]

theorem length_kept_le (steps : List Step) : ∀ w : AofWriter,
    (kept w steps).flatten.length ≤ (written steps).flatten.length := by
  induction steps with
  | nil => intro w; exact Nat.le_refl 0
  | cons step steps ih =>
    intro w
    cases step with
    | settle => exact ih w.settle
    | write line =>
      have := ih (w.write line).1
      simp only [kept, written]
      split <;> simp only [List.flatten_cons, List.length_append] <;> omega

/-- If as much text is kept as was written, no write was exposed. -/
theorem sheltered_of_length (steps : List Step) : ∀ w : AofWriter,
    (kept w steps).flatten.length = (written steps).flatten.length → w.Sheltered steps := by
  induction steps with
  | nil => intro w _ past line rest e; simp at e
  | cons step steps ih =>
    intro w hl
    cases step with
    | settle => exact sheltered_settle.mpr (ih w.settle hl)
    | write line =>
      have hle := length_kept_le steps (w.write line).1
      have h1 := one_le_length_format line
      cases he : w.exposed with
      | true =>
        simp only [kept, written, he, if_true, List.flatten_cons, List.length_append] at hl
        omega
      | false =>
        simp only [kept, written, he, Bool.false_eq_true, if_false, List.flatten_cons,
          List.length_append] at hl
        exact sheltered_write.mpr ⟨he, ih _ (by omega)⟩

/-- For every started writer between rewrites, every store and every order of writes
and completions after which the rewrite is resolved: all writes succeed and the file
at `path` holds the commands of the rewrite followed by every line written since its
start, in order, exactly if no line is written while the rewrite waits for
`appendFile` or `rename`. -/
theorem rewrite_keeps_updates_iff (path : Str) (fsyncPolicy : FsyncPolicy) (fs : Fs) (hfs : fs.WF)
    (w : AofWriter) (hw : Reachable path fsyncPolicy fs w) (hidle : w.rewriting = none)
    (s : InMemoryStore) (clocks : Clocks) (steps : List Step)
    (hdone : (run (w.rewrite s clocks).1 steps).1.rewriting = none) :
    ((run (w.rewrite s clocks).1 steps).2 = true ∧
        (run (w.rewrite s clocks).1 steps).1.fs.read path =
          some (commandText (rewriteCommands s clocks).2 ++ (written steps).flatten)) ↔
      (w.rewrite s clocks).1.Sheltered steps := by
  obtain ⟨hpath, commands, lines, hp⟩ := hw.phase hfs
  obtain ⟨i, hs⟩ := hp.fst_of_idle hidle
  have h1 := phase_rewrite hs hidle s clocks
  obtain ⟨j, hj⟩ := (h1.run steps).fst_of_idle hdone
  have hread : (run (w.rewrite s clocks).1 steps).1.fs.read path = some (commandText
      (rewriteCommands s clocks).2 ++ (kept (w.rewrite s clocks).1 steps).flatten) := by
    have hn := hj.name
    rw [path_run, path_rewrite, hpath] at hn
    rw [Fs.read, hn]
    exact hj.content
  rw [hread]
  constructor
  · rintro ⟨-, he⟩
    refine sheltered_of_length steps _ ?_
    rw [List.append_cancel_left (Option.some.inj he)]
  · intro hsh
    obtain ⟨hok, hk⟩ := h1.sheltered steps hsh
    exact ⟨hok, by rw [hk]⟩

def compacting : AofWriter :=
  ((create "aof".toList .no Fs.empty).start.rewrite (InMemoryStore.create 1 (by decide))
    (Clocks.still 0)).1

/-- A line written before the temporary file is complete is in the new log. -/
theorem rewrite_keeps_early_write :
    compacting.Sheltered [.settle, .write "SET a 1".toList, .settle, .settle, .settle] :=
  (rewrite_keeps_updates_iff "aof".toList .no Fs.empty Fs.wf_empty _ .start rfl
    (InMemoryStore.create 1 (by decide)) (Clocks.still 0) _ (by decide)).mp (by decide)

/-- Of two writes, the second comes while the buffer is appended and is lost; a write
that comes while the file is renamed fails. -/
theorem rewrite_loses_late_write :
    ((run compacting [.settle, .write "SET a 1".toList, .settle, .write "SET b 2".toList, .settle,
        .settle]).1.rewriting = none ∧
      (run compacting [.settle, .write "SET a 1".toList, .settle, .write "SET b 2".toList, .settle,
        .settle]).1.fs.read "aof".toList = some "SET a 1\n".toList) ∧
    (run compacting [.settle, .settle, .write "SET a 1".toList, .settle]).1.rewriting = none ∧
    (run compacting [.settle, .settle, .write "SET a 1".toList, .settle]).2 = false := by
  decide

end AofWriter

end MiniStore
