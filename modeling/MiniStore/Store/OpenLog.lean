import MiniStore.Store.AofRewrite

/-!
# A log that is opened and closed

Whatever happens to a writer, a descriptor that is open is open on the file at `#path`
(`Aligned`). So a line is in the log when its write goes through an open descriptor. It
stays there when a rewrite under way replaces the file, if the rewrite carries it
(`Keeps`): a line written while the rewrite still collects lines is carried.
-/

namespace MiniStore

namespace AofWriter

/-- The rewrite under way has not taken its buffer. -/
def collecting (w : AofWriter) : Bool :=
  match w.rewriting with
  | some (.mkdir _) | some (.writeFile _) => true
  | _ => false

/-- The rewrite under way has taken its buffer, and the descriptor is still open. -/
def appending (w : AofWriter) : Bool :=
  match w.rewriting with
  | some (.appendFile _) => true
  | _ => false

/-- The descriptor, if it is open, is open on the file at `#path`; a rewrite has its
buffer as long as it needs one, and no open descriptor before the rename. -/
structure Aligned (w : AofWriter) : Prop where
  wf : w.fs.WF
  fd : ∀ fd i, w.fd = some fd → w.fs.fds[fd]? = some (some i) → w.fs.names.get? w.path = some i
  buffer : w.collecting = true → w.rewriteBuffer.isSome = true
  closed : w.rewriting = some .rename → ∀ fd i, w.fd = some fd → w.fs.fds[fd]? ≠ some (some i)

/-- The file at `#path` consists of pieces, and the lines are, in order, among them. -/
def Logs (w : AofWriter) (lines : List Str) : Prop :=
  ∃ i segments, w.fs.names.get? w.path = some i ∧ w.fs.content i = some segments.flatten ∧
    (lines.map format).Sublist segments

/-- What the rewrite under way will put into the log has the lines. -/
def Carries (w : AofWriter) (lines : List Str) : Prop :=
  match w.rewriting with
  | none => True
  | some (.mkdir _) | some (.writeFile _) =>
    ∃ buf, w.rewriteBuffer = some buf ∧ (lines.map format).Sublist buf
  | some (.appendFile buf) => (lines.map format).Sublist buf ∧ ∃ text, w.Prepared text
  | some .rename =>
    ∃ segments, w.Prepared segments.flatten ∧ (lines.map format).Sublist segments

/-- The lines are in the log, and still will be when a rewrite under way is done. -/
def Keeps (w : AofWriter) (lines : List Str) : Prop := lines = [] ∨ w.Logs lines ∧ w.Carries lines

theorem Logs.mono {w : AofWriter} {lines more : List Str} (h : w.Logs (lines ++ more)) :
    w.Logs lines := by
  obtain ⟨i, segments, hn, hc, hs⟩ := h
  rw [List.map_append] at hs
  exact ⟨i, segments, hn, hc, (List.sublist_append_left _ _).trans hs⟩

theorem Logs.congr {w w' : AofWriter} {lines : List Str} (h : w.Logs lines)
    (hpath : w'.path = w.path) (hn : w'.fs.names = w.fs.names)
    (hc : ∀ i, w'.fs.content i = w.fs.content i) : w'.Logs lines := by
  obtain ⟨i, segments, h1, h2, hs⟩ := h
  exact ⟨i, segments, by rw [hpath, hn]; exact h1, by rw [hc]; exact h2, hs⟩

theorem Carries.mono {w : AofWriter} {lines more : List Str} (h : w.Carries (lines ++ more)) :
    w.Carries lines := by
  have hsub : ((lines.map format)).Sublist ((lines ++ more).map format) := by
    rw [List.map_append]
    exact List.sublist_append_left _ _
  revert h
  unfold Carries
  split
  · exact id
  · exact fun ⟨buf, hb, hs⟩ => ⟨buf, hb, hsub.trans hs⟩
  · exact fun ⟨buf, hb, hs⟩ => ⟨buf, hb, hsub.trans hs⟩
  · exact fun ⟨hs, hp⟩ => ⟨hsub.trans hs, hp⟩
  · exact fun ⟨segments, hp, hs⟩ => ⟨segments, hp, hsub.trans hs⟩

theorem Keeps.mono {w : AofWriter} {lines more : List Str} (h : w.Keeps (lines ++ more)) :
    w.Keeps lines :=
  h.imp (fun hnil => (List.append_eq_nil_iff.mp hnil).1) fun ⟨hl, hc⟩ => ⟨hl.mono, hc.mono⟩

theorem Carries.congr {w w' : AofWriter} {lines : List Str} (h : w.Carries lines)
    (hr : w'.rewriting = w.rewriting) (hb : w'.rewriteBuffer = w.rewriteBuffer)
    (hp : ∀ text, w.Prepared text → w'.Prepared text) : w'.Carries lines := by
  unfold Carries at h ⊢
  rw [hr, hb]
  split at h
  · exact trivial
  · exact h
  · exact h
  · exact ⟨h.1, h.2.imp hp⟩
  · exact h.imp fun segments hs => ⟨hp _ hs.1, hs.2⟩

/-! ## Writing -/

/-- What a write does: nothing, or it appends the line to the file the descriptor is
open on. -/
structure Writes (w : AofWriter) (line : Str) (w' : AofWriter) (ok : Bool) : Prop where
  path : w'.path = w.path
  fd : w'.fd = w.fd
  rewriting : w'.rewriting = w.rewriting
  names : w'.fs.names = w.fs.names
  fds : w'.fs.fds = w.fs.fds
  length : w'.fs.inodes.length = w.fs.inodes.length
  buffer : w'.rewriteBuffer = w.rewriteBuffer ∧ (ok = true → w.fd = none) ∨
    w'.rewriteBuffer = w.rewriteBuffer.map (· ++ [format line])
  content : (ok = true → w.fd = none) ∧ (∀ j, w'.fs.content j = w.fs.content j) ∨
    ∃ fd i, w.fd = some fd ∧ w.fs.fds[fd]? = some (some i) ∧ ∀ j, w'.fs.content j =
      if i = j then (w.fs.content j).map (· ++ format line) else w.fs.content j

theorem writes (w : AofWriter) (line : Str) :
    Writes w line (w.write line).1 (w.write line).2 := by
  unfold write
  split
  · next hfd =>
    exact ⟨rfl, rfl, rfl, rfl, rfl, rfl, .inl ⟨rfl, fun _ => hfd⟩,
      .inl ⟨fun _ => hfd, fun _ => rfl⟩⟩
  · next fd hfd =>
    split
    · exact ⟨rfl, rfl, rfl, rfl, rfl, rfl, .inl ⟨rfl, (nomatch ·)⟩,
        .inl ⟨(nomatch ·), fun _ => rfl⟩⟩
    · next fs hfs =>
      obtain ⟨i, hopen, rfl⟩ : ∃ i, w.fs.fds[fd]? = some (some i) ∧
          fs = { w.fs with inodes := w.fs.inodes.modify i (Fs.append (format line)) } := by
        unfold Fs.writeFd at hfs
        split at hfs
        · next i hopen => exact ⟨i, hopen, (Option.some.inj hfs).symm⟩
        · cases hfs
      have happend := Fs.content_append w.fs (format line) i
      have hlen : (w.fs.inodes.modify i (Fs.append (format line))).length = w.fs.inodes.length := by
        simp
      split
      · have hs : Fs.syncFd { w.fs with inodes := w.fs.inodes.modify i (Fs.append (format line)) }
            fd = some { w.fs with inodes :=
              (w.fs.inodes.modify i (Fs.append (format line))).modify i Fs.sync } := by
          simp [Fs.syncFd, hopen]
        simp only [hs]
        refine ⟨rfl, rfl, rfl, rfl, rfl, by simp, .inr rfl, .inr ⟨fd, i, hfd, hopen, fun j => ?_⟩⟩
        exact (Fs.content_sync _ i j).trans (happend j)
      · exact ⟨rfl, rfl, rfl, rfl, rfl, hlen, .inr rfl, .inr ⟨fd, i, hfd, hopen, happend⟩⟩

section

variable {w w' : AofWriter} {line : Str} {ok : Bool} (hw : Writes w line w' ok) {lines : List Str}

include hw

theorem Writes.aligned (h : w.Aligned) : w'.Aligned := by
  refine ⟨h.wf.of_names hw.names hw.length, fun fd i => ?_, fun hc => ?_, fun hr => ?_⟩
  · rw [hw.fd, hw.fds, hw.path, hw.names]
    exact h.fd fd i
  · have hb := h.buffer (by rw [← hc]; simp only [collecting, hw.rewriting])
    rcases hw.buffer with ⟨e, -⟩ | e
    · rwa [e]
    · rwa [e, Option.isSome_map]
  · rw [hw.fd, hw.fds]
    exact h.closed (hw.rewriting.symm.trans hr)

theorem Writes.logs (h : w.Logs lines) : w'.Logs lines := by
  rcases hw.content with ⟨-, hc⟩ | ⟨fd, i, -, -, hc⟩
  · exact h.congr hw.path hw.names hc
  · obtain ⟨j, segments, hn, ht, hs⟩ := h
    by_cases e : i = j
    · refine ⟨j, segments ++ [format line], by rw [hw.path, hw.names]; exact hn, ?_,
        hs.trans (List.sublist_append_left _ _)⟩
      rw [hc, if_pos e, ht, Option.map_some, List.flatten_append, List.flatten_singleton]
    · exact ⟨j, segments, by rw [hw.path, hw.names]; exact hn, by rw [hc, if_neg e]; exact ht, hs⟩

theorem Writes.prepared (ha : w.Aligned) {text : Str} (h : w.Prepared text) : w'.Prepared text := by
  obtain ⟨j, hj, ht⟩ := h
  have htemp : w'.tempPath = w.tempPath := by rw [tempPath, hw.path]; rfl
  refine ⟨j, by rw [htemp, hw.names]; exact hj, ?_⟩
  rcases hw.content with ⟨-, hc⟩ | ⟨fd, i, hfd, hopen, hc⟩
  · rw [hc]
    exact ht
  · have hne : i ≠ j := by
      rintro rfl
      exact tempPath_ne w (ha.wf.inj _ _ i hj (ha.fd fd i hfd hopen))
    rw [hc, if_neg hne]
    exact ht

theorem Writes.carries (ha : w.Aligned) (h : w.Carries lines) : w'.Carries lines := by
  have hlonger : ∀ buf, w.rewriteBuffer = some buf → (lines.map format).Sublist buf →
      ∃ buf, w'.rewriteBuffer = some buf ∧ (lines.map format).Sublist buf := by
    intro buf hb hs
    rcases hw.buffer with ⟨e, -⟩ | e
    · exact ⟨buf, by rw [e, hb], hs⟩
    · exact ⟨buf ++ [format line], by rw [e, hb]; rfl, hs.trans (List.sublist_append_left _ _)⟩
  unfold Carries at h ⊢
  rw [hw.rewriting]
  split at h
  · exact trivial
  · exact hlonger _ h.choose_spec.1 h.choose_spec.2
  · exact hlonger _ h.choose_spec.1 h.choose_spec.2
  · exact ⟨h.1, h.2.imp fun _ => hw.prepared ha⟩
  · exact h.imp fun segments hs => ⟨hw.prepared ha hs.1, hs.2⟩

theorem Writes.keeps (ha : w.Aligned) (h : w.Keeps lines) : w'.Keeps lines :=
  h.imp_right fun ⟨hl, hc⟩ => ⟨hw.logs hl, hw.carries ha hc⟩

theorem Writes.logs_append (ha : w.Aligned) (hok : ok = true) (hfd : w.fd.isSome = true)
    (h : lines = [] ∨ w.Logs lines) : w'.Logs (lines ++ [line]) := by
  rcases hw.content with ⟨hnone, -⟩ | ⟨fd, i, hfd', hopen, hc⟩
  · rw [hnone hok] at hfd
    cases hfd
  · have hname := ha.fd fd i hfd' hopen
    obtain ⟨text, ht⟩ : ∃ text, w.fs.content i = some text :=
      ⟨_, by rw [Fs.content, List.getElem?_eq_getElem (ha.wf.lt _ _ hname)]; rfl⟩
    have hlogs : w.Logs lines := by
      rcases h with rfl | h
      · exact ⟨i, [text], hname, by simpa using ht, List.nil_sublist _⟩
      · exact h
    obtain ⟨j, segments, hn, hs, hsub⟩ := hlogs
    obtain rfl : i = j := Option.some.inj (hname.symm.trans hn)
    refine ⟨i, segments ++ [format line], by rw [hw.path, hw.names]; exact hn, ?_, ?_⟩
    · rw [hc, if_pos rfl, hs, Option.map_some, List.flatten_append, List.flatten_singleton]
    · rw [List.map_append, List.map_singleton]
      exact hsub.append (List.Sublist.refl _)

/-- The line of a write that succeeds is carried, unless the buffer has been taken. -/
theorem Writes.keeps_append (ha : w.Aligned) (hok : ok = true) (hfd : w.fd.isSome = true)
    (hx : w.appending = false) (h : w.Keeps lines) : w'.Keeps (lines ++ [line]) := by
  refine .inr ⟨hw.logs_append ha hok hfd (h.imp_right And.left), ?_⟩
  have hbuffer : w'.rewriteBuffer = w.rewriteBuffer.map (· ++ [format line]) := by
    rcases hw.buffer with ⟨-, hnone⟩ | e
    · rw [hnone hok] at hfd
      cases hfd
    · exact e
  have hlonger : w.collecting = true → (∀ buf, w.rewriteBuffer = some buf →
      (lines.map format).Sublist buf) → ∃ buf, w'.rewriteBuffer = some buf ∧
        ((lines ++ [line]).map format).Sublist buf := by
    intro hc hs
    obtain ⟨buf, hb⟩ := Option.isSome_iff_exists.mp (ha.buffer hc)
    refine ⟨buf ++ [format line], by rw [hbuffer, hb]; rfl, ?_⟩
    rw [List.map_append, List.map_singleton]
    exact (hs buf hb).append (List.Sublist.refl _)
  have hbuf : w.collecting = true → ∀ buf, w.rewriteBuffer = some buf →
      (lines.map format).Sublist buf := by
    intro hc buf hb
    rcases h with rfl | ⟨-, hcarries⟩
    · exact List.nil_sublist _
    · have hsome : ∃ buf, w.rewriteBuffer = some buf ∧ (lines.map format).Sublist buf := by
        unfold collecting at hc
        unfold Carries at hcarries
        split at hc
        · next e => rwa [e] at hcarries
        · next e => rwa [e] at hcarries
        · cases hc
      obtain ⟨buf', hb', hs⟩ := hsome
      rwa [← Option.some.inj (hb'.symm.trans hb)]
  unfold Carries
  rw [hw.rewriting]
  split
  · exact trivial
  · next e =>
    have hc : w.collecting = true := by simp only [collecting, e]
    exact hlonger hc (hbuf hc)
  · next e =>
    have hc : w.collecting = true := by simp only [collecting, e]
    exact hlonger hc (hbuf hc)
  · next e => simp only [appending, e] at hx; cases hx
  · next e =>
    -- no write succeeds through the closed descriptor
    rcases hw.content with ⟨hnone, -⟩ | ⟨fd, i, hfd', hopen, -⟩
    · rw [hnone hok] at hfd
      cases hfd
    · exact absurd hopen (ha.closed e fd i hfd')

end

/-! ## Opening and closing -/

theorem wf_openAppend {fs : Fs} (hwf : fs.WF) (path : Str) :
    ∃ i, (fs.openAppend path).1.WF ∧
      (fs.openAppend path).1.fds[(fs.openAppend path).2]? = some (some i) ∧
      (fs.openAppend path).1.names.get? path = some i := by
  obtain ⟨hw, hfds, hp, -⟩ := Fs.resolve_spec hwf path
  refine ⟨(fs.resolve path).2, hw.of_names rfl rfl, ?_, hp⟩
  show ((fs.resolve path).1.fds ++ [some (fs.resolve path).2])[(fs.resolve path).1.fds.length]? = _
  simp

theorem wf_rename {fs : Fs} (hwf : fs.WF) (source target : Str) : (fs.rename source target).WF := by
  cases hs : fs.names.get? source with
  | none => simpa [Fs.rename, hs] using hwf
  | some i => exact (Fs.rename_spec hwf hs target).1

theorem wf_appendFile {fs : Fs} (hwf : fs.WF) (path text : Str) : (fs.appendFile path text).WF :=
  (Fs.resolve_spec hwf path).1.of_names rfl (List.length_modify ..)

theorem aligned_start {fs : Fs} (hfs : fs.WF) (path : Str) (fsyncPolicy : FsyncPolicy) :
    (create path fsyncPolicy fs).start.Aligned := by
  obtain ⟨i, hwf, hopen, hn⟩ := wf_openAppend hfs path
  refine ⟨hwf, fun fd j hf ho => ?_, (nomatch ·), (nomatch ·)⟩
  obtain rfl := Option.some.inj hf
  have hij : i = j := Option.some.inj (Option.some.inj (hopen.symm.trans ho))
  rw [← hij]
  exact hn

/-- `closeAndRename` leaves no open descriptor, and files and names as they are. -/
theorem closeAndRename_spec (w : AofWriter) :
    w.closeAndRename.fs.names = w.fs.names ∧ w.closeAndRename.fs.inodes = w.fs.inodes ∧
      (w.closeAndRename.rewriting = none ∨ w.closeAndRename.rewriting = some .rename) ∧
      ∀ fd i, w.closeAndRename.fd = some fd → w.closeAndRename.fs.fds[fd]? ≠ some (some i) := by
  unfold closeAndRename
  split
  · next hfd => exact ⟨rfl, rfl, .inr rfl, fun fd i hf => absurd (hfd.symm.trans hf) (by simp)⟩
  · next fd hfd =>
    split
    · next i hopen =>
      refine ⟨rfl, rfl, .inr rfl, fun fd' i' hf ho => ?_⟩
      obtain rfl : fd = fd' := Option.some.inj (hfd.symm.trans hf)
      rw [Fs.closeFd, List.getElem?_set_self', hopen] at ho
      cases ho
    · next hopen =>
      refine ⟨rfl, rfl, .inl rfl, fun fd' i' hf ho => ?_⟩
      obtain rfl : fd = fd' := Option.some.inj (hfd.symm.trans hf)
      exact hopen i' ho

theorem aligned_closeAndRename {w : AofWriter} (hwf : w.fs.WF) : w.closeAndRename.Aligned := by
  obtain ⟨hn, hi, hr, hclosed⟩ := closeAndRename_spec w
  refine ⟨hwf.of_names hn (by rw [hi]), fun fd i hf ho => absurd ho (hclosed fd i hf),
    fun hc => ?_, fun _ => hclosed⟩
  rcases hr with hr | hr <;> simp [collecting, hr] at hc

/-- What is in the log, and what the temporary file will put there. -/
theorem keeps_closeAndRename {w : AofWriter} {lines : List Str} (segments : List Str)
    (hl : w.Logs lines) (hp : w.Prepared segments.flatten)
    (hs : (lines.map format).Sublist segments) : w.closeAndRename.Keeps lines := by
  obtain ⟨hn, hi, hr, -⟩ := closeAndRename_spec w
  have hpath := path_closeAndRename w
  have hc : ∀ i, w.closeAndRename.fs.content i = w.fs.content i := fun i => by
    rw [Fs.content, hi]
    rfl
  refine .inr ⟨hl.congr hpath hn hc, ?_⟩
  unfold Carries
  rcases hr with hr | hr
  · rw [hr]
    exact trivial
  · obtain ⟨j, hj, ht⟩ := hp
    rw [hr]
    exact ⟨segments, ⟨j, by rw [tempPath, hpath, hn]; exact hj, by rw [hc]; exact ht⟩, hs⟩

section

variable {w : AofWriter} (h : w.Aligned)

include h

theorem Aligned.rewrite (s : InMemoryStore) (clocks : Clocks) : (w.rewrite s clocks).1.Aligned := by
  unfold AofWriter.rewrite
  split
  · exact h
  · exact ⟨h.wf, h.fd, fun _ => rfl, (nomatch ·)⟩

theorem Aligned.reject : w.reject.Aligned := ⟨h.wf, h.fd, (nomatch ·), (nomatch ·)⟩

theorem Aligned.settle : w.settle.Aligned := by
  unfold AofWriter.settle
  split
  · exact h
  · next commands hr =>
    exact ⟨h.wf, h.fd, fun _ => h.buffer (by simp only [collecting, hr]), (nomatch ·)⟩
  · next commands hr =>
    obtain ⟨hwf, hfds, -, hother⟩ := Fs.writeFile_spec h.wf w.tempPath (commandText commands)
    dsimp only
    split
    · refine ⟨hwf, fun fd i hf ho => ?_, (nomatch ·), (nomatch ·)⟩
      have hn := h.fd fd i hf (by rw [← hfds]; exact ho)
      exact (hother w.path i (tempPath_ne w).symm hn).1
    · exact aligned_closeAndRename hwf
  · exact aligned_closeAndRename (wf_appendFile h.wf _ _)
  · obtain ⟨i, hwf, hopen, hn⟩ := wf_openAppend (wf_rename h.wf w.tempPath w.path) w.path
    refine ⟨hwf, fun fd j hf ho => ?_, (nomatch ·), (nomatch ·)⟩
    obtain rfl := Option.some.inj hf
    rw [hopen] at ho
    cases ho
    exact hn

theorem Aligned.stop : w.stop.1.Aligned ∧ (w.stop.2 = true → w.stop.1.fd = none) ∧
    ∀ lines, w.Keeps lines → w.stop.1.Keeps lines := by
  unfold AofWriter.stop
  split
  · next hfd =>
    refine ⟨⟨h.wf, h.fd, h.buffer, h.closed⟩, fun _ => hfd, fun lines hk => ?_⟩
    rcases hk with hk | ⟨hl, hc⟩
    · exact .inl hk
    · exact .inr ⟨hl, hc⟩
  · next fd hfd =>
    split
    · next i hopen =>
      have hsync : (w.fs.syncFd fd).getD w.fs =
          { w.fs with inodes := w.fs.inodes.modify i Fs.sync } := by
        simp [Fs.syncFd, hopen]
      have hfs : ∀ fs, (fs = w.fs ∨ fs = { w.fs with inodes := w.fs.inodes.modify i Fs.sync }) →
          fs.WF ∧ fs.names = w.fs.names ∧ ∀ j, fs.content j = w.fs.content j := by
        rintro fs (rfl | rfl)
        · exact ⟨h.wf, rfl, fun _ => rfl⟩
        · exact ⟨h.wf.of_names rfl (by simp), rfl, Fs.content_sync _ i⟩
      obtain ⟨hwf, hn, hc⟩ := hfs (if w.dirty then (w.fs.syncFd fd).getD w.fs else w.fs) (by
        rw [hsync]
        split
        · exact .inr rfl
        · exact .inl rfl)
      refine ⟨⟨hwf.of_names rfl rfl, fun fd' j hf => ?_, h.buffer, fun _ fd' j hf => ?_⟩,
        fun _ => rfl, fun lines hk => ?_⟩
      · cases hf
      · cases hf
      rcases hk with hk | ⟨hl, hcarries⟩
      · exact .inl hk
      · refine .inr ⟨hl.congr rfl hn hc, hcarries.congr rfl rfl ?_⟩
        rintro text ⟨j, hj, ht⟩
        exact ⟨j, by rw [← hj, ← hn]; rfl, (hc j).trans ht⟩
    · exact ⟨h, fun hret => absurd hret Bool.false_ne_true, fun _ hl => hl⟩

variable {lines : List Str} (hk : w.Keeps lines)

include hk

theorem Aligned.keeps_writeFile {commands : List Str}
    (hr : w.rewriting = some (.writeFile commands)) : w.settle.Keeps lines := by
  rcases hk with rfl | ⟨hl, hc⟩
  · exact .inl rfl
  obtain ⟨hwf, hfds, ⟨j, hj, ht⟩, hother⟩ := Fs.writeFile_spec h.wf w.tempPath (commandText commands)
  simp only [Carries, hr] at hc
  obtain ⟨buf, hb, hs⟩ := hc
  have hlogs : ∀ v : AofWriter, v.path = w.path →
      v.fs = w.fs.writeFile w.tempPath (commandText commands) → v.Logs lines := by
    rintro v hpath hfs
    obtain ⟨i, segments, hn, hc, hsub⟩ := hl
    obtain ⟨hn', hc'⟩ := hother w.path i (tempPath_ne w).symm hn
    exact ⟨i, segments, by rw [hpath, hfs]; exact hn', by rw [hfs, hc']; exact hc, hsub⟩
  simp only [AofWriter.settle, hr, hb, Option.getD_some]
  split
  · exact .inr ⟨hlogs _ rfl rfl, hs, _, j, hj, ht⟩
  · next hlen =>
    obtain rfl : buf = [] := List.length_eq_zero_iff.mp (by omega)
    refine keeps_closeAndRename [commandText commands] (hlogs _ rfl rfl)
      ⟨j, hj, by rw [List.flatten_singleton]; exact ht⟩ ?_
    rw [List.sublist_nil.mp hs]
    exact List.nil_sublist _

theorem Aligned.keeps_appendFile {buf : List Str} (hr : w.rewriting = some (.appendFile buf)) :
    w.settle.Keeps lines := by
  rcases hk with rfl | ⟨hl, hc⟩
  · exact .inl rfl
  simp only [Carries, hr] at hc
  obtain ⟨hs, text, j, hj, ht⟩ := hc
  obtain ⟨hwf, hfds, hn, hc⟩ := Fs.appendFile_spec h.wf hj ht buf.flatten
  simp only [AofWriter.settle, hr]
  refine keeps_closeAndRename (text :: buf) ?_ ⟨j, ?_, hc⟩
    (hs.trans (List.sublist_cons_self _ _))
  · obtain ⟨i, segments, hni, hci, hsub⟩ := hl
    have hne : j ≠ i := by
      rintro rfl
      exact tempPath_ne w (h.wf.inj _ _ _ hj hni)
    refine ⟨i, segments, by rw [← hni, ← hn], ?_, hsub⟩
    have e : w.fs.appendFile w.tempPath buf.flatten =
        { w.fs with inodes := w.fs.inodes.modify j (Fs.append buf.flatten) } := by
      simp [Fs.appendFile, Fs.resolve_some hj]
    rw [e, Fs.content_append, if_neg hne]
    exact hci
  · rw [← hj, ← hn]
    rfl

/-- A completion keeps what the rewrite carries. -/
theorem Aligned.keeps_settle : w.settle.Keeps lines := by
  cases hr : w.rewriting with
  | none => simpa only [AofWriter.settle, hr] using hk
  | some pending =>
    cases pending with
    | mkdir commands =>
      rcases hk with rfl | ⟨hl, hc⟩
      · exact .inl rfl
      · simp only [Carries, hr] at hc
        simp only [AofWriter.settle, hr]
        exact .inr ⟨hl, hc⟩
    | writeFile commands => exact h.keeps_writeFile hk hr
    | appendFile buf => exact h.keeps_appendFile hk hr
    | rename =>
      rcases hk with rfl | ⟨hl, hc⟩
      · exact .inl rfl
      · simp only [Carries, hr] at hc
        obtain ⟨segments, hp, hs⟩ := hc
        obtain ⟨i, hserving, hidle, -⟩ := settle_rename h.wf hp hr
        have hpath : w.settle.path = w.path := path_settle w
        refine .inr ⟨⟨i, segments, hserving.name, hserving.content, hs⟩, ?_⟩
        simp only [Carries, hidle]

omit h in
theorem Keeps.reject : w.reject.Keeps lines := hk.imp_right fun ⟨hl, _⟩ => ⟨hl, trivial⟩

end

end AofWriter

end MiniStore
