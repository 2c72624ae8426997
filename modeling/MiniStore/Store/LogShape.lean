import MiniStore.Store.AofWriter

/-!
# The shape of the log

The writer never reads what its files hold. Two writers of one shape, which differ in the text of
their files and of the commands of a rewrite only, return and throw alike and keep one shape.
-/

namespace MiniStore

namespace Fs

/-- Files that differ in what they hold only. -/
structure SameShape (fs fs' : Fs) : Prop where
  inodes : fs'.inodes.length = fs.inodes.length
  names : fs'.names = fs.names
  fds : fs'.fds = fs.fds

section

variable {fs fs' : Fs} (h : SameShape fs fs')

include h

theorem SameShape.resolve (path : Str) : SameShape (fs.resolve path).1 (fs'.resolve path).1 ∧
    (fs'.resolve path).2 = (fs.resolve path).2 := by
  unfold Fs.resolve
  rw [h.names]
  cases fs.names.get? path with
  | some i => exact ⟨h, rfl⟩
  | none =>
    refine ⟨⟨?_, ?_, h.fds⟩, h.inodes⟩
    · simp only [List.length_append, h.inodes]
    · simp only [h.inodes]

theorem SameShape.openAppend (path : Str) :
    SameShape (fs.openAppend path).1 (fs'.openAppend path).1 ∧
      (fs'.openAppend path).2 = (fs.openAppend path).2 := by
  obtain ⟨hr, hi⟩ := h.resolve path
  unfold Fs.openAppend
  dsimp only
  rw [hr.fds, hi]
  exact ⟨⟨hr.inodes, hr.names, rfl⟩, rfl⟩

theorem SameShape.writeFd (fd : Nat) (text : Str) :
    Option.Rel SameShape (fs.writeFd fd text) (fs'.writeFd fd text) := by
  unfold Fs.writeFd
  rw [h.fds]
  split
  · exact .some ⟨by simp only [List.length_modify, h.inodes], h.names, rfl⟩
  · exact .none

theorem SameShape.syncFd (fd : Nat) : Option.Rel SameShape (fs.syncFd fd) (fs'.syncFd fd) := by
  unfold Fs.syncFd
  rw [h.fds]
  split
  · exact .some ⟨by simp only [List.length_modify, h.inodes], h.names, rfl⟩
  · exact .none

theorem SameShape.closeFd (fd : Nat) : SameShape (fs.closeFd fd) (fs'.closeFd fd) :=
  ⟨h.inodes, h.names, congrArg (·.set fd none) h.fds⟩

theorem SameShape.writeFile (path text text' : Str) :
    SameShape (fs.writeFile path text) (fs'.writeFile path text') := by
  obtain ⟨hr, -⟩ := h.resolve path
  exact ⟨by simp only [Fs.writeFile, List.length_set, hr.inodes], hr.names, hr.fds⟩

theorem SameShape.appendFile (path text text' : Str) :
    SameShape (fs.appendFile path text) (fs'.appendFile path text') := by
  obtain ⟨hr, -⟩ := h.resolve path
  exact ⟨by simp only [Fs.appendFile, List.length_modify, hr.inodes], hr.names, hr.fds⟩

theorem SameShape.rename (source target : Str) :
    SameShape (fs.rename source target) (fs'.rename source target) := by
  unfold Fs.rename
  rw [h.names]
  split
  · exact h
  · exact ⟨h.inodes, rfl, h.fds⟩

end

end Fs

namespace AofWriter

/-- The rewrite waits for the same call, with whatever commands. -/
inductive Pending.SameCall : Pending → Pending → Prop
  | mkdir (commands commands' : List Str) : SameCall (.mkdir commands) (.mkdir commands')
  | writeFile (commands commands' : List Str) : SameCall (.writeFile commands) (.writeFile commands')
  | appendFile (buf : List Str) : SameCall (.appendFile buf) (.appendFile buf)
  | rename : SameCall .rename .rename

theorem Pending.SameCall.refl : ∀ p : Pending, p.SameCall p
  | .mkdir commands => .mkdir commands commands
  | .writeFile commands => .writeFile commands commands
  | .appendFile buf => .appendFile buf
  | .rename => .rename

structure SameShape (w w' : AofWriter) : Prop where
  path : w'.path = w.path
  fsyncPolicy : w'.fsyncPolicy = w.fsyncPolicy
  fd : w'.fd = w.fd
  dirty : w'.dirty = w.dirty
  rewriteBuffer : w'.rewriteBuffer = w.rewriteBuffer
  rewriting : Option.Rel Pending.SameCall w.rewriting w'.rewriting
  fs : Fs.SameShape w.fs w'.fs

theorem SameShape.refl (w : AofWriter) : SameShape w w := by
  refine ⟨rfl, rfl, rfl, rfl, rfl, ?_, rfl, rfl, rfl⟩
  cases w.rewriting with
  | none => exact .none
  | some p => exact .some (.refl p)

section

variable {w w' : AofWriter} (h : SameShape w w')

include h

theorem SameShape.write (line : Str) : SameShape (w.write line).1 (w'.write line).1 ∧
    (w'.write line).2 = (w.write line).2 := by
  have hbuffer := congrArg (Option.map (· ++ [format line])) h.rewriteBuffer
  unfold AofWriter.write
  rw [h.fd]
  cases w.fd with
  | none => exact ⟨h, rfl⟩
  | some fd =>
    have hwrite := h.fs.writeFd fd (format line)
    dsimp only
    generalize w.fs.writeFd fd (format line) = written at hwrite ⊢
    generalize w'.fs.writeFd fd (format line) = written' at hwrite ⊢
    cases hwrite with
    | none => exact ⟨h, rfl⟩
    | @some fs fs' hfs =>
      dsimp only
      rw [h.fsyncPolicy]
      split
      · have hsync := hfs.syncFd fd
        generalize fs.syncFd fd = synced at hsync ⊢
        generalize fs'.syncFd fd = synced' at hsync ⊢
        cases hsync with
        | none => exact ⟨⟨h.path, rfl, rfl, rfl, h.rewriteBuffer, h.rewriting, hfs⟩, rfl⟩
        | some hsynced => exact ⟨⟨h.path, rfl, rfl, rfl, hbuffer, h.rewriting, hsynced⟩, rfl⟩
      · exact ⟨⟨h.path, rfl, rfl, rfl, hbuffer, h.rewriting, hfs⟩, rfl⟩

theorem SameShape.rewriting_isSome : w'.rewriting.isSome = w.rewriting.isSome := by
  have hcall := h.rewriting
  generalize w.rewriting = pending at hcall
  generalize w'.rewriting = pending' at hcall
  cases hcall <;> rfl

theorem SameShape.rewrite (s s' : InMemoryStore) (clocks : Clocks) :
    SameShape (w.rewrite s clocks).1 (w'.rewrite s' clocks).1 := by
  unfold AofWriter.rewrite
  rw [h.rewriting_isSome]
  split
  · exact h
  · exact ⟨h.path, h.fsyncPolicy, h.fd, h.dirty, rfl, .some (.mkdir _ _), h.fs⟩

theorem SameShape.reject : SameShape w.reject w'.reject :=
  ⟨h.path, h.fsyncPolicy, h.fd, h.dirty, rfl, .none, h.fs⟩

theorem SameShape.closeAndRename : SameShape w.closeAndRename w'.closeAndRename := by
  have hfs := h.fs
  unfold AofWriter.closeAndRename
  rw [h.fd, hfs.fds]
  split
  · exact ⟨h.path, h.fsyncPolicy, rfl, h.dirty, h.rewriteBuffer, .some .rename, hfs⟩
  · split
    · exact ⟨h.path, h.fsyncPolicy, rfl, h.dirty, h.rewriteBuffer, .some .rename, hfs.closeFd _⟩
    · exact h.reject

theorem SameShape.settle : SameShape w.settle w'.settle := by
  have hcall := h.rewriting
  have htemp : w'.tempPath = w.tempPath := congrArg (· ++ ".temp".toList) h.path
  unfold AofWriter.settle
  generalize w.rewriting = pending at hcall ⊢
  generalize w'.rewriting = pending' at hcall ⊢
  cases hcall with
  | none => exact h
  | some hcall =>
    cases hcall with
    | mkdir =>
      exact ⟨h.path, h.fsyncPolicy, h.fd, h.dirty, h.rewriteBuffer, .some (.writeFile _ _), h.fs⟩
    | writeFile commands commands' =>
      dsimp only
      rw [h.rewriteBuffer, htemp]
      have hfs := h.fs.writeFile w.tempPath (commandText commands) (commandText commands')
      split
      · exact ⟨h.path, h.fsyncPolicy, h.fd, h.dirty, rfl, .some (.appendFile _), hfs⟩
      · refine SameShape.closeAndRename ⟨h.path, h.fsyncPolicy, h.fd, h.dirty, rfl, ?_, hfs⟩
        exact .some (.writeFile _ _)
    | appendFile buf =>
      dsimp only
      rw [htemp]
      exact SameShape.closeAndRename ⟨h.path, h.fsyncPolicy, h.fd, h.dirty, h.rewriteBuffer,
        .some (.appendFile _), h.fs.appendFile w.tempPath buf.flatten buf.flatten⟩
    | rename =>
      dsimp only
      rw [htemp, h.path]
      obtain ⟨hopen, hfd⟩ := (h.fs.rename w.tempPath w.path).openAppend w.path
      exact ⟨rfl, h.fsyncPolicy, congrArg some hfd, h.dirty, rfl, .none, hopen⟩

end

end AofWriter

end MiniStore
