import MiniStore.Lib.OrdMap
import MiniStore.Lib.Text

/-!
# A file system

Files as inodes, names that point to inodes, and descriptors, each open on an
inode or closed. A write through a descriptor goes to the file it was opened on,
and fails when the descriptor is closed; a number is not used twice.

`Fs.WF` says that names point to files and no two names to the same one. The
content of every file after every operation is given by the `content_` lemmas.
-/

namespace MiniStore

/-- A file: its bytes, and how many of them have been synced. -/
structure Inode where
  content : Str
  synced : Nat
  deriving DecidableEq

structure Fs where
  inodes : List Inode
  names : OrdMap Str Nat
  fds : List (Option Nat)
  deriving DecidableEq

namespace Fs

def empty : Fs := ⟨[], OrdMap.empty, []⟩

def append (text : Str) (n : Inode) : Inode := { n with content := n.content ++ text }

def sync (n : Inode) : Inode := { n with synced := n.content.length }

/-- The inode of a name, created empty if need be. -/
def resolve (fs : Fs) (path : Str) : Fs × Nat :=
  match fs.names.get? path with
  | some i => (fs, i)
  | none =>
    ({ fs with
        inodes := fs.inodes ++ [⟨[], 0⟩]
        names := fs.names.set path fs.inodes.length }, fs.inodes.length)

/-- `openSync(path, 'a')`. -/
def openAppend (fs : Fs) (path : Str) : Fs × Nat :=
  match fs.resolve path with
  | (fs, i) => ({ fs with fds := fs.fds ++ [some i] }, fs.fds.length)

/-- `writeSync`; fails on a closed descriptor. -/
def writeFd (fs : Fs) (fd : Nat) (text : Str) : Option Fs :=
  match fs.fds[fd]? with
  | some (some i) => some { fs with inodes := fs.inodes.modify i (append text) }
  | _ => none

/-- `fsyncSync`. -/
def syncFd (fs : Fs) (fd : Nat) : Option Fs :=
  match fs.fds[fd]? with
  | some (some i) => some { fs with inodes := fs.inodes.modify i sync }
  | _ => none

/-- `closeSync`. The system may give the number away again; here it stays closed. -/
def closeFd (fs : Fs) (fd : Nat) : Fs := { fs with fds := fs.fds.set fd none }

/-- `writeFile`: the file holds the text and nothing else. -/
def writeFile (fs : Fs) (path text : Str) : Fs :=
  match fs.resolve path with
  | (fs, i) => { fs with inodes := fs.inodes.set i ⟨text, 0⟩ }

def appendFile (fs : Fs) (path text : Str) : Fs :=
  match fs.resolve path with
  | (fs, i) => { fs with inodes := fs.inodes.modify i (append text) }

def rename (fs : Fs) (source target : Str) : Fs :=
  match fs.names.get? source with
  | none => fs
  | some i => { fs with names := (fs.names.delete source).set target i }

def content (fs : Fs) (i : Nat) : Option Str := fs.inodes[i]?.map Inode.content

/-- What a name reads as. -/
def read (fs : Fs) (path : Str) : Option Str := (fs.names.get? path).bind fs.content

def file (fs : Fs) (path : Str) : Option Inode := (fs.names.get? path).bind (fs.inodes[·]?)

/-- Names point to files, different names to different files. -/
structure WF (fs : Fs) : Prop where
  lt : ∀ name i, fs.names.get? name = some i → i < fs.inodes.length
  inj : ∀ a b i, fs.names.get? a = some i → fs.names.get? b = some i → a = b

theorem wf_empty : empty.WF := ⟨fun _ _ h => (nomatch h), fun _ _ _ h => nomatch h⟩

theorem WF.of_names {fs fs' : Fs} (h : fs.WF) (hn : fs'.names = fs.names)
    (hi : fs'.inodes.length = fs.inodes.length) : fs'.WF :=
  ⟨fun name i => by rw [hn, hi]; exact h.lt name i, fun a b i => by rw [hn]; exact h.inj a b i⟩

/-! ## Finding the file of a name -/

theorem resolve_some {fs : Fs} {path : Str} {i : Nat} (h : fs.names.get? path = some i) :
    fs.resolve path = (fs, i) := by simp [resolve, h]

/-- The file of a name, new or not, is there afterwards and nothing else changes. -/
theorem resolve_spec {fs : Fs} (h : fs.WF) (path : Str) :
    (fs.resolve path).1.WF ∧
      (fs.resolve path).1.fds = fs.fds ∧
      (fs.resolve path).1.names.get? path = some (fs.resolve path).2 ∧
      (∀ name, name ≠ path → (fs.resolve path).1.names.get? name = fs.names.get? name) ∧
      ∀ i, i < fs.inodes.length → (fs.resolve path).1.content i = fs.content i := by
  cases hp : fs.names.get? path with
  | some i =>
    rw [resolve_some hp]
    exact ⟨h, rfl, hp, fun _ _ => rfl, fun _ _ => rfl⟩
  | none =>
    have e : fs.resolve path = ({ fs with
        inodes := fs.inodes ++ [⟨[], 0⟩]
        names := fs.names.set path fs.inodes.length }, fs.inodes.length) := by simp [resolve, hp]
    have hn : ∀ name i, (fs.names.set path fs.inodes.length).get? name = some i →
        name = path ∧ i = fs.inodes.length ∨ name ≠ path ∧ fs.names.get? name = some i := by
      intro name i hi
      rw [OrdMap.get?_set] at hi
      split at hi
      · next e => exact .inl ⟨e, (Option.some.inj hi).symm⟩
      · next e => exact .inr ⟨e, hi⟩
    rw [e]
    refine ⟨⟨?_, ?_⟩, rfl, ?_, ?_, ?_⟩
    · intro name i hi
      simp only [List.length_append, List.length_singleton]
      rcases hn name i hi with ⟨-, rfl⟩ | ⟨-, hi⟩
      · omega
      · have := h.lt name i hi; omega
    · intro a b i ha hb
      rcases hn a i ha with ⟨ea, hi⟩ | ⟨-, ha⟩ <;> rcases hn b i hb with ⟨eb, hi'⟩ | ⟨-, hb⟩
      · rw [ea, eb]
      · have := h.lt b i hb; omega
      · have := h.lt a i ha; omega
      · exact h.inj a b i ha hb
    · simp
    · intro name hne
      simp [OrdMap.get?_set, hne]
    · intro i hi
      simp [content, List.getElem?_append_left hi]

theorem resolve_lt {fs : Fs} (h : fs.WF) (path : Str) :
    (fs.resolve path).2 < (fs.resolve path).1.inodes.length :=
  (resolve_spec h path).1.lt path _ (resolve_spec h path).2.2.1

theorem resolve_ne {fs : Fs} (h : fs.WF) {path name : Str} (hne : name ≠ path) {i : Nat}
    (hi : fs.names.get? name = some i) : (fs.resolve path).2 ≠ i := by
  obtain ⟨hw, -, hp, hn, -⟩ := resolve_spec h path
  intro e
  have hi' := (hn name hne).trans hi
  rw [e] at hp
  exact hne (hw.inj name path i hi' hp)

/-! ## Contents -/

theorem content_modify (fs : Fs) (f : Inode → Inode) (i j : Nat) :
    content { fs with inodes := fs.inodes.modify i f } j =
      if i = j then fs.inodes[j]?.map fun n => (f n).content else fs.content j := by
  unfold content
  rw [List.getElem?_modify]
  split
  · cases fs.inodes[j]? <;> rfl
  · cases fs.inodes[j]? <;> rfl

theorem content_append (fs : Fs) (text : Str) (i j : Nat) :
    content { fs with inodes := fs.inodes.modify i (append text) } j =
      if i = j then (fs.content j).map (· ++ text) else fs.content j := by
  rw [content_modify]
  split
  · unfold content; cases fs.inodes[j]? <;> rfl
  · rfl

theorem content_sync (fs : Fs) (i j : Nat) :
    content { fs with inodes := fs.inodes.modify i sync } j = fs.content j := by
  rw [content_modify]
  split <;> rfl

theorem content_set {fs : Fs} (text : Str) {i : Nat} (hi : i < fs.inodes.length) (j : Nat) :
    content { fs with inodes := fs.inodes.set i ⟨text, 0⟩ } j =
      if i = j then some text else fs.content j := by
  unfold content
  rw [List.getElem?_set]
  split
  · next e => subst e; simp
  · rfl

/-! ## Operations on names -/

section

variable {fs : Fs} (h : fs.WF)

include h

/-- After `writeFile` the name reads as the text; other files keep names and contents. -/
theorem writeFile_spec (path text : Str) :
    (fs.writeFile path text).WF ∧ (fs.writeFile path text).fds = fs.fds ∧
      (∃ j, (fs.writeFile path text).names.get? path = some j ∧
        (fs.writeFile path text).content j = some text) ∧
      ∀ name i, name ≠ path → fs.names.get? name = some i →
        (fs.writeFile path text).names.get? name = some i ∧
          (fs.writeFile path text).content i = fs.content i := by
  obtain ⟨hw, hfds, hp, hn, hc⟩ := resolve_spec h path
  have e : fs.writeFile path text = { (fs.resolve path).1 with
      inodes := (fs.resolve path).1.inodes.set (fs.resolve path).2 ⟨text, 0⟩ } := rfl
  have hset := content_set text (resolve_lt h path)
  rw [e]
  refine ⟨hw.of_names rfl (by simp), hfds, ⟨_, hp, by rw [hset, if_pos rfl]⟩, ?_⟩
  intro name i hne hi
  refine ⟨(hn name hne).trans hi, ?_⟩
  rw [hset, if_neg (resolve_ne h hne hi), hc i (h.lt name i hi)]

theorem appendFile_spec {path : Str} {j : Nat} (hj : fs.names.get? path = some j) {t : Str}
    (ht : fs.content j = some t) (text : Str) :
    (fs.appendFile path text).WF ∧ (fs.appendFile path text).fds = fs.fds ∧
      (fs.appendFile path text).names = fs.names ∧
      (fs.appendFile path text).content j = some (t ++ text) := by
  have e : fs.appendFile path text =
      { fs with inodes := fs.inodes.modify j (append text) } := by
    simp [appendFile, resolve_some hj]
  rw [e]
  refine ⟨h.of_names rfl (by simp), rfl, rfl, ?_⟩
  rw [content_append, if_pos rfl, ht]
  rfl

theorem rename_spec {source : Str} {j : Nat} (hj : fs.names.get? source = some j)
    (target : Str) :
    (fs.rename source target).WF ∧ (fs.rename source target).names.get? target = some j ∧
      ∀ i, (fs.rename source target).content i = fs.content i := by
  have e : fs.rename source target =
      { fs with names := (fs.names.delete source).set target j } := by simp [rename, hj]
  have hn : ∀ name i, ((fs.names.delete source).set target j).get? name = some i →
      name = target ∧ i = j ∨ name ≠ source ∧ fs.names.get? name = some i := by
    intro name i hi
    rw [OrdMap.get?_set, OrdMap.get?_delete] at hi
    split at hi
    · next e => exact .inl ⟨e, (Option.some.inj hi).symm⟩
    · split at hi
      · cases hi
      · next e => exact .inr ⟨e, hi⟩
  rw [e]
  refine ⟨⟨?_, ?_⟩, by simp, fun _ => rfl⟩
  · intro name i hi
    rcases hn name i hi with ⟨-, rfl⟩ | ⟨-, hi⟩
    · exact h.lt source _ hj
    · exact h.lt name i hi
  · intro a b i ha hb
    rcases hn a i ha with ⟨ea, hi⟩ | ⟨hna, ha'⟩ <;> rcases hn b i hb with ⟨eb, hi'⟩ | ⟨hnb, hb'⟩
    · rw [ea, eb]
    · rw [hi] at hb'; exact absurd (h.inj b source j hb' hj) hnb
    · rw [hi'] at ha'; exact absurd (h.inj a source j ha' hj) hna
    · exact h.inj a b i ha' hb'

end

/-! ## Files by name -/

theorem file_modify (fs : Fs) (f : Inode → Inode) (i : Nat) (name : Str) :
    file { fs with inodes := fs.inodes.modify i f } name =
      if fs.names.get? name = some i then (fs.file name).map f else fs.file name := by
  unfold file
  cases fs.names.get? name with
  | none => rfl
  | some j =>
    simp only [Option.bind_some, Option.some.injEq, List.getElem?_modify]
    by_cases e : j = i
    · rw [if_pos e]
      cases fs.inodes[j]? <;> simp [e]
    · rw [if_neg e]
      cases fs.inodes[j]? <;> simp [Ne.symm e]

section

variable {fs : Fs} (h : fs.WF)

include h

theorem file_of_name {name : Str} {i : Nat} (hi : fs.names.get? name = some i) :
    fs.file name = some (fs.inodes.get ⟨i, h.lt name i hi⟩) := by
  simp [file, hi, h.lt name i hi]

theorem file_resolve {path name : Str} (hne : name ≠ path) :
    (fs.resolve path).1.file name = fs.file name := by
  cases hp : fs.names.get? path with
  | some i => rw [resolve_some hp]
  | none =>
    have e : (fs.resolve path).1 = { fs with
        inodes := fs.inodes ++ [⟨[], 0⟩]
        names := fs.names.set path fs.inodes.length } := by simp [resolve, hp]
    rw [e]
    simp only [file, OrdMap.get?_set, if_neg hne]
    cases hi : fs.names.get? name with
    | none => rfl
    | some i => exact List.getElem?_append_left (h.lt name i hi)

theorem writeFile_file (path text : Str) :
    (fs.writeFile path text).file path = some ⟨text, 0⟩ ∧
      ∀ name, name ≠ path → (fs.writeFile path text).file name = fs.file name := by
  obtain ⟨hw, -, hp, hn, -⟩ := resolve_spec h path
  have e : fs.writeFile path text = { (fs.resolve path).1 with
      inodes := (fs.resolve path).1.inodes.set (fs.resolve path).2 ⟨text, 0⟩ } := rfl
  rw [e]
  constructor
  · simp [file, hp, resolve_lt h path]
  · intro name hne
    rw [← file_resolve h hne]
    unfold file
    cases hi : (fs.resolve path).1.names.get? name with
    | none => rfl
    | some i =>
      have hij : (fs.resolve path).2 ≠ i := fun e => hne (hw.inj name path i hi (e ▸ hp))
      simp [List.getElem?_set_ne hij]

theorem appendFile_file {path : Str} {n : Inode} (hn : fs.file path = some n) (text : Str) :
    (fs.appendFile path text).file path = some (append text n) ∧
      ∀ name, name ≠ path → (fs.appendFile path text).file name = fs.file name := by
  obtain ⟨i, hi⟩ : ∃ i, fs.names.get? path = some i := by
    cases hp : fs.names.get? path with
    | none => simp [file, hp] at hn
    | some i => exact ⟨i, rfl⟩
  have e : fs.appendFile path text = { fs with inodes := fs.inodes.modify i (append text) } := by
    simp [appendFile, resolve_some hi]
  rw [e]
  constructor
  · rw [file_modify, if_pos hi, hn]
    rfl
  · intro name hne
    rw [file_modify, if_neg fun hj => hne (h.inj name path i hj hi)]

omit h in
theorem rename_file {source : Str} {n : Inode} (hn : fs.file source = some n) (target : Str) :
    (fs.rename source target).file target = some n := by
  cases hs : fs.names.get? source with
  | none => simp [file, hs] at hn
  | some i => simpa [rename, hs, file] using hn

omit h in
theorem openAppend_file {path : Str} {n : Inode} (hn : fs.file path = some n) :
    (fs.openAppend path).1.file path = some n := by
  cases hp : fs.names.get? path with
  | none => simp [file, hp] at hn
  | some i =>
    rw [openAppend, resolve_some hp]
    exact hn

end

theorem openAppend_some {fs : Fs} {path : Str} {i : Nat} (h : fs.names.get? path = some i) :
    fs.openAppend path = ({ fs with fds := fs.fds ++ [some i] }, fs.fds.length) := by
  simp [openAppend, resolve_some h]

/-- Opening a file to append creates it if need be, and leaves what it holds. -/
theorem read_openAppend {fs : Fs} (h : fs.WF) (path : Str) :
    (fs.openAppend path).1.read path = some ((fs.read path).getD []) := by
  cases hp : fs.names.get? path with
  | some i =>
    have hi : i < fs.inodes.length := h.lt path i hp
    rw [openAppend_some hp]
    simp [read, hp, content, hi]
  | none => simp [openAppend, resolve, hp, read, content]

end Fs

end MiniStore
