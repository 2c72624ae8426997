import MiniStore.Lib.Fs
import MiniStore.Store.PersistenceManager

/-!
# AofWriter

The append-only file and its compaction, over the file system `Fs`.

`rewrite` runs to its first `await` at once; every later piece runs when the
pending call completes (`settle`) or is rejected (`reject`). Calls of `write` may
come in between.
-/

namespace MiniStore

open InMemoryStore

/-! ## The commands of a rewrite -/

namespace AofWriter

/-- `values.join(' ')`. -/
def joinSpace (values : List Str) : Str := List.intercalate [' '] values

/-- The loop body of `rewrite`, for one key: its lines. -/
def rewriteKey (clocks : Clocks) (i : Nat) (key : Str) (s : InMemoryStore) :
    InMemoryStore × List Str :=
  match s.keyType key (clocks i) with
  | (s, none) => (s, [])
  | (s, some type) =>
    match s.ttl key (clocks (i + 1)) with
    | (s, ttl) =>
      let seconds : Str := (toString ttl).toList
      let expireLine : List Str :=
        if ttl > 0 then ["EXPIRE ".toList ++ key ++ ' ' :: seconds] else []
      match type with
      | .string =>
        match s.get key (clocks (i + 2)) with
        | (s, none) => (s, [])
        | (s, some val) =>
          if ttl > 0 then (s, ["SET ".toList ++ key ++ ' ' :: val ++ " EX ".toList ++ seconds])
          else (s, ["SET ".toList ++ key ++ ' ' :: val])
      | .list =>
        match s.lrange key 0 (-1) (clocks (i + 2)) with
        | (s, .ok values) =>
          (s, (if values.length > 0 then ["RPUSH ".toList ++ key ++ ' ' :: joinSpace values]
            else []) ++ expireLine)
        | (s, .error _) => (s, expireLine)
      | .hash =>
        match s.hgetall key (clocks (i + 2)) with
        | (s, .ok values) =>
          (s, (if values.length > 0 then ["HSET ".toList ++ key ++ ' ' :: joinSpace values]
            else []) ++ expireLine)
        | (s, .error _) => (s, expireLine)

def rewriteLoop (clocks : Clocks) : List Str → Nat → InMemoryStore → InMemoryStore × List Str
  | [], _, s => (s, [])
  | key :: rest, i, s =>
    match rewriteKey clocks i key s with
    | (s, lines) =>
      match rewriteLoop clocks rest (i + 3) s with
      | (s, more) => (s, lines ++ more)

def rewriteCommands (s : InMemoryStore) (clocks : Clocks) : InMemoryStore × List Str :=
  match s.keys ['*'] (clocks 0) with
  | (s, keys) => rewriteLoop clocks keys 1 s

/-- `commands.join('\n')`, and a last LF if there is a command. -/
def commandText (commands : List Str) : Str :=
  List.intercalate ['\n'] commands ++ if commands.length > 0 then ['\n'] else []

/-- The call a rewrite is waiting for. -/
inductive Pending where
  | mkdir (commands : List Str)
  | writeFile (commands : List Str)
  | appendFile (buf : List Str)
  | rename
  deriving DecidableEq

end AofWriter

inductive FsyncPolicy where
  | always | everysec | no
  deriving DecidableEq

/-- The fields of the class, and the files. `#rewriteInProgress` is `rewriting.isSome`. -/
structure AofWriter where
  path : Str
  fsyncPolicy : FsyncPolicy
  fd : Option Nat
  dirty : Bool
  rewriteBuffer : Option (List Str)
  rewriting : Option AofWriter.Pending
  fs : Fs
  deriving DecidableEq

namespace AofWriter

def create (path : Str) (fsyncPolicy : FsyncPolicy) (fs : Fs) : AofWriter :=
  ⟨path, fsyncPolicy, none, false, none, none, fs⟩

def tempPath (w : AofWriter) : Str := w.path ++ ".temp".toList

def start (w : AofWriter) : AofWriter :=
  match w.fd with
  | some _ => w
  | none =>
    match w.fs.openAppend w.path with
    | (fs, fd) => { w with fs := fs, fd := some fd }

/-- `stop()`; `false` when `closeSync` throws, which is before `#fd` is cleared. -/
def stop (w : AofWriter) : AofWriter × Bool :=
  match w.fd with
  | none => ({ w with dirty := false }, true)
  | some fd =>
    match w.fs.fds[fd]? with
    | some (some _) =>
      let fs := if w.dirty then (w.fs.syncFd fd).getD w.fs else w.fs
      ({ w with fs := fs.closeFd fd, fd := none, dirty := false }, true)
    | _ => (w, false)

/-- `line.trim() + '\n'`. -/
def format (line : Str) : Str := Text.trim line ++ ['\n']

/-- `write(line)`; `false` when a system call throws. -/
def write (w : AofWriter) (line : Str) : AofWriter × Bool :=
  match w.fd with
  | none => (w, true)
  | some fd =>
    match w.fs.writeFd fd (format line) with
    | none => (w, false)
    | some fs =>
      let buffered (w : AofWriter) : AofWriter × Bool :=
        ({ w with rewriteBuffer := w.rewriteBuffer.map (· ++ [format line]) }, true)
      if w.fsyncPolicy = .always then
        match fs.syncFd fd with
        | none => ({ w with fs := fs, dirty := true }, false)
        | some fs => buffered { w with fs := fs, dirty := false }
      else buffered { w with fs := fs, dirty := true }

/-- `rewrite(store)` up to its first `await`; nothing happens when one is in progress. -/
def rewrite (w : AofWriter) (s : InMemoryStore) (clocks : Clocks) : AofWriter × InMemoryStore :=
  if w.rewriting.isSome then (w, s)
  else
    match rewriteCommands s clocks with
    | (s, commands) =>
      ({ w with rewriting := some (.mkdir commands), rewriteBuffer := some [] }, s)

def reject (w : AofWriter) : AofWriter := { w with rewriting := none, rewriteBuffer := none }

/-- Close the descriptor and wait for the rename. On a closed descriptor `closeSync`
throws, and the rewrite ends there. -/
def closeAndRename (w : AofWriter) : AofWriter :=
  match w.fd with
  | none => { w with rewriting := some .rename }
  | some fd =>
    match w.fs.fds[fd]? with
    | some (some _) => { w with fs := w.fs.closeFd fd, rewriting := some .rename }
    | _ => w.reject

def settle (w : AofWriter) : AofWriter :=
  match w.rewriting with
  | none => w
  | some (.mkdir commands) => { w with rewriting := some (.writeFile commands) }
  | some (.writeFile commands) =>
    let buf := w.rewriteBuffer.getD []
    let w := { w with
      fs := w.fs.writeFile w.tempPath (commandText commands)
      rewriteBuffer := none }
    if buf.length > 0 then { w with rewriting := some (.appendFile buf) } else w.closeAndRename
  | some (.appendFile buf) =>
    { w with fs := w.fs.appendFile w.tempPath buf.flatten }.closeAndRename
  | some .rename =>
    match (w.fs.rename w.tempPath w.path).openAppend w.path with
    | (fs, fd) => { w with fs := fs, fd := some fd, rewriting := none, rewriteBuffer := none }

end AofWriter

/-- What a command handler uses of its log. -/
class AofSink (W : Type) where
  /-- `write(line)`; `false` when it throws. -/
  write : W → Str → W × Bool
  /-- `rewrite(store)` up to its first `await`. -/
  rewrite : W → InMemoryStore → Clocks → W × InMemoryStore

instance : AofSink AofWriter := ⟨AofWriter.write, AofWriter.rewrite⟩

end MiniStore
