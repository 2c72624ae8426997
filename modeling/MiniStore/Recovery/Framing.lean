import MiniStore.Server.CommandHandler
import MiniStore.Store.AofRewrite

/-!
# One command, one line?

The log separates commands by LF; its reader also ends a line at a CR. The parser
takes both for white space inside a command, and `trim` removes them at the ends
only. So a command is read back as one line just when its trimmed text contains
neither.
-/

namespace MiniStore

open Text

namespace Recovery

/-- A text that is empty or ends in LF. -/
def Complete (text : Str) : Prop := text = [] ∨ ∃ s, text = s ++ ['\n']

theorem readLines_complete {text : Str} (h : Complete text) (rest : Str) :
    readLines (text ++ rest) = readLines text ++ readLines rest := by
  rcases h with rfl | ⟨s, rfl⟩
  · rfl
  · rw [List.append_assoc, List.singleton_append, readLines_append]

theorem complete_append_format (text line : Str) : Complete (text ++ AofWriter.format line) :=
  .inr ⟨text ++ trim line, by rw [AofWriter.format, List.append_assoc]⟩

theorem complete_commandText (commands : List Str) : Complete (AofWriter.commandText commands) := by
  cases commands with
  | nil => exact .inl rfl
  | cons l ls => exact .inr ⟨List.intercalate ['\n'] (l :: ls), rfl⟩

/-- A logged line without terminators is read back as itself. -/
theorem readLines_format {line : Str} (h : ∀ c ∈ trim line, isBreak c = false) (rest : Str) :
    readLines (AofWriter.format line ++ rest) = trim line :: readLines rest := by
  rw [AofWriter.format, List.append_assoc, List.singleton_append, readLines_append,
    readLines_line h]
  rfl

theorem readLines_append_format {text line : Str} (ht : Complete text)
    (h : ∀ c ∈ trim line, isBreak c = false) :
    readLines (text ++ AofWriter.format line) = readLines text ++ [trim line] := by
  have hline := readLines_format h []
  rw [List.append_nil] at hline
  rw [readLines_complete ht, hline]
  rfl

theorem split_at_break {s : Str} (h : ∃ c ∈ s, isBreak c = true) :
    ∃ u c v, s = u ++ c :: v ∧ (∀ d ∈ u, isBreak d = false) ∧ isBreak c = true := by
  induction s with
  | nil => obtain ⟨c, hc, -⟩ := h; cases hc
  | cons d s ih =>
    cases hd : isBreak d with
    | true => exact ⟨[], d, s, rfl, fun _ he => (nomatch he), hd⟩
    | false =>
      obtain ⟨c, hc, hb⟩ := h
      have hs : c ∈ s := by
        rcases List.mem_cons.mp hc with rfl | hs
        · rw [hd] at hb; cases hb
        · exact hs
      obtain ⟨u, e, v, rfl, hu, he⟩ := ih ⟨c, hs, hb⟩
      refine ⟨d :: u, e, v, rfl, fun x hx => ?_, he⟩
      rcases List.mem_cons.mp hx with rfl | hx
      · exact hd
      · exact hu x hx

/-- A logged line with a terminator inside is read back as several lines. -/
theorem two_le_length_format {line : Str} (h : ∃ c ∈ trim line, isBreak c = true) :
    2 ≤ (readLines (AofWriter.format line)).length := by
  obtain ⟨u, c, v, e, hu, hc⟩ := split_at_break h
  have hv : ∃ d ∈ v, isBreak d = false := by
    have hne : trim line ≠ [] := by rw [e]; simp
    have hlast := getLast_trim hne
    -- the last character is no white space, so it comes after the terminator
    rcases List.eq_nil_or_concat v with rfl | ⟨v', d, rfl⟩
    · simp only [e, List.getLast_append_singleton] at hlast
      rw [isSpace_of_isBreak hc] at hlast
      cases hlast
    · refine ⟨d, by simp, ?_⟩
      have he : (trim line).getLast hne = d := by simp [e]
      rw [he] at hlast
      cases hd : isBreak d with
      | false => rfl
      | true => rw [isSpace_of_isBreak hd] at hlast; cases hlast
  rw [AofWriter.format, e]
  exact two_le_length_readLines hu hc hv

/-- For every executed and logged line, over a log of complete lines and whatever is
logged later: what it adds to the log is read back as one line, which parses to the
executed command, exactly if the trimmed line contains neither CR nor LF. -/
theorem framed_iff (h : CommandHandler AofWriter) (w : AofWriter) (hw : h.aofWriter = some w)
    (i : Nat) (text : Str) (hs : w.Serving i text) (ht : Complete text) (line : Str) (c : Command)
    (hp : parseCommand line = .ok c) (connection : ClientConnection) (clocks : Clocks)
    (hlog : (h.executeCommand c line connection clocks).1.aofWriter =
      h.aofWriter.map fun w => (w.write line).1) :
    (∃ file l, ((h.executeCommand c line connection clocks).1.aofWriter.bind fun w' =>
          w'.fs.read w'.path) = some file ∧
        (∀ rest, readLines (file ++ rest) = readLines text ++ l :: readLines rest) ∧
        parseCommand l = .ok c) ↔
      ∀ d ∈ trim line, isBreak d = false := by
  obtain ⟨w', e, hs', -, -, -⟩ := hs.write line
  have hread : ((h.executeCommand c line connection clocks).1.aofWriter.bind fun w' =>
      w'.fs.read w'.path) = some (text ++ AofWriter.format line) := by
    rw [hlog, hw, Option.map_some, e]
    simp [Fs.read, hs'.name, hs'.content]
  rw [hread]
  constructor
  · rintro ⟨file, l, hf, hl, -⟩ d hd
    obtain rfl := Option.some.inj hf
    cases hb : isBreak d with
    | false => rfl
    | true =>
      have h2 := two_le_length_format ⟨d, hd, hb⟩
      have h1 := congrArg List.length (hl [])
      rw [List.append_nil, readLines_complete ht, List.length_append, List.length_append] at h1
      have hnil : (readLines []).length = 0 := rfl
      rw [List.length_cons, hnil] at h1
      omega
  · intro hb
    refine ⟨_, trim line, rfl, fun rest => ?_, by rw [parseCommand_trim, hp]⟩
    rw [List.append_assoc, readLines_complete ht, readLines_format hb]

def logging : CommandHandler AofWriter :=
  CommandHandler.create (InMemoryStore.create 2 (by decide)) none
    (some (AofWriter.create "aof".toList .no Fs.empty).start) none none []

theorem serving_logging : ∃ w, logging.aofWriter = some w ∧ w.Serving 0 [] :=
  ⟨_, rfl, (Fs.resolve_spec Fs.wf_empty "aof".toList).1.of_names rfl rfl, ⟨0, rfl, rfl⟩, rfl, rfl⟩

/-- A push whose values are separated by a space and a tab. -/
theorem framed_push : ∃ file l, ((logging.executeCommand (.rpush ['l'] [['a'], ['b']])
      "RPUSH l a\tb".toList ⟨1, "tcp".toList⟩ (Clocks.still 0)).1.aofWriter.bind fun w' =>
        w'.fs.read w'.path) = some file ∧
      (∀ rest, readLines (file ++ rest) = readLines [] ++ l :: readLines rest) ∧
      parseCommand l = .ok (.rpush ['l'] [['a'], ['b']]) := by
  obtain ⟨w, hw, hs⟩ := serving_logging
  exact (framed_iff logging w hw 0 [] hs (.inl rfl) _ _ (by decide) _ _ (by decide)).mpr
    (Text.forall_mem_of_all (by decide))

/-- A push whose values are separated by a line break, as a playground message may hold:
one push of two values is logged as a push of one value and an unknown command. -/
theorem line_break_splits_push :
    (logging.executed "RPUSH l a\nb".toList ⟨1, "ws".toList⟩).map (·.command) =
      [.rpush ['l'] [['a'], ['b']]] ∧
    ((logging.handleLine "RPUSH l a\nb".toList ⟨1, "ws".toList⟩ fun _ =>
      Clocks.still 0).1.aofWriter.bind fun w => w.fs.read w.path) = some "RPUSH l a\nb\n".toList ∧
    readLines "RPUSH l a\nb\n".toList = ["RPUSH l a".toList, "b".toList] ∧
    parseCommand "RPUSH l a".toList = .ok (.rpush ['l'] [['a']]) := by
  decide

end Recovery

end MiniStore
