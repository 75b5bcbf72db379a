import EffectChain.Text.Basic

/-!
# EffectChain.Live.History

The lines that were submitted, oldest first, and the file they are kept in.  No line
occurs twice in a mode: one that is submitted again moves to the end.
-/

namespace EffectChain

/-- What a line is submitted as. -/
inductive Mode where
  /-- A statement of the program. -/
  | statement
  /-- A command about the program. -/
  | command
  deriving DecidableEq, Repr, Inhabited

namespace Mode

/-- The mark of the lines of a mode in a file. -/
def mark : Mode → String
  | .statement => "E:"
  | .command => "C:"

def other : Mode → Mode
  | .statement => .command
  | .command => .statement

end Mode

/-- One submitted line. -/
structure HistoryEntry where
  line : String
  mode : Mode := .statement
  deriving DecidableEq, Repr, Inhabited

namespace HistoryEntry

/-- The line of an entry in a file. -/
def text (e : HistoryEntry) : String := e.mode.mark ++ e.line

/-- The entry a line of a file stands for; a line without a mark is a statement. -/
def ofText (s : String) : HistoryEntry :=
  match s.dropPrefix? Mode.command.mark with
  | some line => ⟨line.toString, .command⟩
  | none => ⟨((s.dropPrefix? Mode.statement.mark).map (·.toString)).getD s, .statement⟩

end HistoryEntry

/-- The entries, and the content of their file. -/
structure History where
  entries : List HistoryEntry := []
  /-- Entries are kept in a file. -/
  stored : Bool := false
  /-- The content of the file, when there is one. -/
  file : Option String := none
  deriving DecidableEq, Repr, Inhabited

namespace History

def size (h : History) : Nat := h.entries.length

/-- The entries of a file, one a line; blank lines do not count. -/
def entriesOf (content : String) : List HistoryEntry :=
  ((Text.splitChar '\n' content).map Text.trimSpace).filter (· ≠ "") |>.map HistoryEntry.ofText

/-- The history with the entries of its file; without a file there are none. -/
def load (h : History) : History :=
  { h with entries := if h.stored then entriesOf (h.file.getD "") else [] }

/-- The history with a line submitted.  A new entry is added to the file; when an
entry moves, the file is written anew. -/
def add (h : History) (line : String) (mode : Mode) : History :=
  let e : HistoryEntry := ⟨Text.trimSpace line, mode⟩
  if e.line = "" || h.entries.getLast? = some e then h
  else if h.entries.contains e then
    let entries := h.entries.erase e ++ [e]
    { h with entries, file := if h.stored then some (Text.ofLines (entries.map (·.text)))
               else h.file }
  else
    { h with
      entries := h.entries ++ [e]
      file := if h.stored then some (h.file.getD "" ++ e.text ++ "\n") else h.file }

/-- The entry at a position. -/
def entry? (h : History) (i : Int) : Option HistoryEntry :=
  if i < 0 then none else h.entries[i.toNat]?

end History

end EffectChain
