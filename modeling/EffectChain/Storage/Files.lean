import EffectChain.Data.Table
import EffectChain.Text.Basic

/-!
# EffectChain.Storage.Files

Paths, patterns for file names, and a tree of files.

Paths are slash-separated and taken by their text alone.  In a pattern `*` stands for any
run of characters, `?` for any one, `[a-z]` for one of a class, and a backslash takes the
next character as it is.  A tree of files has their contents by paths relative to its root.
-/

namespace EffectChain.Path

/-- One more component on a stack of cleaned components, last component first. -/
def step (rooted : Bool) (stack : List String) (part : String) : List String :=
  if part = "" || part = "." then stack
  else if part = ".." then
    match stack with
    | [] => if rooted then [] else [".."]
    | top :: below => if top = ".." then ".." :: stack else below
  else part :: stack

def isRooted (p : String) : Bool := p.startsWith "/"

/-- The components of a path without empty ones, dots and steps up that cancel. -/
def parts (p : String) : List String :=
  ((Text.splitChar '/' p).foldl (step (isRooted p)) []).reverse

/-- The shortest path of the same meaning. -/
def clean (p : String) : String :=
  let body := "/".intercalate (parts p)
  if isRooted p then "/" ++ body else if body = "" then "." else body

/-- Paths joined and cleaned; empty ones do not count. -/
def join (ps : List String) : String :=
  match ps.filter (· ≠ "") with
  | [] => ""
  | ps => clean ("/".intercalate ps)

/-- The last component. -/
def base (p : String) : String := Text.afterLast '/' p

/-- The text from the last dot of the last component on. -/
def extension (p : String) : String :=
  match Text.cutLast? '.' (base p) with
  | some (_, ext) => "." ++ ext
  | none => ""

end EffectChain.Path

namespace EffectChain.Glob

/-- A piece of a pattern. -/
inductive Piece where
  | run
  | any
  | one (c : Char)
  | oneOf (negated : Bool) (ranges : List (Char × Char))
  deriving DecidableEq, Repr, Inhabited

/-- A character of a class; the class has to go on after it. -/
def classChar? : List Char → Option (Char × List Char)
  | [] => none
  | '\\' :: c :: rest => if rest.isEmpty then none else some (c, rest)
  | c :: rest => if c = '-' || c = ']' || c = '\\' || rest.isEmpty then none else some (c, rest)

/-- The ranges of a class up to its bracket, of which there is at least one. -/
def ranges? :
    (fuel : Nat) → List (Char × Char) → List Char → Option (List (Char × Char) × List Char)
  | 0, _, _ => none
  | fuel + 1, acc, cs =>
    if cs.head? = some ']' && !acc.isEmpty then some (acc.reverse, cs.tail)
    else do
      let (lo, rest) ← classChar? cs
      match rest with
      | '-' :: rest =>
        let (hi, rest) ← classChar? rest
        ranges? fuel ((lo, hi) :: acc) rest
      | rest => ranges? fuel ((lo, lo) :: acc) rest

/-- The pieces of a pattern, if it is well formed. -/
def pieces? : (fuel : Nat) → List Char → Option (List Piece)
  | _, [] => some []
  | 0, _ => none
  | fuel + 1, '*' :: cs => (pieces? fuel cs).map (.run :: ·)
  | fuel + 1, '?' :: cs => (pieces? fuel cs).map (.any :: ·)
  | fuel + 1, '[' :: '^' :: cs => do
    let (rs, rest) ← ranges? (cs.length + 1) [] cs
    return .oneOf true rs :: (← pieces? fuel rest)
  | fuel + 1, '[' :: cs => do
    let (rs, rest) ← ranges? (cs.length + 1) [] cs
    return .oneOf false rs :: (← pieces? fuel rest)
  | _ + 1, ['\\'] => none
  | fuel + 1, '\\' :: c :: cs => (pieces? fuel cs).map (.one c :: ·)
  | fuel + 1, c :: cs => (pieces? fuel cs).map (.one c :: ·)

/-- Reads a pattern; `none` when it is malformed. -/
def read? (pattern : String) : Option (List Piece) :=
  pieces? (pattern.length + 1) pattern.toList

/-- Whether a piece that stands for one character stands for `c`. -/
def Piece.fits (c : Char) : Piece → Bool
  | .run => false
  | .any => c ≠ '/'
  | .one d => c = d
  | .oneOf negated rs => (rs.any fun (lo, hi) => lo ≤ c && c ≤ hi) != negated

/-- Whether a name is one the pieces stand for. -/
def matches? : List Piece → List Char → Bool
  | [], cs => cs.isEmpty
  | .run :: ps, cs => matches? ps cs || (match cs with
    | [] => false
    | c :: rest => c ≠ '/' && matches? (.run :: ps) rest)
  | p :: ps, c :: cs => p.fits c && matches? ps cs
  | _ :: _, [] => false
termination_by ps cs => (ps.length, cs.length)

/-- Whether a text has characters with a meaning in patterns. -/
def isPattern (s : String) : Bool := s.toList.any fun c => "*?[\\".toList.contains c

end EffectChain.Glob

namespace EffectChain

/-- Why a path cannot be used. -/
inductive FileFault where
  | missing
  | notDirectory
  | isDirectory
  deriving DecidableEq, Repr, Inhabited

def FileFault.message : FileFault → String
  | .missing => "no such file or directory"
  | .notDirectory => "not a directory"
  | .isDirectory => "is a directory"

/-- A refusal, by what was tried, on which path, and why it failed. -/
structure FileError where
  action : String
  path : String
  fault : FileFault
  deriving DecidableEq, Repr, Inhabited

def FileError.message (e : FileError) : String :=
  e.action ++ " " ++ e.path ++ ": " ++ e.fault.message

/-- What stands at a path: the content of a file, or `none` for a directory. -/
structure Files where
  entries : Table (Option String) := {}
  /-- The absolute path of the root, when it is known. -/
  root : String := ""
  deriving Repr, Inhabited

namespace Files

/-- A path as one from the root of the tree; `none` outside of it. -/
def relative? (f : Files) (path : String) : Option String :=
  if !Path.isRooted path then some path
  else if f.root = "" then none
  else if path = f.root then some "."
  else if path.startsWith (f.root ++ "/")
    then some ("./" ++ (path.drop (f.root.length + 1)).toString)
  else none

/-- The absolute path of a path. -/
def absolute (f : Files) (path : String) : String :=
  if Path.isRooted path then path else Path.join [f.root, path]

/-- The path an entry is kept under; `none` outside the tree. -/
def key? (f : Files) (path : String) : Option String := do
  let parts := Path.parts (← f.relative? path)
  if parts.head? = some ".." then none else some ("/".intercalate parts)

/-- The tree with a file written. -/
def write (f : Files) (path content : String) : Files :=
  match f.key? path with
  | some k => { f with entries := f.entries.insert k (some content) }
  | none => f

/-- The tree with a directory made. -/
def makeDir (f : Files) (path : String) : Files :=
  match f.key? path with
  | some k => if f.entries.contains k then f else { f with entries := f.entries.insert k none }
  | none => f

/-- The tree of a list of files; a name that ends in a slash is a directory. -/
def ofList (es : List (String × String)) : Files :=
  es.foldl (fun f (p, c) => if p.endsWith "/" then f.makeDir p else f.write p c) {}

/-- Whether a directory stands under a key: one that was made or one with entries. -/
def isDirKey (f : Files) (k : String) : Bool :=
  k = "" || f.entries.get? k == some none || f.entries.keys.any (·.startsWith (k ++ "/"))

/-- One step of the walk along a path, which starts in a directory. -/
def walk (f : Files) (at? : Except FileFault (List String)) (part : String) :
    Except FileFault (List String) := do
  let here ← at?
  let k := "/".intercalate here
  if f.isDirKey k then
    if part = "" || part = "." then .ok here
    else if part = ".." then (if here.isEmpty then .error .missing else .ok here.dropLast)
    else .ok (here ++ [part])
  else if (f.entries.get? k).isSome then .error .notDirectory
  else .error .missing

/-- The key a path leads to through directories; nothing has to stand there. -/
def place (f : Files) (path : String) : Except FileFault String :=
  match f.relative? path with
  | none | some "" => .error .missing
  | some path => ((Text.splitChar '/' path).foldl f.walk (.ok [])).map ("/".intercalate ·)

/-- The key of what stands at a path. -/
def locate (f : Files) (path : String) : Except FileFault String := do
  let k ← f.place path
  if f.isDirKey k || (f.entries.get? k).isSome then .ok k else .error .missing

/-- The content of a file, or why it cannot be read. -/
def read (f : Files) (path : String) : Except FileError String :=
  match f.locate path with
  | .error fault => .error ⟨"open", path, fault⟩
  | .ok k =>
    match (f.entries.get? k).join with
    | some content => .ok content
    | none => .error ⟨"read", path, .isDirectory⟩

/-- The content of a file. -/
def read? (f : Files) (path : String) : Option String := (f.read path).toOption

/-- The tree with a file written, or why it cannot be. -/
def create (f : Files) (path content : String) : Except FileError Files :=
  match f.place path with
  | .error fault => .error ⟨"open", path, fault⟩
  | .ok k =>
    if f.isDirKey k then .error ⟨"open", path, .isDirectory⟩
    else .ok { f with entries := f.entries.insert k (some content) }

/-- Whether a directory stands at a path. -/
def isDir (f : Files) (path : String) : Bool :=
  match f.key? path with
  | none => false
  | some k => f.isDirKey k

def contains (f : Files) (path : String) : Bool := (f.locate path).toOption.isSome

/-- The names in a directory in increasing order. -/
def names (f : Files) (dir : String) : List String :=
  match f.key? dir with
  | none => []
  | some k =>
    let lead := if k = "" then "" else k ++ "/"
    let inside := f.entries.keys.filterMap fun p =>
      if p.startsWith lead && p ≠ lead then
        (Text.splitChar '/' (p.drop lead.length).toString).head?
      else none
    inside.eraseDups.mergeSort fun a b => a ≤ b

/-- What a path leads to by its text alone, if something stands there. -/
def identity? (f : Files) (path : String) : Option String :=
  (f.key? path).filter fun k => f.isDirKey k || (f.entries.get? k).isSome

/-- Paths without those that lead to what an earlier one leads to.  Paths that lead
nowhere stay. -/
def distinct (f : Files) (paths : List String) : List String :=
  (paths.foldl (fun (out, seen) p =>
    match f.identity? p with
    | none => (p :: out, seen)
    | some k => if seen.contains k then (out, seen) else (p :: out, k :: seen))
    (([], []) : List String × List String)).1.reverse

/-- The paths in a directory whose names fit a pattern. -/
def matching (f : Files) (dir : String) (ps : List Glob.Piece) : List String :=
  ((f.names dir).filter fun n => Glob.matches? ps n.toList).map fun n => Path.join [dir, n]

/-- The paths that fit a pattern, given by its components, last component first. -/
def globParts (f : Files) : List String → List String
  | [] => []
  | last :: before =>
    let pattern := "/".intercalate (last :: before).reverse
    if !Glob.isPattern pattern then
      if f.contains pattern then [pattern] else []
    else
      let dir := "/".intercalate before.reverse
      let dirs := if Glob.isPattern dir then f.globParts before else [dir]
      dirs.flatMap fun d => f.matching d ((Glob.read? last).getD [])

/-- The paths that fit a pattern in increasing order; `none` when it is malformed. -/
def glob? (f : Files) (pattern : String) : Option (List String) :=
  (Glob.read? pattern).map fun _ =>
    if Path.isRooted pattern then []
    else (f.globParts (Path.parts pattern).reverse).mergeSort fun a b => a ≤ b

end Files

end EffectChain
