/-!
# Where a file can be written

A file system as far as it decides whether a file can be written at a path: a
tree of directories, in which each file says whether it takes what is written to
it, and each directory whether files can be made in it.

A path is followed name by name from the root or from the working directory. What
is passed on the way must be a directory, and what stands at the end must not.
A path that ends in a slash or in dots names a directory in any case.
-/

namespace Specificity

/-- Why nothing was written. -/
inductive WriteError where
  /-- The path holds a NUL character. -/
  | nulByte
  /-- A name on the way stands for nothing. -/
  | notFound
  /-- What was passed on the way is not a directory. -/
  | notDirectory
  /-- The path stands for a directory. -/
  | isDirectory
  /-- A name or the whole path is too long. -/
  | nameTooLong
  /-- A device or a directory refuses what is asked of it, with a numbered error. -/
  | refused (text : String) (number : Nat)
deriving DecidableEq

/-- The text of a numbered error of the operating system. -/
def osErrorText (text : String) (number : Nat) : String := s!"{text} (os error {number})"

/-- The message about a failed write. -/
def WriteError.message : WriteError → String
  | nulByte => "file name contained an unexpected NUL byte"
  | notFound => osErrorText "No such file or directory" 2
  | notDirectory => osErrorText "Not a directory" 20
  | isDirectory => osErrorText "Is a directory" 21
  | nameTooLong => osErrorText "File name too long" 36
  | refused text number => osErrorText text number

/-- What a name in a directory stands for. -/
inductive FileEntry where
  /-- A file or a device, and why it takes nothing, if it does not. -/
  | file (refusal : Option WriteError)
  /-- A directory, why no file can be made in it, if none can, and its entries. -/
  | directory (refusal : Option WriteError) (entries : List (String × FileEntry))

/-- A file system. -/
structure FileSystem where
  /-- The directory at the top. -/
  root : FileEntry
  /-- The working directory and the directories above it, up to the root. -/
  working : List FileEntry

namespace FileSystem

/-- The longest name, in bytes. -/
def longestName : Nat := 255

/-- The longest path, in bytes. -/
def longestPath : Nat := 4095

/-- **Passing a name on the way**: the directory reached and those above it, given
those before. The directory above the root is the root. -/
def pass (above : List FileEntry) (name : String) : Except WriteError (List FileEntry) :=
  match above with
  | [] => .error .notFound
  | .file _ :: _ => .error .notDirectory
  | .directory refusal entries :: rest =>
    if name = "." then .ok above
    else if name = ".." then .ok (if rest.isEmpty then above else rest)
    else
      match entries.lookup name with
      | some entry => .ok (entry :: above)
      | none =>
        if refusal.isNone && longestName < name.utf8ByteSize then .error .nameTooLong
        else .error .notFound

/-- **Writing at the end of the way**: to the file of a name, which is made if it is
not there. -/
def writeAt (name : String) (asDirectory : Bool) : FileEntry → Except WriteError Unit
  | .file _ => .error .notDirectory
  | .directory refusal entries =>
    if asDirectory || name = "." || name = ".." then .error .isDirectory
    else
      match entries.lookup name, refusal with
      | some (.directory ..), _ => .error .isDirectory
      | some (.file none), _ => .ok ()
      | some (.file (some e)), _ => .error e
      | none, some e => .error e
      | none, none => if longestName < name.utf8ByteSize then .error .nameTooLong else .ok ()

/-- The names in a path, between its slashes. -/
def names (path : List Char) : List String :=
  let words := path.foldr (fun c words =>
    if c = '/' then [] :: words
    else (c :: words.headD []) :: words.tail) [[]]
  (words.filter fun word => !word.isEmpty).map String.ofList

/-- **Writing to a path.** -/
def write (fs : FileSystem) (path : String) : Except WriteError Unit :=
  let text := path.toList
  if text.contains '\x00' then .error .nulByte
  else if longestPath < path.utf8ByteSize then .error .nameTooLong
  else
    let start := if text.head? = some '/' then [fs.root] else fs.working
    match (names text).reverse with
    | [] => .error .isDirectory
    | last :: before =>
      (before.reverse.foldlM pass start).bind fun
        | [] => .error .notFound
        | here :: _ => writeAt last (text.getLast? = some '/') here

/-- **A small customary file system**: a device that takes whatever is written, a directory in
which no file can be made, and a working directory next to them. -/
def customary : FileSystem :=
  let top := FileEntry.directory none
    [("dev", .directory none [("null", .file none)]), ("proc", .directory (some .notFound) [])]
  ⟨top, [.directory none [], top]⟩

end FileSystem

end Specificity
