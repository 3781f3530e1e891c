/-!
# File trees

A tree of folders and files as a value, and how a path is followed in it.

Main definitions:

- Type {lit}`FileTree`.
- Function {lit}`FileTree.read`: the content of the file at a path, or why there is none.
-/

namespace WhileLang

/-- A file with its content, or a folder with its entries. -/
inductive FileTree where
  | file (content : ByteArray)
  | folder (entries : List (String × FileTree))

namespace FileTree

/-- Why a path cannot be read. -/
inductive Fault where
  | missing
  | isFolder
  | notFolder
deriving DecidableEq

/-- The wording of a fault, with its number. -/
def Fault.message : Fault → String
  | .missing => "No such file or directory (os error 2)"
  | .isFolder => "Is a directory (os error 21)"
  | .notFolder => "Not a directory (os error 20)"

/--
Follow the parts of a path.  The folders around the place reached so far come along, the innermost
first; around the outermost one nothing is known but that it is a folder.
-/
def follow (here : FileTree) (around : List FileTree) : List String → Except Fault FileTree
  | [] => .ok here
  | part :: rest =>
    match here with
    | .file _ => .error .notFolder
    | .folder entries =>
      if part = "" ∨ part = "." then follow here around rest
      else if part = ".." then
        match around with
        | [] => follow (.folder []) [] rest
        | outer :: others => follow outer others rest
      else
        match entries.lookup part with
        | none => .error .missing
        | some inner => follow inner (here :: around) rest

/-- The content of the file at a path relative to a folder. -/
def read (tree : FileTree) (path : String) : Except Fault ByteArray :=
  if path.isEmpty then .error .missing
  else
    let start := if path.startsWith "/" then .folder [] else tree
    match follow start [] (path.splitOn "/") with
    | .error fault => .error fault
    | .ok (.folder _) => .error .isFolder
    | .ok (.file content) => .ok content

end FileTree

end WhileLang
