import Userstyle.Text.Lines
import Userstyle.Text.Size

/-!
# Directories

The working directory of a command, as far as the command can see it: files with names and
contents. Nothing is known of the world around it, so a path that leads out of the directory leads
to no file.
-/

namespace Userstyle.Cli

open Text

/-- Why a file cannot be read or created. -/
inductive FileFault where
  /-- There is no such file. -/
  | notFound
  /-- The path names a directory. -/
  | isDirectory
  /-- The path uses a file as a directory. -/
  | notDirectory
  /-- The name of the file is too long. -/
  | nameTooLong
  /-- The contents of the file are not text. -/
  | notText
  /-- Anything else. -/
  | other (text : String)
  deriving DecidableEq, Repr

/-- The wording of a fault. -/
def FileFault.message : FileFault → String
  | .notFound => "No such file or directory (os error 2)"
  | .isDirectory => "Is a directory (os error 21)"
  | .notDirectory => "Not a directory (os error 20)"
  | .nameTooLong => "File name too long (os error 36)"
  | .notText => "stream did not contain valid UTF-8"
  | .other text => text

/-- The files of a directory by name. -/
structure Directory where
  /-- Names and contents. -/
  files : List (String × ByteArray)

/-- What a file is opened for. -/
inductive Purpose where
  /-- To read it. -/
  | reading
  /-- To write it, creating it if need be. -/
  | writing
  deriving DecidableEq, Repr

namespace Directory

/-- The contents of a file. -/
def contents? (d : Directory) (name : String) : Option ByteArray := d.files.lookup name

/-- The longest name that a file can have, in bytes. -/
def maxNameLength : Nat := 255

/-- The steps of a path: its parts between slashes without empty ones and single dots. -/
def steps (path : List Char) : List (List Char) :=
  (pieces (· == '/') path).filter fun part => part != [] && part != ['.']

/-- Whether a path names something as a directory by its ending. -/
def endsAsDirectory (path : List Char) : Bool :=
  ((pieces (· == '/') path).getLast?.any fun part => part == [] || part == ['.'])

/-- The name of the file that a path leads to. -/
def fileAt (d : Directory) (purpose : Purpose) (path : String) : Except FileFault String :=
  let path := path.toList
  match steps path with
  | [] => .error .isDirectory
  | part :: parts =>
    let name := String.ofList part
    let underFile : FileFault := if (d.contents? name).isSome then .notDirectory else .notFound
    if path.head? = some '/' ∨ ['.', '.'] ∈ part :: parts then .error .notFound
    else if byteLength part > maxNameLength then .error .nameTooLong
    else if parts ≠ [] then .error underFile
    else if purpose = .writing ∧ path.getLast? = some '/' then .error .isDirectory
    else if endsAsDirectory path then .error underFile
    else .ok name

/-- The text of the file that a path leads to. -/
def read (d : Directory) (path : String) : Except FileFault String :=
  match d.fileAt .reading path with
  | .error fault => .error fault
  | .ok name =>
    match d.contents? name with
    | none => .error .notFound
    | some bytes =>
      match String.fromUTF8? bytes with
      | none => .error .notText
      | some text => .ok text

/-- Sets the contents of the file with a name. -/
def put (d : Directory) (name : String) (bytes : ByteArray) : Directory :=
  ⟨(name, bytes) :: d.files.filter fun file => file.1 != name⟩

/-- Writes a text to the file that a path leads to. -/
def write (d : Directory) (path text : String) : Except FileFault Directory :=
  match d.fileAt .writing path with
  | .error fault => .error fault
  | .ok name => .ok (d.put name text.toUTF8)

end Directory

end Userstyle.Cli
