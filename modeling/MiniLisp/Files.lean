import MiniLisp.Error

/-!
# Files

What a program gets when it reads a path, and directories with files in them. In a directory each file stands by the
names on the way to it; further directories are there as far as files are in them.

* `Directory.read?`: the text of the file that a path names.
-/

namespace MiniLisp

/-- What reading each path gives. -/
abbrev Files := String → Except FileError String

/-- A directory that a program runs in: the files below it with their bytes, by the names on the way to them. -/
structure Directory where
  entries : List (List String × ByteArray)

/-- Where a walk along a path has come to. -/
inductive Place
  /-- A place in the tree of files, by the names on the way to it, the last name first. -/
  | inside (names : List String)
  /-- A directory that surrounds the tree. -/
  | outside

namespace Directory

def empty : Directory := ⟨[]⟩

/-- The parts of a path between its slashes. -/
def parts (path : String) : List (List Char) := path.toList.splitOn '/'

/-- Whether a part of a path stays where it is: an empty one does, and `.`. -/
def stays (part : List Char) : Bool := part = [] ∨ part = ['.']

/-- A directory with files given by their paths. -/
def ofPaths (files : List (String × ByteArray)) : Directory :=
  ⟨files.map fun f =>
    (((parts f.1).filter fun part => !stays part).map String.ofList, f.2)⟩

/-- The bytes of the file at a place. -/
def bytes? (dir : Directory) (names : List String) : Option ByteArray :=
  (dir.entries.find? fun f => f.1 = names.reverse).map (·.2)

/-- Whether a place is a directory: the place where all starts is one, and those on the way to a file. -/
def isDirectory (dir : Directory) (names : List String) : Bool :=
  names.isEmpty || dir.entries.any fun f => names.reverse.isPrefixOf f.1 && names.length < f.1.length

/-- The name that a part of a path is, of at most 255 bytes. -/
def name? (part : List Char) : Except FileError String :=
  let name := String.ofList part
  if 255 < name.utf8ByteSize then .error .nameTooLong else .ok name

/-- One step along a path. Of what surrounds the tree nothing is known but the way up. -/
def step (dir : Directory) (place : Place) (part : List Char) : Except FileError Place :=
  match place with
  | .outside =>
    if stays part ∨ part = ['.', '.'] then .ok .outside
    else
      match name? part with
      | .error fault => .error fault
      | .ok _ => .error .notFound
  | .inside names =>
    if !dir.isDirectory names then .error .notADirectory
    else if stays part then .ok place
    else if part = ['.', '.'] then
      match names with
      | [] => .ok .outside
      | _ :: names => .ok (.inside names)
    else
      match name? part with
      | .error fault => .error fault
      | .ok name =>
        if (dir.bytes? (name :: names)).isSome ∨ dir.isDirectory (name :: names) then .ok (.inside (name :: names))
        else .error .notFound

/-- The place that a path names. -/
def place? (dir : Directory) (path : String) : Except FileError Place :=
  if path.toList.contains '\x00' then .error .nullInName
  else if path.isEmpty then .error .notFound
  else if 4096 ≤ path.utf8ByteSize then .error .nameTooLong
  else
    match parts path with
    | [] :: rest => rest.foldlM dir.step .outside
    | all => all.foldlM dir.step (.inside [])

/-- The text of the file that a path names. -/
def read? (dir : Directory) : Files := fun path =>
  match dir.place? path with
  | .error fault => .error fault
  | .ok .outside => .error .isADirectory
  | .ok (.inside names) =>
    match dir.bytes? names with
    | none => .error .isADirectory
    | some bytes =>
      match String.fromUTF8? bytes with
      | some s => .ok s
      | none => .error .notText

end Directory

end MiniLisp
