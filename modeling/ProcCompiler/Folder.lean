/-!
# Folders

A folder holds files by name. It also answers to the names of itself and of the folder above, which
can be opened but hold no bytes to read. A name has at most 255 bytes and no zero byte.

* `read_put_self`, `read_put_ne`: what was put last under a proper name is read.
-/
namespace ProcCompiler

/-- Why the bytes of a file cannot be had. -/
inductive ReadError where
  | notFound
  | isFolder
  | nameTooLong
  | badName
  | denied
  | other (cause : String)
deriving DecidableEq

/-- The complaint about the file of that name. A folder fails when it is read, all else when it is
opened. -/
def ReadError.message (name : String) : ReadError → String
  | notFound => "open " ++ name ++ ": no such file or directory"
  | isFolder => "read " ++ name ++ ": is a directory"
  | nameTooLong => "open " ++ name ++ ": file name too long"
  | badName => "open " ++ name ++ ": invalid argument"
  | denied => "open " ++ name ++ ": permission denied"
  | other cause => "open " ++ name ++ ": " ++ cause

/-- The files of a folder, the newest first. -/
structure Folder where
  files : List (String × List UInt8) := []
deriving DecidableEq

namespace Folder

/-- Writes a file, in place of an earlier one of that name. -/
def put (f : Folder) (name : String) (bytes : List UInt8) : Folder :=
  { files := (name, bytes) :: f.files }

/-- The folder after files were written in order. -/
def ofList (files : List (String × List UInt8)) : Folder :=
  files.foldl (fun f (name, bytes) => f.put name bytes) {}

/-- The most bytes that a name may have. -/
def maxName : Nat := 255

/-- What is wrong with a name, whatever the folder holds. -/
def nameError? (name : String) : Option ReadError :=
  if Char.ofNat 0 ∈ name.toList then some .badName
  else if maxName < name.utf8ByteSize then some .nameTooLong
  else if name = "." ∨ name = ".." then some .isFolder
  else none

/-- The bytes of a file. -/
def read (f : Folder) (name : String) : Except ReadError (List UInt8) :=
  match nameError? name with
  | some e => .error e
  | none =>
    match f.files.lookup name with
    | some bytes => .ok bytes
    | none => .error .notFound

theorem read_put_self {name : String} (h : nameError? name = none) (f : Folder)
    (bytes : List UInt8) :
    (f.put name bytes).read name = .ok bytes := by
  simp [read, h, put]

theorem read_put_ne {name other : String} (h : name ≠ other) (f : Folder) (bytes : List UInt8) :
    (f.put name bytes).read other = f.read other := by
  have hb : (other == name) = false := by simpa using h.symm
  simp [read, put, List.lookup_cons, hb]

end Folder

end ProcCompiler
