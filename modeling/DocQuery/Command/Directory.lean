import DocQuery.Failure

/-! # Directories

A directory is given by the files in it and below, with their paths relative to it. Reading follows
a path component by component; what lies outside the directory does not exist. -/

namespace DocQuery.Command

structure Directory where
  files : List (String × String)

namespace Directory

def components (path : String) : List (List Char) := Text.split '/' path.toList

def file? (d : Directory) (place : List (List Char)) : Option String :=
  (d.files.find? fun (path, _) => components path = place).map Prod.snd

def isDirectory (d : Directory) (place : List (List Char)) : Bool :=
  place == [] || d.files.any fun (path, _) =>
    place.isPrefixOf (components path) && place != components path

def longestName : Nat := 255

def longestPath : Nat := 4095

def follow (d : Directory) (place : List (List Char)) : List (List Char) → Except FileFault String
  | [] =>
    match d.file? place with
    | some text => .ok text
    | none => .error .isDirectory
  | component :: rest =>
    if !d.isDirectory place then .error .notDirectory
    else if component = [] ∨ component = ['.'] then d.follow place rest
    else if component = ['.', '.'] then
      if place = [] then .error .notFound else d.follow place.dropLast rest
    else if longestName < (String.ofList component).utf8ByteSize then .error .nameTooLong
    else
      let next := place ++ [component]
      if (d.file? next).isSome || d.isDirectory next then d.follow next rest else .error .notFound

def read (d : Directory) (path : String) : Except FileFault String :=
  if longestPath < path.utf8ByteSize then .error .nameTooLong
  else if path.toList.head? = none ∨ path.toList.head? = some '/' then .error .notFound
  else d.follow [] (components path)

end Directory

end DocQuery.Command
