import DocQuery.Resolution
import DocQuery.Text.Blank

/-! # Cache settings and document keys

A document is asked for by name and stored under a key: base directory, name, and the default
extension unless the name ends with it. -/

namespace DocQuery

def Resolution.Options.toValue (o : Resolution.Options) : Value :=
  .mapping
    [("throw_on_missing", .boolean o.throwOnMissing),
      ("empty_path", .text (match o.emptyPath with
        | .emptyText => "resolve_to_empty_string"
        | .reject => "reject"))]

namespace Cache

def standardExtension : String := ".yml"

structure Settings where
  baseDirectory : String := ""
  extension : String := standardExtension
  queries : Resolution.Options := {}
  deriving DecidableEq, Repr

namespace Settings

def toValue (s : Settings) : Value :=
  .mapping
    [("base_dir", .text s.baseDirectory), ("default_extension", .text s.extension),
      ("engine", s.queries.toValue)]

def directory (s : Settings) : List Char :=
  let base := s.baseDirectory.toList
  if base = [] ∨ ['/'].isSuffixOf base then base else base ++ ['/']

def keyOf (s : Settings) (name : List Char) : List Char :=
  s.directory ++ name ++ (if s.extension.toList.isSuffixOf name then [] else s.extension.toList)

def key (s : Settings) (name : String) : Except Error String :=
  if Text.trim name.toList = [] then .error (.invalidArgument .emptyDocumentName)
  else .ok (String.ofList (s.keyOf name.toList))

/-- The last component of a path that is not empty and not a dot, unless it is the parent
directory. -/
def fileOf? (path : List Char) : Option (List Char) :=
  match (Text.split '/' path).reverse.dropWhile (fun c => c == [] || c == ['.']) with
  | [] => none
  | file :: _ => if file = ['.', '.'] then none else some file

/-- What follows the last dot of a file name, unless that dot is at its front. -/
def extensionOf? (file : List Char) : Option (List Char) :=
  match Text.beforeLast? '.' file with
  | some (_ :: _) => some (Text.afterLast '.' file)
  | _ => none

def forFile (path : String) : Settings :=
  match (fileOf? path.toList).bind extensionOf? with
  | some extension => { extension := String.ofList ('.' :: extension) }
  | none => {}

end Settings

def beforeDoubleColon : List Char → List Char
  | ':' :: ':' :: _ => []
  | c :: rest => c :: beforeDoubleColon rest
  | [] => []

def shortTypeName (full : String) : String :=
  let base := full.toList.takeWhile (· != '<')
  String.ofList (beforeDoubleColon base.reverse).reverse

end Cache

end DocQuery
