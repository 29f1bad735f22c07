import DocQuery.Path
import DocQuery.Value.Type

/-! # Errors

There are three kinds of error: a path that designates nothing, a value of another type than the
requested one, and an argument that cannot be used. Each error carries its cause; the wording of
all of them is in the `message` functions. Of a text that cannot be parsed the message gives only
the words in front of the parser's own, which are left out. -/

namespace DocQuery

inductive PathFault
  | malformedIndex (position : Nat)
  | unexpected (c : Char) (position : Nat)
  | unexpectedEnd (position : Nat)
  | emptyPath
  | fieldNotFound (name : String)
  | notSequence (name : String) (kind : Kind)
  | indexOutOfRange (index : UInt64) (name : String) (length : Nat)
  | nullValue (segment : Segment)
  | notMapping (segment : Segment) (kind : Kind)
  | stated (message : String)
  deriving DecidableEq, Repr

inductive Format
  | json
  | yaml
  deriving DecidableEq, Repr

def Format.name : Format → String
  | .json => "JSON"
  | .yaml => "YAML"

inductive FileFault
  | notFound
  | notDirectory
  | isDirectory
  | nameTooLong
  | other (message : String)
  deriving DecidableEq, Repr

def FileFault.message : FileFault → String
  | notFound => "No such file or directory (os error 2)"
  | notDirectory => "Not a directory (os error 20)"
  | isDirectory => "Is a directory (os error 21)"
  | nameTooLong => "File name too long (os error 36)"
  | other message => message

inductive LoadFault
  | missing (key : String)
  /-- no outcome was laid down for the key -/
  | unscripted (key : String)
  /-- an error in words, with the contexts that were added around it, innermost first -/
  | stated (cause : String) (contexts : List String)
  | unreadable (file : String) (fault : FileFault)
  | malformed (format : Format) (file : String)
  | malformedEntry (format : Format) (key : String)
  deriving DecidableEq, Repr

def LoadFault.message : LoadFault → String
  | missing key => "Missing " ++ key
  | unscripted key => "No script for " ++ key
  | stated cause contexts => ": ".intercalate (contexts.reverse ++ [cause])
  | unreadable file fault => "reading '" ++ file ++ "': " ++ fault.message
  | malformed format file => "parsing " ++ format.name ++ " '" ++ file ++ "'"
  | malformedEntry format key => "parsing " ++ format.name ++ " for '" ++ key ++ "'"

inductive ArgumentFault
  | emptyTag (expression : String)
  | noTemplateArguments (template : String)
  | rootNotMapping (key : String) (kind : Kind)
  | malformedDocument (format : Format)
  | malformedSettings
  | emptyDocumentName
  | loadFailed (key : String) (fault : LoadFault)
  | stated (message : String)
  deriving DecidableEq, Repr

def PathFault.message : PathFault → String
  | malformedIndex position =>
    "malformed index at position " ++ toString position ++ ", expected '[' digits ']'"
  | unexpected c position =>
    "unexpected '" ++ c.toString ++ "' at position " ++ toString position
  | unexpectedEnd position =>
    "unexpected end of path at position " ++ toString position
  | emptyPath => "empty path"
  | fieldNotFound name => "field '" ++ name ++ "' not found"
  | notSequence name kind =>
    "field '" ++ name ++ "' is of kind " ++ kind.name ++ ", not a sequence"
  | indexOutOfRange index name length =>
    "index " ++ toString index.toNat ++ " out of range for '" ++ name ++ "' of length " ++
      toString length
  | nullValue segment => "'" ++ segment.text ++ "' is null"
  | notMapping segment kind =>
    "cannot descend below '" ++ segment.text ++ "': value is of kind " ++ kind.name
  | stated message => message

def ArgumentFault.message : ArgumentFault → String
  | emptyTag expression => "Tag expression '" ++ expression ++ "' contains an empty tag"
  | noTemplateArguments template =>
    "Key template '" ++ template ++ "' needs at least one argument"
  | rootNotMapping key kind =>
    "Document '" ++ key ++ "' must have a mapping at its root, found " ++ kind.name
  | malformedDocument format => "Invalid " ++ format.name ++ " document"
  | malformedSettings => "Invalid configuration"
  | emptyDocumentName => "Empty document name"
  | loadFailed key fault => "Failed to load document '" ++ key ++ "': " ++ fault.message
  | stated message => message

inductive Error
  | invalidPath (path : Option String) (fault : PathFault)
  | wrongType (path expected actual : String)
  | invalidArgument (fault : ArgumentFault)
  deriving DecidableEq, Repr

namespace Error

def message : Error → String
  | invalidPath none fault => "Invalid path: " ++ fault.message
  | invalidPath (some path) fault => "Invalid path '" ++ path ++ "': " ++ fault.message
  | wrongType path expected actual =>
    "Wrong type at '" ++ path ++ "': expected " ++ expected ++ ", actual type is " ++ actual
  | invalidArgument fault => "Invalid argument: " ++ fault.message

def path? : Error → Option String
  | invalidPath path _ => path
  | wrongType path _ _ => some path
  | invalidArgument _ => none

/-- Whether data is missing; the other errors are mistakes of the caller. -/
def isMissing : Error → Bool
  | invalidPath _ _ => true
  | _ => false

def isMalformedText : Error → Bool
  | invalidArgument (.malformedDocument _) => true
  | invalidArgument (.loadFailed _ (.malformed _ _)) => true
  | _ => false

end Error

end DocQuery
