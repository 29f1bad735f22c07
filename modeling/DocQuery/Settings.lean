import DocQuery.Cache.Settings
import DocQuery.Tag

/-! # Settings

The settings of queries, tag expressions and the document cache, kept together. The cache has query
settings of its own. -/

namespace DocQuery

structure Settings where
  queries : Resolution.Options := {}
  tags : Tag.Options := {}
  cache : Cache.Settings := {}
  deriving DecidableEq, Repr

def Tag.Options.toValue (o : Tag.Options) : Value :=
  .mapping [("empty_tokens", .text (match o.emptyTokens with
    | .keep => "keep"
    | .reject => "reject"))]

def Settings.toValue (s : Settings) : Value :=
  .mapping
    [("engine", s.queries.toValue), ("tags", s.tags.toValue), ("cache", s.cache.toValue)]

end DocQuery
