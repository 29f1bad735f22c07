import DocQuery.Cache
import DocQuery.Command.Directory
import DocQuery.Main
import DocQuery.Proofs.CanonicalPath
import DocQuery.Proofs.FailedBuild
import DocQuery.Proofs.FirstInsert
import DocQuery.Proofs.LenientOptions
import DocQuery.Proofs.LoadBalance
import DocQuery.Proofs.PathComposition
import DocQuery.Proofs.TagNormalForm
import DocQuery.Proofs.TemplatePatterns
import DocQuery.Proofs.TransparentCache
import DocQuery.Proofs.TypedAnswers
import DocQuery.Query
import DocQuery.Settings.Json
import DocQuery.Settings.Yaml
import DocQuery.Value.Equality
import DocQuery.Proofs.DistinctKeys
import DocQuery.Proofs.EntryOrder
import DocQuery.Proofs.FloatDigits
import DocQuery.Proofs.NumberTexts
import DocQuery.Proofs.JsonTokens
import DocQuery.Proofs.JsonRoundTrip
import DocQuery.Proofs.KeyPaths
import DocQuery.Proofs.CommandFlags
import DocQuery.Proofs.FirstFailure
import DocQuery.Proofs.OnePassFilling
import DocQuery.Proofs.SyntaxErrors
import DocQuery.Proofs.PrintedNull
import DocQuery.Proofs.EmptyTags
import DocQuery.Proofs.AddedSigils
import DocQuery.Proofs.JoinedExpressions
import DocQuery.Proofs.KeptEntries
import DocQuery.Proofs.DocumentKeys
import DocQuery.Proofs.FileNames
import DocQuery.Proofs.FormatAgreement
import DocQuery.Proofs.EditedSettings
