import AuditedRules.CommandLine
import AuditedRules.Environment
import AuditedRules.Folder
import AuditedRules.Main
import AuditedRules.Proofs.Context
import AuditedRules.Proofs.Document.Members
import AuditedRules.Proofs.Document.ReadBack
import AuditedRules.Proofs.Document.Values
import AuditedRules.Proofs.Evaluation.Audit
import AuditedRules.Proofs.Evaluation.EntryPoints
import AuditedRules.Proofs.Evaluation.Envelope
import AuditedRules.Proofs.Evaluation.FirstFailure
import AuditedRules.Proofs.Evaluation.Formulas
import AuditedRules.Proofs.Evaluation.Limit
import AuditedRules.Proofs.Evaluation.MissingFields
import AuditedRules.Proofs.Evaluation.NullValues
import AuditedRules.Proofs.Evaluation.Observation
import AuditedRules.Proofs.Evaluation.Records
import AuditedRules.Proofs.Evaluation.ResultText
import AuditedRules.Proofs.Evaluation.TraceLines
import AuditedRules.Proofs.Intake
import AuditedRules.Proofs.Intake.NotJson
import AuditedRules.Proofs.Intake.StrippedReplies
import AuditedRules.Proofs.Predicate.NestedText
import AuditedRules.Proofs.Predicate.Rendering
import AuditedRules.Proofs.Predicate.RoundTrip
import AuditedRules.Proofs.Predicate.Schema
import AuditedRules.Proofs.Predicate.ShownTrees
import AuditedRules.Proofs.Registry.OfBook
import AuditedRules.Proofs.Registry.Runs
import AuditedRules.Proofs.RuleBook.FirstOffender
import AuditedRules.Proofs.RuleBook.Loaded
import AuditedRules.Proofs.RuleBook.RoundTrip
import AuditedRules.Proofs.RuleBook.Samples
import AuditedRules.Proofs.Service.Agreement
import AuditedRules.Proofs.Walks
import AuditedRules.Service
