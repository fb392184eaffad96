import TableAlteration.Json.Reader
import TableAlteration.Proofs.Dict
import TableAlteration.Run.Alteration
import TableAlteration.Settings.Reader
import TableAlteration.Stored.Edit
import TableAlteration.Proofs.Field.Overwriting
import TableAlteration.Proofs.Edit.Order
import TableAlteration.Proofs.Edit.Records
import TableAlteration.Proofs.Edit.Independence
import TableAlteration.Proofs.Edit.Interleaving
import TableAlteration.Proofs.Edit.Changes
import TableAlteration.Proofs.Edit.History
import TableAlteration.Proofs.Edit.LastWrites
import TableAlteration.Proofs.Edit.Fates
import TableAlteration.Proofs.Edit.Drafts
import TableAlteration.Proofs.Edit.Rows
import TableAlteration.Proofs.Edit.Runs
import TableAlteration.Proofs.Edit.Ends
import TableAlteration.Proofs.Edit.Plans
import TableAlteration.Proofs.Edit.Simplification
import TableAlteration.Proofs.Run.Basic
import TableAlteration.Proofs.Edit.Refusals
import TableAlteration.Proofs.Run.Preparation
import TableAlteration.Proofs.Run.Rebuild
import TableAlteration.Proofs.Store.Placing
import TableAlteration.Proofs.Store.Catalog
import TableAlteration.Proofs.Edit.InPlace
import TableAlteration.Proofs.Run.Commit
import TableAlteration.Proofs.Run.FieldOrder
import TableAlteration.Proofs.Edit.Untouched
import TableAlteration.Proofs.Store.Extended
import TableAlteration.Proofs.Run.ExtendedData
import TableAlteration.Proofs.Edit.Places
import TableAlteration.Proofs.Edit.NormalForm
import TableAlteration.Proofs.Edit.Idempotence
import TableAlteration.Proofs.CopyPlan
import TableAlteration.Proofs.Run.Agreement
import TableAlteration.Proofs.Edit.Keys
import TableAlteration.Proofs.Edit.Coherence
import TableAlteration.Proofs.Edit.Cancellation
import TableAlteration.Proofs.Edit.Indexes
import TableAlteration.Proofs.Edit.Renames
import TableAlteration.Proofs.Run.Planning
import TableAlteration.Proofs.Run.Estimate
import TableAlteration.Proofs.Run.Columns
import TableAlteration.Proofs.Decimal.Written
import TableAlteration.Proofs.Sql.Reader
import TableAlteration.Proofs.Sql.Literals
import TableAlteration.Proofs.Sql.CopyStatement
import TableAlteration.Proofs.Sql.CreateStatement
import TableAlteration.Proofs.Edit.FieldInvariants
import TableAlteration.Proofs.Edit.IndexNames
import TableAlteration.Proofs.Edit.Replay
import TableAlteration.Proofs.Store.Unchanged
import TableAlteration.Proofs.Run.Interrupted
import TableAlteration.Proofs.Field.Attributes
import TableAlteration.Proofs.Field.Assignments
import TableAlteration.Proofs.Edit.Assignments
import TableAlteration.Proofs.Edit.Survivors
import TableAlteration.Proofs.Edit.Bindings
import TableAlteration.Proofs.Run.RowWrites
import TableAlteration.Proofs.Decimal.Reader
import TableAlteration.Proofs.Sql.Decoding
import TableAlteration.Proofs.Sql.Supplied
import TableAlteration.Proofs.Field.Names
import TableAlteration.Proofs.Field.Updates
import TableAlteration.Proofs.Field.Ownership
import TableAlteration.Proofs.Run.TemporaryName
import TableAlteration.Proofs.Edit.Provenance
import TableAlteration.Proofs.Edit.Nullability
import TableAlteration.Proofs.Edit.PrimaryKeys
import TableAlteration.Proofs.Store.Rewriting
import TableAlteration.Proofs.Table.EffectiveIndexes
import TableAlteration.Proofs.Store.Extensions
import TableAlteration.Proofs.Edit.Slots
import TableAlteration.Proofs.Edit.SlotIdentity
