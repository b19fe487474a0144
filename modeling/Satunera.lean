import Satunera.Contracts.Containment
import Satunera.Store.BlobRace
import Satunera.Contracts.DirSource
import Satunera.Base.Disk
import Satunera.Store.Blob
import Satunera.Contracts.Load
import Satunera.Contracts.Source
import Satunera.Base.FileTree
import Satunera.Contracts.Config
import Satunera.Contracts.Problem
import Satunera.Base.Table
import Satunera.Base.SchemaModel
import Satunera.Base.Pattern
import Satunera.Base.Serde
import Satunera.Contracts.VerdictSchema
import Satunera.Contracts.Verdict
import Satunera.Base.JsonSchema
import Satunera.Base.Json
import Satunera.Base.Text
import Satunera.Store.Concurrency
import Satunera.Store.Progress
import Satunera.Store.Lifecycle
import Satunera.Store.Reads
import Satunera.Store.TextForms
import Satunera.Base.Digits
import Satunera.Base.WriteLock
import Satunera.Store.Change
import Satunera.Contracts.Agreement
import Satunera.Base.Sorting
import Satunera.Store.Catalog
import Satunera.Store.Dedupe
import Satunera.Store.History
import Satunera.Store.Readback
import Satunera.Store.Recovery
import Satunera.Contracts.Listed
import Satunera.Contracts.Normalize
import Satunera.Contracts.Restriction
import Satunera.Store.BlobMap
import Satunera.Contracts.Forgiving
import Satunera.Contracts.Rejection
import Satunera.Contracts.Rejudge
import Satunera.Store.BlobKey
import Satunera.Store.Uniqueness
import Satunera.Base.Indexed
import Satunera.Base.Simulation
import Satunera.Store.Ledger
import Satunera.Store.Refinement
import Satunera.Base.Linearize
import Satunera.Store.Linearizable
import Satunera.Base.Parts
import Satunera.Store.Isolation
import Satunera.Store.Monotone
import Satunera.Store.BlobDisk
import Satunera.Contracts.VerdictErrors
import Satunera.Contracts.Diagnostics
import Satunera.Base.Nested
import Satunera.Base.Defaults
import Satunera.Contracts.Scaffold
import Satunera.Contracts.Manifest
import Satunera.Store.BlobLinear
import Satunera.Contracts.Defaults
import Satunera.Base.PathText
