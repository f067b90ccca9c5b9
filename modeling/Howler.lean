import Howler.Classification.Cache
import Howler.Classification.Enforce
import Howler.Classification.Filter
import Howler.Classification.NormalForm
import Howler.Classification.MinMix
import Howler.Lucene.Meaning
import Howler.Lucene.Sanitize
import Howler.Lucene.Ranges
import Howler.Lucene.Words
import Howler.Documents.FlattenDeep
import Howler.Documents.Delta
import Howler.Documents.Nested
import Howler.Documents.Prune
import Howler.Cases.Removal
import Howler.Cases.RulePatch
import Howler.Correlation.ActiveRules
import Howler.Correlation.Histories
import Howler.Correlation.Counting
import Howler.Hits.Metadata
import Howler.Hits.Serial
import Howler.Hits.Voting
import Howler.Security.Quota
import Howler.Datastore.Bulk
import Howler.Datastore.Histogram
import Howler.Datastore.Ledger
import Howler.Datastore.Marked
import Howler.Datastore.Partial
import Howler.Datastore.Ensured
import Howler.Datastore.Restored
import Howler.Datastore.Validation
import Howler.Remote.Named
import Howler.Remote.Lock
import Howler.Remote.Priority
import Howler.Actions.Report
import Howler.Auth.Basic
import Howler.Auth.Apikeys
import Howler.Auth.AccountFields
import Howler.Ingestion.Deduplication
import Howler.Bundles.Runs
import Howler.Actions.Serving
import Howler.Systems.RelyGuarantee
import Howler.Dossiers.Safety
import Howler.Cronjobs.Sweeping
