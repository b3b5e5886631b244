import OracleMarkets.Main
import OracleMarkets.Proofs.Acceptance
import OracleMarkets.Proofs.Accounting
import OracleMarkets.Proofs.Artifact
import OracleMarkets.Proofs.Classification
import OracleMarkets.Proofs.CountedProviders
import OracleMarkets.Proofs.Disabling
import OracleMarkets.Proofs.Failures
import OracleMarkets.Proofs.Filters
import OracleMarkets.Proofs.FinalCheck
import OracleMarkets.Proofs.Grouping
import OracleMarkets.Proofs.Ingestion
import OracleMarkets.Proofs.Instants
import OracleMarkets.Proofs.Metadata
import OracleMarkets.Proofs.Reingestion
import OracleMarkets.Proofs.Renaming
import OracleMarkets.Proofs.RoundTrip
import OracleMarkets.Proofs.SharedDepth
import OracleMarkets.Proofs.Spelling
import OracleMarkets.Proofs.Stage.Composition
import OracleMarkets.Proofs.Stage.Conflicts
import OracleMarkets.Proofs.Stage.FloorOrder
import OracleMarkets.Proofs.Stage.Overrides
import OracleMarkets.Proofs.Stage.Rivals
import OracleMarkets.Proofs.Stage.Sides
import OracleMarkets.Proofs.Stage.Unranked
