import Dialectical.Console
import Dialectical.Framework.Builder
import Dialectical.Reasoner
import Dialectical.Sat.Lexicographic
import Dialectical.Proofs.Information
import Dialectical.Proofs.Operator
import Dialectical.Proofs.Encoders
import Dialectical.Proofs.Ensures
import Dialectical.Proofs.Sessions
import Dialectical.Proofs.Refinement
import Dialectical.Proofs.Completions
import Dialectical.Proofs.Generators
import Dialectical.Proofs.Attacks
import Dialectical.Proofs.Grounding
import Dialectical.Proofs.Engines
import Dialectical.Proofs.Stability
import Dialectical.Proofs.Naivety
import Dialectical.Proofs.Completeness
import Dialectical.Proofs.Pipelines
import Dialectical.Proofs.Results
import Dialectical.Proofs.LinkTypes
import Dialectical.Proofs.WorstCases
import Dialectical.Proofs.Bipolarity
import Dialectical.Proofs.Confinement
import Dialectical.Proofs.Pruners
import Dialectical.Proofs.Maximization
import Dialectical.Proofs.Preference
import Dialectical.Proofs.Plans
import Dialectical.Proofs.Listings
import Dialectical.Proofs.Reasoners
import Dialectical.Proofs.Inclusions
import Dialectical.Proofs.Queries
import Dialectical.Proofs.Pruning
import Dialectical.Proofs.Assemblies
import Dialectical.Proofs.Requests
import Dialectical.Proofs.Attempts
import Dialectical.Proofs.Accounting
import Dialectical.Proofs.Holdings
import Dialectical.Proofs.Releases
import Dialectical.Proofs.Extensions
import Dialectical.Proofs.Simplification
import Dialectical.Proofs.Composition
import Dialectical.Proofs.Reducts
import Dialectical.Proofs.Histories
import Dialectical.Proofs.Verdicts
import Dialectical.Proofs.FirstOccurrences
import Dialectical.Proofs.Graph
import Dialectical.Proofs.Labels
import Dialectical.Proofs.Building
import Dialectical.Proofs.Freshness
import Dialectical.Proofs.Allocation
