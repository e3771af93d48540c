import PipelineTemplate.Main
import PipelineTemplate.Proofs.Expansion.Alike
import PipelineTemplate.Proofs.Expansion.Chain
import PipelineTemplate.Proofs.Expansion.Full
import PipelineTemplate.Proofs.Expansion.Materialized
import PipelineTemplate.Proofs.Expansion.Overlay
import PipelineTemplate.Proofs.Expansion.Plain
import PipelineTemplate.Proofs.Expansion.Preserving
import PipelineTemplate.Proofs.Expansion.Repetition
import PipelineTemplate.Proofs.Expansion.Termination
import PipelineTemplate.Proofs.Expansion.Wording
import PipelineTemplate.Proofs.Expression.Counting
import PipelineTemplate.Proofs.Expression.Delimiter
import PipelineTemplate.Proofs.Expression.Format
import PipelineTemplate.Proofs.Expression.Outcome
import PipelineTemplate.Proofs.Expression.Resolution
import PipelineTemplate.Proofs.Expression.Substitution
import PipelineTemplate.Proofs.Resources.Criteria
import PipelineTemplate.Proofs.Settings
import PipelineTemplate.Proofs.Template.Canonical
import PipelineTemplate.Proofs.Value.Json.RoundTrip
import PipelineTemplate.Proofs.Value.Numeral
import PipelineTemplate.Proofs.Yaml.Protected.Outcome
import PipelineTemplate.Proofs.Yaml.RoundTrip
