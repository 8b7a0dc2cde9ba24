import FilterLang.Backend.Recorder
import FilterLang.Json.Compact
import FilterLang.Json.Record
import FilterLang.Json.Tree
import FilterLang.Limits.Environment
import FilterLang.Reading
import FilterLang.Tree.Text
import FilterLang.Vocabulary
import FilterLang.Proofs.Text.Cursor
import FilterLang.Proofs.Token.Segmentation
import FilterLang.Proofs.Token.Stream
import FilterLang.Proofs.Token.Concatenation
import FilterLang.Proofs.Token.Literal
import FilterLang.Proofs.Token.Session
import FilterLang.Proofs.Limits.Environment
import FilterLang.Proofs.Tree.Flat
import FilterLang.Proofs.Draft.Grammar
import FilterLang.Proofs.Draft.Context
import FilterLang.Proofs.Draft.Alike
import FilterLang.Proofs.Draft.Levels
import FilterLang.Proofs.Reading.Acceptance
import FilterLang.Proofs.Reading.Canonical
import FilterLang.Proofs.Reading.Refusal
import FilterLang.Proofs.Reading.Layout
import FilterLang.Proofs.Reading.Nesting
import FilterLang.Proofs.Tree.Text
import FilterLang.Proofs.Backend.Postorder
import FilterLang.Proofs.Backend.Refusals
import FilterLang.Proofs.Json.RoundTrip
import FilterLang.Proofs.Reading.Events
import FilterLang.Proofs.Json.Compact
import FilterLang.Proofs.Json.Spelling
import FilterLang.Proofs.Vocabulary
import FilterLang.Proofs.Token.Counters
import FilterLang.Proofs.Descent.Bounds
