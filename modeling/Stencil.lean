import Stencil.Assoc
import Stencil.Attribute
import Stencil.Binary64
import Stencil.Command.Options
import Stencil.Command.Plan
import Stencil.Context
import Stencil.Disk
import Stencil.Format
import Stencil.Format.Escape
import Stencil.Item
import Stencil.LineCount
import Stencil.Loader
import Stencil.Main
import Stencil.Node
import Stencil.Operator
import Stencil.Path
import Stencil.Problem
import Stencil.Proofs.Item.Leftmost
import Stencil.Proofs.Item.Tiling
import Stencil.Proofs.Render.Agenda
import Stencil.Proofs.Render.Jumps
import Stencil.Proofs.Render.Meets
import Stencil.Proofs.Tag.Extent
import Stencil.Proofs.Tree.Leaves
import Stencil.Proofs.Tree.Reading
import Stencil.Proofs.Tree.Stack
import Stencil.Proofs.Written.Draft
import Stencil.Proofs.Written.Meaning
import Stencil.Proofs.Written.RoundTrip
import Stencil.Proofs.Written.Scanning
import Stencil.Proofs.Written.Spelling
import Stencil.Render
import Stencil.Report
import Stencil.Scope
import Stencil.Scope.OfToml
import Stencil.Sink
import Stencil.Store
import Stencil.Tag
import Stencil.Tag.Meaning
import Stencil.TagSet
import Stencil.TagSet.OfToml
import Stencil.Template
import Stencil.Text
import Stencil.Text.Columns
import Stencil.Text.Continuation
import Stencil.Text.Decode
import Stencil.Text.Ranges
import Stencil.Text.Wide
import Stencil.Text.ZeroWidth
import Stencil.Token
import Stencil.Toml.Date
import Stencil.Toml.Document
import Stencil.Toml.Layout
import Stencil.Toml.Number
import Stencil.Toml.Quoted
import Stencil.Toml.Reader
import Stencil.Toml.Value
import Stencil.Tree
import Stencil.Proofs.Render.Inclusion
import Stencil.Proofs.Render.Levels
import Stencil.Proofs.Render.Session
import Stencil.Proofs.Render.Owners
import Stencil.Proofs.Render.Refusal
import Stencil.Proofs.Render.Depth
import Stencil.Proofs.Text.Lines
import Stencil.Proofs.Item.Counting
import Stencil.Proofs.Item.Order
import Stencil.Proofs.Tree.LeftOut
import Stencil.Proofs.Tree.Locality
import Stencil.Proofs.Render.Texts
import Stencil.Proofs.Render.Abreast
import Stencil.Proofs.Render.Afresh
import Stencil.Proofs.Render.Keeping
import Stencil.Proofs.Sink.Pour
import Stencil.Proofs.Render.Room
import Stencil.Proofs.Render.Channels
import Stencil.Proofs.Render.Again
import Stencil.Proofs.Render.Pending
import Stencil.Proofs.Render.Mentioned
import Stencil.Proofs.Item.Places
import Stencil.Proofs.Tree.Places
import Stencil.Proofs.Render.Located
import Stencil.Proofs.Report.Lines
import Stencil.Proofs.Report.Marks
import Stencil.Proofs.Item.Behind
import Stencil.Proofs.Item.Joined
import Stencil.Proofs.Tree.Joined
import Stencil.Proofs.Item.Sealed
import Stencil.Proofs.Render.Joined
import Stencil.Proofs.Item.Progress
import Stencil.Proofs.Text.Utf8
import Stencil.Proofs.Render.Utf8
import Stencil.Proofs.Path.Components
import Stencil.Proofs.Render.Likeness
import Stencil.Proofs.Render.Respelled
import Stencil.Proofs.Disk.Writing
import Stencil.Proofs.Command.Output
import Stencil.Proofs.Attribute.Grammar
import Stencil.Proofs.Tag.Closing
import Stencil.Proofs.Text.Continued
import Stencil.Proofs.Render.Plain
import Stencil.Proofs.Item.Sequence
import Stencil.Proofs.Tree.Sequence
import Stencil.Proofs.Format.Undone
import Stencil.Proofs.Tag.Longest
import Stencil.Proofs.Tree.Nesting
import Stencil.Proofs.Tree.Chain
import Stencil.Proofs.Render.Branch
import Stencil.Proofs.TagSet.Keyword
import Stencil.Proofs.Tag.Arrangement
import Stencil.Proofs.Tree.Arrangement
import Stencil.Proofs.Toml.Distinct
import Stencil.Proofs.Scope.Encoded
import Stencil.Proofs.Render.Unheard
import Stencil.Proofs.Command.Pretty
