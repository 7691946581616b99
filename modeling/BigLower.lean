import BigLower.Fault
import BigLower.Names.Lemmas
import BigLower.Names.Shared
import BigLower.Names.Table
import BigLower.Pass.Basic
import BigLower.Pass.Library
import BigLower.Pass.Rule
import BigLower.Pass.Rules
import BigLower.Pass.Run
import BigLower.Proofs.Abreast
import BigLower.Proofs.Accounting
import BigLower.Proofs.Batches
import BigLower.Proofs.Branches
import BigLower.Proofs.Bystanders
import BigLower.Proofs.Caching
import BigLower.Proofs.Capacity
import BigLower.Proofs.Coherence
import BigLower.Proofs.Compound
import BigLower.Proofs.Copying
import BigLower.Proofs.Counting
import BigLower.Proofs.Decisions
import BigLower.Proofs.Declarers
import BigLower.Proofs.Declaring
import BigLower.Proofs.DeepCopies
import BigLower.Proofs.Effects
import BigLower.Proofs.Entering
import BigLower.Proofs.Fates
import BigLower.Proofs.Faults
import BigLower.Proofs.Flow
import BigLower.Proofs.Following
import BigLower.Proofs.Forest
import BigLower.Proofs.Frame
import BigLower.Proofs.Growth
import BigLower.Proofs.Heights
import BigLower.Proofs.Interleaving
import BigLower.Proofs.Judging
import BigLower.Proofs.Lexical
import BigLower.Proofs.Likeness
import BigLower.Proofs.Lines
import BigLower.Proofs.Lowering
import BigLower.Proofs.Marks
import BigLower.Proofs.MemberCalls
import BigLower.Proofs.Native
import BigLower.Proofs.Origins
import BigLower.Proofs.Parsing
import BigLower.Proofs.Planning
import BigLower.Proofs.Printing
import BigLower.Proofs.Progress
import BigLower.Proofs.Quiet
import BigLower.Proofs.Quoting
import BigLower.Proofs.Ranges
import BigLower.Proofs.Ranks
import BigLower.Proofs.Reading
import BigLower.Proofs.References
import BigLower.Proofs.Relowering
import BigLower.Proofs.Renaming
import BigLower.Proofs.Rescoping
import BigLower.Proofs.Resolving
import BigLower.Proofs.Revisiting
import BigLower.Proofs.Rooted
import BigLower.Proofs.Rules
import BigLower.Proofs.ScopeTables
import BigLower.Proofs.Scoping
import BigLower.Proofs.Soundness
import BigLower.Proofs.Spellings
import BigLower.Proofs.Steps
import BigLower.Proofs.Totality
import BigLower.Proofs.Tour
import BigLower.Proofs.Transparency
import BigLower.Proofs.Trees
import BigLower.Proofs.Unambiguous
import BigLower.Proofs.Units
import BigLower.Proofs.Walk
import BigLower.Scopes.Basic
import BigLower.Scopes.Hoist
import BigLower.Scopes.Resolve
import BigLower.Store.Basic
import BigLower.Store.Copy
import BigLower.Store.Draft
import BigLower.Store.Lemmas
import BigLower.Store.Preorder
import BigLower.Syntax.Layout
import BigLower.Syntax.Node
import BigLower.Syntax.Operator
import BigLower.Syntax.Quoted
import BigLower.Syntax.Span
import BigLower.Syntax.Tree
import BigLower.Taint.Facts
import BigLower.Taint.Judge
import BigLower.Taint.Lemmas
import BigLower.Taint.Method
import BigLower.Unit
