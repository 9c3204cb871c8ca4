import MachineLang.Resolver.Basic
import MachineLang.Resolver.Expansion
import MachineLang.Resolver.Tracking
import MachineLang.Statement.Dump
import MachineLang.Statement.Recorder
import MachineLang.Ty.Assignable
import MachineLang.Ty.Table
import MachineLang.Proofs.Scope.Coherent
import MachineLang.Proofs.Scope.Reach
import MachineLang.Proofs.Resolver.Expansion
import MachineLang.Proofs.Resolver.Memo
import MachineLang.Proofs.Resolver.History
import MachineLang.Proofs.Resolver.Outcome
import MachineLang.Proofs.Resolver.Rest
import MachineLang.Proofs.Resolver.Spelling
import MachineLang.Proofs.Resolver.Inlining
import MachineLang.Proofs.Resolver.WellScoped
import MachineLang.Proofs.Ty.Assignable
import MachineLang.Proofs.Ty.Preorder
import MachineLang.Proofs.Ty.TableRun
import MachineLang.Proofs.Ty.Reading
import MachineLang.Proofs.Resolver.Identity
import MachineLang.Proofs.Expr.Reading
import MachineLang.Proofs.Statement.Nesting
import MachineLang.Proofs.Statement.Visits
import MachineLang.Proofs.Statement.Reading
import MachineLang.Proofs.Resolver.Parallel
import MachineLang.Proofs.Resolver.Loosening
import MachineLang.Proofs.Resolver.Widening
import MachineLang.Proofs.Resolver.Listing
import MachineLang.Proofs.Scope.Requests
import MachineLang.Proofs.Scope.Height
import MachineLang.Resolver.Counters
import MachineLang.Proofs.Resolver.Counters
import MachineLang.Proofs.Resolver.Capacity
import MachineLang.Proofs.Ty.Clash
import MachineLang.Proofs.Ty.Context
import MachineLang.Proofs.Ty.Data
import MachineLang.Proofs.Ty.Rigid
import MachineLang.Proofs.Statement.Wrapping
import MachineLang.Proofs.Statement.CallTree
import MachineLang.Proofs.Statement.Normalization
import MachineLang.Proofs.Statement.Pruning
import MachineLang.Proofs.Statement.LoopDepth
import MachineLang.Proofs.Statement.Layout
import MachineLang.Proofs.Statement.Indentation
import MachineLang.Proofs.Text.ByteOrder
import MachineLang.Proofs.Ty.EventSet
