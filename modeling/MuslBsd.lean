import MuslBsd.Argp.Alias
import MuslBsd.Argp.Areas
import MuslBsd.Argp.Delivery
import MuslBsd.Argp.Dispatch
import MuslBsd.Argp.DocRuns
import MuslBsd.Argp.Docs
import MuslBsd.Argp.Elements
import MuslBsd.Argp.Faults
import MuslBsd.Argp.Found
import MuslBsd.Argp.Groups
import MuslBsd.Argp.Keys
import MuslBsd.Argp.Lookup
import MuslBsd.Argp.Order
import MuslBsd.Argp.Protocol
import MuslBsd.Argp.Rejected
import MuslBsd.Argp.Rounds
import MuslBsd.Argp.Scan
import MuslBsd.Argp.Storage
import MuslBsd.Compat.Cmdline
import MuslBsd.Compat.Preload
import MuslBsd.Fts.Ancestry
import MuslBsd.Fts.Children
import MuslBsd.Fts.Cycles
import MuslBsd.Fts.Effects
import MuslBsd.Fts.Framing
import MuslBsd.Fts.Heap
import MuslBsd.Fts.Moves
import MuslBsd.Fts.Palloc
import MuslBsd.Fts.Refinement.Build
import MuslBsd.Fts.Refinement.Calls
import MuslBsd.Fts.Runs
import MuslBsd.Fts.Setup
import MuslBsd.Fts.Sort
import MuslBsd.Fts.Static.Tree
import MuslBsd.Fts.Verdicts
import MuslBsd.Help.Bounds
import MuslBsd.Help.ChildOrder
import MuslBsd.Help.Comparable
import MuslBsd.Help.Fmtstream
import MuslBsd.Help.Hol
import MuslBsd.Help.Listing
import MuslBsd.Help.Operations
import MuslBsd.Help.Order
import MuslBsd.Help.Shorts
import MuslBsd.Help.Truncation
import MuslBsd.Help.Types
import MuslBsd.Help.Usage
import MuslBsd.Help.Wrapping
import MuslBsd.Manifest.Check
import MuslBsd.Manifest.Errors
import MuslBsd.Manifest.Merge
import MuslBsd.Obstack.Alignment
import MuslBsd.Obstack.Free
import MuslBsd.Obstack.Guarantees
import MuslBsd.Obstack.NewChunk
import MuslBsd.Obstack.Printf
import MuslBsd.Pthread.Once
import MuslBsd.Pthread.Resolver
import MuslBsd.Pthread.StaticMutex
import MuslBsd.Queue.Xsimpleq
import MuslBsd.Scan.GnuHash
import MuslBsd.Scan.Handoff
import MuslBsd.Scan.Layout
import MuslBsd.Scan.Providers
import MuslBsd.Scan.Provision
import MuslBsd.Scan.Reachability
import MuslBsd.Scan.SymbolTable
import MuslBsd.Scan.Versions
import MuslBsd.Support.Filtered
import MuslBsd.Support.Links
import MuslBsd.Support.RedBlack
import MuslBsd.Support.Rounding
import MuslBsd.Support.SearchTree
import MuslBsd.Support.Worklist
import MuslBsd.Trees.Rb
import MuslBsd.Trees.RbShape
import MuslBsd.Trees.RbInsert
import MuslBsd.Trees.RbSearch
import MuslBsd.Trees.RbRemove
import MuslBsd.Support.Sessions
import MuslBsd.Trees.RbRuns
import MuslBsd.Trees.Splay
import MuslBsd.Trees.SplayShape
import MuslBsd.Trees.SplayRuns
import MuslBsd.Queue.Macros
import MuslBsd.Queue.Effects
import MuslBsd.Queue.Runs
import MuslBsd.Fts.Descent
import MuslBsd.Fts.Fresh
import MuslBsd.Fts.Nesting
import MuslBsd.Fts.Ending
