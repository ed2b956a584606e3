import OrangeSQL.Page
import OrangeSQL.BufferPool
import OrangeSQL.TableScan
import OrangeSQL.BufferPoolInvariant
import OrangeSQL.BufferPoolLookup
import OrangeSQL.LogManager
import OrangeSQL.LogRestart
import OrangeSQL.Library.AssocList
import OrangeSQL.LockManager
import OrangeSQL.Wal
import OrangeSQL.TransactionManager
import OrangeSQL.Engine
import OrangeSQL.LogBuffering
import OrangeSQL.CommitDurability
import OrangeSQL.PageWrites
import OrangeSQL.WriteAhead
import OrangeSQL.Recovery
import OrangeSQL.RecoveryAnalysis
import OrangeSQL.BTree
import OrangeSQL.BTreeRefinement
import OrangeSQL.LockRuns
import OrangeSQL.DeadlockSearch
import OrangeSQL.FileManager
import OrangeSQL.FilePages
import OrangeSQL.WriteBack
import OrangeSQL.Lexer
import OrangeSQL.LexerSteps
import OrangeSQL.StringLiterals
import OrangeSQL.LexerLocality
import OrangeSQL.Trivia
import OrangeSQL.Ast
import OrangeSQL.Library.Parsing
import OrangeSQL.SqlParser
import OrangeSQL.ParserTermination
import OrangeSQL.ExpressionPrinting
import OrangeSQL.StatementPrinting
import OrangeSQL.StatementReading
import OrangeSQL.LogBytes
import OrangeSQL.Checkpoint
import OrangeSQL.CheckpointReading
import OrangeSQL.JoinOperator
import OrangeSQL.CheckpointUndo
import OrangeSQL.Catalog
import OrangeSQL.CatalogIndexes
import OrangeSQL.CatalogConsistency
import OrangeSQL.CatalogPersistence
import OrangeSQL.PageRecords
import OrangeSQL.PageLayout
import OrangeSQL.TableStore
import OrangeSQL.QueryExecutor
import OrangeSQL.StoreRows
import OrangeSQL.StatementEffects
import OrangeSQL.FailedStatements
import OrangeSQL.StatementRollback
import OrangeSQL.UpdateOnce
import OrangeSQL.DeadlockVictims
import OrangeSQL.LogChains
import OrangeSQL.TransactionLifecycle
import OrangeSQL.Library.Threads
import OrangeSQL.SelfDeadlock
import OrangeSQL.BTreeIterator
import OrangeSQL.BTreeLeaf
import OrangeSQL.BTreeScans
import OrangeSQL.BTreeSplit
import OrangeSQL.BTreePages
import OrangeSQL.PageReuse
import OrangeSQL.Library.StateRules
import OrangeSQL.PooledTable
import OrangeSQL.TableReopening
import OrangeSQL.Library.FixedWidth
import OrangeSQL.NodeBytes
import OrangeSQL.BTreePaths
import OrangeSQL.BTreeDuplicates
import OrangeSQL.BTreeMerge
import OrangeSQL.BTreeRedistribute
import OrangeSQL.BTreeRemoval
import OrangeSQL.Library.ByteReader
import OrangeSQL.ValueBytes
import OrangeSQL.WalRecords
import OrangeSQL.WalTruncation
import OrangeSQL.RecordCodec
import OrangeSQL.LogCodec
import OrangeSQL.LogLookup
import OrangeSQL.LogArchives
import OrangeSQL.ReadFailures
import OrangeSQL.PoolTermination
import OrangeSQL.LockOwners
import OrangeSQL.Library.Grouping
import OrangeSQL.WaitQueues
import OrangeSQL.CompletedTransactions
import OrangeSQL.Savepoints
import OrangeSQL.EqualityText
import OrangeSQL.LexerPositions
import OrangeSQL.ValueOrder
import OrangeSQL.ExpressionEvaluation
import OrangeSQL.PredicateParsing
import OrangeSQL.SetOperations
import OrangeSQL.Library.PullStreams
import OrangeSQL.ExecutorOperators
import OrangeSQL.OperatorTrees
import OrangeSQL.LimitPlanning
import OrangeSQL.StatementTraces
import OrangeSQL.ColumnNames
import OrangeSQL.Sequences
import OrangeSQL.RowValidation
import OrangeSQL.IndexCoverage
import OrangeSQL.TableDropping
import OrangeSQL.CostEstimates
import OrangeSQL.SelectFailures
import OrangeSQL.CountedTables
import OrangeSQL.RecordCounts
import OrangeSQL.OrderedScans
import OrangeSQL.Base64
import OrangeSQL.Crc32
import OrangeSQL.PageChecksum
import OrangeSQL.Aggregates
import OrangeSQL.Histograms
import OrangeSQL.ThreadPool
import OrangeSQL.SchemaTables
import OrangeSQL.BTreeMaps
import OrangeSQL.BTreeInsertion
import OrangeSQL.BTreeBulk
import OrangeSQL.PoolMemory
import OrangeSQL.ThreadPoolWakeups
import OrangeSQL.StatementText
import OrangeSQL.OrderedLocking
import OrangeSQL.TwoPhaseTransactions
import OrangeSQL.BTreeValidation
import OrangeSQL.BTreeReopening
import OrangeSQL.StatementFrames
import OrangeSQL.SelectAnswers
